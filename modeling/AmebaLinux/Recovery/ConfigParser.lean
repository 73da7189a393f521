/-
  AmebaLinux.Recovery.ConfigParser — the image configuration of an update package
  (`recovery/config_parser.c`: `get_image_info`, `get_array_item`,
  `parse_all_partitions`, `parse_config`).

  A document is the tree that cJSON makes of it (`AmebaLinux.Lib.CJson`), or none where the
  file cannot be read or is not JSON. The lookups are those of any library as cJSON's
  documentation has it.

  Reading the string of an item that has none, turning an item that is no number into an
  `int` (its value is NaN) and copying more than an array holds are outside the model
  (`broken`). Where `malloc` may fail is open.
-/

import AmebaLinux.Lib.CJson
import AmebaLinux.Recovery.PartitionInfo

namespace AmebaLinux.Recovery.ConfigParser

open AmebaLinux.Lib.CString
open AmebaLinux.Lib.CJson (Json Library)
open AmebaLinux.Recovery.Install (Image images)
open AmebaLinux.Recovery.PartitionInfo (dtbInfo)

/-! ## An element -/

/-- How reading a field, or an element, ends. -/
inductive Outcome (α : Type) where
  | broken
  | failed
  | done (a : α)

def Outcome.bind {α β : Type} (o : Outcome α) (f : α → Outcome β) : Outcome β :=
  match o with
  | .broken => .broken
  | .failed => .failed
  | .done a => f a

/-- What `retImages[i]` holds. -/
structure Element where
  dtbInfo : List UInt8
  imagePath : List UInt8
  flashType : Int
  deriving DecidableEq, Repr

/-- `dtb_info` and `image_path` have 128 bytes. -/
def fieldMax : Nat := 127

section

variable (lib : Library)

/-- `get_image_info` for `name` and `path`. -/
def getString (curArrItem : Json) (partName : List UInt8) : Outcome (List UInt8) :=
  match lib.getObjectItem curArrItem partName with
  | some (.string s) =>
    if cstr s = [] then .failed
    else if fieldMax < (cstr s).length then .broken
    else .done (cstr s)
  | _ => .failed

/-- `get_image_info` for `flash_type`. -/
def getFlashType (curArrItem : Json) : Outcome Int :=
  match lib.getObjectItem curArrItem (lit "flash_type") with
  | some (.number n) => if clamp n < 0 then .failed else .done (clamp n)
  | _ => .broken

/-- The three fields, in the order of `gConfigInfo`. -/
def getImageInfo (curArrItem : Json) : Outcome Element :=
  (getString lib curArrItem (lit "name")).bind fun name =>
    (getString lib curArrItem (lit "path")).bind fun path =>
      (getFlashType lib curArrItem).bind fun flashType => .done ⟨name, path, flashType⟩

end

/-! ## The document -/

/-- What the configuration sets in an entry of `gImageInfo`. -/
structure ImageInfo where
  imagePath : List UInt8
  flashType : Int
  deriving DecidableEq, Repr

structure Globals where
  gImageInfo : Image → ImageInfo
  skipmd5 : Int

/-- The loop over `gImageInfo`: the first entry with the element's label. -/
def update (info : Image → ImageInfo) (e : Element) : Image → ImageInfo :=
  match images.find? fun k => e.dtbInfo = dtbInfo k with
  | some k => fun i => if i = k then ⟨e.imagePath, e.flashType⟩ else info i
  | none => info

section

variable (lib : Library)

/-- The loop over the elements: the result and `gImageInfo`. -/
def parseElements : List Json → (Image → ImageInfo) → Option (Int × (Image → ImageInfo))
  | [], info => some (0, info)
  | item :: items, info =>
    match getImageInfo lib item with
    | .broken => none
    | .failed => some (-1, info)
    | .done e => parseElements items (update info e)

/-- An array that is not empty. -/
def getArrayItem (fileRoot : Json) (arrName : List UInt8) : Option (List Json) :=
  match lib.getObjectItemCaseSensitive fileRoot arrName with
  | some (.array items) => if items = [] then none else some items
  | _ => none

def parseAllPartitions (malloc : Bool) (fileRoot : Json) (info : Image → ImageInfo) : Option (Int × (Image → ImageInfo)) :=
  match getArrayItem lib fileRoot (lit "images") with
  | none => some (-1, info)
  | some items => if malloc then parseElements lib items info else some (-1, info)

/-- `*skipmd5` after the lookup of `skip_md5_check`. -/
def getSkip (fileRoot : Json) (skipmd5 : Int) : Option Int :=
  match lib.getObjectItem fileRoot (lit "skip_md5_check") with
  | none => some skipmd5
  | some (.string s) => some (atoi (cstr s))
  | some _ => none

def parseConfig (malloc : Bool) (document : Option Json) (g : Globals) : Option (Int × Globals) :=
  match document with
  | none => some (-1, g)
  | some fileRoot =>
    (getSkip lib fileRoot g.skipmd5).bind fun skipmd5 =>
      (parseAllPartitions lib malloc fileRoot g.gImageInfo).map fun r => (r.1, ⟨r.2, skipmd5⟩)

end

end AmebaLinux.Recovery.ConfigParser
