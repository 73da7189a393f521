/-
  AmebaLinux.Rcp.FwFiles — the firmware pairs found in two folders
  (`openthread/RTKRCP_Config_CFU_Tool_V1.02_20241218/FwUpdateProcess.c`: `getOfferBins`,
  `getPayloadBins`; `FwUpdateSubProcess.c`: `LoadOffer`), as `FwUpdateMainProcess` calls
  them, on slots that are cleared.

  A folder is what `readdir` returns, in its order. The slots are the ones in use: the
  others have an empty offer name, in which no suffix is found. `none` is a call that
  returns false; the update ends there, whatever the slots hold.
-/

import AmebaLinux.Rcp.FwUpdateProcess

namespace AmebaLinux.Rcp.FwUpdate

def offerBinSuffix : List Char := ['.', 'o', 'f', 'f', 'e', 'r', '.', 'b', 'i', 'n']
def srcBinSuffix : List Char := ['.', 'p', 'a', 'y', 'l', 'o', 'a', 'd', '.', 'b', 'i', 'n']
def fwDirnameLenMax : Nat := 512
def fwNameLenMax : Nat := 128

/-- The text before the first place where `strstr` finds the pattern. -/
def cut (pattern : List Char) : List Char → Option (List Char)
  | [] => if pattern = [] then some [] else none
  | c :: text => if pattern.isPrefixOf (c :: text) then some [] else (cut pattern text).map (c :: ·)

/-- A folder's name, and its entries if it opens. -/
structure Listing where
  path : List Char
  entries : Option (List (List Char))
  deriving DecidableEq, Repr

/-- The checks before the loop, the same for both folders. -/
def Listing.read (folder : Listing) : Option (List (List Char)) :=
  if folder.path.length + 1 > fwDirnameLenMax then none else folder.entries

/-! ## Offers -/

/-- `readBuff`; `none` for a file that does not open or is too short. -/
def loadOffer (file : Option (List UInt8)) : Option (List UInt8) :=
  match file with
  | none => none
  | some bytes => if (bytes.take 16).length = 16 then some (bytes.take 16) else none

def offerLoop (file : List Char → Option (List UInt8)) (units : List FwFileUnit) : List (List Char) → Option (List FwFileUnit)
  | [] => some units
  | name :: names =>
    match cut offerBinSuffix name with
    | none => offerLoop file units names
    | some _ =>
      if name.length + 1 > fwNameLenMax then none
      else if units.length < fwBinCountMax then
        match loadOffer (file name) with
        | none => offerLoop file units names
        | some offerBuff => offerLoop file (units ++ [⟨name, [], offerBuff.getD 1 0 &&& 0x0f, false, false⟩]) names
      else none

/-- `file` is what each offer's file holds. -/
def getOfferBins (file : List Char → Option (List UInt8)) (folder : Listing) : Option (List FwFileUnit) :=
  folder.read.bind (offerLoop file [])

/-! ## Payloads -/

def FwFileUnit.stem (u : FwFileUnit) : Option (List Char) := cut offerBinSuffix u.offerName

def FwFileUnit.pair (u : FwFileUnit) (name : List Char) : FwFileUnit :=
  { u with srcBinName := name, isSrcbinExist := true, isDownload := false }

/-- The search for the payload's slot. -/
def attach (stem name : List Char) : List FwFileUnit → List FwFileUnit
  | [] => []
  | u :: units => if u.stem = some stem then u.pair name :: units else u :: attach stem name units

def payloadLoop (units : List FwFileUnit) : List (List Char) → Option (List FwFileUnit)
  | [] => some units
  | name :: names =>
    match cut srcBinSuffix name with
    | none => payloadLoop units names
    | some stem => if name.length + 1 > fwNameLenMax then none else payloadLoop (attach stem name units) names

def getPayloadBins (folder : Listing) (units : List FwFileUnit) : Option (List FwFileUnit) :=
  folder.read.bind (payloadLoop units)

/-- The slots with which the update starts. -/
def getBins (file : List Char → Option (List UInt8)) (offerFolder srcBinFolder : Listing) : Option (List FwFileUnit) :=
  (getOfferBins file offerFolder).bind (getPayloadBins srcBinFolder)

end AmebaLinux.Rcp.FwUpdate
