/-
  AmebaLinux.Recovery.ConfigParserProofs — what a configuration leaves behind, and which
  documents the parser cannot take (see `AmebaLinux.Recovery.ConfigParser`).

  `WellFormed` and `Breaks` say of an element of `images` what its members are: the three
  fields are looked at in turn, and the first that does not fit decides. The elements
  before the first one that is not well formed have been written to `gImageInfo` by then,
  and `*skipmd5` before all of them.

  Proved:
  - `parser_unbroken_iff`: the parser comes to a result exactly when `skip_md5_check` is a
    string or missing and the first element that is not well formed does not break it
    (`numeric_skip_breaks`).
  - `config_atomic_iff`: a failure leaves everything as it was exactly when, besides, what
    was written before it is what was there (`late_failure_updates`). After a success each
    entry is what the last element with its label says.
-/

import AmebaLinux.Lib.Machine
import AmebaLinux.Recovery.ConfigParser

namespace AmebaLinux.Recovery.ConfigParser

open AmebaLinux.Lib.CString
open AmebaLinux.Lib.CJson (Json Library firstFound)
open AmebaLinux.Recovery.Install (Image images)
open AmebaLinux.Recovery.PartitionInfo (dtbInfo)

section

variable {lib : Library}

/-! ## The fields of an element -/

/-- The member is a string that is copied as `text`. -/
def TextField (lib : Library) (item : Json) (name text : List UInt8) : Prop :=
  ∃ s, lib.getObjectItem item name = some (.string s) ∧ cstr s = text ∧ text ≠ [] ∧ text.length ≤ fieldMax

/-- The member is a string that does not fit. -/
def LongField (lib : Library) (item : Json) (name : List UInt8) : Prop :=
  ∃ s, lib.getObjectItem item name = some (.string s) ∧ fieldMax < (cstr s).length

theorem string_or_failed (lib : Library) (item : Json) (name : List UInt8) :
    (∃ s, lib.getObjectItem item name = some (.string s)) ∨
      (∀ s, lib.getObjectItem item name ≠ some (.string s)) ∧ getString lib item name = .failed := by
  unfold getString
  rcases lib.getObjectItem item name with _ | _ | _ | _ | s | _ | _
  case some.string => exact Or.inl ⟨s, rfl⟩
  all_goals exact Or.inr ⟨nofun, rfl⟩

theorem getString_done_iff {item : Json} {name text : List UInt8} :
    getString lib item name = .done text ↔ TextField lib item name text := by
  rcases string_or_failed lib item name with ⟨s, hs⟩ | ⟨hno, hfailed⟩
  · have hfield : TextField lib item name text ↔ cstr s = text ∧ text ≠ [] ∧ text.length ≤ fieldMax := by
      simp [TextField, hs]
    rw [hfield, getString, hs]
    dsimp only
    split
    · rename_i hempty
      exact iff_of_false nofun (fun h => h.2.1 (h.1.symm.trans hempty))
    · rename_i hne
      split
      · rename_i hlong
        refine iff_of_false nofun ?_
        rintro ⟨rfl, -, hshort⟩
        omega
      · rename_i hshort
        constructor
        · intro h
          cases h
          exact ⟨rfl, hne, by omega⟩
        · rintro ⟨rfl, -, -⟩
          rfl
  · rw [hfailed]
    refine iff_of_false nofun ?_
    rintro ⟨s, hs, -⟩
    exact hno s hs

theorem getString_broken_iff {item : Json} {name : List UInt8} : getString lib item name = .broken ↔ LongField lib item name := by
  rcases string_or_failed lib item name with ⟨s, hs⟩ | ⟨hno, hfailed⟩
  · have hfield : LongField lib item name ↔ fieldMax < (cstr s).length := by simp [LongField, hs]
    rw [hfield, getString, hs]
    dsimp only
    split
    · rename_i hempty
      rw [hempty]
      exact iff_of_false nofun (by decide)
    · split
      · rename_i hlong
        exact iff_of_true rfl hlong
      · rename_i hshort
        exact iff_of_false nofun hshort
  · rw [hfailed]
    refine iff_of_false nofun ?_
    rintro ⟨s, hs, -⟩
    exact hno s hs

/-- `flash_type` is a number. -/
def NumberField (lib : Library) (item : Json) : Prop := ∃ n, lib.getObjectItem item (lit "flash_type") = some (.number n)

theorem getFlashType_done_iff {item : Json} {v : Int} :
    getFlashType lib item = .done v ↔ ∃ n, lib.getObjectItem item (lit "flash_type") = some (.number n) ∧
      0 ≤ clamp n ∧ v = clamp n := by
  unfold getFlashType
  rcases lib.getObjectItem item (lit "flash_type") with _ | _ | _ | n | _ | _ | _
  case some.number =>
    dsimp only
    by_cases hneg : clamp n < 0
    · rw [if_pos hneg]
      refine iff_of_false nofun ?_
      rintro ⟨n', hn, hpos, -⟩
      cases hn
      omega
    · rw [if_neg hneg]
      constructor
      · intro h
        cases h
        exact ⟨n, rfl, by omega, rfl⟩
      · rintro ⟨n', hn, -, rfl⟩
        cases hn
        rfl
  all_goals
    refine iff_of_false nofun ?_
    rintro ⟨n, hn, -⟩
    cases hn

theorem getFlashType_broken_iff {item : Json} : getFlashType lib item = .broken ↔ ¬ NumberField lib item := by
  unfold getFlashType NumberField
  rcases lib.getObjectItem item (lit "flash_type") with _ | _ | _ | n | _ | _ | _
  case some.number =>
    dsimp only
    refine iff_of_false ?_ (not_not.mpr ⟨n, rfl⟩)
    split <;> nofun
  all_goals
    refine iff_of_true rfl ?_
    rintro ⟨n, hn⟩
    cases hn

theorem Outcome.bind_done_iff {α β : Type} {o : Outcome α} {f : α → Outcome β} {b : β} :
    o.bind f = .done b ↔ ∃ a, o = .done a ∧ f a = .done b := by
  cases o with
  | broken => exact iff_of_false nofun nofun
  | failed => exact iff_of_false nofun nofun
  | done a => simp [Outcome.bind]

theorem Outcome.bind_broken_iff {α β : Type} {o : Outcome α} {f : α → Outcome β} :
    o.bind f = .broken ↔ o = .broken ∨ ∃ a, o = .done a ∧ f a = .broken := by
  cases o with
  | broken => simp [Outcome.bind]
  | failed => exact iff_of_false nofun nofun
  | done a => simp [Outcome.bind]

/-! ## Elements -/

/-- The element's members say `e`. -/
structure Describes (lib : Library) (item : Json) (e : Element) : Prop where
  name : TextField lib item (lit "name") e.dtbInfo
  path : TextField lib item (lit "path") e.imagePath
  flashType : ∃ n, lib.getObjectItem item (lit "flash_type") = some (.number n) ∧ 0 ≤ clamp n ∧ e.flashType = clamp n

def WellFormed (lib : Library) (item : Json) : Prop := ∃ e, Describes lib item e

/-- The first field that does not fit is a string that is too long, or `flash_type` that is
    no number. -/
def Breaks (lib : Library) (item : Json) : Prop :=
  LongField lib item (lit "name") ∨ ((∃ name, TextField lib item (lit "name") name) ∧
    (LongField lib item (lit "path") ∨ ((∃ path, TextField lib item (lit "path") path) ∧ ¬ NumberField lib item)))

theorem getImageInfo_done_iff {item : Json} {e : Element} : getImageInfo lib item = .done e ↔ Describes lib item e := by
  unfold getImageInfo
  simp only [Outcome.bind_done_iff, getString_done_iff, getFlashType_done_iff]
  constructor
  · rintro ⟨name, hname, path, hpath, v, hv, he⟩
    cases he
    exact ⟨hname, hpath, hv⟩
  · rintro ⟨hname, hpath, hflash⟩
    exact ⟨_, hname, _, hpath, _, hflash, rfl⟩

theorem getImageInfo_broken_iff {item : Json} : getImageInfo lib item = .broken ↔ Breaks lib item := by
  unfold getImageInfo Breaks
  simp only [Outcome.bind_broken_iff, getString_done_iff, getString_broken_iff, getFlashType_broken_iff]
  simp

/-- The element, if it is well formed. -/
def elementOf (lib : Library) (item : Json) : Option Element :=
  match getImageInfo lib item with
  | .done e => some e
  | _ => none

theorem elementOf_eq_some_iff {item : Json} {e : Element} : elementOf lib item = some e ↔ Describes lib item e := by
  rw [← getImageInfo_done_iff, elementOf]
  rcases getImageInfo lib item with _ | _ | e'
  · exact iff_of_false nofun nofun
  · exact iff_of_false nofun nofun
  · simp

/-! ## The entries -/

theorem dtbInfo_inj {i k : Image} (h : dtbInfo i = dtbInfo k) : i = k := by
  revert h
  cases i <;> cases k <;> decide

theorem update_apply (info : Image → ImageInfo) (e : Element) (i : Image) :
    update info e i = if e.dtbInfo = dtbInfo i then ⟨e.imagePath, e.flashType⟩ else info i := by
  unfold update
  cases hfind : images.find? fun k => decide (e.dtbInfo = dtbInfo k) with
  | none =>
    have hi : i ∈ images := by cases i <;> decide
    have hne : ¬ e.dtbInfo = dtbInfo i := by simpa using List.find?_eq_none.mp hfind i hi
    rw [if_neg hne]
  | some k =>
    have hk : e.dtbInfo = dtbInfo k := by simpa using List.find?_some hfind
    dsimp only
    refine if_congr ?_ rfl rfl
    rw [hk]
    exact ⟨fun h => h ▸ rfl, fun h => (dtbInfo_inj h).symm⟩

/-- What an element says of an entry. -/
def sets (i : Image) (e : Element) : Option ImageInfo := if e.dtbInfo = dtbInfo i then some ⟨e.imagePath, e.flashType⟩ else none

/-- What the last element with the entry's label says. -/
def lastFor (lib : Library) (items : List Json) (i : Image) : Option ImageInfo :=
  ((items.filterMap (elementOf lib)).filterMap (sets i)).getLast?

/-- The entries with the elements' values. -/
def updated (lib : Library) (info : Image → ImageInfo) (items : List Json) : Image → ImageInfo :=
  fun i => (lastFor lib items i).getD (info i)

theorem updates_eq (info : Image → ImageInfo) (items : List Json) :
    (items.filterMap (elementOf lib)).foldl update info = updated lib info items := by
  funext i
  refine @Lib.Machine.run_latest _ _ update _ (fun info => info i) (sets i) ?_ info _
  intro info e
  rw [update_apply, sets]
  split <;> rfl

/-! ## The loop -/

/-- All elements are well formed, or there is a first one that is not. -/
theorem first_bad {α : Type} (p : α → Prop) (items : List α) :
    (∀ x ∈ items, p x) ∨ ∃ pre bad post, items = pre ++ bad :: post ∧ (∀ x ∈ pre, p x) ∧ ¬ p bad := by
  induction items with
  | nil => exact Or.inl nofun
  | cons x items ih =>
    by_cases hx : p x
    · rcases ih with hall | ⟨pre, bad, post, rfl, hpre, hbad⟩
      · exact Or.inl (List.forall_mem_cons.mpr ⟨hx, hall⟩)
      · exact Or.inr ⟨x :: pre, bad, post, rfl, List.forall_mem_cons.mpr ⟨hx, hpre⟩, hbad⟩
    · exact Or.inr ⟨[], x, items, rfl, nofun, hx⟩

theorem parseElements_append {pre : List Json} (hpre : ∀ x ∈ pre, WellFormed lib x) (rest : List Json)
    (info : Image → ImageInfo) :
    parseElements lib (pre ++ rest) info = parseElements lib rest (updated lib info pre) := by
  rw [← updates_eq]
  induction pre generalizing info with
  | nil => rfl
  | cons x pre ih =>
    obtain ⟨e, he⟩ := hpre x List.mem_cons_self
    rw [List.cons_append, parseElements, getImageInfo_done_iff.mpr he, List.filterMap_cons, elementOf_eq_some_iff.mpr he,
      List.foldl_cons]
    exact ih (fun y hy => hpre y (List.mem_cons_of_mem _ hy)) _

theorem parseElements_bad {pre : List Json} {bad : Json} (hpre : ∀ x ∈ pre, WellFormed lib x) (hbad : ¬ WellFormed lib bad)
    (post : List Json) (info : Image → ImageInfo) :
    (Breaks lib bad → parseElements lib (pre ++ bad :: post) info = none) ∧
      (¬ Breaks lib bad → parseElements lib (pre ++ bad :: post) info = some (-1, updated lib info pre)) := by
  rw [parseElements_append hpre, parseElements]
  constructor
  · intro hbreaks
    rw [getImageInfo_broken_iff.mpr hbreaks]
  · intro hfails
    rcases hinfo : getImageInfo lib bad with _ | _ | e
    · exact absurd (getImageInfo_broken_iff.mp hinfo) hfails
    · rfl
    · exact absurd ⟨e, getImageInfo_done_iff.mp hinfo⟩ hbad

theorem Breaks.not_wellFormed {item : Json} (h : Breaks lib item) : ¬ WellFormed lib item := by
  rintro ⟨e, he⟩
  have hbroken := getImageInfo_broken_iff.mpr h
  rw [getImageInfo_done_iff.mpr he] at hbroken
  cases hbroken

/-! ## The document -/

/-- `skip_md5_check` has a string to read. -/
def SkipReadable (lib : Library) (fileRoot : Json) : Prop :=
  ∀ item, lib.getObjectItem fileRoot (lit "skip_md5_check") = some item → ∃ s, item = .string s

/-- It says what was there. -/
def SkipSame (lib : Library) (fileRoot : Json) (skipmd5 : Int) : Prop :=
  ∀ s, lib.getObjectItem fileRoot (lit "skip_md5_check") = some (.string s) → atoi (cstr s) = skipmd5

theorem getSkip_readable {fileRoot : Json} (h : SkipReadable lib fileRoot) (skipmd5 : Int) :
    ∃ v, getSkip lib fileRoot skipmd5 = some v ∧ (v = skipmd5 ↔ SkipSame lib fileRoot skipmd5) := by
  unfold getSkip SkipSame
  unfold SkipReadable at h
  rcases hitem : lib.getObjectItem fileRoot (lit "skip_md5_check") with _ | item
  · exact ⟨skipmd5, rfl, iff_of_true rfl nofun⟩
  · obtain ⟨s, rfl⟩ := h item hitem
    refine ⟨_, rfl, fun hv => ?_, fun hall => hall s rfl⟩
    intro s' hs
    cases hs
    exact hv

theorem getSkip_unreadable {fileRoot : Json} (h : ¬ SkipReadable lib fileRoot) (skipmd5 : Int) :
    getSkip lib fileRoot skipmd5 = none := by
  unfold SkipReadable at h
  push Not at h
  obtain ⟨item, hitem, hne⟩ := h
  unfold getSkip
  rw [hitem]
  cases item with
  | string s => exact absurd rfl (hne s)
  | _ => rfl

/-- The elements that are read. -/
def elements (lib : Library) (malloc : Bool) (fileRoot : Json) : Option (List Json) :=
  if malloc then getArrayItem lib fileRoot (lit "images") else none

theorem parseAllPartitions_eq (malloc : Bool) (fileRoot : Json) (info : Image → ImageInfo) :
    parseAllPartitions lib malloc fileRoot info =
      ((elements lib malloc fileRoot).map fun items => parseElements lib items info).getD (some (-1, info)) := by
  unfold parseAllPartitions elements
  cases malloc with
  | true => cases getArrayItem lib fileRoot (lit "images") <;> rfl
  | false => cases getArrayItem lib fileRoot (lit "images") <;> rfl

/-- Everything the loop can come to. -/
inductive Parsed (lib : Library) (malloc : Bool) (fileRoot : Json) (info : Image → ImageInfo) :
    Option (Int × (Image → ImageInfo)) → Prop
  | unread (none : elements lib malloc fileRoot = none) : Parsed lib malloc fileRoot info (some (-1, info))
  | accepted {items : List Json} (read : elements lib malloc fileRoot = some items) (good : ∀ x ∈ items, WellFormed lib x) :
      Parsed lib malloc fileRoot info (some (0, updated lib info items))
  | failed {pre post : List Json} {bad : Json} (read : elements lib malloc fileRoot = some (pre ++ bad :: post))
      (good : ∀ x ∈ pre, WellFormed lib x) (not_good : ¬ WellFormed lib bad) (fails : ¬ Breaks lib bad) :
      Parsed lib malloc fileRoot info (some (-1, updated lib info pre))
  | broken {pre post : List Json} {bad : Json} (read : elements lib malloc fileRoot = some (pre ++ bad :: post))
      (good : ∀ x ∈ pre, WellFormed lib x) (breaks : Breaks lib bad) : Parsed lib malloc fileRoot info none

theorem parseAllPartitions_parsed (lib : Library) (malloc : Bool) (fileRoot : Json) (info : Image → ImageInfo) :
    Parsed lib malloc fileRoot info (parseAllPartitions lib malloc fileRoot info) := by
  rw [parseAllPartitions_eq]
  rcases hread : elements lib malloc fileRoot with _ | items
  · exact .unread hread
  · rw [Option.map_some, Option.getD_some]
    rcases first_bad (WellFormed lib) items with hgood | ⟨pre, bad, post, rfl, hpre, hbad⟩
    · have hparse := parseElements_append hgood [] info
      rw [List.append_nil] at hparse
      rw [hparse]
      exact .accepted hread hgood
    · by_cases hbreaks : Breaks lib bad
      · rw [(parseElements_bad hpre hbad post info).1 hbreaks]
        exact .broken hread hpre hbreaks
      · rw [(parseElements_bad hpre hbad post info).2 hbreaks]
        exact .failed hread hpre hbad hbreaks

/-- No document but one that this holds of comes to a result. -/
def Unbroken (lib : Library) (malloc : Bool) (document : Option Json) : Prop :=
  ∀ fileRoot, document = some fileRoot → SkipReadable lib fileRoot ∧
    ∀ pre bad post, elements lib malloc fileRoot = some (pre ++ bad :: post) → (∀ x ∈ pre, WellFormed lib x) → ¬ Breaks lib bad

theorem parseConfig_some {malloc : Bool} {fileRoot : Json} {g : Globals} {v : Int}
    (hskip : getSkip lib fileRoot g.skipmd5 = some v) :
    parseConfig lib malloc (some fileRoot) g =
      (parseAllPartitions lib malloc fileRoot g.gImageInfo).map fun r => (r.1, ⟨r.2, v⟩) := by
  unfold parseConfig
  dsimp only
  rw [hskip, Option.bind_some]

theorem unbroken_of_result {malloc : Bool} {document : Option Json} {g : Globals} {r : Int × Globals}
    (h : parseConfig lib malloc document g = some r) : Unbroken lib malloc document := by
  rintro fileRoot rfl
  have hreadable : SkipReadable lib fileRoot := by
    by_contra hno
    unfold parseConfig at h
    dsimp only at h
    rw [getSkip_unreadable hno] at h
    cases h
  refine ⟨hreadable, ?_⟩
  intro pre bad post hread hpre hbreaks
  obtain ⟨v, hskip, -⟩ := getSkip_readable hreadable g.skipmd5
  rw [parseConfig_some hskip, parseAllPartitions_eq, hread, Option.map_some, Option.getD_some,
    (parseElements_bad hpre hbreaks.not_wellFormed post g.gImageInfo).1 hbreaks] at h
  cases h

/-- The parser comes to success or failure exactly when `skip_md5_check` is a string or
    missing, and no element breaks it that only well-formed ones stand before. -/
theorem parser_unbroken_iff (lib : Library) (malloc : Bool) (document : Option Json) (g : Globals) :
    (∃ r g', parseConfig lib malloc document g = some (r, g') ∧ (r = 0 ∨ r = -1)) ↔ Unbroken lib malloc document := by
  constructor
  · rintro ⟨r, g', h, -⟩
    exact unbroken_of_result h
  · intro h
    rcases document with _ | fileRoot
    · exact ⟨-1, g, rfl, Or.inr rfl⟩
    · obtain ⟨hreadable, hbad⟩ := h fileRoot rfl
      obtain ⟨v, hskip, -⟩ := getSkip_readable hreadable g.skipmd5
      have hparsed := parseAllPartitions_parsed lib malloc fileRoot g.gImageInfo
      rw [parseConfig_some hskip]
      generalize parseAllPartitions lib malloc fileRoot g.gImageInfo = result at hparsed
      rcases hparsed with _ | _ | _ | ⟨hread, hpre, hbreaks⟩
      · exact ⟨-1, _, rfl, Or.inr rfl⟩
      · exact ⟨0, _, rfl, Or.inl rfl⟩
      · exact ⟨-1, _, rfl, Or.inr rfl⟩
      · exact absurd hbreaks (hbad _ _ _ hread hpre)

/-- The globals as `install.c` initialises them. -/
def initial : Globals := ⟨fun _ => ⟨[], 0⟩, 0⟩

/-- `skip_md5_check` is 1 instead of "1"; a name of 200 characters; no `flash_type`. -/
def numericSkip : Json := .object [(lit "skip_md5_check", .number 1)]

def longName : Json := .object [(lit "images", .array [.object [(lit "name", .string (List.replicate 200 97))]])]

def noFlashType : Json :=
  .object [(lit "images", .array [.object [(lit "name", .string (lit "Kernel image")),
    (lit "path", .string (lit "kernel.img"))]])]

theorem numeric_skip_breaks :
    parseConfig firstFound true (some numericSkip) initial = none ∧ parseConfig firstFound true (some longName) initial = none ∧
      parseConfig firstFound true (some noFlashType) initial = none :=
  ⟨Option.isNone_iff_eq_none.mp (by decide +kernel), Option.isNone_iff_eq_none.mp (by decide +kernel),
    Option.isNone_iff_eq_none.mp (by decide +kernel)⟩

/-! ## All or nothing -/

/-- A success gives each entry what the last element with its label says and leaves the
    others; a failure leaves everything. -/
def Atomic (lib : Library) (malloc : Bool) (document : Option Json) (g : Globals) : Prop :=
  ∃ r g', parseConfig lib malloc document g = some (r, g') ∧
    (r = 0 → ∃ fileRoot items, document = some fileRoot ∧ elements lib malloc fileRoot = some items ∧
      ∀ i, g'.gImageInfo i = (lastFor lib items i).getD (g.gImageInfo i)) ∧
    (r ≠ 0 → g' = g)

/-- What is written before a failure is what was there. -/
structure Harmless (lib : Library) (malloc : Bool) (fileRoot : Json) (g : Globals) : Prop where
  skip : (∀ items, elements lib malloc fileRoot = some items → ∃ x ∈ items, ¬ WellFormed lib x) → SkipSame lib fileRoot g.skipmd5
  entries : ∀ pre bad post, elements lib malloc fileRoot = some (pre ++ bad :: post) → (∀ x ∈ pre, WellFormed lib x) →
    ¬ WellFormed lib bad → ∀ i v, lastFor lib pre i = some v → g.gImageInfo i = v

theorem updated_eq_self_iff (info : Image → ImageInfo) (items : List Json) :
    updated lib info items = info ↔ ∀ i v, lastFor lib items i = some v → info i = v := by
  constructor
  · intro h i v hv
    rw [← congrFun h i, updated, hv, Option.getD_some]
  · intro h
    funext i
    rw [updated]
    cases hv : lastFor lib items i with
    | none => rfl
    | some v => exact (h i v hv).symm

section

variable {malloc : Bool} {fileRoot : Json} {g : Globals}

/-- A failure that leaves everything has written what was there. -/
theorem harmless_of_atomic (hunbroken : Unbroken lib malloc (some fileRoot)) (h : Atomic lib malloc (some fileRoot) g) :
    Harmless lib malloc fileRoot g := by
  obtain ⟨r, g', hparse, -, hfailure⟩ := h
  obtain ⟨hreadable, hbad⟩ := hunbroken fileRoot rfl
  obtain ⟨v, hskip, hsame⟩ := getSkip_readable hreadable g.skipmd5
  rw [parseConfig_some hskip] at hparse
  have hkept : ∀ info, parseAllPartitions lib malloc fileRoot g.gImageInfo = some (-1, info) →
      info = g.gImageInfo ∧ v = g.skipmd5 := by
    intro info hfailed
    rw [hfailed] at hparse
    cases hparse
    have hsame := hfailure (show (-1 : Int) ≠ 0 by decide)
    exact ⟨congrArg Globals.gImageInfo hsame, congrArg Globals.skipmd5 hsame⟩
  refine ⟨?_, ?_⟩
  · intro hrejected
    have hparsed := parseAllPartitions_parsed lib malloc fileRoot g.gImageInfo
    generalize parseAllPartitions lib malloc fileRoot g.gImageInfo = result at hparsed hkept
    rcases hparsed with hread | ⟨hread, hgood⟩ | ⟨hread, hpre, hnot, -⟩ | ⟨hread, hpre, hbreaks⟩
    · exact hsame.mp (hkept _ rfl).2
    · obtain ⟨x, hx, hnot⟩ := hrejected _ hread
      exact absurd (hgood x hx) hnot
    · exact hsame.mp (hkept _ rfl).2
    · exact absurd hbreaks (hbad _ _ _ hread hpre)
  · intro pre bad post hread hpre hnot
    rw [← updated_eq_self_iff]
    refine (hkept _ ?_).1
    rw [parseAllPartitions_eq, hread, Option.map_some, Option.getD_some]
    exact (parseElements_bad hpre hnot post g.gImageInfo).2 (hbad _ _ _ hread hpre)

theorem atomic_of_harmless (hunbroken : Unbroken lib malloc (some fileRoot)) (h : Harmless lib malloc fileRoot g) :
    Atomic lib malloc (some fileRoot) g := by
  obtain ⟨hreadable, hbad⟩ := hunbroken fileRoot rfl
  obtain ⟨v, hskip, hsame⟩ := getSkip_readable hreadable g.skipmd5
  have hparsed := parseAllPartitions_parsed lib malloc fileRoot g.gImageInfo
  unfold Atomic
  rw [parseConfig_some hskip]
  generalize parseAllPartitions lib malloc fileRoot g.gImageInfo = result at hparsed
  rcases hparsed with hread | ⟨hread, hgood⟩ | ⟨hread, hpre, hnot, -⟩ | ⟨hread, hpre, hbreaks⟩
  · have hv : v = g.skipmd5 := by
      refine hsame.mpr (h.skip ?_)
      rw [hread]
      nofun
    exact ⟨-1, _, rfl, nofun, fun _ => by rw [hv]⟩
  · exact ⟨0, _, rfl, fun _ => ⟨fileRoot, _, rfl, hread, fun _ => rfl⟩, fun h => absurd rfl h⟩
  · have hv : v = g.skipmd5 := by
      refine hsame.mpr (h.skip ?_)
      intro items hitems
      rw [hread] at hitems
      cases hitems
      exact ⟨_, by simp, hnot⟩
    have hinfo := (updated_eq_self_iff g.gImageInfo _).mpr (h.entries _ _ _ hread hpre hnot)
    exact ⟨-1, _, rfl, nofun, fun _ => by rw [hv, hinfo]⟩
  · exact absurd hbreaks (hbad _ _ _ hread hpre)

end

/-- All or nothing exactly when the parser comes to a result and what it has written before
    a failure is what was there. -/
theorem config_atomic_iff (lib : Library) (malloc : Bool) (document : Option Json) (g : Globals) :
    Atomic lib malloc document g ↔
      Unbroken lib malloc document ∧ ∀ fileRoot, document = some fileRoot → Harmless lib malloc fileRoot g := by
  constructor
  · intro h
    have hunbroken : Unbroken lib malloc document := by
      obtain ⟨r, g', hparse, -⟩ := h
      exact unbroken_of_result hparse
    refine ⟨hunbroken, ?_⟩
    rintro fileRoot rfl
    exact harmless_of_atomic hunbroken h
  · rintro ⟨hunbroken, hharmless⟩
    rcases document with _ | fileRoot
    · exact ⟨-1, g, rfl, nofun, fun _ => rfl⟩
    · exact atomic_of_harmless hunbroken (hharmless fileRoot rfl)

/-- A good element, then an empty object. -/
def lateFailure : Json :=
  .object [(lit "images", .array
    [.object [(lit "name", .string (lit "Kernel image")), (lit "path", .string (lit "kernel.img")),
      (lit "flash_type", .number 1)],
      .object []])]

/-- The kernel's entry is changed although the document is rejected. -/
theorem late_failure_updates :
    (parseConfig firstFound true (some lateFailure) initial).map (fun r => (r.1, r.2.gImageInfo .kernel)) =
        some (-1, ⟨lit "kernel.img", 1⟩) ∧
      ¬ Atomic firstFound true (some lateFailure) initial := by
  have hparse : (parseConfig firstFound true (some lateFailure) initial).map (fun r => (r.1, r.2.gImageInfo .kernel)) =
      some (-1, ⟨lit "kernel.img", 1⟩) := by
    decide +kernel
  refine ⟨hparse, ?_⟩
  rintro ⟨r, g', hrun, -, hfailure⟩
  rw [hrun, Option.map_some, Option.some.injEq, Prod.mk.injEq] at hparse
  obtain ⟨hr, hkernel⟩ := hparse
  dsimp only at hr hkernel
  rw [hfailure (by omega)] at hkernel
  exact absurd hkernel (by decide)

end

end AmebaLinux.Recovery.ConfigParser
