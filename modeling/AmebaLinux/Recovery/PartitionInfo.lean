/-
  AmebaLinux.Recovery.PartitionInfo — the partition table, read from `/proc/mtd`
  (`recovery/install.c`: `gImageInfo`, `parse_mtd_partition_info`, `load_partition_info`).

  Texts are bytes. A text that does not fit the array it is copied to is outside the model
  (`none`). `strstr` is only asked whether it finds something.

  A listing is a header line and one line per partition. What a line does is written down
  by its name alone: `Line.Selects` are its cells. Lines that select different cells can be
  read in any order.

  Proved:
  - `parse_line`: a line fills the cells its name selects and no others.
  - `partition_table_loaded`: so a listing in which no two lines select one cell gives the
    same table whatever the order of its lines.
  - `loaded_represents`: the table is the one that `AmebaLinux.Recovery.Install` starts from.
-/

import AmebaLinux.Lib.CString
import AmebaLinux.Recovery.Install

namespace AmebaLinux.Recovery.PartitionInfo

open AmebaLinux.Lib.CString
open AmebaLinux.Recovery.Install

def colon : UInt8 := 58
def quote : UInt8 := 34

/-- `dtb_info` in `gImageInfo`, whose entries are in the order of the image ids. -/
def dtbInfo : Image → List UInt8
  | .km4boot => lit "KM4 boot"
  | .km4image2 => lit "KM4 image2"
  | .apimage => lit "AP boot image"
  | .vbmeta => lit "AP vbmeta"
  | .dtb => lit "Device tree blob"
  | .kernel => lit "Kernel image"
  | .rootfs => lit "Squashfs filesystem"
  | .userdata => lit "ubi/jffs2 filesystem"
  | .misc => lit "AP Misc"

/-- `upgrade_part_info_t`. -/
structure PartInfo where
  imagePath : List UInt8
  partitionInfo : List UInt8
  partitionName : List UInt8
  deriving DecidableEq, Repr

/-- `gPartitionInfoSlot`. -/
abbrev Cells : Type := Slot → Image → PartInfo

def Cells.set (cells : Cells) (slot : Slot) (image : Image) (info : PartInfo) : Cells :=
  fun s i => if s = slot ∧ i = image then info else cells s i

/-! ## A line -/

/-- The text between the first two quotes, or none; a single quote is an error. -/
def partitionName (str : List UInt8) : Option (List UInt8) :=
  match strchr str quote with
  | none => some []
  | some (_, behind) => (strchr behind quote).map Prod.fst

/-- `slot == -1 || i == slot`. -/
def inSlot (name : List UInt8) (slot : Slot) : Bool :=
  if lit "slotA" <:+: name then slot = .slotA
  else if lit "slotB" <:+: name then slot = .slotB
  else true

/-- The first image whose label is found in the name. -/
def imageOf (name : List UInt8) : Option Image := images.find? fun i => dtbInfo i <:+: name

def fillSlot (path : Image → List UInt8) (dblock name : List UInt8) (cells : Cells) (slot : Slot) : Cells :=
  if inSlot name slot then
    match imageOf name with
    | some image => cells.set slot image ⟨path image, dblock, name⟩
    | none => cells
  else cells

/-- The result and the table. `path` is `image_path` in `gImageInfo`. -/
def parseMtdPartitionInfo (path : Image → List UInt8) (str : List UInt8) (cells : Cells) : Option (Int × Cells) :=
  match strchr str colon with
  | none => some (0, cells)
  | some (dev, _) =>
    if 64 ≤ dev.length then none
    else if ¬ lit "mtd" <:+: dev then some (0, cells)
    else
      let dblock := lit "/dev/mtdblock" ++ dev.drop 3
      if 64 ≤ dblock.length then none
      else
        match partitionName str with
        | none => some (-1, cells)
        | some name =>
          if 128 ≤ name.length then none
          else some (0, [Slot.slotA, Slot.slotB].foldl (fillSlot path dblock name) cells)

/-! ## The file -/

def parseLines (path : Image → List UInt8) : List (List UInt8) → Cells → Option (Int × Cells)
  | [], cells => some (0, cells)
  | str :: lines, cells =>
    (parseMtdPartitionInfo path (cstr str) cells).bind fun r =>
      if r.1 < 0 then some (-1, r.2) else parseLines path lines r.2

/-- How `cat /proc/mtd` ends, and the file it leaves. -/
def loadPartitionInfo (path : Image → List UInt8) (cat : Status) (file : Option (List UInt8)) (cells : Cells) :
    Option (Int × Cells) :=
  if execCmd cat = 0 then
    match file with
    | none => some (-1, cells)
    | some bytes => parseLines path (fgetsLines 60 bytes) cells
  else some (-1, cells)

/-! ## Listings -/

/-- Text that is printed inside a line. -/
structure Plain (t : List UInt8) : Prop where
  nul : 0 ∉ t
  newline : newline ∉ t
  quote : quote ∉ t

/-- `mtdN: size erasesize "name"`. -/
structure Line where
  n : Nat
  size : List UInt8
  erasesize : List UInt8
  name : List UInt8
  plainSize : Plain size
  plainErasesize : Plain erasesize
  plainName : Plain name

def Line.text (l : Line) : List UInt8 :=
  lit "mtd" ++ dec l.n ++ colon :: (lit " " ++ l.size ++ lit " " ++ l.erasesize ++ lit " " ++ quote :: (l.name ++ [quote]))

/-- `/dev/mtdblockN`. -/
def Line.node (l : Line) : List UInt8 := lit "/dev/mtdblock" ++ dec l.n

/-- The cells that a line's name stands for. -/
def Line.Selects (l : Line) (slot : Slot) (image : Image) : Prop := inSlot l.name slot = true ∧ imageOf l.name = some image

def Line.info (l : Line) (path : Image → List UInt8) (image : Image) : PartInfo := ⟨path image, l.node, l.name⟩

def Line.write (path : Image → List UInt8) (cells : Cells) (l : Line) : Cells :=
  [Slot.slotA, Slot.slotB].foldl (fillSlot path l.node l.name) cells

theorem plain_dec (n : Nat) : Plain (dec n) ∧ colon ∉ dec n := by
  have hdigit : ∀ c, isdigit c = false → c ∉ dec n := by
    intro c hc hmem
    rw [dec_isdigit hmem] at hc
    cases hc
  exact ⟨⟨hdigit 0 (by decide), hdigit newline (by decide), hdigit quote (by decide)⟩, hdigit colon (by decide)⟩

theorem Line.text_plain (l : Line) : 0 ∉ l.text ∧ newline ∉ l.text := by
  have hnul := (plain_dec l.n).1.nul
  have hnewline := (plain_dec l.n).1.newline
  have h1 : (0 : UInt8) ∉ lit "mtd" ∧ newline ∉ lit "mtd" ∧ (0 : UInt8) ∉ lit " " ∧ newline ∉ lit " " := by decide
  have h2 : (0 : UInt8) ≠ colon ∧ newline ≠ colon ∧ (0 : UInt8) ≠ quote ∧ newline ≠ quote := by decide
  simp [Line.text, h1, h2, hnul, hnewline, l.plainSize.nul, l.plainSize.newline, l.plainErasesize.nul,
    l.plainErasesize.newline, l.plainName.nul, l.plainName.newline]

theorem Line.node_fits {l : Line} (h : l.text.length ≤ 58) : (dec l.n).length + 9 + l.name.length ≤ 58 := by
  simp only [Line.text, List.length_append, List.length_cons, List.length_nil] at h
  have h3 : (lit "mtd").length = 3 := rfl
  have h1 : (lit " ").length = 1 := rfl
  omega

theorem Line.partitionName_text (l : Line) : partitionName (l.text ++ [newline]) = some l.name := by
  have hdec := (plain_dec l.n).1.quote
  have h1 : quote ∉ lit "mtd" ∧ quote ∉ lit " " ∧ quote ≠ colon := by decide
  have hfront : quote ∉ lit "mtd" ++ dec l.n ++ colon :: (lit " " ++ l.size ++ lit " " ++ l.erasesize ++ lit " ") := by
    simp [h1, hdec, l.plainSize.quote, l.plainErasesize.quote]
  have hcut : l.text ++ [newline] =
      (lit "mtd" ++ dec l.n ++ colon :: (lit " " ++ l.size ++ lit " " ++ l.erasesize ++ lit " ")) ++
        quote :: (l.name ++ quote :: [newline]) := by
    simp [Line.text]
  rw [partitionName, hcut, strchr_append hfront]
  dsimp only
  rw [strchr_append l.plainName.quote]
  rfl

/-- A line fills the cells that its name selects. -/
theorem parse_line (path : Image → List UInt8) {l : Line} (h : l.text.length ≤ 58) (cells : Cells) :
    parseMtdPartitionInfo path (l.text ++ [newline]) cells = some (0, l.write path cells) := by
  have hfits := Line.node_fits h
  have hlit : (lit "mtd").length = 3 := rfl
  have hnode : (lit "/dev/mtdblock").length = 13 := rfl
  have hcolon : colon ∉ lit "mtd" ++ dec l.n := by
    rw [List.mem_append, not_or]
    exact ⟨by decide, (plain_dec l.n).2⟩
  have hmtd : lit "mtd" <:+: lit "mtd" ++ dec l.n := (List.prefix_append _ _).isInfix
  have hcut : l.text ++ [newline] = (lit "mtd" ++ dec l.n) ++ colon ::
      (lit " " ++ l.size ++ lit " " ++ l.erasesize ++ lit " " ++ quote :: (l.name ++ [quote]) ++ [newline]) := by
    simp [Line.text]
  have hdev : ¬ 64 ≤ (lit "mtd" ++ dec l.n).length := by
    rw [List.length_append]
    omega
  have hblock : ¬ 64 ≤ (lit "/dev/mtdblock" ++ dec l.n).length := by
    rw [List.length_append]
    omega
  unfold parseMtdPartitionInfo
  rw [Line.partitionName_text, hcut, strchr_append hcolon]
  dsimp only
  rw [if_neg hdev, if_neg (not_not.mpr hmtd), List.drop_left' hlit, if_neg hblock, if_neg (by omega)]
  rfl

/-! ## Cells -/

theorem fillSlot_apply (path : Image → List UInt8) (dblock name : List UInt8) (cells : Cells) (slot s : Slot) (i : Image) :
    fillSlot path dblock name cells slot s i =
      if s = slot ∧ inSlot name s = true ∧ imageOf name = some i then ⟨path i, dblock, name⟩ else cells s i := by
  unfold fillSlot
  by_cases hin : inSlot name slot = true
  · rw [if_pos hin]
    cases himage : imageOf name with
    | none => simp
    | some image =>
      dsimp only
      rw [Cells.set]
      by_cases hcell : s = slot ∧ i = image
      · obtain ⟨rfl, rfl⟩ := hcell
        simp [hin]
      · rw [if_neg hcell, if_neg]
        rintro ⟨hs, -, hi⟩
        exact hcell ⟨hs, (Option.some.inj hi).symm⟩
  · rw [if_neg hin, if_neg]
    rintro ⟨rfl, h, -⟩
    exact hin h

theorem Line.write_selected (path : Image → List UInt8) (cells : Cells) {l : Line} {slot : Slot} {image : Image}
    (h : l.Selects slot image) : l.write path cells slot image = l.info path image := by
  unfold Line.write
  rw [List.foldl_cons, List.foldl_cons, List.foldl_nil, fillSlot_apply, fillSlot_apply]
  cases slot with
  | slotA => rw [if_neg (by simp), if_pos ⟨rfl, h⟩, Line.info]
  | slotB => rw [if_pos ⟨rfl, h⟩, Line.info]

theorem Line.write_other (path : Image → List UInt8) (cells : Cells) {l : Line} {slot : Slot} {image : Image}
    (h : ¬ l.Selects slot image) : l.write path cells slot image = cells slot image := by
  unfold Line.write
  rw [List.foldl_cons, List.foldl_cons, List.foldl_nil, fillSlot_apply, fillSlot_apply, if_neg (fun hs => h hs.2),
    if_neg (fun hs => h hs.2)]

/-- Two lines select no cell in common. -/
def Line.Apart (a b : Line) : Prop := ∀ slot image, a.Selects slot image → ¬ b.Selects slot image

theorem lines_other (path : Image → List UInt8) {lines : List Line} {slot : Slot} {image : Image}
    (h : ∀ l ∈ lines, ¬ l.Selects slot image) (cells : Cells) :
    lines.foldl (Line.write path) cells slot image = cells slot image := by
  induction lines generalizing cells with
  | nil => rfl
  | cons l lines ih =>
    rw [List.foldl_cons, ih (fun l hl => h l (List.mem_cons_of_mem _ hl)), Line.write_other path cells (h l List.mem_cons_self)]

theorem lines_selected (path : Image → List UInt8) {lines : List Line} (hapart : lines.Pairwise Line.Apart) {l : Line}
    (hl : l ∈ lines) {slot : Slot} {image : Image} (h : l.Selects slot image) (cells : Cells) :
    lines.foldl (Line.write path) cells slot image = l.info path image := by
  induction lines generalizing cells with
  | nil => cases hl
  | cons first lines ih =>
    rw [List.pairwise_cons] at hapart
    rw [List.foldl_cons]
    rcases List.mem_cons.mp hl with rfl | hl
    · rw [lines_other path (fun other hother => hapart.1 other hother slot image h), Line.write_selected path cells h]
    · exact ih hapart.2 hl _

/-! ## Listings -/

/-- A `/proc/mtd` in which no two lines select one cell. -/
structure Listing where
  /-- The header as far as its first colon, and behind it. -/
  dev : List UInt8
  header : List UInt8
  plainHeader : 0 ∉ dev ++ colon :: header ∧ newline ∉ dev ++ colon :: header
  noColon : colon ∉ dev
  noPartition : ¬ lit "mtd" <:+: dev
  lines : List Line
  short : (dev ++ colon :: header).length ≤ 58 ∧ ∀ l ∈ lines, l.text.length ≤ 58
  apart : lines.Pairwise Line.Apart

def Listing.texts (l : Listing) : List (List UInt8) := (l.dev ++ colon :: l.header) :: l.lines.map Line.text

def Listing.file (l : Listing) : List UInt8 := l.texts.flatMap (· ++ [newline])

theorem cstr_line {text : List UInt8} (h : 0 ∉ text) : cstr (text ++ [newline]) = text ++ [newline] := by
  rw [cstr, List.takeWhile_eq_self_iff]
  intro c hc
  rw [decide_eq_true_eq]
  rintro rfl
  rcases List.mem_append.mp hc with hc | hc
  · exact h hc
  · exact absurd hc (by decide)

theorem parseLines_lines (path : Image → List UInt8) {lines : List Line} (hshort : ∀ l ∈ lines, l.text.length ≤ 58)
    (cells : Cells) :
    parseLines path (lines.map fun l => l.text ++ [newline]) cells = some (0, lines.foldl (Line.write path) cells) := by
  induction lines generalizing cells with
  | nil => rfl
  | cons l lines ih =>
    rw [List.map_cons, parseLines, cstr_line l.text_plain.1, parse_line path (hshort l List.mem_cons_self), Option.bind_some,
      if_neg (lt_irrefl _), ih (fun l hl => hshort l (List.mem_cons_of_mem _ hl)), List.foldl_cons]

theorem parse_header (path : Image → List UInt8) (l : Listing) (cells : Cells) :
    parseMtdPartitionInfo path (l.dev ++ colon :: l.header ++ [newline]) cells = some (0, cells) := by
  have hshort : ¬ 64 ≤ l.dev.length := by
    have := l.short.1
    rw [List.length_append] at this
    omega
  unfold parseMtdPartitionInfo
  rw [List.append_assoc, List.cons_append, strchr_append l.noColon]
  dsimp only
  rw [if_neg hshort, if_pos l.noPartition]

/-- A listing is read line by line. -/
theorem load_listing (path : Image → List UInt8) (l : Listing) (cells : Cells) :
    loadPartitionInfo path (.exited 0) (some l.file) cells = some (0, l.lines.foldl (Line.write path) cells) := by
  have hlines : fgetsLines 60 l.file = l.texts.map (· ++ [newline]) := by
    refine fgetsLines_lines ?_ ?_
    · intro text htext
      rcases List.mem_cons.mp htext with rfl | htext
      · exact l.plainHeader.2
      · obtain ⟨line, -, rfl⟩ := List.mem_map.mp htext
        exact line.text_plain.2
    · intro text htext
      rcases List.mem_cons.mp htext with rfl | htext
      · have := l.short.1
        omega
      · obtain ⟨line, hline, rfl⟩ := List.mem_map.mp htext
        have := l.short.2 line hline
        omega
  unfold loadPartitionInfo
  rw [if_pos (by decide)]
  dsimp only
  rw [hlines, Listing.texts, List.map_cons, parseLines, cstr_line l.plainHeader.1, parse_header, Option.bind_some,
    if_neg (lt_irrefl _), List.map_map]
  exact parseLines_lines path l.short.2 cells

/-- A listing fills the cells its lines select, leaves the others alone and gives one table
    in any order. -/
theorem partition_table_loaded (path : Image → List UInt8) (l : Listing) (cells : Cells) :
    ∃ loaded, loadPartitionInfo path (.exited 0) (some l.file) cells = some (0, loaded) ∧
      (∀ line ∈ l.lines, ∀ slot image, line.Selects slot image → loaded slot image = ⟨path image, line.node, line.name⟩) ∧
      (∀ slot image, (∀ line ∈ l.lines, ¬ line.Selects slot image) → loaded slot image = cells slot image) ∧
      ∀ other : Listing, other.lines.Perm l.lines →
        loadPartitionInfo path (.exited 0) (some other.file) cells = some (0, loaded) := by
  refine ⟨_, load_listing path l cells, ?_, ?_, ?_⟩
  · intro line hline slot image h
    exact lines_selected path l.apart hline h cells
  · intro slot image h
    exact lines_other path h cells
  · intro other hperm
    rw [load_listing]
    congr 2
    funext slot image
    -- a cell is selected in both orders, by the same line, or in neither
    by_cases h : ∃ line ∈ l.lines, line.Selects slot image
    · obtain ⟨line, hline, hsel⟩ := h
      rw [lines_selected path l.apart hline hsel, lines_selected path other.apart (hperm.mem_iff.mpr hline) hsel]
    · push Not at h
      rw [lines_other path h, lines_other path (fun line hline => h line (hperm.mem_iff.mp hline))]

instance (l : Line) (slot : Slot) (image : Image) : Decidable (l.Selects slot image) :=
  inferInstanceAs (Decidable (_ ∧ _))

theorem partSize_plain : Plain (lit "00100000") := ⟨by decide, by decide, by decide⟩

theorem partErasesize_plain : Plain (lit "00020000") := ⟨by decide, by decide, by decide⟩

theorem bootA_plain : Plain (lit "AP boot image slotA") := ⟨by decide, by decide, by decide⟩

theorem bootB_plain : Plain (lit "AP boot image slotB") := ⟨by decide, by decide, by decide⟩

theorem root_plain : Plain (lit "Squashfs filesystem") := ⟨by decide, by decide, by decide⟩

theorem spare_plain : Plain (lit "spare") := ⟨by decide, by decide, by decide⟩

/-- A partition of 1 MiB. -/
def partLine (n : Nat) (name : List UInt8) (plain : Plain name) : Line :=
  ⟨n, lit "00100000", lit "00020000", name, partSize_plain, partErasesize_plain, plain⟩

def bootLineA : Line := partLine 3 (lit "AP boot image slotA") bootA_plain
def bootLineB : Line := partLine 4 (lit "AP boot image slotB") bootB_plain
def rootLine : Line := partLine 12 (lit "Squashfs filesystem") root_plain
def spareLine : Line := partLine 13 (lit "spare") spare_plain

theorem kernelHeader_plain :
    0 ∉ lit "dev" ++ colon :: lit "    size   erasesize  name" ∧
      newline ∉ lit "dev" ++ colon :: lit "    size   erasesize  name" := by
  decide

theorem kernelHeader_noColon : colon ∉ lit "dev" := by decide

theorem kernelHeader_noPartition : ¬ lit "mtd" <:+: lit "dev" := by decide

theorem boot_short : (lit "dev" ++ colon :: lit "    size   erasesize  name").length ≤ 58 ∧
    ∀ l ∈ [bootLineA, bootLineB, rootLine, spareLine], l.text.length ≤ 58 :=
  ⟨by decide, by decide +kernel⟩

theorem boot_apart : [bootLineA, bootLineB, rootLine, spareLine].Pairwise Line.Apart := by
  have apart : ∀ a ∈ [bootLineA, bootLineB, rootLine, spareLine], ∀ b ∈ [bootLineA, bootLineB, rootLine, spareLine],
      a.n < b.n → ∀ slot ∈ [Slot.slotA, Slot.slotB], ∀ image ∈ images, a.Selects slot image → ¬ b.Selects slot image := by
    decide +kernel
  have slots : ∀ slot, slot ∈ [Slot.slotA, Slot.slotB] := by intro slot; cases slot <;> decide
  have all : ∀ image, image ∈ images := by intro image; cases image <;> decide
  have sorted : [bootLineA, bootLineB, rootLine, spareLine].Pairwise fun a b => a.n < b.n := by decide
  exact sorted.imp_of_mem fun ha hb hlt slot image => apart _ ha _ hb hlt slot (slots slot) image (all image)

/-- The boot images of both slots, a file system for both, and a partition that is not in
    the table. -/
def bootListing : Listing where
  dev := lit "dev"
  header := lit "    size   erasesize  name"
  plainHeader := kernelHeader_plain
  noColon := kernelHeader_noColon
  noPartition := kernelHeader_noPartition
  lines := [bootLineA, bootLineB, rootLine, spareLine]
  short := boot_short
  apart := boot_apart

def blank : Cells := fun _ _ => ⟨[], [], []⟩

theorem boot_listing_loaded :
    bootLineA.Selects .slotA .apimage ∧ bootLineB.Selects .slotB .apimage ∧ rootLine.Selects .slotA .rootfs ∧
      rootLine.Selects .slotB .rootfs ∧ (∀ line ∈ bootListing.lines, ¬ line.Selects .slotA .kernel) ∧
      ∃ loaded, loadPartitionInfo (fun _ => []) (.exited 0) (some bootListing.file) blank = some (0, loaded) ∧
        loaded .slotA .apimage = ⟨[], lit "/dev/mtdblock3", lit "AP boot image slotA"⟩ ∧
        loaded .slotB .apimage = ⟨[], lit "/dev/mtdblock4", lit "AP boot image slotB"⟩ ∧
        loaded .slotA .rootfs = ⟨[], lit "/dev/mtdblock12", lit "Squashfs filesystem"⟩ ∧
        loaded .slotB .rootfs = ⟨[], lit "/dev/mtdblock12", lit "Squashfs filesystem"⟩ ∧
        loaded .slotA .kernel = blank .slotA .kernel := by
  have hbootA : bootLineA.Selects .slotA .apimage := by decide +kernel
  have hbootB : bootLineB.Selects .slotB .apimage := by decide +kernel
  have hrootA : rootLine.Selects .slotA .rootfs := by decide +kernel
  have hrootB : rootLine.Selects .slotB .rootfs := by decide +kernel
  have hkernel : ∀ line ∈ bootListing.lines, ¬ line.Selects .slotA .kernel := by decide +kernel
  obtain ⟨loaded, hload, hfilled, hkept, -⟩ := partition_table_loaded (fun _ => []) bootListing blank
  refine ⟨hbootA, hbootB, hrootA, hrootB, hkernel, loaded, hload, ?_, ?_, ?_, ?_, hkept _ _ hkernel⟩
  · exact hfilled bootLineA (by simp [bootListing]) _ _ hbootA
  · exact hfilled bootLineB (by simp [bootListing]) _ _ hbootB
  · exact hfilled rootLine (by simp [bootListing]) _ _ hrootA
  · exact hfilled rootLine (by simp [bootListing]) _ _ hrootB

/-! ## The table that is installed from -/

/-- The partition numbers of a listing. -/
def Listing.table (l : Listing) : Table := fun slot image => (l.lines.find? fun line => line.Selects slot image).map Line.n

/-- `partition_info` holds the block node's path, or nothing. -/
def Represents (cells : Cells) (table : Table) : Prop :=
  ∀ slot image, (cells slot image).partitionInfo =
    ((table slot image).map fun n => (Node.block n).path.map fun c => UInt8.ofNat c.toNat).getD []

theorem Line.node_path (l : Line) : l.node = (Node.block l.n).path.map fun c => UInt8.ofNat c.toNat := by
  rw [Line.node, Node.path, List.map_append]
  rfl

theorem loaded_represents (path : Image → List UInt8) (l : Listing) :
    ∃ loaded, loadPartitionInfo path (.exited 0) (some l.file) blank = some (0, loaded) ∧ Represents loaded l.table := by
  refine ⟨_, load_listing path l blank, ?_⟩
  intro slot image
  rw [Listing.table]
  cases hfind : l.lines.find? fun line => decide (line.Selects slot image) with
  | none =>
    have hnone : ∀ line ∈ l.lines, ¬ line.Selects slot image := by simpa using hfind
    rw [lines_other path hnone]
    rfl
  | some line =>
    have hsel : line.Selects slot image := by simpa using List.find?_some hfind
    rw [lines_selected path l.apart (List.mem_of_find?_eq_some hfind) hsel, Option.map_some, Option.map_some, Option.getD_some]
    exact line.node_path

end AmebaLinux.Recovery.PartitionInfo
