/-
  AmebaLinux.Hciattach.PatchBounds — what the patch parsers read and queue lies inside the
  firmware file, or does not (`_parse_patch`, `_parse_patch_section` of
  `hci_download_v2.c`; `_parse_sections`, `_parse_patch_image` of `hci_download_v3.c`).

  The parsers take every count and length from the file and compare none of them with the
  file's length. `Keeps` says of a parser that it makes no access outside a buffer and
  that what it returns satisfies a predicate; a parser that gives up satisfies it too.
  `ImageInside` is the layout under which each parser stays inside: read with `leAt` and
  `byteAt`, every header and every payload that is taken ends inside the file.

  Proved:
  - `parsers_inside_iff`: a parser stays inside the file, with all it queues, exactly when
    the file has that layout.
  - `parsers_leave_image`: files with the right signature whose payload, or whose first
    section, is outside.
-/

import AmebaLinux.Lib.Queue
import AmebaLinux.Hciattach.LinkProofs
import AmebaLinux.Hciattach.Attach

namespace AmebaLinux.Hciattach.Link

open AmebaLinux.Lib
open AmebaLinux.Lib.Bytes

/-! ## What a parser keeps to -/

/-- No access outside a buffer, and `P` of what is returned; giving up is allowed. -/
def Keeps {α : Type} (P : α → Prop) : Build α → Prop
  | .ok a => P a
  | .error (.ret _) => True
  | .error .fault => False

/-- The number a file holds at `off`, read as far as the file goes. -/
def leAt (buf : List UInt8) (off k : Nat) : Nat := leNat ((buf.drop off).take k)

def byteAt (buf : List UInt8) (off : Nat) : UInt8 := buf.getD off 0

theorem leAt_lt (buf : List UInt8) (off k : Nat) : leAt buf off k < 256 ^ k := by
  have h := leNat_lt ((buf.drop off).take k)
  have hk : ((buf.drop off).take k).length ≤ k := List.length_take_le _ _
  exact lt_of_lt_of_le h (Nat.pow_le_pow_right (by decide) hk)

section Rules

variable {α β : Type} {P : α → Prop} {Q : β → Prop} {buf : List UInt8} {off k : Nat}

@[simp] theorem keeps_pure (a : α) : Keeps P (pure a) ↔ P a := Iff.rfl

@[simp] theorem keeps_bind (x : Build α) (g : α → Build β) :
    Keeps Q (x >>= g) ↔ Keeps (fun a => Keeps Q (g a)) x := by
  cases x with
  | ok a => rfl
  | error h => cases h <;> rfl

@[simp] theorem keeps_readLe {P : Nat → Prop} :
    Keeps P (readLe buf off k) ↔ off + k ≤ buf.length ∧ P (leAt buf off k) := by
  unfold readLe
  split
  case isTrue h => exact ⟨fun hp => ⟨h, hp⟩, And.right⟩
  case isFalse h => exact ⟨False.elim, fun hp => h hp.1⟩

@[simp] theorem keeps_readByte {P : UInt8 → Prop} :
    Keeps P (readByte buf off) ↔ off < buf.length ∧ P (byteAt buf off) := by
  unfold readByte byteAt
  by_cases h : off < buf.length
  · simp [h]
  · have hnone : buf[off]? = none := List.getElem?_eq_none (by omega)
    rw [hnone]
    exact ⟨False.elim, fun hp => h hp.1⟩

/-- A property of every place of a walk, from the first step on. -/
theorem walk_succ {S : Nat → Nat → Prop} (step : Nat → Nat) (n start : Nat) :
    (∀ i < n + 1, S i (step^[i] start)) ↔ S 0 start ∧ ∀ i < n, S (i + 1) (step^[i] (step start)) := by
  rw [Nat.forall_lt_succ_left]
  rfl

end Rules

end AmebaLinux.Hciattach.Link

namespace AmebaLinux.Hciattach.PatchV2

open AmebaLinux.Lib
open AmebaLinux.Hciattach.Link

/-! ## Version 2 -/

/-- Where the payload of the entry at `position` ends, and the next entry starts. -/
def nextEntry (fw : List UInt8) (position : Nat) : Nat := position + 8 + leAt fw (position + 4) 4

structure EntryInside (f : Image) (position : Nat) : Prop where
  header : position + 8 ≤ f.buf.length
  payload : byteAt f.buf position = f.chipid → nextEntry f.buf position ≤ f.buf.length

/-- The entries of a section whose body starts at `body`. -/
structure EntriesInside (f : Image) (body : Nat) : Prop where
  number : body + 2 ≤ f.buf.length
  entries : ∀ j < leAt f.buf body 2, EntryInside f ((nextEntry f.buf)^[j] (body + 4))

def nextSection (fw : List UInt8) (pSection : Nat) : Nat := pSection + 8 + leAt fw (pSection + 4) 4

/-- Snippets and dummy headers are the sections whose entries are read. -/
structure SectionInside (f : Image) (pSection : Nat) : Prop where
  header : pSection + 8 ≤ f.buf.length
  entries : leAt f.buf pSection 4 = 0x01 ∨ leAt f.buf pSection 4 = 0x02 → EntriesInside f (pSection + 8)

structure ImageInside (f : Image) : Prop where
  sectionNum : 20 ≤ f.buf.length
  sections : ∀ i < leAt f.buf 16 4, SectionInside f ((nextSection f.buf)^[i] 20)

/-- The payloads queued are inside the file. -/
def QueueInside (f : Image) (p : Parsed) : Prop := ∀ node ∈ p.queue, node.payload + node.payloadLen.toNat ≤ f.buf.length

def StaysInside (f : Image) : Prop := Keeps (QueueInside f) (parsePatch f 16 [])

theorem queueInside_add {f : Image} {p : Parsed} {node : PatchNode} :
    QueueInside f (p.add node) ↔ node.payload + node.payloadLen.toNat ≤ f.buf.length ∧ QueueInside f p := by
  unfold QueueInside Parsed.add insertPatchQueue
  simp only [Queue.insert, List.mem_orderedInsert, forall_eq_or_imp]

theorem takeEntry_keeps {f : Image} {opcode : SectionOpcode} (hop : opcode = .patchSnippets ∨ opcode = .dummyHeader)
    {position : Nat} {P : Parsed → Prop} {eco : UInt8} {len : Nat} {p : Parsed} :
    Keeps P (takeEntry f opcode position eco len p) ↔
      position + 1 < f.buf.length ∧
        P (p.add ⟨eco, byteAt f.buf (position + 1), 0, UInt32.ofNat len, position + 8, 0⟩) := by
  have hsec : opcode ≠ .securityHeader := by
    intro h
    simp [h] at hop
  simp only [takeEntry, if_neg hsec, if_pos hop, keeps_bind, keeps_readByte, keeps_pure]

section Sections

-- `R` stands for the rest of the file, which is parsed whatever this part has queued.
variable {f : Image} {R : Prop}

theorem parseEntries_inside {opcode : SectionOpcode} (hop : opcode = .patchSnippets ∨ opcode = .dummyHeader)
    (number position : Nat) (p : Parsed) :
    Keeps (fun q => QueueInside f q ∧ R) (parseEntries f opcode number position p) ↔
      (QueueInside f p ∧ R) ∧ ∀ j < number, EntryInside f ((nextEntry f.buf)^[j] position) := by
  induction number generalizing position p with
  | zero => simp [parseEntries]
  | succ number ih =>
    have hlen : (UInt32.ofNat (leAt f.buf (position + 4) 4)).toNat = leAt f.buf (position + 4) 4 := by
      have h := leAt_lt f.buf (position + 4) 4
      rw [UInt32.toNat_ofNat']
      omega
    rw [walk_succ]
    simp only [parseEntries, keeps_bind, keeps_readByte, keeps_readLe, ih]
    by_cases hchip : byteAt f.buf position = f.chipid
    · simp only [hchip, if_true, takeEntry_keeps hop, queueInside_add, hlen]
      constructor
      · intro h
        obtain ⟨-, hhead, -, ⟨⟨hpay, hq⟩, hR⟩, hrest⟩ := h
        exact ⟨⟨hq, hR⟩, ⟨by omega, fun _ => hpay⟩, hrest⟩
      · intro h
        obtain ⟨⟨hq, hR⟩, hentry, hrest⟩ := h
        have hhead := hentry.header
        exact ⟨by omega, by omega, by omega, ⟨⟨hentry.payload hchip, hq⟩, hR⟩, hrest⟩
    · simp only [hchip, if_false, keeps_pure]
      constructor
      · intro h
        obtain ⟨-, hhead, hq, hrest⟩ := h
        exact ⟨hq, ⟨by omega, fun hc => absurd hc hchip⟩, hrest⟩
      · intro h
        obtain ⟨hq, hentry, hrest⟩ := h
        have hhead := hentry.header
        exact ⟨by omega, by omega, hq, hrest⟩

theorem parsePatchSection_inside {opcode : SectionOpcode} (hop : opcode = .patchSnippets ∨ opcode = .dummyHeader)
    (body : Nat) (p : Parsed) :
    Keeps (fun q => QueueInside f q ∧ R) (parsePatchSection f opcode body p) ↔
      (QueueInside f p ∧ R) ∧ EntriesInside f body := by
  simp only [parsePatchSection, keeps_bind, keeps_readLe, parseEntries_inside hop]
  exact ⟨fun h => ⟨h.2.1, h.1, h.2.2⟩, fun h => ⟨h.2.number, h.1, h.2.entries⟩⟩

/-- Without a key the security headers are passed over. -/
theorem firstPass_inside (hkey : f.patchKeyId = 0) (opcode body : Nat) (p : Parsed) :
    Keeps (fun q => QueueInside f q ∧ R) (firstPass f (sectionOpcode opcode) body p) ↔
      (QueueInside f p ∧ R) ∧ (opcode = 0x01 ∨ opcode = 0x02 → EntriesInside f body) := by
  by_cases h1 : opcode = 0x01
  · simp [sectionOpcode, firstPass, h1, parsePatchSection_inside]
  · by_cases h2 : opcode = 0x02
    · simp [sectionOpcode, firstPass, h2, hkey, parsePatchSection_inside]
    · have hpass : firstPass f (sectionOpcode opcode) body p = pure p := by
        simp only [sectionOpcode, h1, h2, if_false]
        split
        · simp [firstPass, hkey]
        · split
          · rfl
          · split <;> rfl
      simp [hpass, h1, h2]

theorem parseSections_inside (hkey : f.patchKeyId = 0) (n pSection : Nat) (p : Parsed) :
    Keeps (QueueInside f) (parseSections f (firstPass f) n pSection p) ↔
      QueueInside f p ∧ ∀ i < n, SectionInside f ((nextSection f.buf)^[i] pSection) := by
  induction n generalizing pSection p with
  | zero => simp [parseSections]
  | succ n ih =>
    rw [walk_succ]
    simp only [parseSections, keeps_bind, keeps_readLe, ih, firstPass_inside hkey]
    constructor
    · intro h
      obtain ⟨-, hhead, ⟨hq, hrest⟩, hentries⟩ := h
      exact ⟨hq, ⟨by omega, hentries⟩, hrest⟩
    · intro h
      obtain ⟨hq, hsection, hrest⟩ := h
      have hhead := hsection.header
      exact ⟨by omega, by omega, ⟨hq, hrest⟩, hsection.entries⟩

theorem parsePatch_inside_iff (hkey : f.patchKeyId = 0) : StaysInside f ↔ ImageInside f := by
  have hnil : QueueInside f ⟨[], 0, false⟩ := fun node h => absurd h List.not_mem_nil
  simp only [StaysInside, parsePatch, keeps_bind, keeps_readLe]
  by_cases hnum : leAt f.buf 16 4 = 0
  · simp only [hnum, if_true, keeps_pure]
    exact ⟨fun h => ⟨h.1, by simp [hnum]⟩, fun h => ⟨h.sectionNum, hnil⟩⟩
  · simp only [hnum, if_false, hkey, ne_eq, not_true_eq_false, false_and, keeps_bind, keeps_pure,
      parseSections_inside hkey]
    exact ⟨fun h => ⟨h.1, h.2.2⟩, fun h => ⟨h.sectionNum, hnil, h.sections⟩⟩

end Sections

end AmebaLinux.Hciattach.PatchV2

namespace AmebaLinux.Hciattach.PatchV3

open AmebaLinux.Lib
open AmebaLinux.Hciattach.Link

/-! ## Version 3 -/

def nextSection (fw : List UInt8) (pSection : Nat) : Nat := pSection + 12 + leAt fw (pSection + 4) 8

/-- The identifiers at the head of an image are this chip's. -/
def forThisChip (f : Image) (p : Nat) : Bool :=
  leAt f.buf p 2 == hciPatchProjectId && byteAt f.buf (p + 2) == f.chipid && byteAt f.buf (p + 3) == f.patchKeyId &&
    byteAt f.buf (p + 4) == 0

/-- The 64-bit length of an image. -/
def imageLen (f : Image) (p : Nat) : Nat := leAt f.buf (p + hciPatchImageInfoLen) 8

/-- The section is queued, as long as there are fewer than 64. -/
def queues (f : Image) (pSection : Nat) : Bool :=
  leAt f.buf pSection 4 == 0x01 && forThisChip f (pSection + 12) && imageLen f (pSection + 12) != 0

/-- How many of the `i` sections from `start` on are for the queue. -/
def queuedBefore (f : Image) (start i : Nat) : Nat :=
  (List.range i).countP fun j => queues f ((nextSection f.buf)^[j] start)

/-- The image is read when `room` says that the queue takes one more; its length is cut to
    32 bits. -/
structure SectionInside (f : Image) (room : Prop) (pSection : Nat) : Prop where
  header : pSection + 12 ≤ f.buf.length
  ids : leAt f.buf pSection 4 = 0x01 → pSection + 17 ≤ f.buf.length
  image : leAt f.buf pSection 4 = 0x01 → forThisChip f (pSection + 12) → room →
    pSection + 1044 + imageLen f (pSection + 12) % 2 ^ 32 ≤ f.buf.length

structure ImageInside (f : Image) : Prop where
  sectionNum : 24 ≤ f.buf.length
  sections : ∀ i < leAt f.buf 20 4, SectionInside f (queuedBefore f 24 i < 64) ((nextSection f.buf)^[i] 24)

/-- The images queued are inside the file. -/
def QueueInside (f : Image) (info : PatchInfo) : Prop :=
  ∀ node ∈ info.nodes, node.imagePayload + node.imageLen.toNat ≤ f.buf.length

/-- `_get_patch_info` starts from a zeroed info with the length of the config. -/
def StaysInside (f : Image) (config : ConfigBuf) : Prop :=
  Keeps (fun r => QueueInside f r.2)
    (parseSections f 20 { PatchInfo.zero with configLen := UInt16.ofNat config.bytes.length })

section Sections

variable {f : Image} {info : PatchInfo}

theorem queueInside_insert {node : SectionNode} {c : UInt8} {sec : Option SectionNode} :
    QueueInside f { info with sectionCnt := c, nodes := insertPatchQueue info.nodes node, securityNode := sec } ↔
      node.imagePayload + node.imageLen.toNat ≤ f.buf.length ∧ QueueInside f info := by
  unfold QueueInside insertPatchQueue
  simp only [Queue.insert, List.mem_orderedInsert, forall_eq_or_imp]

/-- The number of sections queued after the image at `p`. -/
def sectionCntAfter (f : Image) (p : Nat) (c : UInt8) : UInt8 :=
  if forThisChip f p ∧ c < 64 ∧ imageLen f p ≠ 0 then c + 1 else c

theorem ids_mismatch_iff (f : Image) (p : Nat) :
    (leAt f.buf p 2 ≠ hciPatchProjectId ∨ byteAt f.buf (p + 2) ≠ f.chipid ∨ byteAt f.buf (p + 3) ≠ f.patchKeyId ∨
      byteAt f.buf (p + 4) ≠ 0) ↔ ¬ forThisChip f p := by
  simp only [forThisChip, Bool.and_eq_true, beq_iff_eq]
  tauto

section Node

variable (len total : UInt32) (payload : Nat) (prio : UInt8) (start remain : Reg)

theorem mkNode_imageLen : (mkNode len total payload prio start remain).imageLen = len := rfl

theorem mkNode_payload : (mkNode len total payload prio start remain).imagePayload = payload := rfl

end Node

theorem keeps_readReg {P : Reg → Prop} {buf : List UInt8} {off : Nat} :
    Keeps P (readReg buf off) ↔
      off + 16 ≤ buf.length ∧ P ⟨UInt32.ofNat (leAt buf off 8), UInt32.ofNat (leAt buf (off + 8) 8)⟩ := by
  simp only [readReg, keeps_bind, keeps_readLe, keeps_pure, Nat.add_assoc]
  exact ⟨And.right, fun h => ⟨by omega, h⟩⟩

theorem ids_inside {len p : Nat} {X : Prop} :
    (p + 2 ≤ len ∧ p + 2 < len ∧ p + 3 < len ∧ p + 4 < len ∧ X) ↔ p + 5 ≤ len ∧ X := by
  constructor
  · intro h
    exact ⟨h.2.2.2.1, h.2.2.2.2⟩
  · intro h
    have hlast := h.1
    exact ⟨by omega, by omega, by omega, by omega, h.2⟩

theorem parsePatchImage_inside {S : UInt8 → Prop} (p : Nat) :
    Keeps (fun r => QueueInside f r.2 ∧ S r.2.sectionCnt) (parsePatchImage f p info) ↔
      QueueInside f info ∧ p + 5 ≤ f.buf.length ∧
        (forThisChip f p → info.sectionCnt < 64 → p + 1032 + imageLen f p % 2 ^ 32 ≤ f.buf.length) ∧
        S (sectionCntAfter f p info.sectionCnt) := by
  have hinfo : hciPatchImageInfoLen = 1024 := rfl
  have hread : leAt f.buf (p + hciPatchImageInfoLen) 8 = imageLen f p := rfl
  have hcut : (UInt32.ofNat (imageLen f p)).toNat = imageLen f p % 2 ^ 32 := UInt32.toNat_ofNat'
  simp only [parsePatchImage, keeps_bind, keeps_readLe, keeps_readByte, ids_mismatch_iff, ids_inside]
  by_cases hids : forThisChip f p
  · by_cases hroom : info.sectionCnt < 64
    · have hnot : ¬ info.sectionCnt ≥ 64 := UInt8.not_le.mpr hroom
      by_cases hlen : imageLen f p = 0
      · simp only [hids, not_true_eq_false, if_false, hnot, keeps_bind, keeps_readLe, hread, hlen, if_true,
          keeps_pure, sectionCntAfter, hroom, ne_eq, and_false]
        constructor
        · intro h
          obtain ⟨hhead, hend, hq, hS⟩ := h
          exact ⟨hq, hhead, fun _ _ => by omega, hS⟩
        · intro h
          obtain ⟨hq, hhead, himage, hS⟩ := h
          have himage := himage trivial trivial
          exact ⟨hhead, by omega, hq, hS⟩
      · simp only [hids, not_true_eq_false, if_false, hnot, keeps_bind, keeps_readLe, hread, hlen,
          keeps_pure, keeps_readByte, keeps_readReg, queueInside_insert, sectionCntAfter, hroom, ne_eq,
          not_false_eq_true, and_self, if_true, mkNode_payload, mkNode_imageLen, hcut]
        constructor
        · intro h
          obtain ⟨hhead, -, -, -, -, ⟨hpay, hq⟩, hS⟩ := h
          exact ⟨hq, hhead, fun _ _ => by omega, hS⟩
        · intro h
          obtain ⟨hq, hhead, himage, hS⟩ := h
          have himage := himage trivial trivial
          exact ⟨hhead, by omega, by omega, by omega, by omega, ⟨by omega, hq⟩, hS⟩
    · have hfull : info.sectionCnt ≥ 64 := UInt8.not_lt.mp hroom
      simp only [hids, not_true_eq_false, if_false, hfull, if_true, keeps_pure, sectionCntAfter, hroom, false_and,
        and_false, false_implies, implies_true, true_and]
      exact and_left_comm
  · simp only [hids, not_false_eq_true, if_true, keeps_pure, sectionCntAfter, false_and, if_false, false_implies,
      true_and, Bool.false_eq_true]
    exact and_left_comm

theorem queuedBefore_succ (f : Image) (start i : Nat) :
    queuedBefore f start (i + 1) = (if queues f start then 1 else 0) + queuedBefore f (nextSection f.buf start) i := by
  unfold queuedBefore
  rw [List.range_succ_eq_map, List.countP_cons, List.countP_map, Nat.add_comm]
  rfl

/-- Once 64 are queued, those that the file still has for the queue make no difference. -/
theorem room_succ {pSection : Nat} (c : UInt8) (hop : leAt f.buf pSection 4 = 0x01) (i : Nat) :
    (sectionCntAfter f (pSection + 12) c).toNat + queuedBefore f (nextSection f.buf pSection) i < 64 ↔
      c.toNat + queuedBefore f pSection (i + 1) < 64 := by
  have hqueues : queues f pSection ↔ forThisChip f (pSection + 12) ∧ imageLen f (pSection + 12) ≠ 0 := by
    simp [queues, hop]
  rw [queuedBefore_succ, sectionCntAfter]
  by_cases hroom : c < 64
  · have hc : c.toNat < 64 := hroom
    have hnext : (c + 1).toNat = c.toNat + 1 := by
      rw [UInt8.toNat_add, show (1 : UInt8).toNat = 1 from rfl]
      omega
    by_cases hq : forThisChip f (pSection + 12) ∧ imageLen f (pSection + 12) ≠ 0
    · rw [if_pos ⟨hq.1, hroom, hq.2⟩, if_pos (hqueues.mpr hq), hnext, Nat.add_assoc]
    · rw [if_neg (fun h => hq ⟨h.1, h.2.2⟩), if_neg (fun h => hq (hqueues.mp h)), Nat.zero_add]
  · have hc : ¬ c.toNat < 64 := hroom
    rw [if_neg (fun h => hroom h.2.1)]
    omega

theorem parseSectionLoop_inside (n pSection : Nat) (fwLen : UInt32) :
    Keeps (fun r => QueueInside f r.2) (parseSectionLoop f n pSection fwLen info) ↔
      QueueInside f info ∧ ∀ i < n,
        SectionInside f (info.sectionCnt.toNat + queuedBefore f pSection i < 64) ((nextSection f.buf)^[i] pSection) := by
  induction n generalizing pSection fwLen info with
  | zero => simp [parseSectionLoop]
  | succ n ih =>
    have hnext : pSection + 12 + leAt f.buf (pSection + 4) 8 = nextSection f.buf pSection := rfl
    rw [walk_succ]
    simp only [parseSectionLoop, keeps_bind, keeps_readLe, ih, hnext]
    by_cases hop : leAt f.buf pSection 4 = 0x01
    · rw [if_pos hop, parsePatchImage_inside (S := fun c => ∀ i < n, SectionInside f
        (c.toNat + queuedBefore f (nextSection f.buf pSection) i < 64)
        ((nextSection f.buf)^[i] (nextSection f.buf pSection)))]
      simp only [room_succ _ hop]
      constructor
      · intro h
        obtain ⟨-, hhead, hq, hids, himage, hrest⟩ := h
        exact ⟨hq, ⟨by omega, fun _ => by omega, fun _ hc hroom => by have := himage hc hroom; omega⟩, hrest⟩
      · intro h
        obtain ⟨hq, hsection, hrest⟩ := h
        have hids := hsection.ids hop
        exact ⟨by omega, by omega, hq, by omega,
          fun hc hroom => by have := hsection.image hop hc hroom; omega, hrest⟩
    · have hskip (i : Nat) : queuedBefore f pSection (i + 1) = queuedBefore f (nextSection f.buf pSection) i := by
        simp [queuedBefore_succ, queues, hop]
      simp only [if_neg hop, keeps_pure, hskip]
      constructor
      · intro h
        obtain ⟨-, hhead, hq, hrest⟩ := h
        exact ⟨hq, ⟨by omega, fun h => absurd h hop, fun h => absurd h hop⟩, hrest⟩
      · intro h
        obtain ⟨hq, hsection, hrest⟩ := h
        have hhead := hsection.header
        exact ⟨by omega, by omega, hq, hrest⟩

theorem parseSections_inside_iff (f : Image) (config : ConfigBuf) : StaysInside f config ↔ ImageInside f := by
  have hnil : QueueInside f { PatchInfo.zero with configLen := UInt16.ofNat config.bytes.length } :=
    fun node h => absurd h List.not_mem_nil
  have hzero : (0 : UInt8).toNat = 0 := rfl
  simp only [StaysInside, parseSections, keeps_bind, keeps_readLe]
  by_cases hnum : leAt f.buf 20 4 = 0
  · simp only [hnum, if_true, keeps_pure]
    exact ⟨fun h => ⟨h.1, by simp [hnum]⟩, fun h => ⟨h.sectionNum, hnil⟩⟩
  · simp only [hnum, if_false, parseSectionLoop_inside, PatchInfo.zero, hzero, Nat.zero_add]
    exact ⟨fun h => ⟨h.1, h.2.2⟩, fun h => ⟨h.sectionNum, hnil, h.sections⟩⟩

end Sections

end AmebaLinux.Hciattach.PatchV3

namespace AmebaLinux.Hciattach.Attach

open AmebaLinux.Hciattach.Link

/-! ## Both versions -/

/-- One snippet of 100 bytes is announced and the file ends after four. -/
def cutSnippetV2 : List UInt8 :=
  patchSigV2 ++ List.replicate 8 0 ++ [1, 0, 0, 0] ++ [1, 0, 0, 0, 16, 0, 0, 0] ++ [1, 0, 0, 0] ++
    [1, 0, 0, 0, 100, 0, 0, 0] ++ extSectionSig

/-- One section is announced and the file ends. -/
def cutSectionV3 : List UInt8 := patchSigV3 ++ List.replicate 12 0 ++ [1, 0, 0, 0]

end AmebaLinux.Hciattach.Attach
