/-
  AmebaLinux.Hciattach.PatchV3Sections — the lengths and counters of a version 3 section
  (`_parse_patch_image`, `hci_patch_get_cmd_buf`).

  The length field has 64 bits and is cut to 32 after the test for 0, the sum with the
  config has 32 bits and the fragment counters 16. `cur_index` has to get above `end_index`
  for the section to be over.

  Proved:
  - `fragments_cursor`: where `cur_index` stands after any fragments of a section.
  - `section_exact_iff`: the numbers of a queued section are right exactly when it takes at
    most 65534 fragments.
-/

import AmebaLinux.Hciattach.DownloadEnd

namespace AmebaLinux.Hciattach.PatchV3

open AmebaLinux.Lib.Bytes
open AmebaLinux.Hciattach.Link

/-! ## Fragments sent -/

/-- `n` fragments of a section, as `scan` sends them. -/
inductive Fragments (fw : List UInt8) (config : ConfigBuf) (node : SectionNode) : Nat → SectionNode → Prop
  | none : Fragments fw config node 0 node
  | next {n : Nat} {now sent : SectionNode} {info info' : PatchInfo} {buf buf' : List UInt8}
      (before : Fragments fw config node n now)
      (copy : copyFragment fw config info { now with newSectionCheck := true } buf = .ok (buf', sent, info')) :
      Fragments fw config node (n + 1) { sent with curIndex := sent.curIndex + 1 }

/-- `cur_index` after `n` fragments. -/
def SectionNode.cursor (node : SectionNode) (n : Nat) : UInt16 := node.curIndex + UInt16.ofNat n

theorem fragments_cursor {fw : List UInt8} {config : ConfigBuf} {node now : SectionNode} {n : Nat}
    (h : Fragments fw config node n now) : now.curIndex = node.cursor n ∧ now.endIndex = node.endIndex := by
  induction h with
  | none => exact ⟨by simp [SectionNode.cursor], rfl⟩
  | next before copy ih =>
    obtain ⟨-, hcur, hend, -⟩ := copyFragment_ok copy
    refine ⟨?_, hend.trans ih.2⟩
    dsimp only at hcur ⊢
    rw [hcur, ih.1, SectionNode.cursor, SectionNode.cursor, UInt16.ofNat_add, UInt16.add_assoc]
    rfl

/-! ## The numbers of a section -/

/-- The numbers of a node are those of a section of `field` bytes that `extra` config bytes
    follow: its length, the fragments it takes, and that they end. -/
structure SectionNode.Exact (node : SectionNode) (field extra : Nat) : Prop where
  imageLen : node.imageLen.toNat = field
  total : ((node.endIndex.toNat : Int) - 1) * 252 + node.lastPkt.toNat = node.imageLen.toNat + extra
  lastPkt : 1 ≤ node.lastPkt.toNat ∧ node.lastPkt.toNat ≤ 252
  ends : node.cursor node.endIndex.toNat > node.endIndex

/-- The total as the code has it: both numbers cut to 32 bits, and their sum. -/
def cutTotal (field extra : Nat) : Nat := (field % 2 ^ 32 + extra) % 2 ^ 32

section

variable {field : Nat} {extra : UInt16} {payload : Nat} {priority : UInt8} {start remain : Reg}

theorem cutTotal_toNat : (UInt32.ofNat field + extra.toUInt32).toNat = cutTotal field extra.toNat := by
  rw [UInt32.toNat_add, UInt32.toNat_ofNat', UInt16.toNat_toUInt32, cutTotal]

/-- The node of a section, in numbers. -/
theorem mkNode_numbers (node : SectionNode)
    (hnode : node = mkNode (UInt32.ofNat field) (UInt32.ofNat field + extra.toUInt32) payload priority start remain) :
    node.curIndex = 1 ∧ node.imageLen.toNat = field % 2 ^ 32 ∧
      node.endIndex.toNat = ((cutTotal field extra.toNat + (2 ^ 32 - 1)) % 2 ^ 32 / 252 + 1) % 2 ^ 16 ∧
      node.lastPkt.toNat = if cutTotal field extra.toNat % 252 = 0 then 252 else cutTotal field extra.toNat % 252 := by
  have hlast : (UInt8.ofNat (cutTotal field extra.toNat % 252)).toNat = cutTotal field extra.toNat % 252 := by
    rw [UInt8.toNat_ofNat']
    omega
  have hzero : UInt8.ofNat (cutTotal field extra.toNat % 252) = 0 ↔ cutTotal field extra.toNat % 252 = 0 := by
    rw [← UInt8.toNat_inj, hlast]
    rfl
  have hpred : (UInt32.ofNat field + extra.toUInt32 - 1).toNat = (cutTotal field extra.toNat + (2 ^ 32 - 1)) % 2 ^ 32 := by
    rw [UInt32.toNat_sub, cutTotal_toNat, Nat.add_comm]
    rfl
  subst hnode
  simp only [mkNode, hciPatchFragSize, cutTotal_toNat, hpred, hzero]
  refine ⟨trivial, UInt32.toNat_ofNat', UInt16.toNat_ofNat', ?_⟩
  split
  · rfl
  · exact hlast

/-- A section's numbers are right exactly when it takes at most 65534 fragments. -/
theorem mkNode_exact_iff (hfield : field ≠ 0) (node : SectionNode)
    (hnode : node = mkNode (UInt32.ofNat field) (UInt32.ofNat field + extra.toUInt32) payload priority start remain) :
    node.Exact field extra.toNat ↔ field + extra.toNat ≤ 65534 * 252 := by
  obtain ⟨hcur, himage, hend, hlast⟩ := mkNode_numbers node hnode
  have hextra := extra.toNat_lt
  have hcursor : (node.cursor node.endIndex.toNat).toNat = (1 + node.endIndex.toNat) % 2 ^ 16 := by
    rw [SectionNode.cursor, hcur, UInt16.toNat_add, UInt16.ofNat_toNat]
    rfl
  have hends : node.cursor node.endIndex.toNat > node.endIndex ↔ node.endIndex.toNat < 65535 := by
    have := node.endIndex.toNat_lt
    rw [gt_iff_lt, UInt16.lt_iff_toNat_lt, hcursor]
    omega
  unfold cutTotal at hend hlast
  constructor
  · intro h
    have htotal := h.total
    have hsize := h.imageLen
    have hlt := hends.mp h.ends
    have hlast252 := h.lastPkt.2
    rw [hsize] at htotal
    omega
  · intro hfits
    have hcut : field % 2 ^ 32 = field := Nat.mod_eq_of_lt (by omega)
    have hsum : (field + extra.toNat) % 2 ^ 32 = field + extra.toNat := Nat.mod_eq_of_lt (by omega)
    rw [hcut, hsum] at hend hlast
    have hendIndex : node.endIndex.toNat = (field + extra.toNat - 1) / 252 + 1 := by omega
    refine ⟨himage.trans hcut, ?_, ?_, hends.mpr (by omega)⟩
    · rw [himage, hcut, hlast, hendIndex]
      split <;> omega
    · rw [hlast]
      split <;> omega

end

/-! ## The section queued -/

/-- What `_parse_patch_image` does with a section it takes. -/
theorem parsePatchImage_taken {f : Image} {p : Nat} {info info' : PatchInfo} {len : UInt32}
    (h : parsePatchImage f p info = .ok (len, info')) (htaken : info'.sectionCnt ≠ info.sectionCnt) :
    ∃ field priority start remain, readLe f.buf (p + hciPatchImageInfoLen) 8 = .ok field ∧ field ≠ 0 ∧
      info'.nodes = insertPatchQueue info.nodes
        (mkNode (UInt32.ofNat field)
          (UInt32.ofNat field + (if info.sectionCnt = 0 then info.configLen else 0).toUInt32) (p + hciPatchImageInfoLen + 8)
          priority start remain) := by
  rcases parsePatchImage_cases h with hr | ⟨field, priority, start, remain, hfield, hne, -, node, hnode, hr⟩
  · exact absurd (congrArg (fun r => r.2.sectionCnt) hr) htaken
  · refine ⟨field, priority, start, remain, hfield, hne, ?_⟩
    have hnodes : info'.nodes = insertPatchQueue info.nodes node := congrArg (fun r => r.2.nodes) hr
    have hfirst : info.sectionCnt + 1 = 1 ↔ info.sectionCnt = 0 := by
      rw [← UInt8.toNat_inj, ← UInt8.toNat_inj, UInt8.toNat_add]
      have := info.sectionCnt.toNat_lt
      show (info.sectionCnt.toNat + 1) % 256 = 1 ↔ info.sectionCnt.toNat = 0
      omega
    rw [hnodes, hnode]
    by_cases hzero : info.sectionCnt = 0
    · rw [if_pos (hfirst.mpr hzero), if_pos hzero]
    · rw [if_neg (fun h1 => hzero (hfirst.mp h1)), if_neg hzero]
      simp

/-- A section that is taken is queued with the right numbers exactly when its image and the
    config that follows it, if it is the first, take at most 65534 fragments. -/
theorem section_exact_iff {f : Image} {p field : Nat} {info info' : PatchInfo} {len : UInt32}
    (h : parsePatchImage f p info = .ok (len, info')) (htaken : info'.sectionCnt ≠ info.sectionCnt)
    (hfield : readLe f.buf (p + hciPatchImageInfoLen) 8 = .ok field) :
    ∃ node, info'.nodes = insertPatchQueue info.nodes node ∧
      (node.Exact field (if info.sectionCnt = 0 then info.configLen else 0).toNat ↔
        field + (if info.sectionCnt = 0 then info.configLen else 0).toNat ≤ 65534 * 252) := by
  obtain ⟨field', priority, start, remain, hread, hne, hnodes⟩ := parsePatchImage_taken h htaken
  rw [hfield] at hread
  cases hread
  exact ⟨_, hnodes, mkNode_exact_iff hne _ rfl⟩

/-- The information of a section for cut 1, and its length field. -/
def sectionHead (field : Nat) : List UInt8 := [0x28, 0, 1, 0, 0] ++ List.replicate 1019 0 ++ toLe 8 field

/-- What is queued for it as the first section, with no config. -/
def headNode (field : Nat) : SectionNode := mkNode (UInt32.ofNat field) (UInt32.ofNat field) 1032 0 ⟨0, 0⟩ ⟨0, 0⟩

theorem sectionHead_taken : ∀ field ∈ [1000, 65534 * 252 + 1],
    parsePatchImage ⟨sectionHead field, 1, 0⟩ 0 PatchInfo.zero =
        .ok (UInt32.ofNat field, ⟨0, 0, 1, 0, 0, [headNode field], none⟩) ∧
      readLe (sectionHead field) hciPatchImageInfoLen 8 = .ok field := by
  decide +kernel

theorem small_section_exact :
    (⟨0, 0, 1, 0, 0, [headNode 1000], none⟩ : PatchInfo).sectionCnt ≠ PatchInfo.zero.sectionCnt ∧
      ∃ node, [headNode 1000] = insertPatchQueue [] node ∧ (node.Exact 1000 0 ↔ 1000 ≤ 65534 * 252) := by
  obtain ⟨h, hfield⟩ := sectionHead_taken 1000 (by simp)
  exact ⟨by decide, section_exact_iff h (by decide) (by rwa [Nat.zero_add])⟩

/-- A section of one byte more than 65534 fragments hold: after its 65535 fragments
    `cur_index` is 0, and the section is not over. -/
theorem long_section_never_ends :
    parsePatchImage ⟨sectionHead (65534 * 252 + 1), 1, 0⟩ 0 PatchInfo.zero =
        .ok (65534 * 252 + 1, ⟨0, 0, 1, 0, 0, [headNode (65534 * 252 + 1)], none⟩) ∧
      (headNode (65534 * 252 + 1)).cursor (headNode (65534 * 252 + 1)).endIndex.toNat = 0 ∧
      ¬ (headNode (65534 * 252 + 1)).Exact (65534 * 252 + 1) 0 := by
  refine ⟨(sectionHead_taken _ (by simp)).1, by decide, ?_⟩
  intro h
  exact absurd h.ends (by decide)

end AmebaLinux.Hciattach.PatchV3
