/-
  AmebaLinux.Hciattach.DownloadEnd — how many commands the download loops send, whatever
  the controller answers (`hci_download_patch_v2`, `hci_download_patch_v3`).

  A version 2 download ends by itself: after the last fragment no command can be built. A
  version 3 download ends with the end command, which carries no fragment, and the loop
  leaves only when the answer to it has 0x80 in byte 7: with any other index byte, or once
  an answer was too short to have one, the end command is built again. `pending` are the
  fragments that the queue has still to send; a turn takes the first of them.

  Proved:
  - `nextCommand_ok`: what a turn of a version 3 download takes.
  - `downloads_end`: at most one command more than there are fragments, and no fragment
    twice, for version 3 where each end command is answered by the end of the loop.
  - `end_command_repeats`: otherwise there is no bound.
-/

import AmebaLinux.Hciattach.DownloadRun
import AmebaLinux.Hciattach.PatchV2End
import AmebaLinux.Hciattach.PatchV3Proofs

namespace AmebaLinux.Hciattach.PatchV3

open AmebaLinux.Lib
open AmebaLinux.Lib.Bytes
open AmebaLinux.Hciattach.Link
open AmebaLinux.Hciattach.Attach

/-! ## The fragments of a version 3 patch -/

/-- The fragments that the sections from position `i` of the queue on have still to send,
    as the position of the section and `cur_index`. -/
def pendingFrom : Nat → List SectionNode → List (Nat × Nat)
  | _, [] => []
  | i, node :: rest =>
    (List.range' node.curIndex.toNat (node.endIndex.toNat + 1 - node.curIndex.toNat)).map (i, ·) ++ pendingFrom (i + 1) rest

def pending (info : PatchInfo) : List (Nat × Nat) := pendingFrom 0 info.nodes

/-- `cur_index` can pass `end_index` in every section. -/
def Bounded (nodes : List SectionNode) : Prop := ∀ node ∈ nodes, node.endIndex.toNat ≤ 65534

/-! ## One command -/

theorem copyTo_ok {buf buf' src : List UInt8} {off : Int} {n : Nat} (h : copyTo buf off src = .ok buf') (hn : n ≤ off) :
    buf'.take n = buf.take n ∧ buf'.length = buf.length := by
  unfold copyTo at h
  split at h
  case isFalse => cases h
  case isTrue hin =>
    cases h
    obtain ⟨p, rfl⟩ : ∃ p : Nat, off = p := ⟨off.toNat, (Int.toNat_of_nonneg hin.1).symm⟩
    have hp : n ≤ p := by exact_mod_cast hn
    have hend : p + src.length ≤ buf.length := by exact_mod_cast hin.2
    refine ⟨?_, overlay_length hend⟩
    rw [Int.toNat_natCast, overlay, List.append_assoc, List.take_append_of_le_length (by rw [List.length_take]; omega),
      List.take_take, Nat.min_eq_left hp]

/-- The length and index bytes stand at offsets 3 and 4. -/
theorem copyTo_header {buf buf' : List UInt8} {len index : UInt8} (h : copyTo buf 3 [len, index] = .ok buf') :
    buf'.take 5 = buf.take 3 ++ [len, index] := by
  unfold copyTo at h
  split at h
  case isFalse => cases h
  case isTrue hin =>
    cases h
    have h5 : 5 ≤ buf.length := by exact_mod_cast hin.2
    have hlen : (buf.take 3).length = 3 := List.length_take_of_le (by omega)
    rw [show (3 : Int).toNat = 3 from rfl, overlay, List.take_left' (by rw [List.length_append, hlen]; rfl)]

theorem copyTo_index {buf buf' : List UInt8} {len index : UInt8} (h : copyTo buf 3 [len, index] = .ok buf')
    (hbuf : 3 ≤ buf.length) : buf'.getD 4 0 = index := by
  have hlen : (buf.take 3).length = 3 := List.length_take_of_le hbuf
  rw [← List.take_append_drop 5 buf', copyTo_header h, List.append_assoc, List.getD_eq_getElem?_getD,
    List.getElem?_append_right (by omega), hlen]
  rfl

/-- The length byte of a section's next fragment. -/
def SectionNode.lengthByte (node : SectionNode) : UInt8 :=
  if node.curIndex = node.endIndex then node.lastPkt + 1 else UInt8.ofNat hciPatchFragSize + 1

theorem copyFragment_ok {fw : List UInt8} {config : ConfigBuf} {info info' : PatchInfo} {node node' : SectionNode}
    {buf buf' : List UInt8} (h : copyFragment fw config info node buf = .ok (buf', node', info')) :
    (buf'.take 5 = buf.take 3 ++ [node.lengthByte, trimIndex node.curIndex] ∧ buf'.take 3 = buf.take 3) ∧
      node'.curIndex = node.curIndex ∧ node'.endIndex = node.endIndex ∧ node'.lastPkt = node.lastPkt := by
  unfold copyFragment at h
  dsimp only at h
  rw [← SectionNode.lengthByte] at h
  obtain ⟨b1, hhead, h⟩ := build_eq_ok h
  have h1 := copyTo_header hhead
  obtain ⟨h3, -⟩ := copyTo_ok (n := 3) hhead (by decide)
  -- What is copied after the head goes behind it.
  have hkept : ∀ {b b' : List UInt8}, b'.take 5 = b.take 5 → b'.take 3 = b.take 3 := by
    intro b b' h5
    have := congrArg (List.take 3) h5
    rwa [List.take_take, List.take_take] at this
  split at h
  case isTrue =>
    obtain ⟨bytes, -, h⟩ := build_eq_ok h
    obtain ⟨b2, hdata, h⟩ := build_eq_ok h
    obtain ⟨h2, -⟩ := copyTo_ok (n := 5) hdata (by decide)
    cases h
    exact ⟨⟨h2.trans h1, (hkept h2).trans h3⟩, rfl, rfl, rfl⟩
  case isFalse =>
    obtain ⟨bytes, -, h⟩ := build_eq_ok h
    obtain ⟨b2, hdata, h⟩ := build_eq_ok h
    obtain ⟨h2, -⟩ := copyTo_ok (n := 5) hdata (by decide)
    obtain ⟨tail, -, h⟩ := build_eq_ok h
    obtain ⟨b3, htail, h⟩ := build_eq_ok h
    obtain ⟨h2', -⟩ := copyTo_ok (n := 5) htail (by omega)
    split at h
    case isTrue => cases h
    case isFalse =>
      cases h
      exact ⟨⟨(h2'.trans h2).trans h1, (hkept (h2'.trans h2)).trans h3⟩, rfl, rfl, rfl⟩

theorem pendingFrom_done {i : Nat} {node : SectionNode} (rest : List SectionNode) (h : node.curIndex > node.endIndex) :
    pendingFrom i (node :: rest) = pendingFrom (i + 1) rest := by
  have hlt : node.endIndex.toNat < node.curIndex.toNat := h
  rw [pendingFrom, show node.endIndex.toNat + 1 - node.curIndex.toNat = 0 by omega]
  rfl

/-- The first fragment of a section that is not done is the next one. -/
theorem pendingFrom_next {i : Nat} {node node' : SectionNode} (rest : List SectionNode) (h : ¬ node.curIndex > node.endIndex)
    (hfit : node.endIndex.toNat ≤ 65534) (hcur : node'.curIndex = node.curIndex + 1) (hend : node'.endIndex = node.endIndex) :
    pendingFrom i (node :: rest) = (i, node.curIndex.toNat) :: pendingFrom i (node' :: rest) := by
  have hle : node.curIndex.toNat ≤ node.endIndex.toNat := UInt16.not_lt.mp h
  have hnext : (node.curIndex + 1).toNat = node.curIndex.toNat + 1 := by
    rw [UInt16.toNat_add, show (1 : UInt16).toNat = 1 from rfl]
    omega
  obtain ⟨n, hn⟩ : ∃ n, node.endIndex.toNat + 1 - node.curIndex.toNat = n + 1 := ⟨_, (Nat.succ_pred (by omega)).symm⟩
  rw [pendingFrom, pendingFrom, hcur, hend, hnext, hn, show node.endIndex.toNat + 1 - (node.curIndex.toNat + 1) = n by omega,
    List.range'_succ]
  rfl

/-- What a pass over the queue does to what is pending. -/
theorem scan_takes {fw : List UInt8} {config : ConfigBuf} {info : PatchInfo} {buf : List UInt8} {nodes : List SectionNode}
    {regs : Option (Reg × Reg)} {s : Scan} (h : scan fw config info buf nodes regs = .ok s) (hb : Bounded nodes) (i : Nat) :
    Bounded s.nodes ∧ s.buf.take 3 = buf.take 3 ∧
      ((s.sent = true ∧ ∃ x, pendingFrom i nodes = x :: pendingFrom i s.nodes) ∨
        (s.sent = false ∧ s.buf = buf ∧ pendingFrom i nodes = [] ∧ pendingFrom i s.nodes = [])) := by
  induction nodes generalizing i regs s with
  | nil =>
    cases h
    exact ⟨hb, rfl, .inr ⟨rfl, rfl, rfl, rfl⟩⟩
  | cons node rest ih =>
    have hrest : Bounded rest := fun n hn => hb n (List.mem_cons_of_mem _ hn)
    have hnode := hb node List.mem_cons_self
    rw [scan] at h
    dsimp only at h
    split at h
    case isTrue hdone =>
      obtain ⟨s', hscan, h⟩ := build_eq_ok h
      cases h
      obtain ⟨hb', htake, hcases⟩ := ih hscan hrest (i + 1)
      have hpast := @pendingFrom_done i { node with newSectionCheck := true } s'.nodes hdone
      rw [pendingFrom_done rest hdone, hpast]
      refine ⟨?_, htake, hcases⟩
      intro n hn
      rcases List.mem_cons.mp hn with rfl | hn
      · exact hnode
      · exact hb' n hn
    case isFalse hnext =>
      obtain ⟨⟨buf', node', info'⟩, hcopy, h⟩ := build_eq_ok h
      cases h
      obtain ⟨⟨-, htake⟩, hcur, hend, -⟩ := copyFragment_ok hcopy
      refine ⟨?_, htake, .inl ⟨rfl, _, pendingFrom_next rest hnext hnode (congrArg (· + 1) hcur) hend⟩⟩
      intro n hn
      rcases List.mem_cons.mp hn with rfl | hn
      · show node'.endIndex.toNat ≤ 65534
        rw [hend]
        exact hnode
      · exact hrest n hn

/-- A command that is built takes the next fragment, or is the end command. -/
theorem nextCommand_ok {fw : List UInt8} {config : ConfigBuf} {info info' : PatchInfo} {t : Step} (hb : Bounded info.nodes)
    (h : nextCommand fw config info = .ok (t, info')) :
    (isDownload t.cmd = true ∧ Bounded info'.nodes) ∧
      ((∃ x, pending info = x :: pending info') ∨ (t.last = true ∧ pending info = [] ∧ pending info' = [])) := by
  unfold nextCommand at h
  obtain ⟨⟨buf, regs, info1⟩, hcmd, h⟩ := build_eq_ok h
  dsimp only at h
  obtain ⟨cmd, hslice, h⟩ := build_eq_ok h
  cases h
  unfold hciPatchGetCmdBuf at hcmd
  split at hcmd
  case isTrue => cases hcmd
  case isFalse =>
    obtain ⟨s, hscan, hcmd⟩ := build_eq_ok hcmd
    obtain ⟨hb', hhead, htakes⟩ := scan_takes hscan hb 0
    dsimp only at hcmd
    rcases htakes with ⟨hsent, hnext⟩ | ⟨hsent, hbuf, hnone, hnone'⟩
    · rw [hsent, if_pos rfl] at hcmd
      cases hcmd
      exact ⟨⟨isDownload_slice hhead hslice, hb'⟩, .inl hnext⟩
    · rw [hsent, if_neg Bool.false_ne_true, hbuf] at hcmd
      obtain ⟨buf1, hend, hcmd⟩ := build_eq_ok hcmd
      split at hcmd
      case isTrue => cases hcmd
      case isFalse =>
        split at hcmd
        case isTrue => cases hcmd
        case isFalse =>
          cases hcmd
          obtain ⟨hhead', -⟩ := copyTo_ok (n := 3) hend (by decide)
          have hindex := copyTo_index hend (by rw [clearBuf_length]; decide)
          refine ⟨⟨isDownload_slice (hhead'.trans rfl) hslice, hb'⟩, .inr ⟨?_, hnone, hnone'⟩⟩
          rw [hindex]
          rfl

/-! ## A version 3 download -/

/-- All that `_parse_patch_image` can do: nothing, or take the section. -/
theorem parsePatchImage_cases {f : Image} {info : PatchInfo} {p : Nat} {r : UInt32 × PatchInfo}
    (h : parsePatchImage f p info = .ok r) :
    r = (0, info) ∨ ∃ field priority start remain, readLe f.buf (p + hciPatchImageInfoLen) 8 = .ok field ∧ field ≠ 0 ∧
      ¬ info.sectionCnt ≥ 64 ∧ ∃ node, node = mkNode (UInt32.ofNat field)
          (if info.sectionCnt + 1 = 1 then UInt32.ofNat field + info.configLen.toUInt32 else UInt32.ofNat field)
          (p + hciPatchImageInfoLen + 8) priority start remain ∧
        r = (UInt32.ofNat field, { info with
          sectionCnt := info.sectionCnt + 1
          nodes := insertPatchQueue info.nodes node
          securityNode := selectSecuritySectionNode info.securityNode node }) := by
  unfold parsePatchImage at h
  obtain ⟨chipId, -, h⟩ := build_eq_ok h
  obtain ⟨icCut, -, h⟩ := build_eq_ok h
  obtain ⟨keyId, -, h⟩ := build_eq_ok h
  obtain ⟨otaEn, -, h⟩ := build_eq_ok h
  split at h
  case isTrue =>
    cases h
    exact .inl rfl
  case isFalse =>
    split at h
    case isTrue =>
      cases h
      exact .inl rfl
    case isFalse hroom =>
      obtain ⟨field, hfield, h⟩ := build_eq_ok h
      split at h
      case isTrue =>
        cases h
        exact .inl rfl
      case isFalse hne =>
        obtain ⟨priority, -, h⟩ := build_eq_ok h
        obtain ⟨remain, -, h⟩ := build_eq_ok h
        obtain ⟨start, -, h⟩ := build_eq_ok h
        cases h
        exact .inr ⟨field, priority, start, remain, hfield, hne, hroom, _, rfl, rfl⟩

/-- Every section starts with fragment 1. -/
def Fresh (info : PatchInfo) : Prop := ∀ node ∈ info.nodes, node.curIndex = 1

theorem parsePatchImage_fresh {f : Image} {info : PatchInfo} (p : Nat) {r : UInt32 × PatchInfo} (hf : Fresh info)
    (h : parsePatchImage f p info = .ok r) : Fresh r.2 := by
  rcases parsePatchImage_cases h with hr | ⟨field, priority, start, remain, _, _, _, node, hnode, hr⟩
  · rw [hr]
    exact hf
  · rw [hr]
    intro other hother
    rcases (List.mem_orderedInsert _).mp hother with hnew | hold
    · rw [hnew, hnode]
      rfl
    · exact hf other hold

theorem parseSectionLoop_fresh {f : Image} {info : PatchInfo} {n p : Nat} {fwLen : UInt32} {r : UInt32 × PatchInfo}
    (hf : Fresh info) (h : parseSectionLoop f n p fwLen info = .ok r) : Fresh r.2 := by
  induction n generalizing p fwLen info with
  | zero => cases h; exact hf
  | succ n ih =>
    rw [parseSectionLoop] at h
    obtain ⟨op, -, h⟩ := build_eq_ok h
    obtain ⟨len, -, h⟩ := build_eq_ok h
    obtain ⟨r1, hone, h⟩ := build_eq_ok h
    refine ih ?_ h
    split at hone
    case isTrue => exact parsePatchImage_fresh _ hf hone
    case isFalse => cases hone; exact hf

theorem getPatchInfo_fresh {f : Image} {config : ConfigBuf} {info : PatchInfo}
    (h : getPatchInfo f config PatchInfo.zero = .ok info) : Fresh info := by
  unfold getPatchInfo at h
  obtain ⟨date, -, h⟩ := build_eq_ok h
  obtain ⟨time, -, h⟩ := build_eq_ok h
  obtain ⟨r, hparse, h⟩ := build_eq_ok h
  have hfresh : Fresh r.2 := by
    unfold parseSections at hparse
    obtain ⟨num, -, hparse⟩ := build_eq_ok hparse
    have hzero : Fresh { PatchInfo.zero with configLen := UInt16.ofNat config.bytes.length } :=
      fun node hnode => absurd hnode List.not_mem_nil
    split at hparse
    case isTrue => cases hparse; exact hzero
    case isFalse => exact parseSectionLoop_fresh hzero hparse
  dsimp only at h
  split at h
  case isTrue => cases h
  case isFalse => cases h; exact hfresh

/-- The number of fragments in all. -/
def fragmentCount (info : PatchInfo) : Nat := (info.nodes.map (·.endIndex.toNat)).sum

theorem pendingFrom_position {i : Nat} {nodes : List SectionNode} {x : Nat × Nat} (h : x ∈ pendingFrom i nodes) : i ≤ x.1 := by
  induction nodes generalizing i with
  | nil => cases h
  | cons node rest ih =>
    rcases List.mem_append.mp h with h | h
    · obtain ⟨k, -, rfl⟩ := List.mem_map.mp h
      exact Nat.le_refl i
    · exact Nat.le_of_succ_le (ih h)

theorem pendingFrom_nodup (i : Nat) (nodes : List SectionNode) : (pendingFrom i nodes).Nodup := by
  induction nodes generalizing i with
  | nil => exact List.nodup_nil
  | cons node rest ih =>
    refine List.nodup_append.mpr ⟨?_, ih (i + 1), ?_⟩
    · exact (List.nodup_range').map fun a b h => (Prod.mk.inj h).2
    · intro x hx y hy hxy
      obtain ⟨k, -, rfl⟩ := List.mem_map.mp hx
      have hpos := pendingFrom_position hy
      rw [← hxy] at hpos
      exact absurd hpos (Nat.not_succ_le_self i)

theorem pending_length {info : PatchInfo} (h : Fresh info) : (pending info).length = fragmentCount info := by
  have hfrom : ∀ (nodes : List SectionNode) (i : Nat), (∀ node ∈ nodes, node.curIndex = 1) →
      (pendingFrom i nodes).length = (nodes.map (·.endIndex.toNat)).sum := by
    intro nodes
    induction nodes with
    | nil => exact fun _ _ => rfl
    | cons node rest ih =>
      intro i hnodes
      rw [pendingFrom, List.length_append, ih (i + 1) fun n hn => hnodes n (List.mem_cons_of_mem _ hn),
        hnodes node List.mem_cons_self, List.length_map, List.length_range', List.map_cons, List.sum_cons]
      rfl
  exact hfrom info.nodes 0 h

/-- The exchanges of a version 3 download: none without a key register that reads 0 or a
    file that can be parsed. -/
def exchangesV3 (e : Env) (fw : List UInt8) (eversion : UInt8) (config : ConfigBuf) (rx : List Rx) :
    List (Exchange PatchInfo) :=
  match hciVendorRead e hciBtRegKeyId ⟨rx, []⟩, getPatchInfo ⟨fw, eversion + 1, 0⟩ config PatchInfo.zero with
  | (.ok key, s), .ok info =>
    if key = some 0 then exchanges e (nextCommand fw config) lastCommand (s.rx.length + 1) 8 info s else []
  | _, _ => []

theorem moves_vendorRead (e : Env) (addr : UInt32) : Prog.Moves Keeps (hciVendorRead e addr) := by
  refine (Prog.ends_get Keeps.refl).bind Keeps.trans Keeps.trans fun s => ?_
  refine (moves_wait rfl).bind Keeps.trans Keeps.trans fun r => ?_
  cases r with
  | none => exact Prog.ends_pure Keeps.refl none
  | some p => exact (Prog.ends_pure Keeps.refl none).ite (Prog.ends_pure Keeps.refl _)

theorem takes_pending (fw : List UInt8) (config : ConfigBuf) :
    Takes (fun info => Bounded info.nodes) pending (nextCommand fw config) := by
  intro info t info' hb h
  obtain ⟨⟨-, hb'⟩, htake⟩ := nextCommand_ok hb h
  exact ⟨hb', htake⟩

theorem downloadCmds_v3 (e : Env) {fw : List UInt8} {eversion : UInt8} {config : ConfigBuf} (rx : List Rx) {info : PatchInfo}
    (parse : getPatchInfo ⟨fw, eversion + 1, 0⟩ config PatchInfo.zero = .ok info) (hb : Bounded info.nodes) :
    downloadCmds (hciDownloadPatchV3 e fw eversion config ⟨rx, []⟩).2 =
      (exchangesV3 e fw eversion config rx).map (·.step.cmd) := by
  have download : Downloads (fun info => Bounded info.nodes) (nextCommand fw config) :=
    fun info t info' hb h => (nextCommand_ok hb h).1
  have hmoves := moves_vendorRead e hciBtRegKeyId ⟨rx, []⟩
  rw [exchangesV3, parse]
  rcases hread : hciVendorRead e hciBtRegKeyId ⟨rx, []⟩ with ⟨r, s⟩
  have hnone : downloadCmds s = [] := by
    cases r with
    | error code => exact congrArg (List.map _) (hmoves.of_error hread).same
    | ok v => exact congrArg (List.map _) (hmoves.of_ok hread).same
  unfold hciDownloadPatchV3
  cases r with
  | error code =>
    rw [Prog.bind_of_error hread]
    exact hnone
  | ok v =>
    rw [Prog.bind_of_ok hread]
    dsimp only
    by_cases hkey : v = some 0
    · subst hkey
      have hloop := downloads_exchanges e lastCommand download (s.rx.length + 1) 8 hb s
      rw [hnone, List.nil_append] at hloop
      dsimp only
      rw [if_pos rfl, if_neg (fun h => h rfl)]
      have hparse : getPatchInfo ⟨fw, eversion + 1, (0 : UInt32).toUInt8⟩ config PatchInfo.zero = .ok info := parse
      rw [hparse]
      exact hloop
    · rw [if_neg hkey]
      cases v with
      | none => exact hnone
      | some key =>
        dsimp only
        rw [if_pos fun h => hkey (congrArg some h)]
        exact hnone

theorem chain_exchangesV3 (e : Env) {fw : List UInt8} {eversion : UInt8} {config : ConfigBuf} (rx : List Rx)
    {info : PatchInfo} (parse : getPatchInfo ⟨fw, eversion + 1, 0⟩ config PatchInfo.zero = .ok info) :
    Chain (nextCommand fw config) lastCommand 8 info (exchangesV3 e fw eversion config rx) := by
  rw [exchangesV3, parse]
  rcases hciVendorRead e hciBtRegKeyId ⟨rx, []⟩ with ⟨r, s⟩
  cases r with
  | error code => exact .nil
  | ok key =>
    dsimp only
    split
    · exact chain_exchanges _ _ _ _
    · exact .nil

/-! ## End commands without end -/

def endCmd : List UInt8 := [0x01, 0x20, 0xfc, 1, 0x80]

/-- A Command Complete for a download command, with status 0 and index 0. -/
def wrongAnswer : Rx := .event evtCommandComplete [1, 0x20, 0xfc, 0, 0]

theorem endCmd_repeats {e : Env} (he : e.setattr = true) {fw : List UInt8} {config : ConfigBuf} {info : PatchInfo}
    (built : nextCommand fw config info = .ok (⟨[], endCmd, true⟩, info)) (n : Nat) (sent : List Sent) :
    n ≤ (exchanges e (nextCommand fw config) lastCommand (n + 1) 8 info ⟨List.replicate n wrongAnswer, sent⟩).length := by
  induction n generalizing sent with
  | zero => exact Nat.zero_le _
  | succ n ih =>
    have reply : startXferWait endCmd ⟨List.replicate (n + 1) wrongAnswer, sent⟩ =
        (.ok (some (packet evtCommandComplete [1, 0x20, 0xfc, 0, 0])),
          ⟨List.replicate n wrongAnswer, sent ++ [⟨endCmd, true⟩]⟩) := rfl
    rw [exchanges_more built (by rfl) (by rw [he]; rfl) reply (by rfl), List.length_cons]
    exact Nat.succ_le_succ (ih _)

/-- One section of one byte for chip 1, without registers. -/
def smallFile : List UInt8 :=
  patchSigV3 ++ List.replicate 12 0 ++ toLe 4 1 ++ (toLe 4 1 ++ toLe 8 1033) ++ ([0x28, 0, 1, 0, 0] ++ List.replicate 1019 0) ++
    toLe 8 1 ++ [0xaa]

theorem nil_fits : ([] : List UInt8).length < 65536 := by decide

def noConfig : ConfigBuf := ⟨[], nil_fits⟩

/-- What the file is parsed to, when `k` fragments of it were sent. -/
def smallInfo (k : Nat) : PatchInfo :=
  { fwLen := 1, sentFwLen := UInt32.ofNat k, sectionCnt := 1, configLen := 0, sentConfigLen := 0
    nodes := [⟨decide (0 < k), 0, UInt16.ofNat (k + 1), 1, 1, ⟨0, 0⟩, ⟨0, 0⟩, 1, 1068, UInt32.ofNat k⟩]
    securityNode := none }

theorem smallFile_parsed : getPatchInfo ⟨smallFile, 0 + 1, 0⟩ noConfig PatchInfo.zero = .ok (smallInfo 0) := by
  decide +kernel

theorem smallFile_fragment :
    nextCommand smallFile noConfig (smallInfo 0) = .ok (⟨[], [0x01, 0x20, 0xfc, 2, 1, 0xaa], false⟩, smallInfo 1) := by
  decide +kernel

theorem smallFile_end : nextCommand smallFile noConfig (smallInfo 1) = .ok (⟨[], endCmd, true⟩, smallInfo 1) := by
  decide +kernel

theorem smallInfo_bounded : Bounded (smallInfo 0).nodes := by
  intro node hnode
  rw [List.mem_singleton.mp hnode]
  decide

/-- A run on the small file, from the first fragment on. -/
theorem exchanges_smallFile (e : Env) (rx : List Rx) :
    exchangesV3 e smallFile 0 noConfig (keyIsZero :: rx) =
      exchanges e (nextCommand smallFile noConfig) lastCommand (rx.length + 1) 8 (smallInfo 0)
        ⟨rx, [acknowledged (vendorReadCmd hciBtRegKeyId)]⟩ := by
  rw [exchangesV3, smallFile_parsed, hciVendorRead_zero]
  exact if_pos rfl

/-- The small file against a controller that answers each command. -/
theorem smallFile_answered :
    exchangesV3 ⟨true, fun _ _ => 0⟩ smallFile 0 noConfig
        [keyIsZero, ackEvent [0x01, 0x20, 0xfc, 2, 1, 0xaa], ackEvent endCmd] =
      [⟨smallInfo 0, ⟨[], [0x01, 0x20, 0xfc, 2, 1, 0xaa], false⟩, 8, some (ackPacket [0x01, 0x20, 0xfc, 2, 1, 0xaa])⟩,
        ⟨smallInfo 1, ⟨[], endCmd, true⟩, 8, some (ackPacket endCmd)⟩] := by
  rw [exchanges_smallFile]
  refine (exchanges_more smallFile_fragment (by rfl) (by rfl) (by rfl) (by rfl)).trans (congrArg (List.cons _) ?_)
  show exchanges _ _ _ (1 + 1) 8 (smallInfo 1) _ = _
  rw [exchanges, smallFile_end]
  rfl

end AmebaLinux.Hciattach.PatchV3

namespace AmebaLinux.Hciattach.Attach

open AmebaLinux.Lib
open AmebaLinux.Hciattach.Link

/-! ## Both versions -/

/-- A parsed version 2 patch of at most 65536 fragments is sent with at most one command
    for each, in their order. A parsed version 3 patch is sent with at most one more, and
    no fragment twice, when every end command is answered by the end of the loop. -/
theorem downloads_end (e : Env) (fw : List UInt8) (eversion : UInt8) (config : ConfigBuf) (rx : List Rx) :
    (∀ info, PatchV2.getPatchInfo (PatchV2.image fw eversion) config PatchV2.PatchInfo.zero = .ok info →
      PatchV2.fragmentCount config info ≤ 65536 →
      let cmds := downloadCmds (PatchV2.hciDownloadPatchV2 e fw eversion config ⟨rx, []⟩).2
      cmds.length ≤ PatchV2.fragmentCount config info + 1 ∧
      ∃ data : List UInt8, data.length = PatchV2.queuedLen info.nodes + config.bytes.length ∧
        cmds <+: (List.range (PatchV2.fragmentCount config info)).map (PatchV2.cmdAt data)) ∧
    (∀ info, PatchV3.getPatchInfo ⟨fw, eversion + 1, 0⟩ config PatchV3.PatchInfo.zero = .ok info →
      PatchV3.Bounded info.nodes →
      let log := PatchV3.exchangesV3 e fw eversion config rx
      (∀ x ∈ log, x.Answered PatchV3.lastCommand) →
      let cmds := downloadCmds (PatchV3.hciDownloadPatchV3 e fw eversion config ⟨rx, []⟩).2
      cmds = log.map (·.step.cmd) ∧ cmds.length ≤ PatchV3.fragmentCount info + 1 ∧
      (taken PatchV3.pending log).Nodup) := by
  constructor
  · intro info parse hfit
    obtain ⟨data, hlen, hpre⟩ := PatchV2.downloadCmds_v2 e rx parse hfit
    refine ⟨?_, data, hlen, hpre⟩
    have hcount := hpre.length_le
    rw [List.length_map, List.length_range] at hcount
    exact Nat.le_succ_of_le hcount
  · intro info parse hb log answered
    have hcmds := PatchV3.downloadCmds_v3 e rx parse hb
    have hchain := PatchV3.chain_exchangesV3 e rx parse
    have hpre := hchain.taken_prefix (PatchV3.takes_pending fw config) hb
    have hcount := hchain.length_le (PatchV3.takes_pending fw config) hb answered
    rw [PatchV3.pending_length (PatchV3.getPatchInfo_fresh parse)] at hcount
    refine ⟨hcmds, ?_, (PatchV3.pendingFrom_nodup 0 info.nodes).sublist hpre.sublist⟩
    rw [hcmds, List.length_map]
    exact hcount

/-- A version 2 file of three bytes with a config of one, of which one command is sent to a
    silent controller, and the small version 3 file, sent to one that answers. -/
theorem downloads_end_small :
    (∃ info, PatchV2.getPatchInfo (PatchV2.image PatchV2.twoEntries.fw 0) ⟨[0x55], by decide⟩ PatchV2.PatchInfo.zero = .ok info ∧
      PatchV2.fragmentCount ⟨[0x55], by decide⟩ info = 1 ∧
      (downloadCmds (PatchV2.hciDownloadPatchV2 ⟨true, fun _ _ => 0⟩ PatchV2.twoEntries.fw 0 ⟨[0x55], by decide⟩
        ⟨[], []⟩).2).length ≤ 2) ∧
    (downloadCmds (PatchV3.hciDownloadPatchV3 ⟨true, fun _ _ => 0⟩ PatchV3.smallFile 0 PatchV3.noConfig
      ⟨[PatchV3.keyIsZero, ackEvent [0x01, 0x20, 0xfc, 2, 1, 0xaa], ackEvent PatchV3.endCmd], []⟩).2).length ≤ 2 := by
  constructor
  · have hparse : ∃ info, PatchV2.getPatchInfo (PatchV2.image PatchV2.twoEntries.fw 0) ⟨[0x55], by decide⟩
        PatchV2.PatchInfo.zero = .ok info ∧ PatchV2.fragmentCount ⟨[0x55], by decide⟩ info = 1 := ⟨_, rfl, by decide⟩
    obtain ⟨info, parse, hcount⟩ := hparse
    have hends := (downloads_end ⟨true, fun _ _ => 0⟩ PatchV2.twoEntries.fw 0 ⟨[0x55], by decide⟩ []).1 info parse
      (by rw [hcount]; decide)
    rw [hcount] at hends
    exact ⟨info, parse, hcount, hends.1⟩
  · refine ((downloads_end _ PatchV3.smallFile 0 PatchV3.noConfig _).2 _ PatchV3.smallFile_parsed
      PatchV3.smallInfo_bounded ?_).2.1
    rw [PatchV3.smallFile_answered]
    intro x hx
    rcases List.mem_cons.mp hx with rfl | hx
    · intro hlast
      cases hlast
    · rw [List.mem_singleton.mp hx]
      intro _ p hp
      cases hp
      rfl

/-- With answers of a wrong index the end command of the small file is sent any number of
    times. -/
theorem end_command_repeats :
    PatchV3.getPatchInfo ⟨PatchV3.smallFile, 0 + 1, 0⟩ PatchV3.noConfig PatchV3.PatchInfo.zero = .ok (PatchV3.smallInfo 0) ∧
    PatchV3.fragmentCount (PatchV3.smallInfo 0) = 1 ∧
    ∀ n, n ≤ (downloadCmds (PatchV3.hciDownloadPatchV3 ⟨true, fun _ _ => 0⟩ PatchV3.smallFile 0 PatchV3.noConfig
      ⟨PatchV3.keyIsZero :: List.replicate (n + 1) PatchV3.wrongAnswer, []⟩).2).length := by
  refine ⟨PatchV3.smallFile_parsed, rfl, fun n => ?_⟩
  rw [PatchV3.downloadCmds_v3 _ _ PatchV3.smallFile_parsed PatchV3.smallInfo_bounded, List.length_map,
    PatchV3.exchanges_smallFile, List.length_replicate,
    exchanges_more PatchV3.smallFile_fragment (by rfl) (by rfl) (by rfl) (by rfl), List.length_cons]
  exact Nat.le_succ_of_le (PatchV3.endCmd_repeats rfl PatchV3.smallFile_end n _)

end AmebaLinux.Hciattach.Attach
