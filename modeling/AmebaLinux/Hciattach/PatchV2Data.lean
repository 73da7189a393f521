/-
  AmebaLinux.Hciattach.PatchV2Data — the bytes a version 2 image and a config call for, and
  which images can be sent (`bluetooth/hciattach/hci_download_v2.c`).

  The parser selects entries of the file; `patchBytes` are their payloads, read from the
  file with the lengths it gives. The code counts them in 32 bits and their fragments in
  16, so that for a longer patch `end_index` is too small and the end mark comes early.

  Proved:
  - `Holds.trace`: with at most 65536 fragments the commands built are those of `plan`.
  - `plan_data`: they carry the patch and the config.
  - `Holds.fits`: a download that comes to its end mark carries no more than 65536
    fragments, where the payloads can be counted in 32 bits.
-/

import AmebaLinux.Hciattach.Answers
import AmebaLinux.Hciattach.DownloadEnd

namespace AmebaLinux.Hciattach.PatchV2

open AmebaLinux.Lib
open AmebaLinux.Lib.Bytes
open AmebaLinux.Hciattach.Link
open AmebaLinux.Hciattach.Attach

/-! ## The data of an image -/

/-- The parser selects entries of the file, and the file has all of their payloads. -/
structure Holds (f : Image) (config : ConfigBuf) (info : PatchInfo) : Prop where
  parsed : getPatchInfo f config PatchInfo.zero = .ok info
  inside : ∀ n ∈ info.nodes, n.payload + n.payloadLen.toNat ≤ f.buf.length

/-- The payloads of the entries selected, in the order of the queue. -/
def patchBytes (fw : List UInt8) (info : PatchInfo) : List UInt8 :=
  info.nodes.flatMap fun n => (fw.drop n.payload).take n.payloadLen.toNat

/-- The commands that `data` calls for. -/
def plan (data : List UInt8) : List Step := (List.range ((data.length - 1) / 252 + 1)).map (stepAt data)

theorem plan_data (data : List UInt8) : ((plan data).map (·.cmd)).flatMap (·.drop 5) = data := by
  rw [plan, List.map_map]
  exact fragmentCmds_data data _

section Holds

variable {f : Image} (hkey : f.patchKeyId = 0) {config : ConfigBuf} {info : PatchInfo} (h : Holds f config info)

include hkey h

theorem Holds.stands : List.Forall₂ (Stands f.buf) info.nodes (info.nodes.map (PatchNode.entry f.buf)) := by
  obtain ⟨-, -, hunsent, -⟩ := getPatchInfo_queue hkey h.parsed
  exact List.forall₂_map_right_iff.mpr (List.forall₂_same.mpr fun n hn => stands_entry (h.inside n hn) (hunsent n hn))

theorem Holds.length : (patchBytes f.buf info).length = queuedLen info.nodes := by
  rw [queuedLen_stands (h.stands hkey), List.flatMap_map]
  rfl

/-- What can be sent is what the image calls for. -/
theorem Holds.trace (hfit : (patchBytes f.buf info ++ config.bytes).length ≤ 65536 * 252) :
    Trace (nextCommand f config) lastFragment Loop.start (plan (patchBytes f.buf info ++ config.bytes)) := by
  obtain ⟨hheader, hpos, -, found, hparse⟩ := getPatchInfo_queue hkey h.parsed
  have hlen := h.length hkey
  have r : Ready f config info.nodes (info.nodes.map (PatchNode.entry f.buf)) (patchBytes f.buf info) := by
    refine ⟨⟨found, by rw [hlen]; exact hparse⟩, h.stands hkey, ?_, by omega, by rwa [← List.length_append], hheader⟩
    rw [List.flatMap_map]
    rfl
  have htrace := trace_from r turn_start (Nat.zero_add _)
  rw [← List.length_append, ← List.range_eq_range'] at htrace
  exact htrace

end Holds

/-! ## Longer patches -/

/-- What the fields of `patch_info` are before command `k`, when `m` is what parsing left. -/
structure Before (m : PatchInfo) (k : Nat) (info : PatchInfo) : Prop where
  nodes : info.nodes = advance (252 * k) m.nodes
  sentFwLen : info.sentFwLen = UInt32.ofNat (min (252 * k) (queuedLen m.nodes))
  curIndex : info.curIndex = UInt16.ofNat k
  endIndex : info.endIndex = m.endIndex
  lastPkt : info.lastPkt = m.lastPkt

/-- Before command `k`, of those up to the one with the end mark. -/
structure Coming (m : PatchInfo) (k : Nat) (l : Loop) : Prop where
  info : if k = 0 then l.info = PatchInfo.zero else Before m k l.info
  index : k ≤ m.endIndex.toNat
  head : l.buf.take 3 = [0x01, 0x20, 0xfc]

theorem coming_start (m : PatchInfo) : Coming m 0 Loop.start := ⟨rfl, Nat.zero_le _, rfl⟩

theorem getPatchInfo_start {f : Image} {config : ConfigBuf} {m : PatchInfo} (h : getPatchInfo f config PatchInfo.zero = .ok m) :
    (m.sentFwLen = 0 ∧ m.curIndex = 0) ∧ 1 ≤ m.lastPkt.toNat ∧ m.lastPkt.toNat ≤ 252 := by
  obtain ⟨date, -, h⟩ := build_eq_ok h
  obtain ⟨time, -, h⟩ := build_eq_ok h
  obtain ⟨p, -, h⟩ := build_eq_ok h
  split at h
  case isTrue => cases h
  case isFalse =>
    cases h
    refine ⟨⟨rfl, rfl⟩, ?_⟩
    dsimp only
    generalize (p.fwLen + (UInt16.ofNat config.bytes.length).toUInt32).toNat = total
    have hlt : total % 252 < 252 := Nat.mod_lt _ (by decide)
    have hsize : (UInt8.ofNat (total % 252)).toNat = total % 252 := size8_toNat (by omega)
    rw [hciPatchFragSize]
    split
    case isTrue => decide
    case isFalse hne =>
      have hpos : total % 252 ≠ 0 := fun h0 => hne (by rw [h0]; rfl)
      omega

/-- Filling up with the config leaves the head of the command and the other fields. -/
theorem copyConfig_ok {config : ConfigBuf} {buf buf' : List UInt8} {info info' : PatchInfo} {d r : Nat} (hd : d ≤ 252)
    (hr : r ≤ d) (h : copyConfig config (UInt8.ofNat d) (UInt8.ofNat r) buf info = .ok (buf', info')) :
    (buf'.take 5 = buf.take 5 ∧ buf'.length = buf.length) ∧ ∃ n, info' = { info with sentConfigLen := n } := by
  unfold copyConfig at h
  split at h
  case isFalse =>
    cases h
    exact ⟨⟨rfl, rfl⟩, _, rfl⟩
  case isTrue =>
    split at h
    case isTrue => cases h
    case isFalse =>
      obtain ⟨bytes, -, h⟩ := build_eq_ok h
      obtain ⟨b, hcopy, h⟩ := build_eq_ok h
      cases h
      have hoff : (5 : Nat) ≤ dataAt (UInt8.ofNat d) (UInt8.ofNat r) := by
        rw [dataAt, size8_toNat (by omega), size8_toNat (by omega)]
        omega
      exact ⟨PatchV3.copyTo_ok hcopy hoff, _, rfl⟩

theorem overlay_head {buf src : List UInt8} {i : UInt8} (h : 5 ≤ buf.length) :
    (overlay (overlay buf 4 [i]) 5 src).take 5 = buf.take 4 ++ [i] := by
  have h4 : (buf.take 4).length = 4 := List.length_take_of_le (by omega)
  have hone : (overlay buf 4 [i]).take 5 = buf.take 4 ++ [i] := by
    rw [overlay, List.take_left' (by rw [List.length_append, h4]; rfl)]
  rw [overlay, List.append_assoc, hone, List.take_left' (by rw [List.length_append, h4]; rfl)]

theorem carried_le {steps : List Step} (h : ∀ t ∈ steps, t.cmd.length ≤ 257) :
    ((steps.map (·.cmd)).flatMap (·.drop 5)).length ≤ 252 * steps.length := by
  induction steps with
  | nil => exact Nat.le_refl _
  | cons t rest ih =>
    have hrest := ih fun t' ht' => h t' (List.mem_cons_of_mem _ ht')
    have hone := h t List.mem_cons_self
    rw [List.map_cons, List.flatMap_cons, List.length_append, List.length_drop, List.length_cons]
    omega

section Coming

variable {f : Image} (hkey : f.patchKeyId = 0) {config : ConfigBuf} {m : PatchInfo} (h : Holds f config m) {k : Nat} {l : Loop}

include hkey h

/-- The length byte of command `k`. -/
theorem cmdLen_coming (hc : Coming m k l) {cmdLen : UInt8} {info : PatchInfo}
    (hcmd : hciGetPatchCmdLen f config l.info = .ok (cmdLen, info)) :
    Before m k info ∧ ∃ d, d ≤ 252 ∧ cmdLen = UInt8.ofNat (d + 1) ∧ (k ≠ m.endIndex.toNat → d = 252) := by
  obtain ⟨⟨hsent, hcur⟩, -, hlast⟩ := getPatchInfo_start h.parsed
  have hindex := hc.index
  have hend := m.endIndex.toNat_lt
  obtain ⟨info1, hone, hcmd⟩ := build_eq_ok hcmd
  have hbefore : Before m k info1 := by
    have hinfo := hc.info
    by_cases hk : k = 0
    · rw [if_pos hk] at hinfo
      rw [hinfo, if_pos (by rfl), h.parsed] at hone
      cases hone
      have hzero := advance_zero (h.stands hkey)
      rw [hk]
      exact ⟨by rw [Nat.mul_zero, hzero], by rw [hsent, Nat.mul_zero, Nat.zero_min]; rfl, hcur, rfl, rfl⟩
    · rw [if_neg hk] at hinfo
      have hne : l.info.curIndex ≠ 0 := by
        rw [hinfo.curIndex]
        exact fun h0 => hk ((ofNat16_inj (by omega) (by decide)).mp h0)
      rw [if_neg hne] at hone
      cases hone
      exact hinfo
  have hcurEnd : info1.curIndex = info1.endIndex ↔ k = m.endIndex.toNat := by
    rw [hbefore.curIndex, hbefore.endIndex, ← UInt16.toNat_inj, UInt16.toNat_ofNat_of_lt' (by simp [UInt16.size]; omega)]
  by_cases hk : k = m.endIndex.toNat
  · rw [if_pos (hcurEnd.mpr hk)] at hcmd
    cases hcmd
    refine ⟨hbefore, m.lastPkt.toNat, hlast, ?_, fun hne => absurd hk hne⟩
    rw [hbefore.lastPkt, UInt8.ofNat_add, UInt8.ofNat_toNat]
    rfl
  · rw [if_neg fun hcon => hk (hcurEnd.mp hcon)] at hcmd
    cases hcmd
    exact ⟨hbefore, 252, Nat.le_refl _, rfl, fun _ => rfl⟩

variable (hcount : (patchBytes f.buf m).length + 252 < 2 ^ 32)

include hcount

/-- What building command `k` leaves of the head of the buffer. -/
theorem cmdBuf_coming {info info' : PatchInfo} (hb : Before m k info) (hk : k ≤ m.endIndex.toNat) {buf buf' : List UInt8}
    (hbuf : buf.length = 257) {d : Nat} (hd : d ≤ 252)
    (hcmd : hciGetPatchCmdBuf f config info buf (UInt8.ofNat (d + 1)) = .ok (buf', info')) :
    (buf'.take 5 = buf.take 4 ++ [indexByte (UInt16.ofNat k) m.endIndex] ∧ buf'.length = 257) ∧
      (k ≠ m.endIndex.toNat → d = 252 → Before m (k + 1) info') := by
  have hlen := h.length hkey
  have hend := m.endIndex.toNat_lt
  rw [hciGetPatchCmdBuf, ofNat8_succ_pred, hb.curIndex, hb.endIndex, hb.nodes, hb.sentFwLen] at hcmd
  set idx := indexByte (UInt16.ofNat k) m.endIndex with hidx
  have hindex : copyTo buf 4 [idx] = .ok (overlay buf 4 [idx]) := copyTo_inside rfl (by simp [hbuf])
  have hbuf1 : (overlay buf 4 [idx]).length = 257 := by rw [overlay_length (by simp [hbuf]), hbuf]
  have hnodes := copyNodes_spec (h.stands hkey) (t := 0) (m := 252 * k) (d := d) (r := d) (Nat.zero_le _) hbuf1 hd (le_refl d)
    (by rw [← queuedLen_stands (h.stands hkey)]; omega)
  rw [← queuedLen_stands (h.stands hkey), Nat.sub_zero, Nat.zero_add, Nat.add_sub_cancel] at hnodes
  generalize hsrc : List.take d (List.drop (252 * k) _) = src at hnodes
  have hfits : src.length ≤ d := by rw [← hsrc]; exact List.length_take_le _ _
  have hsize1 : (overlay (overlay buf 4 [idx]) 5 src).length = 257 := (overlay_length (by omega)).trans hbuf1
  have hcurEnd : UInt16.ofNat k = m.endIndex ↔ k = m.endIndex.toNat := by
    rw [← UInt16.toNat_inj, UInt16.toNat_ofNat_of_lt' (by simp [UInt16.size]; omega)]
  rw [hindex, build_bind] at hcmd
  replace hcmd := (congrArg (· >>= _) hnodes).symm.trans hcmd
  rw [build_bind] at hcmd
  obtain ⟨⟨b2, info2⟩, hconfig, hcmd⟩ := build_eq_ok hcmd
  obtain ⟨⟨hhead, hsize⟩, n, rfl⟩ := copyConfig_ok hd (Nat.sub_le _ _) hconfig
  rw [overlay_head (by omega)] at hhead
  dsimp only at hcmd
  split at hcmd
  case isTrue hcur =>
    split at hcmd
    case isTrue => cases hcmd
    case isFalse =>
      cases hcmd
      exact ⟨⟨hhead, hsize.trans hsize1⟩, fun hne => absurd (hcurEnd.mp hcur) hne⟩
  case isFalse hcur =>
    cases hcmd
    refine ⟨⟨hhead, hsize.trans hsize1⟩, fun hne hfull => ⟨?_, ?_, (UInt16.ofNat_add k 1).symm, rfl, hb.lastPkt⟩⟩
    · rw [hfull, Nat.mul_succ]
    · rw [hfull, Nat.mul_succ]

/-- A command up to the end mark, and what follows it. -/
theorem nextCommand_coming (hc : Coming m k l) {t : Step} {l' : Loop} (hnext : nextCommand f config l = .ok (t, l')) :
    isDownload t.cmd = true ∧ t.cmd.length ≤ 257 ∧ (lastFragment (index t.cmd) = false → Coming m (k + 1) l') := by
  have hindex := hc.index
  have hend := m.endIndex.toNat_lt
  obtain ⟨⟨cmdLen, info⟩, hcmdLen, hnext⟩ := build_eq_ok hnext
  obtain ⟨⟨buf, info'⟩, hcmdBuf, hnext⟩ := build_eq_ok hnext
  obtain ⟨cmd, hslice, hnext⟩ := build_eq_ok hnext
  cases hnext
  obtain ⟨hbefore, d, hd, rfl, hfull⟩ := cmdLen_coming hkey h hc hcmdLen
  obtain ⟨⟨hhead, hsize⟩, hafter⟩ := cmdBuf_coming hkey h hcount hbefore hindex (clearBuf_length hc.head _) hd hcmdBuf
  rw [clearBuf_take hc.head] at hhead
  dsimp only at hslice ⊢
  have hbuf : buf = [0x01, 0x20, 0xfc, UInt8.ofNat (d + 1), indexByte (UInt16.ofNat k) m.endIndex] ++ buf.drop 5 := by
    have := List.take_append_drop 5 buf
    rw [hhead] at this
    exact this.symm
  have hcmd : cmd = [0x01, 0x20, 0xfc, UInt8.ofNat (d + 1), indexByte (UInt16.ofNat k) m.endIndex] ++ (buf.drop 5).take d := by
    have h3 : buf.getD 3 0 = UInt8.ofNat (d + 1) := by rw [hbuf]; rfl
    rw [h3, size8_toNat (by omega), slice, if_pos (by omega), List.drop_zero] at hslice
    rw [← Except.ok.inj hslice, hbuf, List.take_append, List.take_of_length_le (by simp)]
    simp
  refine ⟨by rw [hcmd]; rfl, ?_, fun hmark => ?_⟩
  · rw [hcmd, List.length_append, List.length_take]
    simp only [List.length_cons, List.length_nil]
    omega
  · have hlast : lastFragment (index cmd) = decide (k = m.endIndex.toNat) := by
      have hidx : indexByte (UInt16.ofNat k) m.endIndex = indexAt m.endIndex.toNat k := by
        rw [indexAt, ← indexByte_eq (by omega) (by omega), UInt16.ofNat_toNat]
      rw [← lastFragment_indexAt m.endIndex.toNat k, hcmd, hidx]
      rfl
    rw [hlast, decide_eq_false_iff_not] at hmark
    refine ⟨?_, by omega, ?_⟩
    · rw [if_neg (Nat.succ_ne_zero k)]
      exact hafter hmark (hfull hmark)
    · rw [hbuf]
      rfl

/-- The commands up to the end mark are at most 65536. -/
theorem trace_coming (hc : Coming m k l) {steps : List Step} (trace : Trace (nextCommand f config) lastFragment l steps) :
    k + steps.length ≤ m.endIndex.toNat + 1 ∧ ∀ t ∈ steps, t.cmd.length ≤ 257 := by
  induction trace generalizing k with
  | @last l l' t built download ends =>
    obtain ⟨-, hlen, -⟩ := nextCommand_coming hkey h hcount hc built
    exact ⟨Nat.succ_le_succ hc.index, fun t' ht' => by rw [List.mem_singleton.mp ht']; exact hlen⟩
  | @more l l' t rest built download goesOn tail ih =>
    obtain ⟨-, hlen, hnext⟩ := nextCommand_coming hkey h hcount hc built
    obtain ⟨hsteps, hrest⟩ := ih (hnext goesOn)
    refine ⟨by rw [List.length_cons]; omega, fun t' ht' => ?_⟩
    rcases List.mem_cons.mp ht' with rfl | ht'
    · exact hlen
    · exact hrest t' ht'

/-- A patch that is sent whole, up to an end mark, takes at most 65536 fragments. -/
theorem Holds.fits {steps : List Step} (trace : Trace (nextCommand f config) lastFragment Loop.start steps)
    (hdata : (steps.map (·.cmd)).flatMap (·.drop 5) = patchBytes f.buf m ++ config.bytes) :
    (patchBytes f.buf m ++ config.bytes).length ≤ 65536 * 252 := by
  obtain ⟨hsteps, hcmds⟩ := trace_coming hkey h hcount (coming_start m) trace
  have hend := m.endIndex.toNat_lt
  have hlen := carried_le hcmds
  rw [hdata] at hlen
  omega

end Coming

end AmebaLinux.Hciattach.PatchV2
