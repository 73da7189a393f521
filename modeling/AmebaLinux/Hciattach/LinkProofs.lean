/-
  AmebaLinux.Hciattach.LinkProofs — the download loop against a controller that
  acknowledges every command (see `AmebaLinux.Hciattach.Link`).

  Proved:
  - `downloadLoop_trace`: the loop sends exactly the commands that are built until one
    ends the download, and returns 0.
-/

import AmebaLinux.Lib.Fragments
import AmebaLinux.Hciattach.Link

namespace AmebaLinux.Hciattach.Link

open AmebaLinux.Lib
open AmebaLinux.Lib.Bytes

/-! ## An acknowledging controller -/

/-- Byte 4 of a download command. -/
def index (cmd : List UInt8) : UInt8 := cmd.getD 4 0

/-- A Command Complete for `cmd` with status 0 that echoes its byte 4. -/
def ackEvent (cmd : List UInt8) : Rx := .event evtCommandComplete [1, cmd.getD 1 0, cmd.getD 2 0, 0, index cmd]

def ackPacket (cmd : List UInt8) : List UInt8 :=
  packet evtCommandComplete [1, cmd.getD 1 0, cmd.getD 2 0, 0, index cmd]

def acknowledged (cmd : List UInt8) : Sent := ⟨cmd, true⟩

theorem startXferWait_ack (cmd : List UInt8) (rx : List Rx) (sent : List Sent) :
    startXferWait cmd ⟨ackEvent cmd :: rx, sent⟩ = (.ok (some (ackPacket cmd)), ⟨rx, sent ++ [acknowledged cmd]⟩) := by
  simp [startXferWait, waitReply, ackEvent, ackPacket, packet, bufSize, cmdOpcode, hasStatus, acknowledged]

def writeCmds (writes : List (UInt32 × UInt32)) : List (List UInt8) := writes.map fun w => vendorWriteCmd w.1 w.2

theorem hciVendorWrite_ack (e : Env) (addr value : UInt32) (rx : List Rx) (sent : List Sent) :
    hciVendorWrite e addr value ⟨ackEvent (vendorWriteCmd addr value) :: rx, sent⟩ =
      (.ok true, ⟨rx, sent ++ [acknowledged (vendorWriteCmd addr value)]⟩) := by
  unfold hciVendorWrite
  rw [Prog.bind_of_ok (by rfl), Prog.bind_of_ok (startXferWait_ack _ _ _)]
  simp [respByte, ackPacket, packet, vendorWriteCmd]
  rfl

theorem vendorWrites_ack (e : Env) (writes : List (UInt32 × UInt32)) (rx : List Rx) (sent : List Sent) :
    vendorWrites e writes ⟨(writeCmds writes).map ackEvent ++ rx, sent⟩ =
      (.ok true, ⟨rx, sent ++ (writeCmds writes).map acknowledged⟩) := by
  induction writes generalizing sent with
  | nil => simp [vendorWrites, writeCmds]; rfl
  | cons w rest ih =>
    have hfirst := hciVendorWrite_ack e w.1 w.2 ((writeCmds rest).map ackEvent ++ rx) sent
    have hrest := ih (sent ++ [acknowledged (vendorWriteCmd w.1 w.2)])
    rw [List.append_assoc, List.singleton_append] at hrest
    unfold vendorWrites
    exact (Prog.bind_of_ok hfirst).trans hrest

/-! ## What the loop sends -/

variable {γ : Type} {next : γ → Build (Step × γ)} {ended : UInt8 → Bool}

def Step.cmds (s : Step) : List (List UInt8) := writeCmds s.writes ++ [s.cmd]

theorem length_le_cmds (steps : List Step) : steps.length ≤ (steps.flatMap Step.cmds).length := by
  induction steps with
  | nil => exact Nat.le_refl _
  | cons s rest ih =>
    have hs : 1 ≤ s.cmds.length := by simp [Step.cmds]
    rw [List.flatMap_cons, List.length_append, List.length_cons]
    omega

/-- A download command: vendor opcode 0xfc20. -/
def IsDownload (cmd : List UInt8) : Prop := cmd.getD 1 0 = 0x20 ∧ cmd.getD 2 0 = 0xfc

/-- The turns from `info` on up to the first whose index, echoed, ends the download. -/
inductive Trace (next : γ → Build (Step × γ)) (ended : UInt8 → Bool) : γ → List Step → Prop
  | last {info info' : γ} {s : Step} (built : next info = .ok (s, info')) (download : IsDownload s.cmd)
      (ends : ended (index s.cmd) = true) : Trace next ended info [s]
  | more {info info' : γ} {s : Step} {rest : List Step} (built : next info = .ok (s, info'))
      (download : IsDownload s.cmd) (goesOn : ended (index s.cmd) = false) (tail : Trace next ended info' rest) :
      Trace next ended info (s :: rest)

/-- The response to an acknowledged download command passes the checks. -/
theorem respByte_ack {cmd : List UInt8} (h : IsDownload cmd) :
    let resp := respByte (min 8 (ackPacket cmd).length) (fun _ => 0) (ackPacket cmd)
    resp 4 = 0x20 ∧ resp 5 = 0xfc ∧ resp 6 = 0 ∧ resp 7 = index cmd := by
  simp [respByte, ackPacket, packet, ← h.1, ← h.2]

/-- One turn against the acknowledging controller. -/
theorem downloadLoop_turn {e : Env} (he : e.setattr = true) {info info' : γ} {s : Step}
    (built : next info = .ok (s, info')) (download : IsDownload s.cmd) (fuel : Nat) (rx : List Rx) (sent : List Sent) :
    downloadLoop e next ended (fuel + 1) 8 info ⟨s.cmds.map ackEvent ++ rx, sent⟩ =
      if ended (index s.cmd) then (.ok 0, ⟨rx, sent ++ s.cmds.map acknowledged⟩)
      else downloadLoop e next ended fuel 8 info' ⟨rx, sent ++ s.cmds.map acknowledged⟩ := by
  obtain ⟨h4, h5, h6, h7⟩ := respByte_ack download
  have hrx : s.cmds.map ackEvent ++ rx = (writeCmds s.writes).map ackEvent ++ (ackEvent s.cmd :: rx) := by simp [Step.cmds]
  have hsent : sent ++ s.cmds.map acknowledged = sent ++ (writeCmds s.writes).map acknowledged ++ [acknowledged s.cmd] := by
    simp [Step.cmds]
  have hlen : min 8 (ackPacket s.cmd).length = 8 := by simp [ackPacket, packet]
  rw [downloadLoop, built, hrx, hsent]
  dsimp only
  rw [Prog.bind_of_ok (vendorWrites_ack e s.writes _ sent)]
  simp only [he, Bool.not_true, Bool.and_false, Bool.false_eq_true, if_false]
  rw [Prog.bind_of_ok (startXferWait_ack s.cmd rx _)]
  dsimp only
  rw [if_neg (by rw [h4, h5, h6]; simp), h7, hlen]
  by_cases hend : ended (index s.cmd) = true
  · rw [if_pos hend, if_pos hend]; rfl
  · rw [if_neg hend, if_neg hend]

theorem downloadLoop_trace {e : Env} (he : e.setattr = true) {info : γ} {steps : List Step}
    (h : Trace next ended info steps) (fuel : Nat) (hf : steps.length ≤ fuel) (rx : List Rx) (sent : List Sent) :
    downloadLoop e next ended fuel 8 info ⟨(steps.flatMap Step.cmds).map ackEvent ++ rx, sent⟩ =
      (.ok 0, ⟨rx, sent ++ (steps.flatMap Step.cmds).map acknowledged⟩) := by
  induction h generalizing fuel sent with
  | last built download ends =>
    obtain ⟨fuel, rfl⟩ : ∃ n, fuel = n + 1 := ⟨fuel - 1, by simp at hf; omega⟩
    simp only [List.flatMap_cons, List.flatMap_nil, List.append_nil]
    rw [downloadLoop_turn he built download, if_pos ends]
  | @more info info' s rest built download goesOn tail ih =>
    obtain ⟨fuel, rfl⟩ : ∃ n, fuel = n + 1 := ⟨fuel - 1, by simp at hf; omega⟩
    have hrest := ih fuel (by simp at hf; omega) (sent ++ s.cmds.map acknowledged)
    simp only [List.flatMap_cons, List.map_append, List.append_assoc] at hrest ⊢
    rw [downloadLoop_turn he built download, goesOn]
    simpa using hrest

/-! ## Reading and copying inside a buffer -/

theorem build_bind {α β : Type} (a : α) (g : α → Build β) : ((Except.ok a : Build α) >>= g) = g a := rfl

theorem build_eq_ok {α β : Type} {x : Build α} {g : α → Build β} {b : β} (h : (x >>= g) = .ok b) :
    ∃ a, x = .ok a ∧ g a = .ok b := by
  cases x with
  | ok a => exact ⟨a, rfl, h⟩
  | error halt => cases h

theorem readLe_at {buf : List UInt8} {p k n : Nat} (h : At buf p (toLe k n)) (hn : n < 256 ^ k) :
    readLe buf p k = .ok n := by
  have hin := h.inside
  have hbytes := h.take_drop (i := 0) (n := k) (by simp)
  rw [toLe_length] at hin
  have hall : (toLe k n).take k = toLe k n := List.take_of_length_le (by simp)
  rw [Nat.add_zero, List.drop_zero, hall] at hbytes
  rw [readLe, if_pos hin, hbytes, leNat_toLe, Nat.mod_eq_of_lt hn]
  rfl

theorem readByte_at {buf rest : List UInt8} {p : Nat} {b : UInt8} (h : At buf p (b :: rest)) :
    readByte buf p = .ok b := by
  obtain ⟨pre, post, rfl, rfl⟩ := h
  simp [readByte]
  rfl

theorem slice_at {buf bs : List UInt8} {p i n : Nat} (h : At buf p bs) (hn : i + n ≤ bs.length) :
    slice buf (p + i) n = .ok ((bs.drop i).take n) := by
  have hin := h.inside
  rw [slice, if_pos (by omega), h.take_drop hn]
  rfl

theorem copyTo_inside {buf src : List UInt8} {off : Int} {p : Nat} (hoff : off = p) (h : p + src.length ≤ buf.length) :
    copyTo buf off src = .ok (overlay buf p src) := by
  subst hoff
  rw [copyTo, if_pos ⟨by omega, by omega⟩, Int.toNat_natCast]
  rfl

/-- A copy right behind what was copied before. -/
theorem copyTo_behind {buf a b : List UInt8} {off : Int} {p : Nat} (hoff : off = p + a.length)
    (h : p + a.length + b.length ≤ buf.length) : copyTo (overlay buf p a) off b = .ok (overlay buf p (a ++ b)) := by
  have hlen : (overlay buf p a).length = buf.length := overlay_length (by omega)
  rw [copyTo_inside (p := p + a.length) (by omega) (by omega), overlay_append (by omega)]

/-- A download command at the head of a buffer, with its length in byte 3. -/
theorem command_in_buf {out data rest : List UInt8} {n i : UInt8} (hout : out = [0x01, 0x20, 0xfc, n, i] ++ data ++ rest)
    (hn : n.toNat = data.length + 1) :
    out.getD 3 0 = n ∧ out.getD 4 0 = i ∧ slice out 0 (n.toNat + 4) = .ok ([0x01, 0x20, 0xfc, n, i] ++ data) := by
  subst hout
  have hat : At ([0x01, 0x20, 0xfc, n, i] ++ data ++ rest) 0 ([0x01, 0x20, 0xfc, n, i] ++ data) := ⟨[], rest, rfl, rfl⟩
  have hsize : n.toNat + 4 = ([0x01, 0x20, 0xfc, n, i] ++ data).length := by
    simp only [List.length_append, List.length_cons, List.length_nil]
    omega
  refine ⟨rfl, rfl, ?_⟩
  rw [hsize]
  have := slice_at hat (i := 0) (n := ([0x01, 0x20, 0xfc, n, i] ++ data).length) (by omega)
  rwa [List.drop_zero, List.take_length] at this

/-! ## Numbers of fragments -/

/-- The data length of a command whose length byte is `d + 1`. -/
theorem ofNat8_succ_pred (d : Nat) : UInt8.ofNat (d + 1) - 1 = UInt8.ofNat d := by
  rw [UInt8.ofNat_add]
  exact UInt8.add_sub_cancel _ _

section DataSize

variable {d : Nat} (h : d < 256)

include h

/-- A number of bytes of a command survives the casts of the code. -/
theorem size8_toNat : (UInt8.ofNat d).toNat = d := UInt8.toNat_ofNat_of_lt' h

theorem size8_toUInt32 : (UInt8.ofNat d).toUInt32 = UInt32.ofNat d := UInt8.toUInt32_ofNat' h

theorem size8_toUInt16 : (UInt8.ofNat d).toUInt16 = UInt16.ofNat d := UInt8.toUInt16_ofNat' h

end DataSize

theorem ofNat32_pred {n : Nat} (h : 1 ≤ n) (hn : n < 2 ^ 32) : (UInt32.ofNat n - 1).toNat = n - 1 := by
  rw [show (1 : UInt32) = UInt32.ofNat 1 from rfl, ← UInt32.ofNat_sub h, UInt32.toNat_ofNat_of_lt' (by simp [UInt32.size]; omega)]

/-- The size of the last fragment, as both versions compute it. -/
theorem lastPkt_eq {n : Nat} (h : 1 ≤ n) (hn : n < 2 ^ 32) :
    (if UInt8.ofNat ((UInt32.ofNat n).toNat % hciPatchFragSize) = 0 then UInt8.ofNat hciPatchFragSize
      else UInt8.ofNat ((UInt32.ofNat n).toNat % hciPatchFragSize)) = UInt8.ofNat (n - 252 * ((n - 1) / 252)) := by
  have hn' : (UInt32.ofNat n).toNat = n := UInt32.toNat_ofNat_of_lt' hn
  have h0 : UInt8.ofNat (n % 252) = 0 ↔ n % 252 = 0 := by
    rw [← UInt8.toNat_inj, size8_toNat (by omega)]; rfl
  rw [hn', hciPatchFragSize]
  by_cases hz : n % 252 = 0
  · rw [if_pos (h0.mpr hz)]; congr 1; omega
  · rw [if_neg (fun hc => hz (h0.mp hc))]; congr 1; omega

/-! ## Index bytes -/

/-- 0 to 127, then 1 to 127 again and again. -/
def indexSeq : Nat → Nat
  | 0 => 0
  | k + 1 => if indexSeq k = 127 then 1 else indexSeq k + 1

theorem indexSeq_eq (k : Nat) : indexSeq k = if k < 128 then k else (k - 128) % 127 + 1 := by
  induction k with
  | zero => rfl
  | succ k ih =>
    rw [indexSeq, ih]
    repeat' split
    all_goals omega

theorem indexSeq_lt (k : Nat) : indexSeq k < 128 := by
  rw [indexSeq_eq]
  split <;> omega

theorem ofNat16_inj {a b : Nat} (ha : a < 65536) (hb : b < 65536) : UInt16.ofNat a = UInt16.ofNat b ↔ a = b := by
  rw [← UInt16.toNat_inj, UInt16.toNat_ofNat_of_lt' ha, UInt16.toNat_ofNat_of_lt' hb]

theorem trimIndex_eq {k : Nat} (hk : k < 65536) : trimIndex (UInt16.ofNat k) = UInt8.ofNat (indexSeq k) := by
  have hk16 : (UInt16.ofNat k).toNat = k := UInt16.toNat_ofNat_of_lt' hk
  have hge : UInt16.ofNat k ≥ 0x80 ↔ 128 ≤ k := by rw [ge_iff_le, UInt16.le_iff_toNat_le, hk16]; rfl
  rw [trimIndex, indexSeq_eq, ← UInt8.toNat_inj]
  by_cases h : 128 ≤ k
  · have hsub : (UInt16.ofNat k - 0x80).toNat = k - 128 := by
      rw [UInt16.toNat_sub_of_le _ _ (by rw [UInt16.le_iff_toNat_le, hk16]; exact h), hk16]; rfl
    rw [if_pos (hge.mpr h), if_neg (by omega)]
    simp [UInt16.toNat_mod, hsub]
  · rw [if_neg (fun hc => h (hge.mp hc)), if_pos (by omega)]
    simp [UInt16.toNat_mod, hk16, Nat.mod_eq_of_lt (Nat.not_le.mp h)]

theorem indexSeq_succ (k : Nat) : indexSeq (k + 1) = k % 127 + 1 := by
  rw [indexSeq_eq]
  split <;> omega

/-! ## Fragments as commands -/

/-- The command that carries fragment `k` of `data`. -/
def fragmentCmd (data : List UInt8) (index : UInt8) (k : Nat) : List UInt8 :=
  [0x01, 0x20, 0xfc, UInt8.ofNat ((Fragments.fragment 252 data k).length + 1), index] ++ Fragments.fragment 252 data k

/-- The commands that carry `data`. -/
def fragmentCmds (data : List UInt8) (index : Nat → UInt8) : List (List UInt8) :=
  (List.range ((data.length - 1) / 252 + 1)).map fun k => fragmentCmd data (index k) k

/-- The data parts of the commands put together are `data`, all but the last one are full,
    and their index bytes run through `index`. -/
structure Carries (data : List UInt8) (index : Nat → UInt8) (cmds : List (List UInt8)) : Prop where
  data : (cmds.map (·.drop 5)).flatten = data
  full : ∀ k cmd, cmds[k]? = some cmd → k + 1 < cmds.length → (cmd.drop 5).length = 252
  last : ∀ k cmd, cmds[k]? = some cmd → k + 1 = cmds.length → 1 ≤ (cmd.drop 5).length ∧ (cmd.drop 5).length ≤ 252
  head : ∀ k cmd, cmds[k]? = some cmd →
    cmd.take 5 = [0x01, 0x20, 0xfc, UInt8.ofNat ((cmd.drop 5).length + 1), index k]

theorem carries_fragmentCmds {data : List UInt8} (h : 1 ≤ data.length) (index : Nat → UInt8) :
    Carries data index (fragmentCmds data index) := by
  have hlen : (fragmentCmds data index).length = (data.length - 1) / 252 + 1 := by
    rw [fragmentCmds, List.length_map, List.length_range]
  have hget : ∀ k cmd, (fragmentCmds data index)[k]? = some cmd → cmd = fragmentCmd data (index k) k := by
    intro k cmd hk
    rw [fragmentCmds, List.getElem?_map, Option.map_eq_some_iff] at hk
    obtain ⟨i, hi, rfl⟩ := hk
    obtain ⟨hlt, heq⟩ := List.getElem?_eq_some_iff.mp hi
    rw [List.getElem_range] at heq
    rw [heq]
  have hdrop : ∀ k, (fragmentCmd data (index k) k).drop 5 = Fragments.fragment 252 data k := fun k => rfl
  refine ⟨?_, ?_, ?_, ?_⟩
  · rw [fragmentCmds, List.map_map]
    exact Fragments.flatten_fragments (show data.length ≤ 252 * ((data.length - 1) / 252 + 1) by omega)
  · intro k cmd hk hlt
    rw [hlen] at hlt
    rw [hget k cmd hk, hdrop]
    exact Fragments.fragment_full (by omega)
  · intro k cmd hk hlast
    rw [hlen] at hlast
    rw [hget k cmd hk, hdrop, Fragments.fragment_length]
    omega
  · intro k cmd hk
    rw [hget k cmd hk, hdrop]
    rfl

end AmebaLinux.Hciattach.Link
