/-
  AmebaLinux.Hciattach.AttachProofs — what the download loop and what follows it do to the
  record of the commands sent (see `AmebaLinux.Hciattach.Link`,
  `AmebaLinux.Hciattach.Attach`).

  Proved:
  - `downloadLoop_writeRefused` to `downloadLoop_accepted`: one turn of the loop, by how
    far it comes.
  - `rtbDownloadFwc_v2` / `rtbDownloadFwc_key`: the download as the loop of its version.
  - `moves_afterDownload`: no download command is sent after the download.
-/

import AmebaLinux.Hciattach.LinkProofs
import AmebaLinux.Hciattach.Attach

namespace AmebaLinux.Hciattach.Attach

open AmebaLinux.Lib
open AmebaLinux.Hciattach.Link

/-! ## What a command does to the state -/

def isDownload (cmd : List UInt8) : Bool := cmd.getD 1 0 == 0x20 && cmd.getD 2 0 == 0xfc

theorem isDownload_iff {cmd : List UInt8} : isDownload cmd = true ↔ IsDownload cmd := by
  simp only [isDownload, IsDownload, Bool.and_eq_true, beq_iff_eq]

/-- The download commands among those sent. -/
def downloads (sent : List Sent) : List Sent := sent.filter fun c => isDownload c.cmd

theorem downloads_append (a b : List Sent) : downloads (a ++ b) = downloads a ++ downloads b := List.filter_append a b

/-- A command that is replied to is recorded. -/
theorem startXferWait_ok {cmd : List UInt8} {s s' : St} {r : Option (List UInt8)} (h : startXferWait cmd s = (.ok r, s')) :
    s'.sent = s.sent ++ [⟨cmd, r.any hasStatus⟩] := by
  rw [startXferWait] at h
  rcases hw : waitReply (cmdOpcode cmd) s.rx with ⟨reply, rx⟩
  rw [hw] at h
  cases reply with
  | timeout => cases h
  | failed => cases h; rfl
  | accepted p => cases h; rfl

theorem hciVendorWrite_ok {e : Env} {addr value : UInt32} {s s' : St} {b : Bool}
    (h : hciVendorWrite e addr value s = (.ok b, s')) : ∃ a, s'.sent = s.sent ++ [⟨vendorWriteCmd addr value, a⟩] := by
  obtain ⟨_, _, hget, h⟩ := Prog.bind_eq_ok h
  cases hget
  obtain ⟨r, s1, hx, h⟩ := Prog.bind_eq_ok h
  have hs : s' = s1 := by
    cases r with
    | none => cases h; rfl
    | some p =>
      dsimp only at h
      split at h <;> (cases h; rfl)
  rw [hs]
  exact ⟨_, startXferWait_ok hx⟩

theorem vendorWrites_ok {e : Env} {ws : List (UInt32 × UInt32)} {s s' : St} {b : Bool}
    (h : vendorWrites e ws s = (.ok b, s')) : ∃ new, s'.sent = s.sent ++ new ∧ downloads new = [] := by
  induction ws generalizing s with
  | nil => cases h; exact ⟨[], by simp, rfl⟩
  | cons w rest ih =>
    obtain ⟨b1, s1, hw, h⟩ := Prog.bind_eq_ok h
    obtain ⟨a, hsent⟩ := hciVendorWrite_ok hw
    cases b1 with
    | false => cases h; exact ⟨_, hsent, rfl⟩
    | true =>
      obtain ⟨new, hnew, hdl⟩ := ih h
      refine ⟨⟨vendorWriteCmd w.1 w.2, a⟩ :: new, ?_, hdl⟩
      rw [hnew, hsent, List.append_assoc]
      rfl

/-! ## One turn of the loop -/

section Turn

variable {γ : Type} {e : Env} {next : γ → Build (Step × γ)} {ended : UInt8 → Bool}

/-- The response passes the checks and does not end the download. -/
def goesOn (ended : UInt8 → Bool) (rlen : Nat) (packet : List UInt8) : Bool :=
  let resp := respByte (min rlen packet.length) (fun _ => 0) packet
  resp 4 == 0x20 && resp 5 == 0xfc && resp 6 == 0 && !ended (resp 7)

variable {fuel rlen : Nat} {info info' : γ} {s s1 s2 : St} {t : Step} {code : Stop}

theorem downloadLoop_writeRefused (built : next info = .ok (t, info'))
    (refused : vendorWrites e t.writes s = (.ok false, s1)) :
    downloadLoop e next ended (fuel + 1) rlen info s = (.ok hciFail, s1) := by
  rw [downloadLoop, built]
  dsimp only
  rw [Prog.bind_of_ok refused]
  rfl

theorem downloadLoop_writeExits (built : next info = .ok (t, info'))
    (exits : vendorWrites e t.writes s = (.error code, s1)) :
    downloadLoop e next ended (fuel + 1) rlen info s = (.error code, s1) := by
  rw [downloadLoop, built]
  exact Prog.bind_of_error exits

theorem downloadLoop_portRefused (built : next info = .ok (t, info'))
    (written : vendorWrites e t.writes s = (.ok true, s1)) (port : (t.last && !e.setattr) = true) :
    downloadLoop e next ended (fuel + 1) rlen info s = (.ok 255, s1) := by
  rw [downloadLoop, built]
  dsimp only
  rw [Prog.bind_of_ok written, Bool.not_true, if_neg Bool.false_ne_true, port]
  rfl

variable (built : next info = .ok (t, info')) (written : vendorWrites e t.writes s = (.ok true, s1))
  (port : (t.last && !e.setattr) = false)

include built written port

theorem downloadLoop_refused (reply : startXferWait t.cmd s1 = (.ok none, s2)) :
    downloadLoop e next ended (fuel + 1) rlen info s = (.ok 255, s2) := by
  rw [downloadLoop, built]
  dsimp only
  rw [Prog.bind_of_ok written, Bool.not_true, if_neg Bool.false_ne_true, port, if_neg Bool.false_ne_true,
    Prog.bind_of_ok reply]
  rfl

theorem downloadLoop_waitExits (exits : startXferWait t.cmd s1 = (.error code, s2)) :
    downloadLoop e next ended (fuel + 1) rlen info s = (.error code, s2) := by
  rw [downloadLoop, built]
  dsimp only
  rw [Prog.bind_of_ok written, Bool.not_true, if_neg Bool.false_ne_true, port, if_neg Bool.false_ne_true]
  exact Prog.bind_of_error exits

theorem downloadLoop_accepted {p : List UInt8} (reply : startXferWait t.cmd s1 = (.ok (some p), s2)) :
    downloadLoop e next ended (fuel + 1) rlen info s =
      if goesOn ended rlen p then downloadLoop e next ended fuel (min rlen p.length) info' s2 else (.ok 0, s2) := by
  rw [downloadLoop, built]
  dsimp only
  rw [Prog.bind_of_ok written, Bool.not_true, if_neg Bool.false_ne_true, port, if_neg Bool.false_ne_true,
    Prog.bind_of_ok reply]
  dsimp only
  by_cases hcheck : respByte (min rlen p.length) (fun _ => 0) p 4 ≠ 0x20 ∨ respByte (min rlen p.length) (fun _ => 0) p 5 ≠ 0xfc ∨
      respByte (min rlen p.length) (fun _ => 0) p 6 ≠ 0
  · have hstop : goesOn ended rlen p = false := by
      simp only [goesOn, Bool.and_eq_false_iff, beq_eq_false_iff_ne]
      tauto
    rw [if_pos hcheck, hstop]
    rfl
  · have hpass : goesOn ended rlen p = !ended (respByte (min rlen p.length) (fun _ => 0) p 7) := by
      simp only [ne_eq, not_or, Decidable.not_not] at hcheck
      simp only [goesOn, hcheck, beq_self_eq_true, Bool.true_and]
    rw [if_neg hcheck, hpass]
    cases ended (respByte (min rlen p.length) (fun _ => 0) p 7) <;> rfl

end Turn

/-! ## The two versions -/

def Setup.version (a : Setup) : Build UInt8 := hciPatchGetPatchVersion a.fw a.unset

def Setup.nextV2 (a : Setup) : PatchV2.Loop → Build (Step × PatchV2.Loop) :=
  PatchV2.nextCommand (PatchV2.image a.fw a.eversion) a.config

def Setup.nextV3 (a : Setup) : PatchV3.PatchInfo → Build (Step × PatchV3.PatchInfo) := PatchV3.nextCommand a.fw a.config

def Setup.infoV3 (a : Setup) : Build PatchV3.PatchInfo :=
  PatchV3.getPatchInfo ⟨a.fw, a.eversion + 1, 0⟩ a.config PatchV3.PatchInfo.zero

theorem hciVendorRead_ok {e : Env} {addr : UInt32} {s s' : St} {r : Option UInt32}
    (h : hciVendorRead e addr s = (.ok r, s')) : ∃ b, s'.sent = s.sent ++ [⟨vendorReadCmd addr, b⟩] := by
  obtain ⟨_, _, hget, h⟩ := Prog.bind_eq_ok h
  cases hget
  obtain ⟨r', s1, hx, h⟩ := Prog.bind_eq_ok h
  have hs : s' = s1 := by
    cases r' with
    | none => cases h; rfl
    | some p =>
      dsimp only at h
      split at h <;> (cases h; rfl)
  rw [hs]
  exact ⟨_, startXferWait_ok hx⟩

theorem rtbDownloadFwc_v2 {a : Setup} (h : a.version = .ok patchVersionV2) (s : St) :
    rtbDownloadFwc a s = downloadLoop a.env a.nextV2 PatchV2.lastFragment (s.rx.length + 1) 8 PatchV2.Loop.start s := by
  replace h : hciPatchGetPatchVersion a.fw a.unset = .ok patchVersionV2 := h
  rw [rtbDownloadFwc, h]
  exact Prog.bind_of_ok (by rfl)

theorem rtbDownloadFwc_v3 {a : Setup} (h : a.version = .ok patchVersionV3) :
    rtbDownloadFwc a = PatchV3.hciDownloadPatchV3 a.env a.fw a.eversion a.config := by
  replace h : hciPatchGetPatchVersion a.fw a.unset = .ok patchVersionV3 := h
  rw [rtbDownloadFwc, h]
  rfl

/-- The version 3 download after the key register was read. -/
theorem rtbDownloadFwc_key {a : Setup} (h : a.version = .ok patchVersionV3) {s s1 : St} {r : Option UInt32}
    (read : hciVendorRead a.env PatchV3.hciBtRegKeyId s = (.ok r, s1)) :
    rtbDownloadFwc a s = if r ≠ some 0 then (.ok hciFail, s1) else
      match a.infoV3 with
      | .error .fault => (.error .fault, s1)
      | .error (.ret d) => (.ok d, s1)
      | .ok info => downloadLoop a.env a.nextV3 PatchV3.lastCommand (s1.rx.length + 1) 8 info s1 := by
  rw [rtbDownloadFwc_v3 h, PatchV3.hciDownloadPatchV3, Prog.bind_of_ok read]
  cases r with
  | none => rfl
  | some v =>
    dsimp only
    by_cases hv : v = 0
    · rw [hv, if_neg (fun h => h rfl), if_neg (fun h => h rfl)]
      show (match a.infoV3 with | .error .fault => _ | .error (.ret ret) => _ | .ok info => _ : Run UInt8) s1 = _
      rcases a.infoV3 with halt | info
      · cases halt <;> rfl
      · exact Prog.bind_of_ok (by rfl)
    · rw [if_pos hv, if_pos (fun h => hv (Option.some.inj h))]
      rfl

/-- The key register's command is not a download command. -/
theorem downloads_after_read {e : Env} {rx : List Rx} {s : St} {r : Option UInt32}
    (read : hciVendorRead e PatchV3.hciBtRegKeyId ⟨rx, []⟩ = (.ok r, s)) (new : List Sent) :
    downloads (s.sent ++ new) = downloads new := by
  obtain ⟨b, hsent⟩ := hciVendorRead_ok read
  rw [hsent]
  rfl

/-! ## After the download -/

/-- No download command is sent. -/
structure Keeps (s s' : St) : Prop where
  same : downloads s'.sent = downloads s.sent

theorem Keeps.refl (s : St) : Keeps s s := ⟨rfl⟩

theorem Keeps.trans {s s1 s2 : St} (h : Keeps s s1) (h' : Keeps s1 s2) : Keeps s s2 := ⟨h'.same.trans h.same⟩

theorem moves_wait {cmd : List UInt8} (h : isDownload cmd = false) : Prog.Moves Keeps (startXferWait cmd) := by
  have hone : ∀ (s : St) b, downloads (s.sent ++ [⟨cmd, b⟩]) = downloads s.sent := by
    intro s b
    have hcmd : downloads [⟨cmd, b⟩] = [] := List.filter_cons_of_neg (by rw [h]; decide)
    rw [downloads_append, hcmd, List.append_nil]
  intro s
  unfold Prog.Post startXferWait
  rcases waitReply (cmdOpcode cmd) s.rx with ⟨reply, rx⟩
  cases reply with
  | timeout => exact ⟨hone s _⟩
  | failed => exact ⟨hone s _⟩
  | accepted p => exact ⟨hone s _⟩

theorem moves_ignoring {cmd : List UInt8} (h : isDownload cmd = false) : Prog.Moves Keeps (sendIgnoring cmd) :=
  (moves_wait h).bind Keeps.trans Keeps.trans fun _ => Prog.ends_pure Keeps.refl ()

theorem moves_finish (a : Setup) : Prog.Moves Keeps (finish a) := by
  have hrestore : Prog.Moves Keeps (restoreSpeed a) := (moves_ignoring rfl).ite (Prog.ends_pure Keeps.refl ())
  exact hrestore.bind Keeps.trans Keeps.trans fun _ => (Prog.ends_pure Keeps.refl _).ite (Prog.ends_pure Keeps.refl _)

theorem moves_afterDownload (a : Setup) (d : UInt8) : Prog.Moves Keeps (afterDownload a d) := by
  have hiqk : Prog.Moves Keeps (writeIqk a) := by
    rw [writeIqk]
    cases a.phyEfuse with
    | some efuse => exact moves_ignoring rfl
    | none => exact Prog.ends_pure Keeps.refl ()
  have hreset : Prog.Moves Keeps h4HciReset := by
    refine (moves_wait rfl).bind Keeps.trans Keeps.trans fun r => ?_
    cases r <;> exact Prog.ends_pure Keeps.refl _
  refine hiqk.bind Keeps.trans Keeps.trans fun _ => Prog.Ends.ite ?_ (moves_finish a)
  refine hreset.bind Keeps.trans Keeps.trans fun b => ?_
  exact Prog.Ends.ite (moves_finish a) (Prog.ends_pure Keeps.refl _)

end AmebaLinux.Hciattach.Attach
