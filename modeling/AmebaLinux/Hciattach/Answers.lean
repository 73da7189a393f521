/-
  AmebaLinux.Hciattach.Answers — a download as the bytes its commands carry, and as the
  answers they get (see `AmebaLinux.Hciattach.Link`).

  `Transferred` is about the record of the commands sent: those of a download, up to the
  first with the end mark, were all answered with status 0 and carry the data. `Answered`
  is about what arrives from the controller: it says which answers take a list of steps
  through the loop, without the loop. A Command Complete too short for a status passes for
  one with status 0 where `resp` is zeroed, and where it is not when the byte left on the
  stack is 0; one too short for an index byte never ends the download, and neither does any
  answer after it, since `rlen` only shrinks.

  Proved:
  - `hciVendorWrite_iff` / `goesOn_iff`: what a register write and the loop make of an answer.
  - `acknowledged_of_answered`: the answers make the loop send the steps that are built,
    and record each as answered.
  - `answered_of_acknowledged`: a record of answered commands up to the end mark comes from
    such steps and such answers.
-/

import AmebaLinux.Hciattach.DownloadRun

namespace AmebaLinux.Hciattach.Attach

open AmebaLinux.Lib
open AmebaLinux.Hciattach.Link

/-! ## The record -/

/-- The last command has the end mark, and no other. -/
inductive Marked (ended : UInt8 → Bool) : List (List UInt8) → Prop
  | last {c : List UInt8} (ends : ended (index c) = true) : Marked ended [c]
  | more {c : List UInt8} {rest : List (List UInt8)} (goesOn : ended (index c) = false) (tail : Marked ended rest) :
      Marked ended (c :: rest)

/-- `data` was sent in commands that were all answered with status 0, the last one of
    which ends the download. -/
def Transferred (ended : UInt8 → Bool) (data : List UInt8) (sent : List Sent) : Prop :=
  ∃ cmds : List (List UInt8), cmds.map acknowledged <+: downloads sent ∧ Marked ended cmds ∧ cmds.flatMap (·.drop 5) = data

theorem fragmentCmds_data (data : List UInt8) (index : Nat → UInt8) : (fragmentCmds data index).flatMap (·.drop 5) = data := by
  rw [List.flatMap_def, fragmentCmds, List.map_map]
  exact Fragments.flatten_fragments (show data.length ≤ 252 * ((data.length - 1) / 252 + 1) by omega)

theorem transferred_congr {ended : UInt8 → Bool} {data : List UInt8} {l l' : List Sent} (h : downloads l = downloads l') :
    Transferred ended data l ↔ Transferred ended data l' := by
  rw [Transferred, Transferred, h]

theorem Marked.not_none {ended : UInt8 → Bool} {cmds : List (List UInt8)} (marked : Marked ended cmds) {sent : List Sent}
    (h : downloads sent = []) : ¬ cmds.map acknowledged <+: downloads sent := by
  intro hpre
  rw [h, List.prefix_nil, List.map_eq_nil_iff] at hpre
  rw [hpre] at marked
  cases marked

theorem not_transferred {ended : UInt8 → Bool} {data : List UInt8} {sent : List Sent} (h : downloads sent = []) :
    ¬ Transferred ended data sent := by
  intro htrans
  obtain ⟨cmds, hpre, hmarked, -⟩ := htrans
  exact hmarked.not_none h hpre

/-! ## Answers -/

def downloadOp : UInt16 := opcode 0x20 0xfc
def readOp : UInt16 := opcode 0x61 0xfc
def writeOp : UInt16 := opcode 0x62 0xfc

/-- `n` register writes are acknowledged, from the one on that is sent after `sent`
    commands; `rx'` is what arrives after that. -/
inductive Acked (e : Env) : Nat → Nat → List Rx → List Rx → Prop
  | none {sent : Nat} {rx : List Rx} : Acked e 0 sent rx rx
  | write {n sent : Nat} {rx rx1 rx' : List Rx} {p : List UInt8} (reply : waitReply writeOp rx = (.accepted p, rx1))
      (status : hasStatus p = true ∨ e.stack sent 6 = 0) (rest : Acked e n (sent + 1) rx1 rx') : Acked e (n + 1) sent rx rx'

/-- A register that is read after `sent` commands has the value 0. -/
def ReadsZero (e : Env) (sent : Nat) (rx rx' : List Rx) : Prop :=
  ∃ p, waitReply readOp rx = (.accepted p, rx') ∧ (hasStatus p = true ∨ e.stack sent 6 = 0) ∧
    toUInt32 (fun i => respByte 12 (e.stack sent) p (7 + i)) = 0

/-- The answers to the steps, `sent` commands after the start, when the shortest answer to
    a download command so far had `rlen` bytes: each has a status, and none before the last
    has an index byte that ends the download. -/
inductive Answered (e : Env) (ended : UInt8 → Bool) : List Step → Nat → Nat → List Rx → Prop
  | last {t : Step} {rlen sent : Nat} {rx rx1 rx2 : List Rx} {p : List UInt8}
      (written : Acked e t.writes.length sent rx rx1) (port : t.last = true → e.setattr = true)
      (reply : waitReply downloadOp rx1 = (.accepted p, rx2)) (status : hasStatus p = true) : Answered e ended [t] rlen sent rx
  | more {t : Step} {rest : List Step} {rlen sent : Nat} {rx rx1 rx2 : List Rx} {p : List UInt8}
      (written : Acked e t.writes.length sent rx rx1) (port : t.last = true → e.setattr = true)
      (reply : waitReply downloadOp rx1 = (.accepted p, rx2)) (status : hasStatus p = true)
      (goes : 8 ≤ min rlen p.length → ended (p.getD 7 0) = false)
      (tail : Answered e ended rest (min rlen p.length) (sent + t.writes.length + 1) rx2) :
      Answered e ended (t :: rest) rlen sent rx

/-! ## What is made of an answer -/

theorem opcode_bytes {lo hi lo' hi' : UInt8} (h : opcode lo hi = opcode lo' hi') : lo = lo' ∧ hi = hi' := by
  have hnat : ∀ a b : UInt8, (opcode a b).toNat = a.toNat + 256 * b.toNat := by
    intro a b
    have ha := a.toNat_lt
    have hb := b.toNat_lt
    have hshift : (b.toUInt16 <<< 8).toNat = b.toNat * 2 ^ 8 := by
      rw [UInt16.toNat_shiftLeft, UInt8.toNat_toUInt16, Nat.shiftLeft_eq]
      show b.toNat * 2 ^ 8 % 2 ^ 16 = _
      omega
    rw [opcode, UInt16.toNat_or, hshift, UInt8.toNat_toUInt16, Nat.or_comm, ← Nat.shiftLeft_eq,
      ← Nat.shiftLeft_add_eq_or_of_lt ha, Nat.shiftLeft_eq]
    omega
  have hsum := congrArg UInt16.toNat h
  rw [hnat, hnat] at hsum
  have := lo.toNat_lt
  have := lo'.toNat_lt
  exact ⟨UInt8.toNat_inj.mp (by omega), UInt8.toNat_inj.mp (by omega)⟩

theorem waitReply_accepted {op : UInt16} {rx rx' : List Rx} {p : List UInt8} (h : waitReply op rx = (.accepted p, rx')) :
    opcode (p.getD 4 0) (p.getD 5 0) = op ∧ p.getD 6 0 = 0 := by
  induction rx with
  | nil => cases h
  | cons x rx ih =>
    cases x with
    | error => cases h
    | event code params =>
      rw [waitReply] at h
      by_cases hlong : params.length + 3 > bufSize
      · rw [if_pos hlong] at h; cases h
      rw [if_neg hlong] at h
      by_cases hcode : code = evtCommandComplete
      · rw [if_pos hcode] at h
        dsimp only at h
        by_cases hop : opcode ((packet code params).getD 4 0) ((packet code params).getD 5 0) = op
        · rw [if_pos hop] at h
          by_cases hstatus : (packet code params).getD 6 0 ≠ 0
          · rw [if_pos hstatus] at h; cases h
          · rw [if_neg hstatus] at h
            cases h
            exact ⟨hop, not_not.mp hstatus⟩
        · rw [if_neg hop] at h; cases h
      · rw [if_neg hcode] at h
        exact ih h

section Response

variable (lo hi : UInt8) (hhi : hi ≠ 0) {rx rx' : List Rx} {p : List UInt8}
  (h : waitReply (opcode lo hi) rx = (.accepted p, rx')) (size : Nat) (hsize : 6 ≤ size) (old : Nat → UInt8)

include hhi h

/-- An accepted packet has its opcode's bytes. -/
theorem accepted_length : 6 ≤ p.length := by
  obtain ⟨hop, -⟩ := waitReply_accepted h
  obtain ⟨-, h5⟩ := opcode_bytes hop
  by_contra hshort
  rw [List.getD_eq_getElem?_getD, List.getElem?_eq_none (by omega)] at h5
  exact hhi h5.symm

include hsize

/-- The check of a response: its status byte counts where it has one. -/
theorem response_passes_iff :
    ¬ (respByte size old p 4 ≠ lo ∨ respByte size old p 5 ≠ hi ∨ respByte size old p 6 ≠ 0) ↔
      7 ≤ min size p.length ∨ old 6 = 0 := by
  have hlen := accepted_length lo hi hhi h
  obtain ⟨hop, h6⟩ := waitReply_accepted h
  obtain ⟨h4, h5⟩ := opcode_bytes hop
  have hr4 : respByte size old p 4 = lo := by rw [respByte, if_pos (by omega), h4]
  have hr5 : respByte size old p 5 = hi := by rw [respByte, if_pos (by omega), h5]
  rw [hr4, hr5]
  by_cases hstatus : 7 ≤ min size p.length
  · have hr6 : respByte size old p 6 = 0 := by rw [respByte, if_pos (by omega), h6]
    simp [hr6, hstatus]
  · have hr6 : respByte size old p 6 = old 6 := by rw [respByte, if_neg (by omega)]
    simp [hr6, hstatus]

end Response

theorem goesOn_iff {ended : UInt8 → Bool} (h0 : ended 0 = false) {rx rx' : List Rx} {p : List UInt8}
    (h : waitReply downloadOp rx = (.accepted p, rx')) {rlen : Nat} (hrlen : 6 ≤ rlen) :
    (goesOn ended rlen p = true ↔ (8 ≤ min rlen p.length → ended (p.getD 7 0) = false)) ∧ 6 ≤ min rlen p.length := by
  replace h : waitReply (opcode 0x20 0xfc) rx = (.accepted p, rx') := h
  have hlen := accepted_length 0x20 0xfc (by decide) h
  have hmin : 6 ≤ min rlen p.length := by omega
  refine ⟨?_, hmin⟩
  have hpass := (response_passes_iff 0x20 0xfc (by decide) h _ hmin fun _ => 0).mpr (.inr rfl)
  simp only [ne_eq, not_or, Decidable.not_not] at hpass
  obtain ⟨h4, h5, h6⟩ := hpass
  have hgoes : goesOn ended rlen p = !ended (respByte (min rlen p.length) (fun _ => 0) p 7) := by
    simp only [goesOn, h4, h5, h6, beq_self_eq_true, Bool.true_and]
  rw [hgoes, Bool.not_eq_true']
  by_cases h8 : 8 ≤ min rlen p.length
  · have h7 : respByte (min rlen p.length) (fun _ => 0) p 7 = p.getD 7 0 := by rw [respByte, if_pos (by omega)]
    simp [h7, h8]
  · have h7 : respByte (min rlen p.length) (fun _ => 0) p 7 = 0 := by rw [respByte, if_neg (by omega)]
    simp [h7, h0, h8]

/-- A command's packet, as its answer. -/
theorem startXferWait_iff {cmd p : List UInt8} {s s' : St} :
    startXferWait cmd s = (.ok (some p), s') ↔
      ∃ rx, waitReply (cmdOpcode cmd) s.rx = (.accepted p, rx) ∧ s' = ⟨rx, s.sent ++ [⟨cmd, hasStatus p⟩]⟩ := by
  rw [startXferWait]
  rcases waitReply (cmdOpcode cmd) s.rx with ⟨reply, rx⟩
  cases reply with
  | timeout => simp
  | failed => simp
  | accepted q =>
    constructor
    · intro h
      cases h
      exact ⟨rx, rfl, rfl⟩
    · intro h
      obtain ⟨rx', hreply, rfl⟩ := h
      cases hreply
      rfl

theorem hasStatus_iff {size : Nat} (hsize : 7 ≤ size) {p : List UInt8} : hasStatus p = true ↔ 7 ≤ min size p.length := by
  rw [hasStatus, decide_eq_true_eq]
  omega

theorem hciVendorWrite_iff {e : Env} {addr value : UInt32} {s s' : St} :
    hciVendorWrite e addr value s = (.ok true, s') ↔
      ∃ p rx, waitReply writeOp s.rx = (.accepted p, rx) ∧ (hasStatus p = true ∨ e.stack s.sent.length 6 = 0) ∧
        s' = ⟨rx, s.sent ++ [⟨vendorWriteCmd addr value, hasStatus p⟩]⟩ := by
  constructor
  · intro h
    obtain ⟨_, _, hget, h⟩ := Prog.bind_eq_ok h
    cases hget
    obtain ⟨r, s1, hx, h⟩ := Prog.bind_eq_ok h
    cases r with
    | none => cases h
    | some p =>
      obtain ⟨rx, hreply, rfl⟩ := startXferWait_iff.mp hx
      dsimp only at h
      split at h
      case isTrue => cases h
      case isFalse hpass =>
        cases h
        have hcheck := (response_passes_iff 0x62 0xfc (by decide) hreply _ (by decide) _).mp hpass
        exact ⟨p, rx, hreply, hcheck.imp_left (hasStatus_iff (by decide)).mpr, rfl⟩
  · intro h
    obtain ⟨p, rx, hreply, hstatus, rfl⟩ := h
    have hx := startXferWait_iff.mpr ⟨rx, (show waitReply (cmdOpcode (vendorWriteCmd addr value)) s.rx = _ from hreply), rfl⟩
    have hpass := (response_passes_iff 0x62 0xfc (by decide) hreply 8 (by decide) _).mpr
      (hstatus.imp_left (hasStatus_iff (by decide)).mp)
    rw [hciVendorWrite, Prog.bind_of_ok (by rfl), Prog.bind_of_ok hx]
    dsimp only
    rw [if_neg hpass]
    rfl

theorem hciVendorRead_iff {e : Env} {addr : UInt32} {s : St} {rx' : List Rx} :
    (∃ a, hciVendorRead e addr s = (.ok (some 0), ⟨rx', s.sent ++ [⟨vendorReadCmd addr, a⟩]⟩)) ↔
      ReadsZero e s.sent.length s.rx rx' := by
  constructor
  · intro h
    obtain ⟨a, h⟩ := h
    obtain ⟨_, _, hget, h⟩ := Prog.bind_eq_ok h
    cases hget
    obtain ⟨r, s1, hx, h⟩ := Prog.bind_eq_ok h
    cases r with
    | none => cases h
    | some p =>
      obtain ⟨rx1, hreply, rfl⟩ := startXferWait_iff.mp hx
      dsimp only at h
      split at h
      case isTrue => cases h
      case isFalse hpass =>
        obtain ⟨hvalue, hs⟩ := Prod.mk.inj h
        have hrx : rx1 = rx' := congrArg St.rx hs
        have hcheck := (response_passes_iff 0x61 0xfc (by decide) hreply _ (by decide) _).mp hpass
        rw [← hrx]
        exact ⟨p, hreply, hcheck.imp_left (hasStatus_iff (by decide)).mpr, Option.some.inj (Except.ok.inj hvalue)⟩
  · intro h
    obtain ⟨p, hreply, hstatus, hvalue⟩ := h
    have hx : startXferWait (vendorReadCmd addr) s = (.ok (some p), ⟨rx', s.sent ++ [⟨vendorReadCmd addr, hasStatus p⟩]⟩) :=
      startXferWait_iff.mpr ⟨rx', hreply, rfl⟩
    have hpass := (response_passes_iff 0x61 0xfc (by decide) hreply 12 (by decide) _).mpr
      (hstatus.imp_left (hasStatus_iff (by decide)).mp)
    refine ⟨hasStatus p, ?_⟩
    rw [hciVendorRead, Prog.bind_of_ok (by rfl), Prog.bind_of_ok hx]
    dsimp only
    rw [if_neg hpass, hvalue]
    rfl

theorem Acked.written {e : Env} {ws : List (UInt32 × UInt32)} {rx rx' : List Rx} {sent : List Sent}
    (h : Acked e ws.length sent.length rx rx') :
    ∃ new, vendorWrites e ws ⟨rx, sent⟩ = (.ok true, ⟨rx', sent ++ new⟩) ∧ new.length = ws.length := by
  induction ws generalizing rx sent with
  | nil =>
    cases h
    exact ⟨[], by rw [List.append_nil]; rfl, rfl⟩
  | cons w ws ih =>
    cases h with
    | @write n count rx rx1 rx' p reply status rest =>
      have hone : hciVendorWrite e w.1 w.2 ⟨rx, sent⟩ = (.ok true, ⟨rx1, sent ++ [⟨vendorWriteCmd w.1 w.2, hasStatus p⟩]⟩) :=
        hciVendorWrite_iff.mpr ⟨p, rx1, reply, status, rfl⟩
      have hacked : Acked e ws.length (sent ++ [(⟨vendorWriteCmd w.1 w.2, hasStatus p⟩ : Sent)]).length rx1 rx' := by
        rw [List.length_append]
        exact rest
      obtain ⟨new, hrest, hlen⟩ := ih hacked
      rw [List.append_assoc] at hrest
      exact ⟨_, (Prog.bind_of_ok hone).trans hrest, congrArg Nat.succ hlen⟩

theorem acked_of_written {e : Env} {ws : List (UInt32 × UInt32)} {s s' : St} (h : vendorWrites e ws s = (.ok true, s')) :
    Acked e ws.length s.sent.length s.rx s'.rx ∧ s'.sent.length = s.sent.length + ws.length := by
  induction ws generalizing s with
  | nil =>
    cases h
    exact ⟨.none, rfl⟩
  | cons w ws ih =>
    obtain ⟨b, s1, hone, h⟩ := Prog.bind_eq_ok h
    cases b with
    | false => cases h
    | true =>
      obtain ⟨p, rx, hreply, hstatus, rfl⟩ := hciVendorWrite_iff.mp hone
      obtain ⟨hrest, hlen⟩ := ih h
      rw [List.length_append, List.length_singleton] at hrest hlen
      exact ⟨.write hreply hstatus hrest, by rw [hlen, List.length_cons]; omega⟩

/-! ## The loop -/

/-- What was sent stays recorded. -/
def Records (s s' : St) : Prop := s.sent <+: s'.sent

theorem Records.refl (s : St) : Records s s := List.prefix_rfl

theorem Records.trans {s s1 s2 : St} (h : Records s s1) (h' : Records s1 s2) : Records s s2 := List.IsPrefix.trans h h'

theorem records_wait (cmd : List UInt8) : Prog.Moves Records (startXferWait cmd) := by
  intro s
  obtain ⟨a, hsent⟩ := startXferWait_sent cmd s
  unfold Prog.Post
  rcases hrun : startXferWait cmd s with ⟨r, s'⟩
  rw [hrun] at hsent
  have hkept : Records s s' := ⟨_, hsent.symm⟩
  cases r <;> exact hkept

theorem records_writes (e : Env) (ws : List (UInt32 × UInt32)) : Prog.Moves Records (vendorWrites e ws) := by
  induction ws with
  | nil => exact Prog.ends_pure Records.refl true
  | cons w rest ih =>
    have hone : Prog.Moves Records (hciVendorWrite e w.1 w.2) := by
      refine (Prog.ends_get Records.refl).bind Records.trans Records.trans fun s => ?_
      refine (records_wait _).bind Records.trans Records.trans fun r => ?_
      cases r with
      | none => exact Prog.ends_pure Records.refl false
      | some p => exact (Prog.ends_pure Records.refl false).ite (Prog.ends_pure Records.refl true)
    refine hone.bind Records.trans Records.trans fun b => ?_
    cases b with
    | false => exact Prog.ends_pure Records.refl false
    | true => exact ih

section Loop

variable {γ : Type} {e : Env} {next : γ → Build (Step × γ)} {ended : UInt8 → Bool}

theorem records_loop (fuel rlen : Nat) (info : γ) : Prog.Moves Records (downloadLoop e next ended fuel rlen info) := by
  induction fuel generalizing rlen info with
  | zero => exact Prog.ends_exit Records.refl
  | succ fuel ih =>
    unfold downloadLoop
    rcases next info with halt | ⟨t, info'⟩
    · cases halt with
      | fault => exact Prog.ends_exit Records.refl
      | ret r => exact Prog.ends_pure Records.refl r
    refine (records_writes e t.writes).bind Records.trans Records.trans fun b => ?_
    refine (Prog.ends_pure Records.refl _).ite ((Prog.ends_pure Records.refl _).ite ?_)
    refine (records_wait t.cmd).bind Records.trans Records.trans fun r => ?_
    cases r with
    | none => exact Prog.ends_pure Records.refl _
    | some p => exact (Prog.ends_pure Records.refl _).ite ((Prog.ends_pure Records.refl _).ite (ih _ _))

/-- Whether the loop goes on or not, what is recorded stays. -/
theorem records_rest {fuel rlen rlen' : Nat} {p : List UInt8} {info : γ} {s s' : St} {d : UInt8}
    (run : (if goesOn ended rlen p then downloadLoop e next ended fuel rlen' info s else (.ok 0, s)) = (.ok d, s')) :
    ∃ tail, s'.sent = s.sent ++ tail := by
  split at run
  · obtain ⟨tail, htail⟩ := (records_loop _ _ _).of_ok run
    exact ⟨tail, htail.symm⟩
  · cases run
    exact ⟨[], (List.append_nil _).symm⟩

/-- A turn of a run that returns: it is left before its command is sent, or the command is
    refused, or it is answered. -/
theorem downloadLoop_cases {fuel rlen : Nat} {info : γ} {s s' : St} {d : UInt8}
    (h : downloadLoop e next ended (fuel + 1) rlen info s = (.ok d, s')) :
    (∃ new, s'.sent = s.sent ++ new ∧ downloads new = []) ∨
    ∃ t info' s1, next info = .ok (t, info') ∧ vendorWrites e t.writes s = (.ok true, s1) ∧ (t.last && !e.setattr) = false ∧
      (startXferWait t.cmd s1 = (.ok none, s') ∨
        ∃ p s2, startXferWait t.cmd s1 = (.ok (some p), s2) ∧
          (if goesOn ended rlen p then downloadLoop e next ended fuel (min rlen p.length) info' s2 else (.ok 0, s2)) =
            (.ok d, s')) := by
  have hrun := h
  rw [downloadLoop] at h
  rcases hnext : next info with halt | ⟨t, info'⟩
  · rw [hnext] at h
    cases halt with
    | fault => cases h
    | ret r => cases h; exact .inl ⟨[], (List.append_nil _).symm, rfl⟩
  rw [hnext] at h
  obtain ⟨b, s1, written, h⟩ := Prog.bind_eq_ok h
  cases b with
  | false => cases h; exact .inl (vendorWrites_ok written)
  | true =>
    rw [Bool.not_true, if_neg Bool.false_ne_true] at h
    by_cases port : (t.last && !e.setattr) = true
    · rw [if_pos port] at h
      cases h
      exact .inl (vendorWrites_ok written)
    rw [if_neg port] at h
    have port' : (t.last && !e.setattr) = false := Bool.eq_false_iff.mpr port
    obtain ⟨r, s2, reply, h⟩ := Prog.bind_eq_ok h
    refine .inr ⟨t, info', s1, rfl, written, port', ?_⟩
    cases r with
    | none => cases h; exact .inl reply
    | some p =>
      rw [downloadLoop_accepted hnext written port' reply] at hrun
      exact .inr ⟨p, s2, reply, hrun⟩

theorem cmdOpcode_download {cmd : List UInt8} (h : IsDownload cmd) : cmdOpcode cmd = downloadOp := by
  rw [cmdOpcode, h.1, h.2]
  rfl

/-- A step that is answered, as the run has it. -/
theorem turn_of_answer {t : Step} (download : IsDownload t.cmd) {rx rx1 rx2 : List Rx} {sent : List Sent} {p : List UInt8}
    (written : Acked e t.writes.length sent.length rx rx1) (reply : waitReply downloadOp rx1 = (.accepted p, rx2)) :
    ∃ new, new.length = t.writes.length ∧ downloads new = [] ∧
      vendorWrites e t.writes ⟨rx, sent⟩ = (.ok true, ⟨rx1, sent ++ new⟩) ∧
      startXferWait t.cmd ⟨rx1, sent ++ new⟩ = (.ok (some p), ⟨rx2, sent ++ new ++ [⟨t.cmd, hasStatus p⟩]⟩) := by
  obtain ⟨new, hwrites, hlen⟩ := written.written
  obtain ⟨new', hnew, hdl⟩ := vendorWrites_ok hwrites
  rw [List.append_cancel_left hnew.symm] at hdl
  rw [← cmdOpcode_download download] at reply
  exact ⟨new, hlen, hdl, hwrites, startXferWait_iff.mpr ⟨rx2, reply, rfl⟩⟩

/-- The commands recorded in a turn, and after it. -/
theorem downloads_turn {cmd : List UInt8} (h : isDownload cmd = true) {new : List Sent} (hnew : downloads new = []) (a : Bool)
    (rest : List Sent) : downloads (new ++ ⟨cmd, a⟩ :: rest) = ⟨cmd, a⟩ :: downloads rest := by
  rw [downloads_append, hnew, List.nil_append]
  exact List.filter_cons_of_pos h

theorem marked_of_trace {info : γ} {steps : List Step} (h : Trace next ended info steps) :
    Marked ended (steps.map (·.cmd)) := by
  induction h with
  | last built download ends => exact .last ends
  | more built download goesOn tail ih => exact .more goesOn ih

theorem trace_unique {info : γ} {l l' : List Step}
    (h : Trace next ended info l) (h' : Trace next ended info l') : l = l' := by
  induction h generalizing l' with
  | last built download ends =>
    cases h' with
    | last built' _ _ =>
      cases built.symm.trans built'
      rfl
    | more built' _ goesOn _ =>
      cases built.symm.trans built'
      rw [ends] at goesOn
      cases goesOn
  | more built download goesOn tail ih =>
    cases h' with
    | last built' _ ends =>
      cases built.symm.trans built'
      rw [ends] at goesOn
      cases goesOn
    | more built' _ _ tail' =>
      cases built.symm.trans built'
      rw [ih tail']

theorem port_iff {t : Step} : (t.last && !e.setattr) = false ↔ (t.last = true → e.setattr = true) := by
  cases t.last <;> cases e.setattr <;> decide

/-- What the run records when the steps that are built are answered. -/
theorem acknowledged_of_answered (h0 : ended 0 = false) {info : γ} {steps : List Step} (trace : Trace next ended info steps)
    {fuel rlen : Nat} (hrlen : 6 ≤ rlen) {rx : List Rx} {sent : List Sent} {s' : St} {d : UInt8}
    (answers : Answered e ended steps rlen sent.length rx)
    (run : downloadLoop e next ended fuel rlen info ⟨rx, sent⟩ = (.ok d, s')) :
    ∃ new, s'.sent = sent ++ new ∧ (steps.map fun t => acknowledged t.cmd) <+: downloads new := by
  -- The induction is on the steps that are built; each takes one unit of the fuel.
  induction trace generalizing fuel rlen rx sent with
  | @last info info' t built download ends =>
    cases fuel with
    | zero => cases run
    | succ fuel =>
      cases answers with
      | more written port reply status goes tail => cases tail
      | @last _ _ _ _ rx1 rx2 p written port reply status =>
        obtain ⟨new, -, hdl, hwrites, hwait⟩ := turn_of_answer download written reply
        rw [downloadLoop_accepted built hwrites (port_iff.mpr port) hwait] at run
        obtain ⟨tail, htail⟩ := records_rest run
        refine ⟨new ++ ⟨t.cmd, hasStatus p⟩ :: tail, by simp [htail], ?_⟩
        rw [downloads_turn (isDownload_iff.mpr download) hdl, status]
        exact List.cons_prefix_cons.mpr ⟨rfl, List.nil_prefix⟩
  | @more info info' t rest built download goesOn tail ih =>
    cases fuel with
    | zero => cases run
    | succ fuel =>
      cases answers with
      | last => cases tail
      | @more _ _ _ _ _ rx1 rx2 p written port reply status goes answers =>
        obtain ⟨new, hlen, hdl, hwrites, hwait⟩ := turn_of_answer download written reply
        obtain ⟨hgoes, hrlen'⟩ := goesOn_iff h0 reply hrlen
        rw [downloadLoop_accepted built hwrites (port_iff.mpr port) hwait, if_pos (hgoes.mpr goes)] at run
        have hcount : (sent ++ new ++ [(⟨t.cmd, hasStatus p⟩ : Sent)]).length = sent.length + t.writes.length + 1 := by
          rw [List.length_append, List.length_append, hlen, List.length_singleton]
        rw [← hcount] at answers
        obtain ⟨tail', htail, hpre⟩ := ih hrlen' answers run
        refine ⟨new ++ ⟨t.cmd, hasStatus p⟩ :: tail', by simp [htail], ?_⟩
        rw [downloads_turn (isDownload_iff.mpr download) hdl, status, List.map_cons]
        exact List.cons_prefix_cons.mpr ⟨rfl, hpre⟩

/-- Where answered commands up to the end mark come from. `I` holds before every turn up to
    the one that builds the end mark. -/
theorem answered_of_acknowledged (h0 : ended 0 = false) {I : γ → Prop}
    (download : ∀ info t info', I info → next info = .ok (t, info') →
      isDownload t.cmd = true ∧ (ended (index t.cmd) = false → I info'))
    {fuel rlen : Nat} (hrlen : 6 ≤ rlen) {info : γ} (hI : I info) {s s' : St} {d : UInt8}
    (run : downloadLoop e next ended fuel rlen info s = (.ok d, s')) {cmds : List (List UInt8)} (marked : Marked ended cmds)
    {new : List Sent} (hnew : s'.sent = s.sent ++ new) (acks : cmds.map acknowledged <+: downloads new) :
    ∃ steps, Trace next ended info steps ∧ steps.map (·.cmd) = cmds ∧ Answered e ended steps rlen s.sent.length s.rx := by
  induction fuel generalizing rlen info s cmds new with
  | zero => cases run
  | succ fuel ih =>
    rcases downloadLoop_cases run with ⟨new', hnew', hdl⟩ | ⟨t, info', s1, built, written, port, hwait⟩
    · rw [hnew'] at hnew
      rw [List.append_cancel_left hnew] at hdl
      exact absurd acks (marked.not_none hdl)
    obtain ⟨writes, hwrites, hdl⟩ := vendorWrites_ok written
    obtain ⟨hdownload, hnext⟩ := download info t info' hI built
    have hcmd := isDownload_iff.mp hdownload
    obtain ⟨hacked, hcount⟩ := acked_of_written written
    rcases hwait with hwait | ⟨p, s2, hwait, run⟩
    · -- A refused command is recorded as not answered.
      have hsent := startXferWait_ok hwait
      rw [hsent, hwrites, List.append_assoc] at hnew
      rw [← List.append_cancel_left hnew, downloads_turn hdownload hdl] at acks
      cases marked with
      | last ends => cases (List.cons_prefix_cons.mp acks).1
      | more goes tail => cases (List.cons_prefix_cons.mp acks).1
    · obtain ⟨rx2, hreply, hs2⟩ := startXferWait_iff.mp hwait
      rw [cmdOpcode_download hcmd] at hreply
      obtain ⟨hgoes, hrlen'⟩ := goesOn_iff h0 hreply hrlen
      -- The record of this turn, and of what follows it.
      obtain ⟨tail, htail⟩ := records_rest run
      have hrecord : new = writes ++ ⟨t.cmd, hasStatus p⟩ :: tail := by
        rw [htail, hs2, hwrites] at hnew
        simpa using hnew.symm
      rw [hrecord, downloads_turn hdownload hdl] at acks
      cases marked with
      | @last c ends =>
        obtain ⟨hc, -⟩ := List.cons_prefix_cons.mp acks
        obtain ⟨rfl, hstatus⟩ := Sent.mk.inj hc
        exact ⟨[t], .last built hcmd ends, rfl, .last hacked (port_iff.mp port) hreply hstatus.symm⟩
      | @more c rest goes tailMarked =>
        obtain ⟨hc, hrest⟩ := List.cons_prefix_cons.mp acks
        obtain ⟨rfl, hstatus⟩ := Sent.mk.inj hc
        have hmore : ended (index t.cmd) = false := goes
        by_cases hgoesOn : goesOn ended rlen p = true
        · rw [if_pos hgoesOn] at run
          obtain ⟨steps, htrace, hcmds, hanswers⟩ := ih hrlen' (hnext hmore) run tailMarked htail hrest
          have hlen : s2.sent.length = s.sent.length + t.writes.length + 1 := by
            rw [hs2, List.length_append, List.length_singleton, hcount]
          have hrx : s2.rx = rx2 := congrArg St.rx hs2
          rw [hlen, hrx] at hanswers
          refine ⟨t :: steps, .more built hcmd hmore htrace, by rw [List.map_cons, hcmds], ?_⟩
          exact .more hacked (port_iff.mp port) hreply hstatus.symm (hgoes.mp hgoesOn) hanswers
        · rw [if_neg hgoesOn] at run
          cases run
          exact absurd hrest (tailMarked.not_none (by rw [List.self_eq_append_right.mp htail]; rfl))

end Loop

end AmebaLinux.Hciattach.Attach
