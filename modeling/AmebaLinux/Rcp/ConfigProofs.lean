/-
  AmebaLinux.Rcp.ConfigProofs — what retrying the configuration keeps
  (see `AmebaLinux.Rcp.Config`).

  Finding the RCP and talking to it change neither the record nor the requested flow
  control (`Keeps`). An attempt that reaches the write forces flow control off in the
  record, and only its success undoes that (`rtkrcpConfig_spec`): every return in
  between leaves the forced record to the next attempt, which takes it for the request.

  Proved:
  - `retry_restores_iff`: failed attempts are followed by a successful one after which the
    record is ConfigBin's and the requested flow control is noted, exactly when every
    answer fits its trace and ConfigBin asks for no flow control or no failed attempt had
    reached the write.
  - `configLoop_retried`: `main`'s loop performs such sequences.
  - `flowctl_requests`: what `rtkrcp_config_flowctl` then makes of the noted request.
  - `flowctl_dropped_on_retry`: a write the RCP refuses once, then a clean attempt.
-/

import AmebaLinux.Rcp.ConfigDialogue

namespace AmebaLinux.Rcp.Config

open AmebaLinux.Lib
open AmebaLinux.Lib.Bytes
open AmebaLinux.Rcp.Hdlc
open AmebaLinux.Rcp.Tty

/-! ## The record and its bytes -/

theorem le8 (a : UInt8) : UInt8.ofNat (leNat [a]) = a := by simp [leNat]

theorem le16 (a b : UInt8) : toLe 2 (UInt16.ofNat (leNat [a, b])).toNat = [a, b] := by
  rw [UInt16.toNat_ofNat', Nat.mod_eq_of_lt (by simpa using leNat_lt [a, b])]
  exact toLe_leNat [a, b]

theorem le24 (a b c : UInt8) : toLe 3 (BitVec.ofNat 24 (leNat [a, b, c])).toNat = [a, b, c] := by
  rw [BitVec.toNat_ofNat, Nat.mod_eq_of_lt (by simpa using leNat_lt [a, b, c])]
  exact toLe_leNat [a, b, c]

theorem le32 (a b c d : UInt8) : toLe 4 (UInt32.ofNat (leNat [a, b, c, d])).toNat = [a, b, c, d] := by
  rw [UInt32.toNat_ofNat', Nat.mod_eq_of_lt (by simpa using leNat_lt [a, b, c, d])]
  exact toLe_leNat [a, b, c, d]

/-- The record read from 28 bytes is stored as these bytes. -/
theorem bytes_ofBytes {b : List UInt8} (h : b.length = sizeofConfigParam) : (ConfigParam.ofBytes b).bytes = b := by
  match b, h with
  | [x0, x1, x2, x3, x4, x5, x6, x7, x8, x9, x10, x11, x12, x13,
      x14, x15, x16, x17, x18, x19, x20, x21, x22, x23, x24, x25, x26, x27], _ =>
    simp only [ConfigParam.ofBytes, ConfigParam.bytes, field, List.drop_succ_cons, List.drop_zero, List.take_succ_cons,
      List.take_zero, le8, le16, le24, le32, List.cons_append, List.nil_append]

/-- `func_msk` is byte 12. -/
theorem bytes_funcMsk (p : ConfigParam) : p.bytes[12]? = some p.funcMsk := rfl

/-- The record with flow control forced off. -/
def ConfigParam.forced (p : ConfigParam) : ConfigParam := { p with funcMsk := p.funcMsk ||| 0x01 }

theorem low_bit (v : BitVec 8) : v &&& 0x01#8 = 0#8 ↔ v[0] = false := by
  constructor
  · intro h
    have := congrArg (·[0]) h
    simpa using this
  · intro h
    refine BitVec.eq_of_getLsbD_eq fun i hi => ?_
    interval_cases i <;> simp [h]

theorem restore_forced {m : UInt8} (h : m &&& 0x01 = 0) : (m ||| 0x01) &&& 0xfe = m := by
  have h0 := (low_bit m.toBitVec).mp (congrArg UInt8.toBitVec h)
  rw [← UInt8.toBitVec_inj]
  refine BitVec.eq_of_getLsbD_eq fun i hi => ?_
  interval_cases i <;> simp [h0]

theorem or_one_of_set {m : UInt8} (h : m &&& 0x01 ≠ 0) : m ||| 0x01 = m := by
  have h0 : m.toBitVec[0] = true := by
    by_contra hf
    exact h (UInt8.toBitVec_inj.mp ((low_bit m.toBitVec).mpr (by simpa using hf)))
  rw [← UInt8.toBitVec_inj]
  refine BitVec.eq_of_getLsbD_eq fun i hi => ?_
  interval_cases i <;> simp [h0]

theorem or_one_set (m : UInt8) : (m ||| 0x01) &&& 0x01 ≠ 0 := by
  intro h
  have h0 := (low_bit (m ||| 0x01).toBitVec).mp (congrArg UInt8.toBitVec h)
  simp at h0

theorem noFlowctl_eq_false {p : ConfigParam} : p.noFlowctl = false ↔ p.funcMsk &&& 0x01 = 0 := by
  simp [ConfigParam.noFlowctl]

theorem forced_of_noFlowctl {p : ConfigParam} (h : p.noFlowctl = true) : p.forced = p := by
  have hm : p.funcMsk &&& 0x01 ≠ 0 := by simpa [ConfigParam.noFlowctl] using h
  rw [ConfigParam.forced, or_one_of_set hm]

theorem forced_noFlowctl (p : ConfigParam) : p.forced.noFlowctl = true := by
  simpa [ConfigParam.noFlowctl, ConfigParam.forced] using or_one_set p.funcMsk

/-! ## What the tool does on the line -/

section

variable {R : St → St → Prop} (hr : ∀ s, R s s) (ht : ∀ {a b c}, R a b → R b c → R a c)

include hr ht

theorem moves_waitForResponse (hresponse : ∀ s r, R s (s.setResponse r)) (reads : List ReadEv) :
    Prog.Moves R (waitForResponse reads) := by
  refine (Prog.ends_get hr).bind ht ht ?_
  intro s
  rcases ttyWaitForFrame getConfigReponseHandle s.response reads with _ | ⟨err, r⟩
  · exact Prog.ends_exit hr
  · exact Prog.Ends.bind ht ht (Prog.ends_modify fun s => hresponse s r) fun _ => Prog.ends_pure hr _

/-- Once its command is on record, a request only takes an exchange, resets the decoder and stores a response. -/
theorem post_configRequest (hexchange : Prog.Moves R nextExchange) (hdecoder : ∀ s d, R s { s with decoder := d })
    (hresponse : ∀ s r, R s (s.setResponse r)) (cmd : List UInt8) (n : Nat) (s : St) :
    Prog.Post (configRequest cmd n) s (fun _ => R { s with sent := s.sent ++ [cmd] })
      (fun _ => R { s with sent := s.sent ++ [cmd] }) := by
  unfold configRequest
  rw [Prog.post_bind, Prog.post_modify]
  -- the rest moves by `R` from wherever it starts
  refine (?_ : Prog.Moves R _) _
  cases hdlcEncode cmd with
  | none => exact Prog.ends_exit hr
  | some aFrame =>
    refine hexchange.bind ht ht fun x => (Prog.ends_pure hr none).ite ?_
    refine Prog.Ends.bind ht ht (Prog.ends_modify fun s => hdecoder s _) fun _ => ?_
    refine (moves_waitForResponse hr ht hresponse x.reads).bind ht ht fun err => (Prog.ends_pure hr none).ite ?_
    refine (Prog.ends_get hr).bind ht ht fun s => ?_
    cases traceLoop recvSize s.response.frame 0 with
    | none => exact Prog.ends_exit hr
    | some count => exact (Prog.ends_pure hr none).ite (Prog.ends_pure hr _)

end

/-! ## Talking to the RCP changes no request -/

/-- The requested flow control stays, and so does the record, once it is ConfigBin's. -/
structure Keeps (s s' : St) : Prop where
  parse : s'.parseFileOk = s.parseFileOk
  flowctl : s'.flowctlEnable = s.flowctlEnable
  param : s.parseFileOk = true → s'.configParam = s.configParam

theorem Keeps.refl (s : St) : Keeps s s := ⟨rfl, rfl, fun _ => rfl⟩

theorem Keeps.trans {a b c : St} (h : Keeps a b) (h' : Keeps b c) : Keeps a c := by
  refine ⟨h'.parse.trans h.parse, h'.flowctl.trans h.flowctl, ?_⟩
  intro ha
  rw [h'.param (h.parse.trans ha), h.param ha]

theorem keeps_baudSet (b : Nat) : Prog.Moves Keeps (ttydeviceBaudSet b) :=
  Prog.ends_modify fun _ => ⟨rfl, rfl, fun _ => rfl⟩

theorem keeps_flowctlSet (b : Bool) : Prog.Moves Keeps (ttydeviceFlowctlSet b) :=
  Prog.ends_modify fun _ => ⟨rfl, rfl, fun _ => rfl⟩

theorem keeps_deviceOpen : Prog.Moves Keeps deviceOpen :=
  ends_deviceOpen Keeps.refl Keeps.trans (fun _ => Keeps.refl) Keeps.trans (Prog.ends_step fun _ => ⟨rfl, rfl, fun _ => rfl⟩)

theorem keeps_configRequest (cmd : List UInt8) (n : Nat) : Prog.Moves Keeps (configRequest cmd n) := by
  intro s
  have hsent : Keeps s { s with sent := s.sent ++ [cmd] } := ⟨rfl, rfl, fun _ => rfl⟩
  have hrest := post_configRequest Keeps.refl Keeps.trans (Prog.ends_step fun _ => ⟨rfl, rfl, fun _ => rfl⟩)
    (fun _ _ => ⟨rfl, rfl, fun _ => rfl⟩) (fun _ _ => ⟨rfl, rfl, fun _ => rfl⟩) cmd n s
  exact hrest.mono (fun _ _ h => hsent.trans h) (fun _ _ h => hsent.trans h)

theorem keeps_read : Prog.Moves Keeps rtkrcpConfigRead := by
  refine (keeps_configRequest _ _).bind Keeps.trans Keeps.trans fun r => ?_
  cases r <;> exact Prog.ends_pure Keeps.refl _

theorem keeps_setRequest (cmd : List UInt8) : Prog.Moves Keeps (setRequest cmd) := by
  refine (keeps_configRequest _ _).bind Keeps.trans Keeps.trans fun r => ?_
  cases r <;> exact Prog.ends_pure Keeps.refl _

theorem keeps_write : Prog.Moves Keeps rtkrcpConfigWrite := by
  refine (Prog.ends_get Keeps.refl).bind Keeps.trans Keeps.trans ?_
  intro s
  exact keeps_setRequest _

/-! ## Finding the RCP -/

/-- A check that finds the same configuration finds one without flow control. -/
theorem check_spec (s : St) :
    Prog.Post rtkrcpConfigCheck s (fun r s' => Keeps s s' ∧ (r = some true → s'.configParam.noFlowctl = true))
      (fun _ => Keeps s) := by
  unfold rtkrcpConfigCheck
  rw [Prog.post_bind]
  refine (keeps_configRequest readCommand readConfigResponseDataLength s).mono ?_ (fun _ _ h => h)
  intro resp s1 h1
  rcases resp with _ | respBuff
  · exact Prog.post_pure.mpr ⟨h1, fun h => by cases h⟩
  · dsimp only
    rcases readResponse readCommand respBuff with _ | p
    · exact Prog.post_pure.mpr ⟨h1, fun h => by cases h⟩
    · dsimp only
      rw [Prog.post_bind, Prog.post_get, Prog.post_ite]
      by_cases hp : s1.parseFileOk = true
      · rw [if_pos hp, Prog.post_ite]
        split
        · exact Prog.post_exit.mpr h1
        · refine Prog.post_pure.mpr ⟨h1, ?_⟩
          intro h
          simp only [Option.some.injEq, Bool.and_eq_true] at h
          exact h.2
      · rw [if_neg hp, Prog.post_bind, Prog.post_modify, Prog.post_pure]
        refine ⟨h1.trans ⟨rfl, rfl, fun h => absurd h hp⟩, ?_⟩
        intro h
        exact Option.some.inj h

/-- What a probe leaves. -/
def Probed (s : St) (r : Probe) (s' : St) : Prop := Keeps s s' ∧ (r = .hit true → s'.configParam.noFlowctl = true)

theorem probe_spec (flowctl : Bool) (s : St) : Prog.Post (probe flowctl) s (Probed s) (fun _ => Keeps s) := by
  unfold probe
  rw [Prog.post_bind]
  refine (keeps_flowctlSet flowctl s).mono ?_ (fun _ _ h => h)
  intro _ s1 h1
  rw [Prog.post_bind]
  refine (keeps_deviceOpen s1).mono ?_ (fun _ _ h => h1.trans h)
  intro opened s2 h2
  rw [Prog.post_ite]
  split
  · rw [Prog.post_bind]
    refine (keeps_read s2).mono ?_ (fun _ _ h => (h1.trans h2).trans h)
    intro _ s3 h3
    have h13 : Keeps s s3 := (h1.trans h2).trans h3
    rw [Prog.post_bind]
    refine (check_spec s3).mono ?_ (fun _ _ h => h13.trans h)
    rintro r s4 ⟨h4, hsame⟩
    rcases r with _ | same
    · exact Prog.post_pure.mpr ⟨h13.trans h4, fun h => by cases h⟩
    · refine Prog.post_pure.mpr ⟨h13.trans h4, ?_⟩
      intro h
      exact hsame (by cases h; rfl)
  · exact Prog.post_pure.mpr ⟨h1.trans h2, fun h => by cases h⟩

theorem Probed.after {s s' s'' : St} {r : Probe} (hk : Keeps s s') (h : Probed s' r s'') : Probed s r s'' :=
  ⟨hk.trans h.1, h.2⟩

theorem probeConfigured_spec (s : St) : Prog.Post probeConfigured s (Probed s) (fun _ => Keeps s) := by
  unfold probeConfigured
  rw [Prog.post_bind, Prog.post_get, Prog.post_bind]
  refine (keeps_baudSet _ s).mono ?_ (fun _ _ h => h)
  intro _ s1 h1
  rw [Prog.post_bind]
  refine (probe_spec false s1).mono ?_ (fun _ _ h => h1.trans h)
  intro r s2 h2
  have h12 : Keeps s s2 := h1.trans h2.1
  rcases r with _ | _ | same
  · exact (probe_spec true s2).mono (fun _ _ h => h.after h12) (fun _ _ h => h12.trans h)
  · exact (probe_spec true s2).mono (fun _ _ h => h.after h12) (fun _ _ h => h12.trans h)
  · exact Prog.post_pure.mpr (h2.after h1)

theorem probeTable_spec (table : List Nat) (s : St) : Prog.Post (probeTable table) s (Probed s) (fun _ => Keeps s) := by
  induction table generalizing s with
  | nil => exact Prog.post_exit.mpr (Keeps.refl s)
  | cons baudrate rest ih =>
    unfold probeTable
    rw [Prog.post_bind]
    refine (keeps_baudSet baudrate s).mono ?_ (fun _ _ h => h)
    intro _ s1 h1
    rw [Prog.post_bind]
    refine (probe_spec false s1).mono ?_ (fun _ _ h => h1.trans h)
    intro r s2 h2
    have h12 : Keeps s s2 := h1.trans h2.1
    rcases r with _ | _ | same
    · exact Prog.post_pure.mpr (h2.after h1)
    · dsimp only
      rw [Prog.post_bind]
      refine (probe_spec true s2).mono ?_ (fun _ _ h => h12.trans h)
      intro r' s3 h3
      rcases r' with _ | _ | same
      · exact Prog.post_pure.mpr (h3.after h12)
      · exact (ih s3).mono (fun _ _ h => h.after (h12.trans h3.1)) (fun _ _ h => (h12.trans h3.1).trans h)
      · exact Prog.post_pure.mpr (h3.after h12)
    · exact Prog.post_pure.mpr (h2.after h1)

theorem findRcp_spec (s : St) : Prog.Post findRcp s (Probed s) (fun _ => Keeps s) := by
  unfold findRcp
  rw [Prog.post_bind, Prog.post_get, Prog.post_ite]
  split
  · rw [Prog.post_bind]
    refine (probeConfigured_spec s).mono ?_ (fun _ _ h => h)
    intro r s1 h1
    rcases r with _ | _ | same
    · exact (probeTable_spec _ s1).mono (fun _ _ h => h.after h1.1) (fun _ _ h => h1.1.trans h)
    · exact (probeTable_spec _ s1).mono (fun _ _ h => h.after h1.1) (fun _ _ h => h1.1.trans h)
    · exact Prog.post_pure.mpr h1
  · exact probeTable_spec _ s

/-! ## One attempt -/

/-- `p` is the record before the attempt, `flowctl` the flow control noted before it. A
    failure past the search leaves the forced record. -/
def Attempted (p : ConfigParam) (flowctl : Bool) : Attempt → St → Prop
  | .success, s' => s'.configParam = p ∧ (s'.flowctlEnable = !p.noFlowctl ∨ p.noFlowctl = true ∧ s'.flowctlEnable = flowctl)
  | .failed .open, s' => s'.configParam = p ∧ s'.flowctlEnable = flowctl
  | .failed _, s' => s'.configParam = p.forced ∧ s'.flowctlEnable = !p.noFlowctl

theorem restore_eq {p : ConfigParam} :
    { p.forced with funcMsk := if (!p.noFlowctl) = true then p.forced.funcMsk &&& 0xfe else p.forced.funcMsk ||| 0x01 } =
      p := by
  by_cases h : p.noFlowctl = true
  · have hm : p.funcMsk &&& 0x01 ≠ 0 := by simpa [ConfigParam.noFlowctl] using h
    rw [forced_of_noFlowctl h, if_neg (by simp [h]), or_one_of_set hm]
  · have hm : p.funcMsk &&& 0x01 = 0 := noFlowctl_eq_false.mp (by simpa using h)
    rw [if_pos (by simpa using h)]
    show { p with funcMsk := (p.funcMsk ||| 0x01) &&& 0xfe } = p
    rw [restore_forced hm]

/-- What holds from the forced record on, until it is restored. -/
structure Forced (p : ConfigParam) (s : St) : Prop where
  parse : s.parseFileOk = true
  flowctl : s.flowctlEnable = !p.noFlowctl
  param : s.configParam = p.forced

theorem Forced.keeps {p : ConfigParam} {s s' : St} (h : Forced p s) (hk : Keeps s s') : Forced p s' :=
  ⟨hk.parse.trans h.parse, hk.flowctl.trans h.flowctl, (hk.param h.parse).trans h.param⟩

theorem writeConfig_spec {s : St} (hp : s.parseFileOk = true) (flowctl : Bool) :
    Prog.Post writeConfig s (fun r s' => s'.parseFileOk = true ∧ Attempted s.configParam flowctl r s')
      (fun _ _ => True) := by
  unfold writeConfig forceFlowctlOff
  rw [Prog.post_bind, Prog.post_modify, Prog.post_bind]
  refine (keeps_write _).mono ?_ (fun _ _ _ => trivial)
  intro r s1 h1
  have f1 : Forced s.configParam s1 := by
    refine Forced.keeps ?_ h1
    exact ⟨hp, rfl, rfl⟩
  rcases r with _ | _ | _
  · exact Prog.post_pure.mpr ⟨f1.parse, f1.param, f1.flowctl⟩
  · exact Prog.post_pure.mpr ⟨f1.parse, f1.param, f1.flowctl⟩
  · dsimp only
    rw [Prog.post_bind, Prog.post_get, Prog.post_bind]
    refine (keeps_baudSet _ s1).mono ?_ (fun _ _ _ => trivial)
    intro _ s2 h2
    rw [Prog.post_bind]
    refine (keeps_flowctlSet false s2).mono ?_ (fun _ _ _ => trivial)
    intro _ s3 h3
    rw [Prog.post_bind]
    refine (keeps_deviceOpen s3).mono ?_ (fun _ _ _ => trivial)
    intro opened s4 h4
    have f4 : Forced s.configParam s4 := ((f1.keeps h2).keeps h3).keeps h4
    rw [Prog.post_ite]
    split
    · rw [Prog.post_bind]
      refine (check_spec s4).mono ?_ (fun _ _ _ => trivial)
      rintro r s5 ⟨h5, -⟩
      have f5 : Forced s.configParam s5 := f4.keeps h5
      rcases r with _ | _ | _
      · exact Prog.post_pure.mpr ⟨f5.parse, f5.param, f5.flowctl⟩
      · exact Prog.post_pure.mpr ⟨f5.parse, f5.param, f5.flowctl⟩
      · dsimp only [restoreFlowctl]
        rw [Prog.post_bind, Prog.post_modify, Prog.post_pure]
        refine ⟨f5.parse, ?_, Or.inl f5.flowctl⟩
        simp only [f5.param, f5.flowctl]
        exact restore_eq
    · exact Prog.post_pure.mpr ⟨f4.parse, f4.param, f4.flowctl⟩

theorem rtkrcpConfig_spec {s : St} (hp : s.parseFileOk = true) :
    Prog.Post rtkrcpConfig s
      (fun r s' => s'.parseFileOk = true ∧ Attempted s.configParam s.flowctlEnable r s') (fun _ _ => True) := by
  unfold rtkrcpConfig
  rw [Prog.post_bind]
  refine (findRcp_spec s).mono ?_ (fun _ _ _ => trivial)
  rintro r s1 ⟨h1, hsame⟩
  have hp1 : s1.parseFileOk = true := h1.parse.trans hp
  have hparam : s1.configParam = s.configParam := h1.param hp
  rcases r with _ | _ | _ | _
  · exact Prog.post_pure.mpr ⟨hp1, hparam, h1.flowctl⟩
  · exact Prog.post_pure.mpr ⟨hp1, hparam, h1.flowctl⟩
  · rw [← hparam]
    exact writeConfig_spec hp1 _
  · refine Prog.post_pure.mpr ⟨hp1, hparam, Or.inr ⟨?_, h1.flowctl⟩⟩
    rw [← hparam]
    exact hsame rfl

/-! ## Retrying -/

/-- How a sequence of attempts ends. -/
inductive Last where
  | success
  | overrun
  deriving DecidableEq, Repr

/-- What `main`'s loop comes to then. -/
def Last.result : Last → Except Stop Bool
  | .success => .ok true
  | .overrun => .error .overrun

/-- Attempts that fail one after the other, then one that succeeds or overruns a trace. -/
inductive Retried : St → List Failure → Last → St → Prop
  | done {s s' : St} : rtkrcpConfig s = (.ok .success, s') → Retried s [] .success s'
  | lost {s s' : St} : rtkrcpConfig s = (.error .overrun, s') → Retried s [] .overrun s'
  | again {s s' s'' : St} {f : Failure} {fs : List Failure} {last : Last} :
      rtkrcpConfig s = (.ok (.failed f), s') → Retried s' fs last s'' → Retried s (f :: fs) last s''

theorem Retried.of_success {s : St} (h : (rtkrcpConfig s).1 = .ok .success) :
    Retried s [] .success (rtkrcpConfig s).2 :=
  .done (Prod.ext h rfl)

theorem Retried.of_failure {s s' : St} {f : Failure} {fs : List Failure} {last : Last}
    (h : (rtkrcpConfig s).1 = .ok (.failed f)) (hrest : Retried (rtkrcpConfig s).2 fs last s') :
    Retried s (f :: fs) last s' :=
  .again (Prod.ext h rfl) hrest

/-- `main`'s loop succeeds or overruns a trace with such a sequence. -/
theorem configLoop_retried {n : Nat} {s s' : St} {last : Last} (h : configLoop n s = (last.result, s')) :
    ∃ failures, failures.length < n ∧ Retried s failures last s' := by
  induction n generalizing s with
  | zero => cases last <;> cases h
  | succ n ih =>
    unfold configLoop at h
    change Prog.seq rtkrcpConfig _ s = _ at h
    rw [Prog.seq] at h
    rcases hr : rtkrcpConfig s with ⟨r, s1⟩
    rw [hr] at h
    rcases r with e | _ | f
    · cases last with
      | success => cases h
      | overrun =>
        cases h
        exact ⟨[], Nat.succ_pos n, .lost hr⟩
    · cases last with
      | success =>
        cases h
        exact ⟨[], Nat.succ_pos n, .done hr⟩
      | overrun => cases h
    · obtain ⟨fs, hlt, hfs⟩ := ih h
      exact ⟨f :: fs, by simpa using hlt, .again hr hfs⟩

/-- The run between two states was answered by frames that fit their traces. -/
def Answered (s s' : St) : Prop := ∃ L, Log s s' L ∧ Traced L

/-- A sequence ends in success where the answers fit. -/
theorem retried_success_iff {s s' : St} {fs : List Failure} {last : Last} (h : Retried s fs last s') :
    last = .success ↔ Answered s s' := by
  have hends : match last with
      | .success => Talked s s'
      | .overrun => Lost s s' := by
    induction h with
    | done hr => exact rtkrcpConfig_talks.of_ok hr
    | lost hr => exact rtkrcpConfig_talks.of_error hr
    | @again _ _ _ _ _ last hr _ ih =>
      have hfirst := rtkrcpConfig_talks.of_ok hr
      cases last with
      | success => exact hfirst.trans ih
      | overrun => exact hfirst.lost ih
  cases last with
  | success =>
    obtain ⟨L, hL, htraced⟩ := hends
    exact iff_of_true rfl ⟨L, hL.toLog, htraced⟩
  | overrun =>
    obtain ⟨L, hL, hlong⟩ := hends
    refine iff_of_false (by decide) ?_
    intro hanswered
    obtain ⟨M, hM, htraced⟩ := hanswered
    exact hlong (hL.unique hM ▸ htraced)

/-- A record without flow control goes through any attempts unchanged. -/
theorem retried_of_noFlowctl {s s' : St} {fs : List Failure} (h : Retried s fs .success s') (hp : s.parseFileOk = true)
    (hn : s.configParam.noFlowctl = true) :
    s'.configParam = s.configParam ∧ (s.flowctlEnable = false → s'.flowctlEnable = false) := by
  generalize hlast : Last.success = last at h
  induction h with
  | lost _ => cases hlast
  | done hr =>
    obtain ⟨-, hparam, hflow⟩ := (rtkrcpConfig_spec hp).of_ok hr
    refine ⟨hparam, ?_⟩
    intro hf
    rcases hflow with hflow | ⟨-, hflow⟩
    · rw [hflow, hn]; rfl
    · rw [hflow, hf]
  | @again s s1 s' f fs last hr _ ih =>
    obtain ⟨hp1, hatt⟩ := (rtkrcpConfig_spec hp).of_ok hr
    have h1 : s1.configParam = s.configParam ∧ (s.flowctlEnable = false → s1.flowctlEnable = false) := by
      by_cases hf : f = .open
      · subst hf
        exact ⟨hatt.1, fun h => hatt.2.trans h⟩
      · have h' : s1.configParam = s.configParam.forced ∧ s1.flowctlEnable = !s.configParam.noFlowctl := by
          cases f <;> first | exact hatt | exact absurd rfl hf
        refine ⟨h'.1.trans (forced_of_noFlowctl hn), ?_⟩
        intro _
        rw [h'.2, hn]; rfl
    obtain ⟨hparam, hflow⟩ := ih hp1 (by rw [h1.1]; exact hn) hlast
    exact ⟨hparam.trans h1.1, fun h => hflow (h1.2 h)⟩

/-- A request for flow control survives exactly the failures that come before the write. -/
theorem retried_of_flowctl {s s' : St} {fs : List Failure} (h : Retried s fs .success s') (hp : s.parseFileOk = true)
    (hn : s.configParam.noFlowctl = false) :
    ((∀ f ∈ fs, f = .open) ∧ s'.configParam = s.configParam ∧ s'.flowctlEnable = true) ∨
      ((∃ f ∈ fs, f ≠ .open) ∧ s'.configParam = s.configParam.forced) := by
  generalize hlast : Last.success = last at h
  induction h with
  | lost _ => cases hlast
  | done hr =>
    obtain ⟨-, hparam, hflow⟩ := (rtkrcpConfig_spec hp).of_ok hr
    refine Or.inl ⟨fun f hf => by simp at hf, hparam, ?_⟩
    rcases hflow with hflow | ⟨hyes, -⟩
    · rw [hflow, hn]; rfl
    · rw [hn] at hyes; cases hyes
  | @again s s1 s' f fs last hr hrest ih =>
    obtain ⟨hp1, hatt⟩ := (rtkrcpConfig_spec hp).of_ok hr
    by_cases hf : f = .open
    · subst hf
      rcases ih hp1 (by rw [hatt.1]; exact hn) hlast with ⟨hall, hparam, hflow⟩ | ⟨⟨g, hg, hgo⟩, hparam⟩
      · refine Or.inl ⟨?_, hparam.trans hatt.1, hflow⟩
        intro g hg
        rcases List.mem_cons.mp hg with hg | hg
        · exact hg
        · exact hall g hg
      · exact Or.inr ⟨⟨g, List.mem_cons_of_mem _ hg, hgo⟩, by rw [hparam, hatt.1]⟩
    · have h' : s1.configParam = s.configParam.forced := by
        cases f <;> first | exact hatt.1 | exact absurd rfl hf
      have hforced : s1.configParam.noFlowctl = true := by rw [h']; exact forced_noFlowctl _
      refine Or.inr ⟨⟨f, List.mem_cons_self, hf⟩, ?_⟩
      subst hlast
      rw [(retried_of_noFlowctl hrest hp1 hforced).1, h']

theorem parse_content {b : List UInt8} (h : b.length = sizeofConfigParam) (s : St) :
    rtkrcpConfigParse (.content b) s = (.ok true, { s with configParam := ConfigParam.ofBytes b, parseFileOk := true }) := by
  have ht : b.take sizeofConfigParam = b := List.take_of_length_le h.le
  simp only [rtkrcpConfigParse, ht, h, if_true]
  rfl

/-- The record is ConfigBin's again, and the flow control it asks for is noted. -/
def Restored (content : List UInt8) (s : St) : Prop :=
  s.configParam.bytes = content ∧ (s.flowctlEnable = true ↔ (ConfigParam.ofBytes content).noFlowctl = false)

/-- After a success, nothing is lost exactly when ConfigBin asks for no flow control, or no
    failed attempt had got to the write. -/
theorem success_restores_iff {content : List UInt8} (hlen : content.length = sizeofConfigParam) {s s' : St}
    (hp : s.parseFileOk = true) (hparam : s.configParam = ConfigParam.ofBytes content) (h0 : s.flowctlEnable = false)
    {failures : List Failure} (h : Retried s failures .success s') :
    Restored content s' ↔ (ConfigParam.ofBytes content).noFlowctl = true ∨ ∀ f ∈ failures, f = .open := by
  have hbytes := bytes_ofBytes hlen
  rw [← hparam] at hbytes ⊢
  by_cases hn : s.configParam.noFlowctl = true
  · obtain ⟨hsame, hflow⟩ := retried_of_noFlowctl h hp hn
    refine iff_of_true ⟨by rw [hsame]; exact hbytes, ?_⟩ (Or.inl hn)
    rw [hflow h0, ← hparam, hn]
    exact iff_of_false (by simp) (by simp)
  · have hn' : s.configParam.noFlowctl = false := by simpa using hn
    rcases retried_of_flowctl h hp hn' with ⟨hall, hsame, hflow⟩ | ⟨⟨f, hf, hfo⟩, hforced⟩
    · refine iff_of_true ⟨by rw [hsame]; exact hbytes, iff_of_true hflow ?_⟩ (Or.inr hall)
      rw [← hparam]
      exact hn'
    · refine iff_of_false ?_ ?_
      · intro hrestored
        -- byte 12 of the forced record has bit 0 set, that of ConfigBin has not
        have h12 : s.configParam.forced.bytes[12]? = s.configParam.bytes[12]? := by
          rw [← hforced, hrestored.1, hbytes]
        rw [bytes_funcMsk, bytes_funcMsk] at h12
        have hset := or_one_set s.configParam.funcMsk
        rw [show s.configParam.funcMsk ||| 0x01 = _ from Option.some.inj h12] at hset
        exact hset (noFlowctl_eq_false.mp hn')
      · intro h
        rcases h with hyes | hall
        · exact hn hyes
        · exact hfo (hall f hf)

/-- Retrying ends in success and loses nothing exactly when every answer fits its trace,
    and ConfigBin asks for no flow control or no failed attempt had got to the write. -/
theorem retry_restores_iff (content : List UInt8) (hlen : content.length = sizeofConfigParam) (s0 s s' : St)
    (h0 : s0.flowctlEnable = false) (hparse : rtkrcpConfigParse (.content content) s0 = (.ok true, s))
    (failures : List Failure) (last : Last) (h : Retried s failures last s') :
    (last = .success ∧ Restored content s') ↔
      Answered s s' ∧ ((ConfigParam.ofBytes content).noFlowctl = true ∨ ∀ f ∈ failures, f = .open) := by
  rw [parse_content hlen] at hparse
  cases hparse
  rw [retried_success_iff h]
  refine and_congr_right fun hanswered => ?_
  cases (retried_success_iff h).mpr hanswered
  refine success_restores_iff hlen ?_ ?_ ?_ h
  · rfl
  · rfl
  · exact h0

/-! ## Flow control after the update -/

/-- A request sends its command, once. -/
theorem sent_configRequest (cmd : List UInt8) (n : Nat) :
    Prog.Moves (fun s s' => s'.sent = s.sent ++ [cmd]) (configRequest cmd n) :=
  post_configRequest (R := fun s s' => s'.sent = s.sent) (fun _ => rfl) (fun h h' => h'.trans h)
    (Prog.ends_step fun _ => rfl) (fun _ _ => rfl) (fun _ _ => rfl) cmd n

theorem open_plain {s : St} (h : s.opens.head? = some .plain) :
    Prog.Post deviceOpen s (fun opened s' => opened = true ∧ s'.sent = s.sent) (fun _ _ => False) := by
  obtain ⟨rest, hrest⟩ : ∃ rest, s.opens = .plain :: rest := by
    rcases hs : s.opens with _ | ⟨ev, rest⟩
    · rw [hs] at h; cases h
    · rw [hs] at h; cases h; exact ⟨rest, rfl⟩
  unfold deviceOpen nextOpen
  rw [Prog.post_bind, Prog.post_step, hrest]
  exact Prog.post_pure.mpr ⟨rfl, rfl⟩

/-- On a UART that opens, the flow-control command goes out exactly when it is noted. -/
theorem flowctl_requests {s : St} (husb : rtkrcpUsbInterfaceCheck s.ttydevice = false)
    (hopen : s.opens.head? = some .plain) {sent : List (List UInt8)}
    (hsent : sent = s.sent ++ if s.flowctlEnable then [setCommand spinelPropVendorRtkFlowControl [1]] else []) :
    Prog.Post rtkrcpConfigFlowctl s (fun _ s' => s'.sent = sent) (fun _ s' => s'.sent = sent) := by
  unfold rtkrcpConfigFlowctl
  rw [Prog.post_bind, Prog.post_get, Prog.post_ite, if_neg (by simp [husb]), Prog.post_ite]
  by_cases hf : s.flowctlEnable = true
  · rw [if_pos hf] at hsent ⊢
    rw [Prog.post_bind]
    refine (open_plain hopen).mono ?_ (fun _ _ h => h.elim)
    rintro opened s1 ⟨rfl, h1⟩
    rw [Prog.post_ite, if_pos rfl, Prog.post_bind]
    unfold rtkrcpFlowctlSet setRequest
    rw [Prog.post_bind, hsent, ← h1]
    refine (sent_configRequest _ _ s1).mono ?_ (fun _ _ h => h)
    intro r s2 h2
    rcases r with _ | resp
    · exact Prog.post_pure.mpr (Prog.post_pure.mpr h2)
    · refine Prog.post_pure.mpr ?_
      cases responseOk (setCommand spinelPropVendorRtkFlowControl [1]) resp
      · exact Prog.post_pure.mpr h2
      · dsimp only [ttydeviceFlowctlSet]
        rw [Prog.post_bind, Prog.post_modify, Prog.post_pure]
        exact h2
  · rw [if_neg hf] at hsent ⊢
    exact Prog.post_pure.mpr (by rw [hsent, List.append_nil])

/-! ## A write refused once -/

/-- A port that takes the request at once, and an RCP that answers with this payload. -/
def answer (payload : List UInt8) : Exchange :=
  ⟨[⟨.wrote 256, .noErr⟩], [.chunk ((hdlcEncode payload).getD [])]⟩

def readAnswer (content : List UInt8) : Exchange := answer ([0x85, 6, 0x8a, 0x78, 28, 0] ++ content)

def writeAnswer (status : UInt8) : Exchange := answer [0x85, 6, 0, status]

/-- 115200 baud, everything else zero but `func_msk`. -/
def sampleBin (funcMsk : UInt8) : List UInt8 :=
  List.replicate 12 0 ++ [funcMsk, 0x00, 0xc2, 0x01] ++ List.replicate 12 0

/-- The process at its start, on a port that always opens. -/
def boot (requests : List Exchange) : St where
  configParam := ConfigParam.ofBytes []
  flowctlEnable := false
  parseFileOk := false
  decoder := Hdlc.start
  configResponse := List.replicate 512 0
  configResponseLen := 0
  ttydevice := ⟨"/dev/ttyUSB0".toList, 921600, false, 1⟩
  opens := List.replicate 8 (.tty true)
  requests := requests
  sent := []

def parsed (requests : List Exchange) : St :=
  { boot requests with configParam := ConfigParam.ofBytes (sampleBin 0), parseFileOk := true }

/-- The RCP runs with flow control, takes the forced record and reports it. -/
def cleanAttempt : List Exchange :=
  [readAnswer (sampleBin 0), readAnswer (sampleBin 0), writeAnswer 0, readAnswer (sampleBin 1)]

/-- The same with the write refused. -/
def refusedAttempt : List Exchange := [readAnswer (sampleBin 0), readAnswer (sampleBin 0), writeAnswer 1]

theorem clean_succeeds : (rtkrcpConfig (parsed cleanAttempt)).1 = .ok .success := by decide +kernel

theorem first_attempt_restores : Restored (sampleBin 0) (rtkrcpConfig (parsed cleanAttempt)).2 := by
  have h := Retried.of_success clean_succeeds
  refine ((retry_restores_iff (sampleBin 0) rfl (boot cleanAttempt) (parsed cleanAttempt) _ rfl (parse_content rfl _) []
    .success h).mpr ⟨(retried_success_iff h).mp rfl, Or.inr ?_⟩).2
  simp

/-- The state the refused attempt leaves. -/
def afterRefusal : St := (rtkrcpConfig (parsed (refusedAttempt ++ cleanAttempt))).2

theorem refused_fails : (rtkrcpConfig (parsed (refusedAttempt ++ cleanAttempt))).1 = .ok (.failed .write) := by
  decide +kernel

theorem retry_succeeds : (rtkrcpConfig afterRefusal).1 = .ok .success := by decide +kernel

theorem request_forgotten : (rtkrcpConfig afterRefusal).2.flowctlEnable = false := by decide +kernel

/-- ConfigBin asks for flow control, the RCP refuses the first write: `main`'s loop then
    succeeds with the request forgotten. -/
theorem flowctl_dropped_on_retry :
    rtkrcpConfigParse (.content (sampleBin 0)) (boot (refusedAttempt ++ cleanAttempt)) =
      (.ok true, parsed (refusedAttempt ++ cleanAttempt)) ∧
    Retried (parsed (refusedAttempt ++ cleanAttempt)) [.write] .success (rtkrcpConfig afterRefusal).2 ∧
    (rtkrcpConfig afterRefusal).2.flowctlEnable = false ∧
    ¬ Restored (sampleBin 0) (rtkrcpConfig afterRefusal).2 := by
  refine ⟨parse_content rfl _, .of_failure refused_fails (.of_success retry_succeeds), request_forgotten, ?_⟩
  rintro ⟨-, hflow⟩
  rw [request_forgotten] at hflow
  exact absurd (hflow.mpr (by decide)) (by decide)

end AmebaLinux.Rcp.Config
