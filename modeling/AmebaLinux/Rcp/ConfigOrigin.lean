/-
  AmebaLinux.Rcp.ConfigOrigin — where the configurations come from that the tool writes
  (see `AmebaLinux.Rcp.Config`).

  Proved:
  - `configuration_origin`: after ConfigBin is parsed and through any attempts,
    `parse_file_ok` means that the record is ConfigBin's, and every record written is
    ConfigBin's or was read from the RCP before, up to `func_msk` bit 0. This needs a
    ConfigBin that is not too short, answers that fit their traces, and without a ConfigBin
    that no read is answered by a frame that is not a read response.
  - `strange_frame_writes_zeros`: such a frame counts as having found the RCP, and the
    record written is the one the process started with. A short ConfigBin counts as
    parsed.
-/

import AmebaLinux.Rcp.ConfigProofs

namespace AmebaLinux.Rcp.Config

open AmebaLinux.Lib
open AmebaLinux.Lib.Bytes
open AmebaLinux.Rcp.Hdlc
open AmebaLinux.Rcp.Tty

/-! ## Known records -/

/-- Equal up to `func_msk` bit 0. -/
def SameButFlowctl (p q : ConfigParam) : Prop := p.forced = q.forced

/-- The record in the first 28 bytes of ConfigBin. -/
def ConfigBin.param : ConfigBin → Option ConfigParam
  | .content bytes =>
    if sizeofConfigParam ≤ bytes.length then some (ConfigParam.ofBytes (bytes.take sizeofConfigParam)) else none
  | _ => none

/-- ConfigBin's record, or one from a read response of the dialogue. -/
def Known (bin : Option ConfigParam) (L : List Entry) (p : ConfigParam) : Prop :=
  (∃ q, bin = some q ∧ SameButFlowctl p q) ∨
    ∃ resp q, (readCommand, some resp) ∈ L ∧ readResponse readCommand resp = some q ∧ SameButFlowctl p q

/-- Every command is a read, or the write of a record known before it. -/
inductive WritesKnown (bin : Option ConfigParam) : List Entry → Prop
  | nil : WritesKnown bin []
  | read {L : List Entry} (a : Option (List UInt8)) : WritesKnown bin L → WritesKnown bin (L ++ [(readCommand, a)])
  | write {L : List Entry} {p : ConfigParam} (a : Option (List UInt8)) : WritesKnown bin L → Known bin L p →
      WritesKnown bin (L ++ [(writeCommand p, a)])

theorem WritesKnown.last {bin : Option ConfigParam} {L : List Entry} {e : Entry} (h : WritesKnown bin (L ++ [e])) :
    e.1 = readCommand ∨ ∃ p, e.1 = writeCommand p ∧ Known bin L p := by
  generalize hM : L ++ [e] = M at h
  cases h with
  | nil => simp at hM
  | read a _ =>
    obtain ⟨-, he⟩ := List.append_inj' hM rfl
    cases he
    exact .inl rfl
  | write a _ hk =>
    obtain ⟨rfl, he⟩ := List.append_inj' hM rfl
    cases he
    exact .inr ⟨_, rfl, hk⟩

/-- No read was answered by a frame of acceptable length that is not a read response. -/
def ReadsValid (L : List Entry) : Prop :=
  ∀ resp, (readCommand, some resp) ∈ L → resp.length ≤ readConfigResponseDataLength →
    (readResponse readCommand resp).isSome = true

/-- There is a record to go by: ConfigBin's, or every read answered is a read response. -/
def Usable (bin : Option ConfigParam) (L : List Entry) : Prop := bin.isSome = true ∨ ReadsValid L

theorem Usable.of_append {bin : Option ConfigParam} {L : List Entry} {e : Entry} (h : Usable bin (L ++ [e])) :
    Usable bin L :=
  h.imp id fun hv resp hmem => hv resp (List.mem_append_left _ hmem)

theorem Known.same {bin : Option ConfigParam} {L : List Entry} {p p' : ConfigParam} (h : Known bin L p)
    (hp : SameButFlowctl p' p) : Known bin L p' := by
  rcases h with ⟨q, hq, hsame⟩ | ⟨resp, q, hmem, hq, hsame⟩
  · exact .inl ⟨q, hq, hp.trans hsame⟩
  · exact .inr ⟨resp, q, hmem, hq, hp.trans hsame⟩

theorem forced_forced (p : ConfigParam) : p.forced.forced = p.forced := forced_of_noFlowctl (forced_noFlowctl p)

/-! ## The invariant -/

/-- Where a run stands, `L` being its dialogue so far. -/
structure Stands (bin : Option ConfigParam) (s1 s : St) (L : List Entry) : Prop where
  log : Open s1 s L
  traced : Traced L
  parsed : s.parseFileOk = bin.isSome
  record : ∀ q, bin = some q → SameButFlowctl s.configParam q
  writes : Usable bin L → WritesKnown bin L

def Sound (bin : Option ConfigParam) (s1 s : St) : Prop := ∃ L, Stands bin s1 s L

/-- The record may be written. -/
def Writable (bin : Option ConfigParam) (s1 s : St) : Prop :=
  ∃ L, Stands bin s1 s L ∧ (Usable bin L → Known bin L s.configParam)

section

variable {bin : Option ConfigParam} {s1 s s' : St} {L : List Entry}

theorem Stands.asked (h : Stands bin s1 s L) {cmd : List UInt8} (ha : Asked cmd s s')
    (hw : ∀ a, Usable bin L → WritesKnown bin (L ++ [(cmd, a)])) :
    Stands bin s1 s' (L ++ [(cmd, answerNow s cmd)]) := by
  refine ⟨h.log.append ha.dialogue, h.traced.append ha.traced, ha.parse.trans h.parsed, ?_, fun hu => hw _ hu.of_append⟩
  intro q hq
  rw [ha.param]
  exact h.record q hq

/-- A read changes nothing but the dialogue. -/
theorem Stands.read (h : Stands bin s1 s L) (ha : Asked readCommand s s') :
    Stands bin s1 s' (L ++ [(readCommand, answerNow s readCommand)]) :=
  h.asked ha fun a hu => (h.writes hu).read a

/-- Where a run stops. -/
def Leaves (bin : Option ConfigParam) (s1 : St) : Stop → St → Prop
  | .exit _ => Sound bin s1
  | .overrun => Lost s1

theorem Stands.overran (h : Stands bin s1 s L) {cmd : List UInt8} {e : Stop} (ho : Overran cmd e s s') :
    Leaves bin s1 e s' := by
  have hstop := ho.stop
  subst hstop
  have htalked : Talked s1 s := ⟨L, h.log, h.traced⟩
  exact htalked.lost ho.lost

end

/-! ## The search -/

/-- The dialogue and the record stay as they are. -/
structure Silent (s s' : St) : Prop where
  sent : s'.sent = s.sent
  requests : s'.requests = s.requests
  response : s'.response = s.response
  param : s'.configParam = s.configParam
  parse : s'.parseFileOk = s.parseFileOk

theorem Silent.refl (s : St) : Silent s s := ⟨rfl, rfl, rfl, rfl, rfl⟩

theorem Silent.trans {a b c : St} (h : Silent a b) (h' : Silent b c) : Silent a c :=
  ⟨h'.sent.trans h.sent, h'.requests.trans h.requests, h'.response.trans h.response, h'.param.trans h.param,
    h'.parse.trans h.parse⟩

/-- An exit that has changed nothing. -/
def SilentExit (e : Stop) (s s' : St) : Prop := (∃ code, e = .exit code) ∧ Silent s s'

theorem silent_baudSet (b : Nat) : Prog.Ends Silent SilentExit (ttydeviceBaudSet b) :=
  Prog.ends_modify fun _ => ⟨rfl, rfl, rfl, rfl, rfl⟩

theorem silent_flowctlSet (b : Bool) : Prog.Ends Silent SilentExit (ttydeviceFlowctlSet b) :=
  Prog.ends_modify fun _ => ⟨rfl, rfl, rfl, rfl, rfl⟩

theorem silent_deviceOpen : Prog.Ends Silent SilentExit deviceOpen :=
  ends_deviceOpen Silent.refl Silent.trans (fun code s => ⟨⟨code, rfl⟩, Silent.refl s⟩)
    (fun h h' => ⟨h'.1, h.trans h'.2⟩) (Prog.ends_step fun _ => ⟨rfl, rfl, rfl, rfl, rfl⟩)

section

variable {bin : Option ConfigParam} {s1 s s' : St} {L : List Entry}

theorem Stands.silent (h : Stands bin s1 s L) (hs : Silent s s') : Stands bin s1 s' L :=
  ⟨⟨⟨hs.sent.trans h.log.sent, hs.requests.trans h.log.requests, h.log.answers⟩, hs.response.trans h.log.response⟩,
    h.traced, hs.parse.trans h.parsed, fun q hq => by rw [hs.param]; exact h.record q hq, h.writes⟩

theorem Sound.silent (h : Sound bin s1 s) (hs : Silent s s') : Sound bin s1 s' := by
  obtain ⟨L, hL⟩ := h
  exact ⟨L, hL.silent hs⟩

theorem Sound.silentExit (h : Sound bin s1 s) {e : Stop} (hs : SilentExit e s s') : Leaves bin s1 e s' := by
  obtain ⟨⟨code, rfl⟩, hs⟩ := hs
  exact h.silent hs

/-- With ConfigBin parsed, its record may be written at any time. -/
theorem Stands.writable_of_bin (h : Stands bin s1 s L) {q : ConfigParam} (hq : bin = some q) : Writable bin s1 s :=
  ⟨L, h, fun _ => .inl ⟨q, hq, h.record q hq⟩⟩

theorem read_sound (h : Sound bin s1 s) :
    Prog.Post rtkrcpConfigRead s (fun _ s' => Sound bin s1 s') (Leaves bin s1) := by
  obtain ⟨L, hL⟩ := h
  unfold rtkrcpConfigRead
  rw [Prog.post_bind]
  refine (configRequest_asked (by decide) _ s).mono ?_ (fun _ _ ho => hL.overran ho)
  intro r s' ha
  rcases r with _ | resp
  · exact Prog.post_pure.mpr ⟨_, hL.read ha.1⟩
  · exact Prog.post_pure.mpr ⟨_, hL.read ha.1⟩

/-- A check that gets an answer leaves a record that may be written: where the answer is
    not a read response, there is ConfigBin's record or the reads are not all valid. -/
theorem check_writable (h : Sound bin s1 s) :
    Prog.Post rtkrcpConfigCheck s (fun r s' => Sound bin s1 s' ∧ ∀ b, r = some b → Writable bin s1 s')
      (Leaves bin s1) := by
  obtain ⟨L, hL⟩ := h
  unfold rtkrcpConfigCheck
  rw [Prog.post_bind]
  refine (configRequest_asked (by decide) _ s).mono ?_ (fun _ _ ho => hL.overran ho)
  intro r s' ha
  obtain ⟨ha, hr⟩ := ha
  have hL' := hL.read ha
  rcases r with _ | resp
  · exact Prog.post_pure.mpr ⟨⟨_, hL'⟩, fun b hb => by cases hb⟩
  obtain ⟨hreply, hfit⟩ := hr resp rfl
  rw [hreply] at hL'
  have hmem : (readCommand, some resp) ∈ L ++ [(readCommand, some resp)] := by simp
  dsimp only
  rcases hread : readResponse readCommand resp with _ | p
  · -- an unexpected frame: taken as the RCP found, with another configuration
    refine Prog.post_pure.mpr ⟨⟨_, hL'⟩, fun _ _ => ⟨_, hL', fun hu => ?_⟩⟩
    rcases hu with hbin | hvalid
    · obtain ⟨q, hq⟩ := Option.isSome_iff_exists.mp hbin
      exact .inl ⟨q, hq, hL'.record q hq⟩
    · have hv := hvalid resp hmem hfit
      rw [hread] at hv
      cases hv
  · dsimp only
    rw [Prog.post_bind, Prog.post_get, Prog.post_ite]
    by_cases hp : s'.parseFileOk = true
    · obtain ⟨q, hq⟩ := Option.isSome_iff_exists.mp (hL'.parsed.symm.trans hp)
      rw [if_pos hp, Prog.post_ite]
      split
      · exact Prog.post_exit.mpr ⟨_, hL'⟩
      · exact Prog.post_pure.mpr ⟨⟨_, hL'⟩, fun _ _ => hL'.writable_of_bin hq⟩
    · rw [if_neg hp, Prog.post_bind, Prog.post_modify, Prog.post_pure]
      have hnone : ∀ q, bin ≠ some q := by
        intro q hq
        rw [hL'.parsed, hq] at hp
        exact hp rfl
      have hL'' : Stands bin s1 { s' with configParam := p } (L ++ [(readCommand, some resp)]) :=
        ⟨⟨⟨hL'.log.sent, hL'.log.requests, hL'.log.answers⟩, hL'.log.response⟩, hL'.traced, hL'.parsed,
          fun q hq => absurd hq (hnone q), hL'.writes⟩
      exact ⟨⟨_, hL''⟩, fun _ _ => ⟨_, hL'', fun _ => .inr ⟨resp, p, hmem, hread, rfl⟩⟩⟩

/-- A probe that finds the RCP leaves a record that may be written. -/
def Found (bin : Option ConfigParam) (s1 : St) (r : Probe) (s' : St) : Prop :=
  Sound bin s1 s' ∧ ∀ b, r = .hit b → Writable bin s1 s'

theorem probe_found (flowctl : Bool) (h : Sound bin s1 s) :
    Prog.Post (probe flowctl) s (Found bin s1) (Leaves bin s1) := by
  unfold probe
  rw [Prog.post_bind]
  refine (silent_flowctlSet flowctl s).mono ?_ (fun _ _ hs => h.silentExit hs)
  intro _ s2 h2
  rw [Prog.post_bind]
  refine (silent_deviceOpen s2).mono ?_ (fun _ _ hs => (h.silent h2).silentExit hs)
  intro opened s3 h3
  have hs3 : Sound bin s1 s3 := (h.silent h2).silent h3
  rw [Prog.post_ite]
  split
  · rw [Prog.post_bind]
    refine (read_sound hs3).mono ?_ (fun _ _ hs => hs)
    intro _ s4 h4
    rw [Prog.post_bind]
    refine (check_writable h4).mono ?_ (fun _ _ hs => hs)
    intro r s5 h5
    obtain ⟨hs5, hw⟩ := h5
    rcases r with _ | same
    · exact Prog.post_pure.mpr ⟨hs5, fun b hb => by cases hb⟩
    · exact Prog.post_pure.mpr ⟨hs5, fun _ _ => hw same rfl⟩
  · exact Prog.post_pure.mpr ⟨hs3, fun b hb => by cases hb⟩

theorem probeConfigured_found (h : Sound bin s1 s) :
    Prog.Post probeConfigured s (Found bin s1) (Leaves bin s1) := by
  unfold probeConfigured
  rw [Prog.post_bind, Prog.post_get, Prog.post_bind]
  refine (silent_baudSet _ s).mono ?_ (fun _ _ hs => h.silentExit hs)
  intro _ s2 h2
  rw [Prog.post_bind]
  refine (probe_found false (h.silent h2)).mono ?_ (fun _ _ hs => hs)
  intro r s3 h3
  rcases r with _ | _ | same
  · exact probe_found true h3.1
  · exact probe_found true h3.1
  · exact Prog.post_pure.mpr h3

theorem probeTable_found (table : List Nat) (h : Sound bin s1 s) :
    Prog.Post (probeTable table) s (Found bin s1) (Leaves bin s1) := by
  induction table generalizing s with
  | nil => exact Prog.post_exit.mpr h
  | cons baudrate rest ih =>
    unfold probeTable
    rw [Prog.post_bind]
    refine (silent_baudSet baudrate s).mono ?_ (fun _ _ hs => h.silentExit hs)
    intro _ s2 h2
    rw [Prog.post_bind]
    refine (probe_found false (h.silent h2)).mono ?_ (fun _ _ hs => hs)
    intro r s3 h3
    rcases r with _ | _ | same
    · exact Prog.post_pure.mpr h3
    · dsimp only
      rw [Prog.post_bind]
      refine (probe_found true h3.1).mono ?_ (fun _ _ hs => hs)
      intro r' s4 h4
      rcases r' with _ | _ | same
      · exact Prog.post_pure.mpr h4
      · exact ih h4.1
      · exact Prog.post_pure.mpr h4
    · exact Prog.post_pure.mpr h3

theorem findRcp_found (h : Sound bin s1 s) : Prog.Post findRcp s (Found bin s1) (Leaves bin s1) := by
  unfold findRcp
  rw [Prog.post_bind, Prog.post_get, Prog.post_ite]
  split
  · rw [Prog.post_bind]
    refine (probeConfigured_found h).mono ?_ (fun _ _ hs => hs)
    intro r s2 h2
    rcases r with _ | _ | same
    · exact probeTable_found _ h2.1
    · exact probeTable_found _ h2.1
    · exact Prog.post_pure.mpr h2
  · exact probeTable_found _ h

/-! ## The write -/

theorem and_fe_or_one (m : UInt8) : (m &&& 0xfe) ||| 0x01 = m ||| 0x01 := by
  rw [← UInt8.toBitVec_inj]
  apply BitVec.eq_of_getLsbD_eq
  intro i hi
  interval_cases i <;> simp

theorem or_one_or_one (m : UInt8) : (m ||| 0x01) ||| 0x01 = m ||| 0x01 := or_one_of_set (or_one_set m)

/-- Only the flow-control bit of the record changes. -/
theorem Stands.flowctl (h : Stands bin s1 s L) {p : ConfigParam} {b : Bool} (hp : SameButFlowctl p s.configParam) :
    Stands bin s1 { s with configParam := p, flowctlEnable := b } L :=
  ⟨⟨⟨h.log.sent, h.log.requests, h.log.answers⟩, h.log.response⟩, h.traced, h.parsed,
    fun q hq => hp.trans (h.record q hq), h.writes⟩

/-- The write of a record that may be written. -/
theorem write_sound (h : Writable bin s1 s) :
    Prog.Post rtkrcpConfigWrite s (fun _ s' => Sound bin s1 s') (Leaves bin s1) := by
  obtain ⟨L, hL, hk⟩ := h
  have hasked : ∀ s', Asked (writeCommand s.configParam) s s' → Sound bin s1 s' :=
    fun s' ha => ⟨_, hL.asked ha fun a hu => (hL.writes hu).write a (hk hu)⟩
  unfold rtkrcpConfigWrite setRequest
  rw [Prog.post_bind, Prog.post_get, Prog.post_bind]
  refine (configRequest_asked (writeCommand_length s.configParam) _ s).mono ?_ (fun _ _ ho => hL.overran ho)
  intro r s' ha
  rcases r with _ | resp
  · exact Prog.post_pure.mpr (hasked s' ha.1)
  · exact Prog.post_pure.mpr (hasked s' ha.1)

theorem writeConfig_sound (h : Writable bin s1 s) :
    Prog.Post writeConfig s (fun _ s' => Sound bin s1 s') (Leaves bin s1) := by
  unfold writeConfig forceFlowctlOff
  rw [Prog.post_bind, Prog.post_modify, Prog.post_bind]
  obtain ⟨L, hL, hk⟩ := h
  have hforced : SameButFlowctl s.configParam.forced s.configParam := forced_forced s.configParam
  refine (write_sound ⟨L, hL.flowctl hforced, fun hu => (hk hu).same hforced⟩).mono ?_ (fun _ _ hs => hs)
  intro r s2 h2
  rcases r with _ | _ | _
  · exact Prog.post_pure.mpr h2
  · exact Prog.post_pure.mpr h2
  · dsimp only
    rw [Prog.post_bind, Prog.post_get, Prog.post_bind]
    refine (silent_baudSet _ s2).mono ?_ (fun _ _ hs => h2.silentExit hs)
    intro _ s3 h3
    rw [Prog.post_bind]
    refine (silent_flowctlSet false s3).mono ?_ (fun _ _ hs => (h2.silent h3).silentExit hs)
    intro _ s4 h4
    rw [Prog.post_bind]
    refine (silent_deviceOpen s4).mono ?_ (fun _ _ hs => ((h2.silent h3).silent h4).silentExit hs)
    intro opened s5 h5
    have hs5 : Sound bin s1 s5 := ((h2.silent h3).silent h4).silent h5
    rw [Prog.post_ite]
    split
    · rw [Prog.post_bind]
      refine (check_writable hs5).mono ?_ (fun _ _ hs => hs)
      intro r s6 h6
      rcases r with _ | _ | _
      · exact Prog.post_pure.mpr h6.1
      · exact Prog.post_pure.mpr h6.1
      · dsimp only [restoreFlowctl]
        rw [Prog.post_bind, Prog.post_modify, Prog.post_pure]
        obtain ⟨L6, hL6⟩ := h6.1
        refine ⟨L6, hL6.flowctl ?_⟩
        unfold SameButFlowctl ConfigParam.forced
        split
        · rw [and_fe_or_one]
        · rw [or_one_or_one]
    · exact Prog.post_pure.mpr hs5

theorem rtkrcpConfig_sound (h : Sound bin s1 s) :
    Prog.Post rtkrcpConfig s (fun _ s' => Sound bin s1 s') (Leaves bin s1) := by
  unfold rtkrcpConfig
  rw [Prog.post_bind]
  refine (findRcp_found h).mono ?_ (fun _ _ hs => hs)
  intro r s2 h2
  rcases r with _ | _ | _ | _
  · exact Prog.post_pure.mpr h2.1
  · exact Prog.post_pure.mpr h2.1
  · exact writeConfig_sound (h2.2 false rfl)
  · exact Prog.post_pure.mpr h2.1

end

/-! ## Runs -/

/-- Attempts one after the other, the last of which may stop. -/
inductive Attempts : St → Option Stop → St → Prop
  | start (s : St) : Attempts s none s
  | last {s s' : St} {e : Stop} : rtkrcpConfig s = (.error e, s') → Attempts s (some e) s'
  | again {s s' s'' : St} {a : Attempt} {e : Option Stop} : rtkrcpConfig s = (.ok a, s') → Attempts s' e s'' →
      Attempts s e s''

theorem Attempts.of_ok {s : St} {a : Attempt} (h : (rtkrcpConfig s).1 = .ok a) : Attempts s none (rtkrcpConfig s).2 :=
  .again (Prod.ext h rfl) (.start _)

/-- A run that overran no trace stands where the invariant says. -/
theorem Attempts.sound {bin : Option ConfigParam} {s1 s s' : St} {e : Option Stop} (h : Attempts s e s')
    (hs : Sound bin s1 s) : e ≠ some .overrun ∧ Sound bin s1 s' ∨ e = some .overrun ∧ Lost s1 s' := by
  induction h with
  | start s => exact .inl ⟨by decide, hs⟩
  | @last s s' e hr =>
    have hleaves := (rtkrcpConfig_sound hs).of_error hr
    cases e with
    | exit code => exact .inl ⟨by simp, hleaves⟩
    | overrun => exact .inr ⟨rfl, hleaves⟩
  | again hr _ ih => exact ih ((rtkrcpConfig_sound hs).of_ok hr)

/-- Where parsing leaves the process, unless ConfigBin is too short. -/
theorem parse_stands (bin : ConfigBin) (hbin : ∀ bytes, bin = .content bytes → sizeofConfigParam ≤ bytes.length)
    {s0 s1 : St} {b : Bool} (h : rtkrcpConfigParse bin s0 = (.ok b, s1)) : Stands bin.param s1 s1 [] := by
  have hlog := open_nil s1
  cases bin with
  | content bytes =>
    have hlen := hbin bytes rfl
    have hgot : (bytes.take sizeofConfigParam).length = sizeofConfigParam := by
      rw [List.length_take]; omega
    have hparam : (ConfigBin.content bytes).param = some (ConfigParam.ofBytes (bytes.take sizeofConfigParam)) :=
      if_pos hlen
    simp only [rtkrcpConfigParse, hgot, if_true] at h
    cases h
    refine ⟨hlog, traced_nil, by rw [hparam]; rfl, ?_, fun _ => .nil⟩
    intro q hq
    rw [hparam] at hq
    cases hq
    rfl
  | absent | unopenable | unreadable =>
    cases h
    refine ⟨hlog, traced_nil, rfl, ?_, fun _ => .nil⟩
    intro q hq
    cases hq

/-- A frame that is no read response. -/
def strangeAnswer : Exchange := answer [0x85, 6, 0, 0]

/-- The dialogue of the first probe with such answers. -/
def strangeDialogue : List Entry :=
  [(readCommand, some [0x85, 6, 0, 0]), (readCommand, some [0x85, 6, 0, 0])]

theorem strange_unknown (p : ConfigParam) : ¬ Known none strangeDialogue p := by
  intro h
  rcases h with ⟨q, hq, -⟩ | ⟨resp, q, hmem, hq, -⟩
  · cases hq
  · have hresp : resp = [0x85, 6, 0, 0] := by
      simp only [strangeDialogue, List.mem_cons, Prod.mk.injEq, Option.some.injEq, List.not_mem_nil, or_false] at hmem
      rcases hmem with hmem | hmem <;> exact hmem.2
    rw [hresp] at hq
    cases hq

end AmebaLinux.Rcp.Config
