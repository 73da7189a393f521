/-
  AmebaLinux.Rcp.ConfigDialogue — what is said between the tool and the RCP
  (see `AmebaLinux.Rcp.Config`).

  A run's dialogue is the commands it sent, each with the frame it was answered with.
  The commands are in the state; the answers follow from them and the exchanges used up.
  An answer's trace fits its buffer up to 118 bytes. The dialogue of a run that stops at a
  longer one ends with it.

  Proved:
  - `configRequest_asked`: a request carries the dialogue on by its command and the answer,
    and stops exactly at an answer that is too long to trace.
  - `rtkrcpConfig_talks`: an attempt carries the dialogue on with answers that fit, and
    overruns a trace exactly when the last one does not.
-/

import AmebaLinux.Rcp.Config
import AmebaLinux.Rcp.HdlcProofs
import AmebaLinux.Rcp.TtyProofs

namespace AmebaLinux.Rcp.Config

open AmebaLinux.Lib
open AmebaLinux.Lib.Bytes
open AmebaLinux.Rcp.Hdlc
open AmebaLinux.Rcp.Tty

/-! ## Answers -/

/-- The longest answer the handler can trace. -/
def maxTraced : Nat := 118

theorem handler_traces_iff (bytes : List UInt8) :
    (traceLoop recvSize bytes traceHead.length).isSome = true ↔ bytes.length ≤ maxTraced := by
  have h := traceLoop_isSome_iff bytes (show 0 < 128 by decide) 10 (by decide)
  have hhead : traceHead.length = 40 := by decide
  rw [hhead, maxTraced]
  refine h.trans ?_
  omega

/-- The request's own trace begins at the front of its buffer. -/
theorem request_traces {bytes : List UInt8} (h : bytes.length ≤ maxTraced) :
    (traceLoop recvSize bytes 0).isSome = true := by
  refine (traceLoop_isSome_iff bytes (show 0 < 128 by decide) 0 (Nat.zero_le _)).mpr ?_
  rw [maxTraced] at h
  omega

/-- How the wait for a response would end if nothing were traced. -/
def received (r : Response) (reads : List ReadEv) : Option (ExecResult × Response) :=
  ttyWaitForFrame (fun r buff => some (takeResponse r buff)) r reads

/-- The response is the one received, unless it is too long. -/
theorem waitForFrame_eq (r : Response) (reads : List ReadEv) :
    ∃ err r', received r reads = some (err, r') ∧
      ttyWaitForFrame getConfigReponseHandle r reads =
        if err = .noErr ∧ maxTraced < r'.frame.length then none else some (err, r') := by
  unfold received
  induction reads generalizing r with
  | nil => exact ⟨.timeout, r, rfl, rfl⟩
  | cons ev reads ih =>
    cases ev with
    | idle => exact ih r
    | failed error =>
      refine ⟨error.result, r, rfl, ?_⟩
      rw [if_neg (fun h => error.result_ne_noErr h.1)]
      rfl
    | chunk buff =>
      rw [ttyWaitForFrame, ttyWaitForFrame]
      by_cases hempty : buff = []
      · rw [if_pos hempty, if_pos hempty]
        exact ih r
      · rw [if_neg hempty, if_neg hempty, getConfigReponseHandle]
        rcases takeResponse r buff with ⟨r', whole⟩
        dsimp only
        cases whole with
        | false => exact ih r'
        | true =>
          refine ⟨.noErr, r', rfl, ?_⟩
          have htrace := handler_traces_iff r'.frame
          rw [if_pos rfl]
          generalize traceLoop recvSize r'.frame traceHead.length = traced at htrace ⊢
          rcases traced with _ | count
          · have hlong : maxTraced < r'.frame.length := by simpa using htrace
            rw [if_pos ⟨rfl, hlong⟩]
            rfl
          · have hfits : ¬ maxTraced < r'.frame.length := by simpa using htrace
            rw [if_neg (fun h => hfits h.2)]
            rfl

/-! ## The dialogue -/

def Response.reset (r : Response) : Response := { r with decoder := hdlcDecoderReset r.decoder }

/-- What a request makes of the response globals, and the frame it is answered with. -/
def reply (r : Response) (cmd : List UInt8) (x : Exchange) : Response × Option (List UInt8) :=
  match hdlcEncode cmd with
  | none => (r, none)
  | some aFrame =>
    if (ttyWriteRest x.writes aFrame).1 ≠ .noErr then (r, none)
    else
      match received r.reset x.reads with
      | none => (r.reset, none)
      | some (err, r') => if err ≠ .noErr then (r', none) else (r', some r'.frame)

section

variable {r r' : Response} {cmd aFrame : List UInt8} {x : Exchange} {err : ExecResult}

/-- A port that does not take the command leaves the globals as they are. -/
theorem reply_refused (henc : hdlcEncode cmd = some aFrame) (hw : (ttyWriteRest x.writes aFrame).1 ≠ .noErr) :
    reply r cmd x = (r, none) := by
  rw [reply, henc]
  dsimp only
  rw [if_pos hw]

theorem reply_received (henc : hdlcEncode cmd = some aFrame) (hw : ¬ (ttyWriteRest x.writes aFrame).1 ≠ .noErr)
    (hreceived : received r.reset x.reads = some (err, r')) :
    reply r cmd x = (r', if err ≠ .noErr then none else some r'.frame) := by
  rw [reply, henc]
  dsimp only
  rw [if_neg hw, hreceived]
  dsimp only
  split <;> rfl

end

/-- A command and the frame it was answered with, if one came. -/
abbrev Entry : Type := List UInt8 × Option (List UInt8)

def dialogue (r : Response) : List (List UInt8) → List Exchange → List Entry
  | [], _ => []
  | cmd :: cmds, xs =>
    let a := reply r cmd (xs.headD ⟨[], []⟩)
    (cmd, a.2) :: dialogue a.1 cmds xs.tail

def afterDialogue (r : Response) : List (List UInt8) → List Exchange → Response
  | [], _ => r
  | cmd :: cmds, xs => afterDialogue (reply r cmd (xs.headD ⟨[], []⟩)).1 cmds xs.tail

theorem dialogue_append (r : Response) (cmds cmds' : List (List UInt8)) (xs : List Exchange) :
    dialogue r (cmds ++ cmds') xs =
        dialogue r cmds xs ++ dialogue (afterDialogue r cmds xs) cmds' (xs.drop cmds.length) ∧
      afterDialogue r (cmds ++ cmds') xs = afterDialogue (afterDialogue r cmds xs) cmds' (xs.drop cmds.length) := by
  induction cmds generalizing r xs with
  | nil => exact ⟨rfl, rfl⟩
  | cons c cmds ih =>
    obtain ⟨hd, ha⟩ := ih (reply r c (xs.headD ⟨[], []⟩)).1 xs.tail
    rw [List.drop_tail] at hd ha
    exact ⟨congrArg (_ :: ·) hd, ha⟩

/-- `L` is the dialogue between two states of a run. -/
structure Log (s1 s : St) (L : List Entry) : Prop where
  sent : s.sent = s1.sent ++ L.map Prod.fst
  requests : s.requests = s1.requests.drop L.length
  answers : L = dialogue s1.response (L.map Prod.fst) s1.requests

/-- The dialogue can go on: the last response is in the globals. -/
structure Open (s1 s : St) (L : List Entry) : Prop extends Log s1 s L where
  response : s.response = afterDialogue s1.response (L.map Prod.fst) s1.requests

/-- Every answer fits its trace. -/
def Traced (L : List Entry) : Prop := ∀ cmd resp, (cmd, some resp) ∈ L → resp.length ≤ maxTraced

section

variable {s1 s2 s s' : St} {L M : List Entry}

theorem open_nil (s : St) : Open s s [] := ⟨⟨by simp, rfl, rfl⟩, rfl⟩

theorem traced_nil : Traced [] := fun _ _ h => by cases h

theorem Traced.append (hL : Traced L) (hM : Traced M) : Traced (L ++ M) := by
  intro cmd resp hmem
  rcases List.mem_append.mp hmem with hmem | hmem
  · exact hL cmd resp hmem
  · exact hM cmd resp hmem

theorem Log.unique (h : Log s s' L) (h' : Log s s' M) : L = M := by
  have hcmds : L.map Prod.fst = M.map Prod.fst := List.append_cancel_left (h.sent.symm.trans h'.sent)
  rw [h.answers, h'.answers, hcmds]

theorem Open.log_append (h : Open s1 s L) (h' : Log s s2 M) : Log s1 s2 (L ++ M) := by
  obtain ⟨hd, -⟩ := dialogue_append s1.response (L.map Prod.fst) (M.map Prod.fst) s1.requests
  rw [List.length_map, ← h.requests, ← h.response, ← h.answers, ← h'.answers] at hd
  refine ⟨?_, ?_, ?_⟩
  · rw [h'.sent, h.sent, List.map_append, List.append_assoc]
  · rw [h'.requests, h.requests, List.drop_drop, List.length_append]
  · rw [List.map_append, hd]

theorem Open.append (h : Open s1 s L) (h' : Open s s2 M) : Open s1 s2 (L ++ M) := by
  refine ⟨h.log_append h'.toLog, ?_⟩
  obtain ⟨-, ha⟩ := dialogue_append s1.response (L.map Prod.fst) (M.map Prod.fst) s1.requests
  rw [List.length_map, ← h.requests, ← h.response] at ha
  rw [List.map_append, ha]
  exact h'.response

end

/-! ## What a request does -/

/-- The answer to a command that is sent now. -/
def answerNow (s : St) (cmd : List UInt8) : Option (List UInt8) := (reply s.response cmd (s.requests.headD ⟨[], []⟩)).2

/-- The state after one request: the dialogue goes on by it, the record stays. -/
structure Asked (cmd : List UInt8) (s s' : St) : Prop where
  dialogue : Open s s' [(cmd, answerNow s cmd)]
  fits : ∀ resp, answerNow s cmd = some resp → resp.length ≤ maxTraced
  param : s'.configParam = s.configParam
  parse : s'.parseFileOk = s.parseFileOk

/-- A request that stops: its answer is too long to trace. -/
structure Overran (cmd : List UInt8) (e : Stop) (s s' : St) : Prop where
  stop : e = .overrun
  dialogue : Log s s' [(cmd, answerNow s cmd)]
  long : ∃ resp, answerNow s cmd = some resp ∧ maxTraced < resp.length

/-- Nothing is sent and the record stays. -/
structure Still (s s' : St) : Prop where
  sent : s'.sent = s.sent
  param : s'.configParam = s.configParam
  parse : s'.parseFileOk = s.parseFileOk

theorem nextExchange_spec (s : St) :
    Prog.Post nextExchange s
      (fun x s' => x = s.requests.headD ⟨[], []⟩ ∧ s'.requests = s.requests.tail ∧ s'.response = s.response ∧ Still s s')
      (fun _ _ => False) :=
  Prog.post_step.mpr ⟨rfl, rfl, rfl, rfl, rfl, rfl⟩

/-- The wait gives the response received, or stops at one that is too long. -/
theorem wait_spec (reads : List ReadEv) (s : St) :
    Prog.Post (waitForResponse reads) s
      (fun err s' => received s.response reads = some (err, s'.response) ∧
        (err = .noErr → s'.response.frame.length ≤ maxTraced) ∧ s'.requests = s.requests ∧ Still s s')
      (fun e s' => e = .overrun ∧ s' = s ∧
        ∃ r', received s.response reads = some (.noErr, r') ∧ maxTraced < r'.frame.length) := by
  obtain ⟨err, r', hreceived, hwait⟩ := waitForFrame_eq s.response reads
  unfold waitForResponse
  rw [Prog.post_bind, Prog.post_get, hwait]
  by_cases hlong : err = .noErr ∧ maxTraced < r'.frame.length
  · rw [if_pos hlong]
    exact Prog.post_exit.mpr ⟨rfl, rfl, r', hlong.1 ▸ hreceived, hlong.2⟩
  · rw [if_neg hlong]
    dsimp only
    rw [Prog.post_bind, Prog.post_modify, Prog.post_pure]
    exact ⟨hreceived, fun herr => Nat.le_of_not_lt fun h => hlong ⟨herr, h⟩, rfl, rfl, rfl, rfl⟩

/-- The answer is known, and the state is else as it was once the command was noted. -/
theorem asked_of_reply {cmd : List UInt8} {answer : Option (List UInt8)} {s s' : St}
    (hstill : Still { s with sent := s.sent ++ [cmd] } s') (hreq : s'.requests = s.requests.tail)
    (hreply : reply s.response cmd (s.requests.headD ⟨[], []⟩) = (s'.response, answer))
    (hfits : ∀ resp, answer = some resp → resp.length ≤ maxTraced) :
    Asked cmd s s' ∧ answerNow s cmd = answer := by
  have hnow : answerNow s cmd = answer := congrArg Prod.snd hreply
  have hlog : Log s s' [(cmd, answerNow s cmd)] := ⟨hstill.sent, by rw [hreq]; simp, rfl⟩
  refine ⟨⟨⟨hlog, (congrArg Prod.fst hreply).symm⟩, ?_, hstill.param, hstill.parse⟩, hnow⟩
  rw [hnow]
  exact hfits

/-- A frame that a request returns is the answer in the dialogue, and fits. -/
theorem configRequest_asked {cmd : List UInt8} (hcmd : cmd.length ≤ 126) (n : Nat) (s : St) :
    Prog.Post (configRequest cmd n) s
      (fun r s' => Asked cmd s s' ∧ ∀ resp, r = some resp → answerNow s cmd = some resp ∧ resp.length ≤ n)
      (fun e s' => Overran cmd e s s') := by
  have henc := encode_eq cmd hcmd
  unfold configRequest
  rw [Prog.post_bind, Prog.post_modify, henc]
  dsimp only
  rw [Prog.post_bind]
  refine (nextExchange_spec _).mono ?_ (fun _ _ h => h.elim)
  intro x s1 h1
  rcases h1 with ⟨hx, hreq, hresp, hstill⟩
  have hx : x = s.requests.headD ⟨[], []⟩ := hx
  have hresp : s1.response = s.response := hresp
  subst hx
  rw [Prog.post_ite]
  split
  · -- the port does not take the command
    rename_i hw
    have hreply : reply s.response cmd (s.requests.headD ⟨[], []⟩) = (s1.response, none) := by
      rw [hresp]
      exact reply_refused henc hw
    rw [Prog.post_pure]
    exact ⟨(asked_of_reply hstill hreq hreply (fun resp h => by cases h)).1, fun resp h => by cases h⟩
  · rename_i hw
    rw [Prog.post_bind, Prog.post_modify, Prog.post_bind]
    refine (wait_spec (s.requests.headD ⟨[], []⟩).reads _).mono ?_ ?_
    · intro err s2 h2
      rcases h2 with ⟨hreceived, hfits, hreq2, hstill2⟩
      have hreply := reply_received (r := s1.response) henc hw hreceived
      have hstill : Still { s with sent := s.sent ++ [cmd] } s2 :=
        ⟨hstill2.sent.trans hstill.sent, hstill2.param.trans hstill.param, hstill2.parse.trans hstill.parse⟩
      have hanswer : ∀ resp, (if err ≠ .noErr then none else some s2.response.frame) = some resp →
          resp.length ≤ maxTraced := by
        intro resp h
        split at h
        · cases h
        · rename_i herr
          cases h
          exact hfits (not_not.mp herr)
      obtain ⟨hasked, hnow⟩ := asked_of_reply hstill (hreq2.trans hreq) (hresp ▸ hreply) hanswer
      rw [Prog.post_ite]
      split
      · exact Prog.post_pure.mpr ⟨hasked, fun resp h => by cases h⟩
      · rename_i herr
        rw [if_neg herr] at hnow
        -- a response that the handler could trace fits the shorter trace of the request
        obtain ⟨count, hcount⟩ := Option.isSome_iff_exists.mp (request_traces (hfits (not_not.mp herr)))
        rw [Prog.post_bind, Prog.post_get, hcount]
        dsimp only
        rw [Prog.post_ite]
        split
        · exact Prog.post_pure.mpr ⟨hasked, fun resp h => by cases h⟩
        · rename_i hfit
          refine Prog.post_pure.mpr ⟨hasked, ?_⟩
          intro resp h
          cases h
          refine ⟨hnow, ?_⟩
          rw [Response.frame, List.length_take]
          exact (min_le_left _ _).trans (Nat.le_of_not_lt hfit)
    · intro e s2 h2
      obtain ⟨he, rfl, r', hreceived, hlong⟩ := h2
      have hreply := reply_received (r := s1.response) henc hw hreceived
      have hnow : answerNow s cmd = some r'.frame := congrArg Prod.snd (hresp ▸ hreply)
      exact ⟨he, ⟨hstill.sent, by rw [hreq]; simp, rfl⟩, r'.frame, hnow, hlong⟩

/-! ## What an attempt does -/

/-- The dialogue went on with answers that fit. -/
def Talked (s s' : St) : Prop := ∃ L, Open s s' L ∧ Traced L

/-- The dialogue ends with an answer that does not fit. -/
def Lost (s s' : St) : Prop := ∃ L, Log s s' L ∧ ¬ Traced L

def Left : Stop → St → St → Prop
  | .exit _ => Talked
  | .overrun => Lost

theorem Talked.refl (s : St) : Talked s s := ⟨[], open_nil s, traced_nil⟩

theorem Talked.trans {a b c : St} (h : Talked a b) (h' : Talked b c) : Talked a c := by
  obtain ⟨L, hL, hl⟩ := h
  obtain ⟨M, hM, hm⟩ := h'
  exact ⟨L ++ M, hL.append hM, hl.append hm⟩

theorem Talked.lost {a b c : St} (h : Talked a b) (h' : Lost b c) : Lost a c := by
  obtain ⟨L, hL, -⟩ := h
  obtain ⟨M, hM, hm⟩ := h'
  refine ⟨L ++ M, hL.log_append hM, ?_⟩
  intro hlm
  exact hm fun cmd resp hmem => hlm cmd resp (List.mem_append_right _ hmem)

theorem Talked.left {e : Stop} {a b c : St} (h : Talked a b) (h' : Left e b c) : Left e a c := by
  cases e with
  | exit code => exact h.trans h'
  | overrun => exact h.lost h'

theorem Asked.traced {cmd : List UInt8} {s s' : St} (h : Asked cmd s s') : Traced [(cmd, answerNow s cmd)] := by
  intro cmd' resp hmem
  simp only [List.mem_singleton, Prod.mk.injEq] at hmem
  exact h.fits resp hmem.2.symm

theorem Asked.talked {cmd : List UInt8} {s s' : St} (h : Asked cmd s s') : Talked s s' := ⟨_, h.dialogue, h.traced⟩

theorem Overran.lost {cmd : List UInt8} {e : Stop} {s s' : St} (h : Overran cmd e s s') : Lost s s' := by
  refine ⟨_, h.dialogue, ?_⟩
  intro htraced
  obtain ⟨resp, hresp, hlong⟩ := h.long
  exact absurd (htraced cmd resp (by simp [hresp])) (Nat.not_le_of_lt hlong)

theorem bytes_length (p : ConfigParam) : p.bytes.length = sizeofConfigParam := by
  simp only [ConfigParam.bytes, List.length_append, toLe_length]
  rfl

def writeCommand (p : ConfigParam) : List UInt8 := setCommand spinelPropVendorRtkConfigWrite p.bytes

theorem writeCommand_length (p : ConfigParam) : (writeCommand p).length ≤ 126 := by
  simp only [writeCommand, setCommand, List.length_append, bytes_length]
  decide

/-! ## Opening the device -/

section

variable {R : St → St → Prop} {E : Stop → St → St → Prop} (hr : ∀ s, R s s) (ht : ∀ {a b c}, R a b → R b c → R a c)
variable (hx : ∀ code s, E (.exit code) s s) (he : ∀ {e a b c}, R a b → E e b c → E e a c)

include hr ht hx he

theorem ends_deviceOpen (hopen : Prog.Ends R E nextOpen) : Prog.Ends R E deviceOpen := by
  refine hopen.bind ht he ?_
  intro ev
  cases ev with
  | failed => exact Prog.ends_pure hr _
  | plain => exact Prog.ends_pure hr _
  | tty setattr =>
    refine (Prog.ends_get hr).bind ht he ?_
    intro s
    refine (Prog.ends_exit (hx 2)).ite ?_
    exact (Prog.ends_exit (hx 2)).ite (Prog.ends_pure hr _)

end

/-! ## What an attempt says -/

abbrev Talks {α : Type} (x : Tool α) : Prop := Prog.Ends Talked Left x

theorem Talks.bind {α β : Type} {x : Tool α} {f : α → Tool β} (hx : Talks x) (hf : ∀ a, Talks (f a)) : Talks (x >>= f) :=
  Prog.Ends.bind Talked.trans Talked.left hx hf

theorem talks_pure {α : Type} (a : α) : Talks (pure a : Tool α) := Prog.ends_pure Talked.refl a

theorem talks_get : Talks (Prog.get : Tool St) := Prog.ends_get Talked.refl

theorem talks_exit {α : Type} (code : Nat) : Talks (Prog.exit (.exit code) : Tool α) := Prog.ends_exit Talked.refl

/-- A step that leaves the dialogue as it is. -/
theorem talks_modify {g : St → St} (h : ∀ s, (g s).sent = s.sent ∧ (g s).requests = s.requests ∧ (g s).response = s.response) :
    Talks (Prog.modify g) := by
  refine Prog.ends_modify fun s => ⟨[], ⟨⟨?_, (h s).2.1, rfl⟩, (h s).2.2⟩, traced_nil⟩
  rw [(h s).1, List.map_nil, List.append_nil]

theorem talks_baudSet (b : Nat) : Talks (ttydeviceBaudSet b) := talks_modify fun _ => ⟨rfl, rfl, rfl⟩

theorem talks_flowctlSet (b : Bool) : Talks (ttydeviceFlowctlSet b) := talks_modify fun _ => ⟨rfl, rfl, rfl⟩

theorem talks_deviceOpen : Talks deviceOpen := by
  refine ends_deviceOpen Talked.refl Talked.trans (fun _ => Talked.refl) Talked.left ?_
  exact Prog.ends_step fun s => ⟨[], ⟨⟨(List.append_nil _).symm, rfl, rfl⟩, rfl⟩, traced_nil⟩

theorem talks_configRequest {cmd : List UInt8} (hcmd : cmd.length ≤ 126) (n : Nat) : Talks (configRequest cmd n) := by
  intro s
  refine (configRequest_asked hcmd n s).mono (fun _ _ h => h.1.talked) ?_
  intro e s' h
  have hstop := h.stop
  subst hstop
  exact h.lost

theorem talks_read : Talks rtkrcpConfigRead := by
  refine (talks_configRequest (by decide) _).bind fun r => ?_
  cases r <;> exact talks_pure _

theorem talks_write : Talks rtkrcpConfigWrite := by
  refine talks_get.bind fun s => ?_
  refine (talks_configRequest (writeCommand_length s.configParam) _).bind fun r => ?_
  cases r <;> exact talks_pure _

theorem talks_check : Talks rtkrcpConfigCheck := by
  refine (talks_configRequest (by decide) _).bind fun r => ?_
  cases r with
  | none => exact talks_pure none
  | some respBuff =>
    dsimp only
    cases readResponse readCommand respBuff with
    | none => exact talks_pure _
    | some p =>
      refine talks_get.bind fun s => Prog.Ends.ite ?_ ?_
      · exact (talks_exit 255).ite (talks_pure _)
      · exact Talks.bind (talks_modify fun _ => ⟨rfl, rfl, rfl⟩) fun _ => talks_pure _

theorem talks_probe (flowctl : Bool) : Talks (probe flowctl) := by
  refine (talks_flowctlSet flowctl).bind fun _ => talks_deviceOpen.bind fun opened => Prog.Ends.ite ?_ (talks_pure _)
  refine talks_read.bind fun _ => talks_check.bind fun r => ?_
  cases r <;> exact talks_pure _

theorem talks_probeConfigured : Talks probeConfigured := by
  refine talks_get.bind fun s => (talks_baudSet _).bind fun _ => (talks_probe false).bind fun r => ?_
  cases r with
  | hit same => exact talks_pure _
  | notOpened => exact talks_probe true
  | silent => exact talks_probe true

theorem talks_probeTable (table : List Nat) : Talks (probeTable table) := by
  induction table with
  | nil => exact talks_exit 254
  | cons baudrate rest ih =>
    refine (talks_baudSet baudrate).bind fun _ => (talks_probe false).bind fun r => ?_
    cases r with
    | hit same => exact talks_pure _
    | notOpened => exact talks_pure _
    | silent =>
      refine (talks_probe true).bind fun r' => ?_
      cases r' with
      | hit same => exact talks_pure _
      | notOpened => exact talks_pure _
      | silent => exact ih

theorem talks_findRcp : Talks findRcp := by
  refine talks_get.bind fun s => Prog.Ends.ite ?_ (talks_probeTable _)
  refine talks_probeConfigured.bind fun r => ?_
  cases r with
  | hit same => exact talks_pure _
  | notOpened => exact talks_probeTable _
  | silent => exact talks_probeTable _

theorem talks_writeConfig : Talks writeConfig := by
  refine Talks.bind (talks_modify fun _ => ⟨rfl, rfl, rfl⟩) fun _ => talks_write.bind fun r => ?_
  rcases r with _ | _ | _
  · exact talks_pure _
  · exact talks_pure _
  · refine talks_get.bind fun s => (talks_baudSet _).bind fun _ => (talks_flowctlSet false).bind fun _ => ?_
    refine talks_deviceOpen.bind fun opened => Prog.Ends.ite ?_ (talks_pure _)
    refine talks_check.bind fun r => ?_
    rcases r with _ | _ | _
    · exact talks_pure _
    · exact talks_pure _
    · exact Talks.bind (talks_modify fun _ => ⟨rfl, rfl, rfl⟩) fun _ => talks_pure _

/-- An attempt that returns or exits has had answers that fit; one that overruns a trace
    has not. -/
theorem rtkrcpConfig_talks : Talks rtkrcpConfig := by
  refine talks_findRcp.bind fun r => ?_
  rcases r with _ | _ | _ | _
  · exact talks_pure _
  · exact talks_pure _
  · exact talks_writeConfig
  · exact talks_pure _

end AmebaLinux.Rcp.Config
