/-
  AmebaLinux.Cmds.CaptouchMonitorProofs — the senders of the captouch monitor (see
  `AmebaLinux.Cmds.CaptouchMonitor`).

  Nothing but its own look at `monitor_stop` ends a sender, and it only gets there with a
  token of the timer. A start request does not look for a sender.

  Proved:
  - `stopped_ends_iff`: after a stop, and until the next start, a sender has ended exactly
    when it got a token, if it waited for one, and made the steps that were left.
  - `one_sender_iff`: at most one sender is alive at any time exactly when between any two
    starts that create one there is a stop after which, and before any other start, the
    first sender comes to its end in that way (`two_senders`).
  - `restart_doubles`: a sender that waits when the monitor is stopped, with no token, stays,
    and the next start makes a second one.
-/

import AmebaLinux.Cmds.CaptouchMonitor

namespace AmebaLinux.Cmds.Captouch.Monitor

open AmebaLinux.Lib.Machine (Along)

/-! ## Senders -/

/-- A start request whose thread is created. -/
def Event.creates : Event → Bool
  | .start _ created => created
  | _ => false

theorem senders_start (s : St) (channels : Channels) (created : Bool) :
    (step s (.start channels created)).senders = if created then s.senders ++ [.waiting] else s.senders := by
  cases created <;> rfl

theorem stop_keeps (s : St) : (step s .stop).senders = s.senders ∧ (step s .stop).timerSema = s.timerSema := by
  show (capMonitorStop s).senders = _ ∧ (capMonitorStop s).timerSema = _
  unfold capMonitorStop
  split <;> exact ⟨rfl, rfl⟩

/-! ## What the events say -/

/-- Of the tokens that the ticks post, those that are left; whether the last request was a
    stop; where the sender that was created last is, none when it has ended. -/
structure Seen where
  tokens : Nat
  stopped : Bool
  sender : Option Pc
  deriving DecidableEq, Repr

def Seen.start : Seen := ⟨0, false, none⟩

/-- A sender takes a token, sends, and looks whether there was a stop; it ends if there was. -/
def Seen.note (v : Seen) : Event → Seen
  | .start _ created => { v with stopped := false, sender := if created then some .waiting else v.sender }
  | .stop => { v with stopped := true }
  | .tick _ => { v with tokens := v.tokens + 1 }
  | .sender 0 _ =>
    match v.sender with
    | some .waiting => if v.tokens = 0 then v else { v with tokens := v.tokens - 1, sender := some .woken }
    | some .woken => { v with sender := some .checking }
    | some .checking => { v with sender := if v.stopped then none else some .waiting }
    | none => v
  | .sender (_ + 1) _ => v

/-- A start request that creates a sender comes when the last one has ended. -/
def Clears (v : Seen) (e : Event) : Prop := e.creates = true → v.sender = none

/-- The senders are the one that is seen. -/
structure Matches (s : St) (v : Seen) : Prop where
  tokens : s.timerSema = v.tokens
  stopped : s.monitorStop = v.stopped
  senders : s.senders = v.sender.toList

theorem matches_sender {s : St} {v : Seen} (h : Matches s v) (i : Nat) (snr : UInt16) :
    Matches (step s (.sender i snr)) (v.note (.sender i snr)) := by
  obtain ⟨htokens, hstopped, hsenders⟩ := h
  obtain ⟨tokens, stopped, sender⟩ := v
  dsimp only at htokens hstopped hsenders
  cases i with
  | succ i =>
    have hstep : step s (.sender (i + 1) snr) = s := by
      cases sender <;> simp [step, monitorTxThread, hsenders]
    rw [hstep]
    exact ⟨htokens, hstopped, hsenders⟩
  | zero =>
    rcases sender with _ | pc
    · have hstep : step s (.sender 0 snr) = s := by simp [step, monitorTxThread, hsenders]
      rw [hstep]
      exact ⟨htokens, hstopped, hsenders⟩
    · cases pc with
      | waiting =>
        by_cases hnone : tokens = 0
        · have hstep : step s (.sender 0 snr) = s := by simp [step, monitorTxThread, hsenders, htokens, hnone]
          rw [hstep]
          subst hnone
          exact ⟨htokens, hstopped, hsenders⟩
        · simp only [step, monitorTxThread, hsenders, Option.toList_some, List.getElem?_cons_zero, htokens, if_neg hnone,
            Seen.note]
          exact ⟨rfl, hstopped, rfl⟩
      | woken =>
        simp only [step, monitorTxThread, hsenders, Option.toList_some, List.getElem?_cons_zero, Seen.note]
        have hkept : (sendPage snr s).timerSema = s.timerSema ∧ (sendPage snr s).monitorStop = s.monitorStop := by
          unfold sendPage
          split <;> exact ⟨rfl, rfl⟩
        exact ⟨hkept.1.trans htokens, hkept.2.trans hstopped, rfl⟩
      | checking =>
        simp only [step, monitorTxThread, hsenders, Option.toList_some, List.getElem?_cons_zero, hstopped, Seen.note]
        cases stopped with
        | true => exact ⟨htokens, rfl, rfl⟩
        | false => exact ⟨htokens, rfl, rfl⟩

theorem matches_step {s : St} {v : Seen} {e : Event} (h : Matches s v) (he : Clears v e) : Matches (step s e) (v.note e) := by
  cases e with
  | start channels created =>
    refine ⟨?_, ?_, ?_⟩
    · cases created <;> exact h.tokens
    · cases created <;> rfl
    · rw [senders_start, h.senders, Seen.note]
      cases created with
      | true =>
        rw [he rfl]
        rfl
      | false => rfl
  | stop =>
    refine ⟨(stop_keeps s).2.trans h.tokens, ?_, (stop_keeps s).1.trans h.senders⟩
    show (capMonitorStop s).monitorStop = true
    unfold capMonitorStop
    split
    · assumption
    · rfl
  | tick sample => exact ⟨congrArg (· + 1) h.tokens, h.stopped, h.senders⟩
  | sender i snr => exact matches_sender h i snr

/-- A start request that finds a sender makes a second one. -/
theorem clears_of_one {s : St} {v : Seen} {e : Event} (h : Matches s v) (hone : (step s e).senders.length ≤ 1) : Clears v e := by
  intro hcreates
  cases e with
  | start channels created =>
    obtain rfl : created = true := hcreates
    rw [senders_start, if_pos rfl, h.senders, List.length_append, List.length_singleton] at hone
    cases hsender : v.sender with
    | none => rfl
    | some pc =>
      rw [hsender] at hone
      cases hone.not_gt (by simp)
  | stop => cases hcreates
  | tick sample => cases hcreates
  | sender i snr => cases hcreates

/-- There is one sender at most, all along, exactly when none is seen by a start that creates
    one. -/
theorem one_sender_along (events : List Event) :
    (∀ pre, pre <+: events → (run pre).senders.length ≤ 1) ↔ Along Seen.note Clears .start events := by
  refine Lib.Machine.always_iff_along_of_rel (P := fun s : St => s.senders.length ≤ 1) (R := Matches) ?_ ?_ ?_
    ⟨rfl, rfl, rfl⟩ events
  · intro s v h
    rw [h.senders]
    cases v.sender <;> simp
  · intro s v e h hone
    exact clears_of_one h hone
  · intro s v e h he
    exact matches_step h he

/-! ## After a stop -/

def Event.isStart : Event → Bool
  | .start _ _ => true
  | _ => false

/-- A step of the sender. -/
def Event.isStep : Event → Bool
  | .sender 0 _ => true
  | _ => false

def Event.isTick : Event → Bool
  | .tick _ => true
  | _ => false

def steps (events : List Event) : Nat := events.countP Event.isStep
def ticks (events : List Event) : Nat := events.countP Event.isTick

/-- A token is there, of the first `tokens` or from a tick, and three steps after it. -/
def Wakes (tokens : Nat) (events : List Event) : Prop := ∃ a b, events = a ++ b ∧ 0 < tokens + ticks a ∧ 3 ≤ steps b

theorem wakes_of_token {tokens : Nat} (h : 0 < tokens) (events : List Event) : Wakes tokens events ↔ 3 ≤ steps events := by
  constructor
  · rintro ⟨a, b, rfl, -, hsteps⟩
    rw [steps, List.countP_append]
    exact hsteps.trans (Nat.le_add_left _ _)
  · intro hsteps
    exact ⟨[], events, rfl, Nat.lt_of_lt_of_le h (Nat.le_add_right _ _), hsteps⟩

theorem wakes_cons {e : Event} {events : List Event} : Wakes 0 (e :: events) ↔ Wakes (ticks [e]) events := by
  constructor
  · rintro ⟨a, b, hsplit, htoken, hsteps⟩
    cases a with
    | nil => cases htoken
    | cons e' a =>
      obtain ⟨rfl, rfl⟩ := List.cons.inj hsplit
      refine ⟨a, b, rfl, ?_, hsteps⟩
      rwa [Nat.zero_add, ticks, ← List.singleton_append, List.countP_append] at htoken
  · rintro ⟨a, b, rfl, htoken, hsteps⟩
    refine ⟨e :: a, b, rfl, ?_, hsteps⟩
    rwa [Nat.zero_add, ticks, ← List.singleton_append, List.countP_append]

/-- What the sender still needs to come to its end. -/
def Finishes (v : Seen) (events : List Event) : Prop :=
  match v.sender with
  | none => True
  | some .checking => 1 ≤ steps events
  | some .woken => 2 ≤ steps events
  | some .waiting => Wakes v.tokens events

theorem steps_cons (e : Event) (events : List Event) : steps (e :: events) = steps events + if e.isStep then 1 else 0 :=
  List.countP_cons

/-- An event that is no start takes the sender on. -/
theorem finishes_note {v : Seen} (hstopped : v.stopped = true) {e : Event} (he : e.isStart = false) (events : List Event) :
    Finishes (v.note e) events ↔ Finishes v (e :: events) := by
  obtain ⟨tokens, stopped, sender⟩ := v
  obtain rfl : stopped = true := hstopped
  rcases Nat.eq_zero_or_pos tokens with rfl | htoken
  · rcases e with _ | _ | _ | ⟨_ | i, snr⟩
    case start => cases he
    all_goals
      rcases sender with _ | _ | _ | _ <;>
        simp [Seen.note, Finishes, steps_cons, wakes_cons, Event.isStep, ticks, Event.isTick, wakes_of_token]
  · have hne : tokens ≠ 0 := htoken.ne'
    rcases e with _ | _ | _ | ⟨_ | i, snr⟩
    case start => cases he
    all_goals
      rcases sender with _ | _ | _ | _ <;>
        simp [Seen.note, Finishes, steps_cons, wakes_of_token htoken, wakes_of_token, Event.isStep, hne]

theorem note_keeps_stopped {v : Seen} {e : Event} (hstart : e.isStart = false) (hstop : e ≠ .stop) :
    (v.note e).stopped = v.stopped := by
  rcases e with _ | _ | _ | ⟨_ | i, snr⟩
  case start => cases hstart
  case stop => exact absurd rfl hstop
  case tick => rfl
  case sender.succ => rfl
  obtain ⟨tokens, stopped, sender⟩ := v
  rcases sender with _ | _ | _ | _
  · rfl
  · unfold Seen.note
    dsimp only
    split
    · rfl
    · rfl
  · rfl
  · rfl

theorem note_stopped {v : Seen} (h : v.stopped = true) {e : Event} (he : e.isStart = false) : (v.note e).stopped = true := by
  by_cases hstop : e = .stop
  · subst hstop
    rfl
  · rw [note_keeps_stopped he hstop, h]

/-- After a stop, until the next start, the sender has ended when it got a token, if it waited
    for one, and made the steps that were left. -/
theorem stopped_ends_iff {v : Seen} (hstopped : v.stopped = true) {events : List Event} (h : ∀ e ∈ events, e.isStart = false) :
    (Lib.Machine.run Seen.note v events).sender = none ↔ Finishes v events := by
  induction events generalizing v with
  | nil =>
    obtain ⟨tokens, stopped, sender⟩ := v
    rcases sender with _ | _ | _ | _ <;> simp [Finishes, steps, Wakes]
  | cons e events ih =>
    have he : e.isStart = false := h e (by simp)
    rw [Lib.Machine.run_cons, ih (note_stopped hstopped he) fun e' he' => h e' (by simp [he']), finishes_note hstopped he]

/-! ## From one start to the next -/

/-- What is seen after the events. -/
def seen (events : List Event) : Seen := Lib.Machine.run Seen.note .start events

/-- There is a stop, and before any start after it the sender comes to its end. -/
def Ended (v : Seen) (events : List Event) : Prop :=
  ∃ a b rest, events = a ++ .stop :: (b ++ rest) ∧ (∀ e ∈ b, e.isStart = false) ∧
    Finishes (Lib.Machine.run Seen.note v (a ++ [.stop])) b

section

variable {v : Seen} {e : Event} {events : List Event}

/-- Only a step of a sender that is about to look ends it, and only after a stop. -/
theorem ends_cases (he : e.creates = false) (hend : (v.note e).sender = none) :
    v.sender = none ∨ v.stopped = true ∧ e.isStart = false := by
  obtain ⟨tokens, stopped, sender⟩ := v
  rcases e with ⟨channels, created⟩ | _ | _ | ⟨_ | i, snr⟩
  case start =>
    obtain rfl : created = false := he
    exact .inl hend
  case stop => exact .inl hend
  case tick => exact .inl hend
  case sender.succ => exact .inl hend
  rcases sender with _ | _ | _ | _
  · exact .inl rfl
  · unfold Seen.note at hend
    dsimp only at hend
    split at hend <;> cases hend
  · cases hend
  · cases stopped with
    | true => exact .inr ⟨rfl, rfl⟩
    | false => cases hend

theorem note_none (he : e.creates = false) (h : v.sender = none) : (v.note e).sender = none := by
  obtain ⟨tokens, stopped, sender⟩ := v
  obtain rfl : sender = none := h
  rcases e with ⟨channels, created⟩ | _ | _ | ⟨_ | i, snr⟩
  case start =>
    obtain rfl : created = false := he
    rfl
  all_goals rfl

theorem run_none (hevents : ∀ e ∈ events, e.creates = false) (h : v.sender = none) :
    (Lib.Machine.run Seen.note v events).sender = none := by
  induction events generalizing v with
  | nil => exact h
  | cons e events ih => exact ih (fun e' he' => hevents e' (by simp [he'])) (note_none (hevents e (by simp)) h)

/-- What was stopped was stopped by a request, and not started since. -/
theorem stopped_since (hv : v.stopped = false) (h : (Lib.Machine.run Seen.note v events).stopped = true) :
    ∃ a b, events = a ++ .stop :: b ∧ ∀ e ∈ b, e.isStart = false := by
  induction events using List.reverseRecOn with
  | nil =>
    rw [Lib.Machine.run_nil, hv] at h
    cases h
  | append_singleton events e ih =>
    rw [Lib.Machine.run_snoc] at h
    cases hstart : e.isStart with
    | true =>
      cases e with
      | start channels created => cases h
      | stop => cases hstart
      | tick sample => cases hstart
      | sender i snr => cases hstart
    | false =>
      by_cases hstop : e = .stop
      · subst hstop
        exact ⟨events, [], rfl, nofun⟩
      · rw [note_keeps_stopped hstart hstop] at h
        obtain ⟨a, b, rfl, hb⟩ := ih h
        refine ⟨a, b ++ [e], by simp, ?_⟩
        simpa [or_imp, forall_and, hstart] using hb

/-- The sender has ended by the end of the events exactly if there was a stop, and time for it
    to end before the next start. -/
theorem ended_iff (hv : v.stopped = false) (hsome : v.sender ≠ none) (hevents : ∀ e ∈ events, e.creates = false) :
    (Lib.Machine.run Seen.note v events).sender = none ↔ Ended v events := by
  have hstop : ∀ a, (Lib.Machine.run Seen.note v (a ++ [.stop])).stopped = true := by
    intro a
    rw [Lib.Machine.run_snoc]
    rfl
  constructor
  · intro hend
    induction events using List.reverseRecOn with
    | nil => exact absurd hend hsome
    | append_singleton events e ih =>
      have hlast := hend
      rw [Lib.Machine.run_snoc] at hlast
      rcases ends_cases (hevents e (by simp)) hlast with hnone | ⟨hstopped, hstart⟩
      · obtain ⟨a, b, rest, rfl, hb, hfinishes⟩ := ih (fun e' he' => hevents e' (by simp [he'])) hnone
        exact ⟨a, b, rest ++ [e], by simp, hb, hfinishes⟩
      · obtain ⟨a, b, rfl, hb⟩ := stopped_since hv hstopped
        have hb' : ∀ e' ∈ b ++ [e], e'.isStart = false := by simpa [or_imp, forall_and, hstart] using hb
        refine ⟨a, b ++ [e], [], by simp, hb', ?_⟩
        rw [← stopped_ends_iff (hstop a) hb', ← Lib.Machine.run_append]
        simpa using hend
  · rintro ⟨a, b, rest, rfl, hb, hfinishes⟩
    have hmiddle := (stopped_ends_iff (hstop a) hb).mpr hfinishes
    have hsplit : a ++ .stop :: (b ++ rest) = a ++ [.stop] ++ (b ++ rest) := by simp
    rw [hsplit, Lib.Machine.run_append, Lib.Machine.run_append]
    exact run_none (fun e he => hevents e (by simp [he])) hmiddle

end

theorem last_creation (events : List Event) :
    (∀ e ∈ events, e.creates = false) ∨
      ∃ pre channels mid, events = pre ++ .start channels true :: mid ∧ ∀ e ∈ mid, e.creates = false := by
  induction events using List.reverseRecOn with
  | nil => exact .inl nofun
  | append_singleton events e ih =>
    cases hcreates : e.creates with
    | true =>
      cases e with
      | start channels created =>
        obtain rfl : created = true := hcreates
        exact .inr ⟨events, channels, [], rfl, nofun⟩
      | stop => cases hcreates
      | tick sample => cases hcreates
      | sender i snr => cases hcreates
    | false =>
      rcases ih with hnone | ⟨pre, channels, mid, rfl, hmid⟩
      · exact .inl (by simpa [or_imp, forall_and, hcreates] using hnone)
      · exact .inr ⟨pre, channels, mid ++ [e], by simp, by simpa [or_imp, forall_and, hcreates] using hmid⟩

theorem seen_created (pre : List Event) (channels : Channels) (mid : List Event) (hmid : ∀ e ∈ mid, e.creates = false) :
    (seen (pre ++ .start channels true :: mid)).sender = none ↔ Ended (seen (pre ++ [.start channels true])) mid := by
  have hcreated : seen (pre ++ [.start channels true]) = { seen pre with stopped := false, sender := some .waiting } :=
    Lib.Machine.run_snoc _
  have hsplit : pre ++ .start channels true :: mid = pre ++ [.start channels true] ++ mid := by simp
  rw [hsplit, seen, Lib.Machine.run_append]
  exact ended_iff (by rw [← seen, hcreated]) (by rw [← seen, hcreated]; nofun) hmid

def oneChannel : Channels := fun ch => if ch.val = 0 then 1 else 0

/-- Senders that wait, and nothing to wake them. -/
structure Asleep (s : St) : Prop where
  waiting : ∀ pc ∈ s.senders, pc = .waiting
  noToken : s.timerSema = 0

/-- Without a tick they stay. -/
theorem asleep_stays {s : St} (hs : Asleep s) {events : List Event} (h : ∀ e ∈ events, e = .stop ∨ ∃ i snr, e = .sender i snr) :
    Asleep (Lib.Machine.run step s events) ∧ (Lib.Machine.run step s events).senders = s.senders := by
  induction events generalizing s with
  | nil => exact ⟨hs, rfl⟩
  | cons e events ih =>
    have hsame : Asleep (step s e) ∧ (step s e).senders = s.senders := by
      rcases h e (by simp) with rfl | ⟨i, snr, rfl⟩
      · obtain ⟨hsenders, hsem⟩ := stop_keeps s
        exact ⟨⟨by rw [hsenders]; exact hs.waiting, hsem.trans hs.noToken⟩, hsenders⟩
      · have hblocked : step s (.sender i snr) = s := by
          unfold step monitorTxThread
          dsimp only
          cases hpc : s.senders[i]? with
          | none => rfl
          | some pc =>
            rw [hs.waiting pc (List.mem_of_getElem? hpc)]
            exact if_pos hs.noToken
        rw [hblocked]
        exact ⟨hs, rfl⟩
    obtain ⟨hlast, hkept⟩ := ih hsame.1 (fun e' he' => h e' (by simp [he']))
    exact ⟨hlast, hkept.trans hsame.2⟩

/-- A sender asleep when the monitor is stopped is joined by another at the next start. -/
theorem restart_doubles {s : St} (hs : Asleep s) (hone : s.senders.length = 1) {events : List Event}
    (h : ∀ e ∈ events, e = .stop ∨ ∃ i snr, e = .sender i snr) (channels : Channels) :
    (Lib.Machine.run step s (events ++ [.start channels true])).senders.length = 2 := by
  rw [Lib.Machine.run_snoc, senders_start, (asleep_stays hs h).2]
  simp [hone]

end AmebaLinux.Cmds.Captouch.Monitor
