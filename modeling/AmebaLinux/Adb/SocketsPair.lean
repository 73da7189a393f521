/-
  AmebaLinux.Adb.SocketsPair — one stream: two sockets that are each other's peer, and the
  packets between them.

  `Half` is what holds of one direction; `Pair` is both. Whatever a socket does is one of
  four things, and each keeps `Pair`: it goes on (`Pair.goOn`), it closes (`Pair.close`), it
  writes out its queue while closing (`Pair.linger`), or it is past caring about a packet
  (`Pair.ignore`).
-/

import AmebaLinux.Adb.Sockets
import AmebaLinux.Lib.StopAndWait

namespace AmebaLinux.Adb.Sockets

open AmebaLinux.Adb.Packets (maxPayload)
open AmebaLinux.Lib.StopAndWait

/-! ## The loops -/

theorem writeLoop_split (retry : Bool) (ws : List WriteResult) (p : List UInt8) :
    (writeLoop retry ws p).out ++ (writeLoop retry ws p).left = p := by
  induction ws generalizing p with
  | nil => simp [writeLoop]
  | cons w ws ih =>
    by_cases hp : p = []
    · cases w <;> simp [writeLoop, hp]
    · cases w with
      | eintr => cases retry <;> simp [writeLoop, hp, ih]
      | _ => simp [writeLoop, hp, ih]

theorem writeLoop_done (retry : Bool) (ws : List WriteResult) (p : List UInt8)
    (h : (writeLoop retry ws p).outcome = .done) : (writeLoop retry ws p).left = [] := by
  induction ws generalizing p with
  | nil =>
    by_cases hp : p = []
    · simp [writeLoop, hp]
    · simp [writeLoop, hp] at h
  | cons w ws ih =>
    by_cases hp : p = []
    · cases w <;> simp [writeLoop, hp]
    · cases w with
      | wrote k =>
        simp only [writeLoop, hp, if_false] at h ⊢
        exact ih _ h
      | eintr =>
        cases retry
        · simp [writeLoop, hp] at h
        · simp only [writeLoop, hp, if_false, if_true] at h ⊢
          exact ih p h
      | _ => simp [writeLoop, hp] at h

/-- What is written comes from the front of the queue, and the rest stays in order. -/
theorem drainLoop_split (pkts : List (List UInt8)) (ws : List WriteResult) :
    (drainLoop pkts ws).1 ++ (drainLoop pkts ws).2.1.flatten = pkts.flatten := by
  induction pkts generalizing ws with
  | nil => rfl
  | cons p ps ih =>
    have hp := writeLoop_split true ws p
    rw [drainLoop]
    cases ho : (writeLoop true ws p).outcome with
    | done =>
      rw [writeLoop_done true ws p ho, List.append_nil] at hp
      simp [hp, ih]
    | again => simp [← List.append_assoc, hp]
    | failed => simp [← List.append_assoc, hp]

theorem drainLoop_done_iff (pkts : List (List UInt8)) (ws : List WriteResult) :
    (drainLoop pkts ws).2.2 = .done ↔ (drainLoop pkts ws).2.1 = [] := by
  induction pkts generalizing ws with
  | nil => simp [drainLoop]
  | cons p ps ih =>
    rw [drainLoop]
    cases ho : (writeLoop true ws p).outcome with
    | done => simpa [ho] using ih _
    | again => simp
    | failed => simp

theorem drainLoop_length (pkts : List (List UInt8)) (ws : List WriteResult) :
    (drainLoop pkts ws).2.1.length ≤ pkts.length := by
  induction pkts generalizing ws with
  | nil => rfl
  | cons p ps ih =>
    rw [drainLoop]
    cases ho : (writeLoop true ws p).outcome with
    | done => exact (ih _).trans (by simp)
    | again => simp
    | failed => simp

theorem readLoop_length (avail : Nat) (rs : List ReadResult) : (readLoop avail rs).1.length ≤ avail := by
  induction rs generalizing avail with
  | nil => simp [readLoop]
  | cons r rs ih =>
    by_cases none : avail = 0
    · cases r <;> simp [readLoop, none]
    · cases r with
      | data b bs =>
        have rest := ih (avail - ((b :: bs).take avail).length)
        have first := List.length_take_le avail (b :: bs)
        simp only [readLoop, none, if_false, List.length_append]
        omega
      | eintr => simpa [readLoop, none] using ih avail
      | _ => simp [readLoop, none]

/-! ## The packets of one stream -/

/-- The data under way. -/
def flight (c : List Packet) : List (List UInt8) :=
  c.filterMap fun
    | .aWrte _ _ data => some data
    | _ => none

def okays (c : List Packet) : Nat :=
  c.countP fun
    | .aOkay _ _ => true
    | _ => false

@[simp] theorem flight_nil : flight [] = [] := rfl
@[simp] theorem flight_append (c d : List Packet) : flight (c ++ d) = flight c ++ flight d := List.filterMap_append
@[simp] theorem flight_okay (a b : Nat) (c : List Packet) : flight (.aOkay a b :: c) = flight c := rfl
@[simp] theorem flight_clse (a b : Nat) (c : List Packet) : flight (.aClse a b :: c) = flight c := rfl
@[simp] theorem flight_wrte (a b : Nat) (d : List UInt8) (c : List Packet) :
    flight (.aWrte a b d :: c) = d :: flight c := rfl

@[simp] theorem okays_nil : okays [] = 0 := rfl
@[simp] theorem okays_append (c d : List Packet) : okays (c ++ d) = okays c + okays d := List.countP_append
@[simp] theorem okays_okay (a b : Nat) (c : List Packet) : okays (.aOkay a b :: c) = okays c + 1 := by simp [okays]
@[simp] theorem okays_clse (a b : Nat) (c : List Packet) : okays (.aClse a b :: c) = okays c := by simp [okays]
@[simp] theorem okays_wrte (a b : Nat) (d : List UInt8) (c : List Packet) :
    okays (.aWrte a b d :: c) = okays c := by simp [okays]

/-- The direction from `s` to `t`: `cout` goes to `t`, and `cin` brings its answers. -/
def lane (s t : Asocket) (cin cout : List Packet) : Lane UInt8 :=
  ⟨s.got, s.fdeRead, flight cout, t.pkts, t.put, okays cin⟩

/-- A packet that the socket `i` sends to its peer `j`. -/
inductive Sends (i j : Nat) : Packet → Prop
  | okay : Sends i j (.aOkay i j)
  | clse : Sends i j (.aClse 0 j)
  | wrte (data : List UInt8) (fits : data.length ≤ maxPayload) : Sends i j (.aWrte i j data)

structure Half (i j : Nat) (s t : Asocket) (cin cout : List Packet) : Prop where
  sends : ∀ m ∈ cout, Sends i j m
  /-- The wire keeps its order, so nothing comes behind the `A_CLSE`. -/
  closed_last : ∀ a b, cout = a ++ .aClse 0 j :: b → b = []
  closed : .aClse 0 j ∈ cout → s.phase ≠ .live
  told : s.phase ≠ .live → t.phase = .live → .aClse 0 j ∈ cout
  exact : t.phase = .live → (lane s t cin cout).Exact
  /-- A socket that `A_CLSE` closed still has what it did not write, until it is destroyed. -/
  whole : t.cause = some .peer → s.got = t.put ++ t.pkts.flatten ++ t.lost
  kept : t.phase ≠ .gone → t.lost = []
  held : t.put ++ t.pkts.flatten ++ t.lost <+: s.got
  one : s.phase = .live → t.phase = .live → (lane s t cin cout).credit = 1
  room : t.phase = .live → (lane s t cin cout).load ≤ 1
  short : t.pkts.length ≤ 1
  /-- A socket that `A_CLSE` closed has taken all that its peer sent. -/
  quiet : t.cause = some .peer → s.phase ≠ .live ∧ cout = []
  /-- An opener does not know its peer until the first `A_OKAY`. -/
  linked : t.peer = some i ∨ t.peer = none ∧ t.phase = .live ∧ ∃ rest, cout = .aOkay i j :: rest
  armed : s.phase ≠ .gone → (s.fdeWrite = true ↔ s.pkts ≠ [])
  idle : s.peer = none → s.fdeRead = false ∧ s.fdeWrite = false

structure Pair (i j : Nat) (s t : Asocket) (cin cout : List Packet) : Prop where
  there : Half i j s t cin cout
  back : Half j i t s cout cin
  met : s.peer = some j ∨ t.peer = some i

variable {i j : Nat} {s s' t : Asocket} {cin cin' cout out : List Packet} {m : Packet}

theorem Pair.symm (h : Pair i j s t cin cout) : Pair j i t s cout cin := ⟨h.back, h.there, h.met.symm⟩

/-- A live socket has sent no `A_CLSE`. -/
theorem Half.open_of_live (h : Half i j s t cin cout) (live : s.phase = .live) : .aClse 0 j ∉ cout :=
  fun mem => h.closed mem live

/-- The peer is known when any packet but the first `A_OKAY` arrives. -/
theorem Pair.peer_of_cons (h : Pair i j s t (m :: cin) cout) (other : m ≠ .aOkay j i) : s.peer = some j := by
  obtain known | ⟨-, -, rest, first⟩ := h.back.linked
  · exact known
  · injection first with head
    exact absurd head other

theorem Pair.peer_of_event (h : Pair i j s t cin cout) (wants : s.fdeRead = true ∨ s.fdeWrite = true) :
    s.peer = some j := by
  obtain known | ⟨none, -⟩ := h.back.linked
  · exact known
  · obtain ⟨read, write⟩ := h.there.idle none
    simp [read, write] at wants

theorem Pair.peer_of_dead (h : Pair i j s t cin cout) (dead : s.phase ≠ .live) : s.peer = some j := by
  obtain known | ⟨-, live, -⟩ := h.back.linked
  · exact known
  · exact absurd live dead

theorem linked_append (h : t.peer = some i ∨ t.peer = none ∧ t.phase = .live ∧ ∃ rest, cout = .aOkay i j :: rest)
    (out : List Packet) :
    t.peer = some i ∨ t.peer = none ∧ t.phase = .live ∧ ∃ rest, cout ++ out = .aOkay i j :: rest := by
  obtain known | ⟨none, live, rest, first⟩ := h
  · exact .inl known
  · exact .inr ⟨none, live, rest ++ out, by rw [first, List.cons_append]⟩

theorem nil_of_append_last {x : Packet} {c a b : List Packet} (new : x ∉ c) (h : c ++ [x] = a ++ x :: b) : b = [] := by
  obtain rfl | ⟨b, y, rfl⟩ := List.eq_nil_or_concat b
  · rfl
  · rw [List.concat_eq_append, ← List.cons_append, ← List.append_assoc] at h
    have front : c = a ++ x :: b := (List.append_inj' h rfl).1
    exact absurd (by simp [front]) new

/-! ## What a socket can do -/

/-- It takes what arrived, if anything, and stays open. -/
theorem Pair.goOn (taken : List Packet) (h : Pair i j s t (taken ++ cin) cout) (live : s.phase = .live) (live' : s'.phase = .live)
    (peer : s'.peer = some j) (cause : s'.cause = s.cause) (lost : s'.lost = s.lost) (sends : ∀ m ∈ out, Sends i j m)
    (open_ : .aClse 0 j ∉ out) (heard : .aClse 0 i ∉ taken) (got : s.got <+: s'.got)
    (there : (lane s t (taken ++ cin) cout).Keeps (lane s' t cin (cout ++ out)))
    (back : (lane t s cout (taken ++ cin)).Eases (lane t s' (cout ++ out) cin))
    (armed : s'.fdeWrite = true ↔ s'.pkts ≠ []) : Pair i j s' t cin (cout ++ out) := by
  have unclosed : .aClse 0 j ∉ cout ++ out := by
    simpa using ⟨h.there.open_of_live live, open_⟩
  have none' : s'.lost = [] := lost.trans (h.back.kept (by simp [live]))
  have exact' : (lane t s' (cout ++ out) cin).Exact := back.exact (h.back.exact live)
  have room' : (lane t s' (cout ++ out) cin).load ≤ 1 := back.less.trans (h.back.room live)
  refine ⟨⟨?_, ?_, ?_, ?_, ?_, ?_, ?_, ?_, ?_, ?_, ?_, ?_, ?_, ?_, ?_⟩,
    ⟨?_, ?_, ?_, ?_, ?_, ?_, ?_, ?_, ?_, ?_, ?_, ?_, ?_, ?_, ?_⟩, .inl peer⟩
  · intro m mem
    exact (List.mem_append.mp mem).elim (h.there.sends m) (sends m)
  · intro a b e
    exact absurd (by simp [e]) unclosed
  · exact fun mem => absurd mem unclosed
  · exact fun dead => absurd live' dead
  · exact fun livet => there.exact (h.there.exact livet)
  · exact fun byPeer => absurd live (h.there.quiet byPeer).1
  · exact h.there.kept
  · exact h.there.held.trans got
  · exact fun _ livet => there.one (h.there.one live livet)
  · exact fun livet => Lane.load_le_one (there.one (h.there.one live livet))
  · exact h.there.short
  · exact fun byPeer => absurd live (h.there.quiet byPeer).1
  · exact linked_append h.there.linked out
  · exact fun _ => armed
  · simp [peer]
  · exact fun m mem => h.back.sends m (List.mem_append_right _ mem)
  · exact fun a b e => h.back.closed_last (taken ++ a) b (by rw [e, List.append_assoc])
  · exact fun mem => h.back.closed (List.mem_append_right _ mem)
  · intro dead _
    exact (List.mem_append.mp (h.back.told dead live)).resolve_left heard
  · exact fun _ => exact'
  · intro byPeer
    have empty := (List.append_eq_nil_iff.mp (h.back.quiet (cause ▸ byPeer)).2).2
    simpa [lane, Lane.Exact, empty, none'] using exact'
  · exact fun _ => none'
  · rw [none', List.append_nil]
    exact exact'.given_le
  · exact fun livet _ => back.one (h.back.one livet live)
  · exact fun _ => room'
  · exact (Nat.le_add_left _ _).trans room'
  · intro byPeer
    obtain ⟨dead, none⟩ := h.back.quiet (cause ▸ byPeer)
    exact ⟨dead, (List.append_eq_nil_iff.mp none).2⟩
  · exact .inl peer
  · exact h.back.armed
  · exact h.back.idle

/-- It closes, and says so. -/
theorem Pair.close (taken : List Packet) (h : Pair i j s t (taken ++ cin) cout) (live : s.phase = .live) (dead : s'.phase ≠ .live)
    (peer : s'.peer = some j) (got : s'.got = s.got) (held : s'.put ++ s'.pkts.flatten <+: t.got)
    (pkts : s'.pkts = s.pkts) (lost : s'.lost = s.lost) (armed : s'.phase ≠ .gone → s'.fdeWrite = s.fdeWrite)
    (byPeer : s'.cause = some .peer → t.phase ≠ .live ∧ cin = [] ∧ t.got = s'.put ++ s'.pkts.flatten) :
    Pair i j s' t cin (cout ++ [.aClse 0 j]) := by
  have none' : s'.lost = [] := lost.trans (h.back.kept (by simp [live]))
  refine ⟨⟨?_, ?_, ?_, ?_, ?_, ?_, ?_, ?_, ?_, ?_, ?_, ?_, ?_, ?_, ?_⟩,
    ⟨?_, ?_, ?_, ?_, ?_, ?_, ?_, ?_, ?_, ?_, ?_, ?_, ?_, ?_, ?_⟩, .inl peer⟩
  · intro m mem
    obtain old | new := List.mem_append.mp mem
    · exact h.there.sends m old
    · rw [List.mem_singleton.mp new]
      exact .clse
  · exact fun a b => nil_of_append_last (h.there.open_of_live live)
  · exact fun _ => dead
  · exact fun _ _ => by simp
  · intro livet
    have old := h.there.exact livet
    simpa [lane, Lane.Exact, got] using old
  · exact fun closed => absurd live (h.there.quiet closed).1
  · exact h.there.kept
  · exact got ▸ h.there.held
  · exact fun live' => absurd live' dead
  · intro livet
    have old := h.there.room livet
    simpa [lane, Lane.load] using old
  · exact h.there.short
  · exact fun closed => absurd live (h.there.quiet closed).1
  · exact linked_append h.there.linked _
  · intro notGone
    rw [armed notGone, pkts]
    exact h.there.armed (by simp [live])
  · simp [peer]
  · exact fun m mem => h.back.sends m (List.mem_append_right _ mem)
  · exact fun a b e => h.back.closed_last (taken ++ a) b (by rw [e, List.append_assoc])
  · exact fun mem => h.back.closed (List.mem_append_right _ mem)
  · exact fun _ live' => absurd live' dead
  · exact fun live' => absurd live' dead
  · intro closed
    rw [none', List.append_nil]
    exact (byPeer closed).2.2
  · exact fun _ => none'
  · rw [none', List.append_nil]
    exact held
  · exact fun _ live' => absurd live' dead
  · exact fun live' => absurd live' dead
  · exact pkts ▸ h.back.short
  · exact fun closed => ⟨(byPeer closed).1, (byPeer closed).2.1⟩
  · exact .inl peer
  · exact h.back.armed
  · exact h.back.idle

/-- Already closing, it writes from its queue or is destroyed. -/
theorem Pair.linger (h : Pair i j s t cin cout) (dead : s.phase ≠ .live) (dead' : s'.phase ≠ .live)
    (peer : s'.peer = s.peer) (cause : s'.cause = s.cause) (got : s'.got = s.got)
    (same : s'.put ++ s'.pkts.flatten ++ s'.lost = s.put ++ s.pkts.flatten ++ s.lost)
    (kept : s'.phase ≠ .gone → s'.lost = []) (fewer : s'.pkts.length ≤ s.pkts.length)
    (armed : s'.phase ≠ .gone → (s'.fdeWrite = true ↔ s'.pkts ≠ [])) : Pair i j s' t cin cout := by
  have peer' : s'.peer = some j := peer.trans (h.peer_of_dead dead)
  refine ⟨{ h.there with
      closed := fun _ => dead'
      told := fun _ => h.there.told dead
      exact := ?_
      whole := fun closed => got ▸ h.there.whole closed
      held := got ▸ h.there.held
      one := fun live => absurd live dead'
      quiet := fun closed => ⟨dead', (h.there.quiet closed).2⟩
      armed
      idle := by simp [peer'] }, { h.back with
      told := fun _ live => absurd live dead'
      exact := fun live => absurd live dead'
      whole := fun closed => same ▸ h.back.whole (cause ▸ closed)
      kept
      held := same ▸ h.back.held
      one := fun _ live => absurd live dead'
      room := fun live => absurd live dead'
      short := fewer.trans h.back.short
      quiet := fun closed => h.back.quiet (cause ▸ closed)
      linked := .inl peer' }, .inl peer'⟩
  intro livet
  have old := h.there.exact livet
  simpa [lane, Lane.Exact, got] using old

/-- A packet finds no socket any more. -/
theorem Pair.ignore (h : Pair i j s t (m :: cin) cout) (dead : s.phase ≠ .live) : Pair i j s t cin cout := by
  have notPeer : s.cause ≠ some .peer := fun closed => by simpa using (h.back.quiet closed).2
  exact ⟨{ h.there with one := fun live => absurd live dead }, { h.back with
      sends := fun x mem => h.back.sends x (List.mem_cons_of_mem _ mem)
      closed_last := fun a b e => h.back.closed_last (m :: a) b (by rw [e, List.cons_append])
      closed := fun mem => h.back.closed (List.mem_cons_of_mem _ mem)
      told := fun _ live => absurd live dead
      exact := fun live => absurd live dead
      one := fun _ live => absurd live dead
      room := fun live => absurd live dead
      quiet := fun closed => absurd closed notPeer
      linked := .inl (h.peer_of_dead dead) }, h.met⟩

/-! ## The functions of a socket -/

/-- Closing touches neither the history nor the peer's id; the queue is kept or discarded. -/
structure ClosedFrom (s s' : Asocket) : Prop where
  dead : s'.phase ≠ .live
  peer : s'.peer = s.peer
  got : s'.got = s.got
  put : s'.put = s.put
  rest : s'.pkts.flatten ++ s'.lost = s.pkts.flatten ++ s.lost
  fewer : s'.pkts.length ≤ s.pkts.length
  write : s'.phase ≠ .gone → s'.fdeWrite = s.fdeWrite

theorem localSocketClose_closed (c : Cause) (s : Asocket) : ClosedFrom s (localSocketClose c s).1 := by
  unfold localSocketClose
  split
  · split <;> exact ⟨by simp, rfl, rfl, rfl, rfl, le_refl _, by simp⟩
  · exact ⟨by simp, rfl, rfl, rfl, rfl, Nat.zero_le _, by simp⟩

theorem localSocketClose_live (c : Cause) (live : s.phase = .live) (known : s.peer = some j) :
    (localSocketClose c s).1.cause = some c ∧ (localSocketClose c s).2 = [.aClse 0 j] := by
  unfold localSocketClose
  rw [live]
  by_cases empty : s.pkts = [] <;> simp [empty, known, remoteSocketClose]

/-- An open socket keeps its queue. -/
theorem localSocketClose_queue (c : Cause) (live : s.phase = .live) :
    (localSocketClose c s).1.pkts = s.pkts ∧ (localSocketClose c s).1.lost = s.lost := by
  unfold localSocketClose
  rw [live]
  by_cases empty : s.pkts = [] <;> simp [empty]

theorem localSocketClose_dead (c : Cause) (dead : s.phase ≠ .live) :
    (localSocketClose c s).1.phase = .gone ∧ (localSocketClose c s).1.cause = s.cause ∧ (localSocketClose c s).2 = [] := by
  unfold localSocketClose
  cases phase : s.phase with
  | live => exact absurd phase dead
  | _ => exact ⟨rfl, rfl, rfl⟩

/-- What an open socket has written or queued came from its peer. -/
theorem Half.queued_le (h : Half i j s t cin cout) : t.put ++ t.pkts.flatten <+: s.got :=
  (List.prefix_append _ _).trans h.held

/-- Closing for a reason of its own. -/
theorem Pair.giveUp (h : Pair i j s t cin cout) (live : s.phase = .live) (known : s.peer = some j) {c : Cause}
    (own : c ≠ .peer) : Pair i j (localSocketClose c s).1 t cin (cout ++ (localSocketClose c s).2) := by
  have closed := localSocketClose_closed c s
  obtain ⟨cause, sent⟩ := localSocketClose_live c live known
  rw [sent]
  obtain ⟨pkts, lost⟩ := localSocketClose_queue c live
  refine Pair.close [] h live closed.dead (closed.peer.trans known) closed.got ?_ pkts lost closed.write ?_
  · rw [closed.put, pkts]
    exact h.back.queued_le
  · intro byPeer
    rw [cause] at byPeer
    exact absurd (Option.some.inj byPeer) own

theorem Pair.destroy (h : Pair i j s t cin cout) (dead : s.phase ≠ .live) (c : Cause) :
    Pair i j (localSocketClose c s).1 t cin (cout ++ (localSocketClose c s).2) := by
  have closed := localSocketClose_closed c s
  obtain ⟨gone, cause, sent⟩ := localSocketClose_dead c dead
  rw [sent, List.append_nil]
  exact h.linger dead closed.dead closed.peer cause closed.got
    (by rw [closed.put, List.append_assoc, closed.rest, List.append_assoc]) (absurd gone) closed.fewer (absurd gone)

theorem Pair.okay (h : Pair i j s t (.aOkay j i :: cin) cout) (live : s.phase = .live) (ws : List WriteResult) :
    Pair i j (handleFound i s ws (.aOkay j i)).1 t cin (cout ++ (handleFound i s ws (.aOkay j i)).2) := by
  have peer : some (s.peer.getD j) = some j := by
    obtain known | ⟨none, -⟩ := h.back.linked
    · simp [known]
    · simp [none]
  refine Pair.goOn [.aOkay j i] h live live peer rfl rfl (by simp [handleFound]) (by simp [handleFound])
    (by simp) (List.prefix_refl _) ?_ ?_
    (h.there.armed (by simp [live]))
  · simpa [lane, handleFound, localSocketReady] using Lane.Step.resume.keeps
  · simpa [lane, handleFound, localSocketReady] using Lane.Eases.refl _

theorem Pair.clse (h : Pair i j s t (.aClse 0 i :: cin) cout) (live : s.phase = .live) (ws : List WriteResult) :
    Pair i j (handleFound i s ws (.aClse 0 i)).1 t cin (cout ++ (handleFound i s ws (.aClse 0 i)).2) := by
  have known : s.peer = some j := h.peer_of_cons (by simp)
  have closed := localSocketClose_closed .peer s
  obtain ⟨-, sent⟩ := localSocketClose_live .peer live known
  -- the data came before the `A_CLSE`
  have last : cin = [] := h.back.closed_last [] cin rfl
  have all : t.got = s.put ++ s.pkts.flatten := by
    simpa [lane, Lane.Exact, last] using h.back.exact live
  obtain ⟨pkts, lost⟩ := localSocketClose_queue .peer live
  simp only [handleFound, sent]
  refine Pair.close [.aClse 0 i] h live closed.dead (closed.peer.trans known) closed.got ?_ pkts lost closed.write ?_
  · rw [closed.put, pkts]
    exact h.back.queued_le
  · intro _
    rw [closed.put, pkts]
    exact ⟨h.back.closed (by simp), last, all⟩

section Wrte

variable {data : List UInt8} {ws : List WriteResult} (rid : Nat)

theorem handleFound_wrte_backlog (busy : s.pkts ≠ []) :
    handleFound i s ws (.aWrte rid i data) = ({ s with pkts := s.pkts ++ [data], fdeWrite := true }, []) := by
  simp [handleFound, localSocketEnqueue, busy]

theorem handleFound_wrte_done (empty : s.pkts = []) (outcome : (writeLoop false ws data).outcome = .done) :
    handleFound i s ws (.aWrte rid i data) = ({ s with put := s.put ++ data }, [.aOkay i rid]) := by
  have split := writeLoop_split false ws data
  rw [writeLoop_done false ws data outcome, List.append_nil] at split
  simp [handleFound, localSocketEnqueue, empty, outcome, split]

theorem handleFound_wrte_again (empty : s.pkts = []) (outcome : (writeLoop false ws data).outcome = .again) :
    handleFound i s ws (.aWrte rid i data) =
      ({ s with
          put := s.put ++ (writeLoop false ws data).out
          pkts := [(writeLoop false ws data).left]
          fdeWrite := true }, []) := by
  simp [handleFound, localSocketEnqueue, empty, outcome]

theorem handleFound_wrte_failed (empty : s.pkts = []) (outcome : (writeLoop false ws data).outcome = .failed) :
    handleFound i s ws (.aWrte rid i data) =
      localSocketClose .error { s with put := s.put ++ (writeLoop false ws data).out } := by
  simp [handleFound, localSocketEnqueue, empty, outcome]

end Wrte

/-- The part of a packet that was written before the write failed. -/
theorem Pair.fail {x y : List UInt8} (h : Pair i j s t (.aWrte j i (x ++ y) :: cin) cout) (live : s.phase = .live)
    (empty : s.pkts = []) :
    Pair i j (localSocketClose .error { s with put := s.put ++ x }).1 t cin
      (cout ++ (localSocketClose .error { s with put := s.put ++ x }).2) := by
  have known : s.peer = some j := h.peer_of_cons (by simp)
  have closed := localSocketClose_closed .error { s with put := s.put ++ x }
  obtain ⟨cause, sent⟩ := localSocketClose_live (j := j) (s := { s with put := s.put ++ x }) .error live known
  have all : t.got = s.put ++ (x ++ (y ++ (flight cin).flatten)) := by
    simpa [lane, Lane.Exact, empty] using h.back.exact live
  obtain ⟨pkts, lost⟩ := localSocketClose_queue (s := { s with put := s.put ++ x }) .error live
  rw [sent]
  refine Pair.close [.aWrte j i (x ++ y)] h live closed.dead (closed.peer.trans known) closed.got ?_ pkts lost closed.write
    (by simp [cause])
  rw [closed.put, pkts, empty, all]
  simp

theorem Pair.wrte {data : List UInt8} (h : Pair i j s t (.aWrte j i data :: cin) cout) (live : s.phase = .live)
    (ws : List WriteResult) :
    Pair i j (handleFound i s ws (.aWrte j i data)).1 t cin (cout ++ (handleFound i s ws (.aWrte j i data)).2) := by
  have known : s.peer = some j := h.peer_of_cons (by simp)
  have split := writeLoop_split false ws data
  by_cases empty : s.pkts = []
  · cases outcome : (writeLoop false ws data).outcome with
    | done =>
      rw [handleFound_wrte_done j empty outcome]
      refine Pair.goOn [.aWrte j i data] h live live known rfl rfl ?_ (by simp) (by simp) (List.prefix_refl _) ?_ ?_
        (h.there.armed (by simp [live]))
      · simpa using Sends.okay
      · simpa [lane] using Lane.Keeps.refl _
      · simpa [lane, empty] using (Lane.Step.accept data).eases rfl
    | again =>
      rw [handleFound_wrte_again j empty outcome]
      generalize (writeLoop false ws data).out = x, (writeLoop false ws data).left = y at split
      subst split
      refine Pair.goOn [.aWrte j i (x ++ y)] h live live known rfl rfl (by simp) (by simp) (by simp) (List.prefix_refl _)
        ?_ ?_ (by simp)
      · simpa [lane] using Lane.Keeps.refl _
      · simpa [lane, empty] using (Lane.Step.hold x y).eases rfl
    | failed =>
      rw [handleFound_wrte_failed j empty outcome]
      generalize (writeLoop false ws data).out = x, (writeLoop false ws data).left = y at split
      subst split
      exact h.fail live empty
  · rw [handleFound_wrte_backlog j empty]
    refine Pair.goOn [.aWrte j i data] h live live known rfl rfl (by simp) (by simp) (by simp) (List.prefix_refl _) ?_ ?_
      (by simp)
    · simpa [lane] using Lane.Keeps.refl _
    · simpa [lane] using (Lane.Step.append data empty).eases rfl

section Events

variable {ws : List WriteResult}

/-- The socket after the writes of an event. -/
def drained (s : Asocket) (ws : List WriteResult) : Asocket :=
  { s with put := s.put ++ (drainLoop s.pkts ws).1, pkts := (drainLoop s.pkts ws).2.1 }

theorem drained_same (s : Asocket) (ws : List WriteResult) :
    (drained s ws).put ++ (drained s ws).pkts.flatten = s.put ++ s.pkts.flatten := by
  simp [drained, drainLoop_split]

theorem writeEvent_again (outcome : (drainLoop s.pkts ws).2.2 = .again) :
    writeEvent i s ws = some ((drained s ws, []), false) := by
  simp [writeEvent, outcome, drained]

theorem writeEvent_failed (outcome : (drainLoop s.pkts ws).2.2 = .failed) :
    writeEvent i s ws = some (localSocketClose .error (drained s ws), false) := by
  simp [writeEvent, outcome, drained]

theorem writeEvent_dead (dead : s.phase ≠ .live) (outcome : (drainLoop s.pkts ws).2.2 = .done) :
    writeEvent i s ws = some (localSocketClose .error (drained s ws), false) := by
  simp [writeEvent, outcome, drained, dead]

theorem writeEvent_done (live : s.phase = .live) (known : s.peer = some j)
    (outcome : (drainLoop s.pkts ws).2.2 = .done) :
    writeEvent i s ws = some (({ drained s ws with fdeWrite := false }, [.aOkay i j]), true) := by
  simp [writeEvent, outcome, drained, live, known]

/-- Part of the queue is written, and some is left. -/
theorem Pair.drain (h : Pair i j s t cin cout) (live : s.phase = .live) (wants : s.fdeWrite = true)
    (left : (drainLoop s.pkts ws).2.2 ≠ .done) : Pair i j (drained s ws) t cin cout := by
  have busy := (h.there.armed (by simp [live])).mp wants
  have still : (drained s ws).pkts ≠ [] := fun none => left ((drainLoop_done_iff s.pkts ws).mpr none)
  have kept : Pair i j (drained s ws) t cin (cout ++ []) := by
    refine Pair.goOn [] h live live (h.peer_of_event (.inr wants)) rfl rfl (by simp) (by simp) (by simp)
      (List.prefix_refl _) ?_ ?_ ?_
    · simpa [lane, drained] using Lane.Keeps.refl _
    · simpa [lane, drained] using
        (Lane.Step.drain _ _ busy still (drainLoop_length s.pkts ws) (drainLoop_split s.pkts ws)).eases rfl
    · exact iff_of_true wants still
  simpa using kept

theorem Pair.write (h : Pair i j s t cin cout) (live : s.phase = .live) (wants : s.fdeWrite = true)
    (ws : List WriteResult) :
    ∃ r, writeEvent i s ws = some r ∧ Pair i j r.1.1 t cin (cout ++ r.1.2) ∧
      (r.2 = true → r.1.1.phase = .live ∧ r.1.1.fdeRead = s.fdeRead ∧ r.1.1.peer = s.peer) := by
  have known := h.peer_of_event (.inr wants)
  cases outcome : (drainLoop s.pkts ws).2.2 with
  | again =>
    refine ⟨_, writeEvent_again outcome, ?_, by simp⟩
    simpa using h.drain live wants (by simp [outcome])
  | failed =>
    exact ⟨_, writeEvent_failed outcome, (h.drain live wants (by simp [outcome])).giveUp live known (by simp), by simp⟩
  | done =>
    have busy := (h.there.armed (by simp [live])).mp wants
    have empty := (drainLoop_done_iff s.pkts ws).mp outcome
    have all := drainLoop_split s.pkts ws
    rw [empty, List.flatten_nil, List.append_nil] at all
    refine ⟨_, writeEvent_done live known outcome, ?_, fun _ => ⟨live, rfl, rfl⟩⟩
    refine Pair.goOn [] h live live known rfl rfl ?_ (by simp) (by simp) (List.prefix_refl _) ?_ ?_ (by simp [drained, empty])
    · simpa using Sends.okay
    · simpa [lane, drained] using Lane.Keeps.refl _
    · simpa [lane, drained, empty, all] using (Lane.Step.finish busy).eases rfl

/-- A closing socket is destroyed once its queue is written, or cannot be. -/
theorem Pair.finish (h : Pair i j s t cin cout) (dead : s.phase ≠ .live) (ws : List WriteResult) :
    Pair i j (localSocketClose .error (drained s ws)).1 t cin (cout ++ (localSocketClose .error (drained s ws)).2) := by
  have closed := localSocketClose_closed .error (drained s ws)
  obtain ⟨gone, cause, sent⟩ := localSocketClose_dead (s := drained s ws) .error dead
  rw [sent, List.append_nil]
  refine h.linger dead closed.dead closed.peer cause closed.got ?_ (absurd gone) ?_ (absurd gone)
  · rw [closed.put, List.append_assoc, closed.rest, ← List.append_assoc, drained_same]
    rfl
  · exact closed.fewer.trans (drainLoop_length s.pkts ws)

theorem Pair.writeLast (h : Pair i j s t cin cout) (dead : s.phase ≠ .live) (wants : s.fdeWrite = true)
    (ws : List WriteResult) :
    ∃ r, writeEvent i s ws = some r ∧ Pair i j r.1.1 t cin (cout ++ r.1.2) ∧ r.2 = false := by
  cases outcome : (drainLoop s.pkts ws).2.2 with
  | again =>
    have left : (drainLoop s.pkts ws).2.1 ≠ [] := by simp [← drainLoop_done_iff, outcome]
    have kept : Pair i j (drained s ws) t cin cout := h.linger dead dead rfl rfl rfl
      (congrArg (· ++ s.lost) (drained_same s ws)) h.back.kept (drainLoop_length s.pkts ws)
      (by simp [drained, wants, left])
    exact ⟨_, writeEvent_again outcome, by simpa using kept, rfl⟩
  | failed => exact ⟨_, writeEvent_failed outcome, h.finish dead ws, rfl⟩
  | done => exact ⟨_, writeEvent_dead dead outcome, h.finish dead ws, rfl⟩

end Events

/-- What a live socket sends of what it reads. -/
theorem Pair.take (h : Pair i j s t cin cout) (live : s.phase = .live) (wants : s.fdeRead = true) {data : List UInt8}
    (fits : data.length ≤ maxPayload) :
    Pair i j { s with got := s.got ++ data, fdeRead := false } t cin (cout ++ [.aWrte i j data]) := by
  refine Pair.goOn [] h live live (h.peer_of_event (.inl wants)) rfl rfl ?_ (by simp) (by simp) (List.prefix_append _ _)
    ?_ ?_ (h.there.armed (by simp [live]))
  · simpa using Sends.wrte data fits
  · simpa [lane, wants] using (Lane.Step.take data).keeps
  · simpa [lane] using Lane.Eases.refl _

theorem Pair.read (h : Pair i j s t cin cout) (live : s.phase = .live) {rs : List ReadResult}
    (asked : s.fdeRead = true ∨ exited s rs = true) :
    Pair i j (readEvent i s rs).1 t cin (cout ++ (readEvent i s rs).2) := by
  have known : s.peer = some j := by
    obtain wants | gone := asked
    · exact h.peer_of_event (.inl wants)
    · obtain known | ⟨none, -⟩ := h.back.linked
      · exact known
      · simp [exited, none] at gone
  simp only [readEvent, live, known, if_true]
  by_cases none : (readLoop maxPayload rs).1 = []
  · by_cases eof : (readLoop maxPayload rs).2 = true
    · simpa [none, eof] using h.giveUp live known (c := .eof) (by simp)
    · simpa [none, eof] using h
  · have wants : s.fdeRead = true := asked.resolve_right (by simp [exited, none])
    have sent := h.take live wants (readLoop_length maxPayload rs)
    by_cases eof : (readLoop maxPayload rs).2 = true
    · simpa [none, eof, live, known] using sent.giveUp live known (c := .eof) (by simp)
    · simpa [none, eof, live, known] using sent

theorem Pair.readLast (h : Pair i j s t cin cout) (dead : s.phase ≠ .live) (rs : List ReadResult) :
    Pair i j (readEvent i s rs).1 t cin (cout ++ (readEvent i s rs).2) := by
  simp only [readEvent, dead, if_false]
  by_cases eof : (readLoop maxPayload rs).2 = true
  · simpa [eof] using h.destroy dead .eof
  · simpa [eof] using h

/-- No event that a socket is given makes it call through a null pointer, and each keeps the
    stream. -/
theorem Pair.event {ws : Option (List WriteResult)} {rs : Option (List ReadResult)} (h : Pair i j s t cin cout)
    (asked : wanted s ws rs = true) :
    ∃ r, localSocketEventFunc i s ws rs = some r ∧ Pair i j r.1 t cin (cout ++ r.2) := by
  by_cases live : s.phase = .live
  · simp only [wanted, live, Bool.and_eq_true, Bool.or_eq_true] at asked
    obtain ⟨write, read⟩ := asked
    have reads : ∀ r, rs = some r → s.fdeRead = true ∨ exited s r = true := by
      intro r eq
      simpa [eq] using read
    cases ws with
    | none =>
      cases rs with
      | none => exact ⟨(s, []), rfl, by simpa using h⟩
      | some rs => exact ⟨readEvent i s rs, by simp [localSocketEventFunc], h.read live (reads rs rfl)⟩
    | some ws =>
      obtain ⟨⟨⟨s', sent⟩, goes⟩, eq, pair, same⟩ := h.write live (by simpa using write) ws
      cases rs with
      | none => exact ⟨_, by simp [localSocketEventFunc, eq], pair⟩
      | some rs =>
        cases goes with
        | false => exact ⟨_, by simp [localSocketEventFunc, eq], pair⟩
        | true =>
          obtain ⟨live', read', peer'⟩ : s'.phase = .live ∧ s'.fdeRead = s.fdeRead ∧ s'.peer = s.peer := same rfl
          refine ⟨_, by simp [localSocketEventFunc, eq]; rfl, ?_⟩
          have asked' : s'.fdeRead = true ∨ exited s' rs = true := by
            simpa [exited, read', peer'] using reads rs rfl
          simpa using pair.read live' asked'
  · cases ws with
    | none =>
      cases rs with
      | none => exact ⟨(s, []), rfl, by simpa using h⟩
      | some rs => exact ⟨readEvent i s rs, by simp [localSocketEventFunc], h.readLast live rs⟩
    | some ws =>
      have wants : s.fdeWrite = true := by
        cases phase : s.phase with
        | live => exact absurd phase live
        | closing => simpa [wanted, phase] using asked
        | gone => simp [wanted, phase] at asked
      obtain ⟨⟨⟨s', sent⟩, goes⟩, eq, pair, stops⟩ := h.writeLast live wants ws
      simp only at stops
      subst stops
      cases rs <;> exact ⟨_, by simp [localSocketEventFunc, eq], pair⟩

end AmebaLinux.Adb.Sockets
