/-
  AmebaLinux.Adb.FdeventProofs — what the event loop keeps on every run, and which events it
  hands on.

  Proved, where fdevents are used as they have to be (`Used`):
  (1) The loop never ends in `FATAL` or at a null link (`loop_never_fails`).
  (2) `fdevent_set` turns its own comment around (`pending_iff_unasked`): of the events that
      are pending it drops those that are wanted and keeps those that are not.
-/

import AmebaLinux.Adb.Fdevent

namespace AmebaLinux.Adb.Fdevent

open AmebaLinux.Lib.Dlist

/-- The pending fdevents are `xs`, in the order in which they will be called. -/
structure Good (l : Loop) (xs : List Nat) : Prop where
  rep : Rep l.links listPending xs
  pending : ∀ p, p ∈ xs ↔ ∃ f, l.fde p = some f ∧ f.pending = true
  table : ∀ fd p, l.fdTable fd = some p ↔ ∃ f, l.fde p = some f ∧ f.active = true ∧ f.fd = fd
  sets : ∀ fd, l.fds fd ≠ 0#8 → (l.fdTable fd).isSome = true
  wants : ∀ p f, l.fde p = some f → f.active = true → l.fds f.fd = f.want &&& selectable
  range : ∀ fd, (l.fdTable fd).isSome = true → fd < l.selectN
  events : ∀ p f, l.fde p = some f → (f.pending = true ↔ f.events ≠ 0#8)
  active : ∀ p f, l.fde p = some f → f.pending = true → f.active = true
  head : l.fde listPending = none
  bit : ∀ p f, l.fde p = some f → f.active = true → f.fd < fdSetsize
  bits : l.selectN ≤ fdSetsize

theorem Good.start : Good Loop.start [] where
  rep := ⟨⟨rfl, rfl⟩, by simp⟩
  pending := by simp [Loop.start]
  table := by simp [Loop.start]
  sets := by simp [Loop.start]
  wants := by simp [Loop.start]
  range := by simp [Loop.start]
  events := by simp [Loop.start]
  active := by simp [Loop.start]
  head := rfl
  bit := by simp [Loop.start]
  bits := Nat.zero_le _

section Change

variable {l l' : Loop} {xs xs' : List Nat} {p : Nat} {f f' : Fde}

theorem Good.ne_head (g : Good l xs) (hp : l.fde p = some f) : p ≠ listPending := by
  intro e
  simp [e, g.head] at hp

theorem Good.mem_of_pending (g : Good l xs) (hp : l.fde p = some f) (pend : f.pending = true) : p ∈ xs :=
  (g.pending p).mpr ⟨f, hp, pend⟩

theorem Good.not_mem (g : Good l xs) (hp : l.fde p = some f) (idle : f.pending = false) : p ∉ xs := by
  intro mem
  obtain ⟨f', hf', pend⟩ := (g.pending p).mp mem
  obtain rfl := Option.some.inj (hp.symm.trans hf')
  simp [idle] at pend

/-- The list stays as it is while an fdevent is as pending as it was. -/
theorem Good.mem_same (g : Good l xs) (hp : l.fde p = some f) {pending : Bool} (same : f.pending = pending) (q : Nat) :
    q ∈ xs ↔ if q = p then pending = true else q ∈ xs := by
  by_cases e : q = p
  · subst e
    rw [if_pos rfl, ← same]
    cases pend : f.pending with
    | false => simpa using g.not_mem hp pend
    | true => simpa using g.mem_of_pending hp pend
  · rw [if_neg e]

/-- Two active fdevents have two descriptors. -/
theorem Good.fd_inj (g : Good l xs) (hp : l.fde p = some f) {q : Nat} {f₂ : Fde} (hq : l.fde q = some f₂)
    (act : f.active = true) (act₂ : f₂.active = true) (same : f₂.fd = f.fd) : q = p := by
  have tp : l.fdTable f.fd = some p := (g.table _ _).mpr ⟨f, hp, act, rfl⟩
  have tq : l.fdTable f.fd = some q := (g.table _ _).mpr ⟨f₂, hq, act₂, same⟩
  exact Option.some.inj (tq.symm.trans tp)

/-- What is stored after an update is the new fdevent, or another that was there. -/
theorem stored_cases {fde : Nat → Option Fde} {q : Nat} {f₂ : Fde} (hq : Function.update fde p (some f) q = some f₂) :
    q = p ∧ f₂ = f ∨ q ≠ p ∧ fde q = some f₂ := by
  by_cases e : q = p
  · subst e
    rw [Function.update_self] at hq
    exact .inl ⟨rfl, (Option.some.inj hq).symm⟩
  · rw [Function.update_of_ne e] at hq
    exact .inr ⟨e, hq⟩

/-- One fdevent changes, but for its descriptor and whether it is active. -/
structure Changes (l l' : Loop) (xs xs' : List Nat) (p : Nat) (f f' : Fde) : Prop where
  was : l.fde p = some f
  fde : l'.fde = Function.update l.fde p (some f')
  fdTable : l'.fdTable = l.fdTable
  selectN : l'.selectN = l.selectN
  fd : f'.fd = f.fd
  active : f'.active = f.active
  rep : Rep l'.links listPending xs'
  mem : ∀ q, q ∈ xs' ↔ if q = p then f'.pending = true else q ∈ xs
  events : f'.pending = true ↔ f'.events ≠ 0#8
  live : f'.pending = true → f.active = true
  others : ∀ fd, fd ≠ f.fd → l'.fds fd = l.fds fd
  self : f.active = true → l'.fds f.fd = f'.want &&& selectable
  inert : f.active = false → l'.fds = l.fds

theorem Good.changes (g : Good l xs) (c : Changes l l' xs xs' p f f') : Good l' xs' := by
  have self : l'.fde p = some f' := by simp [c.fde]
  have other : ∀ q, q ≠ p → l'.fde q = l.fde q := fun q ne => by simp [c.fde, ne]
  refine ⟨c.rep, ?_, ?_, ?_, ?_, ?_, ?_, ?_, ?_, ?_, c.selectN ▸ g.bits⟩
  · intro q
    rw [c.mem]
    by_cases e : q = p
    · subst e
      simp [self]
    · rw [if_neg e, other q e]
      exact g.pending q
  · intro fd q
    rw [c.fdTable]
    by_cases e : q = p
    · subst e
      rw [g.table, self, c.was]
      simp [c.fd, c.active]
    · rw [other q e]
      exact g.table fd q
  · intro fd some
    rw [c.fdTable]
    by_cases act : f.active = true
    · by_cases e : fd = f.fd
      · have : l.fdTable f.fd = Option.some p := (g.table _ _).mpr ⟨f, c.was, act, rfl⟩
        simp [e, this]
      · exact g.sets fd (c.others fd e ▸ some)
    · exact g.sets fd (c.inert (by simpa using act) ▸ some)
  · intro q f₂ hq act
    rcases stored_cases (c.fde ▸ hq) with ⟨rfl, rfl⟩ | ⟨e, hq⟩
    · rw [c.fd]
      exact c.self (c.active ▸ act)
    · by_cases act' : f.active = true
      · have ne : f₂.fd ≠ f.fd := fun same => e (g.fd_inj c.was hq act' act same)
        rw [c.others _ ne]
        exact g.wants q f₂ hq act
      · rw [c.inert (by simpa using act')]
        exact g.wants q f₂ hq act
  · intro fd
    rw [c.fdTable, c.selectN]
    exact g.range fd
  · intro q f₂ hq
    rcases stored_cases (c.fde ▸ hq) with ⟨rfl, rfl⟩ | ⟨-, hq⟩
    · exact c.events
    · exact g.events q f₂ hq
  · intro q f₂ hq pend
    rcases stored_cases (c.fde ▸ hq) with ⟨rfl, rfl⟩ | ⟨-, hq⟩
    · rw [c.active]
      exact c.live pend
    · exact g.active q f₂ hq pend
  · rw [other _ (g.ne_head c.was).symm]
    exact g.head
  · intro q f₂ hq act
    rcases stored_cases (c.fde ▸ hq) with ⟨rfl, rfl⟩ | ⟨-, hq⟩
    · rw [c.fd]
      exact g.bit q f c.was (c.active ▸ act)
    · exact g.bit q f₂ hq act

end Change

/-! ## The functions -/

section Functions

variable {l : Loop} {xs : List Nat} {p : Nat} {f : Fde}

/-- Taking a pending fdevent out of the list. -/
theorem Good.unlink (g : Good l xs) (hp : l.fde p = some f) (pend : f.pending = true) :
    ∃ links xs', l.links.unlink p = some links ∧ Rep links listPending xs' ∧ ∀ q, q ∈ xs' ↔ q ≠ p ∧ q ∈ xs := by
  obtain ⟨us, vs, eq⟩ := List.append_of_mem (g.mem_of_pending hp pend)
  obtain ⟨links, unlink, rep, -⟩ := (eq ▸ g.rep).unlink
  have distinct : (us ++ p :: vs).Nodup := eq ▸ (List.nodup_cons.mp g.rep.nodup).2
  rw [List.nodup_append, List.nodup_cons] at distinct
  refine ⟨links, us ++ vs, unlink, rep, ?_⟩
  intro q
  simp only [eq, List.mem_append, List.mem_cons]
  constructor
  · intro mem
    rcases mem with mem | mem
    · exact ⟨distinct.2.2 q mem p (by simp), .inl mem⟩
    · refine ⟨?_, .inr (.inr mem)⟩
      intro e
      exact distinct.2.1.1 (e ▸ mem)
  · intro ⟨ne, mem⟩
    rcases mem with mem | rfl | mem
    · exact .inl mem
    · exact absurd rfl ne
    · exact .inr mem

/-- The loop once the descriptor sets are as `events` says. -/
def wanting (l : Loop) (f : Fde) (events : Events) : Loop :=
  if f.active then { l with fds := Function.update l.fds f.fd (events &&& selectable) } else l

theorem updated_eq {events : Events} (bit : f.active = true → f.fd < fdSetsize) :
    updated l f events = some (wanting l f events) := by
  unfold updated wanting
  split
  · rename_i act
    rw [fdeventUpdate, if_neg (Nat.not_le.mpr (bit act))]
  · rfl

@[simp] theorem wanting_fde (events : Events) : (wanting l f events).fde = l.fde := by
  unfold wanting; split <;> rfl

@[simp] theorem wanting_links (events : Events) : (wanting l f events).links = l.links := by
  unfold wanting; split <;> rfl

@[simp] theorem wanting_fdTable (events : Events) : (wanting l f events).fdTable = l.fdTable := by
  unfold wanting; split <;> rfl

@[simp] theorem wanting_selectN (events : Events) : (wanting l f events).selectN = l.selectN := by
  unfold wanting; split <;> rfl

theorem wanting_others {events : Events} {fd : Nat} (ne : fd ≠ f.fd) : (wanting l f events).fds fd = l.fds fd := by
  unfold wanting
  split <;> simp [ne]

theorem wanting_self {events : Events} (act : f.active = true) :
    (wanting l f events).fds f.fd = events &&& selectable := by
  simp [wanting, act]

theorem wanting_inert {events : Events} (act : f.active = false) : (wanting l f events).fds = l.fds := by
  simp [wanting, act]

theorem fdeventSet_same (hp : l.fde p = some f) : fdeventSet l p f.want = some l := by
  simp [fdeventSet, hp]

theorem Good.set_idle (g : Good l xs) (hp : l.fde p = some f) {events : Events} (new : f.want ≠ events)
    (idle : f.pending = false) :
    fdeventSet l p events = some ((wanting l f events).store p { f with want := events }) := by
  simp [fdeventSet, hp, new, idle, updated_eq (g.bit p f hp)]

theorem Good.set_keep (g : Good l xs) (hp : l.fde p = some f) {events : Events} (new : f.want ≠ events)
    (pend : f.pending = true) (left : f.events &&& ~~~events ≠ 0#8) :
    fdeventSet l p events =
      some ((wanting l f events).store p { f with want := events, events := f.events &&& ~~~events }) := by
  simp [fdeventSet, hp, new, pend, left, updated_eq (g.bit p f hp)]

theorem Good.set_drop (g : Good l xs) (hp : l.fde p = some f) {events : Events} (new : f.want ≠ events)
    (pend : f.pending = true) (none : f.events &&& ~~~events = 0#8) :
    fdeventSet l p events = (l.links.unlink p).map fun links =>
      { (wanting l f events).store p { f with want := events, events := 0#8, pending := false } with links } := by
  cases unlink : l.links.unlink p <;>
    simp [fdeventSet, hp, new, pend, none, updated_eq (g.bit p f hp), fdeventPlistRemove, unlink, Loop.store]

theorem Good.set (g : Good l xs) (hp : l.fde p = some f) (events : Events) :
    ∃ l' xs', fdeventSet l p events = some l' ∧ Good l' xs' := by
  by_cases new : f.want = events
  · subst new
    exact ⟨l, xs, fdeventSet_same hp, g⟩
  cases pend : f.pending with
  | false =>
    refine ⟨_, xs, g.set_idle hp new pend, g.changes (?_ : Changes l _ xs xs p f { f with want := events })⟩
    refine ⟨hp, by simp [Loop.store], by simp [Loop.store], by simp [Loop.store], rfl, rfl, by simpa [Loop.store] using g.rep,
      g.mem_same hp rfl, g.events p f hp, g.active p f hp, fun _ => wanting_others, wanting_self, wanting_inert⟩
  | true =>
    by_cases left : f.events &&& ~~~events = 0#8
    · obtain ⟨links, xs', unlink, rep, mem⟩ := g.unlink hp pend
      refine ⟨{ (wanting l f events).store p { f with want := events, events := 0#8, pending := false } with links }, xs',
        by rw [g.set_drop hp new pend left, unlink]; rfl,
        g.changes (?_ : Changes l _ xs xs' p f { f with want := events, events := 0#8, pending := false })⟩
      refine ⟨hp, by simp [Loop.store], by simp [Loop.store], by simp [Loop.store], rfl, rfl, rep, ?_, by simp, by simp,
        fun _ => wanting_others, wanting_self, wanting_inert⟩
      intro q
      rw [mem]
      by_cases e : q = p <;> simp [e]
    · refine ⟨_, xs, g.set_keep hp new pend left,
        g.changes (?_ : Changes l _ xs xs p f { f with want := events, events := f.events &&& ~~~events })⟩
      refine ⟨hp, by simp [Loop.store], by simp [Loop.store], by simp [Loop.store], rfl, rfl,
        by simpa [Loop.store] using g.rep, g.mem_same hp rfl, by simp [pend, left], g.active p f hp,
        fun _ => wanting_others, wanting_self, wanting_inert⟩

/-- Only the events of an fdevent change, and whether and where it is pending. -/
theorem Good.report (g : Good l xs) (hp : l.fde p = some f) {pending : Bool} {events : Events} {links : Links Nat}
    {xs' : List Nat} (rep : Rep links listPending xs') (mem : ∀ q, q ∈ xs' ↔ if q = p then pending = true else q ∈ xs)
    (some : pending = true ↔ events ≠ 0#8) (live : pending = true → f.active = true) :
    Good { l.store p { f with events, pending } with links } xs' :=
  g.changes ⟨hp, rfl, rfl, rfl, rfl, rfl, rep, mem, some, live, fun _ _ => rfl, fun act => g.wants p f hp act, fun _ => rfl⟩

theorem Good.processFd (g : Good l xs) {fd : Nat} {events : Events} (known : events ≠ 0#8 → (l.fdTable fd).isSome = true) :
    ∃ l' xs', processFd l fd events = some l' ∧ Good l' xs' ∧ l'.fdTable = l.fdTable := by
  by_cases none : events = 0#8
  · exact ⟨l, xs, by simp [Fdevent.processFd, none], g, rfl⟩
  obtain ⟨p, table⟩ := Option.isSome_iff_exists.mp (known none)
  obtain ⟨f, hp, act, -⟩ := (g.table fd p).mp table
  have some : f.events ||| events ≠ 0#8 := fun zero => none (BitVec.or_eq_zero_iff.mp zero).2
  cases pend : f.pending with
  | true =>
    refine ⟨{ l.store p { f with events := f.events ||| events, pending := true } with links := l.links }, xs, ?_,
      g.report hp g.rep (g.mem_same hp pend) (by simp [some]) (fun _ => act), rfl⟩
    simp [Fdevent.processFd, none, table, hp, pend, Loop.store]
  | false =>
    have new : p ∉ listPending :: xs := by
      simpa using ⟨g.ne_head hp, g.not_mem hp pend⟩
    obtain ⟨links, append, rep⟩ := g.rep.append new
    refine ⟨{ l.store p { f with events := f.events ||| events, pending := true } with links }, xs ++ [p], ?_,
      g.report hp rep ?_ (by simp [some]) (fun _ => act), rfl⟩
    · simp [Fdevent.processFd, none, table, hp, pend, fdeventPlistEnqueue, Loop.store, append]
    · intro q
      by_cases e : q = p <;> simp [e]

/-- `select` reports only descriptors that have an fdevent. -/
theorem Good.reports_known (g : Good l xs) (a : Answer) (fd : Nat) (some : a.reports l fd ≠ 0#8) :
    (l.fdTable fd).isSome = true := by
  cases a with
  | ready events =>
    refine g.sets fd ?_
    intro zero
    simp [Answer.reports, zero] at some
  | bad isBad =>
    by_contra unknown
    simp [Answer.reports, unknown] at some

theorem Good.process (g : Good l xs) (a : Answer) : ∃ l' xs', fdeventProcess l a = some l' ∧ Good l' xs' := by
  have known := g.reports_known a
  rw [fdeventProcess, if_neg (Nat.not_lt.mpr g.bits)]
  generalize List.range l.selectN = fds
  generalize report : a.reports l = events at known ⊢
  clear report a
  -- the table stays as it is while the descriptors are gone through
  induction fds generalizing l xs with
  | nil => exact ⟨l, xs, rfl, g⟩
  | cons fd fds ih =>
    obtain ⟨l₁, xs₁, eq, g₁, table⟩ := g.processFd (known fd)
    obtain ⟨l', xs', eq', g'⟩ := ih g₁ (fun fd some => table ▸ known fd some)
    exact ⟨l', xs', by rw [List.foldlM_cons, eq]; exact eq', g'⟩

theorem fdeventCallFdfunc_pending (hp : l.fde p = some f) (pend : f.pending = true) :
    fdeventCallFdfunc l p = some (l.store p { f with events := 0#8, pending := false }, some f.events) := by
  simp [fdeventCallFdfunc, hp, pend]

theorem Good.dispatch (g : Good l xs) : ∃ r xs', fdeventDispatch l = some r ∧ Good r.1 xs' := by
  cases xs with
  | nil => exact ⟨(l, none), [], by simp [fdeventDispatch, g.rep.first_nil], g⟩
  | cons p xs =>
    obtain ⟨f, hp, pend⟩ := (g.pending p).mp (by simp)
    obtain ⟨links, xs', unlink, rep, mem⟩ := g.unlink hp pend
    have call : fdeventDispatch l =
        some ({ l.store p { f with events := 0#8, pending := false } with links }, some f.events) := by
      simp only [fdeventDispatch, g.rep.first_cons, fdeventPlistRemove, unlink, Option.bind_eq_bind, Option.bind_some,
        Option.pure_def]
      exact fdeventCallFdfunc_pending hp pend
    refine ⟨_, xs', call, g.report hp rep ?_ (by simp) (by simp)⟩
    intro q
    rw [mem]
    by_cases e : q = p <;> simp [e]

theorem Good.subproc (g : Good l xs) (fd : Nat) : ∃ r xs', fdeventSubproc l fd = some r ∧ Good r.1 xs' := by
  cases table : l.fdTable fd with
  | none => exact ⟨(l, none), xs, by simp [fdeventSubproc, table], g⟩
  | some p =>
    obtain ⟨f, hp, act, rfl⟩ := (g.table fd p).mp table
    cases pend : f.pending with
    | true =>
      have some : f.events ||| fdeRead ≠ 0#8 := fun zero => by
        simpa [fdeRead] using (BitVec.or_eq_zero_iff.mp zero).2
      refine ⟨({ l.store p { f with events := f.events ||| fdeRead, pending := true } with links := l.links }, none), xs, ?_,
        g.report hp g.rep (g.mem_same hp pend) (by simp [some]) (fun _ => act)⟩
      simp [fdeventSubproc, table, hp, pend, Loop.store]
    | false =>
      have stored : (l.store p { f with events := f.events ||| fdeRead, pending := true }).fde p =
          some { f with events := f.events ||| fdeRead, pending := true } := by simp [Loop.store]
      refine ⟨({ l.store p { f with events := 0#8, pending := false } with links := l.links }, some (f.events ||| fdeRead)),
        xs, ?_, g.report hp g.rep (g.mem_same hp pend) (by simp) (by simp)⟩
      simp only [fdeventSubproc, table, hp, pend, Option.bind_eq_bind, Option.bind_some, ne_eq, not_true_eq_false,
        if_false, Bool.false_eq_true]
      rw [fdeventCallFdfunc_pending stored rfl]
      simp [Loop.store]

theorem lastUsed_succ (table : Nat → Option Nat) (n : Nat) :
    lastUsed table (n + 1) = if (table n).isSome then n else lastUsed table n := by
  simp [lastUsed, List.range_succ]

theorem lastUsed_ge (table : Nat → Option Nat) {i n : Nat} (used : (table i).isSome = true) (lt : i < n) :
    i ≤ lastUsed table n := by
  induction n with
  | zero => exact absurd lt (Nat.not_lt_zero i)
  | succ n ih =>
    rw [lastUsed_succ]
    by_cases e : i = n
    · simp [← e, used]
    · split
      · omega
      · exact ih (by omega)

theorem lastUsed_lt (table : Nat → Option Nat) (n : Nat) : lastUsed table n < max n 1 := by
  induction n with
  | zero => exact Nat.zero_lt_one
  | succ n ih =>
    rw [lastUsed_succ]
    split <;> omega

/-- An active fdevent is taken out of the list, the table and the descriptor sets. -/
theorem Good.removed (g : Good l xs) (hp : l.fde p = some f) (act : f.active = true) {links : Links Nat}
    {xs' : List Nat} (rep : Rep links listPending xs') (mem : ∀ q, q ∈ xs' ↔ q ≠ p ∧ q ∈ xs) :
    Good ⟨Function.update l.fde p (some { fd := f.fd, active := false }), links, Function.update l.fdTable f.fd none,
      Function.update l.fds f.fd 0#8, lastUsed l.fdTable l.selectN + 1⟩ xs' := by
  refine ⟨rep, ?_, ?_, ?_, ?_, ?_, ?_, ?_, ?_, ?_, ?_⟩
  · intro q
    rw [mem, g.pending]
    by_cases e : q = p <;> simp [e]
  · intro fd q
    by_cases e : q = p
    · subst e
      by_cases same : fd = f.fd
      · simp [same]
      · have other : l.fdTable fd ≠ some q := by
          intro table
          obtain ⟨f₂, hf₂, -, eq⟩ := (g.table fd q).mp table
          obtain rfl := Option.some.inj (hp.symm.trans hf₂)
          exact same eq.symm
        simp [same, other]
    · by_cases same : fd = f.fd
      · subst same
        simp only [Function.update_self, reduceCtorEq, Function.update_of_ne e, false_iff]
        intro claim
        obtain ⟨f₂, hf₂, act₂, eq⟩ := claim
        exact e (g.fd_inj hp hf₂ act act₂ eq)
      · simp only [Function.update_of_ne same, Function.update_of_ne e]
        exact g.table fd q
  · intro fd some
    by_cases same : fd = f.fd
    · simp [same] at some
    · simp only [Function.update_of_ne same] at some ⊢
      exact g.sets fd some
  · intro q f₂ hq act₂
    rcases stored_cases hq with ⟨-, rfl⟩ | ⟨e, hq⟩
    · cases act₂
    · have ne : f₂.fd ≠ f.fd := fun same => e (g.fd_inj hp hq act act₂ same)
      simp only [Function.update_of_ne ne]
      exact g.wants q f₂ hq act₂
  · intro fd used
    by_cases same : fd = f.fd
    · simp [same] at used
    · simp only [Function.update_of_ne same] at used
      exact Nat.lt_succ_of_le (lastUsed_ge l.fdTable used (g.range fd used))
  · intro q f₂ hq
    rcases stored_cases hq with ⟨-, rfl⟩ | ⟨-, hq⟩
    · simp
    · exact g.events q f₂ hq
  · intro q f₂ hq pend
    rcases stored_cases hq with ⟨-, rfl⟩ | ⟨-, hq⟩
    · cases pend
    · exact g.active q f₂ hq pend
  · simp [(g.ne_head hp).symm, g.head]
  · intro q f₂ hq act₂
    rcases stored_cases hq with ⟨-, rfl⟩ | ⟨-, hq⟩
    · cases act₂
    · exact g.bit q f₂ hq act₂
  · have used := lastUsed_lt l.fdTable l.selectN
    exact Nat.succ_le_of_lt (lt_of_lt_of_le used (max_le g.bits (by decide)))

theorem Good.remove (g : Good l xs) (hp : l.fde p = some f) : ∃ l' xs', fdeventRemove l p = some l' ∧ Good l' xs' := by
  cases act : f.active with
  | false =>
    have pend : f.pending = false := by
      by_contra pend
      simp [g.active p f hp (by simpa using pend)] at act
    exact ⟨l.store p { fd := f.fd, active := false }, xs, by simp [fdeventRemove, hp, act, pend],
      g.changes ⟨hp, rfl, rfl, rfl, rfl, act.symm, g.rep, g.mem_same hp pend, by simp, by simp, fun _ _ => rfl,
        by simp [act], fun _ => rfl⟩⟩
  | true =>
    have table : l.fdTable f.fd = some p := (g.table _ _).mpr ⟨f, hp, act, rfl⟩
    have bit : ¬fdSetsize ≤ f.fd := Nat.not_le.mpr (g.bit p f hp act)
    cases pend : f.pending with
    | false =>
      refine ⟨_, xs, by simp [fdeventRemove, hp, act, pend, fdeventDisconnect, bit, fdeventUnregister, table, Loop.store],
        g.removed hp act g.rep ?_⟩
      intro q
      refine ⟨fun mem => ⟨?_, mem⟩, And.right⟩
      intro e
      exact g.not_mem hp pend (e ▸ mem)
    | true =>
      obtain ⟨links, xs', unlink, rep, mem⟩ := g.unlink hp pend
      exact ⟨_, xs', by simp [fdeventRemove, hp, act, pend, fdeventPlistRemove, unlink, fdeventDisconnect, bit,
        fdeventUnregister, table, Loop.store], g.removed hp act rep mem⟩

theorem Good.install (g : Good l xs) {fd : Nat} (ne : p ≠ listPending) (free : ∀ f, l.fde p = some f → f.active = false)
    (unused : l.fdTable fd = none) (bit : fd < fdSetsize) :
    ∃ l', fdeventInstall l p fd = some l' ∧ Good l' xs := by
  have idle : p ∉ xs := by
    intro mem
    obtain ⟨f, hp, pend⟩ := (g.pending p).mp mem
    have act := g.active p f hp pend
    simp [free f hp] at act
  have clear : l.fds fd = 0#8 := by
    by_contra some
    simpa [unused] using g.sets fd some
  refine ⟨⟨Function.update l.fde p (some { fd, active := true }), l.links, Function.update l.fdTable fd (some p), l.fds,
    max l.selectN (fd + 1)⟩, ?_, g.rep, ?_, ?_, ?_, ?_, ?_, ?_, ?_, ?_, ?_, max_le g.bits bit⟩
  · have small : ¬32000 < fd := by
      rw [fdSetsize] at bit
      omega
    simp [fdeventInstall, fdeventRegister, fdeventConnect, Loop.store, small]
  · intro q
    by_cases e : q = p
    · simp [e, idle]
    · simpa [e] using g.pending q
  · intro fd' q
    by_cases e : q = p
    · subst e
      by_cases same : fd' = fd
      · simp [same]
      · have other : l.fdTable fd' ≠ some q := by
          intro table
          obtain ⟨f, hf, act, -⟩ := (g.table fd' q).mp table
          simp [free f hf] at act
        simp [same, other, Ne.symm same]
    · by_cases same : fd' = fd
      · subst same
        have other : ∀ f, l.fde q = some f → f.active = true → f.fd ≠ fd' := by
          intro f hf act eq
          have table := (g.table fd' q).mpr ⟨f, hf, act, eq⟩
          simp [unused] at table
        simpa [e, Ne.symm e] using other
      · simpa [e, same] using g.table fd' q
  · intro fd' some
    by_cases same : fd' = fd
    · simp [same]
    · simpa [same] using g.sets fd' some
  · intro q f hq act
    rcases stored_cases hq with ⟨-, rfl⟩ | ⟨-, hq⟩
    · simp [clear]
    · exact g.wants q f hq act
  · intro fd' used
    by_cases same : fd' = fd
    · simp [same]
    · exact lt_of_lt_of_le (g.range fd' (by simpa [same] using used)) (le_max_left _ _)
  · intro q f hq
    rcases stored_cases hq with ⟨-, rfl⟩ | ⟨-, hq⟩
    · simp
    · exact g.events q f hq
  · intro q f hq pend
    rcases stored_cases hq with ⟨-, rfl⟩ | ⟨-, hq⟩
    · cases pend
    · exact g.active q f hq pend
  · simp [ne.symm, g.head]
  · intro q f hq act
    rcases stored_cases hq with ⟨-, rfl⟩ | ⟨-, hq⟩
    · exact bit
    · exact g.bit q f hq act

end Functions

/-! ## Every run -/

theorem Good.step {l : Loop} {xs : List Nat} (g : Good l xs) (s : Step) (ok : allowed l s = true) :
    ∃ l' xs', step l s = some l' ∧ Good l' xs' := by
  cases s with
  | install p fd =>
    simp only [allowed, Bool.and_eq_true, decide_eq_true_eq, Option.isNone_iff_eq_none] at ok
    obtain ⟨⟨⟨ne, free⟩, unused⟩, bit⟩ := ok
    obtain ⟨l', eq, g'⟩ := g.install ne (fun f hf => by simpa [hf] using free) unused bit
    exact ⟨l', xs, eq, g'⟩
  | remove p =>
    obtain ⟨f, hp⟩ := Option.isSome_iff_exists.mp ok
    exact g.remove hp
  | set p events =>
    obtain ⟨f, hp⟩ := Option.isSome_iff_exists.mp ok
    exact g.set hp events
  | add p events =>
    obtain ⟨f, hp⟩ := Option.isSome_iff_exists.mp ok
    simpa [Fdevent.step, fdeventAdd, hp] using g.set hp _
  | del p events =>
    obtain ⟨f, hp⟩ := Option.isSome_iff_exists.mp ok
    simpa [Fdevent.step, fdeventDel, hp] using g.set hp _
  | process a => exact g.process a
  | dispatch =>
    obtain ⟨r, xs', eq, g'⟩ := g.dispatch
    exact ⟨r.1, xs', by simp [Fdevent.step, eq], g'⟩
  | subproc fd =>
    obtain ⟨r, xs', eq, g'⟩ := g.subproc fd
    exact ⟨r.1, xs', by simp [Fdevent.step, eq], g'⟩

theorem Good.run {l : Loop} {xs : List Nat} (g : Good l xs) {steps : List Step} (used : Used l steps) :
    ∃ l' xs', run l steps = some l' ∧ Good l' xs' := by
  induction steps generalizing l xs with
  | nil => exact ⟨l, xs, rfl, g⟩
  | cons s steps ih =>
    obtain ⟨ok, rest⟩ := used
    obtain ⟨l₁, xs₁, eq, g₁⟩ := g.step s ok
    rw [eq, Option.elim_some] at rest
    obtain ⟨l', xs', eq', g'⟩ := ih g₁ rest
    refine ⟨l', xs', ?_, g'⟩
    rw [Fdevent.run, List.foldlM_cons, eq]
    exact eq'

/-- However callbacks install, remove and set fdevents, as long as they use them as they have
    to be used, and whatever `select` answers: the loop never meets a descriptor without an
    fdevent, a table out of step or a null link. The descriptor sets are what the active
    fdevents want, and an fdevent is in the list of pending ones exactly if it has events. -/
theorem loop_never_fails {steps : List Step} (used : Used Loop.start steps) :
    ∃ l xs, run Loop.start steps = some l ∧ Rep l.links listPending xs ∧
      ∀ p f, l.fde p = some f →
        (p ∈ xs ↔ f.events ≠ 0#8) ∧ (f.active = true → l.fdTable f.fd = some p ∧ l.fds f.fd = f.want &&& selectable) := by
  obtain ⟨l, xs, eq, g⟩ := Good.start.run used
  refine ⟨l, xs, eq, g.rep, ?_⟩
  intro p f hp
  refine ⟨?_, fun act => ⟨(g.table _ _).mpr ⟨f, hp, act, rfl⟩, g.wants p f hp act⟩⟩
  rw [g.pending, ← g.events p f hp, hp]
  simp

/-- Two sockets with events pending, of which the first is called and the second removed. -/
def twoSockets : List Step :=
  [.install 1 3, .install 2 4, .set 1 fdeRead, .set 2 (fdeRead ||| fdeWrite),
    .process (.ready fun _ => fdeRead ||| fdeWrite), .dispatch, .remove 2]

theorem two_sockets_served : Used Loop.start twoSockets ∧ ∃ l xs, run Loop.start twoSockets = some l ∧
    Rep l.links listPending xs ∧ ∀ p f, l.fde p = some f →
      (p ∈ xs ↔ f.events ≠ 0#8) ∧ (f.active = true → l.fdTable f.fd = some p ∧ l.fds f.fd = f.want &&& selectable) :=
  have used : Used Loop.start twoSockets := ⟨rfl, rfl, rfl, rfl, rfl, rfl, rfl, trivial⟩
  ⟨used, loop_never_fails used⟩

/-! ## Which events are handed on -/

/-- One call of `fdevent_set` takes away the pending events that it asks for. -/
theorem Good.set_events {l : Loop} {xs : List Nat} {p : Nat} {f : Fde} (g : Good l xs) (hp : l.fde p = some f)
    {events : Events} (new : f.want ≠ events) :
    ∃ l' xs' f', fdeventSet l p events = some l' ∧ Good l' xs' ∧ l'.fde p = some f' ∧ f'.want = events ∧
      f'.events = f.events &&& ~~~events := by
  obtain ⟨l', xs', eq, g'⟩ := g.set hp events
  refine ⟨l', xs', ?_⟩
  cases pend : f.pending with
  | false =>
    have none : f.events = 0#8 := by
      by_contra some
      simp [(g.events p f hp).mpr some] at pend
    rw [g.set_idle hp new pend] at eq
    obtain rfl := Option.some.inj eq
    exact ⟨_, g.set_idle hp new pend, g', by simp [Loop.store]; rfl, rfl, by simp [none]⟩
  | true =>
    by_cases left : f.events &&& ~~~events = 0#8
    · obtain ⟨links, -, unlink, -⟩ := g.unlink hp pend
      have eq' := g.set_drop hp new pend left
      rw [unlink, Option.map_some] at eq'
      obtain rfl := Option.some.inj (eq.symm.trans eq')
      exact ⟨_, eq, g', by simp [Loop.store]; rfl, rfl, left.symm⟩
    · have eq' := g.set_keep hp new pend left
      obtain rfl := Option.some.inj (eq.symm.trans eq')
      exact ⟨_, eq, g', by simp [Loop.store]; rfl, rfl, rfl⟩

theorem all_dropWhile_eq {α : Type} [DecidableEq α] {test : α → Bool} {m : α} (passes : test m = true) (ms : List α) :
    (ms.dropWhile (· = m)).all test = ms.all test := by
  induction ms with
  | nil => rfl
  | cons a ms ih =>
    by_cases e : a = m
    · simp [e, ih, passes]
    · simp [e]

theorem Good.sets_events {l : Loop} {xs : List Nat} {p : Nat} {f : Fde} (g : Good l xs) (hp : l.fde p = some f)
    (sets : List Events) :
    ∃ l' f', sets.foldlM (fun l events => fdeventSet l p events) l = some l' ∧ l'.fde p = some f' ∧
      ∀ k, f'.events.getLsbD k = (f.events.getLsbD k && (sets.dropWhile (· = f.want)).all fun events => !events.getLsbD k) := by
  induction sets generalizing l xs f with
  | nil => exact ⟨l, f, rfl, hp, by simp⟩
  | cons m sets ih =>
    by_cases same : m = f.want
    · obtain ⟨l', f', eq, hf', bits⟩ := ih g hp
      refine ⟨l', f', ?_, hf', by simpa [same] using bits⟩
      rw [List.foldlM_cons, same, fdeventSet_same hp]
      exact eq
    · obtain ⟨l₁, xs₁, f₁, eq₁, g₁, hf₁, want, events⟩ := g.set_events hp (Ne.symm same)
      obtain ⟨l', f', eq, hf', bits⟩ := ih g₁ hf₁
      refine ⟨l', f', ?_, hf', ?_⟩
      · rw [List.foldlM_cons, eq₁]
        exact eq
      · intro k
        rw [bits, events, want, List.dropWhile_cons_of_neg (by simpa using same), List.all_cons]
        cases asks : m.getLsbD k with
        | true => simp [asks]
        | false =>
          rw [all_dropWhile_eq (by simp [asks])]
          by_cases small : k < 8
          · simp only [BitVec.getLsbD_and, BitVec.getLsbD_not, asks, small, decide_true, Bool.not_false, Bool.and_true,
              Bool.true_and]
          · simp [BitVec.getLsbD_of_ge f.events k (by omega)]

/-- Of the events that were reported, exactly those are still handed on that no call of
    `fdevent_set` asked for: what is still wanted is dropped and what is no longer wanted is
    kept. Calls that change nothing do not count. -/
theorem pending_iff_unasked {steps : List Step} {l : Loop} (used : Used Loop.start steps)
    (ran : run Loop.start steps = some l) {p : Nat} {f : Fde} (hp : l.fde p = some f) (sets : List Events) :
    ∃ l' f', sets.foldlM (fun l events => fdeventSet l p events) l = some l' ∧ l'.fde p = some f' ∧
      ∀ k, f'.events.getLsbD k = (f.events.getLsbD k && (sets.dropWhile (· = f.want)).all fun events => !events.getLsbD k) := by
  obtain ⟨l₀, xs, eq, g⟩ := Good.start.run used
  obtain rfl := Option.some.inj (ran.symm.trans eq)
  exact g.sets_events hp sets

/-- A socket of which a read and a write are pending. -/
def bothPending : List Step :=
  [.install 1 3, .set 1 (fdeRead ||| fdeWrite), .process (.ready fun _ => fdeRead ||| fdeWrite)]

/-- Without its read, as `local_socket_close` leaves it, it is called with the read and not
    with the write. -/
theorem closing_read_pending : ∃ l l' f', run Loop.start bothPending = some l ∧
    [fdeWrite].foldlM (fun l events => fdeventSet l 1 events) l = some l' ∧ l'.fde 1 = some f' ∧ f'.events = fdeRead := by
  have used : Used Loop.start bothPending := ⟨rfl, rfl, rfl, trivial⟩
  obtain ⟨l, ran, hp⟩ : ∃ l, run Loop.start bothPending = some l ∧
      l.fde 1 = some ⟨3, true, true, fdeRead ||| fdeWrite, fdeRead ||| fdeWrite⟩ := ⟨_, rfl, rfl⟩
  obtain ⟨l', f', eq, hf', bits⟩ := pending_iff_unasked used ran hp [fdeWrite]
  refine ⟨l, l', f', ran, eq, hf', BitVec.eq_of_getLsbD_eq fun k _ => ?_⟩
  rw [bits]
  interval_cases k <;> rfl

end AmebaLinux.Adb.Fdevent
