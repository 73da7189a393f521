/-
  AmebaLinux.Adb.SocketsProofs — what holds of the streams of a transport on every run, in
  whatever order descriptors become ready and packets arrive.

  Proved:
  (1) No call through a null pointer (`never_null`): a socket whose queue is written out has
      a peer to tell.
  (2) Integrity (`stream_intact`): what one end wrote is what the other end read, from the
      start on. Of an end that the other's `A_CLSE` closed nothing is missing but what it
      still held when it was destroyed.
  (3) Flow control (`one_packet`): the right to send is in one place, so a queue holds at
      most one packet.
  (4) No stream is left half open or stuck (`quiescent`).

  The invariant (`Inv`) says of every two sockets that are peers what `Pair` says, and of a
  socket without a peer that its `A_OPEN` has not been answered yet, or was refused. A step
  of one socket goes through `Acts`, a new socket through `Adds`.
-/

import AmebaLinux.Adb.SocketsPair

namespace AmebaLinux.Adb.Sockets

open AmebaLinux.Adb.Packets (maxPayload)

@[simp] theorem Side.other_other (x : Side) : x.other.other = x := by cases x <;> rfl
@[simp] theorem Side.other_ne (x : Side) : x.other ≠ x := by cases x <;> decide
@[simp] theorem Side.ne_other (x : Side) : x ≠ x.other := x.other_ne.symm

theorem Side.eq_or_other (x y : Side) : y = x ∨ y = x.other := by cases x <;> cases y <;> decide

/-! ## The packets of each socket -/

/-- The socket that a packet is for. -/
def Packet.dst : Packet → Option Nat
  | .aOpen _ => none
  | .aOkay _ arg1 => some arg1
  | .aClse _ arg1 => some arg1
  | .aWrte _ arg1 _ => some arg1

def chanOf (wire : List Packet) (i : Nat) : List Packet := wire.filter (·.dst = some i)

def opensOf (wire : List Packet) : List Nat :=
  wire.filterMap fun
    | .aOpen arg0 => some arg0
    | _ => none

/-- The packets on their way to a socket. -/
def chan (n : Net) (x : Side) (i : Nat) : List Packet := chanOf (n.wire x) i

/-- The openers whose `A_OPEN` is on its way to a side. -/
def opens (n : Net) (x : Side) : List Nat := opensOf (n.wire x)

@[simp] theorem chanOf_nil (i : Nat) : chanOf [] i = [] := rfl
@[simp] theorem chanOf_append (v w : List Packet) (i : Nat) : chanOf (v ++ w) i = chanOf v i ++ chanOf w i :=
  List.filter_append ..

@[simp] theorem opensOf_append (v w : List Packet) : opensOf (v ++ w) = opensOf v ++ opensOf w := List.filterMap_append

theorem chanOf_cons_self {m : Packet} {i : Nat} (h : m.dst = some i) (w : List Packet) :
    chanOf (m :: w) i = m :: chanOf w i := by
  simp [chanOf, h]

theorem chanOf_cons_ne {m : Packet} {i : Nat} (h : m.dst ≠ some i) (w : List Packet) :
    chanOf (m :: w) i = chanOf w i := by
  simp [chanOf, h]

theorem opensOf_cons {m : Packet} {i : Nat} (h : m.dst = some i) (w : List Packet) :
    opensOf (m :: w) = opensOf w := by
  cases m with
  | aOpen a => simp [Packet.dst] at h
  | _ => rfl

theorem Sends.dst_eq {i j : Nat} {m : Packet} (h : Sends i j m) : m.dst = some j := by
  cases h <;> rfl

theorem chanOf_sends {i j : Nat} {out : List Packet} (sends : ∀ m ∈ out, Sends i j m) : chanOf out j = out := by
  rw [chanOf, List.filter_eq_self]
  exact fun m mem => by simp [(sends m mem).dst_eq]

theorem chanOf_sends_ne {i j k : Nat} {out : List Packet} (sends : ∀ m ∈ out, Sends i j m) (ne : k ≠ j) :
    chanOf out k = [] := by
  rw [chanOf, List.filter_eq_nil_iff]
  intro m mem
  simpa [(sends m mem).dst_eq] using ne.symm

theorem opensOf_sends {i j : Nat} {out : List Packet} (sends : ∀ m ∈ out, Sends i j m) : opensOf out = [] := by
  rw [opensOf, List.filterMap_eq_nil_iff]
  intro m mem
  cases sends m mem <;> rfl

section Updates

variable (n : Net) (x y : Side) (i k : Nat) (s : Asocket) (ps : List Packet)

@[simp] theorem send_sock : (n.send x ps).sock = n.sock := rfl
@[simp] theorem send_next : (n.send x ps).next = n.next := rfl
@[simp] theorem store_next : (n.store x i s).next = n.next := rfl
@[simp] theorem store_sock_self : (n.store x i s).sock x i = some s := by simp [Net.store]
@[simp] theorem install_self : (n.install x s).sock x (n.next x) = some s := by simp [Net.install]

theorem store_sock_ne (ne : (y, k) ≠ (x, i)) : (n.store x i s).sock y k = n.sock y k := by
  have : ¬(y = x ∧ k = i) := fun h => ne (by rw [h.1, h.2])
  simp [Net.store, this]

theorem install_ne (ne : (y, k) ≠ (x, n.next x)) : (n.install x s).sock y k = n.sock y k :=
  store_sock_ne n x y (n.next x) k s ne

@[simp] theorem chan_store : chan (n.store x i s) y k = chan n y k := rfl
@[simp] theorem opens_store : opens (n.store x i s) y = opens n y := rfl
@[simp] theorem chan_install : chan (n.install x s) y k = chan n y k := rfl
@[simp] theorem opens_install : opens (n.install x s) y = opens n y := rfl

@[simp] theorem pop_sock : (n.pop x ps).sock = n.sock := rfl
@[simp] theorem pop_next : (n.pop x ps).next = n.next := rfl

@[simp] theorem opens_pop : opens (n.pop x ps) x = opensOf ps := by simp [opens, Net.pop]

theorem chan_pop_ne (ne : y ≠ x) : chan (n.pop x ps) y k = chan n y k := by simp [chan, Net.pop, ne]
theorem opens_pop_ne (ne : y ≠ x) : opens (n.pop x ps) y = opens n y := by simp [opens, Net.pop, ne]

@[simp] theorem chan_send_self : chan (n.send x ps) x k = chan n x k ++ chanOf ps k := by simp [chan, Net.send]
@[simp] theorem opens_send_self : opens (n.send x ps) x = opens n x ++ opensOf ps := by simp [opens, Net.send]

theorem chan_send_ne (ne : y ≠ x) : chan (n.send x ps) y k = chan n y k := by simp [chan, Net.send, ne]
theorem opens_send_ne (ne : y ≠ x) : opens (n.send x ps) y = opens n y := by simp [opens, Net.send, ne]

theorem chan_apply_nil : chan (n.apply x i (s, [])) y k = chan n y k := by
  simp [chan, Net.apply, Net.send, Net.store]

theorem opens_apply_nil : opens (n.apply x i (s, [])) y = opens n y := by
  simp [opens, Net.apply, Net.send, Net.store]

end Updates

/-! ## The invariant -/

/-- A socket without a peer waits for the answer to its `A_OPEN`, or was refused. -/
inductive Alone (n : Net) (x : Side) (i : Nat) (s : Asocket) : Prop
  | asking (new : s = {}) (asks : (opens n x.other).count i = 1) (none : chan n x i = [])
  | refused (new : s = {}) (asked : (opens n x.other).count i = 0) (refusal : chan n x i = [.aClse 0 i])
  | gone (gone : s.phase = .gone) (asked : (opens n x.other).count i = 0) (none : chan n x i = [])

theorem Alone.congr {n n' : Net} {x : Side} {i : Nat} {s : Asocket} (h : Alone n x i s)
    (same : chan n' x i = chan n x i) (asks : (opens n' x.other).count i = (opens n x.other).count i) : Alone n' x i s := by
  cases h with
  | asking new one none => exact .asking new (asks.trans one) (same.trans none)
  | refused new zero refusal => exact .refused new (asks.trans zero) (same.trans refusal)
  | gone gone zero none => exact .gone gone (asks.trans zero) (same.trans none)

/-- No socket of the other side has this one for its peer. -/
def Unmet (n : Net) (x : Side) (i : Nat) : Prop := ∀ j t, n.sock x.other j = some t → t.peer ≠ some i

structure Inv (n : Net) : Prop where
  fresh : ∀ x i s, n.sock x i = some s → i < n.next x
  known : ∀ x i, chan n x i ≠ [] → ∃ s, n.sock x i = some s
  peered : ∀ x i s j, n.sock x i = some s → s.peer = some j → ∃ t, n.sock x.other j = some t
  pair : ∀ x i j s t, n.sock x i = some s → n.sock x.other j = some t → s.peer = some j →
    Pair i j s t (chan n x i) (chan n x.other j)
  only : ∀ x i i' j s s', n.sock x i = some s → n.sock x i' = some s' → s.peer = some j → s'.peer = some j → i = i'
  alone : ∀ x i s, n.sock x i = some s → s.peer = none → Unmet n x i → Alone n x i s
  asker : ∀ x i, i ∈ opens n x.other → ∃ s, n.sock x i = some s ∧ s.peer = none ∧ Unmet n x i

theorem Inv.start : Inv Net.start where
  fresh := by simp [Net.start]
  known := by simp [Net.start, chan]
  peered := by simp [Net.start]
  pair := by simp [Net.start]
  only := by simp [Net.start]
  alone := by simp [Net.start]
  asker := by simp [Net.start, opens, opensOf]

section Moves

variable {n n' n₀ : Net} {x : Side} {i j : Nat} {s s' t : Asocket} {cin out : List Packet}

/-- One socket of a stream acts: nothing else changes than the socket, what it hears and
    what its peer hears. -/
structure Moves (n n' : Net) (x : Side) (i j : Nat) (s' : Asocket) (cin out : List Packet) : Prop where
  next : n'.next = n.next
  self : n'.sock x i = some s'
  others : ∀ y k, (y, k) ≠ (x, i) → n'.sock y k = n.sock y k
  heard : chan n' x i = cin
  sent : chan n' x.other j = chan n x.other j ++ out
  still : ∀ y k, (y, k) ≠ (x, i) → (y, k) ≠ (x.other, j) → chan n' y k = chan n y k
  opens : ∀ y, opens n' y = opens n y

theorem apply_moves (next : n₀.next = n.next) (sock : n₀.sock = n.sock) (heard : chan n₀ x i = cin)
    (still : ∀ y k, (y, k) ≠ (x, i) → chan n₀ y k = chan n y k) (opens_ : ∀ y, opens n₀ y = opens n y)
    (sends : ∀ m ∈ out, Sends i j m) : Moves n (n₀.apply x i (s', out)) x i j s' cin out where
  next := next
  self := by simp [Net.apply]
  others y k ne := by rw [← sock]; exact store_sock_ne n₀ x y i k s' ne
  heard := by
    rw [Net.apply, chan_send_ne _ _ _ _ _ x.ne_other]
    exact heard
  sent := by
    have ne : (x.other, j) ≠ (x, i) := by simp
    rw [Net.apply, chan_send_self, chan_store, still _ _ ne, chanOf_sends sends]
  still y k ne ne' := by
    obtain rfl | rfl := x.eq_or_other y
    · rw [Net.apply, chan_send_ne _ _ _ _ _ y.ne_other]
      exact still _ _ ne
    · have other : k ≠ j := fun e => ne' (by rw [e])
      rw [Net.apply, chan_send_self, chan_store, still _ _ ne, chanOf_sends_ne sends other, List.append_nil]
  opens y := by
    obtain rfl | rfl := x.eq_or_other y
    · rw [Net.apply, opens_send_ne _ _ _ _ y.ne_other]
      exact opens_ y
    · rw [Net.apply, opens_send_self, opens_store, opens_, opensOf_sends sends, List.append_nil]

/-- The stream between two sockets, whichever of them knows the other. -/
theorem Inv.pair_of_met (h : Inv n) (hs : n.sock x i = some s) (ht : n.sock x.other j = some t)
    (met : s.peer = some j ∨ t.peer = some i) : Pair i j s t (chan n x i) (chan n x.other j) := by
  obtain knows | known := met
  · exact h.pair x i j s t hs ht knows
  · have pair := h.pair x.other j i t s ht (by simpa using hs) known
    simpa using pair.symm

/-- A peer has one socket. -/
theorem Inv.sole (h : Inv n) (hs : n.sock x i = some s) (ht : n.sock x.other j = some t)
    (met : s.peer = some j ∨ t.peer = some i) {k : Nat} {a : Asocket} (ha : n.sock x k = some a)
    (claims : a.peer = some j) : k = i := by
  have pair := h.pair x k j a t ha ht claims
  obtain knows | known := met
  · exact h.only x k i j a s ha hs claims knows
  · obtain back | ⟨none, -⟩ := pair.there.linked
    · exact Option.some.inj (back.symm.trans known)
    · simp [none] at known

theorem Pair.peer_eq {cout : List Packet} (h : Pair i j s t cin cout) {k : Nat} (claims : s.peer = some k) : k = j := by
  obtain known | ⟨none, -⟩ := h.back.linked
  · exact Option.some.inj (claims.symm.trans known)
  · simp [none] at claims

/-- A socket `i` of a stream acts, and the stream is kept. -/
structure Acts (n n' : Net) (x : Side) (i j : Nat) (s s' t : Asocket) (cin out : List Packet) : Prop extends
    Moves n n' x i j s' cin out where
  inv : Inv n
  was : n.sock x i = some s
  peer : n.sock x.other j = some t
  met : s.peer = some j ∨ t.peer = some i
  pair : Pair i j s' t cin (chan n x.other j ++ out)

namespace Acts

variable (h : Acts n n' x i j s s' t cin out)

include h

theorem peer' : n'.sock x.other j = some t := by rw [h.others _ _ (by simp), h.peer]

/-- Nobody else is in this stream, neither of this side nor of the other one. -/
theorem sole {k : Nat} {a : Asocket} (ha : n.sock x k = some a) (claims : a.peer = some j) : k = i :=
  h.inv.sole h.was h.peer h.met ha claims

theorem sole_other {k : Nat} {a : Asocket} (ha : n.sock x.other k = some a) (claims : a.peer = some i) : k = j :=
  h.inv.sole h.peer (by simpa using h.was) h.met.symm ha claims

theorem unmet_iff {y : Side} {k : Nat} (ne : (y, k) ≠ (x.other, j)) : Unmet n' y k ↔ Unmet n y k := by
  refine forall₂_congr fun l b => ?_
  by_cases e : (y.other, l) = (x, i)
  · obtain ⟨rfl, rfl⟩ := Prod.mk.inj e
    have other : k ≠ j := fun e => ne (by simp [e])
    -- the peer that `i` has, before and after, is `j`
    rw [h.self, h.was]
    refine iff_of_true ?_ ?_
    · intro eq claims
      obtain rfl := Option.some.inj eq
      exact other (h.pair.peer_eq claims)
    · intro eq claims
      obtain rfl := Option.some.inj eq
      exact other ((h.inv.pair_of_met h.was h.peer h.met).peer_eq claims)
  · rw [h.others _ _ e]

/-- A socket without a peer, that is no peer either, is not in this stream. -/
theorem apart {y : Side} {k : Nat} {a : Asocket} (ha : n.sock y k = some a) (none : a.peer = none)
    (no : Unmet n y k) : (y, k) ≠ (x, i) ∧ (y, k) ≠ (x.other, j) := by
  refine ⟨?_, ?_⟩
  · intro e
    obtain ⟨rfl, rfl⟩ := Prod.mk.inj e
    obtain rfl := Option.some.inj (h.was.symm.trans ha)
    exact no j t h.peer (h.met.resolve_left (by simp [none]))
  · intro e
    obtain ⟨rfl, rfl⟩ := Prod.mk.inj e
    obtain rfl := Option.some.inj (h.peer.symm.trans ha)
    exact no i s (by simpa using h.was) (h.met.resolve_right (by simp [none]))

theorem fresh (y : Side) (k : Nat) (a : Asocket) (ha : n'.sock y k = some a) : k < n'.next y := by
  rw [h.next]
  by_cases e : (y, k) = (x, i)
  · obtain ⟨rfl, rfl⟩ := Prod.mk.inj e
    exact h.inv.fresh _ _ _ h.was
  · exact h.inv.fresh y k a (h.others y k e ▸ ha)

theorem known (y : Side) (k : Nat) (heard : chan n' y k ≠ []) : ∃ a, n'.sock y k = some a := by
  by_cases e : (y, k) = (x, i)
  · obtain ⟨rfl, rfl⟩ := Prod.mk.inj e
    exact ⟨s', h.self⟩
  · by_cases e' : (y, k) = (x.other, j)
    · obtain ⟨rfl, rfl⟩ := Prod.mk.inj e'
      exact ⟨t, h.peer'⟩
    · rw [h.others y k e]
      exact h.inv.known y k (h.still y k e e' ▸ heard)

theorem peered (y : Side) (k : Nat) (a : Asocket) (l : Nat) (ha : n'.sock y k = some a) (claims : a.peer = some l) :
    ∃ b, n'.sock y.other l = some b := by
  by_cases e : (y, k) = (x, i)
  · obtain ⟨rfl, rfl⟩ := Prod.mk.inj e
    obtain rfl := Option.some.inj (h.self.symm.trans ha)
    obtain rfl := h.pair.peer_eq claims
    exact ⟨t, h.peer'⟩
  · obtain ⟨b, hb⟩ := h.inv.peered y k a l (h.others y k e ▸ ha) claims
    by_cases e' : (y.other, l) = (x, i)
    · obtain ⟨e₁, e₂⟩ := Prod.mk.inj e'
      exact ⟨s', by rw [e₁, e₂, h.self]⟩
    · exact ⟨b, by rw [h.others _ _ e', hb]⟩

/-- A stream of two other sockets is as it was. -/
theorem pair_others {y : Side} {k l : Nat} {a b : Asocket} (ha : n.sock y k = some a) (hb : n'.sock y.other l = some b)
    (claims : a.peer = some l) (e : (y, k) ≠ (x, i)) (e' : (y, k) ≠ (x.other, j)) :
    Pair k l a b (chan n' y k) (chan n' y.other l) := by
  have ne : (y.other, l) ≠ (x, i) := by
    intro eq
    obtain ⟨rfl, rfl⟩ := Prod.mk.inj eq
    have sole := h.sole_other (k := k) (by simpa using ha) claims
    exact e' (by simp [sole])
  have ne' : (y.other, l) ≠ (x.other, j) := by
    intro eq
    obtain ⟨side, rfl⟩ := Prod.mk.inj eq
    obtain rfl : y = x := by rw [← y.other_other, side, Side.other_other]
    exact e (by rw [h.sole ha claims])
  rw [h.others _ _ ne] at hb
  rw [h.still _ _ e e', h.still _ _ ne ne']
  exact h.inv.pair y k l a b ha hb claims

theorem pairs (y : Side) (k l : Nat) (a b : Asocket) (ha : n'.sock y k = some a) (hb : n'.sock y.other l = some b)
    (claims : a.peer = some l) : Pair k l a b (chan n' y k) (chan n' y.other l) := by
  by_cases e : (y, k) = (x, i)
  · obtain ⟨rfl, rfl⟩ := Prod.mk.inj e
    obtain rfl := Option.some.inj (h.self.symm.trans ha)
    obtain rfl := h.pair.peer_eq claims
    obtain rfl := Option.some.inj (h.peer'.symm.trans hb)
    rw [h.heard, h.sent]
    exact h.pair
  · rw [h.others y k e] at ha
    by_cases e' : (y, k) = (x.other, j)
    · obtain ⟨rfl, rfl⟩ := Prod.mk.inj e'
      obtain rfl := Option.some.inj (h.peer.symm.trans ha)
      obtain rfl := h.pair.symm.peer_eq claims
      rw [Side.other_other] at hb ⊢
      obtain rfl := Option.some.inj (h.self.symm.trans hb)
      rw [h.heard, h.sent]
      exact h.pair.symm
    · exact h.pair_others ha hb claims e e'

theorem only (y : Side) (k k' l : Nat) (a a' : Asocket) (ha : n'.sock y k = some a) (ha' : n'.sock y k' = some a')
    (claims : a.peer = some l) (claims' : a'.peer = some l) : k = k' := by
  by_cases e : (y, k) = (x, i)
  · obtain ⟨rfl, rfl⟩ := Prod.mk.inj e
    obtain rfl := Option.some.inj (h.self.symm.trans ha)
    obtain rfl := h.pair.peer_eq claims
    by_cases e' : k' = k
    · exact e'.symm
    · rw [h.others _ _ (by simp [e'])] at ha'
      exact (h.sole ha' claims').symm
  · rw [h.others y k e] at ha
    by_cases e' : (y, k') = (x, i)
    · obtain ⟨rfl, rfl⟩ := Prod.mk.inj e'
      obtain rfl := Option.some.inj (h.self.symm.trans ha')
      obtain rfl := h.pair.peer_eq claims'
      exact h.sole ha claims
    · rw [h.others y k' e'] at ha'
      exact h.inv.only y k k' l a a' ha ha' claims claims'

theorem alone (y : Side) (k : Nat) (a : Asocket) (ha : n'.sock y k = some a) (none : a.peer = none)
    (no : Unmet n' y k) : Alone n' y k a := by
  by_cases e : (y, k) = (x, i)
  · obtain ⟨rfl, rfl⟩ := Prod.mk.inj e
    obtain rfl := Option.some.inj (h.self.symm.trans ha)
    exact absurd (h.pair.met.resolve_left (by simp [none])) (no j t h.peer')
  · by_cases e' : (y, k) = (x.other, j)
    · obtain ⟨rfl, rfl⟩ := Prod.mk.inj e'
      obtain rfl := Option.some.inj (h.peer'.symm.trans ha)
      exact absurd (h.pair.met.resolve_right (by simp [none])) (no i s' (by simpa using h.self))
    · rw [h.others y k e] at ha
      exact (h.inv.alone y k a ha none ((h.unmet_iff e').mp no)).congr (h.still y k e e') (by rw [h.opens])

theorem asker (y : Side) (k : Nat) (mem : k ∈ Sockets.opens n' y.other) :
    ∃ a, n'.sock y k = some a ∧ a.peer = none ∧ Unmet n' y k := by
  rw [h.opens] at mem
  obtain ⟨a, ha, none, no⟩ := h.inv.asker y k mem
  obtain ⟨e, e'⟩ := h.apart ha none no
  exact ⟨a, by rw [h.others y k e, ha], none, (h.unmet_iff e').mpr no⟩

theorem inv' : Inv n' := ⟨h.fresh, h.known, h.peered, h.pairs, h.only, h.alone, h.asker⟩

end Acts

end Moves

/-! ## Sockets that have no peer -/

section Lone

variable {n n' : Net} {x : Side} {i : Nat} {s s' : Asocket}

/-- A socket without a peer is answered: nothing else changes. -/
theorem Inv.answered (h : Inv n) (was : n.sock x i = some s) (lone : s.peer = none) (no : Unmet n x i)
    (next : n'.next = n.next) (self : n'.sock x i = some s') (lone' : s'.peer = none)
    (others : ∀ y k, (y, k) ≠ (x, i) → n'.sock y k = n.sock y k)
    (still : ∀ y k, (y, k) ≠ (x, i) → chan n' y k = chan n y k)
    (asks : ∀ y k, (y, k) ≠ (x, i) → (opens n' y.other).count k = (opens n y.other).count k)
    (alone : Alone n' x i s') : Inv n' := by
  have claims_old : ∀ y k a, n'.sock y k = some a → ∀ l, a.peer = some l → (y, k) ≠ (x, i) ∧ n.sock y k = some a := by
    intro y k a ha l claims
    have ne : (y, k) ≠ (x, i) := by
      intro e
      obtain ⟨rfl, rfl⟩ := Prod.mk.inj e
      obtain rfl := Option.some.inj (self.symm.trans ha)
      simp [lone'] at claims
    exact ⟨ne, others y k ne ▸ ha⟩
  have exists_iff : ∀ y k, (∃ a, n'.sock y k = some a) ↔ ∃ a, n.sock y k = some a := by
    intro y k
    by_cases e : (y, k) = (x, i)
    · obtain ⟨rfl, rfl⟩ := Prod.mk.inj e
      exact iff_of_true ⟨s', self⟩ ⟨s, was⟩
    · rw [others y k e]
  have unmet_iff : ∀ y k, Unmet n' y k ↔ Unmet n y k := by
    intro y k
    refine forall₂_congr fun l b => ?_
    by_cases e : (y.other, l) = (x, i)
    · obtain ⟨rfl, rfl⟩ := Prod.mk.inj e
      rw [self, was]
      refine iff_of_true ?_ ?_
      · intro eq
        simp [← Option.some.inj eq, lone']
      · intro eq
        simp [← Option.some.inj eq, lone]
    · rw [others _ _ e]
  refine ⟨?_, ?_, ?_, ?_, ?_, ?_, ?_⟩
  · intro y k a ha
    obtain ⟨b, hb⟩ := (exists_iff y k).mp ⟨a, ha⟩
    rw [next]
    exact h.fresh y k b hb
  · intro y k heard
    rw [exists_iff]
    by_cases e : (y, k) = (x, i)
    · obtain ⟨rfl, rfl⟩ := Prod.mk.inj e
      exact ⟨s, was⟩
    · exact h.known y k (still y k e ▸ heard)
  · intro y k a l ha claims
    rw [exists_iff]
    exact h.peered y k a l (claims_old y k a ha l claims).2 claims
  · intro y k l a b ha hb claims
    obtain ⟨e, ha⟩ := claims_old y k a ha l claims
    have e' : (y.other, l) ≠ (x, i) := by
      intro eq
      obtain ⟨rfl, rfl⟩ := Prod.mk.inj eq
      exact no k a (by simpa using ha) claims
    rw [still _ _ e, still _ _ e']
    exact h.pair y k l a b ha (others _ _ e' ▸ hb) claims
  · intro y k k' l a a' ha ha' claims claims'
    exact h.only y k k' l a a' (claims_old y k a ha l claims).2 (claims_old y k' a' ha' l claims').2 claims claims'
  · intro y k a ha lone no
    by_cases e : (y, k) = (x, i)
    · obtain ⟨rfl, rfl⟩ := Prod.mk.inj e
      obtain rfl := Option.some.inj (self.symm.trans ha)
      exact alone
    · exact (h.alone y k a (others y k e ▸ ha) lone ((unmet_iff y k).mp no)).congr (still y k e) (asks y k e)
  · intro y k mem
    by_cases e : (y, k) = (x, i)
    · obtain ⟨rfl, rfl⟩ := Prod.mk.inj e
      exact ⟨s', self, lone', (unmet_iff _ _).mpr no⟩
    · rw [← List.count_pos_iff, asks y k e, List.count_pos_iff] at mem
      obtain ⟨a, ha, lone, no⟩ := h.asker y k mem
      exact ⟨a, by rw [others y k e, ha], lone, (unmet_iff y k).mpr no⟩

end Lone

/-! ## New sockets -/

section Install

variable {n n' : Net} {x : Side} {s : Asocket}

/-- The id that the next socket gets has not been used. -/
theorem Inv.unused (h : Inv n) (x : Side) : n.sock x (n.next x) = none := by
  by_contra used
  obtain ⟨s, hs⟩ := Option.ne_none_iff_exists'.mp used
  exact absurd (h.fresh _ _ _ hs) (lt_irrefl _)

theorem Inv.unheard (h : Inv n) (x : Side) : chan n x (n.next x) = [] := by
  by_contra heard
  obtain ⟨s, hs⟩ := h.known _ _ heard
  simp [h.unused] at hs

theorem Inv.unclaimed (h : Inv n) (x : Side) : Unmet n x (n.next x) := by
  intro j t ht claims
  obtain ⟨s, hs⟩ := h.peered _ _ _ _ ht claims
  simp [h.unused] at hs

theorem Inv.unasked (h : Inv n) (x : Side) : n.next x ∉ opens n x.other := by
  intro mem
  obtain ⟨s, hs, -⟩ := h.asker x _ mem
  simp [h.unused] at hs

/-- A socket is added, with no peer or with one that was waiting. -/
structure Adds (n n' : Net) (x : Side) (s : Asocket) : Prop where
  inv : Inv n
  next : ∀ y, n'.next y = if y = x then n.next y + 1 else n.next y
  new : n'.sock x (n.next x) = some s
  others : ∀ y k, (y, k) ≠ (x, n.next x) → n'.sock y k = n.sock y k

namespace Adds

variable (h : Adds n n' x s)

include h

theorem keeps {y : Side} {k : Nat} {a : Asocket} (ha : n.sock y k = some a) : n'.sock y k = some a := by
  rw [h.others y k, ha]
  intro e
  obtain ⟨rfl, rfl⟩ := Prod.mk.inj e
  simp [h.inv.unused] at ha

theorem fresh (y : Side) (k : Nat) (a : Asocket) (ha : n'.sock y k = some a) : k < n'.next y := by
  rw [h.next]
  by_cases e : (y, k) = (x, n.next x)
  · obtain ⟨rfl, rfl⟩ := Prod.mk.inj e
    simp
  · have old := h.inv.fresh y k a (h.others y k e ▸ ha)
    split <;> omega

theorem unmet {y : Side} {k : Nat} (no : Unmet n' y k) : Unmet n y k :=
  fun j t ht => no j t (h.keeps ht)

theorem unmet_of {y : Side} {k : Nat} (no : Unmet n y k) (ne : y.other = x → s.peer ≠ some k) : Unmet n' y k := by
  intro j t ht
  by_cases e : (y.other, j) = (x, n.next x)
  · obtain ⟨side, rfl⟩ := Prod.mk.inj e
    rw [side, h.new] at ht
    obtain rfl := Option.some.inj ht
    exact ne side
  · exact no j t (h.others _ _ e ▸ ht)

/-- Only old sockets have old peers. -/
theorem old_peer {y : Side} {k l : Nat} {a b : Asocket} (ha : n.sock y k = some a) (claims : a.peer = some l)
    (hb : n'.sock y.other l = some b) : n.sock y.other l = some b := by
  obtain ⟨c, hc⟩ := h.inv.peered y k a l ha claims
  rw [hc, ← h.keeps hc, hb]

end Adds

theorem Inv.connect (h : Inv n) (x : Side) : Inv ((n.install x {}).send x.other [.aOpen (n.next x)]) := by
  have adds : Adds n ((n.install x {}).send x.other [.aOpen (n.next x)]) x {} :=
    ⟨h, fun y => rfl, by simp, fun y k ne => install_ne n x y k {} ne⟩
  generalize e : (n.install x {}).send x.other [.aOpen (n.next x)] = n' at adds
  have chans : ∀ y k, chan n' y k = chan n y k := by
    intro y k
    subst e
    obtain rfl | rfl := x.eq_or_other y
    · rw [chan_send_ne _ _ _ _ _ y.ne_other, chan_install]
    · simp [chanOf, Packet.dst]
  have asks : opens n' x.other = opens n x.other ++ [n.next x] := by
    subst e
    simp [opensOf]
  have asks' : opens n' x = opens n x := by
    subst e
    rw [opens_send_ne _ _ _ _ x.ne_other, opens_install]
  have old : ∀ y k a l, n'.sock y k = some a → a.peer = some l → n.sock y k = some a := by
    intro y k a l ha claims
    by_cases e : (y, k) = (x, n.next x)
    · obtain ⟨rfl, rfl⟩ := Prod.mk.inj e
      simp [← Option.some.inj (adds.new.symm.trans ha)] at claims
    · exact adds.others y k e ▸ ha
  refine ⟨adds.fresh, ?_, ?_, ?_, ?_, ?_, ?_⟩
  · intro y k heard
    rw [chans] at heard
    obtain ⟨a, ha⟩ := h.known y k heard
    exact ⟨a, adds.keeps ha⟩
  · intro y k a l ha claims
    obtain ⟨b, hb⟩ := h.peered y k a l (old y k a l ha claims) claims
    exact ⟨b, adds.keeps hb⟩
  · intro y k l a b ha hb claims
    have ha := old y k a l ha claims
    rw [chans, chans]
    exact h.pair y k l a b ha (adds.old_peer ha claims hb) claims
  · intro y k k' l a a' ha ha' claims claims'
    exact h.only y k k' l a a' (old y k a l ha claims) (old y k' a' l ha' claims') claims claims'
  · intro y k a ha lone no
    by_cases e : (y, k) = (x, n.next x)
    · obtain ⟨rfl, rfl⟩ := Prod.mk.inj e
      obtain rfl := Option.some.inj (adds.new.symm.trans ha)
      refine .asking rfl ?_ (by rw [chans, h.unheard])
      rw [asks, List.count_append, List.count_eq_zero_of_not_mem (h.unasked _)]
      simp
    · refine (h.alone y k a (adds.others y k e ▸ ha) lone (adds.unmet no)).congr (chans y k) ?_
      obtain rfl | rfl := x.eq_or_other y
      · have ne : n.next y ≠ k := fun eq => e (by rw [eq])
        rw [asks, List.count_append]
        simp [ne]
      · rw [Side.other_other, asks']
  · intro y k mem
    by_cases e : (y, k) = (x, n.next x)
    · obtain ⟨rfl, rfl⟩ := Prod.mk.inj e
      exact ⟨{}, adds.new, rfl, adds.unmet_of (h.unclaimed _) (by simp)⟩
    · have mem : k ∈ opens n y.other := by
        obtain rfl | rfl := x.eq_or_other y
        · have ne : k ≠ n.next y := fun eq => e (by rw [eq])
          simpa [asks, ne] using mem
        · simpa [asks'] using mem
      obtain ⟨a, ha, lone, no⟩ := h.asker y k mem
      exact ⟨a, adds.keeps ha, lone, adds.unmet_of no (by simp)⟩

end Install

section Open

variable {n n' : Net} {x : Side} {a : Nat} {rest : List Packet}

/-- The opener of the `A_OPEN` that comes next. -/
structure Opener (n : Net) (x : Side) (a : Nat) (rest : List Packet) : Prop where
  first : n.wire x = .aOpen a :: rest
  sock : n.sock x.other a = some {}
  unmet : Unmet n x.other a
  unheard : chan n x.other a = []
  asked : (opensOf rest).count a = 0

theorem Inv.opener (h : Inv n) (first : n.wire x = .aOpen a :: rest) : Opener n x a rest := by
  have asks : opens n x.other.other = a :: opensOf rest := by simp [opens, first, opensOf]
  obtain ⟨s, hs, lone, no⟩ := h.asker x.other a (by rw [asks]; exact List.mem_cons_self)
  cases h.alone x.other a s hs lone no with
  | asking new one none =>
    subst new
    refine ⟨first, hs, no, none, ?_⟩
    rw [asks, List.count_cons_self] at one
    omega
  | refused new zero =>
    rw [asks, List.count_cons_self] at zero
    omega
  | gone gone zero =>
    rw [asks, List.count_cons_self] at zero
    omega

namespace Opener

variable (o : Opener n x a rest)

include o

theorem chan_pop (y : Side) (k : Nat) : chan (n.pop x rest) y k = chan n y k := by
  by_cases e : y = x
  · subst e
    rw [chan, chan, o.first, chanOf_cons_ne (by simp [Packet.dst])]
    simp [Net.pop]
  · exact chan_pop_ne n x y k rest e

theorem opens_eq : opens n x = a :: opensOf rest := by simp [opens, o.first, opensOf]

/-- Only this opener's request is gone. -/
theorem count_pop {y : Side} {k : Nat} (ne : (y, k) ≠ (x.other, a)) :
    (opens (n.pop x rest) y.other).count k = (opens n y.other).count k := by
  obtain rfl | rfl := x.eq_or_other y
  · rw [opens_pop_ne n y y.other rest y.other_ne]
  · have ne : a ≠ k := fun e => ne (by rw [e])
    rw [Side.other_other, opens_pop, o.opens_eq, List.count_cons_of_ne ne]

end Opener

theorem Inv.refuse (h : Inv n) (o : Opener n x a rest) : Inv ((n.pop x rest).send x.other [.aClse 0 a]) := by
  have asks : ∀ y, opens ((n.pop x rest).send x.other [.aClse 0 a]) y = opens (n.pop x rest) y := by
    intro y
    obtain rfl | rfl := x.eq_or_other y
    · exact opens_send_ne _ _ _ _ y.ne_other
    · simp [opensOf]
  refine h.answered o.sock rfl o.unmet rfl o.sock rfl (fun _ _ _ => rfl) ?_ ?_ (.refused rfl ?_ ?_)
  · intro y k ne
    obtain rfl | rfl := x.eq_or_other y
    · rw [chan_send_ne _ _ _ _ _ y.ne_other, o.chan_pop]
    · have ne : a ≠ k := fun e => ne (by rw [e])
      rw [chan_send_self, o.chan_pop, chanOf_cons_ne (by simpa [Packet.dst] using ne), chanOf_nil, List.append_nil]
  · intro y k ne
    rw [asks, o.count_pop ne]
  · rw [asks, Side.other_other, opens_pop, o.asked]
  · rw [chan_send_self, o.chan_pop, o.unheard, chanOf_cons_self rfl, chanOf_nil, List.nil_append]

/-- The stream of an `A_OPEN` that has just been accepted. -/
theorem Pair.opened (i a : Nat) : Pair i a (localSocketReady { peer := some a }) {} [] [.aOkay i a] := by
  refine ⟨⟨?_, ?_, ?_, ?_, ?_, ?_, ?_, ?_, ?_, ?_, ?_, ?_, ?_, ?_, ?_⟩,
    ⟨?_, ?_, ?_, ?_, ?_, ?_, ?_, ?_, ?_, ?_, ?_, ?_, ?_, ?_, ?_⟩, .inl rfl⟩
  · simpa using Sends.okay
  · intro b c e
    have mem : Packet.aClse 0 a ∈ [Packet.aOkay i a] := by simp [e]
    simp at mem
  all_goals simp [localSocketReady, lane, AmebaLinux.Lib.StopAndWait.Lane.Exact,
    AmebaLinux.Lib.StopAndWait.Lane.credit, AmebaLinux.Lib.StopAndWait.Lane.load]

theorem Inv.accept (h : Inv n) (o : Opener n x a rest) :
    Inv (((n.pop x rest).install x (localSocketReady { peer := some a })).send x.other [.aOkay (n.next x) a]) := by
  have adds : Adds n (((n.pop x rest).install x (localSocketReady { peer := some a })).send x.other
      [.aOkay (n.next x) a]) x (localSocketReady { peer := some a }) :=
    ⟨h, fun y => rfl, install_self (n.pop x rest) x _, fun y k ne => install_ne (n.pop x rest) x y k _ ne⟩
  generalize e : ((n.pop x rest).install x (localSocketReady { peer := some a })).send x.other [.aOkay (n.next x) a] = n'
    at adds
  have still : ∀ y k, (y, k) ≠ (x.other, a) → chan n' y k = chan n y k := by
    intro y k ne
    subst e
    obtain rfl | rfl := x.eq_or_other y
    · rw [chan_send_ne _ _ _ _ _ y.ne_other, chan_install, o.chan_pop]
    · have ne : a ≠ k := fun e => ne (by rw [e])
      rw [chan_send_self, chan_install, o.chan_pop, chanOf_cons_ne (by simpa [Packet.dst] using ne), chanOf_nil,
        List.append_nil]
  have answer : chan n' x.other a = [.aOkay (n.next x) a] := by
    subst e
    rw [chan_send_self, chan_install, o.chan_pop, o.unheard, chanOf_cons_self rfl, chanOf_nil, List.nil_append]
  have asks : ∀ y, opens n' y = opens (n.pop x rest) y := by
    intro y
    subst e
    obtain rfl | rfl := x.eq_or_other y
    · rw [opens_send_ne _ _ _ _ y.ne_other, opens_install]
    · simp [opensOf]
  -- the opener is nobody's peer yet
  have unclaimed : ∀ k b, n.sock x k = some b → b.peer ≠ some a := fun k b hb => o.unmet k b (by simpa using hb)
  refine ⟨adds.fresh, ?_, ?_, ?_, ?_, ?_, ?_⟩
  · intro y k heard
    by_cases e : (y, k) = (x.other, a)
    · obtain ⟨rfl, rfl⟩ := Prod.mk.inj e
      exact ⟨_, adds.keeps o.sock⟩
    · obtain ⟨b, hb⟩ := h.known y k (still y k e ▸ heard)
      exact ⟨b, adds.keeps hb⟩
  · intro y k b l hb claims
    by_cases e : (y, k) = (x, n.next x)
    · obtain ⟨rfl, rfl⟩ := Prod.mk.inj e
      obtain rfl := Option.some.inj (adds.new.symm.trans hb)
      obtain rfl := Option.some.inj claims
      exact ⟨_, adds.keeps o.sock⟩
    · obtain ⟨c, hc⟩ := h.peered y k b l (adds.others y k e ▸ hb) claims
      exact ⟨c, adds.keeps hc⟩
  · intro y k l b c hb hc claims
    by_cases e : (y, k) = (x, n.next x)
    · obtain ⟨rfl, rfl⟩ := Prod.mk.inj e
      obtain rfl := Option.some.inj (adds.new.symm.trans hb)
      obtain rfl := Option.some.inj claims
      obtain rfl := Option.some.inj ((adds.keeps o.sock).symm.trans hc)
      rw [still _ _ (by simp), h.unheard, answer]
      exact Pair.opened _ _
    · have hb : n.sock y k = some b := adds.others y k e ▸ hb
      have self : (y, k) ≠ (x.other, a) := by
        intro eq
        obtain ⟨rfl, rfl⟩ := Prod.mk.inj eq
        simp [← Option.some.inj (o.sock.symm.trans hb)] at claims
      have peer : (y.other, l) ≠ (x.other, a) := by
        intro eq
        obtain ⟨side, rfl⟩ := Prod.mk.inj eq
        obtain rfl : y = x := by rw [← y.other_other, side, Side.other_other]
        exact unclaimed k b hb claims
      rw [still _ _ self, still _ _ peer]
      exact h.pair y k l b c hb (adds.old_peer hb claims hc) claims
  · intro y k k' l b b' hb hb' claims claims'
    by_cases e : (y, k) = (x, n.next x) <;> by_cases e' : (y, k') = (x, n.next x)
    · rw [(Prod.mk.inj e).2, (Prod.mk.inj e').2]
    · obtain ⟨rfl, rfl⟩ := Prod.mk.inj e
      obtain rfl := Option.some.inj (adds.new.symm.trans hb)
      obtain rfl := Option.some.inj claims
      exact absurd claims' (unclaimed k' b' (adds.others _ _ e' ▸ hb'))
    · obtain ⟨rfl, rfl⟩ := Prod.mk.inj e'
      obtain rfl := Option.some.inj (adds.new.symm.trans hb')
      obtain rfl := Option.some.inj claims'
      exact absurd claims (unclaimed k b (adds.others _ _ e ▸ hb))
    · exact h.only y k k' l b b' (adds.others y k e ▸ hb) (adds.others y k' e' ▸ hb') claims claims'
  · intro y k b hb lone no
    have new : (y, k) ≠ (x, n.next x) := by
      intro e
      obtain ⟨rfl, rfl⟩ := Prod.mk.inj e
      simp [← Option.some.inj (adds.new.symm.trans hb), localSocketReady] at lone
    have other : (y, k) ≠ (x.other, a) := by
      intro e
      obtain ⟨rfl, rfl⟩ := Prod.mk.inj e
      exact no _ _ (by rw [Side.other_other]; exact adds.new) rfl
    refine (h.alone y k b (adds.others y k new ▸ hb) lone (adds.unmet no)).congr (still y k other) ?_
    rw [asks, o.count_pop other]
  · intro y k mem
    have other : (y, k) ≠ (x.other, a) := by
      intro e
      obtain ⟨rfl, rfl⟩ := Prod.mk.inj e
      rw [asks, Side.other_other, opens_pop, ← List.count_pos_iff, o.asked] at mem
      exact absurd mem (lt_irrefl 0)
    rw [asks, ← List.count_pos_iff, o.count_pop other, List.count_pos_iff] at mem
    obtain ⟨b, hb, lone, no⟩ := h.asker y k mem
    refine ⟨b, adds.keeps hb, lone, adds.unmet_of no ?_⟩
    intro side claims
    obtain rfl := Option.some.inj claims
    exact other (by rw [← side, Side.other_other])

end Open

/-! ## Every step, every run -/

section Steps

variable {n n' : Net} {x : Side} {i : Nat} {s : Asocket}

/-- A socket is in a stream, or it is alone. -/
theorem Inv.linked_or_alone (h : Inv n) (hs : n.sock x i = some s) :
    (∃ j t, n.sock x.other j = some t ∧ (s.peer = some j ∨ t.peer = some i)) ∨
      s.peer = none ∧ Unmet n x i ∧ Alone n x i s := by
  cases knows : s.peer with
  | some j =>
    obtain ⟨t, ht⟩ := h.peered x i s j hs knows
    exact .inl ⟨j, t, ht, .inl rfl⟩
  | none =>
    by_cases no : Unmet n x i
    · exact .inr ⟨rfl, no, h.alone x i s hs knows no⟩
    · simp only [Unmet, not_forall, not_not] at no
      obtain ⟨j, t, ht, claims⟩ := no
      exact .inl ⟨j, t, ht, .inr claims⟩

theorem apply_self (hs : n.sock x i = some s) : n.apply x i (s, []) = n := by
  have socks : (fun y j => if y = x ∧ j = i then some s else n.sock y j) = n.sock := by
    funext y j
    by_cases e : y = x ∧ j = i
    · rw [if_pos e, e.1, e.2, hs]
    · rw [if_neg e]
  have wires : (fun y => if y = x.other then n.wire y ++ [] else n.wire y) = n.wire := by
    funext y
    simp
  simp only [Net.apply, Net.store, Net.send, socks, wires]

theorem Inv.fd (h : Inv n) (hs : n.sock x i = some s) {ws : Option (List WriteResult)} {rs : Option (List ReadResult)}
    (asked : wanted s ws rs = true) :
    ∃ r, localSocketEventFunc i s ws rs = some r ∧ Inv (n.apply x i r) := by
  obtain ⟨j, t, ht, met⟩ | ⟨-, -, alone⟩ := h.linked_or_alone hs
  · obtain ⟨⟨s', out⟩, eq, pair⟩ := (h.pair_of_met hs ht met).event asked
    have sends : ∀ m ∈ out, Sends i j m := fun m mem => pair.there.sends m (List.mem_append_right _ mem)
    have moves : Moves n (n.apply x i (s', out)) x i j s' (chan n x i) out :=
      apply_moves rfl rfl rfl (fun _ _ _ => rfl) (fun _ => rfl) sends
    exact ⟨_, eq, Acts.inv' ⟨moves, h, hs, ht, met, pair⟩⟩
  · -- nothing is wanted of a socket that waits for its answer
    have still : localSocketEventFunc i s ws rs = some (s, []) := by
      cases alone with
      | asking new =>
        subst new
        cases ws <;> cases rs <;> simp [wanted, exited] at asked
        rfl
      | refused new =>
        subst new
        cases ws <;> cases rs <;> simp [wanted, exited] at asked
        rfl
      | gone gone => simp [wanted, gone] at asked
    exact ⟨_, still, by rwa [apply_self hs]⟩

/-- A packet for a socket that is still open, or for none. -/
theorem handlePacket_dst {m : Packet} (h : m.dst = some i) (service : Bool) (ws : List WriteResult) :
    handlePacket n x service ws m =
      ((findLocalSocket n x i).map fun s => n.apply x i (handleFound i s ws m)).getD n := by
  cases m with
  | aOpen arg0 => simp [Packet.dst] at h
  | _ =>
    obtain rfl := Option.some.inj h
    rw [handlePacket]
    cases findLocalSocket n x _ <;> rfl

theorem Pair.packet {j : Nat} {t : Asocket} {m : Packet} {cin cout : List Packet} (h : Pair i j s t (m :: cin) cout)
    (live : s.phase = .live) (ws : List WriteResult) :
    Pair i j (handleFound i s ws m).1 t cin (cout ++ (handleFound i s ws m).2) := by
  cases h.back.sends m List.mem_cons_self with
  | okay => exact h.okay live ws
  | clse => exact h.clse live ws
  | wrte data fits => exact h.wrte live ws

section Deliver

variable {m : Packet} {rest : List Packet} (first : n.wire x = m :: rest) (dst : m.dst = some i)

include first dst

theorem chan_first : chan n x i = m :: chan (n.pop x rest) x i := by
  simp [chan, first, Net.pop, chanOf_cons_self dst]

theorem chan_pop_still (y : Side) (k : Nat) (ne : (y, k) ≠ (x, i)) : chan (n.pop x rest) y k = chan n y k := by
  by_cases e : y = x
  · subst e
    have other : m.dst ≠ some k := fun e => ne (by rw [Option.some.inj (dst.symm.trans e)])
    simp [chan, first, Net.pop, chanOf_cons_ne other]
  · exact chan_pop_ne n x y k rest e

theorem opens_pop_still (y : Side) : opens (n.pop x rest) y = opens n y := by
  by_cases e : y = x
  · subst e
    simp [opens, first, Net.pop, opensOf_cons dst]
  · exact opens_pop_ne n x y rest e

theorem Inv.deliver (h : Inv n) (service : Bool) (ws : List WriteResult) :
    Inv (handlePacket (n.pop x rest) x service ws m) := by
  have heard := chan_first first dst
  have still := chan_pop_still first dst
  have asks := opens_pop_still first dst
  obtain ⟨s, hs⟩ := h.known x i (by simp [heard])
  rw [handlePacket_dst dst, findLocalSocket, pop_sock, hs]
  obtain ⟨j, t, ht, met⟩ | ⟨lone, no, alone⟩ := h.linked_or_alone hs
  · have pair := heard ▸ h.pair_of_met hs ht met
    by_cases live : s.phase = .live
    · have kept := pair.packet live ws
      have sends := fun m mem => kept.there.sends m (List.mem_append_right _ mem)
      simp only [Option.filter, live, decide_true, if_true, Option.map_some, Option.getD_some]
      have moves : Moves n ((n.pop x rest).apply x i (handleFound i s ws m)) x i j (handleFound i s ws m).1
          (chan (n.pop x rest) x i) (handleFound i s ws m).2 := apply_moves rfl rfl rfl still asks sends
      exact Acts.inv' ⟨moves, h, hs, ht, met, kept⟩
    · simp only [Option.filter, live, decide_false, Bool.false_eq_true, if_false, Option.map_none, Option.getD_none]
      have moves : Moves n ((n.pop x rest).apply x i (s, [])) x i j s (chan (n.pop x rest) x i) [] :=
        apply_moves rfl rfl rfl still asks (by simp)
      rw [apply_self (by simpa using hs)] at moves
      exact Acts.inv' ⟨moves, h, hs, ht, met, by simpa using pair.ignore live⟩
  · cases alone with
    | asking new asks none => simp [heard] at none
    | gone gone asked none => simp [heard] at none
    | refused new asked refusal =>
      -- the refusal destroys the opener
      subst new
      rw [heard] at refusal
      obtain ⟨rfl, empty⟩ := List.cons.inj refusal
      have destroyed : ((Option.some ({} : Asocket)).filter (·.phase = .live)).map
          (fun s => (n.pop x rest).apply x i (handleFound i s ws (.aClse 0 i))) =
            some ((n.pop x rest).apply x i ({ phase := .gone, cause := some .peer }, [])) := rfl
      rw [destroyed, Option.getD_some]
      refine h.answered hs rfl no rfl (store_sock_self _ x i _) rfl ?_ ?_ ?_ (.gone rfl ?_ ?_)
      · exact fun y k ne => store_sock_ne (n.pop x rest) x y i k _ ne
      · intro y k ne
        rw [chan_apply_nil, still y k ne]
      · intro y k _
        rw [opens_apply_nil, asks]
      · rw [opens_apply_nil, asks, asked]
      · rw [chan_apply_nil, empty]

end Deliver

/-- Every step runs to its end and keeps the invariant. -/
theorem Inv.step (h : Inv n) (e : Event) : ∃ n', Sockets.step n e = some n' ∧ Inv n' := by
  cases e with
  | connect x => exact ⟨_, rfl, h.connect x⟩
  | fd x i ws rs =>
    rw [Sockets.step]
    cases hs : n.sock x i with
    | none => exact ⟨n, rfl, h⟩
    | some s =>
      by_cases asked : wanted s ws rs = true
      · obtain ⟨r, eq, kept⟩ := h.fd hs asked
        exact ⟨n.apply x i r, by simp [asked, eq], kept⟩
      · exact ⟨n, by simp [asked], h⟩
  | deliver x service ws =>
    rw [Sockets.step]
    cases first : n.wire x with
    | nil => exact ⟨n, rfl, h⟩
    | cons m rest =>
      refine ⟨_, rfl, ?_⟩
      cases dst : m.dst with
      | some i => exact h.deliver first dst service ws
      | none =>
        cases m with
        | aOpen a =>
          have o := h.opener first
          cases service with
          | true => exact h.accept o
          | false => exact h.refuse o
        | _ => simp [Packet.dst] at dst

theorem Inv.run (h : Inv n) (events : List Event) : ∃ n', Sockets.run n events = some n' ∧ Inv n' := by
  induction events generalizing n with
  | nil => exact ⟨n, rfl, h⟩
  | cons e events ih =>
    obtain ⟨n₁, eq, kept⟩ := h.step e
    obtain ⟨n', eq', kept'⟩ := ih kept
    refine ⟨n', ?_, kept'⟩
    rw [Sockets.run, List.foldlM_cons, eq]
    exact eq'

end Steps

/-! ## What a transport's streams keep -/

/-- No run calls `ready` of a peer that is not there. -/
theorem never_null (events : List Event) : ∃ n, run Net.start events = some n := by
  obtain ⟨n, eq, -⟩ := Inv.start.run events
  exact ⟨n, eq⟩

theorem reachable_inv {events : List Event} {n : Net} (ran : run Net.start events = some n) : Inv n := by
  obtain ⟨n', eq, inv⟩ := Inv.start.run events
  obtain rfl := Option.some.inj (ran.symm.trans eq)
  exact inv

section Reached

variable {events : List Event} {n : Net} {x : Side} {i j : Nat} {s t : Asocket}

/-- What a socket wrote is what its peer read, from the start on and in order. Nothing is
    missing while the socket is open, but for what is on its way; and once the peer's
    `A_CLSE` has closed it, nothing but what it held when it was destroyed, which is
    nothing while it is not. -/
theorem stream_intact (ran : run Net.start events = some n) (hs : n.sock x i = some s)
    (ht : n.sock x.other j = some t) (met : s.peer = some j ∨ t.peer = some i) :
    t.put ++ t.pkts.flatten <+: s.got ∧
      (t.phase = .live → s.got = t.put ++ t.pkts.flatten ++ (flight (chan n x.other j)).flatten) ∧
      (t.cause = some .peer → s.got = t.put ++ t.pkts.flatten ++ t.lost) ∧ (t.phase ≠ .gone → t.lost = []) := by
  have pair := (reachable_inv ran).pair_of_met hs ht met
  exact ⟨pair.there.queued_le, pair.there.exact, pair.there.whole, pair.there.kept⟩

/-- While both ends are open the right to send is in one place: with the reader, in a packet
    on its way, in the queue or in an `A_OKAY`. So no queue ever holds two packets, and every
    packet on its way fits the receiver's buffer. -/
theorem one_packet (ran : run Net.start events = some n) (hs : n.sock x i = some s)
    (ht : n.sock x.other j = some t) (met : s.peer = some j ∨ t.peer = some i) :
    (s.phase = .live → t.phase = .live →
      s.fdeRead.toNat + (flight (chan n x.other j)).length + t.pkts.length + okays (chan n x i) = 1) ∧
    t.pkts.length ≤ 1 ∧ ∀ data ∈ flight (chan n x.other j), data.length ≤ maxPayload := by
  have pair := (reachable_inv ran).pair_of_met hs ht met
  refine ⟨pair.there.one, pair.there.short, ?_⟩
  intro data mem
  obtain ⟨m, sent, eq⟩ := List.mem_filterMap.mp mem
  cases pair.there.sends m sent with
  | okay => simp at eq
  | clse => simp at eq
  | wrte data' fits => simpa [← Option.some.inj eq] using fits

/-- When no packet is on its way, no stream is half open or stuck: an open socket's peer is
    open and knows it, and waits for its descriptor to take the queue unless the socket
    itself waits for data. -/
theorem quiescent (ran : run Net.start events = some n) (quiet : ∀ y, n.wire y = []) (hs : n.sock x i = some s)
    (live : s.phase = .live) :
    ∃ j t, n.sock x.other j = some t ∧ s.peer = some j ∧ t.peer = some i ∧ t.phase = .live ∧
      (s.fdeRead = true ∨ t.fdeWrite = true ∧ t.pkts ≠ []) := by
  have inv := reachable_inv ran
  have chans : ∀ y k, chan n y k = [] := fun y k => by simp [chan, quiet]
  have asks : ∀ y, opens n y = [] := fun y => by simp [opens, quiet, opensOf]
  obtain ⟨j, t, ht, met⟩ | ⟨-, -, alone⟩ := inv.linked_or_alone hs
  · have pair := inv.pair_of_met hs ht met
    rw [chans, chans] at pair
    have known := pair.back.linked.resolve_right (by simp)
    have known' := pair.there.linked.resolve_right (by simp)
    have live' : t.phase = .live := by
      by_contra dead
      simpa using pair.back.told dead live
    refine ⟨j, t, ht, known, known', live', ?_⟩
    have one : s.fdeRead.toNat + 0 + t.pkts.length + 0 = 1 := pair.there.one live live'
    cases reads : s.fdeRead with
    | true => exact .inl rfl
    | false =>
      have full : t.pkts ≠ [] := by
        intro empty
        simp [reads, empty] at one
      exact .inr ⟨(pair.back.armed (by simp [live'])).mpr full, full⟩
  · cases alone with
    | asking new one => simp [asks] at one
    | refused new zero refusal => simp [chans] at refusal
    | gone gone => simp [gone] at live

end Reached

/-- A connection over which three bytes are read, of which one is written. -/
def threeBytes : List Event :=
  [.connect .host, .deliver .device true [], .deliver .host true [], .fd .host 1 none (some [.data 1 [2, 3], .eagain]),
    .deliver .device true [.wrote 0, .eagain]]

/-- The reader's file ends, and the writer's descriptor then takes no more. -/
def threeBytesClosed : List Event :=
  threeBytes ++ [.fd .host 1 none (some [.eof]), .deliver .device true [], .fd .device 1 (some [.fail]) none]

theorem three_bytes_intact : ∃ n s t, run Net.start threeBytesClosed = some n ∧ n.sock .host 1 = some s ∧
    n.sock .device 1 = some t ∧ t.cause = some .peer ∧ t.put = [1] ∧ t.lost = [2, 3] ∧
      s.got = t.put ++ t.pkts.flatten ++ t.lost :=
  ⟨_, _, _, rfl, rfl, rfl, rfl, rfl, rfl,
    (@stream_intact threeBytesClosed _ .host 1 1 _ _ rfl rfl rfl (.inl rfl)).2.2.1 rfl⟩

theorem three_bytes_one_packet : ∃ n t, run Net.start threeBytes = some n ∧ n.sock .device 1 = some t ∧
    t.pkts = [[2, 3]] ∧ t.pkts.length ≤ 1 :=
  ⟨_, _, rfl, rfl, rfl, (@one_packet threeBytes _ .host 1 1 _ _ rfl rfl rfl (.inl rfl)).2.1⟩

theorem three_bytes_quiescent : ∃ n s, run Net.start threeBytes = some n ∧ n.sock .host 1 = some s ∧ s.fdeRead = false ∧
    ∃ j t, n.sock .device j = some t ∧ s.peer = some j ∧ t.peer = some 1 ∧ t.phase = .live ∧
      (s.fdeRead = true ∨ t.fdeWrite = true ∧ t.pkts ≠ []) :=
  ⟨_, _, rfl, rfl, rfl, @quiescent threeBytes _ .host 1 _ rfl (by intro y; cases y <;> rfl) rfl rfl⟩

end AmebaLinux.Adb.Sockets
