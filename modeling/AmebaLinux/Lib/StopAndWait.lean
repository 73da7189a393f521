/-
  AmebaLinux.Lib.StopAndWait — one direction of a stop-and-wait stream.

  The sender takes a message and stops; the receiver gives it out, at once or in parts from
  a queue, and acknowledges when the queue is empty; the acknowledgement lets the sender
  take the next message. Each step keeps two things apart from each other: nothing is lost,
  repeated or reordered (`Exact`), and the right to send exists once (`credit`).
-/

import Mathlib.Tactic

namespace AmebaLinux.Lib.StopAndWait

variable {α : Type*}

structure Lane (α : Type*) where
  /-- Taken by the sender, ever. -/
  taken : List α
  ready : Bool
  flight : List (List α)
  queue : List (List α)
  /-- Given out by the receiver, ever. -/
  given : List α
  acks : Nat

namespace Lane

def Exact (l : Lane α) : Prop := l.taken = l.given ++ l.queue.flatten ++ l.flight.flatten

/-- Where the right to send is: with the sender, in a message, in the queue or in an
    acknowledgement. -/
def credit (l : Lane α) : Nat := l.ready.toNat + l.flight.length + l.queue.length + l.acks

/-- The messages that the receiver has to find room for. -/
def load (l : Lane α) : Nat := l.flight.length + l.queue.length

inductive Step : Lane α → Lane α → Prop
  | take {t f q g a} (m : List α) : Step ⟨t, true, f, q, g, a⟩ ⟨t ++ m, false, f ++ [m], q, g, a⟩
  | accept {t r f g a} (m : List α) : Step ⟨t, r, m :: f, [], g, a⟩ ⟨t, r, f, [], g ++ m, a + 1⟩
  | hold {t r f g a} (x y : List α) : Step ⟨t, r, (x ++ y) :: f, [], g, a⟩ ⟨t, r, f, [y], g ++ x, a⟩
  | append {t r f q g a} (m : List α) (busy : q ≠ []) : Step ⟨t, r, m :: f, q, g, a⟩ ⟨t, r, f, q ++ [m], g, a⟩
  | drain {t r f q g a} (x : List α) (q' : List (List α)) (busy : q ≠ []) (still : q' ≠ [])
      (fewer : q'.length ≤ q.length) (split : x ++ q'.flatten = q.flatten) : Step ⟨t, r, f, q, g, a⟩ ⟨t, r, f, q', g ++ x, a⟩
  | finish {t r f q g a} (busy : q ≠ []) : Step ⟨t, r, f, q, g, a⟩ ⟨t, r, f, [], g ++ q.flatten, a + 1⟩
  | resume {t r f q g a} : Step ⟨t, r, f, q, g, a + 1⟩ ⟨t, true, f, q, g, a⟩

variable {l l' : Lane α}

theorem Step.exact (h : Step l l') (exact : l.Exact) : l'.Exact := by
  cases h with
  | drain x q' busy still fewer split =>
    simp only [Exact, List.append_assoc] at exact ⊢
    rw [exact, ← split, List.append_assoc]
  | _ => simp_all [Exact]

theorem Step.credit_eq_one (h : Step l l') (one : l.credit = 1) : l'.credit = 1 := by
  cases h with
  | drain x q' busy still fewer split =>
    have full := List.length_pos_iff.mpr busy
    have full' := List.length_pos_iff.mpr still
    simp only [credit] at one ⊢
    omega
  | finish busy =>
    -- a second queued message would be a second right to send
    have full := List.length_pos_iff.mpr busy
    simp only [credit, List.length_nil] at one ⊢
    omega
  | @resume t r f q g a =>
    cases r
    · simp [credit] at one ⊢; omega
    · simp [credit] at one; omega
  | _ => simp [credit] at one ⊢; omega

/-- Only the sender adds a message. -/
theorem Step.load_le (h : Step l l') (same : l'.ready = l.ready) : l'.load ≤ l.load := by
  cases h with
  | take m => simp at same
  | drain x q' busy still fewer split => exact Nat.add_le_add_left fewer _
  | resume => exact le_refl _
  | _ => simp only [load, List.length_cons, List.length_append, List.length_nil]; omega

theorem load_le_one (one : l.credit = 1) : l.load ≤ 1 := by
  simp only [credit] at one
  simp only [load]
  omega

/-- What a step of either end may do to a lane that it may also leave alone. -/
structure Keeps (l l' : Lane α) : Prop where
  exact : l.Exact → l'.Exact
  one : l.credit = 1 → l'.credit = 1

theorem Keeps.refl (l : Lane α) : Keeps l l := ⟨id, id⟩

theorem Step.keeps (h : Step l l') : Keeps l l' := ⟨h.exact, h.credit_eq_one⟩

/-- What a step of the receiver may do. -/
structure Eases (l l' : Lane α) : Prop extends Keeps l l' where
  less : l'.load ≤ l.load

theorem Eases.refl (l : Lane α) : Eases l l := ⟨Keeps.refl l, le_refl _⟩

theorem Step.eases (h : Step l l') (same : l'.ready = l.ready) : Eases l l' := ⟨h.keeps, h.load_le same⟩

theorem Exact.given_le (h : l.Exact) : l.given ++ l.queue.flatten <+: l.taken := ⟨_, Eq.symm h⟩

end Lane

end AmebaLinux.Lib.StopAndWait
