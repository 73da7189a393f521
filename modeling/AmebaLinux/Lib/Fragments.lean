/-
  AmebaLinux.Lib.Fragments — a list cut into fragments of a fixed size, the last one
  possibly shorter.

  Proved:
  - `flatten_fragments`: enough fragments put together are the list.
  - `fragment_length` / `fragment_full`: how long each one is.
-/

import Mathlib.Tactic

namespace AmebaLinux.Lib.Fragments

variable {α : Type} (n : Nat) (l : List α)

/-- Fragment `k` of `l`, in fragments of `n`. -/
def fragment (k : Nat) : List α := (l.drop (n * k)).take n

/-- The first `count` fragments. -/
def fragments (count : Nat) : List (List α) := (List.range count).map (fragment n l)

variable {n l}

theorem flatten_fragments_take (count : Nat) : (fragments n l count).flatten = l.take (n * count) := by
  induction count with
  | zero => simp [fragments]
  | succ c ih =>
    have : (fragments n l (c + 1)).flatten = (fragments n l c).flatten ++ fragment n l c := by
      simp [fragments, List.range_succ]
    rw [this, ih, fragment, Nat.mul_succ, List.take_add]

theorem flatten_fragments {count : Nat} (h : l.length ≤ n * count) : (fragments n l count).flatten = l := by
  rw [flatten_fragments_take, List.take_of_length_le h]

theorem fragment_length (k : Nat) : (fragment n l k).length = min n (l.length - n * k) := by
  simp [fragment]

theorem fragment_full {k : Nat} (h : n * (k + 1) ≤ l.length) : (fragment n l k).length = n := by
  rw [fragment_length, Nat.mul_succ] at *
  omega

/-- A part of two lists put together: what is next in the first, then in the second. -/
theorem take_drop_of_append (a b : List α) (m d : Nat) :
    (a.drop m).take d ++ (b.drop (m - a.length)).take (d - (a.length - m)) = ((a ++ b).drop m).take d := by
  rw [List.drop_append, List.take_append, List.length_drop]

theorem drop_min_length (m : Nat) : l.drop (min m l.length) = l.drop m := by
  rcases Nat.le_total m l.length with h | h
  · rw [Nat.min_eq_left h]
  · rw [Nat.min_eq_right h, List.drop_length, List.drop_of_length_le h]

/-- A fragment by its length. -/
theorem take_drop_eq_fragment {k d : Nat} (h : d = min n (l.length - n * k)) :
    (l.drop (n * k)).take d = fragment n l k := by
  rw [fragment, List.take_eq_take_iff, List.length_drop]
  omega

end AmebaLinux.Lib.Fragments
