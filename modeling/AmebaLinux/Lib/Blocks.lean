/-
  AmebaLinux.Lib.Blocks — a stream taken in blocks of `n` elements.

  `put` takes one element into the open block and folds the block in once it is full.
  - `absorb_fill` / `absorb_short`: elements that fill the open block, and fewer.
  - `absorb_blocks`: a stream of whole blocks is the fold over its fragments, however the
    elements came.
-/

import AmebaLinux.Lib.Fragments

namespace AmebaLinux.Lib.Blocks

open AmebaLinux.Lib.Fragments

variable {α σ : Type} (n : Nat) (f : σ → List α → σ)

/-- What is folded in, and the open block. -/
def put (s : σ × List α) (x : α) : σ × List α :=
  if s.2.length + 1 = n then (f s.1 (s.2 ++ [x]), []) else (s.1, s.2 ++ [x])

def absorb (s : σ × List α) (xs : List α) : σ × List α := xs.foldl (put n f) s

variable {n f}

theorem absorb_append (s : σ × List α) (xs ys : List α) :
    absorb n f s (xs ++ ys) = absorb n f (absorb n f s xs) ys := List.foldl_append

theorem absorb_open_length (hn : 0 < n) (s : σ) (xs : List α) : (absorb n f (s, []) xs).2.length = xs.length % n := by
  induction xs using List.reverseRecOn with
  | nil => simp [absorb]
  | append_singleton xs x ih =>
    have hmod := Nat.mod_lt xs.length hn
    rw [absorb_append, absorb, List.foldl_cons, List.foldl_nil, put, ih, List.length_append, List.length_singleton,
      ← Nat.mod_add_mod]
    split
    · next hfull => rw [hfull, Nat.mod_self, List.length_nil]
    · next hopen => rw [Nat.mod_eq_of_lt (by omega), List.length_append, ih, List.length_singleton]

theorem absorb_short (s : σ) {pend xs : List α} (h : pend.length + xs.length < n) :
    absorb n f (s, pend) xs = (s, pend ++ xs) := by
  induction xs generalizing pend with
  | nil => simp [absorb]
  | cons x xs ih =>
    have hx : put n f (s, pend) x = (s, pend ++ [x]) := by
      rw [put, if_neg (by simp only [List.length_cons] at h ⊢; omega)]
    have hih := @ih (pend ++ [x]) (by simp only [List.length_append, List.length_cons, List.length_nil] at h ⊢; omega)
    rw [absorb, List.foldl_cons, hx, ← absorb, hih, List.append_assoc, List.singleton_append]

theorem absorb_fill (s : σ) {pend xs : List α} (h : pend.length + xs.length = n) (hx : xs ≠ []) :
    absorb n f (s, pend) xs = (f s (pend ++ xs), []) := by
  obtain ⟨ys, y, rfl⟩ := List.eq_nil_or_concat' xs |>.resolve_left hx
  rw [List.length_append, List.length_singleton] at h
  rw [absorb_append, absorb_short s (by omega), absorb, List.foldl_cons, List.foldl_nil, put,
    if_pos (by simp only [List.length_append]; omega), List.append_assoc]

/-- A stream of whole blocks is the fold over its fragments. -/
theorem absorb_blocks (hn : 0 < n) (s : σ) {k : Nat} {xs : List α} (h : xs.length = n * k) :
    absorb n f (s, []) xs = ((fragments n xs k).foldl f s, []) := by
  induction k generalizing s xs with
  | zero =>
    have hnil : xs = [] := List.length_eq_zero_iff.mp h
    rw [hnil]
    rfl
  | succ k ih =>
    have hmul : n * (k + 1) = n * k + n := Nat.mul_succ n k
    have hhead : (xs.take n).length = n := by rw [List.length_take]; omega
    have hne : xs.take n ≠ [] := by
      intro hnil
      rw [hnil, List.length_nil] at hhead
      omega
    have hfrag : fragments n xs (k + 1) = xs.take n :: fragments n (xs.drop n) k := by
      rw [fragments, List.range_succ_eq_map, List.map_cons, List.map_map, fragments]
      refine congrArg _ (List.map_congr_left fun i _ => ?_)
      rw [Function.comp_apply, fragment, fragment, List.drop_drop, Nat.succ_eq_add_one, Nat.mul_succ, Nat.add_comm]
    conv_lhs => rw [← List.take_append_drop n xs]
    rw [absorb_append, absorb_fill s (by simpa using hhead) hne, List.nil_append,
      ih _ (by rw [List.length_drop]; omega), hfrag, List.foldl_cons]

end AmebaLinux.Lib.Blocks
