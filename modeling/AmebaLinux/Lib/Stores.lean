/-
  AmebaLinux.Lib.Stores — sequences of stores into a list.

  A store changes the element at an index, as a function of what is there. `past n` are the
  stores that land behind the first `n` elements, counted from there: a list cut in two is
  stored to part by part (`apply_append`). `elemAt` is what they make of one element, and
  gives the whole list index by index (`apply_eq_mapIdx`).
-/

import Mathlib.Tactic

namespace AmebaLinux.Lib.Stores

abbrev Store (α : Type) : Type := Nat × (α → α)

variable {α : Type}

def apply (buf : List α) (stores : List (Store α)) : List α := stores.foldl (fun buf s => buf.modify s.1 s.2) buf

/-- The stores behind the first `n` elements. -/
def past (n : Nat) (stores : List (Store α)) : List (Store α) :=
  stores.filterMap fun s => if n ≤ s.1 then some (s.1 - n, s.2) else none

variable {buf a b : List α} {s : Store α} {stores more : List (Store α)} {m n : Nat}

@[simp] theorem apply_length (buf : List α) (stores : List (Store α)) : (apply buf stores).length = buf.length := by
  induction stores generalizing buf with
  | nil => rfl
  | cons s stores ih =>
    have hstep : apply buf (s :: stores) = apply (buf.modify s.1 s.2) stores := rfl
    rw [hstep, ih, List.length_modify]

@[simp] theorem apply_none : apply buf [] = buf := rfl

theorem apply_more : apply buf (stores ++ more) = apply (apply buf stores) more := List.foldl_append

theorem mem_past : s ∈ past n stores ↔ (s.1 + n, s.2) ∈ stores := by
  obtain ⟨i, f⟩ := s
  simp only [past, List.mem_filterMap, Option.ite_none_right_eq_some, Option.some.injEq, Prod.mk.injEq]
  constructor
  · intro ⟨t, ht, hle, hi, hf⟩
    have ht' : (i + n, f) = t := Prod.ext (by omega) hf.symm
    rw [ht']
    exact ht
  · intro h
    exact ⟨_, h, by omega, by omega, rfl⟩

/-- Bounds count from the front, or from `n` on. -/
theorem past_lt_iff : (∀ s ∈ past n stores, s.1 < m) ↔ ∀ s ∈ stores, s.1 < n + m := by
  constructor
  · intro h s hs
    by_cases hn : n ≤ s.1
    · have hmem : (s.1 - n, s.2) ∈ past n stores := by
        rw [mem_past, Nat.sub_add_cancel hn]
        exact hs
      have := h _ hmem
      dsimp only at this
      omega
    · omega
  · intro h s hs
    have := h _ (mem_past.mp hs)
    dsimp only at this
    omega

theorem past_eq_nil (h : ∀ s ∈ stores, s.1 < n) : past n stores = [] := by
  rw [List.eq_nil_iff_forall_not_mem]
  intro s hs
  have hnone : ∀ s ∈ past n stores, s.1 < 0 := past_lt_iff.mpr h
  exact Nat.not_lt_zero _ (hnone s hs)

theorem modify_append (f : α → α) (i : Nat) : (a ++ b).modify i f =
    if i < a.length then a.modify i f ++ b else a ++ b.modify (i - a.length) f := by
  induction a generalizing i with
  | nil => simp
  | cons x a ih =>
    cases i with
    | zero => simp
    | succ i =>
      rw [List.cons_append, List.modify_succ_cons, ih, List.modify_succ_cons, List.length_cons, Nat.add_sub_add_right]
      simp only [Nat.add_lt_add_iff_right]
      split
      · rw [List.cons_append]
      · rw [List.cons_append]

/-- Stores into a list, seen in its two parts. -/
theorem apply_append : apply (a ++ b) stores = apply a stores ++ apply b (past a.length stores) := by
  induction stores generalizing a b with
  | nil => rfl
  | cons s stores ih =>
    have hstep : ∀ buf : List α, apply buf (s :: stores) = apply (buf.modify s.1 s.2) stores := fun _ => rfl
    rw [hstep, hstep]
    by_cases hs : a.length ≤ s.1
    · have hpast : past a.length (s :: stores) = (s.1 - a.length, s.2) :: past a.length stores :=
        List.filterMap_cons_some (if_pos hs)
      have hleft : a.modify s.1 s.2 = a := List.modify_eq_self hs
      rw [hpast, hleft, modify_append, if_neg (by omega), ih]
      rfl
    · have hpast : past a.length (s :: stores) = past a.length stores := List.filterMap_cons_none (if_neg hs)
      rw [hpast, modify_append, if_pos (by omega), ih, List.length_modify]

/-! ## Index by index -/

/-- What the stores make of the element at `i`. -/
def elemAt (stores : List (Store α)) (i : Nat) (x : α) : α := stores.foldl (fun x s => if s.1 = i then s.2 x else x) x

@[simp] theorem elemAt_nil (i : Nat) (x : α) : elemAt [] i x = x := rfl

@[simp] theorem elemAt_cons (i : Nat) (x : α) : elemAt (s :: stores) i x = elemAt stores i (if s.1 = i then s.2 x else x) := rfl

@[simp] theorem elemAt_append (i : Nat) (x : α) : elemAt (stores ++ more) i x = elemAt more i (elemAt stores i x) :=
  List.foldl_append

@[simp] theorem elemAt_if (c : Prop) [Decidable c] (i : Nat) (x : α) :
    elemAt (if c then stores else []) i x = if c then elemAt stores i x else x := by
  split
  · rfl
  · rfl

theorem getElem?_apply (i : Nat) : (apply buf stores)[i]? = buf[i]?.map (elemAt stores i) := by
  induction stores generalizing buf with
  | nil =>
    have hid : elemAt [] i = fun x : α => x := rfl
    rw [apply_none, hid, Option.map_id']
  | cons s stores ih =>
    have hstep : apply buf (s :: stores) = apply (buf.modify s.1 s.2) stores := rfl
    rw [hstep, ih, List.getElem?_modify, Option.map_eq_map, Option.map_map]
    rfl

theorem apply_eq_mapIdx {f : Nat → α → α} (h : ∀ i x, i < buf.length → elemAt stores i x = f i x) :
    apply buf stores = buf.mapIdx f := by
  apply List.ext_getElem?
  intro i
  rw [getElem?_apply, List.getElem?_mapIdx]
  by_cases hi : i < buf.length
  · rw [List.getElem?_eq_getElem hi, Option.map_some, Option.map_some, h i _ hi]
  · rw [List.getElem?_eq_none (by omega), Option.map_none, Option.map_none]

/-- Some of the indices below `n`, each set once. -/
theorem elemAt_range (p : Nat → Prop) [DecidablePred p] (v : Nat → α) (i : Nat) (x : α) :
    elemAt ((List.range n).filterMap fun j => if p j then some (j, fun _ => v j) else none) i x =
      if i < n ∧ p i then v i else x := by
  induction n with
  | zero => rw [if_neg (by omega)]; rfl
  | succ n ih =>
    rw [List.range_succ, List.filterMap_append, elemAt_append, ih]
    by_cases hp : p n
    · have hlast : [n].filterMap (fun j => if p j then some (j, fun _ => v j) else none) = [(n, fun _ : α => v n)] := by
        simp [hp]
      rw [hlast, elemAt_cons, elemAt_nil]
      by_cases hn : n = i
      · subst hn
        have hin : n < n + 1 ∧ p n := ⟨by omega, hp⟩
        rw [if_pos rfl]
        exact (if_pos hin).symm
      · rw [if_neg hn]
        exact if_congr (and_congr_left fun _ => by omega) rfl rfl
    · have hlast : [n].filterMap (fun j => if p j then some (j, fun _ : α => v j) else none) = [] := by simp [hp]
      rw [hlast, elemAt_nil]
      refine if_congr (and_congr_left fun hi => ?_) rfl rfl
      have : i ≠ n := fun hin => hp (hin ▸ hi)
      omega

end AmebaLinux.Lib.Stores
