/-
  AmebaLinux.Lib.Queue — a list kept in ascending order of a key by insertion before the
  first element whose key is not smaller.

  Proved:
  - `foldl_insert`: inserting elements one after the other gives, key by key in ascending
    order, the elements of that key, the last one first.
  - `pairwise_insert`: an insertion keeps a relation that holds between the new element and
    those of smaller key before it and all those after it.
  - `byKey_perm` / `byKey_map` / `byKey_rel`: that order permutes the elements, and respects
    maps and relations.
-/

import Mathlib.Data.List.Sort
import Mathlib.Tactic

namespace AmebaLinux.Lib.Queue

variable {α : Type} (key : α → Nat)

def insert (q : List α) (x : α) : List α := q.orderedInsert (fun a b => key a ≤ key b) x

/-- Ascending keys below `m`; elements of one key in reverse order of appearance. -/
def byKey (m : Nat) (l : List α) : List α :=
  (List.range m).flatMap fun k => (l.filter fun x => decide (key x = k)).reverse

variable {key}

theorem insert_between {x : α} {a b : List α} (ha : ∀ y ∈ a, key y < key x) (hb : ∀ y ∈ b, key x ≤ key y) :
    insert key (a ++ b) x = a ++ x :: b := by
  induction a with
  | nil =>
    cases b with
    | nil => rfl
    | cons y b => exact List.orderedInsert_cons_of_le _ b (hb y List.mem_cons_self)
  | cons y a ih =>
    have hy : ¬ key x ≤ key y := Nat.not_le.mpr (ha y List.mem_cons_self)
    have hrest := ih fun z hz => ha z (List.mem_cons_of_mem _ hz)
    unfold insert at *
    rw [List.cons_append, List.orderedInsert_cons, if_neg hy, hrest, List.cons_append]

theorem mem_byKey {m : Nat} {l : List α} {x : α} : x ∈ byKey key m l ↔ key x < m ∧ x ∈ l := by
  simp only [byKey, List.mem_flatMap, List.mem_range, List.mem_reverse, List.mem_filter, decide_eq_true_eq]
  constructor
  · intro h
    obtain ⟨k, hk, hx, rfl⟩ := h
    exact ⟨hk, hx⟩
  · intro h
    exact ⟨key x, h.1, h.2, rfl⟩

theorem byKey_append_of_lt {m : Nat} {l : List α} {x : α} (h : m ≤ key x) : byKey key m (l ++ [x]) = byKey key m l := by
  unfold byKey
  refine List.flatMap_congr fun k hk => ?_
  have hne : key x ≠ k := by have := List.mem_range.mp hk; omega
  simp [List.filter_append, hne]

/-- The elements whose keys are `k` or more, below `k + n`. -/
def fromKey (key : α → Nat) (k n : Nat) (l : List α) : List α :=
  (List.range n).flatMap fun i => (l.filter fun x => decide (key x = k + i)).reverse

theorem byKey_split (k n : Nat) (l : List α) : byKey key (k + n) l = byKey key k l ++ fromKey key k n l := by
  simp only [byKey, fromKey, List.range_add, List.flatMap_append, List.flatMap_map]

theorem fromKey_append {n : Nat} {l : List α} {x : α} :
    fromKey key (key x) (n + 1) (l ++ [x]) = x :: fromKey key (key x) (n + 1) l := by
  simp [fromKey, List.range_succ_eq_map, List.flatMap_map, List.filter_append]

theorem insert_byKey {m : Nat} {l : List α} {x : α} (h : key x < m) : insert key (byKey key m l) x = byKey key m (l ++ [x]) := by
  obtain ⟨n, rfl⟩ : ∃ n, m = key x + (n + 1) := ⟨m - key x - 1, by omega⟩
  rw [byKey_split, byKey_split, byKey_append_of_lt le_rfl, fromKey_append]
  refine insert_between ?_ ?_
  · intro y hy
    exact (mem_byKey.mp hy).1
  · intro y hy
    simp only [fromKey, List.mem_flatMap, List.mem_reverse, List.mem_filter, decide_eq_true_eq] at hy
    obtain ⟨i, -, -, hi⟩ := hy
    omega

theorem foldl_insert {m : Nat} {l : List α} (h : ∀ x ∈ l, key x < m) : l.foldl (insert key) [] = byKey key m l := by
  induction l using List.reverseRecOn with
  | nil => simp [byKey]
  | append_singleton l x ih =>
    rw [List.foldl_append, ih fun y hy => h y (List.mem_append_left _ hy)]
    exact insert_byKey (h x (by simp))

theorem foldl_insert_perm (l q : List α) : (l.foldl (insert key) q).Perm (l ++ q) := by
  induction l generalizing q with
  | nil => exact .refl q
  | cons x l ih =>
    have hx : (insert key q x).Perm (x :: q) := List.perm_orderedInsert _ x q
    rw [List.foldl_cons, List.cons_append]
    exact (ih _).trans ((hx.append_left l).trans List.perm_middle)

/-- A relation along the queue is kept by an insertion before which only smaller keys stand. -/
theorem pairwise_insert {R : α → α → Prop} {q : List α} {x : α} (h : q.Pairwise R)
    (hbefore : ∀ y ∈ q, key y < key x → R y x) (hafter : ∀ y ∈ q, R x y) : (insert key q x).Pairwise R := by
  induction q with
  | nil => exact List.pairwise_singleton R x
  | cons y q ih =>
    unfold insert
    rw [List.orderedInsert_cons]
    by_cases hle : key x ≤ key y
    · rw [if_pos hle]
      exact List.pairwise_cons.mpr ⟨hafter, h⟩
    · rw [if_neg hle]
      obtain ⟨hy, hq⟩ := List.pairwise_cons.mp h
      refine List.pairwise_cons.mpr ⟨?_, ih hq (fun z hz => hbefore z (List.mem_cons_of_mem _ hz))
        fun z hz => hafter z (List.mem_cons_of_mem _ hz)⟩
      intro z hz
      rcases (List.mem_orderedInsert _).mp hz with rfl | hz
      · exact hbefore y List.mem_cons_self (Nat.not_le.mp hle)
      · exact hy z hz

theorem byKey_perm {m : Nat} {l : List α} (h : ∀ x ∈ l, key x < m) : (byKey key m l).Perm l := by
  rw [← foldl_insert h]
  simpa using foldl_insert_perm l []

theorem byKey_map {β : Type} (f : β → α) (m : Nat) (l : List β) :
    byKey key m (l.map f) = (byKey (fun x => key (f x)) m l).map f := by
  unfold byKey
  rw [List.map_flatMap]
  refine List.flatMap_congr fun k _ => ?_
  rw [List.filter_map, List.map_reverse]
  rfl

/-- Elements related one by one, with equal keys, stay so. -/
theorem byKey_rel {β : Type} {key' : β → Nat} {R : α → β → Prop} (hkey : ∀ {x y}, R x y → key x = key' y) {m : Nat}
    {l : List α} {l' : List β} (h : List.Forall₂ R l l') : List.Forall₂ R (byKey key m l) (byKey key' m l') := by
  unfold byKey
  induction m with
  | zero => exact .nil
  | succ m ih =>
    simp only [List.range_succ, List.flatMap_append, List.flatMap_cons, List.flatMap_nil, List.append_nil]
    refine List.rel_append ih (List.forall₂_reverse_iff.mpr ?_)
    refine List.rel_filter ?_ h
    intro x y hxy
    simp only [decide_eq_true_eq, hkey hxy]

end AmebaLinux.Lib.Queue
