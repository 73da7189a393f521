/-
  AmebaLinux.Lib.Dlist — circular doubly linked lists through links in the nodes.

  `Rep l h xs`: the links from the head `h` go through the nodes `xs`, in order, and back to
  `h`. Appending, unlinking and taking the first node follow null links nowhere and do to
  `xs` what they should.
-/

import Mathlib.Tactic

namespace AmebaLinux.Lib.Dlist

variable {α : Type*}

structure Links (α : Type*) where
  next : α → Option α
  prev : α → Option α

namespace Links

variable [DecidableEq α]

def setNext (l : Links α) (a : α) (b : Option α) : Links α := { l with next := Function.update l.next a b }
def setPrev (l : Links α) (a : α) (b : Option α) : Links α := { l with prev := Function.update l.prev a b }

/-- `n` goes before the head, at the end of the list. -/
def append (l : Links α) (h n : α) : Option (Links α) := do
  let l := l.setNext n (some h)
  let p ← l.prev h
  let l := l.setPrev n (some p)
  let l := l.setNext p (some n)
  return l.setPrev h (some n)

/-- `n` is taken out, and its links are null. -/
def unlink (l : Links α) (n : α) : Option (Links α) := do
  let p ← l.prev n
  let q ← l.next n
  let l := l.setNext p (some q)
  let q ← l.next n
  let p ← l.prev n
  let l := l.setPrev q (some p)
  return (l.setNext n none).setPrev n none

/-- The first node, if there is one. -/
def first (l : Links α) (h : α) : Option (Option α) := do
  let n ← l.next h
  return if n = h then none else some n

end Links

/-- The links from `a` through `xs` to `b`. -/
def Path (l : Links α) : α → List α → α → Prop
  | a, [], b => l.next a = some b ∧ l.prev b = some a
  | a, x :: xs, b => (l.next a = some x ∧ l.prev x = some a) ∧ Path l x xs b

structure Rep (l : Links α) (h : α) (xs : List α) : Prop where
  path : Path l h xs h
  nodup : (h :: xs).Nodup

variable {l l' : Links α} {a b h n : α} {xs ys : List α}

theorem path_append : Path l a (xs ++ n :: ys) b ↔ Path l a xs n ∧ Path l n ys b := by
  induction xs generalizing a with
  | nil => simp [Path]
  | cons x xs ih => simp [Path, ih, and_assoc]

/-- A path looks at the next links of all but its end and the previous ones of all but its
    start. -/
theorem Path.congr (next : ∀ c ∈ a :: xs, l'.next c = l.next c) (prev : ∀ c ∈ xs ++ [b], l'.prev c = l.prev c)
    (p : Path l a xs b) : Path l' a xs b := by
  induction xs generalizing a with
  | nil => exact ⟨(next a (by simp)).trans p.1, (prev b (by simp)).trans p.2⟩
  | cons x xs ih =>
    refine ⟨⟨(next a (by simp)).trans p.1.1, (prev x (by simp)).trans p.1.2⟩, ih ?_ ?_ p.2⟩
    · exact fun c mem => next c (List.mem_cons_of_mem _ mem)
    · exact fun c mem => prev c (List.mem_cons_of_mem _ mem)

/-- The last step of a path. -/
theorem Path.last (p : Path l a xs b) : ∃ us c, a :: xs = us ++ [c] ∧ l.next c = some b ∧ l.prev b = some c := by
  induction xs generalizing a with
  | nil => exact ⟨[], a, rfl, p.1, p.2⟩
  | cons x xs ih =>
    obtain ⟨us, c, eq, links⟩ := ih p.2
    exact ⟨a :: us, c, by rw [eq, List.cons_append], links⟩

/-- The first step of a path. -/
theorem Path.head (p : Path l a xs b) : ∃ c vs, xs ++ [b] = c :: vs ∧ l.next a = some c ∧ l.prev c = some a := by
  cases xs with
  | nil => exact ⟨b, [], rfl, p.1, p.2⟩
  | cons x xs => exact ⟨x, xs ++ [b], rfl, p.1.1, p.1.2⟩

/-- The end of a path is moved, by the links of its last step. -/
theorem Path.redirect (p : Path l a xs b) {us : List α} {c : α} (eq : a :: xs = us ++ [c])
    (next : ∀ d ∈ us, l'.next d = l.next d) (prev : ∀ d ∈ xs, l'.prev d = l.prev d)
    (links : l'.next c = some n ∧ l'.prev n = some c) : Path l' a xs n := by
  induction xs generalizing a us with
  | nil =>
    obtain rfl : a = c := by
      cases us with
      | nil => simpa using eq
      | cons u us => simp at eq
    exact links
  | cons x xs ih =>
    cases us with
    | nil => simp at eq
    | cons u us =>
      obtain ⟨rfl, tail⟩ := List.cons.inj eq
      refine ⟨⟨(next a (by simp)).trans p.1.1, (prev x (by simp)).trans p.1.2⟩, ih p.2 tail ?_ ?_⟩
      · exact fun d mem => next d (List.mem_cons_of_mem _ mem)
      · exact fun d mem => prev d (List.mem_cons_of_mem _ mem)

section Operations

variable [DecidableEq α]

theorem append_eq {p : α} (last : l.prev h = some p) :
    l.append h n = some ⟨Function.update (Function.update l.next n (some h)) p (some n),
      Function.update (Function.update l.prev n (some p)) h (some n)⟩ := by
  simp [Links.append, Links.setNext, Links.setPrev, last]

theorem unlink_eq {p q : α} (prev : l.prev n = some p) (next : l.next n = some q) (ne : n ≠ p) :
    l.unlink n = some ⟨Function.update (Function.update l.next p (some q)) n none,
      Function.update (Function.update l.prev q (some p)) n none⟩ := by
  simp [Links.unlink, Links.setNext, Links.setPrev, prev, next, ne]

theorem Rep.append (r : Rep l h xs) (new : n ∉ h :: xs) :
    ∃ l', l.append h n = some l' ∧ Rep l' h (xs ++ [n]) := by
  obtain ⟨us, p, eq, -, last⟩ := r.path.last
  have distinct : (us ++ [p]).Nodup := eq ▸ r.nodup
  have np : n ≠ p := fun e => new (by simp [eq, e])
  have nh : n ≠ h := fun e => new (by simp [e])
  refine ⟨_, append_eq last, ?_, ?_⟩
  · refine path_append.mpr ⟨r.path.redirect eq ?_ ?_ ?_, ?_, ?_⟩
    · intro d mem
      have dn : d ≠ n := fun e => new (by rw [eq, ← e]; simp [mem])
      have dp : d ≠ p := (List.nodup_append.mp distinct).2.2 d mem p (by simp)
      simp [dn, dp]
    · intro d mem
      have dn : d ≠ n := fun e => new (e ▸ List.mem_cons_of_mem _ mem)
      have dh : d ≠ h := fun e => (List.nodup_cons.mp r.nodup).1 (e ▸ mem)
      simp [dn, dh]
    · simp [nh]
    · simp [np]
    · simp
  · rw [← List.cons_append, List.nodup_append]
    refine ⟨r.nodup, by simp, ?_⟩
    intro d mem e e_mem d_eq
    rw [List.mem_singleton.mp e_mem] at d_eq
    exact new (d_eq ▸ mem)

theorem Rep.unlink {us vs : List α} (r : Rep l h (us ++ n :: vs)) :
    ∃ l', l.unlink n = some l' ∧ Rep l' h (us ++ vs) ∧ l'.next n = none ∧ l'.prev n = none := by
  obtain ⟨front, back⟩ := path_append.mp r.path
  obtain ⟨ts, p, eq, -, prev⟩ := front.last
  obtain ⟨q, ws, eq', next, -⟩ := back.head
  have distinct : ((h :: us) ++ n :: vs).Nodup := by simpa using r.nodup
  obtain ⟨nodup, nodup', apart⟩ := List.nodup_append.mp distinct
  have nodup_ts : (ts ++ [p]).Nodup := eq ▸ nodup
  have memp : p ∈ h :: us := by simp [eq]
  have outside : n ∉ h :: us := fun mem => apart n mem n (by simp) rfl
  have outside' : n ∉ vs := (List.nodup_cons.mp nodup').1
  have np : n ≠ p := fun e => outside (e ▸ memp)
  -- `q` is the next node or the head
  have memq : q ∈ vs ∨ q = h := by
    have : q ∈ vs ++ [h] := by simp [eq']
    simpa using this
  have nq : n ≠ q := by
    intro e
    rcases memq with mem | head
    · exact outside' (e ▸ mem)
    · simp [e, head] at outside
  refine ⟨_, unlink_eq prev next np, ⟨?_, ?_⟩, by simp, by simp⟩
  · have turned : Path ⟨Function.update (Function.update l.next p (some q)) n none,
        Function.update (Function.update l.prev q (some p)) n none⟩ h us q := front.redirect eq ?_ ?_ ?_
    · cases vs with
      | nil =>
        obtain rfl : h = q := (List.cons.inj eq').1
        simpa using turned
      | cons v vs =>
        obtain rfl : v = q := (List.cons.inj eq').1
        refine path_append.mpr ⟨turned, back.2.congr ?_ ?_⟩
        · intro c mem
          have cn : c ≠ n := fun e => outside' (e ▸ mem)
          have cp : c ≠ p := fun e => apart p memp c (List.mem_cons_of_mem _ mem) e.symm
          simp [cn, cp]
        · intro c mem
          have cn : c ≠ n := by
            intro e
            rcases List.mem_append.mp mem with mem | mem
            · exact outside' (e ▸ List.mem_cons_of_mem _ mem)
            · exact outside (by simp [← e, List.mem_singleton.mp mem])
          have cv : c ≠ v := by
            intro e
            rcases List.mem_append.mp mem with mem | mem
            · exact (List.nodup_cons.mp (List.nodup_cons.mp nodup').2).1 (e ▸ mem)
            · exact apart h (by simp) c (by simp [e]) (List.mem_singleton.mp mem).symm
          simp [cn, cv]
    · intro d mem
      have dn : d ≠ n := fun e => outside (by rw [eq, ← e]; simp [mem])
      have dp : d ≠ p := (List.nodup_append.mp nodup_ts).2.2 d mem p (by simp)
      simp [dn, dp]
    · intro d mem
      have dn : d ≠ n := fun e => outside (e ▸ List.mem_cons_of_mem _ mem)
      have dq : d ≠ q := by
        intro e
        rcases memq with mem' | head
        · exact apart d (List.mem_cons_of_mem _ mem) q (List.mem_cons_of_mem _ mem') e
        · exact (List.nodup_cons.mp nodup).1 (head ▸ e ▸ mem)
      simp [dn, dq]
    · simp [np.symm, nq.symm]
  · refine List.Nodup.sublist ?_ distinct
    exact (List.Sublist.refl (h :: us)).append (List.sublist_cons_self n vs)

theorem Rep.first_nil (r : Rep l h []) : l.first h = some none := by
  have next : l.next h = some h := r.path.1
  simp [Links.first, next]

theorem Rep.first_cons (r : Rep l h (n :: xs)) : l.first h = some (some n) := by
  have next : l.next h = some n := r.path.1.1
  have ne : n ≠ h := fun e => (List.nodup_cons.mp r.nodup).1 (by simp [e])
  simp [Links.first, next, ne]

end Operations

end AmebaLinux.Lib.Dlist
