/-
  AmebaLinux.Lib.Prog — programs over a state that may end the process.

  `Prog σ ε α` runs from a state and either returns or exits, in a state either way.
  `Post x s Q E` says where `x` can end from `s`: `Q` of a returned value and its state,
  `E` of the exit and its state. `Ends R E x` is its relational form: `R` relates the
  states before and after where `x` returns, `E` where it exits. `Moves R x` is for a
  relation that holds however `x` ends.
-/

import Mathlib.Tactic

namespace AmebaLinux.Lib

def Prog (σ ε α : Type) : Type := σ → Except ε α × σ

namespace Prog

variable {σ ε α β : Type}

def ret (a : α) : Prog σ ε α := fun s => (.ok a, s)

def seq (x : Prog σ ε α) (f : α → Prog σ ε β) : Prog σ ε β := fun s =>
  match x s with
  | (.ok a, s') => f a s'
  | (.error e, s') => (.error e, s')

instance : Monad (Prog σ ε) where
  pure := ret
  bind := seq

def get : Prog σ ε σ := fun s => (.ok s, s)

def modify (f : σ → σ) : Prog σ ε Unit := fun s => (.ok (), f s)

/-- A step that always returns. -/
def step (g : σ → α × σ) : Prog σ ε α := fun s => (.ok (g s).1, (g s).2)

def exit (code : ε) : Prog σ ε α := fun s => (.error code, s)

theorem bind_of_ok {x : Prog σ ε α} {f : α → Prog σ ε β} {s s' : σ} {a : α} (h : x s = (.ok a, s')) :
    (x >>= f) s = f a s' := by
  show seq x f s = f a s'
  rw [seq, h]

theorem bind_of_error {x : Prog σ ε α} {f : α → Prog σ ε β} {s s' : σ} {code : ε} (h : x s = (.error code, s')) :
    (x >>= f) s = (.error code, s') := by
  show seq x f s = _
  rw [seq, h]

theorem bind_eq_ok {x : Prog σ ε α} {f : α → Prog σ ε β} {s s'' : σ} {b : β} (h : (x >>= f) s = (.ok b, s'')) :
    ∃ a s', x s = (.ok a, s') ∧ f a s' = (.ok b, s'') := by
  replace h : seq x f s = (.ok b, s'') := h
  rw [seq] at h
  rcases hx : x s with ⟨r, s'⟩
  rw [hx] at h
  cases r with
  | ok a => exact ⟨a, s', rfl, h⟩
  | error e => cases h

/-! ## Where a run ends -/

def Post (x : Prog σ ε α) (s : σ) (Q : α → σ → Prop) (E : ε → σ → Prop) : Prop :=
  match x s with
  | (.ok a, s') => Q a s'
  | (.error e, s') => E e s'

variable {x : Prog σ ε α} {f : α → Prog σ ε β} {s s' : σ} {Q Q' : α → σ → Prop} {E E' : ε → σ → Prop}

theorem Post.of_ok {a : α} (h : Post x s Q E) (hx : x s = (.ok a, s')) : Q a s' := by
  rwa [Post, hx] at h

theorem Post.of_error {e : ε} (h : Post x s Q E) (hx : x s = (.error e, s')) : E e s' := by
  rwa [Post, hx] at h

theorem Post.mono (h : Post x s Q E) (hq : ∀ a s', Q a s' → Q' a s') (he : ∀ e s', E e s' → E' e s') :
    Post x s Q' E' := by
  unfold Post at *
  rcases hx : x s with ⟨r, s'⟩
  rw [hx] at h
  cases r with
  | ok a => exact hq a s' h
  | error e => exact he e s' h

@[simp] theorem post_pure {a : α} : Post (pure a : Prog σ ε α) s Q E ↔ Q a s := Iff.rfl

@[simp] theorem post_exit {e : ε} : Post (exit e : Prog σ ε α) s Q E ↔ E e s := Iff.rfl

@[simp] theorem post_get {Q : σ → σ → Prop} : Post (get : Prog σ ε σ) s Q E ↔ Q s s := Iff.rfl

@[simp] theorem post_modify {g : σ → σ} {Q : Unit → σ → Prop} :
    Post (modify g : Prog σ ε Unit) s Q E ↔ Q () (g s) := Iff.rfl

@[simp] theorem post_step {g : σ → α × σ} : Post (step g : Prog σ ε α) s Q E ↔ Q (g s).1 (g s).2 := Iff.rfl

@[simp] theorem post_bind {Q : β → σ → Prop} :
    Post (x >>= f) s Q E ↔ Post x s (fun a s' => Post (f a) s' Q E) E := by
  show Post (seq x f) s Q E ↔ _
  unfold Post seq
  rcases x s with ⟨r, s'⟩
  cases r <;> exact Iff.rfl

@[simp] theorem post_ite {c : Prop} [Decidable c] {y : Prog σ ε α} :
    Post (if c then x else y) s Q E ↔ if c then Post x s Q E else Post y s Q E := by
  by_cases h : c
  · rw [if_pos h, if_pos h]
  · rw [if_neg h, if_neg h]

/-! ## What a run keeps -/

def Ends (R : σ → σ → Prop) (E : ε → σ → σ → Prop) (x : Prog σ ε α) : Prop :=
  ∀ s, Post x s (fun _ => R s) (fun e => E e s)

abbrev Moves (R : σ → σ → Prop) (x : Prog σ ε α) : Prop := Ends R (fun _ => R) x

section

variable {R : σ → σ → Prop} {E : ε → σ → σ → Prop}

theorem Ends.of_ok {a : α} (h : Ends R E x) (hx : x s = (.ok a, s')) : R s s' := (h s).of_ok hx

theorem Ends.of_error {e : ε} (h : Ends R E x) (hx : x s = (.error e, s')) : E e s s' := (h s).of_error hx

theorem ends_pure (hr : ∀ s, R s s) (a : α) : Ends R E (pure a : Prog σ ε α) := hr

theorem ends_exit {e : ε} (he : ∀ s, E e s s) : Ends R E (exit e : Prog σ ε α) := he

theorem ends_get (hr : ∀ s, R s s) : Ends R E (get : Prog σ ε σ) := hr

theorem ends_modify {g : σ → σ} (h : ∀ s, R s (g s)) : Ends R E (modify g : Prog σ ε Unit) := h

theorem ends_step {g : σ → α × σ} (h : ∀ s, R s (g s).2) : Ends R E (step g : Prog σ ε α) := h

theorem Ends.bind (ht : ∀ {a b c}, R a b → R b c → R a c) (he : ∀ {e a b c}, R a b → E e b c → E e a c) (hx : Ends R E x)
    (hf : ∀ a, Ends R E (f a)) : Ends R E (x >>= f) := by
  intro s
  rw [post_bind]
  refine (hx s).mono (fun a s' h => ?_) (fun _ _ h => h)
  exact (hf a s').mono (fun _ _ h' => ht h h') (fun _ _ h' => he h h')

theorem Ends.ite {c : Prop} [Decidable c] {y : Prog σ ε α} (hx : Ends R E x) (hy : Ends R E y) :
    Ends R E (if c then x else y) := by
  by_cases h : c
  · rwa [if_pos h]
  · rwa [if_neg h]

end

-- a goal `Post x s Q E` must not unfold into running `x`
attribute [irreducible] Post

end Prog

end AmebaLinux.Lib
