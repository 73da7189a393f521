/-
  AmebaLinux.Lib.Machine — machines that take one input after the other.

  `run` is the state after a list of inputs. `Along G` says that `G` holds of every input
  in the state it meets. Where an input keeps a property exactly when `G` holds of it, the
  property holds all along a run exactly when `G` does (`always_iff_along`): what breaks a
  property over whole runs is found by looking at one step (`run_iff_along` for a property
  that, once broken, stays so; `always_iff_along_of_rel` where `G` is about a second machine
  that reads the same inputs).
-/

import Mathlib.Tactic

namespace AmebaLinux.Lib.Machine

variable {σ ι : Type} (step : σ → ι → σ)

def run (s : σ) (inputs : List ι) : σ := inputs.foldl step s

variable {s : σ} {i : ι} {a b inputs : List ι}

@[simp] theorem run_nil : run step s [] = s := rfl

@[simp] theorem run_cons : run step s (i :: inputs) = run step (step s i) inputs := rfl

theorem run_append : run step s (a ++ b) = run step (run step s a) b := List.foldl_append

theorem run_snoc : run step s (inputs ++ [i]) = step (run step s inputs) i := run_append step

/-- `G` holds of every input and the state it meets. -/
def Along (G : σ → ι → Prop) : σ → List ι → Prop
  | _, [] => True
  | s, i :: inputs => G s i ∧ Along G (step s i) inputs

variable {step} {G : σ → ι → Prop} {P J : σ → Prop}

theorem along_append : Along step G s (a ++ b) ↔ Along step G s a ∧ Along step G (run step s a) b := by
  induction a generalizing s with
  | nil => simp [Along]
  | cons i a ih => simp [Along, ih, and_assoc]

theorem along_iff_forall : Along step G s inputs ↔ ∀ a i b, inputs = a ++ i :: b → G (run step s a) i := by
  constructor
  · rintro h a i b rfl
    exact (along_append.mp h).2.1
  · intro h
    induction inputs generalizing s with
    | nil => exact trivial
    | cons i inputs ih =>
      refine ⟨h [] i inputs rfl, ih ?_⟩
      rintro a j b rfl
      exact h (i :: a) j b rfl

/-- What every step keeps, every run keeps. -/
theorem run_invariant (hstep : ∀ s i, P s → P (step s i)) (hs : P s) (inputs : List ι) : P (run step s inputs) := by
  induction inputs generalizing s with
  | nil => exact hs
  | cons i inputs ih => exact ih (hstep s i hs)

/-- A part of the state that inputs set or leave is what the last input that sets it says. -/
theorem run_latest {β : Type} {part : σ → β} {set : ι → Option β} (hstep : ∀ s i, part (step s i) = (set i).getD (part s))
    (s : σ) (inputs : List ι) : part (run step s inputs) = (inputs.filterMap set).getLast?.getD (part s) := by
  induction inputs generalizing s with
  | nil => rfl
  | cons i inputs ih =>
    rw [run_cons, ih, hstep, List.filterMap_cons]
    cases set i with
    | none => rfl
    | some b => rw [List.getLast?_cons, Option.getD_some, Option.getD_some]

/-- A property that an input leaves standing exactly when `G` holds of it, in states with
    the invariant `J`, stands at the end exactly when `G` holds along the run. -/
theorem run_iff_along (hJ : ∀ s i, J s → J (step s i)) (hstep : ∀ s i, J s → (P (step s i) ↔ P s ∧ G s i))
    (hj : J s) (inputs : List ι) : P (run step s inputs) ↔ P s ∧ Along step G s inputs := by
  induction inputs generalizing s with
  | nil => simp [Along]
  | cons i inputs ih =>
    rw [run_cons, ih (hJ s i hj), hstep s i hj, and_assoc]
    rfl

/-- A property that an input keeps exactly when `G` holds of it, in states with the
    invariant `J`, holds after every input exactly when `G` holds along the run. -/
theorem always_iff_along (hJ : ∀ s i, J s → J (step s i)) (hstep : ∀ s i, J s → P s → (P (step s i) ↔ G s i))
    (hj : J s) (hs : P s) (inputs : List ι) :
    (∀ pre, pre <+: inputs → P (run step s pre)) ↔ Along step G s inputs := by
  induction inputs generalizing s with
  | nil =>
    refine iff_of_true ?_ trivial
    intro pre hpre
    rw [List.prefix_nil.mp hpre]
    exact hs
  | cons i inputs ih =>
    constructor
    · intro h
      have hfirst : P (step s i) := h [i] (by simp)
      refine ⟨(hstep s i hj hs).mp hfirst, (ih (hJ s i hj) hfirst).mp ?_⟩
      intro pre hpre
      exact h (i :: pre) (List.cons_prefix_cons.mpr ⟨rfl, hpre⟩)
    · rintro ⟨hG, hrest⟩ pre hpre
      have hfirst := (hstep s i hj hs).mpr hG
      rcases List.prefix_cons_iff.mp hpre with rfl | ⟨tail, rfl, htail⟩
      · exact hs
      · exact (ih (hJ s i hj) hfirst).mpr hrest tail htail

/-- A second machine on the same inputs that stays in step with the first (`R`) as long as `G`
    holds of its own states: the property holds after every input exactly when `G` does. -/
theorem always_iff_along_of_rel {τ : Type} {step' : τ → ι → τ} {G' : τ → ι → Prop} {R : σ → τ → Prop} {t : τ}
    (hP : ∀ s t, R s t → P s) (hG : ∀ s t i, R s t → P (step s i) → G' t i)
    (hR : ∀ s t i, R s t → G' t i → R (step s i) (step' t i)) (h : R s t) (inputs : List ι) :
    (∀ pre, pre <+: inputs → P (run step s pre)) ↔ Along step' G' t inputs := by
  induction inputs generalizing s t with
  | nil =>
    refine iff_of_true ?_ trivial
    intro pre hpre
    rw [List.prefix_nil.mp hpre]
    exact hP s t h
  | cons i inputs ih =>
    constructor
    · intro hall
      have hi := hG s t i h (hall [i] (by simp))
      refine ⟨hi, (ih (hR s t i h hi)).mp fun pre hpre => ?_⟩
      exact hall (i :: pre) (List.cons_prefix_cons.mpr ⟨rfl, hpre⟩)
    · rintro ⟨hi, hrest⟩ pre hpre
      rcases List.prefix_cons_iff.mp hpre with rfl | ⟨tail, rfl, htail⟩
      · exact hP s t h
      · exact (ih (hR s t i h hi)).mpr hrest tail htail

end AmebaLinux.Lib.Machine
