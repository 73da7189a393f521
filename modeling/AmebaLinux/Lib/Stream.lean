/-
  AmebaLinux.Lib.Stream — reading a number of bytes from a descriptor that gives them in
  pieces.

  A reader over the answers of `read` that only goes through `readx` does the same as the
  reader over the plain bytes (`Refines`): how the bytes are cut and where reads are
  interrupted makes no difference. `Refines.bind` puts such readers together.
-/

import Mathlib.Tactic

namespace AmebaLinux.Lib.Stream

/-- What one `read` finds: at least one byte, or an interrupt. Behind the last answer the
    stream has ended. -/
inductive Answer
  | data (b : UInt8) (bs : List UInt8)
  | eintr
deriving DecidableEq, Repr

def Answer.bytes : Answer → List UInt8
  | .data b bs => b :: bs
  | .eintr => []

def bytes (src : List Answer) : List UInt8 := src.flatMap Answer.bytes

@[simp] theorem bytes_nil : bytes [] = [] := rfl
@[simp] theorem bytes_data (b : UInt8) (bs : List UInt8) (src : List Answer) :
    bytes (.data b bs :: src) = (b :: bs) ++ bytes src := rfl
@[simp] theorem bytes_eintr (src : List Answer) : bytes (.eintr :: src) = bytes src := rfl

/-- What a read leaves of an answer is found by the next one. -/
def putBack (left : List UInt8) (src : List Answer) : List Answer :=
  match left with
  | [] => src
  | b :: bs => .data b bs :: src

theorem bytes_putBack (left : List UInt8) (src : List Answer) : bytes (putBack left src) = left ++ bytes src := by
  cases left <;> rfl

def readLoop : Nat → List Answer → Option (List UInt8 × List Answer)
  | n, [] => if n = 0 then some ([], []) else none
  | n, a :: src =>
    if n = 0 then some ([], a :: src)
    else
      match a with
      | .eintr => readLoop n src
      | .data b bs =>
        if bs.length + 1 ≤ n then (readLoop (n - (bs.length + 1)) src).map fun r => (b :: bs ++ r.1, r.2)
        else some ((b :: bs).take n, putBack ((b :: bs).drop n) src)

/-- `readx`: all of `n` bytes, or none. -/
def readx (n : Nat) : StateT (List Answer) Option (List UInt8) := readLoop n

/-- The same over plain bytes. -/
def take (n : Nat) : StateT (List UInt8) Option (List UInt8) := fun l =>
  if n ≤ l.length then some (l.take n, l.drop n) else none

theorem take_run_iff {n : Nat} {l : List UInt8} {r : List UInt8 × List UInt8} :
    (take n).run l = some r ↔ n ≤ l.length ∧ (l.take n, l.drop n) = r := by
  simp only [take, StateT.run]
  split <;> simp_all

variable {σ β γ : Type}

theorem bind_run_iff {f : StateT σ Option β} {g : β → StateT σ Option γ} {s : σ} {r : γ × σ} :
    (f >>= g).run s = some r ↔ ∃ b s', f.run s = some (b, s') ∧ (g b).run s' = some r := by
  rw [StateT.run_bind, Option.bind_eq_bind, Option.bind_eq_some_iff]
  exact Prod.exists

/-- A check that ends the reading if it fails. -/
theorem check_run_iff {c : Prop} [Decidable c] {f : StateT σ Option β} {s : σ} {r : β × σ} :
    (if c then f else failure).run s = some r ↔ c ∧ f.run s = some r := by
  by_cases holds : c
  · simp [holds]
  · simp [holds]

theorem pure_run_iff {b : β} {s : σ} {r : β × σ} :
    (pure b : StateT σ Option β).run s = some r ↔ (b, s) = r := by
  rw [StateT.run_pure, Option.pure_def, Option.some.injEq]

/-- `f` reads what `g` reads, however the bytes are cut. -/
def Refines (f : StateT (List Answer) Option β) (g : StateT (List UInt8) Option β) : Prop :=
  ∀ src, (f.run src).map (fun r => (r.1, bytes r.2)) = g.run (bytes src)

theorem readLoop_take (n : Nat) (src : List Answer) :
    (readLoop n src).map (fun r => (r.1, bytes r.2)) = (take n).run (bytes src) := by
  induction src generalizing n with
  | nil =>
    by_cases none : n = 0
    · simp [readLoop, take, StateT.run, none]
    · simp [readLoop, take, StateT.run, none]
  | cons a src ih =>
    by_cases none : n = 0
    · cases a <;> simp [readLoop, take, StateT.run, none]
    · cases a with
      | eintr => simpa [readLoop, none] using ih n
      | data b bs =>
        by_cases all : bs.length + 1 ≤ n
        · have rest := ih (n - (bs.length + 1))
          have split : n = (b :: bs).length + (n - (bs.length + 1)) := by simp; omega
          simp only [readLoop, none, all, if_true, if_false, Option.map_map]
          simp only [take, StateT.run] at rest ⊢
          by_cases enough : n - (bs.length + 1) ≤ (bytes src).length
          · rw [if_pos enough, Option.map_eq_some_iff] at rest
            obtain ⟨r, eq, pair⟩ := rest
            obtain ⟨got, left⟩ := Prod.mk.inj pair
            have enough' : n ≤ (bytes (.data b bs :: src)).length := by
              simp only [bytes_data, List.length_append, List.length_cons]
              omega
            rw [eq, if_pos enough', bytes_data, split, List.take_length_add_append, List.drop_length_add_append]
            simp [got, left]
          · rw [if_neg enough, Option.map_eq_none_iff] at rest
            have short : ¬n ≤ (bytes (.data b bs :: src)).length := by
              simp only [bytes_data, List.length_append, List.length_cons]
              omega
            rw [rest, if_neg short, Option.map_none]
        · have inside : n ≤ (b :: bs).length := by simp; omega
          have inside' : n ≤ (bytes (.data b bs :: src)).length := by
            simp only [bytes_data, List.length_append]
            omega
          simp only [readLoop, none, all, if_false, take, StateT.run, Option.map_some, bytes_putBack]
          rw [if_pos inside', bytes_data, List.take_append_of_le_length inside, List.drop_append_of_le_length inside]

theorem refines_readx (n : Nat) : Refines (readx n) (take n) := readLoop_take n

theorem refines_pure (b : β) : Refines (pure b) (pure b) := fun _ => rfl

theorem refines_failure : Refines (β := β) failure failure := fun _ => rfl

theorem Refines.bind {f : StateT (List Answer) Option β} {g : StateT (List UInt8) Option β}
    {f' : β → StateT (List Answer) Option γ} {g' : β → StateT (List UInt8) Option γ} (h : Refines f g)
    (h' : ∀ b, Refines (f' b) (g' b)) : Refines (f >>= f') (g >>= g') := by
  intro src
  have first := h src
  rw [StateT.run_bind, StateT.run_bind]
  cases run : f.run src with
  | none =>
    rw [run] at first
    rw [← first]
    rfl
  | some r =>
    rw [run] at first
    rw [← first]
    exact h' r.1 r.2

theorem Refines.ite {c : Prop} [Decidable c] {f f' : StateT (List Answer) Option β} {g g' : StateT (List UInt8) Option β}
    (h : Refines f g) (h' : Refines f' g') : Refines (if c then f else f') (if c then g else g') := by
  split
  · exact h
  · exact h'

end AmebaLinux.Lib.Stream
