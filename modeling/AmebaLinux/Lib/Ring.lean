/-
  AmebaLinux.Lib.Ring — a ring of slots with a free-running counter.

  Entry `m` goes to slot `m % N`, whatever is there. A reader that wants entry `t` finds
  the latest entry of its slot (`slots_latest`), which is `t` exactly when no more than
  `N` entries have been made since (`latest_eq_iff`).
-/

import Mathlib.Tactic

namespace AmebaLinux.Lib.Ring

variable {α : Type} (N : Nat) (entry initial : Nat → α)

/-- The slots after `n` entries. -/
def slots : Nat → Nat → α
  | 0 => initial
  | n + 1 => Function.update (slots n) (n % N) (entry n)

/-- The latest of the first `n` entries in the slot of entry `t`. -/
def latest (n t : Nat) : Nat := n - 1 - (n - 1 - t) % N

variable {N}

theorem latest_succ_same {n t : Nat} (h : t % N = n % N) : latest N (n + 1) t = n := by
  have hdvd : (n - t) % N = 0 := Nat.sub_mod_eq_zero_of_mod_eq h.symm
  simp [latest, hdvd]

theorem latest_succ_other {n t : Nat} (hN : 0 < N) (ht : t < n) (h : t % N ≠ n % N) : latest N (n + 1) t = latest N n t := by
  have hne : (n - 1 - t + 1) % N ≠ 0 := by
    intro h0
    have hmod : t % N = (t + (n - 1 - t + 1)) % N := by rw [Nat.add_mod, h0, Nat.add_zero, Nat.mod_mod]
    exact h (hmod.trans (by congr 1; omega))
  have hsucc : (n - 1 - t + 1) % N = (n - 1 - t) % N + 1 := by
    rcases Nat.lt_or_ge ((n - 1 - t) % N + 1) N with hlt | hge
    · rw [Nat.add_mod_eq_add_mod_right 1 (Nat.mod_mod _ _).symm, Nat.mod_eq_of_lt hlt]
    · have := Nat.mod_lt (n - 1 - t) hN
      have hfull : (n - 1 - t) % N + 1 = N := by omega
      exact absurd (by rw [Nat.add_mod_eq_add_mod_right 1 (Nat.mod_mod _ _).symm, hfull, Nat.mod_self]) hne
  have hsplit : n - t = n - 1 - t + 1 := by omega
  simp only [latest, Nat.add_sub_cancel, hsplit, hsucc]
  omega

/-- What the slot of an entry holds. -/
theorem slots_latest (hN : 0 < N) {n t : Nat} (h : t < n) :
    slots N entry initial n (t % N) = entry (latest N n t) := by
  induction n with
  | zero => omega
  | succ n ih =>
    by_cases hsame : t % N = n % N
    · rw [latest_succ_same hsame, slots, hsame, Function.update_self]
    · have ht : t < n := by
        rcases Nat.lt_succ_iff_lt_or_eq.mp h with hlt | rfl
        · exact hlt
        · exact absurd rfl hsame
      rw [latest_succ_other hN ht hsame, slots, Function.update_of_ne hsame, ih ht]

theorem latest_eq_iff (hN : 0 < N) {n t : Nat} (h : t < n) : latest N n t = t ↔ n ≤ t + N := by
  have hle : (n - 1 - t) % N ≤ n - 1 - t := Nat.mod_le _ _
  have hmod : (n - 1 - t) % N = n - 1 - t ↔ n - 1 - t < N := Nat.mod_eq_iff_lt (by omega)
  unfold latest
  constructor
  · intro heq
    have := hmod.mp (by omega)
    omega
  · intro hroom
    have := hmod.mpr (by omega)
    omega

end AmebaLinux.Lib.Ring
