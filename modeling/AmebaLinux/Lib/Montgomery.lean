/-
  AmebaLinux.Lib.Montgomery — Montgomery products modulo `N`, digit by digit in base `B`.

  `step` adds `a * b` for one digit `a` and divides by `B`; what it adds to make that exact
  is a multiple of `N`. The sum is brought down by one `N` only where it reaches `R`, so a
  product stays below `R` but need not be below `N` (`product_lt`).

  - `product_modEq`: the product times `B ^ k` is the product of the two numbers modulo `N`.
  - `Form`: numbers kept as multiples of `R`; products of forms are forms of the products.
-/

import Mathlib.Data.Nat.Digits.Lemmas
import Mathlib.Data.Nat.ModEq
import Mathlib.Tactic.Linarith
import Mathlib.Tactic.Ring

namespace AmebaLinux.Lib.Montgomery

/-- One digit of the product: a multiple of `N` clears the last digit of `c + a * b`, which
    then goes. -/
def reduce (B N m c a b : Nat) : Nat := (c + a * b + (c + a * b) * m % B * N) / B

/-- The modulus is taken off once where the sum outgrows `R`. -/
def step (B R N m b c a : Nat) : Nat :=
  let r := reduce B N m c a b
  if R ≤ r then r - N else r

/-- The product of the number with the digits `as` and of `b`. -/
def product (B R N m b : Nat) (as : List Nat) : Nat := as.foldl (step B R N m b) 0

/-- `m` is the inverse of `-N` modulo `B`. -/
def Inverse (B N m : Nat) : Prop := B ∣ m * N + 1

variable {B R N m b : Nat}

theorem Inverse.coprime (h : Inverse B N m) : Nat.Coprime N B := by
  have hg : Nat.gcd N B ∣ m * N + 1 := (Nat.gcd_dvd_right N B).trans h
  have hone : Nat.gcd N B ∣ 1 := (Nat.dvd_add_right ((Nat.gcd_dvd_left N B).mul_left m)).mp hg
  exact Nat.dvd_one.mp hone

/-! ## One digit -/

theorem dvd_sum (h : Inverse B N m) (t : Nat) : B ∣ t + t * m % B * N := by
  have hmod : t * m % B * N ≡ t * m * N [MOD B] := (Nat.mod_modEq _ _).mul_right N
  have hsum : t + t * m % B * N ≡ t + t * m * N [MOD B] := hmod.add_left t
  rw [show t + t * m * N = t * (m * N + 1) by ring] at hsum
  exact Nat.modEq_zero_iff_dvd.mp (hsum.trans (Nat.modEq_zero_iff_dvd.mpr (h.mul_left t)))

theorem reduce_mul (h : Inverse B N m) (c a : Nat) :
    reduce B N m c a b * B = c + a * b + (c + a * b) * m % B * N := Nat.div_mul_cancel (dvd_sum h _)

theorem reduce_modEq (h : Inverse B N m) (c a : Nat) : reduce B N m c a b * B ≡ c + a * b [MOD N] := by
  rw [reduce_mul h]
  exact (Nat.modEq_zero_iff_dvd.mpr (Dvd.intro_left _ rfl)).add_left _

theorem reduce_lt {c a X : Nat} (ha : a < B) (hc : c < X + N) (hb : b ≤ X) : reduce B N m c a b < X + N := by
  have hB : 0 < B := by omega
  have hd : (c + a * b) * m % B < B := Nat.mod_lt _ hB
  rw [reduce, Nat.div_lt_iff_lt_mul hB]
  calc c + a * b + (c + a * b) * m % B * N
      ≤ c + (B - 1) * X + (B - 1) * N := by
        gcongr
        · omega
        · omega
    _ < X + N + (B - 1) * X + (B - 1) * N := by omega
    _ = (X + N) * B := by
        obtain ⟨k, rfl⟩ := Nat.exists_eq_succ_of_ne_zero hB.ne'
        simp only [Nat.succ_eq_add_one, Nat.add_sub_cancel]
        ring

theorem step_modEq (h : Inverse B N m) (hN : N ≤ R) (c a : Nat) : step B R N m b c a * B ≡ c + a * b [MOD N] := by
  refine Nat.ModEq.trans ?_ (reduce_modEq (b := b) h c a)
  refine Nat.ModEq.mul_right B ?_
  unfold step
  dsimp only
  split
  · next hr => exact (Nat.modEq_of_dvd (by rw [Nat.cast_sub (hN.trans hr)]; simp))
  · rfl

theorem step_lt {c a X : Nat} (ha : a < B) (hc : c < X + N) (hb : b ≤ X) : step B R N m b c a < X + N := by
  have hr := reduce_lt (m := m) ha hc hb
  unfold step
  dsimp only
  split <;> omega

/-! ## All digits -/

theorem foldl_modEq (h : Inverse B N m) (hN : N ≤ R) (as : List Nat) (c : Nat) :
    as.foldl (step B R N m b) c * B ^ as.length ≡ c + Nat.ofDigits B as * b [MOD N] := by
  induction as generalizing c with
  | nil => simp [Nat.ofDigits_nil, Nat.ModEq.refl]
  | cons a as ih =>
    calc (a :: as).foldl (step B R N m b) c * B ^ (as.length + 1)
        = as.foldl (step B R N m b) (step B R N m b c a) * B ^ as.length * B := by rw [List.foldl_cons, pow_succ, mul_assoc]
      _ ≡ (step B R N m b c a + Nat.ofDigits B as * b) * B [MOD N] := (ih _).mul_right B
      _ = step B R N m b c a * B + Nat.ofDigits B as * b * B := by ring
      _ ≡ c + a * b + Nat.ofDigits B as * b * B [MOD N] := (step_modEq h hN c a).add_right _
      _ = c + Nat.ofDigits B (a :: as) * b := by
          rw [Nat.ofDigits_cons]
          ring

theorem product_modEq (h : Inverse B N m) (hN : N ≤ R) (as : List Nat) :
    product B R N m b as * B ^ as.length ≡ Nat.ofDigits B as * b [MOD N] := by
  simpa [product] using foldl_modEq (b := b) h hN as 0

/-- What one step keeps, all of them do. -/
theorem product_induct {P : Nat → Prop} {as : List Nat} (h0 : P 0) (has : ∀ a ∈ as, a < B)
    (hstep : ∀ c a, a < B → P c → P (step B R N m b c a)) : P (product B R N m b as) :=
  List.foldlRecOn as _ h0 fun c hc a ha => hstep c a (has a ha) hc

theorem product_lt (hN : 0 < N) {as : List Nat} (has : ∀ a ∈ as, a < B) : product B R N m b as < b + N :=
  product_induct (P := (· < b + N)) (by omega) has fun _ _ ha hc => step_lt ha hc le_rfl

/-! ## Montgomery form -/

/-- `x` stands for `X`. -/
def Form (R N x X : Nat) : Prop := x ≡ X * R [MOD N]

variable {x y z X Y : Nat}

/-- Multiplying by `R ^ 2` brings a number into the form. -/
theorem Form.enter (hR : Nat.Coprime N R) {rr : Nat} (hrr : rr ≡ R ^ 2 [MOD N]) (hz : z * R ≡ X * rr [MOD N]) : Form R N z X := by
  refine Nat.ModEq.cancel_right_of_coprime (c := R) hR ?_
  calc z * R ≡ X * rr [MOD N] := hz
    _ ≡ X * R ^ 2 [MOD N] := hrr.mul_left X
    _ = X * R * R := by ring

theorem Form.mul (hR : Nat.Coprime N R) (hx : Form R N x X) (hy : Form R N y Y) (hz : z * R ≡ x * y [MOD N]) :
    Form R N z (X * Y) := by
  refine Nat.ModEq.cancel_right_of_coprime (c := R) hR ?_
  calc z * R ≡ x * y [MOD N] := hz
    _ ≡ X * R * (Y * R) [MOD N] := Nat.ModEq.mul hx hy
    _ = X * Y * R * R := by ring

/-- A product of a form and a plain number leaves the form. -/
theorem Form.leave (hR : Nat.Coprime N R) (hx : Form R N x X) (hz : z * R ≡ x * y [MOD N]) : z ≡ X * y [MOD N] := by
  refine Nat.ModEq.cancel_right_of_coprime (c := R) hR ?_
  calc z * R ≡ x * y [MOD N] := hz
    _ ≡ X * R * y [MOD N] := Nat.ModEq.mul_right y hx
    _ = X * y * R := by ring

/-- One subtraction is enough below twice the modulus. -/
theorem mod_of_lt_two_mul {z N : Nat} (h : z < 2 * N) : (if N ≤ z then z - N else z) = z % N := by
  split
  · next hz => rw [Nat.mod_eq_sub_mod hz, Nat.mod_eq_of_lt (by omega)]
  · next hz => rw [Nat.mod_eq_of_lt (by omega)]

end AmebaLinux.Lib.Montgomery
