/-
  AmebaLinux.Adb.RsaProofs — what the signature check of `AmebaLinux.Adb.Rsa` accepts.

  A word array stands for a number (`val`). The word loops compute the steps of
  `AmebaLinux.Lib.Montgomery` on these numbers, without an overflow in 64 bits.

  Proved:
  - `modpow_of_valid`: both exponentiations give the power modulo the modulus, for a number
    below it or a modulus with its highest bit; else the last product may be twice too large.
  - `printed_key_verifies`: what `RSA_verify` accepts with a key that `DumpPublicKey` prints.
-/

import AmebaLinux.Lib.Bytes
import AmebaLinux.Lib.Montgomery
import AmebaLinux.Adb.Rsa
import AmebaLinux.Adb.ShaProofs

namespace AmebaLinux.Adb.Rsa

open AmebaLinux.Lib AmebaLinux.Lib.Bytes

/-- The number in a little-endian word array. -/
def val (ws : List UInt32) : Nat := Nat.ofDigits (2 ^ 32) (ws.map UInt32.toNat)

@[simp] theorem val_nil : val [] = 0 := rfl

@[simp] theorem val_cons (w : UInt32) (ws : List UInt32) : val (w :: ws) = w.toNat + 2 ^ 32 * val ws := Nat.ofDigits_cons

theorem val_singleton (w : UInt32) : val [w] = w.toNat := by simp

theorem val_append (a b : List UInt32) : val (a ++ b) = val a + (2 ^ 32) ^ a.length * val b := by
  rw [val, List.map_append, Nat.ofDigits_append, List.length_map]
  rfl

theorem val_lt (ws : List UInt32) : val ws < (2 ^ 32) ^ ws.length := by
  have h := Nat.ofDigits_lt_base_pow_length (by norm_num : 1 < 2 ^ 32) (l := ws.map UInt32.toNat) (by
    intro d hd
    obtain ⟨w, -, rfl⟩ := List.mem_map.mp hd
    exact w.toNat_lt)
  rwa [List.length_map] at h

/-! ## Subtraction and comparison -/

/-- With a borrow `c` of 0 or 1 in `A`, the difference does not overflow. -/
theorem diff_toInt {A : Int64} {c : Int} (hA : A.toInt = -c) (hc : c = 0 ∨ c = 1) (a n : UInt32) :
    (A + (a.toUInt64 - n.toUInt64).toInt64).toInt = a.toNat - n.toNat - c := by
  have ha := a.toNat_lt
  have hn := n.toNat_lt
  have hsub : ((a.toUInt64 - n.toUInt64).toInt64).toInt = (a.toNat : Int) - n.toNat := by
    change (a.toUInt64 - n.toUInt64).toBitVec.toInt = _
    rw [BitVec.toInt_eq_toNat_bmod]
    change (((a.toUInt64 - n.toUInt64).toNat : Nat) : Int).bmod (2 ^ 64) = _
    rw [UInt64.toNat_sub, UInt32.toNat_toUInt64, UInt32.toNat_toUInt64, Int.bmod_def]
    omega
  rw [Int64.toInt_add, hA, hsub, Int.bmod_def]
  omega

/-- `A >>= 32` rounds down. -/
theorem shift_toInt (x : Int64) : (x >>> 32).toInt = x.toInt / 2 ^ 32 := by
  have hcount : BitVec.smod (32 : Int64).toBitVec 64 = 32#64 := by decide
  change (x >>> 32).toBitVec.toInt = _
  rw [Int64.toBitVec_shiftRight, hcount, BitVec.sshiftRight', BitVec.toInt_sshiftRight, Int.shiftRight_eq_div_pow]
  rfl

theorem low_toNat (x : Int64) : (x.toUInt64.toUInt32.toNat : Int) = x.toInt % 2 ^ 32 := by
  have hx : x.toInt = (x.toUInt64.toNat : Int).bmod (2 ^ 64) := BitVec.toInt_eq_toNat_bmod _
  have hlt := x.toUInt64.toNat_lt
  rw [UInt64.toNat_toUInt32, hx, Int.bmod_def]
  omega

theorem subLoop_length {A : Int64} {as ns : List UInt32} (h : as.length = ns.length) : (subLoop A as ns).length = as.length := by
  induction as generalizing A ns with
  | nil => cases ns <;> rfl
  | cons a as ih =>
    cases ns with
    | nil => simp at h
    | cons n ns => simp only [subLoop, List.length_cons] at h ⊢; rw [ih (by omega)]

/-- The difference, up to the borrow out of the highest word. -/
theorem subLoop_val {A : Int64} {as ns : List UInt32} {c : Nat} (h : as.length = ns.length) (hA : A.toInt = -c)
    (hc : c = 0 ∨ c = 1) :
    ∃ out : Nat, val (subLoop A as ns) + val ns + c = val as + (2 ^ 32) ^ as.length * out := by
  induction as generalizing A ns c with
  | nil =>
    cases ns with
    | nil => exact ⟨c, by simp [subLoop]⟩
    | cons n ns => simp at h
  | cons a as ih =>
    cases ns with
    | nil => simp at h
    | cons n ns =>
      have ha := a.toNat_lt
      have hn := n.toNat_lt
      have hdiff := diff_toInt hA (by omega) a n
      have hlow := low_toNat (A + (a.toUInt64 - n.toUInt64).toInt64)
      have hshift := shift_toInt (A + (a.toUInt64 - n.toUInt64).toInt64)
      rw [hdiff] at hlow hshift
      -- the borrow into the next word
      obtain ⟨c', hc', hlow'⟩ : ∃ c' : Nat, (c' = 0 ∨ c' = 1) ∧
          ((a.toNat : Int) - n.toNat - c) / 2 ^ 32 = -c' ∧
          ((a.toNat : Int) - n.toNat - c) % 2 ^ 32 = a.toNat - n.toNat - c + 2 ^ 32 * c' := by
        by_cases hlt : (a.toNat : Int) - n.toNat - c < 0
        · exact ⟨1, by omega, by omega, by omega⟩
        · exact ⟨0, by omega, by omega, by omega⟩
      have hA' : ((A + (a.toUInt64 - n.toUInt64).toInt64) >>> 32).toInt = -c' := by rw [hshift]; exact hlow'.1
      obtain ⟨out, hout⟩ := ih (Nat.succ_injective h) hA' hc'
      refine ⟨out, ?_⟩
      rw [hlow'.2] at hlow
      simp only [subLoop, val_cons, List.length_cons, pow_succ (2 ^ 32) as.length]
      have hword : (A + (a.toUInt64 - n.toUInt64).toInt64).toUInt64.toUInt32.toNat + n.toNat + c =
        a.toNat + 2 ^ 32 * c' := by omega
      calc _ = ((A + (a.toUInt64 - n.toUInt64).toInt64).toUInt64.toUInt32.toNat + n.toNat + c) +
              2 ^ 32 * (val (subLoop ((A + (a.toUInt64 - n.toUInt64).toInt64) >>> 32) as ns) + val ns) := by ring
        _ = a.toNat + 2 ^ 32 * (val (subLoop ((A + (a.toUInt64 - n.toUInt64).toInt64) >>> 32) as ns) + val ns + c') := by
            rw [hword]; ring
        _ = _ := by rw [hout]; ring

theorem subM_length {n a : List UInt32} (h : a.length = n.length) : (subM n a).length = a.length := subLoop_length h

/-- Where the minuend, taken with a lost digit `k` above it, is not smaller. -/
theorem subM_val {n a : List UInt32} (h : a.length = n.length) {k : Nat} (hle : val n ≤ val a + (2 ^ 32) ^ a.length * k)
    (hlt : val a + (2 ^ 32) ^ a.length * k < val n + (2 ^ 32) ^ a.length) :
    val (subM n a) = val a + (2 ^ 32) ^ a.length * k - val n := by
  obtain ⟨out, hout⟩ := subLoop_val (A := 0) (c := 0) h rfl (Or.inl rfl)
  have hbound := val_lt (subM n a)
  rw [subM_length h] at hbound
  rw [← subM] at hout
  generalize (2 ^ 32) ^ a.length = R at *
  have hk : out = k := by
    rcases Nat.lt_trichotomy out k with hl | he | hg
    · have : R * out + R ≤ R * k := by nlinarith
      omega
    · exact he
    · have : R * k + R ≤ R * out := by nlinarith
      omega
  subst hk
  omega

theorem geM_iff {n a : List UInt32} (h : a.length = n.length) : geM n a = true ↔ val n ≤ val a := by
  induction a using List.reverseRecOn generalizing n with
  | nil =>
    rw [List.length_eq_zero_iff.mp h.symm]
    simp [geM, geLoop]
  | append_singleton a x ih =>
    obtain ⟨ns, y, rfl⟩ := (List.eq_nil_or_concat' n).resolve_left (by rintro rfl; simp at h)
    rw [List.length_append, List.length_append, List.length_singleton, List.length_singleton] at h
    have hlen : a.length = ns.length := by omega
    have ha := val_lt a
    have hn := val_lt ns
    have hstep : geM (ns ++ [y]) (a ++ [x]) = if x < y then false else if y < x then true else geM ns a := by
      rw [geM, List.zip_append hlen, List.reverse_append]
      rfl
    rw [hstep, val_append, val_append, val_singleton, val_singleton, hlen]
    rw [hlen] at ha
    generalize (2 ^ 32) ^ ns.length = R at *
    rcases lt_trichotomy x.toNat y.toNat with hlt | heq | hgt
    · have hmul : R * x.toNat + R ≤ R * y.toNat := by nlinarith
      rw [if_pos (UInt32.lt_iff_toNat_lt.mpr hlt)]
      simp only [Bool.false_eq_true, false_iff, not_le]
      omega
    · rw [if_neg (fun hl => by have := UInt32.lt_iff_toNat_lt.mp hl; omega),
        if_neg (fun hl => by have := UInt32.lt_iff_toNat_lt.mp hl; omega), ih hlen, heq]
      omega
    · have hmul : R * y.toNat + R ≤ R * x.toNat := by nlinarith
      rw [if_neg (fun hl => by have := UInt32.lt_iff_toNat_lt.mp hl; omega), if_pos (UInt32.lt_iff_toNat_lt.mpr hgt)]
      simp only [true_iff]
      omega

/-! ## One Montgomery step -/

/-- A product of two words and a carry and a word besides go into 64 bits. -/
theorem mac_toNat (a b c : UInt32) (A : UInt64) :
    ((A >>> 32) + a.toUInt64 * b.toUInt64 + c.toUInt64).toNat = A.toNat / 2 ^ 32 + a.toNat * b.toNat + c.toNat := by
  have ha := a.toNat_lt
  have hb := b.toNat_lt
  have hc := c.toNat_lt
  have hA := A.toNat_lt
  have hmul : a.toNat * b.toNat ≤ (2 ^ 32 - 1) * (2 ^ 32 - 1) := Nat.mul_le_mul (by omega) (by omega)
  have hhi : (A >>> 32).toNat = A.toNat / 2 ^ 32 := by
    rw [UInt64.toNat_shiftRight, Nat.shiftRight_eq_div_pow]
    rfl
  rw [UInt64.toNat_add, UInt64.toNat_add, UInt64.toNat_mul, hhi, UInt32.toNat_toUInt64, UInt32.toNat_toUInt64,
    UInt32.toNat_toUInt64, Nat.mod_eq_of_lt (by omega : a.toNat * b.toNat < 2 ^ 64),
    Nat.mod_eq_of_lt (by omega : A.toNat / 2 ^ 32 + a.toNat * b.toNat < 2 ^ 64),
    Nat.mod_eq_of_lt (by omega)]

theorem mul_add_toNat (a b c : UInt32) : (a.toUInt64 * b.toUInt64 + c.toUInt64).toNat = a.toNat * b.toNat + c.toNat := by
  have h := mac_toNat a b c 0
  rwa [show (0 : UInt64) >>> 32 = 0 from rfl, UInt64.zero_add, show (0 : UInt64).toNat / 2 ^ 32 = 0 from rfl, Nat.zero_add] at h

theorem montLoop_length (a d0 : UInt32) (A B : UInt64) {bs cs ns : List UInt32} (hb : bs.length = ns.length)
    (hc : cs.length = ns.length) : (montLoop a d0 A B bs cs ns).1.length = ns.length := by
  induction ns generalizing A B bs cs with
  | nil =>
    rw [List.length_eq_zero_iff.mp hb]
    rfl
  | cons n ns ih =>
    obtain ⟨b, bs, rfl⟩ := List.exists_cons_of_length_eq_add_one hb
    obtain ⟨c, cs, rfl⟩ := List.exists_cons_of_length_eq_add_one hc
    simp only [montLoop, List.length_cons] at hb hc ⊢
    rw [ih _ _ (by omega) (by omega)]

/-- What goes in with the carries of `A` and `B` comes out as words and carries. -/
theorem montLoop_val (a d0 : UInt32) (A B : UInt64) {bs cs ns : List UInt32} (hb : bs.length = ns.length)
    (hc : cs.length = ns.length) :
    val (montLoop a d0 A B bs cs ns).1 + (2 ^ 32) ^ ns.length *
        ((montLoop a d0 A B bs cs ns).2.1.toNat / 2 ^ 32 + (montLoop a d0 A B bs cs ns).2.2.toNat / 2 ^ 32) =
      A.toNat / 2 ^ 32 + B.toNat / 2 ^ 32 + a.toNat * val bs + val cs + d0.toNat * val ns := by
  induction ns generalizing A B bs cs with
  | nil =>
    rw [List.length_eq_zero_iff.mp hb, List.length_eq_zero_iff.mp hc]
    simp [montLoop]
  | cons n ns ih =>
    obtain ⟨b, bs, rfl⟩ := List.exists_cons_of_length_eq_add_one hb
    obtain ⟨c, cs, rfl⟩ := List.exists_cons_of_length_eq_add_one hc
    simp only [montLoop, List.length_cons] at hb hc ⊢
    have hA := mac_toNat a b c A
    set A' := (A >>> 32) + a.toUInt64 * b.toUInt64 + c.toUInt64 with hA'
    have hB := mac_toNat d0 n A'.toUInt32 B
    set B' := (B >>> 32) + d0.toUInt64 * n.toUInt64 + A'.toUInt32.toUInt64 with hB'
    have hih := ih A' B' (Nat.succ_injective hb) (Nat.succ_injective hc)
    rw [UInt64.toNat_toUInt32] at hB
    simp only [val_cons, UInt64.toNat_toUInt32, pow_succ (2 ^ 32) ns.length]
    have hAd := Nat.div_add_mod A'.toNat (2 ^ 32)
    have hBd := Nat.div_add_mod B'.toNat (2 ^ 32)
    set r := montLoop a d0 A' B' bs cs ns
    calc _ = B'.toNat % 2 ^ 32 +
          2 ^ 32 * (val r.1 + (2 ^ 32) ^ ns.length * (r.2.1.toNat / 2 ^ 32 + r.2.2.toNat / 2 ^ 32)) := by ring
      _ = 2 ^ 32 * (B'.toNat / 2 ^ 32) + B'.toNat % 2 ^ 32 + 2 ^ 32 * (A'.toNat / 2 ^ 32) +
          2 ^ 32 * (a.toNat * val bs + val cs + d0.toNat * val ns) := by rw [hih]; ring
      _ = B.toNat / 2 ^ 32 + d0.toNat * n.toNat + (2 ^ 32 * (A'.toNat / 2 ^ 32) + A'.toNat % 2 ^ 32) +
          2 ^ 32 * (a.toNat * val bs + val cs + d0.toNat * val ns) := by rw [hBd, hB]; ring
      _ = _ := by rw [hAd, hA]; ring

/-- The first word of `B` is cleared. -/
theorem clear_mod {x n0 n0inv : Nat} (h : 2 ^ 32 ∣ n0inv * n0 + 1) :
    (x % 2 ^ 32 * n0inv % 2 ^ 32 * n0 + x % 2 ^ 32) % 2 ^ 32 = 0 := by
  have hdvd := Montgomery.dvd_sum (B := 2 ^ 32) (N := n0) (m := n0inv) h (x % 2 ^ 32)
  rw [Nat.add_comm]
  exact Nat.eq_zero_of_dvd_of_lt ((Nat.dvd_mod_iff dvd_rfl).mpr hdvd) (Nat.mod_lt _ (by norm_num))

/-- Before the modulus is taken off: the words, and what is above them. -/
theorem montWords_val {key : RSAPublicKey} (a b0 c0 : UInt32) {n0 : UInt32} {ns bs cs : List UInt32} (hn : key.n = n0 :: ns)
    (hinv : Montgomery.Inverse (2 ^ 32) (val key.n) key.n0inv.toNat) (hb : bs.length = ns.length) (hc : cs.length = ns.length) :
    let A := a.toUInt64 * b0.toUInt64 + c0.toUInt64
    let d0 := A.toUInt32 * key.n0inv
    let r := montLoop a d0 A (d0.toUInt64 * n0.toUInt64 + A.toUInt32.toUInt64) bs cs ns
    val r.1 + (2 ^ 32) ^ ns.length * (r.2.1.toNat / 2 ^ 32 + r.2.2.toNat / 2 ^ 32) =
      Montgomery.reduce (2 ^ 32) (val key.n) key.n0inv.toNat (val (c0 :: cs)) a.toNat (val (b0 :: bs)) := by
  intro A d0 r
  have hloop := montLoop_val a d0 A (d0.toUInt64 * n0.toUInt64 + A.toUInt32.toUInt64) hb hc
  have hA : A.toNat = a.toNat * b0.toNat + c0.toNat := mul_add_toNat a b0 c0
  have hB : (d0.toUInt64 * n0.toUInt64 + A.toUInt32.toUInt64).toNat = d0.toNat * n0.toNat + A.toNat % 2 ^ 32 := by
    rw [mul_add_toNat, UInt64.toNat_toUInt32]
  have hsum : val (c0 :: cs) + a.toNat * val (b0 :: bs) = A.toNat + 2 ^ 32 * (val cs + a.toNat * val bs) := by
    rw [hA, val_cons, val_cons]
    ring
  have hd : d0.toNat = A.toNat % 2 ^ 32 * key.n0inv.toNat % 2 ^ 32 := by rw [UInt32.toNat_mul, UInt64.toNat_toUInt32]
  have hdigit : (A.toNat + 2 ^ 32 * (val cs + a.toNat * val bs)) * key.n0inv.toNat % 2 ^ 32 = d0.toNat := by
    rw [hd, Nat.mod_mul_mod, Nat.add_mul, Nat.mul_assoc, Nat.add_mul_mod_self_left]
  rw [hn, val_cons] at hinv
  have hinv0 : 2 ^ 32 ∣ key.n0inv.toNat * n0.toNat + 1 := by
    have hsplit : key.n0inv.toNat * (n0.toNat + 2 ^ 32 * val ns) + 1 =
        2 ^ 32 * (key.n0inv.toNat * val ns) + (key.n0inv.toNat * n0.toNat + 1) := by ring
    rw [Montgomery.Inverse, hsplit] at hinv
    exact (Nat.dvd_add_right (Dvd.intro _ rfl)).mp hinv
  have hzero := clear_mod (x := A.toNat) hinv0
  rw [← hd, ← hB] at hzero
  have hAd := Nat.div_add_mod A.toNat (2 ^ 32)
  have hBd := Nat.mul_div_cancel' (Nat.dvd_of_mod_eq_zero hzero)
  rw [hloop, Montgomery.reduce, hsum, hdigit, hn, val_cons]
  refine (Nat.div_eq_of_eq_mul_right (by norm_num) ?_).symm
  calc A.toNat + 2 ^ 32 * (val cs + a.toNat * val bs) + d0.toNat * (n0.toNat + 2 ^ 32 * val ns)
      = 2 ^ 32 * (A.toNat / 2 ^ 32) + (d0.toNat * n0.toNat + A.toNat % 2 ^ 32) +
          2 ^ 32 * (val cs + a.toNat * val bs + d0.toNat * val ns) := by
        conv_lhs => rw [← hAd]
        ring
    _ = _ := by
        rw [← hB]
        conv_lhs => rw [← hBd]
        ring

/-- The end of `montMulAdd`: what is above the words is put on top, and the modulus is taken
    off where that does not go into a word. -/
theorem carry_spec {n ws : List UInt32} {A : UInt64} {sum : Nat} (hlen : ws.length + 1 = n.length)
    (hsum : val ws + (2 ^ 32) ^ ws.length * A.toNat = sum) (hlt : sum < (2 ^ 32) ^ n.length + val n) :
    (if A >>> 32 ≠ 0 then subM n (ws ++ [A.toUInt32]) else ws ++ [A.toUInt32]).length = n.length ∧
      val (if A >>> 32 ≠ 0 then subM n (ws ++ [A.toUInt32]) else ws ++ [A.toUInt32]) =
        if (2 ^ 32) ^ n.length ≤ sum then sum - val n else sum := by
  have hc : (ws ++ [A.toUInt32]).length = n.length := by rw [List.length_append, List.length_singleton, hlen]
  have hhigh : A >>> 32 ≠ 0 ↔ 2 ^ 32 ≤ A.toNat := by
    rw [Ne, ← UInt64.toNat_inj, UInt64.toNat_shiftRight, Nat.shiftRight_eq_div_pow, show (32 : UInt64).toNat % 64 = 32 from rfl,
      UInt64.toNat_zero]
    omega
  have hpow : (2 ^ 32) ^ n.length = (2 ^ 32) ^ ws.length * 2 ^ 32 := by rw [← hlen, pow_succ]
  have hval : val (ws ++ [A.toUInt32]) + (2 ^ 32) ^ n.length * (A.toNat / 2 ^ 32) = sum := by
    rw [val_append, val_singleton, UInt64.toNat_toUInt32, hpow, ← hsum, Nat.add_assoc, Nat.mul_assoc, ← Nat.mul_add,
      Nat.mod_add_div]
  have hbound := val_lt (ws ++ [A.toUInt32])
  have hn := val_lt n
  rw [hc] at hbound
  by_cases hA : 2 ^ 32 ≤ A.toNat
  · have hge : (2 ^ 32) ^ n.length ≤ sum := by
      rw [← hval]
      exact (Nat.le_mul_of_pos_right _ (Nat.div_pos hA (by norm_num))).trans (Nat.le_add_left _ _)
    rw [if_pos (hhigh.mpr hA), if_pos hge]
    refine ⟨by rw [subM_length hc, hc], ?_⟩
    rw [subM_val hc (k := A.toNat / 2 ^ 32) (by rw [hc, hval]; omega) (by rw [hc, hval]; omega), hc, hval]
  · rw [Nat.div_eq_of_lt (by omega), Nat.mul_zero, Nat.add_zero] at hval
    rw [if_neg (fun h => hA (hhigh.mp h)), if_neg (by omega)]
    exact ⟨hc, hval⟩

/-- `R` of the comments in the source. -/
def radix : Nat := (2 ^ 32) ^ rsaNumWords

theorem val_lt_radix {ws : List UInt32} (h : ws.length = rsaNumWords) : val ws < radix := by
  have hlt := val_lt ws
  rwa [h] at hlt

/-- The key's `n0inv` is `-1 / n[0] mod 2^32`. -/
def Keyed (key : RSAPublicKey) : Prop := Montgomery.Inverse (2 ^ 32) (val key.n) key.n0inv.toNat

section
variable {key : RSAPublicKey} (hkey : Keyed key)
include hkey

/-- One call of `montMulAdd` is one step on the numbers. -/
theorem montMulAdd_spec {b c : List UInt32} (hb : b.length = rsaNumWords) (hc : c.length = rsaNumWords) (a : UInt32) :
    (montMulAdd key c a b).length = rsaNumWords ∧
      val (montMulAdd key c a b) = Montgomery.step (2 ^ 32) radix (val key.n) key.n0inv.toNat (val b) (val c) a.toNat := by
  have hred : Montgomery.reduce (2 ^ 32) (val key.n) key.n0inv.toNat (val c) a.toNat (val b) < radix + val key.n :=
    Montgomery.reduce_lt a.toNat_lt (Nat.lt_add_right _ (val_lt_radix hc)) (val_lt_radix hb).le
  obtain ⟨n0, ns, hn⟩ := List.exists_cons_of_length_eq_add_one key.n_size
  obtain ⟨b0, bs, rfl⟩ := List.exists_cons_of_length_eq_add_one hb
  obtain ⟨c0, cs, rfl⟩ := List.exists_cons_of_length_eq_add_one hc
  have hns : ns.length + 1 = rsaNumWords := by rw [← key.n_size, hn, List.length_cons]
  have hbs : bs.length = ns.length := by rw [List.length_cons] at hb; omega
  have hcs : cs.length = ns.length := by rw [List.length_cons] at hc; omega
  have hsum := montWords_val a b0 c0 hn hkey hbs hcs
  dsimp only at hsum
  generalize hd0 : (a.toUInt64 * b0.toUInt64 + c0.toUInt64).toUInt32 * key.n0inv = d0 at hsum
  generalize hB : d0.toUInt64 * n0.toUInt64 + (a.toUInt64 * b0.toUInt64 + c0.toUInt64).toUInt32.toUInt64 = B at hsum
  have hlen := montLoop_length a d0 (a.toUInt64 * b0.toUInt64 + c0.toUInt64) B hbs hcs
  generalize hr : montLoop a d0 (a.toUInt64 * b0.toUInt64 + c0.toUInt64) B bs cs ns = r at hsum hlen
  obtain ⟨ws, A, B'⟩ := r
  have htop : ((A >>> 32) + (B' >>> 32)).toNat = A.toNat / 2 ^ 32 + B'.toNat / 2 ^ 32 := by
    have hA := A.toNat_lt
    have hB := B'.toNat_lt
    rw [UInt64.toNat_add, UInt64.toNat_shiftRight, UInt64.toNat_shiftRight, Nat.shiftRight_eq_div_pow, Nat.shiftRight_eq_div_pow,
      show (32 : UInt64).toNat % 64 = 32 from rfl, Nat.mod_eq_of_lt (by omega)]
  dsimp only at hsum hlen
  rw [← htop, ← hlen] at hsum
  have hcarry := carry_spec (n := key.n) (by rw [hlen, hns, key.n_size]) hsum (by rw [key.n_size]; exact hred)
  unfold montMulAdd
  rw [hn]
  dsimp only
  rw [hd0, hB, hr, ← hn]
  dsimp only
  rw [hcarry.1, hcarry.2, key.n_size, Montgomery.step]
  exact ⟨rfl, rfl⟩

theorem montMul_spec {a b : List UInt32} (hb : b.length = rsaNumWords) :
    (montMul key a b).length = rsaNumWords ∧
      val (montMul key a b) = Montgomery.product (2 ^ 32) radix (val key.n) key.n0inv.toNat (val b) (a.map UInt32.toNat) := by
  have hfold : ∀ c : List UInt32, c.length = rsaNumWords →
      (a.foldl (fun c w => montMulAdd key c w b) c).length = rsaNumWords ∧
        val (a.foldl (fun c w => montMulAdd key c w b) c) =
          (a.map UInt32.toNat).foldl (Montgomery.step (2 ^ 32) radix (val key.n) key.n0inv.toNat (val b)) (val c) := by
    induction a with
    | nil => exact fun c hc => ⟨hc, rfl⟩
    | cons w a ih =>
      intro c hc
      obtain ⟨hlen, hval⟩ := montMulAdd_spec hkey hb hc w
      obtain ⟨hlen', hval'⟩ := ih _ hlen
      rw [List.foldl_cons, List.map_cons, List.foldl_cons, ← hval]
      exact ⟨hlen', hval'⟩
  have hzero : val (List.replicate rsaNumWords 0) = 0 := by
    simp [val, Nat.ofDigits_replicate_zero]
  have h := hfold (List.replicate rsaNumWords 0) (List.length_replicate ..)
  rwa [hzero] at h

/-- On two numbers of 64 words: the product divided by `R`, below `R` and below the sum of
    the second and the modulus. -/
theorem montMul_val {a b : List UInt32} (ha : a.length = rsaNumWords) (hb : b.length = rsaNumWords) (hpos : 0 < val key.n) :
    val (montMul key a b) * radix ≡ val a * val b [MOD val key.n] ∧ val (montMul key a b) < val b + val key.n := by
  have hN := (val_lt_radix key.n_size).le
  have hdigits : ∀ d ∈ a.map UInt32.toNat, d < 2 ^ 32 := by
    intro d hd
    obtain ⟨w, -, rfl⟩ := List.mem_map.mp hd
    exact w.toNat_lt
  have hmod := Montgomery.product_modEq (b := val b) hkey hN (a.map UInt32.toNat)
  rw [List.length_map, ha, ← val] at hmod
  rw [(montMul_spec hkey hb).2]
  exact ⟨hmod, Montgomery.product_lt hpos hdigits⟩

end

/-! ## Exponentiation -/

/-- A key as the comments in `rsa.h` describe it. -/
structure ValidKey (key : RSAPublicKey) : Prop where
  n0inv : Keyed key
  rr : val key.rr ≡ radix ^ 2 [MOD val key.n]
  pos : 0 < val key.n

/-- One subtraction of the modulus brings the last product below it: the number is below the
    modulus already, or the modulus has its highest bit. -/
def OneSubtraction (key : RSAPublicKey) (a : List UInt32) : Prop := val a < val key.n ∨ radix ≤ 2 * val key.n

theorem ValidKey.coprime {key : RSAPublicKey} (h : ValidKey key) : Nat.Coprime (val key.n) radix :=
  h.n0inv.coprime.pow_right _

theorem reduceOnce_val {key : RSAPublicKey} {aaa : List UInt32} (hlen : aaa.length = rsaNumWords) (h : val aaa < 2 * val key.n) :
    val (reduceOnce key aaa) = val aaa % val key.n := by
  have hn : aaa.length = key.n.length := by rw [hlen, key.n_size]
  have hbound := val_lt_radix hlen
  rw [← Montgomery.mod_of_lt_two_mul h, reduceOnce]
  by_cases hge : val key.n ≤ val aaa
  · rw [if_pos ((geM_iff hn).mpr hge), if_pos hge, subM_val hn (k := 0) (by omega) (by rw [hlen, ← radix]; omega)]
    rfl
  · rw [if_neg (fun h => hge ((geM_iff hn).mp h)), if_neg hge]

section
variable {key : RSAPublicKey} (hkey : ValidKey key) {a : List UInt32} (ha : a.length = rsaNumWords)
include hkey ha

/-- The last product, of a number in Montgomery form and of `a` itself. -/
theorem last_product {aR : List UInt32} {X : Nat} (haR : aR.length = rsaNumWords)
    (hform : Montgomery.Form radix (val key.n) (val aR) X)
    (hone : OneSubtraction key a) : val (reduceOnce key (montMul key aR a)) = X * val a % val key.n := by
  obtain ⟨hlen, -⟩ := montMul_spec hkey.n0inv (a := aR) ha
  obtain ⟨hmod, hlt⟩ := montMul_val hkey.n0inv haR ha hkey.pos
  have hradix := val_lt_radix hlen
  have htwo : val (montMul key aR a) < 2 * val key.n := by
    rcases hone with h | h <;> omega
  rw [reduceOnce_val hlen htwo]
  exact hform.leave hkey.coprime hmod

/-- `aR` after the first product. -/
theorem first_product : (montMul key a key.rr).length = rsaNumWords ∧
    Montgomery.Form radix (val key.n) (val (montMul key a key.rr)) (val a) :=
  ⟨(montMul_spec hkey.n0inv key.rr_size).1,
    Montgomery.Form.enter hkey.coprime hkey.rr (montMul_val hkey.n0inv ha key.rr_size hkey.pos).1⟩

/-- A square of a number in Montgomery form. -/
theorem square_form {X : Nat} (hform : Montgomery.Form radix (val key.n) (val a) X) :
    (montMul key a a).length = rsaNumWords ∧ Montgomery.Form radix (val key.n) (val (montMul key a a)) (X * X) :=
  ⟨(montMul_spec hkey.n0inv ha).1, hform.mul hkey.coprime hform (montMul_val hkey.n0inv ha ha hkey.pos).1⟩

end

/-! ## Bytes and words -/

/-- The number in a big-endian byte array. -/
def number (bytes : List UInt8) : Nat := leNat bytes.reverse

/-- The last `k` bytes of a number, big-endian. -/
def bigEndian (k n : Nat) : List UInt8 := (toLe k n).reverse

theorem bigEndian_number (bytes : List UInt8) : bigEndian bytes.length (number bytes) = bytes := by
  rw [bigEndian, number, ← List.length_reverse, toLe_leNat, List.reverse_reverse]

theorem leNat_append (a b : List UInt8) : leNat (a ++ b) = leNat a + 256 ^ a.length * leNat b := by
  induction a with
  | nil => simp [leNat]
  | cons x a ih =>
    rw [List.cons_append, leNat, leNat, ih, List.length_cons, pow_succ]
    ring

theorem leNat_wordBytes (w : UInt32) : leNat (Sha.wordBytes w).reverse = w.toNat := by
  have hw := w.toNat_lt
  have hbyte : ∀ k : UInt32, k.toNat < 32 → (w >>> k).toUInt8.toNat = w.toNat / 2 ^ k.toNat % 256 := by
    intro k hk
    rw [UInt32.toNat_toUInt8, UInt32.toNat_shiftRight, Nat.mod_eq_of_lt hk, Nat.shiftRight_eq_div_pow]
  have h24 : (w >>> 24).toUInt8.toNat = w.toNat / 2 ^ 24 % 256 := hbyte 24 (by decide)
  have h16 : (w >>> 16).toUInt8.toNat = w.toNat / 2 ^ 16 % 256 := hbyte 16 (by decide)
  have h8 : (w >>> 8).toUInt8.toNat = w.toNat / 2 ^ 8 % 256 := hbyte 8 (by decide)
  simp only [Sha.wordBytes, List.reverse_cons, List.reverse_nil, List.nil_append, List.cons_append, leNat, h24, h16, h8,
    UInt32.toNat_toUInt8]
  omega

theorem toBytes_cons (w : UInt32) (ws : List UInt32) : toBytes (w :: ws) = toBytes ws ++ Sha.wordBytes w := by
  rw [toBytes, List.reverse_cons, List.flatMap_append, ← toBytes, List.flatMap_singleton]

theorem toBytes_length (ws : List UInt32) : (toBytes ws).length = 4 * ws.length := by
  induction ws with
  | nil => rfl
  | cons w ws ih =>
    rw [toBytes_cons, List.length_append, ih, List.length_cons]
    rfl

theorem number_toBytes (ws : List UInt32) : number (toBytes ws) = val ws := by
  induction ws with
  | nil => rfl
  | cons w ws ih =>
    have hlen : (Sha.wordBytes w).reverse.length = 4 := by rw [List.length_reverse]; rfl
    rw [number, toBytes_cons, List.reverse_append, leNat_append, leNat_wordBytes, ← number, ih, val_cons, hlen,
      show 256 ^ 4 = 2 ^ 32 by norm_num]

theorem wordBytes_word (b0 b1 b2 b3 : UInt8) : Sha.wordBytes (Sha.word b0 b1 b2 b3) = [b0, b1, b2, b3] := by
  simp only [Sha.wordBytes, List.cons.injEq, and_true]
  refine ⟨?_, ?_, ?_, ?_⟩
  all_goals
    apply UInt8.toBitVec_inj.mp
    apply BitVec.eq_of_getLsbD_eq
    intro i hi
    interval_cases i <;> simp [Sha.word]

theorem take_four {bytes : List UInt8} {k : Nat} (h : 4 * k + 4 ≤ bytes.length) :
    bytes.take (4 * k) ++ [bytes.getD (4 * k) 0, bytes.getD (4 * k + 1) 0, bytes.getD (4 * k + 2) 0, bytes.getD (4 * k + 3) 0] =
      bytes.take (4 * k + 4) := by
  rw [List.take_add]
  refine congrArg _ (List.ext_getElem ?_ fun i h1 h2 => ?_)
  · rw [List.length_take, List.length_drop]
    simp only [List.length_cons, List.length_nil]
    omega
  · have hi : i < 4 := by simpa using h1
    simp only [List.getElem_take, List.getElem_drop]
    interval_cases i <;> exact (List.getElem_eq_getD 0).symm

/-- Read as words and written again, the bytes are the same. -/
theorem toBytes_toWords {bytes : List UInt8} (h : bytes.length = rsaNumBytes) : toBytes (toWords bytes) = bytes := by
  have hrange : ∀ k, 4 * k ≤ bytes.length →
      ((List.range k).map (Sha.loadWord bytes)).flatMap Sha.wordBytes = bytes.take (4 * k) := by
    intro k hk
    induction k with
    | zero => rfl
    | succ k ih =>
      rw [List.range_succ, List.map_append, List.flatMap_append, ih (by omega), List.map_singleton, List.flatMap_singleton,
        Sha.loadWord, wordBytes_word, take_four (by omega), Nat.mul_succ]
  have hreverse : (toWords bytes).reverse = (List.range rsaNumWords).map (Sha.loadWord bytes) := by
    refine List.ext_getElem (by simp [toWords]) fun i h1 h2 => ?_
    have hi : i < rsaNumWords := by simpa using h2
    simp only [toWords, List.getElem_reverse, List.getElem_map, List.getElem_range, List.length_map, List.length_range]
    congr 1
    omega
  rw [toBytes, hreverse, hrange _ (by rw [h]; decide), List.take_of_length_le (by rw [h]; decide)]

theorem toWords_length (bytes : List UInt8) : (toWords bytes).length = rsaNumWords := by
  rw [toWords, List.length_map, List.length_range]

theorem val_toWords {bytes : List UInt8} (h : bytes.length = rsaNumBytes) : val (toWords bytes) = number bytes := by
  rw [← number_toBytes, toBytes_toWords h]

theorem toBytes_eq {ws : List UInt32} (h : ws.length = rsaNumWords) : toBytes ws = bigEndian rsaNumBytes (val ws) := by
  have hlen : (toBytes ws).length = rsaNumBytes := by rw [toBytes_length, h]; rfl
  rw [← number_toBytes, ← hlen, bigEndian_number]

/-! ## The exponentiations -/

theorem squares_form {key : RSAPublicKey} (hkey : ValidKey key) {aR : List UInt32} {X : Nat} (haR : aR.length = rsaNumWords)
    (hform : Montgomery.Form radix (val key.n) (val aR) X) (k : Nat) :
    ((List.range k).foldl (fun aR _ => montMul key (montMul key aR aR) (montMul key aR aR)) aR).length = rsaNumWords ∧
      Montgomery.Form radix (val key.n)
        (val ((List.range k).foldl (fun aR _ => montMul key (montMul key aR aR) (montMul key aR aR)) aR)) (X ^ 4 ^ k) := by
  induction k with
  | zero => simpa using ⟨haR, hform⟩
  | succ k ih =>
    rw [List.range_succ, List.foldl_append, List.foldl_cons, List.foldl_nil]
    obtain ⟨hlen, hsq⟩ := square_form hkey ih.1 ih.2
    obtain ⟨hlen', hsq'⟩ := square_form hkey hlen hsq
    refine ⟨hlen', ?_⟩
    rwa [show X ^ 4 ^ (k + 1) = X ^ 4 ^ k * X ^ 4 ^ k * (X ^ 4 ^ k * X ^ 4 ^ k) by rw [pow_succ]; ring]

theorem reduceOnce_length {key : RSAPublicKey} {aaa : List UInt32} (hlen : aaa.length = rsaNumWords) :
    (reduceOnce key aaa).length = rsaNumWords := by
  rw [reduceOnce]
  split
  · rw [subM_length (by rw [hlen, key.n_size]), hlen]
  · exact hlen

/-- Both exponentiations give the power modulo the modulus, as 256 bytes. -/
theorem modpow_of_valid {key : RSAPublicKey} (hkey : ValidKey key) {inout : List UInt8} (hlen : inout.length = rsaNumBytes)
    (hone : number inout < val key.n ∨ radix ≤ 2 * val key.n) :
    modpow3 key inout = bigEndian rsaNumBytes (number inout ^ 3 % val key.n) ∧
      modpowF4 key inout = bigEndian rsaNumBytes (number inout ^ 65537 % val key.n) := by
  have ha := toWords_length inout
  rw [← val_toWords hlen] at hone ⊢
  obtain ⟨hfirst, hform⟩ := first_product hkey ha
  refine ⟨?_, ?_⟩
  · obtain ⟨hsq, hsqForm⟩ := square_form hkey hfirst hform
    have hlast := last_product hkey ha hsq hsqForm hone
    rw [modpow3, toBytes_eq (reduceOnce_length (montMul_spec hkey.n0inv ha).1), hlast, ← pow_two, ← pow_succ]
  · obtain ⟨hsq, hsqForm⟩ := squares_form hkey hfirst hform 8
    have hlast := last_product hkey ha hsq hsqForm hone
    rw [modpowF4, toBytes_eq (reduceOnce_length (montMul_spec hkey.n0inv ha).1), hlast, ← pow_succ,
      show 4 ^ 8 + 1 = 65537 by norm_num]

/-! ## Printed keys -/

theorem val_wordsOf (k N : Nat) : val (wordsOf k N) = N % (2 ^ 32) ^ k := by
  induction k generalizing N with
  | zero => simp [wordsOf, Nat.mod_one]
  | succ k ih =>
    rw [wordsOf, val_cons, ih, UInt32.toNat_ofNat', Nat.mod_mod, pow_succ' (2 ^ 32) k, Nat.mod_mul]

theorem modInverse_spec {N B inv : Nat} (hB : 0 < B) (h : modInverse N B = some inv) :
    inv < B ∧ (inv * N : Int) ≡ 1 [ZMOD B] := by
  rw [modInverse] at h
  split at h
  · next hgcd =>
    cases h
    have hpos : (0 : Int) < B := by exact_mod_cast hB
    have hnn := Int.emod_nonneg (N.gcdA B) hpos.ne'
    have hlt := Int.emod_lt_of_pos (N.gcdA B) hpos
    have hbez := Nat.gcd_eq_gcd_ab N B
    rw [hgcd] at hbez
    refine ⟨by omega, ?_⟩
    rw [Int.toNat_of_nonneg hnn]
    calc N.gcdA B % B * N ≡ N.gcdA B * N [ZMOD B] := (Int.mod_modEq _ _).mul_right _
      _ ≡ N.gcdA B * N + B * N.gcdB B [ZMOD B] := by
          rw [Int.modEq_iff_dvd]
          exact ⟨N.gcdB B, by ring⟩
      _ = 1 := by rw [mul_comm, ← hbez]; rfl
  · cases h

/-- `2^32 - N.modInverse(2^32)` is the inverse of `-N`. -/
theorem printed_inverse {N inv : Nat} (h : modInverse N (2 ^ 32) = some inv) :
    Montgomery.Inverse (2 ^ 32) N (UInt32.ofNat (2 ^ 32 - inv)).toNat := by
  obtain ⟨hlt, hmod⟩ := modInverse_spec (by norm_num) h
  have hpos : inv ≠ 0 := by
    rintro rfl
    norm_num [Int.modEq_iff_dvd] at hmod
  rw [UInt32.toNat_ofNat', Nat.mod_eq_of_lt (by omega), Montgomery.Inverse]
  obtain ⟨q, hq⟩ := (Int.modEq_iff_dvd.mp hmod)
  refine Int.natCast_dvd_natCast.mp ⟨N + q, ?_⟩
  rw [Nat.cast_add, Nat.cast_mul, Nat.cast_sub hlt.le]
  push_cast at hq ⊢
  linear_combination hq

theorem checkKey_iff {N e : Nat} : checkKey N e = true ↔ (e = 3 ∨ e = 65537) ∧ N.log2 + 1 = 2048 ∧ N ≠ 0 := by
  simp [checkKey, and_assoc]

/-- What is in a printed key. -/
structure Printed (N e : Nat) (key : RSAPublicKey) : Prop where
  valid : ValidKey key
  modulus : val key.n = N
  highest : radix ≤ 2 * val key.n
  len : key.len = rsaNumWords
  exponent : key.exponent = e
  supported : e = 3 ∨ e = 65537

theorem printed_of_print {N e : Nat} {key : RSAPublicKey} (h : printKey N e = some key) : Printed N e key := by
  rw [printKey] at h
  split at h
  · next hcheck =>
    obtain ⟨he, hbits, hN⟩ := checkKey_iff.mp hcheck
    obtain ⟨inv, hinv, rfl⟩ := Option.map_eq_some_iff.mp h
    have hradix : radix = 2 ^ 2048 := by rw [radix, ← pow_mul, show 32 * rsaNumWords = 2048 from rfl]
    have hlo : 2 ^ 2047 ≤ N := by
      rw [show 2047 = N.log2 by omega]
      exact Nat.log2_self_le hN
    have hhi : N < 2 ^ 2048 := by
      rw [← hbits]
      exact Nat.lt_log2_self
    have hmod : val (wordsOf rsaNumWords N) = N := by
      rw [val_wordsOf, ← radix, hradix, Nat.mod_eq_of_lt hhi]
    refine ⟨⟨?_, ?_, ?_⟩, hmod, ?_, ?_, rfl, he⟩
    · rw [Keyed]
      dsimp only
      rw [hmod]
      exact printed_inverse hinv
    · dsimp only
      rw [hmod, val_wordsOf, ← radix, hbits, hradix, Nat.mod_eq_of_lt ((Nat.mod_lt _ (by omega)).trans hhi), pow_two]
      exact Nat.mod_modEq _ _
    · dsimp only
      omega
    · dsimp only
      rw [hmod, hradix, show 2 ^ 2048 = 2 * 2 ^ 2047 by rw [← pow_succ']]
      omega
    · dsimp only
      rw [hbits]
      rfl
  · cases h

/-! ## Signatures -/

/-- The digest's bytes taken out of a block. -/
def mask (block sha : List UInt8) : List UInt8 :=
  block.take padding.length ++ List.zipWith (· ^^^ ·) (block.drop padding.length) sha

theorem shaOf_eq (data : List UInt8) : shaOf data = Sha.Standard.sha1 data := Sha.sha_eq _ _ data

theorem pad_digest : shaOf (padding ++ List.replicate shaDigestSize 0) = kExpectedPadShaRsa2048 := by decide +kernel

theorem mask_block {sha : List UInt8} (hsha : sha.length = shaDigestSize) :
    mask (padding ++ sha) sha = padding ++ List.replicate shaDigestSize 0 := by
  rw [mask, List.take_left, List.drop_left, ← hsha, List.zipWith_self]
  simp [List.map_const']

theorem padding_length : padding.length = rsaNumBytes - shaDigestSize := by decide +kernel

theorem block_length {sha : List UInt8} (hsha : sha.length = shaDigestSize) : (padding ++ sha).length = rsaNumBytes := by
  rw [List.length_append, padding_length, hsha]
  rfl

/-- A number below the radix is a block exactly as its bytes are. -/
theorem bigEndian_eq_iff {n : Nat} (hn : n < radix) {block : List UInt8} (hlen : block.length = rsaNumBytes) :
    bigEndian rsaNumBytes n = block ↔ n = number block := by
  have hnum : number (bigEndian rsaNumBytes n) = n := by
    rw [number, bigEndian, List.reverse_reverse, leNat_toLe, Nat.mod_eq_of_lt]
    rwa [show 256 ^ rsaNumBytes = radix by
      rw [radix, ← pow_mul, show 256 = 2 ^ 8 from rfl, ← pow_mul, show 8 * rsaNumBytes = 32 * rsaNumWords from rfl]]
  refine ⟨fun h => ?_, fun h => ?_⟩
  · rw [← hnum, h]
  · rw [h, ← hlen, bigEndian_number]

section
variable {N e : Nat} {key : RSAPublicKey} (hkey : Printed N e key) {signature sha : List UInt8}
include hkey

theorem printed_modpow (hlen : signature.length = rsaNumBytes) :
    modpow3 key signature = bigEndian rsaNumBytes (number signature ^ 3 % N) ∧
      modpowF4 key signature = bigEndian rsaNumBytes (number signature ^ 65537 % N) := by
  have h := modpow_of_valid hkey.valid hlen (Or.inr hkey.highest)
  rwa [hkey.modulus] at h

theorem power_lt (k : Nat) : number signature ^ k % N < radix := by
  have hpos := hkey.valid.pos
  have hlt := val_lt_radix key.n_size
  rw [hkey.modulus] at hpos hlt
  exact (Nat.mod_lt _ hpos).trans hlt

theorem e3_iff (he : e = 3) (hsha : sha.length = shaDigestSize) :
    rsaVerify key signature sha = true ↔
      signature.length = rsaNumBytes ∧ number signature ^ 3 % N = number (padding ++ sha) := by
  have hexp : key.exponent = 3 := by rw [hkey.exponent, he]; rfl
  rw [rsaVerify, if_pos hexp, rsaE3Verify, if_neg (not_not.mpr hkey.len)]
  by_cases hlen : signature.length = rsaNumBytes
  · rw [if_neg (not_not.mpr hlen), if_neg (not_not.mpr hexp), (printed_modpow hkey hlen).1,
      ← bigEndian_eq_iff (power_lt hkey 3) (block_length hsha), List.take_of_length_le (by rw [hsha])]
    dsimp only
    rw [Bool.and_eq_true, beq_iff_eq, beq_iff_eq]
    refine ⟨fun h => ⟨hlen, ?_⟩, fun h => ?_⟩
    · rw [← List.take_append_drop padding.length (bigEndian _ _), h.1, h.2]
    · rw [h.2, List.take_left, List.drop_left]
      exact ⟨rfl, rfl⟩
  · rw [if_pos hlen]
    simp [hlen]

theorem f4_iff (he : e = 65537) :
    rsaVerify key signature sha = true ↔ signature.length = rsaNumBytes ∧
      Sha.Standard.sha1 (mask (bigEndian rsaNumBytes (number signature ^ 65537 % N)) sha) =
        Sha.Standard.sha1 (padding ++ List.replicate shaDigestSize 0) := by
  have hexp : key.exponent = 65537 := by rw [hkey.exponent, he]; rfl
  rw [rsaVerify, if_neg (by rw [hexp]; decide), if_pos hexp, rsaEF4Verify, if_neg (not_not.mpr hkey.len)]
  by_cases hlen : signature.length = rsaNumBytes
  · rw [if_neg (not_not.mpr hlen), if_neg (not_not.mpr hexp), (printed_modpow hkey hlen).2, hlen, ← padding_length,
      ← pad_digest, shaOf_eq]
    dsimp only
    rw [beq_iff_eq, shaOf_eq]
    exact ⟨fun h => ⟨rfl, h⟩, fun h => h.2⟩
  · rw [if_pos hlen]
    simp [hlen]

end

/-- A key that `DumpPublicKey` prints: with the exponent 3 exactly the padded digest is
    accepted; with 65537 it is accepted too, and any other block only where SHA-1 does not
    tell it from the padding. -/
theorem printed_key_verifies {N e : Nat} {key : RSAPublicKey} (hprint : printKey N e = some key) (signature : List UInt8)
    {sha : List UInt8} (hsha : sha.length = shaDigestSize) :
    (e = 3 → (rsaVerify key signature sha = true ↔
      signature.length = rsaNumBytes ∧ number signature ^ e % N = number (padding ++ sha))) ∧
    (e = 65537 → signature.length = rsaNumBytes → number signature ^ e % N = number (padding ++ sha) →
      rsaVerify key signature sha = true) ∧
    (e = 65537 → rsaVerify key signature sha = true → signature.length = rsaNumBytes ∧
      Sha.Standard.sha1 (mask (bigEndian rsaNumBytes (number signature ^ e % N)) sha) =
        Sha.Standard.sha1 (padding ++ List.replicate shaDigestSize 0)) := by
  have hkey := printed_of_print hprint
  refine ⟨?_, ?_, ?_⟩
  · rintro rfl
    exact e3_iff hkey rfl hsha
  · intro he hlen hpow
    rw [he] at hpow
    have hblock := (bigEndian_eq_iff (power_lt hkey 65537) (block_length hsha)).mpr hpow
    exact (f4_iff hkey he).mpr ⟨hlen, by rw [hblock, mask_block hsha]⟩
  · intro he hok
    have h := (f4_iff hkey he).mp hok
    rwa [he]

/-- The modulus `2 ^ 2048 - 1` can be printed, and a signature of zeros is not accepted. -/
theorem printed_ones_verifies :
    ∃ key, printKey (2 ^ 2048 - 1) 3 = some key ∧ rsaVerify key (List.replicate 256 0) (List.replicate 20 0) = false := by
  have hsome : (printKey (2 ^ 2048 - 1) 3).isSome = true := by decide +kernel
  obtain ⟨key, hkey⟩ := Option.isSome_iff_exists.mp hsome
  have hiff := (printed_key_verifies hkey (List.replicate 256 0) (@List.length_replicate UInt8 20 0)).1 rfl
  refine ⟨key, hkey, Bool.eq_false_iff.mpr fun hok => ?_⟩
  have hpow := (hiff.mp hok).2
  revert hpow
  decide +kernel

end AmebaLinux.Adb.Rsa
