/-
  AmebaLinux.Lib.Bytes — little-endian fields and writes into byte buffers.

  `leNat` and `toLe` are the two directions of a little-endian field, `overlay` a
  `memcpy` into a buffer that is longer than what is copied.
-/

import Mathlib.Tactic

namespace AmebaLinux.Lib.Bytes

/-! ## Little-endian fields -/

def leNat : List UInt8 → Nat
  | [] => 0
  | b :: bs => b.toNat + 256 * leNat bs

/-- The `k` low bytes of `n`, least significant first. -/
def toLe : Nat → Nat → List UInt8
  | 0, _ => []
  | k + 1, n => UInt8.ofNat n :: toLe k (n / 256)

@[simp] theorem toLe_length (k n : Nat) : (toLe k n).length = k := by
  induction k generalizing n with
  | zero => rfl
  | succ k ih => simp [toLe, ih]

theorem leNat_toLe (k n : Nat) : leNat (toLe k n) = n % 256 ^ k := by
  induction k generalizing n with
  | zero => simp [toLe, leNat, Nat.mod_one]
  | succ k ih =>
    have h8 : n % 256 % 2 ^ 8 = n % 256 := Nat.mod_eq_of_lt (Nat.mod_lt n (by decide))
    have hb : (UInt8.ofNat n).toNat = n % 256 := by simp
    rw [toLe, leNat, ih, hb, pow_succ', Nat.mod_mul]

theorem leNat_lt (l : List UInt8) : leNat l < 256 ^ l.length := by
  induction l with
  | nil => simp [leNat]
  | cons b l ih =>
    have hb := b.toNat_lt
    rw [leNat, List.length_cons, pow_succ]
    omega

theorem toLe_leNat (l : List UInt8) : toLe l.length (leNat l) = l := by
  induction l with
  | nil => rfl
  | cons b l ih =>
    have hb := b.toNat_lt
    have hlow : UInt8.ofNat (b.toNat + 256 * leNat l) = b := by
      rw [← UInt8.toNat_inj, UInt8.toNat_ofNat']; omega
    have hhigh : (b.toNat + 256 * leNat l) / 256 = leNat l := by omega
    rw [leNat, List.length_cons, toLe, hlow, hhigh, ih]

/-! ## Copies -/

/-- Bytes read inside a buffer do not depend on what follows it. -/
theorem take_drop_append {buf pad : List UInt8} {off n : Nat} (h : off + n ≤ buf.length) :
    ((buf ++ pad).drop off).take n = (buf.drop off).take n := by
  rw [List.drop_append_of_le_length (by omega), List.take_append_of_le_length (by rw [List.length_drop]; omega)]

/-- `memcpy (buf + off, src, src.length)`. -/
def overlay (buf : List UInt8) (off : Nat) (src : List UInt8) : List UInt8 :=
  buf.take off ++ src ++ buf.drop (off + src.length)

theorem overlay_length {buf src : List UInt8} {off : Nat} (h : off + src.length ≤ buf.length) :
    (overlay buf off src).length = buf.length := by
  simp only [overlay, List.length_append, List.length_take, List.length_drop]
  omega

@[simp] theorem overlay_zero_take (buf src : List UInt8) : (overlay buf 0 src).take src.length = src := by
  simp [overlay]

/-- Two copies one after the other are one copy of both. -/
theorem overlay_append {buf a b : List UInt8} {off : Nat} (h : off ≤ buf.length) :
    overlay (overlay buf off a) (off + a.length) b = overlay buf off (a ++ b) := by
  have h1 : (buf.take off ++ a).length = off + a.length := by simp [Nat.min_eq_left h]
  have ht : (overlay buf off a).take (off + a.length) = buf.take off ++ a := by
    rw [overlay, ← h1, List.take_left]
  have hd : (overlay buf off a).drop (off + a.length + b.length) = buf.drop (off + (a ++ b).length) := by
    rw [overlay, ← h1, List.drop_length_add_append, List.drop_drop, h1, Nat.add_assoc, ← List.length_append]
  rw [overlay, ht, hd, overlay, List.append_assoc (buf.take off)]

@[simp] theorem overlay_nil {buf : List UInt8} (off : Nat) : overlay buf off [] = buf := by
  simp [overlay]

section

variable {buf src : List UInt8} {off p n : Nat}

theorem drop_overlay (h : off ≤ buf.length) : (overlay buf off src).drop off = src ++ buf.drop (off + src.length) := by
  have hoff : (buf.take off).length = off := by simp [h]
  rw [overlay, List.append_assoc, List.drop_append, hoff, List.drop_eq_nil_of_le hoff.le, Nat.sub_self, List.drop_zero,
    List.nil_append]

/-- A field before the copy stays. -/
theorem overlay_before (h : off ≤ buf.length) (hp : p + n ≤ off) :
    ((overlay buf off src).drop p).take n = (buf.drop p).take n := by
  rw [overlay, List.append_assoc, take_drop_append (by rw [List.length_take]; omega), List.drop_take, List.take_take,
    Nat.min_eq_left (by omega)]

/-- What follows the copy stays. -/
theorem overlay_after (h : off ≤ buf.length) (hp : off + src.length ≤ p) : (overlay buf off src).drop p = buf.drop p := by
  have hsplit : p = off + src.length + (p - (off + src.length)) := by omega
  have hoff : (buf.take off ++ src).length = off + src.length := by simp [h]
  rw [overlay, hsplit, ← hoff, List.drop_length_add_append, List.drop_drop, hoff]

end

/-! ## Bytes at an offset -/

/-- `bs` stands at offset `p` of `buf`. -/
def At (buf : List UInt8) (p : Nat) (bs : List UInt8) : Prop := ∃ pre post, buf = pre ++ bs ++ post ∧ pre.length = p

theorem At.inside {buf bs : List UInt8} {p : Nat} (h : At buf p bs) : p + bs.length ≤ buf.length := by
  obtain ⟨pre, post, rfl, rfl⟩ := h
  simp only [List.length_append]
  omega

/-- What is read inside a buffer stands there. -/
theorem At.of_inside {buf : List UInt8} {p n : Nat} (h : p + n ≤ buf.length) : At buf p ((buf.drop p).take n) := by
  refine ⟨buf.take p, buf.drop (p + n), ?_, by rw [List.length_take]; omega⟩
  rw [List.append_assoc, ← List.drop_drop, List.take_append_drop, List.take_append_drop]

theorem At.left {buf a b : List UInt8} {p : Nat} (h : At buf p (a ++ b)) : At buf p a := by
  obtain ⟨pre, post, rfl, rfl⟩ := h
  exact ⟨pre, b ++ post, by simp only [List.append_assoc], rfl⟩

theorem At.right {buf a b : List UInt8} {p : Nat} (h : At buf p (a ++ b)) : At buf (p + a.length) b := by
  obtain ⟨pre, post, rfl, rfl⟩ := h
  exact ⟨pre ++ a, post, by simp only [List.append_assoc], by rw [List.length_append]⟩

/-- A part of the bytes, read from the buffer. -/
theorem At.take_drop {buf bs : List UInt8} {p : Nat} (h : At buf p bs) {i n : Nat} (hn : i + n ≤ bs.length) :
    (buf.drop (p + i)).take n = (bs.drop i).take n := by
  obtain ⟨pre, post, rfl, rfl⟩ := h
  rw [List.append_assoc, List.drop_length_add_append, take_drop_append hn]

end AmebaLinux.Lib.Bytes
