/-
  AmebaLinux.Lib.Crc — cyclic redundancy checks, bit by bit, in a register of any width.

  The register is the reflected one: it is shifted to the right, and a message bit is
  added to the bit that goes out. If their sum is 1 the polynomial `g` is added to what
  is left. A byte's bits come lowest first.

  Proved:
  - `run_xor`: the register after a sum of messages is the sum of the registers.
  - `run_low`: its low bits may be added to the message instead, which is how a table
    takes several bits at once.
  - `burst_changes`: if the highest bit of `g` is set, an error within as many bits as the
    register has changes what the register ends with.
-/

import Mathlib.Tactic

namespace AmebaLinux.Lib.Crc

variable {n : Nat} (g : BitVec n)

def feed (f : BitVec n) (b : Bool) : BitVec n := if f.getLsbD 0 ^^ b then (f >>> 1) ^^^ g else f >>> 1

def run (f : BitVec n) (bits : List Bool) : BitVec n := bits.foldl (feed g) f

/-- The low bits of a register. -/
def lows (f : BitVec n) (k : Nat) : List Bool := (List.range k).map f.getLsbD

def bitsOf (byte : UInt8) : List Bool := lows byte.toBitVec 8

def bits (bytes : List UInt8) : List Bool := bytes.flatMap bitsOf

/-- The sum of two messages. -/
def add (a b : List Bool) : List Bool := List.zipWith xor a b

/-! ## Messages -/

@[simp] theorem lows_length (f : BitVec n) (k : Nat) : (lows f k).length = k := by simp [lows]

theorem lows_succ (f : BitVec n) (k : Nat) : lows f (k + 1) = f.getLsbD 0 :: lows (f >>> 1) k := by
  simp [lows, List.range_succ_eq_map, Nat.add_comm]

@[simp] theorem bitsOf_length (byte : UInt8) : (bitsOf byte).length = 8 := by simp [bitsOf]

@[simp] theorem bits_cons (byte : UInt8) (bytes : List UInt8) : bits (byte :: bytes) = bitsOf byte ++ bits bytes := rfl

theorem bits_length (bytes : List UInt8) : (bits bytes).length = 8 * bytes.length := by
  induction bytes with
  | nil => rfl
  | cons byte bytes ih => simp [ih]; omega

theorem add_cons (x y : Bool) (a b : List Bool) : add (x :: a) (y :: b) = (x ^^ y) :: add a b := rfl

theorem add_zeros (a : List Bool) : add a (List.replicate a.length false) = a := by
  induction a with
  | nil => rfl
  | cons x a ih => rw [List.length_cons, List.replicate_succ, add_cons, ih, Bool.xor_false]

theorem bitsOf_xor (x y : UInt8) : bitsOf (x ^^^ y) = add (bitsOf x) (bitsOf y) := by
  simp [bitsOf, lows, add]

theorem bits_xor {a b : List UInt8} (h : a.length = b.length) : bits (List.zipWith (· ^^^ ·) a b) = add (bits a) (bits b) := by
  induction a generalizing b with
  | nil => rfl
  | cons x a ih =>
    cases b with
    | nil => cases h
    | cons y b =>
      rw [List.zipWith_cons_cons, bits_cons, bits_cons, bits_cons, bitsOf_xor, ih (Nat.succ.inj h)]
      exact (List.zipWith_append (by simp)).symm

/-! ## Linearity -/

@[simp] theorem run_nil (f : BitVec n) : run g f [] = f := rfl

@[simp] theorem run_cons (f : BitVec n) (b : Bool) (w : List Bool) : run g f (b :: w) = run g (feed g f b) w := rfl

theorem run_append (f : BitVec n) (a b : List Bool) : run g f (a ++ b) = run g (run g f a) b := List.foldl_append

theorem feed_getLsbD (f : BitVec n) (b : Bool) (i : Nat) :
    (feed g f b).getLsbD i = (f.getLsbD (i + 1) ^^ ((f.getLsbD 0 ^^ b) && g.getLsbD i)) := by
  unfold feed
  cases f.getLsbD 0 ^^ b <;> simp [Nat.add_comm]

theorem feed_xor (f f' : BitVec n) (b b' : Bool) : feed g (f ^^^ f') (b ^^ b') = feed g f b ^^^ feed g f' b' := by
  apply BitVec.eq_of_getLsbD_eq
  intro i _
  simp only [feed_getLsbD, BitVec.getLsbD_xor]
  cases f.getLsbD 0 <;> cases f'.getLsbD 0 <;> cases b <;> cases b' <;> cases g.getLsbD i <;> simp

/-- Only the polynomial is added to what is shifted. -/
theorem feed_eq (f : BitVec n) (b : Bool) : feed g f b = (f >>> 1) ^^^ feed g 0#n (b ^^ f.getLsbD 0) := by
  apply BitVec.eq_of_getLsbD_eq
  intro i _
  simp [feed_getLsbD, Nat.add_comm, Bool.xor_comm]

@[simp] theorem feed_zero : feed g 0#n false = 0#n := by simp [feed]

theorem run_zeros (k : Nat) : run g 0#n (List.replicate k false) = 0#n := by
  induction k with
  | zero => rfl
  | succ k ih => simpa [List.replicate_succ] using ih

theorem run_xor (f f' : BitVec n) {a b : List Bool} (h : a.length = b.length) :
    run g (f ^^^ f') (add a b) = run g f a ^^^ run g f' b := by
  induction a generalizing b f f' with
  | nil =>
    cases b with
    | nil => rfl
    | cons y b => cases h
  | cons x a ih =>
    cases b with
    | nil => cases h
    | cons y b => rw [add_cons, run_cons, feed_xor, ih _ _ (Nat.succ.inj h), run_cons, run_cons]

/-- The low bits of the register may be added to the message. -/
theorem run_low (f : BitVec n) (w : List Bool) :
    run g f w = (f >>> w.length) ^^^ run g 0#n (add w (lows f w.length)) := by
  induction w generalizing f with
  | nil => simp [add]
  | cons b w ih =>
    let rest := add w (lows (f >>> 1) w.length)
    have hrest : rest.length = w.length := by simp [rest, add]
    -- the polynomial that the first bit adds runs along with the rest of the message
    have hsum : run g (feed g 0#n (b ^^ f.getLsbD 0)) rest =
        run g 0#n rest ^^^ run g (feed g 0#n (b ^^ f.getLsbD 0)) (List.replicate w.length false) := by
      have h := run_xor g 0#n (feed g 0#n (b ^^ f.getLsbD 0))
        (show rest.length = (List.replicate w.length false).length by simp [hrest])
      rwa [← hrest, add_zeros, BitVec.zero_xor, hrest] at h
    calc run g f (b :: w) = run g ((f >>> 1) ^^^ feed g 0#n (b ^^ f.getLsbD 0)) (add w (List.replicate w.length false)) := by
          rw [run_cons, feed_eq, add_zeros]
      _ = (f >>> 1 >>> w.length) ^^^ run g 0#n rest ^^^ run g (feed g 0#n (b ^^ f.getLsbD 0))
        (List.replicate w.length false) := by
          rw [run_xor g _ _ (by simp), ih]
      _ = (f >>> (b :: w).length) ^^^ run g (feed g 0#n (b ^^ f.getLsbD 0)) rest := by
          rw [hsum, BitVec.xor_assoc, List.length_cons, Nat.add_comm, BitVec.shiftRight_add]
      _ = (f >>> (b :: w).length) ^^^ run g 0#n (add (b :: w) (lows f (b :: w).length)) := by
          rw [List.length_cons, lows_succ, add_cons, run_cons]

/-! ## Bursts -/

/-- Zeros but for at most `k` bits in a row, of which one is set. -/
def Burst (k : Nat) (e : List Bool) : Prop :=
  ∃ i w j, e = List.replicate i false ++ w ++ List.replicate j false ∧ w.length ≤ k ∧ true ∈ w

variable {g}

/-- A register that a short message takes to zero holds that message. -/
theorem getLsbD_of_run (hg : g.getLsbD (n - 1) = true) {f : BitVec n} {w : List Bool} (hw : w.length ≤ n) (h : run g f w = 0#n)
    {i : Nat} (hi : i < n) : f.getLsbD i = w.getD i false := by
  induction w generalizing f i with
  | nil => simp [show f = 0#n from h]
  | cons b w ih =>
    rw [List.length_cons] at hw
    have hrest : ∀ {i : Nat}, i < n → (feed g f b).getLsbD i = w.getD i false := fun hi => ih (by omega) h hi
    -- the highest bit is one that only the polynomial can set
    have hout : f.getLsbD 0 = b := by
      have htop := hrest (show n - 1 < n by omega)
      have hbeyond : f.getLsbD (n - 1 + 1) = false := BitVec.getLsbD_of_ge _ _ (by omega)
      have hshort : w.getD (n - 1) false = false := by simp [show w.length ≤ n - 1 by omega]
      rw [feed_getLsbD, hbeyond, hg, hshort] at htop
      simpa using htop
    cases i with
    | zero => simpa using hout
    | succ i =>
      have hlow := hrest (show i < n by omega)
      rw [feed_getLsbD, hout] at hlow
      simpa using hlow

theorem zero_of_run_zeros (hg : g.getLsbD (n - 1) = true) {f : BitVec n} {k : Nat}
    (h : run g f (List.replicate k false) = 0#n) : f = 0#n := by
  induction k generalizing f with
  | zero => exact h
  | succ k ih =>
    have hone : run g f [false] = 0#n := ih h
    by_cases hn : n = 0
    · subst hn
      exact BitVec.eq_nil f
    · apply BitVec.eq_of_getLsbD_eq
      intro i hi
      rw [getLsbD_of_run hg (by simp; omega) hone hi]
      cases i <;> simp

/-- A burst no longer than the register leaves something in it. -/
theorem run_burst (hg : g.getLsbD (n - 1) = true) {e : List Bool} (h : Burst n e) : run g 0#n e ≠ 0#n := by
  obtain ⟨i, w, j, rfl, hw, hset⟩ := h
  intro hzero
  rw [run_append, run_append, run_zeros] at hzero
  have hword := zero_of_run_zeros hg hzero
  obtain ⟨k, hk, htrue⟩ := List.mem_iff_getElem.mp hset
  have hbit := getLsbD_of_run hg hw hword (show k < n by omega)
  simp [hk, htrue] at hbit

theorem burst_changes (hg : g.getLsbD (n - 1) = true) (f : BitVec n) {a e : List Bool} (hlen : a.length = e.length)
    (h : Burst n e) : run g f (add a e) ≠ run g f a := by
  have hsum := run_xor g f 0#n hlen
  rw [BitVec.xor_zero] at hsum
  rw [hsum]
  intro hsame
  apply run_burst hg h
  calc run g 0#n e = run g f a ^^^ (run g f a ^^^ run g 0#n e) := by rw [← BitVec.xor_assoc, BitVec.xor_self, BitVec.zero_xor]
    _ = 0#n := by rw [hsame, BitVec.xor_self]

end AmebaLinux.Lib.Crc
