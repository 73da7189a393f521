/-
  AmebaLinux.Cmds.EfuseProofs — what the efuse command burns (see
  `AmebaLinux.Cmds.Efuse`).

  `main` compares neither `size` with the value nor the value with the buffer, and
  `fillbuf` stores nothing for a value of odd length.

  Proved:
  - `burns_typed_iff`: every byte written comes from a pair of hexadecimal digits of the
    value exactly when the value has whole pairs for `size` bytes, fits in the buffer and
    has digits in those pairs (`short_value_burned`: one byte typed, four burned).
-/

import AmebaLinux.Cmds.Efuse

namespace AmebaLinux.Cmds.Efuse

open AmebaLinux.Lib.CString

/-! ## What `fillbuf` stores -/

theorem fillPairs_length (str : List UInt8) : (fillPairs str).length = str.length / 2 := by
  induction str using fillPairs.induct with
  | case1 hi lo rest ih =>
    simp only [fillPairs, List.length_cons, ih]
    omega
  | case2 str h =>
    match str, h with
    | [], _ => rfl
    | [_], _ => simp [fillPairs]
    | hi :: lo :: rest, h => exact (h hi lo rest rfl).elim

theorem fillPairs_get (str : List UInt8) (i : Nat) {hi lo : UInt8} (hhi : str[2 * i]? = some hi)
    (hlo : str[2 * i + 1]? = some lo) : (fillPairs str)[i]? = some (pairByte hi lo) := by
  induction i generalizing str with
  | zero =>
    match str, hhi, hlo with
    | a :: b :: rest, hhi, hlo =>
      cases hhi
      cases hlo
      rfl
  | succ i ih =>
    match str, hhi, hlo with
    | a :: b :: rest, hhi, hlo => exact ih rest hhi hlo

theorem fillbuf_length (str : List UInt8) :
    (fillbuf str).length = if str.length % 2 = 1 then 0 else str.length / 2 := by
  unfold fillbuf
  split
  · rfl
  · exact fillPairs_length str

/-! ## Burning what was typed -/

def hexDigit (c : UInt8) : Bool := isAlpha c || isdigit c

/-- Every byte of a write is what `fillbuf` makes of its pair of digits. -/
def BurnsTyped (value : List UInt8) : Outcome → Prop
  | .wrote _ bytes _ => ∀ i b, bytes[i]? = some b → ∃ hi lo, value[2 * i]? = some hi ∧ value[2 * i + 1]? = some lo ∧
      hexDigit hi = true ∧ hexDigit lo = true ∧ b = some (pairByte hi lo)
  | .fault => False
  | _ => True

/-- The value for a write of `n` bytes. -/
structure Fits (value : List UInt8) (n : Nat) : Prop where
  inside : value.length % 2 = 0 → value.length ≤ 2 * bufSize
  pairs : n ≠ 0 → value.length % 2 = 0
  long : 2 * n ≤ value.length
  digits : ∀ c ∈ value.take (2 * n), hexDigit c = true

/-- The first `n` bytes are stored, each from a pair of digits. -/
def Stored (value : List UInt8) (n : Nat) : Prop :=
  ∀ i < n, ∃ hi lo, value[2 * i]? = some hi ∧ value[2 * i + 1]? = some lo ∧
    hexDigit hi = true ∧ hexDigit lo = true ∧ (fillbuf value)[i]? = some (pairByte hi lo)

theorem fits_of_stored {value : List UInt8} {n : Nat} (hin : (fillbuf value).length ≤ bufSize) (h : Stored value n) :
    Fits value n := by
  have hlen := fillbuf_length value
  refine ⟨fun heven => ?_, fun hpos => ?_, ?_, ?_⟩
  · rw [hlen, if_neg (by omega)] at hin
    omega
  · obtain ⟨hi, lo, -, -, -, -, hstored⟩ := h 0 (by omega)
    obtain ⟨hlt, -⟩ := List.getElem?_eq_some_iff.mp hstored
    rw [hlen] at hlt
    split at hlt <;> omega
  · by_contra hshort
    obtain ⟨hi, lo, -, hlo, -⟩ := h (n - 1) (by omega)
    obtain ⟨hlt, -⟩ := List.getElem?_eq_some_iff.mp hlo
    omega
  · intro c hc
    obtain ⟨j, hj, rfl⟩ := List.mem_iff_getElem.mp hc
    rw [List.length_take] at hj
    obtain ⟨hi, lo, hhi, hlo, dhi, dlo, -⟩ := h (j / 2) (by omega)
    rw [List.getElem_take]
    rcases Nat.mod_two_eq_zero_or_one j with hj2 | hj2
    · rw [show 2 * (j / 2) = j by omega] at hhi
      obtain ⟨_, rfl⟩ := List.getElem?_eq_some_iff.mp hhi
      exact dhi
    · rw [show 2 * (j / 2) + 1 = j by omega] at hlo
      obtain ⟨_, rfl⟩ := List.getElem?_eq_some_iff.mp hlo
      exact dlo

theorem Fits.inBuffer {value : List UInt8} {n : Nat} (h : Fits value n) : (fillbuf value).length ≤ bufSize := by
  rw [fillbuf_length]
  split
  · omega
  · have := h.inside (by omega)
    omega

theorem Fits.stored {value : List UInt8} {n : Nat} (h : Fits value n) : Stored value n := by
  intro i hi
  have heven := h.pairs (by omega)
  have hlong := h.long
  have hhi : 2 * i < value.length := by omega
  have hlo : 2 * i + 1 < value.length := by omega
  have hget : (fillbuf value)[i]? = some (pairByte value[2 * i] value[2 * i + 1]) := by
    rw [fillbuf, if_neg (by omega)]
    exact fillPairs_get value i (List.getElem?_eq_getElem hhi) (List.getElem?_eq_getElem hlo)
  have hdigit : ∀ j (hj : j < 2 * n) (hl : j < value.length), hexDigit value[j] = true := by
    intro j hj hl
    exact h.digits _ (List.mem_iff_getElem.mpr ⟨j, by simp; omega, List.getElem_take⟩)
  exact ⟨_, _, List.getElem?_eq_getElem hhi, List.getElem?_eq_getElem hlo, hdigit _ (by omega) hhi,
    hdigit _ (by omega) hlo, hget⟩

theorem burn_typed_iff (dev : Option String) (size addr : Int32) (value : List UInt8) :
    BurnsTyped value (burn dev size addr value) ↔ Fits value size.toUInt32.toNat := by
  generalize hn : size.toUInt32.toNat = n
  unfold burn
  rw [hn]
  dsimp only
  constructor
  · intro h
    split at h
    case isTrue => exact h.elim
    case isFalse hin => exact fits_of_stored (Nat.le_of_not_lt hin) fun i hi => h i _ (by simp [hi])
  · intro h
    rw [if_neg (Nat.not_lt.mpr h.inBuffer)]
    intro i b hb
    rw [List.getElem?_map, Option.map_eq_some_iff] at hb
    obtain ⟨j, hj, rfl⟩ := hb
    obtain ⟨hlt, rfl⟩ := List.getElem?_eq_some_iff.mp hj
    rw [List.getElem_range]
    exact h.stored i (by simpa using hlt)

/-- The two commands that write. -/
inductive Burn where
  | wraw
  | wmap
  deriving DecidableEq, Repr

def Burn.word : Burn → List UInt8
  | .wraw => lit "wraw"
  | .wmap => lit "wmap"

def Burn.dev : Burn → String
  | .wraw => physicalNvmem
  | .wmap => logicalNvmem

theorem device_word (w : Burn) : device w.word = (some w.dev, .rdwr) := by cases w <;> decide

/-- The address, the length and the value, where they are given, allow the write. -/
def Typed : List (List UInt8) → Prop
  | _ :: len :: value :: _ => Fits value (sizeArg len).toUInt32.toNat
  | _ => True

/-- For every argument vector of the two commands, whatever `open` returns. -/
theorem burns_typed_iff (prog : List UInt8) (w : Burn) (rest : List (List UInt8)) :
    (∀ opens, BurnsTyped (rest.getD 2 []) (main opens (prog :: w.word :: rest))) ↔ Typed rest := by
  match rest with
  | [] | [_] =>
    refine iff_of_true ?_ trivial
    intro opens
    exact trivial
  | [_, _] =>
    refine iff_of_true ?_ trivial
    intro opens
    simp [main, device_word, BurnsTyped]
  | addr :: len :: value :: more =>
    have hmain : ∀ opens, main opens (prog :: w.word :: addr :: len :: value :: more) =
        if opens then burn (some w.dev) (sizeArg len) (convert addr) value else .cantOpen := by
      intro opens
      cases opens <;> simp [main, device_word]
    simp only [hmain, List.getD_cons_succ, List.getD_cons_zero, Typed]
    rw [← burn_typed_iff (some w.dev) (sizeArg len) (convert addr) value]
    constructor
    · intro h
      exact h true
    · intro h opens
      cases opens
      · exact trivial
      · exact h

/-- `wraw 0 4 ab`: one byte was typed, three more of the stack are burned. -/
theorem short_value_burned :
    ∃ addr, main true [lit "efuse", lit "wraw", lit "0", lit "4", lit "ab"] =
      .wrote (some physicalNvmem) [some 0xab, none, none, none] addr :=
  ⟨_, rfl⟩

end AmebaLinux.Cmds.Efuse
