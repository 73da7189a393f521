/-
  AmebaLinux.Cmds.EfuseHex — how the efuse command reads its hexadecimal arguments (see
  `AmebaLinux.Cmds.Efuse`).

  `hexValue` and `pairBytes` say what the digits stand for. `fillbufIn` is `fillbuf` with
  the buffer it stores into; `fillbuf` of the model is the part that is stored.

  Proved:
  - `mypow_eq`: square and multiply gives the power, modulo 2^32.
  - `fillbufIn_eq`: what is stored stands at the front, and the rest is as it was.
  - `hex_read`: digits of either case are read as their number modulo 2^32, and in pairs
    as their bytes.
-/

import AmebaLinux.Cmds.EfuseProofs

namespace AmebaLinux.Cmds.Efuse

open AmebaLinux.Lib.CString

/-! ## What digits stand for -/

/-- The value of a digit. -/
def nibble (c : UInt8) : Nat := if isdigit c then c.toNat - 48 else if 97 ≤ c then c.toNat - 87 else c.toNat - 55

def hexValue (t : List UInt8) : Nat := t.foldl (fun n c => 16 * n + nibble c) 0

def pairBytes : List UInt8 → List UInt8
  | hi :: lo :: rest => UInt8.ofNat (16 * nibble hi + nibble lo) :: pairBytes rest
  | _ => []

/-! ## The buffer -/

/-- The loop of `fillbuf`, from `idx` on. -/
def fillLoop (buf : List UInt8) (idx : Nat) : List UInt8 → List UInt8
  | hi :: lo :: rest => fillLoop (buf.set idx (pairByte hi lo)) (idx + 1) rest
  | _ => buf

def fillbufIn (buf str : List UInt8) : List UInt8 := if str.length % 2 = 1 then buf else fillLoop buf 0 str

theorem no_pair {str : List UInt8} (h : ∀ hi lo rest, str = hi :: lo :: rest → False) : str = [] ∨ ∃ c, str = [c] := by
  rcases str with _ | ⟨hi, _ | ⟨lo, rest⟩⟩
  · exact .inl rfl
  · exact .inr ⟨hi, rfl⟩
  · exact (h hi lo rest rfl).elim

theorem fillLoop_eq (front buf str : List UInt8) (h : str.length / 2 ≤ buf.length) :
    fillLoop (front ++ buf) front.length str = front ++ fillPairs str ++ buf.drop (str.length / 2) := by
  induction str using fillPairs.induct generalizing front buf with
  | case1 hi lo rest ih =>
    have hlen : (hi :: lo :: rest).length / 2 = rest.length / 2 + 1 := by simp only [List.length_cons]; omega
    rw [hlen] at h ⊢
    cases buf with
    | nil => simp at h
    | cons b buf =>
      have hset : (front ++ b :: buf).set front.length (pairByte hi lo) = front ++ [pairByte hi lo] ++ buf := by simp
      have hrest := ih (front ++ [pairByte hi lo]) buf (by simpa using h)
      rw [List.length_append, List.length_singleton] at hrest
      rw [fillLoop, hset, hrest, fillPairs]
      simp
  | case2 str hshort =>
    rcases no_pair hshort with rfl | ⟨c, rfl⟩
    · simp [fillLoop, fillPairs]
    · simp [fillLoop, fillPairs]

/-- What is stored stands at the front. -/
theorem fillbufIn_eq {buf str : List UInt8} (h : str.length / 2 ≤ buf.length) :
    fillbufIn buf str = fillbuf str ++ buf.drop (fillbuf str).length := by
  unfold fillbufIn fillbuf
  split
  · rfl
  · have hloop := fillLoop_eq [] buf str h
    rw [fillPairs_length]
    simpa using hloop

/-! ## Digits -/

theorem toInt_nibble {c : UInt8} (h : hexDigit c = true) : toInt c = nibble c := by
  have hall : ∀ n < 256, hexDigit (UInt8.ofNat n) = true → toInt (UInt8.ofNat n) = nibble (UInt8.ofNat n) := by decide +kernel
  have hc := hall c.toNat c.toNat_lt
  rw [UInt8.ofNat_toNat] at hc
  exact hc h

theorem pairByte_nibbles {hi lo : UInt8} (hhi : hexDigit hi = true) (hlo : hexDigit lo = true) :
    pairByte hi lo = UInt8.ofNat (16 * nibble hi + nibble lo) := by
  have hsum : toInt hi * 16 + toInt lo = ((16 * nibble hi + nibble lo : Nat) : Int) := by
    rw [toInt_nibble hhi, toInt_nibble hlo]
    push_cast
    ring
  rw [pairByte, hsum, UInt8.ofInt]
  norm_cast
  exact UInt8.ofNat_mod_size

theorem fillPairs_pairBytes {str : List UInt8} (h : ∀ c ∈ str, hexDigit c = true) : fillPairs str = pairBytes str := by
  induction str using fillPairs.induct with
  | case1 hi lo rest ih =>
    rw [fillPairs, pairBytes, pairByte_nibbles (h hi (by simp)) (h lo (by simp)), ih fun c hc => h c (by simp [hc])]
  | case2 str hshort =>
    rcases no_pair hshort with rfl | ⟨c, rfl⟩
    · rfl
    · rfl

/-! ## Numbers -/

theorem mypow_eq (b : Int) (cnt : Nat) : mypow (Int32.ofInt b) cnt = Int32.ofInt (b ^ cnt) := by
  induction cnt using Nat.strong_induction_on with
  | _ cnt ih =>
    unfold mypow
    by_cases h0 : cnt = 0
    · simp [h0]
    · by_cases h1 : cnt = 1
      · simp [h1]
      · rw [if_neg h0, if_neg h1]
        dsimp only
        rw [ih (cnt / 2) (by omega), ← Int32.ofInt_mul, ← pow_add]
        by_cases hodd : cnt % 2 = 1
        · rw [if_pos hodd, ← Int32.ofInt_mul, ← pow_succ, show cnt / 2 + cnt / 2 + 1 = cnt by omega]
        · rw [if_neg hodd, show cnt / 2 + cnt / 2 = cnt by omega]

/-- The number of digits that come lowest first. -/
def reversedValue (r : List UInt8) : Nat := r.foldr (fun c n => 16 * n + nibble c) 0

theorem convert_from {r : List UInt8} (h : ∀ c ∈ r, hexDigit c = true) (k : Nat) (acc : Int) :
    (r.zipIdx k).foldl (fun ret x => ret + Int32.ofInt (toInt x.1) * mypow 16 x.2) (Int32.ofInt acc) =
      Int32.ofInt (acc + 16 ^ k * reversedValue r) := by
  induction r generalizing k acc with
  | nil => simp [reversedValue]
  | cons c r ih =>
    have hpow : mypow 16 k = Int32.ofInt (16 ^ k) := mypow_eq 16 k
    rw [List.zipIdx_cons, List.foldl_cons]
    dsimp only
    rw [hpow, ← Int32.ofInt_mul, ← Int32.ofInt_add, ih (fun d hd => h d (by simp [hd])), toInt_nibble (h c (by simp))]
    congr 1
    simp only [reversedValue, List.foldr_cons]
    push_cast
    ring

theorem convert_eq {t : List UInt8} (h : ∀ c ∈ t, hexDigit c = true) : convert t = Int32.ofInt (hexValue t) := by
  have hfrom := convert_from (r := t.reverse) (fun c hc => h c (by simpa using hc)) 0 0
  have hvalue : reversedValue t.reverse = hexValue t := by rw [reversedValue, List.foldr_reverse, hexValue]
  rw [hvalue] at hfrom
  simpa [convert] using hfrom

/-- Digits of either case, and in pairs for as many bytes as the buffer has. -/
theorem hex_read (t : List UInt8) (h : ∀ c ∈ t, hexDigit c = true) :
    (convert t).toInt = (hexValue t : Int).bmod (2 ^ 32) ∧
      ∀ buf : List UInt8, buf.length = bufSize → t.length % 2 = 0 → t.length ≤ 2048 →
        fillbufIn buf t = pairBytes t ++ buf.drop (t.length / 2) := by
  refine ⟨?_, ?_⟩
  · exact (congrArg Int32.toInt (convert_eq h)).trans (Int32.toInt_ofInt ..)
  · intro buf hbuf heven hlen
    have hfit : t.length / 2 ≤ buf.length := by
      rw [hbuf, bufSize]
      omega
    have hstored : fillbuf t = fillPairs t := if_neg (by omega)
    rw [fillbufIn_eq hfit, hstored, fillPairs_length, fillPairs_pairBytes h]

/-- Nine digits, of which the first is lost, and two bytes. -/
theorem mixed_case_read :
    (∀ c ∈ lit "1DeadBeef", hexDigit c = true) ∧ (convert (lit "1DeadBeef")).toInt = -559038737 ∧
      ∀ buf : List UInt8, buf.length = bufSize → fillbufIn buf (lit "aB09") = [0xab, 0x09] ++ buf.drop 2 := by
  have hnine : ∀ c ∈ lit "1DeadBeef", hexDigit c = true := by decide +kernel
  have hfour : ∀ c ∈ lit "aB09", hexDigit c = true := by decide +kernel
  refine ⟨hnine, ?_, ?_⟩
  · rw [(hex_read _ hnine).1]
    decide +kernel
  · intro buf hbuf
    exact (hex_read _ hfour).2 buf hbuf (by decide) (by decide)

end AmebaLinux.Cmds.Efuse
