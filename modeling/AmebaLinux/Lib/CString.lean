/-
  AmebaLinux.Lib.CString — C's strings as byte lists: the string that a buffer holds, the
  lines `fgets` reads from a file, white space, decimal numbers.

  A string is given without its NUL. `unsigned long` and `int` have 32 bits.

  Proved:
  - `strings_of_terminated`: bytes that end in a NUL are strings one after the other.
  - `fgetsLines_short`: lines that fit the buffer are read one by one, whatever a reader of
    lines does that does not see the newline.
  - `strtoul_decimal`: a decimal literal in the range of an `int` becomes that `int`.
  - `atoi_decInt`: an `int` that is printed and read again is the same.
-/

import Mathlib.Data.List.DropRight
import Mathlib.Tactic

namespace AmebaLinux.Lib.CString

/-! ## Strings in buffers -/

def lit (s : String) : List UInt8 := s.toList.map fun c => UInt8.ofNat c.toNat

/-- The string that begins a buffer. -/
def cstr (buf : List UInt8) : List UInt8 := buf.takeWhile (· ≠ 0)

theorem cstr_nul_free (buf : List UInt8) : 0 ∉ cstr buf := by
  intro h
  have := List.mem_takeWhile_imp h
  simp at this

theorem cstr_terminated {v : List UInt8} (h : 0 ∉ v) (rest : List UInt8) : cstr (v ++ 0 :: rest) = v := by
  have hall : ∀ c ∈ v, decide (c ≠ 0) = true := by
    intro c hc
    rw [decide_eq_true_eq]
    exact ne_of_mem_of_not_mem hc h
  rw [cstr, List.takeWhile_append_of_pos hall, List.takeWhile_cons_of_neg (by simp), List.append_nil]

theorem cstr_cons (c : UInt8) (b : List UInt8) : cstr (c :: b) = if c = 0 then [] else c :: cstr b := by
  rw [cstr, List.takeWhile_cons]
  by_cases hc : c = 0
  · simp [hc]
  · simp [hc, cstr]

/-- Zeros behind a string do not change it. -/
theorem cstr_padded (b : List UInt8) (n : Nat) : cstr (b ++ List.replicate n 0) = cstr b := by
  induction b with
  | nil =>
    cases n with
    | zero => rfl
    | succ n => rfl
  | cons c b ih =>
    rw [List.cons_append, cstr_cons, cstr_cons, ih]

/-- `strchr`: what stands before the character's first place, and behind it. -/
def strchr (s : List UInt8) (c : UInt8) : Option (List UInt8 × List UInt8) :=
  if c ∈ s then some (s.takeWhile (· ≠ c), (s.dropWhile (· ≠ c)).drop 1) else none

theorem strchr_append {c : UInt8} {a : List UInt8} (h : c ∉ a) (b : List UInt8) : strchr (a ++ c :: b) c = some (a, b) := by
  have hall : ∀ d ∈ a, decide (d ≠ c) = true := by
    intro d hd
    rw [decide_eq_true_eq]
    exact ne_of_mem_of_not_mem hd h
  rw [strchr, if_pos (by simp), List.takeWhile_append_of_pos hall, List.dropWhile_append_of_pos hall,
    List.takeWhile_cons_of_neg (by simp), List.dropWhile_cons_of_neg (by simp), List.append_nil]
  rfl

/-! ## Strings at a pointer

A pointer into a buffer is given by the bytes from there to the buffer's end; past the end
nothing can be read (`none`). -/

/-- The string there, as `strlen` and `strdup` read it. -/
def strAt : List UInt8 → Option (List UInt8)
  | [] => none
  | c :: p => if c = 0 then some [] else (strAt p).map (c :: ·)

/-- Whether `strcmp` with a string gives 0; it reads as far as the two agree. -/
def strcmpAt : List UInt8 → List UInt8 → Option Bool
  | [], _ => none
  | c :: _, [] => some (c = 0)
  | c :: p, d :: t => if c = d then strcmpAt p t else some false

theorem strAt_eq (b : List UInt8) : strAt b = if 0 ∈ b then some (cstr b) else none := by
  induction b with
  | nil => rfl
  | cons c b ih =>
    rw [strAt, ih, cstr_cons]
    by_cases hc : c = 0
    · simp [hc]
    · by_cases hb : 0 ∈ b
      · simp [hc, hb]
      · simp [hc, hb, Ne.symm hc]

theorem strAt_terminated {v : List UInt8} (h : 0 ∉ v) (rest : List UInt8) : strAt (v ++ 0 :: rest) = some v := by
  induction v with
  | nil => rfl
  | cons c v ih =>
    rw [List.mem_cons, not_or] at h
    rw [List.cons_append, strAt, if_neg (Ne.symm h.1), ih h.2]
    rfl

theorem strcmpAt_terminated {v t : List UInt8} (hv : 0 ∉ v) (ht : 0 ∉ t) (rest : List UInt8) :
    strcmpAt (v ++ 0 :: rest) t = some (decide (v = t)) := by
  induction v generalizing t with
  | nil =>
    cases t with
    | nil => rfl
    | cons d t =>
      rw [List.mem_cons, not_or] at ht
      rw [List.nil_append, strcmpAt, if_neg ht.1]
      simp
  | cons c v ih =>
    rw [List.mem_cons, not_or] at hv
    cases t with
    | nil => simp [strcmpAt, Ne.symm hv.1]
    | cons d t =>
      rw [List.mem_cons, not_or] at ht
      rw [List.cons_append, strcmpAt]
      by_cases hcd : c = d
      · rw [if_pos hcd, ih hv.2 ht.2]
        simp [hcd]
      · rw [if_neg hcd]
        simp [hcd]

/-- Strings one after the other, each with its NUL. -/
def packed (strs : List (List UInt8)) : List UInt8 := strs.flatMap (· ++ [0])

theorem packed_cons (v : List UInt8) (strs : List (List UInt8)) : packed (v :: strs) = v ++ 0 :: packed strs := by
  simp [packed]

/-- The last NUL is there already. -/
theorem packed_set_last (v : List UInt8) (strs : List (List UInt8)) :
    (packed (v :: strs)).set ((packed (v :: strs)).length - 1) 0 = packed (v :: strs) := by
  obtain ⟨init, last, hconcat⟩ := List.eq_nil_or_concat (v :: strs) |>.resolve_left (List.cons_ne_nil v strs)
  have hlast : packed (v :: strs) = (packed init ++ last) ++ [0] := by
    rw [hconcat]
    simp [packed]
  rw [hlast, List.length_append, List.length_singleton, Nat.add_sub_cancel, List.set_append_right _ _ (le_refl _)]
  simp

theorem strings_of_terminated (b : List UInt8) (h : ∀ c, b.getLast? = some c → c = 0) :
    ∃ strs : List (List UInt8), (∀ v ∈ strs, 0 ∉ v) ∧ b = packed strs := by
  induction b with
  | nil => exact ⟨[], nofun, rfl⟩
  | cons c b ih =>
    cases b with
    | nil =>
      obtain rfl := h c rfl
      exact ⟨[[]], by simp, rfl⟩
    | cons d b =>
      obtain ⟨strs, hfree, hb⟩ := ih h
      cases strs with
      | nil => cases hb
      | cons v strs =>
        rw [packed_cons] at hb
        by_cases hc : c = 0
        · refine ⟨[] :: v :: strs, ?_, ?_⟩
          · intro w hw
            rcases List.mem_cons.mp hw with rfl | hw
            · exact List.not_mem_nil
            · exact hfree w hw
          · rw [packed_cons, packed_cons, hb, hc, List.nil_append]
        · refine ⟨(c :: v) :: strs, ?_, ?_⟩
          · intro w hw
            rcases List.mem_cons.mp hw with rfl | hw
            · rw [List.mem_cons, not_or]
              exact ⟨Ne.symm hc, hfree v List.mem_cons_self⟩
            · exact hfree w (List.mem_cons_of_mem _ hw)
          · rw [packed_cons, hb, List.cons_append]

/-! ## Lines -/

def newline : UInt8 := 10

/-- What calls of `fgets` with a buffer of `size` bytes return one after the other, `cur`
    being read of the first. -/
def fgetsFrom (size : Nat) (cur : List UInt8) : List UInt8 → List (List UInt8)
  | [] => if cur = [] then [] else [cur]
  | c :: file =>
    if c = newline ∨ cur.length + 2 = size then (cur ++ [c]) :: fgetsFrom size [] file
    else fgetsFrom size (cur ++ [c]) file

def fgetsLines (size : Nat) (file : List UInt8) : List (List UInt8) := fgetsFrom size [] file

/-- A line and its NUL fit the buffer. -/
theorem fgetsFrom_fits {size : Nat} {cur : List UInt8} (hcur : cur.length + 2 ≤ size) (file : List UInt8) :
    ∀ line ∈ fgetsFrom size cur file, line.length + 1 ≤ size := by
  induction file generalizing cur with
  | nil =>
    intro line hline
    unfold fgetsFrom at hline
    split at hline
    · cases hline
    · rw [List.mem_singleton.mp hline]
      omega
  | cons c file ih =>
    intro line hline
    unfold fgetsFrom at hline
    split at hline
    · cases List.mem_cons.mp hline with
      | inl heq =>
        rw [heq, List.length_append, List.length_singleton]
        exact hcur
      | inr hline => exact ih (by rw [List.length_nil]; omega) line hline
    · refine ih ?_ line hline
      rw [List.length_append, List.length_singleton]
      omega

/-- A line that fits the buffer with its newline is read at once. -/
theorem fgetsFrom_line {size : Nat} {cur line : List UInt8} (hline : newline ∉ line)
    (hfits : cur.length + line.length + 1 < size) (file : List UInt8) :
    fgetsFrom size cur (line ++ newline :: file) = (cur ++ line ++ [newline]) :: fgetsFrom size [] file := by
  induction line generalizing cur with
  | nil => rw [List.nil_append, fgetsFrom, if_pos (.inl rfl), List.append_nil]
  | cons c line ih =>
    rw [List.mem_cons, not_or] at hline
    rw [List.length_cons] at hfits
    have hmore : ¬ (c = newline ∨ cur.length + 2 = size) := by
      rintro (hc | hc)
      · exact hline.1 hc.symm
      · omega
    rw [List.cons_append, fgetsFrom, if_neg hmore, ih hline.2 (by rw [List.length_append, List.length_singleton]; omega)]
    simp

theorem fgetsLines_lines {size : Nat} {lines : List (List UInt8)} (hlines : ∀ line ∈ lines, newline ∉ line)
    (hfits : ∀ line ∈ lines, line.length + 1 < size) :
    fgetsLines size (lines.flatMap (· ++ [newline])) = lines.map (· ++ [newline]) := by
  unfold fgetsLines
  induction lines with
  | nil => rfl
  | cons line lines ih =>
    rw [List.flatMap_cons, List.append_assoc, List.singleton_append,
      fgetsFrom_line (hlines line List.mem_cons_self) (by simpa using hfits line List.mem_cons_self),
      ih (fun l hl => hlines l (List.mem_cons_of_mem _ hl)) (fun l hl => hfits l (List.mem_cons_of_mem _ hl))]
    rfl

/-- The file's lines, without their newlines. -/
def fileLines (file : List UInt8) : List (List UInt8) := file.splitOn newline

section

variable {α : Type} {read : List UInt8 → Option α}

theorem fgetsFrom_short (hread : ∀ line, read (line ++ [newline]) = read line) (hempty : read [] = none) {size : Nat}
    (file : List UInt8) {cur first : List UInt8} {more : List (List UInt8)} (hlines : fileLines file = first :: more)
    (hfirst : cur.length + first.length + 1 < size) (hmore : ∀ line ∈ more, line.length + 1 < size) :
    (fgetsFrom size cur file).filterMap read = ((cur ++ first) :: more).filterMap read := by
  induction file generalizing cur first more with
  | nil =>
    rw [fileLines, List.splitOn_nil] at hlines
    cases hlines
    unfold fgetsFrom
    split
    · rename_i hcur
      rw [hcur]
      simp [hempty]
    · rw [List.append_nil]
  | cons c file ih =>
    rw [fileLines, List.splitOn_cons_eq_if_modifyHead] at hlines
    unfold fgetsFrom
    by_cases hc : c = newline
    · rw [if_pos (by simp [hc])] at hlines
      rw [if_pos (.inl hc)]
      cases hlines
      obtain ⟨first, more, hrest⟩ := List.exists_cons_of_ne_nil (List.splitOn_ne_nil newline file)
      rw [hrest] at hmore
      have hshort : ([] : List UInt8).length + first.length + 1 < size := by simpa using hmore first List.mem_cons_self
      have hnext := ih hrest hshort fun line hline => hmore line (List.mem_cons_of_mem _ hline)
      rw [hc, List.filterMap_cons, List.filterMap_cons, hread, List.append_nil, hnext, hrest, List.nil_append]
    · rw [if_neg (by simpa using hc)] at hlines
      obtain ⟨first', more', hrest⟩ := List.exists_cons_of_ne_nil (List.splitOn_ne_nil newline file)
      rw [hrest] at hlines
      cases hlines
      rw [List.length_cons] at hfirst
      rw [if_neg (by rw [not_or]; exact ⟨hc, by omega⟩)]
      rw [ih hrest (by rw [List.length_append, List.length_singleton]; omega) hmore]
      simp

/-- Lines that fit the buffer are what `fgets` returns, up to the newline and an empty rest
    of the file. -/
theorem fgetsLines_short (hread : ∀ line, read (line ++ [newline]) = read line) (hempty : read [] = none) {size : Nat}
    {file : List UInt8} (hshort : ∀ line ∈ fileLines file, line.length + 1 < size) :
    (fgetsLines size file).filterMap read = (fileLines file).filterMap read := by
  obtain ⟨first, more, hlines⟩ := List.exists_cons_of_ne_nil (List.splitOn_ne_nil newline file)
  have hlines : fileLines file = first :: more := hlines
  rw [hlines] at hshort ⊢
  have hfirst := hshort first List.mem_cons_self
  exact fgetsFrom_short hread hempty file hlines (by simpa using hfirst)
    (fun line hline => hshort line (List.mem_cons_of_mem _ hline))

end

/-! ## White space and numbers -/

def isspace (c : UInt8) : Bool := c == 32 || (9 ≤ c && c ≤ 13)
def isdigit (c : UInt8) : Bool := 48 ≤ c && c ≤ 57
def minus : UInt8 := 45
def plus : UInt8 := 43

def digitsVal (t : List UInt8) : Nat := t.foldl (fun n c => 10 * n + (c.toNat - 48)) 0

/-- A sign, if there is one, and what follows it. -/
def sign : List UInt8 → Bool × List UInt8
  | [] => (false, [])
  | c :: t => if c = minus then (true, t) else if c = plus then (false, t) else (false, c :: t)

/-- `ULONG_MAX` for what is too large, whatever the sign. -/
def ulong (neg : Bool) (n : Nat) : Nat :=
  if 2 ^ 32 ≤ n then 2 ^ 32 - 1 else if neg then (2 ^ 32 - n) % 2 ^ 32 else n

/-- `strtoul (t, NULL, 10)`. -/
def strtoul (t : List UInt8) : Nat :=
  let s := sign (t.dropWhile isspace)
  ulong s.1 (digitsVal (s.2.takeWhile isdigit))

/-- What `%d` prints for a number that is not negative. -/
def dec (n : Nat) : List UInt8 := (Nat.toDigits 10 n).map fun c => UInt8.ofNat c.toNat

theorem toDigits_range {n : Nat} {c : Char} (hc : c ∈ Nat.toDigits 10 n) : 48 ≤ c.toNat ∧ c.toNat ≤ 57 :=
  Char.isDigit_iff_toNat.mp (Nat.isDigit_of_mem_toDigits (by decide) (by decide) hc)

theorem dec_isdigit {n : Nat} {c : UInt8} (hc : c ∈ dec n) : isdigit c = true := by
  obtain ⟨d, hd, rfl⟩ := List.mem_map.mp hc
  have hrange := toDigits_range hd
  have hbyte : (UInt8.ofNat d.toNat).toNat = d.toNat := by
    rw [UInt8.toNat_ofNat']
    omega
  simp only [isdigit, Bool.and_eq_true, decide_eq_true_eq, UInt8.le_iff_toNat_le, hbyte]
  exact hrange

theorem digitsVal_dec (n : Nat) : digitsVal (dec n) = n := by
  have hvalue := Nat.ofDigitChars_toDigits (b := 10) (n := n) (by decide) (by decide)
  rw [Nat.ofDigitChars_eq_foldl] at hvalue
  rw [digitsVal, dec, List.foldl_map]
  refine (List.foldl_ext _ _ 0 ?_).trans hvalue
  intro sofar c hc
  have hrange := toDigits_range hc
  rw [UInt8.toNat_ofNat', Nat.mod_eq_of_lt (by omega)]
  rfl

theorem dec_ne_nil (n : Nat) : dec n ≠ [] := by
  simp [dec, Nat.toDigits_ne_nil]

theorem dec_length {n k : Nat} (hk : 0 < k) (hn : n < 10 ^ k) : (dec n).length ≤ k := by
  rw [dec, List.length_map]
  exact Nat.toDigits_length 10 n k hk hn

theorem digitsVal_lt {t : List UInt8} (h : ∀ c ∈ t, isdigit c = true) : digitsVal t < 10 ^ t.length := by
  induction t using List.reverseRecOn with
  | nil => simp [digitsVal]
  | append_singleton t c ih =>
    have hrest := ih fun d hd => h d (by simp [hd])
    have hc := h c (by simp)
    simp only [isdigit, Bool.and_eq_true, decide_eq_true_eq, UInt8.le_iff_toNat_le] at hc
    have hhigh : c.toNat ≤ 57 := hc.2
    have hvalue : digitsVal (t ++ [c]) = 10 * digitsVal t + (c.toNat - 48) := by simp [digitsVal]
    rw [hvalue, List.length_append, List.length_singleton, pow_succ]
    omega

theorem dec_length_iff {n k : Nat} (hk : 0 < k) : (dec n).length ≤ k ↔ n < 10 ^ k := by
  refine ⟨?_, dec_length hk⟩
  intro hlen
  calc n = digitsVal (dec n) := (digitsVal_dec n).symm
    _ < 10 ^ (dec n).length := digitsVal_lt fun c hc => dec_isdigit hc
    _ ≤ 10 ^ k := Nat.pow_le_pow_right (by decide) hlen

/-- What `%d` prints. -/
def decInt (n : Int) : List UInt8 := if n < 0 then minus :: dec n.natAbs else dec n.toNat

theorem decInt_length_iff (n : Int) (k : Nat) : (decInt n).length ≤ k + 1 ↔ -10 ^ k < n ∧ n < 10 ^ (k + 1) := by
  have hpow : (0 : Int) < 10 ^ k := pow_pos (by decide) k
  by_cases hneg : n < 0
  · rw [decInt, if_pos hneg, List.length_cons, Nat.succ_le_succ_iff]
    have hhigh : n < 10 ^ (k + 1) := hneg.trans (pow_pos (by decide) _)
    have habs : n.natAbs < 10 ^ k ↔ -10 ^ k < n := by
      zify
      rw [abs_of_neg hneg]
      omega
    cases k with
    | zero =>
      have hsome := List.length_pos_of_ne_nil (dec_ne_nil n.natAbs)
      simp only [pow_zero] at habs ⊢
      omega
    | succ k => rw [dec_length_iff (by omega), habs, and_iff_left hhigh]
  · lift n to Nat using not_lt.mp hneg
    rw [decInt, if_neg hneg, Int.toNat_natCast, dec_length_iff (by omega), and_iff_right (by omega)]
    exact_mod_cast Iff.rfl

def signed (neg : Bool) (n : Nat) : Int := if neg then -n else n

/-- The nearest `int`. -/
def clamp (n : Int) : Int := max (-2 ^ 31) (min n (2 ^ 31 - 1))

/-- As `strtol` reads it. -/
def atoi (t : List UInt8) : Int :=
  let s := sign (t.dropWhile isspace)
  clamp (signed s.1 (digitsVal (s.2.takeWhile isdigit)))

/-- What is left behind the number that begins a text. -/
def behindNumber (t : List UInt8) : List UInt8 := (sign (t.dropWhile isspace)).2.dropWhile isdigit

/-- `atoi` at a pointer: it reads on until the number ends. -/
def atoiAt (p : List UInt8) : Option Int := if behindNumber p = [] then none else some (atoi p)

/-- The number that a decimal literal, with or without a sign, stands for. -/
def decimal (t : List UInt8) : Option Int :=
  let s := sign t
  if s.2 ≠ [] ∧ s.2.all isdigit then some (signed s.1 (digitsVal s.2)) else none

theorem sign_dec (n : Nat) : sign (dec n) = (false, dec n) := by
  have hdigit : ∀ c ∈ dec n, c ≠ minus ∧ c ≠ plus := by
    intro c hc
    constructor <;> rintro rfl <;> exact absurd (dec_isdigit hc) (by decide)
  revert hdigit
  cases dec n with
  | nil => exact fun _ => rfl
  | cons c t =>
    intro hdigit
    obtain ⟨hminus, hplus⟩ := hdigit c List.mem_cons_self
    rw [sign, if_neg hminus, if_neg hplus]

theorem decimal_decInt (n : Int) : decimal (decInt n) = some n := by
  have hall : ∀ m : Nat, dec m ≠ [] ∧ (dec m).all isdigit := fun m => ⟨dec_ne_nil m, List.all_eq_true.mpr fun _ => dec_isdigit⟩
  rcases lt_or_ge n 0 with hn | hn
  · have hsign : sign (minus :: dec n.natAbs) = (true, dec n.natAbs) := by rw [sign, if_pos rfl]
    rw [decInt, if_pos hn, decimal, hsign]
    dsimp only
    rw [if_pos (hall _), digitsVal_dec, signed, if_pos rfl]
    congr 1
    omega
  · rw [decInt, if_neg (by omega), decimal, sign_dec]
    dsimp only
    rw [if_pos (hall _), digitsVal_dec, signed, if_neg (by decide)]
    congr 1
    omega

theorem ulong_signed {neg : Bool} {n : Nat} (hlow : -2 ^ 31 ≤ signed neg n) (hhigh : signed neg n < 2 ^ 31) :
    (Int32.ofNat (ulong neg n)).toInt = signed neg n := by
  have hbmod : ∀ m : Nat, (Int32.ofNat m).toInt = (m : Int).bmod (2 ^ 32) := fun _ => Int32.toInt_ofNat'
  cases neg with
  | false =>
    simp only [signed, Bool.false_eq_true, if_false] at *
    have hsmall : ulong false n = n := if_neg (by omega)
    rw [hsmall, hbmod, Int.bmod_def]
    omega
  | true =>
    simp only [signed, if_true] at *
    have hsmall : ulong true n = (2 ^ 32 - n) % 2 ^ 32 := if_neg (by omega)
    rw [hsmall, hbmod, Int.bmod_def]
    omega

theorem decimal_no_space {t : List UInt8} {n : Int} (h : decimal t = some n) : t.dropWhile isspace = t := by
  cases t with
  | nil => rfl
  | cons c t =>
    refine List.dropWhile_cons_of_neg ?_
    intro hspace
    have hminus : c ≠ minus := by
      intro hc
      rw [hc] at hspace
      exact absurd hspace (by decide)
    have hplus : c ≠ plus := by
      intro hc
      rw [hc] at hspace
      exact absurd hspace (by decide)
    rw [decimal, sign, if_neg hminus, if_neg hplus] at h
    split at h
    · rename_i hdigits
      have hdigit : isdigit c = true := List.all_eq_true.mp hdigits.2 c List.mem_cons_self
      simp only [isspace, isdigit, Bool.or_eq_true, Bool.and_eq_true, beq_iff_eq, decide_eq_true_eq, UInt8.le_iff_toNat_le,
        ← UInt8.toNat_inj] at hspace hdigit
      simp at hspace hdigit
      omega
    · cases h

/-- The readers stop behind the last digit, so they see the whole of a literal. -/
theorem decimal_value {t : List UInt8} {n : Int} (h : decimal t = some n) :
    signed (sign (t.dropWhile isspace)).1 (digitsVal ((sign (t.dropWhile isspace)).2.takeWhile isdigit)) = n := by
  rw [decimal_no_space h]
  unfold decimal at h
  dsimp only at h
  split at h
  · rename_i hdigits
    have hwhole : (sign t).2.takeWhile isdigit = (sign t).2 := List.takeWhile_eq_self_iff.mpr (List.all_eq_true.mp hdigits.2)
    rw [hwhole]
    exact Option.some.inj h
  · cases h

theorem strtoul_decimal {t : List UInt8} {n : Int} (h : decimal t = some n) (hlow : -2 ^ 31 ≤ n) (hhigh : n < 2 ^ 31) :
    (Int32.ofNat (strtoul t)).toInt = n := by
  rw [← decimal_value h] at hlow hhigh
  exact (ulong_signed hlow hhigh).trans (decimal_value h)

theorem dropWhile_terminated {p : UInt8 → Bool} (hp : p 0 = false) (b rest : List UInt8) :
    ∃ b', (b ++ 0 :: rest).dropWhile p = b' ++ 0 :: rest := by
  induction b with
  | nil => exact ⟨[], List.dropWhile_cons_of_neg (by simp [hp])⟩
  | cons c b ih =>
    by_cases hc : p c = true
    · rw [List.cons_append, List.dropWhile_cons_of_pos hc]
      exact ih
    · exact ⟨c :: b, List.dropWhile_cons_of_neg hc⟩

theorem sign_terminated (b rest : List UInt8) : ∃ b', (sign (b ++ 0 :: rest)).2 = b' ++ 0 :: rest := by
  cases b with
  | nil => exact ⟨[], rfl⟩
  | cons c b =>
    rw [List.cons_append, sign]
    by_cases hminus : c = minus
    · rw [if_pos hminus]
      exact ⟨b, rfl⟩
    · rw [if_neg hminus]
      by_cases hplus : c = plus
      · rw [if_pos hplus]
        exact ⟨b, rfl⟩
      · rw [if_neg hplus]
        exact ⟨c :: b, rfl⟩

/-- A number ends at a NUL at the latest. -/
theorem atoiAt_terminated (b rest : List UInt8) : atoiAt (b ++ 0 :: rest) = some (atoi (b ++ 0 :: rest)) := by
  obtain ⟨b₁, h₁⟩ := dropWhile_terminated (show isspace 0 = false by decide) b rest
  obtain ⟨b₂, h₂⟩ := sign_terminated b₁ rest
  obtain ⟨b₃, h₃⟩ := dropWhile_terminated (show isdigit 0 = false by decide) b₂ rest
  refine if_neg ?_
  rw [behindNumber, h₁, h₂, h₃]
  simp

theorem dropWhile_padded {p : UInt8 → Bool} (hp : p 0 = false) (b : List UInt8) (n : Nat) :
    (b ++ List.replicate n 0).dropWhile p = b.dropWhile p ++ List.replicate n 0 := by
  induction b with
  | nil =>
    cases n with
    | zero => rfl
    | succ n => exact List.dropWhile_cons_of_neg (by simp [hp])
  | cons c b ih =>
    rw [List.cons_append, List.dropWhile_cons, List.dropWhile_cons, ih]
    split <;> rfl

theorem takeWhile_padded {p : UInt8 → Bool} (hp : p 0 = false) (b : List UInt8) (n : Nat) :
    (b ++ List.replicate n 0).takeWhile p = b.takeWhile p := by
  induction b with
  | nil =>
    cases n with
    | zero => rfl
    | succ n => exact List.takeWhile_cons_of_neg (by simp [hp])
  | cons c b ih => rw [List.cons_append, List.takeWhile_cons, List.takeWhile_cons, ih]

theorem sign_padded (b : List UInt8) (n : Nat) :
    sign (b ++ List.replicate n 0) = ((sign b).1, (sign b).2 ++ List.replicate n 0) := by
  cases b with
  | nil =>
    cases n with
    | zero => rfl
    | succ n => rfl
  | cons c b =>
    rw [List.cons_append, sign, sign]
    split
    · rfl
    · split <;> rfl

/-- Zeros behind a number do not change it. -/
theorem atoi_padded (b : List UInt8) (n : Nat) : atoi (b ++ List.replicate n 0) = atoi b := by
  rw [atoi, atoi, dropWhile_padded (by decide), sign_padded, takeWhile_padded (by decide)]

/-- An `int` that is printed and read again. -/
theorem atoi_decInt {n : Int} (hlow : -2 ^ 31 ≤ n) (hhigh : n < 2 ^ 31) : atoi (decInt n) = n := by
  have hread : atoi (decInt n) = clamp n := congrArg clamp (decimal_value (decimal_decInt n))
  rw [hread, clamp]
  omega

end AmebaLinux.Lib.CString
