/-
  AmebaLinux.Adb.ShaProofs — what the digests of `AmebaLinux.Adb.Sha` are.

  `Standard` is SHA-1 as FIPS 180 gives it: the padded message in blocks of 64 bytes, each
  compressed in 80 rounds.

  Proved:
  (1) `SHA_init`, any calls of `SHA_update` and `SHA_final` give the standard's digest of all
      the bytes (`sha_digest`).
  (2) The version for little-endian machines, with its unrolled rounds and whole-block
      copies, is the portable one (`Fast.same_as_portable`).
-/

import AmebaLinux.Lib.Blocks
import AmebaLinux.Adb.Sha

namespace AmebaLinux.Adb.Sha

open AmebaLinux.Lib AmebaLinux.Lib.Fragments

/-! ## The standard -/

namespace Standard

def ch (x y z : UInt32) : UInt32 := (x &&& y) ^^^ (~~~x &&& z)
def parity (x y z : UInt32) : UInt32 := x ^^^ y ^^^ z
def maj (x y z : UInt32) : UInt32 := (x &&& y) ^^^ (x &&& z) ^^^ (y &&& z)

def f (t : Nat) : UInt32 → UInt32 → UInt32 → UInt32 :=
  if t < 20 then ch else if t < 40 then parity else if t < 60 then maj else parity

def K (t : Nat) : UInt32 :=
  if t < 20 then 0x5A827999 else if t < 40 then 0x6ED9EBA1 else if t < 60 then 0x8F1BBCDC else 0xCA62C1D6

/-- The message schedule of a block. -/
def W (block : List UInt8) (t : Nat) : UInt32 :=
  if t < 16 then loadWord block t
  else rol 1 (W block (t - 3) ^^^ W block (t - 8) ^^^ W block (t - 14) ^^^ W block (t - 16))

def round (block : List UInt8) (r : Words) (t : Nat) : Words :=
  ⟨rol 5 r.a + f t r.b r.c r.d + r.e + K t + W block t, r.a, rol 30 r.b, r.c, r.d⟩

def compress (h : Words) (block : List UInt8) : Words := h.add ((List.range 80).foldl (round block) h)

/-- The message's length in bits, in eight bytes with the highest first. -/
def lengthBytes (n : Nat) : List UInt8 := (List.range 8).map fun i => UInt8.ofNat (8 * n / 256 ^ (7 - i))

def pad (m : List UInt8) : List UInt8 :=
  m ++ [0x80] ++ List.replicate ((119 - m.length % 64) % 64) 0 ++ lengthBytes m.length

def initial : Words := ⟨0x67452301, 0xEFCDAB89, 0x98BADCFE, 0x10325476, 0xC3D2E1F0⟩

def sha1 (m : List UInt8) : List UInt8 :=
  ((fragments 64 (pad m) ((pad m).length / 64)).foldl compress initial).bytes

end Standard

/-! ## One block -/

theorem choose_eq (b c d : UInt32) : d ^^^ (b &&& (c ^^^ d)) = Standard.ch b c d := by
  apply UInt32.toBitVec_inj.mp
  apply BitVec.eq_of_getLsbD_eq
  intro i hi
  simp only [Standard.ch, UInt32.toBitVec_xor, UInt32.toBitVec_and, UInt32.toBitVec_not, BitVec.getLsbD_xor, BitVec.getLsbD_and,
    BitVec.getLsbD_not, hi, decide_true, Bool.true_and]
  cases b.toBitVec.getLsbD i <;> cases c.toBitVec.getLsbD i <;> cases d.toBitVec.getLsbD i <;> rfl

theorem majority_eq (b c d : UInt32) : (b &&& c) ||| (d &&& (b ||| c)) = Standard.maj b c d := by
  apply UInt32.toBitVec_inj.mp
  apply BitVec.eq_of_getLsbD_eq
  intro i _
  simp only [Standard.maj, UInt32.toBitVec_xor, UInt32.toBitVec_and, UInt32.toBitVec_or, BitVec.getLsbD_xor, BitVec.getLsbD_and,
    BitVec.getLsbD_or]
  cases b.toBitVec.getLsbD i <;> cases c.toBitVec.getLsbD i <;> cases d.toBitVec.getLsbD i <;> rfl

theorem taps_standard (buf : List UInt8) {t : Nat} (h : 16 ≤ t) :
    taps ((List.range t).map (Standard.W buf)) t =
      Standard.W buf (t - 3) ^^^ Standard.W buf (t - 8) ^^^ Standard.W buf (t - 14) ^^^ Standard.W buf (t - 16) := by
  have hword : ∀ k, k < t → ((List.range t).map (Standard.W buf)).getD k 0 = Standard.W buf k := by
    intro k hk
    simp [List.getD_eq_getElem?_getD, hk]
  rw [taps, hword _ (by omega), hword _ (by omega), hword _ (by omega), hword _ (by omega)]

theorem schedule_upto (buf : List UInt8) (n : Nat) :
    (List.range' 16 n).foldl (fun W t => W ++ [rol 1 (taps W t)]) ((List.range 16).map (loadWord buf)) =
      (List.range (16 + n)).map (Standard.W buf) := by
  induction n with
  | zero =>
    refine List.map_congr_left fun t ht => ?_
    rw [Standard.W, if_pos (List.mem_range.mp ht)]
  | succ n ih =>
    rw [List.range'_concat, List.foldl_append, ih, List.foldl_cons, List.foldl_nil, ← Nat.add_assoc, List.range_succ,
      List.map_append, List.map_singleton, Nat.one_mul, taps_standard buf (by omega)]
    conv_rhs => rw [Standard.W, if_neg (by omega)]

theorem schedule_getD (buf : List UInt8) {t : Nat} (h : t < 80) : (schedule buf).getD t 0 = Standard.W buf t := by
  rw [schedule, schedule_upto]
  simp [List.getD_eq_getElem?_getD, h]

theorem round_eq (buf : List UInt8) (r : Words) {t : Nat} (h : t < 80) : round (schedule buf) r t = Standard.round buf r t := by
  rw [round, Standard.round, schedule_getD buf h, Standard.f, Standard.K]
  simp only [Words.mk.injEq, and_true]
  split
  · rw [choose_eq]
    grind
  · split
    · rw [Standard.parity]
      grind
    · split
      · rw [majority_eq]
        grind
      · rw [Standard.parity]
        grind

theorem rounds_eq (buf : List UInt8) (h : Words) :
    (List.range 80).foldl (round (schedule buf)) h = (List.range 80).foldl (Standard.round buf) h :=
  List.foldl_ext _ _ _ fun r _ ht => round_eq buf r (List.mem_range.mp ht)

/-- The portable transform compresses the block in the buffer. -/
theorem transform_state (ctx : ShaCtx) : (sha1Transform ctx).state = Standard.compress ctx.state ctx.buf := by
  simp only [sha1Transform, Standard.compress, rounds_eq]

/-! ## The stream -/

/-- The context has taken the bytes `m`. -/
structure Took (ctx : ShaCtx) (m : List UInt8) : Prop where
  count : ctx.count = UInt64.ofNat m.length
  absorbed : (ctx.state, ctx.buf.take (m.length % bufSize)) =
    Blocks.absorb bufSize Standard.compress (Standard.initial, []) m

theorem took_init (buf : List UInt8) (size : buf.length = bufSize) : Took (shaInit buf size) [] where
  count := rfl
  absorbed := rfl

theorem take_set {l : List UInt8} {i : Nat} (h : i < l.length) (b : UInt8) : (l.set i b).take (i + 1) = l.take i ++ [b] := by
  rw [List.take_succ_eq_append_getElem (by simpa using h), List.getElem_set_self, List.take_set_of_le le_rfl]

@[simp] theorem store_state (ctx : ShaCtx) (i : Nat) (b : UInt8) : (ctx.store i b).state = ctx.state := rfl

@[simp] theorem store_count (ctx : ShaCtx) (i : Nat) (b : UInt8) : (ctx.store i b).count = ctx.count := rfl

@[simp] theorem transform_count (ctx : ShaCtx) : (sha1Transform ctx).count = ctx.count := by
  rw [sha1Transform]

/-- The state and the open block, in the middle of `SHA_update`. -/
def opened (s : ShaCtx × Nat) : Words × List UInt8 := (s.1.state, s.1.buf.take s.2)

/-- One byte goes into the open block. -/
theorem updateByte_put {s : ShaCtx × Nat} (hi : s.2 < bufSize) (b : UInt8) :
    opened (updateByte sha1Transform s b) = Blocks.put bufSize Standard.compress (opened s) b ∧
      (updateByte sha1Transform s b).2 < bufSize ∧ (updateByte sha1Transform s b).1.count = s.1.count := by
  obtain ⟨ctx, i⟩ := s
  have hlen : (ctx.buf.take i).length = i := by rw [List.length_take, ctx.size, Nat.min_eq_left hi.le]
  have hset : (ctx.store i b).buf.take (i + 1) = ctx.buf.take i ++ [b] := take_set (by rw [ctx.size]; exact hi) b
  unfold opened updateByte Blocks.put
  dsimp only at hi ⊢
  rw [hlen]
  by_cases hfull : i + 1 = bufSize
  · have hall : (ctx.store i b).buf.take (i + 1) = (ctx.store i b).buf := List.take_of_length_le (by rw [ShaCtx.size, hfull])
    rw [if_pos hfull, if_pos hfull, ← hset, hall]
    dsimp only
    rw [transform_state, List.take_zero, store_state, transform_count, store_count]
    exact ⟨rfl, by decide, rfl⟩
  · rw [if_neg hfull, if_neg hfull, ← hset]
    exact ⟨rfl, by dsimp only; omega, rfl⟩

theorem foldl_updateByte (data : List UInt8) {s : ShaCtx × Nat} (hi : s.2 < bufSize) :
    opened (data.foldl (updateByte sha1Transform) s) = Blocks.absorb bufSize Standard.compress (opened s) data ∧
      (data.foldl (updateByte sha1Transform) s).2 < bufSize ∧
      (data.foldl (updateByte sha1Transform) s).1.count = s.1.count := by
  induction data generalizing s with
  | nil => exact ⟨rfl, hi, rfl⟩
  | cons b data ih =>
    obtain ⟨hput, hlt, hcount⟩ := updateByte_put hi b
    obtain ⟨habs, hlt', hcount'⟩ := ih hlt
    rw [hput] at habs
    exact ⟨habs, hlt', hcount'.trans hcount⟩

/-- The index is the number of bytes in the open block. -/
theorem Took.index {ctx : ShaCtx} {m : List UInt8} (h : Took ctx m) : (ctx.count % 64).toNat = m.length % bufSize := by
  rw [h.count, UInt64.toNat_mod, UInt64.toNat_ofNat']
  exact Nat.mod_mod_of_dvd _ (by decide)

theorem Took.update {ctx : ShaCtx} {m : List UInt8} (h : Took ctx m) (data : List UInt8) :
    Took (shaUpdate ctx data) (m ++ data) := by
  have hpos : 0 < bufSize := by decide
  have hstart : opened ({ ctx with count := ctx.count + UInt64.ofNat data.length }, (ctx.count % 64).toNat) =
      Blocks.absorb bufSize Standard.compress (Standard.initial, []) m := by
    rw [← h.absorbed, opened, h.index]
  obtain ⟨habs, hlt, hcount⟩ := foldl_updateByte data
    (s := ({ ctx with count := ctx.count + UInt64.ofNat data.length }, (ctx.count % 64).toNat))
    (by rw [h.index]; exact Nat.mod_lt _ hpos)
  rw [hstart, ← Blocks.absorb_append] at habs
  rw [← shaUpdate] at hcount
  refine ⟨?_, ?_⟩
  · rw [hcount, h.count, List.length_append, UInt64.ofNat_add]
  · -- the index at the end is the length of the open block
    have hlen := Blocks.absorb_open_length hpos (f := Standard.compress) Standard.initial (m ++ data)
    rw [← habs, opened, List.length_take, ShaCtx.size, Nat.min_eq_left hlt.le] at hlen
    rw [← habs, opened, ← hlen]
    rfl

/-! ## The padding -/

/-- The zeros after `n` bytes. -/
def zeros (n : Nat) : Nat := (120 - n % 64) % 64

theorem Took.full_iff {ctx : ShaCtx} {m : List UInt8} (h : Took ctx m) : ctx.count % 64 = 64 - 8 ↔ m.length % 64 = 56 := by
  rw [← UInt64.toNat_inj, h.index]
  rfl

theorem Took.padZeros {ctx : ShaCtx} {m : List UInt8} (h : Took ctx m) {fuel : Nat} (hf : zeros m.length ≤ fuel) :
    Took (padZeros shaUpdate fuel ctx) (m ++ List.replicate (zeros m.length) 0) := by
  induction fuel generalizing ctx m with
  | zero =>
    rw [Nat.le_zero.mp hf, List.replicate_zero, List.append_nil]
    exact h
  | succ fuel ih =>
    have hmod := Nat.mod_lt m.length (by decide : 64 > 0)
    by_cases hfull : m.length % 64 = 56
    · rw [Sha.padZeros, if_neg (not_not.mpr (h.full_iff.mpr hfull)), show zeros m.length = 0 by simp [zeros, hfull]]
      simpa using h
    · have hnext : zeros m.length = zeros (m ++ [0]).length + 1 := by
        simp only [zeros, List.length_append, List.length_singleton] at hf ⊢
        omega
      rw [Sha.padZeros, if_pos (fun hc => hfull (h.full_iff.mp hc))]
      have hrest := ih (h.update [0]) (by omega)
      rwa [hnext, List.replicate_succ, List.append_cons]

theorem countByte_eq (n : Nat) {i : Nat} (h : i < 8) :
    countByte (UInt64.ofNat n * 8) i = UInt8.ofNat (8 * n / 256 ^ (7 - i)) := by
  have hshift : (7 - i) * 8 % 2 ^ 64 % 64 = 8 * (7 - i) := by omega
  have hpow : 2 ^ 64 = 256 ^ (7 - i) * 256 ^ (i + 1) := by
    rw [← pow_add, show 7 - i + (i + 1) = 8 by omega]
    rfl
  have hbits : n % 2 ^ 64 * (8 : UInt64).toNat % 2 ^ 64 = 8 * n % 2 ^ 64 := by
    rw [Nat.mod_mul_mod, Nat.mul_comm]
    rfl
  apply UInt8.toNat_inj.mp
  rw [countByte, UInt64.toNat_toUInt8, UInt64.toNat_shiftRight, UInt64.toNat_mul, UInt64.toNat_ofNat', UInt64.toNat_ofNat',
    UInt8.toNat_ofNat', Nat.shiftRight_eq_div_pow, hshift, hbits, pow_mul, show 2 ^ 8 = 256 by rfl, hpow,
    Nat.mod_mul_right_div_self, Nat.mod_mod_of_dvd _ (Dvd.intro_left _ (pow_succ 256 i).symm)]

theorem Took.foldl_update {ctx : ShaCtx} {m : List UInt8} (h : Took ctx m) (bytes : List UInt8) :
    Took (bytes.foldl (fun ctx b => shaUpdate ctx [b]) ctx) (m ++ bytes) := by
  induction bytes generalizing ctx m with
  | nil => simpa using h
  | cons b bytes ih => simpa using ih (h.update [b])

theorem Took.pad {ctx : ShaCtx} {m : List UInt8} (h : Took ctx m) : Took (shaPad shaUpdate ctx) (Standard.pad m) := by
  have hbytes : Standard.lengthBytes m.length = (List.range 8).map (countByte (ctx.count * 8)) := by
    refine List.map_congr_left fun i hi => ?_
    rw [h.count, countByte_eq _ (List.mem_range.mp hi)]
  have hzeros : zeros (m ++ [0x80]).length = (119 - m.length % 64) % 64 := by
    simp only [zeros, List.length_append, List.length_singleton]
    omega
  have hpadded : Took (Sha.padZeros shaUpdate 64 (shaUpdate ctx [0x80])) _ :=
    (h.update [0x80]).padZeros (Nat.mod_lt _ (by decide)).le
  have hall := hpadded.foldl_update (Standard.lengthBytes m.length)
  rw [hzeros, hbytes, List.foldl_map] at hall
  rwa [Standard.pad, hbytes]

theorem pad_length (m : List UInt8) : (Standard.pad m).length = 64 * ((Standard.pad m).length / 64) := by
  simp only [Standard.pad, Standard.lengthBytes, List.length_append, List.length_replicate, List.length_map, List.length_range,
    List.length_singleton]
  omega

/-- The digest of the bytes taken so far is the standard's. -/
theorem Took.final {ctx : ShaCtx} {m : List UInt8} (h : Took ctx m) : shaFinal ctx = Standard.sha1 m := by
  have hall := Blocks.absorb_blocks (f := Standard.compress) (by decide : 0 < bufSize) Standard.initial (pad_length m)
  have hstate := congrArg Prod.fst (h.pad.absorbed.trans hall)
  rw [shaFinal, Standard.sha1]
  exact congrArg Words.bytes hstate

theorem sha_eq (buf : List UInt8) (size : buf.length = bufSize) (data : List UInt8) : sha buf size data = Standard.sha1 data :=
  ((took_init buf size).update data).final

/-- However a message is cut into the calls of `SHA_update`, and whatever the buffer held
    before: the digest is the standard's. -/
theorem sha_digest (buf : List UInt8) (size : buf.length = bufSize) (parts : List (List UInt8)) :
    shaFinal (parts.foldl shaUpdate (shaInit buf size)) = Standard.sha1 parts.flatten := by
  have htook : ∀ {ctx m}, Took ctx m → Took (parts.foldl shaUpdate ctx) (m ++ parts.flatten) := by
    intro ctx m h
    induction parts generalizing ctx m with
    | nil => simpa using h
    | cons p parts ih => simpa using ih (h.update p)
  exact (htook (took_init buf size)).final

/-- The standard's own example, the digest of `abc`, in two calls. -/
theorem abc_digest :
    shaFinal ([[0x61], [0x62, 0x63]].foldl shaUpdate (shaInit (List.replicate 64 0) rfl)) = Standard.sha1 [0x61, 0x62, 0x63] ∧
      shaFinal ([[0x61], [0x62, 0x63]].foldl shaUpdate (shaInit (List.replicate 64 0) rfl)) =
        [0xa9, 0x99, 0x3e, 0x36, 0x47, 0x06, 0x81, 0x6a, 0xba, 0x3e, 0x25, 0x71, 0x78, 0x50, 0xc2, 0x6c, 0x9c, 0xd0,
          0xd8, 0x9d] :=
  ⟨sha_digest (List.replicate 64 0) rfl [[0x61], [0x62, 0x63]], by decide +kernel⟩

/-! ## The other version -/

namespace Fast

theorem ror27_eq (v : UInt32) : ror27 v = rol 5 v := UInt32.or_comm _ _
theorem ror2_eq (v : UInt32) : ror2 v = rol 30 v := UInt32.or_comm _ _
theorem ror31_eq (v : UInt32) : ror31 v = rol 1 v := UInt32.or_comm _ _

/-- A little-endian word with its bytes swapped is the big-endian one. -/
theorem bswap32_word (b0 b1 b2 b3 : UInt8) :
    bswap32 (b0.toUInt32 ||| (b1.toUInt32 <<< 8) ||| (b2.toUInt32 <<< 16) ||| (b3.toUInt32 <<< 24)) = word b0 b1 b2 b3 := by
  apply UInt32.toBitVec_inj.mp
  apply BitVec.eq_of_getLsbD_eq
  intro i hi
  simp only [bswap32, word, UInt32.toBitVec_or, UInt32.toBitVec_and, UInt32.toBitVec_shiftLeft,
    UInt32.toBitVec_shiftRight, UInt8.toBitVec_toUInt32, BitVec.getLsbD_or, BitVec.getLsbD_and]
  interval_cases i <;> simp

theorem load_eq (buf : List UInt8) (t : Nat) : bswap32 (bufWord buf t) = loadWord buf t := bswap32_word _ _ _ _

/-- A round with the function and the constant given. -/
def stepW (f : UInt32 → UInt32 → UInt32 → UInt32) (k w : UInt32) (r : Words) : Words :=
  ⟨rol 5 r.a + f r.b r.c r.d + r.e + k + w, r.a, rol 30 r.b, r.c, r.d⟩

/-- With the registers renamed five times, nothing is left of the renaming. -/
theorem five_eq (f : UInt32 → UInt32 → UInt32 → UInt32) (k : UInt32) (first rest : List UInt32 → Nat → UInt32) (W : List UInt32)
    (r : Words) (t : Nat) {w0 w1 w2 w3 w4 : UInt32} (h0 : first W t = w0) (h1 : rest (W ++ [w0]) (t + 1) = w1)
    (h2 : rest (W ++ [w0] ++ [w1]) (t + 2) = w2) (h3 : rest (W ++ [w0] ++ [w1] ++ [w2]) (t + 3) = w3)
    (h4 : rest (W ++ [w0] ++ [w1] ++ [w2] ++ [w3]) (t + 4) = w4) :
    five f k first rest (W, r) t =
      (W ++ [w0] ++ [w1] ++ [w2] ++ [w3] ++ [w4],
        stepW f k w4 (stepW f k w3 (stepW f k w2 (stepW f k w1 (stepW f k w0 r))))) := by
  have hsum : ∀ a w v e : UInt32, e + (ror27 a + w + v + k) = rol 5 a + v + e + k + w := by
    intro a w v e
    rw [ror27_eq]
    grind
  obtain ⟨a, b, c, d, e⟩ := r
  simp only [five, h0, h1, h2, h3, h4, shaF, stepW, hsum, ror2_eq]

/-- After `t` rounds: the words so far, and the registers of the standard. -/
def reached (buf : List UInt8) (h : Words) (t : Nat) : List UInt32 × Words :=
  ((List.range t).map (Standard.W buf), (List.range t).foldl (Standard.round buf) h)

/-- Five rounds from `t` on take the words, the function and the constant of the standard. -/
structure Fits (buf : List UInt8) (f : UInt32 → UInt32 → UInt32 → UInt32) (k : UInt32) (first rest : List UInt32 → Nat → UInt32)
    (t : Nat) : Prop where
  head : first ((List.range t).map (Standard.W buf)) t = Standard.W buf t
  tail : ∀ i, t < i → i < t + 5 → rest ((List.range i).map (Standard.W buf)) i = Standard.W buf i
  function : ∀ i, t ≤ i → i < t + 5 → f = Standard.f i ∧ k = Standard.K i

theorem Fits.five {buf : List UInt8} {f : UInt32 → UInt32 → UInt32 → UInt32} {k : UInt32}
    {first rest : List UInt32 → Nat → UInt32} {t : Nat} (h : Fits buf f k first rest t) (h0 : Words) :
    five f k first rest (reached buf h0 t) t = reached buf h0 (t + 5) := by
  have hword : ∀ i, (List.range (i + 1)).map (Standard.W buf) = (List.range i).map (Standard.W buf) ++ [Standard.W buf i] := by
    intro i
    rw [List.range_succ, List.map_append, List.map_singleton]
  have hround : ∀ i, t ≤ i → i < t + 5 → ∀ r, stepW f k (Standard.W buf i) r = Standard.round buf r i := by
    intro i hge hlt r
    obtain ⟨rfl, rfl⟩ := h.function i hge hlt
    rfl
  have h1 := h.tail (t + 1) (by omega) (by omega)
  have h2 := h.tail (t + 2) (by omega) (by omega)
  have h3 := h.tail (t + 3) (by omega) (by omega)
  have h4 := h.tail (t + 4) (by omega) (by omega)
  simp only [hword] at h1 h2 h3 h4
  rw [reached, five_eq f k first rest _ _ t h.head h1 h2 h3 h4, reached]
  simp only [← hword]
  rw [hround t (by omega) (by omega), hround (t + 1) (by omega) (by omega), hround (t + 2) (by omega) (by omega),
    hround (t + 3) (by omega) (by omega), hround (t + 4) (by omega) (by omega)]
  simp only [List.range_succ, List.foldl_append, List.foldl_cons, List.foldl_nil]

theorem Fits.loop {buf : List UInt8} {f : UInt32 → UInt32 → UInt32 → UInt32} {k : UInt32}
    {first rest : List UInt32 → Nat → UInt32}
    {t n : Nat} (h : ∀ j < n, Fits buf f k first rest (t + 5 * j)) (h0 : Words) :
    (List.range' t n 5).foldl (Fast.five f k first rest) (reached buf h0 t) = reached buf h0 (t + 5 * n) := by
  induction n with
  | zero => rfl
  | succ n ih =>
    rw [List.range'_concat, List.foldl_append, ih fun j hj => h j (by omega), List.foldl_cons, List.foldl_nil,
      (h n (by omega)).five]
    rfl

section
variable (buf : List UInt8)

theorem load_standard {t : Nat} (h : t < 16) : bswap32 (bufWord buf t) = Standard.W buf t := by
  rw [load_eq, Standard.W, if_pos h]

theorem expand_standard {t : Nat} (h : 16 ≤ t) : ror31 (taps ((List.range t).map (Standard.W buf)) t) = Standard.W buf t := by
  rw [ror31_eq, taps_standard buf h]
  conv_rhs => rw [Standard.W, if_neg (by omega)]

/-- The first 15 rounds load their words, the sixteenth is the last that does. -/
theorem fits_load {t : Nat} (h : t + 5 ≤ 16) :
    Fits buf Standard.ch 0x5A827999 (fun _ t => bswap32 (bufWord buf t)) (fun _ t => bswap32 (bufWord buf t)) t where
  head := load_standard buf (by omega)
  tail i _ hi := load_standard buf (by omega)
  function i _ hi := by simp [Standard.f, Standard.K, show i < 20 by omega]

theorem fits_mixed : Fits buf Standard.ch 0x5A827999 (fun _ t => bswap32 (bufWord buf t)) (fun W t => ror31 (taps W t)) 15 where
  head := load_standard buf (by omega)
  tail i hi _ := expand_standard buf (by omega)
  function i _ hi := by simp [Standard.f, Standard.K, show i < 20 by omega]

theorem fits_expand {f : UInt32 → UInt32 → UInt32 → UInt32} {k : UInt32} {t : Nat} (h : 16 ≤ t)
    (hf : ∀ i, t ≤ i → i < t + 5 → f = Standard.f i ∧ k = Standard.K i) :
    Fits buf f k (fun W t => ror31 (taps W t)) (fun W t => ror31 (taps W t)) t where
  head := expand_standard buf h
  tail i hi _ := expand_standard buf (by omega)
  function := hf

end

/-- Both versions of the transform do the same. -/
theorem transform_eq (ctx : ShaCtx) : sha1Transform ctx = Sha.sha1Transform ctx := by
  have hf1 : (fun B C D : UInt32 => D ^^^ (B &&& (C ^^^ D))) = Standard.ch := by
    funext b c d
    exact choose_eq b c d
  have hf3 : (fun B C D : UInt32 => (B &&& C) ||| (D &&& (B ||| C))) = Standard.maj := by
    funext b c d
    exact majority_eq b c d
  have hparity : (fun B C D : UInt32 => B ^^^ C ^^^ D) = Standard.parity := rfl
  -- the groups of rounds, each from where the one before it ends
  have h15 := Fits.loop (t := 0) (n := 3) (fun j hj => fits_load ctx.buf (by omega)) ctx.state
  have h20 := (fits_mixed ctx.buf).five ctx.state
  have h40 := Fits.loop (t := 20) (n := 4) (f := Standard.parity) (k := 0x6ED9EBA1) (fun j hj => fits_expand ctx.buf (by omega)
    fun i hge hlt => by simp [Standard.f, Standard.K, show ¬ i < 20 by omega, show i < 40 by omega]) ctx.state
  have h60 := Fits.loop (t := 40) (n := 4) (f := Standard.maj) (k := 0x8F1BBCDC) (fun j hj => fits_expand ctx.buf (by omega)
    fun i hge hlt => by
      simp [Standard.f, Standard.K, show ¬ i < 20 by omega, show ¬ i < 40 by omega, show i < 60 by omega]) ctx.state
  have h80 := Fits.loop (t := 60) (n := 4) (f := Standard.parity) (k := 0xCA62C1D6) (fun j hj => fits_expand ctx.buf (by omega)
    fun i hge hlt => by
      simp [Standard.f, Standard.K, show ¬ i < 20 by omega, show ¬ i < 40 by omega, show ¬ i < 60 by omega]) ctx.state
  simp only [List.range', Nat.zero_add, Nat.reduceAdd, Nat.reduceMul] at h15 h20 h40 h60 h80
  rw [sha1Transform, hf1, hf3, hparity, show (([], ctx.state) : List UInt32 × Words) = reached ctx.buf ctx.state 0 from rfl]
  rw [h15, h20, h40, h60, h80, Sha.sha1Transform, rounds_eq]
  rfl

/-- Bytes up to the end of the buffer, one by one or copied at once. -/
theorem foldl_store (transform : ShaCtx → ShaCtx) (ctx : ShaCtx) {i : Nat} {bytes : List UInt8} (hne : bytes ≠ [])
    (h : i + bytes.length = bufSize) (hsize : (ctx.buf.take i ++ bytes).length = bufSize) :
    bytes.foldl (updateByte transform) (ctx, i) = (transform { ctx with buf := ctx.buf.take i ++ bytes, size := hsize }, 0) := by
  induction bytes generalizing ctx i with
  | nil => exact absurd rfl hne
  | cons b bytes ih =>
    rw [List.length_cons] at h
    have hset : (ctx.store i b).buf.take (i + 1) = ctx.buf.take i ++ [b] := take_set (by rw [ctx.size]; omega) b
    have htake : (ctx.store i b).buf.take (i + 1) ++ bytes = ctx.buf.take i ++ b :: bytes := by
      rw [hset, List.append_assoc, List.singleton_append]
    rw [List.foldl_cons, updateByte]
    by_cases hlast : bytes = []
    · subst hlast
      have hbuf : (ctx.store i b).buf = ctx.buf.take i ++ [b] := by
        rw [← hset, List.take_of_length_le (by rw [ShaCtx.size]; exact h.ge)]
      have hctx : ctx.store i b = { ctx with buf := ctx.buf.take i ++ [b], size := hsize } := ShaCtx.ext rfl rfl hbuf
      dsimp only
      rw [if_pos (by simpa using h), List.foldl_nil, hctx]
    · have hpos := List.length_pos_of_ne_nil hlast
      dsimp only
      rw [if_neg (by omega), ih (ctx.store i b) hlast (by omega) (by rw [htake]; exact hsize)]
      exact congrArg (fun c => (transform c, 0)) (ShaCtx.ext rfl rfl htake)

theorem bulk_eq (ctx : ShaCtx) (i : Fin bufSize) (data : List UInt8) :
    (bulk ctx i data).2.2.foldl (updateByte sha1Transform) ((bulk ctx i data).1, (bulk ctx i data).2.1) =
      data.foldl (updateByte sha1Transform) (ctx, i) := by
  induction ctx, i, data using bulk.induct with
  | case1 ctx i data h ih =>
    have hi := i.isLt
    have hlen := copied_length h
    have hne : data.take (bufSize - i) ≠ [] := List.ne_nil_of_length_pos (by omega)
    rw [bulk, dif_pos h, ih]
    conv_rhs => rw [← List.take_append_drop (bufSize - i) data, List.foldl_append,
      foldl_store sha1Transform ctx hne (by omega) (copy_size ctx i hlen)]
  | case2 ctx i data h => rw [bulk, dif_neg h]

/-- The little-endian version of `SHA_update` leaves the context that the portable one
    leaves. -/
theorem update_eq (ctx : ShaCtx) (data : List UInt8) : shaUpdate ctx data = Sha.shaUpdate ctx data := by
  rw [shaUpdate, bulk_eq, Sha.shaUpdate, show sha1Transform = Sha.sha1Transform from funext transform_eq]

theorem digestBytes_eq (w : UInt32) : digestBytes w = wordBytes w := by
  have hbyte : ∀ {x y : UInt32}, (∀ i < 8, x.toBitVec.getLsbD i = y.toBitVec.getLsbD i) → x.toUInt8 = y.toUInt8 := by
    intro x y h
    apply UInt8.toBitVec_inj.mp
    apply BitVec.eq_of_getLsbD_eq
    intro i hi
    simp only [UInt32.toBitVec_toUInt8, BitVec.getLsbD_setWidth, h i hi]
  have hbits : ∀ i < 8,
      (bswap32 w).toBitVec.getLsbD i = (w >>> 24).toBitVec.getLsbD i ∧
      (bswap32 w >>> 8).toBitVec.getLsbD i = (w >>> 16).toBitVec.getLsbD i ∧
      (bswap32 w >>> 16).toBitVec.getLsbD i = (w >>> 8).toBitVec.getLsbD i ∧
      (bswap32 w >>> 24).toBitVec.getLsbD i = w.toBitVec.getLsbD i := by
    intro i hi
    simp only [bswap32, UInt32.toBitVec_or, UInt32.toBitVec_and, UInt32.toBitVec_shiftLeft, UInt32.toBitVec_shiftRight]
    interval_cases i <;> simp
  rw [digestBytes, wordBytes, hbyte fun i hi => (hbits i hi).1, hbyte fun i hi => (hbits i hi).2.1,
    hbyte fun i hi => (hbits i hi).2.2.1, hbyte fun i hi => (hbits i hi).2.2.2]

/-- Both versions leave the same context after every call and return the same digest. -/
theorem same_as_portable :
    (∀ (ctx : ShaCtx) (data : List UInt8), shaUpdate ctx data = Sha.shaUpdate ctx data) ∧
      ∀ ctx : ShaCtx, shaFinal ctx = Sha.shaFinal ctx := by
  refine ⟨update_eq, ?_⟩
  intro ctx
  have hupdate : shaUpdate = Sha.shaUpdate := funext fun ctx => funext fun data => update_eq ctx data
  simp only [shaFinal, Sha.shaFinal, Words.bytes, hupdate, digestBytes_eq]

end Fast

end AmebaLinux.Adb.Sha
