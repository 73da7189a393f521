/-
  AmebaLinux.Adb.Sha — SHA-1 of `libmincrypt/sha.c`, in both of its versions.

  The Makefile defines neither `HAVE_ENDIAN_H` nor `HAVE_LITTLE_ENDIAN`, so the portable
  version is the one in `adbd` (`shaUpdate`, `shaFinal`, `sha`). `Fast` is the other one,
  which reads the block as little-endian words, computes the message schedule on the way and
  renames its five registers from round to round instead of moving them.

  `SHA_init` does not clear the buffer, so what it holds is a parameter. The lengths are
  `int` and not negative here.
-/

import Mathlib.Tactic

namespace AmebaLinux.Adb.Sha

/-- The five words of the state, and of the registers. -/
structure Words where
  a : UInt32
  b : UInt32
  c : UInt32
  d : UInt32
  e : UInt32
deriving DecidableEq, Repr

def Words.add (x y : Words) : Words := ⟨x.a + y.a, x.b + y.b, x.c + y.c, x.d + y.d, x.e + y.e⟩

/-- `sizeof(ctx->buf)`. -/
def bufSize : Nat := 64

@[ext]
structure ShaCtx where
  count : UInt64
  state : Words
  buf : List UInt8
  size : buf.length = bufSize

theorem set_size (ctx : ShaCtx) (i : Nat) (b : UInt8) : (ctx.buf.set i b).length = bufSize := by
  rw [List.length_set, ctx.size]

/-- `ctx->buf[i] = b`. -/
def ShaCtx.store (ctx : ShaCtx) (i : Nat) (b : UInt8) : ShaCtx := { ctx with buf := ctx.buf.set i b, size := set_size ctx i b }

def shaInit (buf : List UInt8) (size : buf.length = bufSize) : ShaCtx :=
  { count := 0, state := ⟨0x67452301, 0xEFCDAB89, 0x98BADCFE, 0x10325476, 0xC3D2E1F0⟩, buf, size }

/-! ## The portable version -/

def rol (bits value : UInt32) : UInt32 := (value <<< bits) ||| (value >>> (32 - bits))

/-- Four bytes, the highest first. -/
def word (b0 b1 b2 b3 : UInt8) : UInt32 :=
  (b0.toUInt32 <<< 24) ||| (b1.toUInt32 <<< 16) ||| (b2.toUInt32 <<< 8) ||| b3.toUInt32

def loadWord (buf : List UInt8) (t : Nat) : UInt32 :=
  word (buf.getD (4 * t) 0) (buf.getD (4 * t + 1) 0) (buf.getD (4 * t + 2) 0) (buf.getD (4 * t + 3) 0)

/-- `W[t-3] ^ W[t-8] ^ W[t-14] ^ W[t-16]`. -/
def taps (W : List UInt32) (t : Nat) : UInt32 :=
  W.getD (t - 3) 0 ^^^ W.getD (t - 8) 0 ^^^ W.getD (t - 14) 0 ^^^ W.getD (t - 16) 0

/-- The array `W`, filled from its start. -/
def schedule (buf : List UInt8) : List UInt32 :=
  (List.range' 16 64).foldl (fun W t => W ++ [rol 1 (taps W t)]) ((List.range 16).map (loadWord buf))

def round (W : List UInt32) (r : Words) (t : Nat) : Words :=
  let tmp := rol 5 r.a + r.e + W.getD t 0
  let tmp :=
    if t < 20 then tmp + ((r.d ^^^ (r.b &&& (r.c ^^^ r.d))) + 0x5A827999)
    else if t < 40 then tmp + ((r.b ^^^ r.c ^^^ r.d) + 0x6ED9EBA1)
    else if t < 60 then tmp + (((r.b &&& r.c) ||| (r.d &&& (r.b ||| r.c))) + 0x8F1BBCDC)
    else tmp + ((r.b ^^^ r.c ^^^ r.d) + 0xCA62C1D6)
  ⟨tmp, r.a, rol 30 r.b, r.c, r.d⟩

def sha1Transform (ctx : ShaCtx) : ShaCtx :=
  { ctx with state := ctx.state.add ((List.range 80).foldl (round (schedule ctx.buf)) ctx.state) }

/-- One byte of `SHA_update`'s loop, with the index `i`. -/
def updateByte (transform : ShaCtx → ShaCtx) (s : ShaCtx × Nat) (b : UInt8) : ShaCtx × Nat :=
  let ctx := s.1.store s.2 b
  if s.2 + 1 = bufSize then (transform ctx, 0) else (ctx, s.2 + 1)

def shaUpdate (ctx : ShaCtx) (data : List UInt8) : ShaCtx :=
  (data.foldl (updateByte sha1Transform)
    ({ ctx with count := ctx.count + UInt64.ofNat data.length }, (ctx.count % 64).toNat)).1

/-- The loop that pads with zeros; 64 rounds are enough (`padZeros_count`). -/
def padZeros (update : ShaCtx → List UInt8 → ShaCtx) : Nat → ShaCtx → ShaCtx
  | 0, ctx => ctx
  | fuel + 1, ctx => if ctx.count % 64 ≠ 64 - 8 then padZeros update fuel (update ctx [0]) else ctx

/-- `(uint8_t)(cnt >> ((7 - i) * 8))`. -/
def countByte (cnt : UInt64) (i : Nat) : UInt8 := (cnt >>> UInt64.ofNat ((7 - i) * 8)).toUInt8

/-- `SHA_final` up to the bytes of the digest. -/
def shaPad (update : ShaCtx → List UInt8 → ShaCtx) (ctx : ShaCtx) : ShaCtx :=
  let cnt := ctx.count * 8
  let ctx := padZeros update 64 (update ctx [0x80])
  (List.range 8).foldl (fun ctx i => update ctx [countByte cnt i]) ctx

/-- The bytes of a word, the highest first. -/
def wordBytes (w : UInt32) : List UInt8 := [(w >>> 24).toUInt8, (w >>> 16).toUInt8, (w >>> 8).toUInt8, w.toUInt8]

def Words.bytes (w : Words) : List UInt8 := wordBytes w.a ++ wordBytes w.b ++ wordBytes w.c ++ wordBytes w.d ++ wordBytes w.e

/-- The 20 bytes at the start of the buffer that `SHA_final` returns. -/
def shaFinal (ctx : ShaCtx) : List UInt8 := (shaPad shaUpdate ctx).state.bytes

/-- `SHA`, with what its local context's buffer held. -/
def sha (buf : List UInt8) (size : buf.length = bufSize) (data : List UInt8) : List UInt8 :=
  shaFinal (shaUpdate (shaInit buf size) data)

/-! ## The version for little-endian machines -/

namespace Fast

def ror27 (val : UInt32) : UInt32 := (val >>> 27) ||| (val <<< 5)
def ror2 (val : UInt32) : UInt32 := (val >>> 2) ||| (val <<< 30)
def ror31 (val : UInt32) : UInt32 := (val >>> 31) ||| (val <<< 1)

def bswap32 (x : UInt32) : UInt32 :=
  (x >>> 24) ||| ((x >>> 8) &&& (0xff00 : UInt32)) ||| ((x <<< 8) &&& (0xff0000 : UInt32)) ||| (x <<< 24)

/-- `buf.w[t]`: four bytes of the union, the lowest first. -/
def bufWord (buf : List UInt8) (t : Nat) : UInt32 :=
  (buf.getD (4 * t) 0).toUInt32 ||| ((buf.getD (4 * t + 1) 0).toUInt32 <<< 8) |||
    ((buf.getD (4 * t + 2) 0).toUInt32 <<< 16) ||| ((buf.getD (4 * t + 3) 0).toUInt32 <<< 24)

/-- What the macros `SHA_F1` to `SHA_F4` do to `E` and `B`, for `w` as `W[t]`. -/
def shaF (f : UInt32 → UInt32 → UInt32 → UInt32) (k w A B C D E : UInt32) : UInt32 × UInt32 :=
  (E + (ror27 A + w + f B C D + k), ror2 B)

/-- Five rounds, after which the registers have their names again; the first one takes its
    word by `first`, the others by `rest`. -/
def five (f : UInt32 → UInt32 → UInt32 → UInt32) (k : UInt32) (first rest : List UInt32 → Nat → UInt32)
    (s : List UInt32 × Words) (t : Nat) : List UInt32 × Words :=
  let ⟨W, A, B, C, D, E⟩ := s
  let w := first W t
  let W := W ++ [w]
  let (E, B) := shaF f k w A B C D E
  let w := rest W (t + 1)
  let W := W ++ [w]
  let (D, A) := shaF f k w E A B C D
  let w := rest W (t + 2)
  let W := W ++ [w]
  let (C, E) := shaF f k w D E A B C
  let w := rest W (t + 3)
  let W := W ++ [w]
  let (B, D) := shaF f k w C D E A B
  let w := rest W (t + 4)
  let W := W ++ [w]
  let (A, C) := shaF f k w B C D E A
  (W, ⟨A, B, C, D, E⟩)

def sha1Transform (ctx : ShaCtx) : ShaCtx :=
  let load := fun (_ : List UInt32) t => bswap32 (bufWord ctx.buf t)
  let expand := fun W t => ror31 (taps W t)
  let f1 := fun B C D : UInt32 => D ^^^ (B &&& (C ^^^ D))
  let f2 := fun B C D : UInt32 => B ^^^ C ^^^ D
  let f3 := fun B C D : UInt32 => (B &&& C) ||| (D &&& (B ||| C))
  let s := [0, 5, 10].foldl (five f1 0x5A827999 load load) ([], ctx.state)
  let s := five f1 0x5A827999 load expand s 15
  let s := [20, 25, 30, 35].foldl (five f2 0x6ED9EBA1 expand expand) s
  let s := [40, 45, 50, 55].foldl (five f3 0x8F1BBCDC expand expand) s
  let s := [60, 65, 70, 75].foldl (five f2 0xCA62C1D6 expand expand) s
  { ctx with state := ctx.state.add s.2 }

theorem copy_size (ctx : ShaCtx) (i : Fin bufSize) {bytes : List UInt8} (h : bytes.length = bufSize - i) :
    (ctx.buf.take i ++ bytes).length = bufSize := by
  rw [List.length_append, List.length_take, ctx.size, h, Nat.min_eq_left i.isLt.le, Nat.add_sub_cancel' i.isLt.le]

theorem copied_length {i : Fin bufSize} {data : List UInt8} (h : bufSize - i < data.length) :
    (data.take (bufSize - i)).length = bufSize - i := by
  rw [List.length_take, Nat.min_eq_left h.le]

theorem copied_lt {i : Fin bufSize} {data : List UInt8} (h : bufSize - i < data.length) :
    (data.drop (bufSize - i)).length < data.length := by
  have := i.isLt
  rw [List.length_drop]
  omega

/-- The loop that copies up to the end of the buffer: the context, the index and the data
    left. -/
def bulk (ctx : ShaCtx) (i : Fin bufSize) (data : List UInt8) : ShaCtx × Nat × List UInt8 :=
  if h : bufSize - i < data.length then
    bulk (sha1Transform { ctx with buf := ctx.buf.take i ++ data.take (bufSize - i), size := copy_size ctx i (copied_length h) })
      ⟨0, Nat.zero_lt_succ _⟩ (data.drop (bufSize - i))
  else (ctx, i, data)
termination_by data.length
decreasing_by exact copied_lt h

theorem index_lt (ctx : ShaCtx) : (ctx.count % 64).toNat < bufSize := by
  rw [UInt64.toNat_mod]
  exact Nat.mod_lt _ (by decide)

def shaUpdate (ctx : ShaCtx) (data : List UInt8) : ShaCtx :=
  let s := bulk { ctx with count := ctx.count + UInt64.ofNat data.length } ⟨(ctx.count % 64).toNat, index_lt ctx⟩ data
  (s.2.2.foldl (updateByte sha1Transform) (s.1, s.2.1)).1

/-- `buf.w[i] = bswap_32(state[i])`, read back as bytes. -/
def digestBytes (w : UInt32) : List UInt8 :=
  let x := bswap32 w
  [x.toUInt8, (x >>> 8).toUInt8, (x >>> 16).toUInt8, (x >>> 24).toUInt8]

def shaFinal (ctx : ShaCtx) : List UInt8 :=
  let w := (shaPad shaUpdate ctx).state
  digestBytes w.a ++ digestBytes w.b ++ digestBytes w.c ++ digestBytes w.d ++ digestBytes w.e

end Fast

end AmebaLinux.Adb.Sha
