/-
  AmebaLinux.Adb.Rsa — checking an RSA signature (`libmincrypt/rsa.c`, `rsa_e_3.c`,
  `rsa_e_f4.c`), and the keys that `tools/DumpPublicKey.java` prints for it.

  The two files have the same arithmetic: numbers are arrays of 32-bit words, the lowest
  first, and products are Montgomery products. The functions run only on keys with
  `len == RSANUMWORDS`, so their loops go over the whole arrays. `RSA_e_f4_verify` compares
  a digest of the decrypted block, `RSA_e_3_verify` the block itself.

  `len` is the length of `signature`, and `sha` has at least 20 bytes.
-/

import AmebaLinux.Adb.Sha

namespace AmebaLinux.Adb.Rsa

open AmebaLinux.Adb

/-- `RSANUMBYTES`. -/
def rsaNumBytes : Nat := 256

/-- `RSANUMWORDS`. -/
def rsaNumWords : Nat := 64

/-- `SHA_DIGEST_SIZE`. -/
def shaDigestSize : Nat := 20

structure RSAPublicKey where
  len : Int
  n0inv : UInt32
  n : List UInt32
  rr : List UInt32
  exponent : Int
  n_size : n.length = rsaNumWords
  rr_size : rr.length = rsaNumWords

/-! ## Arithmetic on words -/

/-- The loop of `subM`, with the `int64_t A`. -/
def subLoop : Int64 → List UInt32 → List UInt32 → List UInt32
  | A, a :: as, n :: ns =>
    let A := A + (a.toUInt64 - n.toUInt64).toInt64
    A.toUInt64.toUInt32 :: subLoop (A >>> 32) as ns
  | _, as, _ => as

def subM (n a : List UInt32) : List UInt32 := subLoop 0 a n

/-- The words of `a` and of the modulus, the highest first. -/
def geLoop : List (UInt32 × UInt32) → Bool
  | [] => true
  | (a, n) :: rest => if a < n then false else if n < a then true else geLoop rest

def geM (n a : List UInt32) : Bool := geLoop (a.zip n).reverse

/-- The loop of `montMulAdd`: the words `c[0]` on, and `A` and `B` at the end. -/
def montLoop (a d0 : UInt32) : UInt64 → UInt64 → List UInt32 → List UInt32 → List UInt32 → List UInt32 × UInt64 × UInt64
  | A, B, b :: bs, c :: cs, n :: ns =>
    let A := (A >>> 32) + a.toUInt64 * b.toUInt64 + c.toUInt64
    let B := (B >>> 32) + d0.toUInt64 * n.toUInt64 + A.toUInt32.toUInt64
    let r := montLoop a d0 A B bs cs ns
    (B.toUInt32 :: r.1, r.2)
  | A, B, _, _, _ => ([], A, B)

def montMulAdd (key : RSAPublicKey) (c : List UInt32) (a : UInt32) (b : List UInt32) : List UInt32 :=
  match b, c, key.n with
  | b0 :: bs, c0 :: cs, n0 :: ns =>
    let A := a.toUInt64 * b0.toUInt64 + c0.toUInt64
    let d0 := A.toUInt32 * key.n0inv
    let B := d0.toUInt64 * n0.toUInt64 + A.toUInt32.toUInt64
    let (c, A, B) := montLoop a d0 A B bs cs ns
    let A := (A >>> 32) + (B >>> 32)
    let c := c ++ [A.toUInt32]
    if A >>> 32 ≠ 0 then subM key.n c else c
  | _, _, _ => c

def montMul (key : RSAPublicKey) (a b : List UInt32) : List UInt32 :=
  a.foldl (fun c w => montMulAdd key c w b) (List.replicate rsaNumWords 0)

/-! ## Exponentiation -/

/-- From a big-endian byte array to a little-endian word array. -/
def toWords (inout : List UInt8) : List UInt32 :=
  (List.range rsaNumWords).map fun i => Sha.loadWord inout (rsaNumWords - 1 - i)

/-- And back. -/
def toBytes (words : List UInt32) : List UInt8 := words.reverse.flatMap Sha.wordBytes

/-- The end of both exponentiations: `aaa` is brought below the modulus. -/
def reduceOnce (key : RSAPublicKey) (aaa : List UInt32) : List UInt32 := if geM key.n aaa then subM key.n aaa else aaa

def modpow3 (key : RSAPublicKey) (inout : List UInt8) : List UInt8 :=
  let a := toWords inout
  let aR := montMul key a key.rr
  let aaR := montMul key aR aR
  let aaa := montMul key aaR a
  toBytes (reduceOnce key aaa)

def modpowF4 (key : RSAPublicKey) (inout : List UInt8) : List UInt8 :=
  let a := toWords inout
  let aR := montMul key a key.rr
  let aR := (List.range 8).foldl (fun aR _ => let aaR := montMul key aR aR; montMul key aaR aaR) aR
  let aaa := montMul key aR a
  toBytes (reduceOnce key aaa)

/-! ## Signatures -/

/-- `padding` of `rsa_e_3.c`. -/
def padding : List UInt8 :=
  [0x00, 0x01] ++ List.replicate 218 0xff ++
    [0x00, 0x30, 0x21, 0x30, 0x09, 0x06, 0x05, 0x2b, 0x0e, 0x03, 0x02, 0x1a, 0x05, 0x00, 0x04, 0x14]

def kExpectedPadShaRsa2048 : List UInt8 :=
  [0xdc, 0xbd, 0xbe, 0x42, 0xd5, 0xf5, 0xa7, 0x2e, 0x6e, 0xfc, 0xf5, 0x5d, 0xaf, 0x9d, 0xea, 0x68, 0x7c, 0xfb, 0xf1, 0x67]

def rsaE3Verify (key : RSAPublicKey) (signature sha : List UInt8) : Bool :=
  if key.len ≠ rsaNumWords then false
  else if signature.length ≠ rsaNumBytes then false
  else if key.exponent ≠ 3 then false
  else
    let buf := modpow3 key signature
    buf.take padding.length == padding && buf.drop padding.length == sha.take shaDigestSize

/-- What the local context of `SHA` holds at first does not matter (`Sha.sha_digest`). -/
def shaOf (data : List UInt8) : List UInt8 := Sha.sha (List.replicate Sha.bufSize 0) rfl data

def rsaEF4Verify (key : RSAPublicKey) (signature sha : List UInt8) : Bool :=
  if key.len ≠ rsaNumWords then false
  else if signature.length ≠ rsaNumBytes then false
  else if key.exponent ≠ 65537 then false
  else
    let buf := modpowF4 key signature
    let split := signature.length - shaDigestSize
    let buf := buf.take split ++ List.zipWith (· ^^^ ·) (buf.drop split) sha
    shaOf buf == kExpectedPadShaRsa2048

def rsaVerify (key : RSAPublicKey) (signature sha : List UInt8) : Bool :=
  if key.exponent = 3 then rsaE3Verify key signature sha
  else if key.exponent = 65537 then rsaEF4Verify key signature sha
  else false

/-! ## Printed keys -/

/-- `nwords` times `N.mod(B)` and `N = N.divide(B)`. -/
def wordsOf : Nat → Nat → List UInt32
  | 0, _ => []
  | k + 1, N => UInt32.ofNat (N % 2 ^ 32) :: wordsOf k (N / 2 ^ 32)

theorem wordsOf_length (k N : Nat) : (wordsOf k N).length = k := by
  induction k generalizing N with
  | zero => rfl
  | succ k ih => rw [wordsOf, List.length_cons, ih]

/-- `check`: the exponent is 3 or 65537, and the modulus has 2048 bits. -/
def checkKey (N e : Nat) : Bool := (e == 3 || e == 65537) && N.log2 + 1 == 2048 && N != 0

/-- `N.modInverse(B)`: the inverse modulo `B`, if there is one. -/
def modInverse (N B : Nat) : Option Nat := if N.gcd B = 1 then some ((N.gcdA B % B).toNat) else none

/-- The numbers in the text that `print` gives; an exception is `none`. The exponent is
    told by the version in the text. -/
def printKey (N e : Nat) : Option RSAPublicKey :=
  if checkKey N e then
    (modInverse N (2 ^ 32)).map fun inv =>
      { len := ((N.log2 + 1) / 32 : Nat), n0inv := UInt32.ofNat (2 ^ 32 - inv), n := wordsOf rsaNumWords N,
        rr := wordsOf rsaNumWords (2 ^ (N.log2 + 1) * 2 ^ (N.log2 + 1) % N), exponent := e,
        n_size := wordsOf_length _ _, rr_size := wordsOf_length _ _ }
  else none

end AmebaLinux.Adb.Rsa
