/-
  AmebaLinux.Rcp.Hdlc — the HDLC framing of the RCP tool
  (`openthread/RTKRCP_Config_CFU_Tool_V1.02_20241218/hdlc/CFUonHDLC.c`: `UpdateFcs`,
  `HdlcByteNeedsEscape`, `hdlc_encode`, `hdlc_decoder_reset`, `hdlc_decode`).

  The encoder is the list of bytes it stores through `pEncBuffer`, in order, so
  `mEncodedLength` is that list's length. The decoder's five globals and its buffer
  are one record. `pDecBuffer` is its offset in `decodeBuffer`; the lengths are
  naturals, which the code's `uint16_t` holds without wrapping (they stay within the
  256 bytes of the buffer). A store past the end of `decodeBuffer` is dropped here.

  `hdlc_decode` returns at a good closing flag and drops the rest of its chunk; every
  other way through it ends in `*ret = HDLD_DECODE_PENDING`, which overwrites a
  `HDLD_DECODE_PARSE_ERR` set on the way.
-/

import Mathlib.Data.List.Basic

namespace AmebaLinux.Rcp.Hdlc

/-! ## Constants and the check sequence -/

def kFlagXOn : UInt8 := 0x11
def kFlagXOff : UInt8 := 0x13
def kFlagSequence : UInt8 := 0x7e
def kEscapeSequence : UInt8 := 0x7d
def kFlagSpecial : UInt8 := 0xf8

def kInitFcs : UInt16 := 0xffff
def kGoodFcs : UInt16 := 0xf0b8
def kFcsSize : Nat := 2

/-- `sizeof(encodeBuffer)`. -/
def encodeBufferSize : Nat := 256

/-- `sizeof(decodeBuffer)`. -/
def decodeBufferSize : Nat := 256

def sFcsTable : List UInt16 :=
  [0x0000, 0x1189, 0x2312, 0x329b, 0x4624, 0x57ad, 0x6536, 0x74bf, 0x8c48, 0x9dc1, 0xaf5a, 0xbed3, 0xca6c, 0xdbe5,
   0xe97e, 0xf8f7, 0x1081, 0x0108, 0x3393, 0x221a, 0x56a5, 0x472c, 0x75b7, 0x643e, 0x9cc9, 0x8d40, 0xbfdb, 0xae52,
   0xdaed, 0xcb64, 0xf9ff, 0xe876, 0x2102, 0x308b, 0x0210, 0x1399, 0x6726, 0x76af, 0x4434, 0x55bd, 0xad4a, 0xbcc3,
   0x8e58, 0x9fd1, 0xeb6e, 0xfae7, 0xc87c, 0xd9f5, 0x3183, 0x200a, 0x1291, 0x0318, 0x77a7, 0x662e, 0x54b5, 0x453c,
   0xbdcb, 0xac42, 0x9ed9, 0x8f50, 0xfbef, 0xea66, 0xd8fd, 0xc974, 0x4204, 0x538d, 0x6116, 0x709f, 0x0420, 0x15a9,
   0x2732, 0x36bb, 0xce4c, 0xdfc5, 0xed5e, 0xfcd7, 0x8868, 0x99e1, 0xab7a, 0xbaf3, 0x5285, 0x430c, 0x7197, 0x601e,
   0x14a1, 0x0528, 0x37b3, 0x263a, 0xdecd, 0xcf44, 0xfddf, 0xec56, 0x98e9, 0x8960, 0xbbfb, 0xaa72, 0x6306, 0x728f,
   0x4014, 0x519d, 0x2522, 0x34ab, 0x0630, 0x17b9, 0xef4e, 0xfec7, 0xcc5c, 0xddd5, 0xa96a, 0xb8e3, 0x8a78, 0x9bf1,
   0x7387, 0x620e, 0x5095, 0x411c, 0x35a3, 0x242a, 0x16b1, 0x0738, 0xffcf, 0xee46, 0xdcdd, 0xcd54, 0xb9eb, 0xa862,
   0x9af9, 0x8b70, 0x8408, 0x9581, 0xa71a, 0xb693, 0xc22c, 0xd3a5, 0xe13e, 0xf0b7, 0x0840, 0x19c9, 0x2b52, 0x3adb,
   0x4e64, 0x5fed, 0x6d76, 0x7cff, 0x9489, 0x8500, 0xb79b, 0xa612, 0xd2ad, 0xc324, 0xf1bf, 0xe036, 0x18c1, 0x0948,
   0x3bd3, 0x2a5a, 0x5ee5, 0x4f6c, 0x7df7, 0x6c7e, 0xa50a, 0xb483, 0x8618, 0x9791, 0xe32e, 0xf2a7, 0xc03c, 0xd1b5,
   0x2942, 0x38cb, 0x0a50, 0x1bd9, 0x6f66, 0x7eef, 0x4c74, 0x5dfd, 0xb58b, 0xa402, 0x9699, 0x8710, 0xf3af, 0xe226,
   0xd0bd, 0xc134, 0x39c3, 0x284a, 0x1ad1, 0x0b58, 0x7fe7, 0x6e6e, 0x5cf5, 0x4d7c, 0xc60c, 0xd785, 0xe51e, 0xf497,
   0x8028, 0x91a1, 0xa33a, 0xb2b3, 0x4a44, 0x5bcd, 0x6956, 0x78df, 0x0c60, 0x1de9, 0x2f72, 0x3efb, 0xd68d, 0xc704,
   0xf59f, 0xe416, 0x90a9, 0x8120, 0xb3bb, 0xa232, 0x5ac5, 0x4b4c, 0x79d7, 0x685e, 0x1ce1, 0x0d68, 0x3ff3, 0x2e7a,
   0xe70e, 0xf687, 0xc41c, 0xd595, 0xa12a, 0xb0a3, 0x8238, 0x93b1, 0x6b46, 0x7acf, 0x4854, 0x59dd, 0x2d62, 0x3ceb,
   0x0e70, 0x1ff9, 0xf78f, 0xe606, 0xd49d, 0xc514, 0xb1ab, 0xa022, 0x92b9, 0x8330, 0x7bc7, 0x6a4e, 0x58d5, 0x495c,
   0x3de3, 0x2c6a, 0x1ef1, 0x0f78]

def updateFcs (aFcs : UInt16) (aByte : UInt8) : UInt16 :=
  (aFcs >>> 8) ^^^ sFcsTable.getD ((aFcs ^^^ aByte.toUInt16) &&& 0xff).toNat 0

def hdlcByteNeedsEscape (aByte : UInt8) : Bool :=
  aByte == kFlagXOn || aByte == kFlagXOff || aByte == kEscapeSequence || aByte == kFlagSequence ||
    aByte == kFlagSpecial

/-! ## The encoder -/

/-- What one content byte is sent as. -/
def stuff (aByte : UInt8) : List UInt8 :=
  if hdlcByteNeedsEscape aByte then [kEscapeSequence, aByte ^^^ 0x20] else [aByte]

structure Encoder where
  /-- Every byte stored through `pEncBuffer`, in order. -/
  stored : List UInt8
  mEncFcs : UInt16
  deriving DecidableEq, Repr

/-- One turn of the encoder's loop. -/
def encodeByte (e : Encoder) (aByte : UInt8) : Encoder :=
  ⟨e.stored ++ stuff aByte, updateFcs e.mEncFcs aByte⟩

/-- The bytes `hdlc_encode` stores, or `none` where it returns false. -/
def hdlcEncode (aData : List UInt8) : Option (List UInt8) :=
  if 1 + aData.length * 2 + 2 + 1 > encodeBufferSize then none
  else
    let e := aData.foldl encodeByte ⟨[kFlagSequence], kInitFcs⟩
    let mEncFcs := e.mEncFcs ^^^ 0xffff
    some (e.stored ++ stuff (mEncFcs &&& 0xff).toUInt8 ++ stuff (mEncFcs >>> 8).toUInt8 ++ [kFlagSequence])

/-! ## The decoder -/

inductive State where
  | noSync
  | sync
  | escaped
  deriving DecidableEq, Repr

inductive DecodeRet where
  | complete
  | pending
  | noBufs
  | parseErr
  deriving DecidableEq, Repr

structure Decoder where
  mState : State
  mFcs : UInt16
  mDecodedLength : Nat
  /-- The offset of `pDecBuffer` in `decodeBuffer`. -/
  pDecBuffer : Nat
  remainingLen : Nat
  decodeBuffer : List UInt8
  deriving DecidableEq, Repr

/-- The globals as the program starts with them. -/
def start : Decoder := ⟨.noSync, 0, 0, 0, decodeBufferSize, List.replicate decodeBufferSize 0⟩

def hdlcDecoderReset (s : Decoder) : Decoder :=
  { s with mState := .noSync, mFcs := 0, mDecodedLength := 0, pDecBuffer := 0 }

/-- Take one content byte, or, with no room left, drop everything and lose sync. -/
def store (s : Decoder) (byte : UInt8) : Decoder :=
  if 1 ≤ s.remainingLen then
    { s with
      mState := .sync
      mFcs := updateFcs s.mFcs byte
      decodeBuffer := s.decodeBuffer.set s.pDecBuffer byte
      pDecBuffer := s.pDecBuffer + 1
      remainingLen := s.remainingLen - 1
      mDecodedLength := s.mDecodedLength + 1 }
  else { s with mState := .noSync, mFcs := 0, mDecodedLength := 0, pDecBuffer := 0 }

/-- A closing flag with a good check sequence: give the two bytes of it back. -/
def removeFcs (s : Decoder) : Decoder :=
  { s with
    pDecBuffer := s.pDecBuffer - kFcsSize
    remainingLen := s.remainingLen + kFcsSize
    mDecodedLength := s.mDecodedLength - kFcsSize }

/-- One turn of `hdlc_decode`'s loop; `true` when it returns `HDLD_DECODE_COMPLETE`. -/
def decodeByte (s : Decoder) (byte : UInt8) : Decoder × Bool :=
  match s.mState with
  | .noSync =>
    if byte = kFlagSequence then ({ s with mState := .sync, mDecodedLength := 0, mFcs := kInitFcs }, false) else (s, false)
  | .sync =>
    if byte = kEscapeSequence then ({ s with mState := .escaped }, false)
    else if byte = kFlagSequence then
      if 0 < s.mDecodedLength ∧ kFcsSize ≤ s.mDecodedLength ∧ s.mFcs = kGoodFcs then (removeFcs s, true)
      else ({ s with mDecodedLength := 0, pDecBuffer := 0, mFcs := kInitFcs }, false)
    else (store s byte, false)
  | .escaped => (store s (byte ^^^ 0x20), false)

/-- What a call of `hdlc_decode` leaves its caller: the code in `*ret`, the length it
    returns, and the globals. -/
structure Call where
  ret : DecodeRet
  len : Nat
  after : Decoder
  deriving DecidableEq, Repr

def hdlcDecode (s : Decoder) : List UInt8 → Call
  | [] => ⟨.pending, s.mDecodedLength, s⟩
  | byte :: aData =>
    match decodeByte s byte with
    | (s', true) => ⟨.complete, s'.mDecodedLength, s'⟩
    | (s', false) => hdlcDecode s' aData

/-- The bytes a caller may take from `decodeBuffer` after the call. -/
def Call.payload (c : Call) : List UInt8 := c.after.decodeBuffer.take c.len

/-- A chunk per call, each call from the globals the one before left. -/
def calls (s : Decoder) : List (List UInt8) → List Call
  | [] => []
  | aData :: rest => let c := hdlcDecode s aData; c :: calls c.after rest

end AmebaLinux.Rcp.Hdlc
