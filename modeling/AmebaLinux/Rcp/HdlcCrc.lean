/-
  AmebaLinux.Rcp.HdlcCrc — the check sequence of the HDLC framing is CRC-16/X.25 (see
  `AmebaLinux.Rcp.Hdlc`, and `AmebaLinux.Lib.Crc` for the check itself).

  The table is compared with the bit-serial register entry by entry; everything else
  follows from the register's linearity. `unescape` reads what stands between two flags.

  Proved:
  - `fcs_is_crc16`: `UpdateFcs` over any bytes, from any value, is the bit-serial
    CRC-16 with the polynomial 0x8408, and what `hdlc_encode` appends is the FCS of HDLC.
  - `burst_caught`: an error within 16 bits of a frame's content never leaves the good
    value, and the decoder does not deliver the frame.
-/

import AmebaLinux.Lib.Crc
import AmebaLinux.Rcp.HdlcNoise

namespace AmebaLinux.Rcp.Hdlc

open AmebaLinux.Lib

/-- x^16 + x^12 + x^5 + 1, its highest coefficient last. -/
def crcPoly : BitVec 16 := 0x8408#16

/-- The bit-serial CRC-16 over bytes. -/
def crc16 (f : UInt16) (bytes : List UInt8) : UInt16 := ⟨Crc.run crcPoly f.toBitVec (Crc.bits bytes)⟩

/-- The FCS of HDLC: preset to ones, and inverted. -/
def x25 (bytes : List UInt8) : UInt16 := crc16 0xffff bytes ^^^ 0xffff

/-! ## The table -/

theorem table_crc : ∀ i < 256, (sFcsTable.getD i 0).toBitVec = Crc.run crcPoly 0#16 (Crc.bitsOf (UInt8.ofNat i)) := by
  decide +kernel

theorem index_eq (f : UInt16) (b : UInt8) : (f ^^^ b.toUInt16) &&& 0xff = (b ^^^ f.toUInt8).toUInt16 := by
  apply UInt16.toBitVec_inj.mp
  apply BitVec.eq_of_getLsbD_eq
  intro i hi
  simp only [UInt16.toBitVec_and, UInt16.toBitVec_xor, UInt8.toBitVec_toUInt16, UInt8.toBitVec_xor, UInt16.toBitVec_toUInt8,
    BitVec.getLsbD_and, BitVec.getLsbD_xor, BitVec.getLsbD_setWidth]
  interval_cases i <;> simp [Bool.xor_comm]

theorem lows_word (f : UInt16) : Crc.lows f.toBitVec 8 = Crc.bitsOf f.toUInt8 := by
  unfold Crc.bitsOf Crc.lows
  apply List.map_congr_left
  intro i hi
  simp [List.mem_range.mp hi]

/-- One step of the table is eight of the register. -/
theorem updateFcs_crc (f : UInt16) (b : UInt8) : (updateFcs f b).toBitVec = Crc.run crcPoly f.toBitVec (Crc.bitsOf b) := by
  have htable := table_crc (b ^^^ f.toUInt8).toNat (UInt8.toNat_lt _)
  rw [Crc.run_low, Crc.bitsOf_length, lows_word, ← Crc.bitsOf_xor, updateFcs, index_eq, UInt8.toNat_toUInt16, UInt16.toBitVec_xor,
    htable, UInt8.ofNat_toNat]
  rfl

theorem foldl_updateFcs (f : UInt16) (bytes : List UInt8) :
    (bytes.foldl updateFcs f).toBitVec = Crc.run crcPoly f.toBitVec (Crc.bits bytes) := by
  induction bytes generalizing f with
  | nil => rfl
  | cons b bytes ih => rw [List.foldl_cons, ih, updateFcs_crc, Crc.bits_cons, Crc.run_append]

/-- From any value and over any bytes; the two bytes behind the payload are the FCS, low
    byte first. -/
theorem fcs_is_crc16 :
    (∀ (f : UInt16) (bytes : List UInt8), bytes.foldl updateFcs f = crc16 f bytes) ∧
      ∀ d : List UInt8, hdlcEncode d =
        if 1 + d.length * 2 + 2 + 1 > encodeBufferSize then none
        else some (kFlagSequence :: (d ++ [(x25 d &&& 0xff).toUInt8, (x25 d >>> 8).toUInt8]).flatMap stuff ++
          [kFlagSequence]) := by
  have hfold : ∀ (f : UInt16) (bytes : List UInt8), bytes.foldl updateFcs f = crc16 f bytes :=
    fun f bytes => UInt16.toBitVec_inj.mp (foldl_updateFcs f bytes)
  refine ⟨hfold, ?_⟩
  intro d
  by_cases hlong : 1 + d.length * 2 + 2 + 1 > encodeBufferSize
  · rw [hdlcEncode, if_pos hlong, if_pos hlong]
  · rw [if_neg hlong, encode_eq d (by simp only [encodeBufferSize] at hlong; omega), content, fcsBytes, hfold]
    rfl

/-! ## The line -/

/-- The content that stands between two flags, or none where a flag or a lone escape does. -/
def unescape : List UInt8 → Option (List UInt8)
  | [] => some []
  | b :: line =>
    if b = kEscapeSequence then
      match line with
      | [] => none
      | c :: line => (unescape line).map ((c ^^^ 0x20) :: ·)
    else if b = kFlagSequence then none
    else (unescape line).map (b :: ·)

/-- A decoder with no room delivers nothing any more. -/
theorem lost_pending {s : Decoder} (hroom : s.remainingLen = 0) (hlen : s.mDecodedLength = 0) (line : List UInt8) :
    (hdlcDecode s line).ret = .pending := by
  induction line generalizing s with
  | nil => rfl
  | cons b line ih =>
    have hstore : ∀ c, store s c = { s with mState := .noSync, mFcs := 0, mDecodedLength := 0, pDecBuffer := 0 } := by
      intro c
      simp [store, hroom]
    have hstep : (decodeByte s b).2 = false ∧ (decodeByte s b).1.remainingLen = 0 ∧ (decodeByte s b).1.mDecodedLength = 0 := by
      unfold decodeByte
      cases s.mState with
      | noSync =>
        dsimp only
        split <;> simp [hroom, hlen]
      | sync =>
        dsimp only
        split
        · simp [hroom, hlen]
        · split
          · simp [hroom, hlen]
          · simp [hstore, hroom]
      | escaped => simp [hstore, hroom]
    have hd : decodeByte s b = ((decodeByte s b).1, false) := Prod.ext rfl hstep.1
    rw [hdlcDecode, hd]
    exact ih hstep.2.1 hstep.2.2

/-- In sync, a content byte is taken into the check sequence, or the decoder is lost. -/
theorem store_cases (s : Decoder) (b : UInt8) :
    ((store s b).mState = .sync ∧ (store s b).mFcs = updateFcs s.mFcs b) ∨
      ((store s b).remainingLen = 0 ∧ (store s b).mDecodedLength = 0) := by
  unfold store
  by_cases hroom : 1 ≤ s.remainingLen
  · simp [hroom]
  · simp [show s.remainingLen = 0 by omega]

/-- A stored byte delivers nothing if what follows it in sync does not. -/
theorem store_pending {s : Decoder} {b : UInt8} {rest : List UInt8}
    (h : (store s b).mState = .sync → (store s b).mFcs = updateFcs s.mFcs b → (hdlcDecode (store s b) rest).ret = .pending) :
    (hdlcDecode (store s b) rest).ret = .pending := by
  rcases store_cases s b with ⟨hsync, hfcs⟩ | ⟨hroom, hlen⟩
  · exact h hsync hfcs
  · exact lost_pending hroom hlen rest

/-- A content that does not leave the good value is not delivered. -/
theorem bad_pending {s : Decoder} {line c : List UInt8} (hs : s.mState = .sync) (hc : unescape line = some c)
    (hbad : c.foldl updateFcs s.mFcs ≠ kGoodFcs) : (hdlcDecode s (line ++ [kFlagSequence])).ret = .pending := by
  induction line using unescape.induct generalizing s c with
  | case1 =>
    cases hc
    rw [List.nil_append, hdlcDecode, flag_sync hs (fun h => hbad h.2)]
    rfl
  | case2 => simp [unescape] at hc
  | case3 d line ih =>
    simp only [unescape, if_true] at hc
    obtain ⟨rest, hrest, rfl⟩ := Option.map_eq_some_iff.mp hc
    have hescape : decodeByte s kEscapeSequence = ({ s with mState := .escaped }, false) := by simp [decodeByte, hs]
    have htaken : decodeByte { s with mState := .escaped } d = (store { s with mState := .escaped } (d ^^^ 0x20), false) := rfl
    rw [List.cons_append, List.cons_append, hdlcDecode, hescape]
    dsimp only
    rw [hdlcDecode, htaken]
    exact store_pending fun hsync hfcs => ih hsync hrest (by rw [hfcs]; exact hbad)
  | case4 line hescape =>
    unfold unescape at hc
    simp [hescape] at hc
  | case5 b line hescape hflag ih =>
    unfold unescape at hc
    simp only [hescape, hflag, if_false] at hc
    obtain ⟨rest, hrest, rfl⟩ := Option.map_eq_some_iff.mp hc
    have htaken : decodeByte s b = (store s b, false) := by simp [decodeByte, hs, hescape, hflag]
    rw [List.cons_append, hdlcDecode, htaken]
    exact store_pending fun hsync hfcs => ih hsync hrest (by rw [hfcs]; exact hbad)

/-- What is not delivered in one call is not delivered in several. -/
theorem calls_pending {s : Decoder} {chunks : List (List UInt8)} (h : (hdlcDecode s chunks.flatten).ret = .pending) :
    ∀ c ∈ calls s chunks, c.ret = .pending := by
  induction chunks generalizing s with
  | nil => simp [calls]
  | cons a chunks ih =>
    have hwhole : hdlcDecode s (a ++ chunks.flatten) =
        ⟨.pending, (hdlcDecode s (a ++ chunks.flatten)).len, (hdlcDecode s (a ++ chunks.flatten)).after⟩ := by
      rw [← h]
      rfl
    obtain ⟨u, m, hfirst, hrest⟩ := decode_prefix hwhole
    intro c hc
    rcases List.mem_cons.mp hc with rfl | hc
    · rw [hfirst]
    · rw [hfirst] at hc
      exact ih (by rw [hrest]) c hc

/-! ## Bursts -/

/-- A frame's content with the error `e`. -/
def corrupted (p e : List UInt8) : List UInt8 := List.zipWith (· ^^^ ·) (content p) e

theorem corrupted_bad {p e : List UInt8} (hlen : e.length = (content p).length) (hburst : Crc.Burst 16 (Crc.bits e)) :
    (corrupted p e).foldl updateFcs kInitFcs ≠ kGoodFcs := by
  intro hgood
  have hbits : (Crc.bits (content p)).length = (Crc.bits e).length := by rw [Crc.bits_length, Crc.bits_length, hlen]
  apply Crc.burst_changes (g := crcPoly) (by decide) kInitFcs.toBitVec hbits hburst
  rw [← Crc.bits_xor hlen.symm, ← foldl_updateFcs, ← foldl_updateFcs, content_fcs]
  exact congrArg UInt16.toBitVec hgood

/-- However the content is escaped on the line, and however the line is cut into calls. -/
theorem burst_caught (p e : List UInt8) (hlen : e.length = (content p).length) (hburst : Crc.Burst 16 (Crc.bits e)) :
    (corrupted p e).foldl updateFcs kInitFcs ≠ kGoodFcs ∧
      ∀ (s : Decoder) (line : List UInt8) (chunks : List (List UInt8)), s.mState = .sync → s.mFcs = kInitFcs →
        unescape line = some (corrupted p e) → chunks.flatten = line ++ [kFlagSequence] →
        ∀ c ∈ calls s chunks, c.ret = .pending := by
  have hbad := corrupted_bad hlen hburst
  refine ⟨hbad, ?_⟩
  intro s line chunks hs hfcs hline hchunks
  apply calls_pending
  rw [hchunks]
  exact bad_pending hs hline (by rw [hfcs]; exact hbad)

/-- Two bits at a byte boundary. -/
theorem flipped_pair_caught :
    let e : List UInt8 := [0x80, 0x01, 0x00]
    Crc.Burst 16 (Crc.bits e) ∧ (corrupted [0x41] e).foldl updateFcs kInitFcs ≠ kGoodFcs ∧
      ∀ c ∈ calls opened [(corrupted [0x41] e) ++ [kFlagSequence]], c.ret = .pending := by
  intro e
  have hburst : Crc.Burst 16 (Crc.bits e) :=
    ⟨7, [true, true], 15, by decide +kernel, by decide, by decide⟩
  obtain ⟨hbad, hcalls⟩ := burst_caught [0x41] e rfl hburst
  refine ⟨hburst, hbad, ?_⟩
  exact hcalls opened (corrupted [0x41] e) _ rfl rfl (by decide +kernel) (by simp)

end AmebaLinux.Rcp.Hdlc
