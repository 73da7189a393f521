/-
  AmebaLinux.Rcp.HdlcProofs — the HDLC codec's properties (see `AmebaLinux.Rcp.Hdlc`).

  Proved:
  - `round_trip`: what `hdlc_encode` makes of up to 125 bytes is decoded back from the
    program-start state, however the frame is cut into chunks, and only its two ends
    are flags.
  - `reset_restores_iff`: after `hdlc_decoder_reset` the decoder behaves as at program
    start exactly when `remainingLen` is still the whole buffer: the reset does not
    give back what earlier frames took (`fifth_exchange_differs`).
  - `encode_fits_iff`: what `hdlc_encode` stores fits in its buffer, except for payloads of
    126 bytes that are almost all escaped (`encode_overruns`).
  - `memory_safe`: no history of calls stores past the buffer or takes a check sequence
    from a frame shorter than one.
-/

import AmebaLinux.Rcp.Hdlc
import Mathlib.Tactic

namespace AmebaLinux.Rcp.Hdlc

/-! ## The check sequence -/

theorem fcs_index_low (f : BitVec 16) :
    (f ^^^ (((f ^^^ 0xffff#16) &&& 0xff#16).setWidth 8).setWidth 16) &&& 0xff#16 = 0xff#16 := by
  apply BitVec.eq_of_getLsbD_eq
  intro i hi
  simp only [BitVec.getLsbD_and, BitVec.getLsbD_xor, BitVec.getLsbD_setWidth]
  interval_cases i <;> cases f.getLsbD _ <;> simp

theorem fcs_index_high (f : BitVec 16) :
    (((f >>> 8) ^^^ 0x0f78#16) ^^^ (((f ^^^ 0xffff#16) >>> 8).setWidth 8).setWidth 16) &&& 0xff#16 = 0x87#16 := by
  apply BitVec.eq_of_getLsbD_eq
  intro i hi
  simp only [BitVec.getLsbD_and, BitVec.getLsbD_xor, BitVec.getLsbD_setWidth, BitVec.getLsbD_ushiftRight]
  interval_cases i <;> simp

theorem fcs_shift (f : BitVec 16) : ((f >>> 8) ^^^ 0x0f78#16) >>> 8 = 0x0f#16 := by
  apply BitVec.eq_of_getLsbD_eq
  intro i hi
  simp only [BitVec.getLsbD_xor, BitVec.getLsbD_ushiftRight]
  interval_cases i <;> simp

/-- The two bytes `hdlc_encode` appends for the running value `f`. -/
def fcsBytes (f : UInt16) : List UInt8 := [((f ^^^ 0xffff) &&& 0xff).toUInt8, ((f ^^^ 0xffff) >>> 8).toUInt8]

theorem updateFcs_low (f : UInt16) : updateFcs f ((f ^^^ 0xffff) &&& 0xff).toUInt8 = (f >>> 8) ^^^ 0x0f78 := by
  have h : (f ^^^ (((f ^^^ 0xffff) &&& 0xff).toUInt8).toUInt16) &&& 0xff = 0xff :=
    UInt16.toBitVec_inj.mp (fcs_index_low f.toBitVec)
  unfold updateFcs
  rw [h]; rfl

/-- The sender's inverted check sequence leaves every receiver at the good value. -/
theorem fcs_residue (f : UInt16) : (fcsBytes f).foldl updateFcs f = kGoodFcs := by
  have h : (((f >>> 8) ^^^ (0x0f78 : UInt16)) ^^^ (((f ^^^ 0xffff) >>> 8).toUInt8).toUInt16) &&& 0xff = (0x87 : UInt16) :=
    UInt16.toBitVec_inj.mp (fcs_index_high f.toBitVec)
  have hs : ((f >>> 8) ^^^ (0x0f78 : UInt16)) >>> 8 = (0x0f : UInt16) := UInt16.toBitVec_inj.mp (fcs_shift f.toBitVec)
  simp only [fcsBytes, List.foldl_cons, List.foldl_nil, updateFcs_low]
  unfold updateFcs
  rw [h, hs]; rfl

/-! ## What is sent -/

theorem encode_foldl (d : List UInt8) (e : Encoder) :
    d.foldl encodeByte e = ⟨e.stored ++ d.flatMap stuff, d.foldl updateFcs e.mEncFcs⟩ := by
  induction d generalizing e with
  | nil => simp
  | cons b d ih => simp [ih, encodeByte]

/-- The content a frame carries: the payload and its check sequence. -/
def content (d : List UInt8) : List UInt8 := d ++ fcsBytes (d.foldl updateFcs kInitFcs)

theorem content_fcs (d : List UInt8) : (content d).foldl updateFcs kInitFcs = kGoodFcs := by
  rw [content, List.foldl_append, fcs_residue]

@[simp] theorem content_length (d : List UInt8) : (content d).length = d.length + 2 := by simp [content, fcsBytes]

theorem encode_eq (d : List UInt8) (hd : d.length ≤ 126) :
    hdlcEncode d = some (kFlagSequence :: (content d).flatMap stuff ++ [kFlagSequence]) := by
  have h : ¬ (1 + d.length * 2 + 2 + 1 > encodeBufferSize) := by simp only [encodeBufferSize]; omega
  unfold hdlcEncode
  rw [if_neg h, encode_foldl]
  simp [content, fcsBytes]

/-- No byte a content byte is sent as is a flag or one of the line's control bytes. -/
theorem stuff_plain (b : UInt8) : ∀ c ∈ stuff b, c ≠ kFlagSequence ∧ c ≠ kFlagXOn ∧ c ≠ kFlagXOff ∧ c ≠ kFlagSpecial := by
  intro c hc
  unfold stuff at hc
  split at hc
  · rename_i hb
    simp only [hdlcByteNeedsEscape, Bool.or_eq_true, beq_iff_eq] at hb
    -- each escaped byte and its image, one by one
    rcases hb with (((rfl | rfl) | rfl) | rfl) | rfl <;>
      · simp only [List.mem_cons, List.not_mem_nil, or_false] at hc
        rcases hc with rfl | rfl <;> decide
  · rename_i hb
    simp only [hdlcByteNeedsEscape, Bool.or_eq_true, beq_iff_eq, not_or] at hb
    obtain rfl : c = b := by simpa using hc
    exact ⟨hb.1.2, hb.1.1.1.1, hb.1.1.1.2, hb.2⟩

theorem stuffed_plain (l : List UInt8) :
    ∀ c ∈ l.flatMap stuff, c ≠ kFlagSequence ∧ c ≠ kFlagXOn ∧ c ≠ kFlagXOff ∧ c ≠ kFlagSpecial := by
  intro c hc
  obtain ⟨b, _, hb⟩ := List.mem_flatMap.mp hc
  exact stuff_plain b c hb

/-! ## The encoder's buffer -/

theorem stuff_length (b : UInt8) : (stuff b).length = 1 + if hdlcByteNeedsEscape b then 1 else 0 := by
  unfold stuff
  split <;> rfl

theorem stuffed_length (l : List UInt8) : (l.flatMap stuff).length = l.length + l.countP hdlcByteNeedsEscape := by
  induction l with
  | nil => rfl
  | cons b l ih =>
    simp only [List.flatMap_cons, List.length_append, List.length_cons, List.countP_cons, stuff_length, ih]
    omega

/-- The test before encoding counts two bytes for the check sequence, which takes up to
    four: the bytes stored fit in `encodeBuffer` unless the payload has 126 bytes and all
    but one byte of the content are escaped. -/
theorem encode_fits_iff (d : List UInt8) :
    (∀ frame, hdlcEncode d = some frame → frame.length ≤ encodeBufferSize) ↔
      d.length ≠ 126 ∨ 2 ≤ (content d).countP fun b => !hdlcByteNeedsEscape b := by
  by_cases hd : d.length ≤ 126
  · have hsum := List.length_eq_countP_add_countP hdlcByteNeedsEscape (l := content d)
    have hrest : (content d).countP (fun b => !hdlcByteNeedsEscape b) =
        (content d).countP (fun b => ¬ hdlcByteNeedsEscape b) := by
      congr 1
      funext b
      cases hdlcByteNeedsEscape b <;> rfl
    have hpayload : (content d).countP hdlcByteNeedsEscape ≤ (content d).length := List.countP_le_length
    have hframe : (kFlagSequence :: (content d).flatMap stuff ++ [kFlagSequence]).length =
        d.length + 4 + (content d).countP hdlcByteNeedsEscape := by
      simp only [List.cons_append, List.length_cons, List.length_append, stuffed_length, content_length, List.length_nil]
      omega
    rw [encode_eq d hd, hrest]
    simp only [Option.some.injEq, forall_eq', hframe, encodeBufferSize]
    rw [content_length] at hsum hpayload
    omega
  · have hnone : hdlcEncode d = none := by
      unfold hdlcEncode
      rw [if_pos (by simp only [encodeBufferSize]; omega)]
    rw [hnone]
    simp only [reduceCtorEq, false_implies, implies_true, true_iff]
    exact Or.inl (by omega)

/-- 126 control bytes whose check sequence consists of control bytes too. -/
def longFrame : List UInt8 := List.replicate 13 kFlagXOn ++ List.replicate 113 kFlagSpecial

theorem encode_overruns : ∃ frame, hdlcEncode longFrame = some frame ∧ frame.length = 258 := by
  refine ⟨_, encode_eq longFrame (by simp [longFrame]), ?_⟩
  simp only [List.cons_append, List.length_cons, List.length_append, stuffed_length, content_length, List.length_nil]
  decide +kernel

/-! ## Calls and their chunks -/

theorem decode_append {s t : Decoder} {a : List UInt8} {n : Nat} (h : hdlcDecode s a = ⟨.pending, n, t⟩)
    (b : List UInt8) : hdlcDecode s (a ++ b) = hdlcDecode t b := by
  induction a generalizing s with
  | nil => simp only [hdlcDecode, Call.mk.injEq] at h; simp [h.2.2]
  | cons x a ih =>
    simp only [List.cons_append, hdlcDecode] at h ⊢
    split at h
    · cases h
    · exact ih h

/-- A call that stays pending stayed pending on the way. -/
theorem decode_prefix {s t : Decoder} {a b : List UInt8} {n : Nat} (h : hdlcDecode s (a ++ b) = ⟨.pending, n, t⟩) :
    ∃ u m, hdlcDecode s a = ⟨.pending, m, u⟩ ∧ hdlcDecode u b = ⟨.pending, n, t⟩ := by
  induction a generalizing s with
  | nil => exact ⟨s, s.mDecodedLength, rfl, h⟩
  | cons x a ih =>
    simp only [List.cons_append, hdlcDecode] at h ⊢
    split at h
    · cases h
    · exact ih h

theorem calls_nil_chunks (s : Decoder) (cs : List (List UInt8)) (h : cs.flatten = []) :
    ∀ c ∈ calls s cs, c.ret = .pending := by
  induction cs generalizing s with
  | nil => simp [calls]
  | cons x cs ih =>
    obtain ⟨hx, hcs⟩ := List.append_eq_nil_iff.mp (List.flatten_cons ▸ h)
    intro c hc
    simp only [calls, hx, hdlcDecode, List.mem_cons] at hc
    rcases hc with rfl | hc
    · rfl
    · exact ih _ hcs c hc

/-- Call `i` is the one that receives the stream's last byte. -/
def Closing (chunks : List (List UInt8)) (i : Nat) : Prop :=
  (chunks.take i).flatten.length < chunks.flatten.length ∧ (chunks.take (i + 1)).flatten = chunks.flatten

/-- Bytes that stay pending, then one that completes: every cut of them has one call
    that completes, the one with the last byte. -/
theorem calls_cut {s t u : Decoder} {w : List UInt8} {x : UInt8} {n : Nat} (hw : hdlcDecode s w = ⟨.pending, n, t⟩)
    (hx : decodeByte t x = (u, true)) (chunks : List (List UInt8)) (hc : chunks.flatten = w ++ [x]) :
    ∃ i, Closing chunks i ∧ ∀ j c, (calls s chunks)[j]? = some c →
      if j = i then c = ⟨.complete, u.mDecodedLength, u⟩ else c.ret = .pending := by
  induction chunks generalizing s w n with
  | nil => simp at hc
  | cons a cs ih =>
    rw [List.flatten_cons] at hc
    rcases List.append_eq_append_iff.mp hc with ⟨w', rfl, hcs⟩ | ⟨a', rfl, ha⟩
    · -- the chunk ends before the last byte
      obtain ⟨v, m, hv, hw'⟩ := decode_prefix hw
      obtain ⟨i, hi, h⟩ := ih hw' hcs
      refine ⟨i + 1, ⟨?_, ?_⟩, ?_⟩
      · have := hi.1; simp only [List.take_succ_cons, List.flatten_cons, List.length_append]; omega
      · have := hi.2; simp only [List.take_succ_cons, List.flatten_cons, this]
      · intro j c hj
        cases j with
        | zero =>
          simp only [calls, hv, List.getElem?_cons_zero, Option.some.injEq] at hj
          subst hj; simp
        | succ j =>
          simp only [calls, hv, List.getElem?_cons_succ] at hj
          simpa using h j c hj
    · cases a' with
      | nil =>
        -- the chunk ends just before the last byte
        obtain ⟨i, hi, h⟩ := ih (s := t) (w := []) (n := t.mDecodedLength) rfl (by simpa using ha.symm)
        refine ⟨i + 1, ⟨?_, ?_⟩, ?_⟩
        · have := hi.1; simp only [List.take_succ_cons, List.flatten_cons, List.length_append]; omega
        · have := hi.2; simp only [List.take_succ_cons, List.flatten_cons, this]
        · intro j c hj
          rw [List.append_nil] at hj
          cases j with
          | zero =>
            simp only [calls, hw, List.getElem?_cons_zero, Option.some.injEq] at hj
            subst hj; simp
          | succ j =>
            simp only [calls, hw, List.getElem?_cons_succ] at hj
            simpa using h j c hj
      | cons y a' =>
        simp only [List.cons_append, List.cons.injEq] at ha
        obtain ⟨rfl, ha⟩ := ha
        obtain ⟨rfl, hcs⟩ := List.append_eq_nil_iff.mp ha.symm
        have hd : hdlcDecode s (w ++ [x]) = ⟨.complete, u.mDecodedLength, u⟩ := by
          rw [decode_append hw]; simp [hdlcDecode, hx]
        refine ⟨0, ⟨by simp, by simp [hcs]⟩, ?_⟩
        intro j c hj
        cases j with
        | zero => simp only [calls, hd, List.getElem?_cons_zero, Option.some.injEq] at hj; simp [hj]
        | succ j =>
          simp only [calls, hd, List.getElem?_cons_succ] at hj
          simpa using calls_nil_chunks u cs hcs c (List.mem_of_getElem? hj)

/-! ## Taking content in -/

/-- In sync, the bytes one content byte is sent as store that byte. -/
theorem decode_stuff {s : Decoder} (hs : s.mState = .sync) (b : UInt8) (rest : List UInt8) :
    hdlcDecode s (stuff b ++ rest) = hdlcDecode (store s b) rest := by
  unfold stuff
  split
  · have h : b ^^^ 0x20 ^^^ 0x20 = b := by rw [UInt8.xor_assoc, UInt8.xor_self, UInt8.xor_zero]
    simp [hdlcDecode, decodeByte, hs, store, h]
  · rename_i hb
    simp only [hdlcByteNeedsEscape, Bool.or_eq_true, beq_iff_eq, not_or] at hb
    simp [hdlcDecode, decodeByte, hs, hb.1.2, hb.1.1.2]

theorem decode_stuffed (l : List UInt8) {s : Decoder} (hs : s.mState = .sync) (hr : l.length ≤ s.remainingLen)
    (rest : List UInt8) : hdlcDecode s (l.flatMap stuff ++ rest) = hdlcDecode (l.foldl store s) rest := by
  induction l generalizing s with
  | nil => rfl
  | cons b l ih =>
    have h1 : 1 ≤ s.remainingLen := by simp only [List.length_cons] at hr; omega
    rw [List.flatMap_cons, List.append_assoc, decode_stuff hs, List.foldl_cons]
    refine ih ?_ ?_
    · simp [store, h1]
    · simp only [store, h1, if_true]; simp only [List.length_cons] at hr; omega

theorem take_set_succ (l : List UInt8) (i : Nat) (b : UInt8) (h : i < l.length) :
    (l.set i b).take (i + 1) = l.take i ++ [b] := by
  rw [List.take_succ_eq_append_getElem (by simpa using h), List.take_set_of_le (Nat.le_refl i)]
  simp

/-- The books of storing `l` where there is room for it. -/
structure Stored (l : List UInt8) (s t : Decoder) : Prop where
  sync : s.mState = .sync → t.mState = .sync
  fcs : t.mFcs = l.foldl updateFcs s.mFcs
  len : t.mDecodedLength = s.mDecodedLength + l.length
  ptr : t.pDecBuffer = s.pDecBuffer + l.length
  room : t.remainingLen + l.length = s.remainingLen
  size : t.decodeBuffer.length = s.decodeBuffer.length
  bytes : t.decodeBuffer.take t.pDecBuffer = s.decodeBuffer.take s.pDecBuffer ++ l

theorem store_all (l : List UInt8) (s : Decoder) (hr : l.length ≤ s.remainingLen)
    (hb : s.pDecBuffer + l.length ≤ s.decodeBuffer.length) : Stored l s (l.foldl store s) := by
  induction l generalizing s with
  | nil => exact ⟨id, rfl, rfl, rfl, rfl, rfl, by simp⟩
  | cons b l ih =>
    simp only [List.length_cons] at hr hb
    have h1 : 1 ≤ s.remainingLen := by omega
    have hst : store s b = { s with
        mState := .sync
        mFcs := updateFcs s.mFcs b
        decodeBuffer := s.decodeBuffer.set s.pDecBuffer b
        pDecBuffer := s.pDecBuffer + 1
        remainingLen := s.remainingLen - 1
        mDecodedLength := s.mDecodedLength + 1 } := by unfold store; rw [if_pos h1]
    have h := ih (store s b) (by rw [hst]; show l.length ≤ s.remainingLen - 1; omega)
      (by rw [hst]; simp only [List.length_set]; omega)
    rw [List.foldl_cons]
    refine ⟨fun _ => h.sync (by rw [hst]), ?_, ?_, ?_, ?_, ?_, ?_⟩
    · rw [h.fcs, hst]; rfl
    · rw [h.len, hst]; simp only [List.length_cons]; omega
    · rw [h.ptr, hst]; simp only [List.length_cons]; omega
    · have hroom : (store s b).remainingLen = s.remainingLen - 1 := by rw [hst]
      have := h.room; rw [hroom] at this; simp only [List.length_cons]; omega
    · rw [h.size, hst]; simp
    · rw [h.bytes, hst]
      simp [take_set_succ _ _ _ (show s.pDecBuffer < s.decodeBuffer.length by omega)]

/-! ## The round trip -/

/-- In sync with nothing taken in, as an opening flag leaves the decoder. -/
structure Opened (s : Decoder) : Prop where
  sync : s.mState = .sync
  fcs : s.mFcs = kInitFcs
  len : s.mDecodedLength = 0
  ptr : s.pDecBuffer = 0

/-- The decoder just after the opening flag of a frame, with the whole buffer free. -/
def opened : Decoder := { start with mState := .sync, mFcs := kInitFcs }

theorem opened_size : opened.decodeBuffer.length = 256 := List.length_replicate

/-- Where there is room for it, a frame's content is pending and is left stored. -/
theorem decode_content (d : List UInt8) {s : Decoder} (ho : Opened s) (hr : d.length + 2 ≤ s.remainingLen)
    (hb : s.remainingLen ≤ s.decodeBuffer.length) :
    ∃ t n, hdlcDecode s ((content d).flatMap stuff) = ⟨.pending, n, t⟩ ∧ Stored (content d) s t := by
  have hlen : (content d).length ≤ s.remainingLen := by rw [content_length]; exact hr
  have hst := store_all (content d) s hlen (by rw [ho.ptr]; omega)
  refine ⟨_, ((content d).foldl store s).mDecodedLength, ?_, hst⟩
  have h := decode_stuffed (content d) ho.sync hlen []
  rw [List.append_nil] at h
  rw [h]; rfl

/-- The closing flag then completes, and what it leaves in front is the payload. -/
theorem close_complete (d : List UInt8) {s t : Decoder} (ho : Opened s) (h : Stored (content d) s t) :
    decodeByte t kFlagSequence = (removeFcs t, true) ∧ (removeFcs t).mDecodedLength = d.length ∧
      (removeFcs t).decodeBuffer.take d.length = d := by
  have hlen : t.mDecodedLength = d.length + 2 := by rw [h.len, content_length, ho.len, Nat.zero_add]
  have hptr : t.pDecBuffer = d.length + 2 := by rw [h.ptr, content_length, ho.ptr, Nat.zero_add]
  have hfcs : t.mFcs = kGoodFcs := by rw [h.fcs, ho.fcs]; exact content_fcs d
  refine ⟨?_, ?_, ?_⟩
  · have hne : kFlagSequence ≠ kEscapeSequence := by decide
    simp [decodeByte, h.sync ho.sync, hne, hlen, hfcs, kFcsSize]
  · show t.mDecodedLength - 2 = d.length; omega
  · have hb := h.bytes
    rw [hptr, ho.ptr] at hb
    show t.decodeBuffer.take d.length = d
    calc t.decodeBuffer.take d.length = (t.decodeBuffer.take (d.length + 2)).take d.length := by
          rw [List.take_take]; congr 1; omega
      _ = (content d).take d.length := by rw [hb]; rfl
      _ = d := by simp [content]

/-- From an opening flag on, a payload that fits comes back from every cut of what is
    left of its frame, in the call that takes the closing flag and in no other. -/
theorem frame_received (d : List UInt8) {r s : Decoder} {w : List UInt8} {n : Nat}
    (hw : hdlcDecode r w = ⟨.pending, n, s⟩) (ho : Opened s) (hr : d.length + 2 ≤ s.remainingLen)
    (hb : s.remainingLen ≤ s.decodeBuffer.length) (chunks : List (List UInt8))
    (hc : chunks.flatten = w ++ (content d).flatMap stuff ++ [kFlagSequence]) :
    ∃ i, Closing chunks i ∧ ∀ j c, (calls r chunks)[j]? = some c →
      if j = i then c.ret = .complete ∧ c.len = d.length ∧ c.after.decodeBuffer.take d.length = d
      else c.ret = .pending := by
  obtain ⟨t, m, ht, hst⟩ := decode_content d ho hr hb
  obtain ⟨hx, hlen, hbytes⟩ := close_complete d ho hst
  obtain ⟨i, hi, h⟩ := calls_cut ((decode_append hw _).trans ht) hx chunks hc
  refine ⟨i, hi, fun j c hj => ?_⟩
  have hcall := h j c hj
  split at hcall
  · rename_i e
    rw [if_pos e, hcall]; exact ⟨rfl, hlen, hbytes⟩
  · rename_i e
    rw [if_neg e]; exact hcall

/-- Every payload of up to 125 bytes comes back from its frame, however the frame is
    cut: one call completes, the one with the closing flag, with exactly the payload.
    The frame has a flag at each end and nowhere else, and no line-control byte. -/
theorem round_trip (d : List UInt8) (hd : d.length ≤ 125) :
    ∃ frame, hdlcEncode d = some frame ∧
      (∀ chunks : List (List UInt8), chunks.flatten = frame → ∃ i, Closing chunks i ∧
        ∀ j c, (calls (hdlcDecoderReset start) chunks)[j]? = some c →
          if j = i then c.ret = .complete ∧ c.len = d.length ∧ c.after.decodeBuffer.take d.length = d
          else c.ret = .pending) ∧
      (∃ body, frame = kFlagSequence :: body ++ [kFlagSequence] ∧ kFlagSequence ∉ body) ∧
      0x11 ∉ frame ∧ 0x13 ∉ frame ∧ 0xf8 ∉ frame := by
  have hplain := stuffed_plain (content d)
  refine ⟨_, encode_eq d (by omega), ?_, ⟨_, rfl, fun h => (hplain _ h).1 rfl⟩, ?_, ?_, ?_⟩
  · intro chunks hc
    have hr : d.length + 2 ≤ opened.remainingLen := by show d.length + 2 ≤ 256; omega
    exact frame_received d (w := [kFlagSequence]) (n := 0) rfl ⟨rfl, rfl, rfl, rfl⟩ hr (Nat.le_of_eq opened_size.symm)
      chunks hc
  all_goals
    intro h
    simp only [List.cons_append, List.mem_cons, List.mem_append, List.not_mem_nil, or_false] at h
    rcases h with h | h | h
    · exact absurd h (by decide)
    · first
        | exact (hplain _ h).2.1 rfl
        | exact (hplain _ h).2.2.1 rfl
        | exact (hplain _ h).2.2.2 rfl
    · exact absurd h (by decide)

theorem round_trip_flag_payload :
    [0x7e, 0x11, 0x00].length ≤ 125 ∧ ∃ frame, hdlcEncode [0x7e, 0x11, 0x00] = some frame ∧ 0x11 ∉ frame := by
  obtain ⟨frame, he, _, _, h, _⟩ := round_trip [0x7e, 0x11, 0x00] (by decide)
  exact ⟨by decide, frame, he, h⟩

/-! ## The reset -/

/-- The calls a history is made of. -/
inductive Op where
  | reset
  | decode (aData : List UInt8)
  deriving DecidableEq, Repr

def apply (s : Decoder) : Op → Decoder
  | .reset => hdlcDecoderReset s
  | .decode aData => (hdlcDecode s aData).after

def run (h : List Op) : Decoder := h.foldl apply start

/-- What the callers see of each call: the code, the length and the decoded bytes. -/
def observe (s : Decoder) (chunks : List (List UInt8)) : List (DecodeRet × Nat × List UInt8) :=
  (calls s chunks).map fun c => (c.ret, c.len, c.payload)

/-- The length is the write offset, which with the room left stays in the buffer; out of
    sync nothing is stored. -/
structure Inv (s : Decoder) : Prop where
  len : s.mDecodedLength = s.pDecBuffer
  room : s.pDecBuffer + s.remainingLen ≤ decodeBufferSize
  size : s.decodeBuffer.length = decodeBufferSize
  idle : s.mState = .noSync → s.pDecBuffer = 0

theorem inv_start : Inv start := ⟨rfl, Nat.le_refl _, List.length_replicate, fun _ => rfl⟩

theorem inv_reset {s : Decoder} (h : Inv s) : Inv (hdlcDecoderReset s) :=
  ⟨rfl, by have := h.room; simp only [hdlcDecoderReset]; omega, h.size, fun _ => rfl⟩

theorem inv_store {s : Decoder} (h : Inv s) (b : UInt8) : Inv (store s b) := by
  have := h.room
  unfold store
  split
  · exact ⟨by simp [h.len], by simp only; omega, by simp [h.size], fun e => by cases e⟩
  · exact ⟨rfl, by simp only; omega, h.size, fun _ => rfl⟩

theorem inv_removeFcs {s : Decoder} (h : Inv s) (h2 : kFcsSize ≤ s.mDecodedLength) (hs : s.mState = .sync) :
    Inv (removeFcs s) := by
  have := h.room
  rw [h.len] at h2
  exact ⟨by simp [removeFcs, h.len], by simp only [removeFcs]; omega, h.size, fun e => by cases hs.symm.trans e⟩

theorem inv_step {s : Decoder} (h : Inv s) (b : UInt8) : Inv (decodeByte s b).1 := by
  unfold decodeByte
  cases hs : s.mState with
  | noSync =>
    simp only
    split
    · exact ⟨(h.idle hs).symm, h.room, h.size, fun e => by cases e⟩
    · exact h
  | sync =>
    simp only
    split
    · exact ⟨h.len, h.room, h.size, fun e => by cases e⟩
    · split
      · split
        · rename_i hc; exact inv_removeFcs h hc.2.1 hs
        · have := h.room
          exact ⟨rfl, by simp only; omega, h.size, fun _ => rfl⟩
      · exact inv_store h b
  | escaped => exact inv_store h _

theorem inv_decode {s : Decoder} (h : Inv s) (l : List UInt8) : Inv (hdlcDecode s l).after := by
  induction l generalizing s with
  | nil => exact h
  | cons b l ih =>
    have hb := inv_step h b
    simp only [hdlcDecode]
    split
    · rename_i s' e; rw [e] at hb; exact hb
    · rename_i s' e; rw [e] at hb; exact ih hb

theorem inv_run (h : List Op) : Inv (run h) := by
  unfold run
  suffices ∀ s, Inv s → Inv (h.foldl apply s) from this _ inv_start
  induction h with
  | nil => exact fun s hs => hs
  | cons o h ih =>
    intro s hs
    refine ih _ ?_
    cases o with
    | reset => exact inv_reset hs
    | decode aData => exact inv_decode hs aData

/-! ## Memory -/

/-- The turn reaches `*pDecBuffer = byte`. -/
def stores (s : Decoder) (byte : UInt8) : Bool :=
  match s.mState with
  | .noSync => false
  | .sync => byte != kEscapeSequence && byte != kFlagSequence && decide (1 ≤ s.remainingLen)
  | .escaped => decide (1 ≤ s.remainingLen)

/-- A turn writes the buffer at `pDecBuffer`, or not at all. -/
theorem decodeByte_buffer (s : Decoder) (b : UInt8) :
    (decodeByte s b).1.decodeBuffer =
      if stores s b then
        s.decodeBuffer.set s.pDecBuffer (if s.mState = .escaped then b ^^^ 0x20 else b)
      else s.decodeBuffer := by
  unfold decodeByte stores
  cases hs : s.mState with
  | noSync =>
    dsimp only
    split <;> rfl
  | sync =>
    dsimp only
    by_cases he : b = kEscapeSequence
    · rw [if_pos he, if_neg (by simp [he])]
    by_cases hf : b = kFlagSequence
    · have hno : (b != kEscapeSequence && b != kFlagSequence && decide (1 ≤ s.remainingLen)) = false := by
        simp [hf]
      rw [if_neg he, if_pos hf, hno]
      split <;> rfl
    rw [if_neg he, if_neg hf]
    by_cases hr : 1 ≤ s.remainingLen
    · rw [if_pos (by simp [he, hf, hr]), store, if_pos hr, if_neg (by decide)]
    · rw [if_neg (by simp [hr]), store, if_neg hr]
  | escaped =>
    dsimp only
    by_cases hr : 1 ≤ s.remainingLen
    · rw [if_pos (by simp [hr]), store, if_pos hr, if_pos rfl]
    · rw [if_neg (by simp [hr]), store, if_neg hr]

/-- The turns of a call's loop: the globals each starts from, and its byte. -/
def turns (s : Decoder) : List UInt8 → List (Decoder × UInt8)
  | [] => []
  | byte :: aData =>
    (s, byte) :: match decodeByte s byte with
      | (_, true) => []
      | (s', false) => turns s' aData

/-- All turns of a history. -/
def history (s : Decoder) : List Op → List (Decoder × UInt8)
  | [] => []
  | .reset :: h => history (hdlcDecoderReset s) h
  | .decode aData :: h => turns s aData ++ history (hdlcDecode s aData).after h

theorem inv_turns {s : Decoder} (h : Inv s) (l : List UInt8) : ∀ t ∈ turns s l, Inv t.1 := by
  induction l generalizing s with
  | nil => simp [turns]
  | cons b l ih =>
    intro t ht
    have hb := inv_step h b
    rw [turns] at ht
    rcases List.mem_cons.mp ht with rfl | ht
    · exact h
    · split at ht
      · cases ht
      · rename_i s' e
        rw [e] at hb
        exact ih hb t ht

theorem inv_history {s : Decoder} (hs : Inv s) (h : List Op) : ∀ t ∈ history s h, Inv t.1 := by
  induction h generalizing s with
  | nil => simp [history]
  | cons o h ih =>
    cases o with
    | reset => exact ih (inv_reset hs)
    | decode aData =>
      intro t ht
      rcases List.mem_append.mp ht with ht | ht
      · exact inv_turns hs aData t ht
      · exact ih (inv_decode hs aData) t ht

/-- The length is the write offset, which with the room left stays in the buffer. -/
def Booked (s : Decoder) : Prop :=
  s.mDecodedLength = s.pDecBuffer ∧ s.pDecBuffer + s.remainingLen ≤ decodeBufferSize

/-- Before every turn of every history, and after it, the books agree; every store is
    inside the buffer, and a check sequence is taken only from a frame that has one. -/
theorem memory_safe (h : List Op) :
    Booked (run h) ∧ ∀ t ∈ history start h, Booked t.1 ∧ Booked (decodeByte t.1 t.2).1 ∧
      (stores t.1 t.2 = true → t.1.pDecBuffer < decodeBufferSize) ∧
      ((decodeByte t.1 t.2).2 = true → kFcsSize ≤ t.1.pDecBuffer ∧ kFcsSize ≤ t.1.mDecodedLength) := by
  refine ⟨⟨(inv_run h).len, (inv_run h).room⟩, ?_⟩
  rintro ⟨s, b⟩ ht
  have hi := inv_history inv_start h _ ht
  have hnext := inv_step hi b
  refine ⟨⟨hi.len, hi.room⟩, ⟨hnext.len, hnext.room⟩, ?_, ?_⟩
  · intro hst
    have hroom : 1 ≤ s.remainingLen := by
      unfold stores at hst
      cases hs : s.mState <;> rw [hs] at hst <;> simp at hst
      · exact hst.2
      · exact hst
    have hin : s.pDecBuffer + s.remainingLen ≤ decodeBufferSize := hi.room
    show s.pDecBuffer < decodeBufferSize
    omega
  · intro hc
    have hlen : kFcsSize ≤ s.mDecodedLength := by
      unfold decodeByte at hc
      cases hs : s.mState <;> rw [hs] at hc <;> dsimp only at hc
      · split at hc <;> cases hc
      · split at hc
        · cases hc
        · split at hc
          · split at hc
            · rename_i hgood; exact hgood.2.1
            · cases hc
          · cases hc
      · cases hc
    exact ⟨hi.len ▸ hlen, hlen⟩

/-! ## What a reset leaves -/

/-- Two decoders that differ only in bytes of the buffer past the write offset. -/
structure Alike (s t : Decoder) : Prop where
  state : s.mState = t.mState
  fcs : s.mFcs = t.mFcs
  len : s.mDecodedLength = t.mDecodedLength
  ptr : s.pDecBuffer = t.pDecBuffer
  room : s.remainingLen = t.remainingLen
  bytes : s.decodeBuffer.take s.pDecBuffer = t.decodeBuffer.take t.pDecBuffer

theorem alike_store {s t : Decoder} (h : Alike s t) (hs : Inv s) (ht : Inv t) (b : UInt8) :
    Alike (store s b) (store t b) := by
  unfold store
  rw [h.room]
  split
  · rename_i hr
    have h1 := hs.room; have h2 := ht.room
    have hls : s.pDecBuffer < s.decodeBuffer.length := by rw [hs.size]; have := h.room; omega
    have hlt : t.pDecBuffer < t.decodeBuffer.length := by rw [ht.size]; omega
    refine ⟨rfl, by simp [h.fcs], by simp [h.len], by simp [h.ptr], rfl, ?_⟩
    simp only [take_set_succ _ _ _ hls, take_set_succ _ _ _ hlt, h.bytes]
  · exact ⟨rfl, rfl, rfl, rfl, rfl, rfl⟩

theorem alike_step {s t : Decoder} (h : Alike s t) (hs : Inv s) (ht : Inv t) (b : UInt8) :
    Alike (decodeByte s b).1 (decodeByte t b).1 ∧ (decodeByte s b).2 = (decodeByte t b).2 := by
  unfold decodeByte
  rw [← h.state]
  cases hst : s.mState with
  | noSync =>
    simp only
    split
    · exact ⟨⟨rfl, rfl, rfl, h.ptr, h.room, h.bytes⟩, rfl⟩
    · exact ⟨h, rfl⟩
  | sync =>
    simp only
    split
    · exact ⟨⟨rfl, h.fcs, h.len, h.ptr, h.room, h.bytes⟩, rfl⟩
    · split
      · rw [← h.len, ← h.fcs]
        split
        · refine ⟨⟨h.state, h.fcs, ?_, ?_, ?_, ?_⟩, rfl⟩
          · simp [removeFcs, h.len]
          · simp [removeFcs, h.ptr]
          · simp [removeFcs, h.room]
          · have hb := congrArg (List.take (t.pDecBuffer - kFcsSize)) h.bytes
            simp only [List.take_take, h.ptr, Nat.min_eq_left (Nat.sub_le _ _)] at hb
            simpa [removeFcs, h.ptr] using hb
        · exact ⟨⟨rfl, rfl, rfl, rfl, h.room, rfl⟩, rfl⟩
      · exact ⟨alike_store h hs ht b, rfl⟩
  | escaped => exact ⟨alike_store h hs ht _, rfl⟩

theorem alike_decode {s t : Decoder} (h : Alike s t) (hs : Inv s) (ht : Inv t) (l : List UInt8) :
    Alike (hdlcDecode s l).after (hdlcDecode t l).after ∧ (hdlcDecode s l).ret = (hdlcDecode t l).ret ∧
      (hdlcDecode s l).len = (hdlcDecode t l).len ∧ (hdlcDecode s l).payload = (hdlcDecode t l).payload := by
  induction l generalizing s t with
  | nil =>
    refine ⟨h, rfl, h.len, ?_⟩
    simp only [hdlcDecode, Call.payload, hs.len, ht.len, h.bytes]
  | cons b l ih =>
    obtain ⟨hb, he⟩ := alike_step h hs ht b
    have is := inv_step hs b
    have it := inv_step ht b
    cases hes : decodeByte s b with
    | mk s' cs =>
    cases het : decodeByte t b with
    | mk t' ct =>
    rw [hes, het] at hb he
    rw [hes] at is; rw [het] at it
    simp only at hb he is it
    subst he
    cases cs with
    | true =>
      simp only [hdlcDecode, hes, het]
      refine ⟨hb, trivial, hb.len, ?_⟩
      simp only [Call.payload, is.len, it.len, hb.bytes]
    | false => simp only [hdlcDecode, hes, het]; exact ih hb is it

theorem alike_observe {s t : Decoder} (h : Alike s t) (hs : Inv s) (ht : Inv t) (chunks : List (List UInt8)) :
    observe s chunks = observe t chunks := by
  induction chunks generalizing s t with
  | nil => rfl
  | cons c chunks ih =>
    obtain ⟨ha, hr, hl, hp⟩ := alike_decode h hs ht c
    have := ih ha (inv_decode hs c) (inv_decode ht c)
    simp only [observe, calls, List.map_cons, hr, hl, hp] at this ⊢
    rw [this]

/-- A flag and `n + 1` content bytes. -/
def probe (n : Nat) : List UInt8 := kFlagSequence :: (List.replicate n (0 : UInt8) ++ [0]).flatMap stuff

/-- With room for them the probe's bytes are counted. -/
theorem probe_fits {s : Decoder} (hi : Inv s) (hs : s.mState = .noSync) (n : Nat) (hn : n + 1 ≤ s.remainingLen) :
    (hdlcDecode s (probe n)).len = n + 1 := by
  let s' : Decoder := { s with mState := .sync, mDecodedLength := 0, mFcs := kInitFcs }
  have hl : (List.replicate n 0 ++ [(0 : UInt8)]).length = n + 1 := by simp
  have hd := decode_stuffed (List.replicate n 0 ++ [0]) (s := s') rfl (by rw [hl]; exact hn) []
  have hst := store_all (List.replicate n 0 ++ [0]) s' (by rw [hl]; exact hn)
    (by have := hi.room; have := hi.size; rw [hl]; show s.pDecBuffer + (n + 1) ≤ s.decodeBuffer.length; omega)
  have h0 : decodeByte s kFlagSequence = (s', false) := by simp [decodeByte, hs, s']
  rw [List.append_nil] at hd
  simp only [probe, hdlcDecode, h0, hd]
  rw [hst.len, hl]; exact Nat.zero_add _

/-- Without room for the last of them everything is dropped. -/
theorem probe_overruns {s : Decoder} (hs : s.mState = .noSync) :
    (hdlcDecode s (probe s.remainingLen)).len = 0 := by
  let s' : Decoder := { s with mState := .sync, mDecodedLength := 0, mFcs := kInitFcs }
  let l : List UInt8 := List.replicate s.remainingLen 0
  have hl : l.length = s'.remainingLen := by simp [l, s']
  have hd := decode_stuffed l (s := s') rfl (Nat.le_of_eq hl) (stuff 0)
  have h0 : decodeByte s kFlagSequence = (s', false) := by simp [decodeByte, hs, s']
  -- the decoder is in sync and full when the last byte comes
  have full : (l.foldl store s').mState = .sync ∧ (l.foldl store s').remainingLen = 0 := by
    suffices ∀ (k : List UInt8) (u : Decoder), u.mState = .sync → u.remainingLen = k.length →
        (k.foldl store u).mState = .sync ∧ (k.foldl store u).remainingLen = 0 from this l s' rfl hl.symm
    intro k
    induction k with
    | nil => exact fun u h1 h2 => ⟨h1, h2⟩
    | cons b k ih =>
      intro u h1 h2
      simp only [List.length_cons] at h2
      have hr : 1 ≤ u.remainingLen := by omega
      refine ih _ ?_ ?_
      · simp [store, hr]
      · simp only [store, hr, if_true]; omega
  have hend : hdlcDecode (l.foldl store s') (stuff 0) = hdlcDecode (store (l.foldl store s') 0) [] := by
    simpa using decode_stuff full.1 0 []
  have hnil : (store (l.foldl store s') 0).mDecodedLength = 0 := by simp [store, full.2]
  have hp : probe s.remainingLen = kFlagSequence :: (l.flatMap stuff ++ stuff 0) := by simp [probe, l]
  rw [hp]
  simp only [hdlcDecode, h0, hd, hend, hnil]

/-- Room lost before a reset shows after it. -/
theorem reset_differs {h : List Op} (hlt : (run h).remainingLen < decodeBufferSize) :
    observe (hdlcDecoderReset (run h)) [probe (run h).remainingLen] ≠ observe start [probe (run h).remainingLen] := by
  intro he
  have h1 := probe_overruns (s := hdlcDecoderReset (run h)) rfl
  have h2 := probe_fits inv_start rfl (run h).remainingLen hlt
  simp only [observe, calls, List.map_cons, List.map_nil, List.cons.injEq, Prod.mk.injEq] at he
  rw [show (hdlcDecoderReset (run h)).remainingLen = (run h).remainingLen from rfl] at h1
  omega

/-- After the reset that ends history `h` the decoder behaves as at program start if
    and only if the history has taken no room for good. -/
theorem reset_restores_iff (h : List Op) :
    (∀ chunks, observe (hdlcDecoderReset (run h)) chunks = observe start chunks) ↔
      (run h).remainingLen = decodeBufferSize := by
  constructor
  · intro ho
    by_contra hne
    have := (inv_run h).room
    exact reset_differs (by omega) (ho _)
  · intro hr chunks
    have ha : Alike (hdlcDecoderReset (run h)) start := ⟨rfl, rfl, rfl, rfl, hr, rfl⟩
    exact alike_observe ha (inv_reset (inv_run h)) inv_start chunks

/-- Four responses of 61 bytes, each after a reset, leave no room for a fifth: the same
    frame that completed at program start no longer does. -/
theorem fifth_exchange_differs :
    let frame := (hdlcEncode (List.replicate 61 0)).getD []
    let exchange := [Op.reset, .decode frame]
    observe (hdlcDecoderReset (run (exchange ++ exchange ++ exchange ++ exchange))) [frame] ≠ observe start [frame] := by
  decide +kernel

end AmebaLinux.Rcp.Hdlc
