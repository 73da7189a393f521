/-
  AmebaLinux.Rcp.HdlcNoise — the HDLC decoder after line noise.

  The noise is any chunks at all, fed after `hdlc_decoder_reset` from any history. Two
  flags follow it, and then a frame of up to 61 payload bytes.

  Proved:
  - `resync_iff`: the frame is received, whatever it carries and however it is cut,
    exactly when the flags do not themselves complete what the noise left, and
    `remainingLen` still has room for 63 bytes of content (64 after an escape, which
    turns the first flag into content).
  - `long_frame_deafens`: 256 bytes of content after a flag use the room up. Neither the
    flags nor `hdlc_decoder_reset` give it back.
-/

import AmebaLinux.Rcp.HdlcProofs
import Mathlib.Tactic

namespace AmebaLinux.Rcp.Hdlc

/-! ## The statement -/

/-- The globals after chunks fed one call each. -/
def afterChunks (s : Decoder) (chunks : List (List UInt8)) : Decoder := (chunks.map Op.decode).foldl apply s

/-- Two flags, then a frame: every payload of up to 61 bytes is received, by the call
    with the closing flag, and every other call is pending. -/
def Resyncs (s : Decoder) : Prop :=
  ∀ d : List UInt8, d.length ≤ 61 → ∀ frame, hdlcEncode d = some frame →
    ∀ chunks : List (List UInt8), chunks.flatten = [kFlagSequence, kFlagSequence] ++ frame →
      ∃ i, Closing chunks i ∧ ∀ j c, (calls s chunks)[j]? = some c →
        if j = i then c.ret = .complete ∧ c.len = d.length ∧ c.after.decodeBuffer.take d.length = d
        else c.ret = .pending

/-- The two flags do not complete what the decoder holds. -/
def Quiet (s : Decoder) : Prop :=
  match s.mState with
  | .noSync => True
  | .sync => ¬ (kFcsSize ≤ s.mDecodedLength ∧ s.mFcs = kGoodFcs)
  | .escaped =>
    ¬ (1 ≤ s.remainingLen ∧ kFcsSize ≤ s.mDecodedLength + 1 ∧ updateFcs s.mFcs (kFlagSequence ^^^ 0x20) = kGoodFcs)

/-- The room the two flags leave: after an escape the first of them is stored. -/
def roomAfterFlags (s : Decoder) : Nat :=
  match s.mState with
  | .escaped => s.remainingLen - 1
  | _ => s.remainingLen

/-! ## Two flags -/

theorem flag_ne_escape : kFlagSequence ≠ kEscapeSequence := by decide

/-- Out of sync a flag only opens. -/
theorem flag_noSync {s : Decoder} (hs : s.mState = .noSync) :
    decodeByte s kFlagSequence = ({ s with mState := .sync, mDecodedLength := 0, mFcs := kInitFcs }, false) := by
  simp [decodeByte, hs]

/-- In sync a flag that does not complete drops what is held. -/
theorem flag_sync {s : Decoder} (hs : s.mState = .sync) (hq : ¬ (kFcsSize ≤ s.mDecodedLength ∧ s.mFcs = kGoodFcs)) :
    decodeByte s kFlagSequence =
      ({ s with mDecodedLength := 0, pDecBuffer := 0, mFcs := kInitFcs }, false) := by
  have hno : ¬ (0 < s.mDecodedLength ∧ kFcsSize ≤ s.mDecodedLength ∧ s.mFcs = kGoodFcs) := fun h => hq h.2
  simp only [decodeByte, hs, if_neg flag_ne_escape, if_true, if_neg hno]

/-- In sync a flag on a good check sequence completes. -/
theorem flag_completes {s : Decoder} (hs : s.mState = .sync) (hl : kFcsSize ≤ s.mDecodedLength) (hf : s.mFcs = kGoodFcs) :
    decodeByte s kFlagSequence = (removeFcs s, true) := by
  have hgood : 0 < s.mDecodedLength ∧ kFcsSize ≤ s.mDecodedLength ∧ s.mFcs = kGoodFcs :=
    ⟨Nat.lt_of_lt_of_le (by decide) hl, hl, hf⟩
  simp only [decodeByte, hs, if_neg flag_ne_escape, if_true, if_pos hgood]

theorem flag_escaped {s : Decoder} (hs : s.mState = .escaped) :
    decodeByte s kFlagSequence = (store s (kFlagSequence ^^^ 0x20), false) := by
  simp [decodeByte, hs]

/-- A flag after an opening flag changes nothing. -/
theorem flag_opened {s : Decoder} (h : Opened s) : decodeByte s kFlagSequence = (s, false) := by
  have hq : ¬ (kFcsSize ≤ s.mDecodedLength ∧ s.mFcs = kGoodFcs) := by rw [h.len]; exact fun hl => absurd hl.1 (by decide)
  rw [flag_sync h.sync hq, ← h.fcs]
  obtain ⟨_, _, len, ptr, _, _⟩ := s
  obtain rfl : len = 0 := h.len
  obtain rfl : ptr = 0 := h.ptr
  rfl

theorem decode_two {s t u : Decoder} {a b : UInt8} (ha : decodeByte s a = (t, false)) (hb : decodeByte t b = (u, false)) :
    hdlcDecode s [a, b] = ⟨.pending, u.mDecodedLength, u⟩ := by
  simp only [hdlcDecode, ha, hb]

/-- Where they do not complete, two flags leave the decoder open, with what room there is. -/
theorem flags_open {s : Decoder} (hi : Inv s) (hq : Quiet s) :
    ∃ t n, hdlcDecode s [kFlagSequence, kFlagSequence] = ⟨.pending, n, t⟩ ∧ Opened t ∧
      t.remainingLen = roomAfterFlags s ∧ t.decodeBuffer.length = decodeBufferSize := by
  unfold Quiet at hq
  unfold roomAfterFlags
  cases hs : s.mState with
  | noSync =>
    have ho : Opened { s with mState := .sync, mDecodedLength := 0, mFcs := kInitFcs } := ⟨rfl, rfl, rfl, hi.idle hs⟩
    exact ⟨_, _, decode_two (flag_noSync hs) (flag_opened ho), ho, rfl, hi.size⟩
  | sync =>
    rw [hs] at hq
    have ho : Opened { s with mDecodedLength := 0, pDecBuffer := 0, mFcs := kInitFcs } := ⟨hs, rfl, rfl, rfl⟩
    exact ⟨_, _, decode_two (flag_sync hs hq) (flag_opened ho), ho, rfl, hi.size⟩
  | escaped =>
    rw [hs] at hq
    have hst := flag_escaped hs
    by_cases hr : 1 ≤ s.remainingLen
    · -- the first flag is content, the second drops it
      rw [store, if_pos hr] at hst
      have h2 := flag_sync (s := (decodeByte s kFlagSequence).1) (by rw [hst])
        (by rw [hst]; exact fun h => hq ⟨hr, h.1, h.2⟩)
      rw [hst] at h2
      exact ⟨_, _, decode_two hst h2, ⟨rfl, rfl, rfl, rfl⟩, rfl, by simpa using hi.size⟩
    · -- no room for it: sync is lost, and the second flag opens
      rw [store, if_neg hr] at hst
      have h2 := flag_noSync (s := (decodeByte s kFlagSequence).1) (by rw [hst])
      rw [hst] at h2
      exact ⟨_, _, decode_two hst h2, ⟨rfl, rfl, rfl, rfl⟩, by show s.remainingLen = s.remainingLen - 1; omega, hi.size⟩

/-- Where they do complete, they do so with a length the frame has no part in. -/
theorem flags_complete {s : Decoder} (hq : ¬ Quiet s) :
    ∃ n t, ∀ rest, hdlcDecode s ([kFlagSequence, kFlagSequence] ++ rest) = ⟨.complete, n, t⟩ := by
  unfold Quiet at hq
  cases hs : s.mState with
  | noSync => rw [hs] at hq; exact absurd trivial hq
  | sync =>
    rw [hs] at hq
    obtain ⟨hl, hf⟩ := not_not.mp hq
    refine ⟨(removeFcs s).mDecodedLength, removeFcs s, fun rest => ?_⟩
    simp only [List.cons_append, hdlcDecode, flag_completes hs hl hf]
  | escaped =>
    rw [hs] at hq
    obtain ⟨hr, hl, hf⟩ := not_not.mp hq
    have h2 : decodeByte (store s (kFlagSequence ^^^ 0x20)) kFlagSequence =
        (removeFcs (store s (kFlagSequence ^^^ 0x20)), true) := by
      refine flag_completes ?_ ?_ ?_ <;> rw [store, if_pos hr]
      · exact hl
      · exact hf
    let held := store s (kFlagSequence ^^^ 0x20)
    refine ⟨(removeFcs held).mDecodedLength, removeFcs held, fun rest => ?_⟩
    simp only [List.cons_append, hdlcDecode, flag_escaped hs, h2, held]

/-! ## A frame with no room for it -/

/-- Out of sync, bytes that are no flags are ignored. -/
theorem decode_lost {s : Decoder} (hs : s.mState = .noSync) (l : List UInt8) (hl : ∀ b ∈ l, b ≠ kFlagSequence) :
    hdlcDecode s l = ⟨.pending, s.mDecodedLength, s⟩ := by
  induction l with
  | nil => rfl
  | cons b l ih =>
    have hb : decodeByte s b = (s, false) := by simp [decodeByte, hs, hl b List.mem_cons_self]
    simp only [hdlcDecode, hb]
    exact ih fun c hc => hl c (List.mem_cons_of_mem _ hc)

/-- Content longer than the room loses sync, and the rest of it is ignored. -/
theorem decode_overrun (l : List UInt8) {s : Decoder} (hs : s.mState = .sync) (hr : s.remainingLen < l.length) :
    ∃ t n, hdlcDecode s (l.flatMap stuff) = ⟨.pending, n, t⟩ ∧ t.mState = .noSync := by
  induction l generalizing s with
  | nil => cases hr
  | cons b l ih =>
    rw [List.flatMap_cons, decode_stuff hs]
    by_cases h1 : 1 ≤ s.remainingLen
    · refine ih (by rw [store, if_pos h1]) ?_
      rw [store, if_pos h1]
      simp only [List.length_cons] at hr
      show s.remainingLen - 1 < l.length
      omega
    · have hlost : (store s b).mState = .noSync := by rw [store, if_neg h1]
      exact ⟨_, _, decode_lost hlost _ fun c hc => (stuffed_plain l c hc).1, hlost⟩

/-- The whole of such a frame, in one call, is pending. -/
theorem frame_overrun (d : List UInt8) {s : Decoder} (ho : Opened s) (hr : s.remainingLen < d.length + 2) :
    (hdlcDecode s (kFlagSequence :: (content d).flatMap stuff ++ [kFlagSequence])).ret = .pending := by
  obtain ⟨t, n, ht, hlost⟩ := decode_overrun (content d) ho.sync (by rwa [content_length])
  have hopen : hdlcDecode s (kFlagSequence :: (content d).flatMap stuff) = ⟨.pending, n, t⟩ := by
    simp only [hdlcDecode, flag_opened ho, ht]
  rw [decode_append hopen]
  simp only [hdlcDecode, flag_noSync hlost]

/-! ## Resynchronisation -/

/-- In one call, what `Resyncs` says is that the call completes with the payload. -/
theorem resyncs_one_call {s : Decoder} (h : Resyncs s) (d : List UInt8) (hd : d.length ≤ 61) :
    let c := hdlcDecode s ([kFlagSequence, kFlagSequence] ++
      (kFlagSequence :: (content d).flatMap stuff ++ [kFlagSequence]))
    c.ret = .complete ∧ c.len = d.length := by
  intro c
  obtain ⟨i, hi, hcalls⟩ := h d hd _ (encode_eq d (by omega)) [_] (List.flatten_singleton)
  obtain rfl : i = 0 := by
    rcases i with _ | i
    · rfl
    · exact absurd hi.1 (by simp)
  have hc := hcalls 0 c rfl
  rw [if_pos rfl] at hc
  exact ⟨hc.1, hc.2.1⟩

theorem resyncs_of {s : Decoder} (hi : Inv s) (hq : Quiet s) (hr : 63 ≤ roomAfterFlags s) : Resyncs s := by
  intro d hd frame he chunks hc
  obtain ⟨t, n, ht, ho, hroom, hsize⟩ := flags_open hi hq
  have hopen : hdlcDecode s ([kFlagSequence, kFlagSequence] ++ [kFlagSequence]) = ⟨.pending, t.mDecodedLength, t⟩ := by
    rw [decode_append ht]; simp only [hdlcDecode, flag_opened ho]
  have hb : t.remainingLen ≤ t.decodeBuffer.length := by
    have hin := hi.room
    rw [hroom, hsize]
    unfold roomAfterFlags
    split <;> omega
  rw [encode_eq d (by omega)] at he
  refine frame_received d hopen ho (by omega) hb chunks ?_
  rw [hc, ← Option.some.inj he]
  simp

theorem quiet_of_resyncs {s : Decoder} (h : Resyncs s) : Quiet s := by
  by_contra hq
  obtain ⟨n, t, hall⟩ := flags_complete hq
  -- the length is the noise's: it cannot be both an empty payload's and a byte's
  have h0 := (resyncs_one_call h [] (by decide)).2
  have h1 := (resyncs_one_call h [0] (by decide)).2
  rw [hall] at h0 h1
  exact absurd (h0.symm.trans h1) (by decide)

theorem room_of_resyncs {s : Decoder} (hi : Inv s) (h : Resyncs s) : 63 ≤ roomAfterFlags s := by
  by_contra hr
  obtain ⟨t, n, ht, ho, hroom, _⟩ := flags_open hi (quiet_of_resyncs h)
  have hc := (resyncs_one_call h (List.replicate 61 0) (by simp)).1
  rw [decode_append ht, frame_overrun _ ho (by rw [List.length_replicate]; omega)] at hc
  cases hc

theorem inv_afterNoise (h : List Op) (noise : List (List UInt8)) :
    Inv (afterChunks (hdlcDecoderReset (run h)) noise) := by
  have hrun : afterChunks (hdlcDecoderReset (run h)) noise = run (h ++ .reset :: noise.map .decode) := by
    simp [run, afterChunks, apply]
  exact hrun ▸ inv_run _

/-- After a reset and any noise, frames are received again exactly when the flags do not
    complete what the noise left, and the noise and the history left the room. -/
theorem resync_iff (h : List Op) (noise : List (List UInt8)) :
    let s := afterChunks (hdlcDecoderReset (run h)) noise
    Resyncs s ↔ Quiet s ∧ 63 ≤ roomAfterFlags s := by
  intro s
  have hi : Inv s := inv_afterNoise h noise
  exact ⟨fun hs => ⟨quiet_of_resyncs hs, room_of_resyncs hi hs⟩, fun hc => resyncs_of hi hc.1 hc.2⟩

/-- A flag and 256 bytes of content, never complete, and no frame of 61 bytes is received
    any more: neither after the flags nor after a further reset. -/
theorem long_frame_deafens :
    let noise := [kFlagSequence :: List.replicate 256 0x41]
    let s := afterChunks (hdlcDecoderReset (run [])) noise
    (∀ c ∈ calls (hdlcDecoderReset (run [])) noise, c.ret = .pending) ∧ ¬ Resyncs s ∧
      ¬ Resyncs (hdlcDecoderReset s) := by
  intro noise s
  have hroom : s.remainingLen = 0 ∧ s.mState = .sync := by decide +kernel
  have hinv : Inv s := inv_afterNoise [] noise
  refine ⟨by decide +kernel, fun h => ?_, fun h => ?_⟩
  · have := room_of_resyncs hinv h
    rw [roomAfterFlags, hroom.2] at this
    dsimp only at this
    omega
  · have := room_of_resyncs (inv_reset hinv) h
    simp only [roomAfterFlags, hdlcDecoderReset] at this
    omega

end AmebaLinux.Rcp.Hdlc
