/-
  AmebaLinux.Rcp.TtyProofs — what `ttyWrite` puts on the line (see `AmebaLinux.Rcp.Tty`).

  Proved:
  - `ttyWriteLoop_eq`: with its pointer and its 16-bit length the loop sends what
    `ttyWriteRest` sends of the rest of the frame.
  - `write_conserves_iff`: the bytes taken are a front part of the frame, and all of it
    exactly when `ttyWrite` returns 0, for the frames of up to 512 bytes; the trace of a
    longer one leaves its buffer (`long_frame_leaves_trace`). The frames of `hdlc_encode`
    have at most 258 (`encoded_traced`); the other requests have at most 61.
-/

import AmebaLinux.Rcp.HdlcProofs
import AmebaLinux.Rcp.Tty

namespace AmebaLinux.Rcp.Tty

open AmebaLinux.Rcp.Hdlc

/-! ## The bytes taken -/

/-- The bytes taken are a front part of what was to be sent, and all of it exactly when
    there was no error. -/
theorem ttyWriteRest_front (script : List WriteTurn) (aFrame : List UInt8) :
    (ttyWriteRest script aFrame).2 <+: aFrame ∧
      ((ttyWriteRest script aFrame).2 = aFrame ↔ (ttyWriteRest script aFrame).1 = .noErr) := by
  induction script generalizing aFrame with
  | nil => cases aFrame <;> simp [ttyWriteRest]
  | cons t script ih =>
    cases aFrame with
    | nil => simp [ttyWriteRest]
    | cons b aFrame =>
      rw [ttyWriteRest]
      split
      · simp
      · -- nothing taken: the same bytes are still to be sent
        split
        · exact ih (b :: aFrame)
        · rename_i hwait
          simp [hwait]
      · rename_i n _
        split
        · simp
        · rename_i hshort
          have hsplit := List.take_append_drop n (b :: aFrame)
          split
          · obtain ⟨hfront, hall⟩ := ih ((b :: aFrame).drop n)
            refine ⟨?_, ?_⟩
            · have := (List.prefix_append_right_inj ((b :: aFrame).take n)).mpr hfront
              rwa [hsplit] at this
            · rw [← hall]
              conv_lhs => rhs; rw [← hsplit]
              exact List.append_right_inj _
          · rename_i hwait
            refine ⟨List.take_prefix n _, iff_of_false ?_ hwait⟩
            intro htake
            have := congrArg List.length htake
            rw [List.length_take] at this
            omega

/-! ## The pointer and the length -/

/-- One turn with bytes left to send. -/
theorem ttyWriteRest_turn (t : WriteTurn) (script : List WriteTurn) {rest : List UInt8} (h : rest ≠ []) :
    ttyWriteRest (t :: script) rest =
      match t.write with
      | .fatal => (.unexpected, [])
      | .again => if t.wait = .noErr then ttyWriteRest script rest else (t.wait, [])
      | .wrote n =>
        if rest.length ≤ n then (.noErr, rest)
        else if t.wait = .noErr then
          ((ttyWriteRest script (rest.drop n)).1, rest.take n ++ (ttyWriteRest script (rest.drop n)).2)
        else (t.wait, rest.take n) := by
  cases rest with
  | nil => exact absurd rfl h
  | cons b rest => rfl

/-- The pointer and the length of the code stand for the rest of the frame. -/
theorem ttyWriteLoop_eq (frame : List UInt8) (script : List WriteTurn) (off : Nat) (aLength : UInt16)
    (h : off + aLength.toNat = frame.length) :
    ((ttyWriteLoop frame script off aLength).1, (ttyWriteLoop frame script off aLength).2.flatten) =
      ttyWriteRest script (frame.drop off) := by
  induction script generalizing off aLength with
  | nil =>
    have hrest : (frame.drop off).length = aLength.toNat := by rw [List.length_drop]; omega
    rw [ttyWriteLoop]
    by_cases hzero : aLength = 0
    · rw [if_pos hzero, List.length_eq_zero_iff.mp (hrest.trans (by rw [hzero]; rfl))]
      rfl
    · rw [if_neg hzero]
      cases hbytes : frame.drop off with
      | nil => exact absurd (UInt16.toNat_inj.mp (hrest.symm.trans (by rw [hbytes]; rfl))) hzero
      | cons b rest => rfl
  | cons t script ih =>
    have hrest : (frame.drop off).length = aLength.toNat := by rw [List.length_drop]; omega
    rw [ttyWriteLoop]
    by_cases hzero : aLength = 0
    · rw [if_pos hzero, List.length_eq_zero_iff.mp (hrest.trans (by rw [hzero]; rfl))]
      rfl
    · have hne : frame.drop off ≠ [] := by
        intro hnil
        exact hzero (UInt16.toNat_inj.mp (hrest.symm.trans (by rw [hnil]; rfl)))
      rw [if_neg hzero, ttyWriteRest_turn t script hne]
      cases t.write with
      | fatal => rfl
      | again =>
        dsimp only
        split
        · exact ih off aLength h
        · rfl
      | wrote n =>
        dsimp only
        by_cases hall : aLength.toNat ≤ n
        · rw [if_pos (Nat.min_eq_right hall), if_pos (hrest.trans_le hall), Nat.min_eq_right hall,
            List.take_of_length_le hrest.le]
          simp
        · have hmin : min n aLength.toNat = n := Nat.min_eq_left (by omega)
          have hpart : ¬ n = aLength.toNat := by omega
          have hlong : ¬ (frame.drop off).length ≤ n := by omega
          rw [hmin, if_neg hpart, if_neg hlong]
          by_cases hwait : t.wait = .noErr
          · -- a short `write`: the 16-bit length goes down as the pointer goes up
            have hlen := aLength.toNat_lt
            have hn : (UInt16.ofNat n).toNat = n := UInt16.toNat_ofNat_of_lt' (by simp only [UInt16.size]; omega)
            have hleft : (aLength - UInt16.ofNat n).toNat = aLength.toNat - n := by
              rw [UInt16.toNat_sub_of_le _ _ (UInt16.le_iff_toNat_le.mpr (by omega)), hn]
            have hnext := ih (off + n) (aLength - UInt16.ofNat n) (by omega)
            rw [if_pos hwait, if_pos hwait, hn, List.drop_drop, ← hnext]
            rfl
          · rw [if_neg hwait, if_neg hwait]
            simp

/-! ## The trace -/

/-- A trace that begins at a multiple of four has room for every fourth of its bytes. -/
theorem traceLoop_isSome_iff (bytes : List UInt8) {room : Nat} (h0 : 0 < room) (k : Nat) (hk : k ≤ room) :
    (traceLoop (4 * room) bytes (4 * k)).isSome = true ↔ k + bytes.length ≤ room := by
  induction bytes generalizing k with
  | nil => simpa [traceLoop] using hk
  | cons b bytes ih =>
    rw [traceLoop]
    by_cases hfull : k = room
    · -- the next byte is stored with a size that has wrapped
      subst hfull
      have hpast : ¬ 4 * k + traceStored (4 * k) (4 * k) ≤ 4 * k := by
        rw [traceStored, if_neg (by omega)]
        omega
      rw [if_neg hpast, List.length_cons]
      simp
    · have hroom : 4 * k + traceStored (4 * room) (4 * k) ≤ 4 * room := by
        rw [traceStored, if_pos (by omega)]
        omega
      rw [if_pos hroom, show 4 * k + 4 = 4 * (k + 1) by ring, ih (k + 1) (by omega), List.length_cons]
      omega

theorem traceLoop_start_iff (aFrame : List UInt8) :
    (traceLoop sendSize aFrame 0).isSome = true ↔ aFrame.length ≤ 512 := by
  have h := traceLoop_isSome_iff aFrame (show 0 < 512 by decide) 0 (Nat.zero_le _)
  rwa [Nat.zero_add] at h

/-- A frame that fits the trace is sent as `ttyWriteRest` sends it. -/
theorem ttyWrite_eq_rest (f : Frame) (script : List WriteTurn) (h : f.bytes.length ≤ 512) :
    ∃ sent, ttyWrite f script = some sent ∧ (sent.1, sent.2.flatten) = ttyWriteRest script f.bytes := by
  obtain ⟨count, hcount⟩ := Option.isSome_iff_exists.mp ((traceLoop_start_iff f.bytes).mpr h)
  have hlen : (UInt16.ofNat f.bytes.length).toNat = f.bytes.length := UInt16.toNat_ofNat_of_lt' f.fits
  refine ⟨_, by rw [ttyWrite, hcount, Option.map_some], ?_⟩
  exact ttyWriteLoop_eq f.bytes script 0 _ (by rw [hlen, Nat.zero_add])

/-- What `ttyWrite` owes its caller, whatever the device does: the bytes taken are a front
    part of the frame, and all of it exactly when it returns 0. -/
def Conserves (f : Frame) : Prop :=
  ∀ script : List WriteScript, ∃ sent, ttyWrite f (script.map WriteScript.turn) = some sent ∧
    sent.2.flatten <+: f.bytes ∧ (sent.2.flatten = f.bytes ↔ sent.1 = .noErr)

/-- Frames of up to 512 bytes are sent without loss or repetition; a longer one takes the
    trace out of its buffer before the first byte is sent. -/
theorem write_conserves_iff (f : Frame) : Conserves f ↔ f.bytes.length ≤ 512 := by
  constructor
  · intro h
    obtain ⟨sent, hsent, -⟩ := h []
    rw [← traceLoop_start_iff]
    by_contra hnone
    rw [Bool.not_eq_true, Option.isSome_eq_false_iff, Option.isNone_iff_eq_none] at hnone
    rw [ttyWrite, hnone] at hsent
    cases hsent
  · intro h script
    obtain ⟨sent, hsent, heq⟩ := ttyWrite_eq_rest f (script.map WriteScript.turn) h
    have hfront := ttyWriteRest_front (script.map WriteScript.turn) f.bytes
    rw [← heq] at hfront
    exact ⟨sent, hsent, hfront⟩

/-- 513 bytes for a device that would take them all. -/
theorem long_frame_leaves_trace :
    ttyWrite ⟨List.replicate 513 0, by rw [List.length_replicate]; decide⟩ [⟨.wrote 513, .noErr⟩] = none := by
  have hnone : traceLoop sendSize (List.replicate 513 0) 0 = none := by decide +kernel
  rw [ttyWrite, hnone]
  rfl

/-- The frames of `hdlc_encode` fit. -/
theorem encoded_traced {d frame : List UInt8} (h : hdlcEncode d = some frame) :
    (traceLoop sendSize frame 0).isSome = true := by
  have hd : d.length ≤ 126 := by
    by_contra hlong
    rw [hdlcEncode, if_pos (by simp only [encodeBufferSize]; omega)] at h
    cases h
  rw [encode_eq d hd] at h
  cases h
  have hescaped := List.countP_le_length (p := hdlcByteNeedsEscape) (l := content d)
  rw [traceLoop_start_iff]
  simp only [List.cons_append, List.length_cons, List.length_append, stuffed_length, content_length, List.length_nil] at *
  omega

end AmebaLinux.Rcp.Tty
