/-
  AmebaLinux.Rcp.HdlcAccept — which frames `hdlc_decode` accepts.

  A 0x7e is a delimiter unless an escape is pending. `scan` reads a stream by that rule
  alone: the content since the last delimiter, unescaped, and how many content bytes there
  have been in all. It knows neither check sequence nor buffer.

  Proved:
  - `good_iff`: two bytes take the check sequence to `kGoodFcs` exactly when they are the
    complement of what it was.
  - `completes_iff_checked`: until the first frame is complete, and for as long as the stream has had
    at most 256 content bytes, the decoder completes exactly at the delimiters that close a
    content with the right check sequence, with what stands before it.
-/

import AmebaLinux.Lib.Machine
import AmebaLinux.Rcp.HdlcNoise

namespace AmebaLinux.Rcp.Hdlc

open AmebaLinux.Lib

/-! ## The stream -/

/-- Before the first delimiter, or the content since the last one and whether an escape is
    pending. -/
inductive Place where
  | before
  | within (content : List UInt8) (escaped : Bool)
  deriving DecidableEq, Repr

structure Scan where
  place : Place
  /-- The content bytes so far, in all frames. -/
  count : Nat
  deriving DecidableEq, Repr

def Scan.next (s : Scan) (byte : UInt8) : Scan :=
  match s.place with
  | .before => if byte = kFlagSequence then { s with place := .within [] false } else s
  | .within l true => ⟨.within (l ++ [byte ^^^ 0x20]) false, s.count + 1⟩
  | .within l false =>
    if byte = kEscapeSequence then { s with place := .within l true }
    else if byte = kFlagSequence then { s with place := .within [] false }
    else ⟨.within (l ++ [byte]) false, s.count + 1⟩

def scan (stream : List UInt8) : Scan := Machine.run Scan.next ⟨.before, 0⟩ stream

/-- The content is `p` and, low byte first, the complement of its check sequence. -/
def Checked (p content : List UInt8) : Prop :=
  ∃ lo hi : UInt8, content = p ++ [lo, hi] ∧ (hi.toUInt16 <<< 8) ||| lo.toUInt16 = ~~~ p.foldl updateFcs kInitFcs

/-! ## The check sequence, backwards -/

/-- The table's high bytes 0xf0 and 0x0f stand in one place each. -/
theorem table_high : ∀ i < 256, (sFcsTable.getD i 0 >>> 8 = 0xf0 → i = 0x87) ∧ (sFcsTable.getD i 0 >>> 8 = 0x0f → i = 0xff) := by
  decide +kernel

theorem index_inj (f : UInt16) {x y : UInt8} (h : (f ^^^ x.toUInt16) &&& 0xff = (f ^^^ y.toUInt16) &&& 0xff) : x = y := by
  apply UInt8.toBitVec_inj.mp
  apply BitVec.eq_of_getLsbD_eq
  intro i hi
  have hbits := congrArg (fun z : UInt16 => z.toBitVec.getLsbD i) h
  simp only [UInt16.toBitVec_and, UInt16.toBitVec_xor, UInt8.toBitVec_toUInt16, BitVec.getLsbD_and, BitVec.getLsbD_xor,
    BitVec.getLsbD_setWidth] at hbits
  interval_cases i <;> simpa using hbits

theorem index_lt (f : UInt16) (x : UInt8) : ((f ^^^ x.toUInt16) &&& 0xff).toNat < 256 := by
  rw [UInt16.toNat_and]
  exact Nat.lt_of_le_of_lt Nat.and_le_right (by decide)

/-- The high byte after a step comes from the table alone. -/
theorem updateFcs_high (f : UInt16) (x : UInt8) :
    updateFcs f x >>> 8 = sFcsTable.getD ((f ^^^ x.toUInt16) &&& 0xff).toNat 0 >>> 8 := by
  unfold updateFcs
  generalize sFcsTable.getD _ 0 = t
  apply UInt16.toBitVec_inj.mp
  apply BitVec.eq_of_getLsbD_eq
  intro i hi
  have hf : f.toBitVec.getLsbD (8 + (8 + i)) = false := BitVec.getLsbD_of_ge _ _ (by omega)
  simp [BitVec.getLsbD_xor, BitVec.getLsbD_ushiftRight, hf]

/-- From the good value back, the index of each step is known from the high byte it left. -/
theorem good_indices {f : UInt16} {x y : UInt8} (h : updateFcs (updateFcs f x) y = kGoodFcs) :
    (f ^^^ x.toUInt16) &&& 0xff = 0xff ∧ (updateFcs f x ^^^ y.toUInt16) &&& 0xff = 0x87 := by
  have hy : ((updateFcs f x ^^^ y.toUInt16) &&& 0xff).toNat = 0x87 := by
    refine (table_high _ (index_lt _ _)).1 ?_
    rw [← updateFcs_high, h]
    rfl
  have hx : ((f ^^^ x.toUInt16) &&& 0xff).toNat = 0xff := by
    refine (table_high _ (index_lt _ _)).2 ?_
    rw [← updateFcs_high]
    have hstep : (updateFcs f x >>> 8) ^^^ sFcsTable.getD 0x87 0 = kGoodFcs := by
      rw [← h]
      conv_rhs => rw [updateFcs, hy]
    have htable : sFcsTable.getD 0x87 0 = 0xf0b7 := by decide
    rw [htable] at hstep
    calc updateFcs f x >>> 8 = (updateFcs f x >>> 8) ^^^ 0xf0b7 ^^^ 0xf0b7 := by
          rw [UInt16.xor_assoc, UInt16.xor_self, UInt16.xor_zero]
      _ = kGoodFcs ^^^ 0xf0b7 := by rw [hstep]
      _ = 0x0f := by decide
  exact ⟨UInt16.toNat_inj.mp hx, UInt16.toNat_inj.mp hy⟩

/-- Only the complement of the check sequence leads to the good value. -/
theorem good_iff (f : UInt16) (x y : UInt8) : updateFcs (updateFcs f x) y = kGoodFcs ↔ [x, y] = fcsBytes f := by
  constructor
  · intro h
    obtain ⟨hx, hy⟩ := good_indices h
    have hlow : (f ^^^ (((f ^^^ 0xffff) &&& 0xff).toUInt8).toUInt16) &&& 0xff = 0xff :=
      UInt16.toBitVec_inj.mp (fcs_index_low f.toBitVec)
    have hhigh : (((f >>> 8) ^^^ (0x0f78 : UInt16)) ^^^ (((f ^^^ 0xffff) >>> 8).toUInt8).toUInt16) &&& 0xff = (0x87 : UInt16) :=
      UInt16.toBitVec_inj.mp (fcs_index_high f.toBitVec)
    obtain rfl := index_inj f (hx.trans hlow.symm)
    rw [updateFcs_low] at hy
    obtain rfl := index_inj _ (hy.trans hhigh.symm)
    rfl
  · intro h
    have hgood := fcs_residue f
    rwa [← h] at hgood

theorem low_of_word (lo hi : UInt8) : (((hi.toUInt16 <<< 8) ||| lo.toUInt16) &&& 0xff).toUInt8 = lo := by
  apply UInt8.toBitVec_inj.mp
  apply BitVec.eq_of_getLsbD_eq
  intro i hi
  interval_cases i <;> simp

theorem high_of_word (lo hi : UInt8) : (((hi.toUInt16 <<< 8) ||| lo.toUInt16) >>> 8).toUInt8 = hi := by
  apply UInt8.toBitVec_inj.mp
  apply BitVec.eq_of_getLsbD_eq
  intro i hi
  interval_cases i <;> simp

theorem word_of_bits (g : BitVec 16) :
    (((g >>> 8).setWidth 8).setWidth 16 <<< 8) ||| ((g &&& 0xff#16).setWidth 8).setWidth 16 = g := by
  apply BitVec.eq_of_getLsbD_eq
  intro i hi
  simp only [BitVec.getLsbD_or, BitVec.getLsbD_shiftLeft, BitVec.getLsbD_setWidth, BitVec.getLsbD_ushiftRight, BitVec.getLsbD_and]
  interval_cases i <;> simp

theorem word_of_bytes (g : UInt16) : ((g >>> 8).toUInt8.toUInt16 <<< 8) ||| (g &&& 0xff).toUInt8.toUInt16 = g :=
  UInt16.toBitVec_inj.mp (word_of_bits g.toBitVec)

theorem checked_iff (p l : List UInt8) : Checked p l ↔ l = content p := by
  have hnot : ∀ f : UInt16, ~~~f = f ^^^ 0xffff := fun f => (UInt16.xor_neg_one).symm
  unfold Checked content fcsBytes
  constructor
  · intro h
    obtain ⟨lo, hi, hl, hword⟩ := h
    rw [hl, ← hnot, ← hword, low_of_word, high_of_word]
  · intro hl
    refine ⟨_, _, hl, ?_⟩
    rw [word_of_bytes, hnot]

/-- The content that leaves the good value is a payload with its check sequence. -/
theorem good_content (l : List UInt8) :
    kFcsSize ≤ l.length ∧ l.foldl updateFcs kInitFcs = kGoodFcs ↔ ∃ p, Checked p l := by
  simp only [checked_iff]
  constructor
  · intro h
    obtain ⟨hlen, hgood⟩ := h
    obtain ⟨x, y, hlast⟩ : ∃ x y, l.drop (l.length - kFcsSize) = [x, y] :=
      List.length_eq_two.mp (by rw [List.length_drop]; simp only [kFcsSize] at *; omega)
    refine ⟨l.take (l.length - kFcsSize), ?_⟩
    have hsplit := List.take_append_drop (l.length - kFcsSize) l
    rw [hlast] at hsplit
    rw [← hsplit, List.foldl_append] at hgood
    rw [content, ← (good_iff _ x y).mp hgood, hsplit]
  · intro h
    obtain ⟨p, rfl⟩ := h
    exact ⟨by simp [kFcsSize], content_fcs p⟩

/-! ## The decoder along the stream -/

/-- What the decoder holds of a stream that has stayed pending. -/
structure Tracks (n : Scan) (s : Decoder) : Prop where
  room : s.remainingLen + n.count = decodeBufferSize
  size : s.decodeBuffer.length = decodeBufferSize
  place : match n.place with
    | .before => s.mState = .noSync ∧ s.pDecBuffer = 0
    | .within l escaped =>
      s.mState = (if escaped then .escaped else .sync) ∧ s.mFcs = l.foldl updateFcs kInitFcs ∧ s.mDecodedLength = l.length ∧
        s.pDecBuffer = l.length ∧ s.decodeBuffer.take l.length = l ∧ l.length ≤ n.count

theorem tracks_start : Tracks ⟨.before, 0⟩ start := ⟨rfl, List.length_replicate, rfl, rfl⟩

/-- A content byte is taken in where there has been room for it. -/
theorem tracks_store {l : List UInt8} {escaped : Bool} {count : Nat} {s : Decoder} (h : Tracks ⟨.within l escaped, count⟩ s)
    (byte : UInt8) (hroom : count + 1 ≤ decodeBufferSize) : Tracks ⟨.within (l ++ [byte]) false, count + 1⟩ (store s byte) := by
  obtain ⟨hr, hsize, _, hfcs, hlen, hptr, hbytes, hcount⟩ := h
  dsimp only at hr hcount
  rw [store, if_pos (by omega)]
  refine ⟨?_, ?_, rfl, ?_, ?_, ?_, ?_, ?_⟩ <;> dsimp only
  · omega
  · rw [List.length_set, hsize]
  · rw [hfcs, List.foldl_append]
    rfl
  · rw [hlen, List.length_append]
    rfl
  · rw [hptr, List.length_append]
    rfl
  · rw [hptr, List.length_append]
    exact (take_set_succ _ _ _ (by omega)).trans (by rw [hbytes])
  · rw [List.length_append, List.length_singleton]
    omega

/-- The decoder completes exactly at a delimiter after a content with its check sequence. -/
theorem tracks_complete {n : Scan} {s : Decoder} (h : Tracks n s) (byte : UInt8) :
    (decodeByte s byte).2 = true ↔ byte = kFlagSequence ∧ ∃ p l, n.place = .within l false ∧ Checked p l := by
  obtain ⟨_, _, hplace⟩ := h
  cases hp : n.place with
  | before =>
    rw [hp] at hplace
    simp only [decodeByte, hplace.1]
    split <;> simp
  | within l escaped =>
    rw [hp] at hplace
    obtain ⟨hstate, hfcs, hlen, _⟩ := hplace
    cases escaped with
    | true =>
      simp only [decodeByte, hstate]
      simp
    | false =>
      have hsync : s.mState = .sync := hstate
      by_cases hflag : byte = kFlagSequence
      · subst hflag
        by_cases hgood : ∃ p, Checked p l
        · obtain ⟨hsize, hfinal⟩ := (good_content l).mpr hgood
          rw [flag_completes hsync (hlen.symm ▸ hsize) (hfcs.trans hfinal)]
          obtain ⟨p, hchecked⟩ := hgood
          exact iff_of_true rfl ⟨rfl, p, l, rfl, hchecked⟩
        · have hquiet : ¬ (kFcsSize ≤ s.mDecodedLength ∧ s.mFcs = kGoodFcs) := by
            rw [hlen, hfcs, good_content]
            exact hgood
          rw [flag_sync hsync hquiet]
          refine iff_of_false (by simp) ?_
          intro h
          obtain ⟨_, p, l', hl, hchecked⟩ := h
          cases hl
          exact hgood ⟨p, hchecked⟩
      · simp only [decodeByte, hsync, if_neg hflag]
        split <;> simp [hflag]

/-- A byte that does not complete takes the decoder where it takes the scan. -/
theorem tracks_step {n : Scan} {s : Decoder} (h : Tracks n s) (byte : UInt8) (hpending : (decodeByte s byte).2 = false)
    (hroom : (n.next byte).count ≤ decodeBufferSize) : Tracks (n.next byte) (decodeByte s byte).1 := by
  obtain ⟨place, count⟩ := n
  cases place with
  | before =>
    obtain ⟨hr, hsize, hstate, hptr⟩ := h
    simp only [decodeByte, Scan.next, hstate]
    split
    · exact ⟨hr, hsize, rfl, rfl, rfl, hptr, rfl, Nat.zero_le _⟩
    · exact ⟨hr, hsize, hstate, hptr⟩
  | within l escaped =>
    have hplace := h.place
    dsimp only at hplace
    cases escaped with
    | true =>
      have hstate : s.mState = .escaped := hplace.1
      simp only [decodeByte, Scan.next, hstate] at hroom ⊢
      exact tracks_store h _ hroom
    | false =>
      have hstate : s.mState = .sync := hplace.1
      obtain ⟨_, hfcs, hlen, hptr, hbytes, hcount⟩ := hplace
      by_cases hescape : byte = kEscapeSequence
      · simp only [decodeByte, Scan.next, hstate, if_pos hescape]
        exact ⟨h.room, h.size, rfl, hfcs, hlen, hptr, hbytes, hcount⟩
      · by_cases hflag : byte = kFlagSequence
        · have hquiet : ¬ (kFcsSize ≤ s.mDecodedLength ∧ s.mFcs = kGoodFcs) := by
            intro hdone
            obtain ⟨hl, hf⟩ := hdone
            rw [hflag, flag_completes hstate hl hf] at hpending
            cases hpending
          rw [hflag, flag_sync hstate hquiet]
          simp only [Scan.next, if_neg flag_ne_escape, if_true]
          exact ⟨h.room, h.size, hstate, rfl, rfl, rfl, rfl, Nat.zero_le _⟩
        · simp only [decodeByte, Scan.next, hstate, if_neg hescape, if_neg hflag] at hroom ⊢
          exact tracks_store h _ hroom

theorem next_count_le (n : Scan) (byte : UInt8) : n.count ≤ (n.next byte).count := by
  unfold Scan.next
  repeat' split
  all_goals simp

theorem run_count_le (stream : List UInt8) (n : Scan) : n.count ≤ (Machine.run Scan.next n stream).count :=
  Machine.run_invariant (P := fun m => n.count ≤ m.count) (fun m b h => h.trans (next_count_le m b)) (le_refl _) stream

/-- Bytes that stay pending take the decoder where they take the scan. -/
theorem tracks_run (stream : List UInt8) {n : Scan} {s : Decoder} (h : Tracks n s)
    (hpending : (hdlcDecode s stream).ret = .pending) (hroom : (Machine.run Scan.next n stream).count ≤ decodeBufferSize) :
    Tracks (Machine.run Scan.next n stream) (hdlcDecode s stream).after := by
  induction stream generalizing n s with
  | nil => exact h
  | cons b stream ih =>
    rw [hdlcDecode] at hpending ⊢
    rw [Machine.run_cons] at hroom ⊢
    have hfirst : (decodeByte s b).2 = false := by
      cases hd : decodeByte s b with
      | mk t done =>
        cases done with
        | false => rfl
        | true =>
          rw [hd] at hpending
          cases hpending
    have hstep := tracks_step h b hfirst ((run_count_le stream _).trans hroom)
    have hd : decodeByte s b = ((decodeByte s b).1, false) := Prod.ext rfl hfirst
    rw [hd] at hpending ⊢
    exact ih hstep hpending hroom

/-! ## Acceptance -/

/-- Calls that all stay pending leave what one call on all their bytes leaves. -/
theorem pending_flatten (chunks : List (List UInt8)) {s : Decoder} (h : ∀ c ∈ calls s chunks, c.ret = .pending) :
    ∃ n, hdlcDecode s chunks.flatten = ⟨.pending, n, afterChunks s chunks⟩ := by
  induction chunks generalizing s with
  | nil => exact ⟨s.mDecodedLength, rfl⟩
  | cons a chunks ih =>
    have hfirst : hdlcDecode s a = ⟨.pending, (hdlcDecode s a).len, (hdlcDecode s a).after⟩ := by
      rw [← h (hdlcDecode s a) List.mem_cons_self]
    obtain ⟨n, hrest⟩ := ih (s := (hdlcDecode s a).after) fun c hc => h c (List.mem_cons_of_mem _ hc)
    refine ⟨n, ?_⟩
    rw [List.flatten_cons, decode_append hfirst, hrest]
    rfl

/-- Until something is complete, and with at most 256 content bytes so far, the decoder
    completes at a byte exactly when that byte is a delimiter, not the first, and the content
    since the delimiter before it is a payload followed by its check sequence. The payload is
    then what it delivers, whatever follows in the chunk. -/
theorem completes_iff_checked (chunks : List (List UInt8)) (front : List UInt8) (byte : UInt8)
    (hchunks : ∀ c ∈ calls start chunks, c.ret = .pending)
    (hfront : (hdlcDecode (afterChunks start chunks) front).ret = .pending)
    (hroom : (scan (chunks.flatten ++ front)).count ≤ 256) :
    ((hdlcDecode (afterChunks start chunks) (front ++ [byte])).ret = .complete ↔
      byte = kFlagSequence ∧ ∃ p l, (scan (chunks.flatten ++ front)).place = .within l false ∧ Checked p l) ∧
    ∀ p l, byte = kFlagSequence → (scan (chunks.flatten ++ front)).place = .within l false → Checked p l →
      ∀ rest, let c := hdlcDecode (afterChunks start chunks) (front ++ byte :: rest)
        c.ret = .complete ∧ c.len = p.length ∧ c.payload = p := by
  let s := afterChunks start chunks
  let t := (hdlcDecode s front).after
  have hpending : hdlcDecode s front = ⟨.pending, (hdlcDecode s front).len, t⟩ := by rw [← hfront]
  have htracks : Tracks (scan (chunks.flatten ++ front)) t := by
    obtain ⟨n, hall⟩ := pending_flatten chunks hchunks
    have hstream : hdlcDecode start (chunks.flatten ++ front) = hdlcDecode s front := decode_append hall front
    have hrun := tracks_run (chunks.flatten ++ front) tracks_start (by rw [hstream, hpending]) hroom
    rwa [hstream] at hrun
  have hcomplete := tracks_complete htracks byte
  refine ⟨?_, ?_⟩
  · rw [← hcomplete, decode_append hpending, hdlcDecode]
    cases decodeByte t byte with
    | mk u done => cases done <;> simp [hdlcDecode]
  · intro p l hbyte hplace hchecked rest c
    have hplaced := htracks.place
    rw [hplace] at hplaced
    obtain ⟨hstate, hfcs, hlen, _, hbytes, _⟩ := hplaced
    obtain ⟨hsize, hgood⟩ := (good_content l).mpr ⟨p, hchecked⟩
    have hc : c = ⟨.complete, (removeFcs t).mDecodedLength, removeFcs t⟩ := by
      show hdlcDecode s (front ++ byte :: rest) = _
      rw [decode_append hpending, hdlcDecode, hbyte, flag_completes hstate (hlen.symm ▸ hsize) (hfcs.trans hgood)]
    have hp : (removeFcs t).mDecodedLength = p.length := by
      show t.mDecodedLength - kFcsSize = p.length
      rw [hlen, (checked_iff p l).mp hchecked, content_length]
      rfl
    rw [hc]
    refine ⟨rfl, hp, ?_⟩
    -- the check sequence is behind the payload in the buffer
    show t.decodeBuffer.take (removeFcs t).mDecodedLength = p
    rw [hp]
    calc t.decodeBuffer.take p.length = (t.decodeBuffer.take l.length).take p.length := by
          rw [List.take_take, (checked_iff p l).mp hchecked, content_length, Nat.min_eq_left (by omega)]
      _ = l.take p.length := by rw [hbytes]
      _ = p := by rw [(checked_iff p l).mp hchecked, content, List.take_left]

theorem accepted_after_noise :
    let chunks := [[0x41], [0x7e, 0x7d], [0x5d, 0x41]]
    (hdlcDecode (afterChunks start chunks) (fcsBytes (updateFcs (updateFcs kInitFcs 0x7d) 0x41) ++ [0x7e])).payload =
      [0x7d, 0x41] := by
  have h := completes_iff_checked [[0x41], [0x7e, 0x7d], [0x5d, 0x41]] (fcsBytes (updateFcs (updateFcs kInitFcs 0x7d) 0x41)) 0x7e
    (by decide +kernel) (by decide +kernel) (by decide +kernel)
  exact (h.2 [0x7d, 0x41] (content [0x7d, 0x41]) rfl (by decide +kernel) ((checked_iff _ _).mpr rfl) []).2.2

end AmebaLinux.Rcp.Hdlc
