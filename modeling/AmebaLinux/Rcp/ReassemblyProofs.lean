/-
  AmebaLinux.Rcp.ReassemblyProofs — responses after waits that timed out
  (see `AmebaLinux.Rcp.FwUpdateSubProcess`).

  A history is waits of any kind, each of which brings a whole response in any chunks or
  times out after fewer bytes than one.

  Proved:
  - `reassembly`: a response is reassembled exactly when its handler's static `index` is
    0, and that is so for all three handlers after every history whose timed-out waits
    brought no byte at all. A timeout does not reset `index`, so a response cut short
    makes the next whole one of its kind exit the tool (`cut_response_exits`).
-/

import AmebaLinux.Rcp.FwUpdateSubProcess
import AmebaLinux.Rcp.FwUpdateSrcProofs

namespace AmebaLinux.Rcp.FwUpdate

open AmebaLinux.Lib.Bytes
open AmebaLinux.Rcp.Tty
open AmebaLinux.Rcp.FwUpdateSrc

/-! ## One handler at a time -/

section

variable (s : Reports) (k : Kind) (r r' : Report)

@[simp] theorem get_put : (s.put k r).get k = r := by cases k <;> rfl

@[simp] theorem put_get : s.put k (s.get k) = s := by cases k <;> rfl

@[simp] theorem put_put : (s.put k r).put k r' = s.put k r' := by cases k <;> rfl

@[simp] theorem put_repBuff : (s.put k r).repBuff = r.repBuff := by cases k <;> rfl

/-- A handler leaves the others' indices alone. -/
theorem index_put (j : Kind) : (s.put k r).index j = if j = k then r.index else s.index j := by
  cases k <;> cases j <;> rfl

end

theorem handler_eq (k : Kind) : k.handler = reportHandle (k.size - 1) := by cases k <;> rfl

theorem size_pos (k : Kind) : 0 < k.size := by cases k <;> decide

/-- A wait on the shared state is a wait of the one handler. -/
theorem waitFor_eq (k : Kind) (s : Reports) (script : List ReadEv) :
    waitFor k s script = (ttyWaitForFrame k.handler (s.get k) script).map fun x => (x.1, s.put k x.2) := by
  unfold waitFor
  induction script generalizing s with
  | nil => simp [ttyWaitForFrame]
  | cons e script ih =>
    cases e with
    | idle => exact ih s
    | failed error => simp [ttyWaitForFrame]
    | chunk buff =>
      simp only [ttyWaitForFrame]
      by_cases hb : buff = []
      · rw [if_pos hb, if_pos hb]
        exact ih s
      · rw [if_neg hb, if_neg hb]
        rcases hh : k.handler (s.get k) buff with _ | ⟨r, b⟩
        · simp [handle, hh]
        · cases b with
          | true => simp [handle, hh]
          | false =>
            simp only [handle, hh, Option.map_some]
            rw [ih]
            simp

/-! ## The statement -/

/-- The bytes a script brings before the wait gives up. -/
def delivered : List ReadEv → List UInt8
  | [] => []
  | .idle :: script => delivered script
  | .failed _ :: _ => []
  | .chunk buff :: script => buff ++ delivered script

/-- The chunks a handler is given. -/
def chunksOf : List ReadEv → List (List UInt8)
  | [] => []
  | .idle :: script => chunksOf script
  | .failed _ :: _ => []
  | .chunk buff :: script => if buff = [] then chunksOf script else buff :: chunksOf script

structure Wait where
  kind : Kind
  script : List ReadEv
  deriving DecidableEq, Repr

def Wait.Whole (w : Wait) : Prop := ∃ resp, received w.script = some resp ∧ resp.length = w.kind.size

/-- The wait gives up before a whole response. -/
def Wait.Partial (w : Wait) : Prop := (delivered w.script).length < w.kind.size

/-- The state after a history, unless the tool exited on the way. -/
def after (s : Reports) : List Wait → Option Reports
  | [] => some s
  | w :: h => (waitFor w.kind s w.script).bind fun x => after x.2 h

/-- What the handler answers to chunks given one after the other. -/
def answers (k : Kind) (s : Reports) : List (List UInt8) → Option (List Bool)
  | [] => some []
  | buff :: chunks =>
    match handle k s buff with
    | none => none
    | some (s', b) => (answers k s' chunks).map (b :: ·)

/-- A whole response in any chunks ends the wait, is stored from the start of `repBuff`,
    and the handler says true to its last chunk only. -/
def Reassembles (k : Kind) (s : Reports) : Prop :=
  ∀ script resp, received script = some resp → resp.length = k.size →
    (∃ s', waitFor k s script = some (.noErr, s') ∧ s'.repBuff = overlay s.repBuff 0 resp) ∧
    answers k s (chunksOf script) = some (List.replicate ((chunksOf script).length - 1) false ++ [true])

/-! ## From index 0 -/

theorem chunksOf_received {script : List ReadEv} {resp : List UInt8} (h : received script = some resp) :
    (chunksOf script).flatten = resp ∧ ∀ c ∈ chunksOf script, c ≠ [] := by
  induction script generalizing resp with
  | nil => cases h; exact ⟨rfl, by simp [chunksOf]⟩
  | cons e script ih =>
    cases e with
    | idle => exact ih h
    | failed error => cases h
    | chunk buff =>
      simp only [received, Option.map_eq_some_iff] at h
      obtain ⟨rest, hrest, rfl⟩ := h
      obtain ⟨hflat, hne⟩ := ih hrest
      rw [chunksOf]
      by_cases hb : buff = []
      · rw [if_pos hb, hb, List.nil_append]
        exact ⟨hflat, hne⟩
      · rw [if_neg hb, List.flatten_cons, hflat]
        exact ⟨rfl, List.forall_mem_cons.mpr ⟨hb, hne⟩⟩

/-- Chunks that complete the response are answered true at the last of them only. -/
theorem answers_whole (k : Kind) (chunks : List (List UInt8)) (s : Reports) (hne : ∀ c ∈ chunks, c ≠ [])
    (hlt : s.index k < k.size) (hsum : s.index k + chunks.flatten.length = k.size) :
    answers k s chunks = some (List.replicate (chunks.length - 1) false ++ [true]) := by
  induction chunks generalizing s with
  | nil => simp only [List.flatten_nil, List.length_nil] at hsum; omega
  | cons c chunks ih =>
    have hpos := size_pos k
    have hc := List.length_pos_iff.mpr (hne c List.mem_cons_self)
    rw [List.flatten_cons, List.length_append] at hsum
    have hfits : ¬ (s.get k).index + c.length ≥ k.size - 1 + 1 + 1 := by
      show ¬ s.index k + c.length ≥ _
      omega
    cases chunks with
    | nil =>
      have hlast : (s.get k).index + c.length = k.size - 1 + 1 := by
        show s.index k + c.length = _
        simp only [List.flatten_nil, List.length_nil] at hsum
        omega
      simp [answers, handle, handler_eq, reportHandle, hlast]
    | cons d chunks =>
      have hd := List.length_pos_iff.mpr (hne d (by simp))
      have hmore : (s.get k).index + c.length ≠ k.size - 1 + 1 := by
        show s.index k + c.length ≠ _
        rw [List.flatten_cons, List.length_append] at hsum
        omega
      have hstep : handle k s c =
          some (s.put k ⟨overlay s.repBuff (s.index k) c, s.index k + c.length⟩, false) := by
        simp only [handle, handler_eq, reportHandle, if_neg hfits, if_neg hmore]
        rfl
      have hindex : (s.put k ⟨overlay s.repBuff (s.index k) c, s.index k + c.length⟩).index k = s.index k + c.length := by
        rw [index_put, if_pos rfl]
      have hrest := ih (s.put k ⟨overlay s.repBuff (s.index k) c, s.index k + c.length⟩)
        (fun x hx => hne x (List.mem_cons_of_mem _ hx))
        (by rw [List.flatten_cons, List.length_append] at hsum; omega) (by omega)
      rw [answers, hstep]
      simp only [hrest, Option.map_some]
      rfl

/-- A whole response is stored from the start. -/
theorem waitFor_whole {k : Kind} {s : Reports} {script : List ReadEv} {resp : List UInt8}
    (hr : received script = some resp) (hlen : resp.length = k.size) (h0 : s.index k = 0) :
    waitFor k s script = some (.noErr, s.put k ⟨overlay s.repBuff 0 resp, 0⟩) := by
  have hpos := size_pos k
  have hget : s.get k = ⟨s.repBuff, 0⟩ := by rw [Reports.get, h0]
  have hwait := wait_whole (k.size - 1) script ⟨s.repBuff, 0⟩ resp hr (by simp only; omega) (by simp only; omega)
    (Nat.zero_le _)
  rw [waitFor_eq, handler_eq, hget, hwait]
  rfl

theorem reassembles_iff (k : Kind) (s : Reports) : Reassembles k s ↔ s.index k = 0 := by
  constructor
  · intro h
    by_contra hne
    -- the whole response in one chunk overruns what is left of the buffer
    obtain ⟨⟨s', hs', -⟩, -⟩ := h [.chunk (List.replicate k.size 0)] (List.replicate k.size 0) (by simp [received])
      List.length_replicate
    have hpos := size_pos k
    have hno : List.replicate k.size (0 : UInt8) ≠ [] := by simp; omega
    have hover : (s.get k).index + (List.replicate k.size (0 : UInt8)).length ≥ k.size - 1 + 1 + 1 := by
      rw [List.length_replicate]
      show s.index k + k.size ≥ _
      omega
    rw [waitFor_eq, handler_eq, ttyWaitForFrame, if_neg hno, reportHandle, if_pos hover] at hs'
    cases hs'
  · intro h0 script resp hr hlen
    obtain ⟨hflat, hne⟩ := chunksOf_received hr
    refine ⟨⟨_, waitFor_whole hr hlen h0, put_repBuff _ _ _⟩, ?_⟩
    exact answers_whole k _ s hne (h0 ▸ size_pos k) (by rw [h0, hflat, Nat.zero_add, hlen])

/-! ## Histories -/

/-- A wait that brings no byte changes nothing. -/
theorem waitFor_empty (k : Kind) (s : Reports) {script : List ReadEv} (h : delivered script = []) :
    ∃ e, waitFor k s script = some (e, s) := by
  unfold waitFor
  induction script with
  | nil => exact ⟨_, rfl⟩
  | cons e script ih =>
    cases e with
    | idle => exact ih h
    | failed error => exact ⟨error.result, rfl⟩
    | chunk buff =>
      obtain ⟨hb, hrest⟩ := List.append_eq_nil_iff.mp h
      rw [ttyWaitForFrame, if_pos hb]
      exact ih hrest

theorem after_clean (h : List Wait) (s : Reports) (hwaits : ∀ w ∈ h, w.Whole ∨ delivered w.script = [])
    (h0 : ∀ k, s.index k = 0) : ∃ s', after s h = some s' ∧ ∀ k, s'.index k = 0 := by
  induction h generalizing s with
  | nil => exact ⟨s, rfl, h0⟩
  | cons w h ih =>
    have hrest : ∀ w' ∈ h, w'.Whole ∨ delivered w'.script = [] := fun w' hw' => hwaits w' (List.mem_cons_of_mem _ hw')
    rcases hwaits w List.mem_cons_self with ⟨resp, hr, hlen⟩ | hnone
    · have hw := waitFor_whole hr hlen (h0 w.kind)
      have hzero : ∀ k, (s.put w.kind ⟨overlay s.repBuff 0 resp, 0⟩).index k = 0 := by
        intro k
        rw [index_put]
        split
        · rfl
        · exact h0 k
      obtain ⟨s', hs', hz⟩ := ih _ hrest hzero
      exact ⟨s', by rw [after, hw]; exact hs', hz⟩
    · obtain ⟨e, hw⟩ := waitFor_empty w.kind s hnone
      obtain ⟨s', hs', hz⟩ := ih s hrest h0
      exact ⟨s', by rw [after, hw]; exact hs', hz⟩

/-- Every response is reassembled after a history whose timed-out waits brought nothing;
    after any history, exactly the responses whose handler's index is 0. -/
theorem reassembly (h : List Wait) (hh : ∀ w ∈ h, w.Whole ∨ w.Partial) :
    ((∀ w ∈ h, w.Partial → delivered w.script = []) → ∃ s, after .start h = some s ∧ ∀ k, Reassembles k s) ∧
    ∀ s, after .start h = some s → ∀ k, Reassembles k s ↔ s.index k = 0 := by
  refine ⟨fun hclean => ?_, fun s _ k => reassembles_iff k s⟩
  have hwaits : ∀ w ∈ h, w.Whole ∨ delivered w.script = [] := fun w hw => (hh w hw).imp id (hclean w hw)
  obtain ⟨s, hs, h0⟩ := after_clean h .start hwaits (fun k => by cases k <;> rfl)
  exact ⟨s, hs, fun k => (reassembles_iff k s).mpr (h0 k)⟩

/-- A version query answered in two chunks, an offer that gets no answer: the next
    response of every kind is reassembled. -/
theorem reassembly_after_silence :
    ∃ s, after .start [⟨.version, [.chunk (List.replicate 60 1), .idle, .chunk [2]]⟩, ⟨.offer, []⟩] = some s ∧
      ∀ k, Reassembles k s := by
  refine (reassembly [⟨.version, [.chunk (List.replicate 60 1), .idle, .chunk [2]]⟩, ⟨.offer, []⟩] ?_).1 ?_
  · simp only [List.mem_cons, List.not_mem_nil, or_false, forall_eq_or_imp, forall_eq]
    exact ⟨.inl ⟨_, rfl, rfl⟩, .inr (by unfold Wait.Partial; decide)⟩
  · simp only [List.mem_cons, List.not_mem_nil, or_false, forall_eq_or_imp, forall_eq]
    refine ⟨fun h => absurd h ?_, fun _ => rfl⟩
    unfold Wait.Partial
    decide

/-- A version query that times out after ten bytes, and the retry is answered in full:
    the tool exits. -/
theorem cut_response_exits :
    let h : List Wait := [⟨.version, [.chunk (List.replicate 10 1)]⟩]
    (∀ w ∈ h, w.Partial) ∧ ∃ s, after .start h = some s ∧
      waitFor .version s [.chunk (List.replicate 61 1)] = none ∧ ¬ Reassembles .version s := by
  refine ⟨?_, _, rfl, rfl, ?_⟩
  · intro w hw
    obtain rfl := List.mem_singleton.mp hw
    unfold Wait.Partial
    decide
  · rw [reassembles_iff]
    decide

end AmebaLinux.Rcp.FwUpdate
