/-
  AmebaLinux.Cmds.CaptouchRxBuffer — what the captouch tool stores in `cap_rx_buf` and
  copies into `tmp_buf` (see `AmebaLinux.Cmds.CaptouchFraming`).

  Nothing bounds what is collected before the braces match: `read` may store a whole
  buffer's length at any `cmd_rx_cnt`, and a full buffer leaves no terminator in
  `tmp_buf`.

  Proved:
  - `thread_isSome_iff`: the thread goes on exactly while every byte is stored in the
    buffer.
  - `rx_in_bounds_iff`: the buffers are kept to exactly when every run of reads after
    which the braces match for the first time has at most 1023 bytes, and the reads after
    the last such run at most 1024.
-/

import AmebaLinux.Cmds.CaptouchFraming

namespace AmebaLinux.Cmds.Captouch

/-! ## What is stored and what is copied -/

/-- Where `read` stores the bytes it returns. -/
def storedAt (s : Rx) (bytes : List UInt8) : List Nat := (List.range bytes.length).map (s.buf.length + ·)

/-- Every byte is stored in `cap_rx_buf`, and every copy leaves room for a terminator. -/
structure InBounds (reads : List (List UInt8)) : Prop where
  stored : ∀ pre c, pre ++ [c] <+: reads → ∃ s, uartRxThread .start pre = some s ∧ ∀ i ∈ storedAt s c, i < capRxBufLen
  copied : ∀ s, uartRxThread .start reads = some s → ∀ r ∈ s.requests, r.length ≤ 1023 ∧ 0 ∈ tmpBuf r

theorem uartRx_isSome_iff (s : Rx) (bytes : List UInt8) :
    (uartRx s bytes).isSome ↔ ∀ i ∈ storedAt s bytes, i < capRxBufLen := by
  have hstored : (∀ i ∈ storedAt s bytes, i < capRxBufLen) ↔ bytes = [] ∨ s.buf.length + bytes.length ≤ capRxBufLen := by
    simp only [storedAt, List.mem_map, List.mem_range, forall_exists_index, and_imp, forall_apply_eq_imp_iff₂]
    cases bytes with
    | nil => simp
    | cons b bytes =>
      simp only [List.length_cons, reduceCtorEq, false_or]
      refine ⟨fun h => ?_, fun h i hi => by omega⟩
      have hlast := h bytes.length (by omega)
      omega
  rw [hstored]
  unfold uartRx
  by_cases hnone : bytes = []
  · simp [hnone]
  · by_cases hlong : capRxBufLen < s.buf.length + bytes.length
    · simp [hnone, hlong]
    · rw [if_neg hnone, if_neg hlong]
      dsimp only
      refine iff_of_true ?_ (.inr (by omega))
      split
      · rfl
      · rfl

theorem uartRxThread_snoc (s : Rx) (reads : List (List UInt8)) (c : List UInt8) :
    uartRxThread s (reads ++ [c]) = (uartRxThread s reads).bind (uartRx · c) := by
  simp [uartRxThread]

/-- The thread goes on exactly while every byte is stored in the buffer. -/
theorem thread_isSome_iff (s : Rx) (reads : List (List UInt8)) :
    (uartRxThread s reads).isSome ↔
      ∀ pre c, pre ++ [c] <+: reads → ∃ s', uartRxThread s pre = some s' ∧ ∀ i ∈ storedAt s' c, i < capRxBufLen := by
  induction reads using List.reverseRecOn with
  | nil => simp [uartRxThread]
  | append_singleton reads d ih =>
    rw [uartRxThread_snoc]
    constructor
    · intro h pre c hpre
      obtain ⟨last, hlast⟩ := Option.isSome_iff_exists.mp h
      obtain ⟨s', hrun, hstep⟩ := Option.bind_eq_some_iff.mp hlast
      rcases List.prefix_concat_iff.mp hpre with heq | hearlier
      · obtain ⟨rfl, hc⟩ := List.append_inj' heq rfl
        cases hc
        exact ⟨s', hrun, (uartRx_isSome_iff s' _).mp (by rw [hstep]; rfl)⟩
      · exact ih.mp (by rw [hrun]; rfl) pre c hearlier
    · intro h
      obtain ⟨s', hrun, hstored⟩ := h reads d (List.prefix_refl _)
      rw [hrun]
      exact (uartRx_isSome_iff s' d).mpr hstored

theorem uartRxThread_filter (s : Rx) (reads : List (List UInt8)) :
    uartRxThread s (reads.filter (· ≠ [])) = uartRxThread s reads := by
  induction reads generalizing s with
  | nil => rfl
  | cons c reads ih =>
    by_cases hnone : c = []
    · subst hnone
      have hskip : uartRx s [] = some s := rfl
      rw [List.filter_cons_of_neg (by simp), ih, uartRxThread_cons, hskip]
      rfl
    · rw [List.filter_cons_of_pos (by simpa using hnone), uartRxThread_cons, uartRxThread_cons]
      congr 1
      funext s'
      exact ih s'

/-! ## The runs of reads -/

/-- The runs of reads after which the braces match for the first time, and the reads
    after them. -/
structure Cut (reads : List (List UInt8)) (groups : List (List (List UInt8))) (rest : List (List UInt8)) : Prop where
  split : reads = groups.flatten ++ rest
  closed : ∀ group ∈ groups, Framed [] group group.flatten
  pending : ∀ pre, pre <+: rest → ¬ Balanced pre.flatten
  fits : rest.flatten.length ≤ capRxBufLen

/-- When nothing is handed on, the braces never match. -/
theorem open_of_none {buf : List UInt8} {reads requests : List (List UInt8)} {s : Rx} (hsome : ∀ c ∈ reads, c ≠ [])
    (hbuf : ¬ Balanced buf) (hfits : buf.length ≤ capRxBufLen)
    (h : uartRxThread (.collected buf requests) reads = some s) (hs : s.requests = requests) :
    (∀ pre, pre <+: reads → ¬ Balanced (buf ++ pre.flatten)) ∧ (buf ++ reads.flatten).length ≤ capRxBufLen := by
  induction reads generalizing buf with
  | nil =>
    refine ⟨?_, by simpa using hfits⟩
    intro pre hpre
    rw [List.prefix_nil.mp hpre]
    simpa using hbuf
  | cons c reads ih =>
    have hrest : ∀ d ∈ reads, d ≠ [] := fun d hd => hsome d (by simp [hd])
    rw [uartRxThread_cons, uartRx_collected buf requests (hsome c (by simp))] at h
    split at h
    case isTrue => cases h
    case isFalse hlong =>
      split at h
      case isTrue =>
        have hpre := requests_prefix hrest h
        have hlen := hpre.length_le
        rw [hs, List.length_append, List.length_singleton] at hlen
        omega
      case isFalse hopen =>
        obtain ⟨hpre, hlen⟩ := ih hrest hopen (by omega) h
        refine ⟨?_, by simpa using hlen⟩
        intro pre hp
        rcases List.prefix_cons_iff.mp hp with rfl | ⟨t, rfl, ht⟩
        · simpa using hbuf
        · simpa using hpre t ht

/-- What goes on is cut into the requests that are handed on. -/
theorem cut_of_run {reads before : List (List UInt8)} {s : Rx} (hsome : ∀ c ∈ reads, c ≠ [])
    (h : uartRxThread (.collected [] before) reads = some s) :
    ∃ groups rest, Cut reads groups rest ∧ s.requests = before ++ groups.map List.flatten := by
  -- each request takes at least one read off the front
  induction hn : reads.length using Nat.strong_induction_on generalizing reads before with
  | _ n ih =>
    obtain ⟨requests, hrequests⟩ := requests_prefix hsome h
    cases requests with
    | nil =>
      rw [List.append_nil] at hrequests
      obtain ⟨hopen, hfits⟩ := open_of_none hsome (by decide) (Nat.zero_le _) h hrequests.symm
      exact ⟨[], reads, ⟨rfl, by simp, hopen, hfits⟩, by simp [hrequests]⟩
    | cons r more =>
      obtain ⟨group, tail, rfl, hframed⟩ := served_framed hsome h hrequests.symm
      have hbytes : group.flatten = r := hframed.bytes
      subst hbytes
      have hg : ∀ c ∈ group, c ≠ [] := fun c hc => hsome c (by simp [hc])
      have htail : ∀ c ∈ tail, c ≠ [] := fun c hc => hsome c (by simp [hc])
      have hshort : tail.length < n := by
        have := List.length_pos_of_ne_nil hframed.some
        rw [← hn, List.length_append]
        omega
      rw [framed_served hg hframed] at h
      obtain ⟨groups, rest, hcut, hs⟩ := ih _ hshort htail h rfl
      refine ⟨group :: groups, rest, ⟨?_, ?_, hcut.pending, hcut.fits⟩, ?_⟩
      · rw [hcut.split, List.flatten_cons, List.append_assoc]
      · intro g hmem
        rcases List.mem_cons.mp hmem with rfl | hmem
        · exact hframed
        · exact hcut.closed g hmem
      · rw [hs, List.append_assoc, List.map_cons, List.singleton_append]

/-- What can be cut goes on. -/
theorem run_of_cut {reads rest : List (List UInt8)} {groups : List (List (List UInt8))} (hsome : ∀ c ∈ reads, c ≠ [])
    (h : Cut reads groups rest) (before : List (List UInt8)) :
    uartRxThread (.collected [] before) reads = some (.collected rest.flatten (before ++ groups.map List.flatten)) := by
  obtain ⟨rfl, hclosed, hopen, hfits⟩ := h
  induction groups generalizing before with
  | nil =>
    have hrun := @open_collected [] rest before (by simpa using hsome) (by simpa using hopen) (Nat.zero_le _)
    rw [List.nil_append, if_pos hfits] at hrun
    simpa using hrun
  | cons group groups ih =>
    rw [List.flatten_cons, List.append_assoc] at hsome ⊢
    rw [framed_served (fun c hc => hsome c (by simp [hc])) (hclosed group (by simp)),
      ih _ (fun g hg => hclosed g (by simp [hg])) fun c hc => hsome c (List.mem_append_right _ hc)]
    simp

/-! ## Staying in bounds -/

theorem copied_iff (r : List UInt8) : r.length ≤ 1023 ∧ 0 ∈ tmpBuf r ↔ r.length < capRxBufLen := by
  rw [capRxBufLen]
  refine ⟨fun h => by omega, fun h => ⟨by omega, ?_⟩⟩
  have hroom : 1024 - r.length ≠ 0 := by omega
  simp [tmpBuf, capRxBufLen, hroom]

theorem inBounds_iff_run (reads : List (List UInt8)) :
    InBounds reads ↔ ∃ s, uartRxThread .start reads = some s ∧ ∀ r ∈ s.requests, r.length < capRxBufLen := by
  constructor
  · intro h
    obtain ⟨s, hrun⟩ := Option.isSome_iff_exists.mp ((thread_isSome_iff .start reads).mpr h.stored)
    exact ⟨s, hrun, fun r hr => (copied_iff r).mp (h.copied s hrun r hr)⟩
  · intro h
    obtain ⟨s, hrun, hshort⟩ := h
    refine ⟨(thread_isSome_iff .start reads).mp (by rw [hrun]; rfl), ?_⟩
    intro s' hs' r hr
    rw [hrun] at hs'
    cases hs'
    exact (copied_iff r).mpr (hshort r hr)

/-- Which reads stay in bounds. -/
theorem rx_in_bounds_iff (reads : List (List UInt8)) :
    InBounds reads ↔
      ∃ (groups : List (List (List UInt8))) (rest : List (List UInt8)),
        reads.filter (· ≠ []) = groups.flatten ++ rest ∧
        (∀ group ∈ groups, Framed [] group group.flatten ∧ group.flatten.length ≤ 1023) ∧
        (∀ pre, pre <+: rest → ¬ Balanced pre.flatten) ∧ rest.flatten.length ≤ 1024 := by
  have hsome : ∀ c ∈ reads.filter (· ≠ []), c ≠ [] := by simp
  have hstart : Rx.start = .collected [] [] := rfl
  rw [inBounds_iff_run, ← uartRxThread_filter, hstart]
  constructor
  · intro h
    obtain ⟨s, hrun, hshort⟩ := h
    obtain ⟨groups, rest, hcut, hs⟩ := cut_of_run hsome hrun
    refine ⟨groups, rest, hcut.split, ?_, hcut.pending, hcut.fits⟩
    intro group hg
    have hlen := hshort group.flatten (by rw [hs]; exact List.mem_map_of_mem hg)
    exact ⟨hcut.closed group hg, Nat.le_of_lt_succ hlen⟩
  · intro h
    obtain ⟨groups, rest, hsplit, hgroups, hopen, hfits⟩ := h
    have hcut : Cut (reads.filter (· ≠ [])) groups rest := ⟨hsplit, fun g hg => (hgroups g hg).1, hopen, hfits⟩
    refine ⟨_, run_of_cut hsome hcut [], ?_⟩
    intro r hr
    obtain ⟨group, hg, rfl⟩ := List.mem_map.mp hr
    exact Nat.lt_succ_of_le (hgroups group hg).2

/-- A byte after 1024 others without braces is stored past the end, and a request of 1024
    bytes is copied without a terminator. -/
theorem rx_out_of_bounds :
    ¬ InBounds [List.replicate 1024 0x61, [0x61]] ∧
      ¬ InBounds [openBrace :: List.replicate 1022 0x61 ++ [closeBrace]] := by
  have hpast : uartRxThread .start [List.replicate 1024 0x61, [0x61]] = none := by decide +kernel
  have hfull : ((uartRxThread .start [openBrace :: List.replicate 1022 0x61 ++ [closeBrace]]).map
      fun s => s.requests.map List.length) = some [1024] := by decide +kernel
  rw [inBounds_iff_run, inBounds_iff_run]
  refine ⟨?_, ?_⟩
  · intro h
    obtain ⟨s, hrun, -⟩ := h
    rw [hpast] at hrun
    cases hrun
  · intro h
    obtain ⟨s, hrun, hshort⟩ := h
    rw [hrun, Option.map_some, Option.some_inj] at hfull
    obtain ⟨r, hr, hlen⟩ := List.mem_map.mp (show 1024 ∈ s.requests.map List.length by rw [hfull]; simp)
    exact absurd (hshort r hr) (by rw [hlen]; decide)

end AmebaLinux.Cmds.Captouch
