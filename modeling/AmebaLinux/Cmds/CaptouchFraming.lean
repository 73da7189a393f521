/-
  AmebaLinux.Cmds.CaptouchFraming — how the captouch tool cuts its input into requests
  (`cmds/captouch/captouch_app.c`: `uart_rx_thread`, the start of `cap_rx_process`).

  `uart_rx_thread` appends what it reads to `cap_rx_buf` and counts the braces; when a
  read leaves as many closing as opening ones, and some, it posts `rx_sema`, and
  `cap_rx_process` copies the whole buffer to `tmp_buf` and parses it as a string. It runs
  to completion before the next read. `read` is given the length of the whole buffer
  wherever it stores, so a read that runs past the end is a fault (`none`); so is a copy
  that leaves no terminator in `tmp_buf`.

  Proved:
  - `framing_iff`: every request reaches `cap_rx_process` as it is exactly when no noise
    came before, each request ends with a read of its own, its braces match in number,
    they match after none of its earlier reads, and it fits in the buffer with its
    terminator. Two requests in one read are taken for one (`joined_requests`).
-/

import AmebaLinux.Lib.CString

namespace AmebaLinux.Cmds.Captouch

open AmebaLinux.Lib.CString

def capRxBufLen : Nat := 1024

def openBrace : UInt8 := 0x7b
def closeBrace : UInt8 := 0x7d

structure Rx where
  /-- The first `cmd_rx_cnt` bytes of `cap_rx_buf`. -/
  buf : List UInt8
  cmdStartCnt : UInt32
  cmdEndCnt : UInt32
  /-- What `cap_rx_process` copied, call after call. -/
  requests : List (List UInt8)
  deriving DecidableEq, Repr

def Rx.start : Rx := ⟨[], 0, 0, []⟩

/-- The loop over the bytes of a read. -/
def countBrace (s : Rx) (sig : UInt8) : Rx :=
  if sig = openBrace then { s with cmdStartCnt := s.cmdStartCnt + 1 }
  else if sig = closeBrace then { s with cmdEndCnt := s.cmdEndCnt + 1 }
  else s

/-- `cap_rx_process` up to the text it parses. -/
def capRxProcess (s : Rx) : Rx := { s with buf := [], requests := s.requests ++ [s.buf] }

/-- A turn of `uart_rx_thread`, with the bytes that `read` returns. -/
def uartRx (s : Rx) (bytes : List UInt8) : Option Rx :=
  if bytes = [] then some s
  else if capRxBufLen < s.buf.length + bytes.length then none
  else
    let s := bytes.foldl countBrace { s with buf := s.buf ++ bytes }
    if s.cmdStartCnt ≠ 0 ∧ s.cmdStartCnt = s.cmdEndCnt then some (capRxProcess { s with cmdStartCnt := 0, cmdEndCnt := 0 })
    else some s

def uartRxThread (s : Rx) (reads : List (List UInt8)) : Option Rx := reads.foldlM uartRx s

/-- `tmp_buf` of `cap_rx_process`: cleared, then `cmd_rx_cnt` bytes copied. -/
def tmpBuf (r : List UInt8) : List UInt8 := r ++ List.replicate (capRxBufLen - r.length) 0

/-- The texts that were parsed, call after call. -/
def serve (reads : List (List UInt8)) : Option (List (List UInt8)) := do
  let s ← uartRxThread .start reads
  s.requests.mapM fun r => strAt (tmpBuf r)

/-! ## One read -/

/-- Braces in equal number, and some. -/
def Balanced (bytes : List UInt8) : Prop := bytes.count openBrace ≠ 0 ∧ bytes.count openBrace = bytes.count closeBrace

instance (bytes : List UInt8) : Decidable (Balanced bytes) := inferInstanceAs (Decidable (_ ∧ _))

/-- The state with `buf` collected: the counters count its braces. -/
def Rx.collected (buf : List UInt8) (requests : List (List UInt8)) : Rx :=
  ⟨buf, .ofNat (buf.count openBrace), .ofNat (buf.count closeBrace), requests⟩

theorem countBrace_foldl (s : Rx) (bytes : List UInt8) :
    bytes.foldl countBrace s =
      { s with cmdStartCnt := s.cmdStartCnt + .ofNat (bytes.count openBrace),
               cmdEndCnt := s.cmdEndCnt + .ofNat (bytes.count closeBrace) } := by
  induction bytes generalizing s with
  | nil => simp
  | cons sig bytes ih =>
    rw [List.foldl_cons, ih]
    unfold countBrace
    by_cases hopen : sig = openBrace
    · have hclose : openBrace ≠ closeBrace := by decide
      simp [hopen, hclose, UInt32.ofNat_add, UInt32.add_assoc, UInt32.add_comm 1]
    · by_cases hclose : sig = closeBrace
      · simp [hclose, openBrace, closeBrace, UInt32.ofNat_add, UInt32.add_assoc, UInt32.add_comm 1]
      · simp [hopen, hclose]

theorem balanced_counters {bytes : List UInt8} (h : bytes.length ≤ capRxBufLen) :
    (UInt32.ofNat (bytes.count openBrace) ≠ 0 ∧
      UInt32.ofNat (bytes.count openBrace) = UInt32.ofNat (bytes.count closeBrace)) ↔ Balanced bytes := by
  have hopen : bytes.count openBrace ≤ 1024 := List.count_le_length.trans h
  have hclose : bytes.count closeBrace ≤ 1024 := List.count_le_length.trans h
  have hsmall : ∀ {a b : Nat}, a ≤ 1024 → b ≤ 1024 → (UInt32.ofNat a = UInt32.ofNat b ↔ a = b) := by
    intro a b ha hb
    rw [← UInt32.toNat_inj, UInt32.toNat_ofNat', UInt32.toNat_ofNat', Nat.mod_eq_of_lt (by omega), Nat.mod_eq_of_lt (by omega)]
  have hzero : (0 : UInt32) = UInt32.ofNat 0 := rfl
  unfold Balanced
  rw [hzero, ne_eq, hsmall hopen (by omega), hsmall hopen hclose]

/-- A read, in terms of the braces collected. -/
theorem uartRx_collected (buf : List UInt8) (requests : List (List UInt8)) {bytes : List UInt8} (hsome : bytes ≠ []) :
    uartRx (.collected buf requests) bytes =
      if capRxBufLen < (buf ++ bytes).length then none
      else if Balanced (buf ++ bytes) then some (.collected [] (requests ++ [buf ++ bytes]))
      else some (.collected (buf ++ bytes) requests) := by
  have hcounted : bytes.foldl countBrace { Rx.collected buf requests with buf := buf ++ bytes } =
      .collected (buf ++ bytes) requests := by
    rw [countBrace_foldl]
    simp [Rx.collected, UInt32.ofNat_add]
  unfold uartRx
  rw [if_neg hsome, List.length_append]
  by_cases hlong : capRxBufLen < buf.length + bytes.length
  · rw [if_pos hlong]
    exact if_pos hlong
  · rw [if_neg hlong]
    refine (if_neg hlong).trans ?_
    have hfits : (buf ++ bytes).length ≤ capRxBufLen := by
      rw [List.length_append]
      omega
    have hpost : ∀ s, s = Rx.collected (buf ++ bytes) requests →
        (if s.cmdStartCnt ≠ 0 ∧ s.cmdStartCnt = s.cmdEndCnt then
          some (capRxProcess { s with cmdStartCnt := 0, cmdEndCnt := 0 }) else some s) =
        if Balanced (buf ++ bytes) then some (.collected [] (requests ++ [buf ++ bytes]))
        else some (.collected (buf ++ bytes) requests) := by
      rintro s rfl
      exact if_congr (balanced_counters hfits) rfl rfl
    exact hpost _ hcounted

/-! ## The reads of one request -/

/-- The reads `group` complete the request `r`, of which `buf` is there. -/
structure Framed (buf : List UInt8) (group : List (List UInt8)) (r : List UInt8) : Prop where
  some : group ≠ []
  bytes : buf ++ group.flatten = r
  fits : r.length ≤ capRxBufLen
  closed : Balanced r
  first : ∀ pre, pre <+: group → pre ≠ [] → pre ≠ group → ¬ Balanced (buf ++ pre.flatten)

theorem framed_single {buf c r : List UInt8} :
    Framed buf [c] r ↔ r = buf ++ c ∧ (buf ++ c).length ≤ capRxBufLen ∧ Balanced (buf ++ c) := by
  constructor
  · rintro ⟨-, rfl, hfits, hclosed, -⟩
    rw [List.flatten_singleton] at hfits hclosed ⊢
    exact ⟨rfl, hfits, hclosed⟩
  · rintro ⟨rfl, hfits, hclosed⟩
    refine ⟨by simp, by simp, hfits, hclosed, ?_⟩
    intro pre hpre hne hwhole
    rcases List.prefix_cons_iff.mp hpre with rfl | ⟨t, rfl, ht⟩
    · exact absurd rfl hne
    · exact absurd (by rw [List.prefix_nil.mp ht]) hwhole

theorem framed_cons {buf c r : List UInt8} {group : List (List UInt8)} (hg : group ≠ []) :
    Framed buf (c :: group) r ↔ ¬ Balanced (buf ++ c) ∧ Framed (buf ++ c) group r := by
  constructor
  · rintro ⟨-, hbytes, hfits, hclosed, hfirst⟩
    refine ⟨?_, hg, by rw [← hbytes]; simp, hfits, hclosed, ?_⟩
    · have := hfirst [c] (by simp) (by simp) (by simpa using hg)
      simpa using this
    · intro pre hpre hne hwhole
      have := hfirst (c :: pre) (by simpa using hpre) (by simp) (by simpa using hwhole)
      simpa using this
  · rintro ⟨hnot, -, hbytes, hfits, hclosed, hfirst⟩
    refine ⟨by simp, by rw [← hbytes]; simp, hfits, hclosed, ?_⟩
    intro pre hpre hne hwhole
    rcases List.prefix_cons_iff.mp hpre with rfl | ⟨t, rfl, ht⟩
    · exact absurd rfl hne
    · by_cases hnil : t = []
      · simpa [hnil] using hnot
      · have := hfirst t ht hnil (by simpa using hwhole)
        simpa using this

theorem Framed.fits_head {buf c r : List UInt8} {group : List (List UInt8)} (h : Framed buf (c :: group) r) :
    (buf ++ c).length ≤ capRxBufLen := by
  have hfits := h.fits
  rw [← h.bytes] at hfits
  simp only [List.flatten_cons, List.length_append] at hfits ⊢
  omega

theorem uartRxThread_cons (s : Rx) (c : List UInt8) (reads : List (List UInt8)) :
    uartRxThread s (c :: reads) = (uartRx s c).bind (uartRxThread · reads) := List.foldlM_cons

/-- Reads that complete a request hand it on. -/
theorem framed_served {buf r : List UInt8} {group : List (List UInt8)} (hsome : ∀ c ∈ group, c ≠ [])
    (h : Framed buf group r) (requests reads : List (List UInt8)) :
    uartRxThread (.collected buf requests) (group ++ reads) = uartRxThread (.collected [] (requests ++ [r])) reads := by
  induction group generalizing buf with
  | nil => exact absurd rfl h.some
  | cons c group ih =>
    have hc : c ≠ [] := hsome c (by simp)
    have hfits := h.fits_head
    rw [List.cons_append, uartRxThread_cons, uartRx_collected buf requests hc, if_neg (by omega)]
    by_cases hg : group = []
    · subst hg
      obtain ⟨rfl, -, hclosed⟩ := framed_single.mp h
      rw [if_pos hclosed]
      rfl
    · obtain ⟨hnot, hrest⟩ := (framed_cons hg).mp h
      rw [if_neg hnot]
      exact ih (fun d hd => hsome d (by simp [hd])) hrest

/-- As long as the braces never match, the reads are only collected. -/
theorem open_collected {buf : List UInt8} {reads requests : List (List UInt8)} (hsome : ∀ c ∈ reads, c ≠ [])
    (hopen : ∀ pre, pre <+: reads → ¬ Balanced (buf ++ pre.flatten)) (hfits : buf.length ≤ capRxBufLen) :
    uartRxThread (.collected buf requests) reads =
      if (buf ++ reads.flatten).length ≤ capRxBufLen then some (.collected (buf ++ reads.flatten) requests) else none := by
  induction reads generalizing buf with
  | nil => simp [uartRxThread, hfits]
  | cons c reads ih =>
    have hnot : ¬ Balanced (buf ++ c) := by simpa using hopen [c] (by simp)
    rw [uartRxThread_cons, uartRx_collected buf requests (hsome c (by simp)), if_neg hnot]
    by_cases hlong : capRxBufLen < (buf ++ c).length
    · rw [if_pos hlong, if_neg]
      · rfl
      · simp only [List.flatten_cons, List.length_append] at hlong ⊢
        omega
    · rw [if_neg hlong, List.flatten_cons, ← List.append_assoc]
      refine ih (fun d hd => hsome d (by simp [hd])) ?_ (by omega)
      intro pre hpre
      simpa using hopen (c :: pre) (by simpa using hpre)

/-- What was handed on stays first. -/
theorem requests_prefix {buf : List UInt8} {requests reads : List (List UInt8)} {s : Rx} (hsome : ∀ c ∈ reads, c ≠ [])
    (h : uartRxThread (.collected buf requests) reads = some s) : requests <+: s.requests := by
  induction reads generalizing buf requests with
  | nil =>
    cases h
    exact List.prefix_refl requests
  | cons c reads ih =>
    have hrest : ∀ d ∈ reads, d ≠ [] := fun d hd => hsome d (by simp [hd])
    rw [uartRxThread_cons, uartRx_collected buf requests (hsome c (by simp))] at h
    split at h
    · cases h
    · split at h
      · exact (List.prefix_append requests _).trans (ih hrest h)
      · exact ih hrest h

/-- The first request that is handed on was completed by the first reads. -/
theorem served_framed {buf r : List UInt8} {requests rest reads : List (List UInt8)} {s : Rx} (hsome : ∀ c ∈ reads, c ≠ [])
    (h : uartRxThread (.collected buf requests) reads = some s) (hs : s.requests = requests ++ r :: rest) :
    ∃ group tail, reads = group ++ tail ∧ Framed buf group r := by
  induction reads generalizing buf with
  | nil =>
    cases h
    simp [Rx.collected] at hs
  | cons c reads ih =>
    have hrest : ∀ d ∈ reads, d ≠ [] := fun d hd => hsome d (by simp [hd])
    rw [uartRxThread_cons, uartRx_collected buf requests (hsome c (by simp))] at h
    split at h
    case isTrue => cases h
    case isFalse hfits =>
      split at h
      case isTrue hclosed =>
        have hpre := requests_prefix hrest h
        rw [hs, List.prefix_append_right_inj] at hpre
        have hr : buf ++ c = r := by
          obtain ⟨_, hpre⟩ := hpre
          simp only [List.cons_append, List.nil_append, List.cons.injEq] at hpre
          exact hpre.1
        exact ⟨[c], reads, rfl, framed_single.mpr ⟨hr.symm, by omega, hclosed⟩⟩
      case isFalse hopen =>
        obtain ⟨group, tail, hreads, hframed⟩ := ih hrest h
        exact ⟨c :: group, tail, by rw [hreads]; rfl, (framed_cons hframed.some).mpr ⟨hopen, hframed⟩⟩

/-! ## Requests after noise -/

/-- Requests after noise, and the reads they come in. The text of an object begins with its
    brace and has no NUL. -/
structure Traffic where
  noise : List UInt8
  requests : List (List UInt8)
  reads : List (List UInt8)
  quiet : openBrace ∉ noise
  object : ∀ r ∈ requests, r.head? = some openBrace
  text : ∀ r ∈ requests, 0 ∉ r
  split : reads.flatten = noise ++ requests.flatten
  some : ∀ c ∈ reads, c ≠ []

/-- Noise alone is only collected. -/
theorem noise_collected {buf : List UInt8} {reads requests : List (List UInt8)} (hsome : ∀ c ∈ reads, c ≠ [])
    (hquiet : openBrace ∉ buf ++ reads.flatten) (hfits : buf.length ≤ capRxBufLen) :
    uartRxThread (.collected buf requests) reads =
      if (buf ++ reads.flatten).length ≤ capRxBufLen then some (.collected (buf ++ reads.flatten) requests) else none := by
  refine open_collected hsome ?_ hfits
  intro pre hpre
  obtain ⟨post, rfl⟩ := hpre
  intro hclosed
  refine hclosed.1 (List.count_eq_zero.mpr fun hmem => hquiet ?_)
  rw [List.flatten_append, ← List.append_assoc]
  exact List.mem_append_left _ hmem

/-- Without noise. -/
theorem serve_iff {requests reads : List (List UInt8)} (hsome : ∀ c ∈ reads, c ≠ [])
    (hsplit : reads.flatten = requests.flatten) (before : List (List UInt8)) :
    (uartRxThread (.collected [] before) reads).map (·.requests) = some (before ++ requests) ↔
      ∃ groups, reads = groups.flatten ∧ List.Forall₂ (Framed []) groups requests := by
  induction requests generalizing reads before with
  | nil =>
    have hnone : reads = [] := by
      by_contra hne
      obtain ⟨c, reads, rfl⟩ := List.exists_cons_of_ne_nil hne
      have := hsome c (by simp)
      simp_all
    subst hnone
    refine iff_of_true ?_ ⟨[], rfl, .nil⟩
    simp [uartRxThread, Rx.collected]
  | cons r requests ih =>
    constructor
    · intro h
      obtain ⟨s, hrun, hs⟩ := Option.map_eq_some_iff.mp h
      obtain ⟨group, tail, rfl, hframed⟩ := served_framed hsome hrun hs
      have hg : ∀ c ∈ group, c ≠ [] := fun c hc => hsome c (by simp [hc])
      have htail : ∀ c ∈ tail, c ≠ [] := fun c hc => hsome c (by simp [hc])
      have hbytes : group.flatten = r := hframed.bytes
      rw [framed_served hg hframed, List.append_cons before r requests] at h
      rw [List.flatten_append, hbytes, List.flatten_cons, List.append_cancel_left_eq] at hsplit
      obtain ⟨groups, rfl, hgroups⟩ := (ih htail hsplit _).mp h
      exact ⟨group :: groups, rfl, .cons hframed hgroups⟩
    · rintro ⟨groups, rfl, hgroups⟩
      cases hgroups with
      | @cons group _ groups _ hframed hgroups =>
        rw [List.flatten_cons] at hsome hsplit ⊢
        have hbytes : group.flatten = r := hframed.bytes
        rw [List.flatten_append, hbytes, List.flatten_cons, List.append_cancel_left_eq] at hsplit
        rw [framed_served (fun c hc => hsome c (by simp [hc])) hframed, List.append_cons before r requests]
        exact (ih (fun c hc => hsome c (by simp [hc])) hsplit _).mpr ⟨groups, rfl, hgroups⟩

/-! ## The texts that are parsed -/

/-- What is handed on is cut off the front of what is read. -/
theorem requests_cut {buf : List UInt8} {requests reads : List (List UInt8)} {s : Rx} (hsome : ∀ c ∈ reads, c ≠ [])
    (h : uartRxThread (.collected buf requests) reads = some s) :
    ∃ new, s.requests = requests ++ new ∧ new.flatten ++ s.buf = buf ++ reads.flatten := by
  induction reads generalizing buf requests with
  | nil =>
    cases h
    exact ⟨[], by simp [Rx.collected]⟩
  | cons c reads ih =>
    have hrest : ∀ d ∈ reads, d ≠ [] := fun d hd => hsome d (by simp [hd])
    rw [uartRxThread_cons, uartRx_collected buf requests (hsome c (by simp))] at h
    split at h
    · cases h
    · split at h
      · obtain ⟨new, hs, hbytes⟩ := ih hrest h
        exact ⟨(buf ++ c) :: new, by simp [hs], by simpa using hbytes⟩
      · obtain ⟨new, hs, hbytes⟩ := ih hrest h
        exact ⟨new, hs, by simpa using hbytes⟩

/-- A request is parsed as it was copied exactly if there is room for its terminator. -/
theorem text_eq_some_iff {r : List UInt8} (h : 0 ∉ r) (t : List UInt8) :
    strAt (tmpBuf r) = some t ↔ t = r ∧ r.length < capRxBufLen := by
  by_cases hroom : r.length < capRxBufLen
  · obtain ⟨n, hn⟩ : ∃ n, capRxBufLen - r.length = n + 1 := ⟨capRxBufLen - r.length - 1, by omega⟩
    rw [tmpBuf, hn, List.replicate_succ, strAt_terminated h, Option.some_inj]
    exact ⟨fun e => ⟨e.symm, hroom⟩, fun e => e.1.symm⟩
  · have hfull : capRxBufLen - r.length = 0 := by omega
    rw [tmpBuf, hfull, List.replicate_zero, List.append_nil, strAt_eq, if_neg h]
    simp [hroom]

theorem texts_eq_some_iff {copies : List (List UInt8)} (h : ∀ r ∈ copies, 0 ∉ r) (texts : List (List UInt8)) :
    copies.mapM (fun r => strAt (tmpBuf r)) = some texts ↔ texts = copies ∧ ∀ r ∈ copies, r.length < capRxBufLen := by
  induction copies generalizing texts with
  | nil =>
    simp [eq_comm]
  | cons r copies ih =>
    have hrest := ih fun c hc => h c (by simp [hc])
    simp only [List.mapM_cons, Option.bind_eq_bind, Option.bind_eq_some_iff, Option.pure_def, Option.some_inj,
      text_eq_some_iff (h r (by simp)), hrest, List.forall_mem_cons]
    constructor
    · intro ⟨_, ⟨rfl, hr⟩, _, ⟨rfl, hcopies⟩, htexts⟩
      exact ⟨htexts.symm, hr, hcopies⟩
    · intro ⟨htexts, hr, hcopies⟩
      exact ⟨r, ⟨rfl, hr⟩, copies, ⟨rfl, hcopies⟩, htexts.symm⟩

/-- Noise becomes part of the first request. -/
theorem noise_not_served (t : Traffic) (hnoise : t.noise ≠ []) (hrequests : t.requests ≠ []) :
    serve t.reads ≠ some t.requests := by
  intro h
  obtain ⟨r, rest, hr⟩ := List.exists_cons_of_ne_nil hrequests
  obtain ⟨b, noise, hb⟩ := List.exists_cons_of_ne_nil hnoise
  obtain ⟨s, hrun, htexts⟩ := Option.bind_eq_some_iff.mp h
  obtain ⟨copies, hs, hbytes⟩ := @requests_cut [] [] t.reads s t.some hrun
  rw [List.nil_append] at hs hbytes
  rw [hs, hr] at htexts
  cases copies with
  | nil => simp at htexts
  | cons c copies =>
    -- the first text begins as the noise does
    simp only [List.mapM_cons, Option.bind_eq_bind, Option.bind_eq_some_iff, Option.pure_def, Option.some_inj] at htexts
    obtain ⟨text, htext, texts, -, heq⟩ := htexts
    obtain ⟨rfl, -⟩ := List.cons.inj heq
    have hhead : text.head? = some openBrace := t.object text (by simp [hr])
    have hfirst : c.head? = some openBrace := by
      rw [strAt_eq] at htext
      split at htext
      · cases htext
        rw [tmpBuf, cstr_padded] at hhead
        cases c with
        | nil => cases hhead
        | cons x c =>
          rw [cstr_cons] at hhead
          split at hhead
          · cases hhead
          · exact hhead
      · cases htext
    cases c with
    | nil => cases hfirst
    | cons x c =>
      cases hfirst
      rw [t.split, hb, List.flatten_cons, List.cons_append, List.cons_append, List.cons_append, List.cons.injEq] at hbytes
      exact t.quiet (by rw [hb, ← hbytes.1]; simp)

/-- Which traffic is framed right. -/
theorem framing_iff (t : Traffic) :
    serve t.reads = some t.requests ↔
      (t.requests = [] ∧ t.noise.length ≤ capRxBufLen) ∨
      (t.noise = [] ∧ (∀ r ∈ t.requests, r.length < capRxBufLen) ∧
        ∃ groups, t.reads = groups.flatten ∧ List.Forall₂ (Framed []) groups t.requests) := by
  by_cases hrequests : t.requests = []
  · have hflat : t.reads.flatten = t.noise := by rw [t.split, hrequests]; simp
    have hrun : uartRxThread .start t.reads =
        if t.noise.length ≤ capRxBufLen then some (.collected t.noise []) else none := by
      show uartRxThread (.collected [] []) t.reads = _
      rw [noise_collected t.some (by rw [List.nil_append, hflat]; exact t.quiet) (Nat.zero_le _), List.nil_append, hflat]
    have hserve : serve t.reads = some t.requests ↔ t.noise.length ≤ capRxBufLen := by
      rw [serve, hrun, hrequests]
      by_cases hfits : t.noise.length ≤ capRxBufLen
      · simp [hfits, Rx.collected]
      · simp [hfits]
    rw [hserve]
    constructor
    · exact fun hfits => Or.inl ⟨hrequests, hfits⟩
    · intro h
      rcases h with ⟨-, hfits⟩ | ⟨hnone, -⟩
      · exact hfits
      · simp [hnone]
  · by_cases hnoise : t.noise = []
    · have hsplit : t.reads.flatten = t.requests.flatten := by rw [t.split, hnoise, List.nil_append]
      simp only [hrequests, hnoise, false_and, true_and, false_or]
      rw [and_comm, ← serve_iff t.some hsplit []]
      -- no copy has a NUL, since no request has one
      have hclean : ∀ s, uartRxThread .start t.reads = some s → ∀ r ∈ s.requests, 0 ∉ r := by
        intro s hrun r hr hzero
        obtain ⟨copies, hs, hbytes⟩ := @requests_cut [] [] t.reads s t.some hrun
        rw [List.nil_append] at hs hbytes
        have hmem : 0 ∈ t.requests.flatten := by
          rw [← hsplit, ← hbytes]
          exact List.mem_append_left _ (List.mem_flatten.mpr ⟨r, hs ▸ hr, hzero⟩)
        obtain ⟨r', hr', hzero'⟩ := List.mem_flatten.mp hmem
        exact t.text r' hr' hzero'
      show (uartRxThread .start t.reads).bind (fun s => s.requests.mapM fun r => strAt (tmpBuf r)) = some t.requests ↔
        (uartRxThread .start t.reads).map (·.requests) = some t.requests ∧ ∀ r ∈ t.requests, r.length < capRxBufLen
      cases hrun : uartRxThread .start t.reads with
      | none => simp
      | some s =>
        rw [Option.bind_some, texts_eq_some_iff (hclean s hrun), Option.map_some, Option.some_inj]
        constructor
        · intro ⟨heq, hfits⟩
          exact ⟨heq.symm, heq ▸ hfits⟩
        · intro ⟨heq, hfits⟩
          exact ⟨heq.symm, heq ▸ hfits⟩
    · simp [hrequests, hnoise, noise_not_served t hnoise hrequests]

/-- The request `{"type":"query"}`. -/
def query : List UInt8 := [0x7b, 0x22, 0x74, 0x79, 0x70, 0x65, 0x22, 0x3a, 0x22, 0x71, 0x75, 0x65, 0x72, 0x79, 0x22, 0x7d]

/-- Two requests, in any reads that hold their bytes. -/
def queries (reads : List (List UInt8)) (split : reads.flatten = query ++ query) (some : ∀ c ∈ reads, c ≠ []) : Traffic where
  noise := []
  requests := [query, query]
  reads := reads
  quiet := by simp
  object := by simp [query, openBrace]
  text := by simp [query]
  split := by simpa using split
  some := some

-- the first request comes in two reads and the second in one
example : let t := queries [query.take 7, query.drop 7, query] rfl (by decide)
    serve t.reads = some t.requests := by decide +kernel

/-- Two requests in one read are one text to `cap_rx_process`. -/
theorem joined_requests :
    let t := queries [query ++ query] rfl (by decide)
    serve t.reads = some [query ++ query] ∧ serve t.reads ≠ some t.requests := by
  have hserve : serve [query ++ query] = some [query ++ query] := by decide +kernel
  refine ⟨hserve, ?_⟩
  show serve [query ++ query] ≠ some [query, query]
  rw [hserve]
  decide

end AmebaLinux.Cmds.Captouch
