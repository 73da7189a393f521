/-
  AmebaLinux.Cmds.CaptouchSamples — what the captouch monitor's packets carry (see
  `AmebaLinux.Cmds.CaptouchMonitor`).

  The pages of `cap_monitor_buf` are a ring (`Lib.Ring`): the timer's handler fills the
  page of `rx_cnt`, the sender reads the page of `tx_cnt`, and neither waits for the
  other. `Ctl` is what decides who moves and when a packet is sent; it does not look at
  the samples (`Rel`).

  Proved:
  - `samples_kept_iff`: with one sender, packet k carries sample k whatever the samples
    are exactly when, at every send, at most two samples are not sent yet
    (`overwritten_sample`).
-/

import AmebaLinux.Cmds.CaptouchMonitorProofs
import AmebaLinux.Lib.Ring

namespace AmebaLinux.Cmds.Captouch.Monitor

open AmebaLinux.Lib.Machine (Along)
open Tune (capMaxCh)

/-! ## The bytes of a sample -/

def enabled (channels : Channels) : List (Fin capMaxCh) := (List.finRange capMaxCh).filter fun ch => channels ch ≠ 0

/-- The channel data of a sample. -/
def sampleData (channels : Channels) (sample : Sample) : List UInt8 :=
  (enabled channels).flatMap fun ch => chRtData ch (sample ch)

def window (buf : Nat → UInt8) (base n : Nat) : List UInt8 := (List.range n).map fun i => buf (base + i)

theorem chRtData_length (ch : Fin capMaxCh) (r : Reading) : (chRtData ch r).length = capChDataSize := rfl

theorem channelData_length (sample : Sample) (chs : List (Fin capMaxCh)) :
    (chs.flatMap fun ch => chRtData ch (sample ch)).length = chs.length * capChDataSize := by
  simp [List.length_flatMap, chRtData_length]

theorem enabled_length_le (channels : Channels) : (enabled channels).length ≤ capMaxCh := by
  refine (List.length_filter_le _ _).trans ?_
  rw [List.length_finRange]

theorem store_append (buf : Nat → UInt8) (offset : Nat) (a b : List UInt8) :
    store (store buf offset a) (offset + a.length) b = store buf offset (a ++ b) := by
  funext i
  unfold store
  rw [List.length_append]
  by_cases hb : offset + a.length ≤ i ∧ i < offset + a.length + b.length
  · rw [if_pos hb, if_pos (by omega), List.getD_eq_getElem?_getD, List.getD_eq_getElem?_getD,
      List.getElem?_append_right (by omega)]
    congr 2
    omega
  · rw [if_neg hb]
    by_cases ha : offset ≤ i ∧ i < offset + a.length
    · rw [if_pos ha, if_pos (by omega), List.getD_eq_getElem?_getD, List.getD_eq_getElem?_getD,
        List.getElem?_append_left (by omega)]
    · rw [if_neg ha, if_neg (by omega)]

theorem store_nil (buf : Nat → UInt8) (offset : Nat) : store buf offset [] = buf := by
  funext i
  simp [store]

/-- The loop over the channels stores the data of the enabled ones in a row. -/
theorem pushChannel_foldl (channels : Channels) (sample : Sample) (base : Nat) (buf : Nat → UInt8) (v : Nat)
    (chs : List (Fin capMaxCh)) :
    chs.foldl (pushChannel channels sample base) (buf, v) =
      (store buf (base + v * capChDataSize)
        ((chs.filter fun ch => channels ch ≠ 0).flatMap fun ch => chRtData ch (sample ch)),
       v + (chs.filter fun ch => channels ch ≠ 0).length) := by
  induction chs generalizing buf v with
  | nil => simp [store_nil]
  | cons ch chs ih =>
    rw [List.foldl_cons, pushChannel]
    by_cases hch : channels ch ≠ 0
    · have hnext : base + (v + 1) * capChDataSize = base + v * capChDataSize + (chRtData ch (sample ch)).length := by
        rw [chRtData_length, Nat.succ_mul, Nat.add_assoc]
      rw [if_pos hch, ih, hnext, store_append, List.filter_cons_of_pos (by simpa using hch), List.flatMap_cons,
        List.length_cons]
      congr 1
      omega
    · rw [if_neg hch, ih, List.filter_cons_of_neg (by simpa using hch)]

theorem getData_buf (sample : Sample) (s : St) :
    (capMonitorGetData sample s).capMonitorBuf =
      store s.capMonitorBuf (s.rxCnt.toNat % capDataPageNum * capDataPageSize) (sampleData s.channels sample) := by
  unfold capMonitorGetData
  dsimp only
  rw [pushChannel_foldl, Nat.zero_mul, Nat.add_zero]
  rfl

theorem window_store_same (buf : Nat → UInt8) (base : Nat) (bytes : List UInt8) :
    window (store buf base bytes) base bytes.length = bytes := by
  refine List.ext_getElem (by simp [window]) ?_
  intro i hi hi'
  simp [window, store, hi']

theorem window_store_other (buf : Nat → UInt8) {base base' n : Nat} {bytes : List UInt8}
    (h : base' + n ≤ base ∨ base + bytes.length ≤ base') : window (store buf base bytes) base' n = window buf base' n := by
  refine List.map_congr_left ?_
  intro i hi
  have hi := List.mem_range.mp hi
  exact if_neg (by omega)

/-! ## The pages -/

/-- What a sender would read of each page. -/
def pages (channels : Channels) (buf : Nat → UInt8) (j : Nat) : List UInt8 :=
  window buf (j * capDataPageSize) ((enabled channels).length * capChDataSize)

/-- A sample fills a page and leaves the others. -/
theorem pages_store (channels : Channels) (sample : Sample) (buf : Nat → UInt8) (k : Nat) :
    pages channels (store buf (k * capDataPageSize) (sampleData channels sample)) =
      Function.update (pages channels buf) k (sampleData channels sample) := by
  have hlen : (sampleData channels sample).length = (enabled channels).length * capChDataSize :=
    channelData_length sample (enabled channels)
  have hsize : (enabled channels).length * capChDataSize ≤ capDataPageSize := by
    have := enabled_length_le channels
    simp only [capMaxCh, capChDataSize, capDataPageSize] at this ⊢
    omega
  funext j
  by_cases hj : j = k
  · rw [hj, Function.update_self, pages, ← hlen, window_store_same]
  · rw [Function.update_of_ne hj, pages, window_store_other]
    · rfl
    · rw [hlen]
      simp only [capDataPageSize] at hsize ⊢
      omega

/-! ## Who moves, and when a packet is sent -/

inductive Turn where
  | tick
  | sender (snr : UInt16)
  deriving DecidableEq, Repr

/-- The run of one sender, without the samples. -/
structure Ctl where
  taken : Nat
  sends : Nat
  tokens : Nat
  pc : Pc
  deriving DecidableEq, Repr

/-- The sender is about to send: `tx_cnt < rx_cnt`, of 32 bits each. -/
def Ctl.Sending (c : Ctl) : Prop := c.pc = .woken ∧ c.sends % 2 ^ 32 < c.taken % 2 ^ 32

instance (c : Ctl) : Decidable c.Sending := inferInstanceAs (Decidable (_ ∧ _))

def Ctl.step (c : Ctl) : Turn → Ctl
  | .tick => { c with taken := c.taken + 1, tokens := c.tokens + 1 }
  | .sender _ =>
    match c.pc with
    | .waiting => if c.tokens = 0 then c else { c with tokens := c.tokens - 1, pc := .woken }
    | .woken => { c with sends := if c.Sending then c.sends + 1 else c.sends, pc := .checking }
    | .checking => { c with pc := .waiting }

/-- The event of a turn; sample k is `sample k`. -/
def event (sample : Nat → Sample) (c : Ctl) : Turn → Event
  | .tick => .tick (sample (c.taken + 1))
  | .sender snr => .sender 0 snr

def events (sample : Nat → Sample) : Ctl → List Turn → List Event
  | _, [] => []
  | c, t :: turns => event sample c t :: events sample (c.step t) turns

section Refinement

variable (sample : Nat → Sample) (channels : Channels) (initial : Nat → List UInt8)

/-- The state behind a `Ctl`. -/
structure Rel (c : Ctl) (s : St) : Prop where
  rx : s.rxCnt = .ofNat c.taken
  tx : s.txCnt = .ofNat c.sends
  cfg : s.channels = channels
  count : s.monitorChannels.toNat = (enabled channels).length
  running : s.monitorStop = false
  tokens : s.timerSema = c.tokens
  senders : s.senders = [c.pc]
  behind : c.sends ≤ c.taken
  ring : pages channels s.capMonitorBuf =
    Lib.Ring.slots capDataPageNum (fun m => sampleData channels (sample (m + 1))) initial c.taken
  sent : s.sent.length = c.sends

/-- What a turn adds to the packets. -/
def Sends (c : Ctl) (t : Turn) (old new : List Packet) : Prop :=
  if c.Sending ∧ t ≠ .tick then
    ∃ p : Packet, p.seq = .ofNat (c.sends + 1) ∧
      p.data = sampleData channels (sample (Lib.Ring.latest capDataPageNum c.taken c.sends + 1)) ∧ new = old ++ [p]
  else new = old

variable {sample channels initial} {c : Ctl} {s : St}

theorem sending_behind (hle : c.sends ≤ c.taken) (h : c.Sending) : c.sends < c.taken := by
  refine lt_of_le_of_ne hle (fun heq => ?_)
  have := h.2
  rw [heq] at this
  omega

theorem page_index (n : Nat) : (UInt32.ofNat n).toNat % capDataPageNum = n % capDataPageNum := by
  rw [UInt32.toNat_ofNat']
  exact Nat.mod_mod_of_dvd n (by decide)

theorem sending_iff (h : Rel sample channels initial c s) :
    s.txCnt < s.rxCnt ↔ c.sends % 2 ^ 32 < c.taken % 2 ^ 32 := by
  rw [h.rx, h.tx, UInt32.lt_iff_toNat_lt, UInt32.toNat_ofNat', UInt32.toNat_ofNat']

theorem rel_tick (h : Rel sample channels initial c s) :
    Rel sample channels initial (c.step .tick) (step s (event sample c .tick)) := by
  refine ⟨?_, h.tx, h.cfg, h.count, h.running, ?_, h.senders, ?_, ?_, h.sent⟩
  · show s.rxCnt + 1 = UInt32.ofNat (c.taken + 1)
    rw [h.rx, UInt32.ofNat_add]
    rfl
  · show s.timerSema + 1 = c.tokens + 1
    rw [h.tokens]
  · show c.sends ≤ c.taken + 1
    have := h.behind
    omega
  · show pages channels (capMonitorGetData (sample (c.taken + 1)) s).capMonitorBuf = _
    rw [getData_buf, h.cfg, pages_store, h.ring, h.rx, page_index]
    rfl

/-- The page of the next packet. -/
theorem page_read (h : Rel sample channels initial c s) (hlt : c.sends < c.taken) :
    (List.range (s.monitorChannels.toNat * capChDataSize)).map
      (fun i => s.capMonitorBuf (s.txCnt.toNat % capDataPageNum * capDataPageSize + i)) =
      sampleData channels (sample (Lib.Ring.latest capDataPageNum c.taken c.sends + 1)) := by
  have hpage := congrFun h.ring (c.sends % capDataPageNum)
  rw [Lib.Ring.slots_latest _ _ (by decide) hlt] at hpage
  rw [h.count, h.tx, page_index]
  exact hpage

theorem sendPage_sends (h : Rel sample channels initial c s) (hlt : s.txCnt < s.rxCnt) (hbehind : c.sends < c.taken)
    (snr : UInt16) :
    ∃ p : Packet, p.seq = s.txCnt + 1 ∧
      p.data = sampleData channels (sample (Lib.Ring.latest capDataPageNum c.taken c.sends + 1)) ∧
      sendPage snr s = { s with txCnt := s.txCnt + 1, sent := s.sent ++ [p] } :=
  ⟨⟨s.txCnt + 1, s.monitorChannels, snr, _, _, _⟩, rfl, page_read h hbehind, if_pos hlt⟩

theorem rel_waiting (h : Rel sample channels initial c s) (hpc : c.pc = .waiting) (snr : UInt16) :
    Rel sample channels initial (c.step (.sender snr)) (monitorTxThread 0 snr s) ∧ (monitorTxThread 0 snr s).sent = s.sent := by
  have hone : s.senders = [.waiting] := by rw [h.senders, hpc]
  unfold monitorTxThread Ctl.step
  simp only [hpc, hone, List.getElem?_cons_zero, List.set_cons_zero]
  rw [h.tokens]
  by_cases hnone : c.tokens = 0
  · rw [if_pos hnone, if_pos hnone]
    exact ⟨h, rfl⟩
  · rw [if_neg hnone, if_neg hnone]
    exact ⟨⟨h.rx, h.tx, h.cfg, h.count, h.running, rfl, rfl, h.behind, h.ring, h.sent⟩, rfl⟩

theorem rel_checking (h : Rel sample channels initial c s) (hpc : c.pc = .checking) (snr : UInt16) :
    Rel sample channels initial (c.step (.sender snr)) (monitorTxThread 0 snr s) ∧ (monitorTxThread 0 snr s).sent = s.sent := by
  have hone : s.senders = [.checking] := by rw [h.senders, hpc]
  unfold monitorTxThread Ctl.step
  simp only [hpc, hone, List.getElem?_cons_zero, List.set_cons_zero, h.running, Bool.false_eq_true, if_false]
  exact ⟨⟨h.rx, h.tx, h.cfg, h.count, rfl, h.tokens, rfl, h.behind, h.ring, h.sent⟩, trivial⟩

theorem rel_woken (h : Rel sample channels initial c s) (hpc : c.pc = .woken) (snr : UInt16) :
    Rel sample channels initial (c.step (.sender snr)) (monitorTxThread 0 snr s) ∧
      Sends sample channels c (.sender snr) s.sent (monitorTxThread 0 snr s).sent := by
  have hone : s.senders = [.woken] := by rw [h.senders, hpc]
  have hturn : Turn.sender snr ≠ .tick := by simp
  unfold monitorTxThread Ctl.step Sends
  simp only [hpc, hone, List.getElem?_cons_zero, List.set_cons_zero]
  by_cases hlt : s.txCnt < s.rxCnt
  · have hctl := (sending_iff h).mp hlt
    have hbehind := sending_behind h.behind ⟨hpc, hctl⟩
    obtain ⟨p, hseq, hdata, hpage⟩ := sendPage_sends h hlt hbehind snr
    rw [hpage, if_pos ⟨hpc, hctl⟩, if_pos ⟨⟨hpc, hctl⟩, hturn⟩]
    have htx : s.txCnt + 1 = .ofNat (c.sends + 1) := by
      rw [h.tx, UInt32.ofNat_add]
      rfl
    refine ⟨⟨h.rx, htx, h.cfg, h.count, h.running, h.tokens, rfl, hbehind, h.ring, ?_⟩, p, hseq.trans htx, hdata, rfl⟩
    simp [h.sent]
  · have hctl : ¬ c.sends % 2 ^ 32 < c.taken % 2 ^ 32 := fun hs => hlt ((sending_iff h).mpr hs)
    rw [sendPage, if_neg hlt, if_neg (fun hs => hctl hs.2), if_neg (fun hs => hctl hs.1.2)]
    exact ⟨⟨h.rx, h.tx, h.cfg, h.count, h.running, h.tokens, rfl, h.behind, h.ring, h.sent⟩, rfl⟩

/-- The model of the code follows the control, and sends what is in the page. -/
theorem rel_step (h : Rel sample channels initial c s) (t : Turn) :
    Rel sample channels initial (c.step t) (step s (event sample c t)) ∧
      Sends sample channels c t s.sent (step s (event sample c t)).sent := by
  have hquiet : ∀ {new}, c.pc ≠ .woken ∨ t = .tick → new = s.sent → Sends sample channels c t s.sent new := by
    rintro new hno rfl
    refine (if_neg ?_).mpr rfl
    rintro ⟨hs, ht⟩
    rcases hno with hpc | htick
    · exact hpc hs.1
    · exact ht htick
  cases t with
  | tick => exact ⟨rel_tick h, hquiet (Or.inr rfl) rfl⟩
  | sender snr =>
    cases hpc : c.pc with
    | waiting =>
      obtain ⟨hrel, hsent⟩ := rel_waiting h hpc snr
      exact ⟨hrel, hquiet (Or.inl (by rw [hpc]; decide)) hsent⟩
    | woken => exact rel_woken h hpc snr
    | checking =>
      obtain ⟨hrel, hsent⟩ := rel_checking h hpc snr
      exact ⟨hrel, hquiet (Or.inl (by rw [hpc]; decide)) hsent⟩

theorem rel_run (h : Rel sample channels initial c s) (turns : List Turn) :
    Rel sample channels initial (Lib.Machine.run Ctl.step c turns) (Lib.Machine.run step s (events sample c turns)) := by
  induction turns generalizing c s with
  | nil => exact h
  | cons t turns ih => exact ih (rel_step h t).1

/-- Packets stay sent. -/
theorem sent_prefix (h : Rel sample channels initial c s) (turns : List Turn) :
    s.sent <+: (Lib.Machine.run step s (events sample c turns)).sent := by
  induction turns generalizing c s with
  | nil => exact List.prefix_refl _
  | cons t turns ih =>
    obtain ⟨hrel, hsends⟩ := rel_step h t
    refine List.IsPrefix.trans ?_ (ih hrel)
    unfold Sends at hsends
    split at hsends
    · obtain ⟨p, -, -, hnew⟩ := hsends
      rw [hnew]
      exact List.prefix_append _ _
    · rw [hsends]

theorem events_append (sample : Nat → Sample) (c : Ctl) (a b : List Turn) :
    events sample c (a ++ b) = events sample c a ++ events sample (Lib.Machine.run Ctl.step c a) b := by
  induction a generalizing c with
  | nil => rfl
  | cons t a ih => exact congrArg (event sample c t :: ·) (ih (c.step t))

end Refinement

/-! ## Packets and samples -/

/-- A start request that finds no sender. -/
def started (s : St) (channels : Channels) : St := step { s with senders := [] } (.start channels true)

/-- The control then; tokens may be left over. -/
def Ctl.started (s : St) : Ctl := ⟨0, 0, s.timerSema, .waiting⟩

theorem rel_started (sample : Nat → Sample) (channels : Channels) (s : St) :
    Rel sample channels (pages channels s.capMonitorBuf) (Ctl.started s) (started s channels) := by
  refine ⟨rfl, rfl, rfl, ?_, rfl, rfl, rfl, le_refl 0, rfl, rfl⟩
  have hcount : ((List.finRange capMaxCh).countP fun ch => channels ch ≠ 0) = (enabled channels).length :=
    List.countP_eq_length_filter
  have hfew : (enabled channels).length ≤ 9 := enabled_length_le channels
  show (UInt8.ofNat ((List.finRange capMaxCh).countP fun ch => channels ch ≠ 0)).toNat = _
  rw [hcount, UInt8.toNat_ofNat']
  omega

/-- Packet k has sequence number k and the channel data of sample k. -/
def Kept (sample : Nat → Sample) (channels : Channels) (sent : List Packet) : Prop :=
  ∀ k p, sent[k]? = some p → p.seq = .ofNat (k + 1) ∧ p.data = sampleData channels (sample (k + 1))

/-- At most two samples are not sent yet. -/
def InTime (c : Ctl) (t : Turn) : Prop := c.Sending → t ≠ .tick → c.taken ≤ c.sends + capDataPageNum

theorem kept_snoc {sample : Nat → Sample} {channels : Channels} {sent : List Packet} (h : Kept sample channels sent) {p : Packet}
    (hseq : p.seq = .ofNat (sent.length + 1)) (hdata : p.data = sampleData channels (sample (sent.length + 1))) :
    Kept sample channels (sent ++ [p]) := by
  intro k q hq
  rcases Nat.lt_trichotomy k sent.length with hlt | rfl | hgt
  · rw [List.getElem?_append_left hlt] at hq
    exact h k q hq
  · rw [List.getElem?_concat_length] at hq
    cases hq
    exact ⟨hseq, hdata⟩
  · rw [List.getElem?_eq_none (by simp; omega)] at hq
    cases hq

/-- In time, or with nothing to carry, a turn keeps packets and samples together. -/
theorem kept_step {sample : Nat → Sample} {channels : Channels} {initial : Nat → List UInt8} {c : Ctl} {s : St}
    (h : Rel sample channels initial c s) {t : Turn} (hk : Kept sample channels s.sent)
    (hok : enabled channels = [] ∨ InTime c t) : Kept sample channels (step s (event sample c t)).sent := by
  have hsends := (rel_step h t).2
  unfold Sends at hsends
  split at hsends
  case isFalse =>
    rw [hsends]
    exact hk
  case isTrue hsending =>
    obtain ⟨p, hseq, hdata, hnew⟩ := hsends
    rw [hnew]
    refine kept_snoc hk (by rw [h.sent]; exact hseq) ?_
    rw [hdata, h.sent]
    rcases hok with hnone | htime
    · simp [sampleData, hnone]
    · have hbehind := sending_behind h.behind hsending.1
      rw [(Lib.Ring.latest_eq_iff (by decide) hbehind).mpr (htime hsending.1 hsending.2)]

theorem kept_run {sample : Nat → Sample} {channels : Channels} {initial : Nat → List UInt8} {c : Ctl} {s : St}
    (h : Rel sample channels initial c s) {turns : List Turn} (hk : Kept sample channels s.sent)
    (hok : enabled channels = [] ∨ Along Ctl.step InTime c turns) :
    Kept sample channels (Lib.Machine.run step s (events sample c turns)).sent := by
  induction turns generalizing c s with
  | nil => exact hk
  | cons t turns ih =>
    refine ih (rel_step h t).1 (kept_step h hk ?_) ?_
    · exact hok.imp_right fun halong => halong.1
    · exact hok.imp_right fun halong => halong.2

/-- Sample `k` differs from all the others. -/
def marked (k n : Nat) : Sample := fun _ => ⟨if n = k then 1 else 0, 0⟩

theorem marked_ne {channels : Channels} (h : enabled channels ≠ []) {k n : Nat} (hn : n ≠ k) :
    sampleData channels (marked k n) ≠ sampleData channels (marked k k) := by
  obtain ⟨ch, chs, hchs⟩ := List.exists_cons_of_ne_nil h
  intro heq
  have hbyte := congrArg (fun bytes => bytes[1]?) heq
  simp [sampleData, hchs, marked, hn, chRtData, lo] at hbyte

/-- A packet that carries its sample was sent in time: the sample is one that differs from
    all the others. -/
theorem inTime_of_kept {channels : Channels} {initial : Nat → List UInt8} {c : Ctl} {s : St} (hchannels : enabled channels ≠ [])
    (h : Rel (marked (c.sends + 1)) channels initial c s) {t : Turn} {turns : List Turn}
    (hk : Kept (marked (c.sends + 1)) channels (Lib.Machine.run step s (events (marked (c.sends + 1)) c (t :: turns))).sent) :
    InTime c t := by
  intro hsending hturn
  obtain ⟨hnext, hsends⟩ := rel_step h t
  rw [Sends, if_pos ⟨hsending, hturn⟩] at hsends
  obtain ⟨p, -, hdata, hnew⟩ := hsends
  obtain ⟨later, hlast⟩ := sent_prefix hnext turns
  have hp : (Lib.Machine.run step s (events (marked (c.sends + 1)) c (t :: turns))).sent[c.sends]? = some p := by
    refine Eq.trans (congrArg (·[c.sends]?) hlast.symm) ?_
    rw [hnew, ← h.sent]
    simp
  by_contra hlate
  have hother : Lib.Ring.latest capDataPageNum c.taken c.sends ≠ c.sends := fun heq =>
    hlate ((Lib.Ring.latest_eq_iff (by decide) (sending_behind h.behind hsending)).mp heq)
  exact marked_ne hchannels (fun heq => hother (by omega)) (hdata.symm.trans (hk c.sends p hp).2)

/-- With one sender, whatever the samples are. -/
theorem samples_kept_iff (s : St) (channels : Channels) (turns : List Turn) :
    (∀ sample : Nat → Sample,
      Kept sample channels (Lib.Machine.run step (started s channels) (events sample (.started s) turns)).sent) ↔
      enabled channels = [] ∨ Along Ctl.step InTime (.started s) turns := by
  constructor
  · intro h
    by_cases hchannels : enabled channels = []
    · exact Or.inl hchannels
    · right
      rw [Lib.Machine.along_iff_forall]
      rintro a t b rfl
      have hall := h (marked ((Lib.Machine.run Ctl.step (.started s) a).sends + 1))
      rw [events_append, Lib.Machine.run_append] at hall
      exact inTime_of_kept hchannels (rel_run (rel_started _ channels s) a) hall
  · intro hok sample
    have hnone : Kept sample channels (started s channels).sent := by
      intro k p hp
      cases hp
    exact kept_run (rel_started sample channels s) hnone hok

/-- Three samples before the first packet: it carries the third. -/
theorem overwritten_sample :
    (run (.start oneChannel true :: events (fun k _ => ⟨.ofNat k, 0⟩) (.started start)
      [.tick, .tick, .tick, .sender 0, .sender 0])).sent.map (fun p => (p.seq, p.data)) =
      [(1, sampleData oneChannel fun _ => ⟨3, 0⟩)] := by
  decide

end AmebaLinux.Cmds.Captouch.Monitor
