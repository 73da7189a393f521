/-
  AmebaLinux.Rcp.FwUpdateSrcRun — what a transfer comes to, for every payload file and
  every device (see `AmebaLinux.Rcp.FwUpdateSrc`).

  A file reads as some number of records before `ProcessSrecBin` stops, or makes it exit
  (`recordsIn`). A device's exchanges are looked at through the report each wait ends
  with (`responseAt`).

  Proved:
  - `fwUpdateSrc_run`: the transfer returns true exactly when the file reads as `n`
    records and the first `n` exchanges are all taken and answered SUCCESS; it has then
    sent `n` packets, numbered from zero.
  - `acknowledged_iff`: every packet of a successful transfer is acknowledged with its
    own sequence number exactly when no SUCCESS answer of the device carries another
    one, since a response with another number is only logged
    (`stale_response_acknowledges`).
-/

import AmebaLinux.Rcp.FwUpdateSrc
import Mathlib.Tactic

namespace AmebaLinux.Rcp.FwUpdateSrc

open AmebaLinux.Lib.Bytes
open AmebaLinux.Rcp.Tty

/-! ## Reading the file -/

/-- Whether there was a record and what is left do not depend on the record read into. -/
theorem processSrecBin_shape (file : List UInt8) (c c' : ContentData) :
    (processSrecBin file c).map (fun x => (x.1, x.2.1)) = (processSrecBin file c').map (fun x => (x.1, x.2.1)) := by
  simp only [processSrecBin]
  split_ifs <;> rfl

/-- What reading a record keeps. -/
theorem processSrecBin_keeps {file file' : List UInt8} {c c' : ContentData} {b : Bool}
    (h : processSrecBin file c = some (b, file', c')) :
    c'.sequenceNumber = c.sequenceNumber ∧ (c.data.length = 52 → c'.data.length = 52) := by
  simp only [processSrecBin] at h
  split_ifs at h with _ _ _ hlen
  all_goals
    simp only [Option.some.injEq, Prod.mk.injEq] at h
    obtain ⟨-, -, rfl⟩ := h
  · exact ⟨rfl, id⟩
  · exact ⟨rfl, id⟩
  · refine ⟨rfl, fun hc => ?_⟩
    rw [UInt8.lt_iff_toNat_lt, not_lt] at hlen
    refine (overlay_length ?_).trans hc
    rw [List.length_take, hc, Nat.zero_add]
    exact (min_le_left _ _).trans hlen

/-- How many records `ProcessSrecBin` reads before it finds no more, if it does not exit
    on the way. -/
def recordsIn (file : List UInt8) : Option Nat :=
  match h : processSrecBin file .zero with
  | none => none
  | some (false, _, _) => some 0
  | some (true, file', _) => (recordsIn file').map (· + 1)
termination_by file.length
decreasing_by exact processSrecBin_lt h

section

variable {file file' : List UInt8} {c c' : ContentData}

theorem recordsIn_exit (h : processSrecBin file c = none) : recordsIn file = none := by
  have hz := processSrecBin_shape file c .zero
  rw [h] at hz
  rw [recordsIn]
  split <;> rename_i e
  · rfl
  all_goals rw [e] at hz; cases hz

theorem recordsIn_stop (h : processSrecBin file c = some (false, file', c')) : recordsIn file = some 0 := by
  have hz := processSrecBin_shape file c .zero
  rw [h] at hz
  rw [recordsIn]
  split <;> rename_i e
  · rw [e] at hz; cases hz
  · rfl
  · rw [e] at hz; cases hz

theorem recordsIn_next (h : processSrecBin file c = some (true, file', c')) :
    recordsIn file = (recordsIn file').map (· + 1) := by
  have hz := processSrecBin_shape file c .zero
  rw [h] at hz
  rw [recordsIn]
  split <;> rename_i e
  · rw [e] at hz; cases hz
  · rw [e] at hz; cases hz
  · rw [e] at hz; cases hz; rfl

/-- Where no record is left the parser stops, -/
theorem recordsIn_zero (h : recordsIn file = some 0) (c : ContentData) :
    ∃ file' c', processSrecBin file c = some (false, file', c') := by
  rcases e : processSrecBin file c with _ | ⟨_ | _, file', c'⟩
  · rw [recordsIn_exit e] at h; cases h
  · exact ⟨file', c', rfl⟩
  · rw [recordsIn_next e, Option.map_eq_some_iff] at h
    obtain ⟨_, _, h⟩ := h
    cases h

/-- and where one is left it is parsed. -/
theorem recordsIn_succ {n : Nat} (h : recordsIn file = some (n + 1)) (c : ContentData) :
    ∃ file' c', processSrecBin file c = some (true, file', c') ∧ recordsIn file' = some n := by
  rcases e : processSrecBin file c with _ | ⟨_ | _, file', c'⟩
  · rw [recordsIn_exit e] at h; cases h
  · rw [recordsIn_stop e] at h; cases h
  · rw [recordsIn_next e, Option.map_eq_some_iff] at h
    obtain ⟨m, hm, h⟩ := h
    cases h
    exact ⟨file', c', rfl, hm⟩

end

theorem ofNat_succ (n : Nat) : UInt32.ofNat n + 1 = UInt32.ofNat (n + 1) := by rw [UInt32.ofNat_add]; rfl

/-- The first pass exits where the parser does. -/
theorem countPackets_exit (file : List UInt8) (c : ContentData) (total : UInt32) (h : recordsIn file = none) :
    countPackets file c total = none := by
  induction file, c, total using countPackets.induct with
  | case1 file c total e => rw [countPackets]; split <;> simp_all
  | case2 file c total f c' e => rw [recordsIn_stop e] at h; cases h
  | case3 file c total f c' e ih =>
    rw [recordsIn_next e, Option.map_eq_none_iff] at h
    rw [countPackets]
    split <;> rename_i e' <;> rw [e] at e' <;> cases e'
    exact ih h

/-- The first pass counts the records. -/
theorem countPackets_eq (file : List UInt8) (c : ContentData) (m n : Nat) (h : recordsIn file = some n) :
    ∃ c', countPackets file c (UInt32.ofNat m) = some (UInt32.ofNat (m + n), c') ∧
      c'.sequenceNumber = c.sequenceNumber ∧ (c.data.length = 52 → c'.data.length = 52) := by
  induction hl : file.length using Nat.strong_induction_on generalizing file c m n with
  | _ l ih =>
  rw [countPackets]
  split <;> rename_i e
  · rw [recordsIn_exit e] at h; cases h
  · rw [recordsIn_stop e] at h
    cases h
    exact ⟨_, rfl, processSrecBin_keeps e⟩
  · rw [recordsIn_next e, Option.map_eq_some_iff] at h
    obtain ⟨n', hn', rfl⟩ := h
    obtain ⟨hseq, hdata⟩ := processSrecBin_keeps e
    obtain ⟨c', hc', hseq', hdata'⟩ := ih _ (hl ▸ processSrecBin_lt e) _ _ (m + 1) n' hn' rfl
    refine ⟨c', ?_, hseq'.trans hseq, fun hc => hdata' (hdata hc)⟩
    rw [ofNat_succ, hc', Nat.add_right_comm, Nat.add_assoc]

/-! ## The device's responses -/

/-- The report a response leaves that ends the wait of an exchange, if one does. -/
def answer (e : Exchange) (r : Report) : Option Report :=
  match ttyWaitForFrame reponseHandle r e.reads with
  | some (.noErr, r') => some r'
  | _ => none

/-- The report after the `k`-th wait, where all waits up to it end with a response. -/
def responseAt (device : Nat → Exchange) (r : Report) : Nat → Option Report
  | 0 => answer (device 0) r
  | k + 1 => (answer (device 0) r).bind fun r' => responseAt (fun i => device (i + 1)) r' k

/-- `ContentResponseReportBlob.sequenceNumber`. -/
def contentSequence (r : Report) : Nat := leNat ((r.repBuff.drop 1).take 2)

/-- The sequence number a packet carries. -/
def packetSequence (packet : List UInt8) : Nat := leNat ((packet.drop 3).take 2)

/-- The port takes a content packet. -/
def Taken (e : Exchange) : Prop := (ttyWriteRest e.writes (List.replicate 61 0)).1 = .noErr

/-- The packet is taken, and the response that ends the wait has status SUCCESS. -/
structure Accepted (e : Exchange) (r r' : Report) : Prop where
  taken : Taken e
  response : answer e r = some r'
  status : contentStatus r' = firmwareUpdateSuccess

/-- The first `n` exchanges are taken and answered SUCCESS. -/
def AllAccepted (device : Nat → Exchange) (r : Report) (n : Nat) : Prop :=
  ∀ k < n, Taken (device k) ∧ ∃ r', responseAt device r k = some r' ∧ contentStatus r' = firmwareUpdateSuccess

theorem allAccepted_zero (device : Nat → Exchange) (r : Report) : AllAccepted device r 0 := fun _ h => by cases h

theorem allAccepted_succ {device : Nat → Exchange} {r : Report} {n : Nat} :
    AllAccepted device r (n + 1) ↔
      ∃ r', Accepted (device 0) r r' ∧ AllAccepted (fun i => device (i + 1)) r' n := by
  constructor
  · intro h
    obtain ⟨htaken, r', hr', hst⟩ := h 0 (by omega)
    refine ⟨r', ⟨htaken, hr', hst⟩, fun k hk => ?_⟩
    obtain ⟨hk', r'', hr'', hst'⟩ := h (k + 1) (by omega)
    rw [responseAt, show answer (device 0) r = some r' from hr'] at hr''
    exact ⟨hk', r'', hr'', hst'⟩
  · rintro ⟨r', hacc, hall⟩ k hk
    cases k with
    | zero => exact ⟨hacc.taken, r', hacc.response, hacc.status⟩
    | succ k =>
      obtain ⟨htaken, r'', hr'', hst⟩ := hall k (by omega)
      refine ⟨htaken, r'', ?_, hst⟩
      rw [responseAt, hacc.response]
      exact hr''

theorem allAccepted_from {device : Nat → Exchange} {r : Report} {k n : Nat} :
    AllAccepted (fun i => device (k + i)) r (n + 1) ↔
      ∃ r', Accepted (device k) r r' ∧ AllAccepted (fun i => device (k + 1 + i)) r' n := by
  have hshift : (fun i => device (k + (i + 1))) = fun i => device (k + 1 + i) := by
    funext i; rw [Nat.add_right_comm, Nat.add_assoc]
  rw [allAccepted_succ, hshift]
  rfl

/-- How a write ends depends on the length of what is written only. -/
theorem ttyWrite_length (script : List WriteTurn) {a b : List UInt8} (h : a.length = b.length) :
    (ttyWriteRest script a).1 = (ttyWriteRest script b).1 := by
  induction script generalizing a b with
  | nil =>
    cases a <;> cases b <;> simp_all [ttyWriteRest]
  | cons t script ih =>
    cases a with
    | nil => obtain rfl := List.length_eq_zero_iff.mp h.symm; rfl
    | cons x a =>
      cases b with
      | nil => cases h
      | cons y b =>
        simp only [ttyWriteRest]
        cases t.write with
        | fatal => rfl
        | again =>
          dsimp only
          split
          · exact ih h
          · rfl
        | wrote n =>
          dsimp only
          rw [h]
          split
          · rfl
          · split
            · exact ih (by rw [List.length_drop, List.length_drop, h])
            · rfl

/-! ## One turn of the second pass -/

section

variable {device : Nat → Exchange} {total : UInt32} {file file' : List UInt8} {s : Sender} {c : ContentData} {k : Nat}

theorem sendPackets_stop (h : processSrecBin file s.contentdata = some (false, file', c)) :
    sendPackets device total file s k = ⟨.ret (!notAllSent s.contentPacketsSent total), []⟩ := by
  rw [sendPackets]
  split <;> rename_i e <;> rw [h] at e <;> cases e

theorem prepare_length (hc : c.data.length = 52) : (prepare total s c).1.bytes.length = 61 := by
  simp only [prepare, ContentData.bytes, List.length_append, hc, toLe_length]
  rfl

theorem prepare_sequence : packetSequence (prepare total s c).1.bytes = c.sequenceNumber.toNat := by
  have h : leNat (toLe 2 c.sequenceNumber.toNat) = c.sequenceNumber.toNat := by
    rw [leNat_toLe, Nat.mod_eq_of_lt (by simpa using c.sequenceNumber.toNat_lt)]
  rw [← h]; rfl

/-- What a SUCCESS answer to the record's packet makes of the sender. -/
def Sender.next (total : UInt32) (s : Sender) (c : ContentData) (report : Report) : Sender :=
  let p := prepare total s c
  ⟨{ p.1 with sequenceNumber := p.1.sequenceNumber + 1 }, p.2, s.contentPacketsSent + 1, report⟩

/-- A turn that is taken and answered SUCCESS goes on to the next. -/
theorem sendPackets_accepted (h : processSrecBin file s.contentdata = some (true, file', c)) (hc : c.data.length = 52)
    {report : Report} (ha : Accepted (device k) s.report report) :
    sendPackets device total file s k =
      Run.after (prepare total s c).1.bytes (sendPackets device total file' (s.next total c report) (k + 1)) := by
  have hw : (ttyWriteRest (device k).writes (prepare total s c).1.bytes).1 = .noErr :=
    (ttyWrite_length _ (by rw [prepare_length hc, List.length_replicate])).trans ha.taken
  have hwait : ttyWaitForFrame reponseHandle s.report (device k).reads = some (.noErr, report) := by
    have hr := ha.response
    unfold answer at hr
    split at hr
    · cases hr; assumption
    · cases hr
  rw [sendPackets]
  split <;> rename_i e <;> rw [h] at e <;> cases e
  dsimp only
  rw [if_neg (by simp [hw]), hwait]
  simp only [ne_eq, not_true_eq_false, if_false, ha.status]
  rfl

/-- Any other turn ends the transfer, and not with true. -/
theorem sendPackets_refused (h : processSrecBin file s.contentdata = some (true, file', c)) (hc : c.data.length = 52)
    (ha : ¬ ∃ report, Accepted (device k) s.report report) :
    (sendPackets device total file s k).outcome ≠ .ret true := by
  rw [sendPackets]
  split <;> rename_i e <;> rw [h] at e <;> cases e
  show (if _ then _ else _ : Run).outcome ≠ _
  split
  · simp
  rename_i hw
  rw [ne_eq, not_not] at hw
  have htaken : Taken (device k) :=
    (ttyWrite_length _ (by rw [prepare_length hc, List.length_replicate])).symm.trans hw
  split
  · simp
  rename_i err report hwait
  split
  · simp
  rename_i herr
  split
  · simp
  rename_i hst
  rw [ne_eq, not_not] at herr hst
  subst herr
  exact absurd ⟨report, htaken, by rw [answer, hwait], hst⟩ ha

end

/-! ## The whole transfer -/

/-- What the loop has to start from after `k` packets. -/
structure Numbered (k : Nat) (s : Sender) : Prop where
  count : s.contentPacketsSent = UInt32.ofNat k
  seq : s.contentdata.sequenceNumber = UInt16.ofNat k
  data : s.contentdata.data.length = 52

theorem Numbered.next {k : Nat} {s : Sender} (hs : Numbered k s) (total : UInt32) {file file' : List UInt8} {c : ContentData}
    (h : processSrecBin file s.contentdata = some (true, file', c)) (report : Report) :
    Numbered (k + 1) (s.next total c report) := by
  obtain ⟨hseq, hdata⟩ := processSrecBin_keeps h
  refine ⟨?_, ?_, hdata hs.data⟩
  · show s.contentPacketsSent + 1 = _
    rw [hs.count, ofNat_succ]
  · show c.sequenceNumber + 1 = _
    rw [hseq, hs.seq, UInt16.ofNat_add]; rfl

/-- The packets of a run are numbered from `k` on, modulo 2^16. -/
def NumberedFrom (k : Nat) (sent : List (List UInt8)) : Prop :=
  ∀ i p, sent[i]? = some p → packetSequence p = (k + i) % 65536

theorem NumberedFrom.cons {k : Nat} {p : List UInt8} {sent : List (List UInt8)} (hp : packetSequence p = k % 65536)
    (h : NumberedFrom (k + 1) sent) : NumberedFrom k (p :: sent) := by
  intro i q hq
  cases i with
  | zero => cases hq; exact hp
  | succ i =>
    rw [h i q hq, Nat.add_right_comm, Nat.add_assoc]

/-- The second pass over a file of `n` records, from packet `k` on. -/
theorem sendPackets_run (device : Nat → Exchange) (total : UInt32) (n : Nat) (file : List UInt8) (k : Nat) (s : Sender)
    (hn : recordsIn file = some n) (hs : Numbered k s) :
    (AllAccepted (fun i => device (k + i)) s.report n →
      (sendPackets device total file s k).outcome = .ret (!notAllSent (UInt32.ofNat (k + n)) total) ∧
      (sendPackets device total file s k).sent.length = n ∧
      NumberedFrom k (sendPackets device total file s k).sent) ∧
    (¬ AllAccepted (fun i => device (k + i)) s.report n → (sendPackets device total file s k).outcome ≠ .ret true) := by
  induction n generalizing file k s with
  | zero =>
    obtain ⟨file', c, h⟩ := recordsIn_zero hn s.contentdata
    rw [sendPackets_stop h, hs.count]
    exact ⟨fun _ => ⟨rfl, rfl, fun i p hp => by simp at hp⟩, fun hno => absurd (allAccepted_zero _ _) hno⟩
  | succ n ih =>
    obtain ⟨file', c, h, hrest⟩ := recordsIn_succ hn s.contentdata
    obtain ⟨hseq, hdata⟩ := processSrecBin_keeps h
    rw [allAccepted_from]
    by_cases hacc : ∃ report, Accepted (device k) s.report report
    · obtain ⟨report, hacc⟩ := hacc
      obtain ⟨hok, hno⟩ := ih file' (k + 1) (s.next total c report) hrest (hs.next total h report)
      rw [sendPackets_accepted h (hdata hs.data) hacc]
      refine ⟨?_, ?_⟩
      · rintro ⟨r', hacc', hall⟩
        obtain rfl : report = r' := Option.some.inj (hacc.response.symm.trans hacc'.response)
        obtain ⟨hout, hlen, hnum⟩ := hok hall
        refine ⟨?_, congrArg (· + 1) hlen, NumberedFrom.cons ?_ hnum⟩
        · rw [Run.after, hout, Nat.add_right_comm, Nat.add_assoc]
        · rw [prepare_sequence, hseq, hs.seq, UInt16.toNat_ofNat']
      · intro hall
        exact hno fun h' => hall ⟨report, hacc, h'⟩
    · refine ⟨?_, fun _ => sendPackets_refused h (hdata hs.data) hacc⟩
      rintro ⟨r', hacc', -⟩
      exact absurd ⟨r', hacc'⟩ hacc

theorem notAllSent_self (n : UInt32) : notAllSent n n = false := by
  simp [notAllSent, Nat.mul_comm]

/-- A file the parser exits on is not sent at all. -/
theorem fwUpdateSrc_exit (device : Nat → Exchange) {file : List UInt8} (report : Report) (h : recordsIn file = none) :
    fwUpdateSrc device (some file) report = ⟨.exited, []⟩ := by
  simp only [fwUpdateSrc, countPackets_exit _ _ _ h]

/-- The second pass starts from what the first one leaves. -/
theorem fwUpdateSrc_second (device : Nat → Exchange) {file : List UInt8} (report : Report) {n : Nat}
    (h : recordsIn file = some n) :
    ∃ s, Numbered 0 s ∧ s.report = report ∧
      fwUpdateSrc device (some file) report = sendPackets device (UInt32.ofNat n) file s 0 := by
  obtain ⟨c, hc, hseq, hdata⟩ :=
    countPackets_eq file { ContentData.zero with flags := firmwareUpdateFlagFirstBlock } 0 n h
  rw [Nat.zero_add] at hc
  refine ⟨⟨c, 0, 0, report⟩, ⟨rfl, hseq, hdata rfl⟩, rfl, ?_⟩
  simp only [fwUpdateSrc]
  rw [show (0 : UInt32) = UInt32.ofNat 0 from rfl]
  simp only [hc]

/-- The transfer returns true exactly when the file reads as `n` records and the first
    `n` exchanges are accepted; it has then sent `n` packets, numbered from zero. -/
theorem fwUpdateSrc_run (device : Nat → Exchange) (file : List UInt8) (report : Report) :
    ((fwUpdateSrc device (some file) report).outcome = .ret true ↔
      ∃ n, recordsIn file = some n ∧ AllAccepted device report n) ∧
    ∀ n, recordsIn file = some n → AllAccepted device report n →
      (fwUpdateSrc device (some file) report).sent.length = n ∧
      NumberedFrom 0 (fwUpdateSrc device (some file) report).sent := by
  cases hn : recordsIn file with
  | none =>
    rw [fwUpdateSrc_exit device report hn]
    refine ⟨⟨?_, ?_⟩, ?_⟩
    · intro h; cases h
    · rintro ⟨n, h, -⟩; cases h
    · intro n h; cases h
  | some n =>
    obtain ⟨s, hs, hrep, hrun⟩ := fwUpdateSrc_second device report hn
    obtain ⟨hok, hno⟩ := sendPackets_run device (UInt32.ofNat n) n file 0 s hn hs
    simp only [Nat.zero_add, hrep, notAllSent_self] at hok hno
    rw [hrun]
    refine ⟨⟨fun hout => ⟨n, rfl, ?_⟩, ?_⟩, ?_⟩
    · by_contra hall
      exact hno hall hout
    · rintro ⟨m, hm, hall⟩
      cases hm
      exact (hok hall).1
    · intro m hm hall
      cases hm
      exact (hok hall).2

/-! ## Acknowledgement -/

/-- If the transfer returns true, every packet was answered, before the next one was
    sent, with status SUCCESS and the packet's own sequence number. -/
def Acknowledged (device : Nat → Exchange) (report : Report) (run : Run) : Prop :=
  run.outcome = .ret true → ∀ k p, run.sent[k]? = some p →
    ∃ r, responseAt device report k = some r ∧ contentStatus r = firmwareUpdateSuccess ∧
      contentSequence r = packetSequence p

/-- Every transfer is acknowledged exactly when the responses of a device that answers
    SUCCESS to all packets of the file carry the packets' numbers. -/
theorem acknowledged_iff (device : Nat → Exchange) (file : List UInt8) (report : Report) :
    Acknowledged device report (fwUpdateSrc device (some file) report) ↔
      ∀ n, recordsIn file = some n → AllAccepted device report n →
        ∀ k < n, ∀ r, responseAt device report k = some r → contentSequence r = k % 65536 := by
  obtain ⟨hout, hsent⟩ := fwUpdateSrc_run device file report
  constructor
  · intro hack n hn hall k hk r hr
    obtain ⟨hlen, hnum⟩ := hsent n hn hall
    have hp := List.getElem?_eq_getElem (hlen ▸ hk)
    obtain ⟨r', hr', -, hseq⟩ := hack (hout.mpr ⟨n, hn, hall⟩) k _ hp
    obtain rfl : r = r' := Option.some.inj (hr.symm.trans hr')
    rw [hseq, hnum k _ hp, Nat.zero_add]
  · intro hcond htrue k p hp
    obtain ⟨n, hn, hall⟩ := hout.mp htrue
    obtain ⟨hlen, hnum⟩ := hsent n hn hall
    have hk : k < n := hlen ▸ (List.getElem?_eq_some_iff.mp hp).1
    obtain ⟨-, r, hr, hst⟩ := hall k hk
    refine ⟨r, hr, hst, ?_⟩
    rw [hcond n hn hall k hk r hr, hnum k p hp, Nat.zero_add]

/-- A port that takes a packet at once, and a device that answers SUCCESS at once, to
    packet 0 whatever packet that was. -/
def prompt : Exchange := ⟨[⟨.wrote 61, .noErr⟩], [.chunk (List.replicate 17 0)]⟩

/-- Two records of one byte, both answered by the response to the first: the transfer
    returns true, and packet 1 is acknowledged with number 0. -/
theorem stale_response_acknowledges :
    let file : List UInt8 := [0, 0, 0, 0, 1, 0xaa, 1, 0, 0, 0, 1, 0xbb]
    let run := fwUpdateSrc (fun _ => prompt) (some file) .start
    run.outcome = .ret true ∧ (∃ p, run.sent[1]? = some p ∧ packetSequence p = 1) ∧
      (∃ r, responseAt (fun _ => prompt) .start 1 = some r ∧ contentSequence r = 0) ∧
      ¬ Acknowledged (fun _ => prompt) .start run := by
  intro file run
  have hfirst : processSrecBin file .zero = some (true, [1, 0, 0, 0, 1, 0xbb],
      { ContentData.zero with length := 1, data := 0xaa :: List.replicate 51 0 }) := rfl
  have hsecond : processSrecBin [1, 0, 0, 0, 1, 0xbb] .zero = some (true, [],
      { ContentData.zero with length := 1, address := 1, data := 0xbb :: List.replicate 51 0 }) := rfl
  have hend : processSrecBin [] .zero = some (false, [], .zero) := rfl
  have hn : recordsIn file = some 2 := by
    rw [recordsIn_next hfirst, recordsIn_next hsecond, recordsIn_stop hend]
    rfl
  have hall : AllAccepted (fun _ => prompt) .start 2 := by
    intro k hk
    interval_cases k
    · exact ⟨rfl, _, rfl, rfl⟩
    · exact ⟨rfl, _, rfl, rfl⟩
  obtain ⟨hout, hsent⟩ := fwUpdateSrc_run (fun _ => prompt) file .start
  obtain ⟨hlen, hnum⟩ := hsent 2 hn hall
  have htrue : run.outcome = .ret true := hout.mpr ⟨2, hn, hall⟩
  obtain ⟨p, hp⟩ : ∃ p, run.sent[1]? = some p :=
    ⟨_, List.getElem?_eq_getElem (show 1 < run.sent.length from hlen.symm ▸ (by decide : 1 < 2))⟩
  have hseq : packetSequence p = 1 := hnum 1 p hp
  refine ⟨htrue, ⟨_, hp, hseq⟩, ⟨_, rfl, rfl⟩, fun hack => ?_⟩
  obtain ⟨r, hr, -, hr'⟩ := hack htrue 1 _ hp
  cases hr
  rw [hseq] at hr'
  exact absurd hr' (by decide)

end AmebaLinux.Rcp.FwUpdateSrc
