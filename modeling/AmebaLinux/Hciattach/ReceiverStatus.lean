/-
  AmebaLinux.Hciattach.ReceiverStatus — what `start_xfer_wait` has heard when it returns 0
  (see `AmebaLinux.Hciattach.Receiver`), on any port at all.

  The buffer is cleared before each packet, and 0 is success: bytes that did not come are
  read as a matching opcode or a good status. That happens with a Command Complete of fewer
  than four parameters, and with a header that reads returning 0 cut short.

  Proved:
  - `inv_rounds`: the buffer holds the last bytes read, from the packet's first on.
  - `status_received_iff`: a 0 always stands for a status that was received, exactly when no
    such packet is heard for the command's opcode.
  - `missing_status_accepted`: a Command Complete without a status is taken for success.
-/

import AmebaLinux.Hciattach.ReceiverProofs

namespace AmebaLinux.Hciattach.Receiver

open AmebaLinux.Lib.Bytes
open AmebaLinux.Hciattach.Link

/-! ## The statement -/

/-- The bytes that come from a port. -/
def bytes (port : Port) : List UInt8 :=
  port.flatMap fun e => match e with
    | .data bytes => bytes
    | _ => []

/-- The packet that this round ends, as far as it was received. -/
def heard (r : Recv) : Option (List UInt8) :=
  match poll r.port with
  | (.ready, _) =>
    match r.state with
    | .pktType => none
    | .header =>
      match readData 2 r.port with
      | none => none
      | some rd => if 0 ≤ rd.ret ∧ rd.ret ≠ 2 then some (r.buf.take r.count ++ rd.stored) else none
    | .payload =>
      match sysRead r.paramsLen r.port with
      | none => none
      | some rd => if rd.ret ≠ -1 ∧ r.paramsLen - rd.ret.toNat = 0 then some (r.buf.take r.count ++ rd.stored) else none
  | _ => none

/-- The states the rounds of the loop start from. -/
def rounds (x : Xfer) : Nat → Next → List Recv
  | _, .stop _ _ => []
  | 0, .go _ => []
  | fuel + 1, .go r => r :: rounds x fuel (turn x r)

def waits (x : Xfer) (retry : Int) (port : Port) : List Recv :=
  if x.cmd.length < 4 then []
  else rounds x (2 * (weight port + retry.toNat) + 2) (startXfer x ⟨zeros, .pktType, 0, 0, retry, 0, port⟩)

/-- A Command Complete for the opcode, with a status of 0 in it. -/
def Succeeds (op : UInt16) (pkt : List UInt8) : Prop :=
  ∃ params, pkt = packet evtCommandComplete params ∧ 4 ≤ params.length ∧ params.length ≤ 61 ∧
    opcode (params.getD 1 0) (params.getD 2 0) = op ∧ params.getD 3 0 = 0

/-- A 0 is returned only after such a packet, the last bytes read from the port. -/
def StatusReceived (x : Xfer) (retry : Int) (port : Port) : Prop :=
  ∀ resp port', startXferWait x retry port = (.accepted resp, port') →
    ∃ r ∈ waits x retry port, ∃ pkt pre, heard r = some pkt ∧ Succeeds (cmdOpcode x.cmd) pkt ∧
      bytes port = pre ++ pkt ++ bytes port'

/-- A Command Complete that ends before its status; the opcode's bytes that are missing
    count as 0. -/
def Short (op : UInt16) (pkt : List UInt8) : Prop :=
  pkt.getD 1 0 = evtCommandComplete ∧ pkt.length < 7 ∧ opcode (pkt.getD 4 0) (pkt.getD 5 0) = op

/-! ## Reading -/

@[simp] theorem bytes_nil : bytes [] = [] := rfl
@[simp] theorem bytes_data (b : List UInt8) (port : Port) : bytes (.data b :: port) = b ++ bytes port := rfl
@[simp] theorem bytes_silence (port : Port) : bytes (.silence :: port) = bytes port := rfl
@[simp] theorem bytes_again (port : Port) : bytes (.again :: port) = bytes port := rfl
@[simp] theorem bytes_failed (port : Port) : bytes (.failed :: port) = bytes port := rfl

/-- `read` fails, or stores the bytes that come next, at most as many as asked. -/
theorem sysRead_bytes {len : Nat} {port : Port} {rd : Read} (h : sysRead len port = some rd) :
    bytes port = rd.stored ++ bytes rd.port ∧
      (rd.ret = -1 ∨ rd.ret = rd.stored.length ∧ rd.stored.length ≤ len) := by
  induction port with
  | nil =>
    unfold sysRead at h
    split at h
    · cases h
      exact ⟨rfl, .inr ⟨rfl, Nat.zero_le _⟩⟩
    · cases h
  | cons e port ih =>
    cases e with
    | silence =>
      unfold sysRead at h
      split at h
      · cases h
        exact ⟨rfl, .inr ⟨rfl, Nat.zero_le _⟩⟩
      · exact ih h
    | again =>
      cases h
      exact ⟨rfl, .inl rfl⟩
    | failed =>
      cases h
      exact ⟨rfl, .inl rfl⟩
    | data b =>
      unfold sysRead at h
      split at h
      · cases h
        exact ⟨by simp, .inr ⟨rfl, by assumption⟩⟩
      · rename_i hlong
        have hlen : (b.take len).length = len := by
          rw [List.length_take]
          omega
        cases h
        refine ⟨?_, .inr ⟨by rw [hlen], hlen.le⟩⟩
        rw [bytes_data, bytes_data, ← List.append_assoc, List.take_append_drop]

/-- `read_data` fails, or stores the bytes that come next: all it was asked for, or fewer
    when it gives up with 0. -/
theorem readLoop_bytes {len count : Nat} {got : List UInt8} {port : Port} {rd : Read}
    (h : readLoop len count got port = some rd) :
    got ++ bytes port = rd.stored ++ bytes rd.port ∧
      (rd.ret = -1 ∨ (rd.ret = 0 ∧ rd.stored.length < got.length + len) ∨
        (rd.ret = rd.stored.length ∧ rd.stored.length = got.length + len)) := by
  induction port generalizing len count got with
  | nil =>
    unfold readLoop at h
    split at h
    · rename_i hlen
      cases h
      exact ⟨rfl, .inr (.inr ⟨rfl, by rw [hlen]; rfl⟩)⟩
    · cases h
  | cons e port ih =>
    by_cases hlen : len = 0
    · rw [readLoop.eq_def, if_pos hlen] at h
      cases h
      exact ⟨rfl, .inr (.inr ⟨rfl, by rw [hlen]; rfl⟩)⟩
    · cases e with
      | silence =>
        rw [readLoop, if_neg hlen] at h
        exact ih h
      | again =>
        rw [readLoop, if_neg hlen] at h
        exact ih h
      | failed =>
        rw [readLoop, if_neg hlen] at h
        cases h
        exact ⟨rfl, .inl rfl⟩
      | data b =>
        by_cases hnone : b = []
        · subst hnone
          rw [readLoop, if_neg hlen] at h
          split at h
          · cases h
            exact ⟨rfl, .inr (.inl ⟨rfl, by dsimp only; omega⟩)⟩
          · exact ih h
        · rw [readLoop_data hlen hnone] at h
          split at h
          · rename_i hshort
            obtain ⟨hbytes, hret⟩ := ih h
            rw [List.append_assoc] at hbytes
            rw [List.length_append] at hret
            refine ⟨hbytes, ?_⟩
            have hsum : got.length + b.length + (len - b.length) = got.length + len := by omega
            rwa [hsum] at hret
          · rename_i hlong
            have htake : (b.take len).length = len := by
              rw [List.length_take]
              omega
            cases h
            refine ⟨?_, .inr (.inr ⟨?_, ?_⟩)⟩
            · rw [bytes_data, bytes_data, List.append_assoc, ← List.append_assoc (b.take len), List.take_append_drop]
            · rw [List.length_append, htake]
              rfl
            · rw [List.length_append, htake]

/-! ## What the buffer holds -/

theorem filled_take (got : List UInt8) {n : Nat} (h : got.length = n) : (filled got).take n = got := by
  subst h
  simp [filled, overlay]

/-- A byte at the front replaces the one that is there. -/
theorem filled_first {junk : List UInt8} (h : junk.length ≤ 1) (b : UInt8) : overlay (filled junk) 0 [b] = filled [b] := by
  cases junk with
  | nil => rfl
  | cons c junk =>
    obtain rfl : junk = [] := List.length_eq_zero_iff.mp (by simpa using h)
    rfl

/-- The buffer holds the bytes read since the packet's first, cleared behind them. -/
structure Inv (all : List UInt8) (r : Recv) : Prop where
  read : ∃ pre, all = pre ++ r.buf.take r.count ++ bytes r.port
  state : match r.state with
    | .pktType => ∃ junk : List UInt8, junk.length ≤ 1 ∧ r.buf = filled junk ∧ r.count = 0
    | .header => r.buf = filled [0x04] ∧ r.count = 1
    | .payload => ∃ code len params, r.buf = filled ([0x04, code, len] ++ params) ∧
      r.count = ([0x04, code, len] ++ params).length ∧
        params.length + r.paramsLen = len.toNat ∧ len.toNat ≤ 61

theorem inv_startRecv {all : List UInt8} {r : Recv} (h : ∃ pre, all = pre ++ bytes r.port) : Inv all (startRecv r) := by
  obtain ⟨pre, hall⟩ := h
  exact ⟨⟨pre, by simpa [startRecv] using hall⟩, [], Nat.zero_le _, rfl, rfl⟩

theorem Inv.rest {all : List UInt8} {r : Recv} (h : Inv all r) : ∃ pre, all = pre ++ bytes r.port := by
  obtain ⟨pre, hall⟩ := h.read
  exact ⟨_, hall⟩

/-- A packet that was heard: cut short in its header, or whole. -/
def Shaped (pkt : List UInt8) : Prop :=
  pkt.length ≤ 2 ∨ ∃ code params, pkt = packet code params ∧ params.length ≤ 61

/-- A round that hears a packet: it is judged by a buffer with that packet in it. -/
structure Hears (x : Xfer) (all : List UInt8) (r : Recv) (pkt : List UInt8) (r' : Recv) : Prop where
  heard : heard r = some pkt
  judged : turn x r = judge x r'
  buf : r'.buf = filled pkt
  read : ∃ pre, all = pre ++ pkt ++ bytes r'.port
  shaped : Shaped pkt

/-- A round that hears none: it goes on, or stops without accepting. -/
def Quiet (x : Xfer) (all : List UInt8) (r : Recv) : Prop :=
  heard r = none ∧
    ((∃ r', turn x r = .go r' ∧ Inv all r') ∨ ∃ outcome port, turn x r = .stop outcome port ∧ ∀ resp, outcome ≠ .accepted resp)

section

variable {x : Xfer} {all : List UInt8} {r : Recv}

theorem type_quiet (h : Inv all r) (hready : poll r.port = (.ready, r.port)) (hstate : r.state = .pktType) : Quiet x all r := by
  have hturn : turn x r = readType r := by rw [turn, hready, readState, hstate]
  have hheard : heard r = none := by rw [heard, hready, hstate]
  obtain ⟨pre, hall⟩ := h.rest
  have hinv := h.state
  rw [hstate] at hinv
  obtain ⟨junk, hjunk, hbuf, hcount⟩ := hinv
  refine ⟨hheard, ?_⟩
  rw [hturn, readType]
  cases hread : readData 1 r.port with
  | none => exact .inr ⟨_, _, rfl, fun _ => by simp⟩
  | some rd =>
    obtain ⟨hbytes, hret⟩ := readLoop_bytes hread
    rw [List.nil_append] at hbytes
    dsimp only
    split
    · exact .inr ⟨_, _, rfl, fun _ => by simp⟩
    · rename_i hone
      -- the one byte takes the place of the junk before it
      obtain ⟨b, hb⟩ : ∃ b, rd.stored = [b] := List.length_eq_one_iff.mp (by
        rcases hret with hret | ⟨hret, _⟩ | ⟨_, hlen⟩
        · omega
        · omega
        · simpa using hlen)
      have hstored : overlay r.buf 0 rd.stored = filled [b] := by rw [hb, hbuf, filled_first hjunk]
      have hfirst : (filled [b]).getD 0 0 = b := filled_getD 0
      rw [hstored, hfirst]
      split
      · rename_i hb4
        refine .inl ⟨_, rfl, ⟨pre, ?_⟩, by rw [hb4], rfl⟩
        dsimp only
        rw [filled_take [b] (n := 1) rfl, hall, hbytes, hb, List.append_assoc]
      · refine .inl ⟨_, rfl, ⟨pre ++ [b], ?_⟩, ?_⟩
        · dsimp only
          rw [hcount, hall, hbytes, hb, List.take_zero, List.append_nil, List.append_assoc]
        · dsimp only
          rw [hstate]
          exact ⟨[b], le_refl _, rfl, hcount⟩

theorem header_round (h : Inv all r) (hready : poll r.port = (.ready, r.port)) (hstate : r.state = .header) :
    (∃ pkt r', Hears x all r pkt r') ∨ Quiet x all r := by
  have hturn : turn x r = readHeader x r := by rw [turn, hready, readState, hstate]
  obtain ⟨pre, hall⟩ := h.read
  have hinv := h.state
  rw [hstate] at hinv
  obtain ⟨hbuf, hcount⟩ := hinv
  have hgot : r.buf.take r.count = [0x04] := by rw [hbuf, hcount, filled_take [0x04] (n := 1) rfl]
  cases hread : readData 2 r.port with
  | none =>
    refine .inr ⟨by rw [heard, hready, hstate, hread], .inr ⟨.stuck, [], ?_, by simp⟩⟩
    rw [hturn, readHeader, hread]
  | some rd =>
    obtain ⟨hbytes, hret⟩ := readLoop_bytes hread
    rw [List.nil_append] at hbytes
    have hstored : overlay r.buf r.count rd.stored = filled ([0x04] ++ rd.stored) := by
      rw [hbuf, hcount]
      exact filled_overlay [0x04] rd.stored
    have hheard : heard r = if 0 ≤ rd.ret ∧ rd.ret ≠ 2 then some ([0x04] ++ rd.stored) else none := by
      rw [heard, hready, hstate]
      dsimp only
      rw [hread, hgot]
    have hnext : turn x r = _ := hturn.trans (by rw [readHeader, hread])
    dsimp only at hnext
    rw [hstored] at hnext
    rcases hret with hret | ⟨hret, hless⟩ | ⟨hret, hlen⟩
    · -- an error
      refine .inr ⟨?_, .inr ⟨.failed, rd.port, ?_, by simp⟩⟩
      · rw [hheard, if_neg (by omega)]
      · rw [hnext, if_pos (by omega)]
    · -- given up: what there is of the header is judged
      refine .inl ⟨[0x04] ++ rd.stored, { r with buf := filled ([0x04] ++ rd.stored), port := rd.port }, ?_, ?_, rfl,
        ⟨pre, ?_⟩, .inl ?_⟩
      · rw [hheard, if_pos (by omega)]
      · rw [hnext, if_neg (by omega), if_pos (by omega)]
      · dsimp only
        rw [hall, hgot, hbytes]
        simp
      · rw [List.length_append, List.length_singleton]
        simp only [List.length_nil] at hless
        omega
    · -- the whole header
      obtain ⟨code, len, hpair⟩ : ∃ code len, rd.stored = [code, len] := List.length_eq_two.mp (by simpa using hlen)
      have hparams : (filled ([0x04] ++ [code, len])).getD 2 0 = len := filled_getD 2
      refine .inr ⟨?_, ?_⟩
      · rw [hheard, if_neg (by rw [hret, hpair]; simp)]
      · rw [hnext, hret, hpair, if_neg (by simp), if_neg (by simp), hparams]
        split
        · exact .inr ⟨_, _, rfl, by simp⟩
        · rename_i hfits
          simp only [bufSize] at hfits
          refine .inl ⟨_, rfl, ⟨pre, ?_⟩, ?_⟩
          · dsimp only
            rw [hall, hgot, hbytes, hpair, hcount, filled_take ([0x04] ++ [code, len]) (n := 1 + 2) rfl]
            simp
          · exact ⟨code, len, [], rfl, by rw [hcount]; rfl, by simp, by omega⟩

theorem payload_round (h : Inv all r) (hready : poll r.port = (.ready, r.port)) (hstate : r.state = .payload) :
    (∃ pkt r', Hears x all r pkt r') ∨ Quiet x all r := by
  have hturn : turn x r = readPayload x r := by rw [turn, hready, readState, hstate]
  obtain ⟨pre, hall⟩ := h.read
  have hinv := h.state
  rw [hstate] at hinv
  obtain ⟨code, len, params, hbuf, hcount, hleft, hfits⟩ := hinv
  have hgot : r.buf.take r.count = [0x04, code, len] ++ params := by rw [hbuf, hcount, filled_take _ rfl]
  cases hread : sysRead r.paramsLen r.port with
  | none =>
    refine .inr ⟨by rw [heard, hready, hstate]; dsimp only; rw [hread], .inr ⟨.stuck, [], ?_, by simp⟩⟩
    rw [hturn, readPayload, hread]
  | some rd =>
    obtain ⟨hbytes, hret⟩ := sysRead_bytes hread
    have hheard : heard r =
        if rd.ret ≠ -1 ∧ r.paramsLen - rd.ret.toNat = 0 then some ([0x04, code, len] ++ params ++ rd.stored) else none := by
      rw [heard, hready, hstate]
      dsimp only
      rw [hread, hgot]
    have hstored : overlay r.buf r.count rd.stored = filled ([0x04, code, len] ++ (params ++ rd.stored)) := by
      rw [hbuf, hcount, filled_overlay, List.append_assoc]
    have hnext : turn x r = _ := hturn.trans (by rw [readPayload, hread])
    dsimp only at hnext
    rw [hstored] at hnext
    rcases hret with hret | ⟨hret, hmost⟩
    · refine .inr ⟨?_, .inr ⟨.failed, rd.port, ?_, by simp⟩⟩
      · rw [hheard, if_neg (fun h => h.1 hret)]
      · rw [hnext, if_pos hret]
    · have hgood : rd.ret ≠ -1 := by omega
      have hsize : rd.ret.toNat = rd.stored.length := by omega
      have hread' : all = pre ++ ([0x04, code, len] ++ (params ++ rd.stored)) ++ bytes rd.port := by
        rw [hall, hgot, hbytes]
        simp
      rw [if_neg hgood, hsize] at hnext
      rw [hsize, List.append_assoc] at hheard
      by_cases hlast : r.paramsLen - rd.stored.length = 0
      · rw [if_pos hlast] at hnext
        rw [if_pos ⟨hgood, hlast⟩] at hheard
        refine .inl ⟨_, _, hheard, hnext, rfl, ⟨pre, hread'⟩, .inr ⟨code, params ++ rd.stored, ?_, ?_⟩⟩
        · have hlen : (params ++ rd.stored).length = len.toNat := by
            rw [List.length_append]
            omega
          rw [packet, hlen, UInt8.ofNat_toNat]
        · rw [List.length_append]
          omega
      · rw [if_neg hlast] at hnext
        rw [if_neg (fun h => hlast h.2)] at hheard
        refine .inr ⟨hheard, .inl ⟨_, hnext, ⟨pre, ?_⟩, ?_⟩⟩
        · dsimp only
          rw [filled_take _ (by rw [hcount]; simp; omega)]
          exact hread'
        · dsimp only
          rw [hstate]
          refine ⟨code, len, params ++ rd.stored, rfl, ?_, ?_, hfits⟩
          · rw [hcount]
            simp
            omega
          · rw [List.length_append]
            omega

/-- A `poll` takes no bytes. -/
theorem poll_cases (port : Port) :
    poll port = (.ready, port) ∨ ∃ rest, bytes rest = bytes port ∧
      (poll port = (.timeout, rest) ∨ poll port = (.failed, rest)) := by
  cases port with
  | nil => exact .inr ⟨[], rfl, .inl rfl⟩
  | cons e port =>
    cases e with
    | data b => exact .inl rfl
    | again => exact .inl rfl
    | failed => exact .inr ⟨port, rfl, .inr rfl⟩
    | silence => exact .inr ⟨port, rfl, .inl rfl⟩

/-- All that a round can do. -/
theorem turn_cases (h : Inv all r) : (∃ pkt r', Hears x all r pkt r') ∨ Quiet x all r := by
  rcases poll_cases r.port with hready | ⟨rest, hrest, hpoll | hpoll⟩
  · cases hstate : r.state with
    | pktType => exact .inr (type_quiet h hready hstate)
    | header => exact header_round h hready hstate
    | payload => exact payload_round h hready hstate
  · refine .inr ⟨by rw [heard, hpoll], ?_⟩
    rw [turn, hpoll]
    dsimp only
    split
    · exact .inr ⟨_, _, rfl, by simp⟩
    · unfold startXfer
      split
      · refine .inl ⟨_, rfl, inv_startRecv ?_⟩
        obtain ⟨pre, hall⟩ := h.rest
        exact ⟨pre, by rw [hall, ← hrest]⟩
      · exact .inr ⟨_, _, rfl, by simp⟩
  · refine .inr ⟨by rw [heard, hpoll], .inr ⟨.failed, rest, ?_, by simp⟩⟩
    rw [turn, hpoll]

theorem inv_turn (h : Inv all r) {r' : Recv} (hgo : turn x r = .go r') : Inv all r' := by
  rcases turn_cases (x := x) h with ⟨pkt, judged, hears⟩ | ⟨_, ⟨next, hturn, hnext⟩ | ⟨outcome, port, hturn, _⟩⟩
  · rw [hears.judged] at hgo
    rw [judge_go hgo]
    apply inv_startRecv
    obtain ⟨pre, hall⟩ := hears.read
    exact ⟨pre ++ pkt, hall⟩
  · rw [hturn] at hgo
    cases hgo
    exact hnext
  · rw [hturn] at hgo
    cases hgo

/-! ## The run -/

theorem inv_rounds {fuel : Nat} {next : Next} (h : ∀ r, next = .go r → Inv all r) : ∀ r ∈ rounds x fuel next, Inv all r := by
  induction fuel generalizing next with
  | zero =>
    cases next with
    | stop outcome port => simp [rounds]
    | go r => simp [rounds]
  | succ fuel ih =>
    cases next with
    | stop outcome port => simp [rounds]
    | go r =>
      intro r' hr'
      cases List.mem_cons.mp hr' with
      | inl heq =>
        rw [heq]
        exact h r rfl
      | inr hr' => exact ih (fun _ hgo => inv_turn (h r rfl) hgo) r' hr'

/-- The wait ends with a round. -/
theorem receive_last {fuel : Nat} {r : Recv} {resp : Option (List UInt8)} {port : Port}
    (h : receive x fuel (.go r) = (.accepted resp, port)) :
    ∃ last ∈ rounds x fuel (.go r), turn x last = .stop (.accepted resp) port := by
  induction fuel generalizing r with
  | zero => cases h
  | succ fuel ih =>
    rw [receive] at h
    cases hturn : turn x r with
    | stop outcome p =>
      rw [hturn, receive] at h
      cases h
      exact ⟨r, List.mem_cons_self, hturn⟩
    | go next =>
      rw [hturn] at h
      obtain ⟨last, hlast, hstop⟩ := ih h
      refine ⟨last, List.mem_cons_of_mem _ ?_, hstop⟩
      rwa [hturn]

/-- A round that stops is the last, and what it returns is returned. -/
theorem rounds_stop {fuel : Nat} {next : Next} {last : Recv} (hlast : last ∈ rounds x fuel next) {outcome : Outcome} {port : Port}
    (h : turn x last = .stop outcome port) :
    receive x fuel next = (outcome, port) ∧ (rounds x fuel next).getLast? = some last := by
  induction fuel generalizing next with
  | zero =>
    cases next with
    | stop outcome port => simp [rounds] at hlast
    | go r => simp [rounds] at hlast
  | succ fuel ih =>
    cases next with
    | stop outcome port => simp [rounds] at hlast
    | go r =>
      have hrounds : rounds x (fuel + 1) (.go r) = r :: rounds x fuel (turn x r) := rfl
      rw [hrounds] at hlast ⊢
      cases List.mem_cons.mp hlast with
      | inl heq =>
        subst heq
        rw [receive, h]
        exact ⟨by rw [receive], by simp [rounds]⟩
      | inr hlast =>
        obtain ⟨hreturn, hend⟩ := ih hlast
        refine ⟨hreturn, ?_⟩
        rw [List.getLast?_cons, hend]
        rfl

end

/-! ## The status -/

theorem judge_accepted_iff {x : Xfer} {r : Recv} {pkt : List UInt8} (hbuf : r.buf = filled pkt) :
    (∃ resp port, judge x r = .stop (.accepted resp) port) ↔
      pkt.getD 1 0 = evtCommandComplete ∧ opcode (pkt.getD 4 0) (pkt.getD 5 0) = cmdOpcode x.cmd ∧ pkt.getD 6 0 = 0 := by
  unfold judge
  rw [hbuf, filled_getD, filled_getD, filled_getD, filled_getD]
  split
  · split
    · split <;> simp_all
    · simp_all
  · simp_all

theorem judge_port {x : Xfer} {r : Recv} {outcome : Outcome} {port : Port} (h : judge x r = .stop outcome port) :
    r.port = port := by
  unfold judge at h
  split at h
  · split at h
    · split at h
      · cases h
        rfl
      · cases h
        rfl
    · cases h
      rfl
  · cases h

section

variable {x : Xfer} {retry : Int} {port : Port}

theorem inv_waits {r : Recv} (h : r ∈ waits x retry port) : Inv (bytes port) r := by
  unfold waits at h
  split at h
  · cases h
  · refine inv_rounds ?_ r h
    intro r' hgo
    unfold startXfer at hgo
    split at hgo
    · cases hgo
      exact inv_startRecv ⟨[], rfl⟩
    · cases hgo

theorem waits_last {resp : Option (List UInt8)} {rest : Port} (h : startXferWait x retry port = (.accepted resp, rest)) :
    ∃ last ∈ waits x retry port, turn x last = .stop (.accepted resp) rest := by
  unfold startXferWait at h
  unfold waits
  split at h
  · cases h
  · rename_i hlong
    rw [if_neg hlong]
    unfold startXfer at h ⊢
    split at h
    · rename_i hwrite
      rw [if_pos hwrite]
      exact receive_last h
    · rw [receive] at h
      cases h

theorem waits_stop {last : Recv} (hlast : last ∈ waits x retry port) {outcome : Outcome} {rest : Port}
    (h : turn x last = .stop outcome rest) :
    startXferWait x retry port = (outcome, rest) ∧ (waits x retry port).getLast? = some last := by
  unfold startXferWait
  unfold waits at hlast ⊢
  split at hlast
  · cases hlast
  · rename_i hlong
    rw [if_neg hlong, if_neg hlong]
    exact rounds_stop hlast h

/-- A round that accepts has heard a packet that answers the command, where the bytes that
    did not come count as 0. -/
theorem accepting_heard {r : Recv} (hr : r ∈ waits x retry port) {resp : Option (List UInt8)} {rest : Port}
    (h : turn x r = .stop (.accepted resp) rest) :
    ∃ pkt pre, heard r = some pkt ∧ Shaped pkt ∧ bytes port = pre ++ pkt ++ bytes rest ∧
      pkt.getD 1 0 = evtCommandComplete ∧ opcode (pkt.getD 4 0) (pkt.getD 5 0) = cmdOpcode x.cmd ∧ pkt.getD 6 0 = 0 := by
  rcases turn_cases (x := x) (inv_waits hr) with ⟨pkt, r', hears⟩ | ⟨_, ⟨next, hturn, _⟩ | ⟨outcome, _, hturn, hother⟩⟩
  · rw [hears.judged] at h
    obtain ⟨pre, hall⟩ := hears.read
    have hport : r'.port = rest := judge_port h
    refine ⟨pkt, pre, hears.heard, hears.shaped, by rw [hall, hport], ?_⟩
    exact (judge_accepted_iff hears.buf).mp ⟨_, _, h⟩
  · rw [hturn] at h
    cases h
  · rw [hturn] at h
    cases h
    exact absurd rfl (hother resp)

/-- A packet that answers the command, in this way, ends the wait. -/
theorem heard_accepted {r : Recv} (hr : r ∈ waits x retry port) {pkt : List UInt8} (hheard : heard r = some pkt)
    (h : pkt.getD 1 0 = evtCommandComplete ∧ opcode (pkt.getD 4 0) (pkt.getD 5 0) = cmdOpcode x.cmd ∧ pkt.getD 6 0 = 0) :
    ∃ resp rest, turn x r = .stop (.accepted resp) rest := by
  rcases turn_cases (x := x) (inv_waits hr) with ⟨pkt', r', hears⟩ | ⟨hnone, _⟩
  · have hpkt : pkt' = pkt := Option.some.inj (hears.heard.symm.trans hheard)
    subst hpkt
    obtain ⟨resp, rest, haccept⟩ := (judge_accepted_iff hears.buf).mpr h
    exact ⟨resp, rest, hears.judged.trans haccept⟩
  · rw [hnone] at hheard
    cases hheard

theorem succeeds_of_answer {op : UInt16} {pkt : List UInt8} (hshaped : Shaped pkt) (hcode : pkt.getD 1 0 = evtCommandComplete)
    (hop : opcode (pkt.getD 4 0) (pkt.getD 5 0) = op) (hstatus : pkt.getD 6 0 = 0) (hlong : 7 ≤ pkt.length) :
    Succeeds op pkt := by
  rcases hshaped with hcut | ⟨code, params, rfl, hmost⟩
  · omega
  · have hlen : (packet code params).length = params.length + 3 := rfl
    have hfront : code = evtCommandComplete := hcode
    exact ⟨params, by rw [hfront], by omega, hmost, hop, hstatus⟩

/-- A 0 always stands for a status of 0 that was received, exactly when no Command Complete
    for the command is heard that ends before its status. -/
theorem status_received_iff (x : Xfer) (retry : Int) (port : Port) :
    StatusReceived x retry port ↔ ∀ r ∈ waits x retry port, ∀ pkt, heard r = some pkt → ¬ Short (cmdOpcode x.cmd) pkt := by
  constructor
  · intro hall r hr pkt hheard hshort
    obtain ⟨hcode, hlen, hop⟩ := hshort
    have hstatus : pkt.getD 6 0 = 0 := by
      rw [List.getD_eq_getElem?_getD, List.getElem?_eq_none (by omega)]
      rfl
    obtain ⟨resp, rest, hstop⟩ := heard_accepted hr hheard ⟨hcode, hop, hstatus⟩
    obtain ⟨hwait, hlast⟩ := waits_stop hr hstop
    obtain ⟨r', hr', pkt', pre, hheard', ⟨params, rfl, hfour, _, hop', hstatus'⟩, _⟩ := hall resp rest hwait
    -- both packets end the wait, so they are one
    obtain ⟨resp', rest', hstop'⟩ := heard_accepted hr' hheard' ⟨rfl, hop', hstatus'⟩
    obtain ⟨_, hlast'⟩ := waits_stop hr' hstop'
    have hsame : r' = r := Option.some.inj (hlast'.symm.trans hlast)
    rw [hsame, hheard] at hheard'
    have hlen' : (packet evtCommandComplete params).length = params.length + 3 := rfl
    rw [Option.some.inj hheard', hlen'] at hlen
    omega
  · intro hnone resp rest hwait
    obtain ⟨last, hlast, hstop⟩ := waits_last hwait
    obtain ⟨pkt, pre, hheard, hshaped, hall, hcode, hop, hstatus⟩ := accepting_heard hlast hstop
    have hlong : 7 ≤ pkt.length := by
      by_contra hless
      exact hnone last hlast pkt hheard ⟨hcode, by omega, hop⟩
    exact ⟨last, hlast, pkt, pre, hheard, succeeds_of_answer hshaped hcode hop hstatus hlong, hall⟩

end

/-- The Reset command, and a Command Complete for it that ends with the opcode. -/
def resetXfer : Xfer := { cmd := [0x01, 0x03, 0x0c, 0x00], respLen := none, write := fun _ => true }
def noStatus : Port := [.data [0x04, 0x0e, 0x03, 0x01, 0x03, 0x0c]]

theorem length_of_succeeds {op : UInt16} {pkt all pre post : List UInt8} (h : Succeeds op pkt) (hall : all = pre ++ pkt ++ post) :
    7 ≤ all.length := by
  obtain ⟨params, rfl, hfour, _⟩ := h
  have hlen : (packet evtCommandComplete params).length = params.length + 3 := rfl
  rw [hall, List.length_append, List.length_append, hlen]
  omega

/-- The command is reported as done, and the status was never sent. -/
theorem missing_status_accepted :
    startXferWait resetXfer 10 noStatus = (.accepted none, []) ∧ (bytes noStatus).length = 6 ∧
      ¬ StatusReceived resetXfer 10 noStatus := by
  have hwait : startXferWait resetXfer 10 noStatus = (.accepted none, []) := by decide +kernel
  refine ⟨hwait, rfl, ?_⟩
  intro hall
  obtain ⟨r, _, pkt, pre, _, hsucceeds, hbytes⟩ := hall none [] hwait
  have hseven := length_of_succeeds hsucceeds hbytes
  have hsix : (bytes noStatus).length = 6 := rfl
  omega

end AmebaLinux.Hciattach.Receiver
