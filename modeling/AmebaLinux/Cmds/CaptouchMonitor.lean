/-
  AmebaLinux.Cmds.CaptouchMonitor — the captouch monitor (`cmds/captouch/captouch_app.c`:
  `cap_monitor_send_data` to `cap_monitor_stop`, the start and stop requests of
  `cap_rx_process`).

  A start request resets the counters, arms the timer and creates a sender thread. Each
  run of the timer's handler takes a sample into a page of `cap_monitor_buf` and posts
  `timer_sema`; the sender waits for the semaphore, sends a page and looks at
  `monitor_stop`. Requests, ticks and the steps of the senders (`Pc`) are interleaved in
  any order; each is atomic. A sender that waits with no token does not move. A tick is a
  run of the handler, whenever the signal is delivered.

  The registers that a sample and a packet read are given with the event. The counters
  have 32 bits. `taken` is ghost state, and so is that `sent` begins anew with each start.
-/

import AmebaLinux.Cmds.CaptouchTune
import AmebaLinux.Lib.Machine

namespace AmebaLinux.Cmds.Captouch.Monitor

open Tune (capMaxCh)

def capChDataSize : Nat := 9
def capDataPageSize : Nat := 128
def capDataPageNum : Nat := 2

/-- The channels of a start request; nonzero is enabled. -/
abbrev Channels : Type := Fin capMaxCh → UInt8

/-- What the registers of a channel hold: its average and its baseline. -/
structure Reading where
  raw : UInt16
  baseline : UInt16
  deriving DecidableEq, Repr

abbrev Sample : Type := Fin capMaxCh → Reading

/-- The data part of a packet and its header. -/
structure Packet where
  seq : UInt32
  channels : UInt8
  snr : UInt16
  len : UInt16
  checksum : UInt8
  data : List UInt8
  deriving DecidableEq, Repr

/-- Where a sender is. -/
inductive Pc where
  /-- At `sem_wait`. -/
  | waiting
  /-- With a token, before looking at the counters. -/
  | woken
  /-- Before looking at `monitor_stop`. -/
  | checking
  deriving DecidableEq, Repr

structure St where
  rxCnt : UInt32
  txCnt : UInt32
  channels : Channels
  monitorChannels : UInt8
  monitorStop : Bool
  busy : Bool
  timerSema : Nat
  capMonitorBuf : Nat → UInt8
  senders : List Pc
  /-- Ghost: the samples taken since the last start. -/
  taken : Nat
  sent : List Packet

/-- The state after `app_init`. -/
def start : St where
  rxCnt := 0
  txCnt := 0
  channels := fun _ => 0
  monitorChannels := 0
  monitorStop := false
  busy := false
  timerSema := 0
  capMonitorBuf := fun _ => 0
  senders := []
  taken := 0
  sent := []

/-! ## Samples -/

def lo (x : UInt16) : UInt8 := x.toUInt8
def hi (x : UInt16) : UInt8 := (x >>> 8).toUInt8

/-- `ctc_get_ch_rt_data`, as the bytes of `cap_ch_rt_data_t`. -/
def chRtData (ch : Fin capMaxCh) (r : Reading) : List UInt8 :=
  let diff := r.baseline - r.raw
  [.ofNat ch, lo r.raw, hi r.raw, lo r.baseline, hi r.baseline, lo diff, hi diff, 0, 0]

/-- `memcpy` to an offset. -/
def store (buf : Nat → UInt8) (offset : Nat) (bytes : List UInt8) : Nat → UInt8 :=
  fun i => if offset ≤ i ∧ i < offset + bytes.length then bytes.getD (i - offset) 0 else buf i

/-- One turn of the loop over the channels; the number of those that are enabled. -/
def pushChannel (channels : Channels) (sample : Sample) (base : Nat) (acc : (Nat → UInt8) × Nat) (ch : Fin capMaxCh) :
    (Nat → UInt8) × Nat :=
  if channels ch ≠ 0 then (store acc.1 (base + acc.2 * capChDataSize) (chRtData ch (sample ch)), acc.2 + 1) else acc

def capMonitorGetData (sample : Sample) (s : St) : St :=
  let base := s.rxCnt.toNat % capDataPageNum * capDataPageSize
  let (buf, _) := (List.finRange capMaxCh).foldl (pushChannel s.channels sample base) (s.capMonitorBuf, 0)
  { s with capMonitorBuf := buf, rxCnt := s.rxCnt + 1, taken := s.taken + 1 }

def monitorTimerHandler (sample : Sample) (s : St) : St :=
  let s := capMonitorGetData sample s
  { s with timerSema := s.timerSema + 1 }

/-! ## Senders -/

def capMonitorSendData (snr : UInt16) (seq : UInt32) (data : List UInt8) (s : St) : St :=
  let packet : Packet := ⟨seq, s.monitorChannels, snr, .ofNat data.length, data.foldl (· ^^^ ·) 0, data⟩
  { s with sent := s.sent ++ [packet] }

/-- The body of the sender's loop up to the test of `monitor_stop`. -/
def sendPage (snr : UInt16) (s : St) : St :=
  if s.txCnt < s.rxCnt then
    let base := s.txCnt.toNat % capDataPageNum * capDataPageSize
    let data := (List.range (s.monitorChannels.toNat * capChDataSize)).map fun i => s.capMonitorBuf (base + i)
    let s := { s with txCnt := s.txCnt + 1 }
    capMonitorSendData snr s.txCnt data s
  else s

/-- A step of sender `i`. -/
def monitorTxThread (i : Nat) (snr : UInt16) (s : St) : St :=
  match s.senders[i]? with
  | none => s
  | some .waiting =>
    if s.timerSema = 0 then s else { s with timerSema := s.timerSema - 1, senders := s.senders.set i .woken }
  | some .woken => { sendPage snr s with senders := s.senders.set i .checking }
  | some .checking =>
    if s.monitorStop then { s with senders := s.senders.eraseIdx i } else { s with senders := s.senders.set i .waiting }

/-! ## Requests -/

def capMonitorStart (channels : Channels) (s : St) : St :=
  { s with channels := channels,
           monitorChannels := .ofNat ((List.finRange capMaxCh).countP fun ch => channels ch ≠ 0),
           rxCnt := 0, txCnt := 0, taken := 0, sent := [] }

/-- `created`: whether `pthread_create` succeeds. -/
def capMonitorStartDaemon (created : Bool) (s : St) : St :=
  let s := { s with monitorStop := false, busy := true }
  if created then { s with senders := s.senders ++ [.waiting] } else s

def capMonitorStop (s : St) : St := if s.monitorStop then s else { s with monitorStop := true, busy := false }

inductive Event where
  | start (channels : Channels) (created : Bool)
  | stop
  | tick (sample : Sample)
  | sender (i : Nat) (snr : UInt16)

def step (s : St) : Event → St
  | .start channels created => capMonitorStartDaemon created (capMonitorStart channels s)
  | .stop => capMonitorStop s
  | .tick sample => monitorTimerHandler sample s
  | .sender i snr => monitorTxThread i snr s

def run (events : List Event) : St := Lib.Machine.run step start events

end AmebaLinux.Cmds.Captouch.Monitor
