/-
  AmebaLinux.Hciattach.Receiver — how `start_xfer_wait` reads event packets from the port
  (`bluetooth/hciattach/hciattach_h4.c`: `read_data`, `start_xfer_wait`), byte by byte.
  `AmebaLinux.Hciattach.Link` starts from the packets.

  `Port` is what is going to happen on the port: the bytes as they become readable, and
  what goes wrong. A `read` returns at most what is readable at once; it waits through
  silence, and on a port where nothing more comes it waits for ever. `poll` reports
  silence as a timeout. A timeout sends the command again and starts a new packet,
  whatever was read of the last one.

  `turn` is one round of the `for` loop, with what follows it where the loop ends.
-/

import AmebaLinux.Hciattach.Link

namespace AmebaLinux.Hciattach.Receiver

open AmebaLinux.Lib.Bytes
open AmebaLinux.Hciattach.Link

/-! ## The port -/

inductive PortEvent where
  /-- Bytes readable at once; none is a `read` that returns 0. -/
  | data (bytes : List UInt8)
  /-- A `read` is interrupted or would block. -/
  | again
  /-- The `poll` or `read` that comes to it fails, or the port hangs up. -/
  | failed
  /-- Nothing within the time of a `poll`. -/
  | silence
  deriving DecidableEq, Repr

abbrev Port : Type := List PortEvent

inductive PollRc where
  | ready
  | timeout
  | failed
  deriving DecidableEq, Repr

def poll : Port → PollRc × Port
  | [] => (.timeout, [])
  | .silence :: port => (.timeout, port)
  | .failed :: port => (.failed, port)
  | .data bytes :: port => (.ready, .data bytes :: port)
  | .again :: port => (.ready, .again :: port)

/-- What a call returns, the bytes it stored and the port after it. -/
structure Read where
  ret : Int
  stored : List UInt8
  port : Port
  deriving DecidableEq, Repr

/-- `read`; `none` where it never returns. -/
def sysRead (len : Nat) : Port → Option Read
  | [] => if len = 0 then some ⟨0, [], []⟩ else none
  | .silence :: port => if len = 0 then some ⟨0, [], .silence :: port⟩ else sysRead len port
  | .again :: port => some ⟨-1, [], port⟩
  | .failed :: port => some ⟨-1, [], port⟩
  | .data bytes :: port =>
    if bytes.length ≤ len then some ⟨bytes.length, bytes, port⟩
    else some ⟨len, bytes.take len, .data (bytes.drop len) :: port⟩

def numOfRetry : Nat := 10

/-- The loop of `read_data`, with `len` bytes to go, `count` reads that returned 0 and
    `got` stored. -/
def readLoop (len count : Nat) (got : List UInt8) (port : Port) : Option Read :=
  if len = 0 then some ⟨got.length, got, port⟩
  else
    match port with
    | [] => none
    | .silence :: port => readLoop len count got port
    | .again :: port => readLoop len count got port
    | .failed :: port => some ⟨-1, got, port⟩
    | .data [] :: port => if count + 1 > numOfRetry then some ⟨0, got, port⟩ else readLoop len (count + 1) got port
    | .data bytes :: port =>
      if bytes.length ≤ len then readLoop (len - bytes.length) count (got ++ bytes) port
      else some ⟨got.length + len, got ++ bytes.take len, .data (bytes.drop len) :: port⟩

def readData (len : Nat) (port : Port) : Option Read := readLoop len 0 [] port

/-! ## The loop of `start_xfer_wait` -/

inductive Stage where
  | pktType
  | header
  | payload
  deriving DecidableEq, Repr

/-- The arguments, and whether each `write` takes the whole command. -/
structure Xfer where
  cmd : List UInt8
  /-- `*resp_len`; `none` where `resp` is `NULL`. -/
  respLen : Option Nat
  write : Nat → Bool

structure Recv where
  buf : List UInt8
  state : Stage
  count : Nat
  paramsLen : Nat
  retry : Int
  writes : Nat
  port : Port
  deriving DecidableEq, Repr

inductive Outcome where
  /-- 0, and what is copied to `resp`. -/
  | accepted (resp : Option (List UInt8))
  /-- -1. -/
  | failed
  /-- `exit(EXIT_FAILURE)`. -/
  | exited
  /-- Never returns. -/
  | stuck
  deriving DecidableEq, Repr

inductive Next where
  | go (r : Recv)
  | stop (outcome : Outcome) (port : Port)
  deriving DecidableEq, Repr

def zeros : List UInt8 := List.replicate bufSize 0

/-- `start_recv`. -/
def startRecv (r : Recv) : Recv := { r with buf := zeros, state := .pktType, count := 0 }

/-- `start_xfer`. -/
def startXfer (x : Xfer) (r : Recv) : Next :=
  if x.write r.writes then .go (startRecv { r with writes := r.writes + 1 }) else .stop .failed r.port

/-- After the loop, with a result that is not negative. -/
def judge (x : Xfer) (r : Recv) : Next :=
  if r.buf.getD 1 0 = evtCommandComplete then
    if opcode (r.buf.getD 4 0) (r.buf.getD 5 0) = cmdOpcode x.cmd then
      if r.buf.getD 6 0 ≠ 0 then .stop .failed r.port
      else .stop (.accepted (x.respLen.map fun n => r.buf.take (min n r.count))) r.port
    else .stop .failed r.port
  else .go (startRecv r)

def readType (r : Recv) : Next :=
  match readData 1 r.port with
  | none => .stop .stuck []
  | some rd =>
    let buf := overlay r.buf 0 rd.stored
    if rd.ret ≠ 1 then .stop .failed rd.port
    else if buf.getD 0 0 = 0x04 then .go { r with buf := buf, count := 1, state := .header, port := rd.port }
    else .go { r with buf := buf, port := rd.port }

/-- A header cut short by reads that return 0 is taken for a packet. -/
def readHeader (x : Xfer) (r : Recv) : Next :=
  match readData 2 r.port with
  | none => .stop .stuck []
  | some rd =>
    let r := { r with buf := overlay r.buf r.count rd.stored, port := rd.port }
    if rd.ret < 0 then .stop .failed rd.port
    else if rd.ret ≠ 2 then judge x r
    else
      let paramsLen := (r.buf.getD 2 0).toNat
      if paramsLen + 3 > bufSize then .stop .failed rd.port
      else .go { r with count := r.count + 2, paramsLen := paramsLen, state := .payload }

def readPayload (x : Xfer) (r : Recv) : Next :=
  match sysRead r.paramsLen r.port with
  | none => .stop .stuck []
  | some rd =>
    if rd.ret = -1 then .stop .failed rd.port
    else
      let r := { r with buf := overlay r.buf r.count rd.stored, count := r.count + rd.ret.toNat,
                        paramsLen := r.paramsLen - rd.ret.toNat, port := rd.port }
      if r.paramsLen = 0 then judge x r else .go r

/-- What is read in each state. -/
def readState (x : Xfer) (r : Recv) : Next :=
  match r.state with
  | .pktType => readType r
  | .header => readHeader x r
  | .payload => readPayload x r

def turn (x : Xfer) (r : Recv) : Next :=
  match poll r.port with
  | (.timeout, port) => if r.retry ≤ 0 then .stop .exited port else startXfer x { r with port := port, retry := r.retry - 1 }
  | (.failed, port) => .stop .failed port
  | (.ready, _) => readState x r

def receive (x : Xfer) : Nat → Next → Outcome × Port
  | _, .stop outcome port => (outcome, port)
  | 0, .go r => (.stuck, r.port)
  | fuel + 1, .go r => receive x fuel (turn x r)

/-- Bytes and events. -/
def weight (port : Port) : Nat :=
  (port.map fun e => match e with
    | .data bytes => bytes.length + 1
    | _ => 1).sum

def startXferWait (x : Xfer) (retry : Int) (port : Port) : Outcome × Port :=
  if x.cmd.length < 4 then (.failed, port)
  else receive x (2 * (weight port + retry.toNat) + 2) (startXfer x ⟨zeros, .pktType, 0, 0, retry, 0, port⟩)

end AmebaLinux.Hciattach.Receiver
