/-
  AmebaLinux.Adb.Sockets — the streams of the adb protocol (`adb/sockets.c`, and the packets
  `A_OPEN`, `A_OKAY`, `A_CLSE` and `A_WRTE` of `handle_packet` in `adb/adb.c`).

  Both ends of a transport run this code. Each end has local sockets, bound to a file
  descriptor; the remote socket that is a local socket's peer only knows the other end's id.
  Data read from a descriptor goes out as `A_WRTE`, and no more is read until the other end
  has written all of it and answered `A_OKAY`.

  The transport is online and keeps the packets of each direction in order. What `read` and
  `write` answer, in which order descriptors become ready and when packets arrive is open.
  Fewer than 2^32 sockets are opened, so that `local_socket_next_id` does not wrap. What
  service a destination names is left out: it has a descriptor or not.

  A destroyed socket stays in the model for its history. An open socket gets the events it
  asked for, and a read when its service's process has ended; a closing one may get a read
  that it no longer wants, since `fdevent_set` does not take it back
  (`AmebaLinux.Adb.Fdevent`). Descriptors stay valid until their socket is destroyed.
-/

import AmebaLinux.Adb.Packets

namespace AmebaLinux.Adb.Sockets

open AmebaLinux.Adb.Packets (maxPayload)

inductive Packet
  | aOpen (arg0 : Nat)
  | aOkay (arg0 arg1 : Nat)
  | aClse (arg0 arg1 : Nat)
  | aWrte (arg0 arg1 : Nat) (data : List UInt8)
deriving DecidableEq, Repr

/-- In `local_socket_list`, in `local_socket_closing_list`, or freed. -/
inductive Phase
  | live
  | closing
  | gone
deriving DecidableEq, Repr

/-- Who closed a socket: an `A_CLSE`, the end of its file, or a failed write. -/
inductive Cause
  | peer
  | eof
  | error
deriving DecidableEq, Repr

structure Asocket where
  phase : Phase := .live
  /-- The peer's id. `close` frees the peer; the id stays here. -/
  peer : Option Nat := none
  /-- What is left of each packet from `pkt_first` on. -/
  pkts : List (List UInt8) := []
  fdeRead : Bool := false
  fdeWrite : Bool := false
  /-- Read from the descriptor and handed to the peer, ever. -/
  got : List UInt8 := []
  /-- Written to the descriptor, ever. -/
  put : List UInt8 := []
  /-- What `local_socket_destroy` found unwritten and discarded. -/
  lost : List UInt8 := []
  cause : Option Cause := none
deriving DecidableEq, Repr

/-! ## Reads and writes -/

/-- What one `adb_write` answers; `wrote k` is a write of `k + 1` bytes or of all. -/
inductive WriteResult
  | wrote (k : Nat)
  | eagain
  | eintr
  | fail
deriving DecidableEq, Repr

inductive Outcome
  | done
  | again
  | failed
deriving DecidableEq, Repr

structure Written where
  out : List UInt8
  left : List UInt8
  outcome : Outcome
  rest : List WriteResult

/-- Writing one packet; the answers after the last one given are `EAGAIN`. Only the event
    function tries again after `EINTR`. -/
def writeLoop (retry : Bool) : List WriteResult → List UInt8 → Written
  | [], p => ⟨[], p, if p = [] then .done else .again, []⟩
  | w :: ws, p =>
    if p = [] then ⟨[], [], .done, w :: ws⟩
    else
      match w with
      | .wrote k =>
        let r := writeLoop retry ws (p.drop (k + 1))
        { r with out := p.take (k + 1) ++ r.out }
      | .eagain => ⟨[], p, .again, ws⟩
      | .eintr => if retry then writeLoop retry ws p else ⟨[], p, .failed, ws⟩
      | .fail => ⟨[], p, .failed, ws⟩

/-- The queue of packets, from its first one on. -/
def drainLoop : List (List UInt8) → List WriteResult → List UInt8 × List (List UInt8) × Outcome
  | [], _ => ([], [], .done)
  | p :: ps, ws =>
    let r := writeLoop true ws p
    match r.outcome with
    | .done =>
      let d := drainLoop ps r.rest
      (r.out ++ d.1, d.2)
    | o => (r.out, r.left :: ps, o)

/-- What one `adb_read` answers; `eof` is also an error that is not handled. -/
inductive ReadResult
  | data (b : UInt8) (bs : List UInt8)
  | eagain
  | eintr
  | eof
deriving DecidableEq, Repr

/-- What is read into a packet, and whether the file ended. -/
def readLoop : Nat → List ReadResult → List UInt8 × Bool
  | _, [] => ([], false)
  | avail, r :: rs =>
    if avail = 0 then ([], false)
    else
      match r with
      | .data b bs =>
        let x := (b :: bs).take avail
        let next := readLoop (avail - x.length) rs
        (x ++ next.1, next.2)
      | .eagain => ([], false)
      | .eintr => readLoop avail rs
      | .eof => ([], true)

/-! ## Local sockets -/

/-- `remote_socket_close`, of a peer that was cut off before. -/
def remoteSocketClose (id : Nat) : Packet := .aClse 0 id

/-- `local_socket_close_locked`: the peer is told once; a socket with packets left waits for
    them, and is destroyed at the second call with what is left then. -/
def localSocketClose (cause : Cause) (s : Asocket) : Asocket × List Packet :=
  match s.phase with
  | .live =>
    let sent := (s.peer.map remoteSocketClose).toList
    if s.pkts = [] then ({ s with phase := .gone, fdeRead := false, fdeWrite := false, cause := some cause }, sent)
    else ({ s with phase := .closing, fdeRead := false, cause := some cause }, sent)
  | _ => ({ s with phase := .gone, pkts := [], lost := s.pkts.flatten ++ s.lost, fdeRead := false, fdeWrite := false }, [])

/-- The result is true where the source returns 0, ready for more data. -/
def localSocketEnqueue (s : Asocket) (data : List UInt8) (ws : List WriteResult) : (Asocket × List Packet) × Bool :=
  if s.pkts ≠ [] then (({ s with pkts := s.pkts ++ [data], fdeWrite := true }, []), false)
  else
    let r := writeLoop false ws data
    let s := { s with put := s.put ++ r.out }
    match r.outcome with
    | .done => ((s, []), true)
    | .again => (({ s with pkts := [r.left], fdeWrite := true }, []), false)
    | .failed => (localSocketClose .error s, false)

def localSocketReady (s : Asocket) : Asocket := { s with fdeRead := true }

/-- `FDE_WRITE`, and whether the function goes on with `FDE_READ`. `none` is a call through
    a null pointer. -/
def writeEvent (id : Nat) (s : Asocket) (ws : List WriteResult) : Option ((Asocket × List Packet) × Bool) :=
  let d := drainLoop s.pkts ws
  let s := { s with put := s.put ++ d.1, pkts := d.2.1 }
  match d.2.2 with
  | .again => some ((s, []), false)
  | .failed => some (localSocketClose .error s, false)
  | .done =>
    if s.phase ≠ .live then some (localSocketClose .error s, false)
    else s.peer.map fun j => (({ s with fdeWrite := false }, [.aOkay id j]), true)

/-- `FDE_READ`. Without a peer, or on a closing socket, what is read is dropped. `force_eof`
    does nothing here: a remote peer's `enqueue` returns 1. -/
def readEvent (id : Nat) (s : Asocket) (rs : List ReadResult) : Asocket × List Packet :=
  let r := readLoop maxPayload rs
  let peer := if s.phase = .live then s.peer else none
  let sent := match peer with
    | some j => if r.1 = [] then (s, []) else ({ s with got := s.got ++ r.1, fdeRead := false }, [.aWrte id j r.1])
    | none => (s, [])
  if r.2 then
    let c := localSocketClose .eof sent.1
    (c.1, sent.2 ++ c.2)
  else sent

def localSocketEventFunc (id : Nat) (s : Asocket) (ws : Option (List WriteResult)) (rs : Option (List ReadResult)) :
    Option (Asocket × List Packet) :=
  let write := match ws with
    | some ws => writeEvent id s ws
    | none => some ((s, []), true)
  write.map fun w =>
    match rs with
    | some rs =>
      if w.2 then
        let r := readEvent id w.1.1 rs
        (r.1, w.1.2 ++ r.2)
      else w.1
    | none => w.1

/-- `handle_packet`, once `find_local_socket` has found `arg1`. -/
def handleFound (id : Nat) (s : Asocket) (ws : List WriteResult) : Packet → Asocket × List Packet
  | .aOkay arg0 _ => (localSocketReady { s with peer := some (s.peer.getD arg0) }, [])
  | .aClse _ _ => localSocketClose .peer s
  | .aWrte arg0 _ data =>
    let r := localSocketEnqueue s data ws
    if r.2 then (r.1.1, r.1.2 ++ [.aOkay id arg0]) else r.1
  | .aOpen _ => (s, [])

/-! ## Both ends -/

inductive Side
  | host
  | device
deriving DecidableEq, Repr

def Side.other : Side → Side
  | .host => .device
  | .device => .host

structure Net where
  /-- `local_socket_next_id`. -/
  next : Side → Nat
  sock : Side → Nat → Option Asocket
  /-- The packets on their way to this side. -/
  wire : Side → List Packet

def Net.start : Net := ⟨fun _ => 1, fun _ _ => none, fun _ => []⟩

def Net.store (n : Net) (x : Side) (id : Nat) (s : Asocket) : Net :=
  { n with sock := fun y j => if y = x ∧ j = id then some s else n.sock y j }

def Net.send (n : Net) (x : Side) (ps : List Packet) : Net :=
  { n with wire := fun y => if y = x then n.wire y ++ ps else n.wire y }

/-- The first packet has been read; `rest` is behind it. -/
def Net.pop (n : Net) (x : Side) (rest : List Packet) : Net :=
  { n with wire := fun y => if y = x then rest else n.wire y }

/-- `send_packet` of what a socket's function sends. -/
def Net.apply (n : Net) (x : Side) (id : Nat) (r : Asocket × List Packet) : Net := (n.store x id r.1).send x.other r.2

/-- `install_local_socket`. -/
def Net.install (n : Net) (x : Side) (s : Asocket) : Net :=
  { n.store x (n.next x) s with next := fun y => if y = x then n.next y + 1 else n.next y }

def findLocalSocket (n : Net) (x : Side) (id : Nat) : Option Asocket := (n.sock x id).filter (·.phase = .live)

inductive Event
  /-- A listener's connection: `create_local_socket` and `connect_to_remote`. -/
  | connect (x : Side)
  | fd (x : Side) (id : Nat) (ws : Option (List WriteResult)) (rs : Option (List ReadResult))
  /-- The next packet arrives; `service` says whether a service was found for an `A_OPEN`. -/
  | deliver (x : Side) (service : Bool) (ws : List WriteResult)

/-- The read that `fdevent_subproc_event_func` asks for when a service's process has ended:
    `FIONREAD` found nothing to read. A service's socket has a peer. -/
def exited (s : Asocket) (rs : List ReadResult) : Bool := s.peer.isSome && (readLoop maxPayload rs).1 = []

/-- The events that `fdevent` may hand to a socket. -/
def wanted (s : Asocket) (ws : Option (List WriteResult)) (rs : Option (List ReadResult)) : Bool :=
  match s.phase with
  | .live => (ws.isNone || s.fdeWrite) && rs.all fun rs => s.fdeRead || exited s rs
  | .closing => ws.isNone || s.fdeWrite
  | .gone => false

def handlePacket (n : Net) (x : Side) (service : Bool) (ws : List WriteResult) : Packet → Net
  | .aOpen arg0 =>
    if service then
      (n.install x (localSocketReady { peer := some arg0 })).send x.other [.aOkay (n.next x) arg0]
    else n.send x.other [.aClse 0 arg0]
  | .aOkay arg0 arg1 =>
    match findLocalSocket n x arg1 with
    | some s => n.apply x arg1 (handleFound arg1 s ws (.aOkay arg0 arg1))
    | none => n
  | .aClse arg0 arg1 =>
    match findLocalSocket n x arg1 with
    | some s => n.apply x arg1 (handleFound arg1 s ws (.aClse arg0 arg1))
    | none => n
  | .aWrte arg0 arg1 data =>
    match findLocalSocket n x arg1 with
    | some s => n.apply x arg1 (handleFound arg1 s ws (.aWrte arg0 arg1 data))
    | none => n

/-- `none` is a call through a null pointer. -/
def step (n : Net) : Event → Option Net
  | .connect x => some ((n.install x {}).send x.other [.aOpen (n.next x)])
  | .fd x id ws rs =>
    match n.sock x id with
    | none => some n
    | some s => if wanted s ws rs then (localSocketEventFunc id s ws rs).map (n.apply x id) else some n
  | .deliver x service ws =>
    match n.wire x with
    | [] => some n
    | p :: rest => some (handlePacket (n.pop x rest) x service ws p)

def run (n : Net) (events : List Event) : Option Net := events.foldlM step n

end AmebaLinux.Adb.Sockets
