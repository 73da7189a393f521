/-
  AmebaLinux.Rcp.Tty — the RCP tool's serial port
  (`openthread/RTKRCP_Config_CFU_Tool_V1.02_20241218/ttydevice.c`: `ttyWaitForWritable`,
  `ttyWrite`, `ttyRead`, `ttyWaitForFrame`).

  What the operating system and the device do is a script. A turn of `ttyWrite`'s loop
  reads the outcome of one `write` and, where it asks, of one `ttyWaitForWritable`. A
  turn of `ttyWaitForFrame`'s loop reads what `select` and `read` gave. A script that
  has run out means nothing more happens before the deadline.

  `ttyWrite` first makes a trace of the frame in `send_s`; where that leaves the buffer it
  is `none`. `ttyWriteLoop` is its loop, with the pointer and the 16-bit length of the code;
  `ttyWriteRest` is the same loop on what is left of the frame, as the requests of the tool
  use it (their frames have at most 258 bytes, see `encoded_traced`).
-/

namespace AmebaLinux.Rcp.Tty

/-- `T_EXEC_RESULT`. -/
inductive ExecResult where
  | noErr
  | timeout
  | disconn
  | unexpected
  | unknown
  deriving DecidableEq, Repr

/-! ## Writing -/

inductive WriteRes where
  /-- `write` took `n` bytes, or all of them when there were fewer. -/
  | wrote (n : Nat)
  /-- `EAGAIN`, `EWOULDBLOCK` or `EINTR`. -/
  | again
  | fatal
  deriving DecidableEq, Repr

structure WriteTurn where
  write : WriteRes
  /-- What `ttyWaitForWritable` answers if this turn asks it. -/
  wait : ExecResult
  deriving DecidableEq, Repr

/-- The loop of `ttyWrite` on what is left of the frame: the result, and the bytes the
    device took. -/
def ttyWriteRest : List WriteTurn → List UInt8 → ExecResult × List UInt8
  | _, [] => (.noErr, [])
  | [], _ :: _ => (.timeout, [])
  | t :: script, b :: aFrame =>
    match t.write with
    | .fatal => (.unexpected, [])
    | .again => if t.wait = .noErr then ttyWriteRest script (b :: aFrame) else (t.wait, [])
    | .wrote n =>
      if (b :: aFrame).length ≤ n then (.noErr, b :: aFrame)
      else if t.wait = .noErr then
        let r := ttyWriteRest script ((b :: aFrame).drop n)
        (r.1, (b :: aFrame).take n ++ r.2)
      else (t.wait, (b :: aFrame).take n)

/-- What one `select` of `ttyWaitForWritable` gives. -/
inductive SelectEv where
  /-- The descriptor is in the set of writable ones, in the set of failed ones. -/
  | ready (writable error : Bool)
  /-- -1, and not `EINTR`. -/
  | failed
  /-- 0 or `EINTR`, and whether the clock has reached `end` then. -/
  | idle (late : Bool)
  deriving DecidableEq, Repr

def ttyWaitForWritable : List SelectEv → ExecResult
  | [] => .timeout
  | .ready writable error :: _ => if writable then .noErr else if error then .disconn else .unknown
  | .failed :: _ => .unexpected
  | .idle late :: script => if late then .timeout else ttyWaitForWritable script

/-- A turn given by the outcomes of `write` and of the `select`s after it. -/
structure WriteScript where
  write : WriteRes
  selects : List SelectEv
  deriving DecidableEq, Repr

def WriteScript.turn (s : WriteScript) : WriteTurn := ⟨s.write, ttyWaitForWritable s.selects⟩

/-- The loop of `ttyWrite`: `aFrame` has moved on by `off`, `aLength` bytes are left. The
    result, and the bytes of each `write` that took some. -/
def ttyWriteLoop (frame : List UInt8) : List WriteTurn → Nat → UInt16 → ExecResult × List (List UInt8)
  | [], _, aLength => if aLength = 0 then (.noErr, []) else (.timeout, [])
  | t :: script, off, aLength =>
    if aLength = 0 then (.noErr, [])
    else
      match t.write with
      | .fatal => (.unexpected, [])
      | .again => if t.wait = .noErr then ttyWriteLoop frame script off aLength else (t.wait, [])
      | .wrote n =>
        let rval := min n aLength.toNat
        let took := (frame.drop off).take rval
        if rval = aLength.toNat then (.noErr, [took])
        else if t.wait = .noErr then
          let r := ttyWriteLoop frame script (off + (UInt16.ofNat rval).toNat) (aLength - UInt16.ofNat rval)
          (r.1, took :: r.2)
        else (t.wait, [took])

/-- A frame as `ttyWrite` is given it: its length is a `uint16_t`. -/
structure Frame where
  bytes : List UInt8
  fits : bytes.length < 65536

/-- `sizeof(send_s)`. -/
def sendSize : Nat := 2048

/-- How many characters `snprintf` stores at `count` of a trace of `size` bytes: four and a
    NUL, cut to `size - 1 - count`, which past `size - 1` is a huge `size_t`. -/
def traceStored (size count : Nat) : Nat := if count ≤ size - 1 then min 5 (size - 1 - count) else 5

/-- The trace of some bytes, from `count` on: `count` behind it, or `none` when `snprintf`
    has stored past the `size` bytes of the trace. -/
def traceLoop (size : Nat) : List UInt8 → Nat → Option Nat
  | [], count => some count
  | _ :: bytes, count => if count + traceStored size count ≤ size then traceLoop size bytes (count + 4) else none

/-- The result, and the bytes of each `write` that took some. -/
def ttyWrite (f : Frame) (script : List WriteTurn) : Option (ExecResult × List (List UInt8)) :=
  (traceLoop sendSize f.bytes 0).map fun _ => ttyWriteLoop f.bytes script 0 (UInt16.ofNat f.bytes.length)

/-! ## Waiting for a frame -/

/-- Why `select` makes `ttyWaitForFrame` give up. -/
inductive SelectError where
  | disconn
  | unexpected
  | unknown
  deriving DecidableEq, Repr

def SelectError.result : SelectError → ExecResult
  | .disconn => .disconn
  | .unexpected => .unexpected
  | .unknown => .unknown

theorem SelectError.result_ne_noErr (error : SelectError) : error.result ≠ .noErr := by cases error <;> decide

inductive ReadEv where
  /-- `read` gave these bytes. -/
  | chunk (buff : List UInt8)
  /-- `select` or `read` was interrupted, or there was nothing to read. -/
  | idle
  | failed (error : SelectError)
  deriving DecidableEq, Repr

section

variable {σ : Type} (handler : σ → List UInt8 → Option (σ × Bool))

/-- A handler keeps its state in `σ`, answers whether the frame is whole, and exits the
    process with `none`. -/
def ttyWaitForFrame : σ → List ReadEv → Option (ExecResult × σ)
  | s, [] => some (.timeout, s)
  | s, .idle :: script => ttyWaitForFrame s script
  | s, .failed error :: _ => some (error.result, s)
  | s, .chunk buff :: script =>
    if buff = [] then ttyWaitForFrame s script
    else
      match handler s buff with
      | none => none
      | some (s', true) => some (.noErr, s')
      | some (s', false) => ttyWaitForFrame s' script

end

/-- The device side of one request: how the write went, and what was read after it. -/
structure Exchange where
  writes : List WriteTurn
  reads : List ReadEv
  deriving DecidableEq, Repr

end AmebaLinux.Rcp.Tty
