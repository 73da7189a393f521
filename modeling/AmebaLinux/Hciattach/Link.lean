/-
  AmebaLinux.Hciattach.Link — commands to the Bluetooth controller, and the loop that
  downloads a patch with them (`bluetooth/hciattach/hciattach_h4.c`: `start_xfer_wait`;
  `hci_download_v3.c`: `hci_vendor_read`, `hci_vendor_write`; the `while (1)` of
  `hci_download_patch_v2` and `hci_download_patch_v3`).

  What arrives from the controller is a list of what the receiver makes of its bytes, one
  event packet or one error after the other, consumed from the front over all commands
  (what follows an event too long for the buffer is whatever its bytes parse to). An
  empty list is a controller that says no more, so a wait on it times out and exits.
  `sent` records the commands and whether each was answered by a Command Complete for it
  that carries status 0. `start_xfer_wait` takes a Command Complete too short to carry a
  status for one with status 0: its buffer is zeroed.
-/

import AmebaLinux.Lib.Bytes
import AmebaLinux.Lib.Prog

namespace AmebaLinux.Hciattach.Link

open AmebaLinux.Lib
open AmebaLinux.Lib.Bytes

/-! ## Waiting for a Command Complete -/

inductive Rx where
  /-- An event packet: its code and parameters. -/
  | event (code : UInt8) (params : List UInt8)
  /-- The write, the poll or a read fails. -/
  | error
  deriving DecidableEq, Repr

structure Sent where
  cmd : List UInt8
  answered : Bool
  deriving DecidableEq, Repr

structure St where
  rx : List Rx
  sent : List Sent
  deriving DecidableEq, Repr

/-- How a run ends other than by returning. -/
inductive Stop where
  /-- `exit(EXIT_FAILURE)` after a timeout. -/
  | exited
  /-- A read outside a buffer. -/
  | fault
  deriving DecidableEq, Repr

abbrev Run (α : Type) : Type := Prog St Stop α

def opcode (lo hi : UInt8) : UInt16 := lo.toUInt16 ||| (hi.toUInt16 <<< 8)

/-- The opcode of a command packet. -/
def cmdOpcode (cmd : List UInt8) : UInt16 := opcode (cmd.getD 1 0) (cmd.getD 2 0)

/-- The event packet as `buf` holds it. -/
def packet (code : UInt8) (params : List UInt8) : List UInt8 := [0x04, code, UInt8.ofNat params.length] ++ params

inductive Reply where
  | timeout
  /-- -1: an error, another opcode, or a status that is not zero. -/
  | failed
  /-- 0, with the packet received. -/
  | accepted (packet : List UInt8)
  deriving DecidableEq, Repr

def evtCommandComplete : UInt8 := 0x0e
def bufSize : Nat := 64

/-- Packets other than Command Complete are skipped. -/
def waitReply (op : UInt16) : List Rx → Reply × List Rx
  | [] => (.timeout, [])
  | .error :: rx => (.failed, rx)
  | .event code params :: rx =>
    if params.length + 3 > bufSize then (.failed, rx)
    else if code = evtCommandComplete then
      let buf := packet code params
      if opcode (buf.getD 4 0) (buf.getD 5 0) = op then
        if buf.getD 6 0 ≠ 0 then (.failed, rx) else (.accepted buf, rx)
      else (.failed, rx)
    else waitReply op rx

/-- The packet has a status byte. -/
def hasStatus (packet : List UInt8) : Bool := decide (7 ≤ packet.length)

/-- Send a command and wait: `none` for -1, else the packet received. -/
def startXferWait (cmd : List UInt8) : Run (Option (List UInt8)) := fun s =>
  match waitReply (cmdOpcode cmd) s.rx with
  | (.timeout, rx) => (.error .exited, ⟨rx, s.sent ++ [⟨cmd, false⟩]⟩)
  | (.failed, rx) => (.ok none, ⟨rx, s.sent ++ [⟨cmd, false⟩]⟩)
  | (.accepted packet, rx) => (.ok (some packet), ⟨rx, s.sent ++ [⟨cmd, hasStatus packet⟩]⟩)

/-! ## Vendor commands -/

def hciFail : UInt8 := 0
def hciIgnore : UInt8 := 2

/-- What the code meets besides the controller. -/
structure Env where
  /-- `tcsetattr` succeeds. -/
  setattr : Bool
  /-- The bytes an uninitialised `resp` holds, by the number of commands sent. -/
  stack : Nat → Nat → UInt8

/-- Byte `i` of a response buffer of `size` bytes that held `old`. -/
def respByte (size : Nat) (old : Nat → UInt8) (packet : List UInt8) (i : Nat) : UInt8 :=
  if i < min size packet.length then packet.getD i 0 else old i

def le32 (n : UInt32) : List UInt8 :=
  [n.toUInt8, (n >>> 8).toUInt8, (n >>> 16).toUInt8, (n >>> 24).toUInt8]

def vendorReadCmd (addr : UInt32) : List UInt8 := [0x01, 0x61, 0xfc, 5, 0x21] ++ le32 addr

def vendorWriteCmd (addr value : UInt32) : List UInt8 := [0x01, 0x62, 0xfc, 9, 0x21] ++ le32 addr ++ le32 value

def toUInt32 (b : Nat → UInt8) : UInt32 :=
  (b 0).toUInt32 ||| ((b 1).toUInt32 <<< 8) ||| ((b 2).toUInt32 <<< 16) ||| ((b 3).toUInt32 <<< 24)

/-- The value read, or `none` for `HCI_FAIL`. -/
def hciVendorRead (e : Env) (addr : UInt32) : Run (Option UInt32) := do
  let s ← Prog.get
  match ← startXferWait (vendorReadCmd addr) with
  | none => pure none
  | some packet =>
    let resp := respByte 12 (e.stack s.sent.length) packet
    if resp 4 ≠ 0x61 ∨ resp 5 ≠ 0xfc ∨ resp 6 ≠ 0 then pure none else pure (some (toUInt32 fun i => resp (7 + i)))

/-- Whether it returned `HCI_SUCCESS`. -/
def hciVendorWrite (e : Env) (addr value : UInt32) : Run Bool := do
  let s ← Prog.get
  match ← startXferWait (vendorWriteCmd addr value) with
  | none => pure false
  | some packet =>
    let resp := respByte 8 (e.stack s.sent.length) packet
    if resp 4 ≠ 0x62 ∨ resp 5 ≠ 0xfc ∨ resp 6 ≠ 0 then pure false else pure true

/-- Writes one after the other, up to the first that fails. -/
def vendorWrites (e : Env) : List (UInt32 × UInt32) → Run Bool
  | [] => pure true
  | (addr, value) :: rest => do
    if ← hciVendorWrite e addr value then vendorWrites e rest else pure false

/-! ## The download loop -/

/-- One turn: register writes, then a download command; `last` where the command ends the
    download, so that the port is set before it. -/
structure Step where
  writes : List (UInt32 × UInt32)
  cmd : List UInt8
  last : Bool
  deriving DecidableEq, Repr

/-- Why no command was built: the function returned, or it left a buffer. -/
inductive Halt where
  | ret (r : UInt8)
  | fault
  deriving DecidableEq, Repr

abbrev Build (α : Type) : Type := Except Halt α

/-- `ended` is the test of the response's index byte. `ret` is a `uint8_t`, so a failed
    transfer makes it 255 and passes for no error; the zeroed response then fails the
    check of its opcode. Each turn takes a packet, so `fuel` past their number is never
    used up. -/
def downloadLoop {γ : Type} (e : Env) (next : γ → Build (Step × γ)) (ended : UInt8 → Bool) : Nat → Nat → γ → Run UInt8
  | 0, _, _ => Prog.exit .exited
  | fuel + 1, rlen, info =>
    match next info with
    | .error .fault => Prog.exit .fault
    | .error (.ret ret) => pure ret
    | .ok (s, info') => do
      if !(← vendorWrites e s.writes) then pure hciFail
      else if s.last && !e.setattr then pure 255
      else
        match ← startXferWait s.cmd with
        | none => pure 255
        | some packet =>
          let rlen := min rlen packet.length
          let resp := respByte rlen (fun _ => 0) packet
          if resp 4 ≠ 0x20 ∨ resp 5 ≠ 0xfc ∨ resp 6 ≠ 0 then pure 0
          else if ended (resp 7) then pure 0
          else downloadLoop e next ended fuel rlen info'

/-- `TRIM_INDEX`: 0 to 127, then 1 to 127 again and again. -/
def trimIndex (index : UInt16) : UInt8 :=
  if index ≥ 0x80 then ((index - 0x80) % 0x7f + 1).toUInt8 else (index % 0x80).toUInt8

/-! ## Buffers -/

def hciPatchFragSize : Nat := 252
def reserveLen : Nat := 1

/-- A config as `rtb_read_config` gives it: its length is a `uint16_t`. -/
structure ConfigBuf where
  bytes : List UInt8
  fits : bytes.length < 65536

/-- The little-endian number in `k` bytes at `off`. -/
def readLe (buf : List UInt8) (off k : Nat) : Build Nat :=
  if off + k ≤ buf.length then pure (leNat ((buf.drop off).take k)) else throw .fault

def readByte (buf : List UInt8) (off : Nat) : Build UInt8 :=
  match buf[off]? with
  | some b => pure b
  | none => throw .fault

/-- `len` bytes at `off`. -/
def slice (buf : List UInt8) (off len : Nat) : Build (List UInt8) :=
  if off + len ≤ buf.length then pure ((buf.drop off).take len) else throw .fault

/-- `memcpy` to an offset that may have gone below zero. -/
def copyTo (buf : List UInt8) (off : Int) (src : List UInt8) : Build (List UInt8) :=
  if 0 ≤ off ∧ off + src.length ≤ buf.length then pure (overlay buf off.toNat src) else throw .fault

end AmebaLinux.Hciattach.Link
