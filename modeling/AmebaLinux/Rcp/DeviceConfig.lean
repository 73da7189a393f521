/-
  AmebaLinux.Rcp.DeviceConfig — the serial port's settings read from a file
  (`openthread/RTKRCP_Config_CFU_Tool_V1.02_20241218/ttydevice.c`:
  `CfuTTYDeviceConfiguration`, `trim`, `parse_device_config`).

  The settings are the bytes of their struct, so that a string copied into one member may
  run into the next ones. Past the end of the struct a copy is outside the model (`none`).
  `RcpConfigBin` is an array of its own and is given by the string in it.

  Lines are bytes as `fgets` returns them. The log is left out.
-/

import AmebaLinux.Lib.Bytes
import AmebaLinux.Lib.CString

namespace AmebaLinux.Rcp.DeviceConfig

open AmebaLinux.Lib.Bytes
open AmebaLinux.Lib.CString

/-! ## The settings -/

/-- The members of `struct CfuTTYDeviceConfiguration`. -/
inductive Member where
  | deviceNode
  | baudrate
  | parity
  | flowctl
  | stopbit
  deriving DecidableEq, Repr

def deviceNodePathLeanMax : Nat := 48

def Member.off : Member → Nat
  | .deviceNode => 0
  | .baudrate => 48
  | .parity => 52
  | .flowctl => 60
  | .stopbit => 64

def Member.size : Member → Nat
  | .deviceNode => deviceNodePathLeanMax
  | .baudrate => 4
  | .parity => 8
  | .flowctl => 4
  | .stopbit => 4

/-- `sizeof(ttydevice)`. -/
def deviceSize : Nat := 68

structure Device where
  bytes : List UInt8
  size : bytes.length = deviceSize
  deriving DecidableEq

def Device.member (d : Device) (m : Member) : List UInt8 := (d.bytes.drop m.off).take m.size

/-- The string in a member's array; one as long as the array has no NUL there. -/
def Device.str (d : Device) (m : Member) : List UInt8 := cstr (d.member m)

def Device.int (d : Device) (m : Member) : Int32 := Int32.ofNat (leNat (d.member m))

/-- Bytes from a member's first on. -/
def Device.store (d : Device) (m : Member) (b : List UInt8) : Option Device :=
  if h : m.off + b.length ≤ deviceSize then
    some ⟨overlay d.bytes m.off b, (overlay_length (by rw [d.size]; exact h)).trans d.size⟩
  else none

def Device.strcpy (d : Device) (m : Member) (value : List UInt8) : Option Device := d.store m (value ++ [0])

def Device.setInt (d : Device) (m : Member) (n : Int32) : Option Device := d.store m (toLe 4 n.toUInt32.toNat)

/-! ## Lines -/

/-- The white space at both ends. -/
def trim (s : List UInt8) : List UInt8 := (s.dropWhile isspace).rdropWhile isspace

def hash : UInt8 := 35
def equals : UInt8 := 61

inductive Entry where
  | noSeparator
  | pair (tag value : List UInt8)
  deriving DecidableEq, Repr

/-- A line as far as `*split = '\0'`; none for a blank line or a comment. -/
def splitLine (line : List UInt8) : Option Entry :=
  let l := trim (cstr line)
  if l = [] ∨ l.head? = some hash then none
  else if equals ∈ l then
    some (.pair (trim (l.takeWhile (· ≠ equals))) (trim ((l.dropWhile (· ≠ equals)).drop 1)))
  else some .noSeparator

/-- The tags that are known. -/
inductive Key where
  | device
  | baudrate
  | parity
  | flowctl
  | stopbit
  | configBin
  deriving DecidableEq, Repr

def Key.tag : Key → List UInt8
  | .device => lit "device"
  | .baudrate => lit "baudrate"
  | .parity => lit "parity"
  | .flowctl => lit "flowctl"
  | .stopbit => lit "stopbit"
  | .configBin => lit "ConfigBin"

/-- The comparisons of the tag, in their order. -/
def keyOf (tag : List UInt8) : Option Key :=
  [.device, .baudrate, .parity, .flowctl, .stopbit, .configBin].find? fun (k : Key) => tag = k.tag

/-- What is done with a line. -/
inductive Action where
  | skip
  | fail
  | device (value : List UInt8)
  | baudrate (n : Int32)
  | parity (value : List UInt8)
  | flowctl (n : Int32)
  | stopbit (n : Int32)
  | configBin (value : List UInt8)
  deriving DecidableEq, Repr

def Entry.action : Entry → Action
  | .noSeparator => .fail
  | .pair tag value =>
    match keyOf tag with
    -- the length of the tag, not of the value
    | some .device => if tag.length + 1 ≤ deviceNodePathLeanMax then .device value else .fail
    | some .baudrate => .baudrate (Int32.ofNat (strtoul value))
    | some .parity => if value = lit "odd" ∨ value = lit "even" ∨ value = lit "none" then .parity value else .fail
    | some .flowctl => if value = lit "enable" then .flowctl 1 else if value = lit "disable" then .flowctl 0 else .fail
    | some .stopbit => if value = lit "1" ∨ value = lit "2" then .stopbit (Int32.ofNat (strtoul value)) else .fail
    | some .configBin => .configBin value
    | none => .skip

/-! ## The loop -/

/-- `sizeof(RcpConfigBin)` and `sizeof(line)`. -/
def configBinSize : Nat := 512
def lineSize : Nat := 512

structure State where
  ttydevice : Device
  rcpConfigBin : List UInt8
  deriving DecidableEq

/-- `ttydevice_tmp`, and `RcpConfigBin`, which has no copy. -/
structure Loop where
  tmp : Device
  rcpConfigBin : List UInt8
  deriving DecidableEq

def Action.exec (l : Loop) : Action → Option Loop
  | .skip => some l
  | .fail => some l
  | .device value => (l.tmp.strcpy .deviceNode value).map fun tmp => { l with tmp := tmp }
  | .baudrate n => (l.tmp.setInt .baudrate n).map fun tmp => { l with tmp := tmp }
  | .parity value => (l.tmp.strcpy .parity value).map fun tmp => { l with tmp := tmp }
  | .flowctl n => (l.tmp.setInt .flowctl n).map fun tmp => { l with tmp := tmp }
  | .stopbit n => (l.tmp.setInt .stopbit n).map fun tmp => { l with tmp := tmp }
  | .configBin value => if value.length + 1 ≤ configBinSize then some { l with rcpConfigBin := value } else none

/-- The loop over the lines that are neither blank nor comments, and whether it came to the
    end of the file. -/
def parseEntries (l : Loop) : List Entry → Option (Bool × Loop)
  | [] => some (true, l)
  | e :: entries =>
    if e.action = .fail then some (false, l)
    else
      match e.action.exec l with
      | none => none
      | some l => parseEntries l entries

/-- The argument, and what `fopen` finds there. -/
inductive Config where
  | null
  | unreadable
  | file (text : List UInt8)
  deriving DecidableEq, Repr

def entries (text : List UInt8) : List Entry := (fgetsLines lineSize text).filterMap splitLine

/-- `ttydevice` is written once, after the last line. -/
def State.finish (s : State) (r : Bool × Loop) : Bool × State :=
  (r.1, ⟨if r.1 then r.2.tmp else s.ttydevice, r.2.rcpConfigBin⟩)

def parseDeviceConfig (s : State) : Config → Option (Bool × State)
  | .null => some (false, s)
  | .unreadable => some (false, s)
  | .file text => (parseEntries ⟨s.ttydevice, s.rcpConfigBin⟩ (entries text)).map s.finish

end AmebaLinux.Rcp.DeviceConfig
