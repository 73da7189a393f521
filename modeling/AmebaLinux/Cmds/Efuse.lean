/-
  AmebaLinux.Cmds.Efuse — the command that reads and burns the one-time-programmable
  memory (`cmds/efuse/efuse.c`: `isAlpha`, `mypow`, `toInt`, `convert`, `fillbuf`,
  `main`).

  Arguments are byte strings (`char` is unsigned on the target). `int` is `Int32` and its
  arithmetic wraps; `atoi` goes through a `long` of 32 bits and gives the nearest `int` for
  a number that does not fit. `buf` is not initialised: of a write only the bytes that
  `fillbuf` stored are known, the others, and those past the buffer, are `none`. `size`
  becomes a `size_t` of 32 bits.
-/

import AmebaLinux.Lib.CString

namespace AmebaLinux.Cmds.Efuse

open AmebaLinux.Lib.CString

def bufSize : Nat := 0x400

def physicalNvmem : String := "/sys/bus/nvmem/devices/otp_raw0/nvmem"
def logicalNvmem : String := "/sys/bus/nvmem/devices/otp_map0/nvmem"

/-! ## Numbers -/

def isAlpha (c : UInt8) : Bool := (97 ≤ c && c ≤ 102) || (65 ≤ c && c ≤ 70)

def mypow (num : Int32) (cnt : Nat) : Int32 :=
  if cnt = 0 then 1
  else if cnt = 1 then num
  else
    let ret := mypow num (cnt / 2)
    if cnt % 2 = 1 then ret * ret * num else ret * ret
termination_by cnt
decreasing_by omega

def toInt (c : UInt8) : Int :=
  if isAlpha c then ((c.toNat : Int) + 32 - 97) % 32 + 10 else (c.toNat : Int) - 48

/-- The hexadecimal value of an argument, from its last digit on. -/
def convert (t : List UInt8) : Int32 :=
  t.reverse.zipIdx.foldl (fun ret x => ret + Int32.ofInt (toInt x.1) * mypow 16 x.2) 0

/-- `size`, from the length argument. -/
def sizeArg (t : List UInt8) : Int32 := Int32.ofInt (atoi t)

/-! ## The value -/

/-- `num` of one turn of `fillbuf`, as the buffer holds it. -/
def pairByte (hi lo : UInt8) : UInt8 := UInt8.ofInt (toInt hi * 16 + toInt lo)

def fillPairs : List UInt8 → List UInt8
  | hi :: lo :: rest => pairByte hi lo :: fillPairs rest
  | _ => []

/-- The bytes stored at the beginning of `buf`. -/
def fillbuf (str : List UInt8) : List UInt8 := if str.length % 2 = 1 then [] else fillPairs str

/-! ## The command -/

inductive Flag where
  | rdonly
  | rdwr
  deriving DecidableEq, Repr

inductive Outcome where
  | usage
  | cantOpen
  /-- `pread` of `size` bytes at `addr`. -/
  | read (dev : Option String) (size addr : Int32)
  /-- `pwrite` of these bytes at `addr`. -/
  | wrote (dev : Option String) (bytes : List (Option UInt8)) (addr : Int32)
  /-- `fillbuf` has written past `buf`. -/
  | fault
  deriving DecidableEq, Repr

/-- `dev` and `flag`; any other word leaves `dev` as it is and `flag` 0. -/
def device (cmd : List UInt8) : Option String × Flag :=
  if cmd = lit "rraw" then (some physicalNvmem, .rdonly)
  else if cmd = lit "wraw" then (some physicalNvmem, .rdwr)
  else if cmd = lit "rmap" then (some logicalNvmem, .rdonly)
  else if cmd = lit "wmap" then (some logicalNvmem, .rdwr)
  else (none, .rdonly)

/-- The write branch: `fillbuf`, then `pwrite` of `size` bytes of `buf`. -/
def burn (dev : Option String) (size addr : Int32) (value : List UInt8) : Outcome :=
  let buf := fillbuf value
  if bufSize < buf.length then .fault
  else .wrote dev ((List.range size.toUInt32.toNat).map fun i => buf[i]?) addr

def main (opens : Bool) (argv : List (List UInt8)) : Outcome :=
  if argv.length < 4 then .usage
  else
    let (dev, flag) := device (argv.getD 1 [])
    if flag = .rdwr ∧ argv.length = 4 then .usage
    else if !opens then .cantOpen
    else
      let addr := convert (argv.getD 2 [])
      let size := sizeArg (argv.getD 3 [])
      match flag with
      | .rdonly => .read dev size addr
      | .rdwr => burn dev size addr (argv.getD 4 [])

end AmebaLinux.Cmds.Efuse
