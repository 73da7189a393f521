/-
  AmebaLinux.Recovery.StorageMount — mounting a storage that is plugged in while recovery
  runs (`recovery/storage_mount/storage_mount.c`: `report_message` to
  `handle_block_event`, `do_storage_init`; `recovery/recovery.c`:
  `storage_state_change`).

  A block uevent is given by what the handlers read of it: the action, whether DEVPATH is
  the SD card's or the USB host's (`check_dev_path`), whether DEVTYPE is `disk`, and the
  numbers. The results of `mount` and `umount` are given by the number of the call
  (`Env`). `log` records the calls in order: every `mount_volume` with the device list it
  tries, every `do_mount`, every `umount` and every report to the callback, which
  `mount_storage` registers before the first event.

  `int`s are integers: the code only compares them and uses them as indices. `dev_t` has
  64 bits. `1 << i` with `i` past 31 is undefined and up to `Env`, as is what
  `deviceNodes` holds where `get_device_nodes` does not write.
-/

import AmebaLinux.Lib.Machine

namespace AmebaLinux.Recovery.Storage

def storageMaxPartitions : Nat := 32
def mountPoint : String := "/mnt/media_rw/usb"

inductive State where
  | noMedia
  | idle
  | pending
  | mounted
  | unmounting
  deriving DecidableEq, Repr

abbrev Dev : Type := BitVec 64

/-- `MKDEV`, as an `int` that becomes a `dev_t`. -/
def mkdev (major minor : Int) : Dev := ((BitVec.ofInt 32 major <<< 8) ||| BitVec.ofInt 32 minor).signExtend 64

/-! ## Events -/

inductive Action where
  | add
  | remove
  | other
  deriving DecidableEq, Repr

inductive Source where
  | sdcard
  | usb
  | other
  deriving DecidableEq, Repr

structure Uevent where
  action : Action
  source : Source
  disk : Bool
  major : Int
  minor : Int
  nparts : Option Int
  partn : Option Int
  deriving DecidableEq, Repr

/-! ## The world -/

inductive MountRc where
  | ok
  | erofs
  | failed
  deriving DecidableEq, Repr

inductive UmountRc where
  | ok
  | einval
  | enoent
  | failed
  deriving DecidableEq, Repr

structure Env where
  mount : Nat → MountRc
  umount : Nat → UmountRc
  /-- Entry `i` of `deviceNodes` as `mount_volume` finds it, by the number of `do_mount`s. -/
  stack : Nat → Nat → Dev
  shift : Nat → BitVec 32

/-- What the callback is told. -/
inductive Report where
  | mount
  | unmount
  deriving DecidableEq, Repr

inductive Call where
  /-- `mount_volume`, with the devices it is going to try. -/
  | attempt (devs : List Dev)
  /-- `mount_volume` in a state other than idle. -/
  | busy
  | mount (dev : Dev) (ok : Bool)
  | umount (ok : Bool)
  | report (r : Report)
  deriving DecidableEq, Repr

/-- `gStorageStruct`, and what has been called. -/
structure St where
  isSdcardDev : Bool
  storageState : State
  currentMountKdev : Dev
  retryMountNum : Bool
  diskMajor : Int
  diskMinor : Int
  partMinors : List Int
  diskNumParts : Int
  pendingPartMap : BitVec 32
  mounts : Nat
  umounts : Nat
  log : List Call
  deriving DecidableEq, Repr

/-- The state after `do_storage_init`. -/
def start : St where
  isSdcardDev := false
  storageState := .noMedia
  currentMountKdev := 0
  retryMountNum := false
  diskMajor := 0
  diskMinor := 0
  partMinors := List.replicate storageMaxPartitions 0
  diskNumParts := 0
  pendingPartMap := 0
  mounts := 0
  umounts := 0
  log := []

def St.call (s : St) (c : Call) : St := { s with log := s.log ++ [c] }

/-! ## The state -/

def reportMessage (state : State) (s : St) : St := if state = .mounted then s.call (.report .mount) else s

def setState (state : State) (s : St) : St :=
  if s.storageState = state then s
  else
    let s := if s.storageState = .pending ∧ state ≠ .idle then { s with retryMountNum := false } else s
    reportMessage state { s with storageState := state }

/-! ## Mounting -/

/-- The entries written, and the number returned. -/
def getDeviceNodes (max : Nat) (s : St) : List Dev × Int :=
  if s.diskNumParts = 0 then ([mkdev s.diskMajor s.diskMinor], 1)
  else
    ((List.range (min s.diskNumParts.toNat max)).map fun i => mkdev s.diskMajor (s.partMinors.getD i 0), s.diskNumParts)

/-- A read-only file system is tried once more with `MS_RDONLY`. -/
def doMount (e : Env) (dev : Dev) (s : St) : Bool × St :=
  let rc := e.mount s.mounts
  let s := { s with mounts := s.mounts + 1 }
  if rc = .erofs then
    let ok := decide (e.mount s.mounts = .ok)
    (ok, { s with mounts := s.mounts + 1 }.call (.mount dev ok))
  else
    let ok := decide (rc = .ok)
    (ok, s.call (.mount dev ok))

/-- The loop of `mount_volume`. -/
def tryNodes (e : Env) : List Dev → St → St
  | [], s => setState .idle s
  | dev :: devs, s =>
    match doMount e dev s with
    | (true, s) => { setState .mounted s with currentMountKdev := dev }
    | (false, s) => tryNodes e devs s

/-- The devices the loop reads from `deviceNodes[4]`. -/
def devices (e : Env) (s : St) : List Dev :=
  let (nodes, n) := getDeviceNodes 4 s
  (List.range n.toNat).map fun i => nodes.getD i (e.stack s.mounts i)

def mountVolume (e : Env) (s : St) : St :=
  if s.storageState ≠ .idle then
    let s := s.call .busy
    if s.storageState = .pending then { s with retryMountNum := true } else s
  else
    let devs := devices e s
    tryNodes e devs (s.call (.attempt devs))

/-! ## Adding -/

def bit (e : Env) (i : Nat) : BitVec 32 := if i < 32 then (1 : BitVec 32) <<< i else e.shift i

def partmask (e : Env) (n : Int) : BitVec 32 := (List.range n.toNat).foldl (fun m i => m ||| bit e (i + 1)) 0

/-- `disk_num_parts` of a disk; NPARTS may be missing. -/
def numParts (s : St) (u : Uevent) : Int := u.nparts.getD (if s.isSdcardDev then 0 else 1)

def handleDiskAdded (e : Env) (u : Uevent) (s : St) : St :=
  let n := numParts s u
  let s := { s with diskMajor := u.major, diskMinor := u.minor, diskNumParts := n, pendingPartMap := partmask e n }
  if n = 0 then setState .idle s else setState .pending s

def handlePartitionAdded (e : Env) (u : Uevent) (s : St) : St :=
  let partNum := u.partn.getD 1
  if partNum > storageMaxPartitions ∨ partNum < 1 then s
  else
    let s := if partNum > s.diskNumParts then { s with diskNumParts := partNum } else s
    if u.major ≠ s.diskMajor then s
    else
      let s := if partNum ≥ storageMaxPartitions then s
        else { s with partMinors := s.partMinors.set (partNum - 1).toNat u.minor }
      let s := { s with pendingPartMap := s.pendingPartMap &&& ~~~bit e partNum.toNat }
      if s.pendingPartMap = 0 then
        let s := setState .idle s
        if s.retryMountNum then mountVolume e { s with retryMountNum := false } else s
      else s

/-! ## Removing -/

/-- The turns of `do_unmount` that are left; whether it returns 0. -/
def doUnmount (e : Env) : Nat → St → Bool × St
  | 0, s => (false, s)
  | retries + 1, s =>
    let rc := e.umount s.umounts
    let ok := decide (rc = .ok)
    let s := { s with umounts := s.umounts + 1 }.call (.umount ok)
    if rc = .ok ∨ rc = .einval ∨ rc = .enoent then (true, s) else doUnmount e retries s

def unmountVolume (e : Env) (s : St) : St :=
  if s.storageState ≠ .mounted then s
  else
    match doUnmount e 10 (setState .unmounting s) with
    | (true, s) => { (setState .idle s).call (.report .unmount) with currentMountKdev := -1 }
    | (false, s) => setState .mounted s

def handleDiskRemoved (s : St) : St := setState .noMedia s

def handlePartitionRemoved (e : Env) (u : Uevent) (s : St) : St :=
  if s.storageState ≠ .mounted then s
  else if mkdev u.major u.minor = s.currentMountKdev then unmountVolume e s else s

/-! ## The events -/

/-- The handlers of an added disk or partition. -/
def handleAdded (e : Env) (u : Uevent) (s : St) : St :=
  if u.disk then handleDiskAdded e u s else handlePartitionAdded e u s

def handleRemoved (e : Env) (u : Uevent) (s : St) : St :=
  if u.disk ∧ !s.isSdcardDev then handleDiskRemoved s else handlePartitionRemoved e u s

/-- `check_dev_path`. -/
def checkDevPath (u : Uevent) (s : St) : Option St :=
  match u.source with
  | .sdcard => some { s with isSdcardDev := true }
  | .usb => some { s with isSdcardDev := false }
  | .other => none

def handleBlockEvent (e : Env) (s : St) (u : Uevent) : St :=
  match checkDevPath u s with
  | none => s
  | some s =>
    match u.action with
    | .add =>
      let s := handleAdded e u s
      if s.storageState = .idle then mountVolume e s else s
    | .remove => handleRemoved e u s
    | .other => s

/-- The state after a sequence of block uevents. -/
def run (e : Env) (us : List Uevent) : St := Lib.Machine.run (handleBlockEvent e) start us

/-! ## Recovery's callback -/

structure Globals where
  gStorageState : Option Report
  gStoragePath : String
  deriving DecidableEq, Repr

def storageStateChange (g : Globals) : Report → Globals
  | .mount => { g with gStorageState := some .mount, gStoragePath := mountPoint }
  | .unmount => { g with gStorageState := some .unmount, gStoragePath := "" }

/-- The reports of a log, in order. -/
def reports (log : List Call) : List Report :=
  log.filterMap fun c => match c with
    | .report r => some r
    | _ => none

/-- recovery's globals after a log. -/
def globals (log : List Call) : Globals := (reports log).foldl storageStateChange ⟨none, ""⟩

end AmebaLinux.Recovery.Storage
