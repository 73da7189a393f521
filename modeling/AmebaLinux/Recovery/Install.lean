/-
  AmebaLinux.Recovery.Install — installing an update package (`recovery/install.c`:
  `exec_cmd`, `verify_package`, `wipe_data`, `upgrade_package`, `install_package`;
  `recovery/include/config_parser.h`: the image list).

  What the commands and file lookups of a run give is its input: for each slot and
  image, whether the unpacked files are there, the digests, and how `flash_eraseall`
  and `dd` end. Each image is handled at most once per slot, so this leaves every
  outcome open; the exit status of `tar`, `rm` and `sync` inside the update process is
  never looked at. A run gives a return code and the flash commands it issued, each with
  its start and, when it exits 0, its end.
-/

namespace AmebaLinux.Recovery.Install

/-! ## Images, slots, partitions -/

inductive Image where
  | km4boot
  | km4image2
  | apimage
  | vbmeta
  | dtb
  | kernel
  | rootfs
  | userdata
  | misc
  deriving DecidableEq, Repr

def Image.id : Image → Nat
  | .km4boot => 0
  | .km4image2 => 1
  | .apimage => 2
  | .vbmeta => 3
  | .dtb => 4
  | .kernel => 5
  | .rootfs => 6
  | .userdata => 7
  | .misc => 8

/-- In the order of their ids, as the loops count. -/
def images : List Image := [.km4boot, .km4image2, .apimage, .vbmeta, .dtb, .kernel, .rootfs, .userdata, .misc]

inductive Slot where
  | slotA
  | slotB
  deriving DecidableEq, Repr

/-- `/dev/mtdblockN` and `/dev/mtdN`, the two nodes of flash partition N. -/
inductive Node where
  | block (n : Nat)
  | char (n : Nat)
  deriving DecidableEq, Repr

def Node.partition : Node → Nat
  | .block n => n
  | .char n => n

def devMtd : List Char := ['/', 'd', 'e', 'v', '/', 'm', 't', 'd']

def blockText : List Char := ['b', 'l', 'o', 'c', 'k']

def Node.path : Node → List Char
  | .block n => devMtd ++ blockText ++ Nat.toDigits 10 n
  | .char n => devMtd ++ Nat.toDigits 10 n

/-- The text without its first `block`; `none` when it has none. -/
def dropBlock : List Char → Option (List Char)
  | [] => none
  | c :: rest =>
    if blockText.isPrefixOf (c :: rest) then some ((c :: rest).drop blockText.length)
    else (dropBlock rest).map (c :: ·)

/-- The node `wipe_data` erases has the block node's path without its `block`. -/
theorem dropBlock_path (n : Nat) : dropBlock (Node.block n).path = some (Node.char n).path := by
  generalize h : Nat.toDigits 10 n = digits
  simp [Node.path, h, devMtd, blockText, dropBlock]

/-- `gPartitionInfoSlot[slot][image].partition_info`: the partition number in
    `/dev/mtdblockN`, or none where no listed partition has filled the cell. -/
abbrev Table : Type := Slot → Image → Option Nat

/-! ## Commands -/

/-- What `system` returned. -/
inductive Status where
  | spawnFailed
  | exited (code : Nat)
  | signaled
  deriving DecidableEq, Repr

def execCmd : Status → Int
  | .exited 0 => 0
  | _ => -1

/-- The flash commands of a run. A command that does not exit 0 has no end. -/
inductive Event where
  | erase (node : Option Node)
  | erased (node : Option Node)
  | write (slot : Slot) (image : Image) (node : Option Node)
  | written (slot : Slot) (image : Image) (node : Option Node)
  deriving DecidableEq, Repr

def Event.partition : Event → Option Nat
  | .erase node => node.map Node.partition
  | .erased node => node.map Node.partition
  | .write _ _ node => node.map Node.partition
  | .written _ _ node => node.map Node.partition

/-! ## Verification -/

/-- The text `get_file_md5` leaves in its zeroed buffer: nothing where the file does not
    open or is empty, else the file up to its first NUL. -/
def getFileMd5 : Option (List UInt8) → List UInt8
  | none => []
  | some bytes => bytes.takeWhile (· != 0)

def verifyMd5 (src target : Option (List UInt8)) : Int :=
  if getFileMd5 src = getFileMd5 target then 0 else -1

/-- What the lookups and commands for one image in one slot give. -/
structure ImageEnv where
  /-- The image file is there. -/
  found : Bool
  /-- Its `.md5` file is there. -/
  mdFound : Bool
  /-- `md5sum image | cut ... > /tmp/md5`. -/
  md5sum : Status
  /-- What is then in `/tmp/md5` and in the `.md5` file. -/
  tmpMd5 : Option (List UInt8)
  mdFile : Option (List UInt8)
  /-- `flash_eraseall`. -/
  erase : Status
  dd : Status
  deriving DecidableEq, Repr

def verifyPackage (e : ImageEnv) : Int :=
  if execCmd e.md5sum ≠ 0 then -1
  else if verifyMd5 e.tmpMd5 e.mdFile ≠ 0 then -1
  else 0

/-! ## Wiping -/

/-- What `wipe_data` meets besides the erase itself. -/
structure WipeEnv where
  ubiNode : Bool
  /-- `umount_data_partition` returned 0. -/
  umounted : Bool
  ubiupdatevol : Status
  erase : Status
  deriving DecidableEq, Repr

/-- The result and the flash commands. The partition is always that of slot A. -/
def wipeData (table : Table) (partition : Image) (forceErase : Bool) (e : WipeEnv) : Int × List Event :=
  if !forceErase && e.ubiNode then
    if !e.umounted then (-1, [])
    else if execCmd e.ubiupdatevol < 0 then (-1, [])
    else (0, [])
  else
    let path := (table .slotA partition).map Node.char
    if !forceErase && !e.umounted then (-1, [])
    else if execCmd e.erase < 0 then (-1, [.erase path])
    else (0, [.erase path, .erased path])

/-! ## The update process -/

def installSuccess : Int := 0
def installError : Int := 1

/-- What `parse_config` read. MD5 files are checked when `md5check` is 0. -/
structure Config where
  md5check : Int
  flashType : Image → Int

/-- The forked process's part of a run: its flash commands, and whether it goes on. -/
structure Part where
  events : List Event
  goesOn : Bool
  deriving DecidableEq, Repr

def Part.andThen (p : Part) (next : Part) : Part :=
  if p.goesOn then ⟨p.events ++ next.events, next.goesOn⟩ else p

/-- The parameters of `upgrade_package`'s loops. -/
structure Update where
  table : Table
  config : Config
  env : Slot → Image → ImageEnv

/-- The erase before the write, for the two file systems. -/
def eraseFirst (u : Update) (slot : Slot) (i : Image) : Part :=
  if i = .rootfs ∨ i = .userdata then
    let r := wipeData u.table i true ⟨false, false, .spawnFailed, (u.env slot i).erase⟩
    ⟨r.2, !decide (r.1 < 0)⟩
  else ⟨[], true⟩

def writeImage (u : Update) (slot : Slot) (i : Image) : Part :=
  let node := (u.table slot i).map Node.block
  if execCmd (u.env slot i).dd = 0 then ⟨[.write slot i node, .written slot i node], true⟩
  else ⟨[.write slot i node], false⟩

/-- One selected image: look it up, verify it, erase, write. -/
def updateImage (u : Update) (slot : Slot) (i : Image) : Part :=
  let e := u.env slot i
  if !e.found then ⟨[], false⟩
  else if u.config.md5check = 0 ∧ e.mdFound = false then ⟨[], false⟩
  else if u.config.md5check = 0 ∧ verifyPackage e ≠ 0 then ⟨[], false⟩
  else (eraseFirst u slot i).andThen (writeImage u slot i)

/-- The inner loop. Slot B has no images past `APIMAGE`. -/
def updateSlot (u : Update) (slot : Slot) : List Image → Part
  | [] => ⟨[], true⟩
  | i :: rest =>
    if slot = .slotB ∧ i.id > Image.apimage.id then ⟨[], true⟩
    else if u.config.flashType i = 0 then updateSlot u slot rest
    else (updateImage u slot i).andThen (updateSlot u slot rest)

def updateProcess (u : Update) : Part := (updateSlot u .slotA images).andThen (updateSlot u .slotB images)

/-! ## Installing -/

/-- Everything `upgrade_package` meets. -/
structure UpgradeEnv where
  table : Table
  configOpens : Bool
  /-- `none` where `parse_config` fails. -/
  config : Option Config
  forks : Bool
  env : Slot → Image → ImageEnv
  /-- The update process is killed after so many flash events. -/
  killed : Option Nat

structure Result where
  ret : Int
  events : List Event
  deriving DecidableEq, Repr

def upgradePackage (e : UpgradeEnv) : Result :=
  if !e.configOpens then ⟨-1, []⟩
  else
    match e.config with
    | none => ⟨installError, []⟩
    | some config =>
      if !e.forks then ⟨installError, []⟩
      else
        let p := updateProcess ⟨e.table, config, e.env⟩
        match e.killed with
        | some k => ⟨installError, p.events.take k⟩
        | none => ⟨if p.goesOn then installSuccess else installError, p.events⟩

/-- Everything `install_package` meets at a package location. -/
structure InstallEnv where
  /-- `package/ota/flash_image.cfg` is there. -/
  otaConfig : Bool
  /-- `package/ota/updater.tar.gz` is there. -/
  otaTar : Bool
  /-- `package` itself opens. -/
  opens : Bool
  /-- The configuration file unpacks. -/
  tarConfig : Status
  upgrade : UpgradeEnv

/-- The result, and what `upgrade_package` returned where it was called. -/
structure Installed where
  ret : Int
  upgrade : Option Result
  deriving DecidableEq, Repr

def installPackage (e : InstallEnv) : Installed :=
  if e.otaConfig then ⟨installSuccess, some (upgradePackage e.upgrade)⟩
  else if !e.otaTar && !e.opens then ⟨installError, none⟩
  else if execCmd e.tarConfig = 0 then
    let sta := upgradePackage e.upgrade
    ⟨sta.ret, some sta⟩
  else ⟨installError, none⟩

end AmebaLinux.Recovery.Install
