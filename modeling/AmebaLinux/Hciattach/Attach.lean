/-
  AmebaLinux.Hciattach.Attach — `rtb_config` from `start_download` on, with
  `rtb_download_fwc` (`bluetooth/hciattach/hciattach_rtk.c`).

  The results of the layers keep their own conventions: the download functions return a
  `uint8_t` in which `HCI_FAIL` is 0 and -1 is 255, and `rtb_config` takes 0 for success
  and only a negative value for a failure.
-/

import AmebaLinux.Hciattach.Link
import AmebaLinux.Hciattach.PatchV2
import AmebaLinux.Hciattach.PatchV3

namespace AmebaLinux.Hciattach.Attach

open AmebaLinux.Lib
open AmebaLinux.Hciattach.Link

/-- What `rtb_config` has when it comes to the download. -/
structure Setup where
  env : Env
  fw : List UInt8
  eversion : UInt8
  config : ConfigBuf
  /-- What `patch_version` holds when no signature matches: nothing sets it. -/
  unset : UInt8
  /-- The physical efuse, when it could be opened. -/
  phyEfuse : Option (List UInt8)
  mpMode : Bool
  finalSpeed : Nat
  /-- In MP mode, whether the WLAN driver takes the message about the antenna. -/
  notified : Bool

/-! ## The download -/

def patchSigV1 : List UInt8 := [0x52, 0x65, 0x61, 0x6C, 0x74, 0x65, 0x63, 0x68]
def patchSigV2 : List UInt8 := [0x52, 0x54, 0x42, 0x54, 0x43, 0x6F, 0x72, 0x65]
def patchSigV3 : List UInt8 := [0x42, 0x54, 0x4E, 0x49, 0x43, 0x30, 0x30, 0x33]
def extSectionSig : List UInt8 := [0x51, 0x04, 0xFD, 0x77]

def patchVersionV1 : UInt8 := 1
def patchVersionV2 : UInt8 := 2
def patchVersionV3 : UInt8 := 3

def hciPatchGetPatchVersion (fw : List UInt8) (unset : UInt8) : Build UInt8 := do
  let sig ← slice fw 0 8
  let ext ← slice fw (fw.length - 4) 4
  if sig = patchSigV1 ∧ ext = extSectionSig then pure patchVersionV1
  else if sig = patchSigV2 ∧ ext = extSectionSig then pure patchVersionV2
  else if sig = patchSigV3 then pure patchVersionV3
  else pure unset

def rtbDownloadFwc (a : Setup) : Run UInt8 :=
  match hciPatchGetPatchVersion a.fw a.unset with
  | .error _ => Prog.exit .fault
  | .ok version =>
    if version = patchVersionV2 then PatchV2.hciDownloadPatchV2 a.env a.fw a.eversion a.config
    else if version = patchVersionV3 then PatchV3.hciDownloadPatchV3 a.env a.fw a.eversion a.config
    else pure hciFail

/-! ## After the download -/

def hciPlatformGetIqkData (efuse : List UInt8) : List UInt8 :=
  efuse.take 22 ++ (efuse.drop 23).take 1 ++ (efuse.drop 25).take 26 ++ (efuse.drop 52).take 60

def writeIqkCmd (efuse : List UInt8) : List UInt8 := [0x01, 0x91, 0xfd, 0x6d] ++ hciPlatformGetIqkData efuse

def hciResetCmd : List UInt8 := [0x01, 0x03, 0x0c, 0x00]

/-- Back to 115200 baud. -/
def changeSpeedCmd : List UInt8 := [0x01, 0x17, 0xfc, 4, 0x1d, 0x70, 0x00, 0x00]

/-- A command whose result is not looked at. -/
def sendIgnoring (cmd : List UInt8) : Run Unit := do
  let _ ← startXferWait cmd
  pure ()

/-- Whether `h4_hci_reset` returned 0. -/
def h4HciReset : Run Bool := do
  match ← startXferWait hciResetCmd with
  | none => pure false
  | some _ => pure true

/-- `h4_write_iqk`, where the efuse was read. -/
def writeIqk (a : Setup) : Run Unit :=
  match a.phyEfuse with
  | some efuse => sendIgnoring (writeIqkCmd efuse)
  | none => pure ()

/-- In MP mode the controller goes back to 115200 baud; whether the port follows is not
    looked at. -/
def restoreSpeed (a : Setup) : Run Unit :=
  if a.mpMode && a.finalSpeed != 115200 then sendIgnoring changeSpeedCmd else pure ()

/-- The end of `rtb_config`: the speed and the message to the WLAN driver. -/
def finish (a : Setup) : Run Int := do
  restoreSpeed a
  if a.mpMode && !a.notified then pure (-1) else pure 0

/-- What follows the download, which returned `ret`. -/
def afterDownload (a : Setup) (ret : UInt8) : Run Int := do
  writeIqk a
  if ret = 0 then
    if ← h4HciReset then finish a else pure (-1)
  else finish a

/-- `rtb_config` from `start_download` on. -/
def rtbConfig (a : Setup) : Run Int := do
  let ret ← rtbDownloadFwc a
  afterDownload a ret

end AmebaLinux.Hciattach.Attach
