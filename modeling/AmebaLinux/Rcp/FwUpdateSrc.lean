/-
  AmebaLinux.Rcp.FwUpdateSrc — the payload transfer of the firmware update
  (`openthread/RTKRCP_Config_CFU_Tool_V1.02_20241218/FwUpdateSubProcess.c`:
  `ReponseHandle`, `ProcessSrecBin`, `FwUpdateSrc`; `FwUpdate.h`: `ContentData`,
  `ContentResponseReportBlob`).

  A payload file is its bytes; `read` is short only at the end of the file, and a read
  error (which exits) is left out. `exit(1)` is `none` in a step and `Outcome.exited` in
  a run. The device is a script per packet (`AmebaLinux.Rcp.Tty.Exchange`). The counters
  have the code's widths: `sequenceNumber` wraps at 2^16, the packet counts at 2^32.
-/

import AmebaLinux.Lib.Bytes
import AmebaLinux.Rcp.Tty

namespace AmebaLinux.Rcp.FwUpdateSrc

open AmebaLinux.Lib.Bytes
open AmebaLinux.Rcp.Tty

/-! ## Report reassembly -/

def reportLengthStandard : Nat := 61
def fwUpdateVersionLen : Nat := 60
def fwUpdateContentResponseLen : Nat := 16
def fwUpdateOfferResponseLen : Nat := 16

/-- `repBuff` and a handler's static `index`. -/
structure Report where
  repBuff : List UInt8
  index : Nat
  deriving DecidableEq, Repr

def Report.start : Report := ⟨List.replicate reportLengthStandard 0, 0⟩

/-- The three response handlers, for a response of `len + 1` bytes. -/
def reportHandle (len : Nat) (r : Report) (buff : List UInt8) : Option (Report × Bool) :=
  if r.index + buff.length ≥ len + 1 + 1 then none
  else
    let index := r.index + buff.length
    let repBuff := overlay r.repBuff r.index buff
    if index = len + 1 then some (⟨repBuff, 0⟩, true) else some (⟨repBuff, index⟩, false)

def getVersionReponseHandle : Report → List UInt8 → Option (Report × Bool) := reportHandle fwUpdateVersionLen

def getOfferReponseHandle : Report → List UInt8 → Option (Report × Bool) := reportHandle fwUpdateOfferResponseLen

def reponseHandle : Report → List UInt8 → Option (Report × Bool) := reportHandle fwUpdateContentResponseLen

/-- `ContentResponseReportBlob.status`. -/
def contentStatus (r : Report) : UInt8 := r.repBuff.getD 5 0

def firmwareUpdateSuccess : UInt8 := 0x00

/-! ## The payload file -/

def fwUpdateContentReportid : UInt8 := 0x2a
def firmwareUpdateFlagFirstBlock : UInt8 := 0x80
def firmwareUpdateFlagLastBlock : UInt8 := 0x40
def maxHidContentPayload : Nat := 52

structure ContentData where
  id : UInt8
  flags : UInt8
  length : UInt8
  sequenceNumber : UInt16
  address : UInt32
  data : List UInt8
  deriving DecidableEq, Repr

/-- `ContentData contentdata = { 0 }`. -/
def ContentData.zero : ContentData := ⟨0, 0, 0, 0, 0, List.replicate maxHidContentPayload 0⟩

/-- The packed record as it goes to the device. -/
def ContentData.bytes (c : ContentData) : List UInt8 :=
  [c.id, c.flags, c.length] ++ toLe 2 c.sequenceNumber.toNat ++ toLe 4 c.address.toNat ++ c.data

/-- Read one record: whether there was one, the rest of the file, and the record. A
    short read leaves in `pBuff` what was there. -/
def processSrecBin (file : List UInt8) (c : ContentData) : Option (Bool × List UInt8 × ContentData) :=
  let pBuff := List.replicate 64 0
  let got := file.take 4
  if got = [] then some (false, file, { c with length := 0 })
  else
    let pBuff := overlay pBuff 0 got
    let file := file.drop 4
    let address := UInt32.ofNat (leNat (pBuff.take 4))
    let got := file.take 1
    if got = [] then none
    else
      let pBuff := overlay pBuff 0 got
      let file := file.drop 1
      let length := pBuff.getD 0 0
      if length = 0 then some (false, file, { c with length := 0, address := address })
      else if 52 < length then none
      else
        let got := file.take length.toNat
        if got = [] then none
        else
          let pBuff := overlay pBuff 0 got
          some (true, file.drop length.toNat,
            { c with length := length, address := address, data := overlay c.data 0 (pBuff.take length.toNat) })

/-- A record takes at least its address from the file. -/
theorem processSrecBin_lt {file file' : List UInt8} {c c' : ContentData}
    (h : processSrecBin file c = some (true, file', c')) : file'.length < file.length := by
  have hne : file ≠ [] := by rintro rfl; simp [processSrecBin] at h
  have hpos := List.length_pos_iff.mpr hne
  simp only [processSrecBin] at h
  repeat' split at h
  all_goals simp only [Option.some.injEq, Prod.mk.injEq, reduceCtorEq, Bool.false_eq_true, false_and] at h
  obtain ⟨-, rfl, -⟩ := h
  simp only [List.length_drop]
  omega

/-! ## The transfer -/

/-- The first pass: how many packets there are to send. -/
def countPackets (file : List UInt8) (c : ContentData) (total : UInt32) : Option (UInt32 × ContentData) :=
  match h : processSrecBin file c with
  | none => none
  | some (false, _, c') => some (total, c')
  | some (true, file', c') => countPackets file' c' (total + 1)
termination_by file.length
decreasing_by exact processSrecBin_lt h

/-- `contentPacketsSent * 100.0 / totalContentPacketCount < 100.0`. The product is exact
    in a double and two different counts are far enough apart for the quotient; with no
    packets the quotient is a NaN or infinite, which is not below. -/
def notAllSent (contentPacketsSent totalContentPacketCount : UInt32) : Bool :=
  totalContentPacketCount != 0 && contentPacketsSent.toNat * 100 < 100 * totalContentPacketCount.toNat

inductive Outcome where
  | ret (ok : Bool)
  | exited
  deriving DecidableEq, Repr

/-- How the transfer ended, and the packets handed to `ttyWrite`, in order. -/
structure Run where
  outcome : Outcome
  sent : List (List UInt8)
  deriving DecidableEq, Repr

def Run.after (packet : List UInt8) (r : Run) : Run := ⟨r.outcome, packet :: r.sent⟩

/-- What the loop carries: the record, the address of the first block, the packets sent
    and the response buffer. -/
structure Sender where
  contentdata : ContentData
  startAddress : UInt32
  contentPacketsSent : UInt32
  report : Report
  deriving DecidableEq, Repr

/-- The packet made of the record just read, and the start address kept. -/
def prepare (total : UInt32) (s : Sender) (c : ContentData) : ContentData × UInt32 :=
  let flags := if s.contentPacketsSent = 0 then firmwareUpdateFlagFirstBlock else 0
  let startAddress := if s.contentPacketsSent = 0 then c.address else s.startAddress
  let flags := if s.contentPacketsSent + 1 = total then firmwareUpdateFlagLastBlock else flags
  ({ c with flags := flags, id := fwUpdateContentReportid, address := c.address - startAddress }, startAddress)

/-- The second pass. A response with another packet's sequence number is only logged. -/
def sendPackets (device : Nat → Exchange) (total : UInt32) (file : List UInt8) (s : Sender) (k : Nat) : Run :=
  match _ : processSrecBin file s.contentdata with
  | none => ⟨.exited, []⟩
  | some (false, _, _) => ⟨.ret (!notAllSent s.contentPacketsSent total), []⟩
  | some (true, file', c) =>
    let p := prepare total s c
    Run.after p.1.bytes <|
      if (ttyWriteRest (device k).writes p.1.bytes).1 ≠ .noErr then ⟨.ret false, []⟩
      else
        match ttyWaitForFrame reponseHandle s.report (device k).reads with
        | none => ⟨.exited, []⟩
        | some (err, report) =>
          if err ≠ .noErr then ⟨.ret false, []⟩
          else if contentStatus report ≠ firmwareUpdateSuccess then ⟨.ret false, []⟩
          else
            sendPackets device total file'
              ⟨{ p.1 with sequenceNumber := p.1.sequenceNumber + 1 }, p.2, s.contentPacketsSent + 1, report⟩ (k + 1)
termination_by file.length
decreasing_by exact processSrecBin_lt ‹_›

/-- `none` is a payload file that does not open. -/
def fwUpdateSrc (device : Nat → Exchange) (srcBin : Option (List UInt8)) (report : Report) : Run :=
  match srcBin with
  | none => ⟨.ret false, []⟩
  | some file =>
    match countPackets file { ContentData.zero with flags := firmwareUpdateFlagFirstBlock } 0 with
    | none => ⟨.exited, []⟩
    | some (total, c) => sendPackets device total file ⟨c, 0, 0, report⟩ 0

end AmebaLinux.Rcp.FwUpdateSrc
