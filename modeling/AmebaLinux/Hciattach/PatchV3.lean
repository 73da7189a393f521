/-
  AmebaLinux.Hciattach.PatchV3 — downloading a version 3 patch
  (`bluetooth/hciattach/hci_download_v3.c`).

  As in `AmebaLinux.Hciattach.PatchV2`, the file is its bytes, a pointer into it an
  offset, and an access outside a buffer `Halt.fault`; a pointer that a length field
  moved out of the file does not come back. Allocations succeed.
-/

import AmebaLinux.Lib.Bytes
import AmebaLinux.Lib.Queue
import AmebaLinux.Hciattach.Link

namespace AmebaLinux.Hciattach.PatchV3

open AmebaLinux.Lib
open AmebaLinux.Lib.Bytes
open AmebaLinux.Hciattach.Link

def hciPatchImageInfoLen : Nat := 1024
def hciPatchProjectId : Nat := 0x28
def hciBtRegKeyId : UInt32 := 0xb000ada4

/-! ## Parsing -/

structure Reg where
  addr : UInt32
  value : UInt32
  deriving DecidableEq, Repr

structure SectionNode where
  newSectionCheck : Bool
  priority : UInt8
  curIndex : UInt16
  endIndex : UInt16
  lastPkt : UInt8
  /-- `INFO_REG_PATCH_START_ADDRESS`. -/
  regStart : Reg
  /-- `INFO_REG_SECURITY_HEADER_BUF_REMAIN_SIZE`. -/
  regRemain : Reg
  imageLen : UInt32
  /-- Where the image starts in the file. -/
  imagePayload : Nat
  sentImageLen : UInt32
  deriving DecidableEq, Repr

structure PatchInfo where
  fwLen : UInt32
  sentFwLen : UInt32
  sectionCnt : UInt8
  configLen : UInt16
  sentConfigLen : UInt16
  nodes : List SectionNode
  /-- What is read through `security_node` does not change once the node is made. -/
  securityNode : Option SectionNode
  deriving DecidableEq, Repr

def PatchInfo.zero : PatchInfo := ⟨0, 0, 0, 0, 0, [], none⟩

def insertPatchQueue (q : List SectionNode) (node : SectionNode) : List SectionNode :=
  Queue.insert (·.priority.toNat) q node

/-- The address is neither 0 nor 0xffffffff. -/
def Reg.valid (r : Reg) : Bool := r.addr != 0 && r.addr != 0xffffffff

def selectSecuritySectionNode (dest : Option SectionNode) (node : SectionNode) : Option SectionNode :=
  if node.regRemain.value != 0 && node.regRemain.valid && dest.all (fun d => decide (node.priority > d.priority)) then
    some node
  else dest

/-- The file, and what it is parsed for. -/
structure Image where
  buf : List UInt8
  chipid : UInt8
  patchKeyId : UInt8

/-- A register's 64-bit fields, cut to 32 bits. -/
def readReg (buf : List UInt8) (off : Nat) : Build Reg := do
  let addr ← readLe buf off 8
  let value ← readLe buf (off + 8) 8
  pure ⟨UInt32.ofNat addr, UInt32.ofNat value⟩

/-- The node of a section; `totalLen` is what its fragments carry. -/
def mkNode (imageLen totalLen : UInt32) (imagePayload : Nat) (priority : UInt8) (regStart regRemain : Reg) : SectionNode :=
  let lastPkt := UInt8.ofNat (totalLen.toNat % hciPatchFragSize)
  { newSectionCheck := false
    priority := priority
    curIndex := 1
    endIndex := UInt16.ofNat ((totalLen - 1).toNat / hciPatchFragSize + 1)
    lastPkt := if lastPkt = 0 then UInt8.ofNat hciPatchFragSize else lastPkt
    regStart := regStart
    regRemain := regRemain
    imageLen := imageLen
    imagePayload := imagePayload
    sentImageLen := 0 }

/-- The length that counts for the firmware, and the info with the section queued. -/
def parsePatchImage (f : Image) (p : Nat) (info : PatchInfo) : Build (UInt32 × PatchInfo) := do
  let chipId ← readLe f.buf p 2
  let icCut ← readByte f.buf (p + 2)
  let keyId ← readByte f.buf (p + 3)
  let otaEn ← readByte f.buf (p + 4)
  if chipId ≠ hciPatchProjectId ∨ icCut ≠ f.chipid ∨ keyId ≠ f.patchKeyId ∨ otaEn ≠ 0 then pure (0, info)
  else if info.sectionCnt ≥ 64 then pure (0, info)
  else
    let tempImageLen ← readLe f.buf (p + hciPatchImageInfoLen) 8
    if tempImageLen = 0 then pure (0, info)
    else
      let imageLen := UInt32.ofNat tempImageLen
      let priority ← readByte f.buf (p + hciPatchImageInfoLen - 1)
      let regRemain ← readReg f.buf (p + hciPatchImageInfoLen - 17)
      let regStart ← readReg f.buf (p + hciPatchImageInfoLen - 33)
      let totalLen := if info.sectionCnt + 1 = 1 then imageLen + info.configLen.toUInt32 else imageLen
      let node := mkNode imageLen totalLen (p + hciPatchImageInfoLen + 8) priority regStart regRemain
      pure (imageLen, { info with
        sectionCnt := info.sectionCnt + 1
        nodes := insertPatchQueue info.nodes node
        securityNode := selectSecuritySectionNode info.securityNode node })

/-- The loop of `_parse_sections`. -/
def parseSectionLoop (f : Image) : Nat → Nat → UInt32 → PatchInfo → Build (UInt32 × PatchInfo)
  | 0, _, fwLen, info => pure (fwLen, info)
  | sectionNum + 1, pSection, fwLen, info => do
    let opcode ← readLe f.buf pSection 4
    let payloadLen ← readLe f.buf (pSection + 4) 8
    let (len, info) ← (if opcode = 0x01 then parsePatchImage f (pSection + 12) info else pure (0, info))
    parseSectionLoop f sectionNum (pSection + 12 + payloadLen) (fwLen + len) info

def parseSections (f : Image) (pBuf : Nat) (info : PatchInfo) : Build (UInt32 × PatchInfo) := do
  let sectionNum ← readLe f.buf pBuf 4
  if sectionNum = 0 then pure (0, info) else parseSectionLoop f sectionNum (pBuf + 4) 0 info

def getPatchInfo (f : Image) (config : ConfigBuf) (info : PatchInfo) : Build PatchInfo := do
  let _versionDate ← readLe f.buf 8 4
  let _versionTime ← readLe f.buf 12 4
  let (fwLen, info) ← parseSections f 20 { info with configLen := UInt16.ofNat config.bytes.length }
  if fwLen = 0 then throw (.ret hciIgnore) else pure { info with fwLen := fwLen }

/-! ## Commands -/

/-- `buf` after the `memset` at the head of a turn. -/
def clearBuf : List UInt8 := [0x01, 0x20, 0xfc] ++ List.replicate (reserveLen + 253) 0

/-- One fragment of a section: the buffer, the node and the info after it. -/
def copyFragment (fw : List UInt8) (config : ConfigBuf) (info : PatchInfo) (node : SectionNode) (buf : List UInt8) :
    Build (List UInt8 × SectionNode × PatchInfo) := do
  let len := if node.curIndex = node.endIndex then node.lastPkt + 1 else UInt8.ofNat hciPatchFragSize + 1
  let buf ← copyTo buf 3 [len, trimIndex node.curIndex]
  let remainLen := len - 1
  if node.sentImageLen + remainLen.toUInt32 ≤ node.imageLen then
    let bytes ← slice fw (node.imagePayload + node.sentImageLen.toNat) remainLen.toNat
    let buf ← copyTo buf 5 bytes
    pure (buf, { node with sentImageLen := node.sentImageLen + remainLen.toUInt32 },
      { info with sentFwLen := info.sentFwLen + remainLen.toUInt32 })
  else
    let sendingLen := (node.imageLen - node.sentImageLen).toUInt8
    let bytes ← slice fw (node.imagePayload + node.sentImageLen.toNat) sendingLen.toNat
    let buf ← copyTo buf 5 bytes
    let node := { node with sentImageLen := node.sentImageLen + sendingLen.toUInt32 }
    let remainLen := remainLen - sendingLen
    let bytes ← slice config.bytes info.sentConfigLen.toNat remainLen.toNat
    let buf ← copyTo buf (5 + sendingLen.toNat) bytes
    if node.imageLen ≠ node.sentImageLen then throw (.ret hciFail)
    else
      pure (buf, node, { info with
        sentFwLen := info.sentFwLen + sendingLen.toUInt32
        sentConfigLen := info.sentConfigLen + remainLen.toUInt16 })

/-- Where the scan of the queue stops: after a fragment, or at the end with the last node. -/
structure Scan where
  buf : List UInt8
  nodes : List SectionNode
  info : PatchInfo
  /-- The registers of the last section met for the first time. -/
  regs : Option (Reg × Reg)
  sent : Bool

/-- The loop over the queue; a fragment's `cur_index++` is made here. -/
def scan (fw : List UInt8) (config : ConfigBuf) (info : PatchInfo) (buf : List UInt8) :
    List SectionNode → Option (Reg × Reg) → Build Scan
  | [], regs => pure ⟨buf, [], info, regs, false⟩
  | node :: rest, regs => do
    let regs := if node.newSectionCheck = false then some (node.regStart, node.regRemain) else regs
    let node := { node with newSectionCheck := true }
    if node.curIndex > node.endIndex then
      let s ← scan fw config info buf rest regs
      pure { s with nodes := node :: s.nodes }
    else
      let (buf, node, info) ← copyFragment fw config info node buf
      pure ⟨buf, { node with curIndex := node.curIndex + 1 } :: rest, info, regs, true⟩

/-- The buffer and the registers to write first. With no section the loop leaves `node`
    unset. -/
def hciPatchGetCmdBuf (fw : List UInt8) (config : ConfigBuf) (info : PatchInfo) :
    Build (List UInt8 × Option (Reg × Reg) × PatchInfo) := do
  if info.nodes = [] then throw .fault
  else
    let s ← scan fw config info clearBuf info.nodes none
    let info := { s.info with nodes := s.nodes }
    if s.sent then pure (s.buf, s.regs, info)
    else
      let buf ← copyTo s.buf 3 [1, 0x80]
      if info.sentFwLen ≠ info.fwLen then throw (.ret hciFail)
      else if info.sentConfigLen ≠ info.configLen then throw (.ret hciFail)
      else pure (buf, s.regs, info)

/-- The register writes of a new section. -/
def sectionWrites (regs : Option (Reg × Reg)) : List (UInt32 × UInt32) :=
  match regs with
  | none => []
  | some (start, remain) => ([start, remain].filter Reg.valid).map fun r => (r.addr, r.value)

/-- `hci_patch_found_security_section`: the write before the last command. -/
def securityWrite (info : PatchInfo) : List (UInt32 × UInt32) :=
  match info.securityNode with
  | none => []
  | some node => [(node.regStart.addr, node.regStart.value + node.imageLen - node.regRemain.value)]

/-! ## Downloading -/

def nextCommand (fw : List UInt8) (config : ConfigBuf) (info : PatchInfo) : Build (Step × PatchInfo) := do
  let (buf, regs, info) ← hciPatchGetCmdBuf fw config info
  let len := buf.getD 3 0
  let index := buf.getD 4 0
  let security := if len = 1 ∧ index &&& 0x80 ≠ 0 then securityWrite info else []
  let cmd ← slice buf 0 (len.toNat + 4)
  pure (⟨sectionWrites regs ++ security, cmd, index == 0x80⟩, info)

/-- The test of the response's index byte. -/
def lastCommand (index : UInt8) : Bool := index == 0x80

def hciDownloadPatchV3 (e : Env) (fw : List UInt8) (eversion : UInt8) (config : ConfigBuf) : Run UInt8 := do
  match ← hciVendorRead e hciBtRegKeyId with
  | none => pure hciFail
  | some keyIdValue =>
    if keyIdValue ≠ 0 then pure hciFail
    else
      match getPatchInfo ⟨fw, eversion + 1, keyIdValue.toUInt8⟩ config PatchInfo.zero with
      | .error .fault => Prog.exit .fault
      | .error (.ret ret) => pure ret
      | .ok info =>
        let s ← Prog.get
        downloadLoop e (nextCommand fw config) lastCommand (s.rx.length + 1) 8 info

end AmebaLinux.Hciattach.PatchV3
