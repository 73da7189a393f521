/-
  AmebaLinux.Hciattach.PatchV2 — downloading a version 2 patch
  (`bluetooth/hciattach/hci_download_v2.c`).

  The firmware file is its bytes and a pointer into it an offset; an access outside the
  file, the config or the command buffer is `Halt.fault`. The counters have the code's
  widths. Allocations succeed.
-/

import AmebaLinux.Lib.Bytes
import AmebaLinux.Lib.Queue
import AmebaLinux.Hciattach.Link

namespace AmebaLinux.Hciattach.PatchV2

open AmebaLinux.Lib
open AmebaLinux.Lib.Bytes
open AmebaLinux.Hciattach.Link

/-! ## Parsing -/

structure PatchNode where
  eco : UInt8
  priority : UInt8
  keyId : UInt8
  payloadLen : UInt32
  /-- Where the payload starts in the file. -/
  payload : Nat
  sentPayloadLen : UInt32
  deriving DecidableEq, Repr

def insertPatchQueue (q : List PatchNode) (node : PatchNode) : List PatchNode :=
  Queue.insert (·.priority.toNat) q node

inductive SectionOpcode where
  | patchSnippets
  | dummyHeader
  | securityHeader
  | otaFlag
  | controllerRsvd
  | unknown
  deriving DecidableEq, Repr

def sectionOpcode (opcode : Nat) : SectionOpcode :=
  if opcode = 0x01 then .patchSnippets else if opcode = 0x02 then .dummyHeader
  else if opcode = 0x03 then .securityHeader else if opcode = 0x04 then .otaFlag
  else if opcode = 0x08 then .controllerRsvd else .unknown

structure Parsed where
  queue : List PatchNode
  fwLen : UInt32
  foundSecurityHeader : Bool
  deriving DecidableEq, Repr

/-- The file, and what it is parsed for. -/
structure Image where
  buf : List UInt8
  chipid : UInt8
  patchKeyId : UInt8

def Parsed.add (p : Parsed) (node : PatchNode) : Parsed :=
  { p with queue := insertPatchQueue p.queue node, fwLen := p.fwLen + node.payloadLen }

/-- What the entry at `position` does when it is for this chip. -/
def takeEntry (f : Image) (opcode : SectionOpcode) (position : Nat) (eco : UInt8) (payloadLen : Nat) (p : Parsed) :
    Build Parsed := do
  let priority ← readByte f.buf (position + 1)
  let keyId ← (if opcode = .securityHeader then readByte f.buf (position + 2) else pure 0)
  let node : PatchNode := ⟨eco, priority, keyId, UInt32.ofNat payloadLen, position + 8, 0⟩
  if opcode = .patchSnippets ∨ opcode = .dummyHeader then pure (p.add node)
  else if opcode = .securityHeader ∧ keyId = f.patchKeyId then pure { p.add node with foundSecurityHeader := true }
  else pure p

def parseEntries (f : Image) (opcode : SectionOpcode) : Nat → Nat → Parsed → Build Parsed
  | 0, _, p => pure p
  | number + 1, position, p => do
    let eco ← readByte f.buf position
    let payloadLen ← readLe f.buf (position + 4) 4
    let p ← (if eco = f.chipid then takeEntry f opcode position eco payloadLen p else pure p)
    parseEntries f opcode number (position + 8 + payloadLen) p

def parsePatchSection (f : Image) (opcode : SectionOpcode) (pBuf : Nat) (p : Parsed) : Build Parsed := do
  let number ← readLe f.buf pBuf 2
  parseEntries f opcode number (pBuf + 4) p

/-- The `switch` of the first pass. -/
def firstPass (f : Image) (opcode : SectionOpcode) (body : Nat) (p : Parsed) : Build Parsed :=
  match opcode with
  | .patchSnippets => parsePatchSection f .patchSnippets body p
  | .dummyHeader => if f.patchKeyId ≠ 0 then pure p else parsePatchSection f .dummyHeader body p
  | .securityHeader => if f.patchKeyId = 0 then pure p else parsePatchSection f .securityHeader body p
  | .otaFlag => pure p
  | .controllerRsvd => pure p
  | .unknown => pure p

/-- With a key and no security header for it, the dummy headers are taken after all. -/
def secondPass (f : Image) (opcode : SectionOpcode) (body : Nat) (p : Parsed) : Build Parsed :=
  if opcode = .dummyHeader then parsePatchSection f .dummyHeader body p else pure p

def parseSections (f : Image) (pass : SectionOpcode → Nat → Parsed → Build Parsed) : Nat → Nat → Parsed → Build Parsed
  | 0, _, p => pure p
  | sectionNum + 1, pSection, p => do
    let opcode ← readLe f.buf pSection 4
    let length ← readLe f.buf (pSection + 4) 4
    let p ← pass (sectionOpcode opcode) (pSection + 8) p
    parseSections f pass sectionNum (pSection + 8 + length) p

def parsePatch (f : Image) (pBuf : Nat) (queue : List PatchNode) : Build Parsed := do
  let sectionNum ← readLe f.buf pBuf 4
  if sectionNum = 0 then pure ⟨queue, 0, false⟩
  else
    let p ← parseSections f (firstPass f) sectionNum (pBuf + 4) ⟨queue, 0, false⟩
    if f.patchKeyId ≠ 0 ∧ p.foundSecurityHeader = false then
      parseSections f (secondPass f) sectionNum (pBuf + 4) p
    else pure p

/-! ## Commands -/

structure PatchInfo where
  fwLen : UInt32
  sentFwLen : UInt32
  configLen : UInt16
  sentConfigLen : UInt16
  curIndex : UInt16
  endIndex : UInt16
  lastPkt : UInt8
  nodes : List PatchNode
  deriving DecidableEq, Repr

def PatchInfo.zero : PatchInfo := ⟨0, 0, 0, 0, 0, 0, 0, []⟩

def getPatchInfo (f : Image) (config : ConfigBuf) (info : PatchInfo) : Build PatchInfo := do
  let _versionDate ← readLe f.buf 8 4
  let _versionTime ← readLe f.buf 12 4
  let p ← parsePatch f 16 info.nodes
  if p.fwLen = 0 then throw (.ret hciIgnore)
  else
    let configLen := UInt16.ofNat config.bytes.length
    let total := p.fwLen + configLen.toUInt32
    let lastPkt := UInt8.ofNat (total.toNat % hciPatchFragSize)
    pure { info with
      nodes := p.queue
      fwLen := p.fwLen
      configLen := configLen
      endIndex := UInt16.ofNat ((total - 1).toNat / hciPatchFragSize)
      lastPkt := if lastPkt = 0 then UInt8.ofNat hciPatchFragSize else lastPkt }

/-- The command's length byte; the patch is parsed when the first command is built. -/
def hciGetPatchCmdLen (f : Image) (config : ConfigBuf) (info : PatchInfo) : Build (UInt8 × PatchInfo) := do
  let info ← (if info.curIndex = 0 then getPatchInfo f config info else pure info)
  if info.curIndex = info.endIndex then pure (info.lastPkt + 1, info)
  else pure (UInt8.ofNat hciPatchFragSize + 1, info)

/-- Where a copy goes in `buf`: `data_buf + data_len - remain_len`. -/
def dataAt (dataLen remainLen : UInt8) : Int := 5 + dataLen.toNat - remainLen.toNat

structure Copied where
  nodes : List PatchNode
  sentFwLen : UInt32
  remainLen : UInt8
  buf : List UInt8
  deriving DecidableEq, Repr

/-- The loop over the queue, from `totalNodeLen` on. -/
def copyNodes (fw : List UInt8) (dataLen : UInt8) :
    List PatchNode → UInt32 → UInt32 → UInt8 → List UInt8 → Build Copied
  | [], _, sentFwLen, remainLen, buf => pure ⟨[], sentFwLen, remainLen, buf⟩
  | node :: rest, totalNodeLen, sentFwLen, remainLen, buf => do
    let totalNodeLen := totalNodeLen + node.payloadLen
    if sentFwLen < totalNodeLen then
      if sentFwLen + remainLen.toUInt32 < totalNodeLen then
        let bytes ← slice fw (node.payload + node.sentPayloadLen.toNat) remainLen.toNat
        let buf ← copyTo buf (dataAt dataLen remainLen) bytes
        let node := { node with sentPayloadLen := node.sentPayloadLen + remainLen.toUInt32 }
        pure ⟨node :: rest, sentFwLen + remainLen.toUInt32, 0, buf⟩
      else
        let sendingLen := (node.payloadLen - node.sentPayloadLen).toUInt8
        let bytes ← slice fw (node.payload + node.sentPayloadLen.toNat) sendingLen.toNat
        let buf ← copyTo buf (dataAt dataLen remainLen) bytes
        let node := { node with sentPayloadLen := node.sentPayloadLen + sendingLen.toUInt32 }
        if node.payloadLen ≠ node.sentPayloadLen then throw (.ret hciFail)
        else
          let c ← copyNodes fw dataLen rest totalNodeLen (sentFwLen + sendingLen.toUInt32) (remainLen - sendingLen) buf
          pure { c with nodes := node :: c.nodes }
    else
      let c ← copyNodes fw dataLen rest totalNodeLen sentFwLen remainLen buf
      pure { c with nodes := node :: c.nodes }

/-- The index byte, with bit 7 on the last command. -/
def indexByte (curIndex endIndex : UInt16) : UInt8 :=
  if curIndex = endIndex then trimIndex curIndex ||| 0x80 else trimIndex curIndex

/-- What is left of the command after the patch is filled with the config. -/
def copyConfig (config : ConfigBuf) (dataLen remainLen : UInt8) (buf : List UInt8) (info : PatchInfo) :
    Build (List UInt8 × PatchInfo) := do
  if 0 < remainLen then
    if info.fwLen ≠ info.sentFwLen then throw (.ret hciFail)
    else
      let bytes ← slice config.bytes info.sentConfigLen.toNat remainLen.toNat
      let buf ← copyTo buf (dataAt dataLen remainLen) bytes
      pure (buf, { info with sentConfigLen := info.sentConfigLen + remainLen.toUInt16 })
  else pure (buf, info)

/-- `cmd_buf` is `buf + 4`. -/
def hciGetPatchCmdBuf (f : Image) (config : ConfigBuf) (info : PatchInfo) (buf : List UInt8) (cmdLen : UInt8) :
    Build (List UInt8 × PatchInfo) := do
  let dataLen := cmdLen - 1
  let buf ← copyTo buf 4 [indexByte info.curIndex info.endIndex]
  let c ← copyNodes f.buf dataLen info.nodes 0 info.sentFwLen dataLen buf
  let (buf, info) ← copyConfig config dataLen c.remainLen c.buf { info with nodes := c.nodes, sentFwLen := c.sentFwLen }
  if info.curIndex = info.endIndex then
    if info.configLen ≠ info.sentConfigLen then throw (.ret hciFail)
    else pure (buf, info)
  else pure (buf, { info with curIndex := info.curIndex + 1 })

/-! ## Downloading -/

structure Loop where
  info : PatchInfo
  buf : List UInt8

/-- `buf` after the `memset` at the head of a turn and the length byte. -/
def clearBuf (buf : List UInt8) (cmdLen : UInt8) : List UInt8 :=
  buf.take 3 ++ cmdLen :: List.replicate 253 0

def nextCommand (f : Image) (config : ConfigBuf) (l : Loop) : Build (Step × Loop) := do
  let (cmdLen, info) ← hciGetPatchCmdLen f config l.info
  let (buf, info) ← hciGetPatchCmdBuf f config info (clearBuf l.buf cmdLen) cmdLen
  let cmd ← slice buf 0 ((buf.getD 3 0).toNat + 4)
  pure (⟨[], cmd, buf.getD 4 0 &&& 0x80 != 0⟩, ⟨info, buf⟩)

/-- The test of the response's index byte. -/
def lastFragment (index : UInt8) : Bool := index &&& 0x80 != 0

/-- `patch_key_id` stays 0 in this build. -/
def image (fw : List UInt8) (eversion : UInt8) : Image := ⟨fw, eversion + 1, 0⟩

def Loop.start : Loop := ⟨PatchInfo.zero, [0x01, 0x20, 0xfc] ++ List.replicate (reserveLen + 253) 0⟩

def hciDownloadPatchV2 (e : Env) (fw : List UInt8) (eversion : UInt8) (config : ConfigBuf) : Run UInt8 := do
  let s ← Prog.get
  downloadLoop e (nextCommand (image fw eversion) config) lastFragment (s.rx.length + 1) 8 Loop.start

end AmebaLinux.Hciattach.PatchV2
