/-
  AmebaLinux.Rcp.Config — configuring the RCP
  (`openthread/RTKRCP_Config_CFU_Tool_V1.02_20241218/RcpConfig.c`: `ConfigRequest`,
  `rtkrcp_config_parse`, `rtkrcp_config_check`, `rtkrcp_config_read`,
  `rtkrcp_config_write`, `rtkrcp_flowctl_set`, `rtkrcp_config`,
  `rtkrcp_config_flowctl`; `ttydevice.c`: `device_open`; `main.c`: the retry loop).

  The globals are the state, and so is the rest of a run's environment: what the next
  `device_open` calls and the next requests will meet. `exit` ends the process with its
  code. A response is what was read after the request; `readtoEmpty` drops what came
  before and `device_close` only forgets the descriptor, so neither changes this state.
  `sent` records the commands given to `ConfigRequest`.

  `getConfigReponseHandle` and `ConfigRequest` write each frame they get to a trace of 512
  bytes on the stack. A long frame is stored past it, and what the process does then is
  not known: the model stops there (`Stop.overrun`). The traces of what is sent have 2048
  bytes and fit: a command has at most 34 bytes, its frame 258.
-/

import AmebaLinux.Lib.Bytes
import AmebaLinux.Lib.Prog
import AmebaLinux.Rcp.Hdlc
import AmebaLinux.Rcp.Tty

namespace AmebaLinux.Rcp.Config

open AmebaLinux.Lib
open AmebaLinux.Lib.Bytes
open AmebaLinux.Rcp.Hdlc
open AmebaLinux.Rcp.Tty

/-! ## The configuration record -/

/-- `rtk_config_param`, packed into 28 bytes. -/
structure ConfigParam where
  sign : UInt32
  vid : UInt16
  pid : UInt16
  txPin : UInt8
  rxPin : UInt8
  rtsPin : UInt8
  ctsPin : UInt8
  funcMsk : UInt8
  baudRate : BitVec 24
  ptaDis : UInt8
  ptaWlAct : UInt8
  ptaBtAct : UInt8
  ptaBtStat : UInt8
  ptaBtClk : UInt8
  extPa : UInt8
  extLna : UInt8
  extPaLnaPloatiry : UInt8
  icType : UInt16
  reserved : UInt16
  deriving DecidableEq, Repr

def sizeofConfigParam : Nat := 28

/-- The little-endian field of `k` bytes at offset `off`. -/
def field (bytes : List UInt8) (off k : Nat) : Nat := leNat ((bytes.drop off).take k)

def ConfigParam.ofBytes (b : List UInt8) : ConfigParam where
  sign := UInt32.ofNat (field b 0 4)
  vid := UInt16.ofNat (field b 4 2)
  pid := UInt16.ofNat (field b 6 2)
  txPin := UInt8.ofNat (field b 8 1)
  rxPin := UInt8.ofNat (field b 9 1)
  rtsPin := UInt8.ofNat (field b 10 1)
  ctsPin := UInt8.ofNat (field b 11 1)
  funcMsk := UInt8.ofNat (field b 12 1)
  baudRate := BitVec.ofNat 24 (field b 13 3)
  ptaDis := UInt8.ofNat (field b 16 1)
  ptaWlAct := UInt8.ofNat (field b 17 1)
  ptaBtAct := UInt8.ofNat (field b 18 1)
  ptaBtStat := UInt8.ofNat (field b 19 1)
  ptaBtClk := UInt8.ofNat (field b 20 1)
  extPa := UInt8.ofNat (field b 21 1)
  extLna := UInt8.ofNat (field b 22 1)
  extPaLnaPloatiry := UInt8.ofNat (field b 23 1)
  icType := UInt16.ofNat (field b 24 2)
  reserved := UInt16.ofNat (field b 26 2)

def ConfigParam.bytes (p : ConfigParam) : List UInt8 :=
  toLe 4 p.sign.toNat ++ toLe 2 p.vid.toNat ++ toLe 2 p.pid.toNat ++ [p.txPin, p.rxPin, p.rtsPin, p.ctsPin, p.funcMsk] ++
    toLe 3 p.baudRate.toNat ++ [p.ptaDis, p.ptaWlAct, p.ptaBtAct, p.ptaBtStat, p.ptaBtClk, p.extPa, p.extLna,
    p.extPaLnaPloatiry] ++ toLe 2 p.icType.toNat ++ toLe 2 p.reserved.toNat

/-- `func_msk & 0x01`: the UART runs without flow control. -/
def ConfigParam.noFlowctl (p : ConfigParam) : Bool := p.funcMsk &&& 0x01 != 0

/-! ## The process -/

/-- What one `device_open` meets. -/
inductive OpenEv where
  /-- `open`, `tcflush` or `tcgetattr` fails. -/
  | failed
  /-- The node opens and is not a terminal. -/
  | plain
  /-- The node is a terminal; whether its attributes can then be set. -/
  | tty (setattr : Bool)
  deriving DecidableEq, Repr

structure TtyDevice where
  deviceNode : List Char
  baudrate : Nat
  flowctl : Bool
  stopbit : Nat
  deriving DecidableEq, Repr

structure St where
  configParam : ConfigParam
  flowctlEnable : Bool
  parseFileOk : Bool
  decoder : Decoder
  configResponse : List UInt8
  configResponseLen : Nat
  ttydevice : TtyDevice
  opens : List OpenEv
  requests : List Exchange
  sent : List (List UInt8)
  deriving DecidableEq, Repr

/-- How a run stops before it returns. -/
inductive Stop where
  | exit (code : Nat)
  /-- A trace is stored past its buffer. -/
  | overrun
  deriving DecidableEq, Repr

abbrev Tool (α : Type) : Type := Prog St Stop α

/-- The next outcome of `device_open`'s system calls; none left means the node is gone. -/
def nextOpen : Tool OpenEv := Prog.step fun s => (s.opens.headD .failed, { s with opens := s.opens.tail })

/-- The next request's exchange; none left means a dead line. -/
def nextExchange : Tool Exchange :=
  Prog.step fun s => (s.requests.headD ⟨[], []⟩, { s with requests := s.requests.tail })

def ttydeviceBaudSet (baudrate : Nat) : Tool Unit :=
  Prog.modify fun s => { s with ttydevice := { s.ttydevice with baudrate := baudrate } }

def ttydeviceFlowctlSet (enable : Bool) : Tool Unit :=
  Prog.modify fun s => { s with ttydevice := { s.ttydevice with flowctl := enable } }

/-- The baud rates `device_open` has a `speed_t` for. -/
def speeds : List Nat :=
  [9600, 19200, 38400, 57600, 115200, 230400, 460800, 500000, 576000, 921600, 1000000, 1152000, 1500000, 2000000,
    2500000, 3000000, 3500000, 4000000]

def deviceOpen : Tool Bool := do
  match ← nextOpen with
  | .failed => pure false
  | .plain => pure true
  | .tty setattr =>
    let s ← Prog.get
    if s.ttydevice.stopbit ≠ 1 ∧ s.ttydevice.stopbit ≠ 2 then Prog.exit (.exit 2)
    else if s.ttydevice.baudrate ∉ speeds then Prog.exit (.exit 2)
    else pure setattr

def rtkrcpUsbInterfaceCheck (d : TtyDevice) : Bool :=
  decide ("ttyACM".toList <:+: d.deviceNode) || decide ("ttyRTKRCP".toList <:+: d.deviceNode)

/-! ## Requests -/

/-- The globals `getConfigReponseHandle` writes. -/
structure Response where
  decoder : Decoder
  configResponse : List UInt8
  configResponseLen : Nat
  deriving DecidableEq, Repr

/-- The decoded frame is copied to `configResponse`; whether there is one. -/
def takeResponse (r : Response) (buff : List UInt8) : Response × Bool :=
  let c := hdlcDecode r.decoder buff
  if c.ret ≠ .complete then ({ r with decoder := c.after }, false)
  else (⟨c.after, overlay r.configResponse 0 c.payload, c.len⟩, true)

def Response.frame (r : Response) : List UInt8 := r.configResponse.take r.configResponseLen

/-- `sizeof(recv_s)`. -/
def recvSize : Nat := 512

/-- What the handler's trace begins with. -/
def traceHead : List Char := "getConfigReponseHandle(): uart receive: ".toList

/-- `none` where the trace is stored past its buffer. -/
def getConfigReponseHandle (r : Response) (buff : List UInt8) : Option (Response × Bool) :=
  let taken := takeResponse r buff
  if taken.2 then (traceLoop recvSize taken.1.frame traceHead.length).map fun _ => taken
  else some taken

def St.response (s : St) : Response := ⟨s.decoder, s.configResponse, s.configResponseLen⟩

def St.setResponse (s : St) (r : Response) : St :=
  { s with decoder := r.decoder, configResponse := r.configResponse, configResponseLen := r.configResponseLen }

/-- Wait for the response to a request. -/
def waitForResponse (reads : List ReadEv) : Tool ExecResult := do
  let s ← Prog.get
  match ttyWaitForFrame getConfigReponseHandle s.response reads with
  | none => Prog.exit .overrun
  | some (err, r) =>
    Prog.modify fun s => s.setResponse r
    pure err

/-- The response bytes, when one came that fits in `responseLen` bytes. -/
def configRequest (cmdBuffer : List UInt8) (responseLen : Nat) : Tool (Option (List UInt8)) := do
  Prog.modify fun s => { s with sent := s.sent ++ [cmdBuffer] }
  match hdlcEncode cmdBuffer with
  | none => Prog.exit (.exit 1)
  | some aFrame =>
    let x ← nextExchange
    if (ttyWriteRest x.writes aFrame).1 ≠ .noErr then pure none
    else
      Prog.modify fun s => { s with decoder := hdlcDecoderReset s.decoder }
      let err ← waitForResponse x.reads
      if err ≠ .noErr then pure none
      else
        let s ← Prog.get
        match traceLoop recvSize s.response.frame 0 with
        | none => Prog.exit .overrun
        | some _ =>
          if responseLen < s.configResponseLen then pure none
          else pure (some s.response.frame)

/-! ## Spinel commands -/

def spinelPackedUintSize (value : Nat) : Nat :=
  if value < 2 ^ 7 then 1 else if value < 2 ^ 14 then 2 else if value < 2 ^ 21 then 3
  else if value < 2 ^ 28 then 4 else 5

/-- `more` groups of seven bits with the continuation bit, then the last one without. -/
def spinelGroups : Nat → Nat → List UInt8
  | 0, value => [UInt8.ofNat (value % 128)]
  | more + 1, value => (UInt8.ofNat (value % 128) ||| 0x80) :: spinelGroups more (value / 128)

def spinelPackedUintEncode (len value : Nat) : List UInt8 :=
  if spinelPackedUintSize value ≤ len then spinelGroups (spinelPackedUintSize value - 1) value else []

def spinelPropVendorRtkConfigRead : Nat := 0x3c0a
def spinelPropVendorRtkConfigWrite : Nat := 0x3c0b
def spinelPropVendorRtkFlowControl : Nat := 0x3c0c

def spinelCmdPropValueGet : UInt8 := 2
def spinelCmdPropValueSet : UInt8 := 3
def spinelCmdPropValueIs : UInt8 := 6

/-- `SPINEL_HEADER_FLAG | SPINEL_HEADER_IID(0) | tid` with tid 5. -/
def spinelHeader : UInt8 := (0x80 : UInt8) ||| ((0 : UInt8) <<< 4) ||| ((5 : UInt8) &&& 0x0f)

def readConfigResponseDataLength : Nat := 34
def commonConfigResponseDataLength : Nat := 4

def readCommand : List UInt8 :=
  [spinelHeader, spinelCmdPropValueGet] ++ spinelPackedUintEncode 2 spinelPropVendorRtkConfigRead

/-- A value-set command for `prop`. -/
def setCommand (prop : Nat) (data : List UInt8) : List UInt8 :=
  [spinelHeader, spinelCmdPropValueSet] ++ spinelPackedUintEncode 2 prop ++ [UInt8.ofNat data.length, 0] ++ data

/-- The configuration in a valid read response. -/
def readResponse (cmdBuff respBuff : List UInt8) : Option ConfigParam :=
  if respBuff.length = readConfigResponseDataLength ∧ respBuff[0]? = cmdBuff[0]? ∧
      respBuff[1]? = some spinelCmdPropValueIs ∧ respBuff[2]? = cmdBuff[2]? ∧ respBuff[3]? = cmdBuff[3]? ∧
      respBuff[4]? = some (UInt8.ofNat sizeofConfigParam) ∧ respBuff[5]? = some 0 then
    some (ConfigParam.ofBytes (respBuff.drop 6))
  else none

/-- The fields `rtkrcp_config_check` compares. -/
def ConfigParam.sameAs (c p : ConfigParam) : Bool :=
  c.vid == p.vid && c.pid == p.pid && c.funcMsk == p.funcMsk && c.baudRate == p.baudRate && c.ptaDis == p.ptaDis &&
    c.extPa == p.extPa && c.extLna == p.extLna && c.extPaLnaPloatiry == p.extPaLnaPloatiry

/-- `none` where the function returns false, else `*is_config_same`. Without a ConfigBin
    the RCP's own configuration is taken over. -/
def rtkrcpConfigCheck : Tool (Option Bool) := do
  match ← configRequest readCommand readConfigResponseDataLength with
  | none => pure none
  | some respBuff =>
    match readResponse readCommand respBuff with
    | none => pure (some false)
    | some p =>
      let s ← Prog.get
      if s.parseFileOk then
        if s.configParam.icType ≠ p.icType then Prog.exit (.exit 255)
        else pure (some (s.configParam.sameAs p && s.configParam.noFlowctl))
      else
        Prog.modify fun s => { s with configParam := p }
        pure (some p.noFlowctl)

def rtkrcpConfigRead : Tool (Option ConfigParam) := do
  match ← configRequest readCommand readConfigResponseDataLength with
  | none => pure none
  | some respBuff => pure (readResponse readCommand respBuff)

/-- The status in the answer to a set command; any other frame is a refusal. -/
def responseOk (cmdBuff respBuff : List UInt8) : Bool :=
  decide (respBuff.length = commonConfigResponseDataLength ∧ respBuff[0]? = cmdBuff[0]? ∧
    respBuff[1]? = some spinelCmdPropValueIs ∧ respBuff[2]? = some 0 ∧ respBuff[3]? = some 0)

/-- A set request: `none` where it returns false, else `*response_ok`. -/
def setRequest (cmdBuff : List UInt8) : Tool (Option Bool) := do
  match ← configRequest cmdBuff commonConfigResponseDataLength with
  | none => pure none
  | some respBuff => pure (some (responseOk cmdBuff respBuff))

def rtkrcpConfigWrite : Tool (Option Bool) := do
  let s ← Prog.get
  setRequest (setCommand spinelPropVendorRtkConfigWrite s.configParam.bytes)

def rtkrcpFlowctlSet (flowctlEnable : UInt8) : Tool (Option Bool) :=
  setRequest (setCommand spinelPropVendorRtkFlowControl [flowctlEnable])

/-! ## Configuring -/

/-- What `rtkrcp_config_parse` finds at `RcpConfigBin`. -/
inductive ConfigBin where
  | absent
  | unopenable
  | unreadable
  | content (bytes : List UInt8)
  deriving DecidableEq, Repr

/-- A file that is too short leaves `config_param`, and still counts as parsed. -/
def rtkrcpConfigParse : ConfigBin → Tool Bool
  | .content bytes => do
    let got := bytes.take sizeofConfigParam
    if got.length = sizeofConfigParam then
      Prog.modify fun s => { s with configParam := ConfigParam.ofBytes got }
    Prog.modify fun s => { s with parseFileOk := true }
    pure true
  | _ => do
    Prog.modify fun s => { s with parseFileOk := false }
    pure false

/-- How one try of a baud rate and a flow-control setting ends. -/
inductive Probe where
  | notOpened
  | silent
  | hit (isConfigSame : Bool)
  deriving DecidableEq, Repr

def probe (flowctl : Bool) : Tool Probe := do
  ttydeviceFlowctlSet flowctl
  if ← deviceOpen then
    let _ ← rtkrcpConfigRead
    match ← rtkrcpConfigCheck with
    | some isConfigSame => pure (.hit isConfigSame)
    | none => pure .silent
  else pure .notOpened

/-- The settings of ConfigBin, without and with flow control. -/
def probeConfigured : Tool Probe := do
  let s ← Prog.get
  ttydeviceBaudSet s.configParam.baudRate.toNat
  match ← probe false with
  | .hit isConfigSame => pure (.hit isConfigSame)
  | _ => probe true

def baudrateTable : List Nat :=
  [921600, 115200, 230400, 460800, 921600, 1000000, 2000000, 115200, 230400, 460800, 921600, 1000000, 2000000,
    115200, 230400, 460800, 921600, 1000000, 2000000]

/-- The search for the baud rate; it exits when no entry of the table answers. -/
def probeTable : List Nat → Tool Probe
  | [] => Prog.exit (.exit 254)
  | baudrate :: rest => do
    ttydeviceBaudSet baudrate
    match ← probe false with
    | .silent =>
      match ← probe true with
      | .silent => probeTable rest
      | p => pure p
    | p => pure p

/-- The first phase: find the RCP. -/
def findRcp : Tool Probe := do
  let s ← Prog.get
  if s.parseFileOk then
    match ← probeConfigured with
    | .hit isConfigSame => pure (.hit isConfigSame)
    | _ => probeTable baudrateTable
  else probeTable baudrateTable

/-- Where `rtkrcp_config` returned false. -/
inductive Failure where
  | open
  | write
  | reopen
  | reread
  | comparison
  deriving DecidableEq, Repr

inductive Attempt where
  | success
  | failed (failure : Failure)
  deriving DecidableEq, Repr

/-- Note the requested flow control, and force it off in the record for this phase. -/
def forceFlowctlOff : Tool Unit :=
  Prog.modify fun s => { s with
    flowctlEnable := !s.configParam.noFlowctl
    configParam := { s.configParam with funcMsk := s.configParam.funcMsk ||| 0x01 } }

/-- Put the requested flow control back into the record. -/
def restoreFlowctl : Tool Unit :=
  Prog.modify fun s => { s with
    configParam := { s.configParam with
      funcMsk := if s.flowctlEnable then s.configParam.funcMsk &&& 0xfe else s.configParam.funcMsk ||| 0x01 } }

/-- The second phase: write the record, and read it back after the reboot. -/
def writeConfig : Tool Attempt := do
  forceFlowctlOff
  match ← rtkrcpConfigWrite with
  | some true =>
    let s ← Prog.get
    ttydeviceBaudSet s.configParam.baudRate.toNat
    ttydeviceFlowctlSet false
    if ← deviceOpen then
      match ← rtkrcpConfigCheck with
      | none => pure (.failed .reread)
      | some false => pure (.failed .comparison)
      | some true =>
        restoreFlowctl
        pure .success
    else pure (.failed .reopen)
  | _ => pure (.failed .write)

def rtkrcpConfig : Tool Attempt := do
  match ← findRcp with
  | .hit true => pure .success
  | .hit false => writeConfig
  | _ => pure (.failed .open)

def rtkrcpConfigFlowctl : Tool Bool := do
  let s ← Prog.get
  if rtkrcpUsbInterfaceCheck s.ttydevice then pure true
  else if s.flowctlEnable then
    if ← deviceOpen then
      match ← rtkrcpFlowctlSet 1 with
      | some true =>
        ttydeviceFlowctlSet true
        pure true
      | _ => pure false
    else pure false
  else pure true

/-- `main`'s loop around `rtkrcp_config`, with the attempts that are left. -/
def configLoop : Nat → Tool Bool
  | 0 => pure false
  | retry + 1 => do
    match ← rtkrcpConfig with
    | .success => pure true
    | .failed _ => configLoop retry

end AmebaLinux.Rcp.Config
