/-
  AmebaLinux.Rcp.FwUpdateSubProcess — the tool's requests to the RCP in update mode
  (`openthread/RTKRCP_Config_CFU_Tool_V1.02_20241218/FwUpdateSubProcess.c`:
  `FwGetVerison`, `FwUpdateOffer`, `FwUpdateSrc` as the caller sees it).

  The three response handlers share `repBuff` but each has a static `index` of its own,
  which outlives the wait. `exit(1)` is an outer `none`. The line is the exchanges to
  come, one per request; when there are none left the port takes nothing more.
  `EnterFwUpdateMode` only drops what it reads and is left out.
-/

import AmebaLinux.Rcp.FwUpdateSrc

namespace AmebaLinux.Rcp.FwUpdate

open AmebaLinux.Lib.Bytes
open AmebaLinux.Rcp.Tty
open AmebaLinux.Rcp.FwUpdateSrc

/-! ## The shared report buffer -/

/-- Which response is waited for. -/
inductive Kind where
  | version
  | offer
  | content
  deriving DecidableEq, Repr

def Kind.handler : Kind → Report → List UInt8 → Option (Report × Bool)
  | .version => getVersionReponseHandle
  | .offer => getOfferReponseHandle
  | .content => reponseHandle

/-- The length a response of this kind has. -/
def Kind.size : Kind → Nat
  | .version => fwUpdateVersionLen + 1
  | .offer => fwUpdateOfferResponseLen + 1
  | .content => fwUpdateContentResponseLen + 1

/-- `repBuff`, and the static `index` of each handler. -/
structure Reports where
  repBuff : List UInt8
  version : Nat
  offer : Nat
  content : Nat
  deriving DecidableEq, Repr

def Reports.start : Reports := ⟨List.replicate reportLengthStandard 0, 0, 0, 0⟩

def Reports.index (s : Reports) : Kind → Nat
  | .version => s.version
  | .offer => s.offer
  | .content => s.content

/-- What the handler of a kind works on. -/
def Reports.get (s : Reports) (k : Kind) : Report := ⟨s.repBuff, s.index k⟩

def Reports.put (s : Reports) (k : Kind) (r : Report) : Reports :=
  match k with
  | .version => { s with repBuff := r.repBuff, version := r.index }
  | .offer => { s with repBuff := r.repBuff, offer := r.index }
  | .content => { s with repBuff := r.repBuff, content := r.index }

def handle (k : Kind) (s : Reports) (buff : List UInt8) : Option (Reports × Bool) :=
  (k.handler (s.get k) buff).map fun x => (s.put k x.1, x.2)

def waitFor (k : Kind) (s : Reports) (script : List ReadEv) : Option (ExecResult × Reports) :=
  ttyWaitForFrame (handle k) s script

/-! ## Requests -/

structure Port where
  reports : Reports
  line : List Exchange
  deriving DecidableEq, Repr

/-- An exchange with a port that takes nothing. -/
def dead : Exchange := ⟨[], []⟩

def Port.device (p : Port) (k : Nat) : Exchange := p.line.getD k dead

def fwUpdateVersionReportid : UInt8 := 0x2a
def fwUpdateOfferReportid : UInt8 := 0x2d

/-- `T_IMAGE_VERSION`. -/
structure ImageVersion where
  isDualbank : Bool
  version : UInt32
  deriving DecidableEq, Repr

def ImageVersion.ofReport (repBuff : List UInt8) : ImageVersion where
  isDualbank := (repBuff.getD 9 0 &&& 0x3) != 2
  version := UInt32.ofNat (leNat ((repBuff.drop 5).take 4))

/-- The version, or an inner `none` where the function returns false. -/
def fwGetVerison (p : Port) : Option (Option ImageVersion × Port) :=
  let e := p.device 0
  let p := { p with line := p.line.drop 1 }
  if (ttyWriteRest e.writes [fwUpdateVersionReportid]).1 ≠ .noErr then some (none, p)
  else
    match waitFor .version p.reports e.reads with
    | none => none
    | some (err, reports) =>
      let p := { p with reports := reports }
      if err = .noErr then some (some (.ofReport reports.repBuff), p) else some (none, p)

/-- The offer as it is sent: the 16 bytes of the file after the report id, with the two
    force bits of `ComponentInfo`'s second byte replaced. -/
def offerData (readBuff : List UInt8) (forceIgnoreVersion forceReset : Bool) : List UInt8 :=
  let flags := (readBuff.getD 1 0 &&& 0x3f) ||| (if forceReset then 0x40 else 0) ||| (if forceIgnoreVersion then 0x80 else 0)
  fwUpdateOfferReportid :: readBuff.set 1 flags

/-- `OfferResponseReportBlob.status`. -/
def offerStatus (repBuff : List UInt8) : UInt8 := repBuff.getD 13 0

/-- The status, or an inner `none` where the function returns false. `offerBin` is the
    offer file, `none` when it does not open. -/
def fwUpdateOffer (offerBin : Option (List UInt8)) (forceIgnoreVersion forceReset : Bool) (p : Port) :
    Option (Option UInt8 × Port) :=
  match offerBin with
  | none => some (none, p)
  | some file =>
    let readBuff := file.take 16
    if readBuff.length ≠ 16 then some (none, p)
    else
      let e := p.device 0
      let p := { p with line := p.line.drop 1 }
      if (ttyWriteRest e.writes (offerData readBuff forceIgnoreVersion forceReset)).1 ≠ .noErr then some (none, p)
      else
        match waitFor .offer p.reports e.reads with
        | none => none
        | some (err, reports) =>
          let p := { p with reports := reports }
          if err = .noErr then some (some (offerStatus reports.repBuff), p) else some (none, p)

/-- The content handler's report after `n` packets: a packet the port did not take was
    not waited for. -/
def reportAfter (device : Nat → Exchange) (r : Report) : Nat → Report
  | 0 => r
  | n + 1 =>
    let waited :=
      if (ttyWriteRest (device 0).writes (List.replicate 61 0)).1 = .noErr then
        match ttyWaitForFrame reponseHandle r (device 0).reads with
        | none => r
        | some (_, r') => r'
      else r
    reportAfter (fun k => device (k + 1)) waited n

/-- One exchange per packet. -/
def fwUpdatePayload (srcBin : Option (List UInt8)) (p : Port) : Option (Bool × Port) :=
  let report := p.reports.get .content
  let run := fwUpdateSrc p.device srcBin report
  let p := ⟨p.reports.put .content (reportAfter p.device report run.sent.length), p.line.drop run.sent.length⟩
  match run.outcome with
  | .exited => none
  | .ret ok => some (ok, p)

end AmebaLinux.Rcp.FwUpdate
