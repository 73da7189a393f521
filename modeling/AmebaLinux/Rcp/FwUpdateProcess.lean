/-
  AmebaLinux.Rcp.FwUpdateProcess — the update's main loop
  (`openthread/RTKRCP_Config_CFU_Tool_V1.02_20241218/FwUpdateProcess.c`:
  `FwUpdateMainProcess` from `while (!FwUpdateComplete)` to `Exit`).

  The loop is written over any device (`Calls`): what the requests answer and which
  state they leave is up to it, and `none` is the process exiting inside a request.
  `portCalls` is the device the requests of `AmebaLinux.Rcp.FwUpdateSubProcess` talk to.
  The waits for the device node to come back only end or not, and are left out; so are
  the pauses after `Exit`.

  `round` is the code's `uint8_t`. The loop has no bound of its own: `mainLoop` runs a
  given number of iterations and says whether the loop has ended. `count` counts slots
  of one pass, and does not come near its 16 bits.
-/

import AmebaLinux.Rcp.FwUpdateSubProcess

namespace AmebaLinux.Rcp.FwUpdate

open AmebaLinux.Rcp.FwUpdateSrc

/-! ## The pairs -/

def fwBinCountMax : Nat := 20
def fwImageTyeBOOT : UInt8 := 5
def appData1Pattern : List Char := ['_', 'A', 'p', 'p', '_', 'D', 'a', 't', 'a', '1', '.']
def firmwareUpdateOfferAccept : UInt8 := 0x01

/-- `strstr(text, pattern) != NULL`. -/
def strstr (text pattern : List Char) : Bool := text.tails.any fun t => pattern.isPrefixOf t

/-- `T_FwFile_Unit`. -/
structure FwFileUnit where
  offerName : List Char
  srcBinName : List Char
  imageType : UInt8
  isDownload : Bool
  isSrcbinExist : Bool
  deriving DecidableEq, Repr

/-- `is_send_offer` as both passes compute it. -/
def isSendOffer (forceIgnoreVersion : Bool) (round : UInt8) (ver : ImageVersion) (u : FwFileUnit) : Bool :=
  let send := if forceIgnoreVersion then !u.isDownload else true
  let send := if u.imageType = fwImageTyeBOOT ∧ 2 < round then false else send
  if !ver.isDualbank && decide (2 < round) && strstr u.offerName appData1Pattern then false else send

/-! ## The device -/

structure Calls (σ : Type) where
  fwGetVerison : σ → Option (Option ImageVersion × σ)
  /-- The offer of a name, and `!!ForceIgnoreVersion`. -/
  fwUpdateOffer : List Char → Bool → σ → Option (Option UInt8 × σ)
  fwUpdateSrc : List Char → σ → Option (Bool × σ)
  /-- The device node is `RTK_RCP_DEVICE`. -/
  direct : Bool
  /-- `device_open`, after a reboot. -/
  deviceOpen : σ → Bool × σ

/-- The port's requests, with the two folders' files by name, and whether the node opens
    again after a reboot. -/
def portCalls (offers payloads : List Char → Option (List UInt8)) (direct : Bool) (opens : Port → Bool) :
    Calls Port where
  fwGetVerison := fwGetVerison
  fwUpdateOffer := fun name force => fwUpdateOffer (offers name) force false
  fwUpdateSrc := fun name => fwUpdatePayload (payloads name)
  direct := direct
  deviceOpen := fun p => (opens p, p)

inductive Stop where
  /-- The loop left with this `ret`. -/
  | ret (code : Int)
  /-- `exit(1)` inside a request. -/
  | exited
  deriving DecidableEq, Repr

/-- The requests about the pairs, by slot: an offer with the status answered, `none` when
    it failed; a payload with what `FwUpdateSrc` returned, if it did. -/
inductive Event where
  | offer (index : Nat) (status : Option UInt8)
  | payload (index : Nat) (ok : Option Bool)
  deriving DecidableEq, Repr

section

variable {σ : Type} (c : Calls σ) (forceIgnoreVersion : Bool)

/-! ## One pass over the slots -/

/-- What a pass does: its requests, the slots after it, the payloads it started, and the
    device's state if it went through. -/
structure Pass (σ : Type) where
  events : List Event
  files : List FwFileUnit
  count : Nat
  result : Except Stop σ

/-- One slot's part of a pass, before the rest of it. -/
def Pass.before (p : Pass σ) (events : List Event) (u : FwFileUnit) (count : Nat) : Pass σ :=
  ⟨events ++ p.events, u :: p.files, count + p.count, p.result⟩

/-- The two passes: odd rounds send the offers only, even rounds also the payload of an
    accepted offer. -/
def pass (payload : Bool) (round : UInt8) (ver : ImageVersion) : List FwFileUnit → Nat → σ → Pass σ
  | [], _, port => ⟨[], [], 0, .ok port⟩
  | u :: units, index, port =>
    if u.isSrcbinExist && isSendOffer forceIgnoreVersion round ver u then
      match c.fwUpdateOffer u.offerName forceIgnoreVersion port with
      | none => ⟨[.offer index none], u :: units, 0, .error .exited⟩
      | some (none, _) => ⟨[.offer index none], u :: units, 0, .error (.ret (-2))⟩
      | some (some status, port) =>
        if payload && status == firmwareUpdateOfferAccept then
          match c.fwUpdateSrc u.srcBinName port with
          | none => ⟨[.offer index (some status), .payload index none], u :: units, 1, .error .exited⟩
          | some (false, _) =>
            ⟨[.offer index (some status), .payload index (some false)], u :: units, 1, .error (.ret (-2))⟩
          | some (true, port) =>
            (pass payload round ver units (index + 1) port).before
              [.offer index (some status), .payload index (some true)] { u with isDownload := true } 1
        else (pass payload round ver units (index + 1) port).before [.offer index (some status)] u 0
    else (pass payload round ver units (index + 1) port).before [] u 0

/-! ## The loop -/

structure Loop (σ : Type) where
  files : List FwFileUnit
  port : σ
  ver : ImageVersion
  round : UInt8

/-- Ask for the version until it answers, at most `n` times. -/
def retryVersion : Nat → σ → Option (Bool × σ)
  | 0, port => some (false, port)
  | n + 1, port =>
    match c.fwGetVerison port with
    | none => none
    | some (some _, port) => some (true, port)
    | some (none, port) => retryVersion n port

/-- After payloads to a single-bank RCP: wait until it is back from its reboot. -/
def awaitReboot (port : σ) : Option (Bool × σ) :=
  if c.direct then some (c.deviceOpen port) else retryVersion c 20 port

/-- One iteration: its requests, and whether `FwUpdateComplete` is set, with the state
    the next one would start from. -/
structure Turn (σ : Type) where
  events : List Event
  result : Except Stop (Bool × Loop σ)

def oddTurn (l : Loop σ) : Turn σ :=
  match c.fwGetVerison l.port with
  | none => ⟨[], .error .exited⟩
  | some (none, _) => ⟨[], .error (.ret (-1))⟩
  | some (some verTmp, port) =>
    let ver := if l.round = 1 then verTmp else l.ver
    let p := pass c forceIgnoreVersion false l.round ver l.files 0 port
    ⟨p.events, p.result.map fun port => (false, ⟨p.files, port, ver, l.round + 1⟩)⟩

def evenTurn (l : Loop σ) : Turn σ :=
  let p := pass c forceIgnoreVersion true l.round l.ver l.files 0 l.port
  ⟨p.events,
    match p.result with
    | .error stop => .error stop
    | .ok port =>
      if l.ver.isDualbank || p.count == 0 then .ok (true, ⟨p.files, port, l.ver, l.round + 1⟩)
      else
        match awaitReboot c port with
        | none => .error .exited
        | some (false, _) => .error (.ret (-1))
        | some (true, port) => .ok (false, ⟨p.files, port, l.ver, l.round + 1⟩)⟩

def turn (l : Loop σ) : Turn σ :=
  if l.round % 2 = 1 then oddTurn c forceIgnoreVersion l else evenTurn c forceIgnoreVersion l

/-- How the loop ended, if it did, and the requests of each iteration. -/
structure LoopRun where
  stop : Option Stop
  iterations : List (List Event)
  deriving DecidableEq, Repr

/-- At most `n` iterations of the loop. -/
def mainLoop : Nat → Loop σ → LoopRun
  | 0, _ => ⟨none, []⟩
  | n + 1, l =>
    let t := turn c forceIgnoreVersion l
    match t.result with
    | .error stop => ⟨some stop, [t.events]⟩
    | .ok (true, _) => ⟨some (.ret 0), [t.events]⟩
    | .ok (false, l') =>
      let r := mainLoop n l'
      ⟨r.stop, t.events :: r.iterations⟩

end

end AmebaLinux.Rcp.FwUpdate
