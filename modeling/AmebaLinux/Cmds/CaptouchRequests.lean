/-
  AmebaLinux.Cmds.CaptouchRequests — how the captouch tool answers a request
  (`cmds/captouch/captouch_app.c`: `cap_cmd_table`, `cap_rx_process`,
  `cap_monitor_send_response`, `cap_moniter_tune_channel_mbias`,
  `cap_monitor_query_channel`, `cap_monitor_query`, `cap_monitor_config`,
  `cap_monitor_config_channel`, `cap_monitor_start`, `cap_monitor_stop`,
  `cap_monitor_reset_baseline`).

  A request is the tree that `cJSON_Parse` makes of it, none where it is not JSON, and its
  members are looked up with any library as cJSON's documentation has it
  (`AmebaLinux.Lib.CJson`). `cap_rx_process` uses what it finds without a check: a missing
  member is a null pointer, and so may be the string of an item that is none. What is
  looked up is noted (`Use`), in order.

  The calls of `captouch_util.c` are those of `AmebaLinux.Cmds.CaptouchDevice`, over any
  driver; `fuel` bounds the search for a bias, and a request is answered if some fuel
  suffices. Whether cJSON gets its memory is open (`Heap`); `strlen` of a text that was not
  printed does not come back.

  Proved:
  - `request_answered_iff`: exactly one reply is sent, and no member used that is missing or of
    another type, exactly when the document says a request in full (`Says`), there is memory
    for the reply, the request's numbers fit the buffers they are printed to, and the files
    it reads can be read (`Served`).
  - `session_one_reply_each`: over any run of requests, as long as the tool goes on and has
    memory for its responses, each gets one reply; on the line (`onLine_one_reply_each`),
    each run of reads that closes a request.
-/

import AmebaLinux.Cmds.CaptouchDevice
import AmebaLinux.Cmds.CaptouchRxBuffer
import AmebaLinux.Lib.CJson

namespace AmebaLinux.Cmds.Captouch.Requests

open Lib.CString
open Lib.CJson (Json Library firstFound)
open Config (ChCfg)
open Buffers (Cfg)
open Device (Driver Shows Within Ends ChFits Fits ChCfgFits reading)

/-! ## Members -/

inductive Kind where
  | number
  | string
  deriving DecidableEq, Repr

/-- A member that is used: what was found for it, and what it is used as. -/
structure Use where
  name : String
  kind : Kind
  found : Option Json

def Use.ok (u : Use) : Bool :=
  match u.kind, u.found with
  | .number, some (.number _) => true
  | .string, some (.string _) => true
  | _, _ => false

/-- A computation that uses members; it has no value where it uses a null pointer. -/
structure Reads (α : Type) where
  used : List Use
  value : Option α

instance : Monad Reads where
  pure a := ⟨[], some a⟩
  bind m f :=
    match m.value with
    | none => ⟨m.used, none⟩
    | some a => ⟨m.used ++ (f a).used, (f a).value⟩

section

variable (lib : Library)

/-- `item_obj->valueint` of a member. -/
def member (root : Json) (name : String) : Reads Int :=
  let found := lib.getObjectItem root (lit name)
  ⟨[⟨name, .number, found⟩], found.map lib.valueint⟩

/-- `type_obj->valuestring`, as `strcmp` reads it. -/
def typeText (item : Json) : Reads (List UInt8) := ⟨[⟨"type", .string, some item⟩], lib.valuestring item⟩

end

/-! ## Requests -/

/-- `cap_start_req_t`. -/
structure StartReq where
  sampInt : UInt16
  channels : Monitor.Channels

/-- What a request asks for. -/
inductive Request where
  | query
  | queryCh (ch : Int)
  | config (cfg : Cfg)
  | configCh (cfg : ChCfg)
  | start (req : StartReq)
  | stop
  | reset
  | tuneMbiasCh (ch : Int)
  | unsupported

/-- The codes `CAP_MSG_ACK` to `CAP_MSG_MBIAS`. -/
inductive Msg where
  | ack
  | error
  | query
  | queryCh
  | cfg
  | chCfg
  | start
  | stop
  | reset
  | mbias
  deriving DecidableEq, Repr

def capCmdTable : List (Msg × String) :=
  [(.ack, "ack"), (.error, "error"), (.query, "query"), (.queryCh, "query_ch"), (.cfg, "config"), (.chCfg, "config_ch"),
    (.start, "start"), (.stop, "stop"), (.reset, "reset"), (.mbias, "tune_mbias_ch")]

/-- The loop over the table; none is `CAP_MSG_INVALID`. -/
def findCmd (txt : List UInt8) : Option Msg := (capCmdTable.find? fun e => txt = lit e.2).map Prod.fst

section

variable (lib : Library)

/-- The members that the cases of the `switch` use. -/
def switchCmd (root : Json) : Option Msg → Reads Request
  | some .query => return .query
  | some .queryCh => do
    let ch ← member lib root "ch"
    return .queryCh ch
  | some .cfg => do
    let scanInt ← member lib root "scan_int"
    let etcStep ← member lib root "step"
    let avgSamp ← member lib root "avg_samp"
    let etcEn ← member lib root "etc_en"
    let etcInt ← member lib root "etc_int"
    let etcFactor ← member lib root "etc_factor"
    let debEn ← member lib root "deb_en"
    let debCnt ← member lib root "deb_cnt"
    return .config { scanInt, avgSamp, etcEn, etcInt, etcStep, etcFactor, debEn, debCnt }
  | some .chCfg => do
    let ch ← member lib root "ch"
    let enable ← member lib root "enable"
    let mbias ← member lib root "mbias"
    let diffTh ← member lib root "diff_th"
    let absTh ← member lib root "abs_th"
    let nnTh ← member lib root "nn_th"
    let pnTh ← member lib root "pn_th"
    return .configCh { ch, enable, mbias, diffTh, absTh, nnTh, pnTh }
  | some .start => do
    let sampInt ← member lib root "samp_int"
    let ch0 ← member lib root "ch0"
    let ch1 ← member lib root "ch1"
    let ch2 ← member lib root "ch2"
    let ch3 ← member lib root "ch3"
    let ch4 ← member lib root "ch4"
    let ch5 ← member lib root "ch5"
    let ch6 ← member lib root "ch6"
    let ch7 ← member lib root "ch7"
    let ch8 ← member lib root "ch8"
    let channels := ![ch0, ch1, ch2, ch3, ch4, ch5, ch6, ch7, ch8]
    -- the fields are narrower than `valueint`
    return .start ⟨.ofInt sampInt, fun ch => .ofInt (channels ch)⟩
  | some .stop => return .stop
  | some .reset => return .reset
  | some .mbias => do
    let ch ← member lib root "ch"
    return .tuneMbiasCh ch
  | _ => return .unsupported

/-- What `cap_rx_process` makes of a document. -/
def decode : Option Json → Reads Request
  | none => return .unsupported
  | some root =>
    match lib.getObjectItem root (lit "type") with
    | none => return .unsupported
    | some item => do
      let txt ← typeText lib item
      switchCmd lib root (findCmd txt)

end

/-! ## Replies -/

inductive Reply where
  | query (busy : Bool) (cfg : Cfg)
  | queryCh (ch : Int) (cfg : ChCfg)
  | tuneMbiasCh (ch mbias baseline : Int)
  | ack
  | error
  deriving DecidableEq, Repr

/-- Whether cJSON gets its memory: for the object of a query's reply, for that of
    `cap_monitor_send_response`, and to print one. -/
structure Heap where
  object : Bool
  response : Bool
  print : Bool
  deriving DecidableEq, Repr

/-- The tool: its files and the state of the monitor. -/
structure Tool where
  files : Device.St
  monitorStop : Bool
  busy : Bool
  deriving DecidableEq, Repr

/-- A call of `captouch_util.c`. -/
def onFiles {α : Type} (c : Device.Cmd α) (s : Tool) : Option (α × Tool) :=
  (c s.files).map fun x => (x.1, { s with files := x.2 })

def mbiasTuneTarget : UInt16 := 3300
def mbiasTuneError : UInt16 := 300

def capMonitorStop (s : Tool) : Tool := if s.monitorStop then s else { s with monitorStop := true, busy := false }

def capMonitorStartDaemon (s : Tool) : Tool := { s with monitorStop := false, busy := true }

section

variable (d : Driver) (fuel : Nat) (heap : Heap) (s : Tool)

/-- `cJSON_Print` and `cap_uart_send_string`. -/
def sendObject (reply : Reply) : Option (List Reply) := if heap.print then some [reply] else none

def capMonitorSendResponse (ret : Int) : Option (List Reply) :=
  if heap.response then sendObject heap (if UInt8.ofInt ret = 0 then .ack else .error) else some []

/-- The queries: `act` fills the reply, and `fail` is returned without an object. -/
def ownReply (fail : Int) (act : Option (Reply × Tool)) : Option (Int × List Reply × Tool) :=
  if heap.object then act.bind fun x => (sendObject heap x.1).map fun replies => (0, replies, x.2)
  else some (fail, [], s)

def capMonitorQuery : Option (Int × List Reply × Tool) :=
  ownReply heap s 1 ((onFiles (Device.ctcGetConfig d) s).map fun x => (.query x.2.busy x.1, x.2))

def capMonitorQueryChannel (ch : Int) : Option (Int × List Reply × Tool) :=
  ownReply heap s (-1) ((onFiles (Device.ctcGetChConfig d ⟨ch, 0, 0, 0, 0, 0, 0⟩) s).map fun x => (.queryCh ch x.1, x.2))

/-- The calls of `cap_moniter_tune_channel_mbias`: the bias, and what `chx_mbias` shows. -/
def tuneChannel (ch : Int) : Device.Cmd (Int × Int) := do
  let cfg ← Device.ctcTuneChMbias d fuel ⟨ch, 0, 0, 0, 0, 0, 0⟩ mbiasTuneTarget mbiasTuneError
  Device.ctcSetCurChx cfg.ch
  let chData ← Device.ctcGetChxMbias d
  return (cfg.mbias, chData)

def capMoniterTuneChannelMbias (ch : Int) : Option (Int × List Reply × Tool) :=
  ownReply heap s (-1) ((onFiles (tuneChannel d fuel ch) s).map fun x => (.tuneMbiasCh ch x.1.1 x.1.2, x.2))

/-- `if (ret != 0)` after a query. -/
def orResponse (r : Option (Int × List Reply × Tool)) : Option (List Reply × Tool) :=
  r.bind fun x =>
    if x.1 ≠ 0 then (capMonitorSendResponse heap x.1).map fun more => (x.2.1 ++ more, x.2.2) else some x.2

/-- The response with `ret`, after a call that returns it. -/
def respond {α : Type} (ret : Int) (after : Option (α × Tool)) : Option (List Reply × Tool) :=
  after.bind fun x => (capMonitorSendResponse heap ret).map fun replies => (replies, x.2)

def perform : Request → Option (List Reply × Tool)
  | .query => orResponse heap (capMonitorQuery d heap s)
  | .queryCh ch => orResponse heap (capMonitorQueryChannel d heap s ch)
  | .config cfg => respond heap 0 (onFiles (Device.ctcSetConfig cfg) s)
  | .configCh cfg => respond heap 0 (onFiles (Device.ctcSetChConfig cfg) s)
  | .start req =>
    (respond heap 0 (onFiles (Device.ctcStart req.channels) s)).map fun x => (x.1, capMonitorStartDaemon x.2)
  | .stop => respond heap 0 (some ((), capMonitorStop s))
  | .reset => respond heap 0 (onFiles Device.ctcResetBaseline s)
  | .tuneMbiasCh ch => orResponse heap (capMoniterTuneChannelMbias d fuel heap s ch)
  | .unsupported => respond heap (-1) (some ((), s))

/-- The members that were used, and the replies; none where it does not come back, and
    then no reply was sent. -/
structure Outcome where
  used : List Use
  result : Option (List Reply × Tool)

def capRxProcess (lib : Library) (doc : Option Json) : Outcome :=
  ⟨(decode lib doc).used, (decode lib doc).value.bind (perform d fuel heap s)⟩

end

/-- One reply, and no member used that is missing or of another type. -/
structure Answered (o : Outcome) : Prop where
  one : ∃ reply s, o.result = some ([reply], s)
  members : ∀ u ∈ o.used, u.ok = true

/-! ## What a document says -/

/-- The type of a request. -/
def Typed (lib : Library) (root : Json) (txt : List UInt8) : Prop :=
  ∃ s, lib.getObjectItem root (lit "type") = some (.string s) ∧ cstr s = txt

/-- A member that is a number. -/
def Number (lib : Library) (root : Json) (name : String) (n : Int) : Prop :=
  ∃ m, lib.getObjectItem root (lit name) = some (.number m) ∧ clamp m = n

/-- A request with all its members. -/
inductive Says (lib : Library) : Option Json → Request → Prop
  | notJson : Says lib none .unsupported
  | untyped {root : Json} : lib.getObjectItem root (lit "type") = none → Says lib (some root) .unsupported
  | unknown {root : Json} {txt : List UInt8} : Typed lib root txt →
      (∀ e ∈ capCmdTable, e.1 ≠ .ack → e.1 ≠ .error → txt ≠ lit e.2) → Says lib (some root) .unsupported
  | query {root : Json} : Typed lib root (lit "query") → Says lib (some root) .query
  | queryCh {root : Json} {ch : Int} : Typed lib root (lit "query_ch") → Number lib root "ch" ch →
    Says lib (some root) (.queryCh ch)
  | config {root : Json} {cfg : Cfg} : Typed lib root (lit "config") →
      Number lib root "scan_int" cfg.scanInt → Number lib root "step" cfg.etcStep → Number lib root "avg_samp" cfg.avgSamp →
      Number lib root "etc_en" cfg.etcEn → Number lib root "etc_int" cfg.etcInt → Number lib root "etc_factor" cfg.etcFactor →
      Number lib root "deb_en" cfg.debEn → Number lib root "deb_cnt" cfg.debCnt → Says lib (some root) (.config cfg)
  | configCh {root : Json} {cfg : ChCfg} : Typed lib root (lit "config_ch") →
      Number lib root "ch" cfg.ch → Number lib root "enable" cfg.enable → Number lib root "mbias" cfg.mbias →
      Number lib root "diff_th" cfg.diffTh → Number lib root "abs_th" cfg.absTh → Number lib root "nn_th" cfg.nnTh →
      Number lib root "pn_th" cfg.pnTh → Says lib (some root) (.configCh cfg)
  | start {root : Json} {sampInt : Int} {channels : Fin 9 → Int} : Typed lib root (lit "start") →
      Number lib root "samp_int" sampInt → Number lib root "ch0" (channels 0) → Number lib root "ch1" (channels 1) →
      Number lib root "ch2" (channels 2) → Number lib root "ch3" (channels 3) → Number lib root "ch4" (channels 4) →
      Number lib root "ch5" (channels 5) → Number lib root "ch6" (channels 6) → Number lib root "ch7" (channels 7) →
      Number lib root "ch8" (channels 8) → Says lib (some root) (.start ⟨.ofInt sampInt, fun ch => .ofInt (channels ch)⟩)
  | stop {root : Json} : Typed lib root (lit "stop") → Says lib (some root) .stop
  | reset {root : Json} : Typed lib root (lit "reset") → Says lib (some root) .reset
  | tuneMbiasCh {root : Json} {ch : Int} : Typed lib root (lit "tune_mbias_ch") → Number lib root "ch" ch →
      Says lib (some root) (.tuneMbiasCh ch)

section

variable {α β : Type}

/-- It has this value, and used members as they should be. -/
def Reads.Clean (m : Reads α) (a : α) : Prop := m.value = some a ∧ ∀ u ∈ m.used, u.ok = true

theorem clean_pure {a b : α} : (pure a : Reads α).Clean b ↔ a = b := by
  simp [pure, Reads.Clean]

theorem clean_bind {m : Reads α} {f : α → Reads β} {b : β} : (m >>= f).Clean b ↔ ∃ a, m.Clean a ∧ (f a).Clean b := by
  obtain ⟨used, value⟩ := m
  cases value with
  | none => simp [bind, Reads.Clean]
  | some a =>
    simp only [bind, Reads.Clean, List.forall_mem_append, Option.some.injEq]
    constructor
    · intro h
      exact ⟨a, ⟨rfl, h.2.1⟩, h.1, h.2.2⟩
    · intro h
      obtain ⟨_, ⟨rfl, hused⟩, hvalue, hrest⟩ := h
      exact ⟨hvalue, hused, hrest⟩

end

section

variable {lib : Library}

theorem clean_member {root : Json} {name : String} {n : Int} : (member lib root name).Clean n ↔ Number lib root name n := by
  unfold Reads.Clean member Number
  cases hfound : lib.getObjectItem root (lit name) with
  | none => simp
  | some item => cases item <;> simp [Use.ok, lib.number_valueint]

theorem clean_typeText {item : Json} {txt : List UInt8} :
    (typeText lib item).Clean txt ↔ ∃ s, item = .string s ∧ cstr s = txt := by
  unfold Reads.Clean typeText
  cases item <;> simp [Use.ok, lib.string_valuestring]

theorem decode_typed {root : Json} {txt : List UInt8} (h : Typed lib root txt) {r : Request} :
    (decode lib (some root)).Clean r ↔ (switchCmd lib root (findCmd txt)).Clean r := by
  obtain ⟨t, hitem, rfl⟩ := h
  simp [decode, hitem, clean_bind, clean_typeText]

def Msg.text : Msg → String
  | .ack => "ack"
  | .error => "error"
  | .query => "query"
  | .queryCh => "query_ch"
  | .cfg => "config"
  | .chCfg => "config_ch"
  | .start => "start"
  | .stop => "stop"
  | .reset => "reset"
  | .mbias => "tune_mbias_ch"

theorem table_text : ∀ e ∈ capCmdTable, e.2 = e.1.text := by decide

theorem findCmd_iff {txt : List UInt8} {c : Msg} : findCmd txt = some c ↔ txt = lit c.text := by
  constructor
  · intro h
    obtain ⟨e, hfind, rfl⟩ := Option.map_eq_some_iff.mp h
    have htext := table_text e (List.mem_of_find?_eq_some hfind)
    rw [← htext]
    simpa using List.find?_some hfind
  · rintro rfl
    cases c <;> decide

theorem mem_table (c : Msg) : (c, c.text) ∈ capCmdTable := by
  cases c <;> decide

theorem decode_named {root : Json} {c : Msg} (h : Typed lib root (lit c.text)) {r : Request} :
    (decode lib (some root)).Clean r ↔ (switchCmd lib root (some c)).Clean r := by
  rw [decode_typed h, findCmd_iff.mpr rfl]

theorem says_of_switch {root : Json} {txt : List UInt8} (htyped : Typed lib root txt) {r : Request}
    (h : (switchCmd lib root (findCmd txt)).Clean r) : Says lib (some root) r := by
  cases hc : findCmd txt with
  | none =>
    rw [hc] at h
    obtain rfl := clean_pure.mp h
    refine .unknown htyped fun e he _ _ heq => ?_
    rw [table_text e he] at heq
    rw [findCmd_iff.mpr heq] at hc
    cases hc
  | some c =>
    have htxt := findCmd_iff.mp hc
    rw [hc] at h
    subst htxt
    cases c with
    | ack =>
      obtain rfl := clean_pure.mp h
      exact .unknown htyped (by decide)
    | error =>
      obtain rfl := clean_pure.mp h
      exact .unknown htyped (by decide)
    | query =>
      obtain rfl := clean_pure.mp h
      exact .query htyped
    | stop =>
      obtain rfl := clean_pure.mp h
      exact .stop htyped
    | reset =>
      obtain rfl := clean_pure.mp h
      exact .reset htyped
    | queryCh =>
      simp only [switchCmd, clean_bind, clean_member, clean_pure] at h
      obtain ⟨ch, hch, rfl⟩ := h
      exact .queryCh htyped hch
    | mbias =>
      simp only [switchCmd, clean_bind, clean_member, clean_pure] at h
      obtain ⟨ch, hch, rfl⟩ := h
      exact .tuneMbiasCh htyped hch
    | cfg =>
      simp only [switchCmd, clean_bind, clean_member, clean_pure] at h
      obtain ⟨_, h1, _, h2, _, h3, _, h4, _, h5, _, h6, _, h7, _, h8, rfl⟩ := h
      exact .config htyped h1 h2 h3 h4 h5 h6 h7 h8
    | chCfg =>
      simp only [switchCmd, clean_bind, clean_member, clean_pure] at h
      obtain ⟨_, h1, _, h2, _, h3, _, h4, _, h5, _, h6, _, h7, rfl⟩ := h
      exact .configCh htyped h1 h2 h3 h4 h5 h6 h7
    | start =>
      simp only [switchCmd, clean_bind, clean_member, clean_pure] at h
      obtain ⟨_, hs, c0, h0, c1, h1, c2, h2, c3, h3, c4, h4, c5, h5, c6, h6, c7, h7, c8, h8, rfl⟩ := h
      exact @Says.start lib root _ ![c0, c1, c2, c3, c4, c5, c6, c7, c8] htyped hs h0 h1 h2 h3 h4 h5 h6 h7 h8

/-- `ack`, `error` and what is not in the table are no commands. -/
theorem switch_unknown {txt : List UInt8} (h : ∀ e ∈ capCmdTable, e.1 ≠ .ack → e.1 ≠ .error → txt ≠ lit e.2) (root : Json) :
    switchCmd lib root (findCmd txt) = pure .unsupported := by
  cases hc : findCmd txt with
  | none => rfl
  | some c =>
    by_cases hack : c = .ack
    · subst hack
      rfl
    · by_cases herror : c = .error
      · subst herror
        rfl
      · exact absurd (findCmd_iff.mp hc) (h (c, c.text) (mem_table c) hack herror)

theorem says_of_clean {doc : Option Json} {r : Request} (h : (decode lib doc).Clean r) : Says lib doc r := by
  cases doc with
  | none =>
    obtain rfl := clean_pure.mp h
    exact .notJson
  | some root =>
    cases hitem : lib.getObjectItem root (lit "type") with
    | none =>
      simp only [decode, hitem, clean_pure] at h
      subst h
      exact .untyped hitem
    | some item =>
      have hread := h
      simp only [decode, hitem, clean_bind, clean_typeText] at hread
      obtain ⟨txt, ⟨t, rfl, ht⟩, -⟩ := hread
      have htyped : Typed lib root txt := ⟨t, hitem, ht⟩
      exact says_of_switch htyped ((decode_typed htyped).mp h)

theorem clean_decode {doc : Option Json} {r : Request} (h : Says lib doc r) : (decode lib doc).Clean r := by
  cases h with
  | notJson => exact clean_pure.mpr rfl
  | untyped hitem => simp [decode, hitem, clean_pure]
  | unknown htyped hother =>
    rw [decode_typed htyped, switch_unknown hother]
    exact clean_pure.mpr rfl
  | query htyped => exact (decode_named (c := .query) htyped).mpr (clean_pure.mpr rfl)
  | stop htyped => exact (decode_named (c := .stop) htyped).mpr (clean_pure.mpr rfl)
  | reset htyped => exact (decode_named (c := .reset) htyped).mpr (clean_pure.mpr rfl)
  | queryCh htyped hch =>
    refine (decode_named (c := .queryCh) htyped).mpr ?_
    simp only [switchCmd, clean_bind, clean_member, clean_pure]
    exact ⟨_, hch, rfl⟩
  | tuneMbiasCh htyped hch =>
    refine (decode_named (c := .mbias) htyped).mpr ?_
    simp only [switchCmd, clean_bind, clean_member, clean_pure]
    exact ⟨_, hch, rfl⟩
  | config htyped h1 h2 h3 h4 h5 h6 h7 h8 =>
    refine (decode_named (c := .cfg) htyped).mpr ?_
    simp only [switchCmd, clean_bind, clean_member, clean_pure]
    exact ⟨_, h1, _, h2, _, h3, _, h4, _, h5, _, h6, _, h7, _, h8, rfl⟩
  | configCh htyped h1 h2 h3 h4 h5 h6 h7 =>
    refine (decode_named (c := .chCfg) htyped).mpr ?_
    simp only [switchCmd, clean_bind, clean_member, clean_pure]
    exact ⟨_, h1, _, h2, _, h3, _, h4, _, h5, _, h6, _, h7, rfl⟩
  | @start root sampInt channels htyped hs h0 h1 h2 h3 h4 h5 h6 h7 h8 =>
    have hall : ![channels 0, channels 1, channels 2, channels 3, channels 4, channels 5, channels 6, channels 7,
        channels 8] = channels := by
      funext ch
      fin_cases ch <;> rfl
    refine (decode_named (c := .start) htyped).mpr ?_
    simp only [switchCmd, clean_bind, clean_member, clean_pure]
    exact ⟨_, hs, _, h0, _, h1, _, h2, _, h3, _, h4, _, h5, _, h6, _, h7, _, h8, by rw [hall]⟩

end

/-! ## What is served -/

section

variable (d : Driver) (heap : Heap)

/-- A query has memory for its reply, or for an error, and its call comes back. -/
def OwnServed (back : Prop) : Prop :=
  heap.print = true ∧ (heap.object = true ∨ heap.response = true) ∧ (heap.object = true → back)

/-- There is memory for the response, and the call comes back. -/
def ResponseServed (back : Prop) : Prop := heap.print = true ∧ heap.response = true ∧ back

/-- The search for a channel's bias comes to an end, from the `n`th read on: the bias that is
    programmed will do, or the readings end the search; then `chx_mbias` is read. -/
def Tunes (n : Nat) (ch : Int) : Prop :=
  ChFits ch ∧ Shows d n Device.tuneFiles ∧
    if Within mbiasTuneTarget mbiasTuneError (reading (d (n + 2) (.chx .chxAveData))) then
      Shows d (n + 3) [(.chx .chxMbias, 4), (.chx .chxMbias, 4)]
    else
      ∃ m, Ends mbiasTuneTarget mbiasTuneError 0 (fun k => d (n + 3 + k) (.chx .chxAveData)) m ∧
        Shows d (n + 3 + m + 1) [(.chx .chxMbias, 4)]

/-- What a request needs of the memory, of its numbers and of the files that are read from
    the `n`th read on. -/
def Served (n : Nat) : Request → Prop
  | .query => OwnServed heap (Shows d n Device.configFiles)
  | .queryCh ch => OwnServed heap (ChFits ch ∧ Shows d n Device.chConfigFiles)
  | .config cfg => ResponseServed heap (Fits cfg)
  | .configCh cfg => ResponseServed heap (ChCfgFits cfg)
  | .tuneMbiasCh ch => OwnServed heap (Tunes d n ch)
  | _ => ResponseServed heap True

variable {d heap} {s : Tool}

theorem onFiles_isSome {α : Type} (c : Device.Cmd α) : (onFiles c s).isSome ↔ (c s.files).isSome := by
  simp [onFiles]

theorem respond_one {α : Type} {ret : Int} {after : Option (α × Tool)} :
    (∃ reply t, respond heap ret after = some ([reply], t)) ↔ ResponseServed heap after.isSome := by
  obtain ⟨object, response, print⟩ := heap
  cases after with
  | none => simp [respond, ResponseServed]
  | some t =>
    cases response <;> cases print <;> simp [respond, capMonitorSendResponse, sendObject, ResponseServed]

theorem ownReply_one {fail : Int} (hfail : fail ≠ 0) {act : Option (Reply × Tool)} :
    (∃ reply t, orResponse heap (ownReply heap s fail act) = some ([reply], t)) ↔ OwnServed heap act.isSome := by
  obtain ⟨object, response, print⟩ := heap
  cases object with
  | false =>
    cases response <;> cases print <;>
      simp [orResponse, ownReply, capMonitorSendResponse, sendObject, OwnServed, hfail]
  | true =>
    cases act with
    | none => simp [orResponse, ownReply, OwnServed]
    | some x => cases print <;> simp [orResponse, ownReply, sendObject, OwnServed]

theorem ownServed_exists {P : Nat → Prop} : (∃ fuel, OwnServed heap (P fuel)) ↔ OwnServed heap (∃ fuel, P fuel) := by
  unfold OwnServed
  cases heap.object with
  | false => simp
  | true => simp

/-- The calls of a channel's tuning come back for some fuel. -/
theorem tuneChannel_isSome_iff (ch : Int) :
    (∃ fuel, (tuneChannel d fuel ch s.files).isSome) ↔ Tunes d s.files.reads ch := by
  have hch : ChFits ch ↔ -10 ^ 0 < ch ∧ ch < 10 ^ (0 + 1) := by
    unfold ChFits
    omega
  have hbyte : ChFits ch → (UInt8.ofInt ch).toNat ≤ 9 := by
    rintro ⟨hlow, hhigh⟩
    have hbias := Device.ofInt_toNat (show Device.IsBias ch from ⟨hlow, hhigh.trans_lt (by decide)⟩)
    omega
  have hrest : ∀ (r : UInt8) (t : Device.St), (((do
      Device.ctcSetCurChx ch
      let chData ← Device.ctcGetChxMbias d
      return ((r.toNat : Int), chData)) : Device.Cmd (Int × Int)) t).isSome ↔
        ChFits ch ∧ Shows d t.reads [(.chx .chxMbias, 4)] := by
    intro r t
    rw [hch, Device.shows_cons]
    refine Device.setNumber_bind.trans (and_congr_right fun _ => ?_)
    exact Device.getNumber_bind (by decide) fun _ _ => iff_of_true rfl Device.shows_nil
  have hrun : ∀ fuel, tuneChannel d fuel ch =
      Device.ctcTuneMbias d fuel (.ofInt ch) mbiasTuneTarget mbiasTuneError >>= fun r => do
        Device.ctcSetCurChx ch
        let chData ← Device.ctcGetChxMbias d
        return ((r.toNat : Int), chData) := by
    intro fuel
    simp only [tuneChannel, Device.ctcTuneChMbias, bind_assoc, pure_bind]
  simp only [hrun]
  rw [@Device.tune_isSome_iff d _ _ _ _ (fun n => ChFits ch ∧ Shows d n [(.chx .chxMbias, 4)]) hrest, Tunes]
  by_cases hwithin : Within mbiasTuneTarget mbiasTuneError (reading (d (s.files.reads + 2) (.chx .chxAveData)))
  · rw [if_pos hwithin, if_pos hwithin]
    constructor
    · intro h
      obtain ⟨-, hfiles, hfirst, hfits, hlast⟩ := h
      exact ⟨hfits, hfiles, Device.shows_cons.mpr ⟨hfirst, hlast⟩⟩
    · intro h
      obtain ⟨hfits, hfiles, hshows⟩ := h
      obtain ⟨hfirst, hlast⟩ := Device.shows_cons.mp hshows
      exact ⟨hbyte hfits, hfiles, hfirst, hfits, hlast⟩
  · rw [if_neg hwithin, if_neg hwithin]
    constructor
    · intro h
      obtain ⟨-, hfiles, m, hends, hfits, hlast⟩ := h
      exact ⟨hfits, hfiles, m, hends, hlast⟩
    · intro h
      obtain ⟨hfits, hfiles, m, hends, hlast⟩ := h
      exact ⟨hbyte hfits, hfiles, m, hends, hfits, hlast⟩

/-- One reply, exactly when the request is served. -/
theorem perform_one {r : Request} :
    (∃ fuel reply t, perform d fuel heap s r = some ([reply], t)) ↔ Served d heap s.files.reads r := by
  cases r with
  | query =>
    simp only [perform, exists_const, Served, ← Device.getConfig_isSome_iff]
    refine (ownReply_one (by decide)).trans ?_
    rw [Option.isSome_map, onFiles_isSome]
  | queryCh ch =>
    simp only [perform, exists_const, Served]
    rw [← Device.getChConfig_isSome_iff d s.files ⟨ch, 0, 0, 0, 0, 0, 0⟩]
    refine (ownReply_one (by decide)).trans ?_
    rw [Option.isSome_map, onFiles_isSome]
  | tuneMbiasCh ch =>
    have hone : ∀ fuel, (∃ reply t, perform d fuel heap s (.tuneMbiasCh ch) = some ([reply], t)) ↔
        OwnServed heap (tuneChannel d fuel ch s.files).isSome := by
      intro fuel
      refine (ownReply_one (by decide)).trans ?_
      rw [Option.isSome_map, onFiles_isSome]
    simp only [hone]
    rw [ownServed_exists, tuneChannel_isSome_iff, Served]
  | config cfg =>
    simp only [perform, exists_const, respond_one, onFiles_isSome, Device.setConfig_isSome_iff, Served]
  | configCh cfg =>
    simp only [perform, exists_const, respond_one, onFiles_isSome, Device.setChConfig_isSome_iff, Served]
  | start req =>
    have hback := Device.start_isSome req.channels s.files
    rw [← onFiles_isSome] at hback
    have hone := @respond_one heap Unit 0 (onFiles (Device.ctcStart req.channels) s)
    simp only [hback] at hone
    simpa [perform, Served] using hone
  | reset =>
    have hback := Device.resetBaseline_isSome s.files
    rw [← onFiles_isSome] at hback
    simp only [perform, exists_const, respond_one, hback, Served]
  | stop => simp [perform, respond_one, Served]
  | unsupported => simp [perform, respond_one, Served]

variable {lib : Library}

theorem answered_iff_served {doc : Option Json} {r : Request} (h : Says lib doc r) :
    (∃ fuel, Answered (capRxProcess d fuel heap s lib doc)) ↔ Served d heap s.files.reads r := by
  obtain ⟨hvalue, hmembers⟩ := clean_decode h
  have hresult : ∀ fuel, (capRxProcess d fuel heap s lib doc).result = perform d fuel heap s r := by
    intro fuel
    rw [capRxProcess, hvalue]
    rfl
  rw [← perform_one]
  refine exists_congr fun fuel => ?_
  rw [← hresult fuel]
  exact ⟨fun ha => ha.one, fun hone => ⟨hone, hmembers⟩⟩

theorem says_of_answered {fuel : Nat} {doc : Option Json} (h : Answered (capRxProcess d fuel heap s lib doc)) :
    ∃ r, Says lib doc r := by
  obtain ⟨⟨reply, t, hone⟩, hmembers⟩ := h
  obtain ⟨r, hvalue, -⟩ := Option.bind_eq_some_iff.mp hone
  exact ⟨r, says_of_clean ⟨hvalue, hmembers⟩⟩

/-- Which requests are answered. -/
theorem request_answered_iff (lib : Library) (d : Driver) (heap : Heap) (s : Tool) (doc : Option Json) :
    (∃ fuel, Answered (capRxProcess d fuel heap s lib doc)) ↔ ∃ r, Says lib doc r ∧ Served d heap s.files.reads r := by
  constructor
  · intro h
    have hanswered := h
    obtain ⟨fuel, h⟩ := h
    obtain ⟨r, hdoc⟩ := says_of_answered h
    exact ⟨r, hdoc, (answered_iff_served hdoc).mp hanswered⟩
  · intro h
    obtain ⟨r, hdoc, hserved⟩ := h
    exact (answered_iff_served hdoc).mpr hserved

end

/-! ## Requests that are not answered -/

def document (members : List (String × Json)) : Option Json := some (.object (members.map fun m => (lit m.1, m.2)))

/-- Every file shows a digit and a newline. -/
def oneDigit : Driver := fun _ _ => .text (lit "1\n")

def started : Tool := ⟨⟨0, []⟩, false, false⟩

/-- A channel query without a channel, a type that is no string, a channel that is no number,
    and a channel of three digits. -/
theorem unchecked_members :
    (¬ ∃ fuel, Answered (capRxProcess oneDigit fuel ⟨true, true, true⟩ started firstFound
        (document [("type", .string (lit "query_ch"))]))) ∧
      (¬ ∃ fuel, Answered (capRxProcess oneDigit fuel ⟨true, true, true⟩ started firstFound
        (document [("type", .number 3)]))) ∧
      (¬ ∃ fuel, Answered (capRxProcess oneDigit fuel ⟨true, true, true⟩ started firstFound
        (document [("type", .string (lit "query_ch")), ("ch", .string (lit "8"))]))) ∧
      ¬ ∃ fuel, Answered (capRxProcess oneDigit fuel ⟨true, true, true⟩ started firstFound
        (document [("type", .string (lit "query_ch")), ("ch", .number 100)])) := by
  have hnone : ∀ {doc : Option Json}, (decode firstFound doc).value.isNone = true →
      ¬ ∃ fuel, Answered (capRxProcess oneDigit fuel ⟨true, true, true⟩ started firstFound doc) := by
    intro doc hvalue h
    obtain ⟨fuel, h⟩ := h
    obtain ⟨reply, t, hone⟩ := h.one
    rw [capRxProcess, Option.isNone_iff_eq_none.mp hvalue] at hone
    cases hone
  refine ⟨hnone (by decide +kernel), hnone (by decide +kernel), ?_, ?_⟩
  · intro h
    obtain ⟨fuel, h⟩ := h
    have hall : (decode firstFound (document [("type", .string (lit "query_ch")), ("ch", .string (lit "8"))])).used.all Use.ok =
        true := List.all_eq_true.mpr h.members
    revert hall
    decide +kernel
  · have hsays : Says firstFound (document [("type", .string (lit "query_ch")), ("ch", .number 100)]) (.queryCh 100) :=
      .queryCh ⟨lit "query_ch", rfl, by decide⟩ ⟨100, rfl, by decide⟩
    rw [answered_iff_served hsays]
    intro h
    exact absurd (h.2.2 rfl).1.2 (by decide)

/-! ## Runs of requests -/

section

variable {lib : Library} {d : Driver} {fuel : Nat} {s : Tool}

/-- One request more, after the replies `x.1`, with the memory there is. -/
def answer (lib : Library) (d : Driver) (fuel : Nat) (x : List Reply × Tool) (input : Heap × Option Json) :
    Option (List Reply × Tool) :=
  (capRxProcess d fuel input.1 x.2 lib input.2).result.map fun y => (x.1 ++ y.1, y.2)

/-- `cap_rx_thread` over the requests. -/
def session (lib : Library) (d : Driver) (fuel : Nat) (s : Tool) (inputs : List (Heap × Option Json)) :
    Option (List Reply × Tool) :=
  inputs.foldlM (answer lib d fuel) ([], s)

section

variable {heap : Heap} (hresponse : heap.response = true) (hprint : heap.print = true)

include hresponse hprint

theorem orResponse_length {fail : Int} (hfail : fail ≠ 0) {act : Option (Reply × Tool)} {x : List Reply × Tool}
    (h : orResponse heap (ownReply heap s fail act) = some x) : x.1.length = 1 := by
  cases hobject : heap.object with
  | false =>
    simp only [orResponse, ownReply, hobject, capMonitorSendResponse, sendObject, hresponse, hprint, if_true] at h
    simp [hfail] at h
    simp [← h]
  | true =>
    cases act with
    | none => simp [orResponse, ownReply, hobject] at h
    | some y =>
      simp [orResponse, ownReply, hobject, sendObject, hprint] at h
      simp [← h]

theorem respond_length {α : Type} {ret : Int} {after : Option (α × Tool)} {x : List Reply × Tool}
    (h : respond heap ret after = some x) : x.1.length = 1 := by
  cases after with
  | none => simp [respond] at h
  | some y =>
    simp [respond, capMonitorSendResponse, sendObject, hresponse, hprint] at h
    simp [← h]

/-- With memory for its response, a request that comes to its end has sent one reply. -/
theorem perform_length {r : Request} {x : List Reply × Tool} (h : perform d fuel heap s r = some x) : x.1.length = 1 := by
  cases r with
  | query => exact orResponse_length hresponse hprint (by decide) h
  | queryCh ch => exact orResponse_length hresponse hprint (by decide) h
  | tuneMbiasCh ch => exact orResponse_length hresponse hprint (by decide) h
  | config cfg => exact respond_length hresponse hprint h
  | configCh cfg => exact respond_length hresponse hprint h
  | start req =>
    obtain ⟨y, hy, rfl⟩ := Option.map_eq_some_iff.mp h
    have hone := respond_length hresponse hprint hy
    exact hone
  | stop => exact respond_length hresponse hprint h
  | reset => exact respond_length hresponse hprint h
  | unsupported => exact respond_length hresponse hprint h

end

theorem answer_adds_one {x y : List Reply × Tool} {input : Heap × Option Json}
    (hmemory : input.1.response = true ∧ input.1.print = true) (h : answer lib d fuel x input = some y) :
    y.1.length = x.1.length + 1 := by
  obtain ⟨z, hresult, rfl⟩ := Option.map_eq_some_iff.mp h
  obtain ⟨r, -, hperform⟩ := Option.bind_eq_some_iff.mp hresult
  rw [List.length_append, perform_length hmemory.1 hmemory.2 hperform]

theorem answers_add {inputs : List (Heap × Option Json)}
    (hmemory : ∀ input ∈ inputs, input.1.response = true ∧ input.1.print = true) {x y : List Reply × Tool}
    (h : inputs.foldlM (answer lib d fuel) x = some y) : y.1.length = x.1.length + inputs.length := by
  induction inputs generalizing x with
  | nil =>
    cases h
    rfl
  | cons input inputs ih =>
    rw [List.foldlM_cons] at h
    obtain ⟨next, hstep, hrest⟩ := Option.bind_eq_some_iff.mp h
    have hfirst := answer_adds_one (hmemory input (by simp)) hstep
    have hlater := ih (fun i hi => hmemory i (by simp [hi])) hrest
    rw [hlater, hfirst, List.length_cons]
    omega

/-- As long as the tool goes on, no reply is lost and none is sent twice. -/
theorem session_one_reply_each {inputs : List (Heap × Option Json)}
    (hmemory : ∀ input ∈ inputs, input.1.response = true ∧ input.1.print = true) {y : List Reply × Tool}
    (h : session lib d fuel s inputs = some y) : y.1.length = inputs.length := by
  simpa using answers_add hmemory h

/-- The tool on its line: the texts that `uart_rx_thread` collects are parsed and processed. -/
def onLine (lib : Library) (d : Driver) (fuel : Nat) (parse : List UInt8 → Option Json) (heap : Heap) (s : Tool)
    (reads : List (List UInt8)) : Option (List Reply × Tool) :=
  (serve reads).bind fun texts => session lib d fuel s (texts.map fun t => (heap, parse t))

theorem length_of_mapM {α β : Type} {f : α → Option β} {xs : List α} {ys : List β} (h : xs.mapM f = some ys) :
    ys.length = xs.length := by
  induction xs generalizing ys with
  | nil =>
    cases h
    rfl
  | cons x xs ih =>
    rw [List.mapM_cons] at h
    obtain ⟨y, -, h⟩ := Option.bind_eq_some_iff.mp h
    obtain ⟨rest, hrest, h⟩ := Option.bind_eq_some_iff.mp h
    cases h
    rw [List.length_cons, List.length_cons, ih hrest]

/-- One reply for each run of reads after which the braces match. -/
theorem onLine_one_reply_each {parse : List UInt8 → Option Json} {heap : Heap} (hresponse : heap.response = true)
    (hprint : heap.print = true) {reads rest : List (List UInt8)} {groups : List (List (List UInt8))}
    (hsome : ∀ c ∈ reads, c ≠ []) (hcut : Cut reads groups rest) {y : List Reply × Tool}
    (h : onLine lib d fuel parse heap s reads = some y) : y.1.length = groups.length := by
  obtain ⟨texts, hserve, hsession⟩ := Option.bind_eq_some_iff.mp h
  have htexts : texts.length = groups.length := by
    have hrun := run_of_cut hsome hcut []
    rw [serve, show Rx.start = .collected [] [] from rfl, hrun] at hserve
    have hlen := length_of_mapM hserve
    simpa [Rx.collected] using hlen
  have hlen := session_one_reply_each (by simp [hresponse, hprint]) hsession
  rw [hlen, List.length_map, htexts]

end

end AmebaLinux.Cmds.Captouch.Requests
