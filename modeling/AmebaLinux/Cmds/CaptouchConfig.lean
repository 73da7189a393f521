/-
  AmebaLinux.Cmds.CaptouchConfig — the configuration of a channel
  (`cmds/captouch/captouch_util.c`: `attr_config`, `ctc_set_cur_chx` to
  `ctc_get_chx_ave_data`, `ctc_set_ch_config`, `ctc_get_ch_config`,
  `ctc_get_ch_rt_data`).

  The driver has one directory of attribute files for all channels: the number in `ch_num`
  says whose values the files hold. A file returns the text that was written to it last for
  that channel. `attr_config` reads as many bytes as a pointer has, four, whatever the size
  of the buffer; a text that leaves no room for a NUL, read or printed, is none.

  `ctc_get_chx_p_noise_th` reads the file of the negative threshold.

  Proved:
  - `chx_elsewhere`: what is done on other channels leaves the files of a channel.
  - `setChConfig_isOperation`: setting a configuration is such an operation on its channel.
  - `config_reads_back_iff`: a configuration that is set is read back, whatever is done on
    other channels in between, exactly when its two noise thresholds are equal
    (`noise_thresholds_differ`).
-/

import AmebaLinux.Cmds.CaptouchTune
import AmebaLinux.Lib.CString
import AmebaLinux.Lib.Machine

namespace AmebaLinux.Cmds.Captouch.Config

open Lib.CString
open Tune (Channel capMaxCh)

/-! ## The files -/

/-- The files of `chx_config` that belong to a channel. -/
inductive Attr where
  | chxEnable
  | chxMbias
  | chxBaseline
  | chxDiffTh
  | chxAbsTh
  | chxNNoiseTh
  | chxPNoiseTh
  | chxAveData
  deriving DecidableEq, Repr

structure Sysfs where
  chNum : List UInt8
  chx : Int → Attr → List UInt8

/-- The channel that the driver takes `ch_num` for. -/
def Sysfs.cur (s : Sysfs) : Int := atoi s.chNum

def Sysfs.write (s : Sysfs) (attr : Attr) (val : List UInt8) : Sysfs :=
  { s with chx := fun ch a => if ch = s.cur ∧ a = attr then val else s.chx ch a }

/-- `sizeof(val)`, of the pointer. -/
def sizeofVal : Nat := 4

/-- The code, over the files; none where it runs past a buffer. -/
abbrev Cmd : Type → Type := StateT Sysfs Option

/-- `sprintf(buf, "%d", n)`. -/
def sprintf (size : Nat) (n : Int) : Cmd (List UInt8) := fun s =>
  if (decInt n).length + 1 ≤ size then some (decInt n, s) else none

/-- `attr_config` with `CAPT_WRITE`. -/
def attrWrite (attr : Attr) (val : List UInt8) : Cmd Unit := fun s => some ((), s.write attr val)

/-- `attr_config` with `CAPT_READ`, into a buffer of zeros. -/
def attrRead (attr : Attr) (size : Nat) : Cmd (List UInt8) := fun s =>
  let text := (s.chx s.cur attr).take sizeofVal
  if text.length + 1 ≤ size then some (text, s) else none

/-! ## The attributes -/

def ctcSetCurChx (ch : Int) : Cmd Unit := do
  let buf ← sprintf 2 ch
  modify fun s => { s with chNum := buf }

/-- The setters that print a number. -/
def setAttr (attr : Attr) (size : Nat) (n : Int) : Cmd Unit := do
  let buf ← sprintf size n
  attrWrite attr buf

def getAttr (attr : Attr) (size : Nat) : Cmd Int := do
  let buf ← attrRead attr size
  return atoi buf

def ctcSetChxEnable (state : Int) : Cmd Unit :=
  if state ≠ 0 then attrWrite .chxEnable (lit "1") else attrWrite .chxEnable (lit "0")

def ctcGetChxEnable : Cmd Int := getAttr .chxEnable 2
def ctcSetChxMbias : Int → Cmd Unit := setAttr .chxMbias 4
def ctcGetChxMbias : Cmd Int := getAttr .chxMbias 4
def ctcGetChxBaseline : Cmd Int := getAttr .chxBaseline 5
def ctcSetChxDiffTh : Int → Cmd Unit := setAttr .chxDiffTh 5
def ctcGetChxDiffTh : Cmd Int := getAttr .chxDiffTh 5
def ctcSetChxAbsTh : Int → Cmd Unit := setAttr .chxAbsTh 5
def ctcGetChxAbsTh : Cmd Int := getAttr .chxAbsTh 5
def ctcSetChxNNoiseTh : Int → Cmd Unit := setAttr .chxNNoiseTh 5
def ctcGetChxNNoiseTh : Cmd Int := getAttr .chxNNoiseTh 5
def ctcSetChxPNoiseTh : Int → Cmd Unit := setAttr .chxPNoiseTh 4
-- The source reads `chx_n_noise_th` here.
def ctcGetChxPNoiseTh : Cmd Int := getAttr .chxNNoiseTh 5
def ctcGetChxAveData : Cmd Int := getAttr .chxAveData 5

/-! ## The configuration -/

/-- `cap_ch_cfg_req_t`. -/
structure ChCfg where
  ch : Int
  enable : Int
  mbias : Int
  diffTh : Int
  absTh : Int
  nnTh : Int
  pnTh : Int
  deriving DecidableEq, Repr

def ctcSetChConfig (cfg : ChCfg) : Cmd Unit := do
  ctcSetCurChx cfg.ch
  ctcSetChxMbias cfg.mbias
  ctcSetChxAbsTh cfg.absTh
  ctcSetChxDiffTh cfg.diffTh
  ctcSetChxPNoiseTh cfg.pnTh
  ctcSetChxNNoiseTh cfg.nnTh
  ctcSetChxEnable cfg.enable

def ctcGetChConfig (cfg : ChCfg) : Cmd ChCfg := do
  ctcSetCurChx cfg.ch
  let mbias ← ctcGetChxMbias
  let enable ← ctcGetChxEnable
  let diffTh ← ctcGetChxDiffTh
  let absTh ← ctcGetChxAbsTh
  let pnTh ← ctcGetChxPNoiseTh
  let nnTh ← ctcGetChxNNoiseTh
  return { cfg with mbias, enable, diffTh, absTh, pnTh, nnTh }

/-- `cap_ch_rt_data_t`. -/
structure ChRtData where
  ch : Int
  rawData : Int
  baseline : Int
  diffData : Int
  cap : Int
  deriving DecidableEq, Repr

def ctcGetChRtData (ch : Int) : Cmd ChRtData := do
  ctcSetCurChx ch
  let rawData ← ctcGetChxAveData
  let baseline ← ctcGetChxBaseline
  return { ch, rawData, baseline, diffData := baseline - rawData, cap := 0 }

/-! ## What is done on a channel -/

def Sysfs.select (s : Sysfs) (ch : Channel) : Sysfs := { s with chNum := decInt ch.val }

def Sysfs.writes (s : Sysfs) (ws : List (Attr × List UInt8)) : Sysfs :=
  ws.foldl (fun s w => s.write w.1 w.2) s

/-- A channel is selected, and texts are written to some of its files. -/
structure Operation where
  on : Channel
  texts : List (Attr × List UInt8)

def Operation.run (op : Operation) (s : Sysfs) : Sysfs := (s.select op.on).writes op.texts

/-- The operations on the channels other than `ch`. -/
abbrev Elsewhere (ch : Int) : Type := { op : Operation // (op.on.val : Int) ≠ ch }

def elsewhere {ch : Int} (s : Sysfs) (ops : List (Elsewhere ch)) : Sysfs :=
  Lib.Machine.run (fun s op => op.val.run s) s ops

theorem cur_select (s : Sysfs) (ch : Channel) : (s.select ch).cur = ch.val := by
  have hch : ch.val < 9 := ch.isLt
  have hread : atoi (decInt ch.val) = ch.val := atoi_decInt (by omega) (by omega)
  rw [Sysfs.cur, Sysfs.select, hread]

theorem chx_writes {s : Sysfs} {ch : Int} (hch : ch ≠ s.cur) (ws : List (Attr × List UInt8)) :
    (s.writes ws).chx ch = s.chx ch := by
  induction ws generalizing s with
  | nil => rfl
  | cons w ws ih =>
    have hfirst : (s.write w.1 w.2).chx ch = s.chx ch := by
      funext attr
      exact if_neg fun h => hch h.1
    have hrest : ((s.write w.1 w.2).writes ws).chx ch = (s.write w.1 w.2).chx ch := ih hch
    exact hrest.trans hfirst

theorem chx_run {op : Operation} {ch : Int} (hch : (op.on.val : Int) ≠ ch) (s : Sysfs) : (op.run s).chx ch = s.chx ch := by
  refine chx_writes ?_ op.texts
  rw [cur_select]
  exact hch.symm

theorem chx_elsewhere {ch : Int} (s : Sysfs) (ops : List (Elsewhere ch)) : (elsewhere s ops).chx ch = s.chx ch := by
  have hkept := Lib.Machine.run_invariant (P := fun t : Sysfs => t.chx ch = s.chx ch)
    (fun t op (ht : t.chx ch = s.chx ch) => (chx_run op.property t).trans ht) rfl ops
  exact hkept

theorem chx_writes_of_not_mem {ws : List (Attr × List UInt8)} {attr : Attr} (hw : attr ∉ ws.map Prod.fst) (s : Sysfs) :
    (s.writes ws).chx s.cur attr = s.chx s.cur attr := by
  induction ws generalizing s with
  | nil => rfl
  | cons w ws ih =>
    rw [List.map_cons, List.mem_cons, not_or] at hw
    exact (ih hw.2 (s.write w.1 w.2)).trans (if_neg fun h => hw.1 h.2)

/-- A file that is written once holds what was written. -/
theorem chx_writes_of_mem {s : Sysfs} {ws : List (Attr × List UInt8)} (honce : (ws.map Prod.fst).Nodup) {attr : Attr}
    {val : List UInt8} (hw : (attr, val) ∈ ws) : (s.writes ws).chx s.cur attr = val := by
  induction ws generalizing s with
  | nil => cases hw
  | cons w ws ih =>
    obtain ⟨hfirst, hrest⟩ := List.nodup_cons.mp honce
    rcases List.mem_cons.mp hw with rfl | hw
    · exact (chx_writes_of_not_mem hfirst (s.write attr val)).trans (if_pos ⟨rfl, rfl⟩)
    · exact ih hrest hw

/-! ## Numbers of a few digits -/

/-- Not negative, and at most `k` digits. -/
def Digits (k : Nat) (n : Int) : Prop := 0 ≤ n ∧ n < 10 ^ k

instance (k : Nat) (n : Int) : Decidable (Digits k n) := inferInstanceAs (Decidable (_ ∧ _))

theorem Digits.length {k : Nat} {n : Int} (h : Digits k n) (hk : 0 < k) : (decInt n).length ≤ k := by
  obtain ⟨hlow, hhigh⟩ := h
  lift n to Nat using hlow
  rw [decInt, if_neg (by omega)]
  refine dec_length hk ?_
  exact_mod_cast hhigh

theorem Digits.atoi {k : Nat} {n : Int} (h : Digits k n) (hk : k ≤ 4) : atoi (decInt n) = n := by
  obtain ⟨hlow, hhigh⟩ := h
  have hpow : (10 : Int) ^ k ≤ 10 ^ 4 := pow_le_pow_right₀ (by decide) hk
  exact atoi_decInt (by omega) (by omega)

section

variable {s : Sysfs} {n : Int} {k size : Nat}

theorem bind_run {α β : Type} {a : Cmd α} {b : α → Cmd β} {s t : Sysfs} {x : α} (h : a s = some (x, t)) :
    (a >>= b) s = b x t := by
  simp [bind, StateT.bind, h]

theorem sprintf_digits (h : Digits k n) (hk : 0 < k) (hsize : k + 1 ≤ size) : sprintf size n s = some (decInt n, s) :=
  if_pos ((Nat.succ_le_succ (h.length hk)).trans hsize)

theorem setAttr_digits {attr : Attr} (h : Digits k n) (hk : 0 < k) (hsize : k + 1 ≤ size) :
    setAttr attr size n s = some ((), s.write attr (decInt n)) :=
  bind_run (sprintf_digits h hk hsize)

theorem getAttr_digits {attr : Attr} (htext : s.chx s.cur attr = decInt n) (h : Digits k n) (hk : 0 < k) (hval : k ≤ sizeofVal)
    (hsize : k + 1 ≤ size) : getAttr attr size s = some (n, s) := by
  have hlength := h.length hk
  have hread : attrRead attr size s = some (decInt n, s) := by
    rw [attrRead, htext, List.take_of_length_le (hlength.trans hval)]
    exact if_pos ((Nat.succ_le_succ hlength).trans hsize)
  rw [getAttr, bind_run hread, h.atoi hval]
  rfl

theorem setCurChx_channel (ch : Channel) : ctcSetCurChx ch.val s = some ((), s.select ch) := by
  have hch : ch.val < 9 := ch.isLt
  exact bind_run (sprintf_digits (k := 1) ⟨by omega, by omega⟩ (by decide) (by decide))

theorem setChxEnable_bit (h : n = 0 ∨ n = 1) : ctcSetChxEnable n s = some ((), s.write .chxEnable (decInt n)) := by
  rcases h with rfl | rfl
  · rfl
  · rfl

end

/-! ## A configuration that is set -/

/-- A channel the device has, `enable` a bit, and the other fields of three digits at most. -/
structure Small (cfg : ChCfg) : Prop where
  ch : 0 ≤ cfg.ch ∧ cfg.ch < capMaxCh
  enable : cfg.enable = 0 ∨ cfg.enable = 1
  mbias : Digits 3 cfg.mbias
  diffTh : Digits 3 cfg.diffTh
  absTh : Digits 3 cfg.absTh
  nnTh : Digits 3 cfg.nnTh
  pnTh : Digits 3 cfg.pnTh

def configTexts (cfg : ChCfg) : List (Attr × List UInt8) :=
  [(.chxMbias, decInt cfg.mbias), (.chxAbsTh, decInt cfg.absTh), (.chxDiffTh, decInt cfg.diffTh),
    (.chxPNoiseTh, decInt cfg.pnTh), (.chxNNoiseTh, decInt cfg.nnTh), (.chxEnable, decInt cfg.enable)]

theorem configTexts_once (cfg : ChCfg) : ((configTexts cfg).map Prod.fst).Nodup := by
  simp [configTexts]

theorem Small.channel {cfg : ChCfg} (h : Small cfg) : ∃ ch : Channel, cfg.ch = ch.val := by
  obtain ⟨hlow, hhigh⟩ := h.ch
  exact ⟨⟨cfg.ch.toNat, by omega⟩, by simp [hlow]⟩

theorem setChConfig_isOperation {cfg : ChCfg} (h : Small cfg) {ch : Channel} (hch : cfg.ch = ch.val) (s : Sysfs) :
    ctcSetChConfig cfg s = some ((), Operation.run ⟨ch, configTexts cfg⟩ s) := by
  rw [ctcSetChConfig, hch]
  refine Eq.trans (bind_run (setCurChx_channel ch)) ?_
  refine Eq.trans (bind_run (setAttr_digits h.mbias (by decide) (by decide))) ?_
  refine Eq.trans (bind_run (setAttr_digits h.absTh (by decide) (by decide))) ?_
  refine Eq.trans (bind_run (setAttr_digits h.diffTh (by decide) (by decide))) ?_
  refine Eq.trans (bind_run (setAttr_digits h.pnTh (by decide) (by decide))) ?_
  refine Eq.trans (bind_run (setAttr_digits h.nnTh (by decide) (by decide))) ?_
  exact setChxEnable_bit h.enable

/-- Both thresholds come from the file of the negative one. -/
theorem getChConfig_of_files {cfg req : ChCfg} (h : Small cfg) {ch : Channel} (hch : req.ch = ch.val) {s : Sysfs}
    (hfiles : ∀ attr val, (attr, val) ∈ configTexts cfg → s.chx req.ch attr = val) :
    ctcGetChConfig req s = some ({ cfg with ch := req.ch, pnTh := cfg.nnTh }, s.select ch) := by
  have hfile : ∀ attr n, (attr, decInt n) ∈ configTexts cfg → (s.select ch).chx (s.select ch).cur attr = decInt n := by
    intro attr n hw
    rw [cur_select, ← hch]
    exact hfiles attr _ hw
  have henable : Digits 1 cfg.enable := by
    rcases h.enable with he | he
    · rw [he]
      decide
    · rw [he]
      decide
  have hmbias := hfile .chxMbias cfg.mbias (by simp [configTexts])
  have hbit := hfile .chxEnable cfg.enable (by simp [configTexts])
  have hdiff := hfile .chxDiffTh cfg.diffTh (by simp [configTexts])
  have habs := hfile .chxAbsTh cfg.absTh (by simp [configTexts])
  have hnoise := hfile .chxNNoiseTh cfg.nnTh (by simp [configTexts])
  have hsel : ctcSetCurChx req.ch s = some ((), s.select ch) := by
    rw [hch]
    exact setCurChx_channel ch
  refine Eq.trans (bind_run hsel) ?_
  refine Eq.trans (bind_run (getAttr_digits hmbias h.mbias (by decide) (by decide) (by decide))) ?_
  refine Eq.trans (bind_run (getAttr_digits hbit henable (by decide) (by decide) (by decide))) ?_
  refine Eq.trans (bind_run (getAttr_digits hdiff h.diffTh (by decide) (by decide) (by decide))) ?_
  refine Eq.trans (bind_run (getAttr_digits habs h.absTh (by decide) (by decide) (by decide))) ?_
  refine Eq.trans (bind_run (getAttr_digits hnoise h.nnTh (by decide) (by decide) (by decide))) ?_
  refine Eq.trans (bind_run (getAttr_digits hnoise h.nnTh (by decide) (by decide) (by decide))) ?_
  rfl

/-! ## Reading back -/

/-- `cfg` is set, other channels are used, and `req`, for the same channel, is filled. -/
def readBack (cfg req : ChCfg) (s : Sysfs) (ops : List (Elsewhere cfg.ch)) : Option ChCfg := do
  let (_, s) ← ctcSetChConfig cfg s
  let (got, _) ← ctcGetChConfig { req with ch := cfg.ch } (elsewhere s ops)
  return got

theorem readBack_eq {cfg : ChCfg} (h : Small cfg) (req : ChCfg) (s : Sysfs) (ops : List (Elsewhere cfg.ch)) :
    readBack cfg req s ops = some { cfg with pnTh := cfg.nnTh } := by
  obtain ⟨ch, hch⟩ := h.channel
  have hset := setChConfig_isOperation h hch s
  have hfiles : ∀ attr val, (attr, val) ∈ configTexts cfg →
      (elsewhere (Operation.run ⟨ch, configTexts cfg⟩ s) ops).chx cfg.ch attr = val := by
    intro attr val hw
    have hwritten := chx_writes_of_mem (s := s.select ch) (configTexts_once cfg) hw
    rw [cur_select, ← hch] at hwritten
    rw [chx_elsewhere]
    exact hwritten
  have hget : ctcGetChConfig { req with ch := cfg.ch } (elsewhere (Operation.run ⟨ch, configTexts cfg⟩ s) ops) = _ :=
    getChConfig_of_files h hch hfiles
  rw [readBack, hset]
  dsimp only [Option.bind_eq_bind, Option.bind_some]
  rw [hget]
  rfl

theorem config_reads_back_iff (cfg req : ChCfg) (h : Small cfg) (s : Sysfs) (ops : List (Elsewhere cfg.ch)) :
    readBack cfg req s ops = some cfg ↔ cfg.pnTh = cfg.nnTh := by
  rw [readBack_eq h req s ops, Option.some.injEq]
  constructor
  · intro heq
    exact (congrArg ChCfg.pnTh heq).symm
  · intro heq
    cases cfg
    dsimp only at heq
    subst heq
    rfl

def blank : Sysfs := ⟨[], fun _ _ => []⟩

/-- Channel 1, that is not channel 0, is switched off. -/
def offOne : Elsewhere 0 := ⟨⟨1, [(.chxEnable, lit "0")]⟩, by decide⟩

def quiet : ChCfg where
  ch := 0
  enable := 1
  mbias := 12
  diffTh := 80
  absTh := 800
  nnTh := 40
  pnTh := 40

theorem quiet_small : Small quiet where
  ch := by decide
  enable := by decide
  mbias := by decide
  diffTh := by decide
  absTh := by decide
  nnTh := by decide
  pnTh := by decide

theorem equal_thresholds_read_back : Small quiet ∧ readBack quiet quiet blank [offOne] = some quiet :=
  ⟨quiet_small, (config_reads_back_iff quiet quiet quiet_small blank [offOne]).mpr rfl⟩

/-- 60 is set for the positive threshold, and the 40 of the negative one is read. -/
theorem noise_thresholds_differ :
    Small { quiet with pnTh := 60 } ∧ readBack { quiet with pnTh := 60 } quiet blank [offOne] = some quiet ∧
      readBack { quiet with pnTh := 60 } quiet blank [offOne] ≠ some { quiet with pnTh := 60 } := by
  have hsmall : Small { quiet with pnTh := 60 } := { quiet_small with pnTh := by decide }
  have hread : readBack { quiet with pnTh := 60 } quiet blank [offOne] = some quiet := readBack_eq hsmall quiet blank [offOne]
  refine ⟨hsmall, hread, ?_⟩
  rw [hread]
  decide

end AmebaLinux.Cmds.Captouch.Config
