/-
  AmebaLinux.Cmds.CaptouchDevice — the calls of `cmds/captouch/captouch_util.c` that the
  requests make (`attr_config`, `ctc_set_ctc_enable` to `ctc_get_chx_ave_data`,
  `ctc_tune_mbias`, `ctc_tune_ch_mbias`, `ctc_start`, `ctc_set_config` to
  `ctc_get_ch_config`, `ctc_reset_baseline`), over whatever the driver shows.

  A `Driver` says what a file shows at each read, the reads being counted over all files, so
  it may depend on what was written and on time. A file that cannot be opened leaves the
  buffer with its zeros; one that cannot be read ends the tool. `attr_config` reads as many
  bytes as a pointer has, whatever the size of the buffer, and `atoi` reads on until a
  number ends. A call that ends the tool or leaves a buffer has no result. Nobody looks at
  how a write ends. `ctc_tune_mbias` has no bound of its own: `fuel` counts its turns.

  Proved, for any driver, when each call comes back:
  - `setConfig_isSome_iff`, `setChConfig_isSome_iff`: the numbers are in the ranges that
    their buffers hold.
  - `getConfig_isSome_iff`, `getChConfig_isSome_iff`: the files can be read, and a text that
    fills its buffer has a number that ends in it.
  - `tune_isSome_iff`: some reading is near the target, or the readings below it and above
    it have led out of the biases (`Ends`).
  - `getChConfig_agrees`: over files that keep their texts, the channel's values are those of
    `AmebaLinux.Cmds.CaptouchConfig`.
-/

import AmebaLinux.Cmds.CaptouchBuffers
import AmebaLinux.Cmds.CaptouchMonitor

namespace AmebaLinux.Cmds.Captouch.Device

open Lib.CString
open Tune (capMaxCh mbiasMaxValue)
open Config (Attr ChCfg sizeofVal)
open Buffers (Cfg Common)
open Monitor (Channels)

/-! ## The files -/

inductive File where
  | ctcEnable
  | chNum
  | common (file : Common)
  | chx (attr : Attr)
  deriving DecidableEq, Repr

/-- What a file is to `open` and `read`. -/
inductive Shown where
  | missing
  | unreadable
  | text (t : List UInt8)
  deriving DecidableEq, Repr

/-- What each read of all would get of a file. -/
abbrev Driver : Type := Nat → File → Shown

structure St where
  reads : Nat
  written : List (File × List UInt8)
  deriving DecidableEq, Repr

/-- The code; none where it ends the tool or leaves a buffer. -/
abbrev Cmd : Type → Type := StateT St Option

/-- `sprintf(buf, "%d", n)`. -/
def sprintf (size : Nat) (n : Int) : Cmd (List UInt8) := fun s =>
  if (decInt n).length + 1 ≤ size then some (decInt n, s) else none

/-- `attr_config` with `CAPT_WRITE`. -/
def attrWrite (file : File) (val : List UInt8) : Cmd Unit := fun s =>
  some ((), { s with written := s.written ++ [(file, val)] })

/-- The buffer of zeros after a read. -/
def buffer (size : Nat) : Shown → Option (List UInt8)
  | .missing => some (List.replicate size 0)
  | .unreadable => none
  | .text t =>
    let stored := t.take sizeofVal
    if stored.length ≤ size then some (stored ++ List.replicate (size - stored.length) 0) else none

/-- `attr_config` with `CAPT_READ`. -/
def attrRead (d : Driver) (file : File) (size : Nat) : Cmd (List UInt8) := fun s =>
  (buffer size (d s.reads file)).map fun buf => (buf, { s with reads := s.reads + 1 })

/-! ## The attributes -/

/-- The setters that print a number. -/
def setNumber (file : File) (size : Nat) (n : Int) : Cmd Unit := do
  let buf ← sprintf size n
  attrWrite file buf

/-- The setters of a state. -/
def setState (file : File) (state : Int) : Cmd Unit :=
  if state ≠ 0 then attrWrite file (lit "1") else attrWrite file (lit "0")

def getNumber (d : Driver) (file : File) (size : Nat) : Cmd Int := do
  let buf ← attrRead d file size
  StateT.lift (atoiAt buf)

def ctcSetCtcEnable : Int → Cmd Unit := setState .ctcEnable
def ctcSetDebounceEnable : Int → Cmd Unit := setState (.common .debounceEn)
def ctcSetDebounceTimes : Int → Cmd Unit := setNumber (.common .debounceTimes) 2
def ctcSetScanInterval : Int → Cmd Unit := setNumber (.common .scanInterval) 5
def ctcSetSampleNum : Int → Cmd Unit := setNumber (.common .sampleNum) 2
def ctcSetEtcEnable : Int → Cmd Unit := setState (.common .etcEnable)
def ctcSetEtcInterval : Int → Cmd Unit := setNumber (.common .etcInterval) 4
def ctcSetEtcFactor : Int → Cmd Unit := setNumber (.common .etcFactor) 2
def ctcSetEtcStep : Int → Cmd Unit := setNumber (.common .etcStep) 2
def ctcSetCurChx : Int → Cmd Unit := setNumber .chNum 2
def ctcSetChxEnable : Int → Cmd Unit := setState (.chx .chxEnable)
def ctcSetChxMbias : Int → Cmd Unit := setNumber (.chx .chxMbias) 4
def ctcSetChxDiffTh : Int → Cmd Unit := setNumber (.chx .chxDiffTh) 5
def ctcSetChxAbsTh : Int → Cmd Unit := setNumber (.chx .chxAbsTh) 5
def ctcSetChxNNoiseTh : Int → Cmd Unit := setNumber (.chx .chxNNoiseTh) 5
def ctcSetChxPNoiseTh : Int → Cmd Unit := setNumber (.chx .chxPNoiseTh) 4

section

variable (d : Driver)

def ctcGetDebounceEnable : Cmd Int := getNumber d (.common .debounceEn) 2
def ctcGetDebounceTimes : Cmd Int := getNumber d (.common .debounceTimes) 2
def ctcGetScanInterval : Cmd Int := getNumber d (.common .scanInterval) 5
def ctcGetSampleNum : Cmd Int := getNumber d (.common .sampleNum) 2
def ctcGetEtcEnable : Cmd Int := getNumber d (.common .etcEnable) 4
def ctcGetEtcInterval : Cmd Int := getNumber d (.common .etcInterval) 4
def ctcGetEtcFactor : Cmd Int := getNumber d (.common .etcFactor) 2
def ctcGetEtcStep : Cmd Int := getNumber d (.common .etcStep) 2
def ctcGetChxEnable : Cmd Int := getNumber d (.chx .chxEnable) 2
def ctcGetChxMbias : Cmd Int := getNumber d (.chx .chxMbias) 4
def ctcGetChxDiffTh : Cmd Int := getNumber d (.chx .chxDiffTh) 5
def ctcGetChxAbsTh : Cmd Int := getNumber d (.chx .chxAbsTh) 5
def ctcGetChxNNoiseTh : Cmd Int := getNumber d (.chx .chxNNoiseTh) 5
-- The source reads `chx_n_noise_th` here.
def ctcGetChxPNoiseTh : Cmd Int := getNumber d (.chx .chxNNoiseTh) 5
def ctcGetChxAveData : Cmd Int := getNumber d (.chx .chxAveData) 5

end

/-! ## The calls -/

def ctcSetConfig (cfg : Cfg) : Cmd Unit := do
  ctcSetScanInterval cfg.scanInt
  ctcSetSampleNum cfg.avgSamp
  ctcSetDebounceTimes cfg.debCnt
  ctcSetDebounceEnable cfg.debEn
  ctcSetEtcEnable cfg.etcEn
  ctcSetEtcInterval cfg.etcInt
  ctcSetEtcFactor cfg.etcFactor
  ctcSetEtcStep cfg.etcStep

def ctcSetChConfig (cfg : ChCfg) : Cmd Unit := do
  ctcSetCurChx cfg.ch
  ctcSetChxMbias cfg.mbias
  ctcSetChxAbsTh cfg.absTh
  ctcSetChxDiffTh cfg.diffTh
  ctcSetChxPNoiseTh cfg.pnTh
  ctcSetChxNNoiseTh cfg.nnTh
  ctcSetChxEnable cfg.enable

/-- A turn of the loop of `ctc_start`. -/
def startChx (channels : Channels) (ch : Fin capMaxCh) : Cmd Unit := do
  ctcSetCurChx ch.val
  ctcSetChxEnable (if channels ch ≠ 0 then 1 else 0)

def ctcStart (channels : Channels) : Cmd Unit := do
  (List.finRange capMaxCh).forM (startChx channels)
  ctcSetCtcEnable 1

def ctcResetBaseline : Cmd Unit := do
  ctcSetCtcEnable 0
  ctcSetCtcEnable 1

section

variable (d : Driver)

def ctcGetConfig : Cmd Cfg := do
  let scanInt ← ctcGetScanInterval d
  let avgSamp ← ctcGetSampleNum d
  let etcEn ← ctcGetEtcEnable d
  let etcInt ← ctcGetEtcInterval d
  let etcStep ← ctcGetEtcStep d
  let etcFactor ← ctcGetEtcFactor d
  let debCnt ← ctcGetDebounceTimes d
  let debEn ← ctcGetDebounceEnable d
  return { scanInt, avgSamp, etcEn, etcInt, etcStep, etcFactor, debEn, debCnt }

def ctcGetChConfig (cfg : ChCfg) : Cmd ChCfg := do
  ctcSetCurChx cfg.ch
  let mbias ← ctcGetChxMbias d
  let enable ← ctcGetChxEnable d
  let diffTh ← ctcGetChxDiffTh d
  let absTh ← ctcGetChxAbsTh d
  let pnTh ← ctcGetChxPNoiseTh d
  let nnTh ← ctcGetChxNNoiseTh d
  return { cfg with mbias, enable, diffTh, absTh, pnTh, nnTh }

/-- The loop of `ctc_tune_mbias`. -/
def tuneLoop (target error : UInt16) : Nat → UInt8 → Cmd UInt8
  | 0, _ => fun _ => none
  | fuel + 1, mbias =>
    if mbias.toNat < mbiasMaxValue then do
      ctcSetChxMbias mbias.toNat
      let ave ← ctcGetChxAveData d
      let chData := UInt32.ofInt ave
      if chData > target.toUInt32 then
        if chData - target.toUInt32 < error.toUInt32 then return mbias else tuneLoop target error fuel (mbias - 1)
      else
        if target.toUInt32 - chData < error.toUInt32 then return mbias else tuneLoop target error fuel (mbias + 1)
    else return mbias

/-- `scan_period` and `etc_interval` only say how long a turn takes. -/
def ctcTuneMbias (fuel : Nat) (channel : UInt8) (target error : UInt16) : Cmd UInt8 := do
  ctcSetCurChx channel.toNat
  ctcSetChxEnable 1
  let _ ← ctcGetScanInterval d
  let _ ← ctcGetEtcInterval d
  let chData ← ctcGetChxAveData d
  if (target.toUInt32 - UInt32.ofInt chData).toInt32.toInt.natAbs > error.toNat then tuneLoop d target error fuel 0
  else do
    let mbias ← ctcGetChxMbias d
    return .ofInt mbias

def ctcTuneChMbias (fuel : Nat) (cfg : ChCfg) (target error : UInt16) : Cmd ChCfg := do
  let mbias ← ctcTuneMbias d fuel (.ofInt cfg.ch) target error
  return { cfg with mbias := mbias.toNat }

end

/-! ## Reading -/

/-- The bytes that are stored leave room for a NUL, or fill the buffer with a number that
    ends in it. -/
def Readable (size : Nat) : Shown → Prop
  | .missing => True
  | .unreadable => False
  | .text t => (t.take sizeofVal).length < size ∨ (t.take sizeofVal).length = size ∧ behindNumber (t.take sizeofVal) ≠ []

instance (size : Nat) : DecidablePred (Readable size)
  | .missing => inferInstanceAs (Decidable True)
  | .unreadable => inferInstanceAs (Decidable False)
  | .text _ => inferInstanceAs (Decidable (_ ∨ _))

/-- The files show this one after the other, from the `n`th read on. -/
def Shows (d : Driver) (n : Nat) (files : List (File × Nat)) : Prop := ∀ x ∈ files.zipIdx n, Readable x.1.2 (d x.2 x.1.1)

section

variable {d : Driver} {n size : Nat} {file : File} {s : St}

theorem shows_nil : Shows d n [] := by
  intro x hx
  cases hx

theorem shows_cons {files : List (File × Nat)} :
    Shows d n ((file, size) :: files) ↔ Readable size (d n file) ∧ Shows d (n + 1) files := by
  simp only [Shows, List.zipIdx_cons, List.forall_mem_cons]

/-- What a getter makes of what is shown. -/
def number (size : Nat) (shown : Shown) : Option Int := (buffer size shown).bind atoiAt

theorem number_isSome_iff {shown : Shown} (hsize : 0 < size) : (number size shown).isSome ↔ Readable size shown := by
  cases shown with
  | missing =>
    obtain ⟨k, rfl⟩ := Nat.exists_eq_add_of_lt hsize
    have hend := atoiAt_terminated [] (List.replicate (0 + k) 0)
    rw [List.nil_append, ← List.replicate_succ] at hend
    rw [number, buffer, Option.bind_some, hend]
    exact iff_of_true rfl trivial
  | unreadable => exact iff_of_false nofun id
  | text t =>
    rw [number, buffer, Readable]
    rcases lt_trichotomy (t.take sizeofVal).length size with hlt | heq | hgt
    · obtain ⟨k, hk⟩ := Nat.exists_eq_add_of_lt hlt
      have hrest : size - (t.take sizeofVal).length = k + 1 := by omega
      rw [if_pos hlt.le, Option.bind_some, hrest, List.replicate_succ, atoiAt_terminated]
      exact iff_of_true rfl (.inl hlt)
    · rw [if_pos heq.le, Option.bind_some, heq, Nat.sub_self, List.replicate_zero, List.append_nil, atoiAt]
      by_cases hend : behindNumber (t.take sizeofVal) = []
      · simp [hend]
      · simp [hend]
    · rw [if_neg (not_le.mpr hgt)]
      exact iff_of_false nofun (by omega)

theorem getNumber_run : getNumber d file size s =
    (number size (d s.reads file)).map fun n => (n, { s with reads := s.reads + 1 }) := by
  cases hbuf : buffer size (d s.reads file) with
  | none => simp [getNumber, attrRead, number, bind, StateT.bind, hbuf]
  | some buf =>
    cases hend : atoiAt buf with
    | none => simp [getNumber, attrRead, number, bind, StateT.bind, StateT.lift, hbuf, hend]
    | some m => simp [getNumber, attrRead, number, bind, StateT.bind, StateT.lift, hbuf, hend]

theorem getNumber_bind {α : Type} {rest : Int → Cmd α} {P : Prop} (hsize : 0 < size)
    (h : ∀ n, number size (d s.reads file) = some n → ((rest n { s with reads := s.reads + 1 }).isSome ↔ P)) :
    ((getNumber d file size >>= rest) s).isSome ↔ Readable size (d s.reads file) ∧ P := by
  rw [← number_isSome_iff hsize]
  cases hnumber : number size (d s.reads file) with
  | none => simp [bind, StateT.bind, getNumber_run, hnumber]
  | some m => simp [bind, StateT.bind, getNumber_run, hnumber, h m hnumber]

end

/-! ## Writing -/

section

variable {k : Nat} {file : File} {s : St} {α : Type}

theorem setNumber_run (file : File) (k : Nat) (n : Int) (s : St) :
    setNumber file (k + 2) n s =
      if -10 ^ k < n ∧ n < 10 ^ (k + 1) then some ((), { s with written := s.written ++ [(file, decInt n)] }) else none := by
  rw [setNumber]
  by_cases hfits : -10 ^ k < n ∧ n < 10 ^ (k + 1)
  · have hrun : sprintf (k + 2) n s = some (decInt n, s) := if_pos ((Buffers.sprintf_fits k n).mpr hfits)
    simp [attrWrite, bind, StateT.bind, hrun, hfits]
  · have hrun : sprintf (k + 2) n s = none := if_neg fun h => hfits ((Buffers.sprintf_fits k n).mp h)
    simp [bind, StateT.bind, hrun, hfits]

theorem setNumber_isSome {n : Int} : (setNumber file (k + 2) n s).isSome ↔ -10 ^ k < n ∧ n < 10 ^ (k + 1) := by
  rw [setNumber_run]
  split <;> simp [*]

theorem setNumber_bind {n : Int} {rest : Cmd α} :
    ((setNumber file (k + 2) n >>= fun _ => rest) s).isSome ↔
      (-10 ^ k < n ∧ n < 10 ^ (k + 1)) ∧ (rest { s with written := s.written ++ [(file, decInt n)] }).isSome := by
  by_cases hfits : -10 ^ k < n ∧ n < 10 ^ (k + 1)
  · simp [bind, StateT.bind, setNumber_run, hfits]
  · simp [bind, StateT.bind, setNumber_run, hfits]

theorem setState_run (file : File) (state : Int) (s : St) :
    setState file state s = some ((), { s with written := s.written ++ [(file, lit (if state ≠ 0 then "1" else "0"))] }) := by
  unfold setState
  split
  · rfl
  · rfl

theorem setState_isSome (file : File) (state : Int) (s : St) : (setState file state s).isSome := by
  rw [setState_run]
  rfl

theorem setState_bind {state : Int} {rest : Cmd α} :
    ((setState file state >>= fun _ => rest) s).isSome ↔
      (rest { s with written := s.written ++ [(file, lit (if state ≠ 0 then "1" else "0"))] }).isSome := by
  simp [bind, StateT.bind, setState_run]

end

/-! ## Configurations -/

/-- The numbers that the buffers of `ctc_set_config` hold. -/
structure Fits (cfg : Cfg) : Prop where
  scanInt : -999 ≤ cfg.scanInt ∧ cfg.scanInt ≤ 9999
  avgSamp : 0 ≤ cfg.avgSamp ∧ cfg.avgSamp ≤ 9
  debCnt : 0 ≤ cfg.debCnt ∧ cfg.debCnt ≤ 9
  etcInt : -99 ≤ cfg.etcInt ∧ cfg.etcInt ≤ 999
  etcFactor : 0 ≤ cfg.etcFactor ∧ cfg.etcFactor ≤ 9
  etcStep : 0 ≤ cfg.etcStep ∧ cfg.etcStep ≤ 9

/-- One digit, for the channel. -/
def ChFits (ch : Int) : Prop := 0 ≤ ch ∧ ch ≤ 9

/-- The numbers that the buffers of `ctc_set_ch_config` hold. -/
structure ChCfgFits (cfg : ChCfg) : Prop where
  ch : ChFits cfg.ch
  mbias : -99 ≤ cfg.mbias ∧ cfg.mbias ≤ 999
  absTh : -999 ≤ cfg.absTh ∧ cfg.absTh ≤ 9999
  diffTh : -999 ≤ cfg.diffTh ∧ cfg.diffTh ≤ 9999
  pnTh : -99 ≤ cfg.pnTh ∧ cfg.pnTh ≤ 999
  nnTh : -999 ≤ cfg.nnTh ∧ cfg.nnTh ≤ 9999

theorem setConfig_isSome_iff (cfg : Cfg) (s : St) : (ctcSetConfig cfg s).isSome ↔ Fits cfg := by
  simp only [ctcSetConfig, ctcSetScanInterval, ctcSetSampleNum, ctcSetDebounceTimes, ctcSetDebounceEnable, ctcSetEtcEnable,
    ctcSetEtcInterval, ctcSetEtcFactor, ctcSetEtcStep, setNumber_bind, setNumber_isSome, setState_bind]
  constructor
  · intro h
    refine ⟨?_, ?_, ?_, ?_, ?_, ?_⟩ <;> omega
  · intro h
    obtain ⟨_, _, _, _, _, _⟩ := h
    omega

theorem setChConfig_isSome_iff (cfg : ChCfg) (s : St) : (ctcSetChConfig cfg s).isSome ↔ ChCfgFits cfg := by
  simp only [ctcSetChConfig, ctcSetCurChx, ctcSetChxMbias, ctcSetChxAbsTh, ctcSetChxDiffTh, ctcSetChxPNoiseTh,
    ctcSetChxNNoiseTh, ctcSetChxEnable, setNumber_bind, setState_isSome, and_true]
  constructor
  · intro h
    refine ⟨⟨?_, ?_⟩, ?_, ?_, ?_, ?_, ?_⟩ <;> omega
  · intro h
    obtain ⟨⟨_, _⟩, _, _, _, _, _⟩ := h
    omega

theorem startChx_isSome (channels : Channels) (ch : Fin capMaxCh) (s : St) : (startChx channels ch s).isSome := by
  have hch : ch.val < 9 := ch.isLt
  refine setNumber_bind.mpr ⟨⟨by omega, by omega⟩, ?_⟩
  exact setState_isSome _ _ _

theorem forM_isSome {α : Type} {f : α → Cmd Unit} (h : ∀ x s, (f x s).isSome) (xs : List α) (s : St) : (xs.forM f s).isSome := by
  induction xs generalizing s with
  | nil => rfl
  | cons x xs ih =>
    obtain ⟨⟨_, t⟩, ht⟩ := Option.isSome_iff_exists.mp (h x s)
    have hrun : (x :: xs).forM f s = xs.forM f t := by simp [List.forM, bind, StateT.bind, ht]
    rw [hrun]
    exact ih t

theorem start_isSome (channels : Channels) (s : St) : (ctcStart channels s).isSome := by
  obtain ⟨⟨_, t⟩, ht⟩ := Option.isSome_iff_exists.mp (forM_isSome (startChx_isSome channels) (List.finRange capMaxCh) s)
  have hrun : ctcStart channels s = ctcSetCtcEnable 1 t := by simp [ctcStart, bind, StateT.bind, ht]
  rw [hrun]
  exact setState_isSome _ _ _

theorem resetBaseline_isSome (s : St) : (ctcResetBaseline s).isSome := by
  exact setState_bind.mpr (setState_isSome _ _ _)

/-! ## Queries -/

/-- The files of `ctc_get_config`, and the sizes of their buffers. -/
def configFiles : List (File × Nat) :=
  [(.common .scanInterval, 5), (.common .sampleNum, 2), (.common .etcEnable, 4), (.common .etcInterval, 4),
    (.common .etcStep, 2), (.common .etcFactor, 2), (.common .debounceTimes, 2), (.common .debounceEn, 2)]

/-- The files of `ctc_get_ch_config`. -/
def chConfigFiles : List (File × Nat) :=
  [(.chx .chxMbias, 4), (.chx .chxEnable, 2), (.chx .chxDiffTh, 5), (.chx .chxAbsTh, 5), (.chx .chxNNoiseTh, 5),
    (.chx .chxNNoiseTh, 5)]

section

variable (d : Driver) (s : St)

theorem getConfig_isSome_iff : (ctcGetConfig d s).isSome ↔ Shows d s.reads configFiles := by
  simp only [configFiles, shows_cons]
  refine getNumber_bind (by decide) fun _ _ => ?_
  refine getNumber_bind (by decide) fun _ _ => ?_
  refine getNumber_bind (by decide) fun _ _ => ?_
  refine getNumber_bind (by decide) fun _ _ => ?_
  refine getNumber_bind (by decide) fun _ _ => ?_
  refine getNumber_bind (by decide) fun _ _ => ?_
  refine getNumber_bind (by decide) fun _ _ => ?_
  refine getNumber_bind (by decide) fun _ _ => ?_
  exact iff_of_true rfl shows_nil

theorem getChConfig_isSome_iff (cfg : ChCfg) :
    (ctcGetChConfig d cfg s).isSome ↔ ChFits cfg.ch ∧ Shows d s.reads chConfigFiles := by
  have hch : ChFits cfg.ch ↔ -10 ^ 0 < cfg.ch ∧ cfg.ch < 10 ^ (0 + 1) := by
    unfold ChFits
    omega
  rw [hch]
  refine setNumber_bind.trans (and_congr_right fun _ => ?_)
  simp only [chConfigFiles, shows_cons]
  refine getNumber_bind (by decide) fun _ _ => ?_
  refine getNumber_bind (by decide) fun _ _ => ?_
  refine getNumber_bind (by decide) fun _ _ => ?_
  refine getNumber_bind (by decide) fun _ _ => ?_
  refine getNumber_bind (by decide) fun _ _ => ?_
  refine getNumber_bind (by decide) fun _ _ => ?_
  exact iff_of_true rfl shows_nil

end

/-! ## The search for a bias

A reading below the target by the error bound or more moves the bias up, one above it moves
it down, and any other ends the search; so does a bias that is none. -/

/-- The number that `chx_ave_data` shows, as `ch_data` has it. -/
def reading (shown : Shown) : UInt32 := .ofInt ((number 5 shown).getD 0)

/-- A bias that can be programmed. -/
def IsBias (b : Int) : Prop := 0 ≤ b ∧ b < mbiasMaxValue

instance : DecidablePred IsBias := fun _ => inferInstanceAs (Decidable (_ ∧ _))

section

variable (target error : UInt16)

/-- Where a reading moves the bias. -/
def move (x : UInt32) : Int :=
  if x.toNat ≤ target.toNat ∧ error.toNat ≤ target.toNat - x.toNat then 1
  else if target.toNat < x.toNat ∧ error.toNat ≤ x.toNat - target.toNat then -1
  else 0

/-- The bias after the first `k` readings, from `first` on. -/
def bias (first : Int) (ave : Nat → Shown) (k : Nat) : Int :=
  first + ∑ i ∈ Finset.range k, move target error (reading (ave i))

/-- The reading after the first `m` is the last: it is near the target, or leads out of the
    biases. -/
structure Ends (first : Int) (ave : Nat → Shown) (m : Nat) : Prop where
  biases : ∀ k ≤ m, IsBias (bias target error first ave k)
  readable : ∀ k ≤ m, Readable 5 (ave k)
  off : ∀ k < m, move target error (reading (ave k)) ≠ 0
  last : move target error (reading (ave m)) = 0 ∨ ¬ IsBias (bias target error first ave (m + 1))

variable {target error} {first : Int} {ave : Nat → Shown}

theorem bias_zero : bias target error first ave 0 = first := by
  simp [bias]

theorem bias_succ (k : Nat) :
    bias target error first ave (k + 1) =
      bias target error (first + move target error (reading (ave 0))) (fun i => ave (i + 1)) k := by
  rw [bias, bias, Finset.sum_range_succ']
  ring

theorem ends_zero :
    Ends target error first ave 0 ↔ IsBias first ∧ Readable 5 (ave 0) ∧
      (move target error (reading (ave 0)) = 0 ∨ ¬ IsBias (first + move target error (reading (ave 0)))) := by
  have hnext : bias target error first ave 1 = first + move target error (reading (ave 0)) := by
    rw [bias_succ, bias_zero]
  constructor
  · intro h
    have hfirst := h.biases 0 (le_refl 0)
    have hlast := h.last
    rw [bias_zero] at hfirst
    rw [hnext] at hlast
    exact ⟨hfirst, h.readable 0 (le_refl 0), hlast⟩
  · intro h
    obtain ⟨hfirst, hread, hlast⟩ := h
    refine ⟨?_, ?_, nofun, ?_⟩
    · intro k hk
      rw [Nat.le_zero.mp hk, bias_zero]
      exact hfirst
    · intro k hk
      rw [Nat.le_zero.mp hk]
      exact hread
    · rw [hnext]
      exact hlast

theorem ends_succ (m : Nat) :
    Ends target error first ave (m + 1) ↔ IsBias first ∧ Readable 5 (ave 0) ∧ move target error (reading (ave 0)) ≠ 0 ∧
      Ends target error (first + move target error (reading (ave 0))) (fun i => ave (i + 1)) m := by
  constructor
  · intro h
    have hfirst := h.biases 0 (Nat.zero_le _)
    rw [bias_zero] at hfirst
    refine ⟨hfirst, h.readable 0 (Nat.zero_le _), h.off 0 (Nat.succ_pos m), ?_⟩
    refine ⟨?_, ?_, ?_, ?_⟩
    · intro k hk
      rw [← bias_succ]
      exact h.biases (k + 1) (Nat.succ_le_succ hk)
    · intro k hk
      exact h.readable (k + 1) (Nat.succ_le_succ hk)
    · intro k hk
      exact h.off (k + 1) (Nat.succ_lt_succ hk)
    · rw [← bias_succ]
      exact h.last
  · intro h
    obtain ⟨hfirst, hread, hoff, hrest⟩ := h
    refine ⟨?_, ?_, ?_, ?_⟩
    · intro k hk
      cases k with
      | zero =>
        rw [bias_zero]
        exact hfirst
      | succ k =>
        rw [bias_succ]
        exact hrest.biases k (Nat.le_of_succ_le_succ hk)
    · intro k hk
      cases k with
      | zero => exact hread
      | succ k => exact hrest.readable k (Nat.le_of_succ_le_succ hk)
    · intro k hk
      cases k with
      | zero => exact hoff
      | succ k => exact hrest.off k (Nat.lt_of_succ_lt_succ hk)
    · rw [bias_succ]
      exact hrest.last

end

/-! ## The loop -/

theorem ofInt_toNat {b : Int} (h : IsBias b) : ((UInt8.ofInt b).toNat : Int) = b := by
  obtain ⟨hlow, hhigh⟩ := h
  rw [mbiasMaxValue] at hhigh
  lift b to Nat using hlow
  rw [UInt8.ofInt]
  simp
  omega

section

variable {d : Driver} {target error : UInt16} {α : Type} {rest : UInt8 → Cmd α}

/-- After a turn with a bias. -/
def St.turn (s : St) (b : Int) : St := ⟨s.reads + 1, s.written ++ [(.chx .chxMbias, decInt b)]⟩

/-- The comparisons of a turn. -/
theorem turn_move {x : UInt32} {b : Int} {fuel : Nat} {s : St} :
    ((if x > target.toUInt32 then
        if x - target.toUInt32 < error.toUInt32 then pure (UInt8.ofInt b) else tuneLoop d target error fuel (UInt8.ofInt b - 1)
      else
        if target.toUInt32 - x < error.toUInt32 then pure (UInt8.ofInt b) else tuneLoop d target error fuel (UInt8.ofInt b + 1))
        >>= rest) s =
      if move target error x = 0 then rest (UInt8.ofInt b) s
      else (tuneLoop d target error fuel (UInt8.ofInt (b + move target error x)) >>= rest) s := by
  have hup : UInt8.ofInt (b + 1) = UInt8.ofInt b + 1 := UInt8.ofInt_add b 1
  have hdown : UInt8.ofInt (b + -1) = UInt8.ofInt b - 1 := by
    rw [UInt8.ofInt_add, UInt8.sub_eq_add_neg]
    rfl
  have htarget : target.toUInt32.toNat = target.toNat := UInt16.toNat_toUInt32 target
  have herror : error.toUInt32.toNat = error.toNat := UInt16.toNat_toUInt32 error
  by_cases habove : x > target.toUInt32
  · have hlt := UInt32.lt_iff_toNat_lt.mp habove
    have hsub : (x - target.toUInt32).toNat = x.toNat - target.toNat := by
      rw [UInt32.toNat_sub_of_le _ _ (UInt32.le_of_lt habove), htarget]
    rw [if_pos habove]
    by_cases hnear : x - target.toUInt32 < error.toUInt32
    · have hmove : move target error x = 0 := by
        have := UInt32.lt_iff_toNat_lt.mp hnear
        unfold move
        rw [if_neg (by omega), if_neg (by omega)]
      rw [if_pos hnear, hmove, if_pos rfl, pure_bind]
    · have hfar : ¬ (x - target.toUInt32).toNat < error.toUInt32.toNat := fun h => hnear (UInt32.lt_iff_toNat_lt.mpr h)
      have hmove : move target error x = -1 := by
        unfold move
        rw [if_neg (by omega), if_pos (by omega)]
      rw [if_neg hnear, hmove, if_neg (by decide), hdown]
  · have hle : x.toNat ≤ target.toNat := by
      have hno : ¬ target.toUInt32.toNat < x.toNat := fun h => habove (UInt32.lt_iff_toNat_lt.mpr h)
      omega
    have hsub : (target.toUInt32 - x).toNat = target.toNat - x.toNat := by
      rw [UInt32.toNat_sub_of_le _ _ (UInt32.le_iff_toNat_le.mpr (by omega)), htarget]
    rw [if_neg habove]
    by_cases hnear : target.toUInt32 - x < error.toUInt32
    · have hmove : move target error x = 0 := by
        have := UInt32.lt_iff_toNat_lt.mp hnear
        unfold move
        rw [if_neg (by omega), if_neg (by omega)]
      rw [if_pos hnear, hmove, if_pos rfl, pure_bind]
    · have hfar : ¬ (target.toUInt32 - x).toNat < error.toUInt32.toNat := fun h => hnear (UInt32.lt_iff_toNat_lt.mpr h)
      have hmove : move target error x = 1 := by
        unfold move
        rw [if_pos (by omega)]
      rw [if_neg hnear, hmove, if_neg (by decide), hup]

/-- A turn comes back when its reading does, and then the rest. -/
theorem tuneLoop_turn {b : Int} (hb : IsBias b) (fuel : Nat) (s : St) :
    ((tuneLoop d target error (fuel + 1) (.ofInt b) >>= rest) s).isSome ↔
      Readable 5 (d s.reads (.chx .chxAveData)) ∧
        (if move target error (reading (d s.reads (.chx .chxAveData))) = 0 then rest (.ofInt b) (s.turn b)
          else (tuneLoop d target error fuel (.ofInt (b + move target error (reading (d s.reads (.chx .chxAveData))))) >>= rest)
            (s.turn b)).isSome := by
  have hb' := ofInt_toNat hb
  have hin : (UInt8.ofInt b).toNat < mbiasMaxValue := by
    have := hb.2
    omega
  rw [tuneLoop, if_pos hin, bind_assoc, hb']
  refine setNumber_bind.trans ((and_iff_right ?_).trans ?_)
  · obtain ⟨hlow, hhigh⟩ := hb
    rw [mbiasMaxValue] at hhigh
    omega
  · rw [bind_assoc]
    refine getNumber_bind (by decide) fun n hn => ?_
    have hread : reading (d s.reads (.chx .chxAveData)) = .ofInt n := by
      rw [reading]
      exact congrArg (fun o : Option Int => UInt32.ofInt (o.getD 0)) hn
    rw [hread, ← turn_move]
    rfl

theorem tuneLoop_out {b : Int} (hb : ¬ IsBias b) (hnext : -1 ≤ b ∧ b ≤ mbiasMaxValue) (fuel : Nat) :
    tuneLoop d target error (fuel + 1) (.ofInt b) = pure (.ofInt b) := by
  have hout : ¬ (UInt8.ofInt b).toNat < mbiasMaxValue := by
    have hcases : b = -1 ∨ b = 64 := by
      unfold IsBias at hb
      rw [mbiasMaxValue] at hb hnext
      omega
    rcases hcases with rfl | rfl
    · decide
    · decide
  rw [tuneLoop, if_neg hout]

theorem move_range (x : UInt32) : -1 ≤ move target error x ∧ move target error x ≤ 1 := by
  unfold move
  split
  · decide
  · split
    · decide
    · decide

/-- A bias and the next one. -/
theorem next_range {b : Int} (hb : IsBias b) (x : UInt32) :
    -1 ≤ b + move target error x ∧ b + move target error x ≤ mbiasMaxValue := by
  obtain ⟨hlow, hhigh⟩ := hb
  obtain ⟨hdown, hup⟩ := @move_range target error x
  omega

theorem later_reads (n : Nat) :
    (fun k => d (n + (k + 1)) (.chx .chxAveData)) = fun k => d (n + 1 + k) (.chx .chxAveData) := by
  funext k
  rw [Nat.add_comm k 1, Nat.add_assoc]

theorem ends_of_tuneLoop {Q : Nat → Prop} (hrest : ∀ r s, (rest r s).isSome ↔ Q s.reads) {b : Int} (hb : IsBias b) (s : St)
    {fuel : Nat} (h : ((tuneLoop d target error fuel (.ofInt b) >>= rest) s).isSome) :
    ∃ m, Ends target error b (fun k => d (s.reads + k) (.chx .chxAveData)) m ∧ Q (s.reads + m + 1) := by
  induction fuel generalizing b s with
  | zero => cases h
  | succ fuel ih =>
    obtain ⟨hread, h⟩ := (tuneLoop_turn hb fuel s).mp h
    by_cases hnear : move target error (reading (d s.reads (.chx .chxAveData))) = 0
    · rw [if_pos hnear] at h
      exact ⟨0, ends_zero.mpr ⟨hb, hread, .inl hnear⟩, (hrest _ _).mp h⟩
    · rw [if_neg hnear] at h
      by_cases hnext : IsBias (b + move target error (reading (d s.reads (.chx .chxAveData))))
      · rcases ih hnext (s.turn b) h with ⟨m, hends, hq⟩
        refine ⟨m + 1, (ends_succ m).mpr ⟨hb, hread, hnear, ?_⟩, ?_⟩
        · rw [later_reads]
          exact hends
        · have hreads : s.reads + (m + 1) + 1 = s.reads + 1 + m + 1 := by omega
          rw [hreads]
          exact hq
      · -- the loop condition fails at the next bias, which takes one more unit of the fuel
        refine ⟨0, ends_zero.mpr ⟨hb, hread, .inr hnext⟩, ?_⟩
        cases fuel with
        | zero => cases h
        | succ fuel =>
          rw [tuneLoop_out hnext (next_range hb _), pure_bind] at h
          exact (hrest _ _).mp h

theorem tuneLoop_of_ends {Q : Nat → Prop} (hrest : ∀ r s, (rest r s).isSome ↔ Q s.reads) {b : Int} (hb : IsBias b) (s : St)
    {m : Nat} (hends : Ends target error b (fun k => d (s.reads + k) (.chx .chxAveData)) m) (hq : Q (s.reads + m + 1)) :
    ∃ fuel, ((tuneLoop d target error fuel (.ofInt b) >>= rest) s).isSome := by
  induction m generalizing b s with
  | zero =>
    obtain ⟨-, hread, hlast⟩ := ends_zero.mp hends
    rw [Nat.add_zero] at hread hlast
    refine ⟨2, (tuneLoop_turn hb 1 s).mpr ⟨hread, ?_⟩⟩
    by_cases hnear : move target error (reading (d s.reads (.chx .chxAveData))) = 0
    · rw [if_pos hnear]
      exact (hrest _ _).mpr hq
    · rw [if_neg hnear, tuneLoop_out (hlast.resolve_left hnear) (next_range hb _), pure_bind]
      exact (hrest _ _).mpr hq
  | succ m ih =>
    obtain ⟨-, hread, hoff, hmore⟩ := (ends_succ m).mp hends
    rw [later_reads, Nat.add_zero] at hmore
    rw [Nat.add_zero] at hread hoff
    have hnext := hmore.biases 0 (Nat.zero_le m)
    rw [bias_zero] at hnext
    have hreads : s.reads + (m + 1) + 1 = s.reads + 1 + m + 1 := by omega
    rw [hreads] at hq
    rcases ih hnext (s.turn b) hmore hq with ⟨fuel, h⟩
    refine ⟨fuel + 1, (tuneLoop_turn hb fuel s).mpr ⟨hread, ?_⟩⟩
    rw [if_neg hoff]
    exact h

/-- The search comes to an end when its readings do, and what follows starts behind them. -/
theorem tuneLoop_ends {Q : Nat → Prop} (hrest : ∀ r s, (rest r s).isSome ↔ Q s.reads) {b : Int} (hb : IsBias b) (s : St) :
    (∃ fuel, ((tuneLoop d target error fuel (.ofInt b) >>= rest) s).isSome) ↔
      ∃ m, Ends target error b (fun k => d (s.reads + k) (.chx .chxAveData)) m ∧ Q (s.reads + m + 1) :=
  ⟨fun ⟨_, h⟩ => ends_of_tuneLoop hrest hb s h, fun ⟨_, hends, hq⟩ => tuneLoop_of_ends hrest hb s hends hq⟩

end

/-! ## The whole search -/

/-- The files that are read before the loop. -/
def tuneFiles : List (File × Nat) := [(.common .scanInterval, 5), (.common .etcInterval, 4), (.chx .chxAveData, 5)]

/-- `abs(mbias_tune_target - ch_data)` is within the bound. -/
def Within (target error : UInt16) (x : UInt32) : Prop := (target.toUInt32 - x).toInt32.toInt.natAbs ≤ error.toNat

instance (target error : UInt16) (x : UInt32) : Decidable (Within target error x) := inferInstanceAs (Decidable (_ ≤ _))

section

variable {d : Driver} {target error : UInt16} {α : Type} {rest : UInt8 → Cmd α}

/-- Up to the choice between the programmed bias and the loop. -/
theorem tuneMbias_start (channel : UInt8) (s : St) :
    ∃ t : St, t.reads = s.reads + 3 ∧ ∀ fuel, ((ctcTuneMbias d fuel channel target error >>= rest) s).isSome ↔
      channel.toNat ≤ 9 ∧ Shows d s.reads tuneFiles ∧
        ((if Within target error (reading (d (s.reads + 2) (.chx .chxAveData))) then
          ctcGetChxMbias d >>= fun mbias => rest (.ofInt mbias) else tuneLoop d target error fuel 0 >>= rest) t).isSome := by
  refine ⟨⟨s.reads + 3, s.written ++ [(.chNum, decInt channel.toNat)] ++ [(.chx .chxEnable, lit "1")]⟩, rfl, fun fuel => ?_⟩
  have hch : channel.toNat ≤ 9 ↔ -10 ^ 0 < (channel.toNat : Int) ∧ (channel.toNat : Int) < 10 ^ (0 + 1) := by
    omega
  rw [hch, ctcTuneMbias, bind_assoc]
  refine setNumber_bind.trans (and_congr_right fun _ => ?_)
  rw [bind_assoc]
  refine setState_bind.trans ?_
  simp only [tuneFiles, shows_cons, bind_assoc, and_assoc]
  refine getNumber_bind (by decide) fun _ _ => ?_
  refine getNumber_bind (by decide) fun _ _ => ?_
  refine getNumber_bind (by decide) fun n hn => ?_
  have hread : reading (d (s.reads + 2) (.chx .chxAveData)) = .ofInt n :=
    congrArg (fun o : Option Int => UInt32.ofInt (o.getD 0)) hn
  rw [hread, and_iff_right shows_nil]
  by_cases hwithin : Within target error (.ofInt n)
  · rw [if_pos hwithin, if_neg (not_lt.mpr hwithin), bind_assoc]
    simp only [pure_bind]
    rfl
  · rw [if_neg hwithin, if_pos (not_le.mp hwithin)]
    rfl

/-- The search comes back, and with it what follows, behind the reads it took. -/
theorem tune_isSome_iff {Q : Nat → Prop} (hrest : ∀ r s, (rest r s).isSome ↔ Q s.reads) (channel : UInt8) (s : St) :
    (∃ fuel, ((ctcTuneMbias d fuel channel target error >>= rest) s).isSome) ↔
      channel.toNat ≤ 9 ∧ Shows d s.reads tuneFiles ∧
        if Within target error (reading (d (s.reads + 2) (.chx .chxAveData))) then
          Readable 4 (d (s.reads + 3) (.chx .chxMbias)) ∧ Q (s.reads + 4)
        else
          ∃ m, Ends target error 0 (fun k => d (s.reads + 3 + k) (.chx .chxAveData)) m ∧ Q (s.reads + 3 + m + 1) := by
  obtain ⟨t, ht, hstart⟩ := @tuneMbias_start d target error α rest channel s
  simp only [hstart, exists_and_left]
  refine and_congr_right fun _ => and_congr_right fun _ => ?_
  by_cases hwithin : Within target error (reading (d (s.reads + 2) (.chx .chxAveData)))
  · simp only [if_pos hwithin, exists_const]
    rw [← ht]
    refine getNumber_bind (by decide) fun n _ => ?_
    rw [hrest]
    have hnext : s.reads + 4 = t.reads + 1 := by omega
    rw [hnext]
  · simp only [if_neg hwithin]
    rw [← ht]
    exact tuneLoop_ends hrest (show IsBias 0 by decide) t

end

/-! ## Files that keep their texts -/

section

variable {d : Driver} {s : St} {f : Config.Sysfs} {attr : Attr} {size : Nat}

theorem number_room {t : List UInt8} (h : (t.take sizeofVal).length + 1 ≤ size) :
    number size (.text t) = some (atoi (t.take sizeofVal)) := by
  obtain ⟨k, hk⟩ := Nat.exists_eq_add_of_le h
  have hrest : size - (t.take sizeofVal).length = k + 1 := by omega
  rw [number, buffer, if_pos (Nat.le_of_succ_le h), Option.bind_some, hrest, List.replicate_succ, atoiAt_terminated,
    ← List.replicate_succ, atoi_padded]

/-- A getter of `AmebaLinux.Cmds.CaptouchConfig` reads what this one does. -/
theorem getNumber_agrees {α : Type} {next : Int → Config.Cmd α} {r : α × Config.Sysfs} {n : Nat}
    (h : (Config.getAttr attr size >>= next) f = some r) (hshown : d n (.chx attr) = .text (f.chx f.cur attr)) :
    ∃ v, next v f = some r ∧ ∀ written, getNumber d (.chx attr) size ⟨n, written⟩ = some (v, ⟨n + 1, written⟩) := by
  by_cases hroom : ((f.chx f.cur attr).take sizeofVal).length + 1 ≤ size
  · have hread : Config.attrRead attr size f = some ((f.chx f.cur attr).take sizeofVal, f) := if_pos hroom
    rw [Config.getAttr, bind_assoc, Config.bind_run hread, Config.bind_run rfl] at h
    refine ⟨_, h, fun written => ?_⟩
    rw [getNumber_run, hshown, number_room hroom]
    rfl
  · have hread : Config.attrRead attr size f = none := if_neg hroom
    simp [Config.getAttr, bind, StateT.bind, hread] at h

/-- Over files that keep their texts, a channel is read as `AmebaLinux.Cmds.CaptouchConfig`
    has it. -/
theorem getChConfig_agrees {cfg c : ChCfg} {f' : Config.Sysfs} (h : Config.ctcGetChConfig cfg f = some (c, f'))
    (hshown : ∀ k attr, d (s.reads + k) (.chx attr) = .text (f.chx cfg.ch attr)) :
    ∃ s', ctcGetChConfig d cfg s = some (c, s') := by
  have hfits : (Buffers.sprintf 2 cfg.ch).Fits := ((Buffers.setCurChx_bind_isSome cfg.ch _).mp (Option.isSome_of_eq_some h)).1
  obtain ⟨hlow, hhigh⟩ := (Buffers.sprintf_fits 0 cfg.ch).mp hfits
  have hselect : Config.ctcSetCurChx cfg.ch f = some ((), { f with chNum := decInt cfg.ch }) := Config.bind_run (if_pos hfits)
  have hcur : ({ f with chNum := decInt cfg.ch } : Config.Sysfs).cur = cfg.ch := atoi_decInt (by omega) (by omega)
  have hset : ctcSetCurChx cfg.ch s = some ((), { s with written := s.written ++ [(.chNum, decInt cfg.ch)] }) := by
    rw [ctcSetCurChx, setNumber_run, if_pos ⟨hlow, hhigh⟩]
  have hfile : ∀ k attr, d (s.reads + k) (.chx attr) =
      .text (({ f with chNum := decInt cfg.ch } : Config.Sysfs).chx
        ({ f with chNum := decInt cfg.ch } : Config.Sysfs).cur attr) := by
    intro k attr
    rw [hcur]
    exact hshown k attr
  rw [Config.ctcGetChConfig, Config.bind_run hselect] at h
  obtain ⟨mbias, h, hmbias⟩ := getNumber_agrees (n := s.reads) h (hfile 0 _)
  obtain ⟨enable, h, henable⟩ := getNumber_agrees (n := s.reads + 1) h (hfile 1 _)
  obtain ⟨diffTh, h, hdiff⟩ := getNumber_agrees (n := s.reads + 1 + 1) h (hfile 2 _)
  obtain ⟨absTh, h, habs⟩ := getNumber_agrees (n := s.reads + 1 + 1 + 1) h (hfile 3 _)
  obtain ⟨pnTh, h, hpn⟩ := getNumber_agrees (n := s.reads + 1 + 1 + 1 + 1) h (hfile 4 _)
  obtain ⟨nnTh, h, hnn⟩ := getNumber_agrees (n := s.reads + 1 + 1 + 1 + 1 + 1) h (hfile 5 _)
  cases h
  refine ⟨⟨s.reads + 6, s.written ++ [(.chNum, decInt cfg.ch)]⟩, ?_⟩
  simp only [ctcGetChConfig, ctcGetChxMbias, ctcGetChxEnable, ctcGetChxDiffTh, ctcGetChxAbsTh, ctcGetChxPNoiseTh,
    ctcGetChxNNoiseTh, bind, StateT.bind, hset, hmbias, henable, hdiff, habs, hpn, hnn, Option.bind_some]
  rfl

end

end AmebaLinux.Cmds.Captouch.Device
