/-
  AmebaLinux.Cmds.CaptouchBuffers — what the captouch tool stores in the small buffers of
  its setters and getters (`cmds/captouch/captouch_util.c`: `attr_config`,
  `ctc_set_debounce_times` to `ctc_get_chx_ave_data`, `ctc_set_config` to
  `ctc_get_ch_rt_data`).

  Each setter prints a number into a buffer of its own and each getter has a file read into
  one, of 2 to 5 bytes. `assert_param` prints a message and goes on. The `enable` setters
  write a literal and use no buffer. What the files show is up to the driver; nothing is
  stored for a file that cannot be read.

  Proved:
  - `setChConfig_isSome_iff`, `getChConfig_fits`: the setters and getters of a channel in
    `AmebaLinux.Cmds.CaptouchConfig` fail exactly where a number does not fit, and read
    only what fits.
  - `buffers_fit_iff`: of the values the assertions let pass, those that fit, and the files
    that are read into two bytes.
-/

import AmebaLinux.Cmds.CaptouchConfig

namespace AmebaLinux.Cmds.Captouch.Buffers

open Lib.CString
open Tune (capMaxCh)
open Config (Attr ChCfg Sysfs sizeofVal)

/-! ## Buffers -/

/-- A buffer and how many bytes are stored from its start. -/
structure Access where
  size : Nat
  stored : Nat
  deriving DecidableEq, Repr

def Access.Fits (a : Access) : Prop := a.stored ≤ a.size

instance (a : Access) : Decidable a.Fits := inferInstanceAs (Decidable (_ ≤ _))

/-- `sprintf(buf, "%d", n)`, with the terminator. -/
def sprintf (size : Nat) (n : Int) : Access := ⟨size, (decInt n).length + 1⟩

/-- `attr_config` with `CAPT_READ`, of a file that shows `text`. -/
def attrRead (size : Nat) (text : Option (List UInt8)) : Access := ⟨size, ((text.getD []).take sizeofVal).length⟩

/-- The files of `common_config` and `etc_config` that are read. -/
inductive Common where
  | debounceEn
  | debounceTimes
  | snrTouch
  | snrNoise
  | scanInterval
  | sampleNum
  | etcEnable
  | etcInterval
  | etcFactor
  | etcStep
  deriving DecidableEq, Repr

/-- What the files show, those of a channel while it is selected. -/
structure Shown where
  common : Common → Option (List UInt8)
  chx : Int → Attr → Option (List UInt8)

/-! ## The attributes -/

def ctcSetDebounceTimes : Int → Access := sprintf 2
def ctcSetScanInterval : Int → Access := sprintf 5
def ctcSetSampleNum : Int → Access := sprintf 2
def ctcSetEtcInterval : Int → Access := sprintf 4
def ctcSetEtcFactor : Int → Access := sprintf 2
def ctcSetEtcStep : Int → Access := sprintf 2
def ctcSetCurChx : Int → Access := sprintf 2
def ctcSetChxMbias : Int → Access := sprintf 4
def ctcSetChxDiffTh : Int → Access := sprintf 5
def ctcSetChxAbsTh : Int → Access := sprintf 5
def ctcSetChxNNoiseTh : Int → Access := sprintf 5
def ctcSetChxPNoiseTh : Int → Access := sprintf 4

section

variable (f : Shown) (ch : Int)

def ctcGetDebounceEnable : Access := attrRead 2 (f.common .debounceEn)
def ctcGetDebounceTimes : Access := attrRead 2 (f.common .debounceTimes)
def ctcGetScanInterval : Access := attrRead 5 (f.common .scanInterval)
def ctcGetSampleNum : Access := attrRead 2 (f.common .sampleNum)
def ctcGetEtcEnable : Access := attrRead 4 (f.common .etcEnable)
def ctcGetEtcInterval : Access := attrRead 4 (f.common .etcInterval)
def ctcGetEtcFactor : Access := attrRead 2 (f.common .etcFactor)
def ctcGetEtcStep : Access := attrRead 2 (f.common .etcStep)
def ctcGetChxEnable : Access := attrRead 2 (f.chx ch .chxEnable)
def ctcGetChxMbias : Access := attrRead 4 (f.chx ch .chxMbias)
def ctcGetChxBaseline : Access := attrRead 5 (f.chx ch .chxBaseline)
def ctcGetChxDiffTh : Access := attrRead 5 (f.chx ch .chxDiffTh)
def ctcGetChxAbsTh : Access := attrRead 5 (f.chx ch .chxAbsTh)
def ctcGetChxNNoiseTh : Access := attrRead 5 (f.chx ch .chxNNoiseTh)
-- The source reads `chx_n_noise_th` here.
def ctcGetChxPNoiseTh : Access := attrRead 5 (f.chx ch .chxNNoiseTh)
def ctcGetChxAveData : Access := attrRead 5 (f.chx ch .chxAveData)

end

/-! ## The configurations -/

/-- `cap_cfg_req_t`. -/
structure Cfg where
  scanInt : Int
  avgSamp : Int
  etcEn : Int
  etcInt : Int
  etcStep : Int
  etcFactor : Int
  debEn : Int
  debCnt : Int
  deriving DecidableEq, Repr

def ctcGetSnr (f : Shown) : List Access := [attrRead 5 (f.common .snrTouch), attrRead 5 (f.common .snrNoise)]

def ctcSetConfig (cfg : Cfg) : List Access :=
  [ctcSetScanInterval cfg.scanInt, ctcSetSampleNum cfg.avgSamp, ctcSetDebounceTimes cfg.debCnt,
    ctcSetEtcInterval cfg.etcInt, ctcSetEtcFactor cfg.etcFactor, ctcSetEtcStep cfg.etcStep]

def ctcGetConfig (f : Shown) : List Access :=
  [ctcGetScanInterval f, ctcGetSampleNum f, ctcGetEtcEnable f, ctcGetEtcInterval f, ctcGetEtcStep f, ctcGetEtcFactor f,
    ctcGetDebounceTimes f, ctcGetDebounceEnable f]

def ctcSetChConfig (cfg : ChCfg) : List Access :=
  [ctcSetCurChx cfg.ch, ctcSetChxMbias cfg.mbias, ctcSetChxAbsTh cfg.absTh, ctcSetChxDiffTh cfg.diffTh,
    ctcSetChxPNoiseTh cfg.pnTh, ctcSetChxNNoiseTh cfg.nnTh]

def ctcGetChConfig (f : Shown) (ch : Int) : List Access :=
  [ctcSetCurChx ch, ctcGetChxMbias f ch, ctcGetChxEnable f ch, ctcGetChxDiffTh f ch, ctcGetChxAbsTh f ch,
    ctcGetChxPNoiseTh f ch, ctcGetChxNNoiseTh f ch]

def ctcGetChRtData (f : Shown) (ch : Int) : List Access := [ctcSetCurChx ch, ctcGetChxAveData f ch, ctcGetChxBaseline f ch]

/-- Setting and querying both configurations, and a packet of every channel. -/
def accesses (cfg : Cfg) (chCfg : ChCfg) (f : Shown) : List Access :=
  ctcSetConfig cfg ++ ctcGetConfig f ++ ctcSetChConfig chCfg ++ ctcGetChConfig f chCfg.ch ++
    (List.range capMaxCh).flatMap (fun ch : Nat => ctcGetChRtData f ch) ++ ctcGetSnr f

/-- What the setters assert. -/
structure Asserted (cfg : Cfg) (chCfg : ChCfg) : Prop where
  debCnt : cfg.debCnt < 4
  avgSamp : cfg.avgSamp < 8
  etcInt : cfg.etcInt ≤ 127
  etcFactor : cfg.etcFactor ≤ 15
  etcStep : cfg.etcStep ≤ 15
  absTh : chCfg.absTh < 4096

/-! ## What fits -/

theorem sprintf_fits (k : Nat) (n : Int) : (sprintf (k + 2) n).Fits ↔ -10 ^ k < n ∧ n < 10 ^ (k + 1) := by
  rw [← decInt_length_iff]
  exact Nat.succ_le_succ_iff

theorem attrRead_fits {size : Nat} (h : sizeofVal ≤ size) (text : Option (List UInt8)) : (attrRead size text).Fits :=
  (List.length_take_le _ _).trans h

theorem attrRead_two (text : Option (List UInt8)) : (attrRead 2 text).Fits ↔ ∀ t, text = some t → t.length ≤ 2 := by
  cases text with
  | none => simp [attrRead, Access.Fits]
  | some t => simp [attrRead, Access.Fits, sizeofVal]

/-! ## The model of the files -/

section

open Config (Cmd bind_run)

variable {s : Sysfs}

theorem sprintf_bind_isSome {α : Type} (size : Nat) (n : Int) (rest : List UInt8 → Cmd α) :
    ((Config.sprintf size n >>= rest) s).isSome ↔ (sprintf size n).Fits ∧ (rest (decInt n) s).isSome := by
  by_cases hfits : (sprintf size n).Fits
  · have hrun : Config.sprintf size n s = some (decInt n, s) := if_pos hfits
    rw [bind_run hrun, and_iff_right hfits]
  · have hrun : Config.sprintf size n s = none := if_neg hfits
    simp [bind, StateT.bind, hrun, hfits]

theorem setAttr_bind_isSome {α : Type} (attr : Attr) (size : Nat) (n : Int) (rest : Cmd α) :
    ((Config.setAttr attr size n >>= fun _ => rest) s).isSome ↔
      (sprintf size n).Fits ∧ (rest (s.write attr (decInt n))).isSome := by
  rw [Config.setAttr, bind_assoc, sprintf_bind_isSome, bind_run rfl]

theorem setCurChx_bind_isSome {α : Type} (ch : Int) (rest : Cmd α) :
    ((Config.ctcSetCurChx ch >>= fun _ => rest) s).isSome ↔
      (sprintf 2 ch).Fits ∧ (rest { s with chNum := decInt ch }).isSome := by
  rw [Config.ctcSetCurChx, bind_assoc, sprintf_bind_isSome, bind_run rfl]

theorem getAttr_bind_isSome {α : Type} {attr : Attr} {size : Nat} {rest : Int → Cmd α}
    (h : ((Config.getAttr attr size >>= rest) s).isSome) :
    (attrRead size (some (s.chx s.cur attr))).Fits ∧ ∃ n, (rest n s).isSome := by
  by_cases hfits : ((s.chx s.cur attr).take sizeofVal).length + 1 ≤ size
  · have hread : Config.attrRead attr size s = some ((s.chx s.cur attr).take sizeofVal, s) := if_pos hfits
    rw [Config.getAttr, bind_assoc, bind_run hread, bind_run rfl] at h
    exact ⟨Nat.le_of_succ_le hfits, _, h⟩
  · have hread : Config.attrRead attr size s = none := if_neg hfits
    simp [Config.getAttr, bind, StateT.bind, hread] at h

/-- The channel's setters go on exactly when every number fits. -/
theorem setChConfig_isSome_iff (cfg : ChCfg) (s : Sysfs) :
    (Config.ctcSetChConfig cfg s).isSome ↔ ∀ a ∈ ctcSetChConfig cfg, a.Fits := by
  have henable : ∀ t, (Config.ctcSetChxEnable cfg.enable t).isSome := by
    intro t
    unfold Config.ctcSetChxEnable
    split
    · rfl
    · rfl
  simp only [Config.ctcSetChConfig, Config.ctcSetChxMbias, Config.ctcSetChxAbsTh, Config.ctcSetChxDiffTh,
    Config.ctcSetChxPNoiseTh, Config.ctcSetChxNNoiseTh, setCurChx_bind_isSome, setAttr_bind_isSome, henable, ctcSetChConfig,
    ctcSetCurChx, ctcSetChxMbias, ctcSetChxAbsTh, ctcSetChxDiffTh, ctcSetChxPNoiseTh, ctcSetChxNNoiseTh,
    List.forall_mem_cons, List.not_mem_nil, IsEmpty.forall_iff, implies_true]

/-- The channel's getters read only what fits. -/
theorem getChConfig_fits {cfg : ChCfg} {f : Shown} (hf : ∀ ch attr, f.chx ch attr = some (s.chx ch attr))
    (h : (Config.ctcGetChConfig cfg s).isSome) : ∀ a ∈ ctcGetChConfig f cfg.ch, a.Fits := by
  obtain ⟨hch, h⟩ := (setCurChx_bind_isSome cfg.ch _).mp h
  have hcur : ({ s with chNum := decInt cfg.ch } : Sysfs).cur = cfg.ch := by
    obtain ⟨hlow, hhigh⟩ := (sprintf_fits 0 cfg.ch).mp hch
    exact atoi_decInt (by omega) (by omega)
  obtain ⟨hmbias, _, h⟩ := getAttr_bind_isSome h
  obtain ⟨henable, _, h⟩ := getAttr_bind_isSome h
  obtain ⟨hdiff, _, h⟩ := getAttr_bind_isSome h
  obtain ⟨habs, _, h⟩ := getAttr_bind_isSome h
  obtain ⟨hnoise, -⟩ := getAttr_bind_isSome h
  rw [hcur, ← hf] at hmbias henable hdiff habs hnoise
  simp only [ctcGetChConfig, List.forall_mem_cons]
  exact ⟨hch, hmbias, henable, hdiff, habs, hnoise, hnoise, by simp⟩

end

/-! ## Configurations that fit -/

/-- The values that are printed in full, of those that are asserted. -/
structure Printable (cfg : Cfg) (chCfg : ChCfg) : Prop where
  scanInt : -999 ≤ cfg.scanInt ∧ cfg.scanInt ≤ 9999
  avgSamp : 0 ≤ cfg.avgSamp
  debCnt : 0 ≤ cfg.debCnt
  etcInt : -99 ≤ cfg.etcInt
  etcFactor : 0 ≤ cfg.etcFactor ∧ cfg.etcFactor ≤ 9
  etcStep : 0 ≤ cfg.etcStep ∧ cfg.etcStep ≤ 9
  ch : 0 ≤ chCfg.ch ∧ chCfg.ch ≤ 9
  mbias : -99 ≤ chCfg.mbias ∧ chCfg.mbias ≤ 999
  absTh : -999 ≤ chCfg.absTh
  diffTh : -999 ≤ chCfg.diffTh ∧ chCfg.diffTh ≤ 9999
  pnTh : -99 ≤ chCfg.pnTh ∧ chCfg.pnTh ≤ 999
  nnTh : -999 ≤ chCfg.nnTh ∧ chCfg.nnTh ≤ 9999

/-- The files that are read into two bytes show no more. -/
structure Short (f : Shown) (ch : Int) : Prop where
  common : ∀ file ∈ [Common.debounceEn, .debounceTimes, .sampleNum, .etcFactor, .etcStep], ∀ t,
    f.common file = some t → t.length ≤ 2
  enable : ∀ t, f.chx ch .chxEnable = some t → t.length ≤ 2

theorem setConfig_fits {cfg : Cfg} {chCfg : ChCfg} (h : Asserted cfg chCfg) :
    ((∀ a ∈ ctcSetConfig cfg, a.Fits) ∧ ∀ a ∈ ctcSetChConfig chCfg, a.Fits) ↔ Printable cfg chCfg := by
  obtain ⟨hdeb, havg, hint, hfactor, hstep, habs⟩ := h
  simp only [ctcSetConfig, ctcSetScanInterval, ctcSetSampleNum, ctcSetDebounceTimes, ctcSetEtcInterval, ctcSetEtcFactor,
    ctcSetEtcStep, ctcSetChConfig, ctcSetCurChx, ctcSetChxMbias, ctcSetChxAbsTh, ctcSetChxDiffTh, ctcSetChxPNoiseTh,
    ctcSetChxNNoiseTh, List.forall_mem_cons, List.not_mem_nil, IsEmpty.forall_iff, implies_true, and_true,
    sprintf_fits 0, sprintf_fits 2, sprintf_fits 3]
  constructor
  · intro h
    refine ⟨?_, ?_, ?_, ?_, ?_, ?_, ?_, ?_, ?_, ?_, ?_, ?_⟩ <;> omega
  · intro h
    obtain ⟨_, _, _, _, _, _, _, _, _, _, _, _⟩ := h
    omega

theorem getConfig_fits (f : Shown) :
    (∀ a ∈ ctcGetConfig f, a.Fits) ↔
      ∀ file ∈ [Common.debounceEn, .debounceTimes, .sampleNum, .etcFactor, .etcStep], ∀ t,
        f.common file = some t → t.length ≤ 2 := by
  simp only [ctcGetConfig, ctcGetScanInterval, ctcGetSampleNum, ctcGetEtcEnable, ctcGetEtcInterval, ctcGetEtcStep,
    ctcGetEtcFactor, ctcGetDebounceTimes, ctcGetDebounceEnable, List.forall_mem_cons, List.not_mem_nil,
    IsEmpty.forall_iff, implies_true, and_true, attrRead_two, attrRead_fits (show sizeofVal ≤ 4 by decide),
    attrRead_fits (show sizeofVal ≤ 5 by decide), true_and]
  tauto

theorem getChConfig_fits_iff (f : Shown) (ch : Int) :
    (∀ a ∈ ctcGetChConfig f ch, a.Fits) ↔ (ctcSetCurChx ch).Fits ∧ ∀ t, f.chx ch .chxEnable = some t → t.length ≤ 2 := by
  simp only [ctcGetChConfig, ctcGetChxMbias, ctcGetChxEnable, ctcGetChxDiffTh, ctcGetChxAbsTh, ctcGetChxPNoiseTh,
    ctcGetChxNNoiseTh, List.forall_mem_cons, List.not_mem_nil, IsEmpty.forall_iff, implies_true, and_true, attrRead_two,
    attrRead_fits (show sizeofVal ≤ 4 by decide), attrRead_fits (show sizeofVal ≤ 5 by decide), true_and]

/-- A packet and the ratio use buffers that are large enough. -/
theorem getChRtData_fits (f : Shown) {ch : Nat} (h : ch < capMaxCh) : ∀ a ∈ ctcGetChRtData f ch, a.Fits := by
  have hch : (ctcSetCurChx ch).Fits := (sprintf_fits 0 ch).mpr ⟨by omega, by rw [capMaxCh] at h; omega⟩
  simp only [ctcGetChRtData, List.forall_mem_cons]
  exact ⟨hch, attrRead_fits (by decide) _, attrRead_fits (by decide) _, by simp⟩

theorem getSnr_fits (f : Shown) : ∀ a ∈ ctcGetSnr f, a.Fits := by
  simp only [ctcGetSnr, List.forall_mem_cons]
  exact ⟨attrRead_fits (by decide) _, attrRead_fits (by decide) _, by simp⟩

theorem buffers_fit_iff (cfg : Cfg) (chCfg : ChCfg) (h : Asserted cfg chCfg) (f : Shown) :
    (∀ a ∈ accesses cfg chCfg f, a.Fits) ↔ Printable cfg chCfg ∧ Short f chCfg.ch := by
  have hpackets : ∀ a ∈ (List.range capMaxCh).flatMap (fun ch : Nat => ctcGetChRtData f ch), a.Fits := by
    intro a ha
    obtain ⟨ch, hch, ha⟩ := List.mem_flatMap.mp ha
    exact getChRtData_fits f (List.mem_range.mp hch) a ha
  -- `ch` is printed by both
  have hselect : (∀ a ∈ ctcSetChConfig chCfg, a.Fits) → (ctcSetCurChx chCfg.ch).Fits :=
    fun hset => hset _ (by simp [ctcSetChConfig])
  simp only [accesses, List.forall_mem_append, getConfig_fits, getChConfig_fits_iff, ← setConfig_fits h]
  constructor
  · intro hall
    obtain ⟨⟨⟨⟨⟨hset, hget⟩, hsetCh⟩, -, henable⟩, -⟩, -⟩ := hall
    exact ⟨⟨hset, hsetCh⟩, hget, henable⟩
  · intro hall
    obtain ⟨⟨hset, hsetCh⟩, hget, henable⟩ := hall
    exact ⟨⟨⟨⟨⟨hset, hget⟩, hsetCh⟩, hselect hsetCh, henable⟩, hpackets⟩, getSnr_fits f⟩

/-- The requests that the comments of `cap_rx_process` show. -/
def sampleCfg : Cfg := ⟨60, 6, 1, 3, 1, 4, 1, 0⟩
def sampleChCfg : ChCfg := ⟨0, 1, 34, 100, 123, 40, 40⟩

/-- Files of one digit and a newline. -/
def shownDigit : Shown := ⟨fun _ => some (lit "1\n"), fun _ _ => some (lit "1\n")⟩

theorem sample_fits : Asserted sampleCfg sampleChCfg ∧ ∀ a ∈ accesses sampleCfg sampleChCfg shownDigit, a.Fits := by
  have hasserted : Asserted sampleCfg sampleChCfg := by
    refine ⟨?_, ?_, ?_, ?_, ?_, ?_⟩ <;> decide
  refine ⟨hasserted, (buffers_fit_iff sampleCfg sampleChCfg hasserted shownDigit).mpr ⟨?_, ?_⟩⟩
  · refine ⟨?_, ?_, ?_, ?_, ?_, ?_, ?_, ?_, ?_, ?_, ?_, ?_⟩ <;> decide
  · refine ⟨?_, ?_⟩
    · intro file _ t ht
      cases ht
      decide
    · intro t ht
      cases ht
      decide

/-- A factor of 10 passes its assertion and takes three bytes of two; so does a file that
    shows two digits and a newline. -/
theorem buffers_overrun :
    Asserted { sampleCfg with etcFactor := 10 } sampleChCfg ∧
      ¬ (∀ a ∈ accesses { sampleCfg with etcFactor := 10 } sampleChCfg shownDigit, a.Fits) ∧
      ¬ (∀ a ∈ accesses sampleCfg sampleChCfg ⟨fun _ => some (lit "10\n"), fun _ _ => none⟩, a.Fits) := by
  refine ⟨?_, by decide +kernel, by decide +kernel⟩
  refine ⟨?_, ?_, ?_, ?_, ?_, ?_⟩ <;> decide

end AmebaLinux.Cmds.Captouch.Buffers
