/-
  AmebaLinux.Cmds.CaptouchTune — the search for a channel's bias
  (`cmds/captouch/captouch_util.c`: `ctc_tune_mbias`).

  A sensor answers each of the 64 biases with a reading; `ctc_get_chx_ave_data` gives the
  answer to the bias that is programmed. The loop has no bound of its own, so the model
  counts its turns down (`fuel`): it terminates if some fuel suffices. The bias is an
  8-bit number, and one below 0 is above the largest.

  From 0 the loop goes up while the reading is too low. If it then meets one that is too
  high, it goes back to the one that was too low, and so on for ever.

  Proved:
  - `tune_correct_iff`: the search ends with a bias within the bound, or above 63 where
    there is none, exactly when the programmed bias is right already, or the first one that
    is not too low is not too high either (`steep_sensor_diverges`).
  - `clear_iff_noJump`: for a reading that does not fall with the bias, this says that no
    two neighbours are one too low and one too high.
-/

import Mathlib.Tactic

namespace AmebaLinux.Cmds.Captouch.Tune

def capMaxCh : Nat := 9
def mbiasMaxValue : Nat := 64

instance : NeZero mbiasMaxValue := ⟨by decide⟩
instance : NeZero capMaxCh := ⟨by decide⟩

abbrev Channel : Type := Fin capMaxCh
abbrev Mbias : Type := Fin mbiasMaxValue
abbrev Reading : Type := Fin 4096

/-- The channels' answers, and the biases that are programmed. -/
structure Sensor where
  response : Channel → Mbias → Reading
  programmed : Channel → Mbias

/-- `abs(mbias_tune_target - ch_data)`. -/
def gap (reading : Reading) (target : UInt16) : Nat := ((target.toNat : Int) - reading.val).natAbs

/-- The loop: the bias with which it ends, or none when the fuel runs out. -/
def tuneLoop (f : Mbias → Reading) (target error : UInt16) : Nat → UInt8 → Option UInt8
  | 0, _ => none
  | fuel + 1, mbias =>
    if h : mbias.toNat < mbiasMaxValue then
      let chData := (f ⟨mbias.toNat, h⟩).val
      if chData > target.toNat then
        if chData - target.toNat < error.toNat then some mbias else tuneLoop f target error fuel (mbias - 1)
      else
        if target.toNat - chData < error.toNat then some mbias else tuneLoop f target error fuel (mbias + 1)
    else some mbias

def ctcTuneMbias (s : Sensor) (channel : Channel) (target error : UInt16) (fuel : Nat) : Option UInt8 :=
  if gap (s.response channel (s.programmed channel)) target > error.toNat then tuneLoop (s.response channel) target error fuel 0
  else some (UInt8.ofNat (s.programmed channel).val)

/-! ## One turn -/

section

variable (f : Mbias → Reading) (target error : UInt16)

/-- The reading is too low, or too high, by the bound at least. -/
def TooLow (m : Mbias) : Prop := (f m).val ≤ target.toNat ∧ error.toNat ≤ target.toNat - (f m).val

def TooHigh (m : Mbias) : Prop := target.toNat < (f m).val ∧ error.toNat ≤ (f m).val - target.toNat

variable {f target error}

theorem mbias_toNat (m : Mbias) : (UInt8.ofNat m.val).toNat = m.val := by
  have hm : m.val < 64 := m.isLt
  rw [UInt8.toNat_ofNat', Nat.mod_eq_of_lt (by omega)]

theorem loop_low (m : Mbias) (h : TooLow f target error m) (fuel : Nat) :
    tuneLoop f target error (fuel + 1) (UInt8.ofNat m.val) = tuneLoop f target error fuel (UInt8.ofNat (m.val + 1)) := by
  have hnext : UInt8.ofNat m.val + 1 = UInt8.ofNat (m.val + 1) := by
    rw [UInt8.ofNat_add]
    rfl
  obtain ⟨hle, hfar⟩ := h
  rw [tuneLoop]
  simp only [mbias_toNat, m.isLt, dif_pos, Fin.eta]
  rw [if_neg (by omega), if_neg (by omega), hnext]

theorem loop_high (m : Mbias) (h : TooHigh f target error m) (fuel : Nat) :
    tuneLoop f target error (fuel + 1) (UInt8.ofNat m.val) = tuneLoop f target error fuel (UInt8.ofNat m.val - 1) := by
  obtain ⟨hlt, hfar⟩ := h
  rw [tuneLoop]
  simp only [mbias_toNat, m.isLt, dif_pos, Fin.eta]
  rw [if_pos (by omega), if_neg (by omega)]

theorem loop_near (m : Mbias) (hlow : ¬ TooLow f target error m) (hhigh : ¬ TooHigh f target error m) (fuel : Nat) :
    tuneLoop f target error (fuel + 1) (UInt8.ofNat m.val) = some (UInt8.ofNat m.val) := by
  unfold TooLow at hlow
  unfold TooHigh at hhigh
  rw [tuneLoop]
  simp only [mbias_toNat, m.isLt, dif_pos, Fin.eta]
  by_cases habove : (f m).val > target.toNat
  · rw [if_pos habove, if_pos (by omega)]
  · rw [if_neg habove, if_pos (by omega)]

theorem loop_past {mbias : UInt8} (h : mbiasMaxValue ≤ mbias.toNat) (fuel : Nat) :
    tuneLoop f target error (fuel + 1) mbias = some mbias := by
  rw [tuneLoop, dif_neg (by omega)]

/-! ## The whole loop -/

/-- Up through biases that are too low. -/
theorem loop_climbs {n : Nat} (hn : n ≤ mbiasMaxValue) (hlow : ∀ m : Mbias, m.val < n → TooLow f target error m) (fuel : Nat) :
    tuneLoop f target error (fuel + n) 0 = tuneLoop f target error fuel (UInt8.ofNat n) := by
  induction n generalizing fuel with
  | zero => rfl
  | succ n ih =>
    have hstep := loop_low ⟨n, hn⟩ (hlow ⟨n, hn⟩ (Nat.lt_succ_self n)) fuel
    rw [← hstep, ← ih (Nat.le_of_succ_le hn) (fun m hm => hlow m (Nat.lt_succ_of_lt hm)), Nat.add_right_comm, Nat.add_assoc]

/-- Between one that is too low and one that is too high the loop goes to and fro. -/
theorem loop_swings {m n : Mbias} (hn : n.val = m.val + 1) (hlow : TooLow f target error m) (hhigh : TooHigh f target error n)
    (fuel : Nat) :
    tuneLoop f target error fuel (UInt8.ofNat m.val) = none ∧ tuneLoop f target error fuel (UInt8.ofNat n.val) = none := by
  have hback : UInt8.ofNat n.val - 1 = UInt8.ofNat m.val := by
    rw [hn, UInt8.ofNat_add]
    exact UInt8.add_sub_cancel _ _
  induction fuel with
  | zero => exact ⟨rfl, rfl⟩
  | succ fuel ih =>
    rw [loop_low m hlow, loop_high n hhigh, ← hn, hback]
    exact ⟨ih.2, ih.1⟩

/-- Where the first bias that is not too low is too high and not 0, no fuel suffices. -/
theorem loop_diverges {m n : Mbias} (hn : n.val = m.val + 1) (hbelow : ∀ k : Mbias, k.val ≤ m.val → TooLow f target error k)
    (hhigh : TooHigh f target error n) (fuel : Nat) : tuneLoop f target error fuel 0 = none := by
  have hbelow' : ∀ k : Mbias, k.val < n.val → TooLow f target error k := fun k hk => hbelow k (by omega)
  by_cases hfuel : fuel ≤ n.val
  · have hclimb := loop_climbs (hfuel.trans n.isLt.le) (fun k hk => hbelow' k (hk.trans_le hfuel)) 0
    rw [Nat.zero_add] at hclimb
    rw [hclimb]
    rfl
  · obtain ⟨rest, rfl⟩ := Nat.exists_eq_add_of_le' (not_le.mp hfuel).le
    rw [loop_climbs n.isLt.le hbelow']
    exact (loop_swings hn (hbelow m (le_refl _)) hhigh rest).2

theorem near_of {m : Mbias} (hlow : ¬ TooLow f target error m) (hhigh : ¬ TooHigh f target error m) :
    gap (f m) target ≤ error.toNat := by
  unfold TooLow at hlow
  unfold TooHigh at hhigh
  unfold gap
  omega

theorem not_near_of {m : Mbias} (h : TooLow f target error m ∨ TooHigh f target error m) : ¬ gap (f m) target < error.toNat := by
  unfold gap
  rcases h with ⟨hle, hfar⟩ | ⟨hlt, hfar⟩
  · omega
  · omega

theorem tooLow_mono (hf : Monotone f) {m n : Mbias} (h : m ≤ n) (hlow : TooLow f target error n) : TooLow f target error m := by
  have hle : (f m).val ≤ (f n).val := hf h
  obtain ⟨hbelow, hfar⟩ := hlow
  exact ⟨by omega, by omega⟩

theorem tooHigh_mono (hf : Monotone f) {m n : Mbias} (h : m ≤ n) (hhigh : TooHigh f target error m) :
    TooHigh f target error n := by
  have hle : (f m).val ≤ (f n).val := hf h
  obtain ⟨habove, hfar⟩ := hhigh
  exact ⟨by omega, by omega⟩

end

/-! ## The search -/

/-- The search ends, with a bias within the bound or, where none is strictly within it, with
    one that does not exist. -/
def TuneCorrect (s : Sensor) (channel : Channel) (target error : UInt16) : Prop :=
  ∃ fuel r, ctcTuneMbias s channel target error fuel = some r ∧
    ((∃ h : r.toNat < mbiasMaxValue, gap (s.response channel ⟨r.toNat, h⟩) target ≤ error.toNat) ∨
      (mbiasMaxValue ≤ r.toNat ∧ ∀ m, ¬ gap (s.response channel m) target < error.toNat))

/-- The first bias that is not too low is not too high, unless it is the very first and none
    is within the bound. -/
def Clear (f : Mbias → Reading) (target error : UInt16) : Prop :=
  ∀ m, (∀ k : Mbias, k.val < m.val → TooLow f target error k) → TooHigh f target error m →
    m.val = 0 ∧ ∀ k, ¬ gap (f k) target < error.toNat

/-- All biases are too low, or there is a first one that is not. -/
theorem first_not_low (f : Mbias → Reading) (target error : UInt16) :
    (∀ m, TooLow f target error m) ∨ ∃ m, ¬ TooLow f target error m ∧ ∀ k : Mbias, k.val < m.val → TooLow f target error k := by
  by_cases hall : ∀ m, TooLow f target error m
  · exact Or.inl hall
  · push Not at hall
    obtain ⟨m, hm, hmin⟩ := WellFounded.has_min (wellFounded_lt : WellFounded ((· < ·) : Mbias → Mbias → Prop))
      {m | ¬ TooLow f target error m} hall
    exact Or.inr ⟨m, hm, fun k hk => not_not.mp fun hno => hmin k hno hk⟩

/-- If the first bias is too high, the bias goes below 0. -/
theorem loop_falls {f : Mbias → Reading} {target error : UInt16} {m : Mbias} (h0 : m.val = 0) (hhigh : TooHigh f target error m)
    (fuel : Nat) : tuneLoop f target error (fuel + 2) 0 = some 255 := by
  have hfirst := loop_high m hhigh (fuel + 1)
  rw [h0] at hfirst
  exact hfirst.trans (loop_past (by decide) fuel)

/-- There is no other result then. -/
theorem fallen {f : Mbias → Reading} {target error : UInt16} {fuel : Nat} {r : UInt8}
    (hrun : tuneLoop f target error fuel 0 = some r)
    {m : Mbias} (h0 : m.val = 0) (hhigh : TooHigh f target error m) : r = 255 := by
  rcases fuel with _ | _ | fuel
  · cases hrun
  · have hfirst := loop_high m hhigh 0
    rw [h0] at hfirst
    rw [show (0 : UInt8) = UInt8.ofNat 0 from rfl, hfirst] at hrun
    cases hrun
  · rw [loop_falls h0 hhigh fuel] at hrun
    exact (Option.some.inj hrun).symm

theorem loop_correct {f : Mbias → Reading} {target error : UInt16} (hclear : Clear f target error) :
    ∃ fuel r, tuneLoop f target error fuel 0 = some r ∧
      ((∃ h : r.toNat < mbiasMaxValue, gap (f ⟨r.toNat, h⟩) target ≤ error.toNat) ∨
        (mbiasMaxValue ≤ r.toNat ∧ ∀ m, ¬ gap (f m) target < error.toNat)) := by
  rcases first_not_low f target error with hall | ⟨m, hm, hbelow⟩
  · -- through all of them, and out at the top
    refine ⟨1 + mbiasMaxValue, UInt8.ofNat mbiasMaxValue, ?_, Or.inr ⟨by decide, fun m => not_near_of (Or.inl (hall m))⟩⟩
    rw [loop_climbs (le_refl _) (fun m _ => hall m)]
    exact loop_past (by decide) 0
  · by_cases hhigh : TooHigh f target error m
    · obtain ⟨h0, hnone⟩ := hclear m hbelow hhigh
      exact ⟨2, 255, loop_falls h0 hhigh 0, Or.inr ⟨by decide, hnone⟩⟩
    · refine ⟨1 + m.val, UInt8.ofNat m.val, ?_, Or.inl ⟨by rw [mbias_toNat]; exact m.isLt, ?_⟩⟩
      · rw [loop_climbs m.isLt.le hbelow]
        exact loop_near m hm hhigh 0
      · simp only [mbias_toNat, Fin.eta]
        exact near_of hm hhigh

/-- A first bias that is too high, above 0, keeps the loop going. -/
theorem clear_zero {f : Mbias → Reading} {target error : UInt16} {fuel : Nat} {r : UInt8}
    (hrun : tuneLoop f target error fuel 0 = some r) {m : Mbias} (hbelow : ∀ k : Mbias, k.val < m.val → TooLow f target error k)
    (hhigh : TooHigh f target error m) : m.val = 0 := by
  by_contra hne
  have hlt : m.val - 1 < mbiasMaxValue := lt_of_le_of_lt (Nat.sub_le _ _) m.isLt
  have hprev : m.val = (⟨m.val - 1, hlt⟩ : Mbias).val + 1 := by
    show m.val = m.val - 1 + 1
    omega
  rw [loop_diverges hprev (fun k hk => hbelow k (by omega)) hhigh fuel] at hrun
  cases hrun

/-- The search is correct exactly when the programmed bias is within the bound already, or
    the biases are clear of a jump. -/
theorem tune_correct_iff (s : Sensor) (channel : Channel) (target error : UInt16) :
    TuneCorrect s channel target error ↔
      gap (s.response channel (s.programmed channel)) target ≤ error.toNat ∨ Clear (s.response channel) target error := by
  unfold TuneCorrect ctcTuneMbias
  by_cases hnow : gap (s.response channel (s.programmed channel)) target ≤ error.toNat
  · refine iff_of_true ⟨0, UInt8.ofNat (s.programmed channel).val, if_neg (not_lt.mpr hnow), Or.inl ⟨?_, ?_⟩⟩ (Or.inl hnow)
    · rw [mbias_toNat]
      exact (s.programmed channel).isLt
    · simp only [mbias_toNat, Fin.eta]
      exact hnow
  · simp only [if_pos (not_le.mp hnow)]
    rw [or_iff_right hnow]
    constructor
    · intro h m hbelow hhigh
      obtain ⟨fuel, r, hrun, hr⟩ := h
      have h0 := clear_zero hrun hbelow hhigh
      refine ⟨h0, ?_⟩
      obtain rfl := fallen hrun h0 hhigh
      rcases hr with ⟨hlt, -⟩ | ⟨-, hnone⟩
      · exact absurd hlt (by decide)
      · exact hnone
    · exact loop_correct

/-- No two neighbours are one too low and one too high. -/
def NoJump (f : Mbias → Reading) (target error : UInt16) : Prop :=
  ∀ m n : Mbias, n.val = m.val + 1 → ¬ (TooLow f target error m ∧ TooHigh f target error n)

theorem clear_iff_noJump {f : Mbias → Reading} (hf : Monotone f) (target error : UInt16) :
    Clear f target error ↔ NoJump f target error := by
  constructor
  · intro hclear m n hn hjump
    have hbelow : ∀ k : Mbias, k.val < n.val → TooLow f target error k := by
      intro k hk
      exact tooLow_mono hf (Fin.le_def.mpr (by omega)) hjump.1
    have := (hclear n hbelow hjump.2).1
    omega
  · intro hjump m hbelow hhigh
    have h0 : m.val = 0 := by
      by_contra hne
      have hlt : m.val - 1 < mbiasMaxValue := lt_of_le_of_lt (Nat.sub_le _ _) m.isLt
      have hlow := hbelow ⟨m.val - 1, hlt⟩ (by show m.val - 1 < m.val; omega)
      exact hjump ⟨m.val - 1, hlt⟩ m (by show m.val = m.val - 1 + 1; omega) ⟨hlow, hhigh⟩
    refine ⟨h0, fun k => not_near_of (Or.inr (tooHigh_mono hf ?_ hhigh))⟩
    rw [Fin.le_def, h0]
    exact Nat.zero_le _

/-- A reading that is 0 for the lower half of the biases and 4095 for the upper one. -/
def steepSensor : Sensor := ⟨fun _ m => if m.val < 32 then 0 else 4095, fun _ => 0⟩

theorem steep_monotone : Monotone (steepSensor.response 0) := by
  intro m n h
  unfold steepSensor
  dsimp only
  split
  · exact Fin.zero_le _
  · rename_i hm
    rw [if_neg (by have := Fin.le_def.mp h; omega)]

/-- For such a sensor the search never ends. -/
theorem steep_sensor_diverges :
    Monotone (steepSensor.response 0) ∧ (∀ fuel, ctcTuneMbias steepSensor 0 3300 300 fuel = none) ∧
      ¬ TuneCorrect steepSensor 0 3300 300 := by
  have hlow : ∀ k : Mbias, k.val ≤ 31 → TooLow (steepSensor.response 0) 3300 300 k := by
    intro k hk
    have hzero : (steepSensor.response 0 k).val = 0 := by
      unfold steepSensor
      dsimp only
      rw [if_pos (by omega)]
      rfl
    rw [TooLow, hzero]
    decide
  have hnone : ∀ fuel, ctcTuneMbias steepSensor 0 3300 300 fuel = none := by
    intro fuel
    rw [ctcTuneMbias, if_pos (by decide)]
    exact loop_diverges (m := ⟨31, by decide⟩) (n := ⟨32, by decide⟩) rfl hlow ⟨by decide, by decide⟩ fuel
  refine ⟨steep_monotone, hnone, ?_⟩
  rintro ⟨fuel, r, hrun, -⟩
  rw [hnone] at hrun
  cases hrun

end AmebaLinux.Cmds.Captouch.Tune
