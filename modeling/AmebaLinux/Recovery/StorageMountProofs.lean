/-
  AmebaLinux.Recovery.StorageMountProofs — what the mount state machine keeps over any
  sequence of uevents (see `AmebaLinux.Recovery.StorageMount`).

  `Effect` says what one event can do: which calls it makes and which state it leaves.
  Adding sets the state whatever it was, and a removed USB disk only sets it, so a mounted
  storage can be left without `umount` and without a report.

  Proved:
  - `mounts_nest_iff`: `do_mount` is never called on a mount that is still there exactly
    when, while one is, no added disk or partition brings the state to idle
    (`replugged_disk_nests`).
-/

import AmebaLinux.Recovery.StorageMount

namespace AmebaLinux.Recovery.Storage

open AmebaLinux.Lib.Machine (Along)

/-! ## The state -/

/-- What a change of the state reports. -/
def reported (old new : State) : List Call := if new = .mounted ∧ old ≠ .mounted then [.report .mount] else []

theorem setState_eq {s : St} (hr : s.retryMountNum = false) (state : State) :
    setState state s = { s with storageState := state, log := s.log ++ reported s.storageState state } := by
  unfold setState reported reportMessage
  by_cases hsame : s.storageState = state
  · rw [if_pos hsame, if_neg (by rw [hsame]; exact fun h => h.2 h.1), List.append_nil, ← hsame]
  · have hkeep : (if s.storageState = .pending ∧ state ≠ .idle then { s with retryMountNum := false } else s) = s := by
      split
      · rw [← hr]
      · rfl
    rw [if_neg hsame, hkeep]
    by_cases hm : state = .mounted
    · rw [if_pos hm, if_pos ⟨hm, hm ▸ hsame⟩]
      rfl
    · rw [if_neg hm, if_neg (fun h => hm h.1), List.append_nil]

/-- A state other than mounted is set without a report. -/
theorem setState_quiet {s : St} (hr : s.retryMountNum = false) {state : State} (hne : state ≠ .mounted) :
    setState state s = { s with storageState := state } := by
  rw [setState_eq hr, reported, if_neg (fun h => hne h.1), List.append_nil]

/-! ## Mounting -/

theorem doMount_eq (e : Env) (dev : Dev) (s : St) :
    ∃ n ok, doMount e dev s = (ok, { s with mounts := n, log := s.log ++ [.mount dev ok] }) := by
  unfold doMount
  dsimp only
  split
  · exact ⟨_, _, rfl⟩
  · exact ⟨_, _, rfl⟩

/-- A device is mounted after some that cannot be, or none is. -/
theorem tryNodes_cases (e : Env) (devs : List Dev) {s : St} (hs : s.storageState = .idle)
    (hr : s.retryMountNum = false) :
    (∃ failed dev rest n, devs = failed ++ dev :: rest ∧
      tryNodes e devs s =
        { s with storageState := .mounted, currentMountKdev := dev, mounts := n,
                 log := s.log ++ (failed.map (.mount · false) ++ [.mount dev true, .report .mount]) }) ∨
    ∃ n, tryNodes e devs s = { s with mounts := n, log := s.log ++ devs.map (.mount · false) } := by
  induction devs generalizing s with
  | nil =>
    refine Or.inr ⟨s.mounts, ?_⟩
    rw [tryNodes, setState, if_pos hs, List.map_nil, List.append_nil]
  | cons dev devs ih =>
    obtain ⟨n, ok, hone⟩ := doMount_eq e dev s
    cases ok with
    | true =>
      refine Or.inl ⟨[], dev, devs, n, rfl, ?_⟩
      rw [tryNodes, hone]
      dsimp only
      rw [setState_eq (by exact hr)]
      simp [reported, hs]
    | false =>
      have hnext : tryNodes e (dev :: devs) s =
          tryNodes e devs { s with mounts := n, log := s.log ++ [.mount dev false] } := by
        rw [tryNodes, hone]
      rcases ih (s := { s with mounts := n, log := s.log ++ [.mount dev false] }) hs hr with
        ⟨failed, dev', rest, m, hdevs, hrun⟩ | ⟨m, hrun⟩
      · refine Or.inl ⟨dev :: failed, dev', rest, m, by rw [hdevs]; rfl, ?_⟩
        rw [hnext, hrun]
        simp
      · refine Or.inr ⟨m, ?_⟩
        rw [hnext, hrun]
        simp

theorem mountVolume_cases (e : Env) {s : St} (hr : s.retryMountNum = false) (hs : s.storageState = .idle) :
    (∃ failed dev rest n, devices e s = failed ++ dev :: rest ∧
      mountVolume e s =
        { s with storageState := .mounted, currentMountKdev := dev, mounts := n,
                 log := s.log ++ .attempt (devices e s) :: (failed.map (.mount · false) ++ [.mount dev true, .report .mount]) }) ∨
    ∃ n, mountVolume e s =
      { s with mounts := n, log := s.log ++ .attempt (devices e s) :: (devices e s).map (.mount · false) } := by
  unfold mountVolume
  rw [if_neg (not_not.mpr hs)]
  dsimp only
  rcases tryNodes_cases e (devices e s) (s := s.call (.attempt (devices e s))) hs hr with
    ⟨failed, dev, rest, n, hdevs, hrun⟩ | ⟨n, hrun⟩
  · exact Or.inl ⟨failed, dev, rest, n, hdevs, by rw [hrun]; simp [St.call]⟩
  · exact Or.inr ⟨n, by rw [hrun]; simp [St.call]⟩

theorem devices_ne_nil (e : Env) {s : St} (h : 0 ≤ s.diskNumParts) : devices e s ≠ [] := by
  unfold devices getDeviceNodes
  by_cases h0 : s.diskNumParts = 0
  · simp [h0]
  · rw [if_neg h0]
    simp only [ne_eq, List.map_eq_nil_iff, List.range_eq_nil]
    omega

/-! ## Adding -/

/-- The number of partitions a disk announces, or is taken to have. -/
def announced (u : Uevent) : Int := u.nparts.getD (if u.source = .sdcard then 0 else 1)

/-- The partition is accepted and leaves nothing pending. -/
structure Completes (e : Env) (s : St) (u : Uevent) : Prop where
  low : 1 ≤ u.partn.getD 1
  high : u.partn.getD 1 ≤ storageMaxPartitions
  major : u.major = s.diskMajor
  last : s.pendingPartMap &&& ~~~bit e (u.partn.getD 1).toNat = 0

/-- An added disk or partition after which the state is idle, so that it is mounted. -/
structure BringsIdle (e : Env) (s : St) (u : Uevent) : Prop where
  known : u.source ≠ .other
  add : u.action = .add
  idle : if u.disk then announced u = 0 else Completes e s u ∨ s.storageState = .idle

/-- What the handlers of added disks and partitions leave alone, and when they lead to
    the idle state. -/
structure Added (e : Env) (s : St) (u : Uevent) (s' : St) : Prop where
  log : s'.log = s.log
  retry : s'.retryMountNum = false
  parts : s'.storageState = .idle ∨ s'.storageState = .mounted → 0 ≤ s'.diskNumParts
  slots : s'.partMinors.length = s.partMinors.length
  idle : s'.storageState = .idle ↔ if u.disk then announced u = 0 else Completes e s u ∨ s.storageState = .idle
  state : s'.storageState = s.storageState ∨ s'.storageState = .idle ∨ s'.storageState = .pending

/-- What holds of every reachable state. -/
structure Inv (s : St) : Prop where
  retry : s.retryMountNum = false
  settled : s.storageState ≠ .unmounting
  parts : s.storageState = .idle ∨ s.storageState = .mounted → 0 ≤ s.diskNumParts
  slots : s.partMinors.length = storageMaxPartitions

theorem diskAdded_added (e : Env) {s : St} {u : Uevent} (hr : s.retryMountNum = false) (hd : u.disk = true)
    (hn : numParts s u = announced u) : Added e s u (handleDiskAdded e u s) := by
  have hidle : (if u.disk then announced u = 0 else Completes e s u ∨ s.storageState = .idle) ↔ announced u = 0 := by
    rw [if_pos hd]
  unfold handleDiskAdded
  rw [hn]
  dsimp only
  by_cases h0 : announced u = 0
  · rw [if_pos h0, setState_quiet (by exact hr) (by decide)]
    exact ⟨rfl, hr, fun _ => h0.ge, rfl, by rw [hidle]; simp [h0], Or.inr (Or.inl rfl)⟩
  · rw [if_neg h0, setState_quiet (by exact hr) (by decide)]
    exact ⟨rfl, hr, by simp, rfl, by rw [hidle]; simp [h0], Or.inr (Or.inr rfl)⟩

/-- The entry of `part_minors` that a partition fills. -/
def noteMinor (n minor : Int) (minors : List Int) : List Int :=
  if n ≥ storageMaxPartitions then minors else minors.set (n - 1).toNat minor

theorem noteMinor_length (n minor : Int) (minors : List Int) : (noteMinor n minor minors).length = minors.length := by
  unfold noteMinor
  split
  · rfl
  · exact List.length_set

/-- The state once a partition of the disk is recorded. -/
def recorded (e : Env) (n minor : Int) (s : St) : St :=
  { s with diskNumParts := max s.diskNumParts n, partMinors := noteMinor n minor s.partMinors,
           pendingPartMap := s.pendingPartMap &&& ~~~bit e n.toNat }

theorem handlePartitionAdded_eq (e : Env) (u : Uevent) {s : St} (hr : s.retryMountNum = false) :
    handlePartitionAdded e u s =
      if u.partn.getD 1 > storageMaxPartitions ∨ u.partn.getD 1 < 1 then s
      else if u.major ≠ s.diskMajor then { s with diskNumParts := max s.diskNumParts (u.partn.getD 1) }
      else if (recorded e (u.partn.getD 1) u.minor s).pendingPartMap = 0 then
        { recorded e (u.partn.getD 1) u.minor s with storageState := .idle }
      else recorded e (u.partn.getD 1) u.minor s := by
  generalize hn : u.partn.getD 1 = n
  have hraise : (if n > s.diskNumParts then { s with diskNumParts := n } else s) =
      { s with diskNumParts := max s.diskNumParts n } := by
    split
    case isTrue h => rw [max_eq_right h.le]
    case isFalse h => rw [max_eq_left (not_lt.mp h)]
  have hnote : ∀ s : St, (if n ≥ storageMaxPartitions then s
      else { s with partMinors := s.partMinors.set (n - 1).toNat u.minor }) =
      { s with partMinors := noteMinor n u.minor s.partMinors } := by
    intro s
    unfold noteMinor
    split <;> rfl
  unfold handlePartitionAdded
  rw [hn]
  dsimp only
  rw [hraise, hnote]
  refine if_congr Iff.rfl rfl (if_congr Iff.rfl rfl ?_)
  by_cases hlast : (recorded e n u.minor s).pendingPartMap = 0
  · rw [if_pos hlast]
    refine (if_pos hlast).trans ?_
    rw [setState_quiet (by exact hr) (by decide)]
    exact if_neg (by simp [hr])
  · rw [if_neg hlast]
    exact if_neg hlast

theorem partitionAdded_added (e : Env) {s : St} {u : Uevent} (hs : Inv s) (hd : u.disk = false) :
    Added e s u (handlePartitionAdded e u s) := by
  have hidle : (if u.disk then announced u = 0 else Completes e s u ∨ s.storageState = .idle) ↔
      Completes e s u ∨ s.storageState = .idle := by
    rw [hd, if_neg Bool.false_ne_true]
  rw [handlePartitionAdded_eq e u hs.retry]
  by_cases hrange : u.partn.getD 1 > storageMaxPartitions ∨ u.partn.getD 1 < 1
  · rw [if_pos hrange]
    have hno : ¬ Completes e s u := by
      intro h
      have := h.low
      have := h.high
      omega
    exact ⟨rfl, hs.retry, hs.parts, rfl, by rw [hidle]; simp [hno], Or.inl rfl⟩
  · rw [if_neg hrange]
    have hparts : ∀ st : State, (st = .idle ∨ st = .mounted → 0 ≤ max s.diskNumParts (u.partn.getD 1)) := by
      intro st _
      omega
    by_cases hmajor : u.major ≠ s.diskMajor
    · rw [if_pos hmajor]
      have hno : ¬ Completes e s u := fun h => hmajor h.major
      exact ⟨rfl, hs.retry, hparts _, rfl, by rw [hidle]; simp [hno], Or.inl rfl⟩
    · rw [if_neg hmajor]
      by_cases hlast : (recorded e (u.partn.getD 1) u.minor s).pendingPartMap = 0
      · rw [if_pos hlast]
        have hyes : Completes e s u := ⟨by omega, by omega, not_not.mp hmajor, hlast⟩
        exact ⟨rfl, hs.retry, hparts _, noteMinor_length _ _ _, by rw [hidle]; simp [hyes], Or.inr (Or.inl rfl)⟩
      · rw [if_neg hlast]
        have hno : ¬ Completes e s u := fun h => hlast h.last
        exact ⟨rfl, hs.retry, hparts _, noteMinor_length _ _ _, by rw [hidle]; simp [hno, recorded], Or.inl rfl⟩

/-! ## Removing -/

theorem doUnmount_cases (e : Env) (retries : Nat) (s : St) :
    (∃ k ok n, doUnmount e retries s =
      (true, { s with umounts := n, log := s.log ++ (List.replicate k (.umount false) ++ [.umount ok]) })) ∨
    ∃ k n, doUnmount e retries s = (false, { s with umounts := n, log := s.log ++ List.replicate k (.umount false) }) := by
  induction retries generalizing s with
  | zero => exact Or.inr ⟨0, s.umounts, by simp [doUnmount]⟩
  | succ retries ih =>
    rw [doUnmount]
    split
    case isTrue h => exact Or.inl ⟨0, _, _, rfl⟩
    case isFalse h =>
      have hno : decide (e.umount s.umounts = .ok) = false := decide_eq_false fun hok => h (Or.inl hok)
      rw [hno]
      rcases ih ({ s with umounts := s.umounts + 1 }.call (.umount false)) with ⟨k, ok, n, hrun⟩ | ⟨k, n, hrun⟩
      · refine Or.inl ⟨k + 1, ok, n, ?_⟩
        rw [hrun]
        simp [St.call, List.replicate_succ]
      · refine Or.inr ⟨k + 1, n, ?_⟩
        rw [hrun]
        simp [St.call, List.replicate_succ]

/-- A storage is unmounted and reported so, or stays mounted and is reported again. -/
theorem unmountVolume_cases (e : Env) {s : St} (hr : s.retryMountNum = false) (hm : s.storageState = .mounted) :
    (∃ k ok n, unmountVolume e s =
      { s with storageState := .idle, currentMountKdev := -1, umounts := n,
               log := s.log ++ (List.replicate k (.umount false) ++ [.umount ok, .report .unmount]) }) ∨
    ∃ k n, unmountVolume e s =
      { s with umounts := n, log := s.log ++ (List.replicate k (.umount false) ++ [.report .mount]) } := by
  unfold unmountVolume
  rw [if_neg (not_not.mpr hm), setState_quiet hr (by decide)]
  rcases doUnmount_cases e 10 { s with storageState := .unmounting } with ⟨k, ok, n, hrun⟩ | ⟨k, n, hrun⟩
  · refine Or.inl ⟨k, ok, n, ?_⟩
    rw [hrun]
    dsimp only
    rw [setState_quiet (by exact hr) (by decide)]
    simp [St.call]
  · refine Or.inr ⟨k, n, ?_⟩
    rw [hrun]
    dsimp only
    rw [setState_eq (by exact hr)]
    simp [reported, hm]

/-! ## One event -/

/-- An added disk or partition, or a removed USB disk. -/
def Exposed (u : Uevent) : Prop :=
  u.source ≠ .other ∧ (u.action = .add ∨ (u.action = .remove ∧ u.disk = true ∧ u.source = .usb))

theorem BringsIdle.exposed {e : Env} {s : St} {u : Uevent} (h : BringsIdle e s u) : Exposed u := ⟨h.known, Or.inl h.add⟩

/-- What an event calls, and the state it leaves. -/
inductive Effect (e : Env) (s : St) (u : Uevent) : List Call → State → Prop
  /-- Nothing is called, and only an added or removed disk changes the state. -/
  | silent {state : State} (quiet : ¬ BringsIdle e s u)
      (left : state = s.storageState ∨ (Exposed u ∧ state ≠ .mounted)) : Effect e s u [] state
  | mounted {failed rest : List Dev} {dev : Dev} (brings : BringsIdle e s u) :
      Effect e s u
        (.attempt (failed ++ dev :: rest) :: (failed.map (.mount · false) ++ [.mount dev true, .report .mount])) .mounted
  | unmountable {dev : Dev} {devs : List Dev} (brings : BringsIdle e s u) :
      Effect e s u (.attempt (dev :: devs) :: (dev :: devs).map (.mount · false)) .idle
  | unmounted {k : Nat} {ok : Bool} (calm : ¬ Exposed u) :
      Effect e s u (List.replicate k (.umount false) ++ [.umount ok, .report .unmount]) .idle
  | stuck {k : Nat} (calm : ¬ Exposed u) :
      Effect e s u (List.replicate k (.umount false) ++ [.report .mount]) .mounted

/-- An event on a state with the invariant. -/
structure Handled (e : Env) (s : St) (u : Uevent) (s' : St) : Prop where
  inv : Inv s'
  effect : ∃ calls, s'.log = s.log ++ calls ∧ Effect e s u calls s'.storageState

theorem Handled.silent {e : Env} {s s' : St} {u : Uevent} (hs' : Inv s') (hlog : s'.log = s.log)
    (quiet : ¬ BringsIdle e s u) (left : s'.storageState = s.storageState ∨ (Exposed u ∧ s'.storageState ≠ .mounted)) :
    Handled e s u s' :=
  ⟨hs', [], by rw [hlog, List.append_nil], .silent quiet left⟩

/-- Where the event comes from is noted in the state first, which changes nothing else. -/
theorem completes_source {e : Env} {s : St} {u : Uevent} (sd : Bool) :
    Completes e { s with isSdcardDev := sd } u ↔ Completes e s u :=
  ⟨fun h => ⟨h.low, h.high, h.major, h.last⟩, fun h => ⟨h.low, h.high, h.major, h.last⟩⟩

theorem bringsIdle_source {e : Env} {s : St} {u : Uevent} (sd : Bool) :
    BringsIdle e { s with isSdcardDev := sd } u ↔ BringsIdle e s u := by
  constructor
  · rintro ⟨hk, ha, hi⟩
    exact ⟨hk, ha, by simpa only [completes_source] using hi⟩
  · rintro ⟨hk, ha, hi⟩
    exact ⟨hk, ha, by simpa only [completes_source] using hi⟩

theorem Handled.of_source {e : Env} {s s' : St} {u : Uevent} {sd : Bool}
    (h : Handled e { s with isSdcardDev := sd } u s') : Handled e s u s' := by
  have hbrings := bringsIdle_source (e := e) (s := s) (u := u) sd
  obtain ⟨hinv, calls, hlog, heffect⟩ := h
  refine ⟨hinv, calls, hlog, ?_⟩
  generalize s'.storageState = state at heffect
  cases heffect with
  | silent quiet left => exact .silent (fun hb => quiet (hbrings.mpr hb)) left
  | mounted brings => exact .mounted (hbrings.mp brings)
  | unmountable brings => exact .unmountable (hbrings.mp brings)
  | unmounted calm => exact .unmounted calm
  | stuck calm => exact .stuck calm

theorem mountVolume_handled (e : Env) {s s1 : St} {u : Uevent} (hlog : s1.log = s.log) (hs1 : Inv s1)
    (hidle : s1.storageState = .idle) (brings : BringsIdle e s u) : Handled e s u (mountVolume e s1) := by
  have hparts := hs1.parts (Or.inl hidle)
  rcases mountVolume_cases e hs1.retry hidle with ⟨failed, dev, rest, n, hdevs, hrun⟩ | ⟨n, hrun⟩
  · rw [hrun, hdevs]
    have heffect : Effect e s u (.attempt (failed ++ dev :: rest) :: (failed.map (.mount · false) ++
        [.mount dev true, .report .mount])) .mounted := .mounted brings
    exact ⟨⟨hs1.retry, by simp, fun _ => hparts, hs1.slots⟩, _, by rw [hlog], heffect⟩
  · rw [hrun]
    obtain ⟨dev, devs, hdevs⟩ := List.exists_cons_of_ne_nil (devices_ne_nil e hparts)
    have heffect : Effect e s u (.attempt (dev :: devs) :: (dev :: devs).map (.mount · false)) s1.storageState := by
      rw [hidle]
      exact .unmountable brings
    exact ⟨⟨hs1.retry, hs1.settled, fun _ => hparts, hs1.slots⟩, _, by rw [hlog, hdevs], heffect⟩

theorem add_handled (e : Env) {s : St} {u : Uevent} (hs : Inv s) (hk : u.source ≠ .other) (ha : u.action = .add) {s1 : St}
    (h : Added e s u s1) : Handled e s u (if s1.storageState = .idle then mountVolume e s1 else s1) := by
  have hs1 : Inv s1 := by
    refine ⟨h.retry, ?_, h.parts, h.slots.trans hs.slots⟩
    rcases h.state with hst | hst | hst
    · rw [hst]
      exact hs.settled
    · rw [hst]
      decide
    · rw [hst]
      decide
  by_cases hidle : s1.storageState = .idle
  · rw [if_pos hidle]
    exact mountVolume_handled e h.log hs1 hidle ⟨hk, ha, h.idle.mp hidle⟩
  · rw [if_neg hidle]
    refine .silent hs1 h.log (fun hb => hidle (h.idle.mpr hb.idle)) ?_
    rcases h.state with hst | hst | hst
    · exact Or.inl hst
    · exact absurd hst hidle
    · exact Or.inr ⟨⟨hk, Or.inl ha⟩, by rw [hst]; decide⟩

theorem removed_handled (e : Env) {s : St} {u : Uevent} (hs : Inv s) (hk : u.source ≠ .other) (ha : u.action = .remove)
    (hsd : s.isSdcardDev = decide (u.source = .sdcard)) : Handled e s u (handleRemoved e u s) := by
  have hquiet : ¬ BringsIdle e s u := by
    intro h
    have := h.add
    rw [ha] at this
    cases this
  unfold handleRemoved
  by_cases hdisk : u.disk = true ∧ (!s.isSdcardDev) = true
  · rw [if_pos hdisk, handleDiskRemoved, setState_quiet hs.retry (by decide)]
    have husb : u.source = .usb := by
      have hno := hdisk.2
      rw [hsd] at hno
      cases hsrc : u.source <;> simp_all
    exact .silent ⟨hs.retry, by simp, by simp, hs.slots⟩ rfl hquiet (Or.inr ⟨⟨hk, Or.inr ⟨ha, hdisk.1, husb⟩⟩, by simp⟩)
  · rw [if_neg hdisk]
    have hcalm : ¬ Exposed u := by
      rintro ⟨-, hadd | ⟨-, hd, husb⟩⟩
      · rw [ha] at hadd
        cases hadd
      · exact hdisk ⟨hd, by simp [hsd, husb]⟩
    unfold handlePartitionRemoved
    by_cases hm : s.storageState = .mounted
    · rw [if_neg (not_not.mpr hm)]
      split
      · rcases unmountVolume_cases e hs.retry hm with ⟨k, ok, n, hrun⟩ | ⟨k, n, hrun⟩
        · rw [hrun]
          exact ⟨⟨hs.retry, by simp, fun _ => hs.parts (Or.inr hm), hs.slots⟩, _, rfl, .unmounted hcalm⟩
        · rw [hrun]
          refine ⟨⟨hs.retry, hs.settled, hs.parts, hs.slots⟩, _, rfl, ?_⟩
          show Effect e s u _ s.storageState
          rw [hm]
          exact .stuck hcalm
      · exact .silent hs rfl hquiet (Or.inl rfl)
    · rw [if_pos hm]
      exact .silent hs rfl hquiet (Or.inl rfl)

theorem checkDevPath_known {u : Uevent} (s : St) (hk : u.source ≠ .other) :
    checkDevPath u s = some { s with isSdcardDev := decide (u.source = .sdcard) } := by
  unfold checkDevPath
  cases hsrc : u.source with
  | sdcard => simp
  | usb => simp
  | other => exact absurd hsrc hk

theorem handleBlockEvent_add (e : Env) {s s1 : St} {u : Uevent} (hk : u.source ≠ .other) (ha : u.action = .add)
    (hs1 : handleAdded e u { s with isSdcardDev := decide (u.source = .sdcard) } = s1) :
    handleBlockEvent e s u = if s1.storageState = .idle then mountVolume e s1 else s1 := by
  unfold handleBlockEvent
  rw [checkDevPath_known s hk]
  dsimp only
  rw [ha]
  dsimp only
  rw [hs1]

theorem handleAdded_added (e : Env) {s : St} {u : Uevent} (hs : Inv s)
    (hsd : s.isSdcardDev = decide (u.source = .sdcard)) : Added e s u (handleAdded e u s) := by
  have hnum : numParts s u = announced u := by simp [numParts, announced, hsd]
  unfold handleAdded
  cases hd : u.disk with
  | true => exact diskAdded_added e hs.retry hd hnum
  | false => exact partitionAdded_added e hs hd

/-- Everything an event can do. -/
theorem handleBlockEvent_handled (e : Env) {s : St} (hs : Inv s) (u : Uevent) : Handled e s u (handleBlockEvent e s u) := by
  by_cases hk : u.source = .other
  · have hsame : handleBlockEvent e s u = s := by simp [handleBlockEvent, checkDevPath, hk]
    rw [hsame]
    exact .silent hs rfl (fun h => h.known hk) (Or.inl rfl)
  · let s0 : St := { s with isSdcardDev := decide (u.source = .sdcard) }
    have hs0 : Inv s0 := ⟨hs.retry, hs.settled, hs.parts, hs.slots⟩
    have hcheck : checkDevPath u s = some s0 := checkDevPath_known s hk
    have hcases : Handled e s0 u (handleBlockEvent e s u) := by
      unfold handleBlockEvent
      rw [hcheck]
      dsimp only
      cases ha : u.action with
      | add =>
        dsimp only
        exact add_handled e hs0 hk ha (handleAdded_added e hs0 rfl)
      | remove => exact removed_handled e hs0 hk ha rfl
      | other =>
        refine .silent hs0 rfl ?_ (Or.inl rfl)
        intro h
        have := h.add
        rw [ha] at this
        cases this
    exact hcases.of_source

theorem inv_start : Inv start := ⟨rfl, by decide, fun _ => le_refl 0, rfl⟩

theorem inv_step (e : Env) (s : St) (u : Uevent) (hs : Inv s) : Inv (handleBlockEvent e s u) :=
  (handleBlockEvent_handled e hs u).inv

theorem inv_run (e : Env) (us : List Uevent) : Inv (run e us) := Lib.Machine.run_invariant (inv_step e) inv_start us

/-! ## Mounts that are still there -/

/-- Whether something is mounted after a call, from what the calls returned. -/
def track (outstanding : Bool) : Call → Bool
  | .mount _ ok => ok || outstanding
  | .umount ok => !ok && outstanding
  | _ => outstanding

def outstanding (log : List Call) : Bool := Lib.Machine.run track false log

/-- No `do_mount` while a mount is still there. -/
def NestFrom (outstanding : Bool) (calls : List Call) : Prop :=
  Along track (fun outstanding c => ∀ dev ok, c = .mount dev ok → outstanding = false) outstanding calls

def NestFree (log : List Call) : Prop := NestFrom false log

theorem nestFree_append (log calls : List Call) :
    NestFree (log ++ calls) ↔ NestFree log ∧ NestFrom (outstanding log) calls := Lib.Machine.along_append

theorem nestFrom_failed (o : Bool) (devs : List Dev) (calls : List Call) :
    NestFrom o (devs.map (.mount · false) ++ calls) ↔ (devs ≠ [] → o = false) ∧ NestFrom o calls := by
  induction devs with
  | nil => simp
  | cons dev devs ih =>
    have hhead : NestFrom o (.mount dev false :: (devs.map (.mount · false) ++ calls)) ↔
        o = false ∧ NestFrom o (devs.map (.mount · false) ++ calls) := by
      simp [NestFrom, Along, track]
    rw [List.map_cons, List.cons_append, hhead, ih]
    constructor
    · rintro ⟨ho, -, hcalls⟩
      exact ⟨fun _ => ho, hcalls⟩
    · rintro ⟨ho, hcalls⟩
      exact ⟨ho (by simp), fun _ => ho (by simp), hcalls⟩

theorem nestFrom_umounts (o : Bool) (k : Nat) (calls : List Call) :
    NestFrom o (List.replicate k (.umount false) ++ calls) ↔ NestFrom o calls := by
  induction k with
  | zero => simp
  | succ k ih => simpa [NestFrom, Along, track, List.replicate_succ] using ih

/-- An event mounts on a mount exactly when it brings the state to idle over one. -/
theorem effect_nestFrom {e : Env} {s : St} {u : Uevent} {calls : List Call} {state : State}
    (h : Effect e s u calls state) (o : Bool) : NestFrom o calls ↔ (o = true → ¬ BringsIdle e s u) := by
  cases h with
  | silent quiet => exact iff_of_true trivial (fun _ => quiet)
  | @mounted failed rest dev brings =>
    have hskip : NestFrom o (.attempt (failed ++ dev :: rest) :: (failed.map (.mount · false) ++
        [.mount dev true, .report .mount])) ↔
        NestFrom o (failed.map (.mount · false) ++ [.mount dev true, .report .mount]) := by
      simp [NestFrom, Along, track]
    have hlast : NestFrom o [.mount dev true, .report .mount] ↔ o = false := by simp [NestFrom, Along]
    rw [hskip, nestFrom_failed, hlast]
    simp +contextual [brings]
  | @unmountable dev devs brings =>
    have hskip : NestFrom o (.attempt (dev :: devs) :: (dev :: devs).map (.mount · false)) ↔
        NestFrom o ((dev :: devs).map (.mount · false) ++ []) := by
      simp [NestFrom, Along, track]
    rw [hskip, nestFrom_failed]
    simp [brings, NestFrom, Along]
  | unmounted calm =>
    rw [nestFrom_umounts]
    exact iff_of_true (by simp [NestFrom, Along]) (fun _ hb => calm hb.exposed)
  | stuck calm =>
    rw [nestFrom_umounts]
    exact iff_of_true (by simp [NestFrom, Along]) (fun _ hb => calm hb.exposed)

/-- Mounts never nest exactly when, while a mount is there, no added disk or partition
    brings the state to idle. -/
theorem mounts_nest_iff (e : Env) (us : List Uevent) :
    NestFree (run e us).log ↔
      Along (handleBlockEvent e) (fun s u => outstanding s.log = true → ¬ BringsIdle e s u) start us := by
  have hstep : ∀ s u, Inv s → (NestFree (handleBlockEvent e s u).log ↔
      NestFree s.log ∧ (outstanding s.log = true → ¬ BringsIdle e s u)) := by
    intro s u hs
    obtain ⟨-, calls, hlog, heffect⟩ := handleBlockEvent_handled e hs u
    rw [hlog, nestFree_append, effect_nestFrom heffect]
  refine (Lib.Machine.run_iff_along (P := fun s => NestFree s.log) (inv_step e) hstep inv_start us).trans ?_
  exact and_iff_right trivial

/-- A disk without partitions, plugged in, pulled out and plugged in again: the second
    `mount` finds the first one still there. -/
def usbDisk (action : Action) : Uevent := ⟨action, .usb, true, 8, 0, some 0, none⟩

def alwaysMounts : Env := ⟨fun _ => .ok, fun _ => .ok, fun _ _ => 0, fun _ => 0⟩

theorem replugged_disk_nests : ¬ NestFree (run alwaysMounts [usbDisk .add, usbDisk .remove, usbDisk .add]).log := by
  have hlog : (run alwaysMounts [usbDisk .add, usbDisk .remove, usbDisk .add]).log =
      [.attempt [2048], .mount 2048 true, .report .mount, .attempt [2048], .mount 2048 true, .report .mount] := by
    decide
  rw [hlog]
  simp [NestFree, NestFrom, Along, track]

end AmebaLinux.Recovery.Storage
