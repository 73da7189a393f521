/-
  AmebaLinux.Recovery.StorageRecorded — which devices `mount_volume` tries, against what
  the uevents announced (see `AmebaLinux.Recovery.StorageMount`).

  The disk's numbers, `disk_num_parts` and `part_minors` depend on the events only
  (`Geometry.note`). `known` is the specification's own reading of the same events: the
  disk that was added last, and the minors its partitions were announced with since.
  `part_minors` is never cleared and `get_device_nodes` returns `disk_num_parts` even
  where it fills four entries, so the two part in three ways: more than four partitions,
  a partition below the highest one that is never announced, and a count that a partition
  of another disk has raised.

  Proved:
  - `mounts_recorded_iff`: every device that is tried was filled in for a partition that
    was announced, or is the whole disk, exactly when every partition that is tried is
    one of the first four and announced (`fifth_entry_unfilled`).
  - `foreign_partition_unchanged_iff`: a rejected partition changes nothing exactly when it is not
    one of another major whose number is above the count (`foreign_partition_counts`).
-/

import AmebaLinux.Recovery.StorageMountProofs

namespace AmebaLinux.Recovery.Storage

/-! ## Rejected partitions -/

/-- `handle_partition_added` does not take the partition. -/
def Rejected (s : St) (u : Uevent) : Prop :=
  (u.partn.getD 1 > storageMaxPartitions ∨ u.partn.getD 1 < 1) ∨ u.major ≠ s.diskMajor

/-- The count is raised before the major is looked at. -/
theorem handlePartitionAdded_foreign (e : Env) {s : St} {u : Uevent}
    (hrange : ¬ (u.partn.getD 1 > storageMaxPartitions ∨ u.partn.getD 1 < 1)) (hmajor : u.major ≠ s.diskMajor) :
    handlePartitionAdded e u s =
      if u.partn.getD 1 > s.diskNumParts then { s with diskNumParts := u.partn.getD 1 } else s := by
  have hkeep : u.major ≠
      (if u.partn.getD 1 > s.diskNumParts then { s with diskNumParts := u.partn.getD 1 } else s).diskMajor := by
    split <;> exact hmajor
  unfold handlePartitionAdded
  dsimp only
  rw [if_neg hrange, if_pos hkeep]

theorem foreign_partition_unchanged_iff (e : Env) (s : St) (u : Uevent) :
    (Rejected s u → handlePartitionAdded e u s = s) ↔
      ¬ (1 ≤ u.partn.getD 1 ∧ u.partn.getD 1 ≤ storageMaxPartitions ∧ u.major ≠ s.diskMajor ∧
        s.diskNumParts < u.partn.getD 1) := by
  by_cases hrange : u.partn.getD 1 > storageMaxPartitions ∨ u.partn.getD 1 < 1
  · refine iff_of_true (fun _ => ?_) (by omega)
    unfold handlePartitionAdded
    exact if_pos hrange
  · have hin : 1 ≤ u.partn.getD 1 ∧ u.partn.getD 1 ≤ storageMaxPartitions := by omega
    by_cases hmajor : u.major = s.diskMajor
    · refine iff_of_true ?_ (fun h => h.2.2.1 hmajor)
      rintro (hout | hne)
      · exact absurd hout hrange
      · exact absurd hmajor hne
    · rw [handlePartitionAdded_foreign e hrange hmajor]
      by_cases hraise : u.partn.getD 1 > s.diskNumParts
      · refine iff_of_false ?_ (fun h => h ⟨hin.1, hin.2, hmajor, hraise⟩)
        intro h
        have hparts := congrArg St.diskNumParts (h (Or.inr hmajor))
        rw [if_pos hraise] at hparts
        exact hraise.ne hparts.symm
      · exact iff_of_true (fun _ => if_neg hraise) (fun h => hraise h.2.2.2)

/-- A disk with one partition; then the second partition of another disk. -/
def oneOfOne : List Uevent := [⟨.add, .usb, true, 8, 0, some 1, none⟩, ⟨.add, .usb, false, 8, 1, none, some 1⟩]

def foreignSecond : Uevent := ⟨.add, .usb, false, 9, 2, none, some 2⟩

theorem foreign_partition_counts :
    let s := run alwaysMounts oneOfOne
    Rejected s foreignSecond ∧ s.diskNumParts = 1 ∧ (handlePartitionAdded alwaysMounts foreignSecond s).diskNumParts = 2 :=
  ⟨Or.inr (by decide), by decide, by decide⟩

/-! ## What the state keeps of a disk -/

/-- The part of the state that `get_device_nodes` reads. -/
structure Geometry where
  major : Int
  minor : Int
  parts : Int
  minors : List Int

def St.geometry (s : St) : Geometry := ⟨s.diskMajor, s.diskMinor, s.diskNumParts, s.partMinors⟩

def Geometry.note (g : Geometry) (u : Uevent) : Geometry :=
  if u.source = .other ∨ u.action ≠ .add then g
  else if u.disk then { g with major := u.major, minor := u.minor, parts := announced u }
  else if u.partn.getD 1 > storageMaxPartitions ∨ u.partn.getD 1 < 1 then g
  else if u.major ≠ g.major then { g with parts := max g.parts (u.partn.getD 1) }
  else { g with parts := max g.parts (u.partn.getD 1), minors := noteMinor (u.partn.getD 1) u.minor g.minors }

@[simp] theorem setState_geometry (state : State) (s : St) : (setState state s).geometry = s.geometry := by
  unfold setState reportMessage
  dsimp only
  repeat' split
  all_goals rfl

theorem tryNodes_geometry (e : Env) (devs : List Dev) (s : St) : (tryNodes e devs s).geometry = s.geometry := by
  induction devs generalizing s with
  | nil => exact setState_geometry .idle s
  | cons dev devs ih =>
    obtain ⟨n, ok, hone⟩ := doMount_eq e dev s
    rw [tryNodes, hone]
    cases ok with
    | true =>
      exact setState_geometry .mounted { s with mounts := n, log := s.log ++ [.mount dev true] }
    | false => exact ih _

theorem mountVolume_geometry (e : Env) (s : St) : (mountVolume e s).geometry = s.geometry := by
  unfold mountVolume
  dsimp only
  split
  · split <;> rfl
  · exact tryNodes_geometry e _ _

theorem doUnmount_geometry (e : Env) (retries : Nat) (s : St) : (doUnmount e retries s).2.geometry = s.geometry := by
  rcases doUnmount_cases e retries s with ⟨k, ok, n, hrun⟩ | ⟨k, n, hrun⟩
  · rw [hrun]
    rfl
  · rw [hrun]
    rfl

theorem unmountVolume_geometry (e : Env) (s : St) : (unmountVolume e s).geometry = s.geometry := by
  have hkeep := doUnmount_geometry e 10 (setState .unmounting s)
  rw [setState_geometry] at hkeep
  unfold unmountVolume
  split
  · rfl
  · rcases hrun : doUnmount e 10 (setState .unmounting s) with ⟨ok, s1⟩
    rw [hrun] at hkeep
    cases ok with
    | true => exact (setState_geometry .idle s1).trans hkeep
    | false => exact (setState_geometry .mounted s1).trans hkeep

theorem handleRemoved_geometry (e : Env) (u : Uevent) (s : St) : (handleRemoved e u s).geometry = s.geometry := by
  unfold handleRemoved handleDiskRemoved handlePartitionRemoved
  split
  · exact setState_geometry .noMedia s
  · split
    · rfl
    · split
      · exact unmountVolume_geometry e s
      · rfl

theorem handleAdded_geometry (e : Env) {u : Uevent} {s : St} (hr : s.retryMountNum = false) (hk : u.source ≠ .other)
    (ha : u.action = .add) (hsd : s.isSdcardDev = decide (u.source = .sdcard)) :
    (handleAdded e u s).geometry = s.geometry.note u := by
  unfold handleAdded Geometry.note
  rw [if_neg (by simp [hk, ha] : ¬ (u.source = .other ∨ u.action ≠ .add))]
  by_cases hd : u.disk
  · rw [if_pos hd, if_pos hd]
    have hnum : numParts s u = announced u := by simp [numParts, announced, hsd]
    unfold handleDiskAdded
    dsimp only
    rw [hnum]
    split
    · exact setState_geometry _ _
    · exact setState_geometry _ _
  · rw [if_neg hd, if_neg hd, handlePartitionAdded_eq e u hr]
    split
    · rfl
    · by_cases hmajor : u.major ≠ s.diskMajor
      · rw [if_pos hmajor, if_pos (show u.major ≠ s.geometry.major from hmajor)]
        rfl
      · rw [if_neg hmajor, if_neg (show ¬ u.major ≠ s.geometry.major from hmajor)]
        split <;> rfl

/-- What the state keeps of a disk depends on the events only. -/
theorem handleBlockEvent_geometry (e : Env) {s : St} (hs : Inv s) (u : Uevent) :
    (handleBlockEvent e s u).geometry = s.geometry.note u := by
  by_cases hk : u.source = .other
  · have hsame : handleBlockEvent e s u = s := by simp [handleBlockEvent, checkDevPath, hk]
    rw [hsame, Geometry.note, if_pos (Or.inl hk)]
  · cases ha : u.action with
    | add =>
      rw [handleBlockEvent_add e hk ha rfl]
      refine Eq.trans ?_ (handleAdded_geometry e (s := { s with isSdcardDev := decide (u.source = .sdcard) }) hs.retry hk ha rfl)
      split
      · exact mountVolume_geometry e _
      · rfl
    | remove =>
      rw [Geometry.note, if_pos (Or.inr (by simp [ha])), handleBlockEvent, checkDevPath_known s hk]
      dsimp only
      rw [ha]
      exact handleRemoved_geometry e u _
    | other =>
      rw [Geometry.note, if_pos (Or.inr (by simp [ha])), handleBlockEvent, checkDevPath_known s hk]
      dsimp only
      rw [ha]
      rfl

/-! ## Which entries are tried -/

/-- The devices that are passed to `do_mount`. -/
def passedTo (log : List Call) : List Dev :=
  log.filterMap fun c => match c with
    | .mount dev _ => some dev
    | _ => none

/-- Whether the `do_mount` that starts with the `n`-th `mount` fails, and the number of
    `mount`s it takes. -/
def fails (e : Env) (n : Nat) : Bool := if e.mount n = .erofs then e.mount (n + 1) ≠ .ok else e.mount n ≠ .ok

def taken (e : Env) (n : Nat) : Nat := if e.mount n = .erofs then 2 else 1

/-- The loop of `mount_volume` that starts with the `n`-th `mount` gets to entry `i`: every
    earlier `do_mount` fails. -/
def Reaches (e : Env) : Nat → Nat → Prop
  | _, 0 => True
  | n, i + 1 => fails e n = true ∧ Reaches e (n + taken e n) i

/-- The entries that are tried. -/
def tries (e : Env) : Nat → List Dev → List Dev
  | _, [] => []
  | n, dev :: devs => dev :: if fails e n then tries e (n + taken e n) devs else []

theorem tries_begin (e : Env) (n : Nat) (devs : List Dev) : tries e n devs <+: devs := by
  induction devs generalizing n with
  | nil => exact List.prefix_rfl
  | cons dev devs ih =>
    rw [tries, List.cons_prefix_cons]
    refine ⟨rfl, ?_⟩
    split
    · exact ih _
    · exact List.nil_prefix

theorem lt_length_tries (e : Env) (n : Nat) (devs : List Dev) (i : Nat) :
    i < (tries e n devs).length ↔ i < devs.length ∧ Reaches e n i := by
  induction devs generalizing n i with
  | nil => simp [tries]
  | cons dev devs ih =>
    rw [tries]
    cases i with
    | zero => simp [Reaches]
    | succ i =>
      rw [List.length_cons, List.length_cons, Nat.succ_lt_succ_iff, Nat.succ_lt_succ_iff, Reaches]
      cases hf : fails e n with
      | true => simpa using ih _ i
      | false => simp

@[simp] theorem setState_passedTo (state : State) (s : St) : passedTo (setState state s).log = passedTo s.log := by
  unfold setState reportMessage
  dsimp only
  repeat' split
  all_goals simp [St.call, passedTo]

theorem doMount_taken (e : Env) (dev : Dev) (s : St) :
    doMount e dev s =
      (!fails e s.mounts, { s with
        mounts := s.mounts + taken e s.mounts
        log := s.log ++ [.mount dev (!fails e s.mounts)] }) := by
  unfold doMount fails taken
  by_cases hro : e.mount s.mounts = .erofs
  · simp [hro, St.call]
  · simp [hro, St.call]

theorem tryNodes_passedTo (e : Env) (devs : List Dev) (s : St) :
    passedTo (tryNodes e devs s).log = passedTo s.log ++ tries e s.mounts devs := by
  induction devs generalizing s with
  | nil => simp [tryNodes, tries]
  | cons dev devs ih =>
    rw [tryNodes, doMount_taken, tries]
    cases fails e s.mounts with
    | true =>
      simp only [Bool.not_true]
      rw [ih]
      simp [passedTo, List.filterMap_append]
    | false =>
      simp only [Bool.not_false]
      rw [setState_passedTo]
      simp [passedTo, List.filterMap_append]

theorem mountVolume_passedTo (e : Env) {s : St} (hs : s.storageState = .idle) :
    passedTo (mountVolume e s).log = passedTo s.log ++ tries e s.mounts (devices e s) := by
  unfold mountVolume
  rw [if_neg (not_not.mpr hs)]
  dsimp only
  rw [tryNodes_passedTo]
  simp [passedTo, St.call]

/-- An event that does not lead to the idle state passes nothing to `do_mount`. -/
theorem quiet_passedTo (e : Env) {s : St} (hs : Inv s) {u : Uevent} (hquiet : ¬ BringsIdle e s u) :
    passedTo (handleBlockEvent e s u).log = passedTo s.log := by
  obtain ⟨-, calls, hlog, heffect⟩ := handleBlockEvent_handled e hs u
  have hnone : passedTo calls = [] := by
    generalize (handleBlockEvent e s u).storageState = state at heffect
    cases heffect with
    | silent => rfl
    | mounted brings => exact absurd brings hquiet
    | unmountable brings => exact absurd brings hquiet
    | unmounted => simp [passedTo, List.filterMap_append]
    | stuck => simp [passedTo, List.filterMap_append]
  rw [hlog, passedTo, List.filterMap_append]
  exact (congrArg _ hnone).trans (List.append_nil _)

/-- The entries `get_device_nodes` fills. -/
def written (s : St) : List Dev := (getDeviceNodes 4 s).1

theorem written_congr {s t : St} (h : s.geometry = t.geometry) : written s = written t := by
  simp only [St.geometry, Geometry.mk.injEq] at h
  obtain ⟨hmajor, hminor, hparts, hminors⟩ := h
  simp [written, getDeviceNodes, hmajor, hminor, hparts, hminors]

theorem written_prefix_devices (e : Env) (s : St) : written s <+: devices e s := by
  unfold written devices getDeviceNodes
  by_cases h0 : s.diskNumParts = 0
  · simp [h0]
  · rw [if_neg h0]
    dsimp only
    rw [List.prefix_iff_eq_take]
    apply List.ext_getElem
    · simp
    · intro i h1 h2
      have hi : i < min s.diskNumParts.toNat 4 := by simpa using h1
      simp [hi]

theorem devices_length (e : Env) (s : St) :
    (devices e s).length = if s.diskNumParts = 0 then 1 else s.diskNumParts.toNat := by
  unfold devices getDeviceNodes
  by_cases h0 : s.diskNumParts = 0
  · simp [h0]
  · simp [h0]

theorem handleAdded_mounts (e : Env) {u : Uevent} {s : St} (hr : s.retryMountNum = false) :
    (handleAdded e u s).mounts = s.mounts := by
  unfold handleAdded
  split
  · unfold handleDiskAdded
    dsimp only
    split
    · rw [setState_quiet (by exact hr) (by decide)]
    · rw [setState_quiet (by exact hr) (by decide)]
  · rw [handlePartitionAdded_eq e u hr]
    repeat' split
    all_goals rfl

/-- The list that is tried, when an event leads to the idle state. -/
structure Attempt (e : Env) (s s' : St) (devs : List Dev) : Prop where
  filled : written s' <+: devs
  count : devs.length = if s'.diskNumParts = 0 then 1 else s'.diskNumParts.toNat
  passed : passedTo s'.log = passedTo s.log ++ tries e s.mounts devs
  parts : 0 ≤ s'.diskNumParts
  media : s'.storageState ≠ .noMedia

theorem brings_attempt (e : Env) {s : St} (hs : Inv s) {u : Uevent} (hb : BringsIdle e s u) :
    ∃ devs, Attempt e s (handleBlockEvent e s u) devs := by
  have hsource := (bringsIdle_source (decide (u.source = .sdcard))).mpr hb
  have hs0 : Inv { s with isSdcardDev := decide (u.source = .sdcard) } := ⟨hs.retry, hs.settled, hs.parts, hs.slots⟩
  have hadded := handleAdded_added e (u := u) hs0 rfl
  have hmounts := handleAdded_mounts e (u := u) hs0.retry
  generalize hs1 : handleAdded e u { s with isSdcardDev := decide (u.source = .sdcard) } = s1 at hadded hmounts
  have hidle : s1.storageState = .idle := hadded.idle.mpr hsource.idle
  have hstep : handleBlockEvent e s u = mountVolume e s1 := by rw [handleBlockEvent_add e hb.known hb.add hs1, if_pos hidle]
  have hgeometry := mountVolume_geometry e s1
  have hparts : (mountVolume e s1).diskNumParts = s1.diskNumParts := congrArg Geometry.parts hgeometry
  rw [hstep]
  refine ⟨devices e s1, ?_, ?_, ?_, ?_, ?_⟩
  · rw [written_congr hgeometry]
    exact written_prefix_devices e s1
  · rw [hparts]
    exact devices_length e s1
  · rw [mountVolume_passedTo e hidle, hadded.log, hmounts]
  · rw [hparts]
    exact hadded.parts (Or.inl hidle)
  · rcases mountVolume_cases e hadded.retry hidle with ⟨failed, dev, rest, n, -, hrun⟩ | ⟨n, hrun⟩
    · rw [hrun]
      exact State.noConfusion
    · rw [hrun]
      show s1.storageState ≠ .noMedia
      rw [hidle]
      decide

/-! ## What was announced -/

/-- A disk, and the partitions announced for it: their numbers and minors. -/
structure Known where
  major : Int
  minor : Int
  parts : List (Int × Int)

def noteKnown (k : Option Known) (u : Uevent) : Option Known :=
  if u.source = .other ∨ u.action ≠ .add then k
  else if u.disk then some ⟨u.major, u.minor, []⟩
  else k.map fun d => if u.major = d.major then { d with parts := (u.partn.getD 1, u.minor) :: d.parts } else d

/-- The disk that was added last. -/
def known (us : List Uevent) : Option Known := Lib.Machine.run noteKnown none us

/-- `part_minors` agrees with what was announced, where something was. -/
structure Holds (k : Option Known) (s : St) : Prop where
  fresh : k = none → s.diskNumParts = 0 → s.storageState = .noMedia
  major : ∀ d, k = some d → d.major = s.diskMajor
  minor : ∀ d, k = some d → d.minor = s.diskMinor
  minors : ∀ d, k = some d → ∀ i : Nat, i + 1 < storageMaxPartitions →
    (∃ m, ((i : Int) + 1, m) ∈ d.parts) → ((i : Int) + 1, s.partMinors.getD i 0) ∈ d.parts

theorem noteMinor_getD {minors : List Int} (hlen : minors.length = storageMaxPartitions) {n : Int} (hn : 1 ≤ n) (minor : Int)
    {i : Nat} (hi : i + 1 < storageMaxPartitions) :
    (noteMinor n minor minors).getD i 0 = if n = (i : Int) + 1 then minor else minors.getD i 0 := by
  unfold noteMinor
  by_cases hlast : n ≥ storageMaxPartitions
  · rw [if_pos hlast, if_neg (by omega)]
  · rw [if_neg hlast]
    by_cases hsame : n = (i : Int) + 1
    · have hindex : (n - 1).toNat = i := by omega
      rw [if_pos hsame, hindex]
      simp [show i < minors.length by omega]
    · have hindex : (n - 1).toNat ≠ i := by omega
      rw [if_neg hsame, List.getD_eq_getElem?_getD, List.getElem?_set_ne hindex, List.getD_eq_getElem?_getD]

/-- A partition that leaves the count at zero is not taken. -/
theorem uncounted_partition (e : Env) {s : St} {u : Uevent} (hk : u.source ≠ .other) (ha : u.action = .add)
    (hd : u.disk = false) (hparts : (s.geometry.note u).parts = 0) : handleAdded e u s = s := by
  have hrange : u.partn.getD 1 > storageMaxPartitions ∨ u.partn.getD 1 < 1 := by
    by_contra hin
    rw [Geometry.note, if_neg (by simp [hk, ha] : ¬ (u.source = .other ∨ u.action ≠ .add)), hd,
      if_neg Bool.false_ne_true, if_neg hin] at hparts
    split at hparts
    all_goals
      dsimp only at hparts
      omega
  unfold handleAdded handlePartitionAdded
  rw [hd, if_neg Bool.false_ne_true]
  exact if_pos hrange

/-- Without a disk, only a partition that is counted leaves the first state. -/
theorem noMedia_step (e : Env) {s : St} {u : Uevent} (h : s.storageState = .noMedia)
    (hdisk : noteKnown none u = none) (hparts : (s.geometry.note u).parts = 0) :
    (handleBlockEvent e s u).storageState = .noMedia := by
  by_cases hk : u.source = .other
  · simpa [handleBlockEvent, checkDevPath, hk] using h
  · cases ha : u.action with
    | add =>
      have hd : u.disk = false := by
        rw [noteKnown, if_neg (by simp [hk, ha] : ¬ (u.source = .other ∨ u.action ≠ .add))] at hdisk
        by_contra hd
        rw [if_pos (by simpa using hd)] at hdisk
        cases hdisk
      rw [handleBlockEvent_add e hk ha (uncounted_partition e hk ha hd hparts)]
      have hmedia : ¬ s.storageState = .idle := by
        rw [h]
        decide
      exact (congrArg St.storageState (if_neg hmedia)).trans h
    | remove =>
      rw [handleBlockEvent, checkDevPath_known s hk]
      dsimp only
      rw [ha]
      simp [handleRemoved, handleDiskRemoved, handlePartitionRemoved, setState, h]
    | other =>
      rw [handleBlockEvent, checkDevPath_known s hk]
      dsimp only
      rw [ha]
      exact h

theorem noteKnown_none {k : Option Known} {u : Uevent} (h : noteKnown k u = none) : k = none := by
  unfold noteKnown at h
  split at h
  · exact h
  · split at h
    · cases h
    · exact Option.map_eq_none_iff.mp h

/-- A count of zero that is not a disk's was there before. -/
theorem note_uncounted {g : Geometry} {u : Uevent} (hdisk : noteKnown none u = none) (h0 : (g.note u).parts = 0) :
    g.parts = 0 := by
  unfold Geometry.note at h0
  unfold noteKnown at hdisk
  split at h0
  case isTrue => exact h0
  case isFalse hadd =>
    rw [if_neg hadd] at hdisk
    split at h0
    case isTrue hd =>
      rw [if_pos hd] at hdisk
      cases hdisk
    case isFalse =>
      split at h0
      case isTrue => exact h0
      case isFalse hin =>
        split at h0
        all_goals
          dsimp only at h0
          omega

/-- A partition other than the one announced last was announced before. -/
theorem announced_before {parts : List (Int × Int)} {n minor i : Int} (hne : n ≠ i)
    (h : ∃ m, (i, m) ∈ (n, minor) :: parts) : ∃ m, (i, m) ∈ parts := by
  obtain ⟨m, hm⟩ := h
  rcases List.mem_cons.mp hm with heq | hm
  · exact absurd (congrArg Prod.fst heq).symm hne
  · exact ⟨m, hm⟩

theorem holds_note {k : Option Known} {s : St} (hs : Inv s) (hk : Holds k s) {u : Uevent} {d : Known}
    (hd : noteKnown k u = some d) :
    d.major = (s.geometry.note u).major ∧ d.minor = (s.geometry.note u).minor ∧
      ∀ i : Nat, i + 1 < storageMaxPartitions → (∃ m, ((i : Int) + 1, m) ∈ d.parts) →
        ((i : Int) + 1, (s.geometry.note u).minors.getD i 0) ∈ d.parts := by
  unfold noteKnown at hd
  unfold Geometry.note
  by_cases hskip : u.source = .other ∨ u.action ≠ .add
  · rw [if_pos hskip] at hd ⊢
    exact ⟨hk.major d hd, hk.minor d hd, hk.minors d hd⟩
  rw [if_neg hskip] at hd ⊢
  by_cases hdisk : u.disk
  · rw [if_pos hdisk] at hd ⊢
    obtain rfl := Option.some.inj hd
    exact ⟨rfl, rfl, by simp⟩
  rw [if_neg hdisk] at hd ⊢
  obtain ⟨d0, hd0, rfl⟩ := Option.map_eq_some_iff.mp hd
  have hmajor : d0.major = s.geometry.major := hk.major d0 hd0
  have hminor : d0.minor = s.geometry.minor := hk.minor d0 hd0
  have hminors := hk.minors d0 hd0
  rw [← hmajor]
  by_cases hsame : u.major = d0.major
  · rw [if_pos hsame]
    by_cases hrange : u.partn.getD 1 > storageMaxPartitions ∨ u.partn.getD 1 < 1
    · -- a number outside 1..32 is announced, but no entry is its
      rw [if_pos hrange]
      refine ⟨hmajor, hminor, ?_⟩
      intro i hi hm
      exact List.mem_cons_of_mem _ (hminors i hi (announced_before (by omega) hm))
    · rw [if_neg hrange, if_neg (not_not.mpr hsame)]
      refine ⟨rfl, hminor, ?_⟩
      intro i hi hm
      dsimp only
      rw [noteMinor_getD (show s.geometry.minors.length = _ from hs.slots) (by omega) _ hi]
      by_cases hn : u.partn.getD 1 = (i : Int) + 1
      · rw [if_pos hn, ← hn]
        exact List.mem_cons_self
      · rw [if_neg hn]
        exact List.mem_cons_of_mem _ (hminors i hi (announced_before hn hm))
  · rw [if_neg hsame, if_pos hsame]
    split
    · exact ⟨hmajor, hminor, hminors⟩
    · exact ⟨rfl, hminor, hminors⟩

theorem holds_step (e : Env) {k : Option Known} {s : St} (hs : Inv s) (hk : Holds k s) (u : Uevent) :
    Holds (noteKnown k u) (handleBlockEvent e s u) := by
  have hgeometry := handleBlockEvent_geometry e hs u
  refine ⟨?_, ?_, ?_, ?_⟩
  · intro hnone h0
    obtain rfl := noteKnown_none hnone
    have hparts : (s.geometry.note u).parts = 0 := (congrArg Geometry.parts hgeometry).symm.trans h0
    exact noMedia_step e (hk.fresh rfl (note_uncounted hnone hparts)) hnone hparts
  · intro d hd
    exact (holds_note hs hk hd).1.trans (congrArg Geometry.major hgeometry).symm
  · intro d hd
    exact (holds_note hs hk hd).2.1.trans (congrArg Geometry.minor hgeometry).symm
  · intro d hd
    have hminors := (holds_note hs hk hd).2.2
    rw [← hgeometry] at hminors
    exact hminors

theorem holds_run (e : Env) (us : List Uevent) : Holds (known us) (run e us) := by
  induction us using List.reverseRecOn with
  | nil => exact ⟨fun _ _ => rfl, nofun, nofun, nofun⟩
  | append_singleton us u ih =>
    unfold known run
    rw [Lib.Machine.run_snoc, Lib.Machine.run_snoc]
    exact holds_step e (inv_run e us) ih u

/-! ## Only recorded partitions -/

/-- The devices passed to `do_mount` between two states. -/
def tried (s s' : St) : List Dev := (passedTo s'.log).drop (passedTo s.log).length

/-- Each was written by `get_device_nodes`, and is the whole disk's or that of an announced
    partition. -/
structure OnlyRecorded (k : Option Known) (s s' : St) : Prop where
  written : tried s s' <+: written s'
  few : (tried s s').length ≤ 4
  events : ∀ (i : Nat) (dev : Dev), (tried s s')[i]? = some dev → ∃ d, k = some d ∧
    ((s'.diskNumParts = 0 ∧ dev = mkdev d.major d.minor) ∨
      ∃ minor, ((i : Int) + 1, minor) ∈ d.parts ∧ dev = mkdev d.major minor)

/-- Every partition of the count that is tried is one of the first four and announced. -/
def Covered (e : Env) (k : Option Known) (s : St) (u : Uevent) : Prop :=
  ∀ i : Nat, (i : Int) < (s.geometry.note u).parts → Reaches e s.mounts i →
    i < 4 ∧ ∃ d minor, noteKnown k u = some d ∧ ((i : Int) + 1, minor) ∈ d.parts

theorem written_length (s : St) : (written s).length = if s.diskNumParts = 0 then 1 else min s.diskNumParts.toNat 4 := by
  unfold written getDeviceNodes
  split <;> simp

theorem written_whole {s : St} (h : s.diskNumParts = 0) : written s = [mkdev s.diskMajor s.diskMinor] := by
  unfold written getDeviceNodes
  rw [if_pos h]

theorem written_partition {s : St} (h : s.diskNumParts ≠ 0) {i : Nat} {dev : Dev} (hdev : (written s)[i]? = some dev) :
    dev = mkdev s.diskMajor (s.partMinors.getD i 0) := by
  unfold written getDeviceNodes at hdev
  rw [if_neg h] at hdev
  rw [List.getElem?_map, Option.map_eq_some_iff] at hdev
  obtain ⟨j, hj, rfl⟩ := hdev
  obtain ⟨hi, rfl⟩ := List.getElem?_eq_some_iff.mp hj
  rw [List.getElem_range]

theorem Attempt.tried_eq {e : Env} {s s' : St} {devs : List Dev} (h : Attempt e s s' devs) :
    tried s s' = tries e s.mounts devs := by
  rw [tried, h.passed, List.drop_left]

theorem Attempt.covered {e : Env} {k : Option Known} {s s' : St} {u : Uevent} {devs : List Dev} (h : Attempt e s s' devs)
    (hparts : s'.diskNumParts = (s.geometry.note u).parts) (hrec : OnlyRecorded (noteKnown k u) s s') : Covered e k s u := by
  intro i hi hreach
  have hne : s'.diskNumParts ≠ 0 := by omega
  have hlen : i < devs.length := by
    rw [h.count, if_neg hne]
    omega
  have hlt : i < (tried s s').length := by
    rw [h.tried_eq]
    exact (lt_length_tries e s.mounts devs i).mpr ⟨hlen, hreach⟩
  refine ⟨hlt.trans_le hrec.few, ?_⟩
  obtain ⟨d, hd, ⟨h0, -⟩ | ⟨minor, hmem, -⟩⟩ := hrec.events i _ (List.getElem?_eq_getElem hlt)
  · exact absurd h0 hne
  · exact ⟨d, minor, hd, hmem⟩

theorem Attempt.recorded {e : Env} {k : Option Known} {s s' : St} {u : Uevent} {devs : List Dev} (h : Attempt e s s' devs)
    (hparts : s'.diskNumParts = (s.geometry.note u).parts) (hk : Holds (noteKnown k u) s') (hcov : Covered e k s u) :
    OnlyRecorded (noteKnown k u) s s' := by
  have hreached : ∀ i, i < (tried s s').length ↔ i < devs.length ∧ Reaches e s.mounts i := by
    rw [h.tried_eq]
    exact lt_length_tries e s.mounts devs
  have hcount := h.count
  have hwritten := written_length s'
  have hshort : (tried s s').length ≤ (written s').length := by
    by_contra hlong
    obtain ⟨hin, hreach⟩ := (hreached _).mp (not_le.mp hlong)
    by_cases h0 : s'.diskNumParts = 0
    · rw [if_pos h0] at hcount hwritten
      omega
    · -- the loop gets to an entry that was not filled: the fifth
      rw [if_neg h0] at hcount hwritten
      have hfour := (hcov _ (by omega) hreach).1
      omega
  have hbegin : tried s s' <+: written s' := by
    refine List.prefix_of_prefix_length_le ?_ h.filled hshort
    rw [h.tried_eq]
    exact tries_begin e s.mounts devs
  refine ⟨hbegin, ?_, ?_⟩
  · refine hshort.trans ?_
    rw [hwritten]
    split <;> omega
  · intro i dev hdev
    have hlt : i < (tried s s').length := (List.getElem?_eq_some_iff.mp hdev).1
    have hfilled : (written s')[i]? = some dev := by
      obtain ⟨rest, hrest⟩ := hbegin
      rw [← hrest, List.getElem?_append_left hlt, hdev]
    obtain ⟨hin, hreach⟩ := (hreached i).mp hlt
    by_cases h0 : s'.diskNumParts = 0
    · obtain ⟨d, hd⟩ : ∃ d, noteKnown k u = some d := Option.ne_none_iff_exists'.mp fun hnone => h.media (hk.fresh hnone h0)
      rw [if_pos h0] at hcount
      rw [written_whole h0, show i = 0 by omega, List.getElem?_cons_zero, Option.some.injEq] at hfilled
      refine ⟨d, hd, Or.inl ⟨h0, ?_⟩⟩
      rw [← hfilled, hk.major d hd, hk.minor d hd]
    · rw [if_neg h0] at hcount
      obtain ⟨hfour, d, minor, hd, hmem⟩ := hcov i (by omega) hreach
      have hlast := hk.minors d hd i (by unfold storageMaxPartitions; omega) ⟨minor, hmem⟩
      refine ⟨d, hd, Or.inr ⟨_, hlast, ?_⟩⟩
      rw [written_partition h0 hfilled, hk.major d hd]

theorem recorded_iff_covered (e : Env) {k : Option Known} {s : St} (hs : Inv s) (hk : Holds k s) (u : Uevent) :
    OnlyRecorded (noteKnown k u) s (handleBlockEvent e s u) ↔ (BringsIdle e s u → Covered e k s u) := by
  by_cases hb : BringsIdle e s u
  · obtain ⟨devs, hattempt⟩ := brings_attempt e hs hb
    have hparts : (handleBlockEvent e s u).diskNumParts = (s.geometry.note u).parts :=
      congrArg Geometry.parts (handleBlockEvent_geometry e hs u)
    constructor
    · intro hrec _
      exact hattempt.covered hparts hrec
    · intro hcov
      exact hattempt.recorded hparts (holds_step e hs hk u) (hcov hb)
  · refine iff_of_true ?_ (fun h => absurd h hb)
    have hnone : tried s (handleBlockEvent e s u) = [] := by
      rw [tried, quiet_passedTo e hs hb, List.drop_length]
    exact ⟨by rw [hnone]; exact List.nil_prefix, by rw [hnone]; decide, by rw [hnone]; nofun⟩

/-- Over any sequence of events, only what was recorded is tried exactly when, at every
    event that leads to the idle state, each partition that is tried is one of the first
    four and was announced for the disk. -/
theorem mounts_recorded_iff (e : Env) (us : List Uevent) :
    (∀ pre u, pre ++ [u] <+: us → OnlyRecorded (known (pre ++ [u])) (run e pre) (run e (pre ++ [u]))) ↔
      ∀ pre u, pre ++ [u] <+: us → BringsIdle e (run e pre) u → Covered e (known pre) (run e pre) u := by
  refine forall_congr' fun pre => forall_congr' fun u => forall_congr' fun _ => ?_
  have hknown : known (pre ++ [u]) = noteKnown (known pre) u := Lib.Machine.run_snoc noteKnown
  have hrun : run e (pre ++ [u]) = handleBlockEvent e (run e pre) u := Lib.Machine.run_snoc (handleBlockEvent e)
  rw [hknown, hrun]
  exact recorded_iff_covered e (inv_run e pre) (holds_run e pre) u

/-- A disk with five partitions, all announced; nothing can be mounted, and the stack holds
    the device 1:7. -/
def fiveAnnounced : List Uevent :=
  [⟨.add, .usb, true, 8, 0, some 5, none⟩, ⟨.add, .usb, false, 8, 1, none, some 1⟩, ⟨.add, .usb, false, 8, 2, none, some 2⟩,
    ⟨.add, .usb, false, 8, 3, none, some 3⟩, ⟨.add, .usb, false, 8, 4, none, some 4⟩]

def fifth : Uevent := ⟨.add, .usb, false, 8, 5, none, some 5⟩

def neverMounts : Env := ⟨fun _ => .failed, fun _ => .ok, fun _ _ => 0x107, fun _ => 0⟩

/-- The fifth device is not one that was filled in. -/
theorem fifth_entry_unfilled :
    let s := run neverMounts fiveAnnounced
    let s' := run neverMounts (fiveAnnounced ++ [fifth])
    tried s s' = [0x801, 0x802, 0x803, 0x804, 0x107] ∧ written s' = [0x801, 0x802, 0x803, 0x804] ∧
      ¬ OnlyRecorded (known (fiveAnnounced ++ [fifth])) s s' := by
  have htried : tried (run neverMounts fiveAnnounced) (run neverMounts (fiveAnnounced ++ [fifth])) =
      [0x801, 0x802, 0x803, 0x804, 0x107] := by
    decide +kernel
  refine ⟨htried, by decide +kernel, ?_⟩
  intro h
  have hfew := h.few
  rw [htried] at hfew
  exact absurd hfew (by decide)

end AmebaLinux.Recovery.Storage
