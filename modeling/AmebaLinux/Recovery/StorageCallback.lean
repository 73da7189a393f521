/-
  AmebaLinux.Recovery.StorageCallback — what the mount state machine tells recovery's
  callback (`recovery/storage_mount/storage_mount.c`: `report_message`, `set_state`,
  `unmount_volume`; `recovery/recovery.c`: `storage_state_change`), against the state.

  A mount is reported by `set_state` and an unmount by `unmount_volume` only. A removed USB
  disk and an added disk or partition set the state themselves: whether a mounted storage
  is mounted again after them depends on the results of `mount`, of which `do_mount` takes
  one or two (`taken`).

  Proved:
  - `exposed_mounted_iff`: which of these events leave a mounted storage mounted (`Stays`).
  - `callback_truthful_iff`: what the callback was told last agrees with the state after
    every event exactly when no other of them meets a mounted storage
    (`removed_disk_unreported`).
-/

import AmebaLinux.Recovery.StorageRecorded

namespace AmebaLinux.Recovery.Storage

open AmebaLinux.Lib.Machine (Along)

/-! ## Mounted again -/

/-- The loop of `mount_volume` mounts a device unless every `do_mount` fails. -/
theorem tryNodes_mounted_iff (e : Env) (devs : List Dev) {s : St} (hs : s.storageState = .idle) :
    (tryNodes e devs s).storageState = .mounted ↔ ¬ Reaches e s.mounts devs.length := by
  induction devs generalizing s with
  | nil =>
    rw [tryNodes, setState, if_pos hs, hs]
    simp [Reaches]
  | cons dev devs ih =>
    rw [tryNodes, doMount_taken, List.length_cons, Reaches]
    cases hf : fails e s.mounts with
    | true =>
      simp only [Bool.not_true, true_and]
      exact ih hs
    | false =>
      simp only [Bool.not_false, Bool.false_eq_true, false_and, not_false_eq_true, iff_true]
      unfold setState reportMessage
      simp [hs, St.call]

theorem mountVolume_mounted_iff (e : Env) {s : St} (hs : s.storageState = .idle) :
    (mountVolume e s).storageState = .mounted ↔ ¬ Reaches e s.mounts (devices e s).length := by
  unfold mountVolume
  rw [if_neg (not_not.mpr hs)]
  exact tryNodes_mounted_iff e (devices e s) hs

/-- A removed USB disk does not; an added disk does if it has no partitions and can be
    mounted; an added partition does unless it is the last one that was pending and none can
    be mounted. -/
structure Stays (e : Env) (s : St) (u : Uevent) : Prop where
  plugged : u.action ≠ .remove
  disk : u.disk = true → announced u = 0 ∧ fails e s.mounts = false
  partition : u.disk = false → Completes e s u → ¬ Reaches e s.mounts (max s.diskNumParts (u.partn.getD 1)).toNat

theorem diskAdded_mounted_iff (e : Env) {s : St} {u : Uevent} (hs : Inv s) (hk : u.source ≠ .other) (ha : u.action = .add)
    (hd : u.disk = true) :
    (handleBlockEvent e s u).storageState = .mounted ↔ announced u = 0 ∧ fails e s.mounts = false := by
  have hnum : numParts { s with isSdcardDev := decide (u.source = .sdcard) } u = announced u := by simp [numParts, announced]
  rw [handleBlockEvent_add e hk ha rfl, handleAdded, if_pos hd, handleDiskAdded, hnum]
  dsimp only
  by_cases h0 : announced u = 0
  · rw [if_pos h0, setState_quiet (by exact hs.retry) (by decide), if_pos rfl, mountVolume_mounted_iff e rfl, devices_length,
      if_pos h0]
    simp [h0, Reaches]
  · rw [if_neg h0, setState_quiet (by exact hs.retry) (by decide), if_neg (by simp)]
    simp [h0]

theorem partitionAdded_mounted_iff (e : Env) {s : St} {u : Uevent} (hs : Inv s) (hm : s.storageState = .mounted)
    (hd : u.disk = false) {s1 : St} (hs1 : handlePartitionAdded e u s = s1) :
    (if s1.storageState = .idle then mountVolume e s1 else s1).storageState = .mounted ↔
      (Completes e s u → ¬ Reaches e s.mounts (max s.diskNumParts (u.partn.getD 1)).toNat) := by
  have hadded := partitionAdded_added e hs hd
  have hidle := hadded.idle
  rw [hd, if_neg Bool.false_ne_true, hm] at hidle
  rw [hs1] at hadded hidle
  have hbrings : s1.storageState = .idle ↔ Completes e s u := by
    rw [hidle]
    simp
  by_cases hlast : Completes e s u
  · have hlow := hlast.low
    have hhigh := hlast.high
    have hpending : (recorded e (u.partn.getD 1) u.minor s).pendingPartMap = 0 := hlast.last
    rw [handlePartitionAdded_eq e u hs.retry, if_neg (by omega), if_neg (not_not.mpr hlast.major), if_pos hpending] at hs1
    have hparts : s1.diskNumParts = max s.diskNumParts (u.partn.getD 1) := by rw [← hs1]; rfl
    have hmounts : s1.mounts = s.mounts := by rw [← hs1]; rfl
    have hsome : ¬ max s.diskNumParts (u.partn.getD 1) = 0 := by omega
    rw [if_pos (hbrings.mpr hlast), mountVolume_mounted_iff e (hbrings.mpr hlast), devices_length, hparts, hmounts, if_neg hsome]
    exact ⟨fun h _ => h, fun h => h hlast⟩
  · rw [if_neg fun h => hlast (hbrings.mp h)]
    refine iff_of_true ?_ fun h => absurd h hlast
    -- neither the last partition nor a disk: the state is what it was
    rw [← hs1, handlePartitionAdded_eq e u hs.retry]
    split
    · exact hm
    · rename_i hrange
      split
      · exact hm
      · rename_i hmajor
        rw [if_neg]
        · exact hm
        · exact fun h => hlast ⟨by omega, by omega, not_not.mp hmajor, h⟩

/-- Which of the events that set the state themselves leave a mounted storage mounted. -/
theorem exposed_mounted_iff (e : Env) {s : St} {u : Uevent} (hs : Inv s) (hm : s.storageState = .mounted) (hexp : Exposed u) :
    (handleBlockEvent e s u).storageState = .mounted ↔ Stays e s u := by
  obtain ⟨hk, hadd | ⟨hremove, hd, husb⟩⟩ := hexp
  · have hplugged : u.action ≠ .remove := by
      rw [hadd]
      decide
    cases hd : u.disk with
    | true =>
      rw [diskAdded_mounted_iff e hs hk hadd hd]
      refine ⟨fun h => ⟨hplugged, fun _ => h, fun hno => ?_⟩, fun h => h.disk hd⟩
      rw [hd] at hno
      cases hno
    | false =>
      have hs0 : Inv { s with isSdcardDev := decide (u.source = .sdcard) } := ⟨hs.retry, hs.settled, hs.parts, hs.slots⟩
      have hrun : handleAdded e u { s with isSdcardDev := decide (u.source = .sdcard) } =
          handlePartitionAdded e u { s with isSdcardDev := decide (u.source = .sdcard) } := by
        rw [handleAdded, hd, if_neg Bool.false_ne_true]
      rw [handleBlockEvent_add e hk hadd hrun, partitionAdded_mounted_iff e hs0 hm hd rfl, completes_source]
      refine ⟨fun h => ⟨hplugged, fun hyes => ?_, fun _ => h⟩, fun h => h.partition hd⟩
      rw [hd] at hyes
      cases hyes
  · refine iff_of_false ?_ fun h => h.plugged hremove
    rw [handleBlockEvent, checkDevPath_known s hk]
    simp [hremove, handleRemoved, hd, husb, handleDiskRemoved, setState_quiet, hs.retry]

/-! ## What the callback was told -/

def lastReport (log : List Call) : Option Report := (reports log).getLast?

/-- The callback's last word, and the path recovery holds because of it, agree with the
    state. -/
structure Truthful (s : St) : Prop where
  last : lastReport s.log = some .mount ↔ s.storageState = .mounted
  path : (globals s.log).gStoragePath ≠ "" ↔ s.storageState = .mounted

theorem globals_eq (log : List Call) :
    globals log = ⟨lastReport log, if lastReport log = some .mount then mountPoint else ""⟩ := by
  unfold globals lastReport
  rcases List.eq_nil_or_concat (reports log) with hnil | ⟨rs, r, hlast⟩
  · simp [hnil]
  · rw [hlast, List.concat_eq_append, List.foldl_append, List.getLast?_concat]
    cases r <;> simp [storageStateChange]

theorem truthful_iff_last (s : St) : Truthful s ↔ (lastReport s.log = some .mount ↔ s.storageState = .mounted) := by
  have hpath : (globals s.log).gStoragePath ≠ "" ↔ lastReport s.log = some .mount := by
    rw [globals_eq]
    by_cases h : lastReport s.log = some .mount
    · simp [h, mountPoint]
    · simp [h]
  exact ⟨fun h => h.last, fun h => ⟨h, hpath.trans h⟩⟩

theorem lastReport_append (log calls : List Call) (r : Report) :
    lastReport (log ++ (calls ++ [.report r])) = some r := by
  simp [lastReport, reports, List.filterMap_append]

theorem lastReport_failed (log : List Call) (devs tried : List Dev) :
    lastReport (log ++ .attempt devs :: tried.map (.mount · false)) = lastReport log := by
  simp [lastReport, reports, List.filterMap_append]

/-- The word and the state agree after an event exactly when it does not take the storage out
    of the mounted state by itself. -/
theorem truthful_step (e : Env) {s : St} {u : Uevent} (hs : Inv s) (htrue : Truthful s) :
    Truthful (handleBlockEvent e s u) ↔
      (s.storageState = .mounted → Exposed u → (handleBlockEvent e s u).storageState = .mounted) := by
  obtain ⟨-, calls, hlog, heffect⟩ := handleBlockEvent_handled e hs u
  rw [truthful_iff_last] at htrue ⊢
  rw [hlog]
  generalize (handleBlockEvent e s u).storageState = state at heffect ⊢
  cases heffect with
  | silent quiet left =>
    rw [List.append_nil, htrue]
    rcases left with rfl | ⟨hexp, hne⟩
    · exact iff_of_true Iff.rfl (fun h _ => h)
    · simp [hexp, hne]
  | @mounted failed rest dev brings =>
    have hword := lastReport_append s.log (.attempt (failed ++ dev :: rest) :: (failed.map (.mount · false) ++
      [.mount dev true])) .mount
    simp only [List.cons_append, List.append_assoc, List.nil_append] at hword
    simp [hword]
  | @unmountable dev devs brings =>
    rw [lastReport_failed, htrue]
    simp [brings.exposed]
  | @unmounted k ok calm =>
    have hword := lastReport_append s.log (List.replicate k (.umount false) ++ [.umount ok]) .unmount
    rw [List.append_assoc] at hword
    simp only [List.cons_append, List.nil_append] at hword
    simp [hword, calm]
  | stuck calm =>
    rw [lastReport_append]
    simp

/-- The word and the state agree after every event exactly when no added disk or partition and
    no removed USB disk meets a mounted storage, except one after which it is mounted again. -/
theorem callback_truthful_iff (e : Env) (us : List Uevent) :
    (∀ pre, pre <+: us → Truthful (run e pre)) ↔
      Along (handleBlockEvent e) (fun s u => s.storageState = .mounted → Exposed u → Stays e s u) start us := by
  refine Lib.Machine.always_iff_along (inv_step e) ?_ inv_start ((truthful_iff_last start).mpr (by decide)) us
  intro s u hs htrue
  rw [truthful_step e hs htrue]
  refine forall_congr' fun hm => forall_congr' fun hexp => ?_
  exact exposed_mounted_iff e hs hm hexp

/-- A mounted USB disk is pulled out: the callback still believes in the mount. -/
theorem removed_disk_unreported :
    let s := run alwaysMounts [usbDisk .add, usbDisk .remove]
    s.storageState = .noMedia ∧ lastReport s.log = some .mount ∧ (globals s.log).gStoragePath = mountPoint := by
  decide

end AmebaLinux.Recovery.Storage
