/-
  AmebaLinux.Recovery.Main — recovery's decision what to install (`recovery/recovery.c`:
  `main`), and whether it tells the truth about it.

  `main` installs from a mounted storage with an `ota` directory, else the package of
  `--update_package`, else wipes the user data if asked. `goto install_directly` jumps
  over the initialisation of the locals, so on that path they hold anything (`locals`).
  The options are those of the dead frame that `args[]` points into (`Frame`).

  Proved:
  - `truthful_iff`: an installation reported as successful is complete, and so is one
    after which `main` takes the success path or deletes the package, exactly when the
    package has no `ota/flash_image.cfg` or every step of its upgrade succeeds. The
    directory path of `install_package` drops `upgrade_package`'s result
    (`failed_storage_install_succeeds`).
-/

import AmebaLinux.Recovery.InstallProofs
import AmebaLinux.Recovery.Options

namespace AmebaLinux.Recovery.Main

open AmebaLinux.Recovery.Install
open AmebaLinux.Recovery.Options

structure Locals where
  packagePath : Option String
  needWipeData : Bool
  shouldDeletePackage : Int
  deriving DecidableEq, Repr

structure Env where
  /-- The storage was reported mounted within the wait. -/
  storageSeen : Bool
  /-- `gStoragePath` when the decision is made. -/
  storagePath : String
  /-- `access(update_dir)`, whatever `update_dir` holds. -/
  updateDir : Bool
  partitionsLoaded : Bool
  /-- `none` where `get_args` fails or finds no word. -/
  args : Option Frame
  locals : Locals
  table : Table
  wipe : WipeEnv
  packages : String → InstallEnv

structure Outcome where
  success : Bool
  installed : Option String
  deleted : Option String
  deriving DecidableEq, Repr

/-- `INSTALL_FAILED`, after installing `path` or nothing. -/
def failed (installed : Option String) : Outcome := ⟨false, installed, none⟩

/-- The process does not come to its end. -/
def died : Outcome := ⟨false, none, none⟩

def takeOption (l : Locals) : Opt → Locals
  | .updatePackage path => { l with packagePath := some path }
  | .wipeUserdata => { l with needWipeData := true }
  | .retryCount _ => l
  | .invalid => l

def parseOptions (opts : List Opt) : Locals := opts.foldl takeOption ⟨none, false, 0⟩

/-- From the installed package and its status to the end of `main`. -/
def finish (status : Int) (installed : Option String) (l : Locals) : Outcome :=
  if status ≠ installSuccess then failed installed
  else ⟨true, installed, if l.shouldDeletePackage = 1 then l.packagePath else none⟩

/-- `install_directly`. -/
def installDirectly (e : Env) (l : Locals) : Outcome :=
  if e.storagePath ≠ "" ∧ e.updateDir then
    finish (installPackage (e.packages e.storagePath)).ret (some e.storagePath) l
  else
    match l.packagePath with
    | some path =>
      let status := (installPackage (e.packages path)).ret
      finish status (some path) (if status = installSuccess then { l with shouldDeletePackage := 1 } else l)
    | none =>
      if l.needWipeData then
        if (wipeData e.table .userdata false e.wipe).1 ≠ 0 then failed none else finish installSuccess none l
      else failed none

def recoveryMain (e : Env) : Outcome :=
  if !e.partitionsLoaded then failed none
  else
    match e.args with
    | none => if e.storageSeen then installDirectly e e.locals else failed none
    | some frame =>
      match frame.options with
      | some opts => installDirectly e (parseOptions opts)
      | none => died

/-! ## Truthfulness -/

/-- `upgrade_package` was called and succeeded: every selected image was found, verified
    where digests are checked, and written. -/
def Complete (p : InstallEnv) : Prop :=
  ∃ r config, (installPackage p).upgrade = some r ∧ r.ret = installSuccess ∧ p.upgrade.config = some config ∧
    ∀ x ∈ plan config, Checked ⟨p.upgrade.table, config, p.upgrade.env⟩ x ∧
      .written x.1 x.2 ((p.upgrade.table x.1 x.2).map Node.block) ∈ r.events

def Truthful (p : InstallEnv) : Prop := (installPackage p).ret = installSuccess → Complete p

/-- Where `main` installs this package, it takes the success path or deletes something only
    after a complete installation. -/
def MainTruthful (p : InstallEnv) : Prop :=
  ∀ (e : Env) (path : String), e.packages path = p → (recoveryMain e).installed = some path →
    ((recoveryMain e).success = true ∨ (recoveryMain e).deleted.isSome) → Complete p

theorem upgrade_events {e : UpgradeEnv} (h : StepsSucceed e) {config : Config} (hc : e.config = some config) :
    (upgradePackage e).events = (runPlan ⟨e.table, config, e.env⟩ (plan config)).events := by
  obtain ⟨hopen, hfork, hkill, -⟩ := h
  rw [← updateProcess_eq ⟨e.table, config, e.env⟩]
  simp [upgradePackage, hopen, hc, hfork, hkill]

theorem complete_of_steps {p : InstallEnv} (h : StepsSucceed p.upgrade)
    (hcalled : (installPackage p).upgrade = some (upgradePackage p.upgrade)) : Complete p := by
  have hsteps := h
  obtain ⟨-, -, -, config, hc, hall⟩ := h
  refine ⟨upgradePackage p.upgrade, config, hcalled, (upgrade_success_iff _).mpr hsteps, hc, ?_⟩
  intro x hx
  refine ⟨(hall x hx).1, ?_⟩
  rw [upgrade_events hsteps hc]
  exact written_of_goesOn ((runPlan_goesOn _ _).mpr hall) hx

/-- The two paths of `install_package`, and how it ends without `upgrade_package`. -/
theorem installPackage_cases (p : InstallEnv) :
    (p.otaConfig = true ∧ installPackage p = ⟨installSuccess, some (upgradePackage p.upgrade)⟩) ∨
    (p.otaConfig = false ∧ installPackage p = ⟨(upgradePackage p.upgrade).ret, some (upgradePackage p.upgrade)⟩) ∨
    (p.otaConfig = false ∧ installPackage p = ⟨installError, none⟩) := by
  unfold installPackage
  by_cases ho : p.otaConfig = true
  · exact Or.inl ⟨ho, if_pos ho⟩
  · have ho' : p.otaConfig = false := by simpa using ho
    rw [if_neg ho]
    right
    split
    · exact Or.inr ⟨ho', rfl⟩
    · split
      · exact Or.inl ⟨ho', rfl⟩
      · exact Or.inr ⟨ho', rfl⟩

theorem truthful_of {p : InstallEnv} (h : p.otaConfig = false ∨ StepsSucceed p.upgrade) : Truthful p := by
  intro hret
  rcases installPackage_cases p with ⟨ho, hi⟩ | ⟨-, hi⟩ | ⟨-, hi⟩
  · rcases h with h | h
    · rw [h] at ho; cases ho
    · exact complete_of_steps h (by rw [hi])
  · rw [hi] at hret
    exact complete_of_steps ((upgrade_success_iff _).mp hret) (by rw [hi])
  · rw [hi] at hret
    cases hret

theorem finish_success {status : Int} {installed : Option String} {l : Locals}
    (h : (finish status installed l).success = true ∨ (finish status installed l).deleted.isSome) :
    status = installSuccess := by
  unfold finish at h
  by_contra hne
  rw [if_pos hne] at h
  simp [failed] at h

theorem finish_installed (status : Int) (installed : Option String) (l : Locals) :
    (finish status installed l).installed = installed := by
  unfold finish
  split <;> rfl

/-- `main` succeeds after an installation, or deletes, only on its status. -/
theorem installDirectly_status {e : Env} {l : Locals} {path : String} (hi : (installDirectly e l).installed = some path)
    (h : (installDirectly e l).success = true ∨ (installDirectly e l).deleted.isSome) :
    (installPackage (e.packages path)).ret = installSuccess := by
  unfold installDirectly at hi h
  by_cases hs : e.storagePath ≠ "" ∧ e.updateDir = true
  · rw [if_pos hs] at hi h
    rw [finish_installed] at hi
    cases hi
    exact finish_success h
  · rw [if_neg hs] at hi h
    rcases hp : l.packagePath with _ | q <;> rw [hp] at hi h
    · dsimp only at hi
      split at hi
      · split at hi
        · cases hi
        · rw [finish_installed] at hi
          cases hi
      · cases hi
    · dsimp only at hi h
      rw [finish_installed] at hi
      cases hi
      exact finish_success h

theorem recoveryMain_status {e : Env} {path : String} (hi : (recoveryMain e).installed = some path)
    (h : (recoveryMain e).success = true ∨ (recoveryMain e).deleted.isSome) :
    (installPackage (e.packages path)).ret = installSuccess := by
  unfold recoveryMain at hi h
  split at hi
  · cases hi
  · rename_i hl
    rw [if_neg hl] at h
    rcases ha : e.args with _ | frame <;> rw [ha] at hi h
    · dsimp only at hi h
      split at hi
      · rename_i hs
        rw [if_pos hs] at h
        exact installDirectly_status hi h
      · cases hi
    · dsimp only at hi h
      rcases ho : frame.options with _ | opts <;> rw [ho] at hi h
      · cases hi
      · exact installDirectly_status hi h

/-- Success is truthful exactly when the package is not an `ota` directory, or every step
    of its upgrade succeeds. -/
theorem truthful_iff (p : InstallEnv) :
    Truthful p ∧ MainTruthful p ↔ p.otaConfig = false ∨ StepsSucceed p.upgrade := by
  constructor
  · rintro ⟨ht, -⟩
    rcases installPackage_cases p with ⟨-, hi⟩ | ⟨ho, -⟩ | ⟨ho, -⟩
    · obtain ⟨r, -, hr, hret, -⟩ := ht (by rw [hi])
      rw [hi] at hr
      cases hr
      exact Or.inr ((upgrade_success_iff _).mp hret)
    · exact Or.inl ho
    · exact Or.inl ho
  · intro h
    refine ⟨truthful_of h, ?_⟩
    rintro e path rfl hi hok
    exact truthful_of h (recoveryMain_status hi hok)

/-- A directory with the configuration, and its second image missing. -/
def brokenDirectory : InstallEnv := ⟨true, false, true, .exited 0, secondMissing⟩

/-- No command, and the storage with that directory is mounted within the wait. -/
def mountedBroken (locals : Locals) : Env where
  storageSeen := true
  storagePath := "/mnt/media_rw/usb"
  updateDir := true
  partitionsLoaded := true
  args := none
  locals := locals
  table := secondMissing.table
  wipe := ⟨false, false, .spawnFailed, .spawnFailed⟩
  packages := fun _ => brokenDirectory

/-- `install_package` reports success though `upgrade_package` failed, and `main` takes the
    success path, whatever its locals hold. -/
theorem failed_storage_install_succeeds :
    (installPackage brokenDirectory).ret = installSuccess ∧ (upgradePackage secondMissing).ret = installError ∧
    ¬ Truthful brokenDirectory ∧ ¬ MainTruthful brokenDirectory ∧
    ∀ locals, (recoveryMain (mountedBroken locals)).success = true ∧
      (recoveryMain (mountedBroken locals)).installed = some "/mnt/media_rw/usb" := by
  have hruns : ∀ locals, (recoveryMain (mountedBroken locals)).success = true ∧
      (recoveryMain (mountedBroken locals)).installed = some "/mnt/media_rw/usb" := fun _ => ⟨rfl, rfl⟩
  have hincomplete : ¬ Complete brokenDirectory := by
    intro hc
    obtain ⟨r, -, hr, hret, -⟩ := hc
    cases hr
    exact absurd hret (by decide)
  refine ⟨by decide, by decide, fun ht => hincomplete (ht (by decide)), fun hm => ?_, hruns⟩
  obtain ⟨hsuccess, hinstalled⟩ := hruns ⟨none, false, 0⟩
  exact hincomplete (hm _ _ rfl hinstalled (Or.inl hsuccess))

end AmebaLinux.Recovery.Main
