/-
  AmebaLinux.Recovery.MainInputs — what recovery's `main` goes by (see
  `AmebaLinux.Recovery.Main`).

  `Inputs` is what `main` is meant to act on, with the results of what it calls; `Stack`
  is what it finds on the stack instead: `package_path`, `need_WipeData` and
  `should_delete_package`, whose initialisation `goto install_directly` jumps over;
  `update_dir`, which is only written if the storage is seen within the wait; and what has
  become of the words of the command, whose frame is dead when they are read. The path of
  the storage is read again after the wait, and may have changed.

  Proved:
  - `acts_on_inputs_iff`: `main` does what `decision` says whatever is on the stack
    exactly for the inputs in `Determined`. A command with words is never among them.
    Without one and with a storage it depends on the stack unless an installation from the
    storage fails (`stack_decides`).
  - `own_words_decide`, `storage_first`: what `main` would do if the words were still there,
    and that a storage with an `ota` directory goes before whatever words are.
-/

import AmebaLinux.Recovery.Main

namespace AmebaLinux.Recovery.Main

open AmebaLinux.Lib.CString
open AmebaLinux.Recovery.Install
open AmebaLinux.Recovery.Options

structure Inputs where
  storageSeen : Bool
  storagePath : String
  /-- The storage has an `ota` directory. -/
  otaDir : Bool
  partitionsLoaded : Bool
  /-- What `fw_printenv cmd` prints. -/
  printed : List UInt8
  table : Table
  wipe : WipeEnv
  packages : String → InstallEnv

/-- The options of the command; `none` where it is not set or has no words. -/
def Inputs.options (i : Inputs) : Option (List Opt) := commandOptions i.printed

structure Stack where
  locals : Locals
  /-- `access` of whatever path `update_dir` happens to hold. -/
  updateDir : Bool
  /-- What is left of the words in the frame of `get_args`. -/
  frame : Frame

def Inputs.env (i : Inputs) (stack : Stack) : Env where
  storageSeen := i.storageSeen
  storagePath := i.storagePath
  updateDir := if i.storageSeen then i.otaDir else stack.updateDir
  partitionsLoaded := i.partitionsLoaded
  args := recoveryArgs i.printed stack.frame
  locals := stack.locals
  table := i.table
  wipe := i.wipe
  packages := i.packages

/-- Whether `install_directly` gets to `wipe_data`. -/
def wipesDirectly (e : Env) (l : Locals) : Bool :=
  if e.storagePath ≠ "" ∧ e.updateDir then false else l.packagePath.isNone && l.needWipeData

/-- Whether `main` gets to `wipe_data`. -/
def recoveryWipes (e : Env) : Bool :=
  if !e.partitionsLoaded then false
  else
    match e.args with
    | none => if e.storageSeen then wipesDirectly e e.locals else false
    | some frame => (frame.options.map fun opts => wipesDirectly e (parseOptions opts)).getD false

/-! ## The decision -/

def Inputs.installs (i : Inputs) (path : String) : Prop := (installPackage (i.packages path)).ret = installSuccess

instance (i : Inputs) (path : String) : Decidable (i.installs path) := inferInstanceAs (Decidable (_ = _))

/-- A storage with an `ota` directory, else the package of the options, else wiping where
    the options ask for it, else nothing. Without the partition table nothing is done. -/
def decision (i : Inputs) : Outcome × Bool :=
  let l := parseOptions (i.options.getD [])
  if !i.partitionsLoaded then (failed none, false)
  else if i.storagePath ≠ "" ∧ i.otaDir then (⟨i.installs i.storagePath, some i.storagePath, none⟩, false)
  else
    match l.packagePath with
    | some path => (⟨i.installs path, some path, if i.installs path then some path else none⟩, false)
    | none =>
      if l.needWipeData then (⟨(wipeData i.table .userdata false i.wipe).1 = 0, none, none⟩, true) else (failed none, false)

/-- The inputs on which the stack has no say. -/
def Determined (i : Inputs) : Prop :=
  i.partitionsLoaded = false ∨ i.options = none ∧
    if i.storageSeen then i.storagePath ≠ "" ∧ i.otaDir = true ∧ ¬ i.installs i.storagePath
    else ¬ (i.storagePath ≠ "" ∧ i.otaDir = true)

/-- What `main` does: its outcome, and whether it wipes. -/
def deed (e : Env) : Outcome × Bool := (recoveryMain e, recoveryWipes e)

/-! ## From `install_directly` on -/

theorem parseOptions_delete (opts : List Opt) : (parseOptions opts).shouldDeletePackage = 0 := by
  suffices h : ∀ l : Locals, (opts.foldl takeOption l).shouldDeletePackage = l.shouldDeletePackage from h ⟨none, false, 0⟩
  induction opts with
  | nil => exact fun _ => rfl
  | cons opt opts ih =>
    intro l
    rw [List.foldl_cons, ih]
    cases opt <;> rfl

/-- `install_directly` with given locals. -/
def direct (e : Env) (l : Locals) : Outcome × Bool := (installDirectly e l, wipesDirectly e l)

theorem direct_storage {e : Env} (l : Locals) (h : e.storagePath ≠ "" ∧ e.updateDir = true) :
    direct e l = (finish (installPackage (e.packages e.storagePath)).ret (some e.storagePath) l, false) := by
  rw [direct, installDirectly, wipesDirectly, if_pos h, if_pos h]

theorem direct_package {i : Inputs} {stack : Stack} {l : Locals}
    (h : ¬ ((i.env stack).storagePath ≠ "" ∧ (i.env stack).updateDir = true)) {path : String} (hl : l.packagePath = some path) :
    direct (i.env stack) l = (⟨i.installs path, some path, if i.installs path then some path else none⟩, false) := by
  rw [direct, installDirectly, wipesDirectly, if_neg h, if_neg h, hl]
  dsimp only
  by_cases hs : i.installs path
  · have hstatus : (installPackage ((i.env stack).packages path)).ret = installSuccess := hs
    simp [finish, hs, hstatus]
  · have hstatus : (installPackage ((i.env stack).packages path)).ret ≠ installSuccess := hs
    simp [finish, hs, hstatus, failed]

theorem direct_wipe {e : Env} {l : Locals} (h : ¬ (e.storagePath ≠ "" ∧ e.updateDir = true)) (hl : l.packagePath = none) :
    direct e l =
      if l.needWipeData then (⟨(wipeData e.table .userdata false e.wipe).1 = 0, none, none⟩, true) else (failed none, false) := by
  rw [direct, installDirectly, wipesDirectly, if_neg h, if_neg h, hl]
  dsimp only
  cases hw : l.needWipeData with
  | false => simp
  | true =>
    by_cases hrc : (wipeData e.table .userdata false e.wipe).1 = 0
    · simp [hrc, finish, hl]
    · simp [hrc, failed]

theorem finish_kept (status : Int) (installed : Option String) {l : Locals} (h : l.shouldDeletePackage ≠ 1) :
    finish status installed l = ⟨status = installSuccess, installed, none⟩ := by
  unfold finish
  by_cases hs : status = installSuccess
  · simp [hs, h]
  · simp [hs, failed]

/-- With the options read and the right directory looked at, `install_directly` is the
    decision. -/
theorem direct_decision {i : Inputs} (stack : Stack) (hloaded : i.partitionsLoaded = true)
    (hdir : i.storagePath ≠ "" → (i.env stack).updateDir = i.otaDir) :
    direct (i.env stack) (parseOptions (i.options.getD [])) = decision i := by
  have hkept : (parseOptions (i.options.getD [])).shouldDeletePackage ≠ 1 := by
    rw [parseOptions_delete]
    decide
  have hsame : (i.storagePath ≠ "" ∧ (i.env stack).updateDir = true) ↔ (i.storagePath ≠ "" ∧ i.otaDir = true) :=
    and_congr_right fun h => by rw [hdir h]
  unfold decision
  dsimp only
  rw [hloaded, if_neg (by decide)]
  by_cases hota : i.storagePath ≠ "" ∧ i.otaDir = true
  · rw [if_pos hota, direct_storage _ (hsame.mpr hota), finish_kept _ _ hkept]
    rfl
  · rw [if_neg hota]
    cases hpath : (parseOptions (i.options.getD [])).packagePath with
    | some path => exact direct_package (fun h => hota (hsame.mp h)) hpath
    | none => exact direct_wipe (fun h => hota (hsame.mp h)) hpath

/-! ## The stack -/

theorem deed_unloaded {i : Inputs} (stack : Stack) (h : i.partitionsLoaded = false) : deed (i.env stack) = decision i := by
  simp [deed, recoveryMain, recoveryWipes, decision, Inputs.env, h]

theorem env_args {i : Inputs} (stack : Stack) {opts : List Opt} (ha : i.options = some opts) :
    (i.env stack).args = some stack.frame := by
  have ha : commandOptions i.printed = some opts := ha
  rw [Inputs.env, recoveryArgs, ha, Option.map_some]

theorem env_noArgs {i : Inputs} (stack : Stack) (ha : i.options = none) : (i.env stack).args = none := by
  have ha : commandOptions i.printed = none := ha
  rw [Inputs.env, recoveryArgs, ha, Option.map_none]

/-- With a command, the options are those of the frame. -/
theorem deed_options {i : Inputs} (stack : Stack) (h : i.partitionsLoaded = true) {opts : List Opt}
    (ha : i.options = some opts) {found : List Opt} (hf : stack.frame.options = some found) :
    deed (i.env stack) = direct (i.env stack) (parseOptions found) := by
  have hloaded : (i.env stack).partitionsLoaded = true := h
  simp [deed, recoveryMain, recoveryWipes, direct, hloaded, env_args stack ha, hf]

theorem deed_astray {i : Inputs} (stack : Stack) (h : i.partitionsLoaded = true) {opts : List Opt}
    (ha : i.options = some opts) (hf : stack.frame = .astray) : deed (i.env stack) = (died, false) := by
  have hloaded : (i.env stack).partitionsLoaded = true := h
  simp [deed, recoveryMain, recoveryWipes, hloaded, env_args stack ha, hf, Frame.options]

theorem deed_storage {i : Inputs} (stack : Stack) (h : i.partitionsLoaded = true) (ha : i.options = none)
    (hs : i.storageSeen = true) : deed (i.env stack) = direct (i.env stack) stack.locals := by
  have henv : (i.env stack).partitionsLoaded = true ∧ (i.env stack).storageSeen = true ∧
      (i.env stack).locals = stack.locals := ⟨h, hs, rfl⟩
  simp [deed, recoveryMain, recoveryWipes, direct, henv, env_noArgs stack ha]

theorem deed_nothing {i : Inputs} (stack : Stack) (h : i.partitionsLoaded = true) (ha : i.options = none)
    (hs : i.storageSeen = false) : deed (i.env stack) = (failed none, false) := by
  have henv : (i.env stack).partitionsLoaded = true ∧ (i.env stack).storageSeen = false := ⟨h, hs⟩
  simp [deed, recoveryMain, recoveryWipes, henv, env_noArgs stack ha]

/-- If the words of the command were still there, and `update_dir` were that of the storage,
    `main` would do what is decided. -/
theorem own_words_decide {i : Inputs} {stack : Stack} (h : i.partitionsLoaded = true) (hcmd : i.options ≠ none)
    (hown : stack.frame.options = i.options) (hdir : i.storagePath ≠ "" → (i.env stack).updateDir = i.otaDir) :
    deed (i.env stack) = decision i := by
  obtain ⟨opts, ha⟩ := Option.ne_none_iff_exists'.mp hcmd
  rw [deed_options stack h ha (hown.trans ha), ← direct_decision stack h hdir, ha]
  rfl

/-- A storage that was seen and has an `ota` directory is installed whatever words there are. -/
theorem storage_first {i : Inputs} (h : i.partitionsLoaded = true) (hcmd : i.options ≠ none) (hs : i.storageSeen = true)
    (hota : i.storagePath ≠ "" ∧ i.otaDir = true) (l : Locals) (b : Bool) (ws : List (List UInt8)) :
    deed (i.env ⟨l, b, .words ws⟩) = decision i := by
  obtain ⟨opts, ha⟩ := Option.ne_none_iff_exists'.mp hcmd
  have hdir : (i.env ⟨l, b, .words ws⟩).updateDir = true := by simp [Inputs.env, hs, hota.2]
  have hkept : (parseOptions (getoptLong ws)).shouldDeletePackage ≠ 1 := by
    rw [parseOptions_delete]
    decide
  have hdecision : decision i = (⟨i.installs i.storagePath, some i.storagePath, none⟩, false) := by
    simp [decision, h, hota]
  rw [deed_options _ h ha rfl, direct_storage _ ⟨hota.1, hdir⟩, finish_kept _ _ hkept, hdecision]
  rfl

/-- A command with words: what is left of them decides. -/
theorem options_never {i : Inputs} (h : i.partitionsLoaded = true) {opts : List Opt} (ha : i.options = some opts) :
    ¬ ∀ stack, deed (i.env stack) = decision i := by
  intro hall
  have hastray := (hall ⟨⟨none, false, 0⟩, false, .astray⟩).symm
  rw [deed_astray _ h ha rfl] at hastray
  by_cases hota : i.storageSeen = true ∧ i.storagePath ≠ "" ∧ i.otaDir = true
  · have hinstalled : (decision i).1.installed = some i.storagePath := by simp [decision, h, hota]
    rw [hastray] at hinstalled
    cases hinstalled
  · -- nothing to install: `--wipe_userdata` is read where the words were
    have hwipes := hall ⟨⟨none, false, 0⟩, false, .words [lit "--wipe_userdata"]⟩
    have hno : ¬ ((i.env ⟨⟨none, false, 0⟩, false, .words [lit "--wipe_userdata"]⟩).storagePath ≠ "" ∧
        (i.env ⟨⟨none, false, 0⟩, false, .words [lit "--wipe_userdata"]⟩).updateDir = true) := by
      intro hyes
      obtain ⟨hpath, hdir⟩ := hyes
      cases hs : i.storageSeen with
      | true => exact hota ⟨hs, hpath, by simpa [Inputs.env, hs] using hdir⟩
      | false => simp [Inputs.env, hs] at hdir
    have hwipe : parseOptions (getoptLong [lit "--wipe_userdata"]) = ⟨none, true, 0⟩ := by decide
    rw [deed_options _ h ha rfl, hwipe, direct_wipe hno rfl, hastray] at hwipes
    simp at hwipes

/-- No options, and a storage seen: the locals were jumped over. -/
theorem storage_only_iff {i : Inputs} (h : i.partitionsLoaded = true) (ha : i.options = none) (hs : i.storageSeen = true) :
    (∀ stack, deed (i.env stack) = decision i) ↔
      i.storagePath ≠ "" ∧ i.otaDir = true ∧ ¬ i.installs i.storagePath := by
  have hdir : ∀ stack, (i.env stack).updateDir = i.otaDir := by
    intro stack
    simp [Inputs.env, hs]
  by_cases hota : i.storagePath ≠ "" ∧ i.otaDir = true
  · have hdeed : ∀ stack, deed (i.env stack) =
        (finish (installPackage (i.packages i.storagePath)).ret (some i.storagePath) stack.locals, false) := by
      intro stack
      rw [deed_storage stack h ha hs, direct_storage _ ⟨hota.1, (hdir stack).trans hota.2⟩]
      rfl
    have hdecision : decision i = (⟨i.installs i.storagePath, some i.storagePath, none⟩, false) := by
      simp [decision, h, hota]
    constructor
    · intro hall
      refine ⟨hota.1, hota.2, fun hyes => ?_⟩
      have hdelete := hall ⟨⟨some "", false, 1⟩, false, .astray⟩
      rw [hdeed, hdecision] at hdelete
      have hstatus : (installPackage (i.packages i.storagePath)).ret = installSuccess := hyes
      simp [finish, hstatus] at hdelete
    · rintro ⟨-, -, hno⟩ stack
      have hstatus : (installPackage (i.packages i.storagePath)).ret ≠ installSuccess := hno
      rw [hdeed, hdecision]
      simp [finish, hstatus, failed, hno]
  · refine iff_of_false ?_ (fun hyes => hota ⟨hyes.1, hyes.2.1⟩)
    intro hall
    have hno : ∀ stack, ¬ ((i.env stack).storagePath ≠ "" ∧ (i.env stack).updateDir = true) := by
      intro stack
      rw [hdir]
      exact hota
    have hagree := (hall ⟨⟨some "", false, 0⟩, false, .astray⟩).trans (hall ⟨⟨none, false, 0⟩, false, .astray⟩).symm
    rw [deed_storage _ h ha hs, deed_storage _ h ha hs, direct_package (hno _) rfl, direct_wipe (hno _) rfl] at hagree
    simp [failed] at hagree

/-- `main` does what is decided whatever is on the stack exactly for the inputs in
    `Determined`. -/
theorem acts_on_inputs_iff (i : Inputs) : (∀ stack, deed (i.env stack) = decision i) ↔ Determined i := by
  unfold Determined
  cases h : i.partitionsLoaded with
  | false => exact iff_of_true (fun stack => deed_unloaded stack h) (Or.inl rfl)
  | true =>
    simp only [Bool.true_eq_false, false_or]
    cases ha : i.options with
    | some opts => exact iff_of_false (options_never h ha) (fun hno => by cases hno.1)
    | none =>
      rw [and_iff_right rfl]
      cases hs : i.storageSeen with
      | true => exact storage_only_iff h ha hs
      | false =>
        simp only [deed_nothing _ h ha hs]
        by_cases hota : i.storagePath ≠ "" ∧ i.otaDir = true
        · refine iff_of_false ?_ (fun hno => hno hota)
          intro hall
          have hnothing := hall ⟨⟨none, false, 0⟩, false, .astray⟩
          simp [decision, h, hota, failed] at hnothing
        · refine iff_of_true ?_ hota
          simp [decision, h, hota, ha, parseOptions, failed]

/-- No u-boot `cmd`, and a storage without an `ota` directory. -/
def bareStorage : Inputs where
  storageSeen := true
  storagePath := "/mnt/media_rw/usb"
  otaDir := false
  partitionsLoaded := true
  printed := []
  table := secondMissing.table
  wipe := ⟨false, false, .spawnFailed, .spawnFailed⟩
  packages := fun _ => brokenDirectory

/-- Nothing is to be done, and what happens to be on the stack decides what is: a package
    is installed and deleted, or the user data is wiped. -/
theorem stack_decides :
    decision bareStorage = (failed none, false) ∧
    deed (bareStorage.env ⟨⟨none, false, 0⟩, false, .astray⟩) = (failed none, false) ∧
    deed (bareStorage.env ⟨⟨some "/data", false, 0⟩, false, .astray⟩) = (⟨true, some "/data", some "/data"⟩, false) ∧
    (deed (bareStorage.env ⟨⟨none, true, 0⟩, false, .astray⟩)).2 = true := by
  decide

end AmebaLinux.Recovery.Main
