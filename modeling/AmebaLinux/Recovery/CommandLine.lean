/-
  AmebaLinux.Recovery.CommandLine — the fixed buffers that a recovery command goes through
  (`recovery/recovery.c`: `args[8]` and the package's deletion in `main`;
  `recovery/install.c`: the paths and commands of `install_package` and
  `upgrade_package`).

  `AmebaLinux.Recovery.Main` decides which path goes to `install_package` and which is
  deleted: the storage's, the one found where the words of the command were, or the one
  that `package_path` happens to hold where its initialisation is jumped over. Each text
  that is built from it is listed with the size of its buffer (`Build`); bytes become
  characters one to one.

  Proved:
  - `buffers_hold_iff`: everything fits exactly when the command has at most seven words and
    the paths that are installed and deleted are short enough (`Room`). Eight words are
    enough to leave `args` (`eight_words_overflow`).
-/

import AmebaLinux.Recovery.Main

namespace AmebaLinux.Recovery.CommandLine

open AmebaLinux.Lib.CString
open AmebaLinux.Recovery.Install
open AmebaLinux.Recovery.Main
open AmebaLinux.Recovery.Options

/-! ## What is built from the path -/

structure Build where
  size : Nat
  text : String
  deriving DecidableEq, Repr

/-- With its NUL. -/
def Build.Fits (b : Build) : Prop := b.text.length + 1 ≤ b.size

instance (b : Build) : Decidable b.Fits := inferInstanceAs (Decidable (_ ≤ _))

def configFileName : String := "flash_image.cfg"
def gUpdateDir : String := "/tmp"
def gImagePath : String := "ota/updater.tar.gz"

/-- An image that the update process unpacks, and whether its digest as well. The path is
    that of `gImageInfo`. -/
structure Unpack where
  image : String
  md5 : Bool
  short : image.length ≤ 127

/-- Two images of the `flash_image.cfg` that comes with the program. -/
def shippedUnpacks : List Unpack := [⟨"fip.img", true, by decide⟩, ⟨"kernel.img", false, by decide⟩]

def Unpack.builds (zipPath : String) (u : Unpack) : List Build :=
  ⟨256, "tar -xzvf " ++ zipPath ++ " " ++ u.image ++ " -C " ++ gUpdateDir⟩ ::
    if u.md5 then [⟨256, "tar -xzvf " ++ zipPath ++ " ./" ++ u.image ++ ".md5 -C " ++ gUpdateDir⟩] else []

/-- `upgrade_package` with `update_from_tar`: `target_path`, `zip_path`, `config` and the
    commands of the update process. -/
def upgradeFromTar (path : String) (unpacks : List Unpack) : List Build :=
  ⟨32, gUpdateDir⟩ :: ⟨64, path⟩ :: ⟨128, gUpdateDir ++ "/" ++ configFileName⟩ :: unpacks.flatMap (Unpack.builds path)

/-- And from a directory: `target_path` and `config`. -/
def upgradeFromDir (path : String) : List Build := [⟨32, path⟩, ⟨128, path ++ "/" ++ configFileName⟩]

/-- From `strcpy(gzpackage, ...)` on. -/
def installFromTar (gzpackage : String) (p : InstallEnv) (unpacks : List Unpack) : List Build :=
  ⟨64, gzpackage⟩ :: ⟨256, "tar -xzvf " ++ gzpackage ++ " " ++ configFileName ++ " -C " ++ gUpdateDir⟩ ::
    if execCmd p.tarConfig = 0 then upgradeFromTar gzpackage unpacks else []

def installBuilds (package : String) (p : InstallEnv) (unpacks : List Unpack) : List Build :=
  ⟨64, package ++ "/ota/" ++ configFileName⟩ ::
    if p.otaConfig then ⟨64, package ++ "/ota"⟩ :: upgradeFromDir (package ++ "/ota")
    else
      ⟨64, package ++ "/" ++ gImagePath⟩ ::
        if p.otaTar then installFromTar (package ++ "/" ++ gImagePath) p unpacks
        else if p.opens then installFromTar package p unpacks
        else []

/-- For the path that was installed and the one that was deleted. -/
def outcomeBuilds (e : Env) (o : Outcome) (unpacks : String → List Unpack) : List Build :=
  (o.installed.toList.flatMap fun path => installBuilds path (e.packages path) (unpacks path)) ++
    o.deleted.toList.map fun path => ⟨32, "rm -fr " ++ path⟩

def mainBuilds (e : Env) (unpacks : String → List Unpack) : List Build := outcomeBuilds e (recoveryMain e) unpacks

/-- The locals with which `main` gets to `install_directly`, if it does. -/
def localsAt (e : Env) : Option Locals :=
  if !e.partitionsLoaded then none
  else
    match e.args with
    | none => if e.storageSeen then some e.locals else none
    | some frame => frame.options.map parseOptions

theorem recoveryMain_eq (e : Env) :
    recoveryMain e = match localsAt e with
      | some l => installDirectly e l
      | none => failed none := by
  unfold recoveryMain localsAt
  cases e.partitionsLoaded with
  | false => rfl
  | true =>
    cases e.args with
    | none => cases e.storageSeen <;> rfl
    | some frame => cases frame <;> rfl

/-! ## The builds fit -/

theorem configFileName_length : configFileName.length = 15 := rfl

theorem gUpdateDir_length : gUpdateDir.length = 4 := rfl

theorem gImagePath_length : gImagePath.length = 18 := rfl

theorem Unpack.builds_fit {zipPath : String} (h : zipPath.length ≤ 63) (u : Unpack) : ∀ b ∈ u.builds zipPath, b.Fits := by
  have htar : ("tar -xzvf " : String).length = 10 := rfl
  have hinto : (" " : String).length = 1 ∧ (" -C " : String).length = 4 ∧ (" ./" : String).length = 3 ∧
      (".md5 -C " : String).length = 8 := ⟨rfl, rfl, rfl, rfl⟩
  have hshort := u.short
  intro b hb
  rcases List.mem_cons.mp hb with rfl | hb
  · simp only [Build.Fits, String.length_append, htar, hinto, gUpdateDir_length]
    omega
  · split at hb
    · rw [List.mem_singleton.mp hb]
      simp only [Build.Fits, String.length_append, htar, hinto, gUpdateDir_length]
      omega
    · cases hb

example : shippedUnpacks.flatMap (Unpack.builds "/data/updater.tar.gz") =
    [⟨256, "tar -xzvf /data/updater.tar.gz fip.img -C /tmp"⟩, ⟨256, "tar -xzvf /data/updater.tar.gz ./fip.img.md5 -C /tmp"⟩,
      ⟨256, "tar -xzvf /data/updater.tar.gz kernel.img -C /tmp"⟩] := by
  decide +kernel

theorem upgradeFromTar_fits {path : String} (h : path.length ≤ 63) (unpacks : List Unpack) :
    ∀ b ∈ upgradeFromTar path unpacks, b.Fits := by
  intro b hb
  simp only [upgradeFromTar, List.mem_cons, List.mem_flatMap] at hb
  rcases hb with rfl | rfl | rfl | ⟨u, -, hb⟩
  · decide
  · exact Nat.succ_le_succ h
  · decide
  · exact u.builds_fit h b hb

theorem installFromTar_fits_iff (gzpackage : String) (p : InstallEnv) (unpacks : List Unpack) :
    (∀ b ∈ installFromTar gzpackage p unpacks, b.Fits) ↔ gzpackage.length ≤ 63 := by
  constructor
  · intro h
    have hfirst := h ⟨64, gzpackage⟩ List.mem_cons_self
    exact Nat.le_of_succ_le_succ hfirst
  · intro h b hb
    rcases List.mem_cons.mp hb with rfl | hb
    · exact Nat.succ_le_succ h
    rcases List.mem_cons.mp hb with rfl | hb
    · have htar : ("tar -xzvf " : String).length = 10 ∧ (" " : String).length = 1 ∧ (" -C " : String).length = 4 :=
        ⟨rfl, rfl, rfl⟩
      simp only [Build.Fits, String.length_append, htar, configFileName_length, gUpdateDir_length]
      omega
    · split at hb
      · exact upgradeFromTar_fits h unpacks b hb
      · cases hb

theorem upgradeFromDir_fits_iff (path : String) : (∀ b ∈ upgradeFromDir path, b.Fits) ↔ path.length ≤ 31 := by
  have hslash : ("/" : String).length = 1 := rfl
  simp only [upgradeFromDir, List.forall_mem_cons, Build.Fits, String.length_append, hslash, configFileName_length,
    List.not_mem_nil, false_imp_iff, implies_true, and_true]
  omega

theorem installBuilds_fits_iff (package : String) (p : InstallEnv) (unpacks : List Unpack) :
    (∀ b ∈ installBuilds package p unpacks, b.Fits) ↔ package.length ≤ 43 ∧ (p.otaConfig = true → package.length ≤ 27) := by
  have hlit : ("/ota/" : String).length = 5 ∧ ("/ota" : String).length = 4 ∧ ("/" : String).length = 1 := ⟨rfl, rfl, rfl⟩
  have hpath : Build.Fits ⟨64, package ++ "/ota/" ++ configFileName⟩ ↔ package.length ≤ 43 := by
    simp only [Build.Fits, String.length_append, hlit, configFileName_length]
    omega
  rw [installBuilds, List.forall_mem_cons, hpath]
  refine and_congr_right fun hle => ?_
  by_cases hota : p.otaConfig = true
  · rw [if_pos hota, List.forall_mem_cons, upgradeFromDir_fits_iff]
    simp only [Build.Fits, String.length_append, hlit, hota, true_imp_iff]
    omega
  · have hgz : (package ++ "/" ++ gImagePath).length ≤ 63 := by
      simp only [String.length_append, hlit, gImagePath_length]
      omega
    rw [if_neg hota, List.forall_mem_cons]
    refine iff_of_true ⟨Nat.succ_le_succ hgz, ?_⟩ (fun h => absurd h hota)
    split
    · exact (installFromTar_fits_iff _ p unpacks).mpr hgz
    · split
      · exact (installFromTar_fits_iff _ p unpacks).mpr (by omega)
      · nofun

/-! ## The deletion -/

/-- The installation of a package is reported as successful. -/
def Installs (p : InstallEnv) : Prop :=
  p.otaConfig = true ∨ ((p.otaTar = true ∨ p.opens = true) ∧ execCmd p.tarConfig = 0 ∧ StepsSucceed p.upgrade)

theorem installs_iff (p : InstallEnv) : (installPackage p).ret = installSuccess ↔ Installs p := by
  unfold installPackage Installs
  by_cases hota : p.otaConfig = true
  · rw [if_pos hota]
    exact iff_of_true rfl (Or.inl hota)
  · rw [if_neg hota, or_iff_right hota]
    by_cases hthere : p.otaTar = true ∨ p.opens = true
    · rw [if_neg (by rcases hthere with h | h <;> simp [h])]
      by_cases hexec : execCmd p.tarConfig = 0
      · rw [if_pos hexec]
        dsimp only
        rw [upgrade_success_iff]
        exact ⟨fun h => ⟨hthere, hexec, h⟩, fun h => h.2.2⟩
      · rw [if_neg hexec]
        exact iff_of_false (by decide) (fun h => hexec h.2.1)
    · have hnone : (!p.otaTar && !p.opens) = true := by
        rw [not_or] at hthere
        simp [hthere.1, hthere.2]
      rw [if_pos hnone]
      exact iff_of_false (by decide) (fun h => hthere h.1)

theorem delete_fits_iff (path : String) : Build.Fits ⟨32, "rm -fr " ++ path⟩ ↔ path.length ≤ 24 := by
  have hrm : ("rm -fr " : String).length = 7 := rfl
  simp only [Build.Fits, String.length_append, hrm]
  omega

/-- The paths that are installed and deleted with these locals are short enough. -/
def Room (e : Env) (l : Locals) : Prop :=
  if e.storagePath ≠ "" ∧ e.updateDir = true then
    e.storagePath.length ≤ 43 ∧ ((e.packages e.storagePath).otaConfig = true → e.storagePath.length ≤ 27) ∧
      (Installs (e.packages e.storagePath) → l.shouldDeletePackage = 1 → ∀ path, l.packagePath = some path → path.length ≤ 24)
  else
    ∀ path, l.packagePath = some path → path.length ≤ 43 ∧ (Installs (e.packages path) → path.length ≤ 24)

/-- From a storage: the deletion is that of whatever `package_path` holds. -/
theorem storage_fits_iff {e : Env} (hs : e.storagePath ≠ "" ∧ e.updateDir = true) (l : Locals)
    (unpacks : String → List Unpack) : (∀ b ∈ outcomeBuilds e (installDirectly e l) unpacks, b.Fits) ↔ Room e l := by
  rw [Room, if_pos hs, outcomeBuilds, installDirectly, if_pos hs, List.forall_mem_append, finish_installed, ← and_assoc,
    ← installBuilds_fits_iff e.storagePath (e.packages e.storagePath) (unpacks e.storagePath), ← installs_iff]
  simp only [Option.toList_some, List.flatMap_cons, List.flatMap_nil, List.append_nil]
  refine and_congr_right fun _ => ?_
  by_cases hok : (installPackage (e.packages e.storagePath)).ret = installSuccess
  · by_cases hdel : l.shouldDeletePackage = 1
    · rcases hp : l.packagePath with _ | path
      · simp [finish, hok, hdel, hp]
      · simp [finish, hok, hdel, hp, delete_fits_iff]
    · simp [finish, hok, hdel]
  · simp [finish, hok, failed]

/-- From `package_path`: it is deleted when its installation succeeds. -/
theorem package_fits_iff {e : Env} (hs : ¬ (e.storagePath ≠ "" ∧ e.updateDir = true)) (l : Locals)
    (unpacks : String → List Unpack) : (∀ b ∈ outcomeBuilds e (installDirectly e l) unpacks, b.Fits) ↔ Room e l := by
  rw [Room, if_neg hs, outcomeBuilds, installDirectly, if_neg hs]
  rcases hp : l.packagePath with _ | path
  · -- nothing is installed, whether the user data is wiped or not
    have hnothing : ∀ o : Outcome, o = failed none ∨ o = finish installSuccess none l →
        o.installed = none ∧ o.deleted = none := by
      intro o ho
      rcases ho with ho | ho
      · rw [ho]
        exact ⟨rfl, rfl⟩
      · rw [ho]
        exact ⟨finish_installed _ _ _, by simp [finish, hp]⟩
    refine iff_of_true ?_ nofun
    dsimp only
    rw [(hnothing _ ?_).1, (hnothing _ ?_).2]
    · nofun
    all_goals
      split
      · split
        · exact Or.inl rfl
        · exact Or.inr rfl
      · exact Or.inl rfl
  · dsimp only
    rw [List.forall_mem_append, finish_installed]
    simp only [Option.toList_some, List.flatMap_cons, List.flatMap_nil, List.append_nil, Option.some.injEq, forall_eq']
    rw [installBuilds_fits_iff, ← installs_iff]
    by_cases hok : (installPackage (e.packages path)).ret = installSuccess
    · simp only [finish, hok, if_true, ne_eq, not_true_eq_false, if_false, Option.toList_some, List.map_cons, List.map_nil,
        List.mem_singleton, forall_eq, delete_fits_iff, true_imp_iff]
      omega
    · have hota : ¬ (e.packages path).otaConfig = true := fun h => hok ((installs_iff _).mpr (Or.inl h))
      simp [finish, hok, failed, hota]

/-! ## Every buffer -/

/-- At most seven words are stored, and every text fits its buffer. -/
def BuffersHold (e : Env) (output : List UInt8) (frame : Frame) (unpacks : String → List Unpack) : Prop :=
  stored output ≤ 7 ∧ ∀ b ∈ mainBuilds { e with args := recoveryArgs output frame } unpacks, b.Fits

/-- Everything fits exactly when the command has at most seven words, and `main` does not get
    to `install_directly` or has room there. -/
theorem buffers_hold_iff (e : Env) (output : List UInt8) (frame : Frame) (unpacks : String → List Unpack) :
    BuffersHold e output frame unpacks ↔
      stored output ≤ 7 ∧ ∀ l, localsAt { e with args := recoveryArgs output frame } = some l → Room e l := by
  refine and_congr_right fun _ => ?_
  rw [mainBuilds, recoveryMain_eq]
  rcases localsAt { e with args := recoveryArgs output frame } with _ | l
  · exact iff_of_true nofun nofun
  · simp only [Option.some.injEq, forall_eq']
    by_cases hs : e.storagePath ≠ "" ∧ e.updateDir = true
    · exact storage_fits_iff hs l unpacks
    · exact package_fits_iff hs l unpacks

def eightWords : List UInt8 := lit "cmd=a b c d e f g h\n"

/-- No command, a storage without an `ota` directory, and a path left on the stack. -/
def leftoverPath : Env := { mountedBroken ⟨some "/mnt/storage/updater.tar.gz", false, 0⟩ with updateDir := false }

/-- The eighth word goes behind `args[7]`, whatever `main` does then. And the package that
    happens to be on the stack is installed, and the command that deletes it has 34
    characters, for 32 bytes. -/
theorem eight_words_overflow :
    (stored eightWords = 8 ∧ ∀ e frame unpacks, ¬ BuffersHold e eightWords frame unpacks) ∧
    ⟨32, "rm -fr /mnt/storage/updater.tar.gz"⟩ ∈ mainBuilds leftoverPath (fun _ => shippedUnpacks) ∧
    ¬ BuffersHold leftoverPath [] .astray (fun _ => shippedUnpacks) := by
  have hstored : stored eightWords = 8 := by decide +kernel
  have hbuild : ⟨32, "rm -fr /mnt/storage/updater.tar.gz"⟩ ∈ mainBuilds leftoverPath (fun _ => shippedUnpacks) := by
    decide +kernel
  refine ⟨⟨hstored, fun e frame unpacks h => ?_⟩, hbuild, fun h => ?_⟩
  · have hle := h.1
    rw [hstored] at hle
    exact absurd hle (by decide)
  · exact absurd (h.2 _ hbuild) (by decide)

end AmebaLinux.Recovery.CommandLine
