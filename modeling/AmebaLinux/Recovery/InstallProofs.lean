/-
  AmebaLinux.Recovery.InstallProofs — what an update leaves on the flash, wherever it
  stops (see `AmebaLinux.Recovery.Install`).

  The two loops visit the selected images in a fixed order (`plan`), and go on only past
  an image that is found, verified, erased and written (`updateProcess_eq`).

  Proved:
  - `upgrade_success_iff`: `upgrade_package` succeeds exactly when every step does.
  - `failed_check_keeps_the_rest`: an image that is missing or fails its check stops the
    process before anything of it or of a later image is erased or written. Earlier
    images are already on the flash: `first_image_written_before_the_second_is_checked`.
  - `boot_slots_survive`: at every point where the process may stop, at most one of the
    two copies of a boot image is half written, and slot B is untouched until all of
    slot A is written.
-/

import AmebaLinux.Recovery.Install
import Mathlib.Tactic

namespace AmebaLinux.Recovery.Install

/-! ## The plan -/

def visited (slot : Slot) (l : List Image) : List Image :=
  l.takeWhile fun i => decide (¬ (slot = .slotB ∧ i.id > Image.apimage.id))

/-- The selected images of a slot, in order. -/
def slotPlan (config : Config) (slot : Slot) : List (Slot × Image) :=
  ((visited slot images).filter fun i => decide (config.flashType i ≠ 0)).map (slot, ·)

def plan (config : Config) : List (Slot × Image) := slotPlan config .slotA ++ slotPlan config .slotB

theorem Part.andThen_assoc (a b c : Part) : (a.andThen b).andThen c = a.andThen (b.andThen c) := by
  rcases a with ⟨ea, _ | _⟩ <;> rcases b with ⟨eb, _ | _⟩ <;> simp [Part.andThen]

theorem Part.done_andThen (a : Part) : Part.andThen ⟨[], true⟩ a = a := by
  simp [Part.andThen]

theorem Part.andThen_goesOn (a b : Part) : (a.andThen b).goesOn = true ↔ a.goesOn = true ∧ b.goesOn = true := by
  rcases a with ⟨ea, _ | _⟩ <;> simp [Part.andThen]

def runPlan (u : Update) : List (Slot × Image) → Part
  | [] => ⟨[], true⟩
  | x :: rest => (updateImage u x.1 x.2).andThen (runPlan u rest)

theorem runPlan_append (u : Update) (a b : List (Slot × Image)) :
    runPlan u (a ++ b) = (runPlan u a).andThen (runPlan u b) := by
  induction a with
  | nil => rw [List.nil_append, runPlan, Part.done_andThen]
  | cons x a ih => rw [List.cons_append, runPlan, ih, runPlan, Part.andThen_assoc]

theorem updateSlot_eq (u : Update) (slot : Slot) (l : List Image) :
    updateSlot u slot l =
      runPlan u (((visited slot l).filter fun i => decide (u.config.flashType i ≠ 0)).map (slot, ·)) := by
  induction l with
  | nil => rfl
  | cons i rest ih =>
    unfold updateSlot
    by_cases hb : slot = .slotB ∧ i.id > Image.apimage.id
    · rw [if_pos hb, visited, List.takeWhile_cons_of_neg (by simp [hb])]
      rfl
    · have hv : visited slot (i :: rest) = i :: visited slot rest := by
        unfold visited
        exact List.takeWhile_cons_of_pos (decide_eq_true hb)
      rw [if_neg hb, hv]
      by_cases hf : u.config.flashType i = 0
      · rw [if_pos hf, ih, List.filter_cons_of_neg (by simpa using hf)]
      · rw [if_neg hf, ih, List.filter_cons_of_pos (by simpa using hf)]
        rfl

theorem updateProcess_eq (u : Update) : updateProcess u = runPlan u (plan u.config) := by
  rw [updateProcess, updateSlot_eq, updateSlot_eq, plan, runPlan_append]
  rfl

/-- A selected image of slot A is in the plan, and so is a selected boot image of slot B. -/
theorem mem_slotPlan {config : Config} {slot : Slot} {i : Image} :
    (slot, i) ∈ slotPlan config slot ↔ i ∈ visited slot images ∧ config.flashType i ≠ 0 := by
  simp [slotPlan]

theorem slot_of_mem_slotPlan {config : Config} {slot : Slot} {x : Slot × Image} (h : x ∈ slotPlan config slot) :
    x.1 = slot := by
  simp only [slotPlan, List.mem_map] at h
  obtain ⟨i, -, rfl⟩ := h
  rfl

/-! ## One image -/

/-- The image is there and, where digests are checked, passes. -/
def Checked (u : Update) (x : Slot × Image) : Prop :=
  (u.env x.1 x.2).found = true ∧
    (u.config.md5check = 0 → (u.env x.1 x.2).mdFound = true ∧ verifyPackage (u.env x.1 x.2) = 0)

theorem updateImage_unchecked {u : Update} {x : Slot × Image} (h : ¬ Checked u x) : updateImage u x.1 x.2 = ⟨[], false⟩ := by
  unfold updateImage
  by_cases hf : (u.env x.1 x.2).found = true
  · rw [if_neg (by simp [hf])]
    by_cases hm : u.config.md5check = 0 ∧ (u.env x.1 x.2).mdFound = false
    · rw [if_pos hm]
    · rw [if_neg hm, if_pos]
      by_contra hv
      refine h ⟨hf, ?_⟩
      intro h0
      constructor
      · by_contra hmd
        exact hm ⟨h0, by simpa using hmd⟩
      · by_contra hne
        exact hv ⟨h0, hne⟩
  · rw [if_pos (by simpa using hf)]

theorem updateImage_checked {u : Update} {x : Slot × Image} (h : Checked u x) :
    updateImage u x.1 x.2 = (eraseFirst u x.1 x.2).andThen (writeImage u x.1 x.2) := by
  obtain ⟨hf, hmd⟩ := h
  unfold updateImage
  rw [if_neg (by simp [hf]), if_neg, if_neg]
  · rintro ⟨h0, hv⟩
    exact hv (hmd h0).2
  · rintro ⟨h0, hm⟩
    rw [(hmd h0).1] at hm
    cases hm

/-- All steps of one image succeed. -/
def Done (u : Update) (x : Slot × Image) : Prop :=
  Checked u x ∧ (x.2 = .rootfs ∨ x.2 = .userdata → execCmd (u.env x.1 x.2).erase = 0) ∧ execCmd (u.env x.1 x.2).dd = 0

theorem execCmd_neg {s : Status} : execCmd s < 0 ↔ execCmd s ≠ 0 := by
  rcases s with _ | code | _
  · simp [execCmd]
  · rcases code with _ | n <;> simp [execCmd]
  · simp [execCmd]

/-- What the erase comes to: nothing, an unfinished one that stops the process, or a whole one. -/
theorem eraseFirst_cases (u : Update) (slot : Slot) (i : Image) :
    (¬ (i = .rootfs ∨ i = .userdata) ∧ eraseFirst u slot i = ⟨[], true⟩) ∨
    ((i = .rootfs ∨ i = .userdata) ∧ execCmd (u.env slot i).erase ≠ 0 ∧
      eraseFirst u slot i = ⟨[.erase ((u.table .slotA i).map Node.char)], false⟩) ∨
    ((i = .rootfs ∨ i = .userdata) ∧ execCmd (u.env slot i).erase = 0 ∧
      eraseFirst u slot i =
        ⟨[.erase ((u.table .slotA i).map Node.char), .erased ((u.table .slotA i).map Node.char)], true⟩) := by
  by_cases hi : i = .rootfs ∨ i = .userdata
  · right
    by_cases he : execCmd (u.env slot i).erase = 0
    · exact Or.inr ⟨hi, he, by simp [eraseFirst, hi, wipeData, he]⟩
    · refine Or.inl ⟨hi, he, ?_⟩
      have := execCmd_neg.mpr he
      simp [eraseFirst, hi, wipeData, this]
  · exact Or.inl ⟨hi, by simp [eraseFirst, hi]⟩

theorem writeImage_goesOn (u : Update) (slot : Slot) (i : Image) :
    (writeImage u slot i).goesOn = true ↔ execCmd (u.env slot i).dd = 0 := by
  unfold writeImage
  by_cases hd : execCmd (u.env slot i).dd = 0 <;> simp [hd]

theorem updateImage_goesOn (u : Update) (x : Slot × Image) : (updateImage u x.1 x.2).goesOn = true ↔ Done u x := by
  by_cases hc : Checked u x
  · rw [updateImage_checked hc, Part.andThen_goesOn, writeImage_goesOn]
    rcases eraseFirst_cases u x.1 x.2 with ⟨hi, h⟩ | ⟨hi, he, h⟩ | ⟨hi, he, h⟩
    · simp [h, Done, hc, hi]
    · simp [h, Done, hc, hi, he]
    · simp [h, Done, hc, hi, he]
  · rw [updateImage_unchecked hc]
    exact iff_of_false (by simp) (fun h => hc h.1)

theorem runPlan_goesOn (u : Update) (l : List (Slot × Image)) : (runPlan u l).goesOn = true ↔ ∀ x ∈ l, Done u x := by
  induction l with
  | nil => simp [runPlan]
  | cons x l ih => rw [runPlan, Part.andThen_goesOn, updateImage_goesOn, ih, List.forall_mem_cons]

/-- The process went through the plan only past finished images. -/
theorem mem_runPlan {u : Update} {l : List (Slot × Image)} {e : Event} (h : e ∈ (runPlan u l).events) :
    ∃ a x b, l = a ++ x :: b ∧ (∀ y ∈ a, Done u y) ∧ Checked u x ∧ e ∈ (updateImage u x.1 x.2).events := by
  induction l with
  | nil => simp [runPlan] at h
  | cons x l ih =>
    have here : e ∈ (updateImage u x.1 x.2).events →
        ∃ a y b, x :: l = a ++ y :: b ∧ (∀ z ∈ a, Done u z) ∧ Checked u y ∧ e ∈ (updateImage u y.1 y.2).events := by
      intro he
      refine ⟨[], x, l, rfl, fun y hy => by simp at hy, ?_, he⟩
      by_contra hc
      rw [updateImage_unchecked hc] at he
      simp at he
    rw [runPlan, Part.andThen] at h
    by_cases hg : (updateImage u x.1 x.2).goesOn = true
    · rw [if_pos hg] at h
      rcases List.mem_append.mp h with h | h
      · exact here h
      · obtain ⟨a, y, b, rfl, hd, hc, he⟩ := ih h
        refine ⟨x :: a, y, b, rfl, ?_, hc, he⟩
        intro z hz
        rcases List.mem_cons.mp hz with rfl | hz
        · exact (updateImage_goesOn u z).mp hg
        · exact hd z hz
    · rw [if_neg hg] at h
      exact here h

/-- A finished image has been written. -/
theorem written_of_done {u : Update} {x : Slot × Image} (h : Done u x) :
    .written x.1 x.2 ((u.table x.1 x.2).map Node.block) ∈ (updateImage u x.1 x.2).events := by
  obtain ⟨hc, he, hd⟩ := h
  have hw : .written x.1 x.2 ((u.table x.1 x.2).map Node.block) ∈ (writeImage u x.1 x.2).events := by
    simp [writeImage, hd]
  rw [updateImage_checked hc, Part.andThen]
  rcases eraseFirst_cases u x.1 x.2 with ⟨-, h⟩ | ⟨hi, hne, -⟩ | ⟨-, -, h⟩
  · rw [h]; exact List.mem_append_right _ hw
  · exact absurd (he hi) hne
  · rw [h]; exact List.mem_append_right _ hw

theorem written_of_goesOn {u : Update} {l : List (Slot × Image)} (h : (runPlan u l).goesOn = true) {x : Slot × Image}
    (hx : x ∈ l) : .written x.1 x.2 ((u.table x.1 x.2).map Node.block) ∈ (runPlan u l).events := by
  induction l with
  | nil => simp at hx
  | cons y l ih =>
    rw [runPlan, Part.andThen_goesOn] at h
    rw [runPlan, Part.andThen, if_pos h.1]
    rcases List.mem_cons.mp hx with rfl | hx
    · exact List.mem_append_left _ (written_of_done ((updateImage_goesOn u x).mp h.1))
    · exact List.mem_append_right _ (ih h.2 hx)

/-! ## The whole upgrade -/

/-- Every lookup and command of the upgrade gives what it should. -/
def StepsSucceed (e : UpgradeEnv) : Prop :=
  e.configOpens = true ∧ e.forks = true ∧ e.killed = none ∧
    ∃ config, e.config = some config ∧ ∀ x ∈ plan config, Done ⟨e.table, config, e.env⟩ x

theorem upgrade_success_iff (e : UpgradeEnv) : (upgradePackage e).ret = installSuccess ↔ StepsSucceed e := by
  rcases e with ⟨table, opens, config, forks, env, killed⟩
  rcases opens with _ | _
  · exact iff_of_false (by simp [upgradePackage, installSuccess]) (fun h => by cases h.1)
  rcases config with _ | config
  · refine iff_of_false (by simp [upgradePackage, installSuccess, installError]) ?_
    rintro ⟨-, -, -, c, hc, -⟩
    cases hc
  rcases forks with _ | _
  · exact iff_of_false (by simp [upgradePackage, installSuccess, installError]) (fun h => by cases h.2.1)
  rcases killed with _ | k
  · have hret : (upgradePackage ⟨table, true, some config, true, env, none⟩).ret =
        if (updateProcess ⟨table, config, env⟩).goesOn then installSuccess else installError := rfl
    rw [hret, updateProcess_eq]
    by_cases hg : (runPlan ⟨table, config, env⟩ (plan config)).goesOn = true
    · rw [if_pos hg]
      exact iff_of_true rfl ⟨rfl, rfl, rfl, config, rfl, (runPlan_goesOn _ _).mp hg⟩
    · rw [if_neg hg]
      refine iff_of_false (by decide) ?_
      rintro ⟨-, -, -, c, hc, hall⟩
      cases hc
      exact hg ((runPlan_goesOn _ _).mpr hall)
  · exact iff_of_false (by simp [upgradePackage, installSuccess, installError]) (fun h => by cases h.2.2.1)

/-- The flash commands of an upgrade are a prefix of its update process's. -/
theorem upgrade_events_before (e : UpgradeEnv) {config : Config} (h : e.config = some config) :
    (upgradePackage e).events <+: (runPlan ⟨e.table, config, e.env⟩ (plan config)).events := by
  rw [← updateProcess_eq ⟨e.table, config, e.env⟩]
  unfold upgradePackage
  rw [h]
  split
  · exact List.nil_prefix
  · dsimp only
    split
    · exact List.nil_prefix
    · split
      · exact List.take_prefix _ _
      · exact List.prefix_refl _

/-- An image that is missing or fails its check: the run fails, and what it has erased or
    written by then belongs to images before that one, each found and verified. -/
theorem failed_check_keeps_the_rest (e : UpgradeEnv) (config : Config) (hconfig : e.config = some config)
    (before after : List (Slot × Image)) (x : Slot × Image) (hplan : plan config = before ++ x :: after)
    (hbad : ¬ Checked ⟨e.table, config, e.env⟩ x) :
    (upgradePackage e).ret ≠ installSuccess ∧
    ∀ ev ∈ (upgradePackage e).events, ∃ y ∈ before, Checked ⟨e.table, config, e.env⟩ y ∧
      ev ∈ (updateImage ⟨e.table, config, e.env⟩ y.1 y.2).events := by
  constructor
  · rw [ne_eq, upgrade_success_iff]
    rintro ⟨-, -, -, c, hc, hall⟩
    rw [hconfig] at hc
    cases hc
    exact hbad (hall x (by rw [hplan]; simp)).1
  · intro ev hev
    have hmem := (upgrade_events_before e hconfig).subset hev
    rw [hplan, runPlan_append, Part.andThen] at hmem
    have hstop : (runPlan ⟨e.table, config, e.env⟩ (x :: after)).events = [] := by
      rw [runPlan, updateImage_unchecked hbad]; rfl
    have hbefore : ev ∈ (runPlan ⟨e.table, config, e.env⟩ before).events := by
      by_cases hg : (runPlan ⟨e.table, config, e.env⟩ before).goesOn = true
      · rw [if_pos hg, hstop, List.append_nil] at hmem
        exact hmem
      · rw [if_neg hg] at hmem
        exact hmem
    obtain ⟨a, y, b, rfl, -, hc, he⟩ := mem_runPlan hbefore
    exact ⟨y, by simp, hc, he⟩

/-- The two KM4 images, with digests checked. -/
def km4Config : Config := ⟨0, fun i => if i = .km4boot ∨ i = .km4image2 then 1 else 0⟩

def fineImage : ImageEnv := ⟨true, true, .exited 0, some [0x61], some [0x61], .exited 0, .exited 0⟩

/-- A package whose second image is missing. -/
def secondMissing : UpgradeEnv where
  table := fun slot i => some (if slot = .slotA then i.id else 10 + i.id)
  configOpens := true
  config := some km4Config
  forks := true
  env := fun _ i => if i = .km4image2 then { fineImage with found := false } else fineImage
  killed := none

theorem secondMissing_unchecked : ¬ Checked ⟨secondMissing.table, km4Config, secondMissing.env⟩ (.slotA, .km4image2) := by
  rintro ⟨hf, -⟩
  exact absurd hf (by decide)

theorem second_missing_keeps_the_rest :
    (upgradePackage secondMissing).ret ≠ installSuccess ∧
    ∀ ev ∈ (upgradePackage secondMissing).events, ∃ y ∈ [(Slot.slotA, Image.km4boot)],
      Checked ⟨secondMissing.table, km4Config, secondMissing.env⟩ y ∧
      ev ∈ (updateImage ⟨secondMissing.table, km4Config, secondMissing.env⟩ y.1 y.2).events :=
  failed_check_keeps_the_rest secondMissing km4Config rfl [(.slotA, .km4boot)] [(.slotB, .km4boot), (.slotB, .km4image2)]
    (.slotA, .km4image2) (by decide) secondMissing_unchecked

/-- The check of the second image comes after the first one has been written. -/
theorem first_image_written_before_the_second_is_checked :
    ¬ Checked ⟨secondMissing.table, km4Config, secondMissing.env⟩ (.slotA, .km4image2) ∧
    (.slotA, .km4image2) ∈ plan km4Config ∧ (upgradePackage secondMissing).ret = installError ∧
    (upgradePackage secondMissing).events =
      [.write .slotA .km4boot (some (.block 0)), .written .slotA .km4boot (some (.block 0))] :=
  ⟨secondMissing_unchecked, by decide, by decide, by decide⟩

/-! ## What is on the flash -/

inductive Content where
  | old
  /-- An erase or a write has begun and not ended. -/
  | half
  | erased
  | whole
  deriving DecidableEq, Repr

def Event.leaves : Event → Content
  | .erase _ => .half
  | .erased _ => .erased
  | .write _ _ _ => .half
  | .written _ _ _ => .whole

def apply (c : Nat → Content) (e : Event) : Nat → Content := fun n => if e.partition = some n then e.leaves else c n

/-- The partitions after these flash events. -/
def after (events : List Event) : Nat → Content := events.foldl apply fun _ => .old

def NoHalf (c : Nat → Content) : Prop := ∀ n, c n ≠ .half

def OneHalf (c : Nat → Content) : Prop := ∀ m n, c m = .half → c n = .half → m = n

theorem NoHalf.one {c : Nat → Content} (h : NoHalf c) : OneHalf c := fun m _ hm => absurd hm (h m)

theorem NoHalf.apply_one {c : Nat → Content} (h : NoHalf c) (e : Event) : OneHalf (apply c e) := by
  have only : ∀ n, apply c e n = .half → e.partition = some n := by
    intro n hn
    by_contra hne
    rw [apply, if_neg hne] at hn
    exact h n hn
  intro m n hm hn
  exact Option.some.inj ((only m hm).symm.trans (only n hn))

/-- A command that ends leaves no partition half done. -/
theorem NoHalf.ended {c : Nat → Content} (h : NoHalf c) {b e : Event} (hp : b.partition = e.partition)
    (he : e.leaves ≠ .half) : NoHalf (apply (apply c b) e) := by
  intro n hn
  by_cases hn' : e.partition = some n
  · rw [apply, if_pos hn'] at hn
    exact he hn
  · rw [apply, if_neg hn', apply, if_neg (by rw [hp]; exact hn')] at hn
    exact h n hn

/-- Wherever it stops, at most one partition is half done, and none when it goes on. -/
def Part.Safe (p : Part) : Prop :=
  ∀ c, NoHalf c → (∀ q, q <+: p.events → OneHalf (q.foldl apply c)) ∧
    (p.goesOn = true → NoHalf (p.events.foldl apply c))

theorem Part.safe_done : Part.Safe ⟨[], true⟩ := by
  intro c hc
  refine ⟨?_, fun _ => hc⟩
  intro q hq
  rw [List.prefix_nil.mp hq]
  exact hc.one

theorem Part.safe_begun (b : Event) : Part.Safe ⟨[b], false⟩ := by
  intro c hc
  refine ⟨?_, fun h => by cases h⟩
  intro q hq
  rcases List.prefix_cons_iff.mp hq with rfl | ⟨t, rfl, ht⟩
  · exact hc.one
  · rw [List.prefix_nil.mp ht]
    exact hc.apply_one b

theorem Part.safe_ended {b e : Event} (hp : b.partition = e.partition) (he : e.leaves ≠ .half) :
    Part.Safe ⟨[b, e], true⟩ := by
  intro c hc
  have hend := hc.ended hp he
  refine ⟨?_, fun _ => hend⟩
  intro q hq
  rcases List.prefix_cons_iff.mp hq with rfl | ⟨t, rfl, ht⟩
  · exact hc.one
  rcases List.prefix_cons_iff.mp ht with rfl | ⟨t', rfl, ht'⟩
  · exact hc.apply_one b
  · rw [List.prefix_nil.mp ht']
    exact hend.one

theorem Part.Safe.andThen {p r : Part} (hp : p.Safe) (hr : r.Safe) : (p.andThen r).Safe := by
  unfold Part.andThen
  by_cases hg : p.goesOn = true
  · rw [if_pos hg]
    intro c hc
    obtain ⟨hpre, hend⟩ := hp c hc
    obtain ⟨hpre', hend'⟩ := hr _ (hend hg)
    constructor
    · intro q hq
      rcases List.prefix_or_prefix_of_prefix hq (List.prefix_append p.events r.events) with h | ⟨t, rfl⟩
      · exact hpre q h
      · rw [List.foldl_append]
        exact hpre' t ((List.prefix_append_right_inj p.events).mp hq)
    · intro h
      rw [List.foldl_append]
      exact hend' h
  · rw [if_neg hg]
    exact hp

theorem updateImage_safe (u : Update) (x : Slot × Image) : (updateImage u x.1 x.2).Safe := by
  by_cases hc : Checked u x
  · rw [updateImage_checked hc]
    have hw : (writeImage u x.1 x.2).Safe := by
      unfold writeImage
      by_cases hd : execCmd (u.env x.1 x.2).dd = 0
      · rw [if_pos hd]
        exact Part.safe_ended rfl (by simp [Event.leaves])
      · rw [if_neg hd]
        exact Part.safe_begun _
    rcases eraseFirst_cases u x.1 x.2 with ⟨-, h⟩ | ⟨-, -, h⟩ | ⟨-, -, h⟩
    · rw [h]; exact Part.safe_done.andThen hw
    · rw [h]; exact (Part.safe_begun _).andThen hw
    · rw [h]
      refine Part.Safe.andThen (Part.safe_ended rfl ?_) hw
      simp [Event.leaves]
  · rw [updateImage_unchecked hc]
    intro c hn
    refine ⟨?_, fun h => by cases h⟩
    intro q hq
    rw [List.prefix_nil.mp hq]
    exact hn.one

theorem runPlan_safe (u : Update) (l : List (Slot × Image)) : (runPlan u l).Safe := by
  induction l with
  | nil => exact Part.safe_done
  | cons x l ih => exact (updateImage_safe u x).andThen ih

/-! ## Boot slots -/

def Image.boot (i : Image) : Prop := i = .km4boot ∨ i = .km4image2 ∨ i = .apimage

/-- The six partitions of the boot images exist, are distinct, and no other image has one. -/
structure BootPartitions (table : Table) : Prop where
  listed : ∀ slot i, i.boot → (table slot i).isSome
  distinct : ∀ slot i slot' j, i.boot → table slot i = table slot' j → slot = slot' ∧ i = j

/-- Some flash command was started on partition `n`. -/
def touched (events : List Event) (n : Nat) : Prop := ∃ e ∈ events, e.partition = some n

theorem Part.mem_andThen {p r : Part} {e : Event} (h : e ∈ (p.andThen r).events) : e ∈ p.events ∨ e ∈ r.events := by
  unfold Part.andThen at h
  split at h
  · exact List.mem_append.mp h
  · exact Or.inl h

theorem map_partition_block (t : Option Nat) : (t.map Node.block).map Node.partition = t := by cases t <;> rfl

theorem map_partition_char (t : Option Nat) : (t.map Node.char).map Node.partition = t := by cases t <;> rfl

/-- The flash commands of an image are on its own partition, or erase its slot A one. -/
theorem partition_of_mem {u : Update} {x : Slot × Image} {e : Event} (h : e ∈ (updateImage u x.1 x.2).events) :
    e.partition = u.table x.1 x.2 ∨ e.partition = u.table .slotA x.2 := by
  by_cases hc : Checked u x
  · rw [updateImage_checked hc] at h
    rcases Part.mem_andThen h with h | h
    · right
      rcases eraseFirst_cases u x.1 x.2 with ⟨-, he⟩ | ⟨-, -, he⟩ | ⟨-, -, he⟩ <;> rw [he] at h
      · simp at h
      · rw [List.mem_singleton.mp h]
        exact map_partition_char _
      · rcases List.mem_pair.mp h with rfl | rfl <;> exact map_partition_char _
    · left
      unfold writeImage at h
      split at h
      · rcases List.mem_pair.mp h with rfl | rfl <;> exact map_partition_block _
      · rw [List.mem_singleton.mp h]
        exact map_partition_block _
  · rw [updateImage_unchecked hc] at h
    simp at h

/-- Nothing of slot A's pass touches the slot B partition of a boot image. -/
theorem slotA_avoids_slotB {u : Update} (hb : BootPartitions u.table) {i : Image} (hi : i.boot) {e : Event}
    (he : e ∈ (runPlan u (slotPlan u.config .slotA)).events) : e.partition ≠ u.table .slotB i := by
  intro hp
  obtain ⟨a, x, b, hl, -, -, hx⟩ := mem_runPlan he
  have hslot : x.1 = .slotA := slot_of_mem_slotPlan (by rw [hl]; simp)
  have hpart : e.partition = u.table .slotA x.2 := by
    rcases partition_of_mem hx with h | h
    · rwa [hslot] at h
    · exact h
  have := (hb.distinct .slotB i .slotA x.2 hi (hp.symm.trans hpart)).1
  cases this

/-- Wherever the update process stops: at most one of the two copies of a boot image is
    half written, and slot B's are untouched until all selected slot A images are written. -/
theorem boot_slots_survive (u : Update) (hb : BootPartitions u.table) (p : List Event)
    (hp : p <+: (updateProcess u).events) (i : Image) (hi : i.boot) (m n : Nat) (hm : u.table .slotA i = some m)
    (hn : u.table .slotB i = some n) :
    ¬ (after p m = .half ∧ after p n = .half) ∧
    (touched p n → ∀ j, u.config.flashType j ≠ 0 → .written .slotA j ((u.table .slotA j).map Node.block) ∈ p) := by
  rw [updateProcess_eq] at hp
  constructor
  · rintro ⟨ham, han⟩
    have hsafe := (runPlan_safe u (plan u.config) (fun _ => .old) (fun _ h => by cases h)).1 p hp
    have hmn : m = n := hsafe m n ham han
    subst hmn
    have := (hb.distinct .slotA i .slotB i hi (hm.trans hn.symm)).1
    cases this
  · rintro ⟨e, he, hpart⟩ j hj
    rw [plan, runPlan_append, Part.andThen] at hp
    have hnot : e ∉ (runPlan u (slotPlan u.config .slotA)).events := by
      intro hA
      exact slotA_avoids_slotB hb hi hA (hpart.trans hn.symm)
    by_cases hg : (runPlan u (slotPlan u.config .slotA)).goesOn = true
    · rw [if_pos hg] at hp
      rcases List.prefix_or_prefix_of_prefix hp (List.prefix_append _ _) with h | h
      · exact absurd (h.subset he) hnot
      · refine h.subset (written_of_goesOn (x := (.slotA, j)) hg (mem_slotPlan.mpr ⟨?_, hj⟩))
        cases j <;> decide
    · rw [if_neg hg] at hp
      exact absurd (hp.subset he) hnot

theorem secondMissing_boot : BootPartitions secondMissing.table := by
  refine ⟨fun _ _ _ => rfl, ?_⟩
  intro slot i slot' j _ h
  cases slot <;> cases slot' <;> cases i <;> cases j <;> first | exact ⟨rfl, rfl⟩ | exact absurd h (by decide)

/-- Killed inside the first `dd`. -/
theorem killed_in_first_write :
    let p : List Event := [.write .slotA .km4boot (some (.block 0))]
    ¬ (after p 0 = .half ∧ after p 10 = .half) ∧ (touched p 10 → ∀ j, km4Config.flashType j ≠ 0 →
      .written .slotA j ((secondMissing.table .slotA j).map Node.block) ∈ p) :=
  boot_slots_survive ⟨secondMissing.table, km4Config, secondMissing.env⟩ secondMissing_boot
    [.write .slotA .km4boot (some (.block 0))] ⟨[.written .slotA .km4boot (some (.block 0))], by decide⟩
    .km4boot (Or.inl rfl) 0 10 rfl rfl

end AmebaLinux.Recovery.Install
