/-
  AmebaLinux.Rcp.DeviceConfigProofs — what `parse_device_config` leaves (see
  `AmebaLinux.Rcp.DeviceConfig`).

  `Settings` says what the settings are: six values that do not touch each other. A line
  that is stored within its member sets one of them and leaves the others
  (`exec_refines`); a device path of 48 bytes or more does not stay within its member, and
  the check on its length looks at the tag.

  Proved:
  - `rejected_unchanged_iff`: a rejected file changes nothing exactly when no device path
    before the rejected line runs past the struct and the last `ConfigBin` line before it,
    if there is one, names the path that `RcpConfigBin` has anyway (`rejected_after_path`).
  - `stored_faithfully_iff`: a file without a rejected line is stored as it says exactly
    when every device path fits and the last baud rate is a number that fits
    (`long_device_spills`).
-/

import AmebaLinux.Lib.Machine
import AmebaLinux.Rcp.DeviceConfig

namespace AmebaLinux.Rcp.DeviceConfig

open AmebaLinux.Lib.Bytes
open AmebaLinux.Lib.CString
open AmebaLinux.Lib (Machine.run Machine.run_cons Machine.run_latest)

/-! ## Lines -/

theorem trim_sublist (s : List UInt8) : (trim s).Sublist s :=
  ((List.rdropWhile_prefix isspace _).sublist).trans (List.dropWhile_suffix _).sublist

theorem trim_newline (s : List UInt8) : trim (s ++ [newline]) = trim s := by
  have hspace : isspace newline = true := by decide
  unfold trim
  rw [List.dropWhile_append]
  split
  · rename_i hall
    have hnone : s.dropWhile isspace = [] := List.isEmpty_iff.mp hall
    rw [hnone, List.dropWhile_cons_of_pos hspace, List.dropWhile_nil]
  · rw [List.rdropWhile_concat_pos isspace _ _ hspace]

/-- The newline at the end of a line is not seen. -/
theorem splitLine_newline (line : List UInt8) : splitLine (line ++ [newline]) = splitLine line := by
  have hcstr : trim (cstr (line ++ [newline])) = trim (cstr line) := by
    unfold cstr
    rw [List.takeWhile_append]
    split
    · rename_i hall
      have hwhole : line.takeWhile (fun c => decide (c ≠ 0)) = line := (List.takeWhile_prefix _).eq_of_length hall
      rw [hwhole]
      exact trim_newline line
    · rfl
  rw [splitLine, splitLine, hcstr]

/-- A value is a string that is shorter than its line. -/
def Entry.Read : Entry → Prop
  | .noSeparator => True
  | .pair _ value => 0 ∉ value ∧ value.length + 1 < lineSize

theorem splitLine_read {line : List UInt8} (hline : line.length + 1 ≤ lineSize) {e : Entry} (h : splitLine line = some e) :
    e.Read := by
  unfold splitLine at h
  dsimp only at h
  split at h
  · cases h
  · split at h
    · rename_i hequals
      cases h
      have hsub : (trim (cstr line)).Sublist line := (trim_sublist _).trans (List.takeWhile_sublist _)
      have hvalue := trim_sublist (((trim (cstr line)).dropWhile (· ≠ equals)).drop 1)
      refine ⟨?_, ?_⟩
      · intro hnul
        apply cstr_nul_free line
        apply (trim_sublist (cstr line)).subset
        apply (List.dropWhile_suffix _).subset
        exact List.mem_of_mem_drop (hvalue.subset hnul)
      · -- the separator is not part of it
        have hpos : 0 < ((trim (cstr line)).dropWhile (· ≠ equals)).length := by
          rw [List.length_pos_iff]
          intro hnone
          have hall := List.dropWhile_eq_nil_iff.mp hnone equals hequals
          simp at hall
        have h1 := hvalue.length_le
        have h2 := (List.dropWhile_suffix (fun c => decide (c ≠ equals)) (l := trim (cstr line))).length_le
        have h3 := hsub.length_le
        rw [List.length_drop] at h1
        omega
    · cases h
      trivial

theorem entries_read {text : List UInt8} {e : Entry} (h : e ∈ entries text) : e.Read := by
  obtain ⟨line, hline, hsplit⟩ := List.mem_filterMap.mp h
  exact splitLine_read (fgetsFrom_fits (by decide) text line hline) hsplit

/-! ## Stores -/

section

variable {d : Device} {m : Member} {b v : List UInt8}

theorem Member.inside (m : Member) : m.off + m.size ≤ deviceSize := by
  cases m <;> decide

theorem Member.disjoint {m m' : Member} (h : m' ≠ m) : m'.off + m'.size ≤ m.off ∨ m.off + m.size ≤ m'.off := by
  cases m <;> cases m' <;> first | exact absurd rfl h | decide

/-- A store that stays in its member: it is there, and in no other. -/
theorem Device.store_fits (h : b.length ≤ m.size) :
    ∃ d' rest, d.store m b = some d' ∧ d'.member m = b ++ rest ∧ b.length + rest.length = m.size ∧
      ∀ m', m' ≠ m → d'.member m' = d.member m' := by
  have hin := m.inside
  have hsize := d.size
  have hmember : ((overlay d.bytes m.off b).drop m.off).take m.size =
      b ++ (d.bytes.drop (m.off + b.length)).take (m.size - b.length) := by
    rw [drop_overlay (by omega), List.take_append, List.take_of_length_le h]
  refine ⟨_, _, dif_pos (by omega), hmember, ?_, ?_⟩
  · rw [List.length_take, List.length_drop]
    omega
  · intro m' hm'
    unfold Device.member
    rcases Member.disjoint hm' with hbefore | hafter
    · rw [overlay_before (by omega) hbefore]
    · rw [overlay_after (by omega) (by omega)]

/-- The other members stay as they are. -/
structure Device.Else (d : Device) (m : Member) (d' : Device) : Prop where
  str : ∀ m', m' ≠ m → d'.str m' = d.str m'
  int : ∀ m', m' ≠ m → d'.int m' = d.int m'

theorem Device.else_of_member {d' : Device} (h : ∀ m', m' ≠ m → d'.member m' = d.member m') : d.Else m d' where
  str m' hm' := by rw [Device.str, h m' hm', Device.str]
  int m' hm' := by rw [Device.int, h m' hm', Device.int]

theorem Device.strcpy_defined : (∃ d', d.strcpy m v = some d') ↔ m.off + v.length < deviceSize := by
  have hlen : (v ++ [0]).length = v.length + 1 := by simp
  unfold Device.strcpy Device.store
  split
  · exact iff_of_true ⟨_, rfl⟩ (by omega)
  · exact iff_of_false (by simp) (by omega)

theorem Device.strcpy_fits (h : v.length < m.size) (hv : 0 ∉ v) : ∃ d', d.strcpy m v = some d' ∧ d'.str m = v ∧ d.Else m d' := by
  obtain ⟨d', rest, hstore, hmember, _, hother⟩ := Device.store_fits (d := d) (m := m) (b := v ++ [0]) (by simpa using h)
  refine ⟨d', hstore, ?_, Device.else_of_member hother⟩
  rw [Device.str, hmember, List.append_assoc]
  exact cstr_terminated hv rest

theorem int_leNat (n : Int32) : Int32.ofNat (leNat (toLe 4 n.toUInt32.toNat)) = n := by
  have hn : n.toUInt32.toNat % 256 ^ 4 = n.toUInt32.toNat := Nat.mod_eq_of_lt n.toUInt32.toNat_lt
  rw [leNat_toLe, hn]
  apply Int32.toBitVec_inj.mp
  simp

theorem Device.setInt_fits (h : m.size = 4) (n : Int32) : ∃ d', d.setInt m n = some d' ∧ d'.int m = n ∧ d.Else m d' := by
  obtain ⟨d', rest, hstore, hmember, hlen, hother⟩ :=
    Device.store_fits (d := d) (m := m) (b := toLe 4 n.toUInt32.toNat) (by rw [toLe_length, h])
  rw [toLe_length, h] at hlen
  have hrest : rest = [] := List.length_eq_zero_iff.mp (by omega)
  refine ⟨d', hstore, ?_, Device.else_of_member hother⟩
  rw [Device.int, hmember, hrest, List.append_nil, int_leNat]

end

/-! ## The settings as values -/

structure Settings where
  deviceNode : List UInt8
  baudrate : Int32
  parity : List UInt8
  flowctl : Int32
  stopbit : Int32
  rcpConfigBin : List UInt8
  deriving DecidableEq, Repr

def settings (d : Device) (rcpConfigBin : List UInt8) : Settings :=
  ⟨d.str .deviceNode, d.int .baudrate, d.str .parity, d.int .flowctl, d.int .stopbit, rcpConfigBin⟩

def Settings.apply (s : Settings) : Action → Settings
  | .skip => s
  | .fail => s
  | .device value => { s with deviceNode := value }
  | .baudrate n => { s with baudrate := n }
  | .parity value => { s with parity := value }
  | .flowctl n => { s with flowctl := n }
  | .stopbit n => { s with stopbit := n }
  | .configBin value => { s with rcpConfigBin := value }

/-- The string that is stored fits its array. -/
def Action.Fits : Action → Prop
  | .device value => value.length < Member.deviceNode.size
  | .parity value => value.length < Member.parity.size
  | .configBin value => value.length < configBinSize
  | _ => True

/-- A string that is stored has no NUL in it. -/
def Action.NulFree : Action → Prop
  | .device value => 0 ∉ value
  | .parity value => 0 ∉ value
  | _ => True

theorem exec_refines {l : Loop} {a : Action} (hfits : a.Fits) (hnul : a.NulFree) :
    ∃ l', a.exec l = some l' ∧ settings l'.tmp l'.rcpConfigBin = (settings l.tmp l.rcpConfigBin).apply a := by
  cases a with
  | skip => exact ⟨l, rfl, rfl⟩
  | fail => exact ⟨l, rfl, rfl⟩
  | device v =>
    obtain ⟨d', hstore, hsame, hother⟩ := Device.strcpy_fits (d := l.tmp) hfits hnul
    refine ⟨{ l with tmp := d' }, by rw [Action.exec, hstore]; rfl, ?_⟩
    simp [settings, Settings.apply, hsame, hother.str, hother.int]
  | baudrate n =>
    obtain ⟨d', hstore, hsame, hother⟩ := Device.setInt_fits (d := l.tmp) (m := .baudrate) rfl n
    refine ⟨{ l with tmp := d' }, by rw [Action.exec, hstore]; rfl, ?_⟩
    simp [settings, Settings.apply, hsame, hother.str, hother.int]
  | parity v =>
    obtain ⟨d', hstore, hsame, hother⟩ := Device.strcpy_fits (d := l.tmp) hfits hnul
    refine ⟨{ l with tmp := d' }, by rw [Action.exec, hstore]; rfl, ?_⟩
    simp [settings, Settings.apply, hsame, hother.str, hother.int]
  | flowctl n =>
    obtain ⟨d', hstore, hsame, hother⟩ := Device.setInt_fits (d := l.tmp) (m := .flowctl) rfl n
    refine ⟨{ l with tmp := d' }, by rw [Action.exec, hstore]; rfl, ?_⟩
    simp [settings, Settings.apply, hsame, hother.str, hother.int]
  | stopbit n =>
    obtain ⟨d', hstore, hsame, hother⟩ := Device.setInt_fits (d := l.tmp) (m := .stopbit) rfl n
    refine ⟨{ l with tmp := d' }, by rw [Action.exec, hstore]; rfl, ?_⟩
    simp [settings, Settings.apply, hsame, hother.str, hother.int]
  | configBin v => exact ⟨{ l with rcpConfigBin := v }, if_pos hfits, rfl⟩

/-! ## What a line stores -/

theorem keyOf_eq_some_iff {tag : List UInt8} {k : Key} : keyOf tag = some k ↔ tag = k.tag := by
  constructor
  · intro h
    simpa using List.find?_some h
  · intro h
    rw [h]
    cases k <;> decide +kernel

/-- All that a line can do, by its key and its value. -/
inductive Does : Option Key → List UInt8 → Action → Prop
  | device (v : List UInt8) : Does (some .device) v (.device v)
  | baudrate (v : List UInt8) : Does (some .baudrate) v (.baudrate (Int32.ofNat (strtoul v)))
  | parity (v : List UInt8) : v = lit "odd" ∨ v = lit "even" ∨ v = lit "none" → Does (some .parity) v (.parity v)
  | enable : Does (some .flowctl) (lit "enable") (.flowctl 1)
  | disable : Does (some .flowctl) (lit "disable") (.flowctl 0)
  | stopbit (v : List UInt8) : v = lit "1" ∨ v = lit "2" → Does (some .stopbit) v (.stopbit (Int32.ofNat (strtoul v)))
  | configBin (v : List UInt8) : Does (some .configBin) v (.configBin v)
  | unknown (v : List UInt8) : Does none v .skip
  | rejected (k : Key) (v : List UInt8) : Does (some k) v .fail

theorem action_does (tag value : List UInt8) : Does (keyOf tag) value (Entry.pair tag value).action := by
  unfold Entry.action
  dsimp only
  cases hkey : keyOf tag with
  | none => exact .unknown value
  | some k =>
    cases k with
    | device =>
      have htag : tag.length + 1 ≤ deviceNodePathLeanMax := by
        rw [keyOf_eq_some_iff.mp hkey]
        decide +kernel
      dsimp only
      rw [if_pos htag]
      exact .device value
    | baudrate => exact .baudrate value
    | parity =>
      dsimp only
      split
      · exact .parity value (by assumption)
      · exact .rejected _ value
    | flowctl =>
      dsimp only
      split
      · rename_i hvalue
        rw [hvalue]
        exact .enable
      · split
        · rename_i hvalue
          rw [hvalue]
          exact .disable
        · exact .rejected _ value
    | stopbit =>
      dsimp only
      split
      · exact .stopbit value (by assumption)
      · exact .rejected _ value
    | configBin => exact .configBin value

section

variable {e : Entry} {v : List UInt8}

theorem action_string (h : e.action = .device v ∨ e.action = .parity v ∨ e.action = .configBin v) : ∃ tag, e = .pair tag v := by
  cases e with
  | noSeparator => simp [Entry.action] at h
  | pair tag value =>
    have hdoes := action_does tag value
    generalize (Entry.pair tag value).action = a at h hdoes
    generalize keyOf tag = key at hdoes
    refine ⟨tag, ?_⟩
    cases hdoes <;> simp_all

theorem action_parity (h : e.action = .parity v) : v = lit "odd" ∨ v = lit "even" ∨ v = lit "none" := by
  cases e with
  | noSeparator => cases h
  | pair tag value =>
    have hdoes := action_does tag value
    rw [h] at hdoes
    generalize keyOf tag = key at hdoes
    cases hdoes
    assumption

theorem action_nulFree (he : e.Read) : e.action.NulFree := by
  cases ha : e.action with
  | device v =>
    obtain ⟨tag, rfl⟩ := action_string (.inl ha)
    exact he.1
  | parity v =>
    obtain ⟨tag, rfl⟩ := action_string (.inr (.inl ha))
    exact he.1
  | _ => trivial

/-- Only a device path can be too long: the other strings are checked, or go to an array as
    long as the line. -/
theorem action_fits (he : e.Read) (hdevice : ∀ v, e.action = .device v → v.length < deviceNodePathLeanMax) : e.action.Fits := by
  cases ha : e.action with
  | device v => exact hdevice v ha
  | parity v =>
    have hlen : v.length < 8 := by
      rcases action_parity ha with rfl | rfl | rfl <;> decide +kernel
    exact hlen
  | configBin v =>
    obtain ⟨tag, rfl⟩ := action_string (.inr (.inr ha))
    have := he.2
    simp only [lineSize] at this
    simp only [Action.Fits, configBinSize]
    omega
  | _ => trivial

end

/-! ## Rejected files -/

/-- The lines before the first that is rejected. -/
def before (es : List Entry) : List Entry := es.takeWhile fun e => decide (e.action ≠ .fail)

def Entry.path (e : Entry) : Option (List UInt8) :=
  match e.action with
  | .configBin value => some value
  | _ => none

section

variable {e : Entry} {l l' : Loop} {es : List Entry}

theorem before_fail (h : e.action = .fail) : before (e :: es) = [] :=
  List.takeWhile_cons_of_neg (by simpa using h)

theorem before_ok (h : e.action ≠ .fail) : before (e :: es) = e :: before es :=
  List.takeWhile_cons_of_pos (by simpa using h)

/-- Of what is stored only a device path can run past the struct. -/
theorem exec_defined (he : e.Read) :
    (∃ l', e.action.exec l = some l') ↔ ∀ v, e.action = .device v → v.length < deviceSize := by
  by_cases hdevice : ∃ v, e.action = .device v
  · obtain ⟨v, hv⟩ := hdevice
    have hstore : (∃ l', e.action.exec l = some l') ↔ v.length < deviceSize := by
      have hdefined := Device.strcpy_defined (d := l.tmp) (m := .deviceNode) (v := v)
      rw [Member.off, Nat.zero_add] at hdefined
      rw [hv, Action.exec, ← hdefined]
      simp
    rw [hstore]
    refine ⟨?_, fun h => h v hv⟩
    intro hshort w hw
    rw [hv] at hw
    cases hw
    exact hshort
  · have hno : ∀ v, e.action ≠ .device v := fun v hv => hdevice ⟨v, hv⟩
    obtain ⟨l', hexec, _⟩ := exec_refines (l := l) (action_fits he fun v hv => absurd hv (hno v)) (action_nulFree he)
    exact iff_of_true ⟨l', hexec⟩ fun v hv => absurd hv (hno v)

theorem exec_path (h : e.action.exec l = some l') : l'.rcpConfigBin = e.path.getD l.rcpConfigBin := by
  unfold Entry.path
  cases ha : e.action with
  | skip =>
    rw [ha] at h
    cases h
    rfl
  | fail =>
    rw [ha] at h
    cases h
    rfl
  | configBin v =>
    rw [ha, Action.exec] at h
    split at h
    · cases h
      rfl
    · cases h
  | _ =>
    rw [ha, Action.exec] at h
    obtain ⟨tmp, _, rfl⟩ := Option.map_eq_some_iff.mp h
    rfl

theorem parseEntries_defined (hes : ∀ e ∈ es, e.Read) :
    (∃ r, parseEntries l es = some r) ↔ ∀ e ∈ before es, ∀ v, e.action = .device v → v.length < deviceSize := by
  induction es generalizing l with
  | nil => simp [parseEntries, before]
  | cons e es ih =>
    have he := hes e List.mem_cons_self
    have hes' : ∀ e ∈ es, e.Read := fun e h => hes e (List.mem_cons_of_mem _ h)
    unfold parseEntries
    by_cases hfail : e.action = .fail
    · rw [before_fail hfail]
      simp [hfail]
    · rw [if_neg hfail, before_ok hfail, List.forall_mem_cons, ← exec_defined (l := l) he]
      cases hexec : e.action.exec l with
      | none => simp
      | some l1 => simpa using ih hes'

theorem parseEntries_result {r : Bool × Loop} (h : parseEntries l es = some r) :
    (r.1 = false ↔ ∃ e ∈ es, e.action = .fail) ∧
      r.2.rcpConfigBin = ((before es).filterMap Entry.path).getLast?.getD l.rcpConfigBin := by
  induction es generalizing l with
  | nil =>
    cases h
    simp [before]
  | cons e es ih =>
    unfold parseEntries at h
    by_cases hfail : e.action = .fail
    · rw [if_pos hfail] at h
      cases h
      rw [before_fail hfail]
      simp [hfail]
    · rw [if_neg hfail] at h
      rw [before_ok hfail, List.filterMap_cons]
      cases hexec : e.action.exec l with
      | none =>
        rw [hexec] at h
        cases h
      | some l1 =>
        rw [hexec] at h
        obtain ⟨hret, hpath⟩ := ih h
        refine ⟨by simpa [hfail] using hret, ?_⟩
        rw [hpath, exec_path hexec]
        cases e.path with
        | none => rfl
        | some path => rw [List.getLast?_cons, Option.getD_some, Option.getD_some]

end

/-- The call returns, and where it returns false nothing is changed. -/
def Unchanged (s : State) (config : Config) : Prop :=
  ∃ ret s', parseDeviceConfig s config = some (ret, s') ∧ (ret = false → s' = s)

structure Harmless (s : State) (text : List UInt8) : Prop where
  /-- No device path runs past the struct. -/
  inside : ∀ e ∈ before (entries text), ∀ v, e.action = .device v → v.length < deviceSize
  /-- If a line is rejected, the last `ConfigBin` line before it names the path there is. -/
  path : (∃ e ∈ entries text, e.action = .fail) →
    ∀ path, ((before (entries text)).filterMap Entry.path).getLast? = some path → path = s.rcpConfigBin

/-- `ttydevice` is only written at the end, but `RcpConfigBin` line by line. -/
theorem rejected_unchanged_iff (s : State) (config : Config) :
    Unchanged s config ↔ ∀ text, config = .file text → Harmless s text := by
  cases config with
  | null => exact iff_of_true ⟨false, s, rfl, fun _ => rfl⟩ (fun _ h => by cases h)
  | unreadable => exact iff_of_true ⟨false, s, rfl, fun _ => rfl⟩ (fun _ h => by cases h)
  | file text =>
    have hread : ∀ e ∈ entries text, e.Read := fun e h => entries_read h
    have hdefined := parseEntries_defined (l := ⟨s.ttydevice, s.rcpConfigBin⟩) hread
    constructor
    · intro ⟨ret, s', hparse, hsame⟩ text' heq
      cases heq
      obtain ⟨r, hrun, hr⟩ := Option.map_eq_some_iff.mp hparse
      obtain ⟨hret, hpath⟩ := parseEntries_result hrun
      refine ⟨hdefined.mp ⟨r, hrun⟩, ?_⟩
      intro hfail path hlast
      have hfalse : r.1 = false := hret.mpr hfail
      cases hr
      rw [hlast] at hpath
      exact hpath.symm.trans (congrArg State.rcpConfigBin (hsame hfalse))
    · intro h
      obtain ⟨hinside, hlast⟩ := h text rfl
      obtain ⟨r, hrun⟩ := hdefined.mpr hinside
      obtain ⟨hret, hpath⟩ := parseEntries_result hrun
      refine ⟨r.1, (s.finish r).2, by rw [parseDeviceConfig, hrun]; rfl, ?_⟩
      intro hfalse
      have hkept : r.2.rcpConfigBin = s.rcpConfigBin := by
        rw [hpath]
        cases hend : ((before (entries text)).filterMap Entry.path).getLast? with
        | none => rfl
        | some path => exact hlast (hret.mp hfalse) path hend
      simp [State.finish, hfalse, hkept]

/-- `{"/dev/ttyUSB0", 921600, "none", 0, 1}`, and no path. -/
def defaultBytes : List UInt8 :=
  lit "/dev/ttyUSB0" ++ List.replicate 36 0 ++ toLe 4 921600 ++ lit "none" ++ List.replicate 4 0 ++ toLe 4 0 ++ toLe 4 1

theorem defaultBytes_size : defaultBytes.length = deviceSize := by decide +kernel

def defaults : State := ⟨⟨defaultBytes, defaultBytes_size⟩, []⟩

/-- A path, then a parity that is not known. -/
def pathThenParity : List UInt8 := lit "ConfigBin=/tmp/rcp.bin\nparity=mark\n"

/-- The file is rejected, and its path stays. -/
theorem rejected_after_path :
    parseDeviceConfig defaults (.file pathThenParity) = some (false, { defaults with rcpConfigBin := lit "/tmp/rcp.bin" }) ∧
      ¬ Unchanged defaults (.file pathThenParity) := by
  have hparse : parseDeviceConfig defaults (.file pathThenParity) =
      some (false, { defaults with rcpConfigBin := lit "/tmp/rcp.bin" }) := by decide +kernel
  refine ⟨hparse, ?_⟩
  intro ⟨ret, s', hrun, hsame⟩
  rw [hparse] at hrun
  cases hrun
  have hpath := congrArg State.rcpConfigBin (hsame rfl)
  exact absurd hpath (by decide +kernel)

/-! ## Accepted files -/

/-- The value of a line with this tag. -/
def Entry.valueOf (k : Key) : Entry → Option (List UInt8)
  | .noSeparator => none
  | .pair tag value => if tag = k.tag then some value else none

def lastValue (k : Key) (es : List Entry) : Option (List UInt8) := (es.filterMap (·.valueOf k)).getLast?

/-- The lines of a file that are neither blank nor comments. -/
def textEntries (text : List UInt8) : List Entry := (fileLines text).filterMap splitLine

/-- A number is as the last line says that sets it. -/
def SetTo (meaning : List UInt8 → Option Int) (last : Option (List UInt8)) (old new : Int32) : Prop :=
  match last with
  | none => new = old
  | some value => meaning value = some new.toInt

def onOff (value : List UInt8) : Option Int :=
  if value = lit "enable" then some 1 else if value = lit "disable" then some 0 else none

/-- The settings are what the last lines say that set them, and no string that was stored is
    longer than its array. -/
structure Faithful (old new : Settings) (es : List Entry) : Prop where
  deviceNode : new.deviceNode = (lastValue .device es).getD old.deviceNode
  baudrate : SetTo decimal (lastValue .baudrate es) old.baudrate new.baudrate
  parity : new.parity = (lastValue .parity es).getD old.parity
  flowctl : SetTo onOff (lastValue .flowctl es) old.flowctl new.flowctl
  stopbit : SetTo decimal (lastValue .stopbit es) old.stopbit new.stopbit
  rcpConfigBin : new.rcpConfigBin = (lastValue .configBin es).getD old.rcpConfigBin
  fits : ∀ e ∈ es, e.action.Fits

theorem entries_short {text : List UInt8} (h : ∀ line ∈ fileLines text, line.length < 511) : entries text = textEntries text := by
  refine fgetsLines_short splitLine_newline (by decide) ?_
  intro line hline
  have := h line hline
  simp only [lineSize]
  omega

theorem parseEntries_refines {l : Loop} {es : List Entry} (hread : ∀ e ∈ es, e.Read) (haccept : ∀ e ∈ es, e.action ≠ .fail)
    (hfits : ∀ e ∈ es, e.action.Fits) :
    ∃ l', parseEntries l es = some (true, l') ∧
      settings l'.tmp l'.rcpConfigBin = Machine.run Settings.apply (settings l.tmp l.rcpConfigBin) (es.map Entry.action) := by
  induction es generalizing l with
  | nil => exact ⟨l, rfl, rfl⟩
  | cons e es ih =>
    rw [List.forall_mem_cons] at hread haccept hfits
    obtain ⟨l1, hexec, hview⟩ := exec_refines (l := l) hfits.1 (action_nulFree hread.1)
    obtain ⟨l', hrun, hview'⟩ := ih (l := l1) hread.2 haccept.2 hfits.2
    refine ⟨l', ?_, ?_⟩
    · rw [parseEntries, if_neg haccept.1, hexec]
      exact hrun
    · rw [hview', hview, List.map_cons, Machine.run_cons]

/-! ### What each setting becomes -/

section

variable {e : Entry} {es : List Entry} {s : Settings}

/-- A setting that lines with one tag set, to `f` of the value. -/
theorem latest_eq {β : Type} (part : Settings → β) {set : Action → Option β} {k : Key} {f : List UInt8 → β}
    (hstep : ∀ s a, part (Settings.apply s a) = (set a).getD (part s)) (hset : ∀ e ∈ es, set e.action = (e.valueOf k).map f) :
    part (Machine.run Settings.apply s (es.map Entry.action)) = ((lastValue k es).map f).getD (part s) := by
  rw [Machine.run_latest hstep, List.filterMap_map, lastValue, ← List.getLast?_map, List.map_filterMap]
  congr 2
  exact List.filterMap_congr hset

theorem valueOf_eq (k : Key) (tag value : List UInt8) :
    (Entry.pair tag value).valueOf k = if keyOf tag = some k then some value else none := by
  simp only [Entry.valueOf, keyOf_eq_some_iff]

/-- The strings and the numbers that an action stores, by key. -/
def Action.string : Key → Action → Option (List UInt8)
  | .device, .device value => some value
  | .parity, .parity value => some value
  | .configBin, .configBin value => some value
  | _, _ => none

def Action.number : Key → Action → Option Int32
  | .baudrate, .baudrate n => some n
  | .flowctl, .flowctl n => some n
  | .stopbit, .stopbit n => some n
  | _, _ => none

def Key.number (k : Key) (value : List UInt8) : Int32 :=
  if k = .flowctl then if value = lit "enable" then 1 else 0 else Int32.ofNat (strtoul value)

/-- What an accepted line stores, from what the actions of its tag do. -/
theorem set_by_key {β : Type} {set : Action → Option β} {k : Key} {f : List UInt8 → β} (haccept : e.action ≠ .fail)
    (hset : ∀ key v a, Does key v a → a ≠ .fail → set a = (if key = some k then some v else none).map f) :
    set e.action = (e.valueOf k).map f := by
  cases e with
  | noSeparator => exact absurd rfl haccept
  | pair tag value =>
    rw [valueOf_eq]
    exact hset _ _ _ (action_does tag value) haccept

theorem string_set (haccept : e.action ≠ .fail) {k : Key} (hk : k = .device ∨ k = .parity ∨ k = .configBin) :
    e.action.string k = (e.valueOf k).map id := by
  refine set_by_key haccept ?_
  intro key v a hdoes haccept
  rcases hk with rfl | rfl | rfl <;> cases hdoes <;> simp_all [Action.string]

theorem number_set (haccept : e.action ≠ .fail) {k : Key} (hk : k = .baudrate ∨ k = .flowctl ∨ k = .stopbit) :
    e.action.number k = (e.valueOf k).map k.number := by
  have hne : lit "disable" ≠ lit "enable" := by decide +kernel
  refine set_by_key haccept ?_
  intro key v a hdoes haccept
  rcases hk with rfl | rfl | rfl <;> cases hdoes <;> simp_all [Action.number, Key.number]

theorem valueOf_does {k : Key} {v : List UInt8} (h : e.valueOf k = some v) : Does (some k) v e.action := by
  cases e with
  | noSeparator => cases h
  | pair tag value =>
    rw [valueOf_eq] at h
    split at h
    · rename_i hkey
      cases h
      rw [← hkey]
      exact action_does tag v
    · cases h

theorem flowctl_means (haccept : e.action ≠ .fail) {v : List UInt8} (h : e.valueOf .flowctl = some v) :
    onOff v = some (Key.flowctl.number v).toInt := by
  have hdoes := valueOf_does h
  generalize e.action = a at haccept hdoes
  cases hdoes with
  | enable => decide +kernel
  | disable => decide +kernel
  | rejected => exact absurd rfl haccept

theorem stopbit_means (haccept : e.action ≠ .fail) {v : List UInt8} (h : e.valueOf .stopbit = some v) :
    decimal v = some (Key.stopbit.number v).toInt := by
  have hdoes := valueOf_does h
  generalize e.action = a at haccept hdoes
  cases hdoes with
  | stopbit _ hvalue => rcases hvalue with rfl | rfl <;> decide +kernel
  | rejected => exact absurd rfl haccept

/-- A device path is the value of its line. -/
theorem device_iff (haccept : e.action ≠ .fail) {v : List UInt8} : e.action = .device v ↔ e.valueOf .device = some v := by
  constructor
  · intro h
    have hset := string_set haccept (.inl rfl)
    rw [Option.map_id_fun, id, h] at hset
    exact hset.symm
  · intro h
    have hdoes := valueOf_does h
    generalize e.action = a at haccept hdoes
    cases hdoes with
    | device => rfl
    | rejected => exact absurd rfl haccept

theorem lastValue_mem {k : Key} {v : List UInt8} (h : lastValue k es = some v) : ∃ e ∈ es, e.valueOf k = some v :=
  List.mem_filterMap.mp (List.mem_of_getLast? h)

theorem setTo_latest {meaning : List UInt8 → Option Int} {last : Option (List UInt8)} {f : List UInt8 → Int32} (old : Int32)
    (h : ∀ v, last = some v → meaning v = some (f v).toInt) : SetTo meaning last old ((last.map f).getD old) := by
  cases last with
  | none => rfl
  | some v => exact h v rfl

/-- Lines that fit are stored faithfully, as far as the baud rate is a number. -/
theorem run_faithful (haccept : ∀ e ∈ es, e.action ≠ .fail) (hfits : ∀ e ∈ es, e.action.Fits)
    (hbaud : ∀ v, lastValue .baudrate es = some v → decimal v = some (Key.baudrate.number v).toInt) :
    Faithful s (Machine.run Settings.apply s (es.map Entry.action)) es := by
  have hstring : ∀ k, k = .device ∨ k = .parity ∨ k = .configBin → ∀ e ∈ es, e.action.string k = (e.valueOf k).map id :=
    fun k hk e he => string_set (haccept e he) hk
  have hnumber : ∀ k, k = .baudrate ∨ k = .flowctl ∨ k = .stopbit → ∀ e ∈ es, e.action.number k = (e.valueOf k).map k.number :=
    fun k hk e he => number_set (haccept e he) hk
  have hdevice := latest_eq (s := s) Settings.deviceNode (fun s a => by cases a <;> rfl) (hstring .device (by simp))
  have hparity := latest_eq (s := s) Settings.parity (fun s a => by cases a <;> rfl) (hstring .parity (by simp))
  have hbin := latest_eq (s := s) Settings.rcpConfigBin (fun s a => by cases a <;> rfl) (hstring .configBin (by simp))
  have hrate := latest_eq (s := s) Settings.baudrate (fun s a => by cases a <;> rfl) (hnumber .baudrate (by simp))
  have hflow := latest_eq (s := s) Settings.flowctl (fun s a => by cases a <;> rfl) (hnumber .flowctl (by simp))
  have hstop := latest_eq (s := s) Settings.stopbit (fun s a => by cases a <;> rfl) (hnumber .stopbit (by simp))
  rw [Option.map_id_fun, id] at hdevice hparity hbin
  constructor
  · exact hdevice
  · rw [hrate]
    exact setTo_latest _ hbaud
  · exact hparity
  · rw [hflow]
    apply setTo_latest
    intro v hv
    obtain ⟨e, he, hvalue⟩ := lastValue_mem hv
    exact flowctl_means (haccept e he) hvalue
  · rw [hstop]
    apply setTo_latest
    intro v hv
    obtain ⟨e, he, hvalue⟩ := lastValue_mem hv
    exact stopbit_means (haccept e he) hvalue
  · exact hbin
  · exact hfits

end

/-! ### The theorem -/

def State.settings (s : State) : Settings := DeviceConfig.settings s.ttydevice s.rcpConfigBin

/-- The file is accepted and stored as it says. -/
def Stored (s : State) (text : List UInt8) : Prop :=
  ∃ s', parseDeviceConfig s (.file text) = some (true, s') ∧ Faithful s.settings s'.settings (textEntries text)

/-- Short lines, none of them rejected: the settings are stored faithfully exactly when
    every device path leaves room for its NUL and the last baud rate is a number that an
    `int` can hold. -/
theorem stored_faithfully_iff (s : State) (text : List UInt8) (hshort : ∀ line ∈ fileLines text, line.length < 511)
    (haccept : ∀ e ∈ textEntries text, e.action ≠ .fail) :
    Stored s text ↔
      (∀ e ∈ textEntries text, ∀ v, e.valueOf .device = some v → v.length ≤ 47) ∧
      ∀ v, lastValue .baudrate (textEntries text) = some v → ∃ n, decimal v = some n ∧ -2 ^ 31 ≤ n ∧ n < 2 ^ 31 := by
  have hentries := entries_short hshort
  constructor
  · intro ⟨s', _, hfaithful⟩
    constructor
    · intro e he v hv
      have hfits := hfaithful.fits e he
      rw [(device_iff (haccept e he)).mpr hv] at hfits
      exact Nat.le_of_lt_succ hfits
    · intro v hv
      have hbaud := hfaithful.baudrate
      rw [hv] at hbaud
      exact ⟨_, hbaud, Int32.le_toInt _, Int32.toInt_lt _⟩
  · intro ⟨hdevice, hbaud⟩
    have hread : ∀ e ∈ textEntries text, e.Read := by
      rw [← hentries]
      exact fun e he => entries_read he
    have hfits : ∀ e ∈ textEntries text, e.action.Fits := by
      intro e he
      apply action_fits (hread e he)
      intro v hv
      have := hdevice e he v ((device_iff (haccept e he)).mp hv)
      simp only [deviceNodePathLeanMax]
      omega
    obtain ⟨l', hrun, hview⟩ := parseEntries_refines (l := ⟨s.ttydevice, s.rcpConfigBin⟩) hread haccept hfits
    refine ⟨⟨l'.tmp, l'.rcpConfigBin⟩, ?_, ?_⟩
    · rw [parseDeviceConfig, hentries, hrun]
      rfl
    · rw [State.settings, State.settings, hview]
      apply run_faithful haccept hfits
      intro v hv
      obtain ⟨n, hn, hlow, hhigh⟩ := hbaud v hv
      have hnumber : Key.baudrate.number v = Int32.ofNat (strtoul v) := rfl
      rw [hnumber, strtoul_decimal hn hlow hhigh, hn]

def goodText : List UInt8 := lit "# the stick\n\n device = /dev/ttyACM0 \nbaudrate=9600\nbaudrate=115200"

theorem good_text_stored : (∀ line ∈ fileLines goodText, line.length < 511) ∧ Stored defaults goodText := by
  have hshort : ∀ line ∈ fileLines goodText, line.length < 511 := by decide +kernel
  have haccept : ∀ e ∈ textEntries goodText, e.action ≠ .fail := by decide +kernel
  have hdevices : (textEntries goodText).filterMap (·.valueOf .device) = [lit "/dev/ttyACM0"] := by decide +kernel
  have hbaud : lastValue .baudrate (textEntries goodText) = some (lit "115200") := by decide +kernel
  refine ⟨hshort, (stored_faithfully_iff defaults goodText hshort haccept).mpr ⟨?_, ?_⟩⟩
  · intro e he v hv
    have hmem : v ∈ (textEntries goodText).filterMap (·.valueOf .device) := List.mem_filterMap.mpr ⟨e, he, hv⟩
    rw [hdevices] at hmem
    rw [List.mem_singleton.mp hmem]
    decide +kernel
  · intro v hv
    rw [hbaud] at hv
    cases hv
    exact ⟨115200, by decide +kernel, by decide, by decide⟩

/-- A path of 55 bytes. -/
def longDevice : List UInt8 := lit "device=/dev/serial/by-id/usb-Realtek_RCP_0000000001-if00-port0\n"

/-- The file is accepted; the path is cut, and its end is the baud rate. -/
theorem long_device_spills :
    (∃ s', parseDeviceConfig defaults (.file longDevice) = some (true, s') ∧ s'.settings.baudrate ≠ defaults.settings.baudrate) ∧
      ¬ Stored defaults longDevice := by
  have hlast : lastValue .baudrate (textEntries longDevice) = none := by decide +kernel
  have hbaud : (parseDeviceConfig defaults (.file longDevice)).map
    (fun r => (r.1, decide (r.2.settings.baudrate = defaults.settings.baudrate))) =
      some (true, false) := by decide +kernel
  obtain ⟨⟨ret, s'⟩, hparse, hr⟩ := Option.map_eq_some_iff.mp hbaud
  obtain ⟨rfl, hdiffers⟩ := Prod.mk.inj hr
  refine ⟨⟨s', hparse, of_decide_eq_false hdiffers⟩, ?_⟩
  intro ⟨s'', hrun, hfaithful⟩
  rw [hparse] at hrun
  cases hrun
  have hkept := hfaithful.baudrate
  rw [hlast] at hkept
  exact of_decide_eq_false hdiffers hkept

end AmebaLinux.Rcp.DeviceConfig
