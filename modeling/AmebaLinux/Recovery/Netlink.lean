/-
  AmebaLinux.Recovery.Netlink — the kernel's uevents as they come from the netlink socket
  (`recovery/storage_mount/storage_mount.c`: `has_prefix`, `find_uevent_param`,
  `parse_netlink_message`).

  A pointer into the message is given by the bytes from there to `end`, so a read past the
  end has no result (`none`). The parameters of a uevent are the entries of
  `uevent_params` that are set; the array has room for 32.

  Proved:
  - `record_string`: what a string of the message does to the uevent depends on the string
    only, so a message is read string by string (`notes_packed`).
  - `netlink_decoded`: a message of a header with `@` and KEY=VALUE strings is read as
    what it says, a key being found only under its own name; any bytes at all are read
    without leaving the message, and a header without `@` records nothing.
-/

import AmebaLinux.Lib.CString
import AmebaLinux.Recovery.StorageMount

namespace AmebaLinux.Recovery.Netlink

open AmebaLinux.Lib.CString
open AmebaLinux.Recovery.Storage (Action)

def nlParamsMax : Nat := 32

def equals : UInt8 := 61
def atSign : UInt8 := 64

/-! ## The uevent -/

/-- `struct_uevent_t`; the action is `.other` until it is set. -/
structure Uevent where
  action : Action
  subsystem : Option (List UInt8)
  params : List (List UInt8)
  room : params.length ≤ nlParamsMax
  deriving DecidableEq

theorem no_params : ([] : List (List UInt8)).length ≤ nlParamsMax := Nat.zero_le _

/-- As the thread initialises it. -/
def Uevent.clear : Uevent := ⟨.other, none, [], no_params⟩

theorem room_push {u : Uevent} (h : u.params.length < nlParamsMax) (s : List UInt8) :
    (u.params ++ [s]).length ≤ nlParamsMax := by
  rw [List.length_append, List.length_singleton]
  exact h

/-- `uevent_params[param_idx++]`. -/
def Uevent.push (u : Uevent) (h : u.params.length < nlParamsMax) (s : List UInt8) : Uevent :=
  { u with params := u.params ++ [s], room := room_push h s }

/-- The loop of `find_uevent_param`: `strncmp` with the name's length, then the byte behind. -/
def findIn (paramName : List UInt8) : List (List UInt8) → Option (List UInt8)
  | [] => none
  | p :: params =>
    if p.take paramName.length = paramName ∧ (p ++ [0])[paramName.length]? = some equals then
      some (p.drop (paramName.length + 1))
    else findIn paramName params

def findUeventParam (u : Uevent) (paramName : List UInt8) : Option (List UInt8) := findIn paramName u.params

/-! ## The message -/

/-- What stands behind the prefix, if `str` begins with it before `end`. -/
def hasPrefix (str pre : List UInt8) : Option (List UInt8) :=
  if pre.length ≤ str.length ∧ str.take pre.length = pre then some (str.drop pre.length) else none

/-- The loop over the header: whether there is an `@` before the NUL. -/
def headerMarked : List UInt8 → Option Bool
  | [] => none
  | c :: p => if c = atSign then some true else if c = 0 then some false else headerMarked p

def setAction (a : List UInt8) (u : Uevent) : Option Uevent :=
  (strcmpAt a (lit "add")).bind fun add =>
    if add then some { u with action := .add }
    else (strcmpAt a (lit "remove")).map fun remove => if remove then { u with action := .remove } else u

/-- A string behind the header. -/
def note (s : List UInt8) (u : Uevent) : Option Uevent :=
  match hasPrefix s (lit "ACTION=") with
  | some a => setAction a u
  | none =>
    match hasPrefix s (lit "SUBSYSTEM=") with
    | some a => (strAt a).map fun value => { u with subsystem := some value }
    | none => if h : u.params.length < nlParamsMax then (strAt s).map (u.push h) else some u

/-- The loop from the second string on. -/
def notes (s : List UInt8) (u : Uevent) : Option Uevent :=
  if _h : s = [] then some u
  else (note s u).bind fun u => (strAt s).bind fun str => notes (s.drop (str.length + 1)) u
termination_by s.length
decreasing_by
  rw [List.length_drop]
  have := List.length_pos_of_ne_nil _h
  omega

def parseNetlinkMessage (buffer : List UInt8) (u : Uevent) : Option (Bool × Uevent) :=
  if buffer.length = 0 then some (false, u)
  else
    let s := buffer.set (buffer.length - 1) 0
    (headerMarked s).bind fun marked =>
      if marked then
        (strAt s).bind fun header => (notes (s.drop (header.length + 1)) u).map fun u => (true, u)
      else some (false, u)

/-! ## String by string -/

theorem hasPrefix_string {v pre : List UInt8} (hpre : 0 ∉ pre) (rest : List UInt8) :
    hasPrefix (v ++ 0 :: rest) pre = if pre <+: v then some (v.drop pre.length ++ 0 :: rest) else none := by
  unfold hasPrefix
  by_cases h : pre <+: v
  · have hle := h.length_le
    have htake : (v ++ 0 :: rest).take pre.length = pre := by
      rw [List.take_append_of_le_length hle]
      exact (List.prefix_iff_eq_take.mp h).symm
    rw [if_pos h, if_pos ⟨by rw [List.length_append]; omega, htake⟩, List.drop_append_of_le_length hle]
  · rw [if_neg h, if_neg]
    rintro ⟨-, htake⟩
    by_cases hle : pre.length ≤ v.length
    · rw [List.take_append_of_le_length hle] at htake
      exact h (htake ▸ List.take_prefix _ _)
    · -- the prefix would hold the string's NUL
      refine hpre (htake ▸ ?_)
      rw [List.take_append, List.mem_append]
      refine Or.inr ?_
      obtain ⟨n, hn⟩ : ∃ n, pre.length - v.length = n + 1 := ⟨pre.length - v.length - 1, by omega⟩
      rw [hn, List.take_succ_cons]
      exact List.mem_cons_self

/-- What a string does to the uevent. -/
def record (u : Uevent) (v : List UInt8) : Uevent :=
  if lit "ACTION=" <+: v then
    if v.drop 7 = lit "add" then { u with action := .add }
    else if v.drop 7 = lit "remove" then { u with action := .remove }
    else u
  else if lit "SUBSYSTEM=" <+: v then { u with subsystem := some (v.drop 10) }
  else if h : u.params.length < nlParamsMax then u.push h v
  else u

theorem setAction_string {v : List UInt8} (hv : 0 ∉ v) (rest : List UInt8) (u : Uevent) :
    setAction (v ++ 0 :: rest) u =
      some (if v = lit "add" then { u with action := .add }
        else if v = lit "remove" then { u with action := .remove } else u) := by
  unfold setAction
  rw [strcmpAt_terminated hv (by decide), strcmpAt_terminated hv (by decide)]
  by_cases hadd : v = lit "add"
  · rw [if_pos hadd, decide_eq_true hadd]
    rfl
  rw [if_neg hadd, decide_eq_false hadd]
  by_cases hremove : v = lit "remove"
  · rw [if_pos hremove, decide_eq_true hremove]
    rfl
  · rw [if_neg hremove, decide_eq_false hremove]
    rfl

theorem record_string {v : List UInt8} (hv : 0 ∉ v) (rest : List UInt8) (u : Uevent) :
    note (v ++ 0 :: rest) u = some (record u v) := by
  have hdrop : ∀ n, 0 ∉ v.drop n := fun n hmem => hv (List.mem_of_mem_drop hmem)
  unfold note record
  rw [hasPrefix_string (by decide), hasPrefix_string (by decide)]
  by_cases haction : lit "ACTION=" <+: v
  · rw [if_pos haction, if_pos haction]
    exact setAction_string (hdrop _) rest u
  rw [if_neg haction, if_neg haction]
  by_cases hsubsystem : lit "SUBSYSTEM=" <+: v
  · rw [if_pos hsubsystem, if_pos hsubsystem]
    dsimp only
    rw [strAt_terminated (hdrop _)]
    rfl
  rw [if_neg hsubsystem, if_neg hsubsystem]
  dsimp only
  rw [strAt_terminated hv]
  split <;> rfl

theorem notes_packed {strs : List (List UInt8)} (hfree : ∀ v ∈ strs, 0 ∉ v) (u : Uevent) :
    notes (packed strs) u = some (strs.foldl record u) := by
  induction strs generalizing u with
  | nil =>
    rw [notes]
    rfl
  | cons v strs ih =>
    have hv := hfree v List.mem_cons_self
    rw [notes, packed_cons, dif_neg (by simp), record_string hv, Option.bind_some, strAt_terminated hv, Option.bind_some]
    have hnext : (v ++ 0 :: packed strs).drop (v.length + 1) = packed strs := by simp
    rw [hnext, ih (fun w hw => hfree w (List.mem_cons_of_mem _ hw)), List.foldl_cons]

theorem headerMarked_string {v : List UInt8} (hv : 0 ∉ v) (rest : List UInt8) :
    headerMarked (v ++ 0 :: rest) = some (decide (atSign ∈ v)) := by
  induction v with
  | nil => rfl
  | cons c v ih =>
    rw [List.mem_cons, not_or] at hv
    rw [List.cons_append, headerMarked]
    by_cases hc : c = atSign
    · simp [hc]
    · rw [if_neg hc, if_neg (Ne.symm hv.1), ih hv.2]
      simp [Ne.symm hc]

theorem parse_packed {header : List UInt8} {strs : List (List UInt8)} {buffer : List UInt8}
    (hbuffer : buffer.length ≠ 0) (hset : buffer.set (buffer.length - 1) 0 = packed (header :: strs))
    (hheader : 0 ∉ header) (hfree : ∀ v ∈ strs, 0 ∉ v) (u : Uevent) :
    parseNetlinkMessage buffer u =
      some (if atSign ∈ header then (true, strs.foldl record u) else (false, u)) := by
  unfold parseNetlinkMessage
  rw [if_neg hbuffer]
  dsimp only
  rw [hset, packed_cons, headerMarked_string hheader, Option.bind_some, strAt_terminated hheader, Option.bind_some]
  have hnext : (header ++ 0 :: packed strs).drop (header.length + 1) = packed strs := by simp
  rw [hnext, notes_packed hfree]
  by_cases hat : atSign ∈ header
  · simp [hat]
  · simp [hat]

/-! ## KEY=VALUE -/

structure Key where
  text : List UInt8
  nulFree : 0 ∉ text
  plain : equals ∉ text

structure Field where
  key : Key
  value : List UInt8
  nulFree : 0 ∉ value

def Field.text (f : Field) : List UInt8 := f.key.text ++ equals :: f.value

theorem Field.text_nulFree (f : Field) : 0 ∉ f.text := by
  have hequals : (0 : UInt8) ≠ equals := by decide
  simp [Field.text, f.key.nulFree, f.nulFree, hequals]

/-- A key is not confused with one that it begins, nor with one that begins it. -/
theorem key_begins {name key value : List UInt8} (hname : equals ∉ name) (hkey : equals ∉ key) :
    name ++ [equals] <+: key ++ equals :: value ↔ key = name := by
  induction name generalizing key with
  | nil =>
    cases key with
    | nil => simp
    | cons c key =>
      rw [List.mem_cons, not_or] at hkey
      simp [hkey.1]
  | cons c name ih =>
    rw [List.mem_cons, not_or] at hname
    cases key with
    | nil => simp [Ne.symm hname.1]
    | cons d key =>
      rw [List.mem_cons, not_or] at hkey
      rw [List.cons_append, List.cons_append, List.cons_prefix_cons, ih hname.2 hkey.2, List.cons.injEq]
      exact and_congr_left fun _ => eq_comm

/-- The action that an ACTION string sets. -/
def actionOf (f : Field) : Option Action :=
  if f.key.text = lit "ACTION" then
    if f.value = lit "add" then some .add else if f.value = lit "remove" then some .remove else none
  else none

def subsystemOf (f : Field) : Option (List UInt8) := if f.key.text = lit "SUBSYSTEM" then some f.value else none

/-- Neither of the two. -/
def Field.other (f : Field) : Bool := f.key.text ≠ lit "ACTION" ∧ f.key.text ≠ lit "SUBSYSTEM"

theorem record_field (u : Uevent) (f : Field) :
    record u f.text =
      if f.key.text = lit "ACTION" then { u with action := (actionOf f).getD u.action }
      else if f.key.text = lit "SUBSYSTEM" then { u with subsystem := some f.value }
      else if h : u.params.length < nlParamsMax then u.push h f.text else u := by
  have haction : lit "ACTION=" <+: f.text ↔ f.key.text = lit "ACTION" :=
    key_begins (show equals ∉ lit "ACTION" by decide) f.key.plain
  have hsubsystem : lit "SUBSYSTEM=" <+: f.text ↔ f.key.text = lit "SUBSYSTEM" :=
    key_begins (show equals ∉ lit "SUBSYSTEM" by decide) f.key.plain
  unfold record
  by_cases ha : f.key.text = lit "ACTION"
  · have hvalue : f.text.drop 7 = f.value := by
      rw [Field.text, ha]
      rfl
    rw [if_pos (haction.mpr ha), if_pos ha, hvalue, actionOf, if_pos ha]
    split
    · rfl
    · split <;> rfl
  rw [if_neg (fun h => ha (haction.mp h)), if_neg ha]
  by_cases hs : f.key.text = lit "SUBSYSTEM"
  · have hvalue : f.text.drop 10 = f.value := by
      rw [Field.text, hs]
      rfl
    rw [if_pos (hsubsystem.mpr hs), if_pos hs, hvalue]
  rw [if_neg (fun h => hs (hsubsystem.mp h)), if_neg hs]

theorem record_action (u : Uevent) (f : Field) : (record u f.text).action = (actionOf f).getD u.action := by
  rw [record_field]
  split
  · rfl
  · rename_i ha
    rw [actionOf, if_neg ha]
    split
    · rfl
    · split <;> rfl

theorem record_subsystem (u : Uevent) (f : Field) :
    (record u f.text).subsystem = ((subsystemOf f).map some).getD u.subsystem := by
  rw [record_field]
  split
  · rename_i ha
    have hs : ¬ f.key.text = lit "SUBSYSTEM" := by
      rw [ha]
      decide
    rw [subsystemOf, if_neg hs]
    rfl
  · split
    · rename_i hs
      rw [subsystemOf, if_pos hs]
      rfl
    · rename_i hs
      rw [subsystemOf, if_neg hs]
      split <;> rfl

theorem record_params (u : Uevent) (f : Field) :
    (record u f.text).params = if f.other then (u.params ++ [f.text]).take nlParamsMax else u.params := by
  rw [record_field]
  by_cases ha : f.key.text = lit "ACTION"
  · simp [ha, Field.other]
  by_cases hs : f.key.text = lit "SUBSYSTEM"
  · rw [if_neg ha, if_pos hs, if_neg (by simp [Field.other, hs])]
  have hother : f.other = true := by simp [Field.other, ha, hs]
  rw [if_neg ha, if_neg hs, if_pos hother]
  by_cases hroom : u.params.length < nlParamsMax
  · rw [dif_pos hroom]
    exact (List.take_of_length_le (room_push hroom f.text)).symm
  · have hfull : u.params.length = nlParamsMax := le_antisymm u.room (not_lt.mp hroom)
    rw [dif_neg hroom, ← hfull, List.take_left]

theorem take_append_take {α : Type} (n : Nat) (xs ys : List α) : (xs.take n ++ ys).take n = (xs ++ ys).take n := by
  by_cases hle : xs.length ≤ n
  · rw [List.take_of_length_le hle]
  · have hfull : (xs.take n).length = n := by
      rw [List.length_take]
      omega
    rw [List.take_append_of_le_length hfull.ge, List.take_take, min_self, List.take_append_of_le_length (by omega)]

theorem run_params (fields : List Field) (u : Uevent) :
    (fields.foldl (fun u f => record u f.text) u).params =
      (u.params ++ (fields.filter Field.other).map Field.text).take nlParamsMax := by
  induction fields generalizing u with
  | nil =>
    rw [List.foldl_nil, List.filter_nil, List.map_nil, List.append_nil]
    exact (List.take_of_length_le u.room).symm
  | cons f fields ih =>
    rw [List.foldl_cons, ih, record_params, List.filter_cons]
    by_cases hother : f.other = true
    · rw [if_pos hother, if_pos hother, List.map_cons, take_append_take, List.append_assoc, List.singleton_append]
    · rw [if_neg hother, if_neg hother]

theorem found_iff {p name : List UInt8} :
    (p.take name.length = name ∧ (p ++ [0])[name.length]? = some equals) ↔ name ++ [equals] <+: p := by
  constructor
  · rintro ⟨htake, hnext⟩
    obtain ⟨rest, rfl⟩ : name <+: p := htake ▸ List.take_prefix _ _
    rw [List.append_assoc, List.getElem?_append_right (le_refl _), Nat.sub_self] at hnext
    cases rest with
    | nil => exact absurd hnext (by decide)
    | cons c rest =>
      rw [List.cons_append, List.getElem?_cons_zero, Option.some.injEq] at hnext
      rw [hnext]
      exact ⟨rest, by simp⟩
  · rintro ⟨rest, rfl⟩
    simp

theorem findIn_fields (k : Key) (fields : List Field) :
    findIn k.text (fields.map Field.text) = (fields.find? fun f => f.key.text = k.text).map Field.value := by
  induction fields with
  | nil => rfl
  | cons f fields ih =>
    rw [List.map_cons, findIn, List.find?_cons]
    have hfound : (f.text.take k.text.length = k.text ∧ (f.text ++ [0])[k.text.length]? = some equals) ↔ f.key.text = k.text :=
      found_iff.trans (key_begins k.plain f.key.plain)
    by_cases hkey : f.key.text = k.text
    · rw [if_pos (hfound.mpr hkey), decide_eq_true hkey]
      dsimp only
      rw [← hkey, Field.text]
      simp
    · rw [if_neg (fun h => hkey (hfound.mp h)), decide_eq_false hkey]
      exact ih

/-! ## Messages -/

/-- A header with an `@`, and KEY=VALUE strings. -/
structure Message where
  header : List UInt8
  nulFree : 0 ∉ header
  marked : atSign ∈ header
  fields : List Field

def Message.bytes (m : Message) : List UInt8 := packed (m.header :: m.fields.map Field.text)

/-- The uevent says what the message says. -/
structure Decoded (m : Message) (u : Uevent) : Prop where
  action : u.action = (m.fields.filterMap actionOf).getLast?.getD .other
  subsystem : u.subsystem = (m.fields.filterMap subsystemOf).getLast?
  params : ∀ k : Key, findUeventParam u k.text =
    (((m.fields.filter Field.other).take nlParamsMax).find? fun f => f.key.text = k.text).map Field.value

theorem decoded_fields (m : Message) : Decoded m ((m.fields.map Field.text).foldl record .clear) := by
  rw [List.foldl_map]
  refine ⟨?_, ?_, ?_⟩
  · exact @Lib.Machine.run_latest _ _ (fun u f => record u f.text) _ _ _ record_action .clear m.fields
  · have hlast := @Lib.Machine.run_latest _ _ (fun u f => record u f.text) _ _ _ record_subsystem .clear m.fields
    rw [← List.map_filterMap, List.getLast?_map] at hlast
    refine hlast.trans ?_
    cases (m.fields.filterMap subsystemOf).getLast? <;> rfl
  · intro k
    rw [findUeventParam, run_params, ← findIn_fields, List.map_take]
    rfl

theorem parse_total (buffer : List UInt8) (u : Uevent) :
    ∃ strs : List (List UInt8), parseNetlinkMessage buffer u =
      some (if atSign ∈ cstr (buffer.set (buffer.length - 1) 0) then (true, strs.foldl record u) else (false, u)) := by
  by_cases hempty : buffer.length = 0
  · obtain rfl := List.length_eq_zero_iff.mp hempty
    exact ⟨[], rfl⟩
  have hlast : ∀ c, (buffer.set (buffer.length - 1) 0).getLast? = some c → c = 0 := by
    intro c hc
    rw [List.getLast?_eq_getElem?, List.length_set, List.getElem?_set_self (by omega)] at hc
    exact (Option.some.inj hc).symm
  obtain ⟨strs, hfree, hset⟩ := strings_of_terminated _ hlast
  cases strs with
  | nil =>
    have := congrArg List.length hset
    rw [List.length_set] at this
    exact absurd this hempty
  | cons header strs =>
    have hheader := hfree header List.mem_cons_self
    refine ⟨strs, ?_⟩
    rw [parse_packed hempty hset hheader (fun v hv => hfree v (List.mem_cons_of_mem _ hv)), hset, packed_cons,
      cstr_terminated hheader]

theorem parse_message (m : Message) :
    ∃ u, parseNetlinkMessage m.bytes .clear = some (true, u) ∧ Decoded m u := by
  have hbytes : m.bytes = m.header ++ 0 :: packed (m.fields.map Field.text) := packed_cons _ _
  have hlength : m.bytes.length ≠ 0 := by simp [hbytes]
  have hset : m.bytes.set (m.bytes.length - 1) 0 = m.bytes := packed_set_last _ _
  have hfree : ∀ v ∈ m.fields.map Field.text, 0 ∉ v := by
    intro v hv
    obtain ⟨f, -, rfl⟩ := List.mem_map.mp hv
    exact f.text_nulFree
  refine ⟨_, ?_, decoded_fields m⟩
  rw [parse_packed hlength hset m.nulFree hfree, if_pos m.marked]

/-- Messages are decoded as they are written, whatever their length; any other bytes are
    read inside the buffer, and without an `@` in the header nothing is recorded. -/
theorem netlink_decoded :
    (∀ m : Message, ∃ u, parseNetlinkMessage m.bytes .clear = some (true, u) ∧ Decoded m u) ∧
      ∀ (buffer : List UInt8) (u : Uevent), ∃ result, parseNetlinkMessage buffer u = some result ∧
        (atSign ∉ cstr (buffer.set (buffer.length - 1) 0) → result = (false, u)) := by
  refine ⟨parse_message, ?_⟩
  intro buffer u
  obtain ⟨strs, hparse⟩ := parse_total buffer u
  exact ⟨_, hparse, fun hat => if_neg hat⟩

theorem addHeader_nulFree : 0 ∉ lit "add@/block/sda" := by decide

theorem addHeader_marked : atSign ∈ lit "add@/block/sda" := by decide

def key (text : String) (nulFree : 0 ∉ lit text) (plain : equals ∉ lit text) : Key := ⟨lit text, nulFree, plain⟩

def actionKey : Key := key "ACTION" (by decide) (by decide)
def devpathKey : Key := key "DEVPATH" (by decide) (by decide)
def subsystemKey : Key := key "SUBSYSTEM" (by decide) (by decide)
def majorKey : Key := key "MAJOR" (by decide) (by decide)
def npartsKey : Key := key "NPARTS" (by decide) (by decide)
def partnKey : Key := key "PARTN" (by decide) (by decide)

/-- What the kernel sends for a disk with two partitions. -/
def diskAdded : Message where
  header := lit "add@/block/sda"
  nulFree := addHeader_nulFree
  marked := addHeader_marked
  fields := [⟨actionKey, lit "add", by decide⟩, ⟨devpathKey, lit "/block/sda", by decide⟩,
    ⟨subsystemKey, lit "block", by decide⟩, ⟨majorKey, lit "8", by decide⟩, ⟨npartsKey, lit "2", by decide⟩]

/-- The kernel's message is decoded, and one without an `@` is not. -/
theorem disk_added_decoded :
    (∃ u, parseNetlinkMessage diskAdded.bytes .clear = some (true, u) ∧ u.action = .add ∧ u.subsystem = some (lit "block") ∧
      findUeventParam u (lit "MAJOR") = some (lit "8") ∧ findUeventParam u (lit "NPARTS") = some (lit "2") ∧
      findUeventParam u (lit "PARTN") = none) ∧
      atSign ∉ cstr ((lit "libudev").set 6 0) ∧ parseNetlinkMessage (lit "libudev") .clear = some (false, .clear) := by
  have hat : atSign ∉ cstr ((lit "libudev").set 6 0) := by decide
  obtain ⟨u, hparse, hdecoded⟩ := netlink_decoded.1 diskAdded
  obtain ⟨result, hlibudev, hresult⟩ := netlink_decoded.2 (lit "libudev") .clear
  refine ⟨⟨u, hparse, ?_, ?_, ?_, ?_, ?_⟩, hat, ?_⟩
  · exact hdecoded.action.trans (by decide)
  · exact hdecoded.subsystem.trans (by decide)
  · exact (hdecoded.params majorKey).trans (by decide)
  · exact (hdecoded.params npartsKey).trans (by decide)
  · exact (hdecoded.params partnKey).trans (by decide)
  · rw [hlibudev, hresult hat]

end AmebaLinux.Recovery.Netlink
