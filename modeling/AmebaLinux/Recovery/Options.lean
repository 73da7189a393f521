/-
  AmebaLinux.Recovery.Options — the command that recovery is given and its options
  (`recovery/recovery.c`: `get_uboot_env`, `get_args`, `gOptions` and the loop over
  `getopt_long` in `main`).

  A command is what `fw_printenv` prints. `strtok` cuts it at blanks and `getopt_long` gives
  the options: a long name may be shortened while it is unique; operands are skipped.

  `get_args` leaves pointers to the words in `args[1]` and on, and the words stand in its own
  `value[128]`. When `main` gives `args` to `getopt_long` that frame is dead, and other calls
  have used its place. So what the command was only decides how many words there are; the
  options are those of whatever stands there then (`Frame`), which may be nothing that can
  be read. `args[8]` has room for seven words and `get_args` does not count.

  Proved: `value_fits`, a command fits `value`.
-/

import AmebaLinux.Lib.CString

namespace AmebaLinux.Recovery.Options

open AmebaLinux.Lib.CString

inductive Opt where
  | updatePackage (path : String)
  | retryCount (n : Int)
  | wipeUserdata
  | invalid
  deriving DecidableEq, Repr

/-! ## The command -/

def space : UInt8 := 32
def equals : UInt8 := 61
def dash : UInt8 := 45

/-- The value behind the `=` of the line that `fw_printenv` prints. -/
def getUbootEnv (output : List UInt8) : Option (List UInt8) :=
  match (fgetsLines 128 output).head? with
  | none => none
  | some val => (strchr (cstr val) equals).map fun r => (r.2.dropWhile (· = space)).takeWhile (· ≠ newline)

/-- `strtok` with one blank. -/
def tokens (value : List UInt8) : List (List UInt8) := (value.splitOn space).filter (· ≠ [])

/-! ## The options -/

inductive OptName where
  | updatePackage
  | retryCount
  | wipeUserdata
  deriving DecidableEq, Repr

def OptName.text : OptName → List UInt8
  | .updatePackage => lit "update_package"
  | .retryCount => lit "retry_count"
  | .wipeUserdata => lit "wipe_userdata"

def gOptions : List OptName := [.updatePackage, .retryCount, .wipeUserdata]

def OptName.hasArg : OptName → Bool
  | .updatePackage => true
  | .retryCount => true
  | .wipeUserdata => false

/-- The option with this name, or the only one that begins so. -/
def findOption (name : List UInt8) : Option OptName :=
  if name ∈ gOptions.map OptName.text then gOptions.find? fun o => o.text = name
  else
    match gOptions.filter fun o => name.isPrefixOf o.text with
    | [o] => some o
    | _ => none

def toText (b : List UInt8) : String := String.ofList (b.map fun c => Char.ofNat c.toNat)

/-- What the loop of `main` makes of an option and its argument. -/
def OptName.take (o : OptName) (optarg : List UInt8) : Opt :=
  match o with
  | .updatePackage => .updatePackage (toText optarg)
  | .retryCount => .retryCount (atoi optarg)
  | .wipeUserdata => .wipeUserdata

/-- A word of the command. -/
inductive Word where
  | operand
  | stop
  /-- Single characters, none of which is an option. -/
  | short (n : Nat)
  | long (name : List UInt8) (value : Option (List UInt8))
  deriving DecidableEq, Repr

def word (t : List UInt8) : Word :=
  match t with
  | [] => .operand
  | c :: rest =>
    if c ≠ dash ∨ rest = [] then .operand
    else if rest.head? ≠ some dash then .short rest.length
    else if rest = [dash] then .stop
    else
      match strchr (rest.drop 1) equals with
      | none => .long (rest.drop 1) none
      | some (name, value) => .long name (some value)

/-- `getopt_long` until it is done. -/
def getoptLong : List (List UInt8) → List Opt
  | [] => []
  | t :: rest =>
    match word t with
    | .operand => getoptLong rest
    | .stop => []
    | .short n => List.replicate n .invalid ++ getoptLong rest
    | .long name value =>
      match findOption name with
      | none => .invalid :: getoptLong rest
      | some o =>
        match value with
        | some v => (if o.hasArg then o.take v else .invalid) :: getoptLong rest
        | none =>
          if o.hasArg then
            match rest with
            | [] => [.invalid]
            | optarg :: rest => o.take optarg :: getoptLong rest
          else o.take [] :: getoptLong rest

/-- How many words `get_args` stores, from `args[1]` on. -/
def stored (output : List UInt8) : Nat := ((getUbootEnv output).map fun value => (tokens value).length).getD 0

/-- The options the command has; `none` where `get_args` fails or finds no word. -/
def commandOptions (output : List UInt8) : Option (List Opt) :=
  (getUbootEnv output).bind fun value => if tokens value = [] then none else some (getoptLong (tokens value))

/-- What stands where `args[1]` and on point when `getopt_long` reads there. -/
inductive Frame where
  | words (ws : List (List UInt8))
  /-- No words: the read leaves the stack. -/
  | astray
  deriving DecidableEq, Repr

def Frame.options : Frame → Option (List Opt)
  | .words ws => some (getoptLong ws)
  | .astray => none

/-- What `getopt_long` is given: a frame if there are words at all. -/
def recoveryArgs (output : List UInt8) (frame : Frame) : Option Frame := (commandOptions output).map fun _ => frame

/-! ## The command fits -/

/-- `strncpy(value, eq, len)` and `value[len]` stay inside `value[128]`. -/
theorem value_fits {output value : List UInt8} (h : getUbootEnv output = some value) : value.length + 2 ≤ 128 := by
  unfold getUbootEnv at h
  rcases hline : (fgetsLines 128 output).head? with _ | val
  · rw [hline] at h
    cases h
  · rw [hline] at h
    obtain ⟨⟨before, behind⟩, hcut, rfl⟩ := Option.map_eq_some_iff.mp h
    have hval : val.length + 1 ≤ 128 := fgetsFrom_fits (by decide) output val (List.mem_of_head? hline)
    have hstr : (cstr val).length ≤ val.length := (List.takeWhile_sublist _).length_le
    have hbehind : behind.length + 1 ≤ (cstr val).length := by
      unfold strchr at hcut
      split at hcut
      · rename_i hmem
        cases hcut
        have hdrop : (cstr val).dropWhile (· ≠ equals) ≠ [] := by
          intro hnil
          have := List.dropWhile_eq_nil_iff.mp hnil equals hmem
          simp at this
        have hpos := List.length_pos_of_ne_nil hdrop
        have hle := (List.dropWhile_sublist (· ≠ equals) (l := cstr val)).length_le
        rw [List.length_drop]
        omega
      · cases hcut
    have hlen : ((behind.dropWhile (· = space)).takeWhile (· ≠ newline)).length ≤ behind.length :=
      ((List.takeWhile_sublist _).trans (List.dropWhile_sublist _)).length_le
    dsimp only
    omega

end AmebaLinux.Recovery.Options
