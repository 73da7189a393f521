/-
  AmebaLinux.Adb.Fdevent — the event loop of adb (`adb/fdevent.c`, the `select` branch).

  Fdevents are known by their address; `list_pending` is at address 0. The events of a
  descriptor in `read_fds`, `write_fds` and `error_fds` are one set here. Callbacks are the
  environment: they may install, remove and set any fdevents, and what they are given is
  returned by `fdeventDispatch`. `none` is `FATAL`, the use of a null link, or a descriptor
  that an `fd_set` has no bit for.

  The code relies on its callers: an fdevent is installed once and on a descriptor that no
  other one has, below `FD_SETSIZE`, and is still there when it is changed. `Used` says so
  of a run.

  Left out: `FDE_CREATED` and `FDE_DONT_CLOSE`, the growth of `fd_table`, and `force_eof`.
-/

import AmebaLinux.Lib.Dlist

namespace AmebaLinux.Adb.Fdevent

open AmebaLinux.Lib.Dlist

abbrev Events := BitVec 8

def fdeRead : Events := 1#8
def fdeWrite : Events := 2#8
def fdeError : Events := 4#8

/-- What the three descriptor sets can hold. -/
def selectable : Events := fdeRead ||| fdeWrite ||| fdeError

structure Fde where
  fd : Nat
  /-- `FDE_ACTIVE`. -/
  active : Bool
  /-- `FDE_PENDING`. -/
  pending : Bool := false
  /-- `state & FDE_EVENTMASK`. -/
  want : Events := 0#8
  events : Events := 0#8
deriving DecidableEq, Repr

def listPending : Nat := 0

/-- `FD_SETSIZE`. -/
def fdSetsize : Nat := 1024

structure Loop where
  fde : Nat → Option Fde
  links : Links Nat
  fdTable : Nat → Option Nat
  fds : Nat → Events
  selectN : Nat

def Loop.start : Loop :=
  ⟨fun _ => none, ⟨fun p => if p = listPending then some p else none, fun p => if p = listPending then some p else none⟩,
    fun _ => none, fun _ => 0#8, 0⟩

def Loop.store (l : Loop) (p : Nat) (f : Fde) : Loop := { l with fde := Function.update l.fde p (some f) }

def fdeventPlistEnqueue (l : Loop) (p : Nat) : Option Loop := do
  let links ← l.links.append listPending p
  return { l with links }

def fdeventPlistRemove (l : Loop) (p : Nat) : Option Loop := do
  let links ← l.links.unlink p
  return { l with links }

/-! ## Installing and removing -/

def fdeventConnect (l : Loop) (fd : Nat) : Loop := { l with selectN := max l.selectN (fd + 1) }

/-- The largest used descriptor below `n`, or 0. -/
def lastUsed (table : Nat → Option Nat) (n : Nat) : Nat :=
  (List.range n).foldl (fun last i => if (table i).isSome then i else last) 0

def fdeventDisconnect (l : Loop) (fd : Nat) : Option Loop :=
  if fdSetsize ≤ fd then none
  else some { l with fds := Function.update l.fds fd 0#8, selectN := lastUsed l.fdTable l.selectN + 1 }

def fdeventRegister (l : Loop) (p fd : Nat) : Option Loop :=
  if fd > 32000 then none else some { l with fdTable := Function.update l.fdTable fd (some p) }

def fdeventUnregister (l : Loop) (p fd : Nat) : Option Loop :=
  if l.fdTable fd ≠ some p then none else some { l with fdTable := Function.update l.fdTable fd none }

def fdeventInstall (l : Loop) (p fd : Nat) : Option Loop := do
  let l ← fdeventRegister (l.store p { fd, active := true }) p fd
  return fdeventConnect l fd

def fdeventRemove (l : Loop) (p : Nat) : Option Loop := do
  let f ← l.fde p
  let l ← if f.pending then fdeventPlistRemove l p else some l
  let l ← if f.active then (fdeventDisconnect l f.fd).bind (fdeventUnregister · p f.fd) else some l
  return l.store p { fd := f.fd, active := false }

/-! ## What is wanted -/

def fdeventUpdate (l : Loop) (fd : Nat) (events : Events) : Option Loop :=
  if fdSetsize ≤ fd then none else some { l with fds := Function.update l.fds fd (events &&& selectable) }

/-- The descriptor sets are those of the active fdevents. -/
def updated (l : Loop) (f : Fde) (events : Events) : Option Loop :=
  if f.active then fdeventUpdate l f.fd events else some l

/-- A pending event stays if it is not among the events wanted from now on. -/
def fdeventSet (l : Loop) (p : Nat) (events : Events) : Option Loop := do
  let f ← l.fde p
  if f.want = events then return l
  let l ← updated l f events
  let f := { f with want := events }
  if f.pending then
    let f := { f with events := f.events &&& ~~~events }
    if f.events = 0#8 then
      let l ← fdeventPlistRemove l p
      return l.store p { f with pending := false }
    else return l.store p f
  else return l.store p f

def fdeventAdd (l : Loop) (p : Nat) (events : Events) : Option Loop := do
  let f ← l.fde p
  fdeventSet l p (f.want ||| events)

def fdeventDel (l : Loop) (p : Nat) (events : Events) : Option Loop := do
  let f ← l.fde p
  fdeventSet l p (f.want &&& ~~~events)

/-! ## The loop -/

/-- What `select` says: the descriptors that are ready, or that some are bad (`EBADF`). -/
inductive Answer
  | ready (events : Nat → Events)
  | bad (fd : Nat → Bool)

/-- A bad descriptor is taken for a readable one (`fdevent_fd_check`). -/
def Answer.reports (a : Answer) (l : Loop) (fd : Nat) : Events :=
  match a with
  | .ready events => events fd &&& l.fds fd
  | .bad isBad => if (l.fdTable fd).isSome && isBad fd then fdeRead else 0#8

def processFd (l : Loop) (fd : Nat) (events : Events) : Option Loop :=
  if events = 0#8 then some l
  else do
    let p ← l.fdTable fd
    let f ← l.fde p
    let f := { f with events := f.events ||| events }
    if f.pending then return l.store p f
    else fdeventPlistEnqueue (l.store p { f with pending := true }) p

def fdeventProcess (l : Loop) (a : Answer) : Option Loop :=
  if fdSetsize < l.selectN then none
  else (List.range l.selectN).foldlM (fun l' fd => processFd l' fd (a.reports l fd)) l

/-- `fdevent_call_fdfunc`, and what the callback is given. -/
def fdeventCallFdfunc (l : Loop) (p : Nat) : Option (Loop × Option Events) := do
  let f ← l.fde p
  if f.pending then return (l.store p { f with events := 0#8, pending := false }, some f.events)
  else return (l.store p { f with events := 0#8 }, none)

/-- One turn of the inner loop: `fdevent_plist_dequeue` and the callback of that fdevent. -/
def fdeventDispatch (l : Loop) : Option (Loop × Option Events) := do
  match ← l.links.first listPending with
  | none => return (l, none)
  | some p =>
    let l ← fdeventPlistRemove l p
    fdeventCallFdfunc l p

/-- `fdevent_subproc_event_func`, when nothing is left to read from `fd`. -/
def fdeventSubproc (l : Loop) (fd : Nat) : Option (Loop × Option Events) :=
  match l.fdTable fd with
  | none => some (l, none)
  | some p => do
    let f ← l.fde p
    if f.fd ≠ fd then return (l, none)
    let f := { f with events := f.events ||| fdeRead }
    if f.pending then return (l.store p f, none)
    else fdeventCallFdfunc (l.store p { f with pending := true }) p

inductive Step
  | install (p fd : Nat)
  | remove (p : Nat)
  | set (p : Nat) (events : Events)
  | add (p : Nat) (events : Events)
  | del (p : Nat) (events : Events)
  | process (a : Answer)
  | dispatch
  | subproc (fd : Nat)

def step (l : Loop) : Step → Option Loop
  | .install p fd => fdeventInstall l p fd
  | .remove p => fdeventRemove l p
  | .set p events => fdeventSet l p events
  | .add p events => fdeventAdd l p events
  | .del p events => fdeventDel l p events
  | .process a => fdeventProcess l a
  | .dispatch => (fdeventDispatch l).map (·.1)
  | .subproc fd => (fdeventSubproc l fd).map (·.1)

def run (l : Loop) (steps : List Step) : Option Loop := steps.foldlM step l

/-! ## How it has to be used -/

/-- An fdevent is installed at an address of its own and on a new descriptor, and is there
    when it is changed. -/
def allowed (l : Loop) : Step → Bool
  | .install p fd => p ≠ listPending && (l.fde p).all (!·.active) && (l.fdTable fd).isNone && fd < fdSetsize
  | .remove p => (l.fde p).isSome
  | .set p _ => (l.fde p).isSome
  | .add p _ => (l.fde p).isSome
  | .del p _ => (l.fde p).isSome
  | _ => true

/-- Every step is allowed in the state it meets. -/
def Used : Loop → List Step → Prop
  | _, [] => True
  | l, s :: steps => allowed l s = true ∧ (step l s).elim True fun l' => Used l' steps

end AmebaLinux.Adb.Fdevent
