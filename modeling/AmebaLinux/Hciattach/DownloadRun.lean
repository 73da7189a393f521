/-
  AmebaLinux.Hciattach.DownloadRun — a run of the download loop as the commands it sent
  and what each was answered with, for any controller (see `AmebaLinux.Hciattach.Link`).

  `exchanges` follows the loop and lists its turns up to the last one whose command was
  sent. A turn that is followed by another one was answered by a packet that `goesOn`.

  Proved:
  - `downloads_exchanges`: the download commands of a run are those of its exchanges.
  - `chain_exchanges`: each is built from what the one before it left.
  - `Chain.taken_prefix` / `Chain.length_le`: when every turn takes the head of what is
    pending, or finds nothing pending, a run takes a beginning of what was pending at its
    start, with at most one command more when an answer to a last command ends it.
-/

import AmebaLinux.Hciattach.AttachProofs

namespace AmebaLinux.Hciattach.Attach

open AmebaLinux.Lib
open AmebaLinux.Hciattach.Link

/-! ## The exchanges of a run -/

/-- A turn whose command was sent: what it was built from, `rlen` before it, and the packet
    `start_xfer_wait` accepted, if any. -/
structure Exchange (γ : Type) where
  info : γ
  step : Step
  rlen : Nat
  reply : Option (List UInt8)

variable {γ : Type} {e : Env} {next : γ → Build (Step × γ)} {ended : UInt8 → Bool}

def exchanges (e : Env) (next : γ → Build (Step × γ)) (ended : UInt8 → Bool) : Nat → Nat → γ → St → List (Exchange γ)
  | 0, _, _, _ => []
  | fuel + 1, rlen, info, s =>
    match next info with
    | .error _ => []
    | .ok (t, info') =>
      match vendorWrites e t.writes s with
      | (.ok true, s1) =>
        if t.last && !e.setattr then []
        else
          match startXferWait t.cmd s1 with
          | (.ok (some p), s2) =>
            ⟨info, t, rlen, some p⟩ ::
              if goesOn ended rlen p then exchanges e next ended fuel (min rlen p.length) info' s2 else []
          | _ => [⟨info, t, rlen, none⟩]
      | _ => []

/-- The exchanges of a run that comes to a turn with `info` and `rlen`. -/
inductive Chain (next : γ → Build (Step × γ)) (ended : UInt8 → Bool) : Nat → γ → List (Exchange γ) → Prop
  | nil {rlen : Nat} {info : γ} : Chain next ended rlen info []
  | last {rlen : Nat} {info info' : γ} {t : Step} {reply : Option (List UInt8)} (built : next info = .ok (t, info')) :
      Chain next ended rlen info [⟨info, t, rlen, reply⟩]
  | more {rlen : Nat} {info info' : γ} {t : Step} {p : List UInt8} {rest : List (Exchange γ)}
      (built : next info = .ok (t, info')) (goes : goesOn ended rlen p = true)
      (tail : Chain next ended (min rlen p.length) info' rest) :
      Chain next ended rlen info (⟨info, t, rlen, some p⟩ :: rest)

/-- A turn that is answered by a packet which lets the loop go on. -/
theorem exchanges_more {fuel rlen : Nat} {info info' : γ} {s s1 s2 : St} {t : Step} {p : List UInt8}
    (built : next info = .ok (t, info')) (written : vendorWrites e t.writes s = (.ok true, s1))
    (port : (t.last && !e.setattr) = false) (reply : startXferWait t.cmd s1 = (.ok (some p), s2))
    (goes : goesOn ended rlen p = true) :
    exchanges e next ended (fuel + 1) rlen info s =
      ⟨info, t, rlen, some p⟩ :: exchanges e next ended fuel (min rlen p.length) info' s2 := by
  rw [exchanges, built]
  dsimp only
  rw [written]
  dsimp only
  rw [port, if_neg Bool.false_ne_true, reply]
  dsimp only
  rw [if_pos goes]

theorem chain_exchanges (fuel rlen : Nat) (info : γ) (s : St) :
    Chain next ended rlen info (exchanges e next ended fuel rlen info s) := by
  induction fuel generalizing rlen info s with
  | zero => exact .nil
  | succ fuel ih =>
    rw [exchanges]
    split
    case h_1 => exact .nil
    case h_2 t info' built =>
      split
      case h_2 => exact .nil
      case h_1 s1 written =>
        split
        case isTrue => exact .nil
        case isFalse =>
          split
          case h_2 => exact .last built
          case h_1 p s2 reply =>
            split
            case isTrue goes => exact .more built goes (ih _ _ _)
            case isFalse => exact .last built

/-! ## Commands -/

theorem moves_vendorWrites (e : Env) (ws : List (UInt32 × UInt32)) : Prog.Moves Keeps (vendorWrites e ws) := by
  induction ws with
  | nil => exact Prog.ends_pure Keeps.refl true
  | cons w rest ih =>
    have hone : Prog.Moves Keeps (hciVendorWrite e w.1 w.2) := by
      refine (Prog.ends_get Keeps.refl).bind Keeps.trans Keeps.trans fun s => ?_
      refine (moves_wait rfl).bind Keeps.trans Keeps.trans fun r => ?_
      cases r with
      | none => exact Prog.ends_pure Keeps.refl false
      | some p => exact (Prog.ends_pure Keeps.refl false).ite (Prog.ends_pure Keeps.refl true)
    refine hone.bind Keeps.trans Keeps.trans fun b => ?_
    cases b with
    | false => exact Prog.ends_pure Keeps.refl false
    | true => exact ih

/-- The download commands sent, in order. -/
def downloadCmds (s : St) : List (List UInt8) := (downloads s.sent).map (·.cmd)

theorem startXferWait_sent (cmd : List UInt8) (s : St) :
    ∃ a, (startXferWait cmd s).2.sent = s.sent ++ [⟨cmd, a⟩] := by
  unfold startXferWait
  rcases waitReply (cmdOpcode cmd) s.rx with ⟨reply, rx⟩
  cases reply with
  | timeout => exact ⟨_, rfl⟩
  | failed => exact ⟨_, rfl⟩
  | accepted p => exact ⟨_, rfl⟩

theorem downloadCmds_wait {cmd : List UInt8} (h : isDownload cmd = true) (s : St) :
    downloadCmds (startXferWait cmd s).2 = downloadCmds s ++ [cmd] := by
  obtain ⟨a, hsent⟩ := startXferWait_sent cmd s
  have hone : downloads [⟨cmd, a⟩] = [⟨cmd, a⟩] := List.filter_cons_of_pos h
  rw [downloadCmds, hsent, downloads_append, hone, List.map_append]
  rfl

/-- A command cut from a buffer that starts as one of a download. -/
theorem isDownload_slice {buf cmd : List UInt8} {n : Nat} (hhead : buf.take 3 = [0x01, 0x20, 0xfc])
    (h : slice buf 0 (n + 4) = .ok cmd) : isDownload cmd = true := by
  have hcmd : cmd.take 3 = [0x01, 0x20, 0xfc] := by
    unfold slice at h
    split at h
    · cases h
      rw [List.drop_zero, List.take_take, Nat.min_eq_left (by omega), hhead]
    · cases h
  rw [← List.take_append_drop 3 cmd, hcmd]
  rfl

/-- From a state with `I` every turn builds a download command and leaves one with `I`. -/
def Downloads (I : γ → Prop) (next : γ → Build (Step × γ)) : Prop :=
  ∀ info t info', I info → next info = .ok (t, info') → isDownload t.cmd = true ∧ I info'

theorem downloads_exchanges (e : Env) (ended : UInt8 → Bool) {I : γ → Prop} (download : Downloads I next)
    (fuel rlen : Nat) {info : γ} (hI : I info) (s : St) : downloadCmds (downloadLoop e next ended fuel rlen info s).2 =
      downloadCmds s ++ (exchanges e next ended fuel rlen info s).map (·.step.cmd) := by
  induction fuel generalizing rlen info s with
  | zero => exact (List.append_nil _).symm
  | succ fuel ih =>
    rw [exchanges]
    rcases hnext : next info with halt | ⟨t, info'⟩
    · have hstop : (downloadLoop e next ended (fuel + 1) rlen info s).2 = s := by
        rw [downloadLoop, hnext]
        cases halt <;> rfl
      rw [hstop]
      exact (List.append_nil _).symm
    rcases hwrites : vendorWrites e t.writes s with ⟨r, s1⟩
    have hkept : downloadCmds s1 = downloadCmds s := by
      have hmoves := moves_vendorWrites e t.writes s
      cases r with
      | error code => exact congrArg (List.map _) (hmoves.of_error hwrites).same
      | ok b => exact congrArg (List.map _) (hmoves.of_ok hwrites).same
    cases r with
    | error code =>
      rw [downloadLoop_writeExits hnext hwrites]
      dsimp only
      rw [hwrites]
      exact hkept.trans (List.append_nil _).symm
    | ok b =>
      cases b with
      | false =>
        rw [downloadLoop_writeRefused hnext hwrites]
        dsimp only
        rw [hwrites]
        exact hkept.trans (List.append_nil _).symm
      | true =>
        dsimp only
        rw [hwrites]
        dsimp only
        by_cases port : (t.last && !e.setattr) = true
        · rw [if_pos port, downloadLoop_portRefused hnext hwrites port]
          exact hkept.trans (List.append_nil _).symm
        have port' : (t.last && !e.setattr) = false := Bool.eq_false_iff.mpr port
        obtain ⟨hdownload, hI'⟩ := download info t info' hI hnext
        have hcmds := downloadCmds_wait hdownload s1
        rw [if_neg port]
        rcases hwait : startXferWait t.cmd s1 with ⟨reply, s2⟩
        rw [hwait, hkept] at hcmds
        cases reply with
        | error code =>
          rw [downloadLoop_waitExits hnext hwrites port' hwait]
          exact hcmds
        | ok reply =>
          cases reply with
          | none =>
            rw [downloadLoop_refused hnext hwrites port' hwait]
            exact hcmds
          | some p =>
            rw [downloadLoop_accepted hnext hwrites port' hwait, List.map_cons]
            by_cases goes : goesOn ended rlen p = true
            · rw [if_pos goes, if_pos goes, ih _ hI', hcmds, List.append_assoc]
              rfl
            · rw [if_neg goes, if_neg goes]
              exact hcmds

/-! ## What is pending -/

section Pending

variable {φ : Type} {I : γ → Prop} {pending : γ → List φ}

/-- A turn takes the head of what is pending; when nothing is pending it takes nothing, and
    its command is the `last` one. `I` is an invariant of the turns. -/
def Takes (I : γ → Prop) (pending : γ → List φ) (next : γ → Build (Step × γ)) : Prop :=
  ∀ info t info', I info → next info = .ok (t, info') → I info' ∧
    ((∃ x, pending info = x :: pending info') ∨ (t.last = true ∧ pending info = [] ∧ pending info' = []))

/-- What the exchanges took. -/
def taken (pending : γ → List φ) (log : List (Exchange γ)) : List φ := log.filterMap fun x => (pending x.info).head?

/-- The answer to a last command does not let the loop go on. -/
def Exchange.Answered (ended : UInt8 → Bool) (x : Exchange γ) : Prop :=
  x.step.last = true → ∀ p, x.reply = some p → goesOn ended x.rlen p = false

theorem taken_cons (x : Exchange γ) (log : List (Exchange γ)) :
    taken pending (x :: log) = (pending x.info).head?.toList ++ taken pending log := by
  unfold taken
  rw [List.filterMap_cons]
  cases (pending x.info).head? <;> rfl

theorem Chain.taken_prefix (takes : Takes I pending next) {rlen : Nat} {info : γ} {log : List (Exchange γ)}
    (h : Chain next ended rlen info log) (hI : I info) : taken pending log <+: pending info := by
  induction h with
  | nil => exact List.nil_prefix
  | @last rlen info info' t reply built =>
    rw [taken_cons]
    cases pending info with
    | nil => exact List.nil_prefix
    | cons x rest => exact (List.cons_prefix_cons).mpr ⟨rfl, List.nil_prefix⟩
  | @more rlen info info' t p rest built goes tail ih =>
    rw [taken_cons]
    obtain ⟨hI', htake⟩ := takes info t info' hI built
    have hrest := ih hI'
    rcases htake with ⟨x, hx⟩ | ⟨-, hnone, hnone'⟩
    · simp only [hx]
      exact (List.cons_prefix_cons).mpr ⟨rfl, hrest⟩
    · simp only [hnone]
      rwa [hnone'] at hrest

/-- The loop sends one command for everything pending, and at most one more. -/
theorem Chain.length_le (takes : Takes I pending next) {rlen : Nat} {info : γ} {log : List (Exchange γ)}
    (h : Chain next ended rlen info log) (hI : I info) (answered : ∀ x ∈ log, x.Answered ended) :
    log.length ≤ (pending info).length + 1 := by
  induction h with
  | nil => exact Nat.zero_le _
  | last built => exact Nat.le_add_left _ _
  | @more rlen info info' t p rest built goes tail ih =>
    obtain ⟨hI', htake⟩ := takes info t info' hI built
    have hrest := ih hI' fun x hx => answered x (List.mem_cons_of_mem _ hx)
    rcases htake with ⟨x, hx⟩ | ⟨hlast, -, -⟩
    · rw [hx, List.length_cons, List.length_cons]
      exact Nat.succ_le_succ hrest
    · have hstop := answered _ List.mem_cons_self hlast p rfl
      rw [goes] at hstop
      cases hstop

end Pending

end AmebaLinux.Hciattach.Attach
