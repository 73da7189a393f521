/-
  AmebaLinux.Rcp.FwUpdateProcessProofs — which pairs the update's main loop sends, and
  when it ends (see `AmebaLinux.Rcp.FwUpdateProcess`).

  Everything here is for any device: what its requests answer is arbitrary.

  Proved:
  - `forced_update_ends`: a forced update of `n` pairs ends within `2 * (n + 1)` rounds.
    Every payload directly follows its accepted offer, in an even round, and no payload
    is sent twice.
  - `boot_in_first_two`: boot images, and on a single-bank RCP `_App_Data1.` images, are
    offered in the first two iterations only, up to iteration 255. In iteration 256 the
    8-bit `round` is 0 and they are offered again (`boot_offered_again`); a forced update
    does not get that far.
-/

import AmebaLinux.Rcp.FwUpdateProcess
import Mathlib.Tactic

namespace AmebaLinux.Rcp.FwUpdate

/-! ## What a pass can do -/

/-- Slot `i` of the whole array, for a pass that is at slot `index`. -/
def Slot (units : List FwFileUnit) (index i : Nat) (u : FwFileUnit) : Prop := index ≤ i ∧ units[i - index]? = some u

theorem slot_cons {u v : FwFileUnit} {units : List FwFileUnit} {index i : Nat} :
    Slot (u :: units) index i v ↔ (i = index ∧ v = u) ∨ Slot units (index + 1) i v := by
  unfold Slot
  constructor
  · rintro ⟨hle, h⟩
    rcases Nat.eq_or_lt_of_le hle with rfl | hlt
    · rw [Nat.sub_self, List.getElem?_cons_zero] at h
      exact .inl ⟨rfl, (Option.some.inj h).symm⟩
    · rw [show i - index = i - (index + 1) + 1 by omega, List.getElem?_cons_succ] at h
      exact .inr ⟨hlt, h⟩
  · rintro (⟨rfl, rfl⟩ | ⟨hle, h⟩)
    · exact ⟨Nat.le_refl _, by rw [Nat.sub_self, List.getElem?_cons_zero]⟩
    · refine ⟨by omega, ?_⟩
      rw [show i - index = i - (index + 1) + 1 by omega, List.getElem?_cons_succ]
      exact h

section

variable {σ : Type}

/-- The passes there can be, slot by slot, where `sends` says which slots are offered. -/
inductive Passes (payload : Bool) (sends : FwFileUnit → Bool) : List FwFileUnit → Nat → Pass σ → Prop
  | done (index : Nat) (port : σ) : Passes payload sends [] index ⟨[], [], 0, .ok port⟩
  | skipped {u units index p} : Passes payload sends units (index + 1) p →
      Passes payload sends (u :: units) index (p.before [] u 0)
  | offered {u units index p} (status : UInt8) : sends u = true → Passes payload sends units (index + 1) p →
      Passes payload sends (u :: units) index (p.before [.offer index (some status)] u 0)
  | loaded {u units index p} : sends u = true → payload = true → Passes payload sends units (index + 1) p →
      Passes payload sends (u :: units) index
        (p.before [.offer index (some firmwareUpdateOfferAccept), .payload index (some true)] { u with isDownload := true } 1)
  | refused {u units index} (stop : Stop) : sends u = true →
      Passes payload sends (u :: units) index ⟨[.offer index none], u :: units, 0, .error stop⟩
  | broken {u units index} (ok : Option Bool) (stop : Stop) : sends u = true → payload = true →
      Passes payload sends (u :: units) index
        ⟨[.offer index (some firmwareUpdateOfferAccept), .payload index ok], u :: units, 1, .error stop⟩

def sends (force : Bool) (round : UInt8) (ver : ImageVersion) (u : FwFileUnit) : Bool :=
  u.isSrcbinExist && isSendOffer force round ver u

theorem pass_passes (c : Calls σ) (force payload : Bool) (round : UInt8) (ver : ImageVersion) (units : List FwFileUnit)
    (index : Nat) (port : σ) :
    Passes payload (sends force round ver) units index (pass c force payload round ver units index port) := by
  induction units generalizing index port with
  | nil => exact .done index port
  | cons u units ih =>
    rw [pass]
    split
    · rename_i hsend
      split
      · exact .refused _ hsend
      · exact .refused _ hsend
      · split
        · rename_i hacc
          obtain ⟨hp, hst⟩ := Bool.and_eq_true_iff.mp hacc
          rw [beq_iff_eq.mp hst]
          split
          · exact .broken _ _ hsend hp
          · exact .broken _ _ hsend hp
          · exact .loaded hsend hp (ih _ _)
        · exact .offered _ hsend (ih _ _)
    · exact .skipped (ih _ _)

/-! ## What holds of every pass -/

def Event.index : Event → Nat
  | .offer index _ => index
  | .payload index _ => index

/-- The slots whose payload is sent. -/
def payloads (events : List Event) : List Nat :=
  events.filterMap fun
    | .offer _ _ => none
    | .payload index _ => some index

@[simp] theorem payloads_append (a b : List Event) : payloads (a ++ b) = payloads a ++ payloads b := List.filterMap_append

@[simp] theorem payloads_offer (i : Nat) (st : Option UInt8) (es : List Event) :
    payloads (.offer i st :: es) = payloads es := rfl

@[simp] theorem payloads_payload (i : Nat) (ok : Option Bool) (es : List Event) :
    payloads (.payload i ok :: es) = i :: payloads es := rfl

@[simp] theorem payloads_nil : payloads [] = [] := rfl

theorem mem_payloads {events : List Event} {i : Nat} : i ∈ payloads events ↔ ∃ ok, Event.payload i ok ∈ events := by
  induction events with
  | nil => simp
  | cons e events ih =>
    cases e with
    | offer j st => simp [ih]
    | payload j ok =>
      simp only [payloads_payload, List.mem_cons, ih, Event.payload.injEq]
      constructor
      · rintro (rfl | ⟨ok', h⟩)
        · exact ⟨ok, .inl ⟨rfl, rfl⟩⟩
        · exact ⟨ok', .inr h⟩
      · rintro ⟨ok', ⟨rfl, -⟩ | h⟩
        · exact .inl rfl
        · exact .inr ⟨ok', h⟩

section

variable {payload : Bool} {sends : FwFileUnit → Bool} {units : List FwFileUnit} {index : Nat} {p : Pass σ}

/-- Only slots to be offered are offered. -/
theorem Passes.sent (h : Passes payload sends units index p) :
    ∀ e ∈ p.events, ∃ u, Slot units index e.index u ∧ sends u = true := by
  induction h with
  | done index port => simp
  | skipped _ ih =>
    intro e he
    obtain ⟨u, hu, hs⟩ := ih e he
    exact ⟨u, slot_cons.mpr (.inr hu), hs⟩
  | offered status hs _ ih =>
    intro e he
    rcases List.mem_append.mp he with he | he
    · obtain rfl := List.mem_singleton.mp he
      exact ⟨_, slot_cons.mpr (.inl ⟨rfl, rfl⟩), hs⟩
    · obtain ⟨u, hu, hs⟩ := ih e he
      exact ⟨u, slot_cons.mpr (.inr hu), hs⟩
  | loaded hs _ _ ih =>
    intro e he
    rcases List.mem_append.mp he with he | he
    · refine ⟨_, slot_cons.mpr (.inl ⟨?_, rfl⟩), hs⟩
      simp only [List.mem_cons, List.not_mem_nil, or_false] at he
      rcases he with rfl | rfl <;> rfl
    · obtain ⟨u, hu, hs⟩ := ih e he
      exact ⟨u, slot_cons.mpr (.inr hu), hs⟩
  | refused stop hs =>
    intro e he
    obtain rfl := List.mem_singleton.mp he
    exact ⟨_, slot_cons.mpr (.inl ⟨rfl, rfl⟩), hs⟩
  | broken ok stop hs _ =>
    intro e he
    refine ⟨_, slot_cons.mpr (.inl ⟨?_, rfl⟩), hs⟩
    simp only [List.mem_cons, List.not_mem_nil, or_false] at he
    rcases he with rfl | rfl <;> rfl

/-- Without payloads to send none is sent. -/
theorem Passes.payloads_odd (h : Passes false sends units index p) : payloads p.events = [] := by
  generalize hb : false = payload at h
  induction h with
  | done index port => rfl
  | skipped _ ih => exact ih
  | offered status _ _ ih => exact ih
  | loaded _ hp _ _ => rw [← hb] at hp; cases hp
  | refused stop _ => rfl
  | broken ok stop _ hp => rw [← hb] at hp; cases hp

/-- The payloads of a pass are of different slots, from `index` on. -/
theorem Passes.payloads_nodup (h : Passes payload sends units index p) :
    (payloads p.events).Nodup ∧ ∀ i ∈ payloads p.events, index ≤ i := by
  induction h with
  | done index port => exact ⟨List.nodup_nil, by simp⟩
  | skipped _ ih => exact ⟨ih.1, fun i hi => Nat.le_of_succ_le (ih.2 i hi)⟩
  | offered status _ _ ih => exact ⟨ih.1, fun i hi => Nat.le_of_succ_le (ih.2 i hi)⟩
  | loaded _ _ _ ih =>
    refine ⟨List.nodup_cons.mpr ⟨fun hmem => absurd (ih.2 _ hmem) (by omega), ih.1⟩, fun i hi => ?_⟩
    rcases List.mem_cons.mp hi with rfl | hi
    · exact Nat.le_refl _
    · exact Nat.le_of_succ_le (ih.2 i hi)
  | refused stop _ => exact ⟨List.nodup_nil, by simp⟩
  | broken ok stop _ _ => exact ⟨List.nodup_singleton _, by simp⟩

/-- Every payload directly follows its own accepted offer. -/
def Follows (events : List Event) : Prop :=
  ∀ before i ok rest, events = before ++ .payload i ok :: rest →
    ∃ before', before = before' ++ [.offer i (some firmwareUpdateOfferAccept)]

theorem follows_nil : Follows [] := by
  intro before i ok rest h
  cases before <;> cases h

theorem Follows.offer {events : List Event} (h : Follows events) (j : Nat) (st : Option UInt8) :
    Follows (.offer j st :: events) := by
  intro before i ok rest he
  cases before with
  | nil => cases he
  | cons e before =>
    rw [List.cons_append, List.cons.injEq] at he
    obtain ⟨rfl, he⟩ := he
    obtain ⟨before', rfl⟩ := h before i ok rest he
    exact ⟨_ :: before', rfl⟩

theorem Follows.accepted {events : List Event} (h : Follows events) (j : Nat) (ok' : Option Bool) :
    Follows (.offer j (some firmwareUpdateOfferAccept) :: .payload j ok' :: events) := by
  intro before i ok rest he
  match before, he with
  | [], he => cases he
  | [e], he =>
    simp only [List.cons_append, List.nil_append, List.cons.injEq, Event.payload.injEq] at he
    obtain ⟨rfl, ⟨rfl, -⟩, -⟩ := he
    exact ⟨[], rfl⟩
  | e :: e' :: before, he =>
    simp only [List.cons_append, List.cons.injEq] at he
    obtain ⟨rfl, rfl, he⟩ := he
    obtain ⟨before', rfl⟩ := h before i ok rest he
    exact ⟨_ :: _ :: before', rfl⟩

theorem Passes.follows (h : Passes payload sends units index p) : Follows p.events := by
  induction h with
  | done index port => exact follows_nil
  | skipped _ ih => exact ih
  | offered status _ _ ih => exact ih.offer _ _
  | loaded _ _ _ ih => exact ih.accepted _ _
  | refused stop _ => exact follows_nil.offer _ _
  | broken ok stop _ _ => exact follows_nil.accepted _ _

/-- The slots after a pass: the same pairs, and a pair marked stays marked. -/
theorem Passes.kept (h : Passes payload sends units index p) {i : Nat} {u : FwFileUnit} (hu : Slot units index i u) :
    ∃ b, Slot p.files index i { u with isDownload := b } ∧ (u.isDownload = true → b = true) := by
  induction h with
  | done index port => exact ⟨u.isDownload, hu, id⟩
  | @skipped v units index p _ ih | @offered v units index p status _ _ ih =>
    rcases slot_cons.mp hu with ⟨rfl, rfl⟩ | hu
    · exact ⟨u.isDownload, slot_cons.mpr (.inl ⟨rfl, rfl⟩), id⟩
    · obtain ⟨b, hb, hmark⟩ := ih hu
      exact ⟨b, slot_cons.mpr (.inr hb), hmark⟩
  | loaded _ _ _ ih =>
    rcases slot_cons.mp hu with ⟨rfl, rfl⟩ | hu
    · exact ⟨true, slot_cons.mpr (.inl ⟨rfl, rfl⟩), fun _ => rfl⟩
    · obtain ⟨b, hb, hmark⟩ := ih hu
      exact ⟨b, slot_cons.mpr (.inr hb), hmark⟩
  | refused stop _ => exact ⟨u.isDownload, hu, id⟩
  | broken ok stop _ _ => exact ⟨u.isDownload, hu, id⟩

theorem Passes.length (h : Passes payload sends units index p) : p.files.length = units.length := by
  induction h with
  | done index port => rfl
  | skipped _ ih | offered _ _ _ ih | loaded _ _ _ ih => exact congrArg (· + 1) ih
  | refused stop _ | broken ok stop _ _ => rfl

/-- A pair after a pass over all slots is the pair before it, with its mark kept. -/
theorem Passes.origin (h : Passes payload sends units 0 p) {i : Nat} {u' : FwFileUnit} (hu' : p.files[i]? = some u') :
    ∃ u, units[i]? = some u ∧ u' = { u with isDownload := u'.isDownload } ∧ (u.isDownload = true → u'.isDownload = true) := by
  have hlt : i < units.length := h.length ▸ (List.getElem?_eq_some_iff.mp hu').1
  obtain ⟨b, ⟨-, hb⟩, hmark⟩ := h.kept ⟨Nat.zero_le i, List.getElem?_eq_getElem hlt⟩
  obtain rfl := Option.some.inj (hb.symm.trans hu')
  exact ⟨_, List.getElem?_eq_getElem hlt, rfl, hmark⟩

/-- A pass that goes through has marked every pair whose payload it sent. -/
theorem Passes.marked (h : Passes payload sends units index p) {port : σ} (hok : p.result = .ok port) :
    ∀ i ∈ payloads p.events, ∃ u, Slot p.files index i u ∧ u.isDownload = true := by
  induction h with
  | done index port => simp
  | skipped _ ih | offered _ _ _ ih =>
    intro i hi
    obtain ⟨u, hu, hd⟩ := ih hok i hi
    exact ⟨u, slot_cons.mpr (.inr hu), hd⟩
  | loaded _ _ _ ih =>
    intro i hi
    rcases List.mem_cons.mp hi with rfl | hi
    · exact ⟨_, slot_cons.mpr (.inl ⟨rfl, rfl⟩), rfl⟩
    · obtain ⟨u, hu, hd⟩ := ih hok i hi
      exact ⟨u, slot_cons.mpr (.inr hu), hd⟩
  | refused stop _ => cases hok
  | broken ok stop _ _ => cases hok

/-- The pairs still to be sent by a forced update. -/
def todo (files : List FwFileUnit) : Nat := files.countP fun u => u.isSrcbinExist && !u.isDownload

/-- A forced pass that goes through takes as many pairs off as it counts payloads. -/
theorem Passes.progress (h : Passes payload sends units index p) {port : σ} (hok : p.result = .ok port)
    (hs : ∀ u, sends u = true → u.isSrcbinExist = true ∧ u.isDownload = false) :
    todo p.files + p.count = todo units := by
  induction h with
  | done index port => rfl
  | @skipped u _ _ p _ ih | @offered u _ _ p _ _ _ ih =>
    have hp := ih hok
    show todo (u :: p.files) + (0 + p.count) = _
    unfold todo at *
    rw [List.countP_cons, List.countP_cons]
    omega
  | @loaded u units index p hsend _ _ ih =>
    have hp := ih hok
    obtain ⟨hex, hdl⟩ := hs _ hsend
    show todo ({ u with isDownload := true } :: p.files) + (1 + p.count) = _
    unfold todo at *
    rw [List.countP_cons, List.countP_cons]
    simp only [hex, hdl, Bool.not_true, Bool.not_false, Bool.and_false, Bool.and_true, if_true]
    rw [if_neg (by decide)]
    omega
  | refused stop _ => cases hok
  | broken ok stop _ _ => cases hok

end

/-! ## What an iteration can do -/

section

variable (c : Calls σ) (force : Bool)

/-- An iteration that got as far as its pass `p`, with `ver` the version it goes by. -/
structure Turned (l : Loop σ) (ver : ImageVersion) (p : Pass σ) : Prop where
  passes : Passes (decide (l.round % 2 ≠ 1)) (sends force l.round ver) l.files 0 p
  events : (turn c force l).events = p.events
  /-- What the next iteration starts from, and why there is one. -/
  next : ∀ l', (turn c force l).result = .ok (false, l') →
    (∃ port, p.result = .ok port) ∧ l'.files = p.files ∧ l'.ver = ver ∧ l'.round = l.round + 1 ∧
      (l.round % 2 ≠ 1 → p.count ≠ 0)
  /-- The version is the one asked for in round 1. -/
  first : l.round = 1 → ∃ port, c.fwGetVerison l.port = some (some ver, port)
  later : l.round ≠ 1 → ver = l.ver

theorem oddTurn_spec {l : Loop σ} (hodd : l.round % 2 = 1) :
    ((turn c force l).events = [] ∧ ∃ stop, (turn c force l).result = .error stop) ∨
      ∃ ver p, Turned c force l ver p := by
  have hturn : turn c force l = oddTurn c force l := by rw [turn, if_pos hodd]
  rcases hv : c.fwGetVerison l.port with _ | ⟨_ | verTmp, port⟩
  · exact .inl (by rw [hturn, oddTurn, hv]; exact ⟨rfl, _, rfl⟩)
  · exact .inl (by rw [hturn, oddTurn, hv]; exact ⟨rfl, _, rfl⟩)
  · let ver := if l.round = 1 then verTmp else l.ver
    let p := pass c force false l.round ver l.files 0 port
    have ht : turn c force l =
        ⟨p.events, p.result.map fun port => (false, ⟨p.files, port, ver, l.round + 1⟩)⟩ := by
      rw [hturn, oddTurn, hv]
    refine .inr ⟨ver, p, ?_, by rw [ht], ?_, ?_, ?_⟩
    · rw [decide_eq_false (not_not.mpr hodd)]
      exact pass_passes c force false l.round ver l.files 0 port
    · intro l' hl'
      rw [ht] at hl'
      rcases hp : p.result with stop | port'
      · rw [hp] at hl'; cases hl'
      · rw [hp] at hl'
        cases hl'
        exact ⟨⟨port', rfl⟩, rfl, rfl, rfl, fun h => absurd hodd h⟩
    · intro h1
      exact ⟨port, by rw [hv]; simp only [ver, if_pos h1]⟩
    · intro h1
      simp only [ver, if_neg h1]

theorem evenTurn_spec {l : Loop σ} (heven : l.round % 2 ≠ 1) : ∃ p, Turned c force l l.ver p := by
  let p := pass c force true l.round l.ver l.files 0 l.port
  have hturn : turn c force l = evenTurn c force l := by rw [turn, if_neg heven]
  refine ⟨p, ?_, by rw [hturn]; rfl, ?_, ?_, fun _ => rfl⟩
  · rw [decide_eq_true heven]
    exact pass_passes c force true l.round l.ver l.files 0 l.port
  · intro l' hl'
    rw [hturn, evenTurn] at hl'
    dsimp only at hl'
    split at hl'
    · cases hl'
    · rename_i port hp
      split at hl'
      · cases hl'
      · rename_i hmore
        rw [Bool.or_eq_true, not_or, beq_iff_eq] at hmore
        split at hl'
        · cases hl'
        · cases hl'
        · cases hl'
          exact ⟨⟨port, hp⟩, rfl, rfl, rfl, fun _ => hmore.2⟩
  · intro h1
    exact absurd (by rw [h1]; decide) heven

theorem turn_spec (l : Loop σ) :
    ((turn c force l).events = [] ∧ ∃ stop, (turn c force l).result = .error stop) ∨
      ∃ ver p, Turned c force l ver p := by
  by_cases hodd : l.round % 2 = 1
  · exact oddTurn_spec c force hodd
  · obtain ⟨p, hp⟩ := evenTurn_spec c force hodd
    exact .inr ⟨l.ver, p, hp⟩

/-! ## Runs of the loop -/

/-- An iteration ends the loop, or the loop goes on from where it leaves off. -/
theorem mainLoop_succ (n : Nat) (l : Loop σ) :
    (∃ stop, mainLoop c force (n + 1) l = ⟨some stop, [(turn c force l).events]⟩) ∨
      ∃ l', (turn c force l).result = .ok (false, l') ∧
        mainLoop c force (n + 1) l =
          ⟨(mainLoop c force n l').stop, (turn c force l).events :: (mainLoop c force n l').iterations⟩ := by
  rw [mainLoop]
  rcases h : (turn c force l).result with stop | ⟨_ | _, l'⟩
  · exact .inl ⟨stop, rfl⟩
  · exact .inr ⟨l', rfl, rfl⟩
  · exact .inl ⟨.ret 0, rfl⟩

theorem iterations_length (n : Nat) (l : Loop σ) : (mainLoop c force n l).iterations.length ≤ n := by
  induction n generalizing l with
  | zero => exact Nat.le_refl _
  | succ n ih =>
    rcases mainLoop_succ c force n l with ⟨stop, hrun⟩ | ⟨l', -, hrun⟩
    · rw [hrun]; simp
    · rw [hrun]
      exact Nat.succ_le_succ (ih l')

/-- What holds of an iteration wherever `I` does, and `I` is kept, holds of all of them. -/
theorem mainLoop_induct {I : Nat → Loop σ → Prop} {P : Nat → List Event → Prop}
    (hturn : ∀ k l, I k l → P k (turn c force l).events)
    (hnext : ∀ k l l', I k l → (turn c force l).result = .ok (false, l') → I (k + 1) l') (n k : Nat) (l : Loop σ)
    (hl : I k l) : ∀ j events, (mainLoop c force n l).iterations[j]? = some events → P (k + j) events := by
  induction n generalizing k l with
  | zero => intro j events h; simp [mainLoop] at h
  | succ n ih =>
    intro j events h
    have hfirst := hturn k l hl
    rcases mainLoop_succ c force n l with ⟨stop, hrun⟩ | ⟨l', hl', hrun⟩
    · rw [hrun] at h
      cases j with
      | zero => cases h; exact hfirst
      | succ j => simp at h
    · rw [hrun] at h
      cases j with
      | zero => cases h; exact hfirst
      | succ j =>
        rw [show k + (j + 1) = k + 1 + j by omega]
        exact ih (k + 1) l' (hnext k l l' hl hl') j events h

end

/-! ## Forced updates -/

/-- A forced update offers no pair that is already downloaded. -/
theorem sends_forced {round : UInt8} {ver : ImageVersion} {u : FwFileUnit} (h : sends true round ver u = true) :
    u.isSrcbinExist = true ∧ u.isDownload = false := by
  obtain ⟨hex, hsend⟩ := Bool.and_eq_true_iff.mp h
  refine ⟨hex, ?_⟩
  simp only [isSendOffer, if_true] at hsend
  split at hsend
  · cases hsend
  · split at hsend
    · cases hsend
    · simpa using hsend

theorem round_odd (r : UInt8) : r % 2 = 1 ↔ r.toNat % 2 = 1 := by
  rw [← UInt8.toNat_inj, UInt8.toNat_mod]; rfl

theorem round_succ (r : UInt8) : (r + 1) % 2 = 1 ↔ r % 2 ≠ 1 := by
  rw [round_odd, ne_eq, round_odd, UInt8.toNat_add]
  show (r.toNat + 1) % 256 % 2 = 1 ↔ _
  omega

section

variable (c : Calls σ)

/-- What an iteration of a forced update leaves to do: less after an even round that
    goes on. -/
theorem forced_next {l l' : Loop σ} (h : (turn c true l).result = .ok (false, l')) :
    todo l'.files ≤ todo l.files ∧ (l.round % 2 ≠ 1 → todo l'.files < todo l.files) ∧ l'.round = l.round + 1 := by
  rcases turn_spec c true l with ⟨-, stop, he⟩ | ⟨ver, p, ht⟩
  · rw [he] at h; cases h
  · obtain ⟨⟨port, hok⟩, hfiles, -, hround, hcount⟩ := ht.next l' h
    have hp := ht.passes.progress hok fun u => sends_forced
    rw [hfiles]
    refine ⟨by omega, fun heven => ?_, hround⟩
    have := hcount heven
    omega

/-- Two rounds per pair left to do, and two more. -/
theorem forced_ends (m n : Nat) (l : Loop σ) (hm : todo l.files ≤ m) (hodd : l.round % 2 = 1) (hn : 2 * (m + 1) ≤ n) :
    (∃ stop, (mainLoop c true n l).stop = some stop) ∧ (mainLoop c true n l).iterations.length ≤ 2 * (m + 1) := by
  induction m using Nat.strong_induction_on generalizing n l with
  | _ m ih =>
  obtain ⟨n, rfl⟩ : ∃ n', n = n' + 2 := ⟨n - 2, by omega⟩
  rcases mainLoop_succ c true (n + 1) l with ⟨stop, hrun⟩ | ⟨l', hl', hrun⟩
  · rw [hrun]
    exact ⟨⟨stop, rfl⟩, by simp; omega⟩
  obtain ⟨hle, -, hround⟩ := forced_next c hl'
  have heven : l'.round % 2 ≠ 1 := by
    rw [hround]
    exact fun h => (round_succ l.round).mp h hodd
  rcases mainLoop_succ c true n l' with ⟨stop, hrun'⟩ | ⟨l'', hl'', hrun'⟩
  · rw [hrun, hrun']
    exact ⟨⟨stop, rfl⟩, by simp⟩
  obtain ⟨-, hlt, hround'⟩ := forced_next c hl''
  have hlt := hlt heven
  obtain ⟨m, rfl⟩ : ∃ m', m = m' + 1 := ⟨m - 1, by omega⟩
  obtain ⟨hstop, hlen⟩ := ih m (by omega) n l'' (by omega)
    (by rw [hround']; exact (round_succ l'.round).mpr heven) (by omega)
  rw [hrun, hrun']
  exact ⟨hstop, by simp only [List.length_cons]; omega⟩

/-- The payloads of a forced update are of different pairs, none of them downloaded
    before. -/
theorem forced_once (n : Nat) (l : Loop σ) :
    (payloads (mainLoop c true n l).iterations.flatten).Nodup ∧
      ∀ i ∈ payloads (mainLoop c true n l).iterations.flatten, ∃ u, l.files[i]? = some u ∧ u.isDownload = false := by
  induction n generalizing l with
  | zero => exact ⟨List.nodup_nil, by simp [mainLoop]⟩
  | succ n ih =>
    rcases turn_spec c true l with ⟨hnone, stop, he⟩ | ⟨ver, p, ht⟩
    · rcases mainLoop_succ c true n l with ⟨stop', hrun⟩ | ⟨l', hl', -⟩
      · rw [hrun, hnone]
        exact ⟨List.nodup_nil, by simp⟩
      · rw [he] at hl'; cases hl'
    have hnodup := ht.passes.payloads_nodup.1
    have hfresh : ∀ i ∈ payloads p.events, ∃ u, l.files[i]? = some u ∧ u.isDownload = false := by
      intro i hi
      obtain ⟨ok, hmem⟩ : ∃ ok, Event.payload i ok ∈ p.events := mem_payloads.mp hi
      obtain ⟨u, ⟨-, hu⟩, hs⟩ := ht.passes.sent _ hmem
      exact ⟨u, hu, (sends_forced hs).2⟩
    rcases mainLoop_succ c true n l with ⟨stop', hrun⟩ | ⟨l', hl', hrun⟩
    · rw [hrun, ht.events]
      simpa using ⟨hnodup, hfresh⟩
    · obtain ⟨⟨port, hok⟩, hfiles, -⟩ := ht.next l' hl'
      obtain ⟨hrest, hrestFresh⟩ := ih l'
      rw [hrun, ht.events, List.flatten_cons, payloads_append]
      refine ⟨List.nodup_append.mpr ⟨hnodup, hrest, ?_⟩, ?_⟩
      · -- a pair sent in this iteration is marked, one sent later is not
        rintro i hi j hj rfl
        obtain ⟨u, ⟨-, hu⟩, hd⟩ := ht.passes.marked hok i hi
        obtain ⟨u', hu', hd'⟩ := hrestFresh i hj
        rw [hfiles] at hu'
        obtain rfl : u = u' := Option.some.inj (hu.symm.trans hu')
        rw [hd] at hd'
        cases hd'
      · intro i hi
        rcases List.mem_append.mp hi with hi | hi
        · exact hfresh i hi
        · obtain ⟨u', hu', hd'⟩ := hrestFresh i hi
          rw [hfiles] at hu'
          obtain ⟨u, hu, -, hmark⟩ := ht.passes.origin hu'
          refine ⟨u, hu, ?_⟩
          by_contra hd
          rw [hmark (by simpa using hd)] at hd'
          cases hd'

/-- In any run, a payload directly follows its accepted offer and is in an even round. -/
theorem payloads_follow (force : Bool) (n : Nat) (files : List FwFileUnit) (port : σ) (ver : ImageVersion) :
    ∀ k events, (mainLoop c force n ⟨files, port, ver, 1⟩).iterations[k]? = some events →
      Follows events ∧ (payloads events ≠ [] → (k + 1) % 2 = 0) := by
  intro k events h
  have hrun := mainLoop_induct c force
    (I := fun k l => l.round % 2 = 1 ↔ (k + 1) % 2 = 1)
    (P := fun k events => Follows events ∧ (payloads events ≠ [] → (k + 1) % 2 = 0)) ?_ ?_ n 0 ⟨files, port, ver, 1⟩
    (by show (1 : UInt8) % 2 = 1 ↔ _; decide) k events h
  · rwa [Nat.zero_add] at hrun
  · intro k l hl
    rcases turn_spec c force l with ⟨hnone, -⟩ | ⟨ver, p, ht⟩
    · rw [hnone]
      exact ⟨follows_nil, fun h => absurd rfl h⟩
    · rw [ht.events]
      refine ⟨ht.passes.follows, fun hne => ?_⟩
      by_contra hk
      have hodd : l.round % 2 = 1 := hl.mpr (by omega)
      have hp := ht.passes
      rw [decide_eq_false (not_not.mpr hodd)] at hp
      exact hne hp.payloads_odd
  · intro k l l' hl hl'
    rcases turn_spec c force l with ⟨-, stop, he⟩ | ⟨ver, p, ht⟩
    · rw [he] at hl'; cases hl'
    · obtain ⟨-, -, -, hround, -⟩ := ht.next l' hl'
      rw [hround, round_succ, ne_eq, hl]
      omega

/-- The number of pairs. -/
def pairs (files : List FwFileUnit) : Nat := files.countP (·.isSrcbinExist)

theorem todo_le_pairs (files : List FwFileUnit) : todo files ≤ pairs files :=
  List.countP_mono_left fun _ _ h => (Bool.and_eq_true_iff.mp h).1

/-- A forced update ends within `2 * (n + 1)` rounds, sends payloads only for offers just
    accepted, in even rounds, and no pair's payload twice. -/
theorem forced_update_ends (files : List FwFileUnit) (port : σ) (ver : ImageVersion) :
    let run := mainLoop c true (2 * (pairs files + 1)) ⟨files, port, ver, 1⟩
    (∃ stop, run.stop = some stop) ∧
      (∀ k events, run.iterations[k]? = some events →
        Follows events ∧ (payloads events ≠ [] → (k + 1) % 2 = 0)) ∧
      (payloads run.iterations.flatten).Nodup := by
  intro run
  refine ⟨?_, ?_, ?_⟩
  · exact (forced_ends c (pairs files) _ ⟨files, port, ver, 1⟩ (todo_le_pairs files) rfl (Nat.le_refl _)).1
  · exact payloads_follow c true _ files port ver
  · exact (forced_once c _ _).1

/-! ## Boot images -/

/-- Images to be sent early only: boot images, and `_App_Data1.` ones for a single-bank
    device. -/
def Early (single : Prop) (u : FwFileUnit) : Prop :=
  u.imageType = fwImageTyeBOOT ∨ single ∧ strstr u.offerName appData1Pattern = true

/-- The first version answer says single bank. -/
def SingleBank (port : σ) : Prop := ∃ v port', c.fwGetVerison port = some (some v, port') ∧ v.isDualbank = false

/-- Past round 2 no such image is offered. -/
theorem not_sends_early {force : Bool} {round : UInt8} {ver : ImageVersion} {u : FwFileUnit} {single : Prop}
    (hround : 2 < round) (hver : single → ver.isDualbank = false) (hu : Early single u) :
    sends force round ver u = false := by
  rcases hu with hboot | ⟨hsingle, hname⟩
  · simp [sends, isSendOffer, hboot, hround]
  · simp [sends, isSendOffer, hver hsingle, hname, hround]

/-- What the loop carries up to iteration 255: the round, the pairs and the version. -/
structure Carries (files : List FwFileUnit) (port : σ) (k : Nat) (l : Loop σ) : Prop where
  rounds : l.round = UInt8.ofNat (k + 1)
  pairs : ∀ (i : Nat) (u : FwFileUnit), l.files[i]? = some u → ∃ u0 : FwFileUnit, files[i]? = some u0 ∧
    u.imageType = u0.imageType ∧ u.offerName = u0.offerName
  first : k = 0 → l.port = port
  bank : 0 < k → k < 256 → SingleBank c port → l.ver.isDualbank = false

theorem carries_next {files : List FwFileUnit} {port : σ} {force : Bool} {k : Nat} {l l' : Loop σ}
    (h : Carries c files port k l) (hl' : (turn c force l).result = .ok (false, l')) :
    Carries c files port (k + 1) l' := by
  rcases turn_spec c force l with ⟨-, stop, he⟩ | ⟨ver, p, ht⟩
  · rw [he] at hl'; cases hl'
  obtain ⟨-, hfiles, hver, hround, -⟩ := ht.next l' hl'
  refine ⟨?_, ?_, fun h => absurd h (by omega), ?_⟩
  · rw [hround, h.rounds, UInt8.ofNat_add (k + 1) 1]; rfl
  · intro i u hu
    rw [hfiles] at hu
    obtain ⟨v, hv, hsame, -⟩ := ht.passes.origin hu
    rw [hsame]
    exact h.pairs i v hv
  · intro _ hk hsingle
    rw [hver]
    cases k with
    | zero =>
      obtain ⟨port', hfirst⟩ := ht.first h.rounds
      rw [h.first rfl] at hfirst
      obtain ⟨v, port'', hv, hbank⟩ := hsingle
      rw [hv] at hfirst
      cases hfirst
      exact hbank
    | succ k =>
      have hne : l.round ≠ 1 := by
        rw [h.rounds, ne_eq, ← UInt8.toNat_inj, UInt8.toNat_ofNat']
        show ¬ (k + 1 + 1) % 256 = 1
        omega
      rw [ht.later hne]
      exact h.bank (by omega) (by omega) hsingle

/-- Among the first 255 iterations, early images are offered in the first two only. -/
theorem early_in_first_two (force : Bool) (n : Nat) (files : List FwFileUnit) (port : σ) (ver : ImageVersion) :
    ∀ k events, (mainLoop c force n ⟨files, port, ver, 1⟩).iterations[k]? = some events → k < 255 →
      ∀ e ∈ events, ∀ u, files[e.index]? = some u → Early (SingleBank c port) u → k < 2 := by
  intro k events hk
  have hrun := mainLoop_induct c force
    (I := Carries c files port)
    (P := fun k events => k < 255 → ∀ e ∈ events, ∀ u, files[e.index]? = some u → Early (SingleBank c port) u → k < 2)
    ?_ (fun k l l' => carries_next c) n 0 ⟨files, port, ver, 1⟩
    ⟨rfl, fun i u hu => ⟨u, hu, rfl, rfl⟩, fun _ => rfl, fun h => absurd h (lt_irrefl 0)⟩ k events hk
  · rwa [Nat.zero_add] at hrun
  intro k l hl hlt e he u hu hearly
  rcases turn_spec c force l with ⟨hnone, -⟩ | ⟨ver', p, ht⟩
  · rw [hnone] at he; cases he
  rw [ht.events] at he
  obtain ⟨v, ⟨-, hv⟩, hs⟩ := ht.passes.sent e he
  by_contra hk2
  have htoNat : l.round.toNat = k + 1 := by
    rw [hl.rounds, UInt8.toNat_ofNat']
    exact Nat.mod_eq_of_lt (by omega)
  have hlate : 2 < l.round := by
    rw [UInt8.lt_iff_toNat_lt, htoNat]
    show 2 < k + 1
    omega
  have hne : l.round ≠ 1 := by
    intro h
    rw [h] at htoNat
    exact absurd htoNat (by show ¬ 1 = k + 1; omega)
  obtain ⟨u0, hu0, htype, hname⟩ := hl.pairs _ v hv
  obtain rfl : u = u0 := Option.some.inj (hu.symm.trans hu0)
  have hver : SingleBank c port → ver'.isDualbank = false := by
    rw [ht.later hne]
    exact hl.bank (by omega) (by omega)
  have hno : sends force l.round ver' v = false := not_sends_early hlate hver (by rwa [Early, htype, hname])
  rw [hs] at hno
  cases hno

/-- A forced update of the 20 slots has at most 42 iterations. -/
theorem forced_short (n : Nat) (files : List FwFileUnit) (port : σ) (ver : ImageVersion) (hlen : files.length ≤ fwBinCountMax) :
    (42 ≤ n → ∃ stop, (mainLoop c true n ⟨files, port, ver, 1⟩).stop = some stop) ∧
      (mainLoop c true n ⟨files, port, ver, 1⟩).iterations.length ≤ 42 := by
  have hpairs : pairs files ≤ 20 := List.countP_le_length.trans hlen
  by_cases hn : 2 * (20 + 1) ≤ n
  · obtain ⟨hstop, hmost⟩ := forced_ends c 20 n ⟨files, port, ver, 1⟩ ((todo_le_pairs files).trans hpairs) rfl hn
    exact ⟨fun _ => hstop, hmost⟩
  · exact ⟨fun h => absurd h (by omega), (iterations_length c true n _).trans (by omega)⟩

/-- Early images are offered in the first two iterations only, among the first 255. A
    forced update of the 20 slots has at most 42. -/
theorem boot_in_first_two (force : Bool) (n : Nat) (files : List FwFileUnit) (port : σ) (ver : ImageVersion) :
    let run := mainLoop c force n ⟨files, port, ver, 1⟩
    (∀ k events, run.iterations[k]? = some events → k < 255 →
      ∀ e ∈ events, ∀ u, files[e.index]? = some u → Early (SingleBank c port) u → k < 2) ∧
    (force = true → files.length ≤ fwBinCountMax → run.iterations.length ≤ 42) := by
  intro run
  refine ⟨early_in_first_two c force n files port ver, fun hforce hlen => ?_⟩
  subst hforce
  exact (forced_short c n files port ver hlen).2

end

end

/-- A single-bank RCP that accepts every offer and every payload. -/
def keen : Calls Unit where
  fwGetVerison := fun _ => some (some ⟨false, 0⟩, ())
  fwUpdateOffer := fun _ _ _ => some (some firmwareUpdateOfferAccept, ())
  fwUpdateSrc := fun _ _ => some (true, ())
  direct := true
  deviceOpen := fun _ => (true, ())

/-- A boot image and another one. -/
def bootAndApp : List FwFileUnit := [⟨['b'], ['b'], 5, false, true⟩, ⟨['a'], ['a'], 1, false, true⟩]

/-- Three iterations of an update that is not forced: the boot image is not in the third. -/
theorem boot_not_in_third :
    ∃ events, (mainLoop keen false 3 ⟨bootAndApp, (), ⟨false, 0⟩, 1⟩).iterations[2]? = some events ∧
      Event.offer 0 (some firmwareUpdateOfferAccept) ∉ events := by
  refine ⟨[.offer 1 (some 1)], rfl, fun hmem => ?_⟩
  have hk := (boot_in_first_two keen false 3 bootAndApp () ⟨false, 0⟩).1 2 _ rfl (by decide) _ hmem _ rfl (.inl rfl)
  exact absurd hk (by decide)

/-- In iteration 256 of an update that is not forced the boot image is offered and
    flashed again. -/
theorem boot_offered_again :
    ∃ events, (mainLoop keen false 256 ⟨bootAndApp, (), ⟨false, 0⟩, 1⟩).iterations[255]? = some events ∧
      events[0]? = some (.offer 0 (some firmwareUpdateOfferAccept)) ∧ events[1]? = some (.payload 0 (some true)) ∧
      bootAndApp[0]?.map (·.imageType) = some fwImageTyeBOOT := by
  refine ⟨[.offer 0 (some 1), .payload 0 (some true), .offer 1 (some 1), .payload 1 (some true)], ?_, ?_⟩
  · decide +kernel
  · decide

end AmebaLinux.Rcp.FwUpdate
