/-
  AmebaLinux.Rcp.FwUpdatePort — the update's main loop with the requests as they go over
  the port (see `AmebaLinux.Rcp.FwUpdateProcess`, `AmebaLinux.Rcp.FwUpdateSubProcess`).

  `portCalls` is the device of the loop: every request takes its exchanges from the front
  of the line, and leaves the response handlers' `index` where the wait ended.

  Proved:
  - `payload_reached`: for any device, a payload that went through was returned true by
    a request made in a state that requests lead to.
  - `Reached.line`: over the port, such a state has the rest of the line.
  - `port_update`: a forced update of the 20 slots ends, offers early images in its first
    two iterations only, and a pair whose payload went through had every packet of its
    file taken and answered SUCCESS.
-/

import AmebaLinux.Rcp.FwUpdateProcessProofs
import AmebaLinux.Rcp.FwUpdateSrcRun

namespace AmebaLinux.Rcp.FwUpdate

open AmebaLinux.Rcp.FwUpdateSrc

/-! ## The states that requests lead to -/

section

variable {σ : Type}

inductive Reached (c : Calls σ) (start : σ) : σ → Prop
  | start : Reached c start start
  | version {p p' : σ} {ver : Option ImageVersion} : Reached c start p → c.fwGetVerison p = some (ver, p') →
      Reached c start p'
  | offer {p p' : σ} {name : List Char} {force : Bool} {status : Option UInt8} : Reached c start p →
      c.fwUpdateOffer name force p = some (status, p') → Reached c start p'
  | payload {p p' : σ} {name : List Char} {ok : Bool} : Reached c start p → c.fwUpdateSrc name p = some (ok, p') →
      Reached c start p'
  | opened {p : σ} : Reached c start p → Reached c start (c.deviceOpen p).2

/-- A request for the payload of `u` that returned true. -/
def Loaded (c : Calls σ) (start : σ) (u : FwFileUnit) : Prop :=
  ∃ p p', Reached c start p ∧ c.fwUpdateSrc u.srcBinName p = some (true, p')

variable {c : Calls σ} {start : σ}

/-- What a pass or an iteration leaves: a reached state, and payloads that went through
    were loaded. -/
theorem pass_reached (force payload : Bool) (round : UInt8) (ver : ImageVersion) (units : List FwFileUnit) (index : Nat)
    {port : σ} (h : Reached c start port) :
    (∀ port', (pass c force payload round ver units index port).result = .ok port' → Reached c start port') ∧
      ∀ i, .payload i (some true) ∈ (pass c force payload round ver units index port).events →
        ∃ u, Slot units index i u ∧ Loaded c start u := by
  induction units generalizing index port with
  | nil =>
    refine ⟨fun port' hok => ?_, fun i hi => by cases hi⟩
    cases hok
    exact h
  | cons u units ih =>
    -- the rest of the pass, behind the events of this slot
    have rest : ∀ {port : σ}, Reached c start port →
        (∀ port', (pass c force payload round ver units (index + 1) port).result = .ok port' → Reached c start port') ∧
          ∀ i, .payload i (some true) ∈ (pass c force payload round ver units (index + 1) port).events →
            ∃ v, Slot (u :: units) index i v ∧ Loaded c start v := by
      intro port h
      obtain ⟨hport, hevents⟩ := ih (index + 1) h
      refine ⟨hport, fun i hi => ?_⟩
      obtain ⟨v, hslot, hloaded⟩ := hevents i hi
      exact ⟨v, slot_cons.mpr (.inr hslot), hloaded⟩
    rw [pass]
    split
    · rcases hoffer : c.fwUpdateOffer u.offerName force port with _ | ⟨_ | status, port1⟩
      · exact ⟨fun _ hok => (by cases hok), fun i hi => by simp at hi⟩
      · exact ⟨fun _ hok => (by cases hok), fun i hi => by simp at hi⟩
      · have h1 := h.offer hoffer
        dsimp only
        split
        · rcases hsrc : c.fwUpdateSrc u.srcBinName port1 with _ | ⟨_ | _, port2⟩
          · exact ⟨fun _ hok => (by cases hok), fun i hi => by simp at hi⟩
          · exact ⟨fun _ hok => (by cases hok), fun i hi => by simp at hi⟩
          · obtain ⟨hport, hevents⟩ := rest (h1.payload hsrc)
            refine ⟨hport, fun i hi => ?_⟩
            rcases List.mem_append.mp hi with hi | hi
            · obtain rfl : i = index := by simpa using hi
              exact ⟨u, slot_cons.mpr (.inl ⟨rfl, rfl⟩), port1, port2, h1, hsrc⟩
            · exact hevents i hi
        · obtain ⟨hport, hevents⟩ := rest h1
          refine ⟨hport, fun i hi => hevents i ?_⟩
          rcases List.mem_append.mp hi with hi | hi
          · simp at hi
          · exact hi
    · exact rest h

theorem retryVersion_reached (n : Nat) {port port' : σ} {ok : Bool} (h : Reached c start port)
    (hretry : retryVersion c n port = some (ok, port')) : Reached c start port' := by
  induction n generalizing port with
  | zero =>
    cases hretry
    exact h
  | succ n ih =>
    rw [retryVersion] at hretry
    rcases hver : c.fwGetVerison port with _ | ⟨_ | ver, port1⟩
    · rw [hver] at hretry
      cases hretry
    · rw [hver] at hretry
      exact ih (h.version hver) hretry
    · rw [hver] at hretry
      cases hretry
      exact h.version hver

theorem awaitReboot_reached {port port' : σ} {ok : Bool} (h : Reached c start port)
    (hreboot : awaitReboot c port = some (ok, port')) : Reached c start port' := by
  rw [awaitReboot] at hreboot
  split at hreboot
  · have hopened := h.opened
    rwa [Option.some.inj hreboot] at hopened
  · exact retryVersion_reached 20 h hreboot

theorem turn_reached (force : Bool) {l : Loop σ} (h : Reached c start l.port) :
    (∀ l', (turn c force l).result = .ok (false, l') → Reached c start l'.port) ∧
      ∀ i, .payload i (some true) ∈ (turn c force l).events → ∃ u, l.files[i]? = some u ∧ Loaded c start u := by
  have slot : ∀ {i : Nat} {u : FwFileUnit}, Slot l.files 0 i u → l.files[i]? = some u := fun hu => hu.2
  rw [turn]
  split
  · rw [oddTurn]
    rcases hver : c.fwGetVerison l.port with _ | ⟨_ | verTmp, port⟩
    · exact ⟨fun _ hl' => (by cases hl'), fun i hi => by cases hi⟩
    · exact ⟨fun _ hl' => (by cases hl'), fun i hi => by cases hi⟩
    · obtain ⟨hport, hevents⟩ := pass_reached force false l.round (if l.round = 1 then verTmp else l.ver) l.files 0
        (h.version hver)
      refine ⟨fun l' hl' => ?_, fun i hi => ?_⟩
      · dsimp only at hl'
        generalize pass c force false l.round _ l.files 0 port = p at hl' hport
        rcases hp : p.result with stop | port'
        · rw [hp] at hl'
          cases hl'
        · rw [hp] at hl'
          cases hl'
          exact hport port' hp
      · obtain ⟨u, hu, hloaded⟩ := hevents i hi
        exact ⟨u, slot hu, hloaded⟩
  · obtain ⟨hport, hevents⟩ := pass_reached force true l.round l.ver l.files 0 h
    refine ⟨fun l' hl' => ?_, fun i hi => ?_⟩
    · rw [evenTurn] at hl'
      dsimp only at hl'
      split at hl'
      · cases hl'
      · rename_i port hp
        split at hl'
        · cases hl'
        · split at hl'
          · cases hl'
          · cases hl'
          · rename_i port' hreboot
            cases hl'
            exact awaitReboot_reached (hport port hp) hreboot
    · obtain ⟨u, hu, hloaded⟩ := hevents i hi
      exact ⟨u, slot hu, hloaded⟩

/-- In any run, a payload that went through was loaded. -/
theorem payload_reached (force : Bool) (n : Nat) (files : List FwFileUnit) (ver : ImageVersion) {i : Nat}
    (h : .payload i (some true) ∈ (mainLoop c force n ⟨files, start, ver, 1⟩).iterations.flatten) :
    ∃ u, files[i]? = some u ∧ Loaded c start u := by
  obtain ⟨events, hmem, hi⟩ := List.mem_flatten.mp h
  obtain ⟨k, hk⟩ := List.mem_iff_getElem?.mp hmem
  -- the loop keeps the names of the pairs' files, and its device's state is reached
  have hrun := mainLoop_induct c force
    (I := fun _ l => Reached c start l.port ∧
      ∀ (i : Nat) (u : FwFileUnit), l.files[i]? = some u → ∃ u0 : FwFileUnit, files[i]? = some u0 ∧
        u.srcBinName = u0.srcBinName)
    (P := fun _ events => ∀ i, .payload i (some true) ∈ events → ∃ u, files[i]? = some u ∧ Loaded c start u)
    ?_ ?_ n 0 ⟨files, start, ver, 1⟩ ⟨.start, fun i u hu => ⟨u, hu, rfl⟩⟩ k events hk
  · exact hrun i hi
  · intro k l hl i hi
    obtain ⟨u, hu, hloaded⟩ := (turn_reached force hl.1).2 i hi
    obtain ⟨u0, hu0, hname⟩ := hl.2 i u hu
    exact ⟨u0, hu0, by rwa [Loaded, ← hname]⟩
  · intro k l l' hl hl'
    refine ⟨(turn_reached force hl.1).1 l' hl', fun i u hu => ?_⟩
    rcases turn_spec c force l with ⟨-, stop, he⟩ | ⟨ver, p, ht⟩
    · rw [he] at hl'
      cases hl'
    · obtain ⟨-, hfiles, -⟩ := ht.next l' hl'
      rw [hfiles] at hu
      obtain ⟨v, hv, hsame, -⟩ := ht.passes.origin hu
      obtain ⟨u0, hu0, hname⟩ := hl.2 i v hv
      exact ⟨u0, hu0, by rw [hsame]; exact hname⟩

end

/-! ## Over the port -/

section

variable {offers payloadOf : List Char → Option (List UInt8)} {direct : Bool} {opens : Port → Bool} {port p : Port}

theorem fwGetVerison_line {p' : Port} {ver : Option ImageVersion} (h : fwGetVerison p = some (ver, p')) :
    p'.line <:+ p.line := by
  rw [fwGetVerison] at h
  dsimp only at h
  split at h
  · cases h
    exact List.drop_suffix 1 p.line
  · split at h
    · cases h
    · split at h <;> cases h <;> exact List.drop_suffix 1 p.line

theorem fwUpdateOffer_line {offerBin : Option (List UInt8)} {force reset : Bool} {p' : Port} {status : Option UInt8}
    (h : fwUpdateOffer offerBin force reset p = some (status, p')) : p'.line <:+ p.line := by
  unfold fwUpdateOffer at h
  split at h
  · cases h
    exact List.suffix_refl p.line
  · dsimp only at h
    split at h
    · cases h
      exact List.suffix_refl p.line
    · split at h
      · cases h
        exact List.drop_suffix 1 p.line
      · split at h
        · cases h
        · split at h <;> cases h <;> exact List.drop_suffix 1 p.line

theorem fwUpdatePayload_line {srcBin : Option (List UInt8)} {p' : Port} {ok : Bool}
    (h : fwUpdatePayload srcBin p = some (ok, p')) : p'.line <:+ p.line := by
  rw [fwUpdatePayload] at h
  split at h
  · cases h
  · cases h
    exact List.drop_suffix _ p.line

/-- No exchange of the line is used twice, or out of order. -/
theorem Reached.line (h : Reached (portCalls offers payloadOf direct opens) port p) : p.line <:+ port.line := by
  induction h with
  | start => exact List.suffix_refl port.line
  | version _ hver ih => exact (fwGetVerison_line hver).trans ih
  | offer _ hoffer ih => exact (fwUpdateOffer_line hoffer).trans ih
  | payload _ hsrc ih => exact (fwUpdatePayload_line hsrc).trans ih
  | opened _ ih => exact ih

/-- The payload file reads to its end, and at some point of the line stand as many
    exchanges as it has records, all taken and answered SUCCESS. -/
def Delivered (payloadOf : List Char → Option (List UInt8)) (port : Port) (u : FwFileUnit) : Prop :=
  ∃ file n, payloadOf u.srcBinName = some file ∧ recordsIn file = some n ∧
    ∃ p : Port, p.line <:+ port.line ∧ AllAccepted p.device (p.reports.get .content) n

theorem Loaded.delivered {u : FwFileUnit} (h : Loaded (portCalls offers payloadOf direct opens) port u) :
    Delivered payloadOf port u := by
  obtain ⟨p, p', hreached, hsrc⟩ := h
  have hrun : (fwUpdateSrc p.device (payloadOf u.srcBinName) (p.reports.get .content)).outcome = .ret true := by
    change fwUpdatePayload (payloadOf u.srcBinName) p = some (true, p') at hsrc
    rw [fwUpdatePayload] at hsrc
    split at hsrc
    · cases hsrc
    · rename_i ok hout
      cases hsrc
      exact hout
  rcases hfile : payloadOf u.srcBinName with _ | file
  · rw [hfile] at hrun
    cases hrun
  · rw [hfile] at hrun
    obtain ⟨n, hn, hall⟩ := (fwUpdateSrc_run p.device file (p.reports.get .content)).1.mp hrun
    exact ⟨file, n, hfile, hn, p, hreached.line, hall⟩

/-- A forced update of the 20 slots over the port ends, offers early images in its first
    two iterations only, and delivers every payload that went through. -/
theorem port_update (offers payloadOf : List Char → Option (List UInt8)) (direct : Bool) (opens : Port → Bool)
    (files : List FwFileUnit) (hlen : files.length ≤ fwBinCountMax) (port : Port) (ver : ImageVersion) :
    let c := portCalls offers payloadOf direct opens
    let run := mainLoop c true 42 ⟨files, port, ver, 1⟩
    (∃ stop, run.stop = some stop) ∧
      (∀ k events, run.iterations[k]? = some events →
        ∀ e ∈ events, ∀ u, files[e.index]? = some u → Early (SingleBank c port) u → k < 2) ∧
      ∀ i, .payload i (some true) ∈ run.iterations.flatten → ∃ u, files[i]? = some u ∧ Delivered payloadOf port u := by
  intro c run
  obtain ⟨hstop, hmost⟩ := forced_short c 42 files port ver hlen
  refine ⟨hstop le_rfl, fun k events hk => ?_, fun i hi => ?_⟩
  · have hlt : k < 42 := (List.getElem?_eq_some_iff.mp hk).1.trans_le hmost
    exact early_in_first_two c true 42 files port ver k events hk (by omega)
  · obtain ⟨u, hu, hloaded⟩ := payload_reached true 42 files ver hi
    exact ⟨u, hu, hloaded.delivered⟩

end

end AmebaLinux.Rcp.FwUpdate
