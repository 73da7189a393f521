/-
  AmebaLinux.Rcp.FwFilesProofs — the firmware pairs and the order of the folders' entries
  (see `AmebaLinux.Rcp.FwFiles`).

  A payload goes to the first slot with its stem, and replaces one that is there. So the
  pairs depend on the order where a stem has two offers or two payloads; `strstr` looks for
  the suffix anywhere in the name, so that `a.offer.bin.bak` is an offer for `a`, too. An
  offer that does not load is skipped, but not where the slots are full.

  Proved:
  - `attachAll_cons`: each slot takes the payloads with its stem from those after it.
  - `order_free_iff`: for which contents of the two folders the result does not depend on
    the order; `backup_offer_order` are two orders of one folder with different pairs.
-/

import AmebaLinux.Rcp.FwFiles

namespace AmebaLinux.Rcp.FwUpdate

/-! ## Offers -/

section

variable (file : List Char → Option (List UInt8))

/-- The slot of an entry, if it is an offer that loads. -/
def slot (name : List Char) : Option FwFileUnit :=
  match cut offerBinSuffix name, loadOffer (file name) with
  | some _, some offerBuff => some ⟨name, [], offerBuff.getD 1 0 &&& 0x0f, false, false⟩
  | _, _ => none

def IsOffer (name : List Char) : Prop := (cut offerBinSuffix name).isSome
def IsPayload (name : List Char) : Prop := (cut srcBinSuffix name).isSome

variable {file} {units out : List FwFileUnit} {name : List Char} {names : List (List Char)}

theorem slot_isOffer {u : FwFileUnit} (h : slot file name = some u) : IsOffer name := by
  unfold slot at h
  split at h
  · rename_i hcut _
    exact Option.isSome_iff_exists.mpr ⟨_, hcut⟩
  · cases h

theorem slot_eq {u : FwFileUnit} (h : slot file name = some u) : u.offerName = name ∧ u.isSrcbinExist = false := by
  unfold slot at h
  split at h
  · cases h
    exact ⟨rfl, rfl⟩
  · cases h

theorem slot_none (h : ¬ IsOffer name) : slot file name = none := by
  cases hslot : slot file name with
  | none => rfl
  | some u => exact absurd (slot_isOffer hslot) h

/-- There is room for an entry: its name fits, and a slot is free. -/
def Room (units : List FwFileUnit) (name : List Char) : Prop :=
  IsOffer name → name.length < fwNameLenMax ∧ units.length < fwBinCountMax

theorem offerLoop_room (h : Room units name) :
    offerLoop file units (name :: names) = offerLoop file (units ++ (slot file name).toList) names := by
  rw [offerLoop]
  cases hcut : cut offerBinSuffix name with
  | none =>
    have hnot : ¬ IsOffer name := by simp [IsOffer, hcut]
    rw [slot_none hnot, Option.toList_none, List.append_nil]
  | some stem =>
    obtain ⟨hlen, hfree⟩ := h (by simp [IsOffer, hcut])
    dsimp only
    rw [if_neg (by omega), if_pos hfree, slot, hcut]
    cases loadOffer (file name) with
    | none => rw [Option.toList_none, List.append_nil]
    | some b => rfl

theorem offerLoop_stop (h : ¬ Room units name) : offerLoop file units (name :: names) = none := by
  unfold Room at h
  push Not at h
  obtain ⟨hoffer, hfull⟩ := h
  obtain ⟨stem, hcut⟩ := Option.isSome_iff_exists.mp hoffer
  rw [offerLoop, hcut]
  dsimp only
  split
  · rfl
  · rename_i hlen
    have hmany := hfull (by omega)
    rw [if_neg (by omega)]

/-- The slots of the offers that load, in the folder's order. -/
def loaded (file : List Char → Option (List UInt8)) (names : List (List Char)) : List FwFileUnit := names.filterMap (slot file)

theorem loaded_cons : loaded file (name :: names) = (slot file name).toList ++ loaded file names := by
  unfold loaded
  rw [List.filterMap_cons]
  cases slot file name with
  | none => rfl
  | some u => rfl

/-- What an order that succeeds says about the folder. -/
theorem offerLoop_some (h : offerLoop file units names = some out) (hunits : units.length ≤ fwBinCountMax) :
    out = units ++ loaded file names ∧ out.length ≤ fwBinCountMax ∧ ∀ n ∈ names, IsOffer n → n.length < fwNameLenMax := by
  induction names generalizing units with
  | nil =>
    cases h
    exact ⟨by simp [loaded], hunits, by simp⟩
  | cons name names ih =>
    by_cases hroom : Room units name
    · rw [offerLoop_room hroom] at h
      have hlen : (units ++ (slot file name).toList).length ≤ fwBinCountMax := by
        cases hslot : slot file name with
        | none => simpa using hunits
        | some u =>
          have := (hroom (slot_isOffer hslot)).2
          simpa using this
      obtain ⟨hout, hmost, hshort⟩ := ih h hlen
      refine ⟨?_, hmost, ?_⟩
      · rw [hout, loaded_cons, List.append_assoc]
      · rw [List.forall_mem_cons]
        exact ⟨fun hoffer => (hroom hoffer).1, hshort⟩
    · rw [offerLoop_stop hroom] at h
      cases h

/-- Enough for an order to succeed: a slot stays free, or no offer fails to load. -/
theorem offerLoop_ok (hshort : ∀ n ∈ names, IsOffer n → n.length < fwNameLenMax)
    (hfree : units.length + (loaded file names).length < fwBinCountMax ∨
      units.length + (loaded file names).length = fwBinCountMax ∧ ∀ n ∈ names, IsOffer n → (slot file n).isSome) :
    offerLoop file units names = some (units ++ loaded file names) := by
  induction names generalizing units with
  | nil => simp [offerLoop, loaded]
  | cons name names ih =>
    rw [List.forall_mem_cons] at hshort hfree
    rw [loaded_cons, List.length_append] at hfree
    have hroom : Room units name := by
      intro hoffer
      refine ⟨hshort.1 hoffer, ?_⟩
      rcases hfree with hfree | ⟨hfull, hload, _⟩
      · omega
      · obtain ⟨u, hu⟩ := Option.isSome_iff_exists.mp (hload hoffer)
        rw [hu, Option.toList_some, List.length_singleton] at hfull
        omega
    rw [offerLoop_room hroom, ih hshort.2 ?_, loaded_cons, List.append_assoc]
    rw [List.length_append]
    rcases hfree with hfree | ⟨hfull, _, hload⟩
    · exact .inl (by omega)
    · exact .inr ⟨by omega, hload⟩

/-- With the slots full any further offer ends the loop. -/
theorem offerLoop_full (hunits : units.length = fwBinCountMax) (h : ∃ n ∈ names, IsOffer n) :
    offerLoop file units names = none := by
  induction names with
  | nil => simp at h
  | cons name names ih =>
    by_cases hoffer : IsOffer name
    · refine offerLoop_stop ?_
      intro hroom
      have := (hroom hoffer).2
      omega
    · rw [offerLoop_room (fun ho => absurd ho hoffer), slot_none hoffer, Option.toList_none, List.append_nil]
      obtain ⟨n, hn, ho⟩ := h
      cases List.mem_cons.mp hn with
      | inl heq => exact absurd (heq ▸ ho) hoffer
      | inr hn => exact ih ⟨n, hn, ho⟩

theorem offerLoop_append {more : List (List Char)} :
    offerLoop file units (names ++ more) = (offerLoop file units names).bind fun units => offerLoop file units more := by
  induction names generalizing units with
  | nil => rfl
  | cons name names ih =>
    rw [List.cons_append]
    by_cases hroom : Room units name
    · rw [offerLoop_room hroom, offerLoop_room hroom, ih]
    · rw [offerLoop_stop hroom, offerLoop_stop hroom]
      rfl

end

/-! ## Payloads -/

section

variable {u v v' : FwFileUnit} {units out : List FwFileUnit} {names : List (List Char)}

/-- The payloads of a folder, by stem. -/
abbrev Item : Type := List Char × List Char

def items (names : List (List Char)) : List Item := names.filterMap fun n => (cut srcBinSuffix n).map fun stem => (stem, n)

theorem mem_items {it : Item} : it ∈ items names ↔ it.2 ∈ names ∧ cut srcBinSuffix it.2 = some it.1 := by
  obtain ⟨stem, n⟩ := it
  simp only [items, List.mem_filterMap, Option.map_eq_some_iff, Prod.mk.injEq]
  constructor
  · intro ⟨n', hn', stem', hcut, hstem, hn⟩
    subst hstem hn
    exact ⟨hn', hcut⟩
  · intro ⟨hn, hcut⟩
    exact ⟨n, hn, stem, hcut, rfl, rfl⟩

def attachAll (units : List FwFileUnit) (its : List Item) : List FwFileUnit :=
  its.foldl (fun units it => attach it.1 it.2 units) units

theorem attachAll_nil (its : List Item) : attachAll [] its = [] := by
  induction its with
  | nil => rfl
  | cons it its ih => exact ih

theorem payloadLoop_ok (hshort : ∀ n ∈ names, IsPayload n → n.length < fwNameLenMax) :
    payloadLoop units names = some (attachAll units (items names)) := by
  induction names generalizing units with
  | nil => rfl
  | cons name names ih =>
    rw [List.forall_mem_cons] at hshort
    rw [payloadLoop, items, List.filterMap_cons]
    cases hcut : cut srcBinSuffix name with
    | none => exact ih hshort.2
    | some stem =>
      have hlen := hshort.1 (by simp [IsPayload, hcut])
      dsimp only [Option.map_some]
      rw [if_neg (by omega)]
      exact ih hshort.2

theorem payloadLoop_some (h : payloadLoop units names = some out) : ∀ n ∈ names, IsPayload n → n.length < fwNameLenMax := by
  induction names generalizing units with
  | nil => simp
  | cons name names ih =>
    rw [payloadLoop] at h
    rw [List.forall_mem_cons]
    cases hcut : cut srcBinSuffix name with
    | none =>
      rw [hcut] at h
      exact ⟨fun hp => by simp [IsPayload, hcut] at hp, ih h⟩
    | some stem =>
      rw [hcut] at h
      dsimp only at h
      split at h
      · cases h
      · exact ⟨fun _ => by omega, ih h⟩

@[simp] theorem pair_stem (u : FwFileUnit) (n : List Char) : (u.pair n).stem = u.stem := rfl
@[simp] theorem pair_exist (u : FwFileUnit) (n : List Char) : (u.pair n).isSrcbinExist = true := rfl
@[simp] theorem pair_offerName (u : FwFileUnit) (n : List Char) : (u.pair n).offerName = u.offerName := rfl

/-- The payload that a slot ends with, of those with its stem. -/
def FwFileUnit.pairLast (u : FwFileUnit) (its : List Item) : FwFileUnit :=
  match its.getLast? with
  | none => u
  | some it => u.pair it.2

theorem pairLast_cons (it : Item) (its : List Item) : u.pairLast (it :: its) = (u.pair it.2).pairLast its := by
  unfold FwFileUnit.pairLast
  rw [List.getLast?_cons]
  cases its.getLast? with
  | none => rfl
  | some last => rfl

def Item.For (u : FwFileUnit) (it : Item) : Bool := u.stem = some it.1

theorem Item.for_iff {it : Item} : Item.For u it = true ↔ u.stem = some it.1 := decide_eq_true_iff

/-- A slot takes the last payload with its stem, and leaves none of them to the slots after
    it. -/
theorem attachAll_cons (its : List Item) :
    attachAll (u :: units) its =
      u.pairLast (its.filter (Item.For u)) :: attachAll units (its.filter fun it => !Item.For u it) := by
  induction its generalizing u units with
  | nil => rfl
  | cons it its ih =>
    have hstep : attachAll (u :: units) (it :: its) = attachAll (attach it.1 it.2 (u :: units)) its := rfl
    rw [hstep, attach]
    by_cases hfor : u.stem = some it.1
    · have hmatch : Item.For u it = true := Item.for_iff.mpr hfor
      rw [if_pos hfor, ih, List.filter_cons_of_pos hmatch, List.filter_cons_of_neg (by simp [hmatch]), pairLast_cons]
      rfl
    · have hmatch : ¬ Item.For u it = true := fun h => hfor (Item.for_iff.mp h)
      rw [if_neg hfor, ih, List.filter_cons_of_neg hmatch, List.filter_cons_of_pos (by simpa using hmatch)]
      rfl

theorem pairLast_cases (u : FwFileUnit) (its : List Item) :
    (its = [] ∧ u.pairLast its = u) ∨ ∃ it ∈ its, u.pairLast its = u.pair it.2 := by
  unfold FwFileUnit.pairLast
  cases hlast : its.getLast? with
  | none => exact .inl ⟨List.getLast?_eq_none_iff.mp hlast, rfl⟩
  | some it => exact .inr ⟨it, List.mem_of_getLast? hlast, rfl⟩

/-- The slots before any payload. -/
def Unpaired (units : List FwFileUnit) : Prop := ∀ u ∈ units, u.isSrcbinExist = false

/-- A pair is a slot and a payload with its stem. -/
theorem attachAll_paired (hunits : Unpaired units) {its : List Item} (hv : v ∈ attachAll units its)
    (hexist : v.isSrcbinExist = true) :
    ∃ u ∈ units, ∃ it ∈ its, u.stem = some it.1 ∧ v = u.pair it.2 := by
  induction units generalizing its with
  | nil =>
    rw [attachAll_nil] at hv
    cases hv
  | cons u units ih =>
    have hu := hunits u List.mem_cons_self
    rw [attachAll_cons] at hv
    cases List.mem_cons.mp hv with
    | inl heq =>
      rcases pairLast_cases u (its.filter (Item.For u)) with ⟨_, hpair⟩ | ⟨it, hit, hpair⟩
      · rw [heq, hpair, hu] at hexist
        cases hexist
      · obtain ⟨hit, hfor⟩ := List.mem_filter.mp hit
        exact ⟨u, List.mem_cons_self, it, hit, Item.for_iff.mp hfor, heq.trans hpair⟩
    | inr htail =>
      obtain ⟨w, hw, it, hit, hstem, hpair⟩ := ih (fun w hw => hunits w (List.mem_cons_of_mem _ hw)) htail
      exact ⟨w, List.mem_cons_of_mem _ hw, it, (List.mem_filter.mp hit).1, hstem, hpair⟩

/-- The first slot with a stem takes its payloads. -/
theorem attachAll_head (units : List FwFileUnit) {its : List Item} {it : Item} (hit : it ∈ its) (hstem : u.stem = some it.1) :
    ∃ last ∈ its, last.1 = it.1 ∧ u.pair last.2 ∈ attachAll (u :: units) its := by
  rw [attachAll_cons]
  have hmem : it ∈ its.filter (Item.For u) := List.mem_filter.mpr ⟨hit, Item.for_iff.mpr hstem⟩
  rcases pairLast_cases u (its.filter (Item.For u)) with ⟨hnone, _⟩ | ⟨last, hlast, hpair⟩
  · rw [hnone] at hmem
    cases hmem
  · obtain ⟨hlast, hfor⟩ := List.mem_filter.mp hlast
    refine ⟨last, hlast, ?_, by rw [← hpair]; exact List.mem_cons_self⟩
    exact Option.some.inj ((Item.for_iff.mp hfor).symm.trans hstem)

/-- A stem that a slot and a payload share has a pair. -/
theorem attachAll_found {its : List Item} {it : Item} (hu : u ∈ units) (hit : it ∈ its) (hstem : u.stem = some it.1) :
    ∃ v ∈ attachAll units its, v.isSrcbinExist = true ∧ v.stem = some it.1 := by
  induction units generalizing its with
  | nil => cases hu
  | cons w units ih =>
    by_cases hw : w.stem = some it.1
    · obtain ⟨last, _, _, hmem⟩ := attachAll_head units hit hw
      exact ⟨_, hmem, rfl, hw⟩
    · rw [attachAll_cons]
      have hmem : it ∈ its.filter fun it => !Item.For w it := by
        refine List.mem_filter.mpr ⟨hit, ?_⟩
        simpa [Item.For] using hw
      cases List.mem_cons.mp hu with
      | inl heq => exact absurd (heq ▸ hstem) hw
      | inr hu =>
        obtain ⟨v, hv, hexist, hvstem⟩ := ih hu hmem
        exact ⟨v, List.mem_cons_of_mem _ hv, hexist, hvstem⟩

/-- No stem has two pairs. -/
theorem attachAll_stem_inj (hunits : Unpaired units) {its : List Item} (hv : v ∈ attachAll units its)
    (hv' : v' ∈ attachAll units its)
    (hexist : v.isSrcbinExist = true) (hexist' : v'.isSrcbinExist = true) (hstem : v.stem = v'.stem) : v = v' := by
  induction units generalizing its with
  | nil =>
    obtain ⟨u, hu, _⟩ := attachAll_paired hunits hv hexist
    cases hu
  | cons u units ih =>
    have htail : Unpaired units := fun w hw => hunits w (List.mem_cons_of_mem _ hw)
    -- the head slot has left no payload with its stem
    have hother : ∀ w ∈ attachAll units (its.filter fun it => !Item.For u it), w.isSrcbinExist = true → w.stem ≠ u.stem := by
      intro w hw hwexist heq
      obtain ⟨x, hx, it, hit, hxstem, rfl⟩ := attachAll_paired htail hw hwexist
      have hnot := (List.mem_filter.mp hit).2
      have hfor : Item.For u it = true := Item.for_iff.mpr (heq.symm.trans hxstem)
      rw [hfor] at hnot
      cases hnot
    have hhead : (u.pairLast (its.filter (Item.For u))).stem = u.stem := by
      rcases pairLast_cases u (its.filter (Item.For u)) with ⟨_, hpair⟩ | ⟨it, _, hpair⟩
      · rw [hpair]
      · rw [hpair, pair_stem]
    rw [attachAll_cons] at hv hv'
    rcases List.mem_cons.mp hv with heq | hv <;> rcases List.mem_cons.mp hv' with heq' | hv'
    · rw [heq, heq']
    · rw [heq, hhead] at hstem
      exact absurd hstem.symm (hother v' hv' hexist')
    · rw [heq', hhead] at hstem
      exact absurd hstem (hother v hv hexist)
    · exact ih htail hv hv'

end

/-! ## Folders -/

/-- A folder: names that differ from each other, in no order. -/
structure Folder where
  path : List Char
  opens : Bool
  names : List (List Char)
  distinct : names.Nodup

/-- `readdir`'s order. -/
def Folder.listing (f : Folder) (order : List (List Char)) : Listing := ⟨f.path, if f.opens then some order else none⟩

/-- A folder that opens, under a name that is not too long. -/
def Folder.Usable (f : Folder) : Prop := f.path.length < fwDirnameLenMax ∧ f.opens = true

section

variable (file : List Char → Option (List UInt8)) (offers payloads : Folder)

def binsFor (o p : List (List Char)) : Option (List FwFileUnit) := getBins file (offers.listing o) (payloads.listing p)

/-- The pairs: offer file, payload file, image type. -/
def triples (units : List FwFileUnit) : List (List Char × List Char × UInt8) :=
  (units.filter (·.isSrcbinExist)).map fun u => (u.offerName, u.srcBinName, u.imageType)

structure OrderFree : Prop where
  success : ∀ o o' p p', o.Perm offers.names → o'.Perm offers.names → p.Perm payloads.names → p'.Perm payloads.names →
    ((binsFor file offers payloads o p).isSome ↔ (binsFor file offers payloads o' p').isSome)
  pairs : ∀ o o' p p', o.Perm offers.names → o'.Perm offers.names → p.Perm payloads.names → p'.Perm payloads.names →
    ∀ units units', binsFor file offers payloads o p = some units → binsFor file offers payloads o' p' = some units' →
      ∀ t, t ∈ triples units ↔ t ∈ triples units'
  stems : ∀ o p, o.Perm offers.names → p.Perm payloads.names → ∀ units, binsFor file offers payloads o p = some units →
    ∀ t ∈ triples units, ∃ stem, cut offerBinSuffix t.1 = some stem ∧ cut srcBinSuffix t.2.1 = some stem
  once : ∀ o p, o.Perm offers.names → p.Perm payloads.names → ∀ units, binsFor file offers payloads o p = some units →
    ∀ name ∈ payloads.names, ∀ stem, cut srcBinSuffix name = some stem →
      (∃ u ∈ loaded file offers.names, u.stem = some stem) → ∃! t, t ∈ triples units ∧ t.2.1 = name

/-- What no order changes: the call fails. -/
def Fails : Prop :=
  ¬ offers.Usable ∨ ¬ payloads.Usable ∨ (∃ n ∈ offers.names, IsOffer n ∧ fwNameLenMax ≤ n.length) ∨
    (∃ n ∈ payloads.names, IsPayload n ∧ fwNameLenMax ≤ n.length) ∨ fwBinCountMax < (loaded file offers.names).length

/-- Slots for all offers, also those that do not load; and of each stem that has an offer
    and a payload, one of each. -/
structure Clear : Prop where
  slots : (loaded file offers.names).length = fwBinCountMax → ∀ n ∈ offers.names, IsOffer n → (slot file n).isSome
  oneOffer : ∀ u ∈ loaded file offers.names, ∀ u' ∈ loaded file offers.names, u.stem = u'.stem →
    ∀ it ∈ items payloads.names, u.stem = some it.1 → u = u'
  onePayload : ∀ it ∈ items payloads.names, ∀ it' ∈ items payloads.names, it.1 = it'.1 →
    ∀ u ∈ loaded file offers.names, u.stem = some it.1 → it = it'

end

section

variable {file : List Char → Option (List UInt8)} {offers payloads : Folder} {o p : List (List Char)} {units : List FwFileUnit}

theorem loaded_unpaired (names : List (List Char)) : Unpaired (loaded file names) := by
  intro u hu
  obtain ⟨n, _, hslot⟩ := List.mem_filterMap.mp hu
  exact (slot_eq hslot).2

theorem loaded_perm (file : List Char → Option (List UInt8)) {names names' : List (List Char)}
    (h : names.Perm names') : (loaded file names).Perm (loaded file names') :=
  h.filterMap _

theorem items_perm {names names' : List (List Char)} (h : names.Perm names') : (items names).Perm (items names') :=
  h.filterMap _

theorem mem_triples {t : List Char × List Char × UInt8} :
    t ∈ triples units ↔ ∃ u ∈ units, u.isSrcbinExist = true ∧ (u.offerName, u.srcBinName, u.imageType) = t := by
  simp [triples, and_assoc]

theorem read_listing {f : Folder} {names : List (List Char)} : (f.listing o).read = some names ↔ f.Usable ∧ names = o := by
  unfold Listing.read Folder.listing Folder.Usable
  dsimp only
  split
  · exact iff_of_false (by simp) (fun h => by omega)
  · cases f.opens with
    | false => simp
    | true =>
      rw [if_pos rfl, Option.some.injEq]
      exact ⟨fun h => ⟨⟨by omega, rfl⟩, h.symm⟩, fun h => h.2.symm⟩

/-- An order that succeeds, in terms of the folders. -/
theorem binsFor_some (ho : o.Perm offers.names) (hp : p.Perm payloads.names) (h : binsFor file offers payloads o p = some units) :
    ¬ Fails file offers payloads ∧ units = attachAll (loaded file o) (items p) := by
  obtain ⟨slots, hslots, hbins⟩ := Option.bind_eq_some_iff.mp h
  obtain ⟨_, hread, hoffers⟩ := Option.bind_eq_some_iff.mp hslots
  obtain ⟨_, hread', hpayloads⟩ := Option.bind_eq_some_iff.mp hbins
  obtain ⟨husable, rfl⟩ := read_listing.mp hread
  obtain ⟨husable', rfl⟩ := read_listing.mp hread'
  obtain ⟨hloaded, hmost, hshort⟩ := offerLoop_some hoffers (Nat.zero_le _)
  have hshort' := payloadLoop_some hpayloads
  rw [List.nil_append] at hloaded
  constructor
  · intro hfails
    rcases hfails with hbad | hbad | ⟨n, hn, hoffer, hlong⟩ | ⟨n, hn, hpayload, hlong⟩ | hmany
    · exact hbad husable
    · exact hbad husable'
    · have := hshort n (ho.mem_iff.mpr hn) hoffer
      omega
    · have := hshort' n (hp.mem_iff.mpr hn) hpayload
      omega
    · rw [hloaded, (loaded_perm file ho).length_eq] at hmost
      omega
  · rw [payloadLoop_ok hshort', hloaded] at hpayloads
    exact (Option.some.inj hpayloads).symm

/-- What is known where the call does not fail in every order. -/
structure Sound (file : List Char → Option (List UInt8)) (offers payloads : Folder) : Prop where
  offersUsable : offers.Usable
  payloadsUsable : payloads.Usable
  offersShort : ∀ n ∈ offers.names, IsOffer n → n.length < fwNameLenMax
  payloadsShort : ∀ n ∈ payloads.names, IsPayload n → n.length < fwNameLenMax
  most : (loaded file offers.names).length ≤ fwBinCountMax

theorem sound_of_not_fails (h : ¬ Fails file offers payloads) : Sound file offers payloads := by
  simp only [Fails, not_or, not_not, not_exists, not_and, Nat.not_le, Nat.not_lt] at h
  obtain ⟨husable, husable', hshort, hshort', hmost⟩ := h
  exact ⟨husable, husable', hshort, hshort', hmost⟩

theorem binsFor_eq (hgood : Sound file offers payloads) (hp : p.Perm payloads.names) :
    binsFor file offers payloads o p = (offerLoop file [] o).map fun slots => attachAll slots (items p) := by
  have hread : (offers.listing o).read = some o := read_listing.mpr ⟨hgood.offersUsable, rfl⟩
  have hread' : (payloads.listing p).read = some p := read_listing.mpr ⟨hgood.payloadsUsable, rfl⟩
  have hshort : ∀ n ∈ p, IsPayload n → n.length < fwNameLenMax :=
    fun n hn => hgood.payloadsShort n (hp.mem_iff.mp hn)
  rw [binsFor, getBins, getOfferBins, hread, Option.bind_some]
  cases offerLoop file [] o with
  | none => rfl
  | some slots => rw [Option.bind_some, getPayloadBins, hread', Option.bind_some, payloadLoop_ok hshort, Option.map_some]

/-! ## Orders -/

section

variable (file)

/-- The entries that fill a slot, and the others. -/
def filling (names : List (List Char)) : List (List Char) := names.filter fun n => (slot file n).isSome
def others (names : List (List Char)) : List (List Char) := names.filter fun n => !(slot file n).isSome

end

variable {names : List (List Char)}

theorem loaded_append (a b : List (List Char)) : loaded file (a ++ b) = loaded file a ++ loaded file b :=
  List.filterMap_append

theorem filling_perm (file : List Char → Option (List UInt8)) (names : List (List Char)) :
    (filling file names ++ others file names).Perm names := List.filter_append_perm _ names

theorem loaded_others : loaded file (others file names) = [] := by
  unfold loaded others
  rw [List.filterMap_eq_nil_iff]
  intro n hn
  simpa using (List.mem_filter.mp hn).2

theorem loaded_filling : (loaded file (filling file names)).length = (loaded file names).length := by
  have h := (loaded_perm file (filling_perm file names)).length_eq
  rwa [loaded_append, loaded_others, List.append_nil] at h

/-- The offers that fill a slot, one after the other. -/
theorem offerLoop_filling (hshort : ∀ n ∈ names, IsOffer n → n.length < fwNameLenMax)
    (hmost : (loaded file names).length ≤ fwBinCountMax) :
    offerLoop file [] (filling file names) = some (loaded file (filling file names)) := by
  refine offerLoop_ok (fun n hn => hshort n (List.mem_of_mem_filter hn)) ?_
  rw [List.length_nil, Nat.zero_add, loaded_filling]
  rcases Nat.lt_or_eq_of_le hmost with hless | hfull
  · exact .inl hless
  · exact .inr ⟨hfull, fun n hn _ => (List.mem_filter.mp hn).2⟩

/-- Some order succeeds: what does not fill a slot comes first. -/
theorem others_first_succeeds (hshort : ∀ n ∈ names, IsOffer n → n.length < fwNameLenMax)
    (hmost : (loaded file names).length ≤ fwBinCountMax) :
    offerLoop file [] (others file names ++ filling file names) =
      some (loaded file (others file names ++ filling file names)) := by
  have hothers : offerLoop file [] (others file names) = some [] := by
    have hok : offerLoop file [] (others file names) = some ([] ++ loaded file (others file names)) :=
      offerLoop_ok (fun n hn => hshort n (List.mem_of_mem_filter hn)) (.inl (by rw [loaded_others]; decide))
    rwa [loaded_others] at hok
  rw [offerLoop_append, hothers, Option.bind_some, offerLoop_filling hshort hmost, loaded_append, loaded_others, List.nil_append]

/-- With all slots filled, an offer that does not load ends the loop if it comes last. -/
theorem others_last_fails (hshort : ∀ n ∈ names, IsOffer n → n.length < fwNameLenMax)
    (hfull : (loaded file names).length = fwBinCountMax)
    (hbad : ∃ n ∈ names, IsOffer n ∧ (slot file n).isSome = false) :
    offerLoop file [] (filling file names ++ others file names) = none := by
  obtain ⟨n, hn, hoffer, hslot⟩ := hbad
  rw [offerLoop_append, offerLoop_filling hshort hfull.le, Option.bind_some]
  refine offerLoop_full (loaded_filling.trans hfull) ⟨n, ?_, hoffer⟩
  exact List.mem_filter.mpr ⟨hn, by rw [hslot]; rfl⟩

/-! ## Independence of the order -/

/-- Where each stem has one offer and one payload, the pairs are those with the same stem. -/
theorem paired_iff (hclear : Clear file offers payloads) (ho : o.Perm offers.names) (hp : p.Perm payloads.names)
    {v : FwFileUnit} :
    (v ∈ attachAll (loaded file o) (items p) ∧ v.isSrcbinExist = true) ↔
      ∃ u ∈ loaded file offers.names, ∃ it ∈ items payloads.names, u.stem = some it.1 ∧ v = u.pair it.2 := by
  have hslots := loaded_perm file ho
  have hitems := items_perm hp
  constructor
  · intro ⟨hv, hexist⟩
    obtain ⟨u, hu, it, hit, hstem, hpair⟩ := attachAll_paired (loaded_unpaired o) hv hexist
    exact ⟨u, hslots.mem_iff.mp hu, it, hitems.mem_iff.mp hit, hstem, hpair⟩
  · intro ⟨u, hu, it, hit, hstem, hpair⟩
    obtain ⟨w, hw, hexist, hwstem⟩ := attachAll_found (hslots.mem_iff.mpr hu) (hitems.mem_iff.mpr hit) hstem
    obtain ⟨u', hu', it', hit', hstem', rfl⟩ := attachAll_paired (loaded_unpaired o) hw hexist
    have hsame : u'.stem = u.stem := hwstem.trans hstem.symm
    obtain rfl : u' = u :=
      hclear.oneOffer u' (hslots.mem_iff.mp hu') u hu hsame it hit (hsame.trans hstem)
    have hkey : it.1 = it'.1 := Option.some.inj (hstem.symm.trans hstem')
    obtain rfl : it = it' := hclear.onePayload it hit it' (hitems.mem_iff.mp hit') hkey u' hu hstem
    rw [hpair]
    exact ⟨hw, rfl⟩

theorem clear_succeeds (hgood : Sound file offers payloads) (hclear : Clear file offers payloads) (ho : o.Perm offers.names)
    (hp : p.Perm payloads.names) : binsFor file offers payloads o p = some (attachAll (loaded file o) (items p)) := by
  have hok : offerLoop file [] o = some ([] ++ loaded file o) := by
    refine offerLoop_ok (fun n hn => hgood.offersShort n (ho.mem_iff.mp hn)) ?_
    rw [List.length_nil, Nat.zero_add, (loaded_perm file ho).length_eq]
    rcases Nat.lt_or_eq_of_le hgood.most with hless | hfull
    · exact .inl hless
    · exact .inr ⟨hfull, fun n hn => hclear.slots hfull n (ho.mem_iff.mp hn)⟩
  rw [binsFor_eq hgood hp, hok, Option.map_some, List.nil_append]

theorem order_free_of_clear (hgood : Sound file offers payloads) (hclear : Clear file offers payloads) :
    OrderFree file offers payloads := by
  have hunits : ∀ {o p units}, o.Perm offers.names → p.Perm payloads.names → binsFor file offers payloads o p = some units →
      ∀ t, t ∈ triples units ↔ ∃ u ∈ loaded file offers.names, ∃ it ∈ items payloads.names, u.stem = some it.1 ∧
        t = (u.offerName, it.2, u.imageType) := by
    intro o p units ho hp hbins t
    rw [clear_succeeds hgood hclear ho hp] at hbins
    cases hbins
    rw [mem_triples]
    constructor
    · intro ⟨v, hv, hexist, ht⟩
      obtain ⟨u, hu, it, hit, hstem, rfl⟩ := (paired_iff hclear ho hp).mp ⟨hv, hexist⟩
      exact ⟨u, hu, it, hit, hstem, ht.symm⟩
    · intro ⟨u, hu, it, hit, hstem, ht⟩
      obtain ⟨hv, hexist⟩ := (paired_iff hclear ho hp).mpr ⟨u, hu, it, hit, hstem, rfl⟩
      exact ⟨_, hv, hexist, ht.symm⟩
  constructor
  · intro o o' p p' ho ho' hp hp'
    rw [clear_succeeds hgood hclear ho hp, clear_succeeds hgood hclear ho' hp']
    simp
  · intro o o' p p' ho ho' hp hp' units units' hbins hbins' t
    rw [hunits ho hp hbins, hunits ho' hp' hbins']
  · intro o p ho hp units hbins t ht
    obtain ⟨u, _, it, hit, hstem, rfl⟩ := (hunits ho hp hbins t).mp ht
    exact ⟨it.1, hstem, (mem_items.mp hit).2⟩
  · intro o p ho hp units hbins name hname stem hcut ⟨u, hu, hstem⟩
    have hit : (stem, name) ∈ items payloads.names := mem_items.mpr ⟨hname, hcut⟩
    refine ⟨(u.offerName, name, u.imageType), ⟨(hunits ho hp hbins _).mpr ⟨u, hu, _, hit, hstem, rfl⟩, rfl⟩, ?_⟩
    intro t ⟨ht, htname⟩
    obtain ⟨u', hu', it', hit', hstem', rfl⟩ := (hunits ho hp hbins t).mp ht
    have hkey : it'.1 = stem := by
      have hcut' := (mem_items.mp hit').2
      rw [show it'.2 = name from htname, hcut] at hcut'
      exact (Option.some.inj hcut').symm
    have hsame : u'.stem = u.stem := by rw [hstem', hkey, hstem]
    obtain rfl : u' = u := hclear.oneOffer u' hu' u hu hsame _ hit (hsame.trans hstem)
    rw [show it'.2 = name from htname]

/-- One order succeeds, so that all do. -/
theorem order_free_succeeds (hgood : Sound file offers payloads) (hfree : OrderFree file offers payloads)
    (ho : o.Perm offers.names) :
    binsFor file offers payloads o payloads.names = some (attachAll (loaded file o) (items payloads.names)) := by
  have hperm := List.Perm.refl payloads.names
  have hfirst : (others file offers.names ++ filling file offers.names).Perm offers.names :=
    List.perm_append_comm.trans (filling_perm file _)
  have hstart := binsFor_eq (o := others file offers.names ++ filling file offers.names) hgood hperm
  rw [others_first_succeeds hgood.offersShort hgood.most, Option.map_some] at hstart
  have hiff := hfree.success _ _ _ _ hfirst ho hperm hperm
  rw [hstart] at hiff
  obtain ⟨units, hbins⟩ := Option.isSome_iff_exists.mp (hiff.mp rfl)
  rw [hbins, (binsFor_some ho hperm hbins).2]

/-- With an offer in front, its slot is the one its payloads are in. -/
theorem first_offer_paired {n : List Char} {u : FwFileUnit} (hslot : slot file n = some u) {it : Item}
    (hit : it ∈ items payloads.names) (hstem : u.stem = some it.1) (names : List (List Char)) :
    ∃ last : Item, u.pair last.2 ∈ attachAll (loaded file (n :: names)) (items payloads.names) := by
  have hload : loaded file (n :: names) = u :: loaded file names := by
    rw [loaded_cons, hslot]
    rfl
  obtain ⟨last, _, _, hhead⟩ := attachAll_head (loaded file names) hit hstem
  exact ⟨last, by rw [hload]; exact hhead⟩

theorem order_free_oneOffer (hgood : Sound file offers payloads) (hfree : OrderFree file offers payloads) {u u' : FwFileUnit}
    (hu : u ∈ loaded file offers.names) (hu' : u' ∈ loaded file offers.names) (hsame : u'.stem = u.stem) {it : Item}
    (hit : it ∈ items payloads.names) (hstem : u.stem = some it.1) : u' = u := by
  have hperm := List.Perm.refl payloads.names
  obtain ⟨n, hn, hslot⟩ := List.mem_filterMap.mp hu
  obtain ⟨n', hn', hslot'⟩ := List.mem_filterMap.mp hu'
  -- each of the two offers first
  have horder := (List.perm_cons_erase hn).symm
  have horder' := (List.perm_cons_erase hn').symm
  obtain ⟨last, hhead⟩ := first_offer_paired hslot hit hstem (offers.names.erase n)
  obtain ⟨last', hhead'⟩ := first_offer_paired hslot' hit (hsame.trans hstem) (offers.names.erase n')
  obtain ⟨v, hv, hexist, heq⟩ := mem_triples.mp ((hfree.pairs _ _ _ _ horder horder' hperm hperm _ _
    (order_free_succeeds hgood hfree horder) (order_free_succeeds hgood hfree horder') _).mp
      (mem_triples.mpr ⟨_, hhead, rfl, rfl⟩))
  have hname : v.offerName = u.offerName := (Prod.mk.inj heq).1
  have hone := attachAll_stem_inj (loaded_unpaired _) hv hhead' hexist rfl
    (by rw [FwFileUnit.stem, hname, pair_stem]; exact hsame.symm)
  have hnames : n = n' := by
    rw [← (slot_eq hslot).1, ← hname, hone, pair_offerName, (slot_eq hslot').1]
  rw [hnames, hslot'] at hslot
  exact Option.some.inj hslot

/-- The pair in which a payload with an offer is. -/
theorem order_free_pair (hfree : OrderFree file offers payloads) {units : List FwFileUnit}
    (hbins : binsFor file offers payloads offers.names payloads.names = some units) {u : FwFileUnit}
    (hu : u ∈ loaded file offers.names) {it : Item} (hit : it ∈ items payloads.names) (hstem : u.stem = some it.1) :
    ∃ v ∈ units, v.isSrcbinExist = true ∧ v.stem = some it.1 ∧ v.srcBinName = it.2 := by
  have hperm := List.Perm.refl payloads.names
  obtain ⟨hname, hcut⟩ := mem_items.mp hit
  obtain ⟨t, ⟨ht, htname⟩, _⟩ := hfree.once _ _ (List.Perm.refl _) hperm units hbins it.2 hname it.1 hcut ⟨u, hu, hstem⟩
  obtain ⟨v, hv, hexist, rfl⟩ := mem_triples.mp ht
  obtain ⟨stem, hoffer, hsrc⟩ := hfree.stems _ _ (List.Perm.refl _) hperm units hbins _ ht
  have hsame : v.srcBinName = it.2 := htname
  dsimp only at hoffer hsrc
  rw [hsame, hcut] at hsrc
  exact ⟨v, hv, hexist, hoffer.trans hsrc.symm, hsame⟩

theorem clear_of_order_free (hgood : Sound file offers payloads) (hfree : OrderFree file offers payloads) :
    Clear file offers payloads := by
  constructor
  · intro hfull n hn hoffer
    by_contra hbad
    have hbins := order_free_succeeds hgood hfree (filling_perm file offers.names)
    rw [binsFor_eq hgood (List.Perm.refl _),
      others_last_fails hgood.offersShort hfull ⟨n, hn, hoffer, by simpa using hbad⟩] at hbins
    cases hbins
  · intro u hu u' hu' hsame it hit hstem
    exact order_free_oneOffer hgood hfree hu' hu hsame hit (hsame.symm.trans hstem)
  · intro it hit it' hit' hkey u hu hstem
    have hbins := order_free_succeeds hgood hfree (List.Perm.refl offers.names)
    obtain ⟨v, hv, hexist, hvstem, hvname⟩ := order_free_pair hfree hbins hu hit hstem
    obtain ⟨v', hv', hexist', hvstem', hvname'⟩ := order_free_pair hfree hbins hu hit' (by rw [← hkey]; exact hstem)
    have hone := attachAll_stem_inj (loaded_unpaired _) hv hv' hexist hexist' (by rw [hvstem, hvstem', hkey])
    exact Prod.ext hkey (by rw [← hvname, hone, hvname'])

/-- The result is the same in every order of the two folders, with pairs of equal stems and
    each payload that has an offer in one of them, exactly when every order fails, or when
    the slots are enough and no stem in use has two offers or two payloads. -/
theorem order_free_iff (file : List Char → Option (List UInt8)) (offers payloads : Folder) :
    OrderFree file offers payloads ↔ Fails file offers payloads ∨ Clear file offers payloads := by
  by_cases hfails : Fails file offers payloads
  · have hnone : ∀ {o p units}, o.Perm offers.names → p.Perm payloads.names → binsFor file offers payloads o p ≠ some units :=
      fun ho hp hbins => (binsFor_some ho hp hbins).1 hfails
    refine iff_of_true ⟨?_, ?_, ?_, ?_⟩ (.inl hfails)
    · intro o o' p p' ho ho' hp hp'
      refine iff_of_false ?_ ?_
      · intro h
        obtain ⟨units, hbins⟩ := Option.isSome_iff_exists.mp h
        exact hnone ho hp hbins
      · intro h
        obtain ⟨units, hbins⟩ := Option.isSome_iff_exists.mp h
        exact hnone ho' hp' hbins
    · intro o o' p p' ho _ hp _ units _ hbins
      exact absurd hbins (hnone ho hp)
    · intro o p ho hp units hbins
      exact absurd hbins (hnone ho hp)
    · intro o p ho hp units hbins
      exact absurd hbins (hnone ho hp)
  · have hgood := sound_of_not_fails hfails
    constructor
    · exact fun hfree => .inr (clear_of_order_free hgood hfree)
    · intro h
      exact order_free_of_clear hgood (h.resolve_left hfails)

end

/-! ## A backup next to the offer -/

def offerName : List Char := "a.offer.bin".toList
def backupName : List Char := "a.offer.bin.bak".toList
def payloadName : List Char := "a.payload.bin".toList

/-- The backup's image type is another. -/
def offerFile (name : List Char) : Option (List UInt8) :=
  if name = offerName then some [0, 1, 0, 0, 0, 0, 0, 0, 0, 0, 0, 0, 0, 0, 0, 0]
  else if name = backupName then some [0, 2, 0, 0, 0, 0, 0, 0, 0, 0, 0, 0, 0, 0, 0, 0]
  else none

theorem offers_distinct : [offerName, backupName].Nodup := by decide +kernel
theorem payloads_distinct : [payloadName].Nodup := by decide +kernel

def offerFolder : Folder := ⟨['.'], true, [offerName, backupName], offers_distinct⟩
def payloadFolder : Folder := ⟨['.'], true, [payloadName], payloads_distinct⟩

/-- The payload is paired with the offer or with its backup, whichever comes first. -/
theorem backup_offer_order :
    (binsFor offerFile offerFolder payloadFolder [offerName, backupName] [payloadName]).map triples =
        some [(offerName, payloadName, 1)] ∧
      (binsFor offerFile offerFolder payloadFolder [backupName, offerName] [payloadName]).map triples =
        some [(backupName, payloadName, 2)] ∧
      ¬ OrderFree offerFile offerFolder payloadFolder := by
  have hfirst : (binsFor offerFile offerFolder payloadFolder [offerName, backupName] [payloadName]).map triples =
      some [(offerName, payloadName, 1)] := by decide +kernel
  have hsecond : (binsFor offerFile offerFolder payloadFolder [backupName, offerName] [payloadName]).map triples =
      some [(backupName, payloadName, 2)] := by decide +kernel
  refine ⟨hfirst, hsecond, ?_⟩
  intro hfree
  obtain ⟨units, hbins, hunits⟩ := Option.map_eq_some_iff.mp hfirst
  obtain ⟨units', hbins', hunits'⟩ := Option.map_eq_some_iff.mp hsecond
  have hsame := hfree.pairs _ _ _ _ (List.Perm.refl _) (List.Perm.swap _ _ _) (List.Perm.refl _)
    (List.Perm.refl _) units units' hbins
    hbins' (offerName, payloadName, 1)
  rw [hunits, hunits'] at hsame
  have hmem := hsame.mp List.mem_cons_self
  exact absurd hmem (by decide +kernel)

end AmebaLinux.Rcp.FwUpdate
