/-
  AmebaLinux.Hciattach.BtConfigProofs — the efuse overlay and the parser of Bluetooth
  configs (see `AmebaLinux.Hciattach.BtConfig`).

  The overlay of an address or of 0x0278 has its own length, not the entry's, so that a short
  entry lets it run into the entries behind it, or past the buffer. `Contained` follows the
  stores that do so along the entries of the file: they find the bytes as they leave them.
  The walk reads each header after all stores that could reach it, and then follows the
  file's own entries (`walk_overlaid`, `contained_of_walk`).

  Proved:
  - `overlay_respects_iff`: the overlay stays within the data of its entries exactly when
    the stores of short entries are harmless (`short_address_spills`).
  - `parse_exact_iff`: for which buffers the parser accepts exactly the format
    (`last_entry_too_long`).
-/

import AmebaLinux.Hciattach.BtConfig

namespace AmebaLinux.Hciattach.BtConfig

open AmebaLinux.Lib.Bytes
open AmebaLinux.Lib

/-! ## Entries as bytes -/

theorem offsetOf_split (o : UInt16) : offsetOf (UInt8.ofNat o.toNat) (UInt8.ofNat (o.toNat / 256)) = o := by
  have ho := o.toNat_lt
  rw [← UInt16.toNat_inj]
  simp only [offsetOf, UInt16.toNat_ofNat', UInt8.toNat_ofNat']
  omega

theorem split_offsetOf (lo hi : UInt8) :
    UInt8.ofNat (offsetOf lo hi).toNat = lo ∧ UInt8.ofNat ((offsetOf lo hi).toNat / 256) = hi := by
  have hlo := lo.toNat_lt
  have hhi := hi.toNat_lt
  constructor
  · rw [← UInt8.toNat_inj]
    simp only [offsetOf, UInt16.toNat_ofNat', UInt8.toNat_ofNat']
    omega
  · rw [← UInt8.toNat_inj]
    simp only [offsetOf, UInt16.toNat_ofNat', UInt8.toNat_ofNat']
    omega

@[simp] theorem header_length (e : CfgItem) : e.header.length = 3 := rfl

theorem len_toNat (e : CfgItem) : (UInt8.ofNat e.data.length).toNat = e.data.length := by
  have := e.short
  rw [UInt8.toNat_ofNat']
  omega

/-- A header says the offset and the length. -/
theorem header_eq_iff {e e' : CfgItem} : e'.header = e.header ↔ e'.offset = e.offset ∧ e'.data.length = e.data.length := by
  constructor
  · intro h
    simp only [CfgItem.header, List.cons.injEq, and_true] at h
    obtain ⟨hlo, hhi, hlen⟩ := h
    constructor
    · rw [← offsetOf_split e.offset, ← hlo, ← hhi, offsetOf_split]
    · rw [← len_toNat e, ← hlen, len_toNat]
  · intro ⟨hoffset, hlen⟩
    rw [CfgItem.header, hoffset, hlen, CfgItem.header]

@[simp] theorem body_nil : body [] = [] := rfl

theorem body_cons (e : CfgItem) (es : List CfgItem) : body (e :: es) = e.header ++ (e.data ++ body es) := by
  rw [body, List.flatMap_cons, CfgItem.bytes, List.append_assoc]
  rfl

theorem body_cons_length (e : CfgItem) (es : List CfgItem) :
    (body (e :: es)).length = 3 + (e.data.length + (body es).length) := by
  rw [body_cons, List.length_append, List.length_append, header_length]

/-! ## The overlay along the entries -/

/-- An entry after the overlay: its header, and its data unless that may change. -/
structure Kept (free : CfgItem → Prop) (e e' : CfgItem) : Prop where
  header : e'.header = e.header
  data : free e ∨ e'.data = e.data

/-- All bytes that are logged are in the buffer. -/
def LogInside : List CfgItem → Prop
  | [] => True
  | e :: es => logged e.offset ≤ e.data.length + (body es).length ∧ LogInside es

section

variable (mp : Bool) (efuse : Nat → UInt8) (free : CfgItem → Prop)

def CfgItem.stores (e : CfgItem) : List (Stores.Store UInt8) := BtConfig.stores mp efuse e.offset e.data.length

/-- An entry with stores into its data. -/
def CfgItem.stored (e : CfgItem) (sts : List (Stores.Store UInt8)) : CfgItem :=
  ⟨e.offset, Stores.apply e.data sts, by rw [Stores.apply_length]; exact e.short⟩

theorem stored_header (e : CfgItem) (sts : List (Stores.Store UInt8)) : (e.stored sts).header = e.header :=
  header_eq_iff.mpr ⟨rfl, Stores.apply_length e.data sts⟩

/-- The stores `pend` of earlier entries that run past their data, from here on, change no
    header and no data that is not free, and none is left at the end of the buffer. -/
def Contained : List (Stores.Store UInt8) → List CfgItem → Prop
  | pend, [] => pend = []
  | pend, e :: es =>
    Stores.apply e.header pend = e.header ∧ (free e ∨ Stores.apply e.data (Stores.past 3 pend) = e.data) ∧
      Contained (Stores.past e.data.length (Stores.past 3 pend ++ e.stores mp efuse)) es

/-- The entries after the overlay, with the stores `pend` of earlier ones. -/
def overlaid : List (Stores.Store UInt8) → List CfgItem → List CfgItem
  | _, [] => []
  | pend, e :: es =>
    e.stored (Stores.past 3 pend ++ e.stores mp efuse) ::
      overlaid (Stores.past e.data.length (Stores.past 3 pend ++ e.stores mp efuse)) es

variable {mp efuse free} {e : CfgItem} {es : List CfgItem} {pend : List (Stores.Store UInt8)}

theorem contained_inside (h : Contained mp efuse free pend es) : ∀ s ∈ pend, s.1 < (body es).length := by
  induction es generalizing pend with
  | nil =>
    have hnone : pend = [] := h
    simp [hnone]
  | cons e es ih =>
    obtain ⟨_, _, hrest⟩ := h
    have hdata := Stores.past_lt_iff.mp (ih hrest)
    rw [body_cons_length]
    exact Stores.past_lt_iff.mp fun s hs => hdata s (List.mem_append_left _ hs)

/-- One turn of the walk, at an entry. -/
theorem walk_cons (fuel : Nat) (rest : List UInt8) :
    efuseWalk mp efuse (fuel + 1) (e.header ++ rest) =
      if ∀ s ∈ e.stores mp efuse, s.1 < rest.length then
        (efuseWalk mp efuse fuel ((Stores.apply rest (e.stores mp efuse)).drop e.data.length)).map fun r =>
          (e.header ++ (Stores.apply rest (e.stores mp efuse)).take e.data.length ++ r.1,
            r.2 || decide (rest.length < logged e.offset))
      else none := by
  have hform : e.header ++ rest =
      UInt8.ofNat e.offset.toNat :: UInt8.ofNat (e.offset.toNat / 256) :: UInt8.ofNat e.data.length :: rest := rfl
  have hstores : stores mp efuse e.offset e.data.length = e.stores mp efuse := rfl
  rw [hform, efuseWalk, offsetOf_split, len_toNat, hstores]
  refine if_congr Iff.rfl ?_ rfl
  dsimp only
  cases efuseWalk mp efuse fuel ((Stores.apply rest (e.stores mp efuse)).drop e.data.length) with
  | none => rfl
  | some r => rfl

theorem walk_nil (fuel : Nat) : efuseWalk mp efuse fuel [] = some ([], false) := by
  cases fuel <;> rfl

/-- The bytes behind an entry's header, after all stores up to its own. -/
theorem data_split :
    Stores.apply (Stores.apply (e.data ++ body es) (Stores.past 3 pend)) (e.stores mp efuse) =
      Stores.apply e.data (Stores.past 3 pend ++ e.stores mp efuse) ++
        Stores.apply (body es) (Stores.past e.data.length (Stores.past 3 pend ++ e.stores mp efuse)) := by
  rw [← Stores.apply_more, Stores.apply_append]

/-- The walk follows the file's own entries. -/
theorem walk_overlaid (h : Contained mp efuse free pend es) {fuel : Nat} (hfuel : es.length ≤ fuel) :
    ∃ past, (past = false ↔ LogInside es) ∧
      efuseWalk mp efuse fuel (Stores.apply (body es) pend) = some (body (overlaid mp efuse pend es), past) := by
  induction es generalizing pend fuel with
  | nil =>
    have hnone : pend = [] := h
    rw [hnone]
    exact ⟨false, by simp [LogInside], walk_nil fuel⟩
  | cons e es ih =>
    obtain ⟨hhead, _, hrest⟩ := h
    cases fuel with
    | zero => simp at hfuel
    | succ fuel =>
      have hlen : (Stores.apply (e.data ++ body es) (Stores.past 3 pend)).length = e.data.length + (body es).length := by simp
      have hinside : ∀ s ∈ e.stores mp efuse, s.1 < (Stores.apply (e.data ++ body es) (Stores.past 3 pend)).length := by
        intro s hs
        rw [hlen]
        exact Stores.past_lt_iff.mp (contained_inside hrest) s (List.mem_append_right _ hs)
      have hless : es.length ≤ fuel := by simpa using hfuel
      obtain ⟨past, hpast, hwalk⟩ := ih hrest hless
      refine ⟨past || decide (e.data.length + (body es).length < logged e.offset), ?_, ?_⟩
      · rw [Bool.or_eq_false_iff, hpast, decide_eq_false_iff_not, Nat.not_lt, LogInside, and_comm]
      · rw [body_cons, Stores.apply_append, header_length, hhead, walk_cons, if_pos hinside, data_split, hlen,
          List.drop_left' (Stores.apply_length _ _), hwalk, List.take_left' (Stores.apply_length _ _), overlaid, body_cons,
          stored_header, Option.map_some, List.append_assoc]
        rfl

theorem overlaid_kept (hfree : ∀ e, free e ∨ e.stores mp efuse = []) (h : Contained mp efuse free pend es) :
    List.Forall₂ (Kept free) es (overlaid mp efuse pend es) := by
  induction es generalizing pend with
  | nil => exact .nil
  | cons e es ih =>
    obtain ⟨_, hdata, hrest⟩ := h
    refine .cons ⟨stored_header e _, ?_⟩ (ih hrest)
    rcases hfree e with hf | hnone
    · exact .inl hf
    · rcases hdata with hf | hsame
      · exact .inl hf
      · rw [hnone, List.append_nil]
        exact .inr hsame

/-- A header is not changed any more once it is read. -/
theorem walk_header {fuel : Nat} {x rest out : List UInt8} {past : Bool} (hx : x.length = 3)
    (h : efuseWalk mp efuse fuel (x ++ rest) = some (out, past)) : out.take 3 = x := by
  obtain ⟨lo, hi, len, rfl⟩ := List.length_eq_three.mp hx
  cases fuel with
  | zero => cases h
  | succ fuel =>
    have hform : [lo, hi, len] ++ rest = lo :: hi :: len :: rest := rfl
    rw [hform, efuseWalk] at h
    dsimp only at h
    split at h
    · split at h
      · cases h
      · cases h
        rfl
    · cases h

/-- A walk that ends in entries with the same headers has followed them. -/
theorem contained_of_walk (hfree : ∀ e, free e ∨ e.stores mp efuse = []) {es' : List CfgItem}
    (hkept : List.Forall₂ (Kept free) es es')
    {fuel : Nat} (hfuel : es.length ≤ fuel) (hpend : ∀ s ∈ pend, s.1 < (body es).length) {past : Bool}
    (h : efuseWalk mp efuse fuel (Stores.apply (body es) pend) = some (body es', past)) : Contained mp efuse free pend es := by
  induction hkept generalizing pend fuel past with
  | nil =>
    rw [Contained, List.eq_nil_iff_forall_not_mem]
    intro s hs
    have := hpend s hs
    simp at this
  | @cons e e' es es' hhead hkept ih =>
    cases fuel with
    | zero => simp at hfuel
    | succ fuel =>
      rw [body_cons, Stores.apply_append, header_length] at h
      -- the output still has the header that was read, and it is the file's
      have hread : Stores.apply e.header pend = e.header := by
        have hfirst := walk_header (by rw [Stores.apply_length]; rfl) h
        rw [body_cons, List.take_left' (header_length e')] at hfirst
        exact hfirst.symm.trans hhead.header
      rw [hread, walk_cons] at h
      split at h
      · rename_i hinside
        rw [data_split, List.drop_left' (Stores.apply_length _ _), List.take_left' (Stores.apply_length _ _)] at h
        obtain ⟨⟨after, past'⟩, hwalk, hr⟩ := Option.map_eq_some_iff.mp h
        have hout := (Prod.mk.inj hr).1
        rw [body_cons, hhead.header, List.append_assoc] at hout
        have hlen : (Stores.apply e.data (Stores.past 3 pend ++ e.stores mp efuse)).length = e'.data.length := by
          rw [Stores.apply_length, (header_eq_iff.mp hhead.header).2]
        obtain ⟨hdata, rfl⟩ := List.append_inj (List.append_cancel_left hout) hlen
        refine ⟨hread, ?_, ?_⟩
        · rcases hfree e with hf | hnone
          · exact .inl hf
          · rcases hhead.data with hf | hsame
            · exact .inl hf
            · rw [hnone, List.append_nil, hsame] at hdata
              exact .inr hdata
        · refine ih (by simpa using hfuel) (Stores.past_lt_iff.mpr ?_) hwalk
          intro s hs
          cases List.mem_append.mp hs with
          | inl hold =>
            rw [body_cons_length] at hpend
            exact Stores.past_lt_iff.mpr hpend s hold
          | inr hnew =>
            rw [Stores.apply_length, List.length_append] at hinside
            exact hinside s hnew
      · cases h

end

/-! ## Entry boundaries -/

/-- The first bytes of a config. -/
abbrev CfgHeader : Type := { l : List UInt8 // l.length = rtbCfgHdrLen }

/-- The offsets with an overlay. -/
def Listed (e : CfgItem) : Prop :=
  e.offset = 0x0018 ∨ e.offset = 0x0030 ∨ e.offset = 0x0278 ∨ e.offset = 0x0282 ∨ e.offset = 0x028a

theorem listed_or_none (mp : Bool) (efuse : Nat → UInt8) (e : CfgItem) : Listed e ∨ e.stores mp efuse = [] := by
  by_cases h : Listed e
  · exact .inl h
  · unfold Listed at h
    push Not at h
    obtain ⟨h18, h30, h278, h282, h28a⟩ := h
    refine .inr ?_
    rw [CfgItem.stores, stores, if_neg h18, if_neg h30, if_neg h278, if_neg h282, if_neg h28a]

theorem length_le_body (es : List CfgItem) : es.length ≤ (body es).length := by
  induction es with
  | nil => rfl
  | cons e es ih =>
    rw [body_cons_length, List.length_cons]
    omega

theorem walk_fuel (es : List CfgItem) : es.length ≤ rtbCfgHdrLen + (body es).length :=
  Nat.le_add_left_of_le (length_le_body es)

theorem overlay_header (mp : Bool) (efuse : Nat → UInt8) (hdr : CfgHeader) (bytes : List UInt8) :
    rtbReadConfigFromEfuse mp efuse (hdr.1 ++ bytes) =
      (efuseWalk mp efuse (rtbCfgHdrLen + bytes.length) bytes).map fun r => (hdr.1 ++ r.1, r.2) := by
  rw [rtbReadConfigFromEfuse, List.drop_left' hdr.2, List.take_left' hdr.2, List.length_append, hdr.2]

/-- The overlay of a config stays in its buffer, and changes no byte outside the data of the
    entries it is for. -/
def Respects (mp : Bool) (efuse : Nat → UInt8) (hdr : CfgHeader) (es : List CfgItem) : Prop :=
  ∃ es' past, rtbReadConfigFromEfuse mp efuse (hdr.1 ++ body es) = some (hdr.1 ++ body es', past) ∧
    List.Forall₂ (Kept Listed) es es'

theorem contained_of_respects {mp : Bool} {efuse : Nat → UInt8} {hdr : CfgHeader} {es : List CfgItem}
    (h : Respects mp efuse hdr es) :
    Contained mp efuse Listed [] es := by
  obtain ⟨es', past, hrun, hkept⟩ := h
  rw [overlay_header] at hrun
  obtain ⟨r, hwalk, hr⟩ := Option.map_eq_some_iff.mp hrun
  obtain ⟨hout, hpast⟩ := Prod.mk.inj hr
  have hr' : r = (body es', past) := Prod.ext (List.append_cancel_left hout) hpast
  rw [hr'] at hwalk
  exact contained_of_walk (listed_or_none mp efuse) hkept (walk_fuel es) (by simp) hwalk

/-- The overlay respects the entries' boundaries exactly when the stores of entries that are
    too short for them find the bytes behind as they leave them. -/
theorem overlay_respects_iff (mp : Bool) (efuse : Nat → UInt8) (hdr : CfgHeader) (es : List CfgItem) :
    Respects mp efuse hdr es ↔ Contained mp efuse Listed [] es := by
  constructor
  · exact contained_of_respects
  · intro h
    obtain ⟨past, _, hwalk⟩ := walk_overlaid h (walk_fuel es)
    rw [Stores.apply_none] at hwalk
    refine ⟨overlaid mp efuse [] es, past, ?_, overlaid_kept (listed_or_none mp efuse) h⟩
    rw [overlay_header, hwalk]
    rfl

theorem short_address_short : [(0 : UInt8), 0].length < 256 := by decide

theorem baud_short : [(0x1d : UInt8), 0x70, 0, 0].length < 256 := by decide

/-- An address of two bytes, and a baud rate behind it. -/
def shortAddress : CfgItem := ⟨0x0030, [0, 0], short_address_short⟩
def baudEntry : CfgItem := ⟨0x000c, [0x1d, 0x70, 0, 0], baud_short⟩
def magicHeader : CfgHeader := ⟨[0x55, 0xab, 0x23, 0x87, 12, 0], rfl⟩
def burnt (i : Nat) : UInt8 := UInt8.ofNat (0x10 + i)

/-- The other four bytes of the address are the next header and the first byte of its data:
    the baud rate's entry is gone. -/
theorem short_address_spills :
    rtbReadConfigFromEfuse false burnt (magicHeader.1 ++ body [shortAddress, baudEntry]) =
        some (magicHeader.1 ++ [0x30, 0, 2, 0x19, 0x18, 0x17, 0x16, 0x15, 0x14, 0x70, 0, 0], false) ∧
      ¬ Respects false burnt magicHeader [shortAddress, baudEntry] := by
  refine ⟨by decide +kernel, ?_⟩
  intro h
  obtain ⟨_, _, hread, _⟩ := contained_of_respects h
  exact absurd hread (by decide +kernel)

/-! ## The format -/

/-- A config with these entries; the low byte of the length is not looked at. -/
def Tiles (buf : List UInt8) (es : List CfgItem) : Prop :=
  ∃ low high, buf = cfgMagic ++ [low, high] ++ body es ∧ high.toNat = (body es).length / 256

/-- The list's items are the entries of the bytes. -/
theorem listItems_body {cfgLen fuel i : Nat} {es : List CfgItem} (hlen : i + (body es).length = cfgLen) (hcfg : cfgLen < 2 ^ 16)
    (hfuel : es.length ≤ fuel) : listItems cfgLen fuel i (body es) = some es := by
  induction es generalizing i fuel with
  | nil =>
    rw [body_nil, List.length_nil] at hlen
    rw [listItems.eq_def, if_neg (by omega)]
  | cons e es ih =>
    cases fuel with
    | zero => simp at hfuel
    | succ fuel =>
      rw [body_cons_length] at hlen
      have hnext : (i + e.data.length + 3) % 2 ^ 16 = i + e.data.length + 3 := Nat.mod_eq_of_lt (by omega)
      have hform : body (e :: es) =
          UInt8.ofNat e.offset.toNat :: UInt8.ofNat (e.offset.toNat / 256) :: UInt8.ofNat e.data.length :: (e.data ++ body es) :=
        body_cons e es
      have hitem : (⟨offsetOf (UInt8.ofNat e.offset.toNat) (UInt8.ofNat (e.offset.toNat / 256)),
          (e.data ++ body es).take (UInt8.ofNat e.data.length).toNat, take_short _ _⟩ : CfgItem) = e := by
        rw [CfgItem.mk.injEq, offsetOf_split, len_toNat, List.take_left]
        exact ⟨rfl, rfl⟩
      rw [hform, listItems.eq_def, if_pos (by omega)]
      dsimp only
      rw [hitem, len_toNat, if_pos (by simp), List.drop_left, hnext, ih (by omega) (by simpa using hfuel), Option.map_some]

theorem item_bytes {lo hi len : UInt8} {rest : List UInt8} (h : len.toNat ≤ rest.length) :
    CfgItem.bytes ⟨offsetOf lo hi, rest.take len.toNat, take_short len rest⟩ = lo :: hi :: len :: rest.take len.toNat := by
  obtain ⟨hlo, hhi⟩ := split_offsetOf lo hi
  simp only [CfgItem.bytes, CfgItem.header, hlo, hhi, List.length_take, Nat.min_eq_left h, UInt8.ofNat_toNat]
  rfl

/-- The loop comes to its end only on entries. -/
theorem listItems_some {cfgLen fuel i : Nat} {rest : List UInt8} {es : List CfgItem} (hlen : i + rest.length = cfgLen)
    (hcfg : cfgLen < 2 ^ 16) (h : listItems cfgLen fuel i rest = some es) : rest = body es := by
  induction fuel generalizing i rest es with
  | zero =>
    rw [listItems.eq_def] at h
    split at h
    · cases h
    · cases h
      exact List.length_eq_zero_iff.mp (by omega)
  | succ fuel ih =>
    rw [listItems.eq_def] at h
    split at h
    · split at h
      · rename_i fuel' lo hi len tail heq
        cases heq
        split at h
        · rename_i hinside
          obtain ⟨es', hes', rfl⟩ := Option.map_eq_some_iff.mp h
          simp only [List.length_cons] at hlen
          have hnext : (i + len.toNat + 3) % 2 ^ 16 = i + len.toNat + 3 := Nat.mod_eq_of_lt (by omega)
          rw [hnext] at hes'
          have htail := ih (by rw [List.length_drop]; omega) hes'
          have hmore : es'.flatMap CfgItem.bytes = tail.drop len.toNat := htail.symm
          rw [body, List.flatMap_cons, item_bytes hinside, hmore]
          simp
        · cases h
      · cases h
    · cases h
      exact List.length_eq_zero_iff.mp (by omega)

theorem walk_length {mp : Bool} {efuse : Nat → UInt8} {fuel : Nat} {bytes out : List UInt8} {past : Bool}
    (h : efuseWalk mp efuse fuel bytes = some (out, past)) : out.length = bytes.length := by
  fun_induction efuseWalk mp efuse fuel bytes generalizing out past with
  | case1 =>
    cases h
    rfl
  | case2 => cases h
  | case3 fuel lo hi len rest sts hinside rest' after past' =>
    rename_i hwalk ih
    cases h
    have hafter := ih hwalk
    simp only [rest', List.length_drop, Stores.apply_length] at hafter
    simp only [rest', List.length_append, List.length_cons, List.length_take, Stores.apply_length]
    omega
  | case4 => cases h
  | case5 => cases h

section

variable {mp : Bool} {efuse : Option (Nat → UInt8)} {list : List CfgItem} {low high : UInt8} {bytes : List UInt8} {r : Parsed}

/-- What the efuse, if there is one, makes of the body. -/
def Overlay (mp : Bool) (efuse : Option (Nat → UInt8)) (bytes bytes' : List UInt8) : Prop :=
  match efuse with
  | none => bytes' = bytes
  | some efuse => efuseWalk mp efuse (rtbCfgHdrLen + bytes.length) bytes = some (bytes', false)

theorem withEfuse_iff (hdr : CfgHeader) {buf : List UInt8} :
    withEfuse mp efuse (hdr.1 ++ bytes) = some buf ↔ ∃ bytes', Overlay mp efuse bytes bytes' ∧ buf = hdr.1 ++ bytes' := by
  cases efuse with
  | none => simp [withEfuse, Overlay, eq_comm]
  | some efuse =>
    rw [withEfuse, overlay_header]
    unfold Overlay
    dsimp only
    cases hwalk : efuseWalk mp efuse (rtbCfgHdrLen + bytes.length) bytes with
    | none => simp
    | some r =>
      obtain ⟨bytes', past⟩ := r
      cases past with
      | false => simp [eq_comm]
      | true => simp

theorem overlay_length_eq {bytes' : List UInt8} (h : Overlay mp efuse bytes bytes') : bytes'.length = bytes.length := by
  unfold Overlay at h
  split at h
  · rw [h]
  · exact walk_length h

/-- The header as the parser leaves it. -/
def lengthHeader (bytes : List UInt8) (high : UInt8) : CfgHeader := ⟨cfgMagic ++ [UInt8.ofNat bytes.length, high], rfl⟩

/-- With a magic and a length field: rejected by the high byte, or parsed. -/
theorem parse_header :
    rtbParseConfig mp efuse list (cfgMagic ++ [low, high] ++ bytes) =
      if high.toNat = bytes.length / 256 then
        (withEfuse mp efuse ((lengthHeader bytes high).1 ++ bytes)).bind fun buf =>
          (listItems bytes.length buf.length 0 (buf.drop rtbCfgHdrLen)).map fun items => ⟨0, list ++ items, buf⟩
      else some ⟨-1, list, (lengthHeader bytes high).1 ++ bytes⟩ := by
  have hsix : rtbCfgHdrLen = 6 := rfl
  have hlen : (cfgMagic ++ [low, high] ++ bytes).length = bytes.length + rtbCfgHdrLen := rfl
  have hset : (cfgMagic ++ [low, high] ++ bytes).set 4 (UInt8.ofNat bytes.length) = (lengthHeader bytes high).1 ++ bytes := rfl
  -- the low byte is the one just written
  have hlow : (((lengthHeader bytes high).1 ++ bytes).getD 4 0).toNat = bytes.length % 256 := UInt8.toNat_ofNat'
  have hhigh : (((lengthHeader bytes high).1 ++ bytes).getD 5 0).toNat = high.toNat := rfl
  have hsize : ((lengthHeader bytes high).1 ++ bytes).length = bytes.length + rtbCfgHdrLen := rfl
  have hmagic : ¬ (cfgMagic ++ [low, high] ++ bytes).take 4 ≠ cfgMagic := fun h => h rfl
  rw [rtbParseConfig, if_neg (by omega), if_neg (by omega), if_neg hmagic, if_neg (by omega)]
  dsimp only
  rw [hlen, Nat.add_sub_cancel, hset, hlow, hhigh, hsize, Nat.add_sub_cancel]
  by_cases h : high.toNat = bytes.length / 256
  · have hcfg : high.toNat * 256 + bytes.length % 256 = bytes.length := by omega
    rw [hcfg, if_neg (by simp), if_pos h]
    cases withEfuse mp efuse ((lengthHeader bytes high).1 ++ bytes) with
    | none => rfl
    | some buf =>
      dsimp only [Option.bind_some]
      cases listItems bytes.length buf.length 0 (buf.drop rtbCfgHdrLen) with
      | none => rfl
      | some items => rfl
  · rw [if_pos (by omega), if_neg h]

/-- All that happens once the header is accepted. -/
theorem parse_some_iff (hhigh : high.toNat = bytes.length / 256) :
    rtbParseConfig mp efuse list (cfgMagic ++ [low, high] ++ bytes) = some r ↔
      ∃ es, Overlay mp efuse bytes (body es) ∧ r = ⟨0, list ++ es, (lengthHeader bytes high).1 ++ body es⟩ := by
  have hsize : bytes.length < 2 ^ 16 := by
    have := high.toNat_lt
    omega
  rw [parse_header, if_pos hhigh]
  constructor
  · intro h
    obtain ⟨buf, hbuf, hlist⟩ := Option.bind_eq_some_iff.mp h
    obtain ⟨bytes', hoverlay, rfl⟩ := (withEfuse_iff _).mp hbuf
    rw [List.drop_left' (lengthHeader bytes high).2] at hlist
    obtain ⟨items, hitems, hr⟩ := Option.map_eq_some_iff.mp hlist
    have hlen := overlay_length_eq hoverlay
    have hbody := listItems_some (by omega) hsize hitems
    rw [hbody] at hoverlay hr
    exact ⟨items, hoverlay, hr.symm⟩
  · intro ⟨es, hoverlay, hr⟩
    have hlen := overlay_length_eq hoverlay
    have hbuf := (withEfuse_iff (lengthHeader bytes high)).mpr ⟨body es, hoverlay, rfl⟩
    have hfuel : es.length ≤ ((lengthHeader bytes high).1 ++ body es).length := by
      rw [List.length_append]
      exact Nat.le_add_left_of_le (length_le_body es)
    rw [hbuf, Option.bind_some, List.drop_left' (lengthHeader bytes high).2, listItems_body (by omega) hsize hfuel, hr,
      Option.map_some]

/-- The header of a buffer that is long enough. -/
theorem header_form {buf : List UInt8} (hmagic : buf.take 4 = cfgMagic) (hlen : 6 ≤ buf.length) :
    ∃ low high bytes, buf = cfgMagic ++ [low, high] ++ bytes := by
  have hsplit := List.take_append_drop 4 buf
  have hrest : 2 ≤ (buf.drop 4).length := by
    rw [List.length_drop]
    omega
  match hdrop : buf.drop 4 with
  | [] => simp [hdrop] at hrest
  | [b] => simp [hdrop] at hrest
  | low :: high :: bytes =>
    refine ⟨low, high, bytes, ?_⟩
    rw [hmagic, hdrop] at hsplit
    exact hsplit.symm

end

/-- What an overlay may change: with an efuse, the data of the entries it is for. -/
def Free (efuse : Option (Nat → UInt8)) (e : CfgItem) : Prop := efuse.isSome = true ∧ Listed e

/-- 0 exactly for a config, whose entries join the list, with the data the efuse gives them
    if there is one; otherwise -1, and the list stays. No access leaves the buffer. -/
def ParseExact (mp : Bool) (efuse : Option (Nat → UInt8)) (list : List CfgItem) (buf : List UInt8) : Prop :=
  ∃ r, rtbParseConfig mp efuse list buf = some r ∧
    ((r.ret = 0 ∧ ∃ es es', Tiles buf es ∧ Tiles r.buf es' ∧ List.Forall₂ (Kept (Free efuse)) es es' ∧ r.list = list ++ es') ∨
      (r.ret = -1 ∧ (∀ es, ¬ Tiles buf es) ∧ r.list = list))

/-- No bytes at all, or a wrong magic or high byte in a buffer that has them. -/
def BadHeader (buf : List UInt8) : Prop :=
  buf = [] ∨ (4 ≤ buf.length ∧ buf.take 4 ≠ cfgMagic) ∨ (6 ≤ buf.length ∧ (buf.getD 5 0).toNat ≠ (buf.length - 6) / 256)

/-- The efuse, if there is one, overruns no entry, and six bytes are there to be logged. -/
def Fits (mp : Bool) (efuse : Option (Nat → UInt8)) (es : List CfgItem) : Prop :=
  ∀ ef, efuse = some ef → Contained mp ef Listed [] es ∧ LogInside es

section

variable {mp : Bool} {efuse : Option (Nat → UInt8)} {list : List CfgItem} {buf : List UInt8} {es es' : List CfgItem} {r : Parsed}

theorem rejected_bad_header (h : rtbParseConfig mp efuse list buf = some r) (hret : r.ret ≠ 0) : BadHeader buf := by
  by_cases hnone : buf.length = 0
  · exact .inl (List.length_eq_zero_iff.mp hnone)
  · by_cases hfour : buf.length < 4
    · rw [rtbParseConfig, if_neg hnone, if_pos hfour] at h
      cases h
    · by_cases hmagic : buf.take 4 = cfgMagic
      · by_cases hsix : buf.length < rtbCfgHdrLen
        · rw [rtbParseConfig, if_neg hnone, if_neg hfour, if_neg (not_not.mpr hmagic), if_pos hsix] at h
          cases h
        · have hlen : 6 ≤ buf.length := Nat.le_of_not_lt hsix
          obtain ⟨low, high, bytes, rfl⟩ := header_form hmagic hlen
          refine .inr (.inr ⟨hlen, ?_⟩)
          intro hhigh
          obtain ⟨es, _, hr⟩ := (parse_some_iff hhigh).mp h
          rw [hr] at hret
          exact hret rfl
      · exact .inr (.inl ⟨by omega, hmagic⟩)

theorem bad_header_rejected (h : BadHeader buf) : ∃ buf', rtbParseConfig mp efuse list buf = some ⟨-1, list, buf'⟩ := by
  have hmagic : 4 ≤ buf.length → buf.take 4 ≠ cfgMagic → rtbParseConfig mp efuse list buf = some ⟨-1, list, buf⟩ := by
    intro hfour hmagic
    rw [rtbParseConfig, if_neg (by omega), if_neg (by omega), if_pos hmagic]
  rcases h with rfl | ⟨hfour, hbad⟩ | ⟨hsix, hbad⟩
  · exact ⟨[], rfl⟩
  · exact ⟨buf, hmagic hfour hbad⟩
  · by_cases hgood : buf.take 4 = cfgMagic
    · obtain ⟨low, high, bytes, rfl⟩ := header_form hgood hsix
      exact ⟨_, parse_header.trans (if_neg hbad)⟩
    · exact ⟨buf, hmagic (by omega) hgood⟩

theorem not_tiles_of_bad_header (h : BadHeader buf) : ¬ Tiles buf es := by
  intro ⟨low, high, hbuf, hhigh⟩
  rw [hbuf] at h
  rcases h with hnone | ⟨_, hmagic⟩ | ⟨_, hbad⟩
  · cases hnone
  · exact hmagic rfl
  · exact hbad hhigh

/-- The overlay of a config keeps its entries exactly when it fits. -/
theorem overlay_kept_iff :
    (∃ es', Overlay mp efuse (body es) (body es') ∧ List.Forall₂ (Kept (Free efuse)) es es') ↔ Fits mp efuse es := by
  constructor
  · intro ⟨es', hwalk, hkept⟩ ef hef
    rw [hef] at hwalk hkept
    have hlisted : List.Forall₂ (Kept Listed) es es' :=
      hkept.imp fun e e' hk => ⟨hk.header, hk.data.imp_left And.right⟩
    have hin : Contained mp ef Listed [] es := contained_of_walk (listed_or_none mp ef) hlisted (walk_fuel es) (by simp) hwalk
    obtain ⟨past, hpast, hrun⟩ := walk_overlaid hin (walk_fuel es)
    have hsame := hrun.symm.trans hwalk
    exact ⟨hin, hpast.mp (Prod.mk.inj (Option.some.inj hsame)).2⟩
  · intro h
    cases efuse with
    | none => exact ⟨es, rfl, List.forall₂_same.mpr fun _ _ => ⟨rfl, .inr rfl⟩⟩
    | some ef =>
      obtain ⟨hin, hlog⟩ := h ef rfl
      obtain ⟨past, hpast, hrun⟩ := walk_overlaid hin (walk_fuel es)
      rw [hpast.mpr hlog] at hrun
      refine ⟨overlaid mp ef [] es, hrun, ?_⟩
      exact (overlaid_kept (listed_or_none mp ef) hin).imp fun e e' hk => ⟨hk.header, hk.data.imp_left fun hl => ⟨rfl, hl⟩⟩

theorem accepted_fits (h : rtbParseConfig mp efuse list buf = some r) (htiles : Tiles buf es)
    (hkept : List.Forall₂ (Kept (Free efuse)) es es') (hlist : r.list = list ++ es') : Fits mp efuse es := by
  obtain ⟨low, high, rfl, hhigh⟩ := htiles
  obtain ⟨items, hoverlay, hr⟩ := (parse_some_iff hhigh).mp h
  rw [hr] at hlist
  have hitems : items = es' := List.append_cancel_left hlist
  rw [hitems] at hoverlay
  exact overlay_kept_iff.mp ⟨es', hoverlay, hkept⟩

/-- A buffer that is not a config, with a good header: the loops leave it. -/
theorem exact_cases (h : ParseExact mp efuse list buf) : BadHeader buf ∨ ∃ es, Tiles buf es ∧ Fits mp efuse es := by
  obtain ⟨r, hrun, ⟨hret, es, es', htiles, _, hkept, hlist⟩ | ⟨hret, _, _⟩⟩ := h
  · exact .inr ⟨es, htiles, accepted_fits hrun htiles hkept hlist⟩
  · exact .inl (rejected_bad_header hrun (by omega))

end

/-- The parser accepts exactly the format on the buffers that its header test rejects, and on
    configs that the efuse does not overrun. -/
theorem parse_exact_iff (mp : Bool) (efuse : Option (Nat → UInt8)) (list : List CfgItem) (buf : List UInt8) :
    ParseExact mp efuse list buf ↔ BadHeader buf ∨ ∃ es, Tiles buf es ∧ Fits mp efuse es := by
  constructor
  · exact exact_cases
  · intro h
    rcases h with hbad | ⟨es, ⟨low, high, hbuf, hhigh⟩, hfits⟩
    · obtain ⟨buf', hrun⟩ := bad_header_rejected hbad
      exact ⟨_, hrun, .inr ⟨rfl, fun es => not_tiles_of_bad_header hbad, rfl⟩⟩
    · obtain ⟨es', hoverlay, hkept⟩ := overlay_kept_iff.mpr hfits
      have hsame : high.toNat = (body es').length / 256 := by rw [overlay_length_eq hoverlay, hhigh]
      rw [hbuf]
      exact ⟨_, (parse_some_iff hhigh).mpr ⟨es', hoverlay, rfl⟩,
        .inl ⟨rfl, es, es', ⟨low, high, rfl, hhigh⟩, ⟨_, high, rfl, hsame⟩, hkept, rfl⟩⟩

/-- One entry whose length byte counts a byte that is not there. -/
def cutOff : List UInt8 := cfgMagic ++ [4, 0] ++ [0x0c, 0, 2, 0x1d]

theorem last_entry_too_long : rtbParseConfig false none [] cutOff = none ∧ ¬ ParseExact false none [] cutOff := by
  have hnone : rtbParseConfig false none [] cutOff = none := by decide +kernel
  refine ⟨hnone, ?_⟩
  intro ⟨r, hrun, _⟩
  rw [hnone] at hrun
  cases hrun

end AmebaLinux.Hciattach.BtConfig
