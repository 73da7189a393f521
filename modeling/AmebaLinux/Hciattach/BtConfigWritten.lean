/-
  AmebaLinux.Hciattach.BtConfigWritten — the config that `rtb_read_config` hands on
  (see `AmebaLinux.Hciattach.BtConfig`).

  `overlayByte` says, byte by byte and without the walk, what the efuse makes of an entry.
  Where every entry is as long as its overlay, no store leaves its entry, so that the walk is
  a map over the entries (`walk_of_long`), and the list is written back as it was read.

  Proved:
  - `read_config_written`: a well-formed file with entries that are long enough comes back
    with the same headers, the overlay's data and its own length.
-/

import AmebaLinux.Hciattach.BtConfigProofs

namespace AmebaLinux.Hciattach.BtConfig

open AmebaLinux.Lib

/-! ## The overlay, by bytes -/

/-- The bytes of 0x0278 that the efuse gives. -/
def Given (efuse : Nat → UInt8) (i : Nat) : Prop :=
  efuse 0x0e ≠ 0xff ∧
    (i = 0 ∨ (i = 1 ∧ efuse 0x0e &&& 0x02 ≠ 0) ∨ (2 ≤ i ∧ i ≤ 5 ∧ efuse 0x0e &&& 0x04 ≠ 0) ∨
      (6 ≤ i ∧ i ≤ 7 ∧ efuse 0x0e &&& 0x20 ≠ 0))

instance (efuse : Nat → UInt8) : DecidablePred (Given efuse) := fun _ => inferInstanceAs (Decidable (_ ∧ _))

/-- Byte `i` of an entry's data, after the overlay: flow control is off in MP mode, the
    address is the efuse's from its end, the rest are bytes of the efuse. -/
def overlayByte (mp : Bool) (efuse : Nat → UInt8) (offset : UInt16) (i : Nat) (b : UInt8) : UInt8 :=
  if offset = 0x0018 then if i = 0 ∧ mp = true then b &&& ~~~0x04 else b
  else if offset = 0x0030 then if i < 6 ∧ ∃ j < 6, efuse (4 + j) ≠ 0xff then efuse (9 - i) else b
  else if offset = 0x0278 then if Given efuse i then efuse (0x0e + i) else b
  else if offset = 0x0282 then if efuse (0x18 + i) ≠ 0xff then efuse (0x18 + i) else b
  else if offset = 0x028a then if efuse (0x20 + i) ≠ 0xff then efuse (0x20 + i) else b
  else b

/-- The overlay keeps the offset and the length. -/
def CfgItem.overlay (mp : Bool) (efuse : Nat → UInt8) (e : CfgItem) : CfgItem :=
  ⟨e.offset, e.data.mapIdx (overlayByte mp efuse e.offset), by rw [List.length_mapIdx]; exact e.short⟩

section

variable (mp : Bool) (efuse : Nat → UInt8)

theorem macAssigned_iff : macAssigned efuse = true ↔ ∃ j < 6, efuse (4 + j) ≠ 0xff := by
  simp only [macAssigned, Bool.or_eq_true, decide_eq_true_eq]
  constructor
  · intro h
    rcases h with ((((h | h) | h) | h) | h) | h
    · exact ⟨0, by omega, h⟩
    · exact ⟨1, by omega, h⟩
    · exact ⟨2, by omega, h⟩
    · exact ⟨3, by omega, h⟩
    · exact ⟨4, by omega, h⟩
    · exact ⟨5, by omega, h⟩
  · intro ⟨j, hj, h⟩
    interval_cases j <;> simp [h]

theorem elemAt_efuseBytes {base len i : Nat} (hi : i < len) (hbase : 0x1B0 ≤ base) (b : UInt8) :
    Stores.elemAt (efuseBytes efuse base len) i b =
      if efuse (base - 0x1B0 + i) ≠ 0xff then efuse (base - 0x1B0 + i) else b := by
  have hindex : lefuse (base + i) = base - 0x1B0 + i := by
    unfold lefuse
    omega
  rw [efuseBytes, Stores.elemAt_range, ← hindex]
  exact if_congr (and_iff_right hi) rfl rfl

theorem elemAt_mac (len i : Nat) (b : UInt8) :
    Stores.elemAt (stores mp efuse 0x0030 len) i b = overlayByte mp efuse 0x0030 i b := by
  have hall : ((List.range hciMacAddrLen).map fun i => (i, fun _ : UInt8 => efuse (4 + hciMacAddrLen - 1 - i))) =
      (List.range 6).filterMap fun j => if True then some (j, fun _ => efuse (9 - j)) else none := by
    simp [hciMacAddrLen]
  have hstores : stores mp efuse 0x0030 len = if macAssigned efuse = true then
      (List.range 6).filterMap fun j => if True then some (j, fun _ => efuse (9 - j)) else none else [] := by
    rw [← hall]
    rfl
  have hbyte : overlayByte mp efuse 0x0030 i b =
      if i < 6 ∧ ∃ j < 6, efuse (4 + j) ≠ 0xff then efuse (9 - i) else b := rfl
  rw [hstores, hbyte, Stores.elemAt_if, Stores.elemAt_range, ← ite_and]
  refine if_congr ?_ rfl rfl
  rw [and_true, macAssigned_iff, and_comm]

theorem elemAt_given (len i : Nat) (b : UInt8) :
    Stores.elemAt (stores mp efuse 0x0278 len) i b = overlayByte mp efuse 0x0278 i b := by
  have hstores : stores mp efuse 0x0278 len =
      if efuse 0x0e ≠ 0xff then
        [(0, fun _ => efuse 0x0e)] ++
        (if efuse 0x0e &&& 0x02 ≠ 0 then [(1, fun _ => efuse 0x0f)] else []) ++
        (if efuse 0x0e &&& 0x04 ≠ 0 then
          [(2, fun _ => efuse 0x10), (3, fun _ => efuse 0x11), (4, fun _ => efuse 0x12), (5, fun _ => efuse 0x13)] else []) ++
        (if efuse 0x0e &&& 0x20 ≠ 0 then [(6, fun _ => efuse 0x14), (7, fun _ => efuse 0x15)] else [])
      else [] := rfl
  have hbyte : overlayByte mp efuse 0x0278 i b = if Given efuse i then efuse (0x0e + i) else b := rfl
  rw [hstores, hbyte]
  simp only [Stores.elemAt_if, Stores.elemAt_append, Stores.elemAt_cons, Stores.elemAt_nil]
  by_cases hi : i < 8
  · interval_cases i <;> simp [Given, ite_and]
  · obtain ⟨k, rfl⟩ := Nat.exists_eq_add_of_le' (Nat.le_of_not_lt hi)
    simp [Given]

theorem elemAt_flow (len i : Nat) (b : UInt8) :
    Stores.elemAt (stores mp efuse 0x0018 len) i b = overlayByte mp efuse 0x0018 i b := by
  have hstores : stores mp efuse 0x0018 len = if mp = true then [(0, fun b => b &&& ~~~0x04)] else [] := rfl
  have hbyte : overlayByte mp efuse 0x0018 i b = if i = 0 ∧ mp = true then b &&& ~~~0x04 else b := rfl
  rw [hstores, hbyte, Stores.elemAt_if, Stores.elemAt_cons, Stores.elemAt_nil, ← ite_and]
  exact if_congr (by rw [and_comm, eq_comm]) rfl rfl

/-- The stores of an entry are its overlay. -/
theorem elemAt_stores (offset : UInt16) {len i : Nat} (hi : i < len) (b : UInt8) :
    Stores.elemAt (stores mp efuse offset len) i b = overlayByte mp efuse offset i b := by
  by_cases h18 : offset = 0x0018
  · rw [h18, elemAt_flow]
  by_cases h30 : offset = 0x0030
  · rw [h30, elemAt_mac]
  by_cases h278 : offset = 0x0278
  · rw [h278, elemAt_given]
  unfold stores overlayByte
  rw [if_neg h18, if_neg h30, if_neg h278, if_neg h18, if_neg h30, if_neg h278]
  by_cases h282 : offset = 0x0282
  · rw [if_pos h282, if_pos h282, elemAt_efuseBytes efuse hi (by omega)]
  rw [if_neg h282, if_neg h282]
  by_cases h28a : offset = 0x028a
  · rw [if_pos h28a, if_pos h28a, elemAt_efuseBytes efuse hi (by omega)]
  rw [if_neg h28a, if_neg h28a, Stores.elemAt_nil]

theorem stored_eq_overlay (e : CfgItem) : e.stored (e.stores mp efuse) = e.overlay mp efuse := by
  unfold CfgItem.stored CfgItem.overlay
  rw [CfgItem.mk.injEq]
  exact ⟨rfl, Stores.apply_eq_mapIdx fun i b hi => elemAt_stores mp efuse e.offset hi b⟩

@[simp] theorem overlay_length (e : CfgItem) : (e.overlay mp efuse).data.length = e.data.length := List.length_mapIdx

end

/-! ## Entries that are long enough -/

/-- The data are as long as the overlay of the entry, and as what `rtb_read_config` reads. -/
structure LongEnough (e : CfgItem) : Prop where
  flow : e.offset = 0x0018 → 1 ≤ e.data.length
  address : e.offset = 0x0030 → 6 ≤ e.data.length
  power : e.offset = 0x0278 → 8 ≤ e.data.length
  baud : e.offset = 0x000c → 4 ≤ e.data.length

section

variable {mp : Bool} {efuse : Nat → UInt8} {e : CfgItem} {es : List CfgItem}

theorem efuseBytes_inside {base len : Nat} {s : Stores.Store UInt8} (h : s ∈ efuseBytes efuse base len) : s.1 < len := by
  obtain ⟨i, hi, hs⟩ := List.mem_filterMap.mp h
  have hs' := Option.some.inj (Option.ite_none_right_eq_some.mp hs).2
  rw [← hs']
  exact List.mem_range.mp hi

theorem stores_inside (h : LongEnough e) : ∀ s ∈ e.stores mp efuse, s.1 < e.data.length := by
  intro s hs
  unfold CfgItem.stores stores at hs
  by_cases h18 : e.offset = 0x0018
  · have hlen := h.flow h18
    rw [if_pos h18, List.mem_ite_nil_right, List.mem_singleton] at hs
    rw [hs.2]
    exact hlen
  rw [if_neg h18] at hs
  by_cases h30 : e.offset = 0x0030
  · have hlen := h.address h30
    rw [if_pos h30, List.mem_ite_nil_right] at hs
    obtain ⟨i, hi, rfl⟩ := List.mem_map.mp hs.2
    exact Nat.lt_of_lt_of_le (List.mem_range.mp hi) hlen
  rw [if_neg h30] at hs
  by_cases h278 : e.offset = 0x0278
  · have hlen := h.power h278
    rw [if_pos h278] at hs
    simp only [List.mem_append, List.mem_ite_nil_right, List.mem_cons, List.not_mem_nil, or_false] at hs
    rcases hs with ⟨_, ((rfl | ⟨_, rfl⟩) | ⟨_, rfl | rfl | rfl | rfl⟩) | ⟨_, rfl | rfl⟩⟩ <;> dsimp only <;> omega
  rw [if_neg h278] at hs
  by_cases h282 : e.offset = 0x0282
  · rw [if_pos h282] at hs
    exact efuseBytes_inside hs
  rw [if_neg h282, List.mem_ite_nil_right] at hs
  exact efuseBytes_inside hs.2

theorem past_none (h : LongEnough e) : Stores.past e.data.length (Stores.past 3 [] ++ e.stores mp efuse) = [] :=
  Stores.past_eq_nil (stores_inside h)

theorem contained_of_long {free : CfgItem → Prop} (h : ∀ e ∈ es, LongEnough e) : Contained mp efuse free [] es := by
  induction es with
  | nil => rfl
  | cons e es ih =>
    obtain ⟨he, hes⟩ := List.forall_mem_cons.mp h
    refine ⟨rfl, .inr rfl, ?_⟩
    rw [past_none he]
    exact ih hes

theorem overlaid_of_long (h : ∀ e ∈ es, LongEnough e) : overlaid mp efuse [] es = es.map (CfgItem.overlay mp efuse) := by
  induction es with
  | nil => rfl
  | cons e es ih =>
    obtain ⟨he, hes⟩ := List.forall_mem_cons.mp h
    have hfirst : e.stored (Stores.past 3 [] ++ e.stores mp efuse) = e.overlay mp efuse := stored_eq_overlay mp efuse e
    rw [overlaid, past_none he, hfirst, ih hes, List.map_cons]

theorem logInside_of_long (h : ∀ e ∈ es, LongEnough e) : LogInside es := by
  induction es with
  | nil => trivial
  | cons e es ih =>
    obtain ⟨he, hes⟩ := List.forall_mem_cons.mp h
    refine ⟨?_, ih hes⟩
    unfold logged
    split
    · rename_i h30
      exact Nat.le_add_right_of_le (he.address h30)
    · exact Nat.zero_le _

/-- The walk is a map over the entries. -/
theorem walk_of_long (h : ∀ e ∈ es, LongEnough e) :
    Overlay mp (some efuse) (body es) (body (es.map (CfgItem.overlay mp efuse))) := by
  have hin : Contained mp efuse Listed [] es := contained_of_long h
  obtain ⟨past, hpast, hwalk⟩ := walk_overlaid hin (walk_fuel es)
  rw [hpast.mpr (logInside_of_long h), overlaid_of_long h] at hwalk
  exact hwalk

theorem longEnough_overlay (h : LongEnough e) : LongEnough (e.overlay mp efuse) := by
  have hlen := overlay_length mp efuse e
  exact ⟨hlen ▸ h.flow, hlen ▸ h.address, hlen ▸ h.power, hlen ▸ h.baud⟩

theorem item_some (cfg : RtbCfg) (h : LongEnough e) : ∃ cfg', cfg.item e = some cfg' := by
  unfold RtbCfg.item
  split
  · rename_i hc
    rw [if_neg (Nat.not_lt.mpr (h.baud hc))]
    exact ⟨_, rfl⟩
  · split
    · rename_i h18
      have hlen := h.flow h18
      split
      · split
        · rename_i hnone
          simp [hnone] at hlen
        · exact ⟨_, rfl⟩
      · exact ⟨_, rfl⟩
    · exact ⟨_, rfl⟩

theorem items_some (cfg : RtbCfg) (h : ∀ e ∈ es, LongEnough e) : ∃ cfg', cfg.items es = some cfg' := by
  induction es generalizing cfg with
  | nil => exact ⟨cfg, rfl⟩
  | cons e es ih =>
    obtain ⟨he, hes⟩ := List.forall_mem_cons.mp h
    obtain ⟨next, hnext⟩ := item_some cfg he
    rw [RtbCfg.items, hnext]
    exact ih next hes

theorem sum_body (es : List CfgItem) : (es.map fun n => 3 + n.data.length).sum = (body es).length := by
  induction es with
  | nil => rfl
  | cons e es ih =>
    rw [List.map_cons, List.sum_cons, ih, body_cons_length]
    omega

theorem body_overlay_length (es : List CfgItem) : (body (es.map (CfgItem.overlay mp efuse))).length = (body es).length := by
  rw [← sum_body, ← sum_body, List.map_map]
  refine congrArg List.sum (List.map_congr_left fun e _ => ?_)
  exact congrArg (3 + ·) (overlay_length mp efuse e)

end

/-! ## The file written back -/

/-- A well-formed config comes back with the same entries, the overlay's data and the length
    of the file, whatever the efuse holds and in either mode. -/
theorem read_config_written (mp : Bool) (efuse : Nat → UInt8) (cfg : RtbCfg) (file : List UInt8) (es : List CfgItem)
    (htiles : Tiles file es) (hlong : ∀ e ∈ es, LongEnough e) (hsize : file.length ≤ 65535) :
    ∃ cfg', rtbReadConfig mp (some efuse) cfg (some file) =
      some (some (cfgMagic ++ [UInt8.ofNat (body es).length, UInt8.ofNat ((body es).length / 256)] ++
        body (es.map (CfgItem.overlay mp efuse)), file.length), cfg') := by
  obtain ⟨low, high, rfl, hhigh⟩ := htiles
  have hlen : (cfgMagic ++ [low, high] ++ body es).length = 6 + (body es).length := by
    rw [List.length_append, Nat.add_right_cancel_iff]
    rfl
  have hparse : rtbParseConfig mp (some efuse) [] (cfgMagic ++ [low, high] ++ body es) = some
      ⟨0, es.map (CfgItem.overlay mp efuse), (lengthHeader (body es) high).1 ++ body (es.map (CfgItem.overlay mp efuse))⟩ :=
    (parse_some_iff hhigh).mpr ⟨_, walk_of_long hlong, rfl⟩
  have hlong' : ∀ e ∈ es.map (CfgItem.overlay mp efuse), LongEnough e := by
    intro e he
    obtain ⟨e', he', rfl⟩ := List.mem_map.mp he
    exact longEnough_overlay (hlong e' he')
  obtain ⟨cfg', hitems⟩ := items_some cfg hlong'
  refine ⟨cfg', ?_⟩
  have hsum := (sum_body (es.map (CfgItem.overlay mp efuse))).trans (body_overlay_length es)
  have hconfig : (6 + (body es).length) % 2 ^ 16 = 6 + (body es).length := Nat.mod_eq_of_lt (by omega)
  have hdlen : (body es).length % 2 ^ 16 = (body es).length := Nat.mod_eq_of_lt (by omega)
  rw [rtbReadConfig, hparse]
  dsimp only
  rw [hitems]
  dsimp only
  rw [hsum, hconfig, hdlen, hlen, if_pos]
  rw [List.length_append, body_overlay_length]
  rfl

theorem flow_short : [(0x05 : UInt8)].length < 256 := by decide

theorem address_short : [(1 : UInt8), 2, 3, 4, 5, 6].length < 256 := by decide

/-- Flow control and parity on, and an address. -/
def flowEntry : CfgItem := ⟨0x0018, [0x05], flow_short⟩
def addressEntry : CfgItem := ⟨0x0030, [1, 2, 3, 4, 5, 6], address_short⟩

theorem flow_and_address_written :
    ∃ cfg', rtbReadConfig true (some burnt) ⟨true, 0, 0, 0, 0⟩ (some (cfgMagic ++ [0, 0] ++ body [flowEntry, addressEntry])) =
      some (some (cfgMagic ++ [13, 0] ++ [0x18, 0, 1, 0x01] ++ [0x30, 0, 6, 0x19, 0x18, 0x17, 0x16, 0x15, 0x14], 19), cfg') := by
  refine read_config_written true burnt ⟨true, 0, 0, 0, 0⟩ _ [flowEntry, addressEntry] ⟨0, 0, rfl, rfl⟩ ?_ (by decide)
  intro e he
  rcases List.mem_pair.mp he with rfl | rfl
  · exact ⟨by decide, by decide, by decide, by decide⟩
  · exact ⟨by decide, by decide, by decide, by decide⟩

end AmebaLinux.Hciattach.BtConfig
