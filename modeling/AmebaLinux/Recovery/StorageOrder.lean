/-
  AmebaLinux.Recovery.StorageOrder — the partitions of a disk, in the order they arrive
  (see `AmebaLinux.Recovery.StorageMount`).

  A disk that announces N partitions leaves N bits pending; each partition clears its own
  bit and fills its own slot, so neither the moment of the mount nor what it tries depends
  on the order.

  Proved:
  - `partitions_any_order`: up to the last partition the state is pending and nothing is
    called; the last one makes the only mount attempt, with the slots, the number of
    partitions and (up to four) the devices given by the partitions alone.
-/

import AmebaLinux.Recovery.StorageMountProofs

namespace AmebaLinux.Recovery.Storage

/-- A disk that announces its partitions, with their uevents in the order of PARTN. -/
structure Disk where
  disk : Uevent
  parts : List Uevent
  few : parts.length ≤ 31
  some_part : parts ≠ []
  is_disk : disk.disk = true
  added : disk.action = .add
  known : disk.source ≠ .other
  nparts : disk.nparts = some (parts.length : Int)
  numbered : parts.map (·.partn) = (List.range parts.length).map fun i : Nat => some ((i : Int) + 1)
  part : ∀ u ∈ parts, u.action = .add ∧ u.source ≠ .other ∧ u.disk = false ∧ u.major = disk.major

/-- PARTN. -/
def number (u : Uevent) : Nat := (u.partn.getD 1).toNat

/-- What the arrival of a partition writes, apart from the state. -/
def record (e : Env) (s : St) (u : Uevent) : St := recorded e (u.partn.getD 1) u.minor s

namespace Disk

variable (d : Disk)

theorem numbers : d.parts.map number = List.range' 1 d.parts.length := by
  have h := congrArg (List.map fun p : Option Int => (p.getD 1).toNat) d.numbered
  rw [List.map_map, List.map_map] at h
  rw [List.range'_eq_map_range]
  refine Eq.trans h (List.map_congr_left ?_)
  intro i _
  simp
  omega

theorem number_bounds {u : Uevent} (hu : u ∈ d.parts) : 1 ≤ number u ∧ number u ≤ d.parts.length := by
  have h : number u ∈ List.range' 1 d.parts.length := d.numbers ▸ List.mem_map_of_mem hu
  simp only [List.mem_range'_1] at h
  omega

theorem partn_eq {u : Uevent} (hu : u ∈ d.parts) : u.partn.getD 1 = (number u : Int) := by
  have h : u.partn ∈ (List.range d.parts.length).map fun i : Nat => some ((i : Int) + 1) := d.numbered ▸ List.mem_map_of_mem hu
  obtain ⟨i, -, hi⟩ := List.mem_map.mp h
  unfold number
  rw [← hi]
  simp

theorem numbers_nodup : (d.parts.map number).Nodup := by
  rw [d.numbers]
  exact List.nodup_range'

/-- A partition that is still to come has a number that has not come. -/
theorem missing {pre tail : List Uevent} {u : Uevent} (horder : (pre ++ u :: tail).Perm d.parts) :
    number u ∉ pre.map number := by
  have hnodup : ((pre ++ u :: tail).map number).Nodup := (horder.map number).nodup_iff.mpr d.numbers_nodup
  rw [List.map_append, List.map_cons] at hnodup
  exact fun h => List.disjoint_of_nodup_append hnodup h List.mem_cons_self

end Disk

/-! ## The pending bits -/

theorem bit_getLsbD (e : Env) {i : Nat} (hi : i < 32) (k : Nat) : (bit e i).getLsbD k = decide (k = i) := by
  rw [bit, if_pos hi]
  simp only [BitVec.getLsbD_shiftLeft, BitVec.ofNat_eq_ofNat, BitVec.getLsbD_one]
  by_cases hk : k = i
  · simp [hk, hi]
  · simp [hk]
    omega

theorem partmask_getLsbD (e : Env) {n : Nat} (hn : n ≤ 31) (k : Nat) :
    (partmask e n).getLsbD k = decide (1 ≤ k ∧ k ≤ n) := by
  unfold partmask
  rw [Int.toNat_natCast]
  induction n with
  | zero =>
    simp
    omega
  | succ n ih =>
    rw [List.range_succ, List.foldl_append, List.foldl_cons, List.foldl_nil, BitVec.getLsbD_or, ih (by omega),
      bit_getLsbD e (by omega)]
    simp only [← Bool.decide_or]
    congr 1
    apply propext
    omega

theorem record_pending (e : Env) (s : St) {u : Uevent} (hu : number u < 32) (k : Nat) :
    (record e s u).pendingPartMap.getLsbD k = (s.pendingPartMap.getLsbD k && decide (k ≠ number u)) := by
  have hbit : (~~~bit e (number u)).getLsbD k = (decide (k < 32) && decide (k ≠ number u)) := by
    rw [BitVec.getLsbD_not, bit_getLsbD e hu]
    simp
  show (s.pendingPartMap &&& ~~~bit e (number u)).getLsbD k = _
  rw [BitVec.getLsbD_and, hbit, ← Bool.and_assoc]
  congr 1
  by_cases hk : k < 32
  · simp [hk]
  · rw [BitVec.getLsbD_of_ge _ _ (by omega)]
    rfl

/-- Each partition clears its own bit. -/
theorem records_pending (e : Env) (s : St) (us : List Uevent) (hus : ∀ u ∈ us, number u < 32) (k : Nat) :
    (us.foldl (record e) s).pendingPartMap.getLsbD k = (s.pendingPartMap.getLsbD k && decide (k ∉ us.map number)) := by
  induction us generalizing s with
  | nil => simp
  | cons u us ih =>
    rw [List.foldl_cons, ih _ (fun v hv => hus v (List.mem_cons_of_mem u hv)), record_pending e s (hus u List.mem_cons_self)]
    simp [not_or, Bool.and_assoc]

/-! ## The slots -/

theorem records_keep (e : Env) (s : St) (us : List Uevent) :
    (us.foldl (record e) s).storageState = s.storageState ∧ (us.foldl (record e) s).retryMountNum = s.retryMountNum ∧
      (us.foldl (record e) s).diskMajor = s.diskMajor ∧ (us.foldl (record e) s).log = s.log := by
  induction us generalizing s with
  | nil => exact ⟨rfl, rfl, rfl, rfl⟩
  | cons u us ih => exact ih (record e s u)

theorem records_numParts (e : Env) (s : St) (us : List Uevent) (hus : ∀ u ∈ us, u.partn.getD 1 ≤ s.diskNumParts) :
    (us.foldl (record e) s).diskNumParts = s.diskNumParts := by
  induction us generalizing s with
  | nil => rfl
  | cons u us ih =>
    have hsame : (record e s u).diskNumParts = s.diskNumParts := max_eq_left (hus u List.mem_cons_self)
    rw [List.foldl_cons, ih, hsame]
    intro v hv
    rw [hsame]
    exact hus v (List.mem_cons_of_mem u hv)

/-- A partition's minor number goes to the slot of its number. -/
def note (minors : List Int) (u : Uevent) : List Int := minors.set (number u - 1) u.minor

theorem records_partMinors (e : Env) (s : St) (us : List Uevent)
    (hus : ∀ u ∈ us, u.partn.getD 1 = (number u : Int) ∧ number u ≤ 31) :
    (us.foldl (record e) s).partMinors = us.foldl note s.partMinors := by
  induction us generalizing s with
  | nil => rfl
  | cons u us ih =>
    obtain ⟨hpartn, hfew⟩ := hus u List.mem_cons_self
    have hone : (record e s u).partMinors = note s.partMinors u := by
      show noteMinor (u.partn.getD 1) u.minor s.partMinors = _
      rw [hpartn, noteMinor, if_neg (by simp only [storageMaxPartitions]; omega), note]
      congr 1
      omega
    rw [List.foldl_cons, ih _ (fun v hv => hus v (List.mem_cons_of_mem u hv)), hone, List.foldl_cons]

theorem notes_perm {us vs : List Uevent} (h : us.Perm vs) (hnodup : (us.map number).Nodup)
    (hpos : ∀ u ∈ us, 1 ≤ number u) (minors : List Int) : us.foldl note minors = vs.foldl note minors := by
  refine h.foldl_eq' ?_ minors
  intro u hu v hv minors
  by_cases huv : u = v
  · rw [huv]
  · have hne : number u ≠ number v := fun heq => huv (List.inj_on_of_nodup_map hnodup hu hv heq)
    have := hpos u hu
    have := hpos v hv
    exact List.set_comm _ _ (by omega)

/-- In the order of their numbers the partitions fill slot after slot. -/
theorem notes_in_order (us : List Uevent) (k : Nat) (minors : List Int) (hus : us.map number = List.range' (k + 1) us.length)
    (hlen : k + us.length ≤ minors.length) :
    us.foldl note minors = minors.take k ++ us.map (·.minor) ++ minors.drop (k + us.length) := by
  induction us generalizing k minors with
  | nil => simp
  | cons u us ih =>
    simp only [List.map_cons, List.length_cons, List.range'_succ, List.cons.injEq] at hus hlen
    have hslot : number u - 1 = k := by omega
    rw [List.foldl_cons, note, hslot, ih (k + 1) _ hus.2 (by rw [List.length_set]; omega)]
    have hset : minors.set k u.minor = (minors.take k ++ [u.minor]) ++ minors.drop (k + 1) := by
      rw [List.set_eq_take_append_cons_drop, if_pos (by omega), List.append_assoc]
      rfl
    have hfront : (minors.take k ++ [u.minor]).length = k + 1 := by
      rw [List.length_append, List.length_take, List.length_singleton]
      omega
    rw [hset, List.take_left' hfront, ← List.drop_drop, List.drop_left' hfront, List.drop_drop]
    have hend : k + 1 + us.length = k + (us.length + 1) := by omega
    simp [hend]

/-! ## The arrivals -/

/-- A partition of the disk, while others are missing or as the last one. -/
theorem partition_step (e : Env) {s : St} {u : Uevent} (hr : s.retryMountNum = false) (hs : s.storageState = .pending)
    (hu : u.action = .add ∧ u.source ≠ .other ∧ u.disk = false ∧ u.major = s.diskMajor)
    (hpartn : u.partn.getD 1 = (number u : Int)) (hnum : 1 ≤ number u ∧ number u ≤ 31) :
    ∃ sd, handleBlockEvent e s u =
      if (record e s u).pendingPartMap = 0 then mountVolume e { record e s u with isSdcardDev := sd, storageState := .idle }
      else { record e s u with isSdcardDev := sd } := by
  obtain ⟨hadd, hknown, hpart, hmajor⟩ := hu
  refine ⟨decide (u.source = .sdcard), ?_⟩
  have hrange : ¬ (u.partn.getD 1 > storageMaxPartitions ∨ u.partn.getD 1 < 1) := by
    rw [hpartn]
    simp only [storageMaxPartitions]
    omega
  have hrecorded : handleAdded e u { s with isSdcardDev := decide (u.source = .sdcard) } =
      if (record e s u).pendingPartMap = 0 then
        { record e s u with isSdcardDev := decide (u.source = .sdcard), storageState := .idle }
      else { record e s u with isSdcardDev := decide (u.source = .sdcard) } := by
    rw [handleAdded, if_neg (by simp [hpart]), handlePartitionAdded_eq e u (by exact hr), if_neg hrange,
      if_neg (not_not.mpr hmajor)]
    rfl
  rw [handleBlockEvent_add e hknown hadd hrecorded]
  by_cases hlast : (record e s u).pendingPartMap = 0
  · rw [if_pos hlast, if_pos hlast]
    exact if_pos rfl
  · rw [if_neg hlast, if_neg hlast]
    refine if_neg ?_
    show s.storageState ≠ .idle
    rw [hs]
    decide

/-- The state after the disk itself. -/
def Disk.plugged (e : Env) (d : Disk) (s : St) : St :=
  { s with isSdcardDev := decide (d.disk.source = .sdcard), diskMajor := d.disk.major, diskMinor := d.disk.minor,
           diskNumParts := d.parts.length, pendingPartMap := partmask e d.parts.length, storageState := .pending }

theorem disk_step (e : Env) (d : Disk) {s : St} (hr : s.retryMountNum = false) :
    handleBlockEvent e s d.disk = d.plugged e s := by
  have hsome : d.parts.length ≠ 0 := fun h => d.some_part (List.length_eq_zero_iff.mp h)
  have hplugged : handleAdded e d.disk { s with isSdcardDev := decide (d.disk.source = .sdcard) } = d.plugged e s := by
    rw [handleAdded, if_pos d.is_disk, handleDiskAdded, numParts, d.nparts]
    dsimp only [Option.getD_some]
    rw [if_neg (by simpa using hsome), setState_quiet (by exact hr) (by decide)]
    rfl
  rw [handleBlockEvent_add e d.known d.added hplugged]
  exact if_neg (by simp [Disk.plugged])

theorem plugged_pending (e : Env) (d : Disk) (s : St) (pre : List Uevent) (hmem : ∀ u ∈ pre, u ∈ d.parts) (k : Nat) :
    (pre.foldl (record e) (d.plugged e s)).pendingPartMap.getLsbD k = decide (k ∈ d.parts.map number ∧ k ∉ pre.map number) := by
  have hfew := d.few
  rw [records_pending]
  · show ((partmask e d.parts.length).getLsbD k && _) = _
    rw [partmask_getLsbD e d.few, d.numbers, ← Bool.decide_and]
    congr 1
    simp only [List.mem_range'_1]
    apply propext
    constructor
    · rintro ⟨hk, hno⟩
      exact ⟨by omega, hno⟩
    · rintro ⟨hk, hno⟩
      exact ⟨by omega, hno⟩
  · intro u hu
    have := d.number_bounds (hmem u hu)
    omega

/-- The states that the partitions lead to while some are missing. -/
def Recorded (e : Env) (d : Disk) (s : St) (pre : List Uevent) : Prop :=
  ∃ sd, Lib.Machine.run (handleBlockEvent e) (d.plugged e s) pre =
    { pre.foldl (record e) (d.plugged e s) with isSdcardDev := sd }

theorem next_partition (e : Env) (d : Disk) {s : St} (hr : s.retryMountNum = false) {pre : List Uevent} {u : Uevent}
    (hpre : Recorded e d s pre) (hu : u ∈ d.parts) :
    ∃ sd, Lib.Machine.run (handleBlockEvent e) (d.plugged e s) (pre ++ [u]) =
      if ((pre ++ [u]).foldl (record e) (d.plugged e s)).pendingPartMap = 0 then
        mountVolume e { (pre ++ [u]).foldl (record e) (d.plugged e s) with isSdcardDev := sd, storageState := .idle }
      else { (pre ++ [u]).foldl (record e) (d.plugged e s) with isSdcardDev := sd } := by
  obtain ⟨sd, hrun⟩ := hpre
  obtain ⟨hstate, hretry, hmajor, -⟩ := records_keep e (d.plugged e s) pre
  obtain ⟨hadd, hknown, hpart, hsame⟩ := d.part u hu
  have hbounds := d.number_bounds hu
  have hfew := d.few
  rw [Lib.Machine.run_snoc, hrun, List.foldl_append, List.foldl_cons, List.foldl_nil]
  exact partition_step e (hretry.trans hr) hstate ⟨hadd, hknown, hpart, hsame.trans hmajor.symm⟩ (d.partn_eq hu)
    ⟨hbounds.1, by omega⟩

/-- Some of the partitions have come, in any order. -/
theorem some_partitions (e : Env) (d : Disk) {s : St} (hr : s.retryMountNum = false) (pre : List Uevent)
    (hmem : ∀ u ∈ pre, u ∈ d.parts) {v : Uevent} (hv : v ∈ d.parts) (hmissing : number v ∉ pre.map number) :
    Recorded e d s pre := by
  induction pre using List.reverseRecOn with
  | nil => exact ⟨_, rfl⟩
  | append_singleton pre u ih =>
    have hpre := ih (fun w hw => hmem w (by simp [hw])) (fun h => hmissing (by simp [h]))
    obtain ⟨sd, hrun⟩ := next_partition e d hr hpre (hmem u (by simp))
    -- the bit of the missing partition keeps the mask from being zero
    have hbit : ((pre ++ [u]).foldl (record e) (d.plugged e s)).pendingPartMap.getLsbD (number v) = true := by
      rw [plugged_pending e d s _ hmem]
      exact decide_eq_true ⟨List.mem_map_of_mem hv, hmissing⟩
    have hne : ((pre ++ [u]).foldl (record e) (d.plugged e s)).pendingPartMap ≠ 0 := by
      intro h0
      rw [h0] at hbit
      simp at hbit
    rw [if_neg hne] at hrun
    exact ⟨sd, hrun⟩

/-! ## The attempt -/

/-- A call of `mount_volume`. -/
def Call.volume : Call → Bool
  | .attempt _ => true
  | .busy => true
  | _ => false

theorem mountVolume_once (e : Env) {s : St} (hr : s.retryMountNum = false) (hs : s.storageState = .idle) :
    (mountVolume e s).diskNumParts = s.diskNumParts ∧ (mountVolume e s).partMinors = s.partMinors ∧
      ∃ calls, (mountVolume e s).log = s.log ++ .attempt (devices e s) :: calls ∧ ∀ c ∈ calls, c.volume = false := by
  rcases mountVolume_cases e hr hs with ⟨failed, dev, rest, n, -, hrun⟩ | ⟨n, hrun⟩
  · rw [hrun]
    refine ⟨rfl, rfl, _, rfl, ?_⟩
    intro c hc
    simp only [List.mem_append, List.mem_map, List.mem_cons, List.not_mem_nil, or_false] at hc
    rcases hc with ⟨_, -, rfl⟩ | rfl | rfl <;> rfl
  · rw [hrun]
    refine ⟨rfl, rfl, _, rfl, ?_⟩
    intro c hc
    obtain ⟨_, -, rfl⟩ := List.mem_map.mp hc
    rfl

/-- `part_minors` once the partitions of a disk are there. -/
def Disk.minors (d : Disk) (old : List Int) : List Int := d.parts.map (·.minor) ++ old.drop d.parts.length

/-- The devices of the partitions. -/
def Disk.nodes (d : Disk) : List Dev := d.parts.map fun u => mkdev d.disk.major u.minor

theorem devices_eq (e : Env) (d : Disk) {s : St} (old : List Int) (hn : s.diskNumParts = d.parts.length)
    (hmajor : s.diskMajor = d.disk.major) (hminors : s.partMinors = d.minors old) (hfour : d.parts.length ≤ 4) :
    devices e s = d.nodes := by
  have hsome : d.parts.length ≠ 0 := fun h => d.some_part (List.length_eq_zero_iff.mp h)
  unfold devices getDeviceNodes
  rw [if_neg (by rw [hn]; simpa using hsome)]
  dsimp only
  rw [hn, Int.toNat_natCast, min_eq_left hfour, hmajor, hminors]
  refine List.ext_getElem (by simp [Disk.nodes]) ?_
  intro i hi _
  have hi' : i < d.parts.length := by simpa using hi
  simp [Disk.nodes, Disk.minors, hi', List.getElem?_append_left]

/-- What the last partition leaves. -/
theorem all_partitions (e : Env) (d : Disk) {s : St} (hs : Inv s) {order : List Uevent} (horder : order.Perm d.parts) :
    ∃ idle : St, idle.retryMountNum = false ∧ idle.storageState = .idle ∧ idle.log = s.log ∧
      idle.diskMajor = d.disk.major ∧ idle.diskNumParts = d.parts.length ∧ idle.partMinors = d.minors s.partMinors ∧
      Lib.Machine.run (handleBlockEvent e) (d.plugged e s) order = mountVolume e idle := by
  have hmem : ∀ u ∈ order, u ∈ d.parts := fun u hu => horder.mem_iff.mp hu
  have hnodup : (order.map number).Nodup := (horder.map number).nodup_iff.mpr d.numbers_nodup
  have hfew := d.few
  rcases List.eq_nil_or_concat order with rfl | ⟨pre, u, rfl⟩
  · exact absurd (List.nil_perm.mp horder) d.some_part
  · rw [List.concat_eq_append] at *
    have hpre := some_partitions e d hs.retry pre (fun w hw => hmem w (by simp [hw])) (hmem u (by simp)) (d.missing horder)
    obtain ⟨sd, hrun⟩ := next_partition e d hs.retry hpre (hmem u (by simp))
    have hzero : ((pre ++ [u]).foldl (record e) (d.plugged e s)).pendingPartMap = 0 := by
      apply BitVec.eq_of_getLsbD_eq
      intro k _
      have hsame := (horder.map number).mem_iff (a := k)
      rw [plugged_pending e d s _ hmem, decide_eq_false fun h => h.2 (hsame.mpr h.1)]
      simp
    rw [if_pos hzero] at hrun
    obtain ⟨-, hretry, hmajor, hlog⟩ := records_keep e (d.plugged e s) (pre ++ [u])
    refine ⟨{ (pre ++ [u]).foldl (record e) (d.plugged e s) with isSdcardDev := sd, storageState := .idle },
      hretry.trans hs.retry, rfl, hlog, hmajor, ?_, ?_, hrun⟩
    · refine (records_numParts e _ _ ?_).trans rfl
      intro w hw
      have := d.number_bounds (hmem w hw)
      rw [d.partn_eq (hmem w hw)]
      show (number w : Int) ≤ d.parts.length
      omega
    · have hparts : ∀ w ∈ pre ++ [u], w.partn.getD 1 = (number w : Int) ∧ number w ≤ 31 := by
        intro w hw
        have := d.number_bounds (hmem w hw)
        exact ⟨d.partn_eq (hmem w hw), by omega⟩
      refine (records_partMinors e _ _ hparts).trans ?_
      rw [notes_perm horder hnodup fun w hw => (d.number_bounds (hmem w hw)).1]
      refine (notes_in_order d.parts 0 _ d.numbers ?_).trans ?_
      · show 0 + d.parts.length ≤ s.partMinors.length
        rw [hs.slots]
        simp only [storageMaxPartitions]
        omega
      · rw [List.take_zero, List.nil_append, Nat.zero_add]
        rfl

/-- In whatever state the disk is plugged in and in whatever order its partitions come,
    nothing is called before the last of them, which makes one attempt on what does not
    depend on the order. -/
theorem partitions_any_order (e : Env) (us : List Uevent) (d : Disk) {order : List Uevent} (horder : order.Perm d.parts) :
    (∀ pre, pre <+: order → pre ≠ order →
      (run e (us ++ d.disk :: pre)).storageState = .pending ∧ (run e (us ++ d.disk :: pre)).log = (run e us).log) ∧
    (run e (us ++ d.disk :: order)).diskNumParts = d.parts.length ∧
    (run e (us ++ d.disk :: order)).partMinors = d.minors (run e us).partMinors ∧
    ∃ devs calls, (run e (us ++ d.disk :: order)).log = (run e us).log ++ .attempt devs :: calls ∧
      (∀ c ∈ calls, c.volume = false) ∧ (d.parts.length ≤ 4 → devs = d.nodes) := by
  have hinv := inv_run e us
  have hplugged : ∀ tail, run e (us ++ d.disk :: tail) =
      Lib.Machine.run (handleBlockEvent e) (d.plugged e (run e us)) tail := by
    intro tail
    rw [run, Lib.Machine.run_append, Lib.Machine.run_cons, ← disk_step e d hinv.retry]
    rfl
  constructor
  · rintro pre ⟨tail, rfl⟩ hne
    obtain ⟨v, tail, rfl⟩ : ∃ v rest, tail = v :: rest := List.exists_cons_of_ne_nil fun h => hne (by simp [h])
    have hmem : ∀ u ∈ pre ++ v :: tail, u ∈ d.parts := fun u hu => horder.mem_iff.mp hu
    obtain ⟨sd, hrun⟩ := some_partitions e d hinv.retry pre (fun w hw => hmem w (by simp [hw])) (hmem v (by simp))
      (d.missing horder)
    obtain ⟨hstate, -, -, hlog⟩ := records_keep e (d.plugged e (run e us)) pre
    rw [hplugged, hrun]
    exact ⟨hstate, hlog⟩
  · obtain ⟨idle, hretry, hidle, hlog, hmajor, hnum, hminors, hrun⟩ := all_partitions e d hinv horder
    obtain ⟨hnum', hminors', calls, hcalls, honly⟩ := mountVolume_once e hretry hidle
    rw [hplugged, hrun, hnum', hminors', hcalls, hlog]
    exact ⟨hnum, hminors, _, calls, rfl, honly, devices_eq e d _ hnum hmajor hminors⟩

/-- Two partitions. -/
def stick : Disk where
  disk := ⟨.add, .usb, true, 8, 0, some 2, none⟩
  parts := [⟨.add, .usb, false, 8, 1, none, some 1⟩, ⟨.add, .usb, false, 8, 2, none, some 2⟩]
  few := by decide
  some_part := by decide
  is_disk := rfl
  added := rfl
  known := by decide
  nparts := rfl
  numbered := by decide
  part := by decide

theorem stick_reversed :
    stick.parts.reverse.Perm stick.parts ∧ (run alwaysMounts (stick.disk :: stick.parts.reverse)).diskNumParts = 2 ∧
      ∃ devs calls, (run alwaysMounts (stick.disk :: stick.parts.reverse)).log = .attempt devs :: calls ∧ devs = stick.nodes := by
  have hperm : stick.parts.reverse.Perm stick.parts := List.reverse_perm stick.parts
  obtain ⟨-, hnum, -, devs, calls, hlog, -, hdevs⟩ := partitions_any_order alwaysMounts [] stick hperm
  exact ⟨hperm, hnum, devs, calls, hlog, hdevs (by decide)⟩

end AmebaLinux.Recovery.Storage
