/-
  AmebaLinux.Adb.Packets — the packets of an adb transport on the wire (`send_packet`,
  `check_header` and `check_data` of `adb/transport.c`; `remote_read` and `remote_write` of
  `adb/transport_local.c`, which those of `adb/transport_usb.c` follow).

  Proved:
  (1) A sequence of packets is read back as it was written, however the bytes arrive, and
      whatever is read was well formed (`packet_stream`).
  (2) One changed byte is found unless it is in `arg0` or `arg1` (`changed_byte_accepted_iff`);
      the length is not looked at there.
-/

import AmebaLinux.Lib.Stream
import AmebaLinux.Lib.Words

namespace AmebaLinux.Adb.Packets

open AmebaLinux.Lib.Stream AmebaLinux.Lib.Words

/-- `MAX_PAYLOAD`. -/
def maxPayload : Nat := 4096

structure Amessage where
  command : UInt32
  arg0 : UInt32
  arg1 : UInt32
  dataLength : UInt32
  dataCheck : UInt32
  magic : UInt32
deriving DecidableEq, Repr

/-- A packet and what its buffer holds. -/
structure Apacket where
  msg : Amessage
  data : List UInt8
deriving DecidableEq, Repr

/-- `sizeof(amessage)`. -/
def messageSize : Nat := 24

def sum (data : List UInt8) : UInt32 := data.foldl (fun s b => s + b.toUInt32) 0

/-- `send_packet`, up to handing the packet on. -/
def sendPacket (p : Apacket) : Apacket :=
  { p with msg := { p.msg with
      magic := p.msg.command ^^^ 0xffffffff
      dataCheck := sum (p.data.take p.msg.dataLength.toNat) } }

def checkHeader (m : Amessage) : Bool := m.magic = m.command ^^^ 0xffffffff && m.dataLength.toNat ≤ maxPayload

def checkData (m : Amessage) (data : List UInt8) : Bool := sum data = m.dataCheck

/-! ## The wire -/

def Amessage.bytes (m : Amessage) : List UInt8 :=
  fieldBytes m.command ++ fieldBytes m.arg0 ++ fieldBytes m.arg1 ++ fieldBytes m.dataLength ++ fieldBytes m.dataCheck ++
    fieldBytes m.magic

def Amessage.ofBytes (l : List UInt8) : Amessage := ⟨field l 0, field l 1, field l 2, field l 3, field l 4, field l 5⟩

def remoteWrite (p : Apacket) : List UInt8 := p.msg.bytes ++ p.data.take p.msg.dataLength.toNat

def remoteRead : StateT (List Answer) Option Apacket := do
  let header ← readx messageSize
  let m := Amessage.ofBytes header
  if checkHeader m then do
    let data ← readx m.dataLength.toNat
    if checkData m data then pure ⟨m, data⟩ else failure
  else failure

/-- The data pump of `output_thread`, for `n` packets. -/
def readPackets : Nat → StateT (List Answer) Option (List Apacket)
  | 0 => pure []
  | n + 1 => do
    let p ← remoteRead
    let ps ← readPackets n
    pure (p :: ps)

/-! ## What is accepted -/

structure WellFormed (p : Apacket) : Prop where
  magic : p.msg.magic = p.msg.command ^^^ 0xffffffff
  small : p.msg.dataLength.toNat ≤ maxPayload
  length : p.data.length = p.msg.dataLength.toNat
  check : sum p.data = p.msg.dataCheck

/-- A packet is well formed once `send_packet` has filled in its sum and its magic. -/
theorem sendPacket_wellFormed {p : Apacket} (length : p.data.length = p.msg.dataLength.toNat)
    (small : p.msg.dataLength.toNat ≤ maxPayload) : WellFormed (sendPacket p) :=
  ⟨rfl, small, length, by simp [sendPacket, ← length]⟩

/-- The reader over plain bytes. -/
def parse : StateT (List UInt8) Option Apacket := do
  let header ← take messageSize
  let m := Amessage.ofBytes header
  if checkHeader m then do
    let data ← take m.dataLength.toNat
    if checkData m data then pure ⟨m, data⟩ else failure
  else failure

def parseMany : Nat → StateT (List UInt8) Option (List Apacket)
  | 0 => pure []
  | n + 1 => do
    let p ← parse
    let ps ← parseMany n
    pure (p :: ps)

theorem refines_remoteRead : Refines remoteRead parse :=
  (refines_readx _).bind fun _ => .ite ((refines_readx _).bind fun _ => .ite (refines_pure _) refines_failure) refines_failure

theorem refines_readPackets (n : Nat) : Refines (readPackets n) (parseMany n) := by
  induction n with
  | zero => exact refines_pure []
  | succ n ih => exact refines_remoteRead.bind fun p => ih.bind fun ps => refines_pure (p :: ps)

@[simp] theorem bytes_length (m : Amessage) : m.bytes.length = messageSize := by
  simp [Amessage.bytes, messageSize]

theorem ofBytes_bytes (m : Amessage) (rest : List UInt8) : Amessage.ofBytes (m.bytes ++ rest) = m := by
  have c0 := field_append [] m.command
  have c1 := field_append (fieldBytes m.command) m.arg0
  have c2 := field_append (fieldBytes m.command ++ fieldBytes m.arg0) m.arg1
  have c3 := field_append (fieldBytes m.command ++ fieldBytes m.arg0 ++ fieldBytes m.arg1) m.dataLength
  have c4 := field_append (fieldBytes m.command ++ fieldBytes m.arg0 ++ fieldBytes m.arg1 ++ fieldBytes m.dataLength) m.dataCheck
  have c5 := field_append (fieldBytes m.command ++ fieldBytes m.arg0 ++ fieldBytes m.arg1 ++ fieldBytes m.dataLength ++
    fieldBytes m.dataCheck) m.magic
  simp only [List.append_assoc, List.nil_append] at c0 c1 c2 c3 c4 c5
  simp only [Amessage.ofBytes, Amessage.bytes, List.append_assoc]
  rw [c0 _ 0 rfl, c1 _ 1 (by simp), c2 _ 2 (by simp), c3 _ 3 (by simp), c4 _ 4 (by simp), c5 _ 5 (by simp)]

theorem bytes_ofBytes {l : List UInt8} (length : l.length = messageSize) : (Amessage.ofBytes l).bytes = l := by
  have size : l.length = 24 := length
  simp only [Amessage.bytes, Amessage.ofBytes]
  rw [fieldBytes_field (by omega), fieldBytes_field (by omega), fieldBytes_field (by omega), fieldBytes_field (by omega),
    fieldBytes_field (by omega), fieldBytes_field (by omega)]
  have join : ∀ k, l.take k ++ (l.drop k).take 4 = l.take (k + 4) := fun k => List.take_add.symm
  have first : (l.drop (4 * 0)).take 4 = l.take 4 := rfl
  rw [first, join 4, join 8, join 12, join 16, join 20]
  exact List.take_of_length_le (by omega)

/-- What a reading needs. -/
structure Reads (l : List UInt8) : Prop where
  header : messageSize ≤ l.length
  magic : field l 5 = field l 0 ^^^ 0xffffffff
  small : (field l 3).toNat ≤ maxPayload
  data : messageSize + (field l 3).toNat ≤ l.length
  check : sum ((l.drop messageSize).take (field l 3).toNat) = field l 4

theorem ofBytes_take (l : List UInt8) : Amessage.ofBytes (l.take messageSize) = Amessage.ofBytes l := by
  simp [Amessage.ofBytes, field_take, messageSize]

/-- What is read, and what is left. -/
def parsed (l : List UInt8) : Apacket × List UInt8 :=
  (⟨Amessage.ofBytes l, (l.drop messageSize).take (field l 3).toNat⟩, l.drop (messageSize + (field l 3).toNat))

theorem parse_eq_some_iff (l : List UInt8) (r : Apacket × List UInt8) :
    parse.run l = some r ↔ Reads l ∧ parsed l = r := by
  have header : checkHeader (Amessage.ofBytes l) = true ↔
      field l 5 = field l 0 ^^^ 0xffffffff ∧ (field l 3).toNat ≤ maxPayload := by
    rw [checkHeader, Bool.and_eq_true, decide_eq_true_iff, decide_eq_true_iff]
    rfl
  have data : ∀ d, checkData (Amessage.ofBytes l) d = true ↔ sum d = field l 4 := by
    intro d
    rw [checkData, decide_eq_true_iff]
    rfl
  constructor
  · intro eq
    obtain ⟨h, l₁, first, eq⟩ := bind_run_iff.mp eq
    obtain ⟨enough, pair⟩ := take_run_iff.mp first
    obtain ⟨rfl, rfl⟩ := Prod.mk.inj pair
    simp only [ofBytes_take] at eq
    obtain ⟨checked, eq⟩ := check_run_iff.mp eq
    obtain ⟨d, l₂, second, eq⟩ := bind_run_iff.mp eq
    obtain ⟨enough', pair⟩ := take_run_iff.mp second
    obtain ⟨rfl, rfl⟩ := Prod.mk.inj pair
    obtain ⟨good, eq⟩ := check_run_iff.mp eq
    have magic := header.mp checked
    simp only [List.length_drop] at enough'
    refine ⟨⟨enough, magic.1, magic.2, ?_, (data _).mp good⟩, ?_⟩
    · exact Nat.add_le_of_le_sub' enough enough'
    · rw [← pure_run_iff.mp eq, parsed, List.drop_drop]
      rfl
  · intro ⟨reads, eq⟩
    refine bind_run_iff.mpr ⟨_, _, take_run_iff.mpr ⟨reads.header, rfl⟩, ?_⟩
    simp only [ofBytes_take]
    refine check_run_iff.mpr ⟨header.mpr ⟨reads.magic, reads.small⟩, ?_⟩
    have enough : (field l 3).toNat ≤ (l.drop messageSize).length := by
      have := reads.data
      simp only [List.length_drop]
      omega
    refine bind_run_iff.mpr ⟨_, _, take_run_iff.mpr ⟨enough, rfl⟩, ?_⟩
    refine check_run_iff.mpr ⟨(data _).mpr reads.check, ?_⟩
    rw [pure_run_iff, ← eq, parsed, List.drop_drop]
    rfl

theorem parse_isSome_iff (l : List UInt8) : (parse.run l).isSome = true ↔ Reads l := by
  rw [Option.isSome_iff_exists]
  constructor
  · intro ⟨r, eq⟩
    exact ((parse_eq_some_iff l r).mp eq).1
  · intro reads
    exact ⟨_, (parse_eq_some_iff l _).mpr ⟨reads, rfl⟩⟩

theorem field_remoteWrite (p : Apacket) (rest : List UInt8) :
    Amessage.ofBytes (remoteWrite p ++ rest) = p.msg := by
  rw [remoteWrite, List.append_assoc, ofBytes_bytes]

theorem WellFormed.reads {p : Apacket} (h : WellFormed p) (rest : List UInt8) : Reads (remoteWrite p ++ rest) := by
  have msg := field_remoteWrite p rest
  have f0 : field (remoteWrite p ++ rest) 0 = p.msg.command := congrArg Amessage.command msg
  have f3 : field (remoteWrite p ++ rest) 3 = p.msg.dataLength := congrArg Amessage.dataLength msg
  have f4 : field (remoteWrite p ++ rest) 4 = p.msg.dataCheck := congrArg Amessage.dataCheck msg
  have f5 : field (remoteWrite p ++ rest) 5 = p.msg.magic := congrArg Amessage.magic msg
  have whole : remoteWrite p = p.msg.bytes ++ p.data := by rw [remoteWrite, ← h.length, List.take_length]
  have length : (remoteWrite p ++ rest).length = messageSize + p.data.length + rest.length := by simp [whole, Nat.add_assoc]
  refine ⟨by omega, ?_, ?_, ?_, ?_⟩
  · rw [f0, f5, h.magic]
  · rw [f3]
    exact h.small
  · rw [f3, ← h.length]
    omega
  · rw [f3, f4, ← h.check, whole, List.append_assoc, ← bytes_length p.msg, List.drop_left, ← h.length, List.take_left]

/-- A packet is read exactly if it is well formed and its bytes come next. -/
theorem parse_iff (l : List UInt8) (p : Apacket) (rest : List UInt8) :
    parse.run l = some (p, rest) ↔ WellFormed p ∧ l = remoteWrite p ++ rest := by
  constructor
  · intro eq
    obtain ⟨r, pair⟩ := (parse_eq_some_iff _ _).mp eq
    obtain ⟨rfl, rfl⟩ := Prod.mk.inj pair
    have size := r.data
    have length : ((l.drop messageSize).take (field l 3).toNat).length = (field l 3).toNat := by simp; omega
    refine ⟨⟨r.magic, r.small, length, r.check⟩, ?_⟩
    have head : (Amessage.ofBytes l).bytes = l.take messageSize := by
      rw [← ofBytes_take]
      exact bytes_ofBytes (by simpa using r.header)
    rw [remoteWrite, head, show (Amessage.ofBytes l).dataLength = field l 3 from rfl, List.take_take, Nat.min_self,
      List.append_assoc, ← List.drop_drop, List.take_append_drop, List.take_append_drop]
  · intro ⟨wf, eq⟩
    rw [eq, parse_eq_some_iff]
    refine ⟨wf.reads rest, ?_⟩
    rw [parsed, field_remoteWrite]
    have f3 : field (remoteWrite p ++ rest) 3 = p.msg.dataLength := congrArg Amessage.dataLength (field_remoteWrite p rest)
    have whole : remoteWrite p = p.msg.bytes ++ p.data := by rw [remoteWrite, ← wf.length, List.take_length]
    have skip : messageSize + p.data.length = (p.msg.bytes ++ p.data).length := by simp
    rw [f3, ← wf.length, whole, skip, List.drop_left, List.append_assoc, ← bytes_length p.msg, List.drop_left, List.take_left]

theorem parseMany_iff (n : Nat) (l : List UInt8) (ps : List Apacket) (rest : List UInt8) :
    (parseMany n).run l = some (ps, rest) ↔
      ps.length = n ∧ (∀ p ∈ ps, WellFormed p) ∧ l = ps.flatMap remoteWrite ++ rest := by
  induction n generalizing l ps with
  | zero =>
    rw [parseMany, pure_run_iff, Prod.mk.injEq]
    constructor
    · intro ⟨empty, same⟩
      simp [← empty, same]
    · intro ⟨empty, _, same⟩
      have empty := List.length_eq_zero_iff.mp empty
      simp [empty, same]
  | succ n ih =>
    rw [parseMany]
    constructor
    · intro eq
      obtain ⟨p, l₁, first, eq⟩ := bind_run_iff.mp eq
      obtain ⟨ps', l₂, others, eq⟩ := bind_run_iff.mp eq
      obtain ⟨rfl, rfl⟩ := Prod.mk.inj (pure_run_iff.mp eq)
      obtain ⟨wf, rfl⟩ := (parse_iff _ _ _).mp first
      obtain ⟨rfl, wfs, rfl⟩ := (ih _ _).mp others
      exact ⟨rfl, by simpa using ⟨wf, wfs⟩, by simp⟩
    · intro ⟨length, wf, eq⟩
      cases ps with
      | nil => simp at length
      | cons p ps =>
        have first := (parse_iff l p (ps.flatMap remoteWrite ++ rest)).mpr ⟨wf p (by simp), by simpa using eq⟩
        have others := (ih _ _).mpr ⟨by simpa using length, fun q mem => wf q (by simp [mem]), rfl⟩
        exact bind_run_iff.mpr ⟨p, _, first, bind_run_iff.mpr ⟨ps, rest, others, pure_run_iff.mpr rfl⟩⟩

/-- However the bytes arrive, `n` packets are read exactly if they are well formed and were
    written one after the other; what follows them is left. -/
theorem packet_stream (n : Nat) (src : List Answer) (ps : List Apacket) (rest : List UInt8) :
    (∃ src', (readPackets n).run src = some (ps, src') ∧ bytes src' = rest) ↔
      ps.length = n ∧ (∀ p ∈ ps, WellFormed p) ∧ bytes src = ps.flatMap remoteWrite ++ rest := by
  rw [← parseMany_iff, ← refines_readPackets n src, Option.map_eq_some_iff]
  constructor
  · intro ⟨src', eq, left⟩
    exact ⟨(ps, src'), eq, by rw [left]⟩
  · intro ⟨r, eq, pair⟩
    obtain ⟨got, left⟩ := Prod.mk.inj pair
    exact ⟨r.2, by rw [eq, ← got], left⟩

/-! ## A changed byte -/

theorem sum_append_cons (pre : List UInt8) (b : UInt8) (post : List UInt8) :
    sum (pre ++ b :: post) = sum pre + b.toUInt32 + sum post := by
  have start : ∀ (s : UInt32) (l : List UInt8), l.foldl (fun s b => s + b.toUInt32) s = s + sum l := by
    intro s l
    induction l generalizing s with
    | nil => simp [sum]
    | cons x l ih =>
      have head : sum (x :: l) = x.toUInt32 + sum l := by rw [sum, List.foldl_cons, ih, UInt32.zero_add]
      rw [List.foldl_cons, ih, head, UInt32.add_assoc]
  rw [sum, List.foldl_append, List.foldl_cons, start]
  rfl

theorem sum_set_ne {d : List UInt8} {j : Nat} {b : UInt8} (inside : j < d.length) (changed : d[j]? ≠ some b) :
    sum (d.set j b) ≠ sum d := by
  intro same
  have whole : d = d.take j ++ d[j] :: d.drop (j + 1) := by simp
  rw [List.set_eq_take_append_cons_drop, if_pos inside, sum_append_cons] at same
  conv_rhs at same => rw [whole, sum_append_cons]
  have bytes : b.toUInt32 = d[j].toUInt32 := (UInt32.add_right_inj _).mp ((UInt32.add_left_inj _).mp same)
  apply changed
  rw [List.getElem?_eq_getElem inside]
  have := congrArg UInt32.toNat bytes
  simp only [UInt8.toNat_toUInt32] at this
  rw [UInt8.toNat_inj.mp this]

theorem reads_set_iff {l : List UInt8} (reads : Reads l) {k : Nat} {b : UInt8} (length : k / 4 ≠ 3)
    (inside : k < messageSize + (field l 3).toNat) (changed : l[k]? ≠ some b) :
    Reads (l.set k b) ↔ 4 ≤ k ∧ k < 12 := by
  have f3 : field (l.set k b) 3 = field l 3 := field_set_of_ne b length
  have size : l.length = (l.set k b).length := by simp
  have enough := reads.data
  have m24 : messageSize = 24 := rfl
  constructor
  · intro again
    refine ⟨?_, ?_⟩
    · -- the command is covered by the magic
      by_contra low
      have k0 : k / 4 = 0 := by omega
      have magic := again.magic
      rw [field_set_of_ne b (by omega), reads.magic, ← k0] at magic
      exact field_set_ne (by omega) changed ((UInt32.xor_left_inj _).mp magic).symm
    · by_contra high
      have ones : k / 4 = 4 ∨ k / 4 = 5 ∨ messageSize ≤ k := by omega
      rcases ones with k4 | k5 | data
      · have check := again.check
        rw [f3, List.drop_set_of_lt (by omega), reads.check, ← k4] at check
        exact field_set_ne (by omega) changed check.symm
      · have magic := again.magic
        rw [field_set_of_ne (i := 0) b (by omega), ← reads.magic, ← k5] at magic
        exact field_set_ne (by omega) changed magic
      · have check := again.check
        rw [f3, field_set_of_ne (i := 4) b (by omega), ← reads.check, List.drop_set, if_neg (by omega), List.take_set] at check
        refine sum_set_ne (by simp; omega) ?_ check
        rwa [List.getElem?_take_of_lt (by omega), List.getElem?_drop, Nat.add_sub_cancel' data]
  · intro ⟨low, high⟩
    refine ⟨size ▸ reads.header, ?_, by rw [f3]; exact reads.small, by rw [f3, ← size]; exact enough, ?_⟩
    · rw [field_set_of_ne b (by omega), field_set_of_ne b (by omega)]
      exact reads.magic
    · rw [f3, field_set_of_ne b (by omega), List.drop_set_of_lt (by omega)]
      exact reads.check

/-- A packet with one byte changed, the length apart, is taken exactly if the byte is in
    `arg0` or `arg1`. -/
theorem changed_byte_accepted_iff {p : Apacket} (wf : WellFormed p) {k : Nat} {b : UInt8} (length : k / 4 ≠ 3)
    (inside : k < (remoteWrite p).length) (changed : (remoteWrite p)[k]? ≠ some b) (rest : List UInt8) (src : List Answer)
    (arrives : bytes src = (remoteWrite p).set k b ++ rest) : (remoteRead.run src).isSome = true ↔ 4 ≤ k ∧ k < 12 := by
  have f3 : field (remoteWrite p ++ rest) 3 = p.msg.dataLength := congrArg Amessage.dataLength (field_remoteWrite p rest)
  have size : (remoteWrite p).length = messageSize + p.msg.dataLength.toNat := by simp [remoteWrite, wf.length]
  have refines := congrArg Option.isSome (refines_remoteRead src)
  rw [Option.isSome_map, arrives] at refines
  rw [refines, parse_isSome_iff, ← List.set_append_left _ _ inside]
  refine reads_set_iff (wf.reads rest) length (by rw [f3, ← size]; exact inside) ?_
  rwa [List.getElem?_append_left inside]

/-- Two bytes of data for another socket than the one they were sent to. -/
theorem changed_socket_accepted :
    let p := sendPacket ⟨⟨0x45545257, 1, 2, 2, 0, 0⟩, [104, 105]⟩
    (remoteRead.run (putBack ((remoteWrite p).set 8 3) [])).isSome = true ↔ 4 ≤ 8 ∧ 8 < 12 :=
  changed_byte_accepted_iff (sendPacket_wellFormed rfl (by decide)) (k := 8) (b := 3) (by decide) (by decide) (by decide) []
    _ (bytes_putBack _ [])

end AmebaLinux.Adb.Packets
