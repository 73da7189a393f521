/-
  AmebaLinux.Hciattach.ReceiverProofs — `start_xfer_wait` reads whole packets (see
  `AmebaLinux.Hciattach.Receiver`).

  `Holds bytes port` says what comes from the port, not in which pieces; every read is
  shown to take a front part of those bytes, so that nothing after it can depend on the
  pieces.

  Proved:
  - `receive_enough`: every round that goes on uses up a byte, an event or a retry, or ends
    a packet without parameters, so the fuel of `startXferWait` is never used up.
  - `receive_refines`: for packets of 1 to 61 parameter bytes the loop does what
    `Link.waitReply` does with the packets.
  - `event_framing`: packets before the first Command Complete are skipped, and that one
    decides; what is left on the port begins with the packet after it.
-/

import AmebaLinux.Hciattach.Receiver

namespace AmebaLinux.Hciattach.Receiver

open AmebaLinux.Lib.Bytes
open AmebaLinux.Hciattach.Link

/-! ## Reading -/

/-- These bytes come from the port, in any pieces. -/
def Holds (bytes : List UInt8) (port : Port) : Prop :=
  ∃ chunks : List (List UInt8), port = chunks.map .data ∧ (∀ c ∈ chunks, c ≠ []) ∧ chunks.flatten = bytes

theorem holds_cons {c bytes : List UInt8} (hc : c ≠ []) {port : Port} (h : Holds bytes port) :
    Holds (c ++ bytes) (.data c :: port) := by
  obtain ⟨chunks, rfl, hsome, rfl⟩ := h
  refine ⟨c :: chunks, rfl, ?_, rfl⟩
  intro d hd
  cases List.mem_cons.mp hd with
  | inl he => rw [he]; exact hc
  | inr hd => exact hsome d hd

/-- A port with bytes to come has a piece that is readable. -/
theorem Holds.cases {bytes : List UInt8} {port : Port} (h : Holds bytes port) (hne : bytes ≠ []) :
    ∃ c rest port', c ≠ [] ∧ bytes = c ++ rest ∧ port = .data c :: port' ∧ Holds rest port' := by
  obtain ⟨chunks, rfl, hsome, rfl⟩ := h
  cases chunks with
  | nil => exact absurd rfl hne
  | cons c chunks =>
    exact ⟨c, chunks.flatten, chunks.map .data, hsome c List.mem_cons_self, rfl, rfl, chunks, rfl,
      fun d hd => hsome d (List.mem_cons_of_mem c hd), rfl⟩

theorem poll_holds {bytes : List UInt8} {port : Port} (h : Holds bytes port) (hne : bytes ≠ []) :
    poll port = (.ready, port) := by
  obtain ⟨c, _, port', _, _, rfl, _⟩ := h.cases hne
  rfl

/-- The first piece and what is asked for: one of them begins with the other. -/
theorem Holds.front {a b : List UInt8} {port : Port} (h : Holds (a ++ b) port) (ha : a ≠ []) :
    (∃ c back port', a = c ++ back ∧ c ≠ [] ∧ port = .data c :: port' ∧ Holds (back ++ b) port') ∨
    ∃ more rest port', more ≠ [] ∧ b = more ++ rest ∧ port = .data (a ++ more) :: port' ∧ Holds rest port' := by
  obtain ⟨c, rest, port', hc, hsplit, rfl, hrest⟩ := h.cases (by simp [ha])
  rcases List.append_eq_append_iff.mp hsplit with ⟨more, rfl, rfl⟩ | ⟨back, rfl, rfl⟩
  · by_cases hmore : more = []
    · subst hmore
      exact Or.inl ⟨a, [], port', by simp, ha, by simp, hrest⟩
    · exact Or.inr ⟨more, rest, port', hmore, rfl, rfl, hrest⟩
  · exact Or.inl ⟨c, back, port', rfl, hc, rfl, hrest⟩

/-- `read` takes a front part of what it is asked for. -/
theorem sysRead_holds {a b : List UInt8} {port : Port} (h : Holds (a ++ b) port) (ha : a ≠ []) :
    ∃ front back port', a = front ++ back ∧ front ≠ [] ∧ Holds (back ++ b) port' ∧
      sysRead a.length port = some ⟨front.length, front, port'⟩ := by
  rcases h.front ha with ⟨c, back, port', rfl, hc, rfl, hback⟩ | ⟨more, rest, port', hmore, rfl, rfl, hrest⟩
  · exact ⟨c, back, port', rfl, hc, hback, if_pos (by simp)⟩
  · have hlong : ¬ (a ++ more).length ≤ a.length := by
      have := List.length_pos_iff.mpr hmore
      rw [List.length_append]
      omega
    refine ⟨a, [], .data more :: port', by simp, ha, holds_cons hmore hrest, ?_⟩
    rw [sysRead, if_neg hlong, List.take_left, List.drop_left]

theorem readLoop_data {len : Nat} (hlen : len ≠ 0) {c : List UInt8} (hc : c ≠ []) (count : Nat) (got : List UInt8) (port : Port) :
    readLoop len count got (.data c :: port) =
      if c.length ≤ len then readLoop (len - c.length) count (got ++ c) port
      else some ⟨got.length + len, got ++ c.take len, .data (c.drop len) :: port⟩ := by
  cases c with
  | nil => exact absurd rfl hc
  | cons d c =>
    rw [readLoop, if_neg hlen]
    exact hc

/-- `read_data` takes all it is asked for. -/
theorem readLoop_holds {a b : List UInt8} {port : Port} (h : Holds (a ++ b) port) (count : Nat) (got : List UInt8) :
    ∃ port', Holds b port' ∧
      readLoop a.length count got port = some ⟨(got ++ a).length, got ++ a, port'⟩ := by
  generalize hn : a.length = n
  induction n using Nat.strong_induction_on generalizing a port got with
  | _ n ih =>
    by_cases ha : a = []
    · subst ha
      refine ⟨port, h, ?_⟩
      subst hn
      rw [readLoop.eq_def, if_pos List.length_nil, List.append_nil]
    · have hne : n ≠ 0 := by
        intro h0
        exact ha (List.length_eq_zero_iff.mp (hn.trans h0))
      rcases h.front ha with ⟨c, back, port', rfl, hc, rfl, hback⟩ | ⟨more, rest, port', hmore, rfl, rfl, hrest⟩
      · have hpos := List.length_pos_iff.mpr hc
        rw [List.length_append] at hn
        obtain ⟨port'', hb, hread⟩ := ih (n - c.length) (by omega) hback (got ++ c) (by omega)
        refine ⟨port'', hb, ?_⟩
        rw [readLoop_data hne hc, if_pos (by omega), hread, List.append_assoc]
      · have hlong : ¬ (a ++ more).length ≤ n := by
          have := List.length_pos_iff.mpr hmore
          rw [List.length_append]
          omega
        refine ⟨.data more :: port', holds_cons hmore hrest, ?_⟩
        subst hn
        rw [readLoop_data hne (by simp [ha]), if_neg hlong, List.take_left, List.drop_left, List.length_append]
        simp

theorem readData_holds {a b : List UInt8} {port : Port} (h : Holds (a ++ b) port) :
    ∃ port', Holds b port' ∧ readData a.length port = some ⟨a.length, a, port'⟩ := by
  obtain ⟨port', hb, hread⟩ := readLoop_holds h 0 []
  exact ⟨port', hb, by simpa [readData] using hread⟩

/-! ## The loop ends -/

theorem weight_cons (e : PortEvent) (port : Port) : weight (e :: port) = weight [e] + weight port := by
  simp [weight]

theorem weight_pos (e : PortEvent) : 0 < weight [e] := by
  cases e <;> simp [weight]

theorem weight_drop (bytes : List UInt8) (n : Nat) : weight [.data (bytes.drop n)] = bytes.length - n + 1 := by
  simp [weight]

theorem sysRead_weight {len : Nat} {port : Port} {rd : Read} (h : sysRead len port = some rd) :
    weight rd.port ≤ weight port ∧ (len ≠ 0 → weight rd.port < weight port) := by
  have of_less : ∀ {w : Nat}, weight rd.port < w → weight rd.port ≤ w ∧ (len ≠ 0 → weight rd.port < w) :=
    fun hless => ⟨hless.le, fun _ => hless⟩
  have of_zero : ∀ {port : Port}, len = 0 → rd = ⟨0, [], port⟩ →
      weight rd.port ≤ weight port ∧ (len ≠ 0 → weight rd.port < weight port) := by
    rintro port hlen rfl
    exact ⟨le_refl _, fun hne => absurd hlen hne⟩
  induction port with
  | nil =>
    unfold sysRead at h
    split at h
    case isTrue hlen =>
      cases h
      exact of_zero hlen rfl
    case isFalse => cases h
  | cons e port ih =>
    have hport : weight port < weight (e :: port) := by
      have := weight_pos e
      rw [weight_cons]
      omega
    cases e with
    | silence =>
      unfold sysRead at h
      split at h
      case isTrue hlen =>
        cases h
        exact of_zero hlen rfl
      case isFalse =>
        exact of_less ((ih h).1.trans_lt hport)
    | again =>
      cases h
      exact of_less hport
    | failed =>
      cases h
      exact of_less hport
    | data bytes =>
      unfold sysRead at h
      split at h
      case isTrue =>
        cases h
        exact of_less hport
      case isFalse hlong =>
        have hbytes : weight [.data bytes] = bytes.length + 1 := by simp [weight]
        cases h
        dsimp only
        rw [weight_cons (.data (bytes.drop len)), weight_cons (.data bytes), weight_drop, hbytes]
        exact ⟨by omega, fun hne => by omega⟩

theorem readLoop_weight {len count : Nat} {got : List UInt8} {port : Port} {rd : Read}
    (h : readLoop len count got port = some rd) : weight rd.port ≤ weight port ∧ (len ≠ 0 → weight rd.port < weight port) := by
  induction port generalizing len count got with
  | nil =>
    unfold readLoop at h
    split at h
    case isTrue hlen =>
      cases h
      exact ⟨le_refl _, fun hne => absurd hlen hne⟩
    case isFalse => cases h
  | cons e port ih =>
    have hport : weight port < weight (e :: port) := by
      have := weight_pos e
      rw [weight_cons]
      omega
    by_cases hlen : len = 0
    · rw [readLoop.eq_def, if_pos hlen] at h
      cases h
      exact ⟨le_refl _, fun hne => absurd hlen hne⟩
    · suffices hless : weight rd.port < weight (e :: port) from ⟨hless.le, fun _ => hless⟩
      cases e with
      | silence =>
        rw [readLoop, if_neg hlen] at h
        exact (ih h).1.trans_lt hport
      | again =>
        rw [readLoop, if_neg hlen] at h
        exact (ih h).1.trans_lt hport
      | failed =>
        rw [readLoop, if_neg hlen] at h
        cases h
        exact hport
      | data bytes =>
        by_cases hnone : bytes = []
        · subst hnone
          rw [readLoop, if_neg hlen] at h
          split at h
          · cases h
            exact hport
          · exact (ih h).1.trans_lt hport
        · rw [readLoop_data hlen hnone] at h
          split at h
          · exact (ih h).1.trans_lt hport
          · have hbytes : weight [.data bytes] = bytes.length + 1 := by simp [weight]
            cases h
            dsimp only
            rw [weight_cons (.data (bytes.drop len)), weight_cons (.data bytes), weight_drop, hbytes]
            omega

/-- What a round uses up. -/
def measure (r : Recv) : Nat := 2 * (weight r.port + r.retry.toNat) + if r.state = .payload then 1 else 0

theorem judge_go {x : Xfer} {r r' : Recv} (h : judge x r = .go r') : r' = startRecv r := by
  unfold judge at h
  split at h
  · split at h
    · split at h <;> cases h
    · cases h
  · cases h
    rfl

theorem measure_startRecv (r : Recv) : measure (startRecv r) = 2 * (weight r.port + r.retry.toNat) := by
  simp [measure, startRecv]

theorem measure_less {r r' : Recv} (hport : weight r'.port < weight r.port) (hretry : r'.retry = r.retry) :
    measure r' < measure r := by
  unfold measure
  rw [hretry]
  split <;> split <;> omega

theorem readType_measure {r r' : Recv} (h : readType r = .go r') : measure r' < measure r := by
  unfold readType at h
  cases hread : readData 1 r.port with
  | none =>
    rw [hread] at h
    cases h
  | some rd =>
    have hless := (readLoop_weight hread).2 (by decide)
    rw [hread] at h
    dsimp only at h
    split at h
    · cases h
    · split at h <;>
      · cases h
        exact measure_less hless rfl

theorem readHeader_measure {x : Xfer} {r r' : Recv} (h : readHeader x r = .go r') : measure r' < measure r := by
  unfold readHeader at h
  cases hread : readData 2 r.port with
  | none =>
    rw [hread] at h
    cases h
  | some rd =>
    have hless := (readLoop_weight hread).2 (by decide)
    rw [hread] at h
    dsimp only at h
    split at h
    · cases h
    · split at h
      · rw [judge_go h]
        exact measure_less hless rfl
      · split at h
        · cases h
        · cases h
          exact measure_less hless rfl

theorem readPayload_measure {x : Xfer} {r r' : Recv} (hstate : r.state = .payload) (h : readPayload x r = .go r') :
    measure r' < measure r := by
  have hmeasure : measure r = 2 * (weight r.port + r.retry.toNat) + 1 := by rw [measure, if_pos hstate]
  unfold readPayload at h
  cases hread : sysRead r.paramsLen r.port with
  | none =>
    rw [hread] at h
    cases h
  | some rd =>
    obtain ⟨hle, hless⟩ := sysRead_weight hread
    rw [hread] at h
    dsimp only at h
    split at h
    · cases h
    · split at h
      · rw [judge_go h, measure_startRecv, hmeasure]
        dsimp only
        omega
      case isFalse hmore =>
        cases h
        exact measure_less (hless (by omega)) rfl

/-- Every round that goes on uses something up. -/
theorem turn_measure {x : Xfer} {r r' : Recv} (h : turn x r = .go r') : measure r' < measure r := by
  have htimeout : ∀ port, weight port ≤ weight r.port →
      (if r.retry ≤ 0 then Next.stop .exited port else startXfer x { r with port := port, retry := r.retry - 1 }) = .go r' →
      measure r' < measure r := by
    intro port hport h
    split at h
    case isTrue => cases h
    case isFalse hretry =>
      unfold startXfer at h
      split at h
      · cases h
        rw [measure_startRecv, measure]
        dsimp only
        omega
      · cases h
  have hread : readState x r = .go r' → measure r' < measure r := by
    intro h
    unfold readState at h
    cases hstate : r.state with
    | pktType =>
      rw [hstate] at h
      exact readType_measure h
    | header =>
      rw [hstate] at h
      exact readHeader_measure h
    | payload =>
      rw [hstate] at h
      exact readPayload_measure hstate h
  unfold turn at h
  cases hport : r.port with
  | nil =>
    rw [hport] at h
    exact htimeout [] (Nat.zero_le _) h
  | cons e port =>
    rw [hport] at h
    cases e with
    | silence => exact htimeout port (by rw [hport, weight_cons]; omega) h
    | failed => cases h
    | again => exact hread h
    | data bytes => exact hread h

theorem receive_stop {x : Xfer} (fuel : Nat) (outcome : Outcome) (port : Port) :
    receive x fuel (.stop outcome port) = (outcome, port) := by
  cases fuel <;> rfl

/-- More fuel changes nothing. -/
theorem receive_enough {x : Xfer} {r : Recv} {fuel : Nat} (h : measure r < fuel) (more : Nat) :
    receive x (fuel + more) (.go r) = receive x fuel (.go r) := by
  induction fuel generalizing r with
  | zero => omega
  | succ fuel ih =>
    rw [Nat.add_right_comm, receive, receive]
    cases hturn : turn x r with
    | stop outcome port => rw [receive_stop, receive_stop]
    | go r' =>
      have := turn_measure hturn
      exact ih (by omega)

/-! ## One packet -/

/-- The buffer with `got` received since it was cleared. -/
def filled (got : List UInt8) : List UInt8 := overlay zeros 0 got

theorem filled_overlay (got bytes : List UInt8) : overlay (filled got) got.length bytes = filled (got ++ bytes) := by
  have h := overlay_append (a := got) (b := bytes) (Nat.zero_le zeros.length)
  rwa [Nat.zero_add] at h

theorem filled_getD {got : List UInt8} (i : Nat) : (filled got).getD i 0 = got.getD i 0 := by
  have hzeros : filled got = got ++ List.replicate (bufSize - got.length) 0 := by
    simp [filled, overlay, zeros]
  rw [hzeros, List.getD_eq_getElem?_getD, List.getD_eq_getElem?_getD]
  rcases Nat.lt_or_ge i got.length with hlt | hge
  · rw [List.getElem?_append_left hlt]
  · rw [List.getElem?_append_right hge, List.getElem?_eq_none hge, List.getElem?_replicate]
    split <;> rfl

/-- What the loop has before the first byte of a packet. -/
structure Fresh (r : Recv) : Prop where
  buf : r.buf = zeros
  state : r.state = .pktType
  count : r.count = 0

variable {x : Xfer} {r : Recv}

theorem turn_ready {bytes : List UInt8} (h : Holds bytes r.port) (hne : bytes ≠ []) :
    turn x r = readState x r := by
  rw [turn, poll_holds h hne]

/-- One read of the parameters. -/
theorem readPayload_eq {got front back : List UInt8} {port : Port} (hbuf : r.buf = filled got) (hcount : r.count = got.length)
    (hlen : r.paramsLen = (front ++ back).length)
    (hread : sysRead (front ++ back).length r.port = some ⟨front.length, front, port⟩) :
    readPayload x r =
      let next := { r with buf := filled (got ++ front), count := (got ++ front).length, paramsLen := back.length, port := port }
      if back = [] then judge x next else .go next := by
  have hleft : (front ++ back).length - front.length = back.length := by simp
  unfold readPayload
  rw [hlen, hread]
  dsimp only
  rw [if_neg (by omega), Int.toNat_natCast, hleft, hbuf, hcount, filled_overlay, ← List.length_append]
  exact if_congr List.length_eq_zero_iff rfl rfl

/-- The parameters come in any number of reads. -/
theorem payload_received {got params rest : List UInt8} (hstate : r.state = .payload) (hbuf : r.buf = filled got)
    (hcount : r.count = got.length) (hlen : r.paramsLen = params.length) (hne : params ≠ [])
    (hport : Holds (params ++ rest) r.port) :
    ∃ n port, Holds rest port ∧ ∀ fuel, receive x (n + fuel) (.go r) =
      receive x fuel (judge x { r with buf := filled (got ++ params), count := (got ++ params).length, paramsLen := 0,
                                       port := port }) := by
  generalize hk : params.length = k
  induction k using Nat.strong_induction_on generalizing r got params with
  | _ k ih =>
    obtain ⟨front, back, port, rfl, hfront, hback, hread⟩ := sysRead_holds hport hne
    have hpos := List.length_pos_iff.mpr hfront
    have hturn : turn x r = readPayload x r := by
      rw [turn_ready hport (by simp [hfront]), readState, hstate]
    rw [readPayload_eq hbuf hcount hlen hread] at hturn
    rw [List.length_append] at hk
    by_cases hlast : back = []
    · subst hlast
      rw [if_pos rfl] at hturn
      refine ⟨1, port, hback, ?_⟩
      intro fuel
      rw [Nat.add_comm, receive, hturn, List.append_nil]
      rfl
    · rw [if_neg hlast] at hturn
      obtain ⟨n, port', hrest, hrun⟩ := ih back.length (by omega)
        (r := { r with buf := filled (got ++ front), count := (got ++ front).length, paramsLen := back.length, port := port })
        hstate rfl rfl rfl hlast hback rfl
      refine ⟨n + 1, port', hrest, ?_⟩
      intro fuel
      rw [Nat.add_right_comm, receive, hturn, hrun fuel, List.append_assoc]

/-- An event packet that fits in the buffer. -/
structure Pkt where
  code : UInt8
  params : List UInt8
  some : 1 ≤ params.length
  fits : params.length ≤ 61

def Pkt.bytes (p : Pkt) : List UInt8 := packet p.code p.params

theorem Pkt.fits_buf (p : Pkt) : ¬ p.params.length + 3 > bufSize := by
  have := p.fits
  simp only [bufSize]
  omega

theorem turn_type (hr : Fresh r) {rest : List UInt8} (hport : Holds ([0x04] ++ rest) r.port) :
    ∃ port, Holds rest port ∧ turn x r = .go { r with buf := filled [0x04], count := 1, state := .header, port := port } := by
  obtain ⟨port, hrest, hread⟩ := readData_holds hport
  have hstored : overlay r.buf 0 [0x04] = filled [0x04] := by rw [hr.buf, filled]
  have htype : (filled [0x04]).getD 0 0 = 0x04 := filled_getD 0
  refine ⟨port, hrest, ?_⟩
  rw [turn_ready hport (by simp), readState, hr.state]
  unfold readType
  rw [show readData 1 r.port = _ from hread]
  dsimp only
  rw [hstored, if_neg (by simp), if_pos htype]

theorem turn_header (hstate : r.state = .header) (hbuf : r.buf = filled [0x04]) (hcount : r.count = 1) {code len : UInt8}
    (hlen : len.toNat ≤ 61) {rest : List UInt8} (hport : Holds ([code, len] ++ rest) r.port) :
    ∃ port, Holds rest port ∧ turn x r =
      .go { r with buf := filled [0x04, code, len], count := 3, paramsLen := len.toNat, state := .payload, port := port } := by
  obtain ⟨port, hrest, hread⟩ := readData_holds hport
  have hstored : overlay r.buf r.count [code, len] = filled [0x04, code, len] := by
    rw [hbuf, hcount]
    exact filled_overlay [0x04] [code, len]
  have hparams : (filled [0x04, code, len]).getD 2 0 = len := filled_getD 2
  refine ⟨port, hrest, ?_⟩
  rw [turn_ready hport (by simp), readState, hstate]
  unfold readHeader
  rw [show readData 2 r.port = _ from hread]
  dsimp only
  rw [hstored, hparams, hcount, if_neg (by simp), if_neg (by simp), if_neg (by simp only [bufSize]; omega)]

/-- The state with a packet in the buffer. -/
def received (r : Recv) (p : Pkt) (port : Port) : Recv :=
  { r with buf := filled p.bytes, state := .payload, count := p.bytes.length, paramsLen := 0, port := port }

/-- A packet is received whole, and then judged. -/
theorem packet_received (hr : Fresh r) (p : Pkt) {rest : List UInt8} (hport : Holds (p.bytes ++ rest) r.port) :
    ∃ n port, Holds rest port ∧ ∀ fuel, receive x (n + fuel) (.go r) = receive x fuel (judge x (received r p port)) := by
  have hsplit : p.bytes ++ rest = [0x04] ++ ([p.code, .ofNat p.params.length] ++ (p.params ++ rest)) := by
    simp [Pkt.bytes, packet]
  have hlen : (UInt8.ofNat p.params.length).toNat = p.params.length := by
    have := p.fits
    rw [UInt8.toNat_ofNat']
    omega
  have hne : p.params ≠ [] := List.length_pos_iff.mp p.some
  rw [hsplit] at hport
  obtain ⟨port1, hport1, htype⟩ := turn_type (x := x) hr hport
  obtain ⟨port2, hport2, hheader⟩ := turn_header (x := x)
    (r := { r with buf := filled [0x04], count := 1, state := .header, port := port1 }) rfl rfl rfl
    (by rw [hlen]; exact p.fits) hport1
  obtain ⟨n, port, hrest, hrun⟩ := payload_received (x := x)
    (r := { r with buf := filled [0x04, p.code, .ofNat p.params.length], count := 3,
                   paramsLen := (UInt8.ofNat p.params.length).toNat, state := .payload, port := port2 })
    rfl rfl rfl hlen hne hport2
  refine ⟨n + 1 + 1, port, hrest, ?_⟩
  intro fuel
  rw [Nat.add_right_comm, receive, htype, Nat.add_right_comm, receive, hheader, hrun fuel]
  rfl

/-! ## A stream of packets -/

theorem fresh_startRecv (r : Recv) : Fresh (startRecv r) := ⟨rfl, rfl, rfl⟩

def Pkt.rx (p : Pkt) : Rx := .event p.code p.params

/-- The bytes of packets. -/
def rxBytes (rx : List Rx) : List UInt8 :=
  rx.flatMap fun e => match e with
    | .event code params => packet code params
    | .error => []

theorem rxBytes_map (packets : List Pkt) : rxBytes (packets.map Pkt.rx) = packets.flatMap Pkt.bytes := by
  rw [rxBytes, List.flatMap_map]
  rfl

/-- A reply as `start_xfer_wait` returns it. -/
def returned (x : Xfer) : Reply → Outcome
  | .timeout => .exited
  | .failed => .failed
  | .accepted buf => .accepted (x.respLen.map fun n => buf.take (min n buf.length))

/-- What is made of a packet once it is there. -/
theorem judge_received (p : Pkt) (port : Port) :
    judge x (received r p port) =
      if p.code = evtCommandComplete then
        if opcode (p.bytes.getD 4 0) (p.bytes.getD 5 0) = cmdOpcode x.cmd then
          if p.bytes.getD 6 0 ≠ 0 then .stop .failed port else .stop (returned x (.accepted p.bytes)) port
        else .stop .failed port
      else .go (startRecv (received r p port)) := by
  have hcode : p.bytes.getD 1 0 = p.code := rfl
  have htake : ∀ n, (filled p.bytes).take (min n p.bytes.length) = p.bytes.take (min n p.bytes.length) := by
    intro n
    rw [filled, overlay, List.take_zero, List.nil_append, List.take_append_of_le_length (by omega)]
  unfold judge returned received
  simp only [filled_getD, hcode, htake]

/-- On packets the loop is `waitReply`, whatever the pieces they come in. -/
theorem receive_refines (packets : List Pkt) (hr : Fresh r) (hport : Holds (packets.flatMap Pkt.bytes) r.port) {reply : Reply}
    {rest : List Rx} (hwait : waitReply (cmdOpcode x.cmd) (packets.map Pkt.rx) = (reply, rest)) (hreply : reply ≠ .timeout) :
    ∃ n port, Holds (rxBytes rest) port ∧ ∀ fuel, receive x (n + fuel) (.go r) = (returned x reply, port) := by
  induction packets generalizing r with
  | nil =>
    cases hwait
    exact absurd rfl hreply
  | cons p packets ih =>
    rw [List.flatMap_cons] at hport
    obtain ⟨n, port, hrest, hrun⟩ := packet_received (x := x) hr p hport
    rw [List.map_cons, Pkt.rx, waitReply, if_neg p.fits_buf] at hwait
    simp only [judge_received] at hrun
    by_cases hcc : p.code = evtCommandComplete
    · rw [if_pos hcc] at hwait
      simp only [if_pos hcc] at hrun
      have hstop : ∀ outcome, (∀ fuel, receive x (n + fuel) (.go r) = receive x fuel (.stop outcome port)) →
          outcome = returned x reply → rest = packets.map Pkt.rx →
          ∃ n port, Holds (rxBytes rest) port ∧ ∀ fuel, receive x (n + fuel) (.go r) = (returned x reply, port) := by
        rintro outcome hrun rfl rfl
        exact ⟨n, port, rxBytes_map packets ▸ hrest, fun fuel => (hrun fuel).trans (receive_stop _ _ _)⟩
      by_cases hop : opcode (p.bytes.getD 4 0) (p.bytes.getD 5 0) = cmdOpcode x.cmd
      · simp only [if_pos hop] at hrun
        replace hwait := (if_pos hop).symm.trans hwait
        by_cases hstatus : p.bytes.getD 6 0 ≠ 0
        · simp only [if_pos hstatus] at hrun
          cases (if_pos hstatus).symm.trans hwait
          exact hstop _ hrun rfl rfl
        · simp only [if_neg hstatus] at hrun
          cases (if_neg hstatus).symm.trans hwait
          exact hstop _ hrun rfl rfl
      · simp only [if_neg hop] at hrun
        cases (if_neg hop).symm.trans hwait
        exact hstop _ hrun rfl rfl
    · rw [if_neg hcc] at hwait
      simp only [if_neg hcc] at hrun
      obtain ⟨m, port', hrest', hrun'⟩ := ih (fresh_startRecv (received r p port)) hrest hwait
      refine ⟨n + m, port', hrest', ?_⟩
      intro fuel
      rw [Nat.add_assoc, hrun]
      exact hrun' fuel

/-! ## The first Command Complete -/

/-- Packets with a Command Complete among them, the first one with a status; and the
    pieces their bytes come in. -/
structure Stream where
  skipped : List Pkt
  cc : Pkt
  rest : List Pkt
  chunks : List (List UInt8)
  other : ∀ p ∈ skipped, p.code ≠ evtCommandComplete
  complete : cc.code = evtCommandComplete
  status : 4 ≤ cc.params.length
  some : ∀ c ∈ chunks, c ≠ []
  split : chunks.flatten = (skipped ++ cc :: rest).flatMap Pkt.bytes

def Stream.port (s : Stream) : Port := s.chunks.map .data

/-- A command, and that it is written. -/
structure Command where
  xfer : Xfer
  long : 4 ≤ xfer.cmd.length
  written : xfer.write 0 = true

/-- The parameters of a Command Complete: the number of commands that may be sent, the
    opcode, the status. -/
def Stream.result (s : Stream) (x : Xfer) : Outcome :=
  if opcode (s.cc.params.getD 1 0) (s.cc.params.getD 2 0) = cmdOpcode x.cmd ∧ s.cc.params.getD 3 0 = 0 then
    .accepted (x.respLen.map fun n => s.cc.bytes.take (min n s.cc.bytes.length))
  else .failed

theorem waitReply_skips {op : UInt16} {skipped : List Pkt} (h : ∀ p ∈ skipped, p.code ≠ evtCommandComplete) (rx : List Rx) :
    waitReply op (skipped.map Pkt.rx ++ rx) = waitReply op rx := by
  induction skipped with
  | nil => rfl
  | cons p skipped ih =>
    rw [List.map_cons, List.cons_append, Pkt.rx, waitReply, if_neg p.fits_buf, if_neg (h p List.mem_cons_self)]
    exact ih fun q hq => h q (List.mem_cons_of_mem p hq)

theorem waitReply_stream (s : Stream) (x : Xfer) :
    ∃ reply, reply ≠ .timeout ∧ returned x reply = s.result x ∧
      waitReply (cmdOpcode x.cmd) ((s.skipped ++ s.cc :: s.rest).map Pkt.rx) = (reply, s.rest.map Pkt.rx) := by
  rw [List.map_append, waitReply_skips s.other, List.map_cons, Pkt.rx, waitReply, if_neg s.cc.fits_buf, if_pos s.complete]
  by_cases hop : opcode (s.cc.params.getD 1 0) (s.cc.params.getD 2 0) = cmdOpcode x.cmd
  · by_cases hstatus : s.cc.params.getD 3 0 = 0
    · refine ⟨.accepted s.cc.bytes, by simp, ?_, (if_pos hop).trans (if_neg (not_not.mpr hstatus))⟩
      rw [Stream.result, if_pos ⟨hop, hstatus⟩]
      rfl
    · refine ⟨.failed, by simp, ?_, (if_pos hop).trans (if_pos hstatus)⟩
      rw [Stream.result, if_neg fun h => hstatus h.2]
      rfl
  · refine ⟨.failed, by simp, ?_, if_neg hop⟩
    rw [Stream.result, if_neg fun h => hop h.1]
    rfl

/-- Whole packets are taken up to the first Command Complete, which decides, however the
    bytes are split. -/
theorem event_framing (c : Command) (retry : Int) (s : Stream) :
    ∃ port, startXferWait c.xfer retry s.port = (s.result c.xfer, port) ∧ Holds (s.rest.flatMap Pkt.bytes) port := by
  let r : Recv := startRecv ⟨zeros, .pktType, 0, 0, retry, 1, s.port⟩
  have hport : Holds ((s.skipped ++ s.cc :: s.rest).flatMap Pkt.bytes) r.port := ⟨s.chunks, rfl, s.some, s.split⟩
  obtain ⟨reply, hreply, hresult, hwait⟩ := waitReply_stream s c.xfer
  obtain ⟨n, port, hrest, hrun⟩ := receive_refines (x := c.xfer) _ (fresh_startRecv _) hport hwait hreply
  have hfuel : measure r < 2 * (weight s.port + retry.toNat) + 2 := by
    rw [measure_startRecv]
    dsimp only
    omega
  refine ⟨port, ?_, rxBytes_map s.rest ▸ hrest⟩
  have hshort : ¬ c.xfer.cmd.length < 4 := not_lt.mpr c.long
  have hwritten : startXfer c.xfer ⟨zeros, .pktType, 0, 0, retry, 0, s.port⟩ = .go r := if_pos c.written
  rw [startXferWait, if_neg hshort, hwritten, ← receive_enough hfuel n, Nat.add_comm, hrun, hresult]

/-- HCI Reset, with room for 16 bytes of its response. -/
def resetCommand : Command where
  xfer := ⟨[0x01, 0x03, 0x0c, 0x00], some 16, fun _ => true⟩
  long := by decide
  written := rfl

/-- An event whose parameters look like the reply to it. -/
def lookalike : Pkt := ⟨0x13, [0x04, 0x0e, 0x04, 0x01, 0x03, 0x0c, 0x00], by decide, by decide⟩

def hardwareError : Pkt := ⟨0x10, [0x42], by decide, by decide⟩

def resetDone : Pkt := ⟨evtCommandComplete, [0x01, 0x03, 0x0c, 0x00], by decide, by decide⟩

/-- Two events before the reply and two after it, cut across their borders. -/
def interleaved : Stream where
  skipped := [lookalike, hardwareError]
  cc := resetDone
  rest := [lookalike, resetDone]
  chunks := [[0x04, 0x13, 0x07, 0x04, 0x0e], [0x04, 0x01, 0x03, 0x0c, 0x00, 0x04], [0x10], [0x01, 0x42, 0x04, 0x0e, 0x04, 0x01],
    [0x03, 0x0c, 0x00, 0x04, 0x13], [0x07, 0x04, 0x0e, 0x04, 0x01, 0x03, 0x0c, 0x00], [0x04, 0x0e, 0x04, 0x01, 0x03, 0x0c, 0x00]]
  other := by decide
  complete := rfl
  status := by decide
  some := by decide
  split := by decide

theorem interleaved_reply_found :
    ∃ port, startXferWait resetCommand.xfer 0 interleaved.port =
        (.accepted (some [0x04, 0x0e, 0x04, 0x01, 0x03, 0x0c, 0x00]), port) ∧
      Holds [0x04, 0x13, 0x07, 0x04, 0x0e, 0x04, 0x01, 0x03, 0x0c, 0x00, 0x04, 0x0e, 0x04, 0x01, 0x03, 0x0c, 0x00] port :=
  event_framing resetCommand 0 interleaved

end AmebaLinux.Hciattach.Receiver
