/-
  AmebaLinux.Rcp.FwUpdateSrcProofs — what `FwUpdateSrc` sends for a file of whole
  records (see `AmebaLinux.Rcp.FwUpdateSrc`).

  The records may be followed by anything `ProcessSrecBin` finds no record in.

  Proved:
  - `sendPackets_spec`: with a device that answers SUCCESS, one packet per record, in
    file order, each with its record's length and data, the sequence number and the
    flag byte the three assignments of the code leave.
  - `transfer_law_iff`: the transfer law (first-block mark on the first packet and on no
    other, last-block mark on the last and on no other) holds exactly for files of two
    to 2^32 records. The only packet of a one-record file loses its first-block mark to
    the last-block assignment (`one_record_loses_first_mark`), and past 2^32 packets the
    counters start again.
-/

import AmebaLinux.Rcp.FwUpdateSrcRun

namespace AmebaLinux.Rcp.FwUpdateSrc

open AmebaLinux.Lib.Bytes
open AmebaLinux.Rcp.Tty

/-! ## Records -/

/-- A complete record of a payload file. -/
structure Record where
  address : UInt32
  data : List UInt8
  nonempty : 1 ≤ data.length
  fits : data.length ≤ 52

def Record.len (r : Record) : UInt8 := UInt8.ofNat r.data.length

def Record.bytes (r : Record) : List UInt8 := toLe 4 r.address.toNat ++ (r.len :: r.data)

theorem Record.len_toNat (r : Record) : r.len.toNat = r.data.length := by
  have := r.fits
  simp only [Record.len, UInt8.toNat_ofNat']
  exact Nat.mod_eq_of_lt (by omega)

/-- What reading the record leaves in `contentdata`. -/
def Record.into (r : Record) (c : ContentData) : ContentData :=
  { c with length := r.len, address := r.address, data := overlay c.data 0 r.data }

theorem address_roundtrip (a : UInt32) : UInt32.ofNat (leNat (toLe 4 a.toNat)) = a := by
  rw [leNat_toLe, Nat.mod_eq_of_lt (by simpa using a.toNat_lt), UInt32.ofNat_toNat]

theorem take_of_length {a b : List UInt8} {n : Nat} (h : a.length = n) : (a ++ b).take n = a := by
  subst h; exact List.take_left

theorem drop_of_length {a b : List UInt8} {n : Nat} (h : a.length = n) : (a ++ b).drop n = b := by
  subst h; exact List.drop_left

theorem processSrecBin_record (r : Record) (rest : List UInt8) (c : ContentData) :
    processSrecBin (r.bytes ++ rest) c = some (true, rest, r.into c) := by
  have hlen := r.len_toNat
  have h4 : (toLe 4 r.address.toNat).length = 4 := toLe_length _ _
  have hfile : r.bytes ++ rest = toLe 4 r.address.toNat ++ (r.len :: (r.data ++ rest)) := by
    simp [Record.bytes]
  have ht : (r.bytes ++ rest).take 4 = toLe 4 r.address.toNat := by rw [hfile, take_of_length h4]
  have hd : (r.bytes ++ rest).drop 4 = r.len :: (r.data ++ rest) := by rw [hfile, drop_of_length h4]
  have hne : toLe 4 r.address.toNat ≠ [] := by intro e; rw [e] at h4; cases h4
  have hdata : r.data ≠ [] := List.length_pos_iff.mp r.nonempty
  have h0 : r.len ≠ 0 := by
    intro e
    rw [e] at hlen
    have := r.nonempty
    simp at hlen; omega
  have h52 : ¬ 52 < r.len := by
    rw [UInt8.lt_iff_toNat_lt, hlen]; have := r.fits
    show ¬ 52 < r.data.length; omega
  have haddr : (overlay (List.replicate 64 0) 0 (toLe 4 r.address.toNat)).take 4 = toLe 4 r.address.toNat := by
    have := overlay_zero_take (List.replicate 64 0) (toLe 4 r.address.toNat)
    rwa [h4] at this
  have hb : ∀ buf : List UInt8, (overlay buf 0 [r.len]).getD 0 0 = r.len := fun buf => by simp [overlay]
  have hcopy : ∀ buf : List UInt8, (overlay buf 0 r.data).take r.data.length = r.data :=
    fun buf => overlay_zero_take buf r.data
  simp only [processSrecBin, ht, hd, hne, if_false, haddr, address_roundtrip, List.take_succ_cons, List.take_zero,
    List.cons_ne_nil, List.drop_succ_cons, List.drop_zero, hb, h0, h52, hlen, List.take_left, hdata, List.drop_left,
    hcopy, Record.into]

theorem processSrecBin_nil (c : ContentData) : processSrecBin [] c = some (false, [], { c with length := 0 }) := rfl

theorem Record.into_data_length (r : Record) {c : ContentData} (h : c.data.length = 52) :
    (r.into c).data.length = 52 := by
  rw [← h]; exact overlay_length (by have := r.fits; omega)

/-- The file of a list of records. -/
def fileOf (recs : List Record) : List UInt8 := recs.flatMap Record.bytes

theorem fileOf_cons (r : Record) (recs : List Record) : fileOf (r :: recs) = r.bytes ++ fileOf recs := rfl

/-- The parser finds no record here, and does not exit. -/
def Ended (tail : List UInt8) : Prop := ∀ c, ∃ file' c', processSrecBin tail c = some (false, file', c')

theorem ended_nil : Ended [] := fun c => ⟨_, _, processSrecBin_nil c⟩

theorem recordsIn_fileOf (recs : List Record) {tail : List UInt8} (ht : Ended tail) :
    recordsIn (fileOf recs ++ tail) = some recs.length := by
  induction recs with
  | nil =>
    obtain ⟨file', c', h⟩ := ht .zero
    exact recordsIn_stop h
  | cons r recs ih =>
    rw [fileOf_cons, List.append_assoc, recordsIn_next (processSrecBin_record r _ .zero), ih]
    rfl

/-! ## The device -/

/-- All the bytes the script brings, if no wait fails on the way. -/
def received : List ReadEv → Option (List UInt8)
  | [] => some []
  | .idle :: script => received script
  | .failed _ :: _ => none
  | .chunk buff :: script => (received script).map (buff ++ ·)

/-- The port takes the packet, and the whole 17-byte response comes, in any chunks, with
    status SUCCESS. -/
def AnswersSuccess (e : Exchange) : Prop :=
  (∀ frame : List UInt8, frame.length = 61 → (ttyWriteRest e.writes frame).1 = .noErr) ∧
    ∃ resp, received e.reads = some resp ∧ resp.length = 17 ∧ resp[5]? = some firmwareUpdateSuccess

/-- A response that comes whole is stored where the handler stands, and ends the wait. -/
theorem wait_whole (len : Nat) (script : List ReadEv) (r : Report) (resp : List UInt8)
    (hr : received script = some resp) (hlen : r.index + resp.length = len + 1) (hlt : r.index < len + 1)
    (hb : r.index ≤ r.repBuff.length) :
    ttyWaitForFrame (reportHandle len) r script = some (.noErr, ⟨overlay r.repBuff r.index resp, 0⟩) := by
  induction script generalizing r resp with
  | nil => cases hr; simp at hlen; omega
  | cons e script ih =>
    cases e with
    | idle => exact ih r resp hr hlen hlt hb
    | failed err => cases hr
    | chunk buff =>
      simp only [received, Option.map_eq_some_iff] at hr
      obtain ⟨rest, hrest, rfl⟩ := hr
      simp only [List.length_append] at hlen
      simp only [ttyWaitForFrame]
      by_cases hbuff : buff = []
      · subst hbuff
        rw [if_pos rfl]
        exact ih r rest hrest (by simpa using hlen) hlt hb
      · rw [if_neg hbuff]
        have hpos := List.length_pos_iff.mpr hbuff
        have hno : ¬ r.index + buff.length ≥ len + 1 + 1 := by omega
        by_cases hend : rest = []
        · subst hend
          have : r.index + buff.length = len + 1 := by simpa using hlen
          simp [reportHandle, this]
        · have hmore : r.index + buff.length ≠ len + 1 := by
            have := List.length_pos_iff.mpr hend; omega
          have hsize : r.index + buff.length ≤ (overlay r.repBuff r.index buff).length := by
            simp only [overlay, List.length_append, List.length_take, List.length_drop]; omega
          simp only [reportHandle, hno, if_false, hmore]
          rw [ih ⟨overlay r.repBuff r.index buff, r.index + buff.length⟩ rest hrest (by simp only; omega)
            (by simp only; omega) hsize, overlay_append hb]

theorem AnswersSuccess.accepted {e : Exchange} (h : AnswersSuccess e) {r : Report} (hi : r.index = 0)
    (hb : r.repBuff.length = 61) : ∃ r', Accepted e r r' ∧ r'.index = 0 ∧ r'.repBuff.length = 61 := by
  obtain ⟨hw, resp, hresp, hlen, hstatus⟩ := h
  have hwait := wait_whole fwUpdateContentResponseLen e.reads r resp hresp (by rw [hi, hlen]; rfl)
    (by rw [hi]; decide) (by rw [hi]; omega)
  rw [hi] at hwait
  have h5 : (overlay r.repBuff 0 resp)[5]? = some firmwareUpdateSuccess := by
    rw [overlay, List.take_zero, List.nil_append, List.getElem?_append_left (by omega)]
    exact hstatus
  refine ⟨⟨overlay r.repBuff 0 resp, 0⟩, ⟨hw _ List.length_replicate, ?_, ?_⟩, rfl, ?_⟩
  · rw [answer, show reponseHandle = reportHandle fwUpdateContentResponseLen from rfl, hwait]
  · simp [contentStatus, List.getD_eq_getElem?_getD, h5]
  · rw [← hb]; exact overlay_length (by rw [hlen, hb]; decide)

/-- A device that answers SUCCESS in whole responses has all its exchanges accepted. -/
theorem allAccepted_of_answers (n : Nat) {device : Nat → Exchange} {r : Report}
    (hdev : ∀ i < n, AnswersSuccess (device i)) (hi : r.index = 0) (hb : r.repBuff.length = 61) :
    AllAccepted device r n := by
  induction n generalizing device r with
  | zero => exact allAccepted_zero device r
  | succ n ih =>
    obtain ⟨r', hacc, hi', hb'⟩ := (hdev 0 (by omega)).accepted hi hb
    exact allAccepted_succ.mpr ⟨r', hacc, ih (fun i hlt => hdev (i + 1) (by omega)) hi' hb'⟩

/-! ## The second pass -/

/-- A 61-byte content packet for record `r`. -/
structure PacketOf (r : Record) (flags : UInt8) (seq : Nat) (address : UInt32) (p : List UInt8) : Prop where
  size : p.length = 61
  id : p[0]? = some fwUpdateContentReportid
  flags : p[1]? = some flags
  length : p[2]? = some r.len
  seq : leNat ((p.drop 3).take 2) = seq % 65536
  address : leNat ((p.drop 5).take 4) = address.toNat
  data : (p.drop 9).take r.data.length = r.data

theorem packet_bytes (r : Record) {c : ContentData} (hc : c.data.length = 52) (hs : c.sequenceNumber = UInt16.ofNat k)
    (flags : UInt8) (address : UInt32) :
    PacketOf r flags k address
      { r.into c with flags := flags, id := fwUpdateContentReportid, address := address }.bytes := by
  have hl := r.into_data_length hc
  have h4 := toLe_length 4 address.toNat
  have h2 := toLe_length 2 c.sequenceNumber.toNat
  refine ⟨?_, rfl, rfl, rfl, ?_, ?_, ?_⟩
  · simp only [ContentData.bytes, List.length_append, hl, h4, toLe_length]; rfl
  · have : leNat (toLe 2 c.sequenceNumber.toNat) = k % 65536 := by
      rw [leNat_toLe, hs, UInt16.toNat_ofNat']; simp
    rw [← this]; rfl
  · have : leNat (toLe 4 address.toNat) = address.toNat := by
      rw [leNat_toLe, Nat.mod_eq_of_lt (by simpa using address.toNat_lt)]
    rw [← this]; rfl
  · exact overlay_zero_take c.data r.data

/-- The flag byte of packet `k` of `n`: the last-block assignment comes last. -/
def flagsOf (n k : Nat) : UInt8 :=
  if (k + 1) % 2 ^ 32 = n % 2 ^ 32 then firmwareUpdateFlagLastBlock
  else if k % 2 ^ 32 = 0 then firmwareUpdateFlagFirstBlock
  else 0

theorem ofNat_eq_zero (k : Nat) : UInt32.ofNat k = 0 ↔ k % 2 ^ 32 = 0 := by
  rw [← UInt32.toNat_inj, UInt32.toNat_ofNat']; rfl

theorem ofNat_succ_eq (k n : Nat) : UInt32.ofNat k + 1 = UInt32.ofNat n ↔ (k + 1) % 2 ^ 32 = n % 2 ^ 32 := by
  rw [ofNat_succ, ← UInt32.toNat_inj, UInt32.toNat_ofNat', UInt32.toNat_ofNat']

theorem prepare_eq (n k : Nat) (s : Sender) (c : ContentData) (hk : s.contentPacketsSent = UInt32.ofNat k) :
    prepare (UInt32.ofNat n) s c =
      let startAddress := if k % 2 ^ 32 = 0 then c.address else s.startAddress
      ({ c with flags := flagsOf n k, id := fwUpdateContentReportid, address := c.address - startAddress }, startAddress) := by
  simp only [prepare, hk, ofNat_eq_zero, ofNat_succ_eq, flagsOf]

/-- The loop over the remaining records, after `k` packets of `n` in all. `base` is the
    address the first 2^32 packets are relative to. -/
theorem sendPackets_spec (device : Nat → Exchange) (n : Nat) (base : UInt32) (recs : List Record) (tail : List UInt8)
    (k : Nat) (s : Sender) (hdev : AllAccepted (fun i => device (k + i)) s.report recs.length) (hs : Numbered k s)
    (h0 : ∀ r, k = 0 → recs[0]? = some r → r.address = base) (hk : 0 < k → k ≤ 2 ^ 32 → s.startAddress = base) :
    ∀ (i : Nat) (r : Record), recs[i]? = some r →
      ∃ (p : List UInt8) (start : UInt32),
        (sendPackets device (UInt32.ofNat n) (fileOf recs ++ tail) s k).sent[i]? = some p ∧
        PacketOf r (flagsOf n (k + i)) (k + i) (r.address - start) p ∧ (k + i < 2 ^ 32 → start = base) := by
  induction recs generalizing k s with
  | nil => intro i r h; simp at h
  | cons r recs ih =>
    have hread := processSrecBin_record r (fileOf recs ++ tail) s.contentdata
    obtain ⟨report, hacc, hrest⟩ := allAccepted_from.mp hdev
    have hstart : k < 2 ^ 32 → (s.next (UInt32.ofNat n) (r.into s.contentdata) report).startAddress = base := by
      intro hlt
      show (prepare (UInt32.ofNat n) s (r.into s.contentdata)).2 = base
      rw [prepare_eq n k s _ hs.count, Nat.mod_eq_of_lt hlt]
      split
      · exact h0 r ‹_› rfl
      · exact hk (by omega) hlt.le
    have hpackets := ih (k + 1) (s.next (UInt32.ofNat n) (r.into s.contentdata) report) hrest
      (hs.next (UInt32.ofNat n) hread report) (fun _ h => by omega) (fun _ hle => hstart hle)
    rw [fileOf_cons, List.append_assoc, sendPackets_accepted hread (r.into_data_length hs.data) hacc]
    intro i r' hr'
    cases i with
    | zero =>
      cases hr'
      refine ⟨_, (prepare (UInt32.ofNat n) s (r.into s.contentdata)).2, rfl, ?_, hstart⟩
      rw [prepare_eq n k s _ hs.count]
      exact packet_bytes r hs.data hs.seq _ _
    | succ i =>
      obtain ⟨p, start, hp, hof, hbase⟩ := hpackets i r' hr'
      rw [show k + (i + 1) = k + 1 + i by omega]
      exact ⟨p, start, hp, hof, hbase⟩

/-! ## The transfer law -/

theorem flagsOf_first (n k : Nat) :
    flagsOf n k &&& firmwareUpdateFlagFirstBlock ≠ 0 ↔ (k + 1) % 2 ^ 32 ≠ n % 2 ^ 32 ∧ k % 2 ^ 32 = 0 := by
  unfold flagsOf
  by_cases hl : (k + 1) % 2 ^ 32 = n % 2 ^ 32
  · rw [if_pos hl]
    exact iff_of_false (by decide) (fun h => h.1 hl)
  · rw [if_neg hl]
    by_cases hf : k % 2 ^ 32 = 0
    · rw [if_pos hf]
      exact iff_of_true (by decide) ⟨hl, hf⟩
    · rw [if_neg hf]
      exact iff_of_false (by decide) (fun h => hf h.2)

theorem flagsOf_last (n k : Nat) :
    flagsOf n k &&& firmwareUpdateFlagLastBlock ≠ 0 ↔ (k + 1) % 2 ^ 32 = n % 2 ^ 32 := by
  unfold flagsOf
  by_cases hl : (k + 1) % 2 ^ 32 = n % 2 ^ 32
  · rw [if_pos hl]
    exact iff_of_true (by decide) hl
  · rw [if_neg hl]
    split <;> exact iff_of_false (by decide) hl

/-- The flag byte a packet should have. -/
def Marks (n k : Nat) (flags : UInt8) : Prop :=
  (flags &&& firmwareUpdateFlagFirstBlock ≠ 0 ↔ k = 0) ∧ (flags &&& firmwareUpdateFlagLastBlock ≠ 0 ↔ k + 1 = n)

theorem marks_iff {n : Nat} (hn : 0 < n) : (∀ k < n, Marks n k (flagsOf n k)) ↔ 2 ≤ n ∧ n ≤ 2 ^ 32 := by
  simp only [Marks, flagsOf_first, flagsOf_last]
  constructor
  · intro h
    have h0 := (h 0 hn).1.mpr rfl
    refine ⟨by omega, ?_⟩
    -- packet 2^32 would be a first block again, unless the counts make packet 0 the last
    by_contra hle
    have hw := (h (2 ^ 32) (by omega)).1.mp ⟨by omega, by omega⟩
    omega
  · intro h k hk
    constructor <;> constructor <;> intro <;> omega

/-- One packet per record, in file order, with the record's data, its number, its address
    relative to the first record's and the block marks; and the transfer succeeds. -/
structure TransferLaw (recs : List Record) (run : Run) : Prop where
  outcome : run.outcome = .ret true
  count : run.sent.length = recs.length
  packets : ∀ (i : Nat) (r first : Record), recs[i]? = some r → recs[0]? = some first →
    ∃ p flags, run.sent[i]? = some p ∧ PacketOf r flags i (r.address - first.address) p ∧ Marks recs.length i flags

/-- What a transfer of whole records to a device that answers SUCCESS comes to. -/
theorem fwUpdateSrc_spec (device : Nat → Exchange) (recs : List Record) {tail : List UInt8} (ht : Ended tail)
    (report : Report) {first : Record} (hfirst : recs[0]? = some first)
    (hdev : AllAccepted device report recs.length) :
    (fwUpdateSrc device (some (fileOf recs ++ tail)) report).outcome = .ret true ∧
    (fwUpdateSrc device (some (fileOf recs ++ tail)) report).sent.length = recs.length ∧
    ∀ (i : Nat) (r : Record), recs[i]? = some r →
      ∃ (p : List UInt8) (start : UInt32),
        (fwUpdateSrc device (some (fileOf recs ++ tail)) report).sent[i]? = some p ∧
        PacketOf r (flagsOf recs.length i) i (r.address - start) p ∧ (i < 2 ^ 32 → start = first.address) := by
  have hn := recordsIn_fileOf recs ht
  obtain ⟨hout, hsent⟩ := fwUpdateSrc_run device (fileOf recs ++ tail) report
  refine ⟨hout.mpr ⟨_, hn, hdev⟩, (hsent _ hn hdev).1, ?_⟩
  obtain ⟨s, hs, hrep, hrun⟩ := fwUpdateSrc_second device report hn
  have h := sendPackets_spec device recs.length first.address recs tail 0 s
    (by simpa only [Nat.zero_add, hrep] using hdev) hs
    (fun r _ hr => by rw [hfirst] at hr; cases hr; rfl) (fun h => absurd h (lt_irrefl 0))
  simp only [Nat.zero_add] at h
  rw [hrun]
  exact h

theorem PacketOf.flags_unique {r r' : Record} {f f' : UInt8} {k k' : Nat} {a a' : UInt32} {p : List UInt8}
    (h : PacketOf r f k a p) (h' : PacketOf r' f' k' a' p) : f = f' :=
  Option.some.inj (h.flags.symm.trans h'.flags)

/-- Under the law, the flag bytes the code leaves are the marks. -/
theorem TransferLaw.marks {device : Nat → Exchange} {recs : List Record} {report : Report}
    (law : TransferLaw recs (fwUpdateSrc device (some (fileOf recs)) report))
    (hdev : ∀ i < recs.length, AnswersSuccess (device i)) (hi : report.index = 0)
    (hb : report.repBuff.length = reportLengthStandard) {k : Nat} (hk : k < recs.length) :
    Marks recs.length k (flagsOf recs.length k) := by
  have hfirst : recs[0]? = some recs[0] := List.getElem?_eq_getElem (by omega)
  have hr : recs[k]? = some recs[k] := List.getElem?_eq_getElem hk
  have h := (fwUpdateSrc_spec device recs ended_nil report hfirst (allAccepted_of_answers _ hdev hi hb)).2.2 k _ hr
  rw [List.append_nil] at h
  obtain ⟨p, start, hp, hof, -⟩ := h
  obtain ⟨p', flags, hp', hof', hmarks⟩ := law.packets k _ _ hr hfirst
  rw [hp] at hp'
  cases hp'
  rw [hof.flags_unique hof']
  exact hmarks

/-- The law holds exactly for files of two to 2^32 records. -/
theorem transfer_law_iff (device : Nat → Exchange) (recs : List Record) (report : Report) (hne : recs ≠ [])
    (hdev : ∀ i < recs.length, AnswersSuccess (device i)) (hi : report.index = 0)
    (hb : report.repBuff.length = reportLengthStandard) :
    TransferLaw recs (fwUpdateSrc device (some (fileOf recs)) report) ↔ 2 ≤ recs.length ∧ recs.length ≤ 2 ^ 32 := by
  have hn : 0 < recs.length := List.length_pos_iff.mpr hne
  have hfirst : recs[0]? = some recs[0] := List.getElem?_eq_getElem hn
  have hspec := fwUpdateSrc_spec device recs ended_nil report hfirst (allAccepted_of_answers _ hdev hi hb)
  rw [List.append_nil] at hspec
  obtain ⟨hout, hcount, hpackets⟩ := hspec
  constructor
  · intro law
    exact (marks_iff hn).mp (fun k hk => law.marks hdev hi hb hk)
  · intro h
    refine ⟨hout, hcount, ?_⟩
    intro i r first hr hf
    rw [hfirst] at hf
    cases hf
    have hlt : i < recs.length := (List.getElem?_eq_some_iff.mp hr).1
    obtain ⟨p, start, hp, hof, hstart⟩ := hpackets i r hr
    rw [hstart (by omega)] at hof
    exact ⟨p, _, hp, hof, (marks_iff hn).mpr h i hlt⟩

theorem prompt_answers : AnswersSuccess prompt := by
  refine ⟨?_, List.replicate 17 0, rfl, rfl, rfl⟩
  intro frame hframe
  cases frame with
  | nil => cases hframe
  | cons b frame =>
    simp only [prompt, ttyWriteRest]
    rw [if_pos hframe.le]

/-- A record of one byte. -/
def Record.single (address : UInt32) (b : UInt8) : Record := ⟨address, [b], by simp, by simp⟩

theorem two_records_meet_law :
    TransferLaw [.single 0x1000 1, .single 0x1001 2]
      (fwUpdateSrc (fun _ => prompt) (some (fileOf [.single 0x1000 1, .single 0x1001 2])) .start) :=
  (transfer_law_iff (fun _ => prompt) [.single 0x1000 1, .single 0x1001 2] .start (by simp)
    (fun _ _ => prompt_answers) rfl rfl).mpr ⟨by decide, by decide⟩

/-- A file of one record: its packet carries the last-block mark only. -/
theorem one_record_loses_first_mark :
    (∃ p, (fwUpdateSrc (fun _ => prompt) (some (fileOf [.single 0x1000 1])) .start).sent[0]? = some p ∧
      p[1]? = some firmwareUpdateFlagLastBlock) ∧
    ¬ TransferLaw [.single 0x1000 1] (fwUpdateSrc (fun _ => prompt) (some (fileOf [.single 0x1000 1])) .start) := by
  constructor
  · have h := (fwUpdateSrc_spec (fun _ => prompt) [.single 0x1000 1] ended_nil .start rfl
      (allAccepted_of_answers _ (fun _ _ => prompt_answers) rfl rfl)).2.2 0 _ rfl
    obtain ⟨p, start, hp, hof, -⟩ := h
    exact ⟨p, hp, hof.flags⟩
  · intro law
    have h := law.marks (fun _ _ => prompt_answers) rfl rfl (k := 0) (by decide)
    exact absurd (h.1.mpr rfl) (by decide)

end AmebaLinux.Rcp.FwUpdateSrc
