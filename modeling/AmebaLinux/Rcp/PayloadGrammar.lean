/-
  AmebaLinux.Rcp.PayloadGrammar — which payload files `FwUpdateSrc` accepts.

  The grammar: one or more complete records, ended by the end of the file or by a record
  header with length 0. The device is one that answers SUCCESS to everything.

  Proved:
  - `payload_law_iff`: exactly the grammar is accepted, and only bytes of the file are
    sent, for every file but two kinds: a file without a record (`0 * 100.0 / 0` is not
    below 100, so nothing sent counts as all sent) and a file whose last record is cut
    inside its data (the short `read` is taken, and the rest of the block is what
    `pBuff` held).
-/

import AmebaLinux.Rcp.FwUpdateSrcProofs

namespace AmebaLinux.Rcp.FwUpdateSrc

open AmebaLinux.Lib.Bytes
open AmebaLinux.Rcp.Tty

/-! ## The grammar -/

/-- What may follow the last record: nothing, or a header with length 0. -/
def GrammarEnd (tail : List UInt8) : Prop := tail = [] ∨ ∃ address rest, address.length = 4 ∧ tail = address ++ 0 :: rest

def InGrammar (file : List UInt8) : Prop := ∃ recs tail, recs ≠ [] ∧ file = fileOf recs ++ tail ∧ GrammarEnd tail

/-- A header, and some of the data it announces but not all. -/
def CutBlock (tail : List UInt8) : Prop :=
  ∃ address length got, address.length = 4 ∧ tail = address ++ length :: got ∧ length ≤ (52 : UInt8) ∧ got ≠ [] ∧
    got.length < length.toNat

/-- After complete records, the file ends inside the data of the next. -/
def CutInData (file : List UInt8) : Prop := ∃ recs tail, file = fileOf recs ++ tail ∧ CutBlock tail

/-- Exactly the grammar is reported as sent, and packet `i` carries the data of the
    file's record `i`. -/
structure PayloadLaw (file : List UInt8) (run : Run) : Prop where
  accepts : run.outcome = .ret true ↔ InGrammar file
  carries : ∃ recs tail, file = fileOf recs ++ tail ∧ run.sent.length ≤ recs.length ∧
    ∀ (i : Nat) (r : Record) (p : List UInt8), recs[i]? = some r → run.sent[i]? = some p →
      p[2]? = some r.len ∧ (p.drop 9).take r.data.length = r.data

/-! ## The parser on a header -/

theorem processSrecBin_header (address : List UInt8) (length : UInt8) (rest : List UInt8) (c : ContentData)
    (h4 : address.length = 4) :
    ∃ c0 c1, processSrecBin (address ++ length :: rest) c =
      if length = 0 then some (false, rest, c0)
      else if 52 < length then none
      else if rest.take length.toNat = [] then none
      else some (true, rest.drop length.toNat, c1) := by
  have hne : address ≠ [] := by rintro rfl; cases h4
  have hb : ∀ buf : List UInt8, (overlay buf 0 [length]).getD 0 0 = length := fun buf => by simp [overlay]
  simp only [processSrecBin, take_of_length h4, drop_of_length h4, hne, if_false, List.take_succ_cons, List.take_zero,
    List.cons_ne_nil, List.drop_succ_cons, List.drop_zero, hb]
  exact ⟨_, _, rfl⟩

theorem ended_of_grammarEnd {tail : List UInt8} (h : GrammarEnd tail) : Ended tail := by
  rcases h with rfl | ⟨address, rest, h4, rfl⟩
  · exact ended_nil
  · intro c
    obtain ⟨c0, c1, h⟩ := processSrecBin_header address 0 rest c h4
    exact ⟨rest, c0, by rw [h, if_pos rfl]⟩

/-- A cut block is read as if it were whole. -/
theorem processSrecBin_cut {tail : List UInt8} (h : CutBlock tail) (c : ContentData) :
    ∃ c', processSrecBin tail c = some (true, [], c') := by
  obtain ⟨address, length, got, h4, rfl, h52, hne, hlt⟩ := h
  have h0 : length ≠ 0 := by rintro rfl; exact absurd hlt (by simp)
  have htake : got.take length.toNat = got := List.take_of_length_le hlt.le
  have hdrop : got.drop length.toNat = [] := List.drop_of_length_le hlt.le
  obtain ⟨c0, c1, h⟩ := processSrecBin_header address length got c h4
  refine ⟨c1, ?_⟩
  rw [h, if_neg h0, if_neg (UInt8.not_lt.mpr h52), htake, if_neg hne, hdrop]

/-- What a file can start with: the end, a record, a cut record, or something the parser
    exits on. -/
theorem head_cases (file : List UInt8) :
    GrammarEnd file ∨ (∃ r rest, file = Record.bytes r ++ rest) ∨ CutBlock file ∨
      ∀ c, processSrecBin file c = none := by
  by_cases hnil : file = []
  · exact .inl (.inl hnil)
  rcases hd : file.drop 4 with _ | ⟨length, rest⟩
  · -- no length byte
    refine .inr (.inr (.inr fun c => ?_))
    have ht : file.take 4 ≠ [] := by simpa using hnil
    simp only [processSrecBin, if_neg ht, hd, List.take_nil, if_true]
  have hfile : file = file.take 4 ++ length :: rest := by rw [← hd, List.take_append_drop]
  have h4 : (file.take 4).length = 4 := by
    have hlen := congrArg List.length hd
    simp only [List.length_drop, List.length_cons] at hlen
    rw [List.length_take]; omega
  by_cases h0 : length = 0
  · exact .inl (.inr ⟨_, rest, h4, h0 ▸ hfile⟩)
  by_cases h52 : 52 < length
  · refine .inr (.inr (.inr fun c => ?_))
    obtain ⟨c0, c1, h⟩ := processSrecBin_header (file.take 4) length rest c h4
    rw [hfile, h, if_neg h0, if_pos h52]
  by_cases hrest : rest = []
  · refine .inr (.inr (.inr fun c => ?_))
    obtain ⟨c0, c1, h⟩ := processSrecBin_header (file.take 4) length rest c h4
    rw [hfile, h, if_neg h0, if_neg h52, hrest, List.take_nil, if_pos rfl]
  by_cases hcut : rest.length < length.toNat
  · exact .inr (.inr (.inl ⟨_, length, rest, h4, hfile, UInt8.not_lt.mp h52, hrest, hcut⟩))
  -- a complete record
  have hpos : 0 < length.toNat := Nat.pos_of_ne_zero fun e => h0 (UInt8.toNat_inj.mp e)
  have hle : length.toNat ≤ 52 := by simpa [UInt8.lt_iff_toNat_lt] using h52
  have hdata : (rest.take length.toNat).length = length.toNat := by rw [List.length_take]; omega
  let r : Record := ⟨UInt32.ofNat (leNat (file.take 4)), rest.take length.toNat, by omega, by omega⟩
  have haddr : toLe 4 r.address.toNat = file.take 4 := by
    have hlt := leNat_lt (file.take 4)
    rw [h4] at hlt
    have hnat : r.address.toNat = leNat (file.take 4) := by
      show (UInt32.ofNat _).toNat = _
      rw [UInt32.toNat_ofNat', Nat.mod_eq_of_lt (hlt.trans_eq (by norm_num))]
    have hback := toLe_leNat (file.take 4)
    rwa [h4, ← hnat] at hback
  have hlen : r.len = length := by
    show UInt8.ofNat (rest.take length.toNat).length = length
    rw [hdata, UInt8.ofNat_toNat]
  refine .inr (.inl ⟨r, rest.drop length.toNat, ?_⟩)
  rw [Record.bytes, haddr, hlen, List.append_assoc, List.cons_append]
  show file = file.take 4 ++ length :: (rest.take length.toNat ++ rest.drop length.toNat)
  rw [List.take_append_drop]
  exact hfile

/-! ## Whole files -/

/-- Every file is complete records and then one of the other three. -/
theorem file_cases (file : List UInt8) : ∃ recs tail, file = fileOf recs ++ tail ∧
    (GrammarEnd tail ∨ CutBlock tail ∨ ∀ c, processSrecBin tail c = none) := by
  induction hl : file.length using Nat.strong_induction_on generalizing file with
  | _ l ih =>
  rcases head_cases file with h | ⟨r, rest, h⟩ | h | h
  · exact ⟨[], file, rfl, .inl h⟩
  · have hlt : rest.length < l := by
      rw [← hl]
      exact processSrecBin_lt (h ▸ processSrecBin_record r rest .zero)
    obtain ⟨recs, tail, rfl, hcases⟩ := ih _ hlt rest rfl
    exact ⟨r :: recs, tail, by rw [h, fileOf_cons, List.append_assoc], hcases⟩
  · exact ⟨[], file, rfl, .inr (.inl h)⟩
  · exact ⟨[], file, rfl, .inr (.inr h)⟩

theorem recordsIn_bad (recs : List Record) {tail : List UInt8} (h : ∀ c, processSrecBin tail c = none) :
    recordsIn (fileOf recs ++ tail) = none := by
  induction recs with
  | nil => exact recordsIn_exit (h .zero)
  | cons r recs ih =>
    rw [fileOf_cons, List.append_assoc, recordsIn_next (processSrecBin_record r _ .zero), ih]
    rfl

theorem recordsIn_cut (recs : List Record) {tail : List UInt8} (h : CutBlock tail) :
    recordsIn (fileOf recs ++ tail) = some (recs.length + 1) := by
  induction recs with
  | nil =>
    obtain ⟨c', hc'⟩ := processSrecBin_cut h .zero
    rw [fileOf, List.flatMap_nil, List.nil_append, recordsIn_next hc', recordsIn_stop (processSrecBin_nil .zero)]
    rfl
  | cons r recs ih =>
    rw [fileOf_cons, List.append_assoc, recordsIn_next (processSrecBin_record r _ .zero), ih]
    rfl

/-- No record starts where the grammar ends. -/
theorem not_record_of_end {file rest : List UInt8} {r : Record} (h : GrammarEnd file) : file ≠ r.bytes ++ rest := by
  rintro rfl
  obtain ⟨f, c, hc⟩ := ended_of_grammarEnd h .zero
  rw [processSrecBin_record] at hc
  cases hc

/-- A cut block is not a record: it is too short for its length byte. -/
theorem not_record_of_cut {file rest : List UInt8} {r : Record} (h : CutBlock file) : file ≠ r.bytes ++ rest := by
  obtain ⟨address, length, got, h4, rfl, -, -, hlt⟩ := h
  intro he
  rw [Record.bytes, List.append_assoc] at he
  obtain ⟨-, he⟩ := List.append_inj he (h4.trans (toLe_length 4 _).symm)
  rw [List.cons_append, List.cons.injEq] at he
  obtain ⟨rfl, rfl⟩ := he
  rw [r.len_toNat, List.length_append] at hlt
  omega

theorem record_rest_unique {r r' : Record} {rest rest' : List UInt8} (h : r.bytes ++ rest = r'.bytes ++ rest') :
    rest = rest' := by
  have e := processSrecBin_record r rest .zero
  rw [h, processSrecBin_record] at e
  simp only [Option.some.injEq, Prod.mk.injEq] at e
  exact e.2.1.symm

/-- A file cut inside its data is not in the grammar. -/
theorem not_grammar_of_cut {file : List UInt8} (hcut : CutInData file) : ¬ InGrammar file := by
  rintro ⟨recs, tail, -, hfile, hend⟩
  obtain ⟨recs', tail', hfile', hcut⟩ := hcut
  rw [hfile'] at hfile
  clear hfile'
  induction recs' generalizing recs with
  | nil =>
    cases recs with
    | nil =>
      obtain ⟨f, c, hc⟩ := ended_of_grammarEnd hend .zero
      obtain ⟨c', hc'⟩ := processSrecBin_cut hcut .zero
      obtain rfl : tail' = tail := hfile
      rw [hc] at hc'
      cases hc'
    | cons r recs => exact not_record_of_cut hcut (by rwa [fileOf_cons, List.append_assoc] at hfile)
  | cons r' recs' ih =>
    rw [fileOf_cons, List.append_assoc] at hfile
    cases recs with
    | nil => exact not_record_of_end hend hfile.symm
    | cons r recs =>
      rw [fileOf_cons, List.append_assoc] at hfile
      exact ih recs (record_rest_unique hfile)

theorem recordsIn_grammar {file : List UInt8} (h : InGrammar file) : ∃ n, recordsIn file = some n := by
  obtain ⟨recs, tail, -, rfl, hend⟩ := h
  exact ⟨_, recordsIn_fileOf recs (ended_of_grammarEnd hend)⟩

/-! ## The law -/

theorem law_of_exit (device : Nat → Exchange) (report : Report) {file : List UInt8} (h : recordsIn file = none) :
    PayloadLaw file (fwUpdateSrc device (some file) report) := by
  have hno : ¬ InGrammar file := by
    intro hg
    obtain ⟨n, hn⟩ := recordsIn_grammar hg
    rw [h] at hn
    cases hn
  rw [fwUpdateSrc_exit device report h]
  refine ⟨iff_of_false ?_ hno, [], file, rfl, Nat.le_refl _, ?_⟩
  · intro e; cases e
  · intro i r p hr; simp at hr

section

variable {device : Nat → Exchange} {report : Report} (hdev : ∀ n, AllAccepted device report n)

include hdev

/-- A file the parser reads to an end is reported as sent. -/
theorem outcome_of_recordsIn {file : List UInt8} {n : Nat} (h : recordsIn file = some n) :
    (fwUpdateSrc device (some file) report).outcome = .ret true :=
  (fwUpdateSrc_run device file report).1.mpr ⟨n, h, hdev n⟩

theorem law_of_grammar {recs : List Record} {tail : List UInt8} (hne : recs ≠ []) (hend : GrammarEnd tail) :
    PayloadLaw (fileOf recs ++ tail) (fwUpdateSrc device (some (fileOf recs ++ tail)) report) := by
  obtain ⟨first, hfirst⟩ : ∃ first, recs[0]? = some first :=
    ⟨_, List.getElem?_eq_getElem (List.length_pos_iff.mpr hne)⟩
  obtain ⟨hout, hlen, hpackets⟩ :=
    fwUpdateSrc_spec device recs (ended_of_grammarEnd hend) report hfirst (hdev recs.length)
  refine ⟨iff_of_true hout ⟨recs, tail, hne, rfl, hend⟩, recs, tail, rfl, hlen.le, ?_⟩
  intro i r p hr hp
  obtain ⟨p', start, hp', hof, -⟩ := hpackets i r hr
  rw [hp] at hp'
  cases hp'
  exact ⟨hof.length, hof.data⟩

/-- The law holds exactly for the files that start with a record or with something the
    parser exits on, and are not cut inside the data of a record. -/
theorem payload_law_iff (file : List UInt8) :
    PayloadLaw file (fwUpdateSrc device (some file) report) ↔ ¬ GrammarEnd file ∧ ¬ CutInData file := by
  constructor
  · intro law
    refine ⟨fun hend => ?_, fun hcut => ?_⟩
    · have hn : recordsIn file = some 0 := recordsIn_fileOf [] (ended_of_grammarEnd hend)
      obtain ⟨recs, tail, hne, hfile, -⟩ := law.accepts.mp (outcome_of_recordsIn hdev hn)
      cases recs with
      | nil => exact hne rfl
      | cons r recs => exact not_record_of_end hend (by rw [hfile, fileOf_cons, List.append_assoc])
    · obtain ⟨recs, tail, hfile, htail⟩ := id hcut
      have hn : recordsIn file = some (recs.length + 1) := hfile ▸ recordsIn_cut recs htail
      exact not_grammar_of_cut hcut (law.accepts.mp (outcome_of_recordsIn hdev hn))
  · rintro ⟨hend, hcut⟩
    obtain ⟨recs, tail, hfile, h | h | h⟩ := file_cases file
    · have hne : recs ≠ [] := by rintro rfl; exact hend (hfile ▸ h)
      rw [hfile]
      exact law_of_grammar hdev hne h
    · exact absurd ⟨recs, tail, hfile, h⟩ hcut
    · exact law_of_exit device report (hfile ▸ recordsIn_bad recs h)

end

theorem prompt_accepts (n : Nat) : AllAccepted (fun _ => prompt) .start n :=
  allAccepted_of_answers n (fun _ _ => prompt_answers) rfl rfl

/-- A header for 4 bytes and only one of them: reported as sent, though no such file is
    in the grammar. So is a file with nothing in it. -/
theorem cut_file_accepted :
    (let run := fwUpdateSrc (fun _ => prompt) (some [0, 0, 0, 0, 4, 0xaa]) .start
     run.outcome = .ret true ∧ ¬ PayloadLaw [0, 0, 0, 0, 4, 0xaa] run) ∧
    (let run := fwUpdateSrc (fun _ => prompt) (some []) .start
     run.outcome = .ret true ∧ ¬ PayloadLaw [] run) := by
  have hcut : CutBlock [0, 0, 0, 0, 4, 0xaa] :=
    ⟨[0, 0, 0, 0], 4, [0xaa], rfl, rfl, by decide, by decide, by decide⟩
  have hout := outcome_of_recordsIn prompt_accepts (recordsIn_cut [] hcut)
  have hempty := outcome_of_recordsIn prompt_accepts (recordsIn_fileOf [] ended_nil)
  refine ⟨⟨hout, fun law => ?_⟩, ⟨hempty, fun law => ?_⟩⟩
  · exact not_grammar_of_cut ⟨[], _, rfl, hcut⟩ (law.accepts.mp hout)
  · obtain ⟨recs, tail, hne, hfile, -⟩ := law.accepts.mp hempty
    cases recs with
    | nil => exact hne rfl
    | cons r recs => exact not_record_of_end (.inl rfl) (by rw [hfile, fileOf_cons, List.append_assoc])

/-- A one-record file is sent, and nothing but it. -/
theorem complete_file_accepted :
    PayloadLaw [0, 0, 0, 0, 1, 0xaa] (fwUpdateSrc (fun _ => prompt) (some [0, 0, 0, 0, 1, 0xaa]) .start) := by
  refine (payload_law_iff prompt_accepts [0, 0, 0, 0, 1, 0xaa]).mpr ⟨fun hend => ?_, fun hcut => ?_⟩
  · exact @not_record_of_end _ [] (.single 0 0xaa) hend rfl
  · refine not_grammar_of_cut hcut ⟨[.single 0 0xaa], [], by simp, rfl, .inl rfl⟩

end AmebaLinux.Rcp.FwUpdateSrc
