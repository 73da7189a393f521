/-
  AmebaLinux.Hciattach.PatchV3Proofs — what a version 3 download sends
  (see `AmebaLinux.Hciattach.PatchV3`).

  A well-formed file is a `PatchFile`. Its accepted sections, in file order, are the
  `jobs`; the first of them also carries the config.

  Proved:
  - `getPatchInfo_file`: the queue after parsing holds the jobs in their order.
  - `copyFragment_spec` / `nextCommand_fragment`: one command carries the next fragment of
    the section that is being sent.
  - `sends_patch`: the whole command trace.
-/

import AmebaLinux.Lib.Fragments
import AmebaLinux.Hciattach.LinkProofs
import AmebaLinux.Hciattach.PatchV3

namespace AmebaLinux.Hciattach.PatchV3

open AmebaLinux.Lib
open AmebaLinux.Lib.Bytes
open AmebaLinux.Hciattach.Link

/-! ## Well-formed files -/

/-- The body of a patch image section. -/
structure Body where
  chipId : UInt16
  icCut : UInt8
  keyId : UInt8
  otaEn : UInt8
  /-- The part of the information that is not read. -/
  gap : List UInt8
  gapLen : gap.length = 986
  startAddr : UInt64
  startValue : UInt64
  remainAddr : UInt64
  remainValue : UInt64
  priority : UInt8
  image : List UInt8
  fits : image.length < 2 ^ 64

/-- A gap of zeros. -/
theorem zeroGap_length : (List.replicate 986 (0 : UInt8)).length = 986 := List.length_replicate

def Body.ids (b : Body) : List UInt8 := toLe 2 b.chipId.toNat ++ [b.icCut, b.keyId, b.otaEn]

def regBytes (addr value : UInt64) : List UInt8 := toLe 8 addr.toNat ++ toLe 8 value.toNat

def Body.bytes (b : Body) : List UInt8 :=
  b.ids ++ (b.gap ++ (regBytes b.startAddr b.startValue ++ (regBytes b.remainAddr b.remainValue ++
    ([b.priority] ++ (toLe 8 b.image.length ++ b.image)))))

inductive Section where
  | image (payloadLen : UInt64) (body : Body)
  | other (opcode : UInt32) (payloadLen : UInt64) (h : opcode ≠ 1)

def Section.opcode : Section → UInt32
  | .image _ _ => 1
  | .other opcode _ _ => opcode

def Section.payloadLen : Section → UInt64
  | .image payloadLen _ => payloadLen
  | .other _ payloadLen _ => payloadLen

def Section.body? : Section → Option Body
  | .image _ body => some body
  | .other _ _ _ => none

def Section.header (s : Section) : List UInt8 := toLe 4 s.opcode.toNat ++ toLe 8 s.payloadLen.toNat

/-- The sections from offset `p` on; each starts where the one before says it ends. -/
inductive SectionsAt (fw : List UInt8) : Nat → List Section → Prop
  | nil (p : Nat) : SectionsAt fw p []
  | cons {p : Nat} {s : Section} {rest : List Section} (header : At fw p s.header)
      (body : ∀ b, s.body? = some b → At fw (p + 12) b.bytes)
      (tail : SectionsAt fw (p + 12 + s.payloadLen.toNat) rest) : SectionsAt fw p (s :: rest)

/-- A firmware file with its sections: 8 bytes of signature, the version, a reserved word
    and the number of sections precede them. -/
structure PatchFile where
  fw : List UInt8
  sections : List Section
  fits : sections.length < 2 ^ 32
  count : At fw 20 (toLe 4 sections.length)
  layout : SectionsAt fw 24 sections

/-- The section is for this project, cut and key, not over the air, and not empty. -/
def Body.accepted (chipid : UInt8) (b : Body) : Bool :=
  b.chipId == 0x28 && b.icCut == chipid && b.keyId == 0 && b.otaEn == 0 && !b.image.isEmpty

/-- The accepted sections in file order, at most 64. -/
def accepted (chipid : UInt8) (sections : List Section) : List Body :=
  ((sections.filterMap Section.body?).filter (Body.accepted chipid)).take 64

/-- A section to send, with what follows its image. -/
structure Job where
  body : Body
  tail : List UInt8

def Job.stream (j : Job) : List UInt8 := j.body.image ++ j.tail

/-- The config follows the image of the section accepted first. -/
def jobs (config : List UInt8) : List Body → List Job
  | [] => []
  | b :: rest => ⟨b, config⟩ :: rest.map (⟨·, []⟩)

theorem jobs_append (config : List UInt8) (l : List Body) (b : Body) :
    jobs config (l ++ [b]) = jobs config l ++ [⟨b, if l = [] then config else []⟩] := by
  cases l with
  | nil => rfl
  | cons a l => simp [jobs]

def Body.regStart (b : Body) : Reg := ⟨b.startAddr.toUInt32, b.startValue.toUInt32⟩
def Body.regRemain (b : Body) : Reg := ⟨b.remainAddr.toUInt32, b.remainValue.toUInt32⟩

/-- The section has a remain size and a valid address for it. -/
def Body.hasSecurity (b : Body) : Bool := b.regRemain.value != 0 && b.regRemain.valid

/-- The security section: the highest priority among those that have one, the earliest of
    them. -/
def securityBody (bodies : List Body) : Option Body := (bodies.filter Body.hasSecurity).argmax (·.priority.toNat)

/-! ## Parsing -/

/-- A job whose image stands at an offset of the file. -/
structure Placed (fw : List UInt8) where
  job : Job
  off : Nat
  placed : At fw off job.body.image

variable {fw : List UInt8}

def Placed.node (x : Placed fw) : SectionNode :=
  mkNode (UInt32.ofNat x.job.body.image.length) (UInt32.ofNat x.job.stream.length) x.off x.job.body.priority
    x.job.body.regStart x.job.body.regRemain

/-- What is known after some sections: those accepted so far are queued. -/
structure Queued (fw config : List UInt8) (bodies : List Body) (ps : List (Placed fw)) (fwLen : UInt32) (info : PatchInfo) :
    Prop where
  jobs : ps.map (·.job) = jobs config bodies
  most : bodies.length ≤ 64
  sectionCnt : info.sectionCnt = UInt8.ofNat bodies.length
  configLen : info.configLen = UInt16.ofNat config.length
  unsent : info.sentFwLen = 0 ∧ info.sentConfigLen = 0
  nodes : info.nodes = (ps.map Placed.node).foldl insertPatchQueue []
  security : info.securityNode = (ps.map Placed.node).foldl selectSecuritySectionNode none
  fwLen : fwLen = UInt32.ofNat (bodies.map (·.image.length)).sum

theorem readReg_at {buf : List UInt8} {p : Nat} {addr value : UInt64} (h : At buf p (regBytes addr value)) :
    readReg buf p = .ok ⟨addr.toUInt32, value.toUInt32⟩ := by
  have haddr : readLe buf p 8 = .ok addr.toNat := readLe_at h.left addr.toNat_lt
  have hvalue : readLe buf (p + 8) 8 = .ok value.toNat := readLe_at h.right value.toNat_lt
  rw [readReg, haddr, hvalue]
  rfl

/-- What the parser reads of a body. -/
structure Reads (buf : List UInt8) (p : Nat) (b : Body) : Prop where
  chipId : readLe buf p 2 = .ok b.chipId.toNat
  icCut : readByte buf (p + 2) = .ok b.icCut
  keyId : readByte buf (p + 3) = .ok b.keyId
  otaEn : readByte buf (p + 4) = .ok b.otaEn
  imageLen : readLe buf (p + 1024) 8 = .ok b.image.length
  priority : readByte buf (p + 1023) = .ok b.priority
  regRemain : readReg buf (p + 1007) = .ok b.regRemain
  regStart : readReg buf (p + 991) = .ok b.regStart
  image : At buf (p + 1032) b.image

theorem reads_at {buf : List UInt8} {p : Nat} {b : Body} (h : At buf p b.bytes) : Reads buf p b := by
  have hids : At buf p (toLe 2 b.chipId.toNat ++ ([b.icCut] ++ ([b.keyId] ++ [b.otaEn]))) := h.left
  have hgap := h.right
  have hstart := hgap.right
  have hremain := hstart.right
  have hprio := hremain.right
  have hlen := hprio.right
  have himage := hlen.right
  simp only [Body.ids, regBytes, List.length_append, toLe_length, List.length_cons, List.length_nil, b.gapLen,
    Nat.add_assoc] at hstart hremain hprio hlen himage
  exact ⟨readLe_at hids.left b.chipId.toNat_lt, readByte_at hids.right.left, readByte_at hids.right.right.left,
    readByte_at hids.right.right.right, readLe_at hlen.left b.fits, readByte_at hprio.left, readReg_at hremain.left,
    readReg_at hstart.left, himage⟩

theorem Queued.take {config : List UInt8} {bodies : List Body} {ps : List (Placed fw)} {fwLen : UInt32} {info : PatchInfo}
    (h : Queued fw config bodies ps fwLen info) : bodies.take 64 = bodies := List.take_of_length_le h.most

theorem Queued.full {config : List UInt8} {bodies : List Body} {ps : List (Placed fw)} {fwLen : UInt32} {info : PatchInfo}
    (h : Queued fw config bodies ps fwLen info) : info.sectionCnt ≥ 64 ↔ bodies.length = 64 := by
  have hmost := h.most
  rw [h.sectionCnt, ge_iff_le, UInt8.le_iff_toNat_le, size8_toNat (by omega)]
  show 64 ≤ bodies.length ↔ _
  omega

/-- A section that is accepted joins the queue. -/
theorem Queued.add {config : List UInt8} {bodies : List Body} {ps : List (Placed fw)} {fwLen : UInt32} {info : PatchInfo}
    (h : Queued fw config bodies ps fwLen info) (hroom : bodies.length < 64) (b : Body) {off : Nat} (hat : At fw off b.image) :
    let x : Placed fw := ⟨⟨b, if bodies = [] then config else []⟩, off, hat⟩
    Queued fw config (bodies ++ [b]) (ps ++ [x]) (fwLen + UInt32.ofNat b.image.length)
      { info with
        sectionCnt := info.sectionCnt + 1
        nodes := insertPatchQueue info.nodes x.node
        securityNode := selectSecuritySectionNode info.securityNode x.node } := by
  intro x
  refine ⟨?_, ?_, ?_, h.configLen, h.unsent, ?_, ?_, ?_⟩
  · rw [List.map_append, h.jobs, jobs_append]
    rfl
  · rw [List.length_append]
    exact hroom
  · simp [h.sectionCnt]
  · simp [h.nodes]
  · simp [h.security]
  · simp [h.fwLen]

/-- The total length of the section that is accepted next. -/
theorem Queued.totalLen {config : ConfigBuf} {bodies : List Body} {ps : List (Placed fw)} {fwLen : UInt32} {info : PatchInfo}
    (h : Queued fw config.bytes bodies ps fwLen info) (hroom : bodies.length < 64) (b : Body) :
    (if info.sectionCnt + 1 = 1 then UInt32.ofNat b.image.length + info.configLen.toUInt32 else UInt32.ofNat b.image.length) =
      UInt32.ofNat (Job.stream ⟨b, if bodies = [] then config.bytes else []⟩).length := by
  have hcfit := config.fits
  have hfirst : info.sectionCnt + 1 = 1 ↔ bodies = [] := by
    have hone : (1 : UInt8) = UInt8.ofNat 1 := rfl
    rw [h.sectionCnt, hone, ← UInt8.ofNat_add, ← UInt8.toNat_inj, size8_toNat (by omega),
      UInt8.toNat_ofNat_of_lt' (by decide), ← List.length_eq_zero_iff]
    omega
  by_cases hb : bodies = []
  · rw [if_pos (hfirst.mpr hb), if_pos hb, h.configLen, UInt16.toUInt32_ofNat' (by simp [UInt16.size]; omega),
      ← UInt32.ofNat_add, Job.stream, List.length_append]
  · rw [if_neg (fun hc => hb (hfirst.mp hc)), if_neg hb, Job.stream, List.append_nil]

theorem accepted_iff {chipid : UInt8} {b : Body} : b.accepted chipid = true ↔
    ¬ (b.chipId.toNat ≠ hciPatchProjectId ∨ b.icCut ≠ chipid ∨ b.keyId ≠ 0 ∨ b.otaEn ≠ 0) ∧ b.image.length ≠ 0 := by
  have hid : b.chipId = 0x28 ↔ b.chipId.toNat = hciPatchProjectId := by rw [← UInt16.toNat_inj]; rfl
  simp only [Body.accepted, Bool.and_eq_true, beq_iff_eq, hid, Bool.not_eq_true', List.isEmpty_eq_false_iff, ne_eq,
    List.length_eq_zero_iff]
  tauto

/-- `_parse_patch_image` over the fields of the body. -/
theorem parsePatchImage_eq {f : Image} {b : Body} {p : Nat} (r : Reads f.buf p b) (info : PatchInfo) :
    parsePatchImage f p info =
      if b.chipId.toNat ≠ hciPatchProjectId ∨ b.icCut ≠ f.chipid ∨ b.keyId ≠ f.patchKeyId ∨ b.otaEn ≠ 0 then .ok (0, info)
      else if info.sectionCnt ≥ 64 then .ok (0, info)
      else if b.image.length = 0 then .ok (0, info)
      else
        let imageLen := UInt32.ofNat b.image.length
        let totalLen := if info.sectionCnt + 1 = 1 then imageLen + info.configLen.toUInt32 else imageLen
        let node := mkNode imageLen totalLen (p + 1032) b.priority b.regStart b.regRemain
        .ok (imageLen, { info with
          sectionCnt := info.sectionCnt + 1
          nodes := insertPatchQueue info.nodes node
          securityNode := selectSecuritySectionNode info.securityNode node }) := by
  have hprio : readByte f.buf (p + hciPatchImageInfoLen - 1) = .ok b.priority := r.priority
  have hremain : readReg f.buf (p + hciPatchImageInfoLen - 17) = .ok b.regRemain := r.regRemain
  have hstart : readReg f.buf (p + hciPatchImageInfoLen - 33) = .ok b.regStart := r.regStart
  have hlen : readLe f.buf (p + hciPatchImageInfoLen) 8 = .ok b.image.length := r.imageLen
  simp only [parsePatchImage, r.chipId, r.icCut, r.keyId, r.otaEn, hprio, hremain, hstart, hlen]
  rfl

/-- Parsing one section body. -/
theorem parsePatchImage_at {f : Image} (hkey : f.patchKeyId = 0) {config : ConfigBuf} {b : Body} {p : Nat}
    (hat : At f.buf p b.bytes) {bodies : List Body} {ps : List (Placed f.buf)} {fwLen : UInt32} {info : PatchInfo}
    (hq : Queued f.buf config.bytes bodies ps fwLen info) :
    ∃ len info' ps', parsePatchImage f p info = .ok (len, info') ∧
      Queued f.buf config.bytes ((bodies ++ [b].filter (Body.accepted f.chipid)).take 64) ps' (fwLen + len) info' := by
  have r := reads_at hat
  rw [parsePatchImage_eq r, hkey]
  have hskip : ∀ bs, (bodies ++ bs).take 64 = bodies →
      Queued f.buf config.bytes ((bodies ++ bs).take 64) ps (fwLen + 0) info := by
    intro bs h
    rw [h, UInt32.add_zero]
    exact hq
  have hreject : ¬ b.accepted f.chipid = true → (bodies ++ [b].filter (Body.accepted f.chipid)).take 64 = bodies := by
    intro h
    rw [List.filter_cons_of_neg h, List.filter_nil, List.append_nil, hq.take]
  by_cases hids : b.chipId.toNat ≠ hciPatchProjectId ∨ b.icCut ≠ f.chipid ∨ b.keyId ≠ 0 ∨ b.otaEn ≠ 0
  · rw [if_pos hids]
    exact ⟨0, info, ps, rfl, hskip _ (hreject fun h => (accepted_iff.mp h).1 hids)⟩
  rw [if_neg hids]
  by_cases hfull : info.sectionCnt ≥ 64
  · rw [if_pos hfull]
    exact ⟨0, info, ps, rfl, hskip _ (List.take_left' (hq.full.mp hfull))⟩
  rw [if_neg hfull]
  by_cases hempty : b.image.length = 0
  · rw [if_pos hempty]
    exact ⟨0, info, ps, rfl, hskip _ (hreject fun h => (accepted_iff.mp h).2 hempty)⟩
  have hroom : bodies.length < 64 := by
    have h1 := hq.most
    have h2 : bodies.length ≠ 64 := fun h => hfull (hq.full.mpr h)
    omega
  have hacc : (bodies ++ [b].filter (Body.accepted f.chipid)).take 64 = bodies ++ [b] := by
    rw [List.filter_cons_of_pos (accepted_iff.mpr ⟨hids, hempty⟩), List.filter_nil,
      List.take_of_length_le (by rw [List.length_append]; exact hroom)]
  rw [if_neg hempty, hacc]
  refine ⟨_, _, _, ?_, hq.add hroom b r.image⟩
  simp only [hq.totalLen hroom b]
  rfl

/-- What a section is accepted as. -/
def Section.taken (chipid : UInt8) (s : Section) : List Body := s.body?.toList.filter (Body.accepted chipid)

theorem parseSectionLoop_at {f : Image} (hkey : f.patchKeyId = 0) {config : ConfigBuf} {secs : List Section} {p : Nat}
    (h : SectionsAt f.buf p secs) {bodies : List Body} {ps : List (Placed f.buf)} {fwLen : UInt32} {info : PatchInfo}
    (hq : Queued f.buf config.bytes bodies ps fwLen info) :
    ∃ fwLen' info' ps', parseSectionLoop f secs.length p fwLen info = .ok (fwLen', info') ∧
      Queued f.buf config.bytes ((bodies ++ secs.flatMap (Section.taken f.chipid)).take 64) ps' fwLen' info' := by
  induction h generalizing bodies ps fwLen info with
  | nil =>
    refine ⟨fwLen, info, ps, rfl, ?_⟩
    rw [List.flatMap_nil, List.append_nil, hq.take]
    exact hq
  | @cons p s rest header body tail ih =>
    have hop : readLe f.buf p 4 = .ok s.opcode.toNat := readLe_at header.left s.opcode.toNat_lt
    have hlen : readLe f.buf (p + 4) 8 = .ok s.payloadLen.toNat := readLe_at header.right s.payloadLen.toNat_lt
    obtain ⟨len, info1, ps1, hone, hq1⟩ : ∃ len info1 ps1,
        (if s.opcode.toNat = 0x01 then parsePatchImage f (p + 12) info else pure (0, info)) = .ok (len, info1) ∧
        Queued f.buf config.bytes ((bodies ++ s.taken f.chipid).take 64) ps1 (fwLen + len) info1 := by
      cases s with
      | image payloadLen b =>
        rw [if_pos (by rfl)]
        exact parsePatchImage_at hkey (body b rfl) hq
      | other opcode payloadLen hne =>
        have hne' : ¬ opcode.toNat = 0x01 := fun h => hne (UInt32.toNat_inj.mp h)
        refine ⟨0, info, ps, if_neg hne', ?_⟩
        show Queued f.buf config.bytes ((bodies ++ []).take 64) ps (fwLen + 0) info
        rw [List.append_nil, hq.take, UInt32.add_zero]
        exact hq
    obtain ⟨fwLen', info', ps', hrest, hq'⟩ := ih hq1
    refine ⟨fwLen', info', ps', ?_, ?_⟩
    · rw [List.length_cons, parseSectionLoop, hop, hlen]
      show ((if s.opcode.toNat = 0x01 then parsePatchImage f (p + 12) info else pure (0, info)) >>= _) = _
      rw [hone]
      exact hrest
    · have htake : ∀ a b : List Body, (a.take 64 ++ b).take 64 = (a ++ b).take 64 := by
        intro a b
        rw [List.take_append, List.take_append, List.take_take, List.length_take]
        congr 2
        omega
      rw [htake, List.append_assoc] at hq'
      exact hq'

theorem flatMap_taken (chipid : UInt8) (secs : List Section) :
    (secs.flatMap (Section.taken chipid)).take 64 = accepted chipid secs := by
  rw [accepted]
  congr 1
  induction secs with
  | nil => rfl
  | cons s rest ih =>
    rw [List.flatMap_cons, ih]
    cases s with
    | image payloadLen b => exact (List.filter_append [b] _).symm
    | other opcode payloadLen hne => rfl

theorem jobs_body (config : List UInt8) (bodies : List Body) : (jobs config bodies).map (·.body) = bodies := by
  cases bodies with
  | nil => rfl
  | cons b rest => simp [jobs, Function.comp_def]

/-- The order in which the sections are sent: ascending priority, the later in the file
    first at equal priority. -/
def ordered (config : List UInt8) (bodies : List Body) : List Job :=
  Queue.byKey (·.body.priority.toNat) 256 (jobs config bodies)

/-- The write that announces the security section. -/
def securityWriteOf : Option Body → List (UInt32 × UInt32)
  | none => []
  | some b => [(b.regStart.addr, b.regStart.value + UInt32.ofNat b.image.length - b.regRemain.value)]

/-- The choice that `_select_security_section_node` makes, over sections. -/
def selectPlaced (dest : Option (Placed fw)) (x : Placed fw) : Option (Placed fw) :=
  if x.job.body.hasSecurity && dest.all (fun d => decide (x.job.body.priority > d.job.body.priority)) then some x else dest

theorem select_nodes (ps : List (Placed fw)) (dest : Option (Placed fw)) :
    (ps.map Placed.node).foldl selectSecuritySectionNode (dest.map Placed.node) =
      (ps.foldl selectPlaced dest).map Placed.node := by
  induction ps generalizing dest with
  | nil => rfl
  | cons x rest ih =>
    have hstep : selectSecuritySectionNode (dest.map Placed.node) x.node = (selectPlaced dest x).map Placed.node := by
      unfold selectSecuritySectionNode selectPlaced
      rw [apply_ite (Option.map Placed.node)]
      congr 1
      cases dest <;> rfl
    rw [List.map_cons, List.foldl_cons, hstep, ih, List.foldl_cons]

theorem select_bodies (ps : List (Placed fw)) (dest : Option (Placed fw)) :
    ((ps.map (·.job.body)).filter Body.hasSecurity).foldl (List.argAux fun b c => c.priority.toNat < b.priority.toNat)
        (dest.map (·.job.body)) = (ps.foldl selectPlaced dest).map (·.job.body) := by
  induction ps generalizing dest with
  | nil => rfl
  | cons x rest ih =>
    rw [List.map_cons, List.foldl_cons]
    by_cases hx : x.job.body.hasSecurity = true
    · have hstep : List.argAux (fun b c => c.priority.toNat < b.priority.toNat) (dest.map (·.job.body)) x.job.body =
          (selectPlaced dest x).map (·.job.body) := by
        cases dest with
        | none => simp [selectPlaced, hx, List.argAux]
        | some d =>
          simp only [selectPlaced, hx, List.argAux, Option.map_some, Option.all_some, Bool.true_and, decide_eq_true_eq,
            gt_iff_lt, UInt8.lt_iff_toNat_lt]
          split <;> rfl
      rw [List.filter_cons_of_pos hx, List.foldl_cons, hstep, ih]
    · have hstep : selectPlaced dest x = dest := by simp [selectPlaced, hx]
      rw [List.filter_cons_of_neg hx, ih, hstep]

theorem securityWrite_eq {info : PatchInfo} {ps : List (Placed fw)}
    (h : info.securityNode = (ps.map Placed.node).foldl selectSecuritySectionNode none) :
    securityWrite info = securityWriteOf (securityBody (ps.map (·.job.body))) := by
  have hnodes := select_nodes ps none
  have hbodies := select_bodies ps none
  rw [securityWrite, h, securityBody, List.argmax]
  rw [Option.map_none] at hnodes hbodies
  rw [hnodes, hbodies]
  cases ps.foldl selectPlaced none <;> rfl

/-- What parsing a well-formed file leaves, with the queue as placed jobs in order. -/
structure Ready (config : ConfigBuf) (bodies : List Body) (q : List (Placed fw)) (info : PatchInfo) : Prop where
  jobs : q.map (·.job) = ordered config.bytes bodies
  nodes : info.nodes = q.map Placed.node
  fwLen : info.fwLen = UInt32.ofNat (bodies.map (·.image.length)).sum
  configLen : info.configLen = UInt16.ofNat config.bytes.length
  unsent : info.sentFwLen = 0 ∧ info.sentConfigLen = 0
  security : securityWrite info = securityWriteOf (securityBody bodies)

theorem Queued.ready {config : ConfigBuf} {bodies : List Body} {ps : List (Placed fw)} {fwLen : UInt32} {info : PatchInfo}
    (h : Queued fw config.bytes bodies ps fwLen info) :
    ∃ q : List (Placed fw), q.Perm ps ∧ Ready config bodies q { info with fwLen := fwLen } := by
  have hbodies : ps.map (·.job.body) = bodies := by
    have := congrArg (List.map (·.body)) h.jobs
    rwa [List.map_map, jobs_body] at this
  refine ⟨Queue.byKey (·.job.body.priority.toNat) 256 ps, Queue.byKey_perm fun x _ => x.job.body.priority.toNat_lt,
    ?_, ?_, h.fwLen, h.configLen, h.unsent, ?_⟩
  · rw [ordered, ← h.jobs, Queue.byKey_map]
  · show info.nodes = _
    rw [h.nodes]
    refine (Queue.foldl_insert fun n _ => n.priority.toNat_lt).trans ?_
    rw [Queue.byKey_map]
    rfl
  · rw [← hbodies]
    exact securityWrite_eq h.security

theorem accepted_image {chipid : UInt8} {secs : List Section} {b : Body} (h : b ∈ accepted chipid secs) :
    1 ≤ b.image.length := by
  have hb := List.mem_of_mem_take h
  have := (accepted_iff.mp (List.mem_filter.mp hb).2).2
  omega

theorem getPatchInfo_file (w : PatchFile) (chipid : UInt8) (config : ConfigBuf) (hne : accepted chipid w.sections ≠ [])
    (hsum : ((accepted chipid w.sections).map (·.image.length)).sum < 2 ^ 32) :
    ∃ info, ∃ q : List (Placed w.fw), getPatchInfo ⟨w.fw, chipid, 0⟩ config PatchInfo.zero = .ok info ∧
      Ready config (accepted chipid w.sections) q info := by
  let f : Image := ⟨w.fw, chipid, 0⟩
  let info0 : PatchInfo := { PatchInfo.zero with configLen := UInt16.ofNat config.bytes.length }
  have hstart : Queued f.buf config.bytes [] [] 0 info0 := ⟨rfl, by decide, rfl, rfl, ⟨rfl, rfl⟩, rfl, rfl, rfl⟩
  obtain ⟨fwLen, info, ps, hloop, hq⟩ := parseSectionLoop_at (f := f) rfl w.layout hstart
  rw [List.nil_append, flatMap_taken] at hq
  have hin := w.count.inside
  rw [toLe_length] at hin
  have hnum : readLe f.buf 20 4 = .ok w.sections.length := readLe_at w.count w.fits
  have hdate : readLe f.buf 8 4 = .ok (leNat ((f.buf.drop 8).take 4)) := if_pos (by show 8 + 4 ≤ w.fw.length; omega)
  have htime : readLe f.buf 12 4 = .ok (leNat ((f.buf.drop 12).take 4)) := if_pos (by show 12 + 4 ≤ w.fw.length; omega)
  have hsecs : w.sections.length ≠ 0 := by
    intro h0
    rw [List.length_eq_zero_iff.mp h0] at hne
    exact hne rfl
  have hpos : fwLen ≠ 0 := by
    obtain ⟨b, hb⟩ := List.exists_mem_of_ne_nil _ hne
    have hle := List.le_sum_of_mem (List.mem_map_of_mem (f := fun b : Body => b.image.length) hb)
    have h1 := accepted_image hb
    intro h0
    have := congrArg UInt32.toNat (hq.fwLen.symm.trans h0)
    rw [UInt32.toNat_ofNat_of_lt' hsum] at this
    simp at this
    omega
  obtain ⟨q, -, hready⟩ := hq.ready
  refine ⟨_, q, ?_, hready⟩
  rw [getPatchInfo, hdate, htime]
  show (parseSections f 20 info0 >>= _) = _
  rw [parseSections, hnum]
  show ((if w.sections.length = 0 then _ else parseSectionLoop f w.sections.length 24 0 info0) >>= _) = _
  rw [if_neg hsecs, hloop]
  exact if_neg hpos

/-! ## One fragment -/

/-- The number of fragments of a section. -/
def Job.count (j : Job) : Nat := (j.stream.length - 1) / 252 + 1

/-- The section can be sent: it is not empty and `cur_index` can pass `end_index`. -/
structure Job.Sendable (j : Job) : Prop where
  nonempty : 1 ≤ j.body.image.length
  fits : j.stream.length ≤ 65534 * 252

theorem Job.stream_length (j : Job) : j.stream.length = j.body.image.length + j.tail.length := List.length_append

/-- The node of a section of which `k` fragments have been sent. -/
def Placed.progress (x : Placed fw) (k : Nat) : SectionNode :=
  { x.node with
    newSectionCheck := decide (0 < k)
    curIndex := UInt16.ofNat (k + 1)
    sentImageLen := UInt32.ofNat (min (252 * k) x.job.body.image.length) }

theorem Placed.progress_zero (x : Placed fw) : x.progress 0 = x.node := by
  rw [progress, Nat.mul_zero, Nat.zero_min]
  rfl

theorem Placed.endIndex (x : Placed fw) (h : x.job.Sendable) : x.node.endIndex = UInt16.ofNat x.job.count := by
  have h1 := h.nonempty
  have h2 := h.fits
  have h3 := x.job.stream_length
  simp only [node, mkNode, Job.count]
  rw [ofNat32_pred (by omega) (by omega)]
  rfl

theorem Placed.lastPkt (x : Placed fw) (h : x.job.Sendable) :
    x.node.lastPkt = UInt8.ofNat (x.job.stream.length - 252 * (x.job.count - 1)) := by
  have h1 := h.nonempty
  have h2 := h.fits
  have h3 := x.job.stream_length
  simp only [node, mkNode, Job.count]
  rw [lastPkt_eq (by omega) (by omega)]
  rfl

/-- The length byte of fragment `k`. -/
theorem Placed.length_byte (x : Placed fw) (h : x.job.Sendable) {k : Nat} (hk : k < x.job.count) :
    (if (x.progress k).curIndex = (x.progress k).endIndex then (x.progress k).lastPkt + 1
      else UInt8.ofNat hciPatchFragSize + 1) = UInt8.ofNat ((Fragments.fragment 252 x.job.stream k).length + 1) := by
  have h1 := h.nonempty
  have h2 := h.fits
  have h3 := x.job.stream_length
  have hend : (x.progress k).endIndex = UInt16.ofNat x.job.count := x.endIndex h
  have hlast : (x.progress k).lastPkt = UInt8.ofNat (x.job.stream.length - 252 * (x.job.count - 1)) := x.lastPkt h
  have hcur : (x.progress k).curIndex = (x.progress k).endIndex ↔ k + 1 = x.job.count := by
    rw [hend]
    exact ofNat16_inj (by simp only [Job.count] at *; omega) (by simp only [Job.count] at *; omega)
  rw [Fragments.fragment_length]
  by_cases hl : k + 1 = x.job.count
  · have hd : min 252 (x.job.stream.length - 252 * k) = x.job.stream.length - 252 * (x.job.count - 1) := by
      simp only [Job.count] at *; omega
    rw [if_pos (hcur.mpr hl), hlast, hd, UInt8.ofNat_add]
    rfl
  · have hd : min 252 (x.job.stream.length - 252 * k) = 252 := by
      simp only [Job.count] at *; omega
    rw [if_neg (fun hc => hl (hcur.mp hc)), hd]
    rfl

/-- The index byte of fragment `k`: 1 to 127 again and again. -/
def fragmentIndex (k : Nat) : UInt8 := UInt8.ofNat (k % 127 + 1)

/-- What `hci_patch_get_cmd_buf` has put in the buffer for fragment `k`. -/
def fragmentBuf (data : List UInt8) (k : Nat) : List UInt8 := overlay clearBuf 3 ((fragmentCmd data (fragmentIndex k) k).drop 3)

theorem clearBuf_length : clearBuf.length = 257 := by
  simp only [clearBuf, reserveLen, List.length_append, List.length_cons, List.length_nil, List.length_replicate]

section Fragment

variable (config : ConfigBuf) (info : PatchInfo) {n : SectionNode} {buf bytes : List UInt8} {d s size : Nat}
  (hlen : (if n.curIndex = n.endIndex then n.lastPkt + 1 else UInt8.ofNat hciPatchFragSize + 1) = UInt8.ofNat (d + 1))
  (hsent : n.sentImageLen = UInt32.ofNat s) (himage : n.imageLen = UInt32.ofNat size) (hd : d ≤ 252)
  (hfit : size + 252 < 2 ^ 32) (hbuf : buf.length = 257)

include hlen hsent himage hd hfit hbuf

/-- A fragment that the image fills. -/
theorem copyFragment_image (hin : s + d ≤ size) (hbytes : slice fw (n.imagePayload + s) d = .ok bytes)
    (hbytesLen : bytes.length = d) :
    copyFragment fw config info n buf =
      .ok (overlay buf 3 (UInt8.ofNat (d + 1) :: trimIndex n.curIndex :: bytes),
        { n with sentImageLen := UInt32.ofNat (s + d) },
        { info with sentFwLen := info.sentFwLen + UInt32.ofNat d }) := by
  have hd8 : (UInt8.ofNat d).toNat = d := size8_toNat (by omega)
  have hd32 : (UInt8.ofNat d).toUInt32 = UInt32.ofNat d := size8_toUInt32 (by omega)
  have hsNat : (UInt32.ofNat s).toNat = s := UInt32.toNat_ofNat_of_lt' (by simp [UInt32.size]; omega)
  have hle : UInt32.ofNat (s + d) ≤ UInt32.ofNat size :=
    (UInt32.ofNat_le_iff_le (by simp [UInt32.size]; omega) (by simp [UInt32.size]; omega)).mpr hin
  obtain ⟨head, hhead⟩ : ∃ head, head = [UInt8.ofNat (d + 1), trimIndex n.curIndex] := ⟨_, rfl⟩
  have hheadLen : head.length = 2 := by rw [hhead]; rfl
  have hfirst : copyTo buf 3 head = .ok (overlay buf 3 head) := copyTo_inside rfl (by omega)
  have hput : copyTo (overlay buf 3 head) 5 bytes = .ok (overlay buf 3 (head ++ bytes)) :=
    copyTo_behind (by rw [hheadLen]; rfl) (by omega)
  rw [copyFragment]
  dsimp only
  rw [hlen, ofNat8_succ_pred, hsent, himage, hd32, hsNat, hd8, ← UInt32.ofNat_add, ← hhead, hfirst, build_bind,
    if_pos hle, hbytes,
    build_bind, hput, hhead]
  rfl

/-- A fragment in which the image ends, or before which it has ended: the config goes on. -/
theorem copyFragment_tail {c : Nat} {rest : List UInt8} (hs : s ≤ size) (hend : size < s + d)
    (hbytes : slice fw (n.imagePayload + s) (size - s) = .ok bytes) (hbytesLen : bytes.length = size - s)
    (hcfg : info.sentConfigLen = UInt16.ofNat c) (hc : c < 65536)
    (hrest : slice config.bytes c (d - (size - s)) = .ok rest) (hrestLen : rest.length ≤ d - (size - s)) :
    copyFragment fw config info n buf =
      .ok (overlay buf 3 (UInt8.ofNat (d + 1) :: trimIndex n.curIndex :: (bytes ++ rest)),
        { n with sentImageLen := UInt32.ofNat size },
        { info with
          sentFwLen := info.sentFwLen + UInt32.ofNat (size - s)
          sentConfigLen := UInt16.ofNat (c + (d - (size - s))) }) := by
  obtain ⟨y, hy⟩ : ∃ y, y = size - s := ⟨_, rfl⟩
  rw [← hy] at hbytes hbytesLen hrest hrestLen ⊢
  have hd32 : (UInt8.ofNat d).toUInt32 = UInt32.ofNat d := size8_toUInt32 (by omega)
  have hsNat : (UInt32.ofNat s).toNat = s := UInt32.toNat_ofNat_of_lt' (by simp [UInt32.size]; omega)
  have hcNat : (UInt16.ofNat c).toNat = c := UInt16.toNat_ofNat_of_lt' hc
  have hy8 : (UInt8.ofNat y).toNat = y := size8_toNat (by omega)
  have hy32 : (UInt8.ofNat y).toUInt32 = UInt32.ofNat y := size8_toUInt32 (by omega)
  have hsending : (UInt32.ofNat size - UInt32.ofNat s).toUInt8 = UInt8.ofNat y := by
    rw [← UInt32.ofNat_sub (by omega), UInt32.toUInt8_ofNat', hy]
  have hleft : UInt8.ofNat d - UInt8.ofNat y = UInt8.ofNat (d - y) := (UInt8.ofNat_sub (by omega)).symm
  have hleft8 : (UInt8.ofNat (d - y)).toNat = d - y := size8_toNat (by omega)
  have hleft16 : (UInt8.ofNat (d - y)).toUInt16 = UInt16.ofNat (d - y) := size8_toUInt16 (by omega)
  have hle : ¬ UInt32.ofNat (s + d) ≤ UInt32.ofNat size := by
    rw [UInt32.ofNat_le_iff_le (by simp [UInt32.size]; omega) (by simp [UInt32.size]; omega)]
    omega
  have hcomplete : UInt32.ofNat (s + y) = UInt32.ofNat size := by rw [show s + y = size by omega]
  obtain ⟨head, hhead⟩ : ∃ head, head = [UInt8.ofNat (d + 1), trimIndex n.curIndex] := ⟨_, rfl⟩
  have hheadLen : head.length = 2 := by rw [hhead]; rfl
  have hfirst : copyTo buf 3 head = .ok (overlay buf 3 head) := copyTo_inside rfl (by omega)
  have hput : copyTo (overlay buf 3 head) 5 bytes = .ok (overlay buf 3 (head ++ bytes)) :=
    copyTo_behind (by rw [hheadLen]; rfl) (by omega)
  have hput' : copyTo (overlay buf 3 (head ++ bytes)) (5 + (y : Int)) rest = .ok (overlay buf 3 (head ++ bytes ++ rest)) :=
    copyTo_behind (by rw [List.length_append]; omega) (by rw [List.length_append]; omega)
  rw [copyFragment]
  dsimp only
  rw [hlen, ofNat8_succ_pred, hsent, himage, hd32, hsNat, ← UInt32.ofNat_add, ← hhead, hfirst, build_bind, if_neg hle,
    hsending, hy8,
    hy32, hbytes, build_bind, hput, build_bind, hleft, hleft8, hleft16, hcfg, hcNat, hrest, build_bind, hput', build_bind,
    ← UInt32.ofNat_add, hcomplete, if_neg (fun h => h rfl), ← UInt16.ofNat_add, hhead]
  rfl

end Fragment

/-- Sending fragment `k` of a section: what is left of the image first, then its tail,
    which stands at `base` in the config. -/
theorem copyFragment_spec (x : Placed fw) (h : x.job.Sendable) {k : Nat} (hk : k < x.job.count) {config : ConfigBuf}
    {base : Nat} (htail : At config.bytes base x.job.tail) {info : PatchInfo}
    (hcfg : info.sentConfigLen = UInt16.ofNat (base + (min (252 * k) x.job.stream.length - x.job.body.image.length))) :
    copyFragment fw config info { x.progress k with newSectionCheck := true } clearBuf =
      .ok (fragmentBuf x.job.stream k,
        { x.progress k with
          newSectionCheck := true
          sentImageLen := UInt32.ofNat (min (252 * (k + 1)) x.job.body.image.length) },
        { info with
          sentFwLen := info.sentFwLen +
            UInt32.ofNat (min (252 * (k + 1)) x.job.body.image.length - min (252 * k) x.job.body.image.length)
          sentConfigLen :=
            UInt16.ofNat (base + (min (252 * (k + 1)) x.job.stream.length - x.job.body.image.length)) }) := by
  have hsize := x.job.stream_length
  have hne := h.nonempty
  have hfits := h.fits
  have hin := htail.inside
  have hconfig := config.fits
  have hcount : 252 * k < x.job.stream.length := by simp only [Job.count] at hk; omega
  have hlen := x.length_byte h hk
  set frag := Fragments.fragment 252 x.job.stream k with hfrag
  set I := x.job.body.image.length with hI
  obtain ⟨d, hd⟩ : ∃ d, d = min 252 (x.job.stream.length - 252 * k) := ⟨_, rfl⟩
  have hfl : frag.length = d := by rw [hfrag, Fragments.fragment_length, hd]
  -- The fragment is a part of the image followed by a part of the tail.
  have hparts : (x.job.body.image.drop (252 * k)).take d ++ (x.job.tail.drop (252 * k - I)).take (d - (I - 252 * k)) = frag := by
    rw [hI, Fragments.take_drop_of_append]
    exact Fragments.take_drop_eq_fragment hd
  have hindex : trimIndex (x.progress k).curIndex = fragmentIndex k := by
    rw [fragmentIndex, ← indexSeq_succ]
    exact trimIndex_eq (by simp only [Job.count] at hk; omega)
  have hbuf : overlay clearBuf 3 (UInt8.ofNat (d + 1) :: trimIndex (x.progress k).curIndex :: frag) =
      fragmentBuf x.job.stream k := by
    rw [fragmentBuf, fragmentCmd, ← hfrag, hfl, hindex]
    rfl
  rw [hfl] at hlen
  rcases Nat.lt_or_ge I (min (252 * k) I + d) with hcase | hcase
  · -- The image ends in this fragment, or has ended before it.
    have hbytes : slice fw (x.off + min (252 * k) I) (I - min (252 * k) I) = .ok ((x.job.body.image.drop (252 * k)).take d) := by
      have hrest : (x.job.body.image.drop (252 * k)).length = I - 252 * k := by rw [List.length_drop]
      rw [slice_at x.placed (by omega), hI, Fragments.drop_min_length, List.take_of_length_le (by omega),
        List.take_of_length_le (by omega)]
    have hrest : slice config.bytes (base + (252 * k - I)) (d - (I - min (252 * k) I)) =
        .ok ((x.job.tail.drop (252 * k - I)).take (d - (I - 252 * k))) := by
      rw [show d - (I - min (252 * k) I) = d - (I - 252 * k) by omega]
      exact slice_at htail (by omega)
    rw [show min (252 * k) x.job.stream.length - I = 252 * k - I by omega] at hcfg
    have hcopy := copyFragment_tail config info (n := { x.progress k with newSectionCheck := true }) hlen rfl rfl (by omega)
      (by omega) clearBuf_length (by omega) hcase hbytes (by rw [List.length_take, List.length_drop]; omega) hcfg (by omega) hrest
      (by rw [List.length_take]; omega)
    dsimp only at hcopy ⊢
    rw [hcopy, hparts, hbuf, show min (252 * (k + 1)) I = I by omega,
      show base + (252 * k - I) + (d - (I - min (252 * k) I)) = base + (min (252 * (k + 1)) x.job.stream.length - I) by omega]
  · -- All of it is from the image.
    have hbytes : slice fw (x.off + min (252 * k) I) d = .ok frag := by
      rw [slice_at x.placed (by omega), show min (252 * k) I = 252 * k by omega, ← hparts,
        show d - (I - 252 * k) = 0 by omega, List.take_zero, List.append_nil]
    have hcopy := copyFragment_image config info (n := { x.progress k with newSectionCheck := true }) hlen rfl rfl (by omega)
      (by omega) clearBuf_length hcase hbytes hfl
    dsimp only at hcopy ⊢
    rw [hcopy, hbuf, show min (252 * (k + 1)) I - min (252 * k) I = d by omega,
      show min (252 * (k + 1)) x.job.stream.length - I = min (252 * k) x.job.stream.length - I by omega, ← hcfg,
      show min (252 * (k + 1)) I = min (252 * k) I + d by omega]

/-! ## One turn -/

/-- The writes of a section's registers whose address is neither 0 nor 0xffffffff. -/
def Body.writes (b : Body) : List (UInt32 × UInt32) :=
  ([b.regStart, b.regRemain].filter Reg.valid).map fun r => (r.addr, r.value)

def Placed.complete (x : Placed fw) : SectionNode := x.progress x.job.count

def imageSum (ps : List (Placed fw)) : Nat := (ps.map (·.job.body.image.length)).sum

def tails (ps : List (Placed fw)) : List UInt8 := ps.flatMap (·.job.tail)

/-- The info when the sections of `done` are sent, and `k` fragments of `x`. -/
def infoAt (info : PatchInfo) (done : List (Placed fw)) (x : Placed fw) (k : Nat) (fresh : List (Placed fw)) : PatchInfo :=
  { info with
    sentFwLen := UInt32.ofNat (imageSum done + min (252 * k) x.job.body.image.length)
    sentConfigLen :=
      UInt16.ofNat ((tails done).length + (min (252 * k) x.job.stream.length - x.job.body.image.length))
    nodes := done.map Placed.complete ++ x.progress k :: fresh.map Placed.node }

/-- The info between two sections. -/
def infoNext (info : PatchInfo) (done fresh : List (Placed fw)) : PatchInfo :=
  { info with
    sentFwLen := UInt32.ofNat (imageSum done)
    sentConfigLen := UInt16.ofNat (tails done).length
    nodes := done.map Placed.complete ++ fresh.map Placed.node }

theorem infoAt_zero (info : PatchInfo) (done : List (Placed fw)) (x : Placed fw) (fresh : List (Placed fw)) :
    infoAt info done x 0 fresh = infoNext info done (x :: fresh) := by
  simp only [infoAt, infoNext, Nat.mul_zero, Nat.zero_min, Nat.zero_sub, Nat.add_zero, x.progress_zero, List.map_cons]

theorem infoAt_count (info : PatchInfo) (done : List (Placed fw)) {x : Placed fw} (h : x.job.Sendable)
    (fresh : List (Placed fw)) :
    infoAt info done x x.job.count fresh = infoNext info (done ++ [x]) fresh := by
  have h1 := h.nonempty
  have h3 := x.job.stream_length
  have himage : min (252 * x.job.count) x.job.body.image.length = x.job.body.image.length := by
    simp only [Job.count]; omega
  have htail : min (252 * x.job.count) x.job.stream.length - x.job.body.image.length = x.job.tail.length := by
    simp only [Job.count]; omega
  simp only [infoAt, infoNext, himage, htail, imageSum, tails, Placed.complete, List.map_append, List.map_cons, List.map_nil,
    List.sum_append, List.sum_singleton, List.flatMap_append, List.flatMap_cons, List.flatMap_nil, List.append_nil,
    List.length_append, List.append_assoc, List.singleton_append]

/-- Sections that are sent completely are passed over. -/
theorem scan_done {config : ConfigBuf} {info : PatchInfo} {buf : List UInt8} {done : List (Placed fw)}
    (h : ∀ x ∈ done, x.job.Sendable) {rest : List SectionNode} {regs : Option (Reg × Reg)} {s : Scan}
    (hrest : scan fw config info buf rest regs = .ok s) :
    scan fw config info buf (done.map Placed.complete ++ rest) regs =
      .ok { s with nodes := done.map Placed.complete ++ s.nodes } := by
  induction done with
  | nil => exact hrest
  | cons x done ih =>
    have hx := h x List.mem_cons_self
    have h2 := hx.fits
    have hcount : x.job.count ≤ 65534 := by simp only [Job.count]; omega
    have hsize : UInt16.size = 65536 := rfl
    have hnew : x.complete.newSectionCheck = true := by
      simp [Placed.complete, Placed.progress, Job.count]
    have hpast : x.complete.curIndex > x.complete.endIndex := by
      have hend : x.complete.endIndex = UInt16.ofNat x.job.count := x.endIndex hx
      have hcur : x.complete.curIndex = UInt16.ofNat (x.job.count + 1) := rfl
      rw [hend, hcur, gt_iff_lt, UInt16.ofNat_lt_iff_lt (by omega) (by omega)]
      omega
    have hself : ({ x.complete with newSectionCheck := true } : SectionNode) = x.complete := by rw [← hnew]
    rw [List.map_cons, List.cons_append, scan]
    dsimp only
    rw [if_pos hpast, if_neg (c := x.complete.newSectionCheck = false) (by rw [hnew]; decide),
      ih fun y hy => h y (List.mem_cons_of_mem _ hy)]
    exact congrArg (fun n => Except.ok { s with nodes := n :: (done.map Placed.complete ++ s.nodes) }) hself

/-- The section that is being sent. -/
theorem scan_current {x : Placed fw} (h : x.job.Sendable) {k : Nat} (hk : k < x.job.count) {config : ConfigBuf} {base : Nat}
    (htail : At config.bytes base x.job.tail) (info : PatchInfo)
    (hcfg : info.sentConfigLen = UInt16.ofNat (base + (min (252 * k) x.job.stream.length - x.job.body.image.length)))
    (rest : List SectionNode) :
    scan fw config info clearBuf (x.progress k :: rest) none =
      .ok ⟨fragmentBuf x.job.stream k, x.progress (k + 1) :: rest,
        { info with
          sentFwLen := info.sentFwLen +
            UInt32.ofNat (min (252 * (k + 1)) x.job.body.image.length - min (252 * k) x.job.body.image.length)
          sentConfigLen := UInt16.ofNat (base + (min (252 * (k + 1)) x.job.stream.length - x.job.body.image.length)) },
        if k = 0 then some (x.job.body.regStart, x.job.body.regRemain) else none, true⟩ := by
  have h2 := h.fits
  have hcount : x.job.count ≤ 65534 := by simp only [Job.count]; omega
  have hsize : UInt16.size = 65536 := rfl
  have hcur : ¬ (x.progress k).curIndex > (x.progress k).endIndex := by
    have hend : (x.progress k).endIndex = UInt16.ofNat x.job.count := x.endIndex h
    have hcur : (x.progress k).curIndex = UInt16.ofNat (k + 1) := rfl
    rw [hend, hcur, gt_iff_lt, UInt16.ofNat_lt_iff_lt (by omega) (by omega)]
    omega
  have hregs : (if (x.progress k).newSectionCheck = false
      then some ((x.progress k).regStart, (x.progress k).regRemain) else none) =
      if k = 0 then some (x.job.body.regStart, x.job.body.regRemain) else none := by
    have hnew : (x.progress k).newSectionCheck = false ↔ k = 0 := by simp [Placed.progress]
    exact if_congr hnew rfl rfl
  have hnext : (UInt16.ofNat (k + 1) + 1 : UInt16) = UInt16.ofNat (k + 1 + 1) := (UInt16.ofNat_add (k + 1) 1).symm
  rw [scan]
  dsimp only
  rw [hregs, if_neg hcur, copyFragment_spec x h hk htail hcfg, Placed.progress.eq_1 x (k + 1), ← hnext,
    decide_eq_true (Nat.succ_pos k)]
  rfl

/-- A buffer that holds a command from byte 3 on. -/
theorem overlay_clearBuf (n i : UInt8) (data : List UInt8) :
    ∃ rest, overlay clearBuf 3 (n :: i :: data) = [0x01, 0x20, 0xfc, n, i] ++ data ++ rest := by
  have hhead : clearBuf.take 3 = [0x01, 0x20, 0xfc] := rfl
  refine ⟨clearBuf.drop (3 + (n :: i :: data).length), ?_⟩
  simp only [overlay, hhead, List.cons_append, List.nil_append]

theorem nextCommand_of_buf {config : ConfigBuf} {info info' : PatchInfo} {regs : Option (Reg × Reg)}
    {out data rest : List UInt8} {n i : UInt8} (hbuf : hciPatchGetCmdBuf fw config info = .ok (out, regs, info'))
    (hout : out = [0x01, 0x20, 0xfc, n, i] ++ data ++ rest) (hn : n.toNat = data.length + 1) :
    nextCommand fw config info =
      .ok (⟨sectionWrites regs ++ (if n = 1 ∧ i &&& 0x80 ≠ 0 then securityWrite info' else []),
        [0x01, 0x20, 0xfc, n, i] ++ data, i == 0x80⟩, info') := by
  obtain ⟨h3, h4, hcmd⟩ := command_in_buf hout hn
  rw [nextCommand, hbuf]
  show (slice out 0 ((out.getD 3 0).toNat + 4) >>= _) = _
  rw [h3, hcmd, h4]
  rfl

theorem lastCommand_fragmentIndex (k : Nat) : lastCommand (fragmentIndex k) = false := by
  have hsmall : ∀ i < 128, lastCommand (UInt8.ofNat i) = false := by decide
  exact hsmall _ (by omega)

/-- The turn that sends fragment `k`; the registers are written before the first. -/
def Job.step (j : Job) (k : Nat) : Step := ⟨if k = 0 then j.body.writes else [], fragmentCmd j.stream (fragmentIndex k) k, false⟩

theorem nextCommand_fragment {config : ConfigBuf} {info : PatchInfo} {done fresh : List (Placed fw)} {x : Placed fw}
    (hdone : ∀ y ∈ done, y.job.Sendable) (hx : x.job.Sendable) {k : Nat} (hk : k < x.job.count)
    (htail : At config.bytes (tails done).length x.job.tail) :
    nextCommand fw config (infoAt info done x k fresh) = .ok (x.job.step k, infoAt info done x (k + 1) fresh) := by
  have hsize := x.job.stream_length
  have hne := hx.nonempty
  have hcur := scan_current hx hk htail (infoAt info done x k fresh) rfl (fresh.map Placed.node)
  have hscan := scan_done hdone hcur
  have hfrag : 1 ≤ (Fragments.fragment 252 x.job.stream k).length ∧ (Fragments.fragment 252 x.job.stream k).length ≤ 252 := by
    rw [Fragments.fragment_length]
    simp only [Job.count] at hk
    omega
  have hn : (UInt8.ofNat ((Fragments.fragment 252 x.job.stream k).length + 1)).toNat =
      (Fragments.fragment 252 x.job.stream k).length + 1 := size8_toNat (by omega)
  obtain ⟨rest, hform⟩ := overlay_clearBuf (UInt8.ofNat ((Fragments.fragment 252 x.job.stream k).length + 1))
    (fragmentIndex k) (Fragments.fragment 252 x.job.stream k)
  have hnodes : (infoAt info done x k fresh).nodes ≠ [] := by
    simp [infoAt]
  have hnext : ({ infoAt info done x k fresh with
      sentFwLen := (infoAt info done x k fresh).sentFwLen +
        UInt32.ofNat (min (252 * (k + 1)) x.job.body.image.length - min (252 * k) x.job.body.image.length)
      sentConfigLen := UInt16.ofNat ((tails done).length +
        (min (252 * (k + 1)) x.job.stream.length - x.job.body.image.length))
      nodes := done.map Placed.complete ++ x.progress (k + 1) :: fresh.map Placed.node } : PatchInfo) =
      infoAt info done x (k + 1) fresh := by
    simp only [infoAt]
    rw [← UInt32.ofNat_add, show imageSum done + min (252 * k) x.job.body.image.length +
      (min (252 * (k + 1)) x.job.body.image.length - min (252 * k) x.job.body.image.length) =
      imageSum done + min (252 * (k + 1)) x.job.body.image.length by omega]
  have hbuf : hciPatchGetCmdBuf fw config (infoAt info done x k fresh) =
      .ok (fragmentBuf x.job.stream k, if k = 0 then some (x.job.body.regStart, x.job.body.regRemain) else none,
        infoAt info done x (k + 1) fresh) := by
    rw [hciPatchGetCmdBuf, if_neg hnodes]
    show (scan fw config (infoAt info done x k fresh) clearBuf
      (done.map Placed.complete ++ x.progress k :: fresh.map Placed.node) none >>= _) = _
    rw [hscan]
    exact congrArg (fun i => Except.ok (fragmentBuf x.job.stream k, _, i)) hnext
  have hshort : ¬ (UInt8.ofNat ((Fragments.fragment 252 x.job.stream k).length + 1) = 1 ∧
      fragmentIndex k &&& 0x80 ≠ 0) := by
    intro h
    have h1 := congrArg UInt8.toNat h.1
    rw [hn] at h1
    have : (1 : UInt8).toNat = 1 := rfl
    omega
  have hlast : (fragmentIndex k == 0x80) = false := lastCommand_fragmentIndex k
  have hwrites : sectionWrites (if k = 0 then some (x.job.body.regStart, x.job.body.regRemain) else none) =
      if k = 0 then x.job.body.writes else [] := by
    split <;> rfl
  rw [nextCommand_of_buf hbuf hform hn, if_neg hshort, hlast, hwrites, List.append_nil]
  rfl

/-- The turn after all fragments: the security section, then the command that ends the
    download. -/
def endStep (writes : List (UInt32 × UInt32)) : Step := ⟨writes, [0x01, 0x20, 0xfc, 1, 0x80], true⟩

theorem nextCommand_end (config : ConfigBuf) {info : PatchInfo} {done : List (Placed fw)}
    (hdone : ∀ y ∈ done, y.job.Sendable) (hne : done ≠ []) (hfw : info.fwLen = UInt32.ofNat (imageSum done))
    (hconfig : info.configLen = UInt16.ofNat (tails done).length) :
    ∃ info', nextCommand fw config (infoNext info done []) = .ok (endStep (securityWrite info), info') := by
  have hempty : scan fw config (infoNext info done []) clearBuf [] none =
      .ok ⟨clearBuf, [], infoNext info done [], none, false⟩ := rfl
  have hscan := scan_done hdone hempty
  obtain ⟨rest, hform⟩ := overlay_clearBuf 1 0x80 []
  have hcopy : copyTo clearBuf 3 [1, 0x80] = .ok (overlay clearBuf 3 [1, 0x80]) :=
    copyTo_inside rfl (by rw [clearBuf_length]; simp)
  have hnodes : (infoNext info done []).nodes ≠ [] := by
    simpa [infoNext] using hne
  have hbuf : hciPatchGetCmdBuf fw config (infoNext info done []) =
      .ok (overlay clearBuf 3 [1, 0x80], none, infoNext info done []) := by
    rw [hciPatchGetCmdBuf, if_neg hnodes]
    show (scan fw config (infoNext info done []) clearBuf (done.map Placed.complete ++ []) none >>= _) = _
    rw [hscan, build_bind]
    dsimp only
    rw [if_neg (by decide), hcopy, build_bind]
    show (if UInt32.ofNat (imageSum done) ≠ info.fwLen then _
      else if UInt16.ofNat (tails done).length ≠ info.configLen then _ else _) = _
    rw [hfw, hconfig, if_neg (fun h => h rfl), if_neg (fun h => h rfl)]
    rfl
  exact ⟨_, nextCommand_of_buf hbuf hform rfl⟩

/-! ## The download -/

def Job.steps (j : Job) : List Step := (List.range j.count).map j.step

/-- The turns of one section, from fragment `k` on. -/
theorem trace_section {config : ConfigBuf} {info : PatchInfo} {done fresh : List (Placed fw)} {x : Placed fw}
    (hdone : ∀ y ∈ done, y.job.Sendable) (hx : x.job.Sendable) (htail : At config.bytes (tails done).length x.job.tail)
    {rest : List Step} (hrest : Trace (nextCommand fw config) lastCommand (infoNext info (done ++ [x]) fresh) rest)
    {n k : Nat} (hk : k + n = x.job.count) :
    Trace (nextCommand fw config) lastCommand (infoAt info done x k fresh) ((List.range' k n).map x.job.step ++ rest) := by
  -- Induction on the number of fragments that are left.
  induction n generalizing k with
  | zero =>
    rw [Nat.add_zero] at hk
    rw [hk, infoAt_count info done hx]
    exact hrest
  | succ n ih =>
    rw [List.range'_succ, List.map_cons, List.cons_append]
    exact .more (nextCommand_fragment hdone hx (by omega) htail) ⟨rfl, rfl⟩ (lastCommand_fragmentIndex k)
      (ih (by omega))

theorem trace_sections (config : ConfigBuf) (info : PatchInfo) (done fresh : List (Placed fw))
    (hsend : ∀ y ∈ done ++ fresh, y.job.Sendable) (hne : done ++ fresh ≠ []) (htails : tails (done ++ fresh) = config.bytes)
    (hfw : info.fwLen = UInt32.ofNat (imageSum (done ++ fresh)))
    (hconfig : info.configLen = UInt16.ofNat config.bytes.length) :
    Trace (nextCommand fw config) lastCommand (infoNext info done fresh)
      (fresh.flatMap (·.job.steps) ++ [endStep (securityWrite info)]) := by
  induction fresh generalizing done with
  | nil =>
    rw [List.append_nil] at *
    obtain ⟨info', hend⟩ := nextCommand_end config hsend hne hfw (by rw [htails]; exact hconfig)
    exact .last hend ⟨rfl, rfl⟩ rfl
  | cons x fresh ih =>
    have hassoc : done ++ x :: fresh = done ++ [x] ++ fresh := by rw [List.append_assoc]; rfl
    have hrest := ih (done ++ [x]) (by rwa [← hassoc]) (by rwa [← hassoc]) (by rwa [← hassoc]) (by rwa [← hassoc])
    have htail : At config.bytes (tails done).length x.job.tail := by
      refine ⟨tails done, tails fresh, ?_, rfl⟩
      rw [← htails, tails, List.flatMap_append, List.flatMap_cons, List.append_assoc]
      rfl
    have hsec := trace_section (fun y hy => hsend y (List.mem_append_left _ hy))
      (hsend x (List.mem_append_right _ List.mem_cons_self)) htail hrest (Nat.zero_add _)
    rw [infoAt_zero, ← List.range_eq_range'] at hsec
    rw [List.flatMap_cons, List.append_assoc]
    exact hsec

/-! ## The order of the sections -/

theorem flatMap_tail_nil {l : List Job} (h : ∀ j ∈ l, j.tail = []) : l.flatMap (·.tail) = [] :=
  List.flatMap_eq_nil_iff.mpr h

theorem ordered_perm (config : List UInt8) (bodies : List Body) : (ordered config bodies).Perm (jobs config bodies) :=
  Queue.byKey_perm fun j _ => j.body.priority.toNat_lt

/-- Wherever the section with the config is sent, the config is sent once. -/
theorem ordered_tails (config : List UInt8) {bodies : List Body} (hne : bodies ≠ []) :
    (ordered config bodies).flatMap (·.tail) = config := by
  obtain ⟨b, rest, rfl⟩ := List.exists_cons_of_ne_nil hne
  have hperm : (ordered config (b :: rest)).Perm (⟨b, config⟩ :: rest.map (⟨·, []⟩)) := ordered_perm config (b :: rest)
  obtain ⟨l1, l2, hl⟩ := List.append_of_mem (hperm.mem_iff.mpr List.mem_cons_self)
  rw [hl] at hperm ⊢
  have hothers : ∀ j ∈ l1 ++ l2, j.tail = [] := by
    intro j hj
    have hmem := (List.perm_middle.symm.trans hperm).cons_inv.mem_iff.mp hj
    obtain ⟨b', -, rfl⟩ := List.mem_map.mp hmem
    rfl
  rw [List.flatMap_append, List.flatMap_cons, flatMap_tail_nil fun j hj => hothers j (List.mem_append_left _ hj),
    flatMap_tail_nil fun j hj => hothers j (List.mem_append_right _ hj), List.append_nil]
  rfl

theorem ordered_images (config : List UInt8) (bodies : List Body) :
    ((ordered config bodies).map (·.body.image.length)).sum = (bodies.map (·.image.length)).sum := by
  have hbodies := congrArg (List.map fun b : Body => b.image.length) (jobs_body config bodies)
  rw [List.map_map] at hbodies
  rw [((ordered_perm config bodies).map _).sum_eq]
  exact congrArg List.sum hbodies

/-! ## What is sent -/

/-- The commands of one section. -/
def Job.cmds (j : Job) : List (List UInt8) := writeCmds j.body.writes ++ fragmentCmds j.stream fragmentIndex

theorem Job.steps_cmds (j : Job) : j.steps.flatMap Step.cmds = j.cmds := by
  have hrest : ∀ l : List Nat, (∀ k ∈ l, k ≠ 0) →
      (l.map j.step).flatMap Step.cmds = l.map fun k => fragmentCmd j.stream (fragmentIndex k) k := by
    intro l hl
    rw [List.flatMap_map, ← List.flatMap_pure_eq_map]
    refine List.flatMap_congr fun k hk => ?_
    simp only [Step.cmds, Job.step, if_neg (hl k hk), writeCmds, List.map_nil, List.nil_append]
    rfl
  rw [Job.steps, Job.cmds, fragmentCmds, Job.count, List.range_succ_eq_map, List.map_cons, List.flatMap_cons,
    hrest _ (by simp), List.map_cons]
  simp only [Step.cmds, Job.step, if_true, List.append_assoc, List.singleton_append]

/-- The Command Complete for the key register, whose value is 0. -/
def keyIsZero : Rx := .event evtCommandComplete [1, 0x61, 0xfc, 0, 0, 0, 0, 0]

theorem hciVendorRead_zero (e : Env) (rx : List Rx) :
    hciVendorRead e hciBtRegKeyId ⟨keyIsZero :: rx, []⟩ =
      (.ok (some 0), ⟨rx, [acknowledged (vendorReadCmd hciBtRegKeyId)]⟩) := by
  have hwait : startXferWait (vendorReadCmd hciBtRegKeyId) ⟨keyIsZero :: rx, []⟩ =
      (.ok (some (packet evtCommandComplete [1, 0x61, 0xfc, 0, 0, 0, 0, 0])),
        ⟨rx, [acknowledged (vendorReadCmd hciBtRegKeyId)]⟩) := rfl
  rw [hciVendorRead, Prog.bind_of_ok (by rfl), Prog.bind_of_ok hwait]
  simp [respByte, packet, toUInt32]
  rfl

/-- The trace from the info that parsing leaves. -/
theorem Ready.trace {config : ConfigBuf} {bodies : List Body} {q : List (Placed fw)} {info : PatchInfo}
    (h : Ready config bodies q info) (hne : bodies ≠ []) (hsend : ∀ j ∈ ordered config.bytes bodies, j.Sendable) :
    Trace (nextCommand fw config) lastCommand info (q.flatMap (·.job.steps) ++ [endStep (securityWrite info)]) := by
  have hstart : infoNext info [] q = info := by
    have hsent : UInt32.ofNat (imageSum ([] : List (Placed fw))) = info.sentFwLen := h.unsent.1.symm
    have hconfig : UInt16.ofNat (tails ([] : List (Placed fw))).length = info.sentConfigLen := h.unsent.2.symm
    rw [infoNext, hsent, hconfig, List.map_nil, List.nil_append, ← h.nodes]
  have htails : tails q = config.bytes := by
    have := ordered_tails config.bytes hne
    rwa [← h.jobs, List.flatMap_map] at this
  have himages : imageSum q = (bodies.map (·.image.length)).sum := by
    rw [← ordered_images config.bytes bodies, ← h.jobs, List.map_map]
    rfl
  have hq : q ≠ [] := by
    intro h0
    have hlen := congrArg List.length h.jobs
    have hbodies := congrArg List.length (jobs_body config.bytes bodies)
    rw [List.length_map] at hlen hbodies
    rw [h0, List.length_nil, (ordered_perm _ _).length_eq, hbodies] at hlen
    exact hne (List.length_eq_zero_iff.mp hlen.symm)
  have htrace := trace_sections config info [] q
    (fun x hx => hsend _ (by rw [← h.jobs]; exact List.mem_map_of_mem hx)) hq htails
    (by rw [List.nil_append, himages]; exact h.fwLen)
    h.configLen
  rwa [hstart] at htrace

/-- The whole trace: for each accepted section in order, its register writes and its
    fragments; the write for the security section, if there is one; the command that ends
    the download. -/
theorem sends_patch (w : PatchFile) (eversion : UInt8) (config : ConfigBuf) (e : Env) (he : e.setattr = true)
    (hne : accepted (eversion + 1) w.sections ≠ [])
    (hcount : ∀ j ∈ jobs config.bytes (accepted (eversion + 1) w.sections), j.count ≤ 65534)
    (hsum : ((accepted (eversion + 1) w.sections).map (·.image.length)).sum < 2 ^ 32) :
    let bodies := accepted (eversion + 1) w.sections
    let cmds := (ordered config.bytes bodies).flatMap Job.cmds ++ writeCmds (securityWriteOf (securityBody bodies)) ++
      [[0x01, 0x20, 0xfc, 1, 0x80]]
    hciDownloadPatchV3 e w.fw eversion config ⟨keyIsZero :: cmds.map ackEvent, []⟩ =
        (.ok 0, ⟨[], acknowledged (vendorReadCmd hciBtRegKeyId) :: cmds.map acknowledged⟩) ∧
      ∀ j ∈ ordered config.bytes bodies,
        Carries (j.body.image ++ j.tail) fragmentIndex (fragmentCmds j.stream fragmentIndex) := by
  intro bodies cmds
  obtain ⟨info, q, hinfo, hready⟩ := getPatchInfo_file w (eversion + 1) config hne hsum
  have hsend : ∀ j ∈ ordered config.bytes bodies, j.Sendable := by
    intro j hj
    have hmem := (ordered_perm _ _).mem_iff.mp hj
    have hbody : j.body ∈ bodies := by
      rw [← jobs_body config.bytes bodies]
      exact List.mem_map_of_mem hmem
    have hc := hcount j hmem
    have h1 := accepted_image hbody
    have h3 := j.stream_length
    simp only [Job.count] at hc
    exact ⟨h1, by omega⟩
  have htrace := hready.trace hne hsend
  have hsteps : (q.flatMap (·.job.steps) ++ [endStep (securityWrite info)]).flatMap Step.cmds = cmds := by
    have hsections : (q.flatMap (·.job.steps)).flatMap Step.cmds = (ordered config.bytes bodies).flatMap Job.cmds := by
      rw [List.flatMap_assoc, ← hready.jobs, List.flatMap_map]
      exact List.flatMap_congr fun x _ => x.job.steps_cmds
    rw [List.flatMap_append, hsections, hready.security]
    simp only [List.flatMap_cons, List.flatMap_nil, List.append_nil, Step.cmds, endStep, cmds, List.append_assoc]
    rfl
  have hlen : (q.flatMap (·.job.steps) ++ [endStep (securityWrite info)]).length ≤ (cmds.map ackEvent).length + 1 := by
    have := length_le_cmds (q.flatMap (·.job.steps) ++ [endStep (securityWrite info)])
    rw [hsteps] at this
    rw [List.length_map]
    omega
  refine ⟨?_, ?_⟩
  · have hrun := downloadLoop_trace he htrace _ hlen [] [acknowledged (vendorReadCmd hciBtRegKeyId)]
    rw [hsteps, List.append_nil] at hrun
    rw [hciDownloadPatchV3, Prog.bind_of_ok (hciVendorRead_zero e _)]
    dsimp only
    rw [if_neg (fun h => h rfl), show (0 : UInt32).toUInt8 = 0 from rfl, hinfo]
    exact hrun
  · intro j hj
    have h1 := (hsend j hj).nonempty
    exact carries_fragmentCmds (by rw [List.length_append]; omega) _

/-! ## Files laid out from their sections -/

/-- What stands behind a section's header. -/
def Section.payload : Section → List UInt8
  | .image _ body => body.bytes
  | .other _ payloadLen _ => List.replicate payloadLen.toNat 0

def Section.bytes (s : Section) : List UInt8 := s.header ++ s.payload

theorem Section.header_length (s : Section) : s.header.length = 12 := by
  rw [Section.header, List.length_append, toLe_length, toLe_length]

/-- Each section stands where the length of the one before says it ends. -/
theorem sectionsAt_bytes {sections : List Section} (h : ∀ s ∈ sections, s.payloadLen.toNat = s.payload.length)
    (pre : List UInt8) : SectionsAt (pre ++ sections.flatMap Section.bytes) pre.length sections := by
  induction sections generalizing pre with
  | nil => exact .nil _
  | cons s rest ih =>
    have hsplit : pre ++ (s :: rest).flatMap Section.bytes = pre ++ s.bytes ++ rest.flatMap Section.bytes := by
      rw [List.flatMap_cons, List.append_assoc]
    have hend : (pre ++ s.bytes).length = pre.length + 12 + s.payloadLen.toNat := by
      rw [Section.bytes, List.length_append, List.length_append, s.header_length, h s List.mem_cons_self, Nat.add_assoc]
    have htail := ih (fun t ht => h t (List.mem_cons_of_mem s ht)) (pre ++ s.bytes)
    rw [hend] at htail
    rw [hsplit]
    refine .cons ⟨pre, s.payload ++ rest.flatMap Section.bytes, ?_, rfl⟩ (fun b hb => ?_) htail
    · rw [Section.bytes]
      simp only [List.append_assoc]
    · have hpayload : s.payload = b.bytes := by
        cases s with
        | image n body => exact congrArg Body.bytes (Option.some.inj hb)
        | other opcode n hop => cases hb
      refine ⟨pre ++ s.header, rest.flatMap Section.bytes, ?_, by rw [List.length_append, s.header_length]⟩
      rw [Section.bytes, hpayload]
      simp only [List.append_assoc]

/-- A file with these sections one behind the other. -/
def laidOut (sections : List Section) (fits : sections.length < 2 ^ 32)
    (exact : ∀ s ∈ sections, s.payloadLen.toNat = s.payload.length) : PatchFile where
  fw := List.replicate 20 0 ++ toLe 4 sections.length ++ sections.flatMap Section.bytes
  sections := sections
  fits := fits
  count := ⟨List.replicate 20 0, sections.flatMap Section.bytes, rfl, List.length_replicate⟩
  layout := by
    have hlayout := sectionsAt_bytes exact (List.replicate 20 0 ++ toLe 4 sections.length)
    rwa [List.length_append, List.length_replicate, toLe_length] at hlayout

/-- A section for a cut, with one register to write and a security header. -/
def smallBody (icCut priority : UInt8) (image : List UInt8) (fits : image.length < 2 ^ 64) : Body :=
  ⟨0x28, icCut, 0, 0, List.replicate 986 0, zeroGap_length, 0, 7, 0x100, 1, priority, image, fits⟩

def longImage : Body := smallBody 1 9 (List.replicate 300 0xcc) (by rw [List.length_replicate]; decide)
def otherCut : Body := smallBody 2 3 [0xdd] (by decide)
def shortImage : Body := smallBody 1 5 [0xaa, 0xbb] (by decide)

theorem longImage_length : longImage.image.length = 300 := List.length_replicate

/-- Two sections for cut 1, of which the one sent last stands first in the file and takes
    the config; between them one for cut 2 and one that is no image. -/
def mixedFile : PatchFile :=
  laidOut [.image 1332 longImage, .image 1033 otherCut, .other 3 5 (by decide), .image 1034 shortImage] (by decide)
    (by decide +kernel)

theorem sends_mixed_file :
    let bodies := accepted 1 mixedFile.sections
    let cmds := (ordered [0x55] bodies).flatMap Job.cmds ++ writeCmds (securityWriteOf (securityBody bodies)) ++
      [[0x01, 0x20, 0xfc, 1, 0x80]]
    hciDownloadPatchV3 ⟨true, fun _ _ => 0⟩ mixedFile.fw 0 ⟨[0x55], by decide⟩ ⟨keyIsZero :: cmds.map ackEvent, []⟩ =
        (.ok 0, ⟨[], acknowledged (vendorReadCmd hciBtRegKeyId) :: cmds.map acknowledged⟩) ∧
      ∀ j ∈ ordered [0x55] bodies, Carries (j.body.image ++ j.tail) fragmentIndex (fragmentCmds j.stream fragmentIndex) := by
  have hacc : accepted (0 + 1) mixedFile.sections = [longImage, shortImage] := rfl
  refine sends_patch mixedFile 0 ⟨[0x55], by decide⟩ ⟨true, fun _ _ => 0⟩ rfl ?_ ?_ ?_
  · rw [hacc]
    exact List.cons_ne_nil _ _
  · rw [hacc]
    intro j hj
    rcases List.mem_cons.mp hj with rfl | hj
    · rw [Job.count, Job.stream, List.length_append, longImage_length]
      decide
    · obtain rfl := List.mem_singleton.mp hj
      decide
  · rw [hacc]
    simp only [List.map_cons, List.map_nil, List.sum_cons, List.sum_nil, longImage_length]
    decide

end AmebaLinux.Hciattach.PatchV3
