/-
  AmebaLinux.Hciattach.PatchV3Data — the bytes a version 3 image and a config call for, and
  which images can be sent (`bluetooth/hciattach/hci_download_v3.c`).

  The parser takes sections of the file. The 64 bits before a section's image are its
  length, and the config follows the image of the section taken first, which is the one
  that stands first in the file. The code cuts the length to 32 bits and counts fragments
  in 16.

  Proved:
  - `Holds.ready`: the queue of any file that has the images of its sections is one of
    placed jobs, so that what is known of well-formed files holds of it.
  - `Holds.trace`: with at most 65534 fragments a section the commands built are those of
    `plan`.
  - `plan_data`: they carry the images and the config.
  - `Holds.fits`: a download that comes to its end command with all of that carried has no
    longer section.
-/

import AmebaLinux.Hciattach.Answers
import AmebaLinux.Hciattach.DownloadEnd

namespace AmebaLinux.Hciattach.PatchV3

open AmebaLinux.Lib
open AmebaLinux.Lib.Bytes
open AmebaLinux.Hciattach.Link
open AmebaLinux.Hciattach.Attach

/-! ## The data of an image -/

/-- The length of a section's image, as the file gives it. -/
def SectionNode.field (fw : List UInt8) (n : SectionNode) : Nat := leNat ((fw.drop (n.imagePayload - 8)).take 8)

def SectionNode.image (fw : List UInt8) (n : SectionNode) : List UInt8 := (fw.drop n.imagePayload).take (n.field fw)

/-- The parser takes sections of the file, and the file has all of their images. -/
structure Holds (f : Image) (config : ConfigBuf) (info : PatchInfo) : Prop where
  parsed : getPatchInfo f config PatchInfo.zero = .ok info
  inside : ∀ n ∈ info.nodes, n.imagePayload + n.field f.buf ≤ f.buf.length

/-- What is sent for a section: its image, and the config behind that of the section that
    stands first in the file. -/
def stream (fw config : List UInt8) (nodes : List SectionNode) (n : SectionNode) : List UInt8 :=
  n.image fw ++ if nodes.all fun other => decide (n.imagePayload ≤ other.imagePayload) then config else []

def patchBytes (fw config : List UInt8) (info : PatchInfo) : List UInt8 := info.nodes.flatMap (stream fw config info.nodes)

/-- The commands that a section calls for, with the writes of its registers. -/
def sectionSteps (n : SectionNode) (data : List UInt8) : List Step :=
  (List.range ((data.length - 1) / 252 + 1)).map fun k =>
    ⟨if k = 0 then sectionWrites (some (n.regStart, n.regRemain)) else [], fragmentCmd data (fragmentIndex k) k, false⟩

/-- The commands that the image and the config call for. -/
def plan (fw config : List UInt8) (info : PatchInfo) : List Step :=
  (info.nodes.flatMap fun n => sectionSteps n (stream fw config info.nodes n)) ++ [endStep (securityWrite info)]

/-! ## The sections of any file -/

/-- A body with what the parser keeps of a section. -/
def keptBody (priority : UInt8) (start remain : Reg) (image : List UInt8) (fits : image.length < 2 ^ 64) : Body :=
  ⟨0x28, 0, 0, 0, List.replicate 986 0, zeroGap_length, start.addr.toUInt64, start.value.toUInt64,
    remain.addr.toUInt64, remain.value.toUInt64, priority, image, fits⟩

theorem keptBody_regs (priority : UInt8) (start remain : Reg) (image : List UInt8) (fits : image.length < 2 ^ 64) :
    (keptBody priority start remain image fits).regStart = start ∧
      (keptBody priority start remain image fits).regRemain = remain := by
  have hkept : ∀ r : Reg, (⟨r.addr.toUInt64.toUInt32, r.value.toUInt64.toUInt32⟩ : Reg) = r := by
    intro r
    rw [UInt32.toUInt32_toUInt64, UInt32.toUInt32_toUInt64]
  exact ⟨hkept start, hkept remain⟩

/-- What is known after the sections before position `p`. -/
structure Found (fw config : List UInt8) (p : Nat) (ps : List (Placed fw)) (fwLen : UInt32) (info : PatchInfo) : Prop where
  queued : Queued fw config (ps.map (·.job.body)) ps fwLen info
  field : ∀ x ∈ ps, x.node.field fw = x.job.body.image.length
  nonempty : ∀ x ∈ ps, 1 ≤ x.job.body.image.length
  before : ∀ x ∈ ps, x.off < p + 1044
  increasing : ps.Pairwise fun x y => x.off < y.off

theorem readLe_eq {buf : List UInt8} {off k n : Nat} (h : readLe buf off k = .ok n) :
    off + k ≤ buf.length ∧ n = leNat ((buf.drop off).take k) := by
  unfold readLe at h
  split at h
  case isTrue hin => exact ⟨hin, (Except.ok.inj h).symm⟩
  case isFalse => cases h

/-- One more section, behind those before it in the file. -/
theorem Found.append {fw config : List UInt8} {p next : Nat} (hnext : p < next) {ps : List (Placed fw)} {fwLen fwLen' : UInt32}
    {info info' : PatchInfo} (h : Found fw config p ps fwLen info) {x : Placed fw} (hoff : x.off = p + 1044)
    (hfield : x.node.field fw = x.job.body.image.length) (hne : 1 ≤ x.job.body.image.length)
    (hqueued : Queued fw config ((ps ++ [x]).map (·.job.body)) (ps ++ [x]) fwLen' info') :
    Found fw config next (ps ++ [x]) fwLen' info' := by
  refine ⟨hqueued, ?_, ?_, ?_, ?_⟩
  · intro y hy
    rcases List.mem_append.mp hy with hy | hy
    · exact h.field y hy
    · rw [List.mem_singleton.mp hy, hfield]
  · intro y hy
    rcases List.mem_append.mp hy with hy | hy
    · exact h.nonempty y hy
    · rw [List.mem_singleton.mp hy]
      exact hne
  · intro y hy
    rcases List.mem_append.mp hy with hy | hy
    · exact Nat.lt_of_lt_of_le (h.before y hy) (by omega)
    · rw [List.mem_singleton.mp hy, hoff]
      omega
  · refine List.pairwise_append.mpr ⟨h.increasing, List.pairwise_singleton _ _, fun y hy z hz => ?_⟩
    rw [List.mem_singleton.mp hz, hoff]
    exact h.before y hy

/-- A section that is taken, or not. -/
theorem parsePatchImage_found {f : Image} {config : ConfigBuf} {p next : Nat} (hnext : p + 12 ≤ next) {ps : List (Placed f.buf)}
    {fwLen len : UInt32} {info info' : PatchInfo} (h : Found f.buf config.bytes p ps fwLen info)
    (hparse : parsePatchImage f (p + 12) info = .ok (len, info'))
    (inside : ∀ n ∈ info'.nodes, n.imagePayload + n.field f.buf ≤ f.buf.length) :
    ∃ ps', Found f.buf config.bytes next ps' (fwLen + len) info' := by
  rcases parsePatchImage_cases hparse with hr | ⟨field, priority, start, remain, hfield, hne, hroom, node, hnode, hr⟩
  · obtain ⟨rfl, rfl⟩ := Prod.mk.inj hr
    rw [UInt32.add_zero]
    exact ⟨ps, h.queued, h.field, h.nonempty, fun x hx => Nat.lt_of_lt_of_le (h.before x hx) (by omega), h.increasing⟩
  · obtain ⟨rfl, rfl⟩ := Prod.mk.inj hr
    obtain ⟨hread, hfieldEq⟩ := readLe_eq hfield
    have hoff : p + 12 + hciPatchImageInfoLen + 8 = p + 1044 := rfl
    rw [hoff] at hnode
    have hnodeField : node.field f.buf = field := by
      rw [hnode, hfieldEq]
      rfl
    have hin : p + 1044 + field ≤ f.buf.length := by
      have := inside node (List.mem_orderedInsert _ |>.mpr (.inl rfl))
      rw [hnodeField, hnode] at this
      exact this
    have hsmall : field < 2 ^ 64 := by
      have hlt := leNat_lt ((f.buf.drop (p + 12 + hciPatchImageInfoLen)).take 8)
      rw [← hfieldEq, List.length_take] at hlt
      exact Nat.lt_of_lt_of_le hlt (Nat.pow_le_pow_right (by decide) (Nat.min_le_left 8 _))
    have himage : ((f.buf.drop (p + 1044)).take field).length = field := by
      rw [List.length_take, List.length_drop]
      omega
    let b : Body := keptBody priority start remain ((f.buf.drop (p + 1044)).take field) (by rwa [himage])
    have hfull : (ps.map (·.job.body)).length < 64 := by
      have := h.queued.most
      have := mt h.queued.full.mpr hroom
      omega
    have hadd := h.queued.add hfull b (At.of_inside hin)
    have htotal := h.queued.totalLen hfull b
    set x : Placed f.buf := ⟨⟨b, if ps.map (·.job.body) = [] then config.bytes else []⟩, p + 1044, At.of_inside hin⟩ with hx
    have hlen : x.job.body.image.length = field := himage
    have hxnode : x.node = node := by
      obtain ⟨hstart, hremain⟩ : b.regStart = start ∧ b.regRemain = remain := keptBody_regs _ _ _ _ _
      rw [hnode, ← hlen, ← hstart, ← hremain]
      exact congrArg (fun total => mkNode _ total _ _ _ _) htotal.symm
    rw [← hlen, ← hxnode]
    refine ⟨ps ++ [x], h.append (by omega) rfl ?_ ?_ ?_⟩
    · rw [hxnode, hnodeField, hlen]
    · rw [hlen]
      omega
    · rw [List.map_append]
      exact hadd

theorem parsePatchImage_keeps {f : Image} {p : Nat} {info : PatchInfo} {r : UInt32 × PatchInfo}
    (h : parsePatchImage f p info = .ok r) {n : SectionNode} (hn : n ∈ info.nodes) : n ∈ r.2.nodes := by
  rcases parsePatchImage_cases h with hr | ⟨field, priority, start, remain, -, -, -, node, -, hr⟩
  · rw [hr]
    exact hn
  · rw [hr]
    exact (List.mem_orderedInsert _).mpr (.inr hn)

theorem parseSectionLoop_keeps {f : Image} {number p : Nat} {fwLen : UInt32} {info : PatchInfo} {r : UInt32 × PatchInfo}
    (h : parseSectionLoop f number p fwLen info = .ok r) {n : SectionNode} (hn : n ∈ info.nodes) : n ∈ r.2.nodes := by
  induction number generalizing p fwLen info with
  | zero => cases h; exact hn
  | succ number ih =>
    obtain ⟨op, -, h⟩ := build_eq_ok h
    obtain ⟨len, -, h⟩ := build_eq_ok h
    obtain ⟨r1, hone, h⟩ := build_eq_ok h
    refine ih h ?_
    split at hone
    case isTrue => exact parsePatchImage_keeps hone hn
    case isFalse => cases hone; exact hn

theorem parseSectionLoop_found {f : Image} {config : ConfigBuf} {number p : Nat} {ps : List (Placed f.buf)} {fwLen : UInt32}
    {info : PatchInfo} {r : UInt32 × PatchInfo} (found : Found f.buf config.bytes p ps fwLen info)
    (h : parseSectionLoop f number p fwLen info = .ok r)
    (inside : ∀ n ∈ r.2.nodes, n.imagePayload + n.field f.buf ≤ f.buf.length) :
    ∃ p' ps', Found f.buf config.bytes p' ps' r.1 r.2 := by
  induction number generalizing p ps fwLen info with
  | zero => cases h; exact ⟨p, ps, found⟩
  | succ number ih =>
    obtain ⟨op, -, h⟩ := build_eq_ok h
    obtain ⟨len, -, h⟩ := build_eq_ok h
    obtain ⟨⟨l, info1⟩, hone, h⟩ := build_eq_ok h
    have hinside : ∀ n ∈ info1.nodes, n.imagePayload + n.field f.buf ≤ f.buf.length :=
      fun n hn => inside n (parseSectionLoop_keeps h hn)
    split at hone
    case isTrue =>
      obtain ⟨ps1, found1⟩ := parsePatchImage_found (Nat.le_add_right _ len) found hone hinside
      exact ih found1 h
    case isFalse =>
      cases hone
      dsimp only at h
      rw [UInt32.add_zero] at h
      refine ih ⟨found.queued, found.field, found.nonempty, fun x hx => ?_, found.increasing⟩ h
      exact Nat.lt_of_lt_of_le (found.before x hx) (by omega)

/-- What parsing finds in any file that has the images. -/
theorem Holds.found {f : Image} {config : ConfigBuf} {info : PatchInfo} (h : Holds f config info) :
    ∃ p ps info0, Found f.buf config.bytes p ps info.fwLen info0 ∧ info = { info0 with fwLen := info.fwLen } ∧ ps ≠ [] := by
  have hparsed := h.parsed
  obtain ⟨date, -, hparsed⟩ := build_eq_ok hparsed
  obtain ⟨time, -, hparsed⟩ := build_eq_ok hparsed
  obtain ⟨⟨fwLen, info0⟩, hsections, hparsed⟩ := build_eq_ok hparsed
  dsimp only at hparsed
  split at hparsed
  case isTrue => cases hparsed
  case isFalse hne =>
    cases hparsed
    have hinside := h.inside
    have hstart : Found f.buf config.bytes 24 [] 0 { PatchInfo.zero with configLen := UInt16.ofNat config.bytes.length } :=
      ⟨⟨rfl, Nat.zero_le _, rfl, rfl, ⟨rfl, rfl⟩, rfl, rfl, rfl⟩, by simp, by simp, by simp, List.Pairwise.nil⟩
    obtain ⟨number, -, hsections⟩ := build_eq_ok hsections
    split at hsections
    case isTrue =>
      cases hsections
      exact absurd rfl hne
    case isFalse =>
      obtain ⟨p, ps, found⟩ := parseSectionLoop_found hstart hsections hinside
      refine ⟨p, ps, info0, found, rfl, ?_⟩
      intro hps
      have hzero := found.queued.fwLen
      rw [hps] at hzero
      exact hne hzero

/-- The config is behind the image that stands first. -/
theorem Found.tail_eq {fw config : List UInt8} {p : Nat} {ps : List (Placed fw)} {fwLen : UInt32} {info : PatchInfo}
    (h : Found fw config p ps fwLen info) {x : Placed fw} (hx : x ∈ ps) :
    x.job.tail = if ∀ y ∈ ps, x.off ≤ y.off then config else [] := by
  have hjobs := h.queued.jobs
  have hincreasing := h.increasing
  cases ps with
  | nil => cases hx
  | cons first rest =>
    obtain ⟨hfirst, hrest⟩ := List.cons.inj hjobs
    obtain ⟨hlt, -⟩ := List.pairwise_cons.mp hincreasing
    rcases List.mem_cons.mp hx with rfl | hx
    · have hall : ∀ y ∈ x :: rest, x.off ≤ y.off := by
        intro y hy
        rcases List.mem_cons.mp hy with rfl | hy
        · exact Nat.le_refl _
        · exact Nat.le_of_lt (hlt y hy)
      rw [if_pos hall]
      exact congrArg Job.tail hfirst
    · have hnot : ¬ ∀ y ∈ first :: rest, x.off ≤ y.off :=
        fun hall => absurd (hall first List.mem_cons_self) (Nat.not_le.mpr (hlt x hx))
      rw [List.map_map] at hrest
      rw [if_neg hnot]
      exact congrArg Job.tail (List.map_inj_left.mp hrest x hx)

theorem Placed.image_eq {fw : List UInt8} {x : Placed fw} (h : x.node.field fw = x.job.body.image.length) :
    x.node.image fw = x.job.body.image := by
  have hat := x.placed.take_drop (i := 0) (n := x.job.body.image.length) (by omega)
  rw [Nat.add_zero, List.drop_zero, List.take_length] at hat
  rw [SectionNode.image, h]
  exact hat

/-- The queue of any file that has the images is one of placed jobs, each with the stream
    that its section calls for. -/
theorem Holds.ready {f : Image} {config : ConfigBuf} {info : PatchInfo} (h : Holds f config info) :
    ∃ (bodies : List Body) (q : List (Placed f.buf)), Ready config bodies q info ∧ bodies ≠ [] ∧
      ∀ x ∈ q, 1 ≤ x.job.body.image.length ∧ stream f.buf config.bytes info.nodes x.node = x.job.stream := by
  obtain ⟨p, ps, info0, found, hinfo, hne⟩ := h.found
  obtain ⟨q, hperm, hready⟩ := found.queued.ready
  rw [← hinfo] at hready
  refine ⟨ps.map (·.job.body), q, hready, fun h0 => hne (List.map_eq_nil_iff.mp h0), fun x hx => ?_⟩
  have hmem := hperm.mem_iff.mp hx
  refine ⟨found.nonempty x hmem, ?_⟩
  have hfirst : (info.nodes.all fun other => decide (x.node.imagePayload ≤ other.imagePayload)) = true ↔
      ∀ y ∈ ps, x.off ≤ y.off := by
    rw [hready.nodes, List.all_map, List.all_eq_true]
    constructor
    · intro hall y hy
      exact of_decide_eq_true (hall y (hperm.mem_iff.mpr hy))
    · intro hall y hy
      exact decide_eq_true (hall y (hperm.mem_iff.mp hy))
  rw [stream, Placed.image_eq (found.field x hmem), Job.stream, found.tail_eq hmem]
  simp only [hfirst]

/-! ## What can be sent -/

theorem sectionSteps_data (n : SectionNode) (data : List UInt8) :
    ((sectionSteps n data).map (·.cmd)).flatMap (·.drop 5) = data := by
  rw [sectionSteps, List.map_map]
  exact fragmentCmds_data data _

theorem plan_data (fw config : List UInt8) (info : PatchInfo) :
    ((plan fw config info).map (·.cmd)).flatMap (·.drop 5) = patchBytes fw config info := by
  have hend : ((endStep (securityWrite info)).cmd).drop 5 = [] := rfl
  rw [plan, List.map_append, List.flatMap_append, List.map_flatMap, List.flatMap_assoc, List.map_singleton,
    List.flatMap_singleton, hend, List.append_nil]
  exact List.flatMap_congr fun n _ => sectionSteps_data n _

theorem Ready.plan_eq {f : Image} {config : ConfigBuf} {info : PatchInfo} {bodies : List Body} {q : List (Placed f.buf)}
    (hready : Ready config bodies q info) {g : SectionNode → List UInt8} (hstream : ∀ x ∈ q, g x.node = x.job.stream) :
    (info.nodes.flatMap fun n => sectionSteps n (g n)) = q.flatMap (·.job.steps) := by
  rw [hready.nodes, List.flatMap_map]
  refine List.flatMap_congr fun x hx => ?_
  rw [hstream x hx]
  rfl

/-- What can be sent is what the image calls for. -/
theorem Holds.trace {f : Image} {config : ConfigBuf} {info : PatchInfo} (h : Holds f config info)
    (hfit : ∀ n ∈ info.nodes, (stream f.buf config.bytes info.nodes n).length ≤ 65534 * 252) :
    Trace (nextCommand f.buf config) lastCommand info (plan f.buf config.bytes info) := by
  obtain ⟨bodies, q, hready, hne, hq⟩ := h.ready
  have hsend : ∀ j ∈ ordered config.bytes bodies, j.Sendable := by
    intro j hj
    rw [← hready.jobs] at hj
    obtain ⟨x, hx, rfl⟩ := List.mem_map.mp hj
    obtain ⟨hpos, hstream⟩ := hq x hx
    have hnode : x.node ∈ info.nodes := by
      rw [hready.nodes]
      exact List.mem_map_of_mem hx
    refine ⟨hpos, ?_⟩
    rw [← hstream]
    exact hfit x.node hnode
  rw [plan, hready.plan_eq fun x hx => (hq x hx).2]
  exact hready.trace hne hsend

/-! ## Longer sections -/

/-- The bytes that the fragments of a section from `cur_index` on carry. -/
def SectionNode.left (n : SectionNode) : Nat :=
  if n.curIndex > n.endIndex then 0 else 252 * (n.endIndex.toNat - n.curIndex.toNat) + n.lastPkt.toNat

def leftAll (nodes : List SectionNode) : Nat := (nodes.map SectionNode.left).sum

/-- A fragment carries what is left less for it. -/
theorem left_next {node node' : SectionNode} (h : ¬ node.curIndex > node.endIndex) (hfit : node.endIndex.toNat ≤ 65534)
    (hcur : node'.curIndex = node.curIndex + 1) (hend : node'.endIndex = node.endIndex) (hlast : node'.lastPkt = node.lastPkt) :
    node.lengthByte.toNat - 1 + node'.left ≤ node.left := by
  have hle : node.curIndex.toNat ≤ node.endIndex.toNat := UInt16.not_lt.mp h
  have hnext : node'.curIndex.toNat = node.curIndex.toNat + 1 := by
    rw [hcur, UInt16.toNat_add, show (1 : UInt16).toNat = 1 from rfl]
    omega
  have hdone : node'.curIndex > node'.endIndex ↔ node.endIndex.toNat < node.curIndex.toNat + 1 := by
    rw [gt_iff_lt, UInt16.lt_iff_toNat_lt, hend, hnext]
  rw [SectionNode.left, SectionNode.left, if_neg h, hend, hlast, hnext]
  by_cases heq : node.curIndex = node.endIndex
  · have hlen : node.lengthByte.toNat ≤ node.lastPkt.toNat + 1 := by
      rw [SectionNode.lengthByte, if_pos heq, UInt8.toNat_add, show (1 : UInt8).toNat = 1 from rfl]
      omega
    rw [if_pos (by rw [← hend, hdone, heq]; exact Nat.lt_succ_self _)]
    omega
  · have hlen : node.lengthByte.toNat = 253 := by rw [SectionNode.lengthByte, if_neg heq]; rfl
    have hlt : node.curIndex.toNat ≠ node.endIndex.toNat := fun hc => heq (UInt16.toNat_inj.mp hc)
    rw [if_neg (by rw [← hend, hdone]; omega)]
    omega

theorem trimIndex_ne_end (i : UInt16) : trimIndex i ≠ 0x80 := by
  have hseq := trimIndex_eq i.toNat_lt
  rw [UInt16.ofNat_toNat] at hseq
  rw [hseq]
  have hlt := indexSeq_lt i.toNat
  intro h
  have := congrArg UInt8.toNat h
  rw [size8_toNat (by omega), show (0x80 : UInt8).toNat = 128 from rfl] at this
  omega

/-- A pass over the queue: no section is left, or a fragment is put into the buffer. -/
theorem scan_carries {fw : List UInt8} {config : ConfigBuf} {info : PatchInfo} {buf : List UInt8} {nodes : List SectionNode}
    {regs : Option (Reg × Reg)} {s : Scan} (h : scan fw config info buf nodes regs = .ok s) :
    s.nodes.map (·.endIndex) = nodes.map (·.endIndex) ∧
      ((s.sent = false ∧ s.buf = buf ∧ ∀ n ∈ nodes, n.curIndex > n.endIndex) ∨
        (s.sent = true ∧ ∃ len index : UInt8, s.buf.take 5 = buf.take 3 ++ [len, index] ∧ index ≠ 0x80 ∧
          (Bounded nodes → len.toNat - 1 + leftAll s.nodes ≤ leftAll nodes))) := by
  induction nodes generalizing regs s with
  | nil =>
    cases h
    exact ⟨rfl, .inl ⟨rfl, rfl, fun _ hn => absurd hn List.not_mem_nil⟩⟩
  | cons node rest ih =>
    rw [scan] at h
    dsimp only at h
    split at h
    case isTrue hdone =>
      obtain ⟨s', hscan, h⟩ := build_eq_ok h
      cases h
      obtain ⟨hends, hcases⟩ := ih hscan
      refine ⟨congrArg (node.endIndex :: ·) hends, ?_⟩
      rcases hcases with ⟨hsent, hbuf, hall⟩ | ⟨hsent, len, index, hhead, hindex, hleft⟩
      · refine .inl ⟨hsent, hbuf, fun n hn => ?_⟩
        rcases List.mem_cons.mp hn with rfl | hn
        · exact hdone
        · exact hall n hn
      · refine .inr ⟨hsent, len, index, hhead, hindex, fun hb => ?_⟩
        have hrest := hleft fun n hn => hb n (List.mem_cons_of_mem _ hn)
        show len.toNat - 1 + (node.left + leftAll s'.nodes) ≤ node.left + leftAll rest
        omega
    case isFalse hnext =>
      obtain ⟨⟨buf', node', info'⟩, hcopy, h⟩ := build_eq_ok h
      cases h
      obtain ⟨⟨hhead, -⟩, hcur, hend, hlast⟩ := copyFragment_ok hcopy
      refine ⟨congrArg (List.cons · (rest.map SectionNode.endIndex)) hend,
        .inr ⟨rfl, _, _, hhead, trimIndex_ne_end _, fun hb => ?_⟩⟩
      have hone : (SectionNode.lengthByte { node with newSectionCheck := true }).toNat - 1 +
          SectionNode.left { node' with curIndex := node'.curIndex + 1 } ≤ node.left :=
        left_next hnext (hb node List.mem_cons_self) (congrArg (· + 1) hcur) hend hlast
      have hrest : leftAll (node :: rest) = node.left + leftAll rest := List.sum_cons
      have hrest' : leftAll ({ node' with curIndex := node'.curIndex + 1 } :: rest) =
        SectionNode.left { node' with curIndex := node'.curIndex + 1 } + leftAll rest := List.sum_cons
      rw [hrest, hrest']
      omega

/-- A command cut from a buffer with this head. -/
theorem command_of_head {buf : List UInt8} {len i : UInt8} (h : buf.take 5 = [0x01, 0x20, 0xfc, len, i]) :
    isDownload (buf.take ((buf.getD 3 0).toNat + 4)) = true ∧
      ((buf.take ((buf.getD 3 0).toNat + 4)).drop 5).length ≤ len.toNat - 1 ∧
      index (buf.take ((buf.getD 3 0).toNat + 4)) = if len.toNat = 0 then 0 else i := by
  have hbuf : buf = 0x01 :: 0x20 :: 0xfc :: len :: i :: buf.drop 5 := by
    have := List.take_append_drop 5 buf
    rw [h] at this
    exact this.symm
  have h3 : buf.getD 3 0 = len := by rw [hbuf]; rfl
  rw [h3, hbuf]
  rcases hlen : len.toNat with _ | n
  · exact ⟨rfl, Nat.zero_le _, rfl⟩
  · refine ⟨rfl, ?_, rfl⟩
    show ((buf.drop 5).take n).length ≤ n + 1 - 1
    exact List.length_take_le _ _

/-- A command that is built: the end command, when no section is left, or a fragment. -/
theorem nextCommand_carries {fw : List UInt8} {config : ConfigBuf} {info info' : PatchInfo} {t : Step}
    (h : nextCommand fw config info = .ok (t, info')) :
    isDownload t.cmd = true ∧ info'.nodes.map (·.endIndex) = info.nodes.map (·.endIndex) ∧
      ((lastCommand (index t.cmd) = true ∧ t.cmd.drop 5 = [] ∧ ∀ n ∈ info.nodes, n.curIndex > n.endIndex) ∨
        (lastCommand (index t.cmd) = false ∧
          (Bounded info.nodes → (t.cmd.drop 5).length + leftAll info'.nodes ≤ leftAll info.nodes))) := by
  unfold nextCommand at h
  obtain ⟨⟨buf, regs, info1⟩, hcmd, h⟩ := build_eq_ok h
  dsimp only at h
  obtain ⟨cmd, hslice, h⟩ := build_eq_ok h
  cases h
  have hcut : cmd = buf.take ((buf.getD 3 0).toNat + 4) := by
    unfold slice at hslice
    split at hslice
    case isTrue => exact (Except.ok.inj hslice).symm
    case isFalse => cases hslice
  unfold hciPatchGetCmdBuf at hcmd
  split at hcmd
  case isTrue => cases hcmd
  case isFalse =>
    obtain ⟨s, hscan, hcmd⟩ := build_eq_ok hcmd
    obtain ⟨hends, hcases⟩ := scan_carries hscan
    dsimp only at hcmd
    rcases hcases with ⟨hsent, hbuf, hdone⟩ | ⟨hsent, len, index, hhead, hindex, hleft⟩
    · rw [hsent, if_neg Bool.false_ne_true, hbuf] at hcmd
      obtain ⟨buf1, hend, hcmd⟩ := build_eq_ok hcmd
      split at hcmd
      case isTrue => cases hcmd
      case isFalse =>
        split at hcmd
        case isTrue => cases hcmd
        case isFalse =>
          cases hcmd
          obtain ⟨hdownload, hlen, hmark⟩ := command_of_head (copyTo_header hend)
          rw [← hcut] at hdownload hlen hmark
          refine ⟨hdownload, hends, .inl ⟨?_, List.length_eq_zero_iff.mp (Nat.le_zero.mp hlen), hdone⟩⟩
          rw [hmark]
          rfl
    · rw [hsent, if_pos rfl] at hcmd
      cases hcmd
      obtain ⟨hdownload, hlen, hmark⟩ := command_of_head hhead
      rw [← hcut] at hdownload hlen hmark
      refine ⟨hdownload, hends, .inr ⟨?_, fun hb => Nat.le_trans (Nat.add_le_add_right hlen _) (hleft hb)⟩⟩
      rw [lastCommand, beq_eq_false_iff_ne, hmark]
      split
      · decide
      · exact hindex

theorem bounded_congr {nodes nodes' : List SectionNode} (h : nodes'.map (·.endIndex) = nodes.map (·.endIndex))
    (hb : Bounded nodes') : Bounded nodes := by
  intro n hn
  have hmem : n.endIndex ∈ nodes'.map (·.endIndex) := by
    rw [h]
    exact List.mem_map_of_mem hn
  obtain ⟨n', hn', heq⟩ := List.mem_map.mp hmem
  rw [← heq]
  exact hb n' hn'

/-- A download that comes to its end command has passed the end of every section, and
    carried no more than the fragments of the sections hold. -/
theorem trace_carries {fw : List UInt8} {config : ConfigBuf} {info : PatchInfo} {steps : List Step}
    (trace : Trace (nextCommand fw config) lastCommand info steps) :
    Bounded info.nodes ∧ ((steps.map (·.cmd)).flatMap (·.drop 5)).length ≤ leftAll info.nodes := by
  induction trace with
  | @last info info' t built download ends =>
    obtain ⟨-, -, ⟨-, hdata, hdone⟩ | ⟨hmark, -⟩⟩ := nextCommand_carries built
    · refine ⟨fun n hn => ?_, ?_⟩
      · have hlt : n.endIndex.toNat < n.curIndex.toNat := hdone n hn
        have := n.curIndex.toNat_lt
        omega
      · rw [List.map_singleton, List.flatMap_singleton, hdata]
        exact Nat.zero_le _
    · rw [hmark] at ends
      cases ends
  | @more info info' t rest built download goesOn tail ih =>
    obtain ⟨hb', hrest⟩ := ih
    obtain ⟨-, hends, hcases⟩ := nextCommand_carries built
    have hb := bounded_congr hends hb'
    refine ⟨hb, ?_⟩
    rw [List.map_cons, List.flatMap_cons, List.length_append]
    rcases hcases with ⟨hmark, -⟩ | ⟨-, hleft⟩
    · rw [hmark] at goesOn
      cases goesOn
    · have := hleft hb
      omega

/-- What the fragments of a section hold, as the code counts them, is at most what the
    section calls for, and less for one that takes more than 65534. -/
theorem Placed.left_le {fw : List UInt8} (x : Placed fw) (hpos : 1 ≤ x.job.body.image.length) :
    x.node.left ≤ x.job.stream.length ∧
      (x.node.endIndex.toNat ≤ 65534 → 65534 * 252 < x.job.stream.length → x.node.left < x.job.stream.length) := by
  have hlen := x.job.stream_length
  set L := x.job.stream.length with hL
  have hend : x.node.endIndex.toNat = ((L % 2 ^ 32 + (2 ^ 32 - 1)) % 2 ^ 32 / 252 + 1) % 2 ^ 16 := by
    have hpred : (UInt32.ofNat L - 1).toNat = (L % 2 ^ 32 + (2 ^ 32 - 1)) % 2 ^ 32 := by
      rw [UInt32.toNat_sub, UInt32.toNat_ofNat', Nat.add_comm]
      rfl
    rw [Placed.node, mkNode, ← hL, hpred, hciPatchFragSize]
    exact UInt16.toNat_ofNat'
  have hlast : x.node.lastPkt.toNat = if L % 2 ^ 32 % 252 = 0 then 252 else L % 2 ^ 32 % 252 := by
    have hsize : (UInt8.ofNat (L % 2 ^ 32 % 252)).toNat = L % 2 ^ 32 % 252 := size8_toNat (by omega)
    have hzero : UInt8.ofNat (L % 2 ^ 32 % 252) = 0 ↔ L % 2 ^ 32 % 252 = 0 := by
      rw [← UInt8.toNat_inj, hsize]
      rfl
    rw [Placed.node, mkNode, ← hL, UInt32.toNat_ofNat', hciPatchFragSize]
    simp only [hzero]
    split
    · rfl
    · exact hsize
  have hleft : x.node.left =
      if 1 > x.node.endIndex.toNat then 0 else 252 * (x.node.endIndex.toNat - 1) + x.node.lastPkt.toNat := by
    rw [SectionNode.left]
    rfl
  have hlast252 : x.node.lastPkt.toNat ≤ 252 := by rw [hlast]; split <;> omega
  have hendLt := x.node.endIndex.toNat_lt
  have hmod := Nat.mod_le L (2 ^ 32)
  rw [hleft]
  rcases Nat.eq_zero_or_pos (L % 2 ^ 32) with hzero | hr
  · -- All of the 32 bits are lost, so the section is longer than any number of fragments.
    have hbig : 2 ^ 32 ≤ L := Nat.le_of_dvd (by omega) (Nat.dvd_of_mod_eq_zero hzero)
    constructor
    · split <;> omega
    · intro _ _
      split <;> omega
  · have hcount : x.node.endIndex.toNat = ((L % 2 ^ 32 - 1) / 252 + 1) % 2 ^ 16 := by
      rw [hend, show (L % 2 ^ 32 + (2 ^ 32 - 1)) % 2 ^ 32 = L % 2 ^ 32 - 1 by omega]
    have hsum : 252 * ((L % 2 ^ 32 - 1) / 252) + x.node.lastPkt.toNat = L % 2 ^ 32 := by
      rw [hlast]
      split <;> omega
    constructor
    · split <;> omega
    · intro _ _
      split <;> omega

/-- A patch that is sent whole, up to the end command, has no section of more than 65534
    fragments. -/
theorem Holds.fits {f : Image} {config : ConfigBuf} {info : PatchInfo} (h : Holds f config info) {steps : List Step}
    (trace : Trace (nextCommand f.buf config) lastCommand info steps)
    (hdata : (steps.map (·.cmd)).flatMap (·.drop 5) = patchBytes f.buf config.bytes info) :
    ∀ n ∈ info.nodes, (stream f.buf config.bytes info.nodes n).length ≤ 65534 * 252 := by
  obtain ⟨bodies, q, hready, -, hq⟩ := h.ready
  obtain ⟨hb, hcarried⟩ := trace_carries trace
  rw [hdata, patchBytes, List.length_flatMap] at hcarried
  have hnode : ∀ n ∈ info.nodes, n.left ≤ (stream f.buf config.bytes info.nodes n).length ∧
      (65534 * 252 < (stream f.buf config.bytes info.nodes n).length →
        n.left < (stream f.buf config.bytes info.nodes n).length) := by
    intro n hn
    have hmem := hn
    rw [hready.nodes] at hmem
    obtain ⟨x, hx, rfl⟩ := List.mem_map.mp hmem
    obtain ⟨hpos, hstream⟩ := hq x hx
    obtain ⟨hle, hlt⟩ := x.left_le hpos
    rw [hstream]
    exact ⟨hle, hlt (hb x.node hn)⟩
  intro n hn
  by_contra hlong
  have hless := List.sum_lt_sum _ _ (fun m hm => (hnode m hm).1) ⟨n, hn, (hnode n hn).2 (Nat.not_le.mp hlong)⟩
  exact absurd hcarried (Nat.not_le.mpr hless)

end AmebaLinux.Hciattach.PatchV3
