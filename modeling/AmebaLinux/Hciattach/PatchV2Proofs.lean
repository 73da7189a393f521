/-
  AmebaLinux.Hciattach.PatchV2Proofs — what a version 2 download sends
  (see `AmebaLinux.Hciattach.PatchV2`).

  A well-formed file is a `PatchFile`: the entries its sections hold stand where the
  headers say. `payloads` is the patch it holds for a chip.

  Proved:
  - `parsePatch_file`: the queue after parsing stands for the chip's entries in order.
  - `copyNodes_spec`: one pass over the queue copies the next bytes of the payloads.
  - `delivers_patch`: the commands carry the payloads and the config, 252 bytes each but
    the last, and the loop ends after them.
-/

import AmebaLinux.Lib.Fragments
import AmebaLinux.Hciattach.LinkProofs
import AmebaLinux.Hciattach.PatchV2

namespace AmebaLinux.Hciattach.PatchV2

open AmebaLinux.Lib
open AmebaLinux.Lib.Bytes
open AmebaLinux.Hciattach.Link

/-! ## Well-formed files -/

structure Entry where
  eco : UInt8
  priority : UInt8
  keyId : UInt8
  reserve : UInt8
  payload : List UInt8
  fits : payload.length < 2 ^ 32

def Entry.header (e : Entry) : List UInt8 := [e.eco, e.priority, e.keyId, e.reserve] ++ toLe 4 e.payload.length

def Entry.bytes (e : Entry) : List UInt8 := e.header ++ e.payload

/-- A section; `entries` are those of a section that this build parses. -/
structure Section where
  opcode : UInt32
  length : UInt32
  entries : List Entry
  reserve : UInt16
  fits : entries.length < 65536

def Section.header (s : Section) : List UInt8 := toLe 4 s.opcode.toNat ++ toLe 4 s.length.toNat

def Section.body (s : Section) : List UInt8 :=
  toLe 2 s.entries.length ++ toLe 2 s.reserve.toNat ++ s.entries.flatMap Entry.bytes

/-- Snippets and, without a key, dummy headers. -/
def Section.parsed (s : Section) : Prop := s.opcode = 1 ∨ s.opcode = 2

instance (s : Section) : Decidable s.parsed := inferInstanceAs (Decidable (_ ∨ _))

/-- The sections from offset `p` on; each starts where the one before says it ends. -/
inductive SectionsAt (fw : List UInt8) : Nat → List Section → Prop
  | nil (p : Nat) : SectionsAt fw p []
  | cons {p : Nat} {s : Section} {rest : List Section} (header : At fw p s.header)
      (body : s.parsed → At fw (p + 8) s.body) (tail : SectionsAt fw (p + 8 + s.length.toNat) rest) :
      SectionsAt fw p (s :: rest)

/-- A firmware file with its sections: 8 bytes of signature, the version and the number of
    sections precede them. -/
structure PatchFile where
  fw : List UInt8
  sections : List Section
  fits : sections.length < 2 ^ 32
  count : At fw 16 (toLe 4 sections.length)
  layout : SectionsAt fw 20 sections

/-- The chip's entries, in order of appearance. -/
def selected (chipid : UInt8) (sections : List Section) : List Entry :=
  sections.flatMap fun s => if s.parsed then s.entries.filter (·.eco = chipid) else []

/-- The entries as they are sent: ascending priority, the later first at equal priority. -/
def ordered (chipid : UInt8) (sections : List Section) : List Entry :=
  Queue.byKey (·.priority.toNat) 256 (selected chipid sections)

/-- The patch that the sections hold for a chip. -/
def payloads (chipid : UInt8) (sections : List Section) : List UInt8 :=
  (ordered chipid sections).flatMap (·.payload)

/-! ## Parsing -/

/-- The node stands for the entry, with nothing of it sent. -/
structure Stands (fw : List UInt8) (n : PatchNode) (e : Entry) : Prop where
  priority : n.priority = e.priority
  payloadLen : n.payloadLen = UInt32.ofNat e.payload.length
  payload : At fw n.payload e.payload
  unsent : n.sentPayloadLen = 0

/-- What parsing adds: nodes that stand for the entries, inserted in turn. -/
structure Adds (fw : List UInt8) (p p' : Parsed) (nodes : List PatchNode) (es : List Entry) : Prop where
  stands : List.Forall₂ (Stands fw) nodes es
  queue : p'.queue = nodes.foldl insertPatchQueue p.queue
  fwLen : p'.fwLen = p.fwLen + UInt32.ofNat (es.flatMap (·.payload)).length
  found : p'.foundSecurityHeader = p.foundSecurityHeader

theorem Adds.refl (fw : List UInt8) (p : Parsed) : Adds fw p p [] [] := ⟨.nil, rfl, by simp, rfl⟩

theorem Adds.trans {fw : List UInt8} {p q r : Parsed} {ns ms : List PatchNode} {es fs : List Entry}
    (h : Adds fw p q ns es) (h' : Adds fw q r ms fs) : Adds fw p r (ns ++ ms) (es ++ fs) where
  stands := List.rel_append h.stands h'.stands
  queue := by rw [h'.queue, h.queue, List.foldl_append]
  fwLen := by rw [h'.fwLen, h.fwLen, List.flatMap_append, List.length_append, UInt32.ofNat_add, UInt32.add_assoc]
  found := h'.found.trans h.found

/-- Entries of a section that is not for a key. -/
theorem parseEntry_at {f : Image} {op : SectionOpcode} (hop : op = .patchSnippets ∨ op = .dummyHeader) {pos : Nat} {e : Entry}
    (h : At f.buf pos e.bytes) (p : Parsed) :
    ∃ ns p', (if e.eco = f.chipid then takeEntry f op pos e.eco e.payload.length p else pure p) = .ok p' ∧
      Adds f.buf p p' ns ([e].filter (·.eco = f.chipid)) := by
  have hprio : readByte f.buf (pos + 1) = .ok e.priority := by
    have h1 : At f.buf pos ([e.eco] ++ ([e.priority, e.keyId, e.reserve] ++ toLe 4 e.payload.length ++ e.payload)) := h
    exact readByte_at h1.right
  by_cases heco : e.eco = f.chipid
  · let node : PatchNode := ⟨e.eco, e.priority, 0, UInt32.ofNat e.payload.length, pos + 8, 0⟩
    have hpay : At f.buf (pos + 8) e.payload := by
      have h8 : e.header.length = 8 := by simp [Entry.header]
      have := At.right (a := e.header) h
      rwa [h8] at this
    have hsec : op ≠ .securityHeader := by rcases hop with rfl | rfl <;> decide
    refine ⟨[node], p.add node, ?_, ?_⟩
    · rw [if_pos heco, takeEntry, hprio, if_neg hsec]
      show (if op = .patchSnippets ∨ op = .dummyHeader then _ else _) = _
      rw [if_pos hop]
      rfl
    · have : [e].filter (·.eco = f.chipid) = [e] := by simp [heco]
      rw [this]
      exact ⟨.cons ⟨rfl, rfl, hpay, rfl⟩ .nil, rfl, by simp [Parsed.add, node], rfl⟩
  · have : [e].filter (·.eco = f.chipid) = [] := by simp [heco]
    rw [if_neg heco, this]
    exact ⟨[], p, rfl, Adds.refl _ p⟩

theorem parseEntries_at {f : Image} {op : SectionOpcode} (hop : op = .patchSnippets ∨ op = .dummyHeader) {es : List Entry}
    {pos : Nat} (h : At f.buf pos (es.flatMap Entry.bytes)) (p : Parsed) :
    ∃ ns p', parseEntries f op es.length pos p = .ok p' ∧ Adds f.buf p p' ns (es.filter (·.eco = f.chipid)) := by
  induction es generalizing pos p with
  | nil => exact ⟨[], p, rfl, Adds.refl _ p⟩
  | cons e es ih =>
    rw [List.flatMap_cons] at h
    have hbytes : e.bytes.length = 8 + e.payload.length := by simp [Entry.bytes, Entry.header]; omega
    have hrest := h.right
    rw [hbytes, ← Nat.add_assoc] at hrest
    have heco : readByte f.buf pos = .ok e.eco := readByte_at h.left
    have hlen : readLe f.buf (pos + 4) 4 = .ok e.payload.length := by
      have h4 : At f.buf pos ([e.eco, e.priority, e.keyId, e.reserve] ++ (toLe 4 e.payload.length ++ e.payload)) := h.left
      exact readLe_at h4.right.left e.fits
    obtain ⟨ns, q, hq, hadd⟩ := parseEntry_at hop h.left p
    obtain ⟨ms, r, hr, hadd'⟩ := ih hrest q
    refine ⟨ns ++ ms, r, ?_, ?_⟩
    · rw [List.length_cons, parseEntries, heco, hlen]
      show ((if e.eco = f.chipid then takeEntry f op pos e.eco e.payload.length p else pure p) >>= _) = _
      rw [hq]
      exact hr
    · have := hadd.trans hadd'
      rwa [← List.filter_append] at this

theorem parsePatchSection_at {f : Image} {op : SectionOpcode} (hop : op = .patchSnippets ∨ op = .dummyHeader) {s : Section}
    {pos : Nat} (h : At f.buf pos s.body) (p : Parsed) :
    ∃ ns p', parsePatchSection f op pos p = .ok p' ∧ Adds f.buf p p' ns (s.entries.filter (·.eco = f.chipid)) := by
  have hnum : readLe f.buf pos 2 = .ok s.entries.length := readLe_at h.left.left s.fits
  obtain ⟨ns, p', hp, hadd⟩ := parseEntries_at hop h.right p
  refine ⟨ns, p', ?_, hadd⟩
  rw [parsePatchSection, hnum]
  exact hp

theorem sectionOpcode_other {n : Nat} (h1 : n ≠ 1) (h2 : n ≠ 2) :
    sectionOpcode n ≠ .patchSnippets ∧ sectionOpcode n ≠ .dummyHeader := by
  unfold sectionOpcode
  rw [if_neg h1, if_neg h2]
  constructor <;> (repeat' split) <;> decide

theorem firstPass_other {f : Image} (hkey : f.patchKeyId = 0) {op : SectionOpcode} (h1 : op ≠ .patchSnippets)
    (h2 : op ≠ .dummyHeader) (pos : Nat) (p : Parsed) : firstPass f op pos p = .ok p := by
  cases op with
  | patchSnippets => exact absurd rfl h1
  | dummyHeader => exact absurd rfl h2
  | securityHeader => rw [firstPass, if_pos hkey]; rfl
  | otaFlag => rfl
  | controllerRsvd => rfl
  | unknown => rfl

/-- What one section adds when there is no key. -/
theorem firstPass_at {f : Image} (hkey : f.patchKeyId = 0) {s : Section} {pos : Nat} (h : s.parsed → At f.buf pos s.body)
    (p : Parsed) : ∃ ns p', firstPass f (sectionOpcode s.opcode.toNat) pos p = .ok p' ∧
      Adds f.buf p p' ns (if s.parsed then s.entries.filter (·.eco = f.chipid) else []) := by
  by_cases hs : s.parsed
  · rw [if_pos hs]
    rcases hs with hop | hop
    · rw [hop]
      exact parsePatchSection_at (.inl rfl) (h (.inl hop)) p
    · have hfirst : firstPass f (sectionOpcode (2 : UInt32).toNat) pos p = parsePatchSection f .dummyHeader pos p := by
        show (if f.patchKeyId ≠ 0 then _ else _) = _
        rw [if_neg (by rw [hkey]; decide)]
      rw [hop, hfirst]
      exact parsePatchSection_at (.inr rfl) (h (.inr hop)) p
  · rw [if_neg hs]
    have h1 : s.opcode.toNat ≠ 1 := fun h1 => hs (.inl (UInt32.toNat_inj.mp h1))
    have h2 : s.opcode.toNat ≠ 2 := fun h2 => hs (.inr (UInt32.toNat_inj.mp h2))
    obtain ⟨hn1, hn2⟩ := sectionOpcode_other h1 h2
    exact ⟨[], p, firstPass_other hkey hn1 hn2 pos p, Adds.refl _ p⟩

theorem parseSections_at {f : Image} (hkey : f.patchKeyId = 0) {secs : List Section} {pos : Nat}
    (h : SectionsAt f.buf pos secs) (p : Parsed) :
    ∃ ns p', parseSections f (firstPass f) secs.length pos p = .ok p' ∧ Adds f.buf p p' ns (selected f.chipid secs) := by
  induction h generalizing p with
  | nil => exact ⟨[], p, rfl, Adds.refl _ p⟩
  | @cons pos s rest header body tail ih =>
    have hop : readLe f.buf pos 4 = .ok s.opcode.toNat := readLe_at header.left s.opcode.toNat_lt
    have hlen : readLe f.buf (pos + 4) 4 = .ok s.length.toNat := readLe_at header.right s.length.toNat_lt
    obtain ⟨ns, q, hq, hadd⟩ := firstPass_at hkey body p
    obtain ⟨ms, r, hr, hadd'⟩ := ih q
    refine ⟨ns ++ ms, r, ?_, hadd.trans hadd'⟩
    rw [List.length_cons, parseSections, hop, hlen]
    show (firstPass f (sectionOpcode s.opcode.toNat) (pos + 8) p >>= _) = _
    rw [hq]
    exact hr

theorem payloads_length (chipid : UInt8) (secs : List Section) :
    (payloads chipid secs).length = ((selected chipid secs).flatMap (·.payload)).length := by
  have h : (ordered chipid secs).Perm (selected chipid secs) := Queue.byKey_perm fun e _ => e.priority.toNat_lt
  exact (h.flatMap_right _).length_eq

/-- Parsing a well-formed file: the queue stands for the chip's entries in their order. -/
theorem parsePatch_file (w : PatchFile) (chipid : UInt8) :
    ∃ p, parsePatch ⟨w.fw, chipid, 0⟩ 16 [] = .ok p ∧ List.Forall₂ (Stands w.fw) p.queue (ordered chipid w.sections) ∧
      p.fwLen = UInt32.ofNat (payloads chipid w.sections).length := by
  let f : Image := ⟨w.fw, chipid, 0⟩
  obtain ⟨ns, p, hp, hadd⟩ := parseSections_at (f := f) rfl w.layout ⟨[], 0, false⟩
  have hnum : readLe f.buf 16 4 = .ok w.sections.length := readLe_at w.count w.fits
  have hparse : parsePatch f 16 [] = .ok p := by
    rw [parsePatch, hnum]
    show (if w.sections.length = 0 then _ else _) = _
    by_cases h0 : w.sections.length = 0
    · rw [h0] at hp
      rw [if_pos h0]
      exact hp
    · rw [if_neg h0]
      show (parseSections f (firstPass f) w.sections.length 20 ⟨[], 0, false⟩ >>= _) = _
      have hkey : ¬ (f.patchKeyId ≠ 0 ∧ p.foundSecurityHeader = false) := fun h => h.1 rfl
      have hsecond : (if f.patchKeyId ≠ 0 ∧ p.foundSecurityHeader = false then
          parseSections f (secondPass f) w.sections.length 20 p else pure p) = .ok p := if_neg hkey
      rw [hp]
      exact hsecond
  refine ⟨p, hparse, ?_, ?_⟩
  · have hq : p.queue = Queue.byKey (·.priority.toNat) 256 ns := by
      rw [hadd.queue]
      exact Queue.foldl_insert fun n _ => n.priority.toNat_lt
    rw [hq]
    exact Queue.byKey_rel (fun h => by rw [h.priority]) hadd.stands
  · rw [hadd.fwLen, payloads_length]
    exact UInt32.zero_add _

/-! ## Copying the queue -/

/-- The queue when `sent` bytes of it have been copied. -/
def advance : Nat → List PatchNode → List PatchNode
  | _, [] => []
  | sent, n :: rest =>
    { n with sentPayloadLen := UInt32.ofNat (min n.payloadLen.toNat sent) } :: advance (sent - n.payloadLen.toNat) rest

theorem advance_zero {fw : List UInt8} {ns : List PatchNode} {es : List Entry} (h : List.Forall₂ (Stands fw) ns es) :
    advance 0 ns = ns := by
  induction h with
  | nil => rfl
  | @cons n e ns es hn _ ih =>
    have hsent : UInt32.ofNat (min n.payloadLen.toNat 0) = n.sentPayloadLen := by rw [hn.unsent, Nat.min_zero]; rfl
    rw [advance, Nat.zero_sub, ih, hsent]

theorem Stands.payloadLen_toNat {fw : List UInt8} {n : PatchNode} {e : Entry} (h : Stands fw n e) :
    n.payloadLen.toNat = e.payload.length := by
  rw [h.payloadLen, UInt32.toNat_ofNat_of_lt' e.fits]

/-- A copy into the data part of the command. -/
theorem copyTo_data (src : List UInt8) {buf : List UInt8} {d r : Nat} (hbuf : buf.length = 257) (hd : d ≤ 252) (hr : r ≤ d)
    (hsrc : src.length ≤ r) :
    copyTo buf (dataAt (UInt8.ofNat d) (UInt8.ofNat r)) src = .ok (overlay buf (5 + d - r) src) := by
  have hd' : (UInt8.ofNat d).toNat = d := size8_toNat (by omega)
  have hr' : (UInt8.ofNat r).toNat = r := size8_toNat (by omega)
  exact copyTo_inside (by rw [dataAt, hd', hr']; omega) (by omega)

section Step

variable {fw : List UInt8} {n : PatchNode} {e : Entry} (hn : Stands fw n e) (rest : List PatchNode) {t s d r : Nat}
  {buf : List UInt8} (hbuf : buf.length = 257) (hd : d ≤ 252) (hr : r ≤ d) (hfit : t + e.payload.length + 252 < 2 ^ 32)

include hn hbuf hd hr hfit

/-- The command is full before the node ends. -/
theorem copyNodes_within (hs : s + r < e.payload.length) :
    copyNodes fw (UInt8.ofNat d) ({ n with sentPayloadLen := UInt32.ofNat s } :: rest) (UInt32.ofNat t)
        (UInt32.ofNat (t + s)) (UInt8.ofNat r) buf =
      .ok ⟨{ n with sentPayloadLen := UInt32.ofNat (s + r) } :: rest, UInt32.ofNat (t + s + r), 0,
        overlay buf (5 + d - r) ((e.payload.drop s).take r)⟩ := by
  have hsize : UInt32.size = 2 ^ 32 := rfl
  have htotal : UInt32.ofNat t + n.payloadLen = UInt32.ofNat (t + e.payload.length) := by
    rw [hn.payloadLen, UInt32.ofNat_add]
  have hr32 : (UInt8.ofNat r).toUInt32 = UInt32.ofNat r := size8_toUInt32 (by omega)
  have hr8 : (UInt8.ofNat r).toNat = r := size8_toNat (by omega)
  have hsNat : (UInt32.ofNat s).toNat = s := UInt32.toNat_ofNat_of_lt' (by omega)
  have hbytes : slice fw (n.payload + s) r = .ok ((e.payload.drop s).take r) := slice_at hn.payload (by omega)
  have hput := copyTo_data ((e.payload.drop s).take r) hbuf hd hr (by rw [List.length_take]; omega)
  simp only [copyNodes, htotal, hr32, hr8, hsNat, ← UInt32.ofNat_add]
  rw [if_pos ((UInt32.ofNat_lt_iff_lt (by omega) (by omega)).mpr (by omega)),
    if_pos ((UInt32.ofNat_lt_iff_lt (by omega) (by omega)).mpr (by omega)), hbytes, build_bind, hput]
  rfl

/-- The node ends in this command; the rest of the queue follows with what is left of it. -/
theorem copyNodes_through (hs : s < e.payload.length) (hend : e.payload.length ≤ s + r) :
    copyNodes fw (UInt8.ofNat d) ({ n with sentPayloadLen := UInt32.ofNat s } :: rest) (UInt32.ofNat t)
        (UInt32.ofNat (t + s)) (UInt8.ofNat r) buf =
      (copyNodes fw (UInt8.ofNat d) rest (UInt32.ofNat (t + e.payload.length)) (UInt32.ofNat (t + e.payload.length))
        (UInt8.ofNat (r - (e.payload.length - s))) (overlay buf (5 + d - r) (e.payload.drop s)) >>= fun c =>
          pure { c with nodes := { n with sentPayloadLen := UInt32.ofNat e.payload.length } :: c.nodes }) := by
  have hsize : UInt32.size = 2 ^ 32 := rfl
  obtain ⟨x, hx⟩ : ∃ x, x = e.payload.length - s := ⟨_, rfl⟩
  have htotal : UInt32.ofNat t + n.payloadLen = UInt32.ofNat (t + e.payload.length) := by
    rw [hn.payloadLen, UInt32.ofNat_add]
  have hr32 : (UInt8.ofNat r).toUInt32 = UInt32.ofNat r := size8_toUInt32 (by omega)
  have hsNat : (UInt32.ofNat s).toNat = s := UInt32.toNat_ofNat_of_lt' (by omega)
  have hx8 : (n.payloadLen - UInt32.ofNat s).toUInt8 = UInt8.ofNat x := by
    rw [hn.payloadLen, ← UInt32.ofNat_sub (by omega), UInt32.toUInt8_ofNat', hx]
  have hx32 : (UInt8.ofNat x).toUInt32 = UInt32.ofNat x := size8_toUInt32 (by omega)
  have hxNat : (UInt8.ofNat x).toNat = x := size8_toNat (by omega)
  have hbytes : slice fw (n.payload + s) x = .ok (e.payload.drop s) := by
    rw [slice_at hn.payload (by omega), List.take_of_length_le (by rw [List.length_drop]; omega)]
  have hput := copyTo_data (e.payload.drop s) hbuf hd hr (by rw [List.length_drop]; omega)
  have hcomplete : UInt32.ofNat (s + x) = n.payloadLen := by
    rw [hn.payloadLen, show s + x = e.payload.length by omega]
  simp only [copyNodes, htotal, hr32, hsNat, hx8, hx32, hxNat, ← UInt32.ofNat_add]
  rw [if_pos ((UInt32.ofNat_lt_iff_lt (by omega) (by omega)).mpr (by omega)),
    if_neg (by rw [UInt32.ofNat_lt_iff_lt (by omega) (by omega)]; omega), hbytes, build_bind, hput, build_bind, hcomplete,
    if_neg (fun h => h rfl), ← UInt8.ofNat_sub (by omega), show t + s + x = t + e.payload.length by omega, hx,
    hn.payloadLen]

end Step

/-- A node that has been sent completely is passed over. -/
theorem copyNodes_past {fw : List UInt8} {n : PatchNode} {L t m : Nat} (hn : n.payloadLen = UInt32.ofNat L) (hm : t + L ≤ m)
    (hfit : m < 2 ^ 32) (rest : List PatchNode) (dataLen remainLen : UInt8) (buf : List UInt8) :
    copyNodes fw dataLen (n :: rest) (UInt32.ofNat t) (UInt32.ofNat m) remainLen buf =
      (copyNodes fw dataLen rest (UInt32.ofNat (t + L)) (UInt32.ofNat m) remainLen buf >>= fun c =>
        pure { c with nodes := n :: c.nodes }) := by
  have hsize : UInt32.size = 2 ^ 32 := rfl
  have hle : ¬ UInt32.ofNat m < UInt32.ofNat t + n.payloadLen := by
    rw [hn, ← UInt32.ofNat_add, UInt32.ofNat_lt_iff_lt (by omega) (by omega)]
    omega
  rw [copyNodes]
  dsimp only
  rw [if_neg hle, hn, ← UInt32.ofNat_add]

/-- One pass over the queue, `m` bytes of the payloads sent and `r` bytes of the command
    free: the next `r` bytes are copied, or as many as there are. -/
theorem copyNodes_spec {fw : List UInt8} {ns : List PatchNode} {es : List Entry} (h : List.Forall₂ (Stands fw) ns es)
    {t m d r : Nat} {buf : List UInt8} (hm : t ≤ m) (hbuf : buf.length = 257) (hd : d ≤ 252) (hr : r ≤ d)
    (hfit : t + (es.flatMap (·.payload)).length + 252 < 2 ^ 32) :
    copyNodes fw (UInt8.ofNat d) (advance (m - t) ns) (UInt32.ofNat t)
        (UInt32.ofNat (min m (t + (es.flatMap (·.payload)).length))) (UInt8.ofNat r) buf =
      .ok ⟨advance (m - t + r) ns, UInt32.ofNat (min (m + r) (t + (es.flatMap (·.payload)).length)),
        UInt8.ofNat (r - (t + (es.flatMap (·.payload)).length - m)),
        overlay buf (5 + d - r) (((es.flatMap (·.payload)).drop (m - t)).take r)⟩ := by
  induction h generalizing t m r buf with
  | nil =>
    have h1 : min m t = min (m + r) t := by omega
    have h2 : r - (t - m) = r := by omega
    simp [advance, copyNodes, h1, h2]
    rfl
  | @cons n e ns es hn hns ih =>
    have hL := hn.payloadLen_toNat
    set L := e.payload.length with hLdef
    set B := es.flatMap (·.payload) with hB
    have hflat : (e :: es).flatMap (·.payload) = e.payload ++ B := List.flatMap_cons
    have hlen : ((e :: es).flatMap (·.payload)).length = L + B.length := by rw [hflat, List.length_append]
    rw [hlen] at hfit ⊢
    have hfitNode : t + e.payload.length + 252 < 2 ^ 32 := by omega
    simp only [advance, hL, hflat]
    rcases Nat.lt_or_ge m (t + L) with hs | hs
    · -- The first node that is not sent completely.
      have hsent : min m (t + (L + B.length)) = t + (m - t) := by omega
      rw [show min L (m - t) = m - t by omega, show m - t - L = 0 by omega, hsent]
      rcases Nat.lt_or_ge (m - t + r) L with hin | hin
      · have hcopy : ((e.payload ++ B).drop (m - t)).take r = (e.payload.drop (m - t)).take r := by
          rw [List.drop_append_of_le_length (by omega), List.take_append_of_le_length (by rw [List.length_drop]; omega)]
        rw [copyNodes_within hn _ hbuf hd hr hfitNode hin, hcopy, show min L (m - t + r) = m - t + r by omega,
          show m - t + r - L = 0 by omega, show min (m + r) (t + (L + B.length)) = t + (m - t) + r by omega,
          show r - (t + (L + B.length) - m) = 0 by omega]
        rfl
      · obtain ⟨x, hx⟩ : ∃ x, x = L - (m - t) := ⟨_, rfl⟩
        have hdrop : (e.payload.drop (m - t)).length = x := by rw [List.length_drop]; omega
        have hbuf' : (overlay buf (5 + d - r) (e.payload.drop (m - t))).length = 257 := by
          rw [overlay_length (by omega), hbuf]
        have hnext := ih (t := t + L) (m := t + L) (r := r - x) (le_refl _) hbuf' (by omega) (by omega)
        rw [Nat.sub_self, show min (t + L) (t + L + B.length) = t + L by omega] at hnext
        have hcopy : ((e.payload ++ B).drop (m - t)).take r = e.payload.drop (m - t) ++ B.take (r - x) := by
          rw [List.drop_append_of_le_length (by omega), List.take_append, hdrop, List.take_of_length_le (by omega)]
        have hover : overlay (overlay buf (5 + d - r) (e.payload.drop (m - t))) (5 + d - (r - x)) (B.take (r - x)) =
            overlay buf (5 + d - r) (e.payload.drop (m - t) ++ B.take (r - x)) := by
          rw [← overlay_append (by omega), hdrop, show 5 + d - r + x = 5 + d - (r - x) by omega]
        rw [copyNodes_through hn _ hbuf hd hr hfitNode (by omega) hin, ← hx, hnext, hcopy, List.drop_zero, hover,
          show min L (m - t + r) = L by omega, show m - t + r - L = 0 + (r - x) by omega,
          show t + L + (r - x) = m + r by omega, Nat.add_assoc t L,
          show r - x - (t + (L + B.length) - (t + L)) = r - (t + (L + B.length) - m) by omega]
        rfl
    · have hnext := ih (t := t + L) (m := m) (r := r) (by omega) hbuf hr (by omega)
      have hcopy : ((e.payload ++ B).drop (m - t)).take r = (B.drop (m - (t + L))).take r := by
        rw [List.drop_append, List.drop_of_length_le (by omega), List.nil_append, Nat.sub_sub]
      rw [show min L (m - t) = min L (m - t + r) by omega, Nat.sub_sub,
        copyNodes_past (n := { n with sentPayloadLen := UInt32.ofNat (min L (m - t + r)) }) hn.payloadLen (by omega) (by omega),
        ← Nat.add_assoc t L, hnext, hcopy, show m - (t + L) + r = m - t + r - L by omega]
      rfl

/-! ## Index bytes -/

theorem or_bit7 : ∀ i < 128, UInt8.ofNat i ||| 0x80 = UInt8.ofNat (i + 128) := by decide

theorem bit7_clear : ∀ i < 128, lastFragment (UInt8.ofNat i) = false := by decide

theorem bit7_set : ∀ i < 128, lastFragment (UInt8.ofNat (i + 128)) = true := by decide

theorem indexByte_eq {k last : Nat} (hk : k < 65536) (hl : last < 65536) :
    indexByte (UInt16.ofNat k) (UInt16.ofNat last) = UInt8.ofNat (indexSeq k + if k = last then 128 else 0) := by
  have heq : UInt16.ofNat k = UInt16.ofNat last ↔ k = last := ofNat16_inj hk hl
  rw [indexByte, trimIndex_eq hk]
  by_cases h : k = last
  · rw [if_pos (heq.mpr h), if_pos h, or_bit7 _ (indexSeq_lt k)]
  · rw [if_neg (fun hc => h (heq.mp hc)), if_neg h, Nat.add_zero]

/-! ## One command -/

/-- `patch_info` before command `k`, for a patch of `p` bytes and a config of `c`. -/
def infoAt (queue : List PatchNode) (p c k : Nat) : PatchInfo where
  fwLen := UInt32.ofNat p
  sentFwLen := UInt32.ofNat (min (252 * k) p)
  configLen := UInt16.ofNat c
  sentConfigLen := UInt16.ofNat (252 * k - p)
  curIndex := UInt16.ofNat k
  endIndex := UInt16.ofNat ((p + c - 1) / 252)
  lastPkt := UInt8.ofNat (p + c - 252 * ((p + c - 1) / 252))
  nodes := advance (252 * k) queue

/-- `patch_info` after the last command. -/
def infoDone (queue : List PatchNode) (p c : Nat) : PatchInfo :=
  { infoAt queue p c ((p + c - 1) / 252) with
    sentFwLen := UInt32.ofNat p
    sentConfigLen := UInt16.ofNat c
    nodes := advance (p + c) queue }

/-- How many data bytes command `k` carries. -/
def dataSize (p c k : Nat) : Nat := min 252 (p + c - 252 * k)

theorem dataSize_last {p c : Nat} (hp : 1 ≤ p) : dataSize p c ((p + c - 1) / 252) = p + c - 252 * ((p + c - 1) / 252) := by
  unfold dataSize
  omega

theorem dataSize_full {p c k : Nat} (hk : k < (p + c - 1) / 252) : dataSize p c k = 252 := by
  unfold dataSize
  omega

/-- What parsing a patch of `p` bytes sets, whatever was sent and queued before. -/
theorem getPatchInfo_parsed {f : Image} {config : ConfigBuf} {info : PatchInfo} {q : List PatchNode} {found : Bool} {p : Nat}
    (hp : 1 ≤ p) (hfit : p + config.bytes.length ≤ 65536 * 252) (hfw : 16 ≤ f.buf.length)
    (hparse : parsePatch f 16 info.nodes = .ok ⟨q, UInt32.ofNat p, found⟩) :
    getPatchInfo f config info = .ok { info with
      nodes := q
      fwLen := UInt32.ofNat p
      configLen := UInt16.ofNat config.bytes.length
      endIndex := UInt16.ofNat ((p + config.bytes.length - 1) / 252)
      lastPkt := UInt8.ofNat (p + config.bytes.length - 252 * ((p + config.bytes.length - 1) / 252)) } := by
  obtain ⟨c, hc⟩ : ∃ c, c = config.bytes.length := ⟨_, rfl⟩
  have hcfit := config.fits
  rw [← hc] at hfit hcfit ⊢
  have hdate : readLe f.buf 8 4 = .ok (leNat ((f.buf.drop 8).take 4)) := if_pos (by omega)
  have htime : readLe f.buf 12 4 = .ok (leNat ((f.buf.drop 12).take 4)) := if_pos (by omega)
  have hne : UInt32.ofNat p ≠ 0 := by
    intro h
    have h0 := congrArg UInt32.toNat h
    rw [UInt32.toNat_ofNat_of_lt' (by simp [UInt32.size]; omega)] at h0
    simp at h0
    omega
  have htotal : UInt32.ofNat p + (UInt16.ofNat c).toUInt32 = UInt32.ofNat (p + c) := by
    rw [UInt16.toUInt32_ofNat' (by simp [UInt16.size]; omega), UInt32.ofNat_add]
  have hpred := ofNat32_pred (n := p + c) (by omega) (by omega)
  have hlast := lastPkt_eq (n := p + c) (by omega) (by omega)
  rw [getPatchInfo, hdate, htime]
  show (parsePatch f 16 info.nodes >>= _) = _
  rw [hparse]
  show (if UInt32.ofNat p = 0 then _ else _) = _
  rw [if_neg hne, ← hc]
  simp only [htotal, hpred, hlast]
  rfl

theorem getPatchInfo_eq {f : Image} {config : ConfigBuf} {q : List PatchNode} {found : Bool} {p : Nat} (hp : 1 ≤ p)
    (hfit : p + config.bytes.length ≤ 65536 * 252) (hfw : 16 ≤ f.buf.length)
    (hparse : parsePatch f 16 [] = .ok ⟨q, UInt32.ofNat p, found⟩) (hzero : advance 0 q = q) :
    getPatchInfo f config PatchInfo.zero = .ok (infoAt q p config.bytes.length 0) := by
  rw [getPatchInfo_parsed hp hfit hfw hparse, infoAt, Nat.mul_zero, Nat.zero_min, Nat.zero_sub, hzero]
  rfl

/-- The length byte of command `k`. -/
theorem cmdLen_infoAt {q : List PatchNode} {p c k : Nat} (hp : 1 ≤ p) (hfit : p + c ≤ 65536 * 252)
    (hk : k ≤ (p + c - 1) / 252) :
    (if (infoAt q p c k).curIndex = (infoAt q p c k).endIndex then pure ((infoAt q p c k).lastPkt + 1, infoAt q p c k)
      else pure (UInt8.ofNat hciPatchFragSize + 1, infoAt q p c k) : Build (UInt8 × PatchInfo)) =
      .ok (UInt8.ofNat (dataSize p c k + 1), infoAt q p c k) := by
  have hcur : (infoAt q p c k).curIndex = (infoAt q p c k).endIndex ↔ k = (p + c - 1) / 252 :=
    ofNat16_inj (by omega) (by omega)
  rcases Nat.lt_or_eq_of_le hk with h | h
  · rw [if_neg (fun hc => absurd (hcur.mp hc) (by omega)), dataSize_full h]
    rfl
  · rw [if_pos (hcur.mpr h), h, dataSize_last hp, UInt8.ofNat_add]
    rfl

/-- What is left after the patch is filled with the config: with `m` bytes of both sent
    and `d` bytes of data, of which `r` are left. -/
theorem copyConfig_eq (config : ConfigBuf) (info : PatchInfo) {buf : List UInt8} {m d p : Nat} (hbuf : buf.length = 257)
    (hd : d ≤ 252) (hm : m + d ≤ p + config.bytes.length) (hfw : info.fwLen = UInt32.ofNat p)
    (hsent : info.sentFwLen = UInt32.ofNat (min (m + d) p)) (hcfg : info.sentConfigLen = UInt16.ofNat (m - p)) :
    copyConfig config (UInt8.ofNat d) (UInt8.ofNat (d - (p - m))) buf info =
      .ok (overlay buf (5 + d - (d - (p - m))) ((config.bytes.drop (m - p)).take (d - (p - m))),
        { info with sentConfigLen := UInt16.ofNat (m + d - p) }) := by
  obtain ⟨r, hr⟩ : ∃ r, r = d - (p - m) := ⟨_, rfl⟩
  have hcfit := config.fits
  have hr8 : (UInt8.ofNat r).toNat = r := size8_toNat (by omega)
  have hpos : 0 < UInt8.ofNat r ↔ 0 < r := by rw [UInt8.lt_iff_toNat_lt, hr8]; rfl
  rw [← hr, copyConfig]
  by_cases h : 0 < r
  · have hall : ¬ info.fwLen ≠ info.sentFwLen := by
      rw [hfw, hsent, show min (m + d) p = p by omega]
      exact fun h => h rfl
    have hoff : info.sentConfigLen.toNat = 0 + (m - p) := by
      rw [hcfg, UInt16.toNat_ofNat_of_lt' (by simp [UInt16.size]; omega), Nat.zero_add]
    have hat : At config.bytes 0 config.bytes := ⟨[], [], by simp, rfl⟩
    have hput := copyTo_data ((config.bytes.drop (m - p)).take r) hbuf hd (by omega : r ≤ d)
      (by rw [List.length_take]; omega)
    have hnew : info.sentConfigLen + (UInt8.ofNat r).toUInt16 = UInt16.ofNat (m + d - p) := by
      rw [hcfg, size8_toUInt16 (by omega), ← UInt16.ofNat_add]
      congr 1
      omega
    rw [if_pos (hpos.mpr h), if_neg hall, hoff, hr8, slice_at hat (by omega)]
    show (copyTo buf _ _ >>= _) = _
    rw [hput, ← hnew]
    rfl
  · have h0 : r = 0 := by omega
    have hnew : info.sentConfigLen = UInt16.ofNat (m + d - p) := by
      rw [hcfg]
      congr 1
      omega
    rw [if_neg (fun hc => h (hpos.mp hc)), h0, List.take_zero, overlay_nil, ← hnew]
    rfl

theorem overlay_command {buf a b : List UInt8} {i : UInt8} (h : 5 + a.length ≤ buf.length) :
    overlay (overlay (overlay buf 4 [i]) 5 a) (5 + a.length) b = overlay buf 4 (i :: (a ++ b)) := by
  have hi : (overlay buf 4 [i]).length = buf.length := overlay_length (by simp; omega)
  rw [overlay_append (by omega)]
  exact overlay_append (by omega)

/-- The end of building command `k`: the last one has sent all of the config. -/
theorem finish_infoAt {q : List PatchNode} {p c k : Nat} (buf : List UInt8) (hp : 1 ≤ p) (hfit : p + c ≤ 65536 * 252)
    (hk : k ≤ (p + c - 1) / 252) :
    let info : PatchInfo := { infoAt q p c k with
      nodes := advance (252 * k + dataSize p c k) q
      sentFwLen := UInt32.ofNat (min (252 * k + dataSize p c k) p)
      sentConfigLen := UInt16.ofNat (252 * k + dataSize p c k - p) }
    ∃ info', (if info.curIndex = info.endIndex then
        if info.configLen ≠ info.sentConfigLen then throw (.ret hciFail) else pure (buf, info)
      else pure (buf, { info with curIndex := info.curIndex + 1 }) : Build (List UInt8 × PatchInfo)) = .ok (buf, info') ∧
      (k < (p + c - 1) / 252 → info' = infoAt q p c (k + 1)) ∧ (k = (p + c - 1) / 252 → info' = infoDone q p c) := by
  intro info
  have hcur : info.curIndex = info.endIndex ↔ k = (p + c - 1) / 252 := ofNat16_inj (by omega) (by omega)
  rcases Nat.lt_or_eq_of_le hk with h | h
  · refine ⟨infoAt q p c (k + 1), ?_, fun _ => rfl, fun heq => absurd heq (by omega)⟩
    have hnext : { info with curIndex := info.curIndex + 1 } = infoAt q p c (k + 1) := by
      simp only [info, infoAt, dataSize_full h, Nat.mul_succ, UInt16.ofNat_add]
      rfl
    rw [if_neg (fun hc => absurd (hcur.mp hc) (by omega)), hnext]
    rfl
  · have hsum : 252 * k + dataSize p c k = p + c := by rw [h, dataSize_last hp]; omega
    have hall : ¬ info.configLen ≠ info.sentConfigLen := by
      simp only [info, infoAt, hsum, Nat.add_sub_cancel_left]
      exact fun h => h rfl
    have hdone : info = infoDone q p c := by
      simp only [info, infoDone, hsum, Nat.min_eq_right (Nat.le_add_right p c), Nat.add_sub_cancel_left]
      rw [h]
    refine ⟨info, ?_, fun hlt => absurd hlt (by omega), fun _ => hdone⟩
    rw [if_pos (hcur.mpr h), if_neg hall]
    rfl

section Commands

variable {f : Image} {config : ConfigBuf} {q : List PatchNode} {es : List Entry} {patch : List UInt8} {k : Nat}
  (hq : List.Forall₂ (Stands f.buf) q es) (hpatch : patch = es.flatMap (·.payload)) (hp : 1 ≤ patch.length)
  (hfit : patch.length + config.bytes.length ≤ 65536 * 252)
  (hk : k ≤ (patch.length + config.bytes.length - 1) / 252)

/-- The index byte of command `k` of those up to `last`. -/
def indexAt (last k : Nat) : UInt8 := UInt8.ofNat (indexSeq k + if k = last then 128 else 0)

include hq hpatch hp hfit hk

theorem cmdBuf_infoAt {buf : List UInt8} (hbuf : buf.length = 257) :
    ∃ info', hciGetPatchCmdBuf f config (infoAt q patch.length config.bytes.length k) buf
        (UInt8.ofNat (dataSize patch.length config.bytes.length k + 1)) =
      .ok (overlay buf 4 (indexAt ((patch.length + config.bytes.length - 1) / 252) k ::
        Fragments.fragment 252 (patch ++ config.bytes) k), info') ∧
      (k < (patch.length + config.bytes.length - 1) / 252 →
        info' = infoAt q patch.length config.bytes.length (k + 1)) ∧
      (k = (patch.length + config.bytes.length - 1) / 252 → info' = infoDone q patch.length config.bytes.length) := by
  set p := patch.length with hpdef
  set c := config.bytes.length with hcdef
  set last := (p + c - 1) / 252 with hlast
  set d := dataSize p c k with hd
  have hdle : d ≤ 252 := Nat.min_le_left _ _
  have hdsum : 252 * k + d ≤ p + c := by simp only [hd, dataSize]; omega
  have hfrag : ((patch ++ config.bytes).drop (252 * k)).take d = Fragments.fragment 252 (patch ++ config.bytes) k :=
    Fragments.take_drop_eq_fragment (by rw [List.length_append]; rfl)
  have hindex : copyTo buf 4 [indexByte (UInt16.ofNat k) (UInt16.ofNat last)] = .ok (overlay buf 4 [indexAt last k]) := by
    rw [indexByte_eq (by omega) (by omega)]
    exact copyTo_inside rfl (by simp [hbuf])
  have hbuf' : (overlay buf 4 [indexAt last k]).length = 257 := by rw [overlay_length (by simp [hbuf]), hbuf]
  have hnodes := copyNodes_spec hq (t := 0) (m := 252 * k) (Nat.zero_le _) hbuf' hdle (le_refl d)
    (by rw [← hpatch]; omega)
  rw [← hpatch, Nat.zero_add, Nat.sub_zero, ← hpdef, Nat.add_sub_cancel] at hnodes
  have hroom : ((patch.drop (252 * k)).take d).length = d - (d - (p - 252 * k)) := by
    rw [List.length_take, List.length_drop]; omega
  have hbuf2 : (overlay (overlay buf 4 [indexAt last k]) 5 ((patch.drop (252 * k)).take d)).length = 257 := by
    rw [overlay_length (by omega), hbuf']
  have hconfig := copyConfig_eq (m := 252 * k) (p := p) config
    { infoAt q p c k with nodes := advance (252 * k + d) q, sentFwLen := UInt32.ofNat (min (252 * k + d) p) }
    hbuf2 hdle hdsum rfl rfl rfl
  rw [show 5 + d - (d - (p - 252 * k)) = 5 + ((patch.drop (252 * k)).take d).length by omega,
    overlay_command (by omega), hpdef, Fragments.take_drop_of_append, hfrag] at hconfig
  obtain ⟨info', hinfo, hnext⟩ := finish_infoAt (q := q)
    (overlay buf 4 (indexAt last k :: Fragments.fragment 252 (patch ++ config.bytes) k)) hp hfit hk
  refine ⟨info', ?_, hnext⟩
  rw [hciGetPatchCmdBuf, ofNat8_succ_pred]
  show (copyTo buf 4 [indexByte (UInt16.ofNat k) (UInt16.ofNat last)] >>= _) = _
  rw [hindex]
  show (copyNodes f.buf (UInt8.ofNat d) (advance (252 * k) q) (UInt32.ofNat 0) (UInt32.ofNat (min (252 * k) p))
    (UInt8.ofNat d) (overlay buf 4 [indexAt last k]) >>= _) = _
  rw [hnodes]
  show (copyConfig config (UInt8.ofNat d) (UInt8.ofNat (d - (p - 252 * k))) _ _ >>= _) = _
  rw [hconfig]
  exact hinfo

end Commands

/-! ## The download -/

/-- Command `k` of a download of `data`. -/
def cmdAt (data : List UInt8) (k : Nat) : List UInt8 := fragmentCmd data (indexAt ((data.length - 1) / 252) k) k

def stepAt (data : List UInt8) (k : Nat) : Step := ⟨[], cmdAt data k, decide (k = (data.length - 1) / 252)⟩

theorem lastFragment_indexAt (last k : Nat) : lastFragment (indexAt last k) = decide (k = last) := by
  unfold indexAt
  by_cases h : k = last
  · rw [if_pos h, bit7_set _ (indexSeq_lt k), decide_eq_true h]
  · rw [if_neg h, Nat.add_zero, bit7_clear _ (indexSeq_lt k), decide_eq_false h]

theorem clearBuf_take {buf : List UInt8} (h : buf.take 3 = [0x01, 0x20, 0xfc]) (n : UInt8) :
    (clearBuf buf n).take 4 = [0x01, 0x20, 0xfc, n] := by
  rw [clearBuf, h]
  rfl

theorem clearBuf_length {buf : List UInt8} (h : buf.take 3 = [0x01, 0x20, 0xfc]) (n : UInt8) :
    (clearBuf buf n).length = 257 := by
  rw [clearBuf, h]
  simp only [List.length_append, List.length_cons, List.length_nil, List.length_replicate]

/-- What holds before command `k`: nothing is parsed before the first. -/
structure Turn (q : List PatchNode) (patch : List UInt8) (config : ConfigBuf) (k : Nat) (l : Loop) : Prop where
  info : l.info = if k = 0 then PatchInfo.zero else infoAt q patch.length config.bytes.length k
  head : l.buf.take 3 = [0x01, 0x20, 0xfc]

/-- A file parsed to a queue that stands for its patch. -/
structure Ready (f : Image) (config : ConfigBuf) (q : List PatchNode) (es : List Entry) (patch : List UInt8) : Prop where
  parse : ∃ found, parsePatch f 16 [] = .ok ⟨q, UInt32.ofNat patch.length, found⟩
  stands : List.Forall₂ (Stands f.buf) q es
  payloads : patch = es.flatMap (·.payload)
  nonempty : 1 ≤ patch.length
  fits : patch.length + config.bytes.length ≤ 65536 * 252
  header : 16 ≤ f.buf.length

variable {f : Image} {config : ConfigBuf} {q : List PatchNode} {es : List Entry} {patch : List UInt8}

theorem cmdLen_turn (r : Ready f config q es patch) {k : Nat} {l : Loop} (ht : Turn q patch config k l)
    (hk : k ≤ (patch.length + config.bytes.length - 1) / 252) :
    hciGetPatchCmdLen f config l.info = .ok (UInt8.ofNat (dataSize patch.length config.bytes.length k + 1),
      infoAt q patch.length config.bytes.length k) := by
  have hfit := r.fits
  have hinfo : (if l.info.curIndex = 0 then getPatchInfo f config l.info else pure l.info) =
      .ok (infoAt q patch.length config.bytes.length k) := by
    rw [ht.info]
    by_cases h : k = 0
    · obtain ⟨found, hparse⟩ := r.parse
      rw [if_pos h, h]
      exact getPatchInfo_eq r.nonempty hfit r.header hparse (advance_zero r.stands)
    · have hne : UInt16.ofNat k ≠ 0 := fun h0 => h ((ofNat16_inj (by omega) (by decide)).mp h0)
      rw [if_neg h]
      exact if_neg hne
  rw [hciGetPatchCmdLen, hinfo]
  exact cmdLen_infoAt r.nonempty hfit hk

theorem nextCommand_turn (r : Ready f config q es patch) {k : Nat} {l : Loop} (ht : Turn q patch config k l)
    (hk : k ≤ (patch.length + config.bytes.length - 1) / 252) :
    ∃ l', nextCommand f config l = .ok (stepAt (patch ++ config.bytes) k, l') ∧
      (k < (patch.length + config.bytes.length - 1) / 252 → Turn q patch config (k + 1) l') ∧
      (k = (patch.length + config.bytes.length - 1) / 252 → l'.info = infoDone q patch.length config.bytes.length) := by
  set frag := Fragments.fragment 252 (patch ++ config.bytes) k with hfrag
  have hsize : dataSize patch.length config.bytes.length k = frag.length := by
    rw [hfrag, Fragments.fragment_length, List.length_append, dataSize]
  have hcmdLen := cmdLen_turn r ht hk
  have hfits : frag.length ≤ 252 := by rw [← hsize]; exact Nat.min_le_left _ _
  have hclear := clearBuf_length ht.head (UInt8.ofNat (frag.length + 1))
  obtain ⟨info', hbuf, hnext, hdone⟩ := cmdBuf_infoAt r.stands r.payloads r.nonempty r.fits hk hclear
  rw [hsize] at hbuf hcmdLen
  set last := (patch.length + config.bytes.length - 1) / 252 with hlast
  set out := overlay (clearBuf l.buf (UInt8.ofNat (frag.length + 1))) 4 (indexAt last k :: frag) with hout
  have hform : out = [0x01, 0x20, 0xfc, UInt8.ofNat (frag.length + 1), indexAt last k] ++ frag ++
      (clearBuf l.buf (UInt8.ofNat (frag.length + 1))).drop (4 + (indexAt last k :: frag).length) := by
    simp only [hout, overlay, clearBuf_take ht.head, List.cons_append, List.nil_append]
  have hhead : out.take 3 = [0x01, 0x20, 0xfc] := by rw [hform]; rfl
  obtain ⟨hlenByte, hidx, hcmd⟩ := command_in_buf hform (size8_toNat (by omega))
  have hstep : stepAt (patch ++ config.bytes) k =
      ⟨[], [0x01, 0x20, 0xfc, UInt8.ofNat (frag.length + 1), indexAt last k] ++ frag, out.getD 4 0 &&& 0x80 != 0⟩ := by
    have hbit : (out.getD 4 0 &&& 0x80 != 0) = decide (k = last) := by rw [hidx]; exact lastFragment_indexAt last k
    rw [hbit, stepAt, cmdAt, fragmentCmd, List.length_append, ← hlast, ← hfrag]
  refine ⟨⟨info', out⟩, ?_, fun hlt => ⟨?_, hhead⟩, hdone⟩
  · rw [nextCommand, hcmdLen]
    show (hciGetPatchCmdBuf f config _ _ _ >>= _) = _
    rw [hbuf]
    show (slice out 0 ((out.getD 3 0).toNat + 4) >>= _) = _
    rw [hlenByte, hcmd, hstep]
    rfl
  · rw [if_neg (by omega)]
    exact hnext hlt

theorem cmdAt_download (data : List UInt8) (k : Nat) : IsDownload (cmdAt data k) := ⟨rfl, rfl⟩

theorem trace_from (r : Ready f config q es patch) {n k : Nat} {l : Loop} (ht : Turn q patch config k l)
    (hn : k + n = (patch.length + config.bytes.length - 1) / 252) :
    Trace (nextCommand f config) lastFragment l ((List.range' k (n + 1)).map (stepAt (patch ++ config.bytes))) := by
  have hends : ∀ k, lastFragment (index (stepAt (patch ++ config.bytes) k).cmd) =
      decide (k = (patch.length + config.bytes.length - 1) / 252) := by
    intro k
    rw [← List.length_append]
    exact lastFragment_indexAt _ k
  -- Induction on how many commands follow this one.
  induction n generalizing k l with
  | zero =>
    obtain ⟨l', hbuilt, -⟩ := nextCommand_turn r ht (by omega)
    exact .last hbuilt (cmdAt_download _ k) (by rw [hends]; exact decide_eq_true hn)
  | succ n ih =>
    obtain ⟨l', hbuilt, hnext, -⟩ := nextCommand_turn r ht (by omega)
    have htail := ih (hnext (by omega)) (by omega)
    rw [List.range'_succ]
    exact .more hbuilt (cmdAt_download _ k) (by rw [hends]; exact decide_eq_false (by omega)) htail

theorem ready_file (w : PatchFile) (eversion : UInt8) (config : ConfigBuf)
    (hp : 1 ≤ (payloads (eversion + 1) w.sections).length)
    (hfit : (payloads (eversion + 1) w.sections).length + config.bytes.length ≤ 65536 * 252) :
    ∃ q, Ready (image w.fw eversion) config q (ordered (eversion + 1) w.sections) (payloads (eversion + 1) w.sections) := by
  obtain ⟨parsed, hparse, hstands, hlen⟩ := parsePatch_file w (eversion + 1)
  have hin := w.count.inside
  rw [toLe_length] at hin
  refine ⟨parsed.queue, ⟨parsed.foundSecurityHeader, ?_⟩, hstands, rfl, hp, hfit, ?_⟩
  · rw [← hlen]
    exact hparse
  · show 16 ≤ w.fw.length
    omega

theorem turn_start : Turn q patch config 0 Loop.start := ⟨rfl, rfl⟩

/-! ## What is delivered -/

/-- A well-formed file and a config are delivered exactly: every command that is built is
    acknowledged, the loop ends after the last one, and the data parts put together are
    the chip's payloads in order and the config. -/
theorem delivers_patch (w : PatchFile) (eversion : UInt8) (config : ConfigBuf)
    (hp : 1 ≤ (payloads (eversion + 1) w.sections).length)
    (hfit : (payloads (eversion + 1) w.sections).length + config.bytes.length ≤ 65536 * 252) :
    ∃ steps : List Step, Trace (nextCommand (image w.fw eversion) config) lastFragment Loop.start steps ∧
      (∀ e : Env, e.setattr = true →
        hciDownloadPatchV2 e w.fw eversion config ⟨(steps.map (·.cmd)).map ackEvent, []⟩ =
          (.ok 0, ⟨[], (steps.map (·.cmd)).map acknowledged⟩)) ∧
      Carries (payloads (eversion + 1) w.sections ++ config.bytes) (indexAt (steps.length - 1)) (steps.map (·.cmd)) := by
  set data := payloads (eversion + 1) w.sections ++ config.bytes with hdata
  obtain ⟨q, r⟩ := ready_file w eversion config hp hfit
  have htrace := trace_from r turn_start (Nat.zero_add _)
  rw [← List.length_append, ← hdata, ← List.range_eq_range'] at htrace
  set steps := (List.range ((data.length - 1) / 252 + 1)).map (stepAt data) with hsteps
  have hcmds : steps.flatMap Step.cmds = steps.map (·.cmd) := by
    rw [hsteps, List.flatMap_map, List.map_map, ← List.flatMap_pure_eq_map]
    rfl
  refine ⟨steps, htrace, ?_, ?_⟩
  · intro e he
    have hrun := downloadLoop_trace he htrace (steps.length + 1) (Nat.le_succ _) [] []
    rw [hcmds, List.append_nil, List.nil_append] at hrun
    rw [hciDownloadPatchV2, Prog.bind_of_ok (by rfl), List.length_map, List.length_map]
    exact hrun
  · have hlast : steps.length - 1 = (data.length - 1) / 252 := by
      rw [hsteps, List.length_map, List.length_range, Nat.add_sub_cancel]
    rw [hlast, hsteps, List.map_map]
    exact carries_fragmentCmds (by rw [hdata, List.length_append]; omega) _

/-- A file with two entries for chip 1, the second to be sent first. -/
def twoEntries : PatchFile where
  fw := List.replicate 16 0 ++ toLe 4 1 ++ (toLe 4 1 ++ toLe 4 23) ++
    (toLe 2 2 ++ toLe 2 0 ++ ([1, 2, 0, 0] ++ toLe 4 1 ++ [0xaa] ++ ([1, 1, 0, 0] ++ toLe 4 2 ++ [0xbb, 0xcc])))
  sections := [⟨1, 23, [⟨1, 2, 0, 0, [0xaa], by decide⟩, ⟨1, 1, 0, 0, [0xbb, 0xcc], by decide⟩], 0, by decide⟩]
  fits := by decide
  count := ⟨List.replicate 16 0, _, rfl, rfl⟩
  layout := .cons ⟨List.replicate 16 0 ++ toLe 4 1, _, rfl, rfl⟩
    (fun _ => ⟨List.replicate 16 0 ++ toLe 4 1 ++ (toLe 4 1 ++ toLe 4 23), [], rfl, rfl⟩) (.nil _)

theorem delivers_two_entries :
    payloads 1 twoEntries.sections = [0xbb, 0xcc, 0xaa] ∧
    ∃ steps : List Step, Trace (nextCommand (image twoEntries.fw 0) ⟨[0x55], by decide⟩) lastFragment Loop.start steps ∧
      (∀ e : Env, e.setattr = true →
        hciDownloadPatchV2 e twoEntries.fw 0 ⟨[0x55], by decide⟩ ⟨(steps.map (·.cmd)).map ackEvent, []⟩ =
          (.ok 0, ⟨[], (steps.map (·.cmd)).map acknowledged⟩)) ∧
      Carries (payloads 1 twoEntries.sections ++ [0x55]) (indexAt (steps.length - 1)) (steps.map (·.cmd)) :=
  ⟨by decide +kernel, delivers_patch twoEntries 0 ⟨[0x55], by decide⟩ (by decide +kernel) (by decide +kernel)⟩

end AmebaLinux.Hciattach.PatchV2
