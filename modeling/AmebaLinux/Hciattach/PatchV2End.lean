/-
  AmebaLinux.Hciattach.PatchV2End — a version 2 download against any controller
  (see `AmebaLinux.Hciattach.PatchV2`).

  The parser does not look whether a payload ends inside the file, so a download may run
  into the end of the file. Up to there it is the download of a file that goes on
  (`Agrees`): for such a file the queue stands for a patch and
  `AmebaLinux.Hciattach.PatchV2Proofs` says what every turn builds.

  After the last command the loop builds no other one. With a single command the patch is
  even parsed again, as `cur_index` is still 0, and every entry is queued a second time.

  Proved:
  - `nextCommand_agrees`: what is built from a file is built from any longer one.
  - `nextCommand_done`: after the last command no turn succeeds.
  - `downloadCmds_v2`: whatever the controller answers, the commands sent are a beginning
    of those of the patch and the config.
-/

import AmebaLinux.Hciattach.DownloadRun
import AmebaLinux.Hciattach.PatchV2Proofs

namespace AmebaLinux.Hciattach.Link

open AmebaLinux.Lib
open AmebaLinux.Lib.Bytes

/-! ## A longer file -/

/-- Whatever `x` returns, `y` returns. -/
def Agrees {α : Type} (x y : Build α) : Prop := ∀ a, x = .ok a → y = .ok a

section Rules

variable {α β : Type} {x y : Build α} {g g' : α → Build β} (buf pad : List UInt8) (off k : Nat)

theorem agrees_refl (x : Build α) : Agrees x x := fun _ h => h

theorem Agrees.bind (h : Agrees x y) (hg : ∀ a, Agrees (g a) (g' a)) : Agrees (x >>= g) (y >>= g') := by
  intro b hb
  obtain ⟨a, hx, hga⟩ := build_eq_ok hb
  rw [h a hx]
  exact hg a b hga

theorem Agrees.ite {c : Prop} [Decidable c] {x' y' : Build α} (h : Agrees x y) (h' : Agrees x' y') :
    Agrees (if c then x else x') (if c then y else y') := by
  split
  · exact h
  · exact h'

theorem agrees_readLe : Agrees (readLe buf off k) (readLe (buf ++ pad) off k) := by
  intro n h
  unfold readLe at h ⊢
  split at h
  case isFalse => cases h
  case isTrue hin =>
    rw [if_pos (by rw [List.length_append]; omega), take_drop_append hin]
    exact h

theorem agrees_readByte : Agrees (readByte buf off) (readByte (buf ++ pad) off) := by
  intro b h
  unfold readByte at h ⊢
  cases hget : buf[off]? with
  | none => rw [hget] at h; cases h
  | some c =>
    obtain ⟨hlt, -⟩ := List.getElem?_eq_some_iff.mp hget
    rw [List.getElem?_append_left hlt]
    exact h

theorem agrees_slice : Agrees (slice buf off k) (slice (buf ++ pad) off k) := by
  intro bytes h
  unfold slice at h ⊢
  split at h
  case isFalse => cases h
  case isTrue hin =>
    rw [if_pos (by rw [List.length_append]; omega), take_drop_append hin]
    exact h

end Rules

end AmebaLinux.Hciattach.Link

namespace AmebaLinux.Hciattach.PatchV2

open AmebaLinux.Lib
open AmebaLinux.Lib.Bytes
open AmebaLinux.Hciattach.Link
open AmebaLinux.Hciattach.Attach

/-- The file with more bytes at its end. -/
def Image.extend (f : Image) (pad : List UInt8) : Image := { f with buf := f.buf ++ pad }

section Extend

variable (f : Image) (pad : List UInt8)

theorem takeEntry_agrees (opcode : SectionOpcode) (position : Nat) (eco : UInt8) (len : Nat) (p : Parsed) :
    Agrees (takeEntry f opcode position eco len p) (takeEntry (f.extend pad) opcode position eco len p) := by
  refine (agrees_readByte _ _ _).bind fun priority => ?_
  refine ((agrees_readByte _ _ _).ite (agrees_refl _)).bind fun keyId => ?_
  exact agrees_refl _

theorem parseEntries_agrees (opcode : SectionOpcode) (number position : Nat) (p : Parsed) :
    Agrees (parseEntries f opcode number position p) (parseEntries (f.extend pad) opcode number position p) := by
  induction number generalizing position p with
  | zero => exact agrees_refl _
  | succ number ih =>
    refine (agrees_readByte _ _ _).bind fun eco => ?_
    refine (agrees_readLe _ _ _ _).bind fun len => ?_
    exact ((takeEntry_agrees f pad _ _ _ _ _).ite (agrees_refl _)).bind fun p => ih _ p

theorem parsePatchSection_agrees (opcode : SectionOpcode) (body : Nat) (p : Parsed) :
    Agrees (parsePatchSection f opcode body p) (parsePatchSection (f.extend pad) opcode body p) :=
  (agrees_readLe _ _ _ _).bind fun number => parseEntries_agrees f pad opcode number _ p

theorem firstPass_agrees (opcode : SectionOpcode) (body : Nat) (p : Parsed) :
    Agrees (firstPass f opcode body p) (firstPass (f.extend pad) opcode body p) := by
  cases opcode with
  | patchSnippets => exact parsePatchSection_agrees f pad _ _ _
  | dummyHeader => exact (agrees_refl _).ite (parsePatchSection_agrees f pad _ _ _)
  | securityHeader => exact (agrees_refl _).ite (parsePatchSection_agrees f pad _ _ _)
  | otaFlag => exact agrees_refl _
  | controllerRsvd => exact agrees_refl _
  | unknown => exact agrees_refl _

theorem parseSections_agrees {pass pass' : SectionOpcode → Nat → Parsed → Build Parsed}
    (h : ∀ opcode body p, Agrees (pass opcode body p) (pass' opcode body p)) (n pSection : Nat) (p : Parsed) :
    Agrees (parseSections f pass n pSection p) (parseSections (f.extend pad) pass' n pSection p) := by
  induction n generalizing pSection p with
  | zero => exact agrees_refl _
  | succ n ih =>
    refine (agrees_readLe _ _ _ _).bind fun opcode => ?_
    refine (agrees_readLe _ _ _ _).bind fun length => ?_
    exact (h _ _ _).bind fun p => ih _ p

theorem parsePatch_agrees (pBuf : Nat) (queue : List PatchNode) :
    Agrees (parsePatch f pBuf queue) (parsePatch (f.extend pad) pBuf queue) := by
  have second (opcode : SectionOpcode) (body : Nat) (p : Parsed) :
      Agrees (secondPass f opcode body p) (secondPass (f.extend pad) opcode body p) :=
    (parsePatchSection_agrees f pad _ _ _).ite (agrees_refl _)
  refine (agrees_readLe _ _ _ _).bind fun sectionNum => (agrees_refl _).ite ?_
  refine (parseSections_agrees f pad (firstPass_agrees f pad) _ _ _).bind fun p => ?_
  exact (parseSections_agrees f pad second _ _ _).ite (agrees_refl _)

theorem getPatchInfo_agrees (config : ConfigBuf) (info : PatchInfo) :
    Agrees (getPatchInfo f config info) (getPatchInfo (f.extend pad) config info) := by
  refine (agrees_readLe _ _ _ _).bind fun _ => (agrees_readLe _ _ _ _).bind fun _ => ?_
  exact (parsePatch_agrees f pad _ _).bind fun p => agrees_refl _

theorem copyNodes_agrees (dataLen : UInt8) (nodes : List PatchNode) (total sent : UInt32) (remain : UInt8) (buf : List UInt8) :
    Agrees (copyNodes f.buf dataLen nodes total sent remain buf)
      (copyNodes (f.buf ++ pad) dataLen nodes total sent remain buf) := by
  induction nodes generalizing total sent remain buf with
  | nil => exact agrees_refl _
  | cons node rest ih =>
    unfold copyNodes
    refine Agrees.ite (Agrees.ite ?_ ?_) ?_
    · exact (agrees_slice _ _ _ _).bind fun bytes => agrees_refl _
    · refine (agrees_slice _ _ _ _).bind fun bytes => (agrees_refl _).bind fun buf => (agrees_refl _).ite ?_
      exact (ih _ _ _ _).bind fun c => agrees_refl _
    · exact (ih _ _ _ _).bind fun c => agrees_refl _

theorem nextCommand_agrees (config : ConfigBuf) (l : Loop) :
    Agrees (nextCommand f config l) (nextCommand (f.extend pad) config l) := by
  have hlen : Agrees (hciGetPatchCmdLen f config l.info) (hciGetPatchCmdLen (f.extend pad) config l.info) :=
    ((getPatchInfo_agrees f pad config _).ite (agrees_refl _)).bind fun info => agrees_refl _
  refine hlen.bind fun r => Agrees.bind ?_ fun r' => agrees_refl _
  refine (agrees_refl _).bind fun buf => ?_
  exact (copyNodes_agrees f pad _ _ _ _ _ _).bind fun c => agrees_refl _

end Extend

/-! ## Parsing again -/

/-- The parser queues `nodes`, with nothing of them sent, whatever is queued already. -/
structure Queues (parser : Parsed → Build Parsed) (nodes : List PatchNode) : Prop where
  adds : ∀ p, parser p = .ok (nodes.foldl Parsed.add p)
  unsent : ∀ node ∈ nodes, node.sentPayloadLen = 0

theorem queues_none {parser : Parsed → Build Parsed} (h : ∀ p, parser p = .ok p) : Queues parser [] :=
  ⟨h, fun _ hn => absurd hn List.not_mem_nil⟩

theorem Queues.bind {x y : Parsed → Build Parsed} {ns ms : List PatchNode} (h : Queues x ns) (h' : Queues y ms) :
    Queues (fun p => x p >>= y) (ns ++ ms) where
  adds p := by
    rw [h.adds, build_bind, h'.adds, List.foldl_append]
  unsent node hn := (List.mem_append.mp hn).elim (h.unsent node) (h'.unsent node)

section Parse

variable {f : Image}

theorem takeEntry_queues {opcode : SectionOpcode} (hop : opcode = .patchSnippets ∨ opcode = .dummyHeader) {position : Nat}
    {eco : UInt8} {len : Nat} {p p' : Parsed} (h : takeEntry f opcode position eco len p = .ok p') :
    ∃ node, Queues (takeEntry f opcode position eco len) [node] := by
  have hsec : opcode ≠ .securityHeader := by rcases hop with rfl | rfl <;> decide
  obtain ⟨priority, hprio, -⟩ := build_eq_ok h
  refine ⟨⟨eco, priority, 0, UInt32.ofNat len, position + 8, 0⟩, fun q => ?_, fun n hn => ?_⟩
  · rw [takeEntry, hprio, if_neg hsec]
    show (if opcode = .patchSnippets ∨ opcode = .dummyHeader then _ else _) = _
    rw [if_pos hop]
    rfl
  · rw [List.mem_singleton.mp hn]

theorem parseEntries_queues {opcode : SectionOpcode} (hop : opcode = .patchSnippets ∨ opcode = .dummyHeader)
    {number position : Nat} {p p' : Parsed} (h : parseEntries f opcode number position p = .ok p') :
    ∃ nodes, Queues (parseEntries f opcode number position) nodes := by
  induction number generalizing position p with
  | zero => exact ⟨[], queues_none fun _ => rfl⟩
  | succ number ih =>
    obtain ⟨eco, heco, h⟩ := build_eq_ok h
    obtain ⟨len, hlen, h⟩ := build_eq_ok h
    obtain ⟨p1, hentry, h⟩ := build_eq_ok h
    obtain ⟨ms, hrest⟩ := ih h
    obtain ⟨ns, hone⟩ : ∃ ns, Queues (fun p => if eco = f.chipid then takeEntry f opcode position eco len p else pure p) ns := by
      by_cases hchip : eco = f.chipid
      · rw [if_pos hchip] at hentry
        obtain ⟨node, hnode⟩ := takeEntry_queues hop hentry
        simp only [if_pos hchip]
        exact ⟨[node], hnode⟩
      · simp only [if_neg hchip]
        exact ⟨[], queues_none fun _ => rfl⟩
    refine ⟨ns ++ ms, fun q => ?_, (hone.bind hrest).unsent⟩
    rw [parseEntries, heco, build_bind, hlen, build_bind]
    exact (hone.bind hrest).adds q

theorem firstPass_queues (hkey : f.patchKeyId = 0) {opcode : SectionOpcode} {body : Nat} {p p' : Parsed}
    (h : firstPass f opcode body p = .ok p') : ∃ nodes, Queues (firstPass f opcode body) nodes := by
  have hsection {op : SectionOpcode} (hop : op = .patchSnippets ∨ op = .dummyHeader) {p p' : Parsed}
      (h : parsePatchSection f op body p = .ok p') : ∃ nodes, Queues (parsePatchSection f op body) nodes := by
    obtain ⟨number, hnumber, h⟩ := build_eq_ok h
    obtain ⟨nodes, hnodes⟩ := parseEntries_queues hop h
    refine ⟨nodes, fun q => ?_, hnodes.unsent⟩
    rw [parsePatchSection, hnumber, build_bind, hnodes.adds]
  by_cases h1 : opcode = .patchSnippets
  · subst h1
    exact hsection (.inl rfl) h
  · by_cases h2 : opcode = .dummyHeader
    · subst h2
      have hparsed : ∀ p, firstPass f .dummyHeader body p = parsePatchSection f .dummyHeader body p :=
        fun p => if_neg fun hc => hc hkey
      rw [hparsed] at h
      rw [funext hparsed]
      exact hsection (.inr rfl) h
    · exact ⟨[], queues_none fun p => firstPass_other hkey h1 h2 body p⟩

theorem parseSections_queues (hkey : f.patchKeyId = 0) {n pSection : Nat} {p p' : Parsed}
    (h : parseSections f (firstPass f) n pSection p = .ok p') :
    ∃ nodes, Queues (parseSections f (firstPass f) n pSection) nodes := by
  induction n generalizing pSection p with
  | zero => exact ⟨[], queues_none fun _ => rfl⟩
  | succ n ih =>
    obtain ⟨opcode, hop, h⟩ := build_eq_ok h
    obtain ⟨length, hlen, h⟩ := build_eq_ok h
    obtain ⟨p1, hone, h⟩ := build_eq_ok h
    obtain ⟨ns, hns⟩ := firstPass_queues hkey hone
    obtain ⟨ms, hms⟩ := ih h
    refine ⟨ns ++ ms, fun q => ?_, (hns.bind hms).unsent⟩
    rw [parseSections, hop, build_bind, hlen, build_bind]
    exact (hns.bind hms).adds q

/-- Parsing queues the same entries whenever it is done. -/
theorem parsePatch_queues (hkey : f.patchKeyId = 0) {pBuf : Nat} {queue : List PatchNode} {p : Parsed}
    (h : parsePatch f pBuf queue = .ok p) :
    ∃ nodes : List PatchNode, (∀ queue, parsePatch f pBuf queue = .ok (nodes.foldl Parsed.add ⟨queue, 0, false⟩)) ∧
      ∀ node ∈ nodes, node.sentPayloadLen = 0 := by
  obtain ⟨sectionNum, hnum, h⟩ := build_eq_ok h
  by_cases h0 : sectionNum = 0
  · refine ⟨[], fun queue => ?_, fun _ hn => absurd hn List.not_mem_nil⟩
    rw [parsePatch, hnum, build_bind, if_pos h0]
    rfl
  · rw [if_neg h0] at h
    obtain ⟨p1, hsections, -⟩ := build_eq_ok h
    obtain ⟨nodes, hnodes⟩ := parseSections_queues hkey hsections
    refine ⟨nodes, fun queue => ?_, hnodes.unsent⟩
    rw [parsePatch, hnum, build_bind, if_neg h0, hnodes.adds, build_bind, if_neg fun hc => hc.1 hkey]
    rfl

end Parse

/-! ## Lengths -/

/-- The bytes of the payloads of a queue. -/
def queuedLen (nodes : List PatchNode) : Nat := (nodes.map (·.payloadLen.toNat)).sum

/-- The bytes of them that are not sent. -/
def unsentLen (nodes : List PatchNode) : Nat := (nodes.map fun n => n.payloadLen.toNat - n.sentPayloadLen.toNat).sum

theorem foldl_add_queue (nodes : List PatchNode) (p : Parsed) :
    (nodes.foldl Parsed.add p).queue = nodes.foldl insertPatchQueue p.queue := by
  induction nodes generalizing p with
  | nil => rfl
  | cons n rest ih => exact ih (p.add n)

theorem foldl_add_fwLen (nodes : List PatchNode) (p : Parsed) :
    (nodes.foldl Parsed.add p).fwLen = p.fwLen + UInt32.ofNat (queuedLen nodes) := by
  induction nodes generalizing p with
  | nil => exact (UInt32.add_zero _).symm
  | cons n rest ih =>
    have hcons : queuedLen (n :: rest) = n.payloadLen.toNat + queuedLen rest := List.sum_cons
    rw [List.foldl_cons, ih, hcons, UInt32.ofNat_add, UInt32.ofNat_toNat, ← UInt32.add_assoc]
    rfl

/-- A queue after parsing holds the new entries and the old ones. -/
theorem queue_perm (nodes queue : List PatchNode) : (nodes.foldl insertPatchQueue queue).Perm (nodes ++ queue) :=
  Queue.foldl_insert_perm nodes queue

theorem queuedLen_perm {a b : List PatchNode} (h : a.Perm b) : queuedLen a = queuedLen b := (h.map _).sum_eq

theorem unsentLen_perm {a b : List PatchNode} (h : a.Perm b) : unsentLen a = unsentLen b := (h.map _).sum_eq

theorem queuedLen_append (a b : List PatchNode) : queuedLen (a ++ b) = queuedLen a + queuedLen b := by
  rw [queuedLen, List.map_append, List.sum_append]
  rfl

theorem unsentLen_append (a b : List PatchNode) : unsentLen (a ++ b) = unsentLen a + unsentLen b := by
  rw [unsentLen, List.map_append, List.sum_append]
  rfl

theorem unsentLen_le (nodes : List PatchNode) : unsentLen nodes ≤ queuedLen nodes :=
  List.sum_le_sum fun _ _ => Nat.sub_le _ _

theorem queuedLen_zero {nodes : List PatchNode} (h : ∀ n ∈ nodes, n.payloadLen = 0) : queuedLen nodes = 0 := by
  refine List.sum_eq_zero fun k hk => ?_
  obtain ⟨n, hn, rfl⟩ := List.mem_map.mp hk
  exact congrArg UInt32.toNat (h n hn)

/-! ## Copying a queue that is sent -/

/-- Nodes that end within what has been sent are passed over. -/
theorem copyNodes_skip {fw : List UInt8} {dataLen remain : UInt8} {pre rest : List PatchNode} {total sent : UInt32}
    {buf : List UInt8} {c : Copied} (h : copyNodes fw dataLen (pre ++ rest) total sent remain buf = .ok c)
    (hle : total.toNat + queuedLen pre ≤ sent.toNat) :
    ∃ total' c', copyNodes fw dataLen rest total' sent remain buf = .ok c' ∧ c'.remainLen = c.remainLen ∧
      total'.toNat = total.toNat + queuedLen pre := by
  induction pre generalizing total c with
  | nil => exact ⟨total, c, h, rfl, rfl⟩
  | cons n pre ih =>
    have hcons : queuedLen (n :: pre) = n.payloadLen.toNat + queuedLen pre := List.sum_cons
    have hsent := sent.toNat_lt
    have htotal : (total + n.payloadLen).toNat = total.toNat + n.payloadLen.toNat := by
      rw [UInt32.toNat_add]
      omega
    have hpast : ¬ sent < total + n.payloadLen := by
      rw [UInt32.lt_iff_toNat_lt, htotal]
      omega
    rw [List.cons_append, copyNodes] at h
    dsimp only at h
    rw [if_neg hpast] at h
    obtain ⟨c1, hrest, h⟩ := build_eq_ok h
    cases h
    obtain ⟨total', c', hcopy, hremain, htotal'⟩ := ih hrest (by omega)
    exact ⟨total', c', hcopy, hremain, by omega⟩

/-- With room for all that is not sent, that is all that is copied. -/
theorem copyNodes_remain {fw : List UInt8} {dataLen remain : UInt8} {nodes : List PatchNode} {total sent : UInt32}
    {buf : List UInt8} {c : Copied} (h : copyNodes fw dataLen nodes total sent remain buf = .ok c)
    (htotal : total.toNat + queuedLen nodes ≤ sent.toNat + remain.toNat) (hfit : sent.toNat + remain.toNat < 2 ^ 32)
    (hroom : unsentLen nodes ≤ remain.toNat) (hsent : ∀ n ∈ nodes, n.sentPayloadLen ≤ n.payloadLen) :
    remain.toNat ≤ c.remainLen.toNat + unsentLen nodes := by
  induction nodes generalizing total sent remain buf c with
  | nil => cases h; exact Nat.le_add_right _ _
  | cons n rest ih =>
    have hlen : queuedLen (n :: rest) = n.payloadLen.toNat + queuedLen rest := List.sum_cons
    have hunsent : unsentLen (n :: rest) = n.payloadLen.toNat - n.sentPayloadLen.toNat + unsentLen rest := List.sum_cons
    have hadd : (total + n.payloadLen).toNat = total.toNat + n.payloadLen.toNat := by
      rw [UInt32.toNat_add]
      omega
    have hsum : (sent + remain.toUInt32).toNat = sent.toNat + remain.toNat := by
      rw [UInt32.toNat_add, UInt8.toNat_toUInt32]
      omega
    have hrest : ∀ m ∈ rest, m.sentPayloadLen ≤ m.payloadLen := fun m hm => hsent m (List.mem_cons_of_mem _ hm)
    rw [copyNodes] at h
    dsimp only at h
    split at h
    case isTrue =>
      rw [if_neg (by rw [UInt32.lt_iff_toNat_lt, hadd, hsum]; omega)] at h
      obtain ⟨bytes, -, h⟩ := build_eq_ok h
      obtain ⟨buf', -, h⟩ := build_eq_ok h
      split at h
      case isTrue => cases h
      case isFalse hcomplete =>
        obtain ⟨c1, hcopy, h⟩ := build_eq_ok h
        cases h
        -- The rest of the node is short enough for the cast to a byte to keep it.
        have hdiff := UInt32.toNat_sub_of_le _ _ (hsent n List.mem_cons_self)
        have hbyte := remain.toNat_lt
        have hx : (n.payloadLen - n.sentPayloadLen).toUInt8.toNat = n.payloadLen.toNat - n.sentPayloadLen.toNat := by
          rw [UInt32.toNat_toUInt8, hdiff]
          omega
        generalize (n.payloadLen - n.sentPayloadLen).toUInt8 = x at hcopy hx
        have hleft : (remain - x).toNat = remain.toNat - x.toNat :=
          UInt8.toNat_sub_of_le _ _ (UInt8.le_iff_toNat_le.mpr (by omega))
        have hmore : (sent + x.toUInt32).toNat = sent.toNat + x.toNat := by
          rw [UInt32.toNat_add, UInt8.toNat_toUInt32]
          omega
        have := ih hcopy (by omega) (by omega) (by omega) hrest
        show remain.toNat ≤ c1.remainLen.toNat + _
        omega
    case isFalse =>
      obtain ⟨c1, hcopy, h⟩ := build_eq_ok h
      cases h
      have := ih hcopy (by omega) hfit (by omega) hrest
      show remain.toNat ≤ c1.remainLen.toNat + _
      omega

/-! ## Queued twice -/

section Twice

variable {nodes old : List PatchNode} (hnew : ∀ n ∈ nodes, n.sentPayloadLen = 0)
  (hold : ∀ n ∈ old, n.sentPayloadLen = n.payloadLen)

/-- The second node was queued in front of the first one. -/
def Overtakes (a b : PatchNode) : Prop :=
  a.sentPayloadLen = a.payloadLen ∧ b.sentPayloadLen = 0 ∧ b.payloadLen ≠ 0 ∧ b.priority.toNat ≤ a.priority.toNat ∧
    a.payloadLen ≠ 0

include hnew hold

/-- No sent node stands before a new one of no higher priority. -/
theorem requeued_order : (nodes.foldl insertPatchQueue old).Pairwise fun a b => ¬ Overtakes a b := by
  have hstart : old.Pairwise fun a b => ¬ Overtakes a b := by
    refine List.pairwise_of_forall_mem_list fun a _ b hb h => ?_
    obtain ⟨-, hfresh, hne, -⟩ := h
    exact hne ((hold b hb).symm.trans hfresh)
  clear hold
  induction nodes generalizing old with
  | nil => exact hstart
  | cons x rest ih =>
    refine ih (fun n hn => hnew n (List.mem_cons_of_mem _ hn)) (Queue.pairwise_insert hstart ?_ ?_)
    · intro y _ hlt h
      exact absurd h.2.2.2.1 (Nat.not_le.mpr hlt)
    · intro y _ h
      exact h.2.2.2.2 (h.1.symm.trans (hnew x List.mem_cons_self))

/-- The first node that is not empty is a new one. -/
theorem requeued_first (hsame : ∀ n ∈ old, ∃ m ∈ nodes, m.priority = n.priority ∧ m.payloadLen = n.payloadLen)
    (hpos : 1 ≤ queuedLen nodes) :
    ∃ pre a post, nodes.foldl insertPatchQueue old = pre ++ a :: post ∧ queuedLen pre = 0 ∧ a.payloadLen ≠ 0 ∧
      a.sentPayloadLen = 0 := by
  have horder := requeued_order hnew hold
  have hperm := queue_perm nodes old
  cases hfind : (nodes.foldl insertPatchQueue old).find? fun n => n.payloadLen != 0 with
  | none =>
    have hall : ∀ n ∈ nodes.foldl insertPatchQueue old, n.payloadLen = 0 := by
      intro n hn
      have := List.find?_eq_none.mp hfind n hn
      simpa using this
    have hzero := queuedLen_zero fun n hn => hall n (hperm.mem_iff.mpr (List.mem_append_left _ hn))
    omega
  | some a =>
    obtain ⟨hne, pre, post, hsplit, hpre⟩ := List.find?_eq_some_iff_append.mp hfind
    have hne : a.payloadLen ≠ 0 := bne_iff_ne.mp hne
    have hpre : ∀ n ∈ pre, n.payloadLen = 0 := fun n hn => by simpa using hpre n hn
    refine ⟨pre, a, post, hsplit, queuedLen_zero hpre, hne, ?_⟩
    have hmem : a ∈ nodes ++ old := hperm.mem_iff.mp (hsplit ▸ List.mem_append_right _ List.mem_cons_self)
    rcases List.mem_append.mp hmem with ha | ha
    · exact hnew a ha
    · -- The new node for the same entry stands before a sent one.
      exfalso
      obtain ⟨m, hm, hprio, hlen⟩ := hsame a ha
      have hm' : m ∈ pre ++ a :: post := hsplit ▸ hperm.mem_iff.mpr (List.mem_append_left _ hm)
      rw [hsplit, List.pairwise_append, List.pairwise_cons] at horder
      have hafter := horder.2.1.1
      rcases List.mem_append.mp hm' with hmp | hmp
      · exact hne (hlen.symm.trans (hpre m hmp))
      · rcases List.mem_cons.mp hmp with rfl | hmp
        · exact hne ((hold m ha).symm.trans (hnew m hm))
        · refine hafter m hmp ⟨hold a ha, hnew m hm, hlen ▸ hne, ?_, hne⟩
          rw [hprio]

end Twice

/-! ## After the last command -/

/-- A queue of which everything is sent. -/
theorem advance_all {q : List PatchNode} {m : Nat} (hm : queuedLen q ≤ m) {n : PatchNode} (hn : n ∈ advance m q) :
    n.sentPayloadLen = n.payloadLen ∧ ∃ n0 ∈ q, n0.priority = n.priority ∧ n0.payloadLen = n.payloadLen := by
  induction q generalizing m with
  | nil => cases hn
  | cons x rest ih =>
    have hcons : queuedLen (x :: rest) = x.payloadLen.toNat + queuedLen rest := List.sum_cons
    rcases List.mem_cons.mp hn with rfl | hn
    · refine ⟨?_, x, List.mem_cons_self, rfl, rfl⟩
      show UInt32.ofNat (min x.payloadLen.toNat m) = x.payloadLen
      rw [Nat.min_eq_left (by omega), UInt32.ofNat_toNat]
    · obtain ⟨hsent, n0, hn0, hsame⟩ := ih (by omega) hn
      exact ⟨hsent, n0, List.mem_cons_of_mem _ hn0, hsame⟩

theorem queuedLen_advance (m : Nat) (q : List PatchNode) : queuedLen (advance m q) = queuedLen q := by
  induction q generalizing m with
  | nil => rfl
  | cons x rest ih => exact congrArg (x.payloadLen.toNat + ·) (ih _)

theorem unsentLen_sent {nodes : List PatchNode} (h : ∀ n ∈ nodes, n.sentPayloadLen = n.payloadLen) : unsentLen nodes = 0 := by
  refine List.sum_eq_zero fun k hk => ?_
  obtain ⟨n, hn, rfl⟩ := List.mem_map.mp hk
  rw [h n hn, Nat.sub_self]

theorem unsentLen_fresh {nodes : List PatchNode} (h : ∀ n ∈ nodes, n.sentPayloadLen = 0) : unsentLen nodes = queuedLen nodes := by
  refine congrArg List.sum (List.map_congr_left fun n hn => ?_)
  rw [h n hn]
  rfl

/-- A last command that the queue does not fill is refused: all of the config is sent. -/
theorem cmdBuf_refused {f : Image} {config : ConfigBuf} {info : PatchInfo} {cmdLen : UInt8}
    (hlast : info.curIndex = info.endIndex) (hsent : info.sentConfigLen = info.configLen)
    (hremain : ∀ buf c, copyNodes f.buf (cmdLen - 1) info.nodes 0 info.sentFwLen (cmdLen - 1) buf = .ok c → 0 < c.remainLen)
    (buf : List UInt8) (r : List UInt8 × PatchInfo) : hciGetPatchCmdBuf f config info buf cmdLen ≠ .ok r := by
  intro h
  obtain ⟨buf1, -, h⟩ := build_eq_ok h
  obtain ⟨c, hcopy, h⟩ := build_eq_ok h
  have hpos := hremain buf1 c hcopy
  obtain ⟨⟨buf2, info2⟩, hconfig, h⟩ := build_eq_ok h
  unfold copyConfig at hconfig
  rw [if_pos hpos] at hconfig
  split at hconfig
  case isTrue => cases hconfig
  case isFalse =>
    obtain ⟨bytes, -, hconfig⟩ := build_eq_ok hconfig
    obtain ⟨buf3, -, hconfig⟩ := build_eq_ok hconfig
    cases hconfig
    have hmore : info.configLen ≠ info.sentConfigLen + c.remainLen.toUInt16 := by
      intro heq
      have hnat := congrArg UInt16.toNat heq
      have hlt := c.remainLen.toNat_lt
      have hpos' : 0 < c.remainLen.toNat := hpos
      have hcfg := info.configLen.toNat_lt
      rw [hsent, UInt16.toNat_add, UInt8.toNat_toUInt16] at hnat
      omega
    dsimp only at h
    rw [if_pos hlast, if_pos hmore] at h
    cases h

section Remain

variable {fw buf : List UInt8} {nodes old : List PatchNode} {dataLen : UInt8} {c : Copied} {p d : Nat}
  (hold : ∀ n ∈ old, n.sentPayloadLen = n.payloadLen) (hlen : queuedLen old = p) (hp : p ≤ 65536 * 252) (hd : d ≤ 252)

include hold hlen hp hd

/-- Nothing is copied from a queue that is sent. -/
theorem copyNodes_sent (hpos : 1 ≤ d)
    (h : copyNodes fw dataLen old 0 (UInt32.ofNat p) (UInt8.ofNat d) buf = .ok c) : 0 < c.remainLen := by
  have hp32 : (UInt32.ofNat p).toNat = p := UInt32.toNat_ofNat_of_lt' (by simp [UInt32.size]; omega)
  have hd8 : (UInt8.ofNat d).toNat = d := size8_toNat (by omega)
  have hzero : (0 : UInt32).toNat = 0 := rfl
  have hunsent := unsentLen_sent hold
  have hleft := copyNodes_remain h (by omega) (by omega) (by omega) fun n hn => (hold n hn) ▸ UInt32.le_refl _
  rw [hunsent, hd8] at hleft
  show 0 < c.remainLen.toNat
  omega

/-- From a queue that was sent and is queued once more, less is copied than was sent: the
    first new node that is not empty is passed over. -/
theorem copyNodes_requeued (hnew : ∀ n ∈ nodes, n.sentPayloadLen = 0)
    (hsame : ∀ n ∈ old, ∃ m ∈ nodes, m.priority = n.priority ∧ m.payloadLen = n.payloadLen) (hlen' : queuedLen nodes = p)
    (hpos : 1 ≤ p) (hpd : p ≤ d)
    (h : copyNodes fw dataLen (nodes.foldl insertPatchQueue old) 0 (UInt32.ofNat p) (UInt8.ofNat d) buf = .ok c) :
    0 < c.remainLen := by
  have hp32 : (UInt32.ofNat p).toNat = p := UInt32.toNat_ofNat_of_lt' (by simp [UInt32.size]; omega)
  have hd8 : (UInt8.ofNat d).toNat = d := size8_toNat (by omega)
  have hzero : (0 : UInt32).toNat = 0 := rfl
  have hperm := queue_perm nodes old
  have hlens := queuedLen_perm hperm
  have hunsents := unsentLen_perm hperm
  have hsent : ∀ n ∈ nodes.foldl insertPatchQueue old, n.sentPayloadLen ≤ n.payloadLen := by
    intro n hn
    rcases List.mem_append.mp (hperm.mem_iff.mp hn) with hn | hn
    · rw [hnew n hn]
      exact UInt32.le_iff_toNat_le.mpr (Nat.zero_le _)
    · exact (hold n hn) ▸ UInt32.le_refl _
  obtain ⟨pre, a, post, hsplit, hpre, hne, ha⟩ := requeued_first hnew hold hsame (by omega)
  rw [List.append_cons] at hsplit
  have hempty := unsentLen_le pre
  have hfirst : queuedLen [a] = a.payloadLen.toNat := Nat.add_zero _
  have hfirst' : unsentLen [a] = a.payloadLen.toNat := by
    rw [unsentLen_fresh (by simpa using ha), hfirst]
  have hapos : a.payloadLen.toNat ≠ 0 := fun h0 => hne (UInt32.toNat_inj.mp h0)
  rw [hsplit, queuedLen_append, queuedLen_append, queuedLen_append, hlen, hlen', hpre, hfirst] at hlens
  rw [hsplit, unsentLen_append, unsentLen_append, unsentLen_append, unsentLen_fresh hnew, unsentLen_sent hold, hlen',
    hfirst'] at hunsents
  rw [hsplit] at h hsent
  obtain ⟨total, c', hcopy, hremain, htotal⟩ := copyNodes_skip h (by rw [queuedLen_append, hpre, hfirst]; omega)
  rw [queuedLen_append, hpre, hfirst] at htotal
  have hleft := copyNodes_remain hcopy (by omega) (by omega) (by omega) fun n hn => hsent n (List.mem_append_right _ hn)
  rw [hd8, hremain] at hleft
  show 0 < c.remainLen.toNat
  omega

end Remain

theorem queuedLen_stands {fw : List UInt8} {q : List PatchNode} {es : List Entry} (h : List.Forall₂ (Stands fw) q es) :
    queuedLen q = (es.flatMap (·.payload)).length := by
  induction h with
  | nil => rfl
  | @cons n e q es hn _ ih =>
    have hcons : queuedLen (n :: q) = n.payloadLen.toNat + queuedLen q := List.sum_cons
    rw [hcons, ih, hn.payloadLen_toNat, List.flatMap_cons, List.length_append]

section Done

variable {f : Image} {config : ConfigBuf} {q : List PatchNode} {es : List Entry} {patch : List UInt8} {l : Loop}

/-- What the turn after the last command starts from, for `p` bytes of patch and `c` of
    config: the queue is sent, or it was parsed once more. -/
structure Again (q nodes : List PatchNode) (p c : Nat) (cmdLen : UInt8) (info : PatchInfo) : Prop where
  cmdLen : cmdLen = UInt8.ofNat (p + c - 252 * ((p + c - 1) / 252) + 1)
  last : info.curIndex = info.endIndex
  config : info.sentConfigLen = info.configLen
  sentFwLen : info.sentFwLen = UInt32.ofNat p
  nodes : info.nodes = advance (p + c) q ∨
    p + c ≤ 252 ∧ info.nodes = nodes.foldl insertPatchQueue (advance (p + c) q)

theorem cmdLen_again (r : Ready f config q es patch) {nodes : List PatchNode}
    (hqueues : ∀ queue, parsePatch f 16 queue = .ok (nodes.foldl Parsed.add ⟨queue, 0, false⟩))
    (hlen : queuedLen nodes = patch.length) (hinfo : l.info = infoDone q patch.length config.bytes.length)
    {cmdLen : UInt8} {info : PatchInfo} (h : hciGetPatchCmdLen f config l.info = .ok (cmdLen, info)) :
    Again q nodes patch.length config.bytes.length cmdLen info := by
  have hfit := r.fits
  have hpos := r.nonempty
  set p := patch.length with hp
  set c := config.bytes.length with hc
  rw [hinfo] at h
  obtain ⟨info1, hone, h⟩ := build_eq_ok h
  by_cases hzero : (infoDone q p c).curIndex = 0
  · have hsingle : (p + c - 1) / 252 = 0 := (ofNat16_inj (by omega) (by decide)).mp hzero
    have hparsed : parsePatch f 16 (infoDone q p c).nodes =
        .ok ⟨nodes.foldl insertPatchQueue (advance (p + c) q), UInt32.ofNat p,
          (nodes.foldl Parsed.add ⟨advance (p + c) q, 0, false⟩).foundSecurityHeader⟩ := by
      have hfw := foldl_add_fwLen nodes ⟨advance (p + c) q, 0, false⟩
      rw [hlen, UInt32.zero_add] at hfw
      rw [← hfw, ← foldl_add_queue nodes ⟨advance (p + c) q, 0, false⟩]
      exact hqueues _
    rw [if_pos hzero, getPatchInfo_parsed hpos hfit r.header hparsed] at hone
    cases hone
    rw [if_pos (by rfl)] at h
    cases h
    exact ⟨(UInt8.ofNat_add _ 1).symm, rfl, rfl, rfl, .inr ⟨by omega, rfl⟩⟩
  · rw [if_neg hzero] at hone
    cases hone
    rw [if_pos (by rfl)] at h
    cases h
    exact ⟨(UInt8.ofNat_add _ 1).symm, rfl, rfl, rfl, .inl rfl⟩

/-- The turn after the last command builds nothing. -/
theorem nextCommand_done (hkey : f.patchKeyId = 0) (r : Ready f config q es patch)
    (hinfo : l.info = infoDone q patch.length config.bytes.length) (x : Step × Loop) : nextCommand f config l ≠ .ok x := by
  obtain ⟨found, hparse⟩ := r.parse
  obtain ⟨nodes, hqueues, hnew⟩ := parsePatch_queues hkey hparse
  have hperm : q.Perm nodes := by
    have hqueue := congrArg Parsed.queue (Except.ok.inj ((hqueues []).symm.trans hparse))
    have hone := queue_perm nodes []
    rw [foldl_add_queue] at hqueue
    rwa [hqueue, List.append_nil] at hone
  have hlen : queuedLen q = patch.length := by rw [queuedLen_stands r.stands, ← r.payloads]
  have hlen' : queuedLen nodes = patch.length := (queuedLen_perm hperm).symm.trans hlen
  have hfit := r.fits
  have hpos := r.nonempty
  intro hnext
  obtain ⟨⟨cmdLen, info⟩, hcmdLen, hnext⟩ := build_eq_ok hnext
  obtain ⟨y, hcmdBuf, -⟩ := build_eq_ok hnext
  have again := cmdLen_again r hqueues hlen' hinfo hcmdLen
  set p := patch.length with hp
  set c := config.bytes.length with hc
  have hall : ∀ n ∈ advance (p + c) q, n.sentPayloadLen = n.payloadLen := fun n hn => (advance_all (by omega) hn).1
  have hold : queuedLen (advance (p + c) q) = p := (queuedLen_advance _ q).trans hlen
  refine cmdBuf_refused again.last again.config ?_ _ y hcmdBuf
  intro buf copied hcopy
  rw [again.cmdLen, ofNat8_succ_pred, again.sentFwLen] at hcopy
  rcases again.nodes with hnodes | ⟨hsmall, hnodes⟩
  · rw [hnodes] at hcopy
    exact copyNodes_sent hall hold (by omega) (by omega) (by omega) hcopy
  · rw [hnodes] at hcopy
    refine copyNodes_requeued hall hold (by omega) (by omega) hnew ?_ hlen' hpos (by omega) hcopy
    intro n hn
    obtain ⟨-, n0, hn0, hsame⟩ := advance_all (by omega) hn
    exact ⟨n0, hperm.mem_iff.mp hn0, hsame⟩

end Done

/-! ## A file that goes on -/

/-- The entry that a node was made of. -/
def PatchNode.entry (fw : List UInt8) (n : PatchNode) : Entry where
  eco := n.eco
  priority := n.priority
  keyId := n.keyId
  reserve := 0
  payload := (fw.drop n.payload).take n.payloadLen.toNat
  fits := Nat.lt_of_le_of_lt (List.length_take_le _ _) n.payloadLen.toNat_lt

theorem stands_entry {fw : List UInt8} {n : PatchNode} (hin : n.payload + n.payloadLen.toNat ≤ fw.length)
    (hunsent : n.sentPayloadLen = 0) : Stands fw n (n.entry fw) where
  priority := rfl
  payloadLen := by
    have hlen : (n.entry fw).payload.length = n.payloadLen.toNat := by
      show ((fw.drop n.payload).take n.payloadLen.toNat).length = _
      rw [List.length_take, List.length_drop]
      omega
    rw [hlen, UInt32.ofNat_toNat]
  payload := At.of_inside hin
  unsent := hunsent

/-- What a parsed patch's queue was made of. -/
theorem getPatchInfo_queue {f : Image} (hkey : f.patchKeyId = 0) {config : ConfigBuf} {info : PatchInfo}
    (h : getPatchInfo f config PatchInfo.zero = .ok info) :
    16 ≤ f.buf.length ∧ 1 ≤ queuedLen info.nodes ∧ (∀ n ∈ info.nodes, n.sentPayloadLen = 0) ∧
      ∃ found, parsePatch f 16 [] = .ok ⟨info.nodes, UInt32.ofNat (queuedLen info.nodes), found⟩ := by
  obtain ⟨date, -, h⟩ := build_eq_ok h
  obtain ⟨time, htime, h⟩ := build_eq_ok h
  obtain ⟨p, hparse, h⟩ := build_eq_ok h
  have hheader : 16 ≤ f.buf.length := by
    unfold readLe at htime
    split at htime
    · assumption
    · cases htime
  obtain ⟨nodes, hqueues, hnew⟩ := parsePatch_queues hkey hparse
  have hp : p = nodes.foldl Parsed.add ⟨[], 0, false⟩ := Except.ok.inj (hparse.symm.trans (hqueues _))
  have hperm : p.queue.Perm nodes := by
    have hone := queue_perm nodes []
    rwa [List.append_nil, ← foldl_add_queue nodes ⟨[], 0, false⟩, ← hp] at hone
  have hfwLen : p.fwLen = UInt32.ofNat (queuedLen p.queue) := by
    rw [hp, foldl_add_fwLen, UInt32.zero_add, ← hp, queuedLen_perm hperm]
  split at h
  case isTrue => cases h
  case isFalse hne =>
    cases h
    refine ⟨hheader, ?_, fun n hn => hnew n (hperm.mem_iff.mp hn), p.foundSecurityHeader, ?_⟩
    · show 1 ≤ queuedLen p.queue
      by_contra h0
      rw [Nat.lt_one_iff.mp (Nat.not_le.mp h0)] at hfwLen
      exact hne hfwLen
    · show parsePatch f 16 [] = .ok ⟨p.queue, UInt32.ofNat (queuedLen p.queue), p.foundSecurityHeader⟩
      rw [← hfwLen]
      exact hparse

/-- Long enough for every payload of a queue, wherever it starts. -/
def padding (nodes : List PatchNode) : List UInt8 :=
  List.replicate (nodes.map fun n => n.payload + n.payloadLen.toNat).sum 0

theorem inside_padding (buf : List UInt8) {nodes : List PatchNode} {n : PatchNode} (hn : n ∈ nodes) :
    n.payload + n.payloadLen.toNat ≤ (buf ++ padding nodes).length := by
  have hle := List.le_sum_of_mem (List.mem_map_of_mem (f := fun n : PatchNode => n.payload + n.payloadLen.toNat) hn)
  rw [List.length_append, padding, List.length_replicate]
  omega

/-- Every parsed patch is ready to be sent from a file that goes on for long enough. -/
theorem ready_extend {f : Image} (hkey : f.patchKeyId = 0) {config : ConfigBuf} {info : PatchInfo}
    (h : getPatchInfo f config PatchInfo.zero = .ok info) (hfit : queuedLen info.nodes + config.bytes.length ≤ 65536 * 252) :
    ∃ pad es patch, patch.length = queuedLen info.nodes ∧ Ready (f.extend pad) config info.nodes es patch := by
  obtain ⟨hheader, hpos, hnew, found, hparse⟩ := getPatchInfo_queue hkey h
  let pad := padding info.nodes
  let es := info.nodes.map (PatchNode.entry (f.extend pad).buf)
  have hstands : List.Forall₂ (Stands (f.extend pad).buf) info.nodes es := by
    refine List.forall₂_map_right_iff.mpr (List.forall₂_same.mpr fun n hn => ?_)
    exact stands_entry (inside_padding f.buf hn) (hnew n hn)
  have hlen : (es.flatMap (·.payload)).length = queuedLen info.nodes := (queuedLen_stands hstands).symm
  refine ⟨pad, es, es.flatMap (·.payload), hlen, ⟨found, ?_⟩, hstands, rfl, ?_, ?_, ?_⟩
  · rw [hlen]
    exact parsePatch_agrees f pad 16 [] _ hparse
  · rwa [hlen]
  · rwa [hlen]
  · show 16 ≤ (f.buf ++ pad).length
    rw [List.length_append]
    omega

/-! ## A version 2 download -/

/-- The number of fragments of a parsed patch and the config. -/
def fragmentCount (config : ConfigBuf) (info : PatchInfo) : Nat := (queuedLen info.nodes + config.bytes.length - 1) / 252 + 1

section Download

variable {f : Image} {config : ConfigBuf} {q : List PatchNode} {es : List Entry} {patch pad : List UInt8}

/-- Before some command of the patch, or after the last one. -/
def Sending (q : List PatchNode) (patch : List UInt8) (config : ConfigBuf) (l : Loop) : Prop :=
  (∃ k ≤ (patch.length + config.bytes.length - 1) / 252, Turn q patch config k l) ∨
    l.info = infoDone q patch.length config.bytes.length

/-- What a turn builds from the file as it is. -/
theorem nextCommand_sending (r : Ready (f.extend pad) config q es patch) {l l' : Loop} {t : Step}
    {k : Nat} (hk : k ≤ (patch.length + config.bytes.length - 1) / 252) (ht : Turn q patch config k l)
    (h : nextCommand f config l = .ok (t, l')) :
    t = stepAt (patch ++ config.bytes) k ∧
      (k < (patch.length + config.bytes.length - 1) / 252 → Turn q patch config (k + 1) l') ∧
      (k = (patch.length + config.bytes.length - 1) / 252 → l'.info = infoDone q patch.length config.bytes.length) := by
  obtain ⟨l'', hbuilt, hnext, hdone⟩ := nextCommand_turn r ht hk
  have hsame := Except.ok.inj ((nextCommand_agrees f pad config l _ h).symm.trans hbuilt)
  obtain ⟨rfl, rfl⟩ := Prod.mk.inj hsame
  exact ⟨rfl, hnext, hdone⟩

theorem chain_done (hkey : f.patchKeyId = 0) (r : Ready (f.extend pad) config q es patch) {l : Loop} {rlen : Nat}
    {log : List (Exchange Loop)} (hinfo : l.info = infoDone q patch.length config.bytes.length)
    (h : Chain (nextCommand f config) lastFragment rlen l log) : log = [] := by
  have hnone : ∀ x, nextCommand f config l ≠ .ok x := fun x hx =>
    nextCommand_done (f := f.extend pad) hkey r hinfo x (nextCommand_agrees f pad config l x hx)
  cases h with
  | nil => rfl
  | last built => exact absurd built (hnone _)
  | more built goes tail => exact absurd built (hnone _)

/-- Whatever is answered, the commands are the fragments in order. -/
theorem chain_sending (hkey : f.patchKeyId = 0) (r : Ready (f.extend pad) config q es patch) {l : Loop} {rlen k : Nat}
    {log : List (Exchange Loop)} (hk : k ≤ (patch.length + config.bytes.length - 1) / 252) (ht : Turn q patch config k l)
    (h : Chain (nextCommand f config) lastFragment rlen l log) :
    log.map (·.step.cmd) <+: (List.range' k ((patch.length + config.bytes.length - 1) / 252 + 1 - k)).map
      (cmdAt (patch ++ config.bytes)) := by
  induction h generalizing k with
  | nil => exact List.nil_prefix
  | @last rlen l l' t reply built =>
    obtain ⟨rfl, -⟩ := nextCommand_sending r hk ht built
    rw [Nat.sub_add_comm hk, List.range'_succ, List.map_cons, List.map_cons]
    exact List.cons_prefix_cons.mpr ⟨rfl, List.nil_prefix⟩
  | @more rlen l l' t p rest built goes tail ih =>
    obtain ⟨rfl, hnext, hdone⟩ := nextCommand_sending r hk ht built
    rw [Nat.sub_add_comm hk, List.range'_succ, List.map_cons, List.map_cons]
    refine List.cons_prefix_cons.mpr ⟨rfl, ?_⟩
    rcases Nat.lt_or_eq_of_le hk with hlt | heq
    · have hrest := ih hlt (hnext hlt)
      rwa [Nat.add_sub_add_right] at hrest
    · rw [chain_done hkey r (hdone heq) tail]
      exact List.nil_prefix

theorem downloads_sending (hkey : f.patchKeyId = 0) (r : Ready (f.extend pad) config q es patch) :
    Downloads (Sending q patch config) (nextCommand f config) := by
  intro l t l' hsending h
  rcases hsending with ⟨k, hk, ht⟩ | hinfo
  · obtain ⟨rfl, hnext, hdone⟩ := nextCommand_sending r hk ht h
    refine ⟨isDownload_iff.mpr (cmdAt_download _ k), ?_⟩
    rcases Nat.lt_or_eq_of_le hk with hlt | heq
    · exact .inl ⟨k + 1, hlt, hnext hlt⟩
    · exact .inr (hdone heq)
  · exact absurd (nextCommand_agrees f pad config l _ h) (nextCommand_done (f := f.extend pad) hkey r hinfo _)

end Download

/-- The commands of a download of `info`, whatever the controller answers: a beginning of
    those that carry the fragments of its data, in order. -/
theorem downloadCmds_v2 (e : Env) {fw : List UInt8} {eversion : UInt8} {config : ConfigBuf} (rx : List Rx) {info : PatchInfo}
    (h : getPatchInfo (image fw eversion) config PatchInfo.zero = .ok info) (hfit : fragmentCount config info ≤ 65536) :
    ∃ data : List UInt8, data.length = queuedLen info.nodes + config.bytes.length ∧
      downloadCmds (hciDownloadPatchV2 e fw eversion config ⟨rx, []⟩).2 <+:
        (List.range (fragmentCount config info)).map (cmdAt data) := by
  obtain ⟨pad, es, patch, hlen, r⟩ := ready_extend rfl h (by unfold fragmentCount at hfit; omega)
  have hstart : Turn info.nodes patch config 0 Loop.start := turn_start
  have hcmds := downloads_exchanges e lastFragment (downloads_sending rfl r) (rx.length + 1) 8
    (.inl ⟨0, Nat.zero_le _, hstart⟩) ⟨rx, []⟩
  have hchain := chain_sending rfl r (Nat.zero_le _) hstart
    (chain_exchanges (e := e) (rx.length + 1) 8 Loop.start ⟨rx, []⟩)
  refine ⟨patch ++ config.bytes, by rw [List.length_append, hlen], ?_⟩
  rw [hciDownloadPatchV2, Prog.bind_of_ok (by rfl), hcmds, List.range_eq_range', fragmentCount, ← hlen]
  exact hchain

end AmebaLinux.Hciattach.PatchV2
