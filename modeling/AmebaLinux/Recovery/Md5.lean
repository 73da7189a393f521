/-
  AmebaLinux.Recovery.Md5 — comparing an image's digest with its `.md5` file
  (`recovery/install.c`: `get_file_md5`, `verify_md5`, `verify_package`), with the buffers
  that `AmebaLinux.Recovery.Install` leaves out.

  A buffer is given by the string in it. A read or write past the 256 bytes of `tmp` is
  outside the model (`none`). `long` has 32 bits, so `ftell` fails on a file of 2 GiB or
  more. The pipeline's status is that of `cut`, and what it leaves in `/tmp/md5` is open:
  `md5sum` may fail and `cut` still succeed on no input.

  Proved:
  - `md5_sound_iff`: once the pipeline succeeds, a result of 0 means that both digests were
    read, are not empty and are the same, and no buffer is left, exactly when both files
    fit and one of them has a text (`no_digests_match`).
  - `verifyPackage_refines`: where the buffers suffice the result is that of `Install`.
-/

import AmebaLinux.Lib.CString
import AmebaLinux.Recovery.Install

namespace AmebaLinux.Recovery.Md5

open AmebaLinux.Lib.CString
open AmebaLinux.Recovery.Install (ImageEnv execCmd)

/-- `sizeof(tmp)`, and of the two buffers of `verify_md5`. -/
def buffSize : Nat := 256

/-- The result, and the string in `buff`. -/
def getFileMd5 (file : Option (List UInt8)) (buff : List UInt8) : Option (Int × List UInt8) :=
  match file with
  | none => some (-1, buff)
  | some bytes =>
    -- `len <= 0`, which is also what `ftell` gives when it fails
    if bytes.length = 0 ∨ 2 ^ 31 ≤ bytes.length then some (-1, buff)
    else if buffSize < bytes.length then none
    else
      let tmp := bytes ++ List.replicate (buffSize - bytes.length) 0
      (strAt tmp).map fun text => (0, text)

/-- The results of the two reads are dropped. -/
def verifyMd5 (src target : Option (List UInt8)) : Option Int :=
  (getFileMd5 src []).bind fun s => (getFileMd5 target []).map fun t => if s.2 = t.2 then 0 else -1

def verifyPackage (e : ImageEnv) : Option Int :=
  if execCmd e.md5sum ≠ 0 then some (-1)
  else (verifyMd5 e.tmpMd5 e.mdFile).map fun r => if r ≠ 0 then -1 else 0

/-! ## One file -/

/-- The file and a NUL go into the buffer, or it is not read. -/
def Fits (file : Option (List UInt8)) : Prop :=
  ∀ bytes, file = some bytes → bytes.length < buffSize ∨ (bytes.length = buffSize ∧ 0 ∈ bytes) ∨ 2 ^ 31 ≤ bytes.length

/-- The file is there and begins with a character. -/
def HasText (file : Option (List UInt8)) : Prop :=
  ∃ c rest, file = some (c :: rest) ∧ c ≠ 0 ∧ (c :: rest).length < 2 ^ 31

/-- What a file that fits leaves in a zeroed buffer. -/
def textOf (file : Option (List UInt8)) : List UInt8 :=
  match file with
  | none => []
  | some bytes => if bytes.length < 2 ^ 31 then cstr bytes else []

theorem textOf_ne_nil_iff (file : Option (List UInt8)) : textOf file ≠ [] ↔ HasText file := by
  unfold HasText textOf
  cases file with
  | none => simp
  | some bytes =>
    dsimp only
    cases bytes with
    | nil => simp [cstr]
    | cons c rest =>
      by_cases hsmall : (c :: rest).length < 2 ^ 31
      · rw [if_pos hsmall, cstr_cons]
        by_cases hc : c = 0
        · simp [hc]
        · rw [if_neg hc]
          exact iff_of_true (List.cons_ne_nil _ _) ⟨c, rest, rfl, hc, hsmall⟩
      · rw [if_neg hsmall]
        refine iff_of_false (fun h => h rfl) ?_
        rintro ⟨c', rest', heq, -, hlt⟩
        obtain ⟨rfl, rfl⟩ := List.cons.inj (Option.some.inj heq)
        exact hsmall hlt

/-- A file that fits is read inside the buffers; if it has a text, that is what is read. -/
theorem getFileMd5_fits {file : Option (List UInt8)} (h : Fits file) :
    ∃ r, getFileMd5 file [] = some (r, textOf file) ∧ (textOf file ≠ [] → r = 0) := by
  unfold getFileMd5 textOf
  cases file with
  | none => exact ⟨-1, rfl, by simp⟩
  | some bytes =>
    dsimp only
    by_cases hskip : bytes.length = 0 ∨ 2 ^ 31 ≤ bytes.length
    · have hempty : (if bytes.length < 2 ^ 31 then cstr bytes else []) = [] := by
        rcases hskip with h0 | hbig
        · obtain rfl := List.length_eq_zero_iff.mp h0
          rfl
        · rw [if_neg (by omega)]
      rw [if_pos hskip, hempty]
      exact ⟨-1, rfl, by simp⟩
    · have hfits := h bytes rfl
      have hnul : 0 ∈ bytes ++ List.replicate (buffSize - bytes.length) 0 := by
        rw [List.mem_append, List.mem_replicate]
        rcases hfits with hshort | ⟨-, hnul⟩ | hbig
        · exact Or.inr ⟨by omega, rfl⟩
        · exact Or.inl hnul
        · exact absurd (Or.inr hbig) hskip
      rw [if_neg hskip, if_neg (by unfold buffSize at *; omega), strAt_eq, if_pos hnul, cstr_padded, if_pos (by omega)]
      exact ⟨0, rfl, fun _ => rfl⟩

theorem getFileMd5_outside {file : Option (List UInt8)} (h : ¬ Fits file) : getFileMd5 file [] = none := by
  unfold Fits at h
  push Not at h
  obtain ⟨bytes, rfl, hlong, hnul, hsmall⟩ := h
  have h256 : buffSize = 256 := rfl
  unfold getFileMd5
  dsimp only
  rw [if_neg (by omega)]
  by_cases hbig : buffSize < bytes.length
  · rw [if_pos hbig]
  · have hfull : bytes.length = buffSize := by omega
    rw [if_neg hbig, hfull, Nat.sub_self, List.replicate_zero, List.append_nil, strAt_eq, if_neg (hnul hfull)]
    rfl

/-! ## The verification -/

/-- The verification stays inside its buffers, and passes only on two digests that were
    read, are the same and are not empty. -/
def Sound (e : ImageEnv) : Prop :=
  ∃ r, verifyPackage e = some r ∧
    (r = 0 → ∃ digest, digest ≠ [] ∧ getFileMd5 e.tmpMd5 [] = some (0, digest) ∧ getFileMd5 e.mdFile [] = some (0, digest))

theorem verifyMd5_fits {src target : Option (List UInt8)} (hs : Fits src) (ht : Fits target) :
    verifyMd5 src target = some (if textOf src = textOf target then 0 else -1) := by
  obtain ⟨r, hsrc, -⟩ := getFileMd5_fits hs
  obtain ⟨r', htarget, -⟩ := getFileMd5_fits ht
  rw [verifyMd5, hsrc, htarget]
  rfl

theorem verifyMd5_outside {src target : Option (List UInt8)} (h : ¬ (Fits src ∧ Fits target)) : verifyMd5 src target = none := by
  unfold verifyMd5
  by_cases hs : Fits src
  · obtain ⟨r, hsrc, -⟩ := getFileMd5_fits hs
    rw [hsrc, getFileMd5_outside (fun ht => h ⟨hs, ht⟩)]
    rfl
  · rw [getFileMd5_outside hs]
    rfl

theorem verifyPackage_fits {e : ImageEnv} (hexec : execCmd e.md5sum = 0) (ht : Fits e.tmpMd5) (hm : Fits e.mdFile) :
    verifyPackage e = some (if textOf e.tmpMd5 = textOf e.mdFile then 0 else -1) := by
  rw [verifyPackage, if_neg (not_not.mpr hexec), verifyMd5_fits ht hm, Option.map_some]
  split
  · rfl
  · rfl

/-- Inside the buffers, two empty texts are all that is wrongly accepted. -/
theorem sound_iff_text {e : ImageEnv} (hexec : execCmd e.md5sum = 0) (ht : Fits e.tmpMd5) (hm : Fits e.mdFile) :
    Sound e ↔ HasText e.tmpMd5 ∨ HasText e.mdFile := by
  have hrun := verifyPackage_fits hexec ht hm
  obtain ⟨r, htmp, hread⟩ := getFileMd5_fits ht
  obtain ⟨r', hmd, hread'⟩ := getFileMd5_fits hm
  rw [← textOf_ne_nil_iff, ← textOf_ne_nil_iff]
  constructor
  · rintro ⟨result, hresult, hpass⟩
    by_contra hnone
    rw [not_or, not_not, not_not] at hnone
    rw [hrun, hnone.1, hnone.2, if_pos rfl] at hresult
    obtain ⟨digest, hne, hdigest, -⟩ := hpass (Option.some.inj hresult).symm
    rw [htmp, hnone.1] at hdigest
    exact hne (Prod.mk.inj (Option.some.inj hdigest)).2.symm
  · intro htext
    refine ⟨_, hrun, ?_⟩
    intro h0
    have hsame : textOf e.tmpMd5 = textOf e.mdFile := by
      by_contra hne
      rw [if_neg hne] at h0
      exact absurd h0 (by decide)
    rw [← hsame, or_self] at htext
    refine ⟨textOf e.tmpMd5, htext, ?_, ?_⟩
    · rw [htmp, hread htext]
    · rw [hmd, hread' (hsame ▸ htext), hsame]

/-- Sound exactly when the pipeline fails, or both files fit the buffers and one of them has
    a text. -/
theorem md5_sound_iff (e : ImageEnv) :
    Sound e ↔ execCmd e.md5sum ≠ 0 ∨ (Fits e.tmpMd5 ∧ Fits e.mdFile ∧ (HasText e.tmpMd5 ∨ HasText e.mdFile)) := by
  by_cases hexec : execCmd e.md5sum = 0
  · rw [or_iff_right (not_not.mpr hexec)]
    by_cases hfits : Fits e.tmpMd5 ∧ Fits e.mdFile
    · obtain ⟨ht, hm⟩ := hfits
      rw [sound_iff_text hexec ht hm]
      exact ⟨fun htext => ⟨ht, hm, htext⟩, fun h => h.2.2⟩
    · refine iff_of_false ?_ (fun h => hfits ⟨h.1, h.2.1⟩)
      rintro ⟨result, hresult, -⟩
      rw [verifyPackage, if_neg (not_not.mpr hexec), verifyMd5_outside hfits] at hresult
      cases hresult
  · refine iff_of_true ⟨-1, ?_, fun h => absurd h (by decide)⟩ (Or.inl hexec)
    rw [verifyPackage, if_pos hexec]

/-- `md5sum` cannot read the image and `cut` succeeds on no input; the `.md5` file is empty
    as well. -/
def noDigests : ImageEnv := ⟨true, true, .exited 0, some [], some [], .exited 0, .exited 0⟩

/-- A `.md5` file of 300 bytes. -/
def longDigest : ImageEnv := ⟨true, true, .exited 0, some [], some (List.replicate 300 97), .exited 0, .exited 0⟩

theorem no_digests_match : verifyPackage noDigests = some 0 ∧ ¬ Sound noDigests ∧ verifyPackage longDigest = none := by
  refine ⟨by decide, ?_, by decide +kernel⟩
  rintro ⟨r, hrun, hpass⟩
  have hzero : verifyPackage noDigests = some 0 := by decide
  rw [hzero] at hrun
  obtain ⟨digest, -, hread, -⟩ := hpass (Option.some.inj hrun).symm
  exact absurd (Prod.mk.inj (Option.some.inj hread)).1 (by decide)

/-! ## Without buffers -/

theorem textOf_small {file : Option (List UInt8)} (h : ∀ bytes, file = some bytes → bytes.length < 2 ^ 31) :
    textOf file = Install.getFileMd5 file := by
  cases file with
  | none => rfl
  | some bytes =>
    rw [textOf, if_pos (h bytes rfl), Install.getFileMd5, cstr]
    congr 1
    funext c
    by_cases hc : c = 0
    · simp [hc]
    · simp [hc]

/-- Where the buffers suffice, the result is the one `Install` works with. -/
theorem verifyPackage_refines {e : ImageEnv} {r : Int} (h : verifyPackage e = some r)
    (htmp : ∀ bytes, e.tmpMd5 = some bytes → bytes.length < 2 ^ 31)
    (hmd : ∀ bytes, e.mdFile = some bytes → bytes.length < 2 ^ 31) : r = Install.verifyPackage e := by
  unfold Install.verifyPackage Install.verifyMd5
  by_cases hexec : execCmd e.md5sum = 0
  · by_cases hfits : Fits e.tmpMd5 ∧ Fits e.mdFile
    · rw [verifyPackage_fits hexec hfits.1 hfits.2, textOf_small htmp, textOf_small hmd] at h
      rw [if_neg (not_not.mpr hexec), ← Option.some.inj h]
      split <;> rfl
    · rw [verifyPackage, if_neg (not_not.mpr hexec), verifyMd5_outside hfits] at h
      cases h
  · rw [verifyPackage, if_pos hexec] at h
    rw [if_pos hexec, ← Option.some.inj h]

end AmebaLinux.Recovery.Md5
