/-
  AmebaLinux.Lib.Words — words of 32 bits in a list of bytes, the low byte first.

  `field l i` is the `i`th word of `l`. A changed byte changes the word it is in and no
  other (`field_set_of_ne`, `field_set_ne`).
-/

import AmebaLinux.Lib.Bytes

namespace AmebaLinux.Lib.Words

open AmebaLinux.Lib.Bytes

def fieldBytes (f : UInt32) : List UInt8 := toLe 4 f.toNat

def field (l : List UInt8) (i : Nat) : UInt32 := UInt32.ofNat (leNat ((l.drop (4 * i)).take 4))

@[simp] theorem fieldBytes_length (f : UInt32) : (fieldBytes f).length = 4 := toLe_length 4 _

theorem ofNat_leNat_fieldBytes (f : UInt32) : UInt32.ofNat (leNat (fieldBytes f)) = f := by
  have lt := f.toNat_lt
  rw [fieldBytes, leNat_toLe, Nat.mod_eq_of_lt (by simpa using lt), UInt32.ofNat_toNat]

theorem fieldBytes_field {l : List UInt8} {i : Nat} (inside : 4 * i + 4 ≤ l.length) :
    fieldBytes (field l i) = (l.drop (4 * i)).take 4 := by
  have length : ((l.drop (4 * i)).take 4).length = 4 := by simp; omega
  have lt := leNat_lt ((l.drop (4 * i)).take 4)
  rw [length] at lt
  rw [fieldBytes, field, UInt32.toNat_ofNat_of_lt' (by simpa using lt)]
  have back := toLe_leNat ((l.drop (4 * i)).take 4)
  rwa [length] at back

theorem field_append (pre : List UInt8) (f : UInt32) (post : List UInt8) (i : Nat) (length : pre.length = 4 * i) :
    field (pre ++ (fieldBytes f ++ post)) i = f := by
  rw [field, ← length, List.drop_left, List.take_append_of_le_length (by simp), List.take_of_length_le (by simp),
    ofNat_leNat_fieldBytes]

theorem field_take {l : List UInt8} {n i : Nat} (inside : 4 * i + 4 ≤ n) : field (l.take n) i = field l i := by
  rw [field, field, List.drop_take, List.take_take, Nat.min_eq_left (by omega)]

/-! ## A changed byte -/

theorem field_set_of_ne {l : List UInt8} {k i : Nat} (b : UInt8) (other : k / 4 ≠ i) : field (l.set k b) i = field l i := by
  rw [field, field, List.drop_set]
  split
  · rfl
  · rw [List.take_set, List.set_eq_of_length_le (by simp; omega)]

theorem field_set_ne {l : List UInt8} {k : Nat} {b : UInt8} (inside : 4 * (k / 4) + 4 ≤ l.length) (changed : l[k]? ≠ some b) :
    field (l.set k b) (k / 4) ≠ field l (k / 4) := by
  intro same
  have bytes := congrArg fieldBytes same
  rw [fieldBytes_field (by simpa using inside), fieldBytes_field inside] at bytes
  have lt : k % 4 < 4 := Nat.mod_lt _ (by omega)
  have at_k := congrArg (fun m => m[k % 4]?) bytes
  simp only [List.getElem?_take, lt, if_true, List.getElem?_drop, Nat.div_add_mod] at at_k
  rw [List.getElem?_set_self (by omega)] at at_k
  exact changed at_k.symm

end AmebaLinux.Lib.Words
