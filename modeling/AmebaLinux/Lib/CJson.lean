/-
  AmebaLinux.Lib.CJson — what a program that uses cJSON sees of a document.

  A document is the tree that `cJSON_Parse` makes of it. A string is its bytes, of which C
  sees those up to a NUL. A number is its integer part; one that is no `int` becomes the
  nearest, as the processor converts it.

  What the library does with a tree is its own: a `Library` is its lookups and its items'
  fields, with what is assumed of them, each under a name. An item that is found is the
  value of a member of that name, and a member of that name is found; which one, where
  there are several, is left open, and so is a field that does not belong to the item's
  type.
-/

import AmebaLinux.Lib.CString

namespace AmebaLinux.Lib.CJson

open Lib.CString

inductive Json where
  | null
  | bool (b : Bool)
  | number (n : Int)
  | string (s : List UInt8)
  | array (items : List Json)
  | object (members : List (List UInt8 × Json))

def tolower (c : UInt8) : UInt8 := if 65 ≤ c ∧ c ≤ 90 then c + 32 else c

/-- The names that a lookup without regard to case takes for one. -/
def SameName (a b : List UInt8) : Prop := a.map tolower = b.map tolower

instance (a b : List UInt8) : Decidable (SameName a b) := inferInstanceAs (Decidable (_ = _))

structure Library where
  /-- `cJSON_GetObjectItem`. -/
  getObjectItem : Json → List UInt8 → Option Json
  /-- `cJSON_GetObjectItemCaseSensitive`. -/
  getObjectItemCaseSensitive : Json → List UInt8 → Option Json
  /-- `item->valueint`. -/
  valueint : Json → Int
  /-- `item->valuestring`, as C reads it; none for a null pointer. -/
  valuestring : Json → Option (List UInt8)
  item_is_member : ∀ item name v, getObjectItem item name = some v →
    ∃ members key, item = .object members ∧ (key, v) ∈ members ∧ SameName (cstr key) name
  member_has_item : ∀ members name key v, (key, v) ∈ members → SameName (cstr key) name →
    (getObjectItem (.object members) name).isSome
  exact_is_member : ∀ item name v, getObjectItemCaseSensitive item name = some v →
    ∃ members key, item = .object members ∧ (key, v) ∈ members ∧ cstr key = name
  member_has_exact : ∀ members name key v, (key, v) ∈ members → cstr key = name →
    (getObjectItemCaseSensitive (.object members) name).isSome
  number_valueint : ∀ n, valueint (.number n) = clamp n
  string_valuestring : ∀ s, valuestring (.string s) = some (cstr s)

/-! ## The first member -/

/-- The value of the first member whose name is taken. -/
def firstMember (taken : List UInt8 → Bool) : Json → Option Json
  | .object members => (members.find? fun m => taken (cstr m.1)).map Prod.snd
  | _ => none

theorem firstMember_is_member {taken : List UInt8 → Bool} {item v : Json} (h : firstMember taken item = some v) :
    ∃ members key, item = .object members ∧ (key, v) ∈ members ∧ taken (cstr key) = true := by
  cases item with
  | object members =>
    obtain ⟨⟨key, w⟩, hfind, rfl⟩ := Option.map_eq_some_iff.mp h
    have htaken := List.find?_some hfind
    exact ⟨members, key, rfl, List.mem_of_find?_eq_some hfind, htaken⟩
  | _ => cases h

theorem firstMember_isSome {taken : List UInt8 → Bool} {members : List (List UInt8 × Json)} {key : List UInt8} {v : Json}
    (hmem : (key, v) ∈ members) (htaken : taken (cstr key) = true) : (firstMember taken (.object members)).isSome := by
  rw [firstMember, Option.isSome_map, List.find?_isSome]
  exact ⟨(key, v), hmem, htaken⟩

/-- Lookups that find the first member of a name; the fields of other types are empty. -/
def firstFound : Library where
  getObjectItem item name := firstMember (fun key => SameName key name) item
  getObjectItemCaseSensitive item name := firstMember (fun key => key = name) item
  valueint
    | .number n => clamp n
    | _ => 0
  valuestring
    | .string s => some (cstr s)
    | _ => none
  item_is_member _ _ _ h := by
    obtain ⟨members, key, hitem, hmem, hname⟩ := firstMember_is_member h
    exact ⟨members, key, hitem, hmem, of_decide_eq_true hname⟩
  member_has_item _ _ _ _ hmem hname := firstMember_isSome hmem (decide_eq_true hname)
  exact_is_member _ _ _ h := by
    obtain ⟨members, key, hitem, hmem, hname⟩ := firstMember_is_member h
    exact ⟨members, key, hitem, hmem, of_decide_eq_true hname⟩
  member_has_exact _ _ _ _ hmem hname := firstMember_isSome hmem (decide_eq_true hname)
  number_valueint _ := rfl
  string_valuestring _ := rfl

end AmebaLinux.Lib.CJson
