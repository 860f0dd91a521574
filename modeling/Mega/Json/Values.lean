/-
# JSON values

A JSON value has the members of its objects in the order they are written. It is
legal if its numbers are and no object has a key twice. Its canonical form sorts
the members and writes the numbers.

Key definitions: `Canonical`, `Value`, `Value.Legal`, `Value.canonicalBy`.
Key theorems: `Value.inductionOn`, `canonicalMembersBy_eq_map`.
-/
import Mega.Lib.SortBy
import Mega.Json.Strings

namespace Mega
namespace Json

open List

inductive Canonical where
  | null
  | bool (b : Bool)
  | number (text : Text)
  | string (s : Text)
  | array (items : List Canonical)
  | object (members : List (Text × Canonical))

inductive Value (F : Type) where
  | null
  | bool (b : Bool)
  | number (n : F)
  | string (s : Text)
  | array (items : List (Value F))
  | object (members : List (Text × Value F))

variable {F : Type}

/-- A property of the values that holds of an array or an object if it holds of its parts. -/
theorem Value.inductionOn {P : Value F → Prop} (null : P .null) (bool : ∀ b, P (.bool b)) (number : ∀ n, P (.number n))
    (string : ∀ s, P (.string s)) (array : ∀ items, (∀ v ∈ items, P v) → P (.array items))
    (object : ∀ members : List (Text × Value F), (∀ m ∈ members, P m.2) → P (.object members)) : ∀ v, P v
  | .null => null
  | .bool b => bool b
  | .number n => number n
  | .string s => string s
  | .array items => array items fun v _ => Value.inductionOn null bool number string array object v
  | .object members => object members fun m _ => Value.inductionOn null bool number string array object m.2
termination_by v => sizeOf v
decreasing_by
  · rename_i hmem
    have hlt := sizeOf_lt_of_mem hmem
    rw [Value.array.sizeOf_spec]
    omega
  · rename_i hmem
    have hlt := sizeOf_lt_of_mem hmem
    have hpart : sizeOf m = 1 + sizeOf m.1 + sizeOf m.2 := rfl
    rw [Value.object.sizeOf_spec]
    omega

mutual

/-- Numbers are as they should be, and no object has a key twice. -/
def Value.Legal (ok : F → Prop) : Value F → Prop
  | .number n => ok n
  | .array items => LegalItems ok items
  | .object members => (members.map Prod.fst).Nodup ∧ LegalMembers ok members
  | _ => True

def LegalItems (ok : F → Prop) : List (Value F) → Prop
  | [] => True
  | v :: items => v.Legal ok ∧ LegalItems ok items

def LegalMembers (ok : F → Prop) : List (Text × Value F) → Prop
  | [] => True
  | (_, v) :: members => v.Legal ok ∧ LegalMembers ok members

end

theorem legalItems_iff {ok : F → Prop} : ∀ items : List (Value F), LegalItems ok items ↔ ∀ v ∈ items, v.Legal ok
  | [] => by simp [LegalItems]
  | v :: items => by simp [LegalItems, legalItems_iff items]

theorem legalMembers_iff {ok : F → Prop} : ∀ members : List (Text × Value F),
    LegalMembers ok members ↔ ∀ m ∈ members, m.2.Legal ok
  | [] => by simp [LegalMembers]
  | (key, v) :: members => by simp only [LegalMembers, legalMembers_iff members, forall_mem_cons]

section Canonical

variable (sort : List (Text × Canonical) → List (Text × Canonical)) (text : F → Text)

mutual

/-- The value with the members of its objects sorted and its numbers written. -/
def Value.canonicalBy : Value F → Canonical
  | .null => .null
  | .bool b => .bool b
  | .number n => .number (text n)
  | .string s => .string s
  | .array items => .array (canonicalItemsBy items)
  | .object members => .object (sort (canonicalMembersBy members))

def canonicalItemsBy : List (Value F) → List Canonical
  | [] => []
  | v :: items => v.canonicalBy :: canonicalItemsBy items

def canonicalMembersBy : List (Text × Value F) → List (Text × Canonical)
  | [] => []
  | (key, v) :: members => (key, v.canonicalBy) :: canonicalMembersBy members

end

theorem canonicalItemsBy_eq_map : ∀ items : List (Value F),
    canonicalItemsBy sort text items = items.map (Value.canonicalBy sort text)
  | [] => rfl
  | v :: items => by rw [canonicalItemsBy, canonicalItemsBy_eq_map items, map_cons]

theorem canonicalMembersBy_eq_map : ∀ members : List (Text × Value F),
    canonicalMembersBy sort text members = members.map fun m => (m.1, m.2.canonicalBy sort text)
  | [] => rfl
  | (key, v) :: members => by rw [canonicalMembersBy, canonicalMembersBy_eq_map members, map_cons]

end Canonical

end Json
end Mega
