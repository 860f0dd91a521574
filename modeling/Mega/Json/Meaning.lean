/-
# What a JSON value means

The meaning of a value forgets what JSON leaves open: an object is a function of
its keys, so the order of its members is gone, and numbers are compared by a
function of theirs (as `f64` both zeros are one number). Two legal values have the
same canonical form exactly if they mean the same.

Key definitions: `Meaning`, `Value.meaningBy`, `Settles`.
Key theorems: `settles_sortBy`, `canonicalBy_eq_iff`.
-/
import Mega.Json.Values

namespace Mega
namespace Json

open List

inductive Meaning (N : Type) where
  | null
  | bool (b : Bool)
  | number (n : N)
  | string (s : Text)
  | array (items : List (Meaning N))
  | object (member : Text → Option (Meaning N))

variable {F N : Type}

section Meaning

variable (number : F → N)

mutual

/-- The meaning of a value whose numbers are compared by `number`. -/
def Value.meaningBy : Value F → Meaning N
  | .null => .null
  | .bool b => .bool b
  | .number n => .number (number n)
  | .string s => .string s
  | .array items => .array (meaningItems items)
  | .object members => .object (meaningMembers members)

def meaningItems : List (Value F) → List (Meaning N)
  | [] => []
  | v :: items => v.meaningBy :: meaningItems items

def meaningMembers : List (Text × Value F) → Text → Option (Meaning N)
  | [] => fun _ => none
  | (key, v) :: members => fun key' => if key' = key then some v.meaningBy else meaningMembers members key'

end

theorem meaningMembers_eq_some : ∀ {members : List (Text × Value F)}, (members.map Prod.fst).Nodup →
    ∀ {key : Text} {m : Meaning N},
      meaningMembers number members key = some m ↔ ∃ member ∈ members, member.1 = key ∧ member.2.meaningBy number = m
  | [], _, key, m => by simp [meaningMembers]
  | (key', v) :: members, hnodup, key, m => by
    obtain ⟨hfresh, hnodup⟩ := nodup_cons.mp hnodup
    have ih : meaningMembers number members key = some m ↔ _ := meaningMembers_eq_some hnodup
    show (if key = key' then some (v.meaningBy number) else meaningMembers number members key) = some m ↔ _
    by_cases hkey : key = key'
    · subst hkey
      rw [if_pos rfl, Option.some_inj]
      refine ⟨fun h => ⟨(key, v), mem_cons_self, rfl, h⟩, ?_⟩
      rintro ⟨member, hmember, heq, h⟩
      rcases mem_cons.mp hmember with rfl | hmember
      · exact h
      · exact absurd (mem_map.mpr ⟨member, hmember, heq⟩) hfresh
    · rw [if_neg hkey, ih]
      refine ⟨fun ⟨member, hmember, h⟩ => ⟨member, mem_cons_of_mem _ hmember, h⟩, ?_⟩
      rintro ⟨member, hmember, heq, h⟩
      rcases mem_cons.mp hmember with rfl | hmember
      · exact absurd heq.symm hkey
      · exact ⟨member, hmember, heq, h⟩

end Meaning

/-! ### The canonical form determines the meaning -/

section Members

variable {α β : Type} {members members' : List (Text × Value F)}

/-- Members that have the same images under `f` have the same under `g`, if `f` tells values apart that `g` does. -/
theorem images_transfer {f : Value F → α} {g : Value F → β}
    (hfg : ∀ m ∈ members, ∀ m' ∈ members', f m.2 = f m'.2 → g m.2 = g m'.2)
    (h : ∀ key c, (∃ m ∈ members, m.1 = key ∧ f m.2 = c) ↔ ∃ m ∈ members', m.1 = key ∧ f m.2 = c) (key : Text) (c : β) :
    (∃ m ∈ members, m.1 = key ∧ g m.2 = c) ↔ ∃ m ∈ members', m.1 = key ∧ g m.2 = c := by
  constructor
  · rintro ⟨m, hm, hkey, rfl⟩
    obtain ⟨m', hm', hkey', heq⟩ := (h key (f m.2)).mp ⟨m, hm, hkey, rfl⟩
    exact ⟨m', hm', hkey', (hfg m hm m' hm' heq.symm).symm⟩
  · rintro ⟨m', hm', hkey, rfl⟩
    obtain ⟨m, hm, hkey', heq⟩ := (h key (f m'.2)).mpr ⟨m', hm', hkey, rfl⟩
    exact ⟨m, hm, hkey', hfg m hm m' hm' heq⟩

/-- A sort leaves nothing open: lists with one member a key are sorted alike exactly if they have the same members. -/
def Settles (sort : List (Text × Canonical) → List (Text × Canonical)) : Prop :=
  ∀ ⦃cs cs' : List (Text × Canonical)⦄, (cs.map Prod.fst).Nodup → (cs'.map Prod.fst).Nodup →
    (sort cs = sort cs' ↔ ∀ member, member ∈ cs ↔ member ∈ cs')

theorem settles_sortBy {κ : Type} [LinearOrder κ] {key : Text → κ} (hkey : Function.Injective key) :
    Settles (KeySort.sortBy fun member => key member.1) := by
  intro cs cs' hnodup hnodup'
  constructor
  · intro heq member
    rw [← KeySort.mem_sortBy (fun member : Text × Canonical => key member.1), heq, KeySort.mem_sortBy]
  · intro hmem
    refine KeySort.sortBy_eq_of_perm ((perm_ext_iff_of_nodup hnodup.of_map hnodup'.of_map).mpr hmem) ?_
    exact fun a ha b hb heq => inj_on_of_nodup_map hnodup ha hb (hkey heq)

end Members

section Canonical

variable {sort : List (Text × Canonical) → List (Text × Canonical)} {text : F → Text} {number : F → N}
variable {members members' : List (Text × Value F)}

theorem nodup_canonicalMembersBy (hnodup : (members.map Prod.fst).Nodup) :
    ((canonicalMembersBy sort text members).map Prod.fst).Nodup := by
  rw [canonicalMembersBy_eq_map, map_map]
  exact hnodup

theorem mem_canonicalMembersBy {key : Text} {c : Canonical} :
    (key, c) ∈ canonicalMembersBy sort text members ↔ ∃ m ∈ members, m.1 = key ∧ m.2.canonicalBy sort text = c := by
  rw [canonicalMembersBy_eq_map, mem_map]
  exact ⟨fun ⟨m, hm, heq⟩ => ⟨m, hm, (Prod.mk.inj heq).1, (Prod.mk.inj heq).2⟩,
    fun ⟨m, hm, hkey, hc⟩ => ⟨m, hm, by rw [hkey, hc]⟩⟩

theorem object_eq_iff (hsort : Settles sort) (hnodup : (members.map Prod.fst).Nodup)
    (hnodup' : (members'.map Prod.fst).Nodup)
    (ih : ∀ m ∈ members, ∀ m' ∈ members',
      m.2.canonicalBy sort text = m'.2.canonicalBy sort text ↔ m.2.meaningBy number = m'.2.meaningBy number) :
    (Value.object members).canonicalBy sort text = (Value.object members').canonicalBy sort text ↔
      (Value.object members).meaningBy number = (Value.object members').meaningBy number := by
  rw [Value.canonicalBy, Value.canonicalBy, Canonical.object.injEq, Value.meaningBy, Value.meaningBy,
    Meaning.object.injEq, hsort (nodup_canonicalMembersBy hnodup) (nodup_canonicalMembersBy hnodup')]
  simp only [Prod.forall, mem_canonicalMembersBy]
  constructor
  · intro h
    funext key
    refine Option.ext fun m => ?_
    rw [meaningMembers_eq_some number hnodup, meaningMembers_eq_some number hnodup']
    exact images_transfer (fun m hm m' hm' => (ih m hm m' hm').mp) h key m
  · intro h
    refine images_transfer (fun m hm m' hm' => (ih m hm m' hm').mpr) fun key m => ?_
    rw [← meaningMembers_eq_some number hnodup, ← meaningMembers_eq_some number hnodup', h]

theorem items_eq_iff : ∀ {items items' : List (Value F)},
    (∀ v ∈ items, ∀ w ∈ items',
      v.canonicalBy sort text = w.canonicalBy sort text ↔ v.meaningBy number = w.meaningBy number) →
    (canonicalItemsBy sort text items = canonicalItemsBy sort text items' ↔
      meaningItems number items = meaningItems number items')
  | [], [], _ => iff_of_true rfl rfl
  | [], _ :: _, _ => by simp [canonicalItemsBy, meaningItems]
  | _ :: _, [], _ => by simp [canonicalItemsBy, meaningItems]
  | v :: items, w :: items', ih => by
    have hfirst := ih v mem_cons_self w mem_cons_self
    have hrest := items_eq_iff fun v hv w hw => ih v (mem_cons_of_mem _ hv) w (mem_cons_of_mem _ hw)
    rw [canonicalItemsBy, canonicalItemsBy, meaningItems, meaningItems, cons.injEq, cons.injEq, hfirst, hrest]

/-- **Two legal values have the same canonical form exactly if they mean the same**, if the sort leaves nothing open and
numbers are written alike exactly if they compare equal. -/
theorem canonicalBy_eq_iff {ok : F → Prop} (hsort : Settles sort)
    (htext : ∀ n m, ok n → ok m → (text n = text m ↔ number n = number m)) (v : Value F) :
    ∀ w : Value F, v.Legal ok → w.Legal ok →
      (v.canonicalBy sort text = w.canonicalBy sort text ↔ v.meaningBy number = w.meaningBy number) := by
  induction v using Value.inductionOn with
  | null => rintro (_ | _ | _ | _ | _ | _) _ _ <;> simp [Value.canonicalBy, Value.meaningBy]
  | bool b => rintro (_ | _ | _ | _ | _ | _) _ _ <;> simp [Value.canonicalBy, Value.meaningBy]
  | string s => rintro (_ | _ | _ | _ | _ | _) _ _ <;> simp [Value.canonicalBy, Value.meaningBy]
  | number n =>
    rintro (_ | _ | m | _ | _ | _) hn hw
    case number =>
      rw [Value.canonicalBy, Value.canonicalBy, Value.meaningBy, Value.meaningBy, Canonical.number.injEq,
        Meaning.number.injEq]
      exact htext n m hn hw
    all_goals simp [Value.canonicalBy, Value.meaningBy]
  | array items ih =>
    rintro (_ | _ | _ | _ | items' | _) hv hw
    case array =>
      rw [Value.Legal, legalItems_iff] at hv hw
      rw [Value.canonicalBy, Value.canonicalBy, Value.meaningBy, Value.meaningBy, Canonical.array.injEq,
        Meaning.array.injEq]
      exact items_eq_iff fun v hmem w hmem' => ih v hmem w (hv v hmem) (hw w hmem')
    all_goals simp [Value.canonicalBy, Value.meaningBy]
  | object members ih =>
    rintro (_ | _ | _ | _ | _ | members') hv hw
    case object =>
      rw [Value.Legal, legalMembers_iff] at hv hw
      exact object_eq_iff hsort hv.1 hw.1 fun m hm m' hm' => ih m hm m'.2 (hv.2 m hm) (hw.2 m' hm')
    all_goals simp [Value.canonicalBy, Value.meaningBy]

end Canonical

end Json
end Mega
