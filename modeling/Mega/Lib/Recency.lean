/-
# Recency

Events use keys. `since uses events key` is how many events ago the key was last
used. A queue of keys is in the order of their last use, the one used last at the
end, and this stays so if a key that is used goes to the end.

Key definitions: `since`, `ByUse`.
Key theorems: `byUse_idle`, `byUse_touch`.
-/
import Mathlib

namespace Recency

open List

variable {ε κ : Type*} (uses : ε → κ → Bool)

/-- How many events came after the last one that used the key. -/
def since (events : List ε) (key : κ) : ℕ := events.reverse.findIdx fun e => uses e key

variable {uses} {events : List ε} {e : ε} {key : κ} {keys : List κ}

theorem since_of_uses (h : uses e key = true) : since uses (events ++ [e]) key = 0 := by
  rw [since, reverse_concat, findIdx_cons, h]
  rfl

theorem since_of_idle (h : uses e key = false) : since uses (events ++ [e]) key = since uses events key + 1 := by
  rw [since, reverse_concat, findIdx_cons, h]
  rfl

variable (uses) in
/-- The keys in the order of their last use. -/
def ByUse (events : List ε) (keys : List κ) : Prop :=
  keys.Pairwise fun a b => since uses events b < since uses events a

theorem ByUse.sublist {keys' : List κ} (h : ByUse uses events keys) (hsub : keys'.Sublist keys) :
    ByUse uses events keys' := Pairwise.sublist hsub h

/-- An event that uses none of the keys leaves their order. -/
theorem byUse_idle (h : ByUse uses events keys) (hidle : ∀ k ∈ keys, uses e k = false) :
    ByUse uses (events ++ [e]) keys := by
  refine h.imp_of_mem fun {a b} ha hb hab => ?_
  rw [since_of_idle (hidle a ha), since_of_idle (hidle b hb)]
  omega

/-- **The key that is used goes to the end.** -/
theorem byUse_touch (h : ByUse uses events keys) (hidle : ∀ k ∈ keys, uses e k = false) (huse : uses e key = true) :
    ByUse uses (events ++ [e]) (keys ++ [key]) := by
  refine pairwise_append.mpr ⟨byUse_idle h hidle, pairwise_singleton _ _, fun a ha b hb => ?_⟩
  rw [mem_singleton.mp hb, since_of_uses huse, since_of_idle (hidle a ha)]
  omega

end Recency
