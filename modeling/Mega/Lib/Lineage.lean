/-
# Lines of descent

A table of parents, `parents c = some ps` if `c` is known. A `Line` is a list,
newest first, in which every element's only parent is the next one and the last
has none. A `Descent` is such a list without the condition on its last element.
A line is determined by its newest element (`Line.eq_of_cons`), so nothing
occurs twice in it (`Line.nodup`): an element cannot be at two distances from
the end.

Key definitions: `Line`, `Descent`.
Key theorems: `Line.eq_of_cons`, `Line.nodup`, `Descent.append_line`, `Descent.prefix_of_line`.
-/
import Mathlib

namespace Lineage

variable {α : Type*} {parents parents' : α → Option (List α)}

/-- Newest first, down to an element without parents. -/
def Line (parents : α → Option (List α)) : List α → Prop
  | [] => True
  | c :: rest => parents c = some rest.head?.toList ∧ Line parents rest

/-- Newest first: the only parent of each is the next. -/
def Descent (parents : α → Option (List α)) (l : List α) : Prop :=
  l.IsChain fun c p => parents c = some [p]

theorem Line.mono (hsub : ∀ c ps, parents c = some ps → parents' c = some ps) : ∀ {l : List α},
    Line parents l → Line parents' l
  | [], _ => trivial
  | c :: _, h => ⟨hsub c _ h.1, Line.mono hsub h.2⟩

theorem Descent.mono (hsub : ∀ c ps, parents c = some ps → parents' c = some ps) {l : List α}
    (h : Descent parents l) : Descent parents' l :=
  List.IsChain.imp (fun c _ hc => hsub c _ hc) h

theorem Line.of_append : ∀ {l l' : List α}, Line parents (l ++ l') → Line parents l'
  | [], _, h => h
  | _ :: _, _, h => Line.of_append h.2

/-- A line is determined by its newest element. -/
theorem Line.eq_of_cons : ∀ {c : α} {l l' : List α}, Line parents (c :: l) → Line parents (c :: l') → l = l'
  | c, l, l', h, h' => by
    have hhead : l.head?.toList = l'.head?.toList := Option.some.inj (h.1.symm.trans h'.1)
    rcases l with _ | ⟨p, l⟩ <;> rcases l' with _ | ⟨p', l'⟩
    · rfl
    · simp at hhead
    · simp at hhead
    · have hp : p = p' := by simpa using hhead
      subst hp
      rw [Line.eq_of_cons h.2 h'.2]

/-- **Nothing occurs twice in a line.** -/
theorem Line.nodup : ∀ {l : List α}, Line parents l → l.Nodup
  | [], _ => List.nodup_nil
  | c :: l, h => by
    refine List.nodup_cons.mpr ⟨fun hmem => ?_, Line.nodup h.2⟩
    obtain ⟨a, b, rfl⟩ := List.append_of_mem hmem
    -- the line from the second occurrence would be the whole line
    have heq := Line.eq_of_cons h (Line.of_append h.2)
    have hlen := congrArg List.length heq
    simp at hlen
    omega

theorem Descent.append_line {l : List α} {t : α} {rest : List α} (h : Descent parents (l ++ [t]))
    (hline : Line parents (t :: rest)) : Line parents (l ++ t :: rest) := by
  induction l with
  | nil => exact hline
  | cons c l ih =>
    have hrest : Descent parents (l ++ [t]) := List.IsChain.tail h
    refine ⟨?_, ih hrest⟩
    rcases l with _ | ⟨p, l⟩
    · exact (List.isChain_cons_cons.mp h).1
    · exact (List.isChain_cons_cons.mp h).1

/-- A descent from the newest element of a line runs along the line. -/
theorem Descent.prefix_of_line : ∀ {c : α} {l l' : List α},
    Descent parents (c :: l) → Line parents (c :: l') → c :: l <+: c :: l'
  | c, [], l', _, _ => List.prefix_append [c] l'
  | c, p :: l, [], h, h' => by
    have hparents : parents c = some [p] := (List.isChain_cons_cons.mp h).1
    rw [h'.1] at hparents
    simp at hparents
  | c, p :: l, p' :: l', h, h' => by
    obtain ⟨hparents, hrest⟩ := List.isChain_cons_cons.mp h
    obtain rfl : p' = p := by
      rw [h'.1] at hparents
      simpa using hparents
    exact List.cons_prefix_cons.mpr ⟨rfl, Descent.prefix_of_line hrest h'.2⟩

theorem Descent.append {l l' : List α} (h : Descent parents l) (h' : Descent parents l')
    (hlink : ∀ c ∈ l.getLast?, ∀ p ∈ l'.head?, parents c = some [p]) : Descent parents (l ++ l') :=
  List.isChain_append.mpr ⟨h, h', hlink⟩

end Lineage
