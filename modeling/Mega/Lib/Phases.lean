/-
# Programs with operations of one kind

A program whose operations are all of a kind that keeps an invariant keeps it too,
whatever the answers are.

Key definitions: `Proc.Only`.
Key theorems: `Proc.Only.bind`, `Proc.Only.attempt`, `Proc.Only.safe`.
-/
import Mega.Lib.Interleave

namespace Proc

variable {Op : Type} {Res : Op → Type} {ε ε' α β : Type}

/-- Every operation that the program may come to satisfies `ok`. -/
def Only (ok : Op → Prop) : Proc Op Res ε α → Prop
  | ret _ => True
  | fail _ => True
  | call op next => ok op ∧ ∀ r, Only ok (next r)

section Only

variable {ok : Op → Prop}

theorem Only.bind {f : α → Proc Op Res ε β} : ∀ {x : Proc Op Res ε α}, Only ok x →
    (∀ a, Only ok (f a)) → Only ok (x >>= f)
  | ret a, _, hf => hf a
  | fail _, _, _ => trivial
  | call _ _, h, hf => ⟨h.1, fun r => Only.bind (h.2 r) hf⟩

theorem Only.attempt : ∀ {x : Proc Op Res ε α}, Only ok x →
    Only ok (x.attempt : Proc Op Res ε' (Except ε α))
  | ret _, _ => trivial
  | fail _, _ => trivial
  | call _ _, h => ⟨h.1, fun r => Only.attempt (h.2 r)⟩

theorem Only.require (c : Prop) [Decidable c] (e : ε) : Only ok (require c e : Proc Op Res ε Unit) := by
  unfold Proc.require
  split <;> trivial

/-- A program is safe whose operations keep the invariant and the relation, whatever the state is. -/
theorem Only.safe {σ ι : Type} {exec : ι → (op : Op) → σ → σ × Res op} {inv : σ → Prop} {rel : σ → σ → Prop}
    (hok : ∀ op, ok op → ∀ s, inv s → ∀ input, inv (exec input op s).1 ∧ rel s (exec input op s).1) :
    ∀ {x : Proc Op Res ε α}, Only ok x → ∀ s, Safe exec inv rel (fun _ _ => True) (fun _ _ => True) x s
  | ret _, _, _ => fun _ _ _ => trivial
  | fail _, _, _ => fun _ _ _ => trivial
  | call op _, hx, _ => fun t _ ht input =>
    ⟨(hok op hx.1 t ht input).1, (hok op hx.1 t ht input).2, Only.safe hok (hx.2 _) _⟩

end Only

end Proc
