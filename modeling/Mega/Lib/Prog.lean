/-
# Programs with state and faults

A program may read and change a state and may stop with a fault; the state it
reached stays either way. `Triple x s Q F` says what holds after running `x`
from `s`: `Q` of the value and the state if it returns, `F` of the fault and
the state if it stops.

Key definitions: `Prog`, `Prog.exec`, `Triple`.
Key theorems: `exec_bind`, `Triple.bind`, `Triple.conseq`, `Triple.and`.
-/
import Mathlib

/-- A program over the state `S` with faults `E`. -/
abbrev Prog (S E α : Type) := ExceptT E (StateM S) α

namespace Prog

variable {S E α β : Type}

/-- Runs a program: its outcome and the state after it. -/
def exec (x : Prog S E α) (s : S) : Except E α × S := x.run.run s

theorem exec_bind (x : Prog S E α) (f : α → Prog S E β) (s : S) :
    exec (x >>= f) s =
      match exec x s with
      | (.ok a, s') => exec (f a) s'
      | (.error e, s') => (.error e, s') := by
  change ExceptT.bindCont f (exec x s).1 (exec x s).2 = _
  rcases exec x s with ⟨_ | _, _⟩ <;> rfl

/-- What holds after running `x` from `s`. -/
def Triple (x : Prog S E α) (s : S) (Q : α → S → Prop) (F : E → S → Prop) : Prop :=
  match exec x s with
  | (.ok a, s') => Q a s'
  | (.error e, s') => F e s'

variable {x : Prog S E α} {f : α → Prog S E β} {s s' : S} {Q Q' : α → S → Prop} {R : β → S → Prop}
  {F F' : E → S → Prop}

theorem Triple.of_ok (h : Triple x s Q F) {a : α} (hx : exec x s = (.ok a, s')) : Q a s' := by
  rwa [Triple, hx] at h

theorem Triple.of_error (h : Triple x s Q F) {e : E} (hx : exec x s = (.error e, s')) : F e s' := by
  rwa [Triple, hx] at h

theorem Triple.pure {a : α} (h : Q a s) : Triple (pure a : Prog S E α) s Q F := h

theorem Triple.throw {e : E} (h : F e s) : Triple (throw e : Prog S E α) s Q F := h

theorem Triple.get_bind {f : S → Prog S E β} (h : Triple (f s) s R F) :
    Triple (MonadStateOf.get >>= f : Prog S E β) s R F := h

theorem Triple.modify_bind {g : S → S} {f : PUnit → Prog S E β} (h : Triple (f ⟨⟩) (g s) R F) :
    Triple ((MonadState.modifyGet fun s => (⟨⟩, g s)) >>= f : Prog S E β) s R F := h

theorem Triple.conseq (h : Triple x s Q F) (hQ : ∀ a s', Q a s' → Q' a s')
    (hF : ∀ e s', F e s' → F' e s') : Triple x s Q' F' := by
  unfold Triple at h ⊢
  split at h
  · exact hQ _ _ h
  · exact hF _ _ h

theorem Triple.and (h : Triple x s Q F) (h' : Triple x s Q' F') :
    Triple x s (fun a s' => Q a s' ∧ Q' a s') (fun e s' => F e s' ∧ F' e s') := by
  unfold Triple at h h' ⊢
  rcases hx : exec x s with ⟨_ | _, _⟩
  · rw [hx] at h h'
    exact ⟨h, h'⟩
  · rw [hx] at h h'
    exact ⟨h, h'⟩

theorem Triple.bind (hx : Triple x s Q F) (hf : ∀ a s', Q a s' → Triple (f a) s' R F) :
    Triple (x >>= f) s R F := by
  unfold Triple at hx ⊢
  rw [exec_bind]
  split at hx
  · exact hf _ _ hx
  · exact hx

end Prog
