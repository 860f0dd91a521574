/-
# Programs that share a state

A program acts on a shared state by atomic operations and goes on with their
answers. A pool of such programs runs in any interleaving; each operation takes
an input from outside, such as a time, a fresh name or a fault. A program is
`Safe` for an invariant and a relation if each of its operations keeps the
invariant and changes the state as the relation says, whatever the others did in
between as long as they changed it so too. A pool of safe programs keeps the
invariant, and a program that ends has reached its goal.

Key definitions: `Proc`, `Proc.Safe`, `Pool`, `Pool.step`.
Key theorems: `Proc.Safe.bind`, `Proc.Safe.attempt`, `Pool.Safe.run_rel`.
-/
import Mega.Lib.Run

/-- A program over the operations `Op`; an operation `op` answers with a `Res op`. -/
inductive Proc (Op : Type) (Res : Op → Type) (ε α : Type) where
  | ret (a : α)
  | fail (e : ε)
  | call (op : Op) (next : Res op → Proc Op Res ε α)

namespace Proc

variable {Op : Type} {Res : Op → Type} {ε ε' α β σ ι : Type}

def bind : Proc Op Res ε α → (α → Proc Op Res ε β) → Proc Op Res ε β
  | ret a, f => f a
  | fail e, _ => fail e
  | call op next, f => call op fun r => (next r).bind f

instance : Monad (Proc Op Res ε) where
  pure := ret
  bind := bind

@[simp] theorem ret_bind (a : α) (f : α → Proc Op Res ε β) : (ret a >>= f) = f a := rfl

/-- Goes on after a failure too. -/
def attempt : Proc Op Res ε α → Proc Op Res ε' (Except ε α)
  | ret a => ret (.ok a)
  | fail e => ret (.error e)
  | call op next => call op fun r => (next r).attempt

/-- Goes on only if the condition holds. -/
def require (c : Prop) [Decidable c] (e : ε) : Proc Op Res ε Unit := if c then ret () else fail e

/-- The value of a program that has returned. -/
def value? : Proc Op Res ε α → Option α
  | ret a => some a
  | _ => none

/-! ### Safe programs -/

section Safe

variable (exec : ι → (op : Op) → σ → σ × Res op) (inv : σ → Prop) (rel : σ → σ → Prop)

/-- From `s` on, each operation keeps `inv` and changes the state as `rel` says; a value that is returned
satisfies `Q` and a failure `F`. In between the state may change as `rel` says. -/
def Safe (Q : α → σ → Prop) (F : ε → σ → Prop) : Proc Op Res ε α → σ → Prop
  | ret a, s => ∀ t, rel s t → inv t → Q a t
  | fail e, s => ∀ t, rel s t → inv t → F e t
  | call op next, s => ∀ t, rel s t → inv t → ∀ input,
      inv (exec input op t).1 ∧ rel t (exec input op t).1 ∧
        Safe Q F (next (exec input op t).2) (exec input op t).1

variable {exec inv rel} {Q Q' : α → σ → Prop} {R : β → σ → Prop} {F F' : ε → σ → Prop}
  {x : Proc Op Res ε α} {s t : σ}

theorem Safe.later (htrans : ∀ a b c, rel a b → rel b c → rel a c) (h : Safe exec inv rel Q F x s)
    (hst : rel s t) : Safe exec inv rel Q F x t := by
  cases x with
  | ret a => exact fun u htu => h u (htrans _ _ _ hst htu)
  | fail e => exact fun u htu => h u (htrans _ _ _ hst htu)
  | call op next => exact fun u htu => h u (htrans _ _ _ hst htu)

/-- The goal may be weakened by what holds after every change from `s` on. -/
theorem Safe.conseq (htrans : ∀ a b c, rel a b → rel b c → rel a c) :
    ∀ {x : Proc Op Res ε α} {s : σ}, Safe exec inv rel Q F x s →
      (∀ a t, rel s t → inv t → Q a t → Q' a t) → (∀ e t, rel s t → inv t → F e t → F' e t) →
      Safe exec inv rel Q' F' x s
  | ret a, _, h, hQ, _ => fun t hst ht => hQ a t hst ht (h t hst ht)
  | fail e, _, h, _, hF => fun t hst ht => hF e t hst ht (h t hst ht)
  | call _ _, _, h, hQ, hF => by
    intro t hst ht input
    obtain ⟨hinv, hrel, hnext⟩ := h t hst ht input
    refine ⟨hinv, hrel, Safe.conseq htrans hnext ?_ ?_⟩
    · exact fun a u htu => hQ a u (htrans _ _ _ hst (htrans _ _ _ hrel htu))
    · exact fun e u htu => hF e u (htrans _ _ _ hst (htrans _ _ _ hrel htu))

/-- What follows a program starts where it left off, after any change by the others. -/
theorem Safe.bind (hrefl : ∀ a, rel a a) (htrans : ∀ a b c, rel a b → rel b c → rel a c)
    {f : α → Proc Op Res ε β} :
    ∀ {x : Proc Op Res ε α} {s : σ}, inv s → Safe exec inv rel Q F x s →
      (∀ a t, rel s t → inv t → Q a t → Safe exec inv rel R F (f a) t) →
      Safe exec inv rel R F (x >>= f) s
  | ret a, s, hs, h, hf => hf a s (hrefl s) hs (h s (hrefl s) hs)
  | fail _, _, _, h, _ => h
  | call op next, s, _, h, hf => by
    intro t hst ht input
    obtain ⟨hinv, hrel, hnext⟩ := h t hst ht input
    refine ⟨hinv, hrel, Safe.bind hrefl htrans hinv hnext ?_⟩
    intro a u htu
    exact hf a u (htrans _ _ _ hst (htrans _ _ _ hrel htu))

theorem Safe.attempt {G : ε' → σ → Prop} {Q : Except ε α → σ → Prop} :
    ∀ {x : Proc Op Res ε α} {s : σ},
      Safe exec inv rel (fun a => Q (.ok a)) (fun e => Q (.error e)) x s →
      Safe exec inv rel Q G x.attempt s
  | ret _, _, h => h
  | fail _, _, h => h
  | call _ _, _, h => fun t hst ht input =>
    ⟨(h t hst ht input).1, (h t hst ht input).2.1, Safe.attempt (h t hst ht input).2.2⟩

end Safe

end Proc

/-! ### Pools of programs -/

/-- A program under way for a request. -/
structure Thread (Op : Type) (Res : Op → Type) (ε α ρ : Type) where
  request : ρ
  code : Proc Op Res ε α

structure Pool (σ : Type) (Op : Type) (Res : Op → Type) (ε α ρ : Type) where
  shared : σ
  threads : List (Thread Op Res ε α ρ)

namespace Pool

/-- A request comes in, or the program at a position does its next operation. -/
inductive Event (ρ ι : Type) where
  | start (request : ρ)
  | advance (thread : ℕ) (input : ι)
deriving DecidableEq

variable {Op : Type} {Res : Op → Type} {ε α ρ σ ι : Type}

/-- The operation that an event does. -/
def Event.op? (pool : Pool σ Op Res ε α ρ) : Event ρ ι → Option Op
  | .start _ => none
  | .advance i _ =>
    match pool.threads[i]? with
    | some ⟨_, .call op _⟩ => some op
    | _ => none

variable (exec : ι → (op : Op) → σ → σ × Res op) (code : ρ → Proc Op Res ε α)

def advance (pool : Pool σ Op Res ε α ρ) (i : ℕ) (input : ι) : Pool σ Op Res ε α ρ :=
  match pool.threads[i]? with
  | some ⟨request, .call op next⟩ =>
    ⟨(exec input op pool.shared).1, pool.threads.set i ⟨request, next (exec input op pool.shared).2⟩⟩
  | _ => pool

def step (pool : Pool σ Op Res ε α ρ) : Event ρ ι → Pool σ Op Res ε α ρ
  | .start request => { pool with threads := pool.threads ++ [⟨request, code request⟩] }
  | .advance i input => advance exec pool i input

variable {exec code}

theorem shared_advance (pool : Pool σ Op Res ε α ρ) {i : ℕ} {input : ι} {op : Op}
    (h : (Event.advance i input : Event ρ ι).op? pool = some op) :
    (step exec code pool (.advance i input)).shared = (exec input op pool.shared).1 := by
  simp only [Event.op?] at h
  simp only [step, advance]
  split at h
  · cases h
    rfl
  · cases h

theorem shared_of_op?_eq_none (pool : Pool σ Op Res ε α ρ) {event : Event ρ ι} (h : event.op? pool = none) :
    (step exec code pool event).shared = pool.shared := by
  cases event with
  | start request => rfl
  | advance i input =>
    simp only [Event.op?] at h
    simp only [step, advance]
    split at h
    · cases h
    · rfl

variable (exec code) in
/-- A step leaves the shared state alone or does the operation of its event. -/
theorem shared_step (pool : Pool σ Op Res ε α ρ) (event : Event ρ ι) :
    (step exec code pool event).shared = pool.shared ∨
      ∃ i input op, event = .advance i input ∧ event.op? pool = some op ∧
        (step exec code pool event).shared = (exec input op pool.shared).1 := by
  cases hop : event.op? pool with
  | none => exact Or.inl (shared_of_op?_eq_none pool hop)
  | some op =>
    cases event with
    | start request => cases hop
    | advance i input => exact Or.inr ⟨i, input, op, rfl, rfl, shared_advance pool hop⟩

/-- A program that has returned, found at its position. -/
theorem mem_threads_of_value? {pool : Pool σ Op Res ε α ρ} (i : ℕ) {request : ρ} {a : α}
    (h : pool.threads[i]?.map (fun thread => (thread.request, thread.code.value?)) = some (request, some a)) :
    ⟨request, .ret a⟩ ∈ pool.threads := by
  cases hget : pool.threads[i]? with
  | none => simp [hget] at h
  | some thread =>
    obtain ⟨request', code⟩ := thread
    simp only [hget, Option.map_some, Option.some.injEq, Prod.mk.injEq] at h
    obtain ⟨rfl, hvalue⟩ := h
    cases code with
    | ret b =>
      cases hvalue
      exact List.mem_of_getElem? hget
    | fail e => cases hvalue
    | call op next => cases hvalue

section Safe

variable (exec) (inv : σ → Prop) (rel : σ → σ → Prop) (goal : ρ → α → σ → Prop)

/-- The invariant holds and every program under way is safe and reaches the goal of its request. -/
structure Safe (pool : Pool σ Op Res ε α ρ) : Prop where
  shared : inv pool.shared
  threads : ∀ thread ∈ pool.threads,
    Proc.Safe exec inv rel (goal thread.request) (fun _ _ => True) thread.code pool.shared

variable {exec inv rel goal}

/-- A request comes in whose program is safe. -/
theorem Safe.start {request : ρ}
    (hcode : ∀ s, inv s → Proc.Safe exec inv rel (goal request) (fun _ _ => True) (code request) s)
    {pool : Pool σ Op Res ε α ρ} (h : Safe exec inv rel goal pool) :
    Safe exec inv rel goal (Pool.step exec code pool (.start request : Event ρ ι)) := by
  refine ⟨h.shared, ?_⟩
  intro thread hthread
  rcases List.mem_append.mp hthread with hthread | hthread
  · exact h.threads thread hthread
  · rw [List.mem_singleton.mp hthread]
    exact hcode pool.shared h.shared

/-- One of the programs does its next operation. -/
theorem Safe.advance (hrefl : ∀ a, rel a a) (htrans : ∀ a b c, rel a b → rel b c → rel a c)
    {pool : Pool σ Op Res ε α ρ} (h : Safe exec inv rel goal pool) (i : ℕ) (input : ι) :
    Safe exec inv rel goal (Pool.step exec code pool (.advance i input)) := by
  simp only [Pool.step, Pool.advance]
  split
  · rename_i request op next hget
    have hmem : (⟨request, .call op next⟩ : Thread Op Res ε α ρ) ∈ pool.threads := List.mem_of_getElem? hget
    obtain ⟨hinv, hrel, hnext⟩ := h.threads _ hmem pool.shared (hrefl _) h.shared input
    refine ⟨hinv, ?_⟩
    intro thread hthread
    rcases List.mem_or_eq_of_mem_set hthread with hthread | rfl
    · exact (h.threads thread hthread).later htrans hrel
    · exact hnext
  · exact h

theorem Safe.step (hrefl : ∀ a, rel a a) (htrans : ∀ a b c, rel a b → rel b c → rel a c) {event : Event ρ ι}
    (hcode : ∀ request, event = .start request → ∀ s, inv s →
      Proc.Safe exec inv rel (goal request) (fun _ _ => True) (code request) s)
    {pool : Pool σ Op Res ε α ρ} (h : Safe exec inv rel goal pool) :
    Safe exec inv rel goal (Pool.step exec code pool event) ∧
      rel pool.shared (Pool.step exec code pool event).shared := by
  cases event with
  | start request => exact ⟨h.start (hcode request rfl), hrefl _⟩
  | advance i input =>
    refine ⟨h.advance hrefl htrans i input, ?_⟩
    simp only [Pool.step, Pool.advance]
    split
    · rename_i hget
      exact (h.threads _ (List.mem_of_getElem? hget) pool.shared (hrefl _) h.shared input).2.1
    · exact hrefl _

/-- **A pool of safe programs stays safe**, however the programs are interleaved, and the state changes as the
relation says: the programs of the requests that come in must be safe too. -/
theorem Safe.run_rel (hrefl : ∀ a, rel a a) (htrans : ∀ a b c, rel a b → rel b c → rel a c) :
    ∀ {events : List (Event ρ ι)}, (∀ request, .start request ∈ events → ∀ s, inv s →
        Proc.Safe exec inv rel (goal request) (fun _ _ => True) (code request) s) →
      ∀ {pool : Pool σ Op Res ε α ρ}, Safe exec inv rel goal pool →
        Safe exec inv rel goal (Run.run (Pool.step exec code) pool events) ∧
          rel pool.shared (Run.run (Pool.step exec code) pool events).shared
  | [], _, _, h => ⟨h, hrefl _⟩
  | event :: events, hcode, pool, h => by
    obtain ⟨hnext, hstep⟩ := h.step hrefl htrans fun request heq => hcode request (heq ▸ List.mem_cons_self)
    obtain ⟨hsafe, hrel⟩ :=
      Safe.run_rel hrefl htrans (fun request hmem => hcode request (List.mem_cons_of_mem _ hmem)) hnext
    exact ⟨hsafe, htrans _ _ _ hstep hrel⟩

/-- A program that has returned reached its goal. -/
theorem Safe.goal_of_ret (hrefl : ∀ a, rel a a) {pool : Pool σ Op Res ε α ρ} (h : Safe exec inv rel goal pool)
    {request : ρ} {a : α} (hthread : ⟨request, .ret a⟩ ∈ pool.threads) : goal request a pool.shared :=
  h.threads _ hthread pool.shared (hrefl _) h.shared

end Safe

end Pool
