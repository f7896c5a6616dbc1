import Mathlib.Data.List.Basic

/-! The lock operations of one thread, in the order in which it performs them.

A trace is clean when the thread never locks a mutex it holds, never unlocks one it does not
hold, and never acquires a mutex that the lock order bars behind one it holds. -/
namespace LockTrace

inductive Event (μ : Type*)
  | lock (m : μ)
  | unlock (m : μ)
  deriving DecidableEq, Repr

variable {μ : Type*} [DecidableEq μ]

/-- The mutexes that a thread holds behind a trace, the last acquired first. -/
def after : List μ → List (Event μ) → List μ
  | held, [] => held
  | held, .lock m::es => after (m::held) es
  | held, .unlock m::es => after (held.erase m) es

/-- `bars h m` says that `m` may not be acquired while `h` is held. -/
def Clean (bars : μ → μ → Bool) : List μ → List (Event μ) → Prop
  | _, [] => True
  | held, .lock m::es => m ∉ held ∧ (∀ h ∈ held, bars h m = false) ∧ Clean bars (m::held) es
  | held, .unlock m::es => m ∈ held ∧ Clean bars (held.erase m) es

variable {bars : μ → μ → Bool}

instance decidableClean : (held : List μ) → (es : List (Event μ)) → Decidable (Clean bars held es)
  | _, [] => inferInstanceAs (Decidable True)
  | held, .lock m::es =>
    have := decidableClean (m::held) es
    inferInstanceAs (Decidable (_ ∧ _ ∧ _))
  | held, .unlock m::es =>
    have := decidableClean (held.erase m) es
    inferInstanceAs (Decidable (_ ∧ _))

@[simp] theorem after_nil (held : List μ) : after held [] = held := rfl

@[simp] theorem clean_nil (held : List μ) : Clean bars held [] := trivial

theorem after_append (held : List μ) (es fs : List (Event μ)) :
    after held (es++fs) = after (after held es) fs := by
  induction es generalizing held with
  | nil => rfl
  | cons e es ih => cases e <;> exact ih _

theorem clean_append (held : List μ) (es fs : List (Event μ)) :
    Clean bars held (es++fs) ↔ Clean bars held es ∧ Clean bars (after held es) fs := by
  induction es generalizing held with
  | nil => simp
  | cons e es ih => cases e <;> simp [Clean,after,ih,and_assoc]

/-- The two ends of a critical section with nothing in between. -/
def pair (m : μ) : List (Event μ) := [.lock m,.unlock m]

@[simp] theorem after_pair (held : List μ) (m : μ) : after held (pair m) = held := by
  simp [pair,after]

theorem clean_pair (held : List μ) (m : μ) :
    Clean bars held (pair m) ↔ m ∉ held ∧ ∀ h ∈ held, bars h m = false := by
  simp [pair,Clean]

theorem after_pairs (held ms : List μ) : after held (ms.flatMap pair) = held := by
  induction ms with
  | nil => rfl
  | cons m ms ih => rw [List.flatMap_cons,after_append,after_pair,ih]

/-- A row of critical sections is clean when each of them is. -/
theorem clean_pairs (held ms : List μ) : Clean bars held (ms.flatMap pair) ↔
    ∀ m ∈ ms, m ∉ held ∧ ∀ h ∈ held, bars h m = false := by
  induction ms with
  | nil => simp
  | cons m ms ih =>
    rw [List.flatMap_cons,clean_append,after_pair,clean_pair,ih,List.forall_mem_cons]

end LockTrace
