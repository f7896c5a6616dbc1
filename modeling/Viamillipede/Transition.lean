import Mathlib.Logic.Function.Basic
import Mathlib.Data.List.Basic
import Mathlib.Logic.Relation

/-! Labelled step functions and the states their runs reach.

A run may be restricted by a condition on its steps: `ok s a` says that action
`a` may be taken in state `s`. Invariants, simulations and concrete runs are
all stated for such restricted runs; `fun _ _ => True` gives the full system. -/
namespace Transition

/-- A system whose nondeterminism is carried by the actions. -/
structure Machine (σ α : Type*) where
  init : σ → Prop
  step : σ → α → Option σ

variable {σ τ α β : Type*}

/-- The states reached from an initial one by steps that all meet `ok`. -/
inductive Reachable (M : Machine σ α) (ok : σ → α → Prop) : σ → Prop
  | init {s : σ} : M.init s → Reachable M ok s
  | step {s t : σ} {a : α} : Reachable M ok s → ok s a → M.step s a = some t → Reachable M ok t

/-- The same system with a history: each step adds what `note` says about it. -/
def Machine.record (M : Machine σ α) (note : σ → α → List β) : Machine (σ × List β) α where
  init p := M.init p.1 ∧ p.2 = []
  step p a := (M.step p.1 a).map fun t => (t,p.2++note p.1 a)

/-- No condition on the steps. -/
def anyStep : σ → α → Prop := fun _ _ => True

namespace Reachable

variable {M : Machine σ α} {ok : σ → α → Prop}

/-- The steps of a run meet what follows from the run so far. -/
theorem strengthen {ok' : σ → α → Prop} {s : σ} (hs : Reachable M ok s)
    (h : ∀ s a, Reachable M ok s → ok s a → ok' s a) : Reachable M ok' s := by
  induction hs with
  | init h0 => exact .init h0
  | step hr ha hst ih => exact .step ih (h _ _ hr ha) hst

theorem mono {ok' : σ → α → Prop} (h : ∀ s a, ok s a → ok' s a) {s : σ}
    (hs : Reachable M ok s) : Reachable M ok' s :=
  hs.strengthen fun s a _ => h s a

/-- What holds initially and is kept by every permitted step holds throughout. -/
theorem invariant {I : σ → Prop} (h0 : ∀ s, M.init s → I s)
    (hstep : ∀ s a t, Reachable M ok s → I s → ok s a → M.step s a = some t → I t)
    {s : σ} (hs : Reachable M ok s) : I s := by
  induction hs with
  | init h => exact h0 _ h
  | step hr ha hst ih => exact hstep _ _ _ hr ih ha hst

/-- A projection maps runs to runs when each step maps to a (possibly empty) run. -/
theorem simulate {N : Machine τ β} {ok' : τ → β → Prop} (f : σ → τ)
    (h0 : ∀ s, M.init s → N.init (f s))
    (hstep : ∀ s a t, Reachable M ok s → Reachable N ok' (f s) → ok s a →
      M.step s a = some t → Reachable N ok' (f t))
    {s : σ} (hs : Reachable M ok s) : Reachable N ok' (f s) := by
  induction hs with
  | init h => exact .init (h0 _ h)
  | step hr ha hst ih => exact hstep _ _ _ hr ih ha hst

/-- A history changes nothing about the runs. -/
theorem erase {note : σ → α → List β} {ok' : σ × List β → α → Prop} {p : σ × List β}
    (h : ∀ p a, ok' p a → ok p.1 a) (hp : Reachable (M.record note) ok' p) :
    Reachable M ok p.1 := by
  induction hp with
  | init h0 => exact .init h0.1
  | step hr ha hst ih =>
    obtain ⟨t,ht,rfl⟩ := Option.map_eq_some_iff.mp hst
    exact .step ih (h _ _ ha) ht

end Reachable

/-- One permitted step. -/
def Machine.Next (M : Machine σ α) (ok : σ → α → Prop) (s t : σ) : Prop :=
  ∃ a, ok s a ∧ M.step s a = some t

/-- Some permitted steps, one after the other. -/
def Machine.Leads (M : Machine σ α) (ok : σ → α → Prop) : σ → σ → Prop :=
  Relation.ReflTransGen (M.Next ok)

section Leads

variable {M : Machine σ α} {ok : σ → α → Prop}

theorem Reachable.next {s t : σ} (hs : Reachable M ok s) (h : M.Next ok s t) :
    Reachable M ok t := by
  obtain ⟨a,ha,hstep⟩ := h
  exact hs.step ha hstep

theorem Reachable.leads {s t : σ} (hs : Reachable M ok s) (h : M.Leads ok s t) :
    Reachable M ok t := by
  induction h with
  | refl => exact hs
  | tail _ hnext ih => exact ih.next hnext

/-- What every step carries over is carried over by any number of them. -/
theorem Reachable.keeps {ok' : σ → α → Prop} (hok : ∀ s a, ok' s a → ok s a) {r : σ → σ → Prop}
    (hrefl : ∀ s, r s s) (htrans : ∀ s t u, r s t → r t u → r s u)
    (hnext : ∀ s a t, Reachable M ok s → ok' s a → M.step s a = some t → r s t) {s t : σ}
    (hs : Reachable M ok s) (h : M.Leads ok' s t) : Reachable M ok t ∧ r s t := by
  induction h with
  | refl => exact ⟨hs,hrefl s⟩
  | tail hleads hstep ih =>
    obtain ⟨a,ha,hstep⟩ := hstep
    exact ⟨ih.1.step (hok _ _ ha) hstep,htrans _ _ _ ih.2 (hnext _ _ _ ih.1 ha hstep)⟩

theorem Machine.Leads.mono {ok' : σ → α → Prop} (hok : ∀ s a, ok s a → ok' s a) {s t : σ}
    (h : M.Leads ok s t) : M.Leads ok' s t :=
  Relation.ReflTransGen.mono (fun _ _ ⟨a,ha,hstep⟩ => ⟨a,hok _ _ ha,hstep⟩) _ _ h

/-- A goal can be reached when short of it some steps lower a rank. -/
theorem Reachable.exists_leads {ok' : σ → α → Prop} (hok : ∀ s a, ok' s a → ok s a)
    {goal : σ → Prop} (rank : σ → ℕ)
    (hlower : ∀ s, Reachable M ok s → ¬ goal s → ∃ t, M.Leads ok' s t ∧ rank t < rank s) {s : σ}
    (hs : Reachable M ok s) : ∃ t, M.Leads ok' s t ∧ goal t := by
  induction h : rank s using Nat.strongRecOn generalizing s with
  | ind r ih =>
    by_cases hgoal : goal s
    · exact ⟨s,.refl,hgoal⟩
    · obtain ⟨t,hleads,hlt⟩ := hlower s hs hgoal
      obtain ⟨u,hmore,hu⟩ := ih (rank t) (h ▸ hlt) (hs.leads (hleads.mono hok)) rfl
      exact ⟨u,hleads.trans hmore,hu⟩

/-- None of the steps can be taken. -/
def Machine.Rests (M : Machine σ α) (ok : σ → α → Prop) (s : σ) : Prop :=
  ∀ a t, ok s a → M.step s a ≠ some t

/-- Steps that lower a rank come to an end. -/
theorem Reachable.exists_rests {ok' : σ → α → Prop} (hok : ∀ s a, ok' s a → ok s a) (rank : σ → ℕ)
    (hlower : ∀ s a t, Reachable M ok s → ok' s a → M.step s a = some t → rank t < rank s) {s : σ}
    (hs : Reachable M ok s) : ∃ t, M.Leads ok' s t ∧ M.Rests ok' t := by
  induction h : rank s using Nat.strongRecOn generalizing s with
  | ind r ih =>
    by_cases hrests : M.Rests ok' s
    · exact ⟨s,.refl,hrests⟩
    · simp only [Machine.Rests,not_forall,not_not] at hrests
      obtain ⟨a,t,ha,hstep⟩ := hrests
      obtain ⟨u,hmore,hu⟩ := ih (rank t) (h ▸ hlower s a t hs ha hstep) (hs.step (hok s a ha) hstep) rfl
      exact ⟨u,.head ⟨a,ha,hstep⟩ hmore,hu⟩

/-- The abstraction maps initial states to initial states and each step to steps. -/
structure Refines (M : Machine σ α) (ok : σ → α → Prop) (N : Machine τ β) (f : σ → τ) : Prop where
  init : ∀ s, M.init s → N.init (f s)
  step : ∀ s a t, Reachable M ok s → ok s a → M.step s a = some t → N.Leads anyStep (f s) (f t)

namespace Refines

variable {N : Machine τ β} {f : σ → τ}

theorem reachable (h : Refines M ok N f) {s : σ} (hs : Reachable M ok s) :
    Reachable N anyStep (f s) :=
  hs.simulate f h.init fun s a t hr hf ha hstep => hf.leads (h.step s a t hr ha hstep)

theorem leads (h : Refines M ok N f) {s t : σ} (hs : Reachable M ok s) (hst : M.Leads ok s t) :
    N.Leads anyStep (f s) (f t) :=
  (hs.keeps (r := fun s t => N.Leads anyStep (f s) (f t)) (fun _ _ ha => ha) (fun _ => .refl)
    (fun _ _ _ => .trans) h.step hst).2

end Refines

end Leads

instance (s : σ) (a : α) : Decidable (anyStep s a) := inferInstanceAs (Decidable True)

/-- Concrete runs are of one party or of two, which are numbered by literals. -/
instance oneParty : @NeZero ℕ Zero.ofOfNat0 1 := ⟨Nat.one_ne_zero⟩

instance twoParties : @NeZero ℕ Zero.ofOfNat0 2 := ⟨Nat.succ_ne_zero 1⟩

/-- Follow a list of actions; `none` when one of them is not enabled or not permitted. -/
def exec (M : Machine σ α) (ok : σ → α → Prop) [∀ s a, Decidable (ok s a)] :
    σ → List α → Option σ
  | s, [] => some s
  | s, a::as => if ok s a then (M.step s a).bind fun t => exec M ok t as else none

section Exec

variable {M : Machine σ α} {ok : σ → α → Prop} [∀ s a, Decidable (ok s a)]

theorem reachable_exec {s t : σ} {as : List α} (hs : Reachable M ok s)
    (he : exec M ok s as = some t) : Reachable M ok t := by
  induction as generalizing s with
  | nil => cases he; exact hs
  | cons a as ih =>
    simp only [exec] at he
    split at he
    · rename_i ha
      obtain ⟨u,hu,he⟩ := Option.bind_eq_some_iff.mp he
      exact ih (.step hs ha hu) he
    · cases he

/-- A concrete run and what its last state satisfies. -/
theorem exists_reachable {s : σ} {as : List α} {P : σ → Prop} (hs : M.init s)
    (h : ∃ t ∈ exec M ok s as, P t) : ∃ t, Reachable M ok t ∧ P t := by
  obtain ⟨t,ht,hP⟩ := h
  exact ⟨t,reachable_exec (.init hs) ht,hP⟩

end Exec

end Transition
