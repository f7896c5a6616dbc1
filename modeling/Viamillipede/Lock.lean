import Mathlib.Logic.Basic

/-! A lock recorded by its owner, and the threads inside the sections that it guards. -/
namespace Lock

variable {τ : Type*}

/-- The owner, if there is one, is inside, and nobody else is. -/
def Guards (owner : Option τ) (inside : τ → Bool) : Prop :=
  ∀ t, owner = some t ↔ inside t = true

/-- What a step of a thread does to the lock, given whether it was inside and is now. -/
inductive Use (t : τ) (owner owner' : Option τ) (was now : Bool) : Prop
  | keep : owner' = owner → now = was → Use t owner owner' was now
  | take : owner = none → owner' = some t → now = true → Use t owner owner' was now
  | give : was = true → owner' = none → now = false → Use t owner owner' was now

namespace Guards

variable {owner owner' : Option τ} {inside inside' : τ → Bool}

theorem none (h : ∀ t, inside t = false) : Guards (none : Option τ) inside := fun t => by
  simp [h t]

theorem unique (h : Guards owner inside) {t u : τ} (ht : inside t = true) (hu : inside u = true) :
    t = u := by
  have howner := (h t).mpr ht
  rw [(h u).mpr hu] at howner
  exact (Option.some.inj howner).symm

theorem outside_of_free (h : Guards owner inside) (hfree : owner = Option.none) (t : τ) :
    inside t = false := by
  have hiff := h t
  rw [hfree] at hiff
  simpa using hiff

/-- A step of one thread, while the others stay where they are. -/
theorem use (h : Guards owner inside) {t : τ} (hu : Use t owner owner' (inside t) (inside' t))
    (hothers : ∀ u, u ≠ t → inside' u = inside u) : Guards owner' inside' := by
  intro u
  rcases eq_or_ne u t with rfl | hne
  · cases hu with
    | keep howner hnow => rw [howner,hnow]; exact h u
    | take _ howner hnow => simp [howner,hnow]
    | give _ howner hnow => simp [howner,hnow]
  · rw [hothers u hne]
    cases hu with
    | keep howner _ => rw [howner]; exact h u
    | take hfree howner _ => simp [howner,hne.symm,h.outside_of_free hfree u]
    | give hwas howner _ =>
      rw [howner]
      refine ⟨nofun,fun hinside => absurd (h.unique hinside hwas) hne⟩

end Guards

end Lock
