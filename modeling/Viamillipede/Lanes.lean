import Mathlib.Data.List.Basic
import Mathlib.Algebra.BigOperators.Ring.Finset
import Mathlib.Algebra.Order.BigOperators.Group.Finset
import Mathlib.Data.Fintype.BigOperators

/-! A list that is dealt out to lanes: what each lane got, in order.

The lanes are the fibres of a key. They are what the workers of a striped transfer
carry; the lemmas put them together again. -/
namespace Lanes

open scoped BigOperators

variable {ι α : Type*} [DecidableEq ι] (key : α → ι)

/-- The items dealt to lane `i`. -/
def lane (i : ι) (xs : List α) : List α := xs.filter fun x => key x = i

@[simp] theorem lane_nil (i : ι) : lane key i [] = [] := rfl

@[simp] theorem lane_append (i : ι) (xs ys : List α) :
    lane key i (xs++ys) = lane key i xs ++ lane key i ys := List.filter_append ..

theorem lane_singleton (i : ι) (x : α) : lane key i [x] = if key x = i then [x] else [] := by
  by_cases h : key x = i <;> simp [lane,h]

variable {key}

@[simp] theorem lane_singleton_self {i : ι} {x : α} (h : key x = i) : lane key i [x] = [x] := by
  simp [lane_singleton,h]

theorem lane_singleton_ne {i : ι} {x : α} (h : key x ≠ i) : lane key i [x] = [] := by
  simp [lane_singleton,h]

theorem mem_lane {i : ι} {x : α} {xs : List α} : x ∈ lane key i xs ↔ x ∈ xs ∧ key x = i := by
  simp [lane]

/-- The first item of a lane, where it is in the whole. -/
theorem exists_split {i : ι} {x : α} {xs l : List α} (h : lane key i xs = x::l) :
    ∃ pre post, xs = pre++x::post ∧ lane key i pre = [] ∧ key x = i ∧ lane key i post = l := by
  obtain ⟨pre,post,rfl,hpre,hx,rfl⟩ := List.filter_eq_cons_iff.mp h
  exact ⟨pre,post,rfl,List.filter_eq_nil_iff.mpr hpre,by simpa using hx,rfl⟩

variable [Fintype ι]

/-- Every item is in exactly one lane. -/
theorem sum_lane_length (xs : List α) : ∑ i, (lane key i xs).length = xs.length := by
  induction xs with
  | nil => simp
  | cons x xs ih =>
    have hsplit (i : ι) : (lane key i (x::xs)).length =
        (if key x = i then 1 else 0)+(lane key i xs).length := by
      by_cases h : key x = i <;> simp [lane,h,Nat.add_comm]
    simp [hsplit,Finset.sum_add_distrib,ih,Nat.add_comm]

/-- The weights of the lanes add up to that of the whole. -/
theorem sum_lane_weight (weight : α → ℕ) (xs : List α) :
    ∑ i, ((lane key i xs).map weight).sum = (xs.map weight).sum := by
  induction xs with
  | nil => simp
  | cons x xs ih =>
    have hsplit (i : ι) : ((lane key i (x::xs)).map weight).sum =
        (if key x = i then weight x else 0)+((lane key i xs).map weight).sum := by
      by_cases h : key x = i <;> simp [lane,h]
    simp [hsplit,Finset.sum_add_distrib,ih]

/-- A bound for each lane bounds the whole. -/
theorem mul_length_le {c b : ℕ} {xs : List α} (h : ∀ i, c*(lane key i xs).length ≤ b) :
    c*xs.length ≤ Fintype.card ι*b := by
  calc c*xs.length = ∑ i, c*(lane key i xs).length := by
        rw [← Finset.mul_sum,sum_lane_length]
    _ ≤ ∑ _ : ι, b := Finset.sum_le_sum fun i _ => h i
    _ = Fintype.card ι*b := by simp

end Lanes
