import Mathlib.Data.List.Infix

/-! Prefix codes: self-delimiting encodings whose concatenations parse uniquely.

The stream of a connection is a concatenation of codewords of which a reader has
seen some initial part; the lemmas below recover the codewords from that part. -/
namespace PrefixCode

/-- An encoding in which no codeword begins another one. -/
structure Code (α β : Type*) where
  word : α → List β
  word_ne_nil : ∀ a, word a ≠ []
  prefix_free : ∀ a b s t, word a ++ s = word b ++ t → a = b

variable {α β : Type*} (c : Code α β)

namespace Code

def encodeAll (xs : List α) : List β := xs.flatMap c.word

@[simp] theorem encodeAll_nil : c.encodeAll [] = [] := rfl

@[simp] theorem encodeAll_cons (x : α) (xs : List α) :
    c.encodeAll (x::xs) = c.word x ++ c.encodeAll xs := List.flatMap_cons

@[simp] theorem encodeAll_append (xs ys : List α) :
    c.encodeAll (xs++ys) = c.encodeAll xs ++ c.encodeAll ys := List.flatMap_append

/-- The items whose codewords are complete in the first `n` symbols of the stream. -/
def received : List α → ℕ → List α
  | [], _ => []
  | a::as, n => if (c.word a).length ≤ n then a :: received as (n-(c.word a).length) else []

theorem received_append (xs zs : List α) (n : ℕ) :
    c.received (xs++zs) ((c.encodeAll xs).length+n) = xs ++ c.received zs n := by
  induction xs with
  | nil => simp
  | cons x xs ih => simp [received,ih,Nat.add_assoc]

/-- Codewords read from a stream of codewords are the ones that were written. -/
theorem prefix_of_encodeAll_prefix {xs ys : List α}
    (h : c.encodeAll xs <+: c.encodeAll ys) : xs <+: ys := by
  induction xs generalizing ys with
  | nil => exact List.nil_prefix
  | cons x xs ih =>
    obtain ⟨t,ht⟩ := h
    cases ys with
    | nil => exact absurd ht (by simp [c.word_ne_nil])
    | cons y ys =>
      simp only [encodeAll_cons,List.append_assoc] at ht
      obtain rfl : x = y := c.prefix_free _ _ _ _ ht
      have hxs : c.encodeAll xs <+: c.encodeAll ys := ⟨t,List.append_cancel_left ht⟩
      simpa using ih hxs

/-- What follows some codewords of a stream of codewords is one again. -/
theorem exists_rest {xs ys : List α} {t : List β} (h : c.encodeAll xs ++ t = c.encodeAll ys) :
    ∃ zs, ys = xs++zs ∧ c.encodeAll zs = t := by
  obtain ⟨zs,rfl⟩ := c.prefix_of_encodeAll_prefix ⟨t,h⟩
  rw [encodeAll_append] at h
  exact ⟨zs,rfl,(List.append_cancel_left h).symm⟩

/-- A partly read codeword is shorter than the one it begins. -/
theorem length_lt_of_partial {a : α} {part t : List β} (hpart : ∀ a, ¬ c.word a <+: part)
    (h : c.word a <+: part ++ t) : part.length < (c.word a).length := by
  by_contra hle
  exact hpart a (List.prefix_of_prefix_length_le h (List.prefix_append part t) (not_lt.mp hle))

/-- A partly read codeword does not complete any item. -/
theorem received_of_partial {xs ys : List α} {part : List β}
    (hpart : ∀ a, ¬ c.word a <+: part) (h : c.encodeAll xs ++ part <+: c.encodeAll ys) :
    c.received ys (c.encodeAll xs ++ part).length = xs := by
  obtain ⟨zs,rfl⟩ := c.prefix_of_encodeAll_prefix ((List.prefix_append _ _).trans h)
  rw [List.length_append,received_append]
  rw [encodeAll_append,List.prefix_append_right_inj] at h
  suffices hz : c.received zs part.length = [] by rw [hz,List.append_nil]
  cases zs with
  | nil => rfl
  | cons z zs =>
    have hlen : ¬ (c.word z).length ≤ part.length := fun hle =>
      hpart z (List.prefix_of_prefix_length_le (by simp) h hle)
    simp [received,hlen]

/-- When every codeword has at least `h` symbols, a stream holds few of them. -/
theorem mul_length_le {h : ℕ} (hw : ∀ a, h ≤ (c.word a).length) (xs : List α) :
    h*xs.length ≤ (c.encodeAll xs).length := by
  induction xs with
  | nil => simp
  | cons x xs ih =>
    have := hw x
    simp only [List.length_cons,encodeAll_cons,List.length_append,Nat.mul_add]
    omega

end Code

end PrefixCode
