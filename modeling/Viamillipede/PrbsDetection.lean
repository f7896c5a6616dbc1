import Viamillipede.Prbs

/-! `prbs_gen` and `prbs_verify` agree, and the payloads of two permutations, or the words of
one, are told apart wherever they are mixed up. -/
namespace Viamillipede

open Bytes

/-- The inverse of the salt modulo 2^64; the salt is odd. -/
def saltInverse : UInt64 := 0x4c9508c198e7579b

theorem salt_mul_injective {x y : UInt64} (h : salt*x = salt*y) : x = y := by
  have hone : saltInverse*salt = 1 := by decide
  have hinverse (z : UInt64) : saltInverse*(salt*z) = z := by
    rw [← UInt64.mul_assoc,hone,UInt64.one_mul]
  rw [← hinverse x,h,hinverse]

/-- The words of one permutation are distinct as long as their indices are. -/
theorem prbsSequence_injOn (permutation : UInt64) {i j : ℕ} (hi : i < 2^64) (hj : j < 2^64)
    (h : prbsSequence permutation i = prbsSequence permutation j) : i = j := by
  have hsalt : salt*UInt64.ofNat i = salt*UInt64.ofNat j := (UInt64.xor_right_inj permutation).mp h
  have hindex := congrArg UInt64.toNat (salt_mul_injective hsalt)
  rwa [toNat_word hi,toNat_word hj] at hindex

/-- Two permutations differ in every word. -/
theorem prbsSequence_ne {p q : UInt64} (h : p ≠ q) (i : ℕ) :
    prbsSequence p i ≠ prbsSequence q i := by
  intro hsame
  exact h ((UInt64.xor_left_inj _).mp hsame)

/-- The words that `prbs_gen` stores, and the bytes it leaves alone. -/
theorem prbsGen_word (payload : Memory) (permutation : UInt64) {size i : ℕ} (hi : i < size/8) :
    (prbsGen payload permutation size).word i = prbsSequence permutation i := by
  unfold prbsGen
  revert hi
  generalize size/8 = k
  intro hi
  induction k with
  | zero => exact absurd hi (Nat.not_lt_zero i)
  | succ k ih =>
    rw [List.range_succ,List.foldl_append,List.foldl_cons,List.foldl_nil]
    by_cases hik : i = k
    · subst hik
      exact Memory.word_store_self _ _ _
    · rw [Memory.word_store_other _ hik]
      exact ih (by omega)

theorem prbsGen_tail (payload : Memory) (permutation : UInt64) {size j : ℕ} (hj : 8*(size/8) ≤ j) :
    prbsGen payload permutation size j = payload j := by
  unfold prbsGen
  revert hj
  generalize size/8 = k
  intro hj
  induction k with
  | zero => rfl
  | succ k ih =>
    rw [List.range_succ,List.foldl_append,List.foldl_cons,List.foldl_nil,
      Memory.store_of_ge (by rw [wordBytes_length]; omega)]
    exact ih (by omega)

theorem prbsVerify_iff (payload : Memory) (permutation : UInt64) (size : ℕ) :
    prbsVerify payload permutation size = true ↔
      ∀ i < size/8, payload.word i = prbsSequence permutation i := by
  simp [prbsVerify,Memory.word]

/-- A buffer of whole words verifies when its bytes are those that the generator writes. -/
theorem prbsVerify_iff_bytes (payload m : Memory) (permutation : UInt64) (k : ℕ) :
    prbsVerify payload permutation (8*k) = true ↔
      ∀ j < 8*k, payload j = prbsGen m permutation (8*k) j := by
  have hk : 8*k/8 = k := Nat.mul_div_cancel_left k (by decide)
  rw [prbsVerify_iff,hk]
  constructor
  · intro h j hj
    have hi : j/8 < k := by omega
    have hword := (h (j/8) hi).trans (prbsGen_word m permutation (hk.symm ▸ hi)).symm
    have hbyte := Memory.word_inj hword (Nat.mod_lt j (by decide))
    rwa [Nat.div_add_mod] at hbyte
  · intro h i hi
    rw [← prbsGen_word m permutation (hk.symm ▸ hi : i < 8*k/8)]
    apply Memory.word_congr
    intro j hj
    exact h _ (by omega)

/-- One wrong word is enough. -/
theorem prbsVerify_of_word {payload : Memory} {permutation : UInt64} {size i : ℕ}
    (hi : i < size/8) (h : payload.word i ≠ prbsSequence permutation i) :
    prbsVerify payload permutation size = false := by
  rw [← Bool.not_eq_true,prbsVerify_iff]
  exact fun hall => h (hall i hi)

/-- Exchange two words of a buffer. -/
def exchange (m : Memory) (i j : ℕ) : Memory :=
  (m.store (8*i) (wordBytes (m.word j))).store (8*j) (wordBytes (m.word i))

theorem exchange_word (m : Memory) {i j : ℕ} (h : i ≠ j) : (exchange m i j).word i = m.word j := by
  rw [exchange,Memory.word_store_other _ h,Memory.word_store_self]

/-- What the stress mode relies on, for the permutations `p` and `q` and a buffer. -/
structure PrbsExposes (p q : UInt64) (size : ℕ) (buf : Memory) : Prop where
  /-- The verifier accepts what the generator writes, in every word, and nothing else. -/
  agree : ∀ m, prbsVerify buf p size = true ↔
    ∀ i < size/8, buf.word i = (prbsGen m p size).word i
  tail : ∀ m j, 8*(size/8) ≤ j → prbsGen m p size j = m j
  /-- Two permutations differ in every word, so that a foreign word is rejected. -/
  differ : p ≠ q → ∀ m m', ∀ i < size/8, (prbsGen m p size).word i ≠ (prbsGen m' q size).word i
  foreign : p ≠ q → ∀ m, ∀ i < size/8, buf.word i = (prbsGen m q size).word i →
    prbsVerify buf p size = false
  /-- The words of one payload are distinct, so that a pair in the wrong order is rejected. -/
  distinct : ∀ m, ∀ i < size/8, ∀ j < size/8, i < 2^64 → j < 2^64 → i ≠ j →
    (prbsGen m p size).word i ≠ (prbsGen m p size).word j
  exchanged : prbsVerify buf p size = true → ∀ i < size/8, ∀ j < size/8, i < 2^64 → j < 2^64 →
    i ≠ j → prbsVerify (exchange buf i j) p size = false

theorem prbs_exposes (p q : UInt64) (size : ℕ) (buf : Memory) : PrbsExposes p q size buf where
  agree m := by
    rw [prbsVerify_iff]
    apply forall_congr'
    intro i
    apply imp_congr_right
    intro hi
    rw [prbsGen_word m p hi]
  tail m j hj := prbsGen_tail m p hj
  differ hpq m m' i hi := by
    rw [prbsGen_word m p hi,prbsGen_word m' q hi]
    exact prbsSequence_ne hpq i
  foreign hpq m i hi h := by
    apply prbsVerify_of_word hi
    rw [h,prbsGen_word m q hi]
    exact prbsSequence_ne hpq.symm i
  distinct m i hi j hj hi64 hj64 hij := by
    rw [prbsGen_word m p hi,prbsGen_word m p hj]
    exact fun h => hij (prbsSequence_injOn p hi64 hj64 h)
  exchanged hbuf i hi j hj hi64 hj64 hij := by
    apply prbsVerify_of_word hi
    rw [exchange_word buf hij,(prbsVerify_iff buf p size).mp hbuf j hj]
    exact fun h => hij (prbsSequence_injOn p hi64 hj64 h.symm)

end Viamillipede
