import Viamillipede.Checksum
import Mathlib.Data.Int.ModEq

/-! Which corruptions of a payload `mix` detects: the value depends on the low half of the
first word, and on nothing else of the payload. -/
namespace Viamillipede

open Bytes

/-- The low 32 bits of the `i`-th word. -/
def lowHalf (data : Memory) (i : ℕ) : UInt32 := (data.word i).toUInt32

/-- Two payloads that are equal but for the low 32 bits of their `i`-th words. -/
structure LowHalfDiffers (a b : Memory) (size i : ℕ) : Prop where
  elsewhere : ∀ j < size, j < 8*i ∨ 8*i+4 ≤ j → a j = b j
  half : lowHalf a i ≠ lowHalf b i

theorem lowHalf_zero (data : Memory) : (lowHalf data 0).toNat = firstHalf data := by
  rw [← wordOf_read_mod,lowHalf,UInt64.toNat_toUInt32]
  rfl

/-- Two payloads with the same value of `mix`. -/
theorem mix_eq_iff (seed : UInt32) (a b : Memory) {size : UInt64} (hsize : size.toNat+8 < 2^64) :
    mix seed a size = mix seed b size ↔
      (2^32 : ℤ) ∣ (size.toNat/8+1 : ℕ)*((lowHalf b 0).toNat-(lowHalf a 0).toNat : ℤ) := by
  have hmod : mix seed a size = mix seed b size ↔
      (seed.toNat+mixSum (firstHalf a) size.toNat) ≡
        (seed.toNat+mixSum (firstHalf b) size.toNat) [MOD 2^32] := by
    rw [← UInt64.toNat_inj,mix_toNat seed a size hsize,mix_toNat seed b size hsize]
    rfl
  rw [hmod,Nat.modEq_iff_dvd,lowHalf_zero,lowHalf_zero]
  have hdiff : ((seed.toNat+mixSum (firstHalf b) size.toNat : ℕ) : ℤ)-
      (seed.toNat+mixSum (firstHalf a) size.toNat : ℕ) =
        (size.toNat/8+1 : ℕ)*((firstHalf b : ℤ)-firstHalf a) := by
    simp only [mixSum]
    push_cast
    ring
  rw [hdiff]
  norm_num

/-- Behind the first word nothing is seen. -/
theorem mix_congr (seed : UInt32) {a b : Memory} {size : UInt64} (hsize : size.toNat+8 < 2^64)
    (h : lowHalf a 0 = lowHalf b 0) : mix seed a size = mix seed b size := by
  rw [mix_eq_iff seed a b hsize,h,sub_self,mul_zero]
  exact dvd_zero _

/-- A corruption of the low half of one word is detected when that word is the first one, and
the difference times the number of rounds does not vanish modulo 2^32. -/
theorem mix_ne_iff (seed : UInt32) {a b : Memory} {size : UInt64} {i : ℕ} (hmin : 8 ≤ size.toNat)
    (hmax : size.toNat ≤ kfootsize) (hi : i < size.toNat/8)
    (h : LowHalfDiffers a b size.toNat i) :
    mix seed a size ≠ mix seed b size ↔
      i = 0 ∧ ¬ (2^32 : ℤ) ∣ (size.toNat/8+1 : ℕ)*((lowHalf b i).toNat-(lowHalf a i).toNat : ℤ) := by
  have hfoot : kfootsize = 2^21 := by decide
  have hsize : size.toNat+8 < 2^64 := by omega
  by_cases hzero : i = 0
  · subst hzero
    rw [ne_eq,mix_eq_iff seed a b hsize]
    exact (and_iff_right rfl).symm
  · have hsame : lowHalf a 0 = lowHalf b 0 := by
      have hword : a.word 0 = b.word 0 := by
        apply Memory.word_congr
        intro j hj
        exact h.elsewhere _ (by omega) (.inl (by omega))
      rw [lowHalf,hword,lowHalf]
    refine iff_of_false (not_not.mpr (mix_congr seed hsize hsame)) ?_
    rintro ⟨hfirst,-⟩
    exact hzero hfirst

/-- A payload of zeros but for byte `k`. -/
def oneAt (k : ℕ) (b : UInt8) : Memory := fun j => if j = k then b else 0

theorem mix_ne_iff_first :
    LowHalfDiffers (oneAt 0 1) (oneAt 0 2) 16 0 ∧ mix 7 (oneAt 0 1) 16 ≠ mix 7 (oneAt 0 2) 16 := by
  have hdiffers : LowHalfDiffers (oneAt 0 1) (oneAt 0 2) 16 0 := ⟨by decide,by decide⟩
  exact ⟨hdiffers,(mix_ne_iff 7 (by decide) (by decide) (by decide) hdiffers).mpr
    ⟨rfl,by decide⟩⟩

/-- A difference in the second word is not seen, nor one of 2^31 in the first word when the
number of rounds is even. -/
theorem mix_undetected :
    (LowHalfDiffers (oneAt 8 1) (oneAt 8 2) 16 1 ∧
      mix 7 (oneAt 8 1) 16 = mix 7 (oneAt 8 2) 16) ∧
    (LowHalfDiffers (oneAt 3 0) (oneAt 3 128) 8 0 ∧
      mix 7 (oneAt 3 0) 8 = mix 7 (oneAt 3 128) 8) := by
  refine ⟨⟨⟨by decide,by decide⟩,by decide⟩,⟨⟨by decide,by decide⟩,by decide⟩⟩

/-- The receiver passes a leg whose payload was corrupted behind its first word. -/
theorem rxChecksum_congr (saved : UInt64) (pkt : Millipacket) {a b : Memory}
    (hsize : pkt.size.toNat ≤ kfootsize) (h : lowHalf a 0 = lowHalf b 0) :
    rxChecksum saved pkt a = rxChecksum saved pkt b := by
  have hfoot : kfootsize = 2^21 := by decide
  unfold rxChecksum
  rw [mix_congr _ (by omega) h]

end Viamillipede
