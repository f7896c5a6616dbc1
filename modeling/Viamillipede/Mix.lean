import Viamillipede.Bytes

/-! The running checksum `mix` of `plumbing.c`.

The pointer expression of its loop dereferences `data` before it adds the cursor,
so every round adds the first word of the payload again. -/
namespace Viamillipede

open Bytes

/-- The loop of `mix`; `fuel` bounds its rounds. -/
def mixLoop (data : Memory) (size : UInt64) : ℕ → UInt64 → UInt32 → UInt32
  | 0, _, acc => acc
  | fuel+1, cursor, acc =>
    if cursor ≤ size then
      -- `*(unsigned long *)data + cursor` is `(*(unsigned long *)data) + cursor`
      mixLoop data size fuel (cursor+8) (acc.toUInt64+(wordOf (data.read 8)+cursor)).toUInt32
    else acc

/-- `mix(seed, data, size)`. -/
def mix (seed : UInt32) (data : Memory) (size : UInt64) : UInt64 :=
  (mixLoop data size (size.toNat/8+2) 0 seed).toUInt64

/-- The low half of the only word that `mix` reads. -/
def firstHalf (data : Memory) : ℕ := ofLe (data.read 4)

/-- What the rounds for `size` bytes add to the seed. -/
def mixSum (half size : ℕ) : ℕ := (size/8+1)*half + 4*(size/8+1)*(size/8)

theorem firstHalf_lt (data : Memory) : firstHalf data < 2^32 := by
  simpa [firstHalf] using ofLe_lt (data.read 4)

theorem wordOf_read_mod (data : Memory) : (wordOf (data.read 8)).toNat % 2^32 = firstHalf data := by
  have h8 : ofLe (data.read 8) < 2^64 := by simpa using ofLe_lt (data.read 8)
  rw [wordOf,toNat_word h8,show 8 = 4+4 from rfl,Memory.read_add,ofLe_append]
  have h4 := firstHalf_lt data
  simp only [Memory.read_length]
  rw [firstHalf] at h4 ⊢
  omega

/-- One round adds the low half of the first word and the cursor. -/
theorem mix_round (data : Memory) (cursor : UInt64) (acc : UInt32) :
    (acc.toUInt64+(wordOf (data.read 8)+cursor)).toUInt32.toNat =
      (acc.toNat+firstHalf data+cursor.toNat) % 2^32 := by
  have hw := wordOf_read_mod data
  simp only [UInt64.toNat_toUInt32,UInt64.toNat_add,UInt32.toNat_toUInt64]
  omega

/-- From the cursor `8*k` on, `n` rounds are left and more fuel changes nothing. -/
theorem mixLoop_toNat (data : Memory) (size : UInt64) (hsize : size.toNat+8 < 2^64)
    (n k fuel : ℕ) (acc : UInt32) (hn : k+n = size.toNat/8+1) (hf : n ≤ fuel) :
    (mixLoop data size fuel (UInt64.ofNat (8*k)) acc).toNat =
      (acc.toNat+n*firstHalf data+4*n*(2*k+n-1)) % 2^32 := by
  induction n generalizing k fuel acc with
  | zero =>
    have hstop : ¬ UInt64.ofNat (8*k) ≤ size := by
      rw [UInt64.le_iff_toNat_le,toNat_word (by omega)]
      omega
    cases fuel with
    | zero => simp [mixLoop]
    | succ fuel => simp only [mixLoop,if_neg hstop]; simp
  | succ n ih =>
    obtain ⟨fuel,rfl⟩ : ∃ f, fuel = f+1 := ⟨fuel-1,by omega⟩
    have hcur : (UInt64.ofNat (8*k)).toNat = 8*k := toNat_word (by omega)
    have hgo : UInt64.ofNat (8*k) ≤ size := by
      rw [UInt64.le_iff_toNat_le,hcur]
      omega
    have hnext : UInt64.ofNat (8*k)+8 = UInt64.ofNat (8*(k+1)) := by
      rw [Nat.mul_add,UInt64.ofNat_add]
      rfl
    rw [mixLoop,if_pos hgo,hnext,ih (k+1) fuel _ (by omega) (by omega),mix_round,hcur]
    have hsum : acc.toNat+firstHalf data+8*k+n*firstHalf data+4*n*(2*(k+1)+n-1) =
        acc.toNat+(n+1)*firstHalf data+4*(n+1)*(2*k+(n+1)-1) := by
      have h1 : 2*(k+1)+n-1 = 2*k+n+1 := by omega
      have h2 : 2*k+(n+1)-1 = 2*k+n := by omega
      rw [h1,h2]
      ring
    rw [← hsum]
    omega

/-- The value of `mix` in closed form, for every size at which its cursor does not wrap. -/
theorem mix_toNat (seed : UInt32) (data : Memory) (size : UInt64) (hsize : size.toNat+8 < 2^64) :
    (mix seed data size).toNat = (seed.toNat+mixSum (firstHalf data) size.toNat) % 2^32 := by
  have h := mixLoop_toNat data size hsize (size.toNat/8+1) 0 (size.toNat/8+2) seed
    (by omega) (by omega)
  have hm : 2*0+(size.toNat/8+1)-1 = size.toNat/8 := by omega
  rw [hm] at h
  rw [mix,UInt32.toNat_toUInt64,mixSum,← Nat.add_assoc]
  exact h

example : mix 0xff (fun _ => 0) 1 = 0xff := by decide

end Viamillipede
