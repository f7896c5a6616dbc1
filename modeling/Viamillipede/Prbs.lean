import Viamillipede.Bytes

/-! The pseudorandom payloads of `prbs.c`. -/
namespace Viamillipede

open Bytes

/-- From ECMA 182. -/
def salt : UInt64 := 0x42F0E1EBA9EA3693

/-- Word `i` of the payload for a permutation. -/
def prbsSequence (permutation : UInt64) (i : ℕ) : UInt64 :=
  permutation ^^^ (salt*UInt64.ofNat i)

/-- Fill whole words of the payload; a tail shorter than a word is left alone. -/
def prbsGen (payload : Memory) (permutation : UInt64) (size : ℕ) : Memory :=
  (List.range (size/8)).foldl
    (fun m i => m.store (8*i) (wordBytes (prbsSequence permutation i))) payload

/-- The words generated do not depend on what the buffer held. -/
theorem prbsGen_read (payload : Memory) (permutation : UInt64) (size : ℕ) :
    (prbsGen payload permutation size).read (8*(size/8)) =
      (List.range (size/8)).flatMap fun i => wordBytes (prbsSequence permutation i) := by
  unfold prbsGen
  generalize size/8 = k
  induction k with
  | zero => rfl
  | succ k ih =>
    rw [List.range_succ,List.foldl_append,List.flatMap_append]
    simpa [Nat.mul_succ,ih] using Memory.read_store
      ((List.range k).foldl (fun m i => m.store (8*i) (wordBytes (prbsSequence permutation i)))
        payload) (8*k) (wordBytes (prbsSequence permutation k))

/-- `true` if the payload verifies. -/
def prbsVerify (payload : Memory) (permutation : UInt64) (size : ℕ) : Bool :=
  (List.range (size/8)).all fun i => wordOf (payload.slice (8*i) 8) == prbsSequence permutation i

end Viamillipede
