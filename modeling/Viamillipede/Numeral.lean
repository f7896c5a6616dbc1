import Viamillipede.Bytes

/-! Words of a command line and the conversions of the C library that read numbers from them. -/
namespace Numeral

/-- The bytes of a string in front of its terminator. -/
abbrev Word := List UInt8

/-- A string of ASCII characters. -/
def word (s : String) : Word := s.toList.map fun c => UInt8.ofNat c.toNat

/-- The result of a conversion, and whether it has set `errno`. -/
structure Converted (α : Type) where
  value : α
  errno : Bool

def isSpace (b : UInt8) : Bool := b = 32 || 9 ≤ b && b ≤ 13

/-- What a digit or a letter counts. -/
def digitValue (b : UInt8) : Option ℕ :=
  if 48 ≤ b && b ≤ 57 then some (b.toNat-48)
  else if 97 ≤ b && b ≤ 122 then some (b.toNat-87)
  else if 65 ≤ b && b ≤ 90 then some (b.toNat-55)
  else none

/-- The digits of a base that a word starts with. -/
def digits (base : ℕ) : Word → List ℕ
  | [] => []
  | b::bs =>
    match digitValue b with
    | some d => if d < base then d::digits base bs else []
    | none => []

def magnitude (base : ℕ) (ds : List ℕ) : ℕ := ds.foldl (fun n d => n*base+d) 0

/-- Whether there is a minus sign, and what is behind the spaces and the sign. -/
def sign (w : Word) : Bool × Word :=
  match w.dropWhile isSpace with
  | 45::bs => (true,bs)
  | 43::bs => (false,bs)
  | bs => (false,bs)

/-- The base that a word is written in, and its digits in that base. -/
def radix (w : Word) : ℕ × List ℕ :=
  match w with
  | 48::x::bs =>
    if (x = 120 ∨ x = 88) ∧ digits 16 bs ≠ [] then (16,digits 16 bs) else (8,digits 8 w)
  | 48::_ => (8,digits 8 w)
  | _ => (10,digits 10 w)

/-- `strtol` in base 10 on a 64-bit machine. A word without digits may set `errno` or not,
which is up to the library. -/
def strtol (einval : Bool) (w : Word) : Converted ℤ :=
  let (minus,bs) := sign w
  let ds := digits 10 bs
  let n : ℤ := if minus then -magnitude 10 ds else magnitude 10 ds
  if ds = [] then ⟨0,einval⟩
  else if 2^63 ≤ n then ⟨2^63-1,true⟩
  else if n < -2^63 then ⟨-2^63,true⟩
  else ⟨n,false⟩

/-- `atoi` is `strtol`, converted to an `int`. -/
def atoi (einval : Bool) (w : Word) : Converted ℤ :=
  let n := strtol einval w
  ⟨Int.bmod n.value (2^32),n.errno⟩

/-- `strtoul` in base 0. -/
def strtoul (einval : Bool) (w : Word) : Converted UInt64 :=
  let (minus,bs) := sign w
  let (base,ds) := radix bs
  let n := magnitude base ds
  if ds = [] then ⟨0,einval⟩
  else if 2^64 ≤ n then ⟨-1,true⟩
  else ⟨if minus then -UInt64.ofNat n else UInt64.ofNat n,false⟩

/-- The number that a word starts with, whatever its size. -/
def written (w : Word) : ℤ :=
  let (minus,bs) := sign w
  if minus then -magnitude 10 (digits 10 bs) else magnitude 10 (digits 10 bs)

/-- Without an error `atoi` is the number written, cut to 32 bits. -/
theorem atoi_written {einval : Bool} {w : Word} (h : (atoi einval w).errno = false) :
    (atoi einval w).value = Int.bmod (written w) (2^32) := by
  simp only [atoi,strtol,written] at h ⊢
  -- out of range the errno is set
  split_ifs at h ⊢ with hnone
  · simp [hnone,magnitude]
  · simp [hnone,magnitude]
  all_goals rfl

example : (atoi false (word " -42x")).value = -42 ∧ (strtoul false (word "0x5aA5")).value = 23205 ∧
    (strtoul false (word "010")).value = 8 ∧ (atoi true (word "prbs")).errno = true := by
  decide

end Numeral
