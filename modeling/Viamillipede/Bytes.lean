import Mathlib.Data.List.Basic
import Mathlib.Tactic.Ring
import Mathlib.Tactic.Linarith

/-! Little-endian words and byte-addressed memory.

Memory is a total function from offsets to bytes, so that what a reused buffer
still holds behind the last store is part of its value. -/
namespace Bytes

/-- The `n` low bytes of `x`, least significant first. -/
def leBytes : ℕ → ℕ → List UInt8
  | 0, _ => []
  | n+1, x => UInt8.ofNat x :: leBytes n (x/256)

/-- The number a little-endian byte string denotes. -/
def ofLe : List UInt8 → ℕ
  | [] => 0
  | b::bs => b.toNat + 256*ofLe bs

@[simp] theorem leBytes_length (n x : ℕ) : (leBytes n x).length = n := by
  induction n generalizing x with
  | zero => rfl
  | succ n ih => simp [leBytes,ih]

theorem ofLe_leBytes (n x : ℕ) : ofLe (leBytes n x) = x % 256^n := by
  induction n generalizing x with
  | zero => simp [leBytes,ofLe,Nat.mod_one]
  | succ n ih =>
    have h := Nat.mod_mul (x := x) (a := 256) (b := 256^n)
    rw [leBytes,ofLe,ih,pow_succ',h]
    simp

theorem ofLe_lt (bs : List UInt8) : ofLe bs < 256^bs.length := by
  induction bs with
  | nil => simp [ofLe]
  | cons b bs ih =>
    have hb : b.toNat < 256 := b.toNat_lt
    simp only [ofLe,List.length_cons,pow_succ']
    omega

theorem ofLe_append (as bs : List UInt8) : ofLe (as++bs) = ofLe as + 256^as.length*ofLe bs := by
  induction as with
  | nil => simp [ofLe]
  | cons a as ih =>
    simp only [List.cons_append,ofLe,ih,List.length_cons,pow_succ']
    ring

/-- Byte strings of one length are told apart by the numbers they denote. -/
theorem ofLe_injOn {as bs : List UInt8} (hlen : as.length = bs.length)
    (h : ofLe as = ofLe bs) : as = bs := by
  induction as generalizing bs with
  | nil => exact (List.length_eq_zero_iff.mp hlen.symm).symm
  | cons a as ih =>
    cases bs with
    | nil => simp at hlen
    | cons b bs =>
      have ha : a.toNat < 256 := a.toNat_lt
      have hb : b.toNat < 256 := b.toNat_lt
      simp only [ofLe] at h
      have hab : a = b := UInt8.toNat_inj.mp (by omega)
      rw [hab,ih (by simpa using hlen) (by omega)]

theorem toNat_word {n : ℕ} (h : n < 2^64) : (UInt64.ofNat n).toNat = n := by
  rw [UInt64.toNat_ofNat',Nat.mod_eq_of_lt h]

/-- The conversion of an `int` that is not negative to a `size_t` or a `u_long`. -/
theorem toNat_ofInt {x : ℤ} (h0 : 0 ≤ x) (h : x < 2^64) : ((UInt64.ofInt x).toNat : ℤ) = x := by
  rw [UInt64.ofInt,Int.emod_eq_of_lt h0 h,toNat_word (by omega)]
  omega

/-- The eight bytes of a 64-bit word in memory. -/
def wordBytes (x : UInt64) : List UInt8 := leBytes 8 x.toNat

def wordOf (bs : List UInt8) : UInt64 := UInt64.ofNat (ofLe bs)

@[simp] theorem wordBytes_length (x : UInt64) : (wordBytes x).length = 8 := by
  simp [wordBytes]

@[simp] theorem wordOf_wordBytes (x : UInt64) : wordOf (wordBytes x) = x := by
  have hx : x.toNat < 256^8 := x.toNat_lt
  rw [wordOf,wordBytes,ofLe_leBytes,Nat.mod_eq_of_lt hx,UInt64.ofNat_toNat]

theorem wordBytes_wordOf {bs : List UInt8} (h : bs.length = 8) : wordBytes (wordOf bs) = bs := by
  have hlt : ofLe bs < 256^8 := h ▸ ofLe_lt bs
  refine ofLe_injOn (by simp [h]) ?_
  rw [wordBytes,wordOf,ofLe_leBytes,toNat_word (by simpa using hlt),Nat.mod_eq_of_lt hlt]

/-- Byte-addressed memory, starting at the address of its first byte. -/
abbrev Memory := ℕ → UInt8

namespace Memory

/-- Store a byte string at an offset; every other byte keeps its value. -/
def store (m : Memory) (off : ℕ) (bs : List UInt8) : Memory := fun i =>
  if i < off then m i else bs.getD (i-off) (m i)

/-- The `n` bytes from an offset on. -/
def slice (m : Memory) (off n : ℕ) : List UInt8 := (List.range n).map fun i => m (off+i)

/-- The first `n` bytes. -/
def read (m : Memory) (n : ℕ) : List UInt8 := m.slice 0 n

/-- The `i`-th word. -/
def word (m : Memory) (i : ℕ) : UInt64 := wordOf (m.slice (8*i) 8)

@[simp] theorem slice_length (m : Memory) (off n : ℕ) : (m.slice off n).length = n := by
  simp [slice]

@[simp] theorem read_length (m : Memory) (n : ℕ) : (m.read n).length = n := by simp [read]

theorem read_add (m : Memory) (n k : ℕ) : m.read (n+k) = m.read n ++ m.slice n k := by
  simp [read,slice,List.range_add,Function.comp_def]

theorem read_take (m : Memory) {n k : ℕ} (h : n ≤ k) : (m.read k).take n = m.read n := by
  obtain ⟨j,rfl⟩ := Nat.exists_eq_add_of_le h
  rw [read_add,List.take_left' (m.read_length n)]

@[simp] theorem read_zero (m : Memory) : m.read 0 = [] := rfl

theorem getElem?_read (m : Memory) (n i : ℕ) :
    (m.read n)[i]? = if i < n then some (m i) else none := by
  by_cases h : i < n <;> simp [read,slice,h]

theorem store_of_lt {m : Memory} {off i : ℕ} (bs : List UInt8) (h : i < off) :
    m.store off bs i = m i := by simp [store,h]

theorem store_of_ge {m : Memory} {off i : ℕ} {bs : List UInt8} (h : off+bs.length ≤ i) :
    m.store off bs i = m i := by
  have hn : bs[i-off]? = none := List.getElem?_eq_none (by omega)
  simp [store,List.getD_eq_getElem?_getD,hn]

theorem store_of_mem {m : Memory} {off i : ℕ} {bs : List UInt8} (hi : i < bs.length) :
    m.store off bs (off+i) = bs[i] := by
  simp [store,List.getD_eq_getElem?_getD,hi]

/-- Reading up to the end of a store yields what was there before it and the stored bytes. -/
theorem read_store (m : Memory) (off : ℕ) (bs : List UInt8) :
    (m.store off bs).read (off+bs.length) = m.read off ++ bs := by
  apply List.ext_getElem?
  intro i
  rw [getElem?_read]
  by_cases hi : i < off
  · rw [List.getElem?_append_left (by simpa using hi),getElem?_read,if_pos (by omega),if_pos hi,
      store_of_lt bs hi]
  · obtain ⟨j,rfl⟩ : ∃ j, i = off+j := ⟨i-off,by omega⟩
    rw [List.getElem?_append_right (by simp)]
    by_cases hj : j < bs.length
    · simp [hj,store_of_mem hj]
    · simp [hj]

@[simp] theorem read_store_zero (m : Memory) (bs : List UInt8) :
    (m.store 0 bs).read bs.length = bs := by simpa using read_store m 0 bs

/-- Slices that hold the same bytes. -/
theorem slice_congr {m m' : Memory} {off n : ℕ} (h : ∀ i < n, m (off+i) = m' (off+i)) :
    m.slice off n = m'.slice off n := by
  apply List.map_congr_left
  intro i hi
  exact h i (List.mem_range.mp hi)

theorem word_congr {m m' : Memory} {i : ℕ} (h : ∀ j < 8, m (8*i+j) = m' (8*i+j)) :
    m.word i = m'.word i := by
  rw [word,slice_congr h,word]

theorem slice_inj {m m' : Memory} {off n : ℕ} (h : m.slice off n = m'.slice off n) {i : ℕ}
    (hi : i < n) : m (off+i) = m' (off+i) := by
  have hget := congrArg (fun bs : List UInt8 => bs[i]?) h
  simpa [slice,hi] using hget

theorem word_inj {m m' : Memory} {i : ℕ} (h : m.word i = m'.word i) {j : ℕ} (hj : j < 8) :
    m (8*i+j) = m' (8*i+j) := by
  have hbytes := congrArg wordBytes h
  rw [word,word,wordBytes_wordOf (by simp),wordBytes_wordOf (by simp)] at hbytes
  exact slice_inj hbytes hj

/-- A word stored is read back, and the other words are the same. -/
theorem word_store_self (m : Memory) (i : ℕ) (x : UInt64) :
    (m.store (8*i) (wordBytes x)).word i = x := by
  have hslice : (m.store (8*i) (wordBytes x)).slice (8*i) 8 = wordBytes x := by
    apply List.ext_getElem (by simp)
    intro j _ hj
    have hstore : m.store (8*i) (wordBytes x) (8*i+j) = (wordBytes x)[j] := store_of_mem hj
    simpa [slice] using hstore
  rw [word,hslice,wordOf_wordBytes]

theorem word_store_other (m : Memory) {i j : ℕ} (h : i ≠ j) (x : UInt64) :
    (m.store (8*j) (wordBytes x)).word i = m.word i := by
  apply word_congr
  intro k hk
  apply (Nat.lt_or_gt_of_ne h).elim
  · intro hlt
    exact store_of_lt _ (by omega)
  · intro hgt
    exact store_of_ge (by rw [wordBytes_length]; omega)

/-- Two stores, the second at the end of the first, are one. -/
theorem store_append (m : Memory) (off : ℕ) (bs cs : List UInt8) :
    (m.store off bs).store (off+bs.length) cs = m.store off (bs++cs) := by
  funext i
  by_cases hi : i < off+bs.length
  · rw [store_of_lt cs hi]
    by_cases hoff : i < off
    · rw [store_of_lt bs hoff,store_of_lt _ hoff]
    · have hbs : i-off < bs.length := by omega
      simp [store,hoff,List.getD_eq_getElem?_getD,List.getElem?_append_left hbs,hbs]
  · have hsub : i-(off+bs.length) = i-off-bs.length := by omega
    have hoff : ¬ i < off := by omega
    have hbs : bs.length ≤ i-off := by omega
    simp [store,hi,hoff,hsub,List.getD_eq_getElem?_getD,List.getElem?_append_right hbs,
      List.getElem?_eq_none hbs]

end Memory

end Bytes
