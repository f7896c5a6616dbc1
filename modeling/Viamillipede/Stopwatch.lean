import Mathlib.Data.Int.ModEq

/-! `stopwatch_stop` of `plumbing.c`, from the two times on: the version that runs and the
branching one in its comment. -/
namespace Viamillipede

/-- `struct timespec`. -/
structure Timespec where
  sec : Int64
  nsec : Int64
  deriving DecidableEq

/-- Lines 90 to 106. -/
def stopwatchStop (t stoptime : Timespec) : UInt64 :=
  let secondsdiff := stoptime.sec-t.sec
  let nanoes := stoptime.nsec-t.nsec
  let nanoes := nanoes+1000000000
  let secondsdiff := secondsdiff-1
  let secondsdiff := secondsdiff+nanoes/1000000000
  (secondsdiff*1000000+nanoes/1000).toUInt64

/-- The same with lines 94 to 97 replaced by the comment at 98. -/
def stopwatchStopSimple (t stoptime : Timespec) : UInt64 :=
  let secondsdiff := stoptime.sec-t.sec
  let nanoes := stoptime.nsec-t.nsec
  if nanoes < 0 then
    let nanoes := nanoes+1000000000
    let secondsdiff := secondsdiff-1
    (secondsdiff*1000000+nanoes/1000).toUInt64
  else (secondsdiff*1000000+nanoes/1000).toUInt64

/-- The time from `t` to `stoptime` in nanoseconds. -/
def elapsedNs (t stoptime : Timespec) : ℤ :=
  (stoptime.sec.toInt-t.sec.toInt)*10^9+(stoptime.nsec.toInt-t.nsec.toInt)

/-- Two times read from a clock in this order, not so far apart that the microseconds between
them overflow. -/
structure Timed (t stoptime : Timespec) : Prop where
  startNsec : 0 ≤ t.nsec.toInt ∧ t.nsec.toInt < 10^9
  stopNsec : 0 ≤ stoptime.nsec.toInt ∧ stoptime.nsec.toInt < 10^9
  ordered : 0 ≤ elapsedNs t stoptime
  small : (stoptime.sec.toInt-t.sec.toInt+2)*10^6 < 2^63

namespace Stopwatch

theorem toInt_add {a b : Int64} (h : -2^63 ≤ a.toInt+b.toInt) (h' : a.toInt+b.toInt < 2^63) :
    (a+b).toInt = a.toInt+b.toInt := by
  rw [Int64.toInt_add]
  exact Int.bmod_eq_of_le (by omega) (by omega)

theorem toInt_sub {a b : Int64} (h : -2^63 ≤ a.toInt-b.toInt) (h' : a.toInt-b.toInt < 2^63) :
    (a-b).toInt = a.toInt-b.toInt := by
  rw [Int64.toInt_sub]
  exact Int.bmod_eq_of_le (by omega) (by omega)

theorem toInt_mul {a b : Int64} (h : -2^63 ≤ a.toInt*b.toInt) (h' : a.toInt*b.toInt < 2^63) :
    (a*b).toInt = a.toInt*b.toInt := by
  rw [Int64.toInt_mul]
  exact Int.bmod_eq_of_le (by omega) (by omega)

theorem toInt_div {a b : Int64} (ha : 0 ≤ a.toInt) (hb : 0 < b.toInt) :
    (a/b).toInt = a.toInt/b.toInt := by
  have hne : b ≠ -1 := by
    rintro rfl
    revert hb
    decide
  rw [Int64.toInt_div_of_ne_right a b hne,Int.tdiv_eq_ediv_of_nonneg ha]

/-- Line 105, for a number of microseconds that fits. -/
theorem microseconds_toNat {secondsdiff nanoes : Int64} (hsec : 0 ≤ secondsdiff.toInt)
    (hnano : 0 ≤ nanoes.toInt) (hfits : secondsdiff.toInt*10^6+nanoes.toInt/1000 < 2^63) :
    ((secondsdiff*1000000+nanoes/1000).toUInt64.toNat : ℤ) =
      secondsdiff.toInt*10^6+nanoes.toInt/1000 := by
  have hmul : (secondsdiff*1000000).toInt = secondsdiff.toInt*1000000 :=
    toInt_mul (by change _ ≤ _*1000000; omega) (by change _*1000000 < _; omega)
  have hdiv : (nanoes/1000).toInt = nanoes.toInt/1000 := toInt_div hnano (by decide)
  have hsum : (secondsdiff*1000000+nanoes/1000).toInt =
      secondsdiff.toInt*1000000+nanoes.toInt/1000 := by
    rw [toInt_add,hmul,hdiv] <;> rw [hmul,hdiv] <;> omega
  have hnonneg : 0 ≤ secondsdiff*1000000+nanoes/1000 := by
    rw [Int64.le_iff_toInt_le,hsum]
    change 0 ≤ _
    omega
  rw [Int64.toNat_toUInt64_of_le hnonneg]
  change ((secondsdiff*1000000+nanoes/1000).toInt.toNat : ℤ) = _
  rw [hsum]
  omega

/-- The two differences, before any borrow. -/
theorem differences {t stoptime : Timespec} (h : Timed t stoptime) :
    (stoptime.sec-t.sec).toInt = stoptime.sec.toInt-t.sec.toInt ∧
      (stoptime.nsec-t.nsec).toInt = stoptime.nsec.toInt-t.nsec.toInt ∧
      0 ≤ stoptime.sec.toInt-t.sec.toInt := by
  obtain ⟨hstart,hstop,hordered,hsmall⟩ := h
  rw [elapsedNs] at hordered
  refine ⟨toInt_sub (by omega) (by omega),toInt_sub (by omega) (by omega),by omega⟩

/-- A second of the difference borrowed as a billion nanoseconds. -/
theorem borrow {t stoptime : Timespec} (h : Timed t stoptime) :
    (stoptime.nsec-t.nsec+1000000000).toInt =
        stoptime.nsec.toInt-t.nsec.toInt+1000000000 ∧
      (stoptime.sec-t.sec-1).toInt = stoptime.sec.toInt-t.sec.toInt-1 := by
  obtain ⟨hsec,hnsec,hpos⟩ := differences h
  obtain ⟨hstart,hstop,hordered,hsmall⟩ := h
  have hadd := toInt_add (a := stoptime.nsec-t.nsec) (b := 1000000000)
  have hsub := toInt_sub (a := stoptime.sec-t.sec) (b := 1)
  rw [hnsec] at hadd
  rw [hsec] at hsub
  constructor
  · exact hadd (by change _ ≤ _+1000000000; omega) (by change _+1000000000 < _; omega)
  · exact hsub (by change _ ≤ _-1; omega) (by change _-1 < _; omega)

/-- The arithmetic of lines 95 to 105 on a difference of `d` seconds and `n` nanoseconds: the
borrowed billion goes back to the seconds when it was not needed, but stays in the
nanoseconds. -/
theorem borrowed_microseconds {d n : ℤ} (hlow : -10^9 < n) (hhigh : n < 10^9) :
    (d-1+(n+1000000000)/1000000000)*10^6+(n+1000000000)/1000 =
      (d*10^9+n)/1000+if n < 0 then 0 else 10^6 := by
  split_ifs with hborrow
  · have hnone : (n+1000000000)/1000000000 = 0 := by omega
    rw [hnone]
    omega
  · have hone : (n+1000000000)/1000000000 = 1 := by omega
    rw [hone]
    omega

theorem stop_toNat {t stoptime : Timespec} (h : Timed t stoptime) :
    ((stopwatchStop t stoptime).toNat : ℤ) =
      elapsedNs t stoptime/1000+if stoptime.nsec < t.nsec then 0 else 10^6 := by
  obtain ⟨hnano,hback⟩ := borrow h
  obtain ⟨hstart,hstop,hordered,hsmall⟩ := h
  have hcarry : ((stoptime.nsec-t.nsec+1000000000)/1000000000).toInt =
      (stoptime.nsec.toInt-t.nsec.toInt+1000000000)/1000000000 := by
    rw [← hnano]
    exact toInt_div (by omega) (by decide)
  have hseconds : (stoptime.sec-t.sec-1+(stoptime.nsec-t.nsec+1000000000)/1000000000).toInt =
      stoptime.sec.toInt-t.sec.toInt-1+
        (stoptime.nsec.toInt-t.nsec.toInt+1000000000)/1000000000 := by
    rw [elapsedNs] at hordered
    rw [toInt_add,hback,hcarry] <;> rw [hback,hcarry] <;> omega
  have hborrow : stoptime.nsec < t.nsec ↔ stoptime.nsec.toInt-t.nsec.toInt < 0 := by
    rw [Int64.lt_iff_toInt_lt]
    omega
  simp only [stopwatchStop,hborrow]
  rw [elapsedNs] at hordered ⊢
  generalize stoptime.sec.toInt-t.sec.toInt = d at hordered hsmall hseconds ⊢
  generalize hn : stoptime.nsec.toInt-t.nsec.toInt = n at hordered hseconds hnano ⊢
  clear hcarry hback
  rw [microseconds_toNat,hseconds,hnano,borrowed_microseconds (by omega) (by omega)]
  · rw [hseconds]
    clear hseconds hnano
    omega
  · rw [hnano]
    clear hseconds hnano
    omega
  · rw [hseconds,hnano]
    clear hseconds hnano
    omega

/-- The branching version is exact. -/
theorem stopSimple_toNat {t stoptime : Timespec} (h : Timed t stoptime) :
    ((stopwatchStopSimple t stoptime).toNat : ℤ) = elapsedNs t stoptime/1000 := by
  obtain ⟨hnano,hback⟩ := borrow h
  obtain ⟨hsec,hnsec,hpos⟩ := differences h
  obtain ⟨hstart,hstop,hordered,hsmall⟩ := h
  have hborrow : stoptime.nsec-t.nsec < 0 ↔ stoptime.nsec.toInt-t.nsec.toInt < 0 := by
    rw [Int64.lt_iff_toInt_lt,hnsec]
    rfl
  simp only [stopwatchStopSimple,hborrow]
  rw [elapsedNs] at hordered ⊢
  generalize stoptime.sec.toInt-t.sec.toInt = d at hordered hsmall hsec hback hpos ⊢
  generalize hn : stoptime.nsec.toInt-t.nsec.toInt = n at hordered hnsec hnano ⊢
  split_ifs with hneg
  · rw [microseconds_toNat,hback,hnano]
    · clear hback hnano hsec hnsec
      omega
    · rw [hback]
      clear hback hnano hsec hnsec
      omega
    · rw [hnano]
      clear hback hnano hsec hnsec
      omega
    · rw [hback,hnano]
      clear hback hnano hsec hnsec
      omega
  · rw [microseconds_toNat,hsec,hnsec]
    · clear hback hnano hsec hnsec
      omega
    · rw [hsec]
      exact hpos
    · rw [hnsec]
      exact not_lt.mp hneg
    · rw [hsec,hnsec]
      clear hback hnano hsec hnsec
      omega

end Stopwatch

/-- The branch-free borrow is exact, and agrees with the branching one, just when the borrow is
needed. -/
theorem stopwatch_exact_iff {t stoptime : Timespec} (h : Timed t stoptime) :
    (((stopwatchStop t stoptime).toNat : ℤ) = elapsedNs t stoptime/1000 ∧
        stopwatchStop t stoptime = stopwatchStopSimple t stoptime) ↔
      stoptime.nsec < t.nsec := by
  have hfree := Stopwatch.stop_toNat h
  have hplain := Stopwatch.stopSimple_toNat h
  constructor
  · rintro ⟨hexact,-⟩
    by_contra hborrow
    rw [if_neg hborrow] at hfree
    omega
  · intro hborrow
    rw [if_pos hborrow,add_zero] at hfree
    exact ⟨hfree,UInt64.toNat_inj.mp (by omega)⟩

/-- From 1.9 s to 3.1 s. -/
theorem stopwatch_exact_borrowing :
    ((stopwatchStop ⟨1,900000000⟩ ⟨3,100000000⟩).toNat : ℤ) = 1200000 ∧
      stopwatchStop ⟨1,900000000⟩ ⟨3,100000000⟩ =
        stopwatchStopSimple ⟨1,900000000⟩ ⟨3,100000000⟩ := by
  have htimed : Timed ⟨1,900000000⟩ ⟨3,100000000⟩ :=
    ⟨by decide +kernel,by decide +kernel,by decide +kernel,by decide +kernel⟩
  have helapsed : elapsedNs ⟨1,900000000⟩ ⟨3,100000000⟩/1000 = 1200000 := by decide +kernel
  obtain ⟨hexact,hsame⟩ := (stopwatch_exact_iff htimed).mpr (by decide +kernel)
  exact ⟨hexact.trans helapsed,hsame⟩

/-- A microsecond is reported as a second and a microsecond. -/
theorem stopwatch_not_exact :
    Timed ⟨0,0⟩ ⟨0,1000⟩ ∧ elapsedNs ⟨0,0⟩ ⟨0,1000⟩/1000 = 1 ∧
      stopwatchStopSimple ⟨0,0⟩ ⟨0,1000⟩ = 1 ∧ stopwatchStop ⟨0,0⟩ ⟨0,1000⟩ = 1000001 := by
  refine ⟨⟨?_,?_,?_,?_⟩,?_,?_,?_⟩ <;> decide +kernel

end Viamillipede
