import Viamillipede.Tx

/-! `bufferfill` of `plumbing.c`: the read loop behind `txingest`.

One step is one `read` with the code behind it, up to the next `read` or the return.
What `read` returns is chosen by the environment through the actions. -/
namespace Viamillipede

open Bytes Transition

/-- The locals of `bufferfill`, the memory behind `dest`, and whether `errno` is set. The
last two fields are history: the bytes taken from the descriptor, and what each `read`
returned. -/
structure Bufferfill where
  remainder : ℤ
  destCursor : ℕ
  accumulator : ℤ
  sleepThief : ℤ
  dest : Memory
  errno : Bool
  returned : Option ℤ
  exited : Option Exit
  consumed : List UInt8
  reads : List ℕ

/-- What may happen next: a `read` returns bytes or fails, or a signal ends `usleep` early. -/
inductive FillAction
  | read (bs : List UInt8)
  | readFailed
  | interrupted
  deriving DecidableEq

/-- The value of an `int` that `x` has been assigned to. -/
def asInt (x : ℤ) : ℤ := x.bmod (2^32)

theorem asInt_lt (x : ℤ) : asInt x < 2^31 := by
  have hlt := Int.bmod_lt (x := x) (m := 2^32) (by decide)
  norm_num at hlt
  exact hlt

theorem asInt_eq {x : ℤ} (hlow : 0 ≤ x) (hlt : x < 2^31) : asInt x = x := by
  apply Int.bmod_eq_of_le_mul_two <;> norm_num <;> omega

namespace Bufferfill

/-- Lines 30 to 34. -/
def enter (size : UInt64) (dest : Memory) : Bufferfill where
  remainder := toInt size
  destCursor := 0
  accumulator := 0
  sleepThief := 0
  dest := dest
  errno := false
  returned := none
  exited := none
  consumed := []
  reads := []

/-- What line 43 asks for; `read` takes it as a `size_t`. -/
def request (f : Bufferfill) : ℕ := (UInt64.ofInt (min (maxbsize : ℤ) f.remainder)).toNat

/-- Lines 54 to 65, after a `read` that stored `bs` at the cursor. -/
def advanced (charmode : Bool) (f : Bufferfill) (bs : List UInt8) : Bufferfill :=
  { f with
    remainder := asInt (f.remainder-bs.length)
    destCursor := f.destCursor+bs.length
    accumulator := f.accumulator+bs.length
    sleepThief := if bs.length < maxbsize ∧ charmode = false then f.sleepThief+1 else 0
    dest := f.dest.store f.destCursor bs
    consumed := f.consumed++bs
    reads := f.reads++[bs.length] }

/-- Line 73. -/
def finish (f : Bufferfill) : Bufferfill := { f with returned := some f.accumulator }

/-- Lines 54 to 72. -/
def taken (charmode : Bool) (f : Bufferfill) (bs : List UInt8) : Bufferfill :=
  let g := f.advanced charmode bs
  if g.remainder < 0 then { g with exited := some (.assertion 55) }
  else if bs.length < 1 ∨ charmode = true then g.finish
  else if 0 < g.remainder then g
  else g.finish

end Bufferfill

/-- The loop as a step function. -/
def fillStep (charmode : Bool) (f : Bufferfill) (a : FillAction) : Option Bufferfill :=
  if f.exited.isSome ∨ f.returned.isSome then none else
  match a with
  | .read bs =>
    if f.errno then some { f with exited := some (.checkperror 39) }
    else if f.request < bs.length then none
    else some (f.taken charmode bs)
  | .readFailed => some { f with exited := some (.checkperror (if f.errno then 39 else 45)) }
  | .interrupted => if 0 < f.sleepThief then some { f with errno := true } else none

def fillMachine (charmode : Bool) (size : UInt64) (dest : Memory) :
    Machine Bufferfill FillAction where
  init := fun f => f = .enter size dest
  step := fillStep charmode

/-- The `read` succeeds and `errno` stays 0. -/
def FillAction.successful : Bufferfill → FillAction → Prop
  | _,.read _ => True
  | _,_ => False

instance (f : Bufferfill) (a : FillAction) : Decidable (FillAction.successful f a) := by
  cases a <;> unfold FillAction.successful <;> infer_instance

variable {charmode : Bool} {size : UInt64} {dest : Memory}

namespace Bufferfill

/-- What the cursor, the counters and the buffer have to do with the bytes consumed, while
every `read` succeeds. -/
structure Filling (size : UInt64) (dest : Memory) (f : Bufferfill) : Prop where
  alive : f.exited = none
  errno : f.errno = false
  cursor : f.destCursor = f.consumed.length
  accumulator : f.accumulator = f.consumed.length
  remainder : f.remainder+f.consumed.length = size.toNat
  nonneg : 0 ≤ f.remainder
  dest : f.dest = dest.store 0 f.consumed

/-- When the loop goes on, and what it has seen when it does not. -/
structure Paced (charmode : Bool) (size : UInt64) (f : Bufferfill) : Prop where
  reads : f.reads.length ≤ size.toNat
  running : f.returned = none → 0 < f.remainder ∧ f.reads.length ≤ f.consumed.length ∧
    (charmode = true → f.reads = [] ∧ f.consumed = [])
  stopped : ∀ n, f.returned = some n → n = f.consumed.length ∧
    (charmode = true → f.reads = [f.consumed.length]) ∧
    (charmode = false → f.remainder = 0 ∨ f.reads.getLast? = some 0)

theorem Filling.enter (hint : size.toNat < 2^31) : Filling size dest (.enter size dest) := by
  have hsize : toInt size = size.toNat := toInt_of_lt hint
  refine ⟨rfl,rfl,rfl,rfl,?_,?_,?_⟩
  · simpa [Bufferfill.enter] using hsize
  · simp [Bufferfill.enter,hsize]
  · funext i
    simp [Bufferfill.enter,Memory.store]

theorem Paced.enter (hpos : 0 < size.toNat) (hint : size.toNat < 2^31) :
    Paced charmode size (.enter size dest) := by
  have hsize : toInt size = size.toNat := toInt_of_lt hint
  refine ⟨Nat.zero_le _,fun _ => ⟨?_,le_rfl,fun _ => ⟨rfl,rfl⟩⟩,fun n h => by cases h⟩
  simpa [Bufferfill.enter,hsize] using hpos

/-- The request stays inside the buffer. -/
theorem request_eq {f : Bufferfill} (h : 0 ≤ f.remainder) :
    (f.request : ℤ) = min (maxbsize : ℤ) f.remainder := by
  have hmax : (maxbsize : ℤ) < 2^64 := by decide
  exact toNat_ofInt (by omega) (by omega)

/-- As long as the bytes fit, nothing wraps. -/
theorem advanced_remainder {f : Bufferfill} {bs : List UInt8} (hbs : (bs.length : ℤ) ≤ f.remainder)
    (hlt : f.remainder < 2^31) : (f.advanced charmode bs).remainder = f.remainder-bs.length :=
  asInt_eq (by omega) (by omega)

theorem Filling.remainder_lt {f : Bufferfill} (hf : Filling size dest f)
    (hint : size.toNat < 2^31) : f.remainder < 2^31 := by
  have hremainder := hf.remainder
  omega

theorem Filling.advanced {f : Bufferfill} (hf : Filling size dest f) (hint : size.toNat < 2^31)
    (charmode : Bool) {bs : List UInt8} (hbs : (bs.length : ℤ) ≤ f.remainder) :
    Filling size dest (f.advanced charmode bs) := by
  have hremainder := hf.remainder
  have hleft : (f.advanced charmode bs).remainder = f.remainder-bs.length :=
    advanced_remainder hbs (hf.remainder_lt hint)
  refine ⟨hf.alive,hf.errno,?_,?_,?_,?_,?_⟩
  · simp [Bufferfill.advanced,hf.cursor]
  · simp [Bufferfill.advanced,hf.accumulator]
  · rw [hleft]
    simp only [Bufferfill.advanced,List.length_append]
    omega
  · omega
  · have happend := Memory.store_append dest 0 f.consumed bs
    rwa [Nat.zero_add,← hf.dest,← hf.cursor] at happend

theorem Filling.finish {f : Bufferfill} (hf : Filling size dest f) : Filling size dest f.finish :=
  ⟨hf.alive,hf.errno,hf.cursor,hf.accumulator,hf.remainder,hf.nonneg,hf.dest⟩

/-- One successful `read`: the loop goes on, or returns for one of its three reasons. -/
theorem taken_keeps {f : Bufferfill} (hf : Filling size dest f) (hp : Paced charmode size f)
    (hint : size.toNat < 2^31) (hrun : f.returned = none) {bs : List UInt8}
    (hbs : bs.length ≤ f.request) :
    Filling size dest (f.taken charmode bs) ∧ Paced charmode size (f.taken charmode bs) := by
  have hrequest := request_eq hf.nonneg
  obtain ⟨hroom,hreads,hfirst⟩ := hp.running hrun
  have hfits : (bs.length : ℤ) ≤ f.remainder := by omega
  have hg := hf.advanced hint charmode hfits
  have hnonneg := hg.nonneg
  have hremainder := hf.remainder
  have hcount : (f.reads++[bs.length]).length ≤ size.toNat := by
    rw [List.length_append,List.length_singleton]
    omega
  have hfinish (hend : charmode = false → (f.advanced charmode bs).remainder = 0 ∨ bs.length = 0) :
      Paced charmode size (f.advanced charmode bs).finish := by
    refine ⟨hcount,?_,?_⟩
    · intro h
      cases h
    · intro n hn
      cases hn
      refine ⟨hg.accumulator,fun hchar => ?_,fun hchar => (hend hchar).imp id fun hempty => ?_⟩
      · obtain ⟨hnone,hempty⟩ := hfirst hchar
        simp [Bufferfill.finish,Bufferfill.advanced,hnone,hempty]
      · simp [Bufferfill.finish,Bufferfill.advanced,hempty]
  unfold Bufferfill.taken
  simp only
  rw [if_neg (by omega)]
  by_cases hstop : bs.length < 1 ∨ charmode = true
  · rw [if_pos hstop]
    refine ⟨hg.finish,hfinish fun hchar => .inr ?_⟩
    simp only [hchar,Bool.false_eq_true,or_false] at hstop
    omega
  · rw [if_neg hstop]
    by_cases hmore : 0 < (f.advanced charmode bs).remainder
    · rw [if_pos hmore]
      refine ⟨hg,hcount,?_,?_⟩
      · intro _
        refine ⟨hmore,?_,fun hchar => absurd (.inr hchar) hstop⟩
        simp only [Bufferfill.advanced,List.length_append,List.length_singleton]
        omega
      · intro n hn
        simp [Bufferfill.advanced,hrun] at hn
    · rw [if_neg hmore]
      exact ⟨hg.finish,hfinish fun _ => .inl (by omega)⟩

theorem reachable {f : Bufferfill} (hpos : 0 < size.toNat) (hint : size.toNat < 2^31)
    (hf : Reachable (fillMachine charmode size dest) FillAction.successful f) :
    Filling size dest f ∧ Paced charmode size f := by
  refine hf.invariant (I := fun f => Filling size dest f ∧ Paced charmode size f) ?_ ?_
  · rintro f rfl
    exact ⟨.enter hint,.enter hpos hint⟩
  · rintro f a g - ⟨hfill,hpaced⟩ ha hstep
    cases a with
    | read bs =>
      simp only [fillMachine,fillStep,hfill.alive,hfill.errno] at hstep
      split at hstep
      · cases hstep
      · rename_i hrun
        split at hstep
        · contradiction
        split at hstep <;> cases hstep
        exact taken_keeps hfill hpaced hint (by simpa using hrun) (by omega)
    | readFailed => exact ha.elim
    | interrupted => exact ha.elim

end Bufferfill

/-- What `bufferfill` owes its caller, in every state of the loop: the buffer holds the bytes
consumed, in order and inside `dest`; the loop cannot get stuck or go on for ever; and the
value returned counts those bytes. -/
structure ReadsNext (charmode : Bool) (size : UInt64) (dest : Memory) (f : Bufferfill) : Prop where
  alive : f.exited = none
  stored : f.dest.read f.consumed.length = f.consumed
  bounded : f.consumed.length ≤ size.toNat
  outside : ∀ i, f.consumed.length ≤ i → f.dest i = dest i
  progress : f.returned = none → 0 < f.request ∧ f.consumed.length+f.request ≤ size.toNat ∧
    ∀ bs : List UInt8, bs.length ≤ f.request → (fillStep charmode f (.read bs)).isSome
  finite : f.reads.length ≤ size.toNat
  count : ∀ n, f.returned = some n → n = f.consumed.length
  short : charmode = false → ∀ n, f.returned = some n → n < size.toNat → f.reads.getLast? = some 0
  single : charmode = true → ∀ n, f.returned = some n → f.reads = [n.toNat]

/-- While every `read` succeeds, `bufferfill` reads exactly the next bytes, for any size that
an `int` can hold. -/
theorem readsNext_of_successful {f : Bufferfill} (hpos : 0 < size.toNat)
    (hint : size.toNat < 2^31)
    (hf : Reachable (fillMachine charmode size dest) FillAction.successful f) :
    ReadsNext charmode size dest f := by
  obtain ⟨hfill,hpaced⟩ := Bufferfill.reachable hpos hint hf
  have hremainder := hfill.remainder
  have hnonneg := hfill.nonneg
  have hrequest := Bufferfill.request_eq hnonneg
  refine ⟨hfill.alive,?_,by omega,fun i hi => ?_,fun hrun => ?_,hpaced.reads,
    fun n hn => (hpaced.stopped n hn).1,fun hchar n hn hlt => ?_,fun hchar n hn => ?_⟩
  · rw [hfill.dest,Memory.read_store_zero]
  · rw [hfill.dest,Memory.store_of_ge (by omega)]
  · have hmax : (0 : ℤ) < maxbsize := by decide
    obtain ⟨hroom,-⟩ := hpaced.running hrun
    refine ⟨by omega,by omega,fun bs hbs => ?_⟩
    simp [fillStep,hfill.alive,hfill.errno,hrun,hbs]
  · obtain ⟨hcount,-,hend⟩ := hpaced.stopped n hn
    exact (hend hchar).resolve_left (by omega)
  · obtain ⟨hcount,hone,-⟩ := hpaced.stopped n hn
    rw [hone hchar,hcount,Int.toNat_natCast]

/-- Three bytes that arrive as two and one. -/
theorem readsNext_shortReads :
    ∃ f ∈ exec (fillMachine false 3 fun _ => 0) FillAction.successful (.enter 3 fun _ => 0)
        [.read [1,2],.read [3]],
      f.returned = some 3 ∧ f.consumed = [1,2,3] ∧ ReadsNext false 3 (fun _ => 0) f := by
  have hrun : ∃ f ∈ exec (fillMachine false 3 fun _ => 0) FillAction.successful
      (.enter 3 fun _ => 0) [.read [1,2],.read [3]],
      f.returned = some 3 ∧ f.consumed = [1,2,3] := by decide
  obtain ⟨f,hf,hn,hbytes⟩ := hrun
  exact ⟨f,hf,hn,hbytes,
    readsNext_of_successful (by decide) (by decide) (reachable_exec (.init rfl) hf)⟩

/-- A call over a worker's buffer is the step by which `txingest` goes on with a fill. -/
theorem txStep_fill_of_bufferfill {W : ℕ} {cfg : TxConfig} {s : TxState W} {w : Fin W}
    (hpc : s.ingest.pc = .fill w) (hseed : ¬ cfg.gprbsSeed > 0) (halive : s.exited = none)
    {f : Bufferfill} {n : ℤ} (hn : f.returned = some n)
    (hf : Reachable (fillMachine charmode (UInt64.ofNat kfootsize) (s.workers w).buffer)
      FillAction.successful f) :
    ∃ data : Payload, data.val = f.consumed ∧ n = data.val.length ∧
      txStep cfg s (.fill data) =
        some (ingestFilled cfg (s.setWorker w { s.workers w with buffer := f.dest }) w data) := by
  have hsize : (UInt64.ofNat kfootsize).toNat = kfootsize := toNat_word (by decide)
  have hpos : 0 < (UInt64.ofNat kfootsize).toNat := by rw [hsize]; decide
  have hint : (UInt64.ofNat kfootsize).toNat < 2^31 := by rw [hsize]; decide
  obtain ⟨hfill,hpaced⟩ := Bufferfill.reachable hpos hint hf
  have hfits : f.consumed.length ≤ kfootsize := by
    have hremainder := hfill.remainder
    have hnonneg := hfill.nonneg
    omega
  refine ⟨⟨f.consumed,hfits⟩,rfl,(hpaced.stopped n hn).1,?_⟩
  simp [txStep,halive,hpc,hseed,hfill.dest]

end Viamillipede
