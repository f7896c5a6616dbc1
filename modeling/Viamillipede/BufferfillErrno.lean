import Viamillipede.Bufferfill

/-! A leftover `errno` in `bufferfill`. One call is run twice over the same successful `read`
results: once with `errno` 0 throughout, once with what the caller and the interrupted
`usleep` calls leave in it. -/
namespace Viamillipede

open Bytes Transition

/-- One turn of the loop: the bytes `read` returns, and the `errno` that the `usleep` behind
it is left with. -/
structure FillTurn where
  bytes : List UInt8
  left : ℤ

/-- The same results with `errno` 0 after every `usleep`. -/
def calm (turns : List FillTurn) : List FillTurn := turns.map fun t => { t with left := 0 }

namespace Bufferfill

/-- Lines 30 to 34, with the caller's `errno`. -/
def enterWith (errno : ℤ) (size : UInt64) (dest : Memory) : Bufferfill :=
  { enter size dest with errno := decide (errno ≠ 0) }

/-- A signal ends the `usleep` of line 62, if the turn reached it. -/
def slept (charmode : Bool) (f : Bufferfill) (left : ℤ) : Bufferfill :=
  if left = 0 then f else (fillStep charmode f .interrupted).getD f

/-- The turns of one call; a process that has exited reads nothing more. -/
def turns (charmode : Bool) : Bufferfill → List FillTurn → Option Bufferfill
  | f, [] => some f
  | f, t::ts =>
    if f.exited.isSome then some f
    else (fillStep charmode f (.read t.bytes)).bind fun g =>
      turns charmode (g.slept charmode t.left) ts

/-- The loop is over. -/
def Over (f : Bufferfill) : Prop := f.returned.isSome ∨ f.exited.isSome

/-- What the caller gets: nothing from a process that has exited, else the value returned
and the bytes in `dest`. -/
def outcome (f : Bufferfill) : Option (Option ℤ × Memory) :=
  if f.exited.isSome then none else some (f.returned,f.dest)

end Bufferfill

/-- A call of `bufferfill` with the `errno` it finds on entry. -/
def bufferfill (charmode : Bool) (size : UInt64) (dest : Memory) (errno : ℤ)
    (turns : List FillTurn) : Option Bufferfill :=
  (Bufferfill.enterWith errno size dest).turns charmode turns

namespace Bufferfill

variable {charmode : Bool} {size : UInt64} {dest : Memory} {f g : Bufferfill}

theorem turns_of_exited (h : f.exited.isSome) (ts : List FillTurn) :
    f.turns charmode ts = some f := by
  cases ts <;> simp [turns,h]

theorem outcome_of_exited (h : f.exited.isSome) : f.outcome = none := by
  simp [outcome,h]

theorem outcome_of_alive (h : f.exited = none) : f.outcome = some (f.returned,f.dest) := by
  simp [outcome,h]

@[simp] theorem slept_zero (f : Bufferfill) : f.slept charmode 0 = f := by
  simp [slept]

/-- The interrupted `usleep` changes nothing but `errno`. -/
theorem slept_eq (charmode : Bool) (f : Bufferfill) (left : ℤ) :
    f.slept charmode left = f ∨ f.slept charmode left = { f with errno := true } := by
  unfold slept fillStep
  split_ifs <;> simp

theorem slept_of_exited (h : f.exited.isSome) (left : ℤ) : f.slept charmode left = f := by
  simp [slept,fillStep,h]

/-- A call is made of steps of the loop, so what holds of every run holds of it. -/
theorem turns_reachable (hf : Reachable (fillMachine charmode size dest) anyStep f)
    {ts : List FillTurn} (h : f.turns charmode ts = some g) :
    Reachable (fillMachine charmode size dest) anyStep g := by
  induction ts generalizing f with
  | nil =>
    cases h
    exact hf
  | cons t ts ih =>
    rw [turns] at h
    split_ifs at h
    · cases h
      exact hf
    · obtain ⟨k,hk,hrest⟩ := Option.bind_eq_some_iff.mp h
      have hstep : (fillMachine charmode size dest).step f (.read t.bytes) = some k := hk
      have hread := hf.step trivial hstep
      refine ih ?_ hrest
      unfold slept
      split_ifs
      · exact hread
      · cases hwoken : fillStep charmode k .interrupted with
        | none => exact hread
        | some j =>
          have hwake : (fillMachine charmode size dest).step k .interrupted = some j := hwoken
          exact hread.step trivial hwake

theorem outcome_slept (f : Bufferfill) (left : ℤ) :
    (f.slept charmode left).outcome = f.outcome := by
  apply (slept_eq charmode f left).elim <;> intro h <;> rw [h]
  rfl

/-- Lines 36 to 43 with `errno` set: the process exits whatever `read` would return. -/
theorem turns_of_errno (charmode : Bool) (halive : f.exited = none) (hrun : f.returned = none)
    (herrno : f.errno = true) (t : FillTurn) (ts : List FillTurn) :
    ∃ g, f.turns charmode (t::ts) = some g ∧ g.exited = some (.checkperror 39) := by
  have hstep : fillStep charmode f (.read t.bytes) =
      some { f with exited := some (.checkperror 39) } := by
    simp [fillStep,halive,hrun,herrno]
  refine ⟨{ f with exited := some (.checkperror 39) },?_,rfl⟩
  rw [turns,if_neg (by simp [halive]),hstep,Option.bind_some,slept_of_exited rfl,
    turns_of_exited rfl]

/-- Lines 36 to 72 with `errno` 0. -/
theorem turns_cons (halive : f.exited = none) (herrno : f.errno = false) (t : FillTurn)
    (ts : List FillTurn) : f.turns charmode (t::ts) =
      if f.returned.isSome ∨ f.request < t.bytes.length then none
      else ((f.taken charmode t.bytes).slept charmode t.left).turns charmode ts := by
  by_cases hrun : f.returned.isSome <;> by_cases hbig : f.request < t.bytes.length <;>
    simp [turns,fillStep,halive,herrno,hrun,hbig]

/-- The loop with nothing wrong so far. -/
structure Sound (f : Bufferfill) : Prop where
  alive : f.exited = none
  errno : f.errno = false
  thief : 0 ≤ f.sleepThief

/-- One successful `read` ends the process by assertion 55 or leaves the loop sound. -/
theorem Sound.taken (hf : f.Sound) (charmode : Bool) {bs : List UInt8}
    (halive : (f.taken charmode bs).exited = none) : (f.taken charmode bs).Sound := by
  have hthief := hf.thief
  have hadvanced : (f.advanced charmode bs).Sound := by
    refine ⟨hf.alive,hf.errno,?_⟩
    simp only [advanced]
    split_ifs <;> omega
  unfold Bufferfill.taken at halive ⊢
  simp only at halive ⊢
  split_ifs at halive ⊢
  · exact ⟨hadvanced.alive,hadvanced.errno,hadvanced.thief⟩
  · exact hadvanced
  · exact ⟨hadvanced.alive,hadvanced.errno,hadvanced.thief⟩

theorem taken_exited (hf : f.Sound) (charmode : Bool) (bs : List UInt8) :
    (f.taken charmode bs).exited = none ↔ 0 ≤ asInt (f.remainder-bs.length) := by
  have halive : (f.advanced charmode bs).exited = none := hf.alive
  unfold Bufferfill.taken
  simp only
  split_ifs with hlow
  · exact iff_of_false (by simp) (not_le.mpr hlow)
  all_goals exact iff_of_true halive (not_lt.mp hlow)

@[simp] theorem taken_remainder (charmode : Bool) (f : Bufferfill) (bs : List UInt8) :
    (f.taken charmode bs).remainder = asInt (f.remainder-bs.length) := by
  unfold Bufferfill.taken
  simp only
  split_ifs <;> rfl

/-- After a turn that another one follows, `usleep` was reached when the `read` was short. -/
theorem thief_taken (hf : f.Sound) {bs : List UInt8} (hgo : (f.taken charmode bs).returned = none)
    (halive : (f.taken charmode bs).exited = none) :
    0 < (f.taken charmode bs).sleepThief ↔ bs.length < maxbsize := by
  have hthief := hf.thief
  unfold Bufferfill.taken at hgo halive ⊢
  simp only at hgo halive ⊢
  split_ifs at hgo halive ⊢ with hlow hstop hmore
  · cases hgo
  · simp only [not_or,Bool.not_eq_true] at hstop
    simp only [advanced,hstop.2,and_true]
    split_ifs with hshort
    · simp only [hshort,iff_true]
      omega
    · simp [hshort]
  · cases hgo

/-- What `usleep` does after such a turn. -/
theorem slept_taken (hf : f.Sound) {bs : List UInt8}
    (halive : (f.taken charmode bs).exited = none)
    (hgo : (f.taken charmode bs).returned = none) (left : ℤ) :
    ((f.taken charmode bs).slept charmode left).errno = true ↔
      bs.length < maxbsize ∧ left ≠ 0 := by
  have hnext := hf.taken charmode halive
  have hthief := thief_taken hf hgo hnext.alive
  by_cases hleft : left = 0
  · simp [hleft,hnext.errno]
  · rw [← hthief]
    by_cases h : 0 < (f.taken charmode bs).sleepThief <;>
      simp [slept,fillStep,hleft,h,hnext.alive,hnext.errno,hgo]

/-- Once `remainder` is not negative a calm call does not end the process. -/
theorem turns_alive (hf : f.Sound) (hroom : 0 ≤ f.remainder) (hlt : f.remainder < 2^31)
    {ts : List FillTurn} (h : f.turns charmode (calm ts) = some g) : g.exited = none := by
  induction ts generalizing f with
  | nil =>
    cases h
    exact hf.alive
  | cons t ts ih =>
    rw [calm,List.map_cons,turns_cons hf.alive hf.errno] at h
    simp only [slept_zero] at h
    split_ifs at h with hbad
    simp only [not_or,not_lt] at hbad
    have hrequest := request_eq hroom
    have hleft : asInt (f.remainder-t.bytes.length) = f.remainder-t.bytes.length :=
      asInt_eq (by omega) (by omega)
    have halive := (taken_exited hf charmode t.bytes).mpr (by omega)
    exact ih (hf.taken charmode halive) (by rw [taken_remainder]; omega)
      (by rw [taken_remainder]; omega) h

/-- From a sound state, a call comes out like the calm one when no `usleep` that another
`read` follows leaves `errno` set, and only then. -/
theorem turns_same_iff (hf : f.Sound) {ts : List FillTurn}
    (hcalm : f.turns charmode (calm ts) = some g) (hlive : g.exited = none) :
    (∃ h, f.turns charmode ts = some h ∧ h.outcome = g.outcome) ↔
      ∀ t ∈ ts.dropLast, t.bytes.length < maxbsize → t.left = 0 := by
  induction ts generalizing f with
  | nil =>
    cases hcalm
    simp [turns]
  | cons t ts ih =>
    rw [calm,List.map_cons,turns_cons hf.alive hf.errno] at hcalm
    rw [turns_cons hf.alive hf.errno]
    simp only [slept_zero] at hcalm
    split_ifs at hcalm with hbad
    rw [if_neg hbad]
    simp only [not_or,not_lt,Bool.not_eq_true,Option.isSome_eq_false_iff,
      Option.isNone_iff_eq_none] at hbad
    have halive : (f.taken charmode t.bytes).exited = none := by
      by_contra hexit
      rw [turns_of_exited (Option.isSome_iff_ne_none.mpr hexit)] at hcalm
      cases hcalm
      exact hexit hlive
    have hnext := hf.taken charmode halive
    cases ts with
    | nil =>
      -- the last turn: whatever `usleep` leaves, this call does not look at it again
      cases hcalm
      simp [turns,outcome_slept]
    | cons u us =>
      have hgo : (f.taken charmode t.bytes).returned = none := by
        by_contra hgone
        rw [List.map_cons,turns_cons hnext.alive hnext.errno] at hcalm
        simp [Option.isSome_iff_ne_none,hgone] at hcalm
      have hslept := slept_taken hf halive hgo t.left
      rw [List.dropLast_cons_of_ne_nil (List.cons_ne_nil u us)]
      simp only [List.mem_cons,forall_eq_or_imp]
      rcases slept_eq charmode (f.taken charmode t.bytes) t.left with hsame | hset
      · rw [hsame] at hslept ⊢
        rw [hnext.errno] at hslept
        have hquiet : t.bytes.length < maxbsize → t.left = 0 := by
          intro hshort
          by_contra hleft
          exact Bool.false_ne_true (hslept.mpr ⟨hshort,hleft⟩)
        exact (ih hnext hcalm).trans (and_iff_right hquiet).symm
      · have hleft := hslept.mp (by rw [hset])
        rw [hset]
        apply iff_of_false
        · rintro ⟨h,hrun,hsame⟩
          obtain ⟨k,hdead,hexit⟩ := turns_of_errno charmode
            (f := { f.taken charmode t.bytes with errno := true }) hnext.alive hgo rfl u us
          cases hdead.symm.trans hrun
          rw [outcome_of_exited (by simp [hexit]),outcome_of_alive hlive] at hsame
          cases hsame
        · intro h
          exact hleft.2 (h.1 hleft.1)

/-- Where assertion 55 fails behind the first `read`, that turn is the last one. -/
theorem turns_of_negative (charmode : Bool) (halive : f.exited = none) (hrun : f.returned = none)
    {t : FillTurn} (hneg : asInt (f.remainder-t.bytes.length) < 0)
    (hfits : t.bytes.length ≤ f.request) (ts : List FillTurn) :
    ∃ g, f.turns charmode (t::ts) = some g ∧ g.exited.isSome := by
  by_cases herrno : f.errno = true
  · obtain ⟨g,hg,hexit⟩ := turns_of_errno charmode halive hrun herrno t ts
    exact ⟨g,hg,by simp [hexit]⟩
  · have htaken : (f.taken charmode t.bytes).exited = some (.assertion 55) := by
      have hlow : (f.advanced charmode t.bytes).remainder < 0 := hneg
      simp [Bufferfill.taken,hlow]
    refine ⟨f.taken charmode t.bytes,?_,by simp [htaken]⟩
    rw [turns_cons halive (by simpa using herrno),if_neg (by simp [hrun,hfits]),
      slept_of_exited (by simp [htaken]),turns_of_exited (by simp [htaken])]

end Bufferfill

variable {charmode : Bool} {size : UInt64} {dest : Memory}

/-- The first `read` leaves `remainder` below 0: the size is negative as an `int`, and taking
the count off has not wrapped it around. -/
def FailsAssertion (size : UInt64) (ts : List FillTurn) : Prop :=
  ∃ t ∈ ts.head?, asInt (toInt size-t.bytes.length) < 0

/-- A whole call comes out the same whatever `errno` is exactly when assertion 55 ends the
process behind the first `read` anyway, or `errno` is 0 on entry and after every `usleep`
that another `read` follows. -/
theorem bufferfill_errno_iff {errno : ℤ} {ts : List FillTurn} {f : Bufferfill}
    (hcalm : bufferfill charmode size dest 0 (calm ts) = some f) (hover : f.Over) :
    (∃ g, bufferfill charmode size dest errno ts = some g ∧ g.outcome = f.outcome) ↔
      FailsAssertion size ts ∨
        (errno = 0 ∧ ∀ t ∈ ts.dropLast, t.bytes.length < maxbsize → t.left = 0) := by
  unfold bufferfill at hcalm ⊢
  cases ts with
  | nil =>
    cases hcalm
    simp [Bufferfill.Over,Bufferfill.enterWith,Bufferfill.enter] at hover
  | cons t ts =>
    have hsound : (Bufferfill.enterWith 0 size dest).Sound := ⟨rfl,rfl,le_rfl⟩
    have hfirst := hcalm
    rw [calm,List.map_cons,Bufferfill.turns_cons rfl rfl] at hfirst
    simp only [Bufferfill.slept_zero] at hfirst
    split_ifs at hfirst with hbad
    simp only [not_or,not_lt] at hbad
    have hfails : FailsAssertion size (t::ts) ↔ asInt (toInt size-t.bytes.length) < 0 := by
      simp [FailsAssertion]
    by_cases hneg : asInt (toInt size-t.bytes.length) < 0
    · simp only [hfails,hneg,true_or,iff_true]
      obtain ⟨g,hg,hexit⟩ := Bufferfill.turns_of_negative charmode
        (f := Bufferfill.enterWith errno size dest) rfl rfl hneg hbad.2 ts
      obtain ⟨k,hk,hdead⟩ := Bufferfill.turns_of_negative charmode
        (f := Bufferfill.enterWith 0 size dest) (t := { t with left := 0 }) rfl rfl hneg hbad.2
        (calm ts)
      cases hk.symm.trans hcalm
      refine ⟨g,hg,?_⟩
      rw [Bufferfill.outcome_of_exited hexit,Bufferfill.outcome_of_exited hdead]
    · -- behind the first turn `remainder` is an `int` that is not negative
      have halive := (Bufferfill.taken_exited hsound charmode t.bytes).mpr (not_lt.mp hneg)
      have hlive : f.exited = none := by
        refine Bufferfill.turns_alive (hsound.taken charmode halive) ?_ ?_ hfirst <;>
          rw [Bufferfill.taken_remainder]
        · exact not_lt.mp hneg
        · exact asInt_lt _
      by_cases herrno : errno = 0
      · subst herrno
        simpa [hfails,hneg] using Bufferfill.turns_same_iff hsound hcalm hlive
      · obtain ⟨k,hrun,hexit⟩ := Bufferfill.turns_of_errno charmode
          (f := Bufferfill.enterWith errno size dest) rfl rfl
          (by simp [Bufferfill.enterWith,herrno]) t ts
        simp only [hfails,hneg,herrno,false_and,or_false,iff_false]
        rintro ⟨g,hg,hsame⟩
        cases hrun.symm.trans hg
        rw [Bufferfill.outcome_of_exited (by simp [hexit]),
          Bufferfill.outcome_of_alive hlive] at hsame
        cases hsame

/-- A call for two bytes that come one at a time, undisturbed. -/
theorem bufferfill_errno_iff_calm :
    ∃ f, bufferfill false 2 (fun _ => 0) 0 (calm [⟨[1],0⟩,⟨[2],4⟩]) = some f ∧ f.Over ∧
      ∃ g, bufferfill false 2 (fun _ => 0) 0 [⟨[1],0⟩,⟨[2],4⟩] = some g ∧
        g.outcome = f.outcome := by
  have hover : ∃ f ∈ bufferfill false 2 (fun _ => 0) 0 (calm [⟨[1],0⟩,⟨[2],4⟩]),
      f.returned = some 2 := by decide
  obtain ⟨f,hf,htwo⟩ := hover
  have hdone : f.Over := .inl (by simp [htwo])
  exact ⟨f,hf,hdone,(bufferfill_errno_iff hf hdone).mpr (.inr (by decide))⟩

/-- The same two bytes when `SIGUSR1` ends the first `usleep` with `EINTR`: the process exits
on line 39 and the second byte is never read. -/
theorem bufferfill_exits_on_eintr :
    ∃ f g, bufferfill false 2 (fun _ => 0) 0 (calm [⟨[1],4⟩,⟨[2],0⟩]) = some f ∧
      bufferfill false 2 (fun _ => 0) 0 [⟨[1],4⟩,⟨[2],0⟩] = some g ∧
      f.exited = none ∧ f.returned = some 2 ∧ f.dest.read 2 = [1,2] ∧
      g.exited = some (.checkperror 39) ∧ g.returned = none ∧ g.dest.read 2 = [1,0] ∧
      g.outcome ≠ f.outcome := by
  have hcalm : ∃ f ∈ bufferfill false 2 (fun _ => 0) 0 (calm [⟨[1],4⟩,⟨[2],0⟩]),
      f.exited = none ∧ f.returned = some 2 ∧ f.dest.read 2 = [1,2] := by decide
  have hstale : ∃ g ∈ bufferfill false 2 (fun _ => 0) 0 [⟨[1],4⟩,⟨[2],0⟩],
      g.exited = some (.checkperror 39) ∧ g.returned = none ∧ g.dest.read 2 = [1,0] := by decide
  obtain ⟨f,hf,hlive,hcount,hread⟩ := hcalm
  obtain ⟨g,hg,hexit,hnone,hlost⟩ := hstale
  refine ⟨f,g,hf,hg,hlive,hcount,hread,hexit,hnone,hlost,?_⟩
  simp [Bufferfill.outcome,hlive,hexit]

end Viamillipede
