import Viamillipede.Startup

/-! The guard of `initiate_relay`: how often `initiate` runs and `txingest` is launched.

The guard is tested at line 47 and set at line 49. It works as long as no thread tests it
between these two lines of another. The counters then follow from where the one thread is that
has passed the guard. -/
namespace Viamillipede

open Transition

variable {n : ℕ} {c : StartupConfig}

/-- `initiate` is run and a `txingest` thread is created at most once. -/
def OneIngest (s : StartupState n) : Prop := s.initiated ≤ 1 ∧ s.ingests.length ≤ 1

instance (s : StartupState n) : Decidable (OneIngest s) :=
  inferInstanceAs (Decidable (_ ∧ _))

/-- The worker is at its call of `initiate_relay`. -/
def LegPc.relaying : LegPc → Bool
  | relay _ _ => true
  | _ => false

/-- Some thread has found the guard open and has yet to set it. -/
def Passing (s : StartupState n) : Prop :=
  s.relay .main = .increment ∨ ∃ i, s.relay (.worker i) = .increment

instance (s : StartupState n) : Decidable (Passing s) := inferInstanceAs (Decidable (_ ∨ _))

/-- No thread tests the guard while another has passed it and not set it. -/
def Unraced (s : StartupState n) : StartupAction n → Prop
  | .relay t _ => s.relay t = .test → ¬ Passing s
  | _ => True

instance (s : StartupState n) : ∀ a, Decidable (Unraced s a)
  | .relay t _ => inferInstanceAs (Decidable (s.relay t = .test → ¬ Passing s))
  | .main _ | .receive .. | .worker _ | .ingest _ => isTrue trivial

theorem not_increment {s : StartupState n} (h : ¬ Passing s) (t : RxThread n) :
    s.relay t ≠ .increment := by
  cases t with
  | main => exact fun ht => h (.inl ht)
  | worker i => exact fun ht => h (.inr ⟨i,ht⟩)

namespace RelayPc

/-- The thread has passed the guard and has yet to launch `txingest`. -/
def inside : RelayPc → Bool
  | out | test | returned => false
  | _ => true

/-- The guard, the calls of `initiate` and the `txingest` threads while the only thread that
has passed the guard is here. -/
def counters : RelayPc → ℕ × ℕ × ℕ
  | out | test | increment => (0,0,0)
  | call => (1,0,0)
  | initiate | inputFd _ | create => (1,1,0)
  | returned => (1,1,1)

end RelayPc

/-- The guard, the calls of `initiate` and the `txingest` threads. -/
def StartupState.counters (s : StartupState n) : ℕ × ℕ × ℕ :=
  (s.ginitiatorOneshot,s.initiated,s.ingests.length)

/-- The workers that `main` has yet to launch. -/
def Unlaunched (s : StartupState n) : Prop :=
  ∀ k, s.main = .rx k → ∀ i : Fin n, k ≤ i → s.workers i = .unlaunched

namespace Unlaunched

theorem of_worker {s s' : StartupState n} (hs : Unlaunched s) {i : Fin n} {pc : LegPc}
    (hpc : s.workers i ≠ .unlaunched) (hmain : s'.main = s.main)
    (hworkers : s'.workers = Function.update s.workers i pc) : Unlaunched s' := by
  intro k hk j hj
  rw [hmain] at hk
  have hsj := hs k hk j hj
  by_cases h : j = i
  · rw [h] at hsj; exact absurd hsj hpc
  · rw [hworkers,Function.update_of_ne h]; exact hsj

theorem move {s s' : StartupState n} {a : StartupAction n} (hs : Unlaunched s)
    (h : StartupMove c s a s') : Unlaunched s' := by
  cases h with
  | taken | passed | increment | call | connect | keep | stdout | inputFd | create | ingest
  | fill => exact hs
  | launch i fd hpc =>
    rintro k ⟨⟩ j hj
    have hne : j ≠ i := by
      rintro rfl
      exact Nat.not_succ_le_self _ hj
    show Function.update s.workers i .read j = .unlaunched
    rw [Function.update_of_ne hne]
    exact hs i hpc j (Nat.le_of_succ_le hj)
  | forward fd pc hpc =>
    rintro k hk
    change pc = .rx k at hk
    subst hk
    simp at hpc
  | rxDone | txSkipped | accept | initiating | stdin | accepted | noRelay | relay | relayed =>
    rintro k ⟨⟩
  | first i _ hpc | later i _ _ hpc | legRelayed i _ _ hpc | dropped i _ hpc | sequenced i hpc
  | written i _ hpc | advance i _ hpc =>
    exact hs.of_worker (i := i) (by rw [hpc]; simp) rfl rfl

end Unlaunched

/-- A thread is in the frame of `initiate_relay` only at its call. -/
structure Called (s : StartupState n) : Prop where
  main : s.relay .main ≠ .out → s.main = .relay
  worker : ∀ i, s.relay (.worker i) ≠ .out → (s.workers i).relaying = true

namespace Called

theorem init : Called (startupInit n) where
  main h := absurd rfl h
  worker _ h := absurd rfl h

/-- A move in `initiate_relay`. -/
theorem of_relay {s s' : StartupState n} (hs : Called s) {t : RxThread n} {pc : RelayPc}
    (hin : s.relay t ≠ .out) (hrelay : s'.relay = Function.update s.relay t pc)
    (hmain : s'.main = s.main) (hworkers : s'.workers = s.workers) : Called s' := by
  have hout (u : RxThread n) (hu : s'.relay u ≠ .out) : s.relay u ≠ .out := by
    by_cases h : u = t
    · rw [h]; exact hin
    · rwa [hrelay,Function.update_of_ne h] at hu
  constructor
  · intro h
    rw [hmain]
    exact hs.main (hout _ h)
  · intro i h
    rw [hworkers]
    exact hs.worker i (hout _ h)

/-- A move of `main` behind or before the call. -/
theorem of_main {s s' : StartupState n} (hs : Called s) (hmain : s.main ≠ .relay)
    (hrelay : s'.relay = s.relay)
    (hworkers : ∀ i, (s.workers i).relaying = true → s'.workers i = s.workers i) : Called s' := by
  constructor
  · intro h
    rw [hrelay] at h
    exact absurd (hs.main h) hmain
  · intro i h
    rw [hrelay] at h
    have hi := hs.worker i h
    rw [hworkers i hi]
    exact hi

/-- A move of a worker behind or before the call. -/
theorem of_worker {s s' : StartupState n} (hs : Called s) {i : Fin n} {pc : LegPc}
    (hpc : (s.workers i).relaying = false) (hmain : s'.main = s.main)
    (hrelay : s'.relay = s.relay) (hworkers : s'.workers = Function.update s.workers i pc) :
    Called s' := by
  constructor
  · rw [hmain,hrelay]
    exact hs.main
  · intro j h
    rw [hrelay] at h
    by_cases hj : j = i
    · have hi := hs.worker j h
      rw [hj,hpc] at hi
      cases hi
    · rw [hworkers,Function.update_of_ne hj]
      exact hs.worker j h

/-- A worker enters the call or leaves it. -/
theorem of_call {s s' : StartupState n} (hs : Called s) {i : Fin n} {pc : LegPc} {r : RelayPc}
    (hpc : r = .out ∨ pc.relaying = true) (hmain : s'.main = s.main)
    (hrelay : s'.relay = Function.update s.relay (.worker i) r)
    (hworkers : s'.workers = Function.update s.workers i pc) : Called s' := by
  constructor
  · rw [hmain,hrelay,Function.update_of_ne (by simp)]
    exact hs.main
  · intro j h
    by_cases hj : j = i
    · subst hj
      rw [hrelay,Function.update_self] at h
      rw [hworkers,Function.update_self]
      exact hpc.resolve_left h
    · rw [hrelay,Function.update_of_ne (by simpa using hj)] at h
      rw [hworkers,Function.update_of_ne hj]
      exact hs.worker j h

theorem move {s s' : StartupState n} {a : StartupAction n} (hs : Called s)
    (hun : Unlaunched s) (h : StartupMove c s a s') : Called s' := by
  cases h with
  | taken t fd hpc | passed t fd hpc | increment t fd hpc | call t fd hpc | connect t fd hpc
  | keep t fd hpc | stdout t fd hpc | inputFd t fd sock hpc | create t fd hpc =>
    exact hs.of_relay (t := t) (by rw [hpc]; simp) rfl rfl rfl
  | launch i fd hpc =>
    refine hs.of_main (by rw [hpc]; simp) rfl fun j hj => Function.update_of_ne ?_ ..
    rintro rfl
    rw [hun j hpc j (Nat.le_refl _)] at hj
    cases hj
  | forward fd pc hpc =>
    refine hs.of_main (fun h => ?_) rfl fun _ _ => rfl
    simp [h] at hpc
  | rxDone fd k hpc | txSkipped fd hpc | accept fd hpc | initiating fd hpc | stdin fd hpc
  | accepted fd sock hpc | noRelay fd hpc =>
    exact hs.of_main (by rw [hpc]; simp) rfl fun _ _ => rfl
  | relay fd hpc =>
    exact ⟨fun _ => rfl,fun i h => hs.worker i (by simpa [StartupState.setRelay] using h)⟩
  | relayed fd hpc hreturned =>
    refine ⟨fun h => ?_,fun i h => hs.worker i (by simpa [StartupState.setRelay] using h)⟩
    change Function.update s.relay .main .out .main ≠ .out at h
    exact absurd (Function.update_self ..) h
  | first i restartme hpc => exact hs.of_call (.inr rfl) rfl rfl rfl
  | legRelayed i legId restartme hpc => exact hs.of_call (.inl rfl) rfl rfl rfl
  | later i legId restartme hpc | dropped i legId hpc | sequenced i hpc | written i legId hpc
  | advance i legId hpc => exact hs.of_worker (by rw [hpc]; rfl) rfl rfl rfl
  | ingest k pc | fill k => exact ⟨hs.main,hs.worker⟩

end Called

/-- At most one thread is inside, and it decides the counters; with none inside, either nothing
has happened or everything has. -/
structure Once (s : StartupState n) : Prop where
  alone : ∀ {t u}, (s.relay t).inside = true → (s.relay u).inside = true → t = u
  inside : ∀ t, (s.relay t).inside = true → s.counters = (s.relay t).counters
  outside : (∀ t, (s.relay t).inside = false) → s.counters = (0,0,0) ∨ s.counters = (1,1,1)

namespace Once

theorem init : Once (startupInit n) where
  alone ht := by cases ht
  inside _ ht := by cases ht
  outside _ := .inl rfl

/-- With the guard open, no thread is inside unless it has just passed. -/
theorem none_inside {s : StartupState n} (hs : Once s) (hopen : s.ginitiatorOneshot = 0)
    (hpassing : ¬ Passing s) (t : RxThread n) : (s.relay t).inside = false := by
  by_contra hin
  have hin := Bool.eq_true_of_not_eq_false hin
  have hcount := hs.inside t hin
  have hinc := not_increment hpassing t
  cases hpc : s.relay t <;> rw [hpc] at hin hinc hcount <;>
    simp_all [RelayPc.inside,RelayPc.counters,StartupState.counters]

/-- A move of a thread that stays outside; it may enter or leave the function. -/
theorem of_outside {s s' : StartupState n} (hs : Once s) (t : RxThread n) (pc : RelayPc)
    (hpc : (s.relay t).inside = false) (hpc' : pc.inside = false)
    (hrelay : s'.relay = Function.update s.relay t pc) (hcount : s'.counters = s.counters) :
    Once s' := by
  have hinside (u : RxThread n) (hu : (s'.relay u).inside = true) : s'.relay u = s.relay u := by
    by_cases h : u = t
    · rw [h,hrelay,Function.update_self,hpc'] at hu
      cases hu
    · rw [hrelay,Function.update_of_ne h]
  constructor
  · intro u v hu hv
    exact hs.alone (by rw [← hinside u hu]; exact hu) (by rw [← hinside v hv]; exact hv)
  · intro u hu
    rw [hcount,hinside u hu]
    exact hs.inside u (by rw [← hinside u hu]; exact hu)
  · intro hout
    rw [hcount]
    refine hs.outside fun u => ?_
    by_cases h : u = t
    · rw [h]; exact hpc
    · have hu := hout u
      rwa [hrelay,Function.update_of_ne h] at hu

/-- A move that is not in `initiate_relay`. -/
theorem of_quiet {s s' : StartupState n} (hs : Once s) (hrelay : s'.relay = s.relay)
    (hcount : s'.counters = s.counters) : Once s' where
  alone := by rw [hrelay]; exact hs.alone
  inside := by rw [hrelay,hcount]; exact hs.inside
  outside := by rw [hrelay,hcount]; exact hs.outside

/-- All other threads are outside, and the counters fit where this one is. -/
theorem of_sole {s : StartupState n} (t : RxThread n)
    (hother : ∀ u, u ≠ t → (s.relay u).inside = false)
    (hcount : s.counters = (s.relay t).counters)
    (ht : (s.relay t).inside = true ∨ s.relay t = .returned) : Once s := by
  have hsole (u : RxThread n) (hu : (s.relay u).inside = true) : u = t := by
    by_contra h
    rw [hother u h] at hu
    cases hu
  constructor
  · intro u v hu hv
    rw [hsole u hu,hsole v hv]
  · intro u hu
    rw [hsole u hu]
    exact hcount
  · intro hout
    rcases ht with h | h
    · rw [hout t] at h; cases h
    · rw [h] at hcount; exact .inr hcount

/-- The thread that is inside goes on. -/
theorem of_inside {s s' : StartupState n} (hs : Once s) {t : RxThread n} {pc : RelayPc}
    (hpc : (s.relay t).inside = true) (hrelay : s'.relay = Function.update s.relay t pc)
    (hcount : s.counters = (s.relay t).counters → s'.counters = pc.counters)
    (hpc' : pc.inside = true ∨ pc = .returned) : Once s' := by
  have hself : s'.relay t = pc := by rw [hrelay,Function.update_self]
  refine of_sole t (fun u hu => ?_) (by rw [hself]; exact hcount (hs.inside t hpc))
    (by rw [hself]; exact hpc')
  rw [hrelay,Function.update_of_ne hu]
  by_contra hin
  exact hu (hs.alone (Bool.eq_true_of_not_eq_false hin) hpc)

/-- A thread passes the guard when no thread is inside. -/
theorem of_passed {s : StartupState n} (hs : Once s) (t : RxThread n)
    (hopen : s.ginitiatorOneshot = 0) (hnone : ∀ u, (s.relay u).inside = false) :
    Once (s.setRelay t .increment) := by
  have hself : (s.setRelay t .increment).relay t = .increment := Function.update_self ..
  have hcounters : s.counters = (0,0,0) := by
    rcases hs.outside hnone with h | h
    · exact h
    · cases hopen.symm.trans (congrArg Prod.fst h)
  refine of_sole t (fun u hu => ?_) (by rw [hself]; exact hcounters) (.inl (by rw [hself]; rfl))
  show (Function.update s.relay t .increment u).inside = false
  rw [Function.update_of_ne hu]
  exact hnone u

theorem move {s s' : StartupState n} {a : StartupAction n} (hs : Once s) (hcalled : Called s)
    (ha : Unraced s a) (h : StartupMove c s a s') : Once s' := by
  cases h with
  | taken t fd hpc => exact hs.of_outside t .returned (by rw [hpc]; rfl) rfl rfl rfl
  | passed t fd hpc hopen => exact hs.of_passed t hopen (hs.none_inside hopen (ha hpc))
  | increment t fd hpc =>
    refine hs.of_inside (t := t) (by rw [hpc]; rfl) rfl (fun h => ?_) (.inl rfl)
    simpa [hpc,RelayPc.counters,StartupState.counters,StartupState.setRelay] using h
  | call t fd hpc =>
    refine hs.of_inside (t := t) (by rw [hpc]; rfl) rfl (fun h => ?_) (.inl rfl)
    simpa [hpc,RelayPc.counters,StartupState.counters,StartupState.setRelay] using h
  | connect t fd hpc | keep t fd hpc | stdout t fd hpc | inputFd t fd sock hpc =>
    refine hs.of_inside (t := t) (by rw [hpc]; rfl) rfl (fun h => ?_) (.inl rfl)
    rw [hpc] at h
    exact h
  | create t fd hpc =>
    refine hs.of_inside (t := t) (by rw [hpc]; rfl) rfl (fun h => ?_) (.inr rfl)
    simpa [hpc,RelayPc.counters,StartupState.counters,StartupState.setRelay] using h
  | relay fd hpc =>
    have hout : s.relay .main = .out := by
      by_contra h
      cases hpc.symm.trans (hcalled.main h)
    exact hs.of_outside .main .test (by rw [hout]; rfl) rfl rfl rfl
  | relayed fd hpc hreturned => exact hs.of_outside .main .out (by rw [hreturned]; rfl) rfl rfl rfl
  | first i restartme hpc =>
    have hout : s.relay (.worker i) = .out := by
      by_contra h
      have hi := hcalled.worker i h
      rw [hpc] at hi
      cases hi
    exact hs.of_outside (.worker i) .test (by rw [hout]; rfl) rfl rfl rfl
  | legRelayed i legId restartme hpc hreturned =>
    exact hs.of_outside (.worker i) .out (by rw [hreturned]; rfl) rfl rfl rfl
  | launch | forward | rxDone | txSkipped | accept | initiating | stdin | accepted | noRelay
  | later | dropped | sequenced | written | advance => exact hs.of_quiet rfl rfl
  | ingest k pc | fill k =>
    exact hs.of_quiet rfl (by simp [StartupState.counters,StartupState.setIngest])

end Once

/-- What holds in every run: who is where, whatever the order of the steps. -/
theorem called_of_reachable {ok : StartupState n → StartupAction n → Prop} {s : StartupState n}
    (hs : Reachable (startup c n) ok s) : Unlaunched s ∧ Called s := by
  refine hs.invariant (I := fun s => Unlaunched s ∧ Called s) ?_ ?_
  · rintro s rfl
    exact ⟨fun _ _ _ _ => rfl,Called.init⟩
  · rintro s a t - ⟨hun,hcalled⟩ - hstep
    exact ⟨hun.move (startupStep_cases hstep),hcalled.move hun (startupStep_cases hstep)⟩

theorem Once.reachable {s : StartupState n} (hs : Reachable (startup c n) Unraced s) : Once s := by
  apply hs.invariant
  · rintro s rfl
    exact Once.init
  · intro s a t hr h ha hstep
    exact h.move (called_of_reachable hr).2 ha (startupStep_cases hstep)

/-- In every run of every configuration in which no thread tests the guard between the test and
the increment of another, there is at most one call of `initiate` and one `txingest` thread. -/
theorem oneIngest_of_reachable {s : StartupState n} (hs : Reachable (startup c n) Unraced s) :
    OneIngest s := by
  have honce := Once.reachable hs
  have hcounters : s.counters = (0,0,0) ∨ s.counters = (1,0,0) ∨ s.counters = (1,1,0) ∨
      s.counters = (1,1,1) := by
    by_cases h : ∃ t, (s.relay t).inside = true
    · obtain ⟨t,ht⟩ := h
      rw [honce.inside t ht]
      cases s.relay t <;> simp [RelayPc.counters]
    · simp only [not_exists,Bool.not_eq_true] at h
      rcases honce.outside h with h | h <;> simp [h]
  simp only [StartupState.counters,Prod.mk.injEq] at hcounters
  constructor <;> omega

/-- `main` goes through `rx` with one worker, `tx` and `terminate`, and calls `initiate_relay`;
`fd` is what `tcp_accept` would return. -/
def mainToRelay : List (StartupAction 1) := List.replicate 6 (.main 3)

/-- Leg 0 arrives while `main` is in `initiate`, with the guard set. -/
def guardedRun : List (StartupAction 1) :=
  mainToRelay ++ List.replicate 3 (.relay .main 0) ++
    [.receive 0 0 false,.relay (.worker 0) 0,.worker 0] ++ List.replicate 2 (.relay .main 0)

theorem oneIngest_guardedRun :
    ∃ s, s ∈ exec (startup (.pipe true true) 1) Unraced (startupInit 1) guardedRun ∧
      s.ingests.length = 1 ∧ OneIngest s := by
  have hrun : ∃ s ∈ exec (startup (.pipe true true) 1) Unraced (startupInit 1) guardedRun,
      s.ingests.length = 1 := by
    decide
  obtain ⟨s,hs,hone⟩ := hrun
  exact ⟨s,hs,hone,oneIngest_of_reachable (reachable_exec (.init rfl) hs)⟩

/-- Leg 0 arrives when `main` has called `initiate_relay`, and both threads find the guard open. -/
def racedRun : List (StartupAction 1) :=
  mainToRelay ++ [.receive 0 0 false,.relay .main 0,.relay (.worker 0) 0] ++
    List.replicate 4 (.relay .main 0) ++ List.replicate 4 (.relay (.worker 0) 0)

/-- `initiate` runs twice and two `txingest` threads read one input. -/
theorem twoIngests_racedRun :
    ∃ s, Reachable (startup (.pipe true true) 1) anyStep s ∧
      s.initiated = 2 ∧ s.ingests.length = 2 ∧ ¬ OneIngest s := by
  have hrun : ∃ s ∈ exec (startup (.pipe true true) 1) anyStep (startupInit 1) racedRun,
      s.initiated = 2 ∧ s.ingests.length = 2 ∧ ¬ OneIngest s := by
    decide
  exact exists_reachable rfl hrun

end Viamillipede
