import Viamillipede.StartupGuard

/-! The endpoints of the start-up: which descriptors are assigned before they are used.

`main` assigns `input_fd` and with `terminate` also `output_fd`; what it leaves out is assigned
by the call of `initiate_relay` that passes the guard. A leg 0 that arrives too early, or while
that call is going on, gets ahead of these assignments. Later legs follow leg 0 through the
sequencer. -/
namespace Viamillipede

open Transition

variable {n : ℕ} {c : StartupConfig}

/-- The endpoints are chosen before they are used: at each `writev` and each `bufferfill` the
descriptor has been assigned, and no `txingest` thread gets ahead of `tx`. -/
structure EndpointsChosen (c : StartupConfig) (s : StartupState n) : Prop where
  write : ∀ i legId, s.workers i = .write legId → s.outputFd.isSome = true
  fill : .fill ∈ s.ingests → s.inputFd.isSome = true
  start : c.modeTx = true → s.ingests ≠ [] → s.main.txDone = true

/-- `txingest` gets to line 84. -/
def StartupConfig.fills (c : StartupConfig) : Bool := c.modeTx && c.gprbsSeed == 0

/-- A call of `initiate_relay` may launch `txingest`: `tx` has returned, and `input_fd` is there
if it is read and `initiate` will not assign it. -/
def Ready (c : StartupConfig) (s : StartupState n) : Prop :=
  (c.modeTx = true → s.main.txDone = true) ∧
    (c.fills = true → s.inputFd.isSome = true ∨ c.initiatePort > 0)

instance (s : StartupState n) : Decidable (Ready c s) := inferInstanceAs (Decidable (_ ∧ _))

/-- The worker will write its leg: the connection has not failed. -/
def LegPc.whole : LegPc → Bool
  | relay _ restartme => !restartme
  | _ => false

/-- A leg 0 comes in time. The worker that finds the guard open finds the start-up ready; and
the worker that will write finds `output_fd` assigned, or the guard open and `initiate` about
to assign it. -/
def Timely (c : StartupConfig) (s : StartupState n) : StartupAction n → Prop
  | .relay (.worker i) _ => s.relay (.worker i) = .test →
      (s.ginitiatorOneshot = 0 → Ready c s) ∧
        ((s.workers i).whole = true → s.outputFd.isSome = true ∨
          s.ginitiatorOneshot = 0 ∧ c.terminatePort ≤ 0)
  | _ => True

instance (s : StartupState n) : ∀ a, Decidable (Timely c s a)
  | .relay (.worker i) _ => inferInstanceAs (Decidable (s.relay (.worker i) = .test → _ ∧ _))
  | .relay .main _ | .main _ | .receive .. | .worker _ | .ingest _ => isTrue trivial

/-- What a step does not take back. -/
structure Before (s s' : StartupState n) : Prop where
  inputFd : s.inputFd.isSome = true → s'.inputFd.isSome = true
  outputFd : s.outputFd.isSome = true → s'.outputFd.isSome = true
  txDone : s.main.txDone = true → s'.main.txDone = true

theorem StartupMove.before {s s' : StartupState n} {a : StartupAction n}
    (h : StartupMove c s a s') : Before s s' := by
  cases h with
  | launch i fd hpc => exact ⟨id,id,fun h => by rw [hpc] at h; cases h⟩
  | forward fd pc hpc =>
    refine ⟨id,id,fun h => ?_⟩
    simp only [List.mem_cons,Prod.mk.injEq,List.not_mem_nil,or_false] at hpc
    rcases hpc with ⟨hpc,_⟩ | ⟨hpc,_⟩ <;> rw [hpc] at h <;> cases h
  | rxDone fd k hpc => exact ⟨id,id,fun h => by rw [hpc] at h; cases h⟩
  | txSkipped => exact ⟨id,id,fun _ => rfl⟩
  | accept => exact ⟨fun _ => rfl,id,fun _ => rfl⟩
  | stdin => exact ⟨fun _ => rfl,id,fun _ => rfl⟩
  | accepted => exact ⟨id,fun _ => rfl,fun _ => rfl⟩
  | initiating | relay | noRelay | relayed => exact ⟨id,id,fun _ => rfl⟩
  | connect | stdout => exact ⟨id,fun _ => rfl,id⟩
  | inputFd => exact ⟨fun _ => rfl,id,id⟩
  | taken | passed | increment | call | keep | create | first | later | legRelayed | dropped
  | sequenced | written | advance | ingest | fill => exact ⟨id,id,id⟩

theorem Ready.mono {s s' : StartupState n} (hs : Ready c s) (h : Before s s') : Ready c s' :=
  ⟨fun hm => h.txDone (hs.1 hm),fun hf => (hs.2 hf).imp_left h.inputFd⟩

/-- The `txingest` threads and those about to launch one find the start-up ready. -/
structure Launching (c : StartupConfig) (s : StartupState n) : Prop where
  relay : ∀ t, (s.relay t).inside = true → Ready c s
  main : s.main.inputChosen = true → Ready c s
  create : ∀ t, s.relay t = .create → c.fills = true → s.inputFd.isSome = true
  ingest : s.ingests ≠ [] → Ready c s ∧ (c.fills = true → s.inputFd.isSome = true)
  fill : .fill ∈ s.ingests → c.fills = true

namespace Launching

theorem init : Launching c (startupInit n) where
  relay _ h := by cases h
  main h := by cases h
  create _ h := by cases h
  ingest h := absurd rfl h
  fill h := absurd h List.not_mem_nil

/-- A move that launches nothing; `t` may be moved in the function. -/
theorem of_frame {s s' : StartupState n} (hs : Launching c s) (hb : Before s s') {t : RxThread n}
    {pc : RelayPc} (hrelay : s'.relay = Function.update s.relay t pc)
    (hready : pc.inside = true → Ready c s')
    (hcreate : pc = .create → c.fills = true → s'.inputFd.isSome = true)
    (hmain : s'.main.inputChosen = true → Ready c s') (hingests : s'.ingests = s.ingests) :
    Launching c s' where
  relay u hu := by
    by_cases h : u = t
    · rw [h,hrelay,Function.update_self] at hu
      exact hready hu
    · rw [hrelay,Function.update_of_ne h] at hu
      exact (hs.relay u hu).mono hb
  main := hmain
  create u hu hf := by
    by_cases h : u = t
    · rw [h,hrelay,Function.update_self] at hu
      exact hcreate hu hf
    · rw [hrelay,Function.update_of_ne h] at hu
      exact hb.inputFd (hs.create u hu hf)
  ingest h := by
    rw [hingests] at h
    exact (hs.ingest h).imp (·.mono hb) fun h hf => hb.inputFd (h hf)
  fill h := by rw [hingests] at h; exact hs.fill h

/-- A move that is not in the function and launches nothing. -/
theorem of_quiet {s s' : StartupState n} (hs : Launching c s) (hb : Before s s')
    (hrelay : s'.relay = s.relay) (hmain : s'.main.inputChosen = true → Ready c s')
    (hingests : s'.ingests = s.ingests) : Launching c s' :=
  hs.of_frame hb (hrelay.trans (Function.update_eq_self .main s.relay).symm)
    (fun h => (hs.relay .main h).mono hb) (fun h hf => hb.inputFd (hs.create .main h hf))
    hmain hingests

/-- Who passes the guard finds the start-up ready: `main` always, a worker in time. -/
theorem ready_of_passed {s : StartupState n} (hs : Launching c s) (hcalled : Called s)
    {t : RxThread n} {fd : ℤ} (ha : Timely c s (.relay t fd)) (hpc : s.relay t = .test)
    (hopen : s.ginitiatorOneshot = 0) : Ready c s := by
  cases t with
  | main =>
    have hmain : s.main = .relay := hcalled.main (by rw [hpc]; simp)
    exact hs.main (by rw [hmain]; rfl)
  | worker i => exact (ha hpc).1 hopen

theorem move {s s' : StartupState n} {a : StartupAction n} (hs : Launching c s)
    (hcalled : Called s) (ha : Timely c s a) (h : StartupMove c s a s') : Launching c s' := by
  have hb := h.before
  cases h with
  | taken t fd hpc =>
    exact hs.of_frame hb (t := t) rfl (fun h => by cases h) (fun h => by cases h) hs.main rfl
  | passed t fd hpc hopen =>
    have hready := hs.ready_of_passed hcalled ha hpc hopen
    exact hs.of_frame hb (t := t) rfl (fun _ => hready) (fun h => by cases h) hs.main rfl
  | increment t fd hpc | call t fd hpc =>
    have hready := (hs.relay t (by rw [hpc]; rfl)).mono hb
    exact hs.of_frame hb (t := t) rfl (fun _ => hready) (fun h => by cases h) hs.main rfl
  | connect t fd hpc =>
    have hready := (hs.relay t (by rw [hpc]; rfl)).mono hb
    exact hs.of_frame hb (t := t) rfl (fun _ => hready) (fun h => by cases h) hs.main rfl
  | keep t fd hpc hinit | stdout t fd hpc hinit =>
    have hready := hs.relay t (by rw [hpc]; rfl)
    exact hs.of_frame hb (t := t) rfl (fun _ => hready)
      (fun _ hf => (hready.2 hf).resolve_right (Int.not_lt.mpr hinit)) hs.main rfl
  | inputFd t fd sock hpc =>
    have hready := (hs.relay t (by rw [hpc]; rfl)).mono hb
    exact hs.of_frame hb (t := t) rfl (fun _ => hready) (fun _ _ => rfl)
      (fun h => (hs.main h).mono hb) rfl
  | create t fd hpc =>
    have hready := hs.relay t (by rw [hpc]; rfl)
    have hframe : Launching c (s.setRelay t .returned) :=
      hs.of_frame ⟨id,id,id⟩ (t := t) rfl (fun h => by cases h) (fun h => by cases h) hs.main rfl
    refine ⟨hframe.relay,hframe.main,hframe.create,fun _ => ⟨hready,hs.create t hpc⟩,fun h => ?_⟩
    rcases List.mem_append.mp h with h | h
    · exact hs.fill h
    · simp at h
  | launch | rxDone | txSkipped => exact hs.of_quiet hb rfl (fun h => by cases h) rfl
  | forward fd pc hpc =>
    refine hs.of_quiet hb rfl (fun h => ?_) rfl
    change pc.inputChosen = true at h
    simp only [List.mem_cons,Prod.mk.injEq,List.not_mem_nil,or_false] at hpc
    rcases hpc with ⟨_,rfl⟩ | ⟨_,rfl⟩ <;> cases h
  | accept | stdin => exact hs.of_quiet hb rfl (fun _ => ⟨fun _ => rfl,fun _ => .inl rfl⟩) rfl
  | initiating fd hpc hinit =>
    exact hs.of_quiet hb rfl (fun _ => ⟨fun _ => rfl,fun _ => .inr hinit⟩) rfl
  | accepted fd sock hpc | noRelay fd hpc =>
    exact hs.of_quiet hb rfl (fun _ => (hs.main (by rw [hpc]; rfl)).mono hb) rfl
  | relay fd hpc | relayed fd hpc =>
    have hready := (hs.main (by rw [hpc]; rfl)).mono hb
    exact hs.of_frame hb (t := .main) rfl (fun h => by cases h) (fun h => by cases h)
      (fun _ => hready) rfl
  | first i | legRelayed i =>
    exact hs.of_frame hb (t := .worker i) rfl (fun h => by cases h) (fun h => by cases h)
      hs.main rfl
  | later | dropped | sequenced | written | advance => exact hs.of_quiet hb rfl hs.main rfl
  | ingest k pc hpc =>
    refine ⟨hs.relay,hs.main,hs.create,fun h => hs.ingest ?_,fun h => hs.fill ?_⟩
    · simpa [StartupState.setIngest] using h
    · exact (List.mem_or_eq_of_mem_set h).resolve_right hpc.symm
  | fill k hm hprbs =>
    have hfills : c.fills = true := by simp [StartupConfig.fills,hm,hprbs]
    refine ⟨hs.relay,hs.main,hs.create,fun h => hs.ingest ?_,fun _ => hfills⟩
    simpa [StartupState.setIngest] using h

theorem reachable {s : StartupState n} (hs : Reachable (startup c n) (Timely c) s) :
    Launching c s := by
  apply hs.invariant
  · rintro s rfl
    exact Launching.init
  · intro s a t hr h ha hstep
    exact h.move (called_of_reachable hr).2 ha (startupStep_cases hstep)

end Launching

/-- What the frame of a worker with a whole leg 0 has seen to, if `assigned` says that
`output_fd` has been assigned. -/
def RelayPc.Carries (c : StartupConfig) (assigned : Bool) : RelayPc → Prop
  | increment | call | initiate => assigned = true ∨ c.terminatePort ≤ 0
  | inputFd _ | create | returned => assigned = true
  | _ => True

/-- A worker that is going to write finds `output_fd` assigned. -/
def LegPc.Delivers (c : StartupConfig) (assigned : Bool) (frame : RelayPc) : LegPc → Prop
  | relay _ false => frame.Carries c assigned
  | sequence legId false => legId = 0 → assigned = true
  | write _ | advance _ => assigned = true
  | _ => True

/-- The workers on their way to `writev`, and the sequencer behind leg 0. -/
structure Delivering (c : StartupConfig) (s : StartupState n) : Prop where
  worker : ∀ i, (s.workers i).Delivers c s.outputFd.isSome (s.relay (.worker i))
  nextLeg : s.nextLeg ≠ 0 → s.outputFd.isSome = true

theorem RelayPc.Carries.mono {a b : Bool} {r : RelayPc} (h : r.Carries c a)
    (hab : a = true → b = true) : r.Carries c b := by
  cases r with
  | out | test => trivial
  | increment | call | initiate => exact h.imp_left hab
  | inputFd _ | create | returned => exact hab h

/-- Only at its call a worker looks at its frame. -/
theorem LegPc.Delivers.keep {a b : Bool} {r r' : RelayPc} {pc : LegPc} (h : pc.Delivers c a r)
    (hab : a = true → b = true)
    (hr : pc.whole = true → r.Carries c a → r'.Carries c b) : pc.Delivers c b r' := by
  cases pc with
  | unlaunched | read => trivial
  | relay legId restartme =>
    cases restartme with
    | true => trivial
    | false => exact hr rfl h
  | sequence legId restartme =>
    cases restartme with
    | true => trivial
    | false => exact fun h0 => hab (h h0)
  | write | advance => exact hab h

namespace Delivering

theorem init : Delivering c (startupInit n) where
  worker _ := trivial
  nextLeg h := absurd rfl h

/-- A move of one worker, or of none. -/
theorem of_step {s s' : StartupState n} (hs : Delivering c s) (hb : Before s s')
    (hnext : s'.nextLeg ≠ 0 → s'.nextLeg = s.nextLeg ∨ s'.outputFd.isSome = true)
    (h : ∀ i, s'.workers i = s.workers i ∧ s'.relay (.worker i) = s.relay (.worker i) ∨
      (s'.workers i).Delivers c s'.outputFd.isSome (s'.relay (.worker i))) :
    Delivering c s' where
  worker i := by
    rcases h i with ⟨hw,hr⟩ | h
    · rw [hw,hr]
      exact (hs.worker i).keep hb.outputFd fun _ hcarries => hcarries.mono hb.outputFd
    · exact h
  nextLeg h0 := by
    rcases hnext h0 with h | h
    · exact hb.outputFd (hs.nextLeg (by rw [← h]; exact h0))
    · exact h

/-- A move in `initiate_relay`. -/
theorem of_relay {s s' : StartupState n} (hs : Delivering c s) (hb : Before s s')
    {t : RxThread n} {pc : RelayPc} (hrelay : s'.relay = Function.update s.relay t pc)
    (hworkers : s'.workers = s.workers) (hnext : s'.nextLeg = s.nextLeg)
    (hcarries : ∀ i, t = .worker i → (s.workers i).whole = true →
      (s.relay t).Carries c s.outputFd.isSome → pc.Carries c s'.outputFd.isSome) :
    Delivering c s' := by
  refine hs.of_step hb (fun _ => .inl hnext) fun i => ?_
  rw [hworkers,hrelay]
  by_cases h : t = .worker i
  · subst h
    right
    rw [Function.update_self]
    exact (hs.worker i).keep hb.outputFd (hcarries i rfl)
  · exact .inl ⟨rfl,Function.update_of_ne (Ne.symm h) ..⟩

/-- A move of a worker that is not at its call, or that enters or leaves it. -/
theorem of_worker {s s' : StartupState n} (hs : Delivering c s) (hb : Before s s') {i : Fin n}
    {pc : LegPc} {r : RelayPc} (hworkers : s'.workers = Function.update s.workers i pc)
    (hrelay : s'.relay = Function.update s.relay (.worker i) r)
    (hnext : s'.nextLeg ≠ 0 → s'.nextLeg = s.nextLeg ∨ s'.outputFd.isSome = true)
    (hpc : pc.Delivers c s'.outputFd.isSome r) : Delivering c s' := by
  refine hs.of_step hb hnext fun j => ?_
  rw [hworkers,hrelay]
  by_cases h : j = i
  · subst h
    right
    rw [Function.update_self,Function.update_self]
    exact hpc
  · left
    exact ⟨Function.update_of_ne h ..,Function.update_of_ne (by simpa using h) ..⟩

theorem move {s s' : StartupState n} {a : StartupAction n} (hs : Delivering c s)
    (ha : Timely c s a) (h : StartupMove c s a s') : Delivering c s' := by
  have hb := h.before
  cases h with
  | taken t fd hpc hset =>
    refine hs.of_relay hb (t := t) rfl rfl rfl ?_
    rintro i rfl hwhole -
    exact ((ha hpc).2 hwhole).resolve_right fun h => hset h.1
  | passed t fd hpc =>
    refine hs.of_relay hb (t := t) rfl rfl rfl ?_
    rintro i rfl hwhole -
    exact ((ha hpc).2 hwhole).imp_right And.right
  | increment t fd hpc | call t fd hpc =>
    refine hs.of_relay hb (t := t) rfl rfl rfl fun i _ _ h => ?_
    rw [hpc] at h
    exact h
  | connect | stdout => exact hs.of_relay hb rfl rfl rfl fun _ _ _ _ => rfl
  | keep t fd hpc hinit hterm =>
    refine hs.of_relay hb (t := t) rfl rfl rfl fun i _ _ h => ?_
    rw [hpc] at h
    exact h.resolve_right (Int.not_le.mpr hterm)
  | inputFd t fd sock hpc | create t fd hpc =>
    refine hs.of_relay hb (t := t) rfl rfl rfl fun i _ _ h => ?_
    rw [hpc] at h
    exact h
  | launch i fd hpc =>
    exact hs.of_worker hb (i := i) rfl (Function.update_eq_self ..).symm (fun _ => .inl rfl) trivial
  | forward | rxDone | txSkipped | accept | initiating | stdin | accepted | noRelay =>
    exact hs.of_step hb (fun _ => .inl rfl) fun i => .inl ⟨rfl,rfl⟩
  | relay fd hpc | relayed fd hpc =>
    refine hs.of_step hb (fun _ => .inl rfl) fun i => .inl ⟨rfl,?_⟩
    simp [StartupState.setRelay]
  | first i restartme hpc =>
    refine hs.of_worker hb (i := i) rfl rfl (fun _ => .inl rfl) ?_
    cases restartme <;> trivial
  | later i legId restartme hpc hid =>
    refine hs.of_worker hb (i := i) rfl (Function.update_eq_self ..).symm (fun _ => .inl rfl) ?_
    cases restartme with
    | true => trivial
    | false => exact fun h => absurd h hid
  | legRelayed i legId restartme hpc hreturned =>
    have hi := hs.worker i
    rw [hpc,hreturned] at hi
    refine hs.of_worker hb (i := i) rfl rfl (fun _ => .inl rfl) ?_
    cases restartme with
    | true => trivial
    | false => exact fun _ => hi
  | dropped i legId hpc =>
    exact hs.of_worker hb (i := i) rfl (Function.update_eq_self ..).symm (fun _ => .inl rfl) trivial
  | sequenced i hpc =>
    have hi := hs.worker i
    rw [hpc] at hi
    refine hs.of_worker hb (i := i) rfl (Function.update_eq_self ..).symm (fun _ => .inl rfl) ?_
    by_cases h : s.nextLeg = 0
    · exact hi h
    · exact hs.nextLeg h
  | written i legId hpc =>
    have hi := hs.worker i
    rw [hpc] at hi
    exact hs.of_worker hb (i := i) rfl (Function.update_eq_self ..).symm (fun _ => .inl rfl) hi
  | advance i legId hpc =>
    have hi := hs.worker i
    rw [hpc] at hi
    exact hs.of_worker hb (i := i) rfl (Function.update_eq_self ..).symm (fun _ => .inr hi) trivial
  | ingest | fill => exact hs.of_step hb (fun _ => .inl rfl) fun i => .inl ⟨rfl,rfl⟩

theorem reachable {s : StartupState n} (hs : Reachable (startup c n) (Timely c) s) :
    Delivering c s := by
  apply hs.invariant
  · rintro s rfl
    exact Delivering.init
  · rintro s a t - h ha hstep
    exact h.move ha (startupStep_cases hstep)

end Delivering

/-- In every run of every configuration in which each leg 0 comes in time, the endpoints are
chosen before they are used. -/
theorem endpointsChosen_of_reachable {s : StartupState n}
    (hs : Reachable (startup c n) (Timely c) s) : EndpointsChosen c s := by
  have hlaunching := Launching.reachable hs
  have hdelivering := Delivering.reachable hs
  constructor
  · intro i legId hpc
    have hi := hdelivering.worker i
    rw [hpc] at hi
    exact hi
  · intro hfill
    exact (hlaunching.ingest (List.ne_nil_of_mem hfill)).2 (hlaunching.fill hfill)
  · intro hm hne
    exact (hlaunching.ingest hne).1.1 hm

/-- A worker reads leg 0 and goes through `initiate_relay` in `k` steps. -/
def firstLeg (k : ℕ) : List (StartupAction 1) :=
  .receive 0 0 false :: List.replicate k (.relay (.worker 0) 5)

/-- The peer connects back behind the start-up of `main`. -/
def initiatedRun : List (StartupAction 1) :=
  List.replicate 6 (.main 3) ++ firstLeg 6 ++ [.ingest 0,.ingest 0,.worker 0,.worker 0]

theorem endpointsChosen_initiatedRun :
    ∃ s, s ∈ exec (startup .initiating 1) (Timely .initiating) (startupInit 1) initiatedRun ∧
      s.workers 0 = .write 0 ∧ s.ingests = [.fill] ∧ EndpointsChosen .initiating s := by
  have hrun : ∃ s ∈ exec (startup .initiating 1) (Timely .initiating) (startupInit 1) initiatedRun,
      s.workers 0 = .write 0 ∧ s.ingests = [.fill] := by
    decide
  obtain ⟨s,hs,hwrite,hfill⟩ := hrun
  exact ⟨s,hs,hwrite,hfill,endpointsChosen_of_reachable (reachable_exec (.init rfl) hs)⟩

/-- Leg 0 finds the guard taken by `main`, which has yet to assign `output_fd`. -/
def earlyWriteRun : List (StartupAction 1) :=
  mainToRelay ++ [.relay .main 0,.relay .main 0] ++ firstLeg 1 ++ [.worker 0,.worker 0]

/-- Leg 0 passes the guard while `terminate` waits in `tcp_accept`. -/
def earlyFillRun : List (StartupAction 1) :=
  List.replicate 4 (.main 3) ++ firstLeg 5 ++ [.ingest 0,.ingest 0]

/-- Leg 0 passes the guard before `main` has called `tx`. -/
def earlyStartRun : List (StartupAction 1) := List.replicate 2 (.main 3) ++ firstLeg 5

/-- Each of the three may fail: a leg goes to descriptor 0, `txingest` reads descriptor 0, and
`txingest` starts before `tx`. -/
theorem endpointsUnchosen_earlyRuns :
    (∃ s, Reachable (startup (.pipe true true) 1) anyStep s ∧
      (s.workers 0 = .write 0 ∧ s.outputFd = none) ∧ ¬ EndpointsChosen (.pipe true true) s) ∧
    (∃ s, Reachable (startup .terminating 1) anyStep s ∧
      (s.ingests = [.fill] ∧ s.inputFd = none) ∧ ¬ EndpointsChosen .terminating s) ∧
    ∃ s, Reachable (startup (.pipe true true) 1) anyStep s ∧
      (s.ingests = [.start] ∧ s.main = .tx) ∧ ¬ EndpointsChosen (.pipe true true) s := by
  have hwrite : ∃ s ∈ exec (startup (.pipe true true) 1) anyStep (startupInit 1) earlyWriteRun,
      s.workers 0 = .write 0 ∧ s.outputFd = none := by
    decide
  have hfill : ∃ s ∈ exec (startup .terminating 1) anyStep (startupInit 1) earlyFillRun,
      s.ingests = [.fill] ∧ s.inputFd = none := by
    decide
  have hstart : ∃ s ∈ exec (startup (.pipe true true) 1) anyStep (startupInit 1) earlyStartRun,
      s.ingests = [.start] ∧ s.main = .tx := by
    decide
  refine ⟨?_,?_,?_⟩
  · obtain ⟨s,hs,hpc,hout⟩ := exists_reachable rfl hwrite
    refine ⟨s,hs,⟨hpc,hout⟩,fun h => ?_⟩
    have hsome := h.write 0 0 hpc
    rw [hout] at hsome
    cases hsome
  · obtain ⟨s,hs,hpc,hin⟩ := exists_reachable rfl hfill
    refine ⟨s,hs,⟨hpc,hin⟩,fun h => ?_⟩
    have hsome := h.fill (by rw [hpc]; exact List.mem_singleton_self _)
    rw [hin] at hsome
    cases hsome
  · obtain ⟨s,hs,hpc,hmain⟩ := exists_reachable rfl hstart
    refine ⟨s,hs,⟨hpc,hmain⟩,fun h => ?_⟩
    have hdone := h.start rfl (by rw [hpc]; exact List.cons_ne_nil _ _)
    rw [hmain] at hdone
    cases hdone

end Viamillipede
