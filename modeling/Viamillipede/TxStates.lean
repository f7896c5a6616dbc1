import Viamillipede.TxLaunch

/-! The state machine of the transmit workers: who writes `txworker_s.state`, and what. -/
namespace Viamillipede

open Transition

/-- The thread that calls `tx_state_set`. -/
inductive Author (W : ℕ)
  | launcher
  | ingest
  | worker (i : Fin W)
  deriving DecidableEq

/-- One call of `tx_state_set`. -/
structure StateWrite (W : ℕ) where
  author : Author W
  worker : Fin W
  letter : Letter
  deriving DecidableEq

/-- The moves of a worker's state that are its own thread's. -/
inductive WorkerEdge : WorkerState → WorkerState → Prop
  | start : WorkerEdge .launched .connecting
  | online : WorkerEdge .connecting .idle
  | giveUp : WorkerEdge .connecting .faulted
  | leg : WorkerEdge .dispatched .preamble
  | delay : WorkerEdge .preamble .waiting
  | push : WorkerEdge .preamble .pushing
  | pushDelayed : WorkerEdge .waiting .pushing
  | pushed : WorkerEdge .pushing .idle
  | dropped : WorkerEdge .pushing .disconnected
  | reconnect : WorkerEdge .disconnected .connecting
  | retry : WorkerEdge .connecting .preamble

/-- The graph of the states of worker `w`, with the thread that may take each edge. -/
inductive StateEdge {W : ℕ} (w : Fin W) : Author W → Letter → Letter → Prop
  | mark : StateEdge w .launcher .error .uninitialized
  | launch : StateEdge w .launcher .uninitialized (.state .launched)
  | dispatch : StateEdge w .ingest (.state .idle) (.state .dispatched)
  | worker {l l' : WorkerState} : WorkerEdge l l' → StateEdge w (.worker w) (.state l) (.state l')

variable {W : ℕ} {cfg : TxConfig}

/-- What a worker thread writes to its state at each place. -/
def workerWrite (cfg : TxConfig) (w : TxWorker) (a : WorkerAction) : Option WorkerState :=
  match a,w.pc with
  | .run,.start => some .connecting
  | .run,.setIdle => some .idle
  | .run,.recover => some .connecting
  | .run,.preamble => some .preamble
  | .run,.wait => if cfg.gdelayUs = 0 then none else some .waiting
  | .run,.push => some .pushing
  | .run,.release => some .idle
  | .run,.markDead => some .disconnected
  | .giveUp,.connecting _ => some .faulted
  | _,_ => none

/-- The call of `tx_state_set` that a step of the transmitter makes, if any. -/
def txWrite (cfg : TxConfig) (s : TxState W) : TxAction W → Option (StateWrite W)
  | .ingest => s.ingest.pc.marks.map fun w => ⟨.ingest,w,.state .dispatched⟩
  | .worker i a => (workerWrite cfg (s.workers i) a).map fun l => ⟨.worker i,i,.state l⟩
  | _ => none

/-- The same with the launcher's calls. -/
def LaunchState.stateWrite (cfg : TxConfig) (s : LaunchState W) :
    LaunchAction W → Option (StateWrite W)
  | .launch =>
    if h : s.cursor < W then
      match s.pc with
      | .mark => some ⟨.launcher,⟨s.cursor,h⟩,.uninitialized⟩
      | .label => some ⟨.launcher,⟨s.cursor,h⟩,.state .launched⟩
      | .create => none
    else none
  | .launchFailed _ => none
  | .tx a => txWrite cfg s.tx a

/-- The state of worker `w`, which was `l`, after the write. -/
def written (e : Option (StateWrite W)) (w : Fin W) (l : Letter) : Letter :=
  match e with
  | some e => if e.worker = w then e.letter else l
  | none => l

/-- The launch and the transmitter with the calls of `tx_state_set` so far. -/
def statesMachine (cfg : TxConfig) (W : ℕ) :
    Machine (LaunchState W × List (StateWrite W)) (LaunchAction W) :=
  (launchMachine cfg W).record fun s a => (s.stateWrite cfg a).toList

namespace StateWrite

/-- How often the state of worker `w` has been set to `l`. -/
def sets (w : Fin W) (l : Letter) (es : List (StateWrite W)) : ℕ :=
  es.countP fun e => e.worker = w ∧ e.letter = l

/-- How often worker `w` has been dispatched. -/
def dispatches (w : Fin W) (es : List (StateWrite W)) : ℕ := sets w (.state .dispatched) es

/-- How often worker `w` has begun to push. -/
def pushes (w : Fin W) (es : List (StateWrite W)) : ℕ := sets w (.state .preamble) es

theorem sets_snoc (w : Fin W) (l : Letter) (es : List (StateWrite W)) (e : StateWrite W) :
    sets w l (es++[e]) = sets w l es+if e.worker = w ∧ e.letter = l then 1 else 0 := by
  simp [sets,List.countP_append,List.countP_singleton]

end StateWrite

open LaunchState StateWrite

/-- The states of the transmit workers follow the graph, after the writes `es`. -/
structure FollowsGraph (cfg : TxConfig) (s : LaunchState W) (es : List (StateWrite W)) : Prop where
  /-- Each write takes an edge, by the thread the edge belongs to. -/
  edge : ∀ a t, launchStep cfg s a = some t → ∀ e ∈ s.stateWrite cfg a,
    StateEdge e.worker e.author (s.letter e.worker) e.letter
  /-- 'x' is not reached, so from 'c' it is on to 'i' or 'f'. -/
  online : ∀ a t, launchStep cfg s a = some t → ∀ e ∈ s.stateWrite cfg a,
    e.letter ≠ .state .disconnected ∧
      (s.letter e.worker = .state .connecting → e.letter ≠ .state .preamble)
  /-- Nothing but these writes changes a state. -/
  only : ∀ a t, launchStep cfg s a = some t → ∀ w,
    t.letter w = written (s.stateWrite cfg a) w (s.letter w)
  /-- At the switch of `txworker_sm` the sample is one of the three cases, and the worker
  goes on. -/
  sampled : ∀ w, (s.tx.workers w).pc = .unlock → (s.tx.workers w).localState = .idle ∨
    (s.tx.workers w).localState = .dispatched ∨ (s.tx.workers w).localState = .disconnected
  switched : ∀ w t, (s.tx.workers w).pc = .unlock →
    launchStep cfg s (.tx (.worker w .run)) = some t → t.tx.exited = none
  /-- A worker has pushed each leg but the last one it was given, and that one at most once. -/
  pushed : ∀ w, pushes w es ≤ dispatches w es ∧ dispatches w es ≤ pushes w es+1

theorem workerStep_state {w : TxWorker} {i : Fin W} {mutex : Option (TxThread W)} {done : Bool}
    {a : WorkerAction} {m : WorkerMove W} (h : workerStep cfg i mutex done w a = some m) :
    m.worker.state = (workerWrite cfg w a).getD w.state := by
  cases a <;> cases hpc : w.pc <;> simp only [workerStep,workerRun,workerWrite,hpc,reduceCtorEq] at h ⊢
  all_goals grind [writevReturned]

/-- Each call of `tx_state_set` finds the state that its place in the thread implies. -/
theorem workerWrite_edge {w : TxWorker} {a : WorkerAction} {l : WorkerState}
    (hw : WorkerControl w) (h : workerWrite cfg w a = some l) :
    WorkerEdge w.state l ∧ l ≠ .disconnected ∧ (w.state = .connecting → l ≠ .preamble) := by
  cases a with
  | run =>
    cases hpc : w.pc <;> simp only [workerWrite,WorkerControl,hpc,reduceCtorEq] at h hw
    case start =>
      cases h
      simp [hw.1,WorkerEdge.start]
    case setIdle =>
      cases h
      simp [hw.1,WorkerEdge.online]
    case preamble =>
      cases h
      simp [hw,WorkerEdge.leg]
    case wait =>
      split_ifs at h
      cases h
      simp [hw.1,WorkerEdge.delay]
    case push =>
      cases h
      apply hw.1.elim <;> intro hstate <;> simp [hstate,WorkerEdge.push,WorkerEdge.pushDelayed]
    case release =>
      cases h
      simp [hw,WorkerEdge.pushed]
  | giveUp =>
    cases hpc : w.pc <;> simp only [workerWrite,WorkerControl,hpc,reduceCtorEq] at h hw
    cases h
    simp [hw.1,WorkerEdge.giveUp]
  | _ => simp [workerWrite] at h

/-- The ingest thread changes a state when it calls `start_worker`, and only then. -/
theorem ingestStep_state {s t : TxState W} (h : ingestStep cfg s = some t) (w : Fin W) :
    (t.workers w).state =
      if s.ingest.pc.marks = some w then .dispatched else (s.workers w).state := by
  by_cases hmarks : s.ingest.pc.marks = some w
  · rw [if_pos hmarks]
    cases hpc : s.ingest.pc <;> simp only [IngestPc.marks,hpc,reduceCtorEq,Option.some.injEq] at hmarks
    all_goals
      subst hmarks
      simp only [ingestStep,hpc,Option.some.injEq] at h
      subst h
      simp [startWorker,TxState.goto,TxState.setWorker]
  · rw [if_neg hmarks]
    cases (ingestStep_effect h).change with
    | quiet hw => rw [hw]
    | stored v pkt buffer _ hw =>
      rw [hw]
      by_cases hv : w = v <;> simp [hv]
    | marked v p hv _ hw =>
      have hne : w ≠ v := by
        rintro rfl
        exact hmarks hv
      rw [hw,Function.update_of_ne hne]

namespace LaunchState

theorem letter_of_lt {s : LaunchState W} {w : Fin W} (h : w.val < s.cursor) :
    s.letter w = .state (s.tx.workers w).state := if_pos h

theorem letter_of_ge {s : LaunchState W} {w : Fin W} (h : s.cursor ≤ w.val) :
    s.letter w = s.before w := if_neg (not_lt.mpr h)

/-- A worker in 'i' has a thread. -/
theorem Launching.created {s : LaunchState W} (hs : s.Launching) {w : Fin W}
    (h : (s.tx.workers w).state = .idle) : w.val < s.cursor := by
  by_contra hlater
  rw [hs.waiting w (not_lt.mp hlater)] at h
  cases h

/-- What a step of the transmitter does to the states of its workers. -/
theorem tx_state {s : TxState W} {a : TxAction W} {t : TxState W} (h : txStep cfg s a = some t)
    (w : Fin W) : .state (t.workers w).state =
      written (txWrite cfg s a) w (.state (s.workers w).state) := by
  cases txStep_cases h with
  | ingest hcases heffect =>
    rcases hcases with ⟨rfl,hstep⟩ | ⟨v,data,rfl,hpc,-,ht⟩
    · rw [ingestStep_state hstep w]
      cases hmarks : s.ingest.pc.marks with
      | none => simp [written,txWrite,hmarks]
      | some v => by_cases hv : v = w <;> simp [written,txWrite,hmarks,hv]
    · obtain ⟨g,hg⟩ := ingestFilled_eq cfg (s.setWorker v
        { s.workers v with buffer := (s.workers v).buffer.store 0 data.val }) v data
      rw [ht,hg]
      by_cases hv : w = v <;> simp [written,txWrite,TxState.setWorker,hv]
  | fillFailed ha ht =>
    subst ha ht
    rfl
  | worker i b m ha hm ht =>
    subst ha ht
    have hstate := workerStep_state hm
    by_cases hi : i = w
    · subst hi
      cases hwrite : workerWrite cfg (s.workers i) b <;>
        simp [written,txWrite,TxState.moved,hstate,hwrite]
    · cases hwrite : workerWrite cfg (s.workers i) b <;>
        simp [written,txWrite,TxState.moved,hwrite,hi,Function.update_of_ne (Ne.symm hi)]
  | poll ha ht =>
    subst ha
    obtain ⟨p,hp⟩ := pollStep_eq s
    rw [ht,hp]
    rfl

/-- A step of the transmitter takes its edges of the graph. -/
theorem Launching.tx_edge {s : LaunchState W} (hs : s.Launching) {a : TxAction W}
    (hen : s.enabled a = true) {e : StateWrite W} (he : s.stateWrite cfg (.tx a) = some e) :
    e.worker.val < s.cursor ∧ StateEdge e.worker e.author (s.letter e.worker) e.letter ∧
      e.letter ≠ .state .disconnected ∧
      (s.letter e.worker = .state .connecting → e.letter ≠ .state .preamble) := by
  cases a with
  | ingest =>
    obtain ⟨w,hw,rfl⟩ := Option.map_eq_some_iff.mp he
    have hidle := hs.control.found w (IngestPc.found_of_marks hw)
    have hcreated := hs.created hidle
    refine ⟨hcreated,?_,by simp,by simp⟩
    rw [letter_of_lt hcreated,hidle]
    exact .dispatch
  | worker i b =>
    obtain ⟨l,hl,rfl⟩ := Option.map_eq_some_iff.mp he
    have hcreated : i.val < s.cursor := of_decide_eq_true hen
    obtain ⟨hedge,hlive,honline⟩ := workerWrite_edge (hs.control.worker i) hl
    simp only [letter_of_lt hcreated,Letter.state.injEq,ne_eq]
    exact ⟨hcreated,.worker hedge,hlive,honline⟩
  | _ => cases he

/-- So does a step of the launcher. -/
theorem Launching.launch_edge {s : LaunchState W} (hs : s.Launching) {e : StateWrite W}
    (he : s.stateWrite cfg .launch = some e) :
    e.worker.val = s.cursor ∧ StateEdge e.worker e.author (s.letter e.worker) e.letter ∧
      e.letter ≠ .state .disconnected ∧
      (s.letter e.worker = .state .connecting → e.letter ≠ .state .preamble) := by
  simp only [stateWrite] at he
  split_ifs at he with hmore
  have hcurrent := hs.current ⟨s.cursor,hmore⟩ rfl
  cases hpc : s.pc <;> simp only [hpc,reduceCtorEq,Option.some.injEq] at he hcurrent <;> subst he
  all_goals
    rw [letter_of_ge (by simp),hcurrent]
    refine ⟨rfl,?_,by simp,by simp⟩
  · exact .mark
  · exact .launch

/-- The states after a step, from the write it makes. -/
theorem Launching.letter_step {s t : LaunchState W} (hs : s.Launching) {a : LaunchAction W}
    (h : launchStep cfg s a = some t) (w : Fin W) :
    t.letter w = written (s.stateWrite cfg a) w (s.letter w) := by
  cases a with
  | launch =>
    simp only [launchStep] at h
    split_ifs at h with halive hmore
    cases h
    have hcurrent := hs.current ⟨s.cursor,hmore⟩ rfl
    have hwaiting := hs.waiting ⟨s.cursor,hmore⟩ le_rfl
    cases hpc : s.pc with
    | mark | label =>
      simp only [written,stateWrite,launchTurn,hmore,hpc,dif_pos]
      by_cases hw : ⟨s.cursor,hmore⟩ = w
      · subst hw
        simp [letter,write]
      · rw [if_neg hw]
        simp [letter,write,Ne.symm hw]
    | create =>
      simp only [written,stateWrite,launchTurn,hmore,hpc,dif_pos] at hcurrent ⊢
      by_cases hw : ⟨s.cursor,hmore⟩ = w
      · subst hw
        rw [letter_of_ge (s := s) le_rfl,hcurrent,letter_of_lt (Nat.lt_succ_self _),hwaiting]
        rfl
      · have hne : w.val ≠ s.cursor := fun hval => hw (Fin.ext hval.symm)
        have hiff : w.val < s.cursor+1 ↔ w.val < s.cursor := by omega
        simp only [letter,hiff]
  | launchFailed e =>
    simp only [launchStep] at h
    split_ifs at h
    cases h
    rfl
  | tx a =>
    simp only [launchStep] at h
    split_ifs at h with hen
    obtain ⟨u,hu,rfl⟩ := Option.map_eq_some_iff.mp h
    by_cases hw : w.val < s.cursor
    · rw [letter_of_lt hw,letter_of_lt (s := { s with tx := u }) hw]
      exact tx_state hu w
    · have hsame : written (s.stateWrite cfg (.tx a)) w (s.letter w) = s.letter w := by
        cases hwrite : s.stateWrite cfg (.tx a) with
        | none => rfl
        | some e =>
          have hne : e.worker ≠ w := by
            rintro rfl
            exact hw (hs.tx_edge hen hwrite).1
          simp [written,hne]
      rw [hsame]
      simp [letter,hw]

/-- Each step takes its edges of the graph. -/
theorem Launching.edge {s t : LaunchState W} (hs : s.Launching) {a : LaunchAction W}
    (h : launchStep cfg s a = some t) {e : StateWrite W} (he : s.stateWrite cfg a = some e) :
    StateEdge e.worker e.author (s.letter e.worker) e.letter ∧
      e.letter ≠ .state .disconnected ∧
      (s.letter e.worker = .state .connecting → e.letter ≠ .state .preamble) := by
  cases a with
  | launch => exact (hs.launch_edge he).2
  | launchFailed x => cases he
  | tx a =>
    simp only [launchStep] at h
    split_ifs at h with hen
    exact (hs.tx_edge hen he).2

end LaunchState

/-- A worker leaves 'd' when it begins to push, and then only. -/
theorem StateEdge.push_iff {w : Fin W} {au : Author W} {l l' : Letter} (h : StateEdge w au l l')
    (honline : l = .state .connecting → l' ≠ .state .preamble) :
    l = .state .dispatched ↔ l' = .state .preamble := by
  cases h with
  | worker h => cases h <;> simp_all
  | _ => simp

/-- A worker has pushed every leg it was dispatched with, but the one it still holds in 'd'. -/
def Balance (s : LaunchState W) (es : List (StateWrite W)) : Prop :=
  ∀ w, (s.letter w = .state .dispatched → dispatches w es = pushes w es+1) ∧
    (s.letter w ≠ .state .dispatched → dispatches w es = pushes w es)

theorem Balance.step {s t : LaunchState W} {es : List (StateWrite W)} (hb : Balance s es)
    (hs : s.Launching) {a : LaunchAction W} (h : launchStep cfg s a = some t) :
    Balance t (es++(s.stateWrite cfg a).toList) := by
  intro w
  obtain ⟨hheld,hfree⟩ := hb w
  rw [hs.letter_step h w]
  cases hwrite : s.stateWrite cfg a with
  | none =>
    rw [Option.toList_none,List.append_nil]
    exact hb w
  | some e =>
    obtain ⟨hedge,-,honline⟩ := hs.edge h hwrite
    have hiff := hedge.push_iff honline
    simp only [written,dispatches,pushes,Option.toList_some,sets_snoc] at hheld hfree ⊢
    by_cases hw : e.worker = w
    · subst hw
      by_cases hpush : e.letter = .state .preamble
      · simp [hpush,hheld (hiff.mpr hpush)]
      · have hbefore := hfree fun hl => hpush (hiff.mp hl)
        simp [hpush,hbefore]
    · simpa [hw] using And.intro hheld hfree

/-- A worker at the switch has sampled 'i' or 'd'. -/
theorem sampled_at_switch {w : TxWorker} (hw : WorkerControl w) (hpc : w.pc = .unlock) :
    w.localState = .idle ∨ w.localState = .dispatched := by
  simp only [WorkerControl,hpc] at hw
  apply hw.elim
  · rintro ⟨-,h⟩
    exact .inl h
  · rintro ⟨-,h⟩
    exact h

/-- So it does not get to the default case. -/
theorem switch_goes_on {s t : TxState W} {w : Fin W} (hs : TxControl s)
    (hpc : (s.workers w).pc = .unlock) (h : txStep cfg s (.worker w .run) = some t) :
    t.exited = none := by
  simp only [txStep] at h
  split_ifs at h
  obtain ⟨m,hm,rfl⟩ := Option.map_eq_some_iff.mp h
  have hsampled := sampled_at_switch (hs.worker w) hpc
  simp only [workerStep,workerRun,hpc] at hm
  apply hsampled.elim <;> intro hlocal <;> rw [hlocal] at hm <;> cases hm <;> rfl

/-- In every run from the launch on, the states follow the graph. -/
theorem followsGraph_of_reachable {p : LaunchState W × List (StateWrite W)}
    (hp : Reachable (statesMachine cfg W) anyStep p) : FollowsGraph cfg p.1 p.2 := by
  have hany : ∀ (q : LaunchState W × List (StateWrite W)) (a : LaunchAction W),
      anyStep q a → anyStep q.1 a := fun _ _ _ => trivial
  have hlaunch : p.1.Launching := .reachable (hp.erase hany)
  have hbalance : Balance p.1 p.2 := by
    refine hp.invariant (I := fun p => Balance p.1 p.2) ?_ ?_
    · rintro ⟨s,es⟩ ⟨hs,hes⟩ w
      cases hs
      cases hes
      exact ⟨fun h => Letter.noConfusion h,fun _ => rfl⟩
    · intro p a q hq hb _ hstep
      obtain ⟨t,ht,rfl⟩ := Option.map_eq_some_iff.mp hstep
      exact hb.step (.reachable (hq.erase hany)) ht
  refine ⟨fun a t ht e he => (hlaunch.edge ht he).1,fun a t ht e he => (hlaunch.edge ht he).2,
    fun a t ht => hlaunch.letter_step ht,fun w hpc => ?_,fun w t hpc ht => ?_,fun w => ?_⟩
  · exact (sampled_at_switch (hlaunch.control.worker w) hpc).imp id .inl
  · simp only [launchStep] at ht
    split_ifs at ht
    obtain ⟨u,hu,rfl⟩ := Option.map_eq_some_iff.mp ht
    exact switch_goes_on hlaunch.control hpc hu
  · obtain ⟨hheld,hfree⟩ := hbalance w
    by_cases hletter : p.1.letter w = .state .dispatched
    · have hcount := hheld hletter
      omega
    · have hcount := hfree hletter
      omega

/-- One worker from its launch to the end of its first leg, and dispatched again. -/
theorem followsGraph_twoLegs :
    ∃ p, Reachable (statesMachine .plain 1) anyStep p ∧ pushes 0 p.2 = 1 ∧
      dispatches 0 p.2 = 2 ∧ FollowsGraph .plain p.1 p.2 := by
  have hrun : ∃ p ∈ exec (statesMachine .plain 1) anyStep (launchInit 1,[])
      (.replicate 3 .launch++(startUp 0++pushOne (oneByte 7) 41++workerSteps 0 4++
        ingestSteps 2++findAndFill (oneByte 8)++ingestSteps 5).map .tx),
      pushes 0 p.2 = 1 ∧ dispatches 0 p.2 = 2 := by decide
  have hinit : (statesMachine .plain 1).init (launchInit 1,[]) := ⟨rfl,rfl⟩
  obtain ⟨p,hp,hpush,hdispatch⟩ := exists_reachable hinit hrun
  exact ⟨p,hp,hpush,hdispatch,followsGraph_of_reachable hp⟩

end Viamillipede
