import Viamillipede.TxLog

/-! Whether a packet can be handed to a worker that has left, or is about to leave,
its loop: `txshutdown` against the `while (!done)` of `txworker_sm`.

`txshutdown` publishes `done` before it marks the worker it was given. A worker that
samples its state in between sees `done` and 'i' and leaves. -/
namespace Viamillipede

open Bytes Transition

variable {W : ℕ} {cfg : TxConfig}

/-- The thread will leave its loop without another look at its state. -/
def TxWorker.leaving (w : TxWorker) : Prop :=
  w.done = true ∧
    (w.pc = .unlease ∨ w.pc = .loop ∨ w.pc = .gone ∨ w.pc = .unlock ∧ w.localState = .idle)

/-- A thread decides to leave when it has seen `done` and then samples 'i', or when it has
seen `done` and becomes idle at the end of a push. -/
theorem workerStep_leaving {w : TxWorker} {i : Fin W} {mutex : Option (TxThread W)} {done : Bool}
    {a : WorkerAction} {m : WorkerMove W} (hw : WorkerControl w)
    (h : workerStep cfg i mutex done w a = some m) (hm : m.worker.leaving) :
    m.worker.state = w.state ∧
        (w.leaving ∨ a = .run ∧ w.pc = .sampleState ∧ w.done = true ∧ w.state = .idle) ∨
      m.worker.state = .idle ∧ w.state = .pushing := by
  cases a with
  | run =>
    cases hpc : w.pc <;> simp only [workerStep,workerRun,WorkerControl,hpc] at h hw
    all_goals grind [TxWorker.leaving]
  | _ =>
    cases hpc : w.pc <;> simp only [workerStep,hpc,reduceCtorEq] at h
    all_goals grind [WorkerControl,writevReturned,TxWorker.leaving]

theorem workerStep_done {w : TxWorker} {i : Fin W} {mutex : Option (TxThread W)} {done : Bool}
    {a : WorkerAction} {m : WorkerMove W} (h : workerStep cfg i mutex done w a = some m)
    (hm : m.worker.done = true) : w.done = true ∨ done = true := by
  cases a with
  | run =>
    cases hpc : w.pc <;> simp only [workerStep,workerRun,hpc] at h
    all_goals grind
  | _ =>
    cases hpc : w.pc <;> simp only [workerStep,hpc,reduceCtorEq] at h
    all_goals grind [writevReturned]

/-- The step does not let the worker that `txshutdown` was given, and has not yet marked
'd', look at its state after that worker has seen `done`. -/
def MarkedInTime (s : TxState W) (a : TxAction W) : Prop :=
  ∀ i, a = .worker i .run → (s.workers i).pc = .sampleState → (s.workers i).done = true →
    s.ingest.pc.found ≠ some i

instance (s : TxState W) (a : TxAction W) : Decidable (MarkedInTime s a) :=
  inferInstanceAs (Decidable (∀ i, a = .worker i .run → (s.workers i).pc = .sampleState →
    (s.workers i).done = true → s.ingest.pc.found ≠ some i))

/-- No thread that has left its loop has a packet, or is about to be given one. -/
def NoneAbandoned (s : TxState W) : Prop :=
  ∀ i, (s.workers i).pc = .gone →
    (s.workers i).state ≠ .dispatched ∧ s.ingest.pc.found ≠ some i

instance (s : TxState W) : Decidable (NoneAbandoned s) :=
  inferInstanceAs (Decidable (∀ i, (s.workers i).pc = .gone →
    (s.workers i).state ≠ .dispatched ∧ s.ingest.pc.found ≠ some i))

/-- The workers that leave, in step with the ingest thread. -/
structure TxShutdown (s : TxState W) : Prop where
  seen : ∀ i, (s.workers i).done = true → s.done = true
  leaving : ∀ i, (s.workers i).leaving →
    (s.workers i).state = .idle ∧ s.ingest.pc.found ≠ some i

namespace TxShutdown

theorem init : TxShutdown (txInit W) where
  seen _ h := by cases h
  leaving _ h := by cases h.1

theorem noneAbandoned {s : TxState W} (hs : TxShutdown s) (hc : TxControl s) :
    NoneAbandoned s := by
  intro i hpc
  have hworker := hc.worker i
  simp only [WorkerControl,hpc] at hworker
  obtain ⟨hidle,hfound⟩ := hs.leaving i ⟨hworker.2,.inr (.inr (.inl hpc))⟩
  exact ⟨by simp [hidle],hfound⟩

/-- The ingest thread marks only the worker it has found, and once `done` is set it finds
no other. -/
theorem of_effect {s t : TxState W} (hs : TxShutdown s) (hl : TxLog s) (h : IngestEffect s t) :
    TxShutdown t := by
  have hworker (i : Fin W) : (t.workers i).done = (s.workers i).done ∧
      ((t.workers i).leaving → (s.workers i).leaving) := by
    cases h.change.worker i with
    | same hi => simp [hi]
    | stored pkt buffer _ _ hi => rw [hi]; exact ⟨rfl,id⟩
    | marked _ _ hi => rw [hi]; exact ⟨rfl,id⟩
  refine ⟨fun i hi => h.done (hs.seen i ((hworker i).1 ▸ hi)),fun i hi => ?_⟩
  have hleaving := (hworker i).2 hi
  obtain ⟨hidle,hnot⟩ := hs.leaving i hleaving
  constructor
  · cases h.change.worker i with
    | same hw => rw [hw]; exact hidle
    | stored _ _ hfound _ _ => exact absurd hfound hnot
    | marked hfound _ _ => exact absurd hfound hnot
  · intro hfound
    rcases h.found i hfound with hfound | ⟨_,cursor,hpc⟩
    · exact hnot hfound
    · -- the thread is scanning, so that `done` is not set yet
      have hflags := hl.flags
      simp [hpc,IngestPc.Flags,hs.seen i hleaving.1] at hflags

theorem step {s t : TxState W} {a : TxAction W} (hs : TxShutdown s) (hc : TxControl s)
    (hl : TxLog s) (ha : MarkedInTime s a) (h : txStep cfg s a = some t) : TxShutdown t := by
  cases txStep_cases h with
  | ingest _ heffect => exact hs.of_effect hl heffect
  | fillFailed _ ht => exact ht ▸ ⟨hs.seen,hs.leaving⟩
  | worker i b m hab hm ht =>
    subst ht
    constructor <;> intro u hu
    · rcases eq_or_ne u i with rfl | hne
      · exact (workerStep_done hm (by simpa [TxState.moved] using hu)).elim (hs.seen u) id
      · exact hs.seen u (by simpa [TxState.moved,hne] using hu)
    · rcases eq_or_ne u i with rfl | hne
      · simp only [TxState.moved,Function.update_self] at hu ⊢
        rcases workerStep_leaving (hc.worker u) hm hu with ⟨hstate,hleaving | hsample⟩ | hpush
        · rw [hstate]; exact hs.leaving u hleaving
        · obtain ⟨rfl,hpc,hdone,hidle⟩ := hsample
          exact ⟨hstate.trans hidle,ha u hab hpc hdone⟩
        · exact ⟨hpush.1,fun hfound => by simp [hc.found u hfound] at hpush⟩
      · simp only [TxState.moved,Function.update_of_ne hne] at hu ⊢
        exact hs.leaving u hu
  | poll _ ht =>
    obtain ⟨p,hp⟩ := pollStep_eq s
    rw [ht,hp]
    exact ⟨hs.seen,hs.leaving⟩

theorem reachable {s : TxState W} (hs : Reachable (txMachine cfg W) MarkedInTime s) :
    TxShutdown s :=
  hs.invariant (by rintro s rfl; exact init) fun _ _ _ hr h ha hstep =>
    h.step (.reachable hr) (.reachable hr) ha hstep

end TxShutdown

/-- When the mark always comes in time, every packet is handed to a worker that is still
in its loop, and no worker leaves with one. -/
theorem noneAbandoned_of_markedInTime {s : TxState W}
    (hs : Reachable (txMachine cfg W) MarkedInTime s) : NoneAbandoned s :=
  (TxShutdown.reachable hs).noneAbandoned (.reachable hs)

/-- An empty input that ends while the worker is in its loop: the worker marked 'd' in
time samples that state, pushes the end of the stream and leaves. -/
def markedInTimeRun : List (TxAction 1) :=
  .flatten [startUp 0,pushEnd 40,workerSteps 0 5]

theorem noneAbandoned_markedInTimeRun :
    ∃ s ∈ exec (txMachine .plain 1) MarkedInTime (txInit 1) markedInTimeRun,
      (s.workers 0).pc = .gone ∧ (s.wire 0).length = 40 ∧ NoneAbandoned s := by
  have hrun : ∃ s ∈ exec (txMachine .plain 1) MarkedInTime (txInit 1) markedInTimeRun,
      (s.workers 0).pc = .gone ∧ (s.wire 0).length = 40 := by decide
  obtain ⟨s,hs,hgone,hwire⟩ := hrun
  exact ⟨s,hs,hgone,hwire,noneAbandoned_of_markedInTime (reachable_exec (.init rfl) hs)⟩

/-- The same input, but the worker looks at its state between the lock released at 129 and
the mark at 133. -/
def hurriedRun : List (TxAction 1) :=
  .flatten [startUp 0,findAndFill noBytes,ingestSteps 4,workerSteps 0 5]

/-- The worker leaves first, and is then marked with the end of the stream. -/
theorem abandoned_of_hurriedRun :
    (∃ s ∈ exec (txMachine .plain 1) anyStep (txInit 1) hurriedRun,
      (s.workers 0).pc = .gone ∧ s.ingest.pc = .shutSize 0 ∧ ¬ NoneAbandoned s) ∧
    (∃ s ∈ exec (txMachine .plain 1) anyStep (txInit 1) (hurriedRun ++ ingestSteps 4),
      (s.workers 0).pc = .gone ∧ (s.workers 0).state = .dispatched ∧
        (s.workers 0).pkt.opcode = endOfMillipede ∧ ¬ NoneAbandoned s) ∧
    ¬ ∀ s, Reachable (txMachine .plain 1) anyStep s → NoneAbandoned s := by
  have hleft : ∃ s ∈ exec (txMachine .plain 1) anyStep (txInit 1) hurriedRun,
      (s.workers 0).pc = .gone ∧ s.ingest.pc = .shutSize 0 ∧ ¬ NoneAbandoned s := by decide
  refine ⟨hleft,by decide,fun hall => ?_⟩
  obtain ⟨s,hs,-,-,habandoned⟩ := hleft
  exact habandoned (hall s (reachable_exec (.init rfl) hs))

end Viamillipede
