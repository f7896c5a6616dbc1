import Viamillipede.TxControl

/-! Which worker `dispatch_idle_worker` returns.

The scan samples the workers one after the other, but it holds `txconf->mutex`, and a worker
that has started up becomes idle only in `txpush`, under the same mutex. -/
namespace Viamillipede

open Transition

variable {W : ℕ} {cfg : TxConfig}

/-- The worker thread holds `txconf->mutex`. -/
def WorkerPc.locked : WorkerPc → Bool
  | .sampleDone | .sampleState | .unlock | .zeroLease | .release | .markDead | .unlease => true
  | _ => false

/-- The ingest thread holds `txconf->mutex`. -/
def IngestPc.locked : IngestPc W → Bool
  | .test | .unlock | .scan _ | .scanUnlock _ | .shutDone _ | .shutEof _ | .shutUnlock _
  | .finish => true
  | _ => false

/-- The worker has finished its start-up: it has set itself idle, or given up. -/
def TxWorker.started (w : TxWorker) : Bool :=
  match w.pc with
  | .start | .connecting _ | .setIdle => false
  | _ => true

/-- The ingest thread is in the scan of `dispatch_idle_worker`. -/
def IngestPc.scanning : IngestPc W → Bool
  | .scan _ | .scanUnlock _ => true
  | _ => false

/-- The transmitter from the state `s` on. -/
def txFrom (cfg : TxConfig) (s : TxState W) : Machine (TxState W) (TxAction W) where
  init := fun t => t = s
  step := txStep cfg

/-- Worker `w` is idle and none before it is. -/
def TxState.FirstIdle (s : TxState W) (w : Fin W) : Prop :=
  (s.workers w).state = .idle ∧ ∀ j < w, (s.workers j).state ≠ .idle

/-- What `dispatch_idle_worker` owes `txingest`. -/
structure PicksFirst (cfg : TxConfig) (s : TxState W) : Prop where
  /-- When the scan ends with a worker, that is the first idle one. -/
  first : ∀ w, s.ingest.pc = .scanUnlock (some w) → w.val < W ∧ s.FirstIdle w
  /-- It still is when the mutex has been released. -/
  released : ∀ w t, s.ingest.pc = .scanUnlock (some w) → txStep cfg s .ingest = some t →
    t.mutex = none ∧ t.ingest.pc = .fill w ∧ t.FirstIdle w
  /-- The worker is idle as long as it is the one found. -/
  idle : ∀ w, s.ingest.pc.found = some w → (s.workers w).state = .idle
  /-- It is the one found until `start_worker` is called on it. -/
  kept : ∀ w a t, s.ingest.pc.found = some w → txStep cfg s a = some t →
    t.ingest.pc.found = some w ∨
      (a = .ingest ∧ s.ingest.pc.marks = some w ∧ (t.workers w).state = .dispatched)

/-- Who owns `txconf->mutex`, from the places of the threads. -/
structure MutexOwner (s : TxState W) : Prop where
  ingest : s.ingest.pc.locked = true → s.mutex = some .ingest
  worker : ∀ i, (s.workers i).pc.locked = true → s.mutex = some (.worker i)

/-- What a worker's step does to the mutex: it takes it or releases it. -/
theorem workerStep_mutex {w : TxWorker} {i : Fin W} {mutex : Option (TxThread W)} {done : Bool}
    {a : WorkerAction} {m : WorkerMove W} (hw : WorkerControl w)
    (hown : w.pc.locked = true → mutex = some (.worker i))
    (h : workerStep cfg i mutex done w a = some m) :
    (m.worker.pc.locked = true → m.mutex = some (.worker i)) ∧
      (m.mutex = mutex ∨ mutex = none ∨ mutex = some (.worker i)) := by
  cases a <;> cases hpc : w.pc <;>
    simp only [workerStep,workerRun,WorkerControl,WorkerPc.locked,hpc,reduceCtorEq] at h hw hown
  all_goals grind [writevReturned,WorkerPc.locked]

/-- A worker that has started up becomes idle only while it holds the mutex. -/
theorem workerStep_idle {w : TxWorker} {i : Fin W} {mutex : Option (TxThread W)} {done : Bool}
    {a : WorkerAction} {m : WorkerMove W} (hw : WorkerControl w) (hstarted : w.started = true)
    (h : workerStep cfg i mutex done w a = some m) :
    m.worker.started = true ∧
      (m.worker.state = .idle → w.state = .idle ∨ w.pc.locked = true) := by
  cases a <;> cases hpc : w.pc <;>
    simp only [workerStep,workerRun,WorkerControl,TxWorker.started,WorkerPc.locked,hpc,reduceCtorEq]
      at h hw hstarted ⊢
  all_goals grind [writevReturned,TxWorker.started]

theorem ingestFilled_mutex (cfg : TxConfig) (s : TxState W) (w : Fin W) (fill : Payload) :
    (ingestFilled cfg s w fill).mutex = s.mutex ∧
      (ingestFilled cfg s w fill).ingest.pc.locked = false ∧
      (ingestFilled cfg s w fill).ingest.pc.scanning = false := by
  unfold ingestFilled
  simp only
  split_ifs <;> exact ⟨rfl,rfl,rfl⟩

/-- The same for the ingest thread. -/
theorem ingestStep_mutex {s t : TxState W} (hown : s.ingest.pc.locked = true → s.mutex = some .ingest)
    (h : ingestStep cfg s = some t) :
    (t.ingest.pc.locked = true → t.mutex = some .ingest) ∧
      (t.mutex = s.mutex ∨ s.mutex = none ∨ s.mutex = some .ingest) := by
  cases hpc : s.ingest.pc with
  | fill w =>
    simp only [ingestStep,hpc] at h
    split_ifs at h
    cases h
    obtain ⟨hmutex,hfree,-⟩ := ingestFilled_mutex cfg s w ⟨(s.workers w).buffer.read kfootsize,by simp⟩
    simp [hmutex,hfree]
  | scanUnlock found =>
    cases found <;> simp only [ingestStep,IngestPc.locked,hpc,Option.some.injEq] at h hown <;> subst h <;>
      simp [TxState.goto,IngestPc.locked,hown]
  | scan cursor =>
    simp only [ingestStep,IngestPc.locked,hpc] at h hown
    split_ifs at h <;> cases h <;> simp [TxState.goto,IngestPc.locked,hown]
  | _ =>
    simp only [ingestStep,IngestPc.locked,hpc] at h hown
    try split_ifs at h
    all_goals cases h
    all_goals simp_all [TxState.goto,TxState.setPkt,TxState.setWorker,startWorker,IngestPc.locked]

/-- The ingest thread leaves the places of the worker threads alone. -/
theorem Handled.pc {s t : TxState W} {i : Fin W} (h : Handled s t i) :
    (t.workers i).pc = (s.workers i).pc := by
  cases h with
  | same h => rw [h]
  | stored pkt buffer _ _ h => rw [h]
  | marked _ _ h => rw [h]

namespace MutexOwner

theorem init : MutexOwner (txInit W) where
  ingest h := by cases h
  worker _ h := by cases h

/-- Nobody takes the mutex from its owner. -/
theorem keep {mutex mutex' : Option (TxThread W)} {u v : TxThread W} (huv : u ≠ v)
    (hu : mutex = some u) (h : mutex' = mutex ∨ mutex = none ∨ mutex = some v) :
    mutex' = some u := by
  subst hu
  simpa [huv] using h

theorem ingestStep {s t : TxState W} (hs : MutexOwner s) (heffect : IngestEffect s t)
    (h : (t.ingest.pc.locked = true → t.mutex = some .ingest) ∧
      (t.mutex = s.mutex ∨ s.mutex = none ∨ s.mutex = some .ingest)) : MutexOwner t where
  ingest := h.1
  worker i hi := by
    rw [(heffect.change.worker i).pc] at hi
    exact keep (by simp) (hs.worker i hi) h.2

theorem step {s t : TxState W} {a : TxAction W} (hs : MutexOwner s) (hc : TxControl s)
    (h : txStep cfg s a = some t) : MutexOwner t := by
  cases txStep_cases h with
  | ingest hcases heffect =>
    apply hs.ingestStep heffect
    rcases hcases with ⟨-,hstep⟩ | ⟨w,data,-,hpc,-,rfl⟩
    · exact ingestStep_mutex hs.ingest hstep
    · obtain ⟨hmutex,hfree,-⟩ := ingestFilled_mutex cfg (s.setWorker w
        { s.workers w with buffer := (s.workers w).buffer.store 0 data.val }) w data
      exact ⟨fun hlocked => absurd hlocked (by simp [hfree]),.inl hmutex⟩
  | fillFailed _ ht => exact ht ▸ ⟨hs.ingest,hs.worker⟩
  | worker i b m _ hm ht =>
    subst ht
    obtain ⟨hown,hmutex⟩ := workerStep_mutex (hc.worker i) (hs.worker i) hm
    constructor
    · intro hlocked
      exact keep (by simp) (hs.ingest hlocked) hmutex
    · intro j hj
      by_cases hji : j = i
      · subst hji
        simp only [TxState.moved,Function.update_self] at hj
        exact hown hj
      · simp only [TxState.moved,Function.update_of_ne hji] at hj
        exact keep (by simpa using hji) (hs.worker j hj) hmutex
  | poll _ ht =>
    obtain ⟨p,hp⟩ := pollStep_eq s
    rw [ht,hp]
    exact ⟨hs.ingest,hs.worker⟩

theorem reachable {ok : TxState W → TxAction W → Prop} {s : TxState W}
    (hs : Reachable (txMachine cfg W) ok s) : MutexOwner s :=
  hs.invariant (by rintro s rfl; exact init) fun _ _ _ hr h _ hstep =>
    h.step (.reachable hr) hstep

end MutexOwner

/-- The scan under way has passed no idle worker. -/
structure Scanned (s : TxState W) : Prop where
  control : TxControl s
  owner : MutexOwner s
  started : ∀ i, (s.workers i).started = true
  passed : ∀ cursor, s.ingest.pc = .scan cursor → ∀ j : Fin W, j.val < cursor →
    (s.workers j).state ≠ .idle
  first : ∀ w, s.ingest.pc = .scanUnlock (some w) → ∀ j < w, (s.workers j).state ≠ .idle

/-- The steps of the scan. -/
theorem ingestStep_scan {s t : TxState W} (h : ingestStep cfg s = some t)
    (hscan : t.ingest.pc.scanning = true) :
    t.ingest.pc = .scan 0 ∨ t.ingest.pc = .scanUnlock none ∨
      ∃ w : Fin W, s.ingest.pc = .scan w.val ∧
        ((s.workers w).state = .idle ∧ t.ingest.pc = .scanUnlock (some w) ∨
          (s.workers w).state ≠ .idle ∧ t.ingest.pc = .scan (w.val+1)) := by
  cases hpc : s.ingest.pc with
  | scan cursor =>
    simp only [ingestStep,hpc] at h
    split_ifs at h with hmore hidle <;> cases h
    · exact .inr (.inr ⟨⟨cursor,hmore⟩,rfl,.inl ⟨hidle,rfl⟩⟩)
    · exact .inr (.inr ⟨⟨cursor,hmore⟩,rfl,.inr ⟨hidle,rfl⟩⟩)
    · exact .inr (.inl rfl)
  | scanLock =>
    simp only [ingestStep,hpc] at h
    split_ifs at h
    cases h
    exact .inl rfl
  | fill w =>
    simp only [ingestStep,hpc] at h
    split_ifs at h
    cases h
    have hfilled := ingestFilled_mutex cfg s w ⟨(s.workers w).buffer.read kfootsize,by simp⟩
    simp [hfilled.2.2] at hscan
  | scanUnlock found =>
    cases found <;> simp only [ingestStep,hpc] at h <;> cases h <;> cases hscan
  | _ =>
    simp only [ingestStep,hpc] at h
    try split_ifs at h
    all_goals cases h
    all_goals cases hscan

namespace Scanned

/-- A step that leaves the scan where it is keeps it, if no worker becomes idle meanwhile. -/
theorem of_busy {s t : TxState W} (hs : Scanned s) (hcontrol : TxControl t) (howner : MutexOwner t)
    (hstarted : ∀ i, (t.workers i).started = true) (hpc : t.ingest.pc = s.ingest.pc)
    (hbusy : s.ingest.pc.scanning = true → ∀ i, (t.workers i).state = .idle →
      (s.workers i).state = .idle) : Scanned t := by
  refine ⟨hcontrol,howner,hstarted,fun cursor hcursor j hj hidle => ?_,fun w hw j hj hidle => ?_⟩
  · rw [hpc] at hcursor
    exact hs.passed cursor hcursor j hj (hbusy (by rw [hcursor]; rfl) j hidle)
  · rw [hpc] at hw
    exact hs.first w hw j hj (hbusy (by rw [hw]; rfl) j hidle)

/-- A step of the ingest thread goes past a worker only when that one is not idle. -/
theorem of_ingest {s t : TxState W} (hs : Scanned s) (hcontrol : TxControl t)
    (howner : MutexOwner t) (heffect : IngestEffect s t)
    (h : t.ingest.pc.scanning = false ∨ ingestStep cfg s = some t) : Scanned t := by
  have hbusy (i : Fin W) (hi : (t.workers i).state = .idle) : (s.workers i).state = .idle := by
    cases heffect.change.worker i with
    | same hw => rwa [← hw]
    | stored pkt buffer _ _ hw => rwa [hw] at hi
    | marked _ _ hw => simp [hw] at hi
  have hstarted (i : Fin W) : (t.workers i).started = true := by
    have hpc := (heffect.change.worker i).pc
    have hi := hs.started i
    unfold TxWorker.started at hi ⊢
    rwa [hpc]
  refine ⟨hcontrol,howner,hstarted,fun cursor hcursor j hj hidle => ?_,fun w hw j hj hidle => ?_⟩
  · have hscan : t.ingest.pc.scanning = true := by rw [hcursor]; rfl
    have hstep := h.resolve_left (by simp [hscan])
    rcases ingestStep_scan hstep hscan with hzero | hnone | ⟨v,hv,⟨-,hfound⟩ | ⟨hnot,hnext⟩⟩
    · cases hzero.symm.trans hcursor
      exact absurd hj (Nat.not_lt_zero _)
    · cases hnone.symm.trans hcursor
    · cases hfound.symm.trans hcursor
    · cases hnext.symm.trans hcursor
      rcases Nat.lt_succ_iff_lt_or_eq.mp hj with hlt | heq
      · exact hs.passed v.val hv j hlt (hbusy j hidle)
      · cases Fin.ext heq
        exact hnot (hbusy j hidle)
  · have hscan : t.ingest.pc.scanning = true := by rw [hw]; rfl
    have hstep := h.resolve_left (by simp [hscan])
    rcases ingestStep_scan hstep hscan with hzero | hnone | ⟨v,hv,⟨-,hfound⟩ | ⟨-,hnext⟩⟩
    · cases hzero.symm.trans hw
    · cases hnone.symm.trans hw
    · cases hfound.symm.trans hw
      exact hs.passed w.val hv j hj (hbusy j hidle)
    · cases hnext.symm.trans hw

/-- While the ingest thread scans, the mutex keeps the workers that have started up from
becoming idle. -/
theorem step {s t : TxState W} {a : TxAction W} (hs : Scanned s) (h : txStep cfg s a = some t) :
    Scanned t := by
  have hcontrol := hs.control.step h
  have howner := hs.owner.step hs.control h
  cases txStep_cases h with
  | ingest hcases heffect =>
    have hquiet : t.ingest.pc.scanning = false ∨ ingestStep cfg s = some t := by
      rcases hcases with ⟨-,hstep⟩ | ⟨w,data,-,hpc,-,rfl⟩
      · exact .inr hstep
      · exact .inl (ingestFilled_mutex cfg _ w data).2.2
    exact hs.of_ingest hcontrol howner heffect hquiet
  | fillFailed _ ht =>
    subst ht
    exact hs.of_busy hcontrol howner hs.started rfl fun _ _ hi => hi
  | worker i b m _ hm ht =>
    subst ht
    obtain ⟨hstarted,hidle⟩ := workerStep_idle (hs.control.worker i) (hs.started i) hm
    apply hs.of_busy hcontrol howner ?_ rfl ?_
    · intro j
      by_cases hji : j = i
      · subst hji
        simpa [TxState.moved] using hstarted
      · simpa [TxState.moved,hji] using hs.started j
    · intro hscan j hj
      by_cases hji : j = i
      · subst hji
        simp only [TxState.moved,Function.update_self] at hj
        apply (hidle hj).resolve_right
        intro hlocked
        have hingest : s.ingest.pc.locked = true := by
          revert hscan
          cases s.ingest.pc <;> simp [IngestPc.scanning,IngestPc.locked]
        have howned := hs.owner.ingest hingest
        rw [hs.owner.worker j hlocked] at howned
        cases howned
      · simpa [TxState.moved,hji] using hj
  | poll _ ht =>
    obtain ⟨p,hp⟩ := pollStep_eq s
    subst ht
    rw [hp] at hcontrol howner ⊢
    exact hs.of_busy hcontrol howner hs.started rfl fun _ _ hi => hi

end Scanned

/-- The ingest thread keeps the worker it has found until it calls `start_worker` on it. -/
theorem ingestStep_found {s t : TxState W} {w : Fin W} (hw : s.ingest.pc.found = some w)
    (h : ingestStep cfg s = some t) : t.ingest.pc.found = some w ∨
      (s.ingest.pc.marks = some w ∧ (t.workers w).state = .dispatched) := by
  cases hpc : s.ingest.pc with
  | start v | shutStart v =>
    simp only [ingestStep,IngestPc.found,hpc,Option.some.injEq] at h hw
    subst h hw
    exact .inr ⟨rfl,by simp [startWorker,TxState.goto,TxState.setWorker]⟩
  | fill v =>
    simp only [ingestStep,IngestPc.found,hpc] at h hw
    split_ifs at h
    cases h
    rw [← hw]
    exact .inl (ingestFilled_found cfg s v _)
  | scanUnlock found =>
    cases found <;> simp only [ingestStep,IngestPc.found,hpc,reduceCtorEq] at h hw
    cases h
    exact .inl hw
  | _ =>
    simp only [ingestStep,IngestPc.found,hpc,reduceCtorEq] at h hw
    all_goals try split_ifs at h
    all_goals cases h
    all_goals exact .inl hw

theorem txStep_found {s t : TxState W} {a : TxAction W} {w : Fin W}
    (hw : s.ingest.pc.found = some w) (h : txStep cfg s a = some t) :
    t.ingest.pc.found = some w ∨
      (a = .ingest ∧ s.ingest.pc.marks = some w ∧ (t.workers w).state = .dispatched) := by
  cases txStep_cases h with
  | ingest hcases _ =>
    rcases hcases with ⟨ha,hstep⟩ | ⟨v,data,-,hpc,-,rfl⟩
    · exact (ingestStep_found hw hstep).imp id fun hmarked => ⟨ha,hmarked⟩
    · rw [hpc] at hw
      cases hw
      exact .inl (ingestFilled_found cfg _ w data)
  | fillFailed _ ht =>
    subst ht
    exact .inl hw
  | worker i b m _ _ ht =>
    subst ht
    exact .inl hw
  | poll _ ht =>
    obtain ⟨p,hp⟩ := pollStep_eq s
    rw [ht,hp]
    exact .inl hw

theorem Scanned.picksFirst {s : TxState W} (hs : Scanned s) : PicksFirst cfg s := by
  have hfirst (w : Fin W) (hpc : s.ingest.pc = .scanUnlock (some w)) : s.FirstIdle w := by
    refine ⟨hs.control.found w ?_,hs.first w hpc⟩
    rw [hpc]
    rfl
  refine ⟨fun w hpc => ⟨w.isLt,hfirst w hpc⟩,fun w t hpc h => ?_,hs.control.found,
    fun w a t hw h => txStep_found hw h⟩
  simp only [txStep,ingestStep,hpc] at h
  split_ifs at h
  cases h
  exact ⟨rfl,rfl,hfirst w hpc⟩

/-- Every scan that begins when all workers have started up picks the first idle worker,
which stays idle until it is dispatched, whatever the workers do meanwhile. -/
theorem picksFirst_of_started {s s' : TxState W} (hs : Reachable (txMachine cfg W) anyStep s)
    (hstarted : ∀ i, (s.workers i).started = true) (hout : s.ingest.pc.scanning = false)
    (hs' : Reachable (txFrom cfg s) anyStep s') : PicksFirst cfg s' := by
  apply Scanned.picksFirst
  refine hs'.invariant (I := Scanned) ?_ fun _ _ _ _ h _ hstep => h.step hstep
  rintro t rfl
  refine ⟨.reachable hs,.reachable hs,hstarted,fun cursor hcursor => ?_,fun w hw => ?_⟩
  · rw [hcursor] at hout
    cases hout
  · rw [hw] at hout
    cases hout

/-- Two workers up; the first one gets a leg and is still at it when the second scan ends. -/
theorem picksFirst_second :
    ∃ s s', Reachable (txMachine .plain 2) anyStep s ∧ (∀ i, (s.workers i).started = true) ∧
      s.ingest.pc.scanning = false ∧ Reachable (txFrom .plain s) anyStep s' ∧
      s'.ingest.pc = .scanUnlock (some 1) ∧ PicksFirst .plain s' := by
  have hrun : ∃ s ∈ exec (txMachine .plain 2) anyStep (txInit 2) (startUp 0++startUp 1),
      (∀ i, (s.workers i).started = true) ∧ s.ingest.pc.scanning = false ∧
      ∃ s' ∈ exec (txFrom .plain s) anyStep s
          (.flatten [ingestSteps 6,[.fill (oneByte 7)],ingestSteps 7,workerSteps 0 5,ingestSteps 6]),
        s'.ingest.pc = .scanUnlock (some 1) := by decide
  obtain ⟨s,hs,hstarted,hout,s',hs',hpc⟩ := hrun
  have hreach := reachable_exec (.init rfl) hs
  have hreach' : Reachable (txFrom .plain s) anyStep s' := reachable_exec (.init rfl) hs'
  exact ⟨s,s',hreach,hstarted,hout,hreach',hpc,picksFirst_of_started hreach hstarted hout hreach'⟩

end Viamillipede
