import Viamillipede.Lock
import Viamillipede.TxDispatch
import Viamillipede.RxControl

/-! The owners of `txconf->mutex` and `rxmutex` over whole runs.

Both are taken and released at many places. Whatever the interleaving, a mutex is owned
exactly while its owner is at one of the places behind the lock and before the unlock, and
nothing there waits for another thread. -/
namespace Viamillipede

open Transition

section Transmitter

variable {W : ℕ} {cfg : TxConfig}

/-- The thread holds `txconf->mutex`, by its place. -/
def TxState.inside (s : TxState W) : TxThread W → Bool
  | .ingest => s.ingest.pc.locked
  | .worker i => (s.workers i).pc.locked

/-- The thread runs on by itself. -/
def TxThread.action : TxThread W → TxAction W
  | .ingest => .ingest
  | .worker i => .worker i .run

theorem workerStep_use {w : TxWorker} {i : Fin W} {mutex : Option (TxThread W)} {done : Bool}
    {a : WorkerAction} {m : WorkerMove W} (hw : WorkerControl w)
    (h : workerStep cfg i mutex done w a = some m) :
    Lock.Use (.worker i) mutex m.mutex w.pc.locked m.worker.pc.locked := by
  cases a with
  | run =>
    cases hpc : w.pc with
    | loop =>
      simp only [workerStep,workerRun,hpc] at h
      split_ifs at h with hdone hfree <;> cases h
      · exact .keep rfl rfl
      · exact .take hfree rfl rfl
    | lease =>
      simp only [workerStep,workerRun,hpc] at h
      split_ifs at h with hfree hret <;> cases h <;> exact .take hfree rfl rfl
    | unlock =>
      have hlocal : w.localState = .idle ∨ w.localState = .dispatched := by
        simp only [WorkerControl,hpc] at hw
        rcases hw with hw | hw
        · exact .inl hw.2
        · exact hw.2
      simp only [workerStep,workerRun,hpc] at h
      rcases hlocal with hlocal | hlocal <;> simp only [hlocal,Option.some.injEq] at h <;>
        exact h ▸ .give rfl rfl rfl
    | unlease =>
      simp only [workerStep,workerRun,hpc,Option.some.injEq] at h
      exact h ▸ .give rfl rfl rfl
    | remainder =>
      simp only [workerStep,workerRun,hpc] at h
      split_ifs at h <;> cases h
      · exact .keep rfl rfl
      · exact .keep rfl (by rw [hpc])
    | _ =>
      simp only [workerStep,workerRun,hpc,Option.some.injEq,reduceCtorEq] at h
      try exact h ▸ .keep rfl rfl
  | _ =>
    cases hpc : w.pc <;> simp only [workerStep,hpc,reduceCtorEq] at h
    all_goals grind [Lock.Use,writevReturned,WorkerPc.locked]

theorem ingestStep_use {s t : TxState W} (h : ingestStep cfg s = some t) :
    Lock.Use .ingest s.mutex t.mutex s.ingest.pc.locked t.ingest.pc.locked := by
  cases hpc : s.ingest.pc with
  | fill w =>
    simp only [ingestStep,hpc] at h
    split_ifs at h
    cases h
    obtain ⟨hmutex,hfree,-⟩ := ingestFilled_mutex cfg s w ⟨(s.workers w).buffer.read kfootsize,by simp⟩
    exact .keep hmutex hfree
  | lock | scanLock | shutLock w =>
    simp only [ingestStep,hpc] at h
    split_ifs at h with hfree
    cases h
    exact .take hfree rfl rfl
  | test =>
    simp only [ingestStep,hpc,Option.some.injEq] at h
    subst h
    refine .keep rfl ?_
    dsimp only [TxState.goto]
    split_ifs <;> rfl
  | scan cursor =>
    simp only [ingestStep,hpc] at h
    split_ifs at h <;> cases h <;> exact .keep rfl rfl
  | scanUnlock found =>
    cases found <;> simp only [ingestStep,hpc,Option.some.injEq] at h <;> subst h <;>
      exact .give rfl rfl rfl
  | unlock | shutUnlock w | finish =>
    simp only [ingestStep,hpc,Option.some.injEq] at h
    exact h ▸ .give rfl rfl rfl
  | _ =>
    simp only [ingestStep,hpc,Option.some.injEq,reduceCtorEq] at h
    try exact h ▸ .keep rfl rfl

theorem guards_txStep {s t : TxState W} {a : TxAction W} (hs : Lock.Guards s.mutex s.inside)
    (hc : TxControl s) (h : txStep cfg s a = some t) : Lock.Guards t.mutex t.inside := by
  cases txStep_cases h with
  | ingest hcases heffect =>
    refine hs.use (t := .ingest) ?_ ?_
    · rcases hcases with ⟨-,hstep⟩ | ⟨w,data,-,hpc,-,rfl⟩
      · exact ingestStep_use hstep
      · obtain ⟨hmutex,hfree,-⟩ := ingestFilled_mutex cfg (s.setWorker w
          { s.workers w with buffer := (s.workers w).buffer.store 0 data.val }) w data
        exact .keep hmutex (by rw [TxState.inside,TxState.inside,hfree,hpc]; rfl)
    · rintro (_ | i) hne
      · exact absurd rfl hne
      · simp only [TxState.inside,(heffect.change.worker i).pc]
  | fillFailed _ ht => exact ht ▸ hs
  | worker i b m _ hm ht =>
    subst ht
    refine hs.use (t := .worker i) ?_ ?_
    · simpa [TxState.inside,TxState.moved] using workerStep_use (hc.worker i) hm
    · rintro (_ | j) hne
      · rfl
      · have hji : j ≠ i := fun hji => hne (by rw [hji])
        simp [TxState.inside,TxState.moved,hji]
  | poll _ ht =>
    obtain ⟨p,hp⟩ := pollStep_eq s
    rw [ht,hp]
    exact hs

theorem guards_tx {ok : TxState W → TxAction W → Prop} {s : TxState W}
    (hs : Reachable (txMachine cfg W) ok s) : Lock.Guards s.mutex s.inside :=
  hs.invariant (I := fun s => Lock.Guards s.mutex s.inside)
    (by rintro s rfl; exact .none fun t => by cases t <;> rfl)
    fun _ _ _ hr h _ hstep => guards_txStep h (.reachable hr) hstep

variable (cfg) in
/-- A thread that holds the mutex does not wait for anybody. -/
theorem txStep_inside {s : TxState W} (hs : s.exited = none) {t : TxThread W}
    (ht : s.inside t = true) : ∃ u, txStep cfg s t.action = some u := by
  cases t with
  | ingest =>
    simp only [TxState.inside] at ht
    cases hpc : s.ingest.pc with
    | scan cursor =>
      simp only [TxThread.action,txStep,ingestStep,hs,hpc,Option.isSome_none,Bool.false_eq_true,
        if_false]
      split_ifs <;> exact ⟨_,rfl⟩
    | scanUnlock found =>
      cases found <;> simp [TxThread.action,txStep,ingestStep,hs,hpc]
    | _ =>
      simp only [IngestPc.locked,hpc,reduceCtorEq] at ht
      try simp [TxThread.action,txStep,ingestStep,hs,hpc]
  | worker i =>
    simp only [TxState.inside] at ht
    cases hpc : (s.workers i).pc with
    | unlock =>
      simp only [TxThread.action,txStep,workerStep,workerRun,hs,hpc,Option.isSome_none,
        Bool.false_eq_true,if_false]
      cases (s.workers i).localState <;> exact ⟨_,rfl⟩
    | _ =>
      simp only [WorkerPc.locked,hpc,reduceCtorEq] at ht
      try simp [TxThread.action,txStep,workerStep,workerRun,hs,hpc]

/-- `txconf->mutex` in every run of `txingest` and the worker threads: who owns it is who is
between a lock and its unlock, and that thread can go on. -/
theorem txMutex_of_reachable {s : TxState W} (hs : Reachable (txMachine cfg W) anyStep s) :
    Lock.Guards s.mutex s.inside ∧ (∀ t u, s.inside t = true → s.inside u = true → t = u) ∧
      (s.exited = none → ∀ t ∈ s.mutex, ∃ u, txStep cfg s t.action = some u) :=
  have hguards := guards_tx hs
  ⟨hguards,fun _ _ => hguards.unique,fun halive t ht =>
    txStep_inside cfg halive ((hguards t).mp ht)⟩

/-- One worker, in the critical section of its loop. -/
theorem txMutex_startUp :
    ∃ s ∈ exec (txMachine .plain 1) anyStep (txInit 1) (startUp 0++workerSteps 0 2),
      s.mutex = some (.worker 0) ∧ Lock.Guards s.mutex s.inside := by
  have hrun : ∃ s ∈ exec (txMachine .plain 1) anyStep (txInit 1) (startUp 0++workerSteps 0 2),
      s.mutex = some (.worker 0) := by decide
  obtain ⟨s,hs,hmutex⟩ := hrun
  exact ⟨s,hs,hmutex,(txMutex_of_reachable (reachable_exec (.init rfl) hs)).1⟩

end Transmitter

section Receiver

variable {n : ℕ} {cfg : RxConfig}

/-- The thread holds `rxmutex`, by its place. -/
def RxState.inside (s : RxState n) : RxThread n → Bool
  | .main => s.poll.critical
  | .worker i => (s.workers i).pc.critical

def RxThread.action : RxThread n → RxAction n
  | .main => .poll
  | .worker i => .run i

theorem guards_rxMove {s t : RxState n} (hs : Lock.Guards s.rxmutex s.inside)
    (h : RxMove cfg s t) : Lock.Guards t.rxmutex t.inside := by
  have hupdate {t : RxState n} {i : Fin n} {w : RxWorker}
      (hworkers : t.workers = Function.update s.workers i w) (hpoll : t.poll = s.poll)
      (huse : Lock.Use (.worker i) s.rxmutex t.rxmutex (s.workers i).pc.critical w.pc.critical) :
      Lock.Guards t.rxmutex t.inside := by
    refine hs.use (t := .worker i) ?_ ?_
    · simpa [RxState.inside,hworkers] using huse
    · rintro (_ | j) hne
      · simp only [RxState.inside,hpoll]
      · have hji : j ≠ i := fun hji => hne (by rw [hji])
        simp [RxState.inside,hworkers,hji]
  cases h with
  | ended e => exact hs
  | fetch i w hfetch =>
    refine hupdate rfl rfl (.keep rfl ?_)
    obtain ⟨hpc,hto⟩ := hfetch.pc
    have hout : (s.workers i).pc.critical = false := by
      revert hpc; cases (s.workers i).pc <;> simp [RxPc.fetching,RxPc.critical]
    rw [hout]
    rcases hto with hto | hto | hto <;> revert hto <;> cases w.pc <;>
      simp [RxPc.fetching,RxPc.critical]
  | acquire i pc hfree hpc =>
    refine hupdate rfl rfl (.take hfree rfl ?_)
    simp only [List.mem_cons,Prod.mk.injEq,List.not_mem_nil,or_false] at hpc
    rcases hpc with ⟨-,rfl⟩ | ⟨-,rfl⟩ | ⟨-,rfl⟩ | ⟨-,rfl⟩ <;> rfl
  | opcode i pc sum hpc hto =>
    refine hupdate rfl rfl (.keep rfl ?_)
    rcases hto with ⟨rfl,_⟩ | ⟨rfl,_⟩ <;> rw [hpc] <;> rfl
  | sleep i hpc | restart i hpc | enter i hpc =>
    exact hupdate rfl rfl (.give (by rw [hpc]; rfl) rfl rfl)
  | release i pc hpc =>
    simp only [List.mem_cons,Prod.mk.injEq,List.not_mem_nil,or_false] at hpc
    rcases hpc with ⟨hpc,rfl⟩ | ⟨hpc,rfl⟩ <;>
      exact hupdate rfl rfl (.give (by rw [hpc]; rfl) rfl rfl)
  | pass i hpc | block i hpc | wake i hpc | writeSome i _ _ hpc | writeAll i _ _ hpc | done i hpc
  | advance i hpc => exact hupdate rfl rfl (.keep rfl (by rw [hpc]; rfl))
  | broadcast i hpc =>
    have hgoto : Lock.Guards (s.goto i .inner).rxmutex (s.goto i .inner).inside :=
      hupdate rfl rfl (.keep rfl (by rw [hpc]; rfl))
    -- who wakes up has yet to take the mutex again
    have hsame : (s.goto i .inner).awaken.inside = (s.goto i .inner).inside := by
      funext t
      cases t with
      | main => rfl
      | worker j =>
        obtain ⟨hsleep,hw⟩ | ⟨-,hw⟩ := (s.goto i .inner).awaken_cases j <;>
          simp only [RxState.inside,hw]
        rw [hsleep]
        rfl
    rw [hsame]
    exact hgoto
  | poll t h =>
    refine hs.use (t := .main) ?_ ?_
    · cases hpoll : s.poll <;> simp only [rxPollStep,hpoll,Option.some.injEq] at h
      case lock =>
        split_ifs at h with hfree
        cases h
        exact .take hfree rfl rfl
      case unlock done => exact h ▸ .give (by rw [RxState.inside,hpoll]; rfl) rfl rfl
      all_goals exact h ▸ .keep rfl (by rw [RxState.inside,RxState.inside,hpoll]; rfl)
    · rintro (_ | j) hne
      · exact absurd rfl hne
      · obtain ⟨p,m,rfl⟩ := rxPollStep_eq h
        rfl

theorem guards_rx {ok : RxState n → RxAction n → Prop} {s : RxState n}
    (hs : Reachable (rxMachine cfg n) ok s) : Lock.Guards s.rxmutex s.inside :=
  hs.invariant (I := fun s => Lock.Guards s.rxmutex s.inside)
    (by rintro s rfl; exact .none fun t => by cases t <;> rfl)
    fun _ _ _ _ h _ hstep => guards_rxMove h (rxStep_cases hstep)

variable (cfg) in
theorem rxStep_inside {s : RxState n} (hs : s.exited = none) {t : RxThread n}
    (ht : s.inside t = true) : ∃ u, rxStep cfg s t.action = some u := by
  cases t with
  | main =>
    simp only [RxState.inside] at ht
    cases hpoll : s.poll with
    | read | unlock => simp [RxThread.action,rxStep,rxPollStep,hs,hpoll]
    | lock | returned => simp [RxPollPc.critical,hpoll] at ht
  | worker i =>
    simp only [RxState.inside] at ht
    cases hpc : (s.workers i).pc <;> simp only [RxPc.critical,hpc,reduceCtorEq] at ht
    all_goals simp [RxThread.action,rxStep,rxRun,hs,hpc]

/-- `rxmutex` in every run of the receive workers and `rx_poll`: the same, though sleeping
on `seq_cv` gives it up and waking takes it again. -/
theorem rxMutex_of_reachable {s : RxState n} (hs : Reachable (rxMachine cfg n) anyStep s) :
    Lock.Guards s.rxmutex s.inside ∧ (∀ t u, s.inside t = true → s.inside u = true → t = u) ∧
      (s.exited = none → ∀ t ∈ s.rxmutex, ∃ u, rxStep cfg s t.action = some u) :=
  have hguards := guards_rx hs
  ⟨hguards,fun _ _ => hguards.unique,fun halive t ht =>
    rxStep_inside cfg halive ((hguards t).mp ht)⟩

/-- The main thread between the lock and the unlock of `rx_poll`. -/
theorem rxMutex_polling :
    ∃ s ∈ exec (rxMachine .plain 1) anyStep (rxInit 1) [.poll],
      s.rxmutex = some .main ∧ Lock.Guards s.rxmutex s.inside := by
  have hrun : ∃ s ∈ exec (rxMachine .plain 1) anyStep (rxInit 1) [.poll],
      s.rxmutex = some .main := by decide
  obtain ⟨s,hs,hmutex⟩ := hrun
  exact ⟨s,hs,hmutex,(rxMutex_of_reachable (reachable_exec (.init rfl) hs)).1⟩

end Receiver

end Viamillipede
