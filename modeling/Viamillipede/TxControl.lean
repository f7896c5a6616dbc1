import Viamillipede.Tx

/-! Which states a transmit worker can be in at each place of its thread, and that the
worker `dispatch_idle_worker` has found stays idle until `start_worker`.

These facts hold in every run. The content of headers and buffers is another matter,
treated in `TxHandover`. -/
namespace Viamillipede

open Bytes Transition

variable {W : ℕ} {cfg : TxConfig}

/-- The worker that the ingest thread has found idle and not yet marked 'd'. -/
def IngestPc.found : IngestPc W → Option (Fin W)
  | .scanUnlock w => w
  | .fill w | .size w | .leg w | .opcode w | .checksum w | .start w => some w
  | .shutLock w | .shutDone w | .shutEof w | .shutUnlock w => some w
  | .shutSize w | .shutLeg w | .shutOpcode w | .shutStart w => some w
  | _ => none

/-- The worker that the next step of the ingest thread marks 'd'. -/
def IngestPc.marks : IngestPc W → Option (Fin W)
  | .start w | .shutStart w => some w
  | _ => none

theorem IngestPc.found_of_marks {pc : IngestPc W} {w : Fin W} (h : pc.marks = some w) :
    pc.found = some w := by
  cases pc <;> simp_all [marks,found]

/-- The state letter a worker can carry at each place of its thread. -/
def WorkerControl (w : TxWorker) : Prop :=
  match w.pc with
  | .start => w.state = .launched ∧ w.done = false
  | .connecting recover => w.state = .connecting ∧ recover = false ∧ w.done = false
  | .setIdle => w.state = .connecting ∧ w.done = false
  | .zeroSize | .zeroLeg | .setPreamble =>
    (w.state = .idle ∨ w.state = .dispatched) ∧ w.done = false
  | .loop | .sampleDone | .sampleState | .unlease => w.state = .idle ∨ w.state = .dispatched
  | .gone => (w.state = .idle ∨ w.state = .dispatched) ∧ w.done = true
  | .unlock =>
    (w.state = .idle ∧ w.localState = .idle) ∨
      (w.state = .dispatched ∧ (w.localState = .idle ∨ w.localState = .dispatched))
  | .recover | .markDead => False
  | .preamble => w.state = .dispatched
  | .remainder | .gather | .wait => w.state = .preamble ∧ w.retcode = 1
  | .push => (w.state = .preamble ∨ w.state = .waiting) ∧ w.retcode = 1
  | .writev _ | .lease => w.state = .pushing ∧ w.retcode = 1
  | .zeroLease | .release => w.state = .pushing
  | .faulted => w.state = .faulted

/-- A worker thread never leaves 'i' by itself, and follows its own graph of states. -/
theorem workerRun_control {w : TxWorker} {i : Fin W} {mutex : Option (TxThread W)} {done : Bool}
    {m : WorkerMove W} (hw : WorkerControl w) (h : workerRun cfg i mutex done w = some m) :
    WorkerControl m.worker ∧ (w.state = .idle → m.worker.state = .idle) := by
  cases hpc : w.pc <;> simp only [workerRun,WorkerControl,hpc] at h hw
  all_goals grind [WorkerControl]

theorem workerStep_control {w : TxWorker} {i : Fin W} {mutex : Option (TxThread W)} {done : Bool}
    {a : WorkerAction} {m : WorkerMove W} (hw : WorkerControl w)
    (h : workerStep cfg i mutex done w a = some m) :
    WorkerControl m.worker ∧ (w.state = .idle → m.worker.state = .idle) := by
  cases a with
  | run => exact workerRun_control hw (by simpa only [workerStep] using h)
  | _ =>
    cases hpc : w.pc <;> simp only [workerStep,hpc,reduceCtorEq] at h
    all_goals grind [WorkerControl,writevReturned]

/-- A signal that ends a `usleep` early is noticed in `errno` alone. -/
theorem workerStep_interrupted {w : TxWorker} {i : Fin W} {mutex : Option (TxThread W)}
    {done : Bool} {m : WorkerMove W} (h : workerStep cfg i mutex done w .interrupted = some m) :
    m = ⟨{ w with errno := true },mutex,none,[]⟩ := by
  cases hpc : w.pc <;> simp only [workerStep,hpc,reduceCtorEq] at h
  all_goals
    split at h <;> cases h
    rw [← hpc]

theorem control_dispatched {w : TxWorker} (hw : WorkerControl w) (hidle : w.state = .idle) :
    WorkerControl { w with state := .dispatched } := by
  cases hpc : w.pc <;> grind [WorkerControl]

/-- What a step of the ingest thread does to the workers: nothing, fill in the header or the
buffer of the worker it has found, or mark that worker 'd' and forget it. -/
inductive IngestChange (s t : TxState W) : Prop
  | quiet : t.workers = s.workers → t.log = s.log → t.poll = s.poll → IngestChange s t
  | stored (w : Fin W) (pkt : Millipacket) (buffer : Memory) : s.ingest.pc.found = some w →
      t.workers = Function.update s.workers w { s.workers w with pkt := pkt, buffer := buffer } →
      pkt.preamble = (s.workers w).pkt.preamble →
      t.log = s.log → t.poll = s.poll → IngestChange s t
  | marked (w : Fin W) (p : Packet) : s.ingest.pc.marks = some w → t.ingest.pc.found = none →
      t.workers = Function.update s.workers w { s.workers w with state := .dispatched } →
      t.log = s.log++[⟨w,p⟩] →
      t.poll = { s.poll with stale := s.poll.stale || s.poll.pc.sampled w } → IngestChange s t

/-- What a step of the ingest thread does outside its own locals. -/
structure IngestEffect (s t : TxState W) : Prop where
  change : IngestChange s t
  found : ∀ i, t.ingest.pc.found = some i →
    s.ingest.pc.found = some i ∨ (s.workers i).state = .idle ∧ ∃ cursor, s.ingest.pc = .scan cursor
  done : s.done = true → t.done = true
  wire : t.wire = s.wire
  exited : t.exited = s.exited

/-- The same for one worker. -/
inductive Handled (s t : TxState W) (i : Fin W) : Prop
  | same : t.workers i = s.workers i → Handled s t i
  | stored (pkt : Millipacket) (buffer : Memory) : s.ingest.pc.found = some i →
      pkt.preamble = (s.workers i).pkt.preamble →
      t.workers i = { s.workers i with pkt := pkt, buffer := buffer } → Handled s t i
  | marked : s.ingest.pc.found = some i → t.ingest.pc.found = none →
      t.workers i = { s.workers i with state := .dispatched } → Handled s t i

theorem IngestChange.worker {s t : TxState W} (h : IngestChange s t) (i : Fin W) :
    Handled s t i := by
  cases h with
  | quiet hw => exact .same (by rw [hw])
  | stored w pkt buffer hfound hw hpre =>
    rcases eq_or_ne i w with rfl | hi
    · exact .stored pkt buffer hfound hpre (by simp [hw])
    · exact .same (by simp [hw,hi])
  | marked w p hmarks hnone hw =>
    rcases eq_or_ne i w with rfl | hi
    · exact .marked (IngestPc.found_of_marks hmarks) hnone (by simp [hw])
    · exact .same (by simp [hw,hi])

theorem ingestFilled_found (cfg : TxConfig) (s : TxState W) (w : Fin W) (fill : Payload) :
    (ingestFilled cfg s w fill).ingest.pc.found = some w := by
  unfold ingestFilled
  simp only
  split_ifs <;> rfl

theorem ingestFilled_eq (cfg : TxConfig) (s : TxState W) (w : Fin W) (fill : Payload) :
    ∃ g, ingestFilled cfg s w fill = { s with ingest := g } := by
  unfold ingestFilled
  simp only
  split_ifs <;> exact ⟨_,rfl⟩

theorem ingestStep_effect {s t : TxState W} (h : ingestStep cfg s = some t) :
    IngestEffect s t := by
  cases hpc : s.ingest.pc with
  | fill w =>
    simp only [ingestStep,hpc] at h
    split at h <;> cases h
    have hfound := ingestFilled_found cfg s w
      ⟨(s.workers w).buffer.read kfootsize,by simp⟩
    obtain ⟨g,hg⟩ := ingestFilled_eq cfg s w
      ⟨(s.workers w).buffer.read kfootsize,by simp⟩
    rw [hg] at hfound ⊢
    refine ⟨.quiet rfl rfl rfl,fun u hu => .inl ?_,id,rfl,rfl⟩
    rw [hpc]
    exact hfound.symm.trans hu
  | scanUnlock found =>
    cases found <;> simp only [ingestStep,hpc,Option.some.injEq] at h <;> subst h <;>
      exact ⟨.quiet rfl rfl rfl,by simp [TxState.goto,IngestPc.found,hpc],id,rfl,rfl⟩
  | scan cursor =>
    simp only [ingestStep,hpc] at h
    split at h
    · split at h <;> cases h
      · rename_i hidle
        exact ⟨.quiet rfl rfl rfl,by simpa [TxState.goto,IngestPc.found,hpc] using hidle,id,rfl,rfl⟩
      · exact ⟨.quiet rfl rfl rfl,by simp [TxState.goto,IngestPc.found,hpc],id,rfl,rfl⟩
    · cases h
      exact ⟨.quiet rfl rfl rfl,by simp [TxState.goto,IngestPc.found,hpc],id,rfl,rfl⟩
  | start w | shutStart w =>
    simp only [ingestStep,hpc,Option.some.injEq] at h
    subst h
    exact ⟨.marked w _ (by rw [hpc]; rfl) rfl rfl rfl rfl,by simp [TxState.goto,IngestPc.found],id,
      rfl,rfl⟩
  | size w | leg w | opcode w | checksum w | shutSize w | shutLeg w | shutOpcode w =>
    simp only [ingestStep,hpc,Option.some.injEq] at h
    subst h
    exact ⟨.stored w _ _ (by rw [hpc]; rfl) rfl rfl rfl rfl,
      by simp [TxState.goto,IngestPc.found,hpc],id,rfl,rfl⟩
  | _ =>
    simp only [ingestStep,hpc] at h
    try split at h
    all_goals cases h
    all_goals
      exact ⟨.quiet rfl rfl rfl,by simp [TxState.goto,IngestPc.found,hpc],by simp [TxState.goto],
        rfl,rfl⟩

theorem fill_effect {s : TxState W} {w : Fin W} (hpc : s.ingest.pc = .fill w) (data : Payload) :
    IngestEffect s (ingestFilled cfg (s.setWorker w
      { s.workers w with buffer := (s.workers w).buffer.store 0 data.val }) w data) := by
  let filled := s.setWorker w { s.workers w with buffer := (s.workers w).buffer.store 0 data.val }
  have hfound := ingestFilled_found cfg filled w data
  obtain ⟨g,hg⟩ := ingestFilled_eq cfg filled w data
  rw [hg] at hfound
  change IngestEffect s (ingestFilled cfg filled w data)
  rw [hg]
  refine ⟨.stored w (s.workers w).pkt _ (by rw [hpc]; rfl) rfl rfl rfl rfl,fun u hu => .inl ?_,id,
    rfl,rfl⟩
  rw [hpc]
  exact hfound.symm.trans hu

theorem pollStep_eq (s : TxState W) : ∃ p, pollStep s = { s with poll := p } := by
  unfold pollStep
  split
  case h_2 =>
    simp only
    split_ifs <;> exact ⟨_,rfl⟩
  all_goals exact ⟨_,rfl⟩

/-- What a step of the transmitter is, seen from its workers. -/
inductive TxMove (cfg : TxConfig) (s t : TxState W) (a : TxAction W) : Prop
  | ingest : (a = .ingest ∧ ingestStep cfg s = some t ∨ ∃ w data, a = .fill data ∧
      s.ingest.pc = .fill w ∧ cfg.gprbsSeed = 0 ∧ t = ingestFilled cfg (s.setWorker w
        { s.workers w with buffer := (s.workers w).buffer.store 0 data.val }) w data) →
      IngestEffect s t → TxMove cfg s t a
  | fillFailed : a = .fillFailed → t = { s with exited := some (.checkperror 87) } → TxMove cfg s t a
  | worker (i : Fin W) (b : WorkerAction) (m : WorkerMove W) : a = .worker i b →
      workerStep cfg i s.mutex s.done (s.workers i) b = some m → t = s.moved i m → TxMove cfg s t a
  | poll : a = .poll → t = pollStep s → TxMove cfg s t a

theorem txStep_cases {s t : TxState W} {a : TxAction W} (h : txStep cfg s a = some t) :
    TxMove cfg s t a := by
  simp only [txStep] at h
  split at h
  · cases h
  cases a with
  | ingest => exact .ingest (.inl ⟨rfl,h⟩) (ingestStep_effect h)
  | fill data =>
    cases hpc : s.ingest.pc <;> simp only [hpc,reduceCtorEq] at h
    split at h <;> cases h
    rename_i w hseed
    have hseed : cfg.gprbsSeed = 0 := by
      have hle := UInt64.le_iff_toNat_le.mp (UInt64.not_lt.mp hseed)
      exact UInt64.toNat_inj.mp (Nat.le_zero.mp hle)
    exact .ingest (.inr ⟨w,data,rfl,hpc,hseed,rfl⟩) (fill_effect hpc data)
  | fillFailed =>
    cases hpc : s.ingest.pc <;> simp only [hpc,reduceCtorEq] at h
    split at h <;> cases h
    exact .fillFailed rfl rfl
  | worker i b =>
    obtain ⟨m,hm,rfl⟩ := Option.map_eq_some_iff.mp h
    exact .worker i b m rfl hm rfl
  | poll => exact .poll rfl (Option.some.inj h).symm

/-- The control part of the transmitter's invariant. -/
structure TxControl (s : TxState W) : Prop where
  worker : ∀ i, WorkerControl (s.workers i)
  found : ∀ w, s.ingest.pc.found = some w → (s.workers w).state = .idle

namespace TxControl

theorem init : TxControl (txInit W) where
  worker _ := ⟨rfl,rfl⟩
  found _ h := by cases h

theorem of_effect {s t : TxState W} (hs : TxControl s) (h : IngestEffect s t) : TxControl t where
  worker i := by
    cases h.change.worker i with
    | same hi => rw [hi]; exact hs.worker i
    | stored pkt buffer _ _ hi => rw [hi]; exact hs.worker i
    | marked hfound _ hi => rw [hi]; exact control_dispatched (hs.worker i) (hs.found i hfound)
  found i hi := by
    have hidle : (s.workers i).state = .idle := (h.found i hi).elim (hs.found i) And.left
    cases h.change.worker i with
    | same hw => rwa [hw]
    | stored pkt buffer _ _ hw => rwa [hw]
    | marked _ hnone _ => simp [hnone] at hi

theorem step {s t : TxState W} {a : TxAction W} (hs : TxControl s)
    (h : txStep cfg s a = some t) : TxControl t := by
  cases txStep_cases h with
  | ingest _ heffect => exact hs.of_effect heffect
  | fillFailed _ ht => exact ht ▸ ⟨hs.worker,hs.found⟩
  | worker i b m _ hm ht =>
    subst ht
    obtain ⟨hw,hidle⟩ := workerStep_control (hs.worker i) hm
    constructor <;> intro u
    · rcases eq_or_ne u i with rfl | hu
      · simpa [TxState.moved] using hw
      · simpa [TxState.moved,hu] using hs.worker u
    · intro hfound
      rcases eq_or_ne u i with rfl | hu
      · simpa [TxState.moved] using hidle (hs.found u hfound)
      · simpa [TxState.moved,hu] using hs.found u hfound
  | poll _ ht =>
    obtain ⟨p,hp⟩ := pollStep_eq s
    rw [ht,hp]
    exact ⟨hs.worker,hs.found⟩

theorem reachable {ok : TxState W → TxAction W → Prop} {s : TxState W}
    (hs : Reachable (txMachine cfg W) ok s) : TxControl s :=
  hs.invariant (by rintro s rfl; exact init) fun _ _ _ _ h _ hstep => h.step hstep

end TxControl

/-- A signal ends a worker's `usleep` early. -/
def TxAction.interrupts : TxAction W → Bool
  | .worker _ .interrupted => true
  | _ => false

theorem workerStep_errno {w : TxWorker} {i : Fin W} {mutex : Option (TxThread W)} {done : Bool}
    {a : WorkerAction} {m : WorkerMove W} (ha : a ≠ .interrupted) (hw : w.errno = false)
    (h : workerStep cfg i mutex done w a = some m) : m.worker.errno = false := by
  cases a with
  | run =>
    cases hpc : w.pc <;> simp only [workerStep,workerRun,hpc] at h
    all_goals grind
  | interrupted => exact absurd rfl ha
  | _ =>
    cases hpc : w.pc <;> simp only [workerStep,hpc,reduceCtorEq] at h
    all_goals grind [writevReturned]

/-- Without such a signal no worker comes to its `writev` with `errno` set. -/
theorem errno_of_reachable {ok : TxState W → TxAction W → Prop}
    (hok : ∀ s a, ok s a → a.interrupts = false) {s : TxState W}
    (hs : Reachable (txMachine cfg W) ok s) (i : Fin W) : (s.workers i).errno = false := by
  refine hs.invariant (I := fun s => ∀ i, (s.workers i).errno = false) ?_ ?_ i
  · rintro s rfl i
    rfl
  · intro s a t _ ih ha h i
    cases txStep_cases h with
    | ingest _ heffect =>
      cases heffect.change.worker i with
      | same hw | stored _ _ _ _ hw | marked _ _ hw => rw [hw]; exact ih i
    | fillFailed _ ht => rw [ht]; exact ih i
    | worker j b m hab hm ht =>
      subst ht hab
      rcases eq_or_ne i j with rfl | hne
      · have hb : b ≠ .interrupted := by
          rintro rfl
          cases hok _ _ ha
        simpa [TxState.moved] using workerStep_errno hb (ih i) hm
      · simpa [TxState.moved,hne] using ih i
    | poll _ ht =>
      obtain ⟨p,hp⟩ := pollStep_eq s
      rw [ht,hp]
      exact ih i

end Viamillipede
