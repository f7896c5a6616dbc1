import Viamillipede.SessionRest

/-! A session can always be brought to its end.

Wherever the threads are, the legs on their way can be written, and the ingest thread can
then find a worker, come to the end of its input and hand that over. -/
namespace Viamillipede

open Bytes Transition

variable {W : ℕ} {cfg : SessionConfig} {s t : Session W}

/-- How far the ingest thread is from `txshutdown`, if its next fill is the last. -/
def IngestPc.toEnd : IngestPc W → ℕ
  | .size _ => 19
  | .leg _ => 18
  | .opcode _ => 17
  | .checksum _ => 16
  | .start _ => 15
  | .total => 14
  | .bump => 13
  | .lock => 12
  | .test => 11
  | .unlock => 10
  | .scanLock | .scan _ | .scanUnlock _ => 9
  | .fill _ => 8
  | .shutLock _ => 7
  | _ => 6

/-- The same, and nothing when the end of the stream is handed over. -/
def TxState.toEnd (s : TxState W) : ℕ := if s.ended then 0 else s.ingest.pc.toEnd

/-- When it runs on behind a lock, it comes no farther from its end. -/
theorem ingestStep_toEnd {cfg : TxConfig} {s t : TxState W} (hl : TxLog s)
    (hleft : 0 < s.ingest.pc.left 0) (h : ingestStep cfg s = some t) : t.toEnd ≤ s.toEnd := by
  have hflags := hl.flags
  cases hpc : s.ingest.pc with
  | test =>
    simp only [ingestStep,hpc,Option.some.injEq] at h
    subst h
    cases hdone : s.done <;>
      simp [TxState.toEnd,TxState.ended,TxState.goto,IngestPc.found,IngestPc.toEnd,hpc,hdone]
  | scan cursor =>
    simp only [ingestStep,IngestPc.Flags,hpc] at h hflags
    split_ifs at h <;> cases h <;>
      simp [TxState.toEnd,TxState.ended,TxState.goto,IngestPc.toEnd,hpc,hflags.1]
  | scanUnlock found =>
    simp only [IngestPc.Flags,hpc] at hflags
    cases found <;> simp only [ingestStep,hpc,Option.some.injEq] at h <;> subst h <;>
      simp [TxState.toEnd,TxState.ended,TxState.goto,IngestPc.toEnd,hpc,hflags.1]
  | _ =>
    simp only [IngestPc.left,IngestPc.Flags,ingestStep,hpc,Option.some.injEq,lt_irrefl] at hleft h hflags
    try subst h
    try simp [TxState.toEnd,TxState.ended,TxState.goto,TxState.setPkt,TxState.setWorker,startWorker,
      IngestPc.found,IngestPc.toEnd,hpc,hflags]

theorem TxState.toEnd_le (s : TxState W) : s.toEnd ≤ s.ingest.pc.toEnd := by
  unfold toEnd
  split
  · exact Nat.zero_le _
  · exact le_rfl

/-- Nor does any other work at hand take it farther. -/
theorem settling_toEnd {a : SessionAction W} (hl : TxLog s.tx) (hsettles : s.settles a = true)
    (h : sessionStep cfg s a = some t) : t.tx.toEnd ≤ s.tx.toEnd := by
  have hworker {i : Fin W} {b : WorkerAction} {tx : TxState W}
      (hstep : txStep cfg.tx s.tx (.worker i b) = some tx) : tx.toEnd ≤ s.tx.toEnd := by
    simp only [txStep] at hstep
    split at hstep
    · cases hstep
    · obtain ⟨m,-,rfl⟩ := Option.map_eq_some_iff.mp hstep
      exact le_rfl
  cases sessionStep_cases h with
  | connect i tx rx hconnect _ ht => exact ht ▸ hworker hconnect
  | tx b tx _ hstep ht =>
    subst ht
    cases b with
    | worker i c => exact hworker hstep
    | ingest =>
      simp only [txStep] at hstep
      split at hstep
      · cases hstep
      · exact ingestStep_toEnd hl (of_decide_eq_true hsettles) hstep
    | _ => cases hsettles
  | rx _ _ _ _ ht | readv _ _ _ _ _ _ ht | read _ _ _ _ _ ht | drop _ _ _ _ _ ht => exact ht ▸ le_rfl

/-- With the lock free, the ingest thread comes closer to its end by itself, unless it has to
find a worker or to fill a buffer. -/
theorem exists_ingestStep (cfg : TxConfig) {s : TxState W} (hfree : s.mutex = none)
    (hpc : 9 < s.ingest.pc.toEnd ∨ ∃ w, s.ingest.pc = .shutLock w) :
    ∃ u, ingestStep cfg s = some u ∧ u.ingest.pc.toEnd < s.ingest.pc.toEnd := by
  cases hpc' : s.ingest.pc with
  | test =>
    refine ⟨_,by simp only [ingestStep,hpc']; rfl,?_⟩
    dsimp only [TxState.goto]
    split_ifs <;> simp [IngestPc.toEnd]
  | lock | shutLock w =>
    refine ⟨_,by simp only [ingestStep,hpc',hfree]; rfl,?_⟩
    simp [TxState.goto,IngestPc.toEnd]
  | unlock | size w | leg w | opcode w | checksum w | start w | total | bump =>
    refine ⟨_,by simp only [ingestStep,hpc']; rfl,?_⟩
    simp [TxState.goto,IngestPc.toEnd]
  | _ => simp [IngestPc.toEnd,hpc'] at hpc

/-- An empty fill is the last. -/
theorem ingestFilled_toEnd (cfg : TxConfig) (s : TxState W) (w : Fin W) (data : Payload) :
    (ingestFilled cfg s w data).toEnd ≤ if data.val = [] then 7 else 19 := by
  refine (TxState.toEnd_le _).trans ?_
  unfold ingestFilled
  simp only
  by_cases hnil : data.val = []
  · simp only [hnil,List.length_nil,gt_iff_lt,lt_irrefl,if_false,ite_self,if_true]
    simp [TxState.goto,IngestPc.toEnd]
  · rw [if_neg hnil]
    split_ifs <;> simp [TxState.goto,IngestPc.toEnd]

/-- A calm step that does not go on with a fill. -/
def Feedless (s : Session W) (a : SessionAction W) : Prop := Calm s a ∧ a.fills = false

theorem feedless_of_settling {a : SessionAction W} (h : Settling s a) : Feedless s a := by
  refine ⟨h.1,?_⟩
  unfold SessionAction.fills
  split
  · exact absurd h.2 (by simp [Session.settles])
  · rfl

/-- The ingest thread may move while nobody starts up. -/
theorem calm_of_ingest {a : TxAction W} (hstart : ∀ i, (s.tx.workers i).pc.starting = false)
    (ha : a = .ingest ∨ ∃ data, a = .fill data) : Calm s (.tx a) := by
  rcases ha with rfl | ⟨data,rfl⟩ <;> exact calm_of_others ⟨rfl,rfl,rfl⟩ hstart (by simp)

theorem sessionStep_of_ingest {a : TxAction W} {u : TxState W}
    (ha : a = .ingest ∨ ∃ data, a = .fill data) (h : txStep cfg.tx s.tx a = some u) :
    sessionStep cfg s (.tx a) = some (s.withTx u) := by
  have hmay : s.txMay cfg a = true := by rcases ha with rfl | ⟨data,rfl⟩ <;> rfl
  simp only [sessionStep,hmay,if_true,h,Option.map_some]

theorem next_of_ingest {u : TxState W} (hstart : ∀ i, (s.tx.workers i).pc.starting = false)
    (h : txStep cfg.tx s.tx .ingest = some u) :
    (sessionMachine cfg W).Next Feedless s (s.withTx u) :=
  ⟨.tx .ingest,⟨calm_of_ingest hstart (.inl rfl),rfl⟩,sessionStep_of_ingest (.inl rfl) h⟩

/-- The ingest thread may run on while nobody starts up. -/
theorem leads_of_ingestSteps (hstart : ∀ i, (s.tx.workers i).pc.starting = false) {n : ℕ}
    {u : TxState W} (h : u ∈ exec (txMachine cfg.tx W) anyStep s.tx (ingestSteps n)) :
    ∃ t, (sessionMachine cfg W).Leads Feedless s t ∧ t.tx = u := by
  induction n generalizing s with
  | zero => exact ⟨s,.refl,by simpa [ingestSteps,exec] using h⟩
  | succ n ih =>
    simp only [ingestSteps,List.replicate_succ,exec,anyStep,Option.mem_def] at h
    obtain ⟨v,hstep,h⟩ := Option.bind_eq_some_iff.mp h
    replace hstep : txStep cfg.tx s.tx .ingest = some v := hstep
    have hquiet (i : Fin W) : (v.workers i).pc.starting = false := by
      cases txStep_cases hstep with
      | ingest _ heffect => rw [(heffect.change.worker i).pc]; exact hstart i
      | worker _ _ _ hab | fillFailed hab | poll hab => cases hab
    obtain ⟨t,hleads,ht⟩ := ih (s := s.withTx v) hquiet h
    exact ⟨t,.head (next_of_ingest hstart hstep) hleads,ht⟩

/-- In PRBS mode the ingest thread makes a leg and hands it over by itself. -/
theorem exec_prbsLeg {cfg : TxConfig} {s : TxState W} {w : Fin W} (halive : s.exited = none)
    (hpc : s.ingest.pc = .fill w) (hseed : cfg.gprbsSeed > 0) (hlimit : cfg.glegLimit = 0) :
    ∃ u ∈ exec (txMachine cfg W) anyStep s (ingestSteps 6), ∃ d ∈ u.log, d.packet.IsFeed := by
  obtain ⟨fill,hfill,hne⟩ : ∃ fill : Payload,
      ⟨(s.workers w).buffer.read kfootsize,by simp⟩ = fill ∧ fill.val ≠ [] :=
    ⟨_,rfl,List.ne_nil_of_length_pos (by rw [Memory.read_length]; decide)⟩
  have hfilled : ingestStep cfg s =
      some ({ s with ingest := { s.ingest with fill := fill } }.goto (.size w)) := by
    simp only [ingestStep,hpc,if_pos hseed]
    rw [hfill]
    simp [ingestFilled,TxState.goto,hlimit,List.length_pos_iff,hne]
  simp only [ingestSteps,List.replicate,exec,anyStep,if_true,txMachine,txStep,halive,
    Option.isSome_none,Bool.false_eq_true,if_false,hfilled,Option.bind_some]
  simp [TxState.goto,ingestStep,TxState.setPkt,TxState.setWorker,startWorker,
    feedPacket_isFeed _ _ hne]

/-- A run keeps what was handed over. -/
theorem log_prefix_of_leads (hs : Reachable (sessionMachine cfg W) Calm s)
    (h : (sessionMachine cfg W).Leads Calm s t) : s.tx.log <+: t.tx.log := by
  refine (hs.keeps (r := fun s t => s.tx.log <+: t.tx.log) (fun _ _ (h : Calm _ _) => h)
    (fun _ => List.prefix_rfl) (fun _ _ _ => List.IsPrefix.trans) (fun _ _ _ hr _ hstep => ?_) h).2
  exact log_prefix (.reachable (tx_reachable_of_harmless
    (harmless_of_orderly (orderly_of_smooth (smooth_of_calm hr))))) hstep

/-- Such a leg is then counted, or the receiver ends. -/
theorem exists_prbsLeg (hW : W ≤ kthreadmax) (hbuf : Millipacket.sizeof ≤ cfg.sockbuf.toNat)
    (hseed : cfg.tx.gprbsSeed > 0) (hlimit : cfg.tx.glegLimit = 0)
    (hs : Reachable (sessionMachine cfg W) Calm s) {w : Fin W} (hpc : s.tx.ingest.pc = .fill w)
    (hstart : ∀ i, (s.tx.workers i).pc.starting = false) :
    ∃ t, Reachable (sessionMachine cfg W) Calm t ∧ (∃ d ∈ t.tx.log, d.packet.IsFeed) ∧
      (t.rx.exited ≠ none ∨ t.rx.advances = t.tx.log.length) := by
  have halive := txAlive_of_untroubled (untroubled_of_calm hs)
  obtain ⟨u,hu,d,hd,hfeed⟩ := exec_prbsLeg halive hpc hseed hlimit
  obtain ⟨v,hleads,rfl⟩ := leads_of_ingestSteps hstart hu
  have hv := hs.leads (hleads.mono fun _ _ ha => ha.1)
  obtain ⟨t,hmore,hends⟩ := exists_ended_or_counted hW hbuf hv
  exact ⟨t,hv.leads hmore,⟨d,(log_prefix_of_leads hv hmore).subset hd,hfeed⟩,hends⟩

namespace Session.AtRest

variable (hrest : s.AtRest cfg) (hbuf : Millipacket.sizeof ≤ cfg.sockbuf.toNat)
  (hu : Undisturbed cfg s) (hended : s.tx.ended = false)
include hrest

theorem starting (i : Fin W) : (s.tx.workers i).pc.starting = false := by
  have hworker := hrest.worker i
  cases hpc : (s.tx.workers i).pc <;> simp [TxWorker.AtRest,WorkerPc.starting,hpc] at hworker ⊢

include hu hended

theorem not_done : s.tx.done = false := by
  by_contra hset
  have hdone : s.tx.done = true := by simpa using hset
  have hfound : s.tx.ingest.pc.found.isSome = true := by
    simpa [TxState.ended,hdone] using hended
  obtain ⟨w,hw⟩ := Option.isSome_iff_exists.mp hfound
  exact (hu.shutting hw hdone).ne' hrest.ingest

include hbuf

/-- Until the end of the stream is handed over, each worker at rest is idle. -/
theorem idle (i : Fin W) : (s.tx.workers i).state = .idle := by
  have hdone : s.rx.doneMbox = false := by
    by_contra hset
    have := (hu.order.done (by simpa using hset)).1
    simp [hended] at this
  have hworker := hrest.worker i
  have hcontrol := hu.control.worker i
  obtain ⟨-,hprog,hholds⟩ := hrest.clear hbuf hu i
  cases hpc : (s.tx.workers i).pc <;> simp only [TxWorker.AtRest,WorkerControl,hpc] at hworker hcontrol
  case connecting recover =>
    -- its receive worker accepts, unless another one sleeps
    have hearly := (hu.met.early hdone i).1
    rw [hpc] at hearly
    have hrx := hrest.rxWorker i
    cases hpc' : (s.rx.workers i).pc <;>
      simp [RxPc.early,WorkerPc.early,RxPc.atRest,hpc'] at hearly hrx
    · obtain ⟨j,hj⟩ := hrest.start i hpc'
      have hclear := (hrest.clear hbuf hu j).2.2
      simp [RxWorker.holds,RxPc.holding,hj,(hu.opened j).2] at hclear
    · exact absurd hpc' (hrest.apart i recover hpc)
  case writev pos => simp [TxWorker.progress,hpc] at hprog
  case loop => exact hworker
  case gone =>
    have hleft := hu.shutdown.seen i hcontrol.2
    simp [hrest.not_done hu hended] at hleft

/-- The ingest thread then comes closer to its end without a fill, by a step of its own or with
the whole of `dispatch_idle_worker`. -/
theorem advance_feedless (h0 : 0 < W) (hfill : ∀ w, s.tx.ingest.pc ≠ .fill w) :
    ∃ t, (sessionMachine cfg W).Leads Feedless s t ∧ t.tx.toEnd < s.tx.toEnd := by
  have hstart := hrest.starting
  have htoEnd : s.tx.toEnd = s.tx.ingest.pc.toEnd := by simp [TxState.toEnd,hended]
  have hstep {u : TxState W} (h : ingestStep cfg.tx s.tx = some u) :
      txStep cfg.tx s.tx .ingest = some u := by simpa [txStep,hu.txAlive] using h
  by_cases halone : 9 < s.tx.ingest.pc.toEnd ∨ ∃ w, s.tx.ingest.pc = .shutLock w
  · obtain ⟨u,h,hlt⟩ := exists_ingestStep cfg.tx hrest.mutex halone
    exact ⟨s.withTx u,.single (next_of_ingest hstart (hstep h)),u.toEnd_le.trans_lt (htoEnd ▸ hlt)⟩
  · have hleft := hrest.ingest
    have hflags := (TxLog.reachable hu.tx).flags
    have hdone := hrest.not_done hu hended
    cases hpc : s.tx.ingest.pc <;>
      simp [IngestPc.toEnd,IngestPc.left,IngestPc.Flags,hpc,hdone] at halone hleft hflags hfill
    case scanLock =>
      -- the first worker is idle, so that the scan ends at once
      let first : Fin W := ⟨0,h0⟩
      let locked : TxState W := { s.tx.goto (.scan 0) with mutex := some .ingest }
      let found : TxState W := locked.goto (.scanUnlock (some first))
      let chosen : TxState W := { found.goto (.fill first) with mutex := none }
      have hlock : txStep cfg.tx s.tx .ingest = some locked :=
        hstep (by simp only [ingestStep,hpc,hrest.mutex,if_true]; rfl)
      have hfind : txStep cfg.tx locked .ingest = some found := by
        have hidle : (locked.workers first).state = .idle := hrest.idle hbuf hu hended first
        simp only [txStep,show locked.exited = none from hu.txAlive,Option.isSome_none,
          Bool.false_eq_true,if_false,ingestStep,show locked.ingest.pc = .scan 0 from rfl]
        rw [dif_pos h0,if_pos hidle]
      have hchoose : txStep cfg.tx found .ingest = some chosen := by
        simp only [txStep,show found.exited = none from hu.txAlive,Option.isSome_none,
          Bool.false_eq_true,if_false,ingestStep,
          show found.ingest.pc = .scanUnlock (some first) from rfl]
        rfl
      refine ⟨((s.withTx locked).withTx found).withTx chosen,?_,
        chosen.toEnd_le.trans_lt (by rw [htoEnd,hpc]; exact Nat.lt_succ_self 8)⟩
      exact .tail (.tail (.single (next_of_ingest hstart hlock)) (next_of_ingest hstart hfind))
        (next_of_ingest hstart hchoose)

/-- And at a fill, which may be empty. -/
theorem advance (h0 : 0 < W) (hseed : cfg.tx.gprbsSeed = 0) :
    ∃ t, (sessionMachine cfg W).Leads Calm s t ∧ t.tx.toEnd < s.tx.toEnd := by
  by_cases hfill : ∀ w, s.tx.ingest.pc ≠ .fill w
  · obtain ⟨t,hleads,hlt⟩ := hrest.advance_feedless hbuf hu hended h0 hfill
    exact ⟨t,hleads.mono fun _ _ ha => ha.1,hlt⟩
  · simp only [not_forall,not_not] at hfill
    obtain ⟨w,hpc⟩ := hfill
    have hstep : txStep cfg.tx s.tx (.fill noBytes) = some (ingestFilled cfg.tx (s.tx.setWorker w
        { s.tx.workers w with buffer := (s.tx.workers w).buffer.store 0 noBytes.val }) w noBytes) := by
      simp [txStep,hu.txAlive,hpc,hseed]
    refine ⟨_,.single ⟨_,calm_of_ingest hrest.starting (.inr ⟨noBytes,rfl⟩),
      sessionStep_of_ingest (.inr ⟨noBytes,rfl⟩) hstep⟩,(ingestFilled_toEnd _ _ _ _).trans_lt ?_⟩
    simp [TxState.toEnd,hended,hpc,IngestPc.toEnd,noBytes]

end Session.AtRest

section Finish

variable (h0 : 0 < W) (hW : W ≤ kthreadmax) (hcfg : cfg.Agreed) (hseed : cfg.tx.gprbsSeed = 0)
  (hbuf : Millipacket.sizeof ≤ cfg.sockbuf.toNat)
include hW hcfg

/-- Whatever is at hand can be finished, which takes nobody farther from the end. -/
theorem exists_settled (hs : Reachable (sessionMachine cfg W) Calm s) :
    ∃ t, (sessionMachine cfg W).Leads Settling s t ∧ (sessionMachine cfg W).Rests Settling t ∧
      t.tx.toEnd ≤ s.tx.toEnd := by
  obtain ⟨t,hleads,hrests⟩ := hs.exists_rests (fun _ _ (ha : Settling _ _) => ha.1) Session.left
    fun _ _ _ hr ha hstep => left_lt_of_settling hW hcfg hr ha hstep
  have hkeeps := hs.keeps (r := fun s t => t.tx.toEnd ≤ s.tx.toEnd)
    (fun _ _ (ha : Settling _ _) => ha.1) (fun _ => le_rfl) (fun _ _ _ hst htu => htu.trans hst)
    (fun _ _ _ hr ha hstep => settling_toEnd
      (TxLog.reachable (undisturbed_of_calm hW hcfg hr).tx) ha.2 hstep) hleads
  exact ⟨t,hleads,hrests,hkeeps.2⟩

include hbuf

/-- Once the end of the stream is handed over, it can be written, which sets `done_mbox`. -/
theorem exists_done_of_ended (hs : Reachable (sessionMachine cfg W) Calm s)
    (hend : s.tx.toEnd = 0) :
    ∃ t, (sessionMachine cfg W).Leads Settling s t ∧ (sessionMachine cfg W).Rests Settling t ∧
      t.rx.doneMbox = true := by
  obtain ⟨t,hleads,hrests,hle⟩ := exists_settled hW hcfg hs
  have hu := undisturbed_of_calm hW hcfg (hs.leads (hleads.mono fun _ _ ha => ha.1))
  have hended : t.tx.ended = true := by
    by_contra hnot
    have hpos : 0 < t.tx.toEnd := by
      rw [TxState.toEnd,if_neg hnot]
      cases t.tx.ingest.pc <;> exact Nat.succ_pos _
    omega
  obtain ⟨feeds,e,hlog,-,hlast⟩ := (TxLog.reachable hu.tx).last hended
  refine ⟨t,hleads,hrests,doneMbox_of_counted hW hu.harmless (k := feeds.length) (d := e)
    ?_ (by simp [hlog]) hlast⟩
  rw [(atRest_of_rests hu hrests).advances_eq hbuf hu,hlog]
  simp

include h0 hseed

/-- The end of the stream can be handed over. -/
theorem exists_ended (hs : Reachable (sessionMachine cfg W) Calm s) :
    ∃ t, (sessionMachine cfg W).Leads Calm s t ∧ t.tx.toEnd = 0 := by
  refine hs.exists_leads (fun _ _ h => h) (fun s => s.tx.toEnd) fun s hr hshort => ?_
  obtain ⟨t,hleads,hrests,hle⟩ := exists_settled hW hcfg hr
  have hcalm := hleads.mono fun _ _ ha => ha.1
  by_cases hzero : t.tx.toEnd = 0
  · exact ⟨t,hcalm,by omega⟩
  · have hu := undisturbed_of_calm hW hcfg (hr.leads hcalm)
    have hended : t.tx.ended = false := by
      by_contra hset
      exact hzero (by simp [TxState.toEnd,hset])
    obtain ⟨u,hmore,hlt⟩ := (atRest_of_rests hu hrests).advance hbuf hu hended h0 hseed
    exact ⟨u,hcalm.trans hmore,hlt.trans_le hle⟩

omit h0 hW hcfg hseed hbuf

variable (cfg) in
/-- The main thread is told by `rx_poll`. -/
theorem exists_told (hlive : s.rx.exited = none) (hfree : s.rx.rxmutex = none)
    (hpoll : s.rx.poll.left = 0) (hstart : ∀ i, (s.tx.workers i).pc.starting = false)
    (hdone : s.rx.doneMbox = true) :
    ∃ t, (sessionMachine cfg W).Leads Calm s t ∧ t.tx = s.tx ∧ t.rx.poll = .returned true := by
  have hnext {s : Session W} {rx : RxState W} (hlive : s.rx.exited = none)
      (hstart : ∀ i, (s.tx.workers i).pc.starting = false) (h : rxPollStep s.rx = some rx) :
      (sessionMachine cfg W).Next Calm s { s with rx := rx } := by
    refine ⟨.rx .poll,calm_of_others ⟨rfl,rfl,rfl⟩ hstart (by simp),?_⟩
    simp [sessionMachine,sessionStep,Session.rxMay,rxStep,hlive,h]
  have hlocked {s : Session W} (hlive : s.rx.exited = none) (hfree : s.rx.rxmutex = none)
      (hstart : ∀ i, (s.tx.workers i).pc.starting = false) (hdone : s.rx.doneMbox = true)
      (hpoll : s.rx.poll = .lock) :
      ∃ t, (sessionMachine cfg W).Leads Calm s t ∧ t.tx = s.tx ∧ t.rx.poll = .returned true := by
    let locked : Session W := { s with rx := { s.rx with poll := .read, rxmutex := some .main } }
    let read : Session W := { locked with rx := { locked.rx with poll := .unlock true } }
    let told : Session W := { read with rx := { read.rx with poll := .returned true, rxmutex := none } }
    have hlock : (sessionMachine cfg W).Next Calm s locked :=
      hnext hlive hstart (by simp [rxPollStep,hpoll,hfree])
    have hread : (sessionMachine cfg W).Next Calm locked read :=
      hnext hlive hstart (by simp [rxPollStep,locked,hdone])
    have htell : (sessionMachine cfg W).Next Calm read told :=
      hnext hlive hstart (by simp [rxPollStep,read])
    exact ⟨told,.tail (.tail (.single hlock) hread) htell,rfl,rfl⟩
  cases hpc : s.rx.poll with
  | lock => exact hlocked hlive hfree hstart hdone hpc
  | returned done =>
    obtain ⟨t,hleads,ht⟩ := hlocked (s := { s with rx := { s.rx with poll := .lock } })
      hlive hfree hstart hdone rfl
    exact ⟨t,.head (hnext hlive hstart (by simp [rxPollStep,hpc])) hleads,ht⟩
  | read | unlock => simp [RxPollPc.left,hpc] at hpoll

end Finish

/-- What has been handed over in `s` and whatever follows it is written in `t`, and `rx_poll`
has said so. -/
structure Finished (cfg : SessionConfig) (s t : Session W) : Prop where
  log : s.tx.log <+: t.tx.log
  ended : t.tx.ended = true
  output : t.rx.output = payloads (t.sent cfg)
  told : t.rx.poll = .returned true

/-- From wherever the threads have come, the session can be finished: neither the mutexes, nor
the condition variable, nor full socket buffers, nor the order of the legs ever keep the stream
from being written to its end. -/
theorem finished_of_calm (h0 : 0 < W) (hW : W ≤ kthreadmax) (hcfg : cfg.Agreed)
    (hseed : cfg.tx.gprbsSeed = 0) (hbuf : Millipacket.sizeof ≤ cfg.sockbuf.toNat)
    (hs : Reachable (sessionMachine cfg W) Calm s) :
    ∃ t, (sessionMachine cfg W).Leads Calm s t ∧ Finished cfg s t := by
  obtain ⟨v,hfirst,hend⟩ := exists_ended h0 hW hcfg hseed hbuf hs
  obtain ⟨u,hsecond,hrests,hdone⟩ := exists_done_of_ended hW hcfg hbuf (hs.leads hfirst) hend
  have hleads := hfirst.trans (hsecond.mono fun _ _ ha => ha.1)
  have hu := undisturbed_of_calm hW hcfg (hs.leads hleads)
  have hrest := atRest_of_rests hu hrests
  obtain ⟨t,hmore,-,htold⟩ := exists_told cfg hu.rxAlive hrest.rxmutex hrest.poll
    hrest.starting hdone
  have hall := hleads.trans hmore
  have horder := inOrder_of_orderly hW (orderly_of_smooth (smooth_of_calm (hs.leads hall)))
  obtain ⟨hended,houtput⟩ := horder.done (horder.told htold)
  exact ⟨t,hall,log_prefix_of_leads hs hall,hended,houtput,htold⟩

/-- Two workers, of which one has written half a header, and the other has not begun. -/
def halfwayRun : List (SessionAction 2) :=
  .flatten [meet 0,txRun (ingestSteps 6),txRun [.fill (oneByte 7)],txRun (ingestSteps 5),
    txRun (workerSteps 0 9),txRun [.worker 0 (.accept 20)]]

theorem finished_twoWorkers :
    ∃ s ∈ exec (sessionMachine ⟨.plain,.plain,100⟩ 2) Calm (sessionInit 2) halfwayRun,
      (s.tx.workers 0).pc = .writev 20 ∧ (s.tx.workers 1).pc = .start ∧ s.rx.output = [] ∧
        ∃ t, (sessionMachine ⟨.plain,.plain,100⟩ 2).Leads Calm s t ∧
          Finished ⟨.plain,.plain,100⟩ s t := by
  have hrun : ∃ s ∈ exec (sessionMachine ⟨.plain,.plain,100⟩ 2) Calm (sessionInit 2) halfwayRun,
      (s.tx.workers 0).pc = .writev 20 ∧ (s.tx.workers 1).pc = .start ∧ s.rx.output = [] := by
    decide +kernel
  obtain ⟨s,hs,hfirst,hsecond,houtput⟩ := hrun
  exact ⟨s,hs,hfirst,hsecond,houtput,finished_of_calm (by decide) (by decide)
    ⟨rfl,rfl,by decide⟩ rfl (by decide) (reachable_exec (.init rfl) hs)⟩

end Viamillipede
