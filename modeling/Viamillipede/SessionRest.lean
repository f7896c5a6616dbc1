import Viamillipede.SessionRank
import Viamillipede.SessionQueue

/-! Where a session rests when no work is at hand.

Nobody holds a lock, each thread is at a call that waits for the other side, and all legs
that were handed over are written: the threads do not block each other. -/
namespace Viamillipede

open Bytes Transition

section Receiver

variable {n : ℕ} {cfg : RxConfig}

/-- A `writev` that has not returned has some of its bytes left, or has yet to begin. -/
def Unreturned (s : RxState n) : Prop :=
  ∀ i pos, (s.workers i).pc = .write pos → pos = 0 ∨ pos < (s.workers i).packet.payload.length

namespace Unreturned

theorem of_update {s t : RxState n} {i : Fin n} {w : RxWorker} (hs : Unreturned s)
    (hworkers : t.workers = Function.update s.workers i w)
    (hw : ∀ pos, w.pc = .write pos → pos = 0 ∨ pos < w.packet.payload.length) : Unreturned t := by
  intro j
  rw [hworkers]
  rcases eq_or_ne j i with rfl | hne
  · rwa [Function.update_self]
  · rw [Function.update_of_ne hne]; exact hs j

theorem move {s t : RxState n} (hs : Unreturned s) (h : RxMove cfg s t) : Unreturned t := by
  cases h with
  | ended e => exact hs
  | fetch i w hfetch =>
    refine hs.of_update rfl fun pos hw => ?_
    rcases hfetch.pc.2 with hpc | hpc | hpc <;> rw [hw] at hpc <;> cases hpc
  | acquire i pc _ hpc | release i pc hpc =>
    refine hs.of_update rfl fun pos hw => ?_
    simp only [List.mem_cons,Prod.mk.injEq,List.not_mem_nil,or_false] at hpc
    simp only at hw
    simp [hw] at hpc
  | opcode i pc sum hpc hto =>
    refine hs.of_update rfl fun pos hw => ?_
    rcases hto with ⟨rfl,_⟩ | ⟨rfl,_⟩ <;> cases hw
  | enter i hpc => exact hs.of_update rfl fun pos hw => by cases hw; exact .inl rfl
  | writeSome i pos count hpc hlt => exact hs.of_update rfl fun _ hw => by cases hw; exact .inr hlt
  | pass i hpc | block i hpc | sleep i hpc | wake i hpc | restart i hpc | writeAll i _ _ hpc
  | done i hpc | advance i hpc => exact hs.of_update rfl fun _ hw => by cases hw
  | broadcast i hpc =>
    have hgo : Unreturned (s.goto i .inner) := hs.of_update rfl fun _ hw => by cases hw
    intro j pos hj
    obtain ⟨-,hw⟩ | ⟨-,hw⟩ := (s.goto i .inner).awaken_cases j <;> rw [hw] at hj ⊢
    · cases hj
    · exact hgo j pos hj
  | poll t h =>
    obtain ⟨p,m,rfl⟩ := rxPollStep_eq h
    exact hs

theorem reachable {ok : RxState n → RxAction n → Prop} {s : RxState n}
    (hs : Reachable (rxMachine cfg n) ok s) : Unreturned s :=
  hs.invariant (by rintro s rfl; exact nofun) fun _ _ _ _ h _ hstep => h.move (rxStep_cases hstep)

end Unreturned

end Receiver

variable {W : ℕ} {cfg : SessionConfig} {s : Session W}

/-- A connection that has the leg that `next_leg` waits for has it before all others. -/
theorem SessionOrder.next (hs : SessionOrder cfg s) {d : Dispatch W}
    (hd : s.tx.log[s.rx.advances]? = some d) {legs : List Packet} {part lost unsent : List UInt8}
    (h : OnConnection cfg s d.worker legs part lost unsent) :
    ∃ rest, (s.rx.workers d.worker).current ++ legs = cfg.tx.pushed d.packet :: rest := by
  obtain ⟨hlt,rfl⟩ := List.getElem?_eq_some_iff.mp hd
  have hahead := hs.ahead h
  rw [List.drop_eq_getElem_cons hlt,Lanes.lane,List.filter_cons_of_pos (by simp)] at hahead
  exact ⟨_,hahead.symm⟩

/-- The transmit worker waits: for its connection, for a packet, or for its socket. -/
def TxWorker.AtRest (w : TxWorker) : Prop :=
  match w.pc with
  | .connecting _ | .writev _ | .gone => True
  | .loop => w.state = .idle
  | _ => False

/-- The receive worker waits: for the others, for its connection, or for its next bytes. -/
def RxPc.atRest : RxPc → Bool
  | .start | .accept | .header | .payload | .asleep | .gone => true
  | _ => false

/-- Nothing is left to do, and why. -/
structure Session.AtRest (cfg : SessionConfig) (s : Session W) : Prop where
  mutex : s.tx.mutex = none
  ingest : s.tx.ingest.pc.left 0 = 0
  worker : ∀ i, (s.tx.workers i).AtRest
  full : ∀ i pos, (s.tx.workers i).pc = .writev pos → cfg.sockbuf.toNat ≤ (s.conn i).length
  rxmutex : s.rx.rxmutex = none
  rxWorker : ∀ i, (s.rx.workers i).pc.atRest = true
  start : ∀ i, (s.rx.workers i).pc = .start → ∃ j, (s.rx.workers j).pc = .asleep
  apart : ∀ i recover, (s.tx.workers i).pc = .connecting recover → (s.rx.workers i).pc ≠ .accept
  header : ∀ i, (s.rx.workers i).pc = .header → (s.conn i).length < Millipacket.sizeof
  payload : ∀ i, (s.rx.workers i).pc = .payload → s.conn i = []
  poll : s.rx.poll.left = 0

/-- What is known of a session that nothing disturbs. -/
structure Undisturbed (cfg : SessionConfig) (s : Session W) : Prop where
  harmless : Reachable (sessionMachine cfg W) Harmless s
  tx : Reachable (txMachine cfg.tx W) Unclobbered s.tx
  control : TxControl s.tx
  txAlive : s.tx.exited = none
  rxAlive : s.rx.exited = none
  opened : Undropped s
  met : Met s
  order : SessionOrder cfg s
  oneStarting : OneStarting s.tx
  shutdown : TxShutdown s.tx

theorem undisturbed_of_alive (hW : W ≤ kthreadmax)
    (hs : Reachable (sessionMachine cfg W) Calm s) (halive : s.rx.exited = none) :
    Undisturbed cfg s := by
  have hsmooth := smooth_of_calm hs
  have horderly := orderly_of_smooth hsmooth
  have hharmless := harmless_of_orderly horderly
  have htx := tx_reachable_of_harmless hharmless
  have hmarked : Reachable (txMachine cfg.tx W) MarkedInTime s.tx :=
    Session.tx_reachable (fun _ _ _ h => by cases h) (fun _ _ ha => ha.2.2 _ rfl) hs
  exact ⟨hharmless,htx,.reachable htx,txAlive_of_untroubled (untroubled_of_calm hs),halive,
    Undropped.reachable (fun _ _ ha => ha.1) hsmooth,.of_alive horderly halive,
    .reachable hW hharmless,oneStarting_of_smooth hsmooth,.reachable hmarked⟩

theorem undisturbed_of_calm (hW : W ≤ kthreadmax) (hcfg : cfg.Agreed)
    (hs : Reachable (sessionMachine cfg W) Calm s) : Undisturbed cfg s :=
  undisturbed_of_alive hW hs
    (rxAlive_of_orderly hW hcfg (orderly_of_smooth (smooth_of_calm hs)))

namespace Undisturbed

/-- The ingest thread is between the lock and the mark of `txshutdown` when it has found a
worker and `done` is set. -/
theorem shutting (h : Undisturbed cfg s) {w : Fin W} (hfound : s.tx.ingest.pc.found = some w)
    (hdone : s.tx.done = true) : 0 < s.tx.ingest.pc.left 0 := by
  have hflags := (TxLog.reachable h.tx).flags
  cases hpc : s.tx.ingest.pc <;>
    simp_all [IngestPc.found,IngestPc.Flags,IngestPc.left]

/-- Who was handed a leg has a connection at both ends. -/
theorem not_early (h : Undisturbed cfg s) (hdone : s.rx.doneMbox = false) {d : Dispatch W}
    (hd : d ∈ s.tx.log) : (s.rx.workers d.worker).pc.early = false := by
  by_contra hearly
  rw [(h.met.early hdone d.worker).1] at hearly
  have hjoined : (s.tx.workers d.worker).pc.joined = false := by
    cases hpc : (s.tx.workers d.worker).pc <;>
      simp [WorkerPc.early,WorkerPc.joined,hpc] at hearly ⊢
  have hlane := lane_of_not_joined h.tx hjoined
  rw [TxState.lane,List.map_eq_nil_iff] at hlane
  have hmem : d ∈ Lanes.lane Dispatch.worker d.worker s.tx.log := Lanes.mem_lane.mpr ⟨hd,rfl⟩
  simp [hlane] at hmem

end Undisturbed

section Rests

variable (hu : Undisturbed cfg s) (hrests : (sessionMachine cfg W).Rests Settling s)
include hrests

/-- A step of work at hand that is permitted is not possible. -/
theorem blocked {a : SessionAction W} (hfailure : NoFailure a) (hwhole : WholeStart s a)
    (hmark : ∀ b ∈ a.txAction, MarkedInTime s.tx b) (hsettles : s.settles a = true) :
    sessionStep cfg s a = none :=
  Option.eq_none_iff_forall_ne_some.mpr fun t =>
    hrests a t ⟨⟨⟨hfailure,hwhole⟩,uninterrupted_of_settles hsettles,hmark⟩,hsettles⟩

include hu

/-- The same for a transmit worker by itself. -/
theorem run_blocked {i : Fin W} (hwhole : WholeStart s (.tx (.worker i .run)))
    (hmark : MarkedInTime s.tx (.worker i .run)) (hleft : 0 < (s.tx.workers i).left) :
    workerRun cfg.tx i s.tx.mutex s.tx.done (s.tx.workers i) = none := by
  have hnone := blocked hrests (a := .tx (.worker i .run)) ⟨rfl,rfl,rfl⟩ hwhole
    (fun b hb => by cases hb; exact hmark) (decide_eq_true hleft)
  simpa [sessionStep,Session.txMay,txStep,hu.txAlive,workerStep] using hnone

/-- Nobody is at the end of a start-up. -/
theorem no_starting (i : Fin W) : (s.tx.workers i).pc.starting = false := by
  by_contra hnot
  have hstart : (s.tx.workers i).pc.starting = true := by simpa using hnot
  have hwhole : WholeStart s (.tx (.worker i .run)) := fun j hj => by
    rw [hu.oneStarting j i hj hstart]
  have hnone := run_blocked hu hrests hwhole
  cases hpc : (s.tx.workers i).pc <;> simp only [WorkerPc.starting,hpc,reduceCtorEq] at hstart
  all_goals
    refine absurd (hnone (fun j hj hsample => ?_) ?_) ?_
    · cases hj; simp [hpc] at hsample
    · simp [TxWorker.left,hpc]
    · simp [workerRun,hpc]

theorem whole (a : SessionAction W) : WholeStart s a := fun i hi => by
  simp [no_starting hu hrests i] at hi

theorem ingest_blocked (hleft : 0 < s.tx.ingest.pc.left 0) : ingestStep cfg.tx s.tx = none := by
  have hnone := blocked hrests (a := .tx .ingest) ⟨rfl,rfl,rfl⟩ (whole hu hrests _)
    (fun b hb => by cases hb; intro _ h; cases h) (decide_eq_true hleft)
  simpa [sessionStep,Session.txMay,txStep,hu.txAlive] using hnone

theorem rx_blocked {a : RxAction W} (hmay : s.rxMay a = true)
    (hfailure : NoFailure (.rx a : SessionAction W)) (hsettles : s.settles (.rx a) = true) :
    rxStep cfg.rx s.rx a = none := by
  have hnone := blocked hrests (a := .rx a) hfailure (whole hu hrests _)
    (fun b hb => by cases hb) hsettles
  simpa [sessionStep,hmay] using hnone

theorem rxRun_blocked (i : Fin W) : rxRun s.rx i = none := by
  have hnone := rx_blocked hu hrests (a := .run i) rfl ⟨rfl,rfl,rfl⟩ rfl
  simpa [rxStep,hu.rxAlive] using hnone

/-- The step that a worker with `done` must not take before it is marked is not taken, but
then it is the ingest thread's turn. -/
theorem ingest_idle : s.tx.ingest.pc.left 0 = 0 := by
  by_contra hleft
  have hnone := ingest_blocked hu hrests (Nat.pos_of_ne_zero hleft)
  cases hpc : s.tx.ingest.pc with
  | scan cursor =>
    simp only [ingestStep,hpc] at hnone
    split_ifs at hnone
  | scanUnlock found => cases found <;> simp [ingestStep,hpc] at hnone
  | _ => simp [IngestPc.left,ingestStep,hpc] at hleft hnone

theorem markedInTime (i : Fin W) : MarkedInTime s.tx (.worker i .run) := by
  intro j _ _ hdone hfound
  exact (hu.shutting hfound (hu.shutdown.seen j hdone)).ne' (ingest_idle hu hrests)

theorem mutex_free : s.tx.mutex = none := by
  by_contra hheld
  obtain ⟨t,ht⟩ := Option.ne_none_iff_exists'.mp hheld
  have hinside := (guards_tx hu.tx t).mp ht
  obtain ⟨u,hstep⟩ := txStep_inside cfg.tx hu.txAlive hinside
  simp only [TxThread.action,txStep,hu.txAlive,Option.isSome_none,Bool.false_eq_true,
    if_false] at hstep
  cases t with
  | ingest =>
    have hidle := ingest_idle hu hrests
    simp only [TxState.inside] at hinside
    cases hpc : s.tx.ingest.pc <;> simp [IngestPc.locked,IngestPc.left,hpc] at hinside hidle
  | worker i =>
    obtain ⟨m,hm,-⟩ := Option.map_eq_some_iff.mp hstep
    rw [workerStep,run_blocked hu hrests (whole hu hrests _) (markedInTime hu hrests i)] at hm
    · cases hm
    · have hcontrol := hu.control.worker i
      simp only [TxState.inside] at hinside
      cases hpc : (s.tx.workers i).pc <;>
        simp [WorkerPc.locked,WorkerControl,hpc] at hinside hcontrol
      all_goals
        simp only [TxWorker.left,hpc]
        repeat' split
        all_goals exact Nat.succ_pos _

theorem worker_atRest (i : Fin W) : (s.tx.workers i).AtRest := by
  have hrun := run_blocked hu hrests (whole hu hrests _) (markedInTime hu hrests i)
  have hfree := mutex_free hu hrests
  have hcontrol := hu.control.worker i
  have hmet := hu.met.faulted i
  have hout : (s.tx.workers i).pc.locked = false := (guards_tx hu.tx).outside_of_free hfree (.worker i)
  rw [hfree] at hrun
  cases hpc : (s.tx.workers i).pc with
  | connecting | writev | gone => simp [TxWorker.AtRest,hpc]
  | loop =>
    simp only [WorkerControl,hpc] at hcontrol
    rcases hcontrol with hidle | hdispatched
    · simpa [TxWorker.AtRest,hpc] using hidle
    · simp only [TxWorker.left,workerRun,hpc,hdispatched,if_true] at hrun
      split at hrun <;> cases hrun (Nat.succ_pos _)
  | faulted => exact absurd hpc hmet
  | recover | markDead => simp [WorkerControl,hpc] at hcontrol
  | sampleDone | sampleState | unlock | zeroLease | release | unlease =>
    simp [WorkerPc.locked,hpc] at hout
  | remainder =>
    simp only [TxWorker.left,workerRun,hpc] at hrun
    split at hrun <;> cases hrun (Nat.succ_pos _)
  | lease =>
    simp only [TxWorker.left,workerRun,hpc,if_true] at hrun
    cases hrun (Nat.succ_pos _)
  | _ =>
    simp only [TxWorker.left,workerRun,hpc] at hrun
    cases hrun (Nat.succ_pos _)

/-- A worker waits in `writev` only when its socket has no room. -/
theorem writev_full {i : Fin W} {pos : ℕ} (hpc : (s.tx.workers i).pc = .writev pos) :
    cfg.sockbuf.toNat ≤ (s.conn i).length := by
  by_contra hroom
  have hmay : s.txMay cfg (.worker i (.accept 1)) = true := by
    simp [Session.txMay,(hu.opened i).1]
    omega
  have hnone := blocked hrests (a := .tx (.worker i (.accept 1))) ⟨rfl,rfl,rfl⟩ (whole hu hrests _)
    (fun b hb => by cases hb; intro _ h; cases h) rfl
  simp only [sessionStep,hmay,if_true,txStep,hu.txAlive,Option.isSome_none,Bool.false_eq_true,
    if_false,Option.map_eq_none_iff,workerStep,hpc] at hnone
  have hpushes := (TxHandover.reachable (fun _ _ h => h) hu.tx).pushes i
  simp only [TxWorker.Pushes,TxWorker.progress,hpc] at hpushes
  obtain ⟨_,p,-,hload,hlt,-⟩ := hpushes
  have hbody := hload.body
  simp only [hpc] at hbody
  have hlen : ¬ ((1 : ℕ) = 0 ∨ (s.tx.workers i).gathered.length < pos+1) := by
    rw [TxWorker.gathered_length,hbody.2.2]
    rw [Packet.frame_length,TxConfig.pushed_length] at hlt
    omega
  rw [if_neg hlen] at hnone
  split at hnone <;> cases hnone

theorem rxmutex_free : s.rx.rxmutex = none := by
  by_contra hheld
  obtain ⟨t,ht⟩ := Option.ne_none_iff_exists'.mp hheld
  have hinside := (guards_rx (Session.rx_reachable hu.harmless) t).mp ht
  obtain ⟨u,hstep⟩ := rxStep_inside cfg.rx hu.rxAlive hinside
  cases t with
  | main =>
    have hleft : s.settles (.rx .poll) = true := by
      simp only [RxState.inside] at hinside
      cases hpoll : s.rx.poll <;>
        simp [RxPollPc.critical,Session.settles,RxPollPc.left,hpoll] at hinside ⊢
    rw [RxThread.action,rx_blocked hu hrests rfl ⟨rfl,rfl,rfl⟩ hleft] at hstep
    cases hstep
  | worker i =>
    rw [RxThread.action,rx_blocked hu hrests rfl ⟨rfl,rfl,rfl⟩ rfl] at hstep
    cases hstep

theorem rxWorker_atRest (i : Fin W) : (s.rx.workers i).pc.atRest = true := by
  have hrun := rxRun_blocked hu hrests i
  have hfree := rxmutex_free hu hrests
  cases hpc : (s.rx.workers i).pc with
  | write pos =>
    -- the rest of the payload fits into one more call
    let count := (s.rx.workers i).packet.payload.length-pos
    have hrest := Unreturned.reachable (Session.rx_reachable hu.harmless) i pos hpc
    have hall : pos+count = (s.rx.workers i).packet.payload.length := by omega
    have hnone := rx_blocked hu hrests (a := .write i count) rfl ⟨rfl,rfl,rfl⟩ rfl
    simp only [rxStep,hu.rxAlive,Option.isSome_none,Bool.false_eq_true,if_false,rxWrite,hpc,hall,
      lt_irrefl,false_or] at hnone
    split at hnone
    · omega
    · cases hnone
  | lock | relock | doneLock | advLock => simp [rxRun,hpc,hfree] at hrun
  | outer =>
    simp only [rxRun,hpc] at hrun
    split at hrun <;> cases hrun
  | _ => first | rfl | simp [rxRun,hpc] at hrun

theorem readv_short {i : Fin W} (hpc : (s.rx.workers i).pc = .header) :
    (s.conn i).length < Millipacket.sizeof := by
  by_contra hlong
  have hle : Millipacket.sizeof ≤ (s.conn i).length := not_lt.mp hlong
  have hmay : s.MayRead i Millipacket.sizeof := .inl ⟨by decide,hle⟩
  have hnone := blocked hrests (a := .readv i ⟨0,0,0,0,0⟩ Millipacket.sizeof) ⟨rfl,rfl,rfl⟩
    (whole hu hrests _) (fun b hb => by cases hb) rfl
  simp [sessionStep,hmay,rxStep,hu.rxAlive,hpc] at hnone

theorem read_none {i : Fin W} (hpc : (s.rx.workers i).pc = .payload) : s.conn i = [] := by
  by_contra hsome
  obtain ⟨_,_,_,_,hconn⟩ := exists_onConnection hu.harmless i
  have hrem := (hconn.pending.payload hpc).2.1
  have hmay : s.MayRead i 1 := .inl ⟨Nat.one_pos,List.length_pos_iff.mpr hsome⟩
  have hnone := blocked hrests (a := .read i 1) ⟨rfl,rfl,rfl⟩
    (whole hu hrests _) (fun b hb => by cases hb) rfl
  have hlen : ((s.conn i).take 1).length ≤ min (s.rx.workers i).remainder maxbsize :=
    (List.length_take_le 1 _).trans (le_min hrem (by decide))
  rw [sessionStep,if_pos hmay,Option.map_eq_none_iff] at hnone
  simp only [rxStep,hu.rxAlive,Option.isSome_none,Bool.false_eq_true,if_false] at hnone
  rw [if_pos ⟨hpc,hlen⟩] at hnone
  cases hnone

theorem atRest_of_rests : s.AtRest cfg where
  mutex := mutex_free hu hrests
  ingest := ingest_idle hu hrests
  worker := worker_atRest hu hrests
  full _ _ := writev_full hu hrests
  rxmutex := rxmutex_free hu hrests
  rxWorker := rxWorker_atRest hu hrests
  start i hpc := by
    have hrun := rxRun_blocked hu hrests i
    simp only [rxRun,hpc] at hrun
    split at hrun
    · cases hrun
    · rename_i hsleep
      simpa using hsleep
  apart i recover htx hrx := by
    have hcontrol := hu.control.worker i
    simp only [WorkerControl,htx] at hcontrol
    have hnone := blocked hrests (a := .connect i) ⟨rfl,rfl,rfl⟩ (whole hu hrests _)
      (fun b hb => by cases hb) rfl
    simp [sessionStep,txStep,hu.txAlive,workerStep,htx,rxStep,hu.rxAlive,hrx] at hnone
  header _ := readv_short hu hrests
  payload _ := read_none hu hrests
  poll := by
    by_contra hleft
    have hnone := rx_blocked hu hrests (a := .poll) rfl ⟨rfl,rfl,rfl⟩
      (decide_eq_true (Nat.pos_of_ne_zero hleft))
    cases hpoll : s.rx.poll <;> simp [RxPollPc.left,rxStep,hu.rxAlive,rxPollStep,hpoll] at hleft hnone

end Rests

namespace Session.AtRest

variable (hrest : s.AtRest cfg)
include hrest

theorem quiet (i : Fin W) : (s.rx.workers i).pc.stage = .out := by
  have hpc := hrest.rxWorker i
  cases hpc' : (s.rx.workers i).pc <;> simp [RxPc.atRest,RxPc.stage,hpc'] at hpc ⊢

theorem written (hu : Undisturbed cfg s) :
    s.rx.output = payloads s.rx.written ∧ s.rx.written.length = s.rx.advances :=
  hu.order.order.quiet hrest.quiet

/-- A packet is partly written only while the socket has no room for more of it. -/
theorem unsent (hu : Undisturbed cfg s) {i : Fin W} {legs : List Packet}
    {part lost unsent : List UInt8} (h : OnConnection cfg s i legs part lost unsent) :
    unsent = [] ∨ cfg.sockbuf.toNat ≤ (s.conn i).length := by
  have hworker := hrest.worker i
  have hcontrol := hu.control.worker i
  have hunsent := h.unsent
  have hnone (hprog : (s.tx.workers i).progress = none) :
      unsent = [] ∨ cfg.sockbuf.toNat ≤ (s.conn i).length := by
    simp only [TxWorker.Unsent,hprog] at hunsent
    exact .inl hunsent
  cases hpc : (s.tx.workers i).pc <;> simp only [TxWorker.AtRest,WorkerControl,hpc] at hworker hcontrol
  case connecting recover => exact hnone (by simp [TxWorker.progress,hpc,hcontrol.1])
  case writev pos => exact .inr (hrest.full i pos hpc)
  case loop => exact hnone (by simp [TxWorker.progress,hpc,hworker])
  case gone =>
    exact hnone (by simp [TxWorker.progress,hpc,(hu.shutdown.noneAbandoned hu.control i hpc).1])

/-- A worker at rest does not hold the leg that is next: it would sleep on it, and a broadcast
would be coming. -/
theorem not_holding (hu : Undisturbed cfg s) {d : Dispatch W}
    (hd : s.tx.log[s.rx.advances]? = some d) : (s.rx.workers d.worker).holds = false := by
  by_contra hnot
  have hholds : (s.rx.workers d.worker).holds = true := by simpa using hnot
  obtain ⟨legs,part,lost,unsent,h⟩ := exists_onConnection hu.harmless d.worker
  obtain ⟨rest,hnext⟩ := hu.order.next hd h
  rw [RxWorker.current,if_pos hholds,List.singleton_append] at hnext
  have hheader : (s.rx.workers d.worker).pkt = d.packet.header :=
    congrArg Packet.header (List.cons.inj hnext).1
  have hid : (s.rx.workers d.worker).pkt.legId = s.rx.nextLeg := by
    rw [hheader,(TxLog.reachable hu.tx).legId _ d hd,hu.order.order.nextLeg]
  have hsleep : (s.rx.workers d.worker).pc = .asleep := by
    have hpc := hrest.rxWorker d.worker
    cases hpc' : (s.rx.workers d.worker).pc <;>
      simp [RxPc.atRest,RxWorker.holds,RxPc.holding,RxPc.chosen,hpc'] at hpc hholds ⊢
  obtain ⟨j,hj⟩ := (RxWaiting.reachable (Session.rx_reachable hu.harmless)).asleep d.worker hsleep hid
  have hpcj := hrest.rxWorker j
  cases hpc : (s.rx.workers j).pc <;> simp [RxPc.atRest,RxPc.owesBroadcast,hpc] at hpcj hj

/-- All legs that were handed over are counted in `next_leg`. -/
theorem advances_eq (hbuf : Millipacket.sizeof ≤ cfg.sockbuf.toNat) (hu : Undisturbed cfg s) :
    s.rx.advances = s.tx.log.length := by
  by_contra hne
  obtain ⟨d,hd⟩ : ∃ d, s.tx.log[s.rx.advances]? = some d :=
    ⟨_,List.getElem?_eq_getElem (lt_of_le_of_ne hu.order.advances_le hne)⟩
  have hdone : s.rx.doneMbox = false := by
    by_contra hset
    exact hne ((hrest.written hu).2.symm.trans (hu.order.done (by simpa using hset)).2)
  obtain ⟨legs,part,lost,unsent,h⟩ := exists_onConnection hu.harmless d.worker
  obtain rfl : lost = [] := h.opened (hu.opened d.worker).1
  have hholds := hrest.not_holding hu hd
  -- it is the first leg on its connection
  obtain ⟨rest,hnext⟩ := hu.order.next hd h
  have hframe : (cfg.tx.pushed d.packet).frame <+: part ++ (s.conn d.worker ++ unsent) := by
    rw [RxWorker.current,hholds,if_neg Bool.false_ne_true,List.nil_append] at hnext
    have hbytes := h.bytes
    rw [hnext,PrefixCode.Code.encodeAll_cons,List.nil_append] at hbytes
    exact ⟨_,hbytes⟩
  have hearly := hu.not_early hdone (List.mem_of_getElem? hd)
  have hpc := hrest.rxWorker d.worker
  cases hpc' : (s.rx.workers d.worker).pc <;>
    simp only [RxPc.atRest,RxPc.early,hpc',reduceCtorEq] at hpc hearly
  case gone => exact (hu.met.early hdone d.worker).2 hpc'
  case asleep => simp [RxWorker.holds,RxPc.holding,hpc',(hu.opened d.worker).2] at hholds
  case header =>
    have hpend := h.pending
    simp only [RxWorker.Pending,hpc'] at hpend
    have hshort := hrest.header d.worker hpc'
    obtain rfl : unsent = [] := (hrest.unsent hu h).resolve_right (by omega)
    have hlong := hframe.length_le
    simp only [hpend.1,List.nil_append,List.append_nil,Packet.frame_length] at hlong
    omega
  case payload =>
    have hnil := hrest.payload d.worker hpc'
    have hroom : ¬ cfg.sockbuf.toNat ≤ (s.conn d.worker).length := by
      rw [hnil,List.length_nil]
      simp only [Millipacket.sizeof] at hbuf
      omega
    obtain rfl : unsent = [] := (hrest.unsent hu h).resolve_right hroom
    exact h.pending.incomplete (cfg.tx.pushed d.packet) (by simpa [hnil] using hframe)

/-- Nothing is on its way. -/
theorem clear (hbuf : Millipacket.sizeof ≤ cfg.sockbuf.toNat) (hu : Undisturbed cfg s) (i : Fin W) :
    s.conn i = [] ∧ (s.tx.workers i).progress = none ∧ (s.rx.workers i).holds = false := by
  obtain ⟨legs,part,lost,unsent,h⟩ := exists_onConnection hu.harmless i
  have hahead := hu.order.ahead h
  rw [hrest.advances_eq hbuf hu,List.drop_length] at hahead
  obtain ⟨hcurrent,rfl⟩ := List.append_eq_nil_iff.mp hahead.symm
  have hbytes := h.bytes
  simp only [PrefixCode.Code.encodeAll_nil,List.nil_eq,List.append_eq_nil_iff] at hbytes
  refine ⟨hbytes.2.1,?_,?_⟩
  · have hunsent := h.unsent
    unfold TxWorker.Unsent at hunsent
    split at hunsent
    · assumption
    · obtain ⟨rest,p,hlegs,-⟩ := hunsent
      simp at hlegs
  · unfold RxWorker.current at hcurrent
    split at hcurrent
    · cases hcurrent
    · rename_i hnot
      simpa using hnot

end Session.AtRest

/-- Work at hand comes to an end, and then everything that was handed over is written. -/
structure Drains (cfg : SessionConfig) (s : Session W) : Prop where
  ends : ∀ a t, Settling s a → sessionStep cfg s a = some t → t.left < s.left
  written : (sessionMachine cfg W).Rests Settling s →
    s.rx.output = payloads (s.sent cfg) ∧ s.tx.mutex = none ∧ s.rx.rxmutex = none ∧
      ∀ i, s.conn i = [] ∧ (s.tx.workers i).progress = none ∧ (s.rx.workers i).holds = false

/-- As long as nothing fails, the threads of both processes cannot block each other over legs
that were handed over: whatever they do, they come to rest, and only when all is written. -/
theorem drains_of_calm (hW : W ≤ kthreadmax) (hcfg : cfg.Agreed)
    (hbuf : Millipacket.sizeof ≤ cfg.sockbuf.toNat)
    (hs : Reachable (sessionMachine cfg W) Calm s) : Drains cfg s where
  ends _ _ := left_lt_of_settling hW hcfg hs
  written hrests := by
    have hu := undisturbed_of_calm hW hcfg hs
    have hrest := atRest_of_rests hu hrests
    obtain ⟨houtput,hlen⟩ := hrest.written hu
    refine ⟨?_,hrest.mutex,hrest.rxmutex,hrest.clear hbuf hu⟩
    have hall := hu.order.written
    rw [hlen,hrest.advances_eq hbuf hu,List.take_of_length_le (by simp [Session.sent])] at hall
    rw [houtput,hall]

/-- A step of work at hand, at which the receiver does not end. -/
def Living (cfg : SessionConfig) (s : Session W) (a : SessionAction W) : Prop :=
  Settling s a ∧ ∀ t, sessionStep cfg s a = some t → t.rx.exited = none

/-- Whatever the two command lines say, work at hand comes to an end: the receiver ends, or all
that was handed over is counted. -/
theorem exists_ended_or_counted (hW : W ≤ kthreadmax) (hbuf : Millipacket.sizeof ≤ cfg.sockbuf.toNat)
    (hs : Reachable (sessionMachine cfg W) Calm s) :
    ∃ t, (sessionMachine cfg W).Leads Calm s t ∧
      (t.rx.exited ≠ none ∨ t.rx.advances = t.tx.log.length) := by
  have hlower (s : Session W) (a : SessionAction W) (t : Session W)
      (hr : Reachable (sessionMachine cfg W) Calm s) (ha : Living cfg s a)
      (h : sessionStep cfg s a = some t) : t.left < s.left :=
    left_lt_of_alive hr ha.1 h (ha.2 t h)
  obtain ⟨t,hleads,hrests⟩ := hs.exists_rests (fun _ _ ha => ha.1.1) Session.left hlower
  replace hleads := hleads.mono fun _ _ (ha : Living cfg _ _) => ha.1.1
  by_cases hends : ∃ u, (sessionMachine cfg W).Next Settling t u ∧ u.rx.exited ≠ none
  · obtain ⟨u,⟨a,ha,hstep⟩,hended⟩ := hends
    exact ⟨u,hleads.tail ⟨a,ha.1,hstep⟩,.inl hended⟩
  · refine ⟨t,hleads,?_⟩
    by_cases halive : t.rx.exited = none
    · have hu := undisturbed_of_alive hW (hs.leads hleads) halive
      refine .inr ((atRest_of_rests hu fun a u ha hstep => ?_).advances_eq hbuf hu)
      refine hrests a u ⟨ha,fun v hv => ?_⟩ hstep
      by_contra hended
      exact hends ⟨v,⟨a,ha,hv⟩,hended⟩
    · exact .inl halive

/-- A leg has been handed over, and none of it is written. -/
theorem drains_pushing :
    ∃ s ∈ exec (sessionMachine ⟨.plain,.plain,100⟩ 1) Calm (sessionInit 1)
        (meet 0 ++ txRun (pushOne (oneByte 7) 41)),
      s.rx.output = [] ∧ 0 < s.left ∧ Drains ⟨.plain,.plain,100⟩ s := by
  have hrun : ∃ s ∈ exec (sessionMachine ⟨.plain,.plain,100⟩ 1) Calm (sessionInit 1)
      (meet 0 ++ txRun (pushOne (oneByte 7) 41)), s.rx.output = [] ∧ 0 < s.left := by decide +kernel
  obtain ⟨s,hs,houtput,hleft⟩ := hrun
  exact ⟨s,hs,houtput,hleft,drains_of_calm (by decide) ⟨rfl,rfl,by decide⟩ (by decide)
    (reachable_exec (.init rfl) hs)⟩

end Viamillipede
