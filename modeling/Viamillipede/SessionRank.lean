import Mathlib.Algebra.BigOperators.Fin
import Mathlib.Algebra.Order.BigOperators.Group.Finset
import Viamillipede.SessionMeet
import Viamillipede.TxShutdown

/-! The work at hand in a session: what is left to do when no more input is read.

Threads run on, the sockets take and deliver the bytes of the legs that are handed over, and
the receiver writes them. Each such step lowers a rank, so that they come to an end. -/
namespace Viamillipede

open Bytes Transition

variable {W : ℕ} {cfg : SessionConfig}

section Sums

variable {f g : Fin W → ℕ} {i : Fin W} {c : ℕ}

theorem sum_lt_of_one (hi : f i < g i) (hothers : ∀ j, j ≠ i → f j = g j) :
    ∑ j, f j < ∑ j, g j := by
  refine Finset.sum_lt_sum (fun j _ => ?_) ⟨i,Finset.mem_univ i,hi⟩
  rcases eq_or_ne j i with rfl | hne
  · exact hi.le
  · exact (hothers j hne).le

theorem sum_le_of_one (hi : f i ≤ g i+c) (hothers : ∀ j, j ≠ i → f j ≤ g j) :
    ∑ j, f j ≤ ∑ j, g j+c := by
  have hsum : ∑ j, f j ≤ ∑ j, (g j+if j = i then c else 0) := by
    refine Finset.sum_le_sum fun j _ => ?_
    rcases eq_or_ne j i with rfl | hne
    · simpa using hi
    · simpa [hne] using hothers j hne
  simpa [Finset.sum_add_distrib] using hsum

end Sums

section Transmitter

variable {cfg : TxConfig}

/-- The bytes that the worker has yet to write of the packet it was handed. -/
def TxWorker.toSend (w : TxWorker) : ℕ :=
  match w.pc with
  | .remainder | .gather => Millipacket.sizeof+w.pkt.size.toNat
  | .wait | .push => Millipacket.sizeof+w.iovLen
  | .writev pos => Millipacket.sizeof+w.iovLen-pos
  | _ => if w.state = .dispatched then Millipacket.sizeof+w.pkt.size.toNat else 0

/-- The steps that the worker has yet to take, up to its rest in the loop. -/
def TxWorker.left (w : TxWorker) : ℕ :=
  match w.pc with
  | .start => 8
  | .connecting _ => 7
  | .setIdle => 4
  | .zeroSize => 3
  | .zeroLeg => 2
  | .setPreamble => 1
  | .loop => if w.state = .dispatched then 14 else 0
  | .sampleDone => if w.state = .dispatched then 13 else 3
  | .sampleState => if w.state = .dispatched then 12 else 2
  | .unlock =>
    if w.localState = .dispatched then 11 else if w.state = .dispatched then 15 else 1
  | .preamble => 10
  | .remainder => 9
  | .gather => 8
  | .wait => 7
  | .push => 6
  | .writev _ => 5
  | .lease => 4
  | .zeroLease => 3
  | .release => 2
  | .unlease => if w.state = .dispatched then 15 else 1
  | _ => 0

/-- The same for the ingest thread, up to where it holds no lock and no worker waits for it;
`handover` is what a worker has to do when it is handed the end of the stream. -/
def IngestPc.left (handover : ℕ) : IngestPc W → ℕ
  | .finish | .unlock | .scanUnlock _ => 1
  | .test => 2
  | .scan cursor => W-cursor+2
  | .shutStart _ => handover+1
  | .shutOpcode _ => handover+2
  | .shutLeg _ => handover+3
  | .shutSize _ => handover+4
  | .shutUnlock _ => handover+5
  | .shutEof _ => handover+6
  | .shutDone _ => handover+7
  | _ => 0

/-- A worker by itself comes closer to its rest. -/
theorem workerRun_left {w : TxWorker} {i : Fin W} {mutex : Option (TxThread W)} {done : Bool}
    {m : WorkerMove W} (hw : WorkerControl w) (hstart : w.pc.starting = true → w.state = .idle)
    (hleft : 0 < w.left) (hm : m.exited = none) (h : workerRun cfg i mutex done w = some m) :
    m.worker.toSend ≤ w.toSend ∧ m.worker.left < w.left ∧ m.sent = [] := by
  cases hpc : w.pc <;>
    simp only [workerRun,WorkerControl,TxWorker.left,WorkerPc.starting,hpc] at h hw hleft hstart
  all_goals grind [TxWorker.toSend,TxWorker.left]

/-- What its socket accepts is off its hands. -/
theorem workerStep_accept {w : TxWorker} {i : Fin W} {mutex : Option (TxThread W)} {done : Bool}
    {count : ℕ} {m : WorkerMove W} (hw : WorkerControl w) (hm : m.exited = none)
    (h : workerStep cfg i mutex done w (.accept count) = some m) :
    m.worker.toSend+m.sent.length ≤ w.toSend ∧ m.worker.left ≤ w.left ∧ 0 < m.sent.length := by
  cases hpc : w.pc <;> simp only [workerStep,hpc,reduceCtorEq] at h
  simp only [WorkerControl,hpc] at hw
  split at h
  · cases h
  rename_i pos hcount
  obtain ⟨hpos,hle⟩ := not_or.mp hcount
  rw [TxWorker.gathered_length] at hle
  have hsent : ((w.gathered.drop pos).take count).length = count := by
    rw [List.length_take,List.length_drop,TxWorker.gathered_length]
    omega
  split at h <;> cases h
  · simp only [TxWorker.toSend,TxWorker.left,hpc,hsent]
    omega
  · unfold writevReturned at hm ⊢
    split at hm
    · rename_i hall
      rw [if_pos hall]
      simp only [TxWorker.toSend,TxWorker.left,hpc,hsent,hw.1]
      simp
      omega
    · cases hm

theorem TxWorker.toSend_of_idle {w : TxWorker} (hw : WorkerControl w) (hidle : w.state = .idle) :
    w.toSend = 0 := by
  cases hpc : w.pc <;> simp_all [WorkerControl,toSend]

/-- What a worker has to do when it is handed the end of the stream. -/
theorem TxWorker.left_dispatched {w : TxWorker} (hw : WorkerControl w) (hidle : w.state = .idle)
    (hsize : w.pkt.size = 0) : { w with state := .dispatched }.toSend = Millipacket.sizeof ∧
      { w with state := .dispatched }.left ≤ w.left+14 := by
  cases hpc : w.pc <;> simp_all [WorkerControl,toSend,left]

/-- The ingest thread leaves the lock alone, or hands over the end of the stream. -/
theorem ingestStep_left {s t : TxState W} {handover : ℕ} (hc : TxControl s)
    (hstored : s.ingest.Stored cfg s.workers) (hleft : 0 < s.ingest.pc.left handover)
    (h : ingestStep cfg s = some t) :
    (∀ i, (t.workers i).toSend = (s.workers i).toSend ∧ (t.workers i).left = (s.workers i).left) ∧
        t.ingest.pc.left handover < s.ingest.pc.left handover ∨
      ∃ w, (t.workers w).toSend = Millipacket.sizeof ∧
        (t.workers w).left ≤ (s.workers w).left+14 ∧ (∀ i, i ≠ w → t.workers i = s.workers i) ∧
        t.ingest.pc.left handover+handover < s.ingest.pc.left handover := by
  have hpkt {w : Fin W} (hfound : s.ingest.pc.found = some w) (pkt : Millipacket) (i : Fin W) :
      ((s.setPkt w pkt).workers i).toSend = (s.workers i).toSend ∧
        ((s.setPkt w pkt).workers i).left = (s.workers i).left := by
    rcases eq_or_ne i w with rfl | hne
    · have hidle := hc.found i hfound
      have hself : (s.setPkt i pkt).workers i = { s.workers i with pkt := pkt } :=
        Function.update_self ..
      rw [hself,TxWorker.toSend_of_idle (hc.worker i) hidle]
      exact ⟨TxWorker.toSend_of_idle (w := { s.workers i with pkt := pkt }) (hc.worker i) hidle,rfl⟩
    · simp [TxState.setPkt,TxState.setWorker,hne]
  cases hpc : s.ingest.pc with
  | shutStart w =>
    simp only [Ingest.Stored,hpc] at hstored
    simp only [ingestStep,hpc,Option.some.injEq] at h
    subst h
    obtain ⟨hsend,hmore⟩ := TxWorker.left_dispatched (hc.worker w) (hc.found w (by rw [hpc]; rfl))
      hstored.1
    refine .inr ⟨w,?_,?_,fun i hne => ?_,?_⟩
    · simpa [startWorker,TxState.goto,TxState.setWorker] using hsend
    · simpa [startWorker,TxState.goto,TxState.setWorker] using hmore
    · simp [startWorker,TxState.goto,TxState.setWorker,hne]
    · simp [startWorker,TxState.goto,IngestPc.left]
  | shutSize w | shutLeg w | shutOpcode w =>
    simp only [ingestStep,hpc,Option.some.injEq] at h
    subst h
    refine .inl ⟨hpkt (by rw [hpc]; rfl) _,?_⟩
    simp [TxState.goto,IngestPc.left]
  | test =>
    simp only [ingestStep,hpc,Option.some.injEq] at h
    subst h
    refine .inl ⟨fun i => ⟨rfl,rfl⟩,?_⟩
    dsimp only [TxState.goto]
    split_ifs <;> exact Nat.lt_succ_self 1
  | scan cursor =>
    simp only [ingestStep,hpc] at h
    split_ifs at h with hmore hidle <;> cases h <;> refine .inl ⟨fun i => ⟨rfl,rfl⟩,?_⟩ <;>
      simp only [TxState.goto,IngestPc.left] <;> omega
  | scanUnlock found =>
    cases found <;> simp only [ingestStep,hpc,Option.some.injEq] at h <;> subst h <;>
      exact .inl ⟨fun i => ⟨rfl,rfl⟩,Nat.zero_lt_one⟩
  | unlock | finish | shutDone w | shutEof w | shutUnlock w =>
    simp only [ingestStep,hpc,Option.some.injEq] at h
    subst h
    refine .inl ⟨fun i => ⟨rfl,rfl⟩,?_⟩
    simp [TxState.goto,IngestPc.left]
  | _ => simp [IngestPc.left,hpc] at hleft

end Transmitter

section Receiver

variable {n : ℕ} {cfg : RxConfig}

/-- The steps that a receive worker has yet to take, up to its next call on its connection,
when there are `n` workers that it may wake. -/
def RxPc.left (n : ℕ) : RxPc → ℕ
  | .accept => 1
  | .outer => 2
  | .start | .inner => 3
  | .broadcast => 3*n+4
  | .advUnlock => 3*n+5
  | .advance => 3*n+6
  | .advLock => 3*n+7
  | .doneUnlock => 3*n+8
  | .doneSet => 3*n+9
  | .doneLock => 3*n+10
  | .opcode => 3*n+11
  | .write _ => 3*n+12
  | .unlock | .asleep => 3*n+13
  | .wait => 3*n+14
  | .test => 3*n+15
  | .lock | .relock => 3*n+16
  | .payload => 3*n+17
  | .header | .gone => 0

/-- The bytes of its leg that a receive worker has read and not yet written. -/
def RxWorker.toWrite (w : RxWorker) : ℕ :=
  match w.pc with
  | .payload => w.cursor
  | .lock | .test | .wait | .asleep | .relock | .unlock => w.pkt.size.toNat
  | .write pos => w.pkt.size.toNat-pos
  | _ => 0

def RxWorker.left (n : ℕ) (w : RxWorker) : ℕ := w.toWrite+w.pc.left n

/-- The same for the main thread, up to its next call of `rx_poll`. -/
def RxPollPc.left : RxPollPc → ℕ
  | .read => 2
  | .unlock _ => 1
  | _ => 0

/-- A move that reads nothing, to a place closer to the next call. -/
theorem RxWorker.left_lt {w : RxWorker} {pc : RxPc} (hpc : pc.left n < w.pc.left n)
    (hbytes : { w with pc := pc }.toWrite ≤ w.toWrite) : { w with pc := pc }.left n < w.left n :=
  Nat.add_lt_add_of_le_of_lt hbytes hpc

/-- A worker by itself comes closer to its next call; when it wakes the others, they have to
lock and test again. -/
theorem rxRun_left {s t : RxState n} {i : Fin n} (ht : t.exited = none)
    (h : rxRun s i = some t) : t.poll = s.poll ∧
      (((t.workers i).left n < (s.workers i).left n ∧
          ∀ j, j ≠ i → t.workers j = s.workers j) ∨
        (t.workers i).left n+3*n < (s.workers i).left n ∧
          ∀ j, j ≠ i → (t.workers j).left n ≤ (s.workers j).left n+3) := by
  have hgoto {pc : RxPc} (hpc : pc.left n < (s.workers i).pc.left n)
      (hbytes : { s.workers i with pc := pc }.toWrite ≤ (s.workers i).toWrite) :
      ((s.goto i pc).workers i).left n < (s.workers i).left n ∧
        ∀ j, j ≠ i → (s.goto i pc).workers j = s.workers j := by
    rw [s.goto_self]
    exact ⟨RxWorker.left_lt hpc hbytes,fun j hne => s.goto_other hne pc⟩
  cases hpc : (s.workers i).pc with
  | outer =>
    simp only [rxRun,hpc] at h
    split at h <;> cases h
    · exact ⟨rfl,.inl (hgoto (by simp [RxPc.left,hpc]) (Nat.zero_le _))⟩
    · refine ⟨rfl,.inl ⟨?_,fun j hne => s.setWorker_other hne _⟩⟩
      simp [RxWorker.left,RxWorker.toWrite,RxPc.left,hpc]
  | broadcast =>
    simp only [rxRun,hpc,Option.some.injEq] at h
    subst h
    refine ⟨rfl,.inr ⟨?_,fun j hne => ?_⟩⟩
    · simp [RxState.awaken,RxWorker.left,RxWorker.toWrite,RxPc.left,hpc]
      omega
    · obtain ⟨hsleep,hw⟩ | ⟨-,hw⟩ := (s.goto i .inner).awaken_cases j <;>
        rw [s.goto_other hne] at hw
      · rw [s.goto_other hne] at hsleep
        rw [hw]
        simp [RxWorker.left,RxWorker.toWrite,RxPc.left,hsleep,Nat.add_assoc]
      · rw [hw]
        exact Nat.le_add_right _ _
  | opcode =>
    simp only [rxRun,hpc,Option.some.injEq] at h
    subst h
    unfold opcodeStep at ht ⊢
    simp only at ht ⊢
    split_ifs at ht ⊢ with hend hfeed
    · exact ⟨rfl,.inl (hgoto (by simp [RxPc.left,hpc]) (Nat.zero_le _))⟩
    · split at ht
      · exact ⟨rfl,.inl (hgoto (by simp [RxPc.left,hpc]) (Nat.zero_le _))⟩
      · cases ht
  | start | lock | relock | doneLock | advLock =>
    simp only [rxRun,hpc] at h
    split at h <;> cases h
    exact ⟨rfl,.inl (hgoto (by simp [RxPc.left,hpc]) (by simp [RxWorker.toWrite,hpc]))⟩
  | inner | test | unlock =>
    simp only [rxRun,hpc,Option.some.injEq] at h
    subst h
    refine ⟨rfl,.inl (hgoto ?_ ?_)⟩
    · rw [hpc]
      split_ifs <;> simp [RxPc.left]
    · split_ifs <;> simp [RxWorker.toWrite,hpc]
  | _ =>
    simp only [rxRun,hpc,Option.some.injEq,reduceCtorEq] at h
    try subst h
    try exact ⟨rfl,.inl (hgoto (by simp [RxPc.left,hpc]) (by simp [RxWorker.toWrite,hpc]))⟩

/-- What `output_fd` takes need not be written again. -/
theorem rxWrite_left {s t : RxState n} {i : Fin n} {count : ℕ} (h : rxWrite s i count = some t) :
    t.poll = s.poll ∧ (t.workers i).left n < (s.workers i).left n ∧
      ∀ j, j ≠ i → t.workers j = s.workers j := by
  cases hpc : (s.workers i).pc <;> simp only [rxWrite,hpc,reduceCtorEq] at h
  rename_i pos
  have hlen : (s.workers i).packet.payload.length = (s.workers i).pkt.size.toNat := by
    rw [(s.workers i).packet.size_eq]
    rfl
  rw [hlen] at h
  split at h
  · cases h
  · rename_i hcount
    split at h <;> cases h
    · refine ⟨rfl,?_,fun j hne => RxState.goto_other _ hne _⟩
      simp only [RxState.goto,RxState.setWorker,Function.update_self,RxWorker.left,
        RxWorker.toWrite,RxPc.left,hpc]
      omega
    · refine ⟨rfl,?_,fun j hne => RxState.goto_other _ hne _⟩
      simp only [RxState.goto,RxState.setWorker,Function.update_self,RxWorker.left,
        RxWorker.toWrite,RxPc.left,hpc]
      omega

end Receiver

/-- The steps of a session in which no call fails, neither start-ups nor a `usleep` are
interrupted, and the end of the stream is marked before its worker looks at its state again. -/
def Calm (s : Session W) (a : SessionAction W) : Prop :=
  Smooth s a ∧ Uninterrupted a ∧ ∀ b ∈ a.txAction, MarkedInTime s.tx b

instance (s : Session W) (a : SessionAction W) : Decidable (Calm s a) :=
  inferInstanceAs (Decidable (_ ∧ _ ∧ ∀ b ∈ a.txAction, _))

theorem smooth_of_calm {s : Session W} (hs : Reachable (sessionMachine cfg W) Calm s) :
    Reachable (sessionMachine cfg W) Smooth s := hs.mono fun _ _ => And.left

theorem orderly_of_calm {s : Session W} (hs : Reachable (sessionMachine cfg W) Calm s)
    {a : SessionAction W} (ha : Calm s a) : Orderly s a := by
  have hsmooth := smooth_of_calm hs
  have hc : TxControl s.tx :=
    .reachable (Session.tx_reachable (fun _ _ => trivial) (fun _ _ _ => trivial) hs :
      Reachable (txMachine cfg.tx W) anyStep s.tx)
  exact ⟨ha.1.1,fun b _ => (rested_of_smooth hsmooth).unclobbered hc b⟩

theorem untroubled_of_calm {s : Session W} (hs : Reachable (sessionMachine cfg W) Calm s) :
    Reachable (sessionMachine cfg W) Untroubled s :=
  hs.strengthen fun _ _ hr ha => ⟨orderly_of_calm hr ha,ha.2.1⟩

/-- While nobody starts up, all but the transmit workers may move. -/
theorem calm_of_others {s : Session W} {a : SessionAction W} (hfailure : NoFailure a)
    (hstart : ∀ i, (s.tx.workers i).pc.starting = false)
    (hothers : ∀ i b, a ≠ .tx (.worker i b)) : Calm s a := by
  refine ⟨⟨hfailure,fun i hi => by simp [hstart i] at hi⟩,fun b hb => ?_,fun b hb i hrun => ?_⟩
  · cases b with
    | worker i b => exact absurd (SessionAction.eq_of_mem_txAction hb) (hothers i b)
    | _ => rfl
  · exact absurd (SessionAction.eq_of_mem_txAction (hrun ▸ hb)) (hothers i .run)

namespace Session

/-- The step is one of work at hand. -/
def settles (s : Session W) : SessionAction W → Bool
  | .connect _ | .readv _ _ _ | .read _ _ => true
  | .tx (.worker _ (.accept _)) | .rx (.run _) | .rx (.write _ _) => true
  | .tx (.worker i .run) => 0 < (s.tx.workers i).left
  | .tx .ingest => 0 < s.tx.ingest.pc.left 0
  | .rx .poll => 0 < s.rx.poll.left
  | _ => false

/-- What is left to do for connection `i`. A byte costs its sender more than its receiver,
and a header pays for the sequencer. -/
def linkLeft (s : Session W) (i : Fin W) : ℕ :=
  (W+2)*(s.tx.workers i).toSend+(s.tx.workers i).left+(W+1)*(s.conn i).length+
    (s.rx.workers i).left W

/-- All that is left to do. -/
def left (s : Session W) : ℕ :=
  ∑ i, s.linkLeft i+s.tx.ingest.pc.left ((W+2)*Millipacket.sizeof+14)+s.rx.poll.left

end Session

/-- A permitted step of work at hand. -/
def Settling (s : Session W) (a : SessionAction W) : Prop := Calm s a ∧ s.settles a = true

theorem uninterrupted_of_settles {s : Session W} {a : SessionAction W} (h : s.settles a = true) :
    Uninterrupted a := by
  rintro b hb
  rw [SessionAction.eq_of_mem_txAction hb] at h
  cases b with
  | worker i wa => cases wa <;> first | rfl | cases h
  | _ => rfl

theorem IngestPc.left_pos_iff (pc : IngestPc W) (h k : ℕ) : 0 < pc.left h ↔ 0 < pc.left k := by
  cases pc <;> simp [left]

/-- What a worker's socket has accepted goes on its connection. -/
theorem Session.withTx_moved_conn (s : Session W) (i : Fin W) (m : WorkerMove W) (j : Fin W) :
    (s.withTx (s.tx.moved i m)).conn j = s.conn j ++ if j = i then m.sent else [] := by
  rcases eq_or_ne j i with rfl | hne
  · simp [Session.withTx,TxState.moved]
  · simp [Session.withTx,TxState.moved,hne]

namespace Session

variable {s t : Session W} {i : Fin W}

/-- A step that concerns one connection. -/
theorem left_lt_of_one (hi : t.linkLeft i < s.linkLeft i)
    (hothers : ∀ j, j ≠ i → t.linkLeft j = s.linkLeft j)
    (hingest : t.tx.ingest = s.tx.ingest) (hpoll : t.rx.poll = s.rx.poll) : t.left < s.left := by
  have hsum := sum_lt_of_one hi hothers
  rw [left,left,hingest,hpoll]
  omega

/-- A worker of the transmitter moves. -/
theorem left_lt_of_moved {m : WorkerMove W}
    (h : (W+2)*m.worker.toSend+m.worker.left+(W+1)*m.sent.length <
      (W+2)*(s.tx.workers i).toSend+(s.tx.workers i).left) :
    (s.withTx (s.tx.moved i m)).left < s.left := by
  refine left_lt_of_one (i := i) ?_ (fun j hne => ?_) rfl rfl
  · have hworker : (s.tx.moved i m).workers i = m.worker := Function.update_self ..
    rw [linkLeft,linkLeft,withTx_moved_conn,if_pos rfl,List.length_append,Nat.mul_add]
    simp only [withTx,hworker]
    omega
  · have hworker : (s.tx.moved i m).workers j = s.tx.workers j := Function.update_of_ne hne ..
    rw [linkLeft,linkLeft,withTx_moved_conn,if_neg hne,List.append_nil]
    simp only [withTx,hworker]

/-- A worker of the receiver has called on its connection, and the process goes on. -/
theorem left_lt_of_withRx {count : ℕ} {w : RxWorker}
    (hlive : (s.rx.setWorker i w).exited = none) (hcount : count ≤ (s.conn i).length)
    (h : w.left W < (s.rx.workers i).left W+(W+1)*count) :
    (s.withRx i count (s.rx.setWorker i w)).left < s.left := by
  have hconn : (s.withRx i count (s.rx.setWorker i w)).conn =
      Function.update s.conn i ((s.conn i).drop count) := by
    simp only [withRx,hlive,Option.isSome_none,Bool.false_eq_true,if_false]
  refine left_lt_of_one (i := i) ?_ (fun j hne => ?_) rfl rfl
  · have hsplit : (W+1)*(s.conn i).length = (W+1)*((s.conn i).length-count)+(W+1)*count := by
      rw [← Nat.mul_add,Nat.sub_add_cancel hcount]
    rw [linkLeft,linkLeft,hconn,Function.update_self,List.length_drop]
    simp only [withRx,s.rx.setWorker_self]
    omega
  · rw [linkLeft,linkLeft,hconn,Function.update_of_ne hne]
    simp only [withRx,s.rx.setWorker_other hne]

end Session

/-- The header that a worker reads leads to its payload or to the sequencer. -/
theorem RxWorker.headerRead_left {cfg : RxConfig} {w w' : RxWorker} {junk : Millipacket}
    {bs : List UInt8} (n : ℕ) (h : w.headerRead cfg junk bs = .ok w') : w'.left n ≤ 3*n+17 := by
  obtain ⟨v,rfl,⟨hzero,hw⟩ | ⟨-,rfl⟩⟩ := headerRead_cases h
  · rw [sequence_eq hw]
    simp only at hzero
    simp [left,toWrite,RxPc.left,hzero]
  · simp [left,toWrite,RxPc.left]

/-- What it reads of the payload has to be written. -/
theorem RxWorker.payloadRead_left {cfg : RxConfig} {w w' : RxWorker} {bs : List UInt8} (n : ℕ)
    (hpc : w.pc = .payload) (hsum : w.cursor+w.remainder = w.pkt.size.toNat) (hne : bs ≠ [])
    (hroom : bs.length ≤ w.remainder) (h : w.payloadRead cfg bs = .ok w') :
    w'.left n ≤ w.left n+bs.length := by
  obtain ⟨hnil,-⟩ | ⟨-,v,rfl,⟨hzero,hw⟩ | ⟨-,rfl⟩⟩ := payloadRead_cases h
  · exact absurd hnil hne
  · rw [sequence_eq hw]
    simp only at hzero
    simp only [left,toWrite,RxPc.left,hpc]
    omega
  · simp only [left,toWrite,RxPc.left,hpc]
    omega

section Settling

variable {s : Session W}

/-- A connection is established, and the check phrase was right. -/
theorem left_lt_of_connect {i : Fin W} {tx : TxState W} {rx : RxState W} (hc : TxControl s.tx)
    (hlive : rx.exited = none) (hconnect : txStep cfg.tx s.tx (.worker i .connected) = some tx)
    (haccept : rxStep cfg.rx s.rx (.accept i (cfg.rx.gcheckphrase.take 4)) = some rx) :
    ({ s with tx := tx, rx := rx } : Session W).left < s.left := by
  obtain ⟨hpc,hset⟩ := rxStep_accept haccept
  simp only [txStep] at hconnect
  split at hconnect
  · cases hconnect
  obtain ⟨m,hm,rfl⟩ := Option.map_eq_some_iff.mp hconnect
  have hcontrol := hc.worker i
  cases hpc' : (s.tx.workers i).pc <;> simp only [workerStep,hpc',reduceCtorEq] at hm
  simp only [WorkerControl,hpc'] at hcontrol
  obtain ⟨hstate,rfl,-⟩ := hcontrol
  cases hm
  cases hset with
  | ended _ _ hrx =>
    rw [hrx] at hlive
    cases hlive
  | ok w hw hrx _ =>
    have hfresh := RxWorker.accepted_eq hw
    subst hrx
    refine Session.left_lt_of_one (i := i) ?_ (fun j hne => ?_) rfl rfl
    · simp [Session.linkLeft,TxState.moved,TxWorker.toSend,TxWorker.left,hstate,hpc',hfresh,hpc,
        RxWorker.left,RxWorker.toWrite,RxPc.left]
      omega
    · simp [Session.linkLeft,TxState.moved,RxState.setWorker,hne]

theorem left_lt_of_tx {a : TxAction W} {tx : TxState W} (hc : TxControl s.tx) (hrest : Rested s.tx)
    (hdata : TxHandover cfg.tx s.tx) (hexited : s.tx.exited = none) (hlive : tx.exited = none)
    (hsettles : s.settles (.tx a) = true) (hstep : txStep cfg.tx s.tx a = some tx) :
    (s.withTx tx).left < s.left := by
  simp only [txStep,hexited,Option.isSome_none,Bool.false_eq_true,if_false] at hstep
  cases a with
  | worker i b =>
    obtain ⟨m,hm,rfl⟩ := Option.map_eq_some_iff.mp hstep
    refine Session.left_lt_of_moved ?_
    cases b with
    | run =>
      obtain ⟨hsend,hleft,hsent⟩ := workerRun_left (hc.worker i) (fun hi => (hrest i hi).1)
        (of_decide_eq_true hsettles) hlive hm
      have hbytes := Nat.mul_le_mul_left (W+2) hsend
      rw [hsent,List.length_nil]
      omega
    | accept count =>
      obtain ⟨hsend,hleft,hpos⟩ := workerStep_accept (hc.worker i) hlive hm
      have hbytes := Nat.mul_le_mul_left (W+2) hsend
      have hcost : (W+2)*m.sent.length = (W+1)*m.sent.length+m.sent.length := Nat.succ_mul ..
      rw [Nat.mul_add] at hbytes
      omega
    | _ => cases hsettles
  | ingest =>
    have hconn : (s.withTx tx).conn = s.conn := by
      funext j
      simp [Session.withTx,(ingestStep_effect hstep).wire]
    have hleft : 0 < s.tx.ingest.pc.left ((W+2)*Millipacket.sizeof+14) :=
      (IngestPc.left_pos_iff _ _ _).mp (of_decide_eq_true hsettles)
    rcases ingestStep_left hc hdata.stored hleft hstep with
      ⟨hworkers,hlt⟩ | ⟨w,hsend,hmore,hothers,hlt⟩
    · have hlinks : (s.withTx tx).linkLeft = s.linkLeft := by
        funext j
        rw [Session.linkLeft,Session.linkLeft,hconn]
        simp only [Session.withTx,hworkers j]
      rw [Session.left,Session.left,hlinks]
      simp only [Session.withTx]
      omega
    · -- the worker takes over what the ingest thread had to do
      have hsum : ∑ j, (s.withTx tx).linkLeft j ≤
          ∑ j, s.linkLeft j+((W+2)*Millipacket.sizeof+14) := by
        refine sum_le_of_one (i := w) ?_ fun j hne => ?_
        · rw [Session.linkLeft,Session.linkLeft,hconn]
          simp only [Session.withTx,hsend]
          omega
        · rw [Session.linkLeft,Session.linkLeft,hconn]
          simp only [Session.withTx,hothers j hne,le_refl]
      rw [Session.left,Session.left]
      simp only [Session.withTx] at hsum ⊢
      omega
  | _ => cases hsettles

theorem left_lt_of_rx {a : RxAction W} {rx : RxState W} (hlive : rx.exited = none)
    (hsettles : s.settles (.rx a) = true) (hstep : rxStep cfg.rx s.rx a = some rx) :
    ({ s with rx := rx } : Session W).left < s.left := by
  have hexited : s.rx.exited = none := rxStep_alive hstep
  simp only [rxStep,hexited,Option.isSome_none,Bool.false_eq_true,if_false] at hstep
  cases a with
  | run i =>
    obtain ⟨hpoll,⟨hlt,hothers⟩ | ⟨hlt,hothers⟩⟩ := rxRun_left hlive hstep
    · refine Session.left_lt_of_one (i := i) ?_ (fun j hne => ?_) rfl hpoll
      · simp only [Session.linkLeft]
        omega
      · simp only [Session.linkLeft,hothers j hne]
    · -- a broadcast costs each of the others up to three steps
      have hsum : ∑ j, ((({ s with rx := rx } : Session W).linkLeft j)+if j = i then 3*W+1 else 0) ≤
          ∑ j, (s.linkLeft j+3) := by
        refine Finset.sum_le_sum fun j _ => ?_
        rcases eq_or_ne j i with rfl | hne
        · simp only [Session.linkLeft,if_true]
          omega
        · have hone := hothers j hne
          simp only [Session.linkLeft,if_neg hne]
          omega
      simp only [Finset.sum_add_distrib,Finset.sum_ite_eq',Finset.mem_univ,if_true,
        Finset.sum_const,Finset.card_univ,Fintype.card_fin,smul_eq_mul] at hsum
      rw [Session.left,Session.left,hpoll,
        show ({ s with rx := rx } : Session W).tx.ingest = s.tx.ingest from rfl]
      omega
  | write i count =>
    obtain ⟨hpoll,hlt,hothers⟩ := rxWrite_left hstep
    refine Session.left_lt_of_one (i := i) ?_ (fun j hne => ?_) rfl hpoll
    · simp only [Session.linkLeft]
      omega
    · simp only [Session.linkLeft,hothers j hne]
  | poll =>
    cases hpoll : s.rx.poll <;>
      simp [Session.settles,RxPollPc.left,hpoll] at hsettles <;>
      simp only [rxPollStep,hpoll,Option.some.injEq] at hstep <;> subst hstep <;>
      simp [Session.left,Session.linkLeft,RxPollPc.left,hpoll]
  | _ => cases hsettles

end Settling

/-- Work at hand becomes less, as long as the receiver does not end. -/
theorem left_lt_of_alive {s t : Session W} {a : SessionAction W}
    (hs : Reachable (sessionMachine cfg W) Calm s) (ha : Settling s a)
    (h : sessionStep cfg s a = some t) (hrxlive : t.rx.exited = none) : t.left < s.left := by
  have hsmooth := smooth_of_calm hs
  have hharmless := harmless_of_orderly (orderly_of_smooth hsmooth)
  have htx := tx_reachable_of_harmless hharmless
  have hlive := txAlive_of_untroubled (untroubled_of_calm (hs.step ha.1 h))
  obtain ⟨⟨⟨hfailure,-⟩,-⟩,hsettles⟩ := ha
  have hread {i : Fin W} {count : ℕ} (hmay : s.MayRead i count) :
      0 < count ∧ count ≤ (s.conn i).length := by
    have hopen := (Undropped.reachable (fun _ _ ha => ha.1) hsmooth i).1
    exact hmay.resolve_right fun hclosed => by simp [hopen] at hclosed
  cases sessionStep_cases h with
  | connect i tx rx hconnect haccept ht =>
    subst ht
    exact left_lt_of_connect (.reachable htx) hrxlive hconnect haccept
  | tx b tx _ hstep ht =>
    subst ht
    exact left_lt_of_tx (.reachable htx) (rested_of_smooth hsmooth) (.reachable (fun _ _ h => h) htx)
      (txAlive_of_untroubled (untroubled_of_calm hs)) hlive hsettles hstep
  | rx b rx _ hstep ht =>
    subst ht
    exact left_lt_of_rx hrxlive hsettles hstep
  | readv i junk count rx hmay hstep ht =>
    subst ht
    obtain ⟨hpc,-,hset⟩ := rxStep_readv hstep
    obtain rfl : count = Millipacket.sizeof := by
      simpa [SessionAction.shortHeader] using hfailure.2.1
    cases hset with
    | ended _ _ hrx => exact absurd hrxlive (by simp [Session.withRx,hrx])
    | ok w hw hrx hlive =>
      subst hrx
      refine Session.left_lt_of_withRx hlive (hread hmay).2 ?_
      have hto := RxWorker.headerRead_left W hw
      simp only [Millipacket.sizeof]
      omega
  | read i count rx hmay hstep ht =>
    subst ht
    obtain ⟨hpc,hroom,hset⟩ := rxStep_read hstep
    cases hset with
    | ended _ _ hrx => exact absurd hrxlive (by simp [Session.withRx,hrx])
    | ok w hw hrx hlive =>
      subst hrx
      obtain ⟨hpos,hle⟩ := hread hmay
      obtain ⟨_,_,_,_,hconn⟩ := exists_onConnection hharmless i
      have hlen : ((s.conn i).take count).length = count := List.length_take_of_le hle
      have hto := RxWorker.payloadRead_left W hpc (hconn.pending.payload hpc).1
        (List.ne_nil_of_length_pos (hpos.trans_eq hlen.symm)) hroom hw
      have hmore : 1*count ≤ W*count := Nat.mul_le_mul_right count i.pos
      refine Session.left_lt_of_withRx hlive hle ?_
      rw [Nat.add_mul]
      omega
  | drop => cases hsettles

/-- Work at hand comes to an end. -/
theorem left_lt_of_settling (hW : W ≤ kthreadmax) (hcfg : cfg.Agreed) {s t : Session W}
    {a : SessionAction W} (hs : Reachable (sessionMachine cfg W) Calm s) (ha : Settling s a)
    (h : sessionStep cfg s a = some t) : t.left < s.left :=
  left_lt_of_alive hs ha h
    (rxAlive_of_orderly hW hcfg (orderly_of_smooth (smooth_of_calm (hs.step ha.1 h))))

end Viamillipede
