import Viamillipede.SessionAlive
import Viamillipede.Exclusion

/-! Which threads of a session go through their start-up together, and what is left behind
when they end.

A receive worker waits for its connection exactly as long as the transmit worker of the same
number has none, and `done_mbox` is set once the end of the stream is counted. -/
namespace Viamillipede

open Bytes Transition

variable {W : ℕ}

section Transmitter

variable {cfg : TxConfig}

/-- The thread has no connection yet. -/
def WorkerPc.early : WorkerPc → Bool
  | .start | .connecting _ => true
  | _ => false

/-- At most one worker is at the end of its start-up. -/
def OneStarting (s : TxState W) : Prop :=
  ∀ i j, (s.workers i).pc.starting = true → (s.workers j).pc.starting = true → i = j

namespace OneStarting

theorem of_pc {s t : TxState W} (hs : OneStarting s)
    (hpc : ∀ i, (t.workers i).pc = (s.workers i).pc) : OneStarting t := fun i j hi hj =>
  hs i j (hpc i ▸ hi) (hpc j ▸ hj)

theorem step {s t : TxState W} {a : TxAction W} (hs : OneStarting s)
    (hwhole : ∀ i, (s.workers i).pc.starting = true → a = .worker i .run)
    (h : txStep cfg s a = some t) : OneStarting t := by
  cases txStep_cases h with
  | ingest _ heffect => exact hs.of_pc fun i => (heffect.change.worker i).pc
  | fillFailed _ ht => exact ht ▸ hs
  | worker k b m hab _ ht =>
    -- who is starting already is the one that moves
    have hmine (i : Fin W) (hi : (t.workers i).pc.starting = true) : i = k := by
      by_contra hne
      rw [ht] at hi
      have hrun := hab.symm.trans (hwhole i (by simpa [TxState.moved,hne] using hi))
      cases hrun
      exact hne rfl
    exact fun i j hi hj => (hmine i hi).trans (hmine j hj).symm
  | poll _ ht =>
    obtain ⟨p,hp⟩ := pollStep_eq s
    exact (ht.trans hp) ▸ hs

end OneStarting

/-- A worker without a connection is still without one after a step by itself. -/
theorem workerStep_early {w : TxWorker} {i : Fin W} {mutex : Option (TxThread W)} {done : Bool}
    {a : WorkerAction} {m : WorkerMove W} (hw : WorkerControl w)
    (ha : a = .run ∨ (∃ n, a = .accept n) ∨ a = .writevShort ∨ a = .writevFailed ∨ a = .interrupted)
    (h : workerStep cfg i mutex done w a = some m) :
    m.worker.pc.early = w.pc.early ∧ (m.worker.pc = .faulted → w.pc = .faulted) := by
  rcases ha with rfl | ⟨n,rfl⟩ | rfl | rfl | rfl
  case inl =>
    cases hpc : w.pc <;> simp only [workerStep,workerRun,WorkerControl,hpc] at h hw
    all_goals grind [WorkerPc.early]
  case inr.inr.inr.inr => simp [workerStep_interrupted h]
  all_goals
    cases hpc : w.pc <;> simp only [workerStep,hpc,reduceCtorEq] at h
    grind [WorkerPc.early,writevReturned]

end Transmitter

section Receiver

variable {n : ℕ} {cfg : RxConfig}

/-- The thread has no connection yet. -/
def RxPc.early : RxPc → Bool
  | .start | .outer | .accept => true
  | _ => false

/-- A worker that has the end of the stream behind the opcode has set `done_mbox`. -/
def RxEnding (s : RxState n) : Prop :=
  ∀ i, (s.workers i).pc = .doneUnlock ∨ (s.workers i).pc = .advLock ∨ (s.workers i).pc = .advance →
    (s.workers i).pkt.opcode = endOfMillipede → s.doneMbox = true

namespace RxEnding

theorem init : RxEnding (rxInit n) := fun _ h => by rcases h with h | h | h <;> cases h

theorem of_update {s t : RxState n} {i : Fin n} {w : RxWorker} (hs : RxEnding s)
    (hworkers : t.workers = Function.update s.workers i w)
    (hdone : s.doneMbox = true → t.doneMbox = true)
    (hw : w.pc = .doneUnlock ∨ w.pc = .advLock ∨ w.pc = .advance →
      w.pkt.opcode = endOfMillipede → t.doneMbox = true) : RxEnding t := by
  intro j
  rw [hworkers]
  rcases eq_or_ne j i with rfl | hne
  · rwa [Function.update_self]
  · rw [Function.update_of_ne hne]; exact fun hpc hend => hdone (hs j hpc hend)

theorem move {s t : RxState n} (hs : RxEnding s) (h : RxMove cfg s t) : RxEnding t := by
  cases h with
  | ended e => exact hs
  | fetch i w hfetch =>
    refine hs.of_update rfl id fun hw => ?_
    rcases hfetch.pc.2 with hpc | hpc | hpc <;> rcases hw with hw | hw | hw <;> rw [hw] at hpc <;>
      cases hpc
  | acquire i pc _ hpc =>
    refine hs.of_update rfl id fun hw hend => hs i ?_ hend
    simp only [List.mem_cons,Prod.mk.injEq,List.not_mem_nil,or_false] at hpc
    rcases hpc with ⟨hpc,rfl⟩ | ⟨hpc,rfl⟩ | ⟨hpc,rfl⟩ | ⟨hpc,rfl⟩ <;> simp_all
  | opcode i pc sum hpc hto =>
    refine hs.of_update rfl id fun hw hend => ?_
    have hother : feedMore ≠ endOfMillipede := by decide
    rcases hto with ⟨rfl,_⟩ | ⟨rfl,hfeed⟩
    · rcases hw with hw | hw | hw <;> cases hw
    · exact absurd (hfeed.symm.trans hend) hother
  | done i hpc => exact hs.of_update rfl (fun _ => rfl) fun _ _ => rfl
  | release i pc hpc =>
    refine hs.of_update rfl id fun hw hend => hs i ?_ hend
    simp only [List.mem_cons,Prod.mk.injEq,List.not_mem_nil,or_false] at hpc
    rcases hpc with ⟨hpc,rfl⟩ | ⟨hpc,rfl⟩ <;> simp_all
  | pass i hpc | block i hpc | sleep i hpc | wake i hpc | restart i hpc | enter i hpc
  | writeSome i _ _ hpc | writeAll i _ _ hpc | advance i hpc =>
    exact hs.of_update rfl id fun h => by rcases h with h | h | h <;> cases h
  | broadcast i hpc =>
    have hgo : RxEnding (s.goto i .inner) :=
      hs.of_update rfl id fun h => by rcases h with h | h | h <;> cases h
    intro j hj
    obtain ⟨-,hw⟩ | ⟨-,hw⟩ := (s.goto i .inner).awaken_cases j <;> rw [hw] at hj ⊢
    · rcases hj with hj | hj | hj <;> cases hj
    · exact hgo j hj
  | poll t h =>
    obtain ⟨p,m,rfl⟩ := rxPollStep_eq h
    exact hs

theorem reachable {ok : RxState n → RxAction n → Prop} {s : RxState n}
    (hs : Reachable (rxMachine cfg n) ok s) : RxEnding s :=
  hs.invariant (by rintro s rfl; exact init) fun _ _ _ _ h _ hstep => h.move (rxStep_cases hstep)

end RxEnding

/-- `done_mbox` stays set, and `next_leg` is incremented behind the opcode. -/
theorem advances_of_move {s t : RxState n} (h : RxMove cfg s t) :
    (s.doneMbox = true → t.doneMbox = true) ∧ (t.advances = s.advances ∨
      ∃ i, (s.workers i).pc = .advance ∧ t.advances = s.advances+1) := by
  cases h with
  | advance i hpc => exact ⟨id,.inr ⟨i,hpc,rfl⟩⟩
  | done i hpc => exact ⟨fun _ => rfl,.inl rfl⟩
  | poll t h =>
    obtain ⟨p,m,rfl⟩ := rxPollStep_eq h
    exact ⟨id,.inl rfl⟩
  | _ => exact ⟨id,.inl rfl⟩

/-- Before `done_mbox` is set, nobody who has a connection gives it up. -/
theorem rxStep_early {s t : RxState n} {a : RxAction n} (ha : a.onSocket = false)
    (hrestart : ∀ i, (s.workers i).restartme = false) (hdone : s.doneMbox = false)
    (h : rxStep cfg s a = some t) (i : Fin n) :
    (t.workers i).pc.early = (s.workers i).pc.early ∧
      ((t.workers i).pc = .gone → (s.workers i).pc = .gone) := by
  by_cases hi : a.worker = some i
  · simp only [rxStep] at h
    split at h
    · cases h
    cases a with
    | accept | readv | read => cases ha
    | run j =>
      cases hi
      cases hpc : (s.workers i).pc with
      | outer =>
        simp only [rxRun,hpc,hdone,Bool.false_eq_true,if_false,Option.some.injEq] at h
        subst h
        simp [RxState.setWorker,RxPc.early]
      | inner =>
        simp only [rxRun,hpc,hdone,hrestart i,and_self,if_true,Option.some.injEq] at h
        subst h
        simp [RxPc.early]
      | test =>
        simp only [rxRun,hpc,Option.some.injEq] at h
        subst h
        rw [RxState.goto_self]
        split_ifs <;> simp [RxPc.early]
      | unlock =>
        simp only [rxRun,hpc,hrestart i,Bool.false_eq_true,if_false,Option.some.injEq] at h
        subst h
        simp [RxState.goto,RxState.setWorker,RxPc.early]
      | opcode =>
        simp only [rxRun,hpc,opcodeStep,Option.some.injEq] at h
        subst h
        repeat' split
        all_goals simp [RxState.goto,RxState.setWorker,RxPc.early,hpc]
      | broadcast =>
        simp only [rxRun,hpc,Option.some.injEq] at h
        subst h
        simp [RxState.awaken,RxState.goto,RxState.setWorker,RxPc.early]
      | start | lock | relock | doneLock | advLock =>
        simp only [rxRun,hpc] at h
        split at h <;> cases h
        simp [RxState.goto,RxState.setWorker,RxPc.early]
      | _ =>
        simp only [rxRun,hpc,Option.some.injEq,reduceCtorEq] at h
        try subst h
        try simp [RxState.goto,RxState.setWorker,RxPc.early]
    | wake j =>
      cases hi
      simp only at h
      split at h <;> cases h
      rename_i hpc
      simp [RxPc.early,hpc]
    | write j count =>
      cases hi
      simp only [rxWrite] at h
      split at h
      · rename_i pos hpc
        split at h
        · cases h
        · split at h <;> cases h <;> simp [RxState.goto,RxState.setWorker,RxPc.early,hpc]
      · cases h
    | poll => cases hi
    | acceptFailed | readvFailed | readFailed | writeFailed =>
      simp only at h
      split at h <;> cases h
      exact ⟨rfl,id⟩
    | writeShort =>
      simp only at h
      split at h
      · split at h <;> cases h
        exact ⟨rfl,id⟩
      · cases h
  · obtain hw | ⟨hpc,hw⟩ := rxStep_other hi h
    · rw [hw]; exact ⟨rfl,id⟩
    · rw [hw,hpc]; exact ⟨rfl,by simp⟩

end Receiver

variable {cfg : SessionConfig}

theorem oneStarting_of_smooth {s : Session W} (hs : Reachable (sessionMachine cfg W) Smooth s) :
    OneStarting s.tx := by
  induction hs with
  | init h => cases h; exact nofun
  | @step s t a hr ha h ih =>
    cases sessionStep_cases h with
    | connect i tx rx hconnect _ ht =>
      rw [ht]
      exact ih.step (fun j hj => by cases ha.2 j hj) hconnect
    | tx b tx _ hstep ht =>
      rw [ht]
      exact ih.step (fun j hj => by cases ha.2 j hj; rfl) hstep
    | rx _ _ _ _ ht | readv _ _ _ _ _ _ ht | read _ _ _ _ _ ht | drop _ _ _ _ _ ht =>
      rw [ht]; exact ih

/-- A receiver that has ended stays so. -/
theorem rxAlive_of_step {s t : Session W} {a : SessionAction W} (h : sessionStep cfg s a = some t)
    (halive : t.rx.exited = none) : s.rx.exited = none := by
  cases sessionStep_cases h with
  | connect _ _ _ _ hstep | rx _ _ _ hstep | readv _ _ _ _ _ hstep | read _ _ _ _ hstep =>
    exact rxStep_alive hstep
  | tx _ _ _ _ ht | drop _ _ _ _ _ ht => rwa [ht] at halive

/-- What the threads at the two ends of a connection know of each other. -/
structure Met (s : Session W) : Prop where
  early : s.rx.doneMbox = false →
    ∀ i, (s.rx.workers i).pc.early = (s.tx.workers i).pc.early ∧ (s.rx.workers i).pc ≠ .gone
  faulted : ∀ i, (s.tx.workers i).pc ≠ .faulted

namespace Met

theorem init : Met (sessionInit W) := ⟨fun _ _ => ⟨rfl,nofun⟩,nofun⟩

/-- A call on connection `i` behind its header has been read. -/
theorem settle {s t : Session W} {i : Fin W} {r : Except Exit RxWorker} (hs : Met s)
    (htx : t.tx = s.tx) (h : s.rx.Settled t.rx i r) (hi : (s.rx.workers i).pc.early = false)
    (hr : ∀ w, r = .ok w → w.pc.early = false ∧ w.pc ≠ .gone) : Met t := by
  refine ⟨fun hdone j => ?_,htx ▸ hs.faulted⟩
  rw [htx]
  cases h with
  | ended _ _ hrx =>
    rw [hrx] at hdone ⊢
    exact hs.early hdone j
  | ok w hw hrx _ =>
    rw [hrx] at hdone ⊢
    have hold := hs.early hdone j
    rcases eq_or_ne j i with rfl | hne
    · rw [s.rx.setWorker_self,← hold.1,hi]
      exact hr w hw
    · rwa [s.rx.setWorker_other hne]

theorem step {s t : Session W} {a : SessionAction W} (hs : Met s) (hopen : Undropped s)
    (hc : TxControl s.tx) (halive : t.rx.exited = none) (ha : NoFailure a)
    (h : sessionStep cfg s a = some t) : Met t := by
  cases sessionStep_cases h with
  | connect i tx rx hconnect haccept ht =>
    subst ht
    obtain ⟨hpc,hset⟩ := rxStep_accept haccept
    simp only [txStep] at hconnect
    split at hconnect
    · cases hconnect
    obtain ⟨m,hm,rfl⟩ := Option.map_eq_some_iff.mp hconnect
    have hcontrol := hc.worker i
    cases hpc' : (s.tx.workers i).pc <;> simp only [workerStep,hpc',reduceCtorEq] at hm
    simp only [WorkerControl,hpc'] at hcontrol
    obtain rfl := hcontrol.2.1
    cases hm
    cases hset with
    | ended _ _ hrx =>
      change rx.exited = none at halive
      rw [hrx] at halive
      cases halive
    | ok w hw hrx _ =>
      have hfresh := RxWorker.accepted_eq hw
      subst hrx
      refine ⟨fun hdone j => ?_,fun j => ?_⟩
      · have hold := hs.early hdone j
        rcases eq_or_ne j i with rfl | hne
        · simp [TxState.moved,hfresh,RxPc.early,WorkerPc.early]
        · simpa [TxState.moved,RxState.setWorker,hne] using hold
      · rcases eq_or_ne j i with rfl | hne
        · simp [TxState.moved]
        · simpa [TxState.moved,hne] using hs.faulted j
  | tx b tx hmay hstep ht =>
    subst ht
    have hpc (j : Fin W) : (tx.workers j).pc.early = (s.tx.workers j).pc.early ∧
        ((tx.workers j).pc = .faulted → (s.tx.workers j).pc = .faulted) := by
      cases txStep_cases hstep with
      | ingest _ heffect => simp [(heffect.change.worker j).pc]
      | fillFailed _ htx => simp [htx]
      | worker k c m hb hm htx =>
        subst htx hb
        rcases eq_or_ne j k with rfl | hne
        · rw [show (s.tx.moved j m).workers j = m.worker from Function.update_self ..]
          refine workerStep_early (hc.worker j) ?_ hm
          cases c with
          | connected | giveUp | startFailed => cases hmay
          | _ => simp
        · simp [TxState.moved,hne]
      | poll _ htx =>
        obtain ⟨p,hp⟩ := pollStep_eq s.tx
        simp [htx,hp]
    exact ⟨fun hdone j => by rw [Session.withTx,(hpc j).1]; exact hs.early hdone j,
      fun j hj => hs.faulted j ((hpc j).2 hj)⟩
  | rx b rx hmay hstep ht =>
    subst ht
    refine ⟨fun hdone j => ?_,hs.faulted⟩
    have hquiet : b.onSocket = false := by
      cases b <;> first | rfl | cases hmay
    have hnot : s.rx.doneMbox = false := by
      by_contra hset
      have := (advances_of_move (rxStep_cases hstep)).1 (by simpa using hset)
      simp [this] at hdone
    obtain ⟨hearly,hgone⟩ := rxStep_early hquiet (fun i => (hopen i).2) hnot hstep j
    exact ⟨hearly.trans (hs.early hnot j).1,fun hto => (hs.early hnot j).2 (hgone hto)⟩
  | readv i junk count rx _ hstep ht =>
    subst ht
    obtain ⟨hpc,-,hset⟩ := rxStep_readv hstep
    refine hs.settle rfl hset (by rw [hpc]; rfl) fun w hw => ?_
    obtain ⟨v,-,⟨-,hw⟩ | ⟨-,rfl⟩⟩ := RxWorker.headerRead_cases hw
    · rw [RxWorker.sequence_eq hw]; exact ⟨rfl,by simp⟩
    · exact ⟨rfl,by simp⟩
  | read i count rx _ hstep ht =>
    subst ht
    obtain ⟨hpc,-,hset⟩ := rxStep_read hstep
    refine hs.settle rfl hset (by rw [hpc]; rfl) fun w hw => ?_
    obtain ⟨-,hw⟩ | ⟨-,v,rfl,⟨-,hw⟩ | ⟨-,rfl⟩⟩ := RxWorker.payloadRead_cases hw
    · rw [RxWorker.sequence_eq hw]; exact ⟨rfl,by simp⟩
    · rw [RxWorker.sequence_eq hw]; exact ⟨rfl,by simp⟩
    · simp [hpc,RxPc.early]
  | drop => cases ha.2.2

theorem of_alive {s : Session W} (hs : Reachable (sessionMachine cfg W) Orderly s)
    (halive : s.rx.exited = none) : Met s := by
  induction hs with
  | init h => cases h; exact init
  | @step s t a hr ha h ih =>
    exact (ih (rxAlive_of_step h halive)).step (Undropped.reachable (fun _ _ ha => ha.1) hr)
      (.reachable (tx_reachable_of_harmless (harmless_of_orderly hr))) halive ha.1 h

end Met

/-- When the end of the stream is counted in `next_leg`, `done_mbox` is set. -/
theorem doneMbox_of_counted (hW : W ≤ kthreadmax) {s : Session W}
    (hs : Reachable (sessionMachine cfg W) Harmless s) {k : ℕ} {d : Dispatch W}
    (hk : k < s.rx.advances) (hd : s.tx.log[k]? = some d) (hend : d.packet.IsEnd) :
    s.rx.doneMbox = true := by
  induction hs generalizing k d with
  | init h => cases h; cases hk
  | @step s t a hr ha h ih =>
    have horder := SessionOrder.reachable hW hr
    have hlog := TxLog.reachable (tx_reachable_of_harmless hr)
    have htx {b : TxAction W} {tx : TxState W} (hstep : txStep cfg.tx s.tx b = some tx)
        (hk : k < s.rx.advances) (hd : tx.log[k]? = some d) : s.rx.doneMbox = true := by
      obtain ⟨new,hnew⟩ := (txStep_log hlog hstep).1
      rw [hnew,List.getElem?_append_left (hk.trans_le horder.advances_le)] at hd
      exact ih hk hd hend
    have hrx {rx : RxState W} (hmove : RxMove cfg.rx s.rx rx) (hk : k < rx.advances)
        (hd : s.tx.log[k]? = some d) : rx.doneMbox = true := by
      obtain ⟨hkeep,hsame | ⟨i,hpc,hnext⟩⟩ := advances_of_move hmove
      · exact hkeep (ih (hsame ▸ hk) hd hend)
      · rcases Nat.lt_succ_iff_lt_or_eq.mp (hnext ▸ hk) with hlt | rfl
        · exact hkeep (ih hlt hd hend)
        · -- the worker holds the end of the stream
          obtain ⟨e,he,-,hpacket⟩ := horder.staged hr hW (i := i) (by simp [hpc,RxPc.stage])
          obtain rfl : d = e := Option.some.inj (hd.symm.trans he)
          have hpkt : (s.rx.workers i).pkt = d.packet.header := congrArg Packet.header hpacket
          exact hkeep (RxEnding.reachable (Session.rx_reachable hr) i (.inr (.inr hpc))
            (hpkt ▸ hend.opcode))
    cases sessionStep_cases h with
    | connect i tx rx hconnect haccept ht =>
      subst ht
      have hmove := rxStep_cases haccept
      obtain ⟨hkeep,hsame | ⟨j,hpc,hnext⟩⟩ := advances_of_move hmove
      · exact hkeep (htx hconnect (hsame ▸ hk) hd)
      · exact absurd hnext (by
          obtain ⟨-,hset⟩ := rxStep_accept haccept
          cases hset with
          | ended _ _ hrx | ok _ _ hrx _ => rw [hrx]; exact (Nat.lt_succ_self _).ne)
    | tx b tx _ hstep ht => subst ht; exact htx hstep hk hd
    | rx b rx _ hstep ht => subst ht; exact hrx (rxStep_cases hstep) hk hd
    | readv i junk count rx _ hstep ht => subst ht; exact hrx (rxStep_cases hstep) hk hd
    | read i count rx _ hstep ht => subst ht; exact hrx (rxStep_cases hstep) hk hd
    | drop _ _ _ _ _ ht => subst ht; exact ih hk hd hend

end Viamillipede
