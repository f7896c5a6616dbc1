import Viamillipede.SessionOrder

/-! The output of a session in which nothing fails.

Whatever the interleaving, `output_fd` receives the payloads in the order in which
`txingest` dispatched the legs, and all of them when `done_mbox` is set. -/
namespace Viamillipede

open Bytes Transition

variable {W : ℕ} {cfg : SessionConfig}

/-- A worker at the end of its start-up is idle, and has not been found yet. -/
def Rested (s : TxState W) : Prop :=
  ∀ i, (s.workers i).pc.starting = true →
    (s.workers i).state = .idle ∧ s.ingest.pc.found ≠ some i

theorem workerStep_starting {cfg : TxConfig} {w : TxWorker} {i : Fin W}
    {mutex : Option (TxThread W)} {done : Bool} {a : WorkerAction} {m : WorkerMove W}
    (h : workerStep cfg i mutex done w a = some m) (hm : m.worker.pc.starting = true) :
    w.pc.starting = true ∧ m.worker.state = w.state ∨
      w.pc = .setIdle ∧ m.worker.state = .idle := by
  cases a with
  | run =>
    cases hpc : w.pc <;> simp only [workerStep,workerRun,hpc] at h
    all_goals grind [WorkerPc.starting]
  | _ =>
    cases hpc : w.pc <;> simp only [workerStep,hpc,reduceCtorEq] at h
    all_goals grind [WorkerPc.starting,writevReturned]

namespace Rested

theorem init : Rested (txInit W) := nofun

theorem step {cfg : TxConfig} {s t : TxState W} {a : TxAction W} (hs : Rested s)
    (hc : TxControl s) (hwhole : ∀ i, (s.workers i).pc.starting = true → a = .worker i .run)
    (h : txStep cfg s a = some t) : Rested t := by
  intro i hi
  cases txStep_cases h with
  | ingest hstep heffect =>
    have hpc : (t.workers i).pc = (s.workers i).pc := by
      cases heffect.change.worker i with
      | same hw | stored _ _ _ _ hw | marked _ _ hw => rw [hw]
    have hrun := hwhole i (hpc ▸ hi)
    rcases hstep with ⟨rfl,-⟩ | ⟨_,_,rfl,-⟩ <;> cases hrun
  | fillFailed _ ht => subst ht; exact hs i hi
  | worker j b m hab hm ht =>
    subst ht
    rcases eq_or_ne i j with rfl | hne
    · simp only [TxState.moved,Function.update_self] at hi ⊢
      rcases workerStep_starting hm hi with ⟨hold,hstate⟩ | ⟨hpc,hstate⟩
      · exact ⟨hstate.trans (hs i hold).1,(hs i hold).2⟩
      · -- the worker was connecting, and only idle workers are found
        have hcontrol := hc.worker i
        simp only [WorkerControl,hpc] at hcontrol
        refine ⟨hstate,fun hfound => ?_⟩
        have hidle := hc.found i hfound
        simp [hcontrol.1] at hidle
    · have hold : (s.workers i).pc.starting = true := by simpa [TxState.moved,hne] using hi
      have hrun := hab.symm.trans (hwhole i hold)
      cases hrun
      exact absurd rfl hne
  | poll _ ht =>
    obtain ⟨p,hp⟩ := pollStep_eq s
    rw [ht,hp] at hi ⊢
    exact hs i hi

theorem unclobbered {s : TxState W} (hs : Rested s) (hc : TxControl s) (a : TxAction W) :
    Unclobbered s a := by
  intro i _ hhanded
  have hnot : (s.workers i).pc.starting = false := by
    by_contra hstart
    obtain ⟨hidle,hfound⟩ := hs i (by simpa using hstart)
    rcases hhanded with hholds | hprog
    · exact hfound (IngestPc.found_of_holds hholds)
    · simp [TxWorker.progress_of_idle (hc.worker i) hidle] at hprog
  constructor <;> intro hpc <;> simp [hpc,WorkerPc.starting] at hnot

end Rested

/-- No connection is dropped, and no receive worker has come to the end of one. -/
def Undropped (s : Session W) : Prop :=
  ∀ i, s.dropped i = false ∧ (s.rx.workers i).restartme = false

namespace Undropped

theorem init : Undropped (sessionInit W) := fun _ => ⟨rfl,rfl⟩

theorem settle {s : Session W} {rx : RxState W} {i : Fin W} {r : Except Exit RxWorker}
    (hs : Undropped s) (h : s.rx.Settled rx i r)
    (hr : ∀ w, r = .ok w → w.restartme = (s.rx.workers i).restartme) (j : Fin W) :
    (rx.workers j).restartme = false := by
  cases h with
  | ended _ _ hrx => rw [hrx]; exact (hs j).2
  | ok w hw hrx _ =>
    rw [hrx]
    rcases eq_or_ne j i with rfl | hne
    · simpa [RxState.setWorker,hr w hw] using (hs j).2
    · simpa [RxState.setWorker,hne] using (hs j).2

theorem step {s t : Session W} {a : SessionAction W} (hs : Undropped s) (ha : NoFailure a)
    (h : sessionStep cfg s a = some t) : Undropped t := by
  cases sessionStep_cases h with
  | connect i tx rx _ haccept ht =>
    rw [ht]
    exact fun j => ⟨(hs j).1,hs.settle (rxStep_accept haccept).2
      (fun w hw => by rw [RxWorker.accepted_eq hw]) j⟩
  | tx _ _ _ _ ht => rw [ht]; exact hs
  | rx b rx hmay hstep ht =>
    rw [ht]
    have hquiet : b.onSocket = false := by
      cases b <;> first | rfl | cases hmay
    exact fun j => ⟨(hs j).1,(rxStep_sameStream hquiet hstep j).restartme (hs j).2⟩
  | readv i junk count rx _ hstep ht =>
    rw [ht]
    exact fun j => ⟨(hs j).1,hs.settle (rxStep_readv hstep).2.2
      (fun w hw => RxWorker.headerRead_restartme hw) j⟩
  | read i count rx hmay hstep ht =>
    rw [ht]
    have hsome : (s.conn i).take count ≠ [] := by
      rcases hmay with ⟨hpos,hle⟩ | ⟨-,hdropped,-⟩
      · exact List.ne_nil_of_length_pos (by rw [List.length_take]; omega)
      · simp [(hs i).1] at hdropped
    exact fun j => ⟨(hs j).1,hs.settle (rxStep_read hstep).2.2
      (fun w hw => RxWorker.payloadRead_restartme hw hsome) j⟩
  | drop => cases ha.2.2

theorem reachable {ok : Session W → SessionAction W → Prop} (hok : ∀ s a, ok s a → NoFailure a)
    {s : Session W} (hs : Reachable (sessionMachine cfg W) ok s) : Undropped s :=
  hs.invariant (by rintro s rfl; exact init) fun s a _ _ h ha hstep => h.step (hok s a ha) hstep

end Undropped

/-- The steps of a session in which no call fails and no start-up hits a packet. -/
def Orderly (s : Session W) (a : SessionAction W) : Prop :=
  NoFailure a ∧ ∀ b ∈ a.txAction, Unclobbered s.tx b

instance (s : Session W) (a : SessionAction W) : Decidable (Orderly s a) :=
  inferInstanceAs (Decidable (_ ∧ ∀ b ∈ a.txAction, _))

theorem Orderly.harmless {s : Session W} {a : SessionAction W} (ha : Orderly s a) :
    Harmless s a := by
  obtain ⟨⟨hfailing,hheader,hdrops⟩,hunclobbered⟩ := ha
  refine ⟨hfailing,by simp [hdrops],?_,hunclobbered⟩
  cases a with
  | readv i junk count => exact .inl (by simpa [SessionAction.shortHeader] using hheader)
  | _ => trivial

theorem harmless_of_orderly {s : Session W} (hs : Reachable (sessionMachine cfg W) Orderly s) :
    Reachable (sessionMachine cfg W) Harmless s := hs.mono fun _ _ => Orderly.harmless

/-- The steps of a session in which no call fails and start-ups are not interrupted. -/
def Smooth (s : Session W) (a : SessionAction W) : Prop := NoFailure a ∧ WholeStart s a

instance (s : Session W) (a : SessionAction W) : Decidable (Smooth s a) :=
  inferInstanceAs (Decidable (_ ∧ _))

theorem rested_of_smooth {s : Session W} (hs : Reachable (sessionMachine cfg W) Smooth s) :
    Rested s.tx := by
  induction hs with
  | init h => cases h; exact Rested.init
  | @step s t a hr ha h ih =>
    have hc : TxControl s.tx :=
      .reachable (Session.tx_reachable (fun _ _ => trivial) (fun _ _ _ => trivial) hr :
        Reachable (txMachine cfg.tx W) anyStep s.tx)
    cases sessionStep_cases h with
    | connect i tx rx hconnect _ ht =>
      rw [ht]
      exact ih.step hc (fun j hj => by cases ha.2 j hj) hconnect
    | tx b tx _ hstep ht =>
      rw [ht]
      exact ih.step hc (fun j hj => by cases ha.2 j hj; rfl) hstep
    | rx _ _ _ _ ht | readv _ _ _ _ _ _ ht | read _ _ _ _ _ ht | drop _ _ _ _ _ ht =>
      rw [ht]; exact ih

/-- No start-up hits a packet when start-ups are not interrupted. -/
theorem orderly_of_smooth {s : Session W} (hs : Reachable (sessionMachine cfg W) Smooth s) :
    Reachable (sessionMachine cfg W) Orderly s := by
  refine hs.strengthen fun s a hr ha => ⟨ha.1,fun b _ => ?_⟩
  have hc : TxControl s.tx :=
    .reachable (Session.tx_reachable (fun _ _ => trivial) (fun _ _ _ => trivial) hr :
      Reachable (txMachine cfg.tx W) anyStep s.tx)
  exact (rested_of_smooth hr).unclobbered hc b

/-- How many legs are sequenced: those counted in `next_leg`, and one more between the
`writev` of a worker and its increment. -/
def RxState.sequencedLegs {n : ℕ} (s : RxState n) : ℕ :=
  s.advances+if ∃ i, (s.workers i).pc.stage = .wrote then 1 else 0

theorem RxOrder.length_written {n : ℕ} {s : RxState n} (hs : RxOrder s) :
    s.written.length = s.sequencedLegs := by
  unfold RxState.sequencedLegs
  split
  · rename_i hwrote
    obtain ⟨i,hi⟩ := hwrote
    have hbusy := hs.busy i (by simp [hi])
    simp only [hi,RxState.Wrote] at hbusy
    exact hbusy.2.1
  · rename_i hnone
    by_cases hquiet : ∀ i, (s.workers i).pc.stage = .out
    · exact (hs.quiet hquiet).2
    · obtain ⟨i,hi⟩ := not_forall.mp hquiet
      have hbusy := hs.busy i hi
      cases hstage : (s.workers i).pc.stage with
      | out => exact absurd hstage hi
      | writing pos =>
        simp only [hstage,RxState.Wrote] at hbusy
        exact hbusy.2
      | wrote => exact absurd ⟨i,hstage⟩ hnone

/-- What the receiver has written, and how the workers take turns. -/
structure InOrder (cfg : SessionConfig) (s : Session W) : Prop where
  nextLeg : s.rx.nextLeg = UInt64.ofNat s.rx.advances
  dispatched : s.rx.sequencedLegs ≤ s.tx.log.length
  output : (∀ i pos, (s.rx.workers i).pc ≠ .write pos) →
    s.rx.output = payloads ((s.sent cfg).take s.rx.sequencedLegs)
  writing : ∀ i pos, (s.rx.workers i).pc = .write pos →
    ∃ d, s.tx.log[s.rx.sequencedLegs]? = some d ∧ d.worker = i ∧ s.rx.output =
      payloads ((s.sent cfg).take s.rx.sequencedLegs) ++ (cfg.tx.pushed d.packet).payload.take pos
  alone : ∀ i j, (s.rx.workers i).pc.chosen = true → (s.rx.workers j).pc.chosen = true → i = j
  told : s.rx.poll = .returned true → s.rx.doneMbox = true
  done : s.rx.doneMbox = true → s.tx.ended = true ∧ s.rx.output = payloads (s.sent cfg)

theorem inOrder_of_orderly (hW : W ≤ kthreadmax) {s : Session W}
    (hs : Reachable (sessionMachine cfg W) Orderly s) : InOrder cfg s := by
  have hr := harmless_of_orderly hs
  have hopen := Undropped.reachable (fun _ _ ha => ha.1) hs
  have horder := SessionOrder.reachable hW hr
  have hdone := RxDone.reachable (Session.rx_reachable hs)
  have hlen := horder.order.length_written
  have hwritten := horder.written
  rw [hlen] at hwritten
  have hidle (hno : ∀ i pos, (s.rx.workers i).pc ≠ .write pos) :
      s.rx.output = payloads s.rx.written := by
    rcases horder.order.phase.2.2 with hout | ⟨i,pos,hpc,-⟩
    · exact hout
    · exact absurd hpc (hno i pos)
  have hstaged (i : Fin W) (pos : ℕ) (hpc : (s.rx.workers i).pc = .write pos) :
      (s.rx.workers i).pc.stage ≠ .out := by simp [hpc,RxPc.stage]
  refine ⟨horder.order.nextLeg,hlen ▸ horder.written_le,fun hno => by rw [hidle hno,← hwritten],?_,?_,
    fun h => hdone.told (.inr h),fun h => ?_⟩
  · intro i pos hpc
    obtain ⟨d,hd,hworker,hpacket⟩ := horder.staged hr hW (hstaged i pos hpc)
    have hbusy := horder.order.busy i (hstaged i pos hpc)
    simp only [hpc,RxPc.stage,RxState.Wrote] at hbusy
    exact ⟨d,by rw [← hlen,hbusy.2,hd],hworker,by rw [← hwritten,← hpacket,hbusy.1]⟩
  · exact fun i j hi hj =>
      horder.order.unique (horder.legsApart hr hW) ⟨hi,(hopen i).2⟩ ⟨hj,(hopen j).2⟩
  · obtain ⟨hended,hall⟩ := horder.done h
    have hno (i : Fin W) (pos : ℕ) : (s.rx.workers i).pc ≠ .write pos := by
      intro hpc
      obtain ⟨d,hd,-⟩ := horder.staged hr hW (hstaged i pos hpc)
      have hbusy := horder.order.busy i (hstaged i pos hpc)
      simp only [hpc,RxPc.stage,RxState.Wrote] at hbusy
      have hlt := (List.getElem?_eq_some_iff.mp hd).1
      omega
    have htake : (s.sent cfg).take s.rx.sequencedLegs = s.sent cfg :=
      List.take_of_length_le (by simp [Session.sent,← hlen,hall])
    exact ⟨hended,by rw [hidle hno,hwritten,htake]⟩

/-- When no call fails, headers arrive whole and start-ups are not interrupted, the output is
the stream in order, as far as it is sequenced. -/
theorem inOrder_of_smooth (hW : W ≤ kthreadmax) {s : Session W}
    (hs : Reachable (sessionMachine cfg W) Smooth s) : InOrder cfg s :=
  inOrder_of_orderly hW (orderly_of_smooth hs)

/-- One leg of one byte and the end of the stream, from `txingest` to `rx_poll`. -/
def smoothRun : List (SessionAction 1) :=
  .flatten [meet 0,txRun (pushOne (oneByte 7) 41),txRun (workerSteps 0 4),
    [.readv 0 ⟨0,0,0,0,0⟩ 40,.read 0 1],rxRunOf (rxSteps 0 3),rxRunOf [.write 0 1],
    rxRunOf (rxSteps 0 6),txRun (ingestSteps 2),txRun (pushEnd 40),[.readv 0 ⟨0,0,0,0,0⟩ 40],
    rxRunOf (rxSteps 0 3),rxRunOf [.write 0 0],rxRunOf (rxSteps 0 4),rxRunOf [.poll,.poll,.poll]]

theorem inOrder_smoothRun :
    ∃ s ∈ exec (sessionMachine ⟨.plain,.plain,100⟩ 1) Smooth (sessionInit 1) smoothRun,
      s.rx.poll = .returned true ∧ s.rx.output = [7] ∧ InOrder ⟨.plain,.plain,100⟩ s := by
  have hrun : ∃ s ∈ exec (sessionMachine ⟨.plain,.plain,100⟩ 1) Smooth (sessionInit 1) smoothRun,
      s.rx.poll = .returned true ∧ s.rx.output = [7] := by decide +kernel
  obtain ⟨s,hs,hpoll,hout⟩ := hrun
  exact ⟨s,hs,hpoll,hout,inOrder_of_smooth (by decide) (reachable_exec (.init rfl) hs)⟩

end Viamillipede
