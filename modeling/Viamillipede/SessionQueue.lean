import Viamillipede.SessionOutput

/-! The legs on one connection, and the leg that `next_leg` waits for.

A receive worker blocks in the sequencer with its connection unread. This is harmless as
long as the legs on each connection are in the order of their ids. -/
namespace Viamillipede

open Bytes Transition

variable {W : ℕ} {cfg : SessionConfig}

/-- The legs on connection `i`, from the one its receive worker holds through the one it
reads and those in flight to the one being pushed. -/
def Queue (s : Session W) (i : Fin W) (legs : List Packet) : Prop :=
  ∃ part unsent, Packet.code.encodeAll legs =
      Packet.code.encodeAll (s.rx.workers i).current ++ (part ++ (s.conn i ++ unsent)) ∧
    (s.rx.workers i).Pending part ∧ (s.tx.workers i).Unsent legs unsent

/-- The leg ids on each connection increase, and no connection is blocked by another leg
when it has the one that `next_leg` waits for. -/
structure Unblocked (cfg : SessionConfig) (s : Session W) : Prop where
  queue : ∀ i, ∃ legs, Queue s i legs ∧ (legs.map fun p => p.header.legId).Pairwise (· < ·) ∧
    ∀ d, s.tx.log[s.rx.advances]? = some d → d.worker = i →
      legs.head? = some (cfg.tx.pushed d.packet)
  holds : ∀ d, s.tx.log[s.rx.advances]? = some d → (s.rx.workers d.worker).holds = true →
    (s.rx.workers d.worker).packet = cfg.tx.pushed d.packet ∧
      (s.rx.workers d.worker).pkt.legId = s.rx.nextLeg

theorem TxWorker.Unsent.append {w : TxWorker} {legs : List Packet} {unsent : List UInt8}
    (h : w.Unsent legs unsent) (before : List Packet) : w.Unsent (before++legs) unsent := by
  unfold Unsent at h ⊢
  split at h
  · exact h
  · obtain ⟨rest,p,rfl,hp⟩ := h
    exact ⟨before++rest,p,(List.append_assoc _ _ _).symm,hp⟩

/-- Ids in the order of dispatch, as long as they have not wrapped. -/
theorem TxLog.increasing {s : TxState W} (hs : TxLog s) (hlen : s.log.length ≤ 2^64) :
    s.log.Pairwise fun d e => d.packet.header.legId < e.packet.header.legId := by
  rw [List.pairwise_iff_getElem]
  intro k l hk hl hlt
  rw [hs.legId k _ (List.getElem?_eq_getElem hk),hs.legId l _ (List.getElem?_eq_getElem hl),
    UInt64.lt_iff_toNat_lt,toNat_word (by omega),toNat_word (by omega)]
  exact hlt

/-- Without failures, torn headers and clobbered start-ups, the connections cannot block each
other as long as leg ids do not wrap. -/
theorem unblocked_of_orderly (hW : W ≤ kthreadmax) {s : Session W}
    (hs : Reachable (sessionMachine cfg W) Orderly s) (hlen : s.tx.log.length ≤ 2^64) :
    Unblocked cfg s := by
  have hr := harmless_of_orderly hs
  have horder := SessionOrder.reachable hW hr
  have hlog := TxLog.reachable (tx_reachable_of_harmless hr)
  have hhead {d : Dispatch W} (hd : s.tx.log[s.rx.advances]? = some d) :
      Lanes.lane Dispatch.worker d.worker (s.tx.log.drop s.rx.advances) =
        d :: Lanes.lane Dispatch.worker d.worker (s.tx.log.drop (s.rx.advances+1)) := by
    obtain ⟨hlt,rfl⟩ := List.getElem?_eq_some_iff.mp hd
    rw [List.drop_eq_getElem_cons hlt,Lanes.lane,List.filter_cons_of_pos (by simp)]
    rfl
  have hahead (i : Fin W) : ∃ legs part lost unsent, OnConnection cfg s i legs part lost unsent ∧
      (Lanes.lane Dispatch.worker i (s.tx.log.drop s.rx.advances)).map
        (fun d => cfg.tx.pushed d.packet) = (s.rx.workers i).current ++ legs := by
    obtain ⟨legs,part,lost,unsent,h⟩ := exists_onConnection hr i
    exact ⟨legs,part,lost,unsent,h,horder.ahead h⟩
  constructor
  · intro i
    obtain ⟨legs,part,lost,unsent,h,hsplit⟩ := hahead i
    obtain rfl : lost = [] := h.opened (Undropped.reachable (fun _ _ ha => ha.1) hs i).1
    refine ⟨(s.rx.workers i).current ++ legs,⟨part,unsent,?_,h.pending,h.unsent.append _⟩,?_,?_⟩
    · simpa using h.bytes
    · rw [← hsplit,List.map_map]
      exact List.pairwise_map.mpr ((hlog.increasing hlen).sublist
        (List.filter_sublist.trans (List.drop_sublist _ _)))
    · rintro d hd rfl
      rw [← hsplit,hhead hd]
      rfl
  · intro d hd hi
    obtain ⟨legs,part,lost,unsent,-,hsplit⟩ := hahead d.worker
    rw [hhead hd,RxWorker.current,if_pos hi] at hsplit
    have hpacket : (s.rx.workers d.worker).packet = cfg.tx.pushed d.packet :=
      (List.cons.inj hsplit).1.symm
    refine ⟨hpacket,?_⟩
    have hheader : (s.rx.workers d.worker).pkt = d.packet.header := congrArg Packet.header hpacket
    rw [hheader,hlog.legId _ d hd,horder.order.nextLeg]

/-- Two legs pushed on one connection, of which the receive worker holds the first. -/
def queueRun : List (SessionAction 1) :=
  .flatten [meet 0,txRun (pushOne (oneByte 7) 41),txRun (workerSteps 0 4),txRun (ingestSteps 2),
    txRun (pushOne (oneByte 8) 41),[.readv 0 ⟨0,0,0,0,0⟩ 40,.read 0 1]]

theorem unblocked_queueRun :
    ∃ s ∈ exec (sessionMachine ⟨.plain,.plain,100⟩ 1) Orderly (sessionInit 1) queueRun,
      (s.rx.workers 0).holds = true ∧ (s.conn 0).length = 41 ∧ Unblocked ⟨.plain,.plain,100⟩ s := by
  have hrun : ∃ s ∈ exec (sessionMachine ⟨.plain,.plain,100⟩ 1) Orderly (sessionInit 1) queueRun,
      (s.rx.workers 0).holds = true ∧ (s.conn 0).length = 41 ∧ s.tx.log.length = 2 := by
    decide +kernel
  obtain ⟨s,hs,hholds,hconn,hlen⟩ := hrun
  exact ⟨s,hs,hholds,hconn,unblocked_of_orderly (by decide) (reachable_exec (.init rfl) hs)
    (by rw [hlen]; decide)⟩

/-- Leg 1 is handed to a worker that is still at 289. It goes out as leg 0, which another
connection has already delivered. -/
def blockedRun : List (SessionAction 2) :=
  .flatten [meet 0,txRun (workerSteps 1 1),rxRunOf (rxSteps 1 2),[.connect 1],
    txRun (workerSteps 1 2),txRun (ingestSteps 6),txRun [.fill (oneByte 7)],
    txRun (ingestSteps 14),txRun [.fill (oneByte 8)],txRun (ingestSteps 5),
    txRun (workerSteps 1 11),txRun [.worker 1 (.accept 41)],txRun (workerSteps 0 9),
    txRun [.worker 0 (.accept 41)],[.readv 0 ⟨0,0,0,0,0⟩ 40,.read 0 1],rxRunOf (rxSteps 0 3),
    rxRunOf [.write 0 1],rxRunOf (rxSteps 0 5),rxRunOf (rxSteps 1 1),
    [.readv 1 ⟨0,0,0,0,0⟩ 40,.read 1 1],rxRunOf (rxSteps 1 3)]

/-- The receive worker of the connection of leg 1 sleeps on leg 0, while `next_leg` is 1. -/
theorem blocked_of_blockedRun :
    (∃ s ∈ exec (sessionMachine ⟨.plain,.plain,100⟩ 2) (fun _ a => NoFailure a) (sessionInit 2)
        blockedRun, (s.rx.workers 1).pc = .asleep ∧ (s.rx.workers 1).pkt.legId = 0 ∧
      s.rx.nextLeg = 1 ∧ s.rx.output = [7] ∧ s.tx.log.map Dispatch.worker = [0,1]) ∧
    ¬ ∀ s, Reachable (sessionMachine ⟨.plain,.plain,100⟩ 2) (fun _ a => NoFailure a) s →
      s.tx.log.length ≤ 2^64 → Unblocked ⟨.plain,.plain,100⟩ s := by
  have hblocked : ∃ s ∈ exec (sessionMachine ⟨.plain,.plain,100⟩ 2) (fun _ a => NoFailure a)
      (sessionInit 2) blockedRun, (s.rx.workers 1).pc = .asleep ∧
        (s.rx.workers 1).pkt.legId = 0 ∧ s.rx.nextLeg = 1 ∧ s.rx.output = [7] ∧
        s.tx.log.map Dispatch.worker = [0,1] := by decide +kernel
  have hcounted : ∃ s ∈ exec (sessionMachine ⟨.plain,.plain,100⟩ 2) (fun _ a => NoFailure a)
      (sessionInit 2) blockedRun, (s.rx.workers 1).holds = true ∧
        (s.rx.workers 1).pkt.legId ≠ s.rx.nextLeg ∧ s.tx.log.length = 2 ∧
        (s.tx.log[s.rx.advances]?).map Dispatch.worker = some 1 := by decide +kernel
  refine ⟨hblocked,fun hall => ?_⟩
  obtain ⟨s,hs,hholds,hid,hlen,hnext⟩ := hcounted
  obtain ⟨d,hd,hworker⟩ := Option.map_eq_some_iff.mp hnext
  have hfree := hall s (reachable_exec (.init rfl) hs) (by rw [hlen]; decide)
  exact hid (hworker ▸ (hfree.holds d hd (hworker ▸ hholds)).2)

end Viamillipede
