import Viamillipede.SessionLink

/-! The legs that the receive workers hold against the legs in the order of their dispatch.

A worker holds the first leg of its connection that `next_leg` has not passed. As the socket
buffers bound how far the transmitter is ahead, leg ids tell these legs apart even when
they wrap. -/
namespace Viamillipede

open Bytes Transition

variable {W : ℕ} {cfg : SessionConfig}

section Receiver

variable {n : ℕ} {cfg : RxConfig}

/-- The end of the stream is behind `done_mbox`, and `done_mbox` behind the answer of
`rx_poll`. -/
structure RxDone (s : RxState n) : Prop where
  ending : ∀ i, (s.workers i).pc = .doneLock ∨ (s.workers i).pc = .doneSet →
    (s.workers i).pkt.opcode = endOfMillipede
  told : s.poll = .unlock true ∨ s.poll = .returned true → s.doneMbox = true

namespace RxDone

theorem init : RxDone (rxInit n) where
  ending _ h := by rcases h with h | h <;> cases h
  told h := by rcases h with h | h <;> cases h

theorem of_update {s t : RxState n} {i : Fin n} {w : RxWorker} (hs : RxDone s)
    (hworkers : t.workers = Function.update s.workers i w) (hpoll : t.poll = s.poll)
    (hdone : s.doneMbox = true → t.doneMbox = true)
    (hw : w.pc = .doneLock ∨ w.pc = .doneSet → w.pkt.opcode = endOfMillipede) : RxDone t where
  ending j := by
    rw [hworkers]
    rcases eq_or_ne j i with rfl | hne
    · rwa [Function.update_self]
    · rw [Function.update_of_ne hne]; exact hs.ending j
  told h := hdone (hs.told (hpoll ▸ h))

theorem move {s t : RxState n} (hs : RxDone s) (h : RxMove cfg s t) : RxDone t := by
  cases h with
  | ended e => exact ⟨hs.ending,hs.told⟩
  | fetch i w hfetch =>
    refine hs.of_update rfl rfl id fun hw => ?_
    rcases hfetch.pc.2 with hpc | hpc | hpc <;> rcases hw with hw | hw <;> rw [hw] at hpc <;>
      cases hpc
  | acquire i pc _ hpc =>
    refine hs.of_update rfl rfl id fun hw => hs.ending i ?_
    simp only [List.mem_cons,Prod.mk.injEq,List.not_mem_nil,or_false] at hpc
    rcases hpc with ⟨hpc,rfl⟩ | ⟨hpc,rfl⟩ | ⟨hpc,rfl⟩ | ⟨hpc,rfl⟩ <;> simp_all
  | opcode i pc sum hpc hto =>
    refine hs.of_update rfl rfl id fun hw => ?_
    rcases hto with ⟨_,hend⟩ | ⟨rfl,_⟩
    · exact hend
    · rcases hw with hw | hw <;> cases hw
  | done i hpc => exact hs.of_update rfl rfl (fun _ => rfl) fun h => by rcases h with h | h <;> cases h
  | release i pc hpc =>
    refine hs.of_update rfl rfl id fun hw => ?_
    simp only [List.mem_cons,Prod.mk.injEq,List.not_mem_nil,or_false] at hpc
    rcases hpc with ⟨_,rfl⟩ | ⟨_,rfl⟩ <;> rcases hw with hw | hw <;> cases hw
  | pass i hpc | block i hpc | sleep i hpc | wake i hpc | restart i hpc | enter i hpc
  | writeSome i _ _ hpc | writeAll i _ _ hpc | advance i hpc =>
    exact hs.of_update rfl rfl id fun h => by rcases h with h | h <;> cases h
  | broadcast i hpc =>
    have hgo : RxDone (s.goto i .inner) :=
      hs.of_update rfl rfl id fun h => by rcases h with h | h <;> cases h
    refine ⟨fun j hj => ?_,hgo.told⟩
    obtain ⟨-,hw⟩ | ⟨-,hw⟩ := (s.goto i .inner).awaken_cases j <;> rw [hw] at hj ⊢
    · rcases hj with hj | hj <;> cases hj
    · exact hgo.ending j hj
  | poll t h =>
    cases hpoll : s.poll <;> simp only [rxPollStep,hpoll,Option.some.injEq] at h
    case lock => split at h <;> cases h; exact ⟨hs.ending,by simp⟩
    case read => subst h; exact ⟨hs.ending,by simp⟩
    case unlock done =>
      subst h
      exact ⟨hs.ending,fun h => hs.told (.inl (by simpa [hpoll] using h))⟩
    case returned done => subst h; exact ⟨hs.ending,by simp⟩

theorem reachable {ok : RxState n → RxAction n → Prop} {s : RxState n}
    (hs : Reachable (rxMachine cfg n) ok s) : RxDone s :=
  hs.invariant (by rintro s rfl; exact init) fun _ _ _ _ h _ hstep => h.move (rxStep_cases hstep)

end RxDone

/-- `k` of the packets that a worker has carried to the sequencer are counted in `next_leg`;
it holds the one after them, or there is none. -/
def RxWorker.Sequenced (w : RxWorker) (k : ℕ) : Prop :=
  w.carried.length = k+(if w.holds then 1 else 0) ∧
    (w.holds = true → w.carried.getLast? = some w.packet)

/-- The packet that a worker holds, if any. -/
def RxWorker.current (w : RxWorker) : List Packet := if w.holds then [w.packet] else []

namespace RxWorker.Sequenced

variable {w w' : RxWorker} {k : ℕ}

theorem goto (hw : w.Sequenced k) (pc : RxPc) (h : { w with pc := pc }.holds = w.holds) :
    { w with pc := pc }.Sequenced k := by
  rw [Sequenced,h]
  exact hw

/-- The packet held is counted. -/
theorem advance (hw : w.Sequenced k) (hpc : w.pc = .advance) (hrestart : w.restartme = false) :
    { w with pc := .advUnlock }.Sequenced (k+1) := by
  have hlen := hw.1
  simp only [RxWorker.holds,hpc,hrestart] at hlen
  refine ⟨by simpa [RxWorker.holds,RxPc.holding,RxPc.chosen] using hlen,fun h => ?_⟩
  cases h

theorem sequence_of {v : RxWorker} (h : v.sequence cfg = .ok w') (hv : v.carried.length = k) :
    w'.Sequenced k := by
  rw [RxWorker.sequence_eq h]
  cases hrestart : v.restartme
  · simp [Sequenced,RxWorker.holds,RxPc.holding,hv,RxWorker.packet]
  · simp [Sequenced,RxWorker.holds,RxPc.holding,hv]

theorem fetch (hw : w.Sequenced k) (h : RxFetch cfg w w') (hkeep : w.carried <+: w'.carried) :
    w'.Sequenced k := by
  have hout : w.holds = false := by
    have hpc := h.pc.1
    cases hw : w.pc <;> simp_all [RxPc.fetching,RxWorker.holds,RxPc.holding,RxPc.chosen]
  have hlen : w.carried.length = k := by simpa [hout] using hw.1
  have hsame {v : RxWorker} (hpc : v.pc.holding = false) (hcarried : v.carried = w.carried) :
      v.Sequenced k := by
    simp [Sequenced,RxWorker.holds,hpc,hcarried,hlen]
  cases h with
  | start _ | quit _ | listen _ | next _ _ | leave _ => exact hsame rfl rfl
  | accept phrase _ _ h =>
    rw [RxWorker.accepted_eq h] at hkeep ⊢
    exact hsame rfl (List.prefix_nil.mp hkeep).symm
  | header junk bs _ _ _ h =>
    obtain ⟨v,rfl,⟨-,hseq⟩ | ⟨-,rfl⟩⟩ := RxWorker.headerRead_cases h
    · exact sequence_of hseq hlen
    · exact hsame rfl rfl
  | payload bs _ hpc _ h =>
    obtain ⟨-,hseq⟩ | ⟨-,v,rfl,⟨-,hseq⟩ | ⟨-,rfl⟩⟩ := RxWorker.payloadRead_cases h
    · exact sequence_of hseq hlen
    · exact sequence_of hseq hlen
    · exact hsame (by rw [hpc]; rfl) rfl

end RxWorker.Sequenced

/-- What the workers have carried stays in step with `next_leg`; `count a i` is how many legs
of connection `i` are among the first `a`. -/
theorem sequenced_of_move {s t : RxState n} {count : ℕ → Fin n → ℕ} (h : RxMove cfg s t)
    (hs : ∀ i, (s.workers i).Sequenced (count s.advances i))
    (hkeep : ∀ i, (s.workers i).carried <+: (t.workers i).carried)
    (hadvance : ∀ i, (s.workers i).pc = .advance → (s.workers i).restartme = false ∧
      count (s.advances+1) = Function.update (count s.advances) i (count s.advances i+1)) (j : Fin n) :
    (t.workers j).Sequenced (count t.advances j) := by
  have hgoto (i : Fin n) (pc : RxPc)
      (hholds : { s.workers i with pc := pc }.holds = (s.workers i).holds) (j : Fin n) :
      ((s.goto i pc).workers j).Sequenced (count s.advances j) := by
    rcases eq_or_ne j i with rfl | hne
    · simpa [RxState.goto,RxState.setWorker] using (hs j).goto pc hholds
    · simpa [RxState.goto,RxState.setWorker,hne] using hs j
  cases h with
  | ended e => exact hs j
  | fetch i w hfetch =>
    have hw := hkeep j
    simp only [RxState.setWorker] at hw ⊢
    rcases eq_or_ne j i with rfl | hne
    · rw [Function.update_self] at hw ⊢
      exact (hs j).fetch hfetch hw
    · rw [Function.update_of_ne hne]
      exact hs j
  | acquire i pc _ hpc =>
    refine hgoto i pc ?_ j
    simp only [List.mem_cons,Prod.mk.injEq,List.not_mem_nil,or_false] at hpc
    rcases hpc with ⟨hpc,rfl⟩ | ⟨hpc,rfl⟩ | ⟨hpc,rfl⟩ | ⟨hpc,rfl⟩ <;>
      simp [RxWorker.holds,hpc,RxPc.holding,RxPc.chosen]
  | opcode i pc sum hpc hto =>
    refine hgoto i pc ?_ j
    rcases hto with ⟨rfl,_⟩ | ⟨rfl,_⟩ <;> simp [RxWorker.holds,hpc,RxPc.holding,RxPc.chosen]
  | release i pc hpc =>
    refine hgoto i pc ?_ j
    simp only [List.mem_cons,Prod.mk.injEq,List.not_mem_nil,or_false] at hpc
    rcases hpc with ⟨hpc,rfl⟩ | ⟨hpc,rfl⟩ <;> simp [RxWorker.holds,hpc,RxPc.holding,RxPc.chosen]
  | pass i hpc | block i hpc | sleep i hpc | wake i hpc | enter i hpc | writeSome i _ _ hpc
  | writeAll i _ _ hpc | done i hpc =>
    exact hgoto i _ (by simp [RxWorker.holds,hpc,RxPc.holding,RxPc.chosen]) j
  | restart i hpc hrestart => exact hgoto i _ (by simp [RxWorker.holds,hrestart]) j
  | advance i hpc =>
    obtain ⟨hrestart,hcount⟩ := hadvance i hpc
    simp only [hcount,RxState.goto,RxState.setWorker]
    rcases eq_or_ne j i with rfl | hne
    · simpa using (hs j).advance hpc hrestart
    · simpa [hne] using hs j
  | broadcast i hpc =>
    have hj := hgoto i .inner (by simp [RxWorker.holds,hpc,RxPc.holding,RxPc.chosen]) j
    obtain ⟨hsleep,hw⟩ | ⟨-,hw⟩ := (s.goto i .inner).awaken_cases j <;> rw [hw]
    · exact hj.goto .relock (by simp [RxWorker.holds,hsleep,RxPc.holding])
    · exact hj
  | poll t h =>
    obtain ⟨p,m,rfl⟩ := rxPollStep_eq h
    exact hs j

/-- What a step of the receiver writes to its history, and when it sets `done_mbox`. -/
theorem written_of_move {s t : RxState n} (h : RxMove cfg s t) :
    (t.written = s.written ∨ ∃ i pos, (s.workers i).pc = .write pos ∧
      t.written = s.written++[(s.workers i).packet]) ∧
    (t.doneMbox = s.doneMbox ∨ t.written = s.written ∧ ∃ i, (s.workers i).pc = .doneSet) := by
  cases h with
  | writeAll i pos _ hpc => exact ⟨.inr ⟨i,pos,hpc,rfl⟩,.inl rfl⟩
  | done i hpc => exact ⟨.inl rfl,.inr ⟨rfl,i,hpc⟩⟩
  | poll t h =>
    obtain ⟨p,m,rfl⟩ := rxPollStep_eq h
    exact ⟨.inl rfl,.inl rfl⟩
  | _ => exact ⟨.inl rfl,.inl rfl⟩

end Receiver

namespace Session

/-- How many legs of connection `i` are among the first `a` dispatched. -/
def counted (s : Session W) (a : ℕ) (i : Fin W) : ℕ :=
  (Lanes.lane Dispatch.worker i (s.tx.log.take a)).length

/-- The packets of the stream as they go on the wire, in the order of dispatch. -/
def sent (cfg : SessionConfig) (s : Session W) : List Packet :=
  s.tx.log.map fun d => cfg.tx.pushed d.packet

theorem stream_split (s : Session W) (a : ℕ) (i : Fin W) : s.stream cfg i =
    (Lanes.lane Dispatch.worker i (s.tx.log.take a)).map (fun d => cfg.tx.pushed d.packet) ++
      (Lanes.lane Dispatch.worker i (s.tx.log.drop a)).map (fun d => cfg.tx.pushed d.packet) := by
  rw [← List.map_append,← Lanes.lane_append,List.take_append_drop,stream,TxState.lane,List.map_map]
  rfl

end Session

/-- The receiver against the history of the transmitter. -/
structure SessionOrder (cfg : SessionConfig) (s : Session W) : Prop where
  order : RxOrder s.rx
  sequenced : ∀ i, (s.rx.workers i).Sequenced (s.counted s.rx.advances i)
  written : s.rx.written = (s.sent cfg).take s.rx.written.length
  done : s.rx.doneMbox = true → s.tx.ended = true ∧ s.rx.written.length = s.tx.log.length

/-- The leg that worker `i` holds: number `k` of the stream, and the first of its connection
that `next_leg` has not passed. -/
structure Held (cfg : SessionConfig) (s : Session W) (i : Fin W) (k : ℕ) (d : Dispatch W) :
    Prop where
  getElem : s.tx.log[k]? = some d
  le : s.rx.advances ≤ k
  worker : d.worker = i
  packet : (s.rx.workers i).packet = cfg.tx.pushed d.packet
  first : ∀ j e, s.rx.advances ≤ j → j < k → s.tx.log[j]? = some e → e.worker ≠ i

namespace SessionOrder

theorem init : SessionOrder cfg (sessionInit W) where
  order := RxOrder.init
  sequenced _ := ⟨rfl,nofun⟩
  written := rfl
  done := nofun

variable {s : Session W}

theorem written_le (hs : SessionOrder cfg s) : s.rx.written.length ≤ s.tx.log.length := by
  have hlen := congrArg List.length hs.written
  simp only [Session.sent,List.length_take,List.length_map] at hlen
  omega

theorem advances_le (hs : SessionOrder cfg s) : s.rx.advances ≤ s.tx.log.length :=
  hs.order.phase.1.trans hs.written_le

/-- What of a connection `next_leg` has not passed is held, or on the connection. -/
theorem ahead (hs : SessionOrder cfg s) {i : Fin W} {legs : List Packet}
    {part lost unsent : List UInt8} (h : OnConnection cfg s i legs part lost unsent) :
    (Lanes.lane Dispatch.worker i (s.tx.log.drop s.rx.advances)).map
      (fun d => cfg.tx.pushed d.packet) = (s.rx.workers i).current ++ legs := by
  obtain ⟨hlen,hlast⟩ := hs.sequenced i
  have hstream := (s.stream_split s.rx.advances i).symm.trans h.stream
  unfold RxWorker.current
  cases hi : (s.rx.workers i).holds with
  | false =>
    exact List.append_inj_right hstream (by simpa [Session.counted,hi] using hlen.symm)
  | true =>
    obtain ⟨before,hbefore⟩ := List.getLast?_eq_some_iff.mp (hlast hi)
    rw [hbefore,List.append_assoc] at hstream
    rw [hbefore,if_pos hi,List.length_append,List.length_singleton,Session.counted] at hlen
    exact List.append_inj_right hstream (by simp; omega)

/-- The transmitter is less than a whole round of leg ids ahead. -/
theorem length_lt (hs : SessionOrder cfg s) (hr : Reachable (sessionMachine cfg W) Harmless s)
    (hW : W ≤ kthreadmax) : s.tx.log.length < s.rx.advances+2^64 := by
  have hlane (i : Fin W) :
      Millipacket.sizeof*(Lanes.lane Dispatch.worker i (s.tx.log.drop s.rx.advances)).length ≤
        cfg.sockbuf.toNat+3*(Millipacket.sizeof+kfootsize)+Millipacket.sizeof := by
    obtain ⟨legs,part,lost,unsent,h⟩ := exists_onConnection hr i
    have hle := h.backlog_le (.reachable (heeded_of_harmless hr)) (.reachable (tx_reachable_of_harmless hr))
    have hahead := congrArg List.length (hs.ahead h)
    have hcurrent : (s.rx.workers i).current.length ≤ 1 := by
      unfold RxWorker.current
      split <;> simp
    rw [List.length_map,List.length_append] at hahead
    have hone := Nat.mul_le_mul_left Millipacket.sizeof hcurrent
    rw [hahead,Nat.mul_add]
    omega
  have hall := Lanes.mul_length_le hlane
  have hbuf : cfg.sockbuf.toNat < 2^64 := cfg.sockbuf.toNat_lt
  have hcard := Nat.mul_le_mul_right
    (cfg.sockbuf.toNat+3*(Millipacket.sizeof+kfootsize)+Millipacket.sizeof) hW
  rw [Fintype.card_fin,List.length_drop] at hall
  simp only [Millipacket.sizeof,kfootsize,kthreadmax] at hall hcard
  omega

theorem held (hs : SessionOrder cfg s) (hr : Reachable (sessionMachine cfg W) Harmless s)
    {i : Fin W} (hi : (s.rx.workers i).holds = true) : ∃ k d, Held cfg s i k d := by
  obtain ⟨legs,part,lost,unsent,h⟩ := exists_onConnection hr i
  have hahead := hs.ahead h
  simp only [RxWorker.current,if_pos hi,List.singleton_append] at hahead
  obtain ⟨d,rest,hd,hpacket,-⟩ := List.map_eq_cons_iff.mp hahead
  obtain ⟨pre,post,hsplit,hpre,hworker,-⟩ := Lanes.exists_split hd
  have hget (j : ℕ) : s.tx.log[s.rx.advances+j]? = (pre++d::post)[j]? := by
    rw [← hsplit,List.getElem?_drop]
  refine ⟨s.rx.advances+pre.length,d,by simp [hget],Nat.le_add_right _ _,hworker,hpacket.symm,?_⟩
  intro j e hj hlt he hworker
  obtain ⟨j,rfl⟩ := Nat.exists_eq_add_of_le hj
  rw [hget,List.getElem?_append_left (by omega)] at he
  have hmem : e ∈ Lanes.lane Dispatch.worker i pre :=
    Lanes.mem_lane.mpr ⟨List.mem_of_getElem? he,hworker⟩
  simp [hpre] at hmem

/-- Leg ids tell the positions of legs that are not counted yet apart. -/
theorem held_inj (hs : SessionOrder cfg s) (hr : Reachable (sessionMachine cfg W) Harmless s)
    (hW : W ≤ kthreadmax) {i : Fin W} {k l : ℕ} {d : Dispatch W} (h : Held cfg s i k d)
    (hl : s.rx.advances ≤ l) (hlt : l ≤ s.tx.log.length)
    (hid : (s.rx.workers i).pkt.legId = UInt64.ofNat l) : k = l := by
  have hlegId := (TxLog.reachable (tx_reachable_of_harmless hr)).legId k d h.getElem
  have hheader : (s.rx.workers i).pkt = d.packet.header := congrArg Packet.header h.packet
  have hk : k < s.tx.log.length := (List.getElem?_eq_some_iff.mp h.getElem).1
  have hle := h.le
  have hwindow := hs.length_lt hr hW
  rw [hheader,hlegId] at hid
  have hnat := congrArg UInt64.toNat hid
  simp only [UInt64.toNat_ofNat'] at hnat
  omega

theorem legsApart (hs : SessionOrder cfg s) (hr : Reachable (sessionMachine cfg W) Harmless s)
    (hW : W ≤ kthreadmax) : LegsApart s.rx := by
  intro i j hne hi hj hid
  obtain ⟨k,d,hk⟩ := hs.held hr hi
  obtain ⟨l,e,hl⟩ := hs.held hr hj
  have hheader : (s.rx.workers j).pkt = e.packet.header := congrArg Packet.header hl.packet
  have hlegId := (TxLog.reachable (tx_reachable_of_harmless hr)).legId l e hl.getElem
  obtain rfl : k = l := hs.held_inj hr hW hk hl.le (List.getElem?_eq_some_iff.mp hl.getElem).1.le
    (by rw [hid,hheader,hlegId])
  obtain rfl : d = e := Option.some.inj (hk.getElem.symm.trans hl.getElem)
  exact hne (hk.worker.symm.trans hl.worker)

/-- The worker past the test holds the leg that `next_leg` counts next. -/
theorem chosen (hs : SessionOrder cfg s) (hr : Reachable (sessionMachine cfg W) Harmless s)
    (hW : W ≤ kthreadmax) {i : Fin W} (hchosen : (s.rx.workers i).pc.chosen = true)
    (hrestart : (s.rx.workers i).restartme = false) :
    ∃ d, s.tx.log[s.rx.advances]? = some d ∧ d.worker = i ∧
      (s.rx.workers i).packet = cfg.tx.pushed d.packet := by
  obtain ⟨k,d,h⟩ := hs.held hr (show (s.rx.workers i).holds = true by
    simp [RxWorker.holds,RxPc.holding_of_chosen hchosen,hrestart])
  obtain rfl := hs.held_inj hr hW h le_rfl hs.advances_le
    (by rw [hs.order.chosen i hchosen hrestart,hs.order.nextLeg])
  exact ⟨d,h.getElem,h.worker,h.packet⟩

/-- The same for a worker that has begun to write. -/
theorem staged (hs : SessionOrder cfg s) (hr : Reachable (sessionMachine cfg W) Harmless s)
    (hW : W ≤ kthreadmax) {i : Fin W} (hi : (s.rx.workers i).pc.stage ≠ .out) :
    ∃ d, s.tx.log[s.rx.advances]? = some d ∧ d.worker = i ∧
      (s.rx.workers i).packet = cfg.tx.pushed d.packet :=
  hs.chosen hr hW (RxPc.chosen_of_stage hi) (hs.order.steady i hi)

/-- A step of the transmitter. -/
theorem of_tx {t : Session W} (hs : SessionOrder cfg s) (hrx : t.rx = s.rx)
    (hlog : ∃ new, t.tx.log = s.tx.log++new)
    (hended : s.tx.ended = true → t.tx.ended = true ∧ t.tx.log = s.tx.log) :
    SessionOrder cfg t where
  order := hrx ▸ hs.order
  sequenced i := by
    obtain ⟨new,hnew⟩ := hlog
    rw [hrx,Session.counted,hnew,List.take_append_of_le_length hs.advances_le]
    exact hs.sequenced i
  written := by
    obtain ⟨new,hnew⟩ := hlog
    have hle : s.rx.written.length ≤ (s.tx.log.map fun d => cfg.tx.pushed d.packet).length := by
      simpa using hs.written_le
    rw [hrx,Session.sent,hnew,List.map_append,List.take_append_of_le_length hle]
    exact hs.written
  done h := by
    rw [hrx] at h ⊢
    obtain ⟨he,hlen⟩ := hs.done h
    exact ⟨(hended he).1,by rw [(hended he).2,hlen]⟩

/-- A step of the receiver. -/
theorem of_rx {t : Session W} (hs : SessionOrder cfg s)
    (hr : Reachable (sessionMachine cfg W) Harmless s) (hW : W ≤ kthreadmax) (htx : t.tx = s.tx)
    (h : RxMove cfg.rx s.rx t.rx)
    (hkeep : ∀ i, (s.rx.workers i).carried <+: (t.rx.workers i).carried) : SessionOrder cfg t := by
  have hwritten : t.rx.written = (t.sent cfg).take t.rx.written.length := by
    rw [Session.sent,htx]
    rcases (written_of_move h).1 with hsame | ⟨i,pos,hpc,hnew⟩
    · rw [hsame]; exact hs.written
    · have hstage : (s.rx.workers i).pc.stage ≠ .out := by simp [hpc,RxPc.stage]
      obtain ⟨d,hd,-,hpacket⟩ := hs.staged hr hW hstage
      have hlen : s.rx.written.length = s.rx.advances := by
        have hbusy := hs.order.busy i hstage
        simp only [hpc,RxPc.stage,RxState.Wrote] at hbusy
        exact hbusy.2
      have hold := hs.written
      rw [Session.sent,hlen] at hold
      simp [hnew,hlen,List.take_add_one,hd,hpacket,← hold]
  have hcount (i : Fin W) (hpc : (s.rx.workers i).pc = .advance) :
      (s.rx.workers i).restartme = false ∧ s.counted (s.rx.advances+1) =
        Function.update (s.counted s.rx.advances) i (s.counted s.rx.advances i+1) := by
    have hstage : (s.rx.workers i).pc.stage ≠ .out := by simp [hpc,RxPc.stage]
    obtain ⟨d,hd,hworker,-⟩ := hs.staged hr hW hstage
    refine ⟨hs.order.steady i hstage,funext fun j => ?_⟩
    have htake : s.tx.log.take (s.rx.advances+1) = s.tx.log.take s.rx.advances++[d] := by
      simp [List.take_add_one,hd]
    rw [Session.counted,htake,Lanes.lane_append]
    rcases eq_or_ne j i with rfl | hne
    · simp [Session.counted,Lanes.lane_singleton_self hworker]
    · have hnot : d.worker ≠ j := fun hj => hne (hj.symm.trans hworker)
      simp [Session.counted,Lanes.lane_singleton_ne hnot,hne]
  refine ⟨hs.order.move (hs.legsApart hr hW) h,fun j => ?_,hwritten,fun hdone => ?_⟩
  · have hcounted : t.counted = s.counted := by
      funext a i
      rw [Session.counted,htx,Session.counted]
    rw [hcounted]
    exact sequenced_of_move h hs.sequenced hkeep hcount j
  · have hle := congrArg List.length hwritten
    simp only [Session.sent,htx,List.length_take,List.length_map] at hle
    rw [htx]
    obtain ⟨hwrote,hset | ⟨hsame,i,hpc⟩⟩ := written_of_move h
    · obtain ⟨hended,hlen⟩ := hs.done (hset ▸ hdone)
      refine ⟨hended,?_⟩
      rcases hwrote with hsame | ⟨_,_,_,hnew⟩
      · rw [hsame,hlen]
      · rw [hnew,List.length_append,List.length_singleton] at hle ⊢
        omega
    · -- the worker that sets `done_mbox` has written the end of the stream
      have hstage : (s.rx.workers i).pc.stage ≠ .out := by simp [hpc,RxPc.stage]
      obtain ⟨d,hd,-,hpacket⟩ := hs.staged hr hW hstage
      have hbusy := hs.order.busy i hstage
      simp only [hpc,RxPc.stage,RxState.Wrote] at hbusy
      have hheader : (s.rx.workers i).pkt = d.packet.header := congrArg Packet.header hpacket
      have hop := (RxDone.reachable (Session.rx_reachable hr)).ending i (.inr hpc)
      rw [hheader] at hop
      obtain ⟨hended,hlen⟩ :=
        (TxLog.reachable (tx_reachable_of_harmless hr)).length_of_end hd hop
      exact ⟨hended,by rw [hsame,hbusy.2.1,hlen]⟩

theorem step {t : Session W} {a : SessionAction W} (hs : SessionOrder cfg s)
    (hr : Reachable (sessionMachine cfg W) Harmless s) (hW : W ≤ kthreadmax) (ha : Harmless s a)
    (h : sessionStep cfg s a = some t) : SessionOrder cfg t := by
  have hlog := TxLog.reachable (tx_reachable_of_harmless hr)
  have hsame (i : Fin W) {t : RxState W} {r : Except Exit RxWorker} (hset : s.rx.Settled t i r)
      (hr : ∀ w, r = .ok w → (s.rx.workers i).carried <+: w.carried) (j : Fin W) :
      (s.rx.workers j).carried <+: (t.workers j).carried := by
    cases hset with
    | ended _ _ ht => rw [ht]
    | ok w hw ht _ =>
      rw [ht]
      rcases eq_or_ne j i with rfl | hne
      · simpa [RxState.setWorker] using hr w hw
      · simp [RxState.setWorker,hne]
  cases sessionStep_cases h with
  | connect i tx rx hconnect haccept ht =>
    have hrx : SessionOrder cfg { s with rx := rx } := by
      -- nothing has been carried on a connection that is new
      have htx := tx_reachable_of_harmless hr
      have hlane : s.tx.lane i = [] :=
        lane_of_not_joined htx (txStep_connected (.reachable htx) hconnect).1
      obtain ⟨legs,part,lost,unsent,hconn⟩ := exists_onConnection hr i
      have hstream := hconn.stream
      simp only [Session.stream,hlane,List.map_nil,List.nil_eq,List.append_eq_nil_iff] at hstream
      refine hs.of_rx hr hW rfl (rxStep_cases haccept) (hsame i (rxStep_accept haccept).2 ?_)
      exact fun w _ => hstream.1 ▸ List.nil_prefix
    rw [ht]
    exact hrx.of_tx rfl (txStep_log hlog hconnect).1 (txStep_log hlog hconnect).2
  | tx b tx _ hstep ht =>
    rw [ht]
    exact hs.of_tx rfl (txStep_log hlog hstep).1 (txStep_log hlog hstep).2
  | rx b rx hmay hstep ht =>
    rw [ht]
    have hquiet : b.onSocket = false := by
      cases b <;> first | rfl | cases hmay
    refine hs.of_rx hr hW rfl (rxStep_cases hstep) fun i => ?_
    rw [(rxStep_sameStream hquiet hstep i).carried]
  | readv i junk count rx _ hstep ht =>
    rw [ht]
    exact hs.of_rx hr hW rfl (rxStep_cases hstep)
      (hsame i (rxStep_readv hstep).2.2 fun w hw => (RxWorker.headerRead_stream hw).2.2)
  | read i count rx _ hstep ht =>
    rw [ht]
    exact hs.of_rx hr hW rfl (rxStep_cases hstep)
      (hsame i (rxStep_read hstep).2.2 fun w hw => (RxWorker.payloadRead_stream hw).2.2)
  | drop i kept _ _ _ ht =>
    rw [ht]
    exact ⟨hs.order,hs.sequenced,hs.written,hs.done⟩

theorem reachable (hW : W ≤ kthreadmax) (hs : Reachable (sessionMachine cfg W) Harmless s) :
    SessionOrder cfg s :=
  hs.invariant (by rintro s rfl; exact init) fun _ _ _ hr h ha hstep => h.step hr hW ha hstep

end SessionOrder

end Viamillipede
