import Viamillipede.SessionAlive
import Viamillipede.MixDetection
import Viamillipede.RxValidation

/-! The checksum chain over a whole session.

`txingest` sums a leg over the checksum of the leg before it. `rxworker` sums what it has
written over a checksum of its own, whichever worker wrote the leg before. The two chains can
part at two places only: at a leg that is shorter than the half word that `mix` looks at, and
behind a leg whose checksum comes out as zero, which the receiver takes for none. -/
namespace Viamillipede

open Bytes Transition

variable {W : ℕ}

/-- What holds of each entry of a log and the entries before it, when one more comes in. -/
theorem forall_take_concat {α : Type*} {P : List α → α → Prop} {l : List α} {x : α}
    (hl : ∀ (k : ℕ) (y : α), l[k]? = some y → P (l.take k) y) (hx : P l x) (k : ℕ) (y : α)
    (hy : (l++[x])[k]? = some y) : P ((l++[x]).take k) y := by
  rw [List.getElem?_append] at hy
  split at hy
  · rw [List.take_append_of_le_length (by omega)]
    exact hl k y hy
  · obtain ⟨hk,rfl⟩ := List.getElem?_eq_some_iff.mp hy
    simp only [List.length_singleton] at hk
    obtain rfl : k = l.length := by omega
    simpa using hx

/-- The checksum is that of the payload over `saved`, in some buffer that holds the payload. -/
def Packet.SummedOver (saved : UInt64) (p : Packet) : Prop :=
  ∃ buffer : Memory, buffer.read p.payload.length = p.payload ∧
    p.header.checksum = mix (saved+p.header.legId).toUInt32 buffer p.header.size

/-- What the transmitter's chain has come to behind the packets. -/
def lastChecksum (ps : List Packet) : UInt64 :=
  (ps.getLast?.map fun p => p.header.checksum).getD 0xff

@[simp] theorem lastChecksum_concat (ps : List Packet) (p : Packet) :
    lastChecksum (ps++[p]) = p.header.checksum := by simp [lastChecksum]

/-- A leg with a checksum, which the receiver compares. -/
def Packet.Shown (p : Packet) : Prop := p.header.opcode = feedMore ∧ p.header.checksum ≠ 0

instance (p : Packet) : Decidable p.Shown := inferInstanceAs (Decidable (_ ∧ _))

/-- One more packet in the receiver's chain, which passes over those without a checksum. -/
def Packet.keep (saved : UInt64) (p : Packet) : UInt64 :=
  if p.Shown then p.header.checksum else saved

/-- What the receiver's chain has come to behind the packets. -/
def keptChecksum (ps : List Packet) : UInt64 := ps.foldl Packet.keep 0xff

@[simp] theorem keptChecksum_concat (ps : List Packet) (p : Packet) :
    keptChecksum (ps++[p]) = p.keep (keptChecksum ps) := by simp [keptChecksum]

/-- Four bytes of a payload are all that `mix` sees. -/
theorem lowHalf_of_read {a b : Memory} {n : ℕ} (h4 : 4 ≤ n) (h : a.read n = b.read n) :
    lowHalf a 0 = lowHalf b 0 := by
  have hread : a.read 4 = b.read 4 := by rw [← a.read_take h4,h,b.read_take h4]
  exact UInt32.toNat_inj.mp (by rw [lowHalf_zero,lowHalf_zero,firstHalf,hread,firstHalf])

section Transmitter

variable {cfg : TxConfig} {s t : TxState W}

/-- The leg at hand has been summed. -/
def IngestPc.summed : IngestPc W → Bool
  | .start _ => true
  | _ => false

/-- The packets handed over. -/
def TxState.packets (s : TxState W) : List Packet := s.log.map Dispatch.packet

theorem TxState.packets_take {k : ℕ} {d : Dispatch W} (hd : s.log[k]? = some d) :
    s.packets.take (k+1) = s.packets.take k ++ [d.packet] := by
  simp [packets,List.take_add_one,hd]

/-- Each leg is summed over the checksum of the leg before it. -/
structure TxSummed (s : TxState W) : Prop where
  legs : ∀ (k : ℕ) (p : Packet), s.packets[k]? = some p → p.IsFeed →
    p.SummedOver (lastChecksum (s.packets.take k))
  next : s.ended = false →
    if s.ingest.pc.summed then
      (Ingest.feedPacket s.ingest.legCounter s.ingest.savedChecksum s.ingest.fill).SummedOver
        (lastChecksum s.packets)
    else s.ingest.savedChecksum = lastChecksum s.packets

namespace TxSummed

theorem init : TxSummed (txInit W) where
  legs _ _ h := by simp [txInit,TxState.packets] at h
  next _ := rfl

/-- A step that sums nothing and hands nothing over. -/
theorem of_log (hs : TxSummed s) (hlog : t.log = s.log)
    (hsaved : t.ingest.savedChecksum = s.ingest.savedChecksum) (ht : t.ingest.pc.summed = false)
    (hpc : s.ingest.pc.summed = false) (hended : s.ended = true → t.ended = true) : TxSummed t where
  legs := by rw [TxState.packets,hlog]; exact hs.legs
  next h := by
    have hnot : s.ended = false := by
      by_contra hset
      simp [hended (by simpa using hset)] at h
    have hnext := hs.next hnot
    rw [hpc] at hnext
    rw [ht,hsaved,TxState.packets,hlog]
    exact hnext

/-- A step of another thread. -/
theorem of_ingest (hs : TxSummed s) (hlog : t.log = s.log) (hingest : t.ingest = s.ingest)
    (hdone : t.done = s.done) : TxSummed t where
  legs := by rw [TxState.packets,hlog]; exact hs.legs
  next := by
    rw [TxState.ended,hdone,hingest,TxState.packets,hlog]
    exact hs.next

/-- The legs behind a hand-over. -/
theorem legs_append (hs : TxSummed s) {d : Dispatch W} (hlog : t.log = s.log++[d])
    (hd : d.packet.IsFeed → d.packet.SummedOver (lastChecksum s.packets)) (k : ℕ) (p : Packet)
    (hp : t.packets[k]? = some p) : p.IsFeed → p.SummedOver (lastChecksum (t.packets.take k)) := by
  have hpackets : t.packets = s.packets++[d.packet] := by simp [TxState.packets,hlog]
  rw [hpackets] at hp ⊢
  exact forall_take_concat (P := fun before (p : Packet) => p.IsFeed →
    p.SummedOver (lastChecksum before)) hs.legs hd k p hp

theorem ingestFilled {w : Fin W} (hs : TxSummed s) (hpc : s.ingest.pc = .fill w) (fill : Payload) :
    TxSummed (ingestFilled cfg s w fill) := by
  have hended : s.ended = true → (Viamillipede.ingestFilled cfg s w fill).ended = true := by
    simp [TxState.ended,hpc,IngestPc.found]
  have hquiet : s.ingest.pc.summed = false := by rw [hpc]; rfl
  revert hended
  unfold Viamillipede.ingestFilled
  simp only
  split_ifs <;> exact hs.of_log rfl rfl rfl hquiet

theorem ingestStep (hsums : cfg.gchecksums = true) (hs : TxSummed s) (hl : TxLog s)
    (hstored : s.ingest.Stored cfg s.workers) (h : ingestStep cfg s = some t) : TxSummed t := by
  have hended := ended_of_effect hl (ingestStep_effect h)
  have hflags := hl.flags
  cases hpc : s.ingest.pc with
  | checksum w =>
    simp only [Viamillipede.ingestStep,hpc,Option.some.injEq] at h
    simp only [hpc,IngestPc.Flags] at hflags
    simp only [Ingest.Stored,hpc] at hstored
    have hsaved := hs.next (by simp [TxState.ended,hflags])
    simp only [hpc,IngestPc.summed,Bool.false_eq_true,if_false] at hsaved
    subst h
    refine ⟨hs.legs,fun _ => ?_⟩
    simp only [IngestPc.summed,if_true,hsums,TxState.setPkt,TxState.setWorker,TxState.packets]
    refine ⟨(s.workers w).buffer,hstored.1,?_⟩
    simp only [Ingest.feedPacket,txChecksum,if_true,hsaved,Ingest.readsize,TxState.packets]
  | start w =>
    simp only [Viamillipede.ingestStep,hpc,Option.some.injEq,hsums,if_true] at h
    simp only [hpc,IngestPc.Flags] at hflags
    have hnext := hs.next (by simp [TxState.ended,hflags])
    simp only [hpc,IngestPc.summed,if_true] at hnext
    subst h
    refine ⟨hs.legs_append rfl fun _ => hnext,fun _ => ?_⟩
    simp [IngestPc.summed,TxState.goto,startWorker,TxState.setWorker,TxState.packets,
      Ingest.feedPacket]
  | shutStart w =>
    simp only [Viamillipede.ingestStep,hpc,Option.some.injEq] at h
    simp only [hpc,IngestPc.Flags] at hflags
    subst h
    refine ⟨hs.legs_append rfl fun hfeed => absurd rfl hfeed.nonempty,fun hnot => ?_⟩
    simp [TxState.ended,TxState.goto,startWorker,TxState.setWorker,IngestPc.found,hflags] at hnot
  | fill w =>
    simp only [Viamillipede.ingestStep,hpc] at h
    split_ifs at h
    cases h
    exact hs.ingestFilled hpc _
  | test =>
    simp only [Viamillipede.ingestStep,hpc,Option.some.injEq] at h
    subst h
    refine hs.of_log rfl rfl ?_ (by rw [hpc]; rfl) hended
    dsimp only [TxState.goto]
    split_ifs <;> rfl
  | scanUnlock found =>
    cases found <;> simp only [Viamillipede.ingestStep,hpc,Option.some.injEq] at h <;> subst h <;>
      exact hs.of_log rfl rfl rfl (by rw [hpc]; rfl) hended
  | scan cursor =>
    simp only [Viamillipede.ingestStep,hpc] at h
    split_ifs at h <;> cases h <;> exact hs.of_log rfl rfl rfl (by rw [hpc]; rfl) hended
  | _ =>
    simp only [Viamillipede.ingestStep,hpc] at h
    try split_ifs at h
    all_goals cases h
    all_goals exact hs.of_log rfl rfl rfl (by rw [hpc]; rfl) hended

theorem step {a : TxAction W} (hsums : cfg.gchecksums = true) (hs : TxSummed s) (hl : TxLog s)
    (hh : TxHandover cfg s) (h : txStep cfg s a = some t) : TxSummed t := by
  cases txStep_cases h with
  | ingest hstep _ =>
    rcases hstep with ⟨_,hstep⟩ | ⟨w,data,_,hpc,_,rfl⟩
    · exact hs.ingestStep hsums hl hh.stored hstep
    · have hset : TxSummed (s.setWorker w
          { s.workers w with buffer := (s.workers w).buffer.store 0 data.val }) :=
        hs.of_ingest rfl rfl rfl
      exact hset.ingestFilled hpc data
  | fillFailed _ ht => exact ht ▸ hs.of_ingest rfl rfl rfl
  | worker i b m _ _ ht => exact ht ▸ hs.of_ingest rfl rfl rfl
  | poll _ ht =>
    obtain ⟨p,hp⟩ := pollStep_eq s
    rw [ht,hp]
    exact hs.of_ingest rfl rfl rfl

theorem reachable (hsums : cfg.gchecksums = true)
    (hs : Reachable (txMachine cfg W) Unclobbered s) : TxSummed s :=
  hs.invariant (by rintro s rfl; exact init) fun _ _ _ hr h _ hstep =>
    h.step hsums (.reachable hr) (.reachable (fun _ _ ha => ha) hr) hstep

end TxSummed

end Transmitter

section Receiver

variable {n : ℕ} {cfg : RxConfig} {s t : RxState n}

/-- A written packet is at line 177, where its checksum is compared. -/
def RxState.Comparing (s : RxState n) : Prop := ∃ i, (s.workers i).pc = .opcode

instance (s : RxState n) : Decidable s.Comparing :=
  inferInstanceAs (Decidable (∃ i, (s.workers i).pc = .opcode))

/-- The packets whose checksums have been compared. -/
def RxState.compared (s : RxState n) : List Packet :=
  if s.Comparing then s.written.dropLast else s.written

/-- A step compares no checksum, or that of the leg at line 177. -/
inductive RxCompares (s t : RxState n) : Prop
  | none (hcompared : t.compared = s.compared) (hsum : t.grxSavedChecksum = s.grxSavedChecksum)
  | leg (i : Fin n) (hcompared : t.compared = s.compared++[(s.workers i).packet])
      (hsum : t.grxSavedChecksum = (s.workers i).packet.keep s.grxSavedChecksum)
      (hpasses : (s.workers i).pkt.opcode = feedMore →
        rxChecksum s.grxSavedChecksum (s.workers i).pkt (s.workers i).buffer =
          some t.grxSavedChecksum)

namespace RxCompares

/-- Nothing is written, and nobody comes to line 177 or leaves it. -/
theorem of_same (hsum : t.grxSavedChecksum = s.grxSavedChecksum) (hwritten : t.written = s.written)
    (hpc : ∀ i, (t.workers i).pc = .opcode ↔ (s.workers i).pc = .opcode) : RxCompares s t := by
  have hcomparing : t.Comparing ↔ s.Comparing := exists_congr hpc
  refine .none ?_ hsum
  rw [RxState.compared,RxState.compared,hwritten,if_congr hcomparing rfl rfl]

/-- The same for a move of one worker. -/
theorem of_update {i : Fin n} {w : RxWorker} (hworkers : t.workers = Function.update s.workers i w)
    (hsum : t.grxSavedChecksum = s.grxSavedChecksum) (hwritten : t.written = s.written)
    (hw : w.pc ≠ .opcode) (hpc : (s.workers i).pc ≠ .opcode) : RxCompares s t := by
  refine of_same hsum hwritten fun j => ?_
  rw [hworkers]
  rcases eq_or_ne j i with rfl | hne
  · rw [Function.update_self]
    exact iff_of_false hw hpc
  · rw [Function.update_of_ne hne]

/-- Nobody else is at line 177 while a worker is in the window. -/
theorem not_comparing (ho : RxOrder s) (ha : LegsApart s) {i : Fin n}
    (hi : (s.workers i).pc.stage ≠ .out) (hworkers : ∀ j ≠ i, t.workers j = s.workers j)
    (hpc : (t.workers i).pc ≠ .opcode) : ¬ t.Comparing := by
  rintro ⟨j,hj⟩
  rcases eq_or_ne j i with rfl | hne
  · exact hpc hj
  · have hout := ho.others_out ha (ho.in_window hi).1 j hne
    rw [← hworkers j hne,hj] at hout
    cases hout

/-- The whole payload is written. -/
theorem written (ho : RxOrder s) (ha : LegsApart s) {i : Fin n} {pos : ℕ}
    (hpc : (s.workers i).pc = .write pos) (hsum : t.grxSavedChecksum = s.grxSavedChecksum)
    (hwritten : t.written = s.written++[(s.workers i).packet]) (ht : (t.workers i).pc = .opcode) :
    RxCompares s t := by
  have hnone : ¬ s.Comparing :=
    not_comparing ho ha (i := i) (by simp [hpc,RxPc.stage]) (fun _ _ => rfl) (by simp [hpc])
  have hcomparing : t.Comparing := ⟨i,ht⟩
  refine .none ?_ hsum
  rw [RxState.compared,RxState.compared,if_neg hnone,if_pos hcomparing,hwritten,List.dropLast_concat]

/-- Line 177 and what follows up to the increment of `next_leg`. -/
theorem opcodeStep (ho : RxOrder s) (ha : LegsApart s) {i : Fin n}
    (hpc : (s.workers i).pc = .opcode) : RxCompares s (opcodeStep s i) := by
  have hbusy := ho.busy i (by simp [hpc,RxPc.stage])
  simp only [hpc,RxPc.stage,RxState.Wrote] at hbusy
  obtain ⟨before,hwritten⟩ := List.getLast?_eq_some_iff.mp hbusy.2.2
  have hnext (sum : UInt64) (pc : RxPc) (hgo : pc ≠ .opcode)
      (hsum : sum = (s.workers i).packet.keep s.grxSavedChecksum)
      (hpasses : (s.workers i).pkt.opcode = feedMore →
        rxChecksum s.grxSavedChecksum (s.workers i).pkt (s.workers i).buffer = some sum) :
      RxCompares s { s.goto i pc with grxSavedChecksum := sum } := by
    have hcomparing : s.Comparing := ⟨i,hpc⟩
    have hnone : ¬ ({ s.goto i pc with grxSavedChecksum := sum } : RxState n).Comparing :=
      not_comparing ho ha (i := i) (by simp [hpc,RxPc.stage])
        (fun j hj => s.goto_other hj pc) (by simpa using hgo)
    refine .leg i ?_ hsum hpasses
    rw [RxState.compared,RxState.compared,if_neg hnone,if_pos hcomparing]
    simp [RxState.goto,RxState.setWorker,hwritten]
  have hother : feedMore ≠ endOfMillipede := by decide
  have hopcode : (s.workers i).packet.header.opcode = (s.workers i).pkt.opcode := rfl
  unfold Viamillipede.opcodeStep
  simp only
  split_ifs with hend hfeed
  · refine hnext s.grxSavedChecksum .doneLock (by simp) ?_ fun hfeed => ?_
    · simp [Packet.keep,Packet.Shown,hopcode,hend,hother.symm]
    · exact absurd (hfeed.symm.trans hend) hother
  · split
    · rename_i sum hsum
      refine hnext sum .advLock (by simp) ?_ fun _ => hsum
      by_cases hzero : (s.workers i).pkt.checksum = 0
      · simp only [rxChecksum,if_pos hzero,Option.some.injEq] at hsum
        exact hsum.symm.trans (if_neg fun h => h.2 hzero).symm
      · simp only [rxChecksum,if_neg hzero,Option.ite_none_right_eq_some,Option.some.injEq] at hsum
        exact (hsum.2.symm.trans hsum.1).trans (if_pos ⟨hfeed,hzero⟩).symm
    · exact of_same rfl rfl fun _ => Iff.rfl
  · exact of_same rfl rfl fun _ => Iff.rfl

theorem step {a : RxAction n} (ho : RxOrder s) (ha : LegsApart s) (h : rxStep cfg s a = some t) :
    RxCompares s t := by
  cases rxStep_cases h with
  | ended e => exact of_same rfl rfl fun _ => Iff.rfl
  | fetch i w hfetch =>
    obtain ⟨hbefore,hafter⟩ := hfetch.pc
    refine of_update rfl rfl rfl (fun hpc => ?_) (fun hpc => ?_)
    · rcases hafter with hafter | hafter | hafter <;> rw [hpc] at hafter <;> cases hafter
    · rw [hpc] at hbefore
      cases hbefore
  | opcode i pc sum hpc hto =>
    have hgo : pc ≠ .opcode := by rcases hto with ⟨rfl,-⟩ | ⟨rfl,-⟩ <;> simp
    have hworker := worker_of_moved (i := i) h (by simp [hpc]) (by simpa [hpc] using hgo)
    rw [(rxStep_opcode hworker hpc h).2]
    exact opcodeStep ho ha hpc
  | writeAll i pos count hpc _ => exact written ho ha hpc rfl rfl (by simp)
  | broadcast i hpc =>
    refine of_same rfl rfl fun j => ?_
    obtain ⟨hasleep,hw⟩ | ⟨-,hw⟩ := (s.goto i .inner).awaken_cases j <;> rw [hw]
    · rcases eq_or_ne j i with rfl | hne
      · simp at hasleep
      · rw [s.goto_other hne] at hasleep
        simp [hasleep]
    · rcases eq_or_ne j i with rfl | hne
      · simp [hpc]
      · rw [s.goto_other hne]
  | poll t h =>
    obtain ⟨p,m,rfl⟩ := rxPollStep_eq h
    exact of_same rfl rfl fun _ => Iff.rfl
  | acquire i pc _ hpc =>
    simp only [List.mem_cons,Prod.mk.injEq,List.not_mem_nil,or_false] at hpc
    rcases hpc with ⟨hpc,rfl⟩ | ⟨hpc,rfl⟩ | ⟨hpc,rfl⟩ | ⟨hpc,rfl⟩ <;>
      exact of_update rfl rfl rfl (by simp) (by simp [hpc])
  | release i pc hpc =>
    simp only [List.mem_cons,Prod.mk.injEq,List.not_mem_nil,or_false] at hpc
    rcases hpc with ⟨hpc,rfl⟩ | ⟨hpc,rfl⟩ <;>
      exact of_update rfl rfl rfl (by simp) (by simp [hpc])
  | pass i hpc | block i hpc | sleep i hpc | wake i hpc | restart i hpc | enter i hpc
  | writeSome i _ _ hpc | done i hpc | advance i hpc =>
    exact of_update rfl rfl rfl (by simp) (by simp [hpc])

end RxCompares

/-- The receiver's chain has come to what it has compared, and each checksum shown is right. -/
structure RxSummed (s : RxState n) : Prop where
  saved : s.grxSavedChecksum = keptChecksum s.compared
  legs : ∀ (k : ℕ) (p : Packet), s.compared[k]? = some p → p.Shown →
    p.SummedOver (keptChecksum (s.compared.take k))

namespace RxSummed

theorem init : RxSummed (rxInit n) := by
  have hnone : ¬ (rxInit n).Comparing := by
    rintro ⟨i,hi⟩
    cases hi
  have hcompared : (rxInit n).compared = [] := by rw [RxState.compared,if_neg hnone]; rfl
  exact ⟨by rw [hcompared]; rfl,by simp [hcompared]⟩

theorem step (hs : RxSummed s) (h : RxCompares s t) : RxSummed t := by
  cases h with
  | none hcompared hsum =>
    exact ⟨by rw [hsum,hcompared,hs.saved],by rw [hcompared]; exact hs.legs⟩
  | leg i hcompared hsum hpasses =>
    refine ⟨by rw [hsum,hcompared,keptChecksum_concat,hs.saved],?_⟩
    rw [hcompared]
    refine forall_take_concat (P := fun before (p : Packet) => p.Shown →
      p.SummedOver (keptChecksum before)) hs.legs fun hshown => ?_
    have hpasses := hpasses hshown.1
    have hzero : (s.workers i).pkt.checksum ≠ 0 := hshown.2
    simp only [rxChecksum,if_neg hzero,Option.ite_none_right_eq_some] at hpasses
    refine ⟨(s.workers i).buffer,?_,?_⟩
    · rw [(s.workers i).packet.size_eq]
      rfl
    · rw [← hs.saved]
      exact hpasses.1.symm

end RxSummed

end Receiver

variable {cfg : SessionConfig} {s t : Session W}

theorem rx_of_session {a : SessionAction W} (h : sessionStep cfg s a = some t) :
    t.rx = s.rx ∨ ∃ b, rxStep cfg.rx s.rx b = some t.rx := by
  cases sessionStep_cases h with
  | connect _ _ _ _ hrx ht | rx _ _ _ hrx ht | readv _ _ _ _ _ hrx ht | read _ _ _ _ hrx ht =>
    exact ht ▸ .inr ⟨_,hrx⟩
  | tx _ _ _ _ ht | drop _ _ _ _ _ ht => exact ht ▸ .inl rfl

theorem RxSummed.of_harmless (hW : W ≤ kthreadmax)
    (hs : Reachable (sessionMachine cfg W) Harmless s) : RxSummed s.rx := by
  induction hs with
  | init h => cases h; exact .init
  | step hr _ h ih =>
    have horder := SessionOrder.reachable hW hr
    rcases rx_of_session h with hsame | ⟨b,hstep⟩
    · exact hsame ▸ ih
    · exact ih.step (.step horder.order (horder.legsApart hr hW) hstep)

/-- The two chains can part at leg `k`: it has fewer than four bytes, or the leg before it
shows no checksum. -/
def TxState.Parts (s : TxState W) (k : ℕ) : Prop :=
  ∃ d, s.log[k]? = some d ∧ d.packet.payload.length < 4 ∨
    0 < k ∧ s.log[k-1]? = some d ∧ d.packet.header.checksum = 0

theorem feed_of_lt {tx : TxState W} (hl : TxLog tx) {k : ℕ} {d : Dispatch W}
    (hd : tx.log[k]? = some d) (hk : k+1 < tx.log.length) : d.packet.IsFeed := by
  refine (hl.feed_or_end (List.mem_of_getElem? hd)).resolve_right fun hend => ?_
  have hlast := (hl.length_of_end hd hend.opcode).2
  omega

/-- Behind legs of which the last shows its checksum the two chains are at one. -/
theorem keptChecksum_take {tx : TxState W} (hl : TxLog tx) {k : ℕ} {d : Dispatch W}
    (hd : tx.log[k]? = some d) (hparts : ¬ tx.Parts k) :
    keptChecksum (tx.packets.take k) = lastChecksum (tx.packets.take k) := by
  cases k with
  | zero => rfl
  | succ k =>
    have hk : k+1 < tx.log.length := (List.getElem?_eq_some_iff.mp hd).1
    obtain ⟨e,he⟩ : ∃ e, tx.log[k]? = some e := ⟨_,List.getElem?_eq_getElem (by omega)⟩
    have hshown : e.packet.header.checksum ≠ 0 := fun hzero =>
      hparts ⟨e,.inr ⟨by omega,by simpa using he,hzero⟩⟩
    rw [TxState.packets_take he,keptChecksum_concat,lastChecksum_concat]
    exact if_pos ⟨(feed_of_lt hl he hk).opcode,hshown⟩

/-- Where the checksum is wrong, the chains have parted. -/
theorem parts_of_alarm (hW : W ≤ kthreadmax) (hsums : cfg.tx.gchecksums = true)
    (hseed : cfg.tx.gprbsSeed = 0) (hs : Reachable (sessionMachine cfg W) Harmless s) {i : Fin W}
    (halarm : s.rx.Alarm i) : s.tx.Parts s.rx.advances := by
  by_contra hparts
  obtain ⟨d,hd,hfeed,-,hpacket⟩ := halarm.leg hW hs
  rw [TxConfig.pushed_of_seed_zero hseed] at hpacket
  have htx := tx_reachable_of_harmless hs
  have horder := SessionOrder.reachable hW hs
  have hpkt : (s.rx.workers i).pkt = d.packet.header := congrArg Packet.header hpacket
  have hsize : d.packet.header.size.toNat = d.packet.payload.length := d.packet.size_eq.symm
  have hread : (s.rx.workers i).buffer.read d.packet.payload.length = d.packet.payload := by
    have hpayload : (s.rx.workers i).buffer.read (s.rx.workers i).pkt.size.toNat = _ :=
      congrArg Packet.payload hpacket
    rwa [hpkt,hsize] at hpayload
  have hcompared : s.rx.compared = s.tx.packets.take s.rx.advances := by
    have hbusy := horder.order.busy i (by simp [halarm.pc,RxPc.stage])
    simp only [halarm.pc,RxPc.stage,RxState.Wrote] at hbusy
    have hcomparing : s.rx.Comparing := ⟨i,halarm.pc⟩
    have hsent : s.sent cfg = s.tx.packets :=
      List.map_congr_left fun e _ => TxConfig.pushed_of_seed_zero hseed e.packet
    have hwritten := horder.written
    rw [hsent,hbusy.2.1,TxState.packets_take hd] at hwritten
    rw [RxState.compared,if_pos hcomparing,hwritten,List.dropLast_concat]
  have hsaved := (RxSummed.of_harmless hW hs).saved
  rw [hcompared,keptChecksum_take (.reachable htx) hd hparts] at hsaved
  obtain ⟨buffer,hbuffer,hchecksum⟩ := (TxSummed.reachable hsums htx).legs s.rx.advances d.packet
    (by simp [TxState.packets,hd]) hfeed
  have hlong : 4 ≤ d.packet.payload.length := by
    by_contra hshort
    exact hparts ⟨d,.inl ⟨hd,by omega⟩⟩
  have hsum := halarm.sum
  have hle : d.packet.header.size.toNat ≤ kfootsize := hsize ▸ hfeed.length_le
  rw [hpkt,rxChecksum_congr _ _ hle (lowHalf_of_read hlong (hread.trans hbuffer.symm)),hsaved,
    rxChecksum,← hchecksum] at hsum
  simp only [if_true] at hsum
  split_ifs at hsum

/-- The sums of all legs, those the receiver has compared, and how either process can end. -/
structure Checksummed (s : Session W) : Prop where
  sent : ∀ (k : ℕ) (p : Packet), s.tx.packets[k]? = some p → p.IsFeed →
    p.SummedOver (lastChecksum (s.tx.packets.take k))
  kept : s.rx.grxSavedChecksum = keptChecksum s.rx.compared
  compared : ∀ (k : ℕ) (p : Packet), s.rx.compared[k]? = some p → p.Shown →
    p.SummedOver (keptChecksum (s.rx.compared.take k))
  tx : s.tx.exited = none
  rx : s.rx.exited = none ∨ s.rx.exited = some (.assertion 194) ∧ s.tx.Parts s.rx.advances

/-- With checksums switched on the two chains meet leg by leg, however the workers take turns.
What ends the receiver is the assertion at 194, and nothing but a leg of less than four bytes
or one behind a checksum of zero can bring it there. -/
theorem checksummed_of_untroubled (hW : W ≤ kthreadmax) (hsums : cfg.tx.gchecksums = true)
    (htx : cfg.tx.gprbsSeed = 0) (hrx : cfg.rx.gprbsSeed = 0)
    (hlong : 4 ≤ cfg.rx.gcheckphrase.length)
    (hs : Reachable (sessionMachine cfg W) Untroubled s) : Checksummed s := by
  have horderly := orderly_of_untroubled hs
  have hharmless := harmless_of_orderly horderly
  have hends := alarm_of_orderly hW (hrx.trans htx.symm) hlong horderly
  have hrxs := RxSummed.of_harmless hW hharmless
  refine ⟨(TxSummed.reachable hsums (tx_reachable_of_harmless hharmless)).legs,
    hrxs.saved,hrxs.legs,txAlive_of_untroubled hs,hends.imp_right fun ⟨i,halarm⟩ => ?_⟩
  exact ⟨halarm.exited,parts_of_alarm hW hsums htx hharmless halarm⟩

/-- One leg of four bytes and the end of the stream, with its checksum. -/
def checksumRun : List (SessionAction 1) :=
  .flatten [meet 0,txRun (pushOne ⟨[1,2,3,4],by decide⟩ 44),txRun (workerSteps 0 4),
    [.readv 0 ⟨0,0,0,0,0⟩ 40,.read 0 4],rxRunOf (rxSteps 0 3),rxRunOf [.write 0 4],
    rxRunOf (rxSteps 0 6),txRun (ingestSteps 2),txRun (pushEnd 40),[.readv 0 ⟨0,0,0,0,0⟩ 40],
    rxRunOf (rxSteps 0 3),rxRunOf [.write 0 0],rxRunOf (rxSteps 0 4),rxRunOf [.poll,.poll,.poll]]

theorem checksummed_checksumRun :
    ∃ s ∈ exec (sessionMachine ⟨⟨0,0,0,true⟩,.plain,100⟩ 1) Untroubled (sessionInit 1) checksumRun,
      s.rx.poll = .returned true ∧ s.rx.grxSavedChecksum = 0x04030300 ∧ Checksummed s := by
  have hrun : ∃ s ∈ exec (sessionMachine ⟨⟨0,0,0,true⟩,.plain,100⟩ 1) Untroubled (sessionInit 1)
      checksumRun, s.rx.poll = .returned true ∧ s.rx.grxSavedChecksum = 0x04030300 := by
    decide +kernel
  obtain ⟨s,hs,hpoll,hsaved⟩ := hrun
  exact ⟨s,hs,hpoll,hsaved,
    checksummed_of_untroubled (by decide) rfl rfl rfl (by decide) (reachable_exec (.init rfl) hs)⟩

end Viamillipede
