import Viamillipede.RxSequencer
import Mathlib.Data.List.Nodup

/-! What the receive workers write, and in which order.

The test of `next_leg` and its increment are in two critical sections with the write
between them. What keeps a second worker out of that window is that no other worker holds
a packet with the same leg id, which the receiver does not check. -/
namespace Viamillipede

open Bytes Transition

variable {n : ℕ} {cfg : RxConfig}

namespace RxPc

/-- What of its packet a worker has written and not yet counted. -/
inductive Stage
  | out
  | writing (pos : ℕ)
  | wrote
  deriving DecidableEq

def stage : RxPc → Stage
  | .write pos => .writing pos
  | .opcode | .doneLock | .doneSet | .doneUnlock | .advLock | .advance => .wrote
  | _ => .out

theorem chosen_of_stage {pc : RxPc} (h : pc.stage ≠ .out) : pc.chosen = true := by
  cases pc <;> simp_all [stage,chosen]

end RxPc

/-- No two workers hold packets with one leg id. -/
def LegsApart (s : RxState n) : Prop :=
  ∀ i j, i ≠ j → (s.workers i).holds = true → (s.workers j).holds = true →
    (s.workers i).pkt.legId ≠ (s.workers j).pkt.legId

instance (s : RxState n) : Decidable (LegsApart s) :=
  inferInstanceAs (Decidable (∀ i j, i ≠ j → (s.workers i).holds = true →
    (s.workers j).holds = true → (s.workers i).pkt.legId ≠ (s.workers j).pkt.legId))

/-- The payloads of a list of packets, one after the other. -/
def payloads (ps : List Packet) : List UInt8 := ps.flatMap Packet.payload

@[simp] theorem payloads_append (ps qs : List Packet) :
    payloads (ps++qs) = payloads ps ++ payloads qs := List.flatMap_append

@[simp] theorem payloads_singleton (p : Packet) : payloads [p] = p.payload := by simp [payloads]

/-- What `output_fd` has received, given how far a worker is with its packet `p`. -/
def RxState.Wrote (s : RxState n) (p : Packet) : RxPc.Stage → Prop
  | .out => s.output = payloads s.written ∧ s.written.length = s.advances
  | .writing pos => s.output = payloads s.written ++ p.payload.take pos ∧
    s.written.length = s.advances
  | .wrote => s.output = payloads s.written ∧ s.written.length = s.advances+1 ∧
    s.written.getLast? = some p

/-- The workers in the window, the history and the output in step with `next_leg`. -/
structure RxOrder (s : RxState n) : Prop where
  nextLeg : s.nextLeg = UInt64.ofNat s.advances
  steady : ∀ i, (s.workers i).pc.stage ≠ .out → (s.workers i).restartme = false
  chosen : ∀ i, (s.workers i).pc.chosen = true → (s.workers i).restartme = false →
    (s.workers i).pkt.legId = s.nextLeg
  ids : ∀ k p, s.written[k]? = some p → p.header.legId = UInt64.ofNat k
  busy : ∀ i, (s.workers i).pc.stage ≠ .out →
    s.Wrote (s.workers i).packet (s.workers i).pc.stage
  quiet : (∀ i, (s.workers i).pc.stage = .out) →
    s.output = payloads s.written ∧ s.written.length = s.advances

namespace RxOrder

theorem init : RxOrder (rxInit n) where
  nextLeg := rfl
  steady _ h := absurd rfl h
  chosen _ h := by cases h
  ids _ _ h := by simp [rxInit] at h
  busy _ h := absurd rfl h
  quiet _ := ⟨rfl,rfl⟩

/-- The worker in the window has been chosen, and the output fits where it is. -/
theorem in_window {s : RxState n} (hs : RxOrder s) {i : Fin n}
    (hstage : (s.workers i).pc.stage ≠ .out) :
    ((s.workers i).pc.chosen = true ∧ (s.workers i).restartme = false) ∧
      s.Wrote (s.workers i).packet (s.workers i).pc.stage :=
  ⟨⟨RxPc.chosen_of_stage hstage,hs.steady i hstage⟩,hs.busy i hstage⟩

/-- Only one worker is past the test. -/
theorem unique {s : RxState n} (hs : RxOrder s) (ha : LegsApart s) {i j : Fin n}
    (hi : (s.workers i).pc.chosen = true ∧ (s.workers i).restartme = false)
    (hj : (s.workers j).pc.chosen = true ∧ (s.workers j).restartme = false) : i = j := by
  by_contra hne
  refine ha i j hne ?_ ?_ ((hs.chosen i hi.1 hi.2).trans (hs.chosen j hj.1 hj.2).symm)
  · simp [RxWorker.holds,RxPc.holding_of_chosen hi.1,hi.2]
  · simp [RxWorker.holds,RxPc.holding_of_chosen hj.1,hj.2]

theorem others_out {s : RxState n} (hs : RxOrder s) (ha : LegsApart s) {i : Fin n}
    (hi : (s.workers i).pc.chosen = true ∧ (s.workers i).restartme = false) (j : Fin n)
    (hne : j ≠ i) : (s.workers j).pc.stage = .out := by
  by_contra hstage
  exact hne (hs.unique ha (hs.in_window hstage).1 hi)

/-- A move of one worker that leaves the output, the history and `next_leg` alone. -/
theorem of_update {s t : RxState n} {i : Fin n} {w : RxWorker} (hs : RxOrder s)
    (hworkers : t.workers = Function.update s.workers i w) (hleg : t.nextLeg = s.nextLeg)
    (hadv : t.advances = s.advances) (hout : t.output = s.output) (hwritten : t.written = s.written)
    (hstage : w.pc.stage = (s.workers i).pc.stage)
    (hsame : w.pc.stage ≠ .out → w.pkt = (s.workers i).pkt ∧ w.buffer = (s.workers i).buffer ∧
      w.restartme = (s.workers i).restartme)
    (hchosen : w.pc.chosen = true → w.restartme = false → w.pkt.legId = s.nextLeg) :
    RxOrder t where
  nextLeg := by rw [hleg,hadv,hs.nextLeg]
  steady j hj := by
    rw [hworkers] at hj ⊢
    rcases eq_or_ne j i with rfl | hne
    · rw [Function.update_self] at hj ⊢
      rw [(hsame hj).2.2]
      exact hs.steady j (hstage ▸ hj)
    · rw [Function.update_of_ne hne] at hj ⊢
      exact hs.steady j hj
  chosen j := by
    rw [hworkers,hleg]
    rcases eq_or_ne j i with rfl | hne
    · rw [Function.update_self]; exact hchosen
    · rw [Function.update_of_ne hne]; exact hs.chosen j
  ids := hwritten ▸ hs.ids
  busy j hj := by
    rw [hworkers] at hj ⊢
    rcases eq_or_ne j i with rfl | hne
    · rw [Function.update_self] at hj ⊢
      have hpacket : w.packet = (s.workers j).packet :=
        Packet.ext (hsame hj).1 (by simp [RxWorker.packet,(hsame hj).1,(hsame hj).2.1])
      have hold := hs.busy j (hstage ▸ hj)
      rw [hpacket,hstage]
      revert hold
      cases (s.workers j).pc.stage <;> simp [RxState.Wrote,hadv,hout,hwritten]
    · rw [Function.update_of_ne hne] at hj ⊢
      have hold := hs.busy j hj
      revert hold
      cases (s.workers j).pc.stage <;> simp [RxState.Wrote,hadv,hout,hwritten]
  quiet hall := by
    rw [hadv,hout,hwritten]
    refine hs.quiet fun j => ?_
    have hj := hall j
    rw [hworkers] at hj
    rcases eq_or_ne j i with rfl | hne
    · rwa [Function.update_self,hstage] at hj
    · rwa [Function.update_of_ne hne] at hj

/-- A move of the only worker in the window. -/
theorem of_alone {s t : RxState n} {i : Fin n} {w : RxWorker} (hs : RxOrder s) (ha : LegsApart s)
    (hi : (s.workers i).pc.chosen = true ∧ (s.workers i).restartme = false)
    (hworkers : t.workers = Function.update s.workers i w) (hrestart : w.restartme = false)
    (hleg : t.nextLeg = UInt64.ofNat t.advances)
    (hchosen : w.pc.chosen = true → w.pkt.legId = t.nextLeg)
    (hids : ∀ k p, t.written[k]? = some p → p.header.legId = UInt64.ofNat k)
    (hwrote : t.Wrote w.packet w.pc.stage) : RxOrder t where
  nextLeg := hleg
  steady j hj := by
    rw [hworkers] at hj ⊢
    rcases eq_or_ne j i with rfl | hne
    · rwa [Function.update_self]
    · rw [Function.update_of_ne hne] at hj ⊢
      exact hs.steady j hj
  chosen j hj hr := by
    rw [hworkers] at hj hr ⊢
    rcases eq_or_ne j i with rfl | hne
    · rw [Function.update_self] at hj ⊢
      exact hchosen hj
    · rw [Function.update_of_ne hne] at hj hr
      exact absurd (hs.unique ha ⟨hj,hr⟩ hi) hne
  ids := hids
  busy j hj := by
    rw [hworkers] at hj ⊢
    rcases eq_or_ne j i with rfl | hne
    · rwa [Function.update_self]
    · rw [Function.update_of_ne hne] at hj
      exact absurd (hs.others_out ha hi j hne) hj
  quiet hall := by
    have hout := hall i
    rw [hworkers,Function.update_self] at hout
    simpa only [hout,RxState.Wrote] using hwrote

/-- A worker that sleeps is not in the window. -/
theorem awaken {s : RxState n} (hs : RxOrder s) : RxOrder s.awaken := by
  have hsame (i : Fin n) : (s.awaken.workers i).pkt = (s.workers i).pkt ∧
      (s.awaken.workers i).restartme = (s.workers i).restartme ∧
      (s.awaken.workers i).packet = (s.workers i).packet ∧
      (s.awaken.workers i).pc.stage = (s.workers i).pc.stage ∧
      (s.awaken.workers i).pc.chosen = (s.workers i).pc.chosen := by
    obtain ⟨hsleep,hw⟩ | ⟨-,hw⟩ := s.awaken_cases i <;> rw [hw]
    · exact ⟨rfl,rfl,rfl,by rw [hsleep]; rfl,by rw [hsleep]; rfl⟩
    · exact ⟨rfl,rfl,rfl,rfl,rfl⟩
  refine ⟨hs.nextLeg,fun i hi => ?_,fun i hi hr => ?_,hs.ids,fun i hi => ?_,fun hall => ?_⟩
  · obtain ⟨-,hrestart,-,hstage,-⟩ := hsame i
    rw [hrestart]
    exact hs.steady i (hstage ▸ hi)
  · obtain ⟨hpkt,hrestart,-,-,hchosen⟩ := hsame i
    rw [hpkt]
    exact hs.chosen i (hchosen ▸ hi) (hrestart ▸ hr)
  · obtain ⟨-,-,hpacket,hstage,-⟩ := hsame i
    rw [hpacket,hstage]
    exact hs.busy i (hstage ▸ hi)
  · exact hs.quiet fun i => (hsame i).2.2.2.1 ▸ hall i

theorem move {s t : RxState n} (hs : RxOrder s) (ha : LegsApart s) (h : RxMove cfg s t) :
    RxOrder t := by
  cases h with
  | ended e => exact ⟨hs.nextLeg,hs.steady,hs.chosen,hs.ids,hs.busy,hs.quiet⟩
  | fetch i w hfetch =>
    obtain ⟨hpc,hw⟩ := hfetch.pc
    have hout : w.pc.stage = .out ∧ w.pc.chosen = false := by
      rcases hw with hw | hw | hw <;> revert hw <;> cases w.pc <;>
        simp [RxPc.fetching,RxPc.stage,RxPc.chosen]
    have hbefore : (s.workers i).pc.stage = .out := by
      revert hpc; cases (s.workers i).pc <;> simp [RxPc.fetching,RxPc.stage]
    exact hs.of_update rfl rfl rfl rfl rfl (hout.1.trans hbefore.symm) (absurd hout.1)
      fun h => by simp [hout.2] at h
  | acquire i pc hfree hpc =>
    simp only [List.mem_cons,Prod.mk.injEq,List.not_mem_nil,or_false] at hpc
    refine hs.of_update rfl rfl rfl rfl rfl ?_ (fun _ => ⟨rfl,rfl,rfl⟩) fun h hr => ?_
    · rcases hpc with ⟨hpc,rfl⟩ | ⟨hpc,rfl⟩ | ⟨hpc,rfl⟩ | ⟨hpc,rfl⟩ <;> rw [hpc] <;> rfl
    · refine hs.chosen i ?_ hr
      rcases hpc with ⟨hpc,rfl⟩ | ⟨hpc,rfl⟩ | ⟨hpc,rfl⟩ | ⟨hpc,rfl⟩ <;> rw [hpc] <;>
        first | rfl | cases h
  | pass i hpc hid =>
    exact hs.of_update rfl rfl rfl rfl rfl (by rw [hpc]; rfl) (fun _ => ⟨rfl,rfl,rfl⟩)
      fun _ hr => hid.resolve_right (Bool.eq_false_iff.mp hr)
  | block i hpc | sleep i hpc | wake i hpc | restart i hpc =>
    exact hs.of_update rfl rfl rfl rfl rfl (by rw [hpc]; rfl) (fun _ => ⟨rfl,rfl,rfl⟩)
      fun h => by cases h
  | enter i hpc hr =>
    have hi : (s.workers i).pc.chosen = true ∧ (s.workers i).restartme = false :=
      ⟨by rw [hpc]; rfl,hr⟩
    have hquiet := hs.quiet fun j => by
      rcases eq_or_ne j i with rfl | hne
      · rw [hpc]; rfl
      · exact hs.others_out ha hi j hne
    exact hs.of_alone ha hi rfl hr hs.nextLeg (fun _ => hs.chosen i hi.1 hr) hs.ids
      ⟨by rw [List.take_zero,List.append_nil]; exact hquiet.1,hquiet.2⟩
  | writeSome i pos count hpc hlt =>
    obtain ⟨hi,hbusy⟩ := hs.in_window (i := i) (by simp [hpc,RxPc.stage])
    simp only [hpc,RxPc.stage,RxState.Wrote] at hbusy
    refine hs.of_alone ha hi rfl hi.2 hs.nextLeg (fun _ => hs.chosen i hi.1 hi.2) hs.ids ⟨?_,hbusy.2⟩
    simp only [hbusy.1,List.append_assoc,← List.take_add]
    rfl
  | writeAll i pos count hpc hlen =>
    obtain ⟨hi,hbusy⟩ := hs.in_window (i := i) (by simp [hpc,RxPc.stage])
    simp only [hpc,RxPc.stage,RxState.Wrote] at hbusy
    have hid : (s.workers i).pkt.legId = UInt64.ofNat s.written.length := by
      rw [hs.chosen i hi.1 hi.2,hs.nextLeg,hbusy.2]
    refine hs.of_alone ha hi rfl hi.2 hs.nextLeg (fun _ => hs.chosen i hi.1 hi.2) (fun k p hk => ?_)
      ⟨?_,by rw [List.length_append,hbusy.2]; rfl,by simp; rfl⟩
    · rw [List.getElem?_append] at hk
      split at hk
      · exact hs.ids k p hk
      · obtain ⟨hk',rfl⟩ := List.getElem?_eq_some_iff.mp hk
        simp only [List.length_singleton] at hk'
        obtain rfl : k = s.written.length := by omega
        simpa [RxWorker.packet] using hid
    · simp [hbusy.1,List.append_assoc,← List.take_add,hlen]
  | opcode i pc sum hpc hto =>
    refine hs.of_update rfl rfl rfl rfl rfl ?_ (fun _ => ⟨rfl,rfl,rfl⟩) fun _ hr =>
      hs.chosen i (by rw [hpc]; rfl) hr
    rcases hto with ⟨rfl,_⟩ | ⟨rfl,_⟩ <;> rw [hpc] <;> rfl
  | done i hpc =>
    exact hs.of_update rfl rfl rfl rfl rfl (by rw [hpc]; rfl) (fun _ => ⟨rfl,rfl,rfl⟩)
      fun _ hr => hs.chosen i (by rw [hpc]; rfl) hr
  | release i pc hpc =>
    simp only [List.mem_cons,Prod.mk.injEq,List.not_mem_nil,or_false] at hpc
    refine hs.of_update rfl rfl rfl rfl rfl ?_ (fun _ => ⟨rfl,rfl,rfl⟩) fun h hr => ?_
    · rcases hpc with ⟨hpc,rfl⟩ | ⟨hpc,rfl⟩ <;> rw [hpc] <;> rfl
    · rcases hpc with ⟨hpc,rfl⟩ | ⟨hpc,rfl⟩
      · exact hs.chosen i (by rw [hpc]; rfl) hr
      · cases h
  | advance i hpc =>
    obtain ⟨hi,hbusy⟩ := hs.in_window (i := i) (by simp [hpc,RxPc.stage])
    simp only [hpc,RxPc.stage,RxState.Wrote] at hbusy
    exact hs.of_alone ha hi rfl hi.2 (by simp [hs.nextLeg,UInt64.ofNat_add]) (fun h => by cases h)
      hs.ids ⟨hbusy.1,hbusy.2.1⟩
  | broadcast i hpc =>
    refine awaken ?_
    exact hs.of_update rfl rfl rfl rfl rfl (by rw [hpc]; rfl) (fun _ => ⟨rfl,rfl,rfl⟩)
      fun h => by cases h
  | poll t h =>
    obtain ⟨p,m,rfl⟩ := rxPollStep_eq h
    exact ⟨hs.nextLeg,hs.steady,hs.chosen,hs.ids,hs.busy,hs.quiet⟩

/-- How many packets are written, and whether one is being written. -/
theorem phase {s : RxState n} (hs : RxOrder s) :
    s.advances ≤ s.written.length ∧ s.written.length ≤ s.advances+1 ∧
      (s.output = payloads s.written ∨ ∃ i pos, (s.workers i).pc = .write pos ∧
        s.output = payloads s.written ++ (s.workers i).packet.payload.take pos) := by
  by_cases hquiet : ∀ i, (s.workers i).pc.stage = .out
  · obtain ⟨hout,hlen⟩ := hs.quiet hquiet
    exact ⟨hlen.ge,by omega,.inl hout⟩
  · obtain ⟨i,hi⟩ := not_forall.mp hquiet
    have hwrote := hs.busy i hi
    cases hpc : (s.workers i).pc <;> simp only [hpc,RxPc.stage,RxState.Wrote] at hwrote hi
    case write pos => exact ⟨hwrote.2.ge,by omega,.inr ⟨i,pos,hpc,hwrote.1⟩⟩
    all_goals first | exact absurd rfl hi | exact ⟨by omega,by omega,.inl hwrote.1⟩

theorem reachable {ok : RxState n → RxAction n → Prop} (hok : ∀ s a, ok s a → LegsApart s)
    {s : RxState n} (hs : Reachable (rxMachine cfg n) ok s) : RxOrder s :=
  hs.invariant (by rintro s rfl; exact init) fun s a _ _ h ha hstep =>
    h.move (hok s a ha) (rxStep_cases hstep)

end RxOrder

/-- Every value of `next_leg` is used up by one payload, which is written before it. -/
structure WrittenOnce (s : RxState n) : Prop where
  alone : ∀ i j, (s.workers i).pc.stage ≠ .out → (s.workers j).pc.stage ≠ .out → i = j
  nextLeg : s.nextLeg = UInt64.ofNat s.advances
  ids : ∀ k p, s.written[k]? = some p → p.header.legId = UInt64.ofNat k
  behind : s.advances ≤ s.written.length ∧ s.written.length ≤ s.advances+1
  distinct : s.written.length ≤ 2^64 → (s.written.map fun p => p.header.legId).Nodup
  output : s.output = payloads s.written ∨ ∃ i pos, (s.workers i).pc = .write pos ∧
    s.output = payloads s.written ++ (s.workers i).packet.payload.take pos

theorem nodup_of_ids {ps : List Packet}
    (h : ∀ k p, ps[k]? = some p → p.header.legId = UInt64.ofNat k) (hlen : ps.length ≤ 2^64) :
    (ps.map fun p => p.header.legId).Nodup := by
  rw [List.nodup_iff_injective_get]
  intro i j hij
  have hi : (i : ℕ) < ps.length := by simpa using i.isLt
  have hj : (j : ℕ) < ps.length := by simpa using j.isLt
  have hword : UInt64.ofNat i = UInt64.ofNat j := by
    rw [← h i ps[(i : ℕ)] (List.getElem?_eq_getElem hi),
      ← h j ps[(j : ℕ)] (List.getElem?_eq_getElem hj)]
    simpa using hij
  have hnat := congrArg UInt64.toNat hword
  rw [toNat_word (by omega),toNat_word (by omega)] at hnat
  exact Fin.ext hnat

/-- The sequencer is right as long as no two workers hold packets with the same leg id. -/
theorem writtenOnce_of_legsApart {s : RxState n}
    (hs : Reachable (rxMachine cfg n) (fun s _ => LegsApart s) s) (ha : LegsApart s) :
    WrittenOnce s := by
  have horder := RxOrder.reachable (fun _ _ h => h) hs
  have hchosen (i : Fin n) (hi : (s.workers i).pc.stage ≠ .out) :
      (s.workers i).pc.chosen = true ∧ (s.workers i).restartme = false :=
    ⟨RxPc.chosen_of_stage hi,horder.steady i hi⟩
  have hphase := horder.phase
  exact ⟨fun i j hi hj => horder.unique ha (hchosen i hi) (hchosen j hj),horder.nextLeg,horder.ids,
    ⟨hphase.1,hphase.2.1⟩,nodup_of_ids horder.ids,hphase.2.2⟩

/-- Both workers pass the test with their own leg, one after the other. -/
def apartRun : List (RxAction 2) :=
  rxConnect 0 ++ rxConnect 1 ++ rxReadWhole 1 (oneByteLeg 1 8) ++
    rxReadWhole 0 (oneByteLeg 0 7) ++ rxSteps 0 3 ++ [.write 0 1] ++ rxSteps 0 5 ++
    rxSteps 1 3 ++ [.write 1 1]

theorem writtenOnce_apartRun :
    ∃ s ∈ exec (rxMachine .plain 2) (fun s _ => LegsApart s) (rxInit 2) apartRun,
      s.output = [7,8] ∧ WrittenOnce s := by
  have hrun : ∃ s ∈ exec (rxMachine .plain 2) (fun s _ => LegsApart s) (rxInit 2) apartRun,
      s.output = [7,8] ∧ LegsApart s := by decide
  obtain ⟨s,hs,hout,ha⟩ := hrun
  exact ⟨s,hs,hout,writtenOnce_of_legsApart (reachable_exec (.init rfl) hs) ha⟩

/-- Two connections present leg 0; both workers pass the test before either increments. -/
def duplicateRun : List (RxAction 2) :=
  rxConnect 0 ++ rxConnect 1 ++ rxReadWhole 0 (oneByteLeg 0 7) ++
    rxReadWhole 1 (oneByteLeg 0 8) ++ rxSteps 0 3 ++ rxSteps 1 3

/-- Both write at the same time; `next_leg` then passes leg 1, which nobody has sent. -/
theorem writtenTwice_of_duplicateRun :
    (∃ s ∈ exec (rxMachine .plain 2) anyStep (rxInit 2) duplicateRun,
      (s.workers 0).pc = .write 0 ∧ (s.workers 1).pc = .write 0) ∧
    (∃ s ∈ exec (rxMachine .plain 2) anyStep (rxInit 2)
        (duplicateRun ++ [.write 0 1,.write 1 1] ++ rxSteps 0 4 ++ rxSteps 1 4),
      s.output = [7,8] ∧ (s.written.map fun p => p.header.legId) = [0,0] ∧ s.nextLeg = 2) ∧
    ¬ ∀ s, Reachable (rxMachine .plain 2) anyStep s → WrittenOnce s := by
  have hboth : ∃ s ∈ exec (rxMachine .plain 2) anyStep (rxInit 2) duplicateRun,
      (s.workers 0).pc = .write 0 ∧ (s.workers 1).pc = .write 0 := by decide
  refine ⟨hboth,by decide,fun hall => ?_⟩
  obtain ⟨s,hs,h0,h1⟩ := hboth
  have halone := (hall s (reachable_exec (.init rfl) hs)).alone 0 1
  simp [h0,h1,RxPc.stage] at halone

end Viamillipede
