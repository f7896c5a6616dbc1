import Viamillipede.Rx

/-! What a step of the receiver can be, and who owns `rxmutex`. -/
namespace Viamillipede

open Bytes Transition

variable {n : ℕ} {cfg : RxConfig}

/-- The pcs of the code before the sequencer, which shares nothing with other workers. -/
def RxPc.fetching : RxPc → Bool
  | .start | .outer | .accept | .inner | .header | .payload => true
  | _ => false

namespace RxWorker

/-- The code between the payload and the sequencer changes nothing that it does not end. -/
theorem sequence_eq {w w' : RxWorker} (h : w.sequence cfg = .ok w') :
    w' = { w with pc := .lock,
                  carried := if w.restartme then w.carried else w.carried++[w.packet] } := by
  unfold sequence at h
  split at h <;> cases h
  rfl

/-- A header on its own, or one with a payload to read. -/
theorem headerRead_cases {w w' : RxWorker} {junk : Millipacket} {bs : List UInt8}
    (h : w.headerRead cfg junk bs = .ok w') :
    ∃ v, v = { w with pkt := junk.overlay bs, cursor := 0,
                      remainder := (junk.overlay bs).size.toNat, got := w.got++bs,
                      reads := w.reads++[bs.length] } ∧
      (v.remainder = 0 ∧ v.sequence cfg = .ok w' ∨
        0 < v.remainder ∧ w' = { v with pc := .payload }) := by
  unfold headerRead at h
  simp only at h
  split at h
  · cases h
  · refine ⟨_,rfl,?_⟩
    split at h
    · exact .inl ⟨‹_›,h⟩
    · cases h
      exact .inr ⟨Nat.pos_of_ne_zero ‹_›,rfl⟩

/-- The end of the connection, the end of the payload, or some more of it. -/
theorem payloadRead_cases {w w' : RxWorker} {bs : List UInt8}
    (h : w.payloadRead cfg bs = .ok w') :
    bs = [] ∧ { w with restartme := true }.sequence cfg = .ok w' ∨
    bs ≠ [] ∧ ∃ v, v = { w with buffer := w.buffer.store w.cursor bs, cursor := w.cursor+bs.length,
                                remainder := w.remainder-bs.length, got := w.got++bs } ∧
      (v.remainder = 0 ∧ v.sequence cfg = .ok w' ∨ 0 < v.remainder ∧ w' = v) := by
  unfold payloadRead at h
  simp only at h
  split at h
  · exact .inl ⟨‹_›,h⟩
  · refine .inr ⟨‹_›,_,rfl,?_⟩
    split at h
    · exact .inl ⟨‹_›,h⟩
    · cases h
      exact .inr ⟨Nat.pos_of_ne_zero ‹_›,rfl⟩

theorem sequence_stream {w w' : RxWorker} (h : w.sequence cfg = .ok w') :
    w'.got = w.got ∧ w'.reads = w.reads ∧ w.carried <+: w'.carried := by
  rw [sequence_eq h]
  refine ⟨rfl,rfl,?_⟩
  split
  · exact List.prefix_refl _
  · exact List.prefix_append _ _

theorem headerRead_stream {w w' : RxWorker} {junk : Millipacket} {bs : List UInt8}
    (h : w.headerRead cfg junk bs = .ok w') :
    w'.got = w.got++bs ∧ w'.reads = w.reads++[bs.length] ∧ w.carried <+: w'.carried := by
  obtain ⟨v,rfl,⟨-,hseq⟩ | ⟨-,rfl⟩⟩ := headerRead_cases h
  · exact sequence_stream hseq
  · exact ⟨rfl,rfl,List.prefix_refl _⟩

theorem payloadRead_stream {w w' : RxWorker} {bs : List UInt8}
    (h : w.payloadRead cfg bs = .ok w') :
    w'.got = w.got++bs ∧ w'.reads = w.reads ∧ w.carried <+: w'.carried := by
  obtain ⟨rfl,hseq⟩ | ⟨-,v,rfl,⟨-,hseq⟩ | ⟨-,rfl⟩⟩ := payloadRead_cases h
  · simpa using sequence_stream hseq
  · exact sequence_stream hseq
  · exact ⟨rfl,rfl,List.prefix_refl _⟩

/-- Only an empty read of a payload is taken for the end of the connection. -/
theorem headerRead_restartme {w w' : RxWorker} {junk : Millipacket} {bs : List UInt8}
    (h : w.headerRead cfg junk bs = .ok w') : w'.restartme = w.restartme := by
  obtain ⟨v,rfl,⟨-,hseq⟩ | ⟨-,rfl⟩⟩ := headerRead_cases h
  · rw [sequence_eq hseq]
  · rfl

theorem payloadRead_restartme {w w' : RxWorker} {bs : List UInt8}
    (h : w.payloadRead cfg bs = .ok w') (hbs : bs ≠ []) : w'.restartme = w.restartme := by
  obtain ⟨hnil,-⟩ | ⟨-,v,rfl,⟨-,hseq⟩ | ⟨-,rfl⟩⟩ := payloadRead_cases h
  · exact absurd hnil hbs
  · rw [sequence_eq hseq]
  · rfl

theorem accepted_eq {w w' : RxWorker} {phrase : List UInt8}
    (h : w.accepted cfg phrase = .ok w') :
    w' = { w with buffer := w.buffer.store 0 phrase, pc := .inner, got := [], carried := [],
                  reads := [] } := by
  unfold accepted at h
  split at h
  · cases h
  · split at h <;> cases h
    rfl

end RxWorker

/-- What a system call on a connection leads to. -/
inductive RxState.Settled (s t : RxState n) (i : Fin n) (r : Except Exit RxWorker) : Prop
  | ended (e : Exit) : r = .error e → t = { s with exited := some e } → Settled s t i r
  | ok (w : RxWorker) : r = .ok w → t = s.setWorker i w → t.exited = none → Settled s t i r

theorem RxState.settled {s : RxState n} (hs : s.exited = none) (i : Fin n)
    (r : Except Exit RxWorker) : s.Settled (s.settle i r) i r := by
  cases r with
  | error e => exact .ended e rfl rfl
  | ok w => exact .ok w rfl rfl hs

theorem rxStep_accept {s t : RxState n} {i : Fin n} {phrase : List UInt8}
    (h : rxStep cfg s (.accept i phrase) = some t) : (s.workers i).pc = .accept ∧
      s.Settled t i ((s.workers i).accepted cfg phrase) := by
  simp only [rxStep] at h
  split at h
  · cases h
  · split at h <;> cases h
    exact ⟨‹_ ∧ _›.1,RxState.settled (Option.not_isSome_iff_eq_none.mp ‹_›) i _⟩

theorem rxStep_readv {s t : RxState n} {i : Fin n} {junk : Millipacket} {bs : List UInt8}
    (h : rxStep cfg s (.readv i junk bs) = some t) : (s.workers i).pc = .header ∧
      bs.length ≤ Millipacket.sizeof ∧
      s.Settled t i ((s.workers i).headerRead cfg junk bs) := by
  simp only [rxStep] at h
  split at h
  · cases h
  · split at h <;> cases h
    have hread := ‹_ ∧ _›
    exact ⟨hread.1,hread.2,RxState.settled (Option.not_isSome_iff_eq_none.mp ‹_›) i _⟩

theorem rxStep_read {s t : RxState n} {i : Fin n} {bs : List UInt8}
    (h : rxStep cfg s (.read i bs) = some t) : (s.workers i).pc = .payload ∧
      bs.length ≤ (s.workers i).remainder ∧
      s.Settled t i ((s.workers i).payloadRead cfg bs) := by
  simp only [rxStep] at h
  split at h
  · cases h
  · split at h <;> cases h
    have hread := ‹_ ∧ _›
    exact ⟨hread.1,(le_min_iff.mp hread.2).1,RxState.settled (Option.not_isSome_iff_eq_none.mp ‹_›) i _⟩

/-- A step of a worker before the sequencer. -/
inductive RxFetch (cfg : RxConfig) (w : RxWorker) : RxWorker → Prop
  | start : w.pc = .start → RxFetch cfg w { w with pc := .outer }
  | quit : w.pc = .outer → RxFetch cfg w { w with pc := .gone }
  | listen : w.pc = .outer → RxFetch cfg w { w with restartme := false, pc := .accept }
  | next : w.pc = .inner → w.restartme = false → RxFetch cfg w { w with pc := .header }
  | leave : w.pc = .inner → RxFetch cfg w { w with pc := .outer }
  | accept (phrase : List UInt8) (w' : RxWorker) : w.pc = .accept →
      w.accepted cfg phrase = .ok w' → RxFetch cfg w w'
  | header (junk : Millipacket) (bs : List UInt8) (w' : RxWorker) : w.pc = .header →
      bs.length ≤ Millipacket.sizeof → w.headerRead cfg junk bs = .ok w' → RxFetch cfg w w'
  | payload (bs : List UInt8) (w' : RxWorker) : w.pc = .payload →
      bs.length ≤ min w.remainder maxbsize → w.payloadRead cfg bs = .ok w' → RxFetch cfg w w'

theorem RxFetch.pc {w w' : RxWorker} (h : RxFetch cfg w w') :
    w.pc.fetching = true ∧ (w'.pc.fetching = true ∨ w'.pc = .lock ∨ w'.pc = .gone) := by
  cases h with
  | start hpc | quit hpc | listen hpc | next hpc | leave hpc => simp [hpc,RxPc.fetching]
  | accept phrase _ hpc hw =>
    rw [RxWorker.accepted_eq hw]
    simp [hpc,RxPc.fetching]
  | header junk bs _ hpc _ hw =>
    obtain ⟨v,-,⟨-,hw⟩ | ⟨-,rfl⟩⟩ := RxWorker.headerRead_cases hw
    · rw [RxWorker.sequence_eq hw]
      simp [hpc,RxPc.fetching]
    · simp [hpc,RxPc.fetching]
  | payload bs _ hpc _ hw =>
    obtain ⟨-,hw⟩ | ⟨-,v,rfl,⟨-,hw⟩ | ⟨-,rfl⟩⟩ := RxWorker.payloadRead_cases hw
    · rw [RxWorker.sequence_eq hw]
      simp [hpc,RxPc.fetching]
    · rw [RxWorker.sequence_eq hw]
      simp [hpc,RxPc.fetching]
    · simp [hpc,RxPc.fetching]

/-- What a step of the receiver is: the sequencer's own steps, one by one, or one before it. -/
inductive RxMove (cfg : RxConfig) (s : RxState n) : RxState n → Prop
  | ended (e : Exit) : RxMove cfg s { s with exited := some e }
  | fetch (i : Fin n) (w : RxWorker) : RxFetch cfg (s.workers i) w →
      RxMove cfg s (s.setWorker i w)
  | acquire (i : Fin n) (pc : RxPc) : s.rxmutex = none →
      ((s.workers i).pc,pc) ∈ [(.lock,.test),(.relock,.test),(.doneLock,.doneSet),(.advLock,.advance)] →
      RxMove cfg s { s.goto i pc with rxmutex := some (.worker i) }
  | pass (i : Fin n) : (s.workers i).pc = .test →
      (s.workers i).pkt.legId = s.nextLeg ∨ (s.workers i).restartme = true →
      RxMove cfg s (s.goto i .unlock)
  | block (i : Fin n) : (s.workers i).pc = .test → (s.workers i).pkt.legId ≠ s.nextLeg →
      (s.workers i).restartme = false → RxMove cfg s (s.goto i .wait)
  | sleep (i : Fin n) : (s.workers i).pc = .wait →
      RxMove cfg s { s.goto i .asleep with rxmutex := none }
  | wake (i : Fin n) : (s.workers i).pc = .asleep → RxMove cfg s (s.goto i .relock)
  | restart (i : Fin n) : (s.workers i).pc = .unlock → (s.workers i).restartme = true →
      RxMove cfg s { s.goto i .inner with rxmutex := none }
  | enter (i : Fin n) : (s.workers i).pc = .unlock → (s.workers i).restartme = false →
      RxMove cfg s { s.goto i (.write 0) with rxmutex := none }
  | writeSome (i : Fin n) (pos count : ℕ) : (s.workers i).pc = .write pos →
      pos+count < (s.workers i).packet.payload.length →
      RxMove cfg s { s.goto i (.write (pos+count)) with
        output := s.output ++ ((s.workers i).packet.payload.drop pos).take count }
  | writeAll (i : Fin n) (pos count : ℕ) : (s.workers i).pc = .write pos →
      pos+count = (s.workers i).packet.payload.length →
      RxMove cfg s { s.goto i .opcode with
        output := s.output ++ ((s.workers i).packet.payload.drop pos).take count
        written := s.written++[(s.workers i).packet] }
  | opcode (i : Fin n) (pc : RxPc) (sum : UInt64) : (s.workers i).pc = .opcode →
      pc = .doneLock ∧ (s.workers i).pkt.opcode = endOfMillipede ∨
        pc = .advLock ∧ (s.workers i).pkt.opcode = feedMore →
      RxMove cfg s { s.goto i pc with grxSavedChecksum := sum }
  | done (i : Fin n) : (s.workers i).pc = .doneSet →
      RxMove cfg s { s.goto i .doneUnlock with doneMbox := true }
  | release (i : Fin n) (pc : RxPc) :
      ((s.workers i).pc,pc) ∈ [(.doneUnlock,.advLock),(.advUnlock,.broadcast)] →
      RxMove cfg s { s.goto i pc with rxmutex := none }
  | advance (i : Fin n) : (s.workers i).pc = .advance →
      RxMove cfg s { s.goto i .advUnlock with nextLeg := s.nextLeg+1, advances := s.advances+1 }
  | broadcast (i : Fin n) : (s.workers i).pc = .broadcast → RxMove cfg s (s.goto i .inner).awaken
  | poll (t : RxState n) : rxPollStep s = some t → RxMove cfg s t

theorem rxRun_cases {s t : RxState n} {i : Fin n} (h : rxRun s i = some t) : RxMove cfg s t := by
  cases hpc : (s.workers i).pc with
  | lock | relock | doneLock | advLock =>
    simp only [rxRun,hpc] at h
    split at h <;> cases h
    exact .acquire i _ ‹_› (by simp [hpc])
  | start =>
    simp only [rxRun,hpc] at h
    split at h <;> cases h
    exact .fetch i _ (.start hpc)
  | outer =>
    simp only [rxRun,hpc] at h
    split at h <;> cases h
    · exact .fetch i _ (.quit hpc)
    · exact .fetch i _ (.listen hpc)
  | inner =>
    simp only [rxRun,hpc,Option.some.injEq] at h
    subst h
    split
    · rename_i hmore
      exact .fetch i _ (.next hpc hmore.2)
    · exact .fetch i _ (.leave hpc)
  | test =>
    simp only [rxRun,hpc,Option.some.injEq] at h
    subst h
    split
    · rename_i hblock
      exact .block i hpc hblock.1 hblock.2
    · exact .pass i hpc (by grind)
  | unlock =>
    simp only [rxRun,hpc,Option.some.injEq] at h
    subst h
    cases hrestart : (s.workers i).restartme
    · exact .enter i hpc hrestart
    · exact .restart i hpc hrestart
  | opcode =>
    simp only [rxRun,hpc,opcodeStep,Option.some.injEq] at h
    subst h
    split
    · rename_i hend
      exact .opcode i .doneLock s.grxSavedChecksum hpc (.inl ⟨rfl,hend⟩)
    · split
      · rename_i hfeed
        split
        · exact .opcode i .advLock _ hpc (.inr ⟨rfl,hfeed⟩)
        · exact .ended _
      · exact .ended _
  | wait =>
    simp only [rxRun,hpc,Option.some.injEq] at h
    exact h ▸ .sleep i hpc
  | doneSet =>
    simp only [rxRun,hpc,Option.some.injEq] at h
    exact h ▸ .done i hpc
  | doneUnlock | advUnlock =>
    simp only [rxRun,hpc,Option.some.injEq] at h
    exact h ▸ .release i _ (by simp [hpc])
  | advance =>
    simp only [rxRun,hpc,Option.some.injEq] at h
    exact h ▸ .advance i hpc
  | broadcast =>
    simp only [rxRun,hpc,Option.some.injEq] at h
    exact h ▸ .broadcast i hpc
  | _ => simp [rxRun,hpc] at h

theorem rxStep_cases {s t : RxState n} {a : RxAction n} (h : rxStep cfg s a = some t) :
    RxMove cfg s t := by
  simp only [rxStep] at h
  split at h
  · cases h
  cases a with
  | run i => exact rxRun_cases h
  | accept i phrase =>
    simp only at h
    split at h <;> cases h
    rename_i hpc
    cases hw : (s.workers i).accepted cfg phrase with
    | error e => exact .ended e
    | ok w => exact .fetch i w (.accept phrase w hpc.1 hw)
  | readv i junk bs =>
    simp only at h
    split at h <;> cases h
    rename_i hpc
    cases hw : (s.workers i).headerRead cfg junk bs with
    | error e => exact .ended e
    | ok w => exact .fetch i w (.header junk bs w hpc.1 hpc.2 hw)
  | read i bs =>
    simp only at h
    split at h <;> cases h
    rename_i hpc
    cases hw : (s.workers i).payloadRead cfg bs with
    | error e => exact .ended e
    | ok w => exact .fetch i w (.payload bs w hpc.1 hpc.2 hw)
  | wake i =>
    simp only at h
    split at h <;> cases h
    exact .wake i ‹_›
  | write i count =>
    simp only [rxWrite] at h
    split at h
    · rename_i pos hpc
      split at h
      · cases h
      · split at h <;> cases h
        · exact .writeSome i pos count hpc ‹_›
        · exact .writeAll i pos count hpc (by omega)
    · cases h
  | poll => exact .poll t h
  | acceptFailed i e | readvFailed i junk | readFailed i =>
    simp only at h
    split at h <;> cases h
    exact .ended _
  | writeShort i =>
    simp only at h
    split at h
    · split at h <;> cases h
      exact .ended _
    · cases h
  | writeFailed i =>
    simp only at h
    split at h <;> cases h
    exact .ended _

@[simp] theorem RxState.setWorker_self (s : RxState n) (i : Fin n) (w : RxWorker) :
    (s.setWorker i w).workers i = w := Function.update_self _ _ _

theorem RxState.setWorker_other (s : RxState n) {i j : Fin n} (h : i ≠ j) (w : RxWorker) :
    (s.setWorker j w).workers i = s.workers i := Function.update_of_ne h _ _

@[simp] theorem RxState.goto_self (s : RxState n) (i : Fin n) (pc : RxPc) :
    (s.goto i pc).workers i = { s.workers i with pc := pc } := Function.update_self ..

theorem RxState.goto_other (s : RxState n) {i j : Fin n} (h : i ≠ j) (pc : RxPc) :
    (s.goto j pc).workers i = s.workers i := Function.update_of_ne h _ _

/-- `rx_poll` moves the main thread and the lock. -/
theorem rxPollStep_eq {s t : RxState n} (h : rxPollStep s = some t) :
    ∃ p m, t = { s with poll := p, rxmutex := m } := by
  cases hpoll : s.poll <;> simp only [rxPollStep,hpoll,Option.some.injEq] at h
  case lock =>
    split at h <;> cases h
    exact ⟨_,_,rfl⟩
  all_goals
    subst h
    exact ⟨_,_,rfl⟩

/-- A broadcast wakes the sleepers and nobody else. -/
theorem RxState.awaken_cases (s : RxState n) (j : Fin n) :
    (s.workers j).pc = .asleep ∧ s.awaken.workers j = { s.workers j with pc := .relock } ∨
      (s.workers j).pc ≠ .asleep ∧ s.awaken.workers j = s.workers j := by
  by_cases hsleep : (s.workers j).pc = .asleep
  · exact .inl ⟨hsleep,if_pos hsleep⟩
  · exact .inr ⟨hsleep,if_neg hsleep⟩

namespace RxPc

/-- From the successful test of `next_leg` to its increment. -/
def chosen : RxPc → Bool
  | .unlock | .write _ | .opcode | .doneLock | .doneSet | .doneUnlock | .advLock | .advance => true
  | _ => false

/-- In the sequencer, with a packet that is not yet counted in `next_leg`. -/
def holding : RxPc → Bool
  | .lock | .test | .wait | .asleep | .relock => true
  | pc => pc.chosen

theorem holding_of_chosen {pc : RxPc} (h : pc.chosen = true) : pc.holding = true := by
  cases pc <;> simp_all [chosen,holding]

/-- The steps of the sequencer; at 159 a worker whose connection has ended leaves it. -/
def leadsTo (restartme : Bool) : RxPc → RxPc → Bool
  | .lock,.test | .relock,.test | .test,.wait | .test,.unlock | .wait,.asleep | .asleep,.relock => true
  | .unlock,.inner => restartme
  | .unlock,.write _ => !restartme
  | .write _,.write _ | .write _,.opcode | .opcode,.doneLock | .opcode,.advLock => true
  | .doneLock,.doneSet | .doneSet,.doneUnlock | .doneUnlock,.advLock | .advLock,.advance => true
  | .advance,.advUnlock | .advUnlock,.broadcast | .broadcast,.inner => true
  | _,_ => false

end RxPc

/-- The worker holds a packet for the sequencer; one whose connection has ended does not. -/
def RxWorker.holds (w : RxWorker) : Bool := w.pc.holding && !w.restartme

/-- What a step makes of one worker. -/
inductive RxWorker.Turn (cfg : RxConfig) (w : RxWorker) : RxWorker → Prop
  | same : Turn cfg w w
  | fetch (w' : RxWorker) : RxFetch cfg w w' → Turn cfg w w'
  | goto (pc : RxPc) : w.pc.leadsTo w.restartme pc = true → Turn cfg w { w with pc := pc }

theorem RxMove.turn {s t : RxState n} (h : RxMove cfg s t) (j : Fin n) :
    RxWorker.Turn cfg (s.workers j) (t.workers j) := by
  have hgoto (i : Fin n) (pc : RxPc)
      (hpc : (s.workers i).pc.leadsTo (s.workers i).restartme pc = true) :
      RxWorker.Turn cfg (s.workers j) ((s.goto i pc).workers j) := by
    by_cases hj : j = i
    · subst hj
      rw [s.goto_self]
      exact .goto pc hpc
    · rw [s.goto_other hj]
      exact .same
  cases h with
  | ended e => exact .same
  | fetch i w hfetch =>
    by_cases hj : j = i
    · subst hj
      rw [s.setWorker_self]
      exact .fetch w hfetch
    · rw [s.setWorker_other hj]
      exact .same
  | acquire i pc _ hpc =>
    simp only [List.mem_cons,Prod.mk.injEq,List.not_mem_nil,or_false] at hpc
    rcases hpc with ⟨hpc,rfl⟩ | ⟨hpc,rfl⟩ | ⟨hpc,rfl⟩ | ⟨hpc,rfl⟩ <;>
      exact hgoto i _ (by rw [hpc]; rfl)
  | release i pc hpc =>
    simp only [List.mem_cons,Prod.mk.injEq,List.not_mem_nil,or_false] at hpc
    rcases hpc with ⟨hpc,rfl⟩ | ⟨hpc,rfl⟩ <;> exact hgoto i _ (by rw [hpc]; rfl)
  | opcode i pc sum hpc hto =>
    rcases hto with ⟨rfl,_⟩ | ⟨rfl,_⟩ <;> exact hgoto i _ (by rw [hpc]; rfl)
  | pass i hpc | block i hpc | sleep i hpc | wake i hpc | writeSome i _ _ hpc | writeAll i _ _ hpc
  | done i hpc | advance i hpc =>
    exact hgoto i _ (by rw [hpc]; rfl)
  | restart i hpc hrestart | enter i hpc hrestart =>
    exact hgoto i _ (by rw [hpc,hrestart]; rfl)
  | broadcast i hpc =>
    by_cases hj : j = i
    · subst hj
      obtain ⟨hsleep,-⟩ | ⟨-,hw⟩ := (s.goto j .inner).awaken_cases j
      · rw [s.goto_self] at hsleep
        cases hsleep
      · rw [hw]
        exact hgoto j .inner (by rw [hpc]; rfl)
    · obtain ⟨hsleep,hw⟩ | ⟨-,hw⟩ := (s.goto i .inner).awaken_cases j
      · rw [s.goto_other hj] at hsleep hw
        rw [hw]
        exact .goto .relock (by rw [hsleep]; rfl)
      · rw [hw,s.goto_other hj]
        exact .same
  | poll t h =>
    obtain ⟨p,m,rfl⟩ := rxPollStep_eq h
    exact .same

/-- Only the `writev` of a worker adds to the output, and to the packets written. -/
theorem RxMove.written {s t : RxState n} (h : RxMove cfg s t) :
    t.output = s.output ∧ t.written = s.written ∨
      ∃ i pos count, (s.workers i).pc = .write pos ∧
        t.output = s.output ++ ((s.workers i).packet.payload.drop pos).take count ∧
        (t.written = s.written ∨ t.written = s.written++[(s.workers i).packet]) := by
  cases h with
  | writeSome i pos count hpc => exact .inr ⟨i,pos,count,hpc,rfl,.inl rfl⟩
  | writeAll i pos count hpc => exact .inr ⟨i,pos,count,hpc,rfl,.inr rfl⟩
  | poll t h =>
    obtain ⟨p,m,rfl⟩ := rxPollStep_eq h
    exact .inl ⟨rfl,rfl⟩
  | _ => exact .inl ⟨rfl,rfl⟩

/-- The history of the current connection is the same, and its end has not been seen. -/
structure RxWorker.SameStream (w w' : RxWorker) : Prop where
  got : w'.got = w.got
  carried : w'.carried = w.carried
  reads : w'.reads = w.reads
  restartme : w.restartme = false → w'.restartme = false

namespace RxWorker.SameStream

theorem refl (w : RxWorker) : w.SameStream w := ⟨rfl,rfl,rfl,id⟩

theorem trans {w w' w'' : RxWorker} (h : w.SameStream w') (h' : w'.SameStream w'') :
    w.SameStream w'' :=
  ⟨h'.got.trans h.got,h'.carried.trans h.carried,h'.reads.trans h.reads,h'.restartme ∘ h.restartme⟩

theorem goto (s : RxState n) (i : Fin n) (pc : RxPc) (j : Fin n) :
    (s.workers j).SameStream ((s.goto i pc).workers j) := by
  rcases eq_or_ne j i with rfl | hne
  · simpa [RxState.goto,RxState.setWorker] using ⟨rfl,rfl,rfl,id⟩
  · simpa [RxState.goto,RxState.setWorker,hne] using refl _

theorem awaken (s : RxState n) (j : Fin n) : (s.workers j).SameStream (s.awaken.workers j) := by
  obtain ⟨-,hw⟩ | ⟨-,hw⟩ := s.awaken_cases j <;> rw [hw]
  · exact ⟨rfl,rfl,rfl,id⟩
  · exact refl _

end RxWorker.SameStream

/-- The action is a system call on a connection. -/
def RxAction.onSocket : RxAction n → Bool
  | .accept _ _ | .readv _ _ _ | .read _ _ => true
  | _ => false

/-- A step that is no call on a connection reads nothing and carries nothing on. -/
theorem rxStep_sameStream {s t : RxState n} {a : RxAction n} (ha : a.onSocket = false)
    (h : rxStep cfg s a = some t) (j : Fin n) : (s.workers j).SameStream (t.workers j) := by
  open RxWorker.SameStream in
  simp only [rxStep] at h
  split at h
  · cases h
  cases a with
  | accept | readv | read => cases ha
  | run i =>
    cases hpc : (s.workers i).pc with
    | outer =>
      simp only [rxRun,hpc] at h
      split at h <;> cases h
      · exact goto s i _ j
      · rcases eq_or_ne j i with rfl | hne
        · simpa [RxState.setWorker] using ⟨rfl,rfl,rfl,fun _ => rfl⟩
        · simpa [RxState.setWorker,hne] using refl _
    | opcode =>
      simp only [rxRun,hpc,opcodeStep,Option.some.injEq] at h
      subst h
      repeat' split
      all_goals first | exact goto s i _ j | exact refl _
    | broadcast =>
      simp only [rxRun,hpc,Option.some.injEq] at h
      subst h
      exact (goto s i _ j).trans (awaken _ j)
    | start | lock | relock | doneLock | advLock =>
      simp only [rxRun,hpc] at h
      split at h <;> cases h
      exact goto s i _ j
    | _ =>
      simp only [rxRun,hpc,Option.some.injEq,reduceCtorEq] at h
      try subst h
      try exact goto s i _ j
  | wake i =>
    simp only at h
    split at h <;> cases h
    exact goto s i _ j
  | write i count =>
    simp only [rxWrite] at h
    split at h
    · split at h
      · cases h
      · split at h <;> cases h <;> exact goto s i _ j
    · cases h
  | poll =>
    obtain ⟨p,m,rfl⟩ := rxPollStep_eq h
    exact refl _
  | acceptFailed | readvFailed | readFailed | writeFailed =>
    simp only at h
    split at h <;> cases h
    exact refl _
  | writeShort i =>
    simp only at h
    split at h
    · split at h <;> cases h
      exact refl _
    · cases h

/-- The thread that an action is a step of. -/
def RxAction.worker : RxAction n → Option (Fin n)
  | .run i | .accept i _ | .acceptFailed i _ | .readv i _ _ | .readvFailed i _ | .read i _ => some i
  | .readFailed i | .wake i | .write i _ | .writeShort i | .writeFailed i => some i
  | .poll => none

/-- A process that has ended takes no step. -/
theorem rxStep_alive {s t : RxState n} {a : RxAction n} (h : rxStep cfg s a = some t) :
    s.exited = none := by
  unfold rxStep at h
  split at h
  · cases h
  · exact Option.not_isSome_iff_eq_none.mp ‹_›

/-- A step of another thread leaves a worker where it is, or wakes it. -/
theorem rxStep_other {s t : RxState n} {a : RxAction n} {i : Fin n} (ha : a.worker ≠ some i)
    (h : rxStep cfg s a = some t) : t.workers i = s.workers i ∨
      (s.workers i).pc = .asleep ∧ t.workers i = { s.workers i with pc := .relock } := by
  simp only [rxStep] at h
  split at h
  · cases h
  cases a with
  | run j =>
    have hne : i ≠ j := fun hij => ha (by rw [hij]; rfl)
    cases hpc : (s.workers j).pc with
    | opcode =>
      simp only [rxRun,hpc,opcodeStep,Option.some.injEq] at h
      subst h
      repeat' split
      all_goals first | exact .inl (s.goto_other hne _) | exact .inl rfl
    | broadcast =>
      simp only [rxRun,hpc,Option.some.injEq] at h
      subst h
      obtain ⟨hsleep,hw⟩ | ⟨-,hw⟩ := (s.goto j .inner).awaken_cases i
      · rw [s.goto_other hne] at hsleep hw
        exact .inr ⟨hsleep,hw⟩
      · exact .inl (hw.trans (s.goto_other hne _))
    | start | outer | lock | relock | doneLock | advLock =>
      simp only [rxRun,hpc] at h
      split at h <;> cases h <;> exact .inl (Function.update_of_ne hne _ _)
    | _ =>
      simp only [rxRun,hpc,Option.some.injEq,reduceCtorEq] at h
      try subst h
      try exact .inl (s.goto_other hne _)
  | accept j | readv j | read j =>
    have hne : i ≠ j := fun hij => ha (by rw [hij]; rfl)
    simp only at h
    split at h <;> cases h
    unfold RxState.settle
    split
    · exact .inl (Function.update_of_ne hne _ _)
    · exact .inl rfl
  | wake j =>
    have hne : i ≠ j := fun hij => ha (by rw [hij]; rfl)
    simp only at h
    split at h <;> cases h
    exact .inl (s.goto_other hne _)
  | write j count =>
    have hne : i ≠ j := fun hij => ha (by rw [hij]; rfl)
    simp only [rxWrite] at h
    split at h
    · split at h
      · cases h
      · split at h <;> cases h <;> exact .inl (RxState.goto_other _ hne _)
    · cases h
  | poll =>
    obtain ⟨p,m,rfl⟩ := rxPollStep_eq h
    exact .inl rfl
  | acceptFailed | readvFailed | readFailed | writeFailed =>
    simp only at h
    split at h <;> cases h
    exact .inl rfl
  | writeShort =>
    simp only at h
    split at h
    · split at h <;> cases h
      exact .inl rfl
    · cases h

/-- The places where a worker owns `rxmutex`. -/
def RxPc.critical : RxPc → Bool
  | .test | .wait | .unlock | .doneSet | .doneUnlock | .advance | .advUnlock => true
  | _ => false

def RxPollPc.critical : RxPollPc → Bool
  | .read | .unlock _ => true
  | _ => false

/-- `rxmutex` excludes. -/
structure RxMutex (s : RxState n) : Prop where
  worker : ∀ i, (s.workers i).pc.critical = true → s.rxmutex = some (.worker i)
  main : s.poll.critical = true → s.rxmutex = some .main

namespace RxMutex

theorem init : RxMutex (rxInit n) where
  worker _ h := by cases h
  main h := by cases h

/-- A move of one worker that keeps the lock, takes it when it is free, or gives it back. -/
theorem of_update {s t : RxState n} {i : Fin n} {w : RxWorker} (hs : RxMutex s)
    (hworkers : t.workers = Function.update s.workers i w) (hpoll : t.poll = s.poll)
    (hmutex : t.rxmutex = s.rxmutex ∧ (w.pc.critical = true → (s.workers i).pc.critical = true) ∨
      s.rxmutex = none ∧ t.rxmutex = some (.worker i) ∨
      (s.workers i).pc.critical = true ∧ t.rxmutex = none ∧ w.pc.critical = false) :
    RxMutex t := by
  constructor
  · intro j hj
    rw [hworkers] at hj
    rcases eq_or_ne j i with rfl | hne
    · rw [Function.update_self] at hj
      rcases hmutex with ⟨hsame,hkeep⟩ | ⟨-,hmine⟩ | ⟨-,-,hout⟩
      · rw [hsame]; exact hs.worker j (hkeep hj)
      · exact hmine
      · simp [hj] at hout
    · rw [Function.update_of_ne hne] at hj
      have hold := hs.worker j hj
      rcases hmutex with ⟨hsame,-⟩ | ⟨hfree,-⟩ | ⟨hcrit,-⟩
      · rw [hsame,hold]
      · simp [hold] at hfree
      · simp [hs.worker i hcrit,hne.symm] at hold
  · intro hmain
    have hold := hs.main (hpoll ▸ hmain)
    rcases hmutex with ⟨hsame,-⟩ | ⟨hfree,-⟩ | ⟨hcrit,-⟩
    · rw [hsame,hold]
    · simp [hold] at hfree
    · simp [hs.worker i hcrit] at hold

theorem move {s t : RxState n} (hs : RxMutex s) (h : RxMove cfg s t) : RxMutex t := by
  cases h with
  | ended e => exact ⟨hs.worker,hs.main⟩
  | fetch i w hfetch =>
    refine hs.of_update rfl rfl (.inl ⟨rfl,fun hcrit => ?_⟩)
    rcases hfetch.pc.2 with hw | hw | hw <;> revert hw hcrit <;> cases w.pc <;>
      simp [RxPc.fetching,RxPc.critical]
  | acquire i pc hfree hpc => exact hs.of_update rfl rfl (.inr (.inl ⟨hfree,rfl⟩))
  | pass i hpc | block i hpc =>
    exact hs.of_update rfl rfl (.inl ⟨rfl,fun _ => by rw [hpc]; rfl⟩)
  | sleep i hpc | restart i hpc | enter i hpc =>
    exact hs.of_update rfl rfl (.inr (.inr ⟨by rw [hpc]; rfl,rfl,rfl⟩))
  | wake i hpc | writeSome i _ _ hpc | writeAll i _ _ hpc =>
    exact hs.of_update rfl rfl (.inl ⟨rfl,fun h => by cases h⟩)
  | opcode i pc sum hpc hto =>
    refine hs.of_update rfl rfl (.inl ⟨rfl,fun h => ?_⟩)
    rcases hto with ⟨rfl,_⟩ | ⟨rfl,_⟩ <;> cases h
  | done i hpc | advance i hpc =>
    exact hs.of_update rfl rfl (.inl ⟨rfl,fun _ => by rw [hpc]; rfl⟩)
  | release i pc hpc =>
    have hcrit : (s.workers i).pc.critical = true ∧ pc.critical = false := by
      simp only [List.mem_cons,Prod.mk.injEq,List.not_mem_nil,or_false] at hpc
      rcases hpc with ⟨hpc,rfl⟩ | ⟨hpc,rfl⟩ <;> simp [hpc,RxPc.critical]
    exact hs.of_update rfl rfl (.inr (.inr ⟨hcrit.1,rfl,hcrit.2⟩))
  | broadcast i hpc =>
    have hgoto : RxMutex (s.goto i .inner) :=
      hs.of_update rfl rfl (.inl ⟨rfl,fun hcrit => by cases hcrit⟩)
    refine ⟨fun j hj => ?_,hgoto.main⟩
    obtain ⟨-,hw⟩ | ⟨-,hw⟩ := (s.goto i .inner).awaken_cases j
    · rw [hw] at hj
      cases hj
    · rw [hw] at hj
      exact hgoto.worker j hj
  | poll t h =>
    cases hpoll : s.poll <;> simp only [rxPollStep,hpoll,Option.some.injEq] at h
    case lock =>
      split at h <;> cases h
      rename_i hfree
      exact ⟨fun j hj => by simp [hs.worker j hj] at hfree,fun _ => rfl⟩
    case unlock done =>
      subst h
      have hmain := hs.main (by rw [hpoll]; rfl)
      exact ⟨fun j hj => by simp [hs.worker j hj] at hmain,fun h => by cases h⟩
    case read =>
      subst h
      exact ⟨hs.worker,fun _ => hs.main (by rw [hpoll]; rfl)⟩
    case returned done =>
      subst h
      exact ⟨hs.worker,fun h => by cases h⟩

theorem step {s t : RxState n} {a : RxAction n} (hs : RxMutex s) (h : rxStep cfg s a = some t) :
    RxMutex t := hs.move (rxStep_cases h)

theorem reachable {ok : RxState n → RxAction n → Prop} {s : RxState n}
    (hs : Reachable (rxMachine cfg n) ok s) : RxMutex s :=
  hs.invariant (by rintro s rfl; exact init) fun _ _ _ _ h _ hstep => h.step hstep

/-- Two workers are never in the critical section at once. -/
theorem unique {s : RxState n} (hs : RxMutex s) {i j : Fin n}
    (hi : (s.workers i).pc.critical = true) (hj : (s.workers j).pc.critical = true) : i = j := by
  simpa [hs.worker i hi] using hs.worker j hj

end RxMutex

end Viamillipede
