import Viamillipede.RxControl

/-! Which tests a packet has passed when it has an effect.

The preamble test reports and goes on, and the tests of the opcode and the checksum stand
behind the `writev`. -/
namespace Viamillipede

open Bytes Transition

variable {n : ℕ} {cfg : RxConfig}

/-- All that `rxworker` tests of a packet; `saved` is `grx_saved_checksum`. -/
structure Valid (saved : UInt64) (pkt : Millipacket) (buffer : Memory) : Prop where
  preamble : pkt.preamble = preambleCannonUl
  size : pkt.size.toNat ≤ kfootsize
  opcode : pkt.opcode = feedMore ∨ pkt.opcode = endOfMillipede
  checksum : pkt.opcode = feedMore → pkt.checksum ≠ 0 →
    mix (saved+pkt.legId).toUInt32 buffer pkt.size = pkt.checksum

instance (saved : UInt64) (pkt : Millipacket) (buffer : Memory) :
    Decidable (Valid saved pkt buffer) :=
  decidable_of_iff (pkt.preamble = preambleCannonUl ∧ pkt.size.toNat ≤ kfootsize ∧
      (pkt.opcode = feedMore ∨ pkt.opcode = endOfMillipede) ∧
      (pkt.opcode = feedMore → pkt.checksum ≠ 0 →
        mix (saved+pkt.legId).toUInt32 buffer pkt.size = pkt.checksum))
    ⟨fun ⟨h1,h2,h3,h4⟩ => ⟨h1,h2,h3,h4⟩,fun ⟨h1,h2,h3,h4⟩ => ⟨h1,h2,h3,h4⟩⟩

/-- Lines 177 to 200 do not end the process. -/
def LatePass (saved : UInt64) (pkt : Millipacket) (buffer : Memory) : Prop :=
  pkt.opcode = endOfMillipede ∨
    pkt.opcode = feedMore ∧ (rxChecksum saved pkt buffer).isSome = true

instance (saved : UInt64) (pkt : Millipacket) (buffer : Memory) :
    Decidable (LatePass saved pkt buffer) :=
  inferInstanceAs (Decidable (_ ∨ _ ∧ _))

/-- The tests of the code, taken together. -/
theorem Valid.of_late {saved : UInt64} {pkt : Millipacket} {buffer : Memory}
    (hpreamble : pkt.preamble = preambleCannonUl) (hsize : pkt.size.toNat ≤ kfootsize)
    (hlate : LatePass saved pkt buffer) : Valid saved pkt buffer := by
  refine ⟨hpreamble,hsize,?_,fun hfeed hsum => ?_⟩
  · rcases hlate with hend | ⟨hfeed,-⟩
    · exact .inr hend
    · exact .inl hfeed
  · have hne : feedMore ≠ endOfMillipede := by decide
    rcases hlate with hend | ⟨-,hsome⟩
    · exact absurd (hfeed.symm.trans hend) hne
    · by_contra hmix
      simp only [rxChecksum,if_neg hsum,if_neg hmix] at hsome
      cases hsome

/-- A change of what the output has received or of the sequencer. -/
def Touches (s t : RxState n) : Prop :=
  t.output ≠ s.output ∨ t.nextLeg ≠ s.nextLeg ∨ t.doneMbox ≠ s.doneMbox ∨
    t.grxSavedChecksum ≠ s.grxSavedChecksum

instance (s t : RxState n) : Decidable (Touches s t) :=
  inferInstanceAs (Decidable (_ ∨ _ ∨ _ ∨ _))

/-- From the tests behind the `writev` to the increment of `next_leg`. -/
def RxPc.judged : RxPc → Bool
  | .doneLock | .doneSet | .doneUnlock | .advLock | .advance => true
  | _ => false

/-- A packet with an effect, and the checksum that its own is to be compared with. -/
structure Effect where
  pkt : Millipacket
  buffer : Memory
  saved : UInt64

/-- The receiver with the history of its effects. `basis` is what `grx_saved_checksum` was
when a worker last came to line 177. -/
structure RxWatch (n : ℕ) where
  rx : RxState n
  basis : Fin n → UInt64
  effects : List Effect

namespace RxWatch

/-- The packet of worker `i`, to be judged by the checksum it is or has been compared with. -/
def effect (l : RxWatch n) (i : Fin n) : Effect where
  pkt := (l.rx.workers i).pkt
  buffer := (l.rx.workers i).buffer
  saved := if (l.rx.workers i).pc.judged then l.basis i else l.rx.grxSavedChecksum

/-- A step of worker `i` to `t` is due to its packet when it touches the output or the sequencer,
or when it computes the checksum of bytes that are in the output. -/
def due (l : RxWatch n) (i : Fin n) (t : RxState n) : Prop :=
  Touches l.rx t ∨ (l.rx.workers i).pc = .opcode ∧ (l.rx.workers i).pkt.size ≠ 0

instance (l : RxWatch n) (i : Fin n) (t : RxState n) : Decidable (l.due i t) :=
  inferInstanceAs (Decidable (_ ∨ _ ∧ _))

/-- A step to `t`. -/
def next (l : RxWatch n) (a : RxAction n) (t : RxState n) : RxWatch n :=
  match a.worker with
  | none => { l with rx := t }
  | some i =>
    { rx := t
      basis := if (l.rx.workers i).pc = .opcode then
        Function.update l.basis i l.rx.grxSavedChecksum else l.basis
      effects := if l.due i t then l.effects++[l.effect i] else l.effects }

end RxWatch

def watchMachine (cfg : RxConfig) (n : ℕ) : Machine (RxWatch n) (RxAction n) where
  init l := l = ⟨rxInit n,fun _ => 0,[]⟩
  step l a := (rxStep cfg l.rx a).map (l.next a)

/-- Every effect is that of a packet that passes all tests. -/
def Validated (l : RxWatch n) : Prop := ∀ e ∈ l.effects, Valid e.saved e.pkt e.buffer

instance (l : RxWatch n) : Decidable (Validated l) :=
  inferInstanceAs (Decidable (∀ e ∈ l.effects, Valid e.saved e.pkt e.buffer))

/-- The two places where a test comes too late do no harm: a packet with bytes to write has the
right preamble and would pass the tests behind the `writev`, which it does pass when it comes
to them, and an empty one that passes them has the right preamble. -/
def Screened (l : RxWatch n) : RxAction n → Prop
  | .write i _ => (l.rx.workers i).pkt.size ≠ 0 →
    (l.rx.workers i).pkt.preamble = preambleCannonUl ∧
      LatePass l.rx.grxSavedChecksum (l.rx.workers i).pkt (l.rx.workers i).buffer
  | .run i => (l.rx.workers i).pc = .opcode →
    if LatePass l.rx.grxSavedChecksum (l.rx.workers i).pkt (l.rx.workers i).buffer then
      (l.rx.workers i).pkt.preamble = preambleCannonUl
    else (l.rx.workers i).pkt.size = 0
  | _ => True

instance (l : RxWatch n) (a : RxAction n) : Decidable (Screened l a) := by
  cases a <;> unfold Screened <;> infer_instance

/-- A worker that has changed its place took the step, unless it was woken. -/
theorem worker_of_moved {s t : RxState n} {a : RxAction n} (h : rxStep cfg s a = some t) {i : Fin n}
    (hawake : (s.workers i).pc ≠ .asleep) (hmoved : (t.workers i).pc ≠ (s.workers i).pc) :
    a.worker = some i := by
  by_contra hother
  rcases rxStep_other hother h with hsame | ⟨hasleep,-⟩
  · exact hmoved (by rw [hsame])
  · exact hawake hasleep

/-- Line 177 is passed, or the process ends there. -/
theorem opcodeStep_cases (s : RxState n) (i : Fin n) :
    (∃ e, opcodeStep s i = { s with exited := some e }) ∧
        ¬ LatePass s.grxSavedChecksum (s.workers i).pkt (s.workers i).buffer ∨
      (∃ pc sum, pc.judged = true ∧ opcodeStep s i = { s.goto i pc with grxSavedChecksum := sum }) ∧
        LatePass s.grxSavedChecksum (s.workers i).pkt (s.workers i).buffer := by
  unfold opcodeStep LatePass
  simp only
  by_cases hend : (s.workers i).pkt.opcode = endOfMillipede
  · rw [if_pos hend]
    exact .inr ⟨⟨.doneLock,s.grxSavedChecksum,rfl,rfl⟩,.inl hend⟩
  · rw [if_neg hend]
    by_cases hfeed : (s.workers i).pkt.opcode = feedMore
    · rw [if_pos hfeed]
      cases hsum : rxChecksum s.grxSavedChecksum (s.workers i).pkt (s.workers i).buffer with
      | some sum => exact .inr ⟨⟨.advLock,sum,rfl,rfl⟩,.inr ⟨hfeed,by simp⟩⟩
      | none => exact .inl ⟨⟨_,rfl⟩,by simp [hend]⟩
    · rw [if_neg hfeed]
      exact .inl ⟨⟨_,rfl⟩,by simp [hend,hfeed]⟩

theorem rxStep_opcode {s t : RxState n} {a : RxAction n} {i : Fin n} (ha : a.worker = some i)
    (hpc : (s.workers i).pc = .opcode) (h : rxStep cfg s a = some t) :
    a = .run i ∧ t = opcodeStep s i := by
  have halive := rxStep_alive h
  cases a <;> simp only [RxAction.worker,Option.some.injEq,reduceCtorEq] at ha <;> subst ha <;>
    simp_all [rxStep,rxRun,rxWrite]

/-- Only the five places at and behind the `writev` touch the output or the sequencer. -/
theorem rxStep_touches {s t : RxState n} {a : RxAction n} (h : rxStep cfg s a = some t)
    (ht : Touches s t) : ∃ i, a.worker = some i ∧
      ((∃ count pos, a = .write i count ∧ (s.workers i).pc = .write pos ∧
          (s.workers i).pkt.size ≠ 0) ∨
        (s.workers i).pc = .opcode ∨ (s.workers i).pc.judged = true) := by
  have hquiet (houtput : t.output = s.output) (hnext : t.nextLeg = s.nextLeg)
      (hdone : t.doneMbox = s.doneMbox) (hsum : t.grxSavedChecksum = s.grxSavedChecksum) : False := by
    rcases ht with h | h | h | h <;> exact h ‹_›
  simp only [rxStep] at h
  split at h
  · cases h
  cases a with
  | run i =>
    refine ⟨i,rfl,?_⟩
    cases hpc : (s.workers i).pc with
    | opcode => exact .inr (.inl rfl)
    | doneLock | doneSet | doneUnlock | advLock | advance => exact .inr (.inr rfl)
    | start | outer | lock | relock =>
      simp only [rxRun,hpc] at h
      split at h <;> cases h <;> exact (hquiet rfl rfl rfl rfl).elim
    | _ =>
      simp only [rxRun,hpc,Option.some.injEq,reduceCtorEq] at h
      try subst h
      try exact (hquiet rfl rfl rfl rfl).elim
  | write i count =>
    simp only [rxWrite] at h
    split at h
    · rename_i pos hpc
      refine ⟨i,rfl,.inl ⟨count,pos,rfl,hpc,fun hsize => ?_⟩⟩
      have hempty : (s.workers i).packet.payload = [] := by
        show (s.workers i).buffer.read (s.workers i).pkt.size.toNat = []
        rw [hsize]
        rfl
      rw [hempty] at h
      split at h
      · cases h
      · split at h <;> cases h <;> exact hquiet (by simp [RxState.goto,RxState.setWorker]) rfl rfl rfl
    · cases h
  | poll =>
    obtain ⟨p,m,rfl⟩ := rxPollStep_eq h
    exact (hquiet rfl rfl rfl rfl).elim
  | accept i | readv i | read i =>
    simp only at h
    split at h <;> cases h
    refine (hquiet ?_ ?_ ?_ ?_).elim <;> unfold RxState.settle <;> split <;> rfl
  | acceptFailed | readvFailed | readFailed | writeFailed | wake =>
    simp only at h
    split at h <;> cases h
    exact (hquiet rfl rfl rfl rfl).elim
  | writeShort =>
    simp only at h
    split at h
    · split at h <;> cases h
      exact (hquiet rfl rfl rfl rfl).elim
    · cases h

/-- What a worker behind the `writev` holds has come there as it is. -/
theorem rxStep_judged {s t : RxState n} {a : RxAction n} (h : rxStep cfg s a = some t) (i : Fin n)
    (hi : (t.workers i).pc.judged = true) :
    ((s.workers i).pc.judged = true ∨ (s.workers i).pc = .opcode) ∧
      (t.workers i).pkt = (s.workers i).pkt ∧ (t.workers i).buffer = (s.workers i).buffer := by
  have hkeep {u : RxState n} {j : Fin n} {pc : RxPc}
      (hworkers : u.workers = Function.update s.workers j { s.workers j with pc := pc })
      (hpc : pc.judged = true → (s.workers j).pc.judged = true ∨ (s.workers j).pc = .opcode)
      (hu : (u.workers i).pc.judged = true) :
      ((s.workers i).pc.judged = true ∨ (s.workers i).pc = .opcode) ∧
        (u.workers i).pkt = (s.workers i).pkt ∧ (u.workers i).buffer = (s.workers i).buffer := by
    rw [hworkers] at hu ⊢
    rcases eq_or_ne i j with rfl | hne
    · rw [Function.update_self] at hu ⊢
      exact ⟨hpc hu,rfl,rfl⟩
    · rw [Function.update_of_ne hne] at hu ⊢
      exact ⟨.inl hu,rfl,rfl⟩
  have hfalse {pc : RxPc} {P : Prop} (hpc : pc.judged = false) : pc.judged = true → P := by
    simp [hpc]
  cases rxStep_cases h with
  | ended e => exact ⟨.inl hi,rfl,rfl⟩
  | fetch j w hfetch =>
    rcases eq_or_ne i j with rfl | hne
    · rw [RxState.setWorker_self] at hi
      rcases hfetch.pc.2 with hw | hw | hw <;> revert hi <;> revert hw <;> cases w.pc <;>
        simp [RxPc.fetching,RxPc.judged]
    · rw [s.setWorker_other hne] at hi ⊢
      exact ⟨.inl hi,rfl,rfl⟩
  | acquire j pc _ hpc =>
    refine hkeep rfl (fun hjudged => ?_) hi
    simp only [List.mem_cons,Prod.mk.injEq,List.not_mem_nil,or_false] at hpc
    rcases hpc with ⟨hpc,rfl⟩ | ⟨hpc,rfl⟩ | ⟨hpc,rfl⟩ | ⟨hpc,rfl⟩ <;>
      first | exact .inl (by rw [hpc]; rfl) | cases hjudged
  | release j pc hpc =>
    refine hkeep rfl (fun hjudged => ?_) hi
    simp only [List.mem_cons,Prod.mk.injEq,List.not_mem_nil,or_false] at hpc
    rcases hpc with ⟨hpc,rfl⟩ | ⟨hpc,rfl⟩
    · exact .inl (by rw [hpc]; rfl)
    · cases hjudged
  | opcode j pc sum hpc => exact hkeep rfl (fun _ => .inr hpc) hi
  | done j hpc => exact hkeep rfl (fun _ => .inl (by rw [hpc]; rfl)) hi
  | pass | block | sleep | wake | restart | enter | writeSome | writeAll | advance =>
    exact hkeep rfl (hfalse rfl) hi
  | broadcast j hpc =>
    obtain ⟨-,hw⟩ | ⟨-,hw⟩ := (s.goto j .inner).awaken_cases i <;> rw [hw] at hi ⊢
    · cases hi
    · exact hkeep rfl (hfalse rfl) hi
  | poll t h =>
    obtain ⟨p,m,rfl⟩ := rxPollStep_eq h
    exact ⟨.inl hi,rfl,rfl⟩

/-- Past the header. -/
def RxPc.fetched : RxPc → Bool
  | .start | .outer | .accept | .inner | .header | .gone => false
  | _ => true

theorem fetched_of_leadsTo {pc pc' : RxPc} {restartme : Bool}
    (h : pc.leadsTo restartme pc' = true) : pc.fetched = true := by
  cases pc <;> first | rfl | cases h

/-- A worker past its header holds a size that line 72 has let through. -/
def RxSized (s : RxState n) : Prop :=
  ∀ i, (s.workers i).pc.fetched = true → (s.workers i).pkt.size.toNat ≤ kfootsize

namespace RxSized

theorem fetch {w w' : RxWorker} (hw : w.pc.fetched = true → w.pkt.size.toNat ≤ kfootsize)
    (h : RxFetch cfg w w') (hpc : w'.pc.fetched = true) : w'.pkt.size.toNat ≤ kfootsize := by
  cases h with
  | start | quit | listen | next | leave => cases hpc
  | accept phrase _ _ h =>
    rw [RxWorker.accepted_eq h] at hpc
    cases hpc
  | header junk bs _ _ _ h =>
    have hsize : (junk.overlay bs).size.toNat ≤ kfootsize := by
      unfold RxWorker.headerRead at h
      simp only at h
      split at h
      · cases h
      · omega
    obtain ⟨v,rfl,⟨-,hseq⟩ | ⟨-,rfl⟩⟩ := RxWorker.headerRead_cases h
    · rw [RxWorker.sequence_eq hseq]
      exact hsize
    · exact hsize
  | payload bs _ hat _ h =>
    have hsize := hw (by rw [hat]; rfl)
    obtain ⟨-,hseq⟩ | ⟨-,v,rfl,⟨-,hseq⟩ | ⟨-,rfl⟩⟩ := RxWorker.payloadRead_cases h
    · rw [RxWorker.sequence_eq hseq]
      exact hsize
    · rw [RxWorker.sequence_eq hseq]
      exact hsize
    · exact hsize

theorem turn {w w' : RxWorker} (hw : w.pc.fetched = true → w.pkt.size.toNat ≤ kfootsize)
    (h : RxWorker.Turn cfg w w') (hpc : w'.pc.fetched = true) : w'.pkt.size.toNat ≤ kfootsize := by
  cases h with
  | same => exact hw hpc
  | fetch _ hfetch => exact fetch hw hfetch hpc
  | goto pc hfrom => exact hw (fetched_of_leadsTo hfrom)

theorem step {s t : RxState n} {a : RxAction n} (hs : RxSized s) (h : rxStep cfg s a = some t) :
    RxSized t :=
  fun j => turn (hs j) ((rxStep_cases h).turn j)

end RxSized

namespace RxWatch

/-- What the tests of a run have established. -/
structure Tested (l : RxWatch n) : Prop where
  sized : RxSized l.rx
  judged : ∀ i, (l.rx.workers i).pc.judged = true →
    Valid (l.basis i) (l.rx.workers i).pkt (l.rx.workers i).buffer
  effects : Validated l

theorem next_rx (l : RxWatch n) (a : RxAction n) (t : RxState n) : (l.next a t).rx = t := by
  unfold next
  split <;> rfl

theorem next_of_worker {l : RxWatch n} {a : RxAction n} {i : Fin n} (ha : a.worker = some i)
    (t : RxState n) : l.next a t =
      { rx := t
        basis := if (l.rx.workers i).pc = .opcode then
          Function.update l.basis i l.rx.grxSavedChecksum else l.basis
        effects := if l.due i t then l.effects++[l.effect i] else l.effects } := by
  unfold next
  rw [ha]

/-- Another worker's basis stays. -/
theorem basis_other {l : RxWatch n} {a : RxAction n} {i : Fin n} (t : RxState n)
    (h : a.worker ≠ some i ∨ (l.rx.workers i).pc ≠ .opcode) : (l.next a t).basis i = l.basis i := by
  cases ha : a.worker with
  | none => simp [next,ha]
  | some j =>
    rw [next_of_worker ha]
    by_cases hpc : (l.rx.workers j).pc = .opcode
    · have hne : i ≠ j := by
        rintro rfl
        exact h.elim (fun h => h ha) fun h => h hpc
      simp [hpc,hne]
    · simp [hpc]

/-- A screened packet at line 177 that is not refused is valid, and so is one with bytes in the
output. -/
theorem valid_of_opcode {l : RxWatch n} {i : Fin n} (hl : l.Tested)
    (hpc : (l.rx.workers i).pc = .opcode) (hscreened : Screened l (.run i))
    (h : LatePass l.rx.grxSavedChecksum (l.rx.workers i).pkt (l.rx.workers i).buffer ∨
      (l.rx.workers i).pkt.size ≠ 0) :
    Valid l.rx.grxSavedChecksum (l.rx.workers i).pkt (l.rx.workers i).buffer := by
  have hscreen := hscreened hpc
  split at hscreen
  · exact .of_late hscreen (hl.sized i (by rw [hpc]; rfl)) ‹_›
  · exact absurd hscreen (h.resolve_left ‹_›)

/-- The packet that a screened step is due to is valid. -/
theorem Tested.due {l : RxWatch n} {a : RxAction n} {t : RxState n} {i : Fin n} (hl : l.Tested)
    (ha : a.worker = some i) (hscreened : Screened l a) (h : rxStep cfg l.rx a = some t)
    (hdue : l.due i t) : Valid (l.effect i).saved (l.effect i).pkt (l.effect i).buffer := by
  have hat {pc : RxPc} (hpc : (l.rx.workers i).pc = pc) (hjudged : pc.judged = false) :
      (l.effect i).saved = l.rx.grxSavedChecksum := by
    rw [effect,hpc,hjudged]
    rfl
  rcases hdue with htouches | ⟨hpc,hsize⟩
  · obtain ⟨j,hj,hcases⟩ := rxStep_touches h htouches
    obtain rfl : i = j := by simpa [ha] using hj
    rcases hcases with ⟨count,pos,rfl,hpc,hsize⟩ | hpc | hjudged
    · obtain ⟨hpreamble,hlate⟩ := hscreened hsize
      rw [hat hpc rfl]
      exact .of_late hpreamble (hl.sized i (by rw [hpc]; rfl)) hlate
    · obtain ⟨rfl,rfl⟩ := rxStep_opcode ha hpc h
      rw [hat hpc rfl]
      refine valid_of_opcode hl hpc hscreened (.inl ?_)
      rcases opcodeStep_cases l.rx i with ⟨⟨e,hended⟩,-⟩ | ⟨-,hlate⟩
      · rw [hended] at htouches
        rcases htouches with h | h | h | h <;> exact absurd rfl h
      · exact hlate
    · rw [effect,hjudged]
      exact hl.judged i hjudged
  · obtain ⟨rfl,rfl⟩ := rxStep_opcode ha hpc h
    rw [hat hpc rfl]
    exact valid_of_opcode hl hpc hscreened (.inr hsize)

theorem Tested.next {l : RxWatch n} {a : RxAction n} {t : RxState n} (hl : l.Tested)
    (hscreened : Screened l a) (h : rxStep cfg l.rx a = some t) : (l.next a t).Tested := by
  refine ⟨?_,fun i hi => ?_,?_⟩
  · rw [next_rx]
    exact hl.sized.step h
  · rw [next_rx] at hi ⊢
    obtain ⟨hfrom,hpkt,hbuffer⟩ := rxStep_judged h i hi
    rw [hpkt,hbuffer]
    rcases hfrom with hfrom | hpc
    · have hne : (l.rx.workers i).pc ≠ .opcode := fun hpc => by rw [hpc] at hfrom; cases hfrom
      rw [basis_other t (.inr hne)]
      exact hl.judged i hfrom
    · have hown : a.worker = some i :=
        worker_of_moved h (by rw [hpc]; decide) fun hsame => by rw [hsame,hpc] at hi; cases hi
      obtain ⟨rfl,rfl⟩ := rxStep_opcode hown hpc h
      have hbasis : (l.next (.run i) (opcodeStep l.rx i)).basis i = l.rx.grxSavedChecksum := by
        rw [next_of_worker hown]
        simp [hpc]
      rw [hbasis]
      refine valid_of_opcode hl hpc hscreened (.inl ?_)
      rcases opcodeStep_cases l.rx i with ⟨⟨e,hended⟩,-⟩ | ⟨-,hlate⟩
      · rw [hended] at hi
        rw [show ({ l.rx with exited := some e } : RxState n).workers i = l.rx.workers i from rfl,
          hpc] at hi
        cases hi
      · exact hlate
  · cases ha : a.worker with
    | none =>
      have heffects : (l.next a t).effects = l.effects := by simp [RxWatch.next,ha]
      unfold Validated
      rw [heffects]
      exact hl.effects
    | some i =>
      unfold Validated
      rw [next_of_worker ha]
      simp only
      by_cases hdue : l.due i t
      · rw [if_pos hdue]
        intro e he
        rw [List.mem_append,List.mem_singleton] at he
        rcases he with he | rfl
        · exact hl.effects e he
        · exact hl.due ha hscreened h hdue
      · rw [if_neg hdue]
        exact hl.effects

theorem Tested.reachable {l : RxWatch n} (hl : Reachable (watchMachine cfg n) Screened l) :
    l.Tested := by
  refine hl.invariant ?_ ?_
  · rintro l rfl
    exact ⟨fun i h => (by cases h),fun i h => (by cases h),fun e he => (by cases he)⟩
  · intro l a m _ htested hscreened hstep
    obtain ⟨t,ht,rfl⟩ := Option.map_eq_some_iff.mp hstep
    exact htested.next hscreened ht

end RxWatch

/-- In a run all of whose packets are screened where the tests come too late, whatever reaches the
output or moves the sequencer has passed every test. -/
theorem validated_of_screened {l : RxWatch n} (hl : Reachable (watchMachine cfg n) Screened l) :
    Validated l := (RxWatch.Tested.reachable hl).effects

/-- A leg of one byte, and the empty packet that ends the stream. -/
def validRun : List (RxAction 1) :=
  rxConnect 0 ++ rxReadWhole 0 (oneByteLeg 0 7) ++ rxSteps 0 3 ++ [.write 0 1] ++ rxSteps 0 6 ++
    [.readv 0 ⟨0,0,0,0,0⟩ (Millipacket.mk preambleCannonUl 1 0 0 endOfMillipede).bytes] ++
    rxSteps 0 3 ++ [.write 0 0] ++ rxSteps 0 8

/-- The write, the two increments and `done_mbox` are effects of valid packets. -/
theorem validated_validRun :
    ∃ l ∈ exec (watchMachine .plain 1) Screened ⟨rxInit 1,fun _ => 0,[]⟩ validRun,
      l.rx.output = [7] ∧ l.rx.nextLeg = 2 ∧ l.rx.doneMbox = true ∧ Validated l := by
  have hrun : ∃ l ∈ exec (watchMachine .plain 1) Screened ⟨rxInit 1,fun _ => 0,[]⟩ validRun,
      l.rx.output = [7] ∧ l.rx.nextLeg = 2 ∧ l.rx.doneMbox = true := by decide
  obtain ⟨l,hl,hout,hnext,hdone⟩ := hrun
  exact ⟨l,hl,hout,hnext,hdone,validated_of_screened (reachable_exec (.init rfl) hl)⟩

/-- One packet of one byte is read, gets its turn and is written; then come `k` more steps. -/
def onePacketRun (header : Millipacket) (k : ℕ) : List (RxAction 1) :=
  rxConnect 0 ++ [.readv 0 ⟨0,0,0,0,0⟩ header.bytes,.read 0 [7]] ++ rxSteps 0 3 ++ [.write 0 1] ++
    rxSteps 0 k

/-- A packet without the preamble is written and counted; one with an unknown opcode, and one
with a wrong checksum, end the process when their payload is in the output. -/
theorem notValidated_onePacketRun :
    (∃ l ∈ exec (watchMachine .plain 1) anyStep ⟨rxInit 1,fun _ => 0,[]⟩
        (onePacketRun ⟨0,0,1,0,feedMore⟩ 3),
      l.rx.output = [7] ∧ l.rx.nextLeg = 1 ∧ ¬ Validated l) ∧
    (∃ l ∈ exec (watchMachine .plain 1) anyStep ⟨rxInit 1,fun _ => 0,[]⟩
        (onePacketRun ⟨preambleCannonUl,0,1,0,0⟩ 1),
      l.rx.output = [7] ∧ l.rx.exited = some (.exit 199) ∧ ¬ Validated l) ∧
    ∃ l ∈ exec (watchMachine .plain 1) anyStep ⟨rxInit 1,fun _ => 0,[]⟩
        (onePacketRun ⟨preambleCannonUl,0,1,1,feedMore⟩ 1),
      l.rx.output = [7] ∧ l.rx.exited = some (.assertion 194) ∧ ¬ Validated l := by
  decide

end Viamillipede
