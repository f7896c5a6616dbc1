import Viamillipede.RxControl

/-! `rxlaunchworkers` and the life of `seq_cv`, which every worker initialises as it starts.

The launcher creates the threads one by one while those it has created run. Here a worker
initialises `seq_cv` whoever waits on it, and the uses of `seq_cv` are recorded. -/
namespace Viamillipede

open Transition

/-- An operation on `seq_cv`. -/
inductive CvOp
  | init
  | wait
  | broadcast
  deriving DecidableEq, Repr

/-- One such operation, and whether a worker was in `pthread_cond_wait` at the time. -/
structure CvUse (n : ℕ) where
  op : CvOp
  worker : Fin n
  waited : Bool
  deriving DecidableEq

/-- The receiver and its launcher; `cursor` is `worker_cursor`. -/
structure RxLaunch (n : ℕ) where
  rx : RxState n
  cursor : ℕ

inductive RxLaunchAction (n : ℕ)
  | create
  | rx (a : RxAction n)
  deriving DecidableEq

variable {n : ℕ} {cfg : RxConfig}

/-- The worker is in `pthread_cond_wait`. -/
def RxPc.inCondWait : RxPc → Bool
  | .asleep | .relock => true
  | _ => false

/-- What the next step of a worker by itself does with `seq_cv`. -/
def RxPc.cvOp : RxPc → Option CvOp
  | .start => some .init
  | .wait => some .wait
  | .broadcast => some .broadcast
  | _ => none

namespace RxState

def waited (s : RxState n) : Bool := decide (∃ i, (s.workers i).pc.inCondWait = true)

def cvUse (s : RxState n) : RxAction n → Option (CvUse n)
  | .run i => (s.workers i).pc.cvOp.map fun op => ⟨op,i,s.waited⟩
  | _ => none

end RxState

/-- One step of the receiver, in which line 16 does not look at the sleepers. -/
def rxStepCv (cfg : RxConfig) (s : RxState n) (a : RxAction n) : Option (RxState n) :=
  match a with
  | .run i =>
    if s.exited = none ∧ (s.workers i).pc = .start then some (s.goto i .outer)
    else rxStep cfg s a
  | _ => rxStep cfg s a

namespace RxLaunch

/-- The thread has been created; the main thread polls when it has launched them all. -/
def enabled (s : RxLaunch n) (a : RxAction n) : Bool :=
  match a.worker with
  | some i => i.val < s.cursor
  | none => n ≤ s.cursor

def cvUse (s : RxLaunch n) : RxLaunchAction n → Option (CvUse n)
  | .create => none
  | .rx a => s.rx.cvUse a

end RxLaunch

def rxLaunchStep (cfg : RxConfig) (s : RxLaunch n) : RxLaunchAction n → Option (RxLaunch n)
  | .create =>
    if s.rx.exited = none ∧ s.cursor < n then some { s with cursor := s.cursor+1 } else none
  | .rx a => if s.enabled a then (rxStepCv cfg s.rx a).map fun t => { s with rx := t } else none

/-- The launch and the receiver with the uses of `seq_cv` so far. -/
def seqCvMachine (cfg : RxConfig) (n : ℕ) :
    Machine (RxLaunch n × List (CvUse n)) (RxLaunchAction n) :=
  Machine.record ⟨fun s => s = ⟨rxInit n,0⟩,rxLaunchStep cfg⟩ fun s a => (s.cvUse a).toList

/-- `seq_cv` is initialised before any other use, and never while a worker waits on it. -/
structure CvInitialised (es : List (CvUse n)) : Prop where
  first : ∀ e ∈ es.head?, e.op = .init
  quiet : ∀ e ∈ es, e.op = .init → e.waited = false

/-- A worker goes to sleep on `seq_cv` only when all have been created and have run line 16. -/
def SleepsLate (p : RxLaunch n × List (CvUse n)) (a : RxLaunchAction n) : Prop :=
  ∀ i, a = .rx (.run i) → (p.1.rx.workers i).pc = .wait → ∀ j, (p.1.rx.workers j).pc ≠ .start

instance (p : RxLaunch n × List (CvUse n)) (a : RxLaunchAction n) : Decidable (SleepsLate p a) := by
  unfold SleepsLate
  infer_instance

/-- A worker does not come back to its start. -/
theorem RxWorker.Turn.started {w w' : RxWorker} (h : w.Turn cfg w') (hw : w.pc ≠ .start) :
    w'.pc ≠ .start := by
  cases h with
  | same => exact hw
  | fetch w' hfetch =>
    cases hfetch with
    | start | quit | listen | next | leave => simp
    | accept phrase _ _ haccept =>
      rw [accepted_eq haccept]
      simp
    | header junk bs _ _ _ hread =>
      obtain ⟨v,-,⟨-,hseq⟩ | ⟨-,rfl⟩⟩ := headerRead_cases hread
      · rw [sequence_eq hseq]
        simp
      · simp
    | payload bs _ hpc _ hread =>
      obtain ⟨-,hseq⟩ | ⟨-,v,rfl,⟨-,hseq⟩ | ⟨-,rfl⟩⟩ := payloadRead_cases hread
      · rw [sequence_eq hseq]
        simp
      · rw [sequence_eq hseq]
        simp
      · simp [hpc]
  | goto pc hpc =>
    rintro rfl
    simp [RxPc.leadsTo] at hpc

theorem RxMove.inCondWait {s t : RxState n} (h : RxMove cfg s t) {i : Fin n}
    (hi : (t.workers i).pc.inCondWait = true) :
    (s.workers i).pc.inCondWait = true ∨ (s.workers i).pc = .wait := by
  have hgoto {j : Fin n} {pc : RxPc} (hpc : pc.inCondWait = false)
      (h : ((s.goto j pc).workers i).pc.inCondWait = true) : (s.workers i).pc.inCondWait = true := by
    by_cases hij : i = j
    · subst hij
      rw [s.goto_self] at h
      simp [hpc] at h
    · rwa [s.goto_other hij] at h
  cases h with
  | ended e => exact .inl hi
  | fetch j w hfetch =>
    by_cases hij : i = j
    · subst hij
      rw [s.setWorker_self] at hi
      rcases hfetch.pc.2 with hw | hw | hw <;> revert hw hi <;> cases w.pc <;>
        simp [RxPc.fetching,RxPc.inCondWait]
    · rw [s.setWorker_other hij] at hi
      exact .inl hi
  | acquire j pc _ hpc =>
    simp only [List.mem_cons,Prod.mk.injEq,List.not_mem_nil,or_false] at hpc
    rcases hpc with ⟨-,rfl⟩ | ⟨-,rfl⟩ | ⟨-,rfl⟩ | ⟨-,rfl⟩ <;> exact .inl (hgoto rfl hi)
  | release j pc hpc =>
    simp only [List.mem_cons,Prod.mk.injEq,List.not_mem_nil,or_false] at hpc
    rcases hpc with ⟨-,rfl⟩ | ⟨-,rfl⟩ <;> exact .inl (hgoto rfl hi)
  | opcode j pc sum _ hto =>
    rcases hto with ⟨rfl,_⟩ | ⟨rfl,_⟩ <;> exact .inl (hgoto rfl hi)
  | sleep j hpc =>
    by_cases hij : i = j
    · subst hij
      exact .inr hpc
    · change ((s.goto j .asleep).workers i).pc.inCondWait = true at hi
      rw [s.goto_other hij] at hi
      exact .inl hi
  | wake j hpc =>
    by_cases hij : i = j
    · subst hij
      exact .inl (by rw [hpc]; rfl)
    · rw [s.goto_other hij] at hi
      exact .inl hi
  | broadcast j hpc =>
    obtain ⟨hsleep,-⟩ | ⟨-,hw⟩ := (s.goto j .inner).awaken_cases i
    · have hslept : ((s.goto j .inner).workers i).pc.inCondWait = true := by
        rw [hsleep]
        rfl
      exact .inl (hgoto rfl hslept)
    · rw [hw] at hi
      exact .inl (hgoto rfl hi)
  | poll t h =>
    obtain ⟨p,m,rfl⟩ := rxPollStep_eq h
    exact .inl hi
  | _ => exact .inl (hgoto rfl hi)

/-- A worker comes to wait by its own step at line 152, and by no other. -/
theorem rxStep_waiting {s t : RxState n} {a : RxAction n} (h : rxStep cfg s a = some t) {i : Fin n}
    (hi : (t.workers i).pc.inCondWait = true) :
    (s.workers i).pc.inCondWait = true ∨ a = .run i ∧ (s.workers i).pc = .wait := by
  apply ((rxStep_cases h).inCondWait hi).imp id
  intro hpc
  refine ⟨?_,hpc⟩
  by_cases ha : a.worker = some i
  · cases a <;> cases ha <;> simp_all [rxStep,rxWrite]
  · obtain hsame | ⟨hsleep,-⟩ := rxStep_other ha h
    · rw [hsame,hpc] at hi
      cases hi
    · rw [hpc] at hsleep
      cases hsleep

/-- A step that is not line 16 is one of the receiver. -/
theorem rxStepCv_cases {s t : RxState n} {a : RxAction n} (h : rxStepCv cfg s a = some t) :
    (∃ i, a = .run i ∧ s.exited = none ∧ (s.workers i).pc = .start ∧ t = s.goto i .outer) ∨
      (∀ i, a = .run i → (s.workers i).pc ≠ .start) ∧ rxStep cfg s a = some t := by
  cases a with
  | run i =>
    simp only [rxStepCv] at h
    split_ifs at h with hstart
    · cases h
      exact .inl ⟨i,rfl,hstart.1,hstart.2,rfl⟩
    · refine .inr ⟨?_,h⟩
      rintro j ⟨⟩ hpc
      exact hstart ⟨rxStep_alive h,hpc⟩
  | _ => exact .inr ⟨by simp,h⟩

/-- The uses of `seq_cv` so far, and what the places of the workers say about the next ones. -/
structure CvLife (p : RxLaunch n × List (CvUse n)) : Prop where
  sound : CvInitialised p.2
  fresh : p.2 = [] → ∀ j, (p.1.rx.workers j).pc = .start
  settled : p.1.rx.waited = true → ∀ j, (p.1.rx.workers j).pc ≠ .start

namespace CvLife

theorem init : CvLife ((⟨rxInit n,0⟩,[]) : RxLaunch n × List (CvUse n)) where
  sound := ⟨by simp,by simp⟩
  fresh _ _ := rfl
  settled h := by simp [RxState.waited,rxInit,RxWorker.launched,RxPc.inCondWait] at h

/-- Line 16, run before anybody waits. -/
theorem start {s : RxLaunch n} {es : List (CvUse n)} (hs : CvLife (s,es)) {i : Fin n}
    (hpc : (s.rx.workers i).pc = .start) :
    CvLife ({ s with rx := s.rx.goto i .outer },es++[⟨.init,i,s.rx.waited⟩]) := by
  have hnobody : s.rx.waited = false := by
    by_contra hwaited
    exact hs.settled (by simpa using hwaited) i hpc
  refine ⟨⟨fun e he => ?_,fun e he hop => ?_⟩,fun h => by simp at h,fun h => ?_⟩
  · cases es with
    | nil =>
      cases he
      rfl
    | cons d ds => exact hs.sound.first e he
  · rw [List.mem_append,List.mem_singleton] at he
    apply he.elim
    · exact fun hold => hs.sound.quiet e hold hop
    · rintro rfl
      exact hnobody
  · obtain ⟨j,hj⟩ := of_decide_eq_true h
    by_cases hji : j = i
    · subst hji
      simp [RxPc.inCondWait] at hj
    · change ((s.rx.goto i .outer).workers j).pc.inCondWait = true at hj
      rw [s.rx.goto_other hji] at hj
      exact absurd hnobody (by simpa [RxState.waited] using ⟨j,hj⟩)

/-- Nothing happens to workers that are all at their start, but line 16. -/
theorem idle {s t : RxState n} {a : RxAction n} (hstart : ∀ j, (s.workers j).pc = .start)
    (hrun : ∀ i, a = .run i → (s.workers i).pc ≠ .start) (h : rxStep cfg s a = some t) (j : Fin n) :
    (t.workers j).pc = .start := by
  cases a with
  | run i => exact absurd (hstart i) (hrun i rfl)
  | poll =>
    have halive := rxStep_alive h
    simp only [rxStep,halive] at h
    obtain ⟨p,m,rfl⟩ := rxPollStep_eq h
    exact hstart j
  | _ => simp [rxStep,rxWrite,hstart] at h

/-- Any other step. -/
theorem other {s : RxLaunch n} {es : List (CvUse n)} (hs : CvLife (s,es)) {a : RxAction n}
    {t : RxState n} (hrun : ∀ i, a = .run i → (s.rx.workers i).pc ≠ .start)
    (hok : SleepsLate (s,es) (.rx a)) (h : rxStep cfg s.rx a = some t) :
    CvLife ({ s with rx := t },es++(s.rx.cvUse a).toList) := by
  have huse (e : CvUse n) (he : s.rx.cvUse a = some e) :
      e.op ≠ .init ∧ (s.rx.workers e.worker).pc ≠ .start := by
    cases a with
    | run i =>
      obtain ⟨op,hop,rfl⟩ := Option.map_eq_some_iff.mp he
      have hpc := hrun i rfl
      refine ⟨?_,hpc⟩
      rintro rfl
      cases hi : (s.rx.workers i).pc <;> simp_all [RxPc.cvOp]
    | _ => cases he
  refine ⟨⟨fun e he => ?_,fun e he hop => ?_⟩,fun hnil => ?_,fun hwaited j => ?_⟩
  · cases es with
    | nil =>
      have hmem : s.rx.cvUse a = some e := by simpa using he
      exact absurd (hs.fresh rfl e.worker) (huse e hmem).2
    | cons d ds => exact hs.sound.first e he
  · rw [List.mem_append] at he
    apply he.elim
    · exact fun hold => hs.sound.quiet e hold hop
    · intro hnew
      exact absurd hop (huse e (by simpa using hnew)).1
  · exact idle (hs.fresh (List.append_eq_nil_iff.mp hnil).1) hrun h
  · obtain ⟨i,hi⟩ := of_decide_eq_true hwaited
    apply ((rxStep_cases h).turn j).started
    apply (rxStep_waiting h hi).elim
    · intro hbefore
      exact hs.settled (decide_eq_true ⟨i,hbefore⟩) j
    · rintro ⟨rfl,hpc⟩
      exact hok i rfl hpc j

theorem step {p q : RxLaunch n × List (CvUse n)} {a : RxLaunchAction n} (hp : CvLife p)
    (hok : SleepsLate p a) (h : (seqCvMachine cfg n).step p a = some q) : CvLife q := by
  obtain ⟨s,es⟩ := p
  obtain ⟨t,ht,rfl⟩ := Option.map_eq_some_iff.mp h
  change rxLaunchStep cfg s a = some t at ht
  cases a with
  | create =>
    simp only [rxLaunchStep] at ht
    split_ifs at ht
    cases ht
    simpa [RxLaunch.cvUse] using ⟨hp.sound,hp.fresh,hp.settled⟩
  | rx a =>
    simp only [rxLaunchStep] at ht
    split_ifs at ht
    obtain ⟨u,hu,rfl⟩ := Option.map_eq_some_iff.mp ht
    obtain ⟨i,rfl,-,hpc,rfl⟩ | ⟨hrun,hstep⟩ := rxStepCv_cases hu
    · simpa [RxLaunch.cvUse,RxState.cvUse,RxPc.cvOp,hpc] using hp.start hpc
    · exact hp.other hrun hok hstep

end CvLife

theorem CvLife.reachable {p : RxLaunch n × List (CvUse n)}
    (hp : Reachable (seqCvMachine cfg n) SleepsLate p) : CvLife p := by
  refine hp.invariant (I := CvLife) ?_ fun _ _ _ _ h hok hstep => h.step hok hstep
  rintro ⟨s,es⟩ ⟨hs,hes⟩
  cases hs
  cases hes
  exact .init

/-- As long as nobody goes to sleep before the last worker has started, `seq_cv` is
initialised first and never under a waiter: for any number of workers, any order of their
creation and start, and any connections and legs. -/
theorem cvInitialised_of_sleepsLate {p : RxLaunch n × List (CvUse n)}
    (hp : Reachable (seqCvMachine cfg n) SleepsLate p) : CvInitialised p.2 :=
  (CvLife.reachable hp).sound

/-- Such a run is one of the receiver whose threads have all been created. -/
theorem rx_reachable {p : RxLaunch n × List (CvUse n)}
    (hp : Reachable (seqCvMachine cfg n) SleepsLate p) :
    Reachable (rxMachine cfg n) anyStep p.1.rx := by
  induction hp with
  | @init p h =>
    have hrx : p.1.rx = rxInit n := congrArg RxLaunch.rx h.1
    exact .init hrx
  | @step p q a hr _ hst ih =>
    have hlife := CvLife.reachable hr
    obtain ⟨t,ht,rfl⟩ := Option.map_eq_some_iff.mp hst
    change rxLaunchStep cfg p.1 a = some t at ht
    cases a with
    | create =>
      simp only [rxLaunchStep] at ht
      split_ifs at ht
      cases ht
      exact ih
    | rx a =>
      simp only [rxLaunchStep] at ht
      split_ifs at ht
      obtain ⟨u,hu,rfl⟩ := Option.map_eq_some_iff.mp ht
      refine ih.step (a := a) trivial ?_
      change rxStep cfg p.1.rx a = some u
      obtain ⟨i,rfl,halive,hpc,rfl⟩ | ⟨-,hstep⟩ := rxStepCv_cases hu
      · have hawake : ∀ j, (p.1.rx.workers j).pc ≠ .asleep := by
          intro j hj
          have hwaited : p.1.rx.waited = true := decide_eq_true ⟨j,by rw [hj]; rfl⟩
          exact hlife.settled hwaited i hpc
        simp [rxStep,rxRun,halive,hpc,hawake]
      · exact hstep

/-- Two workers start, then one goes to sleep on leg 1. -/
theorem cvInitialised_thenWait :
    ∃ p, Reachable (seqCvMachine .plain 2) SleepsLate p ∧
      p.2 = [⟨.init,1,false⟩,⟨.init,0,false⟩,⟨.wait,0,false⟩] ∧ CvInitialised p.2 := by
  have hrun : ∃ p ∈ exec (seqCvMachine .plain 2) SleepsLate (⟨rxInit 2,0⟩,[])
      ([.create,.create,.rx (.run 1)]++
        (rxConnect 0++rxReadWhole 0 (oneByteLeg 1 7)++rxSteps 0 3).map .rx),
      p.2 = [⟨.init,1,false⟩,⟨.init,0,false⟩,⟨.wait,0,false⟩] := by decide
  have hinit : (seqCvMachine .plain 2).init (⟨rxInit 2,0⟩,[]) := ⟨rfl,rfl⟩
  obtain ⟨p,hp,huses⟩ := exists_reachable hinit hrun
  exact ⟨p,hp,huses,cvInitialised_of_sleepsLate hp⟩

/-- The first worker is asleep, waiting for leg 0, when the second one starts and initialises
`seq_cv` again. -/
theorem cvInitialised_fails :
    ∃ p, Reachable (seqCvMachine .plain 2) anyStep p ∧ (p.1.rx.workers 0).pc = .asleep ∧
      p.2 = [⟨.init,0,false⟩,⟨.wait,0,false⟩,⟨.init,1,true⟩] ∧ ¬ CvInitialised p.2 := by
  have hrun : ∃ p ∈ exec (seqCvMachine .plain 2) anyStep (⟨rxInit 2,0⟩,[])
      ([.create]++(rxConnect 0++rxReadWhole 0 (oneByteLeg 1 7)++rxSteps 0 3).map .rx++
        [.create,.rx (.run 1)]),
      (p.1.rx.workers 0).pc = .asleep ∧
        p.2 = [⟨.init,0,false⟩,⟨.wait,0,false⟩,⟨.init,1,true⟩] := by decide
  have hinit : (seqCvMachine .plain 2).init (⟨rxInit 2,0⟩,[]) := ⟨rfl,rfl⟩
  obtain ⟨p,hp,hasleep,huses⟩ := exists_reachable hinit hrun
  refine ⟨p,hp,hasleep,huses,fun h => ?_⟩
  have hquiet := h.quiet ⟨.init,1,true⟩ (by simp [huses]) rfl
  cases hquiet

end Viamillipede
