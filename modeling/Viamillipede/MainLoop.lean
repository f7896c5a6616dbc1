import Viamillipede.SessionOutput
import Viamillipede.TxPoll

/-! The loop at the end of `main`, in two processes that are connected both ways.

Either process may transmit, receive or do both, and ends with `exit(0)` when its polls have
returned 1 in one pass. What else one half of a process does to the other is to end it: there
is no step behind an assertion that fails or an error that `checkperror` finds. -/
namespace Viamillipede

open Bytes Transition

/-- One of the two processes. -/
inductive Peer
  | near
  | far
  deriving DecidableEq

def Peer.other : Peer → Peer
  | .near => .far
  | .far => .near

@[simp] theorem Peer.other_other (x : Peer) : x.other.other = x := by cases x <;> rfl

/-- Where `main` is behind line 218 of `viamillipede.c`. -/
inductive LoopPc
  | test                    -- 224
  | txPoll                  -- 226
  | rxPoll                  -- 230
  | sleep                   -- 233
  | finished                -- 236
  deriving DecidableEq, Repr

/-- The locals of the loop. -/
structure MainLoop where
  pc : LoopPc
  txpollDone : Bool
  rxpollDone : Bool
  deriving DecidableEq, Repr

namespace MainLoop

/-- Lines 219 and 220. -/
def enter : MainLoop := ⟨.test,false,false⟩

/-- Line 224. -/
def tested (m : MainLoop) : MainLoop :=
  { m with pc := if m.txpollDone.toNat+m.rxpollDone.toNat < 2 then .txPoll else .finished }

/-- Line 226, with `tx_poll` at `pc`. -/
def txPolled (m : MainLoop) : PollPc → MainLoop
  | .returned done => { m with pc := .rxPoll, txpollDone := done }
  | _ => m

@[simp] theorem txPolled_rxpollDone (m : MainLoop) (pc : PollPc) :
    (m.txPolled pc).rxpollDone = m.rxpollDone := by cases pc <;> rfl

/-- Line 230, with `rx_poll` at `pc`. -/
def rxPolled (m : MainLoop) : RxPollPc → MainLoop
  | .returned done => { m with pc := .sleep, rxpollDone := done }
  | _ => m

@[simp] theorem rxPolled_txpollDone (m : MainLoop) (pc : RxPollPc) :
    (m.rxPolled pc).txpollDone = m.txpollDone := by cases pc <;> rfl

end MainLoop

/-- The mode bits of each process, and what its stream goes through. -/
structure DuplexConfig where
  modeTx : Peer → Bool
  modeRx : Peer → Bool
  session : Peer → SessionConfig

/-- The main loop of each process, and the session by which it sends to the other. -/
structure Duplex (W : Peer → ℕ) where
  loop : Peer → MainLoop
  stream : (x : Peer) → Session (W x)

/-- What may happen next: a stream moves, or a main thread. -/
inductive DuplexAction (W : Peer → ℕ)
  | stream (x : Peer) (a : SessionAction (W x))
  | main (x : Peer)

namespace SessionAction

variable {W : ℕ}

/-- The sending process takes part. -/
def sends : SessionAction W → Bool
  | .connect _ | .tx _ => true
  | _ => false

/-- The receiving process takes part. -/
def receives : SessionAction W → Bool
  | .connect _ | .rx _ | .readv _ _ _ | .read _ _ => true
  | _ => false

/-- The step is one of `tx_poll` or `rx_poll`. -/
def polls : SessionAction W → Bool
  | .tx .poll | .rx .poll => true
  | _ => false

end SessionAction

variable {W : Peer → ℕ} {c : DuplexConfig}

namespace Duplex

def setLoop (d : Duplex W) (x : Peer) (m : MainLoop) : Duplex W :=
  { d with loop := Function.update d.loop x m }

def setStream (d : Duplex W) (x : Peer) (s : Session (W x)) : Duplex W :=
  { d with stream := Function.update d.stream x s }

/-- The process has not ended in either of its halves. -/
def Alive (d : Duplex W) (x : Peer) : Prop :=
  (d.loop x).pc ≠ .finished ∧ (d.stream x).tx.exited = none ∧ (d.stream x.other).rx.exited = none

instance (d : Duplex W) (x : Peer) : Decidable (d.Alive x) := inferInstanceAs (Decidable (_ ∧ _))

/-- A stream moves by threads of the processes that are alive and in the mode for it; the
polls are up to the main threads. -/
def May (c : DuplexConfig) (d : Duplex W) (x : Peer) (a : SessionAction (W x)) : Prop :=
  a.polls = false ∧ (a.sends = true → d.Alive x ∧ c.modeTx x = true) ∧
    (a.receives = true → d.Alive x.other ∧ c.modeRx x.other = true)

instance (c : DuplexConfig) (d : Duplex W) (x : Peer) (a : SessionAction (W x)) :
    Decidable (d.May c x a) := inferInstanceAs (Decidable (_ ∧ _ ∧ _))

/-- One step of a main thread: of one of the polls, or of the loop around them. -/
def main (c : DuplexConfig) (d : Duplex W) (x : Peer) : Option (Duplex W) :=
  let m := d.loop x
  match m.pc with
  | .test => some (d.setLoop x m.tested)
  | .txPoll =>
    if c.modeTx x then
      (sessionStep (c.session x) (d.stream x) (.tx .poll)).map fun s =>
        (d.setStream x s).setLoop x (m.txPolled s.tx.poll.pc)
    else some (d.setLoop x { m with pc := .rxPoll, txpollDone := true })
  | .rxPoll =>
    if c.modeRx x then
      (sessionStep (c.session x.other) (d.stream x.other) (.rx .poll)).map fun s =>
        (d.setStream x.other s).setLoop x (m.rxPolled s.rx.poll)
    else some (d.setLoop x { m with pc := .sleep, rxpollDone := true })
  | .sleep => some (d.setLoop x { m with pc := .test })
  | .finished => none

end Duplex

def duplexStep (c : DuplexConfig) (d : Duplex W) : DuplexAction W → Option (Duplex W)
  | .stream x a =>
    if d.May c x a then (sessionStep (c.session x) (d.stream x) a).map (d.setStream x) else none
  | .main x => if d.Alive x then d.main c x else none

def duplexInit (W : Peer → ℕ) : Duplex W := ⟨fun _ => .enter,fun x => sessionInit (W x)⟩

def duplexMachine (c : DuplexConfig) (W : Peer → ℕ) : Machine (Duplex W) (DuplexAction W) where
  init := fun d => d = duplexInit W
  step := duplexStep c

/-- The streams are orderly, and `tx_poll` does not read `input_eof` too early. -/
def OrderlyDuplex (d : Duplex W) : DuplexAction W → Prop
  | .stream x a => Orderly (d.stream x) a
  | .main x => (d.loop x).pc = .txPoll → SoundSample (d.stream x).tx .poll

instance (d : Duplex W) (a : DuplexAction W) : Decidable (OrderlyDuplex d a) := by
  cases a <;> unfold OrderlyDuplex <;> infer_instance

/-- The same for one session. -/
def OrderlySound {W : ℕ} (s : Session W) (a : SessionAction W) : Prop :=
  Orderly s a ∧ ∀ b ∈ a.txAction, SoundSample s.tx b

section Polls

variable {n : ℕ}

theorem settle_poll (s : RxState n) (i : Fin n) (r : Except Exit RxWorker) :
    (s.settle i r).poll = s.poll := by cases r <;> rfl

theorem rxRun_poll {s t : RxState n} {i : Fin n} (h : rxRun s i = some t) : t.poll = s.poll := by
  cases hpc : (s.workers i).pc <;> simp only [rxRun,hpc] at h
  all_goals try split at h
  all_goals cases h
  all_goals try rfl
  unfold opcodeStep
  simp only
  split_ifs
  · rfl
  · split <;> rfl
  · rfl

/-- Only `rx_poll` moves `rx_poll`. -/
theorem rxStep_poll {cfg : RxConfig} {s t : RxState n} {a : RxAction n} (ha : a ≠ .poll)
    (h : rxStep cfg s a = some t) : t.poll = s.poll := by
  simp only [rxStep] at h
  split at h
  · cases h
  cases a with
  | run i => exact rxRun_poll h
  | write i count =>
    cases hpc : (s.workers i).pc <;> simp only [rxWrite,hpc,reduceCtorEq] at h
    split at h
    · cases h
    · split at h <;> cases h <;> rfl
  | poll => exact absurd rfl ha
  | _ =>
    simp only at h
    split at h
    all_goals try split at h
    all_goals cases h
    all_goals first | rfl | exact settle_poll _ _ _

/-- And only `tx_poll` moves `tx_poll`. -/
theorem txStep_pollPc {W : ℕ} {cfg : TxConfig} {s t : TxState W} {a : TxAction W} (ha : a ≠ .poll)
    (h : txStep cfg s a = some t) : t.poll.pc = s.poll.pc := by
  cases txStep_cases h with
  | ingest _ heffect => exact (TxPoll.change_progress heffect.change).1
  | fillFailed _ ht | worker _ _ _ _ _ ht => subst ht; rfl
  | poll hpoll _ => exact absurd hpoll ha

theorem polls_of_session {W : ℕ} {cfg : SessionConfig} {s t : Session W} {a : SessionAction W}
    (ha : a.polls = false) (h : sessionStep cfg s a = some t) :
    t.tx.poll.pc = s.tx.poll.pc ∧ t.rx.poll = s.rx.poll := by
  cases sessionStep_cases h with
  | connect i tx rx htx hrx ht =>
    subst ht
    exact ⟨txStep_pollPc (by simp) htx,rxStep_poll (by simp) hrx⟩
  | tx b tx _ htx ht =>
    refine ht ▸ ⟨txStep_pollPc ?_ htx,rfl⟩
    rintro rfl
    cases ha
  | rx b rx _ hrx ht =>
    refine ht ▸ ⟨rfl,rxStep_poll ?_ hrx⟩
    rintro rfl
    cases ha
  | readv i junk count rx _ hrx ht | read i count rx _ hrx ht =>
    subst ht
    exact ⟨rfl,rxStep_poll (by simp) hrx⟩
  | drop _ _ _ _ _ ht => exact ht ▸ ⟨rfl,rfl⟩

end Polls

/-- What the main threads know of the streams. -/
structure DuplexSound (c : DuplexConfig) (d : Duplex W) : Prop where
  session : ∀ x, Reachable (sessionMachine (c.session x) (W x)) OrderlySound (d.stream x)
  tx : ∀ x, c.modeTx x = true → (d.loop x).txpollDone = true → (d.loop x).pc ≠ .txPoll →
    (d.stream x).tx.poll.pc = .returned true
  rx : ∀ x, c.modeRx x = true → (d.loop x).rxpollDone = true → (d.loop x).pc ≠ .rxPoll →
    (d.stream x.other).rx.poll = .returned true
  finished : ∀ x, (d.loop x).pc = .finished →
    (d.loop x).txpollDone = true ∧ (d.loop x).rxpollDone = true

namespace DuplexSound

variable {d e : Duplex W}

theorem init : DuplexSound c (duplexInit W) where
  session _ := .init rfl
  tx _ _ h := by cases h
  rx _ _ h := by cases h
  finished _ h := by cases h

/-- A stream moves, and a poll only while its main thread is in it. -/
theorem stream (hd : DuplexSound c d) {x : Peer} {s : Session (W x)}
    (hs : Reachable (sessionMachine (c.session x) (W x)) OrderlySound s)
    (htx : (d.loop x).pc = .txPoll ∨ s.tx.poll.pc = (d.stream x).tx.poll.pc)
    (hrx : (d.loop x.other).pc = .rxPoll ∨ s.rx.poll = (d.stream x).rx.poll) :
    DuplexSound c (d.setStream x s) := by
  refine ⟨fun y => ?_,fun y hm hdone hpc => ?_,fun y hm hdone hpc => ?_,hd.finished⟩
  · rcases eq_or_ne y x with rfl | hne
    · simpa [Duplex.setStream] using hs
    · simpa [Duplex.setStream,hne] using hd.session y
  · have hold := hd.tx y hm hdone hpc
    rcases eq_or_ne y x with rfl | hne
    · simpa [Duplex.setStream] using (htx.resolve_left hpc).trans hold
    · simpa [Duplex.setStream,hne] using hold
  · have hold := hd.rx y hm hdone hpc
    rcases eq_or_ne y.other x with rfl | hne
    · rw [Peer.other_other] at hrx
      simpa [Duplex.setStream] using (hrx.resolve_left hpc).trans hold
    · simpa [Duplex.setStream,hne] using hold

/-- A main thread moves. -/
theorem loop (hd : DuplexSound c d) {x : Peer} {m : MainLoop}
    (htx : c.modeTx x = true → m.txpollDone = true → m.pc ≠ .txPoll →
      (d.stream x).tx.poll.pc = .returned true)
    (hrx : c.modeRx x = true → m.rxpollDone = true → m.pc ≠ .rxPoll →
      (d.stream x.other).rx.poll = .returned true)
    (hfinished : m.pc = .finished → m.txpollDone = true ∧ m.rxpollDone = true) :
    DuplexSound c (d.setLoop x m) := by
  refine ⟨hd.session,fun y => ?_,fun y => ?_,fun y => ?_⟩ <;> rcases eq_or_ne y x with rfl | hne
  · simpa [Duplex.setLoop] using htx
  · simpa [Duplex.setLoop,hne] using hd.tx y
  · simpa [Duplex.setLoop] using hrx
  · simpa [Duplex.setLoop,hne] using hd.rx y
  · simpa [Duplex.setLoop] using hfinished
  · simpa [Duplex.setLoop,hne] using hd.finished y

/-- One step of a main thread. -/
theorem main (hd : DuplexSound c d) {x : Peer}
    (ha : (d.loop x).pc = .txPoll → SoundSample (d.stream x).tx .poll)
    (h : d.main c x = some e) : DuplexSound c e := by
  cases hpc : (d.loop x).pc with
  | test =>
    simp only [Duplex.main,hpc,Option.some.injEq] at h
    subst h
    have htx := hd.tx x
    have hrx := hd.rx x
    simp only [hpc] at htx hrx
    refine hd.loop (fun hm hdone _ => htx hm hdone (by simp)) (fun hm hdone _ => hrx hm hdone (by simp))
      fun hfinished => ?_
    cases htd : (d.loop x).txpollDone <;> cases hrd : (d.loop x).rxpollDone <;>
      simp [MainLoop.tested,htd,hrd] at hfinished ⊢
  | sleep =>
    simp only [Duplex.main,hpc,Option.some.injEq] at h
    subst h
    have htx := hd.tx x
    have hrx := hd.rx x
    simp only [hpc] at htx hrx
    exact hd.loop (fun hm hdone _ => htx hm hdone (by simp))
      (fun hm hdone _ => hrx hm hdone (by simp)) nofun
  | finished => simp [Duplex.main,hpc] at h
  | txPoll =>
    have hrx := hd.rx x
    simp only [hpc] at hrx
    simp only [Duplex.main,hpc] at h
    split at h
    · obtain ⟨s,hstep,rfl⟩ := Option.map_eq_some_iff.mp h
      have horderly : OrderlySound (d.stream x) (.tx .poll) :=
        ⟨⟨⟨rfl,rfl,rfl⟩,fun b hb i hi => by cases hb; cases hi⟩,fun b hb => by cases hb; exact ha hpc⟩
      have hkeep : s.rx = (d.stream x).rx := by
        cases sessionStep_cases hstep with
        | tx _ _ _ _ ht => rw [ht]; rfl
      have hmid := hd.stream ((hd.session x).step horderly hstep) (.inl hpc) (.inr (by rw [hkeep]))
      refine hmid.loop ?_ (fun hm hdone _ => hmid.rx x hm ?_ ?_) ?_
      · cases hp : s.tx.poll.pc <;> simp [MainLoop.txPolled,Duplex.setStream,hpc,hp]
      · simpa [Duplex.setStream] using hdone
      · simp [Duplex.setStream,hpc]
      · cases hp : s.tx.poll.pc <;> simp [MainLoop.txPolled,hpc]
    · rename_i hmode
      cases h
      exact hd.loop (fun hm => absurd hm hmode) (fun hm hdone _ => hrx hm hdone (by simp)) nofun
  | rxPoll =>
    have htx := hd.tx x
    simp only [hpc] at htx
    simp only [Duplex.main,hpc] at h
    split at h
    · obtain ⟨s,hstep,rfl⟩ := Option.map_eq_some_iff.mp h
      have horderly : OrderlySound (d.stream x.other) (.rx .poll) :=
        ⟨⟨⟨rfl,rfl,rfl⟩,fun b hb => by cases hb⟩,fun b hb => by cases hb⟩
      have hkeep : s.tx = (d.stream x.other).tx := by
        cases sessionStep_cases hstep with
        | rx _ _ _ _ ht => rw [ht]
      have hmid := hd.stream ((hd.session x.other).step horderly hstep) (.inr (by rw [hkeep]))
        (.inl (by rw [Peer.other_other]; exact hpc))
      refine hmid.loop (fun hm hdone _ => hmid.tx x hm ?_ ?_) ?_ ?_
      · simpa [Duplex.setStream] using hdone
      · simp [Duplex.setStream,hpc]
      · cases hp : s.rx.poll <;> simp [MainLoop.rxPolled,Duplex.setStream,hpc,hp]
      · cases hp : s.rx.poll <;> simp [MainLoop.rxPolled,hpc]
    · rename_i hmode
      cases h
      exact hd.loop (fun hm hdone _ => htx hm hdone (by simp)) (fun hm => absurd hm hmode) nofun

theorem step (hd : DuplexSound c d) {a : DuplexAction W} (ha : OrderlyDuplex d a)
    (h : duplexStep c d a = some e) : DuplexSound c e := by
  cases a with
  | main x =>
    simp only [duplexStep] at h
    split at h
    · exact hd.main ha h
    · cases h
  | stream x a =>
    simp only [duplexStep] at h
    split at h
    · rename_i hmay
      obtain ⟨s,hstep,rfl⟩ := Option.map_eq_some_iff.mp h
      have hpolls := polls_of_session hmay.1 hstep
      refine hd.stream ((hd.session x).step ⟨ha,fun b hb hpoll => ?_⟩ hstep) (.inr hpolls.1)
        (.inr hpolls.2)
      have hnot := hmay.1
      cases a <;> cases hb
      simp [hpoll,SessionAction.polls] at hnot
    · cases h

theorem reachable (hd : Reachable (duplexMachine c W) OrderlyDuplex d) : DuplexSound c d :=
  hd.invariant (by rintro d rfl; exact init) fun _ _ _ _ h ha hstep => h.step ha hstep

end DuplexSound

/-- What a process that ends with `exit(0)` has done: all that the other one was to send is
written, and all that it was to send itself is on its sockets. -/
structure EndsWhole (c : DuplexConfig) (d : Duplex W) (x : Peer) : Prop where
  received : c.modeRx x = true → (d.stream x.other).tx.ended = true ∧
    (d.stream x.other).rx.output = payloads ((d.stream x.other).sent (c.session x.other))
  sent : c.modeTx x = true → (d.stream x).tx.ended = true ∧ ∀ i, (d.stream x).tx.wire i =
    Packet.code.encodeAll ((d.stream x).stream (c.session x) i)

/-- In any mode, and with whatever the other process does, a process ends normally only when
both of its streams are whole. -/
theorem endsWhole_of_finished (hW : ∀ x, W x ≤ kthreadmax) {d : Duplex W}
    (hd : Reachable (duplexMachine c W) OrderlyDuplex d) {x : Peer}
    (hfinished : (d.loop x).pc = .finished) : EndsWhole c d x := by
  have hsound := DuplexSound.reachable hd
  obtain ⟨htxDone,hrxDone⟩ := hsound.finished x hfinished
  constructor
  · intro hm
    have hpoll := hsound.rx x hm hrxDone (by simp [hfinished])
    have horder := inOrder_of_orderly (hW x.other) ((hsound.session x.other).mono fun _ _ ha => ha.1)
    exact horder.done (horder.told hpoll)
  · intro hm
    have hpoll := hsound.tx x hm htxDone (by simp [hfinished])
    have htx : Reachable (txMachine (c.session x).tx (W x)) SoundPoll (d.stream x).tx :=
      Session.tx_reachable (fun _ _ => ⟨nofun,fun _ h _ => by cases h⟩)
        (fun _ _ ha => ⟨ha.2 _ rfl,ha.1.2 _ rfl⟩) (hsound.session x)
    obtain ⟨hended,hnone⟩ := (TxPoll.reachable (fun _ _ h => h.1) htx).returned hpoll
    refine ⟨hended,fun i => ?_⟩
    have hpushes := (TxHandover.reachable (fun _ _ h => h.2) htx).pushes i
    rw [Session.stream]
    simpa only [TxWorker.Pushes,hnone i] using hpushes

/-- One leg of one byte and the end of the stream, up to the sequencer of the other process. -/
def streamRun (x : Peer) (b : UInt8) : List (DuplexAction fun _ => 1) :=
  .map (.stream x) (.flatten [meet 0,txRun (pushOne (oneByte b) 41 ++ workerSteps 0 4),
    [.readv 0 ⟨0,0,0,0,0⟩ 40,.read 0 1],rxRunOf (rxSteps 0 3 ++ [.write 0 1] ++ rxSteps 0 6),
    txRun (ingestSteps 2 ++ pushEnd 40 ++ workerSteps 0 4),[.readv 0 ⟨0,0,0,0,0⟩ 40],
    rxRunOf (rxSteps 0 3 ++ [.write 0 0] ++ rxSteps 0 4)])

/-- Both processes in both modes. -/
def bothWays : DuplexConfig := ⟨fun _ => true,fun _ => true,fun _ => ⟨.plain,.plain,100⟩⟩

theorem endsWhole_bothWays :
    ∃ d ∈ exec (duplexMachine bothWays fun _ => 1) OrderlyDuplex (duplexInit fun _ => 1)
        (streamRun .near 7 ++ streamRun .far 8 ++ .replicate 10 (.main .near)),
      (d.loop .near).pc = .finished ∧ (d.stream .far).rx.output = [8] ∧
        EndsWhole bothWays d .near := by
  have hrun : ∃ d ∈ exec (duplexMachine bothWays fun _ => 1) OrderlyDuplex
      (duplexInit fun _ => 1) (streamRun .near 7 ++ streamRun .far 8 ++ .replicate 10 (.main .near)),
      (d.loop .near).pc = .finished ∧ (d.stream .far).rx.output = [8] := by decide +kernel
  obtain ⟨d,hd,hfinished,hout⟩ := hrun
  exact ⟨d,hd,hfinished,hout,endsWhole_of_finished (fun _ => by decide) (reachable_exec (.init rfl) hd)
    hfinished⟩

end Viamillipede
