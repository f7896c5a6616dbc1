import Viamillipede.TxHandover

/-! When `tx_poll` may say that everything is pushed.

It samples the workers one after the other and `input_eof` last, while ingest goes on.
The answer is sound when no worker was handed a packet behind the sample taken of it,
and when `input_eof` was not read before the end of the stream was handed over. -/
namespace Viamillipede

open Bytes Transition

variable {W : ℕ} {cfg : TxConfig}

/-- The step does not read `input_eof` as set after a worker already sampled in this pass
has been handed a packet, or while `txshutdown` has yet to hand over the end. -/
def SoundSample (s : TxState W) (a : TxAction W) : Prop :=
  a = .poll → s.poll.pc = .eof → s.inputEof = true →
    s.poll.stale = false ∧ s.ingest.pc.found = none

instance (s : TxState W) (a : TxAction W) : Decidable (SoundSample s a) :=
  inferInstanceAs (Decidable (a = .poll → s.poll.pc = .eof → s.inputEof = true →
    s.poll.stale = false ∧ s.ingest.pc.found = none))

/-- Every leg and the end of the stream are handed over, and all of it is written. -/
structure AllPushed (cfg : TxConfig) (s : TxState W) : Prop where
  ended : ∃ feeds d, s.log = feeds++[d] ∧ (∀ e ∈ feeds, e.packet.IsFeed) ∧ d.packet.IsEnd
  written : ∀ i, s.wire i = Packet.code.encodeAll ((s.lane i).map cfg.pushed)

/-- What the samples taken so far still tell about the workers. -/
structure TxPoll (s : TxState W) : Prop where
  sampled : s.poll.stale = false → ∀ i, s.poll.pc.sampled i = true → (s.workers i).progress = none
  returned : s.poll.pc = .returned true → s.ended = true ∧ ∀ i, (s.workers i).progress = none

namespace TxPoll

theorem init : TxPoll (txInit W) where
  sampled _ _ h := by cases h
  returned h := by cases h

/-- A worker the ingest thread hands a packet to spoils the sample taken of it, if any. -/
theorem change_progress {s t : TxState W} (h : IngestChange s t) :
    t.poll.pc = s.poll.pc ∧ (t.poll.stale = false → s.poll.stale = false) ∧
      ∀ i, (t.workers i).progress = (s.workers i).progress ∨
        s.ingest.pc.found = some i ∧ (t.poll.stale = false → s.poll.pc.sampled i = false) := by
  cases h with
  | quiet hw _ hpoll => exact ⟨by rw [hpoll],by simp [hpoll],fun i => .inl (by rw [hw])⟩
  | stored w pkt buffer _ hw _ _ hpoll =>
    refine ⟨by rw [hpoll],by simp [hpoll],fun i => .inl ?_⟩
    rcases eq_or_ne i w with rfl | hne
    · rw [hw,Function.update_self]; rfl
    · rw [hw,Function.update_of_ne hne]
  | marked w p hmarks _ hw _ hpoll =>
    refine ⟨by rw [hpoll],by simp +contextual [hpoll],fun i => ?_⟩
    rcases eq_or_ne i w with rfl | hne
    · exact .inr ⟨IngestPc.found_of_marks hmarks,by simp +contextual [hpoll]⟩
    · exact .inl (by rw [hw,Function.update_of_ne hne])

theorem of_effect {s t : TxState W} (hs : TxPoll s) (hl : TxLog s) (h : IngestEffect s t) :
    TxPoll t := by
  obtain ⟨hpc,hstale,hprog⟩ := change_progress h.change
  constructor
  · intro hfresh i hi
    rw [hpc] at hi
    rcases hprog i with hsame | ⟨_,hspoiled⟩
    · rw [hsame]
      exact hs.sampled (hstale hfresh) i hi
    · simp [hi] at hspoiled
      simp [hspoiled] at hfresh
  · intro hreturned
    obtain ⟨hended,hnone⟩ := hs.returned (hpc.symm.trans hreturned)
    refine ⟨ended_of_effect hl h hended,fun i => ?_⟩
    rcases hprog i with hsame | ⟨hfound,_⟩
    · rw [hsame,hnone i]
    · simp [TxState.ended,hfound] at hended

/-- A pass goes on only past workers without a packet. -/
theorem pollStep {s : TxState W} (hs : TxPoll s) (hc : TxControl s) (hl : TxLog s)
    (ha : SoundSample s .poll) : TxPoll (pollStep s) := by
  cases hpc : s.poll.pc with
  | pass =>
    simp only [Viamillipede.pollStep,hpc]
    exact ⟨fun _ i hi => by simp [PollPc.sampled] at hi,fun h => by cases h⟩
  | scan cursor =>
    simp only [Viamillipede.pollStep,hpc]
    have hsampled := hs.sampled
    simp only [hpc,PollPc.sampled,decide_eq_true_eq] at hsampled
    split
    · rename_i hcursor
      split
      · rename_i hidle
        refine ⟨fun hfresh i hi => ?_,fun h => by cases h⟩
        simp only [PollPc.sampled,decide_eq_true_eq] at hi
        rcases Nat.lt_succ_iff_lt_or_eq.mp hi with hlt | heq
        · exact hsampled hfresh i hlt
        · obtain rfl : i = ⟨cursor,hcursor⟩ := Fin.ext heq
          exact hidle.elim (TxWorker.progress_of_idle (hc.worker _))
            (TxWorker.progress_of_faulted (hc.worker _))
      · exact ⟨fun _ i hi => by simp [PollPc.sampled] at hi,fun h => by cases h⟩
    · rename_i hend
      exact ⟨fun hfresh i _ => hsampled hfresh i (by omega),fun h => by cases h⟩
  | eof =>
    simp only [Viamillipede.pollStep,hpc]
    refine ⟨fun _ i hi => by simp [PollPc.sampled] at hi,fun h => ?_⟩
    have heof : s.inputEof = true := by simpa using h
    obtain ⟨hfresh,hfound⟩ := ha rfl hpc heof
    have hdone : s.done = true := by
      have hflags := hl.flags
      rw [heof] at hflags
      cases hi : s.ingest.pc <;> simp_all [IngestPc.Flags]
    exact ⟨by simp [TxState.ended,hdone,hfound],fun i => hs.sampled hfresh i (by simp [hpc,PollPc.sampled])⟩
  | returned done =>
    simp only [Viamillipede.pollStep,hpc]
    exact ⟨fun _ i hi => by simp [PollPc.sampled] at hi,fun h => by cases h⟩

theorem step {s t : TxState W} {a : TxAction W} (hs : TxPoll s) (hc : TxControl s)
    (hl : TxLog s) (ha : SoundSample s a) (h : txStep cfg s a = some t) : TxPoll t := by
  cases txStep_cases h with
  | ingest _ heffect => exact hs.of_effect hl heffect
  | fillFailed _ ht => exact ht ▸ ⟨hs.sampled,hs.returned⟩
  | worker i b m _ hm ht =>
    subst ht
    have hprog (u : Fin W) (hnone : (s.workers u).progress = none) :
        ((s.moved i m).workers u).progress = none := by
      rcases eq_or_ne u i with rfl | hne
      · simpa [TxState.moved] using (workerStep_progress_none (hc.worker u) hnone hm).1
      · simpa [TxState.moved,hne] using hnone
    exact ⟨fun hfresh u hu => hprog u (hs.sampled hfresh u hu),fun h =>
      ⟨(hs.returned h).1,fun u => hprog u ((hs.returned h).2 u)⟩⟩
  | poll hab ht =>
    subst hab ht
    exact hs.pollStep hc hl ha

theorem reachable {ok : TxState W → TxAction W → Prop} (hok : ∀ s a, ok s a → SoundSample s a)
    {s : TxState W} (hs : Reachable (txMachine cfg W) ok s) : TxPoll s :=
  hs.invariant (by rintro s rfl; exact init) fun s a _ hr h ha hstep =>
    h.step (.reachable hr) (.reachable hr) (hok s a ha) hstep

end TxPoll

/-- The steps under which the answer of `tx_poll` is sound. -/
def SoundPoll (s : TxState W) (a : TxAction W) : Prop := SoundSample s a ∧ Unclobbered s a

instance (s : TxState W) (a : TxAction W) : Decidable (SoundPoll s a) :=
  inferInstanceAs (Decidable (_ ∧ _))

/-- When `tx_poll` returns 1, every leg and the end of the stream are on the sockets. -/
theorem allPushed_of_returned {s : TxState W}
    (hs : Reachable (txMachine cfg W) SoundPoll s) (hpc : s.poll.pc = .returned true) :
    AllPushed cfg s := by
  obtain ⟨hended,hnone⟩ := (TxPoll.reachable (fun _ _ h => h.1) hs).returned hpc
  refine ⟨(TxLog.reachable hs).last hended,fun i => ?_⟩
  have hpushes := (TxHandover.reachable (fun _ _ h => h.2) hs).pushes i
  simpa only [TxWorker.Pushes,hnone i] using hpushes

/-- One leg and the end of the stream, both pushed before the pass that returns 1. -/
def soundPollRun : List (TxAction 1) :=
  .flatten [unclobberedRun,workerSteps 0 4,ingestSteps 2,pushEnd 40,workerSteps 0 4,
    [.poll,.poll,.poll,.poll]]

theorem allPushed_soundPollRun :
    ∃ s ∈ exec (txMachine .plain 1) SoundPoll (txInit 1) soundPollRun,
      (s.wire 0).length = 81 ∧ AllPushed .plain s := by
  have hrun : ∃ s ∈ exec (txMachine .plain 1) SoundPoll (txInit 1) soundPollRun,
      (s.wire 0).length = 81 ∧ s.poll.pc = .returned true := by decide
  obtain ⟨s,hs,hlen,hpc⟩ := hrun
  exact ⟨s,hs,hlen,allPushed_of_returned (reachable_exec (.init rfl) hs) hpc⟩

/-- The only worker is sampled idle; then the input ends, and `input_eof` is read before the
end of the stream is handed over. -/
def earlyEofRun : List (TxAction 1) :=
  .flatten [startUp 0,[.poll,.poll],findAndFill noBytes,ingestSteps 3,[.poll,.poll]]

/-- One of two workers is sampled idle and then given a leg. The pass goes on to the other
worker, which is given the end of the stream behind its sample. -/
def staleSampleRun : List (TxAction 2) :=
  .flatten [startUp 0,startUp 1,[.poll,.poll],ingestSteps 6,[.fill (oneByte 7)],
    ingestSteps 5,[.poll],ingestSteps 9,[.fill noBytes],ingestSteps 8,[.poll,.poll]]

/-- `tx_poll` returns 1 with nothing written. -/
theorem notPushed_of_returned :
    (∃ s ∈ exec (txMachine .plain 1) anyStep (txInit 1) earlyEofRun,
      s.poll.pc = .returned true ∧ s.log.length = 0) ∧
    (∃ s ∈ exec (txMachine .plain 2) anyStep (txInit 2) staleSampleRun,
      s.poll.pc = .returned true ∧ s.ended = true ∧ s.log.length = 2 ∧ s.wire 0 = [] ∧
        s.wire 1 = []) ∧
    ¬ ∀ s, Reachable (txMachine .plain 1) anyStep s → s.poll.pc = .returned true →
      AllPushed .plain s := by
  have hearly : ∃ s ∈ exec (txMachine .plain 1) anyStep (txInit 1) earlyEofRun,
      s.poll.pc = .returned true ∧ s.log.length = 0 := by decide
  refine ⟨hearly,by decide,fun hall => ?_⟩
  obtain ⟨s,hs,hpc,hlog⟩ := hearly
  obtain ⟨feeds,d,hsplit,-⟩ := (hall s (reachable_exec (.init rfl) hs) hpc).ended
  simp [hsplit] at hlog

end Viamillipede
