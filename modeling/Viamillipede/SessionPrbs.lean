import Viamillipede.SessionFinish
import Viamillipede.PrbsDetection

/-! The PRBS mode from end to end. Whoever receives with another seed than the one that was
sent with writes nothing.

What a receive worker carries to its sequencer has been verified, whatever the network
brought. A leg that was pushed with another seed is not among it, and so its turn never comes. -/
namespace Viamillipede

open Bytes Transition

section Receiver

variable {n : ℕ} {cfg : RxConfig}

/-- The packet is the last, or its buffer has passed the verification. -/
def Packet.Verified (cfg : RxConfig) (p : Packet) : Prop :=
  cfg.gprbsSeed > 0 → p.header.opcode = endOfMillipede ∨
    ∃ buffer : Memory, buffer.read p.payload.length = p.payload ∧
      prbsVerify buffer (cfg.gprbsSeed+p.header.legId) kfootsize = true

/-- What the workers carry to the sequencer is verified. -/
def RxVerified (cfg : RxConfig) (s : RxState n) : Prop :=
  ∀ i, ∀ p ∈ (s.workers i).carried, p.Verified cfg

namespace RxVerified

theorem sequence {w w' : RxWorker} (h : w.sequence cfg = .ok w')
    (hw : ∀ p ∈ w.carried, p.Verified cfg) : ∀ p ∈ w'.carried, p.Verified cfg := by
  rw [RxWorker.sequence_eq h]
  split
  · exact hw
  · rename_i hrestart
    intro p hp
    rcases List.mem_append.mp hp with hp | hp
    · exact hw p hp
    · rw [List.mem_singleton.mp hp]
      intro hseed
      unfold RxWorker.sequence at h
      split at h
      · cases h
      · rename_i hpasses
        by_cases hend : w.pkt.opcode = endOfMillipede
        · exact .inl hend
        · refine .inr ⟨w.buffer,?_,?_⟩
          · rw [w.packet.size_eq]
            rfl
          · by_contra hfails
            exact hpasses ⟨hseed,by simpa using hrestart,Bool.not_eq_true _ ▸ hfails,hend⟩

theorem fetch {w w' : RxWorker} (hw : ∀ p ∈ w.carried, p.Verified cfg) (h : RxFetch cfg w w') :
    ∀ p ∈ w'.carried, p.Verified cfg := by
  cases h with
  | start | quit | listen | next | leave => exact hw
  | accept phrase _ _ h =>
    rw [RxWorker.accepted_eq h]
    intro p hp
    cases hp
  | header junk bs _ _ _ h =>
    obtain ⟨v,rfl,⟨-,hseq⟩ | ⟨-,rfl⟩⟩ := RxWorker.headerRead_cases h
    · exact sequence hseq hw
    · exact hw
  | payload bs _ _ _ h =>
    obtain ⟨-,hseq⟩ | ⟨-,v,rfl,⟨-,hseq⟩ | ⟨-,rfl⟩⟩ := RxWorker.payloadRead_cases h
    · exact sequence hseq hw
    · exact sequence hseq hw
    · exact hw

theorem turn {w w' : RxWorker} (hw : ∀ p ∈ w.carried, p.Verified cfg)
    (h : RxWorker.Turn cfg w w') : ∀ p ∈ w'.carried, p.Verified cfg := by
  cases h with
  | same | goto => exact hw
  | fetch _ hfetch => exact fetch hw hfetch

theorem reachable {ok : RxState n → RxAction n → Prop} {s : RxState n}
    (hs : Reachable (rxMachine cfg n) ok s) : RxVerified cfg s :=
  hs.invariant (by rintro s rfl i p hp; simp [rxInit,RxWorker.launched] at hp)
    fun _ _ _ _ h _ hstep i => turn (h i) ((rxStep_cases hstep).turn i)

end RxVerified

end Receiver

variable {W : ℕ} {cfg : SessionConfig} {s : Session W}

/-- A leg of another seed does not pass. -/
theorem not_verified_of_pushed (htx : cfg.tx.gprbsSeed > 0) (hrx : cfg.rx.gprbsSeed > 0)
    (hne : cfg.tx.gprbsSeed ≠ cfg.rx.gprbsSeed) {p : Packet} (hfeed : p.IsFeed)
    (hsuits : p.Suits cfg.tx) : ¬ (cfg.tx.pushed p).Verified cfg.rx := by
  intro hverified
  rcases hverified hrx with hend | ⟨buffer,hread,hverify⟩
  · rw [TxConfig.pushed_header,hfeed.opcode] at hend
    cases hend
  · -- word 0 is that of one seed, and that of the other
    have hword := (prbsVerify_iff buffer _ _).mp hverify 0 (by decide)
    rw [TxConfig.pushed_length,TxConfig.pushed_payload,hsuits.whole htx,TxConfig.pushBuffer,
      if_pos htx] at hread
    have hsent : buffer.word 0 = prbsSequence (cfg.tx.gprbsSeed+p.header.legId) 0 := by
      rw [← prbsGen_word (Memory.store (fun _ => 0) 0 p.payload) _ (by decide : 0 < kfootsize/8)]
      refine Memory.word_congr fun j hj => ?_
      have hlt : j < kfootsize := hj.trans (by decide)
      simpa [Memory.read] using Memory.slice_inj hread hlt
    refine prbsSequence_ne (fun hsame => hne ?_) 0 (hsent.symm.trans hword)
    exact (UInt64.add_left_inj _).mp hsame

/-- The packet is the end of the stream. -/
def Session.Ends (cfg : SessionConfig) (s : Session W) (p : Packet) : Prop :=
  ∃ d ∈ s.tx.log, p = cfg.tx.pushed d.packet ∧ d.packet.IsEnd

theorem Session.Ends.payload {p : Packet} (h : s.Ends cfg p) : p.payload = [] := by
  obtain ⟨d,-,rfl,hend⟩ := h
  exact List.length_eq_zero_iff.mp (by rw [TxConfig.pushed_length,hend.empty]; rfl)

/-- It is no leg. -/
theorem Session.Ends.not_feed {d : Dispatch W} (h : s.Ends cfg (cfg.tx.pushed d.packet))
    (hfeed : d.packet.IsFeed) : False := by
  obtain ⟨e,-,hpushed,hend⟩ := h
  have hheader := congrArg Packet.header hpushed
  rw [TxConfig.pushed_header,TxConfig.pushed_header] at hheader
  have hopcode := hfeed.opcode.symm.trans ((congrArg Millipacket.opcode hheader).trans hend.opcode)
  cases hopcode

/-- Nothing but the end of the stream gets through. -/
structure Silent (cfg : SessionConfig) (s : Session W) : Prop where
  output : s.rx.output = []
  carried : ∀ i, ∀ p ∈ (s.rx.workers i).carried, s.Ends cfg p
  written : ∀ p ∈ s.rx.written, s.Ends cfg p

section Apart

variable (htx : cfg.tx.gprbsSeed > 0) (hrx : cfg.rx.gprbsSeed > 0)
  (hne : cfg.tx.gprbsSeed ≠ cfg.rx.gprbsSeed)
include htx hrx hne

/-- What the sequencer is given is the end of the stream. -/
theorem carried_ends (hs : Reachable (sessionMachine cfg W) Heeded s) {i : Fin W} {p : Packet}
    (hp : p ∈ (s.rx.workers i).carried) : s.Ends cfg p := by
  have hmem := (carried_prefix_lane hs i).subset hp
  simp only [Session.stream,TxState.lane,List.mem_map,Lanes.mem_lane] at hmem
  obtain ⟨_,⟨d,⟨hd,-⟩,rfl⟩,rfl⟩ := hmem
  refine ⟨d,hd,rfl,(suits_of_mem (tx_reachable_of_heeded hs) hd).resolve_left ?_⟩
  rintro ⟨hfeed,hsuits⟩
  exact not_verified_of_pushed htx hrx hne hfeed hsuits
    (RxVerified.reachable (Session.rx_reachable hs) i _ hp)

/-- And so is what it lets through, which is empty. -/
theorem written_ends (hs : Reachable (sessionMachine cfg W) Heeded s) :
    s.rx.output = [] ∧ ∀ p ∈ s.rx.written, s.Ends cfg p := by
  induction hs with
  | init h => cases h; exact ⟨rfl,nofun⟩
  | @step s t a hr _ h ih =>
    have hgrows := log_prefix (.reachable (tx_reachable_of_heeded hr)) h
    have hkeep {p : Packet} : s.Ends cfg p → t.Ends cfg p := fun ⟨d,hd,hp⟩ =>
      ⟨d,hgrows.subset hd,hp⟩
    have hold : s.rx.output = [] ∧ ∀ p ∈ s.rx.written, t.Ends cfg p :=
      ⟨ih.1,fun p hp => hkeep (ih.2 p hp)⟩
    have hmove {b : RxAction W} {rx : RxState W} (hstep : rxStep cfg.rx s.rx b = some rx) :
        rx.output = [] ∧ ∀ p ∈ rx.written, t.Ends cfg p := by
      obtain ⟨hout,hwritten⟩ | ⟨i,pos,count,hpc,hout,hwritten⟩ := (rxStep_cases hstep).written
      · rwa [hout,hwritten]
      · -- the worker holds a packet that it was given
        have hframed := (Linked.reachable hr).framed i
        have hholds := hframed.holds_of_chosen (by rw [hpc]; rfl) (by simp [hpc])
        have hend := carried_ends htx hrx hne hr (List.mem_of_getLast? (hframed.held hholds).2)
        refine ⟨by simp [hout,hold.1,hend.payload],fun p hp => ?_⟩
        rcases hwritten with hsame | hmore
        · exact hold.2 p (hsame ▸ hp)
        · rw [hmore,List.mem_append,List.mem_singleton] at hp
          exact hp.elim (hold.2 p) fun hlast => hlast ▸ hkeep hend
    cases sessionStep_cases h with
    | connect _ _ _ _ hstep ht | rx _ _ _ hstep ht | readv _ _ _ _ _ hstep ht
    | read _ _ _ _ hstep ht => subst ht; exact hmove hstep
    | tx _ _ _ _ ht | drop _ _ _ _ _ ht => subst ht; exact hold

/-- With one seed at the sender and another one at the receiver, not a byte is ever written and
no leg is ever sequenced, whatever calls fail and wherever connections drop. -/
theorem silent_of_seeds_ne (hs : Reachable (sessionMachine cfg W) Heeded s) : Silent cfg s :=
  have hwritten := written_ends htx hrx hne hs
  ⟨hwritten.1,fun _ _ => carried_ends htx hrx hne hs,hwritten.2⟩

/-- A leg that is on its way ends the receiver. -/
theorem refused_of_counted (hW : W ≤ kthreadmax) (hsums : cfg.tx.gchecksums = false)
    (hlong : 4 ≤ cfg.rx.gcheckphrase.length) (hs : Reachable (sessionMachine cfg W) Orderly s)
    {d : Dispatch W} (hd : d ∈ s.tx.log) (hfeed : d.packet.IsFeed)
    (hends : s.rx.exited ≠ none ∨ s.rx.advances = s.tx.log.length) :
    s.rx.exited = some (.exit 133) := by
  have hharmless := harmless_of_orderly hs
  rcases stands_of_orderly hW hlong hs with (halive | ⟨i,halarm⟩) | hrefused
  · -- otherwise it would have been written
    have horder := SessionOrder.reachable hW hharmless
    have hall : s.tx.log.length ≤ s.rx.written.length :=
      (hends.resolve_left (not_not.mpr halive)) ▸ horder.order.phase.1
    have hmem : cfg.tx.pushed d.packet ∈ s.rx.written := by
      rw [horder.written,List.take_of_length_le (by simpa [Session.sent] using hall)]
      exact List.mem_map.mpr ⟨d,hd,rfl⟩
    have hwritten := (written_ends htx hrx hne (heeded_of_harmless hharmless)).2 _ hmem
    exact (hwritten.not_feed hfeed).elim
  · exact absurd halarm (no_alarm hW hsums hharmless i)
  · exact hrefused.1

end Apart

/-- Seed 1 sends, seed 2 receives. -/
def seedsApart : SessionConfig :=
  ⟨{ TxConfig.plain with gprbsSeed := 1 },{ RxConfig.plain with gprbsSeed := 2 },100⟩

/-- A leg has been handed over and pushed, and the receiver has refused it. -/
theorem silent_seedsApart :
    ∃ s, Reachable (sessionMachine seedsApart 1) Heeded s ∧
      (∃ d ∈ s.tx.log, d.packet.IsFeed) ∧ s.rx.exited = some (.exit 133) ∧ Silent seedsApart s := by
  have hrun : ∃ s ∈ exec (sessionMachine seedsApart 1) Calm (sessionInit 1)
      (meet 0 ++ txRun (ingestSteps 6)),
      s.tx.ingest.pc = .fill 0 ∧ ∀ i, (s.tx.workers i).pc.starting = false := by decide +kernel
  obtain ⟨s,hs,hpc,hstart⟩ := hrun
  obtain ⟨t,ht,⟨d,hd,hfeed⟩,hends⟩ := exists_prbsLeg (by decide) (by decide) (by decide) rfl
    (reachable_exec (.init rfl) hs) hpc hstart
  have horderly := orderly_of_smooth (smooth_of_calm ht)
  have hheeded := heeded_of_harmless (harmless_of_orderly horderly)
  exact ⟨t,hheeded,⟨d,hd,hfeed⟩,refused_of_counted (by decide) (by decide) (by decide) (by decide)
    rfl (by decide) horderly hd hfeed hends,
    silent_of_seeds_ne (by decide) (by decide) (by decide) hheeded⟩

end Viamillipede
