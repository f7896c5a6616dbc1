import Viamillipede.SessionPipe
import Viamillipede.SessionFinish

/-! What is written to `input_fd` can always be brought to `output_fd`.

The session by itself can be finished from anywhere. Here its fills are what `bufferfill`
reads from the pipe, so that what comes out at the end is all that was put in. -/
namespace Viamillipede

open Bytes Transition

variable {W : ℕ} {cfg : SessionConfig} {charmode : Bool} {p q : Piped W}

/-- The session's steps are calm, and nobody starts up when `bufferfill` returns. -/
def CalmPiped (p : Piped W) : PipedAction W → Prop
  | .session a => Calm p.session a
  | .ret => ∀ i, (p.session.tx.workers i).pc.starting = false
  | _ => True

instance (p : Piped W) : (a : PipedAction W) → Decidable (CalmPiped p a)
  | .session a => inferInstanceAs (Decidable (Calm p.session a))
  | .ret => inferInstanceAs (Decidable (∀ i, (p.session.tx.workers i).pc.starting = false))
  | .put _ | .close | .call | .read _ => .isTrue trivial

/-- What a step does to the session in it, and to what was written. -/
structure PipedEffect (cfg : SessionConfig) (p q : Piped W) (a : PipedAction W) : Prop where
  session : q.session = p.session ∨ ∃ b, sessionStep cfg p.session b = some q.session ∧
    (a = .session b ∨ a = .ret ∧ ∃ data, b = .tx (.fill data))
  input : (∀ bs, a ≠ .put bs) → q.input = p.input
  closed : p.closed = true → q.closed = true

theorem PipedSound.effect (hp : PipedSound cfg charmode p) {a : PipedAction W}
    (h : pipedStep cfg charmode p a = some q) : PipedEffect cfg p q a := by
  cases a with
  | put bs =>
    simp only [pipedStep] at h
    split at h <;> cases h
    exact ⟨.inl rfl,fun hno => absurd rfl (hno bs),id⟩
  | close => cases h; exact ⟨.inl rfl,fun _ => rfl,fun _ => rfl⟩
  | call =>
    simp only [pipedStep] at h
    split at h
    · split at h <;> cases h
      exact ⟨.inl rfl,fun _ => rfl,id⟩
    · cases h
  | read count =>
    simp only [pipedStep] at h
    split at h
    · cases h
    · rename_i hcan
      obtain ⟨f,hf,h⟩ := Option.bind_eq_some_iff.mp h
      obtain ⟨g,hg,rfl⟩ := Option.map_eq_some_iff.mp h
      exact ⟨.inl (hp.reads (by simpa using (not_or.mp hcan).1) hf hg).1,fun _ => rfl,id⟩
  | ret =>
    obtain ⟨f,hf,h⟩ := Option.bind_eq_some_iff.mp h
    obtain ⟨n,data,-,-,hs,hq⟩ := hp.returns hf h
    rw [hq]
    exact ⟨.inr ⟨_,hs,.inr ⟨rfl,data,rfl⟩⟩,fun _ => rfl,id⟩
  | session a =>
    simp only [pipedStep] at h
    split at h
    · cases h
    · obtain ⟨s,hs,rfl⟩ := Option.map_eq_some_iff.mp h
      exact ⟨.inr ⟨a,hs,.inl rfl⟩,fun _ => rfl,id⟩

/-- A calm run is orderly, and so is the session in it. -/
theorem calm_of_piped (hW : W ≤ kthreadmax) (hcfg : cfg.tx.Streams)
    (hp : Reachable (pipedMachine cfg charmode W) CalmPiped p) :
    Reachable (pipedMachine cfg charmode W) OrderlyPiped p ∧
      Reachable (sessionMachine cfg W) Calm p.session := by
  induction hp with
  | init h => cases h; exact ⟨.init rfl,.init rfl⟩
  | @step p q a hp ha h ih =>
    obtain ⟨hpiped,hs⟩ := ih
    have horderly : OrderlyPiped p a := by
      cases a with
      | session a => exact orderly_of_calm hs ha
      | _ => trivial
    refine ⟨hpiped.step horderly h,?_⟩
    rcases ((PipedSound.reachable hW hcfg hpiped).effect h).session with
      hsame | ⟨b,hstep,rfl | ⟨rfl,data,rfl⟩⟩
    · exact hsame ▸ hs
    · exact hs.step ha hstep
    · exact hs.step (calm_of_ingest ha (.inr ⟨data,rfl⟩)) hstep

/-- Calm steps of the two processes and the end of the input; nothing more is written. -/
def Forwarding (p : Piped W) (a : PipedAction W) : Prop := CalmPiped p a ∧ ∀ bs, a ≠ .put bs

/-- What the session does without a fill, it does in front of the pipe. -/
theorem leads_of_feedless {s : Session W} (h : (sessionMachine cfg W).Leads Feedless p.session s) :
    (pipedMachine cfg charmode W).Leads Forwarding p { p with session := s } := by
  induction h with
  | refl => exact .refl
  | tail _ hnext ih =>
    obtain ⟨a,ha,hstep⟩ := hnext
    refine ih.tail ⟨.session a,⟨ha.1,nofun⟩,?_⟩
    have hstep : sessionStep cfg _ a = some _ := hstep
    simp [pipedMachine,pipedStep,ha.2,hstep]

/-- How many bytes have not been fed yet. -/
def Piped.unfed (p : Piped W) : ℕ := (p.fill.elim [] Bufferfill.consumed ++ p.stdin).length

/-- A `read` of nothing is the last. -/
theorem taken_nil_returned (charmode : Bool) {f : Bufferfill} (h : 0 ≤ f.remainder)
    (hlt : f.remainder < 2^31) : (f.taken charmode []).returned.isSome := by
  have hroom : ¬ (f.advanced charmode []).remainder < 0 := by
    rw [Bufferfill.advanced_remainder (by simpa using h) hlt]
    simpa using h
  unfold Bufferfill.taken
  simp only
  rw [if_neg hroom,if_pos (.inl Nat.zero_lt_one)]
  rfl

section Fill

variable (hsound : PipedSound cfg charmode p) (halive : p.session.tx.exited = none)
  (hclosed : p.closed = true)
include hsound halive

/-- A `read` of what there is, if `bufferfill` asks for as much. -/
theorem next_read {f : Bufferfill} (hf : p.fill = some f) (hrun : f.returned = none) {count : ℕ}
    (hmay : p.MayRead count) (hle : count ≤ f.request) :
    fillStep charmode f (.read (p.stdin.take count)) =
        some (f.taken charmode (p.stdin.take count)) ∧
      (pipedMachine cfg charmode W).Next Forwarding p
        (p.withFill count (f.taken charmode (p.stdin.take count))) := by
  obtain ⟨w,-,hreach⟩ := hsound.filling f hf
  have hfilling := (Bufferfill.reachable (by decide) (by decide) hreach).1
  have hstep : fillStep charmode f (.read (p.stdin.take count)) =
      some (f.taken charmode (p.stdin.take count)) := by
    simp [fillStep,hfilling.alive,hrun,hfilling.errno]
    omega
  refine ⟨hstep,.read count,⟨trivial,by simp⟩,?_⟩
  simp [pipedMachine,pipedStep,halive,hmay,hf,hstep]

include hclosed

/-- The call of `bufferfill` can be brought to its return. -/
theorem exists_returned {f : Bufferfill} (hf : p.fill = some f) :
    ∃ q g, (pipedMachine cfg charmode W).Leads Forwarding p q ∧ PipedSound cfg charmode q ∧
      q.fill = some g ∧ g.returned.isSome ∧ q.session = p.session ∧ q.unfed = p.unfed ∧
        q.closed = true := by
  induction hlen : p.stdin.length using Nat.strongRecOn generalizing p f with
  | ind n ih =>
    cases hrun : f.returned with
    | some n => exact ⟨p,f,.refl,hsound,hf,by simp [hrun],rfl,rfl,hclosed⟩
    | none =>
      obtain ⟨w,-,hreach⟩ := hsound.filling f hf
      obtain ⟨hfilling,hpaced⟩ := Bufferfill.reachable (by decide) (by decide) hreach
      have hasks : 0 < f.request := by
        have hpos := (hpaced.running hrun).1
        have hrequest := Bufferfill.request_eq hfilling.nonneg
        have hmax : (0 : ℤ) < maxbsize := by decide
        omega
      -- read what there is, or the end when there is nothing
      let count := min f.request p.stdin.length
      have hmay : p.MayRead count := by
        rcases Nat.eq_zero_or_pos p.stdin.length with hzero | hpos
        · exact .inr ⟨by omega,List.length_eq_zero_iff.mp hzero,hclosed⟩
        · exact .inl ⟨by omega,by omega⟩
      obtain ⟨hg,hnext⟩ := next_read hsound halive hf hrun hmay (Nat.min_le_left _ _)
      obtain ⟨hsession,hconsumed⟩ := hsound.reads halive hf hg
      have hread := (hsound.read halive hmay hf hg).1
      let g := f.taken charmode (p.stdin.take count)
      have hunfed : (p.withFill count g).unfed = p.unfed := by
        simp [Piped.unfed,Piped.withFill,hf,g,hconsumed]
      cases hover : g.returned with
      | some n =>
        exact ⟨p.withFill count g,g,.single hnext,hread,rfl,by simp [hover],hsession,hunfed,hclosed⟩
      | none =>
        have hmore : 0 < p.stdin.length := by
          by_contra hzero
          have hnil : p.stdin = [] := List.length_eq_zero_iff.mp (by omega)
          have hreturned := taken_nil_returned charmode hfilling.nonneg
            (hfilling.remainder_lt (by decide))
          simp only [g,hnil,List.take_nil] at hover
          simp [hover] at hreturned
        obtain ⟨q,g',hleads,hq,hg',hret,hsame,hleft,hshut⟩ := ih (p.stdin.drop count).length
          (by rw [List.length_drop]; omega) (p := p.withFill count g) hread
          (by rw [hsession]; exact halive) hclosed rfl rfl
        exact ⟨q,g',.head hnext hleads,hq,hg',hret,hsame.trans hsession,hleft.trans hunfed,hshut⟩

/-- At a fill, `bufferfill` can be called, and returns what is there; what was read is fed, or
the end is near. -/
theorem exists_fed (hseed : cfg.tx.gprbsSeed = 0) {w : Fin W}
    (hpc : p.session.tx.ingest.pc = .fill w)
    (hstart : ∀ i, (p.session.tx.workers i).pc.starting = false) :
    ∃ q, (pipedMachine cfg charmode W).Leads Forwarding p q ∧ q.closed = true ∧
      20*q.unfed+q.session.tx.toEnd < 20*p.unfed+p.session.tx.toEnd := by
  obtain ⟨u,f,hcall,hu,hf,hsession,hunfed,hshut⟩ : ∃ u f,
      (pipedMachine cfg charmode W).Leads Forwarding p u ∧ PipedSound cfg charmode u ∧
        u.fill = some f ∧ u.session = p.session ∧ u.unfed = p.unfed ∧ u.closed = true := by
    cases hfill : p.fill with
    | some f => exact ⟨p,f,.refl,hsound,hfill,rfl,rfl,hclosed⟩
    | none =>
      refine ⟨_,_,.single ⟨.call,⟨trivial,by simp⟩,?_⟩,hsound.call hpc hfill,rfl,rfl,?_,hclosed⟩
      · simp [pipedMachine,pipedStep,hpc,hfill,halive,hseed]
      · simp [Piped.unfed,hfill,Bufferfill.enter]
  obtain ⟨v,g,hreads,hv,hg,hret,hsame,hleft,hshut⟩ :=
    exists_returned hu (hsession ▸ halive) hshut hf
  have hsame := hsame.trans hsession
  obtain ⟨w',-,hreach⟩ := hv.filling g hg
  obtain ⟨hfilling,hpaced⟩ := Bufferfill.reachable (by decide) (by decide) hreach
  obtain ⟨n,hn⟩ := Option.isSome_iff_exists.mp hret
  have hdata : g.dest.read n.toNat = g.consumed := by
    rw [(hpaced.stopped n hn).1,Int.toNat_natCast,hfilling.dest,Memory.read_store_zero]
  have hfits : (g.dest.read n.toNat).length ≤ kfootsize := by
    have hsize : (UInt64.ofNat kfootsize).toNat = kfootsize := toNat_word (by decide)
    have hremainder := hfilling.remainder
    have hnonneg := hfilling.nonneg
    rw [hdata]
    omega
  let data : Payload := ⟨g.dest.read n.toNat,hfits⟩
  let tx := ingestFilled cfg.tx (v.session.tx.setWorker w { v.session.tx.workers w with
    buffer := (v.session.tx.workers w).buffer.store 0 data.val }) w data
  have htx : txStep cfg.tx v.session.tx (.fill data) = some tx := by
    rw [hsame]
    simp [txStep,halive,hpc,hseed,tx,hsame]
  let q : Piped W := { v with session := v.session.withTx tx, fill := none }
  have hq : v.returnFill cfg g = some q := by
    simp only [Piped.returnFill,hn,Option.bind_some]
    rw [dif_pos hfits,sessionStep_of_ingest (.inr ⟨_,rfl⟩) htx]
    rfl
  refine ⟨q,(hcall.trans hreads).tail ⟨.ret,⟨?_,by simp⟩,?_⟩,hshut,?_⟩
  · intro i
    rw [hsame]
    exact hstart i
  · simp [pipedMachine,pipedStep,hg,hq]
  · -- 19 steps are the most that a leg takes to the next fill
    have hto : tx.toEnd ≤ if data.val = [] then 7 else 19 := ingestFilled_toEnd _ _ _ _
    have hend : p.session.tx.toEnd = 8 := by
      simp [TxState.toEnd,TxState.ended,hpc,IngestPc.found,IngestPc.toEnd]
    have hbefore : v.unfed = g.consumed.length+v.stdin.length := by simp [Piped.unfed,hg]
    have hafter : q.unfed = v.stdin.length := by simp [Piped.unfed,q]
    have htoEnd : q.session.tx.toEnd = tx.toEnd := rfl
    by_cases hnil : data.val = []
    · rw [if_pos hnil] at hto
      omega
    · rw [if_neg hnil] at hto
      have hpos : 0 < g.consumed.length := List.length_pos_iff.mpr (hdata ▸ hnil)
      omega

end Fill

section Deliver

variable (h0 : 0 < W) (hW : W ≤ kthreadmax) (hcfg : cfg.Agreed) (hstreams : cfg.tx.Streams)
  (hbuf : Millipacket.sizeof ≤ cfg.sockbuf.toNat)
include h0 hW hcfg hstreams hbuf

/-- All of a closed input can be handed over. -/
theorem exists_handed (hp : Reachable (pipedMachine cfg charmode W) CalmPiped p) :
    ∃ q, (pipedMachine cfg charmode W).Leads Forwarding p q ∧
      (q.closed = true → q.session.tx.toEnd = 0) := by
  refine hp.exists_leads (fun _ _ ha => ha.1) (fun p => 20*p.unfed+p.session.tx.toEnd)
    fun p hp hshort => ?_
  obtain ⟨hclosed,hzero⟩ := Classical.not_imp.mp hshort
  obtain ⟨s,hsettle,hrests,hle⟩ := exists_settled hW hcfg (calm_of_piped hW hstreams hp).2
  let u : Piped W := { p with session := s }
  have hleads : (pipedMachine cfg charmode W).Leads Forwarding p u :=
    leads_of_feedless (hsettle.mono fun _ _ => feedless_of_settling)
  have hu := hp.leads (hleads.mono fun _ _ ha => ha.1)
  obtain ⟨hpiped,hcalm⟩ := calm_of_piped hW hstreams hu
  have hquiet := undisturbed_of_calm hW hcfg hcalm
  have hrest := atRest_of_rests hquiet hrests
  have hsame : u.unfed = p.unfed := rfl
  have hrank : u.session.tx.toEnd ≤ p.session.tx.toEnd := hle
  by_cases hended : s.tx.toEnd = 0
  · exact ⟨u,hleads,by rw [hsame]; change _+s.tx.toEnd < _; omega⟩
  · have hnot : s.tx.ended = false := by
      by_contra hset
      exact hended (by simp [TxState.toEnd,hset])
    by_cases hfill : ∀ w, s.tx.ingest.pc ≠ .fill w
    · obtain ⟨t,hmore,hlt⟩ := hrest.advance_feedless hbuf hquiet hnot h0 hfill
      refine ⟨{ u with session := t },hleads.trans (leads_of_feedless hmore),?_⟩
      change 20*p.unfed+t.tx.toEnd < 20*p.unfed+p.session.tx.toEnd
      omega
    · simp only [not_forall,not_not] at hfill
      obtain ⟨w,hpc⟩ := hfill
      obtain ⟨q,hmore,-,hlt⟩ := exists_fed (.reachable hW hstreams hpiped) hquiet.txAlive hclosed
        hstreams.1 (p := u) hpc hrest.starting
      exact ⟨q,hleads.trans hmore,by omega⟩

end Deliver

/-- The steps keep what was written, and that the writing end is closed. -/
theorem input_of_forwarding (hW : W ≤ kthreadmax) (hstreams : cfg.tx.Streams)
    (hp : Reachable (pipedMachine cfg charmode W) CalmPiped p)
    (h : (pipedMachine cfg charmode W).Leads Forwarding p q) :
    q.input = p.input ∧ (p.closed = true → q.closed = true) := by
  have hcalm (p : Piped W) (a : PipedAction W) (ha : Forwarding p a) : CalmPiped p a := ha.1
  refine (hp.keeps hcalm (r := fun p q => q.input = p.input ∧ (p.closed = true → q.closed = true))
    (fun _ => ⟨rfl,id⟩) (fun _ _ _ hst htu => ⟨htu.1.trans hst.1,htu.2 ∘ hst.2⟩) ?_ h).2
  intro p a q hp ha hstep
  have heffect := (PipedSound.reachable hW hstreams (calm_of_piped hW hstreams hp).1).effect hstep
  exact ⟨heffect.input ha.2,heffect.closed⟩

/-- What is written to `input_fd` can always be brought to `output_fd` once its writing end is
closed: from wherever the two processes have come, all of it comes out, and `done_mbox` is set. -/
theorem delivered_of_calm (h0 : 0 < W) (hW : W ≤ kthreadmax) (hcfg : cfg.Agreed)
    (hstreams : cfg.tx.Streams) (hbuf : Millipacket.sizeof ≤ cfg.sockbuf.toNat)
    (hp : Reachable (pipedMachine cfg charmode W) CalmPiped p) (hclosed : p.closed = true) :
    ∃ q, (pipedMachine cfg charmode W).Leads CalmPiped p q ∧
      q.pipe = ⟨p.input,p.input,true,true⟩ := by
  obtain ⟨u,hleads,hend⟩ := exists_handed h0 hW hcfg hstreams hbuf hp
  have hu := hp.leads (hleads.mono fun _ _ ha => ha.1)
  obtain ⟨hinput,hshut⟩ := input_of_forwarding hW hstreams hp hleads
  obtain ⟨s,hsettle,-,hdone⟩ := exists_done_of_ended hW hcfg hbuf
    (calm_of_piped hW hstreams hu).2 (hend (hshut hclosed))
  let q : Piped W := { u with session := s }
  have hmore : (pipedMachine cfg charmode W).Leads Forwarding u q :=
    leads_of_feedless (hsettle.mono fun _ _ => feedless_of_settling)
  have hq := hu.leads (hmore.mono fun _ _ ha => ha.1)
  have hsound := PipedSound.reachable hW hstreams (calm_of_piped hW hstreams hq).1
  obtain ⟨hshut,hall⟩ := hsound.whole hW hstreams hdone
  refine ⟨q,Machine.Leads.mono (fun _ _ ha => ha.1) (hleads.trans hmore),?_⟩
  have hin : q.input = p.input := hinput
  have hend : q.session.rx.doneMbox = true := hdone
  simp only [Piped.pipe,hall,hshut,hin,hend]

theorem delivered_readingRun :
    ∃ p ∈ exec (pipedMachine ⟨.plain,.plain,100⟩ false 1) CalmPiped (pipedInit 1)
        (readingRun++[.close]),
      p.pipe = ⟨[7],[],true,false⟩ ∧
        ∃ q, (pipedMachine ⟨.plain,.plain,100⟩ false 1).Leads CalmPiped p q ∧
          q.pipe = ⟨[7],[7],true,true⟩ := by
  have hrun : ∃ p ∈ exec (pipedMachine ⟨.plain,.plain,100⟩ false 1) CalmPiped (pipedInit 1)
      (readingRun++[.close]), p.pipe = ⟨[7],[],true,false⟩ := by decide +kernel
  obtain ⟨p,hp,hpipe⟩ := hrun
  have hin : p.input = [7] := congrArg Pipe.State.input hpipe
  have hclosed : p.closed = true := congrArg Pipe.State.closed hpipe
  refine ⟨p,hp,hpipe,hin ▸ delivered_of_calm (by decide) (by decide) ⟨rfl,rfl,by decide⟩ (by decide)
    (by decide) (reachable_exec (.init rfl) hp) hclosed⟩

end Viamillipede
