import Viamillipede.Pipe
import Viamillipede.Bufferfill
import Viamillipede.TxFollows
import Viamillipede.SessionOutput

/-! The two processes with what is written to `input_fd` are a pipe.

`bufferfill` takes the input read by read, `txingest` cuts it into legs, the workers push
them over their connections, and the sequencer writes them to `output_fd`. For those at the
two ends all this is one FIFO, and `done_mbox` is its end of file. -/
namespace Viamillipede

open Bytes Transition

variable {W : ℕ}

section Transmitter

variable {cfg : TxConfig}

/-- The input is a stream of its own length: no PRBS mode and no leg limit. -/
def TxConfig.Streams (cfg : TxConfig) : Prop := cfg.gprbsSeed = 0 ∧ ¬ cfg.glegLimit > 0

instance (cfg : TxConfig) : Decidable cfg.Streams := inferInstanceAs (Decidable (_ ∧ _))

/-- What `txingest` has got from `bufferfill`: the payloads handed over, and the one it is about
to hand over. -/
def TxState.fed (s : TxState W) : List UInt8 :=
  payloads (s.log.map Dispatch.packet) ++ if s.ingest.pc.feeding then s.ingest.fill.val else []

/-- `txingest` has seen the end of its input. -/
def TxState.sawEnd (s : TxState W) : Bool := s.ingest.pc.ending || s.done

theorem ingestStep_fed (hcfg : cfg.Streams) {s t : TxState W} (h : ingestStep cfg s = some t) :
    t.fed = s.fed ∧ (t.sawEnd = true → s.sawEnd = true) := by
  cases hpc : s.ingest.pc with
  | fill w => simp [ingestStep,hpc,hcfg.1] at h
  | size w | leg w | opcode w | checksum w =>
    simp only [ingestStep,hpc,Option.some.injEq] at h
    subst h
    simp [TxState.fed,TxState.sawEnd,TxState.goto,TxState.setPkt,TxState.setWorker,IngestPc.feeding,
      IngestPc.ending,hpc]
  | start w =>
    simp only [ingestStep,hpc,Option.some.injEq] at h
    subst h
    simp [TxState.fed,TxState.sawEnd,TxState.goto,TxState.setWorker,startWorker,Ingest.feedPacket,
      IngestPc.feeding,IngestPc.ending,hpc]
  | shutStart w =>
    simp only [ingestStep,hpc,Option.some.injEq] at h
    subst h
    simp [TxState.fed,TxState.sawEnd,TxState.goto,TxState.setWorker,startWorker,Ingest.eofPacket,
      IngestPc.feeding,IngestPc.ending,hpc]
  | test =>
    simp only [ingestStep,hpc,Option.some.injEq] at h
    subst h
    dsimp only [TxState.goto,TxState.fed,TxState.sawEnd]
    split_ifs <;> simp_all [IngestPc.feeding,IngestPc.ending]
  | scanUnlock found =>
    cases found <;> simp only [ingestStep,hpc,Option.some.injEq] at h <;> subst h <;>
      simp [TxState.fed,TxState.sawEnd,TxState.goto,IngestPc.feeding,IngestPc.ending,hpc]
  | _ =>
    simp only [ingestStep,hpc] at h
    try split_ifs at h
    all_goals cases h
    all_goals
      simp [TxState.fed,TxState.sawEnd,TxState.goto,TxState.setPkt,TxState.setWorker,
        IngestPc.feeding,IngestPc.ending,hpc]

/-- A fill is taken as it is, and an empty one for the end. -/
theorem ingestFilled_fed (hcfg : cfg.Streams) {s : TxState W} {w : Fin W}
    (hpc : s.ingest.pc = .fill w) (data : Payload) :
    (ingestFilled cfg s w data).fed = s.fed ++ data.val ∧
      ((ingestFilled cfg s w data).sawEnd = true → s.sawEnd = true ∨ data.val = []) := by
  unfold ingestFilled
  simp only [hcfg.2,false_and,if_false]
  split_ifs with hsome
  · refine ⟨by simp [TxState.fed,TxState.goto,IngestPc.feeding,hpc],fun h => .inl ?_⟩
    simpa [TxState.sawEnd,TxState.goto,IngestPc.ending,hpc] using h
  · have hnil : data.val = [] := List.length_eq_zero_iff.mp (by omega)
    simp [TxState.fed,TxState.sawEnd,TxState.goto,IngestPc.feeding,IngestPc.ending,hpc,hnil]

/-- Only a fill brings something new. -/
theorem txStep_fed (hcfg : cfg.Streams) {s t : TxState W} {a : TxAction W}
    (h : txStep cfg s a = some t) (ha : ∀ data, a ≠ .fill data) :
    t.fed = s.fed ∧ (t.sawEnd = true → s.sawEnd = true) := by
  cases txStep_cases h with
  | ingest hstep _ =>
    rcases hstep with ⟨-,hstep⟩ | ⟨_,data,hfill,-⟩
    · exact ingestStep_fed hcfg hstep
    · exact absurd hfill (ha data)
  | fillFailed _ ht => exact ht ▸ ⟨rfl,id⟩
  | worker i b m _ _ ht => exact ht ▸ ⟨rfl,id⟩
  | poll _ ht =>
    obtain ⟨p,hp⟩ := pollStep_eq s
    exact (ht.trans hp) ▸ ⟨rfl,id⟩

/-- The buffer that is being filled is left alone, and so is who fills it. -/
theorem txStep_filling {s t : TxState W} {a : TxAction W} (hc : TxControl s) {w : Fin W}
    (hpc : s.ingest.pc = .fill w) (hseed : cfg.gprbsSeed = 0) (h : txStep cfg s a = some t)
    (ha : ∀ data, a ≠ .fill data) :
    t.ingest.pc = .fill w ∧ (t.workers w).buffer = (s.workers w).buffer := by
  cases txStep_cases h with
  | ingest hstep _ =>
    rcases hstep with ⟨-,hstep⟩ | ⟨_,data,hfill,-⟩
    · simp [ingestStep,hpc,hseed] at hstep
    · exact absurd hfill (ha data)
  | fillFailed _ ht => exact ht ▸ ⟨hpc,rfl⟩
  | worker i b m _ hm ht =>
    subst ht
    refine ⟨hpc,?_⟩
    rcases eq_or_ne w i with rfl | hne
    · have hidle := hc.found w (by rw [hpc]; rfl)
      have hkeep := (workerStep_keeps (hc.worker w) (.inl hidle) hm).2.2.1 (.inl hseed)
      simpa [TxState.moved] using hkeep
    · simp [TxState.moved,hne]
  | poll _ ht =>
    obtain ⟨p,hp⟩ := pollStep_eq s
    exact (ht.trans hp) ▸ ⟨hpc,rfl⟩

end Transmitter

/-- What is written stays written, and the end of the stream stays seen. -/
theorem output_of_move {n : ℕ} {cfg : RxConfig} {s t : RxState n} (h : RxMove cfg s t) :
    s.output <+: t.output ∧ (s.doneMbox = true → t.doneMbox = true) := by
  cases h with
  | writeSome | writeAll => exact ⟨List.prefix_append _ _,id⟩
  | done => exact ⟨List.prefix_rfl,fun _ => rfl⟩
  | poll t h =>
    obtain ⟨p,m,rfl⟩ := rxPollStep_eq h
    exact ⟨List.prefix_rfl,id⟩
  | _ => exact ⟨List.prefix_rfl,id⟩

section Session

variable {cfg : SessionConfig} {s t : Session W} {a : SessionAction W}

theorem output_of_session (h : sessionStep cfg s a = some t) :
    s.rx.output <+: t.rx.output ∧ (s.rx.doneMbox = true → t.rx.doneMbox = true) := by
  cases sessionStep_cases h with
  | connect _ _ _ _ hrx ht | rx _ _ _ hrx ht | readv _ _ _ _ _ hrx ht | read _ _ _ _ hrx ht =>
    exact ht ▸ output_of_move (rxStep_cases hrx)
  | tx _ _ _ _ ht | drop _ _ _ _ _ ht => exact ht ▸ ⟨List.prefix_rfl,id⟩

/-- The transmitter stays as it is, or takes a step of its own. -/
theorem tx_of_session (ha : a.fills = false) (h : sessionStep cfg s a = some t) :
    t.tx = s.tx ∨ ∃ b, (∀ data, b ≠ .fill data) ∧ txStep cfg.tx s.tx b = some t.tx := by
  cases sessionStep_cases h with
  | connect i tx rx htx _ ht => exact ht ▸ .inr ⟨.worker i .connected,by simp,htx⟩
  | tx b tx _ htx ht =>
    refine ht ▸ .inr ⟨b,?_,htx⟩
    rintro data rfl
    cases ha
  | rx _ _ _ _ ht | readv _ _ _ _ _ _ ht | read _ _ _ _ _ ht | drop _ _ _ _ _ ht => exact ht ▸ .inl rfl

theorem payloads_mono {ps qs : List Packet} (h : ps <+: qs) : payloads ps <+: payloads qs := by
  obtain ⟨rest,rfl⟩ := h
  exact payloads_append ps rest ▸ List.prefix_append _ _

/-- What the receiver has written is what `bufferfill` brought, as far as it goes, and all of it
when `done_mbox` is set. -/
theorem output_fed (hW : W ≤ kthreadmax) (hcfg : cfg.tx.Streams)
    (hs : Reachable (sessionMachine cfg W) Orderly s) :
    s.rx.output <+: s.tx.fed ∧
      (s.rx.doneMbox = true → s.tx.ended = true ∧ s.rx.output = s.tx.fed) := by
  have horder := inOrder_of_orderly hW hs
  have hpushed : cfg.tx.pushed = id := funext (TxConfig.pushed_of_seed_zero hcfg.1)
  have hsent : s.sent cfg = s.tx.log.map Dispatch.packet := by simp [Session.sent,hpushed]
  have hin : payloads (s.sent cfg) <+: s.tx.fed := hsent ▸ List.prefix_append _ _
  refine ⟨.trans ?_ hin,fun hdone => ⟨(horder.done hdone).1,?_⟩⟩
  · by_cases hno : ∀ i pos, (s.rx.workers i).pc ≠ .write pos
    · rw [horder.output hno]
      exact payloads_mono (List.take_prefix _ _)
    · simp only [not_forall,not_not] at hno
      obtain ⟨i,pos,hpc⟩ := hno
      obtain ⟨d,hd,-,hout⟩ := horder.writing i pos hpc
      have hleg : (s.sent cfg)[s.rx.sequencedLegs]? = some (cfg.tx.pushed d.packet) := by
        simp [Session.sent,hd]
      rw [hout]
      refine .trans ?_ (payloads_mono (List.take_prefix (s.rx.sequencedLegs+1) _))
      rw [List.take_add_one,hleg,payloads_append]
      exact (List.prefix_append_right_inj _).mpr (by simpa using List.take_prefix _ _)
  · obtain ⟨hended,hall⟩ := horder.done hdone
    have hquiet : s.tx.ingest.pc.feeding = false := by
      simp only [TxState.ended,Bool.and_eq_true,Option.isNone_iff_eq_none] at hended
      cases hpc : s.tx.ingest.pc <;> simp_all [IngestPc.feeding,IngestPc.found]
    rw [hall,hsent,TxState.fed,hquiet]
    simp

end Session

/-- A session with a pipe at its `input_fd`: what has been written there and not been read,
whether its writing end is closed, and how far the call of `bufferfill` is that `txingest` is in.
The last field is history: all that was written. -/
structure Piped (W : ℕ) where
  session : Session W
  stdin : List UInt8
  closed : Bool
  fill : Option Bufferfill
  input : List UInt8

/-- What may happen next: bytes are written to `input_fd`, or its writing end is closed;
`txingest` calls `bufferfill`, a `read` in there returns, or the call does; or the session
moves otherwise. -/
inductive PipedAction (W : ℕ)
  | put (bs : List UInt8)
  | close
  | call
  | read (count : ℕ)
  | ret
  | session (a : SessionAction W)

namespace Piped

/-- A `read` may return `count` bytes: some that are there, or none at the end. -/
def MayRead (p : Piped W) (count : ℕ) : Prop :=
  0 < count ∧ count ≤ p.stdin.length ∨ count = 0 ∧ p.stdin = [] ∧ p.closed = true

instance (p : Piped W) (count : ℕ) : Decidable (p.MayRead count) :=
  inferInstanceAs (Decidable (_ ∨ _))

/-- `bufferfill` has read; the process ends with it. -/
def withFill (p : Piped W) (count : ℕ) (f : Bufferfill) : Piped W :=
  { p with
    session := { p.session with tx := { p.session.tx with exited := f.exited } }
    stdin := p.stdin.drop count
    fill := some f }

/-- `bufferfill` returns to `txingest`. -/
def returnFill (cfg : SessionConfig) (p : Piped W) (f : Bufferfill) : Option (Piped W) :=
  f.returned.bind fun n =>
    if h : (f.dest.read n.toNat).length ≤ kfootsize then
      (sessionStep cfg p.session (.tx (.fill ⟨f.dest.read n.toNat,h⟩))).map fun s =>
        { p with session := s, fill := none }
    else none

/-- The two ends: what was written at one, and what the other shows. -/
def pipe (p : Piped W) : Pipe.State UInt8 :=
  ⟨p.input,p.session.rx.output,p.closed,p.session.rx.doneMbox⟩

end Piped

def pipedStep (cfg : SessionConfig) (charmode : Bool) (p : Piped W) :
    PipedAction W → Option (Piped W)
  | .put bs =>
    if p.closed then none else some { p with stdin := p.stdin++bs, input := p.input++bs }
  | .close => some { p with closed := true }
  | .call =>
    match p.session.tx.ingest.pc,p.fill with
    | .fill w,none =>
      if p.session.tx.exited.isSome ∨ cfg.tx.gprbsSeed > 0 then none
      else some { p with
        fill := some (.enter (UInt64.ofNat kfootsize) (p.session.tx.workers w).buffer) }
    | _,_ => none
  | .read count =>
    if p.session.tx.exited.isSome ∨ ¬ p.MayRead count then none
    else p.fill.bind fun f =>
      (fillStep charmode f (.read (p.stdin.take count))).map (p.withFill count)
  | .ret => p.fill.bind (p.returnFill cfg)
  | .session a =>
    if a.fills then none else (sessionStep cfg p.session a).map fun s => { p with session := s }

def pipedInit (W : ℕ) : Piped W := ⟨sessionInit W,[],false,none,[]⟩

def pipedMachine (cfg : SessionConfig) (charmode : Bool) (W : ℕ) :
    Machine (Piped W) (PipedAction W) where
  init := fun p => p = pipedInit W
  step := pipedStep cfg charmode

/-- The session's own steps are orderly. -/
def OrderlyPiped (p : Piped W) : PipedAction W → Prop
  | .session a => Orderly p.session a
  | _ => True

instance (p : Piped W) (a : PipedAction W) : Decidable (OrderlyPiped p a) := by
  cases a <;> unfold OrderlyPiped <;> infer_instance

/-- Where each byte is that was written: handed over by `bufferfill`, stored in the buffer it
is filling, or not read. -/
structure PipedSound (cfg : SessionConfig) (charmode : Bool) (p : Piped W) : Prop where
  session : Reachable (sessionMachine cfg W) Orderly p.session
  input : p.input =
    p.session.tx.fed ++ (p.fill.elim [] Bufferfill.consumed ++ p.stdin)
  filling : ∀ f ∈ p.fill, ∃ w, p.session.tx.ingest.pc = .fill w ∧
    Reachable (fillMachine charmode (UInt64.ofNat kfootsize) (p.session.tx.workers w).buffer)
      FillAction.successful f
  empty : ∀ f ∈ p.fill, f.returned.isSome → f.consumed = [] → p.stdin = [] ∧ p.closed = true
  ending : p.session.tx.sawEnd = true → p.stdin = [] ∧ p.closed = true

namespace PipedSound

variable {cfg : SessionConfig} {charmode : Bool} {p q : Piped W}

theorem init : PipedSound cfg charmode (pipedInit W) where
  session := .init rfl
  input := rfl
  filling f hf := by cases hf
  empty f hf := by cases hf
  ending h := by cases h

theorem put (hp : PipedSound cfg charmode p) {bs : List UInt8} (hopen : p.closed = false) :
    PipedSound cfg charmode { p with stdin := p.stdin++bs, input := p.input++bs } where
  session := hp.session
  input := by simp [hp.input]
  filling := hp.filling
  empty f hf hret hnil := by simp [(hp.empty f hf hret hnil).2] at hopen
  ending h := by simp [(hp.ending h).2] at hopen

theorem close (hp : PipedSound cfg charmode p) :
    PipedSound cfg charmode { p with closed := true } where
  session := hp.session
  input := hp.input
  filling := hp.filling
  empty f hf hret hnil := ⟨(hp.empty f hf hret hnil).1,rfl⟩
  ending h := ⟨(hp.ending h).1,rfl⟩

theorem call (hp : PipedSound cfg charmode p) {w : Fin W}
    (hpc : p.session.tx.ingest.pc = .fill w) (hfill : p.fill = none) :
    PipedSound cfg charmode { p with
      fill := some (.enter (UInt64.ofNat kfootsize) (p.session.tx.workers w).buffer) } where
  session := hp.session
  input := by simp [hp.input,hfill,Bufferfill.enter]
  filling f hf := by
    cases hf
    exact ⟨w,hpc,.init rfl⟩
  empty f hf hret := by
    cases hf
    cases hret
  ending := hp.ending

/-- A `read` by itself does nothing to the session, and puts its bytes behind those there. -/
theorem reads (hp : PipedSound cfg charmode p) (halive : p.session.tx.exited = none) {count : ℕ}
    {f g : Bufferfill} (hf : p.fill = some f)
    (h : fillStep charmode f (.read (p.stdin.take count)) = some g) :
    (p.withFill count g).session = p.session ∧ g.consumed = f.consumed ++ p.stdin.take count := by
  obtain ⟨w,hpc,hreach⟩ := hp.filling f hf
  have hnext : Reachable (fillMachine charmode (UInt64.ofNat kfootsize)
      (p.session.tx.workers w).buffer) FillAction.successful g :=
    hreach.step (a := .read (p.stdin.take count)) trivial h
  have hfilling := (Bufferfill.reachable (by decide) (by decide) hreach).1
  refine ⟨by simp [Piped.withFill,(Bufferfill.reachable (by decide) (by decide) hnext).1.alive,
    ← halive],?_⟩
  simp only [fillStep,hfilling.alive,hfilling.errno] at h
  split at h
  · cases h
  · simp only [Bool.false_eq_true,if_false] at h
    split at h <;> cases h
    unfold Bufferfill.taken
    simp only
    split_ifs <;> rfl

/-- A `read` moves its bytes from the pipe to the buffer. -/
theorem read (hp : PipedSound cfg charmode p) (halive : p.session.tx.exited = none) {count : ℕ}
    (hmay : p.MayRead count) {f g : Bufferfill} (hf : p.fill = some f)
    (h : fillStep charmode f (.read (p.stdin.take count)) = some g) :
    PipedSound cfg charmode (p.withFill count g) ∧ (p.withFill count g).pipe = p.pipe := by
  obtain ⟨hsession,hconsumed⟩ := hp.reads halive hf h
  have hend (hnil : p.stdin.take count = []) : p.stdin = [] ∧ p.closed = true := by
    rcases hmay with ⟨hpos,hle⟩ | ⟨-,hempty⟩
    · have hlen := congrArg List.length hnil
      simp only [List.length_take,List.length_nil] at hlen
      omega
    · exact hempty
  refine ⟨⟨hsession ▸ hp.session,?_,?_,?_,?_⟩,?_⟩
  · rw [hsession]
    simp [Piped.withFill,hp.input,hf,hconsumed]
  · rw [hsession]
    intro f' hf'
    cases hf'
    obtain ⟨w,hpc,hreach⟩ := hp.filling f hf
    exact ⟨w,hpc,hreach.step (a := .read (p.stdin.take count)) trivial h⟩
  · intro f' hf' _ hnil
    cases hf'
    rw [hconsumed,List.append_eq_nil_iff] at hnil
    obtain ⟨hstdin,hclosed⟩ := hend hnil.2
    exact ⟨by simp [Piped.withFill,hstdin],hclosed⟩
  · rw [hsession]
    intro hsaw
    obtain ⟨hstdin,hclosed⟩ := hp.ending hsaw
    exact ⟨by simp [Piped.withFill,hstdin],hclosed⟩
  · simp only [Piped.pipe,hsession]
    rfl

/-- The return of `bufferfill` is a step of the session, with the bytes consumed. -/
theorem returns (hp : PipedSound cfg charmode p) {f : Bufferfill} (hf : p.fill = some f)
    (h : p.returnFill cfg f = some q) : ∃ (n : ℤ) (data : Payload), f.returned = some n ∧
      data.val = f.consumed ∧ sessionStep cfg p.session (.tx (.fill data)) = some q.session ∧
        q = { p with session := q.session, fill := none } := by
  obtain ⟨w,-,hreach⟩ := hp.filling f hf
  obtain ⟨hfill,hpaced⟩ := Bufferfill.reachable (by decide) (by decide) hreach
  obtain ⟨n,hn,h⟩ := Option.bind_eq_some_iff.mp h
  have hdata : f.dest.read n.toNat = f.consumed := by
    rw [(hpaced.stopped n hn).1,Int.toNat_natCast,hfill.dest,Memory.read_store_zero]
  split at h
  case isFalse => cases h
  obtain ⟨s,hs,rfl⟩ := Option.map_eq_some_iff.mp h
  exact ⟨n,⟨f.dest.read n.toNat,‹_›⟩,hn,hdata,hs,rfl⟩

/-- `txingest` takes what is in the buffer, and nothing for the end. -/
theorem ret (hcfg : cfg.tx.Streams) (hp : PipedSound cfg charmode p) {f : Bufferfill}
    (hf : p.fill = some f) (h : p.returnFill cfg f = some q) :
    PipedSound cfg charmode q ∧ q.input = p.input ∧ q.closed = p.closed ∧
      p.session.rx.output <+: q.session.rx.output ∧
      (p.session.rx.doneMbox = true → q.session.rx.doneMbox = true) := by
  obtain ⟨n,data,hn,hdata,hs,hq⟩ := hp.returns hf h
  have horderly : Orderly p.session (.tx (.fill data)) :=
    ⟨⟨rfl,rfl,rfl⟩,fun b hb i hi => by cases hb; cases hi⟩
  have hfed : q.session.tx.fed = p.session.tx.fed ++ f.consumed ∧
      (q.session.tx.sawEnd = true → p.session.tx.sawEnd = true ∨ f.consumed = []) := by
    rw [← hdata]
    cases sessionStep_cases hs with
    | tx _ tx _ htx ht =>
      rw [ht]
      cases txStep_cases htx with
      | ingest hstep _ =>
        rcases hstep with ⟨hother,-⟩ | ⟨w,data',hother,hpc,-,ht⟩
        · cases hother
        · cases hother
          have hfilled := ingestFilled_fed hcfg (s := p.session.tx.setWorker w
            { p.session.tx.workers w with
              buffer := (p.session.tx.workers w).buffer.store 0 data.val }) hpc data
          exact ht ▸ hfilled
      | fillFailed hother | poll hother => cases hother
      | worker _ _ _ hother => cases hother
  have hsound : PipedSound cfg charmode { p with session := q.session, fill := none } := by
    refine ⟨hp.session.step horderly hs,?_,nofun,nofun,fun hsaw => ?_⟩
    · simp [hp.input,hf,hfed.1]
    · rcases hfed.2 hsaw with hsaw | hnil
      · exact hp.ending hsaw
      · exact hp.empty f hf (by rw [hn]; rfl) hnil
  rw [hq]
  exact ⟨hsound,rfl,rfl,output_of_session hs⟩

/-- Any other step of the session leaves the call of `bufferfill` as it is. -/
theorem move (hcfg : cfg.tx.Streams) (hp : PipedSound cfg charmode p) {a : SessionAction W}
    (ha : a.fills = false) (horderly : Orderly p.session a) {s : Session W}
    (h : sessionStep cfg p.session a = some s) :
    PipedSound cfg charmode { p with session := s } := by
  have hc : TxControl p.session.tx :=
    .reachable (Session.tx_reachable (fun _ _ => trivial) (fun _ _ _ => trivial) hp.session :
      Reachable (txMachine cfg.tx W) anyStep p.session.tx)
  have hfed : s.tx.fed = p.session.tx.fed ∧ (s.tx.sawEnd = true → p.session.tx.sawEnd = true) := by
    rcases tx_of_session ha h with htx | ⟨b,hb,htx⟩
    · exact htx ▸ ⟨rfl,id⟩
    · exact txStep_fed hcfg htx hb
  refine ⟨hp.session.step horderly h,by simp [hp.input,hfed.1],fun f hf => ?_,hp.empty,
    fun hsaw => hp.ending (hfed.2 hsaw)⟩
  obtain ⟨w,hpc,hreach⟩ := hp.filling f hf
  have hkeep : s.tx.ingest.pc = .fill w ∧
      (s.tx.workers w).buffer = (p.session.tx.workers w).buffer := by
    rcases tx_of_session ha h with htx | ⟨b,hb,htx⟩
    · rw [htx]
      exact ⟨hpc,rfl⟩
    · exact txStep_filling hc hpc hcfg.1 htx hb
  exact ⟨w,hkeep.1,hkeep.2 ▸ hreach⟩

/-- When `done_mbox` is set, all that was written has come out, and no more will be written. -/
theorem whole (hW : W ≤ kthreadmax) (hcfg : cfg.tx.Streams) (hp : PipedSound cfg charmode p)
    (hdone : p.session.rx.doneMbox = true) :
    p.closed = true ∧ p.session.rx.output = p.input := by
  obtain ⟨hended,hall⟩ := (output_fed hW hcfg hp.session).2 hdone
  simp only [TxState.ended,Bool.and_eq_true,Option.isNone_iff_eq_none] at hended
  obtain ⟨hstdin,hshut⟩ := hp.ending (by simp [TxState.sawEnd,hended.1])
  have hnone : p.fill = none := by
    rw [Option.eq_none_iff_forall_ne_some]
    intro f hf
    obtain ⟨w,hpc,-⟩ := hp.filling f hf
    simp [hpc,IngestPc.found] at hended
  exact ⟨hshut,by simp [hall,hp.input,hnone,hstdin]⟩

/-- One step, and what those at the two ends see of it. -/
theorem step (hW : W ≤ kthreadmax) (hcfg : cfg.tx.Streams) (hp : PipedSound cfg charmode p)
    {a : PipedAction W} (ha : OrderlyPiped p a) (h : pipedStep cfg charmode p a = some q) :
    PipedSound cfg charmode q ∧ (Pipe.machine UInt8).Leads anyStep p.pipe q.pipe := by
  -- what comes out on the way is a part of what was put in, by the invariant behind the step
  have houtput (hq : PipedSound cfg charmode q) (hinput : q.input = p.input)
      (hclosed : q.closed = p.closed) (hmore : p.session.rx.output <+: q.session.rx.output)
      (hdone : p.session.rx.doneMbox = true → q.session.rx.doneMbox = true) :
      (Pipe.machine UInt8).Leads anyStep p.pipe q.pipe := by
    have hpre := (output_fed hW hcfg hq.session).1
    have hin : q.session.tx.fed <+: p.input :=
      hinput ▸ hq.input ▸ List.prefix_append _ _
    have hpipe : q.pipe = { p.pipe with
        output := q.session.rx.output, ended := q.session.rx.doneMbox } := by
      simp [Piped.pipe,hinput,hclosed]
    rw [hpipe]
    refine Pipe.leads_output hmore (hpre.trans hin) hdone fun hover => ?_
    obtain ⟨hshut,hall⟩ := hq.whole hW hcfg hover
    exact ⟨hclosed.symm.trans hshut,hall.trans hinput⟩
  cases a with
  | put bs =>
    simp only [pipedStep] at h
    split at h <;> cases h
    rename_i hopen
    exact ⟨hp.put (by simpa using hopen),Pipe.leads_put (by simpa [Piped.pipe] using hopen)⟩
  | close => cases h; exact ⟨hp.close,Pipe.leads_close⟩
  | call =>
    simp only [pipedStep] at h
    split at h
    · split at h <;> cases h
      exact ⟨hp.call ‹_› ‹_›,.refl⟩
    · cases h
  | read count =>
    simp only [pipedStep] at h
    split at h
    · cases h
    · rename_i hcan
      obtain ⟨f,hf,h⟩ := Option.bind_eq_some_iff.mp h
      obtain ⟨g,hg,rfl⟩ := Option.map_eq_some_iff.mp h
      obtain ⟨halive,hmay⟩ := not_or.mp hcan
      obtain ⟨hq,hpipe⟩ := hp.read (by simpa using halive) (not_not.mp hmay) hf hg
      exact ⟨hq,hpipe ▸ .refl⟩
  | ret =>
    obtain ⟨f,hf,h⟩ := Option.bind_eq_some_iff.mp h
    obtain ⟨hq,hinput,hclosed,hmore,hdone⟩ := hp.ret hcfg hf h
    exact ⟨hq,houtput hq hinput hclosed hmore hdone⟩
  | session a =>
    simp only [pipedStep] at h
    split at h
    · cases h
    · obtain ⟨s,hs,rfl⟩ := Option.map_eq_some_iff.mp h
      have hq := hp.move hcfg (by simpa using ‹¬ a.fills = true›) ha hs
      obtain ⟨hmore,hdone⟩ := output_of_session hs
      exact ⟨hq,houtput hq rfl rfl hmore hdone⟩

theorem reachable (hW : W ≤ kthreadmax) (hcfg : cfg.tx.Streams)
    (hp : Reachable (pipedMachine cfg charmode W) OrderlyPiped p) : PipedSound cfg charmode p :=
  hp.invariant (by rintro p rfl; exact init) fun _ _ _ _ h ha hstep => (h.step hW hcfg ha hstep).1

end PipedSound

/-- For those at the two ends the two processes are one pipe: what is written to `output_fd` is
what was written to `input_fd`, in order, and `done_mbox` is set when all of it is written
and no more will come. -/
theorem refines_pipe (hW : W ≤ kthreadmax) {cfg : SessionConfig} (hcfg : cfg.tx.Streams)
    (charmode : Bool) :
    Refines (pipedMachine cfg charmode W) OrderlyPiped (Pipe.machine UInt8) Piped.pipe where
  init := by rintro p rfl; rfl
  step _ _ _ hp ha hstep := ((PipedSound.reachable hW hcfg hp).step hW hcfg ha hstep).2

/-- One byte is written, and read by `bufferfill`. -/
def readingRun : List (PipedAction 1) :=
  .flatten [[.put [7]],(meet 0 ++ txRun (ingestSteps 6)).map .session,[.call,.read 1]]

/-- The byte and the end of the stream, read by two calls of `bufferfill`. -/
def pipedRun : List (PipedAction 1) :=
  .flatten [readingRun,[.close,.read 0,.ret],
    (List.flatten [txRun (ingestSteps 5 ++ workerSteps 0 9 ++ [.worker 0 (.accept 41)]),
      txRun (workerSteps 0 4),[.readv 0 ⟨0,0,0,0,0⟩ 40,.read 0 1],rxRunOf (rxSteps 0 3),
      rxRunOf [.write 0 1],rxRunOf (rxSteps 0 6),txRun (ingestSteps 8)]).map .session,
    [.call,.read 0,.ret],
    (List.flatten [txRun (ingestSteps 8 ++ workerSteps 0 9 ++ [.worker 0 (.accept 40)]),
      [.readv 0 ⟨0,0,0,0,0⟩ 40],rxRunOf (rxSteps 0 3),rxRunOf [.write 0 0],
      rxRunOf (rxSteps 0 4)]).map .session]

theorem refines_pipedRun :
    ∃ p ∈ exec (pipedMachine ⟨.plain,.plain,100⟩ false 1) OrderlyPiped (pipedInit 1) pipedRun,
      p.pipe = ⟨[7],[7],true,true⟩ ∧ Reachable (Pipe.machine UInt8) anyStep p.pipe := by
  have hrun : ∃ p ∈ exec (pipedMachine ⟨.plain,.plain,100⟩ false 1) OrderlyPiped (pipedInit 1)
      pipedRun, p.pipe = ⟨[7],[7],true,true⟩ := by decide +kernel
  obtain ⟨p,hp,hpipe⟩ := hrun
  exact ⟨p,hp,hpipe,(refines_pipe (by decide) (by decide) false).reachable
    (reachable_exec (.init rfl) hp)⟩

end Viamillipede
