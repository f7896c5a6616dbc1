import Viamillipede.SessionDrop
import Viamillipede.RxPrbs

/-! A session that nothing disturbs does not end itself.

Both processes are full of assertions and `exit`s. None of them fires in a run in which no
call fails and start-ups are not interrupted, when the two command lines agree: the size,
the opcode and the order of the legs are right at every check, and so are the payloads that
`prbs_verify` sees. -/
namespace Viamillipede

open Bytes Transition

variable {W : ℕ}

section Transmitter

variable {cfg : TxConfig}

/-- What the options say about a leg: without checksums that field is zero, and in PRBS mode
the leg is a whole buffer. -/
structure Packet.Suits (cfg : TxConfig) (p : Packet) : Prop where
  checksum : cfg.gchecksums = false → p.header.checksum = 0
  whole : cfg.gprbsSeed > 0 → p.payload.length = kfootsize

/-- All legs do, and the one that is being stored. -/
structure FeedsSuit (cfg : TxConfig) (s : TxState W) : Prop where
  legs : ∀ d ∈ s.log, d.packet.IsFeed → d.packet.Suits cfg
  filled : cfg.gprbsSeed > 0 → s.ingest.pc.feeding → s.ingest.readsize = kfootsize

namespace FeedsSuit

theorem init : FeedsSuit cfg (txInit W) where
  legs _ h := by cases h
  filled _ h := by cases h

theorem ingestFilled {s : TxState W} {w : Fin W} (hs : FeedsSuit cfg s) {fill : Payload}
    (hfill : cfg.gprbsSeed > 0 → fill.val.length = kfootsize) :
    FeedsSuit cfg (ingestFilled cfg s w fill) := by
  unfold Viamillipede.ingestFilled
  simp only
  split_ifs
  · exact ⟨hs.legs,fun _ h => by cases h⟩
  · exact ⟨hs.legs,fun hseed _ => hfill hseed⟩
  · exact ⟨hs.legs,fun _ h => by cases h⟩

/-- A step that hands nothing over and keeps the fill. -/
theorem of_log {s t : TxState W} (hs : FeedsSuit cfg s) (hlog : t.log = s.log)
    (hfill : t.ingest.fill = s.ingest.fill)
    (hfeeding : t.ingest.pc.feeding = true → s.ingest.pc.feeding = true) : FeedsSuit cfg t where
  legs := hlog ▸ hs.legs
  filled hseed h := by
    rw [Ingest.readsize,hfill]
    exact hs.filled hseed (hfeeding h)

theorem ingestStep {s t : TxState W} (hs : FeedsSuit cfg s) (h : ingestStep cfg s = some t) :
    FeedsSuit cfg t := by
  cases hpc : s.ingest.pc with
  | fill w =>
    simp only [Viamillipede.ingestStep,hpc] at h
    split_ifs at h
    cases h
    exact hs.ingestFilled fun _ => by simp
  | start w =>
    simp only [Viamillipede.ingestStep,hpc,Option.some.injEq] at h
    subst h
    refine ⟨fun d hd hfeed => ?_,fun _ h => by cases h⟩
    simp only [startWorker,TxState.goto,List.mem_append,List.mem_singleton] at hd
    rcases hd with hd | rfl
    · exact hs.legs d hd hfeed
    · refine ⟨fun hoff => by simp [Ingest.feedPacket,hoff],fun hseed => ?_⟩
      exact hs.filled hseed (by rw [hpc]; rfl)
  | shutStart w =>
    simp only [Viamillipede.ingestStep,hpc,Option.some.injEq] at h
    subst h
    refine ⟨fun d hd hfeed => ?_,fun _ h => by cases h⟩
    simp only [startWorker,TxState.goto,List.mem_append,List.mem_singleton] at hd
    rcases hd with hd | rfl
    · exact hs.legs d hd hfeed
    · exact absurd rfl hfeed.nonempty
  | test =>
    simp only [Viamillipede.ingestStep,hpc,Option.some.injEq] at h
    subst h
    refine hs.of_log rfl rfl fun h => ?_
    dsimp only [TxState.goto] at h
    split_ifs at h <;> cases h
  | scanUnlock found =>
    cases found <;> simp only [Viamillipede.ingestStep,hpc,Option.some.injEq] at h <;> subst h <;>
      exact hs.of_log rfl rfl fun h => by cases h
  | size w | leg w | opcode w | checksum w =>
    simp only [Viamillipede.ingestStep,hpc,Option.some.injEq] at h
    exact h ▸ hs.of_log rfl rfl fun _ => by rw [hpc]; rfl
  | _ =>
    simp only [Viamillipede.ingestStep,hpc] at h
    try split_ifs at h
    all_goals cases h
    all_goals exact hs.of_log rfl rfl fun h => by cases h

theorem step {s t : TxState W} {a : TxAction W} (hs : FeedsSuit cfg s)
    (h : txStep cfg s a = some t) : FeedsSuit cfg t := by
  cases txStep_cases h with
  | ingest hstep _ =>
    rcases hstep with ⟨_,hstep⟩ | ⟨w,data,_,hpc,hseed,rfl⟩
    · exact hs.ingestStep hstep
    · have hset : FeedsSuit cfg (s.setWorker w
          { s.workers w with buffer := (s.workers w).buffer.store 0 data.val }) :=
        hs.of_log rfl rfl id
      exact hset.ingestFilled fun h => absurd h (by simp [hseed])
  | fillFailed _ ht => exact ht ▸ hs.of_log rfl rfl id
  | worker i b m _ _ ht => exact ht ▸ hs.of_log rfl rfl id
  | poll _ ht =>
    obtain ⟨p,hp⟩ := pollStep_eq s
    rw [ht,hp]
    exact hs.of_log rfl rfl id

theorem reachable {ok : TxState W → TxAction W → Prop} {s : TxState W}
    (hs : Reachable (txMachine cfg W) ok s) : FeedsSuit cfg s :=
  hs.invariant (by rintro s rfl; exact init) fun _ _ _ _ h _ hstep => h.step hstep

end FeedsSuit

theorem TxLog.feed_or_end {s : TxState W} (hs : TxLog s) {d : Dispatch W} (hd : d ∈ s.log) :
    d.packet.IsFeed ∨ d.packet.IsEnd := by
  cases hended : s.ended with
  | false => exact .inl (hs.feeds hended d hd)
  | true =>
    obtain ⟨feeds,e,hlog,hfeeds,hend⟩ := hs.last hended
    rw [hlog,List.mem_append,List.mem_singleton] at hd
    rcases hd with hd | rfl
    · exact .inl (hfeeds d hd)
    · exact .inr hend

end Transmitter

/-- The two command lines agree, checksums are off, and the check phrase has its four bytes. -/
structure SessionConfig.Agreed (cfg : SessionConfig) : Prop where
  checksums : cfg.tx.gchecksums = false
  seed : cfg.rx.gprbsSeed = cfg.tx.gprbsSeed
  phrase : 4 ≤ cfg.rx.gcheckphrase.length

variable {cfg : SessionConfig}

/-- What is complete on a connection has been handed over. -/
theorem OnConnection.received {s : Session W} {i : Fin W} {legs : List Packet}
    {part lost unsent : List UInt8} (h : OnConnection cfg s i legs part lost unsent) {p : Packet}
    (hp : p.frame <+: part ++ s.conn i) : ∃ d ∈ s.tx.log, p = cfg.tx.pushed d.packet := by
  have hframe : Packet.code.encodeAll [p] <+: Packet.code.encodeAll legs := by
    rw [h.bytes,← List.append_assoc]
    simpa using hp.trans (List.prefix_append _ _)
  exact h.mem_log ((Packet.code.prefix_of_encodeAll_prefix hframe).subset List.mem_cons_self)

/-- A leg as it was pushed passes the verification. -/
theorem RxWorker.sequence_of_pushed (hagree : cfg.rx.gprbsSeed = cfg.tx.gprbsSeed) {w : RxWorker}
    {p : Packet} (hp : p.IsFeed ∧ p.Suits cfg.tx ∨ p.IsEnd) (hw : w.packet = cfg.tx.pushed p) (e : Exit) :
    w.sequence cfg.rx ≠ .error e := by
  have hpkt : w.pkt = p.header := congrArg Packet.header hw
  intro herror
  unfold RxWorker.sequence at herror
  split at herror
  · rename_i hfails
    obtain ⟨hseed,-,hverify,hmore⟩ := hfails
    rcases hp with ⟨-,hsuits⟩ | hend
    · rw [hagree] at hseed
      have hlen := hsuits.whole hseed
      have hread : w.buffer.read kfootsize = (cfg.tx.pushBuffer
          (Memory.store (fun _ => 0) 0 p.payload) p.header.legId).read kfootsize := by
        have hpayload : w.buffer.read w.pkt.size.toNat = (cfg.tx.pushed p).payload :=
          congrArg Packet.payload hw
        rwa [TxConfig.pushed_payload,hpkt,← p.size_eq,hlen] at hpayload
      rw [TxConfig.pushBuffer,if_pos hseed] at hread
      have hfoot : kfootsize = 8*(kfootsize/8) := by decide
      rw [← Bool.not_eq_true,hpkt,hagree,hfoot,
        prbsVerify_iff_bytes _ (Memory.store (fun _ => 0) 0 p.payload),← hfoot] at hverify
      refine hverify fun j hj => ?_
      simpa [Memory.read] using Memory.slice_inj hread hj
    · rw [hpkt,hend.opcode] at hmore
      exact hmore rfl
  · cases herror

theorem RxWorker.sequence_refused {w : RxWorker} {p : Packet}
    (hp : p.IsFeed ∧ p.Suits cfg.tx ∨ p.IsEnd) (hw : w.packet = cfg.tx.pushed p) {e : Exit}
    (h : w.sequence cfg.rx = .error e) :
    e = .exit 133 ∧ cfg.rx.gprbsSeed ≠ cfg.tx.gprbsSeed :=
  ⟨sequence_error h,fun hagree => sequence_of_pushed hagree hp hw e h⟩

/-- Only the check of the opcode can end a process that does not call on a connection. -/
theorem rxStep_quiet {n : ℕ} {cfg : RxConfig} {s t : RxState n} {a : RxAction n}
    (ha : (∃ i, a = .run i ∧ (s.workers i).pc ≠ .opcode) ∨ (∃ i, a = .wake i) ∨
      (∃ i count, a = .write i count) ∨ a = .poll) (h : rxStep cfg s a = some t) :
    t.exited = s.exited := by
  simp only [rxStep] at h
  split at h
  · cases h
  rcases ha with ⟨i,rfl,hpc⟩ | ⟨i,rfl⟩ | ⟨i,count,rfl⟩ | rfl
  · cases hpc' : (s.workers i).pc with
    | opcode => exact absurd hpc' hpc
    | start | outer | lock | relock | doneLock | advLock =>
      simp only [rxRun,hpc'] at h
      split at h <;> cases h <;> rfl
    | _ =>
      simp only [rxRun,hpc',Option.some.injEq,reduceCtorEq] at h
      try exact h ▸ rfl
  · simp only at h
    split at h <;> cases h
    rfl
  · simp only [rxWrite] at h
    split at h
    · split at h
      · cases h
      · split at h <;> cases h <;> rfl
    · cases h
  · obtain ⟨p,m,rfl⟩ := rxPollStep_eq h
    rfl

/-- Worker `i` has ended the process, as the checksum of its leg is not the one it computed. -/
structure RxState.Alarm {n : ℕ} (s : RxState n) (i : Fin n) : Prop where
  exited : s.exited = some (.assertion 194)
  pc : (s.workers i).pc = .opcode
  opcode : (s.workers i).pkt.opcode = feedMore
  sum : rxChecksum s.grxSavedChecksum (s.workers i).pkt (s.workers i).buffer = none

theorem opcodeStep_alarm {n : ℕ} {s : RxState n} {i : Fin n} (halive : s.exited = none)
    (hpc : (s.workers i).pc = .opcode)
    (h : (s.workers i).pkt.opcode = endOfMillipede ∨ (s.workers i).pkt.opcode = feedMore) :
    (opcodeStep s i).exited = none ∨ (opcodeStep s i).Alarm i := by
  have hother : feedMore ≠ endOfMillipede := by decide
  rcases h with hend | hfeed
  · simp only [opcodeStep,hend,if_true]
    exact .inl halive
  · simp only [opcodeStep,hfeed,hother,if_false,if_true]
    cases hsum : rxChecksum s.grxSavedChecksum (s.workers i).pkt (s.workers i).buffer with
    | some sum => exact .inl halive
    | none => exact .inr ⟨rfl,hpc,hfeed,hsum⟩

section Reads

variable {s : Session W} {i : Fin W} {legs : List Packet} {part lost unsent : List UInt8}

/-- The legs in the log, as `sequence_refused` wants them. -/
theorem suits_of_mem {ok : TxState W → TxAction W → Prop} {tx : TxState W}
    (htx : Reachable (txMachine cfg.tx W) ok tx) {d : Dispatch W} (hd : d ∈ tx.log) :
    d.packet.IsFeed ∧ d.packet.Suits cfg.tx ∨ d.packet.IsEnd :=
  ((TxLog.reachable htx).feed_or_end hd).imp_left fun hfeed =>
    ⟨hfeed,(FeedsSuit.reachable htx).legs d hd hfeed⟩

theorem OnConnection.headerRead_refused {ok : TxState W → TxAction W → Prop}
    (h : OnConnection cfg s i legs part lost unsent)
    (htx : Reachable (txMachine cfg.tx W) ok s.tx) (hpc : (s.rx.workers i).pc = .header)
    (junk : Millipacket) (hlen : Millipacket.sizeof ≤ (s.conn i).length) {e : Exit}
    (herror : (s.rx.workers i).headerRead cfg.rx junk ((s.conn i).take Millipacket.sizeof) =
      .error e) : e = .exit 133 ∧ cfg.rx.gprbsSeed ≠ cfg.tx.gprbsSeed := by
  have hsize := h.header_size (.reachable htx) hpc junk hlen
  have hpend := h.pending
  simp only [RxWorker.Pending,hpc] at hpend
  have htake : ((s.conn i).take Millipacket.sizeof).length = Millipacket.sizeof :=
    List.length_take_of_le hlen
  unfold RxWorker.headerRead at herror
  simp only [if_neg (not_lt.mpr hsize)] at herror
  split at herror
  · rename_i hzero
    have hheader : (junk.overlay ((s.conn i).take Millipacket.sizeof)).bytes =
        (s.conn i).take Millipacket.sizeof := by
      rw [Millipacket.overlay_whole junk htake,Millipacket.bytes_ofBytes htake]
    obtain ⟨d,hd,hp⟩ := h.received (p := ⟨_,[],hzero.symm⟩) (by
      rw [hpend.1,List.nil_append,Packet.frame,List.append_nil,hheader]
      exact List.take_prefix _ _)
    refine RxWorker.sequence_refused (suits_of_mem htx hd) ?_ herror
    rw [← hp]
    exact Packet.ext rfl (by simp [RxWorker.packet,hzero])
  · cases herror

theorem OnConnection.payloadRead_refused {ok : TxState W → TxAction W → Prop}
    (h : OnConnection cfg s i legs part lost unsent)
    (htx : Reachable (txMachine cfg.tx W) ok s.tx) (hpc : (s.rx.workers i).pc = .payload)
    (hwhole : (s.rx.workers i).wholeHeader = true) {count : ℕ} (hcount : 0 < count)
    (hle : count ≤ (s.conn i).length)
    (hroom : ((s.conn i).take count).length ≤ (s.rx.workers i).remainder) {e : Exit}
    (herror : (s.rx.workers i).payloadRead cfg.rx ((s.conn i).take count) = .error e) :
    e = .exit 133 ∧ cfg.rx.gprbsSeed ≠ cfg.tx.gprbsSeed := by
  have hpart := h.pending.whole hpc hwhole
  have hsum := (h.pending.payload hpc).1
  have hne : (s.conn i).take count ≠ [] := by
    apply List.ne_nil_of_length_pos
    rw [List.length_take]
    omega
  unfold RxWorker.payloadRead at herror
  simp only [if_neg hne] at herror
  split at herror
  · rename_i hzero
    have hsize : (s.rx.workers i).pkt.size.toNat =
        (s.rx.workers i).cursor+((s.conn i).take count).length := by omega
    have hbody : ((s.rx.workers i).buffer.store (s.rx.workers i).cursor
        ((s.conn i).take count)).read (s.rx.workers i).pkt.size.toNat =
        (s.rx.workers i).buffer.read (s.rx.workers i).cursor ++ (s.conn i).take count := by
      rw [hsize,Memory.read_store]
    obtain ⟨d,hd,hp⟩ := h.received
      (p := ⟨(s.rx.workers i).pkt,(s.rx.workers i).buffer.read (s.rx.workers i).cursor ++
        (s.conn i).take count,by rw [hsize]; simp⟩) (by
      rw [hpart,Packet.frame,← List.append_assoc]
      exact (List.prefix_append_right_inj _).mpr (List.take_prefix _ _))
    refine RxWorker.sequence_refused (suits_of_mem htx hd) ?_ herror
    rw [← hp]
    exact Packet.ext rfl hbody
  · cases herror

end Reads

/-- The receiver runs, or has ended at a wrong checksum or at a leg of another seed. -/
def RxState.Stands (cfg : SessionConfig) (s : RxState W) : Prop :=
  (s.exited = none ∨ ∃ i, s.Alarm i) ∨
    s.exited = some (.exit 133) ∧ cfg.rx.gprbsSeed ≠ cfg.tx.gprbsSeed

theorem stands_of_orderly (hW : W ≤ kthreadmax) (hlong : 4 ≤ cfg.rx.gcheckphrase.length)
    {s : Session W} (hs : Reachable (sessionMachine cfg W) Orderly s) : s.rx.Stands cfg := by
  induction hs with
  | init h => cases h; exact .inl (.inl rfl)
  | @step s t a hr ha h ih =>
    have hharmless := harmless_of_orderly hr
    have htx := tx_reachable_of_harmless hharmless
    have hsettled {i : Fin W} {rx : RxState W} {r : Except Exit RxWorker}
        (hset : s.rx.Settled rx i r)
        (hrefused : ∀ e, r = .error e → e = .exit 133 ∧ cfg.rx.gprbsSeed ≠ cfg.tx.gprbsSeed) :
        rx.Stands cfg := by
      cases hset with
      | ended e he hrx =>
        obtain ⟨rfl,hne⟩ := hrefused e he
        exact .inr ⟨by rw [hrx],hne⟩
      | ok w _ _ hexited => exact .inl (.inl hexited)
    have hopen (i : Fin W) : s.dropped i = false :=
      (Undropped.reachable (fun _ _ ha => ha.1) hr i).1
    have hread {i : Fin W} {count : ℕ} (hmay : s.MayRead i count) :
        0 < count ∧ count ≤ (s.conn i).length := by
      rcases hmay with hmay | ⟨-,hdropped,-⟩
      · exact hmay
      · simp [hopen i] at hdropped
    cases sessionStep_cases h with
    | connect i tx rx _ haccept ht =>
      rw [ht]
      refine hsettled (rxStep_accept haccept).2 fun e he => ?_
      have hphrase : (cfg.rx.gcheckphrase.take 4).length = 4 := List.length_take_of_le hlong
      simp [RxWorker.accepted,hphrase] at he
    | tx _ _ _ _ ht | drop _ _ _ _ _ ht => rw [ht]; exact ih
    | rx b rx hmay hstep ht =>
      rw [ht]
      have halive := rxStep_alive hstep
      have hquiet {b : RxAction W} {rx : RxState W} (hstep : rxStep cfg.rx s.rx b = some rx)
          (hb : (∃ i, b = .run i ∧ (s.rx.workers i).pc ≠ .opcode) ∨ (∃ i, b = .wake i) ∨
            (∃ i count, b = .write i count) ∨ b = .poll) : rx.Stands cfg :=
        .inl (.inl ((rxStep_quiet hb hstep).trans halive))
      cases b with
      | run i =>
        by_cases hpc : (s.rx.workers i).pc = .opcode
        · obtain ⟨d,hd,-,hpacket⟩ := (SessionOrder.reachable hW hharmless).staged hharmless hW
            (i := i) (by simp [hpc,RxPc.stage])
          have hpkt : (s.rx.workers i).pkt = d.packet.header := congrArg Packet.header hpacket
          have hopcode : (s.rx.workers i).pkt.opcode = endOfMillipede ∨
              (s.rx.workers i).pkt.opcode = feedMore := by
            rw [hpkt]
            rcases suits_of_mem htx (List.mem_of_getElem? hd) with ⟨hfeed,-⟩ | hend
            · exact .inr hfeed.opcode
            · exact .inl hend.opcode
          simp only [rxStep,halive,Option.isSome_none,Bool.false_eq_true,if_false,rxRun,hpc,
            Option.some.injEq] at hstep
          rw [← hstep]
          exact .inl ((opcodeStep_alarm halive hpc hopcode).imp_right fun halarm => ⟨i,halarm⟩)
        · exact hquiet hstep (.inl ⟨i,rfl,hpc⟩)
      | wake i => exact hquiet hstep (.inr (.inl ⟨i,rfl⟩))
      | write i count => exact hquiet hstep (.inr (.inr (.inl ⟨i,count,rfl⟩)))
      | poll => exact hquiet hstep (.inr (.inr (.inr rfl)))
      | readvFailed | readFailed => cases ha.1.1
      | _ => cases hmay
    | readv i junk count rx hmay hstep ht =>
      rw [ht]
      obtain ⟨hpc,-,hset⟩ := rxStep_readv hstep
      have hcount : count = Millipacket.sizeof := by
        simpa [SessionAction.shortHeader] using ha.1.2.1
      subst hcount
      obtain ⟨legs,part,lost,unsent,hconn⟩ := exists_onConnection hharmless i
      exact hsettled hset fun e => hconn.headerRead_refused htx hpc junk (hread hmay).2
    | read i count rx hmay hstep ht =>
      rw [ht]
      obtain ⟨hpc,hroom,hset⟩ := rxStep_read hstep
      obtain ⟨legs,part,lost,unsent,hconn⟩ := exists_onConnection hharmless i
      obtain ⟨hpos,hle⟩ := hread hmay
      have hwhole := (Linked.reachable (heeded_of_harmless hharmless)).whole hpc
        (.inr (List.ne_nil_of_length_pos (hpos.trans_le hle)))
      exact hsettled hset fun e => hconn.payloadRead_refused htx hpc hwhole hpos hle hroom

/-- With one seed on both sides, only a wrong checksum is left. -/
theorem alarm_of_orderly (hW : W ≤ kthreadmax) (hagree : cfg.rx.gprbsSeed = cfg.tx.gprbsSeed)
    (hlong : 4 ≤ cfg.rx.gcheckphrase.length) {s : Session W}
    (hs : Reachable (sessionMachine cfg W) Orderly s) :
    s.rx.exited = none ∨ ∃ i, s.rx.Alarm i :=
  (stands_of_orderly hW hlong hs).resolve_right fun hrefused => hrefused.2 hagree

/-- The leg whose checksum is wrong, and where it stands in the stream. -/
theorem RxState.Alarm.leg (hW : W ≤ kthreadmax) {s : Session W}
    (hs : Reachable (sessionMachine cfg W) Harmless s) {i : Fin W} (halarm : s.rx.Alarm i) :
    ∃ d, s.tx.log[s.rx.advances]? = some d ∧ d.packet.IsFeed ∧ d.packet.Suits cfg.tx ∧
      (s.rx.workers i).packet = cfg.tx.pushed d.packet := by
  obtain ⟨d,hd,-,hpacket⟩ := (SessionOrder.reachable hW hs).staged hs hW (i := i)
    (by simp [halarm.pc,RxPc.stage])
  have hpkt : (s.rx.workers i).pkt = d.packet.header := congrArg Packet.header hpacket
  rcases suits_of_mem (tx_reachable_of_harmless hs) (List.mem_of_getElem? hd) with
    ⟨hfeed,hsuits⟩ | hend
  · exact ⟨d,hd,hfeed,hsuits,hpacket⟩
  · have hopcode := halarm.opcode
    rw [hpkt,hend.opcode] at hopcode
    cases hopcode

/-- Without checksums there is none to be wrong. -/
theorem no_alarm (hW : W ≤ kthreadmax) (hsums : cfg.tx.gchecksums = false) {s : Session W}
    (hs : Reachable (sessionMachine cfg W) Harmless s) (i : Fin W) : ¬ s.rx.Alarm i := by
  intro halarm
  obtain ⟨d,-,-,hsuits,hpacket⟩ := halarm.leg hW hs
  have hpkt : (s.rx.workers i).pkt = d.packet.header := congrArg Packet.header hpacket
  have hsum := halarm.sum
  rw [rxChecksum,hpkt,hsuits.checksum hsums] at hsum
  cases hsum

theorem rxAlive_of_orderly (hW : W ≤ kthreadmax) (hcfg : cfg.Agreed) {s : Session W}
    (hs : Reachable (sessionMachine cfg W) Orderly s) : s.rx.exited = none :=
  (alarm_of_orderly hW hcfg.seed hcfg.phrase hs).resolve_right fun ⟨i,halarm⟩ =>
    no_alarm hW hcfg.checksums (harmless_of_orderly hs) i halarm

/-- The steps of a session in which no call fails, no `usleep` is interrupted and no start-up
hits a packet. -/
def Untroubled (s : Session W) (a : SessionAction W) : Prop := Orderly s a ∧ Uninterrupted a

instance (s : Session W) (a : SessionAction W) : Decidable (Untroubled s a) :=
  inferInstanceAs (Decidable (_ ∧ _))

theorem orderly_of_untroubled {s : Session W}
    (hs : Reachable (sessionMachine cfg W) Untroubled s) :
    Reachable (sessionMachine cfg W) Orderly s := hs.mono fun _ _ => And.left

theorem txAlive_of_untroubled {s : Session W}
    (hs : Reachable (sessionMachine cfg W) Untroubled s) : s.tx.exited = none :=
  tx_alive (hs.mono fun _ _ ha => ⟨ha.1.harmless,ha.2⟩)

/-- While no call fails, no `usleep` is interrupted, headers arrive whole and no start-up hits
a packet, neither process ends early: all assertions on the way hold, and so do the checks of
size, opcode, checksum and PRBS payload. -/
theorem alive_of_untroubled (hW : W ≤ kthreadmax) (hcfg : cfg.Agreed) {s : Session W}
    (hs : Reachable (sessionMachine cfg W) Untroubled s) :
    s.tx.exited = none ∧ s.rx.exited = none :=
  ⟨txAlive_of_untroubled hs,rxAlive_of_orderly hW hcfg (orderly_of_untroubled hs)⟩

theorem alive_smoothRun :
    ∃ s ∈ exec (sessionMachine ⟨.plain,.plain,100⟩ 1) Untroubled (sessionInit 1) smoothRun,
      s.rx.poll = .returned true ∧ s.tx.exited = none ∧ s.rx.exited = none := by
  have hrun : ∃ s ∈ exec (sessionMachine ⟨.plain,.plain,100⟩ 1) Untroubled (sessionInit 1)
      smoothRun, s.rx.poll = .returned true := by decide +kernel
  obtain ⟨s,hs,hpoll⟩ := hrun
  exact ⟨s,hs,hpoll,alive_of_untroubled (by decide) ⟨rfl,rfl,by decide⟩
    (reachable_exec (.init rfl) hs)⟩

end Viamillipede
