import Viamillipede.SessionChecksum
import Viamillipede.SessionFinish
import Viamillipede.PrbsDetection

/-! Checksums and the PRBS mode exclude each other.

`txingest` sums a leg before `txpush` fills it, and so over what the buffer held before: nothing,
or an earlier leg. What comes out at the receiver is the sum of another payload, and the second
leg at the latest does not pass. -/
namespace Viamillipede

open Bytes Transition

variable {W : ℕ}

/-- What `mix` sees of a buffer when `k` legs were handed over: nothing, or one of those legs. -/
def Stale (seed : UInt64) (k : ℕ) (buffer : Memory) : Prop :=
  lowHalf buffer 0 = 0 ∨ ∃ j < k, lowHalf buffer 0 = (seed+UInt64.ofNat j).toUInt32

theorem Stale.mono {seed : UInt64} {j k : ℕ} {buffer : Memory} (h : Stale seed j buffer)
    (hle : j ≤ k) : Stale seed k buffer :=
  h.imp_right fun ⟨i,hi,hhalf⟩ => ⟨i,hi.trans_le hle,hhalf⟩

/-- `prbs_gen` starts with the permutation itself. -/
theorem lowHalf_prbsGen (payload : Memory) (permutation : UInt64) :
    lowHalf (prbsGen payload permutation kfootsize) 0 = permutation.toUInt32 := by
  rw [lowHalf,prbsGen_word payload permutation (by decide),prbsSequence]
  simp

theorem lowHalf_zeroed : lowHalf (fun _ => 0) 0 = 0 := by decide

section Transmitter

variable {cfg : TxConfig} {s t : TxState W}

theorem TxState.setPkt_buffer (s : TxState W) (w i : Fin W) (pkt : Millipacket) :
    ((s.setPkt w pkt).workers i).buffer = (s.workers i).buffer := by
  rcases eq_or_ne i w with rfl | hne
  · simp [setPkt,setWorker]
  · simp [setPkt,setWorker,hne]

theorem startWorker_buffer (s : TxState W) (w i : Fin W) (p : Packet) :
    ((startWorker s w p).workers i).buffer = (s.workers i).buffer := by
  rcases eq_or_ne i w with rfl | hne
  · simp [startWorker,TxState.setWorker]
  · simp [startWorker,TxState.setWorker,hne]

/-- `txingest` by itself stores headers only. -/
theorem ingestStep_buffer (h : ingestStep cfg s = some t) (i : Fin W) :
    (t.workers i).buffer = (s.workers i).buffer := by
  cases hpc : s.ingest.pc with
  | size w | leg w | opcode w | checksum w | shutSize w | shutLeg w | shutOpcode w =>
    simp only [ingestStep,hpc,Option.some.injEq] at h
    exact h ▸ TxState.setPkt_buffer _ _ _ _
  | start w | shutStart w =>
    simp only [ingestStep,hpc,Option.some.injEq] at h
    subst h
    simp only [TxState.goto,startWorker_buffer]
  | fill w =>
    simp only [ingestStep,hpc] at h
    split_ifs at h
    obtain ⟨g,hfilled⟩ := ingestFilled_eq cfg s w ⟨(s.workers w).buffer.read kfootsize,by simp⟩
    rw [← Option.some.inj h,hfilled]
  | scanUnlock found =>
    cases found <;> simp only [ingestStep,hpc,Option.some.injEq] at h <;> subst h <;> rfl
  | _ =>
    simp only [ingestStep,hpc] at h
    try split_ifs at h
    all_goals cases h
    all_goals rfl

/-- `txpush` fills the buffer, and nothing else in the thread writes to it. -/
theorem workerStep_buffer {w : TxWorker} {i : Fin W} {mutex : Option (TxThread W)} {done : Bool}
    {a : WorkerAction} {m : WorkerMove W} (h : workerStep cfg i mutex done w a = some m) :
    m.worker.buffer = w.buffer ∨
      w.pc = .gather ∧ m.worker.buffer = cfg.pushBuffer w.buffer w.pkt.legId := by
  cases a with
  | run =>
    cases hpc : w.pc <;> simp only [workerStep,workerRun,hpc] at h
    all_goals grind
  | _ =>
    cases hpc : w.pc <;> simp only [workerStep,hpc,reduceCtorEq] at h
    all_goals grind [writevReturned]

/-- The buffers hold earlier legs at most, and so do the payloads that were handed over. -/
structure TxStale (cfg : TxConfig) (s : TxState W) : Prop where
  buffers : ∀ i, Stale cfg.gprbsSeed s.log.length (s.workers i).buffer
  legs : ∀ (k : ℕ) (p : Packet), s.packets[k]? = some p → p.IsFeed →
    ∃ buffer : Memory, buffer.read p.payload.length = p.payload ∧
      Stale cfg.gprbsSeed (s.packets.take k).length buffer

namespace TxStale

theorem init : TxStale cfg (txInit W) where
  buffers _ := .inl lowHalf_zeroed
  legs _ _ h := by simp [txInit,TxState.packets] at h

/-- A step that hands nothing over. -/
theorem of_log (hs : TxStale cfg s) (hlog : t.log = s.log)
    (hbuffers : ∀ i, Stale cfg.gprbsSeed s.log.length (t.workers i).buffer) : TxStale cfg t where
  buffers := by rw [hlog]; exact hbuffers
  legs := by rw [TxState.packets,hlog]; exact hs.legs

theorem ingestStep (hs : TxStale cfg s) (hh : TxHandover cfg s) (hc : TxControl s)
    (h : ingestStep cfg s = some t) : TxStale cfg t := by
  have hbuffers (i : Fin W) : Stale cfg.gprbsSeed s.log.length (t.workers i).buffer := by
    rw [ingestStep_buffer h]
    exact hs.buffers i
  cases (ingestStep_effect h).change with
  | quiet _ hlog | stored _ _ _ _ _ _ hlog => exact hs.of_log hlog hbuffers
  | marked w p hmarks _ _ hlog =>
    refine ⟨fun i => (hbuffers i).mono (by simp [hlog]),?_⟩
    have hpackets : t.packets = s.packets++[p] := by simp [TxState.packets,hlog]
    rw [hpackets]
    refine forall_take_concat (P := fun before (p : Packet) => p.IsFeed →
      ∃ buffer : Memory, buffer.read p.payload.length = p.payload ∧
        Stale cfg.gprbsSeed before.length buffer) hs.legs fun _ => ?_
    refine ⟨(s.workers w).buffer,?_,by simpa [TxState.packets] using hs.buffers w⟩
    -- the worker was idle, and so it is not pushing
    have hbody := (TxHandover.ingestStep_loads hh hc h hlog).body
    have hidle := hc.found w (IngestPc.found_of_marks hmarks)
    have hcontrol := hc.worker w
    cases hpc : (s.workers w).pc <;> simp_all [WorkerControl]

theorem workerStep {i : Fin W} {a : WorkerAction} {m : WorkerMove W} (hseed : cfg.gprbsSeed > 0)
    (hs : TxStale cfg s) (hh : TxHandover cfg s) (hl : TxLog s)
    (h : workerStep cfg i s.mutex s.done (s.workers i) a = some m) : TxStale cfg (s.moved i m) := by
  refine hs.of_log rfl fun j => ?_
  rcases eq_or_ne j i with rfl | hne
  · rw [show (s.moved j m).workers j = m.worker from Function.update_self ..]
    rcases workerStep_buffer h with hsame | ⟨hpc,hfilled⟩
    · exact hsame ▸ hs.buffers j
    · -- it fills in the leg that it was handed
      have hpushes := hh.pushes j
      simp only [TxWorker.Pushes,TxWorker.progress,hpc] at hpushes
      obtain ⟨before,p,hlane,hload,-⟩ := hpushes
      obtain ⟨d,hd,hp⟩ : ∃ d ∈ Lanes.lane Dispatch.worker j s.log, d.packet = p :=
        List.mem_map.mp (hlane ▸ List.mem_concat_self : p ∈ s.lane j)
      obtain ⟨k,hk⟩ := List.getElem?_of_mem (Lanes.mem_lane.mp hd).1
      have hleg : (s.workers j).pkt.legId = UInt64.ofNat k := by
        rw [← hl.legId k d hk,hp,← hload.header]
      refine .inr ⟨k,(List.getElem?_eq_some_iff.mp hk).1,?_⟩
      rw [hfilled,TxConfig.pushBuffer,if_pos hseed,lowHalf_prbsGen,hleg]
  · rw [show (s.moved i m).workers j = s.workers j from Function.update_of_ne hne ..]
    exact hs.buffers j

theorem step {a : TxAction W} (hseed : cfg.gprbsSeed > 0) (hs : TxStale cfg s)
    (hh : TxHandover cfg s) (hc : TxControl s) (hl : TxLog s) (h : txStep cfg s a = some t) :
    TxStale cfg t := by
  cases txStep_cases h with
  | ingest hstep _ =>
    rcases hstep with ⟨_,hstep⟩ | ⟨_,_,_,_,hnone,_⟩
    · exact hs.ingestStep hh hc hstep
    · simp [hnone] at hseed
  | fillFailed _ ht => exact ht ▸ hs.of_log rfl hs.buffers
  | worker i b m _ hm ht => exact ht ▸ hs.workerStep hseed hh hl hm
  | poll _ ht =>
    obtain ⟨p,hp⟩ := pollStep_eq s
    rw [ht,hp]
    exact hs.of_log rfl hs.buffers

theorem reachable (hseed : cfg.gprbsSeed > 0)
    (hs : Reachable (txMachine cfg W) Unclobbered s) : TxStale cfg s :=
  hs.invariant (by rintro s rfl; exact init) fun _ _ _ hr h _ hstep =>
    h.step hseed (.reachable (fun _ _ ha => ha) hr) (.reachable hr) (.reachable hr) hstep

end TxStale

end Transmitter

/-- Of whole legs `mix` sees all of the low half of the first word. -/
theorem lowHalf_of_mix_eq {seed : UInt32} {a b : Memory} {size : UInt64}
    (hsize : size.toNat = kfootsize) (h : mix seed a size = mix seed b size) :
    lowHalf a 0 = lowHalf b 0 := by
  have hfoot : kfootsize = 2^21 := by decide
  rw [mix_eq_iff seed a b (by omega),hsize] at h
  -- the number of rounds is odd
  obtain ⟨c,hc⟩ := Int.dvd_of_dvd_mul_right_of_gcd_one h (by rw [hfoot]; rfl)
  have ha := (lowHalf a 0).toNat_lt
  have hb := (lowHalf b 0).toNat_lt
  exact UInt32.toNat_inj.mp (by omega)

section Legs

variable {p q : Packet} {saved : UInt64} {a b : Memory} (hp : p.SummedOver saved)
  (hsize : p.payload.length = kfootsize) (ha : a.read p.payload.length = p.payload)
include hp hsize ha

/-- The sum of a leg that was stored over zeros. -/
theorem checksum_of_empty (hzero : lowHalf a 0 = 0) :
    p.header.checksum.toNat = ((saved+p.header.legId).toUInt32.toNat+2^20) % 2^32 := by
  obtain ⟨c,hc,hsum⟩ := hp
  have hfoot : kfootsize = 2^21 := by decide
  have hhalf : firstHalf c = 0 := by
    rw [← lowHalf_zero,lowHalf_of_read (by omega) (hc.trans ha.symm),hzero]
    rfl
  have hlen : p.header.size.toNat = 2^21 := by rw [← p.size_eq,hsize,hfoot]
  rw [hsum,mix_toNat _ _ _ (by omega),hhalf,hlen,mixSum]
  omega

/-- Two payloads under one header whose sum is right for both start with the same half word. -/
theorem lowHalf_of_summed (hheader : q.header = p.header) (hq : q.SummedOver saved)
    (hb : b.read q.payload.length = q.payload) : lowHalf a 0 = lowHalf b 0 := by
  obtain ⟨c,hc,hpsum⟩ := hp
  obtain ⟨d,hd,hqsum⟩ := hq
  have hfoot : 4 ≤ kfootsize := by decide
  have hlen : q.payload.length = kfootsize := by rw [q.size_eq,hheader,← p.size_eq,hsize]
  rw [hheader] at hqsum
  calc
    lowHalf a 0 = lowHalf c 0 := lowHalf_of_read (by omega) (ha.trans hc.symm)
    _ = lowHalf d 0 := lowHalf_of_mix_eq (by rw [← p.size_eq,hsize]) (hpsum.symm.trans hqsum)
    _ = lowHalf b 0 := lowHalf_of_read (by omega) (hd.trans hb.symm)

end Legs

variable {cfg : SessionConfig} {s : Session W}

/-- What `next_leg` has counted has been compared. -/
theorem compared_of_counted (ho : SessionOrder cfg s) {k : ℕ} {d : Dispatch W}
    (hk : k < s.rx.advances) (hd : s.tx.log[k]? = some d) :
    s.rx.compared[k]? = some (cfg.tx.pushed d.packet) := by
  have hle := ho.order.phase.1
  have hwritten : s.rx.written[k]? = some (cfg.tx.pushed d.packet) := by
    rw [ho.written,List.getElem?_take,if_pos (by omega),Session.sent,List.getElem?_map,hd]
    rfl
  unfold RxState.compared
  split_ifs with hcomparing
  · obtain ⟨i,hi⟩ := hcomparing
    have hbusy := ho.order.busy i (by simp [hi,RxPc.stage])
    simp only [hi,RxPc.stage,RxState.Wrote] at hbusy
    rw [List.getElem?_dropLast,if_pos (by omega)]
    exact hwritten
  · exact hwritten

/-- A leg that was summed over zeros passes only if it starts with zeros. -/
theorem counted_of_empty (hW : W ≤ kthreadmax) (hsums : cfg.tx.gchecksums = true)
    (hseed : cfg.tx.gprbsSeed > 0) (hs : Reachable (sessionMachine cfg W) Harmless s) {k : ℕ}
    {d : Dispatch W} (hk : k < s.rx.advances) (hd : s.tx.log[k]? = some d)
    (hfeed : d.packet.IsFeed)
    (hchains : keptChecksum (s.rx.compared.take k) = lastChecksum (s.tx.packets.take k))
    (hempty : ∀ buffer, Stale cfg.tx.gprbsSeed k buffer → lowHalf buffer 0 = 0) {sum : ℕ}
    (hsum : ((lastChecksum (s.tx.packets.take k)+UInt64.ofNat k).toUInt32.toNat+2^20) % 2^32 = sum)
    (hshown : sum ≠ 0) :
    d.packet.header.checksum.toNat = sum ∧ (cfg.tx.gprbsSeed+UInt64.ofNat k).toUInt32 = 0 := by
  have htx := tx_reachable_of_harmless hs
  have hpacket : s.tx.packets[k]? = some d.packet := by simp [TxState.packets,hd]
  have hleg : d.packet.header.legId = UInt64.ofNat k := (TxLog.reachable htx).legId k d hd
  have hsize := ((FeedsSuit.reachable htx).legs d (List.mem_of_getElem? hd) hfeed).whole hseed
  have hsummed := (TxSummed.reachable hsums htx).legs k d.packet hpacket hfeed
  obtain ⟨buffer,hread,hstale⟩ := (TxStale.reachable hseed htx).legs k d.packet hpacket hfeed
  have hzero := hempty buffer (hstale.mono (by simp))
  have hchecksum := checksum_of_empty hsummed hsize hread hzero
  rw [hleg,hsum] at hchecksum
  refine ⟨hchecksum,?_⟩
  have hpassed := (RxSummed.of_harmless hW hs).legs k _
    (compared_of_counted (SessionOrder.reachable hW hs) hk hd)
    ⟨hfeed.opcode,fun hnone => hshown (by rw [← hchecksum]; exact congrArg UInt64.toNat hnone)⟩
  rw [hchains] at hpassed
  have hhalf := lowHalf_of_summed (q := cfg.tx.pushed d.packet) hsummed hsize hread rfl hpassed
    (by rw [TxConfig.pushed_length,TxConfig.pushed_payload])
  rw [TxConfig.pushBuffer,if_pos hseed,lowHalf_prbsGen,hleg] at hhalf
  exact hhalf.symm.trans hzero

/-- Nothing but the first leg can pass, and that only where nothing of the seed is in its low
half; the process ends at the assertion, if it does. -/
structure Barred (cfg : SessionConfig) (s : Session W) : Prop where
  legs : ∀ (k : ℕ) (d : Dispatch W), k < s.rx.advances → s.tx.log[k]? = some d →
    d.packet.IsFeed → k = 0 ∧ cfg.tx.gprbsSeed.toUInt32 = 0
  tx : s.tx.exited = none
  rx : s.rx.exited = none ∨ s.rx.exited = some (.assertion 194)

/-- With checksums in PRBS mode, no leg behind the first one is ever counted. -/
theorem barred_of_untroubled (hW : W ≤ kthreadmax) (hsums : cfg.tx.gchecksums = true)
    (hseed : cfg.tx.gprbsSeed > 0) (hagree : cfg.rx.gprbsSeed = cfg.tx.gprbsSeed)
    (hlong : 4 ≤ cfg.rx.gcheckphrase.length)
    (hs : Reachable (sessionMachine cfg W) Untroubled s) : Barred cfg s := by
  have horderly := orderly_of_untroubled hs
  have hharmless := harmless_of_orderly horderly
  have horder := SessionOrder.reachable hW hharmless
  have hlog := TxLog.reachable (tx_reachable_of_harmless hharmless)
  have hfirst {d : Dispatch W} (hk : 0 < s.rx.advances) (hd : s.tx.log[0]? = some d)
      (hfeed : d.packet.IsFeed) : d.packet.header.checksum = 0x1000ff ∧
        cfg.tx.gprbsSeed.toUInt32 = 0 := by
    have hvalue : ((0xff+UInt64.ofNat 0).toUInt32.toNat+2^20) % 2^32 = 0x1000ff := by decide
    obtain ⟨hsum,hzero⟩ := counted_of_empty hW hsums hseed hharmless hk hd hfeed rfl
      (fun _ h => h.resolve_right fun ⟨_,hj,_⟩ => absurd hj (Nat.not_lt_zero _)) hvalue (by decide)
    exact ⟨UInt64.toNat_inj.mp hsum,by simpa using hzero⟩
  refine ⟨fun k d hk hd hfeed => ?_,txAlive_of_untroubled hs,
    (alarm_of_orderly hW hagree hlong horderly).imp_right fun ⟨_,halarm⟩ => halarm.exited⟩
  rcases Nat.eq_zero_or_pos k with rfl | hpos
  · exact ⟨rfl,(hfirst hk hd hfeed).2⟩
  · -- the first two legs have passed
    exfalso
    have hlen : k < s.tx.log.length := (List.getElem?_eq_some_iff.mp hd).1
    obtain ⟨d₀,hd₀⟩ : ∃ d, s.tx.log[0]? = some d := ⟨_,List.getElem?_eq_getElem (by omega)⟩
    obtain ⟨d₁,hd₁⟩ : ∃ d, s.tx.log[1]? = some d := ⟨_,List.getElem?_eq_getElem (by omega)⟩
    have hfeed₁ : d₁.packet.IsFeed := by
      by_cases hone : k = 1
      · subst hone
        obtain rfl : d = d₁ := Option.some.inj (hd.symm.trans hd₁)
        exact hfeed
      · exact feed_of_lt hlog hd₁ (by omega)
    have hfeed₀ := feed_of_lt hlog hd₀ (by omega)
    obtain ⟨hsum,hzero⟩ := hfirst (by omega) hd₀ hfeed₀
    have hlast : lastChecksum (s.tx.packets.take 1) = 0x1000ff := by
      rw [TxState.packets_take hd₀,lastChecksum_concat,hsum]
    have hkept : keptChecksum (s.rx.compared.take 1) = 0x1000ff := by
      have hshown : (cfg.tx.pushed d₀.packet).Shown :=
        ⟨hfeed₀.opcode,by rw [TxConfig.pushed_header,hsum]; decide⟩
      rw [List.take_add_one,compared_of_counted horder (by omega) hd₀,Option.toList_some,
        keptChecksum_concat,Packet.keep,if_pos hshown,TxConfig.pushed_header,hsum]
    have hseed₀ : (cfg.tx.gprbsSeed+UInt64.ofNat 0).toUInt32 = 0 := by simpa using hzero
    have hvalue : ((0x1000ff+UInt64.ofNat 1).toUInt32.toNat+2^20) % 2^32 = 0x200100 := by decide
    have hsecond := (counted_of_empty hW hsums hseed hharmless (by omega) hd₁ hfeed₁
      (hkept.trans hlast.symm) (fun buffer h => ?_) (hlast ▸ hvalue) (by decide)).2
    · rw [UInt64.toUInt32_add,hzero] at hsecond
      revert hsecond
      decide
    · rcases h with h | ⟨j,hj,h⟩
      · exact h
      · obtain rfl : j = 0 := by omega
        exact h.trans hseed₀

/-- Both options on, with seed 1. -/
def summedPrbs : SessionConfig :=
  ⟨⟨1,0,0,true⟩,{ RxConfig.plain with gprbsSeed := 1 },100⟩

/-- The first leg has been summed over an empty buffer and handed over, and the receiver has
ended at it. -/
theorem barred_summedPrbs :
    ∃ s, Reachable (sessionMachine summedPrbs 1) Untroubled s ∧
      (∃ d ∈ s.tx.log, d.packet.IsFeed) ∧ s.rx.exited = some (.assertion 194) ∧
        Barred summedPrbs s := by
  have hrun : ∃ s ∈ exec (sessionMachine summedPrbs 1) Calm (sessionInit 1)
      (meet 0 ++ txRun (ingestSteps 6)),
      s.tx.ingest.pc = .fill 0 ∧ ∀ i, (s.tx.workers i).pc.starting = false := by decide +kernel
  obtain ⟨s,hs,hpc,hstart⟩ := hrun
  obtain ⟨t,ht,⟨d,hd,hfeed⟩,hends⟩ := exists_prbsLeg (by decide) (by decide) (by decide) rfl
    (reachable_exec (.init rfl) hs) hpc hstart
  have huntroubled := untroubled_of_calm ht
  have hbarred : Barred summedPrbs t :=
    barred_of_untroubled (by decide) rfl (by decide) rfl (by decide) huntroubled
  refine ⟨t,huntroubled,⟨d,hd,hfeed⟩,hbarred.rx.resolve_left fun halive => ?_,hbarred⟩
  -- a leg that is counted would begin with zeros
  obtain ⟨k,hk⟩ := List.getElem?_of_mem hd
  have hcounted : k < t.rx.advances := by
    rw [hends.resolve_left (not_not.mpr halive)]
    exact (List.getElem?_eq_some_iff.mp hk).1
  exact absurd (hbarred.legs k d hcounted hk hfeed).2 (by decide)

end Viamillipede
