import Viamillipede.TxIngest
import Viamillipede.TxLog

/-! The transmitter follows `txingest`: whatever the worker threads do in between, what is handed
over in a run is what the function hands over for the fills of that run. -/
namespace Viamillipede

open Bytes Transition

variable {W : ℕ} {cfg : TxConfig}

/-- What a hand-over is to the receiver: all of the packet but its checksum. -/
structure Leg (W : ℕ) where
  worker : Fin W
  legId : UInt64
  opcode : UInt64
  payload : List UInt8

def Handed.leg (h : Handed W) : Leg W := ⟨h.worker,h.pkt.legId,h.pkt.opcode,h.payload⟩

def Dispatch.leg (d : Dispatch W) : Leg W :=
  ⟨d.worker,d.packet.header.legId,d.packet.header.opcode,d.packet.payload⟩

/-- Where `txingest` is in the stream. -/
structure Progress (W : ℕ) where
  legCounter : UInt64
  streamTotalBytes : UInt64
  ended : Bool
  legs : List (Leg W)

def IngestRun.progress (r : IngestRun W) : Progress W :=
  ⟨r.legCounter,r.streamTotalBytes,r.done,r.handed.map Handed.leg⟩

/-- The payload handed over whose bytes are not in `stream_total_bytes` yet. -/
def Ingest.uncounted (g : Ingest W) : UInt64 :=
  match g.pc with
  | .total => UInt64.ofNat g.readsize
  | _ => 0

/-- A leg is over as soon as it is handed over. -/
def TxState.progress (s : TxState W) : Progress W where
  legCounter := s.ingest.legCounter+UInt64.ofNat s.ingest.pc.uncounted
  streamTotalBytes := s.streamTotalBytes+s.ingest.uncounted
  ended := s.ended
  legs := s.log.map Dispatch.leg

/-- What `bufferfill` delivers in a step. -/
def fillsTaken (_ : TxState W) : TxAction W → List Payload
  | .fill data => [data]
  | _ => []

/-- The ingest thread ends the stream with the worker it has found. -/
def IngestPc.ending : IngestPc W → Bool
  | .shutLock _ | .shutDone _ | .shutEof _ | .shutUnlock _ => true
  | .shutSize _ | .shutLeg _ | .shutOpcode _ | .shutStart _ => true
  | _ => false

/-- The fill of the leg at hand. -/
def Ingest.pending (g : Ingest W) : List Payload :=
  if g.pc.feeding ∨ g.pc.ending then [g.fill] else []

/-- Why the ingest thread is where it is between a fill and the hand-over. -/
structure Ingest.Decided (cfg : TxConfig) (g : Ingest W) : Prop where
  feeding : g.pc.feeding →
    ¬ (cfg.glegLimit > 0 ∧ UInt64.ofInt cfg.glegLimit = g.legCounter) ∧ 0 < g.readsize
  ending : g.pc.ending →
    cfg.glegLimit > 0 ∧ UInt64.ofInt cfg.glegLimit = g.legCounter ∨ g.readsize = 0
  prbs : cfg.gprbsSeed > 0 → g.pc.feeding ∨ g.pc.ending ∨ g.pc = .total → g.readsize = kfootsize

/-- Elsewhere there is nothing to decide. -/
theorem Ingest.Decided.free {g : Ingest W} (hfeeding : g.pc.feeding = false)
    (hending : g.pc.ending = false) (htotal : g.pc ≠ .total) : g.Decided cfg where
  feeding h := absurd h (by simp [hfeeding])
  ending h := absurd h (by simp [hending])
  prbs _ h := absurd h (by simp [hfeeding,hending,htotal])

/-- The passes of the loop that a run has made so far. -/
structure Follows (cfg : TxConfig) (s : TxState W) (fills : List Payload) : Prop where
  decided : s.ingest.Decided cfg
  turns : ∃ turns : List (Turn W), s.progress = (txingest cfg turns).progress ∧
    (¬ cfg.gprbsSeed > 0 → fills = turns.map (fun t => t.fill)++s.ingest.pending)

/-- The pass that ends in a hand-over of worker `w`. -/
def Ingest.turn (g : Ingest W) (w : Fin W) : Turn W :=
  ⟨w,⟨preambleCannonUl,0,0,0,0⟩,Memory.store (fun _ => 0) 0 g.fill.val,g.fill⟩

theorem turn_readsize {g : Ingest W} (hprbs : cfg.gprbsSeed > 0 → g.readsize = kfootsize)
    (w : Fin W) : (g.turn w).readsize cfg = g.readsize := by
  unfold Turn.readsize
  split
  · rw [hprbs ‹_›]
  · rfl

theorem turn_payload {g : Ingest W} (hprbs : cfg.gprbsSeed > 0 → g.readsize = kfootsize)
    (w : Fin W) : ((g.turn w).filled cfg).read (UInt64.ofNat ((g.turn w).readsize cfg)).toNat =
      g.fill.val := by
  rw [toNat_readsize,turn_readsize hprbs]
  unfold Turn.filled
  split
  · exact Memory.read_store_zero _ _
  · exact Memory.read_store_zero _ _

/-- The pass that hands over a leg. -/
theorem turn_feeding {g : Ingest W} {r : IngestRun W} (w : Fin W) (hrun : r.done = false)
    (hcount : r.legCounter = g.legCounter)
    (hlimit : ¬ (cfg.glegLimit > 0 ∧ UInt64.ofInt cfg.glegLimit = g.legCounter))
    (hsize : 0 < g.readsize) (hprbs : cfg.gprbsSeed > 0 → g.readsize = kfootsize) :
    (r.turn cfg (g.turn w)).progress =
      ⟨g.legCounter+1,r.streamTotalBytes+UInt64.ofNat g.readsize,false,
        r.handed.map Handed.leg++[⟨w,g.legCounter,feedMore,g.fill.val⟩]⟩ := by
  have hread := turn_readsize hprbs w
  have hpayload := turn_payload hprbs w
  rw [IngestRun.turn_feeds hrun (hcount ▸ hlimit) (hread ▸ hsize)]
  rw [hread] at hpayload
  simp only [IngestRun.progress,IngestRun.feed,List.map_append,List.map_cons,List.map_nil,
    Handed.leg,Handed.payload,hpayload,hcount,hrun,hread]
  rfl

/-- The pass that hands over the end of the stream. -/
theorem turn_ending {g : Ingest W} {r : IngestRun W} (w : Fin W) (hrun : r.done = false)
    (hcount : r.legCounter = g.legCounter)
    (hend : cfg.glegLimit > 0 ∧ UInt64.ofInt cfg.glegLimit = g.legCounter ∨ g.readsize = 0)
    (hprbs : cfg.gprbsSeed > 0 → g.readsize = kfootsize) :
    (r.turn cfg (g.turn w)).progress =
      ⟨g.legCounter+1,r.streamTotalBytes,true,
        r.handed.map Handed.leg++[⟨w,g.legCounter,endOfMillipede,[]⟩]⟩ := by
  have hread := turn_readsize hprbs w
  rw [IngestRun.turn_ends hrun (by rw [hcount,hread]; exact hend)]
  simp only [IngestRun.progress,IngestRun.shutdown,List.map_append,List.map_cons,List.map_nil,
    Handed.leg,Handed.payload,hcount]
  rfl

namespace Follows

theorem init : Follows cfg (txInit W) [] :=
  ⟨.free rfl rfl (by simp [txInit]),[],rfl,fun _ => rfl⟩

/-- The ingest thread goes on without handing anything over. -/
theorem of_progress {s t : TxState W} {fills new : List Payload} (hs : Follows cfg s fills)
    (hprogress : t.progress = s.progress) (hdecided : t.ingest.Decided cfg)
    (hpending : ¬ cfg.gprbsSeed > 0 → s.ingest.pending++new = t.ingest.pending) :
    Follows cfg t (fills++new) := by
  obtain ⟨turns,hturns,hfills⟩ := hs.turns
  refine ⟨hdecided,turns,hprogress.trans hturns,fun hseed => ?_⟩
  rw [hfills hseed,List.append_assoc,hpending hseed]

/-- The ingest thread hands over the worker it has found, as the next pass of the function
does. -/
theorem of_handover {s t : TxState W} {fills : List Payload} (hs : Follows cfg s fills) (w : Fin W)
    (hpending : s.ingest.pending = [s.ingest.fill]) (hdecided : t.ingest.Decided cfg)
    (hnext : t.ingest.pending = [])
    (hturn : ∀ r : IngestRun W, s.progress = r.progress →
      t.progress = (r.turn cfg (s.ingest.turn w)).progress) : Follows cfg t (fills++[]) := by
  obtain ⟨turns,hturns,hfills⟩ := hs.turns
  refine ⟨hdecided,turns++[s.ingest.turn w],?_,fun hseed => ?_⟩
  · rw [hturn _ hturns,txingest_append]
  · rw [hfills hseed,hpending,hnext]
    simp [Ingest.turn]

theorem ingestFilled {s : TxState W} {fills : List Payload} (hs : Follows cfg s fills)
    (hflags : s.done = false) {w : Fin W} (hpc : s.ingest.pc = .fill w) (data : Payload)
    {new : List Payload} (hnew : ¬ cfg.gprbsSeed > 0 → new = [data])
    (hprbs : cfg.gprbsSeed > 0 → data.val.length = kfootsize) :
    Follows cfg (ingestFilled cfg s w data) (fills++new) := by
  unfold Viamillipede.ingestFilled
  simp only
  split_ifs with hlimit hsize
  · refine hs.of_progress ?_ ⟨?_,?_,?_⟩ ?_
    · simp [TxState.progress,TxState.goto,TxState.ended,Ingest.uncounted,IngestPc.uncounted,hpc,hflags]
    · simp [TxState.goto,IngestPc.feeding]
    · exact fun _ => .inl hlimit
    · exact fun hseed _ => hprbs hseed
    · intro hseed
      simp [Ingest.pending,TxState.goto,IngestPc.feeding,IngestPc.ending,hpc,hnew hseed]
  · refine hs.of_progress ?_ ⟨?_,?_,?_⟩ ?_
    · simp [TxState.progress,TxState.goto,TxState.ended,Ingest.uncounted,IngestPc.uncounted,hpc,hflags]
    · exact fun _ => ⟨hlimit,hsize⟩
    · simp [TxState.goto,IngestPc.ending]
    · exact fun hseed _ => hprbs hseed
    · intro hseed
      simp [Ingest.pending,TxState.goto,IngestPc.feeding,IngestPc.ending,hpc,hnew hseed]
  · refine hs.of_progress ?_ ⟨?_,?_,?_⟩ ?_
    · simp [TxState.progress,TxState.goto,TxState.ended,Ingest.uncounted,IngestPc.uncounted,hpc,hflags]
    · simp [TxState.goto,IngestPc.feeding]
    · exact fun _ => .inr (Nat.eq_zero_of_not_pos hsize)
    · exact fun hseed _ => hprbs hseed
    · intro hseed
      simp [Ingest.pending,TxState.goto,IngestPc.feeding,IngestPc.ending,hpc,hnew hseed]

/-- A step that leaves the fill, the counters and the history alone. -/
theorem of_quiet {s t : TxState W} {fills : List Payload} (hs : Follows cfg s fills)
    (hlog : t.log = s.log) (hfill : t.ingest.fill = s.ingest.fill)
    (hcounter : t.ingest.legCounter = s.ingest.legCounter)
    (htotal : t.streamTotalBytes = s.streamTotalBytes)
    (hcount : t.ingest.pc.uncounted = s.ingest.pc.uncounted)
    (hbytes : t.ingest.uncounted = s.ingest.uncounted) (hended : t.ended = s.ended)
    (hfeeding : t.ingest.pc.feeding = s.ingest.pc.feeding)
    (hending : t.ingest.pc.ending = s.ingest.pc.ending)
    (hat : t.ingest.pc = .total → s.ingest.pc = .total) : Follows cfg t (fills++[]) := by
  have hsize : t.ingest.readsize = s.ingest.readsize := by rw [Ingest.readsize,hfill]; rfl
  refine hs.of_progress ?_ ⟨?_,?_,?_⟩ fun _ => ?_
  · simp only [TxState.progress,hlog,hcounter,htotal,hcount,hbytes,hended]
  · rw [hfeeding,hcounter,hsize]
    exact hs.decided.feeding
  · rw [hending,hcounter,hsize]
    exact hs.decided.ending
  · rw [hfeeding,hending,hsize]
    exact fun hseed h => hs.decided.prbs hseed (h.imp_right (Or.imp_right hat))
  · rw [List.append_nil,Ingest.pending,Ingest.pending,hfeeding,hending,hfill]

/-- Between two legs the function's variables are those of the thread. -/
theorem of_progress_eq {s : TxState W} {r : IngestRun W} (h : s.progress = r.progress)
    (hcount : s.ingest.pc.uncounted = 0) (hbytes : s.ingest.uncounted = 0) :
    r.legCounter = s.ingest.legCounter ∧ r.streamTotalBytes = s.streamTotalBytes ∧
      r.done = s.ended ∧ r.handed.map Handed.leg = s.log.map Dispatch.leg := by
  have hc := congrArg Progress.legCounter h
  have hb := congrArg Progress.streamTotalBytes h
  simp only [TxState.progress,IngestRun.progress,hcount,hbytes] at hc hb
  refine ⟨?_,?_,(congrArg Progress.ended h).symm,(congrArg Progress.legs h).symm⟩
  · rw [← hc]
    exact UInt64.add_zero _
  · rw [← hb]
    exact UInt64.add_zero _

/-- `start_worker` in `txingest`: the pass hands over a leg. -/
theorem start {s t : TxState W} {fills : List Payload} (hs : Follows cfg s fills) (hl : TxLog s)
    {w : Fin W} (hpc : s.ingest.pc = .start w) (h : Viamillipede.ingestStep cfg s = some t) :
    Follows cfg t (fills++[]) := by
  have hflags := hl.flags
  simp only [Viamillipede.ingestStep,hpc,Option.some.injEq] at h
  simp only [hpc,IngestPc.Flags] at hflags
  subst h
  have hfeeding : s.ingest.pc.feeding = true := by rw [hpc]; rfl
  obtain ⟨hlimit,hsize⟩ := hs.decided.feeding hfeeding
  have hprbs := fun hseed => hs.decided.prbs hseed (.inl hfeeding)
  refine hs.of_handover w (by simp [Ingest.pending,hfeeding]) ⟨?_,?_,?_⟩ rfl fun r hr => ?_
  · exact fun h => by cases h
  · exact fun h => by cases h
  · exact fun hseed _ => hprbs hseed
  · obtain ⟨hcount,htotal,hrun,hlegs⟩ := of_progress_eq hr (by rw [hpc]; rfl)
      (by rw [Ingest.uncounted,hpc])
    have hrunning : r.done = false := by rw [hrun,TxState.ended,hflags.1]; rfl
    rw [turn_feeding w hrunning hcount hlimit hsize hprbs,htotal,hlegs]
    simp only [TxState.progress,TxState.goto,TxState.ended,TxState.setWorker,startWorker,
      IngestPc.uncounted,Ingest.uncounted,Ingest.readsize,hflags.1,List.map_append]
    rfl

/-- `start_worker` in `txshutdown`: the pass hands over the end of the stream. -/
theorem shutStart {s t : TxState W} {fills : List Payload} (hs : Follows cfg s fills)
    (hl : TxLog s) {w : Fin W} (hpc : s.ingest.pc = .shutStart w)
    (h : Viamillipede.ingestStep cfg s = some t) : Follows cfg t (fills++[]) := by
  have hflags := hl.flags
  simp only [Viamillipede.ingestStep,hpc,Option.some.injEq] at h
  simp only [hpc,IngestPc.Flags] at hflags
  subst h
  have hending : s.ingest.pc.ending = true := by rw [hpc]; rfl
  have hprbs := fun hseed => hs.decided.prbs hseed (.inr (.inl hending))
  refine hs.of_handover w (by simp [Ingest.pending,hending])
    (.free rfl rfl (by simp [TxState.goto])) rfl fun r hr => ?_
  obtain ⟨hcount,htotal,hrun,hlegs⟩ := of_progress_eq hr (by rw [hpc]; rfl)
    (by rw [Ingest.uncounted,hpc])
  have hrunning : r.done = false := by rw [hrun,TxState.ended,hpc]; simp [IngestPc.found]
  rw [turn_ending w hrunning hcount (hs.decided.ending hending) hprbs,htotal,hlegs]
  simp only [TxState.progress,TxState.goto,TxState.ended,TxState.setWorker,startWorker,
    IngestPc.uncounted,Ingest.uncounted,hflags.1,List.map_append]
  simp [IngestPc.found,Dispatch.leg,Ingest.eofPacket]

/-- One step of the ingest thread by itself. -/
theorem ingestStep {s t : TxState W} {fills : List Payload} (hs : Follows cfg s fills)
    (hl : TxLog s) (h : ingestStep cfg s = some t) : Follows cfg t (fills++[]) := by
  have hflags := hl.flags
  cases hpc : s.ingest.pc with
  | fill w =>
    simp only [Viamillipede.ingestStep,hpc] at h
    split at h <;> cases h
    simp only [hpc,IngestPc.Flags] at hflags
    refine hs.ingestFilled hflags.1 hpc _ (fun hseed => absurd ‹_› hseed) fun _ => by simp
  | start w => exact hs.start hl hpc h
  | shutStart w => exact hs.shutStart hl hpc h
  | total =>
    simp only [Viamillipede.ingestStep,hpc,Option.some.injEq] at h
    subst h
    refine hs.of_progress ?_ (.free rfl rfl (by simp [TxState.goto])) ?_
    · simp [TxState.progress,TxState.goto,TxState.ended,Ingest.uncounted,Ingest.readsize,hpc,
        IngestPc.uncounted,IngestPc.found]
    · simp [Ingest.pending,TxState.goto,hpc,IngestPc.feeding,IngestPc.ending]
  | bump =>
    simp only [Viamillipede.ingestStep,hpc,Option.some.injEq] at h
    subst h
    refine hs.of_progress ?_ (.free rfl rfl (by simp)) ?_
    · simp [TxState.progress,TxState.ended,Ingest.uncounted,hpc,IngestPc.uncounted,IngestPc.found]
    · simp [Ingest.pending,hpc,IngestPc.feeding,IngestPc.ending]
  | scanUnlock found =>
    simp only [hpc,IngestPc.Flags] at hflags
    cases found <;> simp only [Viamillipede.ingestStep,hpc,Option.some.injEq] at h <;> subst h <;>
      exact hs.of_quiet rfl rfl rfl rfl (by rw [hpc]; rfl) (by simp [Ingest.uncounted,TxState.goto,hpc])
        (by simp [TxState.ended,TxState.goto,hflags]) (by rw [hpc]; rfl) (by rw [hpc]; rfl)
        (fun h => by cases h)
  | scan cursor =>
    simp only [Viamillipede.ingestStep,hpc] at h
    simp only [hpc,IngestPc.Flags] at hflags
    split at h
    · split at h <;> cases h <;>
        exact hs.of_quiet rfl rfl rfl rfl (by rw [hpc]; rfl) (by simp [Ingest.uncounted,TxState.goto,hpc])
          (by simp [TxState.ended,TxState.goto,hflags]) (by rw [hpc]; rfl) (by rw [hpc]; rfl)
          (fun h => by cases h)
    · cases h
      exact hs.of_quiet rfl rfl rfl rfl (by rw [hpc]; rfl) (by simp [Ingest.uncounted,TxState.goto,hpc])
        (by simp [TxState.ended,TxState.goto,hflags]) (by rw [hpc]; rfl) (by rw [hpc]; rfl)
        (fun h => by cases h)
  | test =>
    simp only [Viamillipede.ingestStep,hpc,Option.some.injEq] at h
    subst h
    by_cases hdone : s.done = true <;>
      refine hs.of_quiet rfl rfl rfl rfl ?_ ?_ ?_ ?_ ?_ ?_ <;>
        simp [TxState.goto,TxState.ended,Ingest.uncounted,hpc,hdone,IngestPc.uncounted,
          IngestPc.feeding,IngestPc.ending,IngestPc.found]
  | _ =>
    simp only [Viamillipede.ingestStep,hpc] at h
    simp only [hpc,IngestPc.Flags] at hflags
    try split at h
    all_goals cases h
    all_goals
      refine hs.of_quiet rfl rfl rfl rfl ?_ ?_ ?_ ?_ ?_ ?_ <;>
        simp [TxState.goto,TxState.setPkt,TxState.setWorker,TxState.ended,Ingest.uncounted,hpc,
          IngestPc.uncounted,IngestPc.feeding,IngestPc.ending,IngestPc.found,hflags]

theorem step {s t : TxState W} {a : TxAction W} {fills : List Payload} (hs : Follows cfg s fills)
    (hl : TxLog s) (h : txStep cfg s a = some t) : Follows cfg t (fills++fillsTaken s a) := by
  cases txStep_cases h with
  | ingest hstep _ =>
    rcases hstep with ⟨rfl,hstep⟩ | ⟨w,data,rfl,hpc,hseed,rfl⟩
    · exact hs.ingestStep hl hstep
    · have hflags := hl.flags
      simp only [hpc,IngestPc.Flags] at hflags
      have hset : Follows cfg (s.setWorker w
          { s.workers w with buffer := (s.workers w).buffer.store 0 data.val }) (fills++[]) :=
        hs.of_quiet rfl rfl rfl rfl rfl rfl rfl rfl rfl id
      rw [List.append_nil] at hset
      exact hset.ingestFilled hflags.1 hpc data (fun _ => rfl) fun h => by simp [hseed] at h
  | fillFailed ha ht =>
    subst ha ht
    exact hs.of_quiet rfl rfl rfl rfl rfl rfl rfl rfl rfl id
  | worker i b m ha _ ht =>
    subst ha ht
    exact hs.of_quiet rfl rfl rfl rfl rfl rfl rfl rfl rfl id
  | poll ha ht =>
    obtain ⟨p,hp⟩ := pollStep_eq s
    rw [ha,ht,hp]
    exact hs.of_quiet rfl rfl rfl rfl rfl rfl rfl rfl rfl id

end Follows

/-- In every run of the transmitter the packets handed over, the counter and the total are those
of `txingest` for the fills of the run, whatever the worker threads do. -/
theorem follows_txingest {s : TxState W} {fills : List Payload}
    (hs : Reachable ((txMachine cfg W).record fillsTaken) anyStep (s,fills)) :
    Follows cfg s fills := by
  refine hs.invariant (I := fun p => Follows cfg p.1 p.2) ?_ ?_
  · rintro ⟨s,fills⟩ ⟨rfl,rfl⟩
    exact .init
  · rintro ⟨s,fills⟩ a q hr hfollows - hstep
    obtain ⟨t,ht,rfl⟩ := Option.map_eq_some_iff.mp hstep
    have hplain : Reachable (txMachine cfg W) anyStep s := Reachable.erase (fun _ _ _ => trivial) hr
    exact hfollows.step (.reachable hplain) ht

end Viamillipede
