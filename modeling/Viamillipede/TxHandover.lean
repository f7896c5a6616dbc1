import Viamillipede.TxLog
import Viamillipede.Lanes

/-! What `txingest` stores in a worker against what that worker's `txpush` sends.

The header and the buffer change hands through the state letter alone. The only
stores of a worker that can hit a packet it has been given are the two at 288 and 289,
which follow the letter 'i' that makes the worker eligible. -/
namespace Viamillipede

open Bytes Transition Lanes

variable {W : ℕ} {cfg : TxConfig}

namespace TxConfig

/-- The packet on the wire: in PRBS mode the payload is generated by `txpush`. -/
def pushed (cfg : TxConfig) (p : Packet) : Packet where
  header := p.header
  payload := (cfg.pushBuffer (Memory.store (fun _ => 0) 0 p.payload) p.header.legId).read
    p.header.size.toNat
  size_eq := by simp

@[simp] theorem pushed_header (p : Packet) : (cfg.pushed p).header = p.header := rfl

theorem pushed_payload (p : Packet) : (cfg.pushed p).payload =
    (cfg.pushBuffer (Memory.store (fun _ => 0) 0 p.payload) p.header.legId).read
      p.payload.length := by rw [p.size_eq]; rfl

@[simp] theorem pushed_length (p : Packet) :
    (cfg.pushed p).payload.length = p.payload.length := by simp [pushed,p.size_eq]

/-- Outside PRBS mode the packet goes out as it was stored. -/
theorem pushed_of_seed_zero (h : cfg.gprbsSeed = 0) (p : Packet) : cfg.pushed p = p := by
  refine Packet.ext rfl ?_
  simp [pushed,pushBuffer,h,← p.size_eq]

/-- What `txpush` sends is determined by the payload that was stored. -/
theorem pushBuffer_read (cfg : TxConfig) {buffer : Memory} {p : Packet} (hlen : p.payload.length ≤ kfootsize)
    (hread : buffer.read p.payload.length = p.payload) :
    (cfg.pushBuffer buffer p.header.legId).read p.payload.length = (cfg.pushed p).payload := by
  rw [pushed_payload]
  unfold pushBuffer
  split
  · have hfoot : p.payload.length ≤ 8*(kfootsize/8) := hlen
    rw [← Memory.read_take _ hfoot,← Memory.read_take (prbsGen (Memory.store _ _ _) _ _) hfoot,
      prbsGen_read,prbsGen_read]
  · simpa using hread

end TxConfig

/-- The bytes a socket has accepted: the frames of all packets, or of all but the last, of
which `pos` bytes are out. -/
def OnWire (lane : List Packet) (progress : Option ℕ) (wire : List UInt8) : Prop :=
  match progress with
  | none => wire = Packet.code.encodeAll lane
  | some pos => ∃ done p, lane = done++[p] ∧
    wire = Packet.code.encodeAll done ++ p.frame.take pos

theorem OnWire.wire_prefix {lane : List Packet} {progress : Option ℕ} {wire : List UInt8}
    (h : OnWire lane progress wire) : wire <+: Packet.code.encodeAll lane := by
  cases progress with
  | none => exact h ▸ List.prefix_rfl
  | some pos =>
    obtain ⟨done,p,rfl,rfl⟩ := h
    simpa using List.take_prefix pos p.frame

namespace TxWorker

/-- How many bytes of its packet a worker has written; `none` when it has no packet. -/
def progress (w : TxWorker) : Option ℕ :=
  match w.pc with
  | .remainder | .gather | .wait | .push => some 0
  | .writev pos => some pos
  | _ => if w.state = .dispatched then some 0 else none

/-- The thread has passed its start-up, so that the preamble is set. -/
def Primed (w : TxWorker) : Prop :=
  match w.pc with
  | .start | .connecting _ | .setIdle | .zeroSize | .zeroLeg | .setPreamble | .faulted => True
  | _ => w.pkt.preamble = preambleCannonUl

/-- The worker's header, buffer and locals are those of packet `p`. -/
structure Loaded (cfg : TxConfig) (w : TxWorker) (p : Packet) : Prop where
  length_le : p.payload.length ≤ kfootsize
  header : { w.pkt with preamble := preambleCannonUl } = p.header
  body : match w.pc with
    | .gather => w.buffer.read p.payload.length = p.payload ∧ w.writeremainder = p.payload.length
    | .wait | .push | .writev _ => w.buffer.read p.payload.length = (cfg.pushed p).payload ∧
      w.writeremainder = p.payload.length ∧ w.iovLen = p.payload.length
    | _ => w.buffer.read p.payload.length = p.payload

/-- A worker against the packets handed to it and the bytes its socket has accepted: all of
them are out, or all but what is left of the last. -/
def Pushes (cfg : TxConfig) (w : TxWorker) (lane : List Packet) (wire : List UInt8) : Prop :=
  match w.progress with
  | none => wire = Packet.code.encodeAll (lane.map cfg.pushed)
  | some pos => ∃ done p, lane = done++[p] ∧ w.Loaded cfg p ∧ pos < (cfg.pushed p).frame.length ∧
      wire = Packet.code.encodeAll (done.map cfg.pushed) ++ (cfg.pushed p).frame.take pos

theorem Pushes.onWire {w : TxWorker} {lane : List Packet} {wire : List UInt8}
    (h : w.Pushes cfg lane wire) : OnWire (lane.map cfg.pushed) w.progress wire := by
  cases hprog : w.progress with
  | none => simpa only [Pushes,hprog,OnWire] using h
  | some pos =>
    simp only [Pushes,hprog] at h
    obtain ⟨done,p,rfl,-,-,hwire⟩ := h
    exact ⟨done.map cfg.pushed,cfg.pushed p,by simp,hwire⟩

/-- A worker carries a packet only from 'd' to 'p'. -/
theorem progress_eq_none {w : TxWorker} (hw : WorkerControl w)
    (hout : w.state ∉ ([.dispatched,.preamble,.waiting,.pushing] : List WorkerState)) :
    w.progress = none := by
  simp only [List.mem_cons,List.not_mem_nil,or_false,not_or] at hout
  obtain ⟨hdispatched,hpreamble,hwaiting,hpushing⟩ := hout
  cases hpc : w.pc with
  | remainder | gather | wait =>
    simp only [WorkerControl,hpc] at hw
    exact absurd hw.1 hpreamble
  | push =>
    simp only [WorkerControl,hpc] at hw
    exact absurd hw.1 (not_or.mpr ⟨hpreamble,hwaiting⟩)
  | writev pos =>
    simp only [WorkerControl,hpc] at hw
    exact absurd hw.1 hpushing
  | _ => simp only [progress,hpc,hdispatched,if_false]

theorem progress_of_idle {w : TxWorker} (hw : WorkerControl w) (hidle : w.state = .idle) :
    w.progress = none :=
  progress_eq_none hw (by rw [hidle]; decide)

theorem progress_of_faulted {w : TxWorker} (hw : WorkerControl w) (hfault : w.state = .faulted) :
    w.progress = none :=
  progress_eq_none hw (by rw [hfault]; decide)

theorem progress_dispatched {w : TxWorker} (hw : WorkerControl w) (hidle : w.state = .idle) :
    { w with state := .dispatched }.progress = some 0 := by
  cases hpc : w.pc <;> simp_all [WorkerControl,progress]

end TxWorker

theorem workerStep_primed {w : TxWorker} {i : Fin W} {mutex : Option (TxThread W)} {done : Bool}
    {a : WorkerAction} {m : WorkerMove W} (hc : WorkerControl w) (hw : w.Primed)
    (h : workerStep cfg i mutex done w a = some m) : m.worker.Primed := by
  cases a with
  | run =>
    cases hpc : w.pc <;> simp only [workerStep,workerRun,TxWorker.Primed,hpc] at h hw
    all_goals grind [TxWorker.Primed]
  | _ =>
    cases hpc : w.pc <;> simp only [workerStep,TxWorker.Primed,hpc,reduceCtorEq] at h hw
    all_goals grind [TxWorker.Primed,writevReturned,WorkerControl]

/-- The header fields and the buffer of a worker that has a packet, or may be given one,
change only at start-up (and in PRBS mode, where `txpush` fills the buffer). -/
theorem workerStep_keeps {w : TxWorker} {i : Fin W} {mutex : Option (TxThread W)} {done : Bool}
    {a : WorkerAction} {m : WorkerMove W} (hc : WorkerControl w)
    (hheld : w.state = .idle ∨ w.progress.isSome)
    (h : workerStep cfg i mutex done w a = some m) :
    m.worker.pkt.opcode = w.pkt.opcode ∧ m.worker.pkt.checksum = w.pkt.checksum ∧
      (cfg.gprbsSeed = 0 ∨ w.state = .idle → m.worker.buffer = w.buffer) ∧
      (m.worker.pkt.size = w.pkt.size ∨ a = .run ∧ w.pc = .zeroSize ∧ m.worker.pkt.size = 0) ∧
      (m.worker.pkt.legId = w.pkt.legId ∨ a = .run ∧ w.pc = .zeroLeg ∧ m.worker.pkt.legId = 0) := by
  cases a with
  | run =>
    cases hpc : w.pc <;> simp only [workerStep,workerRun,WorkerControl,hpc] at h hc
    all_goals grind [TxWorker.progress,TxConfig.pushBuffer]
  | _ =>
    cases hpc : w.pc <;> simp only [workerStep,hpc,reduceCtorEq] at h
    all_goals grind [writevReturned]

/-- The stores at 288 and 289 leave a packet that the worker has been given as it is. -/
def TxWorker.Unclobbered (w : TxWorker) : Prop :=
  (w.pc = .zeroSize → w.pkt.size = 0) ∧ (w.pc = .zeroLeg → w.pkt.legId = 0)

instance (w : TxWorker) : Decidable w.Unclobbered :=
  inferInstanceAs (Decidable ((w.pc = .zeroSize → w.pkt.size = 0) ∧ _))

/-- A worker that does not write keeps its packet ready. -/
theorem workerRun_loaded {w : TxWorker} {i : Fin W} {mutex : Option (TxThread W)} {done : Bool}
    {m : WorkerMove W} {p : Packet} (hc : WorkerControl w)
    (hkeep : w.Unclobbered) (hw : w.Loaded cfg p) (hprog : w.progress.isSome)
    (h : workerRun cfg i mutex done w = some m) :
    m.worker.progress = w.progress ∧ m.worker.Loaded cfg p ∧ m.sent = [] := by
  obtain ⟨hlen,hheader,hbody⟩ := hw
  have hsize : w.pkt.size.toNat = p.payload.length := by rw [p.size_eq,← hheader]
  have hint : toInt w.pkt.size = p.payload.length := by
    rw [toInt_of_le (by omega),hsize]
  cases hpc : w.pc <;> simp only [workerRun,WorkerControl,TxWorker.Unclobbered,
    TxWorker.progress,hpc] at h hc hkeep hbody hprog
  case gather =>
    cases h
    have hleg : w.pkt.legId = p.header.legId := by rw [← hheader]
    have hread := TxConfig.pushBuffer_read cfg hlen hbody.1
    refine ⟨by simp [TxWorker.progress,hpc],⟨hlen,hheader,?_⟩,rfl⟩
    exact ⟨by rw [hleg,hread],hbody.2,hsize⟩
  all_goals grind [TxWorker.progress,TxWorker.Loaded]

/-- A loaded worker about to write has gathered the packet's frame. -/
theorem TxWorker.Loaded.gathered {w : TxWorker} {p : Packet} {pos : ℕ} (hw : w.Loaded cfg p)
    (hp : w.Primed) (hpc : w.pc = .writev pos) : w.gathered = (cfg.pushed p).frame := by
  have hbody := hw.body
  simp only [TxWorker.Primed,hpc] at hp hbody
  have hheader : w.pkt = p.header := by rw [← hw.header,← hp]
  rw [TxWorker.gathered,hheader,hbody.2.2,hbody.1]
  rfl

/-- The assertion of line 164 holds for the whole frame and no other count. -/
theorem TxWorker.Loaded.wroteAll_iff {w : TxWorker} {p : Packet} {pos n : ℕ} (hw : w.Loaded cfg p)
    (hpc : w.pc = .writev pos) (hn : n ≤ (cfg.pushed p).frame.length) :
    w.WroteAll (toInt (UInt64.ofNat n)) ↔ n = (cfg.pushed p).frame.length := by
  have hlen := hw.length_le
  have hbody := hw.body
  simp only [hpc] at hbody
  have hfoot : Millipacket.sizeof+kfootsize < 2^31 := by decide
  have hframe : (cfg.pushed p).frame.length = Millipacket.sizeof+p.payload.length := by
    rw [Packet.frame_length,TxConfig.pushed_length]
  rw [TxWorker.wroteAll_iff (by omega) (by omega) (by omega)]
  omega

/-- A worker without a packet gets none by itself, and writes nothing. -/
theorem workerStep_progress_none {w : TxWorker} {i : Fin W} {mutex : Option (TxThread W)}
    {done : Bool} {a : WorkerAction} {m : WorkerMove W} (hc : WorkerControl w)
    (hprog : w.progress = none) (h : workerStep cfg i mutex done w a = some m) :
    m.worker.progress = none ∧ m.sent = [] := by
  cases a with
  | run =>
    cases hpc : w.pc <;> simp only [workerStep,workerRun,WorkerControl,TxWorker.progress,hpc]
      at h hc hprog
    all_goals grind [TxWorker.progress]
  | _ =>
    cases hpc : w.pc <;> simp only [workerStep,TxWorker.progress,hpc,reduceCtorEq] at h hprog
    all_goals grind [TxWorker.progress,WorkerControl]

/-- What a step of a worker adds to its wire is the next part of its packet's frame, and
all of the frame is out before the worker gives the packet up. -/
theorem workerStep_pushes {w : TxWorker} {i : Fin W} {mutex : Option (TxThread W)} {done : Bool}
    {a : WorkerAction} {m : WorkerMove W} {lane : List Packet} {wire : List UInt8}
    (hc : WorkerControl w) (hp : w.Primed) (hkeep : a = .run → w.progress.isSome → w.Unclobbered)
    (hw : w.Pushes cfg lane wire) (h : workerStep cfg i mutex done w a = some m) :
    m.worker.Pushes cfg lane (wire++m.sent) := by
  cases hprog : w.progress with
  | none =>
    have hnone := workerStep_progress_none hc hprog h
    simpa [TxWorker.Pushes,hprog,hnone] using hw
  | some pos =>
    simp only [TxWorker.Pushes,hprog] at hw
    obtain ⟨pushed,p,rfl,hload,hlt,rfl⟩ := hw
    cases a with
    | run =>
      obtain ⟨hsame,hload',hsent⟩ :=
        workerRun_loaded hc (hkeep rfl (by simp [hprog])) hload (by simp [hprog]) h
      rw [TxWorker.Pushes,hsame,hprog,hsent,List.append_nil]
      exact ⟨pushed,p,rfl,hload',hlt,rfl⟩
    | accept n =>
      cases hpc : w.pc <;> simp only [workerStep,hpc,reduceCtorEq] at h
      rename_i at_
      obtain rfl : at_ = pos := by simpa [TxWorker.progress,hpc] using hprog
      rw [hload.gathered hp hpc] at h
      simp only [WorkerControl,hpc] at hc
      have hbody := hload.body
      simp only [hpc] at hbody
      split at h
      · cases h
      · split at h
        · cases h
          simp only [TxWorker.Pushes,TxWorker.progress]
          refine ⟨pushed,p,rfl,⟨hload.length_le,hload.header,hbody⟩,‹_›,?_⟩
          rw [List.append_assoc,← List.take_add]
        · rename_i hpos hend
          have hlen : at_+n = (cfg.pushed p).frame.length := by omega
          have hall := (hload.wroteAll_iff hpc hlen.le).mpr hlen
          cases h
          simp only [writevReturned,if_pos hall,TxWorker.Pushes,TxWorker.progress,hc.1]
          simp [List.append_assoc,← List.take_add,hlen]
    | writevShort =>
      cases hpc : w.pc <;> simp only [workerStep,hpc,reduceCtorEq] at h
      rename_i at_
      obtain rfl : at_ = pos := by simpa [TxWorker.progress,hpc] using hprog
      rw [hload.gathered hp hpc,if_pos hlt] at h
      have hnot := mt (hload.wroteAll_iff hpc hlt.le).mp hlt.ne
      cases h
      simp only [writevReturned,if_neg hnot,List.append_nil]
      simp only [TxWorker.Pushes,hprog]
      exact ⟨pushed,p,rfl,hload,hlt,rfl⟩
    | writevFailed =>
      cases hpc : w.pc <;> simp only [workerStep,hpc,reduceCtorEq] at h
      cases h
      simp only [TxWorker.Pushes,hprog,List.append_nil]
      exact ⟨pushed,p,rfl,hload,hlt,rfl⟩
    | interrupted =>
      have hsame : { w with errno := true }.progress = some pos := hprog
      rw [workerStep_interrupted h,TxWorker.Pushes,hsame,List.append_nil]
      exact ⟨pushed,p,rfl,⟨hload.length_le,hload.header,hload.body⟩,hlt,rfl⟩
    | _ =>
      -- a worker that is connecting has no packet
      cases hpc : w.pc <;> simp only [workerStep,hpc,reduceCtorEq] at h
      simp only [WorkerControl,hpc] at hc
      simp [TxWorker.progress,hpc,hc.1] at hprog

/-- The fields of a worker that make up its packet are the same. -/
structure TxWorker.SameCargo (w w' : TxWorker) : Prop where
  size : w'.pkt.size = w.pkt.size
  legId : w'.pkt.legId = w.pkt.legId
  opcode : w'.pkt.opcode = w.pkt.opcode
  checksum : w'.pkt.checksum = w.pkt.checksum
  buffer : w'.buffer = w.buffer

/-- The worker that `dispatch_idle_worker` has returned, until `start_worker` marks it. -/
def IngestPc.holds : IngestPc W → Option (Fin W)
  | .scanUnlock _ => none
  | pc => pc.found

theorem IngestPc.found_of_holds {pc : IngestPc W} {w : Fin W} (h : pc.holds = some w) :
    pc.found = some w := by
  cases pc <;> simp_all [holds,found]

/-- What the ingest thread has stored so far in the worker it holds. -/
def Ingest.Stored (cfg : TxConfig) (g : Ingest W) (workers : Fin W → TxWorker) : Prop :=
  match g.pc with
  | .size w => (workers w).buffer.read g.readsize = g.fill.val
  | .leg w => (workers w).buffer.read g.readsize = g.fill.val ∧
    (workers w).pkt.size = UInt64.ofNat g.readsize
  | .opcode w => (workers w).buffer.read g.readsize = g.fill.val ∧
    (workers w).pkt.size = UInt64.ofNat g.readsize ∧ (workers w).pkt.legId = g.legCounter
  | .checksum w => (workers w).buffer.read g.readsize = g.fill.val ∧
    (workers w).pkt.size = UInt64.ofNat g.readsize ∧ (workers w).pkt.legId = g.legCounter ∧
    (workers w).pkt.opcode = feedMore
  | .start w => (workers w).buffer.read g.readsize = g.fill.val ∧
    (workers w).pkt.size = UInt64.ofNat g.readsize ∧ (workers w).pkt.legId = g.legCounter ∧
    (workers w).pkt.opcode = feedMore ∧
    (workers w).pkt.checksum = if cfg.gchecksums then g.savedChecksum else 0
  | .shutLeg w => (workers w).pkt.size = 0
  | .shutOpcode w => (workers w).pkt.size = 0 ∧ (workers w).pkt.legId = g.legCounter
  | .shutStart w => (workers w).pkt.size = 0 ∧ (workers w).pkt.legId = g.legCounter ∧
    (workers w).pkt.opcode = endOfMillipede
  | _ => True

namespace TxState

/-- The packets handed to worker `i`, in order. -/
def lane (s : TxState W) (i : Fin W) : List Packet :=
  (Lanes.lane Dispatch.worker i s.log).map Dispatch.packet

theorem moved_lane (s : TxState W) (i u : Fin W) (m : WorkerMove W) :
    (s.moved i m).lane u = s.lane u := rfl

/-- From the return of `dispatch_idle_worker` until `writev` has taken everything. -/
def Handed (s : TxState W) (i : Fin W) : Prop :=
  s.ingest.pc.holds = some i ∨ (s.workers i).progress.isSome

instance (s : TxState W) (i : Fin W) : Decidable (s.Handed i) :=
  inferInstanceAs (Decidable (_ ∨ _))

end TxState

/-- The step does not store over the header of a worker that is already handed a packet. -/
def Unclobbered (s : TxState W) (a : TxAction W) : Prop :=
  ∀ i, a = .worker i .run → s.Handed i → (s.workers i).Unclobbered

instance (s : TxState W) (a : TxAction W) : Decidable (Unclobbered s a) :=
  inferInstanceAs (Decidable (∀ i, a = .worker i .run → s.Handed i → (s.workers i).Unclobbered))

/-- The headers and buffers of the workers in step with the ingest thread, the history of
hand-overs and the wires. -/
structure TxHandover (cfg : TxConfig) (s : TxState W) : Prop where
  primed : ∀ i, (s.workers i).Primed
  stored : s.ingest.Stored cfg s.workers
  pushes : ∀ i, (s.workers i).Pushes cfg (s.lane i) (s.wire i)

theorem Ingest.Stored.congr {g : Ingest W} {workers workers' : Fin W → TxWorker}
    (h : g.Stored cfg workers)
    (hsame : ∀ w, g.pc.holds = some w → (workers w).SameCargo (workers' w)) :
    g.Stored cfg workers' := by
  unfold Ingest.Stored at h ⊢
  split <;> rename_i hpc <;> simp only [hpc] at h hsame
  all_goals first
    | trivial
    | obtain ⟨hsize,hleg,hop,hsum,hbuf⟩ := hsame _ rfl
      simpa only [hsize,hleg,hop,hsum,hbuf] using h

/-- A step of a worker leaves the packet it is handed as it is, outside PRBS mode also in
its buffer. -/
theorem workerStep_sameCargo {w : TxWorker} {i : Fin W} {mutex : Option (TxThread W)} {done : Bool}
    {a : WorkerAction} {m : WorkerMove W} (hc : WorkerControl w)
    (hheld : w.state = .idle ∨ w.progress.isSome) (hkeep : a = .run → w.Unclobbered)
    (hseed : cfg.gprbsSeed = 0 ∨ w.state = .idle)
    (h : workerStep cfg i mutex done w a = some m) : w.SameCargo m.worker := by
  obtain ⟨hop,hsum,hbuf,hsize,hleg⟩ := workerStep_keeps hc hheld h
  refine ⟨?_,?_,hop,hsum,hbuf hseed⟩
  · rcases hsize with hsize | ⟨ha,hpc,hzero⟩
    · exact hsize
    · rw [hzero,(hkeep ha).1 hpc]
  · rcases hleg with hleg | ⟨ha,hpc,hzero⟩
    · exact hleg
    · rw [hzero,(hkeep ha).2 hpc]

namespace TxHandover

theorem init : TxHandover cfg (txInit W) where
  primed _ := trivial
  stored := trivial
  pushes _ := rfl

/-- The hand-over of a packet that the worker has been loaded with, and the stores before it. -/
theorem pushes_of_change {s t : TxState W} (hs : TxHandover cfg s) (hc : TxControl s)
    (h : IngestChange s t) (hwire : t.wire = s.wire)
    (hload : ∀ w p, t.log = s.log++[⟨w,p⟩] →
      { s.workers w with state := .dispatched }.Loaded cfg p) (i : Fin W) :
    (t.workers i).Pushes cfg (t.lane i) (t.wire i) := by
  have hi := hs.pushes i
  cases h with
  | quiet hw hlog =>
    have hlane : t.lane i = s.lane i := by rw [TxState.lane,hlog,TxState.lane]
    simpa only [hlane,hw,hwire] using hi
  | stored w pkt buffer hfound hw hpre hlog =>
    have hlane : t.lane i = s.lane i := by rw [TxState.lane,hlog,TxState.lane]
    simp only [hlane,hw,hwire]
    rcases eq_or_ne i w with rfl | hne
    · have hnone := TxWorker.progress_of_idle (hc.worker i) (hc.found i hfound)
      simp only [TxWorker.Pushes,hnone] at hi
      have hnone' : { s.workers i with pkt := pkt, buffer := buffer }.progress = none := hnone
      simpa only [Function.update_self,TxWorker.Pushes,hnone'] using hi
    · simpa only [Function.update_of_ne hne] using hi
  | marked w p hmarks hnone hw hlog =>
    have hfound := IngestPc.found_of_marks hmarks
    have hlane : t.lane i = s.lane i ++ if w = i then [p] else [] := by
      simp only [TxState.lane,hlog,lane_append,lane_singleton,List.map_append]
      split <;> rfl
    rw [hlane,hw,hwire]
    rcases eq_or_ne i w with rfl | hne
    · have hidle := hc.found i hfound
      have hnone := TxWorker.progress_of_idle (hc.worker i) hidle
      simp only [TxWorker.Pushes,hnone] at hi
      have hsome : { s.workers i with state := .dispatched }.progress = some 0 :=
        TxWorker.progress_dispatched (hc.worker i) hidle
      simp only [Function.update_self,TxWorker.Pushes,hsome]
      exact ⟨s.lane i,p,by simp,hload i p hlog,List.length_pos_iff.mpr (Packet.frame_ne_nil _),
        by simp [hi]⟩
    · simpa only [Function.update_of_ne hne,if_neg hne.symm,List.append_nil] using hi

theorem ingestFilled_stored {s : TxState W} {w : Fin W} {fill : Payload}
    (h : (s.workers w).buffer.read fill.val.length = fill.val) :
    (ingestFilled cfg s w fill).ingest.Stored cfg (ingestFilled cfg s w fill).workers := by
  unfold ingestFilled
  simp only
  split_ifs
  · trivial
  · exact h
  · trivial

theorem ingestStep_stored {s t : TxState W} (hs : s.ingest.Stored cfg s.workers)
    (h : ingestStep cfg s = some t) : t.ingest.Stored cfg t.workers := by
  cases hpc : s.ingest.pc with
  | fill w =>
    simp only [ingestStep,hpc] at h
    split at h <;> cases h
    exact ingestFilled_stored (by simp)
  | scanUnlock found =>
    cases found <;> simp only [ingestStep,hpc,Option.some.injEq] at h <;> subst h <;> trivial
  | scan cursor =>
    simp only [ingestStep,hpc] at h
    split at h
    · split at h <;> cases h <;> trivial
    · cases h
      trivial
  | shutSize w =>
    simp only [ingestStep,hpc,Option.some.injEq] at h
    subst h
    simp [Ingest.Stored,TxState.goto,TxState.setPkt,TxState.setWorker]
  | size w | leg w | opcode w | checksum w | shutLeg w | shutOpcode w =>
    simp only [ingestStep,hpc,Option.some.injEq] at h
    simp only [Ingest.Stored,hpc] at hs
    subst h
    simp only [Ingest.Stored,TxState.goto,TxState.setPkt,TxState.setWorker,Function.update_self]
    grind [txChecksum,Ingest.readsize]
  | test =>
    simp only [ingestStep,hpc,Option.some.injEq] at h
    subst h
    cases hdone : s.done <;> simp [Ingest.Stored,TxState.goto,hdone]
  | _ =>
    simp only [ingestStep,hpc] at h
    try split at h
    all_goals cases h
    all_goals trivial

/-- The worker that a hand-over marks has been loaded with what the history records. -/
theorem ingestStep_loads {s t : TxState W} {w : Fin W} {p : Packet} (hs : TxHandover cfg s)
    (hc : TxControl s) (h : ingestStep cfg s = some t) (hlog : t.log = s.log++[⟨w,p⟩]) :
    { s.workers w with state := .dispatched }.Loaded cfg p := by
  have hstored := hs.stored
  have hload (v : Fin W) (q : Packet) (hfound : s.ingest.pc.found = some v)
      (hlen : q.payload.length ≤ kfootsize)
      (hheader : { (s.workers v).pkt with preamble := preambleCannonUl } = q.header)
      (hread : (s.workers v).buffer.read q.payload.length = q.payload) :
      { s.workers v with state := .dispatched }.Loaded cfg q := by
    refine ⟨hlen,hheader,?_⟩
    have hidle := hc.found v hfound
    have hcontrol := hc.worker v
    cases hpc : (s.workers v).pc <;> simp_all [WorkerControl]
  cases hpc : s.ingest.pc with
  | start v =>
    simp only [ingestStep,hpc,Option.some.injEq] at h
    simp only [Ingest.Stored,hpc] at hstored
    subst h
    obtain ⟨rfl,rfl⟩ : v = w ∧ Ingest.feedPacket _ _ _ = p := by
      simpa [TxState.goto,startWorker] using hlog
    obtain ⟨hread,hsize,hleg,hop,hsum⟩ := hstored
    refine hload v _ (by rw [hpc]; rfl) s.ingest.fill.property ?_ hread
    simp [Ingest.feedPacket,hsize,hleg,hop,hsum,Ingest.readsize]
  | shutStart v =>
    simp only [ingestStep,hpc,Option.some.injEq] at h
    simp only [Ingest.Stored,hpc] at hstored
    subst h
    obtain ⟨rfl,rfl⟩ : v = w ∧ Ingest.eofPacket _ _ = p := by
      simpa [TxState.goto,startWorker] using hlog
    obtain ⟨hsize,hleg,hop⟩ := hstored
    refine hload v _ (by rw [hpc]; rfl) (by simp [Ingest.eofPacket]) ?_ rfl
    simp [Ingest.eofPacket,hsize,hleg,hop]
  | _ =>
    -- no other step adds to the history
    cases (ingestStep_effect h).change with
    | quiet _ hsame | stored _ _ _ _ _ _ hsame => simp [hsame] at hlog
    | marked _ _ hmarks => simp [hpc,IngestPc.marks] at hmarks

theorem primed_of_handled {s t : TxState W} {i : Fin W} (hi : (s.workers i).Primed)
    (h : Handled s t i) : (t.workers i).Primed := by
  cases h with
  | same hw => rwa [hw]
  | stored pkt buffer _ hpre hw => simpa only [hw,TxWorker.Primed,hpre] using hi
  | marked _ _ hw => rw [hw]; exact hi

theorem step {s t : TxState W} {a : TxAction W} (hs : TxHandover cfg s) (hc : TxControl s)
    (ha : Unclobbered s a) (h : txStep cfg s a = some t) : TxHandover cfg t := by
  cases txStep_cases h with
  | ingest hstep heffect =>
    refine ⟨fun i => primed_of_handled (hs.primed i) (heffect.change.worker i),?_,?_⟩
    · rcases hstep with ⟨_,hstep⟩ | ⟨w,data,_,hpc,_,rfl⟩
      · exact ingestStep_stored hs.stored hstep
      · exact ingestFilled_stored (by simp [TxState.setWorker])
    · refine hs.pushes_of_change hc heffect.change heffect.wire fun w p hlog => ?_
      rcases hstep with ⟨_,hstep⟩ | ⟨w,data,_,hpc,_,rfl⟩
      · exact hs.ingestStep_loads hc hstep hlog
      · obtain ⟨g,hg⟩ := ingestFilled_eq cfg (s.setWorker w
          { s.workers w with buffer := (s.workers w).buffer.store 0 data.val }) w data
        rw [hg] at hlog
        simp [TxState.setWorker] at hlog
  | fillFailed _ ht => exact ht ▸ ⟨hs.primed,hs.stored,hs.pushes⟩
  | worker i b m hab hm ht =>
    subst ht
    refine ⟨fun u => ?_,hs.stored.congr fun w hw => ?_,fun u => ?_⟩
    · rcases eq_or_ne u i with rfl | hne
      · simpa [TxState.moved] using workerStep_primed (hc.worker u) (hs.primed u) hm
      · simpa [TxState.moved,hne] using hs.primed u
    · rcases eq_or_ne w i with rfl | hne
      · have hidle := hc.found w (IngestPc.found_of_holds hw)
        simpa [TxState.moved] using workerStep_sameCargo (hc.worker w) (.inl hidle)
          (fun hb => ha w (hb ▸ hab) (.inl hw)) (.inr hidle) hm
      · simpa [TxState.moved,hne] using ⟨rfl,rfl,rfl,rfl,rfl⟩
    · rw [TxState.moved_lane]
      rcases eq_or_ne u i with rfl | hne
      · simpa [TxState.moved] using workerStep_pushes (hc.worker u) (hs.primed u)
          (fun hb hprog => ha u (hb ▸ hab) (.inr hprog)) (hs.pushes u) hm
      · simpa [TxState.moved,hne] using hs.pushes u
  | poll _ ht =>
    obtain ⟨p,hp⟩ := pollStep_eq s
    rw [ht,hp]
    exact ⟨hs.primed,hs.stored,hs.pushes⟩

theorem reachable {ok : TxState W → TxAction W → Prop} (hok : ∀ s a, ok s a → Unclobbered s a)
    {s : TxState W} (hs : Reachable (txMachine cfg W) ok s) : TxHandover cfg s :=
  hs.invariant (by rintro s rfl; exact init) fun s a _ hr h ha hstep =>
    h.step (.reachable hr) (hok s a ha) hstep

end TxHandover

/-- The action is a step of the ingest thread. -/
def TxAction.byIngest : TxAction W → Bool
  | .ingest | .fill _ | .fillFailed => true
  | _ => false

theorem unclobbered_of_sameCargo {s t : TxState W} {a : TxAction W}
    (h : txStep cfg s a = some t)
    (hsame : ∀ i, s.Handed i → (s.workers i).SameCargo (t.workers i)) : Unclobbered s a := by
  rintro i rfl hi
  obtain ⟨hsize,hleg,-⟩ := hsame i hi
  simp only [txStep] at h
  split at h
  · cases h
  obtain ⟨m,hm,rfl⟩ := Option.map_eq_some_iff.mp h
  simp only [TxState.moved,Function.update_self] at hsize hleg
  constructor <;> intro hpc <;> simp only [workerStep,workerRun,hpc,Option.some.injEq] at hm <;>
    subst hm
  · exact hsize.symm
  · exact hleg.symm

/-- As long as the stores at 288 and 289 do not hit a packet that is already handed over,
the threads other than the ingest thread leave every such packet alone, and only then;
and each socket has accepted exactly the frames of the packets handed to its worker. -/
theorem handed_iff_unclobbered (hseed : cfg.gprbsSeed = 0) {s : TxState W}
    (hs : Reachable (txMachine cfg W) Unclobbered s) :
    (∀ a t, a.byIngest = false → txStep cfg s a = some t →
      ((∀ i, s.Handed i → (s.workers i).SameCargo (t.workers i)) ↔ Unclobbered s a)) ∧
    ∀ i, OnWire (s.lane i) (s.workers i).progress (s.wire i) := by
  have hc := TxControl.reachable hs
  have hdata := TxHandover.reachable (fun _ _ h => h) hs
  refine ⟨fun a t hthread h => ⟨unclobbered_of_sameCargo h,fun ha i hi => ?_⟩,fun i => ?_⟩
  · cases txStep_cases h with
    | ingest hstep _ => rcases hstep with ⟨rfl,_⟩ | ⟨_,_,rfl,_⟩ <;> cases hthread
    | fillFailed hfill _ => subst hfill; cases hthread
    | worker j b m hab hm ht =>
      subst ht
      rcases eq_or_ne i j with rfl | hne
      · have hheld : (s.workers i).state = .idle ∨ (s.workers i).progress.isSome :=
          hi.imp_left fun hold => hc.found i (IngestPc.found_of_holds hold)
        simpa [TxState.moved] using workerStep_sameCargo (hc.worker i) hheld
          (fun hb => ha i (hb ▸ hab) hi) (.inl hseed) hm
      · simpa [TxState.moved,hne] using ⟨rfl,rfl,rfl,rfl,rfl⟩
    | poll _ ht =>
      obtain ⟨p,hp⟩ := pollStep_eq s
      rw [ht,hp]
      exact ⟨rfl,rfl,rfl,rfl,rfl⟩
  · have hid : cfg.pushed = id := funext (TxConfig.pushed_of_seed_zero hseed)
    simpa [hid] using (hdata.pushes i).onWire

/-- One leg of one byte, handed to a worker that is through its start-up. -/
def unclobberedRun : List (TxAction 1) :=
  startUp 0 ++ pushOne (oneByte 7) 41

theorem onWire_unclobberedRun :
    ∃ s ∈ exec (txMachine .plain 1) Unclobbered (txInit 1) unclobberedRun,
      (s.wire 0).length = 41 ∧ (s.workers 0).progress = none ∧
        ∀ i, OnWire (s.lane i) (s.workers i).progress (s.wire i) := by
  have hrun : ∃ s ∈ exec (txMachine .plain 1) Unclobbered (txInit 1) unclobberedRun,
      (s.wire 0).length = 41 ∧ (s.workers 0).progress = none := by decide
  obtain ⟨s,hs,hlen,hprog⟩ := hrun
  exact ⟨s,hs,hlen,hprog,(handed_iff_unclobbered rfl (reachable_exec (.init rfl) hs)).2⟩

/-- The same leg, handed over between the store of 'i' at 287 and the two stores behind it. -/
def clobberedRun : List (TxAction 1) :=
  .flatten [workerSteps 0 1,[.worker 0 .connected],workerSteps 0 1,findAndFill (oneByte 7),
    ingestSteps 5]

/-- The worker zeroes the size that `txingest` has stored, and pushes a header without its
payload. -/
theorem clobbered_of_clobberedRun :
    (∃ s ∈ exec (txMachine .plain 1) anyStep (txInit 1) clobberedRun,
      s.Handed 0 ∧ (s.workers 0).pkt.size = 1 ∧
        ∃ t ∈ txStep .plain s (.worker 0 .run), (t.workers 0).pkt.size = 0) ∧
    (∃ s ∈ exec (txMachine .plain 1) anyStep (txInit 1)
        (clobberedRun ++ workerSteps 0 12 ++ [.worker 0 (.accept 40)]),
      (s.workers 0).progress = none ∧ (s.lane 0).map Packet.payload = [[7]] ∧
        (s.wire 0).length = 40 ∧ s.wire 0 ≠ Packet.code.encodeAll (s.lane 0)) ∧
    ¬ ∀ s, Reachable (txMachine .plain 1) anyStep s →
      ∀ i, OnWire (s.lane i) (s.workers i).progress (s.wire i) := by
  have hpushed : ∃ s ∈ exec (txMachine .plain 1) anyStep (txInit 1)
      (clobberedRun ++ workerSteps 0 12 ++ [.worker 0 (.accept 40)]),
      (s.workers 0).progress = none ∧ (s.lane 0).map Packet.payload = [[7]] ∧
        (s.wire 0).length = 40 ∧ s.wire 0 ≠ Packet.code.encodeAll (s.lane 0) := by decide
  refine ⟨by decide,hpushed,fun hall => ?_⟩
  obtain ⟨s,hs,hprog,-,-,hwire⟩ := hpushed
  have honWire := hall s (reachable_exec (.init rfl) hs) 0
  rw [hprog] at honWire
  exact hwire honWire

end Viamillipede
