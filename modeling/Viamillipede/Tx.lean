import Viamillipede.Transition
import Viamillipede.Checksum
import Viamillipede.Prbs

/-! The transmitter of `tx.c`: `txingest`, the worker threads and `tx_poll`.

One step is one access to shared memory, one lock operation or one system call.
`tx_state` and `tx_state_set` hold the worker's own mutex around a single access,
so each of them is one step; `txconf->mutex` is modelled by its owner. The results
of system calls are chosen by the environment through the actions. Workers are
indexed by `Fin W`, hence the assertions on ids and on `retcode` hold whenever
`W ≤ kthreadmax`. A run starts when `txlaunchworkers` has created the threads. -/
namespace Viamillipede

open Bytes Transition

/-- The letters of `txworker_s.state` after launch. -/
inductive WorkerState
  | launched      -- 'L'
  | connecting    -- 'c'
  | faulted       -- 'f'
  | idle          -- 'i'
  | dispatched    -- 'd'
  | preamble      -- 'a'
  | waiting       -- 'W'
  | pushing       -- 'P'
  | disconnected  -- 'x'
  deriving DecidableEq, Repr

/-- How a process ends early, with the line of its source file. -/
inductive Exit
  | checkperror (line : ℕ)
  | assertion (line : ℕ)
  | exit (line : ℕ)
  deriving DecidableEq, Repr

/-- The globals that the command line sets. -/
structure TxConfig where
  gprbsSeed : UInt64
  gdelayUs : UInt64
  glegLimit : ℤ
  gchecksums : Bool

/-- No option on the command line: the initial values of the globals. -/
def TxConfig.plain : TxConfig := ⟨0,0,0,false⟩

/-- The buffer that `txpush` sends: in PRBS mode it fills the whole buffer first. -/
def TxConfig.pushBuffer (cfg : TxConfig) (buffer : Memory) (legId : UInt64) : Memory :=
  if cfg.gprbsSeed > 0 then prbsGen buffer (cfg.gprbsSeed+legId) kfootsize else buffer

/-- Where a worker thread is: `txworker_sm`, with `txpush` from `preamble` to `unlease`. -/
inductive WorkerPc
  | start                         -- 284: calls tx_start_net
  | connecting (recover : Bool)   -- in tx_start_net, called at 284 or at 335
  | setIdle                       -- 287
  | zeroSize                      -- 288
  | zeroLeg                       -- 289
  | setPreamble                   -- 290
  | loop                          -- 292
  | sampleDone                    -- 295
  | sampleState                   -- 303
  | unlock                        -- 304
  | recover                       -- 330
  | preamble                      -- 142
  | remainder                     -- 146
  | gather                        -- 148
  | wait                          -- 154
  | push                          -- 158
  | writev (pos : ℕ)              -- 160, `pos` bytes accepted by the socket
  | lease                         -- 168
  | zeroLease                     -- 172
  | release                       -- 173
  | markDead                      -- 176
  | unlease                       -- 180
  | gone                          -- left the loop
  | faulted                       -- pthread_exit in tx_start_net
  deriving DecidableEq, Repr

/-- `struct txworker_s`, the locals of `txworker_sm` and `txpush`, the thread's place, and
whether its `errno` is set. -/
structure TxWorker where
  state : WorkerState
  pkt : Millipacket
  buffer : Memory
  writeremainder : ℤ
  pc : WorkerPc
  done : Bool
  localState : WorkerState
  retcode : ℕ
  iovLen : ℕ
  errno : Bool

/-- Where the ingest thread is; `w` is the worker that `dispatch_idle_worker` returned. -/
inductive IngestPc (W : ℕ)
  | lock                            -- 76 and 116
  | test                            -- 77
  | unlock                          -- 78
  | scanLock                        -- 32
  | scan (cursor : ℕ)               -- 33
  | scanUnlock (found : Option (Fin W))  -- 44
  | fill (w : Fin W)                -- 80
  | size (w : Fin W)                -- 97
  | leg (w : Fin W)                 -- 98
  | opcode (w : Fin W)              -- 99
  | checksum (w : Fin W)            -- 100
  | start (w : Fin W)               -- 109
  | total                           -- 110
  | shutLock (w : Fin W)            -- 126
  | shutDone (w : Fin W)            -- 127
  | shutEof (w : Fin W)             -- 128
  | shutUnlock (w : Fin W)          -- 129
  | shutSize (w : Fin W)            -- 130
  | shutLeg (w : Fin W)             -- 131
  | shutOpcode (w : Fin W)          -- 132
  | shutStart (w : Fin W)           -- 133
  | bump                            -- 115
  | finish                          -- 118
  | gone
  deriving DecidableEq, Repr

/-- The locals of `txingest`; `fill` is what the last `bufferfill` delivered, so that
`readsize` is its length. -/
structure Ingest (W : ℕ) where
  pc : IngestPc W
  fill : Payload
  savedChecksum : UInt64
  legCounter : UInt64

/-- Where the main thread is in `tx_poll`. -/
inductive PollPc
  | pass                    -- 417: a new pass over the workers
  | scan (cursor : ℕ)       -- 421
  | eof                     -- 429
  | returned (done : Bool)
  deriving DecidableEq, Repr

/-- `stale` is history: a worker was handed a packet after this pass had sampled it. -/
structure Poll where
  pc : PollPc
  stale : Bool
  deriving DecidableEq, Repr

inductive TxThread (W : ℕ)
  | ingest
  | worker (i : Fin W)
  deriving DecidableEq, Repr

/-- A packet as `txingest` or `txshutdown` stored it, and the worker it was given to. -/
structure Dispatch (W : ℕ) where
  worker : Fin W
  packet : Packet

/-- `struct txconf_s` and its threads. `log` and `wire` are history: the packets marked
for pushing, and the bytes each worker's socket has accepted. -/
structure TxState (W : ℕ) where
  workers : Fin W → TxWorker
  mutex : Option (TxThread W)
  done : Bool
  inputEof : Bool
  streamTotalBytes : UInt64
  waits : UInt64
  ingest : Ingest W
  poll : Poll
  exited : Option Exit
  log : List (Dispatch W)
  wire : Fin W → List UInt8

/-- The conversion of a `u_long` to an `int`. -/
def toInt (x : UInt64) : ℤ := x.toUInt32.toInt32.toInt

theorem toInt_of_lt {x : UInt64} (h : x.toNat < 2^31) : toInt x = x.toNat := by
  have hword : x.toUInt32.toBitVec.toNat = x.toNat := by
    rw [UInt32.toNat_toBitVec,UInt64.toNat_toUInt32]
    omega
  have hsmall : 2*x.toUInt32.toBitVec.toNat < 2^32 := by omega
  exact (BitVec.toInt_eq_toNat_of_lt hsmall).trans (by rw [hword])

theorem toInt_of_le {x : UInt64} (h : x.toNat ≤ kfootsize) : toInt x = x.toNat := by
  have hfoot : kfootsize < 2^31 := by decide
  exact toInt_of_lt (by omega)

namespace TxWorker

/-- A worker as `txlaunchworkers` leaves it when it creates the thread. -/
def launched : TxWorker where
  state := .launched
  pkt := ⟨0,0,UInt64.ofInt (-66),0,0⟩
  buffer := fun _ => 0
  writeremainder := 0
  pc := .start
  done := false
  localState := .launched
  retcode := 1
  iovLen := 0
  errno := false

/-- The bytes that the two entries of `writevec` describe. -/
def gathered (w : TxWorker) : List UInt8 := w.pkt.bytes ++ w.buffer.read w.iovLen

@[simp] theorem gathered_length (w : TxWorker) :
    w.gathered.length = Millipacket.sizeof+w.iovLen := by simp [gathered]

/-- The assertion of line 164, which compares the two counts as `size_t`; `writeret` is an
`int`. -/
def WroteAll (w : TxWorker) (writeret : ℤ) : Prop :=
  UInt64.ofInt (w.writeremainder+Millipacket.sizeof) = UInt64.ofInt writeret

instance (w : TxWorker) (writeret : ℤ) : Decidable (w.WroteAll writeret) :=
  inferInstanceAs (Decidable (_ = _))

/-- For a packet that fits in a buffer nothing wraps. -/
theorem wroteAll_iff {w : TxWorker} {n : ℕ} (hlow : 0 ≤ w.writeremainder)
    (hle : w.writeremainder ≤ kfootsize) (hn : n < 2^31) :
    w.WroteAll (toInt (UInt64.ofNat n)) ↔ w.writeremainder+Millipacket.sizeof = n := by
  have hword : (UInt64.ofNat n).toNat = n := toNat_word (by omega)
  have hint : toInt (UInt64.ofNat n) = n := by rw [toInt_of_lt (by omega),hword]
  have hfoot : (kfootsize : ℤ)+Millipacket.sizeof < 2^31 := by decide
  rw [WroteAll,hint]
  constructor
  · intro heq
    have hnat := congrArg UInt64.toNat heq
    have hleft := toNat_ofInt (show 0 ≤ w.writeremainder+Millipacket.sizeof by omega) (by omega)
    have hright := toNat_ofInt (show (0 : ℤ) ≤ n by omega) (by omega)
    omega
  · intro heq
    rw [heq]

end TxWorker

/-- What may happen next in a worker thread. It runs, or the network completes
`tx_start_net`, makes it give up or end the process, accepts bytes of a `writev`, or
makes the `writev` return early or fail; or a signal ends its `usleep` early. -/
inductive WorkerAction
  | run
  | connected
  | giveUp
  | startFailed (e : Exit)
  | accept (n : ℕ)
  | writevShort
  | writevFailed
  | interrupted
  deriving DecidableEq, Repr

section Step

variable {W : ℕ}

/-- The outcome of a step of a worker: its new fields, the owner of `txconf->mutex`, the
end of the process, if any, and the bytes its socket has accepted. -/
structure WorkerMove (W : ℕ) where
  worker : TxWorker
  mutex : Option (TxThread W)
  exited : Option Exit := none
  sent : List UInt8 := []

/-- One step of a worker thread by itself; `none` while it waits for the lock or the network. -/
def workerRun (cfg : TxConfig) (i : Fin W) (mutex : Option (TxThread W)) (done : Bool)
    (w : TxWorker) : Option (WorkerMove W) :=
  match w.pc with
  | .start => some ⟨{ w with state := .connecting, pc := .connecting false },mutex,none,[]⟩
  | .connecting _ => none
  | .setIdle => some ⟨{ w with state := .idle, pc := .zeroSize },mutex,none,[]⟩
  | .zeroSize => some ⟨{ w with pkt := { w.pkt with size := 0 }, pc := .zeroLeg },mutex,none,[]⟩
  | .zeroLeg => some ⟨{ w with pkt := { w.pkt with legId := 0 }, pc := .setPreamble },mutex,none,[]⟩
  | .setPreamble =>
    some ⟨{ w with pkt := { w.pkt with preamble := preambleCannonUl }, pc := .loop },mutex,none,[]⟩
  | .loop =>
    if w.done then some ⟨{ w with pc := .gone },mutex,none,[]⟩
    else if mutex = none then some ⟨{ w with pc := .sampleDone },some (.worker i),none,[]⟩
    else none
  | .sampleDone => some ⟨{ w with done := w.done || done, pc := .sampleState },mutex,none,[]⟩
  | .sampleState => some ⟨{ w with localState := w.state, pc := .unlock },mutex,none,[]⟩
  | .unlock =>
    match w.localState with
    | .idle => some ⟨{ w with pc := .loop },none,none,[]⟩
    | .dispatched => some ⟨{ w with pc := .preamble },none,none,[]⟩
    | .disconnected => some ⟨{ w with pc := .recover },none,none,[]⟩
    | _ => some ⟨w,none,some (.exit 340),[]⟩
  | .recover =>
    some ⟨{ w with state := .connecting, errno := false, pc := .connecting true },mutex,none,[]⟩
  | .preamble =>
    some ⟨{ w with state := .preamble, retcode := 1, pc := .remainder },mutex,none,[]⟩
  | .remainder =>
    if toInt w.pkt.size ≤ kfootsize then
      some ⟨{ w with writeremainder := toInt w.pkt.size, pc := .gather },mutex,none,[]⟩
    else some ⟨w,mutex,some (.assertion 147),[]⟩
  | .gather =>
    let buffer := cfg.pushBuffer w.buffer w.pkt.legId
    some ⟨{ w with buffer := buffer, iovLen := w.pkt.size.toNat, pc := .wait },mutex,none,[]⟩
  | .wait =>
    some ⟨{ w with state := if cfg.gdelayUs = 0 then w.state else .waiting, pc := .push },
      mutex,none,[]⟩
  | .push => some ⟨{ w with state := .pushing, pc := .writev 0 },mutex,none,[]⟩
  | .writev _ => none
  | .lease =>
    if mutex = none then
      some ⟨{ w with pc := if w.retcode = 1 then .zeroLease else .markDead },
        some (.worker i),none,[]⟩
    else none
  | .zeroLease => some ⟨{ w with pkt := { w.pkt with size := 0 }, pc := .release },mutex,none,[]⟩
  | .release => some ⟨{ w with state := .idle, pc := .unlease },mutex,none,[]⟩
  | .markDead => some ⟨{ w with state := .disconnected, pc := .unlease },mutex,none,[]⟩
  | .unlease => some ⟨{ w with pc := .loop },none,none,[]⟩
  | .gone => none
  | .faulted => none

/-- `txpush` from a `writev` that returns a count to the lock of `txconf->mutex`; `sent` are
the bytes the socket accepted last. `writev` has not touched `errno`, so that `checkperror`
ends the process for what an earlier `usleep` has left in it. -/
def writevReturned (mutex : Option (TxThread W)) (w : TxWorker) (writeret : ℕ)
    (sent : List UInt8) : WorkerMove W :=
  if w.WroteAll (toInt (UInt64.ofNat writeret)) then
    ⟨{ w with writeremainder := 0, pc := .lease },mutex,
      if w.errno then some (.checkperror 163) else none,sent⟩
  else ⟨w,mutex,some (if w.errno then .checkperror 163 else .assertion 164),sent⟩

/-- One step of a worker thread. -/
def workerStep (cfg : TxConfig) (i : Fin W) (mutex : Option (TxThread W)) (done : Bool)
    (w : TxWorker) (a : WorkerAction) : Option (WorkerMove W) :=
  match a,w.pc with
  | .run,_ => workerRun cfg i mutex done w
  | .connected,.connecting recover =>
    some ⟨{ w with writeremainder := -88, pc := if recover then .preamble else .setIdle },
      mutex,none,[]⟩
  | .giveUp,.connecting _ => some ⟨{ w with state := .faulted, pc := .faulted },mutex,none,[]⟩
  | .startFailed e,.connecting _ => some ⟨w,mutex,some e,[]⟩
  | .accept n,.writev pos =>
    let sent := (w.gathered.drop pos).take n
    if n = 0 ∨ w.gathered.length < pos+n then none
    else if pos+n < w.gathered.length then some ⟨{ w with pc := .writev (pos+n) },mutex,none,sent⟩
    else some (writevReturned mutex w (pos+n) sent)
  | .writevShort,.writev pos =>
    if pos < w.gathered.length then some (writevReturned mutex w pos []) else none
  | .writevFailed,.writev _ => some ⟨w,mutex,some (.checkperror 163),[]⟩
  -- the `usleep` of line 156, and that of line 346 behind every pass of the loop
  | .interrupted,.push =>
    if cfg.gdelayUs = 0 then none else some ⟨{ w with errno := true },mutex,none,[]⟩
  | .interrupted,.loop =>
    if w.localState = .launched then none else some ⟨{ w with errno := true },mutex,none,[]⟩
  | _,_ => none

namespace Ingest

/-- `readsize`, which is never negative. -/
def readsize (g : Ingest W) : ℕ := g.fill.val.length

/-- The packet of the leg at hand, from the values `txingest` computed for it. -/
def feedPacket (legId checksum : UInt64) (fill : Payload) : Packet where
  header := ⟨preambleCannonUl,legId,UInt64.ofNat fill.val.length,checksum,feedMore⟩
  payload := fill.val
  size_eq := by
    have hfoot : kfootsize < 2^64 := by decide
    exact (toNat_word (fill.property.trans_lt hfoot)).symm

/-- The packet of `txshutdown`, which leaves the checksum field alone. -/
def eofPacket (legId checksum : UInt64) : Packet where
  header := ⟨preambleCannonUl,legId,0,checksum,endOfMillipede⟩
  payload := []
  size_eq := rfl

end Ingest

namespace TxState

/-- Change one worker. -/
def setWorker (s : TxState W) (i : Fin W) (w : TxWorker) : TxState W :=
  { s with workers := Function.update s.workers i w }

/-- Change one worker's header. -/
def setPkt (s : TxState W) (i : Fin W) (pkt : Millipacket) : TxState W :=
  s.setWorker i { s.workers i with pkt := pkt }

/-- The outcome of a worker's step in the whole state. -/
def moved (s : TxState W) (i : Fin W) (m : WorkerMove W) : TxState W :=
  { s with
    workers := Function.update s.workers i m.worker
    mutex := m.mutex
    exited := m.exited
    wire := Function.update s.wire i (s.wire i ++ m.sent) }

/-- Move the ingest thread. -/
def goto (s : TxState W) (pc : IngestPc W) : TxState W :=
  { s with ingest := { s.ingest with pc := pc } }

end TxState

/-- The workers that the current pass of `tx_poll` has sampled. -/
def PollPc.sampled (pc : PollPc) (w : Fin W) : Bool :=
  match pc with
  | .scan cursor => w < cursor
  | .eof => true
  | _ => false

/-- `start_worker`: mark the worker 'd'; `p` is recorded as handed over. -/
def startWorker (s : TxState W) (w : Fin W) (p : Packet) : TxState W :=
  { s.setWorker w { s.workers w with state := .dispatched } with
    log := s.log ++ [⟨w,p⟩]
    poll := { s.poll with stale := s.poll.stale || s.poll.pc.sampled w } }

/-- `txingest` after `bufferfill` has returned: the leg limit, a leg, or the end. -/
def ingestFilled (cfg : TxConfig) (s : TxState W) (w : Fin W) (fill : Payload) : TxState W :=
  let s := { s with ingest := { s.ingest with fill := fill } }
  if cfg.glegLimit > 0 ∧ UInt64.ofInt cfg.glegLimit = s.ingest.legCounter then s.goto (.shutLock w)
  else if fill.val.length > 0 then s.goto (.size w)
  else s.goto (.shutLock w)

/-- One step of `txingest`, with `dispatch_idle_worker`, `start_worker` and `txshutdown`. -/
def ingestStep (cfg : TxConfig) (s : TxState W) : Option (TxState W) :=
  let g := s.ingest
  match g.pc with
  | .lock =>
    if s.mutex = none then some { s.goto .test with mutex := some .ingest } else none
  | .test => some (s.goto (if s.done then .finish else .unlock))
  | .unlock => some { s.goto .scanLock with mutex := none }
  | .scanLock =>
    if s.mutex = none then some { s.goto (.scan 0) with mutex := some .ingest } else none
  | .scan cursor =>
    if h : cursor < W then
      if (s.workers ⟨cursor,h⟩).state = .idle then some (s.goto (.scanUnlock (some ⟨cursor,h⟩)))
      else some (s.goto (.scan (cursor+1)))
    else some (s.goto (.scanUnlock none))
  | .scanUnlock none => some { s.goto .scanLock with mutex := none, waits := s.waits+1 }
  | .scanUnlock (some w) => some { s.goto (.fill w) with mutex := none }
  | .fill w =>
    if cfg.gprbsSeed > 0 then
      -- `readsize = kfootsize`; the worker will overwrite whatever the buffer holds
      some (ingestFilled cfg s w ⟨(s.workers w).buffer.read kfootsize,by simp⟩)
    else none
  | .size w =>
    some ((s.setPkt w { (s.workers w).pkt with size := UInt64.ofNat g.readsize }).goto (.leg w))
  | .leg w => some ((s.setPkt w { (s.workers w).pkt with legId := g.legCounter }).goto (.opcode w))
  | .opcode w => some ((s.setPkt w { (s.workers w).pkt with opcode := feedMore }).goto (.checksum w))
  | .checksum w =>
    let sum := txChecksum cfg.gchecksums g.savedChecksum g.legCounter (s.workers w).buffer g.readsize
    let saved := if cfg.gchecksums then sum else g.savedChecksum
    some { s.setPkt w { (s.workers w).pkt with checksum := sum } with
      ingest := { g with savedChecksum := saved, pc := .start w } }
  | .start w =>
    let sum := if cfg.gchecksums then g.savedChecksum else 0
    some ((startWorker s w (Ingest.feedPacket g.legCounter sum g.fill)).goto .total)
  | .total =>
    some { s.goto .bump with streamTotalBytes := s.streamTotalBytes+UInt64.ofNat g.readsize }
  | .shutLock w =>
    if s.mutex = none then some { s.goto (.shutDone w) with mutex := some .ingest } else none
  | .shutDone w => some { s.goto (.shutEof w) with done := true }
  | .shutEof w => some { s.goto (.shutUnlock w) with inputEof := true }
  | .shutUnlock w => some { s.goto (.shutSize w) with mutex := none }
  | .shutSize w => some ((s.setPkt w { (s.workers w).pkt with size := 0 }).goto (.shutLeg w))
  | .shutLeg w =>
    some ((s.setPkt w { (s.workers w).pkt with legId := g.legCounter }).goto (.shutOpcode w))
  | .shutOpcode w =>
    some ((s.setPkt w { (s.workers w).pkt with opcode := endOfMillipede }).goto (.shutStart w))
  | .shutStart w =>
    some ((startWorker s w (Ingest.eofPacket g.legCounter (s.workers w).pkt.checksum)).goto .bump)
  | .bump => some { s with ingest := { g with legCounter := g.legCounter+1, pc := .lock } }
  | .finish => some { s.goto .gone with mutex := none }
  | .gone => none

/-- One step of `tx_poll` in the main thread, which calls it again when it has returned. -/
def pollStep (s : TxState W) : TxState W :=
  match s.poll.pc with
  | .pass => { s with poll := ⟨.scan 0,false⟩ }
  | .scan cursor =>
    if h : cursor < W then
      let instate := (s.workers ⟨cursor,h⟩).state
      if instate = .idle ∨ instate = .faulted then
        { s with poll := { s.poll with pc := .scan (cursor+1) } }
      else { s with poll := { s.poll with pc := .pass } }
    else { s with poll := { s.poll with pc := .eof } }
  | .eof => { s with poll := { s.poll with pc := .returned s.inputEof } }
  | .returned _ => { s with poll := { s.poll with pc := .pass } }

/-- What may happen next: a thread moves, or `bufferfill` returns or ends the process. -/
inductive TxAction (W : ℕ)
  | ingest
  | fill (data : Payload)
  | fillFailed
  | worker (i : Fin W) (a : WorkerAction)
  | poll
  deriving DecidableEq

/-- The transmitter as a step function; a process that has ended takes no step. -/
def txStep (cfg : TxConfig) (s : TxState W) (a : TxAction W) : Option (TxState W) :=
  if s.exited.isSome then none else
  match a with
  | .ingest => ingestStep cfg s
  | .fill data =>
    match s.ingest.pc with
    | .fill w =>
      if cfg.gprbsSeed > 0 then none
      else
        let b := (s.workers w).buffer.store 0 data.val
        some (ingestFilled cfg (s.setWorker w { s.workers w with buffer := b }) w data)
    | _ => none
  | .fillFailed =>
    match s.ingest.pc with
    | .fill _ => if cfg.gprbsSeed > 0 then none else some { s with exited := some (.checkperror 87) }
    | _ => none
  | .worker i a => (workerStep cfg i s.mutex s.done (s.workers i) a).map (s.moved i)
  | .poll => some (pollStep s)

/-- All threads created, none has run. -/
def txInit (W : ℕ) : TxState W where
  workers := fun _ => TxWorker.launched
  mutex := none
  done := false
  inputEof := false
  streamTotalBytes := 0
  waits := 0
  ingest := ⟨.lock,⟨[],by simp⟩,0xff,0⟩
  poll := ⟨.pass,false⟩
  exited := none
  log := []
  wire := fun _ => []

def txMachine (cfg : TxConfig) (W : ℕ) : Machine (TxState W) (TxAction W) where
  init := fun s => s = txInit W
  step := txStep cfg

/-- `n` steps of the ingest thread. -/
def ingestSteps (n : ℕ) : List (TxAction W) := List.replicate n .ingest

/-- `n` steps of a worker by itself. -/
def workerSteps (i : Fin W) (n : ℕ) : List (TxAction W) := List.replicate n (.worker i .run)

/-- A worker connects and enters its loop. -/
def startUp (i : Fin W) : List (TxAction W) :=
  workerSteps i 1 ++ [.worker i .connected] ++ workerSteps i 4

/-- A fill of one byte. -/
def oneByte (b : UInt8) : Payload := ⟨[b],Nat.succ_le_of_lt (by decide : 0 < kfootsize)⟩

/-- The fill at the end of the input. -/
def noBytes : Payload := ⟨[],Nat.zero_le _⟩

/-- The ingest thread finds the only worker, which is idle, and fills its buffer. -/
def findAndFill (data : Payload) : List (TxAction 1) := ingestSteps 6 ++ [.fill data]

/-- A leg is handed to the only worker, which writes `count` bytes of it. -/
def pushOne (data : Payload) (count : ℕ) : List (TxAction 1) :=
  .flatten [findAndFill data,ingestSteps 5,workerSteps 0 9,[.worker 0 (.accept count)]]

/-- The same for the end of the stream. -/
def pushEnd (count : ℕ) : List (TxAction 1) :=
  .flatten [findAndFill noBytes,ingestSteps 8,workerSteps 0 9,[.worker 0 (.accept count)]]

end Step

end Viamillipede
