import Viamillipede.Transition
import Viamillipede.Checksum
import Viamillipede.Prbs
import Viamillipede.Tx

/-! The receiver of `rx.c`: the worker threads, their sequencer and `rx_poll`.

One step is one access to shared memory, one operation on `rxmutex` or `seq_cv`, or one
system call with the local code behind it. Results of system calls are chosen by the
environment through the actions. `pkt` is a local of the inner loop that nothing
initialises, so that each `readv` overlays contents of which nothing is known. -/
namespace Viamillipede

open Bytes Transition

/-- The globals that the command line sets. -/
structure RxConfig where
  gprbsSeed : UInt64
  gcheckphrase : List UInt8

/-- No option on the command line: the check phrase is "yoes". -/
def RxConfig.plain : RxConfig := ⟨0,[121,111,101,115]⟩

/-- Where a worker thread is in `rxworker`. -/
inductive RxPc
  | start                 -- 16: pthread_cond_init
  | outer                 -- 21
  | accept                -- 26, up to the reply at 47
  | inner                 -- 53
  | header                -- 61
  | payload               -- 86
  | lock                  -- 149
  | test                  -- 150
  | wait                  -- 152: about to sleep
  | asleep                -- in pthread_cond_wait
  | relock                -- woken in pthread_cond_wait
  | unlock                -- 159
  | write (pos : ℕ)       -- 171, `pos` bytes written
  | opcode                -- 177
  | doneLock              -- 180
  | doneSet               -- 181
  | doneUnlock            -- 182
  | advLock               -- 201
  | advance               -- 202
  | advUnlock             -- 204
  | broadcast             -- 207
  | gone
  deriving DecidableEq, Repr

/-- The locals of `rxworker`. The last three fields are history of the current connection:
the bytes read behind the check phrase, the packets carried to the sequencing step, and
what the `readv` of each header returned. -/
structure RxWorker where
  pc : RxPc
  pkt : Millipacket
  buffer : Memory
  cursor : ℕ
  remainder : ℕ
  restartme : Bool
  got : List UInt8
  carried : List Packet
  reads : List ℕ

/-- Where the main thread is in `rx_poll`. -/
inductive RxPollPc
  | lock                    -- 245
  | read                    -- 246
  | unlock (done : Bool)    -- 247
  | returned (done : Bool)
  deriving DecidableEq, Repr

inductive RxThread (n : ℕ)
  | main
  | worker (i : Fin n)
  deriving DecidableEq, Repr

/-- `struct rxconf_s` and its threads, and `grx_saved_checksum`. `written` and `advances`
are history: the packets whose `writev` has returned, and the increments of `next_leg`. -/
structure RxState (n : ℕ) where
  workers : Fin n → RxWorker
  nextLeg : UInt64
  doneMbox : Bool
  rxmutex : Option (RxThread n)
  output : List UInt8
  grxSavedChecksum : UInt64
  poll : RxPollPc
  exited : Option Exit
  written : List Packet
  advances : ℕ

namespace RxWorker

/-- A worker before its first instruction; the buffer is from `calloc`. -/
def launched : RxWorker where
  pc := .start
  pkt := ⟨0,0,0,0,0⟩
  buffer := fun _ => 0
  cursor := 0
  remainder := 0
  restartme := false
  got := []
  carried := []
  reads := []

/-- The header and the bytes of the buffer that it announces. -/
def packet (w : RxWorker) : Packet where
  header := w.pkt
  payload := w.buffer.read w.pkt.size.toNat
  size_eq := by simp

/-- Lines 26 to 51; `phrase` is what the read of the check phrase returned. -/
def accepted (cfg : RxConfig) (w : RxWorker) (phrase : List UInt8) : Except Exit RxWorker :=
  if phrase.length ≠ 4 then .error (.assertion 38)
  else if phrase ≠ cfg.gcheckphrase.take 4 then .error (.exit 44)
  else .ok { w with buffer := w.buffer.store 0 phrase, pc := .inner, got := [], carried := [],
                    reads := [] }

/-- Lines 121 to 138, between the payload and the sequencer. -/
def sequence (cfg : RxConfig) (w : RxWorker) : Except Exit RxWorker :=
  if cfg.gprbsSeed > 0 ∧ w.restartme = false ∧
      prbsVerify w.buffer (cfg.gprbsSeed+w.pkt.legId) kfootsize = false ∧
      w.pkt.opcode ≠ endOfMillipede then .error (.exit 133)
  else .ok { w with pc := .lock,
                    carried := if w.restartme then w.carried else w.carried++[w.packet] }

/-- Lines 61 to 86; the `readv` returned `bs.length` and found `junk` in `pkt`. A short
count and a wrong preamble are only reported: `assert(-1)` does not fire. -/
def headerRead (cfg : RxConfig) (w : RxWorker) (junk : Millipacket) (bs : List UInt8) :
    Except Exit RxWorker :=
  let pkt := junk.overlay bs
  if pkt.size.toNat > kfootsize then .error (.assertion 72)
  else
    let w := { w with pkt := pkt, cursor := 0, remainder := pkt.size.toNat, got := w.got++bs,
                      reads := w.reads++[bs.length] }
    if w.remainder = 0 then w.sequence cfg else .ok { w with pc := .payload }

/-- Lines 89 to 120; the `read` returned `bs.length`, zero at the end of the connection. -/
def payloadRead (cfg : RxConfig) (w : RxWorker) (bs : List UInt8) : Except Exit RxWorker :=
  if bs = [] then { w with restartme := true }.sequence cfg
  else
    let w := { w with buffer := w.buffer.store w.cursor bs, cursor := w.cursor+bs.length,
                      remainder := w.remainder-bs.length, got := w.got++bs }
    if w.remainder = 0 then w.sequence cfg else .ok w

end RxWorker

/-- What may happen next: a thread moves, or a system call returns. -/
inductive RxAction (n : ℕ)
  | run (i : Fin n)
  | accept (i : Fin n) (phrase : List UInt8)
  | acceptFailed (i : Fin n) (e : Exit)
  | readv (i : Fin n) (junk : Millipacket) (bs : List UInt8)
  | readvFailed (i : Fin n) (junk : Millipacket)
  | read (i : Fin n) (bs : List UInt8)
  | readFailed (i : Fin n)
  | wake (i : Fin n)
  | write (i : Fin n) (count : ℕ)
  | writeShort (i : Fin n)
  | writeFailed (i : Fin n)
  | poll
  deriving DecidableEq

variable {n : ℕ}

namespace RxState

/-- Change one worker. -/
def setWorker (s : RxState n) (i : Fin n) (w : RxWorker) : RxState n :=
  { s with workers := Function.update s.workers i w }

/-- Move one worker. -/
def goto (s : RxState n) (i : Fin n) (pc : RxPc) : RxState n :=
  s.setWorker i { s.workers i with pc := pc }

/-- Change one worker or end the process. -/
def settle (s : RxState n) (i : Fin n) : Except Exit RxWorker → RxState n
  | .ok w => s.setWorker i w
  | .error e => { s with exited := some e }

/-- All workers asleep in `pthread_cond_wait` wake up. -/
def awaken (s : RxState n) : RxState n :=
  { s with workers := fun j =>
      if (s.workers j).pc = .asleep then { s.workers j with pc := .relock } else s.workers j }

end RxState

/-- Lines 177 to 200, for a packet that is not the last. -/
def opcodeStep (s : RxState n) (i : Fin n) : RxState n :=
  let w := s.workers i
  if w.pkt.opcode = endOfMillipede then s.goto i .doneLock
  else if w.pkt.opcode = feedMore then
    match rxChecksum s.grxSavedChecksum w.pkt w.buffer with
    | some sum => { s.goto i .advLock with grxSavedChecksum := sum }
    | none => { s with exited := some (.assertion 194) }
  else { s with exited := some (.exit 199) }

/-- One step of a worker thread by itself. Initialising `seq_cv` while a thread sleeps on it
is undefined, so that there is no such step. -/
def rxRun (s : RxState n) (i : Fin n) : Option (RxState n) :=
  let w := s.workers i
  match w.pc with
  | .start => if ∀ j, (s.workers j).pc ≠ .asleep then some (s.goto i .outer) else none
  | .outer =>
    if s.doneMbox then some (s.goto i .gone)
    else some (s.setWorker i { w with restartme := false, pc := .accept })
  | .accept => none
  | .inner =>
    some (s.goto i (if s.doneMbox = false ∧ w.restartme = false then .header else .outer))
  | .header => none
  | .payload => none
  | .lock =>
    if s.rxmutex = none then some { s.goto i .test with rxmutex := some (.worker i) } else none
  | .test =>
    some (s.goto i (if w.pkt.legId ≠ s.nextLeg ∧ w.restartme = false then .wait else .unlock))
  | .wait => some { s.goto i .asleep with rxmutex := none }
  | .asleep => none
  | .relock =>
    if s.rxmutex = none then some { s.goto i .test with rxmutex := some (.worker i) } else none
  | .unlock =>
    some { s.goto i (if w.restartme then .inner else .write 0) with rxmutex := none }
  | .write _ => none
  | .opcode => some (opcodeStep s i)
  | .doneLock =>
    if s.rxmutex = none then some { s.goto i .doneSet with rxmutex := some (.worker i) } else none
  | .doneSet => some { s.goto i .doneUnlock with doneMbox := true }
  | .doneUnlock => some { s.goto i .advLock with rxmutex := none }
  | .advLock =>
    if s.rxmutex = none then some { s.goto i .advance with rxmutex := some (.worker i) } else none
  | .advance =>
    some { s.goto i .advUnlock with nextLeg := s.nextLeg+1, advances := s.advances+1 }
  | .advUnlock => some { s.goto i .broadcast with rxmutex := none }
  | .broadcast => some (s.goto i .inner).awaken
  | .gone => none

/-- One step of `rx_poll` in the main thread, which calls it again when it has returned. -/
def rxPollStep (s : RxState n) : Option (RxState n) :=
  match s.poll with
  | .lock => if s.rxmutex = none then some { s with poll := .read, rxmutex := some .main } else none
  | .read => some { s with poll := .unlock s.doneMbox }
  | .unlock done => some { s with poll := .returned done, rxmutex := none }
  | .returned _ => some { s with poll := .lock }

/-- `writev` to `output_fd` takes `count` more bytes; it returns when it has them all. -/
def rxWrite (s : RxState n) (i : Fin n) (count : ℕ) : Option (RxState n) :=
  match (s.workers i).pc with
  | .write pos =>
    let p := (s.workers i).packet
    let s := { s with output := s.output ++ (p.payload.drop pos).take count }
    if p.payload.length < pos+count ∨ count = 0 ∧ 0 < p.payload.length then none
    else if pos+count < p.payload.length then some (s.goto i (.write (pos+count)))
    else some { s.goto i .opcode with written := s.written++[p] }
  | _ => none

/-- The receiver as a step function; a process that has ended takes no step. -/
def rxStep (cfg : RxConfig) (s : RxState n) (a : RxAction n) : Option (RxState n) :=
  if s.exited.isSome then none else
  match a with
  | .run i => rxRun s i
  | .accept i phrase =>
    if (s.workers i).pc = .accept ∧ phrase.length ≤ 4 then
      some (s.settle i ((s.workers i).accepted cfg phrase))
    else none
  | .acceptFailed i e =>
    if (s.workers i).pc = .accept then some { s with exited := some e } else none
  | .readv i junk bs =>
    if (s.workers i).pc = .header ∧ bs.length ≤ Millipacket.sizeof then
      some (s.settle i ((s.workers i).headerRead cfg junk bs))
    else none
  | .readvFailed i junk =>
    -- the error number stays set up to the next `checkperror`
    if (s.workers i).pc = .header then
      some { s with exited := some (
        if junk.size.toNat > kfootsize then .assertion 72
        else if junk.size = 0 then .checkperror 138 else .checkperror 90) }
    else none
  | .read i bs =>
    if (s.workers i).pc = .payload ∧ bs.length ≤ min (s.workers i).remainder maxbsize then
      some (s.settle i ((s.workers i).payloadRead cfg bs))
    else none
  | .readFailed i =>
    if (s.workers i).pc = .payload then some { s with exited := some (.checkperror 90) } else none
  | .wake i => if (s.workers i).pc = .asleep then some (s.goto i .relock) else none
  | .write i count => rxWrite s i count
  | .writeShort i =>
    match (s.workers i).pc with
    | .write pos =>
      if pos < (s.workers i).packet.payload.length then
        some { s with exited := some (.assertion 175) }
      else none
    | _ => none
  | .writeFailed i =>
    match (s.workers i).pc with
    | .write _ => some { s with exited := some (.checkperror 174) }
    | _ => none
  | .poll => rxPollStep s

/-- All threads created, none has run. -/
def rxInit (n : ℕ) : RxState n where
  workers := fun _ => RxWorker.launched
  nextLeg := 0
  doneMbox := false
  rxmutex := none
  output := []
  grxSavedChecksum := 0xff
  poll := .lock
  exited := none
  written := []
  advances := 0

/-- A worker accepts a connection that opens with the right phrase, and goes to its first header. -/
def rxConnect (i : Fin n) : List (RxAction n) :=
  [.run i,.run i,.accept i [121,111,101,115],.run i]

/-- A worker at a header reads a packet, each part in one piece. -/
def rxReadWhole (i : Fin n) (p : Packet) : List (RxAction n) :=
  [.readv i ⟨0,0,0,0,0⟩ p.header.bytes,.read i p.payload]

/-- `k` steps of a worker by itself. -/
def rxSteps (i : Fin n) (k : ℕ) : List (RxAction n) := List.replicate k (.run i)

/-- A leg of one byte. -/
def oneByteLeg (legId : UInt64) (b : UInt8) : Packet where
  header := ⟨preambleCannonUl,legId,1,0,feedMore⟩
  payload := [b]
  size_eq := rfl

def rxMachine (cfg : RxConfig) (n : ℕ) : Machine (RxState n) (RxAction n) where
  init := fun s => s = rxInit n
  step := rxStep cfg

end Viamillipede
