import Viamillipede.TxHandover
import Viamillipede.RxOrder
import Viamillipede.RxFraming

/-! A transmitter and a receiver, joined by one connection for each transmit worker.

A connection is a FIFO of bytes with room for `sockbuf` of them. The receive worker that
accepts the connection of transmit worker `i` is called `i` as well. The network may drop an
established connection; only then do calls on it fail. -/
namespace Viamillipede

open Bytes Transition

structure SessionConfig where
  tx : TxConfig
  rx : RxConfig
  sockbuf : UInt64

/-- Both processes, and for each connection the bytes in flight and whether it was dropped. -/
structure Session (W : ℕ) where
  tx : TxState W
  rx : RxState W
  conn : Fin W → List UInt8
  dropped : Fin W → Bool

/-- What may happen next: a connection is established, one of the processes moves, bytes
arrive at a `readv` of a header or a `read` of a payload, or a connection is dropped and
`kept` of the bytes in flight can still be read. -/
inductive SessionAction (W : ℕ)
  | connect (i : Fin W)
  | tx (a : TxAction W)
  | rx (a : RxAction W)
  | readv (i : Fin W) (junk : Millipacket) (count : ℕ)
  | read (i : Fin W) (count : ℕ)
  | drop (i : Fin W) (kept : ℕ)
  deriving DecidableEq

variable {W : ℕ}

/-- The steps of the transmitter by itself. The socket takes bytes while there is room, and
fails a `writev` only when the connection is dropped. -/
def Session.txMay (cfg : SessionConfig) (s : Session W) : TxAction W → Bool
  | .worker _ .run | .worker _ .interrupted | .ingest | .fill _ | .poll => true
  | .worker i (.accept n) => !s.dropped i && (s.conn i).length+n ≤ cfg.sockbuf.toNat
  | .worker i .writevShort | .worker i .writevFailed => s.dropped i
  | _ => false

/-- The steps of the receiver by itself; reads fail only on a dropped connection. -/
def Session.rxMay (s : Session W) : RxAction W → Bool
  | .run _ | .wake _ | .write _ _ | .poll => true
  | .readvFailed i _ | .readFailed i => s.dropped i
  | _ => false

/-- A read may return `count` bytes: some that have arrived, or none at the end of a dropped
connection. -/
def Session.MayRead (s : Session W) (i : Fin W) (count : ℕ) : Prop :=
  0 < count ∧ count ≤ (s.conn i).length ∨ count = 0 ∧ s.dropped i = true ∧ s.conn i = []

instance (s : Session W) (i : Fin W) (count : ℕ) : Decidable (s.MayRead i count) :=
  inferInstanceAs (Decidable (_ ∨ _))

/-- The transmitter has moved; what its sockets have accepted is in flight. -/
def Session.withTx (s : Session W) (tx : TxState W) : Session W :=
  { s with tx := tx, conn := fun i => s.conn i ++ (tx.wire i).drop (s.tx.wire i).length }

/-- The receiver has moved and taken `count` bytes from connection `i`. The bytes at which
its process ends are left in flight. -/
def Session.withRx (s : Session W) (i : Fin W) (count : ℕ) (rx : RxState W) : Session W :=
  { s with
    rx := rx
    conn := if rx.exited.isSome then s.conn
      else Function.update s.conn i ((s.conn i).drop count) }

def sessionStep (cfg : SessionConfig) (s : Session W) : SessionAction W → Option (Session W)
  | .connect i =>
    (txStep cfg.tx s.tx (.worker i .connected)).bind fun tx =>
      (rxStep cfg.rx s.rx (.accept i (cfg.rx.gcheckphrase.take 4))).map fun rx =>
        { s with tx := tx, rx := rx }
  | .tx a => if s.txMay cfg a then (txStep cfg.tx s.tx a).map s.withTx else none
  | .rx a => if s.rxMay a then (rxStep cfg.rx s.rx a).map fun rx => { s with rx := rx } else none
  | .readv i junk count =>
    if s.MayRead i count then
      (rxStep cfg.rx s.rx (.readv i junk ((s.conn i).take count))).map (s.withRx i count)
    else none
  | .read i count =>
    if s.MayRead i count then
      (rxStep cfg.rx s.rx (.read i ((s.conn i).take count))).map (s.withRx i count)
    else none
  | .drop i kept =>
    if s.dropped i = false ∧ (s.tx.workers i).pc ≠ .start ∧ (s.tx.workers i).pc ≠ .connecting false
    then some { s with conn := Function.update s.conn i ((s.conn i).take kept)
                       dropped := Function.update s.dropped i true }
    else none

def sessionInit (W : ℕ) : Session W where
  tx := txInit W
  rx := rxInit W
  conn := fun _ => []
  dropped := fun _ => false

def sessionMachine (cfg : SessionConfig) (W : ℕ) : Machine (Session W) (SessionAction W) where
  init := fun s => s = sessionInit W
  step := sessionStep cfg

/-- What a step of the session is, action by action. -/
inductive SessionMove (cfg : SessionConfig) (s t : Session W) : SessionAction W → Prop
  | connect (i : Fin W) (tx : TxState W) (rx : RxState W) :
      txStep cfg.tx s.tx (.worker i .connected) = some tx →
      rxStep cfg.rx s.rx (.accept i (cfg.rx.gcheckphrase.take 4)) = some rx →
      t = { s with tx := tx, rx := rx } → SessionMove cfg s t (.connect i)
  | tx (a : TxAction W) (tx : TxState W) : s.txMay cfg a = true →
      txStep cfg.tx s.tx a = some tx → t = s.withTx tx → SessionMove cfg s t (.tx a)
  | rx (a : RxAction W) (rx : RxState W) : s.rxMay a = true →
      rxStep cfg.rx s.rx a = some rx → t = { s with rx := rx } → SessionMove cfg s t (.rx a)
  | readv (i : Fin W) (junk : Millipacket) (count : ℕ) (rx : RxState W) : s.MayRead i count →
      rxStep cfg.rx s.rx (.readv i junk ((s.conn i).take count)) = some rx →
      t = s.withRx i count rx → SessionMove cfg s t (.readv i junk count)
  | read (i : Fin W) (count : ℕ) (rx : RxState W) : s.MayRead i count →
      rxStep cfg.rx s.rx (.read i ((s.conn i).take count)) = some rx →
      t = s.withRx i count rx → SessionMove cfg s t (.read i count)
  | drop (i : Fin W) (kept : ℕ) : s.dropped i = false → (s.tx.workers i).pc ≠ .start →
      (s.tx.workers i).pc ≠ .connecting false →
      t = { s with conn := Function.update s.conn i ((s.conn i).take kept)
                   dropped := Function.update s.dropped i true } →
      SessionMove cfg s t (.drop i kept)

theorem sessionStep_cases {cfg : SessionConfig} {s t : Session W} {a : SessionAction W}
    (h : sessionStep cfg s a = some t) : SessionMove cfg s t a := by
  cases a with
  | connect i =>
    obtain ⟨tx,htx,h⟩ := Option.bind_eq_some_iff.mp h
    obtain ⟨rx,hrx,rfl⟩ := Option.map_eq_some_iff.mp h
    exact .connect i tx rx htx hrx rfl
  | tx a =>
    simp only [sessionStep] at h
    split at h
    · obtain ⟨tx,htx,rfl⟩ := Option.map_eq_some_iff.mp h
      exact .tx a tx ‹_› htx rfl
    · cases h
  | rx a =>
    simp only [sessionStep] at h
    split at h
    · obtain ⟨rx,hrx,rfl⟩ := Option.map_eq_some_iff.mp h
      exact .rx a rx ‹_› hrx rfl
    · cases h
  | readv i junk count =>
    simp only [sessionStep] at h
    split at h
    · obtain ⟨rx,hrx,rfl⟩ := Option.map_eq_some_iff.mp h
      exact .readv i junk count rx ‹_› hrx rfl
    · cases h
  | read i count =>
    simp only [sessionStep] at h
    split at h
    · obtain ⟨rx,hrx,rfl⟩ := Option.map_eq_some_iff.mp h
      exact .read i count rx ‹_› hrx rfl
    · cases h
  | drop i kept =>
    simp only [sessionStep] at h
    split at h <;> cases h
    rename_i hdrop
    exact .drop i kept hdrop.1 hdrop.2.1 hdrop.2.2 rfl

/-- A run of the transmitter, and one of the receiver, as parts of a session. -/
def txRun (as : List (TxAction W)) : List (SessionAction W) := as.map .tx

def rxRunOf (as : List (RxAction W)) : List (SessionAction W) := as.map .rx

/-- A worker of each process connect; one enters its loop, the other goes to its first header. -/
def meet (i : Fin W) : List (SessionAction W) :=
  txRun (workerSteps i 1) ++ rxRunOf (rxSteps i 2) ++ [.connect i] ++ txRun (workerSteps i 4) ++
    rxRunOf (rxSteps i 1)

namespace SessionAction

/-- A call on a dropped connection fails. -/
def failing : SessionAction W → Bool
  | .tx (.worker _ .writevShort) | .tx (.worker _ .writevFailed) => true
  | .rx (.readvFailed _ _) | .rx (.readFailed _) => true
  | _ => false

/-- A header does not arrive whole. -/
def shortHeader : SessionAction W → Bool
  | .readv _ _ count => count != Millipacket.sizeof
  | _ => false

/-- The connection that the network drops. -/
def drops : SessionAction W → Option (Fin W)
  | .drop i _ => some i
  | _ => none

def txAction : SessionAction W → Option (TxAction W)
  | .tx a => some a
  | _ => none

theorem eq_of_mem_txAction {a : SessionAction W} {b : TxAction W} (h : b ∈ a.txAction) :
    a = .tx b := by
  cases a <;> cases h
  rfl

/-- `bufferfill` returns. -/
def fills : SessionAction W → Bool
  | .tx (.fill _) => true
  | _ => false

end SessionAction

/-- No signal ends a `usleep` of a transmit worker early. -/
def Uninterrupted (a : SessionAction W) : Prop := ∀ b ∈ a.txAction, b.interrupts = false

instance (a : SessionAction W) : Decidable (Uninterrupted a) :=
  inferInstanceAs (Decidable (∀ b ∈ a.txAction, _))

/-- No socket call fails and each header arrives whole. -/
def NoFailure (a : SessionAction W) : Prop :=
  a.failing = false ∧ a.shortHeader = false ∧ a.drops = none

instance (a : SessionAction W) : Decidable (NoFailure a) :=
  inferInstanceAs (Decidable (_ ∧ _ ∧ _))

/-- Between the store of 'i' at 287 and the end of the start-up at 290. -/
def WorkerPc.starting : WorkerPc → Bool
  | .zeroSize | .zeroLeg | .setPreamble => true
  | _ => false

/-- While a worker is at the end of its start-up nothing else moves. -/
def WholeStart (s : Session W) (a : SessionAction W) : Prop :=
  ∀ i, (s.tx.workers i).pc.starting = true → a = .tx (.worker i .run)

instance (s : Session W) (a : SessionAction W) : Decidable (WholeStart s a) :=
  inferInstanceAs (Decidable (∀ i, (s.tx.workers i).pc.starting = true → a = .tx (.worker i .run)))

/-- A `readv` returns a whole header; or the connection has dropped, `readv` returns the last
bytes of it, and what is in `pkt` then announces a payload that fits, of which nothing comes. -/
def Legible (s : Session W) : SessionAction W → Prop
  | .readv i junk count => count = Millipacket.sizeof ∨
    s.dropped i = true ∧ (s.conn i).length ≤ count ∧
      0 < (junk.overlay ((s.conn i).take count)).size.toNat ∧
      (junk.overlay ((s.conn i).take count)).size.toNat ≤ kfootsize
  | _ => True

instance (s : Session W) (a : SessionAction W) : Decidable (Legible s a) := by
  cases a <;> unfold Legible <;> infer_instance

/-- Headers are legible, and no start-up hits a packet handed over. Connections may drop at
any point, and calls on them may fail. -/
def Heeded (s : Session W) (a : SessionAction W) : Prop :=
  Legible s a ∧ ∀ b ∈ a.txAction, Unclobbered s.tx b

instance (s : Session W) (a : SessionAction W) : Decidable (Heeded s a) :=
  inferInstanceAs (Decidable (_ ∧ ∀ b ∈ a.txAction, _))

/-- The step does no harm to what the connections carry. A connection is dropped only when
all bytes in flight are of a packet still being pushed, no call on one fails, headers are
legible, and no start-up hits a packet handed over. -/
def Harmless (s : Session W) (a : SessionAction W) : Prop :=
  a.failing = false ∧ (∀ i ∈ a.drops, (s.conn i).length ≤ ((s.tx.workers i).progress).getD 0) ∧
    Heeded s a

instance (s : Session W) (a : SessionAction W) : Decidable (Harmless s a) :=
  inferInstanceAs (Decidable (_ ∧ (∀ i ∈ a.drops, _) ∧ _))

/-- Nor does it leave an error number to the next `writev`. -/
def Lossless (s : Session W) (a : SessionAction W) : Prop := Harmless s a ∧ Uninterrupted a

instance (s : Session W) (a : SessionAction W) : Decidable (Lossless s a) :=
  inferInstanceAs (Decidable (_ ∧ _))

end Viamillipede
