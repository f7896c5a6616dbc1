import Viamillipede.RxControl

/-! One leg at a receive worker: the payload loop of `rxworker` and what becomes of its bytes,
from a header received whole to the return of `writev`. -/
namespace Viamillipede

open Bytes Transition

variable {n : ℕ} {cfg : RxConfig}

/-- The locals of the payload loop. -/
structure PayloadLoop where
  buffer : Memory
  cursor : ℤ
  remainder : ℤ
  restartme : Bool
  errno : ℕ

/-- What `read` returns: bytes, none of them at the end of the connection, or an error. -/
inductive ReadReturn
  | bytes (bs : List UInt8)
  | failed (errno : ℕ)

/-- Where one pass of the loop leads to. -/
inductive PayloadPass
  | again (l : PayloadLoop)
  | leave (l : PayloadLoop)
  | ended (e : Exit)

namespace PayloadLoop

/-- Lines 97 to 100. -/
def retired (errno : ℕ) : ℕ := if errno = 54 ∨ errno = 32 then 0 else errno

/-- Lines 102 to 120 and the test at 86. -/
def counted (l : PayloadLoop) (readsize : ℤ) : PayloadPass :=
  let l := { l with cursor := l.cursor+readsize, remainder := l.remainder-readsize }
  if (kfootsize : ℤ) < l.cursor then .ended (.assertion 104)
  else if l.remainder < 0 then .ended (.assertion 106)
  else if readsize = 0 ∧ l.restartme = false then .leave l
  else if l.errno ≠ 0 then .ended (.checkperror 115)
  else if l.remainder ≠ 0 ∧ l.restartme = false then .again l
  else .leave l

/-- Lines 90 to 101; `l` is the state behind the `read`, which returned `readsize`. -/
def examined (l : PayloadLoop) (readsize : ℤ) : PayloadPass :=
  if l.errno ≠ 0 then .ended (.checkperror 90)
  else if l.errno ≠ 0 ∨ readsize ≤ 0 then
    { l with restartme := true, errno := retired l.errno }.counted 0
  else l.counted readsize

/-- One pass, from line 89 on. -/
def pass (l : PayloadLoop) : ReadReturn → PayloadPass
  | .bytes bs => { l with buffer := l.buffer.store l.cursor.toNat bs }.examined bs.length
  | .failed errno => { l with errno := errno }.examined (-1)

end PayloadLoop

namespace RxWorker

/-- The loop as a worker at line 89 is in it. -/
def payloadLoop (w : RxWorker) : PayloadLoop := ⟨w.buffer,w.cursor,w.remainder,w.restartme,0⟩

/-- The worker with the locals of the loop. -/
def inLoop (w : RxWorker) (l : PayloadLoop) : RxWorker :=
  { w with buffer := l.buffer, cursor := l.cursor.toNat, remainder := l.remainder.toNat,
           restartme := l.restartme }

/-- No assertion of the loop fires, and the end of the connection is told from the end of the
payload: the step of the worker is the pass of the loop. -/
theorem payloadRead_of_pass {w : RxWorker} (hrestart : w.restartme = false)
    (hroom : w.cursor+w.remainder ≤ kfootsize) {bs : List UInt8} (hbs : bs.length ≤ w.remainder) :
    w.payloadRead cfg bs =
      match w.payloadLoop.pass (.bytes bs) with
      | .again l => .ok ({ w with got := w.got++bs }.inLoop l)
      | .leave l => ({ w with got := w.got++bs }.inLoop l).sequence cfg
      | .ended e => .error e := by
  by_cases hnil : bs = []
  · subst hnil
    have hstore : w.buffer.store w.cursor [] = w.buffer := by
      funext k
      simp [Memory.store]
    have hcursor : ¬ (kfootsize : ℤ) < w.cursor := by omega
    have hremainder : ¬ (w.remainder : ℤ) < 0 := by omega
    simp [payloadRead,PayloadLoop.pass,PayloadLoop.examined,PayloadLoop.counted,payloadLoop,
      PayloadLoop.retired,inLoop,hstore,hcursor,hremainder]
  · have hpos : 0 < bs.length := List.length_pos_of_ne_nil hnil
    have hcursor : ¬ (kfootsize : ℤ) < w.cursor+bs.length := by omega
    have hremainder : ¬ (w.remainder : ℤ)-bs.length < 0 := by omega
    have hsub : ((w.remainder : ℤ)-bs.length).toNat = w.remainder-bs.length := by omega
    have hadd : ((w.cursor : ℤ)+bs.length).toNat = w.cursor+bs.length := by omega
    have hzero : (w.remainder : ℤ)-bs.length = 0 ↔ w.remainder-bs.length = 0 := by omega
    by_cases hmore : w.remainder-bs.length = 0
    · simp [payloadRead,PayloadLoop.pass,PayloadLoop.examined,PayloadLoop.counted,payloadLoop,
        inLoop,hnil,hcursor,hremainder,hsub,hadd,hzero,hmore,hrestart]
    · simp [payloadRead,PayloadLoop.pass,PayloadLoop.examined,PayloadLoop.counted,payloadLoop,
        inLoop,hnil,hcursor,hremainder,hsub,hadd,hzero,hmore,hrestart]

/-- A failed `read` ends the process at line 90, before the code that would retry. -/
theorem pass_failed (w : RxWorker) {errno : ℕ} (h : errno ≠ 0) :
    w.payloadLoop.pass (.failed errno) = .ended (.checkperror 90) := by
  simp [PayloadLoop.pass,PayloadLoop.examined,h]

end RxWorker

/-- From the payload loop to the return of `writev`. -/
def RxPc.onLeg : RxPc → Bool
  | .payload | .lock | .test | .wait | .asleep | .relock | .unlock | .write _ => true
  | _ => false

/-- Behind the payload loop and before the `writev`. -/
def RxPc.waiting : RxPc → Bool
  | .lock | .test | .wait | .asleep | .relock | .unlock => true
  | _ => false

/-- What the `read`s of worker `i` in an action have returned. -/
def RxAction.reads (i : Fin n) : RxAction n → List (List UInt8)
  | .read j bs => if j = i then [bs] else []
  | .readFailed j => if j = i then [[]] else []
  | _ => []

/-- The receiver while worker `i` has a leg. The last two fields are history: what each `read`
of the payload returned, and what this worker has added to the output. -/
structure LegRun (n : ℕ) where
  rx : RxState n
  reads : List (List UInt8)
  wrote : List UInt8

namespace LegRun

/-- The bytes taken from the connection behind the header. -/
def taken (l : LegRun n) : List UInt8 := l.reads.flatten

/-- A step to `t`. -/
def follow (i : Fin n) (l : LegRun n) (a : RxAction n) (t : RxState n) : LegRun n where
  rx := t
  reads := l.reads++a.reads i
  wrote := if a.worker = some i then l.wrote++t.output.drop l.rx.output.length else l.wrote

end LegRun

/-- Any steps of the other threads, and those of worker `i` up to the end of its leg. -/
def legStep (cfg : RxConfig) (i : Fin n) (l : LegRun n) (a : RxAction n) : Option (LegRun n) :=
  if a.worker = some i ∧ (l.rx.workers i).pc.onLeg = false then none
  else (rxStep cfg l.rx a).map (l.follow i a)

/-- Worker `i` has come to line 61, and its `readv` returns the whole of a header. -/
def legMachine (cfg : RxConfig) (i : Fin n) (before : RxState n) (junk header : Millipacket) :
    Machine (LegRun n) (RxAction n) where
  init l := (before.workers i).restartme = false ∧
    rxStep cfg before (.readv i junk header.bytes) = some l.rx ∧ l.reads = [] ∧ l.wrote = []
  step := legStep cfg i

/-- The steps of worker `i` while it has a leg. -/
inductive LegMove (cfg : RxConfig) (s : RxState n) (i : Fin n) : RxAction n → RxState n → Prop
  | read (bs : List UInt8) (w : RxWorker) : (s.workers i).pc = .payload →
      bs.length ≤ (s.workers i).remainder → (s.workers i).payloadRead cfg bs = .ok w →
      LegMove cfg s i (.read i bs) (s.setWorker i w)
  | unread (bs : List UInt8) (a : RxAction n) (e : Exit) : (s.workers i).pc = .payload →
      bs.length ≤ (s.workers i).remainder → a.reads i = [bs] →
      LegMove cfg s i a { s with exited := some e }
  | ended (a : RxAction n) (e : Exit) : a.reads i = [] →
      LegMove cfg s i a { s with exited := some e }
  | await (a : RxAction n) (pc : RxPc) (mutex : Option (RxThread n)) : a.reads i = [] →
      (s.workers i).pc.waiting = true → pc.waiting = true →
      LegMove cfg s i a { s.goto i pc with rxmutex := mutex }
  | retire (a : RxAction n) : a.reads i = [] → (s.workers i).pc.waiting = true →
      (s.workers i).restartme = true → LegMove cfg s i a { s.goto i .inner with rxmutex := none }
  | enter (a : RxAction n) : a.reads i = [] → (s.workers i).pc.waiting = true →
      (s.workers i).restartme = false →
      LegMove cfg s i a { s.goto i (.write 0) with rxmutex := none }
  | writeSome (pos count : ℕ) : (s.workers i).pc = .write pos →
      pos+count < (s.workers i).packet.payload.length →
      LegMove cfg s i (.write i count) { s.goto i (.write (pos+count)) with
        output := s.output ++ ((s.workers i).packet.payload.drop pos).take count }
  | writeAll (pos count : ℕ) : (s.workers i).pc = .write pos →
      pos+count = (s.workers i).packet.payload.length →
      LegMove cfg s i (.write i count) { s.goto i .opcode with
        output := s.output ++ ((s.workers i).packet.payload.drop pos).take count
        written := s.written++[(s.workers i).packet] }

theorem rxStep_onLeg {s t : RxState n} {a : RxAction n} {i : Fin n} (ha : a.worker = some i)
    (hpc : (s.workers i).pc.onLeg = true) (h : rxStep cfg s a = some t) : LegMove cfg s i a t := by
  simp only [rxStep] at h
  split at h
  · cases h
  cases a <;> simp only [RxAction.worker,Option.some.injEq,reduceCtorEq] at ha <;> subst ha
  case run =>
    cases hat : (s.workers _).pc <;> rw [hat] at hpc <;> simp only [rxRun,hat] at h
    case lock | relock =>
      split at h <;> cases h
      exact .await _ _ _ rfl (by rw [hat]; rfl) rfl
    case test =>
      cases h
      exact .await _ _ s.rxmutex rfl (by rw [hat]; rfl) (by split <;> rfl)
    case wait =>
      cases h
      exact .await _ _ _ rfl (by rw [hat]; rfl) rfl
    case unlock =>
      cases h
      cases hrestart : (s.workers _).restartme
      · exact .enter _ rfl (by rw [hat]; rfl) hrestart
      · exact .retire _ rfl (by rw [hat]; rfl) hrestart
    all_goals first | exact absurd hpc (by decide) | cases h
  case accept | acceptFailed | readv | readvFailed =>
    simp only at h
    split at h <;> cases h
    simp_all [RxPc.onLeg]
  case read i bs =>
    simp only at h
    split at h <;> cases h
    rename_i hread
    cases hw : (s.workers i).payloadRead cfg bs with
    | ok w => exact .read bs w hread.1 (le_min_iff.mp hread.2).1 hw
    | error e =>
      exact .unread bs _ e hread.1 (le_min_iff.mp hread.2).1 (by simp [RxAction.reads])
  case readFailed i =>
    simp only at h
    split at h <;> cases h
    exact .unread [] _ _ ‹_› (Nat.zero_le _) (by simp [RxAction.reads])
  case wake i =>
    simp only at h
    split at h <;> cases h
    rename_i hat
    exact .await _ _ s.rxmutex rfl (by rw [hat]; rfl) rfl
  case write i count =>
    simp only [rxWrite] at h
    split at h
    · rename_i pos hat
      split at h
      · cases h
      · split at h <;> cases h
        · exact .writeSome pos count hat ‹_›
        · exact .writeAll pos count hat (by omega)
    · cases h
  case writeShort i =>
    simp only at h
    split at h
    · split at h <;> cases h
      exact .ended _ _ rfl
    · cases h
  case writeFailed i =>
    simp only at h
    split at h <;> cases h
    exact .ended _ _ rfl

/-- A step of a worker before its `writev` has returned touches the sequencer in no way, and the
output only in the `writev`. -/
theorem LegMove.keeps {s t : RxState n} {a : RxAction n} {i : Fin n} (h : LegMove cfg s i a t) :
    t.nextLeg = s.nextLeg ∧ t.doneMbox = s.doneMbox ∧ t.grxSavedChecksum = s.grxSavedChecksum ∧
      (t.output = s.output ∨ ∃ count, a = .write i count) := by
  cases h with
  | writeSome pos count | writeAll pos count => exact ⟨rfl,rfl,rfl,.inr ⟨count,rfl⟩⟩
  | _ => exact ⟨rfl,rfl,rfl,.inl rfl⟩

namespace LegRun

/-- What the worker has written, at each place of the leg. -/
def Written (size : ℕ) (l : LegRun n) : RxPc → Prop
  | .write pos => l.taken.length = size ∧ l.wrote = l.taken.take pos
  | .opcode => l.taken.length = size ∧ l.wrote = l.taken
  | _ => l.wrote = []

/-- How much of the payload has been taken, at each place of the leg. -/
def Received (size : ℕ) (l : LegRun n) (w : RxWorker) : Prop :=
  match w.pc with
  | .payload => w.cursor = l.taken.length ∧ w.cursor+w.remainder = size ∧ 0 < w.remainder ∧
    w.restartme = false ∧ l.reads.length ≤ l.taken.length
  | .write pos => l.taken.length = size ∧ pos ≤ size
  | .opcode => True
  | .inner => w.restartme = true
  | pc => pc.waiting = true ∧ (w.restartme = false → l.taken.length = size)

/-- The worker's locals while the process runs. -/
structure Holds (buffer : Memory) (header : Millipacket) (l : LegRun n) (w : RxWorker) : Prop where
  pkt : w.pkt = header
  fits : header.size.toNat ≤ kfootsize
  stored : w.buffer = buffer.store 0 l.taken
  received : l.Received header.size.toNat w

/-- The invariant of a leg. -/
structure OnTrack (buffer : Memory) (header : Millipacket) (i : Fin n) (l : LegRun n) : Prop where
  bounded : l.taken.length ≤ header.size.toNat
  finite : l.reads.length ≤ header.size.toNat
  written : l.Written header.size.toNat (l.rx.workers i).pc
  holds : l.rx.exited = none → l.Holds buffer header (l.rx.workers i)

variable {i : Fin n} {buffer : Memory} {header : Millipacket}

@[simp] theorem follow_rx (l : LegRun n) (a : RxAction n) (t : RxState n) :
    (l.follow i a t).rx = t := rfl

theorem follow_of_quiet {l : LegRun n} {a : RxAction n} (t : RxState n) (hreads : a.reads i = [])
    (hout : a.worker = some i → t.output = l.rx.output) :
    (l.follow i a t).taken = l.taken ∧ (l.follow i a t).reads = l.reads ∧
      (l.follow i a t).wrote = l.wrote := by
  refine ⟨by simp [taken,follow,hreads],by simp [follow,hreads],?_⟩
  by_cases hown : a.worker = some i
  · simp [follow,hown,hout hown]
  · simp [follow,hown]

theorem written_of_waiting {size : ℕ} {l : LegRun n} {pc : RxPc} (h : pc.waiting = true) :
    l.Written size pc ↔ l.wrote = [] := by
  cases pc <;> first | rfl | cases h

theorem received_of_waiting {size : ℕ} {l : LegRun n} {w : RxWorker} (h : w.pc.waiting = true) :
    l.Received size w ↔ (w.restartme = false → l.taken.length = size) := by
  unfold Received
  cases hpc : w.pc <;> simp_all [RxPc.waiting]

/-- The history is the same, and the worker has moved on or the process has ended. -/
theorem OnTrack.of_same {l m : LegRun n} (hl : l.OnTrack buffer header i)
    (hreads : m.reads = l.reads)
    (hwritten : l.Written header.size.toNat (l.rx.workers i).pc →
      m.Written header.size.toNat (m.rx.workers i).pc)
    (hholds : m.rx.exited = none → l.Holds buffer header (l.rx.workers i) →
      m.Holds buffer header (m.rx.workers i)) (halive : l.rx.exited = none) :
    m.OnTrack buffer header i := by
  have htaken : m.taken = l.taken := by rw [taken,hreads]; rfl
  exact ⟨htaken ▸ hl.bounded,hreads ▸ hl.finite,hwritten hl.written,
    fun hm => hholds hm (hl.holds halive)⟩

theorem OnTrack.other {l : LegRun n} {a : RxAction n} {t : RxState n}
    (hl : l.OnTrack buffer header i) (ha : a.worker ≠ some i) (halive : l.rx.exited = none)
    (h : rxStep cfg l.rx a = some t) : (l.follow i a t).OnTrack buffer header i := by
  have hreads : a.reads i = [] := by
    cases a <;> simp only [RxAction.reads,ite_eq_right_iff,reduceCtorEq] <;>
      exact fun hij => ha (by rw [hij]; rfl)
  obtain ⟨htaken,hsame,hwrote⟩ := follow_of_quiet (l := l) t hreads fun hown => absurd hown ha
  refine hl.of_same hsame ?_ ?_ halive
  · intro hwritten
    rw [follow_rx]
    rcases rxStep_other ha h with hworker | ⟨hasleep,hworker⟩
    · rw [hworker]
      simpa only [Written,htaken,hwrote] using hwritten
    · rw [hasleep] at hwritten
      rw [hworker]
      simpa only [Written,hwrote] using hwritten
  · rintro - ⟨hpkt,hfits,hstored,hreceived⟩
    rw [follow_rx]
    rcases rxStep_other ha h with hworker | ⟨hasleep,hworker⟩
    · rw [hworker]
      refine ⟨hpkt,hfits,by rw [hstored,htaken],?_⟩
      simpa only [Received,htaken,hsame] using hreceived
    · have hwaiting : (l.rx.workers i).pc.waiting = true := by rw [hasleep]; rfl
      have hwhole := (received_of_waiting hwaiting).mp hreceived
      rw [hworker]
      refine ⟨hpkt,hfits,by rw [hstored,htaken],(received_of_waiting rfl).mpr ?_⟩
      rwa [htaken]

/-- The bytes of one more `read`. -/
theorem taken_read (l : LegRun n) (bs : List UInt8) (t : RxState n) :
    (l.follow i (.read i bs) t).taken = l.taken++bs := by
  simp [taken,follow,RxAction.reads]

theorem OnTrack.read {l : LegRun n} {bs : List UInt8} {w : RxWorker}
    (hl : l.OnTrack buffer header i) (hpc : (l.rx.workers i).pc = .payload)
    (hbs : bs.length ≤ (l.rx.workers i).remainder) (halive : l.rx.exited = none)
    (hw : (l.rx.workers i).payloadRead cfg bs = .ok w) :
    (l.follow i (.read i bs) (l.rx.setWorker i w)).OnTrack buffer header i := by
  obtain ⟨hpkt,hfits,hstored,hreceived⟩ := hl.holds halive
  simp only [Received,hpc] at hreceived
  obtain ⟨hcursor,hsum,hpos,hrestart,hcount⟩ := hreceived
  have hwritten := hl.written
  simp only [hpc,Written] at hwritten
  have htaken := l.taken_read (i := i) bs (l.rx.setWorker i w)
  have hreads : (l.follow i (.read i bs) (l.rx.setWorker i w)).reads = l.reads++[bs] := by
    simp [follow,RxAction.reads]
  have hself : (l.follow i (.read i bs) (l.rx.setWorker i w)).rx.workers i = w := by
    simp
  have hwrote : (l.follow i (.read i bs) (l.rx.setWorker i w)).wrote = [] := by
    simp [follow,RxAction.worker,RxState.setWorker,hwritten]
  have hstore : (l.rx.workers i).buffer.store (l.rx.workers i).cursor bs =
      buffer.store 0 (l.taken++bs) := by
    have happend := Memory.store_append buffer 0 l.taken bs
    rwa [Nat.zero_add,← hstored,← hcursor] at happend
  generalize l.follow i (.read i bs) (l.rx.setWorker i w) = m at htaken hreads hself hwrote ⊢
  refine ⟨?_,?_,?_,fun _ => ?_⟩
  · rw [htaken,List.length_append]
    omega
  · rw [hreads,List.length_append,List.length_singleton]
    omega
  · have hplace : w.pc = .payload ∨ w.pc = .lock := by
      obtain ⟨-,hseq⟩ | ⟨-,v,rfl,⟨-,hseq⟩ | ⟨-,rfl⟩⟩ := RxWorker.payloadRead_cases hw
      · exact .inr (by rw [RxWorker.sequence_eq hseq])
      · exact .inr (by rw [RxWorker.sequence_eq hseq])
      · exact .inl hpc
    rw [hself]
    rcases hplace with hplace | hplace <;> rw [hplace] <;> exact hwrote
  · rw [hself]
    obtain ⟨rfl,hseq⟩ | ⟨hne,v,rfl,⟨hzero,hseq⟩ | ⟨hmore,rfl⟩⟩ := RxWorker.payloadRead_cases hw
    · rw [RxWorker.sequence_eq hseq]
      refine ⟨hpkt,hfits,by rw [htaken,List.append_nil]; exact hstored,
        (received_of_waiting rfl).mpr ?_⟩
      intro h
      cases h
    · rw [RxWorker.sequence_eq hseq]
      refine ⟨hpkt,hfits,by rw [htaken]; exact hstore,(received_of_waiting rfl).mpr fun _ => ?_⟩
      simp only at hzero
      rw [htaken,List.length_append]
      omega
    · have hlen : 0 < bs.length := List.length_pos_of_ne_nil hne
      refine ⟨hpkt,hfits,by rw [htaken]; exact hstore,?_⟩
      simp only at hmore
      simp only [Received,hpc,htaken,hreads,List.length_append,List.length_singleton]
      exact ⟨by omega,by omega,hmore,hrestart,by omega⟩

/-- Some bytes more of the payload go to the output. -/
theorem OnTrack.wrote_write {l : LegRun n} {pos : ℕ} (count : ℕ) {t : RxState n}
    (hl : l.OnTrack buffer header i) (hpc : (l.rx.workers i).pc = .write pos)
    (halive : l.rx.exited = none)
    (hout : t.output = l.rx.output++((l.rx.workers i).packet.payload.drop pos).take count) :
    l.taken.length = header.size.toNat ∧ (l.rx.workers i).packet.payload = l.taken ∧
      (l.follow i (.write i count) t).wrote = l.taken.take (pos+count) := by
  obtain ⟨hpkt,-,hstored,-⟩ := hl.holds halive
  have hwritten := hl.written
  simp only [hpc,Written] at hwritten
  have hpayload : (l.rx.workers i).packet.payload = l.taken := by
    show (l.rx.workers i).buffer.read (l.rx.workers i).pkt.size.toNat = l.taken
    rw [hpkt,hstored,← hwritten.1,Memory.read_store_zero]
  refine ⟨hwritten.1,hpayload,?_⟩
  simp only [follow,RxAction.worker,if_true,hout,List.drop_left,hpayload,hwritten.2]
  rw [List.take_add]

theorem OnTrack.own {l : LegRun n} {a : RxAction n} {t : RxState n}
    (hl : l.OnTrack buffer header i) (ha : a.worker = some i) (halive : l.rx.exited = none)
    (h : LegMove cfg l.rx i a t) : (l.follow i a t).OnTrack buffer header i := by
  have hself (pc : RxPc) : (l.rx.goto i pc).workers i = { l.rx.workers i with pc := pc } := by
    simp [RxState.goto,RxState.setWorker]
  cases h with
  | read bs w hpc hbs hw => exact hl.read hpc hbs halive hw
  | unread bs _ e hpc hbs hreads =>
    obtain ⟨-,-,-,hreceived⟩ := hl.holds halive
    simp only [Received,hpc] at hreceived
    have hwritten := hl.written
    simp only [hpc,Written] at hwritten
    refine ⟨?_,?_,?_,fun hm => by cases hm⟩
    · simp only [taken,follow,hreads,List.flatten_append,List.flatten_singleton,List.length_append]
      have hcursor := hreceived.1
      unfold taken at hcursor
      omega
    · simp only [follow,hreads,List.length_append,List.length_singleton]
      omega
    · rw [follow_rx,show ({ l.rx with exited := some e } : RxState n).workers i = l.rx.workers i from
        rfl,hpc]
      simp [Written,follow,hwritten]
  | ended _ e hreads =>
    obtain ⟨htaken,hsame,hwrote⟩ := follow_of_quiet (l := l) { l.rx with exited := some e } hreads
      fun _ => rfl
    refine hl.of_same hsame (fun hwritten => ?_) (fun hm => by cases hm) halive
    simpa only [Written,htaken,hwrote,follow_rx] using hwritten
  | await _ pc mutex hreads hfrom hto =>
    obtain ⟨htaken,hsame,hwrote⟩ := follow_of_quiet (l := l)
      { l.rx.goto i pc with rxmutex := mutex } hreads fun _ => rfl
    refine hl.of_same hsame (fun hwritten => ?_) (fun _ hholds => ?_) halive
    · rw [follow_rx,hself,written_of_waiting hto,hwrote]
      exact (written_of_waiting hfrom).mp hwritten
    · obtain ⟨hpkt,hfits,hstored,hreceived⟩ := hholds
      rw [follow_rx,hself]
      refine ⟨hpkt,hfits,by rw [hstored,htaken],(received_of_waiting hto).mpr ?_⟩
      rw [htaken]
      exact (received_of_waiting hfrom).mp hreceived
  | retire _ hreads hfrom hrestart =>
    obtain ⟨htaken,hsame,hwrote⟩ := follow_of_quiet (l := l)
      { l.rx.goto i .inner with rxmutex := none } hreads fun _ => rfl
    refine hl.of_same hsame (fun hwritten => ?_) (fun _ hholds => ?_) halive
    · rw [follow_rx,hself]
      exact hwrote.trans ((written_of_waiting hfrom).mp hwritten)
    · obtain ⟨hpkt,hfits,hstored,-⟩ := hholds
      rw [follow_rx,hself]
      exact ⟨hpkt,hfits,by rw [hstored,htaken],hrestart⟩
  | enter _ hreads hfrom hrestart =>
    obtain ⟨htaken,hsame,hwrote⟩ := follow_of_quiet (l := l)
      { l.rx.goto i (.write 0) with rxmutex := none } hreads fun _ => rfl
    have hwhole := (received_of_waiting hfrom).mp (hl.holds halive).received hrestart
    refine hl.of_same hsame (fun hwritten => ?_) (fun _ hholds => ?_) halive
    · rw [follow_rx,hself]
      refine ⟨by rw [htaken,hwhole],?_⟩
      rw [hwrote,(written_of_waiting hfrom).mp hwritten,List.take_zero]
    · obtain ⟨hpkt,hfits,hstored,-⟩ := hholds
      rw [follow_rx,hself]
      exact ⟨hpkt,hfits,by rw [hstored,htaken],by rw [htaken,hwhole],Nat.zero_le _⟩
  | writeSome pos count hpc hlt =>
    obtain ⟨hwhole,hpayload,hwrote⟩ := hl.wrote_write count hpc halive
      (t := { l.rx.goto i (.write (pos+count)) with
        output := l.rx.output++((l.rx.workers i).packet.payload.drop pos).take count }) rfl
    rw [hpayload] at hlt
    refine hl.of_same (by simp [follow,RxAction.reads]) (fun _ => ?_) (fun _ hholds => ?_) halive
    · rw [follow_rx,hself]
      exact ⟨by simpa [taken,follow,RxAction.reads] using hwhole,
        by simpa [taken,follow,RxAction.reads] using hwrote⟩
    · obtain ⟨hpkt,hfits,hstored,-⟩ := hholds
      rw [follow_rx,hself]
      refine ⟨hpkt,hfits,?_,?_⟩
      · simpa [taken,follow,RxAction.reads] using hstored
      · simp only [Received,taken,follow,RxAction.reads,List.append_nil]
        unfold taken at hwhole hlt
        omega
  | writeAll pos count hpc hlast =>
    obtain ⟨hwhole,hpayload,hwrote⟩ := hl.wrote_write count hpc halive
      (t := { l.rx.goto i .opcode with
        output := l.rx.output++((l.rx.workers i).packet.payload.drop pos).take count
        written := l.rx.written++[(l.rx.workers i).packet] }) rfl
    rw [hpayload] at hlast
    rw [hlast,List.take_length] at hwrote
    refine hl.of_same (by simp [follow,RxAction.reads]) (fun _ => ?_) (fun _ hholds => ?_) halive
    · rw [follow_rx,hself]
      exact ⟨by simpa [taken,follow,RxAction.reads] using hwhole,
        by simpa [taken,follow,RxAction.reads] using hwrote⟩
    · obtain ⟨hpkt,hfits,hstored,-⟩ := hholds
      rw [follow_rx,hself]
      exact ⟨hpkt,hfits,by simpa [taken,follow,RxAction.reads] using hstored,trivial⟩

variable {before : RxState n} {junk : Millipacket}

theorem OnTrack.init {l : LegRun n} (h : (legMachine cfg i before junk header).init l) :
    l.OnTrack (before.workers i).buffer header i := by
  obtain ⟨hrestart,hstep,hreads,hwrote⟩ := h
  have htaken : l.taken = [] := by simp [taken,hreads]
  obtain ⟨hpc,-,hsettled⟩ := rxStep_readv hstep
  have hbuffer : (before.workers i).buffer = (before.workers i).buffer.store 0 l.taken := by
    funext k
    simp [htaken,Memory.store]
  refine ⟨by simp [htaken],by simp [hreads],?_,fun halive => ?_⟩
  · have hplace : (l.rx.workers i).pc = .header ∨ (l.rx.workers i).pc = .payload ∨
        (l.rx.workers i).pc = .lock := by
      cases hsettled with
      | ended e _ ht => exact .inl (by rw [ht]; exact hpc)
      | ok w hw ht _ =>
        rw [ht,RxState.setWorker_self]
        obtain ⟨v,-,⟨-,hseq⟩ | ⟨-,rfl⟩⟩ := RxWorker.headerRead_cases hw
        · exact .inr (.inr (by rw [RxWorker.sequence_eq hseq]))
        · exact .inr (.inl rfl)
    rcases hplace with hplace | hplace | hplace <;> rw [hplace] <;> exact hwrote
  · cases hsettled with
    | ended e _ ht =>
      rw [ht] at halive
      cases halive
    | ok w hw ht _ =>
      have hfits : header.size.toNat ≤ kfootsize := by
        unfold RxWorker.headerRead at hw
        simp only [Millipacket.overlay_bytes] at hw
        split at hw
        · cases hw
        · omega
      have hself : l.rx.workers i = w := by rw [ht,RxState.setWorker_self]
      rw [hself]
      obtain ⟨v,rfl,⟨hzero,hseq⟩ | ⟨hpos,rfl⟩⟩ := RxWorker.headerRead_cases hw
      · simp only [Millipacket.overlay_bytes] at hzero
        rw [RxWorker.sequence_eq hseq]
        exact ⟨Millipacket.overlay_bytes _ _,hfits,hbuffer,
          (received_of_waiting rfl).mpr fun _ => by rw [htaken,hzero]; rfl⟩
      · simp only [Millipacket.overlay_bytes] at hpos
        refine ⟨Millipacket.overlay_bytes _ _,hfits,hbuffer,?_⟩
        simp [Received,htaken,hreads,hrestart,hpos]

theorem OnTrack.reachable {ok : LegRun n → RxAction n → Prop} {l : LegRun n}
    (hl : Reachable (legMachine cfg i before junk header) ok l) :
    l.OnTrack (before.workers i).buffer header i := by
  refine hl.invariant (fun l h => .init h) ?_
  rintro l a m - htrack - hstep
  simp only [legMachine,legStep] at hstep
  split at hstep
  · cases hstep
  · rename_i hleg
    obtain ⟨t,ht,rfl⟩ := Option.map_eq_some_iff.mp hstep
    have halive := rxStep_alive ht
    by_cases hown : a.worker = some i
    · have hpc : (l.rx.workers i).pc.onLeg = true := by
        simpa [hown] using hleg
      exact htrack.own hown halive (rxStep_onLeg hown hpc ht)
    · exact htrack.other hown halive ht

end LegRun

/-- What is guaranteed of a leg from its header on. Nothing is taken behind its last byte and
nothing stored behind its last place; the loop always can go on and makes at most one `read`
for each byte; what `writev` gets, and has written when it returns, are the bytes taken, all of
them; up to then neither the output nor the sequencer has been touched. -/
structure Reassembled (cfg : RxConfig) (i : Fin n) (buffer : Memory) (header : Millipacket)
    (l : LegRun n) : Prop where
  bounded : l.taken.length ≤ header.size.toNat
  finite : l.reads.length ≤ header.size.toNat
  fits : l.rx.exited = none → header.size.toNat ≤ kfootsize
  stored : l.rx.exited = none → (l.rx.workers i).buffer.read l.taken.length = l.taken
  outside : l.rx.exited = none → ∀ k, header.size.toNat ≤ k →
    (l.rx.workers i).buffer k = buffer k
  reading : l.rx.exited = none → (l.rx.workers i).pc = .payload →
    0 < min (l.rx.workers i).remainder maxbsize ∧
      l.taken.length+min (l.rx.workers i).remainder maxbsize ≤ header.size.toNat ∧
      ∀ bs : List UInt8, bs.length ≤ min (l.rx.workers i).remainder maxbsize →
        (legStep cfg i l (.read i bs)).isSome
  places : l.rx.exited = none → (l.rx.workers i).pc.onLeg = true ∨
    (l.rx.workers i).pc = .opcode ∨ (l.rx.workers i).pc = .inner ∧ (l.rx.workers i).restartme = true
  writing : l.rx.exited = none → ∀ pos, (l.rx.workers i).pc = .write pos →
    (l.rx.workers i).packet.payload = l.taken
  written : l.Written header.size.toNat (l.rx.workers i).pc
  keeps : ∀ a m, a.worker = some i → legStep cfg i l a = some m → m.rx.nextLeg = l.rx.nextLeg ∧
    m.rx.doneMbox = l.rx.doneMbox ∧ m.rx.grxSavedChecksum = l.rx.grxSavedChecksum ∧
      (m.rx.output = l.rx.output ∨ ∃ count, a = .write i count)

section Leg

variable {i : Fin n} {before : RxState n} {junk header : Millipacket} {l : LegRun n}

/-- For every header received whole, every state of the receiver before it, every result of
every `read` and every interleaving with the other threads. -/
theorem reassembled_of_reachable (hl : Reachable (legMachine cfg i before junk header) anyStep l) :
    Reassembled cfg i (before.workers i).buffer header l := by
  have htrack := LegRun.OnTrack.reachable hl
  refine ⟨htrack.bounded,htrack.finite,fun halive => (htrack.holds halive).fits,
    fun halive => ?_,fun halive k hk => ?_,fun halive hpc => ?_,fun halive => ?_,
    fun halive pos hpc => ?_,htrack.written,fun a m hown hstep => ?_⟩
  · rw [(htrack.holds halive).stored,Memory.read_store_zero]
  · rw [(htrack.holds halive).stored]
    exact Memory.store_of_ge (by have hle := htrack.bounded; omega)
  · have hreceived := (htrack.holds halive).received
    simp only [LegRun.Received,hpc] at hreceived
    have hmax : 0 < maxbsize := by decide
    refine ⟨by omega,by omega,fun bs hbs => ?_⟩
    simp [legStep,rxStep,halive,hpc,hbs,RxPc.onLeg]
  · have hreceived := (htrack.holds halive).received
    unfold LegRun.Received at hreceived
    cases hpc : (l.rx.workers i).pc <;> simp_all [RxPc.onLeg,RxPc.waiting]
  · have hwhole := htrack.written
    simp only [LegRun.Written,hpc] at hwhole
    obtain ⟨hpkt,-,hstored,-⟩ := htrack.holds halive
    show (l.rx.workers i).buffer.read (l.rx.workers i).pkt.size.toNat = l.taken
    rw [hpkt,hstored,← hwhole.1,Memory.read_store_zero]
  · unfold legStep at hstep
    split at hstep
    · cases hstep
    · rename_i hleg
      obtain ⟨t,ht,rfl⟩ := Option.map_eq_some_iff.mp hstep
      exact (rxStep_onLeg hown (by simpa [hown] using hleg) ht).keeps

/-- On a leg the worker's `read` is the pass of the loop with its signed cursors: none of its
assertions fires. -/
theorem payloadRead_pass (hl : Reachable (legMachine cfg i before junk header) anyStep l)
    (halive : l.rx.exited = none) (hpc : (l.rx.workers i).pc = .payload) {bs : List UInt8}
    (hbs : bs.length ≤ (l.rx.workers i).remainder) :
    (l.rx.workers i).payloadRead cfg bs =
      match (l.rx.workers i).payloadLoop.pass (.bytes bs) with
      | .again p => .ok ({ l.rx.workers i with got := (l.rx.workers i).got++bs }.inLoop p)
      | .leave p =>
        ({ l.rx.workers i with got := (l.rx.workers i).got++bs }.inLoop p).sequence cfg
      | .ended e => .error e := by
  obtain ⟨-,hfits,-,hreceived⟩ := (LegRun.OnTrack.reachable hl).holds halive
  simp only [LegRun.Received,hpc] at hreceived
  obtain ⟨-,hsum,-,hrestart,-⟩ := hreceived
  exact RxWorker.payloadRead_of_pass hrestart (hsum ▸ hfits) hbs

end Leg

/-- A worker at a header; its buffer is full of an earlier leg. -/
def atHeader : RxState 1 :=
  (rxInit 1).setWorker 0 { RxWorker.launched with pc := .header, buffer := fun _ => 9 }

/-- Three bytes that arrive as two and one. -/
def threeByteHeader : Millipacket := ⟨preambleCannonUl,0,3,0,feedMore⟩

/-- The three bytes are written, and the nines are not. -/
theorem reassembled_shortReads :
    ∃ l₀ l, (legMachine .plain 0 atHeader ⟨0,0,0,0,0⟩ threeByteHeader).init l₀ ∧
      l ∈ exec (legMachine .plain 0 atHeader ⟨0,0,0,0,0⟩ threeByteHeader) anyStep l₀
        [.read 0 [1,2],.read 0 [3],.run 0,.run 0,.run 0,.write 0 3] ∧
      l.rx.output = [1,2,3] ∧ l.wrote = l.taken ∧
      Reassembled .plain 0 (fun _ => 9) threeByteHeader l := by
  have hinit : ∃ s ∈ rxStep .plain atHeader (.readv 0 ⟨0,0,0,0,0⟩ threeByteHeader.bytes),
      ∃ l ∈ exec (legMachine .plain 0 atHeader ⟨0,0,0,0,0⟩ threeByteHeader) anyStep ⟨s,[],[]⟩
        [.read 0 [1,2],.read 0 [3],.run 0,.run 0,.run 0,.write 0 3],
      l.rx.output = [1,2,3] ∧ l.wrote = l.taken := by decide
  obtain ⟨s,hs,l,hl,hout,hwrote⟩ := hinit
  have h0 : (legMachine .plain 0 atHeader ⟨0,0,0,0,0⟩ threeByteHeader).init ⟨s,[],[]⟩ :=
    ⟨rfl,hs,rfl,rfl⟩
  exact ⟨⟨s,[],[]⟩,l,h0,hl,hout,hwrote,reassembled_of_reachable (reachable_exec (.init h0) hl)⟩

end Viamillipede
