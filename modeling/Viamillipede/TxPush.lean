import Viamillipede.TxControl

/-! `txpush` as one function of the packet it is given and of what `writev` returns.

The worker threads of `Tx` take the same function step by step; `runAlone` follows one
worker through several of its steps, and `exec_txpush` ties the two together. -/
namespace Viamillipede

open Bytes Transition

/-- What `writev` returns at line 160 when it is asked to write `asked` bytes: a count, or -1
with an error number. -/
inductive WritevResult (asked : ℕ)
  | wrote (n : ℕ) (le : n ≤ asked)
  | failed (errno : ℕ) (ne : errno ≠ 0)

namespace WritevResult

variable {asked : ℕ}

/-- The bytes that have been written. -/
def count : WritevResult asked → ℕ
  | wrote n _ => n
  | failed _ _ => 0

/-- The error number, which a `writev` that writes leaves alone. -/
def errno : WritevResult asked → ℕ
  | wrote _ _ => 0
  | failed errno _ => errno

/-- The value of the `int` that the result is assigned to. -/
def writeret : WritevResult asked → ℤ
  | wrote n _ => toInt (UInt64.ofNat n)
  | failed _ _ => -1

theorem count_le (r : WritevResult asked) : r.count ≤ asked := by
  cases r with
  | wrote n le => exact le
  | failed => exact Nat.zero_le _

theorem eq_wrote {r : WritevResult asked} (hasked : 0 < asked) (h : r.count = asked) :
    r = .wrote asked le_rfl := by
  cases r with
  | wrote n =>
    obtain rfl : n = asked := h
    rfl
  | failed => exact absurd h hasked.ne

end WritevResult

/-- What a call of `txpush` comes to: it returns, or the process ends in it. `sent` are the
bytes that `writev` has taken. -/
inductive Push
  | returned (retcode : ℕ) (w : TxWorker) (sent : List UInt8)
  | exited (e : Exit) (sent : List UInt8)

namespace TxWorker

/-- The bytes that line 160 asks to be written: the header and `pkt.size` more. -/
def asked (w : TxWorker) : ℕ := Millipacket.sizeof+w.pkt.size.toNat

/-- Lines 142 to 158: the packet is gathered, the state is 'P'. `nap` is the error number of
the `usleep` of line 156, 0 unless a signal has ended it. -/
def loaded (cfg : TxConfig) (w : TxWorker) (nap : ℕ) : TxWorker :=
  { w with
    state := .pushing
    retcode := 1
    writeremainder := toInt w.pkt.size
    buffer := cfg.pushBuffer w.buffer w.pkt.legId
    iovLen := w.pkt.size.toNat
    errno := w.errno || cfg.gdelayUs != 0 && nap != 0 }

/-- Lines 169 to 179: drop the lease on the leg, or keep it and be dead. -/
def leased (w : TxWorker) : TxWorker :=
  if w.retcode = 1 then { w with pkt := { w.pkt with size := 0 }, state := .idle }
  else { w with state := .disconnected }

@[simp] theorem gathered_loaded (cfg : TxConfig) (w : TxWorker) (nap : ℕ) :
    (w.loaded cfg nap).gathered =
      w.pkt.bytes ++ (cfg.pushBuffer w.buffer w.pkt.legId).read w.pkt.size.toNat := rfl

/-- The whole packet has been sent: its header and, out of the buffer to be pushed, as many
bytes as it announces. -/
def SentWhole (cfg : TxConfig) (w : TxWorker) (sent : List UInt8) : Prop :=
  ∃ payload, payload <+: (cfg.pushBuffer w.buffer w.pkt.legId).read kfootsize ∧
    payload.length = w.pkt.size.toNat ∧ sent = w.pkt.bytes ++ payload

end TxWorker

/-- `txpush`, lines 135 to 182. `retcode` is 1 from line 139 on; `checkperror` at 163 ends the
process for whatever is in `errno` by then. -/
def txpush (cfg : TxConfig) (w : TxWorker) (nap : ℕ) (r : WritevResult w.asked) : Push :=
  if (kfootsize : ℤ) < toInt w.pkt.size then .exited (.assertion 147) []
  else
    let v := w.loaded cfg nap
    let sent := v.gathered.take r.count
    if v.errno ∨ r.errno ≠ 0 then .exited (.checkperror 163) sent
    else if v.WroteAll r.writeret then
      .returned v.retcode { v with writeremainder := 0 }.leased sent
    else .exited (.assertion 164) sent

/-- "return 1 on success, 0 if retry is needed": all is written and the worker is idle, or the
worker is dead and still has the leg. -/
def HonoursContract (cfg : TxConfig) (w : TxWorker) (nap : ℕ) (r : WritevResult w.asked) : Prop :=
  ∃ retcode v sent, txpush cfg w nap r = .returned retcode v sent ∧
    (retcode = 1 ∧ w.SentWhole cfg sent ∧ v.state = .idle ∧ v.pkt.size = 0 ∨
      retcode = 0 ∧ v.state = .disconnected ∧ v.pkt.legId = w.pkt.legId ∧
        v.pkt.size = w.pkt.size ∧ v.pkt.opcode = w.pkt.opcode ∧
        v.pkt.checksum = w.pkt.checksum ∧ v.buffer = w.buffer)

namespace TxWorker

variable {cfg : TxConfig} {w : TxWorker} {nap : ℕ}

theorem errno_loaded : (w.loaded cfg nap).errno = false ↔
    w.errno = false ∧ (cfg.gdelayUs = 0 ∨ nap = 0) := by
  cases herrno : w.errno <;> simp [loaded,herrno]
  exact or_iff_not_imp_left.symm

theorem wroteAll_loaded (hsize : w.pkt.size.toNat ≤ kfootsize) :
    (w.loaded cfg nap).WroteAll (toInt (UInt64.ofNat w.asked)) := by
  have hint := toInt_of_le hsize
  have hfoot : Millipacket.sizeof+kfootsize < 2^31 := by decide
  have hrem : (w.loaded cfg nap).writeremainder = w.pkt.size.toNat := hint
  rw [wroteAll_iff (by omega) (by omega) (by simp only [asked]; omega),hrem,asked]
  push_cast
  exact add_comm _ _

theorem sentWhole_gathered (hsize : w.pkt.size.toNat ≤ kfootsize) :
    w.SentWhole cfg (w.loaded cfg nap).gathered := by
  refine ⟨_,?_,Memory.read_length _ _,gathered_loaded cfg w nap⟩
  rw [← Memory.read_take _ hsize]
  exact List.take_prefix _ _

/-- The buffer holds no payload of more than `kfootsize` bytes. -/
theorem SentWhole.size_le {sent : List UInt8} (h : w.SentWhole cfg sent) :
    w.pkt.size.toNat ≤ kfootsize ∧ sent.length = w.asked := by
  obtain ⟨payload,hpayload,hlen,rfl⟩ := h
  have hle := hpayload.length_le
  rw [Memory.read_length] at hle
  exact ⟨hlen ▸ hle,by simp [asked,hlen]⟩

end TxWorker

/-- For any packet and any outcome of the calls, `txpush` does what its comment says if and only
if `writev` has taken all of a packet that fits in a buffer and nothing had been left in
`errno`, neither before the call nor by the `usleep` in it. -/
theorem honoursContract_iff (cfg : TxConfig) (w : TxWorker) (nap : ℕ) (r : WritevResult w.asked) :
    HonoursContract cfg w nap r ↔
      w.pkt.size.toNat ≤ kfootsize ∧ r = .wrote w.asked le_rfl ∧
        w.errno = false ∧ (cfg.gdelayUs = 0 ∨ nap = 0) := by
  constructor
  · rintro ⟨retcode,v,sent,hpush,hend⟩
    simp only [txpush] at hpush
    split at hpush
    · cases hpush
    · split at hpush
      · cases hpush
      · rename_i herrno
        split at hpush
        · cases hpush
          -- `retcode` is never 0, so that all has been written
          rcases hend with ⟨-,hsent,-⟩ | ⟨hzero,-⟩
          · obtain ⟨hsize,hlen⟩ := hsent.size_le
            rw [List.length_take,TxWorker.gathered_length] at hlen
            have hpos : 0 < w.asked := by simp [TxWorker.asked,Millipacket.sizeof]
            have hcount : r.count = w.asked := by
              have hle := r.count_le
              omega
            have hclear := (not_or.mp herrno).1
            exact ⟨hsize,WritevResult.eq_wrote hpos hcount,
              TxWorker.errno_loaded.mp (Bool.eq_false_iff.mpr hclear)⟩
          · cases hzero
        · cases hpush
  · rintro ⟨hsize,rfl,hclear⟩
    have hint := toInt_of_le hsize
    have herrno : (w.loaded cfg nap).errno = false := TxWorker.errno_loaded.mpr hclear
    have hquiet : ¬ ((w.loaded cfg nap).errno ∨
        (WritevResult.wrote w.asked le_rfl).errno ≠ 0) := by simp [herrno,WritevResult.errno]
    have hwrote : (w.loaded cfg nap).WroteAll (WritevResult.wrote w.asked le_rfl).writeret :=
      TxWorker.wroteAll_loaded hsize
    have hall : (w.loaded cfg nap).gathered.take (WritevResult.wrote w.asked le_rfl).count =
        (w.loaded cfg nap).gathered :=
      List.take_of_length_le (by simp [TxWorker.asked,WritevResult.count])
    refine ⟨1,{ w.loaded cfg nap with writeremainder := 0 }.leased,(w.loaded cfg nap).gathered,
      ?_,.inl ⟨rfl,TxWorker.sentWhole_gathered hsize,?_,?_⟩⟩
    · simp only [txpush,hall]
      rw [if_neg (by omega),if_neg hquiet,if_pos hwrote]
      rfl
    · simp [TxWorker.leased,TxWorker.loaded]
    · simp [TxWorker.leased,TxWorker.loaded]

/-- A worker that has been given one byte of the stream as leg 0. -/
def TxWorker.oneByte : TxWorker :=
  { TxWorker.launched with
    state := .dispatched
    pkt := ⟨preambleCannonUl,0,1,0,feedMore⟩
    buffer := TxWorker.launched.buffer.store 0 [7]
    pc := .preamble }

/-- A short count and an error both end the process, whatever is in the buffer; so does a
signal during the `usleep` behind an earlier pass of the loop, though all 41 bytes are out. -/
theorem brokenContract_of_shortWrite :
    (∃ sent, txpush .plain .oneByte 0 (.wrote 40 (by decide)) = .exited (.assertion 164) sent) ∧
      txpush .plain .oneByte 0 (.failed 32 (by decide)) = .exited (.checkperror 163) [] ∧
      (∃ sent, sent.length = 41 ∧
        txpush .plain { TxWorker.oneByte with errno := true } 0 (.wrote 41 (by decide)) =
          .exited (.checkperror 163) sent) ∧
      ¬ HonoursContract .plain .oneByte 0 (.wrote 40 (by decide)) ∧
      ¬ HonoursContract .plain .oneByte 0 (.failed 32 (by decide)) ∧
      ¬ HonoursContract .plain { TxWorker.oneByte with errno := true } 0 (.wrote 41 (by decide)) := by
  have hbroken {w : TxWorker} {r : WritevResult w.asked} {e : Exit} {sent : List UInt8}
      (hexit : txpush .plain w 0 r = .exited e sent) : ¬ HonoursContract .plain w 0 r := by
    rintro ⟨_,_,_,hpush,-⟩
    rw [hexit] at hpush
    cases hpush
  have hshort : ∃ sent,
      txpush .plain .oneByte 0 (.wrote 40 (by decide)) = .exited (.assertion 164) sent := ⟨_,rfl⟩
  have hfailed : txpush .plain .oneByte 0 (.failed 32 (by decide)) =
    .exited (.checkperror 163) [] := rfl
  have hstale : ∃ sent : List UInt8, sent.length = 41 ∧
      txpush .plain { TxWorker.oneByte with errno := true } 0 (.wrote 41 (by decide)) =
        .exited (.checkperror 163) sent := ⟨_,rfl,rfl⟩
  refine ⟨hshort,hfailed,hstale,?_,hbroken hfailed,?_⟩
  · obtain ⟨sent,hexit⟩ := hshort
    exact hbroken hexit
  · obtain ⟨sent,-,hexit⟩ := hstale
    exact hbroken hexit

section Alone

variable {W : ℕ} {cfg : TxConfig}

/-- One worker thread takes several steps in a row; the bytes it sends are collected. -/
def runAlone (cfg : TxConfig) (i : Fin W) (done : Bool) :
    WorkerMove W → List WorkerAction → Option (WorkerMove W)
  | m, [] => some m
  | m, a::as =>
    if m.exited.isSome then none
    else (workerStep cfg i m.mutex done m.worker a).bind fun m' =>
      runAlone cfg i done { m' with sent := m.sent++m'.sent } as

theorem moved_moved (s : TxState W) (i : Fin W) (m m' : WorkerMove W) :
    (s.moved i m).moved i m' = s.moved i { m' with sent := m.sent++m'.sent } := by
  simp [TxState.moved,List.append_assoc]

/-- The transmitter follows a worker that runs alone. -/
theorem exec_alone (s : TxState W) (i : Fin W) (m : WorkerMove W) (as : List WorkerAction) :
    exec (txMachine cfg W) anyStep (s.moved i m) (as.map (.worker i)) =
      (runAlone cfg i s.done m as).map (s.moved i) := by
  induction as generalizing m with
  | nil => rfl
  | cons a as ih =>
    have hself : (s.moved i m).workers i = m.worker := by simp [TxState.moved]
    simp only [List.map_cons,exec,runAlone,anyStep]
    show ((txStep cfg (s.moved i m) (.worker i a)).bind _) = _
    cases hexit : m.exited with
    | some e => simp [txStep,TxState.moved,hexit]
    | none =>
      have hstep : txStep cfg (s.moved i m) (.worker i a) =
          (workerStep cfg i m.mutex s.done m.worker a).map ((s.moved i m).moved i) := by
        simp only [txStep,hself]
        simp [TxState.moved,hexit]
      rw [hstep]
      cases workerStep cfg i m.mutex s.done m.worker a with
      | none => rfl
      | some m' => simpa [moved_moved] using ih { m' with sent := m.sent++m'.sent }

/-- The state in which the thread of worker `i` goes on by itself. -/
theorem moved_self (s : TxState W) (i : Fin W) :
    s.moved i ⟨s.workers i,s.mutex,s.exited,[]⟩ = s := by
  simp [TxState.moved]

/-- What a call has come to when a worker's thread has taken its steps. -/
def Push.Reached (p : Push) (m : WorkerMove W) : Prop :=
  match p with
  | .returned _ v sent => m = ⟨{ v with pc := .loop },none,none,sent⟩
  | .exited e sent => m.exited = some e ∧ m.sent = sent

section Steps

variable (cfg) (i : Fin W) (done : Bool) {w : TxWorker}

/-- Lines 142 to 158 of the thread, with the signal that ends the `usleep`, if any. -/
def loading (cfg : TxConfig) (nap : ℕ) : List WorkerAction :=
  .run::.run::.run::.run::if cfg.gdelayUs = 0 ∨ nap = 0 then [.run] else [.interrupted,.run]

theorem runAlone_loaded (hpc : w.pc = .preamble) (hfits : toInt w.pkt.size ≤ kfootsize) (nap : ℕ)
    (as : List WorkerAction) :
    runAlone cfg i done ⟨w,none,none,[]⟩ (loading cfg nap ++ as) =
      runAlone cfg i done ⟨{ w.loaded cfg nap with pc := .writev 0 },none,none,[]⟩ as := by
  unfold loading
  split
  · rename_i hnap
    rcases hnap with hnap | hnap <;>
      simp [runAlone,workerStep,workerRun,hpc,hfits,TxWorker.loaded,hnap]
  · rename_i hnap
    obtain ⟨hdelay,hnap⟩ := not_or.mp hnap
    have herrno : (w.errno || cfg.gdelayUs != 0 && nap != 0) = true := by simp [hdelay,hnap]
    simp [runAlone,workerStep,workerRun,hpc,hfits,TxWorker.loaded,hdelay,herrno]

/-- Lines 168 to 181 as four steps, for a worker that has pushed all it had. -/
theorem runAlone_leased (hret : w.retcode = 1) (sent : List UInt8) :
    runAlone cfg i done ⟨{ w with pc := .lease },none,none,sent⟩ [.run,.run,.run,.run] =
      some ⟨{ w.leased with pc := .loop },none,none,sent⟩ := by
  simp [runAlone,workerStep,workerRun,hret,TxWorker.leased]

theorem runAlone_cons {m m' : WorkerMove W} {a : WorkerAction} (as : List WorkerAction)
    (halive : m.exited = none) (hstep : workerStep cfg i m.mutex done m.worker a = some m') :
    runAlone cfg i done m (a::as) =
      runAlone cfg i done { m' with sent := m.sent++m'.sent } as := by
  rw [runAlone,halive,hstep]
  rfl

/-- `writev` takes `n` bytes, all at once or as many as it can, and returns that count. -/
theorem runAlone_wrote {n : ℕ} (hpc : w.pc = .writev 0) (hn : n ≤ w.gathered.length) :
    ∃ as pc, ∀ bs, runAlone cfg i done ⟨w,none,none,[]⟩ (as++bs) =
      runAlone cfg i done (writevReturned none { w with pc := pc } n (w.gathered.take n)) bs := by
  by_cases hall : n = w.gathered.length
  · have hpos : 0 < w.gathered.length := by simp [Millipacket.sizeof]
    have hstep : workerStep cfg i none done w (.accept n) =
        some (writevReturned none w n (w.gathered.take n)) := by
      simp only [workerStep,hpc,Nat.zero_add,List.drop_zero]
      rw [if_neg (by omega),if_neg (by omega)]
    refine ⟨[.accept n],w.pc,fun bs => ?_⟩
    rw [List.singleton_append,runAlone_cons cfg i done bs rfl hstep]
    rfl
  · -- the rest of the packet does not get through
    have hshort (v : TxWorker) (pos : ℕ) (hv : v.pc = .writev pos) (hpos : pos < v.gathered.length) :
        workerStep cfg i none done v .writevShort = some (writevReturned none v pos []) := by
      simp only [workerStep,hv]
      rw [if_pos hpos]
    by_cases hzero : n = 0
    · refine ⟨[.writevShort],w.pc,fun bs => ?_⟩
      rw [List.singleton_append,runAlone_cons cfg i done bs rfl (hshort w 0 hpc (by omega)),
        hzero]
      rfl
    · have hstep : workerStep cfg i none done w (.accept n) =
          some ⟨{ w with pc := .writev n },none,none,w.gathered.take n⟩ := by
        simp only [workerStep,hpc,Nat.zero_add,List.drop_zero]
        rw [if_neg (by omega),if_pos (by omega)]
      have hmore : n < ({ w with pc := .writev n } : TxWorker).gathered.length := by
        show n < w.gathered.length
        omega
      refine ⟨[.accept n,.writevShort],.writev n,fun bs => ?_⟩
      rw [List.cons_append,runAlone_cons cfg i done _ rfl hstep,List.singleton_append,
        runAlone_cons cfg i done bs rfl (hshort _ n rfl hmore)]
      unfold writevReturned
      split <;> simp

/-- Behind a `writev` that returns a count, the thread does what the function says. -/
theorem runAlone_returned (hfits : toInt w.pkt.size ≤ kfootsize) (nap : ℕ) {n : ℕ}
    (hn : n ≤ w.asked) (pc : WorkerPc) :
    ∃ as m, runAlone cfg i done (writevReturned none { w.loaded cfg nap with pc := pc } n
      ((w.loaded cfg nap).gathered.take n)) as = some m ∧
      (txpush cfg w nap (.wrote n hn)).Reached m := by
  have hpush : ¬ (kfootsize : ℤ) < toInt w.pkt.size := by omega
  let v := w.loaded cfg nap
  let u : TxWorker := { v with pc := pc }
  rw [txpush,if_neg hpush]
  by_cases herrno : v.errno = true
  · refine ⟨[],_,rfl,?_⟩
    rw [if_pos (.inl herrno),writevReturned]
    split <;> exact ⟨by simp,rfl⟩
  · have herrno' : ¬ u.errno = true := herrno
    have hquiet : ¬ (v.errno ∨ (WritevResult.wrote n hn).errno ≠ 0) := by
      simp [herrno,WritevResult.errno]
    by_cases hwrote : v.WroteAll (WritevResult.wrote n hn).writeret
    · have hwrote' : u.WroteAll (toInt (UInt64.ofNat n)) := hwrote
      refine ⟨[.run,.run,.run,.run],
        ⟨{ ({ v with writeremainder := 0 } : TxWorker).leased with pc := .loop },none,none,
          v.gathered.take n⟩,?_,?_⟩
      · rw [writevReturned,if_pos hwrote',if_neg herrno']
        exact runAlone_leased cfg i done (w := { v with writeremainder := 0 }) rfl _
      · rw [if_neg hquiet,if_pos hwrote]
        rfl
    · have hwrote' : ¬ u.WroteAll (toInt (UInt64.ofNat n)) := hwrote
      refine ⟨[],_,rfl,?_⟩
      rw [if_neg hquiet,if_neg hwrote,writevReturned,if_neg hwrote',if_neg herrno']
      exact ⟨rfl,rfl⟩

/-- A worker thread that enters `txpush` with `txconf->mutex` free does what the function says. -/
theorem runAlone_txpush (hpc : w.pc = .preamble) (nap : ℕ) (r : WritevResult w.asked) :
    ∃ as m, runAlone cfg i done ⟨w,none,none,[]⟩ as = some m ∧
      (txpush cfg w nap r).Reached m := by
  by_cases hfits : toInt w.pkt.size ≤ kfootsize
  · have hpush : ¬ (kfootsize : ℤ) < toInt w.pkt.size := by omega
    cases r with
    | failed errno hne =>
      refine ⟨loading cfg nap ++ [.writevFailed],
        ⟨{ w.loaded cfg nap with pc := .writev 0 },none,some (.checkperror 163),[]⟩,?_,?_⟩
      · rw [runAlone_loaded cfg i done hpc hfits]
        rfl
      · simp [txpush,hpush,Push.Reached,WritevResult.errno,WritevResult.count,hne]
    | wrote n hn =>
      have hle : n ≤ ({ w.loaded cfg nap with pc := .writev 0 } : TxWorker).gathered.length := by
        rw [TxWorker.gathered_length]
        exact hn
      obtain ⟨as,pc,has⟩ := runAlone_wrote cfg i done rfl hle
      obtain ⟨as',m,hrun,hreached⟩ := runAlone_returned cfg i done hfits nap hn pc
      refine ⟨loading cfg nap ++ (as++as'),m,?_,hreached⟩
      rw [runAlone_loaded cfg i done hpc hfits,has]
      exact hrun
  · have hpush : (kfootsize : ℤ) < toInt w.pkt.size := by omega
    refine ⟨[.run,.run],⟨{ w with state := .preamble, retcode := 1, pc := .remainder },none,
      some (.assertion 147),[]⟩,?_,?_⟩
    · simp [runAlone,workerStep,workerRun,hpc,hfits]
    · simp [txpush,hpush,Push.Reached]

end Steps

/-- In the transmitter, a worker that enters `txpush` while `txconf->mutex` is free and that is
left to itself comes to what the function says. -/
theorem exec_txpush {s : TxState W} {i : Fin W} (hpc : (s.workers i).pc = .preamble)
    (hfree : s.mutex = none) (halive : s.exited = none) (nap : ℕ)
    (r : WritevResult (s.workers i).asked) :
    ∃ (as : List WorkerAction) (m : WorkerMove W),
      exec (txMachine cfg W) anyStep s (as.map (.worker i)) = some (s.moved i m) ∧
        (txpush cfg (s.workers i) nap r).Reached m := by
  obtain ⟨as,m,hrun,hreached⟩ := runAlone_txpush cfg i s.done hpc nap r
  refine ⟨as,m,?_,hreached⟩
  have hself : s.moved i ⟨s.workers i,none,none,[]⟩ = s := by
    rw [← hfree,← halive,moved_self]
  rw [← hself,exec_alone,hself,hrun]
  rfl

end Alone

end Viamillipede
