import Viamillipede.LockTrace
import Viamillipede.TxControl

/-! How a worker gets its connection: `tcp_connect`, `tx_tcp_connect_next` and `tx_start_net`.

`dial` is `tx_start_net` up to line 246, where it has a socket or has given up; `txStartNet`
is the whole function. Both keep the lock operations of the thread as a trace, which goes on
when a `pthread_mutex_lock` would block: the offending operation is in the trace. The results
of system calls, and `txconf->done` as each retry sees it, are arguments. -/
namespace Viamillipede

open LockTrace

/-- `kreconnectlimit`. -/
def kreconnectlimit : ℕ := 512

/-- What `connect` returns: 0, or -1 with an error number. -/
inductive ConnectResult
  | connected
  | failed (errno : ℕ)
  deriving DecidableEq, Repr

namespace ConnectResult

def retcode : ConnectResult → ℤ
  | connected => 0
  | failed _ => -1

def errno : ConnectResult → ℕ
  | connected => 0
  | failed e => e

end ConnectResult

/-- A connected socket and the options that have been set on it. -/
structure Socket where
  fd : ℕ
  nodelay : Bool
  rcvbuf : Bool
  sndbuf : Bool
  deriving DecidableEq, Repr

/-- A descriptor as `tcp_connect` returns it, with `none` for -1. -/
abbrev Sockfd := Option Socket

/-- `tcp_nowait`; on -1 `setsockopt` fails. -/
def tcpNowait : Sockfd → Except Exit Sockfd
  | some s => .ok (some { s with nodelay := true })
  | none => .error (.checkperror 173)

/-- `tcp_setbufsize`. -/
def tcpSetbufsize : Sockfd → Except Exit Sockfd
  | some s => .ok (some { s with rcvbuf := true, sndbuf := true })
  | none => .error (.checkperror 182)

/-- `tcp_connect` from line 229 on, for a host that resolves; `fd` is what `socket` returned. -/
def tcpConnect (fd : ℕ) (r : ConnectResult) : Except Exit Sockfd :=
  let retSockfd : Sockfd := if r.retcode ≠ 0 then none else some ⟨fd,false,false,false⟩
  if r.errno ≠ 0 then .error (.checkperror 239)
  -- the options are set when the connection has failed
  else if r.retcode ≠ 0 then (tcpNowait retSockfd).bind tcpSetbufsize
  else .ok retSockfd

/-- `target_port_count` and `target_port_cursor`. -/
structure Targets where
  count : ℕ
  cursor : ℕ

/-- The cursor behind `tx_tcp_connect_next`, which connects to the target it stood at. -/
def Targets.next (t : Targets) : Targets := { t with cursor := (t.cursor+1)%t.count }

/-- `txconf->mutex` and the mutexes of the workers. -/
inductive TxMutex (W : ℕ)
  | conf
  | worker (i : Fin W)
  deriving DecidableEq, Repr

/-- How `tx_start_net` ends other than by returning. -/
inductive NetEnd
  | gaveUp              -- pthread_exit
  | exited (e : Exit)
  deriving DecidableEq, Repr

/-- What dialling has done: its lock operations, the targets it has tried, and a socket. -/
structure Dial (W : ℕ) where
  events : List (Event (TxMutex W))
  tried : List ℕ
  outcome : Except NetEnd Socket

variable {W : ℕ}

/-- The loop at line 211, while `sockfd` is -1: the first argument is `reconnect_fuse`, the
second counts the retries before. -/
def reconnect (self : Fin W) (attempt : ℕ → Except Exit Sockfd) (done : ℕ → Bool) :
    ℕ → ℕ → Targets → Dial W
  | 0, _, _ => ⟨pair (.worker self),[],.error .gaveUp⟩
  | fuse+1, k, t =>
    if done k then ⟨pair .conf ++ pair (.worker self),[],.error .gaveUp⟩
    else
      let events := pair .conf ++ [.lock (.worker self)]
      match attempt (k+1) with
      | .error e => ⟨events,[t.cursor],.error (.exited e)⟩
      -- the fuse is renewed, so that 240 is not taken
      | .ok (some sock) => ⟨events,[t.cursor],.ok sock⟩
      | .ok none =>
        let d := reconnect self attempt done fuse (k+1) t.next
        ⟨events++d.events,t.cursor::d.tried,d.outcome⟩

/-- Lines 208 to 246: state 'c', a first attempt, and the loop. -/
def dial (self : Fin W) (attempt : ℕ → Except Exit Sockfd) (done : ℕ → Bool) (t : Targets) :
    Dial W :=
  match attempt 0 with
  | .error e => ⟨pair (.worker self),[t.cursor],.error (.exited e)⟩
  | .ok (some sock) => ⟨pair (.worker self),[t.cursor],.ok sock⟩
  | .ok none =>
    let d := reconnect self attempt done kreconnectlimit 0 t.next
    ⟨pair (.worker self)++d.events,t.cursor::d.tried,d.outcome⟩

/-- The attempts of a worker whose `connect` calls return `r`, each on a socket of its own. -/
def overTcp (fd : ℕ → ℕ) (r : ℕ → ConnectResult) (k : ℕ) : Except Exit Sockfd :=
  tcpConnect (fd k) (r k)

/-- The targets in cyclic order from the cursor on. -/
def Targets.cycle (t : Targets) (k : ℕ) : List ℕ :=
  (List.range k).map fun j => (t.cursor+j)%t.count

/-- Dialling goes on past the links that fail, and stops with the first that does not. -/
def Bypasses (t : Targets) (fd : ℕ → ℕ) (r : ℕ → ConnectResult) (d : Dial W) : Prop :=
  ∃ k sock, r k = .connected ∧ (∀ j < k, r j ≠ .connected) ∧ d.tried = t.cycle (k+1) ∧
    d.outcome = .ok sock ∧ sock.fd = fd k ∧ Clean (fun _ _ => false) [] d.events

/-- Every socket that `tcp_connect` returns has `TCP_NODELAY` and the larger buffers. -/
def Tuned (fd : ℕ → ℕ) (r : ℕ → ConnectResult) : Prop :=
  ∀ k sock, overTcp fd r k = .ok (some sock) →
    sock.nodelay = true ∧ sock.rcvbuf = true ∧ sock.sndbuf = true

theorem Targets.cycle_succ {t : Targets} (ht : t.cursor < t.count) (k : ℕ) :
    t.cycle (k+1) = t.cursor::t.next.cycle k := by
  simp only [Targets.cycle,List.range_succ_eq_map,List.map_cons,List.map_map,Nat.add_zero,
    Nat.mod_eq_of_lt ht,List.cons.injEq,true_and]
  apply List.map_congr_left
  intro j _
  show (t.cursor+(j+1))%t.count = ((t.cursor+1)%t.count+j)%t.count
  rw [Nat.mod_add_mod]
  congr 1
  omega

theorem Targets.next_lt {t : Targets} (ht : t.cursor < t.count) : t.next.cursor < t.next.count :=
  Nat.mod_lt _ (by omega)

/-- The loop by itself takes the links in order, as long as the attempts only return -1. -/
theorem reconnect_tried (self : Fin W) {attempt : ℕ → Except Exit Sockfd} {done : ℕ → Bool}
    (hdone : ∀ j, done j = false) {sock : Socket} {fuse m : ℕ} (hfuse : m < fuse) {k : ℕ}
    (hfails : ∀ j < m, attempt (k+1+j) = .ok none) (hsock : attempt (k+1+m) = .ok (some sock))
    {t : Targets} (ht : t.cursor < t.count) :
    (reconnect self attempt done fuse k t).tried = t.cycle (m+1) ∧
      (reconnect self attempt done fuse k t).outcome = .ok sock := by
  induction fuse generalizing m k t with
  | zero => omega
  | succ fuse ih =>
    simp only [reconnect,hdone,Bool.false_eq_true,if_false]
    cases m with
    | zero =>
      rw [Nat.add_zero] at hsock
      simp [hsock,Targets.cycle,Nat.mod_eq_of_lt ht]
    | succ m =>
      have hfirst := hfails 0 (Nat.succ_pos m)
      rw [Nat.add_zero] at hfirst
      have hrest := ih (m := m) (k := k+1) (by omega)
        (fun j hj => by rw [show k+1+1+j = k+1+(j+1) by omega]; exact hfails (j+1) (by omega))
        (by rw [show k+1+1+m = k+1+(m+1) by omega]; exact hsock) (Targets.next_lt ht)
      simp [hfirst,hrest,Targets.cycle_succ ht]

/-- So does dialling as a whole: what ends it too early is not its loop. -/
theorem dial_tried (self : Fin W) {attempt : ℕ → Except Exit Sockfd} {done : ℕ → Bool}
    (hdone : ∀ j, done j = false) {sock : Socket} {k : ℕ} (hk : k ≤ kreconnectlimit)
    (hfails : ∀ j < k, attempt j = .ok none) (hsock : attempt k = .ok (some sock))
    {t : Targets} (ht : t.cursor < t.count) :
    (dial self attempt done t).tried = t.cycle (k+1) ∧
      (dial self attempt done t).outcome = .ok sock := by
  cases k with
  | zero => simp [dial,hsock,Targets.cycle,Nat.mod_eq_of_lt ht]
  | succ k =>
    have hrest := reconnect_tried self hdone (k := 0) (m := k)
      (show k < kreconnectlimit by omega)
      (fun j hj => by rw [Nat.zero_add,Nat.add_comm]; exact hfails (j+1) (by omega))
      (by rw [Nat.zero_add,Nat.add_comm]; exact hsock) (Targets.next_lt ht)
    simp [dial,hfails 0 (Nat.succ_pos k),hrest,Targets.cycle_succ ht]

/-- A failed `connect` ends the process, whatever its error number. -/
theorem tcpConnect_failed (fd e : ℕ) : ∃ x, tcpConnect fd (.failed e) = .error x := by
  by_cases he : e = 0
  · exact ⟨.checkperror 173,by simp [tcpConnect,ConnectResult.errno,ConnectResult.retcode,
      tcpNowait,he,Except.bind]⟩
  · exact ⟨.checkperror 239,by simp [tcpConnect,ConnectResult.errno,he]⟩

/-- A socket that is connected has no option set. -/
theorem tcpConnect_connected (fd : ℕ) :
    tcpConnect fd .connected = .ok (some ⟨fd,false,false,false⟩) := rfl

theorem not_tuned {fd : ℕ → ℕ} {r : ℕ → ConnectResult} {k : ℕ} (hk : r k = .connected) :
    ¬ Tuned fd r := by
  intro h
  have hsock := h k ⟨fd k,false,false,false⟩ (by rw [overTcp,hk,tcpConnect_connected])
  exact Bool.false_ne_true hsock.1

/-- Dead links are bypassed only when the first link is not dead. -/
theorem bypasses_iff {t : Targets} (ht : t.cursor < t.count) (fd : ℕ → ℕ)
    (r : ℕ → ConnectResult) (self : Fin W) (done : ℕ → Bool) :
    Bypasses t fd r (dial self (overTcp fd r) done t) ↔ r 0 = .connected := by
  constructor
  · rintro ⟨k,sock,-,-,-,hsock,-⟩
    cases hr : r 0 with
    | connected => rfl
    | failed e =>
      obtain ⟨x,hx⟩ := tcpConnect_failed (fd 0) e
      have hfirst : overTcp fd r 0 = .error x := by rw [overTcp,hr,hx]
      simp [dial,hfirst] at hsock
  · intro hr
    have hfirst : overTcp fd r 0 = .ok (some ⟨fd 0,false,false,false⟩) := by
      rw [overTcp,hr,tcpConnect_connected]
    refine ⟨0,⟨fd 0,false,false,false⟩,hr,fun j hj => absurd hj (Nat.not_lt_zero j),?_,?_,rfl,?_⟩
    · simp [dial,hfirst,Targets.cycle,Nat.mod_eq_of_lt ht]
    · simp [dial,hfirst]
    · simp [dial,hfirst,clean_pair]

/-- Whatever the targets and the results of `connect`, with some attempt that succeeds: the
links are not both bypassed and tuned. The bypass works exactly when nothing has to be
bypassed, and no socket is ever tuned. -/
theorem deadLinks_not_bypassed {t : Targets} (ht : t.cursor < t.count) (fd : ℕ → ℕ)
    {r : ℕ → ConnectResult} {k : ℕ} (hk : r k = .connected) (self : Fin W) (done : ℕ → Bool) :
    ¬ (Bypasses t fd r (dial self (overTcp fd r) done t) ∧ Tuned fd r) ∧
      (Bypasses t fd r (dial self (overTcp fd r) done t) ↔ r 0 = .connected) ∧ ¬ Tuned fd r :=
  ⟨fun h => not_tuned hk h.2,bypasses_iff ht fd r self done,not_tuned hk⟩

/-- Two targets of which the first refuses: 61 is ECONNREFUSED. -/
def deadFirst (k : ℕ) : ConnectResult := if k = 0 then .failed 61 else .connected

theorem deadLinks_deadFirst :
    ¬ (Bypasses ⟨2,0⟩ (·+3) deadFirst (dial (0 : Fin 1) (overTcp (·+3) deadFirst)
        (fun _ => false) ⟨2,0⟩) ∧ Tuned (·+3) deadFirst) :=
  (deadLinks_not_bypassed (by decide) (·+3) (show deadFirst 1 = .connected from rfl) 0
    fun _ => false).1

/-- The first refusal ends the process before the second target is tried; and where no link is
dead, the socket has none of the options. -/
theorem processEnds_of_deadFirst :
    dial (0 : Fin 1) (overTcp (·+3) deadFirst) (fun _ => false) ⟨2,0⟩ =
        ⟨pair (.worker 0),[0],.error (.exited (.checkperror 239))⟩ ∧
      ¬ Bypasses ⟨2,0⟩ (·+3) deadFirst
        (dial (0 : Fin 1) (overTcp (·+3) deadFirst) (fun _ => false) ⟨2,0⟩) ∧
      overTcp (·+3) (fun _ => .connected) 0 = .ok (some ⟨3,false,false,false⟩) ∧
      ¬ Tuned (·+3) fun _ => .connected := by
  have hdial : dial (0 : Fin 1) (overTcp (·+3) deadFirst) (fun _ => false) ⟨2,0⟩ =
      ⟨pair (.worker 0),[0],.error (.exited (.checkperror 239))⟩ := rfl
  refine ⟨hdial,?_,rfl,not_tuned (k := 0) rfl⟩
  rintro ⟨k,sock,-,-,-,hsock,-⟩
  rw [hdial] at hsock
  cases hsock

end Viamillipede
