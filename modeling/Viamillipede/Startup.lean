import Viamillipede.Rx

/-! The start-up of `viamillipede.c` and `terminate.c`: `main` from line 203 on, and the receive
workers that call `initiate_relay` while it is still running.

A step is one access to what the threads share, or one call with the local code behind it. A
call of `initiate_relay` has a frame of its own, as it is reached from `main` and from every
receive worker. An assertion that fails or an error of a system call ends the process: there is
no step behind it. What the workers do with a leg is in `Rx`; here a leg only arrives, takes its
turn and is written. -/
namespace Viamillipede

open Transition

/-- What the command line says about the modes and the endpoints; `accepted` is the assertion
at line 203. -/
structure StartupConfig where
  modeRx : Bool
  modeTx : Bool
  gprbsSeed : UInt64
  terminatePort : ℤ
  initiatePort : ℤ
  accepted : ¬ (terminatePort > 0 ∧ initiatePort > 0)

/-- Where a thread is in `initiate_relay`. -/
inductive RelayPc
  | out                     -- not called
  | test                    -- 47
  | increment               -- 49
  | call                    -- 51
  | initiate                -- terminate.c, 51
  | inputFd (fd : ℤ)        -- terminate.c, 52: output_fd has been assigned
  | create                  -- 55
  | returned
  deriving DecidableEq, Repr

/-- Where `main` is. -/
inductive MainPc
  | rx (launched : ℕ)       -- 207
  | tx                      -- 209
  | txlaunch                -- tx.c, 478
  | terminate               -- 211
  | outputFd (fd : ℤ)       -- terminate.c, 30 to 33: input_fd has been assigned
  | terminated              -- 216
  | relay                   -- 217
  | poll                    -- 224
  deriving DecidableEq, Repr

/-- Where a receive worker is with the leg it has read. -/
inductive LegPc
  | unlaunched
  | read                                        -- up to 120
  | relay (legId : UInt64) (restartme : Bool)   -- 140
  | sequence (legId : UInt64) (restartme : Bool) -- 150
  | write (legId : UInt64)                      -- 171
  | advance (legId : UInt64)                    -- 202
  deriving DecidableEq, Repr

/-- Where a `txingest` thread is. -/
inductive TxingestPc
  | start                   -- 68
  | dispatch                -- 79
  | fill                    -- 84
  deriving DecidableEq, Repr

/-- The globals of the start-up and its threads. A descriptor is `none` until this run has
assigned it, though the global holds 0 then. `initiated` is history: how often `initiate` has
been called. -/
structure StartupState (n : ℕ) where
  main : MainPc
  workers : Fin n → LegPc
  relay : RxThread n → RelayPc
  ginitiatorOneshot : ℕ
  nextLeg : UInt64
  inputFd : Option ℤ
  outputFd : Option ℤ
  ingests : List TxingestPc
  initiated : ℕ

/-- The next move of a thread; `fd` is what `tcp_accept` or `tcp_connect` returns if it is that
call, and `receive` says which leg a worker has read and if its connection failed meanwhile. -/
inductive StartupAction (n : ℕ)
  | main (fd : ℤ)
  | relay (t : RxThread n) (fd : ℤ)
  | receive (i : Fin n) (legId : UInt64) (restartme : Bool)
  | worker (i : Fin n)
  | ingest (k : ℕ)
  deriving DecidableEq

variable {n : ℕ}

namespace MainPc

/-- `tx` has begun to launch its workers, if it is called at all. -/
def txLaunched : MainPc → Bool
  | rx _ | tx => false
  | _ => true

/-- `tx` has returned, if it is called at all. -/
def txDone : MainPc → Bool
  | rx _ | tx | txlaunch => false
  | _ => true

/-- `terminate` has assigned `input_fd`, or leaves that to `initiate`. -/
def inputChosen : MainPc → Bool
  | outputFd _ | terminated | relay | poll => true
  | _ => false

end MainPc

namespace StartupState

/-- Move a worker. -/
def setWorker (s : StartupState n) (i : Fin n) (pc : LegPc) : StartupState n :=
  { s with workers := Function.update s.workers i pc }

/-- Move a thread in `initiate_relay`. -/
def setRelay (s : StartupState n) (t : RxThread n) (pc : RelayPc) : StartupState n :=
  { s with relay := Function.update s.relay t pc }

/-- Move a `txingest` thread. -/
def setIngest (s : StartupState n) (k : ℕ) (pc : TxingestPc) : StartupState n :=
  { s with ingests := s.ingests.set k pc }

end StartupState

/-- `initiate_relay`, with `initiate` from line 51 of terminate.c on. -/
def initiateRelay (c : StartupConfig) (s : StartupState n) (t : RxThread n) (fd : ℤ) :
    Option (StartupState n) :=
  match s.relay t with
  | .out | .returned => none
  | .test => some (s.setRelay t (if s.ginitiatorOneshot > 0 then .returned else .increment))
  | .increment =>
    some { s.setRelay t .call with ginitiatorOneshot := s.ginitiatorOneshot+1 }
  | .call => some { s.setRelay t .initiate with initiated := s.initiated+1 }
  | .initiate =>
    if c.initiatePort > 0 then some { s.setRelay t (.inputFd fd) with outputFd := some fd }
    else if c.terminatePort > 0 then some (s.setRelay t .create)
    else some { s.setRelay t .create with outputFd := some 1 }
  | .inputFd fd =>
    -- the assertion at line 52 of viamillipede.c
    if fd ≥ 1 then some { s.setRelay t .create with inputFd := some fd } else none
  | .create => some { s.setRelay t .returned with ingests := s.ingests++[.start] }

/-- `main` from line 206 on, with `terminate`. -/
def mainStep (c : StartupConfig) (s : StartupState n) (fd : ℤ) : Option (StartupState n) :=
  match s.main with
  | .rx k =>
    if h : k < n then
      if c.modeRx then some { s.setWorker ⟨k,h⟩ .read with main := .rx (k+1) }
      else some { s with main := .tx }
    else some { s with main := .tx }
  | .tx => some { s with main := if c.modeTx then .txlaunch else .terminate }
  | .txlaunch => some { s with main := .terminate }
  | .terminate =>
    if c.terminatePort > 0 then some { s with main := .outputFd fd, inputFd := some fd }
    else if c.initiatePort > 0 then some { s with main := .terminated }
    else some { s with main := .terminated, inputFd := some 0 }
  | .outputFd fd =>
    -- the assertion at line 30 of terminate.c
    if fd > 2 then some { s with main := .terminated, outputFd := some fd } else none
  | .terminated =>
    if c.modeTx ∧ c.initiatePort = 0 then some { s.setRelay .main .test with main := .relay }
    else some { s with main := .poll }
  | .relay =>
    if s.relay .main = .returned then some { s.setRelay .main .out with main := .poll } else none
  | .poll => none

/-- A worker has read a leg, and calls `initiate_relay` for leg 0. -/
def legArrived (s : StartupState n) (i : Fin n) (legId : UInt64) (restartme : Bool) :
    Option (StartupState n) :=
  if s.workers i ≠ .read then none
  else if legId = 0 then
    some ((s.setWorker i (.relay legId restartme)).setRelay (.worker i) .test)
  else some (s.setWorker i (.sequence legId restartme))

/-- `rxworker` from line 140 on. It sleeps at 150 until its leg is next, unless the connection
has failed. -/
def rxworkerStep (s : StartupState n) (i : Fin n) : Option (StartupState n) :=
  match s.workers i with
  | .unlaunched | .read => none
  | .relay legId restartme =>
    if s.relay (.worker i) = .returned then
      some ((s.setWorker i (.sequence legId restartme)).setRelay (.worker i) .out)
    else none
  | .sequence legId restartme =>
    if restartme then some (s.setWorker i .read)
    else if legId = s.nextLeg then some (s.setWorker i (.write legId))
    else none
  | .write legId => some (s.setWorker i (.advance legId))
  | .advance _ => some { s.setWorker i .read with nextLeg := s.nextLeg+1 }

/-- `txingest`. There is no idle worker to dispatch before `tx` launches one. -/
def txingestStep (c : StartupConfig) (s : StartupState n) (k : ℕ) : Option (StartupState n) :=
  match s.ingests[k]? with
  | none => none
  | some .start => some (s.setIngest k .dispatch)
  | some .dispatch =>
    if c.modeTx ∧ s.main.txLaunched then
      some (s.setIngest k (if c.gprbsSeed > 0 then .dispatch else .fill))
    else none
  | some .fill => some (s.setIngest k .dispatch)

/-- The start-up as a step function. -/
def startupStep (c : StartupConfig) (s : StartupState n) :
    StartupAction n → Option (StartupState n)
  | .main fd => mainStep c s fd
  | .relay t fd => initiateRelay c s t fd
  | .receive i legId restartme => legArrived s i legId restartme
  | .worker i => rxworkerStep s i
  | .ingest k => txingestStep c s k

/-- `main` is about to call `rx`. -/
def startupInit (n : ℕ) : StartupState n where
  main := .rx 0
  workers := fun _ => .unlaunched
  relay := fun _ => .out
  ginitiatorOneshot := 0
  nextLeg := 0
  inputFd := none
  outputFd := none
  ingests := []
  initiated := 0

def startup (c : StartupConfig) (n : ℕ) : Machine (StartupState n) (StartupAction n) where
  init := fun s => s = startupInit n
  step := startupStep c

/-- What a step can do: the moves of a call of `initiate_relay`, of `main`, of a worker and of
a `txingest` thread. -/
inductive StartupMove (c : StartupConfig) (s : StartupState n) :
    StartupAction n → StartupState n → Prop
  | taken (t fd) : s.relay t = .test → s.ginitiatorOneshot ≠ 0 →
      StartupMove c s (.relay t fd) (s.setRelay t .returned)
  | passed (t fd) : s.relay t = .test → s.ginitiatorOneshot = 0 →
      StartupMove c s (.relay t fd) (s.setRelay t .increment)
  | increment (t fd) : s.relay t = .increment →
      StartupMove c s (.relay t fd)
        { s.setRelay t .call with ginitiatorOneshot := s.ginitiatorOneshot+1 }
  | call (t fd) : s.relay t = .call →
      StartupMove c s (.relay t fd) { s.setRelay t .initiate with initiated := s.initiated+1 }
  | connect (t fd) : s.relay t = .initiate → c.initiatePort > 0 →
      StartupMove c s (.relay t fd) { s.setRelay t (.inputFd fd) with outputFd := some fd }
  | keep (t fd) : s.relay t = .initiate → c.initiatePort ≤ 0 → c.terminatePort > 0 →
      StartupMove c s (.relay t fd) (s.setRelay t .create)
  | stdout (t fd) : s.relay t = .initiate → c.initiatePort ≤ 0 → c.terminatePort ≤ 0 →
      StartupMove c s (.relay t fd) { s.setRelay t .create with outputFd := some 1 }
  | inputFd (t fd sock) : s.relay t = .inputFd sock →
      StartupMove c s (.relay t fd) { s.setRelay t .create with inputFd := some sock }
  | create (t fd) : s.relay t = .create →
      StartupMove c s (.relay t fd)
        { s.setRelay t .returned with ingests := s.ingests++[.start] }
  | launch (i : Fin n) (fd) : s.main = .rx i →
      StartupMove c s (.main fd) { s.setWorker i .read with main := .rx (i+1) }
  | forward (fd pc) : (s.main,pc) ∈ [(MainPc.tx,MainPc.txlaunch),(.txlaunch,.terminate)] →
      StartupMove c s (.main fd) { s with main := pc }
  | rxDone (fd k) : s.main = .rx k → StartupMove c s (.main fd) { s with main := .tx }
  | txSkipped (fd) : s.main = .tx → c.modeTx = false →
      StartupMove c s (.main fd) { s with main := .terminate }
  | accept (fd) : s.main = .terminate →
      StartupMove c s (.main fd) { s with main := .outputFd fd, inputFd := some fd }
  | initiating (fd) : s.main = .terminate → c.initiatePort > 0 →
      StartupMove c s (.main fd) { s with main := .terminated }
  | stdin (fd) : s.main = .terminate →
      StartupMove c s (.main fd) { s with main := .terminated, inputFd := some 0 }
  | accepted (fd sock) : s.main = .outputFd sock →
      StartupMove c s (.main fd) { s with main := .terminated, outputFd := some sock }
  | relay (fd) : s.main = .terminated →
      StartupMove c s (.main fd) { s.setRelay .main .test with main := .relay }
  | noRelay (fd) : s.main = .terminated → StartupMove c s (.main fd) { s with main := .poll }
  | relayed (fd) : s.main = .relay → s.relay .main = .returned →
      StartupMove c s (.main fd) { s.setRelay .main .out with main := .poll }
  | first (i restartme) : s.workers i = .read →
      StartupMove c s (.receive i 0 restartme)
        ((s.setWorker i (.relay 0 restartme)).setRelay (.worker i) .test)
  | later (i legId restartme) : s.workers i = .read → legId ≠ 0 →
      StartupMove c s (.receive i legId restartme) (s.setWorker i (.sequence legId restartme))
  | legRelayed (i legId restartme) : s.workers i = .relay legId restartme →
      s.relay (.worker i) = .returned →
      StartupMove c s (.worker i)
        ((s.setWorker i (.sequence legId restartme)).setRelay (.worker i) .out)
  | dropped (i legId) : s.workers i = .sequence legId true →
      StartupMove c s (.worker i) (s.setWorker i .read)
  | sequenced (i) : s.workers i = .sequence s.nextLeg false →
      StartupMove c s (.worker i) (s.setWorker i (.write s.nextLeg))
  | written (i legId) : s.workers i = .write legId →
      StartupMove c s (.worker i) (s.setWorker i (.advance legId))
  | advance (i legId) : s.workers i = .advance legId →
      StartupMove c s (.worker i) { s.setWorker i .read with nextLeg := s.nextLeg+1 }
  | ingest (k pc) : pc ≠ .fill → StartupMove c s (.ingest k) (s.setIngest k pc)
  | fill (k) : c.modeTx = true → c.gprbsSeed = 0 →
      StartupMove c s (.ingest k) (s.setIngest k .fill)

theorem initiateRelay_cases {c : StartupConfig} {s s' : StartupState n} {t : RxThread n} {fd : ℤ}
    (h : initiateRelay c s t fd = some s') : StartupMove c s (.relay t fd) s' := by
  cases hpc : s.relay t with
  | out | returned => simp [initiateRelay,hpc] at h
  | test =>
    by_cases ho : s.ginitiatorOneshot = 0
    · simp only [initiateRelay,hpc,ho,gt_iff_lt,Nat.lt_irrefl,if_false,Option.some.injEq] at h
      subst h; exact .passed t fd hpc ho
    · simp only [initiateRelay,hpc,gt_iff_lt,Nat.pos_of_ne_zero ho,if_true,Option.some.injEq] at h
      subst h; exact .taken t fd hpc ho
  | increment =>
    simp only [initiateRelay,hpc,Option.some.injEq] at h
    subst h; exact .increment t fd hpc
  | call =>
    simp only [initiateRelay,hpc,Option.some.injEq] at h
    subst h; exact .call t fd hpc
  | initiate =>
    simp only [initiateRelay,hpc] at h
    by_cases hi : c.initiatePort > 0
    · rw [if_pos hi] at h
      cases h
      exact .connect t fd hpc hi
    · rw [if_neg hi] at h
      split at h <;> cases h
      · exact .keep t fd hpc (Int.not_lt.mp hi) ‹_›
      · exact .stdout t fd hpc (Int.not_lt.mp hi) (Int.not_lt.mp ‹_›)
  | inputFd sock =>
    simp only [initiateRelay,hpc] at h
    split at h <;> cases h
    exact .inputFd t fd sock hpc
  | create =>
    simp only [initiateRelay,hpc,Option.some.injEq] at h
    subst h; exact .create t fd hpc

theorem mainStep_cases {c : StartupConfig} {s s' : StartupState n} {fd : ℤ}
    (h : mainStep c s fd = some s') : StartupMove c s (.main fd) s' := by
  cases hpc : s.main with
  | rx k =>
    simp only [mainStep,hpc] at h
    split at h
    · split at h <;> cases h
      · exact .launch ⟨k,‹_›⟩ fd hpc
      · exact .rxDone fd k hpc
    · cases h; exact .rxDone fd k hpc
  | tx =>
    by_cases hm : c.modeTx = true <;> simp only [mainStep,hpc,hm,if_true,Option.some.injEq] at h
    · subst h; exact .forward fd _ (by simp [hpc])
    · subst h; exact .txSkipped fd hpc (Bool.eq_false_of_not_eq_true hm)
  | txlaunch =>
    simp only [mainStep,hpc,Option.some.injEq] at h
    subst h; exact .forward fd _ (by simp [hpc])
  | terminate =>
    simp only [mainStep,hpc] at h
    split at h
    · cases h
      exact .accept fd hpc
    · split at h <;> cases h
      · exact .initiating fd hpc ‹_›
      · exact .stdin fd hpc
  | outputFd sock =>
    simp only [mainStep,hpc] at h
    split at h <;> cases h
    exact .accepted fd sock hpc
  | terminated =>
    simp only [mainStep,hpc] at h
    split at h <;> cases h
    · exact .relay fd hpc
    · exact .noRelay fd hpc
  | relay =>
    simp only [mainStep,hpc] at h
    split at h <;> cases h
    exact .relayed fd hpc ‹_›
  | poll => simp [mainStep,hpc] at h

theorem legArrived_cases {c : StartupConfig} {s s' : StartupState n} {i : Fin n} {legId : UInt64}
    {restartme : Bool} (h : legArrived s i legId restartme = some s') :
    StartupMove c s (.receive i legId restartme) s' := by
  unfold legArrived at h
  by_cases hread : s.workers i = .read
  · rw [if_neg (not_not.mpr hread)] at h
    split at h <;> cases h
    · subst legId; exact .first i restartme hread
    · exact .later i legId restartme hread ‹_›
  · rw [if_pos hread] at h
    cases h

theorem rxworkerStep_cases {c : StartupConfig} {s s' : StartupState n} {i : Fin n}
    (h : rxworkerStep s i = some s') : StartupMove c s (.worker i) s' := by
  cases hpc : s.workers i with
  | unlaunched | read => simp [rxworkerStep,hpc] at h
  | relay legId restartme =>
    simp only [rxworkerStep,hpc] at h
    split at h <;> cases h
    exact .legRelayed i legId restartme hpc ‹_›
  | sequence legId restartme =>
    simp only [rxworkerStep,hpc] at h
    cases restartme with
    | true => cases h; exact .dropped i legId hpc
    | false =>
      by_cases hnext : legId = s.nextLeg
      · subst hnext
        simp only [Bool.false_eq_true,if_false,if_true,Option.some.injEq] at h
        subst h; exact .sequenced i hpc
      · simp [hnext] at h
  | write legId =>
    simp only [rxworkerStep,hpc,Option.some.injEq] at h
    subst h; exact .written i legId hpc
  | advance legId =>
    simp only [rxworkerStep,hpc,Option.some.injEq] at h
    subst h; exact .advance i legId hpc

theorem txingestStep_cases {c : StartupConfig} {s s' : StartupState n} {k : ℕ}
    (h : txingestStep c s k = some s') : StartupMove c s (.ingest k) s' := by
  unfold txingestStep at h
  split at h
  · cases h
  · cases h; exact .ingest k _ (by simp)
  · split at h <;> cases h
    by_cases hp : c.gprbsSeed > 0
    · rw [if_pos hp]; exact .ingest k _ (by simp)
    · rw [if_neg hp]
      exact .fill k (And.left ‹_›) (UInt64.le_zero_iff.mp (UInt64.not_lt.mp hp))
  · cases h; exact .ingest k _ (by simp)

theorem startupStep_cases {c : StartupConfig} {s s' : StartupState n} {a : StartupAction n}
    (h : startupStep c s a = some s') : StartupMove c s a s' := by
  cases a with
  | main fd => exact mainStep_cases h
  | relay t fd => exact initiateRelay_cases h
  | receive i legId restartme => exact legArrived_cases h
  | worker i => exact rxworkerStep_cases h
  | ingest k => exact txingestStep_cases h

/-- Neither `terminate` nor `initiate` is given: standard input and output. -/
def StartupConfig.pipe (modeRx modeTx : Bool) : StartupConfig where
  modeRx := modeRx
  modeTx := modeTx
  gprbsSeed := 0
  terminatePort := 0
  initiatePort := 0
  accepted h := Int.lt_irrefl 0 h.1

/-- Both modes, and `terminate` at a port. -/
def StartupConfig.terminating : StartupConfig where
  modeRx := true
  modeTx := true
  gprbsSeed := 0
  terminatePort := 5656
  initiatePort := 0
  accepted h := Int.lt_irrefl 0 h.2

/-- Both modes, and `initiate` to a port. -/
def StartupConfig.initiating : StartupConfig where
  modeRx := true
  modeTx := true
  gprbsSeed := 0
  terminatePort := 0
  initiatePort := 5656
  accepted h := Int.lt_irrefl 0 h.1

end Viamillipede
