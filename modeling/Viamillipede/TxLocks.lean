import Viamillipede.TxConnect
import Mathlib.Data.List.FinRange

/-! The whole of `tx_start_net`, with `txstatus`, and the lock discipline of its runs. -/
namespace Viamillipede

open LockTrace

variable {W : ℕ}

/-- What a call of `tx_start_net` meets besides the attempts to connect: the worker it is for,
`txconf->done` at each retry, the verbosity, and how the process ends, if it does, in the
exchange of the phrases (262 to 272) or in `txstatus` at each worker (391 to 398). -/
structure StartEnv (W : ℕ) where
  self : Fin W
  done : ℕ → Bool
  gverbose : ℤ
  handshake : Option Exit
  dump : Fin W → Option Exit

/-- What `tx_start_net` has done: its lock operations, and a socket if it returns. -/
structure NetRun (W : ℕ) where
  events : List (Event (TxMutex W))
  ending : Except NetEnd Socket

/-- `txstatus` over the workers that are left. The argument of `whisper` at 399 is evaluated
only when the level is printed. -/
def txstatus (env : StartEnv W) (logLevel : ℤ) : List (Fin W) →
    List (Event (TxMutex W)) × Option Exit
  | [] => ([],none)
  | i::is =>
    if logLevel < env.gverbose then
      match env.dump i with
      | some e => ([],some e)
      | none => (pair (.worker i)++(txstatus env logLevel is).1,(txstatus env logLevel is).2)
    else txstatus env logLevel is

/-- Lines 261 to 277: the phrases, `txstatus`, and the unlock. -/
def online (env : StartEnv W) (sock : Socket) : NetRun W :=
  match env.handshake with
  | some e => ⟨[],.error (.exited e)⟩
  | none =>
    match txstatus env 7 (List.finRange W) with
    | (events,some e) => ⟨events,.error (.exited e)⟩
    | (events,none) => ⟨events++[.unlock (.worker env.self)],.ok sock⟩

/-- `tx_start_net`. -/
def txStartNet (env : StartEnv W) (attempt : ℕ → Except Exit Sockfd) (t : Targets) : NetRun W :=
  let d := dial env.self attempt env.done t
  match d.outcome with
  | .error e => ⟨d.events,.error e⟩
  | .ok sock => ⟨d.events++(online env sock).events,(online env sock).ending⟩

/-- `dispatch_idle_worker` and `txpush` take a worker's mutex inside `txconf->mutex`. -/
def TxMutex.bars : TxMutex W → TxMutex W → Bool
  | .worker _,.conf => true
  | _,_ => false

/-- The discipline: a clean trace, and nothing held by a thread that returns or exits. -/
structure LocksInOrder (r : NetRun W) : Prop where
  clean : Clean TxMutex.bars [] r.events
  released : (∀ e, r.ending ≠ .error (.exited e)) → after [] r.events = []

/-- In an increasing list `takeWhile` reaches an element if all up to it meet the predicate. -/
theorem mem_takeWhile_iff {l : List (Fin W)} (hl : l.Pairwise (· < ·)) {p : Fin W → Bool}
    {a : Fin W} (ha : a ∈ l) : a ∈ l.takeWhile p ↔ ∀ b ∈ l, b ≤ a → p b = true := by
  induction l with
  | nil => cases ha
  | cons b l ih =>
    obtain ⟨hb,hl⟩ := List.pairwise_cons.mp hl
    have hle : b ≤ a := by
      rcases List.mem_cons.mp ha with rfl | ha
      · exact le_rfl
      · exact (hb a ha).le
    by_cases hp : p b = true
    · rw [List.takeWhile_cons_of_pos hp,List.forall_mem_cons]
      rcases List.mem_cons.mp ha with rfl | ha
      · have hrest : ∀ c ∈ l, c ≤ a → p c = true := fun c hc hca =>
          absurd (hb c hc) (not_lt.mpr hca)
        exact ⟨fun _ => ⟨fun _ => hp,hrest⟩,fun _ => List.mem_cons_self⟩
      · have hne : a ≠ b := (hb a ha).ne'
        simp [hne,hp,ih hl ha]
    · rw [List.takeWhile_cons_of_neg hp]
      exact ⟨fun h => absurd h List.not_mem_nil,fun h => absurd (h b List.mem_cons_self hle) hp⟩

/-- Quiet, `txstatus` locks nothing. -/
theorem txstatus_quiet {env : StartEnv W} {logLevel : ℤ} (h : env.gverbose ≤ logLevel)
    (is : List (Fin W)) : txstatus env logLevel is = ([],none) := by
  induction is with
  | nil => rfl
  | cons i is ih => rw [txstatus,if_neg (by omega),ih]

/-- Otherwise it goes through the mutexes of the workers up to the first at which it fails. -/
theorem txstatus_verbose {env : StartEnv W} {logLevel : ℤ} (h : logLevel < env.gverbose)
    (is : List (Fin W)) :
    (txstatus env logLevel is).1 =
        ((is.takeWhile fun i => (env.dump i).isNone).map TxMutex.worker).flatMap pair ∧
      ((txstatus env logLevel is).2 = none ↔ ∀ i ∈ is, env.dump i = none) := by
  induction is with
  | nil => simp [txstatus]
  | cons i is ih =>
    rw [txstatus,if_pos h]
    cases hi : env.dump i with
    | some e => simp [hi]
    | none => simp [hi,ih.1,ih.2]

section Online

variable (env : StartEnv W) (sock : Socket)

theorem online_events (hshake : env.handshake = none) :
    (online env sock).events = (txstatus env 7 (List.finRange W)).1 ++
      if (txstatus env 7 (List.finRange W)).2 = none then [.unlock (.worker env.self)] else [] := by
  simp only [online,hshake]
  cases txstatus env 7 (List.finRange W) with
  | mk events fail => cases fail <;> simp

/-- A thread that has not locked its mutex gets as far as the unlock unless the process ends. -/
theorem clean_online_iff : Clean TxMutex.bars [] (online env sock).events ↔
    env.handshake.isSome ∨ 7 < env.gverbose ∧ ∃ i, (env.dump i).isSome := by
  cases hshake : env.handshake with
  | some e => simp [online,hshake]
  | none =>
    rw [online_events env sock hshake]
    by_cases hverbose : 7 < env.gverbose
    · obtain ⟨hevents,hend⟩ := txstatus_verbose hverbose (List.finRange W)
      rw [hevents,clean_append,clean_pairs,after_pairs]
      by_cases hall : ∀ i, env.dump i = none
      · have hnone := hend.mpr fun i _ => hall i
        simp [hnone,hall,Clean]
      · have hsome := mt hend.mp fun h => hall fun i => h i (List.mem_finRange i)
        obtain ⟨i,hi⟩ := not_forall.mp hall
        have hdump : ∃ i, (env.dump i).isSome := ⟨i,Option.isSome_iff_ne_none.mpr hi⟩
        simp [hsome,hverbose,hdump]
    · have hquiet := txstatus_quiet (not_lt.mp hverbose) (List.finRange W)
      simp [hquiet,hverbose,Clean]

/-- For one that has, the unlock is right, but `txstatus` must not come by. -/
theorem clean_online_held_iff :
    Clean TxMutex.bars [.worker env.self] (online env sock).events ↔
      env.handshake.isSome ∨ env.gverbose ≤ 7 ∨ ∃ i ≤ env.self, (env.dump i).isSome := by
  cases hshake : env.handshake with
  | some e => simp [online,hshake]
  | none =>
    rw [online_events env sock hshake]
    by_cases hverbose : 7 < env.gverbose
    · obtain ⟨hevents,hend⟩ := txstatus_verbose hverbose (List.finRange W)
      have hmem := mem_takeWhile_iff (List.pairwise_lt_finRange W)
        (p := fun i => (env.dump i).isNone) (List.mem_finRange env.self)
      have hclean (ms : List (Fin W)) : (∀ m ∈ ms.map TxMutex.worker, m ∉ [TxMutex.worker env.self] ∧
          ∀ h ∈ [TxMutex.worker env.self], TxMutex.bars h m = false) ↔ env.self ∉ ms := by
        constructor
        · intro h hself
          exact (h _ (List.mem_map_of_mem hself)).1 List.mem_cons_self
        · intro h m hm
          obtain ⟨i,hi,rfl⟩ := List.mem_map.mp hm
          have hne : i ≠ env.self := fun heq => h (heq ▸ hi)
          simp [hne,TxMutex.bars]
      rw [hevents,clean_append,clean_pairs,after_pairs,hclean,hmem]
      by_cases hself : ∃ i ≤ env.self, (env.dump i).isSome
      · obtain ⟨i,hi,hdump⟩ := hself
        have hsome : (txstatus env 7 (List.finRange W)).2 ≠ none := fun h => by
          simp [hend.mp h i (List.mem_finRange i)] at hdump
        have hstops : ¬ ∀ b ∈ List.finRange W, b ≤ env.self → (env.dump b).isNone = true := fun h => by
          have hnone := h i (List.mem_finRange i) hi
          simp [Option.isNone_iff_eq_none.mp hnone] at hdump
        rw [if_neg hsome]
        exact ⟨fun _ => .inr (.inr ⟨i,hi,hdump⟩),fun _ => ⟨hstops,trivial⟩⟩
      · have hreached : ∀ b ∈ List.finRange W, b ≤ env.self → (env.dump b).isNone = true := by
          intro b _ hb
          simpa using fun hdump => hself ⟨b,hb,hdump⟩
        refine ⟨fun h => absurd hreached h.1,?_⟩
        rintro (h | h | h)
        · cases h
        · omega
        · exact absurd h hself
    · have hquiet := txstatus_quiet (not_lt.mp hverbose) (List.finRange W)
      simp [hquiet,not_lt.mp hverbose,Clean]

/-- In the first of these cases the thread does not get to the end of its function. -/
theorem online_exits (h : env.handshake.isSome ∨ 7 < env.gverbose ∧ ∃ i, (env.dump i).isSome) :
    ∃ e, (online env sock).ending = .error (.exited e) := by
  cases hshake : env.handshake with
  | some e => exact ⟨e,by simp [online,hshake]⟩
  | none =>
    obtain ⟨hverbose,i,hi⟩ := h.resolve_left (by simp [hshake])
    cases hstatus : txstatus env 7 (List.finRange W) with
    | mk events fail =>
      cases fail with
      | some e => exact ⟨e,by simp [online,hshake,hstatus]⟩
      | none =>
        have hend := (txstatus_verbose hverbose (List.finRange W)).2
        rw [hstatus] at hend
        simp [hend.mp rfl i (List.mem_finRange i)] at hi

theorem after_online_held (h : ∀ e, (online env sock).ending ≠ .error (.exited e)) :
    after [.worker env.self] (online env sock).events = [] := by
  cases hshake : env.handshake with
  | some e => simp [online,hshake] at h
  | none =>
    have hnone : (txstatus env 7 (List.finRange W)).2 = none := by
      simp only [online,hshake] at h
      cases hstatus : txstatus env 7 (List.finRange W) with
      | mk events fail =>
        cases fail with
        | none => rfl
        | some e => rw [hstatus] at h; exact absurd rfl (h e)
    rw [online_events env sock hshake,after_append,if_pos hnone]
    by_cases hverbose : 7 < env.gverbose
    · rw [(txstatus_verbose hverbose (List.finRange W)).1,after_pairs]
      simp [after]
    · rw [txstatus_quiet (not_lt.mp hverbose)]
      simp [after]

end Online

/-- A second failure in a row: `txconf->mutex` is taken behind the worker's own. -/
theorem not_clean_reconnect (self : Fin W) (attempt : ℕ → Except Exit Sockfd) (done : ℕ → Bool)
    (fuse k : ℕ) (t : Targets) :
    ¬ Clean TxMutex.bars [.worker self] (reconnect self attempt done (fuse+1) k t).events := by
  have hpair (es : List (Event (TxMutex W))) :
      ¬ Clean TxMutex.bars [.worker self] (pair .conf++es) := by
    rw [clean_append,clean_pair]
    exact fun h => by simpa [TxMutex.bars] using h.1.2
  rw [reconnect]
  split
  · exact hpair _
  · split <;> simpa only [List.append_assoc] using hpair _

/-- The lock operations up to the second attempt. -/
def untilRetry (self : Fin W) : List (Event (TxMutex W)) :=
  pair (.worker self)++(pair .conf++[.lock (.worker self)])

theorem clean_untilRetry (self : Fin W) : Clean TxMutex.bars [] (untilRetry self) := by
  simp [untilRetry,clean_append,clean_pair,Clean]

theorem after_untilRetry (self : Fin W) : after [] (untilRetry self) = [.worker self] := by
  simp [untilRetry,after_append,after]

/-- What follows the dialling comes behind its lock operations. -/
theorem txStartNet_events (env : StartEnv W) (attempt : ℕ → Except Exit Sockfd) (t : Targets) :
    ∃ es, (txStartNet env attempt t).events = (dial env.self attempt env.done t).events++es := by
  cases hout : (dial env.self attempt env.done t).outcome with
  | error e => exact ⟨[],by simp [txStartNet,hout]⟩
  | ok sock => exact ⟨(online env sock).events,by simp [txStartNet,hout]⟩

theorem dial_retry {self : Fin W} {attempt : ℕ → Except Exit Sockfd} {done : ℕ → Bool}
    (hfirst : attempt 0 = .ok none) (hdone : done 0 = false) (hsecond : attempt 1 = .ok none)
    (t : Targets) : (dial self attempt done t).events =
      untilRetry self++(reconnect self attempt done 511 1 t.next.next).events := by
  have hlimit : kreconnectlimit = 511+1 := rfl
  simp only [dial,hfirst]
  rw [hlimit,reconnect]
  simp [hdone,hsecond,untilRetry]

/-- The lock operations of `tx_start_net` match when the loop makes exactly one pass, and
nobody asks for the states; or when the thread or the process ends before it matters. -/
def Matched (env : StartEnv W) (results : ℕ → Sockfd) : Prop :=
  match results 0 with
  | some _ => env.handshake.isSome ∨ 7 < env.gverbose ∧ ∃ i, (env.dump i).isSome
  | none => env.done 0 = true ∨ (results 1).isSome ∧
      (env.handshake.isSome ∨ env.gverbose ≤ 7 ∨ ∃ i ≤ env.self, (env.dump i).isSome)

/-- For any results of the attempts, any values of `done` and any verbosity, the discipline is
kept if and only if the operations match. -/
theorem locksInOrder_iff (env : StartEnv W) (results : ℕ → Sockfd) (t : Targets) :
    LocksInOrder (txStartNet env (fun k => .ok (results k)) t) ↔ Matched env results := by
  have hown : Clean TxMutex.bars [] (pair (TxMutex.worker env.self)) := by simp [clean_pair]
  unfold Matched
  cases hfirst : results 0 with
  | some sock =>
    -- line 276 unlocks what was never locked
    have hrun : txStartNet env (fun k => .ok (results k)) t =
        ⟨pair (.worker env.self)++(online env sock).events,(online env sock).ending⟩ := by
      simp [txStartNet,dial,hfirst]
    rw [hrun]
    constructor
    · intro h
      have hclean := h.clean
      rw [clean_append,after_pair] at hclean
      exact (clean_online_iff env sock).mp hclean.2
    · intro h
      refine ⟨?_,fun hreturns => ?_⟩
      · rw [clean_append,after_pair]
        exact ⟨hown,(clean_online_iff env sock).mpr h⟩
      · obtain ⟨e,he⟩ := online_exits env sock h
        exact absurd he (hreturns e)
  | none =>
    cases hdone : env.done 0 with
    | true =>
      have hrun : txStartNet env (fun k => .ok (results k)) t =
          ⟨pair (.worker env.self)++(pair .conf++pair (.worker env.self)),.error .gaveUp⟩ := by
        simp [txStartNet,dial,hfirst,reconnect,kreconnectlimit,hdone]
      rw [hrun]
      refine ⟨fun _ => .inl rfl,fun _ => ⟨?_,fun _ => ?_⟩⟩
      · simp [clean_append,clean_pair]
      · simp [after_append]
    | false =>
      cases hsecond : results 1 with
      | some sock =>
        have hrun : txStartNet env (fun k => .ok (results k)) t =
            ⟨untilRetry env.self++(online env sock).events,(online env sock).ending⟩ := by
          simp [txStartNet,dial,hfirst,reconnect,kreconnectlimit,hdone,hsecond,untilRetry]
        rw [hrun]
        constructor
        · intro h
          have hclean := h.clean
          rw [clean_append,after_untilRetry] at hclean
          exact .inr ⟨rfl,(clean_online_held_iff env sock).mp hclean.2⟩
        · rintro (h | ⟨-,h⟩)
          · cases h
          · refine ⟨?_,fun hreturns => ?_⟩
            · rw [clean_append,after_untilRetry]
              exact ⟨clean_untilRetry _,(clean_online_held_iff env sock).mpr h⟩
            · rw [after_append,after_untilRetry]
              exact after_online_held env sock hreturns
      | none =>
        -- the third attempt would come behind the lock order, whatever it finds
        refine ⟨fun h => ?_,fun h => by simp at h⟩
        obtain ⟨es,hes⟩ := txStartNet_events env (fun k => .ok (results k)) t
        have hclean := h.clean
        rw [hes,dial_retry (by rw [hfirst]) hdone (by rw [hsecond]),List.append_assoc,clean_append,
          after_untilRetry,clean_append] at hclean
        exact absurd hclean.2.1 (not_clean_reconnect _ _ _ 510 1 _)

/-- One worker, not verbose, that meets no trouble but in its attempts. -/
def StartEnv.quiet : StartEnv 1 := ⟨0,fun _ => false,0,none,fun _ => none⟩

/-- The first `n` attempts fail. -/
def failing (n k : ℕ) : Sockfd := if k < n then none else some ⟨3,false,false,false⟩

/-- With no failure at all the mutex is unlocked without having been locked; with two failures
`txconf->mutex` is taken and the worker's mutex locked again behind it. Only a single failure
goes well, and not at verbosity 8. -/
theorem locksOutOfOrder_of_success :
    (txStartNet .quiet (fun k => .ok (failing 0 k)) ⟨2,0⟩).events =
        [.lock (.worker 0),.unlock (.worker 0),.unlock (.worker 0)] ∧
      ¬ LocksInOrder (txStartNet .quiet (fun k => .ok (failing 0 k)) ⟨2,0⟩) ∧
      ¬ LocksInOrder (txStartNet .quiet (fun k => .ok (failing 2 k)) ⟨2,0⟩) ∧
      ¬ LocksInOrder (txStartNet { StartEnv.quiet with gverbose := 8 }
        (fun k => .ok (failing 1 k)) ⟨2,0⟩) :=
  ⟨by decide,fun h => absurd h.clean (by decide),fun h => absurd h.clean (by decide),
    fun h => absurd h.clean (by decide)⟩

example : LocksInOrder (txStartNet .quiet (fun k => .ok (failing 1 k)) ⟨2,0⟩) :=
  ⟨by decide,fun _ => by decide⟩

/-- What the transmitter takes for the end of a call. -/
def startAction : Except NetEnd Socket → WorkerAction
  | .ok _ => .connected
  | .error .gaveUp => .giveUp
  | .error (.exited e) => .startFailed e

/-- Each end of `tx_start_net` is a step of the worker that waits for it, and the process ends
in that step when it does in the call. -/
theorem workerStep_startAction {cfg : TxConfig} {i : Fin W} {mutex : Option (TxThread W)}
    {done recover : Bool} {w : TxWorker} (hpc : w.pc = .connecting recover)
    (ending : Except NetEnd Socket) :
    ∃ m, workerStep cfg i mutex done w (startAction ending) = some m ∧
      ∀ e, m.exited = some e ↔ ending = .error (.exited e) := by
  cases ending with
  | ok sock => simp [workerStep,startAction,hpc]
  | error e => cases e <;> simp [workerStep,startAction,hpc]

end Viamillipede
