import Viamillipede.TxControl

/-! `txlaunchworkers`, with the threads it creates and the ingest thread running beside it.

`init_workers` has set every state to 'E'. The launcher visits the workers in turn: it sets
'-', then 'L', and creates the thread. What a run does to the created workers and to the
ingest thread is a run of the transmitter. -/
namespace Viamillipede

open Transition

/-- The letters of `txworker_s.state`. -/
inductive Letter
  | error                      -- 'E'
  | uninitialized              -- '-'
  | state (s : WorkerState)
  deriving DecidableEq, Repr

/-- Where `txlaunchworkers` is in its turn for one worker. -/
inductive LaunchPc
  | mark                       -- 356
  | label                      -- 363
  | create                     -- 370
  deriving DecidableEq, Repr

/-- The transmitter and its launcher; `cursor` is `worker_cursor`, and `before` is the state
of each worker that has no thread yet. -/
structure LaunchState (W : ℕ) where
  tx : TxState W
  cursor : ℕ
  pc : LaunchPc
  before : Fin W → Letter

/-- What may happen next: the launcher moves or fails, or the transmitter moves. -/
inductive LaunchAction (W : ℕ)
  | launch
  | launchFailed (e : Exit)
  | tx (a : TxAction W)
  deriving DecidableEq

variable {W : ℕ} {cfg : TxConfig}

namespace LaunchState

/-- A worker's state. -/
def letter (s : LaunchState W) (w : Fin W) : Letter :=
  if w.val < s.cursor then .state (s.tx.workers w).state else s.before w

/-- The launcher writes the state of a worker that has no thread. -/
def write (s : LaunchState W) (w : Fin W) (l : Letter) (pc : LaunchPc) : LaunchState W :=
  { s with before := Function.update s.before w l, pc := pc }

/-- The thread or action can be running: a worker has been created, and the main thread
polls when it has launched them all. -/
def enabled (s : LaunchState W) : TxAction W → Bool
  | .worker i _ => i.val < s.cursor
  | .poll => W ≤ s.cursor
  | _ => true

end LaunchState

/-- The turn of `txlaunchworkers` for worker `w`. -/
def launchTurn (s : LaunchState W) (w : Fin W) : LaunchState W :=
  match s.pc with
  | .mark => s.write w .uninitialized .label
  | .label => s.write w (.state .launched) .create
  | .create => { s with cursor := s.cursor+1, pc := .mark }

def launchStep (cfg : TxConfig) (s : LaunchState W) : LaunchAction W → Option (LaunchState W)
  | .launch =>
    if s.tx.exited.isSome then none
    else if h : s.cursor < W then some (launchTurn s ⟨s.cursor,h⟩)
    else none
  | .launchFailed e =>
    if s.tx.exited.isSome ∨ W ≤ s.cursor ∨ s.pc ≠ .create then none
    else some { s with tx := { s.tx with exited := some e } }
  | .tx a => if s.enabled a then (txStep cfg s.tx a).map fun t => { s with tx := t } else none

/-- `init_workers` is through, and nothing has been launched. -/
def launchInit (W : ℕ) : LaunchState W := ⟨txInit W,0,.mark,fun _ => .error⟩

def launchMachine (cfg : TxConfig) (W : ℕ) : Machine (LaunchState W) (LaunchAction W) where
  init s := s = launchInit W
  step := launchStep cfg

namespace LaunchState

/-- The launcher's place shows in the states of the workers without a thread, which nobody
else has touched. -/
structure Launching (s : LaunchState W) : Prop where
  control : TxControl s.tx
  waiting : ∀ w : Fin W, s.cursor ≤ w.val → s.tx.workers w = .launched
  later : ∀ w : Fin W, s.cursor < w.val → s.before w = .error
  current : ∀ w : Fin W, s.cursor = w.val → s.before w =
    match s.pc with
    | .mark => .error
    | .label => .uninitialized
    | .create => .state .launched

theorem Launching.init : Launching (launchInit W) :=
  ⟨TxControl.init,fun _ _ => rfl,fun _ _ => rfl,fun _ _ => rfl⟩

/-- The ingest thread leaves a worker alone that has just been launched. -/
theorem launched_of_effect {s t : TxState W} (hs : TxControl s) (h : IngestEffect s t) {i : Fin W}
    (hi : s.workers i = .launched) : t.workers i = .launched := by
  have hbusy : (s.workers i).state ≠ .idle := by
    rw [hi]
    decide
  cases h.change.worker i with
  | same hsame => rw [hsame,hi]
  | stored pkt buffer hfound => exact absurd (hs.found i hfound) hbusy
  | marked hfound => exact absurd (hs.found i hfound) hbusy

theorem Launching.turn {s : LaunchState W} (hs : s.Launching) {w : Fin W} (hw : s.cursor = w.val) :
    (launchTurn s w).Launching := by
  have hcurrent := hs.current
  unfold launchTurn
  cases hpc : s.pc with
  | mark | label =>
    refine ⟨hs.control,hs.waiting,fun v hv => ?_,fun v hv => ?_⟩
    · have hne : v ≠ w := by
        rintro rfl
        exact absurd hw hv.ne
      simpa [write,hne] using hs.later v hv
    · have heq : v = w := Fin.ext (hv.symm.trans hw)
      simp [write,heq]
  | create =>
    refine ⟨hs.control,fun v hv => ?_,fun v hv => ?_,fun v hv => ?_⟩ <;> simp only at hv
    · exact hs.waiting v (by omega)
    · exact hs.later v (by omega)
    · exact hs.later v (by omega)

theorem Launching.tx {s : LaunchState W} (hs : s.Launching) {a : TxAction W} {t : TxState W}
    (hen : s.enabled a = true) (h : txStep cfg s.tx a = some t) :
    Launching { s with tx := t } := by
  refine ⟨hs.control.step h,fun w hw => ?_,hs.later,hs.current⟩
  have hlaunched := hs.waiting w hw
  cases txStep_cases h with
  | ingest _ heffect => exact launched_of_effect hs.control heffect hlaunched
  | fillFailed _ ht => rwa [ht]
  | worker i b m ha _ ht =>
    subst ha ht
    have hi : w ≠ i := by
      rintro rfl
      exact absurd (of_decide_eq_true hen) (not_lt.mpr hw)
    simpa [TxState.moved,hi] using hlaunched
  | poll _ ht =>
    obtain ⟨p,hp⟩ := pollStep_eq s.tx
    rwa [ht,hp]

theorem Launching.step {s t : LaunchState W} (hs : s.Launching) {a : LaunchAction W}
    (h : launchStep cfg s a = some t) : t.Launching := by
  cases a with
  | launch =>
    simp only [launchStep] at h
    split_ifs at h with halive hmore
    cases h
    exact hs.turn rfl
  | launchFailed e =>
    simp only [launchStep] at h
    split_ifs at h
    cases h
    exact ⟨⟨hs.control.worker,hs.control.found⟩,hs.waiting,hs.later,hs.current⟩
  | tx a =>
    simp only [launchStep] at h
    split_ifs at h with hen
    obtain ⟨u,hu,rfl⟩ := Option.map_eq_some_iff.mp h
    exact hs.tx hen hu

theorem Launching.reachable {ok : LaunchState W → LaunchAction W → Prop} {s : LaunchState W}
    (hs : Reachable (launchMachine cfg W) ok s) : s.Launching :=
  hs.invariant (by rintro s rfl; exact .init) fun _ _ _ _ h _ hstep => h.step hstep

theorem alive_of_step {s t : LaunchState W} {a : LaunchAction W}
    (h : launchStep cfg s a = some t) : s.tx.exited = none := by
  cases a with
  | launch =>
    simp only [launchStep] at h
    split_ifs at h with halive
    simpa using halive
  | launchFailed e =>
    simp only [launchStep] at h
    split_ifs at h with hbad
    simp only [not_or] at hbad
    simpa using hbad.1
  | tx a =>
    simp only [launchStep] at h
    split_ifs at h
    obtain ⟨u,hu,-⟩ := Option.map_eq_some_iff.mp h
    by_contra hgone
    simp [txStep,Option.isSome_iff_ne_none,hgone] at hu

/-- Until the process exits, what a run does beside the launcher is a run of the transmitter. -/
theorem tx_reachable {ok : LaunchState W → LaunchAction W → Prop} {s : LaunchState W}
    (hs : Reachable (launchMachine cfg W) ok s) (halive : s.tx.exited = none) :
    Reachable (txMachine cfg W) anyStep s.tx := by
  induction hs with
  | init h =>
    cases h
    exact .init rfl
  | @step s t a hr _ hst ih =>
    have hbefore := ih (alive_of_step hst)
    change launchStep cfg s a = some t at hst
    cases a with
    | launch =>
      simp only [launchStep] at hst
      split_ifs at hst
      cases hst
      have hsame : ∀ w, (launchTurn s w).tx = s.tx := by
        intro w
        unfold launchTurn
        split <;> rfl
      rwa [hsame]
    | launchFailed e =>
      simp only [launchStep] at hst
      split_ifs at hst
      cases hst
      cases halive
    | tx b =>
      simp only [launchStep] at hst
      split_ifs at hst
      obtain ⟨u,hu,rfl⟩ := Option.map_eq_some_iff.mp hst
      exact hbefore.step trivial hu

end LaunchState
end Viamillipede
