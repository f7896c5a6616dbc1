import Viamillipede.TxConnect
import Viamillipede.Transition
import Mathlib.Algebra.BigOperators.Group.Finset.Basic
import Mathlib.Data.Int.CardIntervalMod

/-! `tx_tcp_connect_next` called by any number of workers at once.

The cursor is shared and nothing protects it. One step is one access to it: the increment
reads it and writes it back, and so does the modulo. -/
namespace Viamillipede

open Transition

/-- Where a worker stands in `tx_tcp_connect_next`, with `chosen_target` and what the modulo
has read of the cursor. -/
inductive NextPc
  | outside
  | increment (chosenTarget : ℕ)
  | reload (chosenTarget : ℕ)
  | reduce (chosenTarget held : ℕ)
  | asserting (chosenTarget : ℕ)
  deriving DecidableEq

/-- The shared cursor and the calls. The last two fields are history: the targets in the order
of the increments, and those handed to `tcp_connect`. -/
structure TargetState (W : ℕ) where
  targets : Targets
  pc : Fin W → NextPc
  exited : Option Exit
  chosen : List ℕ
  connected : List ℕ

variable {W n : ℕ}

namespace TargetState

def goto (s : TargetState W) (w : Fin W) (p : NextPc) : TargetState W :=
  { s with pc := Function.update s.pc w p }

def setCursor (s : TargetState W) (k : ℕ) : TargetState W :=
  { s with targets := { s.targets with cursor := k } }

end TargetState

/-- The next step of worker `w`, whose calls follow one another. -/
def nextStep (s : TargetState W) (w : Fin W) : Option (TargetState W) :=
  if s.exited.isSome then none else
  match s.pc w with
  | .outside => some (s.goto w (.increment s.targets.cursor))
  | .increment c =>
    some { ((s.setCursor (c+1)).goto w (.reload c)) with chosen := s.chosen++[c] }
  | .reload c => some (s.goto w (.reduce c s.targets.cursor))
  | .reduce c held => some ((s.setCursor (held%s.targets.count)).goto w (.asserting c))
  | .asserting c =>
    if s.targets.cursor < s.targets.count then
      some { s.goto w .outside with connected := s.connected++[c] }
    else some { s with exited := some (.assertion 192) }

def targetMachine (W n : ℕ) : Machine (TargetState W) (Fin W) where
  init s := s = ⟨⟨n,0⟩,fun _ => .outside,none,[],[]⟩
  step := nextStep

namespace NextPc

/-- The call has chosen a target. -/
def target : NextPc → Option ℕ
  | outside => none
  | increment c | reload c | reduce c _ | asserting c => some c

/-- The call has raised the cursor to `n` and its own modulo is still to come. -/
def raised (n : ℕ) : NextPc → Bool
  | reload c | reduce c _ => c+1 = n
  | _ => false

/-- How many calls for target `j` this one adds to those already handed to `tcp_connect`. -/
def pending (j : ℕ) : NextPc → ℕ
  | outside | increment _ => 0
  | reload c | reduce c _ | asserting c => if c = j then 1 else 0

end NextPc

namespace TargetState

/-- Some call has put the cursor to `target_port_count`, and no modulo has run since. -/
def Overrun (s : TargetState W) : Prop :=
  s.targets.cursor = s.targets.count ∧ ∃ w, (s.pc w).raised s.targets.count = true

instance (s : TargetState W) : Decidable s.Overrun := by
  unfold Overrun
  infer_instance

/-- The increment and the modulo each work on the cursor as it stands, and a call neither
reads its target nor checks the assertion while the cursor is overrun. -/
def Undisturbed (s : TargetState W) (w : Fin W) : Prop :=
  match s.pc w with
  | .outside | .asserting _ => ¬ s.Overrun
  | .increment c => s.targets.cursor = c
  | .reload _ => True
  | .reduce _ held => s.targets.cursor = held

instance (s : TargetState W) (w : Fin W) : Decidable (s.Undisturbed w) := by
  unfold Undisturbed
  split <;> infer_instance

end TargetState

/-- The targets are used in turn. -/
structure InTurn (n : ℕ) (s : TargetState W) : Prop where
  inRange : ∀ w c, (s.pc w).target = some c → c < n
  reached : ∀ c ∈ s.connected, c < n
  asserted : s.exited = none
  /-- Each target has its share of the choices made so far. -/
  shared : ∀ j < n, s.chosen.count j = s.chosen.length/n ∨
    s.chosen.count j = (s.chosen.length+n-1)/n
  /-- Each target has its share of the completed calls when no call is under way. -/
  balanced : (∀ w, s.pc w = .outside) → ∀ j < n, s.connected.count j = s.connected.length/n ∨
    s.connected.count j = (s.connected.length+n-1)/n
  /-- As long as there have been no more calls than targets, each has a target of its own. -/
  own : s.chosen.length ≤ n → s.chosen.Nodup ∧ s.connected.Nodup

namespace TargetState

@[simp] theorem goto_self (s : TargetState W) (w : Fin W) (p : NextPc) : (s.goto w p).pc w = p := by
  simp [goto]

theorem goto_other (s : TargetState W) {w v : Fin W} (h : v ≠ w) (p : NextPc) :
    (s.goto w p).pc v = s.pc v := by
  simp [goto,h]

@[simp] theorem goto_chosen (s : TargetState W) (w : Fin W) (p : NextPc) :
    (s.goto w p).chosen = s.chosen := rfl

@[simp] theorem goto_connected (s : TargetState W) (w : Fin W) (p : NextPc) :
    (s.goto w p).connected = s.connected := rfl

@[simp] theorem setCursor_pc (s : TargetState W) (k : ℕ) : (s.setCursor k).pc = s.pc := rfl

@[simp] theorem setCursor_chosen (s : TargetState W) (k : ℕ) :
    (s.setCursor k).chosen = s.chosen := rfl

@[simp] theorem setCursor_connected (s : TargetState W) (k : ℕ) :
    (s.setCursor k).connected = s.connected := rfl

/-- What a move of `w` does to the calls under way. -/
theorem sum_goto (s : TargetState W) (w : Fin W) (p : NextPc) (j : ℕ) :
    ∑ v, ((s.goto w p).pc v).pending j+(s.pc w).pending j =
      ∑ v, (s.pc v).pending j+p.pending j := by
  rw [← Finset.add_sum_erase Finset.univ _ (Finset.mem_univ w),
    ← Finset.add_sum_erase Finset.univ (fun v => (s.pc v).pending j) (Finset.mem_univ w)]
  have hrest : ∑ v ∈ Finset.univ.erase w, ((s.goto w p).pc v).pending j =
      ∑ v ∈ Finset.univ.erase w, (s.pc v).pending j := by
    apply Finset.sum_congr rfl
    intro v hv
    rw [goto_other s (Finset.ne_of_mem_erase hv)]
  rw [hrest,goto_self]
  omega

/-- A move of `w` keeps the tally when it moves a target from one side to the other. -/
theorem tally_goto {s : TargetState W} {w : Fin W} {p : NextPc} {j a b a' b' : ℕ}
    (h : a+∑ v, (s.pc v).pending j = b)
    (hp : a'+p.pending j+b = a+(s.pc w).pending j+b') :
    a'+∑ v, ((s.goto w p).pc v).pending j = b' := by
  have hsum := sum_goto s w p j
  omega

/-- What the cursor has to do with the choices made, and each call with the cursor. -/
structure Cycling (n : ℕ) (s : TargetState W) : Prop where
  alive : s.exited = none
  count : s.targets.count = n
  room : s.targets.cursor ≤ n
  overrun : s.targets.cursor = n → ∃ w, (s.pc w).raised n = true
  cursor : s.targets.cursor%n = s.chosen.length%n
  order : s.chosen = (List.range s.chosen.length).map (·%n)
  inRange : ∀ w c, (s.pc w).target = some c → c < n
  tally : ∀ j, s.connected.count j+∑ w, (s.pc w).pending j = s.chosen.count j

theorem Cycling.init (hn : 0 < n) : Cycling n (⟨⟨n,0⟩,fun _ => .outside,none,[],[]⟩ : TargetState W) := by
  refine ⟨rfl,rfl,Nat.zero_le n,?_,rfl,rfl,?_,?_⟩
  · intro h
    exact absurd h hn.ne
  · intro w c h
    cases h
  · intro j
    simp [NextPc.pending]

/-- A call that reads the cursor while it is not overrun finds it below the count. -/
theorem Cycling.below {s : TargetState W} (hs : Cycling n s) (h : ¬ s.Overrun) :
    s.targets.cursor < n := by
  apply lt_of_le_of_ne hs.room
  intro hfull
  apply h
  rw [Overrun,hs.count]
  exact ⟨hfull,hs.overrun hfull⟩

theorem inRange_goto {s : TargetState W} (h : ∀ w c, (s.pc w).target = some c → c < n)
    {w : Fin W} {p : NextPc} (hp : ∀ c, p.target = some c → c < n) :
    ∀ v c, ((s.goto w p).pc v).target = some c → c < n := by
  intro v c hc
  by_cases hv : v = w
  · subst hv
    rw [goto_self] at hc
    exact hp c hc
  · rw [goto_other s hv] at hc
    exact h v c hc

theorem Cycling.step (hn : 0 < n) {s t : TargetState W} (hs : Cycling n s) {w : Fin W}
    (hok : s.Undisturbed w) (h : nextStep s w = some t) : Cycling n t := by
  have hown := hs.inRange w
  simp only [nextStep,hs.alive,Option.isSome_none,Bool.false_eq_true,if_false] at h
  unfold Undisturbed at hok
  cases hpc : s.pc w with
  | outside =>
    simp only [hpc] at h hok
    cases h
    have hbelow := hs.below hok
    refine ⟨hs.alive,hs.count,hs.room,fun hfull => absurd hfull hbelow.ne,hs.cursor,hs.order,?_,?_⟩
    · apply inRange_goto hs.inRange
      rintro c ⟨⟩
      exact hbelow
    · intro j
      exact tally_goto (hs.tally j) (by simp [hpc,NextPc.pending])
  | increment c =>
    simp only [hpc] at h hok hown
    cases h
    have hc : c < n := hown c rfl
    have hturn : c = s.chosen.length%n := by
      rw [← hs.cursor,hok,Nat.mod_eq_of_lt hc]
    refine ⟨hs.alive,hs.count,hc,fun hfull => ⟨w,?_⟩,?_,?_,?_,?_⟩
    · rw [goto_self]
      exact decide_eq_true hfull
    · change (c+1)%n = (s.chosen++[c]).length%n
      rw [List.length_append,List.length_singleton,hturn,Nat.mod_add_mod]
    · change s.chosen++[c] = (List.range (s.chosen++[c]).length).map (·%n)
      rw [List.length_append,List.length_singleton,List.range_succ,List.map_append,← hs.order,
        List.map_singleton,← hturn]
    · apply inRange_goto (s := s.setCursor (c+1)) hs.inRange
      rintro d ⟨⟩
      exact hc
    · intro j
      refine tally_goto (s := s.setCursor (c+1)) (hs.tally j) ?_
      rw [setCursor_pc,goto_connected,setCursor_connected,hpc,List.count_append,List.count_singleton]
      simp only [NextPc.pending,beq_iff_eq]
      omega
  | reload c =>
    simp only [hpc] at h hown
    cases h
    refine ⟨hs.alive,hs.count,hs.room,fun hfull => ?_,hs.cursor,hs.order,?_,?_⟩
    · obtain ⟨v,hv⟩ := hs.overrun hfull
      refine ⟨v,?_⟩
      by_cases hvw : v = w
      · subst hvw
        rw [hpc] at hv
        rwa [goto_self]
      · rwa [goto_other s hvw]
    · apply inRange_goto hs.inRange
      rintro d ⟨⟩
      exact hown c rfl
    · intro j
      exact tally_goto (hs.tally j) (by simp [hpc,NextPc.pending])
  | reduce c held =>
    simp only [hpc] at h hok hown
    cases h
    have hlow : held%s.targets.count < n := by
      rw [hs.count]
      exact Nat.mod_lt held hn
    refine ⟨hs.alive,hs.count,hlow.le,fun hfull => absurd hfull hlow.ne,?_,hs.order,?_,?_⟩
    · change held%s.targets.count%n = s.chosen.length%n
      rw [hs.count,Nat.mod_mod,← hok,hs.cursor]
    · apply inRange_goto (s := s.setCursor _) hs.inRange
      rintro d ⟨⟩
      exact hown c rfl
    · intro j
      exact tally_goto (hs.tally j) (by simp [hpc,NextPc.pending])
  | asserting c =>
    simp only [hpc] at h hok
    have hbelow := hs.below hok
    rw [if_pos (hs.count ▸ hbelow)] at h
    cases h
    refine ⟨hs.alive,hs.count,hs.room,fun hfull => absurd hfull hbelow.ne,hs.cursor,hs.order,?_,?_⟩
    · apply inRange_goto hs.inRange
      rintro d ⟨⟩
    · intro j
      refine tally_goto (hs.tally j) ?_
      rw [hpc,goto_chosen,List.count_append,List.count_singleton]
      simp only [NextPc.pending,beq_iff_eq]
      omega

/-- The share of each target when they are used in turn. -/
theorem count_inTurn (hn : 0 < n) (m : ℕ) {j : ℕ} (hj : j < n) :
    ((List.range m).map (·%n)).count j = m/n+if j < m%n then 1 else 0 := by
  have hcount : ((List.range m).map (·%n)).count j = Nat.count (· ≡ j [MOD n]) m := by
    induction m with
    | zero => rfl
    | succ m ih =>
      rw [List.range_succ,List.map_append,List.count_append,ih,Nat.count_succ,List.map_singleton,
        List.count_singleton]
      simp [Nat.ModEq,Nat.mod_eq_of_lt hj]
  rw [hcount,Nat.count_modEq_card m hn,Nat.mod_eq_of_lt hj]

theorem share_inTurn (hn : 0 < n) (m : ℕ) {j : ℕ} (hj : j < n) :
    ((List.range m).map (·%n)).count j = m/n ∨
      ((List.range m).map (·%n)).count j = (m+n-1)/n := by
  rw [count_inTurn hn m hj]
  by_cases hmore : j < m%n
  · right
    have hm := Nat.div_add_mod m n
    have hlow := Nat.mod_lt m hn
    have hceil : m+n-1 = n*(m/n+1)+(m%n-1) := by
      rw [Nat.mul_add,Nat.mul_one]
      omega
    rw [if_pos hmore,hceil,Nat.mul_add_div hn,Nat.div_eq_of_lt (show m%n-1 < n by omega),
      Nat.add_zero]
  · left
    rw [if_neg hmore,Nat.add_zero]

theorem nodup_inTurn {m : ℕ} (hm : m ≤ n) : ((List.range m).map (·%n)).Nodup := by
  rw [List.nodup_map_iff_inj_on List.nodup_range]
  intro a ha b hb hab
  rw [List.mem_range] at ha hb
  rwa [Nat.mod_eq_of_lt (by omega),Nat.mod_eq_of_lt (by omega)] at hab

theorem Cycling.inTurn (hn : 0 < n) {s : TargetState W} (hs : Cycling n s) : InTurn n s := by
  have hshared : ∀ j < n, s.chosen.count j = s.chosen.length/n ∨
      s.chosen.count j = (s.chosen.length+n-1)/n := by
    intro j hj
    have hshare := share_inTurn hn s.chosen.length hj
    rwa [← hs.order] at hshare
  refine ⟨hs.inRange,fun c hc => ?_,hs.alive,hshared,fun hidle => ?_,fun hfew => ?_⟩
  · have htally := hs.tally c
    have hmem : c ∈ s.chosen := by
      rw [← List.count_pos_iff] at hc ⊢
      omega
    rw [hs.order] at hmem
    obtain ⟨k,-,rfl⟩ := List.mem_map.mp hmem
    exact Nat.mod_lt k hn
  · have hperm : s.connected.Perm s.chosen := by
      rw [List.perm_iff_count]
      intro j
      have htally := hs.tally j
      simpa [hidle,NextPc.pending] using htally
    intro j hj
    rw [hperm.count_eq j,hperm.length_eq]
    exact hshared j hj
  · have hchosen : s.chosen.Nodup := by
      rw [hs.order]
      exact nodup_inTurn hfew
    refine ⟨hchosen,?_⟩
    rw [List.nodup_iff_count_le_one]
    intro j
    have htally := hs.tally j
    have hone := List.nodup_iff_count_le_one.mp hchosen j
    omega

end TargetState

/-- Calls that leave each other's increments and modulos whole, and the overrun cursor alone,
use the targets in turn: any number of workers and calls, any number of targets. -/
theorem inTurn_of_undisturbed (hn : 0 < n) {s : TargetState W}
    (hs : Reachable (targetMachine W n) TargetState.Undisturbed s) : InTurn n s := by
  apply TargetState.Cycling.inTurn hn
  refine hs.invariant (I := TargetState.Cycling n) ?_ ?_
  · rintro s rfl
    exact .init hn
  · intro s w t _ hcycling hok hstep
    exact hcycling.step hn hok hstep

/-- Two calls for two targets that overlap: the second worker's increment comes between the
modulo and the assertion of the first. -/
theorem inTurn_overlapping :
    0 < 2 ∧ ∃ s, Reachable (targetMachine 2 2) TargetState.Undisturbed s ∧
      s.connected = [1,0] ∧ InTurn 2 s := by
  have hrun : ∃ s ∈ exec (targetMachine 2 2) TargetState.Undisturbed
      ⟨⟨2,0⟩,fun _ => .outside,none,[],[]⟩ [0,0,0,0,1,1,1,1,1,0],
      s.connected = [1,0] := by decide
  obtain ⟨s,hs,hconnected⟩ := exists_reachable rfl hrun
  exact ⟨by decide,s,hs,hconnected,inTurn_of_undisturbed (by decide) hs⟩

/-- Two workers, two targets, increments and modulos undivided: the second worker reads the
cursor between the first one's second increment and its modulo, takes target 2 of 0 and 1 and
connects to it. -/
theorem chosen_out_of_range :
    ∃ s, Reachable (targetMachine 2 2) anyStep s ∧ s.exited = none ∧
      (∀ w, s.pc w = .outside) ∧ s.connected = [0,1,2] ∧ ¬ InTurn 2 s := by
  have hrun : ∃ s ∈ exec (targetMachine 2 2) anyStep ⟨⟨2,0⟩,fun _ => .outside,none,[],[]⟩
      [0,0,0,0,0,0,0,1,1,0,0,0,1,1,1],
      s.exited = none ∧ (∀ w, s.pc w = .outside) ∧ s.connected = [0,1,2] := by decide
  obtain ⟨s,hs,halive,hidle,hconnected⟩ := exists_reachable rfl hrun
  refine ⟨s,hs,halive,hidle,hconnected,fun hturn => ?_⟩
  exact absurd (hturn.reached 2 (by simp [hconnected])) (by decide)

/-- A call that nobody interrupts moves the cursor as `Targets.next` does. -/
theorem exec_callAlone {s : TargetState W} {w : Fin W} (halive : s.exited = none)
    (hpc : s.pc w = .outside) (hcursor : s.targets.cursor < s.targets.count) :
    exec (targetMachine W n) anyStep s (List.replicate 5 w) =
      some { s with
        targets := s.targets.next
        chosen := s.chosen++[s.targets.cursor]
        connected := s.connected++[s.targets.cursor] } := by
  have hnext : (s.targets.cursor+1)%s.targets.count < s.targets.count :=
    Nat.mod_lt _ (Nat.zero_lt_of_lt hcursor)
  have hback : Function.update s.pc w .outside = s.pc := by
    rw [← hpc,Function.update_eq_self]
  simp [List.replicate,exec,targetMachine,nextStep,anyStep,halive,hpc,TargetState.goto,
    TargetState.setCursor,Targets.next,hnext,hback]

end Viamillipede
