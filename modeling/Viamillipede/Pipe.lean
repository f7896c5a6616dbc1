import Viamillipede.Transition

/-! A pipe. What is put into one end comes out of the other, whole and in order, and the end
of the stream is reported when all of it has come out. -/
namespace Pipe

open Transition

variable {α : Type*}

/-- What was put in and what has come out, whether the writing end is closed, and whether the
end has been reported. -/
structure State (α : Type*) where
  input : List α
  output : List α
  closed : Bool
  ended : Bool
  deriving DecidableEq

inductive Action (α : Type*)
  | put (xs : List α)
  | close
  | take (count : ℕ)
  | finish

def step (s : State α) : Action α → Option (State α)
  | .put xs => if s.closed then none else some { s with input := s.input++xs }
  | .close => some { s with closed := true }
  | .take count => some { s with output := s.input.take (s.output.length+count) }
  | .finish =>
    if s.closed = true ∧ s.output.length = s.input.length then some { s with ended := true }
    else none

def machine (α : Type*) : Machine (State α) (Action α) where
  init := fun s => s = ⟨[],[],false,false⟩
  step := step

/-- What comes out is what was put in, and the end is the end. -/
structure Sound (s : State α) : Prop where
  order : s.output <+: s.input
  whole : s.ended = true → s.closed = true ∧ s.output = s.input

namespace Sound

variable {s t : State α}

theorem put {xs : List α} (hs : Sound s) (hopen : s.closed = false) :
    Sound { s with input := s.input++xs } where
  order := hs.order.trans (List.prefix_append _ _)
  whole h := absurd (hs.whole h).1 (by simp [hopen])

theorem take (hs : Sound s) (count : ℕ) :
    Sound { s with output := s.input.take (s.output.length+count) } where
  order := List.take_prefix _ _
  whole h := by
    obtain ⟨hclosed,hall⟩ := hs.whole h
    exact ⟨hclosed,List.take_of_length_le (by rw [hall]; exact Nat.le_add_right _ _)⟩

theorem finish (hs : Sound s) (hclosed : s.closed = true)
    (hlen : s.output.length = s.input.length) : Sound { s with ended := true } where
  order := hs.order
  whole _ := ⟨hclosed,hs.order.eq_of_length hlen⟩

theorem step {a : Action α} (hs : Sound s) (h : Pipe.step s a = some t) : Sound t := by
  cases a with
  | put xs =>
    simp only [Pipe.step] at h
    split at h <;> cases h
    rename_i hopen
    exact hs.put (by simpa using hopen)
  | close => cases h; exact ⟨hs.order,fun h => ⟨rfl,(hs.whole h).2⟩⟩
  | take count => cases h; exact hs.take count
  | finish =>
    simp only [Pipe.step] at h
    split at h <;> cases h
    rename_i hend
    exact hs.finish hend.1 hend.2

theorem reachable {ok : State α → Action α → Prop} (hs : Reachable (machine α) ok s) : Sound s :=
  hs.invariant (by rintro s rfl; exact ⟨List.prefix_rfl,nofun⟩) fun _ _ _ _ h _ hstep =>
    h.step hstep

end Sound

section Leads

variable {s : State α}

theorem leads_put {xs : List α} (hopen : s.closed = false) :
    (machine α).Leads anyStep s { s with input := s.input++xs } :=
  .single ⟨.put xs,trivial,by simp [machine,step,hopen]⟩

theorem leads_close : (machine α).Leads anyStep s { s with closed := true } :=
  .single ⟨.close,trivial,rfl⟩

/-- More of what was put in comes out. -/
theorem leads_take {out : List α} (hmore : s.output <+: out) (hin : out <+: s.input) :
    (machine α).Leads anyStep s { s with output := out } := by
  refine .single ⟨.take (out.length-s.output.length),trivial,?_⟩
  have hlen := hmore.length_le
  have hout : s.input.take (s.output.length+(out.length-s.output.length)) = out := by
    rw [Nat.add_sub_cancel' hlen,← List.prefix_iff_eq_take.mp hin]
  simp only [machine,step,hout]

/-- The rest comes out, and the end is reported. -/
theorem leads_finish (hclosed : s.closed = true) (hpre : s.output <+: s.input) :
    (machine α).Leads anyStep s { s with output := s.input, ended := true } :=
  (leads_take hpre List.prefix_rfl).tail ⟨.finish,trivial,by simp [machine,step,hclosed]⟩

/-- Some of the rest comes out, and the end is reported when it was all. -/
theorem leads_output {out : List α} {ended : Bool} (hmore : s.output <+: out)
    (hin : out <+: s.input) (hkeep : s.ended = true → ended = true)
    (hend : ended = true → s.closed = true ∧ out = s.input) :
    (machine α).Leads anyStep s { s with output := out, ended := ended } := by
  cases hover : ended with
  | true =>
    obtain ⟨hclosed,hall⟩ := hend hover
    exact hall ▸ leads_finish hclosed (hmore.trans hin)
  | false =>
    have hrun : s.ended = false := by
      by_contra hne
      have hset := hkeep (by simpa using hne)
      simp [hover] at hset
    exact hrun ▸ leads_take hmore hin

end Leads

end Pipe
