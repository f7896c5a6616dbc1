import Viamillipede.ArgumentsGrammar

/-! Which command lines leave the loop of `main` with a safe configuration.

Words are read as keywords and operands in the order of the comparisons, also where an operand is
compared once more; the limits on the configuration are then limits on the words. -/
namespace Viamillipede

open Numeral

section Safety

variable (einval : Bool) (argv : List Word)

/-- The indices of `argv` that the comparisons of a pass read. -/
def chainCompared : List Keyword → Parse → List ℕ
  | [],_ => []
  | k::ks,p =>
    p.cursor::
      if argv[p.cursor]? = some k.text then
        match branch einval argv k p with
        | .ok q => chainCompared ks q
        | .error _ => []
      else chainCompared ks p

/-- The indices that the loop itself reads: the one it reports at line 82, and the comparisons. -/
def loopCompared : ℕ → Parse → List ℕ
  | 0,_ => []
  | n+1,p =>
    if p.cursor < argv.length then
      if p.errno then [p.cursor]
      else p.cursor::chainCompared einval argv Keyword.order p++
        match chain einval argv Keyword.order p with
        | .ok q => loopCompared n { q with cursor := q.cursor+1 }
        | .error _ => []
    else []

/-- The words in the place of a port number, one for each `tx` that has been read. -/
def portsGiven (rs : List Reading) : List (Option Word) :=
  (rs.filter fun r => r.role = .keyword .tx).map fun r => argv[r.index+2]?

/-- The limits that `tx.c` relies on. -/
structure SafeOptions (p : Parse) : Prop where
  targets : p.options.targets.length ≤ kthreadmax
  workers : 1 ≤ p.options.workerCount ∧ p.options.workerCount ≤ kthreadmax
  port : p.options.mode &&& modeTx ≠ 0 → ∃ (j : ℕ) (t : Word × UInt16) (w : Word),
    p.options.targets[j]? = some t ∧ (portsGiven argv p.readings)[j]? = some (some w) ∧
      (t.2.toNat : ℤ) = written w ∧ 1 ≤ t.2.toNat ∧ t.2.toNat ≤ 65534

/-- The loop ends with a safe configuration, or a check ends the process; there is no read of
`argv[argc]` (lines 174 and 177) and no store behind `target_ports` (line 105). -/
def SafeEnd : Parsing → Prop
  | .ok p => SafeOptions argv p
  | .error ⟨.exited _,_⟩ => True
  | .error ⟨.undefined _,_⟩ => False

structure SafelyParsed : Prop where
  compared : ∀ i ∈ loopCompared einval argv argv.length .start, i < argv.length
  readings : ∀ r ∈ readingsOf (argLoop einval argv argv.length .start), r.index < argv.length
  finish : SafeEnd argv (argLoop einval argv argv.length .start)

end Safety

/-! The words as the comparisons take them. -/

/-- A word that is no keyword, or a keyword and the words behind it; `fresh` where a pass begins
with it. -/
inductive Clause
  | plain
  | keyword (fresh : Bool) (k : Keyword) (ops : List Word)
  deriving DecidableEq

/-- The comparisons left behind the branch of a keyword; all of them where a pass begins. -/
def compared : Option Keyword → List Keyword
  | none => Keyword.order
  | some k => k.later

/-- The clauses of the words behind the `skip` first ones. The last operand of a keyword is
compared with the keywords that are compared behind it. -/
def clauses : Option Keyword → ℕ → List Word → List Clause
  | _,_,[] => []
  | last,skip+1,_::rest => clauses last skip rest
  | last,0,w::rest =>
    match (compared last).find? fun k => k.text = w with
    | none => if last = none then .plain::clauses none 0 rest else clauses none 0 rest
    | some k => .keyword (last = none) k (rest.take k.arity)::
      match k.arity with
      | 0 => clauses none 0 rest
      | i+1 => clauses (some k) i rest

namespace Keyword

/-- `initiate` has the operands that it dereferences, and with `n` targets so far there is room
for one more. -/
def provided : Keyword → List Word → ℕ → Bool
  | .initiate,[],_ => false
  | .initiate,[host],_ => host = []
  | .tx,host::_,n => host = [] || n < kthreadmax
  | _,_,_ => true

/-- The branch asks for `errno`. -/
def checksErrno : Keyword → Bool
  | .rx | .tx | .threads | .checksums | .delayus => true
  | _ => false

/-- The branch leaves `errno` set, for a number that the library refuses. -/
def sets (einval : Bool) : Keyword → List Word → Bool
  | .verbose,[w] | .terminate,[w] | .initiate,[_,w] => (atoi einval w).errno
  | .prbs,[w] | .leglimit,[w] => (strtoul einval w).errno
  | _,_ => false

end Keyword

/-- The numbers given so far: one for each target, and the last one for the threads. -/
structure Given where
  ports : List Word
  threads : Option Word

namespace Given

def add (g : Given) : Keyword → List Word → Given
  | .tx,[_,w] => { g with ports := g.ports++[w] }
  | .threads,[w] => { g with threads := some w }
  | _,_ => g

/-- There is a thread, and a number of a port for the transmitter. -/
def Final (einval : Bool) (g : Given) : Prop :=
  (∀ w ∈ g.threads, 1 ≤ (atoi einval w).value) ∧
    (g.ports ≠ [] → ∃ w ∈ g.ports, 1 ≤ written w ∧ written w ≤ 65534)

instance (einval : Bool) (g : Given) : Decidable (g.Final einval) :=
  inferInstanceAs (Decidable (_ ∧ _))

end Given

/-- Along the clauses none lacks what its branch uses, and the numbers given at the end are in
range; the clauses behind a check that fails are not looked at. -/
def Safe (einval : Bool) : Bool → Given → List Clause → Prop
  | _,g,[] => g.Final einval
  | errno,g,.plain::cs => errno = true ∨ Safe einval errno g cs
  | errno,g,.keyword fresh k ops::cs =>
    errno = true ∧ (fresh = true ∨ k.checksErrno = true) ∨
      k.provided ops g.ports.length = true ∧
        (k.Returns einval ops → Safe einval (errno || k.sets einval ops) (g.add k ops) cs)

instance decidableSafe (einval : Bool) : ∀ errno g cs, Decidable (Safe einval errno g cs)
  | _,g,[] => inferInstanceAs (Decidable (g.Final einval))
  | errno,g,.plain::cs =>
    have := decidableSafe einval errno g cs
    inferInstanceAs (Decidable (_ ∨ _))
  | errno,g,.keyword _ k ops::cs =>
    have := decidableSafe einval (errno || k.sets einval ops) (g.add k ops) cs
    inferInstanceAs (Decidable (_ ∧ _ ∨ _ ∧ (_ → _)))

def SafeLine (einval : Bool) (argv : List Word) : Prop :=
  Safe einval false ⟨[],none⟩ (clauses none 0 argv)

instance (einval : Bool) (argv : List Word) : Decidable (SafeLine einval argv) :=
  decidableSafe _ _ _ _

example : SafeLine false ((["viamillipede","checkphrase","threads","0"] : List String).map word) ∧
    ¬ SafeLine false ((["viamillipede","verbose","initiate"] : List String).map word) := by
  decide

section Bounds

variable {argv : List Word}

/-- All that has been read is in `argv`. -/
def Within (argv : List Word) (rs : List Reading) : Prop := ∀ r ∈ rs, r.index < argv.length

/-- And the cursor is in `argv` as well. -/
structure Parse.Inside (argv : List Word) (p : Parse) : Prop where
  cursor : p.cursor < argv.length
  readings : Within argv p.readings

/-- A branch or a pass that begins inside comes back inside, or ends the process there. -/
def KeptInside (argv : List Word) : Parsing → Prop
  | .ok q => q.Inside argv
  | .error s => Within argv s.readings

variable {p : Parse}

theorem Parse.Inside.past (hp : p.Inside argv) {k : Keyword} {j : ℕ}
    (hj : j = 0 ∨ p.cursor+j < argv.length) : (p.past k j).Inside argv := by
  have hcursor := hp.cursor
  refine ⟨?_,fun r hr => ?_⟩
  · show p.cursor+j < argv.length
    omega
  · rcases past_mem hr with hold | rfl | ⟨i,hi,rfl⟩
    · exact hp.readings r hold
    · exact hcursor
    · show p.cursor+1+i < argv.length
      omega

theorem branch_inside (einval : Bool) (hp : p.Inside argv) (k : Keyword) :
    KeptInside argv (branch einval argv k p) := by
  obtain ⟨j,hj,hreadings,hcursor⟩ := branch_reads einval argv k p
  have hpast : (p.past k j).Inside argv := hp.past hj
  cases hbranch : branch einval argv k p with
  | ok q =>
    rw [hbranch,readingsOf] at hreadings
    refine ⟨(hcursor q hbranch).trans_lt hpast.cursor,?_⟩
    rw [hreadings]
    exact hpast.readings
  | error s =>
    rw [hbranch,readingsOf] at hreadings
    rw [KeptInside,hreadings]
    exact hpast.readings

theorem chain_inside (einval : Bool) (hp : p.Inside argv) (ks : List Keyword) :
    KeptInside argv (chain einval argv ks p) ∧
      ∀ i ∈ chainCompared einval argv ks p, i < argv.length := by
  induction ks generalizing p with
  | nil => exact ⟨hp,fun i hi => by cases hi⟩
  | cons k ks ih =>
    rw [chain,chainCompared]
    simp only [List.mem_cons,forall_eq_or_imp]
    split_ifs
    · have hbranch := branch_inside einval hp k
      cases hcome : branch einval argv k p with
      | ok q =>
        rw [hcome] at hbranch
        exact ⟨(ih hbranch).1,hp.cursor,(ih hbranch).2⟩
      | error s =>
        rw [hcome] at hbranch
        exact ⟨hbranch,hp.cursor,fun i hi => by cases hi⟩
    · exact ⟨(ih hp).1,hp.cursor,(ih hp).2⟩

theorem argLoop_within (einval : Bool) (hp : Within argv p.readings) (n : ℕ) :
    Within argv (readingsOf (argLoop einval argv n p)) ∧
      ∀ i ∈ loopCompared einval argv n p, i < argv.length := by
  induction n generalizing p with
  | zero => exact ⟨hp,fun i hi => by cases hi⟩
  | succ n ih =>
    rw [argLoop,loopCompared]
    split_ifs with hlt herrno
    · exact ⟨hp,fun i hi => by rwa [List.mem_singleton.mp hi]⟩
    · obtain ⟨hkept,hcompared⟩ := chain_inside einval ⟨hlt,hp⟩ Keyword.order
      simp only [List.cons_append,List.mem_cons,List.mem_append,forall_eq_or_imp]
      cases hpass : chain einval argv Keyword.order p with
      | ok q =>
        rw [hpass] at hkept
        have hnext := ih (p := { q with cursor := q.cursor+1 }) hkept.readings
        exact ⟨hnext.1,hlt,fun i hi => hi.elim (hcompared i) (hnext.2 i)⟩
      | error s =>
        rw [hpass] at hkept
        exact ⟨hkept,hlt,fun i hi => hi.elim (hcompared i) fun hnil => by cases hnil⟩
    · exact ⟨hp,fun i hi => by cases hi⟩

end Bounds

section Clauses

variable {einval : Bool} {argv : List Word} {p q : Parse} {g : Given} {k : Keyword}
  {rest : List Word}

/-- What the words so far have set. -/
structure Parse.Holds (einval : Bool) (argv : List Word) (p : Parse) (g : Given) : Prop where
  targets : p.options.targets.map Prod.snd = g.ports.map fun w => UInt16.ofInt (atoi einval w).value
  given : portsGiven argv p.readings = g.ports.map some
  accepted : ∀ w ∈ g.ports, portOk (atoi einval w).value = true ∧ (atoi einval w).errno = false
  room : g.ports.length ≤ kthreadmax
  workers : p.options.workerCount = g.threads.elim 16 fun w => (atoi einval w).value
  many : p.options.workerCount ≤ kthreadmax
  mode : p.options.mode &&& modeTx ≠ 0 ↔ g.ports ≠ []

theorem Parse.Holds.length (hp : p.Holds einval argv g) :
    p.options.targets.length = g.ports.length := by
  simpa using congrArg List.length hp.targets

theorem start_holds : Parse.start.Holds einval argv ⟨[],none⟩ where
  targets := rfl
  given := rfl
  accepted := fun w hw => by cases hw
  room := by decide
  workers := rfl
  many := by decide
  mode := by decide

theorem portsGiven_past (p : Parse) (k : Keyword) (j : ℕ) :
    portsGiven argv (p.past k j).readings =
      portsGiven argv p.readings++if k = .tx then [argv[p.cursor+2]?] else [] := by
  have hoperands : ((List.range j).map fun i => (⟨p.cursor+1+i,.operand⟩ : Reading)).filter
      (fun r => r.role = .keyword .tx) = [] := by simp
  unfold portsGiven Parse.past
  rw [List.filter_append,List.filter_cons,hoperands,List.map_append]
  by_cases hk : k = .tx <;> simp [hk]

/-- Another flag of the mode. -/
theorem mode_other {m flag : ℕ} (h : flag &&& modeTx = 0) :
    (m ||| flag) &&& modeTx = m &&& modeTx := by
  rw [Nat.and_or_distrib_right,h,Nat.or_zero]

theorem mode_set (m flag : ℕ) : (m ||| flag) &&& flag = flag := by
  apply Nat.eq_of_testBit_eq
  intro i
  rw [Nat.testBit_and,Nat.testBit_or]
  cases m.testBit i <;> cases flag.testBit i <;> rfl

/-- A clause other than `tx` and `threads` leaves the configuration in question as it is. -/
theorem Parse.Holds.keep (hp : p.Holds einval argv g) (hk : k ≠ .tx) {j : ℕ}
    (hreadings : q.readings = (p.past k j).readings)
    (htargets : q.options.targets = p.options.targets)
    (hworkers : q.options.workerCount = p.options.workerCount)
    (hmode : q.options.mode &&& modeTx = p.options.mode &&& modeTx) : q.Holds einval argv g where
  targets := by rw [htargets,hp.targets]
  given := by rw [hreadings,portsGiven_past,if_neg hk,List.append_nil,hp.given]
  accepted := hp.accepted
  room := hp.room
  workers := by rw [hworkers,hp.workers]
  many := by rw [hworkers]; exact hp.many
  mode := by rw [hmode,hp.mode]

theorem Parse.Holds.setThreads {w : Word} {j : ℕ} (hp : p.Holds einval argv g)
    (hmany : (atoi einval w).value ≤ kthreadmax)
    (hreadings : q.readings = (p.past .threads j).readings)
    (htargets : q.options.targets = p.options.targets)
    (hworkers : q.options.workerCount = (atoi einval w).value)
    (hmode : q.options.mode = p.options.mode) :
    q.Holds einval argv { g with threads := some w } where
  targets := by rw [htargets,hp.targets]
  given := by rw [hreadings,portsGiven_past,if_neg (by decide),List.append_nil,hp.given]
  accepted := hp.accepted
  room := hp.room
  workers := hworkers
  many := by rwa [hworkers]
  mode := by rw [hmode,hp.mode]

theorem Parse.Holds.addTarget {host w : Word} {j : ℕ} (hp : p.Holds einval argv g)
    (hw : argv[p.cursor+2]? = some w) (hroom : p.options.targets.length < kthreadmax)
    (hport : portOk (atoi einval w).value = true) (herrno : (atoi einval w).errno = false)
    (hreadings : q.readings = (p.past .tx j).readings)
    (htargets : q.options.targets =
      p.options.targets++[(host,UInt16.ofInt (atoi einval w).value)])
    (hworkers : q.options.workerCount = p.options.workerCount)
    (hmode : q.options.mode = p.options.mode ||| modeTx) :
    q.Holds einval argv { g with ports := g.ports++[w] } where
  targets := by rw [htargets,List.map_append,List.map_append,hp.targets]; rfl
  given := by rw [hreadings,portsGiven_past,if_pos rfl,hw,hp.given,List.map_append]; rfl
  accepted := by
    intro w' hmem
    rcases List.mem_append.mp hmem with hold | hnew
    · exact hp.accepted w' hold
    · rw [List.mem_singleton.mp hnew]
      exact ⟨hport,herrno⟩
  room := by
    rw [List.length_append,List.length_singleton,← hp.length]
    exact hroom
  workers := by rw [hworkers,hp.workers]
  many := by rw [hworkers]; exact hp.many
  mode := by
    rw [hmode,mode_set]
    simp [modeTx]

/-- A clause whose branch comes back, whether `errno` is set or not. -/
structure Passed (einval : Bool) (argv : List Word) (k : Keyword) (ops : List Word) (p q : Parse)
    (g : Given) : Prop where
  cursor : q.cursor = p.cursor+k.arity
  errno : q.errno = (p.errno || k.sets einval ops)
  holds : q.Holds einval argv (g.add k ops)

theorem branch_passed (hp : p.Holds einval argv g) (hrest : ∀ j, argv[p.cursor+1+j]? = rest[j]?)
    (h : branch einval argv k p = .ok q) : Passed einval argv k (rest.take k.arity) p q g := by
  cases k with
  | checksums =>
    rw [branch,checksumsBranch] at h
    dsimp only at h
    split_ifs at h
    · cases h
    · cases h
      exact ⟨rfl,by simp [Keyword.sets,asKeyword_eq],
        hp.keep (k := .checksums) (j := 0) (by decide) rfl rfl rfl rfl⟩
  | charmode =>
    cases h
    exact ⟨rfl,by simp [Keyword.sets,asKeyword_eq],
      hp.keep (k := .charmode) (j := 0) (by decide) rfl rfl rfl rfl⟩
  | verbose | terminate | checkphrase | prbs | leglimit =>
    simp only [branch,verboseBranch,terminateBranch,prbsBranch,leglimitBranch,checkphraseBranch,
      asKeyword_eq] at h
    cases rest with
    | nil =>
      rw [operand_none (hrest 0)] at h
      cases h
    | cons w rest =>
      rw [operand_some (hrest 0)] at h
      cases h
      exact ⟨rfl,by simp [Keyword.sets,Keyword.arity],
        hp.keep (by decide) rfl rfl rfl (by first | rfl | exact mode_other rfl)⟩
  | rx | delayus =>
    simp only [branch,rxBranch,delayusBranch,asKeyword_eq] at h
    cases rest with
    | nil =>
      rw [operand_none (hrest 0)] at h
      cases h
    | cons w rest =>
      rw [operand_some (hrest 0)] at h
      split_ifs at h <;> cases h
      exact ⟨rfl,by simp [Keyword.sets],
        hp.keep (by decide) rfl rfl rfl (by first | rfl | exact mode_other rfl)⟩
  | initiate =>
    simp only [branch,initiateBranch,asKeyword_eq] at h
    rcases rest with _ | ⟨host,_ | ⟨w,rest⟩⟩
    · rw [operand_none (hrest 0)] at h
      cases h
    · rw [operand_some (hrest 0),operand_none (hrest 1)] at h
      split_ifs at h <;> cases h
    · rw [operand_some (hrest 0),operand_some (hrest 1)] at h
      split_ifs at h <;> cases h
      exact ⟨rfl,by simp [Keyword.sets,Keyword.arity],hp.keep (by decide) rfl rfl rfl rfl⟩
  | threads =>
    simp only [branch,threadsBranch,asKeyword_eq] at h
    cases rest with
    | nil =>
      rw [operand_none (hrest 0)] at h
      cases h
    | cons w rest =>
      rw [operand_some (hrest 0)] at h
      split_ifs at h with hnum hmany <;> cases h
      exact ⟨rfl,by simp [Keyword.sets],hp.setThreads (not_lt.mp hmany) rfl rfl rfl rfl⟩
  | tx =>
    simp only [branch,txBranch,asKeyword_eq] at h
    rcases rest with _ | ⟨host,_ | ⟨w,rest⟩⟩
    · rw [operand_none (hrest 0)] at h
      cases h
    · rw [operand_some (hrest 0),operand_none (hrest 1)] at h
      split_ifs at h <;> cases h
    · rw [operand_some (hrest 0),operand_some (hrest 1)] at h
      split_ifs at h with hhost herrno hroom hport hnum <;> cases h
      simp only [Bool.not_eq_false,Bool.not_eq_true] at hport hnum
      exact ⟨rfl,by simp [Keyword.sets],
        hp.addTarget (hrest 1) (not_le.mp hroom) hport hnum rfl rfl rfl rfl⟩

theorem supplied_iff (k : Keyword) (rest : List Word) (o : Options) :
    k.Supplied rest o ↔ k.provided (rest.take k.arity) o.targets.length = true := by
  cases k with
  | tx =>
    cases rest with
    | nil => simp [Keyword.Supplied,Keyword.provided]
    | cons host rest =>
      simp only [Keyword.Supplied,Keyword.provided,Keyword.arity,List.head?_cons,Option.some.injEq,
        reduceCtorEq,false_or,List.take_succ_cons,Bool.or_eq_true,decide_eq_true_eq]
      exact Iff.rfl
  | initiate =>
    rcases rest with _ | ⟨host,_ | ⟨w,rest⟩⟩ <;>
      simp [Keyword.Supplied,Keyword.provided,Keyword.arity]
  | _ => simp [Keyword.Supplied,Keyword.provided]

/-- A branch that does not ask for `errno` goes the same way when it is set. -/
theorem branch_lax (hk : k.checksErrno = false) (p : Parse) :
    branch einval argv k p = (branch einval argv k { p with errno := false }).map
      fun q => { q with errno := p.errno || q.errno } := by
  cases k with
  | rx | tx | threads | checksums | delayus => cases hk
  | charmode => simp [branch,charmodeBranch,Parse.asKeyword,Except.map]
  | verbose | checkphrase | terminate | prbs | leglimit =>
    simp only [branch,verboseBranch,checkphraseBranch,terminateBranch,prbsBranch,leglimitBranch,
      Parse.operand,Parse.asKeyword]
    cases argv[p.cursor+1]? <;> simp [Except.map,Parse.assertion]
  | initiate =>
    simp only [branch,initiateBranch,Parse.operand,Parse.asKeyword]
    cases argv[p.cursor+1]? with
    | none => rfl
    | some host =>
      dsimp only
      split_ifs
      · rfl
      · cases argv[p.cursor+1+1]? <;> simp [Except.map,Parse.undefined]

/-- A branch that asks for `errno` goes no further when it is set. -/
theorem branch_strict (hk : k.checksErrno = true) (herrno : p.errno = true) :
    ∃ e rs, branch einval argv k p = .error ⟨.exited e,rs⟩ := by
  cases k with
  | verbose | checkphrase | terminate | initiate | charmode | prbs | leglimit => cases hk
  | checksums =>
    have hstop : branch einval argv .checksums p = (p.asKeyword .checksums).checkperror 139 :=
      if_pos herrno
    exact ⟨_,_,hstop⟩
  | rx | threads | delayus =>
    simp only [branch,rxBranch,threadsBranch,delayusBranch,Parse.operand,Parse.asKeyword]
    cases argv[p.cursor+1]? with
    | none => exact ⟨_,_,rfl⟩
    | some w =>
      simp only [herrno,Bool.true_or]
      split_ifs <;> exact ⟨_,_,rfl⟩
  | tx =>
    simp only [branch,txBranch,Parse.operand,Parse.asKeyword]
    cases argv[p.cursor+1]? with
    | none => exact ⟨_,_,rfl⟩
    | some host =>
      simp only [herrno]
      split_ifs <;> exact ⟨_,_,rfl⟩

/-- How a branch that goes on ends, given its operands and the number of targets. -/
inductive Ended (einval : Bool) (k : Keyword) (ops : List Word) (n : ℕ) : Parsing → Prop
  | back (q : Parse) : k.provided ops n = true → k.Returns einval ops → Ended einval k ops n (.ok q)
  | refused (e : Exit) (rs : List Reading) : k.provided ops n = true → ¬ k.Returns einval ops →
      Ended einval k ops n (.error ⟨.exited e,rs⟩)
  | undefined (line : ℕ) (rs : List Reading) : ¬ k.provided ops n = true →
      Ended einval k ops n (.error ⟨.undefined line,rs⟩)

theorem branch_ended_zero (herrno : p.errno = false)
    (hrest : ∀ j, argv[p.cursor+1+j]? = rest[j]?) :
    Ended einval k (rest.take k.arity) p.options.targets.length (branch einval argv k p) := by
  have hspec : Branched einval k rest p (branch einval argv k p) := branch_spec herrno hrest
  generalize branch einval argv k p = r at hspec ⊢
  cases hspec with
  | taken q hsupplied hreturns _ => exact .back q ((supplied_iff k rest _).mp hsupplied) hreturns
  | stopped j e hsupplied hnot _ => exact .refused e _ ((supplied_iff k rest _).mp hsupplied) hnot
  | undefined j line hnot => exact .undefined line _ fun h => hnot ((supplied_iff k rest _).mpr h)

theorem branch_ended (hgo : ¬ (p.errno = true ∧ k.checksErrno = true))
    (hrest : ∀ j, argv[p.cursor+1+j]? = rest[j]?) :
    Ended einval k (rest.take k.arity) p.options.targets.length (branch einval argv k p) := by
  cases herrno : p.errno with
  | false => exact branch_ended_zero herrno hrest
  | true =>
    have hk : k.checksErrno = false := by simpa [herrno] using hgo
    rw [branch_lax hk]
    have hzero : Ended einval k (rest.take k.arity) p.options.targets.length
        (branch einval argv k { p with errno := false }) :=
      branch_ended_zero (p := { p with errno := false }) rfl hrest
    generalize branch einval argv k { p with errno := false } = r at hzero ⊢
    cases hzero with
    | back q hprovided hreturns => exact .back _ hprovided hreturns
    | refused e rs hprovided hnot => exact .refused e rs hprovided hnot
    | undefined line rs hnot => exact .undefined line rs hnot

theorem port_toNat {n : ℤ} (h : portOk n = true) : ((UInt16.ofInt n).toNat : ℤ) = n := by
  simp only [portOk,Bool.and_eq_true,decide_eq_true_eq] at h
  have hmod : n % 2^16 = n := Int.emod_eq_of_lt (by omega) (by omega)
  rw [UInt16.ofInt,hmod,UInt16.toNat_ofNat',Nat.mod_eq_of_lt (by omega)]
  omega

/-- A number that is one of a port is read as it is written. -/
theorem atoi_port {w : Word} (herrno : (atoi einval w).errno = false)
    (hw : 1 ≤ written w ∧ written w ≤ 65534) : (atoi einval w).value = written w := by
  rw [atoi_written herrno]
  exact Int.bmod_eq_of_le (by omega) (by omega)

/-- The limits on the configuration are limits on the numbers given. -/
theorem safeOptions_iff (hp : p.Holds einval argv g) : SafeOptions argv p ↔ g.Final einval := by
  constructor
  · intro h
    refine ⟨fun w hw => ?_,fun hports => ?_⟩
    · have hone := h.workers.1
      rw [hp.workers,hw] at hone
      exact hone
    · obtain ⟨j,t,w,-,hgiven,heq,hlow,hhigh⟩ := h.port (hp.mode.mpr hports)
      rw [hp.given,List.getElem?_map,Option.map_eq_some_iff] at hgiven
      obtain ⟨w',hmem,hw'⟩ := hgiven
      cases hw'
      exact ⟨w,List.mem_of_getElem? hmem,by omega,by omega⟩
  · intro h
    refine ⟨?_,⟨?_,hp.many⟩,fun hmode => ?_⟩
    · rw [hp.length]
      exact hp.room
    · rw [hp.workers]
      cases hthreads : g.threads with
      | none => exact (by decide : (1 : ℤ) ≤ 16)
      | some w => exact h.1 w hthreads
    · obtain ⟨w,hmem,hw⟩ := h.2 (hp.mode.mp hmode)
      obtain ⟨j,hj⟩ := List.mem_iff_getElem?.mp hmem
      have htarget := congrArg (fun l => l[j]?) hp.targets
      simp only [List.getElem?_map,hj,Option.map_some,Option.map_eq_some_iff] at htarget
      obtain ⟨t,ht,hport⟩ := htarget
      obtain ⟨hok,herrno⟩ := hp.accepted w hmem
      have hnumber : (t.2.toNat : ℤ) = written w := by
        rw [hport,port_toNat hok,atoi_port herrno hw]
      refine ⟨j,t,w,ht,?_,hnumber,by omega,by omega⟩
      rw [hp.given,List.getElem?_map,hj]
      rfl

@[simp] theorem clauses_nil (last : Option Keyword) (skip : ℕ) : clauses last skip [] = [] := by
  cases skip <;> rfl

theorem clauses_skip (last : Option Keyword) (skip : ℕ) (ws : List Word) :
    clauses last skip ws = clauses last 0 (ws.drop skip) := by
  induction skip generalizing ws with
  | zero => rfl
  | succ skip ih =>
    cases ws with
    | nil => simp
    | cons w ws =>
      rw [clauses,List.drop_succ_cons]
      exact ih ws

theorem compared_suffix (last : Option Keyword) : compared last <:+ Keyword.order := by
  cases last with
  | none => exact List.suffix_refl _
  | some k => exact (List.tail_suffix _).trans (List.dropWhile_suffix _)

/-- The rest of the loop, at the top of it or behind the branch of a keyword. -/
def resume (einval : Bool) (argv : List Word) (n : ℕ) : Option Keyword → Parse → Parsing
  | none,p => argLoop einval argv n p
  | some k,p => (chain einval argv k.later p).bind fun q =>
    argLoop einval argv n { q with cursor := q.cursor+1 }

theorem Parse.Holds.skip (hp : p.Holds einval argv g) :
    { p with cursor := p.cursor+1 }.Holds einval argv g :=
  ⟨hp.targets,hp.given,hp.accepted,hp.room,hp.workers,hp.many,hp.mode⟩

/-- Behind the last word. -/
theorem resume_nil (hp : p.Holds einval argv g) (hend : argv.length ≤ p.cursor) (n : ℕ)
    (last : Option Keyword) : SafeEnd argv (resume einval argv n last p) ↔ g.Final einval := by
  cases last with
  | none =>
    rw [resume,argLoop_end hend]
    exact safeOptions_iff hp
  | some k =>
    have hnone : argv[p.cursor]? = none := List.getElem?_eq_none hend
    rw [resume,chain_skip fun k' _ => by simp [hnone]]
    show SafeEnd argv (argLoop einval argv n { p with cursor := p.cursor+1 }) ↔ _
    rw [argLoop_end (Nat.le_succ_of_le hend)]
    exact safeOptions_iff hp.skip

/-- The loop agrees with the clauses on some words, whatever has been read before. -/
def AgreeOn (einval : Bool) (argv : List Word) (n : ℕ) (ws : List Word) : Prop :=
  ∀ last p g, p.Holds einval argv g → (∀ j, argv[p.cursor+j]? = ws[j]?) →
    (SafeEnd argv (resume einval argv n last p) ↔ Safe einval p.errno g (clauses last 0 ws))

/-- Behind a clause whose branch comes back, the pass goes on with its last word. -/
theorem resume_passed {n : ℕ} {ops : List Word} (hagree : ∀ i, AgreeOn einval argv n (rest.drop i))
    (hw : argv[p.cursor]? = some k.text) (hrest : ∀ j, argv[p.cursor+1+j]? = rest[j]?)
    (hq : Passed einval argv k ops p q g) :
    SafeEnd argv (resume einval argv n (some k) q) ↔
      Safe einval q.errno (g.add k ops) (match k.arity with
        | 0 => clauses none 0 rest
        | i+1 => clauses (some k) i rest) := by
  have hcursor := hq.cursor
  cases harity : k.arity with
  | zero =>
    have hskip : chain einval argv k.later q = .ok q := by
      apply chain_skip
      intro k' hk'
      rw [hcursor,harity,Nat.add_zero,hw,Ne,Option.some.injEq]
      exact Keyword.ne_of_later hk'
    rw [resume,hskip]
    refine hagree 0 none { q with cursor := q.cursor+1 } _ hq.holds.skip fun j => ?_
    show argv[q.cursor+1+j]? = rest[j]?
    rw [hcursor,harity]
    exact hrest j
  | succ i =>
    dsimp only
    rw [clauses_skip]
    refine hagree i (some k) q _ hq.holds fun j => ?_
    rw [List.getElem?_drop,← hrest,hcursor,harity]
    congr 1
    omega

/-- From a word on: the comparisons left for it, and then the rest of the loop. -/
theorem pass_iff {n : ℕ} (last : Option Keyword) {w : Word}
    (hagree : ∀ i, AgreeOn einval argv n (rest.drop i)) (hp : p.Holds einval argv g)
    (hfresh : last = none → p.errno = false) (hw : argv[p.cursor]? = some w)
    (hrest : ∀ j, argv[p.cursor+1+j]? = rest[j]?) :
    SafeEnd argv ((chain einval argv (compared last) p).bind fun q =>
        argLoop einval argv n { q with cursor := q.cursor+1 }) ↔
      Safe einval p.errno g (clauses last 0 (w::rest)) := by
  rw [clauses,chain_suffix (compared_suffix last) hw]
  cases hfound : (compared last).find? fun k => k.text = w with
  | none =>
    have hnext := hagree 0 none { p with cursor := p.cursor+1 } g hp.skip hrest
    refine hnext.trans ?_
    cases last with
    | none => simp [Safe,hfresh rfl]
    | some k => simp
  | some k =>
    have hhit := List.find?_some hfound
    obtain rfl : k.text = w := of_decide_eq_true hhit
    -- a number before in the same pass may have left `errno` set
    by_cases hstop : p.errno = true ∧ k.checksErrno = true
    · obtain ⟨e,rs,hbranch⟩ : ∃ e rs, branch einval argv k p = .error ⟨.exited e,rs⟩ :=
        branch_strict hstop.2 hstop.1
      simp only [hbranch]
      exact ⟨fun _ => .inl ⟨hstop.1,.inr hstop.2⟩,fun _ => trivial⟩
    · have hnot : ¬ (p.errno = true ∧ (decide (last = none) = true ∨ k.checksErrno = true)) := by
        rintro ⟨herrno,hlast | hk⟩
        · rw [hfresh (of_decide_eq_true hlast)] at herrno
          cases herrno
        · exact hstop ⟨herrno,hk⟩
      have hended : Ended einval k (rest.take k.arity) p.options.targets.length
        (branch einval argv k p) := branch_ended hstop hrest
      simp only [Safe,hnot,false_or]
      rw [hp.length] at hended
      generalize hbranch : branch einval argv k p = r at hended ⊢
      cases hended with
      | back q hprovided hreturns =>
        have hq := branch_passed hp hrest hbranch
        rw [← hq.errno]
        simp only [hprovided,hreturns,true_and,forall_const]
        exact resume_passed hagree hw hrest hq
      | refused e rs hprovided hrefused =>
        exact ⟨fun _ => ⟨hprovided,fun h => absurd h hrefused⟩,fun _ => trivial⟩
      | undefined line rs hmissing => exact ⟨fun h => h.elim,fun h => hmissing h.1⟩

/-- A word to begin a pass with is not looked at when `errno` is set. -/
theorem safe_of_errno (w : Word) (ws : List Word) :
    Safe einval true g (clauses none 0 (w::ws)) := by
  rw [clauses]
  split
  · exact .inl rfl
  · exact .inl ⟨rfl,.inl rfl⟩

theorem agreeOn_nil (n : ℕ) : AgreeOn einval argv n [] := by
  intro last p g hp hat
  have hend : argv.length ≤ p.cursor := by simpa using hat 0
  rw [clauses_nil]
  exact resume_nil hp hend n last

theorem agreeOn_cons {n : ℕ} {w : Word}
    (hagree : ∀ m, rest.length ≤ m → ∀ i, AgreeOn einval argv m (rest.drop i))
    (hn : rest.length < n) : AgreeOn einval argv n (w::rest) := by
  intro last p g hp hat
  have hw : argv[p.cursor]? = some w := hat 0
  have hrest := behind hat
  cases last with
  | some k =>
    exact pass_iff (some k) (hagree n hn.le) hp (fun h => by cases h) hw hrest
  | none =>
    obtain ⟨m,rfl⟩ : ∃ m, n = m+1 := ⟨n-1,by omega⟩
    have hlt : p.cursor < argv.length := (List.getElem?_eq_some_iff.mp hw).1
    rw [resume,argLoop,if_pos hlt]
    cases herrno : p.errno with
    | true => exact ⟨fun _ => safe_of_errno w rest,fun _ => trivial⟩
    | false =>
      rw [if_neg (by decide),← herrno]
      exact pass_iff none (hagree m (Nat.lt_succ_iff.mp hn)) hp (fun _ => herrno) hw hrest

/-- By induction on the number of words that are left. -/
theorem agreeOn (m : ℕ) {n : ℕ} {ws : List Word} (hm : ws.length ≤ m) (hn : ws.length ≤ n) :
    AgreeOn einval argv n ws := by
  induction m generalizing n ws with
  | zero =>
    rw [List.length_eq_zero_iff.mp (Nat.le_zero.mp hm)]
    exact agreeOn_nil n
  | succ m ih =>
    cases ws with
    | nil => exact agreeOn_nil n
    | cons w ws =>
      rw [List.length_cons] at hm hn
      refine agreeOn_cons (fun n' hn' i => ?_) hn
      have hdrop : (ws.drop i).length ≤ ws.length := by
        rw [List.length_drop]
        omega
      exact ih (by omega) (hdrop.trans hn')

/-- For every command line: the loop reads no word behind the last one, stores no target behind
the last one, and comes out with a safe configuration unless a check stops it, if and only if the
clauses that come before a failing check provide what they use and the numbers given are in
range. -/
theorem safelyParsed_iff (einval : Bool) (argv : List Word) :
    SafelyParsed einval argv ↔ SafeLine einval argv := by
  have hagree : AgreeOn einval argv argv.length argv := agreeOn argv.length le_rfl le_rfl
  have hfinish := hagree none .start ⟨[],none⟩ start_holds fun j => by
    show argv[0+j]? = argv[j]?
    rw [Nat.zero_add]
  have hnone : Within argv Parse.start.readings := fun r hr => by cases hr
  obtain ⟨hreadings,hcompared⟩ := argLoop_within einval hnone argv.length
  exact ⟨fun h => hfinish.mp h.finish,fun h => ⟨hcompared,hreadings,hfinish.mpr h⟩⟩

end Clauses

/-- No thread at all; the null pointer behind the last word; a 17th target; and a port number of
which only the lower 32 bits are looked at. -/
theorem not_safelyParsed :
    ¬ SafelyParsed false [word "viamillipede",word "threads",word "0"] ∧
    ¬ SafelyParsed false [word "viamillipede",word "initiate"] ∧
    ¬ SafelyParsed false
      (word "viamillipede"::(List.replicate 17 [word "tx",word "a",word "1"]).flatten) ∧
    ¬ SafelyParsed false [word "viamillipede",word "tx",word "localhost",word "4294979619"] := by
  refine ⟨fun h => ?_,fun h => h.finish,fun h => h.finish,fun h => ?_⟩
  · exact absurd h.finish.workers.1 (by decide)
  · obtain ⟨j,t,w,ht,hw,hnumber,-,-⟩ := h.finish.port (by decide)
    cases j with
    | zero =>
      cases ht
      cases hw
      revert hnumber
      decide
    | succ j => cases ht

end Viamillipede
