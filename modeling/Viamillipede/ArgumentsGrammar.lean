import Viamillipede.Arguments

/-! When the loop of `main` follows its grammar.

A pass compares each later keyword with the word that the cursor has come to, which is the last
operand of the keyword before. -/
namespace Viamillipede

open Numeral

namespace Keyword

/-- The keywords compared behind this one in the same pass. -/
def later (k : Keyword) : List Keyword := (order.dropWhile (· ≠ k)).tail

/-- The branch of a keyword comes back to the comparisons. -/
def Returns (einval : Bool) : Keyword → List Word → Prop
  | .rx,[w] => portOk (atoi einval w).value = true ∧ (atoi einval w).errno = false
  | .tx,[host,w] => host ≠ [] ∧ portOk (atoi einval w).value = true ∧ (atoi einval w).errno = false
  | .threads,[w] => (atoi einval w).value ≤ 16 ∧ (atoi einval w).errno = false
  | .delayus,[w] => (atoi einval w).errno = false
  | .initiate,[host,_] => host ≠ []
  | .verbose,[_] | .checkphrase,[_] | .terminate,[_] | .prbs,[_] | .leglimit,[_] => True
  | .checksums,[] | .charmode,[] => True
  | _,_ => False

/-- No memory is used that is not there: `initiate` has what it dereferences, and there is room
for a target. -/
def Supplied : Keyword → List Word → Options → Prop
  | .initiate,rest,_ => rest ≠ [] ∧ (rest.head? = some [] ∨ 2 ≤ rest.length)
  | .tx,rest,o => rest = [] ∨ rest.head? = some [] ∨ o.targets.length < 16
  | _,_,_ => True

instance (einval : Bool) (k : Keyword) (ops : List Word) : Decidable (k.Returns einval ops) := by
  unfold Returns
  split <;> infer_instance

instance (k : Keyword) (rest : List Word) (o : Options) : Decidable (k.Supplied rest o) := by
  unfold Supplied
  split <;> infer_instance

end Keyword

/-- Along the words no clause whose branch comes back has a keyword of a later comparison as its
last operand, and none lacks what its branch uses. -/
def Clear (einval : Bool) : ℕ → List Word → Options → Prop
  | 0,_,_ => True
  | _+1,[],_ => True
  | n+1,w::rest,o =>
    match Keyword.ofText w with
    | none => Clear einval n rest o
    | some k => k.Supplied rest o ∧
      (k.Returns einval (rest.take k.arity) →
        ∀ k' ∈ k.later, (rest.take k.arity).getLast? ≠ some k'.text) ∧
      ∀ o' ∈ k.assign einval (rest.take k.arity) o, Clear einval n (rest.drop k.arity) o'

instance decidableClear (einval : Bool) : ∀ n rest o, Decidable (Clear einval n rest o)
  | 0,_,_ => isTrue trivial
  | _+1,[],_ => isTrue trivial
  | n+1,w::rest,o => by
    have hclear := decidableClear einval n
    unfold Clear
    split <;> infer_instance

/-- The program name is no keyword, and the words behind it are clear. -/
def NoClash (einval : Bool) (argv : List Word) : Prop :=
  (∀ w ∈ argv.head?, Keyword.ofText w = none) ∧
    Clear einval argv.tail.length argv.tail .default

instance (einval : Bool) (argv : List Word) : Decidable (NoClash einval argv) :=
  inferInstanceAs (Decidable (_ ∧ _))

namespace Keyword

@[simp] theorem ofText_text (k : Keyword) : ofText k.text = some k := by cases k <;> rfl

theorem text_injective {k k' : Keyword} : k.text = k'.text ↔ k = k' := by
  refine ⟨fun h => ?_,congrArg text⟩
  have hk := ofText_text k
  rw [h,ofText_text] at hk
  exact (Option.some.inj hk).symm

theorem text_of_ofText {w : Word} {k : Keyword} (h : ofText w = some k) : w = k.text := by
  have hfound := List.find?_some h
  exact (of_decide_eq_true hfound).symm

theorem ofText_eq_none {w : Word} (h : ofText w = none) (k : Keyword) : k.text ≠ w := by
  intro hk
  rw [← hk,ofText_text] at h
  cases h

end Keyword

section Chain

variable {einval : Bool} {argv : List Word}

/-- The cursor is at a word that no keyword is compared equal to. -/
theorem chain_skip {ks : List Keyword} {p : Parse}
    (h : ∀ k ∈ ks, argv[p.cursor]? ≠ some k.text) : chain einval argv ks p = .ok p := by
  induction ks with
  | nil => rfl
  | cons k ks ih =>
    rw [chain,if_neg (h k (by simp))]
    exact ih fun k' hk' => h k' (List.mem_cons_of_mem k hk')

theorem Keyword.later_of_suffix {k : Keyword} {ks : List Keyword}
    (h : k::ks <:+ Keyword.order) : k.later = ks := by
  have hall : ∀ l ∈ Keyword.order.tails, ∀ k ∈ l.head?, k.later = l.tail := by decide
  exact hall (k::ks) ((List.mem_tails _ _).mpr h) k rfl

/-- Of the comparisons left in a pass: the branch of the first one that the word at the cursor
meets, and then the comparisons behind this one. -/
theorem chain_suffix {ks : List Keyword} {p : Parse} {w : Word} (hks : ks <:+ Keyword.order)
    (h : argv[p.cursor]? = some w) :
    chain einval argv ks p =
      match ks.find? fun k => k.text = w with
      | none => .ok p
      | some k => (branch einval argv k p).bind (chain einval argv k.later) := by
  induction ks with
  | nil => rfl
  | cons k ks ih =>
    by_cases hk : k.text = w
    · rw [chain,if_pos (by rw [h,hk]),List.find?_cons_of_pos (by simpa using hk)]
      simp only [Keyword.later_of_suffix hks]
    · rw [chain,if_neg (by rw [h]; simpa using fun hw => hk hw.symm),
        List.find?_cons_of_neg (by simpa using hk)]
      exact ih ((List.suffix_cons k ks).trans hks)

/-- The cursor is at a keyword: the branch of this keyword, and then the comparisons behind it. -/
theorem chain_order {k : Keyword} {p : Parse} (h : argv[p.cursor]? = some k.text) :
    chain einval argv Keyword.order p =
      (branch einval argv k p).bind (chain einval argv k.later) := by
  have hfound : (Keyword.order.find? fun j => j.text = k.text) = some k := Keyword.ofText_text k
  rw [chain_suffix (List.suffix_refl _) h,hfound]

/-- A keyword and `j` of its operands have been read. -/
def Parse.past (p : Parse) (k : Keyword) (j : ℕ) : Parse :=
  { p with
    cursor := p.cursor+j
    readings := p.readings++⟨p.cursor,.keyword k⟩::
      (List.range j).map fun i => ⟨p.cursor+1+i,.operand⟩ }

@[simp] theorem past_errno (p : Parse) (k : Keyword) (j : ℕ) : (p.past k j).errno = p.errno := rfl

@[simp] theorem past_options (p : Parse) (k : Keyword) (j : ℕ) :
    (p.past k j).options = p.options := rfl

theorem asKeyword_eq (p : Parse) (k : Keyword) : p.asKeyword k = p.past k 0 := rfl

theorem operand_none {p : Parse} {k : Keyword} {j : ℕ} (h : argv[p.cursor+1+j]? = none)
    (missing : Parse → Parsing) (use : Parse → Word → Parsing) :
    (p.past k j).operand argv missing use = missing (p.past k j) := by
  rw [Nat.add_right_comm] at h
  rw [Parse.operand,show (p.past k j).cursor+1 = p.cursor+j+1 from rfl,h]

theorem operand_some {p : Parse} {k : Keyword} {j : ℕ} {w : Word}
    (h : argv[p.cursor+1+j]? = some w) (missing : Parse → Parsing) (use : Parse → Word → Parsing) :
    (p.past k j).operand argv missing use = use (p.past k (j+1)) w := by
  rw [Nat.add_right_comm] at h
  rw [Parse.operand,show (p.past k j).cursor+1 = p.cursor+j+1 from rfl,h]
  simp [Parse.past,List.range_succ,Nat.add_right_comm,Nat.add_assoc]

/-- A clause whose branch comes back: the cursor is at its last word, the options are what the
clause sets, and `errno` is set when it sets none. -/
structure Taken (einval : Bool) (k : Keyword) (ops : List Word) (p q : Parse) : Prop where
  cursor : q.cursor = (p.past k k.arity).cursor
  readings : q.readings = (p.past k k.arity).readings
  accepted : ∀ o ∈ k.assign einval ops p.options, q.options = o ∧ q.errno = false
  refused : k.assign einval ops p.options = none → q.errno = true

/-- What a branch comes to, given the words behind its keyword. -/
inductive Branched (einval : Bool) (k : Keyword) (rest : List Word) (p : Parse) : Parsing → Prop
  | taken (q : Parse) : k.Supplied rest p.options → k.Returns einval (rest.take k.arity) →
      Taken einval k (rest.take k.arity) p q → Branched einval k rest p (.ok q)
  | stopped (j : ℕ) (e : Exit) : k.Supplied rest p.options →
      ¬ k.Returns einval (rest.take k.arity) →
      k.assign einval (rest.take k.arity) p.options = none →
      Branched einval k rest p (.error ⟨.exited e,(p.past k j).readings⟩)
  | undefined (j line : ℕ) : ¬ k.Supplied rest p.options →
      Branched einval k rest p (.error ⟨.undefined line,(p.past k j).readings⟩)

variable {k : Keyword} {p : Parse} {rest : List Word}

theorem branch_spec (herrno : p.errno = false) (hrest : ∀ j, argv[p.cursor+1+j]? = rest[j]?) :
    Branched einval k rest p (branch einval argv k p) := by
  cases k with
  | checksums | charmode =>
    simp only [branch,checksumsBranch,charmodeBranch,asKeyword_eq,past_errno,herrno]
    exact .taken _ trivial trivial ⟨rfl,rfl,by simp [Keyword.assign,Keyword.arity],
      by simp [Keyword.assign,Keyword.arity]⟩
  | verbose | terminate | prbs | leglimit | checkphrase =>
    -- nothing is asked of the operand before the next pass
    cases rest with
    | nil =>
      simp only [branch,verboseBranch,terminateBranch,prbsBranch,leglimitBranch,checkphraseBranch,
        asKeyword_eq,operand_none (hrest 0)]
      exact .stopped 0 _ trivial id rfl
    | cons w rest =>
      simp only [branch,verboseBranch,terminateBranch,prbsBranch,leglimitBranch,checkphraseBranch,
        asKeyword_eq,operand_some (hrest 0),past_errno,herrno,Bool.false_or]
      exact .taken _ trivial trivial ⟨rfl,rfl,by simp [Keyword.assign,Keyword.arity],
        by simp [Keyword.assign,Keyword.arity]⟩
  | delayus =>
    cases rest with
    | nil =>
      rw [branch,delayusBranch,asKeyword_eq,operand_none (hrest 0)]
      exact .stopped 0 _ trivial id rfl
    | cons w rest =>
      rw [branch,delayusBranch,asKeyword_eq,operand_some (hrest 0)]
      simp only [past_errno,herrno,Bool.false_or]
      cases hnum : (atoi einval w).errno
      · exact .taken _ trivial hnum ⟨rfl,rfl,by simp [Keyword.assign,Keyword.arity,hnum],
          by simp [Keyword.assign,Keyword.arity,hnum]⟩
      · exact .stopped 1 _ trivial (fun h => absurd (h.symm.trans hnum) (by decide))
          (by simp [Keyword.assign,Keyword.arity,hnum])
  | threads =>
    cases rest with
    | nil =>
      rw [branch,threadsBranch,asKeyword_eq,operand_none (hrest 0)]
      exact .stopped 0 _ trivial id rfl
    | cons w rest =>
      rw [branch,threadsBranch,asKeyword_eq,operand_some (hrest 0)]
      simp only [past_errno,herrno,Bool.false_or]
      split_ifs with hnum hmany
      · exact .stopped 1 _ trivial (fun h => by simp [h.2] at hnum)
          (by simp [Keyword.assign,Keyword.arity,hnum])
      · exact .stopped 1 _ trivial (fun h => absurd h.1 (by simpa using hmany))
          (by simp [Keyword.assign,Keyword.arity,hmany])
      · simp only [Bool.not_eq_true,not_lt] at hnum hmany
        exact .taken _ trivial ⟨hmany,hnum⟩
          ⟨rfl,rfl,by simp [Keyword.assign,Keyword.arity,hnum,hmany],
            by simp [Keyword.assign,Keyword.arity,hnum,hmany]⟩
  | rx =>
    cases rest with
    | nil =>
      rw [branch,rxBranch,asKeyword_eq,operand_none (hrest 0)]
      exact .stopped 0 _ trivial id rfl
    | cons w rest =>
      rw [branch,rxBranch,asKeyword_eq,operand_some (hrest 0)]
      simp only [past_errno,herrno,Bool.false_or]
      split_ifs with hport hnum
      · exact .stopped 1 _ trivial (fun h => by simp [h.1] at hport)
          (by simp [Keyword.assign,Keyword.arity,hport])
      · exact .stopped 1 _ trivial (fun h => by simp [h.2] at hnum)
          (by simp [Keyword.assign,Keyword.arity,hnum])
      · simp only [Bool.not_eq_false,Bool.not_eq_true] at hport hnum
        exact .taken _ trivial ⟨hport,hnum⟩
          ⟨rfl,rfl,by simp [Keyword.assign,Keyword.arity,hport,hnum],
            by simp [Keyword.assign,Keyword.arity,hport,hnum]⟩
  | initiate =>
    cases rest with
    | nil =>
      rw [branch,initiateBranch,asKeyword_eq,operand_none (hrest 0)]
      exact .undefined 0 _ fun h => h.1 rfl
    | cons host rest =>
      rw [branch,initiateBranch,asKeyword_eq,operand_some (hrest 0)]
      by_cases hhost : host = []
      · rw [if_pos (by rw [hhost]; rfl)]
        refine .stopped 1 _ ⟨by simp,.inl (by simp [hhost])⟩ (fun h => ?_) ?_
        · cases rest with
          | nil => exact h
          | cons w rest => exact h hhost
        · cases rest <;> simp [Keyword.assign,Keyword.arity,hhost]
      · rw [if_neg (by simpa using hhost)]
        cases rest with
        | nil =>
          rw [operand_none (hrest 1)]
          exact .undefined 1 _ fun h => by simpa [hhost] using h.2
        | cons w rest =>
          rw [operand_some (hrest 1)]
          simp only [past_errno,herrno,Bool.false_or]
          exact .taken _ ⟨by simp,.inr (by simp)⟩ hhost
            ⟨rfl,rfl,by simp [Keyword.assign,Keyword.arity,hhost],
              by simp [Keyword.assign,Keyword.arity,hhost]⟩
  | tx =>
    cases rest with
    | nil =>
      rw [branch,txBranch,asKeyword_eq,operand_none (hrest 0)]
      exact .stopped 0 _ (.inl rfl) id rfl
    | cons host rest =>
      rw [branch,txBranch,asKeyword_eq,operand_some (hrest 0)]
      by_cases hhost : host = []
      · rw [if_pos (by rw [hhost]; rfl)]
        refine .stopped 1 _ (.inr (.inl (by simp [hhost]))) (fun h => ?_) ?_
        · cases rest with
          | nil => exact h
          | cons w rest => exact h.1 hhost
        · cases rest <;> simp [Keyword.assign,Keyword.arity,hhost]
      · rw [if_neg (by simpa using hhost)]
        simp only [past_errno,past_options,herrno,Bool.false_eq_true,if_false]
        by_cases hroom : 16 ≤ p.options.targets.length
        · rw [if_pos hroom]
          refine .undefined 1 _ fun h => ?_
          simp only [Keyword.Supplied,reduceCtorEq,List.head?_cons,Option.some.injEq,hhost,
            false_or] at h
          omega
        · rw [if_neg hroom]
          have hsupplied : Keyword.tx.Supplied (host::rest) p.options := .inr (.inr (by omega))
          cases rest with
          | nil =>
            rw [operand_none (hrest 1)]
            exact .stopped 1 _ hsupplied id rfl
          | cons w rest =>
            rw [operand_some (hrest 1)]
            split_ifs with hport hnum
            · exact .stopped 2 _ hsupplied (fun h => by simp [h.2.1] at hport)
                (by simp [Keyword.assign,Keyword.arity,hport])
            · exact .stopped 2 _ hsupplied (fun h => by simp [h.2.2] at hnum)
                (by simp [Keyword.assign,Keyword.arity,hnum])
            · simp only [Bool.not_eq_false,Bool.not_eq_true] at hport hnum
              exact .taken _ hsupplied ⟨hhost,hport,hnum⟩
                ⟨rfl,rfl,by simp [Keyword.assign,Keyword.arity,hhost,hport,hnum,herrno],
                  by simp [Keyword.assign,Keyword.arity,hhost,hport,hnum]⟩

/-- Whatever a branch comes to, it has read its keyword and some operands behind it. -/
theorem branch_reads (einval : Bool) (argv : List Word) (k : Keyword) (p : Parse) :
    ∃ j, (j = 0 ∨ p.cursor+j < argv.length) ∧
      readingsOf (branch einval argv k p) = (p.past k j).readings ∧
      ∀ q, branch einval argv k p = .ok q → q.cursor = p.cursor+j := by
  cases k with
  | checksums =>
    refine ⟨0,.inl rfl,?_⟩
    cases herrno : p.errno
    · simp only [branch,checksumsBranch,asKeyword_eq,past_errno,herrno]
      exact ⟨rfl,fun q h => by cases h; rfl⟩
    · simp only [branch,checksumsBranch,asKeyword_eq,past_errno,herrno]
      exact ⟨rfl,fun q h => by cases h⟩
  | charmode => exact ⟨0,.inl rfl,rfl,fun q h => by cases h; rfl⟩
  | rx | threads | verbose | delayus | checkphrase | terminate | prbs | leglimit =>
    simp only [branch,rxBranch,threadsBranch,verboseBranch,delayusBranch,checkphraseBranch,
      terminateBranch,prbsBranch,leglimitBranch,asKeyword_eq]
    cases h0 : argv[p.cursor+1+0]? with
    | none =>
      rw [operand_none h0]
      exact ⟨0,.inl rfl,rfl,fun q h => by cases h⟩
    | some w =>
      have hone : p.cursor+1 < argv.length := (List.getElem?_eq_some_iff.mp h0).1
      rw [operand_some h0]
      try split_ifs
      all_goals exact ⟨1,.inr hone,rfl,fun q h => by cases h <;> rfl⟩
  | tx | initiate =>
    simp only [branch,txBranch,initiateBranch,asKeyword_eq]
    cases h0 : argv[p.cursor+1+0]? with
    | none =>
      rw [operand_none h0]
      exact ⟨0,.inl rfl,rfl,fun q h => by cases h⟩
    | some host =>
      have hone : p.cursor+1 < argv.length := (List.getElem?_eq_some_iff.mp h0).1
      rw [operand_some h0]
      cases h1 : argv[p.cursor+1+1]? with
      | none =>
        rw [operand_none h1]
        split_ifs <;> exact ⟨1,.inr hone,rfl,fun q h => by cases h⟩
      | some w =>
        have htwo : p.cursor+2 < argv.length := (List.getElem?_eq_some_iff.mp h1).1
        rw [operand_some h1]
        split_ifs <;> first
          | exact ⟨1,.inr hone,rfl,fun q h => by cases h⟩
          | exact ⟨2,.inr htwo,rfl,fun q h => by cases h <;> rfl⟩

theorem branch_extends (k : Keyword) (p : Parse) :
    p.readings++[⟨p.cursor,.keyword k⟩] <+: readingsOf (branch einval argv k p) := by
  obtain ⟨j,-,hj,-⟩ := branch_reads einval argv k p
  rw [hj]
  exact ⟨_,List.append_assoc _ _ _⟩

theorem readingsOf_bind {r : Parsing} {f : Parse → Parsing}
    (hf : ∀ q, q.readings <+: readingsOf (f q)) : readingsOf r <+: readingsOf (r.bind f) := by
  cases r with
  | ok q => exact hf q
  | error s => exact List.prefix_refl _

theorem chain_extends (ks : List Keyword) (p : Parse) :
    p.readings <+: readingsOf (chain einval argv ks p) := by
  induction ks generalizing p with
  | nil => exact List.prefix_refl _
  | cons k ks ih =>
    rw [chain]
    split_ifs
    · exact ((List.prefix_append _ _).trans (branch_extends k p)).trans (readingsOf_bind ih)
    · exact ih p

/-- The word at the cursor is one of the keywords to come. -/
theorem chain_reads {ks : List Keyword} {p : Parse}
    (h : ∃ k ∈ ks, argv[p.cursor]? = some k.text) :
    ∃ k, p.readings++[⟨p.cursor,.keyword k⟩] <+: readingsOf (chain einval argv ks p) := by
  induction ks with
  | nil => simp at h
  | cons k ks ih =>
    rw [chain]
    split_ifs with hk
    · exact ⟨k,(branch_extends k p).trans (readingsOf_bind (chain_extends ks))⟩
    · obtain ⟨k',hmem,hk'⟩ := h
      rcases List.mem_cons.mp hmem with rfl | hmem
      · exact absurd hk' hk
      · exact ih ⟨k',hmem,hk'⟩

theorem argLoop_extends (n : ℕ) (p : Parse) :
    p.readings <+: readingsOf (argLoop einval argv n p) := by
  induction n generalizing p with
  | zero => exact List.prefix_refl _
  | succ n ih =>
    rw [argLoop]
    split_ifs
    · exact List.prefix_refl _
    · exact (chain_extends _ p).trans (readingsOf_bind fun q => ih { q with cursor := q.cursor+1 })
    · exact List.prefix_refl _

theorem chain_cursor {ks : List Keyword} {p q : Parse} (h : chain einval argv ks p = .ok q) :
    p.cursor ≤ q.cursor := by
  induction ks generalizing p with
  | nil =>
    cases h
    exact le_rfl
  | cons k ks ih =>
    rw [chain] at h
    split_ifs at h
    · cases hbranch : branch einval argv k p with
      | ok r =>
        rw [hbranch] at h
        obtain ⟨j,-,-,hj⟩ := branch_reads einval argv k p
        have hcursor := hj r hbranch
        have hle := ih h
        omega
      | error s =>
        rw [hbranch] at h
        cases h
    · exact ih h

/-- A pass for each word is enough: the loop ends behind the last word. -/
theorem argLoop_done {n : ℕ} {p q : Parse} (h : argLoop einval argv n p = .ok q)
    (hn : argv.length ≤ p.cursor+n) : argv.length ≤ q.cursor := by
  induction n generalizing p with
  | zero =>
    cases h
    exact hn
  | succ n ih =>
    rw [argLoop] at h
    split_ifs at h with hlt herrno
    · cases h
    · cases hchain : chain einval argv Keyword.order p with
      | ok r =>
        rw [hchain] at h
        have hcursor := chain_cursor hchain
        refine ih h ?_
        show argv.length ≤ r.cursor+1+n
        omega
      | error s =>
        rw [hchain] at h
        cases h
    · cases h
      omega

/-- No word is read as a keyword and as an operand, nor the first as a keyword. -/
def Unclashed (rs : List Reading) : Prop :=
  ∀ i k, ⟨i,.keyword k⟩ ∈ rs → i ≠ 0 ∧ ⟨i,.operand⟩ ∉ rs

/-- The history at the top of the loop. -/
structure Parse.Tidy (p : Parse) : Prop where
  pos : 0 < p.cursor
  fresh : ∀ r ∈ p.readings, r.index < p.cursor
  unclashed : Unclashed p.readings

theorem past_mem {p : Parse} {k : Keyword} {j : ℕ} {r : Reading} (h : r ∈ (p.past k j).readings) :
    r ∈ p.readings ∨ r = ⟨p.cursor,.keyword k⟩ ∨ ∃ i < j, r = ⟨p.cursor+1+i,.operand⟩ := by
  simpa [Parse.past,eq_comm] using h

theorem Parse.Tidy.past_unclashed {p : Parse} (hp : p.Tidy) (k : Keyword) (j : ℕ) :
    Unclashed (p.past k j).readings := by
  intro i k' hmem
  rcases past_mem hmem with hold | heq | ⟨l,-,heq⟩
  · obtain ⟨hzero,hoperand⟩ := hp.unclashed i k' hold
    have hlt : i < p.cursor := hp.fresh _ hold
    refine ⟨hzero,fun h => ?_⟩
    rcases past_mem h with h | h | ⟨l,-,h⟩
    · exact hoperand h
    · cases h
    · simp only [Reading.mk.injEq] at h
      omega
  · simp only [Reading.mk.injEq] at heq
    have hpos := hp.pos
    refine ⟨by omega,fun h => ?_⟩
    rcases past_mem h with h | h | ⟨l,-,h⟩
    · have hlt : i < p.cursor := hp.fresh _ h
      omega
    · cases h
    · simp only [Reading.mk.injEq] at h
      omega
  · cases heq

/-- Behind a clause that was taken. -/
theorem Taken.tidy {ops : List Word} {q : Parse} (hp : p.Tidy) (hq : Taken einval k ops p q) :
    { q with cursor := q.cursor+1 }.Tidy := by
  have hcursor : q.cursor = p.cursor+k.arity := hq.cursor
  refine ⟨Nat.succ_pos _,?_,?_⟩
  · show ∀ r ∈ q.readings, r.index < q.cursor+1
    rw [hq.readings]
    intro r hr
    rcases past_mem hr with hold | rfl | ⟨l,hl,rfl⟩
    · have hlt := hp.fresh r hold
      omega
    · show p.cursor < q.cursor+1
      omega
    · show p.cursor+1+l < q.cursor+1
      omega
  · show Unclashed q.readings
    rw [hq.readings]
    exact hp.past_unclashed k k.arity

/-- The word that the cursor comes to with a clause. -/
theorem last_operand (hrest : ∀ j, argv[p.cursor+1+j]? = rest[j]?)
    (hreturns : k.Returns einval (rest.take k.arity)) (hk : argv[p.cursor]? = some k.text) :
    argv[p.cursor+k.arity]? =
      if k.arity = 0 then some k.text else (rest.take k.arity).getLast? := by
  have hlen : (rest.take k.arity).length = k.arity := by
    cases k <;> rcases rest with _ | ⟨a,_ | ⟨b,rest⟩⟩ <;>
      first | rfl | simp [Keyword.arity,Keyword.Returns] at hreturns ⊢
  by_cases hzero : k.arity = 0
  · rw [if_pos hzero,hzero]
    exact hk
  · have hlast : p.cursor+k.arity = p.cursor+1+(k.arity-1) := by omega
    rw [if_neg hzero,hlast,hrest,List.getLast?_eq_getElem?,hlen,List.getElem?_take,
      if_pos (by omega)]

theorem Keyword.ne_of_later {k k' : Keyword} (h : k' ∈ k.later) : k.text ≠ k'.text := by
  rw [Ne,Keyword.text_injective]
  rintro rfl
  revert h
  cases k <;> decide

/-- No comparison is left that the last operand would meet. -/
def Unmet (k : Keyword) (rest : List Word) : Prop :=
  ∀ k' ∈ k.later, (rest.take k.arity).getLast? ≠ some k'.text

theorem chain_of_unmet {q : Parse} (hrest : ∀ j, argv[p.cursor+1+j]? = rest[j]?)
    (hk : argv[p.cursor]? = some k.text) (hreturns : k.Returns einval (rest.take k.arity))
    (hunmet : Unmet k rest) (hq : Taken einval k (rest.take k.arity) p q) :
    chain einval argv k.later q = .ok q := by
  apply chain_skip
  intro k' hk'
  have hcursor : q.cursor = p.cursor+k.arity := hq.cursor
  rw [hcursor,last_operand hrest hreturns hk]
  split_ifs
  · rw [Ne,Option.some.injEq]
    exact Keyword.ne_of_later hk'
  · exact hunmet k' hk'

/-- The last operand of a clause that was taken is read again, as a keyword. -/
theorem not_unclashed_of_met {q : Parse} (hrest : ∀ j, argv[p.cursor+1+j]? = rest[j]?)
    (hk : argv[p.cursor]? = some k.text) (hreturns : k.Returns einval (rest.take k.arity))
    (hmet : ¬ Unmet k rest) (hq : Taken einval k (rest.take k.arity) p q) :
    ¬ Unclashed (readingsOf (chain einval argv k.later q)) := by
  unfold Unmet at hmet
  push Not at hmet
  obtain ⟨k',hlater,hlast⟩ := hmet
  have hcursor : q.cursor = p.cursor+k.arity := hq.cursor
  have harity : k.arity ≠ 0 := by
    intro h
    simp [h] at hlast
  have hhere : argv[q.cursor]? = some k'.text := by
    rw [hcursor,last_operand hrest hreturns hk,if_neg harity,hlast]
  obtain ⟨k'',hread⟩ : ∃ k'', q.readings++[⟨q.cursor,.keyword k''⟩] <+:
      readingsOf (chain einval argv k.later q) := chain_reads ⟨k',hlater,hhere⟩
  have hoperand : ⟨q.cursor,.operand⟩ ∈ q.readings := by
    rw [hq.readings]
    simp only [Parse.past,List.mem_append,List.mem_cons,List.mem_map,List.mem_range]
    refine .inr (.inr ⟨k.arity-1,by omega,?_⟩)
    rw [hcursor,Reading.mk.injEq]
    exact ⟨by omega,rfl⟩
  intro hclean
  refine (hclean q.cursor k'' (hread.subset (by simp))).2 (hread.subset ?_)
  exact List.mem_append_left _ hoperand

/-- The loop ends as the grammar does, whose result is `g`; a number out of range is refused only
in the next pass or behind the loop. -/
inductive Agrees (g : Option Options) : Parsing → Prop
  | accepted (q : Parse) : Unclashed q.readings → g = some q.options → q.errno = false → Agrees g (.ok q)
  | pending (q : Parse) : Unclashed q.readings → g = none → q.errno = true → Agrees g (.ok q)
  | refused (e : Exit) (rs : List Reading) : Unclashed rs → g = none → Agrees g (.error ⟨.exited e,rs⟩)

/-- The loop ends as the grammar never does. -/
def Broken (r : Parsing) : Prop :=
  ¬ Unclashed (readingsOf r) ∨ ∃ line rs, r = .error ⟨.undefined line,rs⟩

theorem Broken.of_extends {r s : Parsing} (h : ¬ Unclashed (readingsOf r))
    (hext : readingsOf r <+: readingsOf s) : Broken s := by
  refine .inl fun hclean => h fun i k hi => ?_
  obtain ⟨hzero,hoperand⟩ := hclean i k (hext.subset hi)
  exact ⟨hzero,fun hmem => hoperand (hext.subset hmem)⟩

theorem argLoop_end {p : Parse} (h : argv.length ≤ p.cursor) (n : ℕ) :
    argLoop einval argv n p = .ok p := by
  cases n with
  | zero => rfl
  | succ n => rw [argLoop,if_neg (by omega)]

theorem argLoop_errno {p : Parse} (h : p.errno = true) (n : ℕ) :
    argLoop einval argv n p = .ok p ∨ argLoop einval argv n p = p.checkperror 83 := by
  cases n with
  | zero => exact .inl rfl
  | succ n =>
    by_cases hlt : p.cursor < argv.length
    · rw [argLoop,if_pos hlt,if_pos h]
      exact .inr rfl
    · exact .inl (argLoop_end (not_lt.mp hlt) _)

/-- A pass at a word that is no keyword. -/
theorem argLoop_skip {n : ℕ} {w : Word} (herrno : p.errno = false) (hw : argv[p.cursor]? = some w)
    (hnone : Keyword.ofText w = none) :
    argLoop einval argv (n+1) p = argLoop einval argv n { p with cursor := p.cursor+1 } := by
  have hlt : p.cursor < argv.length := List.getElem?_eq_some_iff.mp hw |>.1
  rw [argLoop,if_pos hlt,if_neg (by rw [herrno]; decide),chain_skip]
  · rfl
  · intro k _
    rw [hw,Ne,Option.some.injEq]
    exact (Keyword.ofText_eq_none hnone k).symm

/-- A pass at a keyword. -/
theorem argLoop_keyword {n : ℕ} (herrno : p.errno = false) (hk : argv[p.cursor]? = some k.text) :
    argLoop einval argv (n+1) p =
      ((branch einval argv k p).bind (chain einval argv k.later)).bind fun q =>
        argLoop einval argv n { q with cursor := q.cursor+1 } := by
  have hlt : p.cursor < argv.length := List.getElem?_eq_some_iff.mp hk |>.1
  rw [argLoop,if_pos hlt,if_neg (by rw [herrno]; decide),chain_order hk]

/-- What is behind the word at the cursor. -/
theorem behind {w : Word} (hrest : ∀ j, argv[p.cursor+j]? = (w::rest)[j]?) (j : ℕ) :
    argv[p.cursor+1+j]? = rest[j]? := by
  rw [Nat.add_assoc,Nat.add_comm 1 j]
  exact hrest (j+1)

theorem behind_clause {q : Parse} {ops : List Word} (hq : Taken einval k ops p q)
    (hrest : ∀ j, argv[p.cursor+1+j]? = rest[j]?) (j : ℕ) :
    argv[q.cursor+1+j]? = (rest.drop k.arity)[j]? := by
  have hcursor : q.cursor = p.cursor+k.arity := hq.cursor
  rw [List.getElem?_drop,← hrest,hcursor]
  congr 1
  omega

theorem Parse.Tidy.skip (hp : p.Tidy) : { p with cursor := p.cursor+1 }.Tidy :=
  ⟨Nat.succ_pos _,fun r hr => Nat.lt_succ_of_lt (hp.fresh r hr),hp.unclashed⟩

/-- A clear clause: the pass goes on behind it, or the process ends as the grammar wants it. -/
theorem argLoop_of_clear {n : ℕ} (hp : p.Tidy) (herrno : p.errno = false)
    (hrest : ∀ j, argv[p.cursor+j]? = rest[j]?) (hclear : Clear einval n rest p.options) :
    Agrees (grammar einval n rest p.options) (argLoop einval argv n p) := by
  induction n generalizing p rest with
  | zero => exact .accepted p hp.unclashed rfl herrno
  | succ n ih =>
    have hhere := hrest 0
    cases rest with
    | nil =>
      have hend : argv.length ≤ p.cursor := by simpa using hhere
      rw [argLoop_end hend]
      exact .accepted p hp.unclashed rfl herrno
    | cons w rest =>
      have hbehind := behind hrest
      unfold Clear at hclear
      rw [grammar]
      cases hof : Keyword.ofText w with
      | none =>
        simp only [hof] at hclear
        rw [argLoop_skip herrno hhere hof]
        exact ih hp.skip herrno hbehind hclear
      | some k =>
        simp only [hof] at hclear ⊢
        obtain ⟨hsupplied,hunmet,hgo⟩ := hclear
        obtain rfl := Keyword.text_of_ofText hof
        rw [argLoop_keyword herrno hhere]
        have hspec : Branched einval k rest p (branch einval argv k p) := branch_spec herrno hbehind
        generalize branch einval argv k p = r at hspec ⊢
        cases hspec with
        | undefined j line hnot => exact absurd hsupplied hnot
        | stopped j e _ _ hrefused =>
          rw [hrefused]
          exact .refused e _ (hp.past_unclashed k j) rfl
        | taken q _ hreturns hq =>
          have hchain := chain_of_unmet hbehind hhere hreturns (hunmet hreturns) hq
          simp only [Except.bind,hchain]
          cases hassign : k.assign einval (rest.take k.arity) p.options with
          | none =>
            rcases argLoop_errno (p := { q with cursor := q.cursor+1 }) (hq.refused hassign) n with
              hend | hend <;> rw [hend]
            · exact .pending _ (hq.tidy hp).unclashed rfl (hq.refused hassign)
            · exact .refused _ _ (hq.tidy hp).unclashed rfl
          | some o =>
            obtain ⟨hoptions,hzero⟩ := hq.accepted o hassign
            have hclear := hgo o hassign
            rw [← hoptions] at hclear
            have hnext := ih (hq.tidy hp) hzero (behind_clause hq hbehind) hclear
            simpa only [Option.bind,hoptions] using hnext

/-- A clash is seen in the history, and memory that is not there in the way the process ends. -/
theorem argLoop_of_not_clear {n : ℕ} (hp : p.Tidy) (herrno : p.errno = false)
    (hrest : ∀ j, argv[p.cursor+j]? = rest[j]?) (hclear : ¬ Clear einval n rest p.options) :
    Broken (argLoop einval argv n p) := by
  induction n generalizing p rest with
  | zero => exact absurd trivial hclear
  | succ n ih =>
    have hhere := hrest 0
    cases rest with
    | nil => exact absurd trivial hclear
    | cons w rest =>
      have hbehind := behind hrest
      unfold Clear at hclear
      cases hof : Keyword.ofText w with
      | none =>
        simp only [hof] at hclear
        rw [argLoop_skip herrno hhere hof]
        exact ih hp.skip herrno hbehind hclear
      | some k =>
        simp only [hof] at hclear
        obtain rfl := Keyword.text_of_ofText hof
        rw [argLoop_keyword herrno hhere]
        have hspec : Branched einval k rest p (branch einval argv k p) := branch_spec herrno hbehind
        generalize branch einval argv k p = r at hspec ⊢
        cases hspec with
        | undefined j line hnot => exact .inr ⟨line,_,rfl⟩
        | stopped j e hsupplied hnot hrefused =>
          refine absurd ⟨hsupplied,fun h => absurd h hnot,fun o ho => ?_⟩ hclear
          rw [hrefused] at ho
          cases ho
        | taken q hsupplied hreturns hq =>
          by_cases hunmet : Unmet k rest
          · have hchain := chain_of_unmet hbehind hhere hreturns hunmet hq
            simp only [Except.bind,hchain]
            have hgo : ∃ o, k.assign einval (rest.take k.arity) p.options = some o ∧
                ¬ Clear einval n (rest.drop k.arity) o := by
              by_contra hall
              push Not at hall
              exact hclear ⟨hsupplied,fun _ => hunmet,hall⟩
            obtain ⟨o,hassign,hnot⟩ := hgo
            obtain ⟨hoptions,hzero⟩ := hq.accepted o hassign
            rw [← hoptions] at hnot
            exact ih (hq.tidy hp) hzero (behind_clause hq hbehind) hnot
          · refine .of_extends (not_unclashed_of_met hbehind hhere hreturns hunmet hq) ?_
            exact readingsOf_bind fun q => argLoop_extends n { q with cursor := q.cursor+1 }

theorem settled_extends (p : Parse) : p.readings <+: readingsOf (settled p) := by
  unfold settled
  split_ifs <;> exact List.prefix_refl _

theorem configured_of_some {o : Options}
    (h : grammar einval argv.tail.length argv.tail .default = some o) : configured einval argv =
      if 0 < o.terminatePort ∧ 0 < o.initiatePort then none else some o := by
  rw [configured,h]
  by_cases hterminate : 0 < o.terminatePort <;> by_cases hinitiate : 0 < o.initiatePort <;>
    simp only [Option.filter,hterminate,hinitiate] <;> rfl

theorem configured_of_none (h : grammar einval argv.tail.length argv.tail .default = none) :
    configured einval argv = none := by
  rw [configured,h]
  rfl

theorem followsGrammar_of_agrees
    (h : Agrees (grammar einval argv.tail.length argv.tail .default)
      (argLoop einval argv argv.length .start)) : FollowsGrammar einval argv := by
  have hparse : parseArguments einval argv =
      (argLoop einval argv argv.length .start).bind settled := rfl
  generalize argLoop einval argv argv.length .start = r at h hparse
  cases h with
  | accepted q hclean hg herrno =>
    have hsettled : parseArguments einval argv = settled q := hparse
    unfold settled at hsettled
    rw [if_neg (by rw [herrno]; decide)] at hsettled
    by_cases hboth : 0 < q.options.terminatePort ∧ 0 < q.options.initiatePort
    · rw [if_pos hboth] at hsettled
      refine ⟨?_,by rw [hsettled]; exact hclean⟩
      rw [hsettled]
      exact (configured_of_some hg).trans (if_pos hboth)
    · rw [if_neg hboth] at hsettled
      refine ⟨?_,by rw [hsettled]; exact hclean⟩
      rw [hsettled]
      exact (configured_of_some hg).trans (if_neg hboth)
  | pending q hclean hg herrno =>
    have hsettled : parseArguments einval argv = q.checkperror 202 := by
      rw [hparse]
      exact if_pos herrno
    refine ⟨?_,by rw [hsettled]; exact hclean⟩
    rw [hsettled]
    exact configured_of_none hg
  | refused e rs hclean hg =>
    have hsettled : parseArguments einval argv = .error ⟨.exited e,rs⟩ := hparse
    refine ⟨?_,by rw [hsettled]; exact hclean⟩
    rw [hsettled]
    exact configured_of_none hg

theorem not_followsGrammar_of_broken (h : Broken (argLoop einval argv argv.length .start)) :
    ¬ FollowsGrammar einval argv := by
  have hparse : parseArguments einval argv =
      (argLoop einval argv argv.length .start).bind settled := rfl
  have hbroken : Broken (parseArguments einval argv) := by
    rw [hparse]
    rcases h with hclash | ⟨line,rs,hend⟩
    · exact .of_extends hclash (readingsOf_bind settled_extends)
    · rw [hend]
      exact .inr ⟨line,rs,rfl⟩
  intro hfollows
  rcases hbroken with hclash | ⟨line,rs,hend⟩
  · exact hclash hfollows.keywords
  · have hfalse := hfollows.configuration
    rw [hend] at hfalse
    exact hfalse

/-- For every command line: the loop follows the grammar if and only if the program name is no
keyword, no last operand of a clause meets a later comparison, and no clause uses memory that is
not there. -/
theorem followsGrammar_iff (einval : Bool) (argv : List Word) :
    FollowsGrammar einval argv ↔ NoClash einval argv := by
  cases argv with
  | nil => exact ⟨fun _ => ⟨fun w hw => (by cases hw),trivial⟩,fun _ =>
      followsGrammar_of_agrees (.accepted .start (fun i k h => by cases h) rfl rfl)⟩
  | cons name words =>
    have hname : (name::words)[Parse.start.cursor]? = some name := rfl
    have hrest (j : ℕ) : (name::words)[1+j]? = words[j]? := by
      rw [Nat.add_comm]
      rfl
    have htidy : { Parse.start with cursor := 1 }.Tidy :=
      ⟨Nat.one_pos,fun r hr => (by cases hr),fun i k hk => (by cases hk)⟩
    cases hof : Keyword.ofText name with
    | none =>
      have hloop : argLoop einval (name::words) (name::words).length .start =
          argLoop einval (name::words) words.length { Parse.start with cursor := 1 } :=
        argLoop_skip rfl hname hof
      by_cases hclear : Clear einval words.length words .default
      · refine ⟨fun _ => ⟨fun w hw => ?_,hclear⟩,fun _ => followsGrammar_of_agrees ?_⟩
        · cases hw
          exact hof
        · rw [hloop]
          exact argLoop_of_clear htidy rfl hrest hclear
      · refine ⟨fun h => absurd h (not_followsGrammar_of_broken ?_),fun h => absurd h.2 hclear⟩
        rw [hloop]
        exact argLoop_of_not_clear htidy rfl hrest hclear
    | some k =>
      refine ⟨fun h => absurd h (not_followsGrammar_of_broken ?_),fun h => ?_⟩
      · obtain rfl := Keyword.text_of_ofText hof
        have hread : [⟨0,.keyword k⟩] <+:
            readingsOf (argLoop einval (k.text::words) (k.text::words).length .start) := by
          rw [List.length_cons,argLoop_keyword rfl hname]
          refine (branch_extends k .start).trans
            ((readingsOf_bind (chain_extends k.later)).trans (readingsOf_bind fun q => ?_))
          exact argLoop_extends words.length { q with cursor := q.cursor+1 }
        exact .inl fun hclean => (hclean 0 k (hread.subset (by simp))).1 rfl
      · exact absurd (h.1 name rfl) (by rw [hof]; simp)

end Chain

/-- The check phrase of the first command line is also taken for a keyword, with the word behind
it for a seed; the name of the second program is taken for one; the third has a clause without its
operands. -/
theorem notGrammatical_of_clash :
    (∃ p, parseArguments false [word "viamillipede",word "checkphrase",word "prbs",word "7"] =
        .ok p ∧ p.options.gcheckphrase = word "prbs" ∧ p.options.gprbsSeed = 7 ∧
      ∃ o ∈ configured false [word "viamillipede",word "checkphrase",word "prbs",word "7"],
        o.gcheckphrase = word "prbs" ∧ o.gprbsSeed = 0) ∧
    ¬ FollowsGrammar false [word "viamillipede",word "checkphrase",word "prbs",word "7"] ∧
    ¬ FollowsGrammar false [word "charmode"] ∧
    ¬ FollowsGrammar false [word "viamillipede",word "initiate"] := by
  refine ⟨⟨_,rfl,by decide,by decide,_,rfl,by decide,by decide⟩,fun h => ?_,fun h => ?_,
    fun h => h.configuration⟩
  · exact (h.keywords 2 .prbs (by decide)).2 (by decide)
  · exact (h.keywords 0 .charmode (by decide)).1 rfl

example : NoClash false ((["viamillipede","tx","localhost","12323","threads","3","rx",
    "12323"] : List String).map word) := by
  decide

end Viamillipede
