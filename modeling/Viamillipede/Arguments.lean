import Viamillipede.Numeral
import Viamillipede.Tx

/-! The command line of `viamillipede.c`: the loop of `main` over `argv`, and the grammar that it
is to follow.

`CHAOS` is not defined by the build, so that there is no `chaos` here. The history of a parse
says which words have been read as keywords and which as operands. -/
namespace Viamillipede

open Numeral

inductive Keyword
  | rx | tx | threads | verbose | checksums | delayus | checkphrase | terminate | initiate
  | charmode | prbs | leglimit
  deriving DecidableEq, Repr

namespace Keyword

def text : Keyword → Word
  | .rx => word "rx"
  | .tx => word "tx"
  | .threads => word "threads"
  | .verbose => word "verbose"
  | .checksums => word "checksums"
  | .delayus => word "delayus"
  | .checkphrase => word "checkphrase"
  | .terminate => word "terminate"
  | .initiate => word "initiate"
  | .charmode => word "charmode"
  | .prbs => word "prbs"
  | .leglimit => word "leglimit"

/-- The order of the comparisons in `main`. -/
def order : List Keyword :=
  [.rx,.tx,.threads,.verbose,.checksums,.delayus,.checkphrase,.terminate,.initiate,.charmode,.prbs,
    .leglimit]

end Keyword

/-- The globals that the command line sets. -/
structure Options where
  mode : ℕ
  rxPort : UInt16
  targets : List (Word × UInt16)
  workerCount : ℤ
  gverbose : ℤ
  gchecksums : Bool
  gdelayUs : UInt64
  gcheckphrase : Word
  terminatePort : UInt32
  initiateHost : Option Word
  initiatePort : UInt16
  gcharmode : Bool
  gprbsSeed : UInt64
  glegLimit : ℤ
  deriving DecidableEq

/-- Lines 23 to 38 and 71 to 78. -/
def Options.default : Options where
  mode := 0
  rxPort := 0
  targets := []
  workerCount := 16
  gverbose := 0
  gchecksums := false
  gdelayUs := 0
  gcheckphrase := word "yoes"
  terminatePort := 0
  initiateHost := none
  initiatePort := 0
  gcharmode := false
  gprbsSeed := 0
  glegLimit := 0

def modeTx : ℕ := 2

def modeRx : ℕ := 4

def modePrbs : ℕ := 8

/-- What a word has been read as. -/
inductive Role
  | keyword (k : Keyword)
  | operand
  deriving DecidableEq

structure Reading where
  index : ℕ
  role : Role
  deriving DecidableEq

/-- Why `main` goes no further; `undefined` is a use of memory that C gives no meaning to. -/
inductive Stop
  | exited (e : Exit)
  | undefined (line : ℕ)
  deriving DecidableEq

/-- The parse at some place of the loop; `errno` says whether it is set. -/
structure Parse where
  cursor : ℕ
  options : Options
  errno : Bool
  readings : List Reading
  deriving DecidableEq

/-- A parse that has stopped, and what had been read. -/
structure Stopped where
  stop : Stop
  readings : List Reading
  deriving DecidableEq

abbrev Parsing := Except Stopped Parse

namespace Parse

/-- Line 63 and 79. -/
def start : Parse := ⟨0,.default,false,[]⟩

def assertion (p : Parse) (line : ℕ) : Parsing := .error ⟨.exited (.assertion line),p.readings⟩

def checkperror (p : Parse) (line : ℕ) : Parsing := .error ⟨.exited (.checkperror line),p.readings⟩

def undefined (p : Parse) (line : ℕ) : Parsing := .error ⟨.undefined line,p.readings⟩

def asKeyword (p : Parse) (k : Keyword) : Parse :=
  { p with readings := p.readings++[⟨p.cursor,.keyword k⟩] }

/-- `++arg_cursor` and the word there as an operand; `argv` ends with a null pointer. -/
def operand (argv : List Word) (p : Parse) (missing : Parse → Parsing)
    (use : Parse → Word → Parsing) : Parsing :=
  match argv[p.cursor+1]? with
  | none => missing p
  | some w =>
    use { p with cursor := p.cursor+1, readings := p.readings++[⟨p.cursor+1,.operand⟩] } w

end Parse

/-- The assertions at 91 and 110, whose upper bound is `USHRT_MAX`. -/
def portOk (port : ℤ) : Bool := 0 < port && port < 65535

section Branches

variable (einval : Bool) (argv : List Word)

/-- Lines 85 to 97. -/
def rxBranch (p : Parse) : Parsing :=
  (p.asKeyword .rx).operand argv (·.assertion 88) fun p w =>
    let n := atoi einval w
    if portOk n.value = false then p.assertion 91
    else if p.errno || n.errno then p.checkperror 96
    else .ok { p with options := { p.options with
      rxPort := UInt16.ofInt n.value, mode := p.options.mode ||| modeRx } }

/-- Lines 98 to 120. There is room for 16 targets. -/
def txBranch (p : Parse) : Parsing :=
  (p.asKeyword .tx).operand argv (·.assertion 102) fun p host =>
    if host.length = 0 then p.assertion 103
    else if p.errno then p.checkperror 104
    else if 16 ≤ p.options.targets.length then p.undefined 105
    else p.operand argv (·.assertion 107) fun p w =>
      let n := atoi einval w
      if portOk n.value = false then p.assertion 110
      else if n.errno then p.checkperror 114
      else .ok { p with options := { p.options with
        targets := p.options.targets++[(host,UInt16.ofInt n.value)]
        mode := p.options.mode ||| modeTx } }

/-- Lines 121 to 128. -/
def threadsBranch (p : Parse) : Parsing :=
  (p.asKeyword .threads).operand argv (·.assertion 123) fun p w =>
    let n := atoi einval w
    if p.errno || n.errno then p.checkperror 125
    else if 16 < n.value then p.assertion 126
    else .ok { p with options := { p.options with workerCount := n.value } }

/-- Lines 129 to 135. -/
def verboseBranch (p : Parse) : Parsing :=
  (p.asKeyword .verbose).operand argv (·.assertion 131) fun p w =>
    let n := atoi einval w
    .ok { p with errno := p.errno || n.errno, options := { p.options with gverbose := n.value } }

/-- Lines 136 to 141. -/
def checksumsBranch (p : Parse) : Parsing :=
  let p := p.asKeyword .checksums
  if p.errno then p.checkperror 139
  else .ok { p with options := { p.options with gchecksums := true } }

/-- Lines 142 to 148. -/
def delayusBranch (p : Parse) : Parsing :=
  (p.asKeyword .delayus).operand argv (·.assertion 144) fun p w =>
    let n := atoi einval w
    if p.errno || n.errno then p.checkperror 146
    else .ok { p with options := { p.options with gdelayUs := UInt64.ofInt n.value } }

/-- Lines 158 to 162. -/
def checkphraseBranch (p : Parse) : Parsing :=
  (p.asKeyword .checkphrase).operand argv (·.assertion 159) fun p w =>
    .ok { p with options := { p.options with gcheckphrase := w } }

/-- Lines 165 to 169. -/
def terminateBranch (p : Parse) : Parsing :=
  (p.asKeyword .terminate).operand argv (·.assertion 166) fun p w =>
    let n := atoi einval w
    .ok { p with errno := p.errno || n.errno
                 options := { p.options with terminatePort := UInt32.ofInt n.value } }

/-- Lines 172 to 179, where nothing asks for the operands. -/
def initiateBranch (p : Parse) : Parsing :=
  (p.asKeyword .initiate).operand argv (·.undefined 174) fun p host =>
    if host.length = 0 then p.assertion 174
    else p.operand argv (·.undefined 177) fun p w =>
      let n := atoi einval w
      .ok { p with errno := p.errno || n.errno, options := { p.options with
        initiateHost := some host, initiatePort := UInt16.ofInt n.value } }

/-- Lines 180 to 183. -/
def charmodeBranch (p : Parse) : Parsing :=
  let p := p.asKeyword .charmode
  .ok { p with options := { p.options with gcharmode := true } }

/-- Lines 184 to 191. -/
def prbsBranch (p : Parse) : Parsing :=
  (p.asKeyword .prbs).operand argv (·.assertion 187) fun p w =>
    let n := strtoul einval w
    .ok { p with errno := p.errno || n.errno, options := { p.options with
      mode := p.options.mode ||| modePrbs, gprbsSeed := n.value } }

/-- Lines 192 to 199. -/
def leglimitBranch (p : Parse) : Parsing :=
  (p.asKeyword .leglimit).operand argv (·.assertion 195) fun p w =>
    let n := strtoul einval w
    .ok { p with errno := p.errno || n.errno, options := { p.options with
      mode := p.options.mode ||| modePrbs, glegLimit := toInt n.value } }

/-- What stands behind each comparison. -/
def branch : Keyword → Parse → Parsing
  | .rx => rxBranch einval argv
  | .tx => txBranch einval argv
  | .threads => threadsBranch einval argv
  | .verbose => verboseBranch einval argv
  | .checksums => checksumsBranch
  | .delayus => delayusBranch einval argv
  | .checkphrase => checkphraseBranch argv
  | .terminate => terminateBranch einval argv
  | .initiate => initiateBranch einval argv
  | .charmode => charmodeBranch
  | .prbs => prbsBranch einval argv
  | .leglimit => leglimitBranch einval argv

/-- The comparisons of lines 85 to 199, one after the other: each with the word that the cursor
is at by then. -/
def chain : List Keyword → Parse → Parsing
  | [], p => .ok p
  | k::ks, p =>
    if argv[p.cursor]? = some k.text then (branch einval argv k p).bind (chain ks) else chain ks p

/-- Lines 81 to 201; the loop makes at most one pass for each word. -/
def argLoop : ℕ → Parse → Parsing
  | 0, p => .ok p
  | n+1, p =>
    if p.cursor < argv.length then
      if p.errno then p.checkperror 83
      else (chain einval argv Keyword.order p).bind fun q =>
        argLoop n { q with cursor := q.cursor+1 }
    else .ok p

/-- Lines 202 to 204. -/
def settled (p : Parse) : Parsing :=
  if p.errno then p.checkperror 202
  else if 0 < p.options.terminatePort ∧ 0 < p.options.initiatePort then p.assertion 203
  else .ok p

/-- Lines 63 to 204 of `main`. -/
def parseArguments : Parsing := (argLoop einval argv argv.length .start).bind settled

end Branches

/-! What the command line is meant to be: words, of which each keyword is followed by a fixed
number of operands. -/

namespace Keyword

def arity : Keyword → ℕ
  | .checksums | .charmode => 0
  | .tx | .initiate => 2
  | _ => 1

/-- The keyword that a word is. -/
def ofText (w : Word) : Option Keyword := order.find? fun k => k.text = w

/-- What a clause sets; `none` when its operands are missing or not what the keyword asks for. -/
def assign (einval : Bool) : Keyword → List Word → Options → Option Options
  | .rx,[w],o =>
    let n := atoi einval w
    if portOk n.value && !n.errno then
      some { o with rxPort := UInt16.ofInt n.value, mode := o.mode ||| modeRx } else none
  | .tx,[host,w],o =>
    let n := atoi einval w
    if host ≠ [] && portOk n.value && !n.errno then
      some { o with targets := o.targets++[(host,UInt16.ofInt n.value)], mode := o.mode ||| modeTx }
    else none
  | .threads,[w],o =>
    let n := atoi einval w
    if n.value ≤ 16 && !n.errno then some { o with workerCount := n.value } else none
  | .verbose,[w],o =>
    let n := atoi einval w
    if n.errno then none else some { o with gverbose := n.value }
  | .checksums,[],o => some { o with gchecksums := true }
  | .delayus,[w],o =>
    let n := atoi einval w
    if n.errno then none else some { o with gdelayUs := UInt64.ofInt n.value }
  | .checkphrase,[w],o => some { o with gcheckphrase := w }
  | .terminate,[w],o =>
    let n := atoi einval w
    if n.errno then none else some { o with terminatePort := UInt32.ofInt n.value }
  | .initiate,[host,w],o =>
    let n := atoi einval w
    if host ≠ [] && !n.errno then
      some { o with initiateHost := some host, initiatePort := UInt16.ofInt n.value } else none
  | .charmode,[],o => some { o with gcharmode := true }
  | .prbs,[w],o =>
    let n := strtoul einval w
    if n.errno then none else some { o with mode := o.mode ||| modePrbs, gprbsSeed := n.value }
  | .leglimit,[w],o =>
    let n := strtoul einval w
    if n.errno then none else some { o with mode := o.mode ||| modePrbs, glegLimit := toInt n.value }
  | _,_,_ => none

end Keyword

/-- The words from left to right; a word that is no keyword has no meaning. -/
def grammar (einval : Bool) : ℕ → List Word → Options → Option Options
  | 0,_,o => some o
  | _+1,[],o => some o
  | n+1,w::rest,o =>
    match Keyword.ofText w with
    | none => grammar einval n rest o
    | some k =>
      (k.assign einval (rest.take k.arity) o).bind (grammar einval n (rest.drop k.arity))

/-- The configuration that the words behind the program name stand for. -/
def configured (einval : Bool) (argv : List Word) : Option Options :=
  (grammar einval argv.tail.length argv.tail .default).filter fun o =>
    !(0 < o.terminatePort && 0 < o.initiatePort)

def readingsOf : Parsing → List Reading
  | .ok p => p.readings
  | .error s => s.readings

/-- `main` ends its loop with the configuration that the words stand for, or refuses them when
they stand for none; and neither the program name nor an operand is read as a keyword. -/
structure FollowsGrammar (einval : Bool) (argv : List Word) : Prop where
  configuration : match parseArguments einval argv with
    | .ok p => configured einval argv = some p.options
    | .error ⟨.exited _,_⟩ => configured einval argv = none
    | .error ⟨.undefined _,_⟩ => False
  keywords : ∀ i k, ⟨i,.keyword k⟩ ∈ readingsOf (parseArguments einval argv) →
    i ≠ 0 ∧ ⟨i,.operand⟩ ∉ readingsOf (parseArguments einval argv)

end Viamillipede
