import Viamillipede.Rx

/-! The exchange of the check phrase: `tx_start_net` from line 262 on and `rxworker` from line
36 on, over one connection.

A read or write returns any count that the bytes in flight allow. What `readback` holds before
the read at 266 is not known, as nothing initialises it. -/
namespace Viamillipede

open Bytes Transition

/-- A NUL-terminated string and what follows it in memory. -/
structure Phrase where
  memory : Memory
  length : ℕ
  unbroken : ∀ i < length, memory i ≠ 0
  terminated : memory length = 0

namespace Phrase

def text (p : Phrase) : List UInt8 := p.memory.read p.length

/-- The four bytes that one side sends and the other compares. -/
def word (p : Phrase) : List UInt8 := p.memory.read 4

/-- The string `text` with `rest` behind its end. -/
def ofText (text rest : List UInt8) (h : 0 ∉ text) : Phrase where
  memory i := (text++0::rest).getD i 0
  length := text.length
  unbroken i hi := by
    have hmem : text[i] ∈ text := List.getElem_mem hi
    simp only [List.getD_eq_getElem?_getD,List.getElem?_append_left hi,List.getElem?_eq_getElem hi,
      Option.getD_some]
    exact fun hzero => h (hzero ▸ hmem)
  terminated := by simp

end Phrase

/-- `okphrase`. -/
def okphrase : List UInt8 := [111,107]

/-- Where the transmit worker is. -/
inductive TxShakePc
  | write                      -- 262
  | read                       -- 266
  | online (retcode : ℕ)       -- 273, up to the assertion at 285
  | idle                       -- 287: its state is 'i'
  deriving DecidableEq, Repr

/-- Where the receive worker is. -/
inductive RxShakePc
  | read                       -- 36
  | reply                      -- 47
  | packets                    -- 53
  deriving DecidableEq, Repr

/-- The two phrases, the receive worker as it has accepted the connection, and what `readback`
holds. -/
structure Exchange where
  txPhrase : Phrase
  rxPhrase : Phrase
  gprbsSeed : UInt64
  receiver : RxWorker
  readback : Memory

def Exchange.rxConfig (x : Exchange) : RxConfig := ⟨x.gprbsSeed,x.rxPhrase.word⟩

/-- The two workers and the bytes in flight each way. The last three fields are history: the
offsets at which each side has read its phrase, and what the reads of headers returned. -/
structure Handshake where
  txPc : TxShakePc
  readback : Memory
  txExited : Option Exit
  rxPc : RxShakePc
  rx : RxWorker
  rxExited : Option Exit
  toRx : List UInt8
  toTx : List UInt8
  txTouched : List ℕ
  rxTouched : List ℕ
  headers : List (List UInt8)

/-- What may happen next: a call returns a count or fails, or the transmit worker goes on to
its state 'i' or sends packets. -/
inductive ShakeAction
  | txWrite (count : ℕ)
  | txRead (count : ℕ)
  | txOnline
  | txFailed (e : Exit)
  | send (bs : List UInt8)
  | rxRead (count : ℕ)
  | rxWrite (count : ℕ)
  | rxFailed (e : Exit)
  | readv (junk : Millipacket) (count : ℕ)
  deriving DecidableEq

namespace Handshake

variable (x : Exchange) (s : Handshake)

/-- Lines 262 to 264. -/
def txWrite (count : ℕ) : Handshake :=
  let s := { s with toRx := s.toRx++x.txPhrase.memory.read count
                    txTouched := s.txTouched++List.range count }
  if count = 4 then { s with txPc := .read } else { s with txExited := some (.assertion 264) }

/-- Lines 266 to 272. The count is not looked at. -/
def txRead (count : ℕ) : Handshake :=
  let s := { s with readback := s.readback.store 0 (s.toTx.take count), toTx := s.toTx.drop count }
  if s.readback.read 2 = okphrase then { s with txPc := .online count }
  else { s with txExited := some (.assertion 271) }

/-- Lines 273 to 287. -/
def txOnline (retcode : ℕ) : Handshake :=
  if 0 < retcode then { s with txPc := .idle } else { s with txExited := some (.assertion 285) }

/-- Lines 36 to 46; `bcmp` is reached when the count is right. -/
def rxRead (count : ℕ) : Handshake :=
  let phrase := s.toRx.take count
  let s := { s with toRx := s.toRx.drop count
                    rxTouched := s.rxTouched++if count = 4 then List.range 4 else [] }
  match s.rx.accepted x.rxConfig phrase with
  | .ok w => { s with rx := w, rxPc := .reply }
  | .error e => { s with rxExited := some e }

/-- Lines 47 to 51. -/
def rxWrite (count : ℕ) : Handshake :=
  let s := { s with toTx := s.toTx++okphrase.take count }
  if count = 2 then { s with rxPc := .packets } else { s with rxExited := some (.exit 48) }

/-- The first header; line 72 and the rest are as in the receiver. -/
def readv (junk : Millipacket) (count : ℕ) : Handshake :=
  let bs := s.toRx.take count
  let s := { s with toRx := s.toRx.drop count, headers := s.headers++[bs] }
  match s.rx.headerRead x.rxConfig junk bs with
  | .ok w => { s with rx := w }
  | .error e => { s with rxExited := some e }

/-- One step; a process that has ended takes none. -/
def step : ShakeAction → Option Handshake
  | .txWrite count =>
    if s.txExited = none ∧ s.txPc = .write ∧ count ≤ 4 then some (s.txWrite x count) else none
  | .txRead count =>
    if s.txExited = none ∧ s.txPc = .read ∧ count ≤ min 2 s.toTx.length then some (s.txRead count)
    else none
  | .txOnline =>
    match s.txPc with
    | .online retcode => if s.txExited = none then some (s.txOnline retcode) else none
    | _ => none
  | .txFailed e => if s.txExited = none then some { s with txExited := some e } else none
  | .send bs =>
    if s.txExited = none ∧ s.txPc = .idle then some { s with toRx := s.toRx++bs } else none
  | .rxRead count =>
    if s.rxExited = none ∧ s.rxPc = .read ∧ count ≤ min 4 s.toRx.length then
      some (s.rxRead x count)
    else none
  | .rxWrite count =>
    if s.rxExited = none ∧ s.rxPc = .reply ∧ count ≤ 2 then some (s.rxWrite count) else none
  | .rxFailed e => if s.rxExited = none then some { s with rxExited := some e } else none
  | .readv junk count =>
    if s.rxExited = none ∧ s.rxPc = .packets ∧ s.rx.pc = .inner ∧
        count ≤ min Millipacket.sizeof s.toRx.length then some (s.readv x junk count)
    else none

end Handshake

namespace Exchange

/-- Connected, and nothing sent. -/
def start (x : Exchange) : Handshake where
  txPc := .write
  readback := x.readback
  txExited := none
  rxPc := .read
  rx := x.receiver
  rxExited := none
  toRx := []
  toTx := []
  txTouched := []
  rxTouched := []
  headers := []

def machine (x : Exchange) : Machine Handshake ShakeAction where
  init s := s = x.start
  step := Handshake.step x

/-- The steps of an exchange in which no call fails or comes short. -/
def whole : List ShakeAction := [.txWrite 4,.rxRead 4,.rxWrite 2,.txRead 2,.txOnline]

end Exchange

/-- Such a step, or one behind the exchange. -/
def ShakeAction.whole : ShakeAction → Prop
  | .send _ | .readv _ _ => True
  | a => a ∈ Exchange.whole

instance (a : ShakeAction) : Decidable a.whole := by
  cases a <;> unfold ShakeAction.whole <;> infer_instance

namespace Handshake

/-- How much of the exchange is left. -/
def left (s : Handshake) : ℕ :=
  (match s.txPc with | .write => 3 | .read => 2 | .online _ => 1 | .idle => 0)+
    match s.rxPc with | .read => 2 | .reply => 1 | .packets => 0

/-- The transmit worker has come to its state 'i' and the receive worker to its packets. -/
def settled (s : Handshake) : Prop := s.txPc = .idle ∧ s.rxPc = .packets

instance (s : Handshake) : Decidable s.settled := by
  unfold settled
  infer_instance

end Handshake

/-- The handshake tells phrases that are the `same` from others: only with these does a worker
come through, and with these both do unless a call fails or comes short; no side reads behind
the end of its phrase; with others no packet is read. -/
structure Exchange.Guards (x : Exchange) (same : Prop) : Prop where
  admitted : ∀ s, Reachable x.machine anyStep s → s.txPc = .idle ∨ s.rxPc = .packets → same
  reached : same → ∀ s, Reachable x.machine (fun _ a => a.whole) s →
    s.settled ∨ ∃ a ∈ Exchange.whole, ∃ t, s.step x a = some t ∧ t.left < s.left
  inBounds : ∀ s, Reachable x.machine anyStep s →
    (∀ o ∈ s.txTouched, o ≤ x.txPhrase.length) ∧ ∀ o ∈ s.rxTouched, o ≤ x.rxPhrase.length
  unread : ¬ same → ∀ s, Reachable x.machine anyStep s → s.headers = []

namespace Phrase

/-- From three characters on the word lies within the string. -/
theorem word_eq_iff {p q : Phrase} (hp : 3 ≤ p.length) (hq : 3 ≤ q.length) :
    p.word = q.word ↔ p.text.take 4 = q.text.take 4 := by
  have hlong : ∀ r : Phrase, 4 ≤ r.length → r.text.take 4 = r.word := fun r hr =>
    Memory.read_take r.memory hr
  have hshort : ∀ r : Phrase, r.length = 3 → r.text.take 4 = r.memory.read 3 := fun r hr => by
    rw [text,hr]
    exact List.take_of_length_le (by simp)
  have hsplit : ∀ r : Phrase, r.word = r.memory.read 3++[r.memory 3] := fun r =>
    Memory.read_add r.memory 3 1
  by_cases h3 : p.length = 3 ∧ q.length = 3
  · obtain ⟨hp3,hq3⟩ := h3
    have hpend : p.memory 3 = 0 := hp3 ▸ p.terminated
    have hqend : q.memory 3 = 0 := hq3 ▸ q.terminated
    rw [hshort p hp3,hshort q hq3,hsplit p,hsplit q,hpend,hqend,List.append_left_inj]
  · by_cases h4 : 4 ≤ p.length ∧ 4 ≤ q.length
    · rw [hlong p h4.1,hlong q h4.2]
    · -- the shorter one ends where the longer one goes on
      refine iff_of_false (fun hword => ?_) fun htext => ?_
      · have hbyte : p.memory 3 = q.memory 3 := by
          have hp4 := Memory.slice_inj hword (by omega : 3 < 4)
          simpa using hp4
        rcases Nat.lt_or_ge p.length 4 with hlt | hge
        · have hp3 : p.length = 3 := by omega
          have hzero : p.memory 3 = 0 := hp3 ▸ p.terminated
          exact q.unbroken 3 (by omega) (hbyte ▸ hzero)
        · have hq3 : q.length = 3 := by omega
          have hzero : q.memory 3 = 0 := hq3 ▸ q.terminated
          exact p.unbroken 3 (by omega) (hbyte ▸ hzero)
      · have hlen := congrArg List.length htext
        simp only [List.length_take,text,Memory.read_length] at hlen
        omega

end Phrase

namespace Handshake

variable {x : Exchange} {s t : Handshake}

/-- What a step can do. -/
inductive Moves (x : Exchange) (s : Handshake) : ShakeAction → Handshake → Prop
  | txWrite (count : ℕ) : s.txExited = none → s.txPc = .write → count ≤ 4 →
      Moves x s (.txWrite count) (s.txWrite x count)
  | txRead (count : ℕ) : s.txExited = none → s.txPc = .read → count ≤ min 2 s.toTx.length →
      Moves x s (.txRead count) (s.txRead count)
  | txOnline (retcode : ℕ) : s.txExited = none → s.txPc = .online retcode →
      Moves x s .txOnline (s.txOnline retcode)
  | txFailed (e : Exit) : Moves x s (.txFailed e) { s with txExited := some e }
  | send (bs : List UInt8) : s.txExited = none → s.txPc = .idle →
      Moves x s (.send bs) { s with toRx := s.toRx++bs }
  | rxRead (count : ℕ) : s.rxExited = none → s.rxPc = .read → count ≤ min 4 s.toRx.length →
      Moves x s (.rxRead count) (s.rxRead x count)
  | rxWrite (count : ℕ) : s.rxExited = none → s.rxPc = .reply → count ≤ 2 →
      Moves x s (.rxWrite count) (s.rxWrite count)
  | rxFailed (e : Exit) : Moves x s (.rxFailed e) { s with rxExited := some e }
  | readv (junk : Millipacket) (count : ℕ) : s.rxPc = .packets →
      Moves x s (.readv junk count) (s.readv x junk count)

theorem step_moves {a : ShakeAction} (h : s.step x a = some t) : Moves x s a t := by
  cases a with
  | txOnline =>
    simp only [step] at h
    split at h
    · rename_i retcode hpc
      obtain ⟨hexit,ht⟩ := Option.ite_none_right_eq_some.mp h
      cases ht
      exact .txOnline retcode hexit hpc
    · cases h
  | txWrite count =>
    obtain ⟨⟨hexit,hpc,hcount⟩,ht⟩ := Option.ite_none_right_eq_some.mp h
    cases ht
    exact .txWrite count hexit hpc hcount
  | txRead count =>
    obtain ⟨⟨hexit,hpc,hcount⟩,ht⟩ := Option.ite_none_right_eq_some.mp h
    cases ht
    exact .txRead count hexit hpc hcount
  | txFailed e =>
    obtain ⟨-,ht⟩ := Option.ite_none_right_eq_some.mp h
    cases ht
    exact .txFailed e
  | send bs =>
    obtain ⟨⟨hexit,hpc⟩,ht⟩ := Option.ite_none_right_eq_some.mp h
    cases ht
    exact .send bs hexit hpc
  | rxRead count =>
    obtain ⟨⟨hexit,hpc,hcount⟩,ht⟩ := Option.ite_none_right_eq_some.mp h
    cases ht
    exact .rxRead count hexit hpc hcount
  | rxWrite count =>
    obtain ⟨⟨hexit,hpc,hcount⟩,ht⟩ := Option.ite_none_right_eq_some.mp h
    cases ht
    exact .rxWrite count hexit hpc hcount
  | rxFailed e =>
    obtain ⟨-,ht⟩ := Option.ite_none_right_eq_some.mp h
    cases ht
    exact .rxFailed e
  | readv junk count =>
    obtain ⟨⟨-,hpc,-⟩,ht⟩ := Option.ite_none_right_eq_some.mp h
    cases ht
    exact .readv junk count hpc

@[simp] theorem rxConfig_word (x : Exchange) : x.rxConfig.gcheckphrase.take 4 = x.rxPhrase.word :=
  List.take_of_length_le (by simp [Exchange.rxConfig,Phrase.word])

/-- The receive worker replies to its own word only. -/
theorem accepted_word {w w' : RxWorker} {phrase : List UInt8}
    (h : w.accepted x.rxConfig phrase = .ok w') :
    phrase.length = 4 ∧ phrase = x.rxPhrase.word := by
  rw [RxWorker.accepted,rxConfig_word] at h
  split at h
  · cases h
  · rename_i hlen
    split at h
    · cases h
    · rename_i hphrase
      exact ⟨not_not.mp hlen,not_not.mp hphrase⟩

theorem accepts_word {w : RxWorker} (hsame : x.txPhrase.word = x.rxPhrase.word) :
    ∃ w', w.accepted x.rxConfig x.txPhrase.word = .ok w' := by
  unfold RxWorker.accepted
  rw [if_neg (by simp [Phrase.word]),if_neg (by simp [hsame])]
  exact ⟨_,rfl⟩

/-- While the receive worker waits for the phrase nothing comes back and nothing but the phrase
is on its way; when it does not any more, the words are the same. -/
structure Agreed (x : Exchange) (s : Handshake) : Prop where
  unsent : s.rxPc = .read → s.txPc = .write → s.txExited = none → s.toRx = []
  sent : s.rxPc = .read → s.rxExited = none →
    ∃ count ≤ 4, s.toRx = x.txPhrase.memory.read count
  unanswered : s.rxPc = .read → s.toTx = []
  answered : s.rxPc = .read → s.txPc ≠ .idle ∧ ∀ retcode, s.txPc = .online retcode → retcode = 0
  same : s.rxPc ≠ .read → x.txPhrase.word = x.rxPhrase.word
  headers : s.headers ≠ [] → s.rxPc = .packets
  txTouched : ∀ o ∈ s.txTouched, o < 4
  rxTouched : ∀ o ∈ s.rxTouched, o < 4

theorem Agreed.start : Agreed x x.start where
  unsent _ _ _ := rfl
  sent _ _ := ⟨0,by omega,rfl⟩
  unanswered _ := rfl
  answered _ := ⟨by simp [Exchange.start],by simp [Exchange.start]⟩
  same h := absurd rfl h
  headers h := absurd rfl h
  txTouched _ h := absurd h List.not_mem_nil
  rxTouched _ h := absurd h List.not_mem_nil

theorem mem_touched {old : List ℕ} {count : ℕ} (hold : ∀ o ∈ old, o < 4) (hcount : count ≤ 4) :
    ∀ o ∈ old++List.range count, o < 4 := by
  intro o ho
  rcases List.mem_append.mp ho with ho | ho
  · exact hold o ho
  · exact (List.mem_range.mp ho).trans_le hcount

theorem Agreed.txWrite (hs : Agreed x s) {count : ℕ} (hexit : s.txExited = none)
    (hpc : s.txPc = .write) (hcount : count ≤ 4) : Agreed x (s.txWrite x count) := by
  have hsent : s.rxPc = .read → s.rxExited = none →
      ∃ c ≤ 4, s.toRx++x.txPhrase.memory.read count = x.txPhrase.memory.read c := fun hread _ =>
    ⟨count,hcount,by rw [hs.unsent hread hpc hexit,List.nil_append]⟩
  have htouched := mem_touched hs.txTouched hcount
  unfold Handshake.txWrite
  simp only
  split
  · exact ⟨fun _ h => (by cases h),hsent,hs.unanswered,fun _ => ⟨by simp,by simp⟩,hs.same,hs.headers,
      htouched,hs.rxTouched⟩
  · exact ⟨fun _ _ h => (by cases h),hsent,hs.unanswered,hs.answered,hs.same,hs.headers,htouched,
      hs.rxTouched⟩

theorem Agreed.txRead (hs : Agreed x s) {count : ℕ} (hcount : count ≤ min 2 s.toTx.length) :
    Agreed x (s.txRead count) := by
  have hreply : s.rxPc = .read → count = 0 := fun hread => by
    rw [hs.unanswered hread] at hcount
    simpa using hcount
  have hempty : s.rxPc = .read → s.toTx.drop count = [] := fun hread => by
    rw [hs.unanswered hread,List.drop_nil]
  unfold Handshake.txRead
  simp only
  split
  · refine ⟨fun _ h => (by cases h),hs.sent,hempty,fun hread => ⟨by simp,?_⟩,hs.same,hs.headers,
      hs.txTouched,hs.rxTouched⟩
    intro retcode hretcode
    cases hretcode
    exact hreply hread
  · exact ⟨fun _ _ h => (by cases h),hs.sent,hempty,hs.answered,hs.same,hs.headers,hs.txTouched,
      hs.rxTouched⟩

theorem Agreed.txOnline (hs : Agreed x s) {retcode : ℕ} (hpc : s.txPc = .online retcode) :
    Agreed x (s.txOnline retcode) := by
  unfold Handshake.txOnline
  split
  · rename_i hpos
    refine ⟨fun _ h => (by cases h),hs.sent,hs.unanswered,fun hread => ?_,hs.same,hs.headers,
      hs.txTouched,hs.rxTouched⟩
    have hzero := (hs.answered hread).2 retcode hpc
    omega
  · exact ⟨fun _ _ h => (by cases h),hs.sent,hs.unanswered,hs.answered,hs.same,hs.headers,
      hs.txTouched,hs.rxTouched⟩

theorem Agreed.rxRead (hs : Agreed x s) {count : ℕ} (hexit : s.rxExited = none)
    (hpc : s.rxPc = .read) : Agreed x (s.rxRead x count) := by
  have htouched : ∀ o ∈ s.rxTouched++if count = 4 then List.range 4 else [], o < 4 := by
    split
    · exact mem_touched hs.rxTouched le_rfl
    · simpa using hs.rxTouched
  have hheaders : s.headers = [] := by
    by_contra hne
    have hpackets := hs.headers hne
    rw [hpc] at hpackets
    cases hpackets
  unfold Handshake.rxRead
  simp only
  split
  · rename_i w haccept
    obtain ⟨hlen,hword⟩ := accepted_word haccept
    obtain ⟨c,hc,hsent⟩ := hs.sent hpc hexit
    have hsame : x.txPhrase.word = x.rxPhrase.word := by
      rw [hsent,List.length_take,Memory.read_length] at hlen
      have hc4 : c = 4 := by omega
      rw [← hword,hsent,hc4,List.take_of_length_le (by simp; omega)]
      rfl
    exact ⟨fun h => (by cases h),fun h => (by cases h),fun h => (by cases h),fun h => (by cases h),
      fun _ => hsame,fun h => absurd hheaders h,hs.txTouched,htouched⟩
  · refine ⟨fun hread hwrite hnone => ?_,fun _ h => (by cases h),hs.unanswered,hs.answered,hs.same,
      hs.headers,hs.txTouched,htouched⟩
    simp only [hs.unsent hread hwrite hnone,List.drop_nil]

theorem Agreed.rxWrite (hs : Agreed x s) {count : ℕ} (hpc : s.rxPc = .reply) :
    Agreed x (s.rxWrite count) := by
  have hsame := hs.same (by rw [hpc]; decide)
  have hread : s.rxPc ≠ .read := by
    rw [hpc]
    decide
  unfold Handshake.rxWrite
  simp only
  split
  · exact ⟨fun h => (by cases h),fun h => (by cases h),fun h => (by cases h),fun h => (by cases h),
      fun _ => hsame,fun _ => rfl,hs.txTouched,hs.rxTouched⟩
  · exact ⟨fun h => absurd h hread,fun h => absurd h hread,fun h => absurd h hread,
      fun h => absurd h hread,fun _ => hsame,hs.headers,hs.txTouched,hs.rxTouched⟩

theorem Agreed.readv (hs : Agreed x s) {junk : Millipacket} {count : ℕ} (hpc : s.rxPc = .packets) :
    Agreed x (s.readv x junk count) := by
  have hread : s.rxPc ≠ .read := by
    rw [hpc]
    decide
  unfold Handshake.readv
  simp only
  split <;>
    exact ⟨fun h => absurd h hread,fun h => absurd h hread,fun h => absurd h hread,
      fun h => absurd h hread,hs.same,fun _ => hpc,hs.txTouched,hs.rxTouched⟩

theorem Agreed.step {a : ShakeAction} (hs : Agreed x s) (h : s.step x a = some t) : Agreed x t := by
  cases step_moves h with
  | txWrite count hexit hpc hcount => exact hs.txWrite hexit hpc hcount
  | txRead count hexit hpc hcount => exact hs.txRead hcount
  | txOnline retcode hexit hpc => exact hs.txOnline hpc
  | txFailed e =>
    exact ⟨fun _ _ h => (by cases h),hs.sent,hs.unanswered,hs.answered,hs.same,hs.headers,
      hs.txTouched,hs.rxTouched⟩
  | send bs hexit hpc =>
    have hread : s.rxPc ≠ .read := fun h => (hs.answered h).1 hpc
    exact ⟨fun h => absurd h hread,fun h => absurd h hread,hs.unanswered,hs.answered,hs.same,
      hs.headers,hs.txTouched,hs.rxTouched⟩
  | rxRead count hexit hpc hcount => exact hs.rxRead hexit hpc
  | rxWrite count hexit hpc hcount => exact hs.rxWrite hpc
  | rxFailed e =>
    exact ⟨hs.unsent,fun _ h => (by cases h),hs.unanswered,hs.answered,hs.same,hs.headers,
      hs.txTouched,hs.rxTouched⟩
  | readv junk count hpc => exact hs.readv hpc

theorem agreed_of_reachable {ok : Handshake → ShakeAction → Prop} (hs : Reachable x.machine ok s) :
    Agreed x s := by
  refine hs.invariant (fun s h0 => ?_) fun s a t _ hs _ h => hs.step h
  cases h0
  exact .start

/-- The stages of an exchange of one word in which no call fails or comes short. -/
inductive Stage (x : Exchange) (s : Handshake) : Prop
  | unsent : s.txPc = .write → s.rxPc = .read → s.txExited = none → s.rxExited = none →
      s.toRx = [] → s.toTx = [] → Stage x s
  | sent : s.txPc = .read → s.rxPc = .read → s.txExited = none → s.rxExited = none →
      s.toRx = x.txPhrase.word → s.toTx = [] → Stage x s
  | matched : s.txPc = .read → s.rxPc = .reply → s.txExited = none → s.rxExited = none →
      s.toTx = [] → Stage x s
  | replied : s.txPc = .read → s.rxPc = .packets → s.txExited = none → s.toTx = okphrase →
      Stage x s
  | online : s.txPc = .online 2 → s.rxPc = .packets → s.txExited = none → Stage x s
  | settled : s.settled → Stage x s

theorem txWrite_whole (s : Handshake) : s.txWrite x 4 =
    { s with toRx := s.toRx++x.txPhrase.word
             txTouched := s.txTouched++List.range 4
             txPc := .read } := rfl

theorem rxRead_whole (hsame : x.txPhrase.word = x.rxPhrase.word) (hword : s.toRx = x.txPhrase.word) :
    ∃ w, s.rxRead x 4 =
      { s with toRx := []
               rxTouched := s.rxTouched++List.range 4
               rx := w
               rxPc := .reply } := by
  have hlen : x.txPhrase.word.length = 4 := Memory.read_length ..
  obtain ⟨w,hw⟩ := accepts_word (w := s.rx) hsame
  refine ⟨w,?_⟩
  simp only [rxRead,hword,List.take_of_length_le hlen.le,hw,List.drop_of_length_le hlen.le,if_true]

theorem rxWrite_whole (s : Handshake) :
    s.rxWrite 2 = { s with toTx := s.toTx++okphrase, rxPc := .packets } := rfl

theorem txRead_whole (hreply : s.toTx = okphrase) : s.txRead 2 =
    { s with readback := s.readback.store 0 okphrase, toTx := [], txPc := .online 2 } := by
  have hok : (s.readback.store 0 okphrase).read 2 = okphrase := Memory.read_store_zero _ okphrase
  have htake : okphrase.take 2 = okphrase := rfl
  have hdrop : okphrase.drop 2 = [] := rfl
  simp only [txRead,hreply,htake,hdrop,hok,if_true]

/-- Reading headers does not touch the transmit worker. -/
theorem Stage.readv (hs : Stage x s) {junk : Millipacket} {count : ℕ} (hpc : s.rxPc = .packets) :
    Stage x (s.readv x junk count) := by
  have hkeep : (s.readv x junk count).txPc = s.txPc ∧ (s.readv x junk count).rxPc = s.rxPc ∧
      (s.readv x junk count).txExited = s.txExited ∧ (s.readv x junk count).toTx = s.toTx := by
    unfold Handshake.readv
    simp only
    split <;> exact ⟨rfl,rfl,rfl,rfl⟩
  obtain ⟨htx,hrx,hexit,hflight⟩ := hkeep
  cases hs with
  | unsent _ hrx' | sent _ hrx' | matched _ hrx' => exact absurd (hpc.symm.trans hrx') (by simp)
  | replied htx' _ hexit' hreply =>
    exact .replied (htx.trans htx') (hrx.trans hpc) (hexit.trans hexit') (hflight.trans hreply)
  | online htx' _ hexit' => exact .online (htx.trans htx') (hrx.trans hpc) (hexit.trans hexit')
  | settled hdone => exact .settled ⟨htx.trans hdone.1,hrx.trans hpc⟩

theorem Stage.step (hsame : x.txPhrase.word = x.rxPhrase.word) (hs : Stage x s) {a : ShakeAction}
    (ha : a.whole) (h : s.step x a = some t) : Stage x t := by
  cases step_moves h with
  | txWrite count _ hpc =>
    obtain rfl : count = 4 := by simpa [ShakeAction.whole,Exchange.whole] using ha
    rw [txWrite_whole]
    cases hs with
    | unsent _ hrx hexit hrxExit hempty hnone =>
      exact .sent rfl hrx hexit hrxExit (by rw [hempty,List.nil_append]) hnone
    | sent htx | matched htx | replied htx | online htx => exact absurd (hpc.symm.trans htx) (by simp)
    | settled hdone => exact absurd (hpc.symm.trans hdone.1) (by simp)
  | rxRead count _ hpc hcount =>
    obtain rfl : count = 4 := by simpa [ShakeAction.whole,Exchange.whole] using ha
    cases hs with
    | unsent _ _ _ _ hempty =>
      rw [hempty] at hcount
      simp at hcount
    | sent htx _ htxExit hrxExit hword hnone =>
      obtain ⟨w,hw⟩ := rxRead_whole hsame hword
      rw [hw]
      exact .matched htx rfl htxExit hrxExit hnone
    | matched _ hrx | replied _ hrx | online _ hrx => exact absurd (hpc.symm.trans hrx) (by simp)
    | settled hdone => exact absurd (hpc.symm.trans hdone.2) (by simp)
  | rxWrite count _ hpc =>
    obtain rfl : count = 2 := by simpa [ShakeAction.whole,Exchange.whole] using ha
    rw [rxWrite_whole]
    cases hs with
    | matched htx _ htxExit _ hnone =>
      exact .replied htx rfl htxExit (by rw [hnone,List.nil_append])
    | unsent _ hrx | sent _ hrx | replied _ hrx | online _ hrx =>
      exact absurd (hpc.symm.trans hrx) (by simp)
    | settled hdone => exact absurd (hpc.symm.trans hdone.2) (by simp)
  | txRead count _ hpc hcount =>
    obtain rfl : count = 2 := by simpa [ShakeAction.whole,Exchange.whole] using ha
    cases hs with
    | replied _ hrx htxExit hreply =>
      rw [txRead_whole hreply]
      exact .online rfl hrx htxExit
    | sent _ _ _ _ _ hnone | matched _ _ _ _ hnone =>
      rw [hnone] at hcount
      simp at hcount
    | unsent htx | online htx => exact absurd (hpc.symm.trans htx) (by simp)
    | settled hdone => exact absurd (hpc.symm.trans hdone.1) (by simp)
  | txOnline retcode _ hpc =>
    cases hs with
    | online htx hrx =>
      obtain rfl : retcode = 2 := by simpa using hpc.symm.trans htx
      exact .settled ⟨rfl,hrx⟩
    | unsent htx | sent htx | matched htx | replied htx =>
      exact absurd (hpc.symm.trans htx) (by simp)
    | settled hdone => exact absurd (hpc.symm.trans hdone.1) (by simp)
  | send bs _ hpc =>
    cases hs with
    | settled hdone => exact .settled hdone
    | unsent htx | sent htx | matched htx | replied htx | online htx =>
      exact absurd (hpc.symm.trans htx) (by simp)
  | txFailed e | rxFailed e => simp [ShakeAction.whole,Exchange.whole] at ha
  | readv junk count hpc => exact hs.readv hpc

/-- At each stage but the last the exchange can take its next step. -/
theorem Stage.progress (hsame : x.txPhrase.word = x.rxPhrase.word) (hs : Stage x s) :
    s.settled ∨ ∃ a ∈ Exchange.whole, ∃ t, s.step x a = some t ∧ t.left < s.left := by
  cases hs with
  | unsent htx hrx hexit _ hempty =>
    refine .inr ⟨.txWrite 4,by simp [Exchange.whole],s.txWrite x 4,?_,?_⟩
    · simp [Handshake.step,hexit,htx]
    · simp [txWrite_whole,left,htx]
  | sent htx hrx _ hexit hword =>
    obtain ⟨w,hw⟩ := rxRead_whole hsame hword
    refine .inr ⟨.rxRead 4,by simp [Exchange.whole],s.rxRead x 4,?_,?_⟩
    · simp [Handshake.step,hexit,hrx,hword,Phrase.word]
    · simp [hw,left,hrx]
  | matched htx hrx _ hexit =>
    refine .inr ⟨.rxWrite 2,by simp [Exchange.whole],s.rxWrite 2,?_,?_⟩
    · simp [Handshake.step,hexit,hrx]
    · simp [rxWrite_whole,left,hrx]
  | replied htx hrx hexit hreply =>
    refine .inr ⟨.txRead 2,by simp [Exchange.whole],s.txRead 2,?_,?_⟩
    · simp [Handshake.step,hexit,htx,hreply,okphrase]
    · simp [txRead_whole hreply,left,htx]
  | online htx hrx hexit =>
    refine .inr ⟨.txOnline,by simp [Exchange.whole],s.txOnline 2,?_,?_⟩
    · simp [Handshake.step,hexit,htx]
    · simp [txOnline,left,htx]
  | settled hdone => exact .inl hdone

theorem stage_of_reachable (hsame : x.txPhrase.word = x.rxPhrase.word)
    (hs : Reachable x.machine (fun _ a => a.whole) s) : Stage x s := by
  refine hs.invariant (fun s h0 => ?_) fun s a t _ hs ha h => hs.step hsame ha h
  cases h0
  exact .unsent rfl rfl rfl rfl rfl rfl

end Handshake

/-- A worker that gets through the exchange is one that the receiver's step lets through. -/
theorem accept_of_reachable {n : ℕ} {x : Exchange} {s : Handshake}
    (hs : Reachable x.machine anyStep s) (hread : s.rxPc ≠ .read) {r : RxState n} {i : Fin n}
    (hexit : r.exited = none) (hpc : (r.workers i).pc = .accept) :
    ∃ w, rxStep x.rxConfig r (.accept i x.txPhrase.word) = some (r.setWorker i w) := by
  have hagreed := Handshake.agreed_of_reachable hs
  obtain ⟨w,hw⟩ := Handshake.accepts_word (w := r.workers i) (hagreed.same hread)
  have hlen : x.txPhrase.word.length ≤ 4 := (Memory.read_length ..).le
  refine ⟨w,?_⟩
  simp [rxStep,hexit,hpc,hlen,hw,RxState.settle]

/-- For phrases of at least three characters the handshake tells apart the first four. -/
theorem guards_firstFour {x : Exchange} (htx : 3 ≤ x.txPhrase.length)
    (hrx : 3 ≤ x.rxPhrase.length) :
    x.Guards (x.txPhrase.text.take 4 = x.rxPhrase.text.take 4) := by
  have hword := Phrase.word_eq_iff htx hrx
  refine ⟨fun s hs hthrough => ?_,fun hsame s hs => ?_,fun s hs => ?_,fun hdiffer s hs => ?_⟩
  · have hagreed := Handshake.agreed_of_reachable hs
    refine hword.mp (hagreed.same fun hread => ?_)
    rcases hthrough with hidle | hpackets
    · exact (hagreed.answered hread).1 hidle
    · rw [hread] at hpackets
      cases hpackets
  · have hsame := hword.mpr hsame
    exact (Handshake.stage_of_reachable hsame hs).progress hsame
  · have hagreed := Handshake.agreed_of_reachable hs
    refine ⟨fun o ho => ?_,fun o ho => ?_⟩
    · have hlt := hagreed.txTouched o ho
      omega
    · have hlt := hagreed.rxTouched o ho
      omega
  · have hagreed := Handshake.agreed_of_reachable hs
    by_contra hne
    have hpackets := hagreed.headers hne
    exact hdiffer (hword.mp (hagreed.same (by rw [hpackets]; decide)))

/-- A fresh receive worker, and two phrases with what is behind their ends. -/
def Exchange.between (txText txRest rxText rxRest : List UInt8) (htx : 0 ∉ txText)
    (hrx : 0 ∉ rxText) : Exchange :=
  ⟨.ofText txText txRest htx,.ofText rxText rxRest hrx,0,{ RxWorker.launched with pc := .accept },
    fun _ => 0⟩

/-- "yoes" and "yoesX". -/
def Exchange.longer : Exchange :=
  .between [121,111,101,115] [] [121,111,101,115,88] [] (by decide) (by decide)

/-- "a" on both sides, with "bc" behind it on the one and "xy" on the other. -/
def Exchange.shorter : Exchange := .between [97] [98,99] [97] [120,121] (by decide) (by decide)

theorem guards_firstFour_longer :
    Exchange.longer.Guards
      (Exchange.longer.txPhrase.text.take 4 = Exchange.longer.rxPhrase.text.take 4) :=
  guards_firstFour (by decide) (by decide)

/-- "yoesX" is taken for "yoes", and a packet comes in. Of "a" the transmitter sends what is
behind its end, and the receiver, which has something else there, exits. -/
theorem guards_equal_fails :
    (∃ s, Reachable Exchange.longer.machine anyStep s ∧
        Exchange.longer.txPhrase.text ≠ Exchange.longer.rxPhrase.text ∧ s.settled ∧
        s.headers = [(oneByteLeg 0 7).header.bytes] ∧
        ¬ Exchange.longer.Guards (Exchange.longer.txPhrase.text = Exchange.longer.rxPhrase.text)) ∧
      ∃ s, Reachable Exchange.shorter.machine (fun _ a => a.whole) s ∧
        Exchange.shorter.txPhrase.text = Exchange.shorter.rxPhrase.text ∧
        s.txTouched = [0,1,2,3] ∧ s.rxExited = some (.exit 44) ∧
        ¬ Exchange.shorter.Guards
          (Exchange.shorter.txPhrase.text = Exchange.shorter.rxPhrase.text) := by
  have hlonger : ∃ s ∈ exec Exchange.longer.machine anyStep Exchange.longer.start
      (Exchange.whole++[.send (oneByteLeg 0 7).header.bytes,.readv ⟨0,0,0,0,0⟩ 40]),
      s.settled ∧ s.headers = [(oneByteLeg 0 7).header.bytes] := by decide
  have hshorter : ∃ s ∈ exec Exchange.shorter.machine (fun _ a => a.whole) Exchange.shorter.start
      [.txWrite 4,.rxRead 4],
      (s.txTouched = [0,1,2,3] ∧ s.rxExited = some (.exit 44)) ∧ ¬ s.settled ∧
        ∀ a ∈ Exchange.whole, s.step Exchange.shorter a = none := by decide
  have hdiffer : Exchange.longer.txPhrase.text ≠ Exchange.longer.rxPhrase.text := by decide
  have hequal : Exchange.shorter.txPhrase.text = Exchange.shorter.rxPhrase.text := by decide
  obtain ⟨s,hs,hsettled,hheaders⟩ := exists_reachable rfl hlonger
  obtain ⟨t,ht,⟨htouched,hexit⟩,hunsettled,hstuck⟩ := exists_reachable rfl hshorter
  refine ⟨⟨s,hs,hdiffer,hsettled,hheaders,fun h => ?_⟩,t,ht,hequal,htouched,hexit,fun h => ?_⟩
  · exact hdiffer (h.admitted s hs (.inl hsettled.1))
  · rcases h.reached hequal t ht with hdone | ⟨a,ha,u,hu,-⟩
    · exact hunsettled hdone
    · rw [hstuck a ha] at hu
      cases hu

end Viamillipede
