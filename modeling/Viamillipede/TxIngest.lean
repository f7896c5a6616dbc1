import Viamillipede.Tx

/-! `txingest` as a function of what each pass of its loop meets: the idle worker that
`dispatch_idle_worker` returns, with whatever its header and buffer hold, and what
`bufferfill` delivers. -/
namespace Viamillipede

open Bytes

/-- One pass of the loop. -/
structure Turn (W : ℕ) where
  worker : Fin W
  pkt : Millipacket
  buffer : Memory
  fill : Payload

/-- A worker as `start_worker` marks it 'd'. -/
structure Handed (W : ℕ) where
  worker : Fin W
  pkt : Millipacket
  buffer : Memory

/-- The payload that the header announces. -/
def Handed.payload {W : ℕ} (h : Handed W) : List UInt8 := h.buffer.read h.pkt.size.toNat

/-- The locals of `txingest` and what it changes of `txconf`. The last two fields are history:
the workers handed over, and the bytes taken from `input_fd`. -/
structure IngestRun (W : ℕ) where
  legCounter : UInt64
  savedChecksum : UInt64
  streamTotalBytes : UInt64
  done : Bool
  handed : List (Handed W)
  consumed : List UInt8

variable {W : ℕ}

namespace Turn

/-- `readsize`; in PRBS mode nothing is read. -/
def readsize (cfg : TxConfig) (t : Turn W) : ℕ :=
  if cfg.gprbsSeed > 0 then kfootsize else t.fill.val.length

/-- The worker's buffer after lines 80 to 94. -/
def filled (cfg : TxConfig) (t : Turn W) : Memory :=
  if cfg.gprbsSeed > 0 then t.buffer else t.buffer.store 0 t.fill.val

/-- The bytes that the pass takes from `input_fd`. -/
def input (cfg : TxConfig) (t : Turn W) : List UInt8 :=
  if cfg.gprbsSeed > 0 then [] else t.fill.val

end Turn

namespace IngestRun

/-- Lines 68 to 72. -/
def start : IngestRun W := ⟨0,0xff,0,false,[],[]⟩

/-- `txshutdown`. -/
def shutdown (cfg : TxConfig) (r : IngestRun W) (t : Turn W) : IngestRun W :=
  { r with
    done := true
    handed := r.handed++[⟨t.worker,{ t.pkt with size := 0, legId := r.legCounter,
                                                opcode := endOfMillipede },t.filled cfg⟩] }

/-- Lines 97 to 110. -/
def feed (cfg : TxConfig) (r : IngestRun W) (t : Turn W) : IngestRun W :=
  let sum := txChecksum cfg.gchecksums r.savedChecksum r.legCounter (t.filled cfg) (t.readsize cfg)
  { r with
    savedChecksum := if cfg.gchecksums then sum else r.savedChecksum
    streamTotalBytes := r.streamTotalBytes+UInt64.ofNat (t.readsize cfg)
    handed := r.handed++[⟨t.worker,{ t.pkt with size := UInt64.ofNat (t.readsize cfg),
                                                legId := r.legCounter, opcode := feedMore,
                                                checksum := sum },t.filled cfg⟩] }

/-- One pass of the loop at line 77. -/
def turn (cfg : TxConfig) (r : IngestRun W) (t : Turn W) : IngestRun W :=
  if r.done then r
  else
    let r := { r with consumed := r.consumed++t.input cfg }
    let r' :=
      if cfg.glegLimit > 0 ∧ UInt64.ofInt cfg.glegLimit = r.legCounter then r.shutdown cfg t
      else if t.readsize cfg > 0 then r.feed cfg t
      else r.shutdown cfg t
    { r' with legCounter := r'.legCounter+1 }

/-- A pass that hands over a leg. -/
theorem turn_feeds {cfg : TxConfig} {r : IngestRun W} {t : Turn W} (hrun : r.done = false)
    (hlimit : ¬ (cfg.glegLimit > 0 ∧ UInt64.ofInt cfg.glegLimit = r.legCounter))
    (hsize : 0 < t.readsize cfg) :
    r.turn cfg t = { feed cfg { r with consumed := r.consumed++t.input cfg } t with
      legCounter := r.legCounter+1 } := by
  unfold turn
  rw [hrun,if_neg Bool.false_ne_true]
  simp only
  rw [if_neg hlimit,if_pos hsize]
  rfl

/-- A pass that ends the stream. -/
theorem turn_ends {cfg : TxConfig} {r : IngestRun W} {t : Turn W} (hrun : r.done = false)
    (hend : cfg.glegLimit > 0 ∧ UInt64.ofInt cfg.glegLimit = r.legCounter ∨ t.readsize cfg = 0) :
    r.turn cfg t = { shutdown cfg { r with consumed := r.consumed++t.input cfg } t with
      legCounter := r.legCounter+1 } := by
  unfold turn
  rw [hrun,if_neg Bool.false_ne_true]
  simp only
  by_cases hlimit : cfg.glegLimit > 0 ∧ UInt64.ofInt cfg.glegLimit = r.legCounter
  · rw [if_pos hlimit]
    rfl
  · rw [if_neg hlimit,if_neg (by have hzero := hend.resolve_left hlimit; omega)]
    rfl

end IngestRun

/-- `txingest` for a list of passes; those behind the last are not made. -/
def txingest (cfg : TxConfig) (turns : List (Turn W)) : IngestRun W :=
  turns.foldl (IngestRun.turn cfg) .start

theorem txingest_append (cfg : TxConfig) (turns : List (Turn W)) (t : Turn W) :
    txingest cfg (turns++[t]) = (txingest cfg turns).turn cfg t := by
  rw [txingest,List.foldl_append]
  rfl

/-- The passes that make legs: those before the first empty fill, cut at the leg limit. -/
def legTurns (cfg : TxConfig) (turns : List (Turn W)) : List (Turn W) :=
  let full := turns.takeWhile fun t => 0 < t.readsize cfg
  if 0 < cfg.glegLimit then full.take cfg.glegLimit.toNat else full

/-- The worker handed over for a leg. -/
structure Handed.IsLeg (cfg : TxConfig) (h : Handed W) (k : ℕ) (t : Turn W) : Prop where
  worker : h.worker = t.worker
  opcode : h.pkt.opcode = feedMore
  legId : h.pkt.legId = UInt64.ofNat k
  size : h.pkt.size.toNat = t.readsize cfg
  payload : ¬ cfg.gprbsSeed > 0 → h.payload = t.fill.val

/-- The worker handed over for the end of the stream. -/
structure Handed.IsLast (h : Handed W) (k : ℕ) : Prop where
  opcode : h.pkt.opcode = endOfMillipede
  legId : h.pkt.legId = UInt64.ofNat k
  size : h.pkt.size = 0

/-- The legs handed over, in order. -/
def AreLegs (cfg : TxConfig) (feeds : List (Handed W)) (ts : List (Turn W)) : Prop :=
  feeds.length = ts.length ∧
    ∀ (k : ℕ) (h : Handed W) (t : Turn W), feeds[k]? = some h → ts[k]? = some t → h.IsLeg cfg k t

/-- What `txingest` owes its callers: one leg for each pass that makes one, and the end of the
stream behind them, as soon as a pass makes none. -/
structure Partitions (cfg : TxConfig) (turns : List (Turn W)) (r : IngestRun W) : Prop where
  handed : ∃ feeds, AreLegs cfg feeds (legTurns cfg turns) ∧
    if (legTurns cfg turns).length < turns.length then
      ∃ last, last.IsLast (legTurns cfg turns).length ∧ r.handed = feeds++[last]
    else r.handed = feeds
  done : r.done = true ↔ (legTurns cfg turns).length < turns.length
  total : r.streamTotalBytes = UInt64.ofNat ((legTurns cfg turns).map (Turn.readsize cfg)).sum
  consumed : ¬ cfg.gprbsSeed > 0 → ¬ 0 < cfg.glegLimit →
    r.consumed = ((legTurns cfg turns).map fun t => t.fill.val).flatten
  prbs : cfg.gprbsSeed > 0 → r.consumed = []

variable {cfg : TxConfig}

theorem readsize_le (cfg : TxConfig) (t : Turn W) : t.readsize cfg ≤ kfootsize := by
  unfold Turn.readsize
  split
  · exact le_rfl
  · exact t.fill.property

theorem toNat_readsize (cfg : TxConfig) (t : Turn W) :
    (UInt64.ofNat (t.readsize cfg)).toNat = t.readsize cfg := by
  have hfoot : kfootsize < 2^64 := by decide
  exact toNat_word ((readsize_le cfg t).trans_lt hfoot)

/-- The header and the buffer that lines 97 to 109 leave are those of a leg. -/
theorem feed_isLeg (cfg : TxConfig) (t : Turn W) (k : ℕ) (sum : UInt64) :
    Handed.IsLeg cfg ⟨t.worker,{ t.pkt with size := UInt64.ofNat (t.readsize cfg),
                                            legId := UInt64.ofNat k, opcode := feedMore,
                                            checksum := sum },t.filled cfg⟩ k t := by
  refine ⟨rfl,rfl,rfl,toNat_readsize cfg t,fun hseed => ?_⟩
  show (t.filled cfg).read (UInt64.ofNat (t.readsize cfg)).toNat = t.fill.val
  rw [toNat_readsize,Turn.filled,Turn.readsize,if_neg hseed,if_neg hseed,Memory.read_store_zero]

theorem AreLegs.append {feeds : List (Handed W)} {ts : List (Turn W)} (h : AreLegs cfg feeds ts)
    {x : Handed W} {t : Turn W} (hx : x.IsLeg cfg ts.length t) :
    AreLegs cfg (feeds++[x]) (ts++[t]) := by
  refine ⟨by simp [h.1],fun k y u hy hu => ?_⟩
  by_cases hk : k < ts.length
  · rw [List.getElem?_append_left (by rw [h.1]; exact hk)] at hy
    rw [List.getElem?_append_left hk] at hu
    exact h.2 k y u hy hu
  · have hklen := (List.getElem?_eq_some_iff.mp hu).1
    rw [List.length_append,List.length_singleton] at hklen
    have hk : k = ts.length := by omega
    subst hk
    rw [List.getElem?_append_right le_rfl,Nat.sub_self] at hu
    rw [← h.1,List.getElem?_append_right le_rfl,Nat.sub_self] at hy
    cases hu
    cases hy
    exact hx

/-- As long as every pass has made a leg. -/
structure Feeding (cfg : TxConfig) (turns : List (Turn W)) : Prop where
  full : ∀ t ∈ turns, 0 < t.readsize cfg
  limit : 0 < cfg.glegLimit → (turns.length : ℤ) ≤ cfg.glegLimit

theorem takeWhile_readsize {turns : List (Turn W)} (h : ∀ t ∈ turns, 0 < t.readsize cfg)
    (us : List (Turn W)) : ((turns++us).takeWhile fun t => 0 < t.readsize cfg) =
      turns++us.takeWhile fun t => 0 < t.readsize cfg :=
  List.takeWhile_append_of_pos fun t ht => by simpa using h t ht

/-- While the stream goes on, every pass has made a leg, and the next may make one too. -/
theorem Feeding.legTurns_append {turns : List (Turn W)} (h : Feeding cfg turns) {us : List (Turn W)}
    (hus : 0 < cfg.glegLimit ∧ (turns.length : ℤ) = cfg.glegLimit ∨
      us.takeWhile (fun t => 0 < t.readsize cfg) = []) : legTurns cfg (turns++us) = turns := by
  unfold Viamillipede.legTurns
  simp only [takeWhile_readsize h.full]
  by_cases hpos : 0 < cfg.glegLimit
  · have hle := h.limit hpos
    rw [if_pos hpos]
    rcases hus with ⟨-,heq⟩ | hnil
    · exact List.take_left' (by omega)
    · rw [hnil,List.append_nil]
      exact List.take_of_length_le (by omega)
  · rw [if_neg hpos]
    rcases hus with ⟨hlimit,-⟩ | hnil
    · exact absurd hlimit hpos
    · rw [hnil,List.append_nil]

theorem Feeding.legTurns {turns : List (Turn W)} (h : Feeding cfg turns) :
    legTurns cfg turns = turns := by
  have hnone : ([] : List (Turn W)).takeWhile (fun t => 0 < t.readsize cfg) = [] := rfl
  simpa using h.legTurns_append (.inr hnone)

/-- A pass behind the one that ended the stream makes no difference. -/
theorem legTurns_append {turns : List (Turn W)}
    (h : (legTurns cfg turns).length < turns.length) (t : Turn W) :
    legTurns cfg (turns++[t]) = legTurns cfg turns := by
  unfold legTurns at h ⊢
  simp only at h ⊢
  rw [List.takeWhile_append]
  by_cases hall : (turns.takeWhile fun t => 0 < t.readsize cfg).length = turns.length
  · have hself := List.IsPrefix.eq_of_length (List.takeWhile_prefix _) hall
    rw [if_pos hall]
    rw [hself] at h ⊢
    by_cases hpos : 0 < cfg.glegLimit
    · rw [if_pos hpos,List.length_take] at h
      rw [if_pos hpos,if_pos hpos,List.take_append_of_le_length (by omega)]
    · rw [if_neg hpos] at h
      exact absurd h (lt_irrefl _)
  · rw [if_neg hall]

/-- The state of the loop behind some passes. -/
structure Stands (cfg : TxConfig) (turns : List (Turn W)) (r : IngestRun W) : Prop
    extends Partitions cfg turns r where
  feeding : r.done = false → Feeding cfg turns ∧ r.legCounter = UInt64.ofNat turns.length

namespace Stands

theorem start : Stands cfg ([] : List (Turn W)) .start := by
  have hfeeding : Feeding cfg ([] : List (Turn W)) := ⟨by simp,fun h => by simpa using h.le⟩
  have hlegs := hfeeding.legTurns
  refine ⟨⟨⟨[],?_⟩,?_,?_,fun _ _ => ?_,fun _ => rfl⟩,fun _ => ⟨hfeeding,rfl⟩⟩ <;> rw [hlegs]
  · exact ⟨⟨rfl,by simp⟩,rfl⟩
  · simp [IngestRun.start]
  · rfl
  · rfl

variable {turns : List (Turn W)} {r : IngestRun W} {t : Turn W}

/-- The legs handed over while the stream goes on. -/
theorem areLegs (h : Stands cfg turns r) (hrun : r.done = false) : AreLegs cfg r.handed turns := by
  obtain ⟨feeds,hfeeds,hhanded⟩ := h.handed
  rw [(h.feeding hrun).1.legTurns] at hfeeds hhanded
  rw [if_neg (lt_irrefl _)] at hhanded
  exact hhanded ▸ hfeeds

/-- `txshutdown` ends the stream. -/
theorem shutdown (h : Stands cfg turns r) (hrun : r.done = false)
    (hlegs : legTurns cfg (turns++[t]) = turns)
    (hempty : ¬ cfg.gprbsSeed > 0 → ¬ 0 < cfg.glegLimit → t.fill.val = [])
    {r' : IngestRun W} (hdone : r'.done = true)
    (htotal : r'.streamTotalBytes = r.streamTotalBytes)
    (hconsumed : r'.consumed = r.consumed++t.input cfg)
    (hhanded : r'.handed = (r.shutdown cfg t).handed) : Stands cfg (turns++[t]) r' := by
  obtain ⟨hfeeding,hcounter⟩ := h.feeding hrun
  have hlt : turns.length < (turns++[t]).length := by simp
  have hself := hfeeding.legTurns
  refine ⟨⟨⟨r.handed,?_⟩,?_,?_,fun hseed hpos => ?_,fun hseed => ?_⟩,fun hnot => ?_⟩
  · rw [hlegs,if_pos hlt]
    exact ⟨h.areLegs hrun,_,⟨rfl,hcounter,rfl⟩,hhanded⟩
  · rw [hlegs]
    exact ⟨fun _ => hlt,fun _ => hdone⟩
  · rw [hlegs,htotal,h.total,hself]
  · rw [hlegs,hconsumed,h.consumed hseed hpos,hself,Turn.input,if_neg hseed,hempty hseed hpos,
      List.append_nil]
  · rw [hconsumed,h.prbs hseed,Turn.input,if_pos hseed]
    rfl
  · simp [hdone] at hnot

/-- A leg goes on with the stream. -/
theorem feed (h : Stands cfg turns r) (hrun : r.done = false) (hsize : 0 < t.readsize cfg)
    (hroom : 0 < cfg.glegLimit → (turns.length : ℤ) < cfg.glegLimit)
    {r' : IngestRun W} (hdone : r'.done = false)
    (hcount : r'.legCounter = r.legCounter+1)
    (htotal : r'.streamTotalBytes = r.streamTotalBytes+UInt64.ofNat (t.readsize cfg))
    (hconsumed : r'.consumed = r.consumed++t.input cfg)
    (hhanded : r'.handed = (r.feed cfg t).handed) : Stands cfg (turns++[t]) r' := by
  obtain ⟨hfeeding,hcounter⟩ := h.feeding hrun
  have hself := hfeeding.legTurns
  have hnext : Feeding cfg (turns++[t]) := by
    refine ⟨fun u hu => ?_,fun hpos => ?_⟩
    · rcases List.mem_append.mp hu with hu | hu
      · exact hfeeding.full u hu
      · exact List.mem_singleton.mp hu ▸ hsize
    · have hlt := hroom hpos
      rw [List.length_append,List.length_singleton]
      omega
  have hlegs := hnext.legTurns
  refine ⟨⟨⟨r'.handed,?_⟩,?_,?_,fun hseed hpos => ?_,fun hseed => ?_⟩,fun _ => ⟨hnext,?_⟩⟩
  · rw [hlegs,if_neg (lt_irrefl _)]
    refine ⟨?_,rfl⟩
    rw [hhanded]
    exact (h.areLegs hrun).append (hcounter ▸ feed_isLeg cfg t turns.length _)
  · rw [hlegs]
    simp [hdone]
  · rw [hlegs,htotal,h.total,hself]
    simp [UInt64.ofNat_add]
  · rw [hlegs,hconsumed,h.consumed hseed hpos,hself,Turn.input,if_neg hseed]
    simp
  · rw [hconsumed,h.prbs hseed,Turn.input,if_pos hseed]
    rfl
  · rw [hcount,hcounter,List.length_append,List.length_singleton,UInt64.ofNat_add]
    rfl

/-- Nothing comes behind the end of the stream. -/
theorem behind (h : Stands cfg turns r) (hended : r.done = true) (t : Turn W) :
    Stands cfg (turns++[t]) r := by
  have hshort := h.done.mp hended
  have hlegs := legTurns_append hshort t
  have hlt : (legTurns cfg turns).length < (turns++[t]).length := by
    rw [List.length_append,List.length_singleton]
    omega
  obtain ⟨feeds,hfeeds,hhanded⟩ := h.handed
  rw [if_pos hshort] at hhanded
  refine ⟨⟨⟨feeds,?_⟩,?_,?_,?_,h.prbs⟩,fun hnot => by simp [hended] at hnot⟩ <;> rw [hlegs]
  · rw [if_pos hlt]
    exact ⟨hfeeds,hhanded⟩
  · exact ⟨fun _ => hlt,fun _ => hended⟩
  · exact h.total
  · exact h.consumed

/-- One more pass, whatever it meets. -/
theorem turn (hlimit : cfg.glegLimit < 2^31) (h : Stands cfg turns r) (t : Turn W) :
    Stands cfg (turns++[t]) (r.turn cfg t) := by
  cases hrun : r.done with
  | true =>
    rw [IngestRun.turn,if_pos hrun]
    exact h.behind hrun t
  | false =>
    obtain ⟨hfeeding,hcounter⟩ := h.feeding hrun
    by_cases hcut : cfg.glegLimit > 0 ∧ UInt64.ofInt cfg.glegLimit = r.legCounter
    · -- the counter has not wrapped, since it has not passed the limit
      have hle := hfeeding.limit hcut.1
      have hword := toNat_ofInt hcut.1.le (by omega)
      have hturns : (UInt64.ofNat turns.length).toNat = turns.length := toNat_word (by omega)
      rw [hcut.2,hcounter,hturns] at hword
      rw [IngestRun.turn_ends hrun (.inl hcut)]
      exact h.shutdown hrun (hfeeding.legTurns_append (.inl ⟨hcut.1,hword⟩))
        (fun _ hnot => absurd hcut.1 hnot) rfl rfl rfl rfl
    · by_cases hsize : 0 < t.readsize cfg
      · rw [IngestRun.turn_feeds hrun hcut hsize]
        refine h.feed hrun hsize (fun hpos => ?_) hrun rfl rfl rfl rfl
        have hle := hfeeding.limit hpos
        refine lt_of_le_of_ne hle fun heq => hcut ⟨hpos,?_⟩
        have hword := toNat_ofInt hpos.le (by omega)
        rw [hcounter,← UInt64.toNat_inj,toNat_word (by omega)]
        omega
      · have hzero : t.readsize cfg = 0 := by omega
        rw [IngestRun.turn_ends hrun (.inr hzero)]
        refine h.shutdown hrun (hfeeding.legTurns_append (.inr (by simp [hzero])))
          (fun hseed _ => ?_) rfl rfl rfl rfl
        rw [Turn.readsize,if_neg hseed] at hzero
        exact List.length_eq_zero_iff.mp hzero

end Stands

/-- Over any passes of the loop, with any idle workers and any fills, `txingest` hands over one
leg for each non-empty fill before the first empty one, up to the limit, and then the end. -/
theorem partitions_txingest (hlimit : cfg.glegLimit < 2^31) (turns : List (Turn W)) :
    Partitions cfg turns (txingest cfg turns) := by
  have hstands : Stands cfg turns (txingest cfg turns) := by
    induction turns using List.reverseRecOn with
    | nil => exact .start
    | append_singleton turns t ih =>
      rw [txingest_append]
      exact ih.turn hlimit t
  exact hstands.toPartitions

/-- Three passes over two workers with a limit of two legs. -/
def limitedTurns : List (Turn 2) :=
  [⟨1,⟨preambleCannonUl,0,0,0,0⟩,fun _ => 9,⟨[1,2],by decide⟩⟩,
    ⟨0,⟨preambleCannonUl,0,0,0,0⟩,fun _ => 0,⟨[3],by decide⟩⟩,
    ⟨1,⟨preambleCannonUl,0,0,0,feedMore⟩,fun _ => 9,⟨[4],by decide⟩⟩]

theorem partitions_limitedTurns :
    ((txingest { TxConfig.plain with glegLimit := 2 } limitedTurns).handed.map fun h =>
        (h.pkt.legId,h.pkt.opcode,h.payload)) =
      [(0,feedMore,[1,2]),(1,feedMore,[3]),(2,endOfMillipede,[])] ∧
      Partitions { TxConfig.plain with glegLimit := 2 } limitedTurns
        (txingest { TxConfig.plain with glegLimit := 2 } limitedTurns) :=
  ⟨by decide,partitions_txingest (by decide) limitedTurns⟩

end Viamillipede
