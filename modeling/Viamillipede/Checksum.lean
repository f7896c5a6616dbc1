import Viamillipede.Mix
import Viamillipede.Packet
import Mathlib.Logic.Function.Basic

/-! The checksum chain: `saved_checksum` of `txingest` against `grx_saved_checksum`
of `rxworker`, over legs that are delivered unchanged and sequenced in order.

Both sides checksum a reusable buffer of which a short leg overwrites only the
beginning, and the receiver skips a leg whose checksum happens to be zero. -/
namespace Viamillipede

open Bytes

/-- The checksum `txingest` puts into a leg's header. -/
def txChecksum (gchecksums : Bool) (savedChecksum legCounter : UInt64) (buffer : Memory)
    (readsize : ℕ) : UInt64 :=
  if gchecksums then mix (savedChecksum+legCounter).toUInt32 buffer (UInt64.ofNat readsize) else 0

/-- The new `grx_saved_checksum` after a `feed_more` leg; `none` when the assertion fires. -/
def rxChecksum (grxSavedChecksum : UInt64) (pkt : Millipacket) (buffer : Memory) :
    Option UInt64 :=
  if pkt.checksum = 0 then some grxSavedChecksum
  else
    let sum := mix (grxSavedChecksum+pkt.legId).toUInt32 buffer pkt.size
    if sum = pkt.checksum then some sum else none

theorem seed_toNat (saved legCounter : UInt64) :
    (saved+legCounter).toUInt32.toNat = (saved.toNat+legCounter.toNat) % 2^32 := by
  simp only [UInt64.toNat_toUInt32,UInt64.toNat_add]
  omega

namespace Checksum

/-- One leg and the workers whose buffers it passes through. -/
structure Delivery where
  payload : Payload
  txWorker : ℕ
  rxWorker : ℕ

/-- What the two hosts keep between legs. -/
structure Ends where
  savedChecksum : UInt64
  legCounter : UInt64
  txBuffer : ℕ → Memory
  grxSavedChecksum : UInt64
  rxBuffer : ℕ → Memory

namespace Ends

/-- The initial values of both accumulators, over buffers with any contents. -/
def start (txBuffer rxBuffer : ℕ → Memory) : Ends := ⟨0xff,0,txBuffer,0xff,rxBuffer⟩

/-- The transmit worker's buffer after `bufferfill`. -/
def filled (e : Ends) (d : Delivery) : Memory := (e.txBuffer d.txWorker).store 0 d.payload.val

/-- The receive worker's buffer after its payload loop. -/
def taken (e : Ends) (d : Delivery) : Memory := (e.rxBuffer d.rxWorker).store 0 d.payload.val

/-- The header that travels with the leg. -/
def pkt (e : Ends) (d : Delivery) : Millipacket where
  preamble := preambleCannonUl
  legId := e.legCounter
  size := UInt64.ofNat d.payload.val.length
  checksum := txChecksum true e.savedChecksum e.legCounter (e.filled d) d.payload.val.length
  opcode := feedMore

/-- Both hosts after the leg; `g` is the receiver's new accumulator. -/
def next (e : Ends) (d : Delivery) (g : UInt64) : Ends where
  savedChecksum := (e.pkt d).checksum
  legCounter := e.legCounter+1
  txBuffer := Function.update e.txBuffer d.txWorker (e.filled d)
  grxSavedChecksum := g
  rxBuffer := Function.update e.rxBuffer d.rxWorker (e.taken d)

/-- Before each leg the accumulators agree, and no leg fires the receiver's assertion. -/
def NoFalseAlarm : Ends → List Delivery → Prop
  | _, [] => True
  | e, d::ds =>
    e.grxSavedChecksum = e.savedChecksum ∧
      ∃ g, rxChecksum e.grxSavedChecksum (e.pkt d) (e.taken d) = some g ∧
        NoFalseAlarm (e.next d g) ds

end Ends

/-- The condition on payloads and buffers under which the chain stays in step.
`sum` is the running sum of what the legs so far contributed, `k` their number. -/
def InStep : List Delivery → (sum k : ℕ) → (txBuffer rxBuffer : ℕ → Memory) → Prop
  | [], _, _, _, _ => True
  | d::ds, sum, k, tx, rx =>
    let txb := (tx d.txWorker).store 0 d.payload.val
    let rxb := (rx d.rxWorker).store 0 d.payload.val
    let sum' := sum+k+mixSum (firstHalf txb) d.payload.val.length
    -- the bytes that a leg of fewer than four leaves in the first half word
    (sum' % 2^32 ≠ 0 → ∀ i, d.payload.val.length ≤ i → i < 4 → tx d.txWorker i = rx d.rxWorker i) ∧
    (ds ≠ [] → sum' % 2^32 ≠ 0) ∧
    InStep ds sum' (k+1) (Function.update tx d.txWorker txb) (Function.update rx d.rxWorker rxb)

theorem firstHalf_store_eq_iff (m m' : Memory) (bs : List UInt8) :
    firstHalf (m.store 0 bs) = firstHalf (m'.store 0 bs) ↔
      ∀ i, bs.length ≤ i → i < 4 → m i = m' i := by
  constructor
  · intro h i hi hi4
    have hread : ((m.store 0 bs).read 4)[i]? = ((m'.store 0 bs).read 4)[i]? := by
      rw [ofLe_injOn (by simp) h]
    simp only [Memory.getElem?_read,if_pos hi4,Option.some.injEq] at hread
    rwa [Memory.store_of_ge (by omega),Memory.store_of_ge (by omega)] at hread
  · intro h
    refine congrArg ofLe (List.ext_getElem? fun i => ?_)
    simp only [Memory.getElem?_read]
    split
    · rename_i hi4
      by_cases hi : i < bs.length
      · have h0 : m.store 0 bs (0+i) = bs[i] := Memory.store_of_mem hi
        have h1 : m'.store 0 bs (0+i) = bs[i] := Memory.store_of_mem hi
        rw [Nat.zero_add] at h0 h1
        rw [h0,h1]
      · rw [Memory.store_of_ge (by omega),Memory.store_of_ge (by omega),h i (by omega) hi4]
    · rfl

/-- The stale bytes matter only to a leg for which `mix` makes a single round. -/
theorem mixSum_eq_iff (m m' : Memory) (bs : List UInt8) (seed : ℕ) :
    (seed+mixSum (firstHalf (m.store 0 bs)) bs.length) % 2^32 =
        (seed+mixSum (firstHalf (m'.store 0 bs)) bs.length) % 2^32 ↔
      ∀ i, bs.length ≤ i → i < 4 → m i = m' i := by
  rw [← firstHalf_store_eq_iff]
  refine ⟨fun h => ?_,fun h => by rw [h]⟩
  by_cases h4 : 4 ≤ bs.length
  · exact (firstHalf_store_eq_iff m m' bs).mpr fun i hi hi4 => by omega
  · have h8 : bs.length/8 = 0 := by omega
    have hm := firstHalf_lt (m.store 0 bs)
    have hm' := firstHalf_lt (m'.store 0 bs)
    simp only [mixSum,h8] at h
    omega

section Chain

variable {e : Ends} {d : Delivery} {sum k : ℕ}

theorem pkt_checksum_toNat (hsum : e.savedChecksum.toNat % 2^32 = sum % 2^32) (hk : e.legCounter = UInt64.ofNat k) :
    (e.pkt d).checksum.toNat =
      (sum+k+mixSum (firstHalf (e.filled d)) d.payload.val.length) % 2^32 := by
  have hfoot : kfootsize+8 < 2^64 := by decide
  have hlen := d.payload.property
  have hsize : (UInt64.ofNat d.payload.val.length).toNat = d.payload.val.length := toNat_word (by omega)
  have hmix := mix_toNat (e.savedChecksum+e.legCounter).toUInt32 (e.filled d)
    (UInt64.ofNat d.payload.val.length) (by omega)
  rw [seed_toNat,hsize,hk,UInt64.toNat_ofNat'] at hmix
  simp only [Ends.pkt,txChecksum,if_true,hk,hmix]
  omega

/-- What the receiver computes for the leg, from an accumulator in step. -/
theorem computed_toNat (hstep : e.grxSavedChecksum = e.savedChecksum)
    (hsum : e.savedChecksum.toNat % 2^32 = sum % 2^32) (hk : e.legCounter = UInt64.ofNat k) :
    (mix (e.grxSavedChecksum+(e.pkt d).legId).toUInt32 (e.taken d) (e.pkt d).size).toNat =
      (sum+k+mixSum (firstHalf (e.taken d)) d.payload.val.length) % 2^32 := by
  have hfoot : kfootsize+8 < 2^64 := by decide
  have hlen := d.payload.property
  have hsize : (UInt64.ofNat d.payload.val.length).toNat = d.payload.val.length := toNat_word (by omega)
  have hmix := mix_toNat (e.savedChecksum+e.legCounter).toUInt32 (e.taken d)
    (UInt64.ofNat d.payload.val.length) (by omega)
  rw [seed_toNat,hsize,hk,UInt64.toNat_ofNat'] at hmix
  simp only [Ends.pkt,hstep,hk,hmix]
  omega

/-- The assertion stays silent exactly when the stale bytes agree. -/
theorem rxChecksum_eq_some_iff (hstep : e.grxSavedChecksum = e.savedChecksum)
    (hsum : e.savedChecksum.toNat % 2^32 = sum % 2^32) (hk : e.legCounter = UInt64.ofNat k)
    (hne : (e.pkt d).checksum ≠ 0) (g : UInt64) :
    rxChecksum e.grxSavedChecksum (e.pkt d) (e.taken d) = some g ↔
      g = (e.pkt d).checksum ∧ ∀ i, d.payload.val.length ≤ i → i < 4 →
        e.txBuffer d.txWorker i = e.rxBuffer d.rxWorker i := by
  have hiff : mix (e.grxSavedChecksum+(e.pkt d).legId).toUInt32 (e.taken d) (e.pkt d).size =
      (e.pkt d).checksum ↔ ∀ i, d.payload.val.length ≤ i → i < 4 →
        e.txBuffer d.txWorker i = e.rxBuffer d.rxWorker i := by
    rw [← UInt64.toNat_inj,pkt_checksum_toNat hsum hk,computed_toNat hstep hsum hk,eq_comm]
    exact mixSum_eq_iff _ _ d.payload.val (sum+k)
  rw [← hiff,rxChecksum,if_neg hne]
  simp only [Option.ite_none_right_eq_some,Option.some.injEq]
  constructor
  · rintro ⟨heq,rfl⟩
    exact ⟨heq,heq⟩
  · rintro ⟨rfl,heq⟩
    exact ⟨heq,heq⟩

end Chain

/-- The chain from any state in step, not only from the initial one. -/
theorem noFalseAlarm_iff_of_inStep (ds : List Delivery) (e : Ends) (sum k : ℕ)
    (hstep : e.grxSavedChecksum = e.savedChecksum) (hpos : e.savedChecksum ≠ 0)
    (hsum : e.savedChecksum.toNat % 2^32 = sum % 2^32) (hk : e.legCounter = UInt64.ofNat k) :
    e.NoFalseAlarm ds ↔ InStep ds sum k e.txBuffer e.rxBuffer := by
  induction ds generalizing e sum k with
  | nil => simp [Ends.NoFalseAlarm,InStep]
  | cons d ds ih =>
    have hsum' := pkt_checksum_toNat (d := d) hsum hk
    have hk' : ∀ g, (e.next d g).legCounter = UInt64.ofNat (k+1) := fun g => by
      simp [Ends.next,hk,UInt64.ofNat_add]
    simp only [Ends.NoFalseAlarm,InStep,hstep,true_and]
    rw [← hstep]
    by_cases hzero : (e.pkt d).checksum = 0
    · -- the receiver skips the leg, so only the end of the stream may follow
      have hz : (sum+k+mixSum (firstHalf (e.filled d)) d.payload.val.length) % 2^32 = 0 := by
        rw [← hsum',hzero]; rfl
      have hskip : rxChecksum e.grxSavedChecksum (e.pkt d) (e.taken d) = some e.grxSavedChecksum := by
        simp [rxChecksum,hzero]
      cases ds with
      | nil =>
        simp only [Ends.NoFalseAlarm,InStep,hskip]
        exact ⟨fun _ => ⟨fun h => absurd hz h,fun h => absurd rfl h,trivial⟩,
          fun _ => ⟨_,rfl,trivial⟩⟩
      | cons d' ds =>
        have hbehind : ¬ (e.next d e.grxSavedChecksum).NoFalseAlarm (d'::ds) := fun h =>
          hpos (hstep ▸ h.1.trans hzero)
        simp only [hskip,Option.some.injEq,exists_eq_left',hbehind,false_iff]
        exact fun h => h.2.1 (by simp) hz
    · have hnz : (sum+k+mixSum (firstHalf (e.filled d)) d.payload.val.length) % 2^32 ≠ 0 := by
        rw [← hsum']
        exact fun h => hzero (UInt64.toNat_inj.mp h)
      have hrest := ih (e.next d (e.pkt d).checksum)
        (sum+k+mixSum (firstHalf (e.filled d)) d.payload.val.length) (k+1) rfl hzero
        (by rw [Ends.next,hsum',Nat.mod_mod]) (hk' _)
      simp only [rxChecksum_eq_some_iff hstep hsum hk hzero]
      constructor
      · rintro ⟨g,⟨rfl,hstale⟩,halarm⟩
        exact ⟨fun _ => hstale,fun _ => hnz,hrest.mp halarm⟩
      · rintro ⟨hstale,-,hin⟩
        exact ⟨_,⟨rfl,hstale hnz⟩,hrest.mpr hin⟩

/-- The chain stays free of false alarms exactly while every leg of one to three bytes
finds the same stale bytes on both sides and no leg but the last sums to zero. -/
theorem noFalseAlarm_iff (ds : List Delivery) (txBuffer rxBuffer : ℕ → Memory) :
    (Ends.start txBuffer rxBuffer).NoFalseAlarm ds ↔ InStep ds 0xff 0 txBuffer rxBuffer :=
  noFalseAlarm_iff_of_inStep ds (Ends.start txBuffer rxBuffer) 0xff 0
    rfl (show (0xff : UInt64) ≠ 0 by decide) rfl rfl

/-- The first leg of a stream is one byte long; the receive worker's buffer still
holds the check phrase of the handshake, the transmit worker's is fresh. -/
theorem falseAlarm_of_short_leg :
    ¬ (Ends.start (fun _ _ => 0)
        (fun _ => Memory.store (fun _ => 0) 0 [0x79,0x6f,0x65,0x73])).NoFalseAlarm
      [⟨⟨[0x61],by decide⟩,0,0⟩] := by
  rintro ⟨-,g,hg,-⟩
  revert hg
  rw [show rxChecksum _ _ _ = none by decide]
  exact nofun

end Checksum

end Viamillipede
