import Viamillipede.PrbsDetection
import Viamillipede.RxControl

/-! What the PRBS verification of `rxworker` makes of a leg: it looks at the whole buffer,
whatever part of it the leg has filled. -/
namespace Viamillipede

open Bytes

variable {cfg : RxConfig}

namespace RxWorker

/-- A leg from its header to the sequencer: the header comes whole, the payload in the pieces
that the reads return. -/
def receive (cfg : RxConfig) (w : RxWorker) (junk pkt : Millipacket) (reads : List (List UInt8)) :
    Except Exit RxWorker :=
  (w.headerRead cfg junk pkt.bytes).bind fun w => reads.foldlM (payloadRead cfg) w

end RxWorker

/-- The output of `prbs_gen` for the leg. -/
def RxConfig.prbsOutput (cfg : RxConfig) (legId : UInt64) : Memory :=
  prbsGen (fun _ => 0) (cfg.gprbsSeed+legId) kfootsize

/-- The payload loop stores what it reads and goes on to the verification. -/
theorem payloadReads_eq {w : RxWorker} {reads : List (List UInt8)} (hreads : reads ≠ [])
    (hne : ∀ bs ∈ reads, bs ≠ []) (hlen : reads.flatten.length = w.remainder) :
    reads.foldlM (RxWorker.payloadRead cfg) w =
      { w with buffer := w.buffer.store w.cursor reads.flatten
               cursor := w.cursor+reads.flatten.length
               remainder := 0
               got := w.got++reads.flatten }.sequence cfg := by
  induction reads generalizing w with
  | nil => exact absurd rfl hreads
  | cons bs rest ih =>
    have hbs : bs ≠ [] := hne bs (by simp)
    have hrest : ∀ cs ∈ rest, cs ≠ [] := fun cs hcs => hne cs (by simp [hcs])
    rw [List.flatten_cons,List.length_append] at hlen
    rw [List.foldlM_cons,RxWorker.payloadRead,if_neg hbs]
    simp only
    by_cases hlast : rest = []
    · subst hlast
      simp only [List.flatten_nil,List.length_nil,Nat.add_zero] at hlen
      have hzero : w.remainder-bs.length = 0 := by omega
      rw [if_pos hzero,hzero]
      simp only [List.foldlM_nil,List.flatten_cons,List.flatten_nil,List.append_nil]
      exact bind_pure _
    · have hpos : rest.flatten.length ≠ 0 := by
        intro hnil
        obtain ⟨cs,hcs⟩ := List.exists_mem_of_ne_nil rest hlast
        exact hrest cs hcs (List.flatten_eq_nil_iff.mp (List.length_eq_zero_iff.mp hnil) cs hcs)
      rw [if_neg (by omega)]
      change rest.foldlM (RxWorker.payloadRead cfg) _ = _
      rw [ih hlast hrest (by simp only; omega)]
      simp only [List.flatten_cons,List.length_append,Memory.store_append,List.append_assoc,
        Nat.add_assoc]

/-- A leg received whole is verified over the whole buffer. -/
theorem receive_eq {w : RxWorker} {junk pkt : Millipacket} {reads : List (List UInt8)}
    (hpos : 0 < pkt.size.toNat) (hmax : pkt.size.toNat ≤ kfootsize)
    (hne : ∀ bs ∈ reads, bs ≠ []) (hlen : reads.flatten.length = pkt.size.toNat) :
    w.receive cfg junk pkt reads =
      { w with pkt := pkt
               buffer := w.buffer.store 0 reads.flatten
               cursor := pkt.size.toNat
               remainder := 0
               got := w.got++pkt.bytes++reads.flatten
               reads := w.reads++[Millipacket.sizeof]
               pc := .payload }.sequence cfg := by
  have hreads : reads ≠ [] := by
    rintro rfl
    simp at hlen
    omega
  unfold RxWorker.receive RxWorker.headerRead
  simp only [Millipacket.overlay_bytes,Millipacket.bytes_length]
  rw [if_neg (by omega),if_neg (by omega)]
  change reads.foldlM (RxWorker.payloadRead cfg) _ = _
  rw [payloadReads_eq hreads hne hlen]
  simp only [Nat.zero_add,hlen]

/-- The verification of a leg that is not the last lets it pass or ends the process. -/
theorem sequence_isOk {w : RxWorker} (hseed : 0 < cfg.gprbsSeed) (hrestart : w.restartme = false)
    (hfeed : w.pkt.opcode = feedMore) :
    (w.sequence cfg).isOk = prbsVerify w.buffer (cfg.gprbsSeed+w.pkt.legId) kfootsize := by
  have hend : feedMore ≠ endOfMillipede := by decide
  unfold RxWorker.sequence
  cases hverify : prbsVerify w.buffer (cfg.gprbsSeed+w.pkt.legId) kfootsize <;>
    simp [hseed,hrestart,hfeed,hend,Except.isOk,Except.toBool]

theorem store_eq_iff (m out : Memory) (bs : List UInt8) :
    bs = out.read bs.length ↔ ∀ j < bs.length, m.store 0 bs j = out j := by
  rw [← Memory.read_store_zero m bs,Memory.read_length]
  constructor
  · intro h j hj
    simpa using Memory.slice_inj h hj
  · intro h
    apply Memory.slice_congr
    intro j hj
    simpa using h j hj

/-- A leg passes when it is right, and what an earlier leg has left behind it in the buffer
happens to be what `prbs_gen` would have written there. -/
theorem receive_passes_iff {w : RxWorker} {junk pkt : Millipacket} {reads : List (List UInt8)}
    (hseed : 0 < cfg.gprbsSeed) (hrestart : w.restartme = false) (hfeed : pkt.opcode = feedMore)
    (hpos : 0 < pkt.size.toNat) (hmax : pkt.size.toNat ≤ kfootsize)
    (hne : ∀ bs ∈ reads, bs ≠ []) (hlen : reads.flatten.length = pkt.size.toNat) :
    (w.receive cfg junk pkt reads).isOk = true ↔
      reads.flatten = (cfg.prbsOutput pkt.legId).read pkt.size.toNat ∧
        ∀ j < kfootsize, pkt.size.toNat ≤ j → w.buffer j = cfg.prbsOutput pkt.legId j := by
  have hfoot : kfootsize = 8*(kfootsize/8) := by decide
  have hverdict : (w.receive cfg junk pkt reads).isOk =
      prbsVerify (w.buffer.store 0 reads.flatten) (cfg.gprbsSeed+pkt.legId) kfootsize := by
    rw [receive_eq hpos hmax hne hlen]
    exact sequence_isOk hseed hrestart hfeed
  rw [hverdict,hfoot,prbsVerify_iff_bytes _ (fun _ => 0),← hfoot,← hlen,store_eq_iff w.buffer]
  constructor
  · intro h
    refine ⟨fun j hj => h j (by omega),fun j hj hge => ?_⟩
    have hbyte := h j hj
    rwa [Memory.store_of_ge (by omega)] at hbyte
  · rintro ⟨hreceived,hrest⟩ j hj
    by_cases hlt : j < reads.flatten.length
    · exact hreceived j hlt
    · rw [Memory.store_of_ge (by omega)]
      exact hrest j hj (by omega)

/-- The verdict on a leg is the right one when the leg is wrong, or when the rest of the buffer
already holds the output of `prbs_gen`, as it does behind a full leg, where nothing is left. -/
theorem prbs_verdict_iff {w : RxWorker} {junk pkt : Millipacket} {reads : List (List UInt8)}
    (hseed : 0 < cfg.gprbsSeed) (hrestart : w.restartme = false) (hfeed : pkt.opcode = feedMore)
    (hpos : 0 < pkt.size.toNat) (hmax : pkt.size.toNat ≤ kfootsize)
    (hne : ∀ bs ∈ reads, bs ≠ []) (hlen : reads.flatten.length = pkt.size.toNat) :
    ((w.receive cfg junk pkt reads).isOk = true ↔
      reads.flatten = (cfg.prbsOutput pkt.legId).read pkt.size.toNat) ↔
    (reads.flatten ≠ (cfg.prbsOutput pkt.legId).read pkt.size.toNat ∨
      ∀ j < kfootsize, pkt.size.toNat ≤ j → w.buffer j = cfg.prbsOutput pkt.legId j) := by
  rw [receive_passes_iff hseed hrestart hfeed hpos hmax hne hlen]
  tauto

/-- A leg of one word, in two pieces. -/
def shortPkt : Millipacket := ⟨preambleCannonUl,0,8,0,feedMore⟩

theorem prbs_verdict_wrongLeg :
    (((RxWorker.launched.receive ⟨1,[]⟩ shortPkt shortPkt [[0,0,0],[0,0,0,0,0]]).isOk = true ↔
      [0,0,0,0,0,0,0,0] = (RxConfig.prbsOutput ⟨1,[]⟩ 0).read 8) ↔
    ([0,0,0,0,0,0,0,0] ≠ (RxConfig.prbsOutput ⟨1,[]⟩ 0).read 8 ∨
      ∀ j < kfootsize, 8 ≤ j → RxWorker.launched.buffer j = RxConfig.prbsOutput ⟨1,[]⟩ 0 j)) := by
  have hseed : 0 < RxConfig.gprbsSeed ⟨1,[]⟩ := by decide
  exact prbs_verdict_iff hseed rfl rfl (by decide) (by decide) (by decide) (by decide)

/-- The right leg over a buffer of zeros is rejected. -/
theorem prbs_rejects_shortLeg :
    ∃ bs : List UInt8, bs = (RxConfig.prbsOutput ⟨1,[]⟩ 0).read 8 ∧
      (RxWorker.launched.receive ⟨1,[]⟩ shortPkt shortPkt [bs]).isOk = false := by
  have hlen : ((RxConfig.prbsOutput ⟨1,[]⟩ 0).read 8).length = 8 := Memory.read_length _ 8
  refine ⟨_,rfl,?_⟩
  rw [receive_eq (by decide) (by decide) ?_ (by simp [shortPkt])]
  · refine (sequence_isOk (by decide) rfl rfl).trans (prbsVerify_of_word (i := 1) (by decide) ?_)
    have hzero : (RxWorker.launched.buffer.store 0 ((RxConfig.prbsOutput ⟨1,[]⟩ 0).read 8)).word 1 =
        RxWorker.launched.buffer.word 1 := by
      apply Memory.word_congr
      intro j _
      exact Memory.store_of_ge (by rw [hlen]; omega)
    simp only [List.flatten_cons,List.flatten_nil,List.append_nil]
    rw [hzero]
    decide
  · intro bs hbs hnil
    rw [List.mem_singleton.mp hbs] at hnil
    simp [hnil] at hlen

end Viamillipede
