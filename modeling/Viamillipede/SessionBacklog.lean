import Viamillipede.SessionPipe

/-! How much of the input the two processes can hold.

A transmit worker has one leg to push, a socket has `sockbuf` bytes in flight, and a receive
worker has one leg to write. What `txingest` has read besides is written, so a slow reader of
`output_fd` stops `txingest` from reading on. -/
namespace Viamillipede

open Bytes Transition
open scoped BigOperators

variable {W : ℕ}

theorem payloads_length (ps : List Packet) :
    (payloads ps).length = (ps.map fun p => p.payload.length).sum := by
  simp [payloads,List.length_flatMap]

theorem encodeAll_length (ps : List Packet) :
    (Packet.code.encodeAll ps).length = Millipacket.sizeof*ps.length+(payloads ps).length := by
  induction ps with
  | nil => rfl
  | cons p ps ih =>
    simp only [PrefixCode.Code.encodeAll_cons,Packet.code_word,List.length_append,Packet.frame_length,
      ih,List.length_cons,payloads,List.flatMap_cons]
    ring

/-- What a worker holds back of the stream, it has read whole. -/
theorem RxWorker.Pending.eq_nil {w : RxWorker} {part : List UInt8} (h : w.Pending part)
    (hholds : w.holds = true) : part = [] := by
  simp only [RxWorker.holds,Bool.and_eq_true,Bool.not_eq_true'] at hholds
  cases hpc : w.pc <;> simp_all [RxWorker.Pending,RxPc.holding,RxPc.chosen]

section Connection

variable {cfg : SessionConfig} {s : Session W} {i : Fin W} {legs : List Packet}
  {part lost unsent : List UInt8}

namespace OnConnection

/-- The payloads of a connection that `next_leg` has not passed are in the buffers of its two
workers or in flight. -/
theorem ahead_length_le (h : OnConnection cfg s i legs part lost unsent) (hl : Linked cfg s)
    (hlog : TxLog s.tx) (hopen : s.dropped i = false)
    (hcurrent : ∀ p ∈ (s.rx.workers i).current, p.payload.length ≤ kfootsize) :
    (payloads ((s.rx.workers i).current++legs)).length +
        (if (s.tx.workers i).progress = none then kfootsize else 0) ≤
      2*kfootsize+cfg.sockbuf.toNat := by
  have hroom := hl.room i
  have hunsent := (h.unsent_length_le hlog).1
  have hidle (hprog : (s.tx.workers i).progress = none) : unsent.length = 0 := by
    simpa [TxWorker.Unsent,hprog] using h.unsent
  have hfirst (p : Packet) (hp : p ∈ legs) : p.payload.length ≤ kfootsize := by
    have hframe := h.frame_length_le hlog hp
    rw [Packet.frame_length] at hframe
    omega
  have hpart (p : Packet) (rest : List Packet) (hlegs : legs = p::rest) :
      part.length < Millipacket.sizeof+p.payload.length := by
    have hword : Packet.code.word p <+: part ++ (s.conn i ++ (lost ++ unsent)) :=
      ⟨_,(Packet.code.encodeAll_cons p rest).symm.trans (hlegs ▸ h.bytes)⟩
    simpa using Packet.code.length_lt_of_partial h.pending.incomplete hword
  have hheld : (payloads (s.rx.workers i).current).length ≤ kfootsize ∧
      (part.length = 0 ∨ (payloads (s.rx.workers i).current).length = 0) := by
    unfold RxWorker.current at hcurrent ⊢
    split
    · rename_i hholds
      exact ⟨by simpa using hcurrent _ (by simp [hholds]),
        .inl (by rw [h.pending.eq_nil hholds]; rfl)⟩
    · exact ⟨Nat.zero_le _,.inr rfl⟩
  have hbytes := congrArg List.length h.bytes
  rw [encodeAll_length,h.opened hopen] at hbytes
  simp only [List.length_append,List.length_nil,Nat.zero_add] at hbytes
  rw [payloads_append,List.length_append]
  -- one leg fits a buffer by itself; of more than one, all but two are wholly in flight
  rcases legs with _ | ⟨p,_ | ⟨q,rest⟩⟩
  · have hnone : (payloads ([] : List Packet)).length = 0 := rfl
    split_ifs <;> omega
  · have hp := hfirst p (by simp)
    have hlen := hpart p [] rfl
    rw [payloads_singleton] at hbytes ⊢
    simp only [List.length_singleton] at hbytes
    split_ifs with hprog
    · have := hidle hprog
      omega
    · omega
  · have hp := hfirst p (by simp)
    have hlen := hpart p (q::rest) rfl
    simp only [List.length_cons,Nat.mul_add] at hbytes
    split_ifs with hprog
    · have := hidle hprog
      omega
    · omega

end OnConnection

/-- Each connection by itself, counted in payload bytes; a worker that is found has its buffer
free. -/
theorem lane_length_le (hW : W ≤ kthreadmax) (hs : Reachable (sessionMachine cfg W) Orderly s)
    (i : Fin W) :
    ((Lanes.lane Dispatch.worker i (s.tx.log.drop s.rx.advances)).map
        fun d => d.packet.payload.length).sum +
        (if s.tx.ingest.pc.found = some i then kfootsize else 0) ≤
      2*kfootsize+cfg.sockbuf.toNat := by
  have hr := harmless_of_orderly hs
  have htx := tx_reachable_of_harmless hr
  have hc : TxControl s.tx := .reachable htx
  have hlog : TxLog s.tx := .reachable htx
  have horder := SessionOrder.reachable hW hr
  obtain ⟨legs,part,lost,unsent,h⟩ := exists_onConnection hr i
  have hbound := h.ahead_length_le (.reachable (heeded_of_harmless hr)) hlog
    (Undropped.reachable (fun _ _ ha => ha.1) hs i).1 (by
      intro p hp
      unfold RxWorker.current at hp
      split at hp
      · rename_i hholds
        obtain ⟨k,d,hd⟩ := horder.held hr hholds
        rw [List.mem_singleton.mp hp,hd.packet,TxConfig.pushed_length]
        exact hlog.length_le (List.mem_of_getElem? hd.getElem)
      · cases hp)
  rw [← horder.ahead h,payloads_length,List.map_map] at hbound
  have hfree : s.tx.ingest.pc.found = some i → (s.tx.workers i).progress = none := fun hfound =>
    TxWorker.progress_of_idle (hc.worker i) (hc.found i hfound)
  have hweight : (fun p : Packet => p.payload.length) ∘ (fun d : Dispatch W => cfg.tx.pushed d.packet) =
      fun d => d.packet.payload.length := by
    funext d
    simp
  rw [hweight] at hbound
  refine le_trans (Nat.add_le_add_left ?_ _) hbound
  by_cases hfound : s.tx.ingest.pc.found = some i
  · rw [if_pos hfound,if_pos (hfree hfound)]
  · rw [if_neg hfound]
    exact Nat.zero_le _

/-- The legs counted in `next_leg` are written. -/
theorem counted_length_le (hW : W ≤ kthreadmax) (hs : Reachable (sessionMachine cfg W) Orderly s) :
    (payloads ((s.sent cfg).take s.rx.advances)).length ≤ s.rx.output.length := by
  have horder := inOrder_of_orderly hW hs
  have hle : (payloads ((s.sent cfg).take s.rx.advances)).length ≤
      (payloads ((s.sent cfg).take s.rx.sequencedLegs)).length :=
    (payloads_mono (List.take_prefix_take_left (Nat.le_add_right _ _))).length_le
  by_cases hno : ∀ i pos, (s.rx.workers i).pc ≠ .write pos
  · rwa [horder.output hno]
  · simp only [not_forall,not_not] at hno
    obtain ⟨i,pos,hpc⟩ := hno
    obtain ⟨d,-,-,hout⟩ := horder.writing i pos hpc
    rw [hout,List.length_append]
    omega

/-- What was handed over or is about to be, and what is written. -/
theorem backlog_length_le (hW : W ≤ kthreadmax) (hs : Reachable (sessionMachine cfg W) Orderly s) :
    (payloads (s.tx.log.map Dispatch.packet)).length +
        (if s.tx.ingest.pc.found.isSome then kfootsize else 0) ≤
      s.rx.output.length+W*(2*kfootsize+cfg.sockbuf.toNat) := by
  have hcounted : ((s.tx.log.take s.rx.advances).map fun d => d.packet.payload.length).sum ≤
      s.rx.output.length := by
    have hle := counted_length_le hW hs
    rw [payloads_length,Session.sent,← List.map_take,List.map_map] at hle
    simpa [Function.comp_def] using hle
  have hahead : ((s.tx.log.drop s.rx.advances).map fun d => d.packet.payload.length).sum +
      (if s.tx.ingest.pc.found.isSome then kfootsize else 0) ≤
        W*(2*kfootsize+cfg.sockbuf.toNat) := by
    have hfound : (if s.tx.ingest.pc.found.isSome then kfootsize else 0) ≤
        ∑ i, if s.tx.ingest.pc.found = some i then kfootsize else 0 := by
      cases h : s.tx.ingest.pc.found with
      | none => simp
      | some w => simp
    calc ((s.tx.log.drop s.rx.advances).map fun d => d.packet.payload.length).sum +
          (if s.tx.ingest.pc.found.isSome then kfootsize else 0)
        ≤ ∑ i, ((Lanes.lane Dispatch.worker i (s.tx.log.drop s.rx.advances)).map
            fun d => d.packet.payload.length).sum +
          ∑ i, (if s.tx.ingest.pc.found = some i then kfootsize else 0) := by
          rw [Lanes.sum_lane_weight]
          exact Nat.add_le_add_left hfound _
      _ = ∑ i, (((Lanes.lane Dispatch.worker i (s.tx.log.drop s.rx.advances)).map
            fun d => d.packet.payload.length).sum +
          (if s.tx.ingest.pc.found = some i then kfootsize else 0)) := Finset.sum_add_distrib.symm
      _ ≤ ∑ _ : Fin W, (2*kfootsize+cfg.sockbuf.toNat) :=
          Finset.sum_le_sum fun i _ => lane_length_le hW hs i
      _ = W*(2*kfootsize+cfg.sockbuf.toNat) := by simp
  have hsplit : (payloads (s.tx.log.map Dispatch.packet)).length =
      ((s.tx.log.take s.rx.advances).map fun d => d.packet.payload.length).sum +
        ((s.tx.log.drop s.rx.advances).map fun d => d.packet.payload.length).sum := by
    rw [payloads_length,List.map_map,← List.sum_append,← List.map_append,List.take_append_drop]
    rfl
  omega

end Connection

/-- Everything that was read from `input_fd` is written to `output_fd`, but for what two
buffers and a socket hold for each worker. -/
theorem held_le (hW : W ≤ kthreadmax) {cfg : SessionConfig} (hcfg : cfg.tx.Streams)
    {charmode : Bool} {p : Piped W} (hp : Reachable (pipedMachine cfg charmode W) OrderlyPiped p) :
    p.input.length ≤ p.stdin.length + p.session.rx.output.length +
      W*(2*kfootsize+cfg.sockbuf.toNat) := by
  have hsound := PipedSound.reachable hW hcfg hp
  have hbacklog := backlog_length_le hW hsound.session
  have hinput := congrArg List.length hsound.input
  simp only [TxState.fed,List.length_append] at hinput
  suffices hle : (if p.session.tx.ingest.pc.feeding then p.session.tx.ingest.fill.val else []).length +
      (p.fill.elim [] Bufferfill.consumed).length ≤
        if p.session.tx.ingest.pc.found.isSome then kfootsize else 0 by omega
  cases hfill : p.fill with
  | none =>
    cases hfeeding : p.session.tx.ingest.pc.feeding with
    | false => simp
    | true =>
      have hfound : p.session.tx.ingest.pc.found.isSome := by
        cases hpc : p.session.tx.ingest.pc <;> simp_all [IngestPc.feeding,IngestPc.found]
      simpa [hfound] using p.session.tx.ingest.fill.property
  | some f =>
    obtain ⟨w,hpc,hreach⟩ := hsound.filling f hfill
    have hf := (Bufferfill.reachable (by decide) (by decide) hreach).1
    have hsize : (UInt64.ofNat kfootsize).toNat = kfootsize := toNat_word (by decide)
    have hremainder := hf.remainder
    have hnonneg := hf.nonneg
    rw [hsize] at hremainder
    simp only [hpc,IngestPc.feeding,IngestPc.found,Option.elim_some,Bool.false_eq_true,if_false,
      Option.isSome_some,if_true,List.length_nil]
    omega

theorem held_readingRun :
    ∃ p ∈ exec (pipedMachine ⟨.plain,.plain,100⟩ false 1) OrderlyPiped (pipedInit 1) readingRun,
      p.pipe = ⟨[7],[],false,false⟩ ∧ p.stdin = [] ∧ p.input.length ≤
        p.stdin.length + p.session.rx.output.length + 1*(2*kfootsize+(100 : UInt64).toNat) := by
  have hrun : ∃ p ∈ exec (pipedMachine ⟨.plain,.plain,100⟩ false 1) OrderlyPiped (pipedInit 1)
      readingRun, p.pipe = ⟨[7],[],false,false⟩ ∧ p.stdin = [] := by decide +kernel
  obtain ⟨p,hp,hpipe,hstdin⟩ := hrun
  exact ⟨p,hp,hpipe,hstdin,held_le (by decide) (by decide) (reachable_exec (.init rfl) hp)⟩

end Viamillipede
