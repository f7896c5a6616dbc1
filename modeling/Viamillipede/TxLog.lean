import Viamillipede.TxControl

/-! What `txingest` hands over: packets with consecutive leg ids, all of them
`feed_more` legs with a payload, and at most one `end_of_millipede`, which is last.

This holds in every run, whatever the workers do with their headers. -/
namespace Viamillipede

open Bytes Transition

variable {W : ℕ} {cfg : TxConfig}

/-- A leg of the stream. -/
structure Packet.IsFeed (p : Packet) : Prop where
  preamble : p.header.preamble = preambleCannonUl
  opcode : p.header.opcode = feedMore
  nonempty : p.payload ≠ []
  length_le : p.payload.length ≤ kfootsize

/-- The packet that ends the stream. -/
structure Packet.IsEnd (p : Packet) : Prop where
  preamble : p.header.preamble = preambleCannonUl
  opcode : p.header.opcode = endOfMillipede
  empty : p.payload = []

namespace IngestPc

/-- The legs handed over that `ingest_leg_counter` does not count yet. -/
def uncounted : IngestPc W → ℕ
  | .total | .bump => 1
  | _ => 0

/-- The values of `done` and `input_eof` at each place of the ingest thread, which alone
sets them. -/
def Flags (pc : IngestPc W) (done inputEof : Bool) : Prop :=
  match pc with
  | .lock | .test | .bump => done = inputEof
  | .shutEof _ => done = true ∧ inputEof = false
  | .shutUnlock _ | .shutSize _ | .shutLeg _ | .shutOpcode _ | .shutStart _ | .finish | .gone =>
    done = true ∧ inputEof = true
  | _ => done = false ∧ inputEof = false

/-- The ingest thread is storing the header of a leg. -/
def feeding : IngestPc W → Bool
  | .size _ | .leg _ | .opcode _ | .checksum _ | .start _ => true
  | _ => false

end IngestPc

/-- The end of the stream has been handed over. -/
def TxState.ended (s : TxState W) : Bool := s.done && s.ingest.pc.found.isNone

/-- The history of hand-overs in step with the ingest thread. -/
structure TxLog (s : TxState W) : Prop where
  legId : ∀ k d, s.log[k]? = some d → d.packet.header.legId = UInt64.ofNat k
  counter : UInt64.ofNat s.log.length =
    s.ingest.legCounter+UInt64.ofNat s.ingest.pc.uncounted
  flags : s.ingest.pc.Flags s.done s.inputEof
  filled : s.ingest.pc.feeding → s.ingest.fill.val ≠ []
  feeds : s.ended = false → ∀ d ∈ s.log, d.packet.IsFeed
  last : s.ended = true →
    ∃ feeds d, s.log = feeds++[d] ∧ (∀ e ∈ feeds, e.packet.IsFeed) ∧ d.packet.IsEnd

theorem feedPacket_isFeed (legId checksum : UInt64) {fill : Payload} (h : fill.val ≠ []) :
    (Ingest.feedPacket legId checksum fill).IsFeed :=
  ⟨rfl,rfl,h,fill.property⟩

theorem eofPacket_isEnd (legId checksum : UInt64) : (Ingest.eofPacket legId checksum).IsEnd :=
  ⟨rfl,rfl,rfl⟩

namespace TxLog

theorem init : TxLog (txInit W) where
  legId _ _ h := by simp [txInit] at h
  counter := rfl
  flags := rfl
  filled h := by cases h
  feeds _ _ h := by simp [txInit] at h
  last h := by cases h

/-- The same history, the ingest thread at another place. -/
theorem of_log {s t : TxState W} (hs : TxLog s) (hlog : t.log = s.log)
    (hcounter : t.ingest.legCounter+UInt64.ofNat t.ingest.pc.uncounted =
      s.ingest.legCounter+UInt64.ofNat s.ingest.pc.uncounted)
    (hflags : t.ingest.pc.Flags t.done t.inputEof)
    (hfilled : t.ingest.pc.feeding → t.ingest.fill.val ≠ [])
    (hended : t.ended = s.ended) : TxLog t where
  legId := hlog ▸ hs.legId
  counter := by rw [hlog,hcounter,hs.counter]
  flags := hflags
  filled := hfilled
  feeds := by rw [hlog,hended]; exact hs.feeds
  last := by rw [hlog,hended]; exact hs.last

/-- A hand-over with the next leg id. -/
theorem of_append {s t : TxState W} {d : Dispatch W} (hs : TxLog s) (hlog : t.log = s.log++[d])
    (hid : d.packet.header.legId = s.ingest.legCounter) (hended : s.ended = false)
    (hbefore : s.ingest.pc.uncounted = 0) (hafter : t.ingest.pc.uncounted = 1)
    (hcounter : t.ingest.legCounter = s.ingest.legCounter)
    (hflags : t.ingest.pc.Flags t.done t.inputEof) (hfilled : t.ingest.pc.feeding = false)
    (hd : if t.ended then d.packet.IsEnd else d.packet.IsFeed) : TxLog t := by
  have hcount : UInt64.ofNat s.log.length = s.ingest.legCounter := by
    simpa [hbefore] using hs.counter
  refine ⟨?_,?_,hflags,fun h => absurd h (by simp [hfilled]),?_,?_⟩
  · intro k e he
    rw [hlog,List.getElem?_append] at he
    split at he
    · exact hs.legId k e he
    · obtain ⟨hk,rfl⟩ := List.getElem?_eq_some_iff.mp he
      simp only [List.length_singleton] at hk
      have hk : k = s.log.length := by omega
      simpa [hk,hcount] using hid
  · rw [hlog,List.length_append,List.length_singleton,UInt64.ofNat_add,hcount,hafter,hcounter]
  · intro ht e he
    rw [hlog,List.mem_append,List.mem_singleton] at he
    rcases he with he | rfl
    · exact hs.feeds hended e he
    · simpa [ht] using hd
  · intro ht
    exact ⟨s.log,d,hlog,hs.feeds hended,by simpa [ht] using hd⟩

theorem ingestFilled {s : TxState W} {w : Fin W} (hs : TxLog s) (hpc : s.ingest.pc = .fill w)
    (fill : Payload) : TxLog (ingestFilled cfg s w fill) := by
  have hflags := hs.flags
  unfold Viamillipede.ingestFilled
  simp only [hpc,IngestPc.Flags] at hflags ⊢
  split_ifs with hlimit hsize
  · exact hs.of_log rfl (by simp [TxState.goto,hpc,IngestPc.uncounted]) hflags
      (by simp [TxState.goto,IngestPc.feeding]) (by simp [TxState.goto,TxState.ended,hflags])
  · exact hs.of_log rfl (by simp [TxState.goto,hpc,IngestPc.uncounted]) hflags
      (fun _ => List.length_pos_iff.mp hsize) (by simp [TxState.goto,TxState.ended,hflags])
  · exact hs.of_log rfl (by simp [TxState.goto,hpc,IngestPc.uncounted]) hflags
      (by simp [TxState.goto,IngestPc.feeding]) (by simp [TxState.goto,TxState.ended,hflags])

theorem ingestStep {s t : TxState W} (hs : TxLog s) (h : ingestStep cfg s = some t) :
    TxLog t := by
  have hflags := hs.flags
  have hfilled := hs.filled
  cases hpc : s.ingest.pc with
  | fill w =>
    simp only [Viamillipede.ingestStep,hpc] at h
    split at h <;> cases h
    exact hs.ingestFilled hpc _
  | start w =>
    simp only [Viamillipede.ingestStep,hpc,Option.some.injEq] at h
    simp only [hpc,IngestPc.Flags] at hflags
    subst h
    exact hs.of_append rfl rfl (by simp [TxState.ended,hflags]) (by rw [hpc]; rfl) rfl rfl hflags rfl
      (by simpa [TxState.ended,TxState.goto,TxState.setWorker,startWorker,hflags] using
        feedPacket_isFeed _ _ (hfilled (by rw [hpc]; rfl)))
  | shutStart w =>
    simp only [Viamillipede.ingestStep,hpc,Option.some.injEq] at h
    simp only [hpc,IngestPc.Flags] at hflags
    subst h
    exact hs.of_append rfl rfl (by simp [TxState.ended,hpc,IngestPc.found]) (by rw [hpc]; rfl) rfl rfl
      (by simp [TxState.goto,TxState.setWorker,startWorker,IngestPc.Flags,hflags]) rfl
      (by simpa [TxState.ended,TxState.goto,TxState.setWorker,startWorker,hflags,IngestPc.found] using
        eofPacket_isEnd _ _)
  | bump =>
    simp only [Viamillipede.ingestStep,hpc,Option.some.injEq] at h
    simp only [hpc,IngestPc.Flags] at hflags
    subst h
    exact hs.of_log rfl (by simp [hpc,IngestPc.uncounted]) hflags (by simp [IngestPc.feeding])
      (by simp [TxState.ended,hpc,IngestPc.found])
  | test =>
    simp only [Viamillipede.ingestStep,hpc,Option.some.injEq] at h
    simp only [hpc,IngestPc.Flags] at hflags
    subst h
    by_cases hdone : s.done = true <;>
      refine hs.of_log rfl ?_ ?_ ?_ ?_ <;>
        simp [TxState.goto,TxState.ended,hpc,hdone,IngestPc.uncounted,IngestPc.Flags,
          IngestPc.feeding,IngestPc.found,← hflags]
  | scanUnlock found =>
    simp only [hpc,IngestPc.Flags] at hflags
    cases found <;> simp only [Viamillipede.ingestStep,hpc,Option.some.injEq] at h <;> subst h <;>
      exact hs.of_log rfl (by simp [TxState.goto,hpc,IngestPc.uncounted]) hflags
        (by simp [TxState.goto,IngestPc.feeding]) (by simp [TxState.goto,TxState.ended,hflags])
  | scan cursor =>
    simp only [Viamillipede.ingestStep,hpc] at h
    simp only [hpc,IngestPc.Flags] at hflags
    split at h
    · split at h <;> cases h <;>
        exact hs.of_log rfl (by simp [TxState.goto,hpc,IngestPc.uncounted]) hflags
          (by simp [TxState.goto,IngestPc.feeding]) (by simp [TxState.goto,TxState.ended,hflags])
    · cases h
      exact hs.of_log rfl (by simp [TxState.goto,hpc,IngestPc.uncounted]) hflags
        (by simp [TxState.goto,IngestPc.feeding]) (by simp [TxState.goto,TxState.ended,hflags])
  | _ =>
    simp only [Viamillipede.ingestStep,hpc] at h
    simp only [hpc,IngestPc.Flags] at hflags
    simp only [hpc,IngestPc.feeding] at hfilled
    try split at h
    all_goals cases h
    all_goals
      refine hs.of_log rfl ?_ ?_ ?_ ?_ <;>
        simp [TxState.goto,TxState.setPkt,TxState.setWorker,TxState.ended,hpc,IngestPc.uncounted,
          IngestPc.Flags,IngestPc.feeding,IngestPc.found,hflags,hfilled]

theorem step {s t : TxState W} {a : TxAction W} (hs : TxLog s) (h : txStep cfg s a = some t) :
    TxLog t := by
  cases txStep_cases h with
  | ingest hstep _ =>
    rcases hstep with ⟨_,hstep⟩ | ⟨w,data,_,hpc,_,rfl⟩
    · exact hs.ingestStep hstep
    · have hset : TxLog (s.setWorker w
          { s.workers w with buffer := (s.workers w).buffer.store 0 data.val }) :=
        hs.of_log rfl rfl hs.flags hs.filled rfl
      exact hset.ingestFilled hpc data
  | fillFailed _ ht => exact ht ▸ hs.of_log rfl rfl hs.flags hs.filled rfl
  | worker i b m _ _ ht => exact ht ▸ hs.of_log rfl rfl hs.flags hs.filled rfl
  | poll _ ht =>
    obtain ⟨p,hp⟩ := pollStep_eq s
    rw [ht,hp]
    exact hs.of_log rfl rfl hs.flags hs.filled rfl

/-- No packet is larger than a buffer. -/
theorem length_le {s : TxState W} (hs : TxLog s) {d : Dispatch W} (hd : d ∈ s.log) :
    d.packet.payload.length ≤ kfootsize := by
  cases hended : s.ended with
  | false => exact (hs.feeds hended d hd).length_le
  | true =>
    obtain ⟨feeds,e,hlog,hfeeds,hend⟩ := hs.last hended
    rw [hlog,List.mem_append,List.mem_singleton] at hd
    rcases hd with hd | rfl
    · exact (hfeeds d hd).length_le
    · simp [hend.empty]

/-- The end of the stream is the last packet. -/
theorem length_of_end {s : TxState W} (hs : TxLog s) {k : ℕ} {d : Dispatch W}
    (hd : s.log[k]? = some d) (hop : d.packet.header.opcode = endOfMillipede) :
    s.ended = true ∧ s.log.length = k+1 := by
  have hfeed (h : d.packet.IsFeed) : False := by
    have hsame := h.opcode.symm.trans hop
    revert hsame
    decide
  cases hended : s.ended with
  | false => exact (hfeed (hs.feeds hended d (List.mem_of_getElem? hd))).elim
  | true =>
    obtain ⟨feeds,e,hlog,hfeeds,-⟩ := hs.last hended
    refine ⟨rfl,?_⟩
    have hk : k < s.log.length := (List.getElem?_eq_some_iff.mp hd).1
    rw [hlog] at hd hk ⊢
    simp only [List.length_append,List.length_singleton] at hk ⊢
    by_contra hne
    rw [List.getElem?_append_left (by omega)] at hd
    exact hfeed (hfeeds d (List.mem_of_getElem? hd))

theorem reachable {ok : TxState W → TxAction W → Prop} {s : TxState W}
    (hs : Reachable (txMachine cfg W) ok s) : TxLog s :=
  hs.invariant (by rintro s rfl; exact init) fun _ _ _ _ h _ hstep => h.step hstep

end TxLog

theorem ended_of_effect {s t : TxState W} (hl : TxLog s) (h : IngestEffect s t)
    (hended : s.ended = true) : t.ended = true := by
  simp only [TxState.ended,Bool.and_eq_true,Option.isNone_iff_eq_none] at hended ⊢
  refine ⟨h.done hended.1,?_⟩
  cases hfound : t.ingest.pc.found with
  | none => rfl
  | some w =>
    rcases h.found w hfound with hw | ⟨_,cursor,hpc⟩
    · rw [hended.2] at hw
      cases hw
    · have hflags := hl.flags
      simp [hpc,IngestPc.Flags,hended.1] at hflags

/-- The history grows at its end, and not behind the end of the stream. -/
theorem txStep_log {s t : TxState W} {a : TxAction W} (hl : TxLog s)
    (h : txStep cfg s a = some t) : (∃ new, t.log = s.log++new) ∧
      (s.ended = true → t.ended = true ∧ t.log = s.log) := by
  cases txStep_cases h with
  | ingest _ heffect =>
    cases heffect.change with
    | quiet _ hlog | stored _ _ _ _ _ _ hlog =>
      exact ⟨⟨[],by simp [hlog]⟩,fun hended => ⟨ended_of_effect hl heffect hended,hlog⟩⟩
    | marked w p hmarks _ _ hlog =>
      refine ⟨⟨_,hlog⟩,fun hended => ?_⟩
      simp [TxState.ended,IngestPc.found_of_marks hmarks] at hended
  | fillFailed _ ht => subst ht; exact ⟨⟨[],(List.append_nil _).symm⟩,fun hended => ⟨hended,rfl⟩⟩
  | worker i b m _ _ ht => subst ht; exact ⟨⟨[],(List.append_nil _).symm⟩,fun hended => ⟨hended,rfl⟩⟩
  | poll _ ht =>
    obtain ⟨p,hp⟩ := pollStep_eq s
    rw [ht,hp]
    exact ⟨⟨[],(List.append_nil _).symm⟩,fun hended => ⟨hended,rfl⟩⟩

end Viamillipede
