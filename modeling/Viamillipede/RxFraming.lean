import Viamillipede.RxControl

/-! Packet boundaries on one connection: what `rxworker` makes of the bytes it reads.

The payload loop copes with any split of the stream. The header is taken from a single
`readv`, whose count is reported and otherwise ignored. Short of a whole header this comes
out right only where what is in `pkt` announces a payload and the connection is at its end. -/
namespace Viamillipede

open Bytes Transition

variable {n : ℕ} {cfg : RxConfig}

/-- No packet is complete in these bytes. -/
def Incomplete (part : List UInt8) : Prop := ∀ p : Packet, ¬ p.frame <+: part

/-- Less than a header. -/
theorem incomplete_of_short {part : List UInt8} (h : part.length < Millipacket.sizeof) :
    Incomplete part := by
  intro p hp
  have hle := hp.length_le
  rw [Packet.frame_length] at hle
  omega

theorem incomplete_nil : Incomplete [] := incomplete_of_short (by decide)

/-- A whole header with part of the payload it announces. -/
theorem incomplete_of_lt {header : Millipacket} {bs : List UInt8}
    (h : bs.length < header.size.toNat) : Incomplete (header.bytes++bs) := by
  rintro p ⟨t,ht⟩
  rw [Packet.frame,List.append_assoc] at ht
  obtain ⟨hbytes,hrest⟩ := List.append_inj ht (by simp)
  have hlen := congrArg List.length hrest
  rw [List.length_append,p.size_eq,Millipacket.bytes_injective hbytes] at hlen
  omega

namespace RxWorker

/-- The last `readv` has returned all the bytes of a header. -/
def wholeHeader (w : RxWorker) : Bool := w.reads.getLast? == some Millipacket.sizeof

/-- Bytes of the connection have been taken for the payload that the header announces, or its
packet is carried to the sequencer. -/
def actsOn (w : RxWorker) : Bool := w.holds || w.pc == .payload && 0 < w.cursor

/-- The bytes read behind the last packet carried to the sequencer, at each place. -/
def Pending (w : RxWorker) (part : List UInt8) : Prop :=
  match w.pc with
  | .payload => (w.cursor+w.remainder = w.pkt.size.toNat ∧ 0 < w.remainder ∧ w.restartme = false) ∧
    if w.wholeHeader then part = w.pkt.bytes ++ w.buffer.read w.cursor
    else part.length < Millipacket.sizeof ∧ w.cursor = 0
  | .header => part = [] ∧ w.restartme = false
  | .accept => Incomplete part ∧ w.restartme = false
  | .start | .outer | .gone => Incomplete part
  | _ => if w.restartme then Incomplete part else part = []

/-- The bytes read are the packets carried to the sequencer and part of another. The packet
held is the last of those carried, and its header was whole; a worker past 159 holds one. -/
structure Framed (w : RxWorker) : Prop where
  split : ∃ part, w.got = Packet.code.encodeAll w.carried ++ part ∧ w.Pending part
  held : w.holds = true → w.wholeHeader = true ∧ w.carried.getLast? = some w.packet
  steady : w.pc.chosen = true → w.pc ≠ .unlock → w.restartme = false

theorem Framed.holds_of_chosen {w : RxWorker} (hw : w.Framed) (hpc : w.pc.chosen = true)
    (hne : w.pc ≠ .unlock) : w.holds = true := by
  rw [holds,RxPc.holding_of_chosen hpc,hw.steady hpc hne]
  rfl

theorem Pending.incomplete {w : RxWorker} {part : List UInt8} (h : w.Pending part) :
    Incomplete part := by
  unfold Pending at h
  split at h
  case h_1 =>
    obtain ⟨hsum,h⟩ := h
    split at h
    · rw [h]
      exact incomplete_of_lt (by rw [Memory.read_length]; omega)
    · exact incomplete_of_short h.1
  case h_2 => exact h.1 ▸ incomplete_nil
  case h_3 => exact h.1
  case h_4 | h_5 | h_6 => exact h
  case h_7 =>
    split at h
    · exact h
    · exact h ▸ incomplete_nil

theorem Pending.whole {w : RxWorker} {part : List UInt8} (h : w.Pending part)
    (hpc : w.pc = .payload) (hwhole : w.wholeHeader = true) :
    part = w.pkt.bytes ++ w.buffer.read w.cursor := by
  simp only [Pending,hpc,hwhole,if_true] at h
  exact h.2

theorem Pending.payload {w : RxWorker} {part : List UInt8} (h : w.Pending part)
    (hpc : w.pc = .payload) :
    w.cursor+w.remainder = w.pkt.size.toNat ∧ 0 < w.remainder ∧ w.restartme = false := by
  simp only [Pending,hpc] at h
  exact h.1

/-- A worker outside the sequencer holds nothing. -/
theorem framed_of_free {w : RxWorker} (hpc : w.pc.holding = false)
    (h : ∃ part, w.got = Packet.code.encodeAll w.carried ++ part ∧ w.Pending part) : w.Framed := by
  refine ⟨h,fun hholds => ?_,fun hchosen => ?_⟩
  · simp [holds,hpc] at hholds
  · cases hat : w.pc <;> simp_all [RxPc.holding,RxPc.chosen]

/-- The packet that `sequence` carries on has been read behind a whole header. -/
theorem sequence_framed {v w' : RxWorker} (h : v.sequence cfg = .ok w')
    (hrestart : v.restartme = false) (hwhole : v.wholeHeader = true)
    (hgot : v.got = Packet.code.encodeAll v.carried ++ v.packet.frame) : w'.Framed := by
  rw [sequence_eq h,hrestart]
  exact ⟨⟨[],by simp [hgot],by simp [Pending]⟩,fun _ => ⟨hwhole,by simp; rfl⟩,
    fun hchosen => by cases hchosen⟩

theorem headerRead_framed {w w' : RxWorker} {junk : Millipacket} {bs : List UInt8}
    (hw : w.Framed) (hpc : w.pc = .header) (hbs : bs.length ≤ Millipacket.sizeof)
    (hlegible : bs.length = Millipacket.sizeof ∨ (junk.overlay bs).size ≠ 0)
    (h : w.headerRead cfg junk bs = .ok w') : w'.Framed := by
  obtain ⟨v,rfl,hcases⟩ := headerRead_cases h
  obtain ⟨part,hgot,hpend⟩ := hw.split
  simp only [Pending,hpc] at hpend
  obtain ⟨rfl,hrestart⟩ := hpend
  have hpkt (hlen : bs.length = Millipacket.sizeof) : (junk.overlay bs).bytes = bs := by
    rw [Millipacket.overlay_whole junk hlen,Millipacket.bytes_ofBytes hlen]
  rcases hcases with ⟨hzero,hseq⟩ | ⟨hpos,rfl⟩
  · -- the packet is complete with its header
    simp only at hzero
    have hlen := hlegible.resolve_right fun hne => hne (UInt64.toNat_inj.mp hzero)
    exact sequence_framed hseq hrestart (by simp [wholeHeader,hlen])
      (by simp [hgot,packet,Packet.frame,hpkt hlen,hzero])
  · refine framed_of_free rfl ⟨bs,by simp [hgot],?_⟩
    by_cases hlen : bs.length = Millipacket.sizeof
    · simpa [Pending,wholeHeader,hlen,hpkt hlen,hrestart] using hpos
    · have hlt : bs.length < Millipacket.sizeof := by omega
      simpa [Pending,wholeHeader,hlen,hlt,hrestart] using hpos

theorem payloadRead_framed {w w' : RxWorker} {bs : List UInt8} (hw : w.Framed)
    (hpc : w.pc = .payload) (hbs : bs.length ≤ w.remainder)
    (hlegible : w.wholeHeader = true ∨ bs = []) (h : w.payloadRead cfg bs = .ok w') :
    w'.Framed := by
  obtain ⟨part,hgot,hpend⟩ := hw.split
  have hincomplete := hpend.incomplete
  obtain ⟨hsum,hpos,hrestart⟩ := hpend.payload hpc
  obtain ⟨-,hseq⟩ | ⟨hsome,v,rfl,hcases⟩ := payloadRead_cases h
  · -- the connection has ended inside the payload
    rw [sequence_eq hseq]
    exact ⟨⟨part,by simpa using hgot,by simpa [Pending] using hincomplete⟩,
      fun hholds => by simp [holds] at hholds,fun hchosen => by cases hchosen⟩
  · have hwhole := hlegible.resolve_right hsome
    obtain rfl := hpend.whole hpc hwhole
    rcases hcases with ⟨hzero,hseq⟩ | ⟨hmore,rfl⟩
    · simp only at hzero
      have hsize : w.pkt.size.toNat = w.cursor+bs.length := by omega
      exact sequence_framed hseq hrestart hwhole
        (by simp [hgot,packet,Packet.frame,hsize,Memory.read_store])
    · simp only at hmore
      refine framed_of_free (by simp [hpc,RxPc.holding,RxPc.chosen])
        ⟨w.pkt.bytes ++ (w.buffer.read w.cursor ++ bs),by simp [hgot],?_⟩
      rw [wholeHeader] at hwhole
      simp only [Pending,hpc,wholeHeader,hwhole,if_true,Memory.read_store]
      exact ⟨⟨by omega,hmore,hrestart⟩,trivial⟩

/-- A move that reads nothing, to a place outside the sequencer. -/
theorem Framed.goto {w w' : RxWorker} (hw : w.Framed) (hpc : w'.pc.holding = false)
    (hgot : w'.got = w.got) (hcarried : w'.carried = w.carried)
    (hpend : ∀ part, w.Pending part → w'.Pending part) : w'.Framed := by
  obtain ⟨part,hsplit,hpart⟩ := hw.split
  exact framed_of_free hpc ⟨part,by rw [hgot,hcarried,hsplit],hpend part hpart⟩

/-- Between the last byte of a packet and the next header. -/
def between : RxPc → Bool
  | .payload | .header | .accept | .start | .outer | .gone => false
  | _ => true

theorem pending_between {w : RxWorker} (h : between w.pc = true) (part : List UInt8) :
    w.Pending part ↔ if w.restartme then Incomplete part else part = [] := by
  cases hpc : w.pc <;> simp_all [Pending,between]

/-- The steps of the sequencer keep the packet, and only those of 159 let go of the worker. -/
theorem leadsTo_cases {pc pc' : RxPc} {restartme : Bool} (h : pc.leadsTo restartme pc' = true) :
    between pc = true ∧ between pc' = true ∧ (pc'.holding = true → pc.holding = true) ∧
      (pc'.chosen = true → pc' ≠ .unlock →
        pc.chosen = true ∧ pc ≠ .unlock ∨ restartme = false) := by
  unfold RxPc.leadsTo at h
  split at h <;> simp_all [between,RxPc.holding,RxPc.chosen]

/-- A step that reads nothing keeps the worker framed. -/
theorem Framed.turn {w w' : RxWorker} (hw : w.Framed) (h : Turn cfg w w')
    (hsame : w.SameStream w') : w'.Framed := by
  cases h with
  | same => exact hw
  | goto pc hpc =>
    obtain ⟨hfrom,hto,hholds,hsteady⟩ := leadsTo_cases hpc
    obtain ⟨part,hsplit,hpend⟩ := hw.split
    refine ⟨⟨part,hsplit,(pending_between hto part).mpr ((pending_between hfrom part).mp hpend)⟩,
      fun h => hw.held ?_,fun hchosen hne => ?_⟩
    · simp only [holds,Bool.and_eq_true,Bool.not_eq_true'] at h ⊢
      exact ⟨hholds h.1,h.2⟩
    · exact (hsteady hchosen hne).elim (fun h => hw.steady h.1 h.2) id
  | fetch _ hfetch =>
    cases hfetch with
    | start hpc | quit hpc | leave hpc =>
      exact hw.goto rfl rfl rfl fun part hpart => hpart.incomplete
    | listen hpc => exact hw.goto rfl rfl rfl fun part hpart => ⟨hpart.incomplete,rfl⟩
    | next hpc hrestart =>
      refine hw.goto rfl rfl rfl fun part hpart => ⟨?_,hrestart⟩
      simpa [Pending,hpc,hrestart] using hpart
    | accept phrase _ hpc h =>
      rw [accepted_eq h]
      refine framed_of_free rfl ⟨[],rfl,?_⟩
      simp [Pending,incomplete_nil]
    | header junk bs _ hpc _ h =>
      -- a header has been read
      have hreads := (headerRead_stream h).2.1.symm.trans hsame.reads
      simp at hreads
    | payload bs _ hpc _ h =>
      -- either bytes have been read or the end of the connection
      obtain ⟨part,-,hpend⟩ := hw.split
      have hrestart := hsame.restartme (hpend.payload hpc).2.2
      have hgot := (payloadRead_stream h).1.symm.trans hsame.got
      obtain ⟨-,hseq⟩ | ⟨hsome,-⟩ := payloadRead_cases h
      · rw [sequence_eq hseq] at hrestart
        cases hrestart
      · exact absurd (by simpa using hgot) hsome

/-- Such a step does not bring a worker to a payload. -/
theorem Turn.payload {w w' : RxWorker} (h : Turn cfg w w') (hsame : w.SameStream w')
    (hpc : w'.pc = .payload) (hrestart : w.pc = .payload → w.restartme = false) : w' = w := by
  cases h with
  | same => rfl
  | goto pc hto =>
    simp only at hpc
    subst hpc
    simp [RxPc.leadsTo] at hto
  | fetch _ hfetch =>
    cases hfetch with
    | start | quit | leave | listen | next => cases hpc
    | accept phrase _ _ h =>
      rw [accepted_eq h] at hpc
      cases hpc
    | header junk bs _ _ _ h =>
      have hreads := (headerRead_stream h).2.1.symm.trans hsame.reads
      simp at hreads
    | payload bs _ hat _ h =>
      have hgot := (payloadRead_stream h).1.symm.trans hsame.got
      obtain ⟨-,hseq⟩ | ⟨hsome,-⟩ := payloadRead_cases h
      · have hlater := hsame.restartme (hrestart hat)
        rw [sequence_eq hseq] at hlater
        cases hlater
      · exact absurd (by simpa using hgot) hsome

end RxWorker

/-- A step that keeps the packet boundaries: a `readv` returns a whole header or leaves one in
`pkt` that announces a payload, and behind a header that was not whole `read` returns 0. -/
def Framable (s : RxState n) : RxAction n → Prop
  | .readv _ junk bs => bs.length = Millipacket.sizeof ∨ (junk.overlay bs).size ≠ 0
  | .read i bs => (s.workers i).wholeHeader = true ∨ bs = []
  | _ => True

instance (s : RxState n) : (a : RxAction n) → Decidable (Framable s a)
  | .readv _ junk bs =>
    inferInstanceAs (Decidable (bs.length = Millipacket.sizeof ∨ (junk.overlay bs).size ≠ 0))
  | .read i bs => inferInstanceAs (Decidable ((s.workers i).wholeHeader = true ∨ bs = []))
  | .run _ | .accept _ _ | .acceptFailed _ _ | .readvFailed _ _ | .readFailed _ | .wake _
  | .write _ _ | .writeShort _ | .writeFailed _ | .poll => .isTrue trivial

/-- Every worker's connection is framed. -/
def RxFramed (s : RxState n) : Prop := ∀ i, (s.workers i).Framed

namespace RxFramed

theorem init : RxFramed (rxInit n) := fun _ =>
  RxWorker.framed_of_free rfl ⟨[],rfl,incomplete_nil⟩

/-- A call on a connection. -/
theorem settle {s t : RxState n} {i : Fin n} {r : Except Exit RxWorker} (hs : RxFramed s)
    (h : s.Settled t i r) (hr : ∀ w, r = .ok w → w.Framed) : RxFramed t := by
  cases h with
  | ended e _ ht => exact ht ▸ hs
  | ok w hw ht _ =>
    intro j
    rw [ht]
    rcases eq_or_ne j i with rfl | hne
    · rw [s.setWorker_self]
      exact hr w hw
    · rw [s.setWorker_other hne]
      exact hs j

theorem step {s t : RxState n} {a : RxAction n} (hs : RxFramed s) (ha : Framable s a)
    (h : rxStep cfg s a = some t) : RxFramed t := by
  have hquiet (hsocket : a.onSocket = false) : RxFramed t := fun j =>
    (hs j).turn ((rxStep_cases h).turn j) (rxStep_sameStream hsocket h j)
  cases a with
  | accept i phrase =>
    refine hs.settle (rxStep_accept h).2 fun w hw => ?_
    rw [RxWorker.accepted_eq hw]
    exact RxWorker.framed_of_free rfl ⟨[],rfl,by simp [RxWorker.Pending,incomplete_nil]⟩
  | readv i junk bs =>
    obtain ⟨hpc,hbs,hset⟩ := rxStep_readv h
    exact hs.settle hset fun w hw => RxWorker.headerRead_framed (hs i) hpc hbs ha hw
  | read i bs =>
    obtain ⟨hpc,hbs,hset⟩ := rxStep_read h
    exact hs.settle hset fun w hw => RxWorker.payloadRead_framed (hs i) hpc hbs ha hw
  | _ => exact hquiet rfl

theorem reachable {ok : RxState n → RxAction n → Prop} (hok : ∀ s a, ok s a → Framable s a)
    {s : RxState n} (hs : Reachable (rxMachine cfg n) ok s) : RxFramed s :=
  hs.invariant (by rintro s rfl; exact init) fun s a _ _ h ha hstep => h.step (hok s a ha) hstep

end RxFramed

/-- Only the increment at 202 changes `next_leg`. -/
theorem rxStep_nextLeg {s t : RxState n} {a : RxAction n} (h : rxStep cfg s a = some t) :
    t.nextLeg = s.nextLeg ∨ ∃ i, a = .run i ∧ (s.workers i).pc = .advance := by
  cases rxStep_cases h with
  | advance i hpc =>
    have hmine : a.worker = some i := by
      by_contra hother
      obtain hsame | ⟨hsleep,-⟩ := rxStep_other hother h
      · have hpc' := congrArg RxWorker.pc hsame
        simp [hpc,RxState.goto,RxState.setWorker] at hpc'
      · rw [hpc] at hsleep
        cases hsleep
    refine .inr ⟨i,?_,hpc⟩
    simp only [rxStep] at h
    split at h
    · cases h
    cases a <;> simp only [RxAction.worker,Option.some.injEq,reduceCtorEq] at hmine <;>
      subst hmine <;> simp_all [rxWrite]
  | poll t h =>
    obtain ⟨p,m,rfl⟩ := rxPollStep_eq h
    exact .inl rfl
  | _ => exact .inl rfl

/-- What the connections have carried to the sequencer is what has been completely received,
of the packets `ps` written to them; no header is acted on before all of it has been received;
and only a worker that holds such a packet increments `next_leg`. -/
structure FramedRight (cfg : RxConfig) (ps : Fin n → List Packet) (s : RxState n) : Prop where
  carried : ∀ i, (s.workers i).carried = Packet.code.received (ps i) (s.workers i).got.length
  whole : ∀ i, (s.workers i).actsOn = true → (s.workers i).wholeHeader = true
  sequenced : ∀ i, (s.workers i).holds = true →
    (Packet.code.received (ps i) (s.workers i).got.length).getLast? = some (s.workers i).packet
  advances : ∀ a t, rxStep cfg s a = some t → t.nextLeg ≠ s.nextLeg →
    ∃ i, a = .run i ∧ (s.workers i).pc = .advance ∧ (s.workers i).holds = true

theorem FramedRight.of_framed {s : RxState n} {ps : Fin n → List Packet} (hs : RxFramed s)
    (hgot : ∀ i, (s.workers i).got <+: Packet.code.encodeAll (ps i)) : FramedRight cfg ps s := by
  have hcarried (i : Fin n) :
      (s.workers i).carried = Packet.code.received (ps i) (s.workers i).got.length := by
    obtain ⟨part,hsplit,hpend⟩ := (hs i).split
    have hreceived := hgot i
    rw [hsplit] at hreceived ⊢
    exact (Packet.code.received_of_partial hpend.incomplete hreceived).symm
  refine ⟨hcarried,fun i hacts => ?_,fun i hholds => ?_,fun a t h hne => ?_⟩
  · rcases Bool.or_eq_true_iff.mp hacts with hholds | hread
    · exact ((hs i).held hholds).1
    · -- behind a header that was not whole the cursor is still 0
      simp only [Bool.and_eq_true,beq_iff_eq,decide_eq_true_eq] at hread
      obtain ⟨part,-,hpend⟩ := (hs i).split
      by_contra hshort
      simp only [RxWorker.Pending,hread.1,hshort] at hpend
      have hzero := hpend.2.2
      omega
  · rw [← hcarried i]
    exact ((hs i).held hholds).2
  · obtain ⟨i,rfl,hpc⟩ := (rxStep_nextLeg h).resolve_left hne
    exact ⟨i,rfl,hpc,(hs i).holds_of_chosen (by rw [hpc]; rfl) (by simp [hpc])⟩

/-- A step that is not framable and does not end the process acts on a header that was not
whole. -/
theorem framable_of_whole {s t : RxState n} {a : RxAction n} (hs : RxFramed s)
    (h : rxStep cfg s a = some t) (halive : t.exited = none)
    (hwhole : ∀ i, (t.workers i).actsOn = true → (t.workers i).wholeHeader = true) :
    Framable s a := by
  have hsettled {i : Fin n} {r : Except Exit RxWorker} (hset : s.Settled t i r) :
      r = .ok (t.workers i) := by
    cases hset with
    | ended e _ ht =>
      rw [ht] at halive
      cases halive
    | ok w hw ht _ => rw [hw,ht,s.setWorker_self]
  cases a with
  | readv i junk bs =>
    obtain ⟨hpc,-,hset⟩ := rxStep_readv h
    obtain ⟨part,-,hpend⟩ := (hs i).split
    simp only [RxWorker.Pending,hpc] at hpend
    by_cases hsize : (junk.overlay bs).size = 0
    · refine .inl ?_
      obtain ⟨v,rfl,⟨-,hseq⟩ | ⟨hpos,-⟩⟩ := RxWorker.headerRead_cases (hsettled hset)
      · have hacts := hwhole i
        rw [RxWorker.sequence_eq hseq] at hacts
        simpa [RxWorker.actsOn,RxWorker.holds,RxPc.holding,RxWorker.wholeHeader,hpend.2] using hacts
      · simp [hsize] at hpos
    · exact .inr hsize
  | read i bs =>
    obtain ⟨hpc,-,hset⟩ := rxStep_read h
    obtain ⟨part,-,hpend⟩ := (hs i).split
    have hrestart := (hpend.payload hpc).2.2
    have hacts := hwhole i
    obtain ⟨hnil,-⟩ | ⟨hsome,v,rfl,⟨-,hseq⟩ | ⟨-,hw⟩⟩ := RxWorker.payloadRead_cases (hsettled hset)
    · exact .inr hnil
    · rw [RxWorker.sequence_eq hseq] at hacts
      refine .inl (hacts ?_)
      simp [RxWorker.actsOn,RxWorker.holds,RxPc.holding,hrestart]
    · rw [hw] at hacts
      refine .inl (hacts ?_)
      have hpos := List.length_pos_iff.mpr hsome
      simp [RxWorker.actsOn,hpc]
      omega
  | _ => trivial

/-- In every run whose steps are framable, for any packets written to each connection, any
split of them into reads and any end of the connections, the framing is right; and it stays
right at the next step, unless that ends the process, if and only if the step is framable. -/
theorem framedRight_of_framable {s : RxState n} (hs : Reachable (rxMachine cfg n) Framable s)
    {ps : Fin n → List Packet}
    (hgot : ∀ i, (s.workers i).got <+: Packet.code.encodeAll (ps i)) :
    FramedRight cfg ps s ∧ ∀ a t, rxStep cfg s a = some t → t.exited = none →
      (∀ i, (t.workers i).got <+: Packet.code.encodeAll (ps i)) →
      (FramedRight cfg ps t ↔ Framable s a) := by
  have hframed := RxFramed.reachable (fun _ _ h => h) hs
  refine ⟨.of_framed hframed hgot,fun a t h halive hnext => ⟨fun ht => ?_,fun ha => ?_⟩⟩
  · exact framable_of_whole hframed h halive ht.whole
  · exact .of_framed (hframed.step ha h) hnext

/-- Two legs, each part of which arrives in one piece. Then the connection ends: the header
of leg 1 is still in `pkt`, and the worker retires. -/
def endedRun : List (RxAction 1) :=
  rxConnect 0 ++ rxReadWhole 0 (oneByteLeg 0 7) ++ rxSteps 0 3 ++ [.write 0 1] ++ rxSteps 0 6 ++
    rxReadWhole 0 (oneByteLeg 1 8) ++ rxSteps 0 3 ++ [.write 0 1] ++ rxSteps 0 6 ++
    [.readv 0 (oneByteLeg 1 8).header [],.read 0 []] ++ rxSteps 0 4

/-- The legs that are written to the connection of this run. -/
def twoLegs : Fin 1 → List Packet := fun _ => [oneByteLeg 0 7,oneByteLeg 1 8]

theorem framedRight_endedRun :
    ∃ s ∈ exec (rxMachine .plain 1) Framable (rxInit 1) endedRun,
      s.nextLeg = 2 ∧ (s.workers 0).pc = .outer ∧ FramedRight .plain twoLegs s ∧
        ∀ a t, rxStep .plain s a = some t → t.exited = none →
          (∀ i, (t.workers i).got <+: Packet.code.encodeAll (twoLegs i)) →
          (FramedRight .plain twoLegs t ↔ Framable s a) := by
  have hrun : ∃ s ∈ exec (rxMachine .plain 1) Framable (rxInit 1) endedRun,
      s.nextLeg = 2 ∧ (s.workers 0).pc = .outer ∧
        ∀ i, (s.workers i).got <+: Packet.code.encodeAll (twoLegs i) := by decide
  obtain ⟨s,hs,hleg,hpc,hgot⟩ := hrun
  exact ⟨s,hs,hleg,hpc,framedRight_of_framable (reachable_exec (.init rfl) hs) hgot⟩

/-- After leg 0, `readv` returns the first sixteen bytes of the next header; the rest of
`pkt` is what leg 0 has left there. The `read` of the payload takes the next byte. -/
def shortHeaderRun : List (RxAction 1) :=
  rxConnect 0 ++ rxReadWhole 0 (oneByteLeg 0 7) ++ rxSteps 0 3 ++ [.write 0 1] ++ rxSteps 0 6 ++
    [.readv 0 (oneByteLeg 0 7).header ((oneByteLeg 1 8).frame.take 16),
      .read 0 (((oneByteLeg 1 8).frame.drop 16).take 1)]

/-- The connection ends behind leg 0, with zeros in `pkt`. -/
def emptyHeaderRun : List (RxAction 1) :=
  rxConnect 0 ++ rxReadWhole 0 (oneByteLeg 0 7) ++ rxSteps 0 3 ++ [.write 0 1] ++ rxSteps 0 6 ++
    [.readv 0 ⟨0,0,0,0,0⟩ []]

/-- A byte of the header is sequenced as the payload of leg 1; and the end of a connection is
carried to the sequencer as a leg. -/
theorem framedWrong_of_shortHeaderRun :
    (∃ s ∈ exec (rxMachine .plain 1) anyStep (rxInit 1)
        (shortHeaderRun ++ rxSteps 0 3 ++ [.write 0 1] ++ rxSteps 0 3),
      (s.workers 0).got <+: Packet.code.encodeAll [oneByteLeg 0 7,oneByteLeg 1 8] ∧
        s.output = [7,1] ∧ s.nextLeg = 2 ∧ ¬ FramedRight .plain twoLegs s) ∧
    (∃ s ∈ exec (rxMachine .plain 1) anyStep (rxInit 1) emptyHeaderRun,
      (s.workers 0).got <+: Packet.code.encodeAll [oneByteLeg 0 7,oneByteLeg 1 8] ∧
        (s.workers 0).carried.length = 2 ∧ ¬ FramedRight .plain twoLegs s) := by
  have hshort : ∃ s ∈ exec (rxMachine .plain 1) anyStep (rxInit 1)
      (shortHeaderRun ++ rxSteps 0 3 ++ [.write 0 1] ++ rxSteps 0 3),
      (s.workers 0).got <+: Packet.code.encodeAll [oneByteLeg 0 7,oneByteLeg 1 8] ∧
        s.output = [7,1] ∧ s.nextLeg = 2 ∧ (s.workers 0).carried ≠
          Packet.code.received (twoLegs 0) (s.workers 0).got.length := by decide
  have hempty : ∃ s ∈ exec (rxMachine .plain 1) anyStep (rxInit 1) emptyHeaderRun,
      (s.workers 0).got <+: Packet.code.encodeAll [oneByteLeg 0 7,oneByteLeg 1 8] ∧
        (s.workers 0).carried.length = 2 ∧ (s.workers 0).carried ≠
          Packet.code.received (twoLegs 0) (s.workers 0).got.length := by decide
  obtain ⟨s,hs,hgot,hout,hleg,hwrong⟩ := hshort
  obtain ⟨t,ht,hgot',hlen,hwrong'⟩ := hempty
  exact ⟨⟨s,hs,hgot,hout,hleg,fun h => hwrong (h.carried 0)⟩,
    ⟨t,ht,hgot',hlen,fun h => hwrong' (h.carried 0)⟩⟩

end Viamillipede
