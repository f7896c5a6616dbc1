import Viamillipede.Session

/-! Every byte that a socket has accepted has been read, is in flight, or was lost with its
connection, and what is lost is never more than part of the packet being pushed.

From this it follows which packets of a connection have reached the sequencer, and where
the bytes of all others are. -/
namespace Viamillipede

open Bytes Transition

variable {W : ℕ} {cfg : SessionConfig}

section Transmitter

variable {cfg : TxConfig}

/-- Only `writev` sends, and no more than the socket has taken. -/
theorem workerStep_sent {w : TxWorker} {i : Fin W} {mutex : Option (TxThread W)} {done : Bool}
    {a : WorkerAction} {m : WorkerMove W} (h : workerStep cfg i mutex done w a = some m) :
    m.sent = [] ∨ ∃ n, a = .accept n ∧ m.sent.length ≤ n := by
  cases a with
  | run =>
    cases hpc : w.pc <;> simp only [workerStep,workerRun,hpc] at h
    all_goals grind
  | accept n =>
    refine .inr ⟨n,rfl,?_⟩
    cases hpc : w.pc <;> simp only [workerStep,hpc,reduceCtorEq] at h
    grind [writevReturned]
  | _ =>
    cases hpc : w.pc <;> simp only [workerStep,hpc,reduceCtorEq] at h
    all_goals grind [writevReturned]

theorem txStep_wire {s t : TxState W} {a : TxAction W} (h : txStep cfg s a = some t) (i : Fin W) :
    t.wire i = s.wire i ∨
      ∃ n sent, a = .worker i (.accept n) ∧ sent.length ≤ n ∧ t.wire i = s.wire i ++ sent := by
  cases txStep_cases h with
  | ingest _ heffect => exact .inl (by rw [heffect.wire])
  | fillFailed _ ht => exact .inl (by rw [ht])
  | worker j b m hab hm ht =>
    subst ht hab
    rcases eq_or_ne i j with rfl | hne
    · rcases workerStep_sent hm with hsent | ⟨n,rfl,hlen⟩
      · exact .inl (by simp [TxState.moved,hsent])
      · exact .inr ⟨n,m.sent,rfl,hlen,by simp [TxState.moved]⟩
    · exact .inl (by simp [TxState.moved,hne])
  | poll _ ht =>
    obtain ⟨p,hp⟩ := pollStep_eq s
    exact .inl (by rw [ht,hp])

/-- As long as its socket takes nothing, a worker keeps its packet. -/
theorem txStep_progress {s t : TxState W} {a : TxAction W} (hs : TxHandover cfg s)
    (hc : TxControl s) (ha : Unclobbered s a) (h : txStep cfg s a = some t) (i : Fin W)
    (haccept : ∀ n, a ≠ .worker i (.accept n)) (hshort : a ≠ .worker i .writevShort) :
    (s.workers i).progress.getD 0 ≤ (t.workers i).progress.getD 0 := by
  cases txStep_cases h with
  | ingest _ heffect =>
    cases heffect.change.worker i with
    | same hw => rw [hw]
    | stored pkt buffer _ _ hw => rw [hw]; rfl
    | marked hfound _ hw =>
      rw [TxWorker.progress_of_idle (hc.worker i) (hc.found i hfound)]
      exact Nat.zero_le _
  | fillFailed _ ht => rw [ht]
  | worker j b m hab hm ht =>
    subst ht hab
    rcases eq_or_ne i j with rfl | hne
    · cases hprog : (s.workers i).progress with
      | none => exact Nat.zero_le _
      | some pos =>
        have hpushes := hs.pushes i
        simp only [TxWorker.Pushes,hprog] at hpushes
        obtain ⟨_,p,-,hload,-⟩ := hpushes
        cases b with
        | run =>
          have hprog' : (s.workers i).progress.isSome := by simp [hprog]
          have hsame := (workerRun_loaded (hc.worker i) (ha i rfl (.inr hprog')) hload hprog' hm).1
          simp [TxState.moved,hsame,hprog]
        | accept n => exact absurd rfl (haccept n)
        | writevShort => exact absurd rfl hshort
        | writevFailed =>
          cases hpc : (s.workers i).pc <;> simp only [workerStep,hpc,reduceCtorEq] at hm
          cases hm
          simp [TxState.moved,hprog]
        | interrupted =>
          have hsame : { s.workers i with errno := true }.progress = some pos := hprog
          simp [workerStep_interrupted hm,TxState.moved,hsame]
        | _ =>
          -- a worker that is connecting has no packet
          have hcontrol := hc.worker i
          cases hpc : (s.workers i).pc <;> simp only [workerStep,hpc,reduceCtorEq] at hm
          simp only [WorkerControl,hpc] at hcontrol
          simp [TxWorker.progress,hpc,hcontrol.1] at hprog
    · simp [TxState.moved,hne]
  | poll _ ht =>
    obtain ⟨p,hp⟩ := pollStep_eq s
    rw [ht,hp]

/-- The thread is past `tx_start_net` and has been idle. -/
def WorkerPc.joined : WorkerPc → Bool
  | .start | .connecting _ | .setIdle => false
  | _ => true

theorem state_of_not_joined {w : TxWorker} (hc : WorkerControl w) (hw : w.pc.joined = false) :
    w.state = .launched ∨ w.state = .connecting := by
  cases hpc : w.pc with
  | start =>
    simp only [WorkerControl,hpc] at hc
    exact .inl hc.1
  | connecting recover | setIdle =>
    simp only [WorkerControl,hpc] at hc
    exact .inr hc.1
  | _ => simp [WorkerPc.joined,hpc] at hw

theorem workerStep_joined {w : TxWorker} {i : Fin W} {mutex : Option (TxThread W)} {done : Bool}
    {a : WorkerAction} {m : WorkerMove W} (hc : WorkerControl w)
    (h : workerStep cfg i mutex done w a = some m) (hw : m.worker.pc.joined = false) :
    w.pc.joined = false := by
  cases a with
  | run =>
    cases hpc : w.pc <;> simp only [workerStep,workerRun,WorkerControl,hpc] at h hc
    all_goals grind [WorkerPc.joined]
  | _ =>
    cases hpc : w.pc <;> simp only [workerStep,hpc,reduceCtorEq] at h
    all_goals grind [WorkerPc.joined,writevReturned]

/-- Nothing is handed to a worker before it has been idle. -/
theorem lane_of_not_joined {ok : TxState W → TxAction W → Prop} {s : TxState W}
    (hs : Reachable (txMachine cfg W) ok s) {i : Fin W}
    (hi : (s.workers i).pc.joined = false) : s.lane i = [] := by
  induction hs with
  | init h => cases h; rfl
  | @step s t a hr _ h ih =>
    have hc := TxControl.reachable hr
    cases txStep_cases h with
    | ingest _ heffect =>
      have hpc : (t.workers i).pc = (s.workers i).pc := by
        cases heffect.change.worker i with
        | same hw | stored _ _ _ _ hw | marked _ _ hw => rw [hw]
      rw [hpc] at hi
      cases heffect.change with
      | quiet _ hlog | stored _ _ _ _ _ _ hlog => rw [TxState.lane,hlog]; exact ih hi
      | marked w p hmarks _ _ hlog =>
        have hne : w ≠ i := by
          rintro rfl
          have hidle := hc.found w (IngestPc.found_of_marks hmarks)
          have hearly := state_of_not_joined (hc.worker w) hi
          rw [hidle] at hearly
          simp at hearly
        rw [TxState.lane,hlog,Lanes.lane_append,Lanes.lane_singleton_ne hne,List.append_nil]
        exact ih hi
    | fillFailed _ ht => subst ht; exact ih hi
    | worker j b m _ hm ht =>
      subst ht
      rw [TxState.moved_lane]
      rcases eq_or_ne i j with rfl | hne
      · exact ih (workerStep_joined (hc.worker i) hm (by simpa [TxState.moved] using hi))
      · exact ih (by simpa [TxState.moved,hne] using hi)
    | poll _ ht =>
      obtain ⟨p,hp⟩ := pollStep_eq s
      rw [ht,hp] at hi ⊢
      exact ih hi

/-- Nor has it sent anything. -/
theorem wire_of_not_joined {s : TxState W} (hs : Reachable (txMachine cfg W) Unclobbered s)
    {i : Fin W} (hi : (s.workers i).pc.joined = false) : s.wire i = [] := by
  have hpushes := (TxHandover.reachable (fun _ _ h => h) hs).pushes i
  have hcontrol := (TxControl.reachable hs).worker i
  have hnone : (s.workers i).progress = none := by
    apply TxWorker.progress_eq_none hcontrol
    rcases state_of_not_joined hcontrol hi with hstate | hstate <;>
      · rw [hstate]
        decide
  simpa [TxWorker.Pushes,hnone,lane_of_not_joined hs hi] using hpushes

theorem txStep_connected {s t : TxState W} {i : Fin W} (hc : TxControl s)
    (h : txStep cfg s (.worker i .connected) = some t) :
    (s.workers i).pc.joined = false ∧ (t.workers i).pc.joined = false := by
  simp only [txStep] at h
  split at h
  · cases h
  obtain ⟨m,hm,rfl⟩ := Option.map_eq_some_iff.mp h
  have hcontrol := hc.worker i
  cases hpc : (s.workers i).pc <;> simp only [workerStep,hpc,reduceCtorEq] at hm
  simp only [WorkerControl,hpc] at hcontrol
  cases hm
  simp [TxState.moved,hcontrol.2.1,WorkerPc.joined]

end Transmitter

namespace Session

/-- The transmitter of a session makes a run of its own. -/
theorem tx_reachable {ok : Session W → SessionAction W → Prop} {ok' : TxState W → TxAction W → Prop}
    (hconnect : ∀ s i, ok' s (.worker i .connected)) (hok : ∀ s a, ok s (.tx a) → ok' s.tx a)
    {s : Session W} (hs : Reachable (sessionMachine cfg W) ok s) :
    Reachable (txMachine cfg.tx W) ok' s.tx := by
  refine hs.simulate Session.tx (by rintro s rfl; rfl) fun s a t _ hr ha h => ?_
  cases sessionStep_cases h with
  | connect i tx rx htx _ ht => exact ht ▸ hr.step (hconnect s.tx i) htx
  | tx a tx _ htx ht => exact ht ▸ hr.step (hok s a ha) htx
  | rx _ _ _ _ ht | readv _ _ _ _ _ _ ht | read _ _ _ _ _ ht | drop _ _ _ _ _ ht => exact ht ▸ hr

/-- So does the receiver. -/
theorem rx_reachable {ok : Session W → SessionAction W → Prop} {s : Session W}
    (hs : Reachable (sessionMachine cfg W) ok s) : Reachable (rxMachine cfg.rx W) anyStep s.rx := by
  refine hs.simulate Session.rx (by rintro s rfl; rfl) fun s a t _ hr _ h => ?_
  have hnext {b : RxAction W} {rx : RxState W} (hrx : rxStep cfg.rx s.rx b = some rx) :
      Reachable (rxMachine cfg.rx W) anyStep rx := hr.step (show anyStep s.rx b from trivial) hrx
  cases sessionStep_cases h with
  | connect _ _ _ _ hrx ht | rx _ _ _ hrx ht | readv _ _ _ _ _ hrx ht | read _ _ _ _ hrx ht =>
    exact ht ▸ hnext hrx
  | tx _ _ _ _ ht | drop _ _ _ _ _ ht => exact ht ▸ hr

end Session

theorem tx_reachable_of_heeded {s : Session W}
    (hs : Reachable (sessionMachine cfg W) Heeded s) :
    Reachable (txMachine cfg.tx W) Unclobbered s.tx :=
  Session.tx_reachable (fun _ _ _ h => by cases h) (fun _ _ ha => ha.2 _ rfl) hs

theorem heeded_of_harmless {s : Session W} (hs : Reachable (sessionMachine cfg W) Harmless s) :
    Reachable (sessionMachine cfg W) Heeded s :=
  hs.mono fun _ _ ha => ha.2.2

theorem tx_reachable_of_harmless {s : Session W}
    (hs : Reachable (sessionMachine cfg W) Harmless s) :
    Reachable (txMachine cfg.tx W) Unclobbered s.tx :=
  tx_reachable_of_heeded (heeded_of_harmless hs)

/-- The bytes a socket has accepted, against those read, those in flight and those lost. -/
def Carries (wire got conn : List UInt8) (dropped : Bool) : Prop :=
  ∃ lost, wire = got ++ conn ++ lost ∧ (dropped = false → lost = [])

namespace Carries

variable {wire got conn : List UInt8} {dropped : Bool}

theorem read (h : Carries wire got conn dropped) (count : ℕ) :
    Carries wire (got ++ conn.take count) (conn.drop count) dropped := by
  obtain ⟨lost,rfl,hopen⟩ := h
  exact ⟨lost,by simp,hopen⟩

theorem send (h : Carries wire got conn false) (sent : List UInt8) :
    Carries (wire++sent) got (conn++sent) false := by
  obtain ⟨lost,rfl,hopen⟩ := h
  exact ⟨[],by simp [hopen rfl],fun _ => rfl⟩

theorem drop (h : Carries wire got conn false) (kept : ℕ) :
    Carries wire got (conn.take kept) true := by
  obtain ⟨lost,rfl,hopen⟩ := h
  exact ⟨conn.drop kept,by simp [hopen rfl],nofun⟩

theorem got_prefix_wire (h : Carries wire got conn dropped) : got <+: wire := by
  obtain ⟨lost,rfl,-⟩ := h
  exact ⟨conn++lost,by simp⟩

end Carries

/-- The bytes of each connection, and the framing of those read from it. Behind a header that
was not whole nothing comes any more. -/
structure Linked (cfg : SessionConfig) (s : Session W) : Prop where
  carries : ∀ i, Carries (s.tx.wire i) (s.rx.workers i).got (s.conn i) (s.dropped i)
  room : ∀ i, (s.conn i).length ≤ cfg.sockbuf.toNat
  framed : RxFramed s.rx
  ended : ∀ i, (s.rx.workers i).pc = .payload → (s.rx.workers i).wholeHeader = false →
    s.dropped i = true ∧ s.conn i = []

namespace Linked

theorem init : Linked cfg (sessionInit W) where
  carries _ := ⟨[],rfl,fun _ => rfl⟩
  room _ := Nat.zero_le _
  framed := .init
  ended _ h := by cases h

theorem whole {s : Session W} (hs : Linked cfg s) {i : Fin W}
    (hpc : (s.rx.workers i).pc = .payload) (hbytes : s.dropped i = false ∨ s.conn i ≠ []) :
    (s.rx.workers i).wholeHeader = true := by
  by_contra hshort
  obtain ⟨hdropped,hnil⟩ := hs.ended i hpc (by simpa using hshort)
  rcases hbytes with hopen | hsome
  · rw [hdropped] at hopen
    cases hopen
  · exact hsome hnil

/-- A read that the receiver has settled. -/
theorem settle {s : Session W} {rx : RxState W} {i : Fin W} {count : ℕ} {r : Except Exit RxWorker}
    (hs : Linked cfg s) (h : s.rx.Settled rx i r) (hframed : RxFramed rx)
    (hr : ∀ w, r = .ok w → w.got = (s.rx.workers i).got ++ (s.conn i).take count ∧
      (w.pc = .payload → w.wholeHeader = false →
        s.dropped i = true ∧ (s.conn i).length ≤ count)) :
    Linked cfg (s.withRx i count rx) := by
  cases h with
  | ended e _ hrx =>
    subst hrx
    exact ⟨hs.carries,hs.room,hframed,hs.ended⟩
  | ok w hw hrx hexited =>
    obtain ⟨hgot,hended⟩ := hr w hw
    have hconn : (s.withRx i count rx).conn = Function.update s.conn i ((s.conn i).drop count) := by
      simp [Session.withRx,hexited]
    have hworkers : (s.withRx i count rx).rx.workers = Function.update s.rx.workers i w := by
      rw [hrx]; rfl
    refine ⟨fun j => ?_,fun j => ?_,hframed,fun j => ?_⟩
    · rw [hconn,hworkers]
      rcases eq_or_ne j i with rfl | hne
      · simp only [Function.update_self,hgot]
        exact (hs.carries j).read count
      · simp only [Function.update_of_ne hne]
        exact hs.carries j
    · rw [hconn]
      rcases eq_or_ne j i with rfl | hne
      · simpa using (Nat.sub_le _ _).trans (hs.room j)
      · simpa [hne] using hs.room j
    · rw [hconn,hworkers]
      rcases eq_or_ne j i with rfl | hne
      · simpa [Session.withRx] using hended
      · simpa [Session.withRx,hne] using hs.ended j

theorem step {s t : Session W} {a : SessionAction W} (hs : Linked cfg s)
    (hr : Reachable (sessionMachine cfg W) Heeded s) (ha : Heeded s a)
    (h : sessionStep cfg s a = some t) : Linked cfg t := by
  have htx := tx_reachable_of_heeded hr
  obtain ⟨hlegible,-⟩ := ha
  cases sessionStep_cases h with
  | connect i tx rx hconnect haccept ht =>
    subst ht
    have hfree : Unclobbered s.tx (.worker i .connected) := fun _ h _ => by cases h
    have hnew : tx.wire i = [] :=
      wire_of_not_joined (htx.step hfree hconnect) (txStep_connected (.reachable htx) hconnect).2
    have hframed : RxFramed rx := hs.framed.step (a := .accept i _) trivial haccept
    have hold (j : Fin W) : Carries (tx.wire j) (s.rx.workers j).got (s.conn j) (s.dropped j) := by
      rcases txStep_wire hconnect j with hwire | ⟨n,_,hb,-⟩
      · exact hwire ▸ hs.carries j
      · cases hb
    cases (rxStep_accept haccept).2 with
    | ended e _ hrx => subst hrx; exact ⟨hold,hs.room,hframed,hs.ended⟩
    | ok w hw hrx _ =>
      subst hrx
      refine ⟨fun j => ?_,hs.room,hframed,fun j => ?_⟩ <;> rcases eq_or_ne j i with rfl | hne
      · -- nothing has been sent on this connection yet
        obtain ⟨lost,hsplit,hopen⟩ := hold j
        simp only [hnew,List.nil_eq,List.append_eq_nil_iff] at hsplit
        have hnone : Carries [] [] [] (s.dropped j) := ⟨lost,by simp [hsplit],hopen⟩
        simpa [RxState.setWorker,RxWorker.accepted_eq hw,hnew,hsplit] using hnone
      · simpa [RxState.setWorker,hne] using hold j
      · simp [RxState.setWorker,RxWorker.accepted_eq hw]
      · simpa [RxState.setWorker,hne] using hs.ended j
  | tx b tx hmay hstep ht =>
    subst ht
    have hopen {i : Fin W} {n : ℕ} (hb : b = .worker i (.accept n)) :
        s.dropped i = false ∧ (s.conn i).length+n ≤ cfg.sockbuf.toNat := by
      subst hb
      simpa [Session.txMay] using hmay
    refine ⟨fun i => ?_,fun i => ?_,hs.framed,fun i hpc hshort => ?_⟩ <;>
      rcases txStep_wire hstep i with hwire | ⟨n,sent,hb,hlen,hwire⟩
    · simpa [Session.withTx,hwire] using hs.carries i
    · have hcarries := hs.carries i
      rw [(hopen hb).1] at hcarries
      simpa [Session.withTx,hwire,(hopen hb).1] using hcarries.send sent
    · simpa [Session.withTx,hwire] using hs.room i
    · have hroom := (hopen hb).2
      simp only [Session.withTx,hwire,List.drop_left,List.length_append]
      omega
    · simpa [Session.withTx,hwire] using hs.ended i hpc hshort
    · -- a socket that takes bytes has not been dropped
      have hdropped := (hs.ended i hpc hshort).1
      rw [(hopen hb).1] at hdropped
      cases hdropped
  | rx b rx hmay hstep ht =>
    subst ht
    have hquiet : b.onSocket = false := by
      cases b <;> first | rfl | cases hmay
    have hframed : RxFramed rx := by
      refine hs.framed.step ?_ hstep
      cases b <;> trivial
    have hsame (i : Fin W) := rxStep_sameStream hquiet hstep i
    refine ⟨fun i => (hsame i).got ▸ hs.carries i,hs.room,hframed,fun i hpc => ?_⟩
    have hkept := ((rxStep_cases hstep).turn i).payload (hsame i) hpc fun hat => by
      obtain ⟨_,_,hpend⟩ := (hs.framed i).split
      exact (hpend.payload hat).2.2
    rw [hkept] at hpc ⊢
    exact hs.ended i hpc
  | readv i junk count rx hmay hstep ht =>
    subst ht
    have hlen : ((s.conn i).take count).length = count := by
      rw [List.length_take]
      rcases hmay with hmay | hmay <;> omega
    refine hs.settle (rxStep_readv hstep).2.2 (hs.framed.step ?_ hstep) fun w hw => ?_
    · refine hlegible.imp (fun hcount => hlen.trans hcount) fun hshort hzero => ?_
      rw [hzero] at hshort
      exact absurd hshort.2.2.1 (by decide)
    · obtain ⟨hgot,hreads,-⟩ := RxWorker.headerRead_stream hw
      refine ⟨hgot,fun _ hshort => ?_⟩
      rcases hlegible with hcount | ⟨hdropped,hrest,-⟩
      · rw [RxWorker.wholeHeader,hreads,hlen,hcount] at hshort
        simp at hshort
      · exact ⟨hdropped,hrest⟩
  | read i count rx hmay hstep ht =>
    subst ht
    have hpc := (rxStep_read hstep).1
    refine hs.settle (rxStep_read hstep).2.2 (hs.framed.step ?_ hstep) fun w hw => ?_
    · cases hwhole : (s.rx.workers i).wholeHeader with
      | true => exact .inl hwhole
      | false => exact .inr (by rw [(hs.ended i hpc hwhole).2,List.take_nil])
    · obtain ⟨hgot,hreads,-⟩ := RxWorker.payloadRead_stream hw
      refine ⟨hgot,fun _ hshort => ?_⟩
      rw [RxWorker.wholeHeader,hreads] at hshort
      obtain ⟨hdropped,hnil⟩ := hs.ended i hpc hshort
      exact ⟨hdropped,by simp [hnil]⟩
  | drop i kept hopen _ _ ht =>
    subst ht
    refine ⟨fun j => ?_,fun j => ?_,hs.framed,fun j hpc hshort => ?_⟩ <;>
      rcases eq_or_ne j i with rfl | hne
    · have hcarries := hs.carries j
      rw [hopen] at hcarries
      simpa using hcarries.drop kept
    · simpa [hne] using hs.carries j
    · simpa using (Nat.min_le_right _ _).trans (hs.room j)
    · simpa [hne] using hs.room j
    · have hdropped := (hs.ended j hpc hshort).1
      rw [hopen] at hdropped
      cases hdropped
    · simpa [hne] using hs.ended j hpc hshort

theorem reachable {s : Session W} (hs : Reachable (sessionMachine cfg W) Heeded s) :
    Linked cfg s :=
  hs.invariant (by rintro s rfl; exact init) fun _ _ _ hr h ha hstep => h.step hr ha hstep

end Linked

/-- What a dropped connection has not delivered is of the packet still being pushed. -/
def Session.Undelivered (s : Session W) : Prop := ∀ i, s.dropped i = true →
  (s.tx.wire i).length ≤ (s.rx.workers i).got.length + (s.tx.workers i).progress.getD 0

theorem undelivered_step {s t : Session W} {a : SessionAction W} (hs : s.Undelivered)
    (hr : Reachable (sessionMachine cfg W) Harmless s) (ha : Harmless s a)
    (h : sessionStep cfg s a = some t) : t.Undelivered := by
  have hl := Linked.reachable (heeded_of_harmless hr)
  have htx := tx_reachable_of_harmless hr
  obtain ⟨hfailing,hdrops,-,hunclobbered⟩ := ha
  have hread {i : Fin W} {count : ℕ} {rx : RxState W} {r : Except Exit RxWorker}
      (hset : s.rx.Settled rx i r)
      (hgot : ∀ w, r = .ok w → w.got = (s.rx.workers i).got ++ (s.conn i).take count) :
      (s.withRx i count rx).Undelivered := by
    intro j hd
    refine (hs j hd).trans (Nat.add_le_add_right ?_ _)
    cases hset with
    | ended e _ hrx => subst hrx; exact le_rfl
    | ok w hw hrx _ =>
      subst hrx
      rcases eq_or_ne j i with rfl | hne
      · simp [Session.withRx,RxState.setWorker,hgot w hw]
      · simp [Session.withRx,RxState.setWorker,hne]
  cases sessionStep_cases h with
  | connect i tx rx hconnect haccept ht =>
    subst ht
    have hfree : Unclobbered s.tx (.worker i .connected) := fun _ h _ => by cases h
    intro j hd
    rcases eq_or_ne j i with rfl | hne
    · have hnew : tx.wire j = [] :=
        wire_of_not_joined (htx.step hfree hconnect) (txStep_connected (.reachable htx) hconnect).2
      simp [hnew]
    · have hwire : tx.wire j = s.tx.wire j := by
        rcases txStep_wire hconnect j with hwire | ⟨n,_,hb,-⟩
        · exact hwire
        · cases hb
      have hprog := txStep_progress (.reachable (fun _ _ h => h) htx) (.reachable htx) hfree
        hconnect j (fun _ hb => by cases hb) fun hb => by cases hb
      have hgot : (rx.workers j).got = (s.rx.workers j).got := by
        cases (rxStep_accept haccept).2 with
        | ended e _ hrx => rw [hrx]
        | ok w _ hrx _ => rw [hrx,RxState.setWorker_other _ hne]
      have hle := hs j hd
      simp only [hwire,hgot]
      omega
  | tx b tx hmay hstep ht =>
    subst ht
    intro i (hd : s.dropped i = true)
    have haccept (n : ℕ) : b ≠ .worker i (.accept n) := by
      rintro rfl
      simp [Session.txMay,hd] at hmay
    have hshort : b ≠ .worker i .writevShort := by
      rintro rfl
      cases hfailing
    have hprog := txStep_progress (.reachable (fun _ _ h => h) htx) (.reachable htx)
      (hunclobbered b rfl) hstep i haccept hshort
    have hwire : tx.wire i = s.tx.wire i := by
      rcases txStep_wire hstep i with hwire | ⟨n,_,hb,-⟩
      · exact hwire
      · exact absurd hb (haccept n)
    have hle := hs i hd
    simp only [Session.withTx,hwire]
    omega
  | rx b rx hmay hstep ht =>
    subst ht
    have hquiet : b.onSocket = false := by
      cases b <;> first | rfl | cases hmay
    exact fun i hd => (rxStep_sameStream hquiet hstep i).got ▸ hs i hd
  | readv i junk count rx hmay hstep ht =>
    subst ht
    exact hread (rxStep_readv hstep).2.2 fun w hw => (RxWorker.headerRead_stream hw).1
  | read i count rx hmay hstep ht =>
    subst ht
    exact hread (rxStep_read hstep).2.2 fun w hw => (RxWorker.payloadRead_stream hw).1
  | drop i kept hopen _ _ ht =>
    subst ht
    intro j hd
    rcases eq_or_ne j i with rfl | hne
    · obtain ⟨lost,hwire,hnone⟩ := hl.carries j
      have hle : (s.conn j).length ≤ (s.tx.workers j).progress.getD 0 := hdrops j rfl
      simp only [hwire,hnone hopen,List.append_nil,List.length_append]
      omega
    · exact hs j (by simpa [hne] using hd)

theorem undelivered_of_harmless {s : Session W}
    (hs : Reachable (sessionMachine cfg W) Harmless s) : s.Undelivered :=
  hs.invariant (by rintro s rfl i h; cases h) fun _ _ _ hr h ha hstep =>
    undelivered_step h hr ha hstep

/-- The packets handed to worker `i`, as they go on its connection. -/
def Session.stream (cfg : SessionConfig) (s : Session W) (i : Fin W) : List Packet :=
  (s.tx.lane i).map cfg.tx.pushed

/-- A receive worker carries to its sequencer what was handed to the transmit worker. -/
theorem carried_prefix_lane {s : Session W} (hs : Reachable (sessionMachine cfg W) Heeded s)
    (i : Fin W) : (s.rx.workers i).carried <+: s.stream cfg i := by
  have hl := Linked.reachable hs
  have hpushes := (TxHandover.reachable (fun _ _ h => h) (tx_reachable_of_heeded hs)).pushes i
  obtain ⟨part,hgot,-⟩ := (hl.framed i).split
  refine Packet.code.prefix_of_encodeAll_prefix (List.IsPrefix.trans ⟨part,hgot.symm⟩ ?_)
  exact (hl.carries i).got_prefix_wire.trans hpushes.onWire.wire_prefix

/-- Every step keeps what was handed over. -/
theorem log_prefix {s t : Session W} {a : SessionAction W} (hl : TxLog s.tx)
    (h : sessionStep cfg s a = some t) : s.tx.log <+: t.tx.log := by
  have htx {b : TxAction W} {tx : TxState W} (hstep : txStep cfg.tx s.tx b = some tx) :
      s.tx.log <+: tx.log := by
    obtain ⟨new,hnew⟩ := (txStep_log hl hstep).1
    exact ⟨new,hnew.symm⟩
  cases sessionStep_cases h with
  | connect i tx rx hconnect _ ht => exact ht ▸ htx hconnect
  | tx b tx _ hstep ht => exact ht ▸ htx hstep
  | rx _ _ _ _ ht | readv _ _ _ _ _ _ ht | read _ _ _ _ _ ht | drop _ _ _ _ _ ht =>
    exact ht ▸ List.prefix_rfl

/-- What a worker has yet to write of the last of these packets, which is its own. -/
def TxWorker.Unsent (w : TxWorker) (legs : List Packet) (unsent : List UInt8) : Prop :=
  match w.progress with
  | none => unsent = []
  | some pos => ∃ rest p, legs = rest++[p] ∧ { w.pkt with preamble := preambleCannonUl } = p.header ∧
      pos < p.frame.length ∧ unsent = p.frame.drop pos

/-- The packets of connection `i` that have not reached the sequencer, and where their bytes
are: read, in flight, lost, or not sent yet. -/
structure OnConnection (cfg : SessionConfig) (s : Session W) (i : Fin W) (legs : List Packet)
    (part lost unsent : List UInt8) : Prop where
  stream : s.stream cfg i = (s.rx.workers i).carried ++ legs
  bytes : Packet.code.encodeAll legs = part ++ (s.conn i ++ (lost ++ unsent))
  pending : (s.rx.workers i).Pending part
  opened : s.dropped i = false → lost = []
  dropped : s.dropped i = true →
    (s.conn i).length+lost.length ≤ (s.tx.workers i).progress.getD 0
  unsent : (s.tx.workers i).Unsent legs unsent

theorem exists_onConnection {s : Session W} (hs : Reachable (sessionMachine cfg W) Harmless s)
    (i : Fin W) : ∃ legs part lost unsent, OnConnection cfg s i legs part lost unsent := by
  have hl := Linked.reachable (heeded_of_harmless hs)
  obtain ⟨part,hgot,hpend⟩ := (hl.framed i).split
  obtain ⟨lost,hwire,hopen⟩ := hl.carries i
  have hdropped (hd : s.dropped i = true) :
      (s.conn i).length+lost.length ≤ (s.tx.workers i).progress.getD 0 := by
    have hle := undelivered_of_harmless hs i hd
    rw [hwire,List.length_append,List.length_append] at hle
    omega
  have hpushes := (TxHandover.reachable (fun _ _ h => h) (tx_reachable_of_harmless hs)).pushes i
  rw [hgot] at hwire
  cases hprog : (s.tx.workers i).progress with
  | none =>
    simp only [TxWorker.Pushes,hprog] at hpushes
    have hstream : Packet.code.encodeAll (s.rx.workers i).carried ++ (part ++ (s.conn i ++ lost)) =
        Packet.code.encodeAll (s.stream cfg i) := by
      rw [Session.stream,← hpushes,hwire]
      simp only [List.append_assoc]
    obtain ⟨legs,hlegs,hbytes⟩ := Packet.code.exists_rest hstream
    exact ⟨legs,part,lost,[],hlegs,by simpa using hbytes,hpend,hopen,hdropped,
      by simp [TxWorker.Unsent,hprog]⟩
  | some pos =>
    simp only [TxWorker.Pushes,hprog] at hpushes
    obtain ⟨done,p,hlane,hload,hlt,hpushes⟩ := hpushes
    have hstream : Packet.code.encodeAll (s.rx.workers i).carried ++
        (part ++ (s.conn i ++ (lost ++ (cfg.tx.pushed p).frame.drop pos))) =
        Packet.code.encodeAll (s.stream cfg i) := by
      have hall := congrArg (· ++ (cfg.tx.pushed p).frame.drop pos) (hwire.symm.trans hpushes)
      simpa [Session.stream,hlane] using hall
    obtain ⟨legs,hlegs,hbytes⟩ := Packet.code.exists_rest hstream
    refine ⟨legs,part,lost,_,hlegs,hbytes,hpend,hopen,hdropped,?_⟩
    simp only [TxWorker.Unsent,hprog]
    -- the packet being pushed is not complete, hence it is the last of these
    rcases List.eq_nil_or_concat' legs with rfl | ⟨rest,q,rfl⟩
    · simp only [PrefixCode.Code.encodeAll_nil,List.nil_eq,List.append_eq_nil_iff,
        List.drop_eq_nil_iff] at hbytes
      omega
    · have hq : q = cfg.tx.pushed p := by
        rw [Session.stream,hlane,List.map_append,← List.append_assoc] at hlegs
        simpa using (List.append_inj_right' hlegs rfl).symm
      exact ⟨rest,q,rfl,by rw [hq]; exact hload.header,hq ▸ hlt,by rw [hq]⟩

namespace OnConnection

variable {s : Session W} {i : Fin W} {legs : List Packet} {part lost unsent : List UInt8}

theorem mem_log (h : OnConnection cfg s i legs part lost unsent) {p : Packet} (hp : p ∈ legs) :
    ∃ d ∈ s.tx.log, p = cfg.tx.pushed d.packet := by
  have hmem : p ∈ s.stream cfg i := h.stream ▸ List.mem_append_right _ hp
  simp only [Session.stream,TxState.lane,List.mem_map,Lanes.mem_lane] at hmem
  obtain ⟨_,⟨d,⟨hd,-⟩,rfl⟩,rfl⟩ := hmem
  exact ⟨d,hd,rfl⟩

theorem frame_length_le (h : OnConnection cfg s i legs part lost unsent) (hlog : TxLog s.tx)
    {p : Packet} (hp : p ∈ legs) : p.frame.length ≤ Millipacket.sizeof+kfootsize := by
  obtain ⟨d,hd,rfl⟩ := h.mem_log hp
  have hlen := hlog.length_le hd
  simp only [Packet.frame_length,TxConfig.pushed_length]
  omega

theorem unsent_length_le (h : OnConnection cfg s i legs part lost unsent) (hlog : TxLog s.tx) :
    unsent.length ≤ Millipacket.sizeof+kfootsize ∧
      (s.tx.workers i).progress.getD 0 ≤ Millipacket.sizeof+kfootsize := by
  have hunsent := h.unsent
  unfold TxWorker.Unsent at hunsent
  split at hunsent
  · rename_i hprog
    simp [hunsent,hprog]
  · rename_i pos hprog
    obtain ⟨rest,p,rfl,-,hlt,rfl⟩ := hunsent
    have hp := h.frame_length_le hlog (List.mem_append_right rest (List.mem_singleton_self p))
    rw [hprog,List.length_drop,Option.getD_some]
    omega

/-- The socket buffer bounds the packets that are on a connection. -/
theorem backlog_le (h : OnConnection cfg s i legs part lost unsent) (hl : Linked cfg s)
    (hlog : TxLog s.tx) : Millipacket.sizeof*legs.length ≤
      cfg.sockbuf.toNat+3*(Millipacket.sizeof+kfootsize) := by
  have hword (p : Packet) : Millipacket.sizeof ≤ (Packet.code.word p).length := by simp
  have hwords := Packet.code.mul_length_le hword legs
  have hlost : lost.length ≤ Millipacket.sizeof+kfootsize := by
    cases hd : s.dropped i with
    | false => simp [h.opened hd]
    | true =>
      have := h.dropped hd
      have := (h.unsent_length_le hlog).2
      omega
  have hpart : part.length ≤ Millipacket.sizeof+kfootsize := by
    cases legs with
    | nil =>
      have hnil := h.bytes
      simp only [PrefixCode.Code.encodeAll_nil,List.nil_eq,List.append_eq_nil_iff] at hnil
      simp [hnil]
    | cons p rest =>
      have hword : Packet.code.word p <+: part ++ (s.conn i ++ (lost ++ unsent)) :=
        ⟨_,(Packet.code.encodeAll_cons p rest).symm.trans h.bytes⟩
      exact (Packet.code.length_lt_of_partial h.pending.incomplete hword).le.trans
        (h.frame_length_le hlog List.mem_cons_self)
  have hunsent := (h.unsent_length_le hlog).1
  have hroom := hl.room i
  rw [h.bytes] at hwords
  simp only [List.length_append] at hwords
  omega

/-- Legs that are sent completely are read or in flight, and their connection is open. -/
theorem sent (h : OnConnection cfg s i legs part lost unsent) {rest : List Packet}
    {tail : List UInt8} (hne : rest ≠ [])
    (hlegs : Packet.code.encodeAll legs = Packet.code.encodeAll rest ++ (tail ++ unsent))
    (htail : (s.tx.workers i).progress.getD 0 ≤ tail.length) :
    s.dropped i = false ∧ part ++ s.conn i = Packet.code.encodeAll rest ++ tail := by
  have hbytes : part ++ (s.conn i ++ lost) = Packet.code.encodeAll rest ++ tail := by
    have hall := h.bytes.symm.trans hlegs
    simp only [← List.append_assoc] at hall
    simpa only [List.append_assoc] using List.append_cancel_right hall
  have hopen : s.dropped i = false := by
    by_contra hd
    have hle := h.dropped (by simpa using hd)
    obtain ⟨p,more,rfl⟩ := List.exists_cons_of_ne_nil hne
    have hword : Packet.code.word p <+: part ++ (s.conn i ++ lost) := by
      rw [hbytes,PrefixCode.Code.encodeAll_cons,List.append_assoc]
      exact List.prefix_append _ _
    have hlt := Packet.code.length_lt_of_partial h.pending.incomplete hword
    have hlen := congrArg List.length hbytes
    simp only [List.length_append,PrefixCode.Code.encodeAll_cons] at hlen
    omega
  refine ⟨hopen,?_⟩
  rwa [h.opened hopen,List.append_nil] at hbytes

end OnConnection

end Viamillipede
