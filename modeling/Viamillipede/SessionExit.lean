import Viamillipede.SessionFinish

/-! Both polls of `main` can say that everything is done.

`rx_poll` needs `done_mbox`. `tx_poll` needs more: it waits for every worker to be idle, also
for one that is still connecting, and reads `input_eof` last. -/
namespace Viamillipede

open Bytes Transition

variable {W : ℕ} {cfg : SessionConfig} {s t : Session W}

section Poll

/-- `tx_poll` has moved. -/
def Session.polled (s : Session W) (poll : Poll) : Session W :=
  { s with tx := { s.tx with poll := poll } }

/-- How far `tx_poll` is from its return with 1, while every worker is idle. -/
def Poll.left (W : ℕ) (p : Poll) : ℕ :=
  match p.pc with
  | .returned true => 0
  | .eof => 1
  | .scan cursor => W-cursor+2
  | .pass => W+3
  | .returned false => W+4

theorem next_poll (halive : s.tx.exited = none)
    (hstart : ∀ i, (s.tx.workers i).pc.starting = false) {p : Poll}
    (h : pollStep s.tx = { s.tx with poll := p }) :
    (sessionMachine cfg W).Next Calm s (s.polled p) := by
  refine ⟨.tx .poll,calm_of_others ⟨rfl,rfl,rfl⟩ hstart (by simp),?_⟩
  simp [sessionMachine,sessionStep,Session.txMay,txStep,halive,h,Session.withTx,Session.polled]

variable (cfg) in
/-- With all workers idle and the end of the input seen, `tx_poll` returns 1. -/
theorem exists_polled (halive : s.tx.exited = none)
    (hstart : ∀ i, (s.tx.workers i).pc.starting = false)
    (hidle : ∀ i, (s.tx.workers i).state = .idle) (heof : s.tx.inputEof = true) :
    ∃ p, (sessionMachine cfg W).Leads Calm s (s.polled p) ∧ p.pc = .returned true := by
  induction hleft : s.tx.poll.left W using Nat.strongRecOn generalizing s with
  | ind n ih =>
    have hgo {p : Poll} (h : pollStep s.tx = { s.tx with poll := p })
        (hlt : p.left W < s.tx.poll.left W) :
        ∃ p, (sessionMachine cfg W).Leads Calm s (s.polled p) ∧ p.pc = .returned true := by
      obtain ⟨q,hleads,hq⟩ := ih (p.left W) (hleft ▸ hlt) (s := s.polled p) halive hstart hidle heof rfl
      exact ⟨q,.head (next_poll halive hstart h) hleads,hq⟩
    cases hpc : s.tx.poll.pc with
    | returned done =>
      cases done with
      | true => exact ⟨s.tx.poll,.refl,hpc⟩
      | false =>
        exact hgo (p := { s.tx.poll with pc := .pass }) (by simp [pollStep,hpc])
          (by simp [Poll.left,hpc])
    | pass => exact hgo (p := ⟨.scan 0,false⟩) (by simp [pollStep,hpc]) (by simp [Poll.left,hpc])
    | scan cursor =>
      by_cases hcursor : cursor < W
      · exact hgo (p := { s.tx.poll with pc := .scan (cursor+1) })
          (by simp [pollStep,hpc,hcursor,hidle]) (by simp [Poll.left,hpc]; omega)
      · exact hgo (p := { s.tx.poll with pc := .eof }) (by simp [pollStep,hpc,hcursor])
          (by simp [Poll.left,hpc])
    | eof =>
      exact hgo (p := { s.tx.poll with pc := .returned true }) (by simp [pollStep,hpc,heof])
        (by simp [Poll.left,hpc])

end Poll

/-- A worker that has its connection keeps it. -/
theorem joined_of_session {a : SessionAction W} (hc : TxControl s.tx)
    (h : sessionStep cfg s a = some t) {i : Fin W} (hi : (s.tx.workers i).pc.joined = true) :
    (t.tx.workers i).pc.joined = true := by
  have htx {b : TxAction W} {tx : TxState W} (hstep : txStep cfg.tx s.tx b = some tx) :
      (tx.workers i).pc.joined = true := by
    cases txStep_cases hstep with
    | ingest _ heffect =>
      cases heffect.change.worker i with
      | same hw | stored _ _ _ _ hw | marked _ _ hw => rw [hw]; exact hi
    | fillFailed _ ht => exact ht ▸ hi
    | worker j b m _ hm ht =>
      subst ht
      rcases eq_or_ne i j with rfl | hne
      · by_contra hlost
        have hearly := workerStep_joined (hc.worker i) hm (by simpa [TxState.moved] using hlost)
        simp [hi] at hearly
      · simpa [TxState.moved,hne] using hi
    | poll _ ht =>
      obtain ⟨p,hp⟩ := pollStep_eq s.tx
      rw [ht,hp]
      exact hi
  cases sessionStep_cases h with
  | connect _ _ _ hconnect _ ht => exact ht ▸ htx hconnect
  | tx _ _ _ hstep ht => exact ht ▸ htx hstep
  | rx _ _ _ _ ht | readv _ _ _ _ _ _ ht | read _ _ _ _ _ ht | drop _ _ _ _ _ ht => exact ht ▸ hi

/-- At rest behind the end of the stream, a worker that has its connection is idle. -/
theorem Session.AtRest.idle_of_joined (hrest : s.AtRest cfg)
    (hbuf : Millipacket.sizeof ≤ cfg.sockbuf.toNat) (hu : Undisturbed cfg s) {i : Fin W}
    (hi : (s.tx.workers i).pc.joined = true) : (s.tx.workers i).state = .idle := by
  have hworker := hrest.worker i
  have hcontrol := hu.control.worker i
  have hprog := (hrest.clear hbuf hu i).2.1
  cases hpc : (s.tx.workers i).pc <;> simp only [TxWorker.AtRest,WorkerControl,hpc] at hworker hcontrol
  case connecting => simp [WorkerPc.joined,hpc] at hi
  case writev => simp [TxWorker.progress,hpc] at hprog
  case loop => exact hworker
  case gone => exact hcontrol.1.resolve_right (hu.shutdown.noneAbandoned hu.control i hpc).1

/-- Both processes are done, and everything that was handed over is written. -/
structure Exits (cfg : SessionConfig) (s : Session W) : Prop where
  tx : s.tx.poll.pc = .returned true
  rx : s.rx.poll = .returned true
  ended : s.tx.ended = true
  output : s.rx.output = payloads (s.sent cfg)

/-- Once every transmit worker has its connection, both processes can come to their normal
exit, in which all of the stream is written. -/
theorem exits_of_calm (h0 : 0 < W) (hW : W ≤ kthreadmax) (hcfg : cfg.Agreed)
    (hseed : cfg.tx.gprbsSeed = 0) (hbuf : Millipacket.sizeof ≤ cfg.sockbuf.toNat)
    (hs : Reachable (sessionMachine cfg W) Calm s)
    (hjoined : ∀ i, (s.tx.workers i).pc.joined = true) :
    ∃ t, (sessionMachine cfg W).Leads Calm s t ∧ Exits cfg t := by
  obtain ⟨v,hfirst,hend⟩ := exists_ended h0 hW hcfg hseed hbuf hs
  obtain ⟨u,hsecond,hrests,hdone⟩ := exists_done_of_ended hW hcfg hbuf (hs.leads hfirst) hend
  have hleads := hfirst.trans (hsecond.mono fun _ _ ha => ha.1)
  have hr := hs.leads hleads
  have hu := undisturbed_of_calm hW hcfg hr
  have hrest := atRest_of_rests hu hrests
  have hcalm (s : Session W) (a : SessionAction W) (ha : Calm s a) : Calm s a := ha
  have hkeeps := (hs.keeps hcalm (r := fun s t => (∀ i, (s.tx.workers i).pc.joined = true) →
      ∀ i, (t.tx.workers i).pc.joined = true) (fun _ h => h) (fun _ _ _ hst htu h => htu (hst h))
    (fun _ _ _ hr _ hstep h i =>
      joined_of_session (undisturbed_of_calm hW hcfg hr).control hstep (h i)) hleads).2
  have hidle (i : Fin W) : (u.tx.workers i).state = .idle :=
    hrest.idle_of_joined hbuf hu (hkeeps hjoined i)
  have hended := (hu.order.done hdone).1
  have heof : u.tx.inputEof = true := by
    have hflags := (TxLog.reachable hu.tx).flags
    simp only [TxState.ended,Bool.and_eq_true,Option.isNone_iff_eq_none] at hended
    cases hpc : u.tx.ingest.pc <;> simp_all [IngestPc.Flags,IngestPc.found]
  obtain ⟨v,htold,htx,hreturned⟩ := exists_told cfg hu.rxAlive hrest.rxmutex hrest.poll
    hrest.starting hdone
  obtain ⟨p,hpolled,hp⟩ := exists_polled cfg (s := v) (htx ▸ hu.txAlive)
    (htx ▸ hrest.starting) (htx ▸ hidle) (htx ▸ heof)
  have hall := (hleads.trans htold).trans hpolled
  have horder := inOrder_of_orderly hW (orderly_of_smooth (smooth_of_calm (hs.leads hall)))
  obtain ⟨hends,houtput⟩ := horder.done (horder.told hreturned)
  exact ⟨v.polled p,hall,hp,hreturned,hends,houtput⟩

/-- Two workers, both connected. -/
theorem exits_bothConnected :
    ∃ s ∈ exec (sessionMachine ⟨.plain,.plain,100⟩ 2) Calm (sessionInit 2) (meet 0 ++ meet 1),
      ∃ t, (sessionMachine ⟨.plain,.plain,100⟩ 2).Leads Calm s t ∧ Exits ⟨.plain,.plain,100⟩ t := by
  have hrun : ∃ s ∈ exec (sessionMachine ⟨.plain,.plain,100⟩ 2) Calm (sessionInit 2)
      (meet 0 ++ meet 1), ∀ i, (s.tx.workers i).pc.joined = true := by decide +kernel
  obtain ⟨s,hs,hjoined⟩ := hrun
  exact ⟨s,hs,exits_of_calm (by decide) (by decide) ⟨rfl,rfl,by decide⟩ rfl (by decide)
    (reachable_exec (.init rfl) hs) hjoined⟩

end Viamillipede
