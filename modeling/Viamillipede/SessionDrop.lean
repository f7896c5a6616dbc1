import Viamillipede.SessionOutput

/-! Where the legs are when connections drop.

A push is given up as soon as the socket has taken all bytes, and no call on a connection
that was dropped is repeated: it ends the process. A drop is survived as long as it
touches no complete leg and no call fails for it; `read` may come to its end. -/
namespace Viamillipede

open Bytes Transition

variable {W : ℕ} {cfg : SessionConfig}

/-- A worker ends the process only when a call on its connection fails. -/
theorem workerStep_exited {cfg : TxConfig} {w : TxWorker} {i : Fin W}
    {mutex : Option (TxThread W)} {done : Bool} {a : WorkerAction} {m : WorkerMove W}
    {lane : List Packet} {wire : List UInt8} (hc : WorkerControl w)
    (hw : w.Pushes cfg lane wire) (hp : w.Primed) (herrno : w.errno = false)
    (ha : a = .run ∨ a = .connected ∨ ∃ n, a = .accept n)
    (h : workerStep cfg i mutex done w a = some m) : m.exited = none := by
  rcases ha with rfl | rfl | ⟨n,rfl⟩
  · cases hpc : w.pc with
    | remainder =>
      -- the size of a packet that was handed over has been checked
      simp only [TxWorker.Pushes,TxWorker.progress,hpc] at hw
      obtain ⟨_,p,-,hload,-⟩ := hw
      have hlen := hload.length_le
      have hsize : w.pkt.size.toNat = p.payload.length := by rw [p.size_eq,← hload.header]
      have hint : toInt w.pkt.size ≤ kfootsize := by
        rw [toInt_of_le (by omega),hsize]
        exact_mod_cast hlen
      simp only [workerStep,workerRun,hpc,if_pos hint,Option.some.injEq] at h
      rw [← h]
    | _ =>
      simp only [workerStep,workerRun,WorkerControl,hpc] at h hc
      all_goals grind
  · cases hpc : w.pc <;> simp only [workerStep,hpc,reduceCtorEq] at h
    cases h
    rfl
  · cases hpc : w.pc <;> simp only [workerStep,hpc,reduceCtorEq] at h
    simp only [TxWorker.Pushes,TxWorker.progress,hpc] at hw
    obtain ⟨_,p,-,hload,-⟩ := hw
    rw [hload.gathered hp hpc] at h
    split at h
    · cases h
    · split at h <;> cases h
      · rfl
      · rename_i pos _ hle hlt
        have hend : pos+n = (cfg.pushed p).frame.length := by omega
        have hall := (hload.wroteAll_iff hpc hend.le).mpr hend
        simp only [writevReturned,if_pos hall,herrno]
        rfl

theorem harmless_of_lossless {s : Session W} (hs : Reachable (sessionMachine cfg W) Lossless s) :
    Reachable (sessionMachine cfg W) Harmless s := hs.mono fun _ _ => And.left

/-- No `usleep` of the transmitter has been interrupted. -/
theorem errno_of_lossless {s : Session W} (hs : Reachable (sessionMachine cfg W) Lossless s)
    (i : Fin W) : (s.tx.workers i).errno = false := by
  have hquiet : Reachable (txMachine cfg.tx W) (fun _ a => a.interrupts = false) s.tx :=
    Session.tx_reachable (fun _ _ => rfl) (fun _ _ ha => ha.2 _ rfl) hs
  exact errno_of_reachable (fun _ _ h => h) hquiet i

theorem tx_alive {s : Session W} (hs : Reachable (sessionMachine cfg W) Lossless s) :
    s.tx.exited = none := by
  induction hs with
  | init h => cases h; rfl
  | @step s t a hr ha h ih =>
    have htx := tx_reachable_of_harmless (harmless_of_lossless hr)
    have hworker {i : Fin W} {b : WorkerAction} {tx : TxState W}
        (hb : b = .run ∨ b = .connected ∨ ∃ n, b = .accept n)
        (hstep : txStep cfg.tx s.tx (.worker i b) = some tx) : tx.exited = none := by
      simp only [txStep,ih] at hstep
      obtain ⟨m,hm,rfl⟩ := Option.map_eq_some_iff.mp hstep
      have hdata : TxHandover cfg.tx s.tx := .reachable (fun _ _ h => h) htx
      exact workerStep_exited ((TxControl.reachable htx).worker i) (hdata.pushes i)
        (hdata.primed i) (errno_of_lossless hr i) hb hm
    cases sessionStep_cases h with
    | connect i tx rx hconnect _ ht => rw [ht]; exact hworker (.inr (.inl rfl)) hconnect
    | tx b tx hmay hstep ht =>
      rw [ht]
      change tx.exited = none
      cases txStep_cases hstep with
      | ingest _ heffect => exact heffect.exited.trans ih
      | fillFailed hb _ => subst hb; cases hmay
      | worker i c _ hb _ _ =>
        subst hb
        refine hworker ?_ hstep
        cases c with
        | run => exact .inl rfl
        | accept n => exact .inr (.inr ⟨n,rfl⟩)
        | writevShort | writevFailed => cases ha.1.1
        | interrupted => cases ha.2 _ rfl
        | _ => cases hmay
      | poll _ htx =>
        obtain ⟨p,hp⟩ := pollStep_eq s.tx
        rw [htx,hp]
        exact ih
    | rx _ _ _ _ ht | readv _ _ _ _ _ _ ht | read _ _ _ _ _ ht | drop _ _ _ _ _ ht =>
      rw [ht]; exact ih

section Receiver

variable {n : ℕ} {cfg : RxConfig}

theorem RxWorker.sequence_error {w : RxWorker} {e : Exit} (h : w.sequence cfg = .error e) :
    e = .exit 133 := by
  unfold sequence at h
  split at h <;> cases h
  rfl

end Receiver

/-- What a receive worker takes for a header is one. -/
theorem OnConnection.header_size {s : Session W} {i : Fin W} {legs : List Packet}
    {part lost unsent : List UInt8} (h : OnConnection cfg s i legs part lost unsent)
    (hlog : TxLog s.tx) (hpc : (s.rx.workers i).pc = .header) (junk : Millipacket)
    (hlen : Millipacket.sizeof ≤ (s.conn i).length) :
    (junk.overlay ((s.conn i).take Millipacket.sizeof)).size.toNat ≤ kfootsize := by
  have hpend := h.pending
  simp only [RxWorker.Pending,hpc] at hpend
  have hbytes := h.bytes
  rw [hpend.1,List.nil_append] at hbytes
  cases legs with
  | nil =>
    simp only [PrefixCode.Code.encodeAll_nil,List.nil_eq,List.append_eq_nil_iff] at hbytes
    simp [hbytes.1,Millipacket.sizeof] at hlen
  | cons p rest =>
    have hheader : (s.conn i).take Millipacket.sizeof = p.header.bytes := by
      have htake := congrArg (List.take Millipacket.sizeof) hbytes
      rw [List.take_append_of_le_length hlen,PrefixCode.Code.encodeAll_cons,Packet.code_word,
        Packet.frame,List.append_assoc,List.take_left' (Millipacket.bytes_length _)] at htake
      exact htake.symm
    obtain ⟨d,hd,rfl⟩ := h.mem_log List.mem_cons_self
    rw [hheader,Millipacket.overlay_bytes,TxConfig.pushed_header,← Packet.size_eq]
    exact hlog.length_le hd

end Viamillipede
