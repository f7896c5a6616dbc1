import Viamillipede.RxControl

/-! The sequencer of `rxworker`: no wakeup is lost.

`next_leg` changes under `rxmutex`, so that it cannot change between the test of a worker
and its sleep. The broadcast comes after the unlock: it is owed by the worker that has
advanced. -/
namespace Viamillipede

open Bytes Transition

variable {n : ℕ} {cfg : RxConfig}

/-- The worker has incremented `next_leg` and has yet to broadcast. -/
def RxPc.owesBroadcast : RxPc → Bool
  | .advUnlock | .broadcast => true
  | _ => false

/-- The workers that wait or are about to. -/
structure RxWaiting (s : RxState n) : Prop where
  wait : ∀ i, (s.workers i).pc = .wait → (s.workers i).pkt.legId ≠ s.nextLeg
  asleep : ∀ i, (s.workers i).pc = .asleep → (s.workers i).pkt.legId = s.nextLeg →
    ∃ j, (s.workers j).pc.owesBroadcast = true

namespace RxWaiting

theorem init : RxWaiting (rxInit n) where
  wait _ h := by cases h
  asleep _ h := by cases h

/-- A move of one worker that is not asleep and owes nothing, with `next_leg` as it is. -/
theorem of_update {s t : RxState n} {i : Fin n} {w : RxWorker} (hs : RxWaiting s)
    (hworkers : t.workers = Function.update s.workers i w) (hleg : t.nextLeg = s.nextLeg)
    (howes : (s.workers i).pc.owesBroadcast = true → w.pc.owesBroadcast = true)
    (hblocked : w.pc = .wait ∨ w.pc = .asleep → w.pkt.legId ≠ s.nextLeg) : RxWaiting t := by
  constructor <;> intro j hj
  · rw [hworkers] at hj ⊢
    rw [hleg]
    rcases eq_or_ne j i with rfl | hne
    · rw [Function.update_self] at hj ⊢
      exact hblocked (.inl hj)
    · rw [Function.update_of_ne hne] at hj ⊢
      exact hs.wait j hj
  · rw [hworkers] at hj ⊢
    rw [hleg]
    intro hid
    rcases eq_or_ne j i with rfl | hne
    · rw [Function.update_self] at hj hid
      exact absurd hid (hblocked (.inr hj))
    · rw [Function.update_of_ne hne] at hj hid
      obtain ⟨k,hk⟩ := hs.asleep j hj hid
      refine ⟨k,?_⟩
      rcases eq_or_ne k i with rfl | hki
      · rw [Function.update_self]; exact howes hk
      · rw [Function.update_of_ne hki]; exact hk

theorem move {s t : RxState n} (hs : RxWaiting s) (hm : RxMutex s) (h : RxMove cfg s t) :
    RxWaiting t := by
  cases h with
  | ended e => exact ⟨hs.wait,hs.asleep⟩
  | fetch i w hfetch =>
    obtain ⟨hpc,hw⟩ := hfetch.pc
    refine hs.of_update rfl rfl (fun h => ?_) fun h => ?_
    · revert h hpc; cases (s.workers i).pc <;> simp [RxPc.fetching,RxPc.owesBroadcast]
    · rcases h with h | h <;> rw [h] at hw <;> rcases hw with hw | hw | hw <;> cases hw
  | acquire i pc hfree hpc =>
    simp only [List.mem_cons,Prod.mk.injEq,List.not_mem_nil,or_false] at hpc
    refine hs.of_update rfl rfl (fun h => ?_) fun h => ?_
    · rcases hpc with ⟨hpc,rfl⟩ | ⟨hpc,rfl⟩ | ⟨hpc,rfl⟩ | ⟨hpc,rfl⟩ <;> rw [hpc] at h <;> cases h
    · rcases hpc with ⟨hpc,rfl⟩ | ⟨hpc,rfl⟩ | ⟨hpc,rfl⟩ | ⟨hpc,rfl⟩ <;> rcases h with h | h <;> cases h
  | block i hpc hid =>
    exact hs.of_update rfl rfl (fun h => by rw [hpc] at h; cases h) fun _ => hid
  | sleep i hpc =>
    exact hs.of_update rfl rfl (fun h => by rw [hpc] at h; cases h) fun _ => hs.wait i hpc
  | pass i hpc | wake i hpc | restart i hpc | enter i hpc | writeSome i _ _ hpc
  | writeAll i _ _ hpc | done i hpc =>
    exact hs.of_update rfl rfl (fun h => by rw [hpc] at h; cases h) fun h => by
      rcases h with h | h <;> cases h
  | opcode i pc sum hpc hto =>
    refine hs.of_update rfl rfl (fun h => by rw [hpc] at h; cases h) fun h => ?_
    rcases hto with ⟨rfl,_⟩ | ⟨rfl,_⟩ <;> rcases h with h | h <;> cases h
  | release i pc hpc =>
    simp only [List.mem_cons,Prod.mk.injEq,List.not_mem_nil,or_false] at hpc
    refine hs.of_update rfl rfl (fun h => ?_) fun h => ?_
    · rcases hpc with ⟨hpc,rfl⟩ | ⟨hpc,rfl⟩
      · rw [hpc] at h; cases h
      · rfl
    · rcases hpc with ⟨hpc,rfl⟩ | ⟨hpc,rfl⟩ <;> rcases h with h | h <;> cases h
  | advance i hpc =>
    -- this worker owns the lock, hence no other is between its test and its sleep
    have hcrit : (s.workers i).pc.critical = true := by rw [hpc]; rfl
    have howes : ((s.goto i .advUnlock).workers i).pc.owesBroadcast = true := by
      simp [RxState.goto,RxState.setWorker,RxPc.owesBroadcast]
    refine ⟨fun j hj => ?_,fun _ _ _ => ⟨i,howes⟩⟩
    rcases eq_or_ne j i with rfl | hne
    · simp [RxState.goto,RxState.setWorker] at hj
    · simp only [RxState.goto,RxState.setWorker,Function.update_of_ne hne] at hj
      exact absurd (hm.unique (by rw [hj]; rfl) hcrit) hne
  | broadcast i hpc =>
    -- nobody sleeps any more, so that no broadcast is owed
    constructor <;> intro j hj <;>
      obtain ⟨-,hw⟩ | ⟨hsleep,hw⟩ := (s.goto i .inner).awaken_cases j <;> rw [hw] at hj ⊢
    · cases hj
    · by_cases hji : j = i
      · rw [hji,s.goto_self] at hj
        cases hj
      · rw [s.goto_other hji] at hj ⊢
        exact hs.wait j hj
    · cases hj
    · exact absurd hj hsleep
  | poll t h =>
    obtain ⟨p,m,rfl⟩ := rxPollStep_eq h
    exact ⟨hs.wait,hs.asleep⟩

theorem reachable {ok : RxState n → RxAction n → Prop} {s : RxState n}
    (hs : Reachable (rxMachine cfg n) ok s) : RxWaiting s :=
  hs.invariant (by rintro s rfl; exact init) fun _ _ _ hr h _ hstep =>
    h.move (.reachable hr) (rxStep_cases hstep)

end RxWaiting

/-- No lost wakeup: a worker asleep on the leg that is next has a broadcast coming, from
another worker that has incremented `next_leg`. -/
theorem broadcast_owed {s : RxState n} (hs : Reachable (rxMachine cfg n) anyStep s) {i : Fin n}
    (hpc : (s.workers i).pc = .asleep) (hleg : (s.workers i).pkt.legId = s.nextLeg) :
    ∃ j, j ≠ i ∧ (s.workers j).pc.owesBroadcast = true := by
  obtain ⟨j,hj⟩ := (RxWaiting.reachable hs).asleep i hpc hleg
  refine ⟨j,fun h => ?_,hj⟩
  rw [h,hpc] at hj
  cases hj

/-- Worker 1 falls asleep with leg 1; worker 0 writes leg 0 and increments `next_leg`. -/
def sleeperRun : List (RxAction 2) :=
  rxConnect 0 ++ rxConnect 1 ++ rxReadWhole 1 (oneByteLeg 1 8) ++ rxSteps 1 3 ++
    rxReadWhole 0 (oneByteLeg 0 7) ++ rxSteps 0 3 ++ [.write 0 1] ++ rxSteps 0 3

theorem broadcast_owed_sleeperRun :
    ∃ s ∈ exec (rxMachine .plain 2) anyStep (rxInit 2) sleeperRun,
      (s.workers 1).pc = .asleep ∧ s.nextLeg = 1 ∧
        ∃ j, j ≠ 1 ∧ (s.workers j).pc.owesBroadcast = true := by
  have hrun : ∃ s ∈ exec (rxMachine .plain 2) anyStep (rxInit 2) sleeperRun,
      (s.workers 1).pc = .asleep ∧ s.nextLeg = 1 ∧ (s.workers 1).pkt.legId = s.nextLeg := by
    decide
  obtain ⟨s,hs,hpc,hnext,hleg⟩ := hrun
  exact ⟨s,hs,hpc,hnext,broadcast_owed (reachable_exec (.init rfl) hs) hpc hleg⟩

end Viamillipede
