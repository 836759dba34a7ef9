import ConcurrentKV.CheckpointSignals

/-! Nobody sleeps on `checkpoint_ready_` past what it waits for, until a call cancels the request
that a `WaitForCheckpoints` is waiting for: it notifies nobody, and the next request may then wake
that caller in the worker's place. -/
namespace ConcurrentKV
open Transition

namespace Signals

/-- No `WaitForCheckpoints` is left in the wait set with nothing to wait for, and the worker is
not left there with something to do. The `notify_all` that follows the end of a checkpoint counts
as given. -/
def NoLostWakeup (s : Signals) : Prop :=
  (∀ id, .caller id ∈ s.waitSet → s.checkpointRequested = true ∨ s.checkpointActive = true ∨
    s.worker = .notifying) ∧
  (.worker ∈ s.waitSet → s.checkpointRequested = false)

/-- The step cancels the request that a caller in the wait set waits for. -/
def strands (s : Signals) : SignalLabel → Bool
  | .call => match s.call with
    | some ⟨_, .entered⟩ =>
      s.checkpointRequested && !s.checkpointActive && s.worker != .notifying &&
      s.waitSet.any (· != .worker)
    | _ => false
  | _ => false

end Signals

/-- A checkpoint is being processed. -/
def WorkerPc.busy : WorkerPc → Bool
  | .loop | .notifying => false
  | _ => true

/-- What the flags and the wait set say about the worker. -/
structure WakeInv (s : Signals) : Prop where
  awake : s.NoLostWakeup
  loop : .worker ∈ s.waitSet → s.worker = .loop
  once : s.waitSet.count .worker ≤ 1
  active : s.checkpointActive = s.worker.busy

variable {s t : Signals} {l : SignalLabel}

namespace WakeInv

theorem start : WakeInv {} := ⟨⟨by simp, by simp⟩, by simp, by simp, rfl⟩

/-- A caller with nothing to wait for would be alone. -/
theorem no_caller (h : WakeInv s) (hworker : .worker ∈ s.waitSet) (id : ℕ) :
    .caller id ∉ s.waitSet := by
  intro hid
  have hactive := h.active
  rw [h.loop hworker] at hactive
  rcases h.awake.1 id hid with hreq | hact | hnot
  · rw [h.awake.2 hworker] at hreq
    cases hreq
  · rw [hactive] at hact
    cases hact
  · rw [h.loop hworker] at hnot
    cases hnot

/-- A thread leaves the wait set. -/
theorem wake (h : WakeInv s) (sleeper : Sleeper) : WakeInv (s.wake sleeper) := by
  obtain ⟨waitSet,testing,hsub,heq⟩ := s.wake_eq sleeper
  rw [heq]
  exact ⟨⟨fun id hid => h.awake.1 id (hsub.subset hid), fun hw => h.awake.2 (hsub.subset hw)⟩,
    fun hw => h.loop (hsub.subset hw), (hsub.count_le _).trans h.once, h.active⟩

/-- A request is posted, and its `notify_one` reaches the worker if the worker sleeps. -/
theorem schedule (h : WakeInv s) {woken : Sleeper} (hwoken : woken ∈ s.waitSet) :
    WakeInv ({ s with checkpointRequested := true }.wake woken) := by
  have hgone : .worker ∉ ({ s with checkpointRequested := true }.wake woken).waitSet := by
    cases woken with
    | worker =>
      have := h.once
      rw [← List.count_eq_zero]
      change (s.waitSet.erase .worker).count .worker = 0
      rw [List.count_erase_self]
      omega
    | caller id =>
      intro hw
      exact h.no_caller (List.mem_of_mem_erase hw) id hwoken
  obtain ⟨waitSet,testing,hsub,heq⟩ := { s with checkpointRequested := true }.wake_eq woken
  rw [heq] at hgone ⊢
  exact ⟨⟨fun id hid => .inl rfl, fun hw => absurd hw hgone⟩, fun hw => absurd hw hgone,
    (hsub.count_le _).trans h.once, h.active⟩

/-- Another worker state that is as busy, for a worker that does not sleep. -/
theorem moveWorker (h : WakeInv s) (pc : WorkerPc) (hfrom : s.worker.busy = true)
    (hto : pc.busy = true) : WakeInv { s with worker := pc } := by
  have hact := h.active
  rw [hfrom] at hact
  refine ⟨⟨fun id hid => .inr (.inl hact), h.awake.2⟩, fun hw => ?_, h.once, hact.trans hto.symm⟩
  rw [h.loop hw] at hfrom
  cases hfrom

theorem step (h : WakeInv s) (hl : s.strands l = false) (hsteps : s.Steps l t) : WakeInv t := by
  have hawake (hbusy : s.worker.busy = true) : .worker ∉ s.waitSet := by
    intro hw
    rw [h.loop hw] at hbusy
    cases hbusy
  cases hsteps with
  | schedule i woken hi hwoken => exact schedule (s := s.setShard i _) { h with } hwoken
  | scheduleAlone i hi hempty =>
    refine ⟨⟨fun id hid => .inl rfl, fun hw => ?_⟩, h.loop, h.once, h.active⟩
    change Sleeper.worker ∈ s.waitSet at hw
    simp [hempty] at hw
  | cancel op hcall =>
    refine ⟨⟨fun id hid => ?_, fun _ => rfl⟩, h.loop, h.once, h.active⟩
    rcases h.awake.1 id hid with hreq | hrest
    · -- the caller waits for more than the request
      by_contra hno
      rw [not_or, not_or] at hno
      obtain ⟨-,hact,hnot⟩ := hno
      change ¬s.checkpointActive = true at hact
      change ¬s.worker = .notifying at hnot
      have hany : s.waitSet.any (· != .worker) = true :=
        List.any_eq_true.mpr ⟨.caller id, hid, by simp⟩
      simp [Signals.strands, hcall, hreq, hact, hnot, hany] at hl
    · exact .inr hrest
  | take hworker hasleep hreq =>
    exact ⟨⟨fun id hid => .inr (.inl rfl), fun hw => absurd hw hasleep⟩,
      fun hw => absurd hw hasleep, h.once, rfl⟩
  | sleep hworker hasleep hreq =>
    refine ⟨⟨fun id hid => ?_, fun _ => hreq⟩, fun _ => hworker, ?_, h.active⟩
    · rcases List.mem_cons.mp hid with hid | hid
      · cases hid
      · exact h.awake.1 id hid
    · simp [List.count_eq_zero.mpr hasleep]
  | workerEnter epoch hworker => exact h.moveWorker _ (by rw [hworker]; rfl) rfl
  | proceed epoch hworker | giveUp epoch hworker => exact h.moveWorker _ (by rw [hworker]; rfl) rfl
  | workerLock hworker => exact { h.moveWorker .capturing (by rw [hworker]; rfl) rfl with }
  | capture hworker => exact { h.moveWorker (.captured false) (by rw [hworker]; rfl) rfl with }
  | captureThrows hworker =>
    exact { h.moveWorker (.captured true) (by rw [hworker]; rfl) rfl with }
  | captured failed hworker =>
    refine h.moveWorker _ (by rw [hworker]; rfl) ?_
    cases failed <;> rfl
  | saved hworker | saveThrows hworker => exact h.moveWorker _ (by rw [hworker]; rfl) rfl
  | recordError hworker =>
    have hbusy : s.worker.busy = true := by rw [hworker]; rfl
    have hm := h.moveWorker .finishing hbusy rfl
    have hact : s.checkpointActive = true := h.active.trans hbusy
    exact ⟨⟨fun id hid => .inr (.inl hact), fun _ => rfl⟩, hm.loop, hm.once, hm.active⟩
  | finish hworker =>
    have hasleep := hawake (by rw [hworker]; rfl)
    exact ⟨⟨fun id hid => .inr (.inr rfl), fun hw => absurd hw hasleep⟩,
      fun hw => absurd hw hasleep, h.once, rfl⟩
  | notifyAll hworker =>
    have hact := h.active
    rw [hworker] at hact
    exact ⟨⟨by simp [Signals.notifyAll], by simp [Signals.notifyAll]⟩,
      by simp [Signals.notifyAll], by simp [Signals.notifyAll], hact⟩
  | wait id hbusy =>
    refine ⟨⟨fun id' hid => ?_, fun hw => ?_⟩, fun hw => ?_, ?_, h.active⟩
    · rcases hbusy with hb | hb
      · exact .inl hb
      · exact .inr (.inl hb)
    · exact h.awake.2 (by simpa using hw)
    · exact h.loop (by simpa using hw)
    · simpa using h.once
  | wakeUp sleeper => exact h.wake sleeper
  | _ => exact { h with }

end WakeInv

/-- A cancelling that strands a caller loses its wake-up at once. -/
theorem Signals.strands_loses (hl : s.strands l = true) (hsteps : s.Steps l t) :
    ¬t.NoLostWakeup := by
  cases l with
  | call =>
    cases hsteps with
    | cancel op hcall =>
      simp only [Signals.strands, hcall, Bool.and_eq_true, Bool.not_eq_true', bne_iff_ne,
        ne_eq] at hl
      obtain ⟨⟨⟨-,hact⟩,hnot⟩,hany⟩ := hl
      obtain ⟨sleeper,hmem,hsleeper⟩ := List.any_eq_true.mp hany
      cases sleeper with
      | worker => cases hsleeper
      | caller id =>
        rintro ⟨hcaller,-⟩
        rcases hcaller id hmem with hreq | hact' | hnot'
        · cases hreq
        · exact absurd hact' (by rw [hact]; decide)
        · exact hnot hnot'
    | callLock op hcall | callDone op hcall | callLeave op hcall =>
      simp [Signals.strands, hcall] at hl
  | _ => cases hl

/-- No wake-up is lost in a run of any threads exactly when no call cancels, with no checkpoint
active, a request that a `WaitForCheckpoints` in the wait set is waiting for. A worker that has
finished a checkpoint and is about to call `notify_all` counts as having notified. -/
theorem no_lost_wakeup_iff {ls : List SignalLabel} (hrun : run Signals.step {} ls = some t) :
    (∀ xs ys u, ls = xs ++ ys → run Signals.step {} xs = some u → u.NoLostWakeup) ↔
      Along Signals.step (fun s l => s.strands l = false) {} ls := by
  constructor
  · intro hall
    rw [along_iff]
    rintro xs l ys u rfl hu
    by_contra hl
    rw [Bool.not_eq_false] at hl
    rw [run_append, hu, Option.bind_some] at hrun
    obtain ⟨v,hv,-⟩ := run_cons_eq_some.mp hrun
    refine Signals.strands_loses hl (Signals.steps_of_step hv) (hall (xs ++ [l]) ys v (by simp) ?_)
    rw [run_append, hu, Option.bind_some, run_cons, hv, Option.bind_some, run_nil]
  · rintro halong xs ys u rfl hu
    have hinv : WakeInv u :=
      run_along (fun s l t hC h hstep => h.step hC (Signals.steps_of_step hstep)) halong.take hu
        WakeInv.start
    exact hinv.awake

/-- A caller falls asleep, the checkpoint is taken and finished, and the caller returns. -/
def waitedCheckpoint : List SignalLabel :=
  [.waitForCheckpoints 0, .test 0] ++ List.replicate 4 .worker ++
  List.replicate kShardCount .nextLock ++ [.worker] ++ List.replicate (kShardCount+1) .nextLock ++
  List.replicate 4 .worker ++ [.test 0]

theorem no_lost_wakeup_of_waited_checkpoint :
    ∃ t, run Signals.step {} (firstDue ++ waitedCheckpoint) = some t ∧
      t.worker = .loop ∧ t.testing = [] ∧ t.waitSet = [] ∧
      ∀ xs ys u, firstDue ++ waitedCheckpoint = xs ++ ys → run Signals.step {} xs = some u →
        u.NoLostWakeup := by
  have hrest : ((run Signals.step { ({} : Signals) with
      writesSinceSnapshot := kSnapshotInterval
      checkpointRequested := true } waitedCheckpoint).any fun t =>
        decide (t.worker = .loop ∧ t.testing = [] ∧ t.waitSet = [])) = true := by decide +kernel
  obtain ⟨t,ht,hend⟩ := (Option.any_eq_true _ _).mp hrest
  obtain ⟨hworker,htest,hwait⟩ := of_decide_eq_true hend
  have hrun : run Signals.step {} (firstDue ++ waitedCheckpoint) = some t := by
    rw [run_append, run_firstDue, Option.bind_some, ht]
  refine ⟨t, hrun, hworker, htest, hwait, (no_lost_wakeup_iff hrun).mpr (along_iff.mpr ?_)⟩
  -- nobody cancels in this run
  intro xs l ys u hls _
  have hl : l ∈ firstDue ++ waitedCheckpoint := hls ▸ by simp
  cases l with
  | call =>
    simp [-List.reduceReplicate, firstDue, waitedCheckpoint, Signals.writeLabels,
      Signals.dueLabels, List.mem_replicate] at hl
  | _ => rfl

/-- `SaveSnapshot` cancels the request that a caller waits for, and the worker falls asleep
again. -/
def cancelledWait : List SignalLabel :=
  [.waitForCheckpoints 0, .test 0, .enter .saveSnapshot, .call, .call] ++
  List.replicate kShardCount .nextLock ++ [.call] ++ List.replicate (kShardCount+1) .nextLock ++
  [.call, .worker]

/-- The caller sleeps with nothing to wait for; the request after the next thousand writes wakes
it in the worker's place, and nobody is left to take it. -/
theorem caller_and_worker_oversleep :
    ∃ t u, run Signals.step {} (firstDue ++ cancelledWait) = some t ∧
      t.waitSet = [.worker, .caller 0] ∧ t.checkpointRequested = false ∧
      t.checkpointActive = false ∧ t.call = none ∧
      run Signals.step t ((List.replicate 999 Signals.writeLabels).flatten ++
        Signals.dueLabels (.caller 0)) = some u ∧
      u.waitSet = [.worker] ∧ u.checkpointRequested = true := by
  have hrest : ((run Signals.step { ({} : Signals) with
      writesSinceSnapshot := kSnapshotInterval
      checkpointRequested := true } cancelledWait).any fun t =>
        decide (t.waitSet = [.worker, .caller 0] ∧ t.checkpointRequested = false ∧
          t.checkpointActive = false ∧ t.call = none) &&
        decide (t.shards 0 = .free ∧ t.checkpointError = false ∧ t.writesSinceSnapshot = 0)) =
      true := by decide +kernel
  obtain ⟨t,ht,hend⟩ := (Option.any_eq_true _ _).mp hrest
  obtain ⟨hend,hstate⟩ := Bool.and_eq_true_iff.mp hend
  obtain ⟨hwait,hreq,hact,hcall⟩ := of_decide_eq_true hend
  obtain ⟨hfree,herr,hzero⟩ := of_decide_eq_true hstate
  refine ⟨t, { t with
    writesSinceSnapshot := kSnapshotInterval
    checkpointRequested := true }.wake (.caller 0), ?_, hwait, hreq, hact, hcall, ?_, ?_, rfl⟩
  · rw [run_append, run_firstDue, Option.bind_some, ht]
  · rw [run_append, Signals.run_writes hfree herr 999 (.inl (by rw [hzero]; decide)),
      Option.bind_some]
    exact Signals.run_due hfree herr (by rw [hzero]; rfl) (by simp [hwait])
  · change t.waitSet.erase (.caller 0) = [.worker]
    rw [hwait]
    rfl

end ConcurrentKV
