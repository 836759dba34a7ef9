import ConcurrentKV.CheckpointSignals

/-! The trigger of automatic checkpoints. It fires when the counter reaches the interval and not
behind it, so a call that cancels the request has to set the counter back; one that throws behind
its cancelling, and every `LoadSnapshot`, does not. -/
namespace ConcurrentKV
open Transition

namespace Signals

/-- A `Set` or `Delete` has found a checkpoint due and is about to request it. -/
def DueInFlight (s : Signals) : Prop := ∃ i, s.shards i = .writer (.counted true)

/-- The worker has taken the request in the current epoch. -/
def takenNow (s : Signals) : Bool :=
  match s.worker with
  | .taken epoch => epoch == s.checkpointEpoch
  | _ => false

/-- The worker processes a request that is not cancelled, up to the capture that sets the counter
back or to the record of its error. -/
def processing (s : Signals) : Bool :=
  match s.worker with
  | .taken epoch | .entered epoch => epoch == s.checkpointEpoch
  | .admitted | .capturing | .captured true | .failed => true
  | _ => false

/-- Automatic checkpointing has not stopped: when the counter is at the interval or behind it and
no call that cancels is under way, a request is pending or about to be, or the worker has it. -/
def Triggers (s : Signals) : Prop :=
  s.call = none → s.checkpointError = false → kSnapshotInterval ≤ s.writesSinceSnapshot →
    s.checkpointRequested = true ∨ s.DueInFlight ∨ s.processing = true

end Signals

/-- The signals, and whether the call that holds `snapshot_mutex_` has cancelled a checkpoint
that was due. -/
structure Trigger where
  signals : Signals
  dropped : Bool := false

namespace Trigger

def step (s : Trigger) (l : SignalLabel) : Option Trigger :=
  (s.signals.step l).map fun t => ⟨t, match l, s.signals.call with
    | .call, some ⟨_, .entered⟩ => decide (kSnapshotInterval ≤ s.signals.writesSinceSnapshot) &&
      (s.signals.checkpointRequested || s.signals.takenNow)
    | _, _ => s.dropped⟩

/-- A call that has cancelled a due checkpoint ends without setting the counter back. -/
def abandons (s : Trigger) : SignalLabel → Bool
  | .callThrows => s.dropped
  | .call => match s.signals.call with
    | some ⟨op, .locked⟩ => s.dropped && !op.resets
    | _ => false
  | _ => false

end Trigger

/-! ### Locks -/

/-- The shards that the holder of `mutex_` has locked. -/
def LockStage.holds : LockStage → Shard → Prop
  | .acquiring n, i => i.val < n
  | .releasing n, i => n ≤ i.val

/-- What the holder of `mutex_` has locked nobody else has. -/
def AllLocked (s : Signals) : Prop :=
  ∀ holder stage, s.mutex = some (holder, stage) → ∀ i, stage.holds i → s.shards i = .all

variable {s t : Signals} {l : SignalLabel}

namespace AllLocked

theorem setShard (h : AllLocked s) {i : Shard} {lock : ShardLock} (hi : s.shards i ≠ .all) :
    AllLocked (s.setShard i lock) := by
  intro holder stage hmutex j hj
  have hall := h holder stage hmutex j hj
  have hji : j ≠ i := by
    rintro rfl
    exact hi hall
  exact (Function.update_of_ne hji _ _).trans hall

theorem release {holder : MutexHolder} (h : AllLocked s) (hall : s.hasAll holder = true) :
    AllLocked (s.release holder) := by
  rintro _ _ ⟨⟩ i -
  exact h holder _ (beq_iff_eq.mp hall) i i.isLt

theorem wake (h : AllLocked s) (sleeper : Sleeper) : AllLocked (s.wake sleeper) := by
  obtain ⟨waitSet,testing,-,heq⟩ := s.wake_eq sleeper
  rw [heq]
  exact h

theorem step (h : AllLocked s) (hsteps : s.Steps l t) : AllLocked t := by
  cases hsteps with
  | lockShard i hi | appendThrows i hi | count i hi | scheduleAlone i hi =>
    exact h.setShard (by rw [hi]; simp)
  | schedule i woken hi =>
    exact wake (s := { s.setShard i _ with checkpointRequested := true })
      (h.setShard (by rw [hi]; simp)) woken
  | unlockShard i hi =>
    refine h.setShard ?_
    rcases hi with hi | hi <;> rw [hi] <;> simp
  | callDone _ _ hall | callThrows _ _ hall => exact h.release hall
  | clear hall => exact h.release hall
  | capture _ hall | captureThrows _ hall => exact h.release hall
  | callLock | enterClear | workerLock =>
    rintro _ _ ⟨⟩ i hi
    exact absurd hi (Nat.not_lt_zero _)
  | lockNext holder n hn hmutex hfree =>
    rintro _ _ ⟨⟩ i hi
    by_cases hin : i = ⟨n,hn⟩
    · subst hin
      exact Function.update_self ..
    · have hlt : i.val < n := Nat.lt_of_le_of_ne (Nat.le_of_lt_succ hi) fun h => hin (Fin.ext h)
      exact (Function.update_of_ne hin _ _).trans (h _ _ hmutex i hlt)
  | unlockNext holder n hn hmutex =>
    rintro _ _ ⟨⟩ i hi
    have hin : i ≠ ⟨n,hn⟩ := by
      rintro rfl
      exact absurd hi (Nat.not_succ_le_self n)
    exact (Function.update_of_ne hin _ _).trans (h _ _ hmutex i (Nat.le_of_succ_le hi))
  | unlocked =>
    rintro _ _ ⟨⟩
  | wakeUp sleeper => exact h.wake sleeper
  | _ => exact h

end AllLocked

/-! ### The request -/

/-- A checkpoint that is due is somewhere on its way. -/
def OnItsWay (s : Signals) : Prop :=
  s.checkpointError = true ∨ s.writesSinceSnapshot < kSnapshotInterval ∨
    s.checkpointRequested = true ∨ s.DueInFlight ∨ s.processing = true

theorem Signals.DueInFlight.setShard (h : s.DueInFlight) {i : Shard} (lock : ShardLock)
    (hi : s.shards i ≠ .writer (.counted true)) : (s.setShard i lock).DueInFlight := by
  obtain ⟨j,hj⟩ := h
  have hji : j ≠ i := by
    rintro rfl
    exact hi hj
  exact ⟨j, (Function.update_of_ne hji _ _).trans hj⟩

theorem kSnapshotInterval_pos : 0 < kSnapshotInterval := by decide

namespace OnItsWay

/-- The lock of a shard passes on, but not from a call that has found a checkpoint due. -/
theorem setShard (h : OnItsWay s) {i : Shard} (lock : ShardLock)
    (hi : s.shards i ≠ .writer (.counted true)) : OnItsWay (s.setShard i lock) := by
  rcases h with h | h | h | h | h
  · exact .inl h
  · exact .inr (.inl h)
  · exact .inr (.inr (.inl h))
  · exact .inr (.inr (.inr (.inl (h.setShard lock hi))))
  · exact .inr (.inr (.inr (.inr h)))

/-- The worker goes on. -/
theorem worker (h : OnItsWay s) (herr : t.checkpointError = s.checkpointError)
    (hwrites : t.writesSinceSnapshot = s.writesSinceSnapshot)
    (hreq : t.checkpointRequested = s.checkpointRequested) (hshards : t.shards = s.shards)
    (hpc : s.processing = true → t.processing = true) : OnItsWay t := by
  unfold OnItsWay Signals.DueInFlight
  rw [herr, hwrites, hreq, hshards]
  rcases h with h | h | h | h | h
  · exact .inl h
  · exact .inr (.inl h)
  · exact .inr (.inr (.inl h))
  · exact .inr (.inr (.inr (.inl h)))
  · exact .inr (.inr (.inr (.inr (hpc h))))

/-- A request goes the way to its capture, unless a call cancels it. -/
theorem step (h : OnItsWay s) (hcall : s.call ≠ none → s.workerInside = false)
    (hlock : AllLocked s) (hsteps : s.Steps l t) :
    OnItsWay t ∨ (∃ op, l = .call ∧ s.call = some ⟨op, .entered⟩ ∧ t.call = some ⟨op, .cancelled⟩) ∧
      kSnapshotInterval ≤ s.writesSinceSnapshot ∧
      (s.checkpointRequested = true ∨ s.takenNow = true) := by
  have hprocessing (hpc : s.processing = false) {p : Prop} : s.processing = true → p := by
    rw [hpc]
    rintro ⟨⟩
  cases hsteps with
  | lockShard i hi | appendThrows i hi => exact .inl (h.setShard _ (by rw [hi]; simp))
  | unlockShard i hi =>
    refine .inl (h.setShard _ ?_)
    rcases hi with hi | hi <;> rw [hi] <;> simp
  | count i hi =>
    left
    have hne : s.shards i ≠ .writer (.counted true) := by rw [hi]; simp
    rcases h with h | h | h | h | h
    · exact .inl h
    · by_cases hdue : s.writesSinceSnapshot+1 = kSnapshotInterval
      · refine .inr (.inr (.inr (.inl ⟨i, ?_⟩)))
        change Function.update s.shards i _ i = _
        rw [Function.update_self, beq_iff_eq.mpr hdue]
      · exact .inr (.inl (Nat.lt_of_le_of_ne h hdue))
    · exact .inr (.inr (.inl h))
    · exact .inr (.inr (.inr (.inl (h.setShard _ hne))))
    · exact .inr (.inr (.inr (.inr h)))
  | schedule i woken hi =>
    obtain ⟨waitSet,testing,-,heq⟩ :=
      { s.setShard i (.writer .scheduled) with checkpointRequested := true }.wake_eq woken
    rw [heq]
    exact .inl (.inr (.inr (.inl rfl)))
  | scheduleAlone => exact .inl (.inr (.inr (.inl rfl)))
  | cancel op hop =>
    rcases h with h | h | h | h | h
    · exact .inl (.inl h)
    · exact .inl (.inr (.inl h))
    · by_cases hw : s.writesSinceSnapshot < kSnapshotInterval
      · exact .inl (.inr (.inl hw))
      · exact .inr ⟨⟨op, rfl, hop, rfl⟩, Nat.le_of_not_lt hw, .inl h⟩
    · exact .inl (.inr (.inr (.inr (.inl h))))
    · -- the call has `snapshot_mutex_`, so the worker is before or behind it
      have hout := hcall (by rw [hop]; simp)
      unfold Signals.processing at h
      unfold Signals.workerInside at hout
      split at h
      · rename_i epoch hworker
        by_cases hw : s.writesSinceSnapshot < kSnapshotInterval
        · exact .inl (.inr (.inl hw))
        · refine .inr ⟨⟨op, rfl, hop, rfl⟩, Nat.le_of_not_lt hw, .inr ?_⟩
          simpa [Signals.takenNow, hworker] using h
      · rename_i epoch hworker
        rw [hworker] at hout
        cases hout
      · rename_i hworker
        rw [hworker] at hout
        cases hout
      · rename_i hworker
        rw [hworker] at hout
        cases hout
      · rename_i hworker
        rw [hworker] at hout
        cases hout
      · rename_i hworker
        refine .inl (.inr (.inr (.inr (.inr ?_))))
        simp [Signals.processing, hworker]
      · cases h
  | callDone op =>
    left
    cases hres : op.resets with
    | true => exact .inr (.inl kSnapshotInterval_pos)
    | false => exact h
  | clear => exact .inl (.inr (.inl kSnapshotInterval_pos))
  | capture => exact .inl (.inr (.inl kSnapshotInterval_pos))
  | lockNext holder n hn hmutex hfree => exact .inl (h.setShard _ (by rw [hfree]; simp))
  | unlockNext holder n hn hmutex =>
    refine .inl (h.setShard _ ?_)
    rw [hlock holder _ hmutex ⟨n,hn⟩ le_rfl]
    simp
  | take hworker hawake hreq =>
    exact .inl (.inr (.inr (.inr (.inr (by simp [Signals.processing])))))
  | workerEnter epoch hworker =>
    refine .inl (h.worker rfl rfl rfl rfl fun hp => ?_)
    simpa [Signals.processing, hworker] using hp
  | proceed | workerLock | captureThrows | saveThrows => exact .inl (.inr (.inr (.inr (.inr rfl))))
  | giveUp epoch hworker hepoch =>
    refine .inl (h.worker rfl rfl rfl rfl (hprocessing ?_))
    simp [Signals.processing, hworker, hepoch]
  | captured failed hworker =>
    cases failed with
    | true => exact .inl (.inr (.inr (.inr (.inr rfl))))
    | false =>
      exact .inl (h.worker rfl rfl rfl rfl (hprocessing (by simp [Signals.processing, hworker])))
  | recordError => exact .inl (.inl rfl)
  | saved hworker | finish hworker | notifyAll hworker =>
    exact .inl (h.worker rfl rfl rfl rfl (hprocessing (by simp [Signals.processing, hworker])))
  | wakeUp sleeper =>
    obtain ⟨waitSet,testing,-,heq⟩ := s.wake_eq sleeper
    rw [heq]
    exact .inl h
  | _ => exact .inl h

end OnItsWay

/-- `snapshot_mutex_` has one holder. -/
def Exclusive (s : Signals) : Prop := s.call ≠ none → s.workerInside = false

theorem Exclusive.step (h : Exclusive s) (hsteps : s.Steps l t) : Exclusive t := by
  have hin (hworker : s.workerInside = true) : s.call = none := by
    by_contra hc
    rw [h hc] at hworker
    cases hworker
  cases hsteps with
  | enter op hcall hworker => exact fun _ => hworker
  | cancel op hcall | callLock op hcall => exact fun _ => h (by rw [hcall]; simp)
  | callDone op hcall | callThrows op hcall => exact fun _ => h (by rw [hcall]; simp)
  | callLeave => exact fun hc => absurd rfl hc
  | workerEnter epoch hworker hcall => exact fun hc => absurd hcall hc
  | take | giveUp | saved | saveThrows | recordError | finish | notifyAll => exact fun _ => rfl
  | proceed epoch hworker => exact fun hc => absurd (hin (by rw [Signals.workerInside, hworker])) hc
  | workerLock hworker | capture hworker | captureThrows hworker | captured _ hworker =>
    exact fun hc => absurd (hin (by rw [Signals.workerInside, hworker])) hc
  | schedule i woken =>
    obtain ⟨waitSet,testing,-,heq⟩ :=
      { s.setShard i (.writer .scheduled) with checkpointRequested := true }.wake_eq woken
    rw [heq]
    exact h
  | wakeUp sleeper =>
    obtain ⟨waitSet,testing,-,heq⟩ := s.wake_eq sleeper
    rw [heq]
    exact h
  | _ => exact h

/-- A checkpoint that is due is on its way, or a call has cancelled it and will set the counter
back. -/
structure TriggerInv (s : Trigger) : Prop where
  exclusive : Exclusive s.signals
  locks : AllLocked s.signals
  due : OnItsWay s.signals ∨ s.dropped = true ∧
    ∃ op, s.signals.call = some ⟨op, .cancelled⟩ ∨ s.signals.call = some ⟨op, .locked⟩

/-- A call that has cancelled goes on; everybody else leaves it alone. -/
theorem Signals.Steps.call_cases (hsteps : s.Steps l t) {op : CancellingOp}
    (hcall : s.call = some ⟨op, .cancelled⟩ ∨ s.call = some ⟨op, .locked⟩) :
    (t.call = some ⟨op, .cancelled⟩ ∨ t.call = some ⟨op, .locked⟩) ∨
      t.writesSinceSnapshot < kSnapshotInterval ∨
      (l = .callThrows ∨ l = .call ∧ op.resets = false) ∧ s.call = some ⟨op, .locked⟩ := by
  have hpc {op' : CancellingOp} {pc : CancellingPc} (h : s.call = some ⟨op', pc⟩) :
      op' = op ∧ (pc = .cancelled ∨ pc = .locked) := by
    rcases hcall with hc | hc
    · cases hc.symm.trans h
      exact ⟨rfl, .inl rfl⟩
    · cases hc.symm.trans h
      exact ⟨rfl, .inr rfl⟩
  cases hsteps with
  | enter op' hnone => rcases hcall with hc | hc <;> cases hnone.symm.trans hc
  | cancel op' hop =>
    obtain ⟨-,hno | hno⟩ := hpc hop <;> cases hno
  | callLock op' hop =>
    obtain ⟨rfl,-⟩ := hpc hop
    exact .inl (.inr rfl)
  | callDone op' hop =>
    obtain ⟨rfl,-⟩ := hpc hop
    cases hres : op'.resets with
    | true => exact .inr (.inl kSnapshotInterval_pos)
    | false => exact .inr (.inr ⟨.inr ⟨rfl, rfl⟩, hop⟩)
  | callThrows op' hop =>
    obtain ⟨rfl,-⟩ := hpc hop
    exact .inr (.inr ⟨.inl rfl, hop⟩)
  | callLeave op' hop =>
    obtain ⟨-,hno | hno⟩ := hpc hop <;> cases hno
  | schedule i woken =>
    obtain ⟨waitSet,testing,-,heq⟩ :=
      { s.setShard i (.writer .scheduled) with checkpointRequested := true }.wake_eq woken
    rw [heq]
    exact .inl hcall
  | wakeUp sleeper =>
    obtain ⟨waitSet,testing,-,heq⟩ := s.wake_eq sleeper
    rw [heq]
    exact .inl hcall
  | _ => exact .inl hcall

theorem TriggerInv.step {s t : Trigger} (h : TriggerInv s) (hl : s.abandons l = false)
    (hstep : s.step l = some t) : TriggerInv t := by
  obtain ⟨u,hu,rfl⟩ := Option.map_eq_some_iff.mp hstep
  have hsteps := Signals.steps_of_step hu
  refine ⟨h.exclusive.step hsteps, h.locks.step hsteps, ?_⟩
  rcases h.due with hway | ⟨hdrop,op,hcall⟩
  · rcases hway.step h.exclusive h.locks hsteps with hway | ⟨⟨op,rfl,hs,ht⟩,hwrites,hreq⟩
    · exact .inl hway
    · refine .inr ⟨?_, op, .inl ht⟩
      simp only [hs, Bool.and_eq_true, decide_eq_true_eq, Bool.or_eq_true]
      exact ⟨hwrites, hreq⟩
  · rcases hsteps.call_cases hcall with ht | hfew | ⟨hend,hlocked⟩
    · refine .inr ⟨?_, op, ht⟩
      rcases hcall with hc | hc <;> simp [hc, hdrop]
    · exact .inl (.inr (.inl hfew))
    · -- it ends without setting the counter back
      exfalso
      rcases hend with rfl | ⟨rfl,hres⟩
      · simp [Trigger.abandons, hdrop] at hl
      · simp [Trigger.abandons, hlocked, hdrop, hres] at hl

/-- Automatic checkpointing never silently stops in a run of any threads in which a call that
cancels a due checkpoint succeeds and is not `LoadSnapshot`. A checkpoint counts as requested from
the moment a `Set` or `Delete` has counted the write that makes it due, before its
`ScheduleCheckpoint`. -/
theorem checkpointing_goes_on {ls : List SignalLabel} {t : Trigger}
    (hls : Along Trigger.step (fun s l => s.abandons l = false) ⟨{}, false⟩ ls)
    (hrun : run Trigger.step ⟨{}, false⟩ ls = some t) : t.signals.Triggers := by
  have hstart : TriggerInv ⟨{}, false⟩ :=
    ⟨fun h => absurd rfl h, by rintro _ _ ⟨⟩, .inl (.inr (.inl kSnapshotInterval_pos))⟩
  have ht := run_along (fun s l t hC h hstep => TriggerInv.step h hC hstep) hls hrun hstart
  intro hcall herr hwrites
  rcases ht.due with (h | h | h) | ⟨-,op,h | h⟩
  · rw [herr] at h
    cases h
  · omega
  · exact h
  · rw [hcall] at h
    cases h
  · rw [hcall] at h
    cases h

/-- Steps of everybody but the calls that cancel. -/
theorem Trigger.run_of_signals {ls : List SignalLabel} (hls : ∀ l ∈ ls, l ≠ .call)
    (hrun : run Signals.step s ls = some t) (dropped : Bool) :
    run Trigger.step ⟨s, dropped⟩ ls = some ⟨t, dropped⟩ := by
  induction ls generalizing s with
  | nil =>
    obtain rfl := Option.some.inj hrun
    rfl
  | cons l ls ih =>
    obtain ⟨u,hu,hrun⟩ := run_cons_eq_some.mp hrun
    have hl := hls l List.mem_cons_self
    have hstep : Trigger.step ⟨s, dropped⟩ l = some ⟨u, dropped⟩ := by
      cases l with
      | call => exact absurd rfl hl
      | _ => simp only [Trigger.step, hu, Option.map_some]
    rw [run_cons, hstep, Option.bind_some]
    exact ih (fun l hl => hls l (List.mem_cons_of_mem _ hl)) hrun

theorem call_not_mem_firstDue : ∀ l ∈ firstDue, l ≠ .call := by
  rintro l hl rfl
  simp [-List.reduceReplicate, firstDue, Signals.writeLabels, Signals.dueLabels,
    List.mem_replicate] at hl

/-- One of the calls that cancel, from its entry to its return. -/
def cancellingCall (op : CancellingOp) : List SignalLabel :=
  [.enter op, .call, .call] ++ List.replicate kShardCount .nextLock ++ [.call] ++
  List.replicate (kShardCount+1) .nextLock ++ [.call]

/-- `SaveSnapshot` cancels the due checkpoint and sets the counter back. -/
theorem checkpointing_goes_on_after_save :
    ∃ t, run Trigger.step ⟨{}, false⟩ (firstDue ++ cancellingCall .saveSnapshot) = some t ∧
      t.dropped = true ∧ t.signals.writesSinceSnapshot = 0 ∧ t.signals.Triggers := by
  have hfirst := Trigger.run_of_signals call_not_mem_firstDue run_firstDue false
  have hrest : ((run Trigger.step ⟨{ ({} : Signals) with
      writesSinceSnapshot := kSnapshotInterval
      checkpointRequested := true }, false⟩ (cancellingCall .saveSnapshot)).any fun t =>
        decide (t.dropped = true ∧ t.signals.writesSinceSnapshot = 0)) = true := by decide +kernel
  obtain ⟨t,ht,hend⟩ := (Option.any_eq_true _ _).mp hrest
  obtain ⟨hdrop,hzero⟩ := of_decide_eq_true hend
  have hrun : run Trigger.step ⟨{}, false⟩ (firstDue ++ cancellingCall .saveSnapshot) = some t := by
    rw [run_append, hfirst, Option.bind_some, ht]
  have halong : Along Trigger.step (fun s l => s.abandons l = false) ⟨{}, false⟩
      (firstDue ++ cancellingCall .saveSnapshot) := by
    refine Along.append (along_iff.mpr ?_) hfirst (by decide +kernel)
    intro xs l ys u hls _
    have hl : l ∈ firstDue := hls ▸ by simp
    cases l with
    | call => exact absurd rfl (call_not_mem_firstDue _ hl)
    | callThrows =>
      simp [-List.reduceReplicate, firstDue, Signals.writeLabels, Signals.dueLabels,
        List.mem_replicate] at hl
    | _ => rfl
  exact ⟨t, hrun, hdrop, hzero, checkpointing_goes_on halong hrun⟩

/-- `LoadSnapshot` cancels the due checkpoint and leaves the counter; from then on no number of
writes requests another. -/
theorem checkpointing_stops_after_load :
    ∃ t, run Signals.step {} (firstDue ++ cancellingCall .loadSnapshot) = some t ∧
      t.call = none ∧ t.mutex = none ∧ t.checkpointError = false ∧
      t.writesSinceSnapshot = kSnapshotInterval ∧ ¬t.Triggers ∧
      ∀ n, ∃ u, run Signals.step t (List.replicate n Signals.writeLabels).flatten = some u ∧
        ¬u.Triggers := by
  have hrest : ((run Signals.step { ({} : Signals) with
      writesSinceSnapshot := kSnapshotInterval
      checkpointRequested := true } (cancellingCall .loadSnapshot)).any fun t =>
        decide (t.call = none ∧ t.mutex = none ∧ t.checkpointError = false ∧
          t.writesSinceSnapshot = kSnapshotInterval) &&
        decide (t.checkpointRequested = false ∧ (∀ i, t.shards i = .free) ∧ t.worker = .loop)) =
      true := by decide +kernel
  obtain ⟨t,ht,hend⟩ := (Option.any_eq_true _ _).mp hrest
  obtain ⟨hend,hstate⟩ := Bool.and_eq_true_iff.mp hend
  obtain ⟨hcall,hmutex,herr,hwrites⟩ := of_decide_eq_true hend
  obtain ⟨hreq,hfree,hworker⟩ := of_decide_eq_true hstate
  have hstopped (n : ℕ) : ¬{ t with writesSinceSnapshot := t.writesSinceSnapshot+n }.Triggers := by
    intro h
    rcases h hcall herr (hwrites.ge.trans (Nat.le_add_right _ n)) with h | ⟨i,h⟩ | h
    · exact absurd (hreq.symm.trans h) (by decide)
    · exact absurd ((hfree i).symm.trans h) (by decide)
    · simp [Signals.processing, hworker] at h
  refine ⟨t, ?_, hcall, hmutex, herr, hwrites, hstopped 0, fun n => ⟨_, ?_, hstopped n⟩⟩
  · rw [run_append, run_firstDue, Option.bind_some, ht]
  · exact Signals.run_writes (hfree 0) herr n (.inr hwrites.ge)

end ConcurrentKV
