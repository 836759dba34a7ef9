import ConcurrentKV.KVShards
import ConcurrentKV.WalFailure

/-! A failed append in a running store: under any interleaving with truncations the shards
hold what was acknowledged, before the failure and after it. -/
namespace ConcurrentKV
open ByteCodec OpLog Sharding Transition

namespace WalThreads

variable {s : WalThreads}

theorem mem_acked {r : Request} (h : r ∈ s.acked) : r ∈ s.history ∧ (r.id, none) ∈ s.results := by
  obtain ⟨hr,hres⟩ := List.mem_filter.mp h
  exact ⟨hr, of_decide_eq_true hres⟩

theorem AckInv.logIds (h : AckInv s) : LogIds s.acked s where
  fresh hid := by
    obtain ⟨r,hr,hid⟩ := List.mem_map.mp hid
    have := id_lt_of_result h.ids (mem_acked hr).2
    omega
  acknowledged := h.acked
  refused id e hres hid := by
    obtain ⟨r,hr,rfl⟩ := List.mem_map.mp hid
    cases result_unique h.ids hres (mem_acked hr).2

/-- An append fails only in a log that works, and then nothing was acknowledged by the way. -/
theorem AckInv.fail {host : ByteOrder} {t : WalThreads} {n : ℕ} {e : WalError} (h : AckInv s)
    (hstep : s.step host (.fail n e) = some t) :
    Failed t e ∧ t.history = s.history ∧ t.acknowledged = s.acknowledged := by
  cases steps_of_step hstep with
  | failWrite n e batch phase torn hjob hio =>
    rcases h.mode with ⟨hwork,-⟩ | ⟨e',hfail⟩
    · refine ⟨failJob_failed ?_ batch e, failJob_history batch e, failJob_acknowledged batch e⟩
      exact hwork.queue
    · rcases hfail.phase hjob with rfl | ⟨rfl,-⟩ <;> cases hio

end WalThreads

/-- What every run keeps, whatever fails. -/
structure Contained (hash : Bytes → ℕ) (m : Store) (s : KVStore) : Prop where
  lock : LockInv s.slots s.admin
  path : PathInv s.admin
  ack : WalThreads.AckInv s.wal
  shards : ShardInv hash m s.wal.acked s.wal s.slots s.shards s.returned

namespace Contained

variable {host : ByteOrder} {hash : Bytes → ℕ} {m : Store} {s t : KVStore}

theorem start {wal : WriteAheadLog} (h : wal.failure = none) (m : Store)
    (snapshot temp : Option Bytes) : Contained hash m (KVStore.start hash wal m snapshot temp) :=
  ⟨lockInv_start, pathInv_start, WalThreads.ackInv_start h, ShardInv.start wal m⟩

theorem step {l : Label} (h : Contained hash m s) (hstep : s.step host hash l = some t) :
    Contained hash m t := by
  have hsteps := KVStore.steps_of_step hstep
  have heff := hsteps.effect h.lock
  have hack : WalThreads.AckInv t.wal := by
    rcases heff.wal_cases with hwal | ⟨w,hwal⟩
    · rw [hwal]
      exact h.ack
    · exact (h.ack.step hwal).1
  obtain ⟨new,hacked,hout,hnew⟩ := heff.grows WalThreads.acked
    (fun op hwal => WalThreads.acked_congr (WalThreads.prepare_history hwal)
      (WalThreads.prepare_acknowledged hwal)) (fun w _ hwal => (h.ack.step hwal).2)
  refine ⟨h.lock.step h.path hsteps, h.path.step hsteps, hack, ?_⟩
  rw [hacked]
  exact h.shards.step h.ack.logIds heff hout hnew

theorem run {labels : List Label} (h : Contained hash m s)
    (hrun : Transition.run (KVStore.step host hash) s labels = some t) : Contained hash m t :=
  run_invariant (A := fun _ => True) (fun _ _ _ _ h hstep => h.step hstep) (fun _ _ => trivial)
    hrun h

end Contained

/-- The store `t`, some steps after the append of `s` that failed with `e` and led to `s'`. -/
structure AfterFailure (s s' : KVStore) (e : WalError) (t : KVStore) : Prop where
  failed : WalThreads.Failed t.wal e
  history : t.wal.history = s.wal.history
  acknowledged : t.wal.acknowledged = s.wal.acknowledged
  file : t.wal.wal.file <+: s'.wal.wal.file
  pending : ∀ r ∈ s.wal.outstanding, (∃ o, (r.id, o) ∈ t.wal.results) ∨ r ∈ t.wal.outstanding

namespace AfterFailure

variable {host : ByteOrder} {hash : Bytes → ℕ} {m : Store} {s s' t u : KVStore} {e : WalError}

theorem begin {n : ℕ} (h : Contained hash m s)
    (hstep : s.step host hash (.wal (.fail n e)) = some s') : AfterFailure s s' e s' := by
  obtain ⟨wal,hwal,rfl⟩ := Option.map_eq_some_iff.mp hstep
  obtain ⟨hfail,hhist,hack⟩ := h.ack.fail hwal
  exact ⟨hfail, hhist, hack, List.prefix_rfl,
    fun r hr => WalThreads.step_pending h.ack.ids hwal hr⟩

theorem step {l : Label} (h : AfterFailure s s' e t) (hc : Contained hash m t)
    (hstep : t.step host hash l = some u) : AfterFailure s s' e u := by
  rcases ((KVStore.steps_of_step hstep).effect hc.lock).wal_cases with hwal | ⟨w,hwal⟩
  · obtain ⟨hfail,hhist,hack,hfile,hpend⟩ := h
    rw [← hwal] at hfail hhist hack hfile hpend
    exact ⟨hfail, hhist, hack, hfile, hpend⟩
  · obtain ⟨hfail,hhist,hack,hfile,-⟩ := h.failed.step hwal
    refine ⟨hfail, hhist.trans h.history, hack.trans h.acknowledged, hfile.trans h.file, ?_⟩
    intro r hr
    rcases h.pending r hr with ⟨o,ho⟩ | hr
    · exact .inl ⟨o, (WalThreads.step_results hwal).subset ho⟩
    · exact WalThreads.step_pending hc.ack.ids hwal hr

theorem run {labels : List Label} (h : AfterFailure s s' e t) (hc : Contained hash m t)
    (hrun : Transition.run (KVStore.step host hash) t labels = some u) : AfterFailure s s' e u :=
  (run_invariant (P := fun t => AfterFailure s s' e t ∧ Contained hash m t) (A := fun _ => True)
    (fun _ _ _ _ h hstep => ⟨h.1.step h.2 hstep, h.2.step hstep⟩) (fun _ _ => trivial)
    hrun ⟨h,hc⟩).1

end AfterFailure

end ConcurrentKV
