import ConcurrentKV.KVShards

/-! In a run without failed appends the shards follow the file: each shard is the log's
effect on its keys, up to the one record whose call has the shard locked. -/
namespace ConcurrentKV
open ByteCodec OpLog Sharding Transition

/-- The map is `m` with the records in the file applied, shard by shard, and the calls are
answered in the order of the file. -/
structure MemInv (hash : Bytes → ℕ) (m : Store) (wal : WalThreads) (slots : Shard → Slot)
    (shards : Shard → Store) (returned : List Returned) : Prop extends
    ShardInv hash m wal.history wal slots shards returned where
  order : WalThreads.AckOrder wal

namespace MemInv

variable {host : ByteOrder} {hash : Bytes → ℕ} {m : Store} {wal : WalThreads}
  {slots : Shard → Slot} {shards : Shard → Store} {returned : List Returned} {s t : KVStore}

theorem logIds (h : MemInv hash m wal slots shards returned) : LogIds wal.history wal where
  fresh hid := Nat.lt_irrefl _ (h.order.lt_nextId h.own.ids hid)
  acknowledged id hres := (h.order.mem_iff id).mpr (.inl (WalThreads.mem_acknowledged.mpr hres))
  refused _ _ hres := h.order.not_mem_of_failed h.own.ids hres

theorem start (wal : WriteAheadLog) (m : Store) : MemInv hash m (WalThreads.start wal)
    (fun _ => .readers []) (split (shardIndex hash) m) [] :=
  ⟨ShardInv.start wal m, WalThreads.ackOrder_start wal⟩

/-- One step of a run without failed appends. -/
theorem step {l : Label} {ops : List WalRecord}
    (h : MemInv hash m s.wal s.slots s.shards s.returned) (hlog : LogInv host s.wal ops)
    (hgood : ∀ w, l = .wal w → w.isAppend = true) (heff : KVStore.Effect host hash s t l) :
    MemInv hash m t.wal t.slots t.shards t.returned := by
  obtain ⟨new,hhist,hout,hnew⟩ := heff.grows WalThreads.history
    (fun op hwal => WalThreads.prepare_history hwal) <| by
    intro w hlab hwal
    rcases hlab with hlab | ⟨-,hw⟩
    · obtain ⟨new,hhist,-,hnew⟩ := hlog.step (hgood w hlab) hwal
      refine ⟨new, hhist, fun r hr => ?_⟩
      rcases hnew with rfl | ⟨bytes,hjob⟩
      · simp at hr
      · simp [WalThreads.outstanding, hjob, hr]
    · exact ⟨[], by simpa using (h.order.truncation hw hwal).2, by simp⟩
  have hord : WalThreads.AckOrder t.wal := by
    cases heff with
    | prepare i op hold hwal => exact h.order.step hlog rfl hwal
    | wal lab w hl hlab hwal =>
      rcases hlab with hlab | ⟨-,hw⟩
      · exact h.order.step hlog (hgood w hlab) hwal
      · exact (h.order.truncation hw hwal).1
    | same _ hwal | locks _ _ _ _ _ hwal | lockShard _ _ hwal | acknowledge _ _ _ _ _ hwal
    | rethrow _ _ _ _ _ _ hwal | mutate _ _ _ _ _ hwal | ret _ _ _ _ _ _ _ _ hwal
    | proceed _ _ _ _ _ _ _ _ _ _ hwal =>
      rw [hwal]
      exact h.order
  refine ⟨?_, hord⟩
  rw [hhist]
  exact h.toShardInv.step h.logIds heff hout hnew

end MemInv

end ConcurrentKV
