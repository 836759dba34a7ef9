import ConcurrentKV.KVObjects
import ConcurrentKV.SnapshotFormat

/-! `KVStore::LoadSnapshot` on any file. It loads into a new map and replaces the shards by it
whatever `Load` has returned, so a file that is absent or too short empties the store. -/
namespace ConcurrentKV
open ByteCodec OpLog Sharding Transition

/-- What a caller can rely on: the contents are replaced by the entries of the file, or not at
all. -/
def ReplacesBySnapshot (host : ByteOrder) (file : Option Bytes) (before after : Store) :
    CallResult → Prop
  | .loaded result =>
    if result.loaded then ∃ bytes entries, file = some bytes ∧
      SnapshotHolds host bytes entries result.walOffset ∧ entries.length = result.entryCount ∧
      after = storeOf entries
    else after = before
  | .threw _ => after = before
  | _ => False

variable {host : ByteOrder} {hash : Bytes → ℕ} {s : World (Shard → Store)} {name : ℕ}
  {x : StoreObject (Shard → Store)} {file : Option Bytes}

/-- The call on the object `name`, by how `Load` ends. -/
theorem step_loadSnapshot (hx : s.stores name = some x) :
    ∃ t y result, s.step host (shardContainer hash) (.loadSnapshot name file) = some t ∧
      t.stores name = some y ∧ t.returned = s.returned ++ [result] ∧
      match loadSnapshot host file ∅ with
      | .error e => result = .threw (.snapshot e) ∧ collect y.data = collect x.data
      | .ok (loadResult,data) => result = .loaded loadResult ∧ collect y.data = data := by
  simp only [World.step, World.onStore, hx, Option.map_some]
  cases loadSnapshot host file ∅ with
  | error e => exact ⟨_, x, _, rfl, hx, rfl, rfl, rfl⟩
  | ok loaded =>
    refine ⟨_, _, _, rfl, Function.update_self .., rfl, rfl, ?_⟩
    exact collect_split (shardIndex hash) loaded.2

/-- With a first field in the file `Load` throws or returns the entries. -/
theorem replaces_of_long {bytes : Bytes} (hlen : 4 ≤ bytes.length) {before after : Store}
    {result : CallResult}
    (h : match loadSnapshot host (some bytes) ∅ with
      | .error e => result = .threw (.snapshot e) ∧ after = before
      | .ok (loadResult,data) => result = .loaded loadResult ∧ after = data) :
    ReplacesBySnapshot host (some bytes) before after result := by
  rcases loadSnapshot_of_long hlen ∅ with ⟨e,he⟩ | ⟨entries,walOffset,hholds,hload⟩
  · rw [he] at h
    obtain ⟨rfl,hafter⟩ := h
    exact hafter
  · rw [hload] at h
    obtain ⟨rfl,hafter⟩ := h
    exact ⟨bytes, entries, rfl, hholds, rfl, hafter⟩

/-- The promise is kept exactly for files of at least four bytes, and on an empty store. -/
theorem load_snapshot_replaces_iff (host : ByteOrder) (hash : Bytes → ℕ)
    (s : World (Shard → Store)) (name : ℕ) (x : StoreObject (Shard → Store)) (file : Option Bytes)
    (hx : s.stores name = some x) :
    (∃ t y result, s.step host (shardContainer hash) (.loadSnapshot name file) = some t ∧
      t.stores name = some y ∧ t.returned = s.returned ++ [result] ∧
      ReplacesBySnapshot host file (collect x.data) (collect y.data) result) ↔
    (∃ bytes, file = some bytes ∧ 4 ≤ bytes.length) ∨ collect x.data = ∅ := by
  obtain ⟨t,y,result,hstep,hy,hreturned,hload⟩ := @step_loadSnapshot host hash s name x file hx
  by_cases hlong : ∃ bytes, file = some bytes ∧ 4 ≤ bytes.length
  · obtain ⟨bytes,rfl,hlen⟩ := hlong
    have hkept := replaces_of_long hlen hload
    exact ⟨fun _ => .inl ⟨bytes, rfl, hlen⟩, fun _ => ⟨t, y, result, hstep, hy, hreturned, hkept⟩⟩
  · -- nothing is loaded, and the store becomes the new map
    have hshort : loadSnapshot host file ∅ = .ok ({}, ∅) := by
      apply loadSnapshot_of_short
      intro bytes hbytes
      exact Nat.lt_of_not_le fun hlen => hlong ⟨bytes, hbytes, hlen⟩
    rw [hshort] at hload
    obtain ⟨rfl,hempty⟩ := hload
    have hkept : ReplacesBySnapshot host file (collect x.data) (collect y.data) (.loaded {}) ↔
        collect x.data = ∅ := by
      rw [hempty]
      exact eq_comm
    constructor
    · rintro ⟨t',y',result',hstep',hy',hreturned',hkept'⟩
      obtain rfl : t = t' := Option.some.inj (hstep.symm.trans hstep')
      obtain rfl : y = y' := Option.some.inj (hy.symm.trans hy')
      obtain rfl : CallResult.loaded {} = result' := by
        rw [hreturned] at hreturned'
        exact List.singleton_inj.mp (List.append_cancel_left hreturned')
      exact .inr (hkept.mp hkept')
    · rintro (hl | hx')
      · exact absurd hl hlong
      · exact ⟨t, y, _, hstep, hy, hreturned, hkept.mpr hx'⟩

def oneEntryStore : StoreObject (Shard → Store) :=
  { data := (shardContainer List.length).replaceData (storeOf [([1],[2])]) }

/-- One store that holds one entry. -/
def oneEntry : World (Shard → Store) where
  stores name := if name = 0 then some oneEntryStore else none
  wals _ := { file := [], policy := .buffered, maxBatch := 1 }

/-- An older snapshot, without metadata, of another entry. -/
def legacySnapshot : Bytes := [1,0,0,0, 1,0,0,0, 7, 1,0,0,0, 8]

theorem load_snapshot_replaces_by_legacy : ∃ t y result,
    oneEntry.step .little (shardContainer List.length) (.loadSnapshot 0 (some legacySnapshot)) =
      some t ∧
    t.stores 0 = some y ∧ t.returned = oneEntry.returned ++ [result] ∧
    ReplacesBySnapshot .little (some legacySnapshot) (collect oneEntryStore.data)
      (collect y.data) result :=
  (load_snapshot_replaces_iff .little List.length oneEntry 0 oneEntryStore _ rfl).mpr
    (.inl ⟨_, rfl, by decide⟩)

/-- Without a file the call returns `loaded = false` and the entry is gone. -/
theorem absent_snapshot_empties_store :
    ((oneEntry.step .little (shardContainer List.length) (.loadSnapshot 0 none)).any fun t =>
      decide (t.returned = [.loaded { loaded := false }]) &&
        (t.stores 0).any fun y => decide (collect y.data = ∅)) = true ∧
      ((oneEntry.stores 0).any fun x => decide (collect x.data ≠ ∅)) = true := by
  decide +kernel

end ConcurrentKV
