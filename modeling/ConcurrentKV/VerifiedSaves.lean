import Mathlib
import ConcurrentKV.KVObjects
import ConcurrentKV.SnapshotFormat

/-! `Snapshot::SaveVerified` with a failure at any of its steps, and what the path of the snapshot
holds after it has thrown. Programs are followed by triples: what holds before, what holds after a
return, and what holds after a throw. -/
namespace ConcurrentKV
open ByteCodec OpLog Std.Do

set_option mvcgen.warning false

/-- A run ends in one of the two ways that the triple describes. -/
theorem run_of_triple {ε σ α : Type} {x : ExceptT ε (StateM σ) α} {s : σ} {Q : α → σ → Prop}
    {E : ε → σ → Prop}
    (h : ⦃fun t => ⌜t = s⌝⦄ x ⦃post⟨fun a t => ⌜Q a t⌝, fun e t => ⌜E e t⌝⟩⦄) :
    (∃ a t, x.run.run s = (.ok a, t) ∧ Q a t) ∨ ∃ e t, x.run.run s = (.error e, t) ∧ E e t := by
  have hs := h s rfl
  rcases hrun : x.run.run s with ⟨e | a,t⟩
  all_goals simp only [wp, PredTrans.apply_pushExcept, PredTrans.apply_pushArg, hrun] at hs
  · exact .inr ⟨e, t, rfl, hs⟩
  · exact .inl ⟨a, t, rfl, hs⟩

/-- What stands at `path_` and at `temp_path`. -/
structure SnapshotDir where
  path : Option Bytes
  temp : Option Bytes := none

/-- The stream writes behind what the temporary file holds. -/
def SnapshotDir.write (dir : SnapshotDir) (bytes : Bytes) : SnapshotDir :=
  { dir with temp := dir.temp.map (· ++ bytes) }

@[grind =] theorem SnapshotDir.path_write (dir : SnapshotDir) (bytes : Bytes) :
    (dir.write bytes).path = dir.path := rfl

theorem SnapshotDir.write_nil (dir : SnapshotDir) : dir.write [] = dir := by
  simp [write]

@[grind =] theorem SnapshotDir.write_write (dir : SnapshotDir) (xs ys : Bytes) :
    (dir.write xs).write ys = dir.write (xs ++ ys) := by
  simp [write, Function.comp_def]

/-- Where an operation on the files fails, or a fault hook throws. -/
inductive SaveFailure where
  | openTemp
  /-- The device takes only `n` bytes of the temporary file. -/
  | tempWrite (n : ℕ)
  | afterTempWrite
  | syncFile
  | afterTempSync
  | rename
  | afterRename
  | syncParentDirectory
  | afterDirectorySync
  | verifyOpen
  /-- `Verify` gets only `n` bytes of the published file. -/
  | verifyRead (n : ℕ)
  deriving DecidableEq, Repr

inductive SaveException where
  | snapshot (e : SnapshotError)
  | failure (point : SaveFailure)
  deriving DecidableEq, Repr

/-- The path still holds what it held when the failure comes. -/
def SaveFailure.beforeRename : SaveFailure → Bool
  | .openTemp | .tempWrite _ | .afterTempWrite | .syncFile | .afterTempSync | .rename => true
  | _ => false

abbrev SaveM := ExceptT SaveException (StateM SnapshotDir)

namespace Snapshot

variable (host : ByteOrder) (failure : Option SaveFailure)

/-- A step that throws if the failure is there. -/
def pass (point : SaveFailure) : SaveM Unit :=
  if failure = some point then throw (.failure point) else pure ()

/-- `WritePrimitive` and `WriteBytes` to the temporary file. -/
def writeTemp (bytes : Bytes) : SaveM Unit := do
  let dir ← get
  match failure with
  | some (.tempWrite n) =>
    if (dir.temp.getD [] ++ bytes).length > n then
      set { dir with temp := dir.temp.map fun written => (written ++ bytes).take n }
      throw (.failure (.tempWrite n))
  | _ => pure ()
  set (dir.write bytes)

/-- `write_entry`. -/
def writeEntryTemp (entry : Bytes × Bytes) : SaveM Unit :=
  match writeEntry host entry with
  | .error e => throw (.snapshot e)
  | .ok bytes => writeTemp failure bytes

/-- The loop of `Save`. -/
def writeEntriesTemp : List (Bytes × Bytes) → SaveM Unit
  | [] => pure ()
  | entry :: entries => do
    writeEntryTemp host failure entry
    writeEntriesTemp entries

/-- What is left in the buffer meets a device that takes no more. -/
def flush : SaveM Unit :=
  match failure with
  | some (.tempWrite n) => throw (.failure (.tempWrite n))
  | _ => pure ()

def openTemp : SaveM Unit := do
  pass failure .openTemp
  modify fun dir => { dir with temp := some [] }

def writeHeader (count walOffset : ℕ) : SaveM Unit := do
  writeTemp failure (encode host 4 kSnapshotMagic)
  writeTemp failure (encode host 4 kSnapshotVersion)
  writeTemp failure (encode host 8 walOffset)
  writeTemp failure (encode host 4 count)

/-- `Save` up to its rename. -/
def saveTemp (entries : List (Bytes × Bytes)) (walOffset : ℕ) : SaveM Unit := do
  if entries.length ≥ 2^32 then throw (.snapshot .tooManyEntries)
  openTemp failure
  writeHeader host failure entries.length walOffset
  writeEntriesTemp host failure entries
  flush failure
  pass failure .afterTempWrite
  pass failure .syncFile
  pass failure .afterTempSync

/-- `Snapshot::Save`, with the entries in the order of its loop. -/
def save (entries : List (Bytes × Bytes)) (walOffset : ℕ) : SaveM Unit := do
  saveTemp host failure entries walOffset
  pass failure .rename
  modify fun dir => { path := dir.temp, temp := none }
  pass failure .afterRename
  pass failure .syncParentDirectory
  pass failure .afterDirectorySync

/-- What `Load` sees of the published file while it verifies. -/
def readable (path : Option Bytes) : Option Bytes :=
  match failure with
  | some .verifyOpen => none
  | some (.verifyRead n) => path.map (·.take n)
  | _ => path

/-- `Snapshot::Verify`. -/
def verify (store : Store) (walOffset : ℕ) : SaveM Bool := do
  match verifySnapshot host (readable failure (← get).path) store walOffset with
  | .error e => throw (.snapshot e)
  | .ok verified => return verified

/-- `Snapshot::SaveVerified` of `store`. -/
def saveVerified (store : Store) (entries : List (Bytes × Bytes)) (walOffset : ℕ) :
    SaveM Unit := do
  save host failure entries walOffset
  if !(← verify host failure store walOffset) then throw (.snapshot .verification)

/-- A condition under which `Save` throws before its rename. -/
def Refused (entries : List (Bytes × Bytes)) : Prop :=
  2^32 ≤ entries.length ∨ ¬Encodable entries ∨ failure.any SaveFailure.beforeRename = true

/-- The device takes only some bytes. -/
def WriteCut : Prop := ∃ n, failure = some (.tempWrite n)

variable {failure} in
theorem not_refused {entries : List (Bytes × Bytes)} (hn : ¬2^32 ≤ entries.length)
    (henc : Encodable entries)
    (hpoint : ∀ point, failure = some point → point.beforeRename = false) :
    ¬Refused failure entries := by
  rintro (hcount | hfield | hfail)
  · exact hn hcount
  · exact hfield henc
  · obtain ⟨point,hp,hb⟩ := (Option.any_eq_true _ _).mp hfail
    exact Bool.false_ne_true ((hpoint point hp).symm.trans hb)

variable {host failure} {entries : List (Bytes × Bytes)} {walOffset : ℕ}

@[spec]
theorem pass_spec (point : SaveFailure) (d : SnapshotDir) :
    ⦃fun dir => ⌜dir = d⌝⦄ pass failure point
    ⦃post⟨fun _ dir => ⌜dir = d ∧ failure ≠ some point⌝,
      fun _ dir => ⌜dir = d ∧ failure = some point⌝⟩⦄ := by
  mvcgen [pass]

/-- A write that returns has written everything. -/
@[spec]
theorem writeTemp_spec (bytes : Bytes) (d : SnapshotDir) :
    ⦃fun dir => ⌜dir = d⌝⦄ writeTemp failure bytes
    ⦃post⟨fun _ dir => ⌜dir = d.write bytes⌝,
      fun _ dir => ⌜dir.path = d.path ∧ WriteCut failure⌝⟩⦄ := by
  mvcgen [writeTemp]
  all_goals rename_i hd _ _ _ _
  · exact ⟨congrArg SnapshotDir.path hd, _, rfl⟩
  · rw [hd]
  · rw [hd]

@[spec]
theorem writeEntryTemp_spec (entry : Bytes × Bytes) (d : SnapshotDir) :
    ⦃fun dir => ⌜dir = d⌝⦄ writeEntryTemp host failure entry
    ⦃post⟨fun _ dir => ⌜dir = d.write (entryBytes host entry) ∧ Encodable [entry]⌝,
      fun _ dir => ⌜dir.path = d.path ∧ (WriteCut failure ∨ ¬Encodable [entry])⌝⟩⦄ := by
  by_cases henc : Encodable [entry]
  · simp only [writeEntryTemp, writeEntry_of_encodable henc]
    mvcgen
    case vc1 hd _ _ =>
      subst hd
      exact fun h => ⟨h, henc⟩
    case vc2 hd _ _ =>
      subst hd
      exact fun hp hcut => ⟨hp, .inl hcut⟩
  · obtain ⟨e,he⟩ := @writeEntry_of_not_encodable host entry henc
    simp only [writeEntryTemp, he]
    mvcgen
    case vc1 hd => exact ⟨congrArg SnapshotDir.path hd, .inr henc⟩

/-- The loop: by induction over the entries, each written behind the ones before. -/
@[spec]
theorem writeEntriesTemp_spec (entries : List (Bytes × Bytes)) (d : SnapshotDir) :
    ⦃fun dir => ⌜dir = d⌝⦄ writeEntriesTemp host failure entries
    ⦃post⟨fun _ dir => ⌜dir = d.write (entries.flatMap (entryBytes host)) ∧ Encodable entries⌝,
      fun _ dir => ⌜dir.path = d.path ∧ (WriteCut failure ∨ ¬Encodable entries)⌝⟩⦄ := by
  induction entries generalizing d with
  | nil =>
    mvcgen [writeEntriesTemp]
    case vc1 hd =>
      rw [hd, List.flatMap_nil, d.write_nil]
      exact ⟨rfl, fun _ hmem => absurd hmem List.not_mem_nil⟩
  | cons entry entries ih =>
    rw [encodable_cons]
    mvcgen [writeEntriesTemp, ih]
    case vc1 d' hd _ d1 h1 _ d2 =>
      intro h2 henc
      rw [h2, h1.1, hd, SnapshotDir.write_write, List.flatMap_cons]
      exact ⟨rfl, h1.2, henc⟩
    all_goals grind

@[spec]
theorem flush_spec (d : SnapshotDir) :
    ⦃fun dir => ⌜dir = d⌝⦄ flush failure
    ⦃post⟨fun _ dir => ⌜dir = d ∧ ¬WriteCut failure⌝,
      fun _ dir => ⌜dir = d ∧ WriteCut failure⌝⟩⦄ := by
  mvcgen [flush]
  case vc1 n _ _ hd => exact ⟨hd, n, rfl⟩
  case vc2 hn _ _ hd => exact ⟨hd, fun ⟨n,hcut⟩ => hn n hcut⟩

@[spec]
theorem openTemp_spec (d : SnapshotDir) :
    ⦃fun dir => ⌜dir = d⌝⦄ openTemp failure
    ⦃post⟨fun _ dir => ⌜dir = { d with temp := some [] } ∧ failure ≠ some .openTemp⌝,
      fun _ dir => ⌜dir = d ∧ failure = some .openTemp⌝⟩⦄ := by
  mvcgen [openTemp]
  all_goals grind

/-- The four fields in front of the entries. -/
@[spec]
theorem writeHeader_spec (count walOffset : ℕ) (d : SnapshotDir) :
    ⦃fun dir => ⌜dir = d⌝⦄ writeHeader host failure count walOffset
    ⦃post⟨fun _ dir => ⌜dir = d.write (encode host 4 kSnapshotMagic ++
        (encode host 4 kSnapshotVersion ++ (encode host 8 walOffset ++ encode host 4 count)))⌝,
      fun _ dir => ⌜dir.path = d.path ∧ WriteCut failure⌝⟩⦄ := by
  mvcgen [writeHeader]
  all_goals grind

@[spec]
theorem saveTemp_spec (d : SnapshotDir) :
    ⦃fun dir => ⌜dir = d⌝⦄ saveTemp host failure entries walOffset
    ⦃post⟨fun _ dir => ⌜dir = { d with temp := some (snapshotBytes host entries walOffset) } ∧
        (failure ≠ some .rename → ¬Refused failure entries)⌝,
      fun _ dir => ⌜dir.path = d.path ∧ Refused failure entries⌝⟩⦄ := by
  mvcgen [saveTemp]
  case vc2 hn _ hd _ _ hopen _ _ hheader _ _ hentries _ _ hflush _ _ hwrite _ _ hsync _ _ =>
    intro hdir hlast
    refine ⟨?_, fun hrename => not_refused hn hentries.2 ?_⟩
    · rw [hdir, hsync.1, hwrite.1, hflush.1, hentries.1, hheader, hopen.1, hd,
        SnapshotDir.write_write]
      simp [SnapshotDir.write, snapshotBytes]
    · rintro point rfl
      cases point with
      | openTemp => exact absurd rfl hopen.2
      | tempWrite n => exact absurd ⟨n, rfl⟩ hflush.2
      | afterTempWrite => exact absurd rfl hwrite.2
      | syncFile => exact absurd rfl hsync.2
      | afterTempSync => exact absurd rfl hlast
      | rename => exact absurd rfl hrename
      | _ => rfl
  all_goals grind [Refused, WriteCut, SaveFailure.beforeRename]

@[spec]
theorem save_spec (d : SnapshotDir) :
    ⦃fun dir => ⌜dir = d⌝⦄ save host failure entries walOffset
    ⦃post⟨fun _ dir => ⌜dir.path = some (snapshotBytes host entries walOffset) ∧
        ¬Refused failure entries⌝,
      fun _ dir => ⌜(dir.path = d.path ∧ Refused failure entries) ∨
        (dir.path = some (snapshotBytes host entries walOffset) ∧
          ¬Refused failure entries)⌝⟩⦄ := by
  mvcgen [save]
  all_goals grind [Refused, SaveFailure.beforeRename]

@[spec]
theorem verify_spec (store : Store) (d : SnapshotDir) :
    ⦃fun dir => ⌜dir = d⌝⦄ verify host failure store walOffset
    ⦃post⟨fun verified dir => ⌜dir = d ∧
        verifySnapshot host (readable failure d.path) store walOffset = .ok verified⌝,
      fun _ dir => ⌜dir = d⌝⟩⦄ := by
  mvcgen [verify]
  all_goals grind

/-- Either nothing was published, or all of the new snapshot; a return means that it was read
back. -/
theorem saveVerified_spec (store : Store) (d : SnapshotDir) :
    ⦃fun dir => ⌜dir = d⌝⦄ saveVerified host failure store entries walOffset
    ⦃post⟨fun _ _ => ⌜¬Refused failure entries ∧
        verifySnapshot host (readable failure (some (snapshotBytes host entries walOffset)))
          store walOffset = .ok true⌝,
      fun _ dir => ⌜(dir.path = d.path ∧ Refused failure entries) ∨
        (dir.path = some (snapshotBytes host entries walOffset) ∧
          ¬Refused failure entries)⌝⟩⦄ := by
  mvcgen [saveVerified]
  all_goals grind

/-- How a run can end. -/
theorem saveVerified_run (host : ByteOrder) (failure : Option SaveFailure) (store : Store)
    (entries : List (Bytes × Bytes)) (walOffset : ℕ) (d : SnapshotDir) :
    (∃ dir, (saveVerified host failure store entries walOffset).run.run d = (.ok (), dir) ∧
        ¬Refused failure entries ∧
        verifySnapshot host (readable failure (some (snapshotBytes host entries walOffset)))
          store walOffset = .ok true) ∨
      ∃ e dir, (saveVerified host failure store entries walOffset).run.run d = (.error e, dir) ∧
        ((dir.path = d.path ∧ Refused failure entries) ∨
          (dir.path = some (snapshotBytes host entries walOffset) ∧ ¬Refused failure entries)) := by
  rcases run_of_triple (saveVerified_spec store d) with ⟨_,dir,hrun,hok⟩ | hthrow
  · exact .inl ⟨dir, hrun, hok⟩
  · exact .inr hthrow

end Snapshot

open Snapshot

variable {host : ByteOrder} {failure : Option SaveFailure} {d dir : SnapshotDir} {m : Store}
  {entries : List (Bytes × Bytes)} {walOffset : ℕ} {e : SaveException}

/-- What `Verify` can see of a published file is the file or a part of it. -/
theorem readable_some (failure : Option SaveFailure) (bytes : Bytes) :
    readable failure (some bytes) = none ∨
      ∃ file more, readable failure (some bytes) = some file ∧ file ++ more = bytes := by
  unfold readable
  split
  · exact .inl rfl
  · exact .inr ⟨_, _, rfl, List.take_append_drop _ bytes⟩
  · exact .inr ⟨bytes, [], rfl, List.append_nil bytes⟩

/-- What is verified was loaded. -/
theorem loaded_of_verified {path : Option Bytes}
    (h : verifySnapshot host path m walOffset = .ok true) :
    ∃ result loaded, loadSnapshot host path ∅ = .ok (result,loaded) ∧ result.loaded = true := by
  unfold verifySnapshot at h
  split at h
  · cases h
  · rename_i result loaded hload
    have hall := Except.ok.inj h
    simp only [Bool.and_eq_true] at hall
    exact ⟨result, loaded, hload, hall.1.1.1⟩

/-- What is not refused can be written. -/
theorem encodable_of_not_refused (h : ¬Refused failure entries) :
    entries.length < 2^32 ∧ Encodable entries := by
  simp only [Refused, not_or, not_not, not_le] at h
  exact ⟨h.1, h.2.1⟩

/-- A snapshot with a field above the limit of `Load` is published, and not verified then. -/
theorem throws_of_oversized (hoff : walOffset < 2^64) (hfit : ¬EntriesFit entries)
    (hok : ¬Refused failure entries) (d : SnapshotDir) :
    ∃ e dir, (saveVerified host failure m entries walOffset).run.run d = (.error e, dir) ∧
      dir.path = some (snapshotBytes host entries walOffset) := by
  obtain ⟨hn,henc⟩ := encodable_of_not_refused hok
  rcases saveVerified_run host failure m entries walOffset d with
    ⟨dir,-,-,hverified⟩ | ⟨e,dir,hrun,⟨-,hrefused⟩ | ⟨hpath,-⟩⟩
  · obtain ⟨result,loaded,hload,hloaded⟩ := loaded_of_verified hverified
    rcases readable_some failure (snapshotBytes host entries walOffset) with
      hnone | ⟨file,more,hsome,hfile⟩
    · rw [hnone] at hload
      obtain ⟨rfl,-⟩ := Prod.mk.inj (Except.ok.inj hload)
      exact absurd hloaded Bool.false_ne_true
    · rw [hsome] at hload
      rw [not_loaded_of_oversized hn hoff henc hfit hfile hload] at hloaded
      exact absurd hloaded Bool.false_ne_true
  · exact absurd hrefused hok
  · exact ⟨e, dir, hrun, hpath⟩

/-- `Load` of the complete file throws then. -/
theorem loadSnapshot_of_oversized (hn : entries.length < 2^32) (hoff : walOffset < 2^64)
    (henc : Encodable entries) (hfit : ¬EntriesFit entries) (store : Store) :
    ∃ e, loadSnapshot host (some (snapshotBytes host entries walOffset)) store = .error e := by
  have hlen : 4 ≤ (snapshotBytes host entries walOffset).length := by
    rw [snapshotBytes, List.length_append, length_encode]
    omega
  rcases loadSnapshot_of_long hlen store with he | ⟨entries',walOffset',-,hload⟩
  · exact he
  · have hfalse := not_loaded_of_oversized hn hoff henc hfit (List.append_nil _) hload
    exact absurd hfalse (by simp)

/-- After a throw the previous snapshot or the new one can be loaded, for every failure, exactly
when the new one is within the limits of `Load` or is refused before the rename. -/
theorem failed_save_keeps_snapshot_iff (host : ByteOrder) (failure : Option SaveFailure)
    (d : SnapshotDir) (m previous : Store) (entries : List (Bytes × Bytes))
    (walOffset previousCount previousOffset : ℕ) (henum : Enumerates entries m)
    (hoff : walOffset < 2^64)
    (hprevious : ∀ target, loadSnapshot host d.path target =
      .ok (⟨true, previousCount, previousOffset⟩, previous)) :
    (∀ e dir, (saveVerified host failure m entries walOffset).run.run d = (.error e, dir) →
      ∀ target,
        loadSnapshot host dir.path target =
          .ok (⟨true, previousCount, previousOffset⟩, previous) ∨
        loadSnapshot host dir.path target = .ok (⟨true, m.keys.card, walOffset⟩, m)) ↔
    FieldsFit m ∨ 2^32 ≤ m.keys.card ∨
      (∃ k v, m.lookup k = some v ∧ (2^32 ≤ k.length ∨ 2^32 ≤ v.length)) ∨
      failure.any SaveFailure.beforeRename = true := by
  have hrefused : Refused failure entries ↔ 2^32 ≤ m.keys.card ∨
      (∃ k v, m.lookup k = some v ∧ (2^32 ≤ k.length ∨ 2^32 ≤ v.length)) ∨
      failure.any SaveFailure.beforeRename = true := by
    rw [Refused, henum.length_eq, henum.encodable_iff]
    simp only [not_forall, not_and_or, not_lt, exists_prop]
  rw [← hrefused]
  constructor
  · intro hkeeps
    by_contra hnot
    obtain ⟨hfit,hok⟩ := not_or.mp hnot
    rw [henum.fit_iff] at hfit
    obtain ⟨hn,henc⟩ := encodable_of_not_refused hok
    obtain ⟨e,dir,hrun,hpath⟩ :=
      @throws_of_oversized host failure m entries walOffset hoff hfit hok d
    obtain ⟨e',he⟩ := @loadSnapshot_of_oversized host entries walOffset hn hoff henc hfit ∅
    rcases hkeeps e dir hrun ∅ with hload | hload
    · rw [hpath, he] at hload
      cases hload
    · rw [hpath, he] at hload
      cases hload
  · intro hsafe e dir hrun target
    rcases saveVerified_run host failure m entries walOffset d with
      ⟨dir',hok,-⟩ | ⟨e',dir',hthrow,hcase⟩
    · rw [hrun] at hok
      cases hok
    obtain ⟨-,rfl⟩ := Prod.mk.inj (hrun.symm.trans hthrow)
    rcases hcase with ⟨hpath,-⟩ | ⟨hpath,hok⟩
    · rw [hpath]
      exact .inl (hprevious target)
    · obtain ⟨hn,-⟩ := encodable_of_not_refused hok
      have hfit : FieldsFit m := hsafe.resolve_right hok
      rw [hpath, loadSnapshot_snapshotBytes henum hfit hn hoff, henum.length_eq]
      exact .inr rfl

/-- A snapshot of the empty map. -/
def emptySnapshot : SnapshotDir := { path := some (snapshotBytes .little [] 0) }

theorem loadSnapshot_emptySnapshot (target : Store) :
    loadSnapshot .little emptySnapshot.path target = .ok (⟨true, 0, 0⟩, ∅) := by
  have hload := @loadSnapshot_snapshotBytes .little [] ∅ 0 ⟨List.nodup_nil, rfl⟩
    (fun k v hv => by simp at hv) (by norm_num) (by norm_num) target
  exact hload

/-- The device is full after five bytes. -/
theorem full_device_keeps_snapshot : ∃ e dir,
    (saveVerified .little (some (.tempWrite 5)) (storeOf [([1],[2])]) [([1],[2])] 9).run.run
      emptySnapshot = (.error e, dir) ∧
    ∀ target,
      loadSnapshot .little dir.path target = .ok (⟨true, 0, 0⟩, ∅) ∨
      loadSnapshot .little dir.path target =
        .ok (⟨true, (storeOf [([1],[2])]).keys.card, 9⟩, storeOf [([1],[2])]) :=
  ⟨_, _, rfl, (failed_save_keeps_snapshot_iff .little (some (.tempWrite 5)) emptySnapshot _ ∅ _ 9
    0 0 ⟨by decide, rfl⟩ (by norm_num) loadSnapshot_emptySnapshot).mpr
    (.inr (.inr (.inr rfl))) _ _ rfl⟩

/-- A value of one byte more than `Load` accepts. -/
def oversizedValue : Bytes := List.replicate (kMaxSnapshotFieldLength+1) 0

def oversizedMap : Store := storeOf [([],oversizedValue)]

theorem not_fit_oversized : ¬EntriesFit [([],oversizedValue)] := by
  intro hfit
  have hv := (hfit _ List.mem_cons_self).2
  rw [oversizedValue, List.length_replicate] at hv
  exact absurd hv (Nat.not_succ_le_self _)

theorem encodable_oversized : Encodable [([],oversizedValue)] := by
  intro entry hmem
  obtain rfl := List.mem_singleton.mp hmem
  rw [oversizedValue, List.length_replicate]
  exact ⟨by norm_num, by norm_num [kMaxSnapshotFieldLength]⟩

/-- A store without a log takes the value. Without any failure of the files its snapshot is
published, its verification throws, and the previous snapshot is gone. -/
theorem failed_save_loses_snapshot :
    (shardContainer fun _ => 0).collectData
        ((shardContainer fun _ => 0).apply (.set [] oversizedValue)
          (shardContainer fun _ => 0).empty) = oversizedMap ∧
      loadSnapshot .little emptySnapshot.path ∅ = .ok (⟨true, 0, 0⟩, ∅) ∧
      ∃ e dir, (saveVerified .little none oversizedMap [([],oversizedValue)] 0).run.run
          emptySnapshot = (.error e, dir) ∧
        ∃ e', loadSnapshot .little dir.path ∅ = .error e' := by
  have hrepresents := shardContainer_represents fun _ => 0
  refine ⟨?_, loadSnapshot_emptySnapshot ∅, ?_⟩
  · have hempty := hrepresents.empty
    obtain ⟨-,happly⟩ := hrepresents.apply (.set [] oversizedValue) _ hempty.1
    rw [hempty.2] at happly
    exact happly
  · have hok : ¬Refused none [([],oversizedValue)] :=
      not_refused (by norm_num) encodable_oversized (fun _ hp => absurd hp (by simp))
    obtain ⟨e,dir,hrun,hpath⟩ := @throws_of_oversized .little none oversizedMap
      [([],oversizedValue)] 0 (by norm_num) not_fit_oversized hok emptySnapshot
    refine ⟨e, dir, hrun, ?_⟩
    rw [hpath]
    exact loadSnapshot_of_oversized (by norm_num) (by norm_num) encodable_oversized
      not_fit_oversized ∅

end ConcurrentKV
