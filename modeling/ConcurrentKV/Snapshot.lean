import ConcurrentKV.WalRecords

/-! Snapshot files: what `Snapshot::Save` writes and what `Snapshot::Load` makes of any
bytes. All numbers are in the byte order of the machine. -/
namespace ConcurrentKV
open ByteCodec OpLog

def kSnapshotMagic : ℕ := 0x3153564B
def kSnapshotVersion : ℕ := 1
def kMaxSnapshotFieldLength : ℕ := 64*1024*1024

structure SnapshotLoadResult where
  loaded : Bool := false
  entryCount : ℕ := 0
  walOffset : ℕ := 0
  deriving DecidableEq, Repr

inductive SnapshotError where
  | tooManyEntries
  | keyTooLarge
  | valueTooLarge
  | loadedKeyTooLarge
  | loadedValueTooLarge
  | loadMetadata
  | load
  | verification
  deriving DecidableEq, Repr

/-- The bytes of one entry. -/
def entryBytes (host : ByteOrder) (entry : Bytes × Bytes) : Bytes :=
  encode host 4 entry.1.length ++ (entry.1 ++ (encode host 4 entry.2.length ++ entry.2))

/-- A complete snapshot file. -/
def snapshotBytes (host : ByteOrder) (entries : List (Bytes × Bytes)) (walOffset : ℕ) : Bytes :=
  encode host 4 kSnapshotMagic ++ (encode host 4 kSnapshotVersion ++ (encode host 8 walOffset ++
    (encode host 4 entries.length ++ entries.flatMap (entryBytes host))))

/-- `write_entry`, after `CheckedSize` of both fields. -/
def writeEntry (host : ByteOrder) (entry : Bytes × Bytes) : Except SnapshotError Bytes :=
  if entry.1.length ≥ 2^32 then .error .keyTooLarge
  else if entry.2.length ≥ 2^32 then .error .valueTooLarge
  else .ok (entryBytes host entry)

/-- The loop of `Save` over the entries, in the order the map enumerates them. -/
def writeEntries (host : ByteOrder) : List (Bytes × Bytes) → Except SnapshotError Bytes
  | [] => .ok []
  | entry :: entries => do
    let bytes ← writeEntry host entry
    let rest ← writeEntries host entries
    return bytes ++ rest

/-- What `Save` writes to the temporary file, or the check that stops it. -/
def saveBytes (host : ByteOrder) (entries : List (Bytes × Bytes)) (walOffset : ℕ) :
    Except SnapshotError Bytes :=
  if entries.length ≥ 2^32 then .error .tooManyEntries
  else do
    let body ← writeEntries host entries
    return encode host 4 kSnapshotMagic ++ (encode host 4 kSnapshotVersion ++
      (encode host 8 walOffset ++ (encode host 4 entries.length ++ body)))

/-- `read_entry`: the entry and the position behind it, or `none` when the file ends early. -/
def readEntry (host : ByteOrder) (file : Bytes) (offset : ℕ) :
    Except SnapshotError (Option (Bytes × Bytes × ℕ)) :=
  match consumePrimitive host 4 file offset with
  | none => .ok none
  | some (keySize,offset) =>
    if keySize > kMaxSnapshotFieldLength then .error .loadedKeyTooLarge
    else match consumeBytes file offset keySize with
    | none => .ok none
    | some (key,offset) => match consumePrimitive host 4 file offset with
      | none => .ok none
      | some (valueSize,offset) =>
        if valueSize > kMaxSnapshotFieldLength then .error .loadedValueTooLarge
        else match consumeBytes file offset valueSize with
        | none => .ok none
        | some (value,offset) => .ok (some (key,value,offset))

/-- The loop of `Load`, with the number of entries still to read. -/
def readEntries (host : ByteOrder) (file : Bytes) : ℕ → ℕ → Store → Except SnapshotError Store
  | 0, _, loaded => .ok loaded
  | n+1, offset, loaded => match readEntry host file offset with
    | .error e => .error e
    | .ok none => .error .load
    | .ok (some (key,value,offset)) => readEntries host file n offset (loaded.insert key value)

/-- `Load` from the bytes at the path, if there is a file. A file without the magic is an
older one that starts with its entry count and covers no part of the log. -/
def loadSnapshot (host : ByteOrder) (file : Option Bytes) (store : Store) :
    Except SnapshotError (SnapshotLoadResult × Store) :=
  match file with
  | none => .ok ({}, store)
  | some file => match consumePrimitive host 4 file 0 with
    | none => .ok ({}, store)
    | some (firstField,offset) =>
      if firstField = kSnapshotMagic then
        match consumePrimitive host 4 file offset with
        | none => .error .loadMetadata
        | some (version,offset) =>
          if version ≠ kSnapshotVersion then .error .loadMetadata
          else match consumePrimitive host 8 file offset with
          | none => .error .loadMetadata
          | some (walOffset,offset) => match consumePrimitive host 4 file offset with
            | none => .error .loadMetadata
            | some (entryCount,offset) => match readEntries host file entryCount offset ∅ with
              | .error e => .error e
              | .ok loaded => .ok (⟨true, entryCount, walOffset⟩, loaded)
      else match readEntries host file firstField offset ∅ with
        | .error e => .error e
        | .ok loaded => .ok (⟨true, firstField, 0⟩, loaded)

/-- `Verify`. -/
def verifySnapshot (host : ByteOrder) (file : Option Bytes) (expectedStore : Store)
    (expectedWalOffset : ℕ) : Except SnapshotError Bool :=
  match loadSnapshot host file ∅ with
  | .error e => .error e
  | .ok (result,loaded) => .ok (result.loaded && result.entryCount == expectedStore.keys.card &&
      result.walOffset == expectedWalOffset && decide (loaded = expectedStore))

/-! ### Enumerations of a map -/

/-- The map with the given entries; a later entry of one key replaces the earlier. -/
def storeOf (entries : List (Bytes × Bytes)) : Store :=
  entries.foldl (fun m entry => m.insert entry.1 entry.2) ∅

/-- `entries` lists the map, each key once, in some order. -/
def Enumerates (entries : List (Bytes × Bytes)) (m : Store) : Prop :=
  (entries.map Prod.fst).Nodup ∧ storeOf entries = m

instance (entries : List (Bytes × Bytes)) (m : Store) : Decidable (Enumerates entries m) :=
  inferInstanceAs (Decidable (_ ∧ _))

/-- Every field of the map is within the limit of `Load`. -/
def FieldsFit (m : Store) : Prop :=
  ∀ k v, m.lookup k = some v → k.length ≤ kMaxSnapshotFieldLength ∧
    v.length ≤ kMaxSnapshotFieldLength

/-- Inserting entries is replaying set operations. -/
theorem foldl_insert_eq (entries : List (Bytes × Bytes)) (m : Store) :
    entries.foldl (fun m entry => m.insert entry.1 entry.2) m =
      applyOps (entries.map fun entry => Op.set entry.1 entry.2) m := by
  induction entries generalizing m with
  | nil => rfl
  | cons entry entries ih =>
    rw [List.foldl_cons, ih]
    rfl

/-- A listed entry is in the map, because its key is not listed again. -/
theorem Enumerates.lookup {entries : List (Bytes × Bytes)} {m : Store} (h : Enumerates entries m)
    {k v : Bytes} (hmem : (k,v) ∈ entries) : m.lookup k = some v := by
  obtain ⟨hnodup,rfl⟩ := h
  rw [storeOf, foldl_insert_eq, lookup_applyOps]
  obtain ⟨e,he⟩ : ∃ e, lastEffect k (entries.map fun entry => Op.set entry.1 entry.2) = some e := by
    apply Option.ne_none_iff_exists'.mp
    intro hnone
    rw [lastEffect_eq_none_iff] at hnone
    exact hnone _ (List.mem_map_of_mem hmem) rfl
  obtain ⟨op,hop,hk,hv⟩ := lastEffect_mem he
  obtain ⟨entry,hentry,rfl⟩ := List.mem_map.mp hop
  -- two entries with one key are the same entry
  have hsame : entry = (k,v) := List.inj_on_of_nodup_map hnodup hentry hmem hk
  rw [he, Option.getD_some, ← hv, hsame]
  rfl

/-- The map has the listed entries and no other. -/
theorem Enumerates.lookup_iff {entries : List (Bytes × Bytes)} {m : Store}
    (h : Enumerates entries m) (k v : Bytes) : m.lookup k = some v ↔ (k,v) ∈ entries := by
  refine ⟨fun hv => ?_, h.lookup⟩
  obtain ⟨-,rfl⟩ := h
  rw [storeOf, foldl_insert_eq, lookup_applyOps] at hv
  cases he : lastEffect k (entries.map fun entry => Op.set entry.1 entry.2) with
  | none => simp [he] at hv
  | some e =>
    obtain ⟨op,hop,rfl,rfl⟩ := lastEffect_mem he
    obtain ⟨entry,hentry,rfl⟩ := List.mem_map.mp hop
    rw [he, Option.getD_some] at hv
    obtain rfl : entry.2 = v := Option.some.inj hv
    exact hentry

/-- The entries of a map with fields within the limit. -/
theorem Enumerates.fit {entries : List (Bytes × Bytes)} {m : Store} (h : Enumerates entries m)
    (hfit : FieldsFit m) : ∀ entry ∈ entries, entry.1.length ≤ kMaxSnapshotFieldLength ∧
      entry.2.length ≤ kMaxSnapshotFieldLength := by
  intro entry hmem
  exact hfit entry.1 entry.2 (h.lookup hmem)

/-! ### Loading what was saved -/

theorem readEntry_entryBytes {host : ByteOrder} {file rest : Bytes} {offset : ℕ}
    {entry : Bytes × Bytes} (hk : entry.1.length ≤ kMaxSnapshotFieldLength)
    (hv : entry.2.length ≤ kMaxSnapshotFieldLength) (ho : offset ≤ file.length)
    (hd : file.drop offset = entryBytes host entry ++ rest) :
    ∃ offset', readEntry host file offset = .ok (some (entry.1,entry.2,offset')) ∧
      offset' ≤ file.length ∧ file.drop offset' = rest := by
  have hlt {n : ℕ} (hn : n ≤ kMaxSnapshotFieldLength) : n < 256^4 := by
    simp only [kMaxSnapshotFieldLength] at hn
    omega
  simp only [entryBytes, List.append_assoc] at hd
  obtain ⟨h1,l1,d1⟩ := consumeUint_of_drop (hlt hk) ho hd
  obtain ⟨h2,l2,d2⟩ := consumeBytes_of_drop l1 d1
  obtain ⟨h3,l3,d3⟩ := consumeUint_of_drop (hlt hv) l2 d2
  obtain ⟨h4,l4,d4⟩ := consumeBytes_of_drop l3 d3
  refine ⟨_, ?_, l4, d4⟩
  simp only [readEntry, consumePrimitive, h1, h2, h3, h4, if_neg (Nat.not_lt.mpr hk),
    if_neg (Nat.not_lt.mpr hv)]

theorem readEntries_flatMap {host : ByteOrder} {file rest : Bytes} {entries : List (Bytes × Bytes)}
    {offset : ℕ} (loaded : Store) (hfit : ∀ entry ∈ entries,
      entry.1.length ≤ kMaxSnapshotFieldLength ∧ entry.2.length ≤ kMaxSnapshotFieldLength)
    (ho : offset ≤ file.length)
    (hd : file.drop offset = entries.flatMap (entryBytes host) ++ rest) :
    readEntries host file entries.length offset loaded =
      .ok (entries.foldl (fun m entry => m.insert entry.1 entry.2) loaded) := by
  induction entries generalizing offset loaded with
  | nil => rfl
  | cons entry entries ih =>
    obtain ⟨hk,hv⟩ := hfit entry List.mem_cons_self
    rw [List.flatMap_cons, List.append_assoc] at hd
    obtain ⟨offset',hread,ho',hd'⟩ := readEntry_entryBytes hk hv ho hd
    have hi := ih (loaded.insert entry.1 entry.2)
      (fun e he => hfit e (List.mem_cons_of_mem _ he)) ho' hd'
    rw [List.length_cons, readEntries, hread]
    exact hi

/-- A saved map is loaded back with its offset, whatever the target held. -/
theorem loadSnapshot_snapshotBytes {host : ByteOrder} {entries : List (Bytes × Bytes)} {m : Store}
    {walOffset : ℕ} (henum : Enumerates entries m) (hfit : FieldsFit m)
    (hn : entries.length < 2^32) (hoff : walOffset < 2^64) (store : Store) :
    loadSnapshot host (some (snapshotBytes host entries walOffset)) store =
      .ok (⟨true, entries.length, walOffset⟩, m) := by
  have hn' : entries.length < 256^4 := by
    norm_num at hn ⊢
    omega
  have hoff' : walOffset < 256^8 := by
    norm_num at hoff ⊢
    omega
  have hd : (snapshotBytes host entries walOffset).drop 0 = _ := rfl
  rw [snapshotBytes] at hd
  obtain ⟨h1,l1,d1⟩ := consumeUint_of_drop (by decide) (Nat.zero_le _) hd
  obtain ⟨h2,l2,d2⟩ := consumeUint_of_drop (by decide) l1 d1
  obtain ⟨h3,l3,d3⟩ := consumeUint_of_drop hoff' l2 d2
  obtain ⟨h4,l4,d4⟩ := consumeUint_of_drop hn' l3 d3
  have hread := readEntries_flatMap ∅ (henum.fit hfit) l4 (d4.trans (List.append_nil _).symm)
  rw [show entries.foldl (fun m entry => m.insert entry.1 entry.2) ∅ = m from henum.2] at hread
  rw [snapshotBytes]
  simp only [loadSnapshot, consumePrimitive, h1, h2, h3, h4, hread]
  simp

/-- Without a size error the file holds every entry. -/
theorem writeEntries_eq {host : ByteOrder} {entries : List (Bytes × Bytes)} {body : Bytes}
    (h : writeEntries host entries = .ok body) : body = entries.flatMap (entryBytes host) := by
  induction entries generalizing body with
  | nil => exact (Except.ok.inj h).symm
  | cons entry entries ih =>
    rw [writeEntries] at h
    unfold writeEntry at h
    split at h
    · cases h
    split at h
    · cases h
    cases hrest : writeEntries host entries with
    | error e =>
      rw [hrest] at h
      cases h
    | ok rest =>
      rw [hrest] at h
      obtain rfl := Except.ok.inj h
      rw [List.flatMap_cons, ih hrest]

theorem saveBytes_eq {host : ByteOrder} {entries : List (Bytes × Bytes)} {walOffset : ℕ}
    {bytes : Bytes} (h : saveBytes host entries walOffset = .ok bytes) :
    bytes = snapshotBytes host entries walOffset ∧ entries.length < 2^32 := by
  unfold saveBytes at h
  split at h
  · cases h
  rename_i hn
  cases hbody : writeEntries host entries with
  | error e =>
    rw [hbody] at h
    cases h
  | ok body =>
    rw [hbody] at h
    obtain rfl := Except.ok.inj h
    rw [writeEntries_eq hbody]
    exact ⟨rfl, Nat.lt_of_not_le hn⟩

end ConcurrentKV
