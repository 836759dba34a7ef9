import ConcurrentKV.Snapshot

/-! The snapshot format as a language of files: what `Load` takes from a file is what stands in
it, a file can be read in one way only, and a file that was cut is not read at all. -/
namespace ConcurrentKV
open ByteCodec OpLog

/-- `Snapshot::Load`, statement by statement. The target is assigned after the last entry has been
read, and nothing can throw behind that. -/
def Snapshot.load (host : ByteOrder) (file : Option Bytes) :
    ExceptT SnapshotError (StateM Store) SnapshotLoadResult := do
  let some file := file | return {}
  let some (firstField,offset) := consumePrimitive host 4 file 0 | return {}
  let mut walOffset := 0
  let mut entryCount := firstField
  let mut position := offset
  if firstField = kSnapshotMagic then
    let some (version,offset) := consumePrimitive host 4 file position | throw .loadMetadata
    if version ≠ kSnapshotVersion then throw .loadMetadata
    let some (covered,offset) := consumePrimitive host 8 file offset | throw .loadMetadata
    let some (count,offset) := consumePrimitive host 4 file offset | throw .loadMetadata
    walOffset := covered
    entryCount := count
    position := offset
  let loaded ← liftExcept (readEntries host file entryCount position ∅)
  set loaded
  return ⟨true, entryCount, walOffset⟩
where
  liftExcept (x : Except SnapshotError Store) : ExceptT SnapshotError (StateM Store) Store :=
    ExceptT.mk (pure x)

/-- The target of a failed load is the one that was passed in. -/
theorem Snapshot.load_eq (host : ByteOrder) (file : Option Bytes) (store : Store) :
    (load host file).run.run store = match loadSnapshot host file store with
      | .error e => (.error e, store)
      | .ok (result,loaded) => (.ok result, loaded) := by
  cases file with
  | none => rfl
  | some file =>
    simp only [load, loadSnapshot]
    rcases consumePrimitive host 4 file 0 with _ | ⟨firstField,offset⟩
    · rfl
    by_cases hmagic : firstField = kSnapshotMagic
    · simp only [if_pos hmagic]
      rcases consumePrimitive host 4 file offset with _ | ⟨version,offset⟩
      · rfl
      by_cases hversion : version = kSnapshotVersion
      · simp only [hversion, ne_eq, not_true_eq_false, if_false]
        rcases consumePrimitive host 8 file offset with _ | ⟨covered,offset⟩
        · rfl
        rcases hcount : consumePrimitive host 4 file offset with _ | ⟨count,offset⟩
        · simp only [hcount]
          rfl
        simp only [hcount]
        cases readEntries host file count offset ∅ <;> rfl
      · simp only [ne_eq, hversion, not_false_eq_true]
        rfl
    · simp only [if_neg hmagic]
      cases readEntries host file firstField offset ∅ <;> rfl

variable {host : ByteOrder} {file rest rest' : Bytes} {entry entry' : Bytes × Bytes}
  {entries entries' : List (Bytes × Bytes)} {walOffset walOffset' : ℕ} {m : Store}

/-! ### What stands in a file -/

/-- Every field has a length that the format can write. -/
def Encodable (entries : List (Bytes × Bytes)) : Prop :=
  ∀ entry ∈ entries, entry.1.length < 2^32 ∧ entry.2.length < 2^32

/-- The fields are within the limit of `read_entry`. -/
def EntriesFit (entries : List (Bytes × Bytes)) : Prop :=
  ∀ entry ∈ entries, entry.1.length ≤ kMaxSnapshotFieldLength ∧
    entry.2.length ≤ kMaxSnapshotFieldLength

/-- The file starts with these entries, behind the metadata or, in an older file, behind their
number alone. -/
def SnapshotHolds (host : ByteOrder) (file : Bytes) (entries : List (Bytes × Bytes))
    (walOffset : ℕ) : Prop :=
  entries.length < 2^32 ∧ walOffset < 2^64 ∧ EntriesFit entries ∧ ∃ rest,
    file = snapshotBytes host entries walOffset ++ rest ∨
      (walOffset = 0 ∧ entries.length ≠ kSnapshotMagic ∧
        file = encode host 4 entries.length ++ (entries.flatMap (entryBytes host) ++ rest))

theorem EntriesFit.encodable (h : EntriesFit entries) : Encodable entries := by
  intro entry hmem
  have hfit := h entry hmem
  simp only [kMaxSnapshotFieldLength] at hfit
  omega

theorem readEntry_eq_some {offset next : ℕ} {k v : Bytes}
    (h : readEntry host file offset = .ok (some (k,v,next))) :
    k.length ≤ kMaxSnapshotFieldLength ∧ v.length ≤ kMaxSnapshotFieldLength ∧
      file.drop offset = entryBytes host (k,v) ++ file.drop next := by
  unfold readEntry at h
  split at h
  · cases h
  rename_i keySize o1 h1
  split_ifs at h with hk
  split at h
  · cases h
  rename_i key o2 h2
  split at h
  · cases h
  rename_i valueSize o3 h3
  split_ifs at h with hv
  split at h
  · cases h
  rename_i value o4 h4
  obtain ⟨rfl,rfl,rfl⟩ : key = k ∧ value = v ∧ o4 = next := by simpa using h
  obtain ⟨-,-,-,d1⟩ := (consumeUint_eq_some_iff ..).mp h1
  obtain ⟨rfl,-,-,d2⟩ := (consumeBytes_eq_some_iff ..).mp h2
  obtain ⟨-,-,-,d3⟩ := (consumeUint_eq_some_iff ..).mp h3
  obtain ⟨rfl,-,-,d4⟩ := (consumeBytes_eq_some_iff ..).mp h4
  refine ⟨Nat.not_lt.mp hk, Nat.not_lt.mp hv, ?_⟩
  rw [d1, d2, d3, d4]
  simp only [entryBytes, List.append_assoc]

/-- A loop that ends has read that many entries, one behind the other. -/
theorem readEntries_eq_ok {n offset : ℕ} {loaded : Store}
    (h : readEntries host file n offset loaded = .ok m) :
    ∃ entries rest, entries.length = n ∧ EntriesFit entries ∧
      file.drop offset = entries.flatMap (entryBytes host) ++ rest ∧
      m = entries.foldl (fun m entry => m.insert entry.1 entry.2) loaded := by
  induction n generalizing offset loaded with
  | zero =>
    obtain rfl := Except.ok.inj h
    exact ⟨[], _, rfl, fun _ hmem => absurd hmem List.not_mem_nil, rfl, rfl⟩
  | succ n ih =>
    rw [readEntries] at h
    split at h
    · cases h
    · cases h
    rename_i key value next hread
    obtain ⟨hk,hv,hd⟩ := readEntry_eq_some hread
    obtain ⟨entries,rest,hlen,hfit,hrest,hm⟩ := ih h
    refine ⟨(key,value) :: entries, rest, by rw [List.length_cons, hlen], ?_, ?_, hm⟩
    · intro entry hmem
      rcases List.mem_cons.mp hmem with rfl | hmem
      · exact ⟨hk, hv⟩
      · exact hfit entry hmem
    · rw [hd, hrest, List.flatMap_cons, List.append_assoc]

/-- Without a first field there is no snapshot. -/
theorem loadSnapshot_of_short {path : Option Bytes}
    (h : ∀ bytes, path = some bytes → bytes.length < 4) (store : Store) :
    loadSnapshot host path store = .ok ({}, store) := by
  cases path with
  | none => rfl
  | some bytes =>
    have hshort := h bytes rfl
    have hnone : consumePrimitive host 4 bytes 0 = none := if_pos (by omega)
    simp only [loadSnapshot, hnone]

/-- With one, `Load` throws or returns what stands in the file. -/
theorem loadSnapshot_of_long (hlen : 4 ≤ file.length) (store : Store) :
    (∃ e, loadSnapshot host (some file) store = .error e) ∨
      ∃ entries walOffset, SnapshotHolds host file entries walOffset ∧
        loadSnapshot host (some file) store =
          .ok (⟨true, entries.length, walOffset⟩, storeOf entries) := by
  obtain ⟨firstField,offset,h1⟩ : ∃ v j, consumePrimitive host 4 file 0 = some (v,j) :=
    ⟨_, _, if_neg (by omega)⟩
  obtain ⟨hlt,-,-,d1⟩ := (consumeUint_eq_some_iff ..).mp h1
  rw [List.drop_zero] at d1
  simp only [loadSnapshot, h1]
  by_cases hmagic : firstField = kSnapshotMagic
  · rw [if_pos hmagic]
    subst hmagic
    split
    · exact .inl ⟨_, rfl⟩
    rename_i version o2 h2
    obtain ⟨-,-,-,d2⟩ := (consumeUint_eq_some_iff ..).mp h2
    by_cases hversion : version = kSnapshotVersion
    · subst hversion
      rw [if_neg (fun h => h rfl)]
      split
      · exact .inl ⟨_, rfl⟩
      rename_i covered o3 h3
      obtain ⟨hcovered,-,-,d3⟩ := (consumeUint_eq_some_iff ..).mp h3
      split
      · exact .inl ⟨_, rfl⟩
      rename_i count o4 h4
      obtain ⟨hcount,-,-,d4⟩ := (consumeUint_eq_some_iff ..).mp h4
      split
      · exact .inl ⟨_, rfl⟩
      rename_i loaded hread
      obtain ⟨entries,rest,rfl,hfit,hrest,rfl⟩ := readEntries_eq_ok hread
      refine .inr ⟨entries, covered, ⟨hcount, hcovered, hfit, rest, .inl ?_⟩, rfl⟩
      rw [d1, d2, d3, d4, hrest]
      simp only [snapshotBytes, List.append_assoc]
    · rw [if_pos hversion]
      exact .inl ⟨_, rfl⟩
  · rw [if_neg hmagic]
    split
    · exact .inl ⟨_, rfl⟩
    rename_i loaded hread
    obtain ⟨entries,rest,rfl,hfit,hrest,rfl⟩ := readEntries_eq_ok hread
    refine .inr ⟨entries, 0, ⟨hlt, by norm_num, hfit, rest, .inr ⟨rfl, hmagic, ?_⟩⟩, rfl⟩
    rw [d1, hrest]

/-! ### One way to read a file -/

theorem entryBytes_append_inj (hentry : entry.1.length < 2^32 ∧ entry.2.length < 2^32)
    (hentry' : entry'.1.length < 2^32 ∧ entry'.2.length < 2^32)
    (h : entryBytes host entry ++ rest = entryBytes host entry' ++ rest') :
    entry = entry' ∧ rest = rest' := by
  simp only [entryBytes, List.append_assoc] at h
  obtain ⟨hk,h⟩ := encode_append_inj host hentry.1 hentry'.1 h
  obtain ⟨hkey,h⟩ := List.append_inj h hk
  obtain ⟨hv,h⟩ := encode_append_inj host hentry.2 hentry'.2 h
  obtain ⟨hvalue,h⟩ := List.append_inj h hv
  exact ⟨Prod.ext hkey hvalue, h⟩

theorem flatMap_entryBytes_append_inj (henc : Encodable entries) (henc' : Encodable entries')
    (hlen : entries.length = entries'.length)
    (h : entries.flatMap (entryBytes host) ++ rest = entries'.flatMap (entryBytes host) ++ rest') :
    entries = entries' ∧ rest = rest' := by
  induction entries generalizing entries' with
  | nil =>
    obtain rfl := List.length_eq_zero_iff.mp hlen.symm
    exact ⟨rfl, h⟩
  | cons entry entries ih =>
    obtain ⟨entry',entries',rfl⟩ := List.exists_cons_of_length_eq_add_one hlen.symm
    simp only [List.flatMap_cons, List.append_assoc] at h
    obtain ⟨rfl,htail⟩ := entryBytes_append_inj (henc _ List.mem_cons_self)
      (henc' _ List.mem_cons_self) h
    obtain ⟨rfl,hrest⟩ := ih (fun e he => henc e (List.mem_cons_of_mem _ he))
      (fun e he => henc' e (List.mem_cons_of_mem _ he)) (Nat.succ.inj hlen) htail
    exact ⟨rfl, hrest⟩

/-- Two complete snapshots at the start of one file are the same. -/
theorem snapshotBytes_append_inj (hn : entries.length < 2^32) (hn' : entries'.length < 2^32)
    (hoff : walOffset < 2^64) (hoff' : walOffset' < 2^64) (henc : Encodable entries)
    (henc' : Encodable entries')
    (h : snapshotBytes host entries walOffset ++ rest =
      snapshotBytes host entries' walOffset' ++ rest') :
    entries = entries' ∧ walOffset = walOffset' ∧ rest = rest' := by
  simp only [snapshotBytes, List.append_assoc] at h
  obtain ⟨-,h⟩ := encode_append_inj host (by decide) (by decide) h
  obtain ⟨-,h⟩ := encode_append_inj host (by decide) (by decide) h
  obtain ⟨hw,h⟩ := encode_append_inj host hoff hoff' h
  obtain ⟨hlen,h⟩ := encode_append_inj host hn hn' h
  obtain ⟨he,hrest⟩ := flatMap_entryBytes_append_inj henc henc' hlen h
  exact ⟨he, hw, hrest⟩

/-- What a file holds at whose start a snapshot was written: that snapshot, all of it. -/
theorem SnapshotHolds.of_written {more : Bytes} (h : SnapshotHolds host file entries' walOffset')
    (hn : entries.length < 2^32) (hoff : walOffset < 2^64) (henc : Encodable entries)
    (hfile : file ++ more = snapshotBytes host entries walOffset) :
    entries' = entries ∧ walOffset' = walOffset ∧ more = [] := by
  obtain ⟨hn',hoff',hfit,rest,rfl | ⟨-,hmagic,rfl⟩⟩ := h
  · rw [List.append_assoc, ← List.append_nil (snapshotBytes host entries walOffset)] at hfile
    obtain ⟨he,hw,hrest⟩ := snapshotBytes_append_inj hn' hn hoff' hoff hfit.encodable henc hfile
    exact ⟨he, hw, (List.append_eq_nil_iff.mp hrest).2⟩
  · -- the older format has its count where the magic stands
    simp only [snapshotBytes, List.append_assoc] at hfile
    obtain ⟨hcount,-⟩ := encode_append_inj host hn' (by decide) hfile
    exact absurd hcount hmagic

/-! ### Saving and loading -/

/-- A map has as many entries as are listed, whatever the order. -/
theorem Enumerates.length_eq (h : Enumerates entries m) : entries.length = m.keys.card := by
  have hkeys : m.keys = (entries.map Prod.fst).toFinset := by
    ext k
    rw [Finmap.mem_keys, ← Finmap.lookup_isSome, Option.isSome_iff_exists, List.mem_toFinset,
      List.mem_map]
    constructor
    · rintro ⟨v,hv⟩
      exact ⟨(k,v), (h.lookup_iff k v).mp hv, rfl⟩
    · rintro ⟨⟨_,v⟩,hmem,rfl⟩
      exact ⟨v, h.lookup hmem⟩
  rw [hkeys, List.toFinset_card_of_nodup h.1, List.length_map]

theorem Enumerates.fit_iff (h : Enumerates entries m) : FieldsFit m ↔ EntriesFit entries :=
  ⟨h.fit, fun hfit k v hv => hfit (k,v) ((h.lookup_iff k v).mp hv)⟩

theorem Enumerates.encodable_iff (h : Enumerates entries m) : Encodable entries ↔
    ∀ k v, m.lookup k = some v → k.length < 2^32 ∧ v.length < 2^32 :=
  ⟨fun henc k v hv => henc (k,v) ((h.lookup_iff k v).mp hv),
    fun hall entry hmem => hall entry.1 entry.2 (h.lookup hmem)⟩

theorem encodable_cons : Encodable (entry :: entries) ↔ Encodable [entry] ∧ Encodable entries := by
  simp [Encodable]

/-- `CheckedSize` of both fields. -/
theorem writeEntry_of_encodable (h : Encodable [entry]) :
    writeEntry host entry = .ok (entryBytes host entry) := by
  obtain ⟨hk,hv⟩ := h entry List.mem_cons_self
  rw [writeEntry, if_neg (Nat.not_le.mpr hk), if_neg (Nat.not_le.mpr hv)]

theorem writeEntry_of_not_encodable (h : ¬Encodable [entry]) :
    ∃ e, writeEntry host entry = .error e := by
  unfold writeEntry
  split_ifs with hk hv
  · exact ⟨_, rfl⟩
  · exact ⟨_, rfl⟩
  · exact absurd (by simpa [Encodable] using And.intro hk hv) h

theorem writeEntries_of_encodable (henc : Encodable entries) :
    writeEntries host entries = .ok (entries.flatMap (entryBytes host)) := by
  induction entries with
  | nil => rfl
  | cons entry entries ih =>
    obtain ⟨hentry,hrest⟩ := encodable_cons.mp henc
    rw [writeEntries, writeEntry_of_encodable hentry, ih hrest]
    rfl

theorem saveBytes_of_encodable (hn : entries.length < 2^32) (henc : Encodable entries) :
    saveBytes host entries walOffset = .ok (snapshotBytes host entries walOffset) := by
  rw [saveBytes, if_neg (Nat.not_le.mpr hn), writeEntries_of_encodable henc]
  rfl

/-- Nothing is loaded from a snapshot with a field above the limit, be it complete or cut. -/
theorem not_loaded_of_oversized {more : Bytes} {store : Store} {result : SnapshotLoadResult}
    (hn : entries.length < 2^32) (hoff : walOffset < 2^64) (henc : Encodable entries)
    (hbig : ¬EntriesFit entries) (hfile : file ++ more = snapshotBytes host entries walOffset)
    (hload : loadSnapshot host (some file) store = .ok (result,m)) : result.loaded = false := by
  by_cases hlen : 4 ≤ file.length
  · rcases loadSnapshot_of_long hlen store with ⟨e,he⟩ | ⟨entries',walOffset',hholds,-⟩
    · rw [he] at hload
      cases hload
    · obtain ⟨rfl,-⟩ := hholds.of_written hn hoff henc hfile
      exact absurd hholds.2.2.1 hbig
  · rw [loadSnapshot_of_short (by rintro bytes ⟨⟩; omega)] at hload
    cases hload
    rfl

/-- A cut file is not taken for a snapshot, wherever it was cut. -/
theorem load_of_strict_cut {more : Bytes} (hn : entries.length < 2^32) (hoff : walOffset < 2^64)
    (henc : Encodable entries) (hfile : file ++ more = snapshotBytes host entries walOffset)
    (hmore : more ≠ []) (target : Store) :
    (∃ e, (Snapshot.load host (some file)).run.run target = (.error e, target)) ∨
      (Snapshot.load host (some file)).run.run target = (.ok {}, target) := by
  rw [Snapshot.load_eq]
  by_cases hlen : 4 ≤ file.length
  · rcases loadSnapshot_of_long hlen target with ⟨e,he⟩ | ⟨entries',walOffset',hholds,-⟩
    · rw [he]
      exact .inl ⟨e, rfl⟩
    · obtain ⟨-,-,hnil⟩ := hholds.of_written hn hoff henc hfile
      exact absurd hnil hmore
  · have hshort : loadSnapshot host (some file) target = .ok ({}, target) := by
      apply loadSnapshot_of_short
      rintro bytes ⟨⟩
      omega
    rw [hshort]
    exact .inr rfl

/-- What is within the limits is saved, and loaded back exactly. -/
theorem load_of_saved (henum : Enumerates entries m) (hcount : m.keys.card < 2^32)
    (hfit : FieldsFit m) (hoff : walOffset < 2^64) :
    saveBytes host entries walOffset = .ok (snapshotBytes host entries walOffset) ∧
      ∀ target, (Snapshot.load host (some (snapshotBytes host entries walOffset))).run.run target =
        (.ok ⟨true, m.keys.card, walOffset⟩, m) := by
  have hn : entries.length < 2^32 := henum.length_eq ▸ hcount
  refine ⟨saveBytes_of_encodable hn (henum.fit_iff.mp hfit).encodable, fun target => ?_⟩
  rw [Snapshot.load_eq, loadSnapshot_snapshotBytes henum hfit hn hoff, henum.length_eq]

/-- What `Save` writes is loaded back exactly, and no shorter file is loaded at all. -/
theorem snapshot_round_trip (host : ByteOrder) (m : Store) (entries : List (Bytes × Bytes))
    (walOffset : ℕ) (henum : Enumerates entries m) (hcount : m.keys.card < 2^32)
    (hfit : FieldsFit m) (hoff : walOffset < 2^64) :
    ∃ bytes, saveBytes host entries walOffset = .ok bytes ∧
      (∀ target, (Snapshot.load host (some bytes)).run.run target =
        (.ok ⟨true, m.keys.card, walOffset⟩, m)) ∧
      ∀ file, file <+: bytes → file ≠ bytes → ∀ target,
        (∃ e, (Snapshot.load host (some file)).run.run target = (.error e, target)) ∨
          ∃ result, result.loaded = false ∧
            (Snapshot.load host (some file)).run.run target = (.ok result, target) := by
  obtain ⟨hsave,hload⟩ := @load_of_saved host entries walOffset m henum hcount hfit hoff
  refine ⟨_, hsave, hload, fun file hpre hne target => ?_⟩
  have hn : entries.length < 2^32 := henum.length_eq ▸ hcount
  obtain ⟨more,hmore⟩ := hpre
  have hrest : more ≠ [] := by
    rintro rfl
    exact hne ((List.append_nil file).symm.trans hmore)
  rcases load_of_strict_cut hn hoff (henum.fit_iff.mp hfit).encodable hmore hrest target with
    he | hok
  · exact .inl he
  · exact .inr ⟨{}, rfl, hok⟩

/-- Two entries, one of them with an empty key and an empty value. -/
def twoEntries : List (Bytes × Bytes) := [([107],[118,118]), ([],[])]

/-- A file with them is loaded back, and for one that ends inside the second nothing is. -/
theorem snapshot_round_trip_two_entries : ∃ bytes,
    saveBytes .little twoEntries 7 = .ok bytes ∧
      (∀ target, (Snapshot.load .little (some bytes)).run.run target =
        (.ok ⟨true, 2, 7⟩, storeOf twoEntries)) ∧
      ∀ target,
        (∃ e, (Snapshot.load .little (some bytes.dropLast)).run.run target = (.error e, target)) ∨
          ∃ result, result.loaded = false ∧
            (Snapshot.load .little (some bytes.dropLast)).run.run target =
              (.ok result, target) := by
  have henum : Enumerates twoEntries (storeOf twoEntries) := ⟨by decide, rfl⟩
  have hfit : FieldsFit (storeOf twoEntries) := by
    intro k v hv
    have hmem : (k,v) ∈ twoEntries := (henum.lookup_iff k v).mp hv
    simp only [twoEntries, List.mem_cons, Prod.mk.injEq, List.not_mem_nil, or_false] at hmem
    rcases hmem with ⟨rfl,rfl⟩ | ⟨rfl,rfl⟩ <;> decide
  obtain ⟨bytes,hsave,hload,hcut⟩ := snapshot_round_trip .little (storeOf twoEntries) twoEntries 7
    henum (by decide) hfit (by decide)
  refine ⟨bytes, hsave, hload, hcut bytes.dropLast (List.dropLast_prefix bytes) fun hsame => ?_⟩
  have hlen := congrArg List.length hsame
  have hsome : saveBytes .little twoEntries 7 ≠ .ok [] := by decide +kernel
  rw [List.length_dropLast] at hlen
  obtain rfl : bytes = [] := List.length_eq_zero_iff.mp (by omega)
  exact hsome hsave

end ConcurrentKV
