import ConcurrentKV.FrozenLog

/-! `Clear` empties the shards and nothing else. What it removed comes back with the next startup,
unless a snapshot that was captured after it has been published. -/
namespace ConcurrentKV
open ByteCodec OpLog Sharding Transition

/-- Where a map comes from: a map, and the records behind the first `skipped` ones. -/
structure Origin where
  skipped : ℕ
  base : Store

/-- The map, when `log` are the records so far. -/
def Origin.map (o : Origin) (log : List Request) : Store :=
  applyOps ((log.drop o.skipped).map Request.op) o.base

theorem Origin.map_append {o : Origin} {log : List Request} (h : o.skipped ≤ log.length)
    (new : List Request) : o.map (log ++ new) = applyOps (new.map Request.op) (o.map log) := by
  rw [Origin.map, List.drop_append_of_le_length h, List.map_append, applyOps_append]
  rfl

/-- `KVStore::Clear`, once it has all shards locked. -/
def KVStore.clear (s : KVStore) : KVStore :=
  { s with shards := fun _ => ∅, writesSinceSnapshot := 0 }

/-! ### Memory -/

/-- The shards follow `now` and the records still to come. -/
structure Rebased (hash : Bytes → ℕ) (now : Store) (s : KVStore) : Prop where
  order : WalThreads.AckOrder s.wal
  shards : ∃ m log, ShardInv hash m log s.wal s.slots s.shards s.returned ∧
    (∀ id, id ∈ log.map Request.id ↔ id ∈ s.wal.history.map Request.id) ∧
    applyOps (log.map Request.op) m = now

variable {host : ByteOrder} {hash : Bytes → ℕ} {m now : Store} {s t : KVStore} {l : Label}
  {base : WriteAheadLog} {before : List WalRecord} {settled : List Request} {disk disk' : Disk}

/-- Deleting every key, under an id that is in use. -/
def deletions (id : ℕ) (keys : List Bytes) : List Request :=
  keys.map fun key => ⟨id, .delete key, []⟩

theorem applyOps_deletions {id : ℕ} {keys : List Bytes} (h : ∀ key, key ∈ m → key ∈ keys) :
    applyOps ((deletions id keys).map Request.op) m = ∅ := by
  apply Finmap.ext_lookup
  intro k
  rw [lookup_applyOps, Finmap.lookup_empty]
  cases he : lastEffect k ((deletions id keys).map Request.op) with
  | none =>
    rw [lastEffect_eq_none_iff] at he
    apply Finmap.lookup_eq_none.mpr
    intro hk
    refine he (.delete k) ?_ rfl
    simpa [deletions] using h k hk
  | some e =>
    obtain ⟨op,hop,-,rfl⟩ := lastEffect_mem he
    simp only [deletions, List.map_map, List.mem_map] at hop
    obtain ⟨key,-,rfl⟩ := hop
    rfl

namespace Rebased

theorem own (h : Rebased hash now s) : OwnInv hash s.wal s.slots := by
  obtain ⟨m,log,hinv,-⟩ := h.shards
  exact hinv.own

theorem of_memInv (h : MemInv hash m s.wal s.slots s.shards s.returned) :
    Rebased hash (applyOps (s.wal.history.map Request.op) m) s :=
  ⟨h.order, m, s.wal.history, h.toShardInv, fun _ => Iff.rfl, rfl⟩

/-- With the shards locked, or free, nothing is between the map and the shards. -/
theorem collect (h : Rebased hash now s) (hfree : ∀ i, (s.slots i).isWriter = false) :
    s.collectData = now := by
  obtain ⟨m,log,hinv,-,rfl⟩ := h.shards
  exact hinv.collect_eq hfree

theorem step {ops : List WalRecord} (h : Rebased hash now s) (hlog : LogInv host s.wal ops)
    (hgood : ∀ w, l = .wal w → w.isAppend = true) (heff : KVStore.Effect host hash s t l) :
    ∃ new, t.wal.history = s.wal.history ++ new ∧
      Rebased hash (applyOps (new.map Request.op) now) t := by
  obtain ⟨new,hhist,hout,hnew⟩ := heff.grows WalThreads.history
    (fun op hwal => WalThreads.prepare_history hwal) <| by
    intro w hlab hwal
    rcases hlab with hlab | ⟨-,hw⟩
    · obtain ⟨new,hhist,-,hnew⟩ := hlog.step (hgood w hlab) hwal
      refine ⟨new, hhist, fun r hr => ?_⟩
      rcases hnew with rfl | ⟨bytes,hjob⟩
      · simp at hr
      · simp [WalThreads.outstanding, hjob, hr]
    · exact ⟨[], by simpa using (h.order.truncation hw hwal).2, by simp⟩
  have hord : WalThreads.AckOrder t.wal := by
    cases heff with
    | prepare i op hold hwal => exact h.order.step hlog rfl hwal
    | wal lab w hl hlab hwal =>
      rcases hlab with hlab | ⟨-,hw⟩
      · exact h.order.step hlog (hgood w hlab) hwal
      · exact (h.order.truncation hw hwal).1
    | same _ hwal | locks _ _ _ _ _ hwal | lockShard _ _ hwal | acknowledge _ _ _ _ _ hwal
    | rethrow _ _ _ _ _ _ hwal | mutate _ _ _ _ _ hwal | ret _ _ _ _ _ _ _ _ hwal
    | proceed _ _ _ _ _ _ _ _ _ _ hwal =>
      rw [hwal]
      exact h.order
  obtain ⟨m,log,hinv,hids,rfl⟩ := h.shards
  have hlogIds : LogIds log s.wal := by
    refine ⟨?_, ?_, ?_⟩
    · intro hid
      exact Nat.lt_irrefl _ (h.order.lt_nextId hinv.own.ids ((hids _).mp hid))
    · intro id hres
      exact (hids id).mpr ((h.order.mem_iff id).mpr (.inl (WalThreads.mem_acknowledged.mpr hres)))
    · intro id e hres hid
      exact h.order.not_mem_of_failed hinv.own.ids hres ((hids id).mp hid)
  refine ⟨new, hhist, hord, m, log ++ new, hinv.step hlogIds heff hout hnew, ?_, ?_⟩
  · intro id
    rw [hhist, List.map_append, List.map_append, List.mem_append, List.mem_append, hids]
  · rw [List.map_append, applyOps_append]

/-- `Clear` with all shards locked: whatever the records were, memory starts again from nothing. -/
theorem clear (h : Rebased hash now s) (hfree : ∀ i, s.slots i = .readers []) :
    Rebased hash ∅ s.clear := by
  obtain ⟨m,log,hinv,hids,rfl⟩ := h.shards
  have hslot {i : Shard} {call : WriteCall} : s.slots i ≠ .writer call := by simp [hfree]
  have hagree {m' : Store} {log' : List Request} (hnow : applyOps (log'.map Request.op) m' = ∅)
      (k : Bytes) : (applyOps ((s.slots (shardIndex hash k)).unappliedIn log') ∅).lookup k =
        (applyOps (log'.map Request.op) m').lookup k := by
    rw [hfree, hnow]
    rfl
  cases log with
  | nil =>
    exact ⟨h.order, ∅, [], ⟨hinv.own, separated_empty _, by simp,
      fun i op pc id hi => absurd hi hslot, hinv.returned, hagree rfl⟩, hids, rfl⟩
  | cons r rest =>
    -- the records stay on the list, and behind them every key is deleted
    let gone := deletions r.id (applyOps ((r :: rest).map Request.op) m).keys.toList
    have hgone : applyOps ((r :: rest ++ gone).map Request.op) m = ∅ := by
      rw [List.map_append, applyOps_append]
      apply applyOps_deletions
      intro key hkey
      exact Finset.mem_toList.mpr (Finmap.mem_keys.mpr hkey)
    refine ⟨h.order, m, r :: rest ++ gone, ⟨hinv.own, separated_empty _, ?_, ?_, ?_,
      hagree hgone⟩, ?_, hgone⟩
    · intro x hx i op hi
      exact absurd hi hslot
    · intro i op pc id hi
      exact absurd hi hslot
    · intro c hc
      exact (hinv.returned c hc).mono List.prefix_rfl (List.prefix_append _ _)
    · intro id
      change _ ↔ id ∈ s.wal.history.map Request.id
      rw [List.map_append, List.mem_append, hids]
      refine or_iff_left_of_imp ?_
      intro hid
      obtain ⟨x,hx,rfl⟩ := List.mem_map.mp hid
      obtain ⟨key,-,rfl⟩ := List.mem_map.mp hx
      exact (hids r.id).mp List.mem_cons_self

end Rebased

/-! ### The log and the copies -/

/-- What a step of the store does to the settled log. -/
theorem Ground.of_steps (h : Ground host s.wal base before settled)
    (hown : OwnInv hash s.wal s.slots) (hlock : LockInv s.slots s.admin) (hl : l.appendsOk = true)
    (hstep : KVStore.Steps host hash s l t) :
    (¬s.Rotates t ∧ Ground host t.wal base before settled) ∨
    (∃ batch n, DuringWrite host base n before batch ∧ (∀ r ∈ batch, r ∈ s.wal.outstanding) ∧
      t.admin = s.admin ∧ t.snapshot = s.snapshot ∧ t.temp = s.temp ∧ t.unsynced = s.unsynced ∧
      Ground host t.wal (base.appended host (batch.map Request.op)) (before ++ batch.map Request.op)
        (settled ++ batch)) ∨
    (∃ kind wal, s.admin = some ⟨kind, .rotating⟩ ∧
      t = { s with wal := wal, admin := some ⟨kind, .truncated⟩ } ∧
      Ground host t.wal s.wal.wal.cleared [] settled) := by
  by_cases hrot : s.Rotates t
  · obtain ⟨kind,wal,hadmin,hwal,rfl⟩ := hstep.of_rotates hrot
    have hidle := hown.outstanding_eq_nil fun i => (hlock i).mpr ⟨_, hadmin, trivial⟩
    exact .inr (.inr ⟨kind, wal, hadmin, rfl, h.clear hidle hwal⟩)
  have hsame (hwal : t.wal = s.wal) : Ground host t.wal base before settled := by
    rw [hwal]
    exact h
  have hout {batch : List Request} {phase : Phase} (hjob : s.wal.job = some ⟨batch, phase⟩) :
      ∀ r ∈ batch, r ∈ s.wal.outstanding := by
    intro r hr
    simp [WalThreads.outstanding, hjob, hr]
  cases hstep with
  | prepare i op wal hslot hwal =>
    rcases h.step rfl hwal with hg | ⟨batch,n,hd,hjob,-,hg⟩
    · exact .inl ⟨hrot, hg⟩
    · exact .inr (.inl ⟨batch, n, hd, hout hjob, rfl, rfl, rfl, rfl, hg⟩)
  | wal w wal hprep hwal =>
    rcases h.step hl hwal with hg | ⟨batch,n,hd,hjob,-,hg⟩
    · exact .inl ⟨hrot, hg⟩
    · exact .inr (.inl ⟨batch, n, hd, hout hjob, rfl, rfl, rfl, rfl, hg⟩)
  | rotate kind wal hadmin hwal => exact absurd ⟨kind, hadmin, rfl⟩ hrot
  | syncTruncation kind wal hadmin hwal =>
    rcases hwal with hwal | ⟨rfl,-⟩
    · exact .inl ⟨hrot, h.clearSync hwal⟩
    · exact .inl ⟨hrot, hsame rfl⟩
  | _ => exact .inl ⟨hrot, hsame rfl⟩

/-- Every shard is locked, and nothing is copied yet. -/
def AdminCall.hasAll : AdminCall → Bool
  | ⟨_, .locking n⟩ => decide (kShardCount ≤ n)
  | _ => false

/-- The copy is at the snapshot's path, and the directory is synced. -/
def AdminCall.hasPublished : AdminCall → Bool
  | ⟨_, .saving .directorySynced _ _⟩ => true
  | _ => false

/-- The copy that the call saves, with its offset. -/
def AdminCall.copy : AdminCall → Option (Store × ℕ)
  | ⟨_, .releasing data walOffset _⟩ | ⟨_, .saving _ data walOffset⟩ => some (data,walOffset)
  | _ => none

/-- A call has its copy from before, or takes it now. -/
theorem KVStore.Steps.copy_cases (h : KVStore.Steps host hash s l t) {call : AdminCall}
    {data : Store} {walOffset : ℕ} (ht : t.admin = some call)
    (hcopy : call.copy = some (data,walOffset)) :
    (∃ c, s.admin = some c ∧ c.kind = call.kind ∧ c.copy = some (data,walOffset)) ∨
    (∃ n, s.admin = some ⟨call.kind, .locking n⟩ ∧ kShardCount ≤ n ∧ data = s.collectData ∧
      (call.kind = .compactPersistence ∧ walOffset = 0 ∨
        call.kind ≠ .compactPersistence ∧ s.wal.wal.currentOffset = .ok walOffset)) := by
  cases h with
  | captureCheckpoint epoch n offset hn hadmin hio hoff =>
    obtain rfl := Option.some.inj ht
    obtain ⟨rfl,rfl⟩ := Prod.mk.inj (Option.some.inj hcopy)
    exact .inr ⟨n, hadmin, hn, rfl, .inr ⟨by simp, hoff⟩⟩
  | captureSave n offset hn hadmin hio hoff =>
    obtain rfl := Option.some.inj ht
    obtain ⟨rfl,rfl⟩ := Prod.mk.inj (Option.some.inj hcopy)
    exact .inr ⟨n, hadmin, hn, rfl, .inr ⟨by simp, hoff⟩⟩
  | captureCompact n hn hadmin =>
    obtain rfl := Option.some.inj ht
    obtain ⟨rfl,rfl⟩ := Prod.mk.inj (Option.some.inj hcopy)
    exact .inr ⟨n, hadmin, hn, rfl, .inl ⟨rfl, rfl⟩⟩
  | release _ _ _ _ _ hadmin | released _ _ _ _ _ hadmin | writeTemp _ _ _ _ _ hadmin
  | syncTemp _ _ _ hadmin | rename _ _ _ hadmin | syncDirectory _ _ _ hadmin =>
    obtain rfl := Option.some.inj ht
    exact .inl ⟨_, hadmin, rfl, hcopy⟩
  | verified kind _ _ hadmin =>
    obtain rfl := Option.some.inj ht
    cases kind <;> cases hcopy
  | syncTruncation kind _ hadmin =>
    obtain rfl := Option.some.inj ht
    cases kind <;> cases hcopy
  | cancelled | leave => cases ht
  | enter | checked | cancel | lock | captureFails | captureClear | verifyFails | rotate
  | rotateFails | removeSnapshot | removeTemp | syncRemoval | reset | unlock | fault
  | writeTempFails | enterCheckpoint =>
    obtain rfl := Option.some.inj ht
    cases hcopy
  | _ => exact .inl ⟨call, ht, rfl, hcopy⟩

/-- The step in which a copy is published for good. -/
theorem KVStore.Steps.publishes (h : KVStore.Steps host hash s l t)
    (ht : t.admin.any AdminCall.hasPublished = true)
    (hs : s.admin.any AdminCall.hasPublished = false) : ∃ kind data walOffset,
      s.admin = some ⟨kind, .saving .renamed data walOffset⟩ ∧
      t = { s with
        unsynced := []
        admin := some ⟨kind, .saving .directorySynced data walOffset⟩ } := by
  cases h with
  | syncDirectory kind data walOffset hadmin => exact ⟨kind, data, walOffset, hadmin, rfl⟩
  | verified kind _ _ hadmin | syncTruncation kind _ hadmin => cases kind <;> cases ht
  | cancelled | leave | enter | checked | cancel | lock | captureFails | captureCheckpoint
  | captureSave | captureCompact | captureClear | release | released | writeTemp | writeTempFails
  | syncTemp | rename | verifyFails | rotate | rotateFails | removeSnapshot | removeTemp
  | syncRemoval | reset | unlock | fault | enterCheckpoint => cases ht
  | _ =>
    rw [show s.admin.any AdminCall.hasPublished = true from ht] at hs
    cases hs

/-! ### The store and its calls of `Clear` -/

/-- A store, and where the maps in memory, in the last copy and in the files come from. -/
structure ClearedStore where
  store : KVStore
  memory : Origin
  copy : Origin
  /-- What a startup can find. -/
  files : List Origin
  /-- There was no `Clear` since the log was empty. -/
  fresh : Bool

inductive ClearLabel where
  /-- `KVStore::Clear`, which no other call sees half done. -/
  | clear
  | store (l : Label)

def ClearLabel.recoverable : ClearLabel → Bool
  | .clear => true
  | .store l => l.recoverable

namespace ClearedStore

def start (s : KVStore) (fresh : Bool) : ClearedStore :=
  ⟨s, ⟨0, s.collectData⟩, ⟨0, s.collectData⟩, [⟨0, s.collectData⟩], fresh⟩

/-- After a step of the store. A call that gets the last shard lock is going to copy what is in
memory; a copy that is published for good takes the place of everything before it. -/
def advance (x : ClearedStore) (t : KVStore) : ClearedStore :=
  let fresh := x.fresh || decide (t.wal.wal.file = [])
  if t.admin.any AdminCall.hasAll && !x.store.admin.any AdminCall.hasAll then
    ⟨t, x.memory, x.memory, x.files ++ [x.memory], fresh⟩
  else if t.admin.any AdminCall.hasPublished && !x.store.admin.any AdminCall.hasPublished then
    ⟨t, x.memory, x.copy, [x.copy], fresh⟩
  else ⟨t, x.memory, x.copy, x.files, fresh⟩

def step (host : ByteOrder) (hash : Bytes → ℕ) (x : ClearedStore) : ClearLabel → Option ClearedStore
  | .clear =>
    if ∀ i, x.store.slots i = .readers [] then some { x with
      store := x.store.clear
      memory := ⟨x.store.wal.history.length, ∅⟩
      fresh := decide (x.store.wal.wal.file = []) }
    else none
  | .store l => (x.store.step host hash l).map x.advance

/-- No exception interrupts a compaction between its rename and its truncation if there was a
`Clear` since the log was empty. -/
def calm (host : ByteOrder) (x : ClearedStore) : ClearLabel → Prop
  | .clear => True
  | .store l => x.fresh = false → x.store.exposed = true → x.store.interrupts host l = false

instance (host : ByteOrder) (x : ClearedStore) : (l : ClearLabel) → Decidable (x.calm host l)
  | .clear => inferInstanceAs (Decidable True)
  | .store _ => inferInstanceAs (Decidable (_ → _ → _))

end ClearedStore

/-- The files hold the map of one of the origins. -/
structure Kept (host : ByteOrder) (hash : Bytes → ℕ) (x : ClearedStore) (base : WriteAheadLog)
    (before : List WalRecord) (settled : List Request) : Prop where
  ground : Ground host x.store.wal base before settled
  mem : Rebased hash (x.memory.map x.store.wal.history) x.store
  lock : LockInv x.store.slots x.store.admin
  path : PathInv x.store.admin
  snap : SnapInv host (fun m => ∃ o ∈ x.files, m = o.map settled) base.file before x.store.admin
    x.store.snapshot x.store.temp x.store.unsynced
  copied : ∀ call data walOffset, x.store.admin = some call → call.copy = some (data,walOffset) →
    Copied host (· = x.copy.map settled) base.file before call.kind data walOffset
  pinned : x.store.admin.any AdminCall.hasAll = true → x.memory = x.copy
  kept : x.copy ∈ x.files
  bound : ∀ o, o = x.memory ∨ o ∈ x.files → o.skipped ≤ settled.length
  fixed : x.fresh = true → ∀ o, o = x.memory ∨ o ∈ x.files → Fixed before (o.map settled)
  fit : ∀ o, o = x.memory ∨ o ∈ x.files → FieldsFit (o.map settled)

namespace Kept

variable {x y : ClearedStore}

theorem base_room (h : Kept host hash x base before settled) : base.file.length ≤ kMaxStreamoff :=
  h.ground.span.1.length_le.trans h.ground.log.room

/-- An empty file has no records. -/
theorem before_eq_nil (h : Ground host s.wal base before settled) (hnil : s.wal.wal.file = []) :
    before = [] := by
  have hbase : base.file = [] := List.prefix_nil.mp (hnil ▸ h.span.1)
  have hshape := h.inv.agree.fileShape
  rw [hbase] at hshape
  exact hshape.eq_nil

/-- With all shards locked memory has the settled map. -/
theorem quiet (h : Kept host hash x base before settled) (hall : ∀ i, x.store.slots i = .admin) :
    x.store.wal.outstanding = [] ∧ base = x.store.wal.wal ∧ x.store.wal.history = settled ∧
      x.store.collectData = x.memory.map settled := by
  have hidle := h.mem.own.outstanding_eq_nil hall
  obtain ⟨-,hbase,hhist⟩ := h.ground.rest_of_idle hidle
  refine ⟨hidle, hbase, hhist, ?_⟩
  rw [← hhist]
  apply h.mem.collect
  intro i
  rw [hall i]
  rfl

/-- The map that a call copies when it has all shards locked. -/
theorem capture (h : Kept host hash x base before settled) {P : Store → Prop}
    (hP : P (x.memory.map settled)) {kind : AdminKind} {n : ℕ}
    (hadmin : x.store.admin = some ⟨kind, .locking n⟩) (hn : kShardCount ≤ n) :
    SnapInv.Capture P base.file x.store := by
  obtain ⟨-,rfl,-,hdata⟩ := h.quiet fun i => (h.lock i).mpr ⟨_, hadmin, i.isLt.trans_le hn⟩
  refine ⟨hdata ▸ hP, hdata ▸ h.fit _ (.inl rfl), ?_⟩
  intro off hoff
  unfold WriteAheadLog.currentOffset at hoff
  split at hoff
  · exact (Except.ok.inj hoff).symm
  · cases hoff

/-- While a batch is outstanding nobody has all shards locked. -/
theorem not_compacting (h : Kept host hash x base before settled)
    (hbusy : x.store.wal.outstanding ≠ []) (call : AdminCall) (hcall : x.store.admin = some call) :
    call.compacting = false := by
  rw [← Bool.not_eq_true]
  intro hc
  apply hbusy
  exact (h.quiet fun i => (h.lock i).mpr ⟨_, hcall, AdminCall.holds_of_compacting hc i⟩).1

/-- A step in which nothing settles and the log is not truncated. -/
theorem still (h : Kept host hash x base before settled) (hl : l.recoverable = true)
    (hcalm : x.calm host (.store l)) (hstep : x.store.step host hash l = some t)
    (hrot : ¬x.store.Rotates t) (hground : Ground host t.wal base before settled)
    (hmem : Rebased hash (x.memory.map t.wal.history) t) :
    Kept host hash (x.advance t) base before settled := by
  have hsteps := KVStore.steps_of_step hstep
  have hlock := h.lock.step h.path hsteps
  have hpath := h.path.step hsteps
  have hclear : l ≠ .enter .clearPersistence := by
    rintro rfl
    cases hl
  have hmemory (hall : x.store.admin.any AdminCall.hasAll = true) : x.memory ∈ x.files := by
    rw [h.pinned hall]
    exact h.kept
  -- with `files` at least as many as before, and memory among them if it is copied now
  have hsnap {files : List Origin} (hsub : ∀ o ∈ x.files, o ∈ files)
      (hsup : ∀ o ∈ files, o = x.memory ∨ o ∈ x.files) :
      SnapInv host (fun m => ∃ o ∈ files, m = o.map settled) base.file before t.admin t.snapshot
        t.temp t.unsynced := by
    refine (h.snap.mono ?_).step h.path h.base_room hsteps hclear hrot ?_ ?_
    · rintro m ⟨o,ho,he⟩
      exact ⟨o, hsub o ho, he⟩
    · intro kind n hadmin hn
      refine h.capture ⟨x.memory, hsub _ (hmemory ?_), rfl⟩ hadmin hn
      simp [hadmin, AdminCall.hasAll, hn]
    · rintro call hcall hexp hthrow m ⟨o,ho,rfl⟩ -
      refine h.fixed ?_ o (hsup o ho)
      rw [← Bool.not_eq_false]
      intro hstale
      have hno := hcalm hstale (by simp [KVStore.exposed, hcall, hexp])
      rw [KVStore.interrupts_of_throw hstep hcall hexp hthrow] at hno
      cases hno
  have hcopied (call : AdminCall) (data : Store) (walOffset : ℕ) (hcall : t.admin = some call)
      (hcopy : call.copy = some (data,walOffset)) :
      Copied host (· = x.copy.map settled) base.file before call.kind data walOffset := by
    rcases hsteps.copy_cases hcall hcopy with ⟨c,hc,hkind,hold⟩ | ⟨n,hadmin,hn,hdata,hoff⟩
    · rw [← hkind]
      exact h.copied c data walOffset hc hold
    · have hpin := h.pinned (by simp [hadmin, AdminCall.hasAll, hn])
      have hcap := h.capture (P := (· = x.copy.map settled)) (congrArg (Origin.map · settled) hpin)
        hadmin hn
      rw [hdata]
      rcases hoff with ⟨hkind,rfl⟩ | ⟨hkind,hoff⟩
      · exact ⟨hcap.fit, .inl ⟨hkind, rfl, hcap.copy⟩⟩
      · exact hcap.copied hkind hoff
  have hfixed (hfresh : (x.fresh || decide (t.wal.wal.file = [])) = true) (o : Origin)
      (ho : o = x.memory ∨ o ∈ x.files) : Fixed before (o.map settled) := by
    rcases Bool.or_eq_true_iff.mp hfresh with hold | hnil
    · exact h.fixed hold o ho
    · rw [before_eq_nil hground (of_decide_eq_true hnil)]
      exact fixed_nil _
  unfold ClearedStore.advance
  split
  · rename_i hcap
    obtain ⟨hall,-⟩ := Bool.and_eq_true_iff.mp hcap
    have hsup (o : Origin) (ho : o = x.memory ∨ o ∈ x.files ++ [x.memory]) :
        o = x.memory ∨ o ∈ x.files := by
      simpa [or_comm] using ho
    refine ⟨hground, hmem, hlock, hpath, hsnap (by simp +contextual) (fun o ho => hsup o (.inr ho)),
      ?_, fun _ => rfl, by simp, fun o ho => h.bound o (hsup o ho),
      fun hf o ho => hfixed hf o (hsup o ho), fun o ho => h.fit o (hsup o ho)⟩
    -- a call that has just got its last lock has no copy yet
    intro call data walOffset hcall hcopy
    rw [hcall] at hall
    obtain ⟨kind,pc⟩ := call
    cases pc with
    | locking n => cases hcopy
    | _ => cases hall
  · rename_i hcap
    have hpin (hall : t.admin.any AdminCall.hasAll = true) : x.memory = x.copy := by
      apply h.pinned
      simpa [hall] using hcap
    split
    · rename_i hpub
      obtain ⟨hnow,hbefore⟩ := Bool.and_eq_true_iff.mp hpub
      have hsup (o : Origin) (ho : o = x.memory ∨ o ∈ [x.copy]) : o = x.memory ∨ o ∈ x.files := by
        rcases ho with ho | ho
        · exact .inl ho
        · exact .inr (List.mem_singleton.mp ho ▸ h.kept)
      refine ⟨hground, hmem, hlock, hpath, ?_, hcopied, hpin, by simp,
        fun o ho => h.bound o (hsup o ho), fun hf o ho => hfixed hf o (hsup o ho),
        fun o ho => h.fit o (hsup o ho)⟩
      -- nothing but the copy is left at the snapshot's path
      obtain ⟨kind,data,walOffset,hadmin,rfl⟩ := hsteps.publishes hnow (by simpa using hbefore)
      obtain ⟨hkind,-,hsaved⟩ := h.snap.busy _ _ hadmin
      have hcopy : Copied host (fun m => ∃ o ∈ [x.copy], m = o.map settled) base.file before kind
          data walOffset :=
        (hcopied _ data walOffset rfl rfl).mono fun m hm => ⟨x.copy, List.mem_singleton_self _, hm⟩
      exact SnapInv.go (by simp) hkind ⟨hcopy, hsaved, rfl⟩
    · exact ⟨hground, hmem, hlock, hpath, hsnap (fun o ho => ho) (fun o ho => .inr ho),
        hcopied, hpin, h.kept, h.bound, hfixed, h.fit⟩

/-- Without a new copy or a publication only the store moves. -/
theorem advance_eq (hall : t.admin.any AdminCall.hasAll = true →
      x.store.admin.any AdminCall.hasAll = true)
    (hpub : t.admin.any AdminCall.hasPublished = true →
      x.store.admin.any AdminCall.hasPublished = true) :
    x.advance t = ⟨t, x.memory, x.copy, x.files, x.fresh || decide (t.wal.wal.file = [])⟩ := by
  unfold ClearedStore.advance
  rw [if_neg, if_neg]
  · intro hp
    obtain ⟨hnow,hbefore⟩ := Bool.and_eq_true_iff.mp hp
    rw [hpub hnow] at hbefore
    cases hbefore
  · intro hp
    obtain ⟨hnow,hbefore⟩ := Bool.and_eq_true_iff.mp hp
    rw [hall hnow] at hbefore
    cases hbefore

/-- One step of the store. -/
theorem stepStore (h : Kept host hash x base before settled) (hl : l.recoverable = true)
    (hcalm : x.calm host (.store l)) (hstep : x.store.step host hash l = some t) :
    ∃ base before settled, Kept host hash (x.advance t) base before settled := by
  have hsteps := KVStore.steps_of_step hstep
  have hok : l.appendsOk = true := by
    cases l with
    | wal w => exact hl
    | _ => rfl
  have hlock := h.lock.step h.path hsteps
  have hpath := h.path.step hsteps
  obtain ⟨new,hhist,hmem⟩ := h.mem.step h.ground.log (fun w hw => by rw [hw] at hl; exact hl)
    (hsteps.effect h.lock)
  have hmem : Rebased hash (x.memory.map t.wal.history) t := by
    rw [hhist, Origin.map_append ?_]
    · exact hmem
    · rw [h.ground.history_eq, List.length_append]
      exact (h.bound _ (.inl rfl)).trans (Nat.le_add_right _ _)
  rcases h.ground.of_steps h.mem.own h.lock hok hsteps with ⟨hrot,hground⟩ |
    ⟨batch,n,hd,hout,ha,hs,htemp,hun,hground⟩ | ⟨kind,wal,hadmin,rfl,hground⟩
  · exact ⟨_, _, _, h.still hl hcalm hstep hrot hground hmem⟩
  · -- a batch settles, on every origin alike
    have hbusy : x.store.wal.outstanding ≠ [] := by
      obtain ⟨r,hr⟩ := List.exists_mem_of_ne_nil _ hd.limits.ne_nil
      exact List.ne_nil_of_mem (hout r hr)
    have hmap (o : Origin) (ho : o = x.memory ∨ o ∈ x.files) :
        o.map (settled ++ batch) = applyOps (batch.map Request.op) (o.map settled) :=
      Origin.map_append (h.bound o ho) batch
    rw [advance_eq (by rw [ha]; exact id) (by rw [ha]; exact id)]
    refine ⟨_, _, _, hground, hmem, hlock, hpath, ?_, ?_, ?_, h.kept, ?_, ?_, ?_⟩
    · dsimp only
      rw [ha, hs, htemp, hun]
      refine h.snap.grow h.path ?_ (fun W j => hd.resumes) (h.not_compacting hbusy)
      rintro m ⟨o,ho,rfl⟩
      exact ⟨o, ho, (hmap o (.inr ho)).symm⟩
    · intro call data walOffset hcall hcopy
      have hold : x.store.admin = some call := ha ▸ hcall
      refine (h.copied call data walOffset hold hcopy).grow ?_ ?_ fun W j => hd.resumes
      · intro hkind
        have hfree := h.not_compacting hbusy call hold
        have hpasses := h.path _ hold
        obtain ⟨kind,pc⟩ := call
        obtain rfl : kind = .compactPersistence := hkind
        cases pc with
        | releasing => cases hpasses
        | saving => cases hfree
        | _ => cases hcopy
      · rintro m rfl
        exact (hmap x.copy (.inr h.kept)).symm
    · dsimp only
      rw [ha]
      exact h.pinned
    · intro o ho
      rw [List.length_append]
      exact (h.bound o ho).trans (Nat.le_add_right _ _)
    · intro hfresh o ho
      rcases Bool.or_eq_true_iff.mp hfresh with hold | hnil
      · rw [hmap o ho]
        exact (h.fixed hold o ho).append _
      · rw [before_eq_nil hground (of_decide_eq_true hnil)]
        exact fixed_nil _
    · intro o ho
      rw [hmap o ho]
      exact (h.fit o ho).applyOps hd.ok
  · -- a compaction truncates the log
    rw [advance_eq (by intro hp; cases hp) (by intro hp; cases hp)]
    refine ⟨_, _, _, hground, hmem, hlock, hpath, h.snap.rotate hadmin, ?_, ?_, h.kept, h.bound, ?_,
      h.fit⟩
    · intro call data walOffset hcall hcopy
      obtain rfl := Option.some.inj hcall
      cases hcopy
    · intro hp
      cases hp
    · intro _ o _
      exact fixed_nil _

/-- `Clear`. -/
theorem clear (h : Kept host hash x base before settled)
    (hfree : ∀ i, x.store.slots i = .readers []) :
    Kept host hash { x with
      store := x.store.clear
      memory := ⟨x.store.wal.history.length, ∅⟩
      fresh := decide (x.store.wal.wal.file = []) } base before settled := by
  have hidle : x.store.wal.outstanding = [] := by
    apply List.eq_nil_iff_forall_not_mem.mpr
    intro r hr
    have howner := h.mem.own.owner r hr
    rw [hfree] at howner
    cases howner
  obtain ⟨-,-,hhist⟩ := h.ground.rest_of_idle hidle
  have hempty : (⟨x.store.wal.history.length, ∅⟩ : Origin).map settled = ∅ := by
    simp [Origin.map, hhist]
  refine ⟨h.ground, ?_, h.lock, h.path, h.snap, h.copied, ?_, h.kept, ?_, ?_, ?_⟩
  · have hnow : (⟨x.store.wal.history.length, ∅⟩ : Origin).map x.store.wal.history = ∅ := by
      simp [Origin.map]
    change Rebased hash ((⟨x.store.wal.history.length, ∅⟩ : Origin).map x.store.wal.history) _
    rw [hnow]
    exact h.mem.clear hfree
  · intro hall
    obtain ⟨⟨kind,pc⟩,hadmin,hpc⟩ := (Option.any_eq_true _ _).mp hall
    cases pc with
    | locking n =>
      -- whoever has all shards locked leaves none to `Clear`
      have hn : kShardCount ≤ n := of_decide_eq_true hpc
      have hslot :=
        (h.lock ⟨0, by decide⟩).mpr ⟨_, hadmin, (by decide : 0 < kShardCount).trans_le hn⟩
      rw [hfree] at hslot
      cases hslot
    | _ => cases hpc
  · rintro o (rfl | ho)
    · rw [← hhist]
    · exact h.bound o (.inr ho)
  · intro hfresh o _
    rw [before_eq_nil h.ground (of_decide_eq_true hfresh)]
    exact fixed_nil _
  · rintro o (rfl | ho)
    · rw [hempty]
      exact fieldsFit_empty
    · exact h.fit o (.inr ho)

/-- The files that a crash leaves hold the map of an origin, and perhaps records of calls that
are still waiting for their append. -/
theorem crash (h : Kept host hash x base before settled) (hcrash : x.store.Crash disk)
    (hcalm : x.fresh = false → x.store.exposed = false) :
    ∃ o ∈ x.files, ∃ inFlight : List Request, (∀ r ∈ inFlight, r ∈ x.store.wal.outstanding) ∧
      DiskHolds host disk (o.map (x.store.wal.acked ++ inFlight)) (x.fresh = true) := by
  obtain ⟨hfile,hsnap⟩ := hcrash
  obtain ⟨extra,hextra,hshape,hres⟩ := h.ground.crash hfile
  obtain ⟨rest,hrest,hout⟩ := h.ground.acked_settled h.mem.order h.mem.own.ids
  have hheld : Held host (fun m => ∃ o ∈ x.files, m = o.map settled) base.file before
      x.store.snapshot := by
    refine h.snap.held h.path h.base_room ?_
    rintro call hcall hexp m ⟨o,ho,rfl⟩ -
    refine h.fixed ?_ o (.inr ho)
    rw [← Bool.not_eq_false]
    intro hstale
    have hno := hcalm hstale
    simp [KVStore.exposed, hcall, hexp] at hno
  obtain ⟨m,⟨o,ho,rfl⟩,hcov⟩ := hheld
  have hmap : o.map (x.store.wal.acked ++ (rest ++ extra)) =
      applyOps (extra.map Request.op) (o.map settled) := by
    rw [← List.append_assoc, ← hrest]
    exact Origin.map_append (h.bound o (.inr ho)) extra
  refine ⟨o, ho, rest ++ extra, ?_, ?_⟩
  · intro r hr
    rcases List.mem_append.mp hr with hr | hr
    · exact hout r hr
    · exact hextra r hr
  · rw [hmap]
    refine ⟨hfile.2, ?_, before ++ extra.map Request.op, hshape, ?_, ?_⟩
    · obtain ⟨portable,hrec⟩ := hshape.recordOk
      exact (h.fit o (.inr ho)).applyOps fun op hop => hrec op (List.mem_append_right _ hop)
    · rw [hsnap]
      exact hcov.grow hres
    · intro hfresh
      exact (h.fixed hfresh o (.inr ho)).append _

end Kept

/-! ### Every run -/

variable {x y : ClearedStore} {fresh : Bool}

theorem Kept.step {l : ClearLabel} (h : ∃ base before settled, Kept host hash x base before settled)
    (hl : l.recoverable = true) (hcalm : x.calm host l) (hstep : x.step host hash l = some y) :
    ∃ base before settled, Kept host hash y base before settled := by
  obtain ⟨base,before,settled,h⟩ := h
  cases l with
  | clear =>
    simp only [ClearedStore.step] at hstep
    split at hstep
    · rename_i hfree
      obtain rfl := Option.some.inj hstep
      exact ⟨_, _, _, h.clear hfree⟩
    · cases hstep
  | store l =>
    obtain ⟨t,ht,rfl⟩ := Option.map_eq_some_iff.mp hstep
    exact h.stepStore hl hcalm ht

theorem Kept.run {labels : List ClearLabel}
    (h : ∃ base before settled, Kept host hash x base before settled)
    (hl : ∀ l ∈ labels, l.recoverable = true)
    (hcalm : Along (ClearedStore.step host hash) (ClearedStore.calm host) x labels)
    (hrun : Transition.run (ClearedStore.step host hash) x labels = some y) :
    ∃ base before settled, Kept host hash y base before settled := by
  induction labels generalizing x with
  | nil =>
    obtain rfl := Option.some.inj hrun
    exact h
  | cons l labels ih =>
    obtain ⟨u,hu,hrest⟩ := run_cons_eq_some.mp hrun
    exact ih (Kept.step h (hl l List.mem_cons_self) hcalm.1 hu)
      (fun k hk => hl k (List.mem_cons_of_mem _ hk)) (hcalm.2 u hu) hrest

/-- A session on such files. -/
theorem DiskHolds.kept (h : DiskHolds host disk m (fresh = true)) {policy : DurabilityPolicy}
    {maxBatch : ℕ} (hopen : openStore host hash disk policy maxBatch = .ok s) :
    s.collectData = m ∧
      ∃ base before settled, Kept host hash (.start s fresh) base before settled := by
  obtain ⟨wal,ops,hopen',-,hs⟩ := h.opens hash policy (openStore_maxBatch hopen)
  rw [hopen] at hopen'
  obtain rfl := Except.ok.inj hopen'
  have hdata : (KVStore.start hash wal m disk.snapshot disk.temp).collectData = m :=
    KVStore.collectData_start ..
  have hone (o : Origin) (ho : o = ⟨0,m⟩ ∨ o ∈ [(⟨0,m⟩ : Origin)]) : o = ⟨0,m⟩ := by
    simpa using ho
  refine ⟨hdata, wal, ops, [], ?_⟩
  rw [ClearedStore.start, hdata]
  refine ⟨hs.ground, ?_, hs.lock, hs.path, hs.snap.mono ?_, ?_, ?_,
    List.mem_singleton_self _, ?_, ?_, ?_⟩
  · exact .of_memInv hs.mem
  · intro m' hm'
    exact ⟨⟨0,m⟩, List.mem_singleton_self _, hm'⟩
  · intro call data walOffset hcall
    cases hcall
  · intro hall
    cases hall
  · intro o ho
    rw [hone o ho]
    exact Nat.zero_le _
  · intro hfresh o ho
    rw [hone o ho]
    exact hs.fixed hfresh
  · intro o ho
    rw [hone o ho]
    exact hs.fit

/-- The files of any number of crashed sessions that called `Clear` as they liked, with no failed
append, no `ClearPersistence` and no compaction that ended between its rename and its truncation
after a `Clear`; with the flag that there was no `Clear` since the log was empty. -/
inductive ClearReachable (host : ByteOrder) (hash : Bytes → ℕ) : Disk → Bool → Prop where
  | first {disk : Disk} (h : CrashReachable host hash disk) : ClearReachable host hash disk true
  | crash {disk disk' : Disk} {fresh : Bool} (policy : DurabilityPolicy) (maxBatch : ℕ)
      (labels : List ClearLabel) {s : KVStore} {x : ClearedStore}
      (hdisk : ClearReachable host hash disk fresh)
      (hopen : openStore host hash disk policy maxBatch = .ok s)
      (hlabels : ∀ l ∈ labels, l.recoverable = true)
      (hcalm : Along (ClearedStore.step host hash) (ClearedStore.calm host) (.start s fresh) labels)
      (hrun : run (ClearedStore.step host hash) (.start s fresh) labels = some x)
      (hend : x.fresh = false → x.store.exposed = false) (hcrash : x.store.Crash disk') :
      ClearReachable host hash disk' x.fresh

theorem ClearReachable.holds (h : ClearReachable host hash disk fresh) :
    ∃ m, DiskHolds host disk m (fresh = true) := by
  induction h with
  | first h =>
    obtain ⟨m,hm⟩ := h.holds
    exact ⟨m, hm.mono fun _ => trivial⟩
  | crash policy maxBatch labels hdisk hopen hlabels hcalm hrun hend hcrash ih =>
    obtain ⟨m,hm⟩ := ih
    obtain ⟨base,before,settled,hx⟩ := Kept.run (hm.kept hopen).2 hlabels hcalm hrun
    obtain ⟨o,-,inFlight,-,hdisk'⟩ := hx.crash hcrash hend
    exact ⟨_, hdisk'⟩

end ConcurrentKV
