import ConcurrentKV.KVStore
import ConcurrentKV.LockProgram

/-! The locks of any number of `KVStore` and `WriteAheadLog` objects, and what each call and each
background thread does with them. Data decides which branch is taken, which exception is thrown
and how long a wait lasts; here all of that is left open. -/
namespace ConcurrentKV
open LockProgram Transition

inductive Lock where
  /-- `snapshot_mutex_` -/
  | snapshot (store : ℕ)
  /-- `mutex_` -/
  | admin (store : ℕ)
  | shard (store : ℕ) (i : Shard)
  /-- `checkpoint_mutex_` -/
  | checkpoint (store : ℕ)
  | queue (wal : ℕ)
  | io (wal : ℕ)
  /-- The mutex of a `Pending`. -/
  | request (wal id : ℕ)
  deriving DecidableEq, Repr

/-- What is waited for on a condition variable: a batch of the writer of a log, or something
else that another thread brings about without a lock order. -/
abbrev LockInstr := Instr Lock (Option ℕ)

/-- A lock for the time of `body`. -/
def guarded (l : Lock) (exclusive : Bool) (body : List LockInstr) : List LockInstr :=
  .acquire [(l,exclusive)] :: body ++ [.release l]

/-- A lock that is released at once, without anything else taken meanwhile. -/
def brief (l : Lock) : List LockInstr := guarded l true []

/-- All shards of a store for the time of `body`, locked in ascending order. -/
def allShards (store : ℕ) (exclusive : Bool) (body : List LockInstr) : List LockInstr :=
  ((List.finRange kShardCount).map fun i => .acquire [(.shard store i, exclusive)]) ++ body ++
    (List.finRange kShardCount).map fun i => .release (.shard store i)

/-- How `AppendPayload` goes about it. -/
inductive AppendPath where
  | none
  /-- Buffered or Sync. -/
  | direct (wal : ℕ)
  /-- GroupCommit, with the number of its `Pending`. -/
  | grouped (wal id : ℕ)

def AppendPath.program : AppendPath → List LockInstr
  | .none => []
  | .direct wal => brief (.io wal)
  | .grouped wal id => brief (.queue wal) ++
      guarded (.request wal id) true [.wait (some wal) (.request wal id)]

/-- A short use of a log's `io_mutex_`, if there is a log. -/
def ioBrief : Option ℕ → List LockInstr
  | none => []
  | some wal => brief (.io wal)

inductive Role where
  | caller
  /-- The checkpoint thread of a store. -/
  | worker (store : ℕ)
  /-- The writer thread of a log. -/
  | writer (wal : ℕ)
  deriving DecidableEq, Repr

inductive LockOp where
  /-- `Set` and `Delete`. -/
  | write (store : ℕ) (i : Shard) (checks : Bool) (path : AppendPath) (due : Bool)
  /-- `Get` and `Contains`. -/
  | read (store : ℕ) (i : Shard)
  | size (store : ℕ)
  | clear (store : ℕ)
  | replayFromWal (store : ℕ)
  | clearPersistence (store : ℕ) (wal : Option ℕ)
  | saveSnapshot (store : ℕ) (wal : Option ℕ)
  | compactPersistence (store : ℕ) (wal : Option ℕ)
  | loadSnapshot (store : ℕ)
  | waitForCheckpoints (store : ℕ)
  | copyAssign (store other : ℕ)
  | moveAssign (store other : ℕ)
  | copyConstruct (other : ℕ)
  | moveConstruct (other : ℕ)
  /-- One round of `CheckpointLoop`. -/
  | checkpoint (store : ℕ) (wal : Option ℕ) (cancelled : Bool)
  /-- One round of `WriterLoop`, with the requests it completes and those it drains on an error. -/
  | writeBatch (wal : ℕ) (ids drained : List ℕ)

/-- The calls that hold `snapshot_mutex_`. -/
def snapshotCall (store : ℕ) (wal : Option ℕ) : List LockInstr :=
  guarded (.snapshot store) true (brief (.checkpoint store) ++
    guarded (.admin store) true (allShards store true (ioBrief wal)))

/-- The assignments; `std::lock` takes both mutexes at once. -/
def assignment (store other : ℕ) (exclusive : Bool) : List LockInstr :=
  if store = other then []
  else .acquire [(.admin store, true), (.admin other, exclusive)] ::
    allShards store true (allShards other exclusive []) ++
    [.release (.admin other), .release (.admin store)]

/-- Telling the callers of a batch that it is done. -/
def completions (wal : ℕ) (ids : List ℕ) : List LockInstr :=
  ids.flatMap fun id => brief (.request wal id)

namespace LockOp

def role : LockOp → Role
  | .checkpoint store _ _ => .worker store
  | .writeBatch wal _ _ => .writer wal
  | _ => .caller

def program : LockOp → List LockInstr
  | .write store i checks path due =>
    (if checks then brief (.checkpoint store) else []) ++
      guarded (.shard store i) true (path.program ++ if due then brief (.checkpoint store) else [])
  | .read store i => guarded (.shard store i) false []
  | .size store => allShards store false []
  | .clear store | .replayFromWal store => guarded (.admin store) true (allShards store true [])
  | .clearPersistence store wal | .saveSnapshot store wal | .compactPersistence store wal =>
    snapshotCall store wal
  | .loadSnapshot store => snapshotCall store none
  | .waitForCheckpoints store => guarded (.checkpoint store) true [.wait none (.checkpoint store)]
  | .copyAssign store other => assignment store other false
  | .moveAssign store other => assignment store other true
  | .copyConstruct other => guarded (.admin other) false (allShards other false [])
  | .moveConstruct other => guarded (.admin other) true (allShards other true [])
  | .checkpoint store wal cancelled =>
    guarded (.checkpoint store) true [.wait none (.checkpoint store)] ++
      guarded (.snapshot store) true (brief (.checkpoint store) ++ if cancelled then [] else
        guarded (.admin store) true (allShards store true (ioBrief wal))) ++
      brief (.checkpoint store)
  | .writeBatch wal ids _ =>
    guarded (.queue wal) true [.wait none (.queue wal), .wait none (.queue wal)] ++
      brief (.io wal) ++ completions wal ids

/-- The catch blocks of the two background threads, with what follows them. -/
def handler : LockOp → List LockInstr
  | .checkpoint store _ _ => brief (.checkpoint store) ++ brief (.checkpoint store)
  | .writeBatch wal ids drained => brief (.queue wal) ++ completions wal (ids ++ drained)
  | _ => []

end LockOp

/-- Any threads on any stores and logs. -/
def lockStep (roles : List Role) : List (Thread Lock (Option ℕ)) → LockProgram.Label LockOp →
    Option (List (Thread Lock (Option ℕ))) :=
  LockProgram.step (fun op => (op.program, op.handler)) fun t op => roles[t]? == some op.role

/-- Only the writer of a log completes its batches. -/
def Serves (roles : List Role) (event : Option ℕ) (b : ℕ) : Prop :=
  ∃ wal, event = some wal ∧ roles[b]? = some (.writer wal)

/-! ### The order of the locks -/

/-- Locks under which nothing else is taken. -/
def Lock.leaf : Lock → Bool
  | .checkpoint _ | .queue _ | .io _ | .request _ _ => true
  | .snapshot _ | .admin _ | .shard _ _ => false

/-- With `H` held, among it `h`, the lock `l` may be waited for. From one store to another only
an assignment goes, which holds `mutex_` of both. -/
def Lock.Below (H : Set (Lock × Bool)) (h l : Lock) : Prop :=
  match h with
  | .snapshot _ => ∀ store, l ≠ .snapshot store
  | .admin _ => l.leaf = true ∨ ∃ store i, l = .shard store i
  | .shard a j => l.leaf = true ∨ (∃ i, l = .shard a i ∧ j < i) ∨
      ∃ b i x, l = .shard b i ∧ a ≠ b ∧ (Lock.admin a, true) ∈ H ∧ (Lock.admin b, x) ∈ H
  | _ => False

def Ordered (H : Set (Lock × Bool)) : LockInstr → Prop
  | .acquire [l] => ∀ h ∈ H, Lock.Below H h.1 l.1
  | .acquire locks => H = ∅ ∧ ∀ l ∈ locks, ∃ store, l.1 = .admin store
  | .asleep _ => ∀ h ∈ H, h.1.leaf = false
  | _ => True

variable {H : Set (Lock × Bool)} {l : Lock} {x : Bool} {body : List LockInstr}

theorem guarded_runs (hord : Ordered H (.acquire [(l,x)])) (hl : ∀ h ∈ H, h.1 ≠ l)
    (hbody : Runs Ordered (insert (l,x) H) body (insert (l,x) H)) :
    Runs Ordered H (guarded l x body) H :=
  (Runs.take hord).append (hbody.append (Runs.drop hl))

/-- What is below the leaves. -/
theorem below_leaf {h : Lock} (hl : l.leaf = true) (hh : h.leaf = false) : Lock.Below H h l := by
  cases h with
  | snapshot => exact fun store heq => by simp [heq, Lock.leaf] at hl
  | admin | shard => exact .inl hl
  | _ => cases hh

theorem leaf_ne {h : Lock × Bool} (hl : l.leaf = true) (hh : h.1.leaf = false) : h.1 ≠ l := by
  rintro rfl
  exact absurd (hh.symm.trans hl) (by decide)

/-- A leaf with nothing inside but waits. -/
theorem leaf_runs (hl : l.leaf = true) (hH : ∀ h ∈ H, h.1.leaf = false)
    (hbody : Runs Ordered (insert (l,true) H) body (insert (l,true) H)) :
    Runs Ordered H (guarded l true body) H :=
  guarded_runs (fun h hh => below_leaf hl (hH h hh)) (fun h hh => leaf_ne hl (hH h hh)) hbody

theorem brief_runs (hl : l.leaf = true) (hH : ∀ h ∈ H, h.1.leaf = false) :
    Runs Ordered H (brief l) H := leaf_runs hl hH .nil

theorem wait_runs (hl : l.leaf = true) (hH : ∀ h ∈ H, h.1.leaf = false) (event : Option ℕ) :
    Runs Ordered (insert (l,true) H) [.wait event l] (insert (l,true) H) := by
  have hset : {h ∈ insert (l,true) H | h.1 ≠ l} = H := by
    ext h
    constructor
    · rintro ⟨rfl | hh, hne⟩
      · exact absurd rfl hne
      · exact hh
    · exact fun hh => ⟨.inr hh, leaf_ne hl (hH h hh)⟩
  refine .wait ?_ ?_ ?_ .nil
  · rw [hset]
    rfl
  · rw [hset]
    exact hH
  · rw [hset]
    exact fun h hh => below_leaf hl (hH h hh)

/-- The locks of these shards. -/
def shardLocks (store : ℕ) (x : Bool) (shards : Set Shard) : Set (Lock × Bool) :=
  {h | ∃ i ∈ shards, h = (.shard store i, x)}

/-- Beneath the shards of a store: `snapshot_mutex_` and `mutex_`, or for the source of an
assignment the shards of its target. -/
def Beneath (H : Set (Lock × Bool)) (store : ℕ) : Prop :=
  ∀ h ∈ H, match h.1 with
    | .snapshot _ | .admin _ => True
    | .shard a _ => a ≠ store ∧ (Lock.admin a, true) ∈ H ∧ ∃ x, (Lock.admin store, x) ∈ H
    | _ => False

variable {store : ℕ}

namespace Beneath

theorem ne (h : Beneath H store) {k : Lock × Bool} (hk : k ∈ H) (i : Shard) :
    k.1 ≠ .shard store i := by
  intro heq
  have hk' := h k hk
  rw [heq] at hk'
  exact hk'.1 rfl

theorem leaf (h : Beneath H store) {k : Lock × Bool} (hk : k ∈ H) : k.1.leaf = false := by
  have hk' := h k hk
  obtain ⟨k,x⟩ := k
  cases k with
  | snapshot | admin | shard => rfl
  | _ => exact absurd hk' (by simp)

/-- The next shard, when those in front of it are locked. -/
theorem ordered (h : Beneath H store) {locked : Set Shard} {i : Shard} (hi : ∀ j ∈ locked, j < i) :
    Ordered (H ∪ shardLocks store x locked) (.acquire [(.shard store i, x)]) := by
  rintro ⟨k,y⟩ (hk | ⟨j,hj,heq⟩)
  · have hk' := h _ hk
    cases k with
    | snapshot => exact fun _ heq => by cases heq
    | admin => exact .inr ⟨store, i, rfl⟩
    | shard a j =>
      obtain ⟨hne,htarget,z,hsource⟩ := hk'
      exact .inr (.inr ⟨store, i, z, rfl, hne, .inl htarget, .inl hsource⟩)
    | _ => exact absurd hk' (by simp)
  · cases heq
    exact .inr (.inl ⟨i, rfl, hi j hj⟩)

end Beneath

/-- The loop of `LockAllShardsExclusive` or `LockAllShardsShared`, from any shard on. -/
theorem lockShards_runs (h : Beneath H store) (shards : List Shard) (locked : Set Shard)
    (hsorted : shards.Pairwise (· < ·)) (hlocked : ∀ j ∈ locked, ∀ i ∈ shards, j < i) :
    Runs Ordered (H ∪ shardLocks store x locked)
      (shards.map fun i => .acquire [(.shard store i, x)])
      (H ∪ shardLocks store x (locked ∪ {i | i ∈ shards})) := by
  induction shards generalizing locked with
  | nil =>
    have hset : locked ∪ {i | i ∈ ([] : List Shard)} = locked := by
      ext i
      simp
    rw [hset]
    exact .nil
  | cons i shards ih =>
    obtain ⟨hi,hsorted⟩ := List.pairwise_cons.mp hsorted
    have hfirst : Runs Ordered (H ∪ shardLocks store x locked)
        [.acquire [(Lock.shard store i, x)]] _ :=
      Runs.take (h.ordered fun j hj => hlocked j hj i List.mem_cons_self)
    have hset : insert (Lock.shard store i, x) (H ∪ shardLocks store x locked) =
        H ∪ shardLocks store x (insert i locked) := by
      ext k
      simp only [Set.mem_insert_iff, Set.mem_union, shardLocks]
      constructor
      · rintro (rfl | hk | ⟨j,hj,rfl⟩)
        · exact .inr ⟨i, .inl rfl, rfl⟩
        · exact .inl hk
        · exact .inr ⟨j, .inr hj, rfl⟩
      · rintro (hk | ⟨j,rfl | hj,rfl⟩)
        · exact .inr (.inl hk)
        · exact .inl rfl
        · exact .inr (.inr ⟨j, hj, rfl⟩)
    have hall : locked ∪ {j | j ∈ i :: shards} = insert i locked ∪ {j | j ∈ shards} := by
      ext j
      simp only [Set.mem_union, Set.mem_insert_iff]
      constructor
      · rintro (hj | hj)
        · exact .inl (.inr hj)
        · rcases List.mem_cons.mp hj with rfl | hj
          · exact .inl (.inl rfl)
          · exact .inr hj
      · rintro ((rfl | hj) | hj)
        · exact .inr List.mem_cons_self
        · exact .inl hj
        · exact .inr (List.mem_cons_of_mem _ hj)
    rw [hset] at hfirst
    rw [hall]
    refine hfirst.append (ih (insert i locked) hsorted ?_)
    rintro j (rfl | hj) k hk
    · exact hi k hk
    · exact hlocked j hj k (List.mem_cons_of_mem _ hk)

theorem allShards_runs (h : Beneath H store)
    (hbody : Runs Ordered (H ∪ shardLocks store x Set.univ) body
      (H ∪ shardLocks store x Set.univ)) : Runs Ordered H (allShards store x body) H := by
  have hlock := lockShards_runs (x := x) h (List.finRange kShardCount) ∅
    (List.pairwise_lt_finRange _) (by simp)
  have hnone : H ∪ shardLocks store x ∅ = H := by
    ext k
    simp [shardLocks]
  have hall : (∅ : Set Shard) ∪ {i | i ∈ List.finRange kShardCount} = Set.univ := by
    ext i
    simp
  rw [hnone, hall] at hlock
  have hunlock : Runs Ordered (H ∪ shardLocks store x Set.univ) _ _ :=
    Runs.releases ((List.finRange kShardCount).map fun i => Lock.shard store i)
  have hrest : {k ∈ H ∪ shardLocks store x Set.univ |
      k.1 ∉ (List.finRange kShardCount).map fun i => Lock.shard store i} = H := by
    ext k
    constructor
    · rintro ⟨hk | ⟨i,-,rfl⟩, hno⟩
      · exact hk
      · exact absurd (List.mem_map_of_mem (List.mem_finRange i)) hno
    · refine fun hk => ⟨.inl hk, fun hmem => ?_⟩
      obtain ⟨i,-,heq⟩ := List.mem_map.mp hmem
      exact h.ne hk i heq.symm
  rw [hrest, List.map_map] at hunlock
  exact (hlock.append hbody).append hunlock

/-! ### The discipline of the calls -/

theorem ioBrief_runs (hH : ∀ h ∈ H, h.1.leaf = false) (wal : Option ℕ) :
    Runs Ordered H (ioBrief wal) H := by
  cases wal with
  | none => exact .nil
  | some wal => exact brief_runs rfl hH

theorem completions_runs (wal : ℕ) (ids : List ℕ) : Runs Ordered ∅ (completions wal ids) ∅ := by
  induction ids with
  | nil => exact .nil
  | cons id ids ih => exact (brief_runs rfl (by simp)).append ih

theorem AppendPath.runs (path : AppendPath) (hH : ∀ h ∈ H, h.1.leaf = false) :
    Runs Ordered H path.program H := by
  cases path with
  | none => exact .nil
  | direct wal => exact brief_runs rfl hH
  | grouped wal id =>
    exact (brief_runs rfl hH).append (leaf_runs rfl hH (wait_runs rfl hH _))

/-- `mutex_` and all shards, under nothing or under `snapshot_mutex_`. -/
theorem adminShards_runs (hH : ∀ h ∈ H, ∃ a, h.1 = .snapshot a) (wal : Option ℕ) :
    Runs Ordered H (guarded (.admin store) x (allShards store x (ioBrief wal))) H := by
  have hbeneath : Beneath (insert (Lock.admin store, x) H) store := by
    rintro h (rfl | hh)
    · trivial
    · obtain ⟨a,ha⟩ := hH h hh
      rw [ha]
      trivial
  refine guarded_runs (fun h hh => ?_) (fun h hh => ?_) (allShards_runs hbeneath
    (ioBrief_runs ?_ wal))
  · obtain ⟨a,ha⟩ := hH h hh
    rw [ha]
    exact fun _ heq => by cases heq
  · obtain ⟨a,ha⟩ := hH h hh
    rw [ha]
    exact fun heq => by cases heq
  · rintro h (hh | ⟨i,-,rfl⟩)
    · exact hbeneath.leaf hh
    · rfl

/-- `snapshot_mutex_`, first with a look at the checkpoint's flags. -/
theorem underSnapshot_runs
    (hbody : Runs Ordered {(Lock.snapshot store, true)} body {(Lock.snapshot store, true)}) :
    Runs Ordered ∅ (guarded (.snapshot store) true (brief (.checkpoint store) ++ body)) ∅ := by
  refine guarded_runs (by simp [Ordered]) (by simp) ?_
  have hset : insert (Lock.snapshot store, true) ∅ = ({(Lock.snapshot store, true)} : Set _) := by
    simp
  rw [hset]
  refine (brief_runs rfl ?_).append hbody
  rintro h rfl
  rfl

theorem snapshotCall_runs (store : ℕ) (wal : Option ℕ) :
    Runs Ordered ∅ (snapshotCall store wal) ∅ := by
  refine underSnapshot_runs (adminShards_runs ?_ wal)
  rintro h rfl
  exact ⟨store, rfl⟩

theorem assignment_runs (store other : ℕ) (x : Bool) :
    Runs Ordered ∅ (assignment store other x) ∅ := by
  rw [assignment]
  split
  · exact .nil
  · rename_i hne
    have hset : {h | h ∈ [(Lock.admin store, true), (Lock.admin other, x)]} ∪ ∅ =
        (insert (Lock.admin other, x) {(Lock.admin store, true)} : Set (Lock × Bool)) := by
      ext h
      simp [or_comm]
    have htarget : Beneath (insert (Lock.admin other, x) {(Lock.admin store, true)}) store := by
      rintro h (rfl | rfl) <;> trivial
    have hsource : Beneath (insert (Lock.admin other, x) {(Lock.admin store, true)} ∪
        shardLocks store true Set.univ) other := by
      rintro h ((rfl | rfl) | ⟨i,-,rfl⟩)
      · trivial
      · trivial
      · exact ⟨hne, .inl (.inr rfl), x, .inl (.inl rfl)⟩
    refine .acquire ⟨rfl, by simp⟩ ?_
    rw [hset]
    refine (allShards_runs htarget (allShards_runs hsource .nil)).append
      (Runs.append (p := [.release (Lock.admin other)]) (Runs.drop ?_) ?_)
    · rintro h rfl
      simpa using hne
    · have hone : ({(Lock.admin store, true)} : Set (Lock × Bool)) =
          insert (Lock.admin store, true) ∅ := by simp
      rw [hone]
      exact Runs.drop (by simp)

/-- Every call and every round of a background thread keeps the discipline. -/
theorem LockOp.program_runs (op : LockOp) : Runs Ordered ∅ op.program ∅ := by
  have hnone : ∀ h ∈ (∅ : Set (Lock × Bool)), h.1.leaf = false := by simp
  have hadmin (store : ℕ) (x : Bool) :
      Runs Ordered ∅ (guarded (.admin store) x (allShards store x [])) ∅ :=
    adminShards_runs (by simp) none
  cases op with
  | write store i checks path due =>
    have hshard : ∀ h ∈ (insert (Lock.shard store i, true) ∅ : Set (Lock × Bool)),
        h.1.leaf = false := by
      rintro h (rfl | hh)
      · rfl
      · exact hnone h hh
    refine Runs.append (K := ∅) ?_ (guarded_runs (by simp [Ordered]) (by simp)
      ((path.runs hshard).append ?_))
    · cases checks
      · exact .nil
      · exact brief_runs rfl hnone
    · cases due
      · exact .nil
      · exact brief_runs rfl hshard
  | read store i => exact guarded_runs (by simp [Ordered]) (by simp) .nil
  | size store => exact allShards_runs (fun h hh => absurd hh (by simp)) .nil
  | clear store | replayFromWal store => exact hadmin store true
  | clearPersistence store wal | saveSnapshot store wal | compactPersistence store wal =>
    exact snapshotCall_runs store wal
  | loadSnapshot store => exact snapshotCall_runs store none
  | waitForCheckpoints store => exact leaf_runs rfl hnone (wait_runs rfl hnone none)
  | copyAssign store other => exact assignment_runs store other false
  | moveAssign store other => exact assignment_runs store other true
  | copyConstruct other => exact hadmin other false
  | moveConstruct other => exact hadmin other true
  | checkpoint store wal cancelled =>
    refine ((leaf_runs rfl hnone (wait_runs rfl hnone none)).append
      (underSnapshot_runs ?_)).append (brief_runs rfl hnone)
    cases cancelled
    · refine adminShards_runs ?_ wal
      rintro h rfl
      exact ⟨store, rfl⟩
    · exact .nil
  | writeBatch wal ids drained =>
    exact ((leaf_runs rfl hnone (Runs.append (p := [.wait none (Lock.queue wal)])
      (wait_runs rfl hnone none) (wait_runs rfl hnone none))).append
      (brief_runs (l := .io wal) rfl hnone)).append (completions_runs wal ids)

theorem LockOp.handler_runs (op : LockOp) : Runs Ordered ∅ op.handler ∅ := by
  have hnone : ∀ h ∈ (∅ : Set (Lock × Bool)), h.1.leaf = false := by simp
  cases op with
  | checkpoint store wal cancelled => exact (brief_runs rfl hnone).append (brief_runs rfl hnone)
  | writeBatch wal ids drained => exact (brief_runs rfl hnone).append (completions_runs wal _)
  | _ => exact .nil

end ConcurrentKV
