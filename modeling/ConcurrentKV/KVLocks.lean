import ConcurrentKV.KVSteps
import ConcurrentKV.WalRequests

/-! Who holds which shard: an outstanding append belongs to the call that holds its shard's
lock, and the holder of `snapshot_mutex_` has locked the shards its program counter says. -/
namespace ConcurrentKV
open ByteCodec OpLog Sharding Transition

/-- The call holds the lock, and is not the thread that locks all shards. -/
def Slot.isWriter : Slot → Bool
  | .writer _ => true
  | _ => false

/-- The id of a call whose append was acknowledged. -/
def WritePc.acked : WritePc → Option ℕ
  | .locked | .appending _ => none
  | .appended id | .mutated id _ | .counted id _ _ | .scheduled id _ => some id

/-- The points a call of this kind passes. -/
def AdminKind.passes : AdminKind → AdminPc → Bool
  | .checkpoint _, .releasing _ _ _ => true
  | _, .releasing _ _ _ => false
  | .clearPersistence, .saving _ _ _ => false
  | .compactPersistence, .rotating | .compactPersistence, .truncated => true
  | .clearPersistence, .rotating | .clearPersistence, .truncated => true
  | _, .rotating | _, .truncated => false
  | .clearPersistence, .removingSnapshot | .clearPersistence, .removingTemp => true
  | .clearPersistence, .syncingRemoval => true
  | _, .removingSnapshot | _, .removingTemp | _, .syncingRemoval => false
  | .checkpoint _, .resetting => false
  | _, _ => true

/-- The holder of `snapshot_mutex_` is at such a point. -/
def PathInv (admin : Option AdminCall) : Prop :=
  ∀ call, admin = some call → call.kind.passes call.pc = true

/-- The locks that the holder of `snapshot_mutex_` has at each point. -/
def AdminCall.holds (call : AdminCall) (i : Shard) : Prop :=
  match call.pc with
  | .entered => False
  | .locking n => i.val < n
  | .releasing _ _ n | .unlocking _ n => n ≤ i.val
  -- a checkpoint saves its copy with every shard released
  | .saving _ _ _ => ∀ epoch, call.kind ≠ .checkpoint epoch
  | _ => True

/-- The shards marked as locked are those. -/
def LockInv (slots : Shard → Slot) (admin : Option AdminCall) : Prop :=
  ∀ i, slots i = .admin ↔ ∃ call, admin = some call ∧ call.holds i

/-- The calls and the log agree about the outstanding appends. -/
structure OwnInv (hash : Bytes → ℕ) (wal : WalThreads) (slots : Shard → Slot) : Prop where
  ids : wal.ids.Perm (List.range wal.nextId)
  owner : ∀ r ∈ wal.outstanding,
    slots (shardIndex hash r.op.key) = .writer ⟨r.op, .appending r.id⟩
  home : ∀ i op pc, slots i = .writer ⟨op,pc⟩ → shardIndex hash op.key = i
  pending : ∀ i op id, slots i = .writer ⟨op, .appending id⟩ →
    (∃ e, (id,e) ∈ wal.results) ∨ ∃ r ∈ wal.outstanding, r.id = id ∧ r.op = op

variable {host : ByteOrder} {hash : Bytes → ℕ} {s t : KVStore}

/-! ### The thread that locks all shards -/

theorem PathInv.step {l : Label} (h : PathInv s.admin) (hstep : KVStore.Steps host hash s l t) :
    PathInv t.admin := by
  have hsome {call : AdminCall} (hc : call.kind.passes call.pc = true) : PathInv (some call) := by
    intro c hs
    obtain rfl := Option.some.inj hs
    exact hc
  have hnone : PathInv none := by
    intro c hs
    cases hs
  have hthrow (call : AdminCall) : PathInv (s.throw call).admin :=
    hsome (by cases call.kind <;> rfl)
  have hgo {kind : AdminKind} {pc pc' : AdminPc} (hadmin : s.admin = some ⟨kind,pc⟩)
      (hp : kind.passes pc = true → kind.passes pc' = true) : PathInv (some ⟨kind,pc'⟩) :=
    hsome (hp (h _ hadmin))
  cases hstep with
  | enter kind | cancel kind | lock kind => exact hsome (by cases kind <;> rfl)
  | checked | captureCheckpoint | captureSave | captureCompact | captureClear | enterCheckpoint =>
    exact hsome rfl
  | cancelled | leave => exact hnone
  | captureFails | writeTempFails | verifyFails | rotateFails | fault => exact hthrow _
  | release kind data walOffset n hn hadmin | released kind data walOffset n hn hadmin
  | unlock kind failed n hn hadmin =>
    exact hgo hadmin (by cases kind <;> simp [AdminKind.passes])
  | writeTemp kind data walOffset entries bytes hadmin | syncTemp kind data walOffset hadmin
  | rename kind data walOffset hadmin | syncDirectory kind data walOffset hadmin =>
    exact hgo hadmin (by cases kind <;> simp [AdminKind.passes])
  | verified kind data walOffset hadmin =>
    exact hgo hadmin (by cases kind <;> simp [AdminKind.passes, AdminKind.afterSave])
  | syncTruncation kind wal hadmin =>
    exact hgo hadmin (by cases kind <;> simp [AdminKind.passes, AdminKind.afterClear])
  | rotate kind wal hadmin =>
    exact hgo hadmin (by cases kind <;> simp [AdminKind.passes])
  | removeSnapshot kind hadmin | removeTemp kind hadmin | syncRemoval kind hadmin
  | reset kind hadmin =>
    exact hgo hadmin (by cases kind <;> simp [AdminKind.passes])
  | _ => exact h

namespace LockInv

variable {slots : Shard → Slot} {call call' : AdminCall}

theorem holds_iff (h : LockInv slots (some call)) (i : Shard) :
    slots i = .admin ↔ call.holds i := by
  rw [h i]
  constructor
  · rintro ⟨c,hc,hi⟩
    obtain rfl := Option.some.inj hc
    exact hi
  · intro hi
    exact ⟨call, rfl, hi⟩

theorem of_holds (h : ∀ i, slots i = .admin ↔ call.holds i) : LockInv slots (some call) := by
  intro i
  rw [h i]
  constructor
  · intro hi
    exact ⟨call, rfl, hi⟩
  · rintro ⟨c,hc,hi⟩
    obtain rfl := Option.some.inj hc
    exact hi

theorem free_of_none (h : LockInv slots none) (i : Shard) : slots i ≠ .admin := by
  intro hi
  obtain ⟨c,hc,-⟩ := (h i).mp hi
  cases hc

theorem none_of_free (h : ∀ i, slots i ≠ .admin) : LockInv slots none := by
  intro i
  refine ⟨fun hi => absurd hi (h i), ?_⟩
  rintro ⟨c,hc,-⟩
  cases hc

/-- The call goes on without a lock operation. -/
theorem go (h : LockInv slots (some call)) (hsame : ∀ i, call'.holds i ↔ call.holds i) :
    LockInv slots (some call') :=
  of_holds fun i => (h.holds_iff i).trans (hsame i).symm

/-- The call takes or gives back the lock of shard `i`. -/
theorem move (h : LockInv slots (some call)) {i : Shard} {slot : Slot}
    (hsame : ∀ j, j ≠ i → (call'.holds j ↔ call.holds j)) (hslot : slot = .admin ↔ call'.holds i) :
    LockInv (Function.update slots i slot) (some call') := by
  refine of_holds fun j => ?_
  by_cases hj : j = i
  · subst hj
    rw [Function.update_self]
    exact hslot
  · rw [Function.update_of_ne hj, hsame j hj]
    exact h.holds_iff j

/-- A call that has no lock ends. -/
theorem ends (h : LockInv slots (some call)) (hfree : ∀ i, ¬call.holds i) : LockInv slots none :=
  none_of_free fun i hi => hfree i ((h.holds_iff i).mp hi)

/-- A call enters. -/
theorem enters (h : LockInv slots none) (kind : AdminKind) :
    LockInv slots (some ⟨kind, .entered⟩) :=
  of_holds fun i => ⟨fun hi => absurd hi (h.free_of_none i), False.elim⟩

/-- The lock of a shard goes from one call of `Set`, `Delete` or `Get` to another. -/
theorem update {admin : Option AdminCall} (h : LockInv slots admin) {i : Shard} {old slot : Slot}
    (hold : slots i = old) (hne : old ≠ .admin) (hslot : slot ≠ .admin) :
    LockInv (Function.update slots i slot) admin := by
  intro j
  by_cases hj : j = i
  · subst hj
    rw [Function.update_self, ← h j, hold]
    exact iff_of_false hslot hne
  · rw [Function.update_of_ne hj]
    exact h j

/-- An exception leaves every lock where it is, to be released on the way out. -/
theorem throw {call : AdminCall} (h : LockInv s.slots (some call))
    (hpc : call.pc.mayThrow = true ∨ (∃ data off, call.pc = .saving .begin data off) ∨
      call.pc = .locking kShardCount) : LockInv s.slots (s.throw call).admin := by
  refine h.go fun i => ?_
  obtain ⟨kind,pc⟩ := call
  have hlt := i.isLt
  cases pc with
  | saving stage data off => cases kind <;> simp [AdminCall.holds]
  | locking n =>
    obtain rfl : n = kShardCount := by simpa [AdminPc.mayThrow] using hpc
    exact iff_of_true (by cases kind <;> exact Nat.zero_le _) hlt
  | rotating | removingSnapshot | removingTemp | syncingRemoval =>
    exact iff_of_true (by cases kind <;> exact Nat.zero_le _) trivial
  | _ => simp [AdminPc.mayThrow] at hpc

theorem step {l : Label} (h : LockInv s.slots s.admin) (hpath : PathInv s.admin)
    (hstep : KVStore.Steps host hash s l t) : LockInv t.slots t.admin := by
  have hat {call : AdminCall} (hadmin : s.admin = some call) : LockInv s.slots (some call) :=
    hadmin ▸ h
  cases hstep with
  | lockShard op hcall hslot => exact h.update hslot (by simp) (by simp)
  | prepare i op wal hslot => exact h.update hslot (by simp) (by simp)
  | acknowledge i op id hslot => exact h.update hslot (by simp) (by simp)
  | rethrow i op id e hslot => exact h.update hslot (by simp) (by simp)
  | mutate i op id erased hslot => exact h.update hslot (by simp) (by simp)
  | count i op id erased hslot => exact h.update hslot (by simp) (by simp)
  | schedule i op id erased hslot => exact h.update hslot (by simp) (by simp)
  | ret i op pc id erased hslot => exact h.update hslot (by simp) (by simp)
  | lockShared key keys hslot => exact h.update hslot (by simp) (by simp)
  | get key value keys hslot => exact h.update hslot (by simp) (by simp)
  | enter kind hkind hadmin =>
    rw [hadmin] at h
    exact h.enters kind
  | enterCheckpoint epoch hworker hadmin =>
    rw [hadmin] at h
    exact h.enters _
  | cancelled epoch hadmin => exact (hat hadmin).ends fun i => id
  | checked epoch hadmin => exact (hat hadmin).go fun i => by simp [AdminCall.holds]
  | cancel kind hkind hadmin => exact (hat hadmin).go fun i => by simp [AdminCall.holds]
  | lock kind n hn hadmin hslot =>
    refine (hat hadmin).move ?_ (iff_of_true rfl (Nat.lt_succ_self n))
    intro j hj
    have hne : j.val ≠ n := fun he => hj (Fin.ext he)
    simp only [AdminCall.holds]
    omega
  | captureFails kind n hn hadmin =>
    refine LockInv.throw ?_ (.inr (.inr rfl))
    exact (hat hadmin).go fun i => iff_of_true i.isLt (i.isLt.trans_le hn)
  | captureCheckpoint epoch n offset hn hadmin =>
    exact (hat hadmin).go fun i => iff_of_true (Nat.zero_le _) (i.isLt.trans_le hn)
  | captureSave n offset hn hadmin =>
    exact (hat hadmin).go fun i => iff_of_true (fun epoch => by simp) (i.isLt.trans_le hn)
  | captureCompact n hn hadmin =>
    exact (hat hadmin).go fun i => iff_of_true (fun epoch => by simp) (i.isLt.trans_le hn)
  | captureClear n hn hadmin =>
    exact (hat hadmin).go fun i => iff_of_true trivial (i.isLt.trans_le hn)
  | release kind data walOffset n hn hadmin =>
    refine (hat hadmin).move ?_ (iff_of_false (by simp) (Nat.not_succ_le_self n))
    intro j hj
    have hne : j.val ≠ n := fun he => hj (Fin.ext he)
    simp only [AdminCall.holds]
    omega
  | released kind data walOffset n hn hadmin =>
    refine (hat hadmin).go fun i => ?_
    -- only a checkpoint releases the shards before it saves
    have hkind := hpath _ hadmin
    cases kind with
    | checkpoint epoch =>
      exact iff_of_false (fun hne => hne epoch rfl) fun hi => Nat.not_le_of_lt i.isLt (hn.trans hi)
    | saveSnapshot | compactPersistence | clearPersistence => cases hkind
  | writeTemp kind data walOffset entries bytes hadmin => exact (hat hadmin).go fun i => Iff.rfl
  | writeTempFails l kind data walOffset temp hadmin =>
    exact (hat hadmin).throw (.inr (.inl ⟨_,_,rfl⟩))
  | syncTemp kind data walOffset hadmin => exact (hat hadmin).go fun i => Iff.rfl
  | rename kind data walOffset hadmin => exact (hat hadmin).go fun i => Iff.rfl
  | syncDirectory kind data walOffset hadmin => exact (hat hadmin).go fun i => Iff.rfl
  | verified kind data walOffset hadmin =>
    refine (hat hadmin).go fun i => ?_
    cases kind <;> simp [AdminCall.holds, AdminKind.afterSave]
  | verifyFails kind data walOffset hadmin => exact (hat hadmin).throw (.inl rfl)
  | rotate kind wal hadmin => exact (hat hadmin).go fun i => Iff.rfl
  | rotateFails kind hadmin => exact (hat hadmin).throw (.inl rfl)
  | syncTruncation kind wal hadmin =>
    refine (hat hadmin).go fun i => ?_
    cases kind <;> exact Iff.rfl
  | removeSnapshot kind hadmin => exact (hat hadmin).go fun i => Iff.rfl
  | removeTemp kind hadmin => exact (hat hadmin).go fun i => Iff.rfl
  | syncRemoval kind hadmin => exact (hat hadmin).go fun i => Iff.rfl
  | reset kind hadmin => exact (hat hadmin).go fun i => iff_of_true (Nat.zero_le _) trivial
  | unlock kind failed n hn hadmin =>
    refine (hat hadmin).move ?_ (iff_of_false (by simp) (Nat.not_succ_le_self n))
    intro j hj
    have hne : j.val ≠ n := fun he => hj (Fin.ext he)
    simp only [AdminCall.holds]
    omega
  | leave kind failed n hn hadmin =>
    exact (hat hadmin).ends fun i hi => Nat.not_le_of_lt i.isLt (hn.trans hi)
  | fault call hadmin hpc => exact (hat hadmin).throw (.inl hpc)
  | _ => exact h

end LockInv

namespace KVStore

/-- What a step does to the log, the locks, the shards and the calls that returned. -/
inductive Effect (host : ByteOrder) (hash : Bytes → ℕ) (s t : KVStore) : Label → Prop where
  | same (l : Label) (hwal : t.wal = s.wal) (hslots : t.slots = s.slots)
      (hshards : t.shards = s.shards) (hret : t.returned = s.returned) : Effect host hash s t l
  /-- A lock changes hands between readers and the thread that locks all shards. -/
  | locks (l : Label) (i : Shard) (slot : Slot) (hold : (s.slots i).isWriter = false)
      (hnew : slot.isWriter = false) (hwal : t.wal = s.wal)
      (hslots : t.slots = Function.update s.slots i slot) (hshards : t.shards = s.shards)
      (hret : t.returned = s.returned) : Effect host hash s t l
  | lockShard (op : WalRecord) (hold : s.slots (shardIndex hash op.key) = .readers [])
      (hwal : t.wal = s.wal) (hslots : t.slots =
        Function.update s.slots (shardIndex hash op.key) (.writer ⟨op, .locked⟩))
      (hshards : t.shards = s.shards) (hret : t.returned = s.returned) :
      Effect host hash s t (.lockShard op)
  | prepare (i : Shard) (op : WalRecord) (hold : s.slots i = .writer ⟨op, .locked⟩)
      (hwal : s.wal.step host (.prepare op) = some t.wal)
      (hslots : t.slots = Function.update s.slots i (.writer ⟨op, .appending s.wal.nextId⟩))
      (hshards : t.shards = s.shards) (hret : t.returned = s.returned) :
      Effect host hash s t (.caller i)
  | acknowledge (i : Shard) (op : WalRecord) (id : ℕ)
      (hold : s.slots i = .writer ⟨op, .appending id⟩) (hres : (id, none) ∈ s.wal.results)
      (hwal : t.wal = s.wal)
      (hslots : t.slots = Function.update s.slots i (.writer ⟨op, .appended id⟩))
      (hshards : t.shards = s.shards) (hret : t.returned = s.returned) :
      Effect host hash s t (.caller i)
  | rethrow (i : Shard) (op : WalRecord) (id : ℕ) (e : WalError)
      (hold : s.slots i = .writer ⟨op, .appending id⟩) (hres : (id, some e) ∈ s.wal.results)
      (hwal : t.wal = s.wal) (hslots : t.slots = Function.update s.slots i (.readers []))
      (hshards : t.shards = s.shards) (hret : t.returned = s.returned) :
      Effect host hash s t (.caller i)
  | mutate (i : Shard) (op : WalRecord) (id : ℕ) (erased : Bool)
      (hold : s.slots i = .writer ⟨op, .appended id⟩) (hwal : t.wal = s.wal)
      (hslots : t.slots = Function.update s.slots i (.writer ⟨op, .mutated id erased⟩))
      (hshards : t.shards = Function.update s.shards i (applyOp op (s.shards i)))
      (hret : t.returned = s.returned) : Effect host hash s t (.caller i)
  /-- Counting the write and posting a request. -/
  | proceed (i : Shard) (op : WalRecord) (pc pc' : WritePc) (id : ℕ)
      (hold : s.slots i = .writer ⟨op, pc⟩) (hpc : pc.acked = some id) (hpc' : pc'.acked = some id)
      (hne : pc ≠ .appended id) (hne' : pc' ≠ .appended id) (hwal : t.wal = s.wal)
      (hslots : t.slots = Function.update s.slots i (.writer ⟨op, pc'⟩))
      (hshards : t.shards = s.shards) (hret : t.returned = s.returned) :
      Effect host hash s t (.caller i)
  | ret (i : Shard) (op : WalRecord) (pc : WritePc) (id : ℕ) (erased : Bool)
      (hold : s.slots i = .writer ⟨op, pc⟩) (hpc : pc.acked = some id) (hne : pc ≠ .appended id)
      (hwal : t.wal = s.wal) (hslots : t.slots = Function.update s.slots i (.readers []))
      (hshards : t.shards = s.shards) (hret : t.returned = s.returned ++ [⟨id, op, erased⟩]) :
      Effect host hash s t (.caller i)
  /-- A step of the log: the writer's, or one of `Clear` by the holder of all locks. -/
  | wal (lab : Label) (l : WalLabel) (hl : ∀ op, l ≠ .prepare op)
      (hlab : lab = .wal l ∨ (lab = .admin ∧ (l = .clear ∨ l = .clearSync)))
      (hwal : s.wal.step host l = some t.wal) (hslots : t.slots = s.slots)
      (hshards : t.shards = s.shards) (hret : t.returned = s.returned) : Effect host hash s t lab

/-- A step of a store whose locks are in order. -/
theorem Steps.effect {l : Label} (h : Steps host hash s l t) (hlock : LockInv s.slots s.admin) :
    Effect host hash s t l := by
  have hadm {call : AdminCall} (hadmin : s.admin = some call) {i : Shard} (hi : call.holds i) :
      (s.slots i).isWriter = false := by
    rw [(hlock i).mpr ⟨call,hadmin,hi⟩]
    rfl
  cases h with
  | lockShard op hcall hslot => exact .lockShard op hslot rfl rfl rfl rfl
  | prepare i op wal hslot hwal => exact .prepare i op hslot hwal rfl rfl rfl
  | acknowledge i op id hslot hres => exact .acknowledge i op id hslot hres rfl rfl rfl rfl
  | rethrow i op id e hslot hres => exact .rethrow i op id e hslot hres rfl rfl rfl rfl
  | mutate i op id erased hslot => exact .mutate i op id erased hslot rfl rfl rfl rfl
  | count i op id erased hslot =>
    exact .proceed i op _ _ id hslot rfl rfl (by simp) (by simp) rfl rfl rfl rfl
  | schedule i op id erased hslot =>
    exact .proceed i op _ _ id hslot rfl rfl (by simp) (by simp) rfl rfl rfl rfl
  | ret i op pc id erased hslot hpc =>
    rcases hpc with rfl | rfl
    · exact .ret i op _ id erased hslot rfl (by simp) rfl rfl rfl rfl
    · exact .ret i op _ id erased hslot rfl (by simp) rfl rfl rfl rfl
  | lockShared key keys hslot | get key value keys hslot | lock kind n hn hadmin hslot =>
    exact .locks _ _ _ (by rw [hslot]; rfl) rfl rfl rfl rfl rfl
  | wal l wal hl hwal => exact .wal _ l hl (.inl rfl) hwal rfl rfl rfl
  | release kind data walOffset n hn hadmin =>
    exact .locks _ ⟨n,hn⟩ _ (hadm hadmin (Nat.le_refl n)) rfl rfl rfl rfl rfl
  | unlock kind failed n hn hadmin =>
    exact .locks _ ⟨n,hn⟩ _ (hadm hadmin (Nat.le_refl n)) rfl rfl rfl rfl rfl
  | rotate kind wal hadmin hwal =>
    exact .wal _ .clear (by simp) (.inr ⟨rfl, .inl rfl⟩) hwal rfl rfl rfl
  | syncTruncation kind wal hadmin hwal =>
    rcases hwal with hwal | ⟨rfl,-⟩
    · exact .wal _ .clearSync (by simp) (.inr ⟨rfl, .inr rfl⟩) hwal rfl rfl rfl
    · exact .same _ rfl rfl rfl rfl
  | _ => exact .same _ rfl rfl rfl rfl

end KVStore

/-! ### Calls and their appends -/

namespace OwnInv

variable {wal wal' : WalThreads} {slots slots' : Shard → Slot}

/-- While all shards are locked by one thread, no append is outstanding. -/
theorem outstanding_eq_nil (h : OwnInv hash wal slots) (hslots : ∀ i, slots i = .admin) :
    wal.outstanding = [] := by
  rw [List.eq_nil_iff_forall_not_mem]
  intro r hr
  have := h.owner r hr
  rw [hslots] at this
  cases this

/-- A step of the log that brings in no request. -/
theorem walStep (h : OwnInv hash wal slots) {l : WalLabel} (hl : ∀ op, l ≠ .prepare op)
    (hstep : wal.step host l = some wal') : OwnInv hash wal' slots where
  ids := WalThreads.step_ids h.ids hstep
  owner r hr := by
    rcases WalThreads.step_outstanding hstep r hr with hold | ⟨hnew,-⟩
    · exact h.owner r hold
    · exact absurd hnew (hl r.op)
  home := h.home
  pending i op id hi := by
    rcases h.pending i op id hi with ⟨e,he⟩ | ⟨r,hr,rfl,rfl⟩
    · exact .inl ⟨e, (WalThreads.step_results hstep).subset he⟩
    · rcases WalThreads.step_pending h.ids hstep hr with he | hr
      · exact .inl he
      · exact .inr ⟨r, hr, rfl, rfl⟩

/-- The lock of shard `i` passes to a slot that is not in an append, and no outstanding
append was under it. -/
theorem update (h : OwnInv hash wal slots) {i : Shard} {slot : Slot}
    (hold : ∀ r ∈ wal.outstanding, slots i ≠ .writer ⟨r.op, .appending r.id⟩)
    (hhome : ∀ op pc, slot = .writer ⟨op,pc⟩ → shardIndex hash op.key = i)
    (hslot : ∀ op id, slot ≠ .writer ⟨op, .appending id⟩) :
    OwnInv hash wal (Function.update slots i slot) where
  ids := h.ids
  owner r hr := by
    have hr' := h.owner r hr
    have hne : shardIndex hash r.op.key ≠ i := by
      rintro rfl
      exact hold r hr hr'
    rw [Function.update_of_ne hne]
    exact hr'
  home j op pc hj := by
    by_cases hji : j = i
    · subst hji
      rw [Function.update_self] at hj
      exact hhome op pc hj
    · rw [Function.update_of_ne hji] at hj
      exact h.home j op pc hj
  pending j op id hj := by
    by_cases hji : j = i
    · subst hji
      rw [Function.update_self] at hj
      exact absurd hj (hslot op id)
    · rw [Function.update_of_ne hji] at hj
      exact h.pending j op id hj

/-- A call enters the log. -/
theorem prepare (h : OwnInv hash wal slots) {i : Shard} {op : WalRecord}
    (hold : slots i = .writer ⟨op, .locked⟩) (hstep : wal.step host (.prepare op) = some wal') :
    OwnInv hash wal' (Function.update slots i (.writer ⟨op, .appending wal.nextId⟩)) where
  ids := WalThreads.step_ids h.ids hstep
  owner r hr := by
    rcases WalThreads.step_outstanding hstep r hr with hr | ⟨hnew,hid⟩
    · have hr' := h.owner r hr
      have hne : shardIndex hash r.op.key ≠ i := by
        rintro rfl
        rw [hold] at hr'
        cases hr'
      rw [Function.update_of_ne hne]
      exact hr'
    · obtain rfl := WalLabel.prepare.inj hnew
      rw [h.home i _ _ hold, Function.update_self, hid]
  home j op' pc hj := by
    by_cases hji : j = i
    · subst hji
      rw [Function.update_self] at hj
      cases hj
      exact h.home j op _ hold
    · rw [Function.update_of_ne hji] at hj
      exact h.home j op' pc hj
  pending j op' id hj := by
    by_cases hji : j = i
    · subst hji
      rw [Function.update_self] at hj
      cases hj
      -- the new id has an outcome already, or it is that of the new request
      have hmem : wal.nextId ∈ wal'.ids := by
        refine (WalThreads.step_ids h.ids hstep).mem_iff.mpr (List.mem_range.mpr ?_)
        cases WalThreads.steps_of_step hstep <;> exact Nat.lt_succ_self _
      rcases List.mem_append.mp hmem with hmem | hmem
      · obtain ⟨⟨id,e⟩,hres,hid⟩ := List.mem_map.mp hmem
        obtain rfl : id = wal.nextId := hid
        exact .inl ⟨e, hres⟩
      · obtain ⟨r,hr,hid⟩ := List.mem_map.mp hmem
        rcases WalThreads.step_outstanding hstep r hr with hr' | ⟨hnew,-⟩
        · have := WalThreads.id_lt_of_outstanding h.ids hr'
          omega
        · exact .inr ⟨r, hr, hid, (WalLabel.prepare.inj hnew).symm⟩
    · rw [Function.update_of_ne hji] at hj
      rcases h.pending j op' id hj with ⟨e,he⟩ | ⟨r,hr,rfl,rfl⟩
      · exact .inl ⟨e, (WalThreads.step_results hstep).subset he⟩
      · rcases WalThreads.step_pending h.ids hstep hr with he | hr
        · exact .inl he
        · exact .inr ⟨r, hr, rfl, rfl⟩

theorem step {l : Label} (h : OwnInv hash s.wal s.slots) (heff : KVStore.Effect host hash s t l) :
    OwnInv hash t.wal t.slots := by
  -- a slot outside an append can change hands
  have hout {i : Shard} {slot : Slot} (hi : s.slots i = slot)
      (hne : ∀ op id, slot ≠ .writer ⟨op, .appending id⟩) :
      ∀ r ∈ s.wal.outstanding, s.slots i ≠ .writer ⟨r.op, .appending r.id⟩ := by
    intro r hr
    rw [hi]
    exact hne r.op r.id
  -- and so can one whose append has its outcome
  have hres {i : Shard} {op : WalRecord} {id : ℕ} {e : Option WalError}
      (hi : s.slots i = .writer ⟨op, .appending id⟩) (he : (id,e) ∈ s.wal.results) :
      ∀ r ∈ s.wal.outstanding, s.slots i ≠ .writer ⟨r.op, .appending r.id⟩ := by
    intro r hr hr'
    rw [hi] at hr'
    cases hr'
    exact WalThreads.no_result_of_outstanding h.ids hr he
  cases heff with
  | same l hwal hslots => rw [hwal, hslots]; exact h
  | locks l i slot hold hnew hwal hslots =>
    rw [hwal, hslots]
    refine h.update (hout rfl ?_) ?_ ?_
    · intro op id he
      rw [he] at hold
      cases hold
    · intro op pc he
      rw [he] at hnew
      cases hnew
    · intro op id he
      rw [he] at hnew
      cases hnew
  | lockShard op hold hwal hslots =>
    rw [hwal, hslots]
    refine h.update (hout hold (by simp)) ?_ (by simp)
    rintro op pc ⟨⟩
    rfl
  | prepare i op hold hwal hslots =>
    rw [hslots]
    exact h.prepare hold hwal
  | acknowledge i op id hold he hwal hslots =>
    rw [hwal, hslots]
    refine h.update (hres hold he) ?_ (by simp)
    rintro op pc ⟨⟩
    exact h.home i _ _ hold
  | rethrow i op id e hold he hwal hslots =>
    rw [hwal, hslots]
    exact h.update (hres hold he) (by simp) (by simp)
  | mutate i op id erased hold hwal hslots =>
    rw [hwal, hslots]
    refine h.update (hout hold (by simp)) ?_ (by simp)
    rintro op pc ⟨⟩
    exact h.home i _ _ hold
  | proceed i op pc pc' id hold hpc hpc' hne hne' hwal hslots =>
    rw [hwal, hslots]
    refine h.update (hout hold ?_) ?_ ?_
    · rintro op id ⟨⟩
      cases hpc
    · rintro op pc ⟨⟩
      exact h.home i _ _ hold
    · rintro op id ⟨⟩
      cases hpc'
  | ret i op pc id erased hold hpc hne hwal hslots =>
    rw [hwal, hslots]
    refine h.update (hout hold ?_) (by simp) (by simp)
    rintro op id ⟨⟩
    cases hpc
  | wal lab l hl hlab hwal hslots =>
    rw [hslots]
    exact h.walStep hl hwal

end OwnInv

/-! ### The start of a session -/

theorem ownInv_start (hash : Bytes → ℕ) (wal : WriteAheadLog) :
    OwnInv hash (WalThreads.start wal) (fun _ => .readers []) where
  ids := List.Perm.refl []
  owner r hr := by simp [WalThreads.start, WalThreads.outstanding] at hr
  home i op pc hi := by cases hi
  pending i op id hi := by cases hi

theorem lockInv_start : LockInv (fun _ => .readers []) none :=
  LockInv.none_of_free fun i => by simp

theorem pathInv_start : PathInv none := by
  intro call h
  cases h

end ConcurrentKV
