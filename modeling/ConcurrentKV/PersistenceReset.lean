import ConcurrentKV.CrashRecovery
import ConcurrentKV.KVQuiet
import ConcurrentKV.KVRuns

/-! `ClearPersistence` against the checkpoint worker. Once it has removed the files, nothing
brings them back: no append is under way, no request is posted, and a request the worker has
taken is from an earlier epoch. A request posted between its cancelling and its locks escapes. -/
namespace ConcurrentKV
open ByteCodec OpLog Sharding Transition

/-! ### The worker's requests -/

/-- A call posts a checkpoint request between the cancelling of a `ClearPersistence` and its
last lock. -/
def KVStore.postsDuringReset (s : KVStore) : Label → Bool
  | .caller i => match s.slots i, s.admin with
    | .writer ⟨_, .counted _ _ true⟩, some ⟨.clearPersistence, .locking _⟩ => true
    | _, _ => false
  | _ => false

/-- Neither `Set` nor `Delete` gets its lock, and no other call saves the map. -/
def Label.afterReset : Label → Bool
  | .lockShard _ | .enter .saveSnapshot | .enter .compactPersistence => false
  | _ => true

/-- From its cancelling until it releases the first shard. -/
def AdminPc.inReset : AdminPc → Bool
  | .locking _ | .rotating | .truncated | .removingSnapshot | .removingTemp | .syncingRemoval
  | .resetting | .unlocking _ 0 => true
  | _ => false

/-- The log is truncated. -/
def AdminPc.walCleared : AdminPc → Bool
  | .truncated | .removingSnapshot | .removingTemp | .syncingRemoval | .resetting
  | .unlocking false 0 => true
  | _ => false

/-- The snapshot is removed, too. -/
def AdminPc.snapshotCleared : AdminPc → Bool
  | .removingTemp | .syncingRemoval | .resetting | .unlocking false 0 => true
  | _ => false

/-- Requests and files while a `ClearPersistence` is under way. -/
structure ResetInv (s : KVStore) : Prop where
  epoch : ∀ e, s.worker = .taken e → e ≤ s.checkpointEpoch
  cancelled : ∀ pc, s.admin = some ⟨.clearPersistence, pc⟩ → pc.inReset = true →
    s.checkpointRequested = false ∧ ∀ e, s.worker = .taken e → e < s.checkpointEpoch
  wal : ∀ pc, s.admin = some ⟨.clearPersistence, pc⟩ → pc.walCleared = true → s.wal.wal.file = []
  snapshot : ∀ pc, s.admin = some ⟨.clearPersistence, pc⟩ → pc.snapshotCleared = true →
    s.snapshot = none

variable {host : ByteOrder} {hash : Bytes → ℕ} {s t : KVStore} {l : Label}

/-- With the log truncated, all shards are still locked. -/
theorem AdminPc.holds_of_walCleared {pc : AdminPc} (h : pc.walCleared = true) (i : Shard) :
    (⟨.clearPersistence, pc⟩ : AdminCall).holds i := by
  unfold walCleared at h
  split at h
  all_goals first
    | trivial
    | exact Nat.zero_le _

/-- A checkpoint that ends takes the worker on. -/
theorem KVStore.leave_worker {kind : AdminKind} {failed : Bool} {e : ℕ}
    (h : (s.leave kind failed).worker = .taken e) : s.worker = .taken e := by
  cases kind with
  | checkpoint epoch => cases failed <;> cases h
  | saveSnapshot | compactPersistence | clearPersistence => exact h

namespace ResetInv

theorem start (hash : Bytes → ℕ) (wal : WriteAheadLog) (m : Store) (snapshot temp : Option Bytes) :
    ResetInv (KVStore.start hash wal m snapshot temp) := by
  refine ⟨?_, ?_, ?_, ?_⟩
  · rintro e ⟨⟩
  all_goals rintro pc ⟨⟩

theorem epoch_step (h : ResetInv s) (hsteps : KVStore.Steps host hash s l t) (e : ℕ)
    (he : t.worker = .taken e) : e ≤ t.checkpointEpoch := by
  cases hsteps with
  | take =>
    cases he
    exact le_rfl
  | exit | enterCheckpoint | recordError | finish => cases he
  | cancel => exact (h.epoch e he).trans (Nat.le_succ _)
  | cancelled | leave => exact h.epoch e (KVStore.leave_worker he)
  | _ => exact h.epoch e he

theorem cancelled_step (h : ResetInv s) (hlock : LockInv s.slots s.admin) (hpath : PathInv s.admin)
    (hguard : s.postsDuringReset l = false) (hsteps : KVStore.Steps host hash s l t) (pc : AdminPc)
    (ht : t.admin = some ⟨.clearPersistence, pc⟩) (hpc : pc.inReset = true) :
    t.checkpointRequested = false ∧ ∀ e, t.worker = .taken e → e < t.checkpointEpoch := by
  have hclear {pc' : AdminPc} (hadmin : s.admin = some ⟨.clearPersistence, pc'⟩)
      (hp : AdminKind.passes .clearPersistence pc' = false) : False := by
    rw [hpath _ hadmin] at hp
    cases hp
  cases hsteps with
  | cancel => exact ⟨rfl, fun e he => Nat.lt_succ_of_le (h.epoch e he)⟩
  | schedule i op id erased hslot =>
    exfalso
    have hadmin : s.admin = some ⟨.clearPersistence, pc⟩ := ht
    cases pc with
    | locking n => simp [KVStore.postsDuringReset, hslot, hadmin] at hguard
    | entered | releasing | saving => cases hpc
    | unlocking failed n =>
      cases n with
      | zero =>
        rw [(hlock i).mpr ⟨_, hadmin, Nat.zero_le _⟩] at hslot
        cases hslot
      | succ n => cases hpc
    | _ =>
      rw [(hlock i).mpr ⟨_, hadmin, trivial⟩] at hslot
      cases hslot
  | take hworker hreq =>
    rw [(h.cancelled pc ht hpc).1] at hreq
    cases hreq
  | recordError => exact ⟨rfl, by rintro e ⟨⟩⟩
  | exit | finish => exact ⟨(h.cancelled pc ht hpc).1, by rintro e ⟨⟩⟩
  | enterCheckpoint | checked | cancelled | leave | captureCheckpoint | captureSave
  | captureCompact => cases ht
  | enter | release | released | writeTemp | syncTemp | rename | syncDirectory | unlock =>
    cases ht
    cases hpc
  | lock kind n hn hadmin | captureFails kind n hn hadmin =>
    cases ht
    exact h.cancelled _ hadmin rfl
  | captureClear n hn hadmin =>
    cases ht
    exact h.cancelled _ hadmin rfl
  | rotate kind wal hadmin | syncTruncation kind wal hadmin =>
    cases ht
    exact h.cancelled _ hadmin rfl
  | rotateFails kind hadmin | removeSnapshot kind hadmin | removeTemp kind hadmin
  | syncRemoval kind hadmin | reset kind hadmin =>
    cases ht
    exact h.cancelled _ hadmin rfl
  | writeTempFails l kind data walOffset temp hadmin =>
    cases ht
    exact (hclear hadmin rfl).elim
  | verified kind data walOffset hadmin | verifyFails kind data walOffset hadmin =>
    cases ht
    exact (hclear hadmin rfl).elim
  | fault call hadmin hmay =>
    obtain ⟨kind,pc'⟩ := call
    cases ht
    cases pc' with
    | saving => exact (hclear hadmin rfl).elim
    | rotating | removingSnapshot | removingTemp | syncingRemoval =>
      exact h.cancelled _ hadmin rfl
    | _ => cases hmay
  | _ => exact h.cancelled pc ht hpc

theorem wal_step (h : ResetInv s) (hlock : LockInv s.slots s.admin) (hpath : PathInv s.admin)
    (hown : OwnInv hash s.wal s.slots) (hbatch : s.wal.BatchInv)
    (hsteps : KVStore.Steps host hash s l t) (pc : AdminPc)
    (ht : t.admin = some ⟨.clearPersistence, pc⟩) (hpc : pc.walCleared = true) :
    t.wal.wal.file = [] := by
  -- with all shards locked there is no append
  have hall {pc' : AdminPc} (hadmin : s.admin = some ⟨.clearPersistence, pc'⟩)
      (hpc' : pc'.walCleared = true) (i : Shard) : s.slots i = .admin :=
    (hlock i).mpr ⟨_, hadmin, AdminPc.holds_of_walCleared hpc' i⟩
  have hwal {w : WalLabel} {wal : WalThreads} {pc' : AdminPc} (hl : ∀ op, w ≠ .prepare op)
      (hadmin : s.admin = some ⟨.clearPersistence, pc'⟩) (hpc' : pc'.walCleared = true)
      (hw : s.wal.step host w = some wal) : wal.wal.file = [] := by
    have hquiet :=
      WalThreads.Quiet.of_outstanding hbatch (hown.outstanding_eq_nil (hall hadmin hpc'))
    have hcut := (hquiet.step hl hw).2.1
    rw [h.wal pc' hadmin hpc'] at hcut
    exact List.prefix_nil.mp hcut
  cases hsteps with
  | prepare i op wal hslot =>
    rw [hall ht hpc i] at hslot
    cases hslot
  | wal w wal hl hw => exact hwal hl ht hpc hw
  | rotate kind wal hadmin hw =>
    cases WalThreads.steps_of_step hw with
    | clear => rfl
  | syncTruncation kind wal hadmin hw =>
    obtain rfl : kind = .clearPersistence := by
      cases ht
      rfl
    rcases hw with hw | ⟨rfl,-⟩
    · exact hwal (by simp) hadmin rfl hw
    · exact h.wal _ hadmin rfl
  | removeSnapshot kind hadmin | removeTemp kind hadmin | syncRemoval kind hadmin
  | reset kind hadmin =>
    cases ht
    exact h.wal _ hadmin rfl
  | enterCheckpoint | checked | cancelled | leave | captureCheckpoint | captureSave
  | captureCompact => cases ht
  | enter | cancel | lock | captureFails | captureClear | release | released | writeTemp
  | writeTempFails | syncTemp | rename | syncDirectory | verifyFails | rotateFails =>
    cases ht
    cases hpc
  | fault call =>
    obtain ⟨kind,pc'⟩ := call
    cases ht
    cases hpc
  | unlock kind failed n =>
    cases ht
    cases failed <;> cases hpc
  | verified kind data walOffset hadmin =>
    cases ht
    cases hpath _ hadmin
  | _ => exact h.wal pc ht hpc

theorem snapshot_step (h : ResetInv s) (hpath : PathInv s.admin)
    (hsteps : KVStore.Steps host hash s l t) (pc : AdminPc)
    (ht : t.admin = some ⟨.clearPersistence, pc⟩) (hpc : pc.snapshotCleared = true) :
    t.snapshot = none := by
  cases hsteps with
  | removeSnapshot => rfl
  | removeTemp kind hadmin | syncRemoval kind hadmin | reset kind hadmin =>
    cases ht
    exact h.snapshot _ hadmin rfl
  | enterCheckpoint | checked | cancelled | leave | captureCheckpoint | captureSave
  | captureCompact => cases ht
  | enter | cancel | lock | captureFails | captureClear | release | released | writeTemp
  | writeTempFails | syncTemp | rename | syncDirectory | verifyFails | rotate | rotateFails
  | syncTruncation =>
    cases ht
    cases hpc
  | fault call =>
    obtain ⟨kind,pc'⟩ := call
    cases ht
    cases hpc
  | unlock kind failed n =>
    cases ht
    cases failed <;> cases hpc
  | verified kind data walOffset hadmin =>
    cases ht
    cases hpath _ hadmin
  | _ => exact h.snapshot pc ht hpc

end ResetInv

/-- A run up to the end of a `ClearPersistence`. -/
structure Resetting (hash : Bytes → ℕ) (s : KVStore) : Prop extends Running hash s where
  reset : ResetInv s

theorem Resetting.step (h : Resetting hash s) (hguard : s.postsDuringReset l = false)
    (hstep : s.step host hash l = some t) : Resetting hash t := by
  have hsteps := KVStore.steps_of_step hstep
  exact ⟨h.toRunning.step hsteps, h.reset.epoch_step hsteps,
    h.reset.cancelled_step h.lock h.path hguard hsteps,
    h.reset.wal_step h.lock h.path h.own h.batch hsteps, h.reset.snapshot_step h.path hsteps⟩

/-! ### After the reset -/

/-- The files are gone, and nothing is under way that could bring them back. -/
structure Reset (s : KVStore) : Prop where
  snapshot : s.snapshot = none
  file : s.wal.wal.file = []
  quiet : s.wal.Quiet
  writers : ∀ i, (s.slots i).isWriter = false
  requested : s.checkpointRequested = false
  taken : ∀ e, s.worker = .taken e → e < s.checkpointEpoch
  path : PathInv s.admin
  admin : ∀ kind pc, s.admin = some ⟨kind,pc⟩ → kind = .clearPersistence ∨
    ∃ e, kind = .checkpoint e ∧ pc = .entered ∧ e < s.checkpointEpoch

/-- When `ClearPersistence` comes to release its locks. -/
theorem Resetting.done (h : Resetting hash s)
    (hadmin : s.admin = some ⟨.clearPersistence, .unlocking false 0⟩) : Reset s := by
  have hall (i : Shard) : s.slots i = .admin := (h.lock i).mpr ⟨_, hadmin, Nat.zero_le _⟩
  obtain ⟨hreq,htaken⟩ := h.reset.cancelled _ hadmin rfl
  refine ⟨h.reset.snapshot _ hadmin rfl, h.reset.wal _ hadmin rfl, h.quiet hall, ?_, hreq, htaken,
    h.path, ?_⟩
  · intro i
    rw [hall i]
    rfl
  · intro kind pc hs
    rw [hadmin] at hs
    cases hs
    exact .inl rfl

namespace Reset

theorem walStep (h : Reset s) {w : WalLabel} {wal : WalThreads} (hl : ∀ op, w ≠ .prepare op)
    (hw : s.wal.step host w = some wal) : Reset { s with wal := wal } := by
  obtain ⟨hquiet,hcut,-⟩ := h.quiet.step hl hw
  rw [h.file] at hcut
  exact { h with quiet := hquiet, file := List.prefix_nil.mp hcut }

/-- A lock passes between readers and the call that locks all shards. -/
theorem setSlot (h : Reset s) {i : Shard} {slot : Slot} (hslot : slot.isWriter = false) :
    Reset (s.setSlot i slot) := by
  refine { h with writers := fun j => ?_ }
  change (Function.update s.slots i slot j).isWriter = false
  by_cases hji : j = i
  · subst hji
    rw [Function.update_self]
    exact hslot
  · rw [Function.update_of_ne hji]
    exact h.writers j

/-- Another `ClearPersistence` goes on. -/
theorem move (h : Reset s) {kind : AdminKind} {pc pc' : AdminPc}
    (hadmin : s.admin = some ⟨kind,pc⟩) (hpc : pc ≠ .entered)
    (hpath : PathInv (some ⟨kind,pc'⟩)) : Reset { s with admin := some ⟨kind,pc'⟩ } := by
  refine { h with path := hpath, admin := ?_ }
  rintro kind' pc'' ⟨⟩
  rcases h.admin kind pc hadmin with hkind | ⟨e,-,hentered,-⟩
  · exact .inl hkind
  · exact absurd hentered hpc

theorem step (h : Reset s) (hl : l.afterReset = true) (hstep : s.step host hash l = some t) :
    Reset t := by
  have hsteps := KVStore.steps_of_step hstep
  have hpath := h.path.step hsteps
  have hwriter {i : Shard} {call : WriteCall} (hslot : s.slots i = .writer call) : False := by
    have := h.writers i
    rw [hslot] at this
    cases this
  -- only `ClearPersistence` is past its first step
  have hkind {kind : AdminKind} {pc : AdminPc} (hadmin : s.admin = some ⟨kind,pc⟩)
      (hpc : pc ≠ .entered) : kind = .clearPersistence := by
    rcases h.admin kind pc hadmin with hk | ⟨e,-,he,-⟩
    · exact hk
    · exact absurd he hpc
  have hno {kind : AdminKind} {pc : AdminPc} (hadmin : s.admin = some ⟨kind,pc⟩)
      (hpc : pc ≠ .entered) (hp : AdminKind.passes .clearPersistence pc = false) : False := by
    obtain rfl := hkind hadmin hpc
    rw [h.path _ hadmin] at hp
    cases hp
  cases hsteps with
  | callThrows => exact h
  | call | stop => exact { h with }
  | exit | finish => exact { h with taken := by rintro e ⟨⟩ }
  | lockShard => cases hl
  | prepare i op wal hslot => exact (hwriter hslot).elim
  | acknowledge i op id hslot => exact (hwriter hslot).elim
  | rethrow i op id e hslot => exact (hwriter hslot).elim
  | mutate i op id erased hslot => exact (hwriter hslot).elim
  | count i op id erased hslot => exact (hwriter hslot).elim
  | schedule i op id erased hslot => exact (hwriter hslot).elim
  | ret i op pc id erased hslot => exact (hwriter hslot).elim
  | lockShared | get => exact h.setSlot rfl
  | wal w wal hprep hw => exact h.walStep hprep hw
  | enter kind hkind hadmin =>
    refine { h with path := hpath, admin := ?_ }
    rintro kind' pc' ⟨⟩
    cases kind with
    | clearPersistence => exact .inl rfl
    | checkpoint e => exact absurd rfl (hkind e)
    | saveSnapshot | compactPersistence => cases hl
  | cancelled epoch hadmin =>
    exact { h with
      taken := fun e he => h.taken e (KVStore.leave_worker he)
      path := hpath
      admin := by rintro kind pc ⟨⟩ }
  | checked epoch hadmin hepoch =>
    -- the request the worker has taken is cancelled
    rcases h.admin _ _ hadmin with hk | ⟨e,hk,-,hlt⟩
    · cases hk
    · cases hk
      omega
  | cancel kind hkind hadmin =>
    refine { h with
      requested := rfl
      taken := fun e he => Nat.lt_succ_of_lt (h.taken e he)
      path := hpath
      admin := ?_ }
    rintro kind' pc' ⟨⟩
    rcases h.admin _ _ hadmin with hk | ⟨e,rfl,-⟩
    · exact .inl hk
    · exact absurd rfl (hkind e)
  | lock kind n hn hadmin => exact (h.setSlot rfl).move hadmin (by simp) hpath
  | captureFails kind n hn hadmin => exact h.move hadmin (by simp) hpath
  | captureCheckpoint epoch n offset hn hadmin => cases hkind hadmin (by simp)
  | captureSave n offset hn hadmin => cases hkind hadmin (by simp)
  | captureCompact n hn hadmin => cases hkind hadmin (by simp)
  | captureClear n hn hadmin => exact h.move hadmin (by simp) hpath
  | release kind data walOffset n hn hadmin => exact (hno hadmin (by simp) rfl).elim
  | released kind data walOffset n hn hadmin => exact (hno hadmin (by simp) rfl).elim
  | writeTemp kind data walOffset entries bytes hadmin => exact (hno hadmin (by simp) rfl).elim
  | writeTempFails l kind data walOffset temp hadmin => exact (hno hadmin (by simp) rfl).elim
  | syncTemp kind data walOffset hadmin => exact (hno hadmin (by simp) rfl).elim
  | rename kind data walOffset hadmin => exact (hno hadmin (by simp) rfl).elim
  | syncDirectory kind data walOffset hadmin => exact (hno hadmin (by simp) rfl).elim
  | verified kind data walOffset hadmin => exact (hno hadmin (by simp) rfl).elim
  | verifyFails kind data walOffset hadmin => exact (hno hadmin (by simp) rfl).elim
  | rotate kind wal hadmin hw => exact (h.walStep (by simp) hw).move hadmin (by simp) hpath
  | rotateFails kind hadmin => exact h.move hadmin (by simp) hpath
  | syncTruncation kind wal hadmin hw =>
    rcases hw with hw | ⟨rfl,-⟩
    · exact (h.walStep (by simp) hw).move hadmin (by simp) hpath
    · exact h.move hadmin (by simp) hpath
  | removeSnapshot kind hadmin =>
    exact { h.move hadmin (by simp) hpath with snapshot := rfl }
  | removeTemp kind hadmin | syncRemoval kind hadmin | reset kind hadmin =>
    exact { h.move hadmin (by simp) hpath with }
  | unlock kind failed n hn hadmin => exact (h.setSlot rfl).move hadmin (by simp) hpath
  | leave kind failed n hn hadmin =>
    exact { h with
      taken := fun e he => h.taken e (KVStore.leave_worker he)
      path := hpath
      admin := by rintro kind pc ⟨⟩ }
  | fault call hadmin hmay =>
    obtain ⟨kind,pc⟩ := call
    refine h.move hadmin ?_ hpath
    rintro rfl
    cases hmay
  | take hworker hreq =>
    rw [h.requested] at hreq
    cases hreq
  | enterCheckpoint epoch hworker hadmin =>
    refine { h with taken := by rintro e ⟨⟩, path := hpath, admin := ?_ }
    rintro kind pc ⟨⟩
    exact .inr ⟨epoch, rfl, rfl, h.taken epoch hworker⟩
  | recordError => exact { h with requested := rfl, taken := by rintro e ⟨⟩ }

/-- Whatever a crash leaves, the next startup finds nothing. -/
theorem recovers (h : Reset s) {disk : Disk} (hcrash : s.Crash disk) (hash : Bytes → ℕ)
    (policy : DurabilityPolicy) {maxBatch : ℕ} (hbatch : 1 ≤ maxBatch ∧ maxBatch ≤ 4096) :
    ∃ u, openStore host hash disk policy maxBatch = .ok u ∧ u.collectData = ∅ := by
  have hwal := h.quiet.crashFile hcrash.1
  have hsnap := hcrash.2
  rw [h.file] at hwal
  rw [h.snapshot] at hsnap
  obtain ⟨wal,snapshot,temp⟩ := disk
  obtain rfl : wal = [] := hwal
  have hempty : DiskHolds host ⟨[], snapshot, temp⟩ ∅ True := diskHolds_empty (.inl hsnap) temp
  obtain ⟨wal,ops,hopen,-⟩ := hempty.opens hash policy hbatch
  exact ⟨_, hopen, KVStore.collectData_start ..⟩

end Reset

/-- Persistence reset is final. A store starts on any files and runs in any interleaving in
which no request is posted behind the cancelling of a `ClearPersistence`; from the end of such
a call, and as long as no write gets its lock, the files stay removed. -/
theorem persistence_reset_is_final {disk : Disk} {policy : DurabilityPolicy} {maxBatch : ℕ}
    {s₀ : KVStore} (hopen : openStore host hash disk policy maxBatch = .ok s₀)
    {before after : List Label}
    (hguard : Along (KVStore.step host hash) (fun s l => s.postsDuringReset l = false) s₀ before)
    (hbefore : run (KVStore.step host hash) s₀ before = some s)
    (hadmin : s.admin = some ⟨.clearPersistence, .unlocking false 0⟩)
    (hlabels : ∀ l ∈ after, l.afterReset = true)
    (hafter : run (KVStore.step host hash) s after = some t) :
    t.snapshot = none ∧ t.wal.wal.file = [] ∧
    ∀ disk', t.Crash disk' → ∀ policy' maxBatch', 1 ≤ maxBatch' ∧ maxBatch' ≤ 4096 →
      ∃ u, openStore host hash disk' policy' maxBatch' = .ok u ∧ u.collectData = ∅ := by
  have hstart : Resetting hash s₀ := by
    obtain ⟨wal,m,-,rfl⟩ := openStore_eq hopen
    exact ⟨.start hopen, .start hash wal m _ _⟩
  have hs : Reset s := Resetting.done
    (run_along (fun _ _ _ hC h hstep => h.step hC hstep) hguard hbefore hstart) hadmin
  have ht : Reset t := run_invariant (fun _ _ _ hl h hstep => h.step hl hstep) hlabels hafter hs
  exact ⟨ht.snapshot, ht.file, fun disk' hcrash policy' maxBatch' hbatch =>
    ht.recovers hcrash hash policy' hbatch⟩

/-! ### A request that is cancelled -/

/-- The thousandth write requests a checkpoint and returns. -/
def timelyPost : List Label := [.caller 0, .caller 0]

/-- The worker takes the request, and a `ClearPersistence` enters and cancels. -/
def cancelTaken : List Label := [.worker, .enter .clearPersistence, .admin]

/-- `ClearPersistence` from its last lock until it begins to release them. -/
def resetSteps : List Label := List.replicate 7 .admin

/-- `ClearPersistence` leaves, and the worker finds that its request is of an earlier epoch. -/
def staleCheckpoint : List Label := [.admin, .worker, .admin, .worker]

theorem run_timelyPost {id : ℕ} (hslots : s.slots = blankSlots (.counted id false true)) :
    run (KVStore.step host oneShard) s timelyPost = some { s with
      slots := fun _ => .readers []
      checkpointRequested := true
      returned := s.returned ++ [⟨id, blankSet, false⟩] } := by
  simp [timelyPost, run_cons, KVStore.step, KVStore.callerStep, KVStore.setSlot, hslots]

theorem run_cancelTaken (hreq : s.checkpointRequested = true) (hadmin : s.admin = none)
    (hworker : s.worker = .idle) :
    run (KVStore.step host hash) s cancelTaken = some { s with
      checkpointRequested := false
      checkpointActive := true
      checkpointEpoch := s.checkpointEpoch+1
      worker := .taken s.checkpointEpoch
      admin := some ⟨.clearPersistence, .locking 0⟩ } := by
  simp [cancelTaken, run_cons, KVStore.step, KVStore.adminStep, KVStore.workerStep, hreq, hadmin,
    hworker]

theorem run_resetSteps {n : ℕ} (hwal : WalIdle n s.wal)
    (hadmin : s.admin = some ⟨.clearPersistence, .locking kShardCount⟩) :
    run (KVStore.step host hash) s resetSteps = some { s with
      wal := { s.wal with wal := s.wal.wal.cleared, syncedLength := 0 }
      writesSinceSnapshot := 0
      snapshot := none
      temp := none
      unsynced := []
      admin := some ⟨.clearPersistence, .unlocking false 0⟩ } := by
  simp [resetSteps, List.replicate, run_cons, KVStore.step, KVStore.adminStep, KVStore.captureStep,
    hadmin, WalThreads.step, WalThreads.ioFree, hwal.job, hwal.truncating, hwal.generation,
    hwal.policy, AdminKind.afterClear]

theorem run_staleCheckpoint {epoch : ℕ}
    (hadmin : s.admin = some ⟨.clearPersistence, .unlocking false kShardCount⟩)
    (hworker : s.worker = .taken epoch) (hepoch : epoch ≠ s.checkpointEpoch) :
    run (KVStore.step host hash) s staleCheckpoint = some { s with
      checkpointActive := false
      worker := .idle
      admin := none } := by
  simp [staleCheckpoint, run_cons, KVStore.step, KVStore.adminStep, KVStore.workerStep,
    KVStore.leave, hadmin, hworker, hepoch]

/-- Nobody posts during a reset as long as no `ClearPersistence` is called. -/
theorem along_of_no_reset {ls : List Label} (hadmin : ∀ pc, s.admin ≠ some ⟨.clearPersistence, pc⟩)
    (hls : .enter .clearPersistence ∉ ls) :
    Along (KVStore.step host hash) (fun s l => s.postsDuringReset l = false) s ls := by
  rw [along_iff]
  rintro xs l ys u rfl hu
  have hnone : ∀ pc, u.admin ≠ some ⟨.clearPersistence, pc⟩ := by
    refine run_invariant (A := fun l => l ≠ .enter .clearPersistence)
      (P := fun s : KVStore => ∀ pc, s.admin ≠ some ⟨.clearPersistence, pc⟩) ?_ ?_ hu hadmin
    · intro s l t hl hs hstep pc hpc
      rcases (KVStore.steps_of_step hstep).admin_cases with hsame | hfree | ⟨kind,hkind,hent⟩ |
        ⟨kind,pc₁,pc₂,hs₁,ht₁,-⟩
      · exact hs pc (hsame.symm.trans hpc)
      · rw [hfree] at hpc
        cases hpc
      · rw [hkind] at hpc
        obtain ⟨rfl,-⟩ := AdminCall.mk.inj (Option.some.inj hpc)
        rcases hent with rfl | ⟨e,he⟩
        · exact hl rfl
        · cases he
      · rw [ht₁] at hpc
        obtain ⟨rfl,-⟩ := AdminCall.mk.inj (Option.some.inj hpc)
        exact hs pc₁ hs₁
    · rintro l hl rfl
      exact hls (List.mem_append_left _ hl)
  unfold KVStore.postsDuringReset
  split
  · split
    · exact absurd ‹_› (hnone _)
    · rfl
  · rfl

/-- A thousand writes are in the log, the checkpoint that the last of them requested is taken by
the worker, and then everything is reset; the worker drops the checkpoint. -/
theorem persistence_reset_of_taken_request :
    ∃ s₀ writes u s t, openStore .little oneShard ⟨[], none, none⟩ .buffered 1 = .ok s₀ ∧
      run (KVStore.step .little oneShard) s₀ writes = some u ∧
      u.checkpointRequested = true ∧ u.wal.wal.file ≠ [] ∧ u.collectData ≠ ∅ ∧
      run (KVStore.step .little oneShard) u
        (cancelTaken ++ (List.replicate kShardCount .admin ++ resetSteps)) = some s ∧
      run (KVStore.step .little oneShard) s
        (List.replicate kShardCount .admin ++ staleCheckpoint) = some t ∧
      t.admin = none ∧ t.worker = .idle ∧ t.snapshot = none ∧ t.wal.wal.file = [] ∧
      ∀ disk, t.Crash disk → ∃ v, openStore .little oneShard disk .buffered 1 = .ok v ∧
        v.collectData = ∅ := by
  obtain ⟨before,s₁,hcalls,hreach,hidle⟩ := idle_start.reach (kSnapshotInterval-1) (by decide)
  obtain ⟨wal,hwal,hdue⟩ := hidle.due
  let u : KVStore := { s₁ with
    wal := wal
    slots := fun _ => .readers []
    shards := blankShards
    writesSinceSnapshot := kSnapshotInterval
    checkpointRequested := true
    returned := s₁.returned ++ [⟨s₁.wal.nextId, blankSet, false⟩] }
  have hwrites : run (KVStore.step .little oneShard) (KVStore.start oneShard blankWal ∅ none none)
      (before ++ (blankWrite s₁.wal.nextId ++ timelyPost)) = some u := by
    rw [run_append, hreach, Option.bind_some, run_append, hdue, Option.bind_some,
      run_timelyPost rfl]
  obtain ⟨s,hs,hadmin,hslots,hworker,hepoch⟩ : ∃ s, run (KVStore.step .little oneShard) u
      (cancelTaken ++ (List.replicate kShardCount .admin ++ resetSteps)) = some s ∧
      s.admin = some ⟨.clearPersistence, .unlocking false 0⟩ ∧ (s.slots = fun _ => .admin) ∧
      s.worker = .taken s₁.checkpointEpoch ∧ s.checkpointEpoch = s₁.checkpointEpoch+1 := by
    rw [run_append, run_cancelTaken (s := u) rfl hidle.admin hidle.worker,
      Option.bind_some, run_append, run_lock rfl rfl, Option.bind_some]
    exact ⟨_, run_resetSteps hwal rfl, rfl, rfl, rfl, rfl⟩
  have hafter : run (KVStore.step .little oneShard) s
      (List.replicate kShardCount .admin ++ staleCheckpoint) = some { s with
        slots := fun _ => .readers []
        checkpointActive := false
        worker := .idle
        admin := none } := by
    have hstale : run (KVStore.step .little oneShard) { s with
        slots := fun _ => .readers []
        admin := some ⟨.clearPersistence, .unlocking false kShardCount⟩ } staleCheckpoint =
          some _ :=
      run_staleCheckpoint rfl hworker (by simp [hepoch])
    rw [run_append, run_unlock hadmin hslots, Option.bind_some, hstale]
  -- up to the request nobody resets, and from then on nobody writes
  have hguard : Along (KVStore.step .little oneShard) (fun s l => s.postsDuringReset l = false)
      (KVStore.start oneShard blankWal ∅ none none)
      ((before ++ (blankWrite s₁.wal.nextId ++ timelyPost)) ++
        (cancelTaken ++ (List.replicate kShardCount .admin ++ resetSteps))) := by
    refine Along.append (along_of_no_reset (by simp [KVStore.start]) ?_) hwrites ?_
    · simp [hcalls, blankWrite, writeCall, timelyPost]
    · rw [along_iff]
      intro xs l ys v hls _
      have hl : l ∈ cancelTaken ++ (List.replicate kShardCount .admin ++ resetSteps) := by
        rw [hls]
        exact List.mem_append_right _ List.mem_cons_self
      cases l with
      | caller i => simp [-List.reduceReplicate, cancelTaken, resetSteps] at hl
      | _ => rfl
  have hbefore : run (KVStore.step .little oneShard) (KVStore.start oneShard blankWal ∅ none none)
      ((before ++ (blankWrite s₁.wal.nextId ++ timelyPost)) ++
        (cancelTaken ++ (List.replicate kShardCount .admin ++ resetSteps))) = some s := by
    rw [run_append, hwrites, Option.bind_some, hs]
  obtain ⟨hsnap,hfile,hcrash⟩ := persistence_reset_is_final openStore_blank hguard hbefore hadmin
    (by decide +kernel) hafter
  have hdata : u.collectData ≠ ∅ := by
    have hblank : collect blankShards ≠ ∅ := by decide +kernel
    exact hblank
  exact ⟨_, _, u, s, _, openStore_blank, hwrites, rfl, hwal.written (by decide), hdata, hs, hafter,
    rfl, rfl, hsnap, hfile, fun disk hdisk => hcrash disk hdisk .buffered 1 (by decide)⟩

/-! ### A request that escapes -/

/-- Between the counter and the request of the thousandth write, a `ClearPersistence` enters
and cancels. -/
def latePost : List Label := [.enter .clearPersistence, .admin, .caller 0, .caller 0, .worker]

/-- The worker carries the request out. -/
def lateCheckpoint : List Label :=
  [.admin, .worker, .admin] ++ (List.replicate kShardCount .admin ++ ([.admin] ++
    (List.replicate kShardCount .admin ++ [.admin, .writeTemp [([],[])], .admin, .admin])))

/-- What it publishes. -/
def lateSnapshot : Bytes := snapshotBytes .little [([],[])] 0

theorem run_latePost {id : ℕ} (hslots : s.slots = blankSlots (.counted id false true))
    (hadmin : s.admin = none) (hworker : s.worker = .idle) :
    run (KVStore.step host oneShard) s latePost = some { s with
      slots := fun _ => .readers []
      checkpointRequested := false
      checkpointActive := true
      checkpointEpoch := s.checkpointEpoch+1
      worker := .taken (s.checkpointEpoch+1)
      admin := some ⟨.clearPersistence, .locking 0⟩
      returned := s.returned ++ [⟨id, blankSet, false⟩] } := by
  simp [latePost, run_cons, KVStore.step, KVStore.adminStep, KVStore.callerStep, KVStore.workerStep,
    KVStore.setSlot, hslots, hadmin, hworker]

theorem run_lateCheckpoint (hash : Bytes → ℕ)
    (hadmin : s.admin = some ⟨.clearPersistence, .unlocking false kShardCount⟩)
    (hslots : s.slots = fun _ => .readers []) (hshards : s.shards = blankShards)
    (hworker : s.worker = .taken s.checkpointEpoch) (hfree : s.wal.ioFree = true)
    (hfile : s.wal.wal.file = []) (hout : s.wal.wal.outputOpen = true) :
    ∃ t, run (KVStore.step .little hash) s lateCheckpoint = some t ∧ t.wal = s.wal ∧
      t.snapshot = some lateSnapshot := by
  let s₁ : KVStore := { s with
    worker := .running
    admin := some ⟨.checkpoint s.checkpointEpoch, .locking 0⟩ }
  have h₁ : run (KVStore.step .little hash) s [.admin, .worker, .admin] = some s₁ := by
    simp [run_cons, KVStore.step, KVStore.adminStep, KVStore.workerStep, KVStore.leave, hadmin,
      hworker, s₁]
  let s₂ : KVStore := { s₁ with
    slots := fun _ => .admin
    writesSinceSnapshot := 0
    admin := some ⟨.checkpoint s.checkpointEpoch, .releasing (collect blankShards) 0 0⟩ }
  have h₂ : run (KVStore.step .little hash) { s₁ with
      slots := fun _ => .admin
      admin := some ⟨.checkpoint s.checkpointEpoch, .locking kShardCount⟩ } [.admin] = some s₂ := by
    simp [run_cons, KVStore.step, KVStore.adminStep, KVStore.captureStep, s₁, hfree,
      WriteAheadLog.currentOffset, hout, hfile, KVStore.collectData, hshards, s₂]
  have henum : Enumerates [([],[])] (collect blankShards) := by decide +kernel
  have hbytes : saveBytes .little [([],[])] 0 = .ok lateSnapshot := rfl
  refine ⟨{ s₂ with
    slots := fun _ => .readers []
    snapshot := some lateSnapshot
    temp := none
    unsynced := s.snapshot :: s.unsynced
    admin := some ⟨.checkpoint s.checkpointEpoch, .saving .renamed (collect blankShards) 0⟩ }, ?_,
    rfl, rfl⟩
  rw [lateCheckpoint, run_append, h₁, Option.bind_some, run_append, run_lock (s := s₁) rfl hslots,
    Option.bind_some, run_append, h₂, Option.bind_some, run_append, run_release (s := s₂) rfl rfl,
    Option.bind_some]
  simp [run_cons, KVStore.step, KVStore.adminStep, KVStore.saveStep, henum, hbytes, s₂, s₁]

/-- From the due write to the end of the reset, where the worker still has the request. -/
theorem run_escape (host : ByteOrder) {n id : ℕ} (hwal : WalIdle n s.wal)
    (hslots : s.slots = blankSlots (.counted id false true)) (hshards : s.shards = blankShards)
    (hadmin : s.admin = none) (hworker : s.worker = .idle) :
    ∃ t, run (KVStore.step host oneShard) s
        (latePost ++ (List.replicate kShardCount .admin ++ resetSteps)) = some t ∧
      t.admin = some ⟨.clearPersistence, .unlocking false 0⟩ ∧ (t.slots = fun _ => .admin) ∧
      t.shards = blankShards ∧ t.worker = .taken t.checkpointEpoch ∧
      t.wal = { s.wal with wal := s.wal.wal.cleared, syncedLength := 0 } := by
  rw [run_append, run_latePost hslots hadmin hworker, Option.bind_some, run_append,
    run_lock rfl rfl, Option.bind_some]
  exact ⟨_, run_resetSteps hwal rfl, rfl, rfl, hshards, rfl, rfl⟩

theorem persistence_reset_is_undone :
    ∃ s₀ before s after t,
      openStore .little oneShard ⟨[], none, none⟩ .buffered 1 = .ok s₀ ∧
      run (KVStore.step .little oneShard) s₀ before = some s ∧
      s.admin = some ⟨.clearPersistence, .unlocking false 0⟩ ∧
      (∀ l ∈ after, l.afterReset = true) ∧
      run (KVStore.step .little oneShard) s after = some t ∧
      t.snapshot ≠ none ∧ ∃ disk u, t.Crash disk ∧
        openStore .little oneShard disk .buffered 1 = .ok u ∧ u.collectData ≠ ∅ := by
  obtain ⟨before,s₁,-,hreach,hidle⟩ := idle_start.reach (kSnapshotInterval-1) (by decide)
  obtain ⟨wal,hwal,hdue⟩ := hidle.due
  obtain ⟨s,hs,hadmin,hslots,hshards,hworker,hswal⟩ := run_escape .little hwal
    (s := { s₁ with
      wal := wal
      slots := blankSlots (.counted s₁.wal.nextId false true)
      shards := blankShards
      writesSinceSnapshot := kSnapshotInterval }) rfl rfl hidle.admin hidle.worker
  have hidle : wal.job = none ∧ wal.truncating = none := ⟨hwal.job, hwal.truncating⟩
  obtain ⟨t,hlate,htwal,hsnap⟩ := run_lateCheckpoint oneShard (s := { s with
      slots := fun _ => .readers []
      admin := some ⟨.clearPersistence, .unlocking false kShardCount⟩ }) rfl rfl hshards hworker
    (by simp [hswal, WalThreads.ioFree, hidle]) (by simp [hswal, WriteAheadLog.cleared])
    (by simp [hswal, WriteAheadLog.cleared])
  refine ⟨KVStore.start oneShard blankWal ∅ none none, before ++ (blankWrite s₁.wal.nextId ++
    (latePost ++ (List.replicate kShardCount .admin ++ resetSteps))), s,
    List.replicate kShardCount .admin ++ lateCheckpoint, t, rfl, ?_, hadmin, by decide +kernel, ?_,
    ?_, ?_⟩
  · rw [run_append, hreach, Option.bind_some, run_append, hdue, Option.bind_some, hs]
  · rw [run_append, run_unlock hadmin hslots, Option.bind_some, hlate]
  · simp [hsnap]
  · have hopen :
      ((openStore .little oneShard ⟨[], some lateSnapshot, none⟩ .buffered 1).toOption.any
        fun u => decide (u.collectData ≠ ∅)) = true := by decide +kernel
    obtain ⟨u,hu,hne⟩ := (Option.any_eq_true _ _).mp hopen
    refine ⟨⟨[], some lateSnapshot, none⟩, u, ⟨⟨⟨0, ?_⟩, Nat.zero_le _⟩, hsnap.symm⟩,
      eq_ok_of_toOption hu, of_decide_eq_true hne⟩
    rw [htwal]
    simp [hswal, WriteAheadLog.cleared]

end ConcurrentKV
