import ConcurrentKV.Ranking
import ConcurrentKV.WalTermination

/-! Every call of a store returns, however many threads there are and whatever fails: while no
new call begins, every step lowers a number, and as long as anything is under way some thread can
go on. -/
namespace ConcurrentKV
open ByteCodec OpLog Sharding Transition

/-- The steps of calls that have begun, of the writer and of the checkpoint worker. -/
def Label.goesOn : Label → Bool
  | .call _ | .lockShared _ | .enter _ | .stop => false
  | .wal w => w.goesOn
  | _ => true

/-- An exception of the system or of a fault hook. -/
def Label.isFault : Label → Bool
  | .wal w => w.isFault
  | .writeTempFault _ _ | .adminFault => true
  | _ => false

/-- A step with which no call begins. -/
def KVStore.goOn (host : ByteOrder) (hash : Bytes → ℕ) (s : KVStore) (l : Label) : Option KVStore :=
  if l.goesOn then s.step host hash l else none

/-! ### Ranks -/

/-- How many steps a call that holds `snapshot_mutex_` can still make. A truncation leaves one to
the log, and the last step may leave an error to the worker. -/
def AdminPc.rank : AdminPc → ℕ
  | .unlocking _ n => kShardCount-n+5
  | .resetting => kShardCount+6
  | .syncingRemoval => kShardCount+7
  | .removingTemp => kShardCount+8
  | .removingSnapshot => kShardCount+9
  | .truncated => kShardCount+10
  | .rotating => kShardCount+12
  | .saving .directorySynced _ _ => kShardCount+13
  | .saving .renamed _ _ => kShardCount+14
  | .saving .tempSynced _ _ => kShardCount+15
  | .saving .tempWritten _ _ => kShardCount+16
  | .saving .begin _ _ => kShardCount+17
  | .releasing _ _ n => kShardCount-n+kShardCount+18
  | .locking n => kShardCount-n+2*kShardCount+19
  | .entered => 3*kShardCount+20

/-- A call and the step that enters it. -/
def kAdminRank : ℕ := 3*kShardCount+21

/-- A request, the worker that takes it, and its checkpoint. -/
def kRequestRank : ℕ := kAdminRank+1

def Worker.rank : Worker → ℕ
  | .running | .exited => 0
  | .idle => 1
  | .finishing => 2
  | .failed => 3
  | .taken _ => kAdminRank

def WritePc.rank : WritePc → ℕ
  | .locked => kRequestRank+17
  | .appending _ => kRequestRank+5
  | .appended _ => kRequestRank+4
  | .mutated _ _ => kRequestRank+3
  | .counted _ _ true => kRequestRank+2
  | .counted _ _ false | .scheduled _ _ => 1

/-- A `Set` or `Delete` that has no lock yet. -/
def kCallRank : ℕ := kRequestRank+18

def Slot.rank : Slot → ℕ
  | .writer call => call.pc.rank
  | .readers keys => keys.length
  | .admin => 0

namespace KVStore

def adminRank (s : KVStore) : ℕ := match s.admin with | some call => call.pc.rank | none => 0

/-- What is left to do apart from the calls that hold a lock. -/
def restRank (s : KVStore) : ℕ :=
  kCallRank*s.calling.length+s.adminRank+s.worker.rank+s.wal.rank+
    cond s.checkpointRequested kRequestRank 0+cond s.checkpointStopping 0 1

/-- No run in which no call begins is longer. -/
def rank (s : KVStore) : ℕ := ∑ i, (s.slots i).rank+s.restRank

variable {host : ByteOrder} {hash : Bytes → ℕ} {s t : KVStore} {l : Label}

/-- A call moves on under its lock, and the rest of the store has at most `n` more to do. -/
theorem rank_lt_of_slot (n : ℕ) {i : Shard} {old slot : Slot} (hold : s.slots i = old)
    (hslots : t.slots = Function.update s.slots i slot) (hslot : slot.rank+n < old.rank)
    (hrest : t.restRank ≤ s.restRank+n) : t.rank < s.rank := by
  have hsum := sum_update_add Slot.rank s.slots i slot
  rw [hold] at hsum
  rw [rank, rank, hslots]
  omega

/-- A step under a lock. -/
theorem Steps.caller_rank_lt {i : Shard} (h : Steps host hash s (.caller i) t) :
    t.rank < s.rank := by
  have hgo {old slot : Slot} (hold : s.slots i = old)
      (hslots : t.slots = Function.update s.slots i slot) (hslot : slot.rank < old.rank)
      (hrest : t.restRank = s.restRank) : t.rank < s.rank :=
    rank_lt_of_slot 0 hold hslots hslot hrest.le
  cases h with
  | prepare i op wal hslot hwal =>
    have hprep := WalThreads.rank_prepare hwal
    refine rank_lt_of_slot 11 hslot rfl (by simp [Slot.rank, WritePc.rank]) ?_
    simp only [restRank, adminRank, setSlot]
    omega
  | acknowledge i op id hslot => exact hgo hslot rfl (by simp [Slot.rank, WritePc.rank]) rfl
  | rethrow i op id e hslot => exact hgo hslot rfl (by simp [Slot.rank, WritePc.rank]) rfl
  | mutate i op id erased hslot => exact hgo hslot rfl (by simp [Slot.rank, WritePc.rank]) rfl
  | count i op id erased hslot =>
    refine hgo hslot rfl ?_ rfl
    cases s.writesSinceSnapshot+1 == kSnapshotInterval <;> simp [Slot.rank, WritePc.rank]
  | schedule i op id erased hslot =>
    refine rank_lt_of_slot kRequestRank hslot rfl (by simp [Slot.rank, WritePc.rank]; omega) ?_
    simp only [restRank, adminRank, setSlot, cond_true]
    omega
  | ret i op pc id erased hslot hpc =>
    refine hgo hslot rfl ?_ rfl
    rcases hpc with rfl | rfl <;> simp [Slot.rank, WritePc.rank]
  | writeTempFails _ _ _ _ _ _ hl => simp at hl

/-- A free lock, and one that the thread that locks all shards holds, count nothing. -/
theorem sum_rank_update_le (slots : Shard → Slot) (i : Shard) {slot : Slot} (h : slot.rank = 0) :
    ∑ j, (Function.update slots i slot j).rank ≤ ∑ j, (slots j).rank := by
  have hsum := sum_update_add Slot.rank slots i slot
  omega

theorem rank_of_mayThrow {pc : AdminPc} (h : pc.mayThrow = true) :
    kShardCount+5 < pc.rank := by
  cases pc with
  | saving stage => cases stage <;> simp [AdminPc.mayThrow, AdminPc.rank] at h ⊢
  | rotating | removingSnapshot | removingTemp | syncingRemoval => simp [AdminPc.rank]
  | _ => cases h

/-- What is left of a call after an exception. -/
theorem adminRank_throw (s : KVStore) (call : AdminCall) :
    (s.throw call).adminRank ≤ kShardCount+5 := by
  simp only [throw, adminRank, AdminPc.rank]
  omega

/-- A call that leaves may give the worker three more steps. -/
theorem rank_leave {call : AdminCall} (hcall : s.admin = some call) (hrank : 3 < call.pc.rank)
    (kind : AdminKind) (failed : Bool) : (s.leave kind failed).rank < s.rank := by
  have hworker : (s.leave kind failed).worker.rank ≤ s.worker.rank+3 := by
    cases kind with
    | checkpoint epoch => cases failed <;> simp [leave, Worker.rank]
    | _ => exact Nat.le_add_right _ _
  have hadmin : s.adminRank = call.pc.rank := by rw [adminRank, hcall]
  have hfree : (s.leave kind failed).adminRank = 0 := rfl
  rw [rank, rank, restRank, restRank, hadmin, hfree]
  simp only [leave] at hworker ⊢
  omega

/-- The holder of `snapshot_mutex_` moves, and apart from it the locks of shards and the log. -/
theorem rank_lt_of_admin {call : AdminCall} (hcall : s.admin = some call)
    (ht : t.adminRank+t.wal.rank < call.pc.rank+s.wal.rank)
    (hslots : ∑ i, (t.slots i).rank ≤ ∑ i, (s.slots i).rank) (hcalling : t.calling = s.calling)
    (hworker : t.worker = s.worker)
    (hreq : t.checkpointRequested = true → s.checkpointRequested = true)
    (hstop : t.checkpointStopping = s.checkpointStopping) : t.rank < s.rank := by
  have hadmin : s.adminRank = call.pc.rank := by rw [adminRank, hcall]
  have hcond : cond t.checkpointRequested kRequestRank 0 ≤
      cond s.checkpointRequested kRequestRank 0 := by
    cases h : t.checkpointRequested with
    | true => rw [hreq h]
    | false => exact Nat.zero_le _
  rw [rank, rank, restRank, restRank, hworker, hstop, hadmin, hcalling]
  omega

/-- The steps of the holder of `snapshot_mutex_`. -/
theorem Steps.admin_rank_lt (h : Steps host hash s l t)
    (hl : l = .admin ∨ l = .adminFault ∨ (∃ entries, l = .writeTemp entries) ∨
      ∃ entries n, l = .writeTempFault entries n) : t.rank < s.rank := by
  -- the call moves on alone
  have hgo {call : AdminCall} (hcall : s.admin = some call) (ht : t.adminRank < call.pc.rank)
      (hwal : t.wal = s.wal) (hslots : t.slots = s.slots) (hcalling : t.calling = s.calling)
      (hworker : t.worker = s.worker)
      (hreq : t.checkpointRequested = true → s.checkpointRequested = true)
      (hstop : t.checkpointStopping = s.checkpointStopping) : t.rank < s.rank := by
    refine rank_lt_of_admin hcall ?_ (by rw [hslots]) hcalling hworker hreq hstop
    rw [hwal]
    omega
  have hthrow {call : AdminCall} (c : AdminCall) (hcall : s.admin = some call)
      (hrank : kShardCount+5 < call.pc.rank) : (s.throw c).adminRank < call.pc.rank :=
    (s.adminRank_throw c).trans_lt hrank
  cases h with
  | cancelled epoch hadmin => exact rank_leave hadmin (by simp [AdminPc.rank]) _ _
  | leave kind failed n hn hadmin => exact rank_leave hadmin (by simp [AdminPc.rank]) _ _
  | checked epoch hadmin =>
    exact hgo hadmin (by simp [adminRank, AdminPc.rank]; omega) rfl rfl rfl rfl id rfl
  | cancel kind hkind hadmin =>
    exact hgo hadmin (by simp [adminRank, AdminPc.rank]; omega) rfl rfl rfl rfl (by simp) rfl
  | lock kind n hn hadmin =>
    refine rank_lt_of_admin hadmin ?_ (sum_rank_update_le _ _ rfl) rfl rfl id rfl
    simp only [adminRank, AdminPc.rank, setSlot]
    omega
  | release kind data walOffset n hn hadmin | unlock kind failed n hn hadmin =>
    refine rank_lt_of_admin hadmin ?_ (sum_rank_update_le _ _ rfl) rfl rfl id rfl
    simp only [adminRank, AdminPc.rank, setSlot]
    omega
  | captureFails kind n hn hadmin =>
    exact hgo hadmin (hthrow _ hadmin (by simp only [AdminPc.rank]; omega)) rfl rfl rfl rfl id rfl
  | captureCheckpoint epoch n offset hn hadmin | captureSave n offset hn hadmin
  | captureCompact n hn hadmin | captureClear n hn hadmin
  | released kind data walOffset n hn hadmin =>
    refine hgo hadmin ?_ rfl rfl rfl rfl id rfl
    simp only [adminRank, AdminPc.rank]
    omega
  | writeTemp kind data walOffset entries bytes hadmin | syncTemp kind data walOffset hadmin
  | rename kind data walOffset hadmin | syncDirectory kind data walOffset hadmin
  | removeSnapshot kind hadmin | removeTemp kind hadmin | syncRemoval kind hadmin
  | reset kind hadmin =>
    exact hgo hadmin (by simp [adminRank, AdminPc.rank]) rfl rfl rfl rfl id rfl
  | verified kind data walOffset hadmin =>
    refine hgo hadmin ?_ rfl rfl rfl rfl id rfl
    cases kind <;> simp [adminRank, AdminPc.rank, AdminKind.afterSave]
  | writeTempFails l kind data walOffset temp hadmin =>
    exact hgo hadmin (hthrow _ hadmin (by simp [AdminPc.rank])) rfl rfl rfl rfl id rfl
  | verifyFails kind data walOffset hadmin =>
    exact hgo hadmin (hthrow _ hadmin (by simp [AdminPc.rank])) rfl rfl rfl rfl id rfl
  | rotateFails kind hadmin =>
    exact hgo hadmin (hthrow _ hadmin (by simp [AdminPc.rank])) rfl rfl rfl rfl id rfl
  | fault call hadmin hpc =>
    exact hgo hadmin (hthrow _ hadmin (rank_of_mayThrow hpc)) rfl rfl rfl rfl id rfl
  | rotate kind wal hadmin hwal =>
    have hclear := WalThreads.rank_clear hwal
    refine rank_lt_of_admin hadmin ?_ (Nat.le_refl _) rfl rfl id rfl
    simp only [adminRank, AdminPc.rank]
    omega
  | syncTruncation kind wal hadmin hwal =>
    have hle : wal.rank ≤ s.wal.rank := by
      rcases hwal with hwal | ⟨rfl,-⟩
      · exact (WalThreads.rank_clearSync hwal).le
      · exact Nat.le_refl _
    have hnext : kind.afterClear.rank < AdminPc.truncated.rank := by
      cases kind <;> simp [AdminPc.rank, AdminKind.afterClear]
    refine rank_lt_of_admin hadmin ?_ (Nat.le_refl _) rfl rfl id rfl
    simp only [adminRank]
    omega
  | _ => simp at hl

/-- The steps of the checkpoint worker. -/
theorem Steps.worker_rank_lt (h : Steps host hash s .worker t) : t.rank < s.rank := by
  cases h with
  | take hworker hreq =>
    simp only [rank, restRank, adminRank, hworker, hreq, Worker.rank, kRequestRank, cond_true,
      cond_false]
    omega
  | exit hworker hreq =>
    simp only [rank, restRank, adminRank, hworker, Worker.rank]
    omega
  | enterCheckpoint epoch hworker hadmin =>
    simp only [rank, restRank, adminRank, hworker, hadmin, Worker.rank, AdminPc.rank, kAdminRank]
    omega
  | recordError hworker =>
    simp only [rank, restRank, adminRank, hworker, Worker.rank, cond_false]
    omega
  | finish hworker =>
    simp only [rank, restRank, adminRank, hworker, Worker.rank]
    omega
  | writeTempFails _ _ _ _ _ _ hl => simp at hl

/-- Every step with which no call begins. -/
theorem rank_lt (hmax : 1 ≤ s.wal.wal.maxBatch) (hl : l.goesOn = true)
    (hstep : s.step host hash l = some t) : t.rank < s.rank := by
  have h := steps_of_step hstep
  cases l with
  | call | lockShared | enter | stop => cases hl
  | lockShard op =>
    cases h with
    | lockShard op hcall hslot =>
      have herase : (s.calling.erase op).length+1 = s.calling.length := by
        rw [List.length_erase_of_mem hcall]
        have := List.length_pos_of_mem hcall
        omega
      have hsum := sum_update_add Slot.rank s.slots (shardIndex hash op.key) (.writer ⟨op, .locked⟩)
      have hlocked : (Slot.writer ⟨op, .locked⟩).rank+1 = kCallRank := rfl
      rw [rank, rank, restRank, restRank, ← herase, Nat.mul_succ]
      simp only [setSlot, adminRank]
      omega
    | writeTempFails _ _ _ _ _ _ hl => simp at hl
  | caller i => exact h.caller_rank_lt
  | get key value =>
    simp only [step] at hstep
    split at hstep
    · rename_i keys hslot
      split at hstep
      · rename_i hkey
        obtain rfl := Option.some.inj hstep
        refine rank_lt_of_slot 0 hslot rfl ?_ (Nat.le_refl _)
        simp only [Slot.rank, Nat.add_zero, List.length_erase_of_mem hkey.1]
        have := List.length_pos_of_mem hkey.1
        omega
      · cases hstep
    · cases hstep
  | wal w =>
    cases h with
    | wal w wal hw hwal =>
      have hlt := WalThreads.rank_lt hmax hl hwal
      simp only [rank, restRank, adminRank]
      omega
    | writeTempFails _ _ _ _ _ _ hl => simp at hl
  | admin | writeTemp | writeTempFault | adminFault => exact h.admin_rank_lt (by simp)
  | worker => exact h.worker_rank_lt

end KVStore

/-! ### Who holds what -/

variable {host : ByteOrder} {hash : Bytes → ℕ} {s t u : KVStore} {l : Label}

/-- What a step does to `snapshot_mutex_`. -/
inductive Passes (s t : KVStore) : Label → Prop where
  | stays (l : Label) (hkind : t.admin.map AdminCall.kind = s.admin.map AdminCall.kind)
      (hworker : t.worker = .running ↔ s.worker = .running) : Passes s t l
  | enters (l : Label) (epoch : ℕ) (hfree : s.admin = none)
      (hadmin : t.admin = some ⟨.checkpoint epoch, .entered⟩) (hworker : t.worker = .running) :
      Passes s t l
  | leaves (call : AdminCall) (hcall : s.admin = some call) (hfree : t.admin = none)
      (hworker : t.worker = .running → s.worker = .running ∧
        ∀ epoch, call.kind ≠ .checkpoint epoch) :
      Passes s t .admin

theorem KVStore.Steps.passes (h : KVStore.Steps host hash s l t) (hl : ∀ kind, l ≠ .enter kind) :
    Passes s t l := by
  have hleave (kind : AdminKind) (failed : Bool) : (s.leave kind failed).worker = .running →
      s.worker = .running ∧ ∀ epoch, kind ≠ .checkpoint epoch := by
    intro hrun
    cases kind with
    | checkpoint epoch => cases failed <;> cases hrun
    | _ => exact ⟨hrun, by simp⟩
  cases h with
  | enter kind => exact absurd rfl (hl kind)
  | cancelled epoch hadmin => exact .leaves _ hadmin rfl (hleave _ _)
  | leave kind failed n hn hadmin => exact .leaves _ hadmin rfl (hleave _ _)
  | enterCheckpoint epoch hworker hadmin => exact .enters _ epoch hadmin rfl rfl
  | take hworker | exit hworker | recordError hworker | finish hworker =>
    exact .stays _ rfl (by simp [hworker])
  | fault call hadmin => exact .stays _ (by rw [hadmin]; rfl) Iff.rfl
  | checked _ hadmin | cancel _ _ hadmin | lock _ _ _ hadmin | captureFails _ _ _ hadmin
  | captureCheckpoint _ _ _ _ hadmin | captureSave _ _ _ hadmin | captureCompact _ _ hadmin
  | captureClear _ _ hadmin | release _ _ _ _ _ hadmin | released _ _ _ _ _ hadmin
  | writeTemp _ _ _ _ _ hadmin | writeTempFails _ _ _ _ _ hadmin | syncTemp _ _ _ hadmin
  | rename _ _ _ hadmin | syncDirectory _ _ _ hadmin | verified _ _ _ hadmin
  | verifyFails _ _ _ hadmin | rotate _ _ hadmin | rotateFails _ hadmin
  | syncTruncation _ _ hadmin | removeSnapshot _ hadmin | removeTemp _ hadmin
  | syncRemoval _ hadmin | reset _ hadmin | unlock _ _ _ _ hadmin =>
    exact .stays _ (by rw [hadmin]; rfl) Iff.rfl
  | _ => exact .stays _ rfl Iff.rfl

/-- A worker in a checkpoint holds `snapshot_mutex_` for it. -/
def WorkerHolds (s : KVStore) : Prop :=
  s.worker = .running → ∃ epoch, s.admin.map AdminCall.kind = some (.checkpoint epoch)

theorem WorkerHolds.passes (h : WorkerHolds s) (hpass : Passes s t l) : WorkerHolds t := by
  intro hrun
  cases hpass with
  | stays _ hkind hworker =>
    rw [hkind]
    exact h (hworker.mp hrun)
  | enters _ epoch hfree hadmin => exact ⟨epoch, by rw [hadmin]; rfl⟩
  | leaves call hcall hfree hworker =>
    obtain ⟨hwas,hne⟩ := hworker hrun
    obtain ⟨epoch,he⟩ := h hwas
    rw [hcall] at he
    exact absurd (Option.some.inj he) (hne epoch)

/-- The keys that are read in a shard belong to it. -/
def ReadersAtHome (hash : Bytes → ℕ) (slots : Shard → Slot) : Prop :=
  ∀ i keys, slots i = .readers keys → ∀ key ∈ keys, shardIndex hash key = i

theorem ReadersAtHome.step (h : ReadersAtHome hash s.slots)
    (hstep : KVStore.Steps host hash s l t) :
    ReadersAtHome hash t.slots := by
  have hmove {i : Shard} {slot : Slot}
      (hslot : ∀ keys, slot = .readers keys → ∀ key ∈ keys, shardIndex hash key = i) :
      ReadersAtHome hash (Function.update s.slots i slot) := by
    intro j keys hj
    by_cases hji : j = i
    · obtain rfl := hji
      rw [Function.update_self] at hj
      exact hslot keys hj
    · rw [Function.update_of_ne hji] at hj
      exact h j keys hj
  have hfree {i : Shard} : ReadersAtHome hash (Function.update s.slots i (.readers [])) := by
    apply hmove
    intro keys hk
    obtain rfl := Slot.readers.inj hk
    simp
  cases hstep with
  | lockShared key keys hslot =>
    apply hmove
    intro keys' hk k hmem
    obtain rfl := Slot.readers.inj hk
    rcases List.mem_append.mp hmem with hold | hnew
    · exact h _ keys hslot k hold
    · rw [List.mem_singleton.mp hnew]
  | get key value keys hslot =>
    apply hmove
    intro keys' hk k hmem
    obtain rfl := Slot.readers.inj hk
    exact h _ keys hslot k (List.mem_of_mem_erase hmem)
  | rethrow | ret | release | unlock => exact hfree
  | lockShard | prepare | acknowledge | mutate | count | schedule | lock => exact hmove (by simp)
  | _ => exact h

/-- A store in any run in which its log is not destroyed. -/
structure Steady (hash : Bytes → ℕ) (s : KVStore) : Prop where
  running : Running hash s
  serviced : s.wal.Serviced
  worker : WorkerHolds s
  readers : ReadersAtHome hash s.slots

theorem WalThreads.Serviced.store (h : s.wal.Serviced) (hlock : LockInv s.slots s.admin)
    (hstep : KVStore.Steps host hash s l t) (hl : l ≠ .wal .stop) : t.wal.Serviced := by
  cases hstep.effect hlock with
  | wal lab w hw hlab hwal =>
    refine h.step ?_ hwal
    rintro rfl
    rcases hlab with rfl | ⟨-,hw⟩
    · exact hl rfl
    · simp at hw
  | prepare i op hold hwal => exact h.step (by simp) hwal
  | same _ hwal | locks _ _ _ _ _ hwal | lockShard _ _ hwal | acknowledge _ _ _ _ _ hwal
  | rethrow _ _ _ _ _ _ hwal | mutate _ _ _ _ _ hwal | proceed _ _ _ _ _ _ _ _ _ _ hwal
  | ret _ _ _ _ _ _ _ _ hwal =>
    rw [hwal]
    exact h

theorem Steady.start {disk : Disk} {policy : DurabilityPolicy} {maxBatch : ℕ}
    (hopen : openStore host hash disk policy maxBatch = .ok s) : Steady hash s := by
  have hrun := Running.start hopen
  obtain ⟨wal,m,-,rfl⟩ := openStore_eq hopen
  refine ⟨hrun, .start wal, by simp [WorkerHolds, KVStore.start], ?_⟩
  intro i keys hk
  obtain rfl := Slot.readers.inj hk
  simp

theorem Steady.step (h : Steady hash s) (hl : l ≠ .wal .stop)
    (hstep : s.step host hash l = some t) : Steady hash t := by
  have hsteps := KVStore.steps_of_step hstep
  refine ⟨h.running.step hsteps, h.serviced.store h.running.lock hsteps hl, ?_,
    h.readers.step hsteps⟩
  by_cases henter : ∃ kind, l = .enter kind
  · obtain ⟨kind,rfl⟩ := henter
    cases hsteps with
    | enter kind hkind hadmin =>
      intro hrun
      obtain ⟨epoch,he⟩ := h.worker hrun
      rw [hadmin] at he
      cases he
    | writeTempFails _ _ _ _ _ _ hl => simp at hl
  · exact h.worker.passes (hsteps.passes fun kind hk => henter ⟨kind, hk⟩)

/-! ### Somebody can go on -/

/-- Every call has returned or thrown, and the worker waits for a request or is joined. -/
structure KVStore.AtRest (s : KVStore) : Prop where
  calling : s.calling = []
  slots : ∀ i, s.slots i = .readers []
  admin : s.admin = none
  worker : s.worker = .exited ∨
    s.worker = .idle ∧ s.checkpointRequested = false ∧ s.checkpointStopping = false
  log : s.wal.AtRest

/-- Some thread can go on. It needs an exception for that only where the file cannot take what is
to be written. -/
def KVStore.GoesOn (host : ByteOrder) (hash : Bytes → ℕ) (s : KVStore) : Prop :=
  ∃ l t, s.goOn host hash l = some t ∧ (l.isFault = true → s.wal.cannotWrite = true)

theorem KVStore.goesOn_of_step (hl : l.goesOn = true) (hsome : (s.step host hash l).isSome = true)
    (hfault : l.isFault = false) : s.GoesOn host hash := by
  obtain ⟨t,ht⟩ := Option.isSome_iff_exists.mp hsome
  exact ⟨l, t, by rw [KVStore.goOn, if_pos hl, ht], by simp [hfault]⟩

/-- Every map can be listed. -/
theorem exists_enumerates (m : Store) : ∃ entries, Enumerates entries m := by
  induction m using Finmap.induction_on with
  | _ a =>
    induction a using AList.insertRec with
    | H0 => exact ⟨[], List.nodup_nil, rfl⟩
    | IH k v a hk ih =>
      obtain ⟨entries,henum⟩ := ih
      have hnew : k ∉ entries.map Prod.fst := by
        intro hmem
        obtain ⟨entry,hentry,rfl⟩ := List.mem_map.mp hmem
        have hlook := (henum.lookup_iff entry.1 entry.2).mpr hentry
        exact hk (Finmap.mem_of_lookup_eq_some hlook)
      refine ⟨entries ++ [(k,v)], ?_, ?_⟩
      · rw [List.map_append]
        exact List.nodup_append_comm.mp (List.nodup_cons.mpr ⟨hnew, henum.1⟩)
      · rw [storeOf, List.foldl_append]
        change (storeOf entries).insert k v = _
        rw [henum.2]
        exact Finmap.insert_toFinmap k v a

/-- A holder of `snapshot_mutex_` can go on when the shards are free for it and no truncation
is under way. -/
theorem Running.admin_goes (h : Running hash s) (host : ByteOrder)
    (htrunc : s.wal.truncating = none) {call : AdminCall} (hcall : s.admin = some call)
    (hrest : ∀ i, s.slots i = .admin ∨ s.slots i = .readers []) :
    (∃ t, s.step host hash .admin = some t) ∨
      ∃ entries t, s.step host hash (.writeTemp entries) = some t := by
  obtain ⟨kind,pc⟩ := call
  have hgo (hsome : (s.adminStep host).isSome = true) :
      (∃ t, s.step host hash .admin = some t) ∨
        ∃ entries t, s.step host hash (.writeTemp entries) = some t :=
    .inl (Option.isSome_iff_exists.mp hsome)
  -- with all shards locked nobody is in the critical section of the log
  have hfree (hall : ∀ i, AdminCall.holds ⟨kind,pc⟩ i) : s.wal.ioFree = true := by
    have hquiet := h.quiet fun i => (h.lock i).mpr ⟨_, hcall, hall i⟩
    unfold WalThreads.ioFree
    rw [htrunc]
    rcases hquiet.job with hjob | ⟨error,hjob⟩ <;> rw [hjob] <;> rfl
  cases pc with
  | entered =>
    apply hgo
    simp only [KVStore.adminStep, hcall]
    cases kind with
    | checkpoint epoch =>
      dsimp only
      split <;> rfl
    | _ => rfl
  | locking n =>
    apply hgo
    simp only [KVStore.adminStep, hcall]
    split
    · rename_i hn
      have hslot : s.slots ⟨n,hn⟩ = .readers [] := by
        apply (hrest ⟨n,hn⟩).resolve_left
        intro ha
        have hlock : LockInv s.slots (some ⟨kind, .locking n⟩) := hcall ▸ h.lock
        exact Nat.lt_irrefl n ((hlock.holds_iff ⟨n,hn⟩).mp ha)
      rw [if_pos hslot]
      rfl
    · rename_i hn
      have hio := hfree fun i => i.isLt.trans_le (Nat.le_of_not_lt hn)
      cases kind with
      | checkpoint | saveSnapshot =>
        simp only [KVStore.captureStep, if_pos hio]
        split <;> rfl
      | _ => rfl
  | releasing data walOffset n =>
    apply hgo
    simp only [KVStore.adminStep, hcall]
    split <;> rfl
  | saving stage data walOffset =>
    cases stage with
    | begin =>
      obtain ⟨entries,henum⟩ := exists_enumerates data
      right
      refine ⟨entries, Option.isSome_iff_exists.mp ?_⟩
      simp only [KVStore.step, hcall, if_pos henum]
      split <;> rfl
    | directorySynced =>
      apply hgo
      simp only [KVStore.adminStep, hcall, KVStore.saveStep]
      split <;> rfl
    | _ =>
      apply hgo
      simp only [KVStore.adminStep, hcall, KVStore.saveStep, Option.isSome_some]
  | rotating =>
    apply hgo
    simp only [KVStore.adminStep, hcall]
    split
    · rfl
    · rw [if_pos (hfree fun _ => trivial)]
      rfl
  | truncated =>
    apply hgo
    simp only [KVStore.adminStep, hcall]
    split <;> rfl
  | unlocking failed n =>
    apply hgo
    simp only [KVStore.adminStep, hcall]
    split <;> rfl
  | removingSnapshot | removingTemp | syncingRemoval | resetting =>
    apply hgo
    simp only [KVStore.adminStep, hcall, Option.isSome_some]

/-- A `Set` or `Delete` that has its lock can go on unless its append is under way. -/
theorem Running.write_goes (h : Running hash s) (host : ByteOrder) {i : Shard} {op : WalRecord}
    {pc : WritePc} (hslot : s.slots i = .writer ⟨op,pc⟩) :
    (s.callerStep host i).isSome = true ∨ s.wal.outstanding ≠ [] := by
  cases pc with
  | appending id =>
    rcases h.own.pending i op id hslot with ⟨e,he⟩ | ⟨r,hr,-⟩
    · left
      have hfind : (s.wal.results.find? (fun r => r.1 == id)).isSome = true := by
        rw [List.find?_isSome]
        exact ⟨_, he, beq_self_eq_true _⟩
      obtain ⟨⟨rid,outcome⟩,hr⟩ := Option.isSome_iff_exists.mp hfind
      simp only [KVStore.callerStep, hslot, hr]
      cases outcome <;> rfl
    · exact .inr (List.ne_nil_of_mem hr)
  | locked =>
    left
    simp only [KVStore.callerStep, hslot, Option.isSome_map, WalThreads.step]
    split <;> rfl
  | counted id erased due =>
    left
    cases due <;> simp only [KVStore.callerStep, hslot, Option.isSome_some]
  | appended | mutated | scheduled =>
    left
    simp only [KVStore.callerStep, hslot, Option.isSome_some]

/-- The worker can go on when nobody holds `snapshot_mutex_`, if there is anything for it to do. -/
theorem WorkerHolds.goes (h : WorkerHolds s) (hadmin : s.admin = none) :
    (s.worker = .exited ∨
      s.worker = .idle ∧ s.checkpointRequested = false ∧ s.checkpointStopping = false) ∨
      s.workerStep.isSome = true := by
  cases hworker : s.worker with
  | exited => exact .inl (.inl rfl)
  | running =>
    obtain ⟨epoch,he⟩ := h hworker
    rw [hadmin] at he
    cases he
  | idle =>
    cases hreq : s.checkpointRequested with
    | true => simp [KVStore.workerStep, hworker, hreq]
    | false =>
      cases hstop : s.checkpointStopping with
      | true => simp [KVStore.workerStep, hworker, hreq, hstop]
      | false => exact .inl (.inr ⟨rfl, rfl, rfl⟩)
  | taken epoch => simp [KVStore.workerStep, hworker, hadmin]
  | failed | finishing => simp [KVStore.workerStep, hworker]

theorem Steady.goes (h : Steady hash s) (host : ByteOrder) : s.AtRest ∨ s.GoesOn host hash := by
  have hgo (l : Label) (hl : l.goesOn = true) (hsome : (s.step host hash l).isSome = true)
      (hfault : l.isFault = false) : s.AtRest ∨ s.GoesOn host hash :=
    .inr (KVStore.goesOn_of_step hl hsome hfault)
  -- the log first: whoever waits for an append waits for nothing else
  rcases h.serviced.goes host with hlog | ⟨w,wal,hw,hstep,hfault⟩
  swap
  · right
    refine ⟨.wal w, { s with wal := wal }, ?_, hfault⟩
    rw [KVStore.goOn, if_pos (show (Label.wal w).goesOn = true from hw)]
    cases w with
    | prepare op => cases hw
    | _ => simp only [KVStore.step, hstep, Option.map_some]
  -- then the calls that hold the lock of a shard
  by_cases hwriter : ∃ i op pc, s.slots i = .writer ⟨op,pc⟩
  · obtain ⟨i,op,pc,hslot⟩ := hwriter
    rcases h.running.write_goes host hslot with hsome | hout
    · exact hgo (.caller i) rfl hsome rfl
    · exact absurd hlog.outstanding hout
  by_cases hreader : ∃ i key keys, s.slots i = .readers (key :: keys)
  · obtain ⟨i,key,keys,hslot⟩ := hreader
    have hi := h.readers i _ hslot key List.mem_cons_self
    apply hgo (.get key ((s.shards i).lookup key)) rfl ?_ rfl
    simp [KVStore.step, hi, hslot]
  have hrest (i : Shard) : s.slots i = .admin ∨ s.slots i = .readers [] := by
    cases hslot : s.slots i with
    | admin => exact .inl rfl
    | writer call => exact absurd ⟨i, call.op, call.pc, hslot⟩ hwriter
    | readers keys =>
      cases keys with
      | nil => exact .inr rfl
      | cons key keys => exact absurd ⟨i, key, keys, hslot⟩ hreader
  -- then the holder of `snapshot_mutex_`, for whom all shards are free now
  cases hadmin : s.admin with
  | some call =>
    rcases h.running.admin_goes host hlog.truncating hadmin hrest with ⟨t,ht⟩ | ⟨entries,t,ht⟩
    · exact hgo .admin rfl (by rw [ht]; rfl) rfl
    · exact hgo (.writeTemp entries) rfl (by rw [ht]; rfl) rfl
  | none =>
    have hlock : LockInv s.slots none := hadmin ▸ h.running.lock
    have hfree (i : Shard) : s.slots i = .readers [] :=
      (hrest i).resolve_left (hlock.free_of_none i)
    cases hcalling : s.calling with
    | cons op calls =>
      apply hgo (.lockShard op) rfl ?_ rfl
      simp [KVStore.step, hcalling, hfree]
    | nil =>
      rcases h.worker.goes hadmin with hdone | hsome
      · exact .inl ⟨hcalling, hfree, hadmin, hdone, hlog⟩
      · exact hgo .worker rfl hsome rfl

/-- While no call begins, every step of a store comes closer to rest. -/
theorem Steady.ranked : Ranked (KVStore.goOn host hash) (Steady hash) KVStore.rank := by
  intro s l t h hstep
  unfold KVStore.goOn at hstep
  split at hstep
  · rename_i hl
    refine ⟨h.step ?_ hstep, KVStore.rank_lt h.running.batch.maxBatch hl hstep⟩
    rintro rfl
    cases hl
  · cases hstep

/-- No call hangs. After any run in which the log is not destroyed, let no more calls begin. Then
there are at most `s.rank` more steps, whatever the interleaving, the policy and the failures;
until every call has returned some thread can go on, and the rest is reached from wherever
the threads are. -/
theorem calls_always_return {disk : Disk} {policy : DurabilityPolicy} {maxBatch : ℕ}
    {before after : List Label} (hopen : openStore host hash disk policy maxBatch = .ok s)
    (hbefore : run (KVStore.step host hash) s before = some t)
    (halive : ∀ l ∈ before, l ≠ .wal .stop)
    (hafter : run (KVStore.goOn host hash) t after = some u) :
    after.length ≤ t.rank ∧ (u.AtRest ∨ u.GoesOn host hash) ∧
      ∃ ls v, run (KVStore.goOn host hash) u ls = some v ∧ v.AtRest := by
  have ht : Steady hash t :=
    run_invariant (fun _ _ _ hl h hstep => h.step hl hstep) halive hbefore (.start hopen)
  obtain ⟨hu,hlen⟩ := Steady.ranked.run_length hafter ht
  refine ⟨by omega, hu.goes host, ?_⟩
  apply Steady.ranked.reaches ?_ hu
  intro v hv
  rcases hv.goes host with hend | ⟨l,w,hw,-⟩
  · exact .inl hend
  · exact .inr ⟨l, w, hw⟩

/-- A failed batch of group commit, with a `Set`, a `Get` and a compaction under way. -/
theorem calls_return_after_failed_batch :
    ∃ s t u, openStore .little List.length ⟨[], none, none⟩ .groupCommit 2 = .ok s ∧
      run (KVStore.step .little List.length) s [.call (.set [] [2]), .lockShard (.set [] [2]),
        .caller 0, .lockShared [1], .enter .compactPersistence, .wal (.submit 0), .wal .cut,
        .wal .lockIo] = some t ∧
      run (KVStore.goOn .little List.length) t [.wal (.fail 0 .headerWrite)] = some u ∧
      ∃ ls v, run (KVStore.goOn .little List.length) u ls = some v ∧ v.AtRest := by
  have hopen : openStore .little List.length ⟨[], none, none⟩ .groupCommit 2 = .ok (KVStore.start
      List.length { file := [], policy := .groupCommit, maxBatch := 2, headerPending := true } ∅
      none none) := rfl
  have hall : ((run (KVStore.step .little List.length) (KVStore.start List.length
      { file := [], policy := .groupCommit, maxBatch := 2, headerPending := true } ∅ none none)
      [.call (.set [] [2]), .lockShard (.set [] [2]), .caller 0, .lockShared [1],
        .enter .compactPersistence, .wal (.submit 0), .wal .cut, .wal .lockIo]).bind fun t =>
      run (KVStore.goOn .little List.length) t [.wal (.fail 0 .headerWrite)]).isSome = true := by
    decide +kernel
  obtain ⟨u,hu⟩ := Option.isSome_iff_exists.mp hall
  obtain ⟨t,ht,hu⟩ := Option.bind_eq_some_iff.mp hu
  exact ⟨_, t, u, hopen, ht, hu, (calls_always_return hopen ht (by simp) hu).2.2⟩

end ConcurrentKV
