import Mathlib.Tactic.Abel
import ConcurrentKV.KVFailure
import ConcurrentKV.KVHolding
import ConcurrentKV.KVRuns
import ConcurrentKV.Ranking

/-! A background checkpoint that fails leaves its exception in `checkpoint_error_`, and nothing
takes it out again. From then on no `Set` or `Delete` begins; only those that are past the check
can still end. -/
namespace ConcurrentKV
open ByteCodec OpLog Sharding Transition

/-- The operation of a call that holds the lock. -/
def Slot.ops : Slot → Multiset WalRecord
  | .writer call => {call.op}
  | _ => 0

/-- The operations of all calls that are past `CheckCheckpointError` and have not ended. -/
def KVStore.inFlight (s : KVStore) : Multiset WalRecord := ↑s.calling+∑ i, (s.slots i).ops

variable {host : ByteOrder} {hash : Bytes → ℕ} {s t u : KVStore} {l : Label}

/-- What a step does to the calls in flight. -/
inductive Flow (s t : KVStore) : Label → Prop where
  | keeps (l : Label) (hret : t.returned = s.returned) (hfly : t.inFlight = s.inFlight) : Flow s t l
  | begins (op : WalRecord) (herr : s.checkpointError = false) (hret : t.returned = s.returned)
      (hfly : t.inFlight = s.inFlight+{op}) : Flow s t (.call op)
  | throws (l : Label) (op : WalRecord) (hret : t.returned = s.returned)
      (hfly : t.inFlight+{op} = s.inFlight) : Flow s t l
  | returns (l : Label) (c : Returned) (hret : t.returned = s.returned ++ [c])
      (hfly : t.inFlight+{c.op} = s.inFlight) : Flow s t l

/-- No call is lost or doubled. -/
theorem KVStore.Steps.flow (h : KVStore.Steps host hash s l t) (hlock : LockInv s.slots s.admin) :
    Flow s t l := by
  have hmove {i : Shard} {old : Slot} (slot : Slot) (hold : s.slots i = old) :
      ∑ j, (Function.update s.slots i slot j).ops+old.ops = ∑ j, (s.slots j).ops+slot.ops := by
    rw [← hold]
    exact sum_update_add Slot.ops s.slots i slot
  -- a lock that changes hands within one call, or between readers and the thread that locks all
  have hsame {i : Shard} {old slot : Slot} (hold : s.slots i = old) (hops : slot.ops = old.ops) :
      ∑ j, (Function.update s.slots i slot j).ops = ∑ j, (s.slots j).ops := by
    have hm := hmove slot hold
    rw [hops] at hm
    exact add_right_cancel hm
  have hadmin {call : AdminCall} (hcall : s.admin = some call) {i : Shard} (hi : call.holds i) :
      s.slots i = .admin := (hlock i).mpr ⟨call, hcall, hi⟩
  have hfree {i : Shard} {op : WalRecord} {pc : WritePc} (hold : s.slots i = .writer ⟨op,pc⟩) :
      ∑ j, (Function.update s.slots i (.readers []) j).ops+{op} = ∑ j, (s.slots j).ops := by
    have hm := hmove (.readers []) hold
    rwa [show (Slot.readers []).ops = 0 from rfl, add_zero] at hm
  cases h with
  | call op herr =>
    refine .begins op herr rfl ?_
    simp only [KVStore.inFlight, ← Multiset.coe_add, Multiset.coe_singleton]
    abel
  | lockShard op hcall hslot =>
    refine .keeps _ rfl ?_
    have hm := hmove (.writer ⟨op, .locked⟩) hslot
    have hcons : (↑s.calling : Multiset WalRecord) = {op}+↑(s.calling.erase op) := by
      rw [Multiset.singleton_add, Multiset.cons_coe]
      exact Multiset.coe_eq_coe.mpr (List.perm_cons_erase hcall)
    rw [show (Slot.readers []).ops = 0 from rfl, add_zero] at hm
    simp only [KVStore.inFlight, KVStore.setSlot, hm, hcons]
    rw [show (Slot.writer ⟨op, .locked⟩).ops = {op} from rfl]
    abel
  | prepare i op wal hslot | acknowledge i op id hslot | mutate i op id erased hslot
  | count i op id erased hslot | schedule i op id erased hslot =>
    refine .keeps _ rfl ?_
    simp only [KVStore.inFlight, KVStore.setSlot]
    exact congrArg _ (hsame hslot rfl)
  | rethrow i op id e hslot =>
    refine .throws _ op rfl ?_
    simp only [KVStore.inFlight, KVStore.setSlot]
    rw [add_assoc, hfree hslot]
  | ret i op pc id erased hslot =>
    refine .returns _ ⟨id, op, erased⟩ rfl ?_
    simp only [KVStore.inFlight, KVStore.setSlot]
    rw [add_assoc, hfree hslot]
  | lockShared key keys hslot | get key value keys hslot | lock kind n hn hcall hslot =>
    refine .keeps _ rfl ?_
    simp only [KVStore.inFlight, KVStore.setSlot]
    exact congrArg _ (hsame hslot rfl)
  | release kind data walOffset n hn hcall | unlock kind failed n hn hcall =>
    refine .keeps _ rfl ?_
    simp only [KVStore.inFlight, KVStore.setSlot]
    exact congrArg _ (hsame (hadmin hcall (i := ⟨n,hn⟩) (Nat.le_refl n)) rfl)
  | _ => exact .keeps _ rfl rfl

/-! ### After the failure -/

/-- The error stays. -/
theorem KVStore.Steps.error_stays (h : KVStore.Steps host hash s l t)
    (herr : s.checkpointError = true) : t.checkpointError = true := by
  cases h with
  | recordError => rfl
  | _ => exact herr

/-- The store `t`, any number of steps after `s`, in which a checkpoint had failed. -/
structure Latched (s t : KVStore) : Prop where
  error : t.checkpointError = true
  /-- What has returned since, and what is still in flight, was in flight at the failure. -/
  returned : ∃ new, t.returned = s.returned ++ new ∧
    (↑(new.map Returned.op) : Multiset WalRecord)+t.inFlight ≤ s.inFlight
  changed : ChangedBy s.inFlight.toList s.collectData t.collectData
  quiet : s.inFlight = 0 → t.collectData = s.collectData ∧ t.wal.history = s.wal.history

theorem Latched.refl (h : s.checkpointError = true) : Latched s s :=
  ⟨h, ⟨[], by simp, by simp⟩, .refl _ _, fun _ => ⟨rfl, rfl⟩⟩

theorem mem_inFlight {i : Shard} {call : WriteCall} (h : s.slots i = .writer call) :
    call.op ∈ s.inFlight := by
  apply Multiset.mem_add.mpr
  right
  rw [← Finset.add_sum_erase _ _ (Finset.mem_univ i), h]
  exact Multiset.mem_add.mpr (.inl (Multiset.mem_singleton_self _))

/-- The map changes only where a call holds its lock. -/
theorem Contained.changes {m : Store} (h : Contained hash m s)
    (hstep : KVStore.Steps host hash s l t) :
    t.collectData = s.collectData ∨
    ∃ op ∈ s.inFlight, t.collectData = applyOp op s.collectData := by
  cases hstep with
  | mutate i op id erased hslot =>
    right
    refine ⟨op, mem_inFlight hslot, ?_⟩
    obtain rfl := h.shards.own.home i op _ hslot
    exact collect_update h.shards.separated op
  | _ => exact .inl rfl

/-- A log without appends under way writes nothing. -/
theorem Contained.history_stays {m : Store} (h : Contained hash m s)
    (hstep : KVStore.Steps host hash s l t) (hidle : s.inFlight = 0) :
    t.wal.history = s.wal.history := by
  rcases (hstep.effect h.lock).wal_cases with hwal | ⟨w,hwal⟩
  · rw [hwal]
  · obtain ⟨new,hhist,hnew⟩ := WalThreads.step_history hwal
    have hnone : new = [] := by
      apply List.eq_nil_iff_forall_not_mem.mpr
      intro r hr
      have hmem := mem_inFlight (h.shards.own.owner r (hnew r hr))
      rw [hidle] at hmem
      exact Multiset.notMem_zero _ hmem
    rw [hhist, hnone, List.append_nil]

theorem Latched.step {m : Store} (h : Latched s t) (hc : Contained hash m t)
    (hstep : KVStore.Steps host hash t l u) : Latched s u := by
  obtain ⟨new,hret,hle⟩ := h.returned
  have hsub : t.inFlight ≤ s.inFlight := (Multiset.le_add_left _ _).trans hle
  refine ⟨hstep.error_stays h.error, ?_, ?_, ?_⟩
  · cases hstep.flow hc.lock with
    | keeps _ hr hf => exact ⟨new, hr.trans hret, hf ▸ hle⟩
    | begins op herr =>
      -- the check has thrown
      rw [h.error] at herr
      cases herr
    | throws _ op hr hf =>
      refine ⟨new, hr.trans hret, le_trans ?_ hle⟩
      rw [← hf]
      exact add_le_add_right (Multiset.le_add_right _ _) _
    | returns _ c hr hf =>
      refine ⟨new ++ [c], by rw [hr, hret, List.append_assoc], ?_⟩
      rw [← hf] at hle
      calc (↑((new ++ [c]).map Returned.op) : Multiset WalRecord)+u.inFlight
          = ↑(new.map Returned.op)+(u.inFlight+{c.op}) := by
            rw [List.map_append, ← Multiset.coe_add, List.map_singleton, Multiset.coe_singleton]
            abel
        _ ≤ s.inFlight := hle
  · rcases hc.changes hstep with hsame | ⟨op,hop,happ⟩
    · rw [hsame]
      exact h.changed
    · apply h.changed.trans
      rw [happ]
      have hmem : ∀ x ∈ [op], x ∈ s.inFlight.toList := by
        intro x hx
        rw [List.mem_singleton.mp hx, Multiset.mem_toList]
        exact Multiset.mem_of_le hsub hop
      exact changedBy_applyOps hmem t.collectData
  · intro hidle
    have hnow : t.inFlight = 0 := Multiset.le_zero.mp (hidle ▸ hsub)
    obtain ⟨hdata,hhist⟩ := h.quiet hidle
    refine ⟨?_, (hc.history_stays hstep hnow).trans hhist⟩
    rcases hc.changes hstep with hsame | ⟨op,hop,-⟩
    · exact hsame.trans hdata
    · rw [hnow] at hop
      exact absurd hop (Multiset.notMem_zero op)

/-- A failed background checkpoint ends all writing. In any run from any files, under any policy,
with `SaveSnapshot`, `CompactPersistence` and `ClearPersistence` at any time: once
`checkpoint_error_` is set it stays set, the only calls that still return are some of those that
were past their check by then, each key keeps its value or takes that of such a call, and if there
were none, neither the map changes nor does the log ever get another record. -/
theorem failed_checkpoint_ends_writing {disk : Disk} {policy : DurabilityPolicy} {maxBatch : ℕ}
    {s₀ : KVStore} {before after : List Label}
    (hopen : openStore host hash disk policy maxBatch = .ok s₀)
    (hbefore : run (KVStore.step host hash) s₀ before = some s) (herr : s.checkpointError = true)
    (hafter : run (KVStore.step host hash) s after = some t) :
    t.checkpointError = true ∧
    (∃ new, t.returned = s.returned ++ new ∧
      (↑(new.map Returned.op) : Multiset WalRecord) ≤ s.inFlight) ∧
    ChangedBy s.inFlight.toList s.collectData t.collectData ∧
    (s.inFlight = 0 → t.collectData = s.collectData ∧ t.wal.history = s.wal.history) := by
  obtain ⟨wal,m,hwal,rfl⟩ := openStore_eq hopen
  have hs : Contained hash m s :=
    (Contained.start (openWal_fields hwal).2.2.2 m disk.snapshot disk.temp).run hbefore
  have hinv : Latched s t ∧ Contained hash m t := by
    apply run_invariant (P := fun t => Latched s t ∧ Contained hash m t) (A := fun _ => True)
      ?_ (fun _ _ => trivial) hafter ⟨.refl herr, hs⟩
    intro t l u _ ht hstep
    exact ⟨ht.1.step ht.2 (KVStore.steps_of_step hstep), ht.2.step hstep⟩
  obtain ⟨hlatched,-⟩ := hinv
  obtain ⟨new,hret,hle⟩ := hlatched.returned
  exact ⟨hlatched.error, ⟨new, hret, (Multiset.le_add_right _ _).trans hle⟩, hlatched.changed,
    hlatched.quiet⟩

/-! ### A full disk at the first checkpoint -/

/-- From the due write to the lock of the first shard. -/
def dueCheckpoint : List Label := [.caller 0, .caller 0, .worker, .worker, .admin]

/-- The copy is taken and the temporary file cannot be written. -/
def failingSave : List Label := [.admin, .writeTempFault [] 0, .admin, .worker]

def failingCheckpoint : List Label :=
  dueCheckpoint ++ (List.replicate kShardCount .admin ++ (.admin ::
    (List.replicate kShardCount .admin ++ failingSave)))

theorem run_failingCheckpoint {n id : ℕ} (hwal : WalIdle n s.wal)
    (hslots : s.slots = blankSlots (.counted id false true)) (hadmin : s.admin = none)
    (hworker : s.worker = .idle) (hcalling : s.calling = []) :
    ∃ t, run (KVStore.step .little oneShard) s failingCheckpoint = some t ∧
      t.checkpointError = true ∧ t.worker = .finishing ∧ t.inFlight = 0 := by
  let s₁ : KVStore := { s with
    slots := fun _ => .readers []
    checkpointRequested := false
    checkpointActive := true
    worker := .running
    admin := some ⟨.checkpoint s.checkpointEpoch, .locking 0⟩
    returned := s.returned ++ [⟨id, blankSet, false⟩] }
  have h₁ : run (KVStore.step .little oneShard) s dueCheckpoint = some s₁ := by
    simp [dueCheckpoint, run_cons, KVStore.step, KVStore.adminStep, KVStore.callerStep,
      KVStore.workerStep, KVStore.setSlot, hslots, hadmin, hworker, s₁]
  let s₂ : KVStore := { s₁ with
    slots := fun _ => .admin
    writesSinceSnapshot := 0
    admin := some ⟨.checkpoint s.checkpointEpoch,
      .releasing s.collectData s.wal.wal.file.length 0⟩ }
  have h₂ : KVStore.step .little oneShard { s₁ with
      slots := fun _ => .admin
      admin := some ⟨.checkpoint s.checkpointEpoch, .locking kShardCount⟩ } .admin = some s₂ := by
    simp [KVStore.step, KVStore.adminStep, KVStore.captureStep, s₁, WalThreads.ioFree, hwal.job,
      hwal.truncating, WriteAheadLog.currentOffset, hwal.outputOpen, KVStore.collectData, s₂]
  have hbytes : ∃ bytes, saveBytes .little [] s.wal.wal.file.length = .ok bytes := ⟨_, rfl⟩
  obtain ⟨bytes,hbytes⟩ := hbytes
  refine ⟨{ s₂ with
    slots := fun _ => .readers []
    temp := some []
    admin := none
    checkpointError := true
    worker := .finishing }, ?_, rfl, rfl, ?_⟩
  · rw [failingCheckpoint, run_append, h₁, Option.bind_some, run_append, run_lock (s := s₁) rfl rfl,
      Option.bind_some, run_cons, h₂, Option.bind_some, run_append, run_release (s := s₂) rfl rfl,
      Option.bind_some]
    simp [failingSave, run_cons, KVStore.step, KVStore.adminStep, KVStore.workerStep, KVStore.throw,
      KVStore.leave, hbytes, s₂, s₁]
  · simp [KVStore.inFlight, Slot.ops, s₂, s₁, hcalling]

/-- The thousandth write requests a checkpoint, which fails; then another write is tried. -/
theorem writing_ends_with_failed_checkpoint :
    ∃ s₀ before s t, openStore .little oneShard ⟨[], none, none⟩ .buffered 1 = .ok s₀ ∧
      run (KVStore.step .little oneShard) s₀ before = some s ∧ s.checkpointError = true ∧
      s.inFlight = 0 ∧ run (KVStore.step .little oneShard) s [.worker, .call blankSet] = some t ∧
      t.collectData = s.collectData ∧ t.wal.history = s.wal.history := by
  obtain ⟨ls,s₁,-,hreach,hidle⟩ := idle_start.reach (kSnapshotInterval-1) (by decide)
  obtain ⟨wal,hwal,hdue⟩ := hidle.due
  obtain ⟨s,hs,herr,hworker,hfly⟩ := run_failingCheckpoint (s := { s₁ with
    wal := wal
    slots := blankSlots (.counted s₁.wal.nextId false true)
    shards := blankShards
    writesSinceSnapshot := kSnapshotInterval }) hwal rfl hidle.admin hidle.worker hidle.calling
  have hbefore : run (KVStore.step .little oneShard) (KVStore.start oneShard blankWal ∅ none none)
      (ls ++ (blankWrite s₁.wal.nextId ++ failingCheckpoint)) = some s := by
    rw [run_append, hreach, Option.bind_some, run_append, hdue, Option.bind_some, hs]
  have hafter : ∃ t, run (KVStore.step .little oneShard) s [.worker, .call blankSet] = some t := by
    simp [run_cons, KVStore.step, KVStore.workerStep, hworker, herr]
  obtain ⟨t,hafter⟩ := hafter
  have hends := failed_checkpoint_ends_writing openStore_blank hbefore herr hafter
  exact ⟨_, _, s, t, openStore_blank, hbefore, herr, hfly, hafter, hends.2.2.2 hfly⟩

end ConcurrentKV
