import ConcurrentKV.PersistenceReset
import ConcurrentKV.RestartOffsets

/-! A `ClearPersistence` that does not get to its end. It empties the log before it removes the
snapshot, so the files it leaves in between recover to the snapshot's map alone. -/
namespace ConcurrentKV
open ByteCodec OpLog Sharding Transition

/-! ### Replay does not look at the map -/

variable {host : ByteOrder} {hash : Bytes → ℕ} {b : Bytes} {W : ℕ} {m D : Store}

/-- A startup on these files yields `m`, under every policy. -/
def Recovers (host : ByteOrder) (hash : Bytes → ℕ) (disk : Disk) (m : Store) : Prop :=
  ∀ policy maxBatch, 1 ≤ maxBatch ∧ maxBatch ≤ 4096 →
    ∃ u, openStore host hash disk policy maxBatch = .ok u ∧ u.collectData = m

variable {disk : Disk} {m' : Store}

theorem recovers_iff : Recovers host hash disk m ↔ ∀ policy maxBatch,
    1 ≤ maxBatch ∧ maxBatch ≤ 4096 → ∃ wal, startup host disk policy maxBatch = .ok (wal,m) := by
  refine forall_congr' fun policy => forall_congr' fun maxBatch => imp_congr_right fun _ => ?_
  constructor
  · rintro ⟨u,hu,rfl⟩
    unfold openStore at hu
    split at hu
    · cases hu
    rename_i wal data hstart
    obtain rfl := Except.ok.inj hu
    rw [KVStore.collectData_start]
    exact ⟨wal, hstart⟩
  · rintro ⟨wal,hstart⟩
    refine ⟨KVStore.start hash wal m disk.snapshot disk.temp, ?_, KVStore.collectData_start ..⟩
    simp only [openStore, hstart]

theorem Recovers.eq (h : Recovers host hash disk m) (h' : Recovers host hash disk m') : m = m' := by
  obtain ⟨u,hu,rfl⟩ := h .buffered 1 (by decide)
  obtain ⟨u',hu',rfl⟩ := h' .buffered 1 (by decide)
  obtain rfl := Except.ok.inj (hu.symm.trans hu')
  rfl

/-- No startup reads the temporary file. -/
theorem Recovers.temp {snap temp : Option Bytes} (h : Recovers host hash ⟨b, snap, temp⟩ m)
    (temp' : Option Bytes) : Recovers host hash ⟨b, snap, temp'⟩ m := by
  rw [recovers_iff] at h ⊢
  exact h

/-- `ClearPersistence` has all shards locked and has not begun to release them. -/
def AdminPc.clearing : AdminPc → Bool
  | .rotating | .truncated | .removingSnapshot | .removingTemp | .syncingRemoval | .resetting
  | .unlocking _ 0 => true
  | _ => false

/-- No other call begins on the store, and nobody cuts the log behind its back. -/
def Label.insideCall : Label → Bool
  | .enter _ => false
  | .wal l => !l.cutsFile
  | _ => true

/-- The call has come to `pc`; it found the log `b` of generation `g` and the snapshot
`snap`. -/
structure Clearing (b : Bytes) (snap : Option Bytes) (g : ℕ) (s : KVStore) (pc : AdminPc) :
    Prop where
  admin : s.admin = some ⟨.clearPersistence, pc⟩
  clearing : pc.clearing = true
  files : s.wal.wal.file = b ∧ s.snapshot = snap ∨
    s.wal.wal.file = [] ∧ (s.snapshot = snap ∨ s.snapshot = none)
  cleared : pc.walCleared = true → s.wal.wal.file = []
  exhausted : g = kMaxUint64 → s.wal.wal.generation = g ∧ s.wal.wal.file = b ∧ s.snapshot = snap ∧
    pc.walCleared = false

/-- The call has begun to release its locks or is over. -/
def KVStore.ClearLeft (s : KVStore) : Prop :=
  ∀ pc, s.admin = some ⟨.clearPersistence, pc⟩ → ∃ failed n, pc = .unlocking failed (n+1)

variable {s t : KVStore} {l : Label} {snap : Option Bytes} {g : ℕ} {pc : AdminPc}

theorem AdminPc.holds_of_clearing (h : pc.clearing = true) (i : Shard) :
    (⟨.clearPersistence, pc⟩ : AdminCall).holds i := by
  unfold clearing at h
  split at h
  all_goals first
    | trivial
    | exact Nat.zero_le _

theorem KVStore.ClearLeft.step (h : s.ClearLeft) (hl : l.insideCall = true)
    (hsteps : KVStore.Steps host hash s l t) : t.ClearLeft := by
  intro pc ht
  rcases hsteps.admin_cases with hsame | hnone | ⟨kind,hentered,henter⟩ |
    ⟨kind,pc₀,pc',hs,ht',hnext⟩
  · exact h pc (hsame ▸ ht)
  · rw [hnone] at ht
    cases ht
  · rw [hentered] at ht
    cases ht
    rcases henter with rfl | ⟨e,hk⟩
    · cases hl
    · cases hk
  · rw [ht'] at ht
    cases ht
    obtain ⟨failed,n,rfl⟩ := h pc₀ hs
    exact ⟨failed, n+1, hnext failed (n+1) rfl⟩

namespace Clearing

/-- The call goes on without touching the files. -/
theorem move {pc' : AdminPc} (h : Clearing b snap g s pc) (hwal : t.wal.wal = s.wal.wal)
    (hsnap : t.snapshot = s.snapshot) (hadmin : t.admin = some ⟨.clearPersistence, pc'⟩)
    (hclearing : pc'.clearing = true) (hcleared : pc'.walCleared = true → pc.walCleared = true) :
    Clearing b snap g t pc' := by
  refine ⟨hadmin, hclearing, ?_, fun hc => ?_, fun hg => ?_⟩
  · rw [hwal, hsnap]
    exact h.files
  · rw [hwal]
    exact h.cleared (hcleared hc)
  · obtain ⟨hgen,hfile,hs,hpc⟩ := h.exhausted hg
    rw [hwal, hsnap]
    refine ⟨hgen, hfile, hs, ?_⟩
    rw [← Bool.not_eq_true] at hpc ⊢
    exact fun hc => hpc (hcleared hc)

/-- The threads of the log go on. -/
theorem walStep (h : Clearing b snap g s pc) (hquiet : s.wal.Quiet) {w : WalLabel}
    {wal : WalThreads}
    (hw : s.wal.step host w = some wal) (hl : ∀ op, w ≠ .prepare op) (hcut : w.cutsFile = false) :
    Clearing b snap g { s with wal := wal } pc := by
  obtain ⟨hfile,hgen⟩ := (hquiet.step hl hw).2.2 hcut
  refine ⟨h.admin, h.clearing, ?_, fun hc => hfile.trans (h.cleared hc), fun hg => ?_⟩
  · rw [hfile]
    exact h.files
  · rw [hfile, hgen]
    exact h.exhausted hg

theorem step (h : Clearing b snap g s pc) (hrun : Running hash s) (hl : l.insideCall = true)
    (hsteps : KVStore.Steps host hash s l t) :
    (∃ pc', Clearing b snap g t pc') ∨ t.ClearLeft := by
  have hall (i : Shard) : s.slots i = .admin :=
    (hrun.lock i).mpr ⟨_, h.admin, AdminPc.holds_of_clearing h.clearing i⟩
  have hquiet := hrun.quiet hall
  have heq {kind : AdminKind} {pc' : AdminPc} (hadmin : s.admin = some ⟨kind, pc'⟩) :
      kind = .clearPersistence ∧ pc' = pc := by
    have := h.admin.symm.trans hadmin
    cases this
    exact ⟨rfl, rfl⟩
  have hno {kind : AdminKind} {pc' : AdminPc} (hadmin : s.admin = some ⟨kind, pc'⟩)
      (hpc : pc'.clearing = false) : False := by
    obtain ⟨-,rfl⟩ := heq hadmin
    rw [h.clearing] at hpc
    cases hpc
  cases hsteps with
  | callThrows => exact .inl ⟨pc, h⟩
  | enter => cases hl
  | lockShard op hcall hslot =>
    rw [hall] at hslot
    cases hslot
  | lockShared key keys hslot =>
    rw [hall] at hslot
    cases hslot
  | get key value keys hslot =>
    rw [hall] at hslot
    cases hslot
  | prepare i op wal hslot =>
    rw [hall] at hslot
    cases hslot
  | acknowledge i op id hslot | rethrow i op id _ hslot | mutate i op id _ hslot
  | count i op id _ hslot | schedule i op id _ hslot =>
    rw [hall] at hslot
    cases hslot
  | ret i op pc id erased hslot =>
    rw [hall] at hslot
    cases hslot
  | wal w wal hprep hw =>
    exact .inl ⟨pc, h.walStep hquiet hw hprep (by simpa [Label.insideCall] using hl)⟩
  | cancelled epoch hadmin => cases (heq hadmin).1
  | checked epoch hadmin => cases (heq hadmin).1
  | enterCheckpoint epoch hworker hadmin =>
    rw [h.admin] at hadmin
    cases hadmin
  | cancel kind hkind hadmin => exact (hno hadmin rfl).elim
  | lock kind n hn hadmin | captureFails kind n hn hadmin => exact (hno hadmin rfl).elim
  | captureCheckpoint epoch n offset hn hadmin => exact (hno hadmin rfl).elim
  | captureSave n offset hn hadmin => exact (hno hadmin rfl).elim
  | captureCompact n hn hadmin | captureClear n hn hadmin => exact (hno hadmin rfl).elim
  | release kind data walOffset n hn hadmin | released kind data walOffset n hn hadmin =>
    exact (hno hadmin rfl).elim
  | writeTemp kind data walOffset entries bytes hadmin => exact (hno hadmin rfl).elim
  | writeTempFails l kind data walOffset temp hadmin => exact (hno hadmin rfl).elim
  | syncTemp kind data walOffset hadmin | rename kind data walOffset hadmin
  | syncDirectory kind data walOffset hadmin | verified kind data walOffset hadmin
  | verifyFails kind data walOffset hadmin => exact (hno hadmin rfl).elim
  | rotate kind wal hadmin hw =>
    obtain ⟨rfl,rfl⟩ := heq hadmin
    cases WalThreads.steps_of_step hw with
    | clear hio hgen =>
      refine .inl ⟨.truncated, rfl, rfl, ?_, fun _ => rfl, fun hg => ?_⟩
      · rcases h.files with ⟨-,hsnap⟩ | ⟨-,hsnap⟩
        · exact .inr ⟨rfl, .inl hsnap⟩
        · exact .inr ⟨rfl, hsnap⟩
      · have := (h.exhausted hg).1
        omega
  | rotateFails kind hadmin =>
    obtain ⟨rfl,rfl⟩ := heq hadmin
    exact .inl ⟨.unlocking true 0, h.move rfl rfl rfl rfl nofun⟩
  | syncTruncation kind wal hadmin hw =>
    obtain ⟨rfl,rfl⟩ := heq hadmin
    refine .inl ⟨.removingSnapshot, ?_⟩
    rcases hw with hw | ⟨rfl,-⟩
    · exact (h.walStep hquiet hw (by simp) rfl).move rfl rfl rfl rfl fun _ => rfl
    · exact h.move rfl rfl rfl rfl fun _ => rfl
  | removeSnapshot kind hadmin =>
    obtain ⟨rfl,rfl⟩ := heq hadmin
    refine .inl ⟨.removingTemp, rfl, rfl, .inr ⟨h.cleared rfl, .inr rfl⟩, fun _ => h.cleared rfl,
      fun hg => ?_⟩
    cases (h.exhausted hg).2.2.2
  | removeTemp kind hadmin | syncRemoval kind hadmin | reset kind hadmin =>
    obtain ⟨rfl,rfl⟩ := heq hadmin
    exact .inl ⟨_, h.move rfl rfl rfl rfl fun _ => rfl⟩
  | unlock kind failed n hn hadmin =>
    obtain ⟨rfl,rfl⟩ := heq hadmin
    refine .inr ?_
    rintro pc ⟨⟩
    exact ⟨failed, n, rfl⟩
  | leave =>
    refine .inr ?_
    rintro pc ⟨⟩
  | fault call hadmin hmay =>
    obtain ⟨kind,pc'⟩ := call
    obtain ⟨rfl,rfl⟩ := heq hadmin
    refine .inl ⟨.unlocking true 0, h.move rfl rfl ?_ rfl nofun⟩
    rfl
  | _ => exact .inl ⟨pc, { h with }⟩

/-- As long as the call holds its locks it is the same call. -/
theorem run (h : Clearing b snap g s pc) (hrun : Running hash s) {ls : List Label}
    (hls : ∀ l ∈ ls, l.insideCall = true) (ht : run (KVStore.step host hash) s ls = some t)
    {pc' : AdminPc} (hadmin : t.admin = some ⟨.clearPersistence, pc'⟩)
    (hpc : pc'.clearing = true) : Clearing b snap g t pc' ∧ Running hash t := by
  have hinv : Running hash t ∧ ((∃ pc, Clearing b snap g t pc) ∨ t.ClearLeft) := by
    refine run_invariant (P := fun s => Running hash s ∧ ((∃ pc, Clearing b snap g s pc) ∨
      s.ClearLeft)) ?_ hls ht ⟨hrun, .inl ⟨pc, h⟩⟩
    rintro s l t hl ⟨hrun,hs⟩ hstep
    have hsteps := KVStore.steps_of_step hstep
    refine ⟨hrun.step hsteps, ?_⟩
    rcases hs with ⟨pc,hs⟩ | hs
    · exact hs.step hrun hl hsteps
    · exact .inr (hs.step hl hsteps)
  obtain ⟨hrun,⟨pc,hc⟩ | hleft⟩ := hinv
  · obtain rfl : pc = pc' := by
      have := hc.admin.symm.trans hadmin
      cases this
      rfl
    exact ⟨hc, hrun⟩
  · obtain ⟨failed,n,rfl⟩ := hleft pc' hadmin
    cases hpc

end Clearing

end ConcurrentKV
