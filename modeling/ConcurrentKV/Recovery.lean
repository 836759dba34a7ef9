import ConcurrentKV.Snapshot
import ConcurrentKV.WalResume

/-! Startup as in `main`: open the log, `LoadSnapshot`, then `ReplayFromWal` from the
snapshot's offset. -/
namespace ConcurrentKV
open ByteCodec OpLog

/-- The files a session works on. Only the first two are read at startup. -/
structure Disk where
  wal : Bytes
  snapshot : Option Bytes
  temp : Option Bytes
  deriving DecidableEq, Repr

inductive StartupError where
  | wal (e : WalError)
  | snapshot (e : SnapshotError)
  deriving DecidableEq, Repr

/-- The log object and the map a session starts with. `LoadSnapshot` loads into an empty
map, so the store is empty when there is no snapshot. -/
def startup (host : ByteOrder) (disk : Disk) (policy : DurabilityPolicy) (maxBatch : ℕ) :
    Except StartupError (WriteAheadLog × Store) :=
  match openWal host disk.wal policy maxBatch with
  | .error e => .error (.wal e)
  | .ok wal => match loadSnapshot host disk.snapshot ∅ with
    | .error e => .error (.snapshot e)
    | .ok (result,data) => match replayFromDetailed host wal.file result.walOffset data with
      | .error e => .error (.wal e)
      | .ok (_,data) => .ok (wal, data)

/-- Replaying the file from `W` over `D` gives `m`. -/
def ReplaysTo (host : ByteOrder) (b : Bytes) (ops : List WalRecord) (W : ℕ) (D m : Store) : Prop :=
  ∃ j, Resumes host b ops W j ∧ applyOps (ops.drop j) D = m

/-- A snapshot file and a log file together hold `m`. -/
def Covers (host : ByteOrder) (snap : Option Bytes) (b : Bytes) (ops : List WalRecord)
    (m : Store) : Prop :=
  ∃ result D, loadSnapshot host snap ∅ = .ok (result, D) ∧ ReplaysTo host b ops result.walOffset D m

variable {host : ByteOrder} {b b' : Bytes} {ops new : List WalRecord} {W : ℕ} {D m : Store}
  {snap : Option Bytes}

/-- Replay reaches the new operations after all it replayed before. -/
theorem ReplaysTo.grow (h : ReplaysTo host b ops W D m)
    (hres : ∀ W j, Resumes host b ops W j → Resumes host b' (ops ++ new) W j) :
    ReplaysTo host b' (ops ++ new) W D (applyOps new m) := by
  obtain ⟨j,hj,rfl⟩ := h
  refine ⟨j, hres W j hj, ?_⟩
  rw [List.drop_append_of_le_length hj.le.2, applyOps_append]

theorem Covers.grow (h : Covers host snap b ops m)
    (hres : ∀ W j, Resumes host b ops W j → Resumes host b' (ops ++ new) W j) :
    Covers host snap b' (ops ++ new) (applyOps new m) := by
  obtain ⟨result,D,hload,hto⟩ := h
  exact ⟨result, D, hload, hto.grow hres⟩

theorem ReplaysTo.le (h : ReplaysTo host b ops W D m) : W ≤ b.length := by
  obtain ⟨j,hj,-⟩ := h
  exact hj.le.1

/-- A snapshot of the whole log. -/
theorem replaysTo_eof (host : ByteOrder) (b : Bytes) (ops : List WalRecord) (m : Store) :
    ReplaysTo host b ops b.length m m :=
  ⟨ops.length, .eof, by rw [List.drop_length, applyOps_nil]⟩

/-- A snapshot of a map that the whole log leaves as it is. -/
theorem replaysTo_zero (h : Fixed ops m) : ReplaysTo host b ops 0 m m := ⟨0, .start, h⟩

/-- No snapshot, and a log from its beginning. -/
theorem covers_none (host : ByteOrder) (b : Bytes) (ops : List WalRecord) :
    Covers host none b ops (applyOps ops ∅) := ⟨{}, ∅, rfl, 0, .start, rfl⟩

/-- A saved map covers what its contents and offset replay to. -/
theorem covers_of_saved {entries : List (Bytes × Bytes)} {bytes : Bytes}
    (hsave : saveBytes host entries W = .ok bytes) (henum : Enumerates entries D)
    (hfit : FieldsFit D) (hroom : b.length ≤ kMaxStreamoff) (hto : ReplaysTo host b ops W D m) :
    Covers host (some bytes) b ops m := by
  obtain ⟨rfl,hn⟩ := saveBytes_eq hsave
  have hW : W < 2^64 := by
    have := hto.le
    simp only [kMaxStreamoff] at hroom
    omega
  exact ⟨_, D, loadSnapshot_snapshotBytes henum hfit hn hW ∅, hto⟩

/-- A startup by what its log replays to. -/
theorem startup_of_replay (disk : Disk) {result : SnapshotLoadResult} {r : WalReplayResult}
    (hload : loadSnapshot host disk.snapshot ∅ = .ok (result,D))
    (hshape : FileShape host disk.wal ops) (hn : ops.length < kMaxUint64)
    (hr : replayFromDetailed host disk.wal result.walOffset D = .ok (r,m))
    (policy : DurabilityPolicy) {maxBatch : ℕ} (hbatch : 1 ≤ maxBatch ∧ maxBatch ≤ 4096) :
    ∃ wal, startup host disk policy maxBatch = .ok (wal,m) ∧ wal.file = disk.wal ∧
      wal.policy = policy ∧ wal.maxBatch = maxBatch ∧ WalInv host wal ops := by
  obtain ⟨wal,hopen,hfile,hpol,hmax,hinv⟩ := openWal_inv hshape policy hbatch (fun _ => hn)
  rw [← hfile] at hr
  exact ⟨wal, by simp only [startup, hopen, hload, hr], hfile, hpol, hmax, hinv⟩

/-- The next startup succeeds and rebuilds what the files hold. -/
theorem startup_of_covers {disk : Disk} (hshape : FileShape host disk.wal ops)
    (hroom : disk.wal.length ≤ kMaxStreamoff) (hcov : Covers host disk.snapshot disk.wal ops m)
    (policy : DurabilityPolicy) {maxBatch : ℕ} (hbatch : 1 ≤ maxBatch ∧ maxBatch ≤ 4096) :
    ∃ wal, startup host disk policy maxBatch = .ok (wal, m) ∧ wal.file = disk.wal ∧
      wal.policy = policy ∧ wal.maxBatch = maxBatch ∧ WalInv host wal ops := by
  have hn : ops.length < kMaxUint64 := by
    have := hshape.length_le
    simp only [kMaxStreamoff, kMaxUint64] at hroom ⊢
    omega
  obtain ⟨result,D,hload,j,hj,rfl⟩ := hcov
  obtain ⟨r,hr⟩ := hshape.replayFrom hj hroom D
  exact startup_of_replay disk hload hshape hn hr policy hbatch

/-! ### Sizes -/

theorem fieldsFit_empty : FieldsFit ∅ := by
  intro k v h
  simp at h

/-- Whatever the log accepts fits into a snapshot. -/
theorem FieldsFit.applyOps {portable : Bool} (h : FieldsFit m)
    (hok : ∀ op ∈ ops, RecordOk portable op) : FieldsFit (OpLog.applyOps ops m) := by
  intro k v hv
  rw [lookup_applyOps] at hv
  cases he : lastEffect k ops with
  | none =>
    rw [he] at hv
    exact h k v hv
  | some e =>
    rw [he, Option.getD_some] at hv
    subst hv
    obtain ⟨op,hop,hk,hv⟩ := lastEffect_mem he
    have hlen := (hok op hop).2
    cases op with
    | delete k' => cases hv
    | set k' v' =>
      obtain rfl : k' = k := hk
      obtain rfl : v' = v := Option.some.inj hv
      simp only [recordLength, payloadLength, kMaxRecordLength, kMaxSnapshotFieldLength] at hlen ⊢
      omega

end ConcurrentKV
