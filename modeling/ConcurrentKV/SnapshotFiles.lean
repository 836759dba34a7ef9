import ConcurrentKV.KVLocks

/-! What the snapshot's path holds while checkpoints, saves and compactions come and go:
always a map that together with the log recovers to a map in `P`. The one exception is the
compaction that has published its copy at offset 0 and has not truncated the log. -/
namespace ConcurrentKV
open ByteCodec OpLog Sharding Transition

/-- The content is a saved copy of `D`, with offset `W`. -/
def Saved (host : ByteOrder) (content : Option Bytes) (D : Store) (W : ℕ) : Prop :=
  ∃ entries bytes, content = some bytes ∧ Enumerates entries D ∧
    saveBytes host entries W = .ok bytes

/-- The content and the log recover to a map in `P`. -/
def Held (host : ByteOrder) (P : Store → Prop) (b : Bytes) (ops : List WalRecord)
    (content : Option Bytes) : Prop := ∃ m, P m ∧ Covers host content b ops m

/-- The call has taken its copy and is going to publish it, or has published it, in order to
truncate the log. -/
def AdminCall.compacting (call : AdminCall) : Bool :=
  match call.kind, call.pc with
  | .compactPersistence, .saving _ _ _ | .compactPersistence, .rotating => true
  | _, _ => false

/-- A copy at offset 0 is published next to a log that is not truncated. -/
def AdminCall.exposed (call : AdminCall) : Bool :=
  match call.kind, call.pc with
  | .compactPersistence, .saving .renamed _ _ => true
  | .compactPersistence, .saving .directorySynced _ _ => true
  | .compactPersistence, .rotating => true
  | _, _ => false

/-- What the copy is good for: a compaction replaces the log by it, the others publish it
with the offset up to which it covers the log. -/
def Copied (host : ByteOrder) (P : Store → Prop) (b : Bytes) (ops : List WalRecord)
    (kind : AdminKind) (D : Store) (W : ℕ) : Prop :=
  FieldsFit D ∧
    ((kind = .compactPersistence ∧ W = 0 ∧ P D) ∨
      (kind ≠ .compactPersistence ∧ ∃ m, P m ∧ ReplaysTo host b ops W D m))

/-- The files at each stage of `SaveVerified`. -/
def StageInv (host : ByteOrder) (P : Store → Prop) (b : Bytes) (ops : List WalRecord)
    (snapshot temp : Option Bytes) (unsynced : List (Option Bytes)) (D : Store) (W : ℕ) :
    SaveStage → Prop
  | .begin => Held host P b ops snapshot
  | .tempWritten | .tempSynced => Held host P b ops snapshot ∧ Saved host temp D W
  | .renamed => Saved host snapshot D W
  | .directorySynced => Saved host snapshot D W ∧ unsynced = []

/-- The files at each point of the call that holds `snapshot_mutex_`. -/
def PcInv (host : ByteOrder) (P : Store → Prop) (b : Bytes) (ops : List WalRecord)
    (snapshot temp : Option Bytes) (unsynced : List (Option Bytes)) (kind : AdminKind) :
    AdminPc → Prop
  | .releasing D W _ => Held host P b ops snapshot ∧ Copied host P b ops kind D W
  | .saving stage D W => Copied host P b ops kind D W ∧
      StageInv host P b ops snapshot temp unsynced D W stage
  -- the published copy takes the log's place
  | .rotating => unsynced = [] ∧ ∃ D, P D ∧ FieldsFit D ∧ Saved host snapshot D 0
  | _ => Held host P b ops snapshot

/-- The snapshot files, in runs without `ClearPersistence`. -/
structure SnapInv (host : ByteOrder) (P : Store → Prop) (b : Bytes) (ops : List WalRecord)
    (admin : Option AdminCall) (snapshot temp : Option Bytes) (unsynced : List (Option Bytes)) :
    Prop where
  older : ∀ c ∈ unsynced, Held host P b ops c
  idle : admin = none → Held host P b ops snapshot
  busy : ∀ kind pc, admin = some ⟨kind,pc⟩ → kind ≠ .clearPersistence ∧
    PcInv host P b ops snapshot temp unsynced kind pc

variable {host : ByteOrder} {hash : Bytes → ℕ} {P P' : Store → Prop} {b b' : Bytes}
  {ops new : List WalRecord} {content snapshot temp : Option Bytes} {D : Store} {W : ℕ}
  {unsynced : List (Option Bytes)} {admin : Option AdminCall} {kind : AdminKind} {s t : KVStore}

/-- A compaction keeps all shards locked from its copy to the truncation. -/
theorem AdminCall.holds_of_compacting {call : AdminCall} (h : call.compacting = true) (i : Shard) :
    call.holds i := by
  obtain ⟨kind,pc⟩ := call
  unfold compacting at h
  split at h
  · rename_i hkind hpc
    obtain rfl : kind = .compactPersistence := hkind
    obtain rfl := (show pc = _ from hpc)
    intro epoch
    simp
  · rename_i hkind hpc
    obtain rfl := (show pc = _ from hpc)
    exact trivial
  · cases h

/-! ### Contents -/

theorem Held.grow (h : Held host P b ops content) (hP : ∀ m, P m → P' (applyOps new m))
    (hres : ∀ W j, Resumes host b ops W j → Resumes host b' (ops ++ new) W j) :
    Held host P' b' (ops ++ new) content := by
  obtain ⟨m,hm,hcov⟩ := h
  exact ⟨_, hP m hm, hcov.grow hres⟩

theorem Held.mono (h : Held host P b ops content) (hP : ∀ m, P m → P' m) :
    Held host P' b ops content := by
  obtain ⟨m,hm,hcov⟩ := h
  exact ⟨m, hP m hm, hcov⟩

theorem Saved.held (h : Saved host content D W) (hfit : FieldsFit D)
    (hroom : b.length ≤ kMaxStreamoff) {m : Store} (hm : P m) (hto : ReplaysTo host b ops W D m) :
    Held host P b ops content := by
  obtain ⟨entries,bytes,rfl,henum,hsave⟩ := h
  exact ⟨m, hm, covers_of_saved hsave henum hfit hroom hto⟩

/-- A published copy holds, except for a compaction over a log that would change it. -/
theorem Copied.held (h : Copied host P b ops kind D W) (hsaved : Saved host content D W)
    (hroom : b.length ≤ kMaxStreamoff)
    (hfix : kind = .compactPersistence → P D → Saved host content D 0 → Fixed ops D) :
    Held host P b ops content := by
  obtain ⟨hfit,⟨hkind,rfl,hD⟩ | ⟨-,m,hm,hto⟩⟩ := h
  · exact hsaved.held hfit hroom hD (replaysTo_zero (hfix hkind hD hsaved))
  · exact hsaved.held hfit hroom hm hto

theorem Copied.grow (h : Copied host P b ops kind D W) (hkind : kind ≠ .compactPersistence)
    (hP : ∀ m, P m → P' (applyOps new m))
    (hres : ∀ W j, Resumes host b ops W j → Resumes host b' (ops ++ new) W j) :
    Copied host P' b' (ops ++ new) kind D W := by
  obtain ⟨hfit,⟨hk,-⟩ | ⟨-,m,hm,hto⟩⟩ := h
  · exact absurd hk hkind
  · exact ⟨hfit, .inr ⟨hkind, _, hP m hm, hto.grow hres⟩⟩

theorem Copied.mono (h : Copied host P b ops kind D W) (hP : ∀ m, P m → P' m) :
    Copied host P' b ops kind D W := by
  obtain ⟨hfit,⟨hk,hW,hD⟩ | ⟨hk,m,hm,hto⟩⟩ := h
  · exact ⟨hfit, .inl ⟨hk, hW, hP D hD⟩⟩
  · exact ⟨hfit, .inr ⟨hk, m, hP m hm, hto⟩⟩

/-! ### Growth of the log -/

theorem StageInv.map {stage : SaveStage}
    (h : StageInv host P b ops snapshot temp unsynced D W stage)
    (hheld : ∀ c, Held host P b ops c → Held host P' b' (ops ++ new) c) :
    StageInv host P' b' (ops ++ new) snapshot temp unsynced D W stage := by
  cases stage with
  | begin => exact hheld _ h
  | tempWritten | tempSynced => exact ⟨hheld _ h.1, h.2⟩
  | renamed | directorySynced => exact h

namespace SnapInv

/-- The log grows while no compaction is under way. -/
theorem grow (h : SnapInv host P b ops admin snapshot temp unsynced) (hpath : PathInv admin)
    (hP : ∀ m, P m → P' (applyOps new m))
    (hres : ∀ W j, Resumes host b ops W j → Resumes host b' (ops ++ new) W j)
    (hfree : ∀ call, admin = some call → call.compacting = false) :
    SnapInv host P' b' (ops ++ new) admin snapshot temp unsynced := by
  have hheld (c : Option Bytes) (hc : Held host P b ops c) : Held host P' b' (ops ++ new) c :=
    hc.grow hP hres
  refine ⟨fun c hc => hheld c (h.older c hc), fun ha => hheld _ (h.idle ha), ?_⟩
  intro kind pc ha
  obtain ⟨hclear,hpc⟩ := h.busy kind pc ha
  have hpasses := hpath _ ha
  have hcomp := hfree _ ha
  refine ⟨hclear, ?_⟩
  cases pc with
  | releasing D W n =>
    have hkind : kind ≠ .compactPersistence := by
      rintro rfl
      cases hpasses
    exact ⟨hheld _ hpc.1, hpc.2.grow hkind hP hres⟩
  | saving stage D W =>
    have hkind : kind ≠ .compactPersistence := by
      rintro rfl
      cases hcomp
    exact ⟨hpc.1.grow hkind hP hres, hpc.2.map hheld⟩
  | rotating =>
    cases kind with
    | compactPersistence => cases hcomp
    | clearPersistence => exact absurd rfl hclear
    | checkpoint | saveSnapshot => cases hpasses
  | _ => exact hheld _ hpc

/-- More maps are allowed. -/
theorem mono (h : SnapInv host P b ops admin snapshot temp unsynced) (hP : ∀ m, P m → P' m) :
    SnapInv host P' b ops admin snapshot temp unsynced := by
  have hheld (c : Option Bytes) (hc : Held host P b ops c) : Held host P' b ops c := hc.mono hP
  refine ⟨fun c hc => hheld c (h.older c hc), fun ha => hheld _ (h.idle ha), ?_⟩
  intro kind pc ha
  obtain ⟨hclear,hpc⟩ := h.busy kind pc ha
  refine ⟨hclear, ?_⟩
  cases pc with
  | releasing D W n => exact ⟨hheld _ hpc.1, hpc.2.mono hP⟩
  | saving stage D W =>
    refine ⟨hpc.1.mono hP, ?_⟩
    cases stage with
    | begin => exact hheld _ hpc.2
    | tempWritten | tempSynced => exact ⟨hheld _ hpc.2.1, hpc.2.2⟩
    | renamed | directorySynced => exact hpc.2
  | rotating =>
    obtain ⟨hun,D,hD,hsaved⟩ := hpc
    exact ⟨hun, D, hP D hD, hsaved⟩
  | _ => exact hheld _ hpc

/-- The current content is good, unless it is an exposed copy that the log would change. -/
theorem held (h : SnapInv host P b ops admin snapshot temp unsynced) (hpath : PathInv admin)
    (hroom : b.length ≤ kMaxStreamoff)
    (hfix : ∀ call, admin = some call → call.exposed = true →
      ∀ D, P D → Saved host snapshot D 0 → Fixed ops D) :
    Held host P b ops snapshot := by
  cases ha : admin with
  | none => exact h.idle ha
  | some call =>
    obtain ⟨kind,pc⟩ := call
    obtain ⟨hclear,hpc⟩ := h.busy kind pc ha
    have hpasses := hpath _ ha
    cases pc with
    | releasing D W n => exact hpc.1
    | saving stage D W =>
      cases stage with
      | begin => exact hpc.2
      | tempWritten | tempSynced => exact hpc.2.1
      | renamed =>
        refine hpc.1.held hpc.2 hroom ?_
        rintro rfl
        exact hfix _ ha rfl D
      | directorySynced =>
        refine hpc.1.held hpc.2.1 hroom ?_
        rintro rfl
        exact hfix _ ha rfl D
    | rotating =>
      obtain ⟨-,D,hD,hfit,hsaved⟩ := hpc
      cases kind with
      | compactPersistence =>
        exact hsaved.held hfit hroom hD (replaysTo_zero (hfix _ ha rfl D hD hsaved))
      | clearPersistence => exact absurd rfl hclear
      | checkpoint | saveSnapshot => cases hpasses
    | _ => exact hpc

/-! ### Steps -/

/-- What a call finds when it has locked all shards. -/
structure Capture (P : Store → Prop) (b : Bytes) (s : KVStore) : Prop where
  copy : P s.collectData
  fit : FieldsFit s.collectData
  offset : ∀ off, s.wal.wal.currentOffset = .ok off → off = b.length

/-- A copy with the offset of the whole log. -/
theorem Capture.copied (h : Capture P b s) (hkind : kind ≠ .compactPersistence) {off : ℕ}
    (hoff : s.wal.wal.currentOffset = .ok off) : Copied host P b ops kind s.collectData off := by
  refine ⟨h.fit, .inr ⟨hkind, s.collectData, h.copy, ?_⟩⟩
  rw [h.offset off hoff]
  exact replaysTo_eof host b ops s.collectData

/-- The call goes on to another point. -/
theorem go (hold : ∀ c ∈ unsynced, Held host P b ops c) (hkind : kind ≠ .clearPersistence)
    {pc : AdminPc} (hpc : PcInv host P b ops snapshot temp unsynced kind pc) :
    SnapInv host P b ops (some ⟨kind,pc⟩) snapshot temp unsynced := by
  refine ⟨hold, by simp, ?_⟩
  intro kind' pc' ha
  cases ha
  exact ⟨hkind, hpc⟩

theorem free (hold : ∀ c ∈ unsynced, Held host P b ops c) (hheld : Held host P b ops snapshot) :
    SnapInv host P b ops none snapshot temp unsynced :=
  ⟨hold, fun _ => hheld, fun kind pc ha => by cases ha⟩

/-- A compaction that truncates the log leaves its copy and an empty log. -/
theorem rotate (h : SnapInv host P b ops admin snapshot temp unsynced)
    (hadmin : admin = some ⟨kind, .rotating⟩) :
    SnapInv host P [] [] (some ⟨kind, .truncated⟩) snapshot temp unsynced := by
  obtain ⟨hclear,rfl,D,hD,hfit,hsaved⟩ := h.busy kind _ hadmin
  exact go (by simp) hclear (hsaved.held hfit (Nat.zero_le _) hD (replaysTo_zero (fixed_nil D)))

/-- Every other step. -/
theorem step {l : Label} (h : SnapInv host P b ops s.admin s.snapshot s.temp s.unsynced)
    (hpath : PathInv s.admin) (hroom : b.length ≤ kMaxStreamoff)
    (hstep : KVStore.Steps host hash s l t) (hl : l ≠ .enter .clearPersistence)
    (hrot : ¬s.Rotates t)
    (hcap : ∀ kind n, s.admin = some ⟨kind, .locking n⟩ → kShardCount ≤ n → Capture P b s)
    (hfix : ∀ call, s.admin = some call → call.exposed = true → t.admin = (s.throw call).admin →
      ∀ D, P D → Saved host s.snapshot D 0 → Fixed ops D) :
    SnapInv host P b ops t.admin t.snapshot t.temp t.unsynced := by
  have hgo {kind : AdminKind} {pc pc' : AdminPc} (hadmin : s.admin = some ⟨kind,pc⟩)
      (hpc : PcInv host P b ops s.snapshot s.temp s.unsynced kind pc →
        PcInv host P b ops s.snapshot s.temp s.unsynced kind pc') :
      SnapInv host P b ops (some ⟨kind,pc'⟩) s.snapshot s.temp s.unsynced := by
    obtain ⟨hclear,hold⟩ := h.busy kind pc hadmin
    exact go h.older hclear (hpc hold)
  -- an exception leaves the path as it is; what it holds then is `held`
  have hthrow {call : AdminCall} {temp : Option Bytes} (hadmin : s.admin = some call)
      (ht : t.admin = (s.throw call).admin) :
      SnapInv host P b ops (s.throw call).admin s.snapshot temp s.unsynced := by
    have hheld := h.held hpath hroom fun call' ha he => by
      rw [hadmin] at ha
      obtain rfl := Option.some.inj ha
      exact hfix call hadmin he ht
    exact go h.older (h.busy _ _ hadmin).1 hheld
  cases hstep with
  | enter kind hkind hadmin =>
    refine go h.older ?_ (h.idle hadmin)
    rintro rfl
    exact hl rfl
  | enterCheckpoint epoch hworker hadmin => exact go h.older (by simp) (h.idle hadmin)
  | cancelled epoch hadmin => exact free h.older (h.busy _ _ hadmin).2
  | leave kind failed n hn hadmin => exact free h.older (h.busy _ _ hadmin).2
  | checked epoch hadmin => exact hgo hadmin id
  | cancel kind hkind hadmin => exact hgo hadmin id
  | lock kind n hn hadmin => exact hgo hadmin id
  | reset kind hadmin => exact hgo hadmin id
  | unlock kind failed n hn hadmin => exact hgo hadmin id
  | captureFails kind n hn hadmin =>
    exact go h.older (h.busy _ _ hadmin).1 (h.busy _ _ hadmin).2
  | captureCheckpoint epoch n offset hn hadmin hio hoff =>
    exact hgo hadmin fun hheld => ⟨hheld, (hcap _ n hadmin hn).copied (by simp) hoff⟩
  | captureSave n offset hn hadmin hio hoff =>
    exact hgo hadmin fun hheld => ⟨(hcap _ n hadmin hn).copied (by simp) hoff, hheld⟩
  | captureCompact n hn hadmin =>
    have hc := hcap _ n hadmin hn
    exact hgo hadmin fun hheld => ⟨⟨hc.fit, .inl ⟨rfl, rfl, hc.copy⟩⟩, hheld⟩
  | captureClear n hn hadmin => exact absurd rfl (h.busy _ _ hadmin).1
  | release kind data walOffset n hn hadmin => exact hgo hadmin id
  | released kind data walOffset n hn hadmin => exact hgo hadmin fun hpc => ⟨hpc.2, hpc.1⟩
  | writeTemp kind data walOffset entries bytes hadmin henum hsave =>
    obtain ⟨hclear,hcopy,hheld⟩ := h.busy _ _ hadmin
    exact go h.older hclear ⟨hcopy, hheld, entries, bytes, rfl, henum, hsave⟩
  | writeTempFails l kind data walOffset temp hadmin => exact hthrow hadmin rfl
  | syncTemp kind data walOffset hadmin => exact hgo hadmin id
  | rename kind data walOffset hadmin =>
    -- the old content stays possible until the directory is synced
    obtain ⟨hclear,hcopy,hheld,hsaved⟩ := h.busy _ _ hadmin
    refine go ?_ hclear ⟨hcopy, hsaved⟩
    intro c hc
    rcases List.mem_cons.mp hc with rfl | hc
    · exact hheld
    · exact h.older c hc
  | syncDirectory kind data walOffset hadmin =>
    obtain ⟨hclear,hcopy,hsaved⟩ := h.busy _ _ hadmin
    exact go (by simp) hclear ⟨hcopy, hsaved, rfl⟩
  | verified kind data walOffset hadmin =>
    obtain ⟨hclear,hcopy,hsaved,hun⟩ := h.busy _ _ hadmin
    refine go h.older hclear ?_
    cases kind with
    | checkpoint | saveSnapshot => exact hcopy.held hsaved hroom (by simp)
    | compactPersistence =>
      obtain ⟨hfit,⟨-,rfl,hD⟩ | ⟨hne,-⟩⟩ := hcopy
      · exact ⟨hun, data, hD, hfit, hsaved⟩
      · exact absurd rfl hne
    | clearPersistence => exact absurd rfl hclear
  | verifyFails kind data walOffset hadmin => exact hthrow hadmin rfl
  | rotate kind wal hadmin => exact absurd ⟨kind, hadmin, rfl⟩ hrot
  | rotateFails kind hadmin => exact hthrow hadmin rfl
  | syncTruncation kind wal hadmin =>
    obtain ⟨hclear,hheld⟩ := h.busy _ _ hadmin
    refine go h.older hclear ?_
    cases kind with
    | clearPersistence => exact absurd rfl hclear
    | checkpoint | saveSnapshot | compactPersistence => exact hheld
  | removeSnapshot kind hadmin | removeTemp kind hadmin | syncRemoval kind hadmin =>
    -- only `ClearPersistence` removes files
    have hpasses := hpath _ hadmin
    have hclear := (h.busy _ _ hadmin).1
    cases kind with
    | clearPersistence => exact absurd rfl hclear
    | checkpoint | saveSnapshot | compactPersistence => cases hpasses
  | fault call hadmin => exact hthrow hadmin rfl
  | _ => exact h

end SnapInv

end ConcurrentKV
