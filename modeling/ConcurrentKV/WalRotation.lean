import ConcurrentKV.WalCrash

/-! Appends interleaved with `Clear` and `Rotate` on one object. The layout of a frame is
chosen before any lock is taken, and patched under the lock in the format the object then has. -/
namespace ConcurrentKV
open ByteCodec OpLog Transition

/-- Labels of appends and truncations that do not fail. -/
def WalLabel.isRotating : WalLabel → Bool
  | .clear | .clearSync => true
  | l => l.isAppend

/-- A shared log with what happened to it: the operations every call was made with, in the
order of their `PrepareFrame`; those of the original file, until it is truncated; and how many
requests had been written at the last truncation. -/
structure RotatedLog where
  log : WalThreads
  issued : List WalRecord
  kept : List WalRecord
  truncatedAt : ℕ

namespace RotatedLog

def start (wal : WriteAheadLog) (ops : List WalRecord) : RotatedLog :=
  ⟨WalThreads.start wal, [], ops, 0⟩

def step (host : ByteOrder) (s : RotatedLog) (l : WalLabel) : Option RotatedLog :=
  (s.log.step host l).map fun t => match l with
    | .prepare op => { s with log := t, issued := s.issued ++ [op] }
    | .clear => { s with log := t, kept := [], truncatedAt := t.history.length }
    | _ => { s with log := t }

/-- The requests written since the last truncation. -/
def since (s : RotatedLog) : List Request := s.log.history.drop s.truncatedAt

/-- What the file should hold. -/
def ops (s : RotatedLog) : List WalRecord := s.kept ++ s.since.map Request.op

/-- `Clear` does not change the format under a frame that is still to be written. -/
def keepsFormat (s : RotatedLog) (l : WalLabel) : Prop :=
  l = .clear → s.log.wal.portable = true ∨ s.log.awaiting = []

instance (s : RotatedLog) (l : WalLabel) : Decidable (s.keepsFormat l) :=
  inferInstanceAs (Decidable (_ → _))

variable {host : ByteOrder} {s t : RotatedLog} {l : WalLabel}

theorem log_of_step (h : s.step host l = some t) : s.log.step host l = some t.log := by
  obtain ⟨u,hu,rfl⟩ := Option.map_eq_some_iff.mp h
  rw [hu]
  cases l <;> rfl

end RotatedLog

/-- What a log that is appended to and rotated promises in each of its states. -/
structure RotationSound (host : ByteOrder) (s : RotatedLog) : Prop where
  /-- The file is a log in one format: what it held at first, unless it was truncated, and
  everything written since. -/
  wellFormed : WellFormedLog host s.log.wal.file s.ops
  replay : ∀ m, ∃ r, replayFromDetailed host s.log.wal.file 0 m = .ok (r, applyOps s.ops m) ∧
    r.status = .cleanEof ∧ r.appliedOperations = s.ops.length
  /-- Every request that was written stands for the key and value its call was made with. -/
  original : ∀ r ∈ s.log.history, s.issued[r.id]? = some r.op
  /-- An acknowledged append was written. -/
  acknowledged : ∀ id, (id, none) ∈ s.log.results → ∃ r ∈ s.log.history, r.id = id

/-! ### The file of a log that takes appends -/

namespace LogInv

variable {host : ByteOrder} {s t : WalThreads} {ops : List WalRecord} {l : WalLabel}

theorem appendCheck_step (h : LogInv host s ops) (hl : l.isAppend = true)
    (hstep : s.step host l = some t) : t.wal.appendCheck = s.wal.appendCheck := by
  have hfin (hist : List ℕ) (batch : List Request) :
      (WalThreads.finishJob { s with batchHistogram := hist } batch).wal = s.wal := by
    unfold WalThreads.finishJob
    split <;> rfl
  cases WalThreads.steps_of_step hstep with
  | writeHeader batch bytes wal hjob hfits hfinal =>
    rw [h.finalize hjob] at hfinal
    obtain ⟨-,rfl⟩ := Prod.mk.inj (Except.ok.inj hfinal)
    exact midWrite_appendCheck host s.wal _
  | exhausted batch e hjob hfinal =>
    rw [h.finalize hjob] at hfinal
    cases hfinal
  | finishBuffered batch => rw [hfin s.batchHistogram batch]
  | finish batch => rw [hfin _ batch]
  | drain batch e hjob =>
    have hw := h.writing
    rw [Writing, hjob] at hw
    exact hw.elim
  | failWrite | clear | clearSync | truncateTo => cases hl
  | _ => rfl

/-- At every point of a run without failures the file of a log that takes appends is well
formed, also between its header and its first frame. -/
theorem wellFormed (h : LogInv host s ops) (hadm : s.wal.appendCheck = .ok ()) :
    WellFormedLog host s.wal.file ops := by
  have hw := h.writing
  unfold Writing at hw
  split at hw
  · exact hw.inv.wellFormed hadm
  · exact hw.rest.inv.wellFormed hadm
  · exact hw.rest.inv.wellFormed hadm
  · obtain ⟨base,hd,hwal,-⟩ := hw
    have hlog := (hd.rest.inv.appended_nil hd.admitted).wellFormed hd.admitted
    rw [hwal, midWrite_file]
    simpa [WriteAheadLog.appended, framesFrom] using hlog
  · obtain ⟨base,before,hd,hwal,rfl⟩ := hw
    rw [hwal]
    exact hd.appended.wellFormed hd.admitted
  · exact hw.1.inv.wellFormed hadm
  · exact hw.1.inv.wellFormed hadm
  · exact hw.elim
  · exact hw.elim

end LogInv

/-! ### The invariant -/

structure RotationInv (host : ByteOrder) (s : RotatedLog) : Prop where
  log : LogInv host s.log s.ops
  admitted : s.log.wal.appendCheck = .ok ()
  bound : s.truncatedAt ≤ s.log.history.length
  order : s.log.AckOrder
  issued : s.issued.length = s.log.nextId
  original : ∀ r, r ∈ s.log.outstanding ∨ r ∈ s.log.history → s.issued[r.id]? = some r.op

namespace RotationInv

variable {host : ByteOrder} {s t : RotatedLog} {l : WalLabel}

theorem start {wal : WriteAheadLog} {ops : List WalRecord} (h : WalInv host wal ops)
    (hadm : wal.appendCheck = .ok ()) (hmax : 1 ≤ wal.maxBatch ∧ wal.maxBatch ≤ 4096)
    (hroom : wal.file.length ≤ kMaxStreamoff) :
    RotationInv host (RotatedLog.start wal ops) where
  log := by
    have hlog := (ground_start h hmax hroom).log
    simpa [RotatedLog.start, RotatedLog.ops, RotatedLog.since, WalThreads.start,
      WalThreads.unsettled] using hlog
  admitted := hadm
  bound := Nat.zero_le _
  order := WalThreads.ackOrder_start wal
  issued := rfl
  original := by simp [RotatedLog.start, WalThreads.start, WalThreads.outstanding]

/-- A request keeps the operation its call was made with. -/
theorem original_step (h : RotationInv host s) (hstep : s.step host l = some t) :
    t.issued.length = t.log.nextId ∧
      ∀ r, r ∈ t.log.outstanding ∨ r ∈ t.log.history → t.issued[r.id]? = some r.op := by
  have hlog := RotatedLog.log_of_step hstep
  obtain ⟨new,hhist,hnew⟩ := WalThreads.step_history hlog
  -- a request of the new state is an old one, or the one just prepared
  have hcases (r : Request) (hr : r ∈ t.log.outstanding ∨ r ∈ t.log.history) :
      (r ∈ s.log.outstanding ∨ r ∈ s.log.history) ∨ (l = .prepare r.op ∧ r.id = s.log.nextId) := by
    rcases hr with hr | hr
    · rcases WalThreads.step_outstanding hlog r hr with hold | hprep
      · exact .inl (.inl hold)
      · exact .inr hprep
    · rw [hhist, List.mem_append] at hr
      rcases hr with hr | hr
      · exact .inl (.inr hr)
      · exact .inl (.inl (hnew r hr))
  by_cases hprep : ∃ op, l = .prepare op
  · obtain ⟨op,rfl⟩ := hprep
    obtain ⟨u,hu,rfl⟩ := Option.map_eq_some_iff.mp hstep
    have hid : u.nextId = s.log.nextId+1 := by
      cases WalThreads.steps_of_step hu with
      | prepareError => rfl
      | prepare => rfl
    refine ⟨by simp [h.issued, hid], fun r hr => ?_⟩
    rcases hcases r hr with hold | ⟨hop,hnext⟩
    · have ho := h.original r hold
      have hlt : r.id < s.issued.length := (List.getElem?_eq_some_iff.mp ho).1
      dsimp only
      rw [List.getElem?_append_left hlt, ho]
    · obtain rfl := WalLabel.prepare.inj hop
      dsimp only
      rw [hnext, ← h.issued, List.getElem?_concat_length]
  · have hsame : t.issued = s.issued := by
      obtain ⟨u,hu,rfl⟩ := Option.map_eq_some_iff.mp hstep
      cases l with
      | prepare op => exact absurd ⟨op,rfl⟩ hprep
      | _ => rfl
    have hid : t.log.nextId = s.log.nextId := by
      rcases WalThreads.step_nextId hlog with hid | ⟨-,hop⟩
      · exact hid
      · exact absurd hop hprep
    rw [hsame, hid]
    refine ⟨h.issued, fun r hr => ?_⟩
    rcases hcases r hr with hold | ⟨hop,-⟩
    · exact h.original r hold
    · exact absurd ⟨_,hop⟩ hprep

/-- An append, or anything else that leaves the file's beginning alone. -/
theorem append_step (h : RotationInv host s) (hl : l.isAppend = true)
    (hstep : s.step host l = some t) : RotationInv host t := by
  have hlog := RotatedLog.log_of_step hstep
  obtain ⟨hissued,horiginal⟩ := h.original_step hstep
  obtain ⟨new,hhist,hinv,-⟩ := h.log.step hl hlog
  have hsame : t.kept = s.kept ∧ t.truncatedAt = s.truncatedAt := by
    obtain ⟨u,hu,rfl⟩ := Option.map_eq_some_iff.mp hstep
    cases l with
    | clear => cases hl
    | _ => exact ⟨rfl,rfl⟩
  have hops : t.ops = s.ops ++ new.map Request.op := by
    rw [RotatedLog.ops, RotatedLog.ops, RotatedLog.since, RotatedLog.since, hsame.1, hsame.2, hhist,
      List.drop_append_of_le_length h.bound, List.map_append, List.append_assoc]
  refine ⟨hops ▸ hinv, (h.log.appendCheck_step hl hlog).trans h.admitted, ?_,
    h.order.step h.log hl hlog, hissued, horiginal⟩
  rw [hsame.2, hhist, List.length_append]
  exact Nat.le_add_right_of_le h.bound

theorem step (h : RotationInv host s) (hl : l.isRotating = true) (hfmt : s.keepsFormat l)
    (hstep : s.step host l = some t) : RotationInv host t := by
  have hlog := RotatedLog.log_of_step hstep
  obtain ⟨hissued,horiginal⟩ := h.original_step hstep
  cases l with
  | clear =>
    obtain ⟨horder,-⟩ := h.order.truncation (.inl rfl) hlog
    have hinv := h.log.clear (hfmt rfl) hlog
    obtain ⟨u,hu,rfl⟩ := Option.map_eq_some_iff.mp hstep
    refine ⟨by simpa [RotatedLog.ops, RotatedLog.since] using hinv, ?_, le_rfl, horder, hissued,
      horiginal⟩
    have hnone := (s.log.wal.appendCheck_ok_iff.mp h.admitted).1
    cases WalThreads.steps_of_step hu with
    | clear => exact (WriteAheadLog.appendCheck_ok_iff _).mpr ⟨hnone,rfl,rfl⟩
  | clearSync =>
    obtain ⟨horder,hhist⟩ := h.order.truncation (.inr rfl) hlog
    have hinv := h.log.clearSync hlog
    obtain ⟨u,hu,rfl⟩ := Option.map_eq_some_iff.mp hstep
    cases WalThreads.steps_of_step hu with
    | clearSync => exact ⟨hinv, h.admitted, h.bound, horder, hissued, horiginal⟩
  | fail => cases hl
  | truncateTo => cases hl
  | _ => exact h.append_step rfl hstep

theorem sound (h : RotationInv host s) : RotationSound host s := by
  have hlog := h.log.wellFormed h.admitted
  refine ⟨hlog, hlog.replay, fun r hr => h.original r (.inr hr), fun id hid => ?_⟩
  have hmem := (h.order.mem_iff id).mpr (.inl (WalThreads.mem_acknowledged.mpr hid))
  obtain ⟨r,hr,rfl⟩ := List.mem_map.mp hmem
  exact ⟨r, hr, rfl⟩

end RotationInv

/-- Preparing frames and rotating commute as long as no rotation changes the format under a
frame that is made and not written: for any callers, policy and interleaving, on any well-formed
file, in every state reached the file is a log in one format, and replays to what was
acknowledged and written since it was last truncated. -/
theorem rotations_keep_the_log (host : ByteOrder) (b : Bytes) (ops : List WalRecord)
    (hlog : WellFormedLog host b ops) (hb : b.length ≤ kMaxStreamoff) (policy : DurabilityPolicy)
    (maxBatch : ℕ) (wal : WriteAheadLog) (hopen : openWal host b policy maxBatch = .ok wal)
    (ls : List WalLabel) (s : RotatedLog) (hls : ∀ l ∈ ls, l.isRotating = true)
    (hfmt : Along (RotatedLog.step host) RotatedLog.keepsFormat (RotatedLog.start wal ops) ls)
    (hrun : run (RotatedLog.step host) (RotatedLog.start wal ops) ls = some s) :
    RotationSound host s := by
  have hfew : ops.length < kMaxUint64 := by
    have := hlog.fileShape.length_le
    simp only [kMaxStreamoff, kMaxUint64] at hb ⊢
    omega
  obtain ⟨wal',hopen',hfile,-,hmax,hinv⟩ :=
    openWal_inv hlog.fileShape policy (openWal_maxBatch hopen) (fun _ => hfew)
  obtain rfl := Except.ok.inj (hopen.symm.trans hopen')
  have hadm : wal.appendCheck = .ok () := hinv.appendCheck_iff.mpr ⟨ops, hfile ▸ hlog⟩
  have hstart := RotationInv.start hinv hadm (hmax ▸ openWal_maxBatch hopen) (hfile ▸ hb)
  let P (s : RotatedLog) (ls : List WalLabel) : Prop := RotationInv host s ∧
    (∀ l ∈ ls, l.isRotating = true) ∧ Along (RotatedLog.step host) RotatedLog.keepsFormat s ls
  have hend : P s [] := by
    refine run_induction (P := P) ?_ hrun ⟨hstart,hls,hfmt⟩
    rintro s l ls t ⟨hs,hls,hfmt⟩ ht
    obtain ⟨hl,hls⟩ := List.forall_mem_cons.mp hls
    exact ⟨hs.step hl hfmt.1 ht, hls, hfmt.2 t ht⟩
  exact hend.1.sound

/-- A log of one record, as versions before the header wrote it. -/
def legacyFile : Bytes := framesFrom .little false 1 [.set [1] [2]]

theorem legacyFile_wellFormed : WellFormedLog .little legacyFile [.set [1] [2]] :=
  .v2 _ (by simp) (by decide)

/-- A file in the old format is appended to, rotated with nothing under way, and appended to
again: the second record is in the new format. -/
theorem rotation_of_idle_legacy_file :
    ∃ wal s, openWal .little legacyFile .sync 1 = .ok wal ∧
      run (RotatedLog.step .little) (RotatedLog.start wal [.set [1] [2]])
        [.prepare (.delete [1]), .submit 0, .writeHeader, .writeFrames, .sync, .finish, .clear,
          .clearSync, .prepare (.set [3] [4]), .submit 1, .writeHeader, .writeFrames, .sync,
          .finish] = some s ∧
      s.ops = [.set [3] [4]] ∧ RotationSound .little s := by
  have hopen : openWal .little legacyFile .sync 1 = .ok { file := legacyFile, policy := .sync
                                                          maxBatch := 1, legacyV2 := true
                                                          generation := 0 } := by decide +kernel
  have hrun : ((run (RotatedLog.step .little) (RotatedLog.start
      { file := legacyFile, policy := .sync, maxBatch := 1, legacyV2 := true, generation := 0 }
      [.set [1] [2]])
      [.prepare (.delete [1]), .submit 0, .writeHeader, .writeFrames, .sync, .finish, .clear,
        .clearSync, .prepare (.set [3] [4]), .submit 1, .writeHeader, .writeFrames, .sync,
        .finish]).map RotatedLog.ops) = some [.set [3] [4]] := by decide +kernel
  obtain ⟨s,hs,hops⟩ := Option.map_eq_some_iff.mp hrun
  exact ⟨_, s, hopen, hs, hops, rotations_keep_the_log .little legacyFile _ legacyFile_wellFormed
    (by decide +kernel) .sync 1 _ hopen _ s (by decide) (by decide +kernel) hs⟩

/-- An append prepared in the old format and written behind a rotation is acknowledged, and
what it leaves is no log: replay stops at its record with `InvalidOpcode`. -/
theorem rotation_breaks_prepared_append :
    ∃ wal s, openWal .little legacyFile .buffered 1 = .ok wal ∧
      run (RotatedLog.step .little) (RotatedLog.start wal [.set [1] [2]])
        [.prepare (.set [3] [4]), .clear, .submit 0, .writeHeader, .writeFrames, .finish] = some s ∧
      (0, none) ∈ s.log.results ∧ s.since.map Request.op = [.set [3] [4]] ∧
      (¬∃ ops, WellFormedLog .little s.log.wal.file ops) ∧
      ∃ r, replayFromDetailed .little s.log.wal.file 0 ∅ = .ok (r, ∅) ∧
        r.status = .invalidOpcode ∧ r.appliedOperations = 0 := by
  have hopen : openWal .little legacyFile .buffered 1 = .ok {
      file := legacyFile
      policy := .buffered
      maxBatch := 1
      legacyV2 := true
      generation := 0 } := by decide +kernel
  have hrun : ((run (RotatedLog.step .little) (RotatedLog.start
      { file := legacyFile, policy := .buffered, maxBatch := 1, legacyV2 := true, generation := 0 }
      [.set [1] [2]])
      [.prepare (.set [3] [4]), .clear, .submit 0, .writeHeader, .writeFrames,
        .finish]).any fun s =>
          decide ((0, none) ∈ s.log.results ∧ s.since.map Request.op = [.set [3] [4]] ∧
            replayFromDetailed .little s.log.wal.file 0 ∅ = .ok ({
              status := .invalidOpcode
              lastGoodOffset := 24
              stopOffset := 24
              generation := 1 }, ∅))) = true := by
    decide +kernel
  obtain ⟨s,hs,hfacts⟩ := (Option.any_eq_true _ _).mp hrun
  obtain ⟨hack,hops,hreplay⟩ := of_decide_eq_true hfacts
  refine ⟨_, s, hopen, hs, hack, hops, ?_, _, hreplay, rfl, rfl⟩
  rintro ⟨ops,hlog⟩
  obtain ⟨r,hr,hclean,-⟩ := hlog.replay ∅
  obtain ⟨rfl,-⟩ := Prod.mk.inj (Except.ok.inj (hreplay.symm.trans hr))
  cases hclean

end ConcurrentKV
