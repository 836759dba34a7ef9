import ConcurrentKV.CliTermination

/-! One append at a time: what the steps of a buffered log make of a single request is what
`WriteAheadLog.append` makes of it in one go. -/
namespace ConcurrentKV
open ByteCodec OpLog Transition

variable {host : ByteOrder} {wal wal' : WriteAheadLog} {op : WalRecord} {e : WalError}

namespace WriteAheadLog

/-- A batch of one frame. -/
theorem finalizeFrames_singleton (wal : WriteAheadLog) (frame : Bytes) :
    wal.finalizeFrames [frame] = wal.finalizeFrameLocked frame := by
  cases h : wal.finalizeFrameLocked frame with
  | error e => simp [finalizeFrames, h, bind, Except.bind]
  | ok x => simp [finalizeFrames, h, bind, Except.bind, pure, Except.pure]

theorem append_of_prepare_error (h : wal.prepare host op = .error e) :
    wal.append host op = (.error e, wal) := by
  rw [append, h]

theorem append_of_check_error {frame : Bytes} (hprep : wal.prepare host op = .ok frame)
    (h : wal.appendCheck = .error e) : wal.append host op = (.error e, wal) := by
  simp only [append, hprep, appendFrame, h]

theorem append_of_number_error {frame : Bytes} (hprep : wal.prepare host op = .ok frame)
    (hcheck : wal.appendCheck = .ok ()) (hopen : wal.outputOpen = true)
    (h : wal.ensureHeaderLocked.finalizeFrameLocked frame = .error e) :
    wal.append host op = (.error e, wal.ensureHeaderLocked.failWith e) := by
  simp [append, hprep, appendFrame, hcheck, writeFrameLocked, hopen, h]

theorem append_of_finalized {frame bytes : Bytes} (hprep : wal.prepare host op = .ok frame)
    (hcheck : wal.appendCheck = .ok ()) (hopen : wal.outputOpen = true)
    (h : wal.ensureHeaderLocked.finalizeFrameLocked frame = .ok (bytes,wal')) :
    wal.append host op = (.ok (), { wal' with file := wal'.file ++ bytes }) := by
  obtain ⟨n,rfl⟩ := finalizeFrames_keeps ((finalizeFrames_singleton _ frame).trans h)
  have hout : wal.ensureHeaderLocked.outputOpen = true := by
    rw [ensureHeaderLocked_eq]
    exact hopen
  simp [append, hprep, appendFrame, hcheck, writeFrameLocked, hopen, h, hout]

end WriteAheadLog

/-- The errors whose text is the program's own. -/
def WalError.isOwn : WalError → Bool
  | .sync | .faultHook => false
  | _ => true

theorem WalError.what_of_isOwn (h : e.isOwn = true) (detail : Bytes) :
    e.what detail = e.what [] := by
  cases e with
  | sync | faultHook => cases h
  | _ => rfl

namespace WalThreads

/-- Between two appends, over the object `wal`. -/
structure Rests (wal : WriteAheadLog) (w : WalThreads) : Prop where
  object : w.wal = wal
  prepared : w.prepared = []
  job : w.job = none

/-- The append of `op` to the object `wal`, alone under way as request `id`. -/
inductive Appending (host : ByteOrder) (wal : WriteAheadLog) (op : WalRecord) (id : ℕ)
    (w : WalThreads) : Prop where
  | prepared (frame : Bytes) (hprep : wal.prepare host op = .ok frame) (hwal : w.wal = wal)
      (hjob : w.job = none) (hreq : w.prepared = [⟨id, op, frame⟩])
      (hnone : w.results.find? (fun r => r.1 == id) = none)
  | header (frame : Bytes) (hprep : wal.prepare host op = .ok frame)
      (hcheck : wal.appendCheck = .ok ()) (hwal : w.wal = wal)
      (hjob : w.job = some ⟨[⟨id, op, frame⟩], .header⟩) (hreq : w.prepared = [])
      (hnone : w.results.find? (fun r => r.1 == id) = none)
  | frames (frame bytes : Bytes) (hprep : wal.prepare host op = .ok frame)
      (hcheck : wal.appendCheck = .ok ())
      (hfin : wal.ensureHeaderLocked.finalizeFrameLocked frame = .ok (bytes,w.wal))
      (hjob : w.job = some ⟨[⟨id, op, frame⟩], .frames bytes⟩) (hreq : w.prepared = [])
      (hnone : w.results.find? (fun r => r.1 == id) = none)
  | flushed (frame : Bytes) (happend : wal.append host op = (.ok (), w.wal))
      (hjob : w.job = some ⟨[⟨id, op, frame⟩], .flushed⟩) (hreq : w.prepared = [])
      (hnone : w.results.find? (fun r => r.1 == id) = none)
  | acknowledged (happend : wal.append host op = (.ok (), w.wal)) (hrests : w.Rests w.wal)
      (hfound : w.results.find? (fun r => r.1 == id) = some (id, none))
  | thrown (e : WalError) (happend : wal.append host op = (.error e, w.wal))
      (hrests : w.Rests w.wal)
      (hfound : w.results.find? (fun r => r.1 == id) = some (id, some e))

variable {w t : WalThreads} {id : ℕ} {l : WalLabel}

/-- The outcome of a request that had none. -/
theorem find_outcome {results : List (ℕ × Option WalError)} (outcome : Option WalError)
    (hnone : results.find? (fun r => r.1 == id) = none) :
    (results ++ [(id,outcome)]).find? (fun r => r.1 == id) = some (id,outcome) := by
  rw [List.find?_append, hnone]
  simp

/-- The call makes its frame. -/
theorem Rests.prepare (h : w.Rests wal)
    (hnone : w.results.find? (fun r => r.1 == w.nextId) = none)
    (hstep : w.step host (.prepare op) = some t) : t.Appending host wal op w.nextId := by
  cases steps_of_step hstep with
  | prepareError op e hprep =>
    rw [h.object] at hprep
    refine .thrown e ?_ ⟨rfl, h.prepared, h.job⟩ (find_outcome _ hnone)
    rw [WriteAheadLog.append_of_prepare_error hprep, ← h.object]
  | prepare op frame hprep =>
    rw [h.object] at hprep
    refine .prepared frame hprep h.object h.job ?_ hnone
    rw [h.prepared]
    rfl

/-- A log at rest makes no step of its own. -/
theorem Rests.no_step (h : w.Rests wal) (hl : l.writes = true) : w.step host l = none := by
  cases l with
  | submit id => simp [WalThreads.step, h.prepared]
  | writeHeader | writeFrames | finish | fail => simp only [WalThreads.step, h.job]
  | _ => cases hl

/-- Each step of the log brings the append further. -/
theorem Appending.step (h : w.Appending host wal op id) (hbuf : w.Buffered)
    (hopen : wal.outputOpen = true) (hl : l.writes = true) (hfail : ∀ n e, l ≠ .fail n e)
    (hstep : w.step host l = some t) : t.Appending host wal op id := by
  have hgroup : w.wal.policy ≠ .groupCommit := by simp [hbuf.policy]
  cases h with
  | prepared frame hprep hwal hjob hreq hnone =>
    have hone {r : Request} (hr : r ∈ w.prepared) : r = ⟨id, op, frame⟩ := by
      rw [hreq] at hr
      exact List.mem_singleton.mp hr
    cases steps_of_step hstep with
    | refuse id' r e hr hcheck =>
      obtain rfl := hone hr
      rw [hwal] at hcheck
      refine .thrown e ?_ ⟨rfl, ?_, hjob⟩ (find_outcome _ hnone)
      · rw [WriteAheadLog.append_of_check_error hprep hcheck, ← hwal]
      · simp [hreq]
    | enqueue id' r hr hpol => exact absurd hpol hgroup
    | enter id' r hr hpol hio hjob' hcheck =>
      obtain rfl := hone hr
      rw [hwal] at hcheck
      exact .header frame hprep hcheck hwal rfl (by simp [hreq]) hnone
    | writeHeader _ _ _ hj | exhausted _ _ hj | writeFrames _ _ hj | finishBuffered _ hj
    | finish _ hj =>
      rw [hjob] at hj
      cases hj
    | failWrite n e => exact absurd rfl (hfail n e)
    | _ => cases hl
  | header frame hprep hcheck hwal hjob hreq hnone =>
    cases steps_of_step hstep with
    | refuse _ r _ hr | enqueue _ r hr | enter _ r hr =>
      rw [hreq] at hr
      cases hr
    | writeHeader batch bytes wal' hj hfits hfin =>
      rw [hjob] at hj
      cases hj
      rw [hwal, List.map_singleton, WriteAheadLog.finalizeFrames_singleton] at hfin
      exact .frames frame bytes hprep hcheck hfin rfl hreq hnone
    | exhausted batch e hj hfin =>
      rw [hjob] at hj
      cases hj
      rw [hwal, List.map_singleton, WriteAheadLog.finalizeFrames_singleton] at hfin
      -- a batch of one fails only when the numbers were used up before
      have hmax : wal.ensureHeaderLocked.nextSequence = kMaxUint64 := by
        unfold WriteAheadLog.finalizeFrameLocked at hfin
        split_ifs at hfin with hlegacy hlast
        exact hlast
      have hsame : { wal.ensureHeaderLocked with nextSequence := kMaxUint64 } =
          wal.ensureHeaderLocked := by rw [← hmax]
      have hpol : wal.ensureHeaderLocked.policy ≠ .groupCommit := by
        rw [WriteAheadLog.ensureHeaderLocked_eq, ← hwal]
        exact hgroup
      rw [hwal, hsame, failJob, if_neg hpol]
      exact .thrown e (WriteAheadLog.append_of_number_error hprep hcheck hopen hfin)
        ⟨rfl, hreq, rfl⟩ (find_outcome _ hnone)
    | writeFrames _ _ hj | finishBuffered _ hj | finish _ hj =>
      rw [hjob] at hj
      cases hj
    | failWrite n e => exact absurd rfl (hfail n e)
    | _ => cases hl
  | frames frame bytes hprep hcheck hfin hjob hreq hnone =>
    cases steps_of_step hstep with
    | refuse _ r _ hr | enqueue _ r hr | enter _ r hr =>
      rw [hreq] at hr
      cases hr
    | writeFrames batch bytes' hj hfits =>
      rw [hjob] at hj
      cases hj
      exact .flushed frame (WriteAheadLog.append_of_finalized hprep hcheck hopen hfin) rfl hreq
        hnone
    | writeHeader _ _ _ hj | exhausted _ _ hj | finishBuffered _ hj | finish _ hj =>
      rw [hjob] at hj
      cases hj
    | failWrite n e => exact absurd rfl (hfail n e)
    | _ => cases hl
  | flushed frame happend hjob hreq hnone =>
    cases steps_of_step hstep with
    | refuse _ r _ hr | enqueue _ r hr | enter _ r hr =>
      rw [hreq] at hr
      cases hr
    | finishBuffered batch hj hpol =>
      rw [hjob] at hj
      cases hj
      rw [finishJob, if_neg hgroup]
      exact .acknowledged happend ⟨rfl, hreq, rfl⟩ (find_outcome _ hnone)
    | writeHeader _ _ _ hj | exhausted _ _ hj | writeFrames _ _ hj | finish _ hj =>
      rw [hjob] at hj
      cases hj
    | failWrite n e => exact absurd rfl (hfail n e)
    | _ => cases hl
  | acknowledged happend hrests =>
    rw [hrests.no_step hl] at hstep
    cases hstep
  | thrown e happend hrests =>
    rw [hrests.no_step hl] at hstep
    cases hstep

end WalThreads

/-! ### What an append keeps -/

/-- A log whose next answers are the program's own. -/
structure WriteAheadLog.Sound (wal : WriteAheadLog) : Prop where
  outputOpen : wal.outputOpen = true
  failure : ∀ e, wal.failure = some e → e.isOwn = true

theorem WriteAheadLog.Sound.cleared (h : wal.Sound) : wal.cleared.Sound := ⟨rfl, h.failure⟩

theorem isOwn_of_prepare (h : wal.prepare host op = .error e) : e.isOwn = true := by
  by_cases hok : RecordOk wal.portable op
  · rw [wal.prepare_of_ok host hok] at h
    cases h
  · simp only [WriteAheadLog.prepare, WriteAheadLog.payload_eq, if_neg hok, bind, Except.bind] at h
    obtain rfl := Except.error.inj h
    split
    · rfl
    · split
      · split <;> rfl
      · rfl

theorem WriteAheadLog.Sound.check (h : wal.Sound) (hcheck : wal.appendCheck = .error e) :
    e.isOwn = true := by
  unfold WriteAheadLog.appendCheck at hcheck
  split at hcheck
  · obtain rfl := Except.error.inj hcheck
    exact h.failure _ ‹_›
  · split_ifs at hcheck
    obtain rfl := Except.error.inj hcheck
    rfl

/-- An append of a sound log leaves it sound, in its format and generation, and throws only errors
of the program's own. -/
theorem WriteAheadLog.Sound.append (h : wal.Sound) (host : ByteOrder) (op : WalRecord) :
    (wal.append host op).2.Sound ∧ (wal.append host op).2.generation = wal.generation ∧
      (wal.append host op).2.portable = wal.portable ∧
      ∀ e, (wal.append host op).1 = .error e → e.isOwn = true := by
  cases hprep : wal.prepare host op with
  | error e =>
    rw [append_of_prepare_error hprep]
    refine ⟨h, rfl, rfl, ?_⟩
    intro e' he
    obtain rfl := Except.error.inj he
    exact isOwn_of_prepare hprep
  | ok frame =>
    cases hcheck : wal.appendCheck with
    | error e =>
      rw [append_of_check_error hprep hcheck]
      refine ⟨h, rfl, rfl, ?_⟩
      intro e' he
      obtain rfl := Except.error.inj he
      exact h.check hcheck
    | ok =>
      have hensure := wal.ensureHeaderLocked_eq
      cases hfin : wal.ensureHeaderLocked.finalizeFrameLocked frame with
      | error e =>
        have hown : e = .sequenceExhausted := by
          unfold finalizeFrameLocked at hfin
          split_ifs at hfin
          exact (Except.error.inj hfin).symm
        rw [append_of_number_error hprep hcheck h.outputOpen hfin, hensure, hown]
        exact ⟨⟨h.outputOpen, by simp [failWith, WalError.isOwn]⟩, rfl, rfl,
          by simp [WalError.isOwn]⟩
      | ok x =>
        obtain ⟨bytes,wal'⟩ := x
        rw [append_of_finalized hprep hcheck h.outputOpen hfin]
        obtain ⟨n,rfl⟩ := finalizeFrames_keeps ((finalizeFrames_singleton _ frame).trans hfin)
        rw [hensure]
        exact ⟨⟨h.outputOpen, h.failure⟩, rfl, rfl, by simp⟩

/-- Only records within the limits are acknowledged. -/
theorem recordOk_of_append (h : (wal.append host op).1 = .ok ()) : RecordOk wal.portable op := by
  by_contra hok
  obtain ⟨e,he⟩ := wal.append_of_oversized host hok
  rw [he] at h
  cases h

end ConcurrentKV
