import ConcurrentKV.WalRequests

/-! Failed appends, with any interleaving of truncations. A shared log works until its first
failed append; from then on it writes no frame, acknowledges nothing and can always drain. -/
namespace ConcurrentKV
open ByteCodec OpLog Transition

/-- The steps that threads of the log still take by themselves: the writer, a truncation that
has the lock, and callers on their way to it. -/
def WalLabel.isDrain : WalLabel → Bool
  | .clearSync | .drain | .complete | .next | .submit _ => true
  | _ => false

namespace WriteAheadLog

variable {host : ByteOrder} {wal wal' : WriteAheadLog}

/-- Finalising uses up sequence numbers and changes nothing else. -/
theorem finalizeFrames_keeps {frames : List Bytes} {bytes : Bytes}
    (h : wal.finalizeFrames frames = .ok (bytes,wal')) :
    ∃ n, wal' = { wal with nextSequence := n } := by
  induction frames generalizing wal bytes with
  | nil =>
    obtain ⟨-,rfl⟩ := Prod.mk.inj (Except.ok.inj h)
    exact ⟨wal.nextSequence, rfl⟩
  | cons frame frames ih =>
    have hone {x : Bytes × WriteAheadLog} (hx : wal.finalizeFrameLocked frame = .ok x) :
        ∃ n, x.2 = { wal with nextSequence := n } := by
      unfold finalizeFrameLocked at hx
      split at hx
      · obtain rfl := Except.ok.inj hx
        exact ⟨wal.nextSequence, rfl⟩
      split at hx
      · cases hx
      · obtain rfl := Except.ok.inj hx
        exact ⟨wal.nextSequence+1, rfl⟩
    rw [finalizeFrames] at h
    cases hx : wal.finalizeFrameLocked frame with
    | error e =>
      rw [hx] at h
      cases h
    | ok x =>
      obtain ⟨n,hn⟩ := hone hx
      rw [hx] at h
      change (x.2.finalizeFrames frames >>= fun y => pure (x.1 ++ y.1, y.2)) = _ at h
      cases hy : x.2.finalizeFrames frames with
      | error e =>
        rw [hy] at h
        cases h
      | ok y =>
        rw [hy] at h
        obtain ⟨-,rfl⟩ := Prod.mk.inj (Except.ok.inj h)
        obtain ⟨k,hk⟩ := ih hy
        exact ⟨k, by rw [hk, hn]⟩

theorem ensureHeaderLocked_keeps : wal.ensureHeaderLocked.failure = wal.failure ∧
    wal.ensureHeaderLocked.policy = wal.policy := by
  rw [ensureHeaderLocked_eq]
  exact ⟨rfl, rfl⟩

end WriteAheadLog

namespace WalThreads

/-- No append has failed. -/
structure Working (s : WalThreads) : Prop where
  noFailure : s.wal.failure = none
  notFailing : ∀ batch e, s.job ≠ some ⟨batch, .failing e⟩
  notFailed : ∀ batch e, s.job ≠ some ⟨batch, .completing (some e)⟩
  queue : s.wal.policy ≠ .groupCommit → s.queue = []

/-- An append has failed with `e`: the writer is on its way to say so, or `failure_` is set
and what was queued is being completed. -/
inductive Failed (s : WalThreads) (e : WalError) : Prop where
  | failing (batch : List Request) (hjob : s.job = some ⟨batch, .failing e⟩)
  | failed (hfail : s.wal.failure = some e) (hqueue : s.queue = [])
      (hjob : s.job = none ∨ ∃ batch, s.job = some ⟨batch, .completing (some e)⟩)

variable {host : ByteOrder} {s t : WalThreads} {e : WalError}

theorem working_start {wal : WriteAheadLog} (h : wal.failure = none) : Working (start wal) where
  noFailure := h
  notFailing := by simp [start]
  notFailed := by simp [start]
  queue _ := rfl

/-- The log with its batch failed: at once, or on the way to it. -/
theorem failJob_failed (h : s.wal.policy ≠ .groupCommit → s.queue = []) (batch : List Request)
    (e : WalError) : Failed (s.failJob batch e) e := by
  unfold failJob
  split
  · exact .failing batch rfl
  · exact .failed rfl (h ‹_›) (.inl rfl)

@[simp] theorem failJob_history (batch : List Request) (e : WalError) :
    (s.failJob batch e).history = s.history := by
  unfold failJob
  split <;> rfl

@[simp] theorem failJob_file (batch : List Request) (e : WalError) :
    (s.failJob batch e).wal.file = s.wal.file := by
  unfold failJob
  split <;> rfl

@[simp] theorem failJob_acknowledged (batch : List Request) (e : WalError) :
    (s.failJob batch e).acknowledged = s.acknowledged := by
  unfold failJob
  split
  · rfl
  · simp [acknowledged]

/-! ### Until the first failure -/

/-- A step of a working log fails a batch, or the log works on. -/
theorem Working.next {l : WalLabel} (h : Working s) (hstep : s.step host l = some t) :
    (∃ e, Failed t e ∧ t.history = s.history ∧ t.acknowledged = s.acknowledged) ∨ Working t := by
  obtain ⟨hno,hfailing,hfailed,hq⟩ := h
  cases steps_of_step hstep with
  | prepareError | prepare | refuse | stop | exit | clear | clearSync | resetStats =>
    exact .inr ⟨hno, hfailing, hfailed, hq⟩
  | enqueue id r hr hpol => exact .inr ⟨hno, hfailing, hfailed, fun hne => absurd hpol hne⟩
  | cut hpol => exact .inr ⟨hno, by simp, by simp, fun hne => absurd hpol hne⟩
  | enter | lockIo | writeFrames | sync | next => exact .inr ⟨hno, by simp, by simp, hq⟩
  | writeHeader batch bytes wal hjob hfits hframes =>
    obtain ⟨n,rfl⟩ := WriteAheadLog.finalizeFrames_keeps hframes
    obtain ⟨hfail,hpol⟩ := @WriteAheadLog.ensureHeaderLocked_keeps s.wal
    refine .inr ⟨hfail.trans hno, by simp, by simp, ?_⟩
    rw [hpol]
    exact hq
  | exhausted batch e =>
    refine .inl
      ⟨e, failJob_failed ?_ batch e, failJob_history batch e, failJob_acknowledged batch e⟩
    rw [(@WriteAheadLog.ensureHeaderLocked_keeps s.wal).2]
    exact hq
  | failWrite n e batch =>
    refine .inl
      ⟨e, failJob_failed ?_ batch e, failJob_history batch e, failJob_acknowledged batch e⟩
    exact hq
  | finishBuffered batch | finish batch =>
    right
    unfold finishJob
    split <;> exact ⟨hno, by simp, by simp, hq⟩
  | complete r batch error hjob =>
    cases error with
    | some e => exact absurd hjob (hfailed _ e)
    | none => exact .inr ⟨hno, by simp, by simp, hq⟩
  | drain batch e hjob => exact absurd hjob (hfailing batch e)
  | truncateTo offset =>
    obtain ⟨hfail,hpol,-⟩ := s.wal.truncateTo_keeps host offset
    refine .inr ⟨hfail.trans hno, hfailing, hfailed, ?_⟩
    rw [hpol]
    exact hq

/-- Without a failure the acknowledged requests are the first ones in the file. -/
theorem Working.acked_eq (hids : s.ids.Perm (List.range s.nextId)) {done : List Request}
    (hdone : s.history = done ++ s.uncompleted) (hack : s.acknowledged = done.map Request.id) :
    s.acked = done := by
  have h := AckOrder.history_eq ⟨done, hdone, hack⟩ hids
  rw [hdone] at h
  exact (List.append_cancel_right h).symm

/-! ### After the first failure -/

theorem Failed.congr (h : Failed s e) (hjob : t.job = s.job) (hqueue : t.queue = s.queue)
    (hfail : t.wal.failure = s.wal.failure) : Failed t e := by
  cases h with
  | failing batch hj => exact .failing batch (hjob.trans hj)
  | failed hf hq hj =>
    rw [← hjob] at hj
    exact .failed (hfail.trans hf) (hqueue.trans hq) hj

/-- No batch is being written. -/
theorem Failed.phase (h : Failed s e) {batch : List Request} {phase : Phase}
    (hjob : s.job = some ⟨batch, phase⟩) : phase = .failing e ∨
      (phase = .completing (some e) ∧ s.wal.failure = some e ∧ s.queue = []) := by
  cases h with
  | failing b hb =>
    rw [hb] at hjob
    cases hjob
    exact .inl rfl
  | failed hfail hq hj =>
    rcases hj with hj | ⟨b,hj⟩
    · rw [hj] at hjob
      cases hjob
    · rw [hj] at hjob
      cases hjob
      exact .inr ⟨rfl, hfail, hq⟩

theorem Failed.refuses (h : Failed s e) (hadm : s.wal.appendCheck = .ok ()) :
    ∃ batch, s.job = some ⟨batch, .failing e⟩ := by
  cases h with
  | failing batch hj => exact ⟨batch, hj⟩
  | failed hfail =>
    rw [((WriteAheadLog.appendCheck_ok_iff _).mp hadm).1] at hfail
    cases hfail

/-- The failure stays, no frame is written, nothing is acknowledged and the file only gets
shorter, whatever is called. -/
theorem Failed.step {l : WalLabel} (h : Failed s e) (hstep : s.step host l = some t) :
    Failed t e ∧ t.history = s.history ∧ t.acknowledged = s.acknowledged ∧
      t.wal.file <+: s.wal.file ∧ (s.wal.failure = some e → t.wal.failure = some e) := by
  cases steps_of_step hstep with
  | prepareError | refuse =>
    exact ⟨h.congr rfl rfl rfl, rfl, by simp [acknowledged], List.prefix_rfl, fun hf => hf⟩
  | prepare | stop | exit | clearSync | resetStats =>
    exact ⟨h.congr rfl rfl rfl, rfl, rfl, List.prefix_rfl, fun hf => hf⟩
  | clear => exact ⟨h.congr rfl rfl rfl, rfl, rfl, List.nil_prefix, fun hf => hf⟩
  | truncateTo offset =>
    obtain ⟨hfail,-,-,hfile⟩ := s.wal.truncateTo_keeps host offset
    exact ⟨h.congr rfl rfl hfail, rfl, rfl, hfile, fun hf => hfail.trans hf⟩
  | enqueue id r hr hpol hadm =>
    -- the queue is open until the writer has said that it failed
    obtain ⟨batch,hjob⟩ := h.refuses hadm
    exact ⟨.failing batch hjob, rfl, rfl, List.prefix_rfl, fun hf => hf⟩
  | enter id r hr hpol hio hjob hadm =>
    obtain ⟨batch,hjob'⟩ := h.refuses hadm
    rw [hjob] at hjob'
    cases hjob'
  | cut hpol hjob hexit hne =>
    cases h with
    | failing batch hj =>
      rw [hjob] at hj
      cases hj
    | failed hfail hq => exact absurd hq hne
  | lockIo batch hjob | writeHeader batch _ _ hjob | exhausted batch _ hjob
  | writeFrames batch _ hjob | sync batch hjob | finishBuffered batch hjob | finish batch hjob =>
    rcases h.phase hjob with hp | ⟨hp,-⟩ <;> cases hp
  | failWrite n e' batch phase torn hjob hio =>
    rcases h.phase hjob with rfl | ⟨rfl,-⟩ <;> cases hio
  | complete r batch error hjob =>
    rcases h.phase hjob with hp | ⟨hp,hfail,hq⟩
    · cases hp
    obtain rfl := Phase.completing.inj hp
    exact ⟨.failed hfail hq (.inr ⟨batch, rfl⟩), rfl, by simp [acknowledged], List.prefix_rfl, id⟩
  | next error hjob =>
    rcases h.phase hjob with hp | ⟨hp,hfail,hq⟩
    · cases hp
    exact ⟨.failed hfail hq (.inl rfl), rfl, rfl, List.prefix_rfl, id⟩
  | drain batch e' hjob =>
    rcases h.phase hjob with hp | ⟨hp,-⟩
    · obtain rfl := Phase.failing.inj hp
      exact ⟨.failed rfl rfl (.inr ⟨_, rfl⟩), rfl, rfl, List.prefix_rfl, fun _ => rfl⟩
    · cases hp

/-- Apart from truncations nothing touches the file any more. -/
theorem Failed.file_eq {l : WalLabel} (h : Failed s e) (hstep : s.step host l = some t)
    (hclear : l ≠ .clear) (htrunc : ∀ n, l ≠ .truncateTo n) : t.wal.file = s.wal.file := by
  cases steps_of_step hstep with
  | clear => exact absurd rfl hclear
  | truncateTo n => exact absurd rfl (htrunc n)
  | writeHeader batch _ _ hjob | exhausted batch _ hjob | writeFrames batch _ hjob
  | finishBuffered batch hjob | finish batch hjob =>
    rcases h.phase hjob with hp | ⟨hp,-⟩ <;> cases hp
  | failWrite n e' batch phase torn hjob hio =>
    rcases h.phase hjob with rfl | ⟨rfl,-⟩ <;> cases hio
  | _ => rfl

/-! ### Either way -/

/-- What holds under every interleaving: the log works or has failed, and the acknowledged
requests are in the file. -/
structure AckInv (s : WalThreads) : Prop where
  ids : s.ids.Perm (List.range s.nextId)
  mode : (Working s ∧ AckOrder s) ∨ ∃ e, Failed s e
  acked : ∀ id, (id, none) ∈ s.results → id ∈ s.acked.map Request.id

theorem ackInv_start {wal : WriteAheadLog} (h : wal.failure = none) : AckInv (start wal) where
  ids := List.Perm.refl []
  mode := .inl ⟨working_start h, ackOrder_start wal⟩
  acked id hid := by simp [start] at hid

theorem acked_congr (hhist : t.history = s.history) (hack : t.acknowledged = s.acknowledged) :
    t.acked = s.acked := by
  rw [acked, acked, hhist]
  refine List.filter_congr fun r _ => ?_
  rw [decide_eq_decide, ← mem_acknowledged, ← mem_acknowledged, hack]

/-- The acknowledged requests grow at the end, by requests that were outstanding. -/
theorem AckInv.step {l : WalLabel} (h : AckInv s) (hstep : s.step host l = some t) :
    AckInv t ∧ ∃ new, t.acked = s.acked ++ new ∧ ∀ r ∈ new, r ∈ s.outstanding := by
  have hids := step_ids h.ids hstep
  have hsame (hmode : (Working t ∧ AckOrder t) ∨ ∃ e, Failed t e) (hhist : t.history = s.history)
      (hack : t.acknowledged = s.acknowledged) :
      AckInv t ∧ ∃ new, t.acked = s.acked ++ new ∧ ∀ r ∈ new, r ∈ s.outstanding := by
    have hacked := acked_congr hhist hack
    refine ⟨⟨hids, hmode, fun id hid => ?_⟩, [], by simpa using hacked, by simp⟩
    rw [← mem_acknowledged, hack, mem_acknowledged] at hid
    rw [hacked]
    exact h.acked id hid
  rcases h.mode with ⟨hwork,done,hdone,hack⟩ | ⟨e,hfail⟩
  · rcases hwork.next hstep with ⟨e,hfail,hhist,hack'⟩ | hwork'
    · exact hsame (.inr ⟨e,hfail⟩) hhist hack'
    rcases ack_step hwork.notFailing hwork.notFailed hdone hack hstep with
      ⟨u,batch,e,rfl⟩ | ⟨new,hnew,hdone',hack'⟩
    · -- a failed batch does not work on
      exfalso
      have hno := hwork'.noFailure
      have hjob := hwork'.notFailing batch e
      unfold failJob at hno hjob
      split at hno
      · rename_i hpol
        rw [if_pos hpol] at hjob
        exact hjob rfl
      · cases hno
    · have hacked := Working.acked_eq hids hdone' hack'
      refine ⟨⟨hids, .inl ⟨hwork', done ++ new, hdone', hack'⟩, fun id hid => ?_⟩, new, ?_, hnew⟩
      · rw [hacked, ← hack', mem_acknowledged]
        exact hid
      · rw [hacked, Working.acked_eq h.ids hdone hack]
  · obtain ⟨hfail',hhist,hack,-⟩ := hfail.step hstep
    exact hsame (.inr ⟨e,hfail'⟩) hhist hack

/-- Every request passed the size checks of its append. -/
structure Sized (s : WalThreads) : Prop where
  outstanding : ∀ r ∈ s.outstanding, RecordOk false r.op
  history : ∀ r ∈ s.history, RecordOk false r.op

theorem sized_start (wal : WriteAheadLog) : Sized (start wal) where
  outstanding r hr := by simp [start, WalThreads.outstanding] at hr
  history r hr := by simp [start] at hr

theorem Sized.step {l : WalLabel} (h : Sized s) (hstep : s.step host l = some t) : Sized t where
  outstanding r hr := by
    rcases step_outstanding hstep r hr with hr' | ⟨rfl,-⟩
    · exact h.outstanding r hr'
    · cases steps_of_step hstep with
      | prepareError => exact h.outstanding r hr
      | prepare _ frame hprep =>
        have hok : RecordOk s.wal.portable r.op := by
          by_contra hbig
          obtain ⟨e,he⟩ := WriteAheadLog.prepare_of_oversized host s.wal hbig
          rw [he] at hprep
          cases hprep
        rw [recordOk_iff] at hok ⊢
        have : recordLength false r.op ≤ recordLength s.wal.portable r.op := by simp [recordLength]
        omega
  history r hr := by
    obtain ⟨new,hhist,hnew⟩ := step_history hstep
    rw [hhist] at hr
    rcases List.mem_append.mp hr with hr | hr
    · exact h.history r hr
    · exact h.outstanding r (hnew r hr)

/-! ### The way out -/

/-- `u` is reached by such steps alone. -/
def Drains (host : ByteOrder) (s u : WalThreads) : Prop :=
  ∃ labels : List WalLabel, (∀ l ∈ labels, l.isDrain = true) ∧
    run (WalThreads.step host) s labels = some u

theorem Drains.refl : Drains host s s := ⟨[], by simp, rfl⟩

theorem Drains.trans {u : WalThreads} (h : Drains host s t) (h' : Drains host t u) :
    Drains host s u := by
  obtain ⟨xs,hxs,hrun⟩ := h
  obtain ⟨ys,hys,hrun'⟩ := h'
  refine ⟨xs ++ ys, fun l hl => (List.mem_append.mp hl).elim (hxs l) (hys l), ?_⟩
  rw [run_append, hrun, Option.bind_some, hrun']

theorem Drains.head {u : WalThreads} {l : WalLabel} (hl : l.isDrain = true)
    (hstep : s.step host l = some t) (h : Drains host t u) : Drains host s u := by
  obtain ⟨ls,hls,hrun⟩ := h
  refine ⟨l :: ls, List.forall_mem_cons.mpr ⟨hl,hls⟩, ?_⟩
  rw [run_cons, hstep, Option.bind_some, hrun]

/-- A failed batch is completed request by request, and then the writer ends. -/
theorem drains_complete {batch : List Request} (hjob : s.job = some ⟨batch, .completing (some e)⟩) :
    Drains host s { s with
      job := none
      exited := true
      results := s.results ++ batch.map (fun r => (r.id, some e)) } := by
  induction batch generalizing s with
  | nil =>
    have hstep : s.step host .next = some { s with job := none, exited := true } := by
      simp [step, hjob]
    refine Drains.head rfl hstep ?_
    simpa using Drains.refl
  | cons r batch ih =>
    have hstep : s.step host .complete = some { s with
        job := some ⟨batch, .completing (some e)⟩
        results := s.results ++ [(r.id, some e)] } := by simp only [step, hjob]
    refine Drains.head rfl hstep ?_
    simpa using @ih { s with
      job := some ⟨batch, .completing (some e)⟩
      results := s.results ++ [(r.id, some e)] } rfl

/-- The writer completes its batch and all that is queued. -/
theorem Failed.completes (h : Failed s e) (htrunc : s.truncating = none) :
    ∃ u, Drains host s u ∧ u.job = none ∧ u.queue = [] ∧ u.truncating = none ∧
      u.wal.failure = some e ∧ u.prepared = s.prepared ∧
      ∀ r ∈ s.outstanding, r ∈ s.prepared ∨ (r.id, some e) ∈ u.results := by
  cases h with
  | failing batch hj =>
    have hdrain : s.step host .drain = some { s with
        wal := s.wal.failWith e
        queue := []
        job := some ⟨batch ++ s.queue, .completing (some e)⟩ } := by simp only [WalThreads.step, hj]
    refine ⟨_, .head rfl hdrain (drains_complete rfl), rfl, rfl, htrunc, rfl, rfl, fun r hr => ?_⟩
    simp only [outstanding, hj, List.mem_append] at hr
    rcases hr with hr | hr
    · exact .inl hr
    · have hr : r ∈ batch ++ s.queue := List.mem_append.mpr hr.symm
      exact .inr (List.mem_append_right _ (List.mem_map.mpr ⟨r, hr, rfl⟩))
  | failed hfail hq hj =>
    rcases hj with hj | ⟨batch,hj⟩
    · refine ⟨s, .refl, hj, hq, htrunc, hfail, rfl, fun r hr => .inl ?_⟩
      simpa [outstanding, hj, hq] using hr
    · refine ⟨_, drains_complete hj, rfl, hq, htrunc, hfail, rfl, fun r hr => ?_⟩
      simp only [outstanding, hj, hq, List.nil_append, List.mem_append] at hr
      rcases hr with hr | hr
      · exact .inl hr
      · exact .inr (List.mem_append_right _ (List.mem_map.mpr ⟨r, hr, rfl⟩))

end WalThreads

end ConcurrentKV
