import ConcurrentKV.WalWriting

/-! The requests of a shared log: a request leaves only with an outcome, and without
failures the outcomes come in file order. -/
namespace ConcurrentKV
open ByteCodec OpLog Transition

namespace WalThreads

/-- Requests of the current batch whose frames are not in the file yet. -/
def unwritten (s : WalThreads) : List Request :=
  match s.job with
  | some ⟨batch, .taken⟩ | some ⟨batch, .header⟩ | some ⟨batch, .frames _⟩ => batch
  | _ => []

/-- Requests whose frame is made and not written. -/
def awaiting (s : WalThreads) : List Request := s.prepared ++ (s.queue ++ s.unwritten)

/-- Requests of the current batch whose frames are in the file and that are not completed. -/
def uncompleted (s : WalThreads) : List Request :=
  match s.job with
  | some ⟨batch, .flushed⟩ | some ⟨batch, .synced⟩ | some ⟨batch, .completing _⟩ => batch
  | _ => []

/-- The successful outcomes, oldest first. -/
def acknowledged (s : WalThreads) : List ℕ :=
  (s.results.filter (fun r => r.2.isNone)).map Prod.fst

/-- The acknowledged requests, in file order. -/
def acked (s : WalThreads) : List Request := s.history.filter (fun r => (r.id, none) ∈ s.results)

variable {host : ByteOrder} {s t : WalThreads}

theorem mem_acknowledged {id : ℕ} : id ∈ s.acknowledged ↔ (id, none) ∈ s.results := by
  simp [acknowledged]

/-- Only `prepare` brings in a request. -/
theorem step_outstanding {l : WalLabel} (hstep : s.step host l = some t) :
    ∀ r ∈ t.outstanding, r ∈ s.outstanding ∨ (l = .prepare r.op ∧ r.id = s.nextId) := by
  have hfail (wal : WriteAheadLog) {batch : List Request} {phase : Phase} (e : WalError)
      (hjob : s.job = some ⟨batch, phase⟩) :
      ∀ r ∈ (failJob { s with wal := wal } batch e).outstanding, r ∈ s.outstanding := by
    intro r hr
    unfold failJob at hr
    split at hr
    · simpa [outstanding, hjob] using hr
    · simp only [outstanding, hjob, List.mem_append, List.append_nil] at hr ⊢
      tauto
  have hdone (hist : List ℕ) {batch : List Request} {phase : Phase}
      (hjob : s.job = some ⟨batch, phase⟩) :
      ∀ r ∈ (finishJob { s with batchHistogram := hist } batch).outstanding, r ∈ s.outstanding := by
    intro r hr
    unfold finishJob at hr
    split at hr
    · simpa [outstanding, hjob] using hr
    · simp only [outstanding, hjob, List.mem_append, List.append_nil] at hr ⊢
      tauto
  intro r hr
  cases steps_of_step hstep with
  | prepareError op e => exact .inl hr
  | prepare op frame =>
    simp only [outstanding, List.mem_append, List.mem_singleton] at hr ⊢
    rcases hr with (hr | rfl) | hr
    · exact .inl (.inl hr)
    · exact .inr ⟨rfl, rfl⟩
    · exact .inl (.inr hr)
  | refuse id x e hx =>
    refine .inl ?_
    simp only [outstanding, List.mem_append] at hr ⊢
    rcases hr with hr | hr
    · exact .inl (List.mem_of_mem_erase hr)
    · exact .inr hr
  | enqueue id x hx =>
    refine .inl ?_
    simp only [outstanding, List.mem_append, List.mem_singleton] at hr ⊢
    rcases hr with hr | (hr | rfl) | hr
    · exact .inl (List.mem_of_mem_erase hr)
    · exact .inr (.inl hr)
    · exact .inl hx
    · exact .inr (.inr hr)
  | enter id x hx hpol hio hjob =>
    refine .inl ?_
    simp only [outstanding, hjob, List.mem_append, List.mem_singleton] at hr ⊢
    rcases hr with hr | hr | rfl
    · exact .inl (List.mem_of_mem_erase hr)
    · exact .inr (.inl hr)
    · exact .inl hx
  | cut hpol hjob =>
    refine .inl ?_
    have hparts := cutBatch_append s.wal.maxBatch s.queue [] 0
    rw [List.nil_append] at hparts
    simp only [outstanding, hjob, List.mem_append] at hr ⊢
    rcases hr with hr | hr | hr
    · exact .inl hr
    · exact .inr (.inl (hparts ▸ List.mem_append_right _ hr))
    · exact .inr (.inl (hparts ▸ List.mem_append_left _ hr))
  | lockIo batch hjob | writeHeader batch _ _ hjob | writeFrames batch _ hjob | sync batch hjob =>
    exact .inl (by simpa [outstanding, hjob] using hr)
  | exhausted batch e hjob => exact .inl (hfail _ e hjob r hr)
  | failWrite n e batch phase torn hjob => exact .inl (hfail _ e hjob r hr)
  | finishBuffered batch hjob => exact .inl (hdone _ hjob r hr)
  | finish batch hjob => exact .inl (hdone _ hjob r hr)
  | complete x batch error hjob =>
    refine .inl ?_
    simp only [outstanding, hjob, List.mem_append, List.mem_cons] at hr ⊢
    tauto
  | next error hjob =>
    refine .inl ?_
    simpa [outstanding, hjob] using hr
  | drain batch e hjob =>
    refine .inl ?_
    simp only [outstanding, hjob, List.mem_append, List.nil_append] at hr ⊢
    tauto
  | stop | exit | clear | clearSync | truncateTo | resetStats => exact .inl hr

/-- Outcomes stay. -/
theorem step_results {l : WalLabel} (hstep : s.step host l = some t) : s.results <+: t.results := by
  have hfail (wal : WriteAheadLog) (batch : List Request) (e : WalError) :
      s.results <+: (failJob { s with wal := wal } batch e).results := by
    unfold failJob
    split
    · exact List.prefix_rfl
    · exact List.prefix_append _ _
  have hdone (hist : List ℕ) (batch : List Request) :
      s.results <+: (finishJob { s with batchHistogram := hist } batch).results := by
    unfold finishJob
    split
    · exact List.prefix_rfl
    · exact List.prefix_append _ _
  cases steps_of_step hstep with
  | exhausted batch e => exact hfail _ batch e
  | failWrite n e batch => exact hfail _ batch e
  | finishBuffered batch => exact hdone _ batch
  | finish batch => exact hdone _ batch
  | prepareError | refuse | complete => exact List.prefix_append _ _
  | _ => exact List.prefix_rfl

theorem step_nextId {l : WalLabel} (hstep : s.step host l = some t) :
    t.nextId = s.nextId ∨ (t.nextId = s.nextId+1 ∧ ∃ op, l = .prepare op) := by
  cases steps_of_step hstep with
  | prepareError op => exact .inr ⟨rfl, op, rfl⟩
  | prepare op => exact .inr ⟨rfl, op, rfl⟩
  | exhausted batch e => exact .inl (failJob_nextId batch e)
  | failWrite n e batch => exact .inl (failJob_nextId batch e)
  | finishBuffered batch => exact .inl (finishJob_nextId batch)
  | finish batch => exact .inl (finishJob_nextId batch)
  | _ => exact .inl rfl

/-- What is written was outstanding. -/
theorem step_history {l : WalLabel} (hstep : s.step host l = some t) :
    ∃ new, t.history = s.history ++ new ∧ ∀ r ∈ new, r ∈ s.outstanding := by
  have hfail (wal : WriteAheadLog) (batch : List Request) (e : WalError) :
      (failJob { s with wal := wal } batch e).history = s.history := by
    unfold failJob
    split <;> rfl
  have hdone (hist : List ℕ) (batch : List Request) :
      (finishJob { s with batchHistogram := hist } batch).history = s.history := by
    unfold finishJob
    split <;> rfl
  have hsame (he : t.history = s.history) :
      ∃ new, t.history = s.history ++ new ∧ ∀ r ∈ new, r ∈ s.outstanding :=
    ⟨[], by simpa using he, by simp⟩
  cases steps_of_step hstep with
  | writeFrames batch bytes hjob => exact ⟨batch, rfl, fun r hr => by simp [outstanding, hjob, hr]⟩
  | exhausted batch e => exact hsame (hfail _ batch e)
  | failWrite n e batch => exact hsame (hfail _ batch e)
  | finishBuffered batch => exact hsame (hdone _ batch)
  | finish batch => exact hsame (hdone _ batch)
  | _ => exact hsame rfl

theorem prepare_history {op : WalRecord} (hstep : s.step host (.prepare op) = some t) :
    t.history = s.history := by
  cases steps_of_step hstep with
  | prepareError => rfl
  | prepare => rfl

theorem prepare_acknowledged {op : WalRecord} (hstep : s.step host (.prepare op) = some t) :
    t.acknowledged = s.acknowledged := by
  cases steps_of_step hstep with
  | prepareError => simp [acknowledged]
  | prepare => rfl

/-- Appends leave a truncation in progress alone. -/
theorem append_truncating {l : WalLabel} (hl : l.isAppend = true)
    (hstep : s.step host l = some t) : t.truncating = s.truncating := by
  cases steps_of_step hstep with
  | exhausted batch e => exact failJob_truncating batch e
  | finishBuffered batch => exact finishJob_truncating batch
  | finish batch => exact finishJob_truncating batch
  | failWrite | clear | clearSync | truncateTo => cases hl
  | _ => rfl

/-! ### What the uniqueness of the ids gives -/

variable (h : s.ids.Perm (List.range s.nextId))

include h

theorem id_lt_of_outstanding {r : Request} (hr : r ∈ s.outstanding) : r.id < s.nextId := by
  have hmem : r.id ∈ s.ids := List.mem_append_right _ (List.mem_map_of_mem hr)
  exact List.mem_range.mp (h.mem_iff.mp hmem)

theorem id_lt_of_result {id : ℕ} {e : Option WalError} (hr : (id,e) ∈ s.results) :
    id < s.nextId := by
  have hmem : id ∈ s.ids := List.mem_append_left _ (List.mem_map.mpr ⟨_,hr,rfl⟩)
  exact List.mem_range.mp (h.mem_iff.mp hmem)

/-- A request has no outcome while it is outstanding. -/
theorem no_result_of_outstanding {r : Request} (hr : r ∈ s.outstanding) {e : Option WalError} :
    (r.id, e) ∉ s.results := by
  intro hres
  have hnodup : s.ids.Nodup := h.nodup_iff.mpr List.nodup_range
  exact List.disjoint_of_nodup_append hnodup (List.mem_map.mpr ⟨_,hres,rfl⟩)
    (List.mem_map_of_mem hr)

theorem result_unique {id : ℕ} {e e' : Option WalError} (hr : (id,e) ∈ s.results)
    (hr' : (id,e') ∈ s.results) : e = e' := by
  have hnodup : s.ids.Nodup := h.nodup_iff.mpr List.nodup_range
  have hsame := List.inj_on_of_nodup_map (List.Nodup.of_append_left hnodup) hr hr' rfl
  exact (Prod.mk.inj hsame).2

theorem outstanding_unique {r r' : Request} (hr : r ∈ s.outstanding) (hr' : r' ∈ s.outstanding)
    (hid : r.id = r'.id) : r = r' := by
  have hnodup : s.ids.Nodup := h.nodup_iff.mpr List.nodup_range
  exact List.inj_on_of_nodup_map (List.Nodup.of_append_right hnodup) hr hr' hid

/-- A request stays outstanding until it has an outcome. -/
theorem step_pending {l : WalLabel} (hstep : s.step host l = some t) {r : Request}
    (hr : r ∈ s.outstanding) : (∃ e, (r.id, e) ∈ t.results) ∨ r ∈ t.outstanding := by
  have hlt := id_lt_of_outstanding h hr
  have hmem : r.id ∈ t.ids := by
    refine (step_ids h hstep).mem_iff.mpr (List.mem_range.mpr ?_)
    rcases step_nextId hstep with he | ⟨he,-⟩ <;> omega
  rcases List.mem_append.mp hmem with hmem | hmem
  · obtain ⟨⟨id,e⟩,hres,rfl⟩ := List.mem_map.mp hmem
    exact .inl ⟨e, hres⟩
  · -- the outstanding request with this id is the same one, since it is not a new one
    obtain ⟨r',hr',hid⟩ := List.mem_map.mp hmem
    rcases step_outstanding hstep r' hr' with hold | ⟨-,hnew⟩
    · rw [outstanding_unique h hr hold hid.symm]
      exact .inr hr'
    · omega

omit h

/-! ### File order -/

/-- The acknowledged requests are the first ones in the file; those of the current batch
that are written follow them. -/
def AckOrder (s : WalThreads) : Prop :=
  ∃ done, s.history = done ++ s.uncompleted ∧ s.acknowledged = done.map Request.id

theorem ackOrder_start (wal : WriteAheadLog) : AckOrder (start wal) := ⟨[], rfl, rfl⟩

/-- An id in the file is acknowledged or still to be completed. -/
theorem AckOrder.mem_iff (hack : AckOrder s) (id : ℕ) :
    id ∈ s.history.map Request.id ↔ id ∈ s.acknowledged ∨ id ∈ s.uncompleted.map Request.id := by
  obtain ⟨done,hdone,hids⟩ := hack
  rw [hdone, hids, List.map_append, List.mem_append]

theorem uncompleted_subset : ∀ r ∈ s.uncompleted, r ∈ s.outstanding := by
  intro r hr
  unfold uncompleted at hr
  unfold outstanding
  split at hr
  · rename_i hjob
    simp [hjob, hr]
  · rename_i hjob
    simp [hjob, hr]
  · rename_i hjob
    simp [hjob, hr]
  · cases hr

theorem AckOrder.history_eq (hack : AckOrder s) (h : s.ids.Perm (List.range s.nextId)) :
    s.history = s.acked ++ s.uncompleted := by
  obtain ⟨done,hdone,hids⟩ := hack
  have hall : done.filter (fun r => (r.id, none) ∈ s.results) = done := by
    rw [List.filter_eq_self]
    intro r hr
    refine decide_eq_true (mem_acknowledged.mp ?_)
    rw [hids]
    exact List.mem_map_of_mem hr
  have hnone : s.uncompleted.filter (fun r => (r.id, none) ∈ s.results) = [] := by
    rw [List.filter_eq_nil_iff]
    intro r hr hres
    exact no_result_of_outstanding h (uncompleted_subset r hr) (of_decide_eq_true hres)
  have hacked : s.acked = done := by
    rw [acked, hdone, List.filter_append, hall, hnone, List.append_nil]
  rw [hacked]
  exact hdone

theorem AckOrder.lt_nextId (hack : AckOrder s) (h : s.ids.Perm (List.range s.nextId)) {id : ℕ}
    (hid : id ∈ s.history.map Request.id) : id < s.nextId := by
  rcases (hack.mem_iff id).mp hid with hid | hid
  · exact id_lt_of_result h (mem_acknowledged.mp hid)
  · obtain ⟨r,hr,rfl⟩ := List.mem_map.mp hid
    exact id_lt_of_outstanding h (uncompleted_subset r hr)

/-- A request that failed is not in the file. -/
theorem AckOrder.not_mem_of_failed (hack : AckOrder s) (h : s.ids.Perm (List.range s.nextId))
    {id : ℕ} {e : WalError} (hres : (id, some e) ∈ s.results) : id ∉ s.history.map Request.id := by
  intro hid
  rcases (hack.mem_iff id).mp hid with hid | hid
  · have := result_unique h hres (mem_acknowledged.mp hid)
    cases this
  · obtain ⟨r,hr,rfl⟩ := List.mem_map.mp hid
    exact no_result_of_outstanding h (uncompleted_subset r hr) hres

/-- One step of a log whose batch is not failed, under any label: it makes the batch fail, or
each request in the file is still acknowledged in file order. -/
theorem ack_step {l : WalLabel} (hfailing : ∀ batch e, s.job ≠ some ⟨batch, .failing e⟩)
    (hfailed : ∀ batch e, s.job ≠ some ⟨batch, .completing (some e)⟩) {done : List Request}
    (hdone : s.history = done ++ s.uncompleted) (hids : s.acknowledged = done.map Request.id)
    (hstep : s.step host l = some t) :
    (∃ u batch e, t = failJob u batch e) ∨
    ∃ new, (∀ r ∈ new, r ∈ s.outstanding) ∧ t.history = done ++ new ++ t.uncompleted ∧
      t.acknowledged = (done ++ new).map Request.id := by
  -- most steps acknowledge nothing
  have hkeep {u : WalThreads} (hhist : u.history = done ++ u.uncompleted)
      (hack : u.acknowledged = done.map Request.id) :
      ∃ new, (∀ r ∈ new, r ∈ s.outstanding) ∧ u.history = done ++ new ++ u.uncompleted ∧
        u.acknowledged = (done ++ new).map Request.id :=
    ⟨[], by simp, by simpa using hhist, by simpa using hack⟩
  have hfin (hist : List ℕ) {batch : List Request} {phase : Phase}
      (hjob : s.job = some ⟨batch, phase⟩) (hhist : s.history = done ++ batch) :
      ∃ new, (∀ r ∈ new, r ∈ s.outstanding) ∧
        (finishJob { s with batchHistogram := hist } batch).history =
          done ++ new ++ (finishJob { s with batchHistogram := hist } batch).uncompleted ∧
        (finishJob { s with batchHistogram := hist } batch).acknowledged =
          (done ++ new).map Request.id := by
    unfold finishJob
    split
    · exact hkeep hhist hids
    · refine ⟨batch, ?_, ?_, ?_⟩
      · intro r hr
        simp [outstanding, hjob, hr]
      · simpa [uncompleted] using hhist
      · simp only [acknowledged] at hids
        simp [acknowledged, hids, List.filter_map, Function.comp_def]
  unfold uncompleted at hdone
  cases steps_of_step hstep with
  | prepareError | refuse => exact .inr (hkeep hdone (by simpa [acknowledged] using hids))
  | prepare | enqueue => exact .inr (hkeep hdone hids)
  | enter id r hr hpol hio hjob | cut hpol hjob =>
    rw [hjob] at hdone
    exact .inr (hkeep hdone hids)
  | lockIo batch hjob | writeHeader batch _ _ hjob | sync batch hjob | next error hjob =>
    rw [hjob] at hdone
    exact .inr (hkeep hdone hids)
  | exhausted batch e => exact .inl ⟨_, batch, e, rfl⟩
  | writeFrames batch bytes hjob =>
    rw [hjob] at hdone
    refine .inr (hkeep ?_ hids)
    rw [hdone, List.append_nil]
    rfl
  | finishBuffered batch hjob =>
    rw [hjob] at hdone
    exact .inr (hfin _ hjob hdone)
  | finish batch hjob =>
    rw [hjob] at hdone
    exact .inr (hfin _ hjob hdone)
  | complete r batch error hjob =>
    cases error with
    | some e => exact absurd hjob (hfailed _ e)
    | none =>
      rw [hjob] at hdone
      refine .inr ⟨[r], ?_, ?_, ?_⟩
      · simp [outstanding, hjob]
      · rw [hdone, List.append_assoc]
        rfl
      · simpa [acknowledged] using hids
  | failWrite n e batch => exact .inl ⟨_, batch, e, rfl⟩
  | drain batch e hjob => exact absurd hjob (hfailing batch e)
  | stop | exit | clear | clearSync | truncateTo | resetStats => exact .inr (hkeep hdone hids)

/-- A truncation moves no request. -/
theorem AckOrder.truncation {l : WalLabel} (hack : AckOrder s) (hl : l = .clear ∨ l = .clearSync)
    (hstep : s.step host l = some t) : AckOrder t ∧ t.history = s.history := by
  rcases hl with rfl | rfl
  · cases steps_of_step hstep
    exact ⟨hack, rfl⟩
  · cases steps_of_step hstep
    exact ⟨hack, rfl⟩

/-- A log that is not failing has no failed batch. -/
theorem not_failJob {ops : List WalRecord} {batch : List Request} {e : WalError}
    (h : LogInv host (s.failJob batch e) ops) : False := by
  have hw := h.writing
  unfold failJob at hw
  split at hw
  · exact hw
  · have hnone := hw.inv.noFailure
    cases hnone

/-- Without failures every batch is completed before the next one is written. -/
theorem AckOrder.step {ops : List WalRecord} {l : WalLabel} (hack : AckOrder s)
    (hlog : LogInv host s ops) (hl : l.isAppend = true) (hstep : s.step host l = some t) :
    AckOrder t := by
  have hw := hlog.writing
  obtain ⟨done,hdone,hids⟩ := hack
  have hfailing (batch : List Request) (e : WalError) : s.job ≠ some ⟨batch, .failing e⟩ := by
    intro hjob
    rw [Writing, hjob] at hw
    exact hw
  have hfailed (batch : List Request) (e : WalError) :
      s.job ≠ some ⟨batch, .completing (some e)⟩ := by
    intro hjob
    rw [Writing, hjob] at hw
    exact hw
  obtain ⟨new,-,hlog',-⟩ := hlog.step hl hstep
  rcases ack_step hfailing hfailed hdone hids hstep with ⟨u,batch,e,rfl⟩ | ⟨new,-,hhist,hack⟩
  · exact (not_failJob hlog').elim
  · exact ⟨done ++ new, hhist, hack⟩

end WalThreads

/-! ### Truncations -/

namespace LogInv

variable {host : ByteOrder} {s t : WalThreads} {ops : List WalRecord}

/-- `Clear` puts the log on an empty file. The frames still to be written are good for it if
they are in the format it changes to. -/
theorem clear (h : LogInv host s ops) (hfmt : s.wal.portable = true ∨ s.awaiting = [])
    (hstep : s.step host .clear = some t) : LogInv host t [] := by
  have hframes : ∀ r ∈ s.awaiting, Prepared host s.wal.portable r → Prepared host true r := by
    intro r hr hprep
    rcases hfmt with hp | hnone
    · rwa [hp] at hprep
    · rw [hnone] at hr
      cases hr
  obtain ⟨hw,hwait,hq,hmax,hroom⟩ := h
  cases WalThreads.steps_of_step hstep with
  | clear hio hgen =>
    have hrest (hinv : WalInv host s.wal ops) :
        AtRest host s.wal.cleared 0 [] ∧ s.wal.cleared.appendCheck = .ok () :=
      ⟨⟨(hinv.cleared hgen).2, fun _ => rfl⟩, (hinv.cleared hgen).1⟩
    have hall : ∀ r ∈ s.prepared ++ s.queue, Prepared host true r := by
      intro r hr
      refine hframes r ?_ (hwait r hr)
      rw [WalThreads.awaiting, ← List.append_assoc]
      exact List.mem_append_left _ hr
    -- `io_mutex_` is free, so no batch is inside its critical section
    have hphase (job : Job) (hjob : s.job = some job) : job.phase.holdsIo = false := by
      simp only [WalThreads.ioFree, hjob, Bool.and_eq_true] at hio
      simpa using hio.2
    unfold Writing at hw
    rcases hj : s.job with _ | ⟨batch,phase⟩
    · rw [hj] at hw
      obtain ⟨hrest',hadm⟩ := hrest hw.inv
      exact ⟨hrest', hall, fun _ => hadm, hmax, Nat.zero_le _⟩
    rw [hj] at hw
    have hfree := hphase _ hj
    cases phase with
    | taken =>
      obtain ⟨hrest',hadm⟩ := hrest hw.rest.inv
      refine ⟨⟨hrest', hadm, hw.limits, fun r hr => hframes r ?_ (hw.prepared r hr)⟩, hall,
        fun _ => hadm, hmax, Nat.zero_le _⟩
      simp [WalThreads.awaiting, WalThreads.unwritten, hj, hr]
    | header | frames | flushed | synced => cases hfree
    | failing e => exact hw.elim
    | completing error =>
      cases error with
      | some e => exact hw.elim
      | none =>
        obtain ⟨hrest',hadm⟩ := hrest hw.1.inv
        exact ⟨⟨hrest',hadm⟩, hall, fun _ => hadm, hmax, Nat.zero_le _⟩

theorem clearSync (h : LogInv host s ops) (hstep : s.step host .clearSync = some t) :
    LogInv host t ops := by
  obtain ⟨hw,hwait,hq,hmax,hroom⟩ := h
  cases WalThreads.steps_of_step hstep with
  | clearSync => exact ⟨hw,hwait,hq,hmax,hroom⟩

end LogInv

end ConcurrentKV
