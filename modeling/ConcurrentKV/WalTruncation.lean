import ConcurrentKV.WalResume
import ConcurrentKV.Transition

/-! `TruncateTo` at every offset. The stream is closed before the offset is compared with the
file's size, the file is cut before what is left of it is read, and a v2 file is not read at
all: which offsets are safe depends on the object's format and on what it would still append. -/
namespace ConcurrentKV
open ByteCodec OpLog Transition

namespace WriteAheadLog

variable (host : ByteOrder) (wal : WriteAheadLog)

/-- Whether an append of the record would return. -/
def acknowledges (op : WalRecord) : Bool := (wal.append host op).1.toBool

/-- Neither the checks under the lock nor the sequence number stop an append. -/
def admits : Prop :=
  wal.appendCheck = .ok () ∧ (wal.legacyV2 = false → wal.nextSequence ≠ kMaxUint64)

instance : Decidable wal.admits := inferInstanceAs (Decidable (_ ∧ _))

/-- Appends one after the other, with those that were acknowledged. -/
def appendAll (wal : WriteAheadLog) : List WalRecord → WriteAheadLog × List WalRecord
  | [] => (wal, [])
  | op :: ops =>
    let rest := appendAll (wal.append host op).2 ops
    (rest.1, if wal.acknowledges host op then op :: rest.2 else rest.2)

theorem acknowledges_of_append {op : WalRecord} {answer : Except WalError Unit}
    {wal' : WriteAheadLog} (h : wal.append host op = (answer, wal')) :
    wal.acknowledges host op = answer.toBool := by
  rw [acknowledges, h]

theorem acknowledges_iff (op : WalRecord) (h64 : wal.nextSequence ≤ kMaxUint64) :
    wal.acknowledges host op = true ↔
      wal.admits ∧ wal.outputOpen = true ∧ RecordOk wal.portable op := by
  by_cases hok : RecordOk wal.portable op
  swap
  · obtain ⟨e,he⟩ := wal.append_of_oversized host hok
    rw [wal.acknowledges_of_append host he]
    simp [hok, Except.toBool]
  cases hopen : wal.outputOpen with
  | false =>
    obtain ⟨e,wal',he⟩ := wal.append_of_closed host op hopen
    rw [wal.acknowledges_of_append host he]
    simp [Except.toBool]
  | true =>
    cases hadm : wal.appendCheck with
    | error e =>
      obtain ⟨e',he⟩ := @append_of_refused host wal op e hadm
      rw [wal.acknowledges_of_append host he]
      simp [admits, hadm, Except.toBool]
    | ok =>
      by_cases hmax : wal.legacyV2 = false ∧ wal.nextSequence = kMaxUint64
      · rw [wal.acknowledges_of_append host
          (wal.append_of_exhausted host hadm hok hmax.1 hmax.2 (.inr hopen))]
        simp [admits, hmax, Except.toBool]
      · have hseq : wal.portable = true → wal.nextSequence < kMaxUint64 := by
          intro hp
          have hv2 : wal.legacyV2 = false := by simpa [portable] using hp
          have : wal.nextSequence ≠ kMaxUint64 := fun h => hmax ⟨hv2,h⟩
          omega
        rw [wal.acknowledges_of_append host (wal.append_of_ok host hadm hopen hok hseq)]
        simp only [Except.toBool, admits, hadm, hok, true_and, and_true, true_iff]
        exact fun hv2 h => hmax ⟨hv2,h⟩

theorem acknowledges_of_not_admits (op : WalRecord) (h64 : wal.nextSequence ≤ kMaxUint64)
    (h : ¬wal.admits) : wal.acknowledges host op = false := by
  rw [← Bool.not_eq_true, wal.acknowledges_iff host op h64]
  exact fun hack => h hack.1

end WriteAheadLog

/-! ### Appends behind a truncation -/

/-- An object in step with its file, whose stream is open unless nothing would be appended
anyway. -/
structure TruncInv (host : ByteOrder) (wal : WriteAheadLog) (ops : List WalRecord) : Prop where
  noFailure : wal.failure = none
  agree : FieldsAgree host wal ops
  opened : wal.admits → wal.outputOpen = true
  room : wal.legacyV2 = false → ops.length < kMaxUint64

namespace TruncInv

variable {host : ByteOrder} {wal : WriteAheadLog} {ops : List WalRecord}

theorem sequence_le (h : TruncInv host wal ops) : wal.nextSequence ≤ kMaxUint64 := by
  have hroom := h.room
  simp only [kMaxUint64] at hroom ⊢
  cases h.agree with
  | fresh _ _ _ _ _ hseq => omega
  | v3 _ _ _ hv2 _ _ _ hseq =>
    have := hroom hv2
    omega
  | v2 _ _ _ _ _ _ _ _ hseq => omega
  | badHeader _ _ _ _ _ _ _ hseq => omega

/-- Numbers are used up only behind a header that is written. -/
theorem pending_of_exhausted (h : TruncInv host wal ops)
    (hseq : wal.nextSequence = kMaxUint64) : wal.headerPending = false := by
  cases h.agree with
  | fresh _ _ _ _ _ h1 =>
    rw [h1] at hseq
    cases hseq
  | v3 _ _ _ _ hpend => exact hpend
  | v2 _ _ _ _ _ hpend => exact hpend
  | badHeader _ _ _ _ hpend => exact hpend

/-- An append is acknowledged and extends the log, or leaves the file as it is. -/
theorem append (h : TruncInv host wal ops) (op : WalRecord) :
    (wal.acknowledges host op = true ∧ TruncInv host (wal.append host op).2 (ops ++ [op])) ∨
    (wal.acknowledges host op = false ∧ (wal.append host op).2.file = wal.file ∧
      ((wal.append host op).2 = wal ∨ ∃ e, (wal.append host op).2.failure = some e)) := by
  by_cases hack : wal.acknowledges host op = true
  · obtain ⟨⟨hadm,hnum⟩,hopen,hok⟩ := (wal.acknowledges_iff host op h.sequence_le).mp hack
    have hinv : WalInv host wal ops := ⟨hopen, h.noFailure, h.agree⟩
    have hseq := h.sequence_le
    have hfew (hv2 : wal.legacyV2 = false) : ops.length+1 < kMaxUint64 := by
      have hne := hnum hv2
      cases h.agree with
      | fresh | badHeader => simp [kMaxUint64]
      | v3 _ _ _ _ _ _ _ hnext => omega
      | v2 _ _ _ _ hv2' =>
        rw [hv2] at hv2'
        cases hv2'
    have hv2 (hp : wal.portable = true) : wal.legacyV2 = false := by
      simpa [WriteAheadLog.portable] using hp
    refine .inl ⟨hack, ?_⟩
    rw [wal.append_of_ok host hadm hopen hok (fun hp => lt_of_le_of_ne hseq (hnum (hv2 hp)))]
    have hnew := @WalInv.appended host wal ops hinv hadm [op] (by simpa using hok) (fun hp => by
      have := hfew (hv2 hp)
      simp only [kMaxUint64] at this
      simp only [List.length_singleton]
      omega)
    refine ⟨hnew.noFailure, hnew.agree, fun _ => hopen, fun hl => ?_⟩
    rw [List.length_append]
    exact hfew hl
  refine .inr ⟨by simpa using hack, ?_⟩
  by_cases hok : RecordOk wal.portable op
  swap
  · obtain ⟨e,he⟩ := wal.append_of_oversized host hok
    rw [he]
    exact ⟨rfl, .inl rfl⟩
  cases hadm : wal.appendCheck with
  | error e =>
    obtain ⟨e',he⟩ := @WriteAheadLog.append_of_refused host wal op e hadm
    rw [he]
    exact ⟨rfl, .inl rfl⟩
  | ok =>
    -- the stream is closed only when the numbers are used up, so they are
    obtain ⟨hv2,hseq⟩ : wal.legacyV2 = false ∧ wal.nextSequence = kMaxUint64 := by
      by_contra hno
      have hadmits : wal.admits := ⟨hadm, fun hv2 hseq => hno ⟨hv2,hseq⟩⟩
      exact hack ((wal.acknowledges_iff host op h.sequence_le).mpr ⟨hadmits, h.opened hadmits, hok⟩)
    have hpend := h.pending_of_exhausted hseq
    rw [wal.append_of_exhausted host hadm hok hv2 hseq (.inl hpend)]
    refine ⟨?_, .inr ⟨_, rfl⟩⟩
    simp [WriteAheadLog.ensureHeaderLocked, hpend, WriteAheadLog.failWith]

/-- Nothing is appended to an object that has failed. -/
theorem appendAll_of_failed {e : WalError} (h : wal.failure = some e) (new : List WalRecord) :
    wal.appendAll host new = (wal, []) := by
  have hadm : wal.appendCheck = .error e := by simp [WriteAheadLog.appendCheck, h]
  induction new with
  | nil => rfl
  | cons op new ih =>
    obtain ⟨e',he⟩ := @WriteAheadLog.append_of_refused host wal op e hadm
    rw [WriteAheadLog.appendAll, wal.acknowledges_of_append host he, he, ih]
    rfl

/-- Whatever is acknowledged stands behind what the file held. -/
theorem appendAll (h : TruncInv host wal ops) (new : List WalRecord) :
    FileShape host (wal.appendAll host new).1.file (ops ++ (wal.appendAll host new).2) := by
  induction new generalizing wal ops with
  | nil => simpa [WriteAheadLog.appendAll] using h.agree.fileShape
  | cons op new ih =>
    rw [WriteAheadLog.appendAll]
    rcases h.append op with ⟨hack,hnext⟩ | ⟨hack,hfile,hsame | ⟨e,he⟩⟩
    · simpa [hack] using ih hnext
    · simpa [hack, hsame] using ih h
    · simpa [hack, appendAll_of_failed he, hfile] using h.agree.fileShape

end TruncInv

/-! ### Cutting the file -/

/-- The condition under which a truncation is safe. Up to the end of the file, the bytes that
stay have to be a well-formed log; a v3 object refuses a whole file that is none without
changing it. Past the end nothing may be left to append. -/
def TruncationFits (host : ByteOrder) (wal : WriteAheadLog) (offset : ℕ) : Prop :=
  if wal.file.length < offset then ¬wal.admits
  else (∃ ops, WellFormedLog host (wal.file.take offset) ops) ∨
    (wal.legacyV2 = false ∧ offset = wal.file.length)

section Cuts

variable {host : ByteOrder} {wal : WriteAheadLog} {ops ops' : List WalRecord} {p : Bytes}

/-- The stream is not one of the fields that describe the file. -/
theorem FieldsAgree.stream (h : FieldsAgree host wal ops) (x : Bool) :
    FieldsAgree host { wal with outputOpen := x } ops := by
  cases h with
  | fresh hfile hv2 hpend hvalid hrec hseq hg hg64 =>
    exact .fresh hfile hv2 hpend hvalid hrec hseq hg hg64
  | v3 _ tail hfile hv2 hpend hvalid hrec hseq hg hg64 hok hn hstop =>
    exact .v3 ops tail hfile hv2 hpend hvalid hrec hseq hg hg64 hok hn hstop
  | v2 _ tail hfile hm hv2 hpend hvalid hrec hseq hg hok hstop =>
    exact .v2 ops tail hfile hm hv2 hpend hvalid hrec hseq hg hok hstop
  | badHeader hne hm hh hv2 hpend hvalid hrec hseq hg =>
    exact .badHeader hne hm hh hv2 hpend hvalid hrec hseq hg

/-- A v2 file that is cut to a well-formed log. -/
theorem FieldsAgree.cut_v2 (h : FieldsAgree host wal ops) (hv2 : wal.legacyV2 = true)
    (hlog : WellFormedLog host p ops') (hpre : p <+: wal.file) :
    FieldsAgree host { wal with file := p, outputOpen := true, needsRecovery := false } ops' := by
  cases h with
  | fresh _ hv2' | v3 _ _ _ hv2' | badHeader _ _ _ hv2' =>
    rw [hv2] at hv2'
    cases hv2'
  | v2 _ tail hfile hm _ hpend hvalid _ hseq hg =>
    have hnov3 (hne : p ≠ []) : magicPrefix wal.file = false :=
      hm fun he => hne (List.prefix_nil.mp (he ▸ hpre))
    cases hlog with
    | empty =>
      exact .v2 [] [] rfl (fun hne => absurd rfl hne) hv2 hpend hvalid (by simp) hseq hg (by simp)
        (noFrame_nil host false _)
    | v3 g _ hg' hg64 =>
      have hhead := (List.prefix_append (makeHeader g) (framesFrom host true 1 ops')).trans hpre
      have hm' := hnov3 (by simp [makeHeader_eq, headerBody, kWalMagic])
      rw [magicPrefix_of_header hhead] at hm'
      cases hm'
    | v2 _ hne hok =>
      exact .v2 ops' [] (by simp) (fun _ => wellFormed_v2_frame hne hok List.prefix_rfl) hv2 hpend
        hvalid (by simp) hseq hg hok (noFrame_nil host false _)

/-- A v3 file that is cut to a well-formed log keeps its header and some of its frames. -/
theorem FieldsAgree.cut_v3 (h : FieldsAgree host wal ops) (hv2 : wal.legacyV2 = false)
    (hlog : WellFormedLog host p ops') (hpre : p <+: wal.file) (hne : p ≠ []) :
    p = makeHeader wal.generation ++ framesFrom host true 1 ops' ∧ ops' <+: ops ∧
      FieldsAgree host { wal with
        file := p
        outputOpen := true
        nextSequence := ops'.length+1
        needsRecovery := false } ops' := by
  have hneed : wal.file ≠ [] := by
    intro he
    exact hne (List.prefix_nil.mp (he ▸ hpre))
  cases h with
  | fresh hfile => exact absurd hfile hneed
  | v2 _ _ _ _ hv2' =>
    rw [hv2] at hv2'
    cases hv2'
  | badHeader _ hm hh =>
    cases hlog with
    | empty => exact absurd rfl hne
    | v3 g _ hg hg64 =>
      rw [(parseHeader_fst_iff _).mpr ⟨g, hg, hg64, (List.prefix_append _ _).trans hpre⟩] at hh
      cases hh
    | v2 _ hops hok =>
      rw [wellFormed_v2_frame hops hok hpre] at hm
      cases hm
  | v3 _ tail hfile _ hpend hvalid _ _ hg hg64 hok _ hstop =>
    cases hlog with
    | empty => exact absurd rfl hne
    | v2 _ hops hok' =>
      have hm := wellFormed_v2_frame hops hok' hpre
      rw [hfile, magicPrefix_of_header (List.prefix_append _ _)] at hm
      cases hm
    | v3 g _ hg' hg64' hok' hn' =>
      rw [hfile] at hpre
      obtain rfl := header_prefix_unique hg hg64 hg' hg64' (List.prefix_append _ _)
        ((List.prefix_append _ _).trans hpre)
      obtain ⟨rest,hrest⟩ := (List.prefix_append_right_inj _).mp hpre
      refine ⟨rfl, framesFrom_prefix hok hok' (fun _ => by omega) hstop hrest.symm, ?_⟩
      exact .v3 ops' [] (by simp) hv2 hpend hvalid (by simp) (Nat.add_comm ..) hg hg64 hok' hn'
        (noFrame_nil host true _)

end Cuts

namespace WriteAheadLog

variable {host : ByteOrder} {wal : WriteAheadLog} {offset : ℕ}

theorem truncateTo_past (h : wal.file.length < offset) : wal.truncateTo host offset =
    (.error .truncatePastEof, { wal with outputOpen := false }) := by
  have h0 : offset ≠ 0 := by omega
  rw [truncateTo, if_neg (fun hc => h0 hc.2.1), if_pos h]

/-- A v2 file is cut without a look at what is left. -/
theorem truncateTo_v2 (hv2 : wal.legacyV2 = true) (h : offset ≤ wal.file.length) :
    wal.truncateTo host offset = (.ok (),
      { wal with file := wal.file.take offset, outputOpen := true, needsRecovery := false }) := by
  simp [truncateTo, hv2, Nat.not_lt.mpr h]

/-- In v3 a truncation to nothing is a `Clear`. -/
theorem truncateTo_zero_v3 (hv2 : wal.legacyV2 = false) (hmax : wal.generation ≠ kMaxUint64) :
    wal.truncateTo host 0 = (.ok (), wal.cleared) := by
  simp [truncateTo, cleared, hv2, hmax]

/-- A v3 file is read after the cut. -/
theorem truncateTo_v3 (hv2 : wal.legacyV2 = false) (h : offset ≤ wal.file.length) (h0 : offset ≠ 0)
    {r : WalReplayResult} {m : Store}
    (hr : replayFromDetailed host (wal.file.take offset) 0 ∅ = .ok (r,m)) :
    wal.truncateTo host offset =
      if r.status ≠ .cleanEof ∨ r.lastSequence = kMaxUint64 then
        (.error .truncateInvalidPrefix,
          { wal with file := wal.file.take offset, outputOpen := true })
      else (.ok (), { wal with
        file := wal.file.take offset
        outputOpen := true
        nextSequence := r.lastSequence+1
        needsRecovery := false }) := by
  simp only [truncateTo, hv2, h0, Nat.not_lt.mpr h, false_and, and_false, if_false,
    Bool.false_eq_true, hr]

/-- Up to the end of the file a truncation cuts, whether it returns or throws. -/
theorem truncateTo_file (host : ByteOrder) (wal : WriteAheadLog) {offset : ℕ}
    (h : offset ≤ wal.file.length) :
    (wal.truncateTo host offset).2.file = wal.file.take offset ∨
      (wal.truncateTo host offset = (.error .generationExhausted, wal) ∧ wal.legacyV2 = false ∧
        offset = 0 ∧ wal.generation = kMaxUint64) := by
  by_cases hmax : wal.legacyV2 = false ∧ offset = 0 ∧ wal.generation = kMaxUint64
  · exact .inr ⟨by rw [truncateTo, if_pos hmax], hmax⟩
  rw [truncateTo, if_neg hmax, if_neg (Nat.not_lt.mpr h)]
  dsimp only
  repeat' split
  all_goals exact .inl rfl

end WriteAheadLog

/-- A truncation that meets the condition leaves a well-formed log behind, or it throws with
nothing changed but a stream that nobody could have written to. -/
theorem TruncInv.truncateTo {host : ByteOrder} {wal : WriteAheadLog} {ops : List WalRecord}
    (h : TruncInv host wal ops) {offset : ℕ} (hfits : TruncationFits host wal offset) :
    (∃ wal' ops', wal.truncateTo host offset = (.ok (), wal') ∧ TruncInv host wal' ops' ∧
      WellFormedLog host wal'.file ops' ∧ wal'.outputOpen = true) ∨
    (∃ e wal', wal.truncateTo host offset = (.error e, wal') ∧ TruncInv host wal' ops ∧
      (wal' = wal ∨ ¬wal.admits ∧ ∃ x, wal' = { wal with outputOpen := x })) := by
  unfold TruncationFits at hfits
  split_ifs at hfits with hpast
  · exact .inr ⟨_, _, WriteAheadLog.truncateTo_past hpast,
      ⟨h.noFailure, h.agree.stream false, fun hadm => absurd hadm hfits, h.room⟩,
      .inr ⟨hfits, false, rfl⟩⟩
  have hle : offset ≤ wal.file.length := Nat.not_lt.mp hpast
  rcases Bool.eq_false_or_eq_true wal.legacyV2 with hv2 | hv2
  · obtain ⟨ops',hlog⟩ : ∃ ops', WellFormedLog host (wal.file.take offset) ops' := by
      simpa [hv2] using hfits
    refine .inl ⟨_, ops', WriteAheadLog.truncateTo_v2 hv2 hle,
      ⟨h.noFailure, h.agree.cut_v2 hv2 hlog (List.take_prefix _ _), fun _ => rfl, ?_⟩, hlog, rfl⟩
    simp [hv2]
  · rcases eq_or_ne offset 0 with rfl | h0
    · by_cases hmax : wal.generation = kMaxUint64
      · refine .inr ⟨.generationExhausted, wal, ?_, h, .inl rfl⟩
        rw [WriteAheadLog.truncateTo, if_pos ⟨hv2, rfl, hmax⟩]
      have hlt : wal.generation+1 < 2^64 := by
        have := h.agree.generation_lt
        simp only [kMaxUint64] at hmax
        omega
      refine .inl ⟨wal.cleared, [], WriteAheadLog.truncateTo_zero_v3 hv2 hmax,
        ⟨h.noFailure, ?_, fun _ => rfl, fun _ => by simp [kMaxUint64]⟩, .empty, rfl⟩
      exact .fresh rfl rfl rfl rfl rfl rfl (Nat.succ_pos _) hlt
    have hnil : wal.file.take offset ≠ [] := by
      intro he
      rcases List.take_eq_nil_iff.mp he with hz | hf
      · exact h0 hz
      · rw [hf, List.length_nil] at hle
        omega
    by_cases hlog : ∃ ops', WellFormedLog host (wal.file.take offset) ops'
    · obtain ⟨ops',hlog⟩ := hlog
      obtain ⟨-,hops,hagree⟩ := h.agree.cut_v3 hv2 hlog (List.take_prefix _ _) hnil
      have hcut : WalInv host { wal with
          file := wal.file.take offset
          outputOpen := true
          nextSequence := ops'.length+1
          needsRecovery := false } ops' := ⟨rfl, h.noFailure, hagree⟩
      obtain ⟨r,hr,-,hclean,hseq⟩ := hcut.replay ∅
      have hlast : r.lastSequence = ops'.length := (Nat.add_right_cancel hseq).symm
      have hfew : ops'.length < kMaxUint64 := hops.length_le.trans_lt (h.room hv2)
      have hread : ¬(r.status ≠ .cleanEof ∨ r.lastSequence = kMaxUint64) := by
        rw [hclean (hcut.appendCheck_iff.mpr ⟨ops',hlog⟩), hlast]
        simp [hfew.ne]
      refine .inl ⟨_, ops', ?_, ⟨hcut.noFailure, hcut.agree, fun _ => rfl, fun _ => hfew⟩, hlog,
        rfl⟩
      rw [WriteAheadLog.truncateTo_v3 hv2 hle h0 hr, if_neg hread, hlast]
    · -- only the whole file is left, and it is not a log
      have hall : wal.file.take offset = wal.file := by
        rw [(hfits.resolve_left hlog).2, List.take_length]
      rw [hall] at hlog
      obtain ⟨p,r,hlong,hr,-,-,-,hclean,-⟩ := h.agree.fileShape.replay ∅
      have hbad : r.status ≠ .cleanEof := by
        intro hc
        have hp := hlong.wellFormed
        rw [hclean.mp hc] at hp
        exact hlog ⟨ops, hp⟩
      have hnone : ¬wal.admits := by
        intro hadm
        have hinv : WalInv host wal ops := ⟨h.opened hadm, h.noFailure, h.agree⟩
        exact hlog (hinv.appendCheck_iff.mp hadm.1)
      rw [← hall] at hr
      refine .inr ⟨.truncateInvalidPrefix, { wal with outputOpen := true }, ?_,
        ⟨h.noFailure, h.agree.stream true, fun _ => rfl, h.room⟩, .inr ⟨hnone, true, rfl⟩⟩
      rw [WriteAheadLog.truncateTo_v3 hv2 hle h0 hr, if_pos (.inl hbad), hall]

/-! ### Safe truncations -/

/-- What a truncation promises: it succeeds and leaves a log that is read to its end, or it
throws and file, next number and appends are as before; and whatever is acknowledged from then
on is replayed, behind the operations the truncation left. -/
structure TruncatesSafely (host : ByteOrder) (wal : WriteAheadLog) (offset : ℕ) : Prop where
  returns : ∀ wal', wal.truncateTo host offset = (.ok (), wal') →
    ∃ r m, replayFromDetailed host wal'.file 0 ∅ = .ok (r,m) ∧ r.status = .cleanEof
  throws : ∀ e wal', wal.truncateTo host offset = (.error e, wal') →
    wal'.file = wal.file ∧ wal'.nextSequence = wal.nextSequence ∧
      ∀ op, wal'.acknowledges host op = wal.acknowledges host op
  replayed : ∃ kept, ∀ new m, ∃ r,
    replayFromDetailed host ((wal.truncateTo host offset).2.appendAll host new).1.file 0 m =
      .ok (r, applyOps (kept ++ ((wal.truncateTo host offset).2.appendAll host new).2) m) ∧
    r.appliedOperations =
      kept.length+((wal.truncateTo host offset).2.appendAll host new).2.length

theorem TruncInv.replayed {host : ByteOrder} {wal : WriteAheadLog} {ops : List WalRecord}
    (h : TruncInv host wal ops) (new : List WalRecord) (m : Store) :
    ∃ r, replayFromDetailed host (wal.appendAll host new).1.file 0 m =
        .ok (r, applyOps (ops ++ (wal.appendAll host new).2) m) ∧
      r.appliedOperations = ops.length+(wal.appendAll host new).2.length := by
  obtain ⟨p,r,-,hr,-,-,happ,-⟩ := (h.appendAll new).replay m
  rw [List.length_append] at happ
  exact ⟨r, hr, happ⟩

theorem TruncInv.safely {host : ByteOrder} {wal : WriteAheadLog} {ops : List WalRecord}
    (h : TruncInv host wal ops) {offset : ℕ} (hfits : TruncationFits host wal offset) :
    TruncatesSafely host wal offset := by
  rcases h.truncateTo hfits with ⟨wal',ops',htr,hinv,hlog,-⟩ | ⟨e,wal',htr,hinv,hsame⟩
  · refine ⟨?_, ?_, ops', ?_⟩
    · rintro u hu
      obtain ⟨-,rfl⟩ := Prod.mk.inj (htr.symm.trans hu)
      obtain ⟨r,hr,hst,-⟩ := hlog.replay ∅
      exact ⟨r, _, hr, hst⟩
    · rintro e u hu
      cases (Prod.mk.inj (htr.symm.trans hu)).1
    · rw [htr]
      exact hinv.replayed
  · refine ⟨?_, ?_, ops, ?_⟩
    · rintro u hu
      cases (Prod.mk.inj (htr.symm.trans hu)).1
    · rintro e' u hu
      obtain ⟨-,rfl⟩ := Prod.mk.inj (htr.symm.trans hu)
      rcases hsame with rfl | ⟨hnone,x,rfl⟩
      · exact ⟨rfl, rfl, fun _ => rfl⟩
      · refine ⟨rfl, rfl, fun op => ?_⟩
        -- nothing is acknowledged on either side, whatever the stream is
        rw [wal.acknowledges_of_not_admits host op h.sequence_le hnone]
        exact WriteAheadLog.acknowledges_of_not_admits host _ op hinv.sequence_le hnone
    · rw [htr]
      exact hinv.replayed

/-- Every other truncation breaks its promise at once. -/
theorem TruncInv.fits {host : ByteOrder} {wal : WriteAheadLog} {ops : List WalRecord}
    (h : TruncInv host wal ops) {offset : ℕ} (hsafe : TruncatesSafely host wal offset) :
    TruncationFits host wal offset := by
  unfold TruncationFits
  split_ifs with hpast
  · -- the closed stream takes no append
    intro hadm
    obtain ⟨-,-,hack⟩ := hsafe.throws _ _ (WriteAheadLog.truncateTo_past hpast)
    have hok : RecordOk wal.portable (.delete []) := by
      cases wal.portable <;> decide
    have hbefore := (wal.acknowledges_iff host (.delete []) h.sequence_le).mpr
      ⟨hadm, h.opened hadm, hok⟩
    rw [← hack] at hbefore
    have hafter := (WriteAheadLog.acknowledges_iff host { wal with outputOpen := false } _
      h.sequence_le).mp hbefore
    cases hafter.2.1
  have hle : offset ≤ wal.file.length := Nat.not_lt.mp hpast
  obtain ⟨ops',hshape⟩ := exists_fileShape host (wal.file.take offset)
  obtain ⟨p,r,hlong,hr,-,-,-,hclean,-⟩ := hshape.replay ∅
  have hwf (hc : r.status = .cleanEof) : ∃ ops, WellFormedLog host (wal.file.take offset) ops := by
    have hp := hlong.wellFormed
    rw [hclean.mp hc] at hp
    exact ⟨_, hp⟩
  by_cases hc : r.status = .cleanEof
  · exact .inl (hwf hc)
  rcases Bool.eq_false_or_eq_true wal.legacyV2 with hv2 | hv2
  · -- a v2 file is cut without being read, and then it is not a log
    obtain ⟨r',m,hr',hst⟩ := hsafe.returns _ (WriteAheadLog.truncateTo_v2 hv2 hle)
    rw [hr] at hr'
    obtain ⟨rfl,-⟩ := Prod.mk.inj (Except.ok.inj hr')
    exact .inl (hwf hst)
  · rcases eq_or_ne offset 0 with rfl | h0
    · exact .inl ⟨[], by rw [List.take_zero]; exact .empty⟩
    have htr := WriteAheadLog.truncateTo_v3 hv2 hle h0 hr
    rw [if_pos (.inl hc)] at htr
    have hfile := congrArg List.length (hsafe.throws _ _ htr).1
    refine .inr ⟨hv2, ?_⟩
    rw [List.length_take] at hfile
    omega

/-! ### Objects and the calls made on them -/

/-- The calls that change an object. -/
inductive LogCall where
  | append (op : WalRecord)
  | clear
  | rotate
  | truncateTo (offset : ℕ)
  | replayFromAndTruncate (offset : ℕ)
  deriving DecidableEq, Repr

/-- One call, whether it returns or throws. -/
def WriteAheadLog.call (host : ByteOrder) (wal : WriteAheadLog) : LogCall → Option WriteAheadLog
  | .append op => some (wal.append host op).2
  | .clear => some wal.clear.2
  | .rotate => some wal.rotate.2
  | .truncateTo offset => some (wal.truncateTo host offset).2
  | .replayFromAndTruncate offset => some (wal.replayFromAndTruncate host offset ∅).2

/-- Every truncation of the call meets the condition. -/
def CallFits (host : ByteOrder) (wal : WriteAheadLog) : LogCall → Prop
  | .truncateTo offset => TruncationFits host wal offset
  | .replayFromAndTruncate offset => ∀ r m, replayFromDetailed host wal.file offset ∅ = .ok (r,m) →
      r.status ≠ .cleanEof → TruncationFits host wal r.lastGoodOffset
  | .append _ | .clear | .rotate => True

/-- The object is in step with its file as long as it has not failed. -/
def InStep (host : ByteOrder) (wal : WriteAheadLog) : Prop :=
  wal.failure = none → ∃ ops, TruncInv host wal ops

theorem InStep.truncateTo {host : ByteOrder} {wal : WriteAheadLog} (h : InStep host wal)
    {offset : ℕ} (hfits : TruncationFits host wal offset) :
    InStep host (wal.truncateTo host offset).2 := by
  intro hfail
  rw [(wal.truncateTo_keeps host offset).1] at hfail
  obtain ⟨ops,hinv⟩ := h hfail
  rcases hinv.truncateTo hfits with ⟨wal',ops',htr,hinv',-⟩ | ⟨e,wal',htr,hinv',-⟩
  · rw [htr]
    exact ⟨ops', hinv'⟩
  · rw [htr]
    exact ⟨ops, hinv'⟩

theorem InStep.clear {host : ByteOrder} {wal : WriteAheadLog} (h : InStep host wal) :
    InStep host wal.clear.2 := by
  unfold WriteAheadLog.clear
  split_ifs with hmax
  · exact h
  intro hfail
  obtain ⟨ops,hinv⟩ := h hfail
  have hlt : wal.generation+1 < 2^64 := by
    have := hinv.agree.generation_lt
    simp only [kMaxUint64] at hmax
    omega
  exact ⟨[], hfail, .fresh rfl rfl rfl rfl rfl rfl (Nat.succ_pos _) hlt, fun _ => rfl,
    fun _ => by simp [kMaxUint64]⟩

theorem InStep.call {host : ByteOrder} {wal wal' : WriteAheadLog} {c : LogCall}
    (h : InStep host wal) (hfits : CallFits host wal c) (hc : wal.call host c = some wal') :
    InStep host wal' := by
  cases c with
  | append op =>
    obtain rfl := Option.some.inj hc
    intro hfail
    cases hwal : wal.failure with
    | some e =>
      have hadm : wal.appendCheck = .error e := by simp [WriteAheadLog.appendCheck, hwal]
      obtain ⟨e',he⟩ := @WriteAheadLog.append_of_refused host wal op e hadm
      rw [he, hwal] at hfail
      cases hfail
    | none =>
      obtain ⟨ops,hinv⟩ := h hwal
      rcases hinv.append op with ⟨-,hnext⟩ | ⟨-,-,hsame | ⟨e,he⟩⟩
      · exact ⟨_, hnext⟩
      · rw [hsame]
        exact ⟨ops, hinv⟩
      · rw [he] at hfail
        cases hfail
  | clear =>
    obtain rfl := Option.some.inj hc
    exact h.clear
  | rotate =>
    obtain rfl := Option.some.inj hc
    exact h.clear
  | truncateTo offset =>
    obtain rfl := Option.some.inj hc
    exact h.truncateTo hfits
  | replayFromAndTruncate offset =>
    obtain rfl := Option.some.inj hc
    cases hr : replayFromDetailed host wal.file offset ∅ with
    | error e =>
      rw [WriteAheadLog.replayFromAndTruncate, hr]
      exact h
    | ok rm =>
      obtain ⟨r,m⟩ := rm
      by_cases hclean : r.status = .cleanEof
      · rw [WriteAheadLog.replayFromAndTruncate_clean hr hclean]
        exact h
      · rw [WriteAheadLog.replayFromAndTruncate_cut hr hclean]
        exact h.truncateTo (hfits r m hr hclean)

/-- Opened on any bytes, an object is in step. -/
theorem inStep_of_openWal {host : ByteOrder} {b : Bytes} {policy : DurabilityPolicy} {maxBatch : ℕ}
    {wal : WriteAheadLog} (hopen : openWal host b policy maxBatch = .ok wal) : InStep host wal := by
  obtain ⟨ops,hinv,hfile,-,-,hfew⟩ := openWal_sound hopen
  intro hfail
  refine ⟨ops, hfail, hinv.agree, fun _ => hinv.outputOpen, fun hv2 => ?_⟩
  cases hinv.agree with
  | fresh | badHeader => simp [kMaxUint64]
  | v3 _ tail hbytes =>
    apply hfew
    rw [← hfile, hbytes]
    exact magicPrefix_of_header (List.prefix_append _ _)
  | v2 _ _ _ _ hv2' =>
    rw [hv2] at hv2'
    cases hv2'

/-- Open an object on any bytes and make any calls on it whose truncations meet the condition:
unless an append has failed by then, the offsets at which `TruncateTo` keeps its promise are
exactly those that meet the condition. -/
theorem truncate_to_safe_iff (host : ByteOrder) (b : Bytes) (policy : DurabilityPolicy)
    (maxBatch : ℕ) (opened wal : WriteAheadLog)
    (hopen : openWal host b policy maxBatch = .ok opened) (calls : List LogCall)
    (hcalls : Along (WriteAheadLog.call host) (CallFits host) opened calls)
    (hrun : run (WriteAheadLog.call host) opened calls = some wal) (hfail : wal.failure = none)
    (offset : ℕ) : TruncatesSafely host wal offset ↔ TruncationFits host wal offset := by
  have hstep : InStep host wal := run_along
    (fun _ _ _ hfits h hc => h.call hfits hc) hcalls hrun (inStep_of_openWal hopen)
  obtain ⟨ops,hinv⟩ := hstep hfail
  exact ⟨hinv.fits, hinv.safely⟩

/-- A log with one record. -/
def oneRecord (portable : Bool) : Bytes :=
  (if portable then makeHeader 1 else []) ++ framesFrom .little portable 1 [.set [1] [2]]

/-- After a second record is appended, a truncation behind the first is safe. -/
theorem truncate_to_first_boundary : ∃ opened wal,
    openWal .little (oneRecord true) .buffered 1 = .ok opened ∧
    opened.append .little (.delete [1]) = (.ok (), wal) ∧
    TruncatesSafely .little wal (oneRecord true).length := by
  have hlog : WellFormedLog .little (oneRecord true) [.set [1] [2]] :=
    .v3 1 _ (by decide) (by decide) (by decide) (by decide)
  obtain ⟨opened,hopen,hfile,-,-,hinv⟩ := @openWal_inv .little _ _ hlog.fileShape .buffered 1
    (by decide) (fun _ => by decide)
  have hadm := hinv.appendCheck_iff.mpr ⟨_, hfile ▸ hlog⟩
  obtain ⟨happ,hinv'⟩ := @WalInv.append_acknowledged .little opened _ hinv hadm (.delete [1])
    (by cases opened.portable <;> decide) (by decide)
  refine ⟨opened, _, hopen, happ, ?_⟩
  refine (truncate_to_safe_iff .little _ .buffered 1 opened _ hopen [.append (.delete [1])]
    ⟨trivial, fun _ _ => trivial⟩ ?_ hinv'.noFailure _).mpr ?_
  · rw [run_cons, WriteAheadLog.call, happ]
    rfl
  · have hlen : ¬(opened.appended .little [.delete [1]]).file.length < (oneRecord true).length := by
      simp [WriteAheadLog.appended, hfile]
    rw [TruncationFits, if_neg hlen]
    refine .inl ⟨[.set [1] [2]], ?_⟩
    simp only [WriteAheadLog.appended, hfile, List.take_left]
    exact hlog

/-- Past the end, inside a v3 frame and inside a v2 frame the promise is broken: the stream
stays closed, the file is shorter although the call throws, and a piece of a record stays. -/
theorem truncate_to_breaks_its_promise :
    (∃ wal, openWal .little (oneRecord true) .buffered 1 = .ok wal ∧
      ¬TruncatesSafely .little wal ((oneRecord true).length+1) ∧ ¬TruncatesSafely .little wal 30) ∧
    ∃ wal, openWal .little (oneRecord false) .buffered 1 = .ok wal ∧
      ¬TruncatesSafely .little wal 5 := by
  have hv3 : (openWal .little (oneRecord true) .buffered 1).toOption.any (fun wal =>
      decide ((wal.truncateTo .little ((oneRecord true).length+1)).1.toBool = false ∧
        wal.acknowledges .little (.delete []) = true ∧
        (wal.truncateTo .little ((oneRecord true).length+1)).2.acknowledges .little (.delete []) =
          false ∧
        (wal.truncateTo .little 30).1.toBool = false ∧
        (wal.truncateTo .little 30).2.file ≠ wal.file)) = true := by decide +kernel
  have hv2 : (openWal .little (oneRecord false) .buffered 1).toOption.any (fun wal =>
      decide ((wal.truncateTo .little 5).1.toBool = true ∧
        ((replayFromDetailed .little (wal.truncateTo .little 5).2.file 0 ∅).toOption.map
          fun r => r.1.status) = some .partialRecord)) = true := by decide +kernel
  have hthrows (x : Except WalError Unit × WriteAheadLog) (h : x.1.toBool = false) :
      ∃ e, x = (.error e, x.2) := by
    obtain ⟨answer,wal⟩ := x
    cases answer with
    | error e => exact ⟨e, rfl⟩
    | ok => cases h
  have hreturns (x : Except WalError Unit × WriteAheadLog) (h : x.1.toBool = true) :
      x = (.ok (), x.2) := by
    obtain ⟨answer,wal⟩ := x
    cases answer with
    | error e => cases h
    | ok => rfl
  constructor
  · obtain ⟨wal,hopen,hfacts⟩ := (Option.any_eq_true _ _).mp hv3
    obtain ⟨hpast,hbefore,hafter,hin,hfile⟩ := of_decide_eq_true hfacts
    refine ⟨wal, eq_ok_of_toOption hopen, fun hsafe => ?_, fun hsafe => ?_⟩
    · obtain ⟨e,he⟩ := hthrows _ hpast
      have hsame := (hsafe.throws e _ he).2.2 (.delete [])
      rw [hbefore, hafter] at hsame
      cases hsame
    · obtain ⟨e,he⟩ := hthrows _ hin
      exact hfile (hsafe.throws e _ he).1
  · obtain ⟨wal,hopen,hfacts⟩ := (Option.any_eq_true _ _).mp hv2
    obtain ⟨hok,hmidway⟩ := of_decide_eq_true hfacts
    refine ⟨wal, eq_ok_of_toOption hopen, fun hsafe => ?_⟩
    obtain ⟨r,m,hr,hclean⟩ := hsafe.returns _ (hreturns _ hok)
    rw [hr] at hmidway
    simp [Except.toOption, hclean] at hmidway

end ConcurrentKV
