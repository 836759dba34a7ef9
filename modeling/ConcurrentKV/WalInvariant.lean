import ConcurrentKV.WalObject

/-! What the cached fields of a `WriteAheadLog` say about its file, and that opening,
appending, clearing and recovering keep them in step. -/
namespace ConcurrentKV
open ByteCodec OpLog

/-- The fields that say how the file continues, for each shape the file can have. -/
inductive FieldsAgree (host : ByteOrder) (wal : WriteAheadLog) : List WalRecord → Prop where
  | fresh (hfile : wal.file = []) (hv2 : wal.legacyV2 = false) (hpend : wal.headerPending = true)
      (hvalid : wal.formatValid = true) (hrec : wal.needsRecovery = false)
      (hseq : wal.nextSequence = 1) (hg : 0 < wal.generation) (hg64 : wal.generation < 2^64) :
      FieldsAgree host wal []
  | v3 (ops : List WalRecord) (tail : Bytes)
      (hfile : wal.file = makeHeader wal.generation ++ (framesFrom host true 1 ops ++ tail))
      (hv2 : wal.legacyV2 = false) (hpend : wal.headerPending = false)
      (hvalid : wal.formatValid = true) (hrec : wal.needsRecovery = true ↔ tail ≠ [])
      (hseq : wal.nextSequence = 1+ops.length) (hg : 0 < wal.generation)
      (hg64 : wal.generation < 2^64) (hok : ∀ op ∈ ops, RecordOk true op)
      (hn : ops.length < 2^64) (hstop : NoFrame host true (1+ops.length) tail) :
      FieldsAgree host wal ops
  | v2 (ops : List WalRecord) (tail : Bytes)
      (hfile : wal.file = framesFrom host false 1 ops ++ tail)
      (hm : wal.file ≠ [] → magicPrefix wal.file = false) (hv2 : wal.legacyV2 = true)
      (hpend : wal.headerPending = false) (hvalid : wal.formatValid = true)
      (hrec : wal.needsRecovery = true ↔ tail ≠ []) (hseq : wal.nextSequence = 1)
      (hg : wal.generation = 0) (hok : ∀ op ∈ ops, RecordOk false op)
      (hstop : NoFrame host false (1+ops.length) tail) : FieldsAgree host wal ops
  | badHeader (hne : wal.file ≠ []) (hm : magicPrefix wal.file = true)
      (hh : (parseHeader wal.file 0).1 = false) (hv2 : wal.legacyV2 = false)
      (hpend : wal.headerPending = false) (hvalid : wal.formatValid = false)
      (hrec : wal.needsRecovery = false) (hseq : wal.nextSequence = 1) (hg : wal.generation = 0) :
      FieldsAgree host wal []

/-- A working object whose fields agree with its file, which holds the operations `ops`
in its longest well-formed prefix. -/
structure WalInv (host : ByteOrder) (wal : WriteAheadLog) (ops : List WalRecord) : Prop where
  outputOpen : wal.outputOpen = true
  noFailure : wal.failure = none
  agree : FieldsAgree host wal ops

theorem noFrame_nil (host : ByteOrder) (portable : Bool) (s : ℕ) : NoFrame host portable s [] := by
  intro op x _ _ h
  have hl := congrArg List.length h
  simp at hl
  omega

/-- A well-formed log has nothing behind its last frame. -/
theorem WellFormedLog.fileShape {host : ByteOrder} {b : Bytes} {ops : List WalRecord}
    (h : WellFormedLog host b ops) : FileShape host b ops := by
  cases h with
  | empty => exact .empty
  | v3 g _ hg hg64 hok hn =>
    rw [← List.append_nil (framesFrom host true 1 ops)]
    exact .v3 g ops [] hg hg64 hok hn (noFrame_nil host true _)
  | v2 _ hne hok =>
    rw [← List.append_nil (framesFrom host false 1 ops)]
    refine .v2 ops [] ?_ ?_ hok (noFrame_nil host false _)
    · rw [List.append_nil]
      exact wellFormed_v2_frame hne hok List.prefix_rfl
    · rw [List.append_nil]
      exact framesFrom_ne_nil hne

/-- Replay reads a well-formed log to its end. -/
theorem WellFormedLog.replay {host : ByteOrder} {b : Bytes} {ops : List WalRecord}
    (h : WellFormedLog host b ops) (m : Store) :
    ∃ r, replayFromDetailed host b 0 m = .ok (r, applyOps ops m) ∧ r.status = .cleanEof ∧
      r.appliedOperations = ops.length := by
  obtain ⟨p,r,hlong,hr,-,-,happ,hclean,-⟩ := h.fileShape.replay m
  -- the log is its own longest prefix
  have hp := (hlong.longest b ops h List.prefix_rfl).1
  exact ⟨r, hr, hclean.mpr (hlong.isPrefix.eq_of_length_le hp.length_le), happ⟩

theorem FieldsAgree.fileShape {host : ByteOrder} {wal : WriteAheadLog} {ops : List WalRecord}
    (h : FieldsAgree host wal ops) : FileShape host wal.file ops := by
  cases h with
  | fresh hfile => rw [hfile]; exact .empty
  | v3 _ tail hfile _ _ _ _ _ hg hg64 hok hn hstop =>
    rw [hfile]
    exact .v3 wal.generation ops tail hg hg64 hok hn hstop
  | v2 _ tail hfile hm _ _ _ _ _ _ hok hstop =>
    rcases eq_or_ne wal.file [] with he | hne
    · rw [he] at hfile ⊢
      have hops : ops = [] := by
        by_contra hne
        exact framesFrom_ne_nil hne (List.append_eq_nil_iff.mp hfile.symm).1
      rw [hops]
      exact .empty
    · have hm := hm hne
      rw [hfile] at hm hne ⊢
      exact .v2 ops tail hm hne hok hstop
  | badHeader hne hm hh => exact .badHeader wal.file hne hm hh

/-- The object takes the file for what its first bytes say it is. -/
theorem FieldsAgree.portable_eq {host : ByteOrder} {wal : WriteAheadLog} {ops : List WalRecord}
    (h : FieldsAgree host wal ops) (hne : wal.file ≠ []) : wal.portable = magicPrefix wal.file := by
  cases h with
  | fresh hfile => exact absurd hfile hne
  | v3 _ tail hfile hv2 =>
    rw [hfile, magicPrefix_of_header (List.prefix_append _ _)]
    simp [WriteAheadLog.portable, hv2]
  | v2 _ tail _ hm hv2 =>
    rw [hm hne]
    simp [WriteAheadLog.portable, hv2]
  | badHeader _ hm _ hv2 =>
    rw [hm]
    simp [WriteAheadLog.portable, hv2]

theorem FieldsAgree.generation_lt {host : ByteOrder} {wal : WriteAheadLog} {ops : List WalRecord}
    (h : FieldsAgree host wal ops) : wal.generation < 2^64 := by
  cases h with
  | fresh _ _ _ _ _ _ _ hg64 => exact hg64
  | v3 _ _ _ _ _ _ _ _ _ hg64 => exact hg64
  | v2 _ _ _ _ _ _ _ _ _ hg => rw [hg]; norm_num
  | badHeader _ _ _ _ _ _ _ _ hg => rw [hg]; norm_num

/-- Validity of a header does not depend on what the generation was before. -/
theorem parseHeader_fst_eq (b : Bytes) (g g' : ℕ) :
    (parseHeader b g).1 = (parseHeader b g').1 := by
  unfold parseHeader
  dsimp only
  repeat' split
  all_goals rfl

/-- Opening a v3 file whose header is intact. -/
theorem openWal_v3 (host : ByteOrder) (g : ℕ) (ops : List WalRecord) (tail : Bytes)
    (policy : DurabilityPolicy) {maxBatch : ℕ} (hbatch : 1 ≤ maxBatch ∧ maxBatch ≤ 4096)
    (hg : 0 < g) (hg64 : g < 2^64) (hok : ∀ op ∈ ops, RecordOk true op) (hn : ops.length < 2^64)
    (hstop : NoFrame host true (1+ops.length) tail) :
    ∃ torn : Bool, (torn = true ↔ tail ≠ []) ∧
      openWal host (makeHeader g ++ (framesFrom host true 1 ops ++ tail)) policy maxBatch =
        if ops.length = kMaxUint64 then .error .sequenceExhausted
        else .ok { file := makeHeader g ++ (framesFrom host true 1 ops ++ tail)
                   policy := policy
                   maxBatch := maxBatch
                   generation := g
                   needsRecovery := torn
                   nextSequence := ops.length+1 } := by
  have hb : ¬(maxBatch = 0 ∨ maxBatch > 4096) := by omega
  obtain ⟨status,hr,hst⟩ := replay_v3 host g ops tail ∅ hg hg64 hok hn hstop
  have hm := magicPrefix_of_header (List.prefix_append (makeHeader g)
    (framesFrom host true 1 ops ++ tail))
  have hp := parseHeader_makeHeader g 1 hg hg64 (framesFrom host true 1 ops ++ tail)
  have hlen : kHeaderLength ≤ (makeHeader g ++ (framesFrom host true 1 ops ++ tail)).length := by
    rw [List.length_append, length_makeHeader]
    omega
  have hl : ¬(makeHeader g ++ (framesFrom host true 1 ops ++ tail)).length = 0 := by
    simp only [kHeaderLength] at hlen
    omega
  have h4 : kWalMagic.length ≤ (makeHeader g ++ (framesFrom host true 1 ops ++ tail)).length := by
    simp only [kHeaderLength, kWalMagic, List.length_cons, List.length_nil] at hlen ⊢
    omega
  refine ⟨decide (status ≠ .cleanEof), by simp [hst], ?_⟩
  simp only [openWal, if_neg hb, if_neg hl, hm, if_true, hp, h4, and_self, hr]

/-- Opening any file gives an object in step with it. Only a v3 log with all its sequence
numbers used up cannot be opened. -/
theorem openWal_inv {host : ByteOrder} {b : Bytes} {ops : List WalRecord} (h : FileShape host b ops)
    (policy : DurabilityPolicy) {maxBatch : ℕ} (hbatch : 1 ≤ maxBatch ∧ maxBatch ≤ 4096)
    (hn : magicPrefix b = true → ops.length < kMaxUint64) :
    ∃ wal, openWal host b policy maxBatch = .ok wal ∧ wal.file = b ∧ wal.policy = policy ∧
      wal.maxBatch = maxBatch ∧ WalInv host wal ops := by
  have hb : ¬(maxBatch = 0 ∨ maxBatch > 4096) := by omega
  cases h with
  | empty =>
    rw [openWal, if_neg hb]
    exact ⟨_, rfl, rfl, rfl, rfl, rfl, rfl, .fresh rfl rfl rfl rfl rfl rfl one_pos (by norm_num)⟩
  | badHeader _ hne hm hh =>
    have hl : ¬b.length = 0 := fun hl => hne (List.length_eq_zero_iff.mp hl)
    have hh1 : (parseHeader b 1).1 = false := (parseHeader_fst_eq b 1 0).trans hh
    simp only [openWal, if_neg hb, if_neg hl, hm, if_true, hh1, Bool.false_eq_true, and_false,
      if_false]
    exact ⟨_, rfl, rfl, rfl, rfl, rfl, rfl, .badHeader hne hm hh rfl rfl rfl rfl rfl rfl⟩
  | v3 g _ tail hg hg64 hok hn64 hstop =>
    have hfew := hn (magicPrefix_of_header (List.prefix_append _ _))
    obtain ⟨torn,htorn,hopen⟩ := openWal_v3 host g ops tail policy hbatch hg hg64 hok hn64 hstop
    rw [hopen, if_neg (Nat.ne_of_lt hfew)]
    exact ⟨_, rfl, rfl, rfl, rfl, rfl, rfl, .v3 ops tail rfl rfl rfl rfl htorn (Nat.add_comm ..) hg
      hg64 hok hn64 hstop⟩
  | v2 _ tail hm hne hok hstop =>
    obtain ⟨status,hr,hst⟩ := replay_v2 host ops tail ∅ hm hne hok hstop
    have hl : ¬(framesFrom host false 1 ops ++ tail).length = 0 :=
      fun hl => hne (List.length_eq_zero_iff.mp hl)
    simp only [openWal, if_neg hb, if_neg hl, hm, Bool.false_eq_true, if_false, hr]
    refine ⟨_, rfl, rfl, rfl, rfl, rfl, rfl,
      .v2 ops tail rfl (fun _ => hm) rfl rfl rfl ?_ rfl rfl hok hstop⟩
    simp [hst]

theorem openWal_maxBatch {host : ByteOrder} {b : Bytes} {policy : DurabilityPolicy} {maxBatch : ℕ}
    {wal : WriteAheadLog} (h : openWal host b policy maxBatch = .ok wal) :
    1 ≤ maxBatch ∧ maxBatch ≤ 4096 := by
  by_contra hb
  rw [openWal, if_pos (by omega)] at h
  cases h

/-- What the constructor takes over, whatever it finds in the file. -/
theorem openWal_fields {host : ByteOrder} {b : Bytes} {policy : DurabilityPolicy} {maxBatch : ℕ}
    {wal : WriteAheadLog} (h : openWal host b policy maxBatch = .ok wal) :
    wal.file = b ∧ wal.policy = policy ∧ wal.maxBatch = maxBatch ∧ wal.failure = none := by
  unfold openWal at h
  dsimp only at h
  repeat' split at h
  all_goals cases h
  all_goals exact ⟨rfl, rfl, rfl, rfl⟩

/-- Whatever the file, an object that was opened on it is in step with it. -/
theorem openWal_sound {host : ByteOrder} {b : Bytes} {policy : DurabilityPolicy} {maxBatch : ℕ}
    {wal : WriteAheadLog} (h : openWal host b policy maxBatch = .ok wal) :
    ∃ ops, WalInv host wal ops ∧ wal.file = b ∧ wal.policy = policy ∧ wal.maxBatch = maxBatch ∧
      (magicPrefix b = true → ops.length < kMaxUint64) := by
  obtain ⟨ops,hshape⟩ := exists_fileShape host b
  have hbatch := openWal_maxBatch h
  have hn (hm : magicPrefix b = true) : ops.length < kMaxUint64 := by
    cases hshape with
    | empty | badHeader => simp [kMaxUint64]
    | v3 g _ tail hg hg64 hok hn64 hstop =>
      obtain ⟨torn,-,hopen⟩ := openWal_v3 host g ops tail policy hbatch hg hg64 hok hn64 hstop
      have hmax : ops.length ≠ kMaxUint64 := by
        intro hmax
        rw [hopen, if_pos hmax] at h
        cases h
      simp only [kMaxUint64] at hmax ⊢
      omega
    | v2 _ tail hm' =>
      rw [hm] at hm'
      cases hm'
  obtain ⟨wal',h',hfile,hpol,hmax,hinv⟩ := openWal_inv hshape policy hbatch hn
  rw [h] at h'
  obtain rfl := Except.ok.inj h'
  exact ⟨ops, hinv, hfile, hpol, hmax, hn⟩

namespace WalInv

variable {host : ByteOrder} {wal : WriteAheadLog} {ops : List WalRecord}

/-- What an object that takes appends looks like: the file ends where its last frame does. -/
theorem of_appendCheck (h : WalInv host wal ops) (hadm : wal.appendCheck = .ok ()) :
    wal.formatValid = true ∧ wal.needsRecovery = false ∧
      wal.file ++ wal.headerBytes = (if wal.portable then makeHeader wal.generation else []) ++
        framesFrom host wal.portable 1 ops := by
  obtain ⟨-,hflags⟩ := wal.appendCheck_ok_iff.mp hadm
  refine ⟨hflags.1, hflags.2, ?_⟩
  have htail {tail : Bytes} (hrec : wal.needsRecovery = true ↔ tail ≠ []) : tail = [] := by
    by_contra hne
    have := hrec.mpr hne
    rw [hflags.2] at this
    cases this
  cases h.agree with
  | fresh hfile hv2 hpend =>
    simp [hfile, WriteAheadLog.headerBytes, WriteAheadLog.portable, hv2, hpend, framesFrom]
  | v3 _ tail hfile hv2 hpend _ hrec =>
    rw [hfile, htail hrec]
    simp [WriteAheadLog.headerBytes, WriteAheadLog.portable, hv2, hpend]
  | v2 _ tail hfile _ hv2 hpend _ hrec =>
    rw [hfile, htail hrec]
    simp [WriteAheadLog.headerBytes, WriteAheadLog.portable, hv2]
  | badHeader _ _ _ _ _ hvalid =>
    rw [hflags.1] at hvalid
    cases hvalid

/-- The object takes appends exactly when its file is a well-formed log. -/
theorem appendCheck_iff (h : WalInv host wal ops) :
    wal.appendCheck = .ok () ↔ ∃ ops', WellFormedLog host wal.file ops' := by
  have hflags : wal.appendCheck = .ok () ↔ wal.formatValid = true ∧ wal.needsRecovery = false := by
    rw [wal.appendCheck_ok_iff, and_iff_right h.noFailure]
  obtain ⟨p,r,hlong,-,-,-,-,-,-⟩ := h.agree.fileShape.replay ∅
  -- a well-formed file is its own longest prefix
  have hself : (∃ ops', WellFormedLog host wal.file ops') ↔ p = wal.file := by
    constructor
    · rintro ⟨ops',hw⟩
      have hp := (hlong.longest wal.file ops' hw List.prefix_rfl).1
      exact hlong.isPrefix.eq_of_length_le hp.length_le
    · intro hp
      rw [← hp]
      exact ⟨ops, hlong.wellFormed⟩
  have hclean {tail : Bytes} (hrec : wal.needsRecovery = true ↔ tail ≠ []) :
      wal.needsRecovery = false ↔ tail = [] := by
    rw [← Bool.not_eq_true, hrec, not_ne_iff]
  rw [hflags, hself]
  cases h.agree with
  | fresh hfile _ _ hvalid hrec =>
    have hp := hlong.isPrefix
    rw [hfile, List.prefix_nil] at hp
    simp [hvalid, hrec, hp, hfile]
  | v3 _ tail hfile _ _ hvalid hrec _ hg hg64 hok hn hstop =>
    have hl := longestLog_v3 host wal.generation ops tail hg hg64 hok hn hstop
    rw [← hfile] at hl
    rw [(hl.unique hlong).1, hvalid, hclean hrec, hfile, ← List.append_assoc]
    simp
  | v2 _ tail hfile hm _ _ hvalid hrec _ _ hok hstop =>
    rcases eq_or_ne wal.file [] with he | hne
    · have hp := hlong.isPrefix
      rw [he, List.prefix_nil] at hp
      rw [he] at hfile
      have ht := (List.append_eq_nil_iff.mp hfile.symm).2
      simp [hvalid, hclean hrec, ht, hp, he]
    · have hm := hm hne
      have hl := longestLog_v2 host ops tail (by rw [← hfile]; exact hm) hok hstop
      rw [← hfile] at hl
      rw [(hl.unique hlong).1, hvalid, hclean hrec, hfile]
      simp
  | badHeader hne hm hh _ _ hvalid =>
    have hl := longestLog_badHeader host hm hh
    rw [(hl.unique hlong).1, hvalid]
    simp [Ne.symm hne]

/-- A batch behind a well-formed file extends the log by its operations. -/
theorem appended (h : WalInv host wal ops) (hadm : wal.appendCheck = .ok ()) {new : List WalRecord}
    (hok : ∀ op ∈ new, RecordOk wal.portable op)
    (hn : wal.portable = true → ops.length+new.length < 2^64) :
    WalInv host (wal.appended host new) (ops ++ new) := by
  refine ⟨h.outputOpen, h.noFailure, ?_⟩
  obtain ⟨hvalid,hrec,hfile⟩ := h.of_appendCheck hadm
  have hrec' : (wal.appended host new).needsRecovery = true ↔ ([] : Bytes) ≠ [] := by
    simp [WriteAheadLog.appended, hrec]
  have hv3 (hv2 : wal.legacyV2 = false) (hseq : wal.nextSequence = 1+ops.length)
      (hg : 0 < wal.generation) (hg64 : wal.generation < 2^64)
      (hold : ∀ op ∈ ops, RecordOk true op) :
      FieldsAgree host (wal.appended host new) (ops ++ new) := by
    have hp : wal.portable = true := by simp [WriteAheadLog.portable, hv2]
    rw [hp] at hok hfile
    have hlen := hn hp
    refine .v3 (ops ++ new) [] ?_ hv2 (by simp [WriteAheadLog.appended, hv2]) hvalid hrec' ?_ hg
      hg64 (List.forall_mem_append.mpr ⟨hold,hok⟩) (by simpa using hlen) (noFrame_nil host true _)
    · simp only [WriteAheadLog.appended, hp]
      rw [← List.append_assoc, hfile, framesFrom_append, hseq]
      simp
    · simp [WriteAheadLog.appended, hp, hseq, Nat.add_assoc]
  cases h.agree with
  | fresh _ hv2 _ _ _ hseq hg hg64 => exact hv3 hv2 hseq hg hg64 (by simp)
  | v3 _ _ _ hv2 _ _ _ hseq hg hg64 hold => exact hv3 hv2 hseq hg hg64 hold
  | v2 _ _ _ _ hv2 hpend _ _ hseq hg hold =>
    have hp : wal.portable = false := by simp [WriteAheadLog.portable, hv2]
    rw [hp] at hok hfile
    have hall := List.forall_mem_append.mpr ⟨hold,hok⟩
    have hnew : (wal.appended host new).file = framesFrom host false 1 (ops ++ new) ++ [] := by
      simp only [WriteAheadLog.appended, hp]
      rw [← List.append_assoc, hfile, framesFrom_append,
        framesFrom_v2 host wal.nextSequence (1+ops.length)]
      simp
    refine .v2 (ops ++ new) [] hnew ?_ hv2 (by simp [WriteAheadLog.appended, hpend]) hvalid hrec'
      (by simp [WriteAheadLog.appended, hp, hseq]) hg hall (noFrame_nil host false _)
    intro hne
    rw [hnew, List.append_nil] at hne ⊢
    have hcons : ops ++ new ≠ [] := by
      rintro he
      rw [he] at hne
      exact hne rfl
    exact wellFormed_v2_frame hcons hall List.prefix_rfl
  | badHeader _ _ _ _ _ hbad =>
    rw [hvalid] at hbad
    cases hbad

/-- An empty batch writes the header, if it is still to be written. -/
theorem appended_nil (h : WalInv host wal ops) (hadm : wal.appendCheck = .ok ()) :
    WalInv host (wal.appended host []) ops := by
  have hn (hp : wal.portable = true) : ops.length < 2^64 := by
    cases h.agree with
    | fresh | badHeader => norm_num
    | v3 _ _ _ _ _ _ _ _ _ _ _ hn => exact hn
    | v2 _ _ _ _ hv2 => simp [WriteAheadLog.portable, hv2] at hp
  have hinv := @WalInv.appended host wal ops h hadm [] (by simp) hn
  rwa [List.append_nil] at hinv

theorem length_le (h : WalInv host wal ops) : 13*ops.length ≤ wal.file.length :=
  h.agree.fileShape.length_le

theorem sequence_le (h : WalInv host wal ops) : wal.nextSequence ≤ 1+ops.length := by
  cases h.agree with
  | fresh _ _ _ _ _ hseq => omega
  | v3 _ _ _ _ _ _ _ hseq => omega
  | v2 _ _ _ _ _ _ _ _ hseq => omega
  | badHeader _ _ _ _ _ _ _ hseq => omega

/-- An admitted append within the size limit is acknowledged and extends the log. -/
theorem append_acknowledged (h : WalInv host wal ops) (hadm : wal.appendCheck = .ok ())
    {op : WalRecord} (hok : RecordOk wal.portable op) (hn : ops.length+1 < kMaxUint64) :
    wal.append host op = (.ok (), wal.appended host [op]) ∧
      WalInv host (wal.appended host [op]) (ops ++ [op]) := by
  have hseq := h.sequence_le
  simp only [kMaxUint64] at hn
  refine ⟨wal.append_of_ok host hadm h.outputOpen hok
    (fun _ => by simp only [kMaxUint64]; omega), ?_⟩
  exact h.appended hadm (by simpa using hok) (fun _ => by simp only [List.length_singleton]; omega)

/-- `Clear` starts a new generation with an empty file. -/
theorem cleared (h : WalInv host wal ops) (hmax : wal.generation ≠ kMaxUint64) :
    wal.cleared.appendCheck = .ok () ∧ WalInv host wal.cleared [] := by
  refine ⟨wal.cleared.appendCheck_ok_iff.mpr ⟨h.noFailure, rfl, rfl⟩, rfl, h.noFailure, ?_⟩
  have hlt : wal.generation+1 < 2^64 := by
    have := h.agree.generation_lt
    simp only [kMaxUint64] at hmax
    omega
  exact .fresh rfl rfl rfl rfl rfl rfl (Nat.succ_pos _) hlt

/-- A v2 object with an empty file holds nothing. -/
theorem v2_empty {tail : Bytes} (hfile : wal.file = framesFrom host false 1 ops ++ tail)
    (he : wal.file = []) : ops = [] ∧ tail = [] := by
  rw [he] at hfile
  refine ⟨?_, (List.append_eq_nil_iff.mp hfile.symm).2⟩
  by_contra hne
  exact framesFrom_ne_nil hne (List.append_eq_nil_iff.mp hfile.symm).1

theorem recordOk (h : WalInv host wal ops) : ∀ op ∈ ops, RecordOk wal.portable op := by
  cases h.agree with
  | fresh | badHeader => simp
  | v3 _ _ _ hv2 _ _ _ _ _ _ hok =>
    have hp : wal.portable = true := by simp [WriteAheadLog.portable, hv2]
    rwa [hp]
  | v2 _ _ _ _ hv2 _ _ _ _ _ hok =>
    have hp : wal.portable = false := by simp [WriteAheadLog.portable, hv2]
    rwa [hp]

theorem of_empty (h : WalInv host wal ops) (he : wal.file = []) :
    wal.headerPending = true ∨ wal.legacyV2 = true := by
  cases h.agree with
  | fresh _ _ hpend => exact .inl hpend
  | v3 _ _ hfile => simp [hfile, makeHeader_eq, headerBody, kWalMagic] at he
  | v2 _ _ _ _ hv2 => exact .inr hv2
  | badHeader hne => exact absurd he hne

theorem generation_eq (h : WalInv host wal ops) {g : ℕ} (hg : 0 < g) (hg64 : g < 2^64)
    (hpre : makeHeader g <+: wal.file) : wal.generation = g := by
  have hne : wal.file ≠ [] := by
    intro he
    simp [he, makeHeader_eq, headerBody, kWalMagic] at hpre
  cases h.agree with
  | fresh hfile => exact absurd hfile hne
  | v3 _ _ hfile _ _ _ _ _ hg' hg64' =>
    have hpre' : makeHeader wal.generation <+: wal.file := by
      conv_rhs => rw [hfile]
      exact List.prefix_append _ _
    exact header_prefix_unique hg' hg64' hg hg64 hpre' hpre
  | v2 _ _ _ hm =>
    have hv := hm hne
    rw [magicPrefix_of_header hpre] at hv
    cases hv
  | badHeader _ _ hh =>
    rw [(parseHeader_fst_iff _).mpr ⟨g,hg,hg64,hpre⟩] at hh
    cases hh

/-- A replay of the file finds the operations and the last sequence number the object
goes on from, and ends cleanly when the object takes appends. -/
theorem replay (h : WalInv host wal ops) (m : Store) :
    ∃ r, replayFromDetailed host wal.file 0 m = .ok (r, applyOps ops m) ∧
      r.appliedOperations = ops.length ∧ (wal.appendCheck = .ok () → r.status = .cleanEof) ∧
      wal.nextSequence = r.lastSequence+1 := by
  have htail {tail : Bytes} (hrec : wal.needsRecovery = true ↔ tail ≠ [])
      (hadm : wal.appendCheck = .ok ()) : tail = [] := by
    have hflag := (wal.appendCheck_ok_iff.mp hadm).2.2
    rwa [← Bool.not_eq_true, hrec, not_ne_iff] at hflag
  cases h.agree with
  | fresh hfile _ _ _ _ hseq =>
    rw [hfile]
    exact ⟨_, replay_empty host 0 m (Nat.zero_le _), rfl, fun _ => rfl, hseq⟩
  | v3 _ tail hfile _ _ _ hrec hseq hg hg64 hok hn hstop =>
    obtain ⟨status,hr,hst⟩ := replay_v3 host wal.generation ops tail m hg hg64 hok hn hstop
    rw [← hfile] at hr
    exact ⟨_, hr, rfl, fun hadm => hst.mpr (htail hrec hadm), hseq.trans (Nat.add_comm ..)⟩
  | v2 _ tail hfile hm _ _ _ hrec hseq _ hok hstop =>
    rcases eq_or_ne wal.file [] with he | hne
    · obtain ⟨rfl,-⟩ := v2_empty hfile he
      rw [he]
      exact ⟨_, replay_empty host 0 m (Nat.zero_le _), rfl, fun _ => rfl, hseq⟩
    · have hmf := hm hne
      rw [hfile] at hmf hne
      obtain ⟨status,hr,hst⟩ := replay_v2 host ops tail m hmf hne hok hstop
      rw [← hfile] at hr
      exact ⟨_, hr, rfl, fun hadm => hst.mpr (htail hrec hadm), hseq⟩
  | badHeader hne hm hh _ _ hvalid _ hseq =>
    refine ⟨_, replay_badHeader host 0 m (Nat.zero_le _) hne hm hh, rfl, fun hadm => ?_, hseq⟩
    rw [(wal.appendCheck_ok_iff.mp hadm).2.1] at hvalid
    cases hvalid

/-- Recovery from the start cuts a torn tail off and never loses a readable record. -/
theorem recovered (h : WalInv host wal ops) (hn : ops.length < kMaxUint64) (m : Store) :
    ∃ r wal', wal.replayFromAndTruncate host 0 m = (.ok (r, applyOps ops m), wal') ∧
      wal'.policy = wal.policy ∧ wal'.maxBatch = wal.maxBatch ∧ wal'.appendCheck = .ok () ∧
      WalInv host wal' ops := by
  have hkeep (hrec : wal.needsRecovery = false) (hvalid : wal.formatValid = true) {r}
      (hr : replayFromDetailed host wal.file 0 m = .ok (r, applyOps ops m))
      (hst : r.status = .cleanEof) :
      ∃ r wal', wal.replayFromAndTruncate host 0 m = (.ok (r, applyOps ops m), wal') ∧
        wal'.policy = wal.policy ∧ wal'.maxBatch = wal.maxBatch ∧ wal'.appendCheck = .ok () ∧
        WalInv host wal' ops := by
    exact ⟨r, wal, WriteAheadLog.replayFromAndTruncate_clean hr hst, rfl, rfl,
      wal.appendCheck_ok_iff.mpr ⟨h.noFailure, hvalid, hrec⟩, h⟩
  cases h.agree with
  | fresh hfile _ _ hvalid hrec =>
    refine hkeep hrec hvalid (r := {}) ?_ rfl
    rw [hfile]
    exact replay_empty host 0 m (Nat.zero_le _)
  | v3 _ tail hfile hv2 hpend hvalid hrec hseq hg hg64 hok hn64 hstop =>
    obtain ⟨status,hr,hst⟩ := replay_v3 host wal.generation ops tail m hg hg64 hok hn64 hstop
    rw [← hfile] at hr
    rcases eq_or_ne tail [] with ht | ht
    · have hclean : wal.needsRecovery = false := by
        rw [← Bool.not_eq_true, hrec, not_ne_iff]
        exact ht
      exact hkeep hclean hvalid hr (hst.mpr ht)
    -- what is left after the cut is read again before the fields are set
    obtain ⟨status',hr',hst'⟩ := replay_v3 host wal.generation ops [] ∅ hg hg64 hok hn64
      (noFrame_nil host true _)
    have hcut : wal.file.take (kHeaderLength+(framesFrom host true 1 ops).length) =
        makeHeader wal.generation ++ (framesFrom host true 1 ops ++ []) := by
      rw [hfile, List.append_nil, ← List.append_assoc]
      exact List.take_left' (by simp)
    have hle : ¬kHeaderLength+(framesFrom host true 1 ops).length > wal.file.length := by
      rw [hfile]
      simp
    have h0 : ¬kHeaderLength+(framesFrom host true 1 ops).length = 0 := by simp [kHeaderLength]
    have hend : ¬(status' ≠ .cleanEof ∨ ops.length = kMaxUint64) := by
      rintro (hne | hmax)
      · exact hne (hst'.mpr rfl)
      · omega
    simp only [WriteAheadLog.replayFromAndTruncate, hr, if_neg (fun hc => ht (hst.mp hc)),
      WriteAheadLog.truncateTo, hv2, h0, false_and, and_false, if_false, if_neg hle,
      hcut, hr', hend, Bool.false_eq_true]
    refine ⟨_, _, rfl, rfl, rfl, ?_, rfl, h.noFailure, ?_⟩
    · exact (WriteAheadLog.appendCheck_ok_iff _).mpr ⟨h.noFailure, hvalid, rfl⟩
    · exact .v3 ops [] rfl rfl hpend hvalid (by simp) (Nat.add_comm ..) hg hg64 hok hn64
        (noFrame_nil host true _)
  | v2 _ tail hfile hm hv2 hpend hvalid hrec hseq hg hok hstop =>
    have hclean (ht : tail = []) : wal.needsRecovery = false := by
      rw [← Bool.not_eq_true, hrec, not_ne_iff]
      exact ht
    rcases eq_or_ne wal.file [] with he | hne
    · have hnil := v2_empty hfile he
      refine hkeep (hclean hnil.2) hvalid (r := {}) ?_ rfl
      rw [he, hnil.1]
      exact replay_empty host 0 m (Nat.zero_le _)
    have hmf := hm hne
    rw [hfile] at hmf hne
    obtain ⟨status,hr,hst⟩ := replay_v2 host ops tail m hmf hne hok hstop
    rw [← hfile] at hr
    rcases eq_or_ne tail [] with ht | ht
    · exact hkeep (hclean ht) hvalid hr (hst.mpr ht)
    have hcut :
        wal.file.take (framesFrom host false 1 ops).length = framesFrom host false 1 ops := by
      rw [hfile]
      exact List.take_left
    have hle : ¬(framesFrom host false 1 ops).length > wal.file.length := by
      rw [hfile]
      simp
    simp only [WriteAheadLog.replayFromAndTruncate, hr, if_neg (fun hc => ht (hst.mp hc)),
      WriteAheadLog.truncateTo, hv2, Bool.true_eq_false, false_and, if_false, if_neg hle, hcut,
      if_true]
    refine ⟨_, _, rfl, rfl, rfl, ?_, rfl, h.noFailure, ?_⟩
    · exact (WriteAheadLog.appendCheck_ok_iff _).mpr ⟨h.noFailure, hvalid, rfl⟩
    · refine .v2 ops [] (List.append_nil _).symm ?_ rfl hpend hvalid (by simp) hseq hg hok
        (noFrame_nil host false _)
      intro hne
      exact wellFormed_v2_frame (by rintro rfl; exact hne rfl) hok List.prefix_rfl
  | badHeader hne hm hh hv2 hpend hvalid hrec hseq hg =>
    have hr := replay_badHeader host 0 m (Nat.zero_le _) hne hm hh
    have h0 : ¬wal.generation = kMaxUint64 := by
      rw [hg]
      simp [kMaxUint64]
    simp only [WriteAheadLog.replayFromAndTruncate, hr, reduceCtorEq, if_false,
      WriteAheadLog.truncateTo, hv2, h0, and_false, Nat.not_lt_zero, gt_iff_lt, if_true,
      Bool.false_eq_true, List.take_zero, applyOps_nil]
    refine ⟨_, _, rfl, rfl, rfl, ?_, rfl, h.noFailure, ?_⟩
    · exact (WriteAheadLog.appendCheck_ok_iff _).mpr ⟨h.noFailure, rfl, rfl⟩
    · exact .fresh rfl rfl rfl rfl rfl rfl (Nat.succ_pos _) (by simp [hg])

end WalInv

/-! ### Several appends -/

/-- The object after some operations, with no header written before the first. -/
def written (host : ByteOrder) (wal : WriteAheadLog) (ops : List WalRecord) : WriteAheadLog :=
  if ops = [] then wal else wal.appended host ops

theorem appended_append (host : ByteOrder) (wal : WriteAheadLog) (xs ys : List WalRecord) :
    (wal.appended host xs).appended host ys = wal.appended host (xs ++ ys) := by
  rw [WriteAheadLog.appended, wal.appended_headerBytes, wal.appended_portable]
  cases hp : wal.portable with
  | false =>
    have hl : wal.legacyV2 = true := by simpa [WriteAheadLog.portable] using hp
    simp [WriteAheadLog.appended, hp, hl, framesFrom_append,
      framesFrom_v2 host wal.nextSequence (wal.nextSequence+xs.length) ys]
  | true =>
    have hl : wal.legacyV2 = false := by simpa [WriteAheadLog.portable] using hp
    simp [WriteAheadLog.appended, hp, hl, framesFrom_append, Nat.add_assoc]

theorem written_append (host : ByteOrder) (wal : WriteAheadLog) (xs ys : List WalRecord) :
    written host (written host wal xs) ys = written host wal (xs ++ ys) := by
  rcases eq_or_ne xs [] with rfl | hx
  · simp [written]
  rcases eq_or_ne ys [] with rfl | hy
  · simp [written]
  · simp [written, hx, hy, appended_append]

theorem written_isPrefix (host : ByteOrder) (wal : WriteAheadLog) (xs ys : List WalRecord) :
    (written host wal xs).file <+: (written host wal (xs ++ ys)).file := by
  rw [← written_append]
  generalize written host wal xs = w
  unfold written
  split
  · exact List.prefix_rfl
  · exact List.prefix_append _ _

@[simp] theorem written_appendCheck (host : ByteOrder) (wal : WriteAheadLog)
    (ops : List WalRecord) :
    (written host wal ops).appendCheck = wal.appendCheck := by
  unfold written
  split
  · rfl
  · rfl

end ConcurrentKV
