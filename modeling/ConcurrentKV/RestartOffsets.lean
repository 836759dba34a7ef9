import ConcurrentKV.OffsetReplay
import ConcurrentKV.Recovery

/-! A session that starts from a snapshot and a log which need not belong together, writes,
and is closed. The log does not know the snapshot's offset and goes on at its own end; the
next startup replays from the offset again. -/
namespace ConcurrentKV
open ByteCodec OpLog

/-- `Set` and `Delete` calls one after the other: first the log, then the map. There is no
result when a call throws or the file outgrows what the system can address. -/
def writeAll (host : ByteOrder) :
    WriteAheadLog × Store → List WalRecord → Option (WriteAheadLog × Store)
  | st, [] => some st
  | (wal,data), op :: ops => match wal.append host op with
    | (.error _, _) => none
    | (.ok _, wal) =>
      if wal.file.length ≤ kMaxStreamoff then writeAll host (wal, applyOp op data) ops else none

/-- Whatever is acknowledged after a startup is there after the next one. -/
def SurvivesRestart (host : ByteOrder) (disk : Disk) : Prop :=
  ∀ policy maxBatch wal data, startup host disk policy maxBatch = .ok (wal,data) →
    ∀ ops wal' live, writeAll host (wal,data) ops = some (wal',live) →
      ∀ policy' maxBatch', 1 ≤ maxBatch' ∧ maxBatch' ≤ 4096 →
        ∃ wal'', startup host { disk with wal := wal'.file } policy' maxBatch' = .ok (wal'',live)

/-- The offset is the beginning, or the place where the first frame will be, or a place from
which the file is whole frames up to its end. -/
def OffsetFits (host : ByteOrder) (b : Bytes) (ops : List WalRecord) (W : ℕ) : Prop :=
  W = 0 ∨ (b = [] ∧ W = kHeaderLength) ∨
    (b ≠ [] ∧ (magicPrefix b = true → kHeaderLength ≤ W) ∧
      FramesTo host (magicPrefix b) b (1+ops.length) W)

/-- What a session appends to: a log with the header it may still have to write. -/
structure LogBase (host : ByteOrder) (portable : Bool) (g : ℕ) (c : Bytes)
    (ops : List WalRecord) : Prop where
  bytes : c = (if portable then makeHeader g else []) ++ framesFrom host portable 1 ops
  generation : portable = true → 0 < g ∧ g < 2^64
  legacy : portable = false → g = 0 ∧ ops ≠ []
  recordOk : ∀ op ∈ ops, RecordOk portable op
  few : ops.length < kMaxUint64

namespace LogBase

variable {host : ByteOrder} {portable : Bool} {g : ℕ} {c : Bytes} {ops : List WalRecord}

theorem bytes_v3 (h : LogBase host true g c ops) : c = makeHeader g ++ framesFrom host true 1 ops :=
  h.bytes

theorem bytes_v2 (h : LogBase host false g c ops) : c = framesFrom host false 1 ops := h.bytes

theorem ne_nil (h : LogBase host portable g c ops) : c ≠ [] := by
  cases portable with
  | true =>
    rw [h.bytes_v3]
    simp [makeHeader_eq, headerBody, kWalMagic]
  | false =>
    rw [h.bytes_v2]
    exact framesFrom_ne_nil (h.legacy rfl).2

theorem magicPrefix (h : LogBase host portable g c ops) : magicPrefix c = portable := by
  cases portable with
  | true =>
    rw [h.bytes_v3]
    exact magicPrefix_of_header (List.prefix_append _ _)
  | false =>
    rw [h.bytes_v2]
    exact wellFormed_v2_frame (h.legacy rfl).2 h.recordOk List.prefix_rfl

theorem fileShape (h : LogBase host portable g c ops) : FileShape host c ops := by
  apply WellFormedLog.fileShape
  cases portable with
  | true =>
    have hfew := h.few
    simp only [kMaxUint64] at hfew
    rw [h.bytes_v3]
    exact .v3 g ops (h.generation rfl).1 (h.generation rfl).2 h.recordOk (by omega)
  | false =>
    rw [h.bytes_v2]
    exact .v2 ops (h.legacy rfl).2 h.recordOk

theorem append (h : LogBase host portable g c ops) {new : List WalRecord}
    (hok : ∀ op ∈ new, RecordOk portable op) (hfew : ops.length+new.length < kMaxUint64) :
    LogBase host portable g (c ++ framesFrom host portable (1+ops.length) new) (ops ++ new) := by
  refine ⟨?_, h.generation, fun hp => ?_, List.forall_mem_append.mpr ⟨h.recordOk,hok⟩, ?_⟩
  · rw [h.bytes, framesFrom_append, List.append_assoc]
  · obtain ⟨hg,hne⟩ := h.legacy hp
    exact ⟨hg, by simp [hne]⟩
  · rwa [List.length_append]

/-- A replay from an offset other than the beginning does nothing inside the header, and is
the loop from there elsewhere. -/
theorem replayFrom (h : LogBase host portable g c ops) {W : ℕ} (hW : W ≠ 0)
    (hmax : W ≤ kMaxStreamoff) (m : Store) :
    ∃ r, replayFromDetailed host c W m = .ok (r, if portable = true ∧ W < kHeaderLength then m
      else (replayLoop host c portable W (middleState g W m)).2) := by
  cases portable with
  | false =>
    obtain ⟨rfl,-⟩ := h.legacy rfl
    refine ⟨(replayLoop host c false W (middleState 0 W m)).1, ?_⟩
    simp only [replayFrom_v2 m h.ne_nil h.magicPrefix hmax, Bool.false_eq_true, false_and, if_false]
  | true =>
    obtain ⟨hg,hg64⟩ := h.generation rfl
    have hpre : makeHeader g <+: c := by
      rw [h.bytes_v3]
      exact List.prefix_append _ _
    by_cases hlt : W < kHeaderLength
    · have hl : ¬c.length = 0 := fun h0 => h.ne_nil (List.length_eq_zero_iff.mp h0)
      rw [replayFromDetailed, if_neg (Nat.not_lt.mpr hmax), if_neg hl]
      simp [h.magicPrefix, hW, hlt]
    · refine ⟨(replayLoop host c true W (middleState g W m)).1, ?_⟩
      simp only [replayFrom_v3 m hg hg64 hpre (Nat.not_lt.mp hlt) hmax, hlt, and_false, if_false]

theorem replay_start (h : LogBase host portable g c ops) (m : Store) :
    ∃ r, replayFromDetailed host c 0 m = .ok (r, applyOps ops m) := by
  obtain ⟨p,r,-,hr,-⟩ := h.fileShape.replay m
  exact ⟨r, hr⟩

/-- Whole frames that lead up to the last record and begin where the first record is begin
with the first record. -/
theorem first_number (h : LogBase host true g c ops) {s : ℕ} {u : List WalRecord}
    (hd : c.drop kHeaderLength = framesFrom host true s u) (hs : s+u.length = 1+ops.length) :
    s = 1 := by
  rw [h.bytes_v3, List.drop_left' (length_makeHeader g)] at hd
  have hfew := h.few
  simp only [kMaxUint64] at hfew
  cases ops with
  | nil =>
    have hu : u = [] := by
      by_contra hne
      exact framesFrom_ne_nil hne hd.symm
    subst hu
    simpa using hs
  | cons op ops => cases u with
    | nil => exact absurd hd (framesFrom_ne_nil (List.cons_ne_nil op ops))
    | cons op' u =>
      rw [List.length_cons, List.length_cons] at hs
      rw [List.length_cons] at hfew
      rw [framesFrom, framesFrom] at hd
      exact (frameBytes_sequence (by norm_num) (by omega) hd).symm

/-- From a fitting offset the replay takes up what is appended. -/
theorem replay_append (h : LogBase host portable g c ops) {W : ℕ} (hmax : W ≤ kMaxStreamoff)
    (hfit : W = 0 ∨ (portable = true → kHeaderLength ≤ W) ∧
      FramesTo host portable c (1+ops.length) W)
    {new : List WalRecord} (hok : ∀ op ∈ new, RecordOk portable op)
    (hfew : ops.length+new.length < kMaxUint64) {r : WalReplayResult} {D m : Store}
    (hr : replayFromDetailed host c W D = .ok (r,m)) :
    ∃ r, replayFromDetailed host (c ++ framesFrom host portable (1+ops.length) new) W D =
      .ok (r, applyOps new m) := by
  have happ := h.append hok hfew
  rcases eq_or_ne W 0 with rfl | hW
  · obtain ⟨r₀,hr₀⟩ := h.replay_start D
    obtain ⟨r',hr'⟩ := happ.replay_start D
    rw [hr₀] at hr
    obtain ⟨-,rfl⟩ := Prod.mk.inj (Except.ok.inj hr)
    exact ⟨r', by rw [hr', applyOps_append]⟩
  obtain ⟨hhead,hframes⟩ := hfit.resolve_left hW
  have hbehind : ¬(portable = true ∧ W < kHeaderLength) := by
    rintro ⟨hp,hlt⟩
    exact absurd (hhead hp) (Nat.not_le.mpr hlt)
  obtain ⟨r₀,hr₀⟩ := h.replayFrom hW hmax D
  obtain ⟨r',hr'⟩ := happ.replayFrom hW hmax D
  rw [if_neg hbehind] at hr₀ hr'
  rw [hr₀] at hr
  obtain ⟨-,rfl⟩ := Prod.mk.inj (Except.ok.inj hr)
  refine ⟨r', ?_⟩
  rw [hr', hframes.replayLoop_append D hok]
  · intro _
    simp only [kMaxUint64] at hfew
    omega
  · rintro rfl rfl s u hd hs
    exact h.first_number hd hs

/-- A record that every replay from `W` loses, unless the offset fits. -/
theorem exists_lost (h : LogBase host portable g c ops) {W : ℕ} (hmax : W ≤ kMaxStreamoff)
    (hfew : ops.length+1 < kMaxUint64) (D : Store) :
    ∃ v : Bytes, v.length ≤ 2 ∧ ∀ r m, replayFromDetailed host
        (c ++ framesFrom host portable (1+ops.length) [.set [] v]) W D = .ok (r,m) →
      m.lookup [] = some v →
      W = 0 ∨ (portable = true → kHeaderLength ≤ W) ∧
        FramesTo host portable c (1+ops.length) W := by
  rcases eq_or_ne W 0 with rfl | hW
  · exact ⟨[], by simp, fun _ _ _ _ => .inl rfl⟩
  have hok {v : Bytes} (hv : v.length ≤ 2) :
      ∀ op ∈ ([.set [] v] : List WalRecord), RecordOk portable op := by
    intro op hop
    obtain rfl := List.mem_singleton.mp hop
    have := recordLength_pos portable (.set [] v)
    refine ⟨by omega, ?_⟩
    simp only [recordLength, payloadLength, kMaxRecordLength]
    split <;> simp <;> omega
  by_cases hin : portable = true ∧ W < kHeaderLength
  · -- inside the header the map stays what the snapshot has
    obtain ⟨v,hv,-,hshort⟩ := exists_probe portable (D.lookup []) 0
    refine ⟨v, hshort, fun r m hr hm => absurd hm ?_⟩
    obtain ⟨r',hr'⟩ := (h.append (hok hshort) hfew).replayFrom hW hmax D
    rw [if_pos hin, hr] at hr'
    obtain ⟨-,rfl⟩ := Prod.mk.inj (Except.ok.inj hr')
    exact hv
  · obtain ⟨v,hshort,-,hprobe⟩ := @framesTo_of_probe host portable c (1+ops.length) W g D (by
      simp only [kMaxUint64] at hfew
      omega)
    refine ⟨v, hshort, fun r m hr hm => .inr ⟨fun hp => ?_, hprobe ?_⟩⟩
    · by_contra hlt
      exact hin ⟨hp, Nat.not_le.mp hlt⟩
    obtain ⟨r',hr'⟩ := (h.append (hok hshort) hfew).replayFrom hW hmax D
    rw [if_neg hin, hr] at hr'
    obtain ⟨-,rfl⟩ := Prod.mk.inj (Except.ok.inj hr')
    simpa [framesFrom] using hm

end LogBase

/-! ### The session -/

variable {host : ByteOrder} {wal : WriteAheadLog} {ops : List WalRecord}

/-- The base of an object that takes appends. -/
theorem WalInv.logBase (h : WalInv host wal ops) (hadm : wal.appendCheck = .ok ())
    (hv2 : wal.legacyV2 = true → ops ≠ []) (hfew : ops.length < kMaxUint64) :
    LogBase host wal.portable wal.generation (wal.file ++ wal.headerBytes) ops ∧
      (wal.portable = true → wal.nextSequence = 1+ops.length) := by
  obtain ⟨hvalid,hrec,hfile⟩ := h.of_appendCheck hadm
  have hp {b : Bool} (hl : wal.legacyV2 = b) : wal.portable = !b := by
    simp [WriteAheadLog.portable, hl]
  have hbase (hg : wal.portable = true → 0 < wal.generation ∧ wal.generation < 2^64)
      (hl : wal.portable = false → wal.generation = 0) :
      LogBase host wal.portable wal.generation (wal.file ++ wal.headerBytes) ops := by
    refine ⟨hfile, hg, fun hpf => ⟨hl hpf, hv2 ?_⟩, h.recordOk, hfew⟩
    simpa [WriteAheadLog.portable] using hpf
  cases h.agree with
  | fresh _ hl _ _ _ hseq hg hg64 =>
    exact ⟨hbase (fun _ => ⟨hg,hg64⟩) (by simp [hp hl]), fun _ => hseq⟩
  | v3 _ _ _ hl _ _ _ hseq hg hg64 =>
    exact ⟨hbase (fun _ => ⟨hg,hg64⟩) (by simp [hp hl]), fun _ => hseq⟩
  | v2 _ _ _ _ hl _ _ _ _ hg => exact ⟨hbase (by simp [hp hl]) (fun _ => hg), by simp [hp hl]⟩
  | badHeader _ _ _ _ _ hbad =>
    rw [hvalid] at hbad
    cases hbad

/-- Behind the base come the frames of what is appended. -/
theorem WriteAheadLog.appended_file (hseq : wal.portable = true → wal.nextSequence = 1+ops.length)
    (new : List WalRecord) : (wal.appended host new).file =
      wal.file ++ wal.headerBytes ++ framesFrom host wal.portable (1+ops.length) new := by
  rw [WriteAheadLog.appended, List.append_assoc]
  cases hp : wal.portable with
  | true => rw [hseq hp]
  | false => rw [framesFrom_v2 host wal.nextSequence (1+ops.length)]

/-- Acknowledged calls leave the log and the map with exactly their operations. -/
theorem writeAll_eq (h : WalInv host wal ops) (hadm : wal.appendCheck = .ok ())
    (hroom : wal.file.length ≤ kMaxStreamoff) {data live : Store} {new : List WalRecord}
    {wal' : WriteAheadLog} (hw : writeAll host (wal,data) new = some (wal',live)) :
    wal' = written host wal new ∧ live = applyOps new data ∧ WalInv host wal' (ops ++ new) ∧
      wal'.file.length ≤ kMaxStreamoff ∧ ∀ op ∈ new, RecordOk wal.portable op := by
  induction new generalizing wal ops data with
  | nil =>
    obtain ⟨rfl,rfl⟩ := Prod.mk.inj (Option.some.inj hw)
    rw [List.append_nil]
    exact ⟨rfl, rfl, h, hroom, by simp⟩
  | cons op new ih =>
    have hok : RecordOk wal.portable op := by
      by_contra hno
      obtain ⟨e,he⟩ := wal.append_of_oversized host hno
      rw [writeAll, he] at hw
      cases hw
    have hfew : ops.length+1 < kMaxUint64 := by
      have := h.length_le
      simp only [kMaxStreamoff, kMaxUint64] at hroom ⊢
      omega
    obtain ⟨happ,hinv⟩ := h.append_acknowledged hadm hok hfew
    rw [writeAll, happ] at hw
    dsimp only at hw
    split at hw
    · rename_i hroom'
      obtain ⟨rfl,rfl,hinv',hlen,hall⟩ := ih hinv hadm hroom' hw
      have hone : wal.appended host [op] = written host wal [op] := rfl
      refine ⟨by rw [hone, written_append]; rfl, rfl, ?_, hlen, List.forall_mem_cons.mpr ⟨hok,hall⟩⟩
      simpa using hinv'
    · cases hw

/-- A session that startup has opened on a well-formed log. -/
structure Opened (host : ByteOrder) (b : Bytes) (ops : List WalRecord) (wal : WriteAheadLog) :
    Prop where
  inv : WalInv host wal ops
  check : wal.appendCheck = .ok ()
  file : wal.file = b
  sequence : wal.portable = true → wal.nextSequence = 1+ops.length
  base : LogBase host wal.portable wal.generation (wal.file ++ wal.headerBytes) ops
  header : b ≠ [] → wal.headerBytes = []
  fresh : b = [] → wal.portable = true ∧ ops = []

theorem opened_of_openWal {b : Bytes} {policy : DurabilityPolicy} {maxBatch : ℕ}
    (hlog : WellFormedLog host b ops) (hroom : b.length ≤ kMaxStreamoff)
    (hopen : openWal host b policy maxBatch = .ok wal) : Opened host b ops wal := by
  have hfew : ops.length < kMaxUint64 := by
    have := hlog.fileShape.length_le
    simp only [kMaxStreamoff, kMaxUint64] at hroom ⊢
    omega
  obtain ⟨wal₀,hopen₀,hfile,-,-,hinv⟩ :=
    openWal_inv hlog.fileShape policy (openWal_maxBatch hopen) (fun _ => hfew)
  obtain rfl : wal₀ = wal := Except.ok.inj (hopen₀.symm.trans hopen)
  have hadm : wal₀.appendCheck = .ok () := by
    rw [hinv.appendCheck_iff, hfile]
    exact ⟨ops, hlog⟩
  have hv2 : wal₀.legacyV2 = true → ops ≠ [] := by
    rintro hl rfl
    have hne : b ≠ [] := by
      -- an empty file is opened as v3
      rintro rfl
      have hb : ¬(maxBatch = 0 ∨ maxBatch > 4096) := by
        have := openWal_maxBatch hopen
        omega
      rw [openWal, if_neg hb] at hopen
      simp only [List.length_nil, if_true] at hopen
      rw [← Except.ok.inj hopen] at hl
      cases hl
    cases hinv.agree with
    | fresh hnil => exact hne (hfile.symm.trans hnil)
    | v3 _ _ _ hl' => simp [hl'] at hl
    | v2 _ _ _ hm =>
      rw [hfile] at hm
      rcases hlog.elim with ⟨he,-⟩ | ⟨g,-,-,rfl⟩ | ⟨hops,-⟩
      · exact hne he
      · have := hm hne
        rw [magicPrefix_of_header (List.prefix_append _ _)] at this
        cases this
      · exact hops rfl
    | badHeader _ _ _ hl' => simp [hl'] at hl
  obtain ⟨hbase,hseq⟩ := hinv.logBase hadm hv2 hfew
  refine ⟨hinv, hadm, hfile, hseq, hbase, fun hne => ?_, fun he => ?_⟩
  · cases hinv.agree with
    | fresh hnil => exact absurd (hfile.symm.trans hnil) hne
    | v3 _ _ _ _ hpend => simp [WriteAheadLog.headerBytes, hpend]
    | v2 _ _ _ _ _ hpend => simp [WriteAheadLog.headerBytes, hpend]
    | badHeader _ _ _ _ hpend => simp [WriteAheadLog.headerBytes, hpend]
  · have hops : ops = [] := by
      rcases hlog.elim with ⟨-,hops⟩ | ⟨g,-,-,rfl⟩ | ⟨hops,rfl,-⟩
      · exact hops
      · simp [makeHeader_eq, headerBody, kWalMagic] at he
      · exact absurd he (framesFrom_ne_nil hops)
    refine ⟨?_, hops⟩
    by_contra hp
    exact hv2 (by simpa [WriteAheadLog.portable] using hp) hops

namespace Opened

variable {b : Bytes}

/-- The header alone replays to nothing, like the empty file it will be written to. -/
theorem replay_base (h : Opened host b ops wal) {W : ℕ} (hmax : W ≤ kMaxStreamoff)
    {r : WalReplayResult} {D m : Store} (hr : replayFromDetailed host b W D = .ok (r,m)) :
    ∃ r, replayFromDetailed host (wal.file ++ wal.headerBytes) W D = .ok (r,m) := by
  by_cases hb : b = []
  · obtain ⟨hp,rfl⟩ := h.fresh hb
    have hbase := h.base
    rw [hp] at hbase
    rw [hb, replay_empty host W D hmax] at hr
    obtain ⟨-,rfl⟩ := Prod.mk.inj (Except.ok.inj hr)
    rcases eq_or_ne W 0 with rfl | hW
    · exact hbase.replay_start D
    obtain ⟨r',hr'⟩ := hbase.replayFrom hW hmax D
    refine ⟨r', ?_⟩
    rw [hr']
    split
    · rfl
    rename_i hin
    have hd : (wal.file ++ wal.headerBytes).drop W = framesFrom host true 1 [] := by
      apply List.drop_eq_nil_of_le
      rw [hbase.bytes_v3]
      simp only [framesFrom, List.append_nil, length_makeHeader]
      exact Nat.not_lt.mp (fun hlt => hin ⟨rfl,hlt⟩)
    obtain ⟨r'',hloop,-⟩ := replayLoop_to_end _ D (by simp) one_pos (by simp) (fun _ _ => rfl) hd
    rw [hloop]
    rfl
  · rw [h.header hb, List.append_nil, h.file]
    exact ⟨r, hr⟩

/-- The condition on the offset, on the base. -/
theorem offsetFits_iff (h : Opened host b ops wal) (W : ℕ) : OffsetFits host b ops W ↔
    W = 0 ∨ (wal.portable = true → kHeaderLength ≤ W) ∧
      FramesTo host wal.portable (wal.file ++ wal.headerBytes) (1+ops.length) W := by
  by_cases hb : b = []
  · obtain ⟨hp,rfl⟩ := h.fresh hb
    have hbase := h.base
    rw [hp] at hbase
    have hlen : (wal.file ++ wal.headerBytes).length = kHeaderLength := by
      rw [hbase.bytes_v3]
      simp [framesFrom]
    simp only [OffsetFits, hb, hp, true_and, ne_eq, not_true, false_and, or_false, forall_const]
    refine or_congr_right ⟨?_, ?_⟩
    · rintro rfl
      refine ⟨le_rfl, hlen.ge, 1, [], one_pos, by simp, ?_, fun _ => rfl⟩
      exact List.drop_eq_nil_of_le hlen.le
    · rintro ⟨hle,hframes⟩
      exact le_antisymm (hframes.1.trans hlen.le) hle
  · have hm := h.base.magicPrefix
    rw [h.header hb, List.append_nil, h.file] at hm ⊢
    simp only [OffsetFits, hb, hm, ne_eq, not_false_eq_true, true_and, false_and, false_or]

end Opened

/-- A replay from an offset that can be addressed never throws. -/
theorem replayFromDetailed_ok (host : ByteOrder) (b : Bytes) {W : ℕ} (hmax : W ≤ kMaxStreamoff)
    (m : Store) : ∃ r m', replayFromDetailed host b W m = .ok (r,m') := by
  rw [replayFromDetailed, if_neg (Nat.not_lt.mpr hmax)]
  dsimp only
  repeat' split
  all_goals exact ⟨_, _, rfl⟩

/-- What a successful startup has done. -/
theorem startup_ok {disk : Disk} {policy : DurabilityPolicy} {maxBatch : ℕ} {data : Store}
    (h : startup host disk policy maxBatch = .ok (wal,data))
    {result : SnapshotLoadResult} {D : Store}
    (hload : loadSnapshot host disk.snapshot ∅ = .ok (result,D)) :
    openWal host disk.wal policy maxBatch = .ok wal ∧
      ∃ r, replayFromDetailed host disk.wal result.walOffset D = .ok (r,data) := by
  unfold startup at h
  split at h
  · cases h
  rename_i wal₀ hopen
  rw [hload, (openWal_fields hopen).1] at h
  dsimp only at h
  split at h
  · cases h
  rename_i r data₀ hr
  obtain ⟨rfl,rfl⟩ := Prod.mk.inj (Except.ok.inj h)
  exact ⟨hopen, r, hr⟩

/-- A single short `Set` is acknowledged. -/
theorem Opened.writeAll_one {b : Bytes} (h : Opened host b ops wal)
    (hroom : b.length+64 ≤ kMaxStreamoff) {v : Bytes} (hv : v.length ≤ 2) (data : Store) :
    writeAll host (wal,data) [.set [] v] =
      some (wal.appended host [.set [] v], applyOps [.set [] v] data) := by
  have hlen : recordLength wal.portable (.set [] v) ≤ 19 := by
    simp only [recordLength, payloadLength, List.length_nil]
    split <;> omega
  have hok : RecordOk wal.portable (.set [] v) := by
    have := recordLength_pos wal.portable (.set [] v)
    refine ⟨by omega, ?_⟩
    simp only [kMaxRecordLength]
    omega
  have hfew : ops.length+1 < kMaxUint64 := by
    have := h.inv.length_le
    rw [h.file] at this
    simp only [kMaxStreamoff, kMaxUint64] at hroom ⊢
    omega
  have hfits : (wal.appended host [.set [] v]).file.length ≤ kMaxStreamoff := by
    have hhead : wal.headerBytes.length ≤ kHeaderLength := by
      unfold WriteAheadLog.headerBytes
      split <;> simp
    simp only [kHeaderLength] at hhead
    simp only [WriteAheadLog.appended, framesFrom, List.append_nil, List.length_append,
      length_frameBytes, h.file]
    omega
  rw [writeAll, (h.inv.append_acknowledged h.check hok hfew).1]
  dsimp only
  rw [if_pos hfits]
  rfl

/-- Acknowledged writes survive the restart exactly when the snapshot's offset fits the log
that startup found: the log may be shorter than the offset, and then what is written next
lies before it or across it. -/
theorem writes_survive_restart_iff (disk : Disk) {result : SnapshotLoadResult} {D : Store}
    (hload : loadSnapshot host disk.snapshot ∅ = .ok (result,D))
    (hoff : result.walOffset ≤ kMaxStreamoff) (hlog : WellFormedLog host disk.wal ops)
    (hroom : disk.wal.length+64 ≤ kMaxStreamoff) :
    SurvivesRestart host disk ↔ OffsetFits host disk.wal ops result.walOffset := by
  have hroom' : disk.wal.length ≤ kMaxStreamoff := by omega
  constructor
  · intro hall
    have hfew : ops.length+1 < kMaxUint64 := by
      have := hlog.fileShape.length_le
      simp only [kMaxStreamoff, kMaxUint64] at hroom ⊢
      omega
    obtain ⟨r,data,hr⟩ := replayFromDetailed_ok host disk.wal hoff D
    obtain ⟨wal,hstart,-⟩ := startup_of_replay disk hload hlog.fileShape (by omega) hr .buffered
      (by omega : 1 ≤ 1 ∧ 1 ≤ 4096)
    have hop := opened_of_openWal hlog hroom' (startup_ok hstart hload).1
    -- the one record that tells
    obtain ⟨v,hshort,hlost⟩ := hop.base.exists_lost hoff hfew D
    obtain ⟨wal',hstart'⟩ := hall _ _ _ _ hstart _ _ _ (hop.writeAll_one hroom hshort data)
      .buffered 1 (by omega)
    obtain ⟨-,r',hr'⟩ := startup_ok hstart' hload
    dsimp only at hr'
    rw [WriteAheadLog.appended_file hop.sequence] at hr'
    rw [hop.offsetFits_iff]
    apply hlost r' _ hr'
    rw [applyOps_cons, applyOps_nil, lookup_applyOp]
    rfl
  · intro hfit policy maxBatch wal data hstart new wal' live hw policy' maxBatch' hbatch
    obtain ⟨hopen,r,hr⟩ := startup_ok hstart hload
    have hop := opened_of_openWal hlog hroom' hopen
    rw [hop.offsetFits_iff] at hfit
    obtain ⟨rfl,rfl,hinv,hlen,hok⟩ := writeAll_eq hop.inv hop.check (hop.file ▸ hroom') hw
    have hfew : (ops ++ new).length < kMaxUint64 := by
      have := hinv.length_le
      simp only [kMaxStreamoff, kMaxUint64] at hlen ⊢
      omega
    have hnext : ∃ r, replayFromDetailed host (written host wal new).file result.walOffset D =
        .ok (r, applyOps new data) := by
      rcases eq_or_ne new [] with rfl | hne
      · rw [written, if_pos rfl, hop.file]
        exact ⟨r, hr⟩
      · obtain ⟨r,hr⟩ := hop.replay_base hoff hr
        rw [written, if_neg hne, WriteAheadLog.appended_file hop.sequence]
        exact hop.base.replay_append hoff hfit hok (by rwa [List.length_append] at hfew) hr
    obtain ⟨r',hr'⟩ := hnext
    obtain ⟨wal'',hstart'',-⟩ := startup_of_replay { disk with wal := (written host wal new).file }
      hload hinv.agree.fileShape hfew hr' policy' hbatch
    exact ⟨wal'', hstart''⟩

/-- The snapshot of one key is at offset 51, where the log ended, and the log has lost its
unsynced bytes. The next write ends at offset 51 again and is not replayed. -/
theorem write_lost_at_restart :
    ∃ wal data wal' live wal'' rebuilt,
      startup .little ⟨[], some (snapshotBytes .little [([107],[118])] 51), none⟩ .buffered 1 =
        .ok (wal,data) ∧
      writeAll .little (wal,data) [.set [108] [119]] = some (wal',live) ∧
      startup .little ⟨wal'.file, some (snapshotBytes .little [([107],[118])] 51), none⟩
        .buffered 1 = .ok (wal'',rebuilt) ∧
      live.lookup [108] = some [119] ∧ rebuilt.lookup [108] = none ∧
      ¬SurvivesRestart .little ⟨[], some (snapshotBytes .little [([107],[118])] 51), none⟩ := by
  have hrun : (match startup .little ⟨[], some (snapshotBytes .little [([107],[118])] 51), none⟩
      .buffered 1 with
    | .error _ => none
    | .ok st => (writeAll .little st [.set [108] [119]]).bind fun st' =>
      match startup .little ⟨st'.1.file, some (snapshotBytes .little [([107],[118])] 51), none⟩
        .buffered 1 with
      | .error _ => none
      | .ok st'' => some (st'.2.lookup [108], st''.2.lookup [108])) = some (some [119], none) := by
    decide +kernel
  split at hrun
  · cases hrun
  rename_i st hstart
  obtain ⟨st',hwrite,hrun⟩ := Option.bind_eq_some_iff.mp hrun
  split at hrun
  · cases hrun
  rename_i st'' hstart'
  obtain ⟨hlive,hrebuilt⟩ := Prod.mk.inj (Option.some.inj hrun)
  refine ⟨st.1, st.2, st'.1, st'.2, st''.1, st''.2, hstart, hwrite, hstart', hlive, hrebuilt, ?_⟩
  intro hall
  obtain ⟨wal'',hlive'⟩ := hall _ _ _ _ hstart _ _ _ hwrite .buffered 1 (by decide)
  have hsame : st'' = (wal'',st'.2) := Except.ok.inj (hstart'.symm.trans hlive')
  rw [hsame, hlive] at hrebuilt
  cases hrebuilt

/-- A log of two records. -/
def loggedPair : List WalRecord := [.set [107] [118], .set [108] [119]]

/-- The snapshot has the first record, and its offset is where the frame of the second begins. -/
theorem writes_survive_from_second_frame :
    OffsetFits .little (makeHeader 1 ++ framesFrom .little true 1 loggedPair) loggedPair 51 ∧
      SurvivesRestart .little ⟨makeHeader 1 ++ framesFrom .little true 1 loggedPair,
        some (snapshotBytes .little [([107],[118])] 51), none⟩ := by
  have hok : ∀ op ∈ loggedPair, RecordOk true op := by decide
  have hfit : OffsetFits .little (makeHeader 1 ++ framesFrom .little true 1 loggedPair) loggedPair
      51 := by
    refine .inr (.inr ⟨by decide +kernel, fun _ => by decide, by decide +kernel, 2,
      [.set [108] [119]], by decide, by decide, ?_, fun _ => rfl⟩)
    decide +kernel
  have hload : loadSnapshot .little (some (snapshotBytes .little [([107],[118])] 51)) ∅ =
      .ok (⟨true, 1, 51⟩, storeOf [([107],[118])]) := by
    have henum : Enumerates [([107],[118])] (storeOf [([107],[118])]) := ⟨by decide, rfl⟩
    refine loadSnapshot_snapshotBytes henum (fun k v hv => ?_) (by decide) (by decide) ∅
    obtain ⟨rfl,rfl⟩ : k = [107] ∧ v = [118] := by simpa using (henum.lookup_iff k v).mp hv
    decide
  exact ⟨hfit, (writes_survive_restart_iff ⟨_, _, none⟩ hload (by decide)
    (.v3 1 loggedPair one_pos (by decide) hok (by decide)) (by decide +kernel)).mpr hfit⟩

end ConcurrentKV
