import ConcurrentKV.OffsetReplay
import ConcurrentKV.WalTruncation

/-! `ReplayFromAndTruncate` at every offset. It cuts the file where a replay from the given
offset stops. Whether that is the end of the validated log depends on the place of the offset: in
the header, at a record or inside one, in what follows the log, or behind the end of the file. -/
namespace ConcurrentKV
open ByteCodec OpLog

/-! ### Where a replay stops -/

variable {host : ByteOrder} {portable : Bool} {b : Bytes} {offset : ℕ}

/-- The loop goes on until the end of the file or to the start of a frame it refuses. -/
theorem replayLoop_stop (st : ReplayState) (hg : st.result.lastGoodOffset = st.cursor)
    (hs : st.result.stopOffset = st.cursor) :
    st.cursor ≤ (replayLoop host b portable offset st).1.lastGoodOffset ∧
      ((replayLoop host b portable offset st).1.status = .cleanEof ↔
        b.length ≤ (replayLoop host b portable offset st).1.lastGoodOffset) := by
  obtain ⟨s,ops,rest,r,-,-,-,herr,hloop⟩ := replayLoop_cases host portable b offset st
  obtain ⟨status,rfl,hst⟩ := replayFrame_error herr
  rw [hloop]
  dsimp only
  rw [advanceAll_cursor host] at hst
  rw [advanceAll_result host portable s ops st hg hs]
  exact ⟨Nat.le_add_right _ _, hst⟩

/-- Whole frames lead from one place of the file to another. The first of them may carry any
number but zero, and has to carry number one where the first record of a v3 log stands. Every
place leads to itself, also behind the end of the file. -/
def FrameRun (host : ByteOrder) (portable : Bool) (b : Bytes) (start stop : ℕ) : Prop :=
  ∃ s u, b.drop start = framesFrom host portable s u ++ b.drop stop ∧
    stop = start+(framesFrom host portable s u).length ∧ (∀ op ∈ u, RecordOk portable op) ∧
    (portable = true → 0 < s ∧ s+u.length ≤ 2^64 ∧ (start = kHeaderLength → s = 1))

/-- A replay gets at least as far as frames lead. -/
theorem FrameRun.le_stop {stop : ℕ} (h : FrameRun host portable b offset stop) (g : ℕ) (m : Store) :
    stop ≤ (replayLoop host b portable offset (middleState g offset m)).1.lastGoodOffset := by
  obtain ⟨s,u,hd,rfl,hok,hnum⟩ := h
  have hacc : AcceptsRun portable offset (middleState g offset m).result s u := by
    refine ⟨fun hp => (hnum hp).2.1, fun hne hp => ?_⟩
    obtain ⟨hs,hlen,hfirst⟩ := hnum hp
    have := List.length_pos_of_ne_nil hne
    exact acceptsSequence_middle hs (fun _ => by omega) (fun _ => hfirst) hp
  have hcursor := advanceAll_cursor host portable s u (middleState g offset m)
  have hresult := advanceAll_result host portable s u (middleState g offset m) rfl rfl
  have hstop := (@replayLoop_stop host portable b offset
    (advanceAll portable s u (middleState g offset m)) (by rw [hresult, hcursor])
    (by rw [hresult, hcursor])).1
  rw [hcursor] at hstop
  rw [replayLoop_framesFrom hok hacc hd]
  exact hstop

/-- It gets no further: frames lead to the place where it stops. -/
theorem frameRun_stop (host : ByteOrder) (portable : Bool) (b : Bytes) (offset g : ℕ) (m : Store) :
    FrameRun host portable b offset
      (replayLoop host b portable offset (middleState g offset m)).1.lastGoodOffset := by
  obtain ⟨s,u,rest,r,hd,hok,hacc,herr,hloop⟩ :=
    replayLoop_cases host portable b offset (middleState g offset m)
  replace hd : b.drop offset = framesFrom host portable s u ++ rest := hd
  obtain ⟨status,rfl,-⟩ := replayFrame_error herr
  rw [hloop]
  dsimp only
  rw [advanceAll_result host portable s u (middleState g offset m) rfl rfl]
  have hrest : b.drop (offset+(framesFrom host portable s u).length) = rest := by
    rw [← List.drop_drop, hd, List.drop_left]
  rcases eq_or_ne u [] with rfl | hne
  · -- without a frame the number is free
    refine ⟨1, [], ?_, rfl, hok, fun _ => by simp⟩
    exact (hd.trans (congrArg _ hrest.symm))
  · refine ⟨s, u, ?_, rfl, hok, fun hp => ⟨?_, hacc.1 hp, fun hW => ?_⟩⟩
    · exact (hd.trans (congrArg _ hrest.symm))
    all_goals
      have hrej := (hacc.2 hne hp).2
      simp only [sequenceRejected, middleState, Bool.or_eq_false_iff] at hrej
    · simpa [Nat.pos_iff_ne_zero] using hrej.1.1
    · simpa [hW] using hrej.1.2

/-- It comes to the end of the file if frames lead there. -/
theorem replayLoop_clean_iff (host : ByteOrder) (portable : Bool) (b : Bytes) (offset g : ℕ)
    (m : Store) :
    (replayLoop host b portable offset (middleState g offset m)).1.status = .cleanEof ↔
      ∃ stop, b.length ≤ stop ∧ FrameRun host portable b offset stop := by
  rw [(replayLoop_stop (middleState g offset m) rfl rfl).2]
  constructor
  · intro hle
    exact ⟨_, hle, frameRun_stop host portable b offset g m⟩
  · rintro ⟨stop,hle,hrun⟩
    exact hle.trans (hrun.le_stop g m)

/-! ### Appends after a recovery -/

/-- Every append within the size limit is acknowledged, while numbers last, and replayed. -/
def TakesAppends (host : ByteOrder) (wal : WriteAheadLog) : Prop :=
  ∃ kept, ∀ new : List WalRecord, (∀ op ∈ new, RecordOk wal.portable op) →
    (wal.portable = true → wal.nextSequence+new.length ≤ kMaxUint64) →
    (wal.appendAll host new).2 = new ∧
    ∀ m, ∃ r, replayFromDetailed host (wal.appendAll host new).1.file 0 m =
      .ok (r, applyOps (kept ++ new) m) ∧ r.appliedOperations = kept.length+new.length

/-- An object that is ready for one append is ready for the next. -/
theorem WriteAheadLog.appendAll_eq (wal : WriteAheadLog) (hadm : wal.appendCheck = .ok ())
    (hopen : wal.outputOpen = true) {new : List WalRecord}
    (hok : ∀ op ∈ new, RecordOk wal.portable op)
    (hn : wal.portable = true → wal.nextSequence+new.length ≤ kMaxUint64) :
    wal.appendAll host new = (written host wal new, new) := by
  induction new generalizing wal with
  | nil => rfl
  | cons op new ih =>
    have hlt (hp : wal.portable = true) : wal.nextSequence < kMaxUint64 := by
      have := hn hp
      rw [List.length_cons] at this
      omega
    have happ := wal.append_of_ok host hadm hopen (hok op List.mem_cons_self) hlt
    have hrest := ih (wal.appended host [op]) hadm hopen
      (fun o ho => hok o (List.mem_cons_of_mem _ ho)) (fun hp => by
        have := hn hp
        rw [List.length_cons] at this
        have hseq : (wal.appended host [op]).nextSequence = wal.nextSequence+1 := if_pos hp
        omega)
    have hone : wal.appended host [op] = written host wal [op] := rfl
    rw [appendAll, wal.acknowledges_of_append host happ, happ]
    dsimp only
    rw [hrest, hone, written_append]
    rfl

/-- An object in step that is ready for an append takes all. -/
theorem TruncInv.takesAppends {wal : WriteAheadLog} {ops : List WalRecord}
    (h : TruncInv host wal ops) (hadm : wal.appendCheck = .ok ()) (hopen : wal.outputOpen = true) :
    TakesAppends host wal := by
  refine ⟨ops, fun new hok hn => ?_⟩
  have hall := @WriteAheadLog.appendAll_eq host wal hadm hopen new hok hn
  refine ⟨by rw [hall], fun m => ?_⟩
  obtain ⟨r,hr,happ⟩ := h.replayed new m
  rw [show (wal.appendAll host new).2 = new by rw [hall]] at hr happ
  exact ⟨r, hr, happ⟩

/-- Whether one short record can be appended shows whether any can. -/
theorem recordOk_delete_nil (portable : Bool) : RecordOk portable (.delete []) := by
  cases portable <;> decide

theorem TakesAppends.appendCheck {wal : WriteAheadLog} (h : TakesAppends host wal)
    (h64 : wal.nextSequence+1 ≤ kMaxUint64) : wal.appendCheck = .ok () := by
  obtain ⟨kept,hall⟩ := h
  have hone := (hall [.delete []] (by simpa using recordOk_delete_nil wal.portable)
    (fun _ => h64)).1
  cases hadm : wal.appendCheck with
  | ok => rfl
  | error e =>
    obtain ⟨e',he⟩ := @WriteAheadLog.append_of_refused host wal (.delete []) e hadm
    rw [WriteAheadLog.appendAll, wal.acknowledges_of_append host he] at hone
    simp [WriteAheadLog.appendAll, Except.toBool] at hone

/-- Whatever is left of a v2 file does not look like a v3 log once a short record follows. -/
theorem magicPrefix_short_frame {b' : Bytes} (hm : magicPrefix b = false) (hpre : b' <+: b)
    (hne : b' ≠ []) (s : ℕ) {v : Bytes} (hv : v.length ≤ 2) :
    magicPrefix (b' ++ frameBytes host false s (.set [] v)) = false := by
  by_cases h4 : 4 ≤ b'.length
  · -- the four bytes of the magic are all there and they are not the magic
    apply magicPrefix_append
    rw [← hm]
    refine magicPrefix_congr h4 (h4.trans hpre.length_le) ?_
    obtain ⟨rest,rfl⟩ := hpre
    rw [List.take_append_of_le_length h4]
  -- the next byte of the magic is a letter, and a short length has none
  have hrec : recordLength false (.set [] v : WalRecord) = 9+v.length := by
    simp [recordLength, payloadLength]
  have hbyte : ∃ c rest, frameBytes host false s (.set [] v) = c :: rest ∧ 3 ≤ rest.length ∧
      c ≠ 0x56 ∧ c ≠ 0x57 ∧ c ≠ 0x33 := by
    rw [frameBytes, length_recordBytes, hrec]
    rcases encode_small (fieldOrder host false) (by omega : 9+v.length < 256) with he | he
    · rw [he]
      refine ⟨_, _, rfl, by simp, ?_⟩
      have hcases : v.length = 0 ∨ v.length = 1 ∨ v.length = 2 := by omega
      rcases hcases with hl | hl | hl <;> rw [hl] <;> decide
    · rw [he]
      exact ⟨_, _, rfl, by simp, by decide⟩
  obtain ⟨c,rest,hc,hlen,h56,h57,h33⟩ := hbyte
  rw [hc, magicPrefix, beq_eq_false_iff_ne]
  have hmagic : kWalMagic.take (b' ++ c :: rest).length = kWalMagic := by
    apply List.take_of_length_le
    simp [kWalMagic]
    omega
  rw [hmagic]
  rcases b' with _ | ⟨_,_ | ⟨_,_ | ⟨_,_ | _⟩⟩⟩
  · exact absurd rfl hne
  · simp [kWalMagic, h56]
  · simp [kWalMagic, h57]
  · simp [kWalMagic, h33]
  · simp at h4

/-- A v2 object whose file is not whole frames loses what it appends. -/
theorem TakesAppends.wellFormed_v2 {wal : WriteAheadLog} (h : TakesAppends host wal)
    (hv2 : wal.legacyV2 = true) (hadm : wal.appendCheck = .ok ()) (hopen : wal.outputOpen = true)
    (hm : magicPrefix b = false) (hpre : wal.file <+: b) :
    ∃ ops, WellFormedLog host wal.file ops := by
  rcases eq_or_ne wal.file [] with he | hne
  · rw [he]
    exact ⟨[], .empty⟩
  have hp : wal.portable = false := by simp [WriteAheadLog.portable, hv2]
  obtain ⟨kept,hall⟩ := h
  -- one short record tells whether the replay gets to the end of the file
  obtain ⟨v,hv,-,hprobe⟩ := @framesTo_of_probe host false wal.file wal.nextSequence 0 0 ∅ (by simp)
  have hok : ∀ op ∈ [(.set [] v : WalRecord)], RecordOk wal.portable op := by
    rw [hp]
    simp only [List.mem_singleton, forall_eq, RecordOk, recordLength, payloadLength,
      kMaxRecordLength, List.length_nil]
    simp
    omega
  have hroom (hport : wal.portable = true) :
      wal.nextSequence+[(.set [] v : WalRecord)].length ≤ kMaxUint64 := by
    rw [hp] at hport
    cases hport
  have hfile : (wal.appendAll host [.set [] v]).1.file =
      wal.file ++ frameBytes host false wal.nextSequence (.set [] v) := by
    rw [@WriteAheadLog.appendAll_eq host wal hadm hopen _ hok hroom]
    simp [written, WriteAheadLog.appended, WriteAheadLog.headerBytes, hv2, hp, framesFrom]
  obtain ⟨r,hr,-⟩ := (hall [.set [] v] hok hroom).2 ∅
  rw [hfile, replayFrom_v2 ∅ (by simp [hne]) (magicPrefix_short_frame hm hpre hne _ hv)
    (Nat.zero_le _)] at hr
  obtain ⟨-,s,u,-,hu,hd,-⟩ := hprobe (by
    rw [Except.ok.inj hr, applyOps_append]
    simp [applyOp])
  rw [List.drop_zero, framesFrom_v2 host s 1] at hd
  refine ⟨u, hd ▸ .v2 u ?_ hu⟩
  rintro rfl
  exact hne hd

/-! ### The cut -/

theorem FieldsAgree.formatValid_v2 {wal : WriteAheadLog} {ops : List WalRecord}
    (h : FieldsAgree host wal ops) (hv2 : wal.legacyV2 = true) : wal.formatValid = true := by
  cases h with
  | fresh _ _ _ hvalid | v3 _ _ _ _ _ hvalid => exact hvalid
  | v2 _ _ _ _ _ _ hvalid => exact hvalid
  | badHeader _ _ _ hv2' =>
    rw [hv2] at hv2'
    cases hv2'

section

variable {wal : WriteAheadLog} {ops : List WalRecord} {p : Bytes}

/-- What the cut keeps is no longer a log than the longest one. -/
theorem LongestLog.length_of_cut (hlong : LongestLog host wal.file p ops) {e : ℕ}
    (he : e ≤ wal.file.length) {ops' : List WalRecord}
    (hlog : WellFormedLog host (wal.file.take e) ops') : e ≤ p.length := by
  have hle := (hlong.longest _ ops' hlog (List.take_prefix _ _)).1.length_le
  rw [List.length_take] at hle
  omega

/-- A cut where the log ends. -/
theorem TruncInv.cut_at_end (h : TruncInv host wal ops) (hlong : LongestLog host wal.file p ops) :
    p <+: (wal.truncateTo host p.length).2.file ∧
      ∀ wal', wal.truncateTo host p.length = (.ok (), wal') → TakesAppends host wal' := by
  have hle := hlong.isPrefix.length_le
  have htake : wal.file.take p.length = p := (List.prefix_iff_eq_take.mp hlong.isPrefix).symm
  have hfits : TruncationFits host wal p.length := by
    rw [TruncationFits, if_neg (Nat.not_lt.mpr hle), htake]
    exact .inl ⟨ops, hlong.wellFormed⟩
  constructor
  · rcases wal.truncateTo_file host hle with hfile | ⟨htr,-⟩
    · rw [hfile, htake]
    · rw [htr]
      exact hlong.isPrefix
  · intro wal' htr
    rcases h.truncateTo hfits with ⟨u,ops',hu,hinv,hlog,hopen⟩ | ⟨err,u,hu,-⟩
    · obtain ⟨-,rfl⟩ := Prod.mk.inj (hu.symm.trans htr)
      have hwal : WalInv host u ops' := ⟨hopen, hinv.noFailure, hinv.agree⟩
      exact hinv.takesAppends (hwal.appendCheck_iff.mpr ⟨ops',hlog⟩) hopen
    · cases (Prod.mk.inj (hu.symm.trans htr)).1

/-- A v3 file is read after the cut, and the call throws if it is more than the log. -/
theorem LongestLog.cut_behind_end (hlong : LongestLog host wal.file p ops)
    (hv2 : wal.legacyV2 = false) {e : ℕ} (he : e ≤ wal.file.length) (hlt : p.length < e) :
    p <+: (wal.truncateTo host e).2.file ∧ ∃ err, (wal.truncateTo host e).1 = .error err := by
  obtain ⟨ops',hshape⟩ := exists_fileShape host (wal.file.take e)
  obtain ⟨q,r,hq,hr,-,-,-,hclean,-⟩ := hshape.replay ∅
  have hbad : r.status ≠ .cleanEof := by
    intro hc
    have hlog := hq.wellFormed
    rw [hclean.mp hc] at hlog
    have := hlong.length_of_cut he hlog
    omega
  have htr := WriteAheadLog.truncateTo_v3 hv2 he (by omega) hr
  rw [if_pos (.inl hbad)] at htr
  rw [htr]
  refine ⟨List.prefix_of_prefix_length_le hlong.isPrefix (List.take_prefix _ _) ?_, _, rfl⟩
  rw [List.length_take]
  omega

/-- The cut of a v2 file returns, so it has to leave whole frames. -/
theorem TruncInv.cut_v2 (h : TruncInv host wal ops) (hlong : LongestLog host wal.file p ops)
    (hv2 : wal.legacyV2 = true) {e : ℕ} (he : e ≤ wal.file.length) (hle : p.length ≤ e)
    (husable : ∀ wal', wal.truncateTo host e = (.ok (), wal') → TakesAppends host wal') :
    e = p.length := by
  rcases eq_or_ne wal.file [] with hnil | hne
  · rw [hnil, List.length_nil] at he
    omega
  have hm : magicPrefix wal.file = false := by
    rw [← h.agree.portable_eq hne]
    simp [WriteAheadLog.portable, hv2]
  have hadm := (WriteAheadLog.appendCheck_ok_iff { wal with
    file := wal.file.take e, outputOpen := true, needsRecovery := false }).mpr
      ⟨h.noFailure, h.agree.formatValid_v2 hv2, rfl⟩
  obtain ⟨ops',hlog⟩ := (husable _ (WriteAheadLog.truncateTo_v2 hv2 he)).wellFormed_v2 hv2 hadm
    rfl hm (List.take_prefix _ _)
  exact le_antisymm (hlong.length_of_cut he hlog) hle

/-- A cut keeps the validated log and leaves an object that can be used, if it leaves one. -/
theorem TruncInv.cut_keeps_iff (h : TruncInv host wal ops)
    (hlong : LongestLog host wal.file p ops) {e : ℕ} (he : e ≤ wal.file.length) :
    (p <+: (wal.truncateTo host e).2.file ∧
      ∀ wal', wal.truncateTo host e = (.ok (), wal') → TakesAppends host wal') ↔
    e = p.length ∨ (wal.legacyV2 = false ∧
      (p.length < e ∨ (e = 0 ∧ wal.generation = kMaxUint64))) := by
  constructor
  · rintro ⟨hkept,husable⟩
    rcases wal.truncateTo_file host he with hfile | ⟨-,hv2,h0,hmax⟩
    swap
    · exact .inr ⟨hv2, .inr ⟨h0,hmax⟩⟩
    rw [hfile] at hkept
    have hle : p.length ≤ e := hkept.length_le.trans (List.length_take_le _ _)
    rcases Bool.eq_false_or_eq_true wal.legacyV2 with hv2 | hv2
    · exact .inl (h.cut_v2 hlong hv2 he hle husable)
    · rcases hle.eq_or_lt with heq | hlt
      · exact .inl heq.symm
      · exact .inr ⟨hv2, .inl hlt⟩
  · rintro (rfl | ⟨hv2, hlt | ⟨rfl,hmax⟩⟩)
    · exact h.cut_at_end hlong
    · obtain ⟨hkept,err,herr⟩ := hlong.cut_behind_end hv2 he hlt
      refine ⟨hkept, fun wal' hwal' => ?_⟩
      rw [hwal'] at herr
      cases herr
    · have htr : wal.truncateTo host 0 = (.error .generationExhausted, wal) := by
        rw [WriteAheadLog.truncateTo, if_pos ⟨hv2, rfl, hmax⟩]
      rw [htr]
      exact ⟨hlong.isPrefix, fun wal' hwal' => by cases (Prod.mk.inj hwal').1⟩

end

/-! ### Recovery from an offset -/

/-- What tail recovery promises: the file still begins with the log a replay from the start
accepts, and an object that comes back takes appends and replays them. -/
structure RecoversSafely (host : ByteOrder) (wal : WriteAheadLog) (offset : ℕ) (m : Store) :
    Prop where
  kept : ∀ p ops, LongestLog host wal.file p ops →
    p <+: (wal.replayFromAndTruncate host offset m).2.file
  usable : ∀ result wal', wal.replayFromAndTruncate host offset m = (.ok result, wal') →
    TakesAppends host wal'

/-- The condition on the file and the offset. -/
inductive RecoveryFits (host : ByteOrder) (b : Bytes) (offset : ℕ) : Prop where
  /-- The call throws before it reads. -/
  | tooLarge (h : kMaxStreamoff < offset)
  | start (h : offset = 0)
  /-- The file is empty or has a broken header, so that there is no log to lose. -/
  | noHeader (hm : magicPrefix b = true) (hlog : LongestLog host b [] [])
  /-- Inside the header, when the call wants to start the file anew and there is no further
  generation. -/
  | inHeader (hlt : offset < kHeaderLength) (hg : makeHeader kMaxUint64 <+: b)
  /-- The file is a log to its end, and frames lead from the offset to the end, or it is behind
  the end. -/
  | whole (ops : List WalRecord) (stop : ℕ) (hhead : magicPrefix b = true → kHeaderLength ≤ offset)
      (hlog : WellFormedLog host b ops) (hrun : FrameRun host (magicPrefix b) b offset stop)
      (hstop : b.length ≤ stop)
  /-- The file ends in something else, and frames lead from the offset to the end of the log and
  not to the end of the file. In a v3 file they may lead past the end of the log: what is left
  then is checked, and the call throws. -/
  | torn (p : Bytes) (ops : List WalRecord) (stop : ℕ)
      (hhead : magicPrefix b = true → kHeaderLength ≤ offset) (hlog : LongestLog host b p ops)
      (hrun : FrameRun host (magicPrefix b) b offset stop)
      (hstop : stop = p.length ∨ (magicPrefix b = true ∧ p.length < stop))
      (hend : ∀ stop, FrameRun host (magicPrefix b) b offset stop → stop < b.length)

/-- A replay that is stopped has not run past the end of the file. -/
theorem replayFromDetailed_stop {m m' : Store} {r : WalReplayResult}
    (h : replayFromDetailed host b offset m = .ok (r,m')) (hst : r.status ≠ .cleanEof) :
    b ≠ [] ∧ r.lastGoodOffset ≤ b.length := by
  have hloop {portable : Bool} {W : ℕ} {result : WalReplayResult}
      (hr : replayLoop host b portable W ⟨W, result, m⟩ = (r,m'))
      (hg : result.lastGoodOffset = W) (hs : result.stopOffset = W) :
      r.lastGoodOffset ≤ b.length := by
    have hstop := (@replayLoop_stop host portable b W ⟨W, result, m⟩ hg hs).2
    rw [hr] at hstop
    exact (Nat.lt_of_not_le (mt hstop.mpr hst)).le
  unfold replayFromDetailed at h
  dsimp only at h
  split_ifs at h with hmax hempty hm hbad h0
  · obtain ⟨rfl,-⟩ := Prod.mk.inj (Except.ok.inj h)
    exact absurd rfl hst
  all_goals refine ⟨fun hnil => hempty (by rw [hnil]; rfl), ?_⟩
  · obtain ⟨rfl,-⟩ := Prod.mk.inj (Except.ok.inj h)
    exact Nat.zero_le _
  all_goals exact hloop (Except.ok.inj h) rfl rfl

/-- The promise after the two parts of the call: a replay that comes to the end of the file
changes nothing, any other one leads to a cut. -/
theorem recoversSafely_iff {wal : WriteAheadLog} {ops : List WalRecord} {p : Bytes}
    (hlong : LongestLog host wal.file p ops) {m m' : Store} {r : WalReplayResult}
    (hr : replayFromDetailed host wal.file offset m = .ok (r,m')) :
    RecoversSafely host wal offset m ↔
      if r.status = .cleanEof then TakesAppends host wal
      else p <+: (wal.truncateTo host r.lastGoodOffset).2.file ∧
        ∀ wal', wal.truncateTo host r.lastGoodOffset = (.ok (), wal') → TakesAppends host wal' := by
  have hkept (F : Bytes) :
      (∀ q ops', LongestLog host wal.file q ops' → q <+: F) ↔ p <+: F := by
    refine ⟨fun h => h p ops hlong, fun h q ops' hq => ?_⟩
    rwa [(hlong.unique hq).1]
  by_cases hst : r.status = .cleanEof
  · have hres := WriteAheadLog.replayFromAndTruncate_clean hr hst
    rw [if_pos hst]
    constructor
    · exact fun h => h.usable _ _ hres
    · refine fun h => ⟨(hkept _).mpr ?_, fun result wal' hwal' => ?_⟩
      · rw [hres]
        exact hlong.isPrefix
      · obtain ⟨-,rfl⟩ := Prod.mk.inj (hres.symm.trans hwal')
        exact h
  · have hcut := WriteAheadLog.replayFromAndTruncate_cut hr hst
    rw [if_neg hst]
    generalize wal.truncateTo host r.lastGoodOffset = x at hcut
    obtain ⟨answer,cut⟩ := x
    cases answer with
    | error e =>
      dsimp only at hcut
      constructor
      · intro h
        have hfile := (hkept _).mp h.kept
        rw [hcut] at hfile
        exact ⟨hfile, fun wal' hwal' => by cases (Prod.mk.inj hwal').1⟩
      · rintro ⟨hfile,-⟩
        refine ⟨(hkept _).mpr (by rw [hcut]; exact hfile), fun result wal' hwal' => ?_⟩
        cases (Prod.mk.inj (hcut.symm.trans hwal')).1
    | ok =>
      dsimp only at hcut
      constructor
      · intro h
        have hfile := (hkept _).mp h.kept
        rw [hcut] at hfile
        refine ⟨hfile, fun wal' hwal' => ?_⟩
        obtain ⟨-,rfl⟩ := Prod.mk.inj hwal'
        exact h.usable _ _ hcut
      · rintro ⟨hfile,husable⟩
        refine ⟨(hkept _).mpr (by rw [hcut]; exact hfile), fun result wal' hwal' => ?_⟩
        obtain ⟨-,rfl⟩ := Prod.mk.inj (hcut.symm.trans hwal')
        exact husable _ rfl

/-- The promise about an object that was just opened, by the place where the replay stops: at the
end of a file that is a log, or where the log ends; a v3 file may also be cut behind that place, or
not at all because its generation is the last one. -/
theorem recoversSafely_stop_iff {policy : DurabilityPolicy} {maxBatch : ℕ} {wal : WriteAheadLog}
    (hopen : openWal host b policy maxBatch = .ok wal) (hroom : wal.file.length ≤ kMaxStreamoff)
    {ops : List WalRecord} (hinv : TruncInv host wal ops) {p : Bytes}
    (hlong : LongestLog host wal.file p ops) {m m' : Store} {r : WalReplayResult}
    (hr : replayFromDetailed host wal.file offset m = .ok (r,m')) :
    RecoversSafely host wal offset m ↔
      if r.status = .cleanEof then p = wal.file
      else r.lastGoodOffset = p.length ∨ (wal.legacyV2 = false ∧
        (p.length < r.lastGoodOffset ∨ (r.lastGoodOffset = 0 ∧ wal.generation = kMaxUint64))) := by
  rw [recoversSafely_iff hlong hr]
  split_ifs with hst
  · obtain ⟨ops',hwal,-⟩ := openWal_sound hopen
    constructor
    · intro htakes
      have h64 : wal.nextSequence+1 ≤ kMaxUint64 := by
        have := hwal.sequence_le
        have := hwal.length_le
        simp only [kMaxStreamoff, kMaxUint64] at hroom ⊢
        omega
      obtain ⟨ops'',hlog⟩ := hwal.appendCheck_iff.mp (htakes.appendCheck h64)
      exact hlong.isPrefix.eq_of_length_le (hlong.longest _ _ hlog List.prefix_rfl).1.length_le
    · intro hp
      have hlog := hlong.wellFormed
      rw [hp] at hlog
      exact hinv.takesAppends (hwal.appendCheck_iff.mpr ⟨ops,hlog⟩) hwal.outputOpen
  · exact hinv.cut_keeps_iff hlong (replayFromDetailed_stop hr hst).2

/-- In a v2 file frames that lead to the end of the log lead no further. -/
theorem FrameRun.v2_end {ops : List WalRecord} {tail : Bytes} {stop : ℕ}
    (hfile : b = framesFrom host false 1 ops ++ tail)
    (hstop : NoFrame host false (1+ops.length) tail)
    (h : FrameRun host false b offset (framesFrom host false 1 ops).length)
    (h' : FrameRun host false b offset stop) : stop ≤ (framesFrom host false 1 ops).length := by
  obtain ⟨s,u,hd,hlen,hok,-⟩ := h
  obtain ⟨s',u',hd',rfl,hok',-⟩ := h'
  have htail : b.drop (framesFrom host false 1 ops).length = tail := by
    rw [hfile, List.drop_left]
  rw [htail] at hd
  have hsame : framesFrom host false s u ++ tail = framesFrom host false s u' ++
      b.drop (offset+(framesFrom host false s' u').length) := by
    rw [← hd, hd', framesFrom_v2 host s s' u']
  obtain ⟨v,rfl⟩ :=
    framesFrom_prefix hok hok' (by simp) (fun op x hop _ => hstop op x hop (by simp)) hsame
  rw [hlen, framesFrom_append, List.length_append, framesFrom_v2 host s s' u']
  omega

/-- Outside the header the condition is about the frames behind the offset. -/
theorem recoveryFits_frames_iff {ops : List WalRecord} {p : Bytes}
    (hlong : LongestLog host b p ops) (hlog : magicPrefix b = true → p ≠ [])
    (hoff : offset ≠ 0 ∧ offset ≤ kMaxStreamoff)
    (hhead : magicPrefix b = true → kHeaderLength ≤ offset)
    (hv2 : magicPrefix b = false → ∀ stop, FrameRun host false b offset p.length →
      FrameRun host false b offset stop → stop ≤ p.length) (g : ℕ) (m : Store) :
    RecoveryFits host b offset ↔
      let r := (replayLoop host b (magicPrefix b) offset (middleState g offset m)).1
      if r.status = .cleanEof then p = b
      else r.lastGoodOffset = p.length ∨ (magicPrefix b = true ∧ p.length < r.lastGoodOffset) := by
  have hrun := frameRun_stop host (magicPrefix b) b offset g m
  have hclean := replayLoop_clean_iff host (magicPrefix b) b offset g m
  have hle {stop : ℕ} (h : FrameRun host (magicPrefix b) b offset stop) := h.le_stop g m
  generalize (replayLoop host b (magicPrefix b) offset (middleState g offset m)).1 = r
    at hrun hclean hle
  constructor
  · intro h
    cases h with
    | tooLarge h => omega
    | start h => exact absurd h hoff.1
    | noHeader hm hnone => exact absurd (hnone.unique hlong).1 (hlog hm)
    | inHeader hlt hg =>
      have := hhead (magicPrefix_of_header hg)
      omega
    | whole ops' stop _ hwhole hto hend =>
      have hst := hclean.mpr ⟨stop, hend, hto⟩
      simp only [hst, if_true]
      exact hlong.isPrefix.eq_of_length_le (hlong.longest b ops' hwhole List.prefix_rfl).1.length_le
    | torn p' ops' stop _ hlong' hto hstop hend =>
      obtain ⟨rfl,-⟩ := hlong.unique hlong'
      have hst : r.status ≠ .cleanEof := by
        intro hst
        obtain ⟨far,hfar,hto'⟩ := hclean.mp hst
        have := hend far hto'
        omega
      simp only [hst, if_false]
      rcases hstop with rfl | ⟨hm,hlt⟩
      · cases hm : magicPrefix b with
        | false =>
          rw [hm] at hto hrun hle
          exact .inl (le_antisymm (hv2 hm _ hto hrun) (hle hto))
        | true =>
          rcases (hle hto).eq_or_lt with heq | hlt
          · exact .inl heq.symm
          · exact .inr ⟨rfl, hlt⟩
      · exact .inr ⟨hm, hlt.trans_le (hle hto)⟩
  · intro h
    dsimp only at h
    split_ifs at h with hst
    · obtain ⟨stop,hend,hto⟩ := hclean.mp hst
      exact .whole ops stop hhead (h ▸ hlong.wellFormed) hto hend
    · refine .torn p ops r.lastGoodOffset hhead hlong hrun h ?_
      intro stop hto
      by_contra hge
      exact hst (hclean.mpr ⟨stop, Nat.not_lt.mp hge, hto⟩)

/-- An offset inside the header makes the call throw the file away. -/
theorem replayFrom_inHeader {g : ℕ} (m : Store) (hb : makeHeader g <+: b) (h0 : offset ≠ 0)
    (hlt : offset < kHeaderLength) (hmax : offset ≤ kMaxStreamoff) :
    ∃ r, replayFromDetailed host b offset m = .ok (r,m) ∧ r.status = .invalidHeader ∧
      r.lastGoodOffset = 0 := by
  have hlen : ¬b.length = 0 := by
    have := hb.length_le
    rw [length_makeHeader] at this
    simp only [kHeaderLength] at this
    omega
  rw [replayFromDetailed, if_neg (Nat.not_lt.mpr hmax), if_neg hlen]
  simp [magicPrefix_of_header hb, h0, hlt]

/-- There the condition is about the generation only. -/
theorem recoveryFits_header_iff {ops : List WalRecord} {p : Bytes} {g : ℕ}
    (hlong : LongestLog host b p ops) (hpne : p ≠ []) (hg : 0 < g) (hg64 : g < 2^64)
    (hb : makeHeader g <+: b) (h0 : offset ≠ 0) (hlt : offset < kHeaderLength)
    (hmax : offset ≤ kMaxStreamoff) : RecoveryFits host b offset ↔ g = kMaxUint64 := by
  constructor
  · intro h
    cases h with
    | tooLarge h => omega
    | start h => exact absurd h h0
    | noHeader _ hnone => exact absurd (hnone.unique hlong).1 hpne
    | inHeader _ hlast => exact header_prefix_unique hg hg64 (by decide) (by decide) hb hlast
    | whole _ _ hhead | torn _ _ _ hhead =>
      have := hhead (magicPrefix_of_header hb)
      omega
  · rintro rfl
    exact .inHeader hlt hb

section

variable {policy : DurabilityPolicy} {maxBatch : ℕ} {wal : WriteAheadLog} {ops : List WalRecord}
  {p : Bytes} {m : Store} (hopen : openWal host b policy maxBatch = .ok wal)
  (hroom : wal.file.length ≤ kMaxStreamoff) (hinv : TruncInv host wal ops)
  (hlong : LongestLog host wal.file p ops) (h0 : offset ≠ 0) (hmax : offset ≤ kMaxStreamoff)

include hopen hroom hinv hlong h0 hmax

/-- Everywhere but in the header it is the frames behind the offset that count. -/
theorem recoversSafely_frames_iff (hne : wal.file ≠ []) {g : ℕ}
    (hr : replayFromDetailed host wal.file offset m =
      .ok (replayLoop host wal.file (magicPrefix wal.file) offset (middleState g offset m)))
    (hlog : magicPrefix wal.file = true → p ≠ [])
    (hhead : magicPrefix wal.file = true → kHeaderLength ≤ offset)
    (hv2 : magicPrefix wal.file = false → ∀ stop, FrameRun host false wal.file offset p.length →
      FrameRun host false wal.file offset stop → stop ≤ p.length) :
    RecoversSafely host wal offset m ↔ RecoveryFits host wal.file offset := by
  have hformat : wal.legacyV2 = false ↔ magicPrefix wal.file = true := by
    rw [← hinv.agree.portable_eq hne]
    simp [WriteAheadLog.portable]
  rw [recoversSafely_stop_iff hopen hroom hinv hlong hr,
    recoveryFits_frames_iff hlong hlog ⟨h0,hmax⟩ hhead hv2 g m, hformat]
  have hpos : offset ≤ _ := (@replayLoop_stop host (magicPrefix wal.file) wal.file offset
    (middleState g offset m) rfl rfl).1
  dsimp only
  split_ifs with hst
  · rfl
  · -- the replay does not go back to the start of the file
    have hno : (replayLoop host wal.file (magicPrefix wal.file) offset
        (middleState g offset m)).1.lastGoodOffset ≠ 0 := by omega
    simp only [hno, false_and, or_false]

theorem recoversSafely_header_iff (hv2 : wal.legacyV2 = false) (hg : 0 < wal.generation)
    (hg64 : wal.generation < 2^64) (hpre : makeHeader wal.generation <+: wal.file) (hpne : p ≠ [])
    (hlt : offset < kHeaderLength) :
    RecoversSafely host wal offset m ↔ RecoveryFits host wal.file offset := by
  obtain ⟨r,hr,hst,hstop⟩ := replayFrom_inHeader m hpre h0 hlt hmax
  rw [recoversSafely_stop_iff hopen hroom hinv hlong hr, hst, hstop, if_neg (by decide),
    recoveryFits_header_iff hlong hpne hg hg64 hpre h0 hlt hmax]
  have hlen : 0 < p.length := List.length_pos_of_ne_nil hpne
  constructor
  · rintro (heq | ⟨-, hneg | ⟨-,hgen⟩⟩)
    · omega
    · omega
    · exact hgen
  · intro hgen
    exact .inr ⟨hv2, .inr ⟨rfl, hgen⟩⟩

end

/-- Tail recovery of a file keeps its promise at exactly the offsets that fit the file. -/
theorem tail_recovery_iff (host : ByteOrder) (b : Bytes) (policy : DurabilityPolicy) (maxBatch : ℕ)
    (wal : WriteAheadLog) (hopen : openWal host b policy maxBatch = .ok wal)
    (hroom : b.length ≤ kMaxStreamoff) (offset : ℕ) (m : Store) :
    RecoversSafely host wal offset m ↔ RecoveryFits host b offset := by
  obtain ⟨rfl,-,-,hfail⟩ := openWal_fields hopen
  obtain ⟨ops,hinv⟩ := inStep_of_openWal hopen hfail
  obtain ⟨p,whole,hlong,hwhole,hgood,-,-,hclean,-⟩ := hinv.agree.fileShape.replay m
  rcases lt_or_ge kMaxStreamoff offset with hmax | hmax
  · have hres : wal.replayFromAndTruncate host offset m = (.error .offsetTooLarge, wal) := by
      rw [WriteAheadLog.replayFromAndTruncate, replayFromDetailed, if_pos hmax]
    refine iff_of_true ⟨fun q ops' hq => ?_, fun result wal' hwal' => ?_⟩ (.tooLarge hmax)
    · rw [hres]
      exact hq.isPrefix
    · cases (Prod.mk.inj (hres.symm.trans hwal')).1
  rcases eq_or_ne offset 0 with rfl | h0
  · refine iff_of_true ((recoversSafely_stop_iff hopen hroom hinv hlong hwhole).mpr ?_) (.start rfl)
    split_ifs with hst
    · exact hclean.mp hst
    · exact .inl hgood
  rcases eq_or_ne wal.file [] with hnil | hne
  · have hp : p = [] := List.prefix_nil.mp (hnil ▸ hlong.isPrefix)
    have hops : ops = [] := ((longestLog_empty host).unique (hnil ▸ hlong)).2
    rw [hp, hops] at hlong
    refine iff_of_true ?_ (.noHeader (by rw [hnil]; rfl) hlong)
    have hr := replay_empty host offset m hmax
    rw [← hnil] at hr
    subst hops
    refine (recoversSafely_stop_iff hopen hroom hinv hlong hr).mpr ?_
    rw [if_pos rfl, hnil]
  cases hinv.agree with
  | fresh hfile => exact absurd hfile hne
  | badHeader _ hm hh =>
    have hnone := longestLog_badHeader host hm hh
    refine iff_of_true ?_ (.noHeader hm hnone)
    refine (recoversSafely_stop_iff hopen hroom hinv hnone
      (replay_badHeader host offset m hmax hne hm hh)).mpr ?_
    rw [if_neg (by simp)]
    exact .inl rfl
  | v3 _ tail hfile hv2 _ _ _ _ hg hg64 hok hn hstop =>
    have hpre : makeHeader wal.generation <+: wal.file := by
      rw [hfile]
      exact List.prefix_append _ _
    have hp : p = makeHeader wal.generation ++ framesFrom host true 1 ops := by
      have hlong' := longestLog_v3 host wal.generation ops tail hg hg64 hok hn hstop
      rw [← hfile] at hlong'
      exact (hlong'.unique hlong).1
    have hpne : p ≠ [] := by
      rw [hp]
      simp [makeHeader_eq, headerBody, kWalMagic]
    have hm := magicPrefix_of_header hpre
    rcases lt_or_ge offset kHeaderLength with hlt | hge
    · exact recoversSafely_header_iff hopen hroom hinv hlong h0 hmax hv2 hg hg64 hpre hpne hlt
    · have hr := @replayFrom_v3 host _ _ _ m hg hg64 hpre hge hmax
      rw [← hm] at hr
      refine recoversSafely_frames_iff hopen hroom hinv hlong h0 hmax hne hr (fun _ => hpne)
        (fun _ => hge) (fun hm' => ?_)
      rw [hm] at hm'
      cases hm'
  | v2 _ tail hfile hm hv2 _ _ _ _ _ hok hstop =>
    have hm := hm hne
    have hp : p = framesFrom host false 1 ops := by
      have hlong' := longestLog_v2 host ops tail (hfile ▸ hm) hok hstop
      rw [← hfile] at hlong'
      exact (hlong'.unique hlong).1
    have hr := @replayFrom_v2 host _ _ m hne hm hmax
    rw [← hm] at hr
    have hno (hm' : magicPrefix wal.file = true) : False := by
      rw [hm] at hm'
      cases hm'
    refine recoversSafely_frames_iff hopen hroom hinv hlong h0 hmax hne hr (fun hm' => ?_)
      (fun hm' => ?_) (fun _ stop hto hto' => ?_)
    · exact (hno hm').elim
    · exact (hno hm').elim
    · rw [hp] at hto ⊢
      exact hto.v2_end hfile hstop hto'

/-! ### Record boundaries -/

variable {ops : List WalRecord} {tail : Bytes} {j stop : ℕ}

/-- Frames that begin with a record of the log lead to the end of the log and no further. -/
theorem FrameRun.le_of_boundary
    (hd : b.drop (dataStart portable) = framesFrom host portable 1 ops ++ tail)
    (hok : ∀ op ∈ ops, RecordOk portable op) (hn : portable = true → ops.length < 2^64)
    (hstop : NoFrame host portable (1+ops.length) tail) (hj : j < ops.length)
    (h : FrameRun host portable b (frameStart host portable ops j) stop) :
    stop ≤ dataStart portable+(framesFrom host portable 1 ops).length := by
  obtain ⟨s,u,hrun,rfl,hu,hnum⟩ := h
  rw [drop_frameStart hd hj.le] at hrun
  obtain ⟨op,rest,hrest⟩ := List.exists_cons_of_ne_nil (List.drop_eq_nil_iff.not.mpr (by omega) :
    ops.drop j ≠ [])
  -- the run carries the log's own numbers, since a v3 frame shows its number
  have hsame : framesFrom host portable s u = framesFrom host portable (1+j) u ∧
      (portable = true → 1+j+u.length ≤ 2^64) := by
    cases portable with
    | false => exact ⟨framesFrom_v2 host s (1+j) u, by simp⟩
    | true =>
      obtain ⟨-,hlen,-⟩ := hnum rfl
      cases u with
      | nil => exact ⟨rfl, fun _ => by have := hn rfl; simp; omega⟩
      | cons op' u =>
        rw [hrest, framesFrom, framesFrom, List.append_assoc, List.append_assoc] at hrun
        rw [List.length_cons] at hlen
        have hs := frameBytes_sequence (by have := hn rfl; omega) (by omega) hrun
        rw [hs, List.length_cons]
        exact ⟨rfl, fun _ => hlen⟩
  rw [hsame.1] at hrun ⊢
  have hpre : u <+: ops.drop j := by
    refine framesFrom_prefix (fun o ho => hok o (List.mem_of_mem_drop ho)) hu hsame.2 ?_ hrun
    intro o x ho hlt
    rw [List.length_drop] at hlt ⊢
    rw [show 1+j+(ops.length-j) = 1+ops.length by omega] at hlt ⊢
    exact hstop o x ho hlt
  obtain ⟨v,hv⟩ := hpre
  rw [frameStart, framesFrom_split host portable hj.le, ← hv, framesFrom_append]
  simp only [List.length_append]
  omega

theorem recoveryFits_of_frames {p : Bytes} (hlong : LongestLog host b p ops)
    (hm : magicPrefix b = portable)
    (hd : b.drop (dataStart portable) = framesFrom host portable 1 ops ++ tail)
    (hlen : p.length = dataStart portable+(framesFrom host portable 1 ops).length)
    (hok : ∀ op ∈ ops, RecordOk portable op) (hn : portable = true → ops.length < 2^64)
    (hstop : NoFrame host portable (1+ops.length) tail) (hj : j < ops.length) :
    RecoveryFits host b (frameStart host portable ops j) := by
  have hhead : magicPrefix b = true → kHeaderLength ≤ frameStart host portable ops j := by
    rw [hm]
    rintro rfl
    exact Nat.le_add_right _ _
  have hp : b.drop p.length = tail := by
    rw [hlen, ← List.drop_drop, hd, List.drop_left]
  have hrun : FrameRun host (magicPrefix b) b (frameStart host portable ops j) p.length := by
    rw [hm]
    refine ⟨1+j, ops.drop j, ?_, ?_, fun op hop => hok op (List.mem_of_mem_drop hop), ?_⟩
    · rw [hp]
      exact drop_frameStart hd hj.le
    · rw [hlen, frameStart, framesFrom_split host portable hj.le, List.length_append, Nat.add_assoc]
    · rintro rfl
      have := hn rfl
      rw [List.length_drop]
      refine ⟨by omega, by omega, fun h24 => ?_⟩
      -- only the first record stands right behind the header
      have hge := length_framesFrom_ge host true 1 (ops.take j)
      rw [List.length_take] at hge
      simp only [frameStart, dataStart, if_true] at h24
      omega
  rcases hlong.isPrefix.length_le.eq_or_lt with heq | hlt
  · have hwhole : p = b := hlong.isPrefix.eq_of_length heq
    exact .whole ops p.length hhead (hwhole ▸ hlong.wellFormed) hrun heq.ge
  · refine .torn p ops p.length hhead hlong hrun (.inl rfl) ?_
    intro stop hto
    rw [hm] at hto
    have := hto.le_of_boundary hd hok hn hstop hj
    omega

/-- Recovery from the start of any record of the log keeps its promise. -/
theorem RecoveryFits.of_boundary (h : FileShape host b ops) (hj : j < ops.length) :
    RecoveryFits host b (frameStart host (magicPrefix b) ops j) := by
  cases h with
  | empty | badHeader => cases hj
  | v3 g _ tail hg hg64 hok hn hstop =>
    have hm := magicPrefix_of_header (List.prefix_append (makeHeader g)
      (framesFrom host true 1 ops ++ tail))
    have hlong := longestLog_v3 host g ops tail hg hg64 hok hn hstop
    rw [hm]
    refine recoveryFits_of_frames hlong hm ?_ ?_ hok (fun _ => hn) hstop hj
    · exact List.drop_left' (length_makeHeader g)
    · rw [List.length_append, length_makeHeader]
      rfl
  | v2 _ tail hm hne hok hstop =>
    have hlong := longestLog_v2 host ops tail hm hok hstop
    rw [hm]
    refine recoveryFits_of_frames hlong hm rfl ?_ hok (by simp) hstop hj
    exact (Nat.zero_add _).symm

/-- A v3 log with one record and the first bytes of a second. -/
def tornLog : Bytes := oneRecord true ++ [19, 0, 0]

theorem noFrame_tornTail : NoFrame .little true 2 [19, 0, 0] := by
  intro op x _ _ h
  have hl := congrArg List.length h
  rw [List.length_append, length_frameBytes] at hl
  simp at hl
  omega

theorem fileShape_tornLog : FileShape .little tornLog [.set [1] [2]] :=
  .v3 1 [.set [1] [2]] [19, 0, 0] (by decide) (by decide) (by decide) (by decide) noFrame_tornTail

/-- Recovery of the torn log from behind its header. -/
theorem tail_recovery_from_first_frame : ∃ wal,
    openWal .little tornLog .sync 1 = .ok wal ∧ RecoversSafely .little wal kHeaderLength ∅ := by
  have hopens : (openWal .little tornLog .sync 1).toOption.isSome = true := by decide +kernel
  obtain ⟨wal,hwal⟩ := Option.isSome_iff_exists.mp hopens
  have hopen := eq_ok_of_toOption hwal
  have hfits : RecoveryFits .little tornLog kHeaderLength :=
    .of_boundary fileShape_tornLog Nat.zero_lt_one
  exact ⟨wal, hopen, (tail_recovery_iff .little tornLog .sync 1 wal hopen (by decide +kernel)
    kHeaderLength ∅).mpr hfits⟩

/-- From inside the header the whole log is thrown away; from inside the first frame the cut
destroys it and the call throws; from past the end nothing is cut and the object, which the call
returns on, takes no append. -/
theorem tail_recovery_destroys_records : ∃ wal,
    openWal .little tornLog .sync 1 = .ok wal ∧ ¬RecoversSafely .little wal 1 ∅ ∧
      ¬RecoversSafely .little wal 30 ∅ ∧ ¬RecoversSafely .little wal tornLog.length ∅ := by
  have hfacts : (openWal .little tornLog .sync 1).toOption.any (fun wal =>
      decide (wal.file = tornLog ∧
        (wal.replayFromAndTruncate .little 1 ∅).2.file.length = 0 ∧
        (wal.replayFromAndTruncate .little 30 ∅).2.file.length = 30 ∧
        (wal.replayFromAndTruncate .little tornLog.length ∅).1.toBool = true ∧
        wal.nextSequence = 2 ∧ (wal.replayFromAndTruncate .little tornLog.length ∅).2 = wal ∧
        wal.needsRecovery = true)) = true := by decide +kernel
  obtain ⟨wal,hopen,hall⟩ := (Option.any_eq_true _ _).mp hfacts
  obtain ⟨hfile,hheader,hframe,hreturns,hseq,hsame,htorn⟩ := of_decide_eq_true hall
  have hlong :
      LongestLog .little wal.file (makeHeader 1 ++ framesFrom .little true 1 [.set [1] [2]])
      [.set [1] [2]] := by
    rw [hfile]
    exact longestLog_v3 .little 1 [.set [1] [2]] [19, 0, 0] (by decide) (by decide) (by decide)
      (by decide) noFrame_tornTail
  have hlen : (makeHeader 1 ++ framesFrom .little true 1 [.set [1] [2]]).length = 51 := by
    decide +kernel
  refine ⟨wal, eq_ok_of_toOption hopen, fun h => ?_, fun h => ?_, fun h => ?_⟩
  · have := (h.kept _ _ hlong).length_le
    omega
  · have := (h.kept _ _ hlong).length_le
    omega
  · obtain ⟨result,hres⟩ : ∃ result,
        wal.replayFromAndTruncate .little tornLog.length ∅ = (.ok result, wal) := by
      generalize wal.replayFromAndTruncate .little tornLog.length ∅ = x at hreturns hsame
      obtain ⟨answer,wal'⟩ := x
      obtain rfl : wal' = wal := hsame
      cases answer with
      | error e => cases hreturns
      | ok result => exact ⟨result, rfl⟩
    have hadm := (h.usable _ _ hres).appendCheck (by rw [hseq]; decide)
    rw [(wal.appendCheck_ok_iff.mp hadm).2.2] at htorn
    cases htorn

end ConcurrentKV
