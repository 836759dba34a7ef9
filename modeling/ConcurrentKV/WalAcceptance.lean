import ConcurrentKV.WalGrammar

/-! Every byte string decomposes into the longest well-formed log it starts with and a
tail no frame can be read from; replay from the start computes that decomposition. -/
namespace ConcurrentKV
open ByteCodec OpLog

/-- No frame with number `s` can be read at the head of `tail`. -/
def NoFrame (host : ByteOrder) (portable : Bool) (s : ℕ) (tail : Bytes) : Prop :=
  ∀ op x, RecordOk portable op → (portable = true → s < 2^64) →
    tail ≠ frameBytes host portable s op ++ x

/-- The shapes a log file can have. The operations are those of its longest
well-formed prefix. -/
inductive FileShape (host : ByteOrder) : Bytes → List WalRecord → Prop where
  | empty : FileShape host [] []
  | badHeader (b : Bytes) (hne : b ≠ []) (hm : magicPrefix b = true)
      (hh : (parseHeader b 0).1 = false) : FileShape host b []
  | v3 (g : ℕ) (ops : List WalRecord) (tail : Bytes) (hg : 0 < g) (hg64 : g < 2^64)
      (hok : ∀ op ∈ ops, RecordOk true op) (hn : ops.length < 2^64)
      (hstop : NoFrame host true (1+ops.length) tail) :
      FileShape host (makeHeader g ++ (framesFrom host true 1 ops ++ tail)) ops
  | v2 (ops : List WalRecord) (tail : Bytes)
      (hm : magicPrefix (framesFrom host false 1 ops ++ tail) = false)
      (hne : framesFrom host false 1 ops ++ tail ≠ [])
      (hok : ∀ op ∈ ops, RecordOk false op) (hstop : NoFrame host false (1+ops.length) tail) :
      FileShape host (framesFrom host false 1 ops ++ tail) ops

/-- Where the frames of a file start. -/
def dataStart (portable : Bool) : ℕ := if portable then kHeaderLength else 0

/-- Where the frame of the operation with index `k` starts. -/
def frameStart (host : ByteOrder) (portable : Bool) (ops : List WalRecord) (k : ℕ) : ℕ :=
  dataStart portable+(framesFrom host portable 1 (ops.take k)).length

/-- The state in which a replay from the start of the file enters its loop. -/
def startState (portable : Bool) (generation : ℕ) (m : Store) : ReplayState :=
  ⟨dataStart portable, { lastGoodOffset := dataStart portable
                         stopOffset := dataStart portable
                         generation := generation }, m⟩

theorem acceptsSequence_start (portable : Bool) (g : ℕ) (m : Store) (s : ℕ) :
    AcceptsSequence portable (dataStart portable) (startState portable g m).result s ↔
      (portable = true → s = 1) := by
  cases portable with
  | false => simp [AcceptsSequence]
  | true =>
    simp only [AcceptsSequence, sequenceRejected, startState, dataStart]
    constructor
    · intro h _
      have hr := (h trivial).2
      simp only [Bool.or_eq_false_iff, Bool.and_eq_false_iff] at hr
      simpa using hr.1.2
    · intro h _
      have hs := h trivial
      subst hs
      decide

/-- After a run from the start exactly the next number is acceptable. -/
theorem acceptsSequence_advanceAll_start (host : ByteOrder) (portable : Bool) (g : ℕ) (m : Store)
    (ops : List WalRecord) (hn : portable = true → 1+ops.length < 2^64) :
    AcceptsSequence portable (dataStart portable)
      (advanceAll portable 1 ops (startState portable g m)).result (1+ops.length) := by
  rcases eq_or_ne ops [] with rfl | hne
  · exact (acceptsSequence_start portable g m 1).mpr (fun _ => rfl)
  · intro hp
    refine ⟨hn hp, ?_⟩
    have hlen := hn hp
    have hpos := List.length_pos_of_ne_nil hne
    subst hp
    rw [advanceAll_result host true 1 ops _ rfl rfl]
    simp [sequenceRejected, hne, startState]
    omega

/-- The loop started at the first frame reads exactly the frames up to a place where
the next one is not there. -/
theorem replayLoop_start (host : ByteOrder) (portable : Bool) (g : ℕ) (m : Store) (b : Bytes)
    (ops : List WalRecord) (tail : Bytes) (hok : ∀ op ∈ ops, RecordOk portable op)
    (hn : portable = true → ops.length < 2^64)
    (hd : b.drop (dataStart portable) = framesFrom host portable 1 ops ++ tail)
    (hstop : NoFrame host portable (1+ops.length) tail) :
    ∃ status, replayLoop host b portable (dataStart portable) (startState portable g m) =
      ({ appliedOperations := ops.length
         status := status
         lastGoodOffset := dataStart portable+(framesFrom host portable 1 ops).length
         stopOffset := dataStart portable+(framesFrom host portable 1 ops).length
         generation := g
         lastSequence := if portable then ops.length else 0 }, applyOps ops m) ∧
      (status = .cleanEof ↔ tail = []) := by
  have hrun : AcceptsRun portable (dataStart portable) (startState portable g m).result 1 ops :=
    ⟨fun hp => by have := hn hp; omega,
      fun _ => (acceptsSequence_start portable g m 1).mpr (fun _ => rfl)⟩
  -- the tail holds no frame with the next number, so the loop breaks behind the run
  obtain ⟨status,hend,hst⟩ := replayLoop_run hok hrun hd (by
    intro s op x hop hacc
    have hs : portable = true → s = 1+ops.length := by
      intro hp
      have hlt := (hacc hp).1
      have hrej := (hacc hp).2
      have hl := hn hp
      subst hp
      rw [advanceAll_result host true 1 ops _ rfl rfl] at hrej
      rcases eq_or_ne ops [] with rfl | hne
      · exact (acceptsSequence_start true g m s).mp hacc rfl
      · have hpos := List.length_pos_of_ne_nil hne
        simp [sequenceRejected, hne, startState] at hrej
        omega
    have hframe : frameBytes host portable s op = frameBytes host portable (1+ops.length) op := by
      cases portable with
      | false => rfl
      | true => rw [hs rfl]
    rw [hframe]
    exact hstop op x hop (fun hp => by rw [← hs hp]; exact (hacc hp).1))
  refine ⟨status, ?_, hst⟩
  rw [hend, advanceAll_result host portable 1 ops (startState portable g m) rfl rfl]
  cases portable <;> cases ops <;> simp [startState, framesFrom, dataStart]

theorem parseHeader_fst_iff (b : Bytes) :
    (parseHeader b 0).1 = true ↔ ∃ g, 0 < g ∧ g < 2^64 ∧ makeHeader g <+: b := by
  constructor
  · intro h
    exact ⟨_, makeHeader_prefix_of_parseHeader (Prod.ext h rfl)⟩
  · rintro ⟨g,hg,hg64,t,rfl⟩
    rw [parseHeader_makeHeader g 0 hg hg64]

/-- Every file has a shape. -/
theorem exists_fileShape (host : ByteOrder) (b : Bytes) : ∃ ops, FileShape host b ops := by
  have hstopOf (portable : Bool) (s : ℕ) (ops : List WalRecord) (rest : Bytes) (r : WalReplayResult)
      (hd : b.drop (dataStart portable) = framesFrom host portable 1 ops ++ rest)
      (herr : replayFrame host b portable (dataStart portable)
        (advanceAll portable 1 ops (startState portable 0 ∅)) = .error r) :
      NoFrame host portable (1+ops.length) rest := by
    intro op x hop hlt hx
    have hdrop : b.drop (advanceAll portable 1 ops (startState portable 0 ∅)).cursor =
        frameBytes host portable (1+ops.length) op ++ x := by
      rw [← hx, advanceAll_cursor host, ← List.drop_drop]
      exact (congrArg (List.drop _) hd).trans List.drop_left
    rw [replayFrame_frameBytes hop
      (acceptsSequence_advanceAll_start host portable 0 ∅ ops hlt) hdrop] at herr
    cases herr
  -- the run of the loop from the first frame, with its frames numbered from one
  have hscan (portable : Bool) : ∃ ops rest,
      b.drop (dataStart portable) = framesFrom host portable 1 ops ++ rest ∧
      (∀ op ∈ ops, RecordOk portable op) ∧ (portable = true → ops.length < 2^64) ∧
      NoFrame host portable (1+ops.length) rest := by
    obtain ⟨s,ops,rest,r,hd,hok,hrun,herr,-⟩ := replayLoop_cases host portable b
      (dataStart portable) (startState portable 0 ∅)
    rcases eq_or_ne ops [] with rfl | hne
    · exact ⟨[], rest, hd, by simp, fun _ => by norm_num,
        hstopOf portable s [] rest r hd herr⟩
    · have hs := (acceptsSequence_start portable 0 ∅ s).mp (hrun.2 hne)
      cases portable with
      | true =>
        have hs1 := hs rfl
        subst hs1
        have := hrun.1 rfl
        exact ⟨ops, rest, hd, hok, fun _ => by omega, hstopOf true 1 ops rest r hd herr⟩
      | false =>
        rw [advanceAll_v2 s 1] at herr
        have hd1 := hd.trans (by rw [framesFrom_v2 host s 1])
        exact ⟨ops, rest, hd1, hok, by simp, hstopOf false 1 ops rest r hd1 herr⟩
  rcases eq_or_ne b [] with rfl | hne
  · exact ⟨[], .empty⟩
  cases hm : magicPrefix b with
  | false =>
    obtain ⟨ops,rest,hd,hok,-,hstop⟩ := hscan false
    have hb : b = framesFrom host false 1 ops ++ rest := hd
    rw [hb] at hm hne ⊢
    exact ⟨ops, .v2 ops rest hm hne hok hstop⟩
  | true =>
    cases hh : (parseHeader b 0).1 with
    | false => exact ⟨[], .badHeader b hne hm hh⟩
    | true =>
      obtain ⟨g,hg,hg64,t,hb⟩ := (parseHeader_fst_iff b).mp hh
      obtain ⟨ops,rest,hd,hok,hn,hstop⟩ := hscan true
      have ht : t = framesFrom host true 1 ops ++ rest := by
        rw [← hd, ← hb]
        exact (List.drop_left' (length_makeHeader g)).symm
      rw [← hb, ht]
      exact ⟨ops, .v3 g ops rest hg hg64 hok (hn rfl) hstop⟩

theorem length_framesFrom_ge (host : ByteOrder) (portable : Bool) (s : ℕ) (ops : List WalRecord) :
    13*ops.length ≤ (framesFrom host portable s ops).length := by
  induction ops generalizing s with
  | nil => simp
  | cons op ops ih =>
    have hi := ih (s+1)
    have := recordLength_pos portable op
    rw [framesFrom, List.length_append, length_frameBytes, List.length_cons]
    omega

theorem FileShape.recordOk {host : ByteOrder} {b : Bytes} {ops : List WalRecord}
    (h : FileShape host b ops) : ∃ portable, ∀ op ∈ ops, RecordOk portable op := by
  cases h with
  | empty => exact ⟨true, by simp⟩
  | badHeader => exact ⟨true, by simp⟩
  | v3 g ops tail hg hg64 hok => exact ⟨true, hok⟩
  | v2 ops tail hm hne hok => exact ⟨false, hok⟩

/-- A file is far longer than it has records. -/
theorem FileShape.length_le {host : ByteOrder} {b : Bytes} {ops : List WalRecord}
    (h : FileShape host b ops) : 13*ops.length ≤ b.length := by
  cases h with
  | empty | badHeader => simp
  | v3 g _ tail =>
    have := length_framesFrom_ge host true 1 ops
    simp only [List.length_append]
    omega
  | v2 _ tail =>
    have := length_framesFrom_ge host false 1 ops
    simp only [List.length_append]
    omega

/-! ### Replay from the start, shape by shape -/

theorem replay_empty (host : ByteOrder) (offset : ℕ) (m : Store) (ho : offset ≤ kMaxStreamoff) :
    replayFromDetailed host [] offset m =
      .ok ({ startOffset := offset, lastGoodOffset := offset, stopOffset := offset }, m) := by
  rw [replayFromDetailed, if_neg (by omega)]
  rfl

theorem replay_badHeader (host : ByteOrder) {b : Bytes} (offset : ℕ) (m : Store)
    (ho : offset ≤ kMaxStreamoff) (hne : b ≠ []) (hm : magicPrefix b = true)
    (hh : (parseHeader b 0).1 = false) :
    replayFromDetailed host b offset m = .ok ({ status := .invalidHeader
                                                startOffset := offset
                                                generation := (parseHeader b 0).2 }, m) := by
  have hl : ¬b.length = 0 := fun h => hne (List.length_eq_zero_iff.mp h)
  rw [replayFromDetailed, if_neg (by omega), if_neg hl]
  simp [hm, hh]

/-- A replay from the start of a v3 file is its loop behind the header. -/
theorem replay_eq_loop_v3 (host : ByteOrder) (g : ℕ) (rest : Bytes) (m : Store) (hg : 0 < g)
    (hg64 : g < 2^64) : replayFromDetailed host (makeHeader g ++ rest) 0 m =
      .ok (replayLoop host (makeHeader g ++ rest) true (dataStart true) (startState true g m)) := by
  have hm := magicPrefix_of_header (List.prefix_append (makeHeader g) rest)
  have hp := parseHeader_makeHeader g 0 hg hg64 rest
  have hl : ¬(makeHeader g ++ rest).length = 0 := by
    rw [List.length_append, length_makeHeader]; simp [kHeaderLength]
  have h4 : ¬(makeHeader g ++ rest).length < kWalMagic.length := by
    rw [List.length_append, length_makeHeader]; simp [kHeaderLength, kWalMagic]; omega
  rw [replayFromDetailed, if_neg (by norm_num [kMaxStreamoff]), if_neg hl]
  simp only [hm, hp, h4, ↓reduceIte, Bool.true_eq_false, false_or, ne_eq, not_true, false_and]
  rfl

theorem replay_eq_loop_v2 (host : ByteOrder) {b : Bytes} (m : Store) (hm : magicPrefix b = false)
    (hne : b ≠ []) : replayFromDetailed host b 0 m =
      .ok (replayLoop host b false (dataStart false) (startState false 0 m)) := by
  have hl : ¬b.length = 0 := fun h => hne (List.length_eq_zero_iff.mp h)
  rw [replayFromDetailed, if_neg (by norm_num [kMaxStreamoff]), if_neg hl]
  simp only [hm, Bool.false_eq_true, ↓reduceIte]
  rfl

theorem replay_v3 (host : ByteOrder) (g : ℕ) (ops : List WalRecord) (tail : Bytes) (m : Store)
    (hg : 0 < g) (hg64 : g < 2^64) (hok : ∀ op ∈ ops, RecordOk true op) (hn : ops.length < 2^64)
    (hstop : NoFrame host true (1+ops.length) tail) :
    ∃ status, replayFromDetailed host (makeHeader g ++ (framesFrom host true 1 ops ++ tail)) 0 m =
      .ok ({ appliedOperations := ops.length
             status := status
             lastGoodOffset := kHeaderLength+(framesFrom host true 1 ops).length
             stopOffset := kHeaderLength+(framesFrom host true 1 ops).length
             generation := g
             lastSequence := ops.length }, applyOps ops m) ∧
      (status = .cleanEof ↔ tail = []) := by
  have hd : (makeHeader g ++ (framesFrom host true 1 ops ++ tail)).drop (dataStart true) =
      framesFrom host true 1 ops ++ tail := List.drop_left' (length_makeHeader g)
  obtain ⟨status,hloop,hst⟩ := replayLoop_start host true g m _ ops tail hok (fun _ => hn) hd hstop
  exact ⟨status, (replay_eq_loop_v3 host g _ m hg hg64).trans (congrArg Except.ok hloop), hst⟩

theorem replay_v2 (host : ByteOrder) (ops : List WalRecord) (tail : Bytes) (m : Store)
    (hm : magicPrefix (framesFrom host false 1 ops ++ tail) = false)
    (hne : framesFrom host false 1 ops ++ tail ≠ [])
    (hok : ∀ op ∈ ops, RecordOk false op) (hstop : NoFrame host false (1+ops.length) tail) :
    ∃ status, replayFromDetailed host (framesFrom host false 1 ops ++ tail) 0 m =
      .ok ({ appliedOperations := ops.length
             status := status
             lastGoodOffset := (framesFrom host false 1 ops).length
             stopOffset := (framesFrom host false 1 ops).length }, applyOps ops m) ∧
      (status = .cleanEof ↔ tail = []) := by
  obtain ⟨status,hloop,hst⟩ := replayLoop_start host false 0 m (framesFrom host false 1 ops ++ tail)
    ops tail hok (by simp) rfl hstop
  refine ⟨status, (replay_eq_loop_v2 host m hm hne).trans (congrArg Except.ok ?_), hst⟩
  simpa [dataStart] using hloop

/-! ### The longest well-formed prefix -/

/-- `p` is the longest prefix of `b` that is a well-formed log, with operations `ops`. -/
structure LongestLog (host : ByteOrder) (b p : Bytes) (ops : List WalRecord) : Prop where
  wellFormed : WellFormedLog host p ops
  isPrefix : p <+: b
  longest : ∀ p' ops', WellFormedLog host p' ops' → p' <+: b → p' <+: p ∧ (p' = p → ops' = ops)

theorem wellFormed_v2_frame {host : ByteOrder} {ops : List WalRecord} (hne : ops ≠ [])
    (hok : ∀ op ∈ ops, RecordOk false op) {b : Bytes} (h : framesFrom host false 1 ops <+: b) :
    magicPrefix b = false := by
  cases ops with
  | nil => exact absurd rfl hne
  | cons op ops =>
    rw [framesFrom] at h
    exact magicPrefix_of_frame (hok op List.mem_cons_self) ((List.prefix_append _ _).trans h)

/-- Two runs of frames from one place: the shorter one is the longer one's beginning. -/
theorem framesFrom_longest {host : ByteOrder} {portable : Bool} {ops ops' : List WalRecord}
    {tail : Bytes} (hok : ∀ op ∈ ops, RecordOk portable op)
    (hok' : ∀ op ∈ ops', RecordOk portable op) (hn' : portable = true → ops'.length < 2^64)
    (hstop : NoFrame host portable (1+ops.length) tail)
    (h : framesFrom host portable 1 ops' <+: framesFrom host portable 1 ops ++ tail) :
    framesFrom host portable 1 ops' <+: framesFrom host portable 1 ops ∧
      (framesFrom host portable 1 ops' = framesFrom host portable 1 ops → ops' = ops) := by
  obtain ⟨t',ht⟩ := h
  obtain ⟨u,rfl⟩ := framesFrom_prefix hok hok' (fun hp => by have := hn' hp; omega) hstop ht.symm
  rw [framesFrom_append]
  refine ⟨List.prefix_append _ _, fun he => ?_⟩
  have hu : framesFrom host portable (1+ops'.length) u = [] := by
    simpa using he
  rcases eq_or_ne u [] with rfl | hne
  · rw [List.append_nil]
  · exact absurd hu (framesFrom_ne_nil hne)

theorem longestLog_empty (host : ByteOrder) : LongestLog host [] [] [] := by
  refine ⟨.empty, List.prefix_rfl, fun p' ops' hw hp => ?_⟩
  obtain rfl := List.prefix_nil.mp hp
  refine ⟨List.prefix_rfl, fun _ => ?_⟩
  generalize hb : ([] : Bytes) = c at hw
  cases hw with
  | empty => rfl
  | v3 g => exact absurd (congrArg List.length hb) (by simp [kHeaderLength]; omega)
  | v2 _ hne => exact absurd hb.symm (framesFrom_ne_nil hne)

theorem longestLog_badHeader (host : ByteOrder) {b : Bytes} (hm : magicPrefix b = true)
    (hh : (parseHeader b 0).1 = false) : LongestLog host b [] [] := by
  refine ⟨.empty, List.nil_prefix, fun p' ops' hw hp => ?_⟩
  cases hw with
  | empty => exact ⟨List.prefix_rfl, fun _ => rfl⟩
  | v3 g _ hg hg64 =>
    have hv := (parseHeader_fst_iff b).mpr ⟨g, hg, hg64, (List.prefix_append _ _).trans hp⟩
    rw [hh] at hv
    cases hv
  | v2 _ hne' hok' =>
    have hv := wellFormed_v2_frame hne' hok' hp
    rw [hm] at hv
    cases hv

theorem longestLog_v3 (host : ByteOrder) (g : ℕ) (ops : List WalRecord) (tail : Bytes) (hg : 0 < g)
    (hg64 : g < 2^64) (hok : ∀ op ∈ ops, RecordOk true op) (hn : ops.length < 2^64)
    (hstop : NoFrame host true (1+ops.length) tail) :
    LongestLog host (makeHeader g ++ (framesFrom host true 1 ops ++ tail))
      (makeHeader g ++ framesFrom host true 1 ops) ops := by
  refine ⟨.v3 g ops hg hg64 hok hn, ⟨tail, List.append_assoc ..⟩, fun p' ops' hw hp => ?_⟩
  cases hw with
  | empty =>
    refine ⟨List.nil_prefix, fun he => ?_⟩
    exact absurd (congrArg List.length he) (by simp [kHeaderLength]; omega)
  | v3 g' _ hg' hg64' hok' hn' =>
    obtain rfl := header_prefix_unique hg hg64 hg' hg64' (List.prefix_append _ _)
      ((List.prefix_append _ _).trans hp)
    obtain ⟨h1,h2⟩ := framesFrom_longest hok hok' (fun _ => hn') hstop
      ((List.prefix_append_right_inj _).mp hp)
    exact ⟨(List.prefix_append_right_inj _).mpr h1, fun he => h2 (List.append_cancel_left he)⟩
  | v2 _ hne' hok' =>
    have hv := wellFormed_v2_frame hne' hok' hp
    rw [magicPrefix_of_header (List.prefix_append _ _)] at hv
    cases hv

theorem longestLog_v2 (host : ByteOrder) (ops : List WalRecord) (tail : Bytes)
    (hm : magicPrefix (framesFrom host false 1 ops ++ tail) = false)
    (hok : ∀ op ∈ ops, RecordOk false op) (hstop : NoFrame host false (1+ops.length) tail) :
    LongestLog host (framesFrom host false 1 ops ++ tail) (framesFrom host false 1 ops) ops := by
  refine ⟨?_, ⟨tail, rfl⟩, fun p' ops' hw hp => ?_⟩
  · rcases eq_or_ne ops [] with rfl | hn
    · exact .empty
    · exact .v2 ops hn hok
  cases hw with
  | empty =>
    refine ⟨List.nil_prefix, fun he => ?_⟩
    by_contra hn
    exact framesFrom_ne_nil (Ne.symm hn) he.symm
  | v3 g' _ hg' hg64' hok' hn' =>
    have hv := magicPrefix_of_header ((List.prefix_append _ _).trans hp)
    rw [hm] at hv
    cases hv
  | v2 _ hne' hok' => exact framesFrom_longest hok hok' (by simp) hstop hp

/-- The longest prefix and its operations are unique. -/
theorem LongestLog.unique {host : ByteOrder} {b p p' : Bytes} {ops ops' : List WalRecord}
    (h : LongestLog host b p ops) (h' : LongestLog host b p' ops') : p' = p ∧ ops' = ops := by
  have h1 := h.longest p' ops' h'.wellFormed h'.isPrefix
  have h2 := h'.longest p ops h.wellFormed h.isPrefix
  have he : p' = p := h1.1.eq_of_length_le h2.1.length_le
  exact ⟨he, h1.2 he⟩

def IsV3Log (p : Bytes) : Prop := ∃ g, makeHeader g <+: p

/-- The replay result for a file of a known shape: every offset is the length of the
longest log, and the format branch taken is that of the log. -/
theorem FileShape.replay {host : ByteOrder} {b : Bytes} {ops : List WalRecord}
    (h : FileShape host b ops) (m : Store) :
    ∃ p r, LongestLog host b p ops ∧ replayFromDetailed host b 0 m = .ok (r, applyOps ops m) ∧
      r.lastGoodOffset = p.length ∧ r.stopOffset = p.length ∧
      r.appliedOperations = ops.length ∧ (r.status = .cleanEof ↔ p = b) ∧
      (p ≠ [] → (magicPrefix b = true ↔ IsV3Log p)) := by
  cases h with
  | empty =>
    exact ⟨[], {}, longestLog_empty host, replay_empty host 0 m (Nat.zero_le _), rfl, rfl, rfl,
      by simp, fun hne => absurd rfl hne⟩
  | badHeader _ hne hm hh =>
    refine ⟨[], _, longestLog_badHeader host hm hh,
      replay_badHeader host 0 m (Nat.zero_le _) hne hm hh, rfl, rfl, rfl, ?_,
      fun hne => absurd rfl hne⟩
    simp [Ne.symm hne]
  | v3 g _ tail hg hg64 hok hn hstop =>
    obtain ⟨status,hr,hst⟩ := replay_v3 host g ops tail m hg hg64 hok hn hstop
    refine ⟨_, _, longestLog_v3 host g ops tail hg hg64 hok hn hstop, hr, ?_, ?_, rfl, ?_, ?_⟩
    · simp
    · simp
    · rw [hst, ← List.append_assoc]
      simp
    · intro _
      simp only [magicPrefix_of_header (List.prefix_append _ _), true_iff]
      exact ⟨g, List.prefix_append _ _⟩
  | v2 _ tail hm hne hok hstop =>
    obtain ⟨status,hr,hst⟩ := replay_v2 host ops tail m hm hne hok hstop
    refine ⟨_, _, longestLog_v2 host ops tail hm hok hstop, hr, rfl, rfl, rfl, ?_, ?_⟩
    · rw [hst]
      simp
    · intro _
      simp only [hm, Bool.false_eq_true, false_iff]
      rintro ⟨g,hg⟩
      have hv := magicPrefix_of_header (hg.trans (List.prefix_append _ tail))
      rw [hm] at hv
      cases hv

/-- Replay accepts exactly the log grammar: on every byte string it applies the
operations of the longest prefix that is a well-formed log, reports that prefix's
length and frame count, and ends cleanly just when the prefix is the whole file. The
format branch it takes is the format of that log. -/
theorem replay_accepts_exactly_the_grammar (host : ByteOrder) (b : Bytes) (m : Store) :
    (∃ p ops, LongestLog host b p ops) ∧
    ∀ p ops, LongestLog host b p ops →
      ∃ r, replayFromDetailed host b 0 m = .ok (r, applyOps ops m) ∧
        r.lastGoodOffset = p.length ∧ r.stopOffset = p.length ∧
        r.appliedOperations = ops.length ∧ (r.status = .cleanEof ↔ p = b) ∧
        (p ≠ [] → (magicPrefix b = true ↔ IsV3Log p)) := by
  obtain ⟨ops,hs⟩ := exists_fileShape host b
  obtain ⟨p,r,hl,hr⟩ := hs.replay m
  refine ⟨⟨p,ops,hl⟩, fun p' ops' hl' => ?_⟩
  obtain ⟨rfl,rfl⟩ := hl.unique hl'
  exact ⟨r, hr⟩

end ConcurrentKV
