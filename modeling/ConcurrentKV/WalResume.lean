import ConcurrentKV.WalInvariant

/-! Replay from the middle of a log, and what is left of a batch whose writing was cut off
at an arbitrary byte. -/
namespace ConcurrentKV
open ByteCodec OpLog

/-- A replay from offset `W` skips exactly the first `j` operations of the file. Behind the
last operation nothing may look like a frame: a replay that starts there takes a frame
with any sequence number. -/
inductive Resumes (host : ByteOrder) (b : Bytes) (ops : List WalRecord) : ℕ → ℕ → Prop where
  | start : Resumes host b ops 0 0
  | eof : Resumes host b ops b.length ops.length
  | boundary (W j : ℕ) (hW : W ≤ b.length) (hj : j ≤ ops.length)
      (hlog : WellFormedLog host (b.take W) (ops.take j))
      (hrest : j = ops.length → ∀ s, NoFrame host (magicPrefix b) s (b.drop W)) :
      Resumes host b ops W j

theorem Resumes.le {host : ByteOrder} {b : Bytes} {ops : List WalRecord} {W j : ℕ}
    (h : Resumes host b ops W j) : W ≤ b.length ∧ j ≤ ops.length := by
  cases h with
  | start => exact ⟨Nat.zero_le _, Nat.zero_le _⟩
  | eof => exact ⟨le_rfl, le_rfl⟩
  | boundary _ _ hW hj => exact ⟨hW, hj⟩

/-! ### Replay from an offset -/

/-- The state in which a replay from an offset behind the header enters its loop. -/
def middleState (generation W : ℕ) (m : Store) : ReplayState :=
  ⟨W, { startOffset := W, lastGoodOffset := W, stopOffset := W, generation := generation }, m⟩

theorem replayFrom_v3 {host : ByteOrder} {b : Bytes} {g W : ℕ} (m : Store) (hg : 0 < g)
    (hg64 : g < 2^64) (hb : makeHeader g <+: b) (hW : kHeaderLength ≤ W)
    (hmax : W ≤ kMaxStreamoff) :
    replayFromDetailed host b W m = .ok (replayLoop host b true W (middleState g W m)) := by
  obtain ⟨rest,rfl⟩ := hb
  have hm := magicPrefix_of_header (List.prefix_append (makeHeader g) rest)
  have hp := parseHeader_makeHeader g 0 hg hg64 rest
  have hlen : kHeaderLength ≤ (makeHeader g ++ rest).length := by simp
  have h0 : ¬W = 0 := by
    simp only [kHeaderLength] at hW
    omega
  have hl : ¬(makeHeader g ++ rest).length = 0 := by
    simp only [kHeaderLength] at hlen
    omega
  have h4 : ¬(makeHeader g ++ rest).length < kWalMagic.length := by
    simp only [kHeaderLength, kWalMagic, List.length_cons, List.length_nil] at hlen ⊢
    omega
  rw [replayFromDetailed, if_neg (Nat.not_lt.mpr hmax), if_neg hl]
  simp only [hm, hp, h4, h0, Nat.not_lt.mpr hW, ↓reduceIte, Bool.true_eq_false, false_or, and_false]
  rfl

theorem replayFrom_v2 {host : ByteOrder} {b : Bytes} {W : ℕ} (m : Store) (hne : b ≠ [])
    (hm : magicPrefix b = false) (hmax : W ≤ kMaxStreamoff) :
    replayFromDetailed host b W m = .ok (replayLoop host b false W (middleState 0 W m)) := by
  have hl : ¬b.length = 0 := fun h => hne (List.length_eq_zero_iff.mp h)
  rw [replayFromDetailed, if_neg (Nat.not_lt.mpr hmax), if_neg hl]
  simp only [hm, Bool.false_eq_true, ↓reduceIte]
  rfl

/-- From an offset behind the header any first number but zero is acceptable; at the first
frame it has to be one. -/
theorem acceptsSequence_middle {portable : Bool} {g W s : ℕ} {m : Store} (hs : 0 < s)
    (hs64 : portable = true → s < 2^64) (h1 : portable = true → W = kHeaderLength → s = 1) :
    AcceptsSequence portable W (middleState g W m).result s := by
  intro hp
  refine ⟨hs64 hp, ?_⟩
  simp only [sequenceRejected, middleState, Bool.or_eq_false_iff]
  refine ⟨⟨by simpa using Nat.pos_iff_ne_zero.mp hs, ?_⟩, by simp⟩
  by_cases hW : W = kHeaderLength
  · simp [h1 hp hW]
  · simp [hW]

/-- The loop entered at a frame boundary reads the frames behind it. -/
theorem replayLoop_middle {host : ByteOrder} {portable : Bool} {b tail : Bytes} {g W s : ℕ}
    {ops : List WalRecord} (m : Store) (hok : ∀ op ∈ ops, RecordOk portable op) (hs : 0 < s)
    (hn : portable = true → s+ops.length ≤ 2^64) (h1 : portable = true → W = kHeaderLength → s = 1)
    (hd : b.drop W = framesFrom host portable s ops ++ tail)
    (hstop : ops ≠ [] → NoFrame host portable (s+ops.length) tail)
    (hstop0 : ops = [] → ∀ s', NoFrame host portable s' tail) :
    ∃ r, replayLoop host b portable W (middleState g W m) = (r, applyOps ops m) ∧
      r.appliedOperations = ops.length ∧
      r.lastGoodOffset = W+(framesFrom host portable s ops).length ∧
      (r.status = .cleanEof ↔ tail = []) := by
  have hrun : AcceptsRun portable W (middleState g W m).result s ops := by
    refine ⟨hn, fun hne => acceptsSequence_middle hs (fun hp => ?_) h1⟩
    have := hn hp
    have := List.length_pos_of_ne_nil hne
    omega
  obtain ⟨status,hend,hst⟩ := @replayLoop_run host portable b tail W s ops (middleState g W m) hok
    hrun hd (by
      intro s' op x hop hacc
      rcases eq_or_ne ops [] with hnil | hne
      · exact hstop0 hnil s' op x hop (fun hp => (hacc hp).1)
      -- after a first frame only the next number is acceptable, and v2 frames have none
      have hs' : portable = true → s' = s+ops.length := by
        intro hp
        have hlt := (hacc hp).1
        have hrej := (hacc hp).2
        have hpos := List.length_pos_of_ne_nil hne
        have hmax := hn hp
        subst hp
        rw [advanceAll_result host true s ops _ rfl rfl] at hrej
        simp [sequenceRejected, hne, middleState] at hrej
        omega
      have hframe :
          frameBytes host portable s' op = frameBytes host portable (s+ops.length) op := by
        cases portable with
        | false => rfl
        | true => rw [hs' rfl]
      rw [hframe]
      exact hstop hne op x hop (fun hp => hs' hp ▸ (hacc hp).1))
  refine ⟨_, hend, ?_, ?_, hst⟩
  · rw [advanceAll_result host portable s ops (middleState g W m) rfl rfl]
    exact Nat.zero_add _
  · rw [advanceAll_result host portable s ops (middleState g W m) rfl rfl]
    rfl

/-- The same when the frames reach to the end of the file. -/
theorem replayLoop_to_end {host : ByteOrder} {portable : Bool} {b : Bytes} {W s : ℕ}
    {ops : List WalRecord} (g : ℕ) (m : Store) (hok : ∀ op ∈ ops, RecordOk portable op) (hs : 0 < s)
    (hn : portable = true → s+ops.length ≤ 2^64) (h1 : portable = true → W = kHeaderLength → s = 1)
    (hd : b.drop W = framesFrom host portable s ops) :
    ∃ r, replayLoop host b portable W (middleState g W m) = (r, applyOps ops m) ∧
      r.appliedOperations = ops.length ∧
      r.lastGoodOffset = W+(framesFrom host portable s ops).length ∧ r.status = .cleanEof := by
  have hd' : b.drop W = framesFrom host portable s ops ++ [] := by rw [hd, List.append_nil]
  obtain ⟨r,hr,happ,hgood,hst⟩ := @replayLoop_middle host portable b [] g W s ops m hok hs hn h1 hd'
    (fun _ => noFrame_nil host portable _) (fun _ _ => noFrame_nil host portable _)
  exact ⟨r, hr, happ, hgood, hst.mpr rfl⟩

/-- At the end of the file there is nothing to read. -/
theorem replayLoop_eof (host : ByteOrder) (portable : Bool) (b : Bytes) (g : ℕ) (m : Store) :
    (replayLoop host b portable b.length (middleState g b.length m)).2 = m := by
  obtain ⟨status,hend,-⟩ := @replayLoop_of_noFrame host portable b b.length
    (middleState g b.length m) (by
      intro s op x _ _ hd
      have hl := congrArg List.length hd
      simp only [middleState, List.drop_length, List.length_nil, List.length_append,
        length_frameBytes] at hl
      omega)
  rw [hend]
  rfl

theorem WellFormedLog.elim {host : ByteOrder} {p : Bytes} {ops : List WalRecord}
    (h : WellFormedLog host p ops) : (p = [] ∧ ops = []) ∨
      (∃ g, 0 < g ∧ g < 2^64 ∧ p = makeHeader g ++ framesFrom host true 1 ops) ∨
      (ops ≠ [] ∧ p = framesFrom host false 1 ops ∧ ∀ op ∈ ops, RecordOk false op) := by
  cases h with
  | empty => exact .inl ⟨rfl, rfl⟩
  | v3 g _ hg hg64 => exact .inr (.inl ⟨g, hg, hg64, rfl⟩)
  | v2 _ hne hok => exact .inr (.inr ⟨hne, rfl, hok⟩)

/-- A boundary cuts the log into the frames in front of it and those behind it. -/
theorem framesFrom_split (host : ByteOrder) (portable : Bool) {ops : List WalRecord} {j : ℕ}
    (hj : j ≤ ops.length) : framesFrom host portable 1 ops =
      framesFrom host portable 1 (ops.take j) ++ framesFrom host portable (1+j) (ops.drop j) := by
  have h := framesFrom_append host portable 1 (ops.take j) (ops.drop j)
  rwa [List.take_append_drop, List.length_take, Nat.min_eq_left hj] at h

/-- The frames behind a boundary, once those before it are taken off. -/
theorem framesFrom_drop {host : ByteOrder} {portable : Bool} {ops : List WalRecord} {j : ℕ}
    {tail rest : Bytes} (hj : j ≤ ops.length) (h : framesFrom host portable 1 ops ++ tail =
      framesFrom host portable 1 (ops.take j) ++ rest) :
    rest = framesFrom host portable (1+j) (ops.drop j) ++ tail := by
  rw [framesFrom_split host portable hj, List.append_assoc] at h
  exact (List.append_cancel_left h).symm

/-- What a file holds behind a boundary of its log. -/
theorem drop_frameStart {host : ByteOrder} {portable : Bool} {b : Bytes} {ops : List WalRecord}
    {j : ℕ} {tail : Bytes}
    (hd : b.drop (dataStart portable) = framesFrom host portable 1 ops ++ tail)
    (hj : j ≤ ops.length) : b.drop (frameStart host portable ops j) =
      framesFrom host portable (1+j) (ops.drop j) ++ tail := by
  rw [frameStart, ← List.drop_drop, hd, framesFrom_split host portable hj, List.append_assoc,
    List.drop_left]

/-- What a replay from a resumable offset applies. -/
theorem FileShape.replayFrom {host : ByteOrder} {b : Bytes} {ops : List WalRecord} {W j : ℕ}
    (h : FileShape host b ops) (hres : Resumes host b ops W j) (hroom : b.length ≤ kMaxStreamoff)
    (m : Store) : ∃ r, replayFromDetailed host b W m = .ok (r, applyOps (ops.drop j) m) := by
  have hmax : W ≤ kMaxStreamoff := hres.le.1.trans hroom
  have hstart (h0 : W = 0) (hd : ops.drop j = ops) :
      ∃ r, replayFromDetailed host b W m = .ok (r, applyOps (ops.drop j) m) := by
    obtain ⟨p,r,-,hr,-⟩ := h.replay m
    rw [h0, hd]
    exact ⟨r, hr⟩
  have hpair {r : WalReplayResult × Store} {m' : Store} (hr : replayFromDetailed host b W m = .ok r)
      (hm' : r.2 = m') : ∃ r, replayFromDetailed host b W m = .ok (r, m') := by
    rw [← hm']
    exact ⟨r.1, hr⟩
  have hloop {x : WalReplayResult × Store} {Q : WalReplayResult → Prop}
      (hr : replayFromDetailed host b W m = .ok x)
      (hx : ∃ r, x = (r, applyOps (ops.drop j) m) ∧ Q r) :
      ∃ r, replayFromDetailed host b W m = .ok (r, applyOps (ops.drop j) m) := by
    obtain ⟨r,rfl,-⟩ := hx
    exact ⟨r, hr⟩
  cases hres with
  | start => exact hstart rfl List.drop_zero
  | eof =>
    rw [List.drop_length, applyOps_nil]
    cases h with
    | empty => exact ⟨_, replay_empty host _ m (Nat.zero_le _)⟩
    | badHeader _ hne hm hh => exact ⟨_, replay_badHeader host _ m hmax hne hm hh⟩
    | v3 g _ tail hg hg64 =>
      exact hpair (replayFrom_v3 m hg hg64 (List.prefix_append _ _) (by simp) hmax)
        (replayLoop_eof host true _ g m)
    | v2 _ tail hm hne =>
      exact hpair (replayFrom_v2 m hne hm hmax) (replayLoop_eof host false _ 0 m)
  | boundary _ _ hW hj hlog hrest =>
    have hb : b = b.take W ++ b.drop W := (List.take_append_drop W b).symm
    have hlenW : (b.take W).length = W := by
      rw [List.length_take]
      omega
    have hlenj : (ops.take j).length = j := by
      rw [List.length_take]
      omega
    rcases hlog.elim with ⟨hnil,hops⟩ | ⟨g,hg,hg64,hp⟩ | ⟨hne,hp,hok'⟩
    · -- an empty beginning: offset zero and no operation
      have hj0 : j = 0 := by
        rw [hops] at hlenj
        exact hlenj.symm
      refine hstart ?_ (by rw [hj0, List.drop_zero])
      rw [hnil] at hlenW
      exact hlenW.symm
    · have hpre : makeHeader g <+: b := by
        rw [hb, hp, List.append_assoc]
        exact List.prefix_append _ _
      have hW24 : W = kHeaderLength+(framesFrom host true 1 (ops.take j)).length := by
        rw [← hlenW, hp, List.length_append, length_makeHeader]
      cases h with
      | empty =>
        have := hpre.length_le
        rw [length_makeHeader] at this
        simp [kHeaderLength] at this
      | badHeader _ _ _ hh =>
        rw [(parseHeader_fst_iff _).mpr ⟨g,hg,hg64,hpre⟩] at hh
        cases hh
      | v2 _ tail hm =>
        rw [magicPrefix_of_header hpre] at hm
        cases hm
      | v3 g' _ tail hg' hg64' hok hn hstop =>
        obtain rfl := header_prefix_unique hg' hg64' hg hg64 (List.prefix_append _ _) hpre
        have hm := magicPrefix_of_header hpre
        rw [hp, List.append_assoc] at hb
        have hdrop := framesFrom_drop hj (List.append_cancel_left hb)
        refine hloop (replayFrom_v3 m hg hg64 hpre (by omega) hmax)
          (replayLoop_middle m (fun op hop => hok op (List.mem_of_mem_drop hop)) (by omega) ?_ ?_
            hdrop ?_ ?_)
        · intro _
          rw [List.length_drop]
          omega
        · intro _ h24
          have := length_framesFrom_ge host true 1 (ops.take j)
          omega
        · intro _
          rwa [List.length_drop, show 1+j+(ops.length-j) = 1+ops.length by omega]
        · intro hnil s'
          have hend := hrest (le_antisymm hj (List.drop_eq_nil_iff.mp hnil)) s'
          rwa [hm, hdrop, hnil] at hend
    · have hm : magicPrefix b = false := by
        have hpre : framesFrom host false 1 (ops.take j) <+: b := hp ▸ List.take_prefix _ _
        exact wellFormed_v2_frame hne hok' hpre
      cases h with
      | empty =>
        rw [List.take_nil] at hp
        exact absurd hp.symm (framesFrom_ne_nil hne)
      | badHeader _ _ hm' =>
        rw [hm] at hm'
        cases hm'
      | v3 g _ tail =>
        rw [magicPrefix_of_header (List.prefix_append _ _)] at hm
        cases hm
      | v2 _ tail _ hbne hok hstop =>
        rw [hp] at hb
        have hdrop := framesFrom_drop hj hb
        refine hloop (replayFrom_v2 m hbne hm hmax)
          (replayLoop_middle m (fun op hop => hok op (List.mem_of_mem_drop hop))
            (by omega : 0 < 1+j) (by simp) (by simp) hdrop ?_ ?_)
        · intro _
          rwa [List.length_drop, show 1+j+(ops.length-j) = 1+ops.length by omega]
        · intro hnil s'
          have hend := hrest (le_antisymm hj (List.drop_eq_nil_iff.mp hnil)) s'
          rwa [hm, hdrop, hnil] at hend

/-! ### Writes cut off at an arbitrary byte -/

/-- A frame that is not complete holds no other frame either: its length field is in front. -/
theorem noFrame_of_cut {host : ByteOrder} {portable : Bool} {s : ℕ} {op : WalRecord} {tail : Bytes}
    (hok : RecordOk portable op) (hpre : tail <+: frameBytes host portable s op)
    (hlt : tail.length < 8+recordLength portable op) (s' : ℕ) : NoFrame host portable s' tail := by
  intro op' x hok' _ he
  have hfield (s : ℕ) (op : WalRecord) (rest : Bytes) :
      (frameBytes host portable s op ++ rest).take 4 =
        encode (fieldOrder host portable) 4 (recordLength portable op) := by
    rw [frameBytes, length_recordBytes, List.append_assoc]
    exact List.take_left' (length_encode ..)
  obtain ⟨rest,hrest⟩ := hpre
  have hsame : encode (fieldOrder host portable) 4 (recordLength portable op') =
      encode (fieldOrder host portable) 4 (recordLength portable op) := by
    rw [← hfield s' op' (x ++ rest), ← hfield s op [], ← List.append_assoc, ← he, hrest,
      List.append_nil]
  have hlen : recordLength portable op' = recordLength portable op := by
    have hd := congrArg (decode (fieldOrder host portable)) hsame
    rwa [decode_encode_of_lt _ hok'.length_lt, decode_encode_of_lt _ hok.length_lt] at hd
  rw [he, List.length_append, length_frameBytes, hlen] at hlt
  omega

/-- Whole frames are left of a run of frames cut anywhere, and less than one more. -/
theorem framesFrom_take (host : ByteOrder) {portable : Bool} {ops : List WalRecord}
    (hok : ∀ op ∈ ops, RecordOk portable op) (s n : ℕ) :
    ∃ k tail, (framesFrom host portable s ops).take n =
        framesFrom host portable s (ops.take k) ++ tail ∧
      (∀ s', NoFrame host portable s' tail) ∧
      (tail = [] ∨ ∃ op ∈ ops, tail <+: frameBytes host portable (s+k) op) := by
  induction ops generalizing s n with
  | nil => exact ⟨0, [], by simp [framesFrom], fun s' => noFrame_nil host portable s', .inl rfl⟩
  | cons op ops ih =>
    by_cases hn : n < (frameBytes host portable s op).length
    · -- the cut is inside the first frame
      refine ⟨0, (frameBytes host portable s op).take n, ?_, ?_, ?_⟩
      · rw [framesFrom, List.take_append_of_le_length (Nat.le_of_lt hn)]
        rfl
      · intro s'
        refine noFrame_of_cut (hok op List.mem_cons_self) (List.take_prefix _ _) ?_ s'
        rw [length_frameBytes] at hn
        rw [List.length_take]
        omega
      · exact .inr ⟨op, List.mem_cons_self, List.take_prefix _ _⟩
    · obtain ⟨k,tail,htake,hno,htail⟩ := ih (fun o ho => hok o (List.mem_cons_of_mem _ ho)) (s+1)
        (n-(frameBytes host portable s op).length)
      refine ⟨k+1, tail, ?_, hno, ?_⟩
      · rw [framesFrom, List.take_append, List.take_of_length_le (Nat.le_of_not_lt hn), htake,
          List.take_succ_cons, framesFrom, List.append_assoc]
      · rcases htail with htail | ⟨o,ho,hpre⟩
        · exact .inl htail
        · refine .inr ⟨o, List.mem_cons_of_mem _ ho, ?_⟩
          rwa [show s+(k+1) = s+1+k by omega]

/-- Two logs with the same operations, one the beginning of the other. -/
theorem WellFormedLog.eq_of_isPrefix {host : ByteOrder} {b p : Bytes} {ops : List WalRecord}
    (hb : WellFormedLog host b ops) (hp : WellFormedLog host p ops) (hpre : p <+: b)
    (hne : p ≠ []) : p = b := by
  rcases hp.elim with ⟨he,-⟩ | ⟨g,hg,hg64,rfl⟩ | ⟨hops,rfl,hok⟩
  · exact absurd he hne
  · have hhead := (List.prefix_append (makeHeader g) (framesFrom host true 1 ops)).trans hpre
    rcases hb.elim with ⟨rfl,-⟩ | ⟨g',hg',hg64',rfl⟩ | ⟨hops,rfl,hok⟩
    · exact List.prefix_nil.mp hpre
    · rw [header_prefix_unique hg hg64 hg' hg64' hhead (List.prefix_append _ _)]
    · have hm := wellFormed_v2_frame hops hok (List.prefix_rfl (l := framesFrom host false 1 ops))
      rw [magicPrefix_of_header hhead] at hm
      cases hm
  · have hm := wellFormed_v2_frame hops hok hpre
    rcases hb.elim with ⟨rfl,-⟩ | ⟨g',hg',hg64',rfl⟩ | ⟨-,rfl,-⟩
    · exact List.prefix_nil.mp hpre
    · rw [magicPrefix_of_header (List.prefix_append _ _)] at hm
      cases hm
    · rfl

/-- Resumable offsets of a clean log stay so when the log grows, by whole frames or by a
piece of one. -/
theorem Resumes.extend {host : ByteOrder} {b x : Bytes} {ops new : List WalRecord} {W j : ℕ}
    (h : Resumes host b ops W j) (hb : WellFormedLog host b ops)
    (hx : b ≠ [] → ∀ s, new = [] → NoFrame host (magicPrefix (b ++ x)) s x) :
    Resumes host (b ++ x) (ops ++ new) W j := by
  -- nothing is covered yet at offset zero
  have hzero (h0 : W = 0) (hlog : WellFormedLog host [] (ops.take j)) (hj : j ≤ ops.length) :
      Resumes host (b ++ x) (ops ++ new) W j := by
    have hnil : ops.take j = [] := by
      rcases hlog.elim with ⟨-,h⟩ | ⟨g,-,-,h⟩ | ⟨hne,h,-⟩
      · exact h
      · have := congrArg List.length h
        simp [kHeaderLength] at this
        omega
      · exact absurd h.symm (framesFrom_ne_nil hne)
    have hj0 : j = 0 := by
      have := congrArg List.length hnil
      rw [List.length_take, List.length_nil] at this
      omega
    rw [h0, hj0]
    exact .start
  cases h with
  | start => exact .start
  | eof =>
    rcases eq_or_ne b [] with rfl | hne
    · exact hzero rfl (by rwa [List.take_length]) le_rfl
    refine .boundary _ _ (by simp) (by simp) ?_ ?_
    · rwa [List.take_left, List.take_left]
    · intro hj s
      rw [List.drop_left]
      exact hx hne s (by simpa using hj)
  | boundary _ _ hW hj hlog hrest =>
    rcases Nat.eq_zero_or_pos W with h0 | hpos
    · rw [h0, List.take_zero] at hlog
      exact hzero h0 hlog hj
    have hne : b ≠ [] := by
      rintro rfl
      exact absurd hpos (Nat.not_lt.mpr hW)
    refine .boundary _ _ (by rw [List.length_append]; omega)
      (by rw [List.length_append]; omega) ?_ ?_
    · rwa [List.take_append_of_le_length hW, List.take_append_of_le_length hj]
    · intro hall s
      rw [List.length_append] at hall
      have hnew : new = [] := List.length_eq_zero_iff.mp (by omega)
      have hops : ops.take j = ops := List.take_of_length_le (by omega)
      rw [hops] at hlog
      -- the covered part is the whole log, so only the new bytes are behind it
      have htake : b.take W = b := by
        refine hb.eq_of_isPrefix hlog (List.take_prefix _ _) ?_
        intro he
        rcases List.take_eq_nil_iff.mp he with h | h
        · omega
        · exact hne h
      rw [List.drop_append_of_le_length hW,
        List.drop_eq_nil_of_le (List.take_eq_self_iff _ |>.mp htake), List.nil_append]
      exact hx hne s hnew

/-- The beginning of a file that looks like a v3 log looks like one. -/
theorem magicPrefix_of_isPrefix {p b : Bytes} (hpre : p <+: b) (hm : magicPrefix b = true) :
    magicPrefix p = true := by
  have hp : p = b.take p.length := List.prefix_iff_eq_take.mp hpre
  have hb : b.take kWalMagic.length = kWalMagic.take b.length := by simpa [magicPrefix] using hm
  have htake : p.take kWalMagic.length = kWalMagic.take p.length := by
    have hlen := hpre.length_le
    calc p.take kWalMagic.length = (b.take kWalMagic.length).take p.length := by
          conv_lhs => rw [hp, List.take_take, Nat.min_comm, ← List.take_take]
      _ = kWalMagic.take p.length := by rw [hb, List.take_take, Nat.min_eq_left hlen]
  simpa [magicPrefix] using htake

/-- A piece of a header is not a header. -/
theorem fileShape_cut_header {host : ByteOrder} {p : Bytes} {g : ℕ} (hpre : p <+: makeHeader g)
    (hlt : p.length < kHeaderLength) : FileShape host p [] := by
  rcases eq_or_ne p [] with rfl | hne
  · exact .empty
  refine .badHeader p hne
    (magicPrefix_of_isPrefix hpre (magicPrefix_of_header List.prefix_rfl)) ?_
  rw [← Bool.not_eq_true, parseHeader_fst_iff]
  rintro ⟨g',-,-,hp⟩
  have := hp.length_le
  rw [length_makeHeader] at this
  omega

/-- A piece of a first v2 frame holds no operation, even when it is so short that it looks
like the magic of a v3 log. -/
theorem fileShape_cut_frame {host : ByteOrder} {p : Bytes} {s : ℕ} {op : WalRecord}
    (hok : RecordOk false op) (hpre : p <+: frameBytes host false s op)
    (hno : ∀ s', NoFrame host false s' p) : FileShape host p [] := by
  rcases eq_or_ne p [] with rfl | hne
  · exact .empty
  cases hm : magicPrefix p with
  | false => exact .v2 [] p hm hne (by simp) (hno _)
  | true =>
    refine .badHeader p hne hm ?_
    rw [← Bool.not_eq_true, parseHeader_fst_iff]
    rintro ⟨g,-,-,hp⟩
    have hframe := magicPrefix_of_frame hok (List.prefix_rfl (l := frameBytes host false s op))
    rw [magicPrefix_of_header (hp.trans hpre)] at hframe
    cases hframe

namespace WalInv

variable {host : ByteOrder} {wal : WriteAheadLog} {ops : List WalRecord}

/-- An object that takes appends has a well-formed file. -/
theorem wellFormed (h : WalInv host wal ops) (hadm : wal.appendCheck = .ok ()) :
    WellFormedLog host wal.file ops := by
  obtain ⟨hvalid,hrec,-⟩ := h.of_appendCheck hadm
  have htail {tail : Bytes} (hiff : wal.needsRecovery = true ↔ tail ≠ []) : tail = [] := by
    rwa [← not_ne_iff, ← hiff, Bool.not_eq_true]
  cases h.agree with
  | fresh hfile => rw [hfile]; exact .empty
  | v3 _ tail hfile _ _ _ hiff _ hg hg64 hok hn =>
    rw [hfile, htail hiff, List.append_nil]
    exact .v3 _ ops hg hg64 hok hn
  | v2 _ tail hfile _ _ _ _ hiff _ _ hok =>
    rw [hfile, htail hiff, List.append_nil]
    rcases eq_or_ne ops [] with rfl | hne
    · exact .empty
    · exact .v2 ops hne hok
  | badHeader _ _ _ _ _ hbad =>
    rw [hvalid] at hbad
    cases hbad

/-- Any cut of a batch leaves a file with some of its operations, in which every offset
that could be resumed at still can. -/
theorem torn (h : WalInv host wal ops) (hadm : wal.appendCheck = .ok ()) {new : List WalRecord}
    (hok : ∀ op ∈ new, RecordOk wal.portable op)
    (hn : wal.portable = true → ops.length+new.length < 2^64) (n : ℕ) :
    ∃ k, FileShape host (wal.file ++
        (wal.headerBytes ++ framesFrom host wal.portable wal.nextSequence new).take n)
        (ops ++ new.take k) ∧
      ∀ W j, Resumes host wal.file ops W j → Resumes host (wal.file ++
        (wal.headerBytes ++ framesFrom host wal.portable wal.nextSequence new).take n)
        (ops ++ new.take k) W j := by
  have hwf := h.wellFormed hadm
  obtain ⟨hvalid,hrec,hfile⟩ := h.of_appendCheck hadm
  have htail {tail : Bytes} (hiff : wal.needsRecovery = true ↔ tail ≠ []) : tail = [] := by
    rwa [← not_ne_iff, ← hiff, Bool.not_eq_true]
  have hempty {b : Bytes} {k : ℕ} (hnil : wal.file = []) :
      ∀ W j, Resumes host wal.file ops W j → Resumes host (wal.file ++ b) (ops ++ new.take k) W j :=
    fun W j hres => hres.extend hwf (fun hne => absurd hnil hne)
  obtain ⟨k,tail,htake,hno,hcut⟩ := framesFrom_take host hok wal.nextSequence
    (n-wal.headerBytes.length)
  have hnewk (op : WalRecord) (hop : op ∈ new.take k) : RecordOk wal.portable op :=
    hok op (List.mem_of_mem_take hop)
  have hlenk : (new.take k).length ≤ new.length := by
    rw [List.length_take]
    omega
  cases h.agree with
  | fresh hnil hv2 hpend _ _ hseq hg hg64 =>
    have hp : wal.portable = true := by simp [WriteAheadLog.portable, hv2]
    have hhead : wal.headerBytes = makeHeader wal.generation := by
      simp [WriteAheadLog.headerBytes, hv2, hpend]
    rw [hp, hseq] at htake
    rw [hp] at hno hnewk hn
    rw [hhead, length_makeHeader] at htake
    by_cases hlt : n < kHeaderLength
    · -- inside the header
      refine ⟨0, ?_, hempty hnil⟩
      rw [hnil, hhead, List.take_append_of_le_length (by rw [length_makeHeader]; omega)]
      refine fileShape_cut_header (List.take_prefix n _) ?_
      rw [List.nil_append, List.length_take]
      omega
    · refine ⟨k, ?_, hempty hnil⟩
      rw [hnil, hhead, hp, hseq, List.take_append, length_makeHeader, htake,
        List.take_of_length_le (by rw [length_makeHeader]; omega)]
      have hfew := hn rfl
      exact .v3 wal.generation (new.take k) tail hg hg64 hnewk (by omega) (hno _)
  | v3 _ t hbytes hv2 hpend _ hiff hseq hg hg64 hold hn64 _ =>
    have hp : wal.portable = true := by simp [WriteAheadLog.portable, hv2]
    have hhead : wal.headerBytes = [] := by simp [WriteAheadLog.headerBytes, hpend]
    rw [hp, hseq, hhead] at htake
    rw [hp] at hno hnewk hn
    rw [htail hiff, List.append_nil] at hbytes
    have hfew := hn rfl
    have hshape : wal.file ++ (framesFrom host true (1+ops.length) (new.take k) ++ tail) =
        makeHeader wal.generation ++ (framesFrom host true 1 (ops ++ new.take k) ++ tail) := by
      rw [hbytes, framesFrom_append]
      simp only [List.append_assoc]
    refine ⟨k, ?_, ?_⟩
    · rw [hhead, hp, hseq, List.nil_append]
      rw [List.length_nil, Nat.sub_zero] at htake
      rw [htake, hshape]
      exact .v3 wal.generation (ops ++ new.take k) tail hg hg64
        (List.forall_mem_append.mpr ⟨hold,hnewk⟩) (by rw [List.length_append]; omega) (hno _)
    · intro W j hres
      rw [hhead, hp, hseq, List.nil_append]
      rw [List.length_nil, Nat.sub_zero] at htake
      rw [htake]
      refine hres.extend hwf (fun _ s hk => ?_)
      rw [hshape, magicPrefix_of_header (List.prefix_append _ _), hk]
      exact hno s
  | v2 _ t hbytes hm hv2 hpend _ hiff hseq _ hold _ =>
    have hp : wal.portable = false := by simp [WriteAheadLog.portable, hv2]
    have hhead : wal.headerBytes = [] := by simp [WriteAheadLog.headerBytes, hpend]
    rw [hp, hhead, List.length_nil, Nat.sub_zero,
      framesFrom_v2 host wal.nextSequence (1+ops.length) (new.take k)] at htake
    rw [hp] at hno hnewk hcut
    rw [htail hiff, List.append_nil] at hbytes
    have hshape : wal.file ++ (framesFrom host false (1+ops.length) (new.take k) ++ tail) =
        framesFrom host false 1 (ops ++ new.take k) ++ tail := by
      rw [hbytes, framesFrom_append]
      simp only [List.append_assoc]
    have hmagic (hne : ops ++ new.take k ≠ []) :
        magicPrefix (framesFrom host false 1 (ops ++ new.take k) ++ tail) = false :=
      wellFormed_v2_frame hne (List.forall_mem_append.mpr ⟨hold,hnewk⟩) (List.prefix_append _ _)
    refine ⟨k, ?_, ?_⟩
    · rw [hhead, hp, List.nil_append, htake, hshape]
      rcases eq_or_ne (ops ++ new.take k) [] with hnil | hne
      · rw [hnil, framesFrom, List.nil_append]
        rcases hcut with rfl | ⟨op,hop,hpre⟩
        · exact .empty
        · exact fileShape_cut_frame (hp ▸ hok op hop) hpre hno
      · refine .v2 _ tail (hmagic hne) ?_ (List.forall_mem_append.mpr ⟨hold,hnewk⟩) (hno _)
        intro he
        exact framesFrom_ne_nil hne (List.append_eq_nil_iff.mp he).1
    · intro W j hres
      rw [hhead, hp, List.nil_append, htake]
      refine hres.extend hwf (fun hne s hk => ?_)
      have hops : ops ≠ [] := by
        rintro rfl
        exact hne hbytes
      rw [hshape, hmagic (by simp [hops]), hk]
      exact hno s
  | badHeader _ _ _ _ _ hbad =>
    rw [hvalid] at hbad
    cases hbad

end WalInv

end ConcurrentKV
