import ConcurrentKV.WalInvariant
import ConcurrentKV.Transition

/-! The generations in the headers written to one log file, over sessions that append,
truncate, close and reopen. The generation lives in the object until a first record carries it
to the file, and an empty file holds no trace of it. -/
namespace ConcurrentKV
open ByteCodec OpLog Transition

inductive HeaderCall where
  | append (op : WalRecord)
  | clear
  | rotate
  | truncateToZero
  | reopen (policy : DurabilityPolicy) (maxBatch : ℕ)
  deriving DecidableEq, Repr

/-- An open log with the generations of the v3 headers its file has been given, oldest first. -/
structure HeaderHistory where
  wal : WriteAheadLog
  headers : List ℕ

/-- The header written between two states of an object: `EnsureHeaderLocked` resets
`header_pending_` just when it has written one. -/
def headerWritten (wal wal' : WriteAheadLog) : List ℕ :=
  if wal.headerPending = true ∧ wal'.headerPending = false then [wal.generation] else []

/-- The generation of the header a file begins with. -/
def headerOf (b : Bytes) : List ℕ :=
  if (parseHeader b 0).1 then [(parseHeader b 0).2] else []

namespace HeaderHistory

def start (wal : WriteAheadLog) : HeaderHistory := ⟨wal, headerOf wal.file⟩

/-- One call. Only a failing constructor leaves no object behind. -/
def step (host : ByteOrder) (s : HeaderHistory) : HeaderCall → Option HeaderHistory
  | .append op => some ⟨(s.wal.append host op).2,
      s.headers ++ headerWritten s.wal (s.wal.append host op).2⟩
  | .clear => some { s with wal := s.wal.clear.2 }
  | .rotate => some { s with wal := s.wal.rotate.2 }
  | .truncateToZero => some { s with wal := (s.wal.truncateTo host 0).2 }
  | .reopen policy maxBatch => match openWal host s.wal.file policy maxBatch with
    | .ok wal => some { s with wal := wal }
    | .error _ => none

/-- The file is not reopened while it is empty, once it has been given a header. -/
def keepsHeader (s : HeaderHistory) (c : HeaderCall) : Prop :=
  match c with
  | .reopen _ _ => s.wal.file ≠ [] ∨ s.headers = []
  | _ => True

instance (s : HeaderHistory) (c : HeaderCall) : Decidable (s.keepsHeader c) :=
  match c with
  | .reopen _ _ => inferInstanceAs (Decidable (_ ∨ _))
  | .append _ | .clear | .rotate | .truncateToZero => isTrue trivial

end HeaderHistory

/-! ### The invariant -/

/-- Where the generation stands in relation to the headers written so far. -/
inductive HeaderShape (wal : WriteAheadLog) (headers : List ℕ) : Prop where
  | fresh (hfile : wal.file = []) (hv2 : wal.legacyV2 = false) (hpend : wal.headerPending = true)
      (hg : 0 < wal.generation) (hg64 : wal.generation < 2^64)
      (hlt : ∀ g ∈ headers, g < wal.generation)
  | v3 (before : List ℕ) (hfile : makeHeader wal.generation <+: wal.file)
      (hv2 : wal.legacyV2 = false) (hpend : wal.headerPending = false) (hg : 0 < wal.generation)
      (hg64 : wal.generation < 2^64) (hlast : headers = before ++ [wal.generation])
  | v2 (hfile : wal.file ≠ [] → magicPrefix wal.file = false) (hv2 : wal.legacyV2 = true)
      (hpend : wal.headerPending = false) (hg : wal.generation = 0) (hnone : headers = [])

structure HeaderInv (s : HeaderHistory) : Prop where
  outputOpen : s.wal.outputOpen = true
  shape : HeaderShape s.wal s.headers
  increasing : s.headers.Pairwise (· < ·)

namespace HeaderInv

variable {host : ByteOrder} {s t : HeaderHistory} {c : HeaderCall}

/-- The next generation is above every header written. -/
theorem lt_succ (h : HeaderInv s) : ∀ g ∈ s.headers, g < s.wal.generation+1 := by
  intro g hg
  cases h.shape with
  | fresh _ _ _ _ _ hlt => exact Nat.lt_succ_of_lt (hlt g hg)
  | v3 before _ _ _ _ _ hlast =>
    have hinc := h.increasing
    rw [hlast] at hg hinc
    rcases List.mem_append.mp hg with hg | hg
    · exact Nat.lt_succ_of_lt ((List.pairwise_append.mp hinc).2.2 g hg _ (by simp))
    · obtain rfl := List.mem_singleton.mp hg
      exact Nat.lt_succ_self _
  | v2 _ _ _ _ hnone =>
    rw [hnone] at hg
    cases hg

/-- Emptying the file starts the next generation. -/
theorem next (h : HeaderInv s) (wal : WriteAheadLog) (hfile : wal.file = [])
    (hopen : wal.outputOpen = true) (hv2 : wal.legacyV2 = false) (hpend : wal.headerPending = true)
    (hgen : wal.generation = s.wal.generation+1) (hmax : s.wal.generation ≠ kMaxUint64) :
    HeaderInv { s with wal := wal } := by
  have hlt : s.wal.generation < 2^64 := by
    cases h.shape with
    | fresh _ _ _ _ hg64 => exact hg64
    | v3 _ _ _ _ _ hg64 => exact hg64
    | v2 _ _ _ hg => rw [hg]; norm_num
  have hpos : 0 < wal.generation := by omega
  have hlt' : wal.generation < 2^64 := by
    simp only [kMaxUint64] at hmax
    omega
  exact ⟨hopen, .fresh hfile hv2 hpend hpos hlt' (hgen ▸ h.lt_succ), h.increasing⟩

theorem clear (h : HeaderInv s) : HeaderInv { s with wal := s.wal.clear.2 } := by
  unfold WriteAheadLog.clear
  split_ifs with hmax
  · exact h
  · exact h.next _ rfl rfl rfl rfl rfl hmax

theorem append (h : HeaderInv s) (op : WalRecord) (hstep : s.step host (.append op) = some t) :
    HeaderInv t := by
  obtain rfl := Option.some.inj hstep
  have hquiet (hp : s.wal.headerPending = (s.wal.append host op).2.headerPending) :
      headerWritten s.wal (s.wal.append host op).2 = [] := by
    rw [headerWritten, if_neg]
    rintro ⟨h1,h2⟩
    rw [hp, h2] at h1
    cases h1
  rcases s.wal.append_cases host op h.outputOpen with hsame | ⟨x,n,failure,hnew,hx⟩
  · rw [hquiet (by rw [hsame]), hsame, List.append_nil]
    exact h
  rw [hnew] at hquiet ⊢
  cases h.shape with
  | fresh hempty hl hp hg hg64 hlt =>
    have hwritten : headerWritten s.wal { s.wal with
        file := s.wal.file ++ (s.wal.headerBytes ++ x)
        headerPending := s.wal.legacyV2 && s.wal.headerPending
        nextSequence := n
        failure := failure } = [s.wal.generation] := by
      rw [headerWritten, if_pos ⟨hp, by rw [hl]; rfl⟩]
    rw [hwritten]
    refine ⟨h.outputOpen, .v3 s.headers ?_ hl (by rw [hl]; rfl) hg hg64 rfl, ?_⟩
    · simp only [WriteAheadLog.headerBytes, hempty, hl, hp]
      exact List.prefix_append _ _
    · rw [List.pairwise_append]
      exact ⟨h.increasing, List.pairwise_singleton _ _, by simpa using hlt⟩
  | v3 before hpre hl hp hg hg64 hlast =>
    rw [hquiet (by rw [hp, Bool.and_false]), List.append_nil]
    exact ⟨h.outputOpen, .v3 before (hpre.trans (List.prefix_append _ _)) hl
      (by rw [hp, Bool.and_false]) hg hg64 hlast, h.increasing⟩
  | v2 hold hl hp hg hnone =>
    rw [hquiet (by rw [hp, Bool.and_false]), List.append_nil]
    refine ⟨h.outputOpen, .v2 (fun _ => ?_) hl (by rw [hp, Bool.and_false]) hg hnone, h.increasing⟩
    obtain ⟨rfl,hok⟩ := hx hl
    have hbytes : s.wal.headerBytes = [] := by simp [WriteAheadLog.headerBytes, hl]
    rw [hbytes, List.nil_append]
    rcases eq_or_ne s.wal.file [] with he | hne
    · rw [he]
      exact magicPrefix_of_frame hok List.prefix_rfl
    · exact magicPrefix_append (hold hne) _

/-- A reopened file that is not empty tells its generation. -/
theorem reopen (h : HeaderInv s) {policy : DurabilityPolicy} {maxBatch : ℕ} {wal : WriteAheadLog}
    (hsafe : s.wal.file ≠ [] ∨ s.headers = [])
    (hopen : openWal host s.wal.file policy maxBatch = .ok wal) :
    HeaderInv { s with wal := wal } := by
  have hb := openWal_maxBatch hopen
  have hbatch : ¬(maxBatch = 0 ∨ maxBatch > 4096) := by omega
  have hfresh (he : s.wal.file = []) : HeaderInv { s with wal := wal } := by
    have hnone : s.headers = [] := hsafe.resolve_left (fun hne => hne he)
    rw [he, openWal, if_neg hbatch] at hopen
    obtain rfl := Except.ok.inj hopen
    exact ⟨rfl, .fresh rfl rfl rfl one_pos (by norm_num) (by simp [hnone]), h.increasing⟩
  cases h.shape with
  | fresh hempty => exact hfresh hempty
  | v3 before hpre hv2 hpend hg hg64 hlast =>
    obtain ⟨x,hx⟩ := hpre
    have hlen : 24 ≤ s.wal.file.length := by
      rw [← hx, List.length_append, length_makeHeader, kHeaderLength]
      omega
    have hm : magicPrefix s.wal.file = true := magicPrefix_of_header ⟨x,hx⟩
    have hp : parseHeader s.wal.file 1 = (true, s.wal.generation) := by
      rw [← hx]
      exact parseHeader_makeHeader s.wal.generation 1 hg hg64 x
    have h4 : kWalMagic.length ≤ s.wal.file.length := by
      simp only [kWalMagic, List.length_cons, List.length_nil]
      omega
    rw [openWal, if_neg hbatch, if_neg (by omega)] at hopen
    simp only [hm, if_true, hp, h4, and_self] at hopen
    split at hopen
    · cases hopen
    split_ifs at hopen with hseq
    obtain rfl := Except.ok.inj hopen
    exact ⟨rfl, .v3 before ⟨x,hx⟩ rfl rfl hg hg64 hlast, h.increasing⟩
  | v2 hold hv2 hpend hg hnone =>
    by_cases he : s.wal.file = []
    · exact hfresh he
    have hm := hold he
    rw [openWal, if_neg hbatch, if_neg (fun hl => he (List.length_eq_zero_iff.mp hl))] at hopen
    simp only [hm, Bool.false_eq_true, if_false] at hopen
    split at hopen
    · cases hopen
    obtain rfl := Except.ok.inj hopen
    exact ⟨rfl, .v2 (fun _ => hm) rfl rfl rfl hnone, h.increasing⟩

/-- `TruncateTo(0)` is a `Clear`, but that a v2 log stays one. -/
theorem truncateTo_zero (h : HeaderInv s) :
    HeaderInv { s with wal := (s.wal.truncateTo host 0).2 } := by
  unfold WriteAheadLog.truncateTo
  have hl : ¬0 > s.wal.file.length := Nat.not_lt_zero _
  by_cases hmax : s.wal.legacyV2 = false ∧ 0 = 0 ∧ s.wal.generation = kMaxUint64
  · rw [if_pos hmax]
    exact h
  rw [if_neg hmax, if_neg hl]
  dsimp only
  rw [if_pos (rfl : 0 = 0)]
  split_ifs with hv2
  · cases h.shape with
    | fresh _ hl => rw [hl] at hv2; cases hv2
    | v3 _ _ hl => rw [hl] at hv2; cases hv2
    | v2 hold hv2 hpend hg hnone =>
      exact ⟨rfl, .v2 (fun hne => absurd rfl hne) hv2 hpend hg hnone, h.increasing⟩
  · rw [Bool.not_eq_true] at hv2
    exact h.next _ rfl rfl hv2 rfl rfl (fun hg => hmax ⟨hv2,rfl,hg⟩)

theorem step (h : HeaderInv s) (hsafe : s.keepsHeader c) (hstep : s.step host c = some t) :
    HeaderInv t := by
  cases c with
  | append op => exact h.append op hstep
  | clear =>
    obtain rfl := Option.some.inj hstep
    exact h.clear
  | rotate =>
    obtain rfl := Option.some.inj hstep
    exact h.clear
  | truncateToZero =>
    obtain rfl := Option.some.inj hstep
    exact h.truncateTo_zero
  | reopen policy maxBatch =>
    simp only [HeaderHistory.step] at hstep
    split at hstep
    · rename_i wal hopen
      obtain rfl := Option.some.inj hstep
      exact h.reopen hsafe hopen
    · cases hstep

/-- Opening a well-formed log is reopening it after a session that left it so. -/
theorem start {b : Bytes} {ops : List WalRecord} (hlog : WellFormedLog host b ops)
    {policy : DurabilityPolicy} {maxBatch : ℕ} {wal : WriteAheadLog}
    (hopen : openWal host b policy maxBatch = .ok wal) : HeaderInv (HeaderHistory.start wal) := by
  have hold (old : WriteAheadLog) (hfile : old.file = b) (hinv : HeaderInv ⟨old, headerOf b⟩)
      (hsafe : b ≠ [] ∨ headerOf b = []) : HeaderInv (HeaderHistory.start wal) := by
    subst hfile
    have hnew := hinv.reopen hsafe hopen
    rwa [HeaderHistory.start, (openWal_fields hopen).1]
  cases hlog with
  | empty =>
    refine hold { file := [], policy := policy, maxBatch := maxBatch, headerPending := true } rfl ?_
      (.inr rfl)
    exact ⟨rfl,
      .fresh rfl rfl rfl one_pos (by norm_num) (by simp [headerOf, parseHeader, kHeaderLength]),
      List.Pairwise.nil⟩
  | v3 g _ hg hg64 =>
    have hone : headerOf (makeHeader g ++ framesFrom host true 1 ops) = [g] := by
      rw [headerOf, parseHeader_makeHeader g 0 hg hg64]
      rfl
    refine hold { file := makeHeader g ++ framesFrom host true 1 ops, policy := policy
                  maxBatch := maxBatch, generation := g } rfl ?_ (.inl ?_)
    · rw [hone]
      exact ⟨rfl, .v3 [] (List.prefix_append _ _) rfl rfl hg hg64 rfl, List.pairwise_singleton _ _⟩
    · exact List.ne_nil_of_length_pos (by simp [kHeaderLength])
  | v2 _ hne hok =>
    have hm := wellFormed_v2_frame hne hok (List.prefix_rfl (l := framesFrom host false 1 ops))
    have hnone : headerOf (framesFrom host false 1 ops) = [] := by
      rw [headerOf, if_neg]
      intro hh
      obtain ⟨g,-,-,hpre⟩ := (parseHeader_fst_iff _).mp hh
      rw [magicPrefix_of_header hpre] at hm
      cases hm
    refine hold { file := framesFrom host false 1 ops, policy := policy, maxBatch := maxBatch
                  legacyV2 := true, generation := 0 } rfl ?_ (.inr hnone)
    rw [hnone]
    exact ⟨rfl, .v2 (fun _ => hm) rfl rfl rfl rfl, List.Pairwise.nil⟩

/-- The header the file begins with is the last one written. -/
theorem last_header (h : HeaderInv s) {g : ℕ} (hg : 0 < g) (hg64 : g < 2^64)
    (hpre : makeHeader g <+: s.wal.file) : s.headers.getLast? = some g := by
  have hne : s.wal.file ≠ [] := by
    intro he
    simp [he, makeHeader_eq, headerBody, kWalMagic] at hpre
  cases h.shape with
  | fresh hempty => exact absurd hempty hne
  | v3 before hfile _ _ hg' hg64' hlast =>
    obtain rfl := header_prefix_unique hg' hg64' hg hg64 hfile hpre
    rw [hlast, List.getLast?_concat]
  | v2 hold =>
    have hm := hold hne
    rw [magicPrefix_of_header hpre] at hm
    cases hm

end HeaderInv

/-- Generations never repeat as long as a file that has had a header is not reopened while it is
empty: over any calls, from any well-formed log, every header written carries a generation above
all that were written before. -/
theorem generations_never_repeat (host : ByteOrder) (b : Bytes) (ops : List WalRecord)
    (hlog : WellFormedLog host b ops) (policy : DurabilityPolicy) (maxBatch : ℕ)
    (wal : WriteAheadLog) (hopen : openWal host b policy maxBatch = .ok wal)
    (calls : List HeaderCall) (s : HeaderHistory)
    (hkeep : Along (HeaderHistory.step host) HeaderHistory.keepsHeader
      (HeaderHistory.start wal) calls)
    (hrun : run (HeaderHistory.step host) (HeaderHistory.start wal) calls = some s) :
    s.headers.Pairwise (· < ·) ∧
      ∀ g, 0 < g → g < 2^64 → makeHeader g <+: s.wal.file → s.headers.getLast? = some g := by
  have hend := run_along (fun _ _ _ hc hs ht => HeaderInv.step hs hc ht) hkeep hrun
    (HeaderInv.start hlog hopen)
  exact ⟨hend.increasing, fun g => hend.last_header⟩

/-- Three generations of one file, which is closed and reopened while it has its second header. -/
theorem generations_over_reopened_file :
    ∃ s, run (HeaderHistory.step .little)
        (HeaderHistory.start
          { file := [], policy := .buffered, maxBatch := 1, headerPending := true })
        [.append (.set [1] [2]), .clear, .append (.delete [1]), .reopen .sync 1, .truncateToZero,
          .append (.set [3] [4])] = some s ∧
      s.headers = [1,2,3] ∧ s.headers.Pairwise (· < ·) := by
  have hrun : (run (HeaderHistory.step .little)
      (HeaderHistory.start
        { file := [], policy := .buffered, maxBatch := 1, headerPending := true })
      [.append (.set [1] [2]), .clear, .append (.delete [1]), .reopen .sync 1, .truncateToZero,
        .append (.set [3] [4])]).map HeaderHistory.headers = some [1,2,3] := by decide +kernel
  obtain ⟨s,hs,hheaders⟩ := Option.map_eq_some_iff.mp hrun
  exact ⟨s, hs, hheaders, (generations_never_repeat .little [] [] .empty .buffered 1 _ rfl _ s
    (by decide +kernel) hs).1⟩

/-- A rotated log that is closed before its next record starts again with the first generation. -/
theorem generation_repeats_after_reopen :
    ∃ s, run (HeaderHistory.step .little)
        (HeaderHistory.start
          { file := [], policy := .buffered, maxBatch := 1, headerPending := true })
        [.append (.set [1] [2]), .clear, .reopen .buffered 1, .append (.set [3] [4])] = some s ∧
      s.headers = [1,1] := by
  have hrun : (run (HeaderHistory.step .little)
      (HeaderHistory.start
        { file := [], policy := .buffered, maxBatch := 1, headerPending := true })
      [.append (.set [1] [2]), .clear, .reopen .buffered 1,
        .append (.set [3] [4])]).map HeaderHistory.headers = some [1,1] := by decide +kernel
  exact Option.map_eq_some_iff.mp hrun

end ConcurrentKV
