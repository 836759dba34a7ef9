import ConcurrentKV.WalResume

/-! Replays of one log from any of its frame boundaries, over a map that already covers
some of its records. -/
namespace ConcurrentKV
open ByteCodec OpLog

/-- Offset `W` denotes the boundary in front of the operation with index `j`. The first one
has two offsets in a v3 log, zero and the end of the header. -/
def FrameBoundary (host : ByteOrder) (b : Bytes) (ops : List WalRecord) (W j : ℕ) : Prop :=
  j ≤ ops.length ∧ (W = 0 ∧ j = 0 ∨ b ≠ [] ∧ W = frameStart host (magicPrefix b) ops j)

theorem frames_behind_boundary {host : ByteOrder} {portable : Bool} {ops : List WalRecord} {j : ℕ}
    {head : Bytes} (hhead : head.length = dataStart portable) (hj : j ≤ ops.length) :
    (head ++ framesFrom host portable 1 ops).drop (frameStart host portable ops j) =
        framesFrom host portable (1+j) (ops.drop j) ∧
      frameStart host portable ops j+(framesFrom host portable (1+j) (ops.drop j)).length =
        (head ++ framesFrom host portable 1 ops).length := by
  have hd : (head ++ framesFrom host portable 1 ops).drop (dataStart portable) =
      framesFrom host portable 1 ops ++ [] := by rw [List.drop_left' hhead, List.append_nil]
  refine ⟨by rw [drop_frameStart hd hj, List.append_nil], ?_⟩
  rw [frameStart, ← hhead, Nat.add_assoc, ← List.length_append, ← framesFrom_split host portable hj,
    List.length_append]

/-- Only the first boundary is right behind the header. -/
theorem frameStart_eq_dataStart {host : ByteOrder} {portable : Bool} {ops : List WalRecord} {j : ℕ}
    (hj : j ≤ ops.length) (h : frameStart host portable ops j = dataStart portable) : j = 0 := by
  have hnil : (framesFrom host portable 1 (ops.take j)).length = 0 := Nat.add_eq_left.mp h
  have hge := length_framesFrom_ge host portable 1 (ops.take j)
  rw [List.length_take, Nat.min_eq_left hj] at hge
  omega

/-- A replay from a boundary reads the rest of the log, whatever the map holds. -/
theorem WellFormedLog.replayFrom {host : ByteOrder} {b : Bytes} {ops : List WalRecord} {W j : ℕ}
    (h : WellFormedLog host b ops) (hroom : b.length ≤ kMaxStreamoff)
    (hW : FrameBoundary host b ops W j) (m : Store) :
    ∃ r, replayFromDetailed host b W m = .ok (r, applyOps (ops.drop j) m) ∧
      r.status = .cleanEof ∧ r.lastGoodOffset = b.length ∧
      r.appliedOperations = ops.length-j := by
  obtain ⟨hj,⟨rfl,rfl⟩ | ⟨hne,hW⟩⟩ := hW
  · -- from the start of the file the replay is the one that finds its longest log
    obtain ⟨p,r,hlong,hr,hgood,-,happ,hclean,-⟩ := h.fileShape.replay m
    have hp : p = b :=
      hlong.isPrefix.eq_of_length_le (hlong.longest b ops h List.prefix_rfl).1.length_le
    rw [hp] at hgood
    exact ⟨r, hr, hclean.mpr hp, hgood, happ⟩
  have hcount : (ops.drop j).length = ops.length-j := List.length_drop
  have hrest {portable : Bool} (hok : ∀ op ∈ ops, RecordOk portable op) :
      ∀ op ∈ ops.drop j, RecordOk portable op := fun op hop => hok op (List.mem_of_mem_drop hop)
  cases h with
  | empty => exact absurd rfl hne
  | v3 g _ hg hg64 hok hn =>
    rw [magicPrefix_of_header (List.prefix_append _ _)] at hW
    obtain ⟨hd,hsize⟩ :=
      @frames_behind_boundary host true ops j (makeHeader g) (length_makeHeader g) hj
    rw [← hW] at hd hsize
    have hdata : kHeaderLength ≤ W := hW ▸ Nat.le_add_right _ _
    -- a first frame right behind the header has to have number one
    have hfirst (h24 : W = kHeaderLength) : 1+j = 1 := by
      rw [frameStart_eq_dataStart hj (hW.symm.trans h24)]
    obtain ⟨r,hr,happ,hgood,hst⟩ := replayLoop_to_end g m (hrest hok) (by omega)
      (fun _ => by omega) (fun _ => hfirst) hd
    refine ⟨r, ?_, hst, hgood.trans hsize, happ.trans hcount⟩
    rw [replayFrom_v3 m hg hg64 (List.prefix_append _ _) hdata (by omega), hr]
  | v2 _ hops hok =>
    have hm := wellFormed_v2_frame hops hok (List.prefix_rfl (l := framesFrom host false 1 ops))
    rw [hm] at hW
    obtain ⟨hd,hsize⟩ := @frames_behind_boundary host false ops j [] rfl hj
    rw [← hW, List.nil_append] at hd hsize
    obtain ⟨r,hr,happ,hgood,hst⟩ := replayLoop_to_end 0 m (hrest hok) (by omega : 0 < 1+j)
      (by simp) (by simp) hd
    refine ⟨r, ?_, hst, hgood.trans hsize, happ.trans hcount⟩
    rw [replayFrom_v2 m hne hm (by omega), hr]

/-- Replays from the offsets in turn, each over the map the one before it left. -/
def replayInTurn (host : ByteOrder) (b : Bytes) (offsets : List ℕ) (m : Store) :
    Except WalError Store :=
  offsets.foldlM (fun m W => (replayFromDetailed host b W m).map Prod.snd) m

/-- Every boundary up to `k` is a place to replay from once the map covers the first `k`
operations: the log is read to its end and the map is that of the whole log. So is every
boundary from then on, as often as one likes. -/
theorem replay_from_any_checkpoint (host : ByteOrder) (b : Bytes) (w : List WalRecord)
    (hlog : WellFormedLog host b w) (hroom : b.length ≤ kMaxStreamoff) (base : Store) (W j k : ℕ)
    (hW : FrameBoundary host b w W j) (hjk : j ≤ k) :
    (∃ r, replayFromDetailed host b W (applyOps (w.take k) base) = .ok (r, applyOps w base) ∧
      r.status = .cleanEof ∧ r.lastGoodOffset = b.length ∧ r.appliedOperations = w.length-j) ∧
    ∀ offsets : List ℕ, (∀ W' ∈ offsets, ∃ j', FrameBoundary host b w W' j') →
      replayInTurn host b (W :: offsets) (applyOps (w.take k) base) = .ok (applyOps w base) := by
  have hfrom (W j k : ℕ) (hW : FrameBoundary host b w W j) (hjk : j ≤ k) :
      ∃ r, replayFromDetailed host b W (applyOps (w.take k) base) = .ok (r, applyOps w base) ∧
        r.status = .cleanEof ∧ r.lastGoodOffset = b.length ∧ r.appliedOperations = w.length-j := by
    obtain ⟨r,hr,hrest⟩ := hlog.replayFrom hroom hW (applyOps (w.take k) base)
    rw [applyOps_drop_take w base hjk] at hr
    exact ⟨r, hr, hrest⟩
  refine ⟨hfrom W j k hW hjk, fun offsets hall => ?_⟩
  -- after the first replay the map covers the whole log, and every later one leaves it so
  have hagain (offsets : List ℕ) (hall : ∀ W' ∈ offsets, ∃ j', FrameBoundary host b w W' j') :
      replayInTurn host b offsets (applyOps w base) = .ok (applyOps w base) := by
    induction offsets with
    | nil => rfl
    | cons W' offsets ih =>
      obtain ⟨j',hW'⟩ := hall W' List.mem_cons_self
      obtain ⟨r,hr,-⟩ := hfrom W' j' w.length hW' hW'.1
      rw [List.take_length] at hr
      rw [replayInTurn, List.foldlM_cons, hr]
      exact ih fun W'' hW'' => hall W'' (List.mem_cons_of_mem _ hW'')
  obtain ⟨r,hr,-⟩ := hfrom W j k hW hjk
  rw [replayInTurn, List.foldlM_cons, hr]
  exact hagain offsets hall

/-- A key that is set, deleted and set again. -/
def rewrittenKey : List WalRecord := [.set [1] [2], .delete [1], .set [1] [3]]

/-- Replaying all of a log over a map that shows the deletion in its middle. -/
theorem replay_over_covered_deletion :
    ∃ r, replayFromDetailed .little (makeHeader 1 ++ framesFrom .little true 1 rewrittenKey)
        kHeaderLength (applyOps (rewrittenKey.take 2) ∅) = .ok (r, applyOps rewrittenKey ∅) ∧
      r.status = .cleanEof ∧
      r.lastGoodOffset = (makeHeader 1 ++ framesFrom .little true 1 rewrittenKey).length ∧
      r.appliedOperations = 3 := by
  have hlog : WellFormedLog .little (makeHeader 1 ++ framesFrom .little true 1 rewrittenKey)
      rewrittenKey := .v3 1 rewrittenKey (by decide) (by decide) (by decide) (by decide)
  have hm : magicPrefix (makeHeader 1 ++ framesFrom .little true 1 rewrittenKey) = true :=
    magicPrefix_of_header (List.prefix_append _ _)
  have hW : FrameBoundary .little (makeHeader 1 ++ framesFrom .little true 1 rewrittenKey)
      rewrittenKey kHeaderLength 0 := by
    refine ⟨Nat.zero_le _, .inr ⟨?_, ?_⟩⟩
    · exact fun he => absurd (congrArg List.length he) (by decide)
    · rw [hm]
      rfl
  exact (replay_from_any_checkpoint .little _ rewrittenKey hlog (by decide) ∅ kHeaderLength 0 2 hW
    (by decide)).1

end ConcurrentKV
