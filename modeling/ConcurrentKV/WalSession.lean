import ConcurrentKV.WalInvariant
import ConcurrentKV.Transition

/-! Sessions of one log file: any calls on the object, closing and reopening included,
from any initial bytes. -/
namespace ConcurrentKV
open ByteCodec OpLog Transition

inductive WalCall where
  | append (op : WalRecord)
  | currentOffset
  | clear
  | rotate
  | replayFromAndTruncate
  | reopen (policy : DurabilityPolicy) (maxBatch : ℕ)

def WalCall.isAppend : WalCall → Bool
  | .append _ => true
  | _ => false

/-- An open log with what has happened to it: `ops` are the operations read from the
original bytes and not cleared since, followed by those acknowledged since; `settled`
holds once an append was acknowledged or a clear or recovery was done. -/
structure WalSession where
  wal : WriteAheadLog
  ops : List WalRecord
  settled : Bool

/-- One call. A call that throws may still have changed the object; only a failing
constructor leaves no object behind. -/
def WalSession.step (host : ByteOrder) (s : WalSession) : WalCall → Option WalSession
  | .append op => match s.wal.append host op with
    | (.ok (), wal) => some ⟨wal, s.ops ++ [op], true⟩
    | (.error _, wal) => some { s with wal := wal }
  | .currentOffset => some s
  | .clear => match s.wal.clear with
    | (.ok (), wal) => some ⟨wal, [], true⟩
    | (.error _, wal) => some { s with wal := wal }
  | .rotate => match s.wal.rotate with
    | (.ok (), wal) => some ⟨wal, [], true⟩
    | (.error _, wal) => some { s with wal := wal }
  | .replayFromAndTruncate => match s.wal.replayFromAndTruncate host 0 ∅ with
    | (.ok _, wal) => some { s with wal := wal, settled := true }
    | (.error _, wal) => some { s with wal := wal }
  | .reopen policy maxBatch => match openWal host s.wal.file policy maxBatch with
    | .ok wal => some { s with wal := wal }
    | .error _ => none

/-- The object is in step with its file, and a settled file is a well-formed log. -/
structure SessionInv (host : ByteOrder) (s : WalSession) : Prop where
  inv : WalInv host s.wal s.ops
  settled : s.settled = true → s.wal.appendCheck = .ok ()

/-- One call keeps the object in step, and the log grows by at most the call's record. -/
theorem SessionInv.step {host : ByteOrder} {s t : WalSession} {c : WalCall} (h : SessionInv host s)
    (hn : s.ops.length+c.isAppend.toNat < kMaxUint64) (hstep : s.step host c = some t) :
    SessionInv host t ∧ t.ops.length ≤ s.ops.length+c.isAppend.toNat := by
  have hclear (hc : (match s.wal.clear with
      | (.ok (), wal) => some (⟨wal, [], true⟩ : WalSession)
      | (.error _, wal) => some { s with wal := wal }) = some t) :
      SessionInv host t ∧ t.ops.length ≤ s.ops.length := by
    unfold WriteAheadLog.clear at hc
    split_ifs at hc with hmax
    · obtain rfl := Option.some.inj hc
      exact ⟨h, le_rfl⟩
    · obtain rfl := Option.some.inj hc
      obtain ⟨hadm,hinv⟩ := h.inv.cleared hmax
      exact ⟨⟨hinv, fun _ => hadm⟩, Nat.zero_le _⟩
  cases c with
  | append op =>
    simp only [WalSession.step, WalCall.isAppend, Bool.toNat_true] at hstep hn ⊢
    by_cases hack : s.wal.appendCheck = .ok () ∧ RecordOk s.wal.portable op
    · obtain ⟨happ,hinv⟩ := h.inv.append_acknowledged hack.1 hack.2 hn
      rw [happ] at hstep
      obtain rfl := Option.some.inj hstep
      refine ⟨⟨hinv, fun _ => ?_⟩, by simp⟩
      exact (WriteAheadLog.appendCheck_ok_iff _).mpr (s.wal.appendCheck_ok_iff.mp hack.1)
    · have href : ∃ e, s.wal.append host op = (.error e, s.wal) := by
        by_cases hok : RecordOk s.wal.portable op
        · cases hadm : s.wal.appendCheck with
          | ok => exact absurd ⟨hadm,hok⟩ hack
          | error e => exact s.wal.append_of_refused host hadm
        · exact s.wal.append_of_oversized host hok
      obtain ⟨e,he⟩ := href
      rw [he] at hstep
      obtain rfl := Option.some.inj hstep
      exact ⟨h, Nat.le_succ _⟩
  | currentOffset =>
    obtain rfl := Option.some.inj hstep
    exact ⟨h, le_rfl⟩
  | clear => exact hclear hstep
  | rotate => exact hclear hstep
  | replayFromAndTruncate =>
    obtain ⟨r,wal',hrec,-,-,hadm,hinv⟩ := h.inv.recovered hn ∅
    simp only [WalSession.step, hrec] at hstep
    obtain rfl := Option.some.inj hstep
    exact ⟨⟨hinv, fun _ => hadm⟩, le_rfl⟩
  | reopen policy maxBatch =>
    simp only [WalSession.step] at hstep
    split at hstep
    · rename_i wal hopen
      obtain rfl := Option.some.inj hstep
      obtain ⟨wal',hopen',hfile,-,-,hinv⟩ := openWal_inv h.inv.agree.fileShape policy
        (openWal_maxBatch hopen) (fun _ => hn)
      rw [hopen] at hopen'
      obtain rfl := Except.ok.inj hopen'
      refine ⟨⟨hinv, fun hset => ?_⟩, le_rfl⟩
      rw [hinv.appendCheck_iff, hfile, ← h.inv.appendCheck_iff]
      exact h.settled hset
    · cases hstep

/-- What a session promises in each of its states. -/
structure SessionSound (host : ByteOrder) (s : WalSession) : Prop where
  /-- A file that is not a well-formed log takes no append and nothing changes. -/
  refused : (¬∃ ops, WellFormedLog host s.wal.file ops) →
    ∀ op, ∃ e, s.wal.append host op = (.error e, s.wal)
  acknowledged : (∃ ops, WellFormedLog host s.wal.file ops) → s.ops.length+1 < kMaxUint64 →
    ∀ op, RecordOk s.wal.portable op → ∃ wal, s.wal.append host op = (.ok (), wal)
  offset : s.wal.currentOffset = .ok s.wal.file.length
  reopens : ∀ policy maxBatch, 1 ≤ maxBatch → maxBatch ≤ 4096 →
    ∃ wal, openWal host s.wal.file policy maxBatch = .ok wal
  longest : ∃ p, LongestLog host s.wal.file p s.ops
  replay : ∀ m, ∃ r, replayFromDetailed host s.wal.file 0 m = .ok (r, applyOps s.ops m) ∧
    r.appliedOperations = s.ops.length ∧ (s.settled = true → r.status = .cleanEof) ∧
    s.wal.nextSequence = r.lastSequence+1
  empty : s.wal.file = [] → s.wal.headerPending = true ∨ s.wal.legacyV2 = true
  generation : ∀ g, 0 < g → g < 2^64 → makeHeader g <+: s.wal.file → s.wal.generation = g

theorem SessionInv.sound {host : ByteOrder} {s : WalSession} (h : SessionInv host s)
    (hn : s.ops.length < kMaxUint64) : SessionSound host s := by
  refine ⟨?_, ?_, ?_, ?_, ?_, ?_, ?_, ?_⟩
  · intro hbad op
    rw [← h.inv.appendCheck_iff] at hbad
    cases hadm : s.wal.appendCheck with
    | ok => exact absurd hadm hbad
    | error e => exact s.wal.append_of_refused host hadm
  · intro hwf hroom op hok
    exact ⟨_, (h.inv.append_acknowledged (h.inv.appendCheck_iff.mpr hwf) hok hroom).1⟩
  · rw [WriteAheadLog.currentOffset, if_pos h.inv.outputOpen]
  · intro policy maxBatch hlo hhi
    obtain ⟨wal,hopen,-⟩ := openWal_inv h.inv.agree.fileShape policy ⟨hlo,hhi⟩ (fun _ => hn)
    exact ⟨wal, hopen⟩
  · obtain ⟨p,r,hlong,-⟩ := h.inv.agree.fileShape.replay ∅
    exact ⟨p, hlong⟩
  · intro m
    obtain ⟨r,hr,happ,hclean,hseq⟩ := h.inv.replay m
    exact ⟨r, hr, happ, fun hset => hclean (h.settled hset), hseq⟩
  · exact h.inv.of_empty
  · exact fun g => h.inv.generation_eq

end ConcurrentKV
