import ConcurrentKV.History
import ConcurrentKV.KVObjects
import ConcurrentKV.RwLock

/-! Any number of threads that call `Set`, `Delete`, `Get`, `Contains`, `Size`, `Clear` and
`ReplayFromWal` on one `KVStore`. A step takes or releases one lock or works on one shard. -/
namespace ConcurrentKV
open ByteCodec OpLog Sharding Transition History

/-- The calls. `fault` is what makes a `Set` or `Delete` throw, if anything does: the error of the
checkpoint worker, which the call sees before it locks its shard, or one of its append. `file` is
what the log holds when `ReplayFromWal` reads it. -/
inductive KVCall where
  | write (op : WalRecord) (fault : Option CallError)
  | get (key : Bytes)
  | contains (key : Bytes)
  | size
  | clear
  | replayFromWal (file : Bytes) (offset : ℕ)
  deriving DecidableEq

namespace KVCall

/-- Whether it locks shards exclusively. -/
def exclusive : KVCall → Bool
  | .write _ _ | .clear | .replayFromWal _ _ => true
  | .get _ | .contains _ | .size => false

/-- The key of a call on one shard. -/
def key : KVCall → Option Bytes
  | .write op _ => some op.key
  | .get key | .contains key => some key
  | .size | .clear | .replayFromWal _ _ => none

/-- Whether it holds `mutex_`. -/
def admin : KVCall → Bool
  | .clear | .replayFromWal _ _ => true
  | _ => false

/-- What a single map answers, and what becomes of it. -/
def respond (host : ByteOrder) : KVCall → Store → CallResult × Store
  | .write _ (some e), m => (.threw e, m)
  | .write op none, m => (writeResult op (m.lookup op.key), applyOp op m)
  | .get key, m => (.value (m.lookup key), m)
  | .contains key, m => (.bool (m.lookup key).isSome, m)
  | .size, m => (.count m.keys.card, m)
  | .clear, _ => (.done, ∅)
  | .replayFromWal file offset, m => match replayFromDetailed host file offset m with
    | .error e => (.threw (.wal e), m)
    | .ok (result,data) => (.count result.appliedOperations, data)

end KVCall

/-- How far a call has come. -/
inductive CallPc where
  | begun
  /-- Its key's shard is locked. -/
  | locked
  | appended
  /-- Before the unlocking of its key's shard. -/
  | acted (result : CallResult)
  /-- The first `n` shards are locked. -/
  | locking (n : ℕ)
  | counting (n total : ℕ)
  | clearing (n : ℕ)
  /-- In `CollectDataLocked`, behind `n` shards. -/
  | collecting (n : ℕ) (data : Store)
  /-- In the first loop of `ReplaceDataLocked`. -/
  | emptying (n : ℕ) (data : Store) (result : CallResult)
  /-- In its second loop, with these entries to come. -/
  | placing (rest : List (Bytes × Bytes)) (result : CallResult)
  | unlocking (n : ℕ) (result : CallResult)
  | unlocked (result : CallResult)
  | returned (result : CallResult)

inductive Effect where
  | none
  | lock (i : Shard)
  | unlock (i : Shard)
  | lockMutex
  | unlockMutex
  | store (i : Shard) (data : Store)

/-- What the call does next, and where it is then. The counter of writes is left out. -/
def KVCall.next (host : ByteOrder) (hash : Bytes → ℕ) (shards : Shard → Store) (c : KVCall)
    (pc : CallPc) : Option (Effect × CallPc) :=
  match pc with
  | .begun => match c with
    | .write _ (some .checkpoint) => some (.none, .unlocked (.threw .checkpoint))
    | .write op _ => some (.lock (shardIndex hash op.key), .locked)
    | .get key | .contains key => some (.lock (shardIndex hash key), .locked)
    | .size => some (.none, .locking 0)
    | .clear | .replayFromWal _ _ => some (.lockMutex, .locking 0)
  | .locked => match c with
    | .write _ none => some (.none, .appended)
    | .write _ (some e) => some (.none, .acted (.threw e))
    | .get key => some (.none, .acted (.value ((shards (shardIndex hash key)).lookup key)))
    | .contains key =>
      some (.none, .acted (.bool ((shards (shardIndex hash key)).lookup key).isSome))
    | _ => none
  | .appended => match c with
    | .write op none => some (
        .store (shardIndex hash op.key) (applyOp op (shards (shardIndex hash op.key))),
        .acted (writeResult op ((shards (shardIndex hash op.key)).lookup op.key)))
    | _ => none
  | .acted result => c.key.map fun key => (.unlock (shardIndex hash key), .unlocked result)
  | .locking n =>
    if h : n < kShardCount then some (.lock ⟨n,h⟩, .locking (n+1)) else match c with
      | .size => some (.none, .counting 0 0)
      | .clear => some (.none, .clearing 0)
      | .replayFromWal _ _ => some (.none, .collecting 0 ∅)
      | _ => none
  | .counting n total =>
    if h : n < kShardCount then some (.none, .counting (n+1) (total+(shards ⟨n,h⟩).keys.card))
    else match c with
      | .size => some (.none, .unlocking 0 (.count total))
      | _ => none
  | .clearing n =>
    if h : n < kShardCount then some (.store ⟨n,h⟩ ∅, .clearing (n+1))
    else some (.none, .unlocking 0 .done)
  | .collecting n data =>
    if h : n < kShardCount then some (.none, .collecting (n+1) (data ∪ shards ⟨n,h⟩))
    else match c with
      | .replayFromWal file offset => match replayFromDetailed host file offset data with
        | .error e => some (.none, .unlocking 0 (.threw (.wal e)))
        | .ok (result,data) => some (.none, .emptying 0 data (.count result.appliedOperations))
      | _ => none
  | .emptying n data result =>
    if h : n < kShardCount then some (.store ⟨n,h⟩ ∅, .emptying (n+1) data result) else none
  | .placing (e :: rest) result => some (
      .store (shardIndex hash e.1) (shards (shardIndex hash e.1) ∪ Finmap.singleton e.1 e.2),
      .placing rest result)
  | .placing [] result => some (.none, .unlocking 0 result)
  | .unlocking n result =>
    if h : n < kShardCount then some (.unlock ⟨n,h⟩, .unlocking (n+1) result)
    else some (if c.admin then .unlockMutex else .none, .unlocked result)
  | .unlocked _ | .returned _ => none

/-- A call is named by its place in `calls`. -/
structure KVThreads where
  shards : Shard → Store
  locks : Shard → RwLock := fun _ => .free
  mutex : Option ℕ := none
  calls : List (KVCall × CallPc) := []
  history : List (Event KVCall CallResult) := []

inductive ThreadLabel where
  | invoke (call : KVCall)
  | move (id : ℕ)
  /-- The second loop of `ReplaceDataLocked` begins, over the map's entries in this order. -/
  | traverse (id : ℕ) (entries : List (Bytes × Bytes))
  | ret (id : ℕ)

namespace KVThreads

variable (host : ByteOrder) (hash : Bytes → ℕ) (s : KVThreads)

/-- A store with the entries of `m` that nobody uses yet. -/
def start (m : Store) : KVThreads := { shards := split (shardIndex hash) m }

def setPc (id : ℕ) (c : KVCall) (pc : CallPc) : KVThreads :=
  { s with calls := s.calls.set id (c,pc) }

def setLock (i : Shard) (l : RwLock) : KVThreads :=
  { s with locks := Function.update s.locks i l }

def perform (id : ℕ) (exclusive : Bool) : Effect → Option KVThreads
  | .none => some s
  | .lock i => ((s.locks i).acquire exclusive id).map fun l => s.setLock i l
  | .unlock i => some (s.setLock i ((s.locks i).release id))
  | .lockMutex => if s.mutex = none then some { s with mutex := some id } else none
  | .unlockMutex => some { s with mutex := none }
  | .store i data => some { s with shards := Function.update s.shards i data }

def step : ThreadLabel → Option KVThreads
  | .invoke call => some { s with
      calls := s.calls ++ [(call, .begun)]
      history := s.history ++ [.invoke s.calls.length call] }
  | .move id => match s.calls[id]? with
    | none => none
    | some (c,pc) => match c.next host hash s.shards pc with
      | none => none
      | some (effect,pc') => (s.perform id c.exclusive effect).map fun t => t.setPc id c pc'
  | .traverse id entries => match s.calls[id]? with
    | some (c, .emptying n data result) =>
      if kShardCount ≤ n ∧ Enumerates entries data then
        some (s.setPc id c (.placing entries result))
      else none
    | _ => none
  | .ret id => match s.calls[id]? with
    | some (c, .unlocked result) => some { s.setPc id c (.returned result) with
        history := s.history ++ [.ret id result] }
    | _ => none

end KVThreads

/-! ### The steps of a call -/

/-- The steps of a call, one constructor for each: those of `KVCall.next`, and the beginning of a
traversal. -/
inductive KVCall.Next (host : ByteOrder) (hash : Bytes → ℕ) (shards : Shard → Store) :
    KVCall → CallPc → Effect → CallPc → Prop where
  | checkpointThrows (op : WalRecord) : Next host hash shards (.write op (some .checkpoint)) .begun
      .none (.unlocked (.threw .checkpoint))
  | lockKey {c : KVCall} (key : Bytes) (hkey : c.key = some key) : Next host hash shards c .begun
      (.lock (shardIndex hash key)) .locked
  | beginSize : Next host hash shards .size .begun .none (.locking 0)
  | lockMutex {c : KVCall} (hc : c.admin = true) : Next host hash shards c .begun .lockMutex
      (.locking 0)
  | append (op : WalRecord) : Next host hash shards (.write op none) .locked .none .appended
  | appendThrows (op : WalRecord) (e : CallError) : Next host hash shards (.write op (some e))
      .locked .none (.acted (.threw e))
  | get (key : Bytes) : Next host hash shards (.get key) .locked .none
      (.acted (.value ((shards (shardIndex hash key)).lookup key)))
  | contains (key : Bytes) : Next host hash shards (.contains key) .locked .none
      (.acted (.bool ((shards (shardIndex hash key)).lookup key).isSome))
  | mutate (op : WalRecord) : Next host hash shards (.write op none) .appended
      (.store (shardIndex hash op.key) (applyOp op (shards (shardIndex hash op.key))))
      (.acted (writeResult op ((shards (shardIndex hash op.key)).lookup op.key)))
  | unlockKey {c : KVCall} (key : Bytes) (result : CallResult) (hkey : c.key = some key) :
      Next host hash shards c (.acted result) (.unlock (shardIndex hash key)) (.unlocked result)
  | lockNext {c : KVCall} (n : ℕ) (hn : n < kShardCount) : Next host hash shards c (.locking n)
      (.lock ⟨n,hn⟩) (.locking (n+1))
  | beginCount (n : ℕ) (hn : kShardCount ≤ n) : Next host hash shards .size (.locking n) .none
      (.counting 0 0)
  | beginClear (n : ℕ) (hn : kShardCount ≤ n) : Next host hash shards .clear (.locking n) .none
      (.clearing 0)
  | beginCollect (file : Bytes) (offset n : ℕ) (hn : kShardCount ≤ n) :
      Next host hash shards (.replayFromWal file offset) (.locking n) .none (.collecting 0 ∅)
  | count {c : KVCall} (n total : ℕ) (hn : n < kShardCount) : Next host hash shards c
      (.counting n total) .none (.counting (n+1) (total+(shards ⟨n,hn⟩).keys.card))
  | countDone (n total : ℕ) (hn : kShardCount ≤ n) : Next host hash shards .size
      (.counting n total) .none (.unlocking 0 (.count total))
  | clear {c : KVCall} (n : ℕ) (hn : n < kShardCount) : Next host hash shards c (.clearing n)
      (.store ⟨n,hn⟩ ∅) (.clearing (n+1))
  | clearDone {c : KVCall} (n : ℕ) (hn : kShardCount ≤ n) : Next host hash shards c (.clearing n)
      .none (.unlocking 0 .done)
  | collect {c : KVCall} (n : ℕ) (data : Store) (hn : n < kShardCount) : Next host hash shards c
      (.collecting n data) .none (.collecting (n+1) (data ∪ shards ⟨n,hn⟩))
  | replayThrows (file : Bytes) (offset n : ℕ) (data : Store) (e : WalError)
      (hn : kShardCount ≤ n) (hreplay : replayFromDetailed host file offset data = .error e) :
      Next host hash shards (.replayFromWal file offset) (.collecting n data) .none
        (.unlocking 0 (.threw (.wal e)))
  | replay (file : Bytes) (offset n : ℕ) (data data' : Store) (result : WalReplayResult)
      (hn : kShardCount ≤ n)
      (hreplay : replayFromDetailed host file offset data = .ok (result,data')) :
      Next host hash shards (.replayFromWal file offset) (.collecting n data) .none
        (.emptying 0 data' (.count result.appliedOperations))
  | empty {c : KVCall} (n : ℕ) (data : Store) (result : CallResult) (hn : n < kShardCount) :
      Next host hash shards c (.emptying n data result) (.store ⟨n,hn⟩ ∅)
        (.emptying (n+1) data result)
  | traverse {c : KVCall} (entries : List (Bytes × Bytes)) (n : ℕ) (data : Store)
      (result : CallResult) (hn : kShardCount ≤ n) (henum : Enumerates entries data) :
      Next host hash shards c (.emptying n data result) .none (.placing entries result)
  | place {c : KVCall} (e : Bytes × Bytes) (rest : List (Bytes × Bytes)) (result : CallResult) :
      Next host hash shards c (.placing (e :: rest) result) (.store (shardIndex hash e.1)
        (shards (shardIndex hash e.1) ∪ Finmap.singleton e.1 e.2)) (.placing rest result)
  | placeDone {c : KVCall} (result : CallResult) : Next host hash shards c (.placing [] result)
      .none (.unlocking 0 result)
  | unlockNext {c : KVCall} (n : ℕ) (result : CallResult) (hn : n < kShardCount) :
      Next host hash shards c (.unlocking n result) (.unlock ⟨n,hn⟩) (.unlocking (n+1) result)
  | unlockDone {c : KVCall} (n : ℕ) (result : CallResult) (hn : kShardCount ≤ n) :
      Next host hash shards c (.unlocking n result) (if c.admin then .unlockMutex else .none)
        (.unlocked result)

variable {host : ByteOrder} {hash : Bytes → ℕ} {shards : Shard → Store} {c : KVCall}
  {pc pc' : CallPc} {effect : Effect}

theorem KVCall.next_of_next (h : c.next host hash shards pc = some (effect,pc')) :
    c.Next host hash shards pc effect pc' := by
  have hpair {a b : Effect × CallPc} (h : some a = some b) : b = a := (Option.some.inj h).symm
  cases pc with
  | begun =>
    cases c with
    | write op fault =>
      by_cases hfault : fault = some .checkpoint
      · subst hfault
        cases hpair h
        exact .checkpointThrows op
      · have hlock : KVCall.next host hash shards (.write op fault) .begun =
            some (.lock (shardIndex hash op.key), .locked) := by
          cases fault with
          | none => rfl
          | some e => cases e <;> first | rfl | exact absurd rfl hfault
        cases hpair (hlock.symm.trans h)
        exact .lockKey op.key rfl
    | get key | contains key => cases hpair h; exact .lockKey key rfl
    | size => cases hpair h; exact .beginSize
    | clear | replayFromWal file offset => cases hpair h; exact .lockMutex rfl
  | locked =>
    cases c with
    | write op fault =>
      cases fault with
      | none => cases hpair h; exact .append op
      | some e => cases hpair h; exact .appendThrows op e
    | get key => cases hpair h; exact .get key
    | contains key => cases hpair h; exact .contains key
    | size | clear | replayFromWal file offset => cases h
  | appended =>
    cases c with
    | write op fault =>
      cases fault with
      | none => cases hpair h; exact .mutate op
      | some e => cases h
    | _ => cases h
  | acted result =>
    obtain ⟨key,hkey,heq⟩ := Option.map_eq_some_iff.mp h
    cases heq
    exact .unlockKey key result hkey
  | locking n =>
    unfold KVCall.next at h
    dsimp only at h
    split at h
    · cases hpair h; exact .lockNext n _
    · cases c with
      | size => cases hpair h; exact .beginCount n (by omega)
      | clear => cases hpair h; exact .beginClear n (by omega)
      | replayFromWal file offset => cases hpair h; exact .beginCollect file offset n (by omega)
      | _ => cases h
  | counting n total =>
    unfold KVCall.next at h
    dsimp only at h
    split at h
    · cases hpair h; exact .count n total _
    · cases c with
      | size => cases hpair h; exact .countDone n total (by omega)
      | _ => cases h
  | clearing n =>
    rw [KVCall.next] at h
    split at h
    · cases hpair h; exact .clear n _
    · cases hpair h; exact .clearDone n (by omega)
  | collecting n data =>
    unfold KVCall.next at h
    dsimp only at h
    split at h
    · cases hpair h; exact .collect n data _
    · cases c with
      | replayFromWal file offset =>
        dsimp only at h
        cases hreplay : replayFromDetailed host file offset data with
        | error e =>
          rw [hreplay] at h
          cases hpair h
          exact .replayThrows file offset n data e (by omega) hreplay
        | ok r =>
          rw [hreplay] at h
          cases hpair h
          exact .replay file offset n data r.2 r.1 (by omega) hreplay
      | _ => cases h
  | emptying n data result =>
    rw [KVCall.next] at h
    split at h
    · cases hpair h; exact .empty n data result _
    · cases h
  | placing rest result =>
    cases rest with
    | nil => cases hpair h; exact .placeDone result
    | cons e rest => cases hpair h; exact .place e rest result
  | unlocking n result =>
    rw [KVCall.next] at h
    split at h
    · cases hpair h; exact .unlockNext n result _
    · cases hpair h; exact .unlockDone n result (by omega)
  | unlocked result | returned result => cases h

variable {s t : KVThreads} {id : ℕ}

/-- The call `id` is `c` and has come to `pc`. -/
def KVThreads.At (s : KVThreads) (id : ℕ) (c : KVCall) (pc : CallPc) : Prop :=
  s.calls[id]? = some (c,pc)

/-- What a step does. -/
theorem KVThreads.step_cases {l : ThreadLabel} (h : s.step host hash l = some t) :
    (∃ call, t = { s with
      calls := s.calls ++ [(call, .begun)]
      history := s.history ++ [.invoke s.calls.length call] }) ∨
    (∃ id c pc effect pc' u, s.At id c pc ∧ c.Next host hash s.shards pc effect pc' ∧
      s.perform id c.exclusive effect = some u ∧ t = u.setPc id c pc') ∨
    ∃ id c result, s.At id c (.unlocked result) ∧
      t = { s.setPc id c (.returned result) with history := s.history ++ [.ret id result] } := by
  cases l with
  | invoke call => exact .inl ⟨call, (Option.some.inj h).symm⟩
  | move id =>
    rw [step] at h
    split at h
    · cases h
    · rename_i c pc hid
      split at h
      · cases h
      · rename_i effect pc' hnext
        obtain ⟨u,hu,rfl⟩ := Option.map_eq_some_iff.mp h
        exact .inr (.inl ⟨id, c, pc, effect, pc', u, hid, KVCall.next_of_next hnext, hu, rfl⟩)
  | traverse id entries =>
    rw [step] at h
    split at h
    · rename_i c n data result hid
      split at h
      · rename_i hguard
        obtain rfl := Option.some.inj h
        exact .inr (.inl ⟨id, c, _, .none, _, s, hid,
          .traverse entries n data result hguard.1 hguard.2, rfl, rfl⟩)
      · cases h
    · cases h
  | ret id =>
    rw [step] at h
    split at h
    · rename_i c result hid
      exact .inr (.inr ⟨id, c, result, hid, (Option.some.inj h).symm⟩)
    · cases h

/-! ### Locks -/

/-- The shards the call has locked. -/
def CallPc.Holds (hash : Bytes → ℕ) (c : KVCall) (i : Shard) : CallPc → Prop
  | .locked | .appended | .acted _ => c.key.map (shardIndex hash) = some i
  | .locking n => i.val < n
  | .counting _ _ | .clearing _ | .collecting _ _ | .emptying _ _ _ | .placing _ _ => True
  | .unlocking n _ => n ≤ i.val
  | .begun | .unlocked _ | .returned _ => False

/-- How a step changes what its call holds. A shard is changed only under an exclusive lock. -/
def Effect.Keeps (hash : Bytes → ℕ) (c : KVCall) (pc pc' : CallPc) (i : Shard) : Effect → Prop
  | .lock j => pc'.Holds hash c i → pc.Holds hash c i ∨ i = j
  | .unlock j => pc.Holds hash c j ∧ (pc'.Holds hash c i → pc.Holds hash c i ∧ i ≠ j)
  | .store j _ => pc.Holds hash c j ∧ (pc'.Holds hash c i → pc.Holds hash c i)
  | _ => pc'.Holds hash c i → pc.Holds hash c i

theorem KVCall.Next.keeps (h : c.Next host hash shards pc effect pc') (i : Shard) :
    effect.Keeps hash c pc pc' i := by
  cases h with
  | checkpointThrows | beginSize | lockMutex =>
    intro hi
    exact absurd hi (by simp [CallPc.Holds])
  | lockKey key hkey =>
    intro hi
    rw [CallPc.Holds, hkey] at hi
    exact .inr (Option.some.inj hi).symm
  | append | appendThrows | get | contains => exact id
  | mutate op => exact ⟨rfl, id⟩
  | unlockKey key result hkey =>
    refine ⟨?_, fun hi => absurd hi (by simp [CallPc.Holds])⟩
    rw [CallPc.Holds, hkey]
    rfl
  | lockNext n hn =>
    intro hi
    rcases Nat.lt_succ_iff_lt_or_eq.mp hi with hi | hi
    · exact .inl hi
    · exact .inr (Fin.ext hi)
  | beginCount n hn | beginClear n hn | beginCollect _ _ n hn =>
    intro _
    exact i.isLt.trans_le hn
  | count | countDone | clearDone | collect | replayThrows | replay | traverse | placeDone =>
    exact fun _ => trivial
  | clear | empty | place => exact ⟨trivial, fun _ => trivial⟩
  | unlockNext n result hn =>
    refine ⟨le_refl n, fun hi => ⟨Nat.le_of_succ_le hi, ?_⟩⟩
    rintro rfl
    exact absurd hi (Nat.not_succ_le_self n)
  | unlockDone n result hn => cases c.admin <;> exact fun hi => absurd hi (by simp [CallPc.Holds])

/-- Every call holds the locks that its place in the code says. -/
def Locked (hash : Bytes → ℕ) (s : KVThreads) : Prop :=
  ∀ id c pc i, s.At id c pc → pc.Holds hash c i → (s.locks i).Held c.exclusive id

theorem KVThreads.at_setPc (hid : s.At id c pc) {j : ℕ} {c' : KVCall} {q : CallPc} :
    (s.setPc id c pc').At j c' q ↔ (j = id ∧ c' = c ∧ q = pc') ∨ (j ≠ id ∧ s.At j c' q) := by
  obtain ⟨hlt,-⟩ := List.getElem?_eq_some_iff.mp hid
  rw [KVThreads.At, KVThreads.setPc, List.getElem?_set]
  by_cases hj : j = id
  · simp [hj, hlt, eq_comm]
  · simp [hj, Ne.symm hj, KVThreads.At]

theorem KVThreads.locks_setLock (i j : Shard) (l : RwLock) :
    (s.setLock i l).locks j = if j = i then l else s.locks j := Function.update_apply ..

namespace Locked

/-- A call that gains no lock. -/
theorem setPc (h : Locked hash s) (hid : s.At id c pc)
    (hpc : ∀ i, pc'.Holds hash c i → (s.locks i).Held c.exclusive id) :
    Locked hash (s.setPc id c pc') := by
  intro j c' q i hj hq
  rcases (KVThreads.at_setPc hid).mp hj with ⟨rfl,rfl,rfl⟩ | ⟨-,hj⟩
  · exact hpc i hq
  · exact h j c' q i hj hq

theorem move (h : Locked hash s) (hid : s.At id c pc)
    (hkeeps : ∀ i, effect.Keeps hash c pc pc' i)
    (hperform : s.perform id c.exclusive effect = some t) :
    Locked hash (t.setPc id c pc') := by
  have hown (i : Shard) (hi : pc.Holds hash c i) := h id c pc i hid hi
  cases effect with
  | none | unlockMutex =>
    obtain rfl := Option.some.inj hperform
    exact h.setPc hid fun i hi => hown i (hkeeps i hi)
  | store j data =>
    obtain rfl := Option.some.inj hperform
    exact h.setPc hid fun i hi => hown i ((hkeeps i).2 hi)
  | lockMutex =>
    rw [KVThreads.perform] at hperform
    split at hperform
    · obtain rfl := Option.some.inj hperform
      exact h.setPc hid fun i hi => hown i (hkeeps i hi)
    · cases hperform
  | lock j =>
    obtain ⟨l,hl,rfl⟩ := Option.map_eq_some_iff.mp hperform
    have hothers : Locked hash (s.setLock j l) := by
      intro k c' q i hk hq
      rw [KVThreads.locks_setLock]
      by_cases hij : i = j
      · rw [if_pos hij]
        subst hij
        exact (h k c' q i hk hq).acquire hl
      · rw [if_neg hij]
        exact h k c' q i hk hq
    refine hothers.setPc hid fun i hi => ?_
    rcases hkeeps i hi with hi | rfl
    · exact hothers id c pc i hid hi
    · rw [KVThreads.locks_setLock, if_pos rfl]
      exact RwLock.held_of_acquire hl
  | unlock j =>
    obtain rfl := Option.some.inj hperform
    -- the call itself has left `j`; the others hold on to it
    intro k c' q i hk hq
    have hlocks : ((s.setLock j ((s.locks j).release id)).setPc id c pc').locks i =
        if i = j then (s.locks j).release id else s.locks i := KVThreads.locks_setLock ..
    rw [hlocks]
    rcases (KVThreads.at_setPc (s := s.setLock j _) hid).mp hk with ⟨rfl,rfl,rfl⟩ | ⟨hne,hk⟩
    · obtain ⟨hi,hij⟩ := (hkeeps i).2 hq
      rw [if_neg hij]
      exact hown i hi
    · by_cases hij : i = j
      · rw [if_pos hij]
        subst hij
        exact (h k c' q i hk hq).release (hown i (hkeeps i).1) hne
      · rw [if_neg hij]
        exact h k c' q i hk hq

/-- Beside a call that holds a shard exclusively no other holds it. -/
theorem alone (h : Locked hash s) {i : Shard} (hid : s.At id c pc) (hx : c.exclusive = true)
    (hi : pc.Holds hash c i) {j : ℕ} {c' : KVCall} {q : CallPc} (hj : s.At j c' q)
    (hq : q.Holds hash c' i) : j = id :=
  RwLock.Held.eq (hx ▸ h id c pc i hid hi) (h j c' q i hj hq)

end Locked

end ConcurrentKV
