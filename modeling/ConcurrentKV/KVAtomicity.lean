import ConcurrentKV.KVThreads

/-! Every call of `KVThreads` takes effect at one of its steps: a call on one key when it reads or
changes its shard, `Size` when it has counted the last shard, `Clear` when it has locked the last,
and `ReplayFromWal` when it has replayed the log over the collected data. -/
namespace ConcurrentKV
open ByteCodec OpLog Sharding Transition History

/-- What the call returns, once it has taken effect. -/
def CallPc.answer : CallPc → Option CallResult
  | .acted result | .emptying _ _ result | .placing _ result | .unlocking _ result
  | .unlocked result | .returned result => some result
  | .clearing _ => some .done
  | .begun | .locked | .appended | .locking _ | .counting _ _ | .collecting _ _ => none

/-- The shards do not show the map, because the call has still to bring them there. -/
def CallPc.rebuilding : CallPc → Bool
  | .clearing _ | .emptying _ _ _ | .placing _ _ => true
  | _ => false

/-- How far a loop over the shards has come, in terms of them and of the map `m` that the calls so
far have left. -/
def CallPc.Progress (hash : Bytes → ℕ) (shards : Shard → Store) (m : Store) : CallPc → Prop
  | .counting n total => total = ((List.finRange kShardCount).take n).foldl
      (fun size i => size+(shards i).keys.card) 0
  | .collecting n data => data = ((List.finRange kShardCount).take n).foldl
      (fun result i => result ∪ shards i) ∅
  | .clearing n => m = ∅ ∧ ∀ i, i.val < n → shards i = ∅
  | .emptying n data _ => m = data ∧ ∀ i, i.val < n → shards i = ∅
  | .placing rest _ => ∃ placed, Enumerates (placed ++ rest) m ∧
      shards = distribute (shardIndex hash) placed
  | _ => True

def Effect.shards (shards : Shard → Store) : Effect → Shard → Store
  | .store i data => Function.update shards i data
  | _ => shards

/-- The map behind a step of the call, which may be the one at which it takes effect. -/
def KVCall.after (host : ByteOrder) (c : KVCall) (pc pc' : CallPc) (m : Store) : Store :=
  match pc.answer, pc'.answer with
  | none, some _ => (c.respond host m).2
  | _, _ => m

variable {host : ByteOrder} {hash : Bytes → ℕ} {shards : Shard → Store} {m : Store} {c : KVCall}
  {pc pc' : CallPc} {effect : Effect}

/-- `CollectDataLocked` has collected the map. -/
theorem CallPc.Progress.collected {n : ℕ} {data : Store}
    (h : (CallPc.collecting n data).Progress hash shards m) (hn : kShardCount ≤ n)
    (hshards : shards = split (shardIndex hash) m) : data = m := by
  rw [CallPc.Progress, take_finRange_of_le hn, hshards] at h
  exact h.trans (collect_split _ _)

namespace KVCall.Next

/-- A call that has taken effect keeps its result. -/
theorem answer (h : c.Next host hash shards pc effect pc') {result : CallResult}
    (hpc : pc.answer = some result) : pc'.answer = some result := by
  cases h <;> first | exact hpc | cases hpc

/-- What the call returns is what the map answers when it takes effect. -/
theorem respond (h : c.Next host hash shards pc effect pc')
    (hsplit : pc.rebuilding = false → (∃ i, pc.Holds hash c i) →
      shards = split (shardIndex hash) m)
    (hprog : pc.Progress hash shards m) (hpc : pc.answer = none) {result : CallResult}
    (hpc' : pc'.answer = some result) : result = (c.respond host m).1 := by
  cases h with
  | checkpointThrows | appendThrows | beginClear => exact (Option.some.inj hpc').symm
  | get key | contains key | mutate op =>
    rw [← Option.some.inj hpc', hsplit rfl ⟨_, rfl⟩, lookup_split]
    rfl
  | countDone n total hn =>
    rw [CallPc.Progress, take_finRange_of_le hn] at hprog
    obtain rfl : total = totalSize shards := hprog
    rw [← Option.some.inj hpc', hsplit rfl ⟨0, trivial⟩, totalSize_split]
    rfl
  | replayThrows file offset n data e hn hreplay =>
    obtain rfl := hprog.collected hn (hsplit rfl ⟨0, trivial⟩)
    rw [← Option.some.inj hpc', KVCall.respond, hreplay]
  | replay file offset n data data' r hn hreplay =>
    obtain rfl := hprog.collected hn (hsplit rfl ⟨0, trivial⟩)
    rw [← Option.some.inj hpc', KVCall.respond, hreplay]
  | lockKey | beginSize | lockMutex | append | lockNext | beginCount | beginCollect | count
  | collect => cases hpc'
  | unlockKey | clear | clearDone | empty | traverse | place | placeDone | unlockNext
  | unlockDone => cases hpc

theorem progress (h : c.Next host hash shards pc effect pc')
    (hsplit : pc.rebuilding = false → (∃ i, pc.Holds hash c i) →
      shards = split (shardIndex hash) m)
    (hprog : pc.Progress hash shards m) :
    pc'.Progress hash (effect.shards shards) (c.after host pc pc' m) := by
  cases h with
  | beginCount | beginCollect => rfl
  | beginClear => exact ⟨rfl, fun i hi => absurd hi (Nat.not_lt_zero _)⟩
  | count n total hn =>
    obtain rfl : total = _ := hprog
    rw [CallPc.Progress, take_finRange_succ hn, List.foldl_append]
    rfl
  | collect n data hn =>
    obtain rfl : data = _ := hprog
    rw [CallPc.Progress, take_finRange_succ hn, List.foldl_append]
    rfl
  | clear n hn | empty n _ _ hn =>
    refine ⟨hprog.1, fun i hi => ?_⟩
    by_cases hin : i = ⟨n,hn⟩
    · rw [hin]
      exact Function.update_self ..
    · have hlt : i.val < n := Nat.lt_of_le_of_ne (Nat.le_of_lt_succ hi) fun h => hin (Fin.ext h)
      exact (Function.update_of_ne hin _ _).trans (hprog.2 i hlt)
  | replay file offset n data data' r hn hreplay =>
    obtain rfl := hprog.collected hn (hsplit rfl ⟨0, trivial⟩)
    refine ⟨?_, fun i hi => absurd hi (Nat.not_lt_zero _)⟩
    simp [KVCall.after, CallPc.answer, KVCall.respond, hreplay]
  | traverse entries n data result hn henum =>
    obtain ⟨rfl,hempty⟩ := hprog
    exact ⟨[], henum, funext fun i => hempty i (i.isLt.trans_le hn)⟩
  | place e rest result =>
    obtain ⟨placed,henum,rfl⟩ := hprog
    refine ⟨placed ++ [e], ?_, ?_⟩
    · rw [List.append_assoc]
      exact henum
    · rw [distribute, distribute, List.foldl_append]
      rfl
  | _ => trivial

/-- When the call is not rebuilding the shards, they show the map. -/
theorem settled (h : c.Next host hash shards pc effect pc')
    (hrest : pc.rebuilding = false → shards = split (shardIndex hash) m)
    (hprog : pc.Progress hash shards m) (hpc' : pc'.rebuilding = false) :
    effect.shards shards = split (shardIndex hash) (c.after host pc pc' m) := by
  cases h with
  | beginClear | clear | replay | empty | traverse | place => cases hpc'
  | mutate op =>
    obtain rfl := hrest rfl
    exact (split_applyOp _ _ op).symm
  | clearDone n hn =>
    obtain ⟨rfl,hempty⟩ := hprog
    exact (funext fun i => hempty i (i.isLt.trans_le hn)).trans (split_empty _).symm
  | placeDone result =>
    obtain ⟨placed,henum,rfl⟩ := hprog
    rw [List.append_nil] at henum
    exact distribute_eq_split _ henum.lookup_iff
  | replayThrows file offset n data e hn hreplay =>
    obtain rfl := hrest rfl
    obtain rfl := hprog.collected hn rfl
    simp [Effect.shards, KVCall.after, CallPc.answer, KVCall.respond, hreplay]
  | unlockDone =>
    obtain rfl := hrest rfl
    cases c.admin <;> rfl
  | _ =>
    obtain rfl := hrest rfl
    rfl

/-- A step that changes the shards or the map is one of a call with an exclusive lock. -/
theorem quiet (h : c.Next host hash shards pc effect pc')
    (hx : pc.rebuilding = true → c.exclusive = true) :
    (c.exclusive = true ∧ ∃ i, pc.Holds hash c i) ∨
      (effect.shards shards = shards ∧ c.after host pc pc' m = m) := by
  cases h with
  | mutate op => exact .inl ⟨rfl, _, rfl⟩
  | beginClear n hn => exact .inl ⟨rfl, 0, lt_of_lt_of_le (by decide) hn⟩
  | replay => exact .inl ⟨rfl, 0, trivial⟩
  | replayThrows => exact .inl ⟨rfl, 0, trivial⟩
  | clear | empty | place => exact .inl ⟨hx rfl, 0, trivial⟩
  | unlockDone => cases c.admin <;> exact .inr ⟨rfl, rfl⟩
  | _ => exact .inr ⟨rfl, rfl⟩

/-- Only calls that lock exclusively rebuild. -/
theorem exclusive (h : c.Next host hash shards pc effect pc')
    (hx : pc.rebuilding = true → c.exclusive = true) (hpc' : pc'.rebuilding = true) :
    c.exclusive = true := by
  cases h with
  | beginClear | replay => rfl
  | clear | empty | traverse | place => exact hx rfl
  | _ => cases hpc'

end KVCall.Next

/-- A loop over the shards goes on as before when its shards and the map are as before. -/
theorem CallPc.Progress.frame {shards' : Shard → Store} {m' : Store}
    (h : pc.Progress hash shards m)
    (hall : (∀ i, pc.Holds hash c i) → shards' = shards ∧ m' = m) :
    pc.Progress hash shards' m' := by
  cases pc with
  | counting | clearing | collecting | emptying | placing =>
    obtain ⟨rfl,rfl⟩ := hall fun _ => trivial
    exact h
  | _ => trivial

/-! ### Runs -/

variable {s t u : KVThreads} {id : ℕ} {init : Store} {order : List (Entry KVCall CallResult)}

/-- The calls of the order, one after the other, explain what all threads have seen so far and
leave the map `m`, which the shards show when no call is rebuilding them. -/
structure Atomic (host : ByteOrder) (hash : Bytes → ℕ) (init : Store) (s : KVThreads)
    (order : List (Entry KVCall CallResult)) (m : Store) : Prop where
  explains : Explains (KVCall.respond host) init s.history order m
  locked : Locked hash s
  old : ∀ e ∈ order, e.id < s.calls.length
  invoked : ∀ id c pc, s.At id c pc → Event.invoke id c ∈ s.history
  pending : ∀ id c pc, s.At id c pc → pc.answer = none → id ∉ order.map Entry.id
  answered : ∀ id c pc result, s.At id c pc → pc.answer = some result → ⟨id, c, result⟩ ∈ order
  exclusive : ∀ id c pc, s.At id c pc → pc.rebuilding = true → c.exclusive = true
  progress : ∀ id c pc, s.At id c pc → pc.Progress hash s.shards m
  settled : (∀ id c pc, s.At id c pc → pc.rebuilding = false) →
    s.shards = split (shardIndex hash) m

theorem KVThreads.perform_eq {exclusive : Bool} (h : s.perform id exclusive effect = some u) :
    u.calls = s.calls ∧ u.history = s.history ∧ u.shards = effect.shards s.shards := by
  cases effect with
  | lock i =>
    obtain ⟨l,-,rfl⟩ := Option.map_eq_some_iff.mp h
    exact ⟨rfl, rfl, rfl⟩
  | lockMutex =>
    rw [perform] at h
    split at h
    · obtain rfl := Option.some.inj h
      exact ⟨rfl, rfl, rfl⟩
    · cases h
  | none | unlock | unlockMutex | store =>
    obtain rfl := Option.some.inj h
    exact ⟨rfl, rfl, rfl⟩

namespace Atomic

theorem start (host : ByteOrder) (hash : Bytes → ℕ) (init : Store) :
    Atomic host hash init (KVThreads.start hash init) [] init where
  explains := .nil
  locked _ _ _ _ hid := by cases hid
  old := by simp
  invoked _ _ _ hid := by cases hid
  pending _ _ _ hid := by cases hid
  answered _ _ _ _ hid := by cases hid
  exclusive _ _ _ hid := by cases hid
  progress _ _ _ hid := by cases hid
  settled _ := rfl

theorem invoke (h : Atomic host hash init s order m) (call : KVCall) :
    Atomic host hash init { s with
      calls := s.calls ++ [(call, .begun)]
      history := s.history ++ [.invoke s.calls.length call] } order m := by
  have hnew : s.calls.length ∉ order.map Entry.id := by
    intro hmem
    obtain ⟨e,he,heq⟩ := List.mem_map.mp hmem
    exact absurd (h.old e he) (by omega)
  -- the new call has locked nothing and taken no effect
  have hcases {id : ℕ} {c : KVCall} {pc : CallPc}
      (hid : (s.calls ++ [(call, CallPc.begun)])[id]? = some (c,pc)) :
      s.At id c pc ∨ (id = s.calls.length ∧ c = call ∧ pc = .begun) := by
    rw [List.getElem?_append] at hid
    split at hid
    · exact .inl hid
    · rename_i hlt
      have hlt' : id-s.calls.length < 1 := (List.getElem?_eq_some_iff.mp hid).1
      have hid0 : id-s.calls.length = 0 := by omega
      rw [hid0] at hid
      cases hid
      exact .inr ⟨by omega, rfl, rfl⟩
  refine ⟨h.explains.invoke hnew, ?_, ?_, ?_, ?_, ?_, ?_, ?_, ?_⟩
  · intro id c pc i hid hi
    rcases hcases hid with hid | ⟨-,-,rfl⟩
    · exact h.locked id c pc i hid hi
    · cases hi
  · intro e he
    rw [List.length_append]
    exact Nat.lt_add_right _ (h.old e he)
  · intro id c pc hid
    rcases hcases hid with hid | ⟨rfl,rfl,-⟩
    · exact List.mem_append_left _ (h.invoked id c pc hid)
    · exact List.mem_append_right _ List.mem_cons_self
  · intro id c pc hid hpc
    rcases hcases hid with hid | ⟨rfl,-,-⟩
    · exact h.pending id c pc hid hpc
    · exact hnew
  · intro id c pc result hid hpc
    rcases hcases hid with hid | ⟨-,-,rfl⟩
    · exact h.answered id c pc result hid hpc
    · cases hpc
  · intro id c pc hid hpc
    rcases hcases hid with hid | ⟨-,-,rfl⟩
    · exact h.exclusive id c pc hid hpc
    · cases hpc
  · intro id c pc hid
    rcases hcases hid with hid | ⟨-,-,rfl⟩
    · exact h.progress id c pc hid
    · trivial
  · intro hno
    refine h.settled fun id c pc hid => hno id c pc ?_
    exact (List.getElem?_append_left (List.getElem?_eq_some_iff.mp hid).1).trans hid

theorem ret (h : Atomic host hash init s order m) {result : CallResult}
    (hid : s.At id c (.unlocked result)) :
    Atomic host hash init
      { s.setPc id c (.returned result) with history := s.history ++ [.ret id result] }
      order m := by
  have hcases {j : ℕ} {c' : KVCall} {pc : CallPc}
      (hj : (s.setPc id c (.returned result)).At j c' pc) := (KVThreads.at_setPc hid).mp hj
  refine ⟨h.explains.ret (h.answered id c _ result hid rfl), ?_, ?_, ?_, ?_, ?_, ?_, ?_, ?_⟩
  · exact h.locked.setPc hid fun i hi => absurd hi (by simp [CallPc.Holds])
  · intro e he
    rw [KVThreads.setPc, List.length_set]
    exact h.old e he
  · intro j c' pc hj
    rcases hcases hj with ⟨rfl,rfl,-⟩ | ⟨-,hj⟩
    · exact List.mem_append_left _ (h.invoked j c' _ hid)
    · exact List.mem_append_left _ (h.invoked j c' pc hj)
  · intro j c' pc hj hpc
    rcases hcases hj with ⟨-,-,rfl⟩ | ⟨-,hj⟩
    · cases hpc
    · exact h.pending j c' pc hj hpc
  · intro j c' pc result' hj hpc
    rcases hcases hj with ⟨rfl,rfl,rfl⟩ | ⟨-,hj⟩
    · exact h.answered j c' _ result' hid hpc
    · exact h.answered j c' pc result' hj hpc
  · intro j c' pc hj hpc
    rcases hcases hj with ⟨-,-,rfl⟩ | ⟨-,hj⟩
    · cases hpc
    · exact h.exclusive j c' pc hj hpc
  · intro j c' pc hj
    rcases hcases hj with ⟨-,-,rfl⟩ | ⟨-,hj⟩
    · trivial
    · exact h.progress j c' pc hj
  · intro hno
    refine h.settled fun j c' pc hj => ?_
    by_cases hji : j = id
    · subst hji
      cases hid.symm.trans hj
      rfl
    · exact hno j c' pc ((KVThreads.at_setPc hid).mpr (.inr ⟨hji,hj⟩))

/-- While a call holds a shard, no other is rebuilding. -/
theorem shards_eq (h : Atomic host hash init s order m) (hid : s.At id c pc)
    (hpc : pc.rebuilding = false) (hheld : ∃ i, pc.Holds hash c i) :
    s.shards = split (shardIndex hash) m := by
  obtain ⟨i,hi⟩ := hheld
  refine h.settled fun j c' q hj => ?_
  by_contra hq
  rw [Bool.not_eq_false] at hq
  have hall : q.Holds hash c' i := by
    cases q with
    | clearing | emptying | placing => trivial
    | _ => cases hq
  obtain rfl := h.locked.alone hj (h.exclusive j c' q hj hq) hall hid hi
  cases hid.symm.trans hj
  exact absurd (hpc.symm.trans hq) (by decide)

/-- The order behind a step of a call: it grows when the call takes effect. -/
theorem exists_order (h : Atomic host hash init s order m) (hid : s.At id c pc)
    (hnext : c.Next host hash s.shards pc effect pc') : ∃ order',
      Explains (KVCall.respond host) init s.history order' (c.after host pc pc' m) ∧
      (∀ e ∈ order', e ∈ order ∨ e.id = id) ∧ (∀ e ∈ order, e ∈ order') ∧
      (pc'.answer = none → id ∉ order'.map Entry.id) ∧
      ∀ result, pc'.answer = some result → ⟨id, c, result⟩ ∈ order' := by
  cases hpc : pc.answer with
  | some result =>
    have hpc' := hnext.answer hpc
    refine ⟨order, ?_, fun e he => .inl he, fun e he => he, fun hno => ?_, fun r hr => ?_⟩
    · rw [KVCall.after, hpc]
      exact h.explains
    · cases hno.symm.trans hpc'
    · obtain rfl := Option.some.inj (hpc'.symm.trans hr)
      exact h.answered id c pc _ hid hpc
  | none =>
    have hout := h.pending id c pc hid hpc
    cases hpc' : pc'.answer with
    | none =>
      refine ⟨order, ?_, fun e he => .inl he, fun e he => he, fun _ => hout, fun r hr => ?_⟩
      · rw [KVCall.after, hpc, hpc']
        exact h.explains
      · cases hr
    | some result =>
      have hres := hnext.respond (h.shards_eq hid) (h.progress id c pc hid) hpc hpc'
      refine ⟨order ++ [⟨id, c, result⟩], ?_, fun e he => ?_,
        fun e he => List.mem_append_left _ he, fun hno => (by cases hno), fun r hr => ?_⟩
      · rw [KVCall.after, hpc, hpc', hres]
        exact h.explains.place hout (h.invoked id c pc hid)
      · rcases List.mem_append.mp he with he | he
        · exact .inl he
        · exact .inr (congrArg Entry.id (List.mem_singleton.mp he))
      · obtain rfl := Option.some.inj hr
        exact List.mem_append_right _ List.mem_cons_self

/-- A step of a call, which may be the one at which it takes effect. -/
theorem move (h : Atomic host hash init s order m) (hid : s.At id c pc)
    (hnext : c.Next host hash s.shards pc effect pc')
    (hperform : s.perform id c.exclusive effect = some u) :
    ∃ order' m', Atomic host hash init (u.setPc id c pc') order' m' := by
  obtain ⟨hcalls,hhist,hshards⟩ := KVThreads.perform_eq hperform
  obtain ⟨order',hexp,hold,hkeep,hpend,hans⟩ := h.exists_order hid hnext
  have hprog := h.progress id c pc hid
  have hx := h.exclusive id c pc hid
  have hidu : u.At id c pc := (congrArg (·[id]?) hcalls).trans hid
  have hcases {j : ℕ} {c' : KVCall} {q : CallPc} (hj : (u.setPc id c pc').At j c' q) :
      (j = id ∧ c' = c ∧ q = pc') ∨ (j ≠ id ∧ s.At j c' q) := by
    rcases (KVThreads.at_setPc hidu).mp hj with hj | ⟨hne,hj⟩
    · exact .inl hj
    · exact .inr ⟨hne, (congrArg (·[j]?) hcalls).symm.trans hj⟩
  refine ⟨order', c.after host pc pc' m, ?_, ?_, ?_, ?_, ?_, ?_, ?_, ?_, ?_⟩
  · exact (congrArg (Explains _ init · order' _) hhist).mpr hexp
  · exact h.locked.move hid hnext.keeps hperform
  · intro e he
    have hlen : (u.setPc id c pc').calls.length = s.calls.length := by
      rw [KVThreads.setPc, List.length_set, hcalls]
    rw [hlen]
    rcases hold e he with he | rfl
    · exact h.old e he
    · exact (List.getElem?_eq_some_iff.mp hid).1
  · intro j c' q hj
    refine (congrArg (Event.invoke j c' ∈ ·) hhist).mpr ?_
    rcases hcases hj with ⟨rfl,rfl,-⟩ | ⟨-,hj⟩
    · exact h.invoked j c' pc hid
    · exact h.invoked j c' q hj
  · intro j c' q hj hq
    rcases hcases hj with ⟨rfl,rfl,rfl⟩ | ⟨hne,hj⟩
    · exact hpend hq
    · intro hmem
      obtain ⟨e,he,rfl⟩ := List.mem_map.mp hmem
      rcases hold e he with he | heq
      · exact h.pending e.id c' q hj hq (List.mem_map_of_mem he)
      · exact hne heq
  · intro j c' q result hj hq
    rcases hcases hj with ⟨rfl,rfl,rfl⟩ | ⟨-,hj⟩
    · exact hans result hq
    · exact hkeep _ (h.answered j c' q result hj hq)
  · intro j c' q hj hq
    rcases hcases hj with ⟨rfl,rfl,rfl⟩ | ⟨-,hj⟩
    · exact hnext.exclusive hx hq
    · exact h.exclusive j c' q hj hq
  · intro j c' q hj
    refine (congrArg (q.Progress hash · _) hshards).mpr ?_
    rcases hcases hj with ⟨rfl,rfl,rfl⟩ | ⟨hne,hj⟩
    · exact hnext.progress (h.shards_eq hid) hprog
    · -- a loop holds all shards, so that nobody else has one exclusively
      refine (h.progress j c' q hj).frame (c := c') fun hall => ?_
      rcases hnext.quiet (m := m) hx with ⟨hexcl,i,hi⟩ | hsame
      · exact absurd (h.locked.alone hid hexcl hi hj (hall i)) hne
      · exact hsame
  · intro hno
    refine hshards.trans (hnext.settled (fun hpc => h.settled fun j c' q hj => ?_) hprog ?_)
    · by_cases hji : j = id
      · subst hji
        cases hid.symm.trans hj
        exact hpc
      · exact hno j c' q ((KVThreads.at_setPc hidu).mpr
          (.inr ⟨hji, (congrArg (·[j]?) hcalls).trans hj⟩))
    · exact hno id c pc' ((KVThreads.at_setPc hidu).mpr (.inl ⟨rfl,rfl,rfl⟩))

theorem step (h : Atomic host hash init s order m) {l : ThreadLabel}
    (hstep : s.step host hash l = some t) : ∃ order' m', Atomic host hash init t order' m' := by
  rcases KVThreads.step_cases hstep with ⟨call,rfl⟩ |
    ⟨id,c,pc,effect,pc',u,hid,hnext,hperform,rfl⟩ | ⟨id,c,result,hid,rfl⟩
  · exact ⟨order, m, h.invoke call⟩
  · exact h.move hid hnext hperform
  · exact ⟨order, m, h.ret hid⟩

end Atomic

end ConcurrentKV
