import ConcurrentKV.LockOrder

/-! No set of threads waits in a circle. The locks are ordered as `snapshot_mutex_`, `mutex_`,
shards, then the locks of the log and of the checkpoint's flags. Between two stores the order of
the shards is that of the assignments under way: a store that is being assigned to comes first,
and it cannot be the source of another assignment at the same time. -/
namespace ConcurrentKV
open LockProgram Transition

/-- A thread that holds shards of the store is about to lock one of another. -/
def Crossing (threads : List (Thread Lock (Option ℕ))) (a : ℕ) : Prop :=
  ∃ (t : ℕ) (u : Thread Lock (Option ℕ)) (j : Shard) (x : Bool) (b : ℕ) (i : Shard) (y : Bool)
    (rest : List LockInstr), threads[t]? = some u ∧ (Lock.shard a j, x) ∈ u.held ∧
      u.todo = .acquire [(.shard b i, y)] :: rest ∧ a ≠ b

open Classical in
/-- The place of a lock in the order. -/
noncomputable def Lock.rank (threads : List (Thread Lock (Option ℕ))) : Lock → ℕ
  | .snapshot _ => 0
  | .admin _ => 1
  | .shard a i => if Crossing threads a then 2+i.val else 2+kShardCount+i.val
  | .checkpoint _ | .queue _ | .io _ | .request _ _ => 3+2*kShardCount

/-- The place of a wait in the order. An exclusive request comes behind the shared ones that it
holds up, and a batch in front of the locks its writer takes. -/
noncomputable def waitRank (threads : List (Thread Lock (Option ℕ))) : LockInstr → ℕ
  | .acquire [l] => 2*l.1.rank threads+l.2.toNat
  | .acquire _ => 2
  | .asleep _ => 2*(2+2*kShardCount)
  | _ => 0

variable {roles : List Role} {threads : List (Thread Lock (Option ℕ))}
  {u v : Thread Lock (Option ℕ)} {b t : ℕ} {rest : List LockInstr}

theorem Lock.rank_of_leaf (threads : List (Thread Lock (Option ℕ))) {l : Lock}
    (hl : l.leaf = true) : l.rank threads = 3+2*kShardCount := by
  cases l with
  | snapshot | admin | shard => cases hl
  | _ => rfl

theorem Lock.rank_lt_of_not_leaf (threads : List (Thread Lock (Option ℕ))) {l : Lock}
    (hl : l.leaf = false) :
    l.rank threads < 2+2*kShardCount := by
  cases l with
  | snapshot | admin => simp only [rank]; omega
  | shard a i =>
    have hi := i.isLt
    simp only [rank]
    split <;> omega
  | _ => cases hl

theorem waitRank_le (k : LockInstr) : waitRank threads k ≤ 2*(3+2*kShardCount)+1 := by
  have hrank (l : Lock) : l.rank threads ≤ 3+2*kShardCount := by
    cases hl : l.leaf with
    | true => exact (Lock.rank_of_leaf threads hl).le
    | false => exact (Lock.rank_lt_of_not_leaf threads hl).le.trans (by omega)
  cases k with
  | acquire locks =>
    match locks with
    | [l] =>
      have hl := hrank l.1
      have hx : l.2.toNat ≤ 1 := Bool.toNat_le _
      simp only [waitRank]
      omega
    | [] | _ :: _ :: _ => simp only [waitRank]; omega
  | asleep event => simp only [waitRank]; omega
  | _ => exact Nat.zero_le _

/-- What a thread holds is in front of the lock it waits for. -/
theorem rank_lt (hs : Sound Ordered threads) (hb : threads[b]? = some v) {l h : Lock × Bool}
    (htodo : v.todo = .acquire [l] :: rest) (hh : h ∈ v.held) :
    h.1.rank threads < l.1.rank threads := by
  have hruns := (hs.disciplined v (List.mem_of_getElem? hb)).1
  rw [htodo] at hruns
  have hbelow := hruns.ordered_acquire h hh
  obtain ⟨h,z⟩ := h
  obtain ⟨l,y⟩ := l
  dsimp only at hbelow ⊢
  cases h with
  | snapshot a =>
    cases l with
    | snapshot c => exact absurd rfl (hbelow c)
    | shard c i =>
      simp only [Lock.rank]
      split <;> omega
    | _ => simp [Lock.rank]
  | admin a =>
    rcases hbelow with hleaf | ⟨c,i,rfl⟩
    · rw [Lock.rank_of_leaf threads hleaf]
      simp only [Lock.rank]
      omega
    · simp only [Lock.rank]
      split <;> omega
  | shard a j =>
    rcases hbelow with hleaf | ⟨i,rfl,hji⟩ | ⟨c,i,x,rfl,hac,htarget,hsource⟩
    · rw [Lock.rank_of_leaf threads hleaf]
      exact (Lock.rank_lt_of_not_leaf threads rfl).trans (by omega)
    · have hlt : j.val < i.val := hji
      simp only [Lock.rank]
      split <;> omega
    · -- the thread crosses from `a` to `c`, and nobody crosses from `c`
      have hcross : Crossing threads a := ⟨b, v, j, z, c, i, y, rest, hb, hh, htodo, hac⟩
      have hno : ¬Crossing threads c := by
        rintro ⟨t',v',j',x',d,i',y',rest',hb',hh',htodo',hcd⟩
        have hruns' := (hs.disciplined v' (List.mem_of_getElem? hb')).1
        rw [htodo'] at hruns'
        rcases hruns'.ordered_acquire _ hh' with hleaf | ⟨_,heq,-⟩ | ⟨_,_,_,heq,-,hadmin,-⟩
        · cases hleaf
        · cases heq
          exact hcd rfl
        · cases heq
          by_cases hbt : b = t'
          · subst hbt
            obtain rfl := Option.some.inj (hb.symm.trans hb')
            have hhead := (htodo.symm.trans htodo')
            cases hhead
            exact hcd rfl
          · have hfalse := (hs.exclusive b t' v v' hb hb' hbt _ hsource _ hadmin rfl).2
            cases hfalse
      have hj := j.isLt
      simp only [Lock.rank, if_pos hcross, if_neg hno]
      omega
  | _ => exact absurd hbelow (by simp [Lock.Below])

/-- A request for locks stands at the place of each of them. -/
theorem waitRank_acquire_le (hs : Sound Ordered threads) (ht : threads[t]? = some u)
    {locks : List (Lock × Bool)} (htodo : u.todo = .acquire locks :: rest) {l : Lock × Bool}
    (hl : l ∈ locks) : waitRank threads (.acquire locks) ≤ 2*l.1.rank threads+l.2.toNat ∨
      (waitRank threads (.acquire locks) = 2 ∧ l.1.rank threads = 1) := by
  have hruns := (hs.disciplined u (List.mem_of_getElem? ht)).1
  rw [htodo] at hruns
  have hord := hruns.ordered_acquire
  match locks with
  | [] => cases hl
  | [l'] =>
    obtain rfl := List.mem_singleton.mp hl
    exact .inl le_rfl
  | l₁ :: l₂ :: locks =>
    obtain ⟨store,hstore⟩ := hord.2 l hl
    refine .inr ⟨rfl, ?_⟩
    rw [hstore]
    rfl

/-! ### The writer of a log -/

/-- The writer takes only leaves. -/
def WriterInstr : LockInstr → Prop
  | .acquire locks => ∃ l, locks = [l] ∧ l.1.leaf = true
  | .release _ => True
  | .wait event mutex => event = none ∧ mutex.leaf = true
  | .asleep event => event = none

def WritersConfined (roles : List Role) : List (Thread Lock (Option ℕ)) → Prop :=
  Confined fun t k => ∀ wal, roles[t]? = some (.writer wal) → WriterInstr k

theorem writerInstr_of_brief {l : Lock} (hl : l.leaf = true) : ∀ k ∈ brief l, WriterInstr k := by
  intro k hk
  simp only [brief, guarded, List.cons_append, List.nil_append, List.mem_cons, List.not_mem_nil,
    or_false] at hk
  rcases hk with rfl | rfl
  · exact ⟨_, rfl, hl⟩
  · trivial

theorem writerInstr_of_writeBatch (wal : ℕ) (ids drained : List ℕ) :
    ∀ k ∈ (LockOp.writeBatch wal ids drained).program ++
      (LockOp.writeBatch wal ids drained).handler, WriterInstr k := by
  have hdone (ids : List ℕ) : ∀ k ∈ completions wal ids, WriterInstr k := by
    intro k hk
    obtain ⟨id,-,hk⟩ := List.mem_flatMap.mp hk
    exact writerInstr_of_brief rfl k hk
  intro k hk
  simp only [LockOp.program, LockOp.handler, guarded, List.cons_append, List.nil_append,
    List.append_assoc, List.mem_append, List.mem_cons] at hk
  rcases hk with rfl | rfl | rfl | rfl | hk | hk | hk | hk
  · exact ⟨_, rfl, rfl⟩
  · exact ⟨rfl, rfl⟩
  · exact ⟨rfl, rfl⟩
  · trivial
  · exact writerInstr_of_brief rfl k hk
  · exact hdone ids k hk
  · exact writerInstr_of_brief rfl k hk
  · exact hdone _ k hk

theorem WritersConfined.step {threads' : List (Thread Lock (Option ℕ))}
    (h : WritersConfined roles threads) {label : LockProgram.Label LockOp}
    (hstep : lockStep roles threads label = some threads') : WritersConfined roles threads' := by
  refine Confined.step (fun t op hrun k hk wal hwal => ?_) (fun _ _ _ _ => trivial)
    (fun t event mutex hwait => ⟨fun wal hwal => (hwait wal hwal).1,
      fun wal hwal => ⟨_, rfl, (hwait wal hwal).2⟩⟩) h hstep
  have hrole : op.role = .writer wal := by
    have := hwal.symm.trans (beq_iff_eq.mp hrun)
    exact (Option.some.inj this).symm
  cases op with
  | writeBatch wal' ids drained => exact writerInstr_of_writeBatch wal' ids drained k hk
  | _ => cases hrole

/-! ### Reachable states -/

/-- Whoever provides waits further up, if it waits for anything at all. -/
theorem waitRank_lt (hs : Sound Ordered threads) (hw : WritersConfined roles threads) {c : ℕ}
    {k k' : LockInstr} (hblocks : Blocks (Serves roles) threads b t)
    (hblocked : Blocks (Serves roles) threads c b) (hk : WaitsAt threads t k)
    (hk' : WaitsAt threads b k') : waitRank threads k < waitRank threads k' := by
  obtain ⟨u,rest,ht,htodo,-⟩ := hk
  obtain ⟨v,rest',hb,hbtodo,hkind⟩ := hk'
  have hdisc := (hs.disciplined v (List.mem_of_getElem? hb)).1
  rw [hbtodo] at hdisc
  cases hblocks with
  | holder u₁ v₁ locks rest₁ l h ht₁ hb₁ htodo₁ hl hh hlock hmode =>
    obtain rfl := Option.some.inj (ht.symm.trans ht₁)
    obtain rfl := Option.some.inj (hb.symm.trans hb₁)
    obtain ⟨rfl,-⟩ := List.cons.inj (htodo.symm.trans htodo₁)
    have hle : waitRank threads (.acquire locks) ≤ 2*h.1.rank threads+1 := by
      have hx : l.2.toNat ≤ 1 := Bool.toNat_le _
      rcases waitRank_acquire_le hs ht htodo hl with hle | ⟨hle,hrank⟩
      · rw [hlock]
        omega
      · rw [hlock]
        omega
    rcases hkind with ⟨locks',rfl⟩ | ⟨event,rfl⟩
    · match locks' with
      | [l'] =>
        have hlt := rank_lt hs hb hbtodo hh
        simp only [waitRank] at hle ⊢
        omega
      | [] | _ :: _ :: _ =>
        -- `std::lock` is called with nothing held
        have hmem : h ∈ {h | h ∈ v.held} := hh
        rw [hdisc.ordered_acquire.1] at hmem
        exact absurd hmem (by simp)
    · have hlt := Lock.rank_lt_of_not_leaf threads (hdisc.ordered_asleep h hh)
      simp only [waitRank] at hle ⊢
      omega
  | queued u₁ v₁ locks rest₁ rest₂ lock ht₁ hb₁ htodo₁ hl hqueued =>
    obtain rfl := Option.some.inj (ht.symm.trans ht₁)
    obtain rfl := Option.some.inj (hb.symm.trans hb₁)
    obtain ⟨rfl,-⟩ := List.cons.inj (htodo.symm.trans htodo₁)
    obtain ⟨rfl,-⟩ := List.cons.inj (hbtodo.symm.trans hqueued)
    have hgoal : waitRank threads (.acquire [(lock,true)]) = 2*lock.rank threads+1 := rfl
    rw [hgoal]
    rcases waitRank_acquire_le hs ht htodo hl with hle | ⟨hle,hrank⟩
    · simp only [Bool.toNat_false] at hle
      omega
    · dsimp only at hrank
      omega
  | event u₁ event rest₁ ht₁ htodo₁ hserves =>
    obtain rfl := Option.some.inj (ht.symm.trans ht₁)
    obtain ⟨rfl,-⟩ := List.cons.inj (htodo.symm.trans htodo₁)
    obtain ⟨wal,-,hrole⟩ := hserves
    have hinstr : WriterInstr k' := hw b v hb k' (by simp [hbtodo]) wal hrole
    rcases hkind with ⟨locks',rfl⟩ | ⟨event',rfl⟩
    · obtain ⟨l,rfl,hleaf⟩ := hinstr
      have hrank := Lock.rank_of_leaf threads hleaf
      simp only [waitRank]
      omega
    · -- the writer sleeps until there is something to write, and nobody has to wake it
      obtain rfl : event' = none := hinstr
      cases hblocked with
      | event u₂ event rest₂ hb₂ htodo₂ hserves₂ =>
        obtain rfl := Option.some.inj (hb.symm.trans hb₂)
        cases hbtodo.symm.trans htodo₂
        obtain ⟨_,heq,-⟩ := hserves₂
        cases heq
      | holder u₂ v₂ locks rest₂ l h hb₂ _ htodo₂ =>
        obtain rfl := Option.some.inj (hb.symm.trans hb₂)
        cases hbtodo.symm.trans htodo₂
      | queued u₂ v₂ locks rest₂ rest₃ lock hb₂ _ htodo₂ =>
        obtain rfl := Option.some.inj (hb.symm.trans hb₂)
        cases hbtodo.symm.trans htodo₂

/-- Whatever calls any number of threads make on any stores and logs, beside the checkpoint
threads and the writers, no set of threads gets to where each waits for a lock or a batch that one
of the set has to give. -/
theorem locks_never_deadlock (roles : List Role) {labels : List (LockProgram.Label LockOp)}
    (hrun : run (lockStep roles) (roles.map fun _ => {}) labels = some threads) (D : Set ℕ) :
    ¬Deadlocked (Serves roles) threads D := by
  have hstart : ∀ (t : ℕ) (u : Thread Lock (Option ℕ)),
      (roles.map fun _ => ({} : Thread Lock (Option ℕ)))[t]? = some u → u = {} := by
    intro t u ht
    rw [List.getElem?_map, Option.map_eq_some_iff] at ht
    obtain ⟨_,_,rfl⟩ := ht
    rfl
  have hinv := run_invariant (A := fun _ => True)
    (P := fun threads => Sound Ordered threads ∧ WritersConfined roles threads)
    (fun s l t _ h hl => ⟨h.1.step (fun op => ⟨op.program_runs, op.handler_runs⟩) hl, h.2.step hl⟩)
    (fun _ _ => trivial) hrun ?_
  · exact not_deadlocked (waitRank threads) _ waitRank_le
      (fun t b c k k' => waitRank_lt hinv.1 hinv.2) D
  · refine ⟨⟨fun u hu => ?_, fun t t' u u' ht _ _ h hh => ?_⟩, fun t u ht k hk => ?_⟩
    · obtain ⟨_,-,rfl⟩ := List.mem_map.mp hu
      have hnone : {h | h ∈ ([] : List (Lock × Bool))} = ∅ := by simp
      exact ⟨hnone ▸ .nil, .nil⟩
    · rw [hstart t u ht] at hh
      cases hh
    · rw [hstart t u ht] at hk
      cases hk

/-- `a = b` together with `b = a`: one waits for the other, and not the other way round. -/
theorem crossed_assignments_never_deadlock : ∃ threads,
    run (lockStep [.caller, .caller]) [{}, {}]
      [.start 0 (.copyAssign 0 1), .start 1 (.copyAssign 1 0), .step 0] = some threads ∧
    Blocks (Serves [.caller, .caller]) threads 0 1 ∧
    ∀ D, ¬Deadlocked (Serves [.caller, .caller]) threads D := by
  have hrun : run (lockStep [.caller, .caller]) [{}, {}]
      [.start 0 (.copyAssign 0 1), .start 1 (.copyAssign 1 0), .step 0] = some
        [⟨(assignment 0 1 false).tail, [], [(.admin 0, true), (.admin 1, false)]⟩,
          ⟨assignment 1 0 false, [], []⟩] := by rfl
  refine ⟨_, hrun, ?_, fun D => locks_never_deadlock [.caller, .caller] hrun D⟩
  exact .holder _ _ [(.admin 1, true), (.admin 0, false)] _ (.admin 0, false) (.admin 0, true)
    rfl rfl rfl (by simp) (by simp) rfl (.inl rfl)

end ConcurrentKV
