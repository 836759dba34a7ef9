import ConcurrentKV.KVLocks

/-! The shards follow a list of requests that only grows: each shard is the list's effect on
its keys, up to the one record whose call has the shard locked. Which list that is (the
records in the file, or the acknowledged ones) is up to the user of these lemmas. -/
namespace ConcurrentKV
open ByteCodec OpLog Sharding Transition

/-- The record of the call holding the lock, if it is in `log` and not in the map yet. -/
def Slot.unappliedIn (log : List Request) : Slot → List WalRecord
  | .writer ⟨op, .appending id⟩ => if id ∈ log.map Request.id then [op] else []
  | .writer ⟨op, .appended _⟩ => [op]
  | _ => []

/-- The append `id` of `op` was acknowledged, and it is in `log`. -/
def AckedIn (log : List Request) (wal : WalThreads) (id : ℕ) (op : WalRecord) : Prop :=
  (id, none) ∈ wal.results ∧ ∃ r ∈ log, r.id = id ∧ r.op = op

/-- The list has every acknowledged append, no refused one and none that is yet to come. -/
structure LogIds (log : List Request) (wal : WalThreads) : Prop where
  fresh : wal.nextId ∉ log.map Request.id
  acknowledged : ∀ id, (id, none) ∈ wal.results → id ∈ log.map Request.id
  refused : ∀ id e, (id, some e) ∈ wal.results → id ∉ log.map Request.id

/-- The map is `m` with the records of `log` applied, shard by shard. -/
structure ShardInv (hash : Bytes → ℕ) (m : Store) (log : List Request) (wal : WalThreads)
    (slots : Shard → Slot) (shards : Shard → Store) (returned : List Returned) : Prop where
  own : OwnInv hash wal slots
  separated : Separated (shardIndex hash) shards
  written : ∀ r ∈ log, ∀ i op, slots i = .writer ⟨op, .appending r.id⟩ → r.op = op
  acked : ∀ i op pc id, slots i = .writer ⟨op,pc⟩ → pc.acked = some id → AckedIn log wal id op
  returned : ∀ c ∈ returned, AckedIn log wal c.id c.op
  agree : ∀ k, (applyOps ((slots (shardIndex hash k)).unappliedIn log)
    (shards (shardIndex hash k))).lookup k = (applyOps (log.map Request.op) m).lookup k

theorem Slot.unappliedIn_of_not_writer {slot : Slot} (h : slot.isWriter = false)
    (log : List Request) : slot.unappliedIn log = [] := by
  cases slot with
  | writer call => cases h
  | readers keys => rfl
  | admin => rfl

theorem Slot.unappliedIn_of_acked {op : WalRecord} {pc : WritePc} {id : ℕ} (h : pc.acked = some id)
    (hne : pc ≠ .appended id) (log : List Request) :
    (Slot.writer ⟨op,pc⟩).unappliedIn log = [] := by
  cases pc with
  | appended id' =>
    obtain rfl : id' = id := Option.some.inj h
    exact absurd rfl hne
  | locked | appending id' => cases h
  | mutated | counted | scheduled => rfl

theorem AckedIn.mono {log log' : List Request} {wal wal' : WalThreads} {id : ℕ} {op : WalRecord}
    (h : AckedIn log wal id op) (hres : wal.results <+: wal'.results) (hlog : log <+: log') :
    AckedIn log' wal' id op := by
  obtain ⟨hid,r,hr,he⟩ := h
  exact ⟨hres.subset hid, r, hlog.subset hr, he⟩

namespace KVStore

variable {host : ByteOrder} {hash : Bytes → ℕ} {s t : KVStore} {l : Label}

/-- The log stays as it is or makes one step. -/
theorem Effect.wal_cases (h : Effect host hash s t l) :
    t.wal = s.wal ∨ ∃ w, s.wal.step host w = some t.wal := by
  cases h with
  | prepare i op hold hwal => exact .inr ⟨_, hwal⟩
  | wal lab w hl hlab hwal => exact .inr ⟨w, hwal⟩
  | same _ hwal | locks _ _ _ _ _ hwal | lockShard _ _ hwal | acknowledge _ _ _ _ _ hwal
  | rethrow _ _ _ _ _ _ hwal | mutate _ _ _ _ _ hwal | ret _ _ _ _ _ _ _ _ hwal
  | proceed _ _ _ _ _ _ _ _ _ _ hwal => exact .inl hwal

theorem Effect.results (h : Effect host hash s t l) : s.wal.results <+: t.wal.results := by
  rcases h.wal_cases with hwal | ⟨w,hwal⟩
  · rw [hwal]
  · exact WalThreads.step_results hwal

/-- A list that is read off the log grows in steps of the log alone. -/
theorem Effect.grows (log : WalThreads → List Request) (h : Effect host hash s t l)
    (hprep : ∀ op, s.wal.step host (.prepare op) = some t.wal → log t.wal = log s.wal)
    (hgrow : ∀ w, (l = .wal w ∨ (l = .admin ∧ (w = .clear ∨ w = .clearSync))) →
      s.wal.step host w = some t.wal →
      ∃ new, log t.wal = log s.wal ++ new ∧ ∀ r ∈ new, r ∈ s.wal.outstanding) :
    ∃ new, log t.wal = log s.wal ++ new ∧ (∀ r ∈ new, r ∈ s.wal.outstanding) ∧
      (new = [] ∨ (t.slots = s.slots ∧ t.shards = s.shards ∧ t.returned = s.returned)) := by
  have hsame (he : log t.wal = log s.wal) :
      ∃ new, log t.wal = log s.wal ++ new ∧ (∀ r ∈ new, r ∈ s.wal.outstanding) ∧
        (new = [] ∨ (t.slots = s.slots ∧ t.shards = s.shards ∧ t.returned = s.returned)) :=
    ⟨[], by simpa using he, by simp, .inl rfl⟩
  cases h with
  | prepare i op hold hwal => exact hsame (hprep op hwal)
  | wal lab w hl hlab hwal hslots hshards hret =>
    obtain ⟨new,hnew,hout⟩ := hgrow w hlab hwal
    exact ⟨new, hnew, hout, .inr ⟨hslots, hshards, hret⟩⟩
  | same _ hwal | locks _ _ _ _ _ hwal | lockShard _ _ hwal | acknowledge _ _ _ _ _ hwal
  | rethrow _ _ _ _ _ _ hwal | mutate _ _ _ _ _ hwal | ret _ _ _ _ _ _ _ _ hwal
  | proceed _ _ _ _ _ _ _ _ _ _ hwal => exact hsame (by rw [hwal])

end KVStore

namespace ShardInv

variable {host : ByteOrder} {hash : Bytes → ℕ} {m : Store} {log : List Request}
  {wal wal' : WalThreads} {slots : Shard → Slot} {shards : Shard → Store}
  {returned : List Returned} {s t : KVStore}

theorem start (wal : WriteAheadLog) (m : Store) : ShardInv hash m [] (WalThreads.start wal)
    (fun _ => .readers []) (split (shardIndex hash) m) [] where
  own := ownInv_start hash wal
  separated := separated_split _ m
  written r hr := by simp at hr
  acked i op pc id hi := by cases hi
  returned c hc := by simp at hc
  agree k := lookup_split _ m k

/-- A lock changes hands, and the list stays. -/
theorem update (h : ShardInv hash m log wal slots shards returned) {i : Shard} {slot : Slot}
    (hown : OwnInv hash wal' (Function.update slots i slot))
    (hres : wal.results <+: wal'.results)
    (hun : slot.unappliedIn log = (slots i).unappliedIn log)
    (hacked : ∀ op pc id, slot = .writer ⟨op,pc⟩ → pc.acked = some id → AckedIn log wal id op)
    (happ : ∀ op id, slot = .writer ⟨op, .appending id⟩ → id ∉ log.map Request.id) :
    ShardInv hash m log wal' (Function.update slots i slot) shards returned := by
  refine ⟨hown, h.separated, ?_, ?_, fun c hc => (h.returned c hc).mono hres List.prefix_rfl, ?_⟩
  · intro r hr j op hj
    by_cases hji : j = i
    · subst hji
      rw [Function.update_self] at hj
      exact absurd (List.mem_map_of_mem hr) (happ op r.id hj)
    · rw [Function.update_of_ne hji] at hj
      exact h.written r hr j op hj
  · intro j op pc id hj hpc
    by_cases hji : j = i
    · subst hji
      rw [Function.update_self] at hj
      exact (hacked op pc id hj hpc).mono hres List.prefix_rfl
    · rw [Function.update_of_ne hji] at hj
      exact (h.acked j op pc id hj hpc).mono hres List.prefix_rfl
  · intro k
    rw [← h.agree k]
    by_cases hk : shardIndex hash k = i
    · rw [hk, Function.update_self, hun]
    · rw [Function.update_of_ne hk]

/-- The list grows by some of the outstanding requests. -/
theorem grow (h : ShardInv hash m log wal slots shards returned) (hown : OwnInv hash wal' slots)
    (hres : wal.results <+: wal'.results) {new : List Request}
    (hnew : ∀ r ∈ new, r ∈ wal.outstanding) :
    ShardInv hash m (log ++ new) wal' slots shards returned := by
  have hmono : log <+: log ++ new := List.prefix_append _ _
  -- the call that waits for a request has the request's operation
  have hcall : ∀ r ∈ new, ∀ i op, slots i = .writer ⟨op, .appending r.id⟩ → r.op = op := by
    intro r hr i op hi
    rcases h.own.pending i op r.id hi with ⟨e,he⟩ | ⟨r',hr',hid,hop⟩
    · exact absurd he (WalThreads.no_result_of_outstanding h.own.ids (hnew r hr))
    · rw [← hop, WalThreads.outstanding_unique h.own.ids hr' (hnew r hr) hid]
  refine ⟨hown, h.separated, ?_, fun i op pc id hi hpc => (h.acked i op pc id hi hpc).mono
    hres hmono, fun c hc => (h.returned c hc).mono hres hmono, ?_⟩
  · intro r hr i op hi
    rcases List.mem_append.mp hr with hr | hr
    · exact h.written r hr i op hi
    · exact hcall r hr i op hi
  · intro k
    have hk := h.agree k
    rw [lookup_applyOps, lookup_applyOps] at hk
    rw [lookup_applyOps, lookup_applyOps, List.map_append, lastEffect_append]
    cases he : lastEffect k (new.map Request.op) with
    | some e =>
      -- the last new record on `k` is the one that its shard's call waits for
      obtain ⟨op,hop,rfl,rfl⟩ := lastEffect_mem he
      obtain ⟨r,hr,rfl⟩ := List.mem_map.mp hop
      have hid : r.id ∈ (log ++ new).map Request.id :=
        List.mem_map_of_mem (List.mem_append_right _ hr)
      rw [h.own.owner r (hnew r hr), Slot.unappliedIn, if_pos hid]
      simp [lastEffect]
    | none =>
      rw [Option.none_or, ← hk]
      rw [lastEffect_eq_none_iff] at he
      cases hslot : slots (shardIndex hash k) with
      | readers keys => rfl
      | admin => rfl
      | writer call =>
        obtain ⟨op,pc⟩ := call
        cases pc with
        | appending id =>
          simp only [Slot.unappliedIn, List.map_append, List.mem_append]
          by_cases hid : id ∈ log.map Request.id
          · simp [hid]
          by_cases hid' : id ∈ new.map Request.id
          · obtain ⟨r,hr,rfl⟩ := List.mem_map.mp hid'
            obtain rfl := hcall r hr _ op hslot
            have hne := he r.op (List.mem_map_of_mem hr)
            simp [hid, hid', lastEffect, hne]
          · simp [hid, hid']
        | locked | appended | mutated | counted | scheduled => rfl

/-- A call changes the map. -/
theorem mutate (h : ShardInv hash m log wal slots shards returned) {i : Shard} {op : WalRecord}
    {id : ℕ} {erased : Bool} (hold : slots i = .writer ⟨op, .appended id⟩)
    (hown : OwnInv hash wal (Function.update slots i (.writer ⟨op, .mutated id erased⟩))) :
    ShardInv hash m log wal (Function.update slots i (.writer ⟨op, .mutated id erased⟩))
      (Function.update shards i (applyOp op (shards i))) returned := by
  have hi : shardIndex hash op.key = i := h.own.home i op _ hold
  refine ⟨hown, ?_, ?_, ?_, h.returned, ?_⟩
  · rw [← hi]
    exact h.separated.update op
  · intro r hr j op' hj
    by_cases hji : j = i
    · subst hji
      rw [Function.update_self] at hj
      cases hj
    · rw [Function.update_of_ne hji] at hj
      exact h.written r hr j op' hj
  · intro j op' pc id' hj hpc
    by_cases hji : j = i
    · subst hji
      rw [Function.update_self] at hj
      cases hj
      exact h.acked j op _ id' hold hpc
    · rw [Function.update_of_ne hji] at hj
      exact h.acked j op' pc id' hj hpc
  · intro k
    rw [← h.agree k]
    by_cases hk : shardIndex hash k = i
    · rw [hk, Function.update_self, Function.update_self, hold]
      rfl
    · rw [Function.update_of_ne hk, Function.update_of_ne hk]

/-- A step in which the list stays. -/
theorem keep {l : Label} (h : ShardInv hash m log s.wal s.slots s.shards s.returned)
    (hids : LogIds log s.wal) (heff : KVStore.Effect host hash s t l) :
    ShardInv hash m log t.wal t.slots t.shards t.returned := by
  have hown := h.own.step heff
  cases heff with
  | same l hwal hslots hshards hret =>
    rw [hwal, hslots, hshards, hret]
    exact h
  | locks l i slot hold hnew hwal hslots hshards hret =>
    rw [hwal, hslots] at hown
    rw [hwal, hslots, hshards, hret]
    refine h.update hown List.prefix_rfl ?_ ?_ ?_
    · rw [Slot.unappliedIn_of_not_writer hnew, Slot.unappliedIn_of_not_writer hold]
    · rintro op pc id rfl
      cases hnew
    · rintro op id rfl
      cases hnew
  | lockShard op hold hwal hslots hshards hret =>
    rw [hwal, hslots] at hown
    rw [hwal, hslots, hshards, hret]
    refine h.update hown List.prefix_rfl ?_ ?_ ?_
    · rw [hold]
      rfl
    · rintro op pc id ⟨⟩ ⟨⟩
    · rintro op id ⟨⟩
  | prepare i op hold hwal hslots hshards hret =>
    rw [hslots] at hown
    rw [hslots, hshards, hret]
    refine h.update hown (WalThreads.step_results hwal) ?_ ?_ ?_
    · rw [hold, Slot.unappliedIn, if_neg hids.fresh]
      rfl
    · rintro op pc id ⟨⟩ ⟨⟩
    · rintro op id ⟨⟩
      exact hids.fresh
  | acknowledge i op id hold hres hwal hslots hshards hret =>
    rw [hwal, hslots] at hown
    rw [hwal, hslots, hshards, hret]
    have hid := hids.acknowledged id hres
    refine h.update hown List.prefix_rfl ?_ ?_ ?_
    · rw [hold, Slot.unappliedIn, Slot.unappliedIn, if_pos hid]
    · rintro op pc id ⟨⟩ ⟨⟩
      obtain ⟨r,hr,rfl⟩ := List.mem_map.mp hid
      exact ⟨hres, r, hr, rfl, h.written r hr i _ hold⟩
    · rintro op id ⟨⟩
  | rethrow i op id e hold hres hwal hslots hshards hret =>
    rw [hwal, hslots] at hown
    rw [hwal, hslots, hshards, hret]
    refine h.update hown List.prefix_rfl ?_ ?_ ?_
    · rw [hold, Slot.unappliedIn_of_not_writer rfl, Slot.unappliedIn,
        if_neg (hids.refused id e hres)]
    · rintro op pc id ⟨⟩
    · rintro op id ⟨⟩
  | mutate i op id erased hold hwal hslots hshards hret =>
    rw [hwal, hslots] at hown
    rw [hwal, hslots, hshards, hret]
    exact h.mutate hold hown
  | proceed i op pc pc' id hold hpc hpc' hne hne' hwal hslots hshards hret =>
    rw [hwal, hslots] at hown
    rw [hwal, hslots, hshards, hret]
    refine h.update hown List.prefix_rfl ?_ ?_ ?_
    · rw [hold, Slot.unappliedIn_of_acked hpc hne, Slot.unappliedIn_of_acked hpc' hne']
    · rintro op pc id' ⟨⟩ hid
      rw [hpc', Option.some.injEq] at hid
      subst hid
      exact h.acked i _ _ _ hold hpc
    · rintro op id' ⟨⟩
      cases hpc'
  | ret i op pc id erased hold hpc hne hwal hslots hshards hret =>
    rw [hwal, hslots] at hown
    rw [hwal, hslots, hshards, hret]
    have hupd : ShardInv hash m log s.wal (Function.update s.slots i (.readers [])) s.shards
        s.returned := by
      refine h.update hown List.prefix_rfl ?_ ?_ ?_
      · rw [hold, Slot.unappliedIn_of_acked hpc hne]
        rfl
      · rintro op pc id ⟨⟩
      · rintro op id ⟨⟩
    refine { hupd with returned := ?_ }
    intro c hc
    rcases List.mem_append.mp hc with hc | hc
    · exact h.returned c hc
    · obtain rfl := List.mem_singleton.mp hc
      exact h.acked i op pc id hold hpc
  | wal lab w hl hlab hwal hslots hshards hret =>
    rw [hslots] at hown
    rw [hslots, hshards, hret]
    simpa using h.grow hown (WalThreads.step_results hwal) (List.forall_mem_nil _)

/-- One step of the store. -/
theorem step {l : Label} {new : List Request}
    (h : ShardInv hash m log s.wal s.slots s.shards s.returned) (hids : LogIds log s.wal)
    (heff : KVStore.Effect host hash s t l) (hout : ∀ r ∈ new, r ∈ s.wal.outstanding)
    (hnew : new = [] ∨ (t.slots = s.slots ∧ t.shards = s.shards ∧ t.returned = s.returned)) :
    ShardInv hash m (log ++ new) t.wal t.slots t.shards t.returned := by
  rcases hnew with rfl | ⟨hslots,hshards,hret⟩
  · rw [List.append_nil]
    exact h.keep hids heff
  · have hown := h.own.step heff
    rw [hslots] at hown
    rw [hslots, hshards, hret]
    exact h.grow hown heff.results hout

/-- A key whose shard no call has locked. -/
theorem lookup (h : ShardInv hash m log wal slots shards returned) {k : Bytes}
    (hfree : (slots (shardIndex hash k)).isWriter = false) :
    (shards (shardIndex hash k)).lookup k = (applyOps (log.map Request.op) m).lookup k := by
  rw [← h.agree k, Slot.unappliedIn_of_not_writer hfree, applyOps_nil]

/-- The whole map, when no call is between its lock and its return. -/
theorem collect_eq (h : ShardInv hash m log wal slots shards returned)
    (hfree : ∀ i, (slots i).isWriter = false) :
    collect shards = applyOps (log.map Request.op) m :=
  Sharding.collect_eq h.separated fun _ => h.lookup (hfree _)

end ShardInv

end ConcurrentKV
