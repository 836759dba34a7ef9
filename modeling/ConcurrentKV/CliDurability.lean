import ConcurrentKV.CliDialogue
import ConcurrentKV.CrashRecovery
import ConcurrentKV.KVFailure

/-! The process dies and is started again. Its user finds the map of the dialogue, up to the one
command that was not answered yet. -/
namespace ConcurrentKV
open ByteCodec OpLog Sharding Transition

variable {host : ByteOrder} {hash : Bytes → ℕ} {version : Bytes} {talk : Talk} {p q : Program}
  {disk disk' : Disk}

def ProgramLabel.failsAppend : ProgramLabel → Bool
  | .store (.wal (.fail _ _)) => true
  | _ => false

/-- Every append succeeds, and nobody asks to clear the persistence. -/
def Program.keeps (p : Program) (l : ProgramLabel) : Prop :=
  p.pc ≠ .entering .clearPersistence ∧ l.failsAppend = false

instance (p : Program) (l : ProgramLabel) : Decidable (p.keeps l) :=
  inferInstanceAs (Decidable (_ ∧ _))

/-! ### The store of the process -/

/-- The steps of the store that the thread of `main` makes. -/
def Label.isServer : Label → Bool
  | .call _ | .lockShard _ | .caller _ | .lockShared _ | .get _ _ | .enter _ | .admin => true
  | _ => false

/-- A step of the process is a step of its store, or leaves the store alone. -/
theorem Program.step_label {l : ProgramLabel} (h : p.step host hash version l = some q) :
    q.store = p.store ∨ ∃ k, p.store.step host hash k = some q.store ∧
      (l = .store k ∧ p.allows k = true ∨
        k.isServer = true ∧ ∀ kind, k = .enter kind → p.pc = .entering kind) := by
  cases l with
  | store k =>
    simp only [Program.step] at h
    split at h
    · rename_i hallows
      obtain ⟨s,hs,rfl⟩ := Option.map_eq_some_iff.mp h
      exact .inr ⟨k, hs, .inl ⟨rfl, hallows⟩⟩
    · cases h
  | server detail =>
    -- the call made at each place
    change p.serverStep host hash version detail = some q at h
    unfold Program.serverStep at h
    split at h <;> rename_i hpc
    · obtain rfl := Option.some.inj h
      exact .inl rfl
    · split at h
      · obtain rfl := Option.some.inj h
        exact .inl rfl
      · obtain ⟨command,-,rfl⟩ := Option.map_eq_some_iff.mp h
        exact .inl (Program.execute_store ..)
    · split at h
      · obtain rfl := Option.some.inj h
        exact .inl rfl
      · obtain ⟨s,hs,rfl⟩ := Option.map_eq_some_iff.mp h
        exact .inr ⟨_, hs, .inr ⟨rfl, by simp⟩⟩
    · obtain ⟨s,hs,rfl⟩ := Option.map_eq_some_iff.mp h
      exact .inr ⟨_, hs, .inr ⟨rfl, by simp⟩⟩
    · obtain ⟨s,hs,rfl⟩ := Option.map_eq_some_iff.mp h
      exact .inr ⟨_, by rw [hs, Program.written_store], .inr ⟨rfl, by simp⟩⟩
    · obtain ⟨s,hs,rfl⟩ := Option.map_eq_some_iff.mp h
      exact .inr ⟨_, hs, .inr ⟨rfl, by simp⟩⟩
    · obtain ⟨s,hs,rfl⟩ := Option.map_eq_some_iff.mp h
      exact .inr ⟨_, hs, .inr ⟨rfl, by simp⟩⟩
    · obtain ⟨s,hs,rfl⟩ := Option.map_eq_some_iff.mp h
      refine .inr ⟨_, hs, .inr ⟨rfl, ?_⟩⟩
      intro kind hk
      rw [← Label.enter.inj hk]
      exact hpc
    · obtain ⟨s,hs,rfl⟩ := Option.map_eq_some_iff.mp h
      exact .inr ⟨_, by rw [hs, Program.administered_store], .inr ⟨rfl, by simp⟩⟩
    · split at h
      · obtain rfl := Option.some.inj h
        exact .inl rfl
      · cases h
    · cases h

theorem Program.step_store {l : ProgramLabel} (h : p.step host hash version l = some q) :
    q.store = p.store ∨ ∃ k, p.store.step host hash k = some q.store ∧
      (p.keeps l → k.recoverable = true) := by
  rcases Program.step_label h with hsame | ⟨k,hk,hfrom⟩
  · exact .inl hsame
  refine .inr ⟨k, hk, ?_⟩
  intro hkeeps
  rcases hfrom with ⟨rfl,hallows⟩ | ⟨hserver,henter⟩
  · have hfail := hkeeps.2
    cases k with
    | wal w =>
      cases w with
      | fail n e => cases hfail
      | submit | writeHeader | writeFrames | finish => rfl
      | _ => cases hallows
    | enter => cases hallows
    | _ => rfl
  · cases k with
    | enter kind =>
      cases kind with
      | clearPersistence => exact absurd (henter _ rfl) hkeeps.1
      | _ => rfl
    | wal => cases hserver
    | _ => rfl

/-- A run of the process is a run of its store. -/
theorem Program.run_store {ls : List ProgramLabel}
    (hls : Along (Program.step host hash version) Program.keeps p ls)
    (hrun : run (Program.step host hash version) p ls = some q) :
    ∃ labels : List Label, (∀ k ∈ labels, k.recoverable = true) ∧
      run (KVStore.step host hash) p.store labels = some q.store := by
  refine run_along (P := fun q => ∃ labels : List Label, (∀ k ∈ labels, k.recoverable = true) ∧
    run (KVStore.step host hash) p.store labels = some q.store) ?_ hls hrun ⟨[], by simp, rfl⟩
  intro q l r hkeeps hq hstep
  obtain ⟨labels,hlabels,hreach⟩ := hq
  rcases Program.step_store hstep with hsame | ⟨k,hk,hrec⟩
  · exact ⟨labels, hlabels, by rw [hsame, hreach]⟩
  · refine ⟨labels ++ [k], ?_, ?_⟩
    · intro k' hk'
      rcases List.mem_append.mp hk' with hk' | hk'
      · exact hlabels k' hk'
      · rw [List.mem_singleton.mp hk']
        exact hrec hkeeps
    · rw [run_append, hreach]
      simp [run_cons, hk]

/-! ### The log and the dialogue -/

/-- One operation, applied any number of times. -/
theorem applyOps_same {op : WalRecord} {ops : List WalRecord} (h : ∀ x ∈ ops, x = op) (m : Store) :
    applyOps ops m = m ∨ applyOps ops m = applyOp op m := by
  rw [List.eq_replicate_of_mem h]
  cases ops.length with
  | zero => exact .inl rfl
  | succ n =>
    right
    induction n with
    | zero => rfl
    | succ n ih =>
      have hfixed : applyOps [op] (applyOp op m) = applyOp op m := fixed_applyOps [op] m
      rw [List.replicate_succ', applyOps_append, ih, hfixed]

/-- The acknowledged operations give the map of the dialogue, with the record of the call that has
its shard locked if that is not in the map yet. -/
theorem Serving.acked_eq {m : Store} {op : WalRecord} {pc : WritePc} (h : Serving hash talk p)
    (hc : Contained hash m p.store) (hpc : p.pc = .writing op)
    (hslot : p.store.slots (shardIndex hash op.key) = .writer ⟨op,pc⟩) {m' : Store}
    (hshards : p.store.shards = split (shardIndex hash) m') :
    applyOps (p.store.wal.acked.map Request.op) m =
      applyOps ((Slot.writer ⟨op,pc⟩).unappliedIn p.store.wal.acked) m' := by
  have htends := h.tends
  unfold Tends at htends
  rw [hpc] at htends
  apply Finmap.ext_lookup
  intro k
  rw [← hc.shards.agree k, hshards]
  by_cases hk : shardIndex hash k = shardIndex hash op.key
  · -- both sides apply the same operations to the entry of `k`
    rw [hk, hslot, ← hk, lookup_applyOps, lookup_applyOps, lookup_split]
  · -- no operation of the other shard is about `k`
    have hne : ∀ x ∈ (Slot.writer ⟨op,pc⟩).unappliedIn p.store.wal.acked, x.key ≠ k := by
      intro x hx hxk
      have hop : x = op := by
        unfold Slot.unappliedIn at hx
        split at hx <;> simp_all
      exact hk (by rw [← hxk, hop])
    have hrest : (p.store.slots (shardIndex hash k)).isWriter = false := by
      have hfree := htends.1 _ hk
      cases hs : p.store.slots (shardIndex hash k) with
      | writer call =>
        rw [hs] at hfree
        cases hfree
      | readers | admin => rfl
    rw [Slot.unappliedIn_of_not_writer hrest, applyOps_nil, lookup_split, lookup_applyOps,
      (lastEffect_eq_none_iff k _).mpr hne]
    rfl

/-- No append is outstanding unless the thread waits for it. -/
theorem Serving.outstanding_op {m : Store} (h : Serving hash talk p)
    (hc : Contained hash m p.store) {r : Request} (hr : r ∈ p.store.wal.outstanding) :
    p.pc = .writing r.op ∧
      p.store.slots (shardIndex hash r.op.key) = .writer ⟨r.op, .appending r.id⟩ := by
  have howner := hc.shards.own.owner r hr
  refine ⟨?_, howner⟩
  have htends := h.tends
  unfold Tends at htends
  split at htends
  · rename_i op hpc
    obtain ⟨hothers,pc,hslot,-⟩ := htends
    by_cases hi : shardIndex hash r.op.key = shardIndex hash op.key
    · rw [hi, hslot] at howner
      cases howner
      exact hpc
    · have hrest := hothers _ hi
      rw [howner] at hrest
      cases hrest
  · obtain ⟨hothers,hslot,-⟩ := htends
    rename_i key hpc
    by_cases hi : shardIndex hash r.op.key = shardIndex hash key
    · rw [hi, hslot] at howner
      cases howner
    · have hrest := hothers _ hi
      rw [howner] at hrest
      cases hrest
  · have hrest := htends.1 (shardIndex hash r.op.key)
    rw [howner] at hrest
    cases hrest

/-- Between the calls that write, no lock is with a writer. -/
theorem Serving.settled {m : Store} (h : Serving hash talk p) (hc : Contained hash m p.store)
    (hpc : ∀ op, p.pc ≠ .writing op) :
    applyOps (p.store.wal.acked.map Request.op) m = talk.map := by
  have htends := h.tends
  unfold Tends at htends
  have hfree : (∀ i, (p.store.slots i).isWriter = false) ∧
      p.store.shards = split (shardIndex hash) talk.map := by
    have hrest {slot : Slot} (hs : slot.rests = true) : slot.isWriter = false := by
      cases slot with
      | writer => cases hs
      | readers | admin => rfl
    split at htends
    · exact absurd ‹_› (hpc _)
    · rename_i key _
      obtain ⟨hothers,hslot,hshards⟩ := htends
      refine ⟨?_, hshards⟩
      intro i
      by_cases hi : i = shardIndex hash key
      · rw [hi, hslot]
        rfl
      · exact hrest (hothers i hi)
    · exact ⟨fun i => hrest (htends.1 i), htends.2⟩
  rw [← hc.shards.collect_eq hfree.1, hfree.2, collect_split]

/-- What the files of the session hold is the map of the dialogue, or the map behind the one
command that is not answered. -/
theorem Serving.holds {m : Store} (h : Serving hash talk p) (hc : Contained hash m p.store)
    {inFlight : List Request} (hout : ∀ r ∈ inFlight, r ∈ p.store.wal.outstanding) :
    applyOps (inFlight.map Request.op) (applyOps (p.store.wal.acked.map Request.op) m) = talk.map ∨
    ∃ op, p.pc = .writing op ∧ applyOps (inFlight.map Request.op)
      (applyOps (p.store.wal.acked.map Request.op) m) = applyOp op talk.map := by
  by_cases hpc : ∃ op, p.pc = .writing op
  · obtain ⟨op,hpc⟩ := hpc
    have hsame : ∀ x ∈ inFlight.map Request.op, x = op := by
      intro x hx
      obtain ⟨r,hr,rfl⟩ := List.mem_map.mp hx
      have hat := (h.outstanding_op hc (hout r hr)).1
      rw [hpc] at hat
      exact (ServerPc.writing.inj hat).symm
    have hacked : applyOps (p.store.wal.acked.map Request.op) m = talk.map ∨
        applyOps (p.store.wal.acked.map Request.op) m = applyOp op talk.map := by
      have htends := h.tends
      unfold Tends at htends
      rw [hpc] at htends
      obtain ⟨-,pc,hslot,hmap⟩ := htends
      cases hfound : pc.found with
      | none =>
        rw [hfound] at hmap
        rw [h.acked_eq hc hpc hslot hmap]
        apply applyOps_same
        intro x hx
        unfold Slot.unappliedIn at hx
        split at hx <;> simp_all
      | some erased =>
        rw [hfound] at hmap
        right
        rw [h.acked_eq hc hpc hslot hmap.1]
        cases pc with
        | locked | appending | appended => cases hfound
        | mutated | counted | scheduled => rfl
    -- the record may be there twice, once acknowledged and once in flight
    have hfixed : applyOp op (applyOp op talk.map) = applyOp op talk.map := fixed_applyOps [op] _
    rcases applyOps_same hsame (applyOps (p.store.wal.acked.map Request.op) m) with hf | hf <;>
      rcases hacked with ha | ha <;> rw [hf, ha]
    · exact .inl rfl
    · exact .inr ⟨op, hpc, rfl⟩
    · exact .inr ⟨op, hpc, rfl⟩
    · exact .inr ⟨op, hpc, hfixed⟩
  · have hnone : inFlight = [] := by
      apply List.eq_nil_iff_forall_not_mem.mpr
      intro r hr
      exact hpc ⟨r.op, (h.outstanding_op hc (hout r hr)).1⟩
    rw [hnone]
    exact .inl (h.settled hc fun op ho => hpc ⟨op, ho⟩)

/-! ### The next process -/

theorem main_of_openStore (version : Bytes) {s : KVStore}
    (h : openStore host hash disk .buffered 32 = .ok s)
    (input : Bytes) : ∃ p, main host hash version disk input = .ok p ∧ p.store = s := by
  unfold openStore startup at h
  unfold main
  cases hwal : openWal host disk.wal .buffered 32 with
  | error e => simp only [hwal, reduceCtorEq] at h
  | ok wal =>
    cases hload : loadSnapshot host disk.snapshot ∅ with
    | error e => simp only [hwal, hload, reduceCtorEq] at h
    | ok loaded =>
      obtain ⟨result,data⟩ := loaded
      cases hreplay : replayFromDetailed host wal.file result.walOffset data with
      | error e => simp only [hwal, hload, hreplay, reduceCtorEq] at h
      | ok replayed =>
        simp only [hwal, hload, hreplay, Except.ok.injEq] at h ⊢
        exact ⟨_, rfl, h⟩

/-- The process runs on the files of any number of processes that died before it, and it dies at
any point. In it, as in those before it, every append succeeds and nobody clears the persistence.
The next one starts, and it starts with the map of the dialogue so far; if the process died inside
a `SET` or `DEL`, that one command may have happened or not. -/
theorem restart_continues_the_dialogue {input : Bytes} {ls : List ProgramLabel}
    (hdisk : CrashReachable host hash disk) (hmain : main host hash version disk input = .ok p)
    (hls : Along (Program.step host hash version) Program.keeps p ls)
    (hrun : run (Program.step host hash version) p ls = some q) (hcrash : q.store.Crash disk')
    (input' : Bytes) :
    ∃ talk p', Dialogue version ⟨p.store.collectData, input, p.output⟩ talk ∧ Follows talk q ∧
      CrashReachable host hash disk' ∧ main host hash version disk' input' = .ok p' ∧
      (p'.store.collectData = talk.map ∨
        ∃ op, q.pc = .writing op ∧ p'.store.collectData = applyOp op talk.map) := by
  obtain ⟨talk,hdialogue,hserving⟩ := (serving_main hmain).run hrun
  obtain ⟨labels,hlabels,hreach⟩ := Program.run_store hls hrun
  obtain ⟨hopen,-,-,wal,m,hwal,hstore⟩ := main_eq hmain
  have hnext : CrashReachable host hash disk' :=
    .crash .buffered 32 labels hdisk hopen hlabels hreach hcrash
  -- the log holds the acknowledged operations, and the shards follow them
  have hcontained : Contained hash m q.store := by
    have hstart := @Contained.start hash wal (openWal_fields hwal).2.2.2 m disk.snapshot disk.temp
    rw [← hstore] at hstart
    exact hstart.run hreach
  obtain ⟨m',hm'⟩ := hdisk.holds
  obtain ⟨hdata,base,before,settled,hrec⟩ := hm'.reach hopen hlabels hreach
  have hmm : m' = m := by
    rw [← hdata, hstore]
    exact KVStore.collectData_start ..
  subst hmm
  obtain ⟨inFlight,hout,hok⟩ := hrec.crash_acked hcrash
  have hbatch : 1 ≤ 32 ∧ 32 ≤ 4096 := by decide
  obtain ⟨wal',ops,hopen',-⟩ := hok.opens hash .buffered hbatch
  obtain ⟨p',hp',hstore'⟩ := main_of_openStore version hopen' input'
  refine ⟨talk, p', hdialogue, hserving.follows, hnext, hp', ?_⟩
  rw [hstore', KVStore.collectData_start]
  exact hserving.holds hcontained hout

/-- A process that dies three bytes into the frame of its first `SET`. -/
theorem restart_after_torn_set :
    ∃ p q talk p',
      main .little (fun _ => 0) (ascii "1") ⟨[], none, none⟩ (ascii "SET a b\n") = .ok p ∧
      run (Program.step .little (fun _ => 0) (ascii "1")) p
        [.server [], .server [], .server [], .server [], .server [], .store (.wal (.submit 0)),
          .store (.wal .writeHeader)] = some q ∧ Follows talk q ∧
      main .little (fun _ => 0) (ascii "1")
        ⟨q.store.wal.wal.file ++ q.store.wal.inProgress.take 3, none, none⟩ [] = .ok p' ∧
      (p'.store.collectData = talk.map ∨
        ∃ op, q.pc = .writing op ∧ p'.store.collectData = applyOp op talk.map) := by
  have hall : ((main .little (fun _ => 0) (ascii "1") ⟨[], none, none⟩
      (ascii "SET a b\n")).toOption.bind fun p =>
        (run (Program.step .little (fun _ => 0) (ascii "1"))
        p [.server [], .server [], .server [], .server [], .server [], .store (.wal (.submit 0)),
          .store (.wal .writeHeader)]).map fun q =>
        ((q.store.wal.wal.file ++ q.store.wal.inProgress.take 3).length, q.store.snapshot,
          decide (Along (Program.step .little (fun _ => 0) (ascii "1")) Program.keeps p
            [.server [], .server [], .server [], .server [], .server [], .store (.wal (.submit 0)),
              .store (.wal .writeHeader)]))) = some (27, none, true) := by decide +kernel
  obtain ⟨p,hp,hall⟩ := Option.bind_eq_some_iff.mp hall
  obtain ⟨q,hq,he⟩ := Option.map_eq_some_iff.mp hall
  obtain ⟨hlen,he⟩ := Prod.mk.inj he
  obtain ⟨hsnap,hkeeps⟩ := Prod.mk.inj he
  have hp := eq_ok_of_toOption hp
  have hcrash : q.store.Crash
      ⟨q.store.wal.wal.file ++ q.store.wal.inProgress.take 3, none, none⟩ :=
    ⟨⟨⟨3,rfl⟩, hlen.trans_le (by decide)⟩, hsnap.symm⟩
  obtain ⟨talk,p',-,hfollows,-,hp',hmap⟩ := restart_continues_the_dialogue
    (.empty none none (.inl rfl)) hp (of_decide_eq_true hkeeps) hq hcrash []
  exact ⟨p, q, talk, p', hp, hq, hfollows, hp', hmap⟩

end ConcurrentKV
