import ConcurrentKV.FrozenLog

/-! Sessions one after the other, with appends that fail behind their write. A snapshot behind
such a frame leaves it out for good, unless a compaction is interrupted between its rename and
its truncation. -/
namespace ConcurrentKV
open ByteCodec OpLog Sharding Transition

/-- Sessions on the same files, one after the other, each ended by a crash or by closing the
store; `issued` are the operations their clients issued. When `guarded`, an exposed compaction
over a log with a failed append is neither interrupted nor crashes. -/
inductive Sessions (host : ByteOrder) (hash : Bytes → ℕ) (guarded : Prop) :
    Disk → Bool → List WalRecord → Disk → Bool → Prop where
  | refl (disk : Disk) (stale : Bool) : Sessions host hash guarded disk stale [] disk stale
  | restart {disk disk' disk'' : Disk} {stale stale' : Bool} {issued : List WalRecord}
      (h : Sessions host hash guarded disk stale issued disk' stale') (policy : DurabilityPolicy)
      (maxBatch : ℕ) {s : KVStore} (hopen : openStore host hash disk' policy maxBatch = .ok s)
      (labels : List Label) {t : History}
      (hrun : run (History.step host hash) ⟨s,stale'⟩ labels = some t)
      (hlate : Along (History.step host hash) (fun h l => h.failsLate l = true) ⟨s,stale'⟩ labels)
      (hcalm : guarded → Along (History.step host hash) (History.calm host) ⟨s,stale'⟩ labels ∧
        (t.stale = true → t.store.exposed = false))
      (hcrash : t.store.Crash disk'') :
      Sessions host hash guarded disk stale (issued ++ labels.flatMap Label.issues) disk'' t.stale

variable {host : ByteOrder} {hash : Bytes → ℕ} {m : Store} {s t : KVStore} {h h' : History}
  {issued : List WalRecord} {disk disk' : Disk} {l : Label}

/-- A session is in one of the two modes. -/
def Ongoing (host : ByteOrder) (hash : Bytes → ℕ) (issued : List WalRecord) (m : Store)
    (h : History) : Prop :=
  Traced hash issued m h.store ∧
    ((∃ base before settled, Holding host hash m h.store base before settled (h.stale = false)) ∨
      ∃ ops, Frozen host issued m h ops)

theorem Ongoing.step (ho : Ongoing host hash issued m h) (hlate : h.failsLate l = true)
    (hcalm : h.calm host l) (hstep : h.step host hash l = some h') :
    Ongoing host hash (issued ++ l.issues) m h' := by
  obtain ⟨hs,hmode⟩ := ho
  refine ⟨?_, ?_⟩
  · obtain ⟨t,ht,rfl⟩ := Option.map_eq_some_iff.mp hstep
    exact hs.step ht
  · rcases hmode with ⟨base,before,settled,hh⟩ | ⟨ops,hf⟩
    · exact hh.next hs hlate hcalm hstep
    · exact .inr (hf.step hs hlate hcalm hstep)

theorem Ongoing.run {labels : List Label} (ho : Ongoing host hash issued m h)
    (hlate : Along (History.step host hash) (fun h l => h.failsLate l = true) h labels)
    (hcalm : Along (History.step host hash) (History.calm host) h labels)
    (hrun : Transition.run (History.step host hash) h labels = some h') :
    Ongoing host hash (issued ++ labels.flatMap Label.issues) m h' := by
  induction labels generalizing h issued with
  | nil =>
    obtain rfl := Option.some.inj hrun
    simpa using ho
  | cons l labels ih =>
    obtain ⟨u,hu,hrun⟩ := run_cons_eq_some.mp hrun
    rw [List.flatMap_cons, ← List.append_assoc]
    exact ih (ho.step hlate.1 hcalm.1 hu) (hlate.2 u hu) (hcalm.2 u hu) hrun

theorem Ongoing.crash (ho : Ongoing host hash issued m h) (hcrash : h.store.Crash disk)
    (hcalm : h.stale = true → h.store.exposed = false) :
    ∃ m', DiskHolds host disk m' (h.stale = false) ∧ ChangedBy issued m m' := by
  obtain ⟨hs,⟨base,before,settled,hh⟩ | ⟨ops,hf⟩⟩ := ho
  · obtain ⟨extra,hextra,hdisk⟩ := hh.crash hcrash fun call hadmin hexp => by
      rw [← Bool.not_eq_true]
      intro hstale
      have hno := hcalm hstale
      rw [KVStore.exposed, hadmin] at hno
      rw [show call.exposed = false from hno] at hexp
      cases hexp
    refine ⟨_, hdisk, changedBy_applyOps ?_ m⟩
    intro op hop
    obtain ⟨r,hr,rfl⟩ := List.mem_map.mp hop
    rcases List.mem_append.mp hr with hr | hr
    · refine hs.issued.history r ?_
      rw [hh.ground.history_eq]
      exact List.mem_append_left _ hr
    · exact hs.issued.slots _ _ _ (hs.contained.shards.own.owner r (hextra r hr))
  · exact hf.crash hs.contained.path hcrash hcalm

theorem DiskHolds.ongoing {stale : Bool} (hd : DiskHolds host disk m (stale = false))
    {policy : DurabilityPolicy} {maxBatch : ℕ}
    (hopen : openStore host hash disk policy maxBatch = .ok s) :
    s.collectData = m ∧ Ongoing host hash [] m ⟨s,stale⟩ := by
  have hfail : s.wal.wal.failure = none := by
    obtain ⟨wal,m,hwal,rfl⟩ := openStore_eq hopen
    exact (openWal_fields hwal).2.2.2
  obtain ⟨wal,ops,hopen',-,hh⟩ := hd.opens hash policy (openStore_maxBatch hopen)
  rw [hopen] at hopen'
  obtain rfl := Except.ok.inj hopen'
  exact ⟨KVStore.collectData_start .., ⟨Contained.start hfail m _ _, Issued.start wal m _ _,
    WalThreads.sized_start wal, hd.fit⟩, .inl ⟨wal, ops, [], hh⟩⟩

/-- From one startup to a later one every key keeps its value or takes that of an operation
issued in between. -/
theorem Sessions.changedBy {stale stale' : Bool}
    (hsess : Sessions host hash True disk stale issued disk' stale')
    (hd : DiskHolds host disk m (stale = false)) :
    ∃ m', DiskHolds host disk' m' (stale' = false) ∧ ChangedBy issued m m' := by
  induction hsess with
  | refl => exact ⟨m, hd, .refl _ m⟩
  | restart _ policy maxBatch hopen labels hrun hlate hcalm hcrash ih =>
    obtain ⟨m',hd',hch⟩ := ih hd
    obtain ⟨hsteps,hend⟩ := hcalm trivial
    obtain ⟨-,hstart⟩ := hd'.ongoing hopen
    obtain ⟨m'',hd'',hch'⟩ := (hstart.run hlate hsteps hrun).crash hcrash hend
    refine ⟨m'', hd'', ?_⟩
    rw [List.nil_append] at hch'
    exact (hch.mono fun op hop => List.mem_append_left _ hop).trans
      (hch'.mono fun op hop => List.mem_append_right _ hop)

/-- A record that a startup has left out does not come back, unless a client issues its
operation again. -/
theorem failed_record_stays_out {first disk disk' : Disk} {stale stale' : Bool}
    {earlier issued : List WalRecord} (hfirst : CrashReachable host hash first)
    (hearlier : Sessions host hash True first false earlier disk stale)
    (hlater : Sessions host hash True disk stale issued disk' stale')
    {policy policy' : DurabilityPolicy} {maxBatch maxBatch' : ℕ}
    (hopen : openStore host hash disk policy maxBatch = .ok s)
    (hopen' : openStore host hash disk' policy' maxBatch' = .ok t) {op : WalRecord}
    (hout : ¬Reflects s.collectData op) (hback : Reflects t.collectData op) : op ∈ issued := by
  obtain ⟨m₀,hm₀⟩ := hfirst.holds
  obtain ⟨m,hd,-⟩ := hearlier.changedBy (hm₀.mono fun _ => trivial)
  obtain ⟨m',hd',hch⟩ := hlater.changedBy hd
  obtain ⟨rfl,-⟩ := hd.ongoing hopen
  obtain ⟨rfl,-⟩ := hd'.ongoing hopen'
  exact hch.mem_of_reflects hout hback

/-! ### An interrupted compaction -/

/-- A `Set` whose frame is written, synced by nobody, and whose append fails. -/
def failedSet : List Label := [.call (.set [1] [2]), .lockShard (.set [1] [2]), .caller 0,
  .wal (.submit 0), .wal .writeHeader, .wal .writeFrames, .wal (.fail 0 .faultHook), .caller 0]

/-- A call that locks all shards of an empty store, copies it and renames the copy. -/
def publishEmpty (kind : AdminKind) : List Label :=
  .enter kind :: List.replicate 66 .admin ++ [.writeTemp [], .admin, .admin]

/-- The same `Set` once more, in a later session. -/
def setAgain : List Label := [.call (.set [1] [2]), .lockShard (.set [1] [2]), .caller 0,
  .wal (.submit 0), .wal .writeHeader, .wal .writeFrames, .wal .sync, .wal .finish]

/-- The log with that frame, and an empty snapshot at `walOffset`. -/
def staleDisk (walOffset : ℕ) : Disk :=
  ⟨makeHeader 1 ++ frameBytes .little true 1 (.set [1] [2]),
    some (snapshotBytes .little [] walOffset), none⟩

/-- A session that fails the `Set` and saves a snapshot behind it. -/
theorem sessions_failedSet (guarded : Prop) : Sessions .little (fun _ => 0) guarded
    ⟨[], none, none⟩ false [.set [1] [2]] (staleDisk 51) true := by
  have hopen : openStore .little (fun _ => 0) ⟨[], none, none⟩ .sync 1 = .ok (KVStore.start
      (fun _ => 0) { file := [], policy := .sync, maxBatch := 1, headerPending := true } ∅ none
      none) := rfl
  have hrun : (run (History.step .little (fun _ => 0)) ⟨KVStore.start (fun _ => 0)
      { file := [], policy := .sync, maxBatch := 1, headerPending := true } ∅ none none, false⟩
      (failedSet ++ publishEmpty .saveSnapshot)).map (fun t =>
        ((⟨t.store.wal.wal.file, t.store.snapshot, none⟩ : Disk), t.stale, t.store.exposed)) =
      some (staleDisk 51, true, false) := by decide +kernel
  obtain ⟨⟨t,stale⟩,ht,he⟩ := Option.map_eq_some_iff.mp hrun
  simp only [Prod.mk.injEq] at he
  obtain ⟨hdisk,rfl,hexp⟩ := he
  refine .restart (.refl ..) .sync 1 hopen _ ht (by decide +kernel)
    (fun _ => ⟨by decide +kernel, fun _ => hexp⟩) ?_
  rw [← hdisk]
  exact ⟨⟨⟨0, by simp⟩,
    (congrArg (fun d : Disk => d.wal.length) hdisk).trans_le (by decide +kernel)⟩, rfl⟩

/-- The failed `Set` is left out by the next startup and is back after a compaction that
crashes behind its rename. -/
theorem failed_record_comes_back :
    ∃ (disk disk' : Disk) (s t : KVStore),
      Sessions .little (fun _ => 0) False ⟨[], none, none⟩ false [.set [1] [2]] disk true ∧
      openStore .little (fun _ => 0) disk .sync 1 = .ok s ∧
      ¬Reflects s.collectData (.set [1] [2]) ∧
      Sessions .little (fun _ => 0) False disk true [] disk' true ∧
      openStore .little (fun _ => 0) disk' .sync 1 = .ok t ∧
      Reflects t.collectData (.set [1] [2]) := by
  have hsecond : ((openStore .little (fun _ => 0) (staleDisk 51) .sync 1).toOption.bind fun s =>
      (run (History.step .little (fun _ => 0)) ⟨s,true⟩ (publishEmpty .compactPersistence)).map
        fun t => ((⟨t.store.wal.wal.file, t.store.snapshot, none⟩ : Disk), t.stale,
          s.collectData.lookup [1],
          decide (Along (History.step .little (fun _ => 0)) (fun h l => h.failsLate l = true)
            ⟨s,true⟩ (publishEmpty .compactPersistence)))) =
      some (staleDisk 0, true, none, true) := by decide +kernel
  have hthird : (openStore .little (fun _ => 0) (staleDisk 0) .sync 1).toOption.map
      (fun t => t.collectData.lookup [1]) = some (some [2]) := by decide +kernel
  obtain ⟨s,hs,hsecond⟩ := Option.bind_eq_some_iff.mp hsecond
  obtain ⟨⟨u,stale⟩,hu,he⟩ := Option.map_eq_some_iff.mp hsecond
  simp only [Prod.mk.injEq] at he
  obtain ⟨hdisk,rfl,hnone,hlate⟩ := he
  obtain ⟨t,ht,hsome⟩ := Option.map_eq_some_iff.mp hthird
  refine ⟨staleDisk 51, staleDisk 0, s, t, sessions_failedSet False, eq_ok_of_toOption hs, ?_, ?_,
    eq_ok_of_toOption ht, hsome⟩
  · intro hr
    rw [Reflects, show (Op.set [1] [2] : WalRecord).key = [1] from rfl, hnone] at hr
    cases hr
  · refine .restart (.refl ..) .sync 1 (eq_ok_of_toOption hs) _ hu (of_decide_eq_true hlate)
      False.elim ?_
    rw [← hdisk]
    exact ⟨⟨⟨0, by simp⟩, (congrArg (fun d : Disk => d.wal.length) hdisk).trans_le
      (by decide +kernel)⟩, rfl⟩

/-- After the failed `Set` is left out, a client issues it again and it is acknowledged. -/
theorem failed_record_issued_again : ∃ (disk disk' : Disk) (s t : KVStore),
    Sessions .little (fun _ => 0) True ⟨[], none, none⟩ false [.set [1] [2]] disk true ∧
    Sessions .little (fun _ => 0) True disk true [.set [1] [2]] disk' true ∧
    openStore .little (fun _ => 0) disk .sync 1 = .ok s ∧
    openStore .little (fun _ => 0) disk' .sync 1 = .ok t ∧
    ¬Reflects s.collectData (.set [1] [2]) ∧ Reflects t.collectData (.set [1] [2]) ∧
    (.set [1] [2] : WalRecord) ∈ [(.set [1] [2] : WalRecord)] := by
  have hsecond : ((openStore .little (fun _ => 0) (staleDisk 51) .sync 1).toOption.any fun s =>
      (run (History.step .little (fun _ => 0)) ⟨s,true⟩ setAgain).any fun t =>
        (openStore .little (fun _ => 0) ⟨t.store.wal.wal.file, t.store.snapshot, none⟩ .sync
          1).toOption.any fun u => t.stale = true ∧ t.store.exposed = false ∧
            t.store.wal.wal.file.length = 78 ∧ s.collectData.lookup [1] = none ∧
            u.collectData.lookup [1] = some [2] ∧
            Along (History.step .little (fun _ => 0)) (fun h l => h.failsLate l = true) ⟨s,true⟩
              setAgain ∧
            Along (History.step .little (fun _ => 0)) (History.calm .little) ⟨s,true⟩ setAgain) =
      true := by decide +kernel
  obtain ⟨s,hs,hsecond⟩ := (Option.any_eq_true _ _).mp hsecond
  obtain ⟨⟨t,stale⟩,ht,hsecond⟩ := (Option.any_eq_true _ _).mp hsecond
  obtain ⟨u,hu,he⟩ := (Option.any_eq_true _ _).mp hsecond
  obtain ⟨rfl,hexp,hlen,hnone,hsome,hlate,hcalm⟩ := of_decide_eq_true he
  have hlater : Sessions .little (fun _ => 0) True (staleDisk 51) true [.set [1] [2]]
      ⟨t.wal.wal.file, t.snapshot, none⟩ true :=
    .restart (.refl ..) .sync 1 (eq_ok_of_toOption hs) setAgain ht hlate
      (fun _ => ⟨hcalm, fun _ => hexp⟩)
      ⟨⟨⟨0, by simp⟩, hlen.trans_le (by decide)⟩, rfl⟩
  have hout : ¬Reflects s.collectData (.set [1] [2]) := by
    intro hr
    rw [Reflects, show (Op.set [1] [2] : WalRecord).key = [1] from rfl, hnone] at hr
    cases hr
  exact ⟨_, _, s, u, sessions_failedSet True, hlater, eq_ok_of_toOption hs, eq_ok_of_toOption hu,
    hout, hsome,
    failed_record_stays_out (.empty none none (.inl rfl)) (sessions_failedSet True) hlater
      (eq_ok_of_toOption hs) (eq_ok_of_toOption hu) hout hsome⟩

end ConcurrentKV
