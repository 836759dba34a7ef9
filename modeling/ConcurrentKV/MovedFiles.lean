import ConcurrentKV.CrashRecovery
import ConcurrentKV.KVRuns
import ConcurrentKV.SnapshotFormat

/-! Files that are taken from machine to machine. A log that was started by this version is read
alike in both byte orders. A snapshot is read only in the byte order in which it was written: in
the other one its magic is taken for the entry count of an older snapshot, and a file that is
not as large as that count asks for is refused. -/
namespace ConcurrentKV
open ByteCodec OpLog Sharding Transition

/-- What the magic of a snapshot reads as in the other byte order. -/
def kForeignMagic : ℕ := 0x4B565331

/-- The snapshot is too small for as many entries, each of which takes at least 8 bytes. -/
def Disk.SmallSnapshot (disk : Disk) : Prop :=
  ∀ bytes, disk.snapshot = some bytes → bytes.length < 4+8*kForeignMagic

/-- Without a snapshot, or with an empty one, startup reads the whole log. -/
def NoSnapshot (content : Option Bytes) : Prop := content = none ∨ content = some []

instance (content : Option Bytes) : Decidable (NoSnapshot content) :=
  inferInstanceAs (Decidable (_ ∨ _))

/-- The snapshot, if there is one, was written in the byte order of `host`. -/
def HomeSnapshot (host : ByteOrder) (content : Option Bytes) : Prop :=
  NoSnapshot content ∨ ∃ D W, Saved host content D W

variable {host host' : ByteOrder} {hash : Bytes → ℕ} {m : Store} {s t : KVStore}
  {base : WriteAheadLog} {before ops : List WalRecord} {settled : List Request} {disk disk' : Disk}
  {b bytes : Bytes} {entries : List (Bytes × Bytes)} {walOffset : ℕ}

/-! ### The log -/

theorem framesFrom_host (host host' : ByteOrder) (s : ℕ) (ops : List WalRecord) :
    framesFrom host true s ops = framesFrom host' true s ops := by
  induction ops generalizing s with
  | nil => rfl
  | cons op ops ih => exact congrArg (frameBytes host true s op ++ ·) (ih (s+1))

theorem NoFrame.move {n : ℕ} {tail : Bytes} (h : NoFrame host true n tail) :
    NoFrame host' true n tail := by
  intro op x hok hn
  exact h op x hok hn

/-- The v3 shapes are the same for every machine. -/
theorem FileShape.move (h : FileShape host b ops) (hb : magicPrefix b = true) (host' : ByteOrder) :
    FileShape host' b ops := by
  cases h with
  | empty => exact .empty
  | badHeader _ hne hm hh => exact .badHeader b hne hm hh
  | v3 g _ tail hg hg64 hok hn hstop =>
    rw [framesFrom_host host host']
    exact .v3 g ops tail hg hg64 hok hn hstop.move
  | v2 _ tail hm =>
    rw [hm] at hb
    cases hb

/-- From offset 0 replay applies every operation of the log. -/
theorem ReplaysTo.from_zero {D : Store} (h : ReplaysTo host b ops 0 D m)
    (hshape : FileShape host b ops) (hroom : b.length ≤ kMaxStreamoff) : applyOps ops D = m := by
  obtain ⟨j,hj,rfl⟩ := h
  obtain ⟨r,hr⟩ := hshape.replayFrom hj hroom D
  obtain ⟨r',hr'⟩ := hshape.replayFrom .start hroom D
  rw [hr] at hr'
  exact (congrArg Prod.snd (Except.ok.inj hr')).symm

theorem loadSnapshot_none (host : ByteOrder) {content : Option Bytes} (h : NoSnapshot content) :
    loadSnapshot host content ∅ = .ok ({}, ∅) := by
  rcases h with rfl | rfl
  · rfl
  · rfl

/-- Without a snapshot the files hold the same map for every machine. -/
theorem DiskHolds.move {fresh : Prop} (h : DiskHolds host disk m fresh)
    (hlog : magicPrefix disk.wal = true) (hsnap : NoSnapshot disk.snapshot) (host' : ByteOrder) :
    DiskHolds host' disk m fresh := by
  obtain ⟨hroom,hfit,ops,hshape,⟨result,D,hload,hto⟩,hfixed⟩ := h
  rw [loadSnapshot_none host hsnap] at hload
  obtain ⟨rfl,rfl⟩ := Prod.mk.inj (Except.ok.inj hload)
  refine ⟨hroom, hfit, ops, hshape.move hlog host', ?_, hfixed⟩
  exact ⟨{}, ∅, loadSnapshot_none host' hsnap, 0, .start, hto.from_zero hshape hroom⟩

/-- An object that does not write v2 frames has a v3 file, or an empty one. -/
theorem FieldsAgree.magicPrefix {wal : WriteAheadLog} (h : FieldsAgree host wal ops)
    (hv2 : wal.legacyV2 = false) : magicPrefix wal.file = true := by
  cases h with
  | fresh hfile =>
    rw [hfile]
    rfl
  | v3 _ _ hfile =>
    rw [hfile]
    exact magicPrefix_of_header (List.prefix_append _ _)
  | v2 _ _ _ _ hv =>
    rw [hv] at hv2
    cases hv2
  | badHeader _ hm => exact hm

/-- The constructor takes a file with the magic for a v3 log, whole or not. -/
theorem openWal_of_magic {policy : DurabilityPolicy} {maxBatch : ℕ} {wal : WriteAheadLog}
    (h : openWal host b policy maxBatch = .ok wal) (hb : magicPrefix b = true) :
    wal.legacyV2 = false := by
  simp only [openWal, hb, if_true] at h
  repeat' split at h
  all_goals cases h
  all_goals rfl

/-- Once it takes appends, the file starts with the whole header. -/
theorem WalInv.header_first {wal : WriteAheadLog} (h : WalInv host wal ops)
    (hv2 : wal.legacyV2 = false) (hadm : wal.appendCheck = .ok ()) (x : Bytes) :
    magicPrefix (wal.file ++ (wal.headerBytes ++ x)) = true := by
  obtain ⟨-,-,hfile⟩ := h.of_appendCheck hadm
  rw [← List.append_assoc, hfile, if_pos (by simp [WriteAheadLog.portable, hv2]), List.append_assoc]
  exact magicPrefix_of_header (List.prefix_append _ _)

/-- A crash leaves a file that starts like a v3 log. -/
theorem Ground.magicPrefix {w : WalThreads} (h : Ground host w base before settled)
    (hv2 : base.legacyV2 = false) (hb : w.CrashFile b) : magicPrefix b = true := by
  obtain ⟨⟨n,rfl⟩,-⟩ := hb
  have hpre : w.wal.file ++ w.inProgress.take n <+: w.wal.file ++ w.inProgress :=
    (List.prefix_append_right_inj _).mpr (List.take_prefix _ _)
  rcases h.span.2 with hsame | ⟨batch,-,hadm,-,-,hspan⟩
  · apply magicPrefix_of_isPrefix hpre
    rw [hsame]
    exact h.inv.agree.magicPrefix hv2
  · exact magicPrefix_of_isPrefix (hpre.trans hspan) (h.inv.header_first hv2 hadm _)

/-! ### The snapshot -/

theorem length_flatMap_entryBytes (host : ByteOrder) (entries : List (Bytes × Bytes)) :
    8*entries.length ≤ (entries.flatMap (entryBytes host)).length := by
  induction entries with
  | nil => exact Nat.zero_le _
  | cons entry entries ih =>
    rw [List.flatMap_cons, List.length_append, List.length_cons]
    simp only [entryBytes, List.length_append, length_encode]
    omega

theorem encode_foreign (hne : host' ≠ host) :
    encode host 4 kSnapshotMagic = encode host' 4 kForeignMagic := by
  cases host <;> cases host' <;> first | exact absurd rfl hne | decide

/-- A snapshot of the other byte order does not load. -/
theorem loadSnapshot_foreign (hne : host' ≠ host)
    (hlen : (snapshotBytes host entries walOffset).length < 4+8*kForeignMagic) (store : Store) :
    ∃ e, loadSnapshot host' (some (snapshotBytes host entries walOffset)) store = .error e := by
  have hlong : 4 ≤ (snapshotBytes host entries walOffset).length := by
    rw [snapshotBytes, List.length_append, length_encode]
    exact Nat.le_add_right _ _
  rcases loadSnapshot_of_long hlong store with he | ⟨entries',W,⟨hn,-,-,rest,hfile⟩,-⟩
  · exact he
  · exfalso
    have hmagic {v : ℕ} {x : Bytes} (hv : v < 2^32)
        (h : snapshotBytes host entries walOffset = encode host' 4 v ++ x) : kForeignMagic = v := by
      rw [snapshotBytes, encode_foreign hne] at h
      exact (encode_append_inj host' (by decide) (by simpa using hv) h).1
    rcases hfile with hfile | ⟨-,-,hfile⟩
    · rw [snapshotBytes.eq_def host', List.append_assoc] at hfile
      exact absurd (hmagic (by decide) hfile) (by decide)
    · have hcount := hmagic hn hfile
      have hall := length_flatMap_entryBytes host' entries'
      have hsize := congrArg List.length hfile
      simp only [List.length_append, length_encode] at hsize
      omega

/-! ### A session -/

/-- A save publishes what it has written; nothing else puts a file at the snapshot's path. -/
theorem Holding.home_step {fresh : Prop} (h : Holding host hash m s base before settled fresh)
    {l : Label} (hsteps : KVStore.Steps host hash s l t) (hs : HomeSnapshot host s.snapshot) :
    HomeSnapshot host t.snapshot := by
  cases hsteps with
  | rename kind data walOffset hadmin =>
    obtain ⟨-,-,-,hsaved⟩ := h.snap.busy _ _ hadmin
    exact .inr ⟨data, walOffset, hsaved⟩
  | removeSnapshot => exact .inl (.inl rfl)
  | _ => exact hs

/-- A session whose files can be taken to another machine. -/
structure Movable (host : ByteOrder) (hash : Bytes → ℕ) (m : Store) (s : KVStore)
    (base : WriteAheadLog) (before : List WalRecord) (settled : List Request) : Prop
    extends Holding host hash m s base before settled True where
  v3 : base.legacyV2 = false
  home : HomeSnapshot host s.snapshot

theorem Movable.step {l : Label} (h : Movable host hash m s base before settled)
    (hl : l.recoverable = true) (hsteps : KVStore.Steps host hash s l t) :
    ∃ base before settled, Movable host hash m t base before settled := by
  have hhome := h.home_step hsteps h.home
  rcases h.toHolding.step hl hsteps fun _ _ _ _ => trivial with
    ⟨-,ht⟩ | ⟨batch,n,-,-,-,-,ht⟩ | ⟨kind,wal,-,-,-,ht⟩
  · exact ⟨_, _, _, ht, h.v3, hhome⟩
  · exact ⟨_, _, _, ht, h.v3, hhome⟩
  · exact ⟨_, _, _, ht, rfl, hhome⟩

/-- Files that hold `m` for `host`, and that another machine reads alike or refuses. -/
structure MovableDisk (host : ByteOrder) (disk : Disk) (m : Store) : Prop where
  ok : DiskHolds host disk m True
  log : magicPrefix disk.wal = true
  home : HomeSnapshot host disk.snapshot
  small : disk.SmallSnapshot

namespace MovableDisk

/-- A startup that gets through has found files of its own byte order. -/
theorem startup_foreign (h : MovableDisk host disk m) (hne : host' ≠ host)
    (hsnap : ¬NoSnapshot disk.snapshot) (hash : Bytes → ℕ) (policy : DurabilityPolicy)
    {maxBatch : ℕ} (hbatch : 1 ≤ maxBatch ∧ maxBatch ≤ 4096) :
    ∃ e, openStore host' hash disk policy maxBatch = .error (.snapshot e) := by
  obtain ⟨hroom,-,ops,hshape,-,-⟩ := h.ok
  have hn : ops.length < kMaxUint64 := by
    have := hshape.length_le
    simp only [kMaxStreamoff, kMaxUint64] at hroom ⊢
    omega
  obtain ⟨wal,hopen,-⟩ := openWal_inv (hshape.move h.log host') policy hbatch fun _ => hn
  obtain hnone | ⟨D,W,entries,bytes,hcontent,-,hsave⟩ := h.home
  · exact absurd hnone hsnap
  have hlen := h.small bytes hcontent
  rw [(saveBytes_eq hsave).1] at hcontent hlen
  obtain ⟨e,he⟩ := loadSnapshot_foreign hne hlen ∅
  refine ⟨e, ?_⟩
  simp only [openStore, startup, hopen, hcontent, he]

theorem move (h : MovableDisk host disk m) (hsnap : NoSnapshot disk.snapshot) (host' : ByteOrder) :
    MovableDisk host' disk m :=
  ⟨h.ok.move h.log hsnap host', h.log, .inl hsnap, h.small⟩

/-- The machine on which the files open can be taken for the one that wrote them. -/
theorem of_open (h : MovableDisk host disk m) {policy : DurabilityPolicy} {maxBatch : ℕ}
    (hopen : openStore host' hash disk policy maxBatch = .ok s) : MovableDisk host' disk m := by
  by_cases hne : host' = host
  · rw [hne]
    exact h
  by_cases hsnap : NoSnapshot disk.snapshot
  · exact h.move hsnap host'
  · obtain ⟨e,he⟩ := h.startup_foreign hne hsnap hash policy (openStore_maxBatch hopen)
    rw [hopen] at he
    cases he

/-- From the start of a session to any of its states. -/
theorem reach (h : MovableDisk host disk m) {policy : DurabilityPolicy} {maxBatch : ℕ}
    (hopen : openStore host hash disk policy maxBatch = .ok s) {labels : List Label}
    (hlabels : ∀ l ∈ labels, l.recoverable = true)
    (hrun : run (KVStore.step host hash) s labels = some t) :
    s.collectData = m ∧ ∃ base before settled, Movable host hash m t base before settled := by
  obtain ⟨wal,ops,hopen',-,hs⟩ := h.ok.opens hash policy (openStore_maxBatch hopen)
  rw [hopen] at hopen'
  obtain rfl := Except.ok.inj hopen'
  obtain ⟨wal',m',hwal,hstart⟩ := openStore_eq hopen
  obtain rfl : wal = wal' := congrArg (fun s => s.wal.wal) hstart
  refine ⟨KVStore.collectData_start .., ?_⟩
  refine run_invariant (P := fun s => ∃ base before settled,
    Movable host hash m s base before settled) ?_ hlabels hrun
      ⟨wal, ops, [], hs, openWal_of_magic hwal h.log, h.home⟩
  rintro s l t hl ⟨base,before,settled,hs⟩ hstep
  exact hs.step hl (KVStore.steps_of_step hstep)

end MovableDisk

/-- Whatever a crash leaves can be taken to another machine again. -/
theorem Movable.crash (h : Movable host hash m s base before settled) (hcrash : s.Crash disk)
    (hsmall : disk.SmallSnapshot) :
    ∃ inFlight : List Request, (∀ r ∈ inFlight, r ∈ s.wal.outstanding) ∧
      MovableDisk host disk (applyOps (inFlight.map Request.op)
        (applyOps (s.wal.acked.map Request.op) m)) := by
  obtain ⟨inFlight,hout,hok⟩ := h.crash_acked hcrash
  refine ⟨inFlight, hout, hok, h.ground.magicPrefix h.v3 hcrash.1, ?_, hsmall⟩
  rw [hcrash.2]
  exact h.home

/-! ### From machine to machine -/

/-- The files after any number of sessions, each on a machine of either byte order and with a
hash function of its own, and each ended by a crash that leaves a small snapshot or none. No append
failed, and `ClearPersistence` was not called. Nothing was there in the beginning. -/
inductive Moved : Disk → Prop where
  | empty (snapshot temp : Option Bytes) (hsnap : NoSnapshot snapshot) : Moved ⟨[], snapshot, temp⟩
  | crash {disk disk' : Disk} (host : ByteOrder) (hash : Bytes → ℕ) (policy : DurabilityPolicy)
      (maxBatch : ℕ) (labels : List Label) {s t : KVStore} (hdisk : Moved disk)
      (hopen : openStore host hash disk policy maxBatch = .ok s)
      (hlabels : ∀ l ∈ labels, l.recoverable = true)
      (hrun : run (KVStore.step host hash) s labels = some t) (hcrash : t.Crash disk')
      (hsmall : disk'.SmallSnapshot) : Moved disk'

theorem Moved.movable (h : Moved disk) : ∃ host m, MovableDisk host disk m := by
  induction h with
  | empty snapshot temp hsnap =>
    refine ⟨.little, ∅, diskHolds_empty hsnap temp, rfl, .inl hsnap, ?_⟩
    rintro bytes rfl
    obtain hsnap | hsnap := hsnap
    · cases hsnap
    · obtain rfl := Option.some.inj hsnap
      decide
  | crash host hash policy maxBatch labels hdisk hopen hlabels hrun hcrash hsmall ih =>
    obtain ⟨host₀,m,hm⟩ := ih
    obtain ⟨-,base,before,settled,ht⟩ := (hm.of_open hopen).reach hopen hlabels hrun
    obtain ⟨inFlight,-,hdisk'⟩ := ht.crash hcrash hsmall
    exact ⟨host, _, hdisk'⟩

/-- Files that are taken to another machine give the same map there or are refused. After any
number of sessions on machines of either byte order, let a session on `host` crash; in none of them
an append fails or `ClearPersistence` is called, and each leaves a small snapshot or none. Then
every machine of its byte order, and every machine at all as long as there is no snapshot, starts
with the acknowledged operations and perhaps some of the calls that were under way; the others
refuse the snapshot. -/
theorem moved_files_continue_or_refuse (hdisk : Moved disk) {policy : DurabilityPolicy}
    {maxBatch : ℕ} (hopen : openStore host hash disk policy maxBatch = .ok s)
    {labels : List Label} (hlabels : ∀ l ∈ labels, l.recoverable = true)
    (hrun : run (KVStore.step host hash) s labels = some t) (hcrash : t.Crash disk')
    (hsmall : disk'.SmallSnapshot) :
    ∃ inFlight : List Request, (∀ r ∈ inFlight, r ∈ t.wal.outstanding) ∧
      ∀ (host' : ByteOrder) (hash' : Bytes → ℕ) (policy' : DurabilityPolicy) (maxBatch' : ℕ),
        1 ≤ maxBatch' ∧ maxBatch' ≤ 4096 →
        if host' = host ∨ NoSnapshot disk'.snapshot then
          ∃ u, openStore host' hash' disk' policy' maxBatch' = .ok u ∧
            u.collectData = applyOps ((t.wal.acked ++ inFlight).map Request.op) s.collectData
        else ∃ e, openStore host' hash' disk' policy' maxBatch' = .error (.snapshot e) := by
  obtain ⟨host₀,m,hm⟩ := hdisk.movable
  obtain ⟨hdata,base,before,settled,ht⟩ := (hm.of_open hopen).reach hopen hlabels hrun
  obtain ⟨inFlight,hout,hdisk'⟩ := ht.crash hcrash hsmall
  refine ⟨inFlight, hout, ?_⟩
  intro host' hash' policy' maxBatch' hbatch
  rw [List.map_append, applyOps_append, hdata]
  split
  · rename_i hhost
    have hok : DiskHolds host' disk' (applyOps (inFlight.map Request.op)
        (applyOps (t.wal.acked.map Request.op) m)) True := by
      rcases hhost with rfl | hnone
      · exact hdisk'.ok
      · exact (hdisk'.move hnone host').ok
    obtain ⟨wal,ops,hu,-⟩ := hok.opens hash' policy' hbatch
    exact ⟨_, hu, KVStore.collectData_start ..⟩
  · rename_i hhost
    rw [not_or] at hhost
    exact hdisk'.startup_foreign hhost.1 hhost.2 hash' policy' hbatch

/-- A `Set` that has returned. -/
def setElsewhere : List Label := writeCall (.set [107] [118]) 0 ++ [.caller 0]

/-- A `SaveSnapshot` up to its rename. -/
def saveHere : List Label :=
  [.enter .saveSnapshot] ++ List.replicate (kShardCount+2) .admin ++
    [.writeTemp [([107],[118])], .admin, .admin]

/-- A big-endian machine writes an entry, a little-endian machine finds it and saves it, and the
big-endian machine refuses the snapshot. -/
theorem saved_entry_is_refused_where_it_was_set :
    ∃ s₁ t₁ s t, openStore .big oneShard ⟨[], none, none⟩ .buffered 1 = .ok s₁ ∧
      run (KVStore.step .big oneShard) s₁ setElsewhere = some t₁ ∧
      openStore .little oneShard ⟨t₁.wal.wal.file, none, none⟩ .buffered 1 = .ok s ∧
      s.collectData.lookup [107] = some [118] ∧
      run (KVStore.step .little oneShard) s saveHere = some t ∧
      (∃ u, openStore .little oneShard ⟨t.wal.wal.file, t.snapshot, none⟩ .buffered 1 = .ok u ∧
        u.collectData = s.collectData) ∧
      ∃ e, openStore .big oneShard ⟨t.wal.wal.file, t.snapshot, none⟩ .buffered 1 =
        .error (.snapshot e) := by
  have hall : ((openStore .big oneShard ⟨[], none, none⟩ .buffered 1).toOption.bind fun s₁ =>
      (run (KVStore.step .big oneShard) s₁ setElsewhere).bind fun t₁ =>
      (openStore .little oneShard ⟨t₁.wal.wal.file, none, none⟩ .buffered 1).toOption.bind fun s =>
      (run (KVStore.step .little oneShard) s saveHere).map fun t =>
        decide (t₁.wal.wal.file.length = 51 ∧ t₁.snapshot = none ∧
          s.collectData.lookup [107] = some [118] ∧ t.wal.wal.file.length = 51 ∧
          t.snapshot.map List.length = some 30 ∧ t.wal.acked = [] ∧ t.wal.outstanding = [])) =
      some true := by decide +kernel
  obtain ⟨s₁,hs₁,hall⟩ := Option.bind_eq_some_iff.mp hall
  obtain ⟨t₁,ht₁,hall⟩ := Option.bind_eq_some_iff.mp hall
  obtain ⟨s,hs,hall⟩ := Option.bind_eq_some_iff.mp hall
  obtain ⟨t,ht,hall⟩ := Option.map_eq_some_iff.mp hall
  obtain ⟨hlen₁,hsnap₁,hdata,hlen,hsnap,hacked,hout⟩ := of_decide_eq_true hall
  have hs₁ := eq_ok_of_toOption hs₁
  have hs := eq_ok_of_toOption hs
  obtain ⟨bytes,hbytes,hsize⟩ := Option.map_eq_some_iff.mp hsnap
  have hdisk : Moved ⟨t₁.wal.wal.file, none, none⟩ := by
    refine .crash .big oneShard .buffered 1 setElsewhere (.empty none none (.inl rfl)) hs₁
      (by decide) ht₁ ⟨⟨⟨0, by simp⟩, ?_⟩, hsnap₁.symm⟩ (by simp [Disk.SmallSnapshot])
    rw [hlen₁]
    decide
  have hsmall : Disk.SmallSnapshot ⟨t.wal.wal.file, t.snapshot, none⟩ := by
    intro bytes' hbytes'
    obtain rfl : bytes = bytes' := Option.some.inj (hbytes.symm.trans hbytes')
    rw [hsize]
    decide
  have hcrash : t.Crash ⟨t.wal.wal.file, t.snapshot, none⟩ :=
    ⟨⟨⟨0, by simp⟩, by rw [hlen]; decide⟩, rfl⟩
  have hlabels : ∀ l ∈ saveHere, l.recoverable = true := by decide
  obtain ⟨inFlight,hin,hnext⟩ := moved_files_continue_or_refuse hdisk hs hlabels ht hcrash hsmall
  obtain rfl : inFlight = [] := by
    rw [hout] at hin
    exact List.eq_nil_iff_forall_not_mem.mpr fun r hr => absurd (hin r hr) List.not_mem_nil
  refine ⟨s₁, t₁, s, t, hs₁, ht₁, hs, hdata, ht, ?_, ?_⟩
  · have hhome := hnext .little oneShard .buffered 1 (by decide)
    rw [if_pos (.inl rfl), hacked, List.append_nil, List.map_nil, applyOps_nil] at hhome
    exact hhome
  · have hforeign := hnext .big oneShard .buffered 1 (by decide)
    rwa [if_neg] at hforeign
    simp only [NoSnapshot, hbytes, reduceCtorEq, Option.some.injEq, false_or]
    rintro rfl
    cases hsize

end ConcurrentKV
