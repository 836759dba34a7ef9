import ConcurrentKV.CliDurability
import ConcurrentKV.KVTermination

/-! The process comes to its end, whatever the threads do and whatever fails: every step lowers a
number, and as long as the process is not at its end some thread can go on. -/
namespace ConcurrentKV
open ByteCodec OpLog Sharding Transition

/-! ### A log that only buffers -/

namespace WalThreads

/-- Without a writer thread and without syncs. -/
structure Buffered (s : WalThreads) : Prop where
  policy : s.wal.policy = .buffered
  queue : s.queue = []
  exited : s.exited = false
  truncating : s.truncating = none
  phase : ∀ job, s.job = some job →
    job.phase = .header ∨ (∃ bytes, job.phase = .frames bytes) ∨ job.phase = .flushed

variable {host : ByteOrder} {s t : WalThreads}

theorem Buffered.start {wal : WriteAheadLog} (h : wal.policy = .buffered) :
    Buffered (WalThreads.start wal) :=
  ⟨h, rfl, rfl, rfl, by simp [WalThreads.start]⟩

theorem Buffered.fail (h : Buffered s) {wal : WriteAheadLog} (hwal : wal.policy = .buffered)
    (batch : List Request) (e : WalError) : Buffered (failJob { s with wal := wal } batch e) := by
  rw [failJob, if_neg (by simp [hwal])]
  exact ⟨hwal, h.queue, h.exited, h.truncating, by simp⟩

theorem Buffered.step {l : WalLabel} (h : Buffered s) (hstep : s.step host l = some t) :
    Buffered t := by
  have hgroup : s.wal.policy ≠ .groupCommit := by simp [h.policy]
  have hheader : s.wal.ensureHeaderLocked.policy = .buffered := by
    rw [WriteAheadLog.ensureHeaderLocked_eq]
    exact h.policy
  -- the phases of a writer thread and of a sync do not come up
  have hphase {batch : List Request} {phase : Phase} (hjob : s.job = some ⟨batch,phase⟩) :=
    h.phase _ hjob
  cases steps_of_step hstep with
  | prepareError | prepare | refuse | stop | resetStats =>
    exact ⟨h.policy, h.queue, h.exited, h.truncating, h.phase⟩
  | enqueue id r hr hpol => exact absurd hpol hgroup
  | cut hpol | exit hpol => exact absurd hpol hgroup
  | enter =>
    refine ⟨h.policy, h.queue, h.exited, h.truncating, ?_⟩
    intro job hjob
    obtain rfl := Option.some.inj hjob
    exact .inl rfl
  | writeHeader batch bytes wal hjob hfits hfin =>
    obtain ⟨n,rfl⟩ := WriteAheadLog.finalizeFrames_keeps hfin
    refine ⟨hheader, h.queue, h.exited, h.truncating, ?_⟩
    intro job hjob
    obtain rfl := Option.some.inj hjob
    exact .inr (.inl ⟨bytes, rfl⟩)
  | exhausted batch e => exact h.fail (by simpa using hheader) batch e
  | writeFrames batch bytes =>
    refine ⟨h.policy, h.queue, h.exited, h.truncating, ?_⟩
    intro job hjob
    obtain rfl := Option.some.inj hjob
    exact .inr (.inr rfl)
  | failWrite n e batch => exact h.fail (by simpa using h.policy) batch e
  | finishBuffered batch =>
    rw [finishJob, if_neg hgroup]
    exact ⟨h.policy, h.queue, h.exited, h.truncating, by simp⟩
  | sync batch hjob hpol => exact absurd h.policy hpol
  | lockIo batch hjob | finish batch hjob | complete _ batch _ hjob | next _ hjob
  | drain batch _ hjob =>
    rcases hphase hjob with hp | ⟨bytes,hp⟩ | hp <;> cases hp
  | clear => exact ⟨h.policy, h.queue, h.exited, by simp [h.policy], h.phase⟩
  | clearSync htrunc => exact ⟨h.policy, h.queue, h.exited, rfl, h.phase⟩
  | truncateTo offset =>
    exact ⟨(s.wal.truncateTo_keeps host offset).2.1.trans h.policy, h.queue, h.exited,
      h.truncating, h.phase⟩

end WalThreads

/-! ### Ranks -/

/-- A command: none takes more than a `Set` that requests a checkpoint. -/
def kCommandRank : ℕ := kCallRank+3

/-- What the thread of `main` has to do apart from the call it is in. -/
def ServerPc.rank : ServerPc → ℕ
  | .prompt | .waiting _ | .writing _ | .finding _ => 2
  | .reading => 1
  | .checking _ => kCallRank+3
  | .locating _ => 4
  | .inside _ | .sizing => 3
  | .entering _ => kAdminRank+3
  | .done => 0

def Program.rank (p : Program) : ℕ := kCommandRank*p.input.length+p.pc.rank+p.store.rank

/-- The steps that the thread of an append makes. -/
def WalLabel.writes : WalLabel → Bool
  | .submit _ | .writeHeader | .writeFrames | .finish | .fail _ _ => true
  | _ => false

variable {host : ByteOrder} {hash : Bytes → ℕ} {version : Bytes} {s t : KVStore} {l : Label}
  {talk : Talk} {p q : Program}

theorem getline_length {input line rest : Bytes} (h : getline input = some (line,rest)) :
    rest.length < input.length := by
  unfold getline at h
  split at h
  · cases h
  rename_i hne
  obtain ⟨-,rfl⟩ := Prod.mk.inj (Option.some.inj h)
  have hpos : 0 < input.length := List.length_pos_of_ne_nil hne
  have hsplit :=
    congrArg List.length (List.takeWhile_append_dropWhile (p := (· != newline)) (l := input))
  rw [List.length_append] at hsplit
  rw [List.length_drop]
  by_cases hdrop : (input.dropWhile (· != newline)).length = 0
  · omega
  · omega

theorem Program.execute_rank (version : Bytes) (p : Program) (command : Command) :
    (p.execute version command).pc.rank ≤ kCommandRank := by
  unfold Program.execute
  split
  · simp [Program.answer, ServerPc.rank, kCommandRank]
  · split <;> simp [Program.answer, ServerPc.rank, kCommandRank, kCallRank, kRequestRank]

theorem Program.execute_input (p : Program) (command : Command) :
    (p.execute version command).input = p.input := by
  unfold Program.execute
  split
  · rfl
  · split <;> rfl

/-- The thread of `main` goes on, and what it leaves to the store is less than its own step. -/
theorem Program.rank_lt_of_pc {pc : ServerPc} (hpc : p.pc = pc) (hinput : q.input = p.input)
    (hlt : q.pc.rank+q.store.rank < pc.rank+p.store.rank) : q.rank < p.rank := by
  rw [Program.rank, Program.rank, hinput, hpc]
  omega

/-- Every step of the thread of `main` lowers the rank. -/
theorem Program.server_rank_lt {detail : Bytes} (hmax : 1 ≤ p.store.wal.wal.maxBatch)
    (h : p.serverStep host hash version detail = some q) : q.rank < p.rank := by
  -- a step of the store inside a call
  have hcall {l : Label} {u : KVStore} (hl : l.goesOn = true)
      (hu : p.store.step host hash l = some u) : u.rank < p.store.rank :=
    KVStore.rank_lt hmax hl hu
  unfold Program.serverStep at h
  split at h <;> rename_i hpc
  · obtain rfl := Option.some.inj h
    exact Program.rank_lt_of_pc hpc rfl (by simp [ServerPc.rank])
  · split at h
    · obtain rfl := Option.some.inj h
      exact Program.rank_lt_of_pc hpc rfl (by simp [ServerPc.rank])
    · rename_i line rest hline
      obtain ⟨command,-,rfl⟩ := Option.map_eq_some_iff.mp h
      -- the line pays for its command
      have hlen := Nat.mul_le_mul_left kCommandRank (getline_length hline)
      have hexec := Program.execute_rank version { p with input := rest } command
      have hread : p.pc.rank = 1 := by rw [hpc]; rfl
      rw [Nat.mul_succ] at hlen
      rw [Program.rank, Program.rank, Program.execute_store, Program.execute_input, hread]
      dsimp only
      omega
  · split at h
    · obtain rfl := Option.some.inj h
      exact Program.rank_lt_of_pc hpc rfl (by simp [ServerPc.rank, Program.answer])
    · rename_i op herr
      obtain ⟨u,hu,rfl⟩ := Option.map_eq_some_iff.mp h
      simp only [KVStore.step, herr] at hu
      obtain rfl := Option.some.inj hu
      refine Program.rank_lt_of_pc hpc rfl ?_
      simp only [ServerPc.rank, KVStore.rank, KVStore.restRank, KVStore.adminRank,
        List.length_append, List.length_singleton, Nat.mul_succ]
      omega
  · obtain ⟨u,hu,rfl⟩ := Option.map_eq_some_iff.mp h
    have hlt := hcall rfl hu
    exact Program.rank_lt_of_pc hpc rfl (by simp only [ServerPc.rank]; omega)
  · rename_i op
    obtain ⟨u,hu,rfl⟩ := Option.map_eq_some_iff.mp h
    have hlt := hcall rfl hu
    have hnext : (p.written hash op detail u).pc.rank = 2 := by
      unfold Program.written
      split <;> simp [Program.answer, ServerPc.rank, hpc]
    have hinput : (p.written hash op detail u).input = p.input := by
      unfold Program.written
      split <;> rfl
    refine Program.rank_lt_of_pc hpc hinput ?_
    rw [hnext, Program.written_store]
    simp only [ServerPc.rank]
    omega
  · rename_i key
    obtain ⟨u,hu,rfl⟩ := Option.map_eq_some_iff.mp h
    cases KVStore.steps_of_step hu with
    | lockShared _ keys hslot =>
      have hsum :=
        sum_update_add Slot.rank p.store.slots (shardIndex hash key) (.readers (keys ++ [key]))
      refine Program.rank_lt_of_pc hpc rfl ?_
      have hnew : (Slot.readers (keys ++ [key])).rank = (Slot.readers keys).rank+1 := by
        simp [Slot.rank]
      rw [hslot] at hsum
      simp only [ServerPc.rank, KVStore.rank, KVStore.restRank, KVStore.adminRank, KVStore.setSlot]
      omega
    | writeTempFails _ _ _ _ _ _ hl => simp at hl
  · obtain ⟨u,hu,rfl⟩ := Option.map_eq_some_iff.mp h
    have hlt := hcall rfl hu
    exact Program.rank_lt_of_pc hpc rfl (by simp only [ServerPc.rank, Program.answer]; omega)
  · obtain ⟨u,hu,rfl⟩ := Option.map_eq_some_iff.mp h
    cases KVStore.steps_of_step hu with
    | enter kind hkind hadmin =>
      refine Program.rank_lt_of_pc hpc rfl ?_
      simp only [ServerPc.rank, KVStore.rank, KVStore.restRank, KVStore.adminRank, hadmin,
        AdminPc.rank, kAdminRank]
      omega
    | writeTempFails _ _ _ _ _ _ hl => simp at hl
  · rename_i kind
    obtain ⟨u,hu,rfl⟩ := Option.map_eq_some_iff.mp h
    have hlt := hcall rfl hu
    have hnext : (p.administered kind detail u).pc.rank ≤ 3 := by
      unfold Program.administered
      split <;> simp [Program.answer, ServerPc.rank, hpc]
    have hinput : (p.administered kind detail u).input = p.input := by
      unfold Program.administered
      split <;> rfl
    refine Program.rank_lt_of_pc hpc hinput ?_
    have hnow : (ServerPc.inside kind).rank = 3 := rfl
    rw [Program.administered_store, hnow]
    omega
  · split at h
    · obtain rfl := Option.some.inj h
      exact Program.rank_lt_of_pc hpc rfl (by simp [ServerPc.rank, Program.answer])
    · cases h
  · cases h

/-! ### Who holds `snapshot_mutex_` -/

/-- The worker holds it for a checkpoint, and the thread of `main` for anything else. -/
structure Attended (p : Program) : Prop where
  holder : ∀ call, p.store.admin = some call →
    (∃ epoch, call.kind = .checkpoint epoch) ∨ p.pc = .inside call.kind
  inside : ∀ kind, p.pc = .inside kind →
    p.store.admin.map AdminCall.kind = some kind ∧ ∀ epoch, kind ≠ .checkpoint epoch

theorem map_kind {admin admin' : Option AdminCall} {call : AdminCall}
    (h : admin'.map AdminCall.kind = admin.map AdminCall.kind) (hcall : admin' = some call) :
    ∃ c, admin = some c ∧ c.kind = call.kind := by
  rw [hcall] at h
  exact Option.map_eq_some_iff.mp h.symm

/-- The thread of `main` goes on outside of `snapshot_mutex_`, which does not change hands. -/
theorem Attended.outside (h : Attended p) (hadmin : q.store.admin = p.store.admin)
    (hp : ∀ kind, p.pc ≠ .inside kind) (hq : ∀ kind, q.pc ≠ .inside kind) : Attended q := by
  refine ⟨?_, fun kind hk => absurd hk (hq kind)⟩
  intro call hcall
  rw [hadmin] at hcall
  rcases h.holder call hcall with hc | hc
  · exact .inl hc
  · exact absurd hc (hp _)

/-- A step of the holder or of another thread, after which the thread of `main` is inside if it
was, unless its call has ended. -/
theorem Attended.passes (h : Attended p) (hpass : Passes p.store q.store l)
    (hstays : q.store.admin ≠ none → q.pc = p.pc)
    (hend : q.store.admin = none →
      q.pc = p.pc ∧ (∀ kind, p.pc ≠ .inside kind) ∨ ∀ kind, q.pc ≠ .inside kind) : Attended q := by
  have hout (hfree : q.store.admin = none) (kind : AdminKind) : q.pc ≠ .inside kind := by
    rcases hend hfree with ⟨hsame,hp⟩ | hq
    · rw [hsame]
      exact hp kind
    · exact hq kind
  cases hpass with
  | stays _ hkind =>
    refine ⟨?_, ?_⟩
    · intro call hcall
      obtain ⟨c,hc,he⟩ := map_kind hkind hcall
      rw [← he, hstays (by simp [hcall])]
      exact h.holder c hc
    · intro kind hk
      by_cases hfree : q.store.admin = none
      · exact absurd hk (hout hfree kind)
      · rw [hstays hfree] at hk
        rw [hkind]
        exact h.inside kind hk
  | enters _ epoch hfree hadmin =>
    refine ⟨?_, ?_⟩
    · intro call hcall
      rw [hadmin] at hcall
      obtain rfl := Option.some.inj hcall
      exact .inl ⟨epoch, rfl⟩
    · intro kind hk
      rw [hstays (by simp [hadmin])] at hk
      have hnone := (h.inside kind hk).1
      rw [hfree] at hnone
      cases hnone
  | leaves call hcall hfree =>
    refine ⟨?_, fun kind hk => absurd hk (hout hfree kind)⟩
    intro c hc
    rw [hfree] at hc
    cases hc

/-- The holder is where it should be, however the process runs. -/
theorem Attended.server {detail : Bytes} (h : Attended p)
    (hstep : p.serverStep host hash version detail = some q) : Attended q := by
  unfold Program.serverStep at hstep
  split at hstep <;> rename_i hpc
  · obtain rfl := Option.some.inj hstep
    exact h.outside rfl (by simp [hpc]) (by simp)
  · split at hstep
    · obtain rfl := Option.some.inj hstep
      exact h.outside rfl (by simp [hpc]) (by simp)
    · obtain ⟨command,-,rfl⟩ := Option.map_eq_some_iff.mp hstep
      refine h.outside (by rw [Program.execute_store]) (by simp [hpc]) ?_
      intro kind
      unfold Program.execute
      split
      · simp [Program.answer]
      · split <;> simp [Program.answer]
  · split at hstep
    · obtain rfl := Option.some.inj hstep
      exact h.outside rfl (by simp [hpc]) (by simp [Program.answer])
    · rename_i op herr
      obtain ⟨s,hs,rfl⟩ := Option.map_eq_some_iff.mp hstep
      simp only [KVStore.step, herr] at hs
      obtain rfl := Option.some.inj hs
      exact h.outside rfl (by simp [hpc]) (by simp)
  · obtain ⟨s,hs,rfl⟩ := Option.map_eq_some_iff.mp hstep
    cases KVStore.steps_of_step hs with
    | lockShard op hcall hslot => exact h.outside rfl (by simp [hpc]) (by simp)
    | writeTempFails _ _ _ _ _ _ hl => simp at hl
  · obtain ⟨s,hs,rfl⟩ := Option.map_eq_some_iff.mp hstep
    have hsame : s.admin = p.store.admin := by
      cases KVStore.steps_of_step hs with
      | writeTempFails _ _ _ _ _ _ hl => simp at hl
      | _ => rfl
    refine h.outside (by rw [Program.written_store, hsame]) (by simp [hpc]) ?_
    intro kind
    unfold Program.written
    split <;> simp [Program.answer, hpc]
  · obtain ⟨s,hs,rfl⟩ := Option.map_eq_some_iff.mp hstep
    cases KVStore.steps_of_step hs with
    | lockShared key keys hslot => exact h.outside rfl (by simp [hpc]) (by simp)
    | writeTempFails _ _ _ _ _ _ hl => simp at hl
  · obtain ⟨s,hs,rfl⟩ := Option.map_eq_some_iff.mp hstep
    cases KVStore.steps_of_step hs with
    | get key value keys hslot => exact h.outside rfl (by simp [hpc]) (by simp [Program.answer])
    | writeTempFails _ _ _ _ _ _ hl => simp at hl
  · obtain ⟨s,hs,rfl⟩ := Option.map_eq_some_iff.mp hstep
    cases KVStore.steps_of_step hs with
    | enter kind hkind hadmin =>
      refine ⟨?_, ?_⟩
      · intro call hcall
        obtain rfl := Option.some.inj hcall
        exact .inr rfl
      · intro k hk
        obtain rfl := ServerPc.inside.inj hk
        exact ⟨rfl, hkind⟩
    | writeTempFails _ _ _ _ _ _ hl => simp at hl
  · rename_i kind
    obtain ⟨s,hs,rfl⟩ := Option.map_eq_some_iff.mp hstep
    have hpass := (KVStore.steps_of_step hs).passes (by simp)
    unfold Program.administered
    split
    · rename_i call hcall
      exact h.passes hpass (fun _ => rfl) (by simp [hcall])
    · rename_i hfree
      exact h.passes hpass (fun hne => absurd hfree hne) (fun _ => .inr (by simp [Program.answer]))
  · split at hstep
    · obtain rfl := Option.some.inj hstep
      exact h.outside rfl (by simp [hpc]) (by simp [Program.answer])
    · cases hstep
  · cases hstep

/-! ### Every run -/

/-- What holds in every run of the process. -/
structure Live (hash : Bytes → ℕ) (p : Program) : Prop where
  serving : ∃ talk, Serving hash talk p
  steady : Steady hash p.store
  buffered : p.store.wal.Buffered
  attended : Attended p

theorem WalThreads.Buffered.store (h : s.wal.Buffered) (heff : KVStore.Effect host hash s t l) :
    t.wal.Buffered := by
  rcases heff.wal_cases with hwal | ⟨w,hwal⟩
  · rw [hwal]
    exact h
  · exact h.step hwal

theorem Program.allows_writes {w : WalLabel} (h : p.allows (.wal w) = true) : w.writes = true := by
  cases w with
  | submit | writeHeader | writeFrames | finish | fail => rfl
  | _ => cases h

/-- The process goes on with a call or in the background, or it begins to stop. -/
theorem Program.allows_goesOn (h : p.allows l = true) :
    l.goesOn = true ∨ l = .stop ∧ p.store.checkpointStopping = false := by
  cases l with
  | wal w =>
    left
    cases w with
    | submit | writeHeader | writeFrames | finish | fail => rfl
    | _ => cases h
  | stop => exact .inr ⟨rfl, by simpa [Program.allows] using (Bool.and_eq_true_iff.mp h).2⟩
  | admin | writeTemp | writeTempFault | adminFault | worker => exact .inl rfl
  | call | lockShard | caller | lockShared | get | enter => cases h

/-- What the store of the process does in one step. -/
theorem Program.step_cases {l : ProgramLabel} (h : p.step host hash version l = some q) :
    q.store = p.store ∨ ∃ k, p.store.step host hash k = some q.store ∧ k ≠ .wal .stop := by
  rcases Program.step_label h with hsame | ⟨k,hk,⟨rfl,hallows⟩ | ⟨hserver,-⟩⟩
  · exact .inl hsame
  · refine .inr ⟨k, hk, ?_⟩
    rintro rfl
    cases hallows
  · refine .inr ⟨k, hk, ?_⟩
    rintro rfl
    cases hserver

/-- Every step of the process lowers the rank. -/
theorem Live.ranked : Ranked (Program.step host hash version) (Live hash) Program.rank := by
  intro p l q h hstep
  obtain ⟨talk,hserving⟩ := h.serving
  have hmax := h.steady.running.batch.maxBatch
  constructor
  · refine ⟨?_, ?_, ?_, ?_⟩
    · rcases hserving.step hstep with hsame | ⟨-,talk',-,hnext⟩
      · exact ⟨talk, hsame⟩
      · exact ⟨talk', hnext⟩
    · rcases Program.step_cases hstep with hsame | ⟨k,hk,hne⟩
      · rw [hsame]
        exact h.steady
      · exact h.steady.step hne hk
    · rcases Program.step_cases hstep with hsame | ⟨k,hk,-⟩
      · rw [hsame]
        exact h.buffered
      · exact h.buffered.store ((KVStore.steps_of_step hk).effect h.steady.running.lock)
    · cases l with
      | server detail => exact h.attended.server hstep
      | store k =>
        simp only [Program.step] at hstep
        split at hstep
        · rename_i hallows
          obtain ⟨s,hs,rfl⟩ := Option.map_eq_some_iff.mp hstep
          have hpass := (KVStore.steps_of_step hs).passes (by rintro kind rfl; cases hallows)
          refine h.attended.passes hpass (fun _ => rfl) ?_
          intro hfree
          refine .inl ⟨rfl, ?_⟩
          intro kind hpc
          obtain ⟨hkind,hne⟩ := h.attended.inside kind hpc
          -- the thread of `main` alone moves its own call
          cases hpass with
          | stays _ hsame =>
            rw [← hsame, hfree] at hkind
            cases hkind
          | enters _ epoch hnone =>
            rw [hnone] at hkind
            cases hkind
          | leaves call hcall =>
            rw [hcall] at hkind
            simp only [Program.allows, hcall] at hallows
            obtain ⟨ck,cpc⟩ := call
            cases ck with
            | checkpoint epoch => exact hne epoch (Option.some.inj hkind).symm
            | _ => cases hallows
        · cases hstep
  · cases l with
    | server detail => exact Program.server_rank_lt hmax hstep
    | store k =>
      simp only [Program.step] at hstep
      split at hstep
      · rename_i hallows
        obtain ⟨u,hu,rfl⟩ := Option.map_eq_some_iff.mp hstep
        have hlt : u.rank < p.store.rank := by
          rcases Program.allows_goesOn hallows with hl | ⟨rfl,hstop⟩
          · exact KVStore.rank_lt hmax hl hu
          · obtain rfl := Option.some.inj hu
            simp only [KVStore.rank, KVStore.restRank, KVStore.adminRank, hstop,
              cond_true, cond_false]
            omega
        rw [Program.rank, Program.rank]
        dsimp only
        omega
      · cases hstep

theorem live_main {disk : Disk} {input : Bytes} (h : main host hash version disk input = .ok p) :
    Live hash p ∧ p.rank = kCommandRank*input.length+4 := by
  obtain ⟨hopen,hinput,hpc,wal,m,hwal,hstore⟩ := main_eq h
  have hpolicy : wal.policy = .buffered := (openWal_fields hwal).2.1
  refine ⟨⟨⟨_, serving_main h⟩, Steady.start hopen, ?_, ?_⟩, ?_⟩
  · rw [hstore]
    exact .start hpolicy
  · refine ⟨?_, ?_⟩
    · intro call hcall
      rw [hstore] at hcall
      cases hcall
    · intro kind hk
      rw [hpc] at hk
      cases hk
  · have hslots : ∑ i, ((KVStore.start hash wal m disk.snapshot disk.temp).slots i).rank = 0 := by
      simp [KVStore.start, Slot.rank]
    rw [Program.rank, hpc, hinput, hstore, KVStore.rank, hslots]
    rfl

/-! ### Somebody can go on -/

/-- `main` has returned: the loop is left, the worker is joined and nothing is under way. -/
structure Finished (p : Program) : Prop where
  pc : p.pc = .done
  worker : p.store.worker = .exited
  admin : p.store.admin = none
  outstanding : p.store.wal.outstanding = []

def ProgramLabel.isFault : ProgramLabel → Bool
  | .store k => k.isFault
  | .server _ => false

/-- Some thread can go on. It needs an exception for that only where the file cannot take what is
to be written. -/
def GoesOn (host : ByteOrder) (hash : Bytes → ℕ) (version : Bytes) (p : Program) : Prop :=
  ∃ l q, p.step host hash version l = some q ∧
    (l.isFault = true → p.store.wal.cannotWrite = true)

theorem goesOn_server (h : ∃ q, p.serverStep host hash version [] = some q) :
    GoesOn host hash version p := by
  obtain ⟨q,hq⟩ := h
  exact ⟨.server [], q, hq, by simp [ProgramLabel.isFault]⟩

theorem goesOn_store {k : Label} (hallows : p.allows k = true)
    (hstep : ∃ u, p.store.step host hash k = some u)
    (hfault : (ProgramLabel.store k).isFault = true → p.store.wal.cannotWrite = true) :
    GoesOn host hash version p := by
  obtain ⟨u,hu⟩ := hstep
  exact ⟨.store k, { p with store := u }, by simp [Program.step, hallows, hu], hfault⟩

/-- Of the steps of a log only these come up in one that buffers. -/
theorem WalThreads.Buffered.writes_of_step {s t : WalThreads} {w : WalLabel} (h : s.Buffered)
    (hw : w.goesOn = true) (hstep : s.step host w = some t) : w.writes = true := by
  have hgroup : s.wal.policy ≠ .groupCommit := by simp [h.policy]
  cases steps_of_step hstep with
  | refuse | enqueue | enter | writeHeader | exhausted | writeFrames | finishBuffered | finish
  | failWrite => rfl
  | cut hpol => exact absurd hpol hgroup
  | sync batch hjob hpol => exact absurd h.policy hpol
  | lockIo batch hjob | complete _ batch _ hjob | next _ hjob | drain batch _ hjob =>
    rcases h.phase _ hjob with hp | ⟨bytes,hp⟩ | hp <;> cases hp
  | clearSync htrunc =>
    rw [h.truncating] at htrunc
    cases htrunc
  | _ => cases hw

theorem Slot.free_of_rests {slot : Slot} (h : slot.rests = true) (hne : slot ≠ .admin) :
    slot = .readers [] := by
  cases slot with
  | admin => exact absurd rfl hne
  | writer => cases h
  | readers keys =>
    cases keys with
    | nil => rfl
    | cons => cases h

/-- The parser has an answer for every line. -/
theorem parse_total (line : Bytes) : ∃ command, parse line = some command := by
  rcases parse_invalid_or_form line with ⟨message,h⟩ | ⟨command,h⟩
  · exact ⟨_, h⟩
  · exact ⟨command, (parse_of_form h).1⟩

/-- A `Set` or `Delete` that has its lock can go on, or its append can. -/
theorem Live.write_goes {op : WalRecord} (h : Live hash p) (hpc : p.pc = .writing op) :
    GoesOn host hash version p := by
  obtain ⟨talk,hserving⟩ := h.serving
  have htends := hserving.tends
  unfold Tends at htends
  rw [hpc] at htends
  obtain ⟨-,pc,hslot,-⟩ := htends
  rcases h.steady.running.write_goes host hslot with hsome | hout
  · apply goesOn_server
    obtain ⟨u,hu⟩ := Option.isSome_iff_exists.mp hsome
    have hu : p.store.step host hash (.caller (shardIndex hash op.key)) = some u := hu
    exact ⟨p.written hash op [] u, by simp only [Program.serverStep, hpc, hu, Option.map_some]⟩
  · rcases h.steady.serviced.goes host with hrest | ⟨w,wal,hw,hstep,hfault⟩
    · exact absurd hrest.outstanding hout
    · have hwrites := h.buffered.writes_of_step hw hstep
      apply goesOn_store (k := .wal w) ?_ ⟨{ p.store with wal := wal }, ?_⟩ hfault
      · cases w with
        | submit | writeHeader | writeFrames | finish | fail => rfl
        | _ => cases hwrites
      · cases w with
        | prepare x => cases hw
        | _ => simp only [KVStore.step, hstep, Option.map_some]

/-- When the thread of `main` has no shard locked, the holder of `snapshot_mutex_` can go on. -/
theorem Live.admin_goes (h : Live hash p) {call : AdminCall} (hcall : p.store.admin = some call)
    (hrest : ∀ i, (p.store.slots i).rests = true) : GoesOn host hash version p := by
  have hfree (i : Shard) : p.store.slots i = .admin ∨ p.store.slots i = .readers [] := by
    by_cases ha : p.store.slots i = .admin
    · exact .inl ha
    · exact .inr (Slot.free_of_rests (hrest i) ha)
  rcases h.steady.running.admin_goes host h.buffered.truncating hcall hfree with
    ⟨t,ht⟩ | ⟨entries,t,ht⟩
  · rcases h.attended.holder call hcall with ⟨epoch,hkind⟩ | hpc
    · apply goesOn_store ?_ ⟨t, ht⟩ (by simp [ProgramLabel.isFault, Label.isFault])
      obtain ⟨kind,pc⟩ := call
      obtain rfl := hkind
      simp only [Program.allows, hcall]
    · apply goesOn_server
      exact ⟨p.administered call.kind [] t, by
        simp only [Program.serverStep, hpc, ht, Option.map_some]⟩
  · exact goesOn_store rfl ⟨t, ht⟩ (by simp [ProgramLabel.isFault, Label.isFault])

/-- When nobody holds anything, only the end of the process is left to wait for. -/
theorem Live.free_goes (h : Live hash p) (hadmin : p.store.admin = none)
    (hfree : ∀ i, p.store.slots i = .readers []) (hwriting : ∀ op, p.pc ≠ .writing op)
    (hfinding : ∀ key, p.pc ≠ .finding key) : Finished p ∨ GoesOn host hash version p := by
  obtain ⟨talk,hserving⟩ := h.serving
  have hcalling := hserving.calling
  cases hpc : p.pc with
  | prompt => exact .inr (goesOn_server ⟨_, by simp only [Program.serverStep, hpc]; rfl⟩)
  | reading =>
    right
    apply goesOn_server
    cases hline : getline p.input with
    | none => exact ⟨_, by simp only [Program.serverStep, hpc, hline]; rfl⟩
    | some read =>
      obtain ⟨line,rest⟩ := read
      obtain ⟨command,hparse⟩ := parse_total line
      exact ⟨_, by simp only [Program.serverStep, hpc, hline, hparse, Option.map_some]; rfl⟩
  | checking op =>
    right
    apply goesOn_server
    cases herr : p.store.checkpointError with
    | true => exact ⟨_, by simp only [Program.serverStep, hpc, herr, if_true]; rfl⟩
    | false =>
      apply Option.isSome_iff_exists.mp
      simp [Program.serverStep, hpc, herr, KVStore.step]
  | waiting op =>
    right
    apply goesOn_server
    rw [hpc] at hcalling
    have hlock : op ∈ p.store.calling ∧
        p.store.slots (shardIndex hash op.key) = .readers [] :=
      ⟨by rw [hcalling]; exact List.mem_singleton_self op, hfree _⟩
    exact ⟨_, by
      simp only [Program.serverStep, hpc, KVStore.step, if_pos hlock, Option.map_some]
      rfl⟩
  | writing op => exact absurd hpc (hwriting op)
  | locating key =>
    right
    apply goesOn_server
    exact ⟨_, by simp only [Program.serverStep, hpc, KVStore.step, hfree, Option.map_some]; rfl⟩
  | finding key => exact absurd hpc (hfinding key)
  | entering kind =>
    right
    apply goesOn_server
    obtain ⟨command,-,hexec⟩ :=
      hserving.follows.engaged (by simp [hpc]) (by simp [hpc]) (by simp [hpc])
    rw [hpc] at hexec
    -- no command asks for a checkpoint of the worker's
    have hkind : ∀ epoch, kind ≠ .checkpoint epoch := by
      rintro epoch rfl
      change command.adminKind = _ at hexec
      unfold Command.adminKind at hexec
      split at hexec <;> cases hexec
    apply Option.isSome_iff_exists.mp
    cases kind with
    | checkpoint epoch => exact absurd rfl (hkind epoch)
    | _ => simp only [Program.serverStep, hpc, KVStore.step, if_pos hadmin, Option.isSome_map,
        Option.isSome_some]
  | inside kind =>
    have hheld := (h.attended.inside kind hpc).1
    rw [hadmin] at hheld
    cases hheld
  | sizing =>
    right
    apply goesOn_server
    have hshare : p.store.shareable = true := by
      apply decide_eq_true
      intro i
      rw [hfree i]
      rfl
    exact ⟨_, by simp only [Program.serverStep, hpc, if_pos hshare]; rfl⟩
  | done =>
    by_cases hstop : p.store.checkpointStopping = true
    · rcases h.steady.worker.goes hadmin with (hworker | ⟨-,-,hrun⟩) | hsome
      · refine .inl ⟨hpc, hworker, hadmin, ?_⟩
        apply List.eq_nil_iff_forall_not_mem.mpr
        intro r hr
        have howner := h.steady.running.own.owner r hr
        rw [hfree] at howner
        cases howner
      · rw [hstop] at hrun
        cases hrun
      · exact .inr (goesOn_store (k := .worker) rfl (Option.isSome_iff_exists.mp hsome)
          (by simp [ProgramLabel.isFault, Label.isFault]))
    · right
      apply goesOn_store (k := .stop) ?_ ⟨_, rfl⟩ (by simp [ProgramLabel.isFault, Label.isFault])
      simp [Program.allows, hpc, hstop]

theorem Live.goes (h : Live hash p) (host : ByteOrder) (version : Bytes) :
    Finished p ∨ GoesOn host hash version p := by
  by_cases hwriting : ∃ op, p.pc = .writing op
  · obtain ⟨op,hpc⟩ := hwriting
    exact .inr (h.write_goes hpc)
  obtain ⟨talk,hserving⟩ := h.serving
  have htends := hserving.tends
  by_cases hfinding : ∃ key, p.pc = .finding key
  · obtain ⟨key,hpc⟩ := hfinding
    unfold Tends at htends
    rw [hpc] at htends
    right
    apply goesOn_server
    apply Option.isSome_iff_exists.mp
    simp [Program.serverStep, hpc, KVStore.step, htends.2.1]
  · have hrest : ∀ i, (p.store.slots i).rests = true := by
      unfold Tends at htends
      split at htends
      · exact absurd ⟨_, ‹_›⟩ hwriting
      · exact absurd ⟨_, ‹_›⟩ hfinding
      · exact htends.1
    cases hadmin : p.store.admin with
    | some call => exact .inr (h.admin_goes hadmin hrest)
    | none =>
      have hlock : LockInv p.store.slots none := hadmin ▸ h.steady.running.lock
      exact h.free_goes hadmin (fun i => Slot.free_of_rests (hrest i) (hlock.free_of_none i))
        (fun op hpc => hwriting ⟨op, hpc⟩) fun key hpc => hfinding ⟨key, hpc⟩

/-- `main` returns. Once startup has succeeded, on any input, in any interleaving and with any
failures, the process makes at most `235*n+4` steps for `n` bytes of input; until it has returned,
some thread can go on, and an end is reached from wherever it is. -/
theorem main_always_returns {disk : Disk} {input : Bytes} {ls : List ProgramLabel}
    (hmain : main host hash version disk input = .ok p)
    (hrun : run (Program.step host hash version) p ls = some q) :
    ls.length ≤ 235*input.length+4 ∧ (Finished q ∨ GoesOn host hash version q) ∧
      ∃ ls' r, run (Program.step host hash version) q ls' = some r ∧ Finished r := by
  obtain ⟨hlive,hrank⟩ := live_main hmain
  obtain ⟨hq,hlen⟩ := Live.ranked.run_length hrun hlive
  refine ⟨?_, hq.goes host version, ?_⟩
  · rw [hrank] at hlen
    have hcommand : kCommandRank = 235 := rfl
    rw [hcommand] at hlen
    omega
  · apply Live.ranked.reaches ?_ hq
    intro r hr
    rcases hr.goes host version with hend | ⟨l,u,hu,-⟩
    · exact .inl hend
    · exact .inr ⟨l, u, hu⟩

/-- A `COMPACT` that has just entered. -/
theorem main_returns_from_compact :
    ∃ p q, main .little (fun _ => 0) (ascii "1") ⟨[], none, none⟩ (ascii "COMPACT\n") = .ok p ∧
      run (Program.step .little (fun _ => 0) (ascii "1")) p
        [.server [], .server [], .server []] = some q ∧ q.pc = .inside .compactPersistence ∧
      ∃ ls r, run (Program.step .little (fun _ => 0) (ascii "1")) q ls = some r ∧ Finished r := by
  have hall : ((main .little (fun _ => 0) (ascii "1") ⟨[], none, none⟩
      (ascii "COMPACT\n")).toOption.bind fun p =>
        (run (Program.step .little (fun _ => 0) (ascii "1")) p
          [.server [], .server [], .server []]).map fun q =>
        decide (q.pc = .inside .compactPersistence)) = some true := by decide +kernel
  obtain ⟨p,hp,hall⟩ := Option.bind_eq_some_iff.mp hall
  obtain ⟨q,hq,hpc⟩ := Option.map_eq_some_iff.mp hall
  have hp := eq_ok_of_toOption hp
  obtain ⟨-,-,hend⟩ := main_always_returns hp hq
  exact ⟨p, q, hp, hq, of_decide_eq_true hpc, hend⟩

end ConcurrentKV
