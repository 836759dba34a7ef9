import ConcurrentKV.CliShell
import ConcurrentKV.SafeSaves

/-! Without faults the screen does not depend on the threads. In every interleaving the process
prints what the program without threads prints, and leaves the same entries and the same log. -/
namespace ConcurrentKV
open ByteCodec OpLog Sharding Transition

/-! ### The log of the process -/

/-- Behind the rotation of the log. -/
def AdminPc.rotated : AdminPc → Bool
  | .truncated | .removingSnapshot | .removingTemp | .syncingRemoval | .resetting
  | .unlocking _ _ => true
  | _ => false

/-- The log when the call is at `pc`, if it was `wal` when the call entered. -/
def AdminPc.log (pc : AdminPc) (wal : WriteAheadLog) : WriteAheadLog :=
  cond pc.rotated wal.cleared wal

/-- The same under a `Set` or `Delete` that has its lock. -/
def WritePc.LogAt (host : ByteOrder) (wal : WriteAheadLog) (op : WalRecord) (w : WalThreads) :
    WritePc → Prop
  | .locked => w.Rests wal
  | .appending id => w.Appending host wal op id
  | _ => ∃ wal', wal.append host op = (.ok (), wal') ∧ w.Rests wal'

/-- How far the thread of `main` has come with the log, which was that of `shell` at the last
prompt. -/
def LogAt (host : ByteOrder) (hash : Bytes → ℕ) (shell : Shell) (p : Program) : Prop :=
  match p.pc with
  | .writing op => ∃ pc : WritePc, p.store.slots (shardIndex hash op.key) = .writer ⟨op,pc⟩ ∧
      pc.LogAt host shell.wal op p.store.wal
  | .inside _ => ∃ call, p.store.admin = some call ∧ p.store.wal.Rests (call.pc.log shell.wal)
  | _ => p.store.wal.Rests shell.wal

/-- The process is at a command of the session, which prints and leaves `total` in the end. -/
structure Script (host : ByteOrder) (hash : Bytes → ℕ) (version : Bytes) (total : Bytes × Shell)
    (shell : Shell) (talk : Talk) (p : Program) : Prop where
  serving : Serving hash talk p
  map : talk.map = shell.map
  log : LogAt host hash shell p
  within : shell.Within talk.input.length
  total : total = (talk.output ++ (shell.session host version talk.input).1,
    (shell.session host version talk.input).2)

variable {host : ByteOrder} {hash : Bytes → ℕ} {version : Bytes} {total : Bytes × Shell}
  {shell : Shell} {talk : Talk} {p q : Program} {s t : KVStore} {l : Label}

/-! ### Appends -/

theorem WalThreads.Appending.sound {w : WalThreads} {wal : WriteAheadLog} {op : WalRecord} {id : ℕ}
    (h : w.Appending host wal op id) (hsound : wal.Sound) :
    w.wal.Sound ∧ w.wal.generation = wal.generation := by
  obtain ⟨hs,hg,-⟩ := hsound.append host op
  cases h with
  | prepared _ _ hwal | header _ _ _ hwal =>
    rw [hwal]
    exact ⟨hsound, rfl⟩
  | frames frame bytes hprep hcheck hfin =>
    obtain ⟨n,hn⟩ := WriteAheadLog.finalizeFrames_keeps
      ((WriteAheadLog.finalizeFrames_singleton _ frame).trans hfin)
    rw [hn, WriteAheadLog.ensureHeaderLocked_eq]
    exact ⟨⟨hsound.outputOpen, hsound.failure⟩, rfl⟩
  | flushed _ happend | acknowledged happend | thrown _ happend =>
    rw [happend] at hs hg
    exact ⟨hs, hg⟩

theorem WalThreads.Appending.of_ok {w : WalThreads} {wal : WriteAheadLog} {op : WalRecord}
    {id id' : ℕ} (h : w.Appending host wal op id)
    (hfind : w.results.find? (fun r => r.1 == id) = some (id', none)) :
    wal.append host op = (.ok (), w.wal) ∧ w.Rests w.wal := by
  cases h with
  | acknowledged happend hrests => exact ⟨happend, hrests⟩
  | thrown e happend hrests hfound =>
    rw [hfind] at hfound
    cases hfound
  | prepared _ _ _ _ _ hnone | header _ _ _ _ _ _ hnone | frames _ _ _ _ _ _ _ hnone
  | flushed _ _ _ _ hnone =>
    rw [hfind] at hnone
    cases hnone

theorem WalThreads.Appending.of_error {w : WalThreads} {wal : WriteAheadLog} {op : WalRecord}
    {id id' : ℕ} {e : WalError} (h : w.Appending host wal op id)
    (hfind : w.results.find? (fun r => r.1 == id) = some (id', some e)) :
    wal.append host op = (.error e, w.wal) ∧ w.Rests w.wal := by
  cases h with
  | thrown e happend hrests hfound =>
    rw [hfind] at hfound
    cases hfound
    exact ⟨happend, hrests⟩
  | acknowledged happend hrests hfound =>
    rw [hfind] at hfound
    cases hfound
  | prepared _ _ _ _ _ hnone | header _ _ _ _ _ _ hnone | frames _ _ _ _ _ _ _ hnone
  | flushed _ _ _ _ hnone =>
    rw [hfind] at hnone
    cases hnone

/-- A write goes as far as the file may go. -/
theorem WalThreads.step_room {w v : WalThreads} {k : WalLabel}
    (hroom : w.wal.file.length ≤ kMaxStreamoff) (hk : k.writes = true ∨ k = .clear ∨ k = .clearSync)
    (hfail : ∀ n e, k ≠ .fail n e) (hstep : w.step host k = some v) :
    v.wal.file.length ≤ kMaxStreamoff := by
  have hfailJob (u : WalThreads) (batch : List Request) (e : WalError) :
      (u.failJob batch e).wal.file = u.wal.file := by
    unfold failJob
    split <;> rfl
  have hfinish (u : WalThreads) (batch : List Request) :
      (u.finishJob batch).wal.file = u.wal.file := by
    unfold finishJob
    split <;> rfl
  cases k with
  | submit id =>
    cases steps_of_step hstep <;> exact hroom
  | writeHeader =>
    simp only [WalThreads.step] at hstep
    split at hstep
    · split_ifs at hstep with hcan
      have hheader : w.wal.ensureHeaderLocked.file.length ≤ kMaxStreamoff := by
        rw [WriteAheadLog.ensureHeaderLocked_eq]
        simpa [fits] using hcan.2
      split at hstep
      · rename_i hfin
        obtain rfl := Option.some.inj hstep
        obtain ⟨n,rfl⟩ := WriteAheadLog.finalizeFrames_keeps hfin
        exact hheader
      · obtain rfl := Option.some.inj hstep
        rw [hfailJob]
        exact hheader
    · cases hstep
  | writeFrames =>
    cases steps_of_step hstep with
    | writeFrames batch bytes hjob hfits => simpa [fits] using hfits
  | finish =>
    cases steps_of_step hstep with
    | finishBuffered batch | finish batch =>
      rw [hfinish]
      exact hroom
  | fail n e => exact absurd rfl (hfail n e)
  | clear =>
    cases steps_of_step hstep with
    | clear => exact Nat.zero_le _
  | clearSync =>
    cases steps_of_step hstep with
    | clearSync => exact hroom
  | _ => simp [WalLabel.writes] at hk

/-! ### The call that holds `snapshot_mutex_` -/

theorem Faultless.not_thrown (h : Faultless host t) {call : AdminCall}
    (ht : t.admin = (s.throw call).admin) : False := by
  have hsafe := h.safe _ _ ht
  cases hsafe

/-- A step of a compaction or of a reset. -/
theorem KVStore.Steps.admin_log {kind : AdminKind} {pc : AdminPc} {wal : WriteAheadLog}
    (h : KVStore.Steps host hash s .admin t) (hcall : s.admin = some ⟨kind,pc⟩)
    (hkind : kind = .compactPersistence ∨ kind = .clearPersistence) (hpath : PathInv s.admin)
    (hsafe : Faultless host t) (hrests : s.wal.Rests (pc.log wal)) :
    (t.admin = none → t.wal.Rests wal.cleared ∧ ∃ failed n, pc = .unlocking failed n) ∧
      ∀ call, t.admin = some call → t.wal.Rests (call.pc.log wal) := by
  have hpasses := hpath _ hcall
  have hgo {pc' : AdminPc} (hadmin : t.admin = some ⟨kind,pc'⟩) (hwal : t.wal = s.wal)
      (hlog : pc'.log wal = pc.log wal) :
      (t.admin = none → t.wal.Rests wal.cleared ∧ ∃ failed n, pc = .unlocking failed n) ∧
        ∀ call, t.admin = some call → t.wal.Rests (call.pc.log wal) := by
    refine ⟨by simp [hadmin], ?_⟩
    intro call ha
    rw [hadmin] at ha
    cases ha
    rw [hwal, hlog]
    exact hrests
  have hthrow {call : AdminCall} (ht : t.admin = (s.throw call).admin) : False :=
    hsafe.not_thrown ht
  cases h with
  | cancelled epoch hadmin | checked epoch hadmin | captureCheckpoint epoch n offset hn hadmin =>
    rw [hcall] at hadmin
    cases hadmin
    rcases hkind with hk | hk <;> cases hk
  | captureSave n offset hn hadmin =>
    rw [hcall] at hadmin
    cases hadmin
    rcases hkind with hk | hk <;> cases hk
  | cancel _ _ hadmin | lock _ _ _ hadmin | captureCompact _ _ hadmin | captureClear _ _ hadmin
  | release _ _ _ _ _ hadmin | released _ _ _ _ _ hadmin | syncTemp _ _ _ hadmin
  | rename _ _ _ hadmin | syncDirectory _ _ _ hadmin | removeSnapshot _ hadmin
  | removeTemp _ hadmin | syncRemoval _ hadmin | reset _ hadmin | unlock _ _ _ _ hadmin =>
    rw [hcall] at hadmin
    cases hadmin
    exact hgo rfl rfl rfl
  | captureFails | verifyFails | rotateFails => exact (hthrow rfl).elim
  | writeTempFails _ _ _ _ _ _ hl => simp at hl
  | verified kind' data walOffset hadmin =>
    rw [hcall] at hadmin
    cases hadmin
    rcases hkind with rfl | rfl
    · exact hgo rfl rfl rfl
    · cases hpasses
  | rotate kind' v hadmin hwal =>
    rw [hcall] at hadmin
    cases hadmin
    refine ⟨by simp, ?_⟩
    intro call ha
    cases ha
    cases WalThreads.steps_of_step hwal with
    | clear => exact ⟨congrArg WriteAheadLog.cleared hrests.object, hrests.prepared, hrests.job⟩
  | syncTruncation kind' v hadmin hwal =>
    rw [hcall] at hadmin
    cases hadmin
    have hlog : kind.afterClear.log wal = AdminPc.log .truncated wal := by cases kind <;> rfl
    rcases hwal with hwal | ⟨rfl,-⟩
    · refine ⟨by simp, ?_⟩
      intro call ha
      cases ha
      rw [hlog]
      cases WalThreads.steps_of_step hwal with
      | clearSync => exact ⟨hrests.object, hrests.prepared, hrests.job⟩
    · exact hgo rfl rfl hlog
  | leave kind' failed n hn hadmin =>
    rw [hcall] at hadmin
    cases hadmin
    exact ⟨fun _ => ⟨hrests, failed, n, rfl⟩, by simp [KVStore.leave]⟩

/-- The steps of the other threads keep away from the log, appends apart. -/
theorem KVStore.Steps.keeps_log (h : KVStore.Steps host hash s l t) (hl : l.isBackground = true)
    (hwal : ∀ w, l ≠ .wal w) (hpath : PathInv s.admin) (hsafe : Faultless host t)
    (hfault : l.isFault = false)
    (hadmin : l = .admin → ∃ epoch pc, s.admin = some ⟨.checkpoint epoch, pc⟩) :
    t.wal = s.wal ∧ ∀ call, s.admin = some call → (∀ epoch, call.kind ≠ .checkpoint epoch) →
      ∃ call', t.admin = some call' ∧ ∀ wal, call'.pc.log wal = call.pc.log wal := by
  -- what a checkpoint does is not asked about
  have hcheckpoint (hl : l = .admin) (hsame : t.wal = s.wal) :
      t.wal = s.wal ∧ ∀ call, s.admin = some call → (∀ epoch, call.kind ≠ .checkpoint epoch) →
        ∃ call', t.admin = some call' ∧ ∀ wal, call'.pc.log wal = call.pc.log wal := by
    refine ⟨hsame, ?_⟩
    intro call hcall hne
    obtain ⟨epoch,pc,ha⟩ := hadmin hl
    rw [hcall] at ha
    cases ha
    exact absurd rfl (hne epoch)
  have hother (hsame : t.wal = s.wal) (ha : t.admin = s.admin) :
      t.wal = s.wal ∧ ∀ call, s.admin = some call → (∀ epoch, call.kind ≠ .checkpoint epoch) →
        ∃ call', t.admin = some call' ∧ ∀ wal, call'.pc.log wal = call.pc.log wal :=
    ⟨hsame, fun call hcall _ => ⟨call, ha.trans hcall, fun _ => rfl⟩⟩
  have hnever {kind : AdminKind} {pc : AdminPc} (ha : s.admin = some ⟨kind,pc⟩) (hl : l = .admin)
      (hno : ∀ epoch, (AdminKind.checkpoint epoch).passes pc = false) : False := by
    obtain ⟨epoch,pc',hc⟩ := hadmin hl
    have hp := hpath _ hc
    rw [ha] at hc
    cases hc
    rw [hno epoch] at hp
    cases hp
  cases h with
  | callThrows | call | lockShard | prepare | acknowledge | rethrow | mutate | count | schedule
  | ret | lockShared | get | enter => cases hl
  | wal w => exact absurd rfl (hwal w)
  | fault => cases hfault
  | rotate kind v ha => exact (hnever ha rfl fun _ => rfl).elim
  | syncTruncation kind v ha => exact (hnever ha rfl fun _ => rfl).elim
  | writeTemp kind data walOffset entries bytes ha =>
    refine ⟨rfl, ?_⟩
    intro call hcall _
    rw [ha] at hcall
    cases hcall
    exact ⟨_, rfl, fun _ => rfl⟩
  | writeTempFails => exact (hsafe.not_thrown (s := s) rfl).elim
  | take | exit | recordError | finish | stop => exact hother rfl rfl
  | enterCheckpoint epoch hworker ha =>
    refine ⟨rfl, ?_⟩
    intro call hcall _
    rw [ha] at hcall
    cases hcall
  | _ => exact hcheckpoint rfl rfl

/-! ### The other threads -/

theorem Engaged.input_ne {command : Command} (h : Engaged talk p command) : talk.input ≠ [] := by
  obtain ⟨-,line,hline,-⟩ := h
  rintro he
  simp [he, getline] at hline

namespace Script

variable (h : Script host hash version total shell talk p) (hlive : Live hash p)

include h

/-- A command that works on the files. -/
theorem kind_of_inside {kind : AdminKind} (hpc : p.pc = .inside kind) :
    (kind = .compactPersistence ∨ kind = .clearPersistence) ∧ 0 < talk.input.length := by
  obtain ⟨command,hat,hexec⟩ :=
    h.serving.follows.engaged (by simp [hpc]) (by simp [hpc]) (by simp [hpc])
  refine ⟨?_, List.length_pos_of_ne_nil hat.input_ne⟩
  rw [hpc] at hexec
  have hkind : command.adminKind = some kind := hexec
  unfold Command.adminKind at hkind
  split at hkind
  · exact .inr (Option.some.inj hkind).symm
  · exact .inl (Option.some.inj hkind).symm
  · cases hkind

/-- The log can be appended to and rotated at any time. -/
theorem logOpen : LogOpen p.store.wal.wal := by
  have hsound := h.within.sound
  have hgen := h.within.generation
  have hlog := h.log
  have hrests {wal : WriteAheadLog} (hr : p.store.wal.Rests wal) (hs : wal.Sound)
      (hg : wal.generation ≠ kMaxUint64) : LogOpen p.store.wal.wal := by
    rw [hr.object]
    exact ⟨hs.outputOpen, hg⟩
  unfold LogAt at hlog
  split at hlog
  · rename_i op hpc
    obtain ⟨pc,-,hpclog⟩ := hlog
    cases pc with
    | locked => exact hrests hpclog hsound (by omega)
    | appending id =>
      obtain ⟨hs,hg⟩ := WalThreads.Appending.sound hpclog hsound
      exact ⟨hs.outputOpen, by omega⟩
    | appended | mutated | counted | scheduled =>
      obtain ⟨wal,happend,hr⟩ := hpclog
      obtain ⟨hs,hg,-⟩ := hsound.append host op
      rw [happend] at hs hg
      exact hrests hr hs (by dsimp only at hg; omega)
  · rename_i kind hpc
    obtain ⟨call,-,hr⟩ := hlog
    have hpos := (h.kind_of_inside hpc).2
    unfold AdminPc.log at hr
    cases hrot : call.pc.rotated with
    | true =>
      rw [hrot, cond_true] at hr
      refine hrests hr hsound.cleared ?_
      change shell.wal.generation+1 ≠ kMaxUint64
      omega
    | false =>
      rw [hrot, cond_false] at hr
      exact hrests hr hsound (by omega)
  · exact hrests hlog hsound (by omega)

/-- With all shards locked the map is that of the last prompt. -/
theorem savable (hroom : p.store.wal.wal.file.length ≤ kMaxStreamoff) {kind : AdminKind} {n : ℕ}
    (hadmin : p.store.admin = some ⟨kind, .locking n⟩) (hn : kShardCount ≤ n) :
    Savable p.store.collectData p.store.wal.wal.file.length := by
  have hall (i : Shard) : p.store.slots i = .admin :=
    (h.serving.lock i).mpr ⟨_, hadmin, i.isLt.trans_le hn⟩
  have htends := h.serving.tends
  unfold Tends at htends
  have hshards : p.store.shards = split (shardIndex hash) talk.map := by
    split at htends
    · obtain ⟨-,pc,hslot,-⟩ := htends
      rw [hall] at hslot
      cases hslot
    · obtain ⟨-,hslot,-⟩ := htends
      rw [hall] at hslot
      cases hslot
    · exact htends.2
  have hdata : p.store.collectData = shell.map := by
    rw [KVStore.collectData, hshards, collect_split, h.map]
  have hcount := h.within.count
  refine ⟨hdata ▸ h.within.fit, ?_, ?_⟩
  · rw [hdata]
    omega
  · simp only [kMaxStreamoff] at hroom
    omega

include hlive

/-- Steps of the other threads, and those of the log and of the snapshot files. -/
theorem background {u : KVStore} (hstep : p.store.step host hash l = some u)
    (hallows : p.allows l = true) (hfault : l.isFault = false) (hsafe : Faultless host u) :
    Script host hash version total shell talk { p with store := u } := by
  have hsteps := KVStore.steps_of_step hstep
  have hl := Program.allows_background hallows
  refine ⟨h.serving.background hsteps hl, h.map, ?_, h.within, h.total⟩
  obtain ⟨-,-,-,hslots⟩ := hsteps.background hl h.serving.lock
  have hlog := h.log
  -- a lock with a writer stays as it is
  have hwriter {i : Shard} {call : WriteCall} (hi : p.store.slots i = .writer call) :
      u.slots i = .writer call := by
    rcases hslots i with hsame | hmoved
    · exact hsame.trans hi
    · rw [hi] at hmoved
      cases hmoved.1
  by_cases hwal : ∃ w, l = .wal w
  · obtain ⟨w,rfl⟩ := hwal
    have hw := Program.allows_writes hallows
    have hfail : ∀ n e, w ≠ .fail n e := by
      rintro n e rfl
      cases hfault
    cases hsteps with
    | wal w wal hprep hstep' =>
      have hno {x : WriteAheadLog} (hr : p.store.wal.Rests x) : False := by
        rw [hr.no_step hw] at hstep'
        cases hstep'
      unfold LogAt at hlog ⊢
      dsimp only
      split at hlog
      · obtain ⟨pc,hslot,hpclog⟩ := hlog
        refine ⟨pc, hslot, ?_⟩
        cases pc with
        | locked => exact (hno hpclog).elim
        | appending id =>
          exact WalThreads.Appending.step hpclog hlive.buffered h.within.sound.outputOpen hw hfail
            hstep'
        | appended | mutated | counted | scheduled =>
          obtain ⟨x,-,hr⟩ := hpclog
          exact (hno hr).elim
      · obtain ⟨call,-,hr⟩ := hlog
        exact (hno hr).elim
      · exact (hno hlog).elim
    | writeTempFails _ _ _ _ _ _ hl => simp at hl
  · have hadmin (he : l = .admin) : ∃ epoch pc, p.store.admin = some ⟨.checkpoint epoch, pc⟩ := by
      subst he
      simp only [Program.allows] at hallows
      split at hallows
      · exact ⟨_, _, ‹_›⟩
      · cases hallows
    obtain ⟨hsame,hcall⟩ :=
      hsteps.keeps_log hl (fun w hw => hwal ⟨w,hw⟩) h.serving.path hsafe hfault hadmin
    unfold LogAt at hlog ⊢
    dsimp only
    rw [hsame]
    split at hlog
    · obtain ⟨pc,hslot,hpclog⟩ := hlog
      exact ⟨pc, hwriter hslot, hpclog⟩
    · rename_i kind hpc
      obtain ⟨call,ha,hr⟩ := hlog
      have hkind : ∀ epoch, call.kind ≠ .checkpoint epoch := by
        obtain ⟨hheld,hne⟩ := hlive.attended.inside kind hpc
        rw [ha] at hheld
        rw [Option.some.inj hheld]
        exact hne
      obtain ⟨call',ha',hlog'⟩ := hcall call ha hkind
      exact ⟨call', ha', by rw [hlog']; exact hr⟩
    · exact hlog

end Script

/-! ### The thread of `main` -/

/-- A process before a prompt serves the dialogue that its own screen shows. -/
theorem Serving.rebase (h : Serving hash talk q) (hpc : q.pc = .prompt) :
    Serving hash ⟨q.store.collectData, q.input, q.output⟩ q := by
  have hmap : q.store.collectData = talk.map := h.collectData (.inl hpc)
  refine ⟨h.lock, h.path, h.calling, ?_, ?_⟩
  · rw [hmap]
    exact h.tends
  · unfold Follows
    rw [hpc]
    exact ⟨rfl, rfl⟩

theorem Advances.rebase (h : Advances hash version talk q) (hpc : q.pc = .prompt) :
    Serving hash ⟨q.store.collectData, q.input, q.output⟩ q := by
  rcases h with hsame | ⟨-,talk',-,hnext⟩
  · exact hsame.rebase hpc
  · exact hnext.rebase hpc

theorem Advances.stays (h : Advances hash version talk q) (hpc : q.pc ≠ .prompt) :
    Serving hash talk q := by
  rcases h with hsame | ⟨hprompt,-⟩
  · exact hsame
  · exact absurd hprompt hpc

/-- The process is at some command of the session. -/
def Scripted (host : ByteOrder) (hash : Bytes → ℕ) (version : Bytes) (total : Bytes × Shell)
    (p : Program) : Prop :=
  ∃ shell talk, Script host hash version total shell talk p

namespace Script

variable {detail : Bytes} (h : Script host hash version total shell talk p)

include h

theorem stays (hadv : Advances hash version talk q) (hpc : q.pc ≠ .prompt)
    (hlog : LogAt host hash shell q) : Scripted host hash version total q :=
  ⟨shell, talk, hadv.stays hpc, h.map, hlog, h.within, h.total⟩

/-- A command is answered as the program without threads answers it. -/
theorem answered {line : Bytes} {command : Command} (hadv : Advances hash version talk q)
    (hpc : q.pc = .prompt) (hline : getline talk.input = some (line,q.input))
    (hparse : parse line = some command) (hexit : command.type ≠ .exit)
    (hout : q.output = talk.output ++ kPrompt ++ (shell.execute host version command).1)
    (hmap : q.store.collectData = (shell.execute host version command).2.map)
    (hlog : q.store.wal.Rests (shell.execute host version command).2.wal) :
    Scripted host hash version total q := by
  have hlen := getline_length hline
  refine ⟨_, _, hadv.rebase hpc, hmap, ?_, ?_, ?_⟩
  · unfold LogAt
    rw [hpc]
    exact hlog
  · exact (h.within.mono hlen).execute command
  · rw [h.total, Shell.session_command hline hparse hexit, hout]
    simp only [List.append_assoc]

/-- The same, once the thread is at the command. -/
theorem engaged_answered {command : Command} (hadv : Advances hash version talk q)
    (hat : Engaged talk p command) (hexit : command.type ≠ .exit) (hpc : q.pc = .prompt)
    (hinput : q.input = p.input)
    (hout : q.output = p.output ++ (shell.execute host version command).1)
    (hmap : q.store.collectData = (shell.execute host version command).2.map)
    (hlog : q.store.wal.Rests (shell.execute host version command).2.wal) :
    Scripted host hash version total q := by
  obtain ⟨hprompt,line,hline,hparse⟩ := hat
  rw [← hinput] at hline
  exact h.answered hadv hpc hline hparse hexit (by rw [hout, hprompt]) hmap hlog

theorem reading {line rest : Bytes} {command : Command} (hpc : p.pc = .reading)
    (hline : getline p.input = some (line,rest)) (hparse : parse line = some command)
    (hadv : Advances hash version talk (Program.execute version { p with input := rest } command)) :
    Scripted host hash version total
      (Program.execute version { p with input := rest } command) := by
  have hlog : p.store.wal.Rests shell.wal := by
    have hlog := h.log
    unfold LogAt at hlog
    rwa [hpc] at hlog
  obtain ⟨hinput,houtput⟩ : p.input = talk.input ∧ p.output = talk.output ++ kPrompt := by
    have hf := h.serving.follows
    unfold Follows at hf
    rwa [hpc] at hf
  have hmap : p.store.collectData = shell.map :=
    (h.serving.collectData (.inr (.inl hpc))).trans h.map
  rw [hinput] at hline
  have hgo {pc : ServerPc} (hq : Program.execute version { p with input := rest } command =
        { p with input := rest, pc := pc })
      (hne : pc ≠ .prompt) (hwriting : ∀ op, pc ≠ .writing op)
      (hinside : ∀ kind, pc ≠ .inside kind) :
      Scripted host hash version total
        (Program.execute version { p with input := rest } command) := by
    refine h.stays hadv (by rw [hq]; exact hne) ?_
    rw [hq]
    unfold LogAt
    dsimp only
    split
    · exact absurd rfl (hwriting _)
    · exact absurd rfl (hinside _)
    · exact hlog
  have hsay {text : Bytes} (hq : Program.execute version { p with input := rest } command =
        Program.answer { p with input := rest } text)
      (hshell : shell.execute host version command = (text,shell)) (hexit : command.type ≠ .exit) :
      Scripted host hash version total
        (Program.execute version { p with input := rest } command) := by
    refine h.answered hadv (by rw [hq]; rfl) (by rw [hq]; exact hline) hparse hexit ?_ ?_ ?_
    · rw [hq, hshell, ← houtput]
      rfl
    · rw [hq, hshell]
      exact hmap
    · rw [hq, hshell]
      exact hlog
  by_cases hvalid : command.isValid = false
  · refine hsay (by rw [Program.execute, if_pos hvalid]) (by rw [Shell.execute, if_pos hvalid]) ?_
    intro hexit
    simp [Command.isValid, hexit] at hvalid
  · cases ht : command.type with
    | set | get | del | clearPersistence | compactPersistence | info =>
      exact hgo (by rw [Program.execute, if_neg hvalid, ht]) (by simp) (by simp) (by simp)
    | help =>
      exact hsay (by rw [Program.execute, if_neg hvalid, ht])
        (by rw [Shell.execute, if_neg hvalid, ht]) (by simp [ht])
    | exit =>
      refine h.stays hadv (by simp [Program.execute, hvalid, ht]) ?_
      simp only [Program.execute, if_neg hvalid, ht]
      exact hlog
    | invalid => simp [Command.isValid, ht] at hvalid

/-- A step of a `Set` or `Delete` that has the lock of its shard. -/
theorem writing {op : WalRecord} (hlive : Live hash p) (hpc : p.pc = .writing op)
    (hstep : p.store.step host hash (.caller (shardIndex hash op.key)) = some s)
    (hadv : Advances hash version talk (p.written hash op detail s)) :
    Scripted host hash version total (p.written hash op detail s) := by
  obtain ⟨command,hat,hexec⟩ :=
    h.serving.follows.engaged (by simp [hpc]) (by simp [hpc]) (by simp [hpc])
  have hcommand : command.op = some op := by simpa [hpc, ServerPc.executes] using hexec
  have hshell : shell.execute host version command = shell.write host op :=
    Shell.execute_op hcommand
  have htends := h.serving.tends
  unfold Tends at htends
  rw [hpc] at htends
  obtain ⟨-,pc,hslot,hmap⟩ := htends
  have hlog := h.log
  unfold LogAt at hlog
  rw [hpc] at hlog
  obtain ⟨pc',hslot',hlog⟩ := hlog
  obtain rfl : pc' = pc := by
    rw [hslot] at hslot'
    cases hslot'
    rfl
  -- the call goes on under its lock
  have hgo {pc' : WritePc} (hthrown : p.store.thrown (shardIndex hash op.key) = none)
      (hreturned : s.returned = p.store.returned)
      (hslots : s.slots (shardIndex hash op.key) = .writer ⟨op,pc'⟩)
      (hlog' : pc'.LogAt host shell.wal op s.wal) :
      Scripted host hash version total (p.written hash op detail s) := by
    rw [Program.written_goes hthrown hreturned] at hadv ⊢
    refine h.stays hadv (by simp [hpc]) ?_
    unfold LogAt
    dsimp only
    rw [hpc]
    exact ⟨pc', hslots, hlog'⟩
  -- it returns
  have hret {call : Returned} {erased : Bool}
      (hthrown : p.store.thrown (shardIndex hash op.key) = none)
      (hreturned : s.returned = p.store.returned ++ [call]) (herased : call.erased = erased)
      (hwal : s.wal = p.store.wal) (hshards : s.shards = p.store.shards)
      (hrests : ∃ wal, shell.wal.append host op = (.ok (), wal) ∧ p.store.wal.Rests wal)
      (hmap' : p.store.shards = split (shardIndex hash) (applyOp op talk.map) ∧
        writeAnswer op erased = writeAnswer op (talk.map.lookup op.key).isSome) :
      Scripted host hash version total (p.written hash op detail s) := by
    obtain ⟨wal,happend,hr⟩ := hrests
    have hwrite : shell.write host op =
        (writeAnswer op (shell.map.lookup op.key).isSome, ⟨applyOp op shell.map, wal⟩) := by
      rw [Shell.write, happend]
    rw [Program.written_returns hthrown hreturned] at hadv ⊢
    refine h.engaged_answered hadv hat hexec.not_exit rfl rfl ?_ ?_ ?_
    · rw [hshell, hwrite, herased, hmap'.2, h.map]
      rfl
    · rw [hshell, hwrite, ← h.map]
      change collect s.shards = _
      rw [hshards, hmap'.1, collect_split]
    · rw [hshell, hwrite]
      change s.wal.Rests wal
      rw [hwal]
      exact hr
  change p.store.callerStep host _ = some s at hstep
  unfold KVStore.callerStep at hstep
  rw [hslot] at hstep
  cases pc' with
  | locked =>
    obtain ⟨wal,hwal,rfl⟩ := Option.map_eq_some_iff.mp hstep
    refine hgo (by simp [KVStore.thrown, hslot]) rfl (Function.update_self ..) ?_
    have hnone : p.store.wal.results.find? (fun r => r.1 == p.store.wal.nextId) = none := by
      rw [List.find?_eq_none]
      intro x hx hid
      have hlt := WalThreads.id_lt_of_result hlive.steady.running.own.ids hx
      rw [beq_iff_eq.mp hid] at hlt
      exact Nat.lt_irrefl _ hlt
    exact WalThreads.Rests.prepare hlog hnone hwal
  | appending id =>
    dsimp only at hstep
    split at hstep
    · cases hstep
    · rename_i hfind
      obtain rfl := Option.some.inj hstep
      obtain ⟨happend,hr⟩ := WalThreads.Appending.of_ok hlog hfind
      exact hgo (by simp [KVStore.thrown, hslot, hfind]) rfl (Function.update_self ..)
        ⟨_, happend, hr⟩
    · rename_i e hfind
      obtain rfl := Option.some.inj hstep
      obtain ⟨happend,hr⟩ := WalThreads.Appending.of_error hlog hfind
      have hown : e.isOwn = true :=
        (h.within.sound.append host op).2.2.2 e (by rw [happend])
      have hwrite :
          shell.write host op = (errorLine (e.what []), ⟨shell.map, p.store.wal.wal⟩) := by
        rw [Shell.write, happend]
      have hthrown : p.store.thrown (shardIndex hash op.key) = some e := by
        simp [KVStore.thrown, hslot, hfind]
      rw [Program.written_throws hthrown] at hadv ⊢
      refine h.engaged_answered hadv hat hexec.not_exit rfl rfl ?_ ?_ ?_
      · rw [hshell, hwrite, e.what_of_isOwn hown]
        rfl
      · rw [hshell, hwrite, ← h.map]
        change collect p.store.shards = _
        have hmap' : p.store.shards = split (shardIndex hash) talk.map := hmap
        rw [hmap', collect_split]
      · rw [hshell, hwrite]
        exact hr
  | appended id =>
    obtain rfl := Option.some.inj hstep
    exact hgo (by simp [KVStore.thrown, hslot]) rfl (Function.update_self ..) hlog
  | mutated id erased =>
    obtain rfl := Option.some.inj hstep
    exact hgo (by simp [KVStore.thrown, hslot]) rfl (Function.update_self ..) hlog
  | counted id erased due =>
    cases due with
    | true =>
      obtain rfl := Option.some.inj hstep
      exact hgo (by simp [KVStore.thrown, hslot]) rfl (Function.update_self ..) hlog
    | false =>
      obtain rfl := Option.some.inj hstep
      exact hret (by simp [KVStore.thrown, hslot]) rfl rfl rfl rfl hlog hmap
  | scheduled id erased =>
    obtain rfl := Option.some.inj hstep
    exact hret (by simp [KVStore.thrown, hslot]) rfl rfl rfl rfl hlog hmap

/-- A step of a call that holds `snapshot_mutex_` for the thread of `main`. -/
theorem inside {kind : AdminKind} (hlive : Live hash p) (hfree : Faultless host p.store)
    (hsafe : Faultless host s) (hpc : p.pc = .inside kind)
    (hstep : p.store.step host hash .admin = some s)
    (hadv : Advances hash version talk (p.administered kind detail s)) :
    Scripted host hash version total (p.administered kind detail s) := by
  have hsteps := KVStore.steps_of_step hstep
  obtain ⟨command,hat,hexec⟩ :=
    h.serving.follows.engaged (by simp [hpc]) (by simp [hpc]) (by simp [hpc])
  have hcommand : command.adminKind = some kind := by simpa [hpc, ServerPc.executes] using hexec
  obtain ⟨hkind,hpos⟩ := h.kind_of_inside hpc
  have hlog := h.log
  unfold LogAt at hlog
  rw [hpc] at hlog
  obtain ⟨⟨kind',pc⟩,hcall,hrests⟩ := hlog
  obtain rfl : kind' = kind := by
    have hheld := (hlive.attended.inside kind hpc).1
    rw [hcall] at hheld
    exact Option.some.inj hheld
  obtain ⟨hend,hgoes⟩ := hsteps.admin_log hcall hkind h.serving.path hsafe hrests
  unfold Program.administered at hadv ⊢
  split at hadv
  · rename_i call hcall'
    refine h.stays hadv (by simp [hpc]) ?_
    unfold LogAt
    dsimp only
    rw [hpc]
    exact ⟨call, hcall', hgoes call hcall'⟩
  · rename_i hnone
    obtain ⟨hr,failed,n,rfl⟩ := hend hnone
    -- without an exception behind it
    obtain rfl : failed = false := hfree.safe _ _ hcall
    have hfailing : p.store.failing = false := by simp [KVStore.failing, hcall]
    obtain ⟨hclear,-⟩ := (h.within.mono hpos).administer kind'
    have hshell : shell.execute host version command =
        (adminAnswer kind', ⟨shell.map, shell.wal.cleared⟩) :=
      (Shell.execute_admin hcommand).trans hclear
    have hshards : s.shards = p.store.shards := (hsteps.background rfl h.serving.lock).1
    have htends := h.serving.tends
    unfold Tends at htends
    rw [hpc] at htends
    refine h.engaged_answered hadv hat hexec.not_exit rfl rfl ?_ ?_ ?_
    · rw [hshell]
      simp [Program.answer, hfailing]
    · rw [hshell, ← h.map]
      change collect s.shards = _
      rw [hshards, htends.2, collect_split]
    · rw [hshell]
      exact hr

/-- One step of the thread of `main`. -/
theorem server (hlive : Live hash p) (hfree : Faultless host p.store)
    (hsafe : Faultless host q.store) (hstep : p.serverStep host hash version detail = some q) :
    Scripted host hash version total q := by
  have hadv := h.serving.server hstep
  have hengaged := h.serving.follows.engaged
  have htends := h.serving.tends
  have hlog := h.log
  unfold Tends at htends
  unfold LogAt at hlog
  unfold Program.serverStep at hstep
  split at hstep <;> rename_i hpc <;> rw [hpc] at hengaged htends hlog
  · obtain rfl := Option.some.inj hstep
    exact h.stays hadv (by simp) hlog
  · split at hstep
    · obtain rfl := Option.some.inj hstep
      exact h.stays hadv (by simp) hlog
    · rename_i line rest hline
      obtain ⟨command,hparse,rfl⟩ := Option.map_eq_some_iff.mp hstep
      exact h.reading hpc hline hparse hadv
  · rw [hfree.error] at hstep
    simp only [Bool.false_eq_true, if_false, KVStore.step, hfree.error] at hstep
    obtain rfl := Option.some.inj hstep
    exact h.stays hadv (by simp) hlog
  · obtain ⟨s,hs,rfl⟩ := Option.map_eq_some_iff.mp hstep
    cases KVStore.steps_of_step hs with
    | lockShard op hcall hslot =>
      exact h.stays hadv (by simp) ⟨.locked, Function.update_self .., hlog⟩
    | writeTempFails _ _ _ _ _ _ hl => simp at hl
  · obtain ⟨s,hs,rfl⟩ := Option.map_eq_some_iff.mp hstep
    exact h.writing hlive hpc hs hadv
  · obtain ⟨s,hs,rfl⟩ := Option.map_eq_some_iff.mp hstep
    cases KVStore.steps_of_step hs with
    | lockShared key keys hslot => exact h.stays hadv (by simp) hlog
    | writeTempFails _ _ _ _ _ _ hl => simp at hl
  · rename_i key
    obtain ⟨command,hat,hexec⟩ := hengaged (by simp) (by simp) (by simp)
    obtain ⟨htype,rfl⟩ : command.type = .get ∧ command.key = key := hexec
    obtain ⟨s,hs,rfl⟩ := Option.map_eq_some_iff.mp hstep
    have hshell : shell.execute host version command =
        (getAnswer (shell.map.lookup command.key), shell) := by
      simp [Shell.execute, Command.isValid, htype]
    cases KVStore.steps_of_step hs with
    | get key value keys hslot hvalue =>
      refine h.engaged_answered hadv hat (by simp [htype]) rfl rfl ?_ ?_ ?_
      · rw [hshell, htends.2.2, lookup_split, h.map]
        rfl
      · rw [hshell, ← h.map]
        change collect p.store.shards = _
        rw [htends.2.2, collect_split]
      · rw [hshell]
        exact hlog
    | writeTempFails _ _ _ _ _ _ hl => simp at hl
  · obtain ⟨s,hs,rfl⟩ := Option.map_eq_some_iff.mp hstep
    cases KVStore.steps_of_step hs with
    | enter kind hkind hadmin => exact h.stays hadv (by simp) ⟨_, rfl, hlog⟩
    | writeTempFails _ _ _ _ _ _ hl => simp at hl
  · obtain ⟨s,hs,rfl⟩ := Option.map_eq_some_iff.mp hstep
    rw [Program.administered_store] at hsafe
    exact h.inside hlive hfree hsafe hpc hs hadv
  · split_ifs at hstep
    obtain rfl := Option.some.inj hstep
    obtain ⟨command,hat,hexec⟩ := hengaged (by simp) (by simp) (by simp)
    have htype : command.type = .info := hexec
    have hshell : shell.execute host version command =
        (printInfo version shell.map.keys.card, shell) := by
      simp [Shell.execute, Command.isValid, htype]
    refine h.engaged_answered hadv hat (by simp [htype]) rfl rfl ?_ ?_ ?_
    · rw [hshell, htends.2, totalSize_split, h.map]
      rfl
    · rw [hshell, ← h.map]
      change collect p.store.shards = _
      rw [htends.2, collect_split]
    · rw [hshell]
      exact hlog
  · cases hstep

end Script

/-! ### Every run -/

/-- What holds in every run without a fault. -/
structure Orderly (host : ByteOrder) (hash : Bytes → ℕ) (version : Bytes) (total : Bytes × Shell)
    (p : Program) : Prop where
  live : Live hash p
  faultless : Faultless host p.store
  room : p.store.wal.wal.file.length ≤ kMaxStreamoff
  scripted : Scripted host hash version total p

/-- The store without faults. -/
theorem Program.step_faultless {l : ProgramLabel} (hfault : l.isFault = false)
    (h : p.step host hash version l = some q) : q.store = p.store ∨
      ∃ k, p.store.step host hash k = some q.store ∧ k.isFault = false ∧
        ∀ w, k = .wal w → w.writes = true ∧ ∀ n e, w ≠ .fail n e := by
  rcases Program.step_label h with hsame | ⟨k,hk,⟨rfl,hallows⟩ | ⟨hserver,-⟩⟩
  · exact .inl hsame
  · refine .inr ⟨k, hk, hfault, ?_⟩
    rintro w rfl
    refine ⟨Program.allows_writes hallows, ?_⟩
    rintro n e rfl
    cases hfault
  · refine .inr ⟨k, hk, ?_, ?_⟩
    · cases k <;> first | rfl | cases hserver
    · rintro w rfl
      cases hserver

/-- The file stays as short as the system can hold it. -/
theorem KVStore.Steps.room (h : KVStore.Steps host hash s l t)
    (hroom : s.wal.wal.file.length ≤ kMaxStreamoff)
    (hwal : ∀ w, l = .wal w → w.writes = true ∧ ∀ n e, w ≠ .fail n e) :
    t.wal.wal.file.length ≤ kMaxStreamoff := by
  cases h with
  | prepare i op wal hslot hstep =>
    cases WalThreads.steps_of_step hstep <;> exact hroom
  | wal w wal hprep hstep =>
    obtain ⟨hw,hfail⟩ := hwal w rfl
    exact WalThreads.step_room hroom (.inl hw) hfail hstep
  | rotate kind wal hadmin hstep =>
    exact WalThreads.step_room hroom (.inr (.inl rfl)) (by simp) hstep
  | syncTruncation kind wal hadmin hstep =>
    rcases hstep with hstep | ⟨rfl,-⟩
    · exact WalThreads.step_room hroom (.inr (.inr rfl)) (by simp) hstep
    · exact hroom
  | _ => exact hroom

theorem Orderly.step {l : ProgramLabel} (h : Orderly host hash version total p)
    (hfault : l.isFault = false) (hstep : p.step host hash version l = some q) :
    Orderly host hash version total q := by
  obtain ⟨shell,talk,hscript⟩ := h.scripted
  have hsafe : Faultless host q.store ∧ q.store.wal.wal.file.length ≤ kMaxStreamoff := by
    rcases Program.step_faultless hfault hstep with hsame | ⟨k,hk,hno,hwal⟩
    · rw [hsame]
      exact ⟨h.faultless, h.room⟩
    · exact ⟨h.faultless.step hk hno hscript.logOpen fun _ _ => hscript.savable h.room,
        (KVStore.steps_of_step hk).room h.room hwal⟩
  refine ⟨(Live.ranked p l q h.live hstep).1, hsafe.1, hsafe.2, ?_⟩
  cases l with
  | server detail => exact hscript.server h.live h.faultless hsafe.1 hstep
  | store k =>
    simp only [Program.step] at hstep
    split at hstep
    · rename_i hallows
      obtain ⟨u,hu,rfl⟩ := Option.map_eq_some_iff.mp hstep
      have hno := hfault
      exact ⟨shell, talk, hscript.background h.live hu hallows hno hsafe.1⟩
    · cases hstep

/-! ### The process -/

theorem fieldsFit_storeOf {entries : List (Bytes × Bytes)} (h : EntriesFit entries) :
    FieldsFit (storeOf entries) := by
  intro k v hv
  rw [storeOf, foldl_insert_eq, lookup_applyOps] at hv
  cases he : lastEffect k (entries.map fun entry => Op.set entry.1 entry.2) with
  | none =>
    rw [he] at hv
    simp at hv
  | some e =>
    rw [he, Option.getD_some] at hv
    obtain ⟨op,hop,hk,heffect⟩ := lastEffect_mem he
    obtain ⟨entry,hentry,rfl⟩ := List.mem_map.mp hop
    obtain rfl : entry.1 = k := hk
    rw [hv] at heffect
    rw [← Option.some.inj heffect]
    exact h entry hentry

theorem fieldsFit_of_load {file : Option Bytes} {result : SnapshotLoadResult} {data : Store}
    (h : loadSnapshot host file ∅ = .ok (result,data)) : FieldsFit data := by
  by_cases hlong : ∃ bytes, file = some bytes ∧ 4 ≤ bytes.length
  · obtain ⟨bytes,rfl,hlen⟩ := hlong
    rcases loadSnapshot_of_long hlen ∅ with ⟨e,he⟩ | ⟨entries,walOffset,hholds,hload⟩
    · rw [h] at he
      cases he
    · rw [h] at hload
      cases hload
      exact fieldsFit_storeOf hholds.2.2.1
  · have hshort : ∀ bytes, file = some bytes → bytes.length < 4 := by
      intro bytes hb
      by_contra hlen
      exact hlong ⟨bytes, hb, Nat.le_of_not_lt hlen⟩
    rw [loadSnapshot_of_short hshort] at h
    cases h
    exact fieldsFit_empty

theorem FieldsFit.replay {b : Bytes} {offset : ℕ} {data m : Store} {r : WalReplayResult}
    (hfit : FieldsFit data) (h : replayFromDetailed host b offset data = .ok (r,m)) :
    FieldsFit m := by
  have hloop {portable : Bool} {start : ℕ} {st : ReplayState} (hst : st.store = data)
      (hm : (Except.ok (replayLoop host b portable start st) : Except WalError _) = .ok (r,m)) :
      FieldsFit m := by
    obtain ⟨s,ops,rest,r',-,hok,-,-,hend⟩ := replayLoop_cases host portable b start st
    rw [hend, hst] at hm
    obtain ⟨-,rfl⟩ := Prod.mk.inj (Except.ok.inj hm)
    exact hfit.applyOps hok
  unfold replayFromDetailed at h
  dsimp only at h
  split at h
  · cases h
  split at h
  · cases h
    exact hfit
  split at h
  · split at h
    · cases h
      exact hfit
    · exact hloop rfl h
  · exact hloop rfl h

/-- Startup takes only entries that a snapshot can hold. -/
theorem fieldsFit_main {disk : Disk} {input : Bytes}
    (h : main host hash version disk input = .ok p) : FieldsFit p.store.collectData := by
  unfold main at h
  split at h
  · cases h
  split at h
  · cases h
  rename_i result data hload
  split at h
  · cases h
  rename_i replay m hreplay
  obtain rfl := Except.ok.inj h
  rw [KVStore.collectData_start]
  exact (fieldsFit_of_load hload).replay hreplay

theorem sound_of_openWal {b : Bytes} {policy : DurabilityPolicy} {maxBatch : ℕ}
    {wal : WriteAheadLog} (h : openWal host b policy maxBatch = .ok wal) : wal.Sound := by
  refine ⟨?_, ?_⟩
  · unfold openWal at h
    dsimp only at h
    repeat' split at h
    all_goals cases h
    all_goals rfl
  · simp [(openWal_fields h).2.2.2]

theorem Farewell.session {text : Bytes} (h : Farewell talk text) (shell : Shell) (host : ByteOrder)
    (version : Bytes) : shell.session host version talk.input = (kPrompt ++ text, shell) := by
  cases h with
  | eof heof => exact Shell.session_eof heof
  | exit hline hparse hexit => exact Shell.session_exit hline hparse hexit

/-- Without faults the threads do not show: once startup has succeeded, whatever the interleaving,
no checkpoint, save or compaction fails, the process prints the beginning of what the program
without threads prints on the same files and input, and when it has left its loop it has printed
all of that and leaves the same entries and the same log. The input must be too short to use up the
entries of a snapshot or the generations of the log. -/
theorem faultless_screen_is_sequential {disk : Disk} {input : Bytes} {ls : List ProgramLabel}
    (hmain : main host hash version disk input = .ok p) (hroom : disk.wal.length ≤ kMaxStreamoff)
    (hcount : p.store.collectData.keys.card+input.length < 2^32)
    (hgeneration : p.store.wal.wal.generation+input.length < kMaxUint64)
    (hfault : ∀ l ∈ ls, l.isFault = false)
    (hrun : run (Program.step host hash version) p ls = some q) :
    let session := Shell.session host version ⟨p.store.collectData, p.store.wal.wal⟩ input
    q.store.checkpointError = false ∧ (∀ kind n, q.store.admin ≠ some ⟨kind,.unlocking true n⟩) ∧
      q.output <+: p.output ++ session.1 ∧
      (q.pc = .done → q.output = p.output ++ session.1 ∧
        q.store.collectData = session.2.map ∧ q.store.wal.wal = session.2.wal) := by
  intro session
  obtain ⟨-,hinput,hpc,wal,m,hwal,hstore⟩ := main_eq hmain
  have hstart : Orderly host hash version (p.output ++ session.1, session.2) p := by
    refine ⟨(live_main hmain).1, ?_, ?_, ⟨p.store.collectData, p.store.wal.wal⟩,
      ⟨p.store.collectData, input, p.output⟩, serving_main hmain, ?_, ?_, ?_, ?_⟩
    · rw [hstore]
      exact faultless_start wal m disk.snapshot disk.temp
    · rw [hstore]
      change wal.file.length ≤ kMaxStreamoff
      rwa [(openWal_fields hwal).1]
    · rfl
    · unfold LogAt
      rw [hpc, hstore]
      exact ⟨rfl, rfl, rfl⟩
    · refine ⟨?_, fieldsFit_main hmain, hcount, hgeneration⟩
      rw [hstore]
      exact sound_of_openWal hwal
    · rfl
  have hend : Orderly host hash version (p.output ++ session.1, session.2) q :=
    run_invariant (fun _ _ _ hl h hstep => h.step hl hstep) hfault hrun hstart
  obtain ⟨shell,talk,hscript⟩ := hend.scripted
  have hfollows := hscript.serving.follows
  -- the end of the session, seen from the last prompt
  obtain ⟨hout,hlast⟩ := Prod.mk.inj hscript.total
  unfold Follows at hfollows
  refine ⟨hend.faultless.error, ?_, ?_, ?_⟩
  · intro kind n hadmin
    cases hend.faultless.safe kind _ hadmin
  · rw [hout]
    split at hfollows
    · rw [hfollows.2]
      exact List.prefix_append ..
    · rw [hfollows.2]
      exact (List.prefix_append_right_inj _).mpr (Shell.session_prompt shell talk.input)
    · obtain ⟨text,hbye,htext⟩ := hfollows
      rw [htext, hbye.session, List.append_assoc]
    · rw [hfollows.1]
      exact (List.prefix_append_right_inj _).mpr (Shell.session_prompt shell talk.input)
  · intro hdone
    rw [hdone] at hfollows
    obtain ⟨text,hbye,htext⟩ := hfollows
    have hlog := hscript.log
    unfold LogAt at hlog
    rw [hdone] at hlog
    rw [hout, hlast, hbye.session]
    refine ⟨by rw [htext, List.append_assoc], ?_, hlog.object⟩
    exact (hscript.serving.collectData (.inr (.inr hdone))).trans hscript.map

/-- A `SET`, a `GET` and the end of the input. -/
def setThenGet : List ProgramLabel :=
  List.replicate 5 (.server []) ++
    [WalLabel.submit 0, .writeHeader, .writeFrames, .finish].map (fun w => .store (.wal w)) ++
    List.replicate 10 (.server [])

theorem screen_after_set_and_get :
    ∃ p q,
      main .little (fun _ => 0) (ascii "1") ⟨[], none, none⟩ (ascii "SET a b\nGET a\n") = .ok p ∧
      run (Program.step .little (fun _ => 0) (ascii "1")) p setThenGet = some q ∧ q.pc = .done ∧
      q.store.checkpointError = false ∧
      q.output = p.output ++ ascii "kv-store> OK\nkv-store> b\nkv-store> \n" ∧
      q.output = p.output ++ (Shell.session .little (ascii "1")
        ⟨p.store.collectData, p.store.wal.wal⟩ (ascii "SET a b\nGET a\n")).1 := by
  have hall : ((main .little (fun _ => 0) (ascii "1") ⟨[], none, none⟩
      (ascii "SET a b\nGET a\n")).toOption.bind fun p =>
        (run (Program.step .little (fun _ => 0) (ascii "1")) p setThenGet).map fun q =>
          decide (q.pc = .done ∧
            q.output = p.output ++ ascii "kv-store> OK\nkv-store> b\nkv-store> \n" ∧
            p.store.collectData.keys.card = 0 ∧ p.store.wal.wal.generation = 1)) = some true := by
    decide +kernel
  obtain ⟨p,hp,hall⟩ := Option.bind_eq_some_iff.mp hall
  obtain ⟨q,hq,hend⟩ := Option.map_eq_some_iff.mp hall
  have hp := eq_ok_of_toOption hp
  obtain ⟨hdone,hout,hcard,hgen⟩ := of_decide_eq_true hend
  obtain ⟨herror,-,-,hscreen⟩ := faultless_screen_is_sequential hp (by decide)
    (by rw [hcard]; decide) (by rw [hgen]; decide) (by decide) hq
  exact ⟨p, q, hp, hq, hdone, herror, hout, (hscreen hdone).1⟩

end ConcurrentKV
