import ConcurrentKV.CliServer
import ConcurrentKV.KVLocks

/-! Whatever the worker does meanwhile and whatever fails, what stands on the screen is a dialogue
with a single map: every command is answered with what it finds there, and a command that is
answered with an error has changed nothing. -/
namespace ConcurrentKV
open ByteCodec OpLog Sharding Transition

/-- The dialogue as its user sees it: the entries, what is still to be read, and the screen. -/
structure Talk where
  map : Store
  input : Bytes
  output : Bytes

/-- The change a command asks for. -/
def Command.op (command : Command) : Option WalRecord :=
  match command.type with
  | .set => some (.set command.key command.value)
  | .del => some (.delete command.key)
  | _ => none

/-- The call of a command that works on the files alone. -/
def Command.adminKind (command : Command) : Option AdminKind :=
  match command.type with
  | .clearPersistence => some .clearPersistence
  | .compactPersistence => some .compactPersistence
  | _ => none

/-- What a command may be answered with over the map `m`, and the map behind it. -/
inductive Answers (version : Bytes) (command : Command) (m : Store) : Bytes → Store → Prop where
  | invalid (h : command.isValid = false) :
      Answers version command m (errorLine (ascii command.errorMessage)) m
  | write (op : WalRecord) (h : command.op = some op) :
      Answers version command m (writeAnswer op (m.lookup op.key).isSome) (applyOp op m)
  | get (h : command.type = .get) :
      Answers version command m (getAnswer (m.lookup command.key)) m
  | admin (kind : AdminKind) (h : command.adminKind = some kind) :
      Answers version command m (adminAnswer kind) m
  | failed (what : Bytes) (h : command.op.isSome = true ∨ command.adminKind.isSome = true) :
      Answers version command m (errorLine what) m
  | info (h : command.type = .info) : Answers version command m (printInfo version m.keys.card) m
  | help (h : command.type = .help) : Answers version command m (printHelp version) m

/-- A prompt, a line and its answer. -/
inductive Exchange (version : Bytes) : Talk → Talk → Prop where
  | mk {talk : Talk} {line rest answer : Bytes} {command : Command} {m : Store}
      (hline : getline talk.input = some (line,rest)) (hparse : parse line = some command)
      (hexit : command.type ≠ .exit) (hanswer : Answers version command talk.map answer m) :
      Exchange version talk ⟨m, rest, talk.output ++ kPrompt ++ answer⟩

/-- Any number of exchanges. -/
abbrev Dialogue (version : Bytes) : Talk → Talk → Prop := Relation.ReflTransGen (Exchange version)

/-- The thread is executing the command. -/
def ServerPc.executes : ServerPc → Command → Prop
  | .checking op, command | .waiting op, command | .writing op, command => command.op = some op
  | .locating key, command | .finding key, command => command.type = .get ∧ command.key = key
  | .entering kind, command | .inside kind, command => command.adminKind = some kind
  | .sizing, command => command.type = .info
  | .prompt, _ | .reading, _ | .done, _ => False

/-- The end of the dialogue: the input is at its end, or the next line leaves. -/
inductive Farewell (talk : Talk) : Bytes → Prop where
  | eof (h : getline talk.input = none) : Farewell talk [newline]
  | exit {line rest : Bytes} {command : Command} (hline : getline talk.input = some (line,rest))
      (hparse : parse line = some command) (hexit : command.type = .exit) :
      Farewell talk (ascii "Bye\n")

/-- The process is behind the exchanges of `talk`, and nothing else stands on its screen. -/
def Follows (talk : Talk) (p : Program) : Prop :=
  match p.pc with
  | .prompt => p.input = talk.input ∧ p.output = talk.output
  | .reading => p.input = talk.input ∧ p.output = talk.output ++ kPrompt
  | .done => ∃ text, Farewell talk text ∧ p.output = talk.output ++ kPrompt ++ text
  | pc => p.output = talk.output ++ kPrompt ∧ ∃ line command,
      getline talk.input = some (line,p.input) ∧ parse line = some command ∧ pc.executes command

/-- The lock is free or with the thread that locks all shards. -/
def Slot.rests : Slot → Bool
  | .readers [] | .admin => true
  | _ => false

/-- What `Delete` has found, once the map is changed. -/
def WritePc.found : WritePc → Option Bool
  | .mutated _ erased | .counted _ erased _ | .scheduled _ erased => some erased
  | _ => none

/-- The entries and the shard locks. Only the thread of `main` reads or writes entries. -/
def Tends (hash : Bytes → ℕ) (m : Store) (p : Program) : Prop :=
  match p.pc with
  | .writing op => (∀ j, j ≠ shardIndex hash op.key → (p.store.slots j).rests = true) ∧
    ∃ pc, p.store.slots (shardIndex hash op.key) = .writer ⟨op,pc⟩ ∧
      match pc.found with
      | none => p.store.shards = split (shardIndex hash) m
      | some erased => p.store.shards = split (shardIndex hash) (applyOp op m) ∧
        writeAnswer op erased = writeAnswer op (m.lookup op.key).isSome
  | .finding key => (∀ j, j ≠ shardIndex hash key → (p.store.slots j).rests = true) ∧
    p.store.slots (shardIndex hash key) = .readers [key] ∧
    p.store.shards = split (shardIndex hash) m
  | _ => (∀ j, (p.store.slots j).rests = true) ∧ p.store.shards = split (shardIndex hash) m

/-- The calls that wait for a shard. -/
def ServerPc.calling : ServerPc → List WalRecord
  | .waiting op => [op]
  | _ => []

/-- The process serves the dialogue. -/
structure Serving (hash : Bytes → ℕ) (talk : Talk) (p : Program) : Prop where
  lock : LockInv p.store.slots p.store.admin
  path : PathInv p.store.admin
  calling : p.store.calling = p.pc.calling
  tends : Tends hash talk.map p
  follows : Follows talk p

/-! ### The other threads -/

/-- The steps that no client makes. -/
def Label.isBackground : Label → Bool
  | .wal _ | .admin | .writeTemp _ | .writeTempFault _ _ | .adminFault | .worker | .stop => true
  | _ => false

theorem Program.allows_background {p : Program} {l : Label} (h : p.allows l = true) :
    l.isBackground = true := by
  cases l with
  | wal | admin | writeTemp | writeTempFault | adminFault | worker | stop => rfl
  | call | lockShard | caller | lockShared | get | enter => cases h

variable {host : ByteOrder} {hash : Bytes → ℕ} {version : Bytes} {s t : KVStore} {l : Label}
  {talk : Talk} {p q : Program}

/-- They leave the entries alone, and of the shard locks only those at rest change hands. -/
theorem KVStore.Steps.background (h : KVStore.Steps host hash s l t) (hl : l.isBackground = true)
    (hlock : LockInv s.slots s.admin) : t.shards = s.shards ∧ t.calling = s.calling ∧
      t.returned = s.returned ∧ ∀ i, t.slots i = s.slots i ∨
        (s.slots i).rests = true ∧ (t.slots i).rests = true := by
  have hmove {n : ℕ} (hn : n < kShardCount) {slot : Slot} (hold : (s.slots ⟨n,hn⟩).rests = true)
      (hnew : slot.rests = true) (i : Shard) : Function.update s.slots ⟨n,hn⟩ slot i = s.slots i ∨
        (s.slots i).rests = true ∧ (Function.update s.slots ⟨n,hn⟩ slot i).rests = true := by
    by_cases hi : i = ⟨n,hn⟩
    · subst hi
      rw [Function.update_self]
      exact .inr ⟨hold, hnew⟩
    · exact .inl (Function.update_of_ne hi _ _)
  have hadmin {call : AdminCall} (hcall : s.admin = some call) {i : Shard} (hi : call.holds i) :
      (s.slots i).rests = true := by
    rw [(hlock i).mpr ⟨call,hcall,hi⟩]
    rfl
  cases h with
  | callThrows | call | lockShard | prepare | acknowledge | rethrow | mutate | count | schedule
  | ret | lockShared | get | enter => cases hl
  | lock kind n hn hcall hslot => exact ⟨rfl, rfl, rfl, hmove hn (by rw [hslot]; rfl) rfl⟩
  | release kind data walOffset n hn hcall =>
    exact ⟨rfl, rfl, rfl, hmove hn (hadmin hcall (Nat.le_refl n)) rfl⟩
  | unlock kind failed n hn hcall =>
    exact ⟨rfl, rfl, rfl, hmove hn (hadmin hcall (Nat.le_refl n)) rfl⟩
  | _ => exact ⟨rfl, rfl, rfl, fun i => .inl rfl⟩

/-- The worker and the log do not disturb the thread of `main`. -/
theorem Tends.background {m : Store} {u : KVStore} (h : Tends hash m p)
    (hstep : KVStore.Steps host hash p.store l u) (hl : l.isBackground = true)
    (hlock : LockInv p.store.slots p.store.admin) : Tends hash m { p with store := u } := by
  obtain ⟨hshards,-,-,hslots⟩ := hstep.background hl hlock
  have hrest {j : Shard} (hj : (p.store.slots j).rests = true) : (u.slots j).rests = true := by
    rcases hslots j with hsame | hmoved
    · rwa [hsame]
    · exact hmoved.2
  have hkeep {j : Shard} {slot : Slot} (hj : p.store.slots j = slot) (hno : slot.rests = false) :
      u.slots j = slot := by
    rcases hslots j with hsame | hmoved
    · exact hsame.trans hj
    · rw [hj, hno] at hmoved
      exact absurd hmoved.1 (by decide)
  unfold Tends at h ⊢
  dsimp only
  rw [hshards]
  split at h
  · obtain ⟨hothers,pc,hslot,hmap⟩ := h
    exact ⟨fun j hj => hrest (hothers j hj), pc, hkeep hslot rfl, hmap⟩
  · obtain ⟨hothers,hslot,hmap⟩ := h
    exact ⟨fun j hj => hrest (hothers j hj), hkeep hslot rfl, hmap⟩
  · exact ⟨fun j => hrest (h.1 j), h.2⟩

/-! ### The thread of `main` -/

theorem ServerPc.executes.not_exit {pc : ServerPc} {command : Command}
    (h : pc.executes command) : command.type ≠ .exit := by
  intro hexit
  cases pc with
  | checking | waiting | writing => simp [ServerPc.executes, Command.op, hexit] at h
  | locating | finding => simp [ServerPc.executes, hexit] at h
  | entering | inside => simp [ServerPc.executes, Command.adminKind, hexit] at h
  | sizing => simp [ServerPc.executes, hexit] at h
  | prompt | reading | done => exact h

/-- The command at which the thread is. -/
structure Engaged (talk : Talk) (p : Program) (command : Command) : Prop where
  output : p.output = talk.output ++ kPrompt
  line : ∃ line, getline talk.input = some (line,p.input) ∧ parse line = some command

theorem Follows.engaged (h : Follows talk p) (hprompt : p.pc ≠ .prompt) (hreading : p.pc ≠ .reading)
    (hdone : p.pc ≠ .done) : ∃ command, Engaged talk p command ∧ p.pc.executes command := by
  unfold Follows at h
  split at h
  · exact absurd ‹_› hprompt
  · exact absurd ‹_› hreading
  · exact absurd ‹_› hdone
  · obtain ⟨hout,line,command,hline,hparse,hexec⟩ := h
    exact ⟨command, ⟨hout, line, hline, hparse⟩, hexec⟩

/-- The thread goes on with the command. -/
theorem Engaged.follows {command : Command} {pc : ServerPc} (h : Engaged talk p command)
    (hexec : pc.executes command) : Follows talk { p with store := s, pc := pc } := by
  obtain ⟨hout,line,hline,hparse⟩ := h
  cases pc with
  | prompt | reading | done => exact hexec.elim
  | _ => exact ⟨hout, line, command, hline, hparse, hexec⟩

/-- An answer ends the exchange. -/
theorem Engaged.answered {command : Command} {text : Bytes} {m : Store}
    (h : Engaged talk p command) (hexit : command.type ≠ .exit)
    (hanswer : Answers version command talk.map text m) (hlock : LockInv s.slots s.admin)
    (hpath : PathInv s.admin) (hcalling : s.calling = []) (hrest : ∀ j, (s.slots j).rests = true)
    (hshards : s.shards = split (shardIndex hash) m) :
    ({ p with store := s }.answer text).pc = .prompt ∧ ∃ talk', Exchange version talk talk' ∧
      Serving hash talk' ({ p with store := s }.answer text) := by
  obtain ⟨hout,line,hline,hparse⟩ := h
  refine ⟨rfl, _, .mk hline hparse hexit hanswer, hlock, hpath, hcalling, ⟨hrest, hshards⟩, rfl, ?_⟩
  rw [← hout]
  rfl

/-- The dialogue is where it was, or one exchange further and before the next prompt. -/
def Advances (hash : Bytes → ℕ) (version : Bytes) (talk : Talk) (q : Program) : Prop :=
  Serving hash talk q ∨
    q.pc = .prompt ∧ ∃ talk', Exchange version talk talk' ∧ Serving hash talk' q

theorem update_rests {slots : Shard → Slot} {i : Shard} {slot : Slot}
    (h : ∀ j, j ≠ i → (slots j).rests = true) (hslot : slot.rests = true) (j : Shard) :
    (Function.update slots i slot j).rests = true := by
  by_cases hj : j = i
  · rw [hj, Function.update_self, hslot]
  · rw [Function.update_of_ne hj]
    exact h j hj

theorem update_others {slots : Shard → Slot} {i : Shard} (h : ∀ j, j ≠ i → (slots j).rests = true)
    (slot : Slot) (j : Shard) (hj : j ≠ i) : (Function.update slots i slot j).rests = true := by
  rw [Function.update_of_ne hj]
  exact h j hj

theorem Program.written_goes {op : WalRecord} {detail : Bytes}
    (hthrown : p.store.thrown (shardIndex hash op.key) = none)
    (hreturned : s.returned = p.store.returned) :
    p.written hash op detail s = { p with store := s } := by
  simp [Program.written, hthrown, hreturned]

theorem Program.written_throws {op : WalRecord} {detail : Bytes} {e : WalError}
    (hthrown : p.store.thrown (shardIndex hash op.key) = some e) :
    p.written hash op detail s = { p with store := s }.answer (errorLine (e.what detail)) := by
  simp [Program.written, hthrown]

theorem Program.written_returns {op : WalRecord} {detail : Bytes} {call : Returned}
    (hthrown : p.store.thrown (shardIndex hash op.key) = none)
    (hreturned : s.returned = p.store.returned ++ [call]) :
    p.written hash op detail s = { p with store := s }.answer (writeAnswer op call.erased) := by
  simp [Program.written, hthrown, hreturned]

/-- A step of a `Set` or `Delete` that has the lock of its shard. -/
theorem Serving.write {op : WalRecord} {detail : Bytes} (h : Serving hash talk p)
    (hpc : p.pc = .writing op)
    (hstep : p.store.step host hash (.caller (shardIndex hash op.key)) = some s) :
    Advances hash version talk (p.written hash op detail s) := by
  have hsteps := KVStore.steps_of_step hstep
  have hlock : LockInv s.slots s.admin := h.lock.step h.path hsteps
  have hpath : PathInv s.admin := h.path.step hsteps
  obtain ⟨command,hat,hexec⟩ := h.follows.engaged (by simp [hpc]) (by simp [hpc]) (by simp [hpc])
  have hcommand : command.op = some op := by simpa [hpc, ServerPc.executes] using hexec
  have hcalling : p.store.calling = [] := by rw [h.calling, hpc]; rfl
  have htends := h.tends
  unfold Tends at htends
  rw [hpc] at htends
  obtain ⟨hothers,pc,hslot,hmap⟩ := htends
  -- the call goes on under its lock
  have hgo {pc' : WritePc} {shards : Shard → Store} {t : KVStore} (hs : s = t)
      (hthrown : p.store.thrown (shardIndex hash op.key) = none)
      (hreturned : t.returned = p.store.returned) (hcall : t.calling = p.store.calling)
      (hslots : t.slots = Function.update p.store.slots (shardIndex hash op.key) (.writer ⟨op,pc'⟩))
      (hshards : t.shards = shards)
      (hmap' : match pc'.found with
        | none => shards = split (shardIndex hash) talk.map
        | some erased => shards = split (shardIndex hash) (applyOp op talk.map) ∧
          writeAnswer op erased = writeAnswer op (talk.map.lookup op.key).isSome) :
      Advances hash version talk (p.written hash op detail s) := by
    subst hs hshards
    rw [Program.written_goes hthrown hreturned]
    refine .inl ⟨hlock, hpath, ?_, ?_, ?_⟩
    · rw [hcall, h.calling]
    · unfold Tends
      rw [hpc]
      dsimp only
      rw [hslots]
      exact ⟨update_others hothers _, pc', Function.update_self .., hmap'⟩
    · rw [hpc] at hexec
      have hf : Follows talk { p with store := s, pc := .writing op } := hat.follows hexec
      rwa [← hpc] at hf
  change p.store.callerStep host _ = some s at hstep
  unfold KVStore.callerStep at hstep
  rw [hslot] at hstep
  cases pc with
  | locked =>
    obtain ⟨wal,hwal,rfl⟩ := Option.map_eq_some_iff.mp hstep
    exact hgo rfl (by simp [KVStore.thrown, hslot]) rfl rfl rfl rfl hmap
  | appending id =>
    dsimp only at hstep
    split at hstep
    · cases hstep
    · rename_i hfind
      obtain rfl := Option.some.inj hstep
      exact hgo rfl (by simp [KVStore.thrown, hslot, hfind]) rfl rfl rfl rfl hmap
    · rename_i e hfind
      obtain rfl := Option.some.inj hstep
      rw [Program.written_throws (e := e) (by simp [KVStore.thrown, hslot, hfind])]
      -- nothing was changed before the exception
      exact .inr (hat.answered hexec.not_exit (.failed _ (.inl (by rw [hcommand]; rfl))) hlock hpath
        hcalling (update_rests hothers rfl) hmap)
  | appended id =>
    obtain rfl := Option.some.inj hstep
    refine hgo rfl (by simp [KVStore.thrown, hslot]) rfl rfl rfl rfl ⟨?_, ?_⟩
    · rw [split_applyOp]
      have hmap' : p.store.shards = split (shardIndex hash) talk.map := hmap
      rw [hmap']
    · have hmap' : p.store.shards = split (shardIndex hash) talk.map := hmap
      cases op with
      | set key value => rfl
      | delete key => simp only [hmap', Op.key, lookup_split]
  | mutated id erased =>
    obtain rfl := Option.some.inj hstep
    exact hgo rfl (by simp [KVStore.thrown, hslot]) rfl rfl rfl rfl hmap
  | counted id erased due =>
    cases due with
    | true =>
      obtain rfl := Option.some.inj hstep
      exact hgo rfl (by simp [KVStore.thrown, hslot]) rfl rfl rfl rfl hmap
    | false =>
      obtain rfl := Option.some.inj hstep
      rw [Program.written_returns (by simp [KVStore.thrown, hslot]) rfl]
      dsimp only
      rw [hmap.2]
      exact .inr (hat.answered hexec.not_exit (.write op hcommand) hlock hpath hcalling
        (update_rests hothers rfl) hmap.1)
  | scheduled id erased =>
    obtain rfl := Option.some.inj hstep
    rw [Program.written_returns (by simp [KVStore.thrown, hslot]) rfl]
    dsimp only
    rw [hmap.2]
    exact .inr (hat.answered hexec.not_exit (.write op hcommand) hlock hpath hcalling
      (update_rests hothers rfl) hmap.1)

/-- The thread goes on with its command, and no entry changes. -/
theorem Serving.goes {pc : ServerPc} {command : Command} (h : Serving hash talk p)
    (hsteps : KVStore.Steps host hash p.store l s) (hat : Engaged talk p command)
    (hexec : pc.executes command) (hcalling : s.calling = pc.calling)
    (htends : Tends hash talk.map { p with store := s, pc := pc }) :
    Advances hash version talk { p with store := s, pc := pc } :=
  .inl ⟨h.lock.step h.path hsteps, h.path.step hsteps, hcalling, htends, hat.follows hexec⟩

/-- A line is read and executed, up to the call of the store. -/
theorem Serving.execute {line rest : Bytes} {command : Command} (h : Serving hash talk p)
    (hpc : p.pc = .reading) (hline : getline p.input = some (line,rest))
    (hparse : parse line = some command) :
    Advances hash version talk (Program.execute version { p with input := rest } command) := by
  have hcalling : p.store.calling = [] := by rw [h.calling, hpc]; rfl
  obtain ⟨hrest,hshards⟩ : (∀ j, (p.store.slots j).rests = true) ∧
      p.store.shards = split (shardIndex hash) talk.map := by
    have ht := h.tends
    unfold Tends at ht
    rwa [hpc] at ht
  obtain ⟨hinput,houtput⟩ : p.input = talk.input ∧ p.output = talk.output ++ kPrompt := by
    have hf := h.follows
    unfold Follows at hf
    rwa [hpc] at hf
  rw [hinput] at hline
  have hat : Engaged talk { p with input := rest } command := ⟨houtput, line, hline, hparse⟩
  have hanswer {text : Bytes} (hexit : command.type ≠ .exit)
      (ha : Answers version command talk.map text talk.map) :
      Advances hash version talk (Program.answer { p with input := rest } text) :=
    .inr (hat.answered hexit ha h.lock h.path hcalling hrest hshards)
  have hgo {pc : ServerPc} (hexec : pc.executes command) (hcall : pc.calling = [])
      (htends : Tends hash talk.map { p with input := rest, pc := pc }) :
      Advances hash version talk { p with input := rest, pc := pc } :=
    .inl ⟨h.lock, h.path, hcalling.trans hcall.symm, htends, hat.follows hexec⟩
  unfold Program.execute
  split
  · rename_i hinvalid
    refine hanswer ?_ (.invalid hinvalid)
    intro hexit
    simp [Command.isValid, hexit] at hinvalid
  rename_i hvalid
  split
  · rename_i ht
    exact hgo (by simp [ServerPc.executes, Command.op, ht]) rfl ⟨hrest, hshards⟩
  · rename_i ht
    exact hgo ⟨ht, rfl⟩ rfl ⟨hrest, hshards⟩
  · rename_i ht
    exact hgo (by simp [ServerPc.executes, Command.op, ht]) rfl ⟨hrest, hshards⟩
  · rename_i ht
    exact hgo (by simp [ServerPc.executes, Command.adminKind, ht]) rfl ⟨hrest, hshards⟩
  · rename_i ht
    exact hgo (by simp [ServerPc.executes, Command.adminKind, ht]) rfl ⟨hrest, hshards⟩
  · rename_i ht
    exact hgo ht rfl ⟨hrest, hshards⟩
  · rename_i ht
    exact hanswer (by simp [ht]) (.help ht)
  · rename_i ht
    refine .inl ⟨h.lock, h.path, hcalling, ⟨hrest, hshards⟩, _, .exit hline hparse ht, ?_⟩
    rw [← houtput]
  · rename_i ht
    -- the guard above has caught it
    simp [Command.isValid, ht] at hvalid

/-- A step of a call that holds `snapshot_mutex_` for the thread of `main`. -/
theorem Serving.administer {kind : AdminKind} {detail : Bytes} (h : Serving hash talk p)
    (hpc : p.pc = .inside kind) (hstep : p.store.step host hash .admin = some s) :
    Advances hash version talk (p.administered kind detail s) := by
  have hsteps := KVStore.steps_of_step hstep
  obtain ⟨command,hat,hexec⟩ := h.follows.engaged (by simp [hpc]) (by simp [hpc]) (by simp [hpc])
  have htends : Tends hash talk.map { p with store := s } := h.tends.background hsteps rfl h.lock
  have hcalling : s.calling = [] := by
    rw [(hsteps.background rfl h.lock).2.1, h.calling, hpc]
    rfl
  have hcommand : command.adminKind = some kind := by simpa [hpc, ServerPc.executes] using hexec
  unfold Program.administered
  split
  · exact h.goes hsteps hat hexec (by rw [hcalling, hpc]; rfl) htends
  · unfold Tends at htends
    dsimp only at htends
    rw [hpc] at htends
    refine .inr (hat.answered hexec.not_exit ?_ (h.lock.step h.path hsteps) (h.path.step hsteps)
      hcalling htends.1 htends.2)
    split
    · exact .failed _ (.inr (by rw [hcommand]; rfl))
    · exact .admin kind hcommand

/-- `PrintInfo` counts the entries at one moment. -/
theorem Serving.size (h : Serving hash talk p) (hpc : p.pc = .sizing) :
    Advances hash version talk (p.answer (printInfo version (totalSize p.store.shards))) := by
  obtain ⟨command,hat,hexec⟩ := h.follows.engaged (by simp [hpc]) (by simp [hpc]) (by simp [hpc])
  have htends := h.tends
  unfold Tends at htends
  rw [hpc] at htends hexec
  have hinfo : Answers version command talk.map (printInfo version talk.map.keys.card) talk.map :=
    .info hexec
  rw [htends.2, totalSize_split]
  exact .inr (hat.answered hexec.not_exit hinfo h.lock h.path (by rw [h.calling, hpc]; rfl)
    htends.1 htends.2)

/-- One step of the thread of `main`. -/
theorem Serving.server {detail : Bytes} (h : Serving hash talk p)
    (hstep : p.serverStep host hash version detail = some q) : Advances hash version talk q := by
  have hengaged := h.follows.engaged
  have htends := h.tends
  have hcalling := h.calling
  have hfollows := h.follows
  unfold Program.serverStep at hstep
  unfold Tends at htends
  unfold Follows at hfollows
  split at hstep <;> rename_i hpc <;> rw [hpc] at hengaged htends hcalling hfollows
  · obtain rfl := Option.some.inj hstep
    exact .inl ⟨h.lock, h.path, hcalling, htends, hfollows.1, congrArg (· ++ kPrompt) hfollows.2⟩
  · split at hstep
    · rename_i heof
      obtain rfl := Option.some.inj hstep
      rw [hfollows.1] at heof
      exact .inl ⟨h.lock, h.path, hcalling, htends, _, .eof heof,
        congrArg (· ++ [newline]) hfollows.2⟩
    · rename_i line rest hline
      obtain ⟨command,hparse,rfl⟩ := Option.map_eq_some_iff.mp hstep
      exact h.execute hpc hline hparse
  · rename_i op
    obtain ⟨command,hat,hexec⟩ := hengaged (by simp) (by simp) (by simp)
    split at hstep
    · obtain rfl := Option.some.inj hstep
      refine .inr (hat.answered hexec.not_exit (.failed detail (.inl ?_)) h.lock h.path hcalling
        htends.1 htends.2)
      rw [show command.op = some op from hexec]
      rfl
    · rename_i herr
      obtain ⟨s,hs,rfl⟩ := Option.map_eq_some_iff.mp hstep
      have hsteps := KVStore.steps_of_step hs
      simp only [KVStore.step, herr] at hs
      obtain rfl := Option.some.inj hs
      exact h.goes hsteps hat hexec (congrArg (· ++ [op]) hcalling) htends
  · rename_i op
    obtain ⟨command,hat,hexec⟩ := hengaged (by simp) (by simp) (by simp)
    obtain ⟨s,hs,rfl⟩ := Option.map_eq_some_iff.mp hstep
    have hsteps := KVStore.steps_of_step hs
    cases hsteps with
    | lockShard op hcall hslot =>
      refine h.goes (KVStore.steps_of_step hs) hat hexec ?_
        ⟨update_others (fun j _ => htends.1 j) _, .locked, Function.update_self .., htends.2⟩
      show p.store.calling.erase op = []
      rw [hcalling]
      exact List.erase_cons_head op []
    | writeTempFails _ _ _ _ _ _ hl => simp at hl
  · obtain ⟨s,hs,rfl⟩ := Option.map_eq_some_iff.mp hstep
    exact h.write hpc hs
  · rename_i key
    obtain ⟨command,hat,hexec⟩ := hengaged (by simp) (by simp) (by simp)
    obtain ⟨s,hs,rfl⟩ := Option.map_eq_some_iff.mp hstep
    cases KVStore.steps_of_step hs with
    | lockShared key keys hslot =>
      -- nobody else reads, so the lock was free
      have hfree : keys = [] := by
        have hrest := htends.1 (shardIndex hash key)
        rw [hslot] at hrest
        cases keys with
        | nil => rfl
        | cons => cases hrest
      subst hfree
      exact h.goes (KVStore.steps_of_step hs) hat hexec hcalling
        ⟨update_others (fun j _ => htends.1 j) _, Function.update_self .., htends.2⟩
    | writeTempFails _ _ _ _ _ _ hl => simp at hl
  · rename_i key
    obtain ⟨command,hat,hexec⟩ := hengaged (by simp) (by simp) (by simp)
    obtain ⟨hothers,hslot,hshards⟩ := htends
    obtain ⟨s,hs,rfl⟩ := Option.map_eq_some_iff.mp hstep
    have hsteps := KVStore.steps_of_step hs
    have hlock := h.lock.step h.path hsteps
    have hpath := h.path.step hsteps
    cases hsteps with
    | get key value keys hslot' hvalue =>
      obtain rfl : [key] = keys := by simpa [hslot] using hslot'
      have hget : Answers version command talk.map
          (getAnswer ((p.store.shards (shardIndex hash key)).lookup key)) talk.map := by
        rw [hshards, lookup_split, ← hexec.2]
        exact .get hexec.1
      refine .inr (hat.answered hexec.not_exit hget hlock hpath hcalling
        (update_rests hothers ?_) hshards)
      rw [List.erase_cons_head]
      rfl
    | writeTempFails _ _ _ _ _ _ hl => simp at hl
  · rename_i kind
    obtain ⟨command,hat,hexec⟩ := hengaged (by simp) (by simp) (by simp)
    obtain ⟨s,hs,rfl⟩ := Option.map_eq_some_iff.mp hstep
    cases KVStore.steps_of_step hs with
    | enter kind => exact h.goes (KVStore.steps_of_step hs) hat hexec hcalling htends
    | writeTempFails _ _ _ _ _ _ hl => simp at hl
  · obtain ⟨s,hs,rfl⟩ := Option.map_eq_some_iff.mp hstep
    exact h.administer hpc hs
  · split at hstep
    · obtain rfl := Option.some.inj hstep
      exact h.size hpc
    · cases hstep
  · cases hstep

/-- The other threads leave the dialogue where it is. -/
theorem Serving.background (h : Serving hash talk p) (hstep : KVStore.Steps host hash p.store l s)
    (hl : l.isBackground = true) : Serving hash talk { p with store := s } := by
  refine ⟨h.lock.step h.path hstep, h.path.step hstep, ?_, h.tends.background hstep hl h.lock,
    h.follows⟩
  exact (hstep.background hl h.lock).2.1.trans h.calling

theorem Serving.step {l : ProgramLabel} (h : Serving hash talk p)
    (hstep : p.step host hash version l = some q) : Advances hash version talk q := by
  cases l with
  | server detail => exact h.server hstep
  | store l =>
    simp only [Program.step] at hstep
    split at hstep
    · rename_i hallows
      obtain ⟨s,hs,rfl⟩ := Option.map_eq_some_iff.mp hstep
      exact .inl (h.background (KVStore.steps_of_step hs) (Program.allows_background hallows))
    · cases hstep

/-- However long the process runs. -/
theorem Serving.run {ls : List ProgramLabel} (h : Serving hash talk p)
    (hrun : run (Program.step host hash version) p ls = some q) :
    ∃ talk', Dialogue version talk talk' ∧ Serving hash talk' q := by
  refine run_invariant (A := fun _ => True)
    (P := fun p => ∃ talk', Dialogue version talk talk' ∧ Serving hash talk' p) ?_
    (fun _ _ => trivial) hrun ⟨talk, .refl, h⟩
  intro p l q _ hp hstep
  obtain ⟨talk₁,hdialogue,hserving⟩ := hp
  rcases hserving.step hstep with hsame | ⟨-,hnext⟩
  · exact ⟨talk₁, hdialogue, hsame⟩
  · obtain ⟨talk₂,hexchange,hserving'⟩ := hnext
    exact ⟨talk₂, hdialogue.tail hexchange, hserving'⟩

/-! ### The process -/

/-- `main` starts on the store that `openStore` gives, with nothing read yet. -/
theorem main_eq {disk : Disk} {input : Bytes} (h : main host hash version disk input = .ok p) :
    openStore host hash disk .buffered 32 = .ok p.store ∧ p.input = input ∧ p.pc = .prompt ∧
      ∃ wal m, openWal host disk.wal .buffered 32 = .ok wal ∧
        p.store = KVStore.start hash wal m disk.snapshot disk.temp := by
  unfold main at h
  split at h
  · cases h
  rename_i wal hwal
  split at h
  · cases h
  rename_i result data hload
  split at h
  · cases h
  rename_i replay m hreplay
  obtain rfl := Except.ok.inj h
  refine ⟨?_, rfl, rfl, wal, m, hwal, rfl⟩
  simp only [openStore, startup, hwal, hload, hreplay]

/-- The dialogue begins with the map that startup has rebuilt. -/
theorem serving_main {disk : Disk} {input : Bytes}
    (h : main host hash version disk input = .ok p) :
    Serving hash ⟨p.store.collectData, input, p.output⟩ p := by
  obtain ⟨-,hinput,hpc,wal,m,-,hstore⟩ := main_eq h
  have hmap : p.store.collectData = m := by
    rw [hstore]
    exact collect_split _ m
  refine ⟨hstore ▸ lockInv_start, hstore ▸ pathInv_start, ?_, ?_, ?_⟩
  · rw [hstore, hpc]
    rfl
  · rw [hmap]
    unfold Tends
    rw [hpc, hstore]
    exact ⟨fun _ => rfl, rfl⟩
  · unfold Follows
    rw [hpc]
    exact ⟨hinput, rfl⟩

/-- Between two commands the shards hold the map of the dialogue. -/
theorem Serving.collectData (h : Serving hash talk p) (hpc : p.pc = .prompt ∨ p.pc = .reading ∨
    p.pc = .done) : p.store.collectData = talk.map := by
  have htends := h.tends
  unfold Tends at htends
  have hshards : p.store.shards = split (shardIndex hash) talk.map := by
    rcases hpc with hpc | hpc | hpc <;> rw [hpc] at htends <;> exact htends.2
  rw [KVStore.collectData, hshards, collect_split]

/-- The process on any files with which startup succeeds and on any input, with its checkpoint
worker at any speed and with any failures: what it has printed is its banner and one exchange after
the other with a single map, which begins as startup has rebuilt it, and a command that ends with an
error has not changed it. -/
theorem screen_is_a_dialogue_with_one_map {disk : Disk} {input : Bytes} {ls : List ProgramLabel}
    (hmain : main host hash version disk input = .ok p)
    (hrun : run (Program.step host hash version) p ls = some q) :
    ∃ talk, Dialogue version ⟨p.store.collectData, input, p.output⟩ talk ∧ Follows talk q ∧
      (q.pc = .prompt ∨ q.pc = .reading ∨ q.pc = .done → q.store.collectData = talk.map) := by
  obtain ⟨talk,hdialogue,hserving⟩ := (serving_main hmain).run hrun
  exact ⟨talk, hdialogue, hserving.follows, hserving.collectData⟩

/-- A `SET` on a new store whose frame cannot be written. -/
theorem screen_after_failed_set :
    ∃ p q, main .little (fun _ => 0) (ascii "1") ⟨[], none, none⟩ (ascii "SET a b\n") = .ok p ∧
      run (Program.step .little (fun _ => 0) (ascii "1")) p
        [.server [], .server [], .server [], .server [], .server [], .store (.wal (.submit 0)),
          .store (.wal .writeHeader), .store (.wal (.fail 3 .frameWrite)), .server []] = some q ∧
      q.output = p.output ++ ascii "kv-store> ERR failed to write WAL frame\n" ∧
      ∃ talk, Dialogue (ascii "1") ⟨p.store.collectData, ascii "SET a b\n", p.output⟩ talk ∧
        Follows talk q := by
  have hall : ((main .little (fun _ => 0) (ascii "1") ⟨[], none, none⟩
      (ascii "SET a b\n")).toOption.bind fun p =>
        (run (Program.step .little (fun _ => 0) (ascii "1"))
        p [.server [], .server [], .server [], .server [], .server [], .store (.wal (.submit 0)),
          .store (.wal .writeHeader), .store (.wal (.fail 3 .frameWrite)), .server []]).map fun q =>
        decide (q.output = p.output ++ ascii "kv-store> ERR failed to write WAL frame\n")) =
      some true := by decide +kernel
  obtain ⟨p,hp,hall⟩ := Option.bind_eq_some_iff.mp hall
  obtain ⟨q,hq,hout⟩ := Option.map_eq_some_iff.mp hall
  have hp := eq_ok_of_toOption hp
  obtain ⟨talk,hdialogue,hfollows,-⟩ := screen_is_a_dialogue_with_one_map hp hq
  exact ⟨p, q, hp, hq, of_decide_eq_true hout, talk, hdialogue, hfollows⟩

end ConcurrentKV
