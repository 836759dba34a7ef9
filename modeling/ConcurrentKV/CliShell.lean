import ConcurrentKV.SerialAppends

/-! The program as it would be without threads: the entries in one map, an append to the log in one
go, and no checkpoints. -/
namespace ConcurrentKV
open ByteCodec OpLog Sharding Transition

/-- Its entries and its log. The snapshot is left out, since nothing is read from it any more. -/
structure Shell where
  map : Store
  wal : WriteAheadLog

namespace Shell

variable (host : ByteOrder) (version : Bytes) (shell : Shell)

/-- `Set` or `Delete`. -/
def write (op : WalRecord) : Bytes × Shell :=
  match shell.wal.append host op with
  | (.ok (), wal) =>
    (writeAnswer op (shell.map.lookup op.key).isSome, ⟨applyOp op shell.map, wal⟩)
  | (.error e, wal) => (errorLine (e.what []), ⟨shell.map, wal⟩)

/-- `CompactPersistence` or `ClearPersistence`. Both keep the entries. -/
def administer (kind : AdminKind) : Bytes × Shell :=
  match shell.wal.clear with
  | (.ok (), wal) => (adminAnswer kind, ⟨shell.map, wal⟩)
  | (.error e, wal) => (errorLine (e.what []), ⟨shell.map, wal⟩)

/-- What a command prints, and what it leaves. -/
def execute (command : Command) : Bytes × Shell :=
  if command.isValid = false then (errorLine (ascii command.errorMessage), shell)
  else match command.type with
    | .set => shell.write host (.set command.key command.value)
    | .get => (getAnswer (shell.map.lookup command.key), shell)
    | .del => shell.write host (.delete command.key)
    | .clearPersistence => shell.administer .clearPersistence
    | .compactPersistence => shell.administer .compactPersistence
    | .info => (printInfo version shell.map.keys.card, shell)
    | .help => (printHelp version, shell)
    | .exit => (ascii "Bye\n", shell)
    | .invalid => (ascii "ERR invalid command\n", shell)

/-- All it prints on an input, and what it leaves at the end. -/
def session (shell : Shell) (input : Bytes) : Bytes × Shell :=
  match _h : getline input with
  | none => (kPrompt ++ [newline], shell)
  | some (line,rest) => match parse line with
    | none => (kPrompt, shell)
    | some command =>
      if command.type = .exit then (kPrompt ++ ascii "Bye\n", shell)
      else
        let (text,next) := shell.execute host version command
        let (more,last) := session next rest
        (kPrompt ++ (text ++ more), last)
termination_by input.length
decreasing_by exact getline_length _h

variable {host version shell} {input line rest : Bytes} {command : Command}

theorem session_eof (h : getline input = none) :
    shell.session host version input = (kPrompt ++ [newline], shell) := by
  rw [session]
  split
  · rfl
  · rename_i hline
    rw [h] at hline
    cases hline

theorem session_exit (hline : getline input = some (line,rest)) (hparse : parse line = some command)
    (hexit : command.type = .exit) :
    shell.session host version input = (kPrompt ++ ascii "Bye\n", shell) := by
  rw [session]
  split
  · rename_i heof
    rw [hline] at heof
    cases heof
  · rename_i hline'
    rw [hline] at hline'
    cases hline'
    simp only [hparse, if_pos hexit]

theorem session_command (hline : getline input = some (line,rest))
    (hparse : parse line = some command) (hexit : command.type ≠ .exit) :
    shell.session host version input =
      (kPrompt ++ ((shell.execute host version command).1 ++
          ((shell.execute host version command).2.session host version rest).1),
        ((shell.execute host version command).2.session host version rest).2) := by
  rw [session]
  split
  · rename_i heof
    rw [hline] at heof
    cases heof
  · rename_i hline'
    rw [hline] at hline'
    cases hline'
    simp only [hparse, if_neg hexit]

theorem session_prompt (shell : Shell) (input : Bytes) :
    kPrompt <+: (shell.session host version input).1 := by
  cases hline : getline input with
  | none =>
    rw [session_eof hline]
    exact List.prefix_append ..
  | some read =>
    obtain ⟨line,rest⟩ := read
    obtain ⟨command,hparse⟩ := parse_total line
    by_cases hexit : command.type = .exit
    · rw [session_exit hline hparse hexit]
      exact List.prefix_append ..
    · rw [session_command hline hparse hexit]
      exact List.prefix_append ..

theorem execute_op {op : WalRecord} (h : command.op = some op) :
    shell.execute host version command = shell.write host op := by
  unfold Command.op at h
  unfold Shell.execute Command.isValid
  split at h
  · rename_i ht
    obtain rfl := Option.some.inj h
    simp [ht]
  · rename_i ht
    obtain rfl := Option.some.inj h
    simp [ht]
  · cases h

theorem execute_admin {kind : AdminKind} (h : command.adminKind = some kind) :
    shell.execute host version command = shell.administer kind := by
  unfold Command.adminKind at h
  unfold Shell.execute Command.isValid
  split at h
  · rename_i ht
    obtain rfl := Option.some.inj h
    simp [ht]
  · rename_i ht
    obtain rfl := Option.some.inj h
    simp [ht]
  · cases h

/-- Room for `n` more commands: every copy of the entries fits into a snapshot, and the log can be
rotated. -/
structure Within (shell : Shell) (n : ℕ) : Prop where
  sound : shell.wal.Sound
  fit : FieldsFit shell.map
  count : shell.map.keys.card+n < 2^32
  generation : shell.wal.generation+n < kMaxUint64

theorem Within.mono {n m : ℕ} (h : shell.Within m) (hle : n ≤ m) : shell.Within n := by
  refine ⟨h.sound, h.fit, ?_, ?_⟩
  · have := h.count
    omega
  · have := h.generation
    omega

/-- One operation adds at most one key. -/
theorem card_applyOp_le (op : WalRecord) (m : Store) :
    (applyOp op m).keys.card ≤ m.keys.card+1 := by
  have hsub : (applyOp op m).keys ⊆ insert op.key m.keys := by
    intro k hk
    rw [Finmap.mem_keys] at hk
    rw [Finset.mem_insert, Finmap.mem_keys]
    cases op with
    | set key value => exact Finmap.mem_insert.mp hk
    | delete key => exact .inr (Finmap.mem_erase.mp hk).2
  exact (Finset.card_le_card hsub).trans (Finset.card_insert_le _ _)

theorem Within.write {n : ℕ} (h : shell.Within (n+1)) (op : WalRecord) :
    (shell.write host op).2.Within n := by
  obtain ⟨hsound,hgen,-,-⟩ := h.sound.append host op
  have hcard := card_applyOp_le op shell.map
  have hcount := h.count
  have hgeneration := h.generation
  rcases happend : shell.wal.append host op with ⟨result,wal⟩
  rw [happend] at hsound hgen
  simp only [Shell.write, happend]
  cases result with
  | error e =>
    refine ⟨hsound, h.fit, ?_, ?_⟩
    · dsimp only
      omega
    · dsimp only at hgen ⊢
      omega
  | ok =>
    have hok : ∀ x ∈ [op], RecordOk shell.wal.portable x := by
      intro x hx
      rw [List.mem_singleton.mp hx]
      exact recordOk_of_append (by rw [happend])
    refine ⟨hsound, h.fit.applyOps hok, ?_, ?_⟩
    · dsimp only
      omega
    · dsimp only at hgen ⊢
      omega

theorem Within.administer {n : ℕ} (h : shell.Within (n+1)) (kind : AdminKind) :
    shell.administer kind = (adminAnswer kind, ⟨shell.map, shell.wal.cleared⟩) ∧
      (shell.administer kind).2.Within n := by
  have hcount := h.count
  have hgeneration := h.generation
  have hmax : shell.wal.generation ≠ kMaxUint64 := by omega
  have hclear : shell.administer kind = (adminAnswer kind, ⟨shell.map, shell.wal.cleared⟩) := by
    simp only [Shell.administer, WriteAheadLog.clear, if_neg hmax]
  refine ⟨hclear, ?_⟩
  rw [hclear]
  refine ⟨h.sound.cleared, h.fit, ?_, ?_⟩
  · dsimp only
    omega
  · change shell.wal.generation+1+n < kMaxUint64
    omega

/-- A command takes at most one of the `n+1`. -/
theorem Within.execute {n : ℕ} (h : shell.Within (n+1)) (command : Command) :
    (shell.execute host version command).2.Within n := by
  unfold Shell.execute
  split
  · exact h.mono (Nat.le_succ n)
  · split
    · exact h.write _
    · exact h.mono (Nat.le_succ n)
    · exact h.write _
    · exact (h.administer _).2
    · exact (h.administer _).2
    all_goals exact h.mono (Nat.le_succ n)

end Shell

end ConcurrentKV
