import ConcurrentKV.CliParser
import ConcurrentKV.KVStore

/-! `main` and `CliServer`: one thread reads commands and answers them over a store whose
checkpoint worker runs beside it. -/
namespace ConcurrentKV
open ByteCodec OpLog Sharding Transition

def newline : UInt8 := 0x0A

/-- `std::getline`: the bytes up to the next newline, which is dropped. It fails at the end of the
input, but not on a last line without a newline. -/
def getline (input : Bytes) : Option (Bytes × Bytes) :=
  if input = [] then none
  else some (input.takeWhile (· != newline), (input.dropWhile (· != newline)).drop 1)

def kConcurrencyModel : String :=
  "64 shards: per-shard reader/writer locks; independent keys proceed concurrently"

/-- A number as `operator<<` prints it. -/
def decimal (n : ℕ) : Bytes := ascii (toString n)

def errorLine (what : Bytes) : Bytes := ascii "ERR " ++ what ++ [newline]

/-- `PrintHelp`; `version` is `kProjectVersion`, which the build sets. -/
def printHelp (version : Bytes) : Bytes :=
  ascii "Concurrent KV Store v" ++ version ++ ascii "\nCommands:\n  SET <key> <value>\n" ++
    ascii "  GET <key>\n  DEL|DELETE <key>\n  COMPACT|SNAPSHOT\n  CLEAR PERSISTENCE\n" ++
    ascii "  INFO|VERSION|STATUS\n  HELP\n  EXIT\nConcurrency: " ++
    ascii kConcurrencyModel ++ [newline]

/-- `PrintInfo` over a store of `size` entries. -/
def printInfo (version : Bytes) (size : ℕ) : Bytes :=
  ascii "Concurrent KV Store v" ++ version ++ ascii "\nentries: " ++ decimal size ++
    ascii "\nconcurrency: " ++ ascii kConcurrencyModel ++
    ascii "\ndurability: default WAL is buffered (not crash-durable); " ++
    ascii "Sync and GroupCommit require fdatasync before acknowledgement\n"

/-- `what()` of an exception of the log. What the system or a fault hook says is `detail`. -/
def WalError.what (detail : Bytes) : WalError → Bytes
  | .keyTooLarge => ascii "WAL key is too large"
  | .valueTooLarge => ascii "WAL value is too large"
  | .recordTooLarge => ascii "WAL record is too large"
  | .badMaxBatch => ascii "WAL max_batch must be in [1, 4096]"
  | .sequenceExhausted => ascii "WAL sequence is exhausted"
  | .generationExhausted => ascii "WAL generation is exhausted"
  | .requiresRecovery => ascii "WAL requires recovery before append"
  | .headerWrite => ascii "failed to write WAL header"
  | .frameWrite => ascii "failed to write WAL frame"
  | .batchWrite => ascii "failed to write WAL batch"
  | .sync => ascii "fdatasync WAL: " ++ detail
  | .faultHook => detail
  | .seekOutput => ascii "failed to seek WAL output stream"
  | .offsetTooLarge => ascii "WAL replay offset is too large"
  | .truncatePastEof => ascii "WAL truncation offset is past EOF"
  | .truncateInvalidPrefix => ascii "WAL truncation did not leave a valid prefix"

/-- Where the thread of `main` is. -/
inductive ServerPc where
  /-- Before the next prompt. -/
  | prompt
  /-- In `std::getline`. -/
  | reading
  /-- In a `Set` or `Delete`, before `CheckCheckpointError`. -/
  | checking (op : WalRecord)
  | waiting (op : WalRecord)
  /-- With the lock of its shard. -/
  | writing (op : WalRecord)
  | locating (key : Bytes)
  | finding (key : Bytes)
  /-- Before it has `snapshot_mutex_`. -/
  | entering (kind : AdminKind)
  | inside (kind : AdminKind)
  /-- In the `Size` of `PrintInfo`. -/
  | sizing
  /-- Behind the loop of `Run`. -/
  | done
  deriving DecidableEq

/-- The process. -/
structure Program where
  store : KVStore
  input : Bytes
  output : Bytes
  pc : ServerPc := .prompt

inductive ProgramLabel where
  /-- The thread of `main` goes on. If an exception reaches it whose text is not the program's own,
  it says `detail`. -/
  | server (detail : Bytes)
  /-- A step inside the store: of the worker, of the log, or of a file that is written. -/
  | store (l : Label)

/-- What a `Set` or `Delete` that returned is answered with. -/
def writeAnswer (op : WalRecord) (erased : Bool) : Bytes :=
  match op with
  | .set _ _ => ascii "OK\n"
  | .delete _ => if erased then ascii "1\n" else ascii "0\n"

/-- What a call that held `snapshot_mutex_` and returned is answered with. `CompactPersistence`
returns true, because the store of `main` has a snapshot. -/
def adminAnswer : AdminKind → Bytes
  | .clearPersistence => ascii "OK persistence cleared\n"
  | _ => ascii "OK snapshot compacted\n"

def getAnswer (value : Option Bytes) : Bytes := value.getD (ascii "(nil)") ++ [newline]

def kPrompt : Bytes := ascii "kv-store> "

/-- The exception with which the append of the call at shard `i` has ended. -/
def KVStore.thrown (s : KVStore) (i : Shard) : Option WalError :=
  match s.slots i with
  | .writer ⟨_, .appending id⟩ => match s.wal.results.find? (fun r => r.1 == id) with
    | some (_, some e) => some e
    | _ => none
  | _ => none

/-- The holder of `snapshot_mutex_` is on its way out with an exception. -/
def KVStore.failing (s : KVStore) : Bool :=
  match s.admin with
  | some ⟨_, .unlocking failed _⟩ => failed
  | _ => false

/-- Nobody has the lock to itself. -/
def Slot.isShared : Slot → Bool
  | .readers _ => true
  | _ => false

/-- `LockAllShardsShared` can have every lock. -/
def KVStore.shareable (s : KVStore) : Bool := decide (∀ i : Shard, (s.slots i).isShared = true)

namespace Program

variable (host : ByteOrder) (hash : Bytes → ℕ) (version : Bytes) (p : Program)

/-- Prints an answer and goes back to the prompt. -/
def answer (text : Bytes) : Program := { p with output := p.output ++ text, pc := .prompt }

/-- `Execute`, up to the call of the store. -/
def execute (command : Command) : Program :=
  if command.isValid = false then p.answer (errorLine (ascii command.errorMessage))
  else match command.type with
    | .set => { p with pc := .checking (.set command.key command.value) }
    | .get => { p with pc := .locating command.key }
    | .del => { p with pc := .checking (.delete command.key) }
    | .clearPersistence => { p with pc := .entering .clearPersistence }
    | .compactPersistence => { p with pc := .entering .compactPersistence }
    | .info => { p with pc := .sizing }
    | .help => p.answer (printHelp version)
    | .exit => { p with output := p.output ++ ascii "Bye\n", pc := .done }
    | .invalid => p.answer (ascii "ERR invalid command\n")

/-- The end of a step of a `Set` or `Delete`: an exception, a return, or neither. -/
def written (op : WalRecord) (detail : Bytes) (s : KVStore) : Program :=
  match p.store.thrown (shardIndex hash op.key), s.returned.drop p.store.returned.length with
  | some e, _ => { p with store := s }.answer (errorLine (e.what detail))
  | none, call :: _ => { p with store := s }.answer (writeAnswer op call.erased)
  | none, [] => { p with store := s }

/-- The end of a step of a call that holds `snapshot_mutex_`. -/
def administered (kind : AdminKind) (detail : Bytes) (s : KVStore) : Program :=
  match s.admin with
  | some _ => { p with store := s }
  | none => { p with store := s }.answer
      (if p.store.failing then errorLine detail else adminAnswer kind)

/-- The thread of `main` goes on. `Size` is one step, at the moment at which it has all locks. -/
def serverStep (detail : Bytes) : Option Program :=
  match p.pc with
  | .prompt => some { p with output := p.output ++ kPrompt, pc := .reading }
  | .reading => match getline p.input with
    | none => some { p with output := p.output ++ [newline], pc := .done }
    | some (line,rest) =>
      (parse line).map fun command => execute version { p with input := rest } command
  | .checking op =>
    if p.store.checkpointError then some (p.answer (errorLine detail))
    else (p.store.step host hash (.call op)).map fun s => { p with store := s, pc := .waiting op }
  | .waiting op =>
    (p.store.step host hash (.lockShard op)).map fun s => { p with store := s, pc := .writing op }
  | .writing op =>
    (p.store.step host hash (.caller (shardIndex hash op.key))).map (p.written hash op detail)
  | .locating key =>
    (p.store.step host hash (.lockShared key)).map fun s =>
      { p with store := s, pc := .finding key }
  | .finding key =>
    let value := (p.store.shards (shardIndex hash key)).lookup key
    (p.store.step host hash (.get key value)).map fun s =>
      { p with store := s }.answer (getAnswer value)
  | .entering kind =>
    (p.store.step host hash (.enter kind)).map fun s => { p with store := s, pc := .inside kind }
  | .inside kind => (p.store.step host hash .admin).map (p.administered kind detail)
  | .sizing =>
    if p.store.shareable then some (p.answer (printInfo version (totalSize p.store.shards)))
    else none
  | .done => none

/-- The steps of the other threads, and those of the log and of the snapshot files. A call that
holds `snapshot_mutex_` for the thread of `main` is moved by that thread alone. When `main`
returns, the destructor of the store stops the worker. -/
def allows : Label → Bool
  | .wal (.submit _) | .wal .writeHeader | .wal .writeFrames | .wal .finish
  | .wal (.fail _ _) => true
  | .writeTemp _ | .writeTempFault _ _ | .adminFault | .worker => true
  | .admin => match p.store.admin with
    | some ⟨.checkpoint _, _⟩ => true
    | _ => false
  | .stop => decide (p.pc = .done) && !p.store.checkpointStopping
  | _ => false

def step : ProgramLabel → Option Program
  | .server detail => p.serverStep host hash version detail
  | .store l =>
    if p.allows l then (p.store.step host hash l).map fun s => { p with store := s } else none

/-! The store, which only its own calls change. -/

@[simp] theorem execute_store (command : Command) :
    (p.execute version command).store = p.store := by
  unfold execute
  split
  · rfl
  · split <;> rfl

@[simp] theorem written_store (op : WalRecord) (detail : Bytes) (s : KVStore) :
    (p.written hash op detail s).store = s := by
  unfold written
  split <;> rfl

@[simp] theorem administered_store (kind : AdminKind) (detail : Bytes) (s : KVStore) :
    (p.administered kind detail s).store = s := by
  unfold administered
  split <;> rfl

end Program

/-- `main`, without arguments, up to `Run`: it opens the log, loads the snapshot, replays the log
behind it, and says so. An exception from here ends the process. -/
def main (host : ByteOrder) (hash : Bytes → ℕ) (version : Bytes) (disk : Disk) (input : Bytes) :
    Except StartupError Program :=
  match openWal host disk.wal .buffered 32 with
  | .error e => .error (.wal e)
  | .ok wal => match loadSnapshot host disk.snapshot ∅ with
    | .error e => .error (.snapshot e)
    | .ok (snapshotResult,data) =>
      match replayFromDetailed host wal.file snapshotResult.walOffset data with
      | .error e => .error (.wal e)
      | .ok (replay,data) => .ok
        { store := KVStore.start hash wal data disk.snapshot disk.temp
          input := input
          output := ascii "Concurrent KV Store v" ++ version ++ ascii "\nConcurrency: " ++
            ascii kConcurrencyModel ++ ascii "\nLoading snapshot...\nLoaded " ++
            decimal snapshotResult.entryCount ++
            ascii " snapshot entrie(s)\nReplaying WAL...\nRecovered " ++
            decimal replay.appliedOperations ++ ascii " operation(s)\n" }

end ConcurrentKV
