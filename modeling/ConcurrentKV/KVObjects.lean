import ConcurrentKV.KVStore

/-! Calls one after the other on any number of `KVStore` objects that share logs, with copies
and moves between them. What an object keeps its entries in is a parameter: the 64 shards of the
source, or one map, which is what callers are meant to see. -/
namespace ConcurrentKV
open ByteCodec OpLog Sharding Transition

/-- The operations on the entries of a `KVStore`. -/
structure Container (D : Type) where
  empty : D
  find : Bytes → D → Option Bytes
  apply : WalRecord → D → D
  size : D → ℕ
  clear : D → D
  collectData : D → Store
  replaceData : Store → D
  /-- What a move hands over, and what it leaves. -/
  moveData : D → D × D

/-- The 64 shards. A moved `std::unordered_map` is left empty; `replaceLoop_eq` says that the
loop of `ReplaceDataLocked` does what `replaceData` says here. -/
def shardContainer (hash : Bytes → ℕ) : Container (Shard → Store) where
  empty _ := ∅
  find key shards := (shards (shardIndex hash key)).lookup key
  apply op shards := Function.update shards (shardIndex hash op.key)
    (applyOp op (shards (shardIndex hash op.key)))
  size := totalSize
  clear _ _ := ∅
  collectData := collect
  replaceData := split (shardIndex hash)
  moveData shards := (fun i => shards i, fun _ => ∅)

/-- A single finite map. -/
def mapContainer : Container Store where
  empty := ∅
  find key m := m.lookup key
  apply := applyOp
  size m := m.keys.card
  clear _ := ∅
  collectData m := m
  replaceData m := m
  moveData m := (m, ∅)

/-- A `KVStore`. `wal` says which log `wal_` points to. Of the checkpoint worker only what a call
can see of it is here: it sets the counter back, and it records an error. -/
structure StoreObject (D : Type) where
  data : D
  wal : Option ℕ := none
  snapshot : Bool := false
  writesSinceSnapshot : ℕ := 0
  checkpointError : Bool := false

inductive CallError where
  | wal (e : WalError)
  | snapshot (e : SnapshotError)
  | checkpoint
  /-- "cannot copy a store with background checkpointing" -/
  | cannotCopy
  /-- "cannot move a store with background checkpointing" -/
  | cannotMove
  deriving DecidableEq, Repr

inductive CallResult where
  | done
  | value (value : Option Bytes)
  | bool (b : Bool)
  | count (n : ℕ)
  | loaded (result : SnapshotLoadResult)
  | threw (e : CallError)
  deriving DecidableEq, Repr

/-- What a `Set` or `Delete` returns that finds this value of its key. -/
def writeResult (op : WalRecord) (found : Option Bytes) : CallResult :=
  match op with
  | .set _ _ => .done
  | .delete _ => .bool found.isSome

inductive StoreCall where
  | construct (name : ℕ) (wal : Option ℕ) (snapshot : Bool)
  | set (name : ℕ) (key value : Bytes)
  | get (name : ℕ) (key : Bytes)
  | delete (name : ℕ) (key : Bytes)
  | contains (name : ℕ) (key : Bytes)
  | size (name : ℕ)
  | clear (name : ℕ)
  /-- From a snapshot whose path holds `file`. -/
  | loadSnapshot (name : ℕ) (file : Option Bytes)
  | replayFromWal (name wal offset : ℕ)
  | copyConstruct (name other : ℕ)
  | copyAssign (name other : ℕ)
  | moveConstruct (name other : ℕ)
  | moveAssign (name other : ℕ)
  /-- Whatever else happens to a log between two calls, a failure of its file included. -/
  | logChanges (wal : ℕ) (log : WriteAheadLog)
  | workerCaptures (name : ℕ)
  | workerFails (name : ℕ)

structure World (D : Type) where
  stores : ℕ → Option (StoreObject D) := fun _ => none
  wals : ℕ → WriteAheadLog
  returned : List CallResult := []

variable {D : Type}

/-- What copying `y` leaves in `x`. -/
def StoreObject.copyFrom (c : Container D) (x y : StoreObject D) : StoreObject D :=
  { x with
    data := c.replaceData (c.collectData y.data)
    wal := y.wal
    snapshot := y.snapshot
    writesSinceSnapshot := y.writesSinceSnapshot }

/-- What moving `y` leaves in `x`. -/
def StoreObject.moveFrom (c : Container D) (x y : StoreObject D) : StoreObject D :=
  { x with
    data := (c.moveData y.data).1
    wal := y.wal
    snapshot := y.snapshot
    writesSinceSnapshot := y.writesSinceSnapshot }

/-- What moving `y` leaves in `y`. -/
def StoreObject.movedOut (c : Container D) (y : StoreObject D) : StoreObject D :=
  { y with
    data := (c.moveData y.data).2
    wal := none
    snapshot := false
    writesSinceSnapshot := 0 }

namespace World

variable (host : ByteOrder) (c : Container D) (s : World D)

def returns (result : CallResult) : World D := { s with returned := s.returned ++ [result] }

def put (name : ℕ) (x : StoreObject D) : World D :=
  { s with stores := Function.update s.stores name (some x) }

/-- The append to the log of a store, if it has one. -/
def append (wal : Option ℕ) (op : WalRecord) : Except WalError Unit × World D :=
  match wal with
  | none => (.ok (), s)
  | some w => (((s.wals w).append host op).1,
      { s with wals := Function.update s.wals w ((s.wals w).append host op).2 })

/-- `Set` and `Delete`. -/
def write (name : ℕ) (x : StoreObject D) (op : WalRecord) : World D :=
  if x.snapshot && x.checkpointError then s.returns (.threw .checkpoint)
  else match s.append host x.wal op with
    | (.error e, s) => s.returns (.threw (.wal e))
    | (.ok (), s) =>
      let s := s.put name { x with
        data := c.apply op x.data
        writesSinceSnapshot :=
          if x.snapshot then x.writesSinceSnapshot+1 else x.writesSinceSnapshot }
      s.returns (writeResult op (c.find op.key x.data))

/-- A call on the object `name`, if there is one. -/
def onStore (name : ℕ) (f : StoreObject D → World D) : Option (World D) := (s.stores name).map f

/-- A call that makes the object `name` from `other`, or assigns to it. A store with a snapshot
cannot take part. -/
def transfer (name other : ℕ) (x y : StoreObject D) (error : CallError) (moving : Bool) :
    World D :=
  if x.snapshot || y.snapshot then s.returns (.threw error)
  else if moving then
    ((s.put other (y.movedOut c)).put name (x.moveFrom c y)).returns .done
  else (s.put name (x.copyFrom c y)).returns .done

/-- The constructors of an object from another. -/
def construct (name other : ℕ) (error : CallError) (moving : Bool) : Option (World D) :=
  match s.stores name, s.stores other with
  | none, some y => some (s.transfer c name other { data := c.empty } y error moving)
  | _, _ => none

/-- The assignments; one of an object to itself does nothing. -/
def assign (name other : ℕ) (error : CallError) (moving : Bool) : Option (World D) :=
  match s.stores name, s.stores other with
  | some x, some y =>
    some (if name = other then s.returns .done else s.transfer c name other x y error moving)
  | _, _ => none

def step : StoreCall → Option (World D)
  | .construct name wal snapshot => match s.stores name with
    | none => some ((s.put name { data := c.empty, wal, snapshot }).returns .done)
    | some _ => none
  | .set name key value => s.onStore name fun x => s.write host c name x (.set key value)
  | .get name key => s.onStore name fun x => s.returns (.value (c.find key x.data))
  | .delete name key => s.onStore name fun x => s.write host c name x (.delete key)
  | .contains name key => s.onStore name fun x => s.returns (.bool (c.find key x.data).isSome)
  | .size name => s.onStore name fun x => s.returns (.count (c.size x.data))
  | .clear name => s.onStore name fun x =>
      (s.put name { x with data := c.clear x.data, writesSinceSnapshot := 0 }).returns .done
  | .loadSnapshot name file => s.onStore name fun x => match loadSnapshot host file ∅ with
    | .error e => s.returns (.threw (.snapshot e))
    | .ok (result,data) =>
      (s.put name { x with data := c.replaceData data }).returns (.loaded result)
  | .replayFromWal name wal offset => s.onStore name fun x =>
    match replayFromDetailed host (s.wals wal).file offset (c.collectData x.data) with
    | .error e => s.returns (.threw (.wal e))
    | .ok (result,data) => (s.put name { x with data := c.replaceData data }).returns
        (.count result.appliedOperations)
  | .copyConstruct name other => s.construct c name other .cannotCopy false
  | .copyAssign name other => s.assign c name other .cannotCopy false
  | .moveConstruct name other => s.construct c name other .cannotMove true
  | .moveAssign name other => s.assign c name other .cannotMove true
  | .logChanges wal log => some { s with wals := Function.update s.wals wal log }
  | .workerCaptures name => s.onStore name fun x =>
      if x.snapshot then s.put name { x with writesSinceSnapshot := 0 } else s
  | .workerFails name => s.onStore name fun x =>
      if x.snapshot then s.put name { x with checkpointError := true } else s

end World

/-! ### Another representation of the entries -/

/-- `c` does on valid data what `c'` does on what they stand for. -/
structure Container.Represents {D' : Type} (c : Container D) (c' : Container D')
    (valid : D → Prop) (abs : D → D') : Prop where
  empty : valid c.empty ∧ abs c.empty = c'.empty
  find : ∀ key d, valid d → c.find key d = c'.find key (abs d)
  apply : ∀ op d, valid d → valid (c.apply op d) ∧ abs (c.apply op d) = c'.apply op (abs d)
  size : ∀ d, valid d → c.size d = c'.size (abs d)
  clear : ∀ d, valid d → valid (c.clear d) ∧ abs (c.clear d) = c'.clear (abs d)
  collectData : ∀ d, valid d → c.collectData d = c'.collectData (abs d)
  replaceData : ∀ m, valid (c.replaceData m) ∧ abs (c.replaceData m) = c'.replaceData m
  moveData : ∀ d, valid d → valid (c.moveData d).1 ∧ valid (c.moveData d).2 ∧
    abs (c.moveData d).1 = (c'.moveData (abs d)).1 ∧ abs (c.moveData d).2 = (c'.moveData (abs d)).2

def StoreObject.map {D' : Type} (abs : D → D') (x : StoreObject D) : StoreObject D' :=
  ⟨abs x.data, x.wal, x.snapshot, x.writesSinceSnapshot, x.checkpointError⟩

namespace World

variable {D' : Type} {host : ByteOrder} {c : Container D} {c' : Container D'} {valid : D → Prop}
  {abs : D → D'} {s t : World D} {name other : ℕ} {x y : StoreObject D}

def map (abs : D → D') (s : World D) : World D' :=
  ⟨fun name => (s.stores name).map (StoreObject.map abs), s.wals, s.returned⟩

/-- Every object has valid data. -/
def Valid (valid : D → Prop) (s : World D) : Prop :=
  ∀ name x, s.stores name = some x → valid x.data

theorem Valid.put (hs : s.Valid valid) (hx : valid x.data) : (s.put name x).Valid valid := by
  intro n z hz
  by_cases hn : n = name
  · subst hn
    obtain rfl : x = z := Option.some.inj ((Function.update_self n _ _).symm.trans hz)
    exact hx
  · exact hs n z ((Function.update_of_ne hn _ _).symm.trans hz)

theorem Valid.returns (hs : s.Valid valid) (result : CallResult) :
    (s.returns result).Valid valid := hs

theorem Valid.onStore {f : StoreObject D → World D}
    (h : ∀ x, s.stores name = some x → (f x).Valid valid) (ht : s.onStore name f = some t) :
    t.Valid valid := by
  obtain ⟨x,hx,rfl⟩ := Option.map_eq_some_iff.mp ht
  exact h x hx

variable (h : c.Represents c' valid abs)
include h

end World

/-! ### Shards -/

theorem shardContainer_represents (hash : Bytes → ℕ) : (shardContainer hash).Represents
    mapContainer (Separated (shardIndex hash)) collect where
  empty := ⟨separated_empty _, collect_empty (shardIndex hash)⟩
  find key d hd := by
    simp only [shardContainer, mapContainer]
    exact (lookup_collect hd key).symm
  apply op _ hd := by
    simp only [shardContainer, mapContainer]
    exact ⟨hd.update op, collect_update hd op⟩
  size d hd := by
    simp only [shardContainer, mapContainer]
    exact totalSize_eq hd
  clear _ _ := ⟨separated_empty _, collect_empty (shardIndex hash)⟩
  collectData _ _ := rfl
  replaceData m := ⟨separated_split _ m, collect_split _ m⟩
  moveData _ hd := by
    simp only [shardContainer, mapContainer]
    exact ⟨hd, separated_empty _, trivial, collect_empty (shardIndex hash)⟩

end ConcurrentKV
