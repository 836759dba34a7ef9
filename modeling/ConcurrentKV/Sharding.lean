import ConcurrentKV.OpLog
import Mathlib.Algebra.BigOperators.Fin
import Mathlib.Data.List.FinRange

/-! Finite maps split by a function of the key, and put together again. -/
namespace Sharding
open OpLog

variable {K V : Type*} [DecidableEq K]

/-- The entries whose key satisfies `p`. -/
def restrict (p : K → Bool) (m : Map K V) : Map K V where
  entries := m.entries.filter fun e => p e.1
  nodupKeys := by
    obtain ⟨entries,h⟩ := m
    induction entries using Quotient.inductionOn with
    | h l => exact h.sublist List.filter_sublist

theorem lookup_restrict (p : K → Bool) (m : Map K V) (k : K) :
    (restrict p m).lookup k = if p k then m.lookup k else none := by
  ext v
  have hmem (m : Map K V) : m.lookup k = some v ↔ (⟨k,v⟩ : Sigma fun _ : K => V) ∈ m.entries :=
    Finmap.mem_lookup_iff
  cases hp : p k with
  | false => simp [hmem, restrict, hp]
  | true => simp [hmem, restrict, hp]

variable {n : ℕ}

/-- One map for each value of `f`. -/
def split (f : K → Fin n) (m : Map K V) (i : Fin n) : Map K V := restrict (fun k => f k == i) m

/-- All entries of all maps; of two with one key the first stays. -/
def collect (shards : Fin n → Map K V) : Map K V :=
  (List.finRange n).foldl (fun result i => result ∪ shards i) ∅

/-- Every key is in its own map. -/
def Separated (f : K → Fin n) (shards : Fin n → Map K V) : Prop :=
  ∀ i k, f k ≠ i → (shards i).lookup k = none

theorem lookup_union (a b : Map K V) (k : K) :
    (a ∪ b).lookup k = (a.lookup k).or (b.lookup k) := by
  by_cases hk : k ∈ a
  · obtain ⟨v,hv⟩ := Option.isSome_iff_exists.mp (Finmap.lookup_isSome.mpr hk)
    rw [Finmap.lookup_union_left hk, hv, Option.some_or]
  · rw [Finmap.lookup_union_right hk, Finmap.lookup_eq_none.mpr hk, Option.none_or]

theorem lookup_foldl_union {f : K → Fin n} {shards : Fin n → Map K V} (h : Separated f shards)
    (l : List (Fin n)) (acc : Map K V) (k : K) :
    (l.foldl (fun result i => result ∪ shards i) acc).lookup k =
      (acc.lookup k).or (if f k ∈ l then (shards (f k)).lookup k else none) := by
  induction l generalizing acc with
  | nil => simp
  | cons i l ih =>
    rw [List.foldl_cons, ih, lookup_union, Option.or_assoc]
    by_cases hi : f k = i
    · subst hi
      cases hv : (shards (f k)).lookup k <;> simp
    · simp [h i k hi, hi]

/-- A lookup in the collected map looks into the map of the key. -/
theorem lookup_collect {f : K → Fin n} {shards : Fin n → Map K V} (h : Separated f shards) (k : K) :
    (collect shards).lookup k = (shards (f k)).lookup k := by
  rw [collect, lookup_foldl_union h]
  simp

theorem separated_split (f : K → Fin n) (m : Map K V) : Separated f (split f m) := by
  intro i k hk
  rw [split, lookup_restrict, if_neg (by simpa using hk)]

theorem lookup_split (f : K → Fin n) (m : Map K V) (k : K) :
    (split f m (f k)).lookup k = m.lookup k := by
  rw [split, lookup_restrict, if_pos (by simp)]

theorem collect_split (f : K → Fin n) (m : Map K V) : collect (split f m) = m := by
  apply Finmap.ext_lookup
  intro k
  rw [lookup_collect (separated_split f m), lookup_split]

/-- Separated maps agree with `m` when each does on its own keys. -/
theorem collect_eq {f : K → Fin n} {shards : Fin n → Map K V} {m : Map K V}
    (h : Separated f shards) (hm : ∀ k, (shards (f k)).lookup k = m.lookup k) :
    collect shards = m := by
  apply Finmap.ext_lookup
  intro k
  rw [lookup_collect h, hm]

theorem separated_empty (f : K → Fin n) : Separated f fun _ => (∅ : Map K V) :=
  fun _ _ _ => Finmap.lookup_empty _

theorem collect_empty (f : K → Fin n) : collect (fun _ : Fin n => (∅ : Map K V)) = ∅ :=
  collect_eq (separated_empty f) fun _ => rfl

/-- An operation on a key in the key's own map. -/
theorem Separated.update {f : K → Fin n} {shards : Fin n → Map K V} (h : Separated f shards)
    (op : Op K V) : Separated f (Function.update shards (f op.key)
      (applyOp op (shards (f op.key)))) := by
  intro i k hk
  by_cases hi : i = f op.key
  · subst hi
    have hne : op.key ≠ k := by
      rintro rfl
      exact hk rfl
    rw [Function.update_self, lookup_applyOp, if_neg hne]
    exact h _ k hk
  · rw [Function.update_of_ne hi]
    exact h i k hk

theorem collect_update {f : K → Fin n} {shards : Fin n → Map K V} (h : Separated f shards)
    (op : Op K V) : collect (Function.update shards (f op.key) (applyOp op (shards (f op.key)))) =
      applyOp op (collect shards) := by
  refine collect_eq (h.update op) fun k => ?_
  rw [lookup_applyOp, lookup_collect h]
  by_cases hi : f k = f op.key
  · rw [hi, Function.update_self, lookup_applyOp]
  · have hk : op.key ≠ k := fun hk => hi (hk ▸ rfl)
    rw [Function.update_of_ne hi, if_neg hk]

/-! ### Sizes -/

/-- The number of entries in all maps together. -/
def totalSize (shards : Fin n → Map K V) : ℕ :=
  (List.finRange n).foldl (fun size i => size+(shards i).keys.card) 0

omit [DecidableEq K] in
theorem totalSize_eq_sum (shards : Fin n → Map K V) :
    totalSize shards = ∑ i, (shards i).keys.card := by
  have hfold (l : List (Fin n)) (acc : ℕ) :
      l.foldl (fun size i => size+(shards i).keys.card) acc =
        acc+(l.map fun i => (shards i).keys.card).sum := by
    induction l generalizing acc with
    | nil => rfl
    | cons i l ih => rw [List.foldl_cons, ih, List.map_cons, List.sum_cons, Nat.add_assoc]
  rw [totalSize, hfold, Nat.zero_add, ← List.ofFn_eq_map, List.sum_ofFn]

/-- The keys of one of the separated maps are those of the whole that belong to it. -/
theorem keys_eq_filter {f : K → Fin n} {shards : Fin n → Map K V} (h : Separated f shards)
    (i : Fin n) : (shards i).keys = (collect shards).keys.filter fun k => f k = i := by
  ext k
  rw [Finset.mem_filter, Finmap.mem_keys, Finmap.mem_keys, ← Finmap.lookup_isSome,
    ← Finmap.lookup_isSome, lookup_collect h]
  by_cases hk : f k = i
  · simp [hk]
  · simp [hk, h i k hk]

/-- No key is counted twice. -/
theorem totalSize_eq {f : K → Fin n} {shards : Fin n → Map K V} (h : Separated f shards) :
    totalSize shards = (collect shards).keys.card := by
  rw [totalSize_eq_sum, Finset.card_eq_sum_card_fiberwise (f := f) (t := Finset.univ) (by simp)]
  exact Finset.sum_congr rfl fun i _ => by rw [keys_eq_filter h]

/-! ### Distributing the entries of a map -/

/-- An entry goes into the map of its key, unless the key is there already. -/
def place (f : K → Fin n) (shards : Fin n → Map K V) (entry : K × V) : Fin n → Map K V :=
  Function.update shards (f entry.1) (shards (f entry.1) ∪ Finmap.singleton entry.1 entry.2)

def distribute (f : K → Fin n) (entries : List (K × V)) : Fin n → Map K V :=
  entries.foldl (place f) fun _ => ∅

theorem lookup_singleton (k x : K) (v : V) :
    (Finmap.singleton x v : Map K V).lookup k = if x = k then some v else none := by
  by_cases hk : x = k
  · subst hk
    simp
  · rw [if_neg hk, Finmap.lookup_eq_none, Finmap.mem_singleton]
    exact Ne.symm hk

theorem lookup_place (f : K → Fin n) (shards : Fin n → Map K V) (entry : K × V) (i : Fin n)
    (k : K) : (place f shards entry i).lookup k =
      ((shards i).lookup k).or (if f k = i ∧ entry.1 = k then some entry.2 else none) := by
  by_cases hi : i = f entry.1
  · subst hi
    rw [place, Function.update_self, lookup_union, lookup_singleton]
    by_cases hk : entry.1 = k <;> simp [hk]
  · have hnot : ¬(f k = i ∧ entry.1 = k) := fun ⟨hik,hk⟩ => hi (hk ▸ hik.symm)
    rw [place, Function.update_of_ne hi, if_neg hnot, Option.or_none]

theorem lookup_foldl_place (f : K → Fin n) (entries : List (K × V)) (shards : Fin n → Map K V)
    (i : Fin n) (k : K) : (entries.foldl (place f) shards i).lookup k = ((shards i).lookup k).or
      (if f k = i then (entries.find? fun e => e.1 = k).map Prod.snd else none) := by
  induction entries generalizing shards with
  | nil => simp
  | cons e entries ih =>
    rw [List.foldl_cons, ih, lookup_place, Option.or_assoc]
    by_cases hi : f k = i
    · by_cases hk : e.1 = k <;> simp [hi, hk]
    · simp [hi]

/-- Whatever order the entries come in, each map gets its own. -/
theorem distribute_eq_split (f : K → Fin n) {entries : List (K × V)} {m : Map K V}
    (hm : ∀ k v, m.lookup k = some v ↔ (k,v) ∈ entries) : distribute f entries = split f m := by
  have hfind (k : K) : (entries.find? fun e => e.1 = k).map Prod.snd = m.lookup k := by
    cases hf : entries.find? fun e => e.1 = k with
    | none =>
      rw [Option.map_none, eq_comm, Option.eq_none_iff_forall_ne_some]
      intro v hv
      exact List.find?_eq_none.mp hf _ ((hm k v).mp hv) (decide_eq_true rfl)
    | some e =>
      have hk : e.1 = k := by simpa using List.find?_some hf
      subst hk
      exact ((hm _ _).mpr (List.mem_of_find?_eq_some hf)).symm
  funext i
  apply Finmap.ext_lookup
  intro k
  rw [distribute, lookup_foldl_place, Finmap.lookup_empty, Option.none_or, split, lookup_restrict,
    hfind]
  simp only [beq_iff_eq]

theorem split_empty (f : K → Fin n) : split f (∅ : Map K V) = fun _ => ∅ := by
  funext i
  apply Finmap.ext_lookup
  intro k
  rw [split, lookup_restrict, Finmap.lookup_empty, ite_self]

theorem split_collect {f : K → Fin n} {shards : Fin n → Map K V} (h : Separated f shards) :
    split f (collect shards) = shards := by
  funext i
  apply Finmap.ext_lookup
  intro k
  rw [split, lookup_restrict, lookup_collect h]
  by_cases hi : f k = i
  · simp [hi]
  · simp [hi, h i k hi]

theorem split_applyOp (f : K → Fin n) (m : Map K V) (op : Op K V) : split f (applyOp op m) =
    Function.update (split f m) (f op.key) (applyOp op (split f m (f op.key))) := by
  have hsep := separated_split f m
  rw [← split_collect (hsep.update op), collect_update hsep, collect_split]

theorem totalSize_split (f : K → Fin n) (m : Map K V) : totalSize (split f m) = m.keys.card := by
  rw [totalSize_eq (separated_split f m), collect_split]

/-- The parts of a loop over all maps. -/
theorem take_finRange_succ {k : ℕ} (hk : k < n) :
    (List.finRange n).take (k+1) = (List.finRange n).take k ++ [⟨k,hk⟩] := by
  rw [List.take_add_one, List.getElem?_eq_getElem (by simpa using hk), List.getElem_finRange]
  rfl

theorem take_finRange_of_le {k : ℕ} (hk : n ≤ k) : (List.finRange n).take k = List.finRange n :=
  List.take_of_length_le (by simpa using hk)

end Sharding
