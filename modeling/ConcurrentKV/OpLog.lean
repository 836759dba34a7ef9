import Mathlib.Data.Finmap
import Mathlib.Data.List.Sublists

/-! Logs of set and delete operations over a finite map. Every equality of maps
below is read off key by key from the last operation on that key. -/
namespace OpLog

variable {K V : Type*} [DecidableEq K]

abbrev Map (K V : Type*) := Finmap (fun _ : K => V)

inductive Op (K V : Type*) where
  | set (key : K) (value : V)
  | delete (key : K)
  deriving DecidableEq, Repr

def Op.key : Op K V → K
  | .set k _ => k
  | .delete k => k

/-- What a lookup of the operation's key finds right after it. -/
def Op.effect : Op K V → Option V
  | .set _ v => some v
  | .delete _ => none

def applyOp (op : Op K V) (m : Map K V) : Map K V :=
  match op with
  | .set k v => m.insert k v
  | .delete k => m.erase k

def applyOps (ops : List (Op K V)) (m : Map K V) : Map K V :=
  ops.foldl (fun m op => applyOp op m) m

/-- The effect of the last operation on `k`, if there is one. -/
def lastEffect (k : K) : List (Op K V) → Option (Option V)
  | [] => none
  | op :: ops => (lastEffect k ops).or (if op.key = k then some op.effect else none)

@[simp] theorem applyOps_nil (m : Map K V) : applyOps [] m = m := rfl

@[simp] theorem applyOps_cons (op : Op K V) (ops : List (Op K V)) (m : Map K V) :
    applyOps (op :: ops) m = applyOps ops (applyOp op m) := rfl

theorem applyOps_append (xs ys : List (Op K V)) (m : Map K V) :
    applyOps (xs++ys) m = applyOps ys (applyOps xs m) := List.foldl_append

theorem lookup_applyOp (op : Op K V) (m : Map K V) (k : K) :
    (applyOp op m).lookup k = if op.key = k then op.effect else m.lookup k := by
  cases op with
  | set k' v =>
    by_cases hk : k' = k
    · subst hk
      simp [applyOp, Op.key, Op.effect]
    · simp [applyOp, Op.key, hk, Finmap.lookup_insert_of_ne m (Ne.symm hk)]
  | delete k' =>
    by_cases hk : k' = k
    · subst hk
      simp [applyOp, Op.key, Op.effect]
    · simp [applyOp, Op.key, hk, Finmap.lookup_erase_ne (Ne.symm hk)]

theorem lookup_applyOps (ops : List (Op K V)) (m : Map K V) (k : K) :
    (applyOps ops m).lookup k = (lastEffect k ops).getD (m.lookup k) := by
  induction ops generalizing m with
  | nil => rfl
  | cons op ops ih =>
    rw [applyOps_cons, ih, lookup_applyOp, lastEffect]
    cases lastEffect k ops with
    | some e => rfl
    | none =>
      by_cases hk : op.key = k <;> simp [hk]

theorem lastEffect_append (k : K) (xs ys : List (Op K V)) :
    lastEffect k (xs++ys) = (lastEffect k ys).or (lastEffect k xs) := by
  induction xs with
  | nil => simp [lastEffect]
  | cons op xs ih => rw [List.cons_append, lastEffect, ih, lastEffect, Option.or_assoc]

theorem lastEffect_eq_none_iff (k : K) (ops : List (Op K V)) :
    lastEffect k ops = none ↔ ∀ op ∈ ops, op.key ≠ k := by
  induction ops with
  | nil => simp [lastEffect]
  | cons op ops ih =>
    rw [lastEffect, Option.or_eq_none_iff, ih]
    by_cases hk : op.key = k <;> simp [hk]

/-- A key's last effect is that of one of the operations on it. -/
theorem lastEffect_mem {k : K} {ops : List (Op K V)} {e : Option V}
    (h : lastEffect k ops = some e) : ∃ op ∈ ops, op.key = k ∧ op.effect = e := by
  induction ops with
  | nil => simp [lastEffect] at h
  | cons op ops ih =>
    rw [lastEffect] at h
    cases ht : lastEffect k ops with
    | some e' =>
      obtain ⟨o,ho,hk,he⟩ := ih (by simpa [ht] using h)
      exact ⟨o, List.mem_cons_of_mem _ ho, hk, he⟩
    | none =>
      by_cases hk : op.key = k
      · exact ⟨op, List.mem_cons_self, hk, by simpa [ht, hk] using h⟩
      · simp [ht, hk] at h

/-- Replaying `ops` over `m` changes nothing. -/
def Fixed (ops : List (Op K V)) (m : Map K V) : Prop := applyOps ops m = m

theorem fixed_iff (ops : List (Op K V)) (m : Map K V) :
    Fixed ops m ↔ ∀ k e, lastEffect k ops = some e → m.lookup k = e := by
  constructor
  · intro h k e he
    have hk := lookup_applyOps ops m k
    rw [h, he] at hk
    exact hk
  · intro h
    apply Finmap.ext_lookup
    intro k
    rw [lookup_applyOps]
    cases he : lastEffect k ops with
    | none => rfl
    | some e => exact (h k e he).symm

theorem fixed_nil (m : Map K V) : Fixed [] m := rfl

theorem fixed_applyOps (ops : List (Op K V)) (m : Map K V) : Fixed ops (applyOps ops m) := by
  rw [fixed_iff]
  intro k e he
  rw [lookup_applyOps, he, Option.getD_some]

/-- New operations keep the map a fixpoint of the whole log, although replaying the
old ones transiently undoes them. -/
theorem Fixed.append {xs : List (Op K V)} {m : Map K V} (h : Fixed xs m) (ys : List (Op K V)) :
    Fixed (xs++ys) (applyOps ys m) := by
  rw [fixed_iff] at h ⊢
  intro k e he
  rw [lastEffect_append] at he
  rw [lookup_applyOps]
  cases hy : lastEffect k ys with
  | some e' => simpa [hy] using he
  | none => exact h k e (by simpa [hy] using he)

/-- Replaying a log from anywhere inside the part a map already covers. -/
theorem applyOps_drop_take (ops : List (Op K V)) (m : Map K V) {j n : ℕ} (hj : j ≤ n) :
    applyOps (ops.drop j) (applyOps (ops.take n) m) = applyOps ops m := by
  apply Finmap.ext_lookup
  intro k
  have hsplit : lastEffect k ops =
      (lastEffect k (ops.drop j)).or (lastEffect k (ops.take j)) := by
    rw [← lastEffect_append, List.take_append_drop]
  have htake : lastEffect k (ops.take n) =
      (lastEffect k ((ops.take n).drop j)).or (lastEffect k (ops.take j)) := by
    have ht : (ops.take n).take j = ops.take j := by rw [List.take_take, Nat.min_eq_left hj]
    rw [← ht, ← lastEffect_append, List.take_append_drop]
  rw [lookup_applyOps, lookup_applyOps, lookup_applyOps, hsplit, htake]
  cases hd : lastEffect k (ops.drop j) with
  | some e => rfl
  | none =>
    -- nothing after position `j` touches `k`, so the part up to `n` does not either
    have hn : lastEffect k ((ops.take n).drop j) = none := by
      rw [lastEffect_eq_none_iff] at hd ⊢
      intro op hop
      apply hd
      rw [List.drop_take] at hop
      exact List.mem_of_mem_take hop
    simp [hn]

/-- The map shows the operation: a lookup finds what it would right after it. -/
def Reflects (m : Map K V) (op : Op K V) : Prop := m.lookup op.key = op.effect

/-- From `m` to `m'` every key keeps its value or takes that of one of `ops`. -/
def ChangedBy (ops : List (Op K V)) (m m' : Map K V) : Prop :=
  ∀ k, m'.lookup k = m.lookup k ∨ ∃ op ∈ ops, op.key = k ∧ m'.lookup k = op.effect

theorem ChangedBy.refl (ops : List (Op K V)) (m : Map K V) : ChangedBy ops m m := fun _ => .inl rfl

theorem ChangedBy.mono {xs ys : List (Op K V)} {m m' : Map K V} (h : ChangedBy xs m m')
    (hsub : ∀ op ∈ xs, op ∈ ys) : ChangedBy ys m m' := by
  intro k
  rcases h k with hk | ⟨op,hop,hk⟩
  · exact .inl hk
  · exact .inr ⟨op, hsub op hop, hk⟩

theorem ChangedBy.trans {xs : List (Op K V)} {m m' m'' : Map K V} (h : ChangedBy xs m m')
    (h' : ChangedBy xs m' m'') : ChangedBy xs m m'' := by
  intro k
  rcases h' k with hk | hop
  · rw [hk]
    exact h k
  · exact .inr hop

theorem changedBy_applyOps {xs ops : List (Op K V)} (hsub : ∀ op ∈ ops, op ∈ xs) (m : Map K V) :
    ChangedBy xs m (applyOps ops m) := by
  intro k
  rw [lookup_applyOps]
  cases he : lastEffect k ops with
  | none => exact .inl rfl
  | some e =>
    obtain ⟨op,hop,hk,he⟩ := lastEffect_mem he
    exact .inr ⟨op, hsub op hop, hk, he.symm⟩

/-- An operation comes to show only by being one of `ops`. -/
theorem ChangedBy.mem_of_reflects {ops : List (Op K V)} {m m' : Map K V} (h : ChangedBy ops m m')
    {op : Op K V} (hm : ¬Reflects m op) (hm' : Reflects m' op) : op ∈ ops := by
  rcases h op.key with hk | ⟨op',hop,hk,he⟩
  · exact absurd (hk.symm.trans hm') hm
  · have heff : op'.effect = op.effect := he.symm.trans hm'
    -- key and effect say which operation it is
    cases op <;> cases op' <;> simp_all [Op.key, Op.effect]

end OpLog
