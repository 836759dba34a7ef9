import Mathlib.Data.List.Basic

/-! A mutex that is shared by readers or held by one writer, with its holders by name. -/

inductive RwLock where
  | shared (holders : List ℕ)
  | exclusive (holder : ℕ)
  deriving DecidableEq, Repr

namespace RwLock

def free : RwLock := .shared []

/-- Taking the lock, when it can be had. -/
def acquire (exclusive : Bool) (id : ℕ) : RwLock → Option RwLock
  | .shared holders =>
    if exclusive then if holders = [] then some (.exclusive id) else none
    else some (.shared (id :: holders))
  | .exclusive _ => none

def release (id : ℕ) : RwLock → RwLock
  | .shared holders => .shared (holders.erase id)
  | .exclusive _ => free

/-- `id` holds the lock in this mode. -/
def Held (l : RwLock) (exclusive : Bool) (id : ℕ) : Prop :=
  match l with
  | .shared holders => exclusive = false ∧ id ∈ holders
  | .exclusive holder => exclusive = true ∧ id = holder

variable {l l' : RwLock} {x y : Bool} {id other : ℕ}

theorem held_of_acquire (h : l.acquire x id = some l') : l'.Held x id := by
  cases l with
  | exclusive holder => cases h
  | shared holders =>
    cases x with
    | false =>
      obtain rfl := Option.some.inj h
      exact ⟨rfl, List.mem_cons_self⟩
    | true =>
      simp only [acquire, ↓reduceIte] at h
      split at h
      · obtain rfl := Option.some.inj h
        exact ⟨rfl, rfl⟩
      · cases h

theorem Held.acquire (h : l.Held x id) (hother : l.acquire y other = some l') :
    l'.Held x id := by
  cases l with
  | exclusive holder => cases hother
  | shared holders =>
    obtain ⟨rfl,hmem⟩ := h
    cases y with
    | false =>
      obtain rfl := Option.some.inj hother
      exact ⟨rfl, List.mem_cons_of_mem _ hmem⟩
    | true =>
      simp [RwLock.acquire, List.ne_nil_of_mem hmem] at hother

theorem Held.release (h : l.Held x id) (hother : l.Held y other) (hne : id ≠ other) :
    (l.release other).Held x id := by
  cases l with
  | exclusive holder => exact absurd (h.2.trans hother.2.symm) hne
  | shared holders => exact ⟨h.1, (List.mem_erase_of_ne hne).mpr h.2⟩

/-- Beside a writer nobody holds the lock. -/
theorem Held.eq (h : l.Held true id) (hother : l.Held y other) : other = id := by
  cases l with
  | shared holders => cases h.1
  | exclusive holder => exact hother.2.trans h.2.symm

end RwLock
