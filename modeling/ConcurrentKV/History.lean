import Mathlib.Data.List.Nodup

/-! Histories of calls that overlap, and the sequential order that explains one. -/
namespace History

variable {C R S : Type*}

inductive Event (C R : Type*) where
  | invoke (id : ℕ) (call : C)
  | ret (id : ℕ) (result : R)
  deriving DecidableEq

/-- A call in a sequential order, with what it returns there. -/
structure Entry (C R : Type*) where
  id : ℕ
  call : C
  result : R

/-- The state after the calls of the order, if each returned what the specification says. -/
def Replays (respond : C → S → R × S) : S → List (Entry C R) → S → Prop
  | m, [], m' => m = m'
  | m, e :: es, m' => (respond e.call m).1 = e.result ∧ Replays respond (respond e.call m).2 es m'

/-- Whoever returned before `b` was invoked stands before `b` in the order. -/
def RealTime (history : List (Event C R)) (order : List (Entry C R)) : Prop :=
  ∀ before after a result b call, history = before ++ after → Event.ret a result ∈ before →
    Event.invoke b call ∈ after → b ∈ order.map Entry.id → [a,b].Sublist (order.map Entry.id)

/-- The history is that of a sequential run of the specification: an order of all calls that have
returned, and of some that have not, in which each returns what it did return, and which respects
the order of calls that do not overlap. -/
structure Explains (respond : C → S → R × S) (init : S) (history : List (Event C R))
    (order : List (Entry C R)) (m : S) : Prop where
  nodup : (order.map Entry.id).Nodup
  replays : Replays respond init order m
  invoked : ∀ e ∈ order, Event.invoke e.id e.call ∈ history
  returned : ∀ id result, Event.ret id result ∈ history → ∃ call, ⟨id, call, result⟩ ∈ order
  realTime : RealTime history order

variable {respond : C → S → R × S} {init m : S} {history : List (Event C R)}
  {order : List (Entry C R)} {id : ℕ} {call : C} {result : R}

theorem Replays.concat (h : Replays respond init order m) (e : Entry C R)
    (he : (respond e.call m).1 = e.result) :
    Replays respond init (order ++ [e]) (respond e.call m).2 := by
  induction order generalizing init with
  | nil =>
    obtain rfl : init = m := h
    exact ⟨he, rfl⟩
  | cons x order ih => exact ⟨h.1, ih h.2⟩

/-- An event at the end adds no pair of calls to keep in order, unless it invokes one. -/
theorem RealTime.concat {event : Event C R} (h : RealTime history order)
    (hev : ∀ b call, event = .invoke b call → b ∉ order.map Entry.id) :
    RealTime (history ++ [event]) order := by
  intro before after a result b call hsplit hret hinv hb
  rcases List.eq_nil_or_concat after with rfl | ⟨after',last,rfl⟩
  · exact absurd hinv List.not_mem_nil
  · rw [List.concat_eq_append] at hsplit hinv
    rw [← List.append_assoc] at hsplit
    obtain ⟨hhist,hlast⟩ := List.append_inj' hsplit rfl
    rcases List.mem_append.mp hinv with hinv | hinv
    · exact h before after' a result b call hhist hret hinv hb
    · have hevent : event = .invoke b call := by
        rw [List.singleton_inj.mp hlast, List.mem_singleton.mp hinv]
      exact absurd hb (hev b call hevent)

namespace Explains

theorem nil : Explains respond init [] [] init where
  nodup := List.nodup_nil
  replays := rfl
  invoked := by simp
  returned := by simp
  realTime := by
    intro before after a result b call hsplit hret
    rw [(List.append_eq_nil_iff.mp hsplit.symm).1] at hret
    exact absurd hret List.not_mem_nil

theorem invoke (h : Explains respond init history order m) (hid : id ∉ order.map Entry.id) :
    Explains respond init (history ++ [.invoke id call]) order m where
  nodup := h.nodup
  replays := h.replays
  invoked e he := List.mem_append_left _ (h.invoked e he)
  returned a result ha := by
    rcases List.mem_append.mp ha with ha | ha
    · exact h.returned a result ha
    · cases List.mem_singleton.mp ha
  realTime := h.realTime.concat <| by
    rintro _ _ ⟨⟩
    exact hid

theorem ret (h : Explains respond init history order m) (hid : ⟨id, call, result⟩ ∈ order) :
    Explains respond init (history ++ [.ret id result]) order m where
  nodup := h.nodup
  replays := h.replays
  invoked e he := List.mem_append_left _ (h.invoked e he)
  returned a result' ha := by
    rcases List.mem_append.mp ha with ha | ha
    · exact h.returned a result' ha
    · cases List.mem_singleton.mp ha
      exact ⟨call, hid⟩
  realTime := h.realTime.concat fun _ _ hev => by cases hev

/-- A call takes its place at the end of the order. -/
theorem place (h : Explains respond init history order m) (hid : id ∉ order.map Entry.id)
    (hinv : Event.invoke id call ∈ history) :
    Explains respond init history (order ++ [⟨id, call, (respond call m).1⟩])
      (respond call m).2 where
  nodup := by
    rw [List.map_append, List.nodup_append]
    refine ⟨h.nodup, List.nodup_singleton _, ?_⟩
    rintro a ha b hb rfl
    obtain rfl : a = id := by simpa using hb
    exact hid ha
  replays := h.replays.concat _ rfl
  invoked e he := by
    rcases List.mem_append.mp he with he | he
    · exact h.invoked e he
    · obtain rfl := List.mem_singleton.mp he
      exact hinv
  returned a result ha := by
    obtain ⟨call',hmem⟩ := h.returned a result ha
    exact ⟨call', List.mem_append_left _ hmem⟩
  realTime := by
    intro before after a result b call' hsplit hret hb hmem
    rw [List.map_append] at hmem ⊢
    rcases List.mem_append.mp hmem with hmem | hmem
    · exact (h.realTime before after a result b call' hsplit hret hb hmem).trans
        (List.sublist_append_left _ _)
    · -- `a` has returned, so it has its place already
      have ha : Event.ret a result ∈ history := hsplit ▸ List.mem_append_left _ hret
      obtain ⟨call'',hplaced⟩ := h.returned a result ha
      have hplace : a ∈ order.map Entry.id := List.mem_map_of_mem (f := Entry.id) hplaced
      obtain rfl : b = id := by simpa using hmem
      exact (List.singleton_sublist.mpr hplace).append (List.Sublist.refl [b])

end Explains

end History
