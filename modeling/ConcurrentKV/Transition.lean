import Mathlib.Data.List.Induction

/-! Runs of a transition function that may refuse a label. -/
namespace Transition

variable {S L : Type*} {step : S → L → Option S}

/-- The state after performing the labels in order, if every one of them is enabled. -/
def run (step : S → L → Option S) : S → List L → Option S
  | s, [] => some s
  | s, l :: ls => (step s l).bind fun t => run step t ls

@[simp] theorem run_nil (s : S) : run step s [] = some s := rfl

theorem run_cons (s : S) (l : L) (ls : List L) :
    run step s (l :: ls) = (step s l).bind fun t => run step t ls := rfl

theorem run_cons_eq_some {s t : S} {l : L} {ls : List L} :
    run step s (l :: ls) = some t ↔ ∃ u, step s l = some u ∧ run step u ls = some t := by
  rw [run_cons, Option.bind_eq_some_iff]

theorem run_append (s : S) (xs ys : List L) :
    run step s (xs ++ ys) = (run step s xs).bind fun t => run step t ys := by
  induction xs generalizing s with
  | nil => rfl
  | cons l xs ih =>
    rw [List.cons_append, run_cons, run_cons, Option.bind_assoc]
    exact Option.bind_congr fun t _ => ih t

/-- Induction along a run, with what is still to come in view. -/
theorem run_induction {P : S → List L → Prop}
    (hstep : ∀ s l ls t, P s (l :: ls) → step s l = some t → P t ls) {s t : S} {ls : List L}
    (hrun : run step s ls = some t) (hs : P s ls) : P t [] := by
  induction ls generalizing s with
  | nil =>
    obtain rfl := Option.some.inj hrun
    exact hs
  | cons l ls ih =>
    obtain ⟨u,hu,hrun⟩ := run_cons_eq_some.mp hrun
    exact ih hrun (hstep s l ls u hs hu)

/-- What every allowed step preserves holds after every run of allowed steps. -/
theorem run_invariant {P : S → Prop} {A : L → Prop}
    (hstep : ∀ s l t, A l → P s → step s l = some t → P t) {s t : S} {ls : List L}
    (hls : ∀ l ∈ ls, A l) (hrun : run step s ls = some t) (hs : P s) : P t := by
  refine (run_induction (P := fun s ls => P s ∧ ∀ l ∈ ls, A l) ?_ hrun ⟨hs,hls⟩).1
  rintro s l ls t ⟨hP,hA⟩ hl
  exact ⟨hstep s l t (hA l List.mem_cons_self) hP hl, fun l hl => hA l (List.mem_cons_of_mem _ hl)⟩

/-- Some run leads from one state to the other. -/
def Reaches (step : S → L → Option S) (s t : S) : Prop := ∃ ls, run step s ls = some t

theorem Reaches.refl (s : S) : Reaches step s s := ⟨[], rfl⟩

theorem Reaches.of_step {s t : S} {l : L} (h : step s l = some t) : Reaches step s t :=
  ⟨[l], by rw [run_cons, h, Option.bind_some, run_nil]⟩

theorem Reaches.trans {s t u : S} (h : Reaches step s t) (h' : Reaches step t u) :
    Reaches step s u := by
  obtain ⟨xs,hxs⟩ := h
  obtain ⟨ys,hys⟩ := h'
  exact ⟨xs ++ ys, by rw [run_append, hxs, Option.bind_some, hys]⟩

/-- Every step of a run meets a condition on its label and the state before it. -/
def Along (step : S → L → Option S) (C : S → L → Prop) : S → List L → Prop
  | _, [] => True
  | s, l :: ls => C s l ∧ ∀ t, step s l = some t → Along step C t ls

instance decidableAlong {C : S → L → Prop} [∀ s l, Decidable (C s l)] :
    (s : S) → (ls : List L) → Decidable (Along step C s ls)
  | _, [] => isTrue trivial
  | s, l :: ls => match hst : step s l with
    | none => decidable_of_iff (C s l) ⟨fun h => ⟨h, by simp [hst]⟩, And.left⟩
    | some t =>
      have : Decidable (Along step C t ls) := decidableAlong t ls
      decidable_of_iff (C s l ∧ Along step C t ls)
        ⟨fun h => ⟨h.1, fun u hu => Option.some.inj (hst.symm.trans hu) ▸ h.2⟩,
          fun h => ⟨h.1, h.2 t hst⟩⟩

/-- What every step that meets the condition preserves holds after a run of such steps. -/
theorem run_along {P : S → Prop} {C : S → L → Prop}
    (hstep : ∀ s l t, C s l → P s → step s l = some t → P t) {s t : S} {ls : List L}
    (hls : Along step C s ls) (hrun : run step s ls = some t) (hs : P s) : P t := by
  refine (run_induction (P := fun s ls => P s ∧ Along step C s ls) ?_ hrun ⟨hs,hls⟩).1
  rintro s l ls t ⟨hP,hC⟩ hl
  exact ⟨hstep s l t hC.1 hP hl, hC.2 t hl⟩

/-- The condition along a run, read at each of its steps. -/
theorem along_iff {C : S → L → Prop} {s : S} {ls : List L} : Along step C s ls ↔
    ∀ xs l ys u, ls = xs ++ l :: ys → run step s xs = some u → C u l := by
  induction ls generalizing s with
  | nil => simp [Along]
  | cons l ls ih =>
    constructor
    · rintro ⟨hl,hrest⟩ xs l' ys u hls hu
      cases xs with
      | nil =>
        obtain rfl := Option.some.inj hu
        obtain ⟨rfl,-⟩ := List.cons.inj hls
        exact hl
      | cons x xs =>
        obtain ⟨rfl,htail⟩ := List.cons.inj hls
        obtain ⟨v,hv,hu⟩ := run_cons_eq_some.mp hu
        exact ih.mp (hrest v hv) xs l' ys u htail hu
    · intro hall
      refine ⟨hall [] l ls s rfl rfl, fun t ht => ih.mpr ?_⟩
      intro xs l' ys u hls hu
      refine hall (l :: xs) l' ys u (by rw [hls]; rfl) ?_
      rw [run_cons, ht, Option.bind_some, hu]

theorem Along.take {C : S → L → Prop} {s : S} {xs ys : List L} (h : Along step C s (xs ++ ys)) :
    Along step C s xs := by
  rw [along_iff] at h ⊢
  rintro as l bs u rfl hu
  exact h as l (bs ++ ys) u (by simp) hu

theorem Along.append {C : S → L → Prop} {s t : S} {xs ys : List L} (hxs : Along step C s xs)
    (hrun : run step s xs = some t) (hys : Along step C t ys) : Along step C s (xs ++ ys) := by
  induction xs generalizing s with
  | nil =>
    obtain rfl := Option.some.inj hrun
    exact hys
  | cons l xs ih =>
    obtain ⟨u,hu,hrun⟩ := run_cons_eq_some.mp hrun
    refine ⟨hxs.1, fun v hv => ?_⟩
    obtain rfl := Option.some.inj (hu.symm.trans hv)
    exact ih (hxs.2 u hu) hrun

/-- What holds at the end and not at the beginning came about in some step and has held ever
since. -/
theorem run_last_entry {Q : S → Prop} {s t : S} {ls : List L} (hrun : run step s ls = some t)
    (hs : ¬Q s) (ht : Q t) :
    ∃ xs l ys a b, ls = xs ++ l :: ys ∧ run step s xs = some a ∧ ¬Q a ∧ step a l = some b ∧ Q b ∧
      Along step (fun u _ => Q u) b ys ∧ run step b ys = some t := by
  induction ls using List.reverseRecOn generalizing t with
  | nil =>
    obtain rfl := Option.some.inj hrun
    exact absurd ht hs
  | append_singleton ls l ih =>
    rw [run_append, Option.bind_eq_some_iff] at hrun
    obtain ⟨u,hu,hlast⟩ := hrun
    obtain ⟨t',hl,ht'⟩ := run_cons_eq_some.mp hlast
    obtain rfl := Option.some.inj ht'
    by_cases hQ : Q u
    · obtain ⟨xs,l',ys,a,b,rfl,ha,hQa,hb,hQb,halong,hys⟩ := ih hu hQ
      refine ⟨xs, l', ys ++ [l], a, b, by simp, ha, hQa, hb, hQb,
        halong.append hys ⟨hQ, fun _ _ => trivial⟩, ?_⟩
      rw [run_append, hys, Option.bind_some, hlast]
    · exact ⟨ls, l, [], u, t', rfl, hu, hQ, hl, ht, trivial, rfl⟩

end Transition
