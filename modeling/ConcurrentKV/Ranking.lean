import ConcurrentKV.Transition
import Mathlib.Algebra.BigOperators.Fin

/-! Systems in which every step comes closer to an end. -/
namespace Transition

/-- A sum over a family of which one member changes. -/
theorem sum_update_add {ι α M : Type*} [Fintype ι] [DecidableEq ι] [AddCommMonoid M] (f : α → M)
    (xs : ι → α) (i : ι) (x : α) :
    ∑ j, f (Function.update xs i x j)+f (xs i) = ∑ j, f (xs j)+f x := by
  have hsplit (ys : ι → α) : ∑ j, f (ys j) = f (ys i)+∑ j ∈ Finset.univ.erase i, f (ys j) :=
    (Finset.add_sum_erase _ _ (Finset.mem_univ i)).symm
  have hrest : ∑ j ∈ Finset.univ.erase i, f (Function.update xs i x j) =
      ∑ j ∈ Finset.univ.erase i, f (xs j) := by
    apply Finset.sum_congr rfl
    intro j hj
    rw [Function.update_of_ne (Finset.ne_of_mem_erase hj)]
  rw [hsplit (Function.update xs i x), hsplit xs, hrest, Function.update_self, add_right_comm,
    add_comm (f x), add_right_comm]

variable {S L : Type*} {step : S → L → Option S} {P Q : S → Prop} {rank : S → ℕ} {s t : S}

/-- Every step keeps the invariant and lowers the rank. -/
def Ranked (step : S → L → Option S) (P : S → Prop) (rank : S → ℕ) : Prop :=
  ∀ s l t, P s → step s l = some t → P t ∧ rank t < rank s

/-- A run has no more steps than its first state has rank. -/
theorem Ranked.run_length (h : Ranked step P rank) {ls : List L} (hrun : run step s ls = some t)
    (hs : P s) : P t ∧ ls.length+rank t ≤ rank s := by
  induction ls generalizing s with
  | nil =>
    obtain rfl := Option.some.inj hrun
    exact ⟨hs, by simp⟩
  | cons l ls ih =>
    obtain ⟨u,hu,hrest⟩ := run_cons_eq_some.mp hrun
    obtain ⟨hPu,hlt⟩ := h s l u hs hu
    obtain ⟨hPt,hle⟩ := ih hrest hPu
    refine ⟨hPt, ?_⟩
    rw [List.length_cons]
    omega

/-- If only ends are stuck, an end can be reached from everywhere. -/
theorem Ranked.reaches (h : Ranked step P rank)
    (hgo : ∀ s, P s → Q s ∨ ∃ l t, step s l = some t) (hs : P s) :
    ∃ ls t, run step s ls = some t ∧ Q t := by
  induction hn : rank s using Nat.strongRecOn generalizing s with
  | _ n ih =>
    rcases hgo s hs with hQ | ⟨l,u,hu⟩
    · exact ⟨[], s, rfl, hQ⟩
    · obtain ⟨hPu,hlt⟩ := h s l u hs hu
      obtain ⟨ls,t,hrun,hQ⟩ := ih (rank u) (hn ▸ hlt) hPu rfl
      exact ⟨l :: ls, t, run_cons_eq_some.mpr ⟨u, hu, hrun⟩, hQ⟩

end Transition
