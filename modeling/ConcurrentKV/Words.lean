import Mathlib.Data.List.Basic

/-! The words of a text: its maximal runs of letters that are not separators. -/
namespace Words

variable {α : Type*} {sep : α → Bool} {c : α} {s t w : List α} {ws : List (List α)}

/-- What stands between the separators, without the empty pieces. -/
def words (sep : α → Bool) (s : List α) : List (List α) :=
  (s.splitOnP sep).filter fun w => !w.isEmpty

/-- Something that can be a word. -/
def IsWord (sep : α → Bool) (w : List α) : Prop := w ≠ [] ∧ ∀ c ∈ w, sep c = false

-- Decided along the list, also over a finite type of letters.
instance [DecidableEq α] : Decidable (IsWord sep w) :=
  @instDecidableAnd _ _ inferInstance (List.decidableBAll (fun c => sep c = false) w)

/-- A separator parts the words on its two sides. -/
theorem words_append_sep (hc : sep c = true) :
    words sep (s ++ c :: t) = words sep s ++ words sep t := by
  rw [words, List.splitOnP_append_cons s t hc, List.filter_append]
  rfl

@[simp] theorem words_nil : words sep [] = [] := by
  simp [words]

theorem words_cons_sep (hc : sep c = true) : words sep (c :: s) = words sep s := by
  have h := @words_append_sep α sep c [] s hc
  rwa [words_nil, List.nil_append, List.nil_append] at h

theorem words_of_isWord (h : IsWord sep w) : words sep w = [w] := by
  simp [words, List.splitOnP_eq_singleton h.2, h.1]

/-- Separators in front of a text do not count. -/
theorem words_seps_append (h : ∀ c ∈ t, sep c = true) : words sep (t ++ s) = words sep s := by
  induction t with
  | nil => rfl
  | cons c t ih =>
    rw [List.cons_append, words_cons_sep (h c List.mem_cons_self)]
    exact ih fun d hd => h d (List.mem_cons_of_mem c hd)

theorem words_of_seps (h : ∀ c ∈ t, sep c = true) : words sep t = [] := by
  have ht := @words_seps_append α sep [] t h
  rwa [List.append_nil, words_nil] at ht

/-- Nor do those behind it. -/
theorem words_append_seps (h : ∀ c ∈ t, sep c = true) : words sep (s ++ t) = words sep s := by
  cases t with
  | nil => rw [List.append_nil]
  | cons c t =>
    rw [words_append_sep (h c List.mem_cons_self),
      words_of_seps fun d hd => h d (List.mem_cons_of_mem c hd), List.append_nil]

/-- A word at the front, up to a separator or the end. -/
theorem words_word_append (hw : IsWord sep w) (ht : ∀ c, t.head? = some c → sep c = true) :
    words sep (w ++ t) = w :: words sep t := by
  cases t with
  | nil => rw [List.append_nil, words_of_isWord hw, words_nil]
  | cons c t =>
    have hc := ht c rfl
    rw [words_append_sep hc, words_of_isWord hw, words_cons_sep hc, List.singleton_append]

/-- A text that does not start with a separator has a word. -/
theorem words_cons_ne_nil (hc : sep c = false) : words sep (c :: s) ≠ [] := by
  obtain ⟨piece,pieces,hsplit⟩ := List.exists_cons_of_ne_nil (List.splitOnP_ne_nil sep s)
  simp [words, List.splitOnP_cons_eq_if_modifyHead, hc, hsplit]

theorem sepFree_of_mem_splitOnP {piece : List α} (h : piece ∈ s.splitOnP sep) :
    ∀ c ∈ piece, sep c = false := by
  induction s generalizing piece with
  | nil =>
    rw [List.splitOnP_nil, List.mem_singleton] at h
    subst h
    exact fun c hc => absurd hc List.not_mem_nil
  | cons d s ih =>
    obtain ⟨first,pieces,hsplit⟩ := List.exists_cons_of_ne_nil (List.splitOnP_ne_nil sep s)
    rw [hsplit] at ih
    rw [List.splitOnP_cons_eq_if_modifyHead, hsplit] at h
    cases hd : sep d with
    | true =>
      rw [hd, if_pos rfl] at h
      rcases List.mem_cons.mp h with rfl | h
      · exact fun c hc => absurd hc List.not_mem_nil
      · exact ih h
    | false =>
      rw [hd, if_neg Bool.false_ne_true, List.modifyHead_cons] at h
      rcases List.mem_cons.mp h with rfl | h
      · intro c hc
        rcases List.mem_cons.mp hc with rfl | hc
        · exact hd
        · exact ih List.mem_cons_self c hc
      · exact ih (List.mem_cons_of_mem first h)

theorem isWord_of_mem (h : w ∈ words sep s) : IsWord sep w := by
  obtain ⟨hmem,hne⟩ := List.mem_filter.mp h
  exact ⟨by simpa using hne, sepFree_of_mem_splitOnP hmem⟩

/-- Joined one by one. -/
theorem intercalate_cons_eq_flatMap (c : α) (w : List α) (ws : List (List α)) :
    [c].intercalate (w :: ws) = w ++ ws.flatMap (c :: ·) := by
  induction ws generalizing w with
  | nil => rw [List.intercalate_singleton, List.flatMap_nil, List.append_nil]
  | cons v ws ih =>
    rw [List.intercalate_cons_of_ne_nil (List.cons_ne_nil v ws), ih, List.flatMap_cons]
    simp

/-- Words joined by single separators are read back. -/
theorem words_intercalate (hc : sep c = true) (h : ∀ w ∈ ws, IsWord sep w) :
    words sep ([c].intercalate ws) = ws := by
  induction ws with
  | nil => exact words_nil
  | cons w ws ih =>
    have hw := h w List.mem_cons_self
    have hws := ih fun v hv => h v (List.mem_cons_of_mem w hv)
    cases ws with
    | nil => rw [List.intercalate_singleton, words_of_isWord hw]
    | cons v ws =>
      rw [List.intercalate_cons_of_ne_nil (List.cons_ne_nil v ws), List.append_assoc,
        List.singleton_append, words_append_sep hc, words_of_isWord hw, hws,
        List.singleton_append]

end Words
