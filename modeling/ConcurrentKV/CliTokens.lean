import ConcurrentKV.ByteCodec
import ConcurrentKV.Words

/-! `Trim`, `SplitWhitespaceView` and `ToUpper` of `string_utils.cpp` in the C locale: index loops
over arbitrary bytes, and the words of the text that they find. -/
namespace ConcurrentKV
open ByteCodec Words

/-- `std::isspace`: the blank, and the bytes from the tab to the carriage return. -/
def isSpace (c : UInt8) : Bool := c == 0x20 || (0x09 ≤ c && c ≤ 0x0D)

/-- `std::toupper`. -/
def toUpperByte (c : UInt8) : UInt8 := if 0x61 ≤ c && c ≤ 0x7A then c-0x20 else c

def toUpper (input : Bytes) : Bytes := input.map toUpperByte

/-- The loop `while (index < input.size() && p(input[index])) ++index`. -/
def scan (p : UInt8 → Bool) (input : Bytes) (index : ℕ) : ℕ :=
  if h : index < input.length then
    if p input[index] then scan p input (index+1) else index
  else index
termination_by input.length-index

/-- The loop `while (end > begin && isspace(input[end - 1])) --end`. -/
def scanBack (input : Bytes) (first : ℕ) : ℕ → ℕ
  | 0 => 0
  | last+1 =>
    if first < last+1 && input[last]?.any isSpace then scanBack input first last else last+1

def trim (input : Bytes) : Bytes :=
  let first := scan isSpace input 0
  let last := scanBack input first input.length
  (input.drop first).take (last-first)

variable {p : UInt8 → Bool} {input : Bytes} {index : ℕ}

/-! ### The loops -/

/-- A loop passes a run of bytes with `p` and stops where the run does. -/
theorem scan_spec (p : UInt8 → Bool) (h : index ≤ input.length) :
    ∃ run, (∀ c ∈ run, p c = true) ∧ scan p input index = index+run.length ∧
      scan p input index ≤ input.length ∧
      input.drop index = run ++ input.drop (scan p input index) ∧
      ∀ c, (input.drop (scan p input index)).head? = some c → p c = false := by
  fun_induction scan p input index with
  | case1 index hlt hp ih =>
    obtain ⟨run,hrun,heq,hle,hdrop,hstop⟩ := ih hlt
    refine ⟨input[index] :: run, ?_, ?_, hle, ?_, hstop⟩
    · intro c hc
      rcases List.mem_cons.mp hc with rfl | hc
      · exact hp
      · exact hrun c hc
    · rw [heq, List.length_cons]
      omega
    · rw [List.drop_eq_getElem_cons hlt, hdrop, List.cons_append]
  | case2 index hlt hp =>
    refine ⟨[], fun c hc => absurd hc List.not_mem_nil, rfl, hlt.le, rfl, fun c hc => ?_⟩
    rw [List.drop_eq_getElem_cons hlt, List.head?_cons] at hc
    rw [← Option.some.inj hc]
    exact Bool.eq_false_iff.mpr hp
  | case3 index hge =>
    refine ⟨[], fun c hc => absurd hc List.not_mem_nil, rfl, h, rfl, fun c hc => ?_⟩
    rw [List.drop_eq_nil_of_le (Nat.le_of_not_lt hge)] at hc
    cases hc

/-- Behind where the backward loop stops there are blanks only. -/
theorem scanBack_spec {first last : ℕ} (hfirst : first ≤ last) (hlast : last ≤ input.length) :
    ∃ run, (∀ c ∈ run, isSpace c = true) ∧ first ≤ scanBack input first last ∧
      input.take last = input.take (scanBack input first last) ++ run := by
  induction last with
  | zero => exact ⟨[], fun c hc => absurd hc List.not_mem_nil, hfirst, (List.append_nil _).symm⟩
  | succ last ih =>
    have hlt : last < input.length := hlast
    by_cases hback : (first < last+1 && input[last]?.any isSpace) = true
    · obtain ⟨hin,hspace⟩ := Bool.and_eq_true_iff.mp hback
      rw [List.getElem?_eq_getElem hlt, Option.any_some] at hspace
      obtain ⟨run,hrun,hle,htake⟩ := ih (Nat.le_of_lt_succ (of_decide_eq_true hin)) hlt.le
      rw [scanBack, if_pos hback]
      refine ⟨run ++ [input[last]], ?_, hle, ?_⟩
      · intro c hc
        rcases List.mem_append.mp hc with hc | hc
        · exact hrun c hc
        · rw [List.mem_singleton.mp hc]
          exact hspace
      · rw [List.take_succ_eq_append_getElem hlt, htake, List.append_assoc]
    · rw [scanBack, if_neg hback]
      exact ⟨[], fun c hc => absurd hc List.not_mem_nil, hfirst, (List.append_nil _).symm⟩

/-- Trimming takes blanks away at both ends, and at the front all of them. -/
theorem trim_spec (input : Bytes) :
    ∃ front back, (∀ c ∈ front, isSpace c = true) ∧ (∀ c ∈ back, isSpace c = true) ∧
      input = front ++ (trim input ++ back) ∧
      ∀ c, (trim input).head? = some c → isSpace c = false := by
  obtain ⟨front,hfront,-,hle,hdrop,hstop⟩ := scan_spec isSpace (Nat.zero_le input.length)
  obtain ⟨back,hback,hfirst,htake⟩ := scanBack_spec hle (Nat.le_refl input.length)
  rw [List.drop_zero] at hdrop
  rw [List.take_length] at htake
  have hrest : input.drop (scan isSpace input 0) = trim input ++ back := by
    have hcut := congrArg (List.drop (scan isSpace input 0)) htake
    rw [List.drop_append_of_le_length (by rw [List.length_take]; omega), List.drop_take] at hcut
    exact hcut
  refine ⟨front, back, hfront, hback, ?_, fun c hc => ?_⟩
  · rw [← hrest]
    exact hdrop
  · apply hstop c
    rw [hrest, List.head?_append, hc]
    rfl

/-- Trimming does not change the words. -/
theorem words_trim (input : Bytes) : words isSpace (trim input) = words isSpace input := by
  obtain ⟨front,back,hfront,hback,hinput,-⟩ := trim_spec input
  rw [hinput, words_seps_append hfront, words_append_seps hback, ← hinput]

/-- What is left after trimming is empty only when there is no word. -/
theorem trim_eq_nil_iff (input : Bytes) : trim input = [] ↔ words isSpace input = [] := by
  rw [← words_trim input]
  constructor
  · intro h
    rw [h, words_nil]
  · intro h
    obtain ⟨-,-,-,-,-,hhead⟩ := trim_spec input
    cases htrim : trim input with
    | nil => rfl
    | cons c rest =>
      rw [htrim] at h hhead
      exact absurd h (words_cons_ne_nil (hhead c rfl))

/-! ### Splitting -/

theorem le_scan (p : UInt8 → Bool) (input : Bytes) (index : ℕ) : index ≤ scan p input index := by
  fun_induction scan p input index with
  | case1 index _ _ ih => omega
  | case2 | case3 => exact Nat.le_refl _

/-- Two loops in a row, over the blanks and over the others, get past at least one byte. -/
theorem lt_scan_scan (h : index < input.length) :
    index < scan (fun c => !isSpace c) input (scan isSpace input index) := by
  have hle := le_scan (fun c => !isSpace c) input (scan isSpace input index)
  by_cases hspace : isSpace input[index] = true
  · have hnext := le_scan isSpace input (index+1)
    have heq : scan isSpace input index = scan isSpace input (index+1) := by
      rw [scan, dif_pos h, if_pos hspace]
    omega
  · have hstay : scan isSpace input index = index := by
      rw [scan, dif_pos h, if_neg hspace]
    have hnext := le_scan (fun c => !isSpace c) input (index+1)
    rw [hstay, scan, dif_pos h, if_pos (by simpa using hspace)]
    omega

/-- The loop of `SplitWhitespaceView`. -/
def splitLoop (input : Bytes) (index : ℕ) : List Bytes :=
  if _h : index < input.length then
    let first := scan isSpace input index
    let next := scan (fun c => !isSpace c) input first
    if first < next then (input.drop first).take (next-first) :: splitLoop input next
    else splitLoop input next
  else []
termination_by input.length-index
decreasing_by
  all_goals
    have hlt := lt_scan_scan _h
    omega

def splitWhitespaceView (input : Bytes) : List Bytes := splitLoop input 0

/-- The loop finds the words of what is left. -/
theorem splitLoop_eq (input : Bytes) (index : ℕ) (h : index ≤ input.length) :
    splitLoop input index = words isSpace (input.drop index) := by
  fun_induction splitLoop input index with
  | case1 index hlt first next hword ih =>
    obtain ⟨blanks,hblanks,-,hfirst,hdrop,-⟩ := scan_spec isSpace h
    obtain ⟨word,hchars,hlen,hnext,hrest,hstop⟩ := scan_spec (fun c => !isSpace c) hfirst
    have hisWord : IsWord isSpace word := by
      refine ⟨?_, fun c hc => by simpa using hchars c hc⟩
      rintro rfl
      exact absurd hword (by simp [next, hlen, first])
    have htoken : (input.drop first).take (next-first) = word := by
      rw [hrest, List.take_left' (by simp [next, hlen, first])]
    rw [htoken, ih hnext, hdrop, words_seps_append hblanks, hrest,
      words_word_append hisWord fun c hc => by simpa using hstop c hc]
  | case2 index hlt first next hempty ih =>
    obtain ⟨blanks,hblanks,-,hfirst,hdrop,-⟩ := scan_spec isSpace h
    obtain ⟨-,-,-,hnext,-,-⟩ := scan_spec (fun c => !isSpace c) hfirst
    have hsame : next = first := Nat.le_antisymm (Nat.le_of_not_lt hempty) (le_scan ..)
    rw [ih hnext, hsame, hdrop, words_seps_append hblanks]
  | case3 index hge => rw [List.drop_eq_nil_of_le (Nat.le_of_not_lt hge), words_nil]

theorem splitWhitespaceView_eq (input : Bytes) :
    splitWhitespaceView input = words isSpace input :=
  splitLoop_eq input 0 (Nat.zero_le _)

end ConcurrentKV
