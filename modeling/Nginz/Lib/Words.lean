import Mathlib.Data.List.TakeWhile
import Mathlib.Tactic

/-! The words of a text: its maximal runs of elements that are no separators. -/
namespace Words
variable {α : Type*} (sep : α → Bool)

/-- The pieces between the separators, but for the empty ones. -/
def words (text : List α) : List (List α) := (text.splitOnP sep).filter fun word => !word.isEmpty

variable {sep} {c : α} {text word rest : List α}

@[simp] theorem words_nil : words sep ([] : List α) = [] := by
  simp [words, List.splitOnP_nil]

/-- A separator ends a word. -/
theorem words_append_sep (hc : sep c) (text rest : List α) :
    words sep (text ++ c :: rest) = words sep text ++ words sep rest := by
  unfold words
  rw [List.splitOnP_append_cons text rest hc, List.filter_append]

/-- A separator in front of a text belongs to no word. -/
theorem words_cons_sep (hc : sep c) (rest : List α) : words sep (c :: rest) = words sep rest := by
  have h := words_append_sep hc [] rest
  rwa [words_nil, List.nil_append, List.nil_append] at h

theorem words_dropWhile (text : List α) : words sep (text.dropWhile sep) = words sep text := by
  induction text with
  | nil => rfl
  | cons c rest ih =>
    by_cases hc : sep c
    · rw [List.dropWhile_cons_of_pos hc, words_cons_sep hc, ih]
    · rw [List.dropWhile_cons_of_neg hc]

/-- A text without a separator is one word. -/
theorem words_single (hne : word ≠ []) (h : ∀ c ∈ word, sep c = false) :
    words sep word = [word] := by
  unfold words
  rw [List.splitOnP_eq_singleton h]
  simp [hne]

/-- The first word, and the words behind it. -/
theorem words_append (hne : word ≠ []) (h : ∀ c ∈ word, sep c = false)
    (hrest : ∀ c ∈ rest.head?, sep c) : words sep (word ++ rest) = word :: words sep rest := by
  cases rest with
  | nil => rw [List.append_nil, words_single hne h, words_nil]
  | cons c rest =>
    have hc : sep c := hrest c rfl
    rw [words_append_sep hc, words_single hne h, words_cons_sep hc]
    rfl

/-- Skipping the separators and taking what is none yields the first word. -/
theorem words_eq_cons (hne : text.dropWhile sep ≠ []) :
    words sep text = (text.dropWhile sep).takeWhile (! sep ·) ::
      words sep ((text.dropWhile sep).dropWhile (! sep ·)) := by
  rw [← words_dropWhile text]
  have hhead := List.head_dropWhile_not sep hne
  have hword : (text.dropWhile sep).takeWhile (! sep ·) ≠ [] := by
    cases hd : text.dropWhile sep with
    | nil => exact absurd hd hne
    | cons c rest =>
      simp only [hd, List.head_cons] at hhead
      simp [hhead]
  have hclean : ∀ c ∈ (text.dropWhile sep).takeWhile (! sep ·), sep c = false := by
    intro c hc
    simpa using List.mem_takeWhile_imp hc
  have hend : ∀ c ∈ ((text.dropWhile sep).dropWhile (! sep ·)).head?, sep c := by
    intro c hc
    have h := List.head?_dropWhile_not (! sep ·) (text.dropWhile sep)
    rw [Option.mem_def.mp hc] at h
    simpa using h
  have hsplit := words_append hword hclean hend
  rwa [List.takeWhile_append_dropWhile] at hsplit

theorem ne_nil_of_mem_words (h : word ∈ words sep text) : word ≠ [] := by
  have hpiece := (List.mem_filter.mp h).2
  simpa using hpiece

/-- The words together are no longer than the text. -/
theorem words_flatten_length_le (text : List α) :
    (words sep text).flatten.length ≤ text.length := by
  have hpieces : (text.splitOnP sep).flatten.length ≤ text.length := by
    induction text with
    | nil => simp
    | cons c rest ih =>
      rw [List.splitOnP_cons_eq_if_modifyHead]
      split
      · simpa using ih.trans (Nat.le_succ _)
      · cases hsplit : rest.splitOnP sep with
        | nil => exact absurd hsplit (List.splitOnP_ne_nil sep rest)
        | cons piece pieces =>
          rw [hsplit] at ih
          simpa using ih
  exact ((List.filter_sublist (l := text.splitOnP sep)).flatten.length_le).trans hpieces

end Words
