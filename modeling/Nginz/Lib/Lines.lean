import Mathlib.Tactic

/-! The lines of a text: its pieces that end in a line end, and the search for the first of
them that has a property. -/
namespace Lines
variable {α : Type*} [DecidableEq α] (nl : α)

/-- The first line for which `stop` holds and the text behind it, in a text cut at its line
ends; the last piece has no line end and is no line. -/
def searchPieces (stop : List α → Prop) [DecidablePred stop] :
    List (List α) → Option (List α × List α)
  | line :: next :: rest =>
    if stop line then some (line, [nl].intercalate (next :: rest))
    else searchPieces stop (next :: rest)
  | _ => none

/-- The first line for which `stop` holds, and the text behind it. -/
def search (stop : List α → Prop) [DecidablePred stop] (text : List α) :
    Option (List α × List α) :=
  searchPieces nl stop (text.splitOn nl)

/-- A text has lines up to a tail without a line end. -/
theorem byLines {motive : List α → Prop} (tail : ∀ tail, nl ∉ tail → motive tail)
    (line : ∀ line rest, nl ∉ line → motive rest → motive (line ++ nl :: rest))
    (text : List α) : motive text := by
  induction h : text.length using Nat.strong_induction_on generalizing text with
  | _ n ih =>
    by_cases hmem : nl ∈ text
    · obtain ⟨before, rest, htext, hbefore⟩ := List.eq_append_cons_of_mem hmem
      have hlt : rest.length < n := by
        rw [← h, htext, List.length_append, List.length_cons]
        omega
      rw [htext]
      exact line before rest hbefore (ih rest.length hlt rest rfl)
    · exact tail text hmem

variable {nl} {stop : List α → Prop} [DecidablePred stop] {line rest text tail : List α}

theorem search_tail (h : nl ∉ tail) : search nl stop tail = none := by
  rw [search, List.splitOn_eq_singleton h]
  rfl

theorem search_line (h : nl ∉ line) (rest : List α) :
    search nl stop (line ++ nl :: rest) =
      if stop line then some (line, rest) else search nl stop rest := by
  have hpieces : rest.splitOn nl ≠ [] := List.splitOn_ne_nil nl rest
  have hjoin : [nl].intercalate (rest.splitOn nl) = rest := List.intercalate_splitOn nl
  rw [search, search, List.splitOn_append_cons_self_of_not_mem h]
  cases hs : rest.splitOn nl with
  | nil => exact absurd hs hpieces
  | cons next more =>
    rw [hs] at hjoin
    rw [searchPieces, hjoin]

/-- What is behind a line is shorter than the text. -/
theorem search_length {found : List α × List α} (h : search nl stop text = some found) :
    found.2.length < text.length := by
  induction text using byLines nl with
  | tail tail htail =>
    rw [search_tail htail] at h
    cases h
  | line line rest hline ih =>
    rw [search_line hline] at h
    rw [List.length_append, List.length_cons]
    split at h
    · obtain rfl := Option.some.inj h
      change rest.length < _
      omega
    · have := ih h
      omega

/-- A coarser search that stops at another line than the finer one leaves the finer one the
rest of the text. -/
theorem search_of_imp (nl : α) {coarse : List α → Prop} [DecidablePred coarse]
    (himp : ∀ line, stop line → coarse line) (text : List α) :
    match search nl coarse text with
    | none => search nl stop text = none
    | some (line, rest) =>
      search nl stop text = if stop line then some (line, rest) else search nl stop rest := by
  induction text using byLines nl with
  | tail tail htail =>
    rw [search_tail htail]
    exact search_tail htail
  | line line rest hline ih =>
    have hcut : search nl coarse (line ++ nl :: rest) =
        if coarse line then some (line, rest) else search nl coarse rest := search_line hline rest
    rw [hcut]
    by_cases hc : coarse line
    · rw [if_pos hc]
      exact search_line hline rest
    · have hs : ¬ stop line := fun h => hc (himp line h)
      rw [if_neg hc, search_line hline, if_neg hs]
      exact ih

end Lines
