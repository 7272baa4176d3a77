import Mathlib.Tactic

/-! A text cut into chunks: how a stream can arrive in pieces of a bounded size, and what
every two ways of cutting it have in common. -/
namespace Cuts
variable {α : Type*}

/-- The chunks are the text in order; none of them is empty, and all are below the limit. -/
structure IsCut (n : ℕ) (text : List α) (chunks : List (List α)) : Prop where
  whole : chunks.flatten = text
  nonempty : ∀ chunk ∈ chunks, chunk ≠ []
  below : ∀ chunk ∈ chunks, chunk.length < n

namespace IsCut
variable {n : ℕ} {text text' chunk : List α} {chunks chunks' : List (List α)}

protected theorem nil : IsCut n ([] : List α) [] := ⟨rfl, by simp, by simp⟩

theorem append (h : IsCut n text chunks) (h' : IsCut n text' chunks') :
    IsCut n (text ++ text') (chunks ++ chunks') where
  whole := by rw [List.flatten_append, h.whole, h'.whole]
  nonempty c hc := (List.mem_append.mp hc).elim (h.nonempty c) (h'.nonempty c)
  below c hc := (List.mem_append.mp hc).elim (h.below c) (h'.below c)

theorem one (hne : chunk ≠ []) (hlen : chunk.length < n) : IsCut n chunk [chunk] where
  whole := List.append_nil chunk
  nonempty c hc := by rwa [List.mem_singleton.mp hc]
  below c hc := by rwa [List.mem_singleton.mp hc]

theorem cons (hne : chunk ≠ []) (hlen : chunk.length < n) (h : IsCut n text chunks) :
    IsCut n (chunk ++ text) (chunk :: chunks) := (one hne hlen).append h

/-- A text can arrive element by element. -/
theorem singles (hn : 1 < n) (text : List α) : IsCut n text (text.map fun x => [x]) := by
  induction text with
  | nil => exact .nil
  | cons x xs ih => exact cons (List.cons_ne_nil x []) hn ih

theorem repeated (hne : chunk ≠ []) (hlen : chunk.length < n) (k : ℕ) :
    IsCut n (List.replicate k chunk).flatten (List.replicate k chunk) where
  whole := rfl
  nonempty c hc := by rwa [List.eq_of_mem_replicate hc]
  below c hc := by rwa [List.eq_of_mem_replicate hc]

/-- A run of one element in chunks of `m`. -/
theorem run {m : ℕ} (hm : 0 < m) (hn : m < n) (x : α) (k : ℕ) :
    IsCut n (List.replicate (k * m) x) (List.replicate k (List.replicate m x)) := by
  rw [← List.flatten_replicate_replicate]
  exact repeated (by simp [hm.ne']) (by rwa [List.length_replicate]) k

theorem first (h : IsCut n text (chunk :: chunks)) : chunk ≠ [] ∧ chunk.length < n ∧
    IsCut n (text.drop chunk.length) chunks ∧ chunk = text.take chunk.length := by
  obtain ⟨rfl, hne, hbelow⟩ := h
  refine ⟨hne chunk List.mem_cons_self, hbelow chunk List.mem_cons_self, ⟨?_, ?_, ?_⟩, ?_⟩
  · rw [List.flatten_cons, List.drop_left]
  · exact fun c hc => hne c (List.mem_cons_of_mem chunk hc)
  · exact fun c hc => hbelow c (List.mem_cons_of_mem chunk hc)
  · rw [List.flatten_cons, List.take_left]

theorem eq_nil (h : IsCut n [] chunks) : chunks = [] := by
  cases chunks with
  | nil => rfl
  | cons chunk chunks =>
    obtain ⟨hne, -, -, htake⟩ := h.first
    exact absurd (htake.trans List.take_nil) hne

theorem ne_nil (h : IsCut n text chunks) (ht : text ≠ []) : chunks ≠ [] := by
  rintro rfl
  exact ht h.whole.symm

/-- A text of one element has one cut. -/
theorem unique (h : IsCut n text chunks) (h' : IsCut n text chunks') (hlen : text.length ≤ 1) :
    chunks = chunks' := by
  have hone {cut : List (List α)} (hcut : IsCut n text cut) (ht : text ≠ []) : cut = [text] := by
    cases cut with
    | nil => exact absurd rfl (hcut.ne_nil ht)
    | cons chunk rest =>
      obtain ⟨hne, -, hrest, htake⟩ := hcut.first
      have hpos := List.length_pos_iff.mpr hne
      rw [List.drop_of_length_le (by omega)] at hrest
      rw [List.take_of_length_le (by omega)] at htake
      rw [hrest.eq_nil, htake]
  by_cases ht : text = []
  · subst ht
    rw [h.eq_nil, h'.eq_nil]
  · rw [hone h ht, hone h' ht]

end IsCut

/-- How often a text repeats an element at its front. -/
theorem leading_run (x : α) (text : List α) :
    ∃ j rest, text = List.replicate j x ++ rest ∧ rest.head? ≠ some x := by
  classical
  induction text with
  | nil => exact ⟨0, [], rfl, by simp⟩
  | cons y ys ih =>
    by_cases hy : y = x
    · obtain ⟨j, rest, hrest, hhead⟩ := ih
      refine ⟨j + 1, rest, ?_, hhead⟩
      rw [hrest, hy, List.replicate_succ, List.cons_append]
    · exact ⟨0, y :: ys, rfl, fun he => hy (Option.some.inj he)⟩

end Cuts
