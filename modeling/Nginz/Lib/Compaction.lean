import Mathlib.Tactic

/-! Sparse tables: the entries among the first slots of a table that has holes, and what
filling and trimming do to them. -/
namespace Compaction
open scoped List
variable {α β : Type*}

/-- The entries of the first `n` slots, in order. -/
def entries (g : ℕ → Option α) (n : ℕ) : List α := (List.range n).filterMap g

theorem entries_succ (g : ℕ → Option α) (n : ℕ) :
    entries g (n + 1) = entries g n ++ (g n).toList := by
  unfold entries
  rw [List.range_succ, List.filterMap_append]
  cases hg : g n <;> simp [hg]

theorem mem_entries {g : ℕ → Option α} {n : ℕ} {a : α} :
    a ∈ entries g n ↔ ∃ i < n, g i = some a := by
  unfold entries
  simp

theorem entries_congr {g g' : ℕ → Option α} {n : ℕ} (h : ∀ i < n, g i = g' i) :
    entries g n = entries g' n := by
  induction n with
  | zero => rfl
  | succ n ih =>
    rw [entries_succ, entries_succ, ih fun i hi => h i (by omega), h n (by omega)]

/-- A hole at the end does not count. -/
theorem entries_trim {g : ℕ → Option α} {n : ℕ} (h : g n = none) :
    entries g (n + 1) = entries g n := by
  rw [entries_succ, h]
  simp

theorem entries_update (g : ℕ → Option α) {n i : ℕ} (hi : n ≤ i) (x : Option α) :
    entries (Function.update g i x) n = entries g n := by
  apply entries_congr
  intro j hj
  exact Function.update_of_ne (by omega) ..

/-- A change of one slot changes the entries by what was in the slot and what is. -/
theorem entries_replace (g : ℕ → Option α) {n i : ℕ} (hi : i < n) (x : Option α) :
    ((g i).toList ++ entries (Function.update g i x) n).Perm (x.toList ++ entries g n) := by
  induction n with
  | zero => omega
  | succ n ih =>
    rw [entries_succ, entries_succ]
    by_cases hlast : i = n
    · subst hlast
      rw [entries_update g le_rfl, Function.update_self]
      calc (g i).toList ++ (entries g i ++ x.toList)
        _ ~ entries g i ++ x.toList ++ (g i).toList := List.perm_append_comm
        _ ~ x.toList ++ entries g i ++ (g i).toList := List.perm_append_comm.append_right _
        _ = x.toList ++ (entries g i ++ (g i).toList) := List.append_assoc ..
    · rw [Function.update_of_ne (Ne.symm hlast), ← List.append_assoc, ← List.append_assoc]
      exact (ih (by omega)).append_right _

/-- The last entry moves into a hole. -/
theorem entries_fill (g : ℕ → Option α) {n i : ℕ} (hi : i < n) (hole : g i = none) :
    (entries (Function.update g i (g n)) n).Perm (entries g (n + 1)) := by
  have h := entries_replace g hi (g n)
  rw [hole] at h
  rw [entries_succ]
  exact h.trans List.perm_append_comm

/-- An entry goes and leaves a hole. -/
theorem entries_clear (g : ℕ → Option α) {n i : ℕ} (hi : i < n) {a : α} (ha : g i = some a) :
    (a :: entries (Function.update g i none) n).Perm (entries g n) := by
  have h := entries_replace g hi none
  rw [ha] at h
  exact h

/-- Without holes there are as many entries as slots. -/
theorem length_entries {g : ℕ → Option α} {n : ℕ} (h : ∀ i < n, g i ≠ none) :
    (entries g n).length = n := by
  induction n with
  | zero => rfl
  | succ n ih =>
    obtain ⟨a, ha⟩ := Option.ne_none_iff_exists'.mp (h n (by omega))
    rw [entries_succ, List.length_append, ih fun i hi => h i (by omega), ha]
    rfl

end Compaction
