import Nginz.Lib.Transition

/-! Channels that may lose a part of what is said on them, but neither invent nor reorder: what
a whole run carries is all that was said exactly when no step loses anything. -/
namespace Lossy
open Transition
variable {σ α β : Type*}

/-- What is kept of a text: all of it, or something shorter. -/
def Kept (kept said : List β) : Prop := kept = said ∨ kept.length < said.length

theorem Kept.all (said : List β) : Kept said said := .inl rfl

theorem Kept.of_front {kept said : List β} (h : kept <+: said) : Kept kept said := by
  rcases Nat.lt_or_ge kept.length said.length with hlt | hge
  · exact .inr hlt
  · exact .inl (h.eq_of_length_le hge)

theorem Kept.length_le {kept said : List β} (h : Kept kept said) : kept.length ≤ said.length := by
  rcases h with rfl | h
  · exact le_rfl
  · exact h.le

theorem Kept.append {kept kept' said said' : List β} (h : Kept kept said) (h' : Kept kept' said') :
    Kept (kept ++ kept') (said ++ said') := by
  have hle := h.length_le
  have hle' := h'.length_le
  unfold Kept
  simp only [List.length_append]
  rcases h with rfl | h
  · rcases h' with rfl | h'
    · exact .inl rfl
    · exact .inr (by omega)
  · exact .inr (by omega)

/-- Two texts are kept whole together if and only if each of them is. -/
theorem Kept.append_eq_iff {kept kept' said said' : List β} (h : Kept kept said)
    (h' : Kept kept' said') : kept ++ kept' = said ++ said' ↔ kept = said ∧ kept' = said' := by
  constructor
  · intro heq
    have hle := h.length_le
    have hle' := h'.length_le
    have hlen := congrArg List.length heq
    simp only [List.length_append] at hlen
    exact List.append_inj heq (by omega)
  · rintro ⟨rfl, rfl⟩
    rfl

variable (step : σ → α → σ) (carried : σ → List β) (say : σ → α → List β)

/-- What a step adds to what is carried. -/
def Adds (s : σ) (a : α) (kept : List β) : Prop :=
  carried (step s a) = carried s ++ kept ∧ Kept kept (say s a)

/-- All that is said in a run. -/
def saidAlong : σ → List α → List β
  | _, [] => []
  | s, a :: as => say s a ++ saidAlong (step s a) as

theorem saidAlong_actions (said : α → List β) (s : σ) (as : List α) :
    saidAlong step (fun _ => said) s as = as.flatMap said := by
  induction as generalizing s with
  | nil => rfl
  | cons a as ih => rw [saidAlong, ih, List.flatMap_cons]

variable {step carried say} {P : σ → Prop} {bound : σ → α → Prop}

theorem run_adds (hstep : ∀ s a, P s → bound s a → ∃ kept, Adds step carried say s a kept)
    (hkeep : ∀ s a, P s → bound s a → P (step s a)) {s : σ} (h : P s) {as : List α}
    (hrun : Along step bound s as) : ∃ kept, carried (as.foldl step s) = carried s ++ kept ∧
      Kept kept (saidAlong step say s as) := by
  induction as generalizing s with
  | nil => exact ⟨[], by simp, .all []⟩
  | cons a as ih =>
    obtain ⟨kept, hcarried, hkept⟩ := hstep s a h hrun.1
    obtain ⟨kept', hcarried', hkept'⟩ := ih (hkeep s a h hrun.1) hrun.2
    refine ⟨kept ++ kept', ?_, hkept.append hkept'⟩
    rw [List.foldl_cons, hcarried', hcarried, List.append_assoc]

/-- A run carries all that is said if and only if each of its steps does. -/
theorem run_whole_iff (hstep : ∀ s a, P s → bound s a → ∃ kept, Adds step carried say s a kept)
    (hkeep : ∀ s a, P s → bound s a → P (step s a)) {s : σ} (h : P s) {as : List α}
    (hrun : Along step bound s as) :
    carried (as.foldl step s) = carried s ++ saidAlong step say s as ↔
      Along step (fun s a => carried (step s a) = carried s ++ say s a) s as := by
  induction as generalizing s with
  | nil => simp [saidAlong, Along]
  | cons a as ih =>
    obtain ⟨kept, hcarried, hkept⟩ := hstep s a h hrun.1
    have hnext := hkeep s a h hrun.1
    obtain ⟨kept', hcarried', hkept'⟩ := run_adds hstep hkeep hnext hrun.2
    have htail := ih hnext hrun.2
    rw [hcarried', List.append_cancel_left_eq] at htail
    rw [List.foldl_cons, hcarried', hcarried, saidAlong, List.append_assoc,
      List.append_cancel_left_eq, hkept.append_eq_iff hkept', htail, Along, hcarried,
      List.append_cancel_left_eq]

end Lossy
