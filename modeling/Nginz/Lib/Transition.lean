import Mathlib.Tactic

/-! Runs of a step function, and what holds along them. -/
namespace Transition
variable {σ α : Type*} (step : σ → α → σ)

/-- Each step of a run meets a condition on its action and the state before it. -/
def Along (cond : σ → α → Prop) : σ → List α → Prop
  | _, [] => True
  | s, a :: as => cond s a ∧ Along cond (step s a) as

instance (cond : σ → α → Prop) [∀ s a, Decidable (cond s a)] (s : σ) (as : List α) :
    Decidable (Along step cond s as) := by
  induction as generalizing s with
  | nil => exact .isTrue trivial
  | cons a as ih => exact @instDecidableAnd _ _ _ (ih (step s a))

variable {step}

/-- Equivalent conditions are met by the same runs. -/
theorem along_congr {cond cond' : σ → α → Prop} (h : ∀ s a, cond s a ↔ cond' s a) {s : σ}
    {as : List α} : Along step cond s as ↔ Along step cond' s as := by
  induction as generalizing s with
  | nil => exact Iff.rfl
  | cons a as ih => exact and_congr (h s a) ih

/-- A condition on the actions alone joins one on the steps. -/
theorem along_and {P : α → Prop} {cond : σ → α → Prop} {s : σ} {as : List α} (hP : ∀ a ∈ as, P a)
    (h : Along step cond s as) : Along step (fun s a => P a ∧ cond s a) s as := by
  induction as generalizing s with
  | nil => exact trivial
  | cons a as ih =>
    obtain ⟨ha, has⟩ := List.forall_mem_cons.mp hP
    exact ⟨⟨ha, h.1⟩, ih has h.2⟩

/-- What every step keeps holds at the end of every run. -/
theorem run_invariant {P : σ → Prop} (hstep : ∀ s a, P s → P (step s a)) {s : σ} (h : P s)
    (as : List α) : P (as.foldl step s) := by
  induction as generalizing s with
  | nil => exact h
  | cons a as ih => exact ih (hstep s a h)

/-- What every step that meets the condition keeps holds at the end of every run whose
steps all meet it. -/
theorem along_invariant {P : σ → Prop} {cond : σ → α → Prop}
    (hstep : ∀ s a, P s → cond s a → P (step s a)) {s : σ} (h : P s) {as : List α}
    (hrun : Along step cond s as) : P (as.foldl step s) := by
  induction as generalizing s with
  | nil => exact h
  | cons a as ih => exact ih (hstep s a h hrun.1) hrun.2

/-- A flag that a step raises unless it meets the condition is down at the end of a run exactly
when it was at the start and all steps meet the condition. -/
theorem run_flag_iff {flag : σ → Bool} {cond : σ → α → Prop}
    (hflag : ∀ s a, flag (step s a) = false ↔ flag s = false ∧ cond s a) {s : σ} {as : List α} :
    flag (as.foldl step s) = false ↔ flag s = false ∧ Along step cond s as := by
  induction as generalizing s with
  | nil => exact (and_iff_left trivial).symm
  | cons a as ih =>
    rw [List.foldl_cons, ih, hflag s a, Along, and_assoc]

/-- A simulation kept by every step that meets the condition holds at the end of every run
whose steps all meet it. -/
theorem along_simulation {τ : Type*} {step' : τ → α → τ} {R : σ → τ → Prop} {cond : σ → α → Prop}
    (hstep : ∀ s t a, R s t → cond s a → R (step s a) (step' t a)) {s : σ} {t : τ} (h : R s t)
    {as : List α} (hrun : Along step cond s as) : R (as.foldl step s) (as.foldl step' t) := by
  induction as generalizing s t with
  | nil => exact h
  | cons a as ih => exact ih (hstep s t a h hrun.1) hrun.2

/-- Two conditions on the steps are met by the same runs if they agree in the states that an
invariant describes, and the one keeps the invariant; all within the runs of a third. -/
theorem along_iff {P : σ → Prop} {bound cond cond' : σ → α → Prop}
    (hiff : ∀ s a, P s → bound s a → (cond s a ↔ cond' s a))
    (hkeep : ∀ s a, P s → bound s a → cond s a → P (step s a)) {s : σ} (h : P s) {as : List α}
    (hrun : Along step bound s as) : Along step cond s as ↔ Along step cond' s as := by
  induction as generalizing s with
  | nil => exact Iff.rfl
  | cons a as ih =>
    have hhead := hiff s a h hrun.1
    constructor
    · intro hc
      exact ⟨hhead.mp hc.1, (ih (hkeep s a h hrun.1 hc.1) hrun.2).mp hc.2⟩
    · intro hc
      have ha := hhead.mpr hc.1
      exact ⟨ha, (ih (hkeep s a h hrun.1 ha) hrun.2).mpr hc.2⟩

/-! ### Conditions put together -/

theorem along_and_iff {cond cond' : σ → α → Prop} {s : σ} {as : List α} :
    Along step (fun s a => cond s a ∧ cond' s a) s as ↔
      Along step cond s as ∧ Along step cond' s as := by
  induction as generalizing s with
  | nil => exact ⟨fun h => ⟨h, h⟩, fun h => h.1⟩
  | cons a as ih =>
    constructor
    · rintro ⟨⟨ha, ha'⟩, has⟩
      exact ⟨⟨ha, (ih.mp has).1⟩, ha', (ih.mp has).2⟩
    · rintro ⟨⟨ha, has⟩, ha', has'⟩
      exact ⟨⟨ha, ha'⟩, ih.mpr ⟨has, has'⟩⟩

theorem along_forall_iff {ι : Type*} {cond : ι → σ → α → Prop} {s : σ} {as : List α} :
    Along step (fun s a => ∀ i, cond i s a) s as ↔ ∀ i, Along step (cond i) s as := by
  induction as generalizing s with
  | nil => exact ⟨fun _ _ => trivial, fun _ => trivial⟩
  | cons a as ih =>
    constructor
    · exact fun h i => ⟨h.1 i, ih.mp h.2 i⟩
    · exact fun h => ⟨fun i => (h i).1, ih.mpr fun i => (h i).2⟩

/-- A condition on the actions alone. -/
theorem along_actions_iff {P : α → Prop} {s : σ} {as : List α} :
    Along step (fun _ a => P a) s as ↔ ∀ a ∈ as, P a := by
  induction as generalizing s with
  | nil => exact ⟨fun _ _ h => absurd h List.not_mem_nil, fun _ => trivial⟩
  | cons a as ih => rw [List.forall_mem_cons, ← ih (s := step s a), Along]

theorem along_concat_iff {cond : σ → α → Prop} {s : σ} {as : List α} {a : α} :
    Along step cond s (as ++ [a]) ↔ Along step cond s as ∧ cond (as.foldl step s) a := by
  induction as generalizing s with
  | nil => exact and_comm
  | cons b as ih => exact (and_congr_right fun _ => ih).trans and_assoc.symm

/-- A condition along a run is one on the actions before each action. -/
theorem along_iff_forall_split {cond : σ → α → Prop} {s : σ} {as : List α} :
    Along step cond s as ↔
      ∀ before a after, as = before ++ a :: after → cond (before.foldl step s) a := by
  induction as generalizing s with
  | nil =>
    refine iff_of_true trivial fun before a after h => ?_
    exact absurd h (List.append_ne_nil_of_right_ne_nil _ (List.cons_ne_nil _ _)).symm
  | cons b as ih =>
    constructor
    · rintro ⟨hb, has⟩ before a after h
      cases before with
      | nil =>
        obtain ⟨rfl, rfl⟩ := List.cons.inj h
        exact hb
      | cons b' before =>
        obtain ⟨rfl, hrest⟩ := List.cons.inj h
        exact ih.mp has before a after hrest
    · intro h
      refine ⟨h [] b as rfl, ih.mpr fun before a after hrest => ?_⟩
      exact h (b :: before) a after (congrArg (b :: ·) hrest)

theorem along_prefix {cond : σ → α → Prop} {s : σ} {as bs : List α} (h : as <+: bs)
    (hrun : Along step cond s bs) : Along step cond s as := by
  obtain ⟨rest, rfl⟩ := h
  rw [along_iff_forall_split] at hrun ⊢
  rintro before a after rfl
  exact hrun before a (after ++ rest) (by simp)

/-- Some actions need room for one more each, in the states that an invariant describes: they
all find it if all of them fit. -/
theorem along_room_iff {P : σ → Prop} {size : σ → ℕ} {takes : α → Prop} [DecidablePred takes]
    {cap : ℕ} (hP : ∀ s a, P s → P (step s a))
    (hsize : ∀ s a, P s → (takes a → size s < cap) →
      size (step s a) = size s + if takes a then 1 else 0)
    {s : σ} (h : P s) {as : List α} :
    Along step (fun s a => takes a → size s < cap) s as ↔
      as.countP takes = 0 ∨ size s + as.countP takes ≤ cap := by
  induction as generalizing s with
  | nil => simp [Along]
  | cons a as ih =>
    have hrest := ih (hP s a h)
    by_cases ha : takes a
    · rw [List.countP_cons_of_pos (p := (takes ·)) (decide_eq_true ha)]
      constructor
      · rintro ⟨hroom, has⟩
        have hnext := hsize s a h hroom
        rw [if_pos ha] at hnext
        have hfirst := hroom ha
        have hmore := hrest.mp has
        omega
      · intro hfits
        have hroom : size s < cap := by omega
        have hnext := hsize s a h fun _ => hroom
        rw [if_pos ha] at hnext
        exact ⟨fun _ => hroom, hrest.mpr (by omega)⟩
    · rw [List.countP_cons_of_neg (p := (takes ·)) (by simpa using ha)]
      have hnext := hsize s a h fun hta => absurd hta ha
      rw [if_neg ha, Nat.add_zero] at hnext
      rw [← hnext, ← hrest]
      exact and_iff_right fun hta => absurd hta ha

end Transition
