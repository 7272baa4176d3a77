import Mathlib.Tactic

/-! Broadcasts among parties over reliable channels: what one party publishes reaches each
of the others once, in the order of publication. -/
namespace Fanout
variable {ι μ : Type*} [DecidableEq ι]

/-- Everything published so far, and for each party what it has still to take and what it
took, all with their publishers. -/
structure State (ι μ : Type*) where
  published : List (ι × μ)
  pending : ι → List (ι × μ)
  taken : ι → List (ι × μ)

inductive Event (ι μ : Type*) where
  | publish (i : ι) (m : μ)
  | take (i : ι)

def step (s : State ι μ) : Event ι μ → State ι μ
  | .publish i m =>
    { s with
      published := s.published ++ [(i, m)]
      pending := fun j => if j = i then s.pending j else s.pending j ++ [(i, m)] }
  | .take i =>
    match s.pending i with
    | [] => s
    | x :: xs =>
      { s with
        pending := Function.update s.pending i xs
        taken := Function.update s.taken i (s.taken i ++ [x]) }

def run (s : State ι μ) (es : List (Event ι μ)) : State ι μ := es.foldl step s

def init : State ι μ := ⟨[], fun _ => [], fun _ => []⟩

/-- What a party hears of some publications: those of the others. -/
def heard (i : ι) (xs : List (ι × μ)) : List (ι × μ) := xs.filter (·.1 ≠ i)

/-- The publications of a run. -/
def publications (es : List (Event ι μ)) : List (ι × μ) :=
  es.filterMap fun
    | .publish i m => some (i, m)
    | .take _ => none

/-- Each party took a first part of what it hears and has the rest to take. -/
def Exact (s : State ι μ) : Prop := ∀ i, s.taken i ++ s.pending i = heard i s.published

theorem init_exact : Exact (init : State ι μ) := fun _ => rfl

theorem heard_append (i : ι) (xs ys : List (ι × μ)) :
    heard i (xs ++ ys) = heard i xs ++ heard i ys := by
  unfold heard
  exact List.filter_append ..

theorem step_take_empty {s : State ι μ} {i : ι} (h : s.pending i = []) : step s (.take i) = s := by
  simp [step, h]

theorem step_take {s : State ι μ} {i : ι} {x : ι × μ} {xs : List (ι × μ)}
    (h : s.pending i = x :: xs) :
    step s (.take i) =
      { s with
        pending := Function.update s.pending i xs
        taken := Function.update s.taken i (s.taken i ++ [x]) } := by
  simp [step, h]

theorem step_exact {s : State ι μ} (h : Exact s) (e : Event ι μ) : Exact (step s e) := by
  intro j
  have hj := h j
  cases e with
  | publish i m =>
    show s.taken j ++ (if j = i then _ else _) = heard j (s.published ++ [(i, m)])
    rw [heard_append, ← hj]
    by_cases hji : j = i
    · subst hji
      simp [heard]
    · simp [heard, hji, Ne.symm hji]
  | take i =>
    cases hp : s.pending i with
    | nil =>
      rw [step_take_empty hp]
      exact hj
    | cons x xs =>
      rw [step_take hp]
      by_cases hji : j = i
      · subst hji
        simp [← hj, hp]
      · simp [hji, hj]

/-- Along a run every publication is heard once by everybody else. -/
theorem run_exact {s : State ι μ} (h : Exact s) (es : List (Event ι μ)) : Exact (run s es) := by
  induction es generalizing s with
  | nil => exact h
  | cons e es ih => exact ih (step_exact h e)

theorem run_published (s : State ι μ) (es : List (Event ι μ)) :
    (run s es).published = s.published ++ publications es := by
  induction es generalizing s with
  | nil => simp [run, publications]
  | cons e es ih =>
    show (run (step s e) es).published = _
    rw [ih]
    cases e with
    | publish i m => simp [step, publications]
    | take i =>
      have hsame : (step s (.take i)).published = s.published := by
        cases hp : s.pending i with
        | nil => rw [step_take_empty hp]
        | cons x xs => rw [step_take hp]
      rw [hsame]
      simp [publications]

/-- Several publications of one party in a row. -/
theorem run_publish (s : State ι μ) (i : ι) (ms : List μ) :
    run s (ms.map (.publish i)) =
      { s with
        published := s.published ++ ms.map (i, ·)
        pending := fun j => if j = i then s.pending j else s.pending j ++ ms.map (i, ·) } := by
  induction ms generalizing s with
  | nil => simp [run]
  | cons m ms ih =>
    show run (step s (.publish i m)) (ms.map (.publish i)) = _
    rw [ih]
    simp only [step, List.append_assoc, List.singleton_append, List.map_cons, State.mk.injEq,
      true_and, and_true]
    funext j
    split
    · rfl
    · rw [List.append_assoc]
      rfl

/-- Who has nothing to take has heard everything. -/
theorem Exact.quiet {s : State ι μ} (h : Exact s) {i : ι} (hp : s.pending i = []) :
    s.taken i = heard i s.published := by
  rw [← h i, hp, List.append_nil]

/-- Nobody hears itself. -/
theorem Exact.other {s : State ι μ} (h : Exact s) {i : ι} {x : ι × μ} (hx : x ∈ s.taken i) :
    x.1 ≠ i := by
  have hheard : x ∈ heard i s.published := by
    rw [← h i]
    exact List.mem_append_left _ hx
  unfold heard at hheard
  simpa using (List.mem_filter.mp hheard).2

end Fanout
