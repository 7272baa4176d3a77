import Mathlib.Tactic

/-! Messages of several senders to one receiver: the receiver takes them in any order
that is first-in first-out for each sender. -/
namespace Mailbox
variable {ι μ : Type*} [DecidableEq ι]

/-- What each sender has posted and nobody has taken yet, and what was taken, in order. -/
structure State (ι μ : Type*) where
  pending : ι → List μ
  taken : List (ι × μ)

/-- A sender posts messages, or the receiver takes the oldest message of a sender. -/
inductive Event (ι μ : Type*) where
  | post (w : ι) (ms : List μ)
  | take (w : ι)

def step (s : State ι μ) : Event ι μ → State ι μ
  | .post w ms => { s with pending := Function.update s.pending w (s.pending w ++ ms) }
  | .take w =>
    match s.pending w with
    | [] => s
    | m :: ms => ⟨Function.update s.pending w ms, s.taken ++ [(w, m)]⟩

def run (s : State ι μ) (es : List (Event ι μ)) : State ι μ := es.foldl step s

def init : State ι μ := ⟨fun _ => [], []⟩

/-- The messages of a sender among the taken ones, in the order they were taken. -/
def takenFrom (w : ι) (taken : List (ι × μ)) : List μ := (taken.filter (·.1 = w)).map Prod.snd

/-- Everything a sender posts in a run. -/
def posted (w : ι) (es : List (Event ι μ)) : List μ :=
  es.flatMap fun
    | .post v ms => if v = w then ms else []
    | .take _ => []

@[simp] theorem run_nil (s : State ι μ) : run s [] = s := rfl

@[simp] theorem run_cons (s : State ι μ) (e : Event ι μ) (es : List (Event ι μ)) :
    run s (e :: es) = run (step s e) es := rfl

theorem step_take_empty {s : State ι μ} {w : ι} (h : s.pending w = []) : step s (.take w) = s := by
  simp [step, h]

theorem step_take {s : State ι μ} {w : ι} {m : μ} {ms : List μ} (h : s.pending w = m :: ms) :
    step s (.take w) = ⟨Function.update s.pending w ms, s.taken ++ [(w, m)]⟩ := by
  simp [step, h]

theorem step_keeps_taken (s : State ι μ) (e : Event ι μ) : s.taken <+: (step s e).taken := by
  cases e with
  | post w ms => exact List.prefix_rfl
  | take w =>
    cases hp : s.pending w with
    | nil => rw [step_take_empty hp]
    | cons m ms =>
      rw [step_take hp]
      exact List.prefix_append _ _

/-- What was taken stays taken. -/
theorem run_keeps_taken (s : State ι μ) (es : List (Event ι μ)) :
    s.taken <+: (run s es).taken := by
  induction es generalizing s with
  | nil => exact List.prefix_rfl
  | cons e es ih => exact (step_keeps_taken s e).trans (ih _)

theorem step_exactly_once (s : State ι μ) (e : Event ι μ) (w : ι) :
    takenFrom w (step s e).taken ++ (step s e).pending w =
      takenFrom w s.taken ++ s.pending w ++ posted w [e] := by
  cases e with
  | post v ms =>
    by_cases hv : v = w
    · subst hv
      simp [step, posted]
    · have hv' : w ≠ v := Ne.symm hv
      simp [step, posted, hv, Function.update_of_ne hv']
  | take v =>
    cases hp : s.pending v with
    | nil => simp [step_take_empty hp, posted]
    | cons m ms =>
      rw [step_take hp]
      by_cases hv : v = w
      · subst hv
        simp [posted, takenFrom, hp]
      · have hv' : w ≠ v := Ne.symm hv
        simp [posted, takenFrom, hv, Function.update_of_ne hv']

/-- Every message is either pending or was taken once, and in the order it was posted. -/
theorem run_exactly_once (s : State ι μ) (es : List (Event ι μ)) (w : ι) :
    takenFrom w (run s es).taken ++ (run s es).pending w =
      takenFrom w s.taken ++ s.pending w ++ posted w es := by
  induction es generalizing s with
  | nil => simp [posted]
  | cons e es ih =>
    rw [run_cons, ih, step_exactly_once]
    simp [posted]

/-- What holds of every posted message holds of every taken one. -/
theorem run_taken_mem {s : State ι μ} {es : List (Event ι μ)} {e : ι × μ}
    (h : e ∈ (run s es).taken) :
    e.2 ∈ takenFrom e.1 s.taken ++ s.pending e.1 ++ posted e.1 es := by
  rw [← run_exactly_once, List.mem_append]
  left
  unfold takenFrom
  exact List.mem_map_of_mem (List.mem_filter.mpr ⟨h, by simp⟩)

end Mailbox
