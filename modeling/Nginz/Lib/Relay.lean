import Mathlib.Tactic

/-! A chain of nodes: the first one takes what is issued from outside, and each of them passes
on to the one behind it what it puts out, in order. -/
namespace Relay
variable {σ μ : Type*} {n : ℕ} (next : σ → μ → σ × List μ) (s₀ : σ)

/-- A node after some inputs. -/
def after (xs : List μ) : σ := xs.foldl (fun s x => (next s x).1) s₀

/-- What a node puts out on some inputs. -/
def output : σ → List μ → List μ
  | _, [] => []
  | s, x :: xs => (next s x).2 ++ output (next s x).1 xs

/-- What each node took so far, and what waits for it. -/
structure State (n : ℕ) (μ : Type*) where
  taken : Fin (n + 1) → List μ
  pending : Fin (n + 1) → List μ

/-- Something is issued to the first node, or a node takes what waits longest for it. -/
inductive Event (n : ℕ) (μ : Type*) where
  | issue (x : μ)
  | take (i : Fin (n + 1))

/-- A node takes an input, and what it puts out waits for the node behind it. -/
def accept (s : State n μ) (i : Fin (n + 1)) (x : μ) : State n μ where
  taken := Function.update s.taken i (s.taken i ++ [x])
  pending j := s.pending j ++
    if j.val = i.val + 1 then (next (after next s₀ (s.taken i)) x).2 else []

def step (s : State n μ) : Event n μ → State n μ
  | .issue x => accept next s₀ s ⟨0, n.succ_pos⟩ x
  | .take i =>
    match s.pending i with
    | [] => s
    | x :: xs => accept next s₀ { s with pending := Function.update s.pending i xs } i x

def run (s : State n μ) (es : List (Event n μ)) : State n μ := es.foldl (step next s₀) s

def init : State n μ := ⟨fun _ => [], fun _ => []⟩

/-- What the events of a run issue. -/
def issued (es : List (Event n μ)) : List μ :=
  es.filterMap fun
    | .issue x => some x
    | .take _ => none

/-- Each node took a first part of what the node in front of it put out and has the rest to
take; nothing waits for the first node. -/
structure Exact (s : State n μ) : Prop where
  front : s.pending 0 = []
  flow : ∀ i : Fin n, s.taken i.succ ++ s.pending i.succ = output next s₀ (s.taken i.castSucc)

variable {next s₀}

theorem after_append (xs : List μ) (x : μ) :
    after next s₀ (xs ++ [x]) = (next (after next s₀ xs) x).1 := by
  unfold after
  rw [List.foldl_append]
  rfl

theorem output_append (xs ys : List μ) :
    output next s₀ (xs ++ ys) = output next s₀ xs ++ output next (after next s₀ xs) ys := by
  induction xs generalizing s₀ with
  | nil => rfl
  | cons x xs ih =>
    show (next s₀ x).2 ++ output next (next s₀ x).1 (xs ++ ys) = _
    rw [ih, ← List.append_assoc]
    rfl

theorem output_snoc (xs : List μ) (x : μ) :
    output next s₀ (xs ++ [x]) = output next s₀ xs ++ (next (after next s₀ xs) x).2 := by
  rw [output_append]
  show output next s₀ xs ++ ((next (after next s₀ xs) x).2 ++ []) = _
  rw [List.append_nil]

theorem init_exact : Exact next s₀ (init : State n μ) := ⟨rfl, fun _ => rfl⟩

/-- A node takes an input: in front of it one message less waits, behind it its output more. -/
theorem accept_exact {s : State n μ} {i : Fin (n + 1)} {x : μ} (hfront : s.pending 0 = [])
    (hflow : ∀ j : Fin n, s.taken j.succ ++ (if j.succ = i then x :: s.pending j.succ
      else s.pending j.succ) = output next s₀ (s.taken j.castSucc)) :
    Exact next s₀ (accept next s₀ s i x) := by
  refine ⟨?_, fun j => ?_⟩
  · have hzero : ¬ (0 : Fin (n + 1)).val = i.val + 1 := by simp
    show s.pending 0 ++ (if (0 : Fin (n + 1)).val = i.val + 1 then _ else []) = []
    rw [if_neg hzero, hfront]
    rfl
  · have hj := hflow j
    show Function.update s.taken i _ j.succ ++ (s.pending j.succ ++
      if j.succ.val = i.val + 1 then (next (after next s₀ (s.taken i)) x).2 else []) =
        output next s₀ (Function.update s.taken i _ j.castSucc)
    by_cases hback : i = j.castSucc
    · -- the node in front puts something out
      subst hback
      have hne : j.succ ≠ j.castSucc := Fin.castSucc_lt_succ.ne'
      rw [if_neg hne] at hj
      rw [Function.update_of_ne hne, Function.update_self, output_snoc, ← hj, if_pos (by simp),
        List.append_assoc]
    · have hval : ¬ j.succ.val = i.val + 1 := by
        intro hv
        exact hback (Fin.ext (by simpa using hv.symm))
      rw [if_neg hval, List.append_nil, Function.update_of_ne (Ne.symm hback), ← hj]
      by_cases hown : j.succ = i
      · subst hown
        rw [Function.update_self, if_pos rfl, List.append_assoc]
        rfl
      · rw [Function.update_of_ne hown, if_neg hown]

theorem step_exact {s : State n μ} (h : Exact next s₀ s) (e : Event n μ) :
    Exact next s₀ (step next s₀ s e) := by
  cases e with
  | issue x =>
    refine accept_exact (i := 0) h.front fun j => ?_
    rw [if_neg (Fin.succ_ne_zero j)]
    exact h.flow j
  | take i =>
    unfold step
    dsimp only
    split
    · exact h
    · rename_i x xs hp
      have hi : i ≠ 0 := by
        rintro rfl
        rw [h.front] at hp
        exact absurd hp.symm (List.cons_ne_nil x xs)
      refine accept_exact ?_ fun j => ?_
      · show Function.update s.pending i xs 0 = []
        rw [Function.update_of_ne (Ne.symm hi)]
        exact h.front
      · show s.taken j.succ ++ (if j.succ = i then x :: Function.update s.pending i xs j.succ
          else Function.update s.pending i xs j.succ) = _
        by_cases hown : j.succ = i
        · subst hown
          rw [if_pos rfl, Function.update_self, ← hp]
          exact h.flow j
        · rw [if_neg hown, Function.update_of_ne hown]
          exact h.flow j

theorem run_exact {s : State n μ} (h : Exact next s₀ s) (es : List (Event n μ)) :
    Exact next s₀ (run next s₀ s es) := by
  induction es generalizing s with
  | nil => exact h
  | cons e es ih => exact ih (step_exact h e)

/-- The first node takes what is issued. -/
theorem run_issued {s : State n μ} (h : Exact next s₀ s) (es : List (Event n μ)) :
    (run next s₀ s es).taken 0 = s.taken 0 ++ issued es := by
  induction es generalizing s with
  | nil => exact (List.append_nil _).symm
  | cons e es ih =>
    have hstep : (step next s₀ s e).taken 0 = s.taken 0 ++ issued [e] := by
      cases e with
      | issue x =>
        show Function.update s.taken 0 _ 0 = _
        rw [Function.update_self]
        rfl
      | take i =>
        unfold step
        dsimp only
        split
        · exact (List.append_nil _).symm
        · rename_i x xs hp
          have hi : (0 : Fin (n + 1)) ≠ i := by
            rintro rfl
            rw [h.front] at hp
            exact absurd hp.symm (List.cons_ne_nil x xs)
          show Function.update s.taken i _ 0 = _
          rw [Function.update_of_ne hi]
          exact (List.append_nil _).symm
    have hrest := ih (step_exact h e)
    show (run next s₀ (step next s₀ s e) es).taken 0 = _
    rw [hrest, hstep, List.append_assoc]
    unfold issued
    rw [← List.filterMap_append]
    rfl

/-- When nothing waits for it, a node took all that the node in front of it put out. -/
theorem Exact.quiet {s : State n μ} (h : Exact next s₀ s) {i : Fin n} (hi : s.pending i.succ = []) :
    s.taken i.succ = output next s₀ (s.taken i.castSucc) := by
  rw [← h.flow i, hi, List.append_nil]

end Relay
