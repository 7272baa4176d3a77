import Mathlib.Data.List.FinRange
import Mathlib.Logic.Function.Basic
import Mathlib.Tactic.Common

/-! The fibers: a table of functions that `fiber_module_step` calls in turn, and that their
bodies change. -/
namespace Nginz

def maxFibers : ℕ := 16

inductive FiberStatus where
  | empty | created | activated | deactivated | destroyed
  deriving DecidableEq, Repr

/-- A slot; no function is NULL. -/
structure InternalFiber (F : Type) where
  status : FiberStatus
  fiber : Option F
  deriving DecidableEq

inductive FiberEvent where
  | registered
  | called (status : FiberStatus)
  | returned (code : ℤ)
  | unregistered
  deriving DecidableEq, Repr

/-- What happened to a function in a slot. -/
structure FiberRecord (F : Type) where
  slot : Fin maxFibers
  fiber : F
  event : FiberEvent
  deriving DecidableEq

/-- Where `fiber_module_step` waits: for the function of a slot, or for `unregister_fiber` after
the function of a slot failed. -/
inductive StepCall (F : Type) where
  | stepping (i : Fin maxFibers) (f : F)
  | removing (i : Fin maxFibers)
  deriving DecidableEq

/-- The table with the calls under way: `fiber_module_step`, and in it or between its steps the
calls of `unregister_fiber`, the innermost first; and a record of what happened. -/
structure FiberModule (F : Type) where
  fibers : Fin maxFibers → InternalFiber F
  step : Option (StepCall F)
  unregisters : List (Fin maxFibers × F)
  trace : List (FiberRecord F)

def fiberModuleInit (F : Type) : FiberModule F where
  fibers _ := ⟨.empty, none⟩
  step := none
  unregisters := []
  trace := []

namespace FiberModule
variable {F : Type} [DecidableEq F] (m : FiberModule F)

/-- `none` when the table is full. -/
def registerFiber (f : F) : Option (FiberModule F) :=
  ((List.finRange maxFibers).find? fun i => (m.fibers i).status = .empty).map fun i =>
    { m with
      fibers := Function.update m.fibers i ⟨.created, some f⟩
      trace := m.trace ++ [⟨i, f, .registered⟩] }

/-- The first slot with a function. -/
def slotOf (f : Option F) : Option (Fin maxFibers) :=
  (List.finRange maxFibers).find? fun i => (m.fibers i).fiber = f

/-- Up to the call of the function; `none` when NULL is called. -/
def unregisterFiber (f : Option F) : Option (FiberModule F) :=
  match m.slotOf f with
  | none => some m
  | some i => f.map fun f =>
    { m with
      unregisters := (i, f) :: m.unregisters
      trace := m.trace ++ [⟨i, f, .unregistered⟩, ⟨i, f, .called .destroyed⟩] }

def setStatus (i : Fin maxFibers) (status : FiberStatus) : FiberModule F :=
  { m with fibers := Function.update m.fibers i { m.fibers i with status := status } }

/-- The test at the head of the loop in `fiber_module_step`. -/
def isStepped (i : Fin maxFibers) : Bool :=
  !((m.fibers i).status = .empty || (m.fibers i).status = .deactivated ||
    (m.fibers i).status = .destroyed)

/-- The loop from a slot on, up to the next call. -/
def stepFrom (k : ℕ) : Option (FiberModule F) :=
  match (List.finRange maxFibers).find? fun i => k ≤ i.val && m.isStepped i with
  | none => some { m with step := none }
  | some i => (m.fibers i).fiber.map fun f =>
    { m with
      step := some (.stepping i f)
      trace := m.trace ++ [⟨i, f, .called (m.fibers i).status⟩] }

def fiberModuleStep : Option (FiberModule F) := m.stepFrom 0

/-- The end of the loop body of a slot, and the slots behind it. -/
def stepOn (i : Fin maxFibers) : Option (FiberModule F) :=
  if (m.fibers i).status = .created then (m.setStatus i .activated).stepFrom (i.val + 1)
  else m.stepFrom (i.val + 1)

/-- The innermost body returns. -/
def bodyReturns (code : ℤ) : Option (FiberModule F) :=
  match m.unregisters, m.step with
  | (i, f) :: outer, step =>
    -- the rest of `unregister_fiber`
    let m : FiberModule F :=
      { m with
        fibers := Function.update m.fibers i ⟨.empty, none⟩
        unregisters := outer
        trace := m.trace ++ [⟨i, f, .returned code⟩] }
    match outer, step with
    | [], some (.removing k) => m.stepOn k
    | _, _ => some m
  | [], some (.stepping i f) =>
    let m : FiberModule F := { m with trace := m.trace ++ [⟨i, f, .returned code⟩] }
    if code = -1 then
      ({ m with step := some (.removing i) }.unregisterFiber (m.fibers i).fiber).bind fun m =>
        if m.unregisters = [] then m.stepOn i else some m
    else if code = -2 then (m.setStatus i .deactivated).stepOn i
    else m.stepOn i
  | [], _ => some m

end FiberModule

/-- What comes from outside the module: the calls of its functions, and the return of the
body that runs. -/
inductive FiberAction (F : Type) where
  | register (f : F)
  | unregister (f : F)
  | step
  | ret (code : ℤ)
  deriving DecidableEq

namespace FiberModule
variable {F : Type} [DecidableEq F] (m : FiberModule F)

/-- `none` when the table is full or NULL is called. -/
def act : FiberAction F → Option (FiberModule F)
  | .register f => m.registerFiber f
  | .unregister f => m.unregisterFiber (some f)
  | .step => m.fiberModuleStep
  | .ret code => m.bodyReturns code

def run (as : List (FiberAction F)) : Option (FiberModule F) := as.foldlM act m

/-- The body that `fiber_module_step` waits for. -/
@[simp]
def stepBody : Option (StepCall F) → List (Fin maxFibers × F)
  | some (.stepping i f) => [(i, f)]
  | _ => []

/-- The bodies that run, by their slots and functions, the innermost first. -/
def calls : List (Fin maxFibers × F) := m.unregisters ++ stepBody m.step

def bodies : List F := m.calls.map Prod.snd

/-- The calls that are made: a body does not register or unregister its own function, a
function is registered when it is in no slot and there is room, and the fibers are stepped
when no body runs. -/
def Called : FiberAction F → Prop
  | .register f => m.bodies.head? ≠ some f ∧ (∀ i, (m.fibers i).fiber ≠ some f) ∧
      ∃ i, (m.fibers i).status = .empty
  | .unregister f => m.bodies.head? ≠ some f
  | .step => m.step = none ∧ m.unregisters = []
  | .ret _ => m.bodies ≠ []

/-- A call that does not unregister a function whose body runs. -/
def Settled : FiberAction F → Prop
  | .unregister f => f ∉ m.bodies
  | _ => True

/-- The calls that do not unregister a function whose body runs. -/
def Orderly (a : FiberAction F) : Prop := m.Called a ∧ m.Settled a

/-- A property of every action of a run, in the state in which it happens. -/
def Along (P : FiberModule F → FiberAction F → Prop) : FiberModule F → List (FiberAction F) → Prop
  | _, [] => True
  | m, a :: as => P m a ∧ ∀ m' ∈ m.act a, Along P m' as

instance : DecidablePred m.Called
  | .register f => inferInstanceAs (Decidable (_ ∧ (∀ i, (m.fibers i).fiber ≠ some f) ∧
      ∃ i, (m.fibers i).status = .empty))
  | .unregister f => inferInstanceAs (Decidable (m.bodies.head? ≠ some f))
  | .step => inferInstanceAs (Decidable (m.step = none ∧ m.unregisters = []))
  | .ret _ => inferInstanceAs (Decidable (m.bodies ≠ []))

instance : DecidablePred m.Settled
  | .unregister f => inferInstanceAs (Decidable (f ∉ m.bodies))
  | .register _ => .isTrue trivial
  | .step => .isTrue trivial
  | .ret _ => .isTrue trivial

instance : DecidablePred m.Orderly := fun a =>
    inferInstanceAs (Decidable (m.Called a ∧ m.Settled a))

instance decidableAlong (P : FiberModule F → FiberAction F → Prop) [∀ m, DecidablePred (P m)] :
    ∀ (m : FiberModule F) (as : List (FiberAction F)), Decidable (Along P m as)
  | _, [] => .isTrue trivial
  | m, a :: as =>
    have := fun m' => decidableAlong P m' as
    inferInstanceAs (Decidable (P m a ∧ ∀ m' ∈ m.act a, Along P m' as))

/-! ### What the functions do -/

variable {m}

omit [DecidableEq F] in
theorem registerFiber_room (h : ∃ i, (m.fibers i).status = .empty) (f : F) :
    ∃ i, (m.fibers i).status = .empty ∧ m.registerFiber f = some
      { m with
        fibers := Function.update m.fibers i ⟨.created, some f⟩
        trace := m.trace ++ [⟨i, f, .registered⟩] } := by
  obtain ⟨i, hi⟩ := h
  cases hfind : (List.finRange maxFibers).find? fun i => (m.fibers i).status = .empty with
  | none => exact absurd hi (by simpa using List.find?_eq_none.mp hfind i (List.mem_finRange i))
  | some j =>
    refine ⟨j, by simpa using List.find?_some hfind, ?_⟩
    unfold registerFiber
    rw [hfind]
    rfl

theorem unregisterFiber_absent {f : F} (h : ∀ i, (m.fibers i).fiber ≠ some f) :
    m.unregisterFiber (some f) = some m := by
  have hslot : m.slotOf (some f) = none := List.find?_eq_none.mpr fun i _ => by simpa using h i
  unfold unregisterFiber
  rw [hslot]

theorem unregisterFiber_present {f : F} {i : Fin maxFibers} (h : (m.fibers i).fiber = some f)
    (honly : ∀ j, (m.fibers j).fiber = some f → j = i) :
    m.unregisterFiber (some f) = some
      { m with
        unregisters := (i, f) :: m.unregisters
        trace := m.trace ++ [⟨i, f, .unregistered⟩, ⟨i, f, .called .destroyed⟩] } := by
  have hslot : m.slotOf (some f) = some i := by
    cases hfind : m.slotOf (some f) with
    | none => exact absurd h (by simpa using List.find?_eq_none.mp hfind i (List.mem_finRange i))
    | some j => rw [honly j (by simpa using List.find?_some hfind)]
  unfold unregisterFiber
  rw [hslot]
  rfl

omit [DecidableEq F] in
/-- The loop finds no more slot to step, or the first one. -/
theorem stepFrom_cases (m : FiberModule F) (k : ℕ) :
    (m.stepFrom k = some { m with step := none } ∧ ∀ i : Fin maxFibers, k ≤ i.val →
      m.isStepped i = false) ∨
    ∃ i : Fin maxFibers, k ≤ i.val ∧ m.isStepped i = true ∧
      (∀ j : Fin maxFibers, k ≤ j.val → j < i → m.isStepped j = false) ∧
      m.stepFrom k = (m.fibers i).fiber.map fun f =>
        { m with
          step := some (.stepping i f)
          trace := m.trace ++ [⟨i, f, .called (m.fibers i).status⟩] } := by
  unfold stepFrom
  cases hfind : (List.finRange maxFibers).find? fun i => k ≤ i.val && m.isStepped i with
  | none =>
    refine .inl ⟨rfl, fun i hi => ?_⟩
    simpa [hi] using List.find?_eq_none.mp hfind i (List.mem_finRange i)
  | some i =>
    have hi : k ≤ i.val ∧ m.isStepped i = true := by simpa using List.find?_some hfind
    refine .inr ⟨i, hi.1, hi.2, fun j hj hlt => ?_, rfl⟩
    obtain ⟨-, pre, post, hsplit, hpre⟩ := List.find?_eq_some_iff_append.mp hfind
    have hmem : j ∈ pre := by
      have hsorted : (pre ++ i :: post).Pairwise (· < ·) :=
        hsplit ▸ List.pairwise_lt_finRange maxFibers
      have hj' : j ∈ pre ++ i :: post := hsplit ▸ List.mem_finRange j
      rcases List.mem_append.mp hj' with hin | hin
      · exact hin
      · rcases List.mem_cons.mp hin with rfl | hin
        · exact absurd hlt (lt_irrefl j)
        · have hafter := (List.pairwise_append.mp hsorted).2.1
          exact absurd hlt (List.rel_of_pairwise_cons hafter hin).asymm
    simpa [hj] using hpre j hmem

end FiberModule

end Nginz
