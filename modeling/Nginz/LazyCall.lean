import Nginz.Lib.Transition

/-! The lazy work of a process: the functions and the objects that `lazy_call_step` runs and
releases, while what it runs may schedule more. -/
namespace Nginz

/-- `NGINZ_LAZY_STACK_SIZE`. -/
def nginzLazyStackSize : ℕ := 24

/-- `NGINZ_LAZY_OBJECT_QUEUE_SIZE`. -/
def nginzLazyObjectQueueSize : ℕ := 1024

/-- A call of `lazy_call` with its function and data, or of `lazy_cleanup`. -/
inductive LazyRequest (F D O : Type*) where
  | lazyCall (goLazy : F) (data : D)
  | lazyCleanup (obj : O)

variable {F D O σ : Type*}

/-- The rest of the program: what a function does to it, what dropping a reference of an
object does to it, and the lazy work that they schedule meanwhile. -/
structure LazyWork (F D O σ : Type*) where
  invoke : F → D → σ → σ × List (LazyRequest F D O)
  oppUnref : O → σ → σ × List (LazyRequest F D O)

/-- The two queues, and the record of what was passed to them and what became of it. -/
structure LazyState (F D O σ : Type*) where
  env : σ
  lazyStack : List (F × D) := []
  lazyObjects : List O := []
  called : List (F × D) := []
  invoked : List (F × D) := []
  cleaned : List O := []
  unreferenced : List O := []
  crashed : Bool := false

/-- Nothing scheduled. -/
def LazyState.start (env : σ) : LazyState F D O σ := { env }

def LazyState.assert (s : LazyState F D O σ) (cond : Prop) [Decidable cond] : LazyState F D O σ :=
  { s with crashed := s.crashed || !decide cond }

def LazyState.lazyCall (s : LazyState F D O σ) (goLazy : F) (data : D) : LazyState F D O σ :=
  let s := s.assert (s.lazyStack.length < nginzLazyStackSize)
  { s with
    lazyStack := s.lazyStack ++ [(goLazy, data)]
    called := s.called ++ [(goLazy, data)] }

def LazyState.lazyCleanup (s : LazyState F D O σ) (obj : O) : LazyState F D O σ :=
  let s := s.assert (s.lazyObjects.length < nginzLazyObjectQueueSize)
  let s := { s with cleaned := s.cleaned ++ [obj] }
  if s.lazyObjects.length = nginzLazyObjectQueueSize then s
  else { s with lazyObjects := s.lazyObjects ++ [obj] }

def LazyState.request (s : LazyState F D O σ) : LazyRequest F D O → LazyState F D O σ
  | .lazyCall goLazy data => s.lazyCall goLazy data
  | .lazyCleanup obj => s.lazyCleanup obj

namespace LazyWork
variable (work : LazyWork F D O σ)

/-- `lazy_stack[i](lazy_stack_data[i])`. -/
def invokeAt (i : ℕ) (s : LazyState F D O σ) : LazyState F D O σ :=
  match s.lazyStack[i]? with
  | none => s
  | some (goLazy, data) =>
    let (env, requests) := work.invoke goLazy data s.env
    requests.foldl LazyState.request
      { s with
        env
        invoked := s.invoked ++ [(goLazy, data)] }

/-- `OPPUNREF(lazy_cleanup_objects[i])`. -/
def unrefAt (i : ℕ) (s : LazyState F D O σ) : LazyState F D O σ :=
  match s.lazyObjects[i]? with
  | none => s
  | some obj =>
    let (env, requests) := work.oppUnref obj s.env
    requests.foldl LazyState.request
      { s with
        env
        unreferenced := s.unreferenced ++ [obj] }

/-- `while(i--)`, which reads the array as it is in each round. -/
def walkDown (body : ℕ → LazyState F D O σ → LazyState F D O σ) :
    ℕ → LazyState F D O σ → LazyState F D O σ
  | 0, s => s
  | i + 1, s => walkDown body i (body i s)

def lazyCallStep (s : LazyState F D O σ) : LazyState F D O σ :=
  let s := walkDown work.invokeAt s.lazyStack.length s
  let s := { s with lazyStack := [] }
  let s := walkDown work.unrefAt s.lazyObjects.length s
  { s with lazyObjects := [] }

end LazyWork

/-- What happens in a process: lazy work is scheduled, the fiber takes a step, or the rest of
the program changes. -/
inductive LazyAct (F D O σ : Type*) where
  | request (request : LazyRequest F D O)
  | step
  | elsewhere (env : σ)

def LazyWork.act (work : LazyWork F D O σ) (s : LazyState F D O σ) :
    LazyAct F D O σ → LazyState F D O σ
  | .request request => s.request request
  | .step => work.lazyCallStep s
  | .elsewhere env => { s with env }

/-- Everything passed to `lazy_call` was invoked once or waits once, and everything passed
to `lazy_cleanup` was unreferenced once or waits once. -/
structure LazyState.Kept (s : LazyState F D O σ) : Prop where
  calls : s.called.Perm (s.invoked ++ s.lazyStack)
  objects : s.cleaned.Perm (s.unreferenced ++ s.lazyObjects)

/-- From `s` to `s'` everything that waits in `s` is run, the last first, and the objects
that the functions scheduled are unreferenced with those that waited. -/
structure LazyState.Served (s s' : LazyState F D O σ) : Prop where
  calls : s'.invoked = s.invoked ++ s.lazyStack.reverse
  objects : ∃ more, s'.unreferenced = s.unreferenced ++ (s.lazyObjects ++ more).reverse

/-- The functions among the requests. -/
def scheduledCalls (requests : List (LazyRequest F D O)) : List (F × D) :=
  requests.filterMap fun
    | .lazyCall goLazy data => some (goLazy, data)
    | .lazyCleanup _ => none

/-- The objects among the requests. -/
def scheduledObjects (requests : List (LazyRequest F D O)) : List O :=
  requests.filterMap fun
    | .lazyCall _ _ => none
    | .lazyCleanup obj => some obj

/-- Jobs run one after the other, with everything they schedule. -/
def runAll {J R : Type*} (job : J → σ → σ × List R) : List J → σ → σ × List R
  | [], env => (env, [])
  | j :: js, env =>
    let (env, requests) := job j env
    let (env, more) := runAll job js env
    (env, requests ++ more)

/-- What the functions that wait do to the rest of the program, and what they schedule. -/
def LazyWork.functions (work : LazyWork F D O σ) (s : LazyState F D O σ) :
    σ × List (LazyRequest F D O) :=
  runAll (Function.uncurry work.invoke) s.lazyStack.reverse s.env

/-- What dropping the references that a step drops does behind the functions, and what the
finalizers schedule. -/
def LazyWork.finalizers (work : LazyWork F D O σ) (s : LazyState F D O σ) :
    σ × List (LazyRequest F D O) :=
  runAll work.oppUnref (s.lazyObjects ++ scheduledObjects (work.functions s).2).reverse
    (work.functions s).1

/-- In a step from `s` no lazily called function calls `lazy_call`, and no finalizer calls
`lazy_cleanup`. -/
def LazyWork.Quiet (work : LazyWork F D O σ) (s : LazyState F D O σ) : Prop :=
  scheduledCalls (work.functions s).2 = [] ∧ scheduledObjects (work.finalizers s).2 = []

section Requests
variable (requests more : List (LazyRequest F D O))

@[simp] theorem scheduledCalls_append :
    scheduledCalls (requests ++ more) = scheduledCalls requests ++ scheduledCalls more :=
  List.filterMap_append

@[simp] theorem scheduledObjects_append :
    scheduledObjects (requests ++ more) = scheduledObjects requests ++ scheduledObjects more :=
  List.filterMap_append

/-- The state behind functions and dropped references whose requests all found room. -/
def LazyState.ran (s : LazyState F D O σ) (env : σ) (calls : List (F × D)) (objects : List O) :
    LazyState F D O σ :=
  { s with
    env
    lazyStack := s.lazyStack ++ scheduledCalls requests
    called := s.called ++ scheduledCalls requests
    invoked := s.invoked ++ calls
    lazyObjects := s.lazyObjects ++ scheduledObjects requests
    cleaned := s.cleaned ++ scheduledObjects requests
    unreferenced := s.unreferenced ++ objects }

theorem LazyState.ran_nil (s : LazyState F D O σ) : s.ran [] s.env [] [] = s := by
  simp [LazyState.ran, scheduledCalls, scheduledObjects]

theorem LazyState.ran_ran (s : LazyState F D O σ) (env env' : σ) (calls calls' : List (F × D))
    (objects objects' : List O) :
    (s.ran requests env calls objects).ran more env' calls' objects' =
      s.ran (requests ++ more) env' (calls ++ calls') (objects ++ objects') := by
  simp [LazyState.ran]

end Requests

theorem runAll_env {J R : Type*} (job : J → σ → σ × List R) (js : List J) (env : σ) :
    (runAll job js env).1 = js.foldl (fun env j => (job j env).1) env := by
  induction js generalizing env with
  | nil => rfl
  | cons j js ih => exact ih _

section Bounds
variable {work : LazyWork F D O σ} {s : LazyState F D O σ}

theorem LazyState.assert_eq {cond : Prop} [Decidable cond] (h : (s.assert cond).crashed = false) :
    s.assert cond = s ∧ cond := by
  obtain ⟨hs, hcond⟩ := Bool.or_eq_false_iff.mp h
  constructor
  · unfold LazyState.assert
    rw [hcond, Bool.or_false]
  · simpa using hcond

/-- A request that passes its assertion is queued. -/
theorem request_eq {request : LazyRequest F D O} (h : (s.request request).crashed = false) :
    s.request request = s.ran [request] s.env [] [] := by
  cases request with
  | lazyCall goLazy data =>
    have hroom : (s.assert (s.lazyStack.length < nginzLazyStackSize)).crashed = false := h
    obtain ⟨hs, -⟩ := LazyState.assert_eq hroom
    rw [LazyState.request, LazyState.lazyCall, hs]
    simp [LazyState.ran, scheduledCalls, scheduledObjects]
  | lazyCleanup obj =>
    have hroom : (s.assert (s.lazyObjects.length < nginzLazyObjectQueueSize)).crashed = false := by
      unfold LazyState.request LazyState.lazyCleanup at h
      dsimp only at h
      split at h
      · exact h
      · exact h
    obtain ⟨hs, hlt⟩ := LazyState.assert_eq hroom
    rw [LazyState.request, LazyState.lazyCleanup, hs]
    dsimp only
    rw [if_neg hlt.ne]
    simp [LazyState.ran, scheduledCalls, scheduledObjects]

theorem request_crashed {request : LazyRequest F D O} (h : (s.request request).crashed = false) :
    s.crashed = false := by
  rw [request_eq h] at h
  exact h

theorem requests_crashed (requests : List (LazyRequest F D O))
    (h : (requests.foldl LazyState.request s).crashed = false) : s.crashed = false := by
  induction requests generalizing s with
  | nil => exact h
  | cons request requests ih => exact request_crashed (ih h)

theorem requests_eq {requests : List (LazyRequest F D O)}
    (h : (requests.foldl LazyState.request s).crashed = false) :
    requests.foldl LazyState.request s = s.ran requests s.env [] [] := by
  induction requests generalizing s with
  | nil => exact s.ran_nil.symm
  | cons request requests ih =>
    have hfirst : (s.request request).crashed = false := requests_crashed requests h
    rw [List.foldl_cons, ih h, request_eq hfirst, LazyState.ran_ran]
    rfl

/-- A walk whose rounds all keep a crash ends without one only if it starts without one. -/
theorem walk_crashed {body : ℕ → LazyState F D O σ → LazyState F D O σ}
    (hbody : ∀ i s, (body i s).crashed = false → s.crashed = false) {i : ℕ}
    (h : (LazyWork.walkDown body i s).crashed = false) : s.crashed = false := by
  induction i generalizing s with
  | zero => exact h
  | succ i ih => exact hbody i s (ih h)

theorem invokeAt_crashed (i : ℕ) (s : LazyState F D O σ)
    (h : (work.invokeAt i s).crashed = false) : s.crashed = false := by
  unfold LazyWork.invokeAt at h
  split at h
  · exact h
  · have hs := requests_crashed _ h
    exact hs

theorem unrefAt_crashed (i : ℕ) (s : LazyState F D O σ) (h : (work.unrefAt i s).crashed = false) :
    s.crashed = false := by
  unfold LazyWork.unrefAt at h
  split at h
  · exact h
  · have hs := requests_crashed _ h
    exact hs

theorem invokeAt_eq {i : ℕ} {call : F × D} (hcall : s.lazyStack[i]? = some call)
    (h : (work.invokeAt i s).crashed = false) :
    work.invokeAt i s =
      s.ran (work.invoke call.1 call.2 s.env).2 (work.invoke call.1 call.2 s.env).1 [call] [] := by
  unfold LazyWork.invokeAt at h ⊢
  rw [hcall] at h ⊢
  dsimp only at h ⊢
  rw [requests_eq h]
  simp [LazyState.ran]

theorem unrefAt_eq {i : ℕ} {obj : O} (hobj : s.lazyObjects[i]? = some obj)
    (h : (work.unrefAt i s).crashed = false) :
    work.unrefAt i s =
      s.ran (work.oppUnref obj s.env).2 (work.oppUnref obj s.env).1 [] [obj] := by
  unfold LazyWork.unrefAt at h ⊢
  rw [hobj] at h ⊢
  dsimp only at h ⊢
  rw [requests_eq h]
  simp [LazyState.ran]

theorem reverse_take_succ {J : Type*} {js : List J} {i : ℕ} {j : J} (hj : js[i]? = some j) :
    (js.take (i + 1)).reverse = j :: (js.take i).reverse := by
  rw [List.take_add_one, hj, List.reverse_append]
  rfl

/-- A walk over a queue whose rounds run a job each: what the jobs schedule is behind the
indices that are still to come. -/
theorem walk_eq {J : Type*} (queue : LazyState F D O σ → List J)
    (job : J → σ → σ × List (LazyRequest F D O)) (calls : J → List (F × D))
    (objects : J → List O) {body : ℕ → LazyState F D O σ → LazyState F D O σ}
    (hqueue : ∀ s requests env cs os, queue s <+: queue (LazyState.ran requests s env cs os))
    (hcrashed : ∀ i s, (body i s).crashed = false → s.crashed = false)
    (hbody : ∀ i s j, (queue s)[i]? = some j → (body i s).crashed = false →
      body i s = s.ran (job j s.env).2 (job j s.env).1 (calls j) (objects j))
    {i : ℕ} (hi : i ≤ (queue s).length) (h : (LazyWork.walkDown body i s).crashed = false) :
    let js := ((queue s).take i).reverse
    LazyWork.walkDown body i s = s.ran (runAll job js s.env).2 (runAll job js s.env).1
      (js.flatMap calls) (js.flatMap objects) := by
  induction i generalizing s with
  | zero => exact s.ran_nil.symm
  | succ i ih =>
    have hj : (queue s)[i]? = some (queue s)[i] := List.getElem?_eq_getElem hi
    have hround := hbody i s _ hj (walk_crashed hcrashed h)
    rw [LazyWork.walkDown, hround] at h ⊢
    obtain ⟨more, hmore⟩ := hqueue s (job (queue s)[i] s.env).2 (job (queue s)[i] s.env).1
      (calls (queue s)[i]) (objects (queue s)[i])
    have hlen : i ≤ (queue s).length := Nat.le_of_succ_le hi
    have htail := ih (by
      rw [← hmore, List.length_append]
      omega) h
    rw [← hmore, List.take_append_of_le_length hlen] at htail
    rw [htail, LazyState.ran_ran, reverse_take_succ hj]
    rfl

theorem walk_invoke (h : (LazyWork.walkDown work.invokeAt s.lazyStack.length s).crashed = false) :
    let functions := runAll (Function.uncurry work.invoke) s.lazyStack.reverse s.env
    LazyWork.walkDown work.invokeAt s.lazyStack.length s =
      s.ran functions.2 functions.1 s.lazyStack.reverse [] := by
  have hwalk := walk_eq LazyState.lazyStack (Function.uncurry work.invoke) (fun call => [call])
    (fun _ => []) (fun _ _ _ _ _ => List.prefix_append _ _) invokeAt_crashed
    (fun _ _ _ hcall => invokeAt_eq hcall) le_rfl h
  have hnone : s.lazyStack.reverse.flatMap (fun _ => ([] : List O)) = [] := by simp
  rw [List.take_length] at hwalk
  dsimp only at hwalk
  rwa [List.flatMap_singleton', hnone] at hwalk

theorem walk_unref (h : (LazyWork.walkDown work.unrefAt s.lazyObjects.length s).crashed = false) :
    let finalizers := runAll work.oppUnref s.lazyObjects.reverse s.env
    LazyWork.walkDown work.unrefAt s.lazyObjects.length s =
      s.ran finalizers.2 finalizers.1 [] s.lazyObjects.reverse := by
  have hwalk := walk_eq LazyState.lazyObjects work.oppUnref (fun _ => []) (fun obj => [obj])
    (fun _ _ _ _ _ => List.prefix_append _ _) unrefAt_crashed
    (fun _ _ _ hobj => unrefAt_eq hobj) le_rfl h
  have hnone : s.lazyObjects.reverse.flatMap (fun _ => ([] : List (F × D))) = [] := by simp
  rw [List.take_length] at hwalk
  dsimp only at hwalk
  rwa [List.flatMap_singleton', hnone] at hwalk

end Bounds

/-- What one step does: the functions that wait, then the objects that wait by then; what was
scheduled for a queue during its own walk is gone. -/
theorem lazyCallStep_eq {work : LazyWork F D O σ} {s : LazyState F D O σ}
    (h : (work.lazyCallStep s).crashed = false) :
    work.lazyCallStep s =
      { env := (work.finalizers s).1
        lazyStack := scheduledCalls (work.finalizers s).2
        lazyObjects := []
        called := s.called ++ scheduledCalls (work.functions s).2 ++
          scheduledCalls (work.finalizers s).2
        invoked := s.invoked ++ s.lazyStack.reverse
        cleaned := s.cleaned ++ scheduledObjects (work.functions s).2 ++
          scheduledObjects (work.finalizers s).2
        unreferenced :=
          s.unreferenced ++ (s.lazyObjects ++ scheduledObjects (work.functions s).2).reverse
        crashed := false } := by
  have hobjects := walk_crashed unrefAt_crashed h
  have hcalls : (LazyWork.walkDown work.invokeAt s.lazyStack.length s).crashed = false := hobjects
  have hs := walk_crashed invokeAt_crashed hcalls
  have hinvoke := walk_invoke hcalls
  have hunref := walk_unref h
  unfold LazyWork.lazyCallStep
  dsimp only
  rw [hunref, hinvoke]
  simp [LazyState.ran, LazyWork.finalizers, LazyWork.functions, hs]

section Runs
variable (work : LazyWork F D O σ)

/-- Every request of a run is executed exactly once, in this or the next step: nothing is lost
or doubled at any point, and each step runs everything that waits for it. -/
def LazyWork.ExecutedOnce (s : LazyState F D O σ) (acts : List (LazyAct F D O σ)) : Prop :=
  Transition.Along work.act
    (fun s a => (work.act s a).Kept ∧ (a = .step → s.Served (work.act s a))) s acts

/-- No assertion on the size of a queue fails in the run. -/
def LazyWork.WithinBounds (s : LazyState F D O σ) (acts : List (LazyAct F D O σ)) : Prop :=
  Transition.Along work.act (fun s a => (work.act s a).crashed = false) s acts

instance [DecidableEq F] (s : LazyState F D O σ) (acts : List (LazyAct F D O σ)) :
    Decidable (work.WithinBounds s acts) :=
  inferInstanceAs (Decidable (Transition.Along _ _ _ _))

variable {work} {s : LazyState F D O σ}

theorem lazyCallStep_served (h : (work.lazyCallStep s).crashed = false) :
    s.Served (work.lazyCallStep s) := by
  rw [lazyCallStep_eq h]
  exact ⟨rfl, scheduledObjects (work.functions s).2, rfl⟩

theorem LazyState.Kept.request {request : LazyRequest F D O} (hk : s.Kept)
    (h : (s.request request).crashed = false) : (s.request request).Kept := by
  rw [request_eq h]
  constructor
  · have hcalls := hk.calls.append_right (scheduledCalls [request])
    simpa [LazyState.ran] using hcalls
  · have hobjects := hk.objects.append_right (scheduledObjects [request])
    simpa [LazyState.ran] using hobjects

/-- A step that loses nothing is one in which nothing is scheduled for a queue during its own
walk. -/
theorem lazyCallStep_kept_iff (hk : s.Kept) (h : (work.lazyCallStep s).crashed = false) :
    (work.lazyCallStep s).Kept ↔ work.Quiet s := by
  rw [lazyCallStep_eq h]
  constructor
  · intro hk'
    have hcalls := hk'.calls.length_eq
    have hobjects := hk'.objects.length_eq
    have hcalls' := hk.calls.length_eq
    have hobjects' := hk.objects.length_eq
    simp only [List.length_append, List.length_reverse, List.length_nil] at hcalls hobjects
    rw [List.length_append] at hcalls' hobjects'
    exact ⟨List.length_eq_zero_iff.mp (by omega), List.length_eq_zero_iff.mp (by omega)⟩
  · rintro ⟨hcalls, hobjects⟩
    constructor
    · have hwait : (s.invoked ++ s.lazyStack).Perm (s.invoked ++ s.lazyStack.reverse) :=
        (List.reverse_perm _).symm.append_left _
      have hall := (hk.calls.trans hwait).append_right (scheduledCalls (work.finalizers s).2)
      simpa [hcalls] using hall
    · have hall := hk.objects.append_right (scheduledObjects (work.functions s).2)
      have hwait : (s.unreferenced ++ (s.lazyObjects ++ scheduledObjects (work.functions s).2)).Perm
          (s.unreferenced ++ (s.lazyObjects ++ scheduledObjects (work.functions s).2).reverse) :=
        (List.reverse_perm _).symm.append_left _
      rw [List.append_assoc] at hall
      simpa [hobjects] using hall.trans hwait

/-- In a run within the bounds every lazy request is executed exactly once, in this or the
next step, exactly when no lazily called function calls `lazy_call` and no finalizer that a
step triggers calls `lazy_cleanup`. -/
theorem lazy_work_once_iff (work : LazyWork F D O σ) (env : σ) (acts : List (LazyAct F D O σ))
    (hbounds : work.WithinBounds (.start env) acts) :
    work.ExecutedOnce (.start env) acts ↔
      Transition.Along work.act (fun s a => a = .step → work.Quiet s) (.start env) acts := by
  have hstart : (LazyState.start env : LazyState F D O σ).Kept :=
    ⟨List.Perm.nil, List.Perm.nil⟩
  refine Transition.along_iff ?_ ?_ hstart hbounds
  · intro s a hk h
    cases a with
    | request request => simp [LazyWork.act, hk.request h]
    | step =>
      have hserved : s.Served (work.lazyCallStep s) := lazyCallStep_served h
      have hkept : (work.lazyCallStep s).Kept ↔ work.Quiet s := lazyCallStep_kept_iff hk h
      simp [LazyWork.act, hserved, hkept]
    | elsewhere env =>
      have hkept : LazyState.Kept { s with env } := ⟨hk.calls, hk.objects⟩
      simp [LazyWork.act, hkept]
  · intro s a _ _ h
    exact h.1

end Runs

/-- Two functions and two objects: the first of each schedules the second. -/
def nestingWork : LazyWork Bool Unit Bool Unit where
  invoke goLazy _ _ := ((), if goLazy then [.lazyCall false ()] else [])
  oppUnref obj _ := ((), if obj then [.lazyCleanup false] else [])

theorem lazy_work_once_iff_innerOnly :
    nestingWork.ExecutedOnce (.start ())
        [.request (.lazyCall false ()), .request (.lazyCleanup false), .step] ↔
      Transition.Along nestingWork.act (fun s a => a = .step → nestingWork.Quiet s) (.start ())
        [.request (.lazyCall false ()), .request (.lazyCleanup false), .step] :=
  lazy_work_once_iff nestingWork () _ (by decide)

/-- A function that a lazily called function passes to `lazy_call` is never invoked, and an
object that a finalizer passes to `lazy_cleanup` is never unreferenced. -/
theorem lazy_work_dropped :
    let calls := [LazyAct.request (.lazyCall true ()), .step, .step]
    let objects := [LazyAct.request (.lazyCleanup true), .step, .step]
    let s := calls.foldl nestingWork.act (.start ())
    let s' := objects.foldl nestingWork.act (.start ())
    (s.called = [(true, ()), (false, ())] ∧ s.invoked = [(true, ())] ∧ s.lazyStack = [] ∧
      nestingWork.WithinBounds (.start ()) calls ∧
      ¬ nestingWork.ExecutedOnce (.start ()) calls) ∧
    (s'.cleaned = [true, false] ∧ s'.unreferenced = [true] ∧ s'.lazyObjects = [] ∧
      nestingWork.WithinBounds (.start ()) objects ∧
      ¬ nestingWork.ExecutedOnce (.start ()) objects) := by
  refine ⟨⟨rfl, rfl, rfl, by decide, ?_⟩, rfl, rfl, rfl, by decide, ?_⟩
  · intro h
    exact absurd h.2.1.1.calls.length_eq (by decide)
  · intro h
    exact absurd h.2.1.1.objects.length_eq (by decide)

end Nginz
