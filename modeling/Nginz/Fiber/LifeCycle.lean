import Nginz.Fiber.Module

/-! The life of a function from its registration to the return of its last call. -/
namespace Nginz

/-- Where a registered function is: not called yet, in a call, between calls, told to rest by
its own `-2`, failed by its own `-1`, about to be told of its end, and in its last call. -/
inductive FiberPhase where
  | created | running | activated | deactivated | failed | unregistered | destroying
  deriving DecidableEq, Repr

/-- The phase after an event; no phase when the life is over. `none` when the event does not
belong there. -/
def FiberPhase.next : FiberPhase → FiberEvent → Option (Option FiberPhase)
  | created, .called .created => some (some running)
  | activated, .called .activated => some (some running)
  | running, .returned code =>
    some (some (if code = -1 then failed else if code = -2 then deactivated else activated))
  | created, .unregistered => some (some unregistered)
  | activated, .unregistered => some (some unregistered)
  | deactivated, .unregistered => some (some unregistered)
  | failed, .unregistered => some (some unregistered)
  | unregistered, .called .destroyed => some (some destroying)
  | destroying, .returned _ => some none
  | _, _ => none

/-- The slot of a function and its phase, between its registration and its end. -/
abbrev FiberLife : Type := Option (Fin maxFibers × FiberPhase)

/-- A life begins with a registration, and all its events are in one slot. -/
def FiberLife.next : FiberLife → Fin maxFibers → FiberEvent → Option FiberLife
  | none, i, e => if e = .registered then some (some (i, .created)) else none
  | some (i, p), j, e => if j = i then (p.next e).map fun q => q.map fun q => (i, q) else none

variable {F : Type} [DecidableEq F]

/-- The life of a function by its record; `none` when an event does not belong there. -/
def lifeOf (f : F) (trace : List (FiberRecord F)) : Option FiberLife :=
  (trace.filter fun r => r.fiber = f).foldlM (fun life r => FiberLife.next life r.slot r.event) none

theorem lifeOf_own {f : F} {trace : List (FiberRecord F)} {i : Fin maxFibers} {e : FiberEvent}
    {life life' : FiberLife} (h : lifeOf f trace = some life) (hnext : life.next i e = some life') :
    lifeOf f (trace ++ [⟨i, f, e⟩]) = some life' := by
  unfold lifeOf at h ⊢
  rw [List.filter_append, List.foldlM_append, h]
  simp [hnext]

theorem lifeOf_other {f g : F} (trace : List (FiberRecord F)) (i : Fin maxFibers) (e : FiberEvent)
    (h : g ≠ f) : lifeOf g (trace ++ [⟨i, f, e⟩]) = lifeOf g trace := by
  unfold lifeOf
  rw [List.filter_append]
  simp [h.symm]

namespace FiberModule
variable {m : FiberModule F}

/-- The phase of a function that is in a slot, by its status, when its body does not run. -/
def restingPhase : FiberStatus → FiberPhase
  | .created => .created
  | .activated => .activated
  | _ => .deactivated

/-- The phase of a function that is in a slot. -/
def phaseIn (m : FiberModule F) (i : Fin maxFibers) (f : F) : FiberPhase :=
  if m.step = some (.stepping i f) then .running
  else if (i, f) ∈ m.unregisters then .destroying
  else restingPhase (m.fibers i).status

/-- The table and the calls agree with the life of a function. -/
def Lives (m : FiberModule F) (f : F) : FiberLife → Prop
  | none => ∀ i, (m.fibers i).fiber ≠ some f
  | some (i, p) => (m.fibers i).fiber = some f ∧ p = m.phaseIn i f

/-- A slot without a function is empty; a function is in one slot, and at most one call of it is
under way, in this slot; and the record is that of lives. -/
structure Consistent (m : FiberModule F) : Prop where
  empty : ∀ i, (m.fibers i).status = .empty ↔ (m.fibers i).fiber = none
  alive : ∀ i, (m.fibers i).status ≠ .destroyed
  distinct : ∀ {i j f}, (m.fibers i).fiber = some f → (m.fibers j).fiber = some f → i = j
  called : ∀ c ∈ m.calls, (m.fibers c.1).fiber = some c.2
  once : m.bodies.Nodup
  stepped : ∀ {i f}, m.step = some (.stepping i f) → m.isStepped i = true
  removing : ∀ {i}, m.step = some (.removing i) → ∃ f, m.unregisters.getLast? = some (i, f)
  lives : ∀ f, ∃ life, lifeOf f m.trace = some life ∧ m.Lives f life

omit [DecidableEq F] in
theorem isStepped_iff {i : Fin maxFibers} : m.isStepped i = true ↔
    (m.fibers i).status = .created ∨ (m.fibers i).status = .activated := by
  unfold isStepped
  cases (m.fibers i).status <;> decide

theorem init_consistent : (fiberModuleInit F).Consistent where
  empty _ := by simp [fiberModuleInit]
  alive _ := by simp [fiberModuleInit]
  distinct h := absurd h (by simp [fiberModuleInit])
  called c hc := absurd hc (by simp [calls, fiberModuleInit])
  once := by simp [bodies, calls, fiberModuleInit]
  stepped h := absurd h (by simp [fiberModuleInit])
  removing h := absurd h (by simp [fiberModuleInit])
  lives f := ⟨none, rfl, fun i => by simp [fiberModuleInit]⟩

/-- A step that leaves the slot and the calls of a function as they are leaves it its life. -/
theorem Lives.frame {m' : FiberModule F} {g : F} {life : FiberLife} (h : m.Lives g life)
    (hfiber : ∀ j, (m'.fibers j).fiber = some g ↔ (m.fibers j).fiber = some g)
    (hstatus : ∀ j, (m.fibers j).fiber = some g → (m'.fibers j).status = (m.fibers j).status)
    (hstep : ∀ j, m'.step = some (.stepping j g) ↔ m.step = some (.stepping j g))
    (hunreg : ∀ j, (j, g) ∈ m'.unregisters ↔ (j, g) ∈ m.unregisters) : m'.Lives g life := by
  cases life with
  | none => exact fun i hi => h i ((hfiber i).mp hi)
  | some life =>
    obtain ⟨i, p⟩ := life
    obtain ⟨hi, hp⟩ := h
    refine ⟨(hfiber i).mpr hi, hp.trans ?_⟩
    simp only [phaseIn, hstep, hunreg, hstatus i hi]

/-- The life of a function that is in a slot. -/
theorem Consistent.life_present (h : m.Consistent) {i : Fin maxFibers} {f : F}
    (hi : (m.fibers i).fiber = some f) : lifeOf f m.trace = some (some (i, m.phaseIn i f)) := by
  obtain ⟨life, hlife, hlives⟩ := h.lives f
  cases life with
  | none => exact absurd hi (hlives i)
  | some life =>
    obtain ⟨j, p⟩ := life
    obtain ⟨hj, hp⟩ := hlives
    obtain rfl := h.distinct hj hi
    rw [hlife, hp]

theorem Consistent.life_absent (h : m.Consistent) {f : F} (hf : ∀ i, (m.fibers i).fiber ≠ some f) :
    lifeOf f m.trace = some none := by
  obtain ⟨life, hlife, hlives⟩ := h.lives f
  cases life with
  | none => exact hlife
  | some life => exact absurd hlives.1 (hf life.1)

/-- A function that is registered begins its life. -/
theorem Consistent.register (h : m.Consistent) {f : F} (hf : ∀ i, (m.fibers i).fiber ≠ some f)
    {i : Fin maxFibers} (hi : (m.fibers i).status = .empty) :
    Consistent { m with
      fibers := Function.update m.fibers i ⟨.created, some f⟩
      trace := m.trace ++ [⟨i, f, .registered⟩] } := by
  have hnull : (m.fibers i).fiber = none := (h.empty i).mp hi
  have hfiber : ∀ j g, g ≠ f → ((Function.update m.fibers i ⟨.created, some f⟩ j).fiber = some g ↔
      (m.fibers j).fiber = some g) := by
    intro j g hg
    by_cases hj : j = i
    · subst hj
      simp [hnull, hg.symm]
    · rw [Function.update_of_ne hj]
  have hnot : ∀ {j g}, (m.fibers j).fiber = some g → j ≠ i := by
    rintro j g hj rfl
    rw [hnull] at hj
    exact absurd hj (by simp)
  exact {
    empty := fun j => by
      by_cases hj : j = i
      · subst hj
        simp
      · simpa [hj] using h.empty j
    alive := fun j => by
      by_cases hj : j = i
      · subst hj
        simp
      · simpa [hj] using h.alive j
    distinct := fun {j k g} hj hk => by
      by_cases hg : g = f
      · subst hg
        have hslot :
            ∀ l, (Function.update m.fibers i ⟨.created, some g⟩ l).fiber = some g → l = i := by
          intro l hl
          by_contra hne
          rw [Function.update_of_ne hne] at hl
          exact hf l hl
        rw [hslot j hj, hslot k hk]
      · exact h.distinct ((hfiber j g hg).mp hj) ((hfiber k g hg).mp hk)
    called := fun c hc => by
      have hcall := h.called c hc
      show (Function.update m.fibers i _ c.1).fiber = _
      rw [Function.update_of_ne (hnot hcall)]
      exact hcall
    once := h.once
    stepped := fun {j g} hj => by
      have hcall : (m.fibers j).fiber = some g :=
        h.called (j, g) (by simp [calls, show m.step = _ from hj])
      have hstepped := h.stepped hj
      rw [isStepped_iff] at hstepped ⊢
      show (Function.update m.fibers i _ j).status = _ ∨ (Function.update m.fibers i _ j).status = _
      rw [Function.update_of_ne (hnot hcall)]
      exact hstepped
    removing := h.removing
    lives := fun g => by
      by_cases hg : g = f
      · subst hg
        refine ⟨some (i, .created), lifeOf_own (h.life_absent hf) rfl, ?_, ?_⟩
        · show (Function.update m.fibers i _ i).fiber = _
          rw [Function.update_self]
        · have hno : ∀ c ∈ m.calls, c ≠ (i, g) := by
            rintro c hc rfl
            exact hf i (h.called _ hc)
          have hstep : m.step ≠ some (.stepping i g) :=
            fun hs => hno (i, g) (by simp [calls, hs]) rfl
          have hunreg : (i, g) ∉ m.unregisters := fun hu =>
            hno (i, g) (List.mem_append_left _ hu) rfl
          simp [phaseIn, hstep, hunreg, restingPhase]
      · obtain ⟨life, hlife, hlives⟩ := h.lives g
        refine ⟨life, (lifeOf_other _ _ _ hg).trans hlife, hlives.frame (fun j => hfiber j g hg)
          (fun j hj => ?_) (fun j => Iff.rfl) fun j => Iff.rfl⟩
        show (Function.update m.fibers i _ j).status = _
        rw [Function.update_of_ne (hnot hj)] }

/-- A function whose body does not run is about to end when it is unregistered. -/
theorem unregister_resting (status : FiberStatus) :
    (restingPhase status).next .unregistered = some (some .unregistered) := by
  cases status <;> rfl

theorem phaseIn_resting {i : Fin maxFibers} {f : F} (h : f ∉ m.bodies) :
    m.phaseIn i f = restingPhase (m.fibers i).status := by
  have hcall : (i, f) ∉ m.calls := fun hc => h (List.mem_map_of_mem hc)
  have hstep : m.step ≠ some (.stepping i f) := fun hs => hcall (by simp [calls, hs])
  have hunreg : (i, f) ∉ m.unregisters := fun hu => hcall (List.mem_append_left _ hu)
  unfold phaseIn
  rw [if_neg hstep, if_neg hunreg]

/-- A function that is unregistered is told so. -/
theorem Consistent.unregister (h : m.Consistent) {i : Fin maxFibers} {f : F}
    (hi : (m.fibers i).fiber = some f) (hf : f ∉ m.bodies) :
    Consistent { m with
      unregisters := (i, f) :: m.unregisters
      trace := m.trace ++ [⟨i, f, .unregistered⟩, ⟨i, f, .called .destroyed⟩] } where
  empty := h.empty
  alive := h.alive
  distinct := h.distinct
  called c hc := by
    rcases List.mem_cons.mp hc with rfl | hc
    · exact hi
    · exact h.called c hc
  once := List.nodup_cons.mpr ⟨hf, h.once⟩
  stepped := h.stepped
  removing hs := by
    obtain ⟨g, hg⟩ := h.removing hs
    exact ⟨g, by simp [List.getLast?_cons, hg]⟩
  lives g := by
    have hsplit : m.trace ++ [(⟨i, f, .unregistered⟩ : FiberRecord F), ⟨i, f, .called .destroyed⟩] =
        (m.trace ++ [⟨i, f, .unregistered⟩]) ++ [⟨i, f, .called .destroyed⟩] := by simp
    show ∃ life, lifeOf g (m.trace ++ [_, _]) = some life ∧ _
    rw [hsplit]
    by_cases hg : g = f
    · subst hg
      have hlife := h.life_present hi
      rw [phaseIn_resting hf] at hlife
      have hnext : FiberLife.next (some (i, restingPhase (m.fibers i).status)) i .unregistered =
          some (some (i, .unregistered)) := by simp [FiberLife.next, unregister_resting]
      have hcall : FiberLife.next (some (i, .unregistered)) i (.called .destroyed) =
          some (some (i, .destroying)) := by simp [FiberLife.next, FiberPhase.next]
      refine ⟨_, lifeOf_own (lifeOf_own hlife hnext) hcall, hi, ?_⟩
      have hstep : m.step ≠ some (.stepping i g) := fun hs =>
        hf (List.mem_map_of_mem (show (i, g) ∈ m.calls by simp [calls, hs]))
      simp [phaseIn, hstep]
    · obtain ⟨life, hlife, hlives⟩ := h.lives g
      refine ⟨life, ?_, hlives.frame (fun j => Iff.rfl) (fun j _ => rfl) (fun j => Iff.rfl) fun
        j => ?_⟩
      · rw [lifeOf_other _ _ _ hg, lifeOf_other _ _ _ hg]
        exact hlife
      · simp [hg]

/-- A function whose step returned something else than `-1`. -/
theorem Consistent.returned (h : m.Consistent) {i : Fin maxFibers} {f : F}
    (hstep : m.step = some (.stepping i f)) (hnone : m.unregisters = []) {status : FiberStatus}
    {code : ℤ}
    (hstatus : status = .activated ∨ status = .deactivated)
    (hnext : FiberPhase.next .running (.returned code) = some (some (restingPhase status))) :
    Consistent { m with
      fibers := Function.update m.fibers i { m.fibers i with status := status }
      step := none
      trace := m.trace ++ [⟨i, f, .returned code⟩] } := by
  have hi : (m.fibers i).fiber = some f := h.called (i, f) (by simp [calls, hstep])
  have hfiber : ∀ j, (Function.update m.fibers i { m.fibers i with status := status } j).fiber =
      (m.fibers j).fiber := by
    intro j
    by_cases hj : j = i
    · subst hj
      simp
    · simp [hj]
  exact {
    empty := fun j => by
      show (Function.update m.fibers i _ j).status = _ ↔ (Function.update m.fibers i _ j).fiber = _
      rw [hfiber]
      by_cases hj : j = i
      · subst hj
        rcases hstatus with rfl | rfl <;> simp [hi]
      · simpa [hj] using h.empty j
    alive := fun j => by
      by_cases hj : j = i
      · subst hj
        rcases hstatus with rfl | rfl <;> simp
      · simpa [hj] using h.alive j
    distinct := fun {j k g} hj hk => h.distinct ((hfiber j).symm.trans hj)
      ((hfiber k).symm.trans hk)
    called := fun c hc => absurd hc (by simp [calls, hnone])
    once := by simp [bodies, calls, hnone]
    stepped := fun hs => absurd hs (by simp)
    removing := fun hs => absurd hs (by simp)
    lives := fun g => by
      by_cases hg : g = f
      · subst hg
        have hlife := h.life_present hi
        have hrunning : m.phaseIn i g = .running := by simp [phaseIn, hstep]
        have hreturn : FiberLife.next (some (i, .running)) i (.returned code) =
            some (some (i, restingPhase status)) := by simp [FiberLife.next, hnext]
        rw [hrunning] at hlife
        refine ⟨_, lifeOf_own hlife hreturn, (hfiber i).trans hi, ?_⟩
        simp [phaseIn, hnone]
      · obtain ⟨life, hlife, hlives⟩ := h.lives g
        refine ⟨life, (lifeOf_other _ _ _ hg).trans hlife, hlives.frame (fun j => by rw [hfiber])
          (fun j hj => ?_) (fun j => ?_) fun j => Iff.rfl⟩
        · have hne : j ≠ i := by
            rintro rfl
            exact hg (Option.some.inj (hj.symm.trans hi))
          simp [hne]
        · simp [hstep, Ne.symm hg] }

/-- A function whose step returned `-1` is unregistered. -/
theorem Consistent.failed (h : m.Consistent) {i : Fin maxFibers} {f : F}
    (hstep : m.step = some (.stepping i f)) (hnone : m.unregisters = []) :
    Consistent { m with
      step := some (.removing i)
      unregisters := [(i, f)]
      trace := m.trace ++ [⟨i, f, .returned (-1)⟩] ++
        [⟨i, f, .unregistered⟩, ⟨i, f, .called .destroyed⟩] } := by
  have hi : (m.fibers i).fiber = some f := h.called (i, f) (by simp [calls, hstep])
  exact {
    empty := h.empty
    alive := h.alive
    distinct := h.distinct
    called := fun c hc => by
      obtain rfl : c = (i, f) := by simpa [calls] using hc
      exact hi
    once := by simp [bodies, calls]
    stepped := fun hs => absurd hs (by simp)
    removing := fun {j} hs => by
      obtain rfl : i = j := by simpa using hs
      exact ⟨f, rfl⟩
    lives := fun g => by
      have hsplit : m.trace ++ [⟨i, f, .returned (-1)⟩] ++
          [(⟨i, f, .unregistered⟩ : FiberRecord F), ⟨i, f, .called .destroyed⟩] =
            m.trace ++ [⟨i, f, .returned (-1)⟩] ++ [⟨i, f, .unregistered⟩] ++
              [⟨i, f, .called .destroyed⟩] := by simp
      show ∃ life, lifeOf g (m.trace ++ [_] ++ [_, _]) = some life ∧ _
      rw [hsplit]
      by_cases hg : g = f
      · subst hg
        have hlife := h.life_present hi
        have hrunning : m.phaseIn i g = .running := by simp [phaseIn, hstep]
        rw [hrunning] at hlife
        have hreturn : FiberLife.next (some (i, .running)) i (.returned (-1)) =
            some (some (i, .failed)) := by simp [FiberLife.next, FiberPhase.next]
        have hunreg : FiberLife.next (some (i, .failed)) i .unregistered =
            some (some (i, .unregistered)) := by simp [FiberLife.next, FiberPhase.next]
        have hcall : FiberLife.next (some (i, .unregistered)) i (.called .destroyed) =
            some (some (i, .destroying)) := by simp [FiberLife.next, FiberPhase.next]
        refine ⟨_, lifeOf_own (lifeOf_own (lifeOf_own hlife hreturn) hunreg) hcall, hi, ?_⟩
        simp [phaseIn]
      · obtain ⟨life, hlife, hlives⟩ := h.lives g
        refine ⟨life, ?_, hlives.frame (fun j => Iff.rfl) (fun j _ => rfl) (fun j => ?_) fun
          j => ?_⟩
        · rw [lifeOf_other _ _ _ hg, lifeOf_other _ _ _ hg, lifeOf_other _ _ _ hg]
          exact hlife
        · simp [hstep, Ne.symm hg]
        · simp [hnone, hg] }

/-- A function that was told of its end is in no slot any more, and its slot is empty. -/
theorem Consistent.ended (h : m.Consistent) {i : Fin maxFibers} {f : F}
    {outer : List (Fin maxFibers × F)}
    (hcalls : m.unregisters = (i, f) :: outer) (code : ℤ) {step : Option (StepCall F)}
    (hstep : step = m.step ∧ (∀ k, m.step = some (.removing k) → outer ≠ []) ∨
      step = none ∧ ∀ j g, m.step ≠ some (.stepping j g)) :
    Consistent { m with
      fibers := Function.update m.fibers i ⟨.empty, none⟩
      step := step
      unregisters := outer
      trace := m.trace ++ [⟨i, f, .returned code⟩] } := by
  have hi : (m.fibers i).fiber = some f := h.called (i, f) (by simp [calls, hcalls])
  have hstepping : ∀ j g, step = some (.stepping j g) ↔ m.step = some (.stepping j g) := by
    intro j g
    rcases hstep with ⟨rfl, -⟩ | ⟨rfl, hno⟩
    · rfl
    · exact ⟨fun hs => absurd hs (by simp), fun hs => absurd hs (hno j g)⟩
  have hbody : stepBody m.step = stepBody step := by
    rcases hstep with ⟨rfl, -⟩ | ⟨rfl, hno⟩
    · rfl
    · unfold stepBody
      split
      · exact absurd ‹_› (hno _ _)
      · rfl
  have hrest : m.calls = (i, f) :: (outer ++ stepBody step) := by
    unfold calls
    rw [hcalls, hbody, List.cons_append]
  have honce := h.once
  unfold bodies at honce
  rw [hrest, List.map_cons] at honce
  obtain ⟨hf, honce⟩ := List.nodup_cons.mp honce
  have hfiber : ∀ j g, g ≠ f → ((Function.update m.fibers i ⟨.empty, none⟩ j).fiber = some g ↔
      (m.fibers j).fiber = some g) := by
    intro j g hg
    by_cases hj : j = i
    · subst hj
      simp [hi, Ne.symm hg]
    · rw [Function.update_of_ne hj]
  have hfree : ∀ j, (Function.update m.fibers i ⟨.empty, none⟩ j).fiber ≠ some f := by
    intro j
    by_cases hj : j = i
    · subst hj
      simp
    · rw [Function.update_of_ne hj]
      exact fun he => hj (h.distinct he hi)
  have hothers : ∀ {j g}, g ≠ f → (m.fibers j).fiber = some g → j ≠ i := by
    rintro j g hg hj rfl
    exact hg (Option.some.inj (hj.symm.trans hi))
  exact {
    empty := fun j => by
      by_cases hj : j = i
      · subst hj
        simp
      · simpa [hj] using h.empty j
    alive := fun j => by
      by_cases hj : j = i
      · subst hj
        simp
      · simpa [hj] using h.alive j
    distinct := fun {j k g} hj hk => by
      have hg : g ≠ f := by
        rintro rfl
        exact hfree j hj
      exact h.distinct ((hfiber j g hg).mp hj) ((hfiber k g hg).mp hk)
    called := fun c hc => by
      have hne : c.2 ≠ f := fun he => hf (List.mem_map.mpr ⟨c, hc, he⟩)
      exact (hfiber c.1 c.2 hne).mpr (h.called c (hrest ▸ List.mem_cons_of_mem _ hc))
    once := honce
    stepped := fun {j g} hs => by
      have hj := (hstepping j g).mp hs
      have hmem : (j, g) ∈ outer ++ stepBody step := by simp [show step = _ from hs]
      have hg : g ≠ f := fun he => hf (List.mem_map.mpr ⟨(j, g), hmem, he⟩)
      have hne : j ≠ i := hothers hg (h.called (j, g) (hrest ▸ List.mem_cons_of_mem _ hmem))
      have hstepped := h.stepped hj
      rw [isStepped_iff] at hstepped ⊢
      show (Function.update m.fibers i _ j).status = _ ∨ (Function.update m.fibers i _ j).status = _
      rw [Function.update_of_ne hne]
      exact hstepped
    removing := fun {k} hs => by
      rcases hstep with ⟨rfl, hmore⟩ | ⟨rfl, -⟩
      · obtain ⟨g, hg⟩ := h.removing hs
        obtain ⟨c, outer', rfl⟩ := List.exists_cons_of_ne_nil (hmore k hs)
        rw [hcalls, List.getLast?_cons_cons] at hg
        exact ⟨g, hg⟩
      · exact absurd hs (by simp)
    lives := fun g => by
      by_cases hg : g = f
      · subst hg
        have hlife := h.life_present hi
        have hnot : m.step ≠ some (.stepping i g) := by
          intro hs
          refine hf (List.mem_map.mpr ⟨(i, g), ?_, rfl⟩)
          simp [(hstepping i g).mpr hs]
        have hending : m.phaseIn i g = .destroying := by simp [phaseIn, hnot, hcalls]
        rw [hending] at hlife
        have hover : FiberLife.next (some (i, .destroying)) i (.returned code) = some none := by
          simp [FiberLife.next, FiberPhase.next]
        exact ⟨none, lifeOf_own hlife hover, hfree⟩
      · obtain ⟨life, hlife, hlives⟩ := h.lives g
        refine ⟨life, (lifeOf_other _ _ _ hg).trans hlife, hlives.frame (fun j => hfiber j g hg)
          (fun j hj => ?_) (fun j => hstepping j g) fun j => ?_⟩
        · show (Function.update m.fibers i _ j).status = _
          rw [Function.update_of_ne (hothers hg hj)]
        · rw [hcalls]
          simp [hg] }

/-- The loop goes on to the next call, or it is over. -/
theorem Consistent.stepFrom (h : m.Consistent) (hstep : m.step = none) (hnone : m.unregisters = [])
    (k : ℕ) : ∃ m', m.stepFrom k = some m' ∧ m'.Consistent := by
  rcases stepFrom_cases m k with ⟨hend, -⟩ | ⟨i, -, hstepped, -, hcall⟩
  · refine ⟨_, hend, ?_⟩
    rw [← hstep]
    exact h
  · have hnull : (m.fibers i).fiber ≠ none := by
      intro hn
      have hempty : (m.fibers i).status = .empty := (h.empty i).mpr hn
      rw [isStepped_iff, hempty] at hstepped
      exact absurd hstepped (by simp)
    obtain ⟨f, hf⟩ := Option.ne_none_iff_exists'.mp hnull
    rw [hf] at hcall
    refine ⟨_, hcall, ?_⟩
    exact {
      empty := h.empty
      alive := h.alive
      distinct := h.distinct
      called := fun c hc => by
        obtain rfl : c = (i, f) := by simpa [calls, hnone] using hc
        exact hf
      once := by simp [bodies, calls, hnone]
      stepped := fun {j g} hs => by
        obtain ⟨rfl, -⟩ : i = j ∧ f = g := by simpa using hs
        exact hstepped
      removing := fun hs => absurd hs (by simp)
      lives := fun g => by
        by_cases hg : g = f
        · subst hg
          have hlife := h.life_present hf
          have hresting : m.phaseIn i g = restingPhase (m.fibers i).status := by
            simp [phaseIn, hstep, hnone]
          rw [hresting] at hlife
          have hnext : FiberLife.next (some (i, restingPhase (m.fibers i).status)) i
              (.called (m.fibers i).status) = some (some (i, .running)) := by
            rcases isStepped_iff.mp hstepped with hs | hs
            · rw [hs]
              simp [FiberLife.next, restingPhase, FiberPhase.next]
            · rw [hs]
              simp [FiberLife.next, restingPhase, FiberPhase.next]
          refine ⟨_, lifeOf_own hlife hnext, hf, ?_⟩
          simp [phaseIn]
        · obtain ⟨life, hlife, hlives⟩ := h.lives g
          refine ⟨life, (lifeOf_other _ _ _ hg).trans hlife, hlives.frame (fun j => Iff.rfl)
            (fun j _ => rfl) (fun j => ?_) fun j => Iff.rfl⟩
          simp [hstep, Ne.symm hg] }

/-- What comes of the return of a body: a call of `unregister_fiber` ends, with or without
`fiber_module_step` behind it, or a step ends, with the code `-1` or with another one. -/
theorem Consistent.bodyReturns_cases (h : m.Consistent) (hbody : m.bodies ≠ []) (code : ℤ) :
    (∃ i f outer, m.unregisters = (i, f) :: outer ∧
      (∀ k, m.step = some (.removing k) → outer ≠ []) ∧
      m.bodyReturns code = some
        { m with
          fibers := Function.update m.fibers i ⟨.empty, none⟩
          unregisters := outer
          trace := m.trace ++ [⟨i, f, .returned code⟩] }) ∨
    (∃ i f, m.unregisters = [(i, f)] ∧ m.step = some (.removing i) ∧
      m.bodyReturns code = FiberModule.stepFrom
        { m with
          fibers := Function.update m.fibers i ⟨.empty, none⟩
          step := none
          unregisters := []
          trace := m.trace ++ [⟨i, f, .returned code⟩] } (i.val + 1)) ∨
    (∃ i f, m.unregisters = [] ∧ m.step = some (.stepping i f) ∧ code = -1 ∧
      m.bodyReturns code = some
        { m with
          step := some (.removing i)
          unregisters := [(i, f)]
          trace := m.trace ++ [⟨i, f, .returned (-1)⟩] ++
            [⟨i, f, .unregistered⟩, ⟨i, f, .called .destroyed⟩] }) ∨
    ∃ i f status, m.unregisters = [] ∧ m.step = some (.stepping i f) ∧
      (status = .activated ∨ status = .deactivated) ∧
      FiberPhase.next .running (.returned code) = some (some (restingPhase status)) ∧
      m.bodyReturns code = FiberModule.stepFrom
        { m with
          fibers := Function.update m.fibers i { m.fibers i with status := status }
          step := none
          trace := m.trace ++ [⟨i, f, .returned code⟩] } (i.val + 1) := by
  obtain ⟨calls, hcalls⟩ : ∃ calls, m.unregisters = calls := ⟨_, rfl⟩
  obtain ⟨step, hstep⟩ : ∃ step, m.step = step := ⟨_, rfl⟩
  unfold FiberModule.bodyReturns
  rw [hcalls, hstep]
  cases calls with
  | cons c outer =>
    obtain ⟨i, f⟩ := c
    by_cases hmore : ∀ k, step = some (.removing k) → outer ≠ []
    · refine .inl ⟨i, f, outer, rfl, hmore, ?_⟩
      dsimp only
      split
      · exact absurd rfl (hmore _ rfl)
      · rw [← hstep]
    · -- the call was that of `fiber_module_step`
      push Not at hmore
      obtain ⟨k, rfl, rfl⟩ := hmore
      obtain ⟨g, hg⟩ := h.removing hstep
      rw [hcalls] at hg
      obtain ⟨rfl, rfl⟩ : i = k ∧ f = g := by simpa using hg
      refine .inr (.inl ⟨i, f, rfl, rfl, ?_⟩)
      unfold stepOn
      dsimp only
      rw [if_neg (by simp)]
      rfl
  | nil =>
    cases step with
    | none => exact absurd (by simp [bodies, calls, hcalls, hstep]) hbody
    | some call =>
      cases call with
      | removing k =>
        obtain ⟨g, hg⟩ := h.removing hstep
        rw [hcalls] at hg
        exact absurd hg (by simp)
      | stepping i f =>
        have hi : (m.fibers i).fiber = some f := h.called (i, f) (by simp [calls, hstep])
        have hstepped := isStepped_iff.mp (h.stepped hstep)
        dsimp only
        by_cases hfail : code = -1
        · subst hfail
          refine .inr (.inr (.inl ⟨i, f, rfl, rfl, rfl, ?_⟩))
          have hfound := unregisterFiber_present (m := ⟨m.fibers, some (.removing i), [],
            m.trace ++ [⟨i, f, .returned (-1)⟩]⟩) hi fun j hj => h.distinct hj hi
          rw [if_pos rfl, hi, hfound]
          rfl
        · rw [if_neg hfail]
          refine .inr (.inr (.inr ?_))
          by_cases hrest : code = -2
          · refine ⟨i, f, .deactivated, rfl, rfl, .inr rfl, by
              simp [FiberPhase.next, hrest, restingPhase], ?_⟩
            rw [if_pos hrest]
            unfold stepOn setStatus
            dsimp only
            rw [if_neg (by simp)]
            rfl
          · refine ⟨i, f, .activated, rfl, rfl, .inl rfl,
              by simp [FiberPhase.next, hrest, hfail, restingPhase], ?_⟩
            rw [if_neg hrest]
            unfold stepOn setStatus
            dsimp only
            rcases hstepped with hs | hs
            · rw [if_pos hs]
              rfl
            · have hsame : Function.update m.fibers i { m.fibers i with status := .activated } =
                m.fibers := by
                rw [← hs]
                exact Function.update_eq_self i m.fibers
              rw [if_neg (by simp [hs]), hsame]
              rfl

/-- Each action goes through and keeps the table consistent. -/
theorem Consistent.act (h : m.Consistent) {a : FiberAction F} (hcall : m.Called a)
    (hsettled : m.Settled a) :
    ∃ m', m.act a = some m' ∧ m'.Consistent := by
  cases a with
  | register f =>
    obtain ⟨-, habsent, hroom⟩ := hcall
    obtain ⟨i, hi, hregister⟩ := registerFiber_room hroom f
    exact ⟨_, hregister, h.register habsent hi⟩
  | unregister f =>
    by_cases hf : ∃ i, (m.fibers i).fiber = some f
    · obtain ⟨i, hi⟩ := hf
      exact ⟨_, unregisterFiber_present hi fun j hj => h.distinct hj hi, h.unregister hi hsettled⟩
    · push Not at hf
      exact ⟨m, unregisterFiber_absent hf, h⟩
  | step =>
    obtain ⟨hstep, hnone⟩ := hcall
    exact h.stepFrom hstep hnone 0
  | ret code =>
    rcases h.bodyReturns_cases hcall code with ⟨i, f, outer, hcalls, hmore, hret⟩ |
      ⟨i, f, hcalls, hstep, hret⟩ | ⟨i, f, hnone, hstep, rfl, hret⟩ |
      ⟨i, f, status, hnone, hstep, hstatus, hnext, hret⟩
    · exact ⟨_, hret, h.ended hcalls code (.inl ⟨rfl, hmore⟩)⟩
    · have hover : ∀ j g, m.step ≠ some (.stepping j g) := fun j g => by simp [hstep]
      have hended := h.ended hcalls code (.inr ⟨rfl, hover⟩)
      obtain ⟨m', hm', hconsistent⟩ := hended.stepFrom rfl rfl (i.val + 1)
      exact ⟨m', hret.trans hm', hconsistent⟩
    · exact ⟨_, hret, h.failed hstep hnone⟩
    · have hreturned := h.returned hstep hnone hstatus hnext
      obtain ⟨m', hm', hconsistent⟩ := hreturned.stepFrom rfl hnone (i.val + 1)
      exact ⟨m', hret.trans hm', hconsistent⟩

theorem Consistent.run (h : m.Consistent) {as : List (FiberAction F)} (has : Along Orderly m as) :
    ∃ m', m.run as = some m' ∧ m'.Consistent := by
  induction as generalizing m with
  | nil => exact ⟨m, rfl, h⟩
  | cons a as ih =>
    obtain ⟨⟨hcall, hsettled⟩, hrest⟩ := has
    obtain ⟨m', hact, hnext⟩ := h.act hcall hsettled
    obtain ⟨m'', hrun, hlast⟩ := ih hnext (hrest m' hact)
    refine ⟨m'', ?_, hlast⟩
    unfold FiberModule.run at hrun ⊢
    rw [List.foldlM_cons, hact]
    exact hrun

end FiberModule

end Nginz
