import Nginz.Fiber.LifeCycle

/-! The rounds of `fiber_module_step`, and the runs of the fibers as a whole. -/
namespace Nginz
namespace FiberModule
variable {F : Type} [DecidableEq F] {m m' : FiberModule F}

/-- A call of the loop. -/
def isStepCall (i : Fin maxFibers) (r : FiberRecord F) : Bool :=
  r.slot = i && (r.event = .called .created || r.event = .called .activated)

/-- How often the loop called the function of a slot. -/
def stepsOf (m : FiberModule F) (i : Fin maxFibers) : ℕ := m.trace.countP (isStepCall i)

/-- The loop was at the slot in this round, or the round is over. -/
def passed (m : FiberModule F) (i : Fin maxFibers) : Bool :=
  match m.step with
  | none => true
  | some (.stepping k _) => i ≤ k
  | some (.removing k) => i ≤ k

omit [DecidableEq F] in
theorem stepFrom_fibers {k : ℕ} (h : m.stepFrom k = some m') : m'.fibers = m.fibers := by
  rcases stepFrom_cases m k with ⟨hend, -⟩ | ⟨i, -, -, -, hcall⟩
  · obtain rfl := Option.some.inj (hend.symm.trans h)
    rfl
  · rw [hcall] at h
    obtain ⟨f, -, rfl⟩ := Option.map_eq_some_iff.mp h
    rfl

omit [DecidableEq F] in
theorem stepFrom_isStepped {k : ℕ} (h : m.stepFrom k = some m') (i : Fin maxFibers) :
    m'.isStepped i = m.isStepped i := by
  unfold isStepped
  rw [stepFrom_fibers h]

omit [DecidableEq F] in
theorem passed_eq {i j : Fin maxFibers} (h : (∃ f, m.step = some (.stepping j f)) ∨
    m.step = some (.removing j)) :
    m.passed i = decide (i.val < j.val + 1) := by
  unfold passed
  rcases h with ⟨f, hs⟩ | hs
  · rw [hs]
    exact decide_eq_decide.mpr Nat.lt_succ_iff.symm
  · rw [hs]
    exact decide_eq_decide.mpr Nat.lt_succ_iff.symm

omit [DecidableEq F] in
/-- A slot that the loop comes to is called, and the others that it passes are idle. -/
theorem stepFrom_stepsOf {k : ℕ} (h : m.stepFrom k = some m') {i : Fin maxFibers}
    (hi : m.isStepped i = true) :
    m'.stepsOf i + (decide (i.val < k)).toNat = m.stepsOf i + (m'.passed i).toNat := by
  rcases stepFrom_cases m k with ⟨hend, hidle⟩ | ⟨j, hj, hstepped, hidle, hcall⟩
  · obtain rfl := Option.some.inj (hend.symm.trans h)
    have hlt : i.val < k := by
      by_contra hge
      exact absurd hi (by simp [hidle i (not_lt.mp hge)])
    simp [stepsOf, passed, hlt]
  · rw [hcall] at h
    obtain ⟨f, -, rfl⟩ := Option.map_eq_some_iff.mp h
    have hstatus := isStepped_iff.mp hstepped
    have hcount :
        isStepCall i (⟨j, f, .called (m.fibers j).status⟩ : FiberRecord F) = decide (j = i) := by
      rcases hstatus with hs | hs <;> simp [isStepCall, hs]
    simp only [stepsOf, passed, List.countP_append, List.countP_singleton, hcount]
    rcases lt_trichotomy i j with hlt | rfl | hgt
    · have hbefore : i.val < k := by
        by_contra hge
        exact absurd hi (by simp [hidle i (not_lt.mp hge) hlt])
      simp [hbefore, hlt.le, hlt.ne']
    · simp [hj]
    · have hval : j.val < i.val := hgt
      have hafter : ¬ i.val < k := by omega
      simp [hafter, hgt.not_ge, hgt.ne]

/-- In a round, an action takes the loop past the slots that it calls. -/
theorem Consistent.act_stepsOf (h : m.Consistent) {a : FiberAction F} (hcall : m.Called a)
    (hround : a ≠ .step) (hact : m.act a = some m') {i : Fin maxFibers}
    (hi : m'.isStepped i = true) :
    m'.stepsOf i + (m.passed i).toNat = m.stepsOf i + (m'.passed i).toNat := by
  cases a with
  | step => exact absurd rfl hround
  | register f =>
    obtain ⟨j, -, hregister⟩ := registerFiber_room hcall.2.2 f
    obtain rfl := Option.some.inj (hregister.symm.trans hact)
    simp [stepsOf, passed, isStepCall]
  | unregister f =>
    by_cases hf : ∃ j, (m.fibers j).fiber = some f
    · obtain ⟨j, hj⟩ := hf
      have hfound := unregisterFiber_present hj fun l hl => h.distinct hl hj
      obtain rfl := Option.some.inj (hfound.symm.trans hact)
      simp [stepsOf, passed, isStepCall]
    · push Not at hf
      obtain rfl := Option.some.inj ((unregisterFiber_absent hf).symm.trans hact)
      rfl
  | ret code =>
    have hret : m.bodyReturns code = some m' := hact
    rcases h.bodyReturns_cases hcall code with ⟨j, f, outer, -, -, hbody⟩ |
      ⟨j, f, -, hstep, hbody⟩ | ⟨j, f, -, hstep, rfl, hbody⟩ | ⟨j, f, status, -, hstep, -, -, hbody⟩
    · obtain rfl := Option.some.inj (hbody.symm.trans hret)
      simp [stepsOf, passed, isStepCall]
    · have hfrom := hbody.symm.trans hret
      have hsteps := stepFrom_stepsOf hfrom ((stepFrom_isStepped hfrom i).symm.trans hi)
      rw [passed_eq (.inr hstep), hsteps]
      simp [stepsOf, isStepCall]
    · obtain rfl := Option.some.inj (hbody.symm.trans hret)
      simp [stepsOf, passed, isStepCall, hstep]
    · have hfrom := hbody.symm.trans hret
      have hsteps := stepFrom_stepsOf hfrom ((stepFrom_isStepped hfrom i).symm.trans hi)
      rw [passed_eq (.inl ⟨f, hstep⟩), hsteps]
      simp [stepsOf, isStepCall]

/-- Actions of a round take the loop past a slot that is stepped throughout as often as it is
called. -/
theorem Consistent.round_stepsOf (h : m.Consistent) {as : List (FiberAction F)}
    (has : Along Orderly m as) (hround : .step ∉ as) (hrun : m.run as = some m') {i : Fin maxFibers}
    (hi : ∀ part x, part ≠ [] → part <+: as → m.run part = some x → x.isStepped i = true) :
    m'.stepsOf i + (m.passed i).toNat = m.stepsOf i + (m'.passed i).toNat := by
  induction as generalizing m with
  | nil =>
    obtain rfl := Option.some.inj hrun
    rfl
  | cons a as ih =>
    obtain ⟨⟨hcall, hsettled⟩, hrest⟩ := has
    obtain ⟨x, hact, hnext⟩ := h.act hcall hsettled
    have hlater : ∀ part, m.run (a :: part) = x.run part := by
      intro part
      unfold FiberModule.run
      rw [List.foldlM_cons, hact]
      rfl
    rw [hlater] at hrun
    have hstepped : x.isStepped i = true :=
      hi [a] x (List.cons_ne_nil _ _) ⟨as, rfl⟩ ((hlater []).trans rfl)
    have hfirst := h.act_stepsOf hcall (fun he => hround (he ▸ List.mem_cons_self)) hact hstepped
    have hothers := ih hnext (hrest x hact) (fun hs => hround (List.mem_cons_of_mem _ hs)) hrun
      fun part y _ hpart hy => hi (a :: part) y (List.cons_ne_nil _ _)
        (List.cons_prefix_cons.mpr ⟨rfl, hpart⟩) ((hlater part).trans hy)
    omega

/-- A slot that is stepped throughout a round is stepped once in it. -/
theorem Consistent.stepped_once (h : m.Consistent) {as : List (FiberAction F)}
    (has : Along Orderly m (.step :: as)) (hround : .step ∉ as)
    (hrun : m.run (.step :: as) = some m')
    (hover : m'.step = none) {i : Fin maxFibers}
    (hi : ∀ part x, part <+: .step :: as → m.run part = some x → x.isStepped i = true) :
    m'.stepsOf i = m.stepsOf i + 1 := by
  obtain ⟨⟨hcall, hsettled⟩, hrest⟩ := has
  obtain ⟨x, hact, hnext⟩ := h.act hcall hsettled
  have hlater : ∀ part, m.run (.step :: part) = x.run part := by
    intro part
    unfold FiberModule.run
    rw [List.foldlM_cons, hact]
    rfl
  have hstart := stepFrom_stepsOf hact (hi [] m List.nil_prefix rfl)
  rw [hlater] at hrun
  have hothers := hnext.round_stepsOf (hrest x hact) hround hrun fun part y _ hpart hy =>
    hi (.step :: part) y (List.cons_prefix_cons.mpr ⟨rfl, hpart⟩) ((hlater part).trans hy)
  have hpassed : m'.passed i = true := by simp [passed, hover]
  simp only [Nat.not_lt_zero, decide_false, Bool.toNat_false, Nat.add_zero] at hstart
  rw [hpassed, Bool.toNat_true] at hothers
  omega

theorem along_append {P : FiberModule F → FiberAction F → Prop} {as bs : List (FiberAction F)}
    (h : Along P m (as ++ bs)) : Along P m as ∧ ∀ x, m.run as = some x → Along P x bs := by
  induction as generalizing m with
  | nil =>
    refine ⟨trivial, fun x hx => ?_⟩
    obtain rfl := Option.some.inj hx
    exact h
  | cons a as ih =>
    obtain ⟨ha, hrest⟩ := h
    refine ⟨⟨ha, fun y hy => (ih (hrest y hy)).1⟩, fun x hx => ?_⟩
    unfold FiberModule.run at hx
    rw [List.foldlM_cons] at hx
    obtain ⟨y, hy, hyx⟩ := Option.bind_eq_some_iff.mp hx
    exact (ih (hrest y hy)).2 x hyx

/-- In every run in which no call unregisters a function whose body runs: NULL is never called;
what happens to each function is a series of lives; it is never left failed or unregistered
without its last call; the functions in the slots are those that live; a slot is empty when no
function is in it; and a slot that is stepped throughout a round is stepped once in it. -/
theorem fiber_life_cycle (as : List (FiberAction F)) (has : Along Orderly (fiberModuleInit F) as) :
    ∃ m, (fiberModuleInit F).run as = some m ∧
      (∀ f, ∃ life, lifeOf f m.trace = some life ∧
        ∀ i p, life = some (i, p) → p ≠ .failed ∧ p ≠ .unregistered) ∧
      (∀ i f, (m.fibers i).fiber = some f ↔ ∃ p, lifeOf f m.trace = some (some (i, p))) ∧
      (∀ i, (m.fibers i).status = .empty ↔ (m.fibers i).fiber = none) ∧
      ∀ pre mid post m₀ m₁, as = pre ++ (.step :: mid ++ post) → .step ∉ mid →
        (fiberModuleInit F).run pre = some m₀ → m₀.run (.step :: mid) = some m₁ → m₁.step = none →
        ∀ i, (∀ part x, part <+: .step :: mid → m₀.run part = some x → x.isStepped i = true) →
          m₁.stepsOf i = m₀.stepsOf i + 1 := by
  obtain ⟨m, hrun, h⟩ := init_consistent.run has
  refine ⟨m, hrun, fun f => ?_, fun i f => ⟨fun hi => ⟨_, h.life_present hi⟩, ?_⟩, h.empty, ?_⟩
  · obtain ⟨life, hlife, hlives⟩ := h.lives f
    refine ⟨life, hlife, ?_⟩
    rintro i p rfl
    rw [hlives.2]
    unfold phaseIn restingPhase
    split_ifs
    · simp
    · simp
    · cases (m.fibers i).status <;> simp
  · rintro ⟨p, hp⟩
    obtain ⟨life, hlife, hlives⟩ := h.lives f
    obtain rfl := Option.some.inj (hlife.symm.trans hp)
    exact hlives.1
  · rintro pre mid post m₀ m₁ rfl hround hpre hmid hover i hi
    obtain ⟨hbefore, hafter⟩ := along_append has
    obtain ⟨m', hm', hconsistent⟩ := init_consistent.run hbefore
    obtain rfl := Option.some.inj (hm'.symm.trans hpre)
    exact hconsistent.stepped_once (along_append (hafter _ hpre)).1 hround hmid hover hi

/-- One fiber unregisters another and then fails. -/
theorem fiber_life_cycle_twoFibers :
    ∃ m, (fiberModuleInit ℕ).run [.register 1, .register 2, .step, .unregister 2, .ret 0, .ret (-1),
      .ret 0,
        .register 3, .step] = some m ∧
      ∀ f, ∃ life, lifeOf f m.trace = some life ∧
        ∀ i p, life = some (i, p) → p ≠ .failed ∧ p ≠ .unregistered := by
  obtain ⟨m, hrun, hlives, -⟩ := fiber_life_cycle
    [.register 1, .register 2, .step, .unregister 2, .ret 0, .ret (-1), .ret 0, .register 3, .step]
    (by decide +kernel)
  exact ⟨m, hrun, hlives⟩

/-- A function is unregistered in the last call of another one while its own body runs, and
then that body returns `-1`: the search for its slot finds an empty one, and NULL is called. -/
theorem unregister_of_running_calls_null :
    Along Called (fiberModuleInit ℕ) [.register 1, .register 2, .step, .unregister 2, .unregister 1,
      .ret 0,
        .ret 0, .ret (-1)] ∧
      (fiberModuleInit ℕ).run [.register 1, .register 2, .step, .unregister 2, .unregister 1,
        .ret 0, .ret 0, .ret (-1)] = none := by
  refine ⟨by decide +kernel, ?_⟩
  rw [← Option.isNone_iff_eq_none]
  decide +kernel

end FiberModule
end Nginz
