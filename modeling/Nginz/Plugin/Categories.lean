import Nginz.Plugin.Composite

/-! The category assertions of the calls, over all registrations of a container. -/
namespace Nginz
variable {P : Type} {rs : List (PluginRegistration P)}

/-- A call runs to its end when all plugins of the chain have the category that it asserts. -/
theorem foldlM_category_isSome {σ : Type} (category : PluginCategory)
    (invoke : P → σ → BitVec 32 × σ) (ps : List (InternalPlugin P)) (r : BitVec 32 × σ) :
    (ps.foldlM (fun r plugin =>
        if plugin.category ≠ category then none
        else
          let called := invoke plugin.x r.2
          some (r.1 ||| called.1, called.2)) r).isSome ↔ ∀ p ∈ ps, p.category = category := by
  constructor
  · intro h
    induction ps generalizing r with
    | nil => exact fun p hp => absurd hp List.not_mem_nil
    | cons p ps ih =>
      rw [List.foldlM_cons] at h
      by_cases hp : p.category = category
      · rw [if_neg (not_not.mpr hp)] at h
        exact List.forall_mem_cons.mpr ⟨hp, ih _ h⟩
      · rw [if_pos hp] at h
        exact absurd h Bool.false_ne_true
  · intro h
    rw [foldlM_category category invoke h]
    rfl

/-- The assertions hold for every plugin met when a space is called with the kind of its first
registration, whatever the functions do. -/
def AssertionsHold (T : OppHashOtable ℕ) (container : CompositePlugin T P)
    (rs : List (PluginRegistration P)) : Prop :=
  ∀ s, ∀ first ∈ (registeredUnder s rs).head?,
    (first.category = .callback → ∀ (σ : Type) (invoke : P → σ → BitVec 32 × σ) (w : σ),
      (compositePluginCall T invoke container s w).isSome) ∧
    (first.category = .bridge → ∀ (σ : Type) (invoke : P → BitVec 32 → σ → BitVec 32 × σ)
      (signature : BitVec 32) (w : σ),
      (compositePluginBridgeCall T invoke container s signature w).isSome)

/-- A space that starts with a callback or a bridge is given plugins of this kind only. -/
def OneKind (rs : List (PluginRegistration P)) : Prop :=
  ∀ s, ∀ first ∈ (registeredUnder s rs).head?, first.category ≠ .composite →
    ∀ p ∈ registeredUnder s rs, p.category = first.category

/-- Nothing is registered as an invalid plugin. -/
theorem registered_category {s : Bytes} {p : InternalPlugin P} (hp : p ∈ registeredUnder s rs)
    (hcomposite : p.category ≠ .composite) : p.category = .callback ∨ p.category = .bridge := by
  obtain ⟨r, -, rfl⟩ := List.mem_map.mp (List.mem_of_mem_filter hp)
  cases r with
  | callback => exact Or.inl rfl
  | bridge => exact Or.inr rfl
  | innerComposite => exact absurd rfl hcomposite

section Calls
variable {T : OppHashOtable ℕ} {container : CompositePlugin T P} (h : container.Holds T rs)
  {σ : Type} (s : Bytes) (w : σ)
include h

theorem CompositePlugin.Holds.call_isSome (invoke : P → σ → BitVec 32 × σ) :
    (compositePluginCall T invoke container s w).isSome ↔
      ∀ p ∈ registeredUnder s rs, p.category = .callback := by
  unfold compositePluginCall
  rw [h.forEach_space]
  exact foldlM_category_isSome .callback invoke _ _

theorem CompositePlugin.Holds.bridgeCall_isSome (invoke : P → BitVec 32 → σ → BitVec 32 × σ)
    (signature : BitVec 32) :
    (compositePluginBridgeCall T invoke container s signature w).isSome ↔
      ∀ p ∈ registeredUnder s rs, p.category = .bridge := by
  unfold compositePluginBridgeCall
  rw [h.forEach_space]
  exact foldlM_category_isSome .bridge (invoke · signature) _ _

end Calls

/-- Any registrations are accepted, and the assertions of the calls hold exactly when no space
mixes kinds. -/
theorem categories_asserted_iff (T : OppHashOtable ℕ) (rs : List (PluginRegistration P)) :
    ∃ container : CompositePlugin T P,
      rs.foldlM (PluginRegistration.plug T) (compositePluginCreate T) = some container ∧
      (AssertionsHold T container rs ↔ OneKind rs) := by
  obtain ⟨container, hplug, h⟩ := (create_holds T).plugAll rs
  rw [List.nil_append] at h
  refine ⟨container, hplug, fun hall s first hfirst hcomposite => ?_,
    fun hkind s first hfirst => ?_⟩
  · obtain ⟨hcallback, hbridge⟩ := hall s first hfirst
    rcases registered_category (List.mem_of_head? hfirst) hcomposite with hc | hb
    · rw [hc]
      exact (h.call_isSome s () _).mp (hcallback hc Unit (fun _ w => (0, w)) ())
    · rw [hb]
      exact (h.bridgeCall_isSome s () _ _).mp (hbridge hb Unit (fun _ _ w => (0, w)) 0 ())
  · refine ⟨fun hc σ invoke w => ?_, fun hb σ invoke signature w => ?_⟩
    · have hsame := hkind s first hfirst (by rw [hc]; decide)
      rw [hc] at hsame
      exact (h.call_isSome s w invoke).mpr hsame
    · have hsame := hkind s first hfirst (by rw [hb]; decide)
      rw [hb] at hsame
      exact (h.bridgeCall_isSome s w invoke signature).mpr hsame

/-- What a process plugs under the space of its children: the bridge of the pipes and the
callback of the listener. -/
def forkChildAfter : List (PluginRegistration ℕ) :=
  [.bridge (lit "fork/child/after") 1 0 (lit "pipeline.c") 314,
    .callback (lit "fork/child/after") 2 0 (lit "tcp_listener.c") 104]

/-- The bridge call of `fork_processors` fails the assertion at the second plugin. -/
theorem fork_child_after_mixed :
    ∃ container : CompositePlugin (.alist ℕ) ℕ,
      forkChildAfter.foldlM (PluginRegistration.plug _) (compositePluginCreate _) = some container ∧
      ¬ AssertionsHold _ container forkChildAfter := by
  obtain ⟨container, hplug, h⟩ := (create_holds (P := ℕ) (.alist ℕ)).plugAll forkChildAfter
  rw [List.nil_append] at h
  refine ⟨container, hplug, fun hall => ?_⟩
  have hcall := (hall (lit "fork/child/after") _ rfl).2 rfl Unit (fun _ _ w => (0, w)) 0 ()
  exact absurd ((h.bridgeCall_isSome _ () _ _).mp hcall) (by decide +kernel)

end Nginz
