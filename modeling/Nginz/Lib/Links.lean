import Mathlib.Data.PEquiv
import Mathlib.Tactic

/-! Links between two ends that know of each other, made and dissolved one at a time, and
chains of links that end. -/
namespace Links
variable {α β : Type*}

section Mutual
variable [DecidableEq α] [DecidableEq β] {l : α ≃. β} {u : α} {d : β}

/-- The two ends linked, with the other links of both dissolved. -/
def link (l : α ≃. β) (u : α) (d : β) : α ≃. β where
  toFun x := if x = u then some d else if l x = some d then none else l x
  invFun y := if y = d then some u else if l.symm y = some u then none else l.symm y
  inv x y := by
    have hl : l.symm y = some x ↔ l x = some y := l.eq_some_iff
    grind

/-- The link between the two ends dissolved, if there is one. -/
def unlink (l : α ≃. β) (u : α) (d : β) : α ≃. β where
  toFun x := if x = u ∧ l x = some d then none else l x
  invFun y := if y = d ∧ l.symm y = some u then none else l.symm y
  inv x y := by
    have hl : l.symm y = some x ↔ l x = some y := l.eq_some_iff
    grind

theorem link_symm (l : α ≃. β) (u : α) (d : β) : (link l u d).symm = link l.symm d u :=
  rfl

theorem unlink_symm (l : α ≃. β) (u : α) (d : β) : (unlink l u d).symm = unlink l.symm d u :=
  rfl

/-- A link written to the one end, if the other has no other link. -/
theorem coe_link (h : l.symm d = none ∨ l.symm d = some u) :
    ⇑(link l u d) = Function.update l u (some d) := by
  funext x
  rw [Function.update_apply]
  change (if x = u then some d else if l x = some d then none else l x) = _
  by_cases hx : x = u
  · rw [if_pos hx, if_pos hx]
  · rw [if_neg hx, if_neg hx, if_neg fun hd => ?_]
    rw [l.eq_some_iff.mpr hd] at h
    rcases h with h | h
    · exact Option.some_ne_none x h
    · exact hx (Option.some.inj h)

theorem coe_link_symm (h : l u = none ∨ l u = some d) :
    ⇑(link l u d).symm = Function.update l.symm d (some u) := by
  rw [link_symm]
  exact coe_link h

/-- A link dissolved at the end that has it. -/
theorem coe_unlink (l : α ≃. β) (u : α) (d : β) :
    ⇑(unlink l u d) = if l u = some d then Function.update l u none else l := by
  funext x
  change (if x = u ∧ l x = some d then none else l x) = _
  by_cases hx : x = u
  · rw [hx]
    by_cases hd : l u = some d
    · rw [if_pos ⟨rfl, hd⟩, if_pos hd, Function.update_self]
    · rw [if_neg fun h => hd h.2, if_neg hd]
  · rw [if_neg fun h => hx h.1]
    split_ifs
    · exact (Function.update_of_ne hx ..).symm
    · rfl

/-- A link dissolved at the other end, whatever it has. -/
theorem coe_unlink_symm (h : l.symm d = none ∨ l.symm d = some u) :
    ⇑(unlink l u d).symm = Function.update l.symm d none := by
  rw [unlink_symm, coe_unlink]
  rcases h with h | h
  · rw [if_neg fun hu => Option.some_ne_none u (hu.symm.trans h), ← h, Function.update_eq_self]
  · exact if_pos h

/-- A link written to both ends is known to both, and no other end keeps one to them, exactly
if neither had another link. -/
theorem mutual_update_iff :
    (∀ x y, Function.update l u (some d) x = some y ↔
        Function.update l.symm d (some u) y = some x) ↔
      (l u = none ∨ l u = some d) ∧ (l.symm d = none ∨ l.symm d = some u) := by
  constructor
  · intro h
    constructor
    · by_contra! hother
      obtain ⟨y, hy⟩ := Option.ne_none_iff_exists'.mp hother.1
      have hyd : y ≠ d := fun hyd => hother.2 (hyd ▸ hy)
      have hold := (h u y).mpr ((Function.update_of_ne hyd ..).trans (l.eq_some_iff.mpr hy))
      rw [Function.update_self] at hold
      exact hyd (Option.some.inj hold).symm
    · by_contra! hother
      obtain ⟨x, hx⟩ := Option.ne_none_iff_exists'.mp hother.1
      have hxu : x ≠ u := fun hxu => hother.2 (hxu ▸ hx)
      have hold := (h x d).mp ((Function.update_of_ne hxu ..).trans (l.eq_some_iff.mp hx))
      rw [Function.update_self] at hold
      exact hxu (Option.some.inj hold).symm
  · rintro ⟨hu, hd⟩ x y
    rw [← coe_link hd, ← coe_link_symm hu]
    exact (PEquiv.eq_some_iff _).symm

/-- The same for a link that is dissolved at the end that has it, and at the other end with
whatever that has. -/
theorem mutual_dissolve_iff :
    (∀ x y, (if l u = some d then Function.update l u none else ⇑l) x = some y ↔
        Function.update l.symm d none y = some x) ↔
      l.symm d = none ∨ l.symm d = some u := by
  rw [← coe_unlink]
  constructor
  · intro h
    by_contra! hother
    obtain ⟨x, hx⟩ := Option.ne_none_iff_exists'.mp hother.1
    have hxu : x ≠ u := fun hxu => hother.2 (hxu ▸ hx)
    have hkept : unlink l u d x = some d := (if_neg fun h => hxu h.1).trans (l.eq_some_iff.mp hx)
    have hold := (h x d).mp hkept
    rw [Function.update_self] at hold
    exact Option.some_ne_none x hold.symm
  · intro hd x y
    rw [← coe_unlink_symm hd]
    exact (PEquiv.eq_some_iff _).symm

end Mutual

section Chains
variable {f : α → Option α} {x y : α}

/-- The chain of links from here comes to an end. -/
def Ends (f : α → Option α) (x : α) : Prop := Acc (fun y x => f x = some y) x

theorem ends_of_none (h : f x = none) : Ends f x :=
  ⟨x, fun y hy => absurd (h.symm.trans hy) (Option.some_ne_none y).symm⟩

theorem ends_of_some (h : f x = some y) : Ends f x ↔ Ends f y := by
  refine ⟨fun hx => hx.inv h, fun hy => ⟨x, fun z hz => ?_⟩⟩
  obtain rfl := Option.some.inj (hz.symm.trans h)
  exact hy

end Chains
end Links
