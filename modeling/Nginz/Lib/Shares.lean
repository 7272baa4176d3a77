import Mathlib.Tactic
import Mathlib.Algebra.Order.BigOperators.Group.Finset
import Mathlib.Data.Set.Card

/-! Shares of a total held at finitely many places: what a change at one place does to the
total, and what a total of one says about the places. -/
namespace Shares
variable {ι : Type*} [Fintype ι] [DecidableEq ι]

section Total
variable {M : Type*} [AddCommMonoid M] [PartialOrder M] [IsOrderedAddMonoid M]

/-- When one place alone changes, the total moves with it. -/
theorem sum_add_le {f g : ι → M} {j : ι} (hothers : ∀ i, i ≠ j → f i = g i) {x y : M}
    (hone : f j + x ≤ g j + y) : ∑ i, f i + x ≤ ∑ i, g i + y := by
  have hrest : ∑ i ∈ Finset.univ.erase j, f i = ∑ i ∈ Finset.univ.erase j, g i :=
    Finset.sum_congr rfl fun i hi => hothers i (Finset.ne_of_mem_erase hi)
  rw [← Finset.add_sum_erase _ f (Finset.mem_univ j),
    ← Finset.add_sum_erase _ g (Finset.mem_univ j),
    hrest, add_right_comm, add_right_comm (g j)]
  exact add_le_add_left hone _

end Total

variable {α : Type*} {places : ι → Set α}

/-- With a total of at most one, nothing is at two places. -/
theorem place_unique (h : ∑ i, (places i).encard ≤ 1) {i j : ι} {a b : α} (ha : a ∈ places i)
    (hb : b ∈ places j) : i = j ∧ a = b := by
  have hone (k : ι) {x : α} (hx : x ∈ places k) : 1 ≤ (places k).encard :=
    Set.one_le_encard_iff_nonempty.mpr ⟨x, hx⟩
  have hij : i = j := by
    by_contra hne
    have hle : (places j).encard ≤ ∑ k ∈ Finset.univ.erase i, (places k).encard :=
      Finset.single_le_sum (f := fun k => (places k).encard) (fun _ _ => zero_le)
        (Finset.mem_erase.mpr ⟨Ne.symm hne, Finset.mem_univ j⟩)
    have htwo : (1 + 1 : ℕ∞) ≤ 1 := by
      calc (1 + 1 : ℕ∞) ≤ (places i).encard + (places j).encard :=
        add_le_add (hone i ha) (hone j hb)
        _ ≤ (places i).encard + ∑ k ∈ Finset.univ.erase i, (places k).encard :=
          add_le_add_right hle _
        _ = ∑ k, (places k).encard := Finset.add_sum_erase _ (fun k => (places k).encard)
          (Finset.mem_univ i)
        _ ≤ 1 := h
    exact absurd htwo (by decide)
  subst hij
  refine ⟨rfl, Set.encard_le_one_iff.mp ?_ a b ha hb⟩
  exact (Finset.single_le_sum (f := fun k => (places k).encard) (fun _ _ => zero_le)
    (Finset.mem_univ i)).trans h

end Shares
