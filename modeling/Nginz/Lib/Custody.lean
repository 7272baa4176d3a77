import Mathlib.Tactic

/-! Tokens that parties hold in numbered slots and send to each other: each token is in one
place at most, and what a party does with its own slots keeps that so. -/

/-- The tokens in the slots of the parties, and those on their way. -/
structure Custody (ι κ τ : Type*) where
  held : ι → κ → Option τ
  transit : List τ

namespace Custody
variable {ι κ τ : Type*}

/-- No token is in two places. -/
structure Linear (c : Custody ι κ τ) : Prop where
  apart : ∀ i j k l x, c.held i k = some x → c.held j l = some x → i = j ∧ k = l
  once : c.transit.Nodup
  moving : ∀ i k x, c.held i k = some x → x ∉ c.transit

/-- The token is nowhere. -/
def Absent (c : Custody ι κ τ) (x : τ) : Prop :=
  (∀ i k, c.held i k ≠ some x) ∧ x ∉ c.transit

/-- A party gives tokens up: some of them it sends away. -/
structure Sheds (f f' : κ → Option τ) (sent : List τ) : Prop where
  held : ∀ k x, f' k = some x → f k = some x
  once : sent.Nodup
  gone : ∀ x ∈ sent, (∃ k, f k = some x) ∧ ∀ k, f' k ≠ some x

namespace Sheds
variable {f f' f'' : κ → Option τ} {sent sent' : List τ}

/-- Nothing is sent. -/
theorem of_held (h : ∀ k x, f' k = some x → f k = some x) : Sheds f f' [] where
  held := h
  once := List.nodup_nil
  gone _ hx := absurd hx List.not_mem_nil

protected theorem refl (f : κ → Option τ) : Sheds f f [] := of_held fun _ _ => id

protected theorem trans (h : Sheds f f' sent) (h' : Sheds f' f'' sent') :
    Sheds f f'' (sent ++ sent') where
  held k x hk := h.held k x (h'.held k x hk)
  once := by
    refine List.nodup_append.mpr ⟨h.once, h'.once, ?_⟩
    rintro x hx _ hx' rfl
    obtain ⟨⟨k, hk⟩, -⟩ := h'.gone x hx'
    exact (h.gone x hx).2 k hk
  gone x hx := by
    rcases List.mem_append.mp hx with hx | hx
    · obtain ⟨hheld, hgone⟩ := h.gone x hx
      exact ⟨hheld, fun k hk => hgone k (h'.held k x hk)⟩
    · obtain ⟨⟨k, hk⟩, hgone⟩ := h'.gone x hx
      exact ⟨⟨k, h.held k x hk⟩, hgone⟩

variable [DecidableEq κ]

/-- An emptied slot. -/
theorem drop (f : κ → Option τ) (k : κ) : Sheds f (Function.update f k none) [] := by
  refine of_held fun l x hl => ?_
  by_cases hlk : l = k
  · rw [hlk, Function.update_self] at hl
    exact absurd hl (by simp)
  · rwa [Function.update_of_ne hlk] at hl

/-- A token is sent out of the only slot that holds it. -/
theorem send {k : κ} {x : τ} (hk : f k = some x) (honly : ∀ l, f l = some x → l = k) :
    Sheds f (Function.update f k none) [x] where
  held := (drop f k).held
  once := List.nodup_singleton x
  gone y hy := by
    obtain rfl := List.mem_singleton.mp hy
    refine ⟨⟨k, hk⟩, fun l hl => ?_⟩
    have hlk := honly l ((drop f k).held l y hl)
    rw [hlk, Function.update_self] at hl
    exact absurd hl (by simp)

end Sheds

variable {c : Custody ι κ τ} {i : ι} {k : κ} {x : τ}

section Moves
variable [DecidableEq ι]

/-- A party gives tokens up. -/
def shed (c : Custody ι κ τ) (i : ι) (f : κ → Option τ) (sent : List τ) : Custody ι κ τ :=
  ⟨Function.update c.held i f, c.transit ++ sent⟩

/-- A token comes out of transit, where `rest` stays, into a slot of a party. -/
def receive [DecidableEq κ] (c : Custody ι κ τ) (i : ι) (k : κ) (x : τ) (rest : List τ) :
    Custody ι κ τ :=
  ⟨Function.update c.held i (Function.update (c.held i) k (some x)), rest⟩

theorem shed_held {f : κ → Option τ} {sent : List τ} (hf : Sheds (c.held i) f sent) {j : ι}
    (hx : (c.shed i f sent).held j k = some x) : c.held j k = some x ∧ x ∉ sent ∨
      c.held j k = some x ∧ j ≠ i := by
  change Function.update c.held i f j k = some x at hx
  by_cases hj : j = i
  · subst hj
    rw [Function.update_self] at hx
    exact Or.inl ⟨hf.held k x hx, fun hs => (hf.gone x hs).2 k hx⟩
  · rw [Function.update_of_ne hj] at hx
    exact Or.inr ⟨hx, hj⟩

theorem Linear.shed (h : c.Linear) {f : κ → Option τ} {sent : List τ}
    (hf : Sheds (c.held i) f sent) : (c.shed i f sent).Linear where
  apart j j' l l' x hj hj' :=
    h.apart j j' l l' x ((shed_held hf hj).elim And.left And.left)
      ((shed_held hf hj').elim And.left And.left)
  once := by
    refine List.nodup_append.mpr ⟨h.once, hf.once, ?_⟩
    rintro x hx _ hsent rfl
    obtain ⟨⟨k, hk⟩, -⟩ := hf.gone x hsent
    exact h.moving i k x hk hx
  moving j l x hx hmem := by
    have hold : c.held j l = some x := (shed_held hf hx).elim And.left And.left
    rcases List.mem_append.mp hmem with hmem | hsent
    · exact h.moving j l x hold hmem
    · rcases shed_held hf hx with ⟨-, hno⟩ | ⟨-, hother⟩
      · exact hno hsent
      · obtain ⟨⟨k, hk⟩, -⟩ := hf.gone x hsent
        exact hother (h.apart j i l k x hold hk).1

/-- What is nowhere does not come back. -/
theorem Absent.shed (h : c.Absent x) {f : κ → Option τ} {sent : List τ}
    (hf : Sheds (c.held i) f sent) : (c.shed i f sent).Absent x := by
  refine ⟨fun j l hx => h.1 j l ((shed_held hf hx).elim And.left And.left), fun hmem => ?_⟩
  rcases List.mem_append.mp hmem with hmem | hsent
  · exact h.2 hmem
  · obtain ⟨⟨k, hk⟩, -⟩ := hf.gone x hsent
    exact h.1 i k hk

variable [DecidableEq κ] {rest : List τ}

theorem receive_held {j : ι} {l : κ} {y : τ} (hy : (c.receive i k x rest).held j l = some y) :
    j = i ∧ l = k ∧ y = x ∨ c.held j l = some y := by
  change Function.update c.held i (Function.update (c.held i) k (some x)) j l = some y at hy
  by_cases hj : j = i
  · subst hj
    rw [Function.update_self] at hy
    by_cases hl : l = k
    · subst hl
      rw [Function.update_self] at hy
      exact Or.inl ⟨rfl, rfl, (Option.some.inj hy).symm⟩
    · rw [Function.update_of_ne hl] at hy
      exact Or.inr hy
  · rw [Function.update_of_ne hj] at hy
    exact Or.inr hy

theorem Linear.receive (h : c.Linear) (hx : c.transit.Perm (x :: rest)) :
    (c.receive i k x rest).Linear where
  apart j j' l l' y hj hj' := by
    have hmoving := fun j l (hy : c.held j l = some x) => h.moving j l x hy
      (hx.mem_iff.mpr List.mem_cons_self)
    rcases receive_held hj with ⟨hi, hk, hy⟩ | hold <;>
      rcases receive_held hj' with ⟨hi', hk', hy'⟩ | hold'
    · exact ⟨hi.trans hi'.symm, hk.trans hk'.symm⟩
    · exact absurd (hy ▸ hold') (hmoving j' l')
    · exact absurd (hy' ▸ hold) (hmoving j l)
    · exact h.apart j j' l l' y hold hold'
  once := (List.nodup_cons.mp (hx.nodup_iff.mp h.once)).2
  moving j l y hy hmem := by
    have hrest : y ∈ c.transit := hx.mem_iff.mpr (List.mem_cons_of_mem x hmem)
    rcases receive_held hy with ⟨-, -, rfl⟩ | hold
    · exact (List.nodup_cons.mp (hx.nodup_iff.mp h.once)).1 hmem
    · exact h.moving j l y hold hrest

theorem Absent.receive {y : τ} (h : c.Absent y) (hx : c.transit.Perm (x :: rest)) :
    (c.receive i k x rest).Absent y := by
  refine ⟨fun j l hy => ?_, fun hmem => h.2 (hx.mem_iff.mpr (List.mem_cons_of_mem x hmem))⟩
  rcases receive_held hy with ⟨-, -, rfl⟩ | hold
  · exact h.2 (hx.mem_iff.mpr List.mem_cons_self)
  · exact h.1 j l hold

end Moves

/-- A token that was nowhere starts on its way. -/
theorem Linear.enter (h : c.Linear) (hx : c.Absent x) : (Custody.mk c.held
    (c.transit ++ [x])).Linear where
  apart := h.apart
  once := by
    refine List.nodup_append.mpr ⟨h.once, List.nodup_singleton x, ?_⟩
    rintro y hy _ hyx rfl
    obtain rfl := List.mem_singleton.mp hyx
    exact hx.2 hy
  moving i k y hy hmem := by
    rcases List.mem_append.mp hmem with hmem | hyx
    · exact h.moving i k y hy hmem
    · obtain rfl := List.mem_singleton.mp hyx
      exact hx.1 i k hy

end Custody
