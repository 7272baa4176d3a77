import Mathlib.Data.List.Perm.Subperm
import Mathlib.Tactic.Common

/-! Linked chains of cells that are allocated and never freed. -/
namespace Arena

structure Cell (α : Type*) where
  value : α
  next : Option ℕ

variable {α β : Type*}

/-- The chain from an address on: the addresses of its cells with their values. -/
inductive Chain (cells : List (Cell α)) : Option ℕ → List (ℕ × α) → Prop where
  | nil : Chain cells none []
  | cons {a : ℕ} {v : α} {next : Option ℕ} {xs : List (ℕ × α)} (cell : cells[a]? = some ⟨v, next⟩)
      (rest : Chain cells next xs) : Chain cells (some a) ((a, v) :: xs)

/-- The last cell of the chain from a cell on; `none` when there is no end in reach. -/
def last (cells : List (Cell α)) : ℕ → ℕ → Option ℕ
  | 0, _ => none
  | fuel + 1, a =>
    match cells[a]? with
    | none => none
    | some c =>
      match c.next with
      | none => some a
      | some b => last cells fuel b

/-- The loop over a chain; `none` when the body fails or there is no end in reach. -/
def forEach (cells : List (Cell α)) (body : β → α → Option β) : ℕ → Option ℕ → β → Option β
  | _, none, s => some s
  | 0, some _, _ => none
  | fuel + 1, some a, s =>
    match cells[a]? with
    | none => none
    | some c =>
      match body s c.value with
      | none => none
      | some s => forEach cells body fuel c.next s

/-- A cell is linked to another. -/
def link (cells : List (Cell α)) (a b : ℕ) : List (Cell α) :=
  cells.modify a fun c => { c with next := some b }

theorem link_length (cells : List (Cell α)) (a b : ℕ) : (link cells a b).length = cells.length :=
  List.length_modify _ _ _

theorem link_other {cells : List (Cell α)} {a b c : ℕ} (h : c ≠ a) :
    (link cells a b)[c]? = cells[c]? := by
  unfold link
  rw [List.getElem?_modify]
  simp [h.symm]

theorem link_self {cells : List (Cell α)} {a b : ℕ} {c : Cell α} (h : cells[a]? = some c) :
    (link cells a b)[a]? = some { c with next := some b } := by
  unfold link
  rw [List.getElem?_modify]
  simp [h]

variable {cells : List (Cell α)} {r : Option ℕ} {xs : List (ℕ × α)}

/-- A chain depends on its own cells. -/
theorem Chain.frame (h : Chain cells r xs) {cells' : List (Cell α)}
    (hsame : ∀ x ∈ xs, cells'[x.1]? = cells[x.1]?) : Chain cells' r xs := by
  induction h with
  | nil => exact .nil
  | cons cell rest ih =>
    have hcell := hsame _ List.mem_cons_self
    exact .cons (hcell.trans cell) (ih fun x hx => hsame x (List.mem_cons_of_mem _ hx))

/-- The cells of a chain hold its values. -/
theorem Chain.value (h : Chain cells r xs) {x : ℕ × α} (hx : x ∈ xs) :
    ∃ next, cells[x.1]? = some ⟨x.2, next⟩ := by
  induction h with
  | nil => exact absurd hx List.not_mem_nil
  | cons cell rest ih =>
    rcases List.mem_cons.mp hx with rfl | hx
    · exact ⟨_, cell⟩
    · exact ih hx

theorem Chain.address_lt (h : Chain cells r xs) {x : ℕ × α} (hx : x ∈ xs) : x.1 < cells.length := by
  obtain ⟨next, hcell⟩ := h.value hx
  exact (List.getElem?_eq_some_iff.mp hcell).1

/-- A new cell is in no chain. -/
theorem Chain.alloc (h : Chain cells r xs) (c : Cell α) : Chain (cells ++ [c]) r xs :=
  h.frame fun _ hx => List.getElem?_append_left (h.address_lt hx)

/-- A chain whose cells are all different fits into the arena. -/
theorem Chain.length_le (h : Chain cells r xs) (hnodup : (xs.map Prod.fst).Nodup) :
    xs.length ≤ cells.length := by
  have hsub : xs.map Prod.fst ⊆ List.range cells.length := by
    intro a ha
    obtain ⟨x, hx, rfl⟩ := List.mem_map.mp ha
    exact List.mem_range.mpr (h.address_lt hx)
  simpa using (hnodup.subperm hsub).length_le

theorem Chain.last_eq {a : ℕ} (h : Chain cells r xs) (hr : r = some a) {fuel : ℕ}
    (hfuel : xs.length ≤ fuel) :
    ∃ x, xs.getLast? = some x ∧ last cells fuel a = some x.1 ∧ cells[x.1]? = some ⟨x.2, none⟩ := by
  induction h generalizing a fuel with
  | nil => exact absurd hr (by simp)
  | @cons b v next xs cell rest ih =>
    obtain rfl : b = a := Option.some.inj hr
    cases fuel with
    | zero => exact absurd hfuel (by simp)
    | succ fuel =>
      cases rest with
      | nil => exact ⟨(b, v), rfl, by simp [last, cell], cell⟩
      | @cons b' v' next' xs' cell' rest' =>
        obtain ⟨x, hlast, heq, hcell⟩ := ih rfl (Nat.le_of_succ_le_succ hfuel)
        refine ⟨x, ?_, ?_, hcell⟩
        · rw [List.getLast?_cons_cons]
          exact hlast
        · simp only [last, cell]
          exact heq

/-- A cell that is in no chain yet, linked to the last cell of a chain. -/
theorem Chain.append (h : Chain cells r xs) (hnodup : (xs.map Prod.fst).Nodup) {x : ℕ × α}
    (hlast : xs.getLast? = some x) {b : ℕ} {v : α} (hb : cells[b]? = some ⟨v, none⟩)
    (hnew : b ∉ xs.map Prod.fst) : Chain (link cells x.1 b) r (xs ++ [(b, v)]) := by
  induction h with
  | nil => exact absurd hlast (by simp)
  | @cons a u next xs cell rest ih =>
    have hdiff := List.nodup_cons.mp hnodup
    have hne : b ≠ x.1 := by
      rintro rfl
      exact hnew (List.mem_map_of_mem (List.mem_of_getLast? hlast))
    cases rest with
    | nil =>
      obtain rfl : (a, u) = x := by simpa using hlast
      exact .cons (link_self cell) (.cons ((link_other hne).trans hb) .nil)
    | @cons a' u' next' xs' cell' rest' =>
      rw [List.getLast?_cons_cons] at hlast
      have hin : x.1 ∈ ((a', u') :: xs').map Prod.fst :=
        List.mem_map_of_mem (List.mem_of_getLast? hlast)
      have ha : a ≠ x.1 := by
        rintro rfl
        exact hdiff.1 hin
      have hrest := ih hdiff.2 hlast fun hmem => hnew (List.mem_cons_of_mem _ hmem)
      exact .cons ((link_other ha).trans cell) hrest

/-- The loop over a chain goes over its values in order. -/
theorem Chain.forEach_eq (h : Chain cells r xs) (body : β → α → Option β) {fuel : ℕ}
    (hfuel : xs.length ≤ fuel) (s : β) : forEach cells body fuel r s =
      (xs.map Prod.snd).foldlM body s := by
  induction h generalizing fuel s with
  | nil => cases fuel <;> rfl
  | cons cell rest ih =>
    cases fuel with
    | zero => exact absurd hfuel (by simp)
    | succ fuel =>
      rw [List.map_cons, List.foldlM_cons]
      simp only [forEach, cell]
      cases body s _ with
      | none => rfl
      | some s => exact ih (Nat.le_of_succ_le_succ hfuel) s

end Arena
