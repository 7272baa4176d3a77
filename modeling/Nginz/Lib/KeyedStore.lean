import Mathlib.Tactic

/-! Finite maps changed by compare-and-swap operations, one key at a time. -/
namespace KeyedStore
variable {κ ν : Type*} [DecidableEq κ] [DecidableEq ν]

/-- An operation on the value of one key. -/
inductive Op (ν : Type*) where
  | cas (new old : ν)
  | setIfNull (new : ν)
  | unset
  | get
  deriving DecidableEq, Repr

namespace Op

/-- Whether the operation takes effect on the given current value. -/
def succeeds : Op ν → Option ν → Bool
  | cas _ old, cur => cur = some old
  | setIfNull _, cur => cur = none
  | unset, _ => true
  | get, _ => true

def isSetIfNull : Op ν → Bool
  | setIfNull _ => true
  | _ => false

/-- The value after an operation that takes effect. -/
def written : Op ν → Option ν → Option ν
  | cas new _, _ => some new
  | setIfNull new, _ => some new
  | unset, _ => none
  | get, cur => cur

def update (op : Op ν) (cur : Option ν) : Option ν :=
  if op.succeeds cur then op.written cur else cur

end Op

/-- A map after an operation on one of its keys. -/
def apply (s : κ → Option ν) (r : κ × Op ν) : κ → Option ν :=
  Function.update s r.1 (r.2.update (s r.1))

def run (s : κ → Option ν) (rs : List (κ × Op ν)) : κ → Option ν := rs.foldl apply s

@[simp] theorem run_cons (s : κ → Option ν) (r : κ × Op ν) (rs : List (κ × Op ν)) :
    run s (r :: rs) = run (apply s r) rs := rfl

theorem run_append (s : κ → Option ν) (rs ts : List (κ × Op ν)) :
    run s (rs ++ ts) = run (run s rs) ts := by
  unfold run
  exact List.foldl_append

@[simp] theorem apply_same (s : κ → Option ν) (k : κ) (op : Op ν) :
    apply s (k, op) k = op.update (s k) := by
  unfold apply
  exact Function.update_self ..

theorem apply_other (s : κ → Option ν) {r : κ × Op ν} {k : κ} (h : r.1 ≠ k) :
    apply s r k = s k := by
  unfold apply
  exact Function.update_of_ne h.symm ..

/-- An operation that does not take effect changes no key. -/
theorem apply_of_failed {s : κ → Option ν} {r : κ × Op ν} (h : r.2.succeeds (s r.1) = false) :
    apply s r = s := by
  unfold apply Op.update
  simp [h]

section
omit [DecidableEq ν]

/-- The operations on one key, in their order. -/
def onKey (k : κ) (rs : List (κ × Op ν)) : List (Op ν) :=
  (rs.filter (·.1 = k)).map Prod.snd

@[simp] theorem onKey_nil (k : κ) : onKey k ([] : List (κ × Op ν)) = [] := rfl

theorem onKey_cons (k : κ) (r : κ × Op ν) (rs : List (κ × Op ν)) :
    onKey k (r :: rs) = if r.1 = k then r.2 :: onKey k rs else onKey k rs := by
  unfold onKey
  by_cases h : r.1 = k <;> simp [h]

theorem onKey_append (k : κ) (rs ts : List (κ × Op ν)) :
    onKey k (rs ++ ts) = onKey k rs ++ onKey k ts := by
  unfold onKey
  rw [List.filter_append, List.map_append]

end

/-- A key sees only its own operations. -/
theorem run_key (s : κ → Option ν) (rs : List (κ × Op ν)) (k : κ) :
    run s rs k = (onKey k rs).foldl (fun cur op => op.update cur) (s k) := by
  induction rs generalizing s with
  | nil => rfl
  | cons r rs ih =>
    rw [run_cons, ih, onKey_cons]
    by_cases h : r.1 = k
    · obtain ⟨j, op⟩ := r
      subst h
      simp
    · rw [apply_other s h, if_neg h]

/-- A key that is absent has the value that all operations on it try to set. -/
theorem run_setIfNull {s : κ → Option ν} {rs : List (κ × Op ν)} {k : κ} {v : ν} (hs : s k = none)
    (hall : ∀ op ∈ onKey k rs, op = .setIfNull v)
    (hsome : onKey k rs ≠ []) : run s rs k = some v := by
  have hstays : ∀ ops : List (Op ν), (∀ op ∈ ops, op = .setIfNull v) →
      ops.foldl (fun cur op => op.update cur) (some v) = some v := by
    intro ops hops
    induction ops with
    | nil => rfl
    | cons op ops ih =>
      obtain rfl := hops op List.mem_cons_self
      exact ih fun o ho => hops o (List.mem_cons_of_mem _ ho)
  obtain ⟨op, ops, hops⟩ := List.exists_cons_of_ne_nil hsome
  rw [run_key, hops, hs]
  rw [hops] at hall
  obtain rfl := hall op List.mem_cons_self
  exact hstays ops fun o ho => hall o (List.mem_cons_of_mem _ ho)

/-! ### Insertions -/

/-- An operation that is a set-if-null on the key and finds it absent. -/
def inserts (k : κ) (s : κ → Option ν) (r : κ × Op ν) : Bool :=
  r.1 = k && r.2.isSetIfNull && (s k).isNone

/-- How many set-if-null operations on a key take effect in a run. -/
def insertions (k : κ) : (κ → Option ν) → List (κ × Op ν) → ℕ
  | _, [] => 0
  | s, r :: rs => (inserts k s r).toNat + insertions k (apply s r) rs

/-- Only a removal makes a present key absent. -/
theorem apply_present {s : κ → Option ν} {r : κ × Op ν} {k : κ} (hs : (s k).isSome)
    (h : r ≠ (k, .unset)) : (apply s r k).isSome := by
  obtain ⟨j, op⟩ := r
  by_cases hj : j = k
  · subst hj
    rw [apply_same]
    unfold Op.update
    split
    · cases op with
      | unset => exact absurd rfl h
      | _ => simp [Op.written, hs]
    · exact hs
  · rw [apply_other s hj]
    exact hs

/-- Only an insertion makes an absent key present. -/
theorem apply_absent {s : κ → Option ν} {r : κ × Op ν} {k : κ} (hs : s k = none)
    (h : inserts k s r = false) : apply s r k = none := by
  obtain ⟨j, op⟩ := r
  by_cases hj : j = k
  · subst hj
    rw [apply_same, hs]
    cases op with
    | setIfNull v => simp [inserts, Op.isSetIfNull, hs] at h
    | _ => simp [Op.update, Op.succeeds, Op.written]
  · rw [apply_other s hj, hs]

/-- While a key is present and not removed, no insertion takes effect. -/
theorem insertions_of_present {k : κ} {rs : List (κ × Op ν)} {s : κ → Option ν}
    (hs : (s k).isSome) (h : (k, .unset) ∉ rs) : insertions k s rs = 0 := by
  induction rs generalizing s with
  | nil => rfl
  | cons r rs ih =>
    rw [List.mem_cons, not_or] at h
    have hzero : inserts k s r = false := by simp [inserts, hs]
    unfold insertions
    rw [hzero, ih (apply_present hs (Ne.symm h.1)) h.2]
    rfl

/-- Between two removals of a key, one of the set-if-null operations takes effect if the
key was absent and there is any, and none otherwise. -/
theorem insertions_eq {k : κ} {rs : List (κ × Op ν)} {s : κ → Option ν}
    (h : (k, .unset) ∉ rs) :
    insertions k s rs = ((s k).isNone && (onKey k rs).any Op.isSetIfNull).toNat := by
  induction rs generalizing s with
  | nil => simp [insertions]
  | cons r rs ih =>
    by_cases hs : s k = none
    swap
    · have hsome : (s k).isSome := Option.isSome_iff_ne_none.mpr hs
      rw [insertions_of_present hsome h, Option.isNone_eq_false_iff.mpr hsome]
      rfl
    rw [List.mem_cons, not_or] at h
    unfold insertions
    by_cases hin : inserts k s r = true
    · have hpresent : (apply s r k).isSome := by
        obtain ⟨j, op⟩ := r
        simp only [inserts, Bool.and_eq_true, decide_eq_true_eq] at hin
        obtain ⟨⟨rfl, hop⟩, -⟩ := hin
        cases op <;> simp [Op.isSetIfNull] at hop
        simp [hs, Op.update, Op.succeeds, Op.written]
      rw [insertions_of_present hpresent h.2, hin]
      simp only [inserts, Bool.and_eq_true, decide_eq_true_eq] at hin
      simp [onKey_cons, hin.1.1, hin.1.2, hs]
    · rw [Bool.not_eq_true] at hin
      rw [ih h.2, apply_absent hs hin, hin, hs, onKey_cons]
      by_cases hj : r.1 = k
      · have hop : r.2.isSetIfNull = false := by simpa [inserts, hj, hs] using hin
        simp [hj, hop]
      · simp [hj]

end KeyedStore
