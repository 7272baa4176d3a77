import Mathlib.Tactic
import Mathlib.Data.Set.Card

/-! Lists of keyed entries that stand for a map. -/
namespace KeyedEntries
open scoped List
variable {κ ν : Type*} [DecidableEq κ]

/-- The entries are those of the map, one for each key. -/
structure Represents (l : List (κ × ν)) (m : κ → Option ν) : Prop where
  nodup : (l.map Prod.fst).Nodup
  lookup : ∀ k v, m k = some v ↔ (k, v) ∈ l

namespace Represents
variable {l l' : List (κ × ν)} {m : κ → Option ν}

omit [DecidableEq κ] in
theorem nil : Represents ([] : List (κ × ν)) fun _ => none := ⟨List.nodup_nil, by simp⟩

omit [DecidableEq κ] in
theorem perm (h : Represents l m) (hp : l' ~ l) : Represents l' m where
  nodup := (hp.map Prod.fst).nodup_iff.mpr h.nodup
  lookup k v := by rw [h.lookup, hp.mem_iff]

omit [DecidableEq κ] in
theorem absent_iff (h : Represents l m) (k : κ) : m k = none ↔ k ∉ l.map Prod.fst := by
  constructor
  · intro hk hmem
    obtain ⟨⟨k', v⟩, hv, rfl⟩ := List.mem_map.mp hmem
    rw [← h.lookup, hk] at hv
    exact absurd hv (by simp)
  · intro hk
    by_contra hsome
    obtain ⟨v, hv⟩ := Option.ne_none_iff_exists'.mp hsome
    exact hk (List.mem_map_of_mem ((h.lookup k v).mp hv))

/-- A new key. -/
theorem insert (h : Represents l m) {k : κ} (hk : m k = none) (v : ν) :
    Represents (l ++ [(k, v)]) (Function.update m k (some v)) := by
  have habsent := (h.absent_iff k).mp hk
  constructor
  · rw [List.map_append, List.nodup_append]
    refine ⟨h.nodup, List.nodup_singleton _, ?_⟩
    intro a ha b hb hab
    obtain rfl := List.mem_singleton.mp hb
    exact habsent (hab ▸ ha)
  · intro k' v'
    rw [List.mem_append, List.mem_singleton, ← h.lookup]
    by_cases hkk : k' = k
    · subst hkk
      simp [hk, eq_comm]
    · simp [hkk]

/-- A key and its entry go. -/
theorem erase (h : Represents l m) {k : κ} {v : ν} (hp : (k, v) :: l' ~ l) :
    Represents l' (Function.update m k none) := by
  have hnodup := (hp.map Prod.fst).nodup_iff.mpr h.nodup
  rw [List.map_cons, List.nodup_cons] at hnodup
  constructor
  · exact hnodup.2
  · intro k' v'
    by_cases hkk : k' = k
    · subst hkk
      rw [Function.update_self]
      constructor
      · intro hno
        exact absurd hno (by simp)
      · intro hmem
        exact absurd (List.mem_map_of_mem hmem) hnodup.1
    · rw [Function.update_of_ne hkk, h.lookup, ← hp.mem_iff]
      simp [hkk]

/-- A key without an entry. -/
theorem eraseAbsent (h : Represents l m) {k : κ} (hk : k ∉ l.map Prod.fst) :
    Represents l (Function.update m k none) := by
  rw [Function.update_eq_self_iff.mpr ((h.absent_iff k).mpr hk).symm]
  exact h

omit [DecidableEq κ] in
/-- Two lists of entries of one map are the same up to their order. -/
theorem unique (h : Represents l m) (h' : Represents l' m) : l ~ l' := by
  rw [List.perm_ext_iff_of_nodup h.nodup.of_map h'.nodup.of_map]
  rintro ⟨k, v⟩
  rw [← h.lookup, ← h'.lookup]

omit [DecidableEq κ] in
/-- There are as many entries as keys. -/
theorem length_eq (h : Represents l m) : l.length = {k | m k ≠ none}.ncard := by
  classical
  have hset : {k | m k ≠ none} = ((l.map Prod.fst).toFinset : Set κ) := by
    ext k
    have habsent := h.absent_iff k
    simp only [Set.mem_ofPred_eq, List.coe_toFinset]
    tauto
  rw [hset, Set.ncard_coe_finset, List.toFinset_card_of_nodup h.nodup, List.length_map]

end Represents

/-- The entry of a key under distinct keys: where it is, what is left without it, and that a
search finds it. -/
theorem split_at {l : List (κ × ν)} (hnodup : (l.map Prod.fst).Nodup) {k : κ} {v : ν}
    (hmem : (k, v) ∈ l) : ∃ xs ys, l = xs ++ (k, v) :: ys ∧
      (l.eraseP fun e => e.1 = k) = xs ++ ys ∧ l.find? (fun e => e.1 = k) = some (k, v) ∧
      ∀ e ∈ xs ++ ys, e.1 ≠ k := by
  obtain ⟨e, xs, ys, hxs, he, hsplit, herase⟩ :=
    List.exists_of_eraseP (p := fun e : κ × ν => e.1 = k) hmem (by simp)
  have hkey : e.1 = k := by simpa using he
  have hin : e ∈ l := by simp [hsplit]
  obtain rfl : e = (k, v) := List.inj_on_of_nodup_map hnodup hin hmem hkey
  rw [hsplit] at hnodup
  simp only [List.map_append, List.map_cons, List.nodup_append, List.nodup_cons, List.mem_map,
    List.mem_cons] at hnodup
  refine ⟨xs, ys, hsplit, herase, ?_, ?_⟩
  · have hnone : xs.find? (fun e => e.1 = k) = none := by
      rw [List.find?_eq_none]
      exact hxs
    rw [hsplit, List.find?_append, hnone]
    simp
  · intro f hf hff
    rcases List.mem_append.mp hf with hf | hf
    · exact hxs f hf (by simpa using hff)
    · exact hnodup.2.1.1 ⟨f, hf, hff⟩

/-- Erasing a key leaves the entries of the others. -/
theorem mem_eraseP_iff {l : List (κ × ν)} (hnodup : (l.map Prod.fst).Nodup) {k k' : κ} {v : ν} :
    (k', v) ∈ l.eraseP (fun e => e.1 = k) ↔ (k', v) ∈ l ∧ k' ≠ k := by
  constructor
  · intro hmem
    have hold : (k', v) ∈ l := List.mem_of_mem_eraseP hmem
    refine ⟨hold, ?_⟩
    rintro rfl
    obtain ⟨xs, ys, -, herase, -, hrest⟩ := split_at hnodup hold
    rw [herase] at hmem
    exact hrest (k', v) hmem rfl
  · rintro ⟨hold, hne⟩
    exact (List.mem_eraseP_of_neg (by simpa using hne)).mpr hold

end KeyedEntries
