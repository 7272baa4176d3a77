import Mathlib.Tactic

/-! Numbers as texts of decimal digits: printing one, and reading the one at the front of a
text. -/
namespace Decimal

def isDigit (c : UInt8) : Bool := 48 ≤ c && c ≤ 57

/-- The digits of a number, the first one first. -/
def digits (n : ℕ) : List UInt8 :=
  if n = 0 then [48] else (Nat.digits 10 n).reverse.map fun d => UInt8.ofNat (48 + d)

/-- The number that the digits at the front of a text make. -/
def read (s : List UInt8) : ℕ :=
  (s.takeWhile isDigit).foldl (fun acc c => acc * 10 + (c.toNat - 48)) 0

theorem toNat_digit {d : ℕ} (h : d < 10) : (UInt8.ofNat (48 + d)).toNat = 48 + d := by
  rw [UInt8.toNat_ofNat']
  omega

theorem isDigit_digit {d : ℕ} (h : d < 10) : isDigit (UInt8.ofNat (48 + d)) = true := by
  have hnat := toNat_digit h
  unfold isDigit
  rw [Bool.and_eq_true, decide_eq_true_eq, decide_eq_true_eq, UInt8.le_iff_toNat_le,
    UInt8.le_iff_toNat_le, hnat]
  exact ⟨Nat.le_add_right _ _, show 48 + d ≤ 57 by omega⟩

theorem isDigit_of_mem {n : ℕ} {c : UInt8} (h : c ∈ digits n) : isDigit c = true := by
  unfold digits at h
  split at h
  · rw [List.mem_singleton.mp h]
    decide
  · obtain ⟨d, hd, rfl⟩ := List.mem_map.mp h
    exact isDigit_digit (Nat.digits_lt_base (by decide) (List.mem_reverse.mp hd))

theorem digits_length_le {n k : ℕ} (hk : 0 < k) (h : n < 10 ^ k) : (digits n).length ≤ k := by
  unfold digits
  split
  · exact hk
  · rw [List.length_map, List.length_reverse]
    exact (Nat.digits_length_le_iff (by decide) n).mpr h

section Front
variable {rest : List UInt8} (h : ∀ c ∈ rest.head?, isDigit c = false)
include h

theorem takeWhile_digits (n : ℕ) : (digits n ++ rest).takeWhile isDigit = digits n := by
  rw [List.takeWhile_append_of_pos fun c hc => isDigit_of_mem hc]
  cases rest with
  | nil => simp
  | cons c rest => simp [h c (by simp)]

theorem dropWhile_digits (n : ℕ) : (digits n ++ rest).dropWhile isDigit = rest := by
  rw [List.dropWhile_append_of_pos fun c hc => isDigit_of_mem hc]
  cases rest with
  | nil => rfl
  | cons c rest => simp [h c (by simp)]

/-- The number is read back, whatever stands behind its digits. -/
theorem read_digits (n : ℕ) : read (digits n ++ rest) = n := by
  unfold read
  rw [takeWhile_digits h]
  unfold digits
  split
  · exact ‹n = 0›.symm
  · rw [List.foldl_map, List.foldl_reverse]
    have hfold (ds : List ℕ) (hds : ∀ d ∈ ds, d < 10) :
        ds.foldr (fun d acc => acc * 10 + ((UInt8.ofNat (48 + d)).toNat - 48)) 0 =
          Nat.ofDigits 10 ds := by
      induction ds with
      | nil => rfl
      | cons d ds ih =>
        rw [List.foldr_cons, ih fun x hx => hds x (List.mem_cons_of_mem d hx),
          toNat_digit (hds d List.mem_cons_self), Nat.ofDigits_cons]
        omega
    rw [hfold _ fun d hd => Nat.digits_lt_base (by decide) hd, Nat.ofDigits_digits]

end Front
end Decimal
