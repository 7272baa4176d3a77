import Mathlib.Tactic

/-! Big-endian digits of a natural number, and the shift-and-mask forms in which
programs compute them. -/
namespace BigEndian

/-- The digit of weight `256 ^ i`. -/
def digit (n i : ℕ) : UInt8 := UInt8.ofNat (n / 256 ^ i)

/-- The last `w` digits, most significant first. -/
def digits : ℕ → ℕ → List UInt8
  | 0, _ => []
  | w + 1, n => digit n w :: digits w n

/-- The number a digit string denotes. -/
def value (bs : List UInt8) : ℕ := bs.foldl (fun acc b => acc * 256 + b.toNat) 0

@[simp] theorem digit_toNat (n i : ℕ) : (digit n i).toNat = n / 256 ^ i % 256 := by
  simp [digit]

@[simp] theorem digits_length (w n : ℕ) : (digits w n).length = w := by
  induction w with
  | zero => rfl
  | succ w ih => simp [digits, ih]

theorem foldl_digits (w n acc : ℕ) :
    (digits w n).foldl (fun acc b => acc * 256 + b.toNat) acc = acc * 256 ^ w + n % 256 ^ w := by
  induction w generalizing acc with
  | zero => simp [digits, Nat.mod_one]
  | succ w ih =>
    simp only [digits, List.foldl_cons, ih, digit_toNat]
    have hd : n % 256 ^ (w + 1) = n % 256 ^ w + 256 ^ w * (n / 256 ^ w % 256) := by
      rw [pow_succ, Nat.mod_mul]
    rw [hd, pow_succ]
    ring

/-- Reading back the digits of a number that fits gives the number. -/
theorem value_digits {w n : ℕ} (h : n < 256 ^ w) : value (digits w n) = n := by
  rw [value, foldl_digits, Nat.zero_mul, zero_add, Nat.mod_eq_of_lt h]

/-- Masking eight bits at a byte boundary and shifting them down selects a digit. -/
theorem mask_shift_eq_digit (n i : ℕ) :
    UInt8.ofNat ((n &&& 0xFF <<< (8 * i)) >>> (8 * i)) = digit n i := by
  have hw : (0xFF <<< (8 * i)) >>> (8 * i) = 2 ^ 8 - 1 := by
    rw [Nat.shiftLeft_shiftRight]; rfl
  rw [Nat.shiftRight_and_distrib, hw, Nat.and_two_pow_sub_one_eq_mod, Nat.shiftRight_eq_div_pow,
    pow_mul]
  apply UInt8.toNat_inj.mp
  simp [digit]

theorem and_mask (b : UInt8) : b.toNat &&& 0xFF = b.toNat := by
  have hb : b.toNat < 2 ^ 8 := b.toNat_lt
  rw [show (0xFF : ℕ) = 2 ^ 8 - 1 from rfl, Nat.and_two_pow_sub_one_eq_mod, Nat.mod_eq_of_lt hb]

/-- Shifting an accumulator by a byte and or-ing in the next one is a digit step. -/
theorem shift_or_eq (acc : ℕ) (b : UInt8) : acc <<< 8 ||| b.toNat = acc * 256 + b.toNat := by
  have hb : b.toNat < 2 ^ 8 := b.toNat_lt
  rw [← Nat.shiftLeft_add_eq_or_of_lt hb, Nat.shiftLeft_eq]

/-- The two bytes of a 16-bit number, shifted together again. -/
theorem join_digits {n : ℕ} (h : n < 65536) :
    (digit n 1).toNat <<< 8 ||| (digit n 0).toNat = n := by
  have hvalue : value (digits 2 n) = n := value_digits (w := 2) (by omega)
  rw [shift_or_eq]
  simpa [value, digits] using hvalue

end BigEndian
