import Nginz.Lib.Framing

/-! A stream of bodies, each behind a head that says what it is and how long it is. -/
namespace Announced
open Framing
variable {κ β : Type*}

/-- How heads are written and read. A head that is `ok` is read back at the front of any
text, and something is read off whenever a head is. -/
structure Heads (κ β : Type*) where
  ok : κ → Prop
  head : κ → ℕ → List β
  parse : List β → Option (κ × ℕ × List β)
  parse_head : ∀ {k}, ok k → ∀ n rest, parse (head k n ++ rest) = some (k, n, rest)
  parse_shorter : ∀ {s k n rest}, parse s = some (k, n, rest) → rest.length < s.length

namespace Heads
variable (H : Heads κ β)

/-- A body behind its head. -/
def frame (f : κ × List β) : List β := H.head f.1 f.2.length ++ f.2

/-- The bodies at the front of a text, and what is left when no complete one follows. -/
def decodeUpTo : ℕ → List β → List (κ × List β) × List β
  | 0, s => ([], s)
  | fuel + 1, s =>
    match H.parse s with
    | none => ([], s)
    | some (k, n, rest) =>
      if rest.length < n then ([], s)
      else
        let r := decodeUpTo fuel (rest.drop n)
        ((k, rest.take n) :: r.1, r.2)

def decode (s : List β) : List (κ × List β) × List β := H.decodeUpTo s.length s

theorem decodeUpTo_encode {fs : List (κ × List β)} (hfs : ∀ f ∈ fs, H.ok f.1) {tail : List β}
    (htail : H.parse tail = none) {fuel : ℕ} (hfuel : fs.length ≤ fuel) :
    H.decodeUpTo fuel (encode H.frame fs ++ tail) = (fs, tail) := by
  induction fs generalizing fuel with
  | nil =>
    cases fuel with
    | zero => rfl
    | succ fuel => simp [decodeUpTo, htail]
  | cons f fs ih =>
    obtain ⟨fuel, rfl⟩ := Nat.exists_eq_add_of_le' (Nat.one_le_of_lt hfuel)
    have hf := H.parse_head (hfs f List.mem_cons_self) f.2.length
      (f.2 ++ (encode H.frame fs ++ tail))
    have hrest := ih (fun g hg => hfs g (List.mem_cons_of_mem f hg)) (Nat.le_of_succ_le_succ hfuel)
    have hs : encode H.frame (f :: fs) ++ tail =
        H.head f.1 f.2.length ++ (f.2 ++ (encode H.frame fs ++ tail)) := by
      rw [encode_cons, frame, List.append_assoc, List.append_assoc]
    rw [hs, decodeUpTo, hf]
    simp only [List.length_append, List.drop_left, List.take_left, hrest]
    rw [if_neg (by omega)]

theorem frame_ne_nil {f : κ × List β} (hf : H.ok f.1) : H.frame f ≠ [] := by
  intro hnil
  have hparse := H.parse_head hf f.2.length f.2
  have hlen := H.parse_shorter hparse
  have hframe : (H.head f.1 f.2.length ++ f.2).length = 0 := by
    rw [← frame, hnil, List.length_nil]
  omega

/-- The bodies of a stream are read back, whatever they are made of, up to a rest that has
no head. -/
theorem decode_encode {fs : List (κ × List β)} (hfs : ∀ f ∈ fs, H.ok f.1) {tail : List β}
    (htail : H.parse tail = none) : H.decode (encode H.frame fs ++ tail) = (fs, tail) := by
  refine H.decodeUpTo_encode hfs htail ?_
  induction fs with
  | nil => exact Nat.zero_le _
  | cons f fs ih =>
    have hrest := ih fun g hg => hfs g (List.mem_cons_of_mem f hg)
    have hpos := List.length_pos_of_ne_nil (H.frame_ne_nil (hfs f List.mem_cons_self))
    rw [encode_cons, List.append_assoc, List.length_append, List.length_cons]
    omega

end Heads
end Announced
