import Mathlib.Tactic

/-! A message as the concatenation of the frames of its fields, and the offsets
at which the frames start. -/
namespace Framing
variable {φ β : Type*} (frame : φ → List β)

/-- All frames in order. -/
def encode (fs : List φ) : List β := fs.flatMap frame

/-- Where the frame of field `k` starts. -/
def offset (fs : List φ) (k : ℕ) : ℕ := (encode frame (fs.take k)).length

@[simp] theorem encode_nil : encode frame [] = [] := rfl

@[simp] theorem encode_cons (f : φ) (fs : List φ) :
    encode frame (f :: fs) = frame f ++ encode frame fs := rfl

theorem encode_append (fs gs : List φ) :
    encode frame (fs ++ gs) = encode frame fs ++ encode frame gs := by
  simp [encode]

theorem offset_length (fs : List φ) : offset frame fs fs.length = (encode frame fs).length := by
  simp [offset]

theorem offset_succ {fs : List φ} {k : ℕ} {f : φ} (h : fs[k]? = some f) :
    offset frame fs (k + 1) = offset frame fs k + (frame f).length := by
  simp [offset, List.take_add_one, h, encode_append]

/-- From the offset of a field on, the message is that field's frame and the later ones. -/
theorem drop_offset {fs : List φ} {k : ℕ} {f : φ} (h : fs[k]? = some f) :
    (encode frame fs).drop (offset frame fs k) = frame f ++ encode frame (fs.drop (k + 1)) := by
  obtain ⟨hk, hf⟩ := List.getElem?_eq_some_iff.mp h
  have hs : fs = fs.take k ++ f :: fs.drop (k + 1) := by
    rw [← hf, ← List.drop_eq_getElem_cons hk, List.take_append_drop]
  have he : encode frame fs =
      encode frame (fs.take k) ++ (frame f ++ encode frame (fs.drop (k + 1))) := by
    conv_lhs => rw [hs, encode_append, encode_cons]
  rw [he, offset, List.drop_left]

theorem offset_le (fs : List φ) (k : ℕ) : offset frame fs k ≤ (encode frame fs).length := by
  have he : encode frame fs = encode frame (fs.take k) ++ encode frame (fs.drop k) := by
    rw [← encode_append, List.take_append_drop]
  rw [he, List.length_append, offset]
  exact Nat.le_add_right _ _

/-- Frames that can be told apart at the front of any text can be told apart in a message. -/
theorem encode_unique (ok : φ → Prop)
    (hfront : ∀ f g xs ys, ok f → ok g → frame f ++ xs = frame g ++ ys → frame f = frame g)
    (hne : ∀ f, frame f ≠ []) {fs gs : List φ} (hfs : ∀ f ∈ fs, ok f) (hgs : ∀ g ∈ gs, ok g)
    (h : encode frame fs = encode frame gs) : fs.map frame = gs.map frame := by
  induction fs generalizing gs with
  | nil =>
    cases gs with
    | nil => rfl
    | cons g gs =>
      rw [encode_nil, encode_cons] at h
      exact absurd (List.append_eq_nil_iff.mp h.symm).1 (hne g)
  | cons f fs ih =>
    cases gs with
    | nil =>
      rw [encode_nil, encode_cons] at h
      exact absurd (List.append_eq_nil_iff.mp h).1 (hne f)
    | cons g gs =>
      rw [encode_cons, encode_cons] at h
      have hframe := hfront f g _ _ (hfs f List.mem_cons_self) (hgs g List.mem_cons_self) h
      rw [hframe] at h
      have hrest := ih (fun x hx => hfs x (List.mem_cons_of_mem f hx))
        (fun x hx => hgs x (List.mem_cons_of_mem g hx)) (List.append_cancel_left h)
      rw [List.map_cons, List.map_cons, hframe, hrest]

end Framing
