import Mathlib.Tactic

/-! Byte strings as the server uses them: the storage a text value points into and
the length it announces. The text library itself is not part of the repository;
what its calls leave open is collected in `TxtLib`. -/
namespace Nginz

abbrev Bytes := List UInt8

/-- The bytes of a string literal of the source. -/
def lit (s : String) : Bytes := s.toList.map fun c => UInt8.ofNat c.toNat

/-- `aroop_txt_t`: the storage from the first byte of the text on, and its length. -/
structure AroopTxt where
  mem : Bytes
  len : ℕ
  deriving DecidableEq, Repr

/-- The open behaviours of the text library: the capacity of a buffer requested with a
number of bytes, what an append leaves in `free` remaining bytes, and what is read at
an index past the end of a text. -/
structure TxtLib where
  room : ℕ → ℕ
  le_room : ∀ n, n ≤ room n
  spill : ℕ → Bytes → Bytes
  spill_fits : ∀ free bs, bs.length ≤ free → spill free bs = bs
  spill_prefix : ∀ free bs, spill free bs <+: bs
  spill_length : ∀ free bs, (spill free bs).length ≤ free
  charPast : AroopTxt → ℕ → UInt8

/-- A library that cuts what does not fit and reads zero past the end. -/
def TxtLib.cutting : TxtLib where
  room n := n + 1
  le_room n := Nat.le_succ n
  spill free bs := bs.take free
  spill_fits _ _ h := List.take_of_length_le h
  spill_prefix _ _ := List.take_prefix _ _
  spill_length _ _ := by simp
  charPast _ _ := 0

/-- Overwrite the storage from index `i` on. -/
def writeAt (mem : Bytes) (i : ℕ) (bs : Bytes) : Bytes :=
  mem.take i ++ bs ++ mem.drop (i + bs.length)

theorem writeAt_length {mem bs : Bytes} {i : ℕ} (h : i + bs.length ≤ mem.length) :
    (writeAt mem i bs).length = mem.length := by
  simp only [writeAt, List.length_append, List.length_take, List.length_drop]
  omega

theorem writeAt_take {mem bs : Bytes} {i : ℕ} (h : i ≤ mem.length) :
    (writeAt mem i bs).take (i + bs.length) = mem.take i ++ bs := by
  have hl : (mem.take i ++ bs).length = i + bs.length := by simp [h]
  rw [writeAt, ← hl, List.take_left]

theorem writeAt_drop {mem bs : Bytes} {i n : ℕ} (h : i ≤ mem.length) (hn : i + bs.length ≤ n) :
    (writeAt mem i bs).drop n = mem.drop n := by
  have hl : (mem.take i ++ bs).length = i + bs.length := by simp [h]
  obtain ⟨m, rfl⟩ := Nat.exists_eq_add_of_le hn
  unfold writeAt
  rw [← List.drop_drop, ← hl, List.drop_left, List.drop_drop, hl]

namespace AroopTxt

/-- The bytes of the text. -/
def content (t : AroopTxt) : Bytes := t.mem.take t.len

def capacity (t : AroopTxt) : ℕ := t.mem.length

/-- The announced length stays inside the storage. -/
def WellFormed (t : AroopTxt) : Prop := t.len ≤ t.capacity

/-- `aroop_txt_destroy`, and the value `{}` of a declaration. -/
def empty : AroopTxt := ⟨[], 0⟩

/-- A fresh buffer of the given capacity. -/
def buffer (cap : ℕ) : AroopTxt := ⟨List.replicate cap 0, 0⟩

/-- `aroop_txt_embeded_stackbuffer` and `aroop_txt_embeded_buffer`. -/
def stackbuffer (L : TxtLib) (n : ℕ) : AroopTxt := buffer (L.room n)

/-- A text over exactly the given bytes. -/
def ofBytes (bs : Bytes) : AroopTxt := ⟨bs, bs.length⟩

def isEmpty (t : AroopTxt) : Bool := t.len == 0

def setLength (t : AroopTxt) (n : ℕ) : AroopTxt := { t with len := n }

/-- The byte of the storage at index `i`, wherever the text ends. -/
def rawAt (t : AroopTxt) (i : ℕ) : UInt8 := t.mem.getD i 0

def charAt (L : TxtLib) (t : AroopTxt) (i : ℕ) : UInt8 :=
  if i < t.len then t.rawAt i else L.charPast t i

def setCharAt (t : AroopTxt) (i : ℕ) (c : UInt8) : AroopTxt := { t with mem := t.mem.set i c }

def concat (L : TxtLib) (t : AroopTxt) (bs : Bytes) : AroopTxt :=
  let added := L.spill (t.capacity - t.len) bs
  ⟨writeAt t.mem t.len added, t.len + added.length⟩

def concatChar (L : TxtLib) (t : AroopTxt) (c : UInt8) : AroopTxt := t.concat L [c]

@[simp] theorem empty_len : empty.len = 0 := rfl
@[simp] theorem content_empty : empty.content = [] := rfl
@[simp] theorem content_ofBytes (bs : Bytes) : (ofBytes bs).content = bs := by
  simp [content, ofBytes]
@[simp] theorem buffer_capacity (n : ℕ) : (buffer n).capacity = n := by simp [buffer, capacity]
@[simp] theorem buffer_len (n : ℕ) : (buffer n).len = 0 := rfl
@[simp] theorem buffer_content (n : ℕ) : (buffer n).content = [] := rfl
@[simp] theorem setLength_len (t : AroopTxt) (n : ℕ) : (t.setLength n).len = n := rfl
@[simp] theorem setLength_mem (t : AroopTxt) (n : ℕ) : (t.setLength n).mem = t.mem := rfl
@[simp] theorem setLength_capacity (t : AroopTxt) (n : ℕ) : (t.setLength n).capacity = t.capacity :=
  rfl
@[simp] theorem setCharAt_len (t : AroopTxt) (i : ℕ) (c : UInt8) : (t.setCharAt i c).len = t.len :=
  rfl
@[simp] theorem setCharAt_capacity (t : AroopTxt) (i : ℕ) (c : UInt8) :
    (t.setCharAt i c).capacity = t.capacity := by simp [setCharAt, capacity]

theorem content_length {t : AroopTxt} (h : t.WellFormed) : t.content.length = t.len := by
  simpa [content, WellFormed, capacity] using h

theorem ofBytes_wellFormed (bs : Bytes) : (ofBytes bs).WellFormed := le_rfl

theorem buffer_wellFormed (n : ℕ) : (buffer n).WellFormed := Nat.zero_le _

section Fits
variable (L : TxtLib) {t : AroopTxt} {x : Bytes}

theorem concat_spill_le (t : AroopTxt) (x : Bytes) :
    (L.spill (t.capacity - t.len) x).length ≤ t.capacity - t.len := L.spill_length _ _

/-- An append never leaves the storage. -/
theorem concat_wellFormed (h : t.WellFormed) : (t.concat L x).WellFormed := by
  have hs := concat_spill_le L t x
  simp only [WellFormed, capacity] at h hs ⊢
  simp only [concat]
  rw [writeAt_length (by simp only [capacity]; omega)]
  simp only [capacity]
  omega

@[simp] theorem concat_capacity (h : t.WellFormed) : (t.concat L x).capacity = t.capacity := by
  have hs := concat_spill_le L t x
  simp only [WellFormed, capacity] at h hs ⊢
  simp only [concat]
  exact writeAt_length (by simp only [capacity]; omega)

/-- What an append adds to the text. -/
theorem concat_content_spill (h : t.WellFormed) :
    (t.concat L x).content = t.content ++ L.spill (t.capacity - t.len) x := by
  simp only [content, concat]
  exact writeAt_take h

theorem concat_content (h : t.WellFormed) (hf : t.len + x.length ≤ t.capacity) :
    (t.concat L x).content = t.content ++ x := by
  rw [concat_content_spill L h, L.spill_fits _ _ (by omega)]

theorem concat_len (hf : t.len + x.length ≤ t.capacity) :
    (t.concat L x).len = t.len + x.length := by
  simp only [concat]
  rw [L.spill_fits _ _ (by omega)]

theorem concat_len_le : (t.concat L x).len ≤ t.len + x.length :=
  Nat.add_le_add_left (L.spill_prefix _ _).length_le _

/-- Behind what it adds, an append leaves the storage as it was. -/
theorem concat_drop (h : t.WellFormed) {n : ℕ} (hn : t.len + x.length ≤ n) :
    (t.concat L x).mem.drop n = t.mem.drop n := by
  have hle : (L.spill (t.capacity - t.len) x).length ≤ x.length := (L.spill_prefix _ _).length_le
  unfold concat
  exact writeAt_drop h (by omega)

end Fits

theorem setCharAt_drop (t : AroopTxt) (c : UInt8) {i n : ℕ} (h : i < n) :
    (t.setCharAt i c).mem.drop n = t.mem.drop n := by
  unfold setCharAt
  exact List.drop_set_of_lt h

theorem setCharAt_content (t : AroopTxt) (i : ℕ) (c : UInt8) :
    (t.setCharAt i c).content = t.content.set i c := by
  simp [content, setCharAt, List.take_set]

end AroopTxt
end Nginz
