import Nginz.BinaryCoder.Packing

/-! The unpack loop on a buffer that starts with a message: which field a call reaches,
and which bytes it reads. -/
namespace Nginz
open BigEndian Framing

/-- Where the frame of field `k` starts in the message. -/
def fieldOffset (fs : List Field) (k : ℕ) : ℕ := 2 + offset Field.frame fs k

/-- The part of the message that is the body of a field. -/
def fieldWindow (fs : List Field) (k : ℕ) (f : Field) : Window :=
  ⟨fieldOffset fs k + 3, f.body.length⟩

/-- The storage starts with the message of the fields, and the text covers at least
that; what follows the message is arbitrary. -/
structure StartsWith (buffer : AroopTxt) (fs : List Field) : Prop where
  mem : ∃ stale, buffer.mem = message fs ++ stale
  covers : packedLength fs ≤ buffer.len
  short : buffer.len < 65536

theorem IsMessage.startsWith {b : AroopTxt} {fs : List Field} (h : IsMessage b fs)
    (hc : b.capacity < 65536) : StartsWith b fs where
  mem := ⟨_, h.mem_eq⟩
  covers := h.len.ge
  short := lt_of_le_of_lt h.wf hc

theorem rawAt_of_drop {b : AroopTxt} {p : ℕ} {l : Bytes} (h : b.mem.drop p = l) (i : ℕ) :
    b.rawAt (p + i) = l.getD i 0 := by
  subst h
  simp [AroopTxt.rawAt, List.getD_eq_getElem?_getD]

theorem fieldOffset_succ {fs : List Field} {k : ℕ} {f : Field} (h : fs[k]? = some f) :
    fieldOffset fs (k + 1) = fieldOffset fs k + f.body.length + 3 := by
  simp only [fieldOffset, offset_succ Field.frame h, Field.frame_length]
  omega

theorem fieldOffset_length (fs : List Field) : fieldOffset fs fs.length = packedLength fs := by
  rw [fieldOffset, offset_length, packedLength_eq]

theorem fieldOffset_le (fs : List Field) (k : ℕ) : fieldOffset fs k ≤ packedLength fs := by
  rw [fieldOffset, packedLength_eq]
  exact Nat.add_le_add_left (offset_le _ _ _) _

theorem fieldOffset_mono (fs : List Field) {i j : ℕ} (h : i ≤ j) :
    fieldOffset fs i ≤ fieldOffset fs j := by
  have hsub := offset_le Field.frame (fs.take j) i
  simp only [offset, List.take_take] at hsub
  rw [Nat.min_eq_left h] at hsub
  simpa only [fieldOffset, offset] using Nat.add_le_add_left hsub 2

/-- The body of a field ends inside the message. -/
theorem fieldWindow_inside {fs : List Field} {k : ℕ} {f : Field} (h : fs[k]? = some f) :
    (fieldWindow fs k f).start + (fieldWindow fs k f).len ≤ packedLength fs := by
  have := fieldOffset_le fs (k + 1)
  rw [fieldOffset_succ h] at this
  simp only [fieldWindow]
  omega

theorem forall_headerIndices (p : ℕ) {n : ℕ} (h : p + 2 < n) : ∀ t ∈ headerIndices p, t < n := by
  simp only [headerIndices, List.forall_mem_cons, List.mem_nil_iff, false_implies, forall_const,
    and_true]
  omega

namespace StartsWith
variable {b : AroopTxt} {fs : List Field}

theorem drop_field (h : StartsWith b fs) {k : ℕ} {f : Field} (hk : fs[k]? = some f) :
    ∃ rest, b.mem.drop (fieldOffset fs k) = f.frame ++ rest := by
  obtain ⟨stale, hm⟩ := h.mem
  refine ⟨encode Field.frame (fs.drop (k + 1)) ++ stale, ?_⟩
  have hle : offset Field.frame fs k ≤ (encode Field.frame fs).length := offset_le _ _ _
  have h2 : (digits 2 (packedLength fs)).length = 2 := digits_length 2 _
  rw [hm, fieldOffset, ← List.drop_drop, message, List.append_assoc, List.drop_left' h2,
    List.drop_append_of_le_length hle, drop_offset _ hk, List.append_assoc]

theorem headerLength_eq (h : StartsWith b fs) : headerLength b = packedLength fs := by
  obtain ⟨stale, hm⟩ := h.mem
  have hl := lt_of_le_of_lt h.covers h.short
  have h0 : b.rawAt 0 = digit (packedLength fs) 1 := by
    simp [AroopTxt.rawAt, hm, message, digits]
  have h1 : b.rawAt 1 = digit (packedLength fs) 0 := by
    simp [AroopTxt.rawAt, hm, message, digits]
  rw [headerLength, h0, h1, join_digits hl]

theorem getHeader (h : StartsWith b fs) {k : ℕ} {f : Field} (hk : fs[k]? = some f) :
    binaryGetHeader b (fieldOffset fs k) = (f.contentType, f.body.length) := by
  obtain ⟨rest, hd⟩ := h.drop_field hk
  have hin := fieldWindow_inside hk
  have hl := lt_of_le_of_lt h.covers h.short
  simp only [fieldWindow] at hin
  have h0 := rawAt_of_drop hd 0
  have h1 := rawAt_of_drop hd 1
  have h2 := rawAt_of_drop hd 2
  simp only [Field.frame, digits, List.cons_append, List.getD_cons_zero, List.getD_cons_succ,
    add_zero] at h0 h1 h2
  rw [binaryGetHeader, h0, h1, h2, and_mask, join_digits (by omega)]

/-- The text over the body of a field. -/
theorem text_field (h : StartsWith b fs) {k : ℕ} {f : Field} (hk : fs[k]? = some f) :
    ∃ rest, (fieldWindow fs k f).text b = ⟨f.body ++ rest, f.body.length⟩ := by
  obtain ⟨rest, hd⟩ := h.drop_field hk
  refine ⟨rest, ?_⟩
  have h3 : b.mem.drop (fieldOffset fs k + 3) = f.body ++ rest := by
    rw [← List.drop_drop, hd]
    simp [Field.frame, digits]
  simp only [Window.text, fieldWindow, h3]

variable {e : UInt8}

/-- Skipping `k` fields from field `i` on reaches field `i + k`, as long as the cursor
does not wrap before its header. -/
theorem loop_reaches (h : StartsWith b fs) {f : Field} {k i : ℕ} (hf : fs[i + k]? = some f)
    (hs : fieldOffset fs (i + k) ≤ 255) :
    let u := binaryUnpackLoop b (packedLength fs) e k (fieldOffset fs i)
    (u.status = if f.contentType = e then .ok else .aborted) ∧
      (u.window = if f.contentType = e then ⟨(fieldOffset fs (i + k) + 3) % 256, f.body.length⟩
        else .none) ∧
      ∀ t ∈ u.touched, t < fieldOffset fs (i + k) + 3 := by
  induction k generalizing i with
  | zero =>
    rw [add_zero] at hf hs
    have hin := fieldWindow_inside hf
    simp only [fieldWindow] at hin
    have hno : ¬ fieldOffset fs i + f.body.length > packedLength fs := by omega
    simp only [binaryUnpackLoop, h.getHeader hf, hno, ↓reduceIte, add_zero]
    by_cases he : f.contentType = e
    · simp only [he, ne_eq, not_true_eq_false, ↓reduceIte, true_and]
      exact ⟨rfl, forall_headerIndices _ (by omega)⟩
    · simp only [he, ne_eq, not_false_eq_true, ↓reduceIte, true_and]
      exact forall_headerIndices _ (by omega)
  | succ k ih =>
    have hi : i < fs.length := by
      have := (List.getElem?_eq_some_iff.mp hf).1
      omega
    have hg : fs[i]? = some fs[i] := List.getElem?_eq_getElem hi
    have hin := fieldWindow_inside hg
    simp only [fieldWindow] at hin
    have hno : ¬ fieldOffset fs i + (fs[i]).body.length > packedLength fs := by omega
    have hf' : fs[i + 1 + k]? = some f := by rwa [add_right_comm, add_assoc]
    have hmono : fieldOffset fs (i + 1) ≤ fieldOffset fs (i + (k + 1)) :=
      fieldOffset_mono fs (by omega)
    have hnext : (fieldOffset fs i + (fs[i]).body.length + binaryCoderHeaderLen) % 256 =
        fieldOffset fs (i + 1) := by
      rw [fieldOffset_succ hg] at hmono ⊢
      rw [binaryCoderHeaderLen, Nat.mod_eq_of_lt (by omega)]
    have hlt : fieldOffset fs (i + 1) < packedLength fs := by
      have hlast := fieldWindow_inside hf
      simp only [fieldWindow] at hlast
      omega
    have hidx : i + 1 + k = i + (k + 1) := by omega
    obtain ⟨hst, hwin, htouch⟩ := ih hf' (by rwa [hidx])
    rw [hidx] at hwin htouch
    simp only [binaryUnpackLoop, h.getHeader hg, hno, ↓reduceIte, hnext, hlt,
      List.forall_mem_append]
    refine ⟨hst, hwin, forall_headerIndices _ ?_, htouch⟩
    rw [fieldOffset_succ hg] at hmono
    omega

/-- Skipping all the fields that are left ends the loop with an empty text. -/
theorem loop_past_end (h : StartsWith b fs) (hs : packedLength fs ≤ 255) {k i : ℕ}
    (hi : i < fs.length) (hk : fs.length ≤ i + k) :
    let u := binaryUnpackLoop b (packedLength fs) e k (fieldOffset fs i)
    u.status = .ok ∧ u.window = .none ∧ ∀ t ∈ u.touched, t < packedLength fs := by
  induction k generalizing i with
  | zero => omega
  | succ k ih =>
    have hg : fs[i]? = some fs[i] := List.getElem?_eq_getElem hi
    have hin := fieldWindow_inside hg
    simp only [fieldWindow] at hin
    have hno : ¬ fieldOffset fs i + (fs[i]).body.length > packedLength fs := by omega
    have hnext : (fieldOffset fs i + (fs[i]).body.length + binaryCoderHeaderLen) % 256 =
        fieldOffset fs (i + 1) := by
      rw [fieldOffset_succ hg, binaryCoderHeaderLen, Nat.mod_eq_of_lt (by omega)]
    have hhead : ∀ t ∈ headerIndices (fieldOffset fs i), t < packedLength fs :=
      forall_headerIndices _ (by omega)
    simp only [binaryUnpackLoop, h.getHeader hg, hno, ↓reduceIte, hnext]
    by_cases hlt : fieldOffset fs (i + 1) < packedLength fs
    · have hi' : i + 1 < fs.length := by
        by_contra hge
        have : i + 1 = fs.length := by omega
        rw [this, fieldOffset_length] at hlt
        exact lt_irrefl _ hlt
      obtain ⟨hst, hwin, htouch⟩ := ih hi' (by omega)
      simp only [hlt, ↓reduceIte, List.forall_mem_append]
      exact ⟨hst, hwin, hhead, htouch⟩
    · simp only [hlt, ↓reduceIte, true_and]
      exact hhead

theorem helper_eq_loop (h : StartsWith b fs) (hne : fs ≠ []) (skip : ℕ) :
    binaryUnpackStringHelper b skip e =
      let rest := binaryUnpackLoop b (packedLength fs) e skip (fieldOffset fs 0)
      { rest with touched := [0, 1] ++ rest.touched } := by
  obtain ⟨f, gs, rfl⟩ := List.exists_cons_of_ne_nil hne
  have hlen := h.covers
  have hshort := h.short
  have hp : 5 ≤ packedLength (f :: gs) := by
    simp only [packedLength, List.map_cons, List.sum_cons]
    omega
  rw [binaryUnpackStringHelper]
  simp only [binaryCoderHeaderLen, h.headerLength_eq]
  rw [Nat.mod_eq_of_lt hshort, if_neg (by omega), if_neg (by omega), if_neg (by omega)]
  rfl

/-- The call for field `k` ends at that field and reads headers only, if the content
type is the expected one and the cursor does not wrap before the header. -/
theorem unpack_reaches (h : StartsWith b fs) {k : ℕ} {f : Field} (hk : fs[k]? = some f)
    (hs : fieldOffset fs k ≤ 255) :
    let u := binaryUnpackStringHelper b k f.contentType
    u.status = .ok ∧ u.window = ⟨(fieldOffset fs k + 3) % 256, f.body.length⟩ ∧
      ∀ t ∈ u.touched, t < fieldOffset fs k + 3 := by
  have hne : fs ≠ [] := by rintro rfl; simp at hk
  have hz : 0 + k = k := zero_add k
  obtain ⟨hst, hwin, htouch⟩ := h.loop_reaches (e := f.contentType) (i := 0) (k := k)
    (by rwa [hz]) (by rwa [hz])
  simp only [h.helper_eq_loop hne, List.forall_mem_append]
  rw [if_pos rfl] at hst hwin
  rw [hz] at hwin htouch
  refine ⟨hst, hwin, ?_, htouch⟩
  simp only [List.forall_mem_cons, List.mem_nil_iff, false_implies, forall_const, and_true]
  omega

/-- If the cursor does not wrap before the body either, the call finds the field. -/
theorem unpack_field (h : StartsWith b fs) {k : ℕ} {f : Field} (hk : fs[k]? = some f)
    (hs : fieldOffset fs k + 3 ≤ 255) :
    let u := binaryUnpackStringHelper b k f.contentType
    u.status = .ok ∧ u.window = fieldWindow fs k f ∧ ∀ t ∈ u.touched, t < fieldOffset fs k + 3 := by
  obtain ⟨hst, hwin, htouch⟩ := h.unpack_reaches hk (by omega)
  rw [Nat.mod_eq_of_lt (by omega)] at hwin
  exact ⟨hst, hwin, htouch⟩

theorem fieldOffset_short (hs : packedLength fs ≤ 255) {k : ℕ} {f : Field} (hk : fs[k]? = some f) :
    fieldOffset fs k + 3 ≤ 255 := by
  have hin := fieldWindow_inside hk
  simp only [fieldWindow] at hin
  omega

/-- A call past the last field succeeds with an empty text. -/
theorem unpack_past_end (h : StartsWith b fs) (hs : packedLength fs ≤ 255) (hne : fs ≠ []) {k : ℕ}
    (hk : fs.length ≤ k) (e : UInt8) :
    let u := binaryUnpackStringHelper b k e
    u.status = .ok ∧ u.window = .none ∧ ∀ t ∈ u.touched, t < packedLength fs := by
  have hpos : 0 < fs.length := List.length_pos_iff.mpr hne
  obtain ⟨hst, hwin, htouch⟩ := h.loop_past_end (e := e) hs hpos (k := k) (by omega)
  have h2 : 2 ≤ packedLength fs := by rw [packedLength]; omega
  simp only [h.helper_eq_loop hne, List.forall_mem_append]
  refine ⟨hst, hwin, ?_, htouch⟩
  simp only [List.forall_mem_cons, List.mem_nil_iff, false_implies, forall_const, and_true]
  omega

/-- If the cursor does not wrap before the body, a text is read as it was packed. -/
theorem unpackString_reached (h : StartsWith b fs) {k : ℕ} {s : Bytes}
    (hk : fs[k]? = some (.str s)) (hs : fieldOffset fs k + 3 ≤ 255) :
    (binaryUnpackString b k).status = .ok ∧ ((binaryUnpackString b k).text b).content = s := by
  obtain ⟨hst, hwin, _⟩ := h.unpack_field hk hs
  obtain ⟨rest, ht⟩ := h.text_field hk
  refine ⟨hst, ?_⟩
  rw [Unpacked.text, binaryUnpackString]
  simp only [Field.contentType] at hwin
  rw [hwin, ht]
  simp [AroopTxt.content, Field.body]

theorem unpackString_field (h : StartsWith b fs) (hs : packedLength fs ≤ 255) {k : ℕ} {s : Bytes}
    (hk : fs[k]? = some (.str s)) :
    (binaryUnpackString b k).status = .ok ∧ ((binaryUnpackString b k).text b).content = s :=
  h.unpackString_reached hk (fieldOffset_short hs hk)

end StartsWith

theorem headerIndices_touched (b : AroopTxt) (blen : ℕ) (e : UInt8) (k p : ℕ) :
    ∀ t ∈ headerIndices p, t ∈ (binaryUnpackLoop b blen e k p).touched := by
  intro t ht
  cases k <;> simp only [binaryUnpackLoop] <;> split_ifs <;> simp [ht]

theorem getHeader_congr {b c : AroopTxt} {p : ℕ}
    (h : ∀ t ∈ headerIndices p, b.rawAt t = c.rawAt t) :
    binaryGetHeader c p = binaryGetHeader b p := by
  simp only [headerIndices, List.forall_mem_cons, List.mem_nil_iff, false_implies, forall_const,
    and_true] at h
  simp only [binaryGetHeader, h]

/-- Equal bytes at the indices the loop reads give the same run of the loop. -/
theorem loop_congr {b c : AroopTxt} {blen : ℕ} {e : UInt8} {k p : ℕ}
    (h : ∀ t ∈ (binaryUnpackLoop b blen e k p).touched, b.rawAt t = c.rawAt t) :
    binaryUnpackLoop c blen e k p = binaryUnpackLoop b blen e k p := by
  have hh : binaryGetHeader c p = binaryGetHeader b p :=
    getHeader_congr fun t ht => h t (headerIndices_touched b blen e k p t ht)
  induction k generalizing p with
  | zero => simp only [binaryUnpackLoop, hh]
  | succ k ih =>
    simp only [binaryUnpackLoop, hh] at h ⊢
    by_cases hlen : p + (binaryGetHeader b p).2 > blen
    · simp only [hlen, ↓reduceIte]
    · by_cases hlt : (p + (binaryGetHeader b p).2 + binaryCoderHeaderLen) % 256 < blen
      · simp only [hlen, hlt, ↓reduceIte, List.forall_mem_append] at h ⊢
        rw [ih h.2 (getHeader_congr fun t ht => h.2 t (headerIndices_touched b blen e k _ t ht))]
      · simp only [hlen, hlt, ↓reduceIte]

/-- Two buffers of one length that agree on the base header and on what a call reads
give the same call. -/
theorem unpack_congr {b c : AroopTxt} (hl : b.len = c.len) (h0 : b.rawAt 0 = c.rawAt 0)
    (h1 : b.rawAt 1 = c.rawAt 1) {k : ℕ} {e : UInt8}
    (h : ∀ t ∈ (binaryUnpackStringHelper b k e).touched, b.rawAt t = c.rawAt t) :
    binaryUnpackStringHelper c k e = binaryUnpackStringHelper b k e := by
  have hh : headerLength c = headerLength b := by simp only [headerLength, h0, h1]
  simp only [binaryUnpackStringHelper, ← hl, hh] at h ⊢
  split_ifs at h ⊢
  · rfl
  · rfl
  · rfl
  · simp only [List.forall_mem_append] at h
    rw [loop_congr h.2]

theorem intOfBits_of_lt {n : ℕ} (h : n < 2 ^ 31) : intOfBits n = (n : ℤ) := by
  have hm : (n : ℤ) % (4294967296 : ℤ) = n := Int.emod_eq_of_lt (by omega) (by omega)
  have hb : intOfBits n = Int.bmod n 4294967296 := by unfold intOfBits; norm_num
  rw [hb, Int.bmod_def]
  omega

theorem intOfText_two (a b : UInt8) (rest : Bytes) :
    intOfText ⟨a :: b :: rest, 2⟩ = intOfBits (a.toNat * 256 + b.toNat) := by
  simp [intOfText, AroopTxt.rawAt, and_mask, shift_or_eq]

theorem intOfText_four (a b c d : UInt8) (rest : Bytes) :
    intOfText ⟨a :: b :: c :: d :: rest, 4⟩ =
      intOfBits (((a.toNat * 256 + b.toNat) * 256 + c.toNat) * 256 + d.toNat) := by
  simp [intOfText, AroopTxt.rawAt, and_mask, shift_or_eq]

/-- The branches of `binary_unpack_int` on the two and the four byte form. -/
theorem intOfText_intbuf {v : ℤ} (h0 : 0 ≤ v) (h1 : v < 2 ^ 31) (rest : Bytes) :
    intOfText ⟨intbuf v ++ rest, (intbuf v).length⟩ = v := by
  have hv : (v.toNat : ℤ) = v := Int.toNat_of_nonneg h0
  by_cases hw : 0xFFFF ≤ v
  · rw [intbuf_wide hw h1, digits_length]
    simp only [digits, List.cons_append, List.nil_append, intOfText_four, digit_toNat]
    rw [intOfBits_of_lt (by omega)]
    omega
  · rw [intbuf_narrow h0 (by omega), digits_length]
    simp only [digits, List.cons_append, List.nil_append, intOfText_two, digit_toNat]
    rw [intOfBits_of_lt (by omega)]
    omega

/-- What the call for an `int` field reads, if the cursor does not wrap before its body. -/
theorem StartsWith.unpackInt_reads {b : AroopTxt} {fs : List Field} (h : StartsWith b fs) {k : ℕ}
    {v : ℤ} (hk : fs[k]? = some (.int v)) (hs : fieldOffset fs k + 3 ≤ 255) :
    ∃ rest, ∀ old, binaryUnpackInt b k old =
      (.ok, intOfText ⟨intbuf v ++ rest, (intbuf v).length⟩) := by
  obtain ⟨hst, hwin, _⟩ := h.unpack_field hk hs
  obtain ⟨rest, ht⟩ := h.text_field hk
  refine ⟨rest, fun old => ?_⟩
  simp only [Field.contentType] at hst hwin
  simp only [binaryUnpackInt, hst, Unpacked.text, hwin, ht, Field.body]

theorem StartsWith.unpackInt_field {b : AroopTxt} {fs : List Field} (h : StartsWith b fs)
    (hs : packedLength fs ≤ 255) {k : ℕ} {v : ℤ} (hk : fs[k]? = some (.int v)) (h0 : 0 ≤ v)
    (h1 : v < 2 ^ 31) (old : ℤ) : binaryUnpackInt b k old = (.ok, v) := by
  obtain ⟨rest, hread⟩ := h.unpackInt_reads hk (fieldOffset_short hs hk)
  rw [hread, intOfText_intbuf h0 h1]

theorem StartsWith.unpackedInt_field {b : AroopTxt} {fs : List Field} (h : StartsWith b fs)
    (hs : packedLength fs ≤ 255) {k : ℕ} {v : ℤ} (hk : fs[k]? = some (.int v)) (h0 : 0 ≤ v)
    (h1 : v < 2 ^ 31) : unpackedInt b k = some v := by
  unfold unpackedInt
  rw [h.unpackInt_field hs hk h0 h1]
  rfl

/-- An `int` field is read without a failed assertion, if the cursor does not wrap before its
body. -/
theorem StartsWith.unpackedInt_reached {b : AroopTxt} {fs : List Field} (h : StartsWith b fs)
    {k : ℕ} {v : ℤ} (hk : fs[k]? = some (.int v)) (hs : fieldOffset fs k + 3 ≤ 255) :
    ∃ w, unpackedInt b k = some w := by
  obtain ⟨hst, _⟩ := h.unpack_field hk hs
  simp only [Field.contentType] at hst
  unfold unpackedInt binaryUnpackInt
  simp [hst]

/-- Any `int` field is read without a failed assertion. -/
theorem StartsWith.unpackedInt_isSome {b : AroopTxt} {fs : List Field} (h : StartsWith b fs)
    (hs : packedLength fs ≤ 255) {k : ℕ} {v : ℤ} (hk : fs[k]? = some (.int v)) :
    ∃ w, unpackedInt b k = some w := h.unpackedInt_reached hk (fieldOffset_short hs hk)

theorem StartsWith.unpackedString_reached {b : AroopTxt} {fs : List Field} (h : StartsWith b fs)
    {k : ℕ} {s : Bytes} (hk : fs[k]? = some (.str s)) (hs : fieldOffset fs k + 3 ≤ 255) :
    unpackedString b k = some s := by
  obtain ⟨hst, htext⟩ := h.unpackString_reached hk hs
  unfold unpackedString
  simp [hst, htext]

theorem StartsWith.unpackedString_field {b : AroopTxt} {fs : List Field} (h : StartsWith b fs)
    (hs : packedLength fs ≤ 255) {k : ℕ} {s : Bytes} (hk : fs[k]? = some (.str s)) :
    unpackedString b k = some s := h.unpackedString_reached hk (fieldOffset_short hs hk)

/-- Past the last field an empty text is left. -/
theorem StartsWith.unpackedString_past_end {b : AroopTxt} {fs : List Field} (h : StartsWith b fs)
    (hs : packedLength fs ≤ 255) (hne : fs ≠ []) {k : ℕ} (hk : fs.length ≤ k) :
    unpackedString b k = some [] := by
  obtain ⟨hst, hwin, _⟩ := h.unpack_past_end hs hne hk binaryContentString
  unfold unpackedString binaryUnpackString Unpacked.text
  simp only [hst, hwin]
  rfl

end Nginz
