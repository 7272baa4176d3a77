import Nginz.BinaryCoder.Unpacking

/-! Where the unpack calls read: on which buffers the headers and the field they find stay
inside. The loop reads a header before it knows that there is one, and its bound leaves out
the three bytes of the header. -/
namespace Nginz

/-- The call reads inside the buffer, and a field it finds lies in the announced length. -/
structure StaysInside (b : AroopTxt) (u : Unpacked) : Prop where
  reads : ∀ t ∈ u.touched, t < b.len
  field : u.status = .ok → u.window.len ≠ 0 → u.window.start + u.window.len ≤ headerLength b

/-- The indices that `binary_unpack_int` reads of the field it finds. -/
def intIndices (w : Window) : List ℕ :=
  (if 1 ≤ w.len then [w.start] else []) ++ (if 2 ≤ w.len then [w.start + 1] else []) ++
    (if 3 ≤ w.len then [w.start + 2] else []) ++ (if w.len = 4 then [w.start + 3] else [])

/-- Both unpack calls stay inside. -/
structure DecodesInside (b : AroopTxt) (skip : ℕ) : Prop where
  string : StaysInside b (binaryUnpackString b skip)
  int : StaysInside b (binaryUnpackStringHelper b skip binaryContentInteger)
  value : (binaryUnpackStringHelper b skip binaryContentInteger).status = .ok →
    ∀ t ∈ intIndices (binaryUnpackStringHelper b skip binaryContentInteger).window, t < b.len

/-! ### The fields of a buffer -/

/-- Where the header of a field is, counted from the field whose header is at `p`: each
announced length leads to the next header, modulo the width of the cursor, as long as the
field passes the check and there is something behind it. -/
def headerFrom (b : AroopTxt) (blen : ℕ) : ℕ → ℕ → Option ℕ
  | 0, p => some p
  | k + 1, p =>
    let next := (p + (binaryGetHeader b p).2 + binaryCoderHeaderLen) % 256
    if p + (binaryGetHeader b p).2 ≤ blen ∧ next < blen then headerFrom b blen k next else none

/-- The header at `p` has its three bytes in the buffer. -/
def HeaderFits (b : AroopTxt) (p : ℕ) : Prop := p + 3 ≤ b.len

/-- A field of the given type at `p` that passes the check ends in the announced length; the
cursor wraps behind a header at index 253 and later. -/
def BodyFits (b : AroopTxt) (blen : ℕ) (contentType : UInt8) (p : ℕ) : Prop :=
  (binaryGetHeader b p).1 = contentType → 0 < (binaryGetHeader b p).2 → p < 253 →
    p + (binaryGetHeader b p).2 ≤ blen → p + 3 + (binaryGetHeader b p).2 ≤ blen

/-- The fields up to the requested one have their headers in the buffer, and the requested
one ends in the announced length if it is of the type. -/
structure FieldsFit (b : AroopTxt) (blen : ℕ) (contentType : UInt8) (k p : ℕ) : Prop where
  headers : ∀ j ≤ k, ∀ q, headerFrom b blen j p = some q → HeaderFits b q
  body : ∀ q, headerFrom b blen k p = some q → BodyFits b blen contentType q

/-- The length is one that the calls go on with: there is more than the header, and it
announces no more than there is. -/
def HasFields (b : AroopTxt) : Prop := 2 < b.len % 65536 ∧ headerLength b ≤ b.len

theorem forall_headerIndices_iff (p n : ℕ) : (∀ t ∈ headerIndices p, t < n) ↔ p + 3 ≤ n := by
  simp only [headerIndices, List.forall_mem_cons, List.mem_nil_iff, false_implies, forall_const,
    and_true]
  omega

section Loop
variable (b : AroopTxt) (blen : ℕ) (e : UInt8)

/-- The fields from one on fit when its header does and those behind it do. -/
theorem fieldsFit_succ (k p : ℕ) :
    FieldsFit b blen e (k + 1) p ↔ HeaderFits b p ∧
      (p + (binaryGetHeader b p).2 ≤ blen →
        (p + (binaryGetHeader b p).2 + binaryCoderHeaderLen) % 256 < blen →
        FieldsFit b blen e k ((p + (binaryGetHeader b p).2 + binaryCoderHeaderLen) % 256)) := by
  constructor
  · intro h
    refine ⟨h.headers 0 (Nat.zero_le _) p rfl, fun hlen hlt =>
      ⟨fun j hj q hq => ?_, fun q hq => ?_⟩⟩
    · refine h.headers (j + 1) (by omega) q ?_
      unfold headerFrom
      simp only [hlen, hlt, and_self, ↓reduceIte]
      exact hq
    · refine h.body q ?_
      unfold headerFrom
      simp only [hlen, hlt, and_self, ↓reduceIte]
      exact hq
  · rintro ⟨hhead, hrest⟩
    have hnext {j q : ℕ} (hq : headerFrom b blen (j + 1) p = some q) :
        headerFrom b blen j ((p + (binaryGetHeader b p).2 + binaryCoderHeaderLen) % 256) = some q ∧
          FieldsFit b blen e k ((p + (binaryGetHeader b p).2 + binaryCoderHeaderLen) % 256) := by
      unfold headerFrom at hq
      dsimp only at hq
      split_ifs at hq with hgo
      exact ⟨hq, hrest hgo.1 hgo.2⟩
    refine ⟨fun j hj q hq => ?_, fun q hq => ?_⟩
    · cases j with
      | zero =>
        obtain rfl := Option.some.inj hq
        exact hhead
      | succ j => exact (hnext hq).2.headers j (by omega) q (hnext hq).1
    · exact (hnext hq).2.body q (hnext hq).1

/-- The loop stays inside exactly when the fields fit. -/
theorem loop_inside_iff {k p : ℕ} (hp : p < 256) :
    ((∀ t ∈ (binaryUnpackLoop b blen e k p).touched, t < b.len) ∧
      ((binaryUnpackLoop b blen e k p).status = .ok →
        (binaryUnpackLoop b blen e k p).window.len ≠ 0 →
        (binaryUnpackLoop b blen e k p).window.start +
          (binaryUnpackLoop b blen e k p).window.len ≤ blen)) ↔
      FieldsFit b blen e k p := by
  induction k generalizing p with
  | zero =>
    have hfit : FieldsFit b blen e 0 p ↔ HeaderFits b p ∧ BodyFits b blen e p := by
      constructor
      · exact fun h => ⟨h.headers 0 le_rfl p rfl, h.body p rfl⟩
      · rintro ⟨hhead, hbody⟩
        refine ⟨fun j hj q hq => ?_, fun q hq => ?_⟩
        · obtain rfl := Nat.le_zero.mp hj
          obtain rfl := Option.some.inj hq
          exact hhead
        · obtain rfl := Option.some.inj hq
          exact hbody
    rw [hfit]
    unfold binaryUnpackLoop BodyFits HeaderFits
    dsimp only
    by_cases hlen : p + (binaryGetHeader b p).2 > blen
    · rw [if_pos hlen, forall_headerIndices_iff]
      simp only [reduceCtorEq, false_implies, and_true, iff_self_and]
      intro _ _ _ _ hle
      omega
    · rw [if_neg hlen]
      by_cases htype : (binaryGetHeader b p).1 = e
      · rw [if_neg (not_not.mpr htype)]
        dsimp only
        rw [forall_headerIndices_iff]
        refine and_congr_right fun _ => ?_
        unfold binaryCoderHeaderLen
        by_cases hlow : p < 253
        · rw [Nat.mod_eq_of_lt (by omega)]
          simp only [htype, hlow, forall_const]
          constructor
          · intro h hpos _
            exact h (Nat.pos_iff_ne_zero.mp hpos)
          · intro h hne
            exact h (Nat.pos_iff_ne_zero.mpr hne) (by omega)
        · have hwrap : (p + 3) % 256 = p - 253 := by omega
          rw [hwrap]
          constructor
          · intro _ _ _ hlt
            exact absurd hlt hlow
          · intro _ _ _
            omega
      · rw [if_pos htype, forall_headerIndices_iff]
        simp [htype]
  | succ k ih =>
    rw [fieldsFit_succ]
    unfold binaryUnpackLoop HeaderFits
    dsimp only
    by_cases hlen : p + (binaryGetHeader b p).2 > blen
    · rw [if_pos hlen, forall_headerIndices_iff]
      simp only [reduceCtorEq, false_implies, and_true, iff_self_and]
      intro _ hle
      omega
    · rw [if_neg hlen]
      by_cases hlt : (p + (binaryGetHeader b p).2 + binaryCoderHeaderLen) % 256 < blen
      · rw [if_pos hlt, ← ih (Nat.mod_lt _ (by decide))]
        dsimp only
        rw [List.forall_mem_append, forall_headerIndices_iff]
        have hle : p + (binaryGetHeader b p).2 ≤ blen := by omega
        simp only [hle, hlt, true_implies, and_assoc]
      · rw [if_neg hlt, forall_headerIndices_iff]
        simp [hlt, Window.none]

end Loop

theorem intIndices_inside {w : Window} {n : ℕ} (h : w.len ≠ 0 → w.start + w.len ≤ n) :
    ∀ t ∈ intIndices w, t < n := by
  intro t ht
  unfold intIndices at ht
  simp only [List.mem_append, List.mem_ite_nil_right, List.mem_singleton] at ht
  omega

theorem helper_of_fields {b : AroopTxt} (h : HasFields b) (skip : ℕ) (e : UInt8) :
    binaryUnpackStringHelper b skip e =
      let rest := binaryUnpackLoop b (headerLength b) e skip 2
      { rest with touched := [0, 1] ++ rest.touched } := by
  obtain ⟨hmore, hle⟩ := h
  unfold binaryUnpackStringHelper
  simp only [binaryCoderHeaderLen]
  rw [if_neg (by omega), if_neg (by omega), if_neg (by omega)]

/-- Without fields to go to, a call reads the message header at most. -/
theorem helper_of_no_fields {b : AroopTxt} (h : ¬ HasFields b) (skip : ℕ) (e : UInt8) :
    (binaryUnpackStringHelper b skip e).window = .none ∧
      ∀ t ∈ (binaryUnpackStringHelper b skip e).touched, t < 2 := by
  unfold HasFields at h
  unfold binaryUnpackStringHelper
  simp only [binaryCoderHeaderLen]
  split_ifs with hshort hempty hlong
  · exact ⟨rfl, by simp⟩
  · exact ⟨rfl, by simp⟩
  · exact ⟨rfl, by simp⟩
  · exact absurd ⟨by omega, by omega⟩ h

/-- A call stays inside exactly when the fields fit, if it gets to them at all. -/
theorem staysInside_iff {b : AroopTxt} (hlen : 2 ≤ b.len) (skip : ℕ) (e : UInt8) :
    StaysInside b (binaryUnpackStringHelper b skip e) ↔
      (HasFields b → FieldsFit b (headerLength b) e skip 2) := by
  by_cases hfields : HasFields b
  · have hloop := loop_inside_iff b (headerLength b) e (k := skip) (p := 2) (by decide)
    rw [helper_of_fields hfields, ← hloop]
    constructor
    · exact fun h _ => ⟨(List.forall_mem_append.mp h.reads).2, h.field⟩
    · intro h
      obtain ⟨hreads, hfield⟩ := h hfields
      refine ⟨List.forall_mem_append.mpr ⟨fun t ht => ?_, hreads⟩, hfield⟩
      simp only [List.mem_cons, List.not_mem_nil, or_false] at ht
      omega
  · obtain ⟨hwin, htouch⟩ := helper_of_no_fields hfields skip e
    refine iff_of_true ⟨fun t ht => ?_, fun _ hne => ?_⟩ fun h => absurd h hfields
    · have hlt := htouch t ht
      omega
    · rw [hwin] at hne
      exact absurd rfl hne

/-- The unpack calls stay inside a buffer exactly when they do not get to its fields, or the
headers up to the requested field are in the buffer and the field ends in the announced
length. -/
theorem decodes_inside_iff {b : AroopTxt} (hlen : 2 ≤ b.len) (skip : ℕ) :
    DecodesInside b skip ↔ (HasFields b →
      FieldsFit b (headerLength b) binaryContentString skip 2 ∧
        FieldsFit b (headerLength b) binaryContentInteger skip 2) := by
  have hstring := staysInside_iff hlen skip binaryContentString
  have hint := staysInside_iff hlen skip binaryContentInteger
  constructor
  · exact fun h hfields => ⟨hstring.mp h.string hfields, hint.mp h.int hfields⟩
  · intro h
    have hinside := hint.mpr fun hfields => (h hfields).2
    refine ⟨hstring.mpr fun hfields => (h hfields).1, hinside, fun hok => ?_⟩
    by_cases hfields : HasFields b
    · refine intIndices_inside fun hne => ?_
      have hfield := hinside.field hok hne
      have hle := hfields.2
      omega
    · rw [(helper_of_no_fields hfields skip binaryContentInteger).1]
      exact fun t ht => absurd ht List.not_mem_nil

/-- A message with a pid and a name. -/
theorem decodes_inside_iff_message :
    let b := AroopTxt.ofBytes (message [.int 4711, .str (lit "bob")])
    DecodesInside b 1 ↔ (HasFields b →
      FieldsFit b (headerLength b) binaryContentString 1 2 ∧
        FieldsFit b (headerLength b) binaryContentInteger 1 2) :=
  decodes_inside_iff (b := AroopTxt.ofBytes (message [.int 4711, .str (lit "bob")])) (by decide) 1

/-- Six bytes that announce six, with a string of four bytes behind the three of its header:
the call returns 0 with a field that ends at index 9. -/
theorem field_past_the_end : ¬ DecodesInside (.ofBytes [0, 6, 1, 0, 4, 65]) 0 := by
  intro h
  have hfield := h.string.field (by decide) (by decide)
  exact absurd hfield (by decide)

end Nginz
