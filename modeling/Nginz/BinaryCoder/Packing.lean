import Nginz.BinaryCoder

/-! What the pack calls leave in the buffer: a header with the length of the message,
and the frames of the fields packed so far. -/
namespace Nginz
open BigEndian Framing

theorem high_byte_eq (n : ℕ) : UInt8.ofNat ((n &&& 0xFF00) >>> 8) = digit n 1 :=
  mask_shift_eq_digit n 1

theorem low_byte_eq (n : ℕ) : UInt8.ofNat (n &&& 0x00FF) = digit n 0 :=
  mask_shift_eq_digit n 0

/-- The 32 bits of a non-negative `int` are its binary digits. -/
theorem int_bits {v : ℤ} (h0 : 0 ≤ v) (h1 : v < 2 ^ 31) : (v % 2 ^ 32).toNat = v.toNat := by
  rw [Int.emod_eq_of_lt h0 (by omega)]

theorem intbuf_wide {v : ℤ} (h : 0xFFFF ≤ v) (h1 : v < 2 ^ 31) : intbuf v = digits 4 v.toNat := by
  have hb := int_bits (by omega) h1
  simp only [intbuf, hb, ge_iff_le, h, ↓reduceIte, high_byte_eq, low_byte_eq, digits,
    List.cons_append, List.nil_append]
  have h3 := mask_shift_eq_digit v.toNat 3
  have h2 := mask_shift_eq_digit v.toNat 2
  exact congrArg₂ List.cons h3 (congrArg₂ List.cons h2 rfl)

theorem intbuf_narrow {v : ℤ} (h0 : 0 ≤ v) (h : v < 0xFFFF) : intbuf v = digits 2 v.toNat := by
  have hb := int_bits h0 (by omega)
  have hn : ¬ (0xFFFF : ℤ) ≤ v := by omega
  simp only [intbuf, hb, ge_iff_le, hn, ↓reduceIte, high_byte_eq, low_byte_eq, digits,
    List.nil_append]

theorem intbuf_length_le (v : ℤ) : (intbuf v).length ≤ 4 := by
  unfold intbuf
  dsimp only
  split_ifs <;> simp

theorem packedLength_eq (fs : List Field) :
    packedLength fs = 2 + (encode Field.frame fs).length := by
  induction fs with
  | nil => rfl
  | cons f fs ih =>
    simp only [packedLength, List.map_cons, List.sum_cons, encode_cons, List.length_append,
      Field.frame_length] at *
    omega

theorem packedLength_append (fs gs : List Field) :
    packedLength (fs ++ gs) = packedLength fs + (encode Field.frame gs).length := by
  rw [packedLength_eq, packedLength_eq, encode_append, List.length_append]
  omega

@[simp] theorem message_length (fs : List Field) : (message fs).length = packedLength fs := by
  rw [message, List.length_append, digits_length, packedLength_eq]

/-- The buffer holds exactly the message of the given fields. -/
structure IsMessage (buffer : AroopTxt) (fs : List Field) : Prop where
  wf : buffer.WellFormed
  content : buffer.content = message fs

namespace IsMessage
variable {b : AroopTxt} {fs : List Field}

theorem len (h : IsMessage b fs) : b.len = packedLength fs := by
  rw [← AroopTxt.content_length h.wf, h.content, message_length]

theorem packedLength_le (h : IsMessage b fs) : packedLength fs ≤ b.capacity := h.len ▸ h.wf

/-- The storage is the message followed by bytes that are not part of it. -/
theorem mem_eq (h : IsMessage b fs) : b.mem = message fs ++ b.mem.drop (packedLength fs) := by
  rw [← h.content, AroopTxt.content, ← h.len, List.take_append_drop]

end IsMessage

theorem reset_isMessage (L : TxtLib) {b : AroopTxt} (hc : 2 ≤ b.capacity) :
    IsMessage (binaryCoderReset L b) [] := by
  have h0 : (b.setLength 0).WellFormed := Nat.zero_le _
  have h1 := AroopTxt.concat_wellFormed L (x := [0]) h0
  refine ⟨AroopTxt.concat_wellFormed L h1, ?_⟩
  have hl : ((b.setLength 0).concat L [0]).len = 1 := by
    rw [AroopTxt.concat_len L (by simp; omega)]; rfl
  simp only [binaryCoderReset, AroopTxt.concatChar]
  rw [AroopTxt.concat_content L h1 (by simp [hl, AroopTxt.concat_capacity L h0]; omega),
    AroopTxt.concat_content L h0 (by simp; omega)]
  simp [AroopTxt.content, message, packedLength, digits, digit]

@[simp] theorem reset_capacity (L : TxtLib) (b : AroopTxt) :
    (binaryCoderReset L b).capacity = b.capacity := by
  have h0 : (b.setLength 0).WellFormed := Nat.zero_le _
  have h1 := AroopTxt.concat_wellFormed L (x := [0]) h0
  simp only [binaryCoderReset, AroopTxt.concatChar]
  rw [AroopTxt.concat_capacity L h1, AroopTxt.concat_capacity L h0, AroopTxt.setLength_capacity]

theorem packField_eq (L : TxtLib) (b : AroopTxt) (f : Field) :
    packField L b f = binaryPackStringHelper L b f.body f.contentType := by
  cases f <;> rfl

/-- A field that does not fit is refused and the buffer stays as it is. -/
theorem packField_full (L : TxtLib) {b : AroopTxt} {fs : List Field} (h : IsMessage b fs)
    (hc : b.capacity < 65536) {f : Field} (hf : b.capacity < packedLength (fs ++ [f])) :
    packField L b f = (-1, b) := by
  have hlen := h.len
  have hle := h.packedLength_le
  have hp : packedLength (fs ++ [f]) = packedLength fs + (f.body.length + 3) := by
    simp [packedLength_append]
  rw [packField_eq, binaryPackStringHelper]
  simp only [binaryCoderHeaderLen, hlen]
  rw [Nat.mod_eq_of_lt (by omega), if_pos (by omega)]

/-- The appends of a pack call that fits, before the base header is updated. -/
theorem appends_content (L : TxtLib) {b : AroopTxt} (hw : b.WellFormed) (c₁ c₂ c₃ : UInt8)
    (x : Bytes) (hf : b.len + (x.length + 3) ≤ b.capacity) :
    let r := (((b.concatChar L c₁).concatChar L c₂).concatChar L c₃).concat L x
    r.WellFormed ∧ r.capacity = b.capacity ∧ r.len = b.len + (x.length + 3) ∧
      r.content = b.content ++ (c₁ :: c₂ :: c₃ :: x) := by
  have w₁ := AroopTxt.concat_wellFormed L (x := [c₁]) hw
  have w₂ := AroopTxt.concat_wellFormed L (x := [c₂]) w₁
  have w₃ := AroopTxt.concat_wellFormed L (x := [c₃]) w₂
  have k₁ := AroopTxt.concat_capacity L (x := [c₁]) hw
  have k₂ := AroopTxt.concat_capacity L (x := [c₂]) w₁
  have k₃ := AroopTxt.concat_capacity L (x := [c₃]) w₂
  have l₁ : (b.concat L [c₁]).len = b.len + 1 := AroopTxt.concat_len L (by simp; omega)
  have l₂ : ((b.concat L [c₁]).concat L [c₂]).len = b.len + 1 + 1 := by
    rw [AroopTxt.concat_len L (by simp [l₁, k₁]; omega), l₁]; rfl
  have l₃ : (((b.concat L [c₁]).concat L [c₂]).concat L [c₃]).len = b.len + 1 + 1 + 1 := by
    rw [AroopTxt.concat_len L (by simp [l₂, k₂, k₁]; omega), l₂]; rfl
  simp only [AroopTxt.concatChar]
  refine ⟨AroopTxt.concat_wellFormed L w₃, ?_, ?_, ?_⟩
  · rw [AroopTxt.concat_capacity L w₃, k₃, k₂, k₁]
  · rw [AroopTxt.concat_len L (by rw [l₃, k₃, k₂, k₁]; omega), l₃]
    omega
  · rw [AroopTxt.concat_content L w₃ (by rw [l₃, k₃, k₂, k₁]; omega),
      AroopTxt.concat_content L w₂ (by simp [l₂, k₂, k₁]; omega),
      AroopTxt.concat_content L w₁ (by simp [l₁, k₁]; omega),
      AroopTxt.concat_content L hw (by simp; omega)]
    simp

/-- A field that fits is appended, and the header counts it. -/
theorem packField_fits (L : TxtLib) {b : AroopTxt} {fs : List Field} (h : IsMessage b fs)
    (hc : b.capacity < 65536) {f : Field} (hf : packedLength (fs ++ [f]) ≤ b.capacity) :
    (packField L b f).1 = 0 ∧ IsMessage (packField L b f).2 (fs ++ [f]) ∧
      (packField L b f).2.capacity = b.capacity := by
  have hlen := h.len
  have hp : packedLength (fs ++ [f]) = packedLength fs + (f.body.length + 3) := by
    simp [packedLength_append]
  obtain ⟨rw₁, rcap, rlen, rcon⟩ := appends_content L h.wf f.contentType
    (UInt8.ofNat ((f.body.length % 65536 &&& 0xFF00) >>> 8))
    (UInt8.ofNat (f.body.length % 65536 &&& 0x00FF)) f.body (by omega)
  have hb : f.body.length % 65536 = f.body.length := Nat.mod_eq_of_lt (by omega)
  have hn : (b.len + (f.body.length + 3)) % 65536 = packedLength (fs ++ [f]) := by
    rw [Nat.mod_eq_of_lt (by omega)]; omega
  have hnot : ¬ f.body.length + b.len % 65536 + binaryCoderHeaderLen > b.capacity := by
    rw [Nat.mod_eq_of_lt (by omega), binaryCoderHeaderLen]
    omega
  rw [packField_eq, binaryPackStringHelper]
  simp only [hnot, ↓reduceIte, binarySetHeader, rlen, hn]
  refine ⟨trivial, ?_, ?_⟩
  · refine ⟨by simpa [AroopTxt.WellFormed] using rw₁, ?_⟩
    rw [AroopTxt.setCharAt_content, AroopTxt.setCharAt_content, rcon, h.content, hb]
    simp only [high_byte_eq, low_byte_eq]
    simp [message, digits, Field.frame, encode_append]
  · simp only [AroopTxt.setCharAt_capacity]
    exact rcap

/-- Successful pack calls leave the message of the fields, inside the capacity. -/
theorem packFields_isMessage (L : TxtLib) {b b' : AroopTxt} {fs gs : List Field}
    (h : IsMessage b fs) (hc : b.capacity < 65536) (hp : packFields L b gs = some b') :
    IsMessage b' (fs ++ gs) ∧ b'.capacity = b.capacity := by
  induction gs generalizing b fs with
  | nil =>
    obtain rfl := Option.some.inj hp
    simpa using h
  | cons g gs ih =>
    rw [packFields] at hp
    by_cases hf : packedLength (fs ++ [g]) ≤ b.capacity
    · obtain ⟨hret, hm, hcap⟩ := packField_fits L h hc hf
      simp only [hret, ↓reduceIte] at hp
      have hrest := ih hm (by omega) hp
      simpa [hcap] using hrest
    · rw [packField_full L h hc (by omega)] at hp
      simp at hp

/-- The pack calls succeed as long as the message fits. -/
theorem packFields_of_fits (L : TxtLib) {b : AroopTxt} {fs gs : List Field} (h : IsMessage b fs)
    (hc : b.capacity < 65536) (hf : packedLength (fs ++ gs) ≤ b.capacity) :
    ∃ b', packFields L b gs = some b' := by
  induction gs generalizing b fs with
  | nil => exact ⟨b, rfl⟩
  | cons g gs ih =>
    have hs : fs ++ g :: gs = fs ++ [g] ++ gs := by simp
    have hg : packedLength (fs ++ [g]) ≤ b.capacity := by
      rw [hs, packedLength_append] at hf
      omega
    obtain ⟨hret, hm, hcap⟩ := packField_fits L h hc hg
    simp only [packFields, hret, ↓reduceIte]
    exact ih hm (by omega) (by rw [hcap, ← hs]; exact hf)

/-- Pack calls whose return codes are dropped. -/
def packAll (L : TxtLib) (b : AroopTxt) (fs : List Field) : AroopTxt :=
  fs.foldl (fun b f => (packField L b f).2) b

theorem packAll_eq (L : TxtLib) {b b' : AroopTxt} {gs : List Field}
    (h : packFields L b gs = some b') : packAll L b gs = b' := by
  induction gs generalizing b with
  | nil => exact Option.some.inj h
  | cons g gs ih =>
    simp only [packFields] at h
    split_ifs at h
    exact ih h

/-- Fields that fit behind a fresh reset leave their message. -/
theorem packAll_of_room (L : TxtLib) {n : ℕ} {gs : List Field} (hc : L.room n < 65536)
    (hf : packedLength gs ≤ L.room n) :
    IsMessage (packAll L (binaryCoderReset L (.stackbuffer L n)) gs) gs := by
  have h2 : 2 ≤ packedLength gs := Nat.le_add_right 2 _
  have hcap : (AroopTxt.stackbuffer L n).capacity = L.room n := AroopTxt.buffer_capacity _
  have hreset := reset_isMessage L (b := .stackbuffer L n) (by omega)
  have hfit : packedLength ([] ++ gs) ≤
      (binaryCoderReset L (.stackbuffer L n)).capacity := by
    rw [reset_capacity, List.nil_append]
    omega
  obtain ⟨b', hb⟩ := packFields_of_fits L hreset (by rw [reset_capacity]; omega) hfit
  rw [packAll_eq L hb]
  have hm := (packFields_isMessage L hreset (by rw [reset_capacity]; omega) hb).1
  rwa [List.nil_append] at hm

theorem packAll_isMessage (L : TxtLib) {n : ℕ} {gs : List Field} (hc : L.room n < 65536)
    (hf : packedLength gs ≤ n) :
    IsMessage (packAll L (binaryCoderReset L (.stackbuffer L n)) gs) gs :=
  packAll_of_room L hc (hf.trans (L.le_room n))

end Nginz
