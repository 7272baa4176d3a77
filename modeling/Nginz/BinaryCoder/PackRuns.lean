import Nginz.BinaryCoder.Packing

/-! Runs of the pack calls, those among them that fail for lack of room included: the buffer
is a chain of fields behind its length at every point, and a call adds one field or nothing. -/
namespace Nginz
open BigEndian Framing

/-- A chain of fields: a type, two bytes with the length of the body, and the body. -/
inductive FieldChain : Bytes → Prop
  | nil : FieldChain []
  | cons (contentType : UInt8) {body rest : Bytes} (hbody : body.length < 65536)
      (hrest : FieldChain rest) :
      FieldChain (contentType :: digits 2 body.length ++ body ++ rest)

/-- The first two bytes are the length of the text, which stays inside the storage, and the
others are a chain of fields that ends there. -/
structure WellFormedMessage (b : AroopTxt) : Prop where
  header : headerLength b = b.len
  chain : FieldChain (b.content.drop 2)
  fits : b.len ≤ b.capacity

/-- The second buffer is the first one with one more field: behind the header and in front of
the new field, and from the new end on, every byte is the same. -/
structure AppendsField (b b' : AroopTxt) (contentType : UInt8) (body : Bytes) : Prop where
  len : b'.len = b.len + (3 + body.length)
  mem : b'.mem.drop 2 =
    b.content.drop 2 ++ (contentType :: digits 2 body.length ++ body) ++ b.mem.drop b'.len

/-- The frames of short fields are a chain. -/
theorem encode_chain {fs : List Field} (h : ∀ f ∈ fs, f.body.length < 65536) :
    FieldChain (encode Field.frame fs) := by
  induction fs with
  | nil => exact FieldChain.nil
  | cons f fs ih =>
    obtain ⟨hf, hfs⟩ := List.forall_mem_cons.mp h
    rw [encode_cons]
    exact FieldChain.cons f.contentType hf (ih hfs)

theorem body_lt {fs : List Field} (h : packedLength fs < 65536) :
    ∀ f ∈ fs, f.body.length < 65536 := by
  intro f hf
  have hle : f.body.length + 3 ≤ (fs.map fun f => f.body.length + 3).sum :=
    List.single_le_sum (fun _ _ => Nat.zero_le _) _ (List.mem_map_of_mem hf)
  unfold packedLength at h
  omega

theorem message_drop (fs : List Field) : (message fs).drop 2 = encode Field.frame fs := by
  unfold message
  exact List.drop_left' (digits_length 2 _)

namespace IsMessage
variable {b : AroopTxt} {fs : List Field}

theorem headerLength_eq (h : IsMessage b fs) (hc : b.capacity < 65536) :
    headerLength b = packedLength fs := by
  have hl := h.packedLength_le
  have h0 : b.rawAt 0 = digit (packedLength fs) 1 := by
    unfold AroopTxt.rawAt
    rw [h.mem_eq]
    simp [message, digits]
  have h1 : b.rawAt 1 = digit (packedLength fs) 0 := by
    unfold AroopTxt.rawAt
    rw [h.mem_eq]
    simp [message, digits]
  unfold headerLength
  rw [h0, h1]
  exact join_digits (by omega)

theorem wellFormedMessage (h : IsMessage b fs) (hc : b.capacity < 65536) : WellFormedMessage b where
  header := by rw [h.headerLength_eq hc, h.len]
  chain := by
    have hle := h.packedLength_le
    rw [h.content, message_drop]
    exact encode_chain (body_lt (by omega))
  fits := h.wf

end IsMessage

/-- The pack calls leave the message of some of the fields, in order. -/
theorem packAll_sublist (L : TxtLib) {b : AroopTxt} {fs : List Field} (h : IsMessage b fs)
    (hc : b.capacity < 65536) (gs : List Field) :
    ∃ kept, kept.Sublist gs ∧ IsMessage (packAll L b gs) (fs ++ kept) ∧
      (packAll L b gs).capacity = b.capacity := by
  induction gs generalizing b fs with
  | nil => exact ⟨[], List.Sublist.refl _, by simpa [packAll] using h, rfl⟩
  | cons g gs ih =>
    by_cases hf : packedLength (fs ++ [g]) ≤ b.capacity
    · obtain ⟨-, hm, hcap⟩ := packField_fits L h hc hf
      obtain ⟨kept, hsub, hkept, hk⟩ := ih hm (by omega)
      refine ⟨g :: kept, hsub.cons_cons g, ?_, hk.trans hcap⟩
      rw [List.append_assoc] at hkept
      exact hkept
    · have hfull := packField_full L h hc (f := g) (by omega)
      obtain ⟨kept, hsub, hkept, hk⟩ := ih h hc
      refine ⟨kept, hsub.cons g, ?_, ?_⟩
      · show IsMessage (packAll L (packField L b g).2 gs) _
        rw [hfull]
        exact hkept
      · show (packAll L (packField L b g).2 gs).capacity = _
        rw [hfull]
        exact hk

section Append
variable (L : TxtLib) {b : AroopTxt} {fs : List Field} {f : Field}

/-- From the end of the new field on, a pack call that fits leaves the storage as it was. -/
theorem packField_drop (hw : b.WellFormed) (hf : b.len + (f.body.length + 3) ≤ b.capacity)
    (hc : b.capacity < 65536) {n : ℕ} (hn : b.len + (f.body.length + 3) ≤ n) :
    (packField L b f).2.mem.drop n = b.mem.drop n := by
  have hnot : ¬ f.body.length + b.len % 65536 + binaryCoderHeaderLen > b.capacity := by
    rw [Nat.mod_eq_of_lt (by omega), binaryCoderHeaderLen]
    omega
  rw [packField_eq, binaryPackStringHelper]
  simp only [hnot, ↓reduceIte, binarySetHeader]
  rw [AroopTxt.setCharAt_drop _ _ (by omega), AroopTxt.setCharAt_drop _ _ (by omega)]
  unfold AroopTxt.concatChar
  generalize UInt8.ofNat ((f.body.length % 65536 &&& 0xFF00) >>> 8) = c₂
  generalize UInt8.ofNat (f.body.length % 65536 &&& 0x00FF) = c₃
  generalize f.contentType = c₁
  have w₁ := AroopTxt.concat_wellFormed L (x := [c₁]) hw
  have w₂ := AroopTxt.concat_wellFormed L (x := [c₂]) w₁
  have w₃ := AroopTxt.concat_wellFormed L (x := [c₃]) w₂
  have l₁ : (b.concat L [c₁]).len ≤ b.len + 1 := AroopTxt.concat_len_le L
  have l₂ : ((b.concat L [c₁]).concat L [c₂]).len ≤ (b.concat L [c₁]).len + 1 :=
    AroopTxt.concat_len_le L
  have l₃ : (((b.concat L [c₁]).concat L [c₂]).concat L [c₃]).len ≤
      ((b.concat L [c₁]).concat L [c₂]).len + 1 := AroopTxt.concat_len_le L
  rw [AroopTxt.concat_drop L w₃ (by omega), AroopTxt.concat_drop L w₂ (by simp; omega),
    AroopTxt.concat_drop L w₁ (by simp; omega), AroopTxt.concat_drop L hw (by simp; omega)]

theorem packField_appends (h : IsMessage b fs) (hc : b.capacity < 65536)
    (hf : packedLength (fs ++ [f]) ≤ b.capacity) :
    AppendsField b (packField L b f).2 f.contentType f.body := by
  obtain ⟨-, hm, -⟩ := packField_fits L h hc hf
  have hlen := h.len
  have hlen' := hm.len
  have hp : packedLength (fs ++ [f]) = packedLength fs + (f.body.length + 3) := by
    simp [packedLength_append]
  have hend : (packField L b f).2.len = b.len + (3 + f.body.length) := by omega
  refine ⟨hend, ?_⟩
  have hrest := packField_drop L h.wf (f := f) (by omega) hc (n := (packField L b f).2.len)
    (by omega)
  have h2 : 2 ≤ (message (fs ++ [f])).length := by
    rw [message_length]
    exact Nat.le_add_right 2 _
  calc (packField L b f).2.mem.drop 2
      = (message (fs ++ [f]) ++ b.mem.drop (packField L b f).2.len).drop 2 := by
        rw [hm.mem_eq, ← hlen', hrest]
    _ = encode Field.frame (fs ++ [f]) ++ b.mem.drop (packField L b f).2.len := by
        rw [List.drop_append_of_le_length h2, message_drop]
    _ = _ := by
        rw [encode_append, h.content, message_drop, encode_cons, encode_nil, List.append_nil]
        rfl

end Append

/-- Whatever pack calls come after the reset, whether they fit or not, the buffer is well
formed, and the next call returns 0 and appends its field, or it returns -1 and changes
nothing. -/
theorem packing_well_formed (L : TxtLib) (buf : AroopTxt) (hlo : 256 ≤ buf.capacity)
    (hhi : buf.capacity ≤ 65535) (calls : List Field) (f : Field) :
    let b := packAll L (binaryCoderReset L buf) calls
    WellFormedMessage b ∧ b.capacity = buf.capacity ∧
      ((packField L b f).1 = 0 ∧ AppendsField b (packField L b f).2 f.contentType f.body ∨
        (packField L b f).1 = -1 ∧ (packField L b f).2 = b) := by
  intro b
  have hreset := reset_isMessage L (b := buf) (by omega)
  have hcapacity := reset_capacity L buf
  obtain ⟨kept, -, hm, hk⟩ := packAll_sublist L hreset (by omega) calls
  have hcap : b.capacity < 65536 := by
    show (packAll L (binaryCoderReset L buf) calls).capacity < 65536
    omega
  refine ⟨hm.wellFormedMessage hcap, hk.trans hcapacity, ?_⟩
  by_cases hf : packedLength ([] ++ kept ++ [f]) ≤ b.capacity
  · exact Or.inl ⟨(packField_fits L hm hcap hf).1, packField_appends L hm hcap hf⟩
  · have hfull := packField_full L hm hcap (Nat.lt_of_not_le hf)
    exact Or.inr ⟨congrArg Prod.fst hfull, congrArg Prod.snd hfull⟩

/-- A buffer of 256 bytes has no room for the second of two long strings. -/
theorem packing_well_formed_refused :
    let b := packAll .cutting (binaryCoderReset .cutting (.buffer 256))
      [.int 4711, .str (List.replicate 200 65), .str (List.replicate 200 66)]
    WellFormedMessage b ∧ b.capacity = (AroopTxt.buffer 256).capacity ∧
      ((packField .cutting b (.int 7)).1 = 0 ∧
          AppendsField b (packField .cutting b (.int 7)).2 binaryContentInteger (intbuf 7) ∨
        (packField .cutting b (.int 7)).1 = -1 ∧ (packField .cutting b (.int 7)).2 = b) :=
  packing_well_formed .cutting (.buffer 256) (by simp) (by simp) _ (.int 7)

end Nginz
