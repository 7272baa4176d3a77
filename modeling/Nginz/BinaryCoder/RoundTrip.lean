import Nginz.BinaryCoder.Unpacking

/-! The round trip of a message through the coder, and the message length up to which
the 8-bit cursor carries it. -/
namespace Nginz
open BigEndian Framing

/-- Every index below the number of fields yields its field, and the index past the
last field yields an empty result. -/
structure MessageRoundTrip (buffer : AroopTxt) (fs : List Field) : Prop where
  string : ∀ k s, fs[k]? = some (.str s) →
    (binaryUnpackString buffer k).status = .ok ∧
      ((binaryUnpackString buffer k).text buffer).content = s
  int : ∀ k v old, fs[k]? = some (.int v) → binaryUnpackInt buffer k old = (.ok, v)
  endString : (binaryUnpackString buffer fs.length).status = .ok ∧
    ((binaryUnpackString buffer fs.length).text buffer).content = []
  endInt : ∀ old, binaryUnpackInt buffer fs.length old = (.ok, 0)

theorem none_text_content (b : AroopTxt) : (Window.none.text b).content = [] := by
  simp [Window.text, Window.none, AroopTxt.content]

theorem intOfText_none (b : AroopTxt) : intOfText (Window.none.text b) = 0 := by
  have h0 : intOfText (Window.none.text b) = intOfBits 0 := by
    simp [intOfText, Window.text, Window.none]
  rw [h0, intOfBits_of_lt (n := 0) (by norm_num), Nat.cast_zero]

/-- A message without fields ends at the first call. -/
theorem unpack_empty_message {b : AroopTxt} (h : IsMessage b []) (e : UInt8) (skip : ℕ) :
    binaryUnpackStringHelper b skip e = ⟨.ok, .none, []⟩ := by
  have hl : b.len = 2 := h.len
  simp [binaryUnpackStringHelper, hl, binaryCoderHeaderLen]

theorem unpack_end {b : AroopTxt} {fs : List Field} (h : IsMessage b fs)
    (hc : b.capacity < 65536) (hs : packedLength fs ≤ 255) (e : UInt8) :
    (binaryUnpackStringHelper b fs.length e).status = .ok ∧
      (binaryUnpackStringHelper b fs.length e).window = .none := by
  by_cases hne : fs = []
  · subst hne
    simp [unpack_empty_message h]
  · obtain ⟨hst, hwin, _⟩ := (h.startsWith hc).unpack_past_end hs hne le_rfl e
    exact ⟨hst, hwin⟩

/-- Up to 255 bytes every call is exact. -/
theorem round_trip_of_short {b : AroopTxt} {fs : List Field} (h : IsMessage b fs)
    (hc : b.capacity < 65536) (hv : ∀ f ∈ fs, f.InRange) (hs : packedLength fs ≤ 255) :
    MessageRoundTrip b fs where
  string _ _ hk := (h.startsWith hc).unpackString_field hs hk
  int k v old hk := by
    obtain ⟨h0, h1⟩ : 0 ≤ v ∧ v < 2 ^ 31 := hv _ (List.mem_of_getElem? hk)
    exact (h.startsWith hc).unpackInt_field hs hk h0 h1 old
  endString := by
    obtain ⟨hst, hwin⟩ := unpack_end h hc hs binaryContentString
    exact ⟨hst, by rw [Unpacked.text, binaryUnpackString, hwin, none_text_content]⟩
  endInt old := by
    obtain ⟨hst, hwin⟩ := unpack_end h hc hs binaryContentInteger
    simp only [binaryUnpackInt, hst, Unpacked.text, hwin, intOfText_none]

/-- With 256 bytes or more the cursor never passes the end, so a call that succeeds
has met a field of the type it expects. -/
theorem loop_type_unique {b : AroopTxt} {blen : ℕ} (hb : 256 ≤ blen) {e₁ e₂ : UInt8} {k p : ℕ}
    (h₁ : (binaryUnpackLoop b blen e₁ k p).status = .ok)
    (h₂ : (binaryUnpackLoop b blen e₂ k p).status = .ok) : e₁ = e₂ := by
  induction k generalizing p with
  | zero =>
    by_cases hlen : p + (binaryGetHeader b p).2 > blen
    · simp [binaryUnpackLoop, hlen] at h₁
    · by_cases t₁ : (binaryGetHeader b p).1 = e₁
      · by_cases t₂ : (binaryGetHeader b p).1 = e₂
        · exact t₁.symm.trans t₂
        · simp [binaryUnpackLoop, hlen, t₂] at h₂
      · simp [binaryUnpackLoop, hlen, t₁] at h₁
  | succ k ih =>
    have hlt : (p + (binaryGetHeader b p).2 + binaryCoderHeaderLen) % 256 < blen :=
      lt_of_lt_of_le (Nat.mod_lt _ (by decide)) hb
    by_cases hlen : p + (binaryGetHeader b p).2 > blen
    · simp [binaryUnpackLoop, hlen] at h₁
    · simp only [binaryUnpackLoop, hlen, ↓reduceIte, hlt] at h₁ h₂
      exact ih h₁ h₂

/-- A longer message loses its end: the two unpack calls past the last field cannot
both succeed. -/
theorem short_of_round_trip {b : AroopTxt} {fs : List Field} (h : IsMessage b fs)
    (hc : b.capacity < 65536) (hr : MessageRoundTrip b fs) : packedLength fs ≤ 255 := by
  by_contra hlong
  have hne : fs ≠ [] := by rintro rfl; simp [packedLength] at hlong
  have hstr := hr.endString.1
  have hint : (binaryUnpackStringHelper b fs.length binaryContentInteger).status = .ok := by
    have h0 := congrArg Prod.fst (hr.endInt 0)
    simp only [binaryUnpackInt] at h0
    cases hst : (binaryUnpackStringHelper b fs.length binaryContentInteger).status <;>
      simp [hst] at h0 ⊢
  rw [binaryUnpackString, (h.startsWith hc).helper_eq_loop hne] at hstr
  rw [(h.startsWith hc).helper_eq_loop hne] at hint
  exact absurd (loop_type_unique (by omega) hstr hint) (by decide)

/-- The message round trip holds exactly for the messages of at most 255 bytes. -/
theorem message_round_trip_iff (L : TxtLib) {buf b : AroopTxt} {fs : List Field}
    (hlo : 256 ≤ buf.capacity) (hhi : buf.capacity ≤ nginzMaxBinaryMsgLen)
    (hv : ∀ f ∈ fs, f.InRange) (hp : packFields L (binaryCoderReset L buf) fs = some b) :
    MessageRoundTrip b fs ↔ packedLength fs ≤ 255 := by
  have hmax : nginzMaxBinaryMsgLen = 1024 := rfl
  have hreset := reset_isMessage L (b := buf) (by omega)
  obtain ⟨hm, hcap⟩ := packFields_isMessage L hreset (by rw [reset_capacity]; omega) hp
  rw [reset_capacity] at hcap
  rw [List.nil_append] at hm
  exact ⟨short_of_round_trip hm (by omega), round_trip_of_short hm (by omega) hv⟩

theorem message_round_trip_iff_login :
    ∃ b, packFields .cutting (binaryCoderReset .cutting (.buffer 256))
        [.int 4711, .str (lit "user/bob"), .int 70000] = some b ∧
      (MessageRoundTrip b [.int 4711, .str (lit "user/bob"), .int 70000] ↔
        packedLength [.int 4711, .str (lit "user/bob"), .int 70000] ≤ 255) := by
  have hreset := reset_isMessage .cutting (b := .buffer 256) (by simp)
  obtain ⟨b, hb⟩ : ∃ b, packFields .cutting (binaryCoderReset .cutting (.buffer 256))
      [.int 4711, .str (lit "user/bob"), .int 70000] = some b :=
    packFields_of_fits .cutting hreset (by simp) (by simp; decide)
  exact ⟨b, hb, message_round_trip_iff .cutting (by simp) (by simp [nginzMaxBinaryMsgLen])
    (by decide) hb⟩

/-- A string of 250 bytes puts the next field at offset 255. The cursor wraps to 2 and
the `int` 7 is read from there, out of the header of the string. -/
theorem message_round_trip_wraps :
    ∃ b, packFields .cutting (binaryCoderReset .cutting (.buffer 1024))
        [.str (List.replicate 250 65), .int 7] = some b ∧
      binaryUnpackInt b 1 0 = (.ok, 256) ∧
      ¬ MessageRoundTrip b [.str (List.replicate 250 65), .int 7] := by
  have hrun : (packFields .cutting (binaryCoderReset .cutting (.buffer 1024))
      [.str (List.replicate 250 65), .int 7]).map (fun b => binaryUnpackInt b 1 0) =
        some (.ok, 256) := by decide +kernel
  obtain ⟨b, hb, hu⟩ := Option.map_eq_some_iff.mp hrun
  refine ⟨b, hb, hu, ?_⟩
  intro hr
  have h7 := hr.int 1 7 0 rfl
  rw [hu] at h7
  exact absurd h7 (by decide)

end Nginz
