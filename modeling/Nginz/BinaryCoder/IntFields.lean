import Nginz.BinaryCoder.PackRuns
import Nginz.BinaryCoder.Unpacking

/-! Which `int` fields come back as they were packed: the two byte form has no sign, and the
cursor of the unpack loop has to reach the body without wrapping. -/
namespace Nginz
open BigEndian Framing

/-- The unpack call returns 0 and yields the value, whatever `*intval` was. -/
def IntRoundTrip (b : AroopTxt) (k : ℕ) (v : ℤ) : Prop := ∀ old, binaryUnpackInt b k old = (.ok, v)

/-! ### The sign -/

theorem intOfText_two_nonneg (x y : UInt8) (rest : Bytes) : 0 ≤ intOfText ⟨x :: y :: rest, 2⟩ := by
  have hx := x.toNat_lt
  have hy := y.toNat_lt
  rw [intOfText_two, intOfBits_of_lt (by omega)]
  exact Int.natCast_nonneg _

/-- The branches on the length give back the value exactly when it is not negative. -/
theorem intOfText_intbuf_iff {v : ℤ} (h1 : v < 2 ^ 31) (rest : Bytes) :
    intOfText ⟨intbuf v ++ rest, (intbuf v).length⟩ = v ↔ 0 ≤ v := by
  constructor
  · intro heq
    by_contra hneg
    have hnarrow : ¬ v ≥ 0xFFFF := by omega
    have hbuf : ∃ x y, intbuf v = [x, y] := by
      unfold intbuf
      simp only [hnarrow, ↓reduceIte, List.nil_append]
      exact ⟨_, _, rfl⟩
    obtain ⟨x, y, hxy⟩ := hbuf
    have hpos := intOfText_two_nonneg x y rest
    rw [hxy] at heq
    exact hneg (heq ▸ hpos)
  · exact fun h0 => intOfText_intbuf h0 h1 rest

/-! ### The cursor -/

theorem intOfText_congr {x y : AroopTxt} (hl : x.len = y.len)
    (h : ∀ i < x.len, i < 4 → x.rawAt i = y.rawAt i) : intOfText x = intOfText y := by
  have h0 (h1 : 1 ≤ x.len) := h 0 (by omega) (by omega)
  have h1 (h2 : 2 ≤ x.len) := h 1 (by omega) (by omega)
  have h2 (h3 : 3 ≤ x.len) := h 2 (by omega) (by omega)
  have h3 (h4 : x.len = 4) := h 3 (by omega) (by omega)
  unfold intOfText
  rw [← hl]
  by_cases hx1 : 1 ≤ x.len
  · by_cases hx2 : 2 ≤ x.len
    · by_cases hx3 : 3 ≤ x.len
      · by_cases hx4 : x.len = 4
        · simp only [hx4, ↓reduceIte, h0 hx1, h1 hx2, h2 hx3, h3 hx4]
        · simp only [hx1, hx2, hx3, hx4, ↓reduceIte, h0 hx1, h1 hx2, h2 hx3]
      · have hx4 : ¬ x.len = 4 := by omega
        simp only [hx1, hx2, hx3, hx4, ↓reduceIte, h0 hx1, h1 hx2]
    · have hx3 : ¬ 3 ≤ x.len := by omega
      have hx4 : ¬ x.len = 4 := by omega
      simp only [hx1, hx2, hx3, hx4, ↓reduceIte, h0 hx1]
  · have hx2 : ¬ 2 ≤ x.len := by omega
    have hx3 : ¬ 3 ≤ x.len := by omega
    have hx4 : ¬ x.len = 4 := by omega
    simp only [hx1, hx2, hx3, hx4, ↓reduceIte]

theorem window_rawAt (w : Window) (b : AroopTxt) (i : ℕ) :
    (w.text b).rawAt i = b.rawAt (w.start + i) := by
  unfold Window.text AroopTxt.rawAt
  simp [List.getD_eq_getElem?_getD]

/-- The cursor has eight bits: headers are read up to index 257, and a body that is found
starts at index 255 at the latest. -/
theorem loop_early (b : AroopTxt) (blen : ℕ) (e : UInt8) (k : ℕ) {p : ℕ} (hp : p ≤ 255) :
    (∀ t ∈ (binaryUnpackLoop b blen e k p).touched, t ≤ 257) ∧
      (binaryUnpackLoop b blen e k p).window.start ≤ 255 := by
  have hhead (q : ℕ) (hq : q ≤ 255) : ∀ t ∈ headerIndices q, t ≤ 257 := by
    intro t ht
    have hlt := forall_headerIndices q (n := 258) (by omega) t ht
    omega
  induction k generalizing p with
  | zero =>
    unfold binaryUnpackLoop
    dsimp only
    split_ifs with hlen htype
    · exact ⟨hhead p hp, Nat.zero_le _⟩
    · exact ⟨hhead p hp, Nat.zero_le _⟩
    · have hmod := Nat.mod_lt (p + binaryCoderHeaderLen) (show 0 < 256 by decide)
      exact ⟨hhead p hp, Nat.le_of_lt_succ hmod⟩
  | succ k ih =>
    unfold binaryUnpackLoop
    dsimp only
    split_ifs with hlen hlt
    · exact ⟨hhead p hp, Nat.zero_le _⟩
    · have hmod := Nat.mod_lt (p + (binaryGetHeader b p).2 + binaryCoderHeaderLen)
        (show 0 < 256 by decide)
      obtain ⟨htouch, hwin⟩ := ih (p := (p + (binaryGetHeader b p).2 + binaryCoderHeaderLen) % 256)
        (by omega)
      exact ⟨List.forall_mem_append.mpr ⟨hhead p hp, htouch⟩, hwin⟩
    · exact ⟨hhead p hp, Nat.zero_le _⟩

section Late
variable {b c : AroopTxt} {pre post : List Field} {v w : ℤ}

theorem intbuf_small (h0 : 0 ≤ v) (h1 : v < 256) : intbuf v = [0, UInt8.ofNat v.toNat] := by
  rw [intbuf_narrow h0 (by omega)]
  have hhigh : v.toNat / 256 = 0 := by omega
  simp [digits, digit, hhigh]

/-- The messages of all one-byte values differ in the last byte of the field only. -/
theorem message_small (pre post : List Field) :
    ∃ front : Bytes, front.length = packedLength pre + 4 ∧ ∀ u : ℤ, 0 ≤ u → u < 256 →
      message (pre ++ .int u :: post) =
        front ++ (UInt8.ofNat u.toNat :: encode Field.frame post) := by
  refine ⟨digits 2 (packedLength pre + 5 + (encode Field.frame post).length) ++
    encode Field.frame pre ++ [binaryContentInteger, 0, 2, 0], ?_, fun u hu hu' => ?_⟩
  · rw [packedLength_eq pre]
    simp
    omega
  · have hframe : (Field.int u).frame = [binaryContentInteger, 0, 2, 0, UInt8.ofNat u.toNat] := by
      show binaryContentInteger :: digits 2 (intbuf u).length ++ intbuf u = _
      rw [intbuf_small hu hu']
      simp [digits, digit]
    have hlen : packedLength (pre ++ .int u :: post) =
        packedLength pre + 5 + (encode Field.frame post).length := by
      rw [packedLength_append, encode_cons, List.length_append, hframe]
      simp only [List.length_cons, List.length_nil]
      omega
    unfold message
    rw [hlen, encode_append, encode_cons, hframe]
    simp

/-- A call for a field whose body starts past index 255 does not read its last byte: it gives
all one-byte values the same answer. -/
theorem unpackInt_blind (hb : IsMessage b (pre ++ .int v :: post))
    (hc : IsMessage c (pre ++ .int w :: post)) (hcap : b.capacity < 65536)
    (h0 : 0 ≤ v) (h1 : v < 256) (h0' : 0 ≤ w) (h1' : w < 256)
    (hlate : 252 < packedLength pre) (old : ℤ) :
    binaryUnpackInt b pre.length old = binaryUnpackInt c pre.length old := by
  obtain ⟨front, hfront, hmessage⟩ := message_small pre post
  have hmem := hb.mem_eq
  have hmem' := hc.mem_eq
  rw [hmessage v h0 h1] at hmem
  rw [hmessage w h0' h1'] at hmem'
  have hagree : ∀ i < packedLength pre + 4, b.rawAt i = c.rawAt i := by
    intro i hi
    unfold AroopTxt.rawAt
    rw [hmem, hmem', List.append_assoc, List.append_assoc, List.getD_eq_getElem?_getD,
      List.getD_eq_getElem?_getD, List.getElem?_append_left (by omega),
      List.getElem?_append_left (by omega)]
  have hlen : b.len = c.len := by
    rw [hb.len, hc.len, ← message_length, ← message_length, hmessage v h0 h1, hmessage w h0' h1']
    simp
  have hk : (pre ++ .int v :: post)[pre.length]? = some (.int v) := by simp
  have hoffset : fieldOffset (pre ++ .int v :: post) pre.length = packedLength pre := by
    unfold fieldOffset offset
    rw [List.take_left, packedLength_eq]
  obtain ⟨u, hu⟩ : ∃ u, binaryUnpackStringHelper b pre.length binaryContentInteger = u := ⟨_, rfl⟩
  have hsw := hb.startsWith hcap
  have hne : pre ++ .int v :: post ≠ [] := by simp
  -- where the cursor reaches the field, its body is looked for at the front of the message
  have hreads : (∀ t ∈ u.touched, t < packedLength pre + 4) ∧
      ∀ i < u.window.len, i < 4 → u.window.start + i < packedLength pre + 4 := by
    by_cases hreach : packedLength pre ≤ 255
    · obtain ⟨-, hwin, htouch⟩ := hsw.unpack_reaches hk (by omega)
      rw [hoffset] at hwin htouch
      simp only [Field.contentType] at hwin htouch
      rw [hu] at hwin htouch
      have hmod : (packedLength pre + 3) % 256 < 3 := by omega
      refine ⟨fun t ht => ?_, fun i hi hi4 => ?_⟩
      · have hlt := htouch t ht
        omega
      · rw [hwin]
        show (packedLength pre + 3) % 256 + i < _
        omega
    · have hloop := hsw.helper_eq_loop hne (e := binaryContentInteger) pre.length
      have hzero : fieldOffset (pre ++ .int v :: post) 0 = 2 := rfl
      obtain ⟨htouch, hwin⟩ := loop_early b (packedLength (pre ++ .int v :: post))
        binaryContentInteger pre.length (p := 2) (by omega)
      rw [hu, hzero] at hloop
      rw [hloop]
      refine ⟨?_, fun i hi hi4 => ?_⟩
      · intro t ht
        rcases List.mem_append.mp ht with hhead | htail
        · simp only [List.mem_cons, List.not_mem_nil, or_false] at hhead
          omega
        · have hle := htouch t htail
          omega
      · dsimp only
        omega
  have hsame : binaryUnpackStringHelper c pre.length binaryContentInteger = u := by
    rw [← hu]
    refine unpack_congr hlen (hagree 0 (by omega)) (hagree 1 (by omega)) fun t ht => ?_
    rw [hu] at ht
    exact hagree t (hreads.1 t ht)
  have hvalue : intOfText (u.text b) = intOfText (u.text c) := by
    refine intOfText_congr rfl fun i hi hi4 => ?_
    unfold Unpacked.text
    rw [window_rawAt, window_rawAt]
    exact hagree _ (hreads.2 i hi hi4)
  unfold binaryUnpackInt
  rw [hsame, hu]
  dsimp only
  rw [hvalue]

/-- An `int` field whose body starts within the first 256 bytes comes back exactly when it is
not negative. Past them, there is a value that does not come back. -/
theorem int_round_trip_iff (L : TxtLib) {buf b : AroopTxt} (hlo : 256 ≤ buf.capacity)
    (hhi : buf.capacity ≤ 65535) {pre post : List Field} {v : ℤ} (hv : -2 ^ 31 ≤ v ∧ v < 2 ^ 31)
    (hp : packFields L (binaryCoderReset L buf) (pre ++ .int v :: post) = some b) :
    (packedLength pre ≤ 252 → (IntRoundTrip b pre.length v ↔ 0 ≤ v)) ∧
      (252 < packedLength pre → ∃ w b', 0 ≤ w ∧ w < 2 ^ 31 ∧
        packFields L (binaryCoderReset L buf) (pre ++ .int w :: post) = some b' ∧
          ¬ IntRoundTrip b' pre.length w) := by
  have hreset := reset_isMessage L (b := buf) (by omega)
  have hcapacity := reset_capacity L buf
  have hmessage {u : ℤ} {d : AroopTxt}
      (hd : packFields L (binaryCoderReset L buf) (pre ++ .int u :: post) = some d) :
      IsMessage d (pre ++ .int u :: post) ∧ d.capacity < 65536 := by
    obtain ⟨hm, hcap⟩ := packFields_isMessage L hreset (by omega) hd
    rw [List.nil_append] at hm
    exact ⟨hm, by omega⟩
  obtain ⟨hm, hcap⟩ := hmessage hp
  constructor
  · intro hearly
    have hk : (pre ++ .int v :: post)[pre.length]? = some (.int v) := by simp
    have hoffset : fieldOffset (pre ++ .int v :: post) pre.length = packedLength pre := by
      unfold fieldOffset offset
      rw [List.take_left, packedLength_eq]
    obtain ⟨rest, hread⟩ := (hm.startsWith hcap).unpackInt_reads hk (by omega)
    unfold IntRoundTrip
    simp only [hread, Prod.mk.injEq, true_and, forall_const]
    exact intOfText_intbuf_iff hv.2 rest
  · intro hlate
    -- a one-byte value is packed into no more bytes
    have hfits (u : ℤ) (hu : 0 ≤ u) (hu' : u < 256) :
        ∃ d, packFields L (binaryCoderReset L buf) (pre ++ .int u :: post) = some d := by
      refine packFields_of_fits L hreset (by omega) ?_
      have hbody : (intbuf u).length ≤ (intbuf v).length := by
        rw [intbuf_small hu hu']
        unfold intbuf
        simp
      have hle := hm.packedLength_le
      have hcapb : b.capacity = buf.capacity := by
        rw [(packFields_isMessage L hreset (by omega) hp).2, hcapacity]
      rw [packedLength_append, encode_cons, List.length_append, Field.frame_length] at hle
      rw [List.nil_append, packedLength_append, encode_cons, List.length_append,
        Field.frame_length]
      simp only [Field.body] at hle ⊢
      omega
    obtain ⟨b₀, hb₀⟩ := hfits 0 (by decide) (by decide)
    obtain ⟨b₁, hb₁⟩ := hfits 1 (by decide) (by decide)
    have hblind := unpackInt_blind (hmessage hb₀).1 (hmessage hb₁).1 (hmessage hb₀).2
      (by decide) (by decide) (by decide) (by decide) hlate 0
    by_cases hzero : IntRoundTrip b₀ pre.length 0
    · refine ⟨1, b₁, by decide, by decide, hb₁, fun hone => ?_⟩
      rw [hzero 0, hone 0] at hblind
      exact absurd hblind (by decide)
    · exact ⟨0, b₀, by decide, by decide, hb₀, hzero⟩

end Late

/-- A port behind a pid. -/
theorem int_round_trip_iff_port :
    ∃ b, packFields .cutting (binaryCoderReset .cutting (.buffer 256))
        ([.int 4711] ++ .int 9399 :: [.str (lit "chat/_welcome")]) = some b ∧
      (packedLength [.int 4711] ≤ 252 → (IntRoundTrip b 1 9399 ↔ (0 : ℤ) ≤ 9399)) := by
  have hreset := reset_isMessage .cutting (b := .buffer 256) (by simp)
  obtain ⟨b, hb⟩ : ∃ b, packFields .cutting (binaryCoderReset .cutting (.buffer 256))
      ([.int 4711] ++ .int 9399 :: [.str (lit "chat/_welcome")]) = some b :=
    packFields_of_fits .cutting hreset (by simp) (by simp; decide)
  exact ⟨b, hb, (int_round_trip_iff .cutting (by simp) (by simp) (by decide) hb).1⟩

/-- The token of a call without a reply is read as 65535. -/
theorem minus_one_read_as_max :
    ∃ b, packFields .cutting (binaryCoderReset .cutting (.buffer 256))
    [.int 4711, .int (-1)] = some b ∧
      binaryUnpackInt b 1 0 = (.ok, 65535) ∧ ¬ IntRoundTrip b 1 (-1) := by
  have hrun : (packFields .cutting (binaryCoderReset .cutting (.buffer 256))
      [.int 4711, .int (-1)]).map (fun b => binaryUnpackInt b 1 0) = some (.ok, 65535) := by
    decide +kernel
  obtain ⟨b, hb, hu⟩ := Option.map_eq_some_iff.mp hrun
  refine ⟨b, hb, hu, fun hr => ?_⟩
  have hone := hr 0
  rw [hu] at hone
  exact absurd hone (by decide)

end Nginz
