import Nginz.BinaryCoder.IntFields
import Nginz.Parallel.Pipeline

/-! The shared receive buffer: what earlier messages left in it has no influence on how a
message is dispatched and decoded. -/
namespace Nginz

/-- The unpack calls tell two buffers apart in nothing: not in the status and the text, and
not in the status and the value. -/
structure DecodesAlike (b c : AroopTxt) : Prop where
  status : ∀ skip, (binaryUnpackString b skip).status = (binaryUnpackString c skip).status
  text : ∀ skip, ((binaryUnpackString b skip).text b).content =
    ((binaryUnpackString c skip).text c).content
  int : ∀ skip old, binaryUnpackInt b skip old = binaryUnpackInt c skip old

namespace StartsWith
variable {b c : AroopTxt} {fs : List Field}

/-- Every call on a short message reads inside the message only, whatever type it expects and
however many fields it skips, and the field it finds is inside too. -/
theorem unpack_inside (h : StartsWith b fs) (hs : packedLength fs ≤ 255) (hne : fs ≠ []) (k : ℕ)
    (e : UInt8) :
    let u := binaryUnpackStringHelper b k e
    (∀ t ∈ u.touched, t < packedLength fs) ∧ u.window.start + u.window.len ≤ packedLength fs := by
  by_cases hk : k < fs.length
  · have hf : fs[k]? = some fs[k] := List.getElem?_eq_getElem hk
    have hin := fieldWindow_inside hf
    have hoffset := fieldOffset_short hs hf
    simp only [fieldWindow] at hin
    have hz : 0 + k = k := zero_add k
    obtain ⟨-, hwin, htouch⟩ := h.loop_reaches (e := e) (i := 0) (k := k) (by rwa [hz])
      (by rw [hz]; omega)
    rw [hz, Nat.mod_eq_of_lt (by omega)] at hwin
    rw [hz] at htouch
    simp only [h.helper_eq_loop hne, List.forall_mem_append]
    refine ⟨⟨fun t ht => ?_, fun t ht => ?_⟩, ?_⟩
    · simp only [List.mem_cons, List.not_mem_nil, or_false] at ht
      omega
    · have hlt := htouch t ht
      omega
    · rw [hwin]
      split
      · exact hin
      · exact Nat.zero_le _
  · obtain ⟨-, hwin, htouch⟩ := h.unpack_past_end hs hne (not_lt.mp hk) e
    exact ⟨htouch, by rw [hwin]; exact Nat.zero_le _⟩

/-- Two buffers with one message in front have the same bytes there. -/
theorem rawAt_eq (h : StartsWith b fs) (h' : StartsWith c fs) {i : ℕ} (hi : i < packedLength fs) :
    b.rawAt i = c.rawAt i := by
  obtain ⟨stale, hm⟩ := h.mem
  obtain ⟨stale', hm'⟩ := h'.mem
  have hlt : i < (message fs).length := by rwa [message_length]
  unfold AroopTxt.rawAt
  rw [hm, hm', List.getD_eq_getElem?_getD, List.getD_eq_getElem?_getD,
    List.getElem?_append_left hlt, List.getElem?_append_left hlt]

theorem window_content (h : StartsWith b fs) {w : Window} (hw : w.start + w.len ≤ packedLength fs) :
    (w.text b).content = ((message fs).drop w.start).take w.len := by
  obtain ⟨stale, hm⟩ := h.mem
  have hlen : (message fs).length = packedLength fs := message_length fs
  unfold Window.text AroopTxt.content
  dsimp only
  rw [hm, List.drop_append_of_le_length (by omega), List.take_append_of_le_length]
  rw [List.length_drop]
  omega

/-- Only the message counts. -/
theorem decodesAlike (h : StartsWith b fs) (h' : StartsWith c fs) (hl : b.len = c.len)
    (hs : packedLength fs ≤ 255) (hne : fs ≠ []) : DecodesAlike b c := by
  have hpos : 2 ≤ packedLength fs := Nat.le_add_right 2 _
  have hsame (k : ℕ) (e : UInt8) :
      binaryUnpackStringHelper c k e = binaryUnpackStringHelper b k e := by
    refine unpack_congr hl (h.rawAt_eq h' (by omega)) (h.rawAt_eq h' (by omega)) fun t ht => ?_
    exact h.rawAt_eq h' ((h.unpack_inside hs hne k e).1 t ht)
  refine ⟨fun skip => ?_, fun skip => ?_, fun skip old => ?_⟩
  · unfold binaryUnpackString
    rw [hsame]
  · have hin := (h.unpack_inside hs hne skip binaryContentString).2
    unfold binaryUnpackString Unpacked.text
    rw [hsame, h.window_content hin, h'.window_content hin]
  · have hin := (h.unpack_inside hs hne skip binaryContentInteger).2
    have hvalue : intOfText ((binaryUnpackStringHelper b skip binaryContentInteger).text b) =
        intOfText ((binaryUnpackStringHelper b skip binaryContentInteger).text c) := by
      refine intOfText_congr rfl fun i hi _ => ?_
      have hlt : i < (binaryUnpackStringHelper b skip binaryContentInteger).window.len := hi
      unfold Unpacked.text
      rw [window_rawAt, window_rawAt]
      exact h.rawAt_eq h' (by omega)
    unfold binaryUnpackInt
    rw [hsame]
    dsimp only
    rw [hvalue]

end StartsWith

theorem DecodesAlike.unpackedString {b c : AroopTxt} (h : DecodesAlike b c) (skip : ℕ) :
    unpackedString b skip = unpackedString c skip := by
  unfold Nginz.unpackedString
  dsimp only
  rw [h.status, h.text]

/-- A message of at most 255 bytes that the pack calls built is dispatched to the same plugin
space and decoded to the same fields, whatever the receive buffer held before. -/
theorem stale_bytes_irrelevant (L : TxtLib) (hroom : L.room nginzMaxBinaryMsgLen < 65536)
    {buf : AroopTxt} (hlo : 256 ≤ buf.capacity) (hhi : buf.capacity ≤ 65535) (calls : List Field)
    {datagram : Bytes} (hsent : (packAll L (binaryCoderReset L buf) calls).content = datagram)
    (hpacked : 2 < datagram.length) (hshort : datagram.length ≤ 255) {old new : AroopTxt}
    (hold : old.capacity = L.room nginzMaxBinaryMsgLen)
    (hnew : new.capacity = L.room nginzMaxBinaryMsgLen) :
    (∀ spaces, (onBubbles (fun space _ spaces => some (spaces ++ [space])) old datagram
        spaces).map Prod.snd =
      (onBubbles (fun space _ spaces => some (spaces ++ [space])) new datagram spaces).map
        Prod.snd) ∧
      DecodesAlike (ppSimpleRecvmsgHelper old datagram) (ppSimpleRecvmsgHelper new datagram) := by
  have hmax : nginzMaxBinaryMsgLen ≤ L.room nginzMaxBinaryMsgLen := L.le_room _
  have hbig : (255 : ℕ) ≤ nginzMaxBinaryMsgLen := by decide
  have hcapacity := reset_capacity L buf
  have hreset := reset_isMessage L (b := buf) (by omega)
  obtain ⟨kept, -, hm, -⟩ := packAll_sublist L hreset (by omega) calls
  rw [List.nil_append] at hm
  obtain rfl : datagram = message kept := hsent.symm.trans hm.content
  rw [message_length] at hpacked hshort
  have hne : kept ≠ [] := by
    rintro rfl
    exact absurd hpacked (by decide)
  have halike : DecodesAlike (ppSimpleRecvmsgHelper old (message kept))
      (ppSimpleRecvmsgHelper new (message kept)) :=
    (recv_startsWith (by omega) (by omega)).decodesAlike (recv_startsWith (by omega) (by omega))
      (hold.trans hnew.symm) hshort hne
  refine ⟨fun spaces => ?_, halike⟩
  unfold onBubbles
  dsimp only
  rw [halike.unpackedString]
  cases unpackedString (ppSimpleRecvmsgHelper new (message kept)) 1 with
  | none => rfl
  | some space =>
    dsimp only [Option.bind_some]
    split <;> rfl

/-- A request received over zeros and over the bytes of another message. -/
theorem stale_bytes_irrelevant_request :
    DecodesAlike
      (ppSimpleRecvmsgHelper (.buffer 1025) (message [.int 4711, .str (lit "asyncdb/get/request")]))
      (ppSimpleRecvmsgHelper ⟨List.replicate 1025 65, 0⟩
        (message [.int 4711, .str (lit "asyncdb/get/request")])) := by
  have hzeros : (AroopTxt.buffer 1025).capacity = 1025 := AroopTxt.buffer_capacity 1025
  have hold : (⟨List.replicate 1025 65, 0⟩ : AroopTxt).capacity = 1025 := List.length_replicate
  exact (stale_bytes_irrelevant .cutting (by decide)
    (show 256 ≤ (AroopTxt.buffer 256).capacity by simp) (by simp)
    [.int 4711, .str (lit "asyncdb/get/request")] (by decide +kernel) (by decide) (by decide)
    hzeros hold).2

end Nginz
