import Nginz.Net.TransferMessage

/-! What a receiver reads out of a transfer message that may be longer than its buffer: the
port, and as much of the command as arrived. -/
namespace Nginz
open BigEndian Framing

section Cut
variable {storage : Bytes} {fs : List Field} {k : ℕ} {f : Field}

variable (storage) in
/-- Behind the header of a field, the receiver's storage has what arrived of its body. -/
theorem received_body (hk : fs[k]? = some f) :
    (((receivedCommand storage (message fs)).mem.drop (fieldOffset fs k + 3)).take f.body.length) =
      f.body.take (storage.length - (fieldOffset fs k + 3)) := by
  have hin := fieldWindow_inside hk
  simp only [fieldWindow] at hin
  obtain ⟨suf, hsuf⟩ : ∃ suf, (message fs).drop (fieldOffset fs k + 3) = f.body ++ suf := by
    have h2 : (digits 2 (packedLength fs)).length = 2 := digits_length 2 _
    refine ⟨encode Field.frame (fs.drop (k + 1)), ?_⟩
    rw [← List.drop_drop, fieldOffset, ← List.drop_drop, message, List.drop_left' h2,
      drop_offset _ hk]
    simp [Field.frame, digits]
  have hmem : (receivedCommand storage (message fs)).mem =
      (message fs).take storage.length ++ storage.drop (packedLength fs) := by
    rw [receivedCommand, fixup_eq, AroopTxt.setLength_mem, ppRecvmsgHelper, writeAt,
      List.take_zero, List.nil_append, List.length_take, message_length, zero_add]
    rcases le_total storage.length (packedLength fs) with hle | hle
    · rw [min_eq_left hle, List.drop_length, List.drop_of_length_le hle]
    · rw [min_eq_right hle]
  rw [hmem]
  rcases le_total storage.length (packedLength fs) with hle | hle
  · rw [List.drop_of_length_le hle, List.append_nil, List.drop_take, hsuf, List.take_take,
      Nat.min_comm, ← List.take_take, List.take_left]
  · have hall : (message fs).take storage.length = message fs :=
      List.take_of_length_le (by rw [message_length]; exact hle)
    rw [hall, List.drop_append_of_le_length (by rw [message_length]; omega), hsuf,
      List.append_assoc, List.take_left, List.take_of_length_le (by omega)]

variable (storage) in
/-- The call for a field finds its header, although the body may be cut. -/
theorem received_unpack (hk : fs[k]? = some f) (hshort : fieldOffset fs k + 3 ≤ 255)
    (hs : fieldOffset fs k + 3 ≤ storage.length) (hp : packedLength fs < 65536) :
    let u := binaryUnpackStringHelper (receivedCommand storage (message fs)) k f.contentType
    u.status = .ok ∧ u.window = fieldWindow fs k f := by
  have hfull : StartsWith (.ofBytes (message fs)) fs :=
    ⟨⟨[], by simp [AroopTxt.ofBytes]⟩, by simp [AroopTxt.ofBytes], by simpa [AroopTxt.ofBytes]⟩
  obtain ⟨hst, hwin, htouch⟩ := hfull.unpack_field hk hshort
  have hin := fieldWindow_inside hk
  simp only [fieldWindow] at hin
  have hagree {i : ℕ} (hi : i < fieldOffset fs k + 3) :
      (AroopTxt.ofBytes (message fs)).rawAt i =
        (receivedCommand storage (message fs)).rawAt i := by
    refine (received_rawAt ?_).symm
    rw [receivedLength, message_length]
    omega
  have hsame := unpack_congr (b := .ofBytes (message fs))
    (c := receivedCommand storage (message fs))
    (by rw [received_len (by omega) hp]; simp [AroopTxt.ofBytes]) (hagree (by omega))
    (hagree (by omega)) fun i hi => hagree (htouch i hi)
  rw [hsame]
  exact ⟨hst, hwin⟩

end Cut

variable {storage : Bytes} {destpid protoPort : ℤ} {cmd : Bytes}

/-- The command arrives up to the end of the storage. -/
theorem received_command (hs : 128 ≤ storage.length)
    (hp : packedLength (transferFields destpid protoPort cmd) < 65536) :
    unpackedString (receivedCommand storage (message (transferFields destpid protoPort cmd))) 2 =
      some (cmd.take (storage.length -
        (fieldOffset (transferFields destpid protoPort cmd) 2 + 3))) := by
  obtain ⟨hoff, -⟩ := transferFields_offset destpid protoPort cmd
  have hk : (transferFields destpid protoPort cmd)[2]? = some (.str cmd) := rfl
  obtain ⟨hst, hwin⟩ := received_unpack storage hk (by omega) (by omega) hp
  have hcut := received_body storage hk
  simp only [Field.contentType] at hst hwin
  unfold unpackedString binaryUnpackString
  dsimp only
  rw [hst, if_neg (by decide), Unpacked.text, hwin]
  exact congrArg some hcut

theorem received_port (hs : 128 ≤ storage.length)
    (hp : packedLength (transferFields destpid protoPort cmd) < 65536)
    (h0 : 0 ≤ protoPort) (h1 : protoPort < 2 ^ 31) :
    unpackedInt (receivedCommand storage (message (transferFields destpid protoPort cmd))) 1 =
      some protoPort := by
  obtain ⟨hoff, -⟩ := transferFields_offset destpid protoPort cmd
  have hk : (transferFields destpid protoPort cmd)[1]? = some (.int protoPort) := rfl
  have hbody : Field.body (.int protoPort) = intbuf protoPort := rfl
  have hnext : fieldOffset (transferFields destpid protoPort cmd) 2 =
      fieldOffset (transferFields destpid protoPort cmd) 1 + (intbuf protoPort).length + 3 :=
    fieldOffset_succ hk
  obtain ⟨hst, hwin⟩ := received_unpack storage hk (by omega) (by omega) hp
  have hcut := received_body storage hk
  rw [hbody] at hcut
  rw [List.take_of_length_le (l := intbuf protoPort) (by omega)] at hcut
  simp only [Field.contentType] at hst hwin
  unfold unpackedInt binaryUnpackInt
  dsimp only
  rw [hst]
  dsimp only
  rw [if_neg (by decide), Unpacked.text, hwin, Window.text]
  dsimp only [fieldWindow]
  rw [hbody, ← List.take_append_drop (intbuf protoPort).length (List.drop _ _), hcut,
    intOfText_intbuf h0 h1]

/-- The datagram that `default_transfer_parallel` sends with a socket. -/
def transferDatagram (L : TxtLib) (destpid protoPort : ℤ) (cmd : Bytes) : Bytes :=
  (transferMessage L (L.room 255) destpid protoPort cmd).content

/-- What a receiver with the given storage finds in the datagram: the port, and the command or
what is left of it. -/
structure Delivered (storage datagram : Bytes) (protoPort : ℤ) (request : Bytes) : Prop where
  port : unpackedInt (receivedCommand storage datagram) 1 = some protoPort
  request : unpackedString (receivedCommand storage datagram) 2 = some request

/-- How much of a command arrives: nothing if its message does not fit into the buffer of the
sender, and otherwise what the storage has room for behind the other fields. -/
def arrivedLength (L : TxtLib) (storage : Bytes) (destpid protoPort : ℤ) (cmd : Bytes) : ℕ :=
  let packed := packedLength (transferFields destpid protoPort cmd)
  if packed ≤ L.room 255 then storage.length - (packed - cmd.length) else 0

theorem transfer_delivered (L : TxtLib) (hcap : L.room 255 < 65536) (hs : 128 ≤ storage.length)
    (h0 : 0 ≤ protoPort) (h1 : protoPort < 2 ^ 31) (destpid : ℤ) (cmd : Bytes) :
    Delivered storage (transferDatagram L destpid protoPort cmd) protoPort
      (cmd.take (arrivedLength L storage destpid protoPort cmd)) := by
  obtain ⟨hoff, htotal⟩ := transferFields_offset destpid protoPort cmd
  have hroom := L.le_room 255
  have hreset := reset_isMessage L (b := .buffer (L.room 255)) (by simp; omega)
  have hcapacity : (binaryCoderReset L (.buffer (L.room 255))).capacity = L.room 255 := by
    rw [reset_capacity, AroopTxt.buffer_capacity]
  unfold arrivedLength
  by_cases hpack : packedLength (transferFields destpid protoPort cmd) ≤ L.room 255
  · obtain ⟨b, hb⟩ := packFields_of_fits L hreset (by omega)
      (show packedLength ([] ++ transferFields destpid protoPort cmd) ≤ _ by
        rw [List.nil_append]; omega)
    have hdatagram : transferDatagram L destpid protoPort cmd =
        message (transferFields destpid protoPort cmd) := by
      rw [transferDatagram, transferMessage_eq L hb,
        (packFields_isMessage L hreset (by omega) hb).1.content]
      rfl
    have hbehind : packedLength (transferFields destpid protoPort cmd) - cmd.length =
        fieldOffset (transferFields destpid protoPort cmd) 2 + 3 := by omega
    rw [hdatagram, if_pos hpack, hbehind]
    exact ⟨received_port hs (by omega) h0 h1, received_command hs (by omega)⟩
  · -- The command is not packed at all.
    have hints : packedLength ([.int destpid, .int protoPort] : List Field) ≤ 16 := by
      have hlen := intbuf_length_le destpid
      have hlen' := intbuf_length_le protoPort
      simp only [packedLength, List.map_cons, List.map_nil, List.sum_cons, List.sum_nil,
        Field.body]
      omega
    obtain ⟨b, hb⟩ := packFields_of_fits L hreset (by omega)
      (show packedLength ([] ++ [.int destpid, .int protoPort]) ≤ _ by
        rw [List.nil_append]; omega)
    obtain ⟨hm, hbc⟩ := packFields_isMessage L hreset (by omega) hb
    have hsent : (binaryPackInt L (binaryCoderResetForPid L (.buffer (L.room 255)) destpid)
        protoPort).2 = b := by
      simp only [packFields] at hb
      split_ifs at hb
      exact Option.some.inj hb
    have hrefused : packField L b (.str cmd) = (-1, b) :=
      packField_full L hm (by omega) (by rw [hbc, hcapacity]; exact Nat.not_le.mp hpack)
    have hdatagram : transferDatagram L destpid protoPort cmd =
        message [.int destpid, .int protoPort] := by
      unfold transferDatagram transferMessage
      dsimp only
      rw [hsent]
      exact (congrArg (fun r => r.2.content) hrefused).trans hm.content
    have hsw : StartsWith (receivedCommand storage (message [.int destpid, .int protoPort])) _ :=
      received_startsWith (by omega) (by omega) (by omega)
    rw [hdatagram, if_neg hpack]
    exact ⟨hsw.unpackedInt_field (by omega) rfl h0 h1,
      hsw.unpackedString_past_end (by omega) (List.cons_ne_nil _ _) le_rfl⟩

theorem packedLength_transferFields (destpid protoPort : ℤ) (cmd : Bytes) :
    packedLength (transferFields destpid protoPort cmd) =
      (intbuf destpid).length + (intbuf protoPort).length + 11 + cmd.length := by
  simp only [packedLength, transferFields, Field.body, List.map_cons, List.map_nil, List.sum_cons,
    List.sum_nil]
  omega

/-- A command arrives whole if and only if its message fits into the storage. -/
theorem arrived_whole_iff (L : TxtLib) (hs : storage.length ≤ 255) (destpid protoPort : ℤ)
    (hcmd : cmd ≠ []) :
    cmd.length ≤ arrivedLength L storage destpid protoPort cmd ↔
      packedLength (transferFields destpid protoPort cmd) ≤ storage.length := by
  have hroom := L.le_room 255
  have hpos := List.length_pos_of_ne_nil hcmd
  have hpacked := packedLength_transferFields destpid protoPort cmd
  unfold arrivedLength
  dsimp only
  split
  · omega
  · omega

end Nginz
