import Nginz.BinaryCoder.Unpacking

/-! The message that accompanies a transferred socket: built by
`default_transfer_parallel`, received and fixed up by `on_raw_recv_socket`. -/
namespace Nginz
open BigEndian Framing

/-- The message of `default_transfer_parallel`, in a buffer of capacity `cap`. -/
def transferMessage (L : TxtLib) (cap : ℕ) (destpid protoPort : ℤ) (cmd : Bytes) : AroopTxt :=
  let bin := binaryCoderResetForPid L (.buffer cap) destpid
  let bin := (binaryPackInt L bin protoPort).2
  (binaryPackString L bin cmd).2

/-- The fields of that message. -/
def transferFields (destpid protoPort : ℤ) (cmd : Bytes) : List Field :=
  [.int destpid, .int protoPort, .str cmd]

/-- `pp_recvmsg_helper`: a datagram goes to the front of the offered storage, which keeps
its other bytes, and the length of the text is set to the size of the storage. -/
def ppRecvmsgHelper (storage datagram : Bytes) : AroopTxt :=
  ⟨writeAt storage 0 (datagram.take storage.length), storage.length⟩

/-- The text `on_raw_recv_socket` unpacks. -/
def receivedCommand (storage datagram : Bytes) : AroopTxt :=
  binaryCoderFixup (ppRecvmsgHelper storage datagram)

/-- The number of bytes `recvmsg` copied. -/
def receivedLength (storage datagram : Bytes) : ℕ := min datagram.length storage.length

/-- The indices read by an unpack call and by a use of its result. -/
def Unpacked.reads (u : Unpacked) : List ℕ := u.touched ++ List.range' u.window.start u.window.len

/-- The indices read for the source pid, the port and the command. -/
def commandReads (b : AroopTxt) : List ℕ :=
  (binaryUnpackStringHelper b 0 binaryContentInteger).reads ++
    (binaryUnpackStringHelper b 1 binaryContentInteger).reads ++ (binaryUnpackString b 2).reads

/-- The receiver gets the port and the command, out of received bytes only. -/
structure DeliveredIntact (storage datagram : Bytes) (protoPort : ℤ) (cmd : Bytes) : Prop where
  port : binaryUnpackInt (receivedCommand storage datagram) 1 0 = (.ok, protoPort)
  command : (binaryUnpackString (receivedCommand storage datagram) 2).status = .ok ∧
    ((binaryUnpackString (receivedCommand storage datagram) 2).text
      (receivedCommand storage datagram)).content = cmd
  received : ∀ i ∈ commandReads (receivedCommand storage datagram),
    i < receivedLength storage datagram

/-- When all pack calls succeed, the message is the one of the three fields. -/
theorem transferMessage_eq (L : TxtLib) {cap : ℕ} {destpid protoPort : ℤ} {cmd : Bytes}
    {b : AroopTxt} (h : packFields L (binaryCoderReset L (.buffer cap))
      (transferFields destpid protoPort cmd) = some b) :
    transferMessage L cap destpid protoPort cmd = b := by
  simp only [transferFields, packFields] at h
  split_ifs at h
  exact Option.some.inj h

theorem transferFields_offset (destpid protoPort : ℤ) (cmd : Bytes) :
    fieldOffset (transferFields destpid protoPort cmd) 2 + 3 ≤ 19 ∧
      packedLength (transferFields destpid protoPort cmd) =
        fieldOffset (transferFields destpid protoPort cmd) 2 + 3 + cmd.length := by
  have h0 := intbuf_length_le destpid
  have h1 := intbuf_length_le protoPort
  have ho : fieldOffset (transferFields destpid protoPort cmd) 2 =
      2 + ((intbuf destpid).length + 3 + ((intbuf protoPort).length + 3)) := by
    simp [fieldOffset, offset, transferFields, Field.body]
  constructor
  · omega
  · rw [ho]
    simp only [packedLength, transferFields, Field.body, List.map_cons, List.map_nil, List.sum_cons,
      List.sum_nil]
    omega

theorem recvmsg_rawAt {storage datagram : Bytes} {i : ℕ} (h : i < receivedLength storage datagram) :
    (ppRecvmsgHelper storage datagram).rawAt i = datagram.getD i 0 := by
  simp only [receivedLength, lt_min_iff] at h
  have hl : i < (datagram.take storage.length).length := by simp [h]
  simp only [AroopTxt.rawAt, ppRecvmsgHelper, writeAt, List.take_zero, List.nil_append]
  rw [List.getD_eq_getElem?_getD, List.getElem?_append_left hl]
  simp [List.getD_eq_getElem?_getD, h.2]

/-- The fix-up sets the length of the text to the one in the header. -/
theorem fixup_eq (b : AroopTxt) : binaryCoderFixup b = b.setLength (headerLength b) := by
  rw [binaryCoderFixup]
  split_ifs with h
  · rfl
  · rw [not_not.mp h]; rfl

section Receive
variable {storage : Bytes} {fs : List Field}

theorem received_len (hs : 2 ≤ storage.length) (hp : packedLength fs < 65536) :
    (receivedCommand storage (message fs)).len = packedLength fs := by
  have h2 : 2 ≤ packedLength fs := by rw [packedLength]; omega
  have hr : 2 ≤ receivedLength storage (message fs) := by
    rw [receivedLength, message_length]; omega
  rw [receivedCommand, fixup_eq, AroopTxt.setLength_len, headerLength, recvmsg_rawAt (by omega),
    recvmsg_rawAt (by omega)]
  simp only [message, digits, List.cons_append, List.getD_cons_zero, List.getD_cons_succ]
  exact join_digits hp

theorem received_rawAt {i : ℕ} (h : i < receivedLength storage (message fs)) :
    (receivedCommand storage (message fs)).rawAt i = (message fs).getD i 0 := by
  rw [receivedCommand, fixup_eq]
  exact recvmsg_rawAt h

/-- A message that fits into the storage arrives whole. -/
theorem received_startsWith (hs : 2 ≤ storage.length) (hp : packedLength fs < 65536)
    (hf : packedLength fs ≤ storage.length) :
    StartsWith (receivedCommand storage (message fs)) fs where
  mem := by
    refine ⟨storage.drop (packedLength fs), ?_⟩
    have hall : (message fs).take storage.length = message fs :=
      List.take_of_length_le (by rw [message_length]; exact hf)
    rw [receivedCommand, fixup_eq, AroopTxt.setLength_mem, ppRecvmsgHelper, hall, writeAt,
      message_length, zero_add, List.take_zero, List.nil_append]
  covers := (received_len hs hp).ge
  short := (received_len hs hp).trans_lt hp

end Receive

theorem reads_lt {u : Unpacked} {w : Window} {n : ℕ} (hw : u.window = w)
    (hend : w.start + w.len ≤ n) (ht : ∀ t ∈ u.touched, t < n) : ∀ i ∈ u.reads, i < n := by
  simp only [Unpacked.reads, List.forall_mem_append]
  refine ⟨ht, fun i hi => ?_⟩
  rw [hw] at hi
  simp only [List.mem_range'_1] at hi
  omega

/-- A message no longer than the offered storage is delivered intact. -/
theorem intact_of_fits {storage : Bytes} {destpid protoPort : ℤ} {cmd : Bytes}
    (hs : 128 ≤ storage.length) (hs' : storage.length ≤ 255)
    (hport : 0 ≤ protoPort ∧ protoPort < 2 ^ 31)
    (hf : packedLength (transferFields destpid protoPort cmd) ≤ storage.length) :
    DeliveredIntact storage (message (transferFields destpid protoPort cmd)) protoPort cmd := by
  have hsw : StartsWith (receivedCommand storage (message (transferFields destpid protoPort cmd)))
      (transferFields destpid protoPort cmd) := received_startsWith (by omega) (by omega) hf
  have hshort : packedLength (transferFields destpid protoPort cmd) ≤ 255 := by omega
  have hrl : receivedLength storage (message (transferFields destpid protoPort cmd)) =
      packedLength (transferFields destpid protoPort cmd) := by
    rw [receivedLength, message_length]; omega
  have hread {k : ℕ} {f : Field} (hk : (transferFields destpid protoPort cmd)[k]? = some f) :
      ∀ i ∈ (binaryUnpackStringHelper
        (receivedCommand storage (message (transferFields destpid protoPort cmd))) k
          f.contentType).reads, i < packedLength (transferFields destpid protoPort cmd) := by
    obtain ⟨_, hwin, htouch⟩ := hsw.unpack_field hk (StartsWith.fieldOffset_short hshort hk)
    have hin := fieldWindow_inside hk
    refine reads_lt hwin hin fun t ht => (htouch t ht).trans_le ?_
    simp only [fieldWindow] at hin
    omega
  have hk0 : (transferFields destpid protoPort cmd)[0]? = some (.int destpid) := rfl
  have hk1 : (transferFields destpid protoPort cmd)[1]? = some (.int protoPort) := rfl
  have hk2 : (transferFields destpid protoPort cmd)[2]? = some (.str cmd) := rfl
  constructor
  · exact hsw.unpackInt_field hshort hk1 hport.1 hport.2 0
  · exact hsw.unpackString_field hshort hk2
  · rw [hrl, commandReads]
    simp only [List.forall_mem_append]
    exact ⟨⟨hread hk0, hread hk1⟩, hread hk2⟩

/-- The command of a longer message reaches past the received bytes. -/
theorem fits_of_intact {storage : Bytes} {destpid protoPort : ℤ} {cmd : Bytes}
    (hs : 128 ≤ storage.length)
    (hp : packedLength (transferFields destpid protoPort cmd) < 65536)
    (h : DeliveredIntact storage (message (transferFields destpid protoPort cmd)) protoPort cmd) :
    packedLength (transferFields destpid protoPort cmd) ≤ storage.length := by
  by_contra hlong
  obtain ⟨hoff, htotal⟩ := transferFields_offset destpid protoPort cmd
  have hrl : receivedLength storage (message (transferFields destpid protoPort cmd)) =
      storage.length := by rw [receivedLength, message_length]; omega
  have hfull : StartsWith (.ofBytes (message (transferFields destpid protoPort cmd)))
      (transferFields destpid protoPort cmd) :=
    ⟨⟨[], by simp [AroopTxt.ofBytes]⟩, by simp [AroopTxt.ofBytes], by simpa [AroopTxt.ofBytes]⟩
  have hk : (transferFields destpid protoPort cmd)[2]? = some (.str cmd) := rfl
  obtain ⟨_, hwin, htouch⟩ := hfull.unpack_field hk (by omega)
  have hagree {i : ℕ} (hi : i < 19) :
      (AroopTxt.ofBytes (message (transferFields destpid protoPort cmd))).rawAt i =
        (receivedCommand storage (message (transferFields destpid protoPort cmd))).rawAt i :=
    (received_rawAt (by omega)).symm
  have hsame := unpack_congr
    (b := .ofBytes (message (transferFields destpid protoPort cmd)))
    (c := receivedCommand storage (message (transferFields destpid protoPort cmd)))
    (by rw [received_len (by omega) hp]; simp [AroopTxt.ofBytes]) (hagree (by omega))
    (hagree (by omega)) (k := 2) (e := binaryContentString)
    (fun t ht => hagree (lt_of_lt_of_le (htouch t ht) hoff))
  have hlast := h.received
    (packedLength (transferFields destpid protoPort cmd) - 1) (by
      simp only [commandReads, List.mem_append]
      right
      rw [binaryUnpackString, hsame, Unpacked.reads, List.mem_append]
      right
      simp only [Field.contentType] at hwin
      rw [hwin, List.mem_range'_1]
      simp only [fieldWindow, Field.body]
      omega)
  omega

/-- A transfer delivers its command intact exactly when the packed message is no longer
than the buffer the receiver offers. -/
theorem transfer_intact_iff (L : TxtLib) {cap : ℕ} {storage : Bytes} {destpid protoPort : ℤ}
    {cmd : Bytes} (hcap : 256 ≤ cap) (hcap' : cap < 65536) (hs : 128 ≤ storage.length)
    (hs' : storage.length ≤ 255) (hport : 0 ≤ protoPort ∧ protoPort < 2 ^ 31)
    (hpack : (packFields L (binaryCoderReset L (.buffer cap))
      (transferFields destpid protoPort cmd)).isSome) :
    DeliveredIntact storage (transferMessage L cap destpid protoPort cmd).content protoPort cmd ↔
      packedLength (transferFields destpid protoPort cmd) ≤ storage.length := by
  obtain ⟨b, hb⟩ := Option.isSome_iff_exists.mp hpack
  have hreset := reset_isMessage L (b := .buffer cap) (by simp; omega)
  obtain ⟨hm, hbc⟩ := packFields_isMessage L hreset (by simpa using hcap') hb
  rw [List.nil_append] at hm
  have hlen := hm.packedLength_le
  rw [hbc, reset_capacity, AroopTxt.buffer_capacity] at hlen
  rw [transferMessage_eq L hb, hm.content]
  exact ⟨fits_of_intact hs (by omega), intact_of_fits hs hs' hport⟩

theorem transfer_intact_iff_join :
    DeliveredIntact (List.replicate 128 0)
        (transferMessage .cutting 256 4711 9399 (lit "chat/_hiddenjoin ONE bob\n")).content 9399
        (lit "chat/_hiddenjoin ONE bob\n") ↔
      packedLength (transferFields 4711 9399 (lit "chat/_hiddenjoin ONE bob\n")) ≤
        (List.replicate 128 (0 : UInt8)).length :=
  transfer_intact_iff .cutting (by decide) (by decide) (by simp) (by simp) (by decide)
    (by decide +kernel)

/-- A command of 120 bytes makes a message of 135 bytes. The receiver's text is then
longer than its 128-byte storage, and the command is read past its end. -/
theorem transfer_overruns :
    (packFields .cutting (binaryCoderReset .cutting (.buffer 256))
        (transferFields 4711 9399 (List.replicate 120 97))).isSome ∧
      ¬ DeliveredIntact (List.replicate 128 0)
        (transferMessage .cutting 256 4711 9399 (List.replicate 120 97)).content 9399
        (List.replicate 120 97) := by
  refine ⟨by decide +kernel, fun h => ?_⟩
  have hread := h.received 134 (by decide +kernel)
  exact absurd hread (by decide +kernel)

end Nginz
