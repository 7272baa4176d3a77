import Nginz.BinaryCoder.Unpacking

/-! Receiving on the pipe between processes: the shared receive buffer and the dispatch
of `on_bubbles`. -/
namespace Nginz

/-- `pp_simple_recvmsg_helper`: a datagram goes to the front of the buffer, which keeps
its other bytes, and the length is set to the size of the buffer. -/
def ppSimpleRecvmsgHelper (cmd : AroopTxt) (datagram : Bytes) : AroopTxt :=
  ⟨writeAt cmd.mem 0 (datagram.take cmd.capacity), cmd.capacity⟩

/-- `on_bubbles` on a received datagram: `pmCall` runs the plugins of the space named by
field 1. The result is `none` when an assertion fails. -/
def onBubbles {σ : Type*} (pmCall : Bytes → AroopTxt → σ → Option σ) (recvBuffer : AroopTxt)
    (datagram : Bytes) (s : σ) : Option (AroopTxt × σ) :=
  let recvBuffer := ppSimpleRecvmsgHelper recvBuffer datagram
  (unpackedString recvBuffer 1).bind fun x =>
    if x = [] then some (recvBuffer, s)
    else (pmCall x recvBuffer s).map fun s' => (recvBuffer, s')

section Receive
variable {cmd : AroopTxt}

theorem recv_capacity {datagram : Bytes} :
    (ppSimpleRecvmsgHelper cmd datagram).capacity = cmd.capacity := by
  unfold ppSimpleRecvmsgHelper AroopTxt.capacity
  apply writeAt_length
  simp

/-- A message that fits arrives whole, in front of what the buffer held before. -/
theorem recv_startsWith {fs : List Field} (hc : cmd.capacity < 65536)
    (hf : packedLength fs ≤ cmd.capacity) :
    StartsWith (ppSimpleRecvmsgHelper cmd (message fs)) fs where
  mem := by
    have hall : (message fs).take cmd.capacity = message fs :=
      List.take_of_length_le (by rw [message_length]; exact hf)
    refine ⟨cmd.mem.drop (packedLength fs), ?_⟩
    unfold ppSimpleRecvmsgHelper
    simp [hall, writeAt]
  covers := hf
  short := hc

/-- The dispatch of a message is that of its field 1. -/
theorem onBubbles_message {σ : Type*} (pmCall : Bytes → AroopTxt → σ → Option σ) {fs : List Field}
    {space : Bytes} (hc : cmd.capacity < 65536) (hs : packedLength fs ≤ 255)
    (hf : packedLength fs ≤ cmd.capacity) (hk : fs[1]? = some (.str space)) (hne : space ≠ [])
    (s : σ) :
    onBubbles pmCall cmd (message fs) s =
      (pmCall space (ppSimpleRecvmsgHelper cmd (message fs)) s).map fun s' =>
        (ppSimpleRecvmsgHelper cmd (message fs), s') := by
  have hsw := recv_startsWith hc hf
  unfold onBubbles
  simp only [hsw.unpackedString_field hs hk, Option.bind_some, if_neg hne]

end Receive
end Nginz
