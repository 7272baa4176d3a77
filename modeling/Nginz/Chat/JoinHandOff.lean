import Nginz.Chat.Routine
import Nginz.Chat.Keys

/-! The hand-off of a joining connection: the room comes out of the key of the host's
reply, and room and name out of the command that travels with the socket. -/
namespace Nginz

/-- A room name that the key conversion can hold. -/
structure ValidRoom (room : Bytes) : Prop where
  nonempty : room ≠ []
  short : room.length ≤ 54
  token : ∀ x ∈ room, isSeparator x = false

section Command
variable (L : TxtLib) {room name : Bytes}

/-- The 64-byte buffer holds the key, and the prefix is shifted away. -/
theorem roomOfPidKey_of_key (h : ValidRoom room) :
    roomOfPidKey L (lit "room/pid/" ++ room) = room := by
  have hkey : (lit "room/pid/").length = 9 := by decide
  have hshort := h.short
  unfold roomOfPidKey
  rw [compose_fits L (by simp [hkey]; omega)]
  simp

/-- The 128-byte buffer holds the command, also when there is no name. -/
theorem hiddenjoinCommand_eq (h : ValidRoom room) (hs : name.length < nginzMaxChatUserNameSize) :
    hiddenjoinCommand L room name =
      lit "chat/_hiddenjoin" ++ 32 :: ([] ++ (room ++ 32 :: ([] ++ (name ++ [10])))) := by
  have hspace : (lit "chat/_hiddenjoin ").length = 17 := by decide
  have hone : (lit " ").length = 1 := by decide
  have hend : (lit "\n").length = 1 := by decide
  have hr := h.short
  unfold nginzMaxChatUserNameSize at hs
  unfold hiddenjoinCommand
  rw [compose_fits L (by simp [hspace, hone, hend]; omega)]
  show _ = lit "chat/_hiddenjoin" ++ _
  simp [show lit "chat/_hiddenjoin " = lit "chat/_hiddenjoin" ++ [32] by decide,
    show lit " " = [32] by decide, show lit "\n" = [10] by decide]

theorem hiddenjoinCommand_length (h : ValidRoom room)
    (hs : name.length < nginzMaxChatUserNameSize) :
    (hiddenjoinCommand L room name).length ≤ 104 := by
  have hword : (lit "chat/_hiddenjoin").length = 16 := by decide
  have hr := h.short
  rw [hiddenjoinCommand_eq L h hs]
  unfold nginzMaxChatUserNameSize at hs
  simp [hword]
  omega

/-- The first token is the hidden plugin. -/
theorem hiddenjoinCommand_space (h : ValidRoom room) (hs : name.length < nginzMaxChatUserNameSize) :
    (scannerNextToken (hiddenjoinCommand L room name)).1 = lit "chat/_hiddenjoin" := by
  have hfirst := scannerNextToken_word [] (room ++ 32 :: (name ++ [10])) (by simp)
    (show lit "chat/_hiddenjoin" ≠ [] by decide) (by decide +kernel)
      (show isSeparator 32 = true by decide)
  rw [hiddenjoinCommand_eq L h hs]
  exact congrArg Prod.fst hfirst

/-- The other two are the room and the name. -/
theorem hiddenjoinCommand_parsed (h : ValidRoom room) (hn : ValidName name) :
    chatHiddenjoinGetRoomAndName (hiddenjoinCommand L room name) = some (room, name) := by
  have hspace : ∀ x ∈ [(32 : UInt8)], isSeparator x = true := by decide +kernel
  have hfirst := scannerNextToken_word [] (room ++ 32 :: (name ++ [10])) (by simp)
    (show lit "chat/_hiddenjoin" ≠ [] by decide) (by decide +kernel)
      (show isSeparator 32 = true by decide)
  have hsecond := scannerNextToken_word [32] (name ++ [10]) hspace h.nonempty h.token
    (show isSeparator 32 = true by decide)
  have hthird := scannerNextToken_word [32] [] hspace hn.nonempty hn.token
    (show isSeparator 10 = true by decide)
  rw [hiddenjoinCommand_eq L h hn.short]
  unfold chatHiddenjoinGetRoomAndName
  simp only [List.nil_append, List.singleton_append] at hfirst hsecond hthird ⊢
  simp only [hfirst, hsecond, hthird, h.nonempty, hn.nonempty, or_false]
  rw [if_neg (by decide)]

/-- Without a name nobody is logged in by it. -/
theorem hiddenjoinCommand_nameless (h : ValidRoom room) :
    chatHiddenjoinGetRoomAndName (hiddenjoinCommand L room []) = none := by
  have hspace : ∀ x ∈ [(32 : UInt8)], isSeparator x = true := by decide +kernel
  have hfirst := scannerNextToken_word [] (room ++ 32 :: ([] ++ [10])) (by simp)
    (show lit "chat/_hiddenjoin" ≠ [] by decide) (by decide +kernel)
      (show isSeparator 32 = true by decide)
  have hsecond := scannerNextToken_word [32] ([] ++ [10]) hspace h.nonempty h.token
    (show isSeparator 32 = true by decide)
  have hthird : (scannerNextToken [32, 10]).1 = [] := by decide +kernel
  rw [hiddenjoinCommand_eq L h (by decide)]
  unfold chatHiddenjoinGetRoomAndName
  simp only [List.nil_append, List.singleton_append] at hfirst hsecond ⊢
  simp only [hfirst, hsecond, hthird, or_true, ↓reduceIte]

/-- The datagram of a transfer into a room. -/
def joinDatagram (destpid : ℤ) (room name : Bytes) : Bytes :=
  (transferMessage L (L.room 255) destpid nginzChatPort (hiddenjoinCommand L room name)).content

/-- Out of a received datagram the receiver reads the chat port and a command of the hidden
plugin with the given room and name. -/
structure JoinReceived (storage datagram room name : Bytes) : Prop where
  port : unpackedInt (receivedCommand storage datagram) 1 = some nginzChatPort
  command : ∃ x, unpackedString (receivedCommand storage datagram) 2 = some x ∧
    (scannerNextToken x).1 = lit "chat/_hiddenjoin" ∧
    chatHiddenjoinGetRoomAndName x = some (room, name)

/-- A short command fits into the sender's buffer and into the receiver's, which reads all of
it. -/
theorem transferMessage_received {cap : ℕ} (hcap : cap < 65536) (hbig : 128 ≤ cap) {cmd : Bytes}
    (hcmd : cmd.length ≤ 104) (destpid : ℤ) {storage : Bytes} (hs : 128 ≤ storage.length) :
    let received := receivedCommand storage (transferMessage L cap destpid nginzChatPort
      cmd).content
    unpackedInt received 1 = some nginzChatPort ∧ unpackedString received 2 = some cmd := by
  obtain ⟨hoff, htotal⟩ := transferFields_offset destpid nginzChatPort cmd
  have hc : (AroopTxt.buffer cap).capacity = cap := AroopTxt.buffer_capacity _
  have hreset := reset_isMessage L (b := .buffer cap) (by omega)
  have hcapacity : (binaryCoderReset L (.buffer cap)).capacity = cap := by
    rw [reset_capacity, hc]
  have hfits : packedLength (transferFields destpid nginzChatPort cmd) ≤ 128 := by omega
  obtain ⟨b, hb⟩ := packFields_of_fits L hreset (by omega)
    (show packedLength ([] ++ transferFields destpid nginzChatPort cmd) ≤ _ by
      rw [List.nil_append]; omega)
  have hm := (packFields_isMessage L hreset (by omega) hb).1
  have hcontent : (transferMessage L cap destpid nginzChatPort cmd).content =
      message (transferFields destpid nginzChatPort cmd) := by
    rw [transferMessage_eq L hb, hm.content]
    rfl
  have hsw : StartsWith (receivedCommand storage (message _)) _ :=
    received_startsWith (by omega) (by omega) (hfits.trans hs)
  rw [hcontent]
  exact ⟨hsw.unpackedInt_field (hfits.trans (by decide)) rfl (by decide) (by decide),
    hsw.unpackedString_field (hfits.trans (by decide)) rfl⟩

theorem joinDatagram_command (hcap : L.room 255 < 65536) (h : ValidRoom room)
    (hs : name.length < nginzMaxChatUserNameSize) (destpid : ℤ) {storage : Bytes}
    (hstorage : 128 ≤ storage.length) :
    unpackedInt (receivedCommand storage (joinDatagram L destpid room name)) 1 =
      some nginzChatPort ∧
      unpackedString (receivedCommand storage (joinDatagram L destpid room name)) 2 =
        some (hiddenjoinCommand L room name) :=
  transferMessage_received L hcap ((L.le_room 255).trans' (by decide))
    (hiddenjoinCommand_length L h hs) destpid hstorage

/-- The datagram tells the receiver the room and the name. -/
theorem joinDatagram_received (hcap : L.room 255 < 65536) (h : ValidRoom room) (hn : ValidName name)
    (destpid : ℤ) {storage : Bytes} (hs : 128 ≤ storage.length) :
    JoinReceived storage (joinDatagram L destpid room name) room name := by
  obtain ⟨hport, hcommand⟩ := joinDatagram_command L hcap h hn.short destpid hs
  exact ⟨hport, _, hcommand, hiddenjoinCommand_space L h hn.short, hiddenjoinCommand_parsed L h hn⟩

end Command

section Sender
variable (W : World) {w : Worker} {t : ℕ} {c : ChatConnection}

/-- Giving up a connection hands nothing off. -/
theorem oppUnref_handOffs (w : Worker) (t : ℕ) : (oppUnref W w t).handOffs = w.handOffs := by
  have hrelease (w : Worker) : (releaseFd w t).handOffs = w.handOffs := by
    unfold releaseFd
    split
    · dsimp only
      split
      · rfl
      · rfl
    · rfl
  have hlogoff (w : Worker) : (if (w.chat t).state.loggedIn then logoffUser W w t else w).handOffs =
      w.handOffs := by
    unfold logoffUser
    split
    · split
      · rfl
      · rfl
    · rfl
  have hleave (w : Worker) : (if (w.chat t).state.inRoom then broadcastRoomLeave W w t
      else w).handOffs = w.handOffs := by
    split
    · exact (routine_leave W w t).handOffs_eq
    · rfl
  have hclose : (defaultChatClose W w t).handOffs = w.handOffs := by
    unfold defaultChatClose
    rw [hrelease, hlogoff, hleave]
    split
    · split
      · rfl
      · rfl
    · split
      · rfl
      · rfl
  unfold oppUnref
  split
  · rfl
  split
  · exact hclose
  · rfl

/-- The socket of the connection with the datagram, if it has one and the kernel takes it
when `n` operations on descriptors are logged. -/
def handedSocket (W : World) (w : Worker) (c : ChatConnection) (n : ℕ) (destpid : ℤ)
    (datagram : Bytes) : List HandOff :=
  ((w.fds c.fd).filter fun _ => W.rawSendOk n destpid).toList.map fun socket =>
    HandOff.mk destpid socket datagram

/-- A transfer hands off the socket of the connection. -/
theorem chatJoinTransfer_handOffs (hc : w.chats t = some c) (room : Bytes) (destpid : ℤ) :
    ∃ n, (chatJoinTransfer W w t room destpid).handOffs =
      w.handOffs ++ handedSocket W w c n destpid (joinDatagram W.txt destpid room c.name) := by
  have hleave := routine_leave W w t
  obtain ⟨c', hc', hf⟩ := hleave.chats_some hc
  have hqueue (w : Worker) : (lazyCleanup w (.chat t)).handOffs = w.handOffs := by
    unfold lazyCleanup
    dsimp only
    split
    · rfl
    · rfl
  refine ⟨((broadcastRoomLeave W w t).fdLog).length + 2, ?_⟩
  unfold chatJoinTransfer handedSocket
  rw [hqueue, ← hleave.handOffs_eq, ← hleave.fds_eq, ← hf.fd, ← hf.name]
  generalize broadcastRoomLeave W w t = v at hc'
  unfold transferOut defaultTransferParallel ppRawSendSocket Worker.eventLoopUnregisterFd
    Worker.logFd Worker.setState Worker.setChat Worker.chat joinDatagram
  simp only [hc', Option.getD_some, List.length_append, List.length_singleton]
  cases hs : v.fds c'.fd with
  | none => simp
  | some socket =>
    cases W.rawSendOk (v.fdLog.length + 2) destpid
    · simp
    · simp [Option.filter]

/-- A connection whose room is here stays. -/
theorem chatJoinHelper_handOffs (hc : w.chats t = some c) (room : Bytes) (destpid : ℤ) :
    ∃ n, (chatJoinHelper W w t room destpid).handOffs = w.handOffs ++ if destpid = w.pid then []
      else handedSocket W w c n destpid (joinDatagram W.txt destpid room c.name) := by
  unfold chatJoinHelper
  by_cases hown : destpid = w.pid
  · refine ⟨0, ?_⟩
    rw [if_neg (not_not.mpr hown), if_pos hown, (join_keeps W w t room).2.1,
      List.append_nil]
  · simp only [hown, ↓reduceIte, ne_eq, not_false_eq_true]
    exact chatJoinTransfer_handOffs W hc room destpid

/-- The host's reply moves an open connection to another process than its own. -/
theorem onAsyncchatRoomPid_handOffs (hc : w.chats t = some c) {room : Bytes} (h : ValidRoom room)
    (pidstr : Bytes) :
    let destpid := txtToInt (compose W.txt 32 [pidstr])
    ∃ n, (onAsyncchatRoomPid W w t (lit "room/pid/" ++ room) pidstr).handOffs = w.handOffs ++
      if (c.state.quit || c.state.softQuit || c.state.zombie) ∨ destpid ≤ 0 ∨
        destpid = w.pid then []
      else handedSocket W w c n destpid (joinDatagram W.txt destpid room c.name) := by
  intro destpid
  let w₁ := w.setChat t fun c => { c with refs := c.refs + 1 }
  have hc₁ : w₁.chats t = some { c with refs := c.refs + 1 } := by
    simp [w₁, hc]
  have hget : chatGet w t = (w₁, if c.state.quit || c.state.softQuit || c.state.zombie then none
      else some t) := by
    unfold chatGet
    rw [hc]
    dsimp only
    split
    · rfl
    · rfl
  unfold onAsyncchatRoomPid
  rw [roomOfPidKey_of_key W.txt h, hget]
  by_cases hend : (c.state.quit || c.state.softQuit || c.state.zombie) = true
  · refine ⟨0, ?_⟩
    simp only [hend, ↓reduceIte, true_or, List.append_nil]
    rfl
  simp only [hend, ↓reduceIte, false_or, h.nonempty, or_false, Bool.false_eq_true]
  by_cases hpid : destpid ≤ 0
  · refine ⟨0, ?_⟩
    rw [if_pos hpid, if_pos (Or.inl hpid), oppUnref_handOffs, (routine_send W w₁ t _).handOffs_eq,
      List.append_nil]
    rfl
  have hsend := routine_send W w₁ t
    (compose W.txt 64 [lit "Trying ...(" ++ decimal destpid ++ lit ")\n"])
  obtain ⟨c₂, hc₂, hf⟩ := hsend.chats_some hc₁
  obtain ⟨n, hn⟩ := chatJoinHelper_handOffs W hc₂ room destpid
  refine ⟨n, ?_⟩
  simp only [hpid, false_or]
  rw [if_neg hpid, oppUnref_handOffs]
  refine hn.trans ?_
  unfold handedSocket
  rw [hsend.handOffs_eq, hsend.fds_eq, hsend.pid_eq, hf.fd, hf.name]
  rfl

end Sender

/-- A room comes out of its key, a transfer sends it with the name of its connection, and
the receiver finds both. -/
theorem join_round_trip (W : World) (hcap : W.txt.room 255 < 65536) {room name : Bytes}
    (hroom : ValidRoom room) (hname : ValidName name) :
    roomOfPidKey W.txt (lit "room/pid/" ++ room) = room ∧
      (∀ (w : Worker) (t : ℕ) (c : ChatConnection) (pidstr : Bytes), w.chats t = some c →
        c.name = name →
        let destpid := txtToInt (compose W.txt 32 [pidstr])
        ∃ n, (onAsyncchatRoomPid W w t (lit "room/pid/" ++ room) pidstr).handOffs = w.handOffs ++
          if (c.state.quit || c.state.softQuit || c.state.zombie) ∨ destpid ≤ 0 ∨ destpid = w.pid
          then []
          else handedSocket W w c n destpid (joinDatagram W.txt destpid room name)) ∧
      (∀ (w : Worker) (t : ℕ) (c : ChatConnection) (destpid : ℤ), w.chats t = some c →
        c.name = name → ∃ n, (chatJoinTransfer W w t room destpid).handOffs =
          w.handOffs ++ handedSocket W w c n destpid (joinDatagram W.txt destpid room name)) ∧
      ∀ (destpid : ℤ) (storage : Bytes), 128 ≤ storage.length →
        JoinReceived storage (joinDatagram W.txt destpid room name) room name := by
  refine ⟨roomOfPidKey_of_key W.txt hroom, ?_, ?_, fun destpid storage hs => ?_⟩
  · rintro w t c pidstr hc rfl
    exact onAsyncchatRoomPid_handOffs W hc hroom pidstr
  · rintro w t c destpid hc rfl
    exact chatJoinTransfer_handOffs W hc room destpid
  · exact joinDatagram_received W.txt hcap hroom hname destpid hs

theorem join_round_trip_bob :
    JoinReceived (List.replicate 128 0) (joinDatagram .cutting 4711 (lit "ONE") (lit "bob"))
      (lit "ONE") (lit "bob") :=
  (join_round_trip .calm (by decide) ⟨by decide, by decide, by decide +kernel⟩
    ⟨by decide, by decide, by decide +kernel⟩).2.2.2 4711 (List.replicate 128 0) (by simp)

end Nginz
