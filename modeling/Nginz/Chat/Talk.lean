import Nginz.Chat.NamesUnique
import Nginz.Chat.RoomMembers
import Nginz.Chat.Segments

/-! What a client says in a room, in any run of the chat: who is sent it, that it is whole, and
that the name in front of it is the name of that client alone. -/
namespace Nginz
open Transition

/-- A client in a room whose lines the worker reads, and to which no write failed. -/
structure Conversant (w : Worker) (fd : ℤ) (t : ℕ) (c : ChatConnection) (r : ℕ) : Prop where
  slot : w.chats t = some c
  registered : (fd, t) ∈ w.eventLoop
  working : w.quiting = false
  quit : c.state.quit = false
  softQuit : c.state.softQuit = false
  error : c.error = false
  room : c.callbackData = some r

/-! ### Sending to others -/

section Others
variable (W : World) (w : Worker) {t : ℕ}

/-- A broadcast leaves its speaker alone. -/
theorem broadcastCallback_slot (msg : Bytes) :
    (broadcastCallback W w t msg).chats t = w.chats t := by
  have hhelper (users : List ℕ) (text : Bytes) (v : Worker) :
      (users.foldl (fun v other =>
        if some t = some other then v else defaultChatSend W v other text) v).chats t =
          v.chats t := by
    refine run_invariant (P := fun v' : Worker => v'.chats t = v.chats t) (fun v' other hv' => ?_)
      rfl users
    split
    · exact hv'
    · rename_i hother
      exact (send_slot W v' (fun hsame => hother (congrArg some hsame.symm)) text).trans hv'
  unfold broadcastCallback
  split
  · rfl
  · exact hhelper _ _ w

end Others

/-! ### A line of a client in a room -/

namespace Conversant
variable {W : World} {w : Worker} {fd : ℤ} {t : ℕ} {c : ChatConnection} {r : ℕ}
  (h : Conversant w fd t c r)
include h

theorem answering {s : Prop} {q : List LazyObject} {held : Multiset ℕ} (hs : Serving s q held w) :
    Answering w fd t c := by
  obtain ⟨c', hc'⟩ := hs.talking h.registered
  obtain rfl := Option.some.inj (hc'.slot.symm.trans h.slot)
  refine ⟨hc', h.working, ?_⟩
  unfold Worker.leaving
  rw [w.chat_of_some t h.slot, h.quit, h.softQuit]
  rfl

theorem loggedIn (hm : Membership w) : c.state.loggedIn = true := by
  refine hm.loggedIn t c h.slot ?_
  rw [hm.inRoom t c h.slot, h.room]
  rfl

/-- An answer that leaves the client alone is all that comes of its line. -/
theorem read_eq (ha : Answering w fd t c) {line : Bytes} (hlast : line.getLast? = some 10)
    (hlen : line.length < nginzMaxChatMsgSize)
    (hslot : (answerRequest W w t line).chats t = some c) :
    onClientData W w fd t (.data line) = answerRequest W w t line := by
  have hne : line ≠ [] := by
    rintro rfl
    simp at hlast
  have hchat := Worker.chat_of_some _ t hslot
  have hhandled : handleChatRequest W w t line = answerRequest W w t line := by
    unfold handleChatRequest
    rw [if_neg hne, if_neg (not_not.mpr hlast)]
    dsimp only
    rw [hchat, h.error, h.quit, h.softQuit]
    rfl
  have hstays : (answerRequest W w t line).leaving t = false := by
    unfold Worker.leaving
    rw [hchat, h.quit, h.softQuit]
    rfl
  rw [ha.read_eq hlen, hhandled, hstays]
  rfl

/-- A line that is no command goes to the room. -/
theorem talk_eq (ha : Answering w fd t c) (htalk : c.onResponseCallback = some .broadcast)
    {line : Bytes} (hhead : line.head? ≠ some 47) (hlast : line.getLast? = some 10)
    (hlen : line.length < nginzMaxChatMsgSize) :
    onClientData W w fd t (.data line) = broadcastCallback W w t line := by
  have hhanded : handedOn w t line = some (.response .broadcast line) := by
    unfold handedOn
    rw [if_neg fun hcommand => hhead hcommand.1, w.chat_of_some t h.slot, htalk]
    rfl
  have hanswer : answerRequest W w t line = broadcastCallback W w t line := by
    rw [answerRequest_eq, hhanded]
  rw [h.read_eq ha hlast hlen (by rw [hanswer, broadcastCallback_slot, h.slot]), hanswer]

/-- What `/pm` does with its request. -/
theorem pm_eq (ha : Answering w fd t c) (hm : Membership w) {line rest : Bytes}
    (hdispatch : commandHook W.txt line = .dispatch (lit "chat/pm") rest)
    (hdest : (scannerNextToken rest).1 ≠ []) (hmsg : (scannerNextToken rest).2 ≠ []) :
    onCommand W w t line =
      (broadcastPrivateMessage W w t (scannerNextToken rest).1
        (compose W.txt (32 + nginzMaxChatUserNameSize + nginzMaxChatMsgSize)
          [c.name, lit "~", (scannerNextToken rest).2]), 0) := by
  have hvalid : isValidChat w t = true := by
    unfold isValidChat
    rw [w.chat_of_some t h.slot, ha.fd_eq]
    exact decide_eq_true ha.valid
  have hin : c.state.inRoom = true := by
    rw [hm.inRoom t c h.slot, h.room]
    rfl
  unfold onCommand
  rw [hdispatch]
  unfold pluginBridgeCall
  dsimp only
  rw [if_neg (by decide), if_neg (by decide), if_neg (by decide), if_neg (by decide),
    if_neg (by decide), if_pos rfl]
  unfold chatPrivateMessagePlug
  rw [hvalid, w.chat_of_some t h.slot, hin, if_neg (by decide), if_neg (by simp [hdest, hmsg])]

end Conversant

/-- What is sent while a line is answered stays sent. -/
theorem Answering.answer_sent {W : World} {w : Worker} {fd : ℤ} {t : ℕ} {c : ChatConnection}
    (h : Answering w fd t c) {line : Bytes} (hlast : line.getLast? = some 10)
    (hlen : line.length < nginzMaxChatMsgSize) :
    (answerRequest W w t line).sends <+: (onClientData W w fd t (.data line)).sends := by
  have hne : line ≠ [] := by
    rintro rfl
    simp at hlast
  have hhandled : (answerRequest W w t line).sends <+: (handleChatRequest W w t line).sends := by
    unfold handleChatRequest
    rw [if_neg hne, if_neg (not_not.mpr hlast)]
    dsimp only
    split
    · exact (parting_closeClient W _ t).sends_grow
    · exact List.prefix_rfl
  rw [h.read_eq hlen]
  split
  · exact hhandled.trans (parting_end W _ t).sends_grow
  · exact hhandled

theorem commandHook_rest_length {L : TxtLib} {line space rest : Bytes}
    (h : commandHook L line = .dispatch space rest) : rest.length ≤ line.length := by
  have htoken := scannerNextToken_length (line.drop 1)
  have hdrop := List.length_drop (i := 1) (l := line)
  unfold commandHook at h
  dsimp only at h
  split at h
  · simp at h
  · split at h
    · simp at h
    · obtain ⟨-, rfl⟩ := CommandOutcome.dispatch.inj h
      rw [List.length_drop]
      omega

/-- The user of room `r` that a private message for `dest` is for. -/
def privateTo (w : Worker) (r : ℕ) (dest : Bytes) : Option ℕ :=
  (w.users r).find? fun other => (w.chat other).name = dest

section Private
variable {w : Worker} {r u : ℕ} {dest : Bytes}

theorem privateTo_some (hm : Membership w) (h : privateTo w r dest = some u) :
    ∃ d, w.chats u = some d ∧ d.callbackData = some r ∧ d.name = dest := by
  obtain ⟨d, hd, hroom⟩ := (hm.entry u r).mp (List.mem_of_find?_eq_some h)
  have hname := List.find?_some h
  rw [w.chat_of_some u hd] at hname
  exact ⟨d, hd, hroom, of_decide_eq_true hname⟩

theorem privateTo_none (hm : Membership w) (h : privateTo w r dest = none) {d : ChatConnection}
    (hd : w.chats u = some d) (hroom : d.callbackData = some r) : d.name ≠ dest := by
  have hnone := List.find?_eq_none.mp h u ((hm.entry u r).mpr ⟨d, hd, hroom⟩)
  rw [w.chat_of_some u hd] at hnone
  exact of_decide_eq_false (eq_false_of_ne_true hnone)

theorem broadcastPrivateMessage_eq (W : World) {t : ℕ} {c : ChatConnection}
    (hc : w.chats t = some c) (hroom : c.callbackData = some r) (dest text : Bytes) :
    broadcastPrivateMessage W w t dest text =
      match privateTo w r dest with
      | none => w
      | some other => defaultChatSend W w other text := by
  unfold broadcastPrivateMessage
  rw [w.chat_of_some t hc, hroom]
  rfl

end Private

/-! ### In a run of the chat -/

theorem Worker.Credible.name_short {w : Worker} (h : w.Credible) {t : ℕ} {c : ChatConnection}
    (hc : w.chats t = some c) : c.name.length < nginzMaxChatUserNameSize := by
  by_cases hname : c.name = []
  · rw [hname]
    decide
  · exact (h t c hc hname).1.short

/-- A text with the name of a client in front of what is left of its line fits. -/
theorem Worker.Credible.line_whole {w : Worker} (h : w.Credible) {t : ℕ} {c : ChatConnection}
    (hc : w.chats t = some c) {sep text line : Bytes} (hsep : sep.length = 1)
    (htext : text.length ≤ line.length) (hlen : line.length < nginzMaxChatMsgSize) {n : ℕ}
    (hn : nginzMaxChatUserNameSize + nginzMaxChatMsgSize ≤ n) (L : TxtLib) :
    compose L n [c.name, sep, text] = c.name ++ sep ++ text := by
  have hshort := h.name_short hc
  rw [compose_fits L]
  · simp
  · simp only [List.flatten_cons, List.flatten_nil, List.append_nil, List.length_append]
    omega

namespace ChatSystem
variable {ι : Type*} [DecidableEq ι] {L : TxtLib} {W : ι → World} {s : ChatSystem ι} {i : ι}
  {fd : ℤ} {t r : ℕ} {c : ChatConnection} {line : Bytes}

/-- The event loop hands the line of a registered client to `on_client_data`. -/
theorem step_read (hreg : (fd, t) ∈ (s.workers i).eventLoop) :
    (s.step L W (.event i (.clientData fd t (.data line)))).workers i =
      onClientData (W i) (s.workers i) fd t (.data line) := by
  unfold step
  rw [move_worker]
  unfold Worker.on
  exact if_pos hreg

omit [DecidableEq ι] in
/-- A client in a room that hears is logged in. -/
theorem hears_loggedIn (hm : Membership (s.workers i)) {u : ℕ} {d : ChatConnection}
    (hd : (s.workers i).chats u = some d) (hroom : d.callbackData = some r)
    (hhears : (s.workers i).hears u) : s.LoggedIn i u d.name := by
  have hin : d.state.inRoom = true := by
    rw [hm.inRoom u d hd, hroom]
    rfl
  unfold Worker.hears at hhears
  rw [Worker.chat_of_some _ u hd] at hhears
  simp only [Bool.and_eq_true, Bool.not_eq_true', Bool.or_eq_false_iff] at hhears
  exact ⟨d, hd, hm.loggedIn u d hd hin, hhears.1.1.1, hhears.1.1.2, rfl⟩

namespace Audited
variable [Fintype ι] (h : Audited L s) (hc : Conversant (s.workers i) fd t c r)
  (hlast : line.getLast? = some 10) (hlen : line.length < nginzMaxChatMsgSize)
include h hc

/-- The name of a client in a room is its own. -/
theorem name_own (hname : c.name ≠ []) {j : ι} {u : ℕ} (hj : s.LoggedIn j u c.name) :
    j = i ∧ u = t :=
  h.uniqueNames.one c.name hname j u i t hj
    ⟨c, hc.slot, hc.loggedIn (h.sound i).serving.membership, hc.quit, hc.softQuit, rfl⟩

include hlast hlen

theorem talk (htalk : c.onResponseCallback = some .broadcast) (hhead : line.head? ≠ some 47) :
    let w' := (s.step L W (.event i (.clientData fd t (.data line)))).workers i
    ∃ users : List ℕ,
      w'.sends = (s.workers i).sends ++ users.map (fun u => (u, c.name ++ lit ":" ++ line)) ∧
      w'.fdLog = (s.workers i).fdLog ++ (users.filter (s.workers i).hears).map (fun u =>
        .write ((s.workers i).chat u).fd u) ∧
      users.Nodup ∧
      (∀ u, u ∈ users ↔ u ≠ t ∧ ∃ d, (s.workers i).chats u = some d ∧ d.callbackData = some r) := by
  intro w'
  have hserving := (h.sound i).serving
  obtain ⟨users, hsends, hlog, hnodup, hmem⟩ :=
    Membership.broadcast_written hserving.membership (W i) hc.slot hc.room line
  have hstep : w' = broadcastCallback (W i) (s.workers i) t line :=
    (step_read hc.registered).trans
      (hc.talk_eq (hc.answering hserving) htalk hhead hlast hlen)
  refine ⟨users, ?_, hstep ▸ hlog, hnodup, hmem⟩
  rw [hstep, hsends, (h.sound i).credible.line_whole hc.slot (by decide) le_rfl hlen le_rfl]

theorem pm {rest : Bytes} (hW : (W i).txt = L) (hhead : line.head? = some 47)
    (hdispatch : commandHook L line = .dispatch (lit "chat/pm") rest)
    (hdest : (scannerNextToken rest).1 ≠ []) (hmsg : (scannerNextToken rest).2 ≠ []) :
    let s' := s.step L W (.event i (.clientData fd t (.data line)))
    let dest := (scannerNextToken rest).1
    let sent := (privateTo (s.workers i) r dest).toList.map fun u =>
      (u, c.name ++ lit "~" ++ (scannerNextToken rest).2)
    let written := ((privateTo (s.workers i) r dest).toList.filter (s.workers i).hears).map fun u =>
      FdEvent.write ((s.workers i).chat u).fd u
    (s.workers i).sends ++ sent <+: (s'.workers i).sends ∧
      (dest ≠ c.name → (s'.workers i).sends = (s.workers i).sends ++ sent ∧
        (s'.workers i).fdLog = (s.workers i).fdLog ++ written) := by
  intro s' dest sent written
  have hserving := (h.sound i).serving
  have ha := hc.answering hserving
  have hrest : (scannerNextToken rest).2.length ≤ line.length := by
    have htoken := scannerNextToken_length rest
    have hline := commandHook_rest_length hdispatch
    omega
  have hwhole := (h.sound i).credible.line_whole hc.slot (show (lit "~").length = 1 by decide)
    hrest hlen (show nginzMaxChatUserNameSize + nginzMaxChatMsgSize ≤
      32 + nginzMaxChatUserNameSize + nginzMaxChatMsgSize by omega) (W i).txt
  have hanswer : answerRequest (W i) (s.workers i) t line =
      match privateTo (s.workers i) r dest with
      | none => s.workers i
      | some other => defaultChatSend (W i) (s.workers i) other
          (c.name ++ lit "~" ++ (scannerNextToken rest).2) := by
    have hlogged : ((s.workers i).chat t).state.loggedIn = true := by
      rw [Worker.chat_of_some _ t hc.slot]
      exact hc.loggedIn hserving.membership
    have hhanded : handedOn (s.workers i) t line = some (.command line) := if_pos ⟨hhead, hlogged⟩
    rw [answerRequest_eq, hhanded]
    dsimp only
    rw [hc.pm_eq ha hserving.membership (hW ▸ hdispatch) hdest hmsg, if_pos rfl, hwhole,
      broadcastPrivateMessage_eq (W i) hc.slot hc.room]
  have hsent : (answerRequest (W i) (s.workers i) t line).sends = (s.workers i).sends ++ sent := by
    rw [hanswer]
    unfold sent
    cases privateTo (s.workers i) r dest with
    | none => simp
    | some other => exact defaultChatSend_sends (W i) _ other _
  have hlog : (answerRequest (W i) (s.workers i) t line).fdLog =
      (s.workers i).fdLog ++ written := by
    rw [hanswer]
    unfold written
    cases privateTo (s.workers i) r dest with
    | none => simp
    | some other =>
      refine (defaultChatSend_fdLog (W i) _ other _).trans ?_
      by_cases hhears : (s.workers i).hears other
      · simp [hhears]
      · simp [hhears]
  have hread : s'.workers i = onClientData (W i) (s.workers i) fd t (.data line) :=
    step_read hc.registered
  rw [hread]
  refine ⟨hsent ▸ ha.answer_sent hlast hlen, fun hother => ?_⟩
  -- a message to somebody else leaves the client as it was
  have hslot : (answerRequest (W i) (s.workers i) t line).chats t = some c := by
    rw [hanswer]
    cases hto : privateTo (s.workers i) r dest with
    | none => exact hc.slot
    | some other =>
      obtain ⟨d, hd, -, hname⟩ := privateTo_some hserving.membership hto
      have hne : other ≠ t := by
        rintro rfl
        exact hother (hname.symm.trans (congrArg _ (Option.some.inj (hd.symm.trans hc.slot))))
      exact (send_slot (W i) _ hne _).trans hc.slot
  rw [hc.read_eq ha hlast hlen hslot]
  exact ⟨hsent, hlog⟩

end Audited
end ChatSystem

section Runs
variable {ι : Type*} [Fintype ι] [DecidableEq ι] (L : TxtLib) (hcap : L.room 255 < 65536)
  (hcap' : L.room nginzMaxBinaryMsgLen < 65536) (W : ι → World) (hW : ∀ i, (W i).txt = L)
  (pid : ι → ℤ) (myRooms : ι → List Bytes) (hrooms : ∀ i, myRooms i ⊆ defaultRooms) (clock : ι → ℕ)
  (as : List (ChatSystem.Action ι)) (hpublic : ∀ a ∈ as, ChatSystem.PublicCommands L a)
  (h : Along (ChatSystem.step L W) ChatSystem.SparesHandedOff (.start L pid myRooms clock) as)
include hcap hcap' hW hrooms hpublic h

theorem run_audited :
    ChatSystem.Audited L (as.foldl (ChatSystem.step L W) (.start L pid myRooms clock)) :=
  along_invariant (P := ChatSystem.Audited L) (fun _ _ hs ha => hs.step hcap hcap' hW ha.1 ha.2)
    (ChatSystem.start_audited L pid hrooms clock) (along_and hpublic h)

/-- In every run of the chat in which clients use the public commands only and no lazy cleanup
finalizes a connection that was handed off: a line of a client in a room, to which its lines go,
that is no command is sent, whole and behind the name of the client, once to each other client in
the room and to nobody else; it is written, once, to those of them that are not about to quit and
have a descriptor; and nobody else in the whole chat is logged in under that name. -/
theorem talk_attributed {i : ι} {fd : ℤ} {t r : ℕ} {c : ChatConnection} {line : Bytes}
    (hc : Conversant ((as.foldl (ChatSystem.step L W) (.start L pid myRooms clock)).workers i)
      fd t c r)
    (htalk : c.onResponseCallback = some .broadcast) (hhead : line.head? ≠ some 47)
    (hlast : line.getLast? = some 10) (hlen : line.length < nginzMaxChatMsgSize) :
    let s := as.foldl (ChatSystem.step L W) (.start L pid myRooms clock)
    let w' := (s.step L W (.event i (.clientData fd t (.data line)))).workers i
    ∃ users : List ℕ,
      w'.sends = (s.workers i).sends ++ users.map (fun u => (u, c.name ++ lit ":" ++ line)) ∧
      w'.fdLog = (s.workers i).fdLog ++ (users.filter (s.workers i).hears).map (fun u =>
        .write ((s.workers i).chat u).fd u) ∧
      users.Nodup ∧
      (∀ u, u ∈ users ↔ u ≠ t ∧ ∃ d, (s.workers i).chats u = some d ∧ d.callbackData = some r) ∧
      (c.name ≠ [] → ∀ j u, s.LoggedIn j u c.name → j = i ∧ u = t) := by
  have hs := run_audited L hcap hcap' W hW pid myRooms hrooms clock as hpublic h
  obtain ⟨users, hsends, hlog, hnodup, hmem⟩ := hs.talk hc hlast hlen htalk hhead
  exact ⟨users, hsends, hlog, hnodup, hmem, fun hname j u hj => hs.name_own hc hname hj⟩

/-- In such a run a private message goes to one client at most, and to one if the room has one
of the given name: a client of the room with that name, which is the only one in the whole chat
that is logged in under it. It is whole. Unless the client writes to itself nobody else is sent
anything, and it is written, once, if that client is not about to quit and has a descriptor;
then the client is logged in under the name. -/
theorem private_message_delivered {i : ι} {fd : ℤ} {t r : ℕ} {c : ChatConnection}
    {line rest : Bytes}
    (hc : Conversant ((as.foldl (ChatSystem.step L W) (.start L pid myRooms clock)).workers i)
      fd t c r)
    (hhead : line.head? = some 47) (hlast : line.getLast? = some 10)
    (hlen : line.length < nginzMaxChatMsgSize)
    (hdispatch : commandHook L line = .dispatch (lit "chat/pm") rest)
    (hdest : (scannerNextToken rest).1 ≠ []) (hmsg : (scannerNextToken rest).2 ≠ []) :
    let s := as.foldl (ChatSystem.step L W) (.start L pid myRooms clock)
    let w' := (s.step L W (.event i (.clientData fd t (.data line)))).workers i
    let dest := (scannerNextToken rest).1
    let text := c.name ++ lit "~" ++ (scannerNextToken rest).2
    ∃ receiver : Option ℕ,
      (∀ u, receiver = some u → (∃ d, (s.workers i).chats u = some d ∧ d.callbackData = some r ∧
          d.name = dest) ∧
        ((s.workers i).hears u → s.LoggedIn i u dest) ∧
        (s.LoggedIn i u dest → ∀ j v, s.LoggedIn j v dest → j = i ∧ v = u)) ∧
      (receiver = none → ∀ u d, (s.workers i).chats u = some d → d.callbackData = some r →
        d.name ≠ dest) ∧
      (s.workers i).sends ++ (receiver.toList.map fun u => (u, text)) <+: w'.sends ∧
      (dest ≠ c.name →
        w'.sends = (s.workers i).sends ++ receiver.toList.map (fun u => (u, text)) ∧
        w'.fdLog = (s.workers i).fdLog ++ (receiver.toList.filter (s.workers i).hears).map
          fun u => .write ((s.workers i).chat u).fd u) := by
  intro s w' dest text
  have hs := run_audited L hcap hcap' W hW pid myRooms hrooms clock as hpublic h
  have hm : Membership (s.workers i) := (hs.sound i).serving.membership
  obtain ⟨hsent, hexact⟩ := hs.pm hc hlast hlen (hW i) hhead hdispatch hdest hmsg
  refine ⟨privateTo (s.workers i) r dest, fun u hu => ⟨privateTo_some hm hu, fun hhears => ?_,
    fun hl j v hv => ?_⟩, fun hnone u d => privateTo_none hm hnone, hsent, hexact⟩
  · obtain ⟨d, hd, hroom, hname⟩ := privateTo_some hm hu
    exact hname ▸ ChatSystem.hears_loggedIn hm hd hroom hhears
  · exact hs.uniqueNames.one dest hdest j v i u hv hl

end Runs

/-- Two workers, with two rooms each. -/
def twoPids : Bool → ℤ := fun i => cond i 4713 4712

def twoRooms : Bool → List Bytes :=
  fun i => cond i [lit "TWO", lit "THREE"] [lit "ONE", lit "TWO"]

/-- Two clients log in at the first worker and join its first room. -/
def annAndBob : List (ChatSystem.Action Bool) :=
  [.serve false, .serve false, .serve true, .serve true,
    .accept 4712 1, .receive false 0 5 0 (List.replicate 128 0),
    .event false (.clientData 5 0 (.data (lit "ann\n"))), .serve false, .deliver false,
    .event false (.clientData 5 0 (.data (lit "/join ONE\n"))), .serve false, .deliver false,
    .serve false, .serve false, .accept 4712 2, .receive false 0 6 1 (List.replicate 128 0),
    .event false (.clientData 6 1 (.data (lit "bob\n"))), .serve false, .deliver false,
    .event false (.clientData 6 1 (.data (lit "/join ONE\n"))), .serve false, .deliver false]

/-- The connection of the second one. -/
def bob : ChatConnection where
  fd := 6
  error := false
  state := ⟨true, true, false, false, false⟩
  name := lit "bob"
  onResponseCallback := some .broadcast
  callbackData := some 0
  quitedAt := 0
  refs := 2

/-- It is there behind the run. -/
theorem bob_conversant :
    Conversant ((annAndBob.foldl (ChatSystem.step .cutting fun _ => .calm)
      (.start .cutting twoPids twoRooms fun _ => 1)).workers false) 6 1 bob 0 := by
  constructor <;> decide +kernel

theorem annAndBob_spares : Along (ChatSystem.step .cutting fun _ => .calm)
    ChatSystem.SparesHandedOff (.start .cutting twoPids twoRooms fun _ => 1) annAndBob :=
  ⟨trivial, trivial, trivial, trivial, trivial, trivial, trivial, trivial, trivial, trivial,
    trivial, trivial, trivial, trivial, trivial, trivial, trivial, trivial, trivial, trivial,
    trivial, trivial, trivial⟩

theorem talk_attributed_bob :
    let s := annAndBob.foldl (ChatSystem.step .cutting fun _ => .calm)
      (.start .cutting twoPids twoRooms fun _ => 1)
    let w' := (s.step .cutting (fun _ => .calm)
      (.event false (.clientData 6 1 (.data (lit "hi\n"))))).workers false
    ∃ users : List ℕ,
      w'.sends =
        (s.workers false).sends ++ users.map (fun u => (u, bob.name ++ lit ":" ++ lit "hi\n")) ∧
      w'.fdLog = (s.workers false).fdLog ++ (users.filter (s.workers false).hears).map (fun u =>
        .write ((s.workers false).chat u).fd u) ∧
      users.Nodup ∧
      (∀ u, u ∈ users ↔
        u ≠ 1 ∧ ∃ d, (s.workers false).chats u = some d ∧ d.callbackData = some 0) ∧
      (bob.name ≠ [] → ∀ j u, s.LoggedIn j u bob.name → j = false ∧ u = 1) :=
  talk_attributed .cutting (by decide) (by decide) (fun _ => .calm) (fun _ => rfl) twoPids twoRooms
    (by decide +kernel) (fun _ => 1) annAndBob (by decide +kernel) annAndBob_spares bob_conversant
    rfl (by decide) (by decide) (by decide)

theorem private_message_delivered_ann :
    let s := annAndBob.foldl (ChatSystem.step .cutting fun _ => .calm)
      (.start .cutting twoPids twoRooms fun _ => 1)
    let w' := (s.step .cutting (fun _ => .calm)
      (.event false (.clientData 6 1 (.data (lit "/pm ann hi\n"))))).workers false
    let dest := (scannerNextToken (lit "ann hi\n")).1
    let text := bob.name ++ lit "~" ++ (scannerNextToken (lit "ann hi\n")).2
    ∃ receiver : Option ℕ,
      (∀ u, receiver = some u → (∃ d, (s.workers false).chats u = some d ∧
          d.callbackData = some 0 ∧ d.name = dest) ∧
        ((s.workers false).hears u → s.LoggedIn false u dest) ∧
        (s.LoggedIn false u dest → ∀ j v, s.LoggedIn j v dest → j = false ∧ v = u)) ∧
      (receiver = none → ∀ u d, (s.workers false).chats u = some d → d.callbackData = some 0 →
        d.name ≠ dest) ∧
      (s.workers false).sends ++ (receiver.toList.map fun u => (u, text)) <+: w'.sends ∧
      (dest ≠ bob.name →
        w'.sends = (s.workers false).sends ++ receiver.toList.map (fun u => (u, text)) ∧
        w'.fdLog = (s.workers false).fdLog ++
          (receiver.toList.filter (s.workers false).hears).map
            fun u => .write ((s.workers false).chat u).fd u) :=
  private_message_delivered .cutting (by decide) (by decide) (fun _ => .calm) (fun _ => rfl)
    twoPids twoRooms (by decide +kernel) (fun _ => 1) annAndBob (by decide +kernel)
    annAndBob_spares bob_conversant (by decide) (by decide) (by decide) (by decide +kernel)
    (by decide +kernel) (by decide +kernel)

end Nginz
