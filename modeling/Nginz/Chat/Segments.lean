import Nginz.Chat.Replies
import Nginz.Chat.ServingEnds
import Nginz.Lib.Cuts

/-! The bytes of one client as they arrive at its worker: each result of `recv` is taken as
one request, and it is delivered only while the socket is registered. -/
namespace Nginz

/-- `cannot_process`. -/
def cannotProcess : Bytes := lit "Cannot process the request\n"

/-- What `handle_chat_request` hands a request on to: `on_command`, or the callback that
waits for the next line, to log in or to broadcast. -/
inductive ClientRequest where
  | command (request : Bytes)
  | response (callback : ResponseCallback) (request : Bytes)
  deriving DecidableEq, Repr

def handedOn (w : Worker) (t : ℕ) (request : Bytes) : Option ClientRequest :=
  if request.head? = some 47 ∧ (w.chat t).state.loggedIn then some (.command request)
  else (w.chat t).onResponseCallback.map fun callback => .response callback request

/-- What becomes of a chunk that `on_client_data` reads. -/
def requestOf (w : Worker) (t : ℕ) (chunk : Bytes) : Option ClientRequest :=
  if w.quiting || (w.chat t).state.quit || (w.chat t).state.softQuit then none
  else if chunk.length ≥ nginzMaxChatMsgSize ∨ chunk.getLast? ≠ some 10 then none
  else handedOn w t chunk

/-- A worker, and what its client's bytes were handed on as so far. -/
structure Conversation where
  worker : Worker
  requests : List ClientRequest

/-- A chunk that arrives; the event loop delivers it while the socket is registered. -/
def Conversation.receive (W : World) (fd : ℤ) (t : ℕ) (s : Conversation) (chunk : Bytes) :
    Conversation :=
  let e := WorkerEvent.clientData fd t (.data chunk)
  ⟨s.worker.on W e,
    if s.worker.Enabled e then s.requests ++ (requestOf s.worker t chunk).toList else s.requests⟩

def converse (W : World) (w : Worker) (fd : ℤ) (t : ℕ) (chunks : List Bytes) : Conversation :=
  chunks.foldl (Conversation.receive W fd t) ⟨w, []⟩

/-- What is left of a conversation: the state of the connection, the requests that were
handed on, the calls of the store and what was sent to whom. -/
structure Observation where
  connection : Option ChatConnection
  requests : List ClientRequest
  calls : List DbCall
  sends : List (ℕ × Bytes)
  deriving DecidableEq

def Conversation.observe (s : Conversation) (t : ℕ) : Observation :=
  ⟨s.worker.chats t, s.requests, s.worker.calls, s.worker.sends⟩

/-- A client that is registered with its own descriptor and with nobody else's. -/
structure Talking (w : Worker) (fd : ℤ) (t : ℕ) (c : ChatConnection) : Prop where
  slot : w.chats t = some c
  fd_eq : c.fd = fd
  valid : fd ≠ invalidFd
  zombie : c.state.zombie = false
  registered : (fd, t) ∈ w.eventLoop
  numbers : (w.eventLoop.map Prod.fst).Nodup

/-- A worker talks to all its registered clients. -/
theorem Serving.talking {s : Prop} {q : List LazyObject} {held : Multiset ℕ} {w : Worker} {fd : ℤ}
    {t : ℕ} (h : Serving s q held w) (hreg : (fd, t) ∈ w.eventLoop) : ∃ c, Talking w fd t c := by
  obtain ⟨c, hc, hfd, hvalid, -⟩ := h.entry fd t hreg
  refine ⟨c, hc, hfd, hvalid, ?_, hreg, h.numbers⟩
  by_contra hz
  have hinvalid := (h.zombie t c hc (by simpa using hz)).1
  exact hvalid (hfd.symm.trans hinvalid)

/-! ### Nothing is taken back -/

section Grow
variable (W : World) (w : Worker) (t : ℕ)

theorem bridge_sends (space request : Bytes) :
    w.sends <+: (pluginBridgeCall W w t space request).1.sends := by
  unfold pluginBridgeCall
  split
  · exact (routine_welcome W w t).sends
  split
  · show _ <+: (chatHiddenjoinPlug W w t request).sends
    unfold chatHiddenjoinPlug
    split
    · exact List.prefix_rfl
    dsimp only
    split
    · exact List.prefix_rfl
    · refine List.IsPrefix.trans ?_ (join_keeps W _ t _).2.2
      exact List.prefix_rfl
  split
  · exact (routine_joinPlug W w t request).sends
  split
  · exact (routine_leavePlug W w t).sends
  split
  · unfold chatQuitPlug
    split
    · exact List.prefix_rfl
    · refine (routine_leave W w t).sends.trans ?_
      refine List.IsPrefix.trans ?_ (routine_send W _ t _).sends
      refine List.IsPrefix.trans ?_ (parting_logoff W _ t).sends_grow
      exact List.prefix_rfl
  split
  · exact (routine_pm W w t request).sends
  split
  · dsimp only
    split
    · exact (routine_send W w t _).sends
    · exact List.prefix_rfl
  · exact List.prefix_rfl

theorem answer_sends (request : Bytes) : w.sends <+: (answerRequest W w t request).sends := by
  unfold answerRequest
  dsimp only
  split
  · have hcommand : w.sends <+: (onCommand W w t request).1.sends := by
      unfold onCommand
      split
      · exact List.prefix_rfl
      · exact List.prefix_rfl
      · exact bridge_sends W w t _ _
    split
    · exact hcommand
    · exact hcommand.trans (routine_cannotProcess W _ t).sends
  · exact (routine_talk W w t request).sends

theorem handleChatRequest_sends (request : Bytes) :
    w.sends <+: (handleChatRequest W w t request).sends := by
  unfold handleChatRequest
  split
  · exact List.prefix_rfl
  split
  · exact (parting_closeClient W w t).sends_grow
  · have ha := answer_sends W w t request
    dsimp only
    split
    · exact ha.trans (parting_closeClient W _ t).sends_grow
    · exact ha

theorem parting_end : Parting w (oppUnref W (closeClient W w t) t) :=
  (parting_closeClient W w t).trans (parting_unref W _ t)

theorem onClientData_sends (fd : ℤ) (result : RecvResult) :
    w.sends <+: (onClientData W w fd t result).sends := by
  have hend (v : Worker) (hv : w.sends <+: v.sends) :
      w.sends <+: (oppUnref W (closeClient W v t) t).sends :=
        hv.trans (parting_end W v t).sends_grow
  unfold onClientData
  split
  · exact List.prefix_rfl
  split
  · exact hend w List.prefix_rfl
  dsimp only
  split
  · exact hend _ List.prefix_rfl
  · exact hend _ List.prefix_rfl
  split
  · exact hend _ List.prefix_rfl
  rename_i bytes _
  have hhandle := handleChatRequest_sends W (w.assert (fd = (w.chat t).fd)) t bytes
  split
  · exact hend _ hhandle
  · exact hhandle

end Grow

/-! ### The end of a client -/

/-- The client is about to quit or to be handed off. -/
def Worker.leaving (w : Worker) (t : ℕ) : Bool := (w.chat t).state.quit || (w.chat t).state.softQuit

section End
variable (W : World) {w : Worker} {fd : ℤ} {t : ℕ} {c : ChatConnection}

theorem zombieAdd_leaving : (chatZombieAdd w t).leaving t = w.leaving t := by
  unfold chatZombieAdd
  split
  · rfl
  · unfold Worker.leaving Worker.chat Worker.setChat Worker.assert
    cases hc : w.chats t <;> simp [hc]

/-- A close takes the registration of the client away and marks the client. -/
theorem Talking.closed (h : Talking w fd t c) :
    (fd, t) ∉ (closeClient W w t).eventLoop ∧ (closeClient W w t).leaving t = true := by
  obtain ⟨v, d, hclose, hr, hd, hend, -⟩ := close_routine w h.slot W
  obtain ⟨d', hd', hf⟩ := hr.chats_some h.slot
  obtain rfl := Option.some.inj (hd.symm.trans hd')
  rw [logoffUser_if v hd W] at hclose
  have hslot : Function.update v.chats t (some d.loggedOff) t = some d.loggedOff :=
    Function.update_self ..
  have hfd : d.loggedOff.fd = fd := hf.fd.trans h.fd_eq
  unfold closeClient
  constructor
  · intro hmem
    have hnumbers : (v.eventLoop.map Prod.fst).Nodup := by
      rw [hr.eventLoop_eq]
      exact h.numbers
    have hin := (parting_zombieAdd (defaultChatClose W w t) t).eventLoop.subset hmem
    rw [hclose, releaseFd_eq _ hslot (by rw [hfd]; exact h.valid), hfd] at hin
    have herase : (fd, t) ∈ v.eventLoop.eraseP fun e => e.1 = fd := hin
    obtain ⟨xs, ys, -, hsplit, -, hrest⟩ :=
      KeyedEntries.split_at hnumbers (List.mem_of_mem_eraseP herase)
    rw [hsplit] at herase
    exact hrest (fd, t) herase rfl
  · rw [zombieAdd_leaving, hclose, releaseFd_eq _ hslot (by rw [hfd]; exact h.valid)]
    unfold Worker.leaving
    rw [Worker.chat_of_some _ t (Function.update_self ..)]
    exact Bool.or_eq_true_iff.mpr hend

theorem Talking.onlySends (h : Talking w fd t c) {W : World} {w' : Worker} (hs : OnlySends W w w') :
    ∃ c', Talking w' fd t c' := by
  obtain ⟨error, soft, hc⟩ := hs.chats_some h.slot
  refine ⟨_, hc, h.fd_eq, h.valid, h.zombie, ?_, ?_⟩
  · rw [hs.eventLoop_eq]
    exact h.registered
  · rw [hs.eventLoop_eq]
    exact h.numbers

theorem Parting.stays_gone {w' : Worker} (h : Parting w w') (hgone : (fd, t) ∉ w.eventLoop) :
    (fd, t) ∉ w'.eventLoop := fun hmem => hgone (h.eventLoop.subset hmem)

end End

/-! ### One chunk -/

/-- What `answerRequest` does is what the request is handed on to. -/
theorem answerRequest_eq (W : World) (w : Worker) (t : ℕ) (request : Bytes) :
    answerRequest W w t request =
      let refuse (w : Worker) := if w.leaving t then w else defaultChatSend W w t cannotProcess
      match handedOn w t request with
      | some (.command request) =>
        let r := onCommand W w t request
        if r.2 = 0 then r.1 else refuse r.1
      | some (.response .login request) => onAsyncchatLogin W w t request
      | some (.response .broadcast request) => broadcastCallback W w t request
      | none => refuse w := by
  unfold answerRequest handedOn
  by_cases hcommand : request.head? = some 47 ∧ (w.chat t).state.loggedIn = true
  · rw [if_pos hcommand, if_pos hcommand]
    rfl
  · rw [if_neg hcommand, if_neg hcommand]
    cases (w.chat t).onResponseCallback with
    | none => rfl
    | some callback => cases callback <;> rfl

/-- A client whose chunks the worker reads. -/
structure Answering (w : Worker) (fd : ℤ) (t : ℕ) (c : ChatConnection) : Prop
    extends Talking w fd t c where
  working : w.quiting = false
  staying : w.leaving t = false

namespace Answering
variable {W : World} {w : Worker} {fd : ℤ} {t : ℕ} {c : ChatConnection} (h : Answering w fd t c)
  {chunk : Bytes} (hlen : chunk.length < nginzMaxChatMsgSize)
include h hlen

theorem read_eq : onClientData W w fd t (.data chunk) =
    if (handleChatRequest W w t chunk).leaving t then
      oppUnref W (closeClient W (handleChatRequest W w t chunk) t) t
    else handleChatRequest W w t chunk := by
  have hassert : w.assert (fd = (w.chat t).fd) = w := by
    rw [w.chat_of_some t h.slot, h.fd_eq]
    simp [Worker.assert]
  have hstay := h.staying
  unfold Worker.leaving at hstay
  unfold onClientData
  rw [h.working, hstay, hassert]
  dsimp only
  rw [if_neg (by decide), if_neg (by decide), if_neg (not_le.mpr hlen)]
  rfl

theorem requestOf_eq : requestOf w t chunk =
    if chunk.getLast? = some 10 then handedOn w t chunk else none := by
  have hstay := h.staying
  unfold Worker.leaving at hstay
  unfold requestOf
  rw [h.working, Bool.false_or, hstay, if_neg (by decide)]
  by_cases hlast : chunk.getLast? = some 10
  · rw [if_neg (by simp [hlast, hlen]), if_pos hlast]
  · rw [if_pos (Or.inr hlast), if_neg hlast]

/-- A chunk that ends inside a line ends the client. -/
theorem unterminated (hne : chunk ≠ []) (hlast : chunk.getLast? ≠ some 10) :
    Parting w (onClientData W w fd t (.data chunk)) ∧
      (fd, t) ∉ (onClientData W w fd t (.data chunk)).eventLoop := by
  have hclosed : handleChatRequest W w t chunk = closeClient W w t := by
    unfold handleChatRequest
    rw [if_neg hne, if_pos hlast]
  obtain ⟨hgone, hleaving⟩ := h.toTalking.closed W
  rw [h.read_eq hlen, hclosed, if_pos hleaving]
  have hend := parting_end W (closeClient W w t) t
  exact ⟨(parting_closeClient W w t).trans hend, hend.stays_gone hgone⟩

/-- A line that nobody takes is refused. -/
theorem refusal_sent (hlast : chunk.getLast? = some 10) (hnone : handedOn w t chunk = none) :
    w.sends ++ [(t, cannotProcess)] <+: (onClientData W w fd t (.data chunk)).sends := by
  have hne : chunk ≠ [] := by
    rintro rfl
    simp at hlast
  have hanswer : answerRequest W w t chunk = defaultChatSend W w t cannotProcess := by
    rw [answerRequest_eq, hnone]
    dsimp only
    rw [h.staying, if_neg (by decide)]
  have hhandled : w.sends ++ [(t, cannotProcess)] <+: (handleChatRequest W w t chunk).sends := by
    rw [← defaultChatSend_sends W]
    unfold handleChatRequest
    rw [if_neg hne, if_neg (not_not.mpr hlast), hanswer]
    dsimp only
    split
    · exact (parting_closeClient W _ t).sends_grow
    · exact List.prefix_rfl
  rw [h.read_eq hlen]
  split
  · exact hhandled.trans (parting_end W _ t).sends_grow
  · exact hhandled

end Answering

/-! ### Empty lines -/

/-- Nobody waits for a line of the client. -/
structure Refusing (w : Worker) (fd : ℤ) (t : ℕ) (c : ChatConnection) : Prop
    extends Answering w fd t c where
  silent : c.onResponseCallback = none

/-- The refusal behind `n` others finds the connection in trouble, or its write fails. -/
def RefusalFails (W : World) (w : Worker) (t : ℕ) (c : ChatConnection) (n : ℕ) : Prop :=
  c.error = true ∨ W.sendFails (w.fdLog.length + n) t = true

/-- A worker behind a refusal that went out. -/
def Worker.refusing (w : Worker) (fd : ℤ) (t : ℕ) : Worker :=
  { w with sends := w.sends ++ [(t, cannotProcess)], fdLog := w.fdLog ++ [.write fd t] }

/-- A chunk of empty lines. -/
structure EmptyLines (chunk : Bytes) : Prop where
  nonempty : chunk ≠ []
  newlines : ∀ b ∈ chunk, b = 10
  below : chunk.length < nginzMaxChatMsgSize

theorem EmptyLines.ends {chunk : Bytes} (h : EmptyLines chunk) :
    chunk.head? = some 10 ∧ chunk.getLast? = some 10 := by
  obtain ⟨b, bs, rfl⟩ := List.exists_cons_of_ne_nil h.nonempty
  rw [List.getLast?_eq_some_getLast h.nonempty, h.newlines _ (List.getLast_mem h.nonempty),
    List.head?_cons, h.newlines b List.mem_cons_self]
  exact ⟨rfl, rfl⟩

namespace Refusing
variable {W : World} {w : Worker} {fd : ℤ} {t : ℕ} {c : ChatConnection} (h : Refusing w fd t c)
include h

theorem handedOn_none {chunk : Bytes} (he : chunk.head? = some 10) : handedOn w t chunk = none := by
  unfold handedOn
  rw [he, w.chat_of_some t h.slot, h.silent, if_neg (by simp)]
  rfl

theorem handle_eq {chunk : Bytes} (he : EmptyLines chunk) : handleChatRequest W w t chunk =
    let v := defaultChatSend W w t cannotProcess
    if (v.chat t).error || v.leaving t then closeClient W v t else v := by
  have hanswer : answerRequest W w t chunk = defaultChatSend W w t cannotProcess := by
    rw [answerRequest_eq, h.handedOn_none he.ends.1]
    dsimp only
    rw [h.staying, if_neg (by decide)]
  unfold handleChatRequest
  rw [if_neg he.nonempty, if_neg (not_not.mpr he.ends.2), hanswer]
  unfold Worker.leaving
  dsimp only
  rw [Bool.or_assoc]

theorem requestOf_none {chunk : Bytes} (he : EmptyLines chunk) : requestOf w t chunk = none := by
  rw [h.requestOf_eq he.below, if_pos he.ends.2, h.handedOn_none he.ends.1]

/-- A refusal that goes out changes nothing but the records. -/
theorem goes_on (hok : ¬ RefusalFails W w t c 0) {chunk : Bytes} (he : EmptyLines chunk) :
    onClientData W w fd t (.data chunk) = w.refusing fd t ∧ Refusing (w.refusing fd t) fd t c := by
  simp only [RefusalFails, add_zero, not_or, Bool.not_eq_true] at hok
  have hstay := h.staying
  unfold Worker.leaving at hstay
  rw [w.chat_of_some t h.slot] at hstay
  have hsend : defaultChatSend W w t cannotProcess = w.refusing fd t := by
    unfold defaultChatSend defaultStreamioSendNonblock Worker.refusing Worker.logFd Worker.chat
    simp [h.slot, hstay, h.zombie, h.valid, hok.1, hok.2, h.fd_eq]
  have hchat : (w.refusing fd t).chat t = c := w.chat_of_some t h.slot
  have hstaying : (w.refusing fd t).leaving t = false := h.staying
  have hhandle : handleChatRequest W w t chunk = w.refusing fd t := by
    rw [h.handle_eq he, hsend]
    dsimp only
    rw [hchat, hok.1, hstaying, if_neg (by decide)]
  constructor
  · rw [h.read_eq he.below, hhandle, hstaying, if_neg (by decide)]
  · exact ⟨⟨⟨h.slot, h.fd_eq, h.valid, h.zombie, h.registered, h.numbers⟩, h.working, h.staying⟩,
      h.silent⟩

/-- A refusal that fails ends the client, whatever the number of lines it is for. -/
theorem ends (hfail : RefusalFails W w t c 0) : ∃ v, (fd, t) ∉ v.eventLoop ∧
    ∀ chunk, EmptyLines chunk → onClientData W w fd t (.data chunk) = v := by
  obtain ⟨c', hc'⟩ := h.toTalking.onlySends (onlySends_send W w t cannotProcess)
  have hleaving : (defaultChatSend W w t cannotProcess).leaving t = true := by
    have hfd : c.fd ≠ invalidFd := h.fd_eq ▸ h.valid
    have hstay := h.staying
    unfold Worker.leaving at hstay
    rw [w.chat_of_some t h.slot] at hstay
    unfold RefusalFails at hfail
    rw [add_zero] at hfail
    unfold Worker.leaving defaultChatSend defaultStreamioSendNonblock Worker.logFd Worker.setState
      Worker.setChat Worker.chat
    cases hw : W.sendFails w.fdLog.length t
    · simp [h.slot, hstay, h.zombie, hfd, hw, hfail.resolve_right (by simp [hw])]
    · simp [h.slot, hstay, h.zombie, hfd, hw]
  obtain ⟨hgone, hclosed⟩ := hc'.closed W
  refine ⟨_, (parting_end W _ t).stays_gone hgone, fun chunk he => ?_⟩
  have hhandle : handleChatRequest W w t chunk =
      closeClient W (defaultChatSend W w t cannotProcess) t := by
    rw [h.handle_eq he]
    dsimp only
    rw [hleaving, Bool.or_true, if_pos rfl]
  rw [h.read_eq he.below, hhandle, hclosed, if_pos rfl]

end Refusing
end Nginz
