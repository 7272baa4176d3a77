import Nginz.Http.Tunnel
import Nginz.Lib.Lossy
import Nginz.WebChat.SessionId

/-! The session of a web client: it keeps what the chat says until a request of the client
takes it along, behind the session id. -/
namespace Nginz

/-- `NGINZ_MAX_WEBCHAT_MSG_SIZE`. -/
def nginzMaxWebchatMsgSize : ℕ := 1024

/-- What a session does with the HTTP connection above it, with the descriptor of its own or with
the chat below. A `dead` text is one that a connection without a descriptor was given. -/
inductive SessionEffect where
  | response (content : Bytes)
  | dead (content : Bytes)
  | closeUp
  | send (fd : ℤ) (content : Bytes)
  | close (fd : ℤ)
  | transfer (fd : ℤ) (destpid : ℤ) (cmd : Bytes)
  | unrefDown
  deriving DecidableEq, Repr

/-- `struct web_session_connection`: its stream, chained to an HTTP connection or not, the
session id, the message cache and the time of the last activity; and of the connection above,
whether it still has its descriptor, and `is_processed`. -/
structure WebSession where
  fd : ℤ
  bubbleUp : Bool
  sid : Bytes
  msg : AroopTxt
  lastActivity : ℕ
  upOpen : Bool
  isProcessed : Bool
  log : List SessionEffect
  deriving DecidableEq, Repr

/-- What the chat below does with the stream of the session. -/
inductive ChatAct where
  | send (content : Bytes) (more : Bool)
  | close
  deriving DecidableEq, Repr

def ChatAct.said : ChatAct → Bytes
  | .send content _ => content
  | .close => []

def ChatAct.sends : ChatAct → Bool
  | .send _ _ => true
  | .close => false

/-- A text behind which no more follows. -/
def ChatAct.ends : ChatAct → Bool
  | .send _ more => !more
  | .close => false

/-- What happens to a session: the request it is made for, on which the chat greets, a request of
its client, on which the chat acts, or an act of the chat between requests. The chat is moved to
another process by the reply of the master to a join, so never within a request. -/
inductive WebEvent where
  | welcome (acts : List ChatAct)
  | request (acts : List ChatAct)
  | beside (act : ChatAct)
  | transfer (destpid : ℤ) (cmd : Bytes)
  deriving DecidableEq, Repr

namespace WebSession

/-- `web_session_alloc` at the time `now`, for the descriptor of the connection. -/
def alloc (L : TxtLib) (fd getpid rand : ℤ) (now : ℕ) : WebSession where
  fd := fd
  bubbleUp := false
  sid := webSessionSid L getpid rand
  msg := .empty
  lastActivity := now
  upOpen := false
  isProcessed := false
  log := []

def emit (s : WebSession) (e : SessionEffect) : WebSession := { s with log := s.log ++ [e] }

/-- `default_streamio_send` of the session. The tunnel above sets `is_processed` also when the
connection has no descriptor any more. -/
def defaultStreamioSend (s : WebSession) (content : Bytes) : WebSession :=
  if s.bubbleUp then
    { s.emit (if s.upOpen then .response content else .dead content) with isProcessed := true }
  else if s.fd = invalidFd then s
  else s.emit (.send s.fd content)

/-- The message is sent, and the cache is empty again. -/
def flush (s : WebSession) : WebSession :=
  { s.defaultStreamioSend s.msg.content with msg := s.msg.setLength 0 }

/-- The cache as `web_session_send_wrapper` appends to it: the buffer is made on the first call,
where one that is too small cannot be had, and the session id goes in front of a message. -/
def openMsg (L : TxtLib) (s : WebSession) : AroopTxt :=
  let msg := if s.msg.capacity < nginzMaxWebchatMsgSize then
    .stackbuffer L nginzMaxWebchatMsgSize else s.msg
  if msg.isEmpty then (msg.concat L s.sid).concatChar L 10 else msg

/-- `web_session_send_wrapper`. -/
def webSessionSendWrapper (L : TxtLib) (s : WebSession) (content : Bytes) (more : Bool) :
    WebSession :=
  let s := { s with msg := s.openMsg L }
  let s := if content ≠ [] then { s with msg := s.msg.concat L content } else s
  if !s.msg.isEmpty && !more && s.bubbleUp then s.flush else s

/-- `web_session_close_wrapper`. A session that is chained closes the connection above, and its
own descriptor stays as it is. -/
def webSessionCloseWrapper (s : WebSession) : WebSession :=
  let s := { s with lastActivity := 0, sid := lit "invalid" }
  if s.bubbleUp then { s.emit .closeUp with upOpen := false }
  else if s.fd ≠ invalidFd then { s.emit (.close s.fd) with fd := invalidFd }
  else s

/-- `default_transfer_parallel` of a session that is not chained. -/
def transferParallel (s : WebSession) (destpid : ℤ) (cmd : Bytes) : WebSession :=
  s.emit (.transfer s.fd destpid cmd)

/-- `streamio_finalize`, when the last reference to the session is gone. -/
def finalize (s : WebSession) : WebSession :=
  { s.webSessionCloseWrapper.emit .unrefDown with
    fd := invalidFd, bubbleUp := false, sid := [], msg := .empty }

def act (L : TxtLib) (s : WebSession) : ChatAct → WebSession
  | .send content more => s.webSessionSendWrapper L content more
  | .close => s.webSessionCloseWrapper

/-- What `http_webchat_plug` does behind `on_recv`: the client is told at least that the server is
working. A close of the chat leaves the state of the HTTP connection as it is. -/
def finish (L : TxtLib) (s : WebSession) : WebSession :=
  if s.isProcessed then s
  else
    let s := if s.msg.isEmpty then s.webSessionSendWrapper L [32] false else s
    if s.msg.isEmpty then s else s.flush

/-- `webchat_chain_helper`, below a connection that has a descriptor and is not processed. -/
def chained (s : WebSession) : WebSession :=
  { s with bubbleUp := true, upOpen := true, isProcessed := false }

/-- `streamio_unchain`. -/
def unchained (s : WebSession) : WebSession := { s with bubbleUp := false }

/-- The part of `http_webchat_plug` for a session that was found, with what the chat does on
`on_recv`. -/
def request (L : TxtLib) (s : WebSession) (acts : List ChatAct) : WebSession :=
  ((acts.foldl (act L) s.chained).finish L).unchained

/-- The part for a new session, with what the chat does on `chat/_welcome`. -/
def welcome (L : TxtLib) (s : WebSession) (acts : List ChatAct) : WebSession :=
  (acts.foldl (act L) s.chained).unchained

def on (L : TxtLib) (s : WebSession) : WebEvent → WebSession
  | .welcome acts => s.welcome L acts
  | .request acts => s.request L acts
  | .beside a => s.act L a
  | .transfer destpid cmd => s.transferParallel destpid cmd

/-- The responses that a connection with a descriptor was given, and those that one without
was. -/
def responses (s : WebSession) : List Bytes := s.log.filterMap fun
  | .response content => some content
  | _ => none

def deadResponses (s : WebSession) : List Bytes := s.log.filterMap fun
  | .dead content => some content
  | _ => none

/-- All the responses that the tunnel was given. -/
def bodies (s : WebSession) : List Bytes := s.log.filterMap fun
  | .response content => some content
  | .dead content => some content
  | _ => none

/-- What is behind the session id in a message. -/
def payload (body : Bytes) : Bytes := (body.dropWhile (· ≠ 10)).drop 1

/-- What the client was or will be told: what is behind the session ids in the responses, and
what is cached. -/
def told (s : WebSession) : Bytes := s.responses.flatMap payload ++ payload s.msg.content

/-- The same with what got lost at connections that were closed. -/
def carried (s : WebSession) : Bytes := s.bodies.flatMap payload ++ payload s.msg.content

theorem payload_line {header : Bytes} (h : 10 ∉ header) (text : Bytes) :
    payload (header ++ 10 :: text) = text := by
  unfold payload
  rw [List.dropWhile_append_of_pos (decide_ne_of_not_mem h)]
  simp

/-- A session id that makes a line with room behind it in the cache: the first one, or the one
of a session that was closed. -/
structure SidOf (first sid : Bytes) : Prop where
  origin : sid = first ∨ sid = lit "invalid"
  line : 10 ∉ sid
  short : sid.length + 2 ≤ nginzMaxWebchatMsgSize

/-- A message: a session id on a line, and a text. -/
def Headed (first body : Bytes) : Prop := ∃ sid text, SidOf first sid ∧ body = sid ++ 10 :: text

theorem payload_append {first body : Bytes} (h : Headed first body) (text : Bytes) :
    payload (body ++ text) = payload body ++ text := by
  obtain ⟨sid, behind, hsid, rfl⟩ := h
  rw [List.append_assoc, List.cons_append, payload_line hsid.line, payload_line hsid.line]

theorem Headed.append {first body : Bytes} (h : Headed first body) (text : Bytes) :
    Headed first (body ++ text) := by
  obtain ⟨sid, behind, hsid, rfl⟩ := h
  exact ⟨sid, behind ++ text, hsid, by simp⟩

/-- The message cache is empty or has a message in it, and all responses are messages. -/
structure Ready (L : TxtLib) (first : Bytes) (s : WebSession) : Prop where
  wf : s.msg.WellFormed
  room : s.msg.capacity = 0 ∨ s.msg.capacity = L.room nginzMaxWebchatMsgSize
  sid : SidOf first s.sid
  headed : s.msg.isEmpty = false → Headed first s.msg.content
  answered : ∀ body ∈ s.bodies, Headed first body

section Send
variable (L : TxtLib) {first : Bytes} {s : WebSession}

/-- How far the cache is filled when a text is appended. -/
def filled (s : WebSession) : ℕ := if s.msg.isEmpty then s.sid.length + 1 else s.msg.len

theorem content_of_isEmpty {t : AroopTxt} (h : t.isEmpty = true) : t.content = [] := by
  have hlen : t.len = 0 := by simpa [AroopTxt.isEmpty] using h
  rw [AroopTxt.content, hlen, List.take_zero]

/-- The buffer is there, with what was in it. -/
theorem buffered (h : Ready L first s) :
    let msg := if s.msg.capacity < nginzMaxWebchatMsgSize then
      AroopTxt.stackbuffer L nginzMaxWebchatMsgSize else s.msg
    msg.WellFormed ∧ msg.capacity = L.room nginzMaxWebchatMsgSize ∧ msg.len = s.msg.len ∧
      msg.content = s.msg.content := by
  have hroom := L.le_room nginzMaxWebchatMsgSize
  have hwf := h.wf
  unfold AroopTxt.WellFormed at hwf
  dsimp only
  rcases h.room with hzero | hfull
  · have hlen : s.msg.len = 0 := by omega
    have hempty : s.msg.isEmpty = true := by simp [AroopTxt.isEmpty, hlen]
    rw [if_pos (by rw [hzero]; decide), hlen, content_of_isEmpty hempty]
    exact ⟨AroopTxt.buffer_wellFormed _, AroopTxt.buffer_capacity _, rfl, rfl⟩
  · rw [if_neg (by omega)]
    exact ⟨h.wf, hfull, rfl, rfl⟩

/-- The opened cache has the session id in it and says what it said before. -/
theorem openMsg_spec (h : Ready L first s) : (s.openMsg L).WellFormed ∧
    (s.openMsg L).capacity = L.room nginzMaxWebchatMsgSize ∧ (s.openMsg L).len = s.filled ∧
    Headed first (s.openMsg L).content ∧ payload (s.openMsg L).content = payload s.msg.content := by
  have hroom := L.le_room nginzMaxWebchatMsgSize
  have hshort := h.sid.short
  obtain ⟨hwf, hcap, hlen, hcontent⟩ := buffered L h
  unfold openMsg filled
  dsimp only at hwf hcap hlen hcontent ⊢
  generalize (if s.msg.capacity < nginzMaxWebchatMsgSize then
    AroopTxt.stackbuffer L nginzMaxWebchatMsgSize else s.msg) = msg at hwf hcap hlen hcontent ⊢
  have hsame : msg.isEmpty = s.msg.isEmpty := by simp [AroopTxt.isEmpty, hlen]
  rw [hsame]
  by_cases hempty : s.msg.isEmpty = true
  · rw [if_pos hempty, if_pos hempty]
    have hzero : msg.len = 0 := by
      rw [hlen]
      simpa [AroopTxt.isEmpty] using hempty
    have hwf' := AroopTxt.concat_wellFormed L (x := s.sid) hwf
    have hcap' := AroopTxt.concat_capacity L (x := s.sid) hwf
    have hlen' := AroopTxt.concat_len L (show msg.len + s.sid.length ≤ msg.capacity by omega)
    have hfits : (msg.concat L s.sid).len + [(10 : UInt8)].length ≤
        (msg.concat L s.sid).capacity := by
      rw [hlen', hcap', List.length_singleton]
      omega
    have hline : ((msg.concat L s.sid).concat L [10]).content = s.sid ++ 10 :: [] := by
      rw [AroopTxt.concat_content L hwf' hfits, AroopTxt.concat_content L hwf (by omega), hcontent,
        content_of_isEmpty hempty, List.nil_append]
    unfold AroopTxt.concatChar
    refine ⟨AroopTxt.concat_wellFormed L hwf', ?_, ?_, ⟨s.sid, [], h.sid, hline⟩, ?_⟩
    · rw [AroopTxt.concat_capacity L hwf', hcap', hcap]
    · rw [AroopTxt.concat_len L hfits, hlen', hzero, List.length_singleton, zero_add]
    · rw [hline, payload_line h.sid.line, content_of_isEmpty hempty]
      rfl
  · rw [if_neg hempty, if_neg hempty, hcontent]
    exact ⟨hwf, hcap, hlen, h.headed (eq_false_of_ne_true hempty), rfl⟩

/-- What an append keeps of a text. -/
def keptOf (s : WebSession) (content : Bytes) : Bytes :=
  L.spill (L.room nginzMaxWebchatMsgSize - s.filled) content

/-- The session with a text in its opened cache. -/
def appended (s : WebSession) (content : Bytes) : WebSession :=
  { s with msg := if content ≠ [] then (s.openMsg L).concat L content else s.openMsg L }

theorem appended_spec (h : Ready L first s) (content : Bytes) :
    let msg := (s.appended L content).msg
    msg.WellFormed ∧ msg.capacity = L.room nginzMaxWebchatMsgSize ∧ 0 < msg.len ∧
      Headed first msg.content ∧
        payload msg.content = payload s.msg.content ++ s.keptOf L content := by
  obtain ⟨hwf, hcap, hlen, hheaded, hpayload⟩ := openMsg_spec L h
  have hpos : 0 < s.filled := by
    unfold filled
    split
    · omega
    · rename_i hne
      simpa [AroopTxt.isEmpty, Nat.pos_iff_ne_zero] using hne
  unfold appended
  dsimp only
  split
  · have hcontent := AroopTxt.concat_content_spill L (x := content) hwf
    rw [hcap, hlen] at hcontent
    refine ⟨AroopTxt.concat_wellFormed L hwf, ?_, ?_, ?_, ?_⟩
    · rw [AroopTxt.concat_capacity L hwf, hcap]
    · unfold AroopTxt.concat
      dsimp only
      omega
    · rw [hcontent]
      exact hheaded.append _
    · rw [hcontent, payload_append hheaded, hpayload]
      rfl
  · rename_i hnil
    rw [not_not.mp hnil, hpayload]
    have hnone : s.keptOf L [] = [] := List.prefix_nil.mp (L.spill_prefix _ _)
    rw [hnone, List.append_nil]
    exact ⟨hwf, hcap, hlen ▸ hpos, hheaded, rfl⟩

/-- The session said some more, and is as ready as before. -/
structure Says (first kept : Bytes) (s s' : WebSession) : Prop where
  carried : s'.carried = s.carried ++ kept
  ready : Ready L first s'
  bubbleUp : s'.bubbleUp = s.bubbleUp

theorem Says.silent {s s' : WebSession} (h : Says L first [] s s') : s'.carried = s.carried := by
  rw [h.carried, List.append_nil]

theorem Says.trans {kept kept' : Bytes} {s s' s'' : WebSession} (h : Says L first kept s s')
    (h' : Says L first kept' s' s'') : Says L first (kept ++ kept') s s'' where
  carried := by rw [h'.carried, h.carried, List.append_assoc]
  ready := h'.ready
  bubbleUp := h'.bubbleUp.trans h.bubbleUp

theorem bodies_emit (s : WebSession) (e : SessionEffect) :
    (s.emit e).bodies = s.bodies ++ match e with
      | .response content => [content]
      | .dead content => [content]
      | _ => [] := by
  unfold bodies emit
  rw [List.filterMap_append]
  cases e <;> rfl

/-- What keeps the cache and adds no response says nothing. -/
theorem tells_nothing (h : Ready L first s) {s' : WebSession} (hmsg : s'.msg = s.msg)
    (hsid : SidOf first s'.sid) (hup : s'.bubbleUp = s.bubbleUp)
    (hbodies : s'.bodies = s.bodies) : Says L first [] s s' where
  carried := by simp [WebSession.carried, hmsg, hbodies]
  ready := ⟨hmsg ▸ h.wf, hmsg ▸ h.room, hsid, hmsg ▸ h.headed, hbodies ▸ h.answered⟩
  bubbleUp := hup

theorem flush_eq (hup : s.bubbleUp = true) : s.flush =
    { s.emit (if s.upOpen then .response s.msg.content else .dead s.msg.content) with
      isProcessed := true, msg := s.msg.setLength 0 } := by
  unfold flush defaultStreamioSend
  rw [if_pos hup]

/-- A flush moves the message into a response. -/
theorem flush_tells (h : Ready L first s) (hup : s.bubbleUp = true)
    (hmsg : s.msg.isEmpty = false) : Says L first [] s s.flush := by
  have hbodies : s.flush.bodies = s.bodies ++ [s.msg.content] := by
    rw [flush_eq hup]
    cases s.upOpen with
    | true => exact bodies_emit s (.response s.msg.content)
    | false => exact bodies_emit s (.dead s.msg.content)
  refine ⟨?_, ⟨Nat.zero_le _, h.room, ?_, fun hne => absurd hne (by simp [flush, AroopTxt.isEmpty]),
    ?_⟩, ?_⟩
  · unfold WebSession.carried
    rw [hbodies]
    simp [flush, payload, AroopTxt.content]
  · rw [flush_eq hup]
    exact h.sid
  · rw [hbodies]
    intro body hbody
    obtain hold | hnew := List.mem_append.mp hbody
    · exact h.answered body hold
    · exact List.mem_singleton.mp hnew ▸ h.headed hmsg
  · rw [flush_eq hup]
    rfl

theorem sendWrapper_eq (s : WebSession) (content : Bytes) (more : Bool) :
    s.webSessionSendWrapper L content more =
      if !(s.appended L content).msg.isEmpty && !more && s.bubbleUp
      then (s.appended L content).flush else s.appended L content := by
  unfold webSessionSendWrapper appended
  by_cases hnil : content = []
  · simp only [hnil, ne_eq, not_true_eq_false, if_false]
  · simp only [ne_eq, hnil, not_false_eq_true, if_true]

theorem appended_nonempty (h : Ready L first s) (content : Bytes) :
    (s.appended L content).msg.isEmpty = false := by
  obtain ⟨-, -, hpos, -, -⟩ := appended_spec L h content
  exact beq_false_of_ne (by omega)

theorem send_tells (h : Ready L first s) (content : Bytes) (more : Bool) :
    Says L first (s.keptOf L content) s (s.webSessionSendWrapper L content more) := by
  obtain ⟨hwf, hcap, -, hheaded, hpayload⟩ := appended_spec L h content
  have happended : Says L first (s.keptOf L content) s (s.appended L content) := by
    refine ⟨?_, ⟨hwf, .inr hcap, h.sid, fun _ => hheaded, h.answered⟩, rfl⟩
    unfold WebSession.carried
    rw [List.append_assoc, ← hpayload]
    rfl
  rw [sendWrapper_eq]
  split
  · rename_i hflush
    rw [Bool.and_eq_true] at hflush
    have hall := happended.trans L
      (flush_tells L happended.ready hflush.2 (appended_nonempty L h content))
    rwa [List.append_nil] at hall
  · exact happended

theorem close_tells (h : Ready L first s) : Says L first [] s s.webSessionCloseWrapper := by
  have hinvalid : SidOf first (lit "invalid") := ⟨.inr rfl, by decide, by decide⟩
  unfold webSessionCloseWrapper
  dsimp only
  split
  · refine tells_nothing L h rfl hinvalid rfl ?_
    have hemit := bodies_emit { s with lastActivity := 0, sid := lit "invalid" } .closeUp
    rwa [List.append_nil] at hemit
  · split
    · refine tells_nothing L h rfl hinvalid rfl ?_
      have hemit := bodies_emit { s with lastActivity := 0, sid := lit "invalid" } (.close s.fd)
      rwa [List.append_nil] at hemit
    · exact tells_nothing L h rfl hinvalid rfl rfl

theorem transfer_tells (h : Ready L first s) (destpid : ℤ) (cmd : Bytes) :
    Says L first [] s (s.transferParallel destpid cmd) :=
  tells_nothing L h rfl h.sid rfl (by rw [transferParallel, bodies_emit, List.append_nil])

end Send

/-! ### What the chat says -/

/-- The text of the act fits into the cache behind what is there. -/
def HasRoom (L : TxtLib) (s : WebSession) (a : ChatAct) : Prop :=
  s.filled + a.said.length ≤ L.room nginzMaxWebchatMsgSize

instance (L : TxtLib) (s : WebSession) (a : ChatAct) : Decidable (s.HasRoom L a) :=
  inferInstanceAs (Decidable (_ ≤ _))

section Said
variable (L : TxtLib) {first : Bytes} {s : WebSession}

theorem filled_le (h : Ready L first s) : s.filled ≤ L.room nginzMaxWebchatMsgSize := by
  have hroom := L.le_room nginzMaxWebchatMsgSize
  have hshort := h.sid.short
  have hwf := h.wf
  unfold AroopTxt.WellFormed at hwf
  unfold filled
  split
  · omega
  · rcases h.room with hzero | hfull
    · omega
    · omega

/-- An append keeps a text if and only if there is room for it. -/
theorem keptOf_eq_iff (h : Ready L first s) (a : ChatAct) :
    s.keptOf L a.said = a.said ↔ s.HasRoom L a := by
  have hle := filled_le L h
  unfold keptOf HasRoom
  constructor
  · intro hkept
    have hlen := L.spill_length (L.room nginzMaxWebchatMsgSize - s.filled) a.said
    rw [hkept] at hlen
    omega
  · intro hroom
    exact L.spill_fits _ _ (by omega)

theorem act_tells (h : Ready L first s) (a : ChatAct) :
    Says L first (s.keptOf L a.said) s (s.act L a) := by
  have hnone : s.keptOf L [] = [] := List.prefix_nil.mp (L.spill_prefix _ _)
  cases a with
  | send content more => exact send_tells L h content more
  | close =>
    rw [ChatAct.said, hnone]
    exact close_tells L h

/-- An act says its text if and only if there is room for it. -/
theorem act_whole_iff (h : Ready L first s) (a : ChatAct) :
    (s.act L a).carried = s.carried ++ a.said ↔ s.HasRoom L a := by
  rw [(act_tells L h a).carried, List.append_cancel_left_eq, keptOf_eq_iff L h]

/-- What a run of acts says is whole if and only if there was room for each of its texts. -/
theorem acts_tells (h : Ready L first s) (acts : List ChatAct) : ∃ kept,
    Says L first kept s (acts.foldl (act L) s) ∧ Lossy.Kept kept (acts.flatMap ChatAct.said) ∧
      (kept = acts.flatMap ChatAct.said ↔ Transition.Along (act L) (HasRoom L) s acts) := by
  have hadds : ∀ s a, Ready L first s → True →
      ∃ kept, Lossy.Adds (act L) carried (fun _ => ChatAct.said) s a kept := fun s a h _ =>
    ⟨_, (act_tells L h a).carried, .of_front (L.spill_prefix _ _)⟩
  have hready : ∀ s a, Ready L first s → True → Ready L first (s.act L a) := fun s a h _ =>
    (act_tells L h a).ready
  have htrue : Transition.Along (act L) (fun _ _ => True) s acts :=
    Transition.along_actions_iff.mpr fun _ _ => trivial
  have hend : Ready L first (acts.foldl (act L) s) ∧ (acts.foldl (act L) s).bubbleUp = s.bubbleUp :=
    Transition.along_invariant (P := fun s' => Ready L first s' ∧ s'.bubbleUp = s.bubbleUp)
      (fun s a h _ => ⟨(act_tells L h.1 a).ready, (act_tells L h.1 a).bubbleUp.trans h.2⟩) ⟨h, rfl⟩
      htrue
  obtain ⟨kept, hcarried, hkept⟩ := Lossy.run_adds hadds hready h htrue
  have hwhole := Lossy.run_whole_iff hadds hready h htrue
  rw [Lossy.saidAlong_actions] at hkept hwhole
  rw [hcarried, List.append_cancel_left_eq] at hwhole
  refine ⟨kept, ⟨hcarried, hend.1, hend.2⟩, hkept, hwhole.trans ?_⟩
  exact Transition.along_iff (P := Ready L first) (fun s a h _ => act_whole_iff L h a)
    (fun s a h _ _ => (act_tells L h a).ready) h htrue

/-- Nothing was said to the client, and nothing is there to say. -/
def Quiet (s : WebSession) : Prop := s.isProcessed = false ∧ s.msg.isEmpty = true

/-- A text that is the last one is sent at once. -/
theorem send_last (h : Ready L first s) (hup : s.bubbleUp = true) (content : Bytes) :
    s.webSessionSendWrapper L content false = (s.appended L content).flush := by
  rw [sendWrapper_eq, appended_nonempty L h, hup]
  rfl

theorem flush_processed (hup : s.bubbleUp = true) :
    s.flush.isProcessed = true ∧ s.flush.msg.isEmpty = true := by
  unfold flush defaultStreamioSend
  rw [if_pos hup]
  exact ⟨rfl, rfl⟩

theorem act_quiet_iff (h : Ready L first s) (hup : s.bubbleUp = true) (a : ChatAct) :
    (s.act L a).Quiet ↔ s.Quiet ∧ a.sends = false := by
  cases a with
  | send content more =>
    simp only [ChatAct.sends, Bool.true_eq_false, and_false, iff_false]
    rintro ⟨hprocessed, hempty⟩
    rw [act] at hprocessed hempty
    cases more with
    | false =>
      rw [send_last L h hup, (flush_processed (s := s.appended L content) hup).1] at hprocessed
      exact absurd hprocessed (by decide)
    | true =>
      rw [sendWrapper_eq, Bool.not_true, Bool.and_false, Bool.false_and,
        if_neg Bool.false_ne_true, appended_nonempty L h] at hempty
      exact absurd hempty (by decide)
  | close =>
    unfold act webSessionCloseWrapper
    simp only [hup, if_true, ChatAct.sends, and_true]
    rfl

theorem acts_quiet_iff (h : Ready L first s) (hup : s.bubbleUp = true) (acts : List ChatAct) :
    (acts.foldl (act L) s).Quiet ↔ s.Quiet ∧ acts.any ChatAct.sends = false := by
  induction acts generalizing s with
  | nil => simp
  | cons a acts ih =>
    have htells := act_tells L h a
    rw [List.foldl_cons, ih htells.ready (htells.bubbleUp.trans hup), act_quiet_iff L h hup,
      List.any_cons, Bool.or_eq_false_iff, and_assoc]

/-- Behind the chat, a client that was told nothing gets what is cached, or a space. -/
theorem finish_tells (h : Ready L first s) (hup : s.bubbleUp = true) :
    ∃ kept, Says L first kept s (s.finish L) ∧ (s.Quiet → kept = [32]) ∧ (¬ s.Quiet → kept = []) ∧
      (s.finish L).isProcessed = true := by
  unfold finish
  by_cases hprocessed : s.isProcessed = true
  · rw [if_pos hprocessed]
    refine ⟨[], ⟨by rw [List.append_nil], h, rfl⟩, fun hquiet => ?_, fun _ => rfl, hprocessed⟩
    exact absurd (hquiet.1.symm.trans hprocessed) (by decide)
  rw [if_neg hprocessed]
  by_cases hempty : s.msg.isEmpty = true
  · have hspace : s.keptOf L [32] = [32] := by
      have hshort := h.sid.short
      have hroom := L.le_room nginzMaxWebchatMsgSize
      refine (keptOf_eq_iff L h (.send [32] false)).mpr ?_
      unfold HasRoom filled
      rw [if_pos hempty]
      simp only [ChatAct.said, List.length_singleton]
      omega
    have htells := send_tells L h [32] false
    have hflushed := flush_processed (s := s.appended L [32]) hup
    rw [hspace] at htells
    rw [← send_last L h hup] at hflushed
    rw [if_pos hempty]
    dsimp only
    rw [if_pos hflushed.2]
    refine ⟨[32], htells, fun _ => rfl, fun hnot => absurd ⟨?_, hempty⟩ hnot, hflushed.1⟩
    exact eq_false_of_ne_true hprocessed
  · rw [if_neg hempty]
    dsimp only
    rw [if_neg hempty]
    exact ⟨[], flush_tells L h hup (eq_false_of_ne_true hempty),
      fun hquiet => absurd hquiet.2 hempty, fun _ => rfl, (flush_processed hup).1⟩

end Said

/-! ### What the client is told -/

/-- The text of an event: what the chat says, or a space where it has nothing to say to a
client. -/
def said (s : WebSession) : WebEvent → Bytes
  | .welcome acts => acts.flatMap ChatAct.said
  | .request acts => acts.flatMap ChatAct.said ++
      if s.msg.isEmpty && !acts.any ChatAct.sends then [32] else []
  | .beside a => a.said
  | .transfer _ _ => []

/-- Each text of the event fits into the cache behind what is there. -/
def HasRoomFor (L : TxtLib) (s : WebSession) : WebEvent → Prop
  | .welcome acts => Transition.Along (act L) (HasRoom L) s.chained acts
  | .request acts => Transition.Along (act L) (HasRoom L) s.chained acts
  | .beside a => s.HasRoom L a
  | .transfer _ _ => True

section Told
variable (L : TxtLib) {first : Bytes} {s : WebSession}

theorem chained_tells (h : Ready L first s) : Ready L first s.chained ∧
    s.chained.carried = s.carried := ⟨⟨h.wf, h.room, h.sid, h.headed, h.answered⟩, rfl⟩

/-- Behind a request the session is not chained any more. -/
theorem unchained_tells (h : Ready L first s) : Ready L first s.unchained ∧
    s.unchained.carried = s.carried := ⟨⟨h.wf, h.room, h.sid, h.headed, h.answered⟩, rfl⟩

theorem request_tells (h : Ready L first s) (acts : List ChatAct) : ∃ kept,
    (s.request L acts).carried = s.carried ++ kept ∧ Ready L first (s.request L acts) ∧
      Lossy.Kept kept (s.said (.request acts)) ∧
      (kept = s.said (.request acts) ↔ s.HasRoomFor L (.request acts)) := by
  obtain ⟨hready, hcarried⟩ := chained_tells L h
  obtain ⟨kept, htells, hkept, hwhole⟩ := acts_tells L hready acts
  have hquiet := acts_quiet_iff L hready rfl acts
  obtain ⟨filler, hfinish, hspace, hnone, -⟩ :=
    finish_tells L htells.ready (htells.bubbleUp.trans rfl)
  obtain ⟨hready', hcarried'⟩ := unchained_tells L hfinish.ready
  have hfiller : filler =
      if s.msg.isEmpty && !acts.any ChatAct.sends then [32] else [] := by
    have hcond : (s.msg.isEmpty && !acts.any ChatAct.sends) = true ↔
        (acts.foldl (act L) s.chained).Quiet := by
      rw [hquiet]
      simp [Quiet, chained]
    by_cases hq : (acts.foldl (act L) s.chained).Quiet
    · rw [if_pos (hcond.mpr hq), hspace hq]
    · rw [if_neg (mt hcond.mp hq), hnone hq]
  refine ⟨kept ++ filler, ?_, hready', ?_, ?_⟩
  · rw [request, hcarried', hfinish.carried, htells.carried, hcarried, List.append_assoc]
  · rw [said, ← hfiller]
    exact hkept.append (.all filler)
  · rw [said, ← hfiller, List.append_cancel_right_eq]
    exact hwhole

theorem welcome_tells (h : Ready L first s) (acts : List ChatAct) : ∃ kept,
    (s.welcome L acts).carried = s.carried ++ kept ∧ Ready L first (s.welcome L acts) ∧
      Lossy.Kept kept (s.said (.welcome acts)) ∧
      (kept = s.said (.welcome acts) ↔ s.HasRoomFor L (.welcome acts)) := by
  obtain ⟨hready, hcarried⟩ := chained_tells L h
  obtain ⟨kept, htells, hkept, hwhole⟩ := acts_tells L hready acts
  obtain ⟨hready', hcarried'⟩ := unchained_tells L htells.ready
  refine ⟨kept, ?_, hready', hkept, hwhole⟩
  rw [welcome, hcarried', htells.carried, hcarried]

/-- What a session says to its client, from a state in which nothing is chained, is whole if
and only if each text had room in the cache. -/
theorem on_tells (h : Ready L first s) (e : WebEvent) : ∃ kept,
    Lossy.Adds (on L) carried said s e kept ∧ Ready L first (s.on L e) ∧
      (kept = s.said e ↔ s.HasRoomFor L e) := by
  cases e with
  | welcome acts =>
    obtain ⟨kept, hcarried, hready, hkept, hwhole⟩ := welcome_tells L h acts
    exact ⟨kept, ⟨hcarried, hkept⟩, hready, hwhole⟩
  | request acts =>
    obtain ⟨kept, hcarried, hready, hkept, hwhole⟩ := request_tells L h acts
    exact ⟨kept, ⟨hcarried, hkept⟩, hready, hwhole⟩
  | beside a =>
    have htells := act_tells L h a
    exact ⟨_, ⟨htells.carried, .of_front (L.spill_prefix _ _)⟩, htells.ready, keptOf_eq_iff L h a⟩
  | transfer destpid cmd =>
    have htells := transfer_tells L h destpid cmd
    exact ⟨[], ⟨htells.carried, .all []⟩, htells.ready, iff_of_true rfl trivial⟩

theorem run_ready (h : Ready L first s) (es : List WebEvent) : Ready L first (es.foldl (on L) s) :=
  Transition.run_invariant (P := Ready L first) (fun _ e h => (on_tells L h e).choose_spec.2.1) h es

/-- What a run carries is a part of what was said in it, and all of it if and only if each text
had room. -/
theorem run_carries (h : Ready L first s) (es : List WebEvent) : ∃ kept,
    (es.foldl (on L) s).carried = s.carried ++ kept ∧
      Lossy.Kept kept (Lossy.saidAlong (on L) said s es) ∧
      (kept = Lossy.saidAlong (on L) said s es ↔ Transition.Along (on L) (HasRoomFor L) s es) := by
  have hadds : ∀ s e, Ready L first s → True → ∃ kept, Lossy.Adds (on L) carried said s e kept :=
    fun s e h _ => (on_tells L h e).imp fun _ htells => htells.1
  have hready : ∀ s e, Ready L first s → True → Ready L first (s.on L e) := fun s e h _ =>
    (on_tells L h e).choose_spec.2.1
  have htrue : Transition.Along (on L) (fun _ _ => True) s es :=
    Transition.along_actions_iff.mpr fun _ _ => trivial
  obtain ⟨kept, hcarried, hkept⟩ := Lossy.run_adds hadds hready h htrue
  have hwhole := Lossy.run_whole_iff hadds hready h htrue
  rw [hcarried, List.append_cancel_left_eq] at hwhole
  refine ⟨kept, hcarried, hkept, hwhole.trans ?_⟩
  refine Transition.along_iff (P := Ready L first) (fun s e h _ => ?_)
    (fun s e h _ _ => hready s e h trivial) h htrue
  obtain ⟨kept, hadds, -, hwhole⟩ := on_tells L h e
  rw [hadds.1, List.append_cancel_left_eq, hwhole]

end Told

/-! ### What gets lost -/

section Lost
variable {s : WebSession}

/-- Each response was given to a connection with a descriptor, in this order, or to one
without. -/
theorem responses_bodies (s : WebSession) :
    (s.responses.flatMap payload).Sublist (s.bodies.flatMap payload) ∧
      (s.bodies.flatMap payload).length = (s.responses.flatMap payload).length +
        (s.deadResponses.flatMap payload).length := by
  unfold bodies responses deadResponses
  generalize s.log = log
  induction log with
  | nil => exact ⟨.slnil, rfl⟩
  | cons e log ih =>
    obtain ⟨hsub, hlen⟩ := ih
    cases e with
    | response content =>
      refine ⟨hsub.append_left (payload content), ?_⟩
      simp only [List.filterMap_cons, List.flatMap_cons, List.length_append] at hlen ⊢
      omega
    | dead content =>
      refine ⟨hsub.trans (List.sublist_append_right (payload content) _), ?_⟩
      simp only [List.filterMap_cons, List.flatMap_cons, List.length_append] at hlen ⊢
      omega
    | _ => exact ⟨hsub, hlen⟩

theorem responses_subset (s : WebSession) {body : Bytes} (h : body ∈ s.responses) :
    body ∈ s.bodies := by
  unfold responses at h
  unfold bodies
  obtain ⟨e, he, hbody⟩ := List.mem_filterMap.mp h
  refine List.mem_filterMap.mpr ⟨e, he, ?_⟩
  cases e with
  | response content => exact hbody
  | _ => exact absurd hbody (by simp)

/-- The client is told as much as the session carries if and only if no text got lost. -/
theorem told_length (s : WebSession) : s.told.length ≤ s.carried.length ∧
    (s.told = s.carried ↔ ∀ body ∈ s.deadResponses, payload body = []) := by
  obtain ⟨hsub, hlen⟩ := responses_bodies s
  have hdead : s.deadResponses.flatMap payload = [] ↔
      ∀ body ∈ s.deadResponses, payload body = [] := List.flatMap_eq_nil_iff
  unfold told carried
  rw [List.length_append, List.length_append, List.append_cancel_right_eq, ← hdead,
    ← List.length_eq_zero_iff]
  refine ⟨by omega, fun heq => ?_, fun hzero => hsub.eq_of_length (by omega)⟩
  have hsame := congrArg List.length heq
  omega

/-- What is told is all that was said, if what is carried is a part of it, exactly when it is
all carried and nothing gets lost. -/
theorem told_eq_iff {said : Bytes} (h : Lossy.Kept s.carried said) :
    s.told = said ↔ s.carried = said ∧ ∀ body ∈ s.deadResponses, payload body = [] := by
  obtain ⟨hle, hlost⟩ := told_length s
  constructor
  · rintro rfl
    have hall : s.carried = s.told := by
      rcases h with heq | hlt
      · exact heq
      · exact absurd hlt (not_lt.mpr hle)
    exact ⟨hall, hlost.mp hall.symm⟩
  · rintro ⟨rfl, hnone⟩
    exact hlost.mpr hnone

end Lost

/-! ### Answers -/

section Answers
variable (L : TxtLib) {first : Bytes} {s : WebSession}

theorem responses_emit (s : WebSession) (e : SessionEffect) :
    (s.emit e).responses = s.responses ++ match e with
      | .response content => [content]
      | _ => [] := by
  unfold responses emit
  rw [List.filterMap_append]
  cases e <;> rfl

/-- A flush is a response if the connection above has its descriptor. -/
theorem flush_responses (hup : s.bubbleUp = true) : s.flush.responses =
    s.responses ++ if s.upOpen then [s.msg.content] else [] := by
  rw [flush_eq hup]
  cases s.upOpen with
  | true => exact responses_emit s (.response s.msg.content)
  | false => exact responses_emit s (.dead s.msg.content)

theorem flush_upOpen (hup : s.bubbleUp = true) : s.flush.upOpen = s.upOpen := by
  rw [flush_eq hup]
  rfl

/-- The connection above keeps its descriptor, and there is a response for each time that it
counts as processed. -/
structure Answering (before : List Bytes) (s : WebSession) : Prop where
  upOpen : s.upOpen = true
  answered : ∃ new, s.responses = before ++ new ∧ (new ≠ [] ↔ s.isProcessed = true)

theorem flush_answering {before : List Bytes} (h : Answering before s) (hup : s.bubbleUp = true) :
    Answering before s.flush := by
  obtain ⟨new, hnew, -⟩ := h.answered
  refine ⟨(flush_upOpen hup).trans h.upOpen, new ++ [s.msg.content], ?_, ?_⟩
  · rw [flush_responses hup, if_pos h.upOpen, hnew, List.append_assoc]
  · exact iff_of_true (by simp) (flush_processed hup).1

/-- While the chat does not close the session, each of its last texts is an answer. -/
theorem act_answering (hready : Ready L first s) {before : List Bytes} (h : Answering before s)
    (hup : s.bubbleUp = true) {a : ChatAct} (ha : a ≠ .close) :
    Answering before (s.act L a) ∧ (s.act L a).isProcessed = (s.isProcessed || a.ends) := by
  cases a with
  | close => exact absurd rfl ha
  | send content more =>
    cases more with
    | false =>
      rw [act, send_last L hready hup]
      refine ⟨flush_answering (s := s.appended L content) ⟨h.upOpen, h.answered⟩ hup, ?_⟩
      rw [(flush_processed (s := s.appended L content) hup).1]
      exact (Bool.or_true _).symm
    | true =>
      have hkept : s.webSessionSendWrapper L content true = s.appended L content := by
        rw [sendWrapper_eq, Bool.not_true, Bool.and_false, Bool.false_and,
          if_neg Bool.false_ne_true]
      rw [act, hkept]
      exact ⟨⟨h.upOpen, h.answered⟩, (Bool.or_false _).symm⟩

theorem acts_answering (hready : Ready L first s) {before : List Bytes} (h : Answering before s)
    (hup : s.bubbleUp = true) {acts : List ChatAct} (hacts : .close ∉ acts) :
    Answering before (acts.foldl (act L) s) ∧
      (acts.foldl (act L) s).isProcessed = (s.isProcessed || acts.any ChatAct.ends) := by
  induction acts generalizing s with
  | nil => exact ⟨h, (Bool.or_false _).symm⟩
  | cons a acts ih =>
    rw [List.mem_cons, not_or] at hacts
    obtain ⟨ha, hrest⟩ := hacts
    obtain ⟨hnext, hprocessed⟩ := act_answering L hready h hup (Ne.symm ha)
    have htells := act_tells L hready a
    obtain ⟨hend, hall⟩ := ih htells.ready hnext (htells.bubbleUp.trans hup) hrest
    exact ⟨hend, by rw [List.foldl_cons, hall, hprocessed, List.any_cons, Bool.or_assoc]⟩

/-- The connection above has lost its descriptor, and nothing was answered since. -/
structure Silent (before : List Bytes) (s : WebSession) : Prop where
  upOpen : s.upOpen = false
  responses : s.responses = before

theorem flush_silent {before : List Bytes} (h : Silent before s) (hup : s.bubbleUp = true) :
    Silent before s.flush where
  upOpen := (flush_upOpen hup).trans h.upOpen
  responses := by
    rw [flush_responses hup, h.upOpen, if_neg Bool.false_ne_true, List.append_nil, h.responses]

theorem send_silent {before : List Bytes} (h : Silent before s) (hup : s.bubbleUp = true)
    (content : Bytes) (more : Bool) : Silent before (s.webSessionSendWrapper L content more) := by
  rw [sendWrapper_eq]
  split
  · exact flush_silent (s := s.appended L content) ⟨h.upOpen, h.responses⟩ hup
  · exact ⟨h.upOpen, h.responses⟩

theorem close_silent (hup : s.bubbleUp = true) :
    Silent s.responses s.webSessionCloseWrapper := by
  have hemit := responses_emit { s with lastActivity := 0, sid := lit "invalid" } .closeUp
  rw [List.append_nil] at hemit
  unfold webSessionCloseWrapper
  dsimp only
  rw [if_pos hup]
  exact ⟨rfl, hemit⟩

theorem act_silent {before : List Bytes} (h : Silent before s) (hup : s.bubbleUp = true)
    (a : ChatAct) : Silent before (s.act L a) := by
  cases a with
  | send content more => exact send_silent L h hup content more
  | close => exact h.responses ▸ close_silent hup

theorem acts_silent (hready : Ready L first s) {before : List Bytes} (h : Silent before s)
    (hup : s.bubbleUp = true) (acts : List ChatAct) :
    Silent before (acts.foldl (act L) s) ∧ Ready L first (acts.foldl (act L) s) ∧
      (acts.foldl (act L) s).bubbleUp = true :=
  Transition.run_invariant
    (P := fun s' => Silent before s' ∧ Ready L first s' ∧ s'.bubbleUp = true)
    (fun _ a h => ⟨act_silent L h.1 h.2.2 a, (act_tells L h.2.1 a).ready,
      (act_tells L h.2.1 a).bubbleUp.trans h.2.2⟩) ⟨h, hready, hup⟩ acts

theorem finish_silent (hready : Ready L first s) {before : List Bytes} (h : Silent before s)
    (hup : s.bubbleUp = true) : Silent before (s.finish L) := by
  unfold finish
  split
  · exact h
  · dsimp only
    split
    · have hspace := send_silent L h hup [32] false
      have hup' := (send_tells L hready [32] false).bubbleUp.trans hup
      split
      · exact hspace
      · exact flush_silent hspace hup'
    · exact flush_silent h hup

/-- A client whose connection has its descriptor is answered in the end. -/
theorem finish_answering (hready : Ready L first s) {before : List Bytes}
    (h : Answering before s) (hup : s.bubbleUp = true) : Answering before (s.finish L) := by
  unfold finish
  split
  · exact h
  · dsimp only
    split
    · have hspace := (act_answering L hready h hup (a := .send [32] false) (by simp)).1
      have hup' := (send_tells L hready [32] false).bubbleUp.trans hup
      split
      · exact hspace
      · exact flush_answering hspace hup'
    · exact flush_answering h hup

/-- A request is answered unless the chat closes the session before it sends a text without
more to come. -/
def Answered (acts : List ChatAct) : Prop :=
  .close ∉ acts ∨ (acts.takeWhile (· ≠ .close)).any ChatAct.ends = true

instance (acts : List ChatAct) : Decidable (Answered acts) := inferInstanceAs (Decidable (_ ∨ _))

theorem request_answered_iff (h : Ready L first s) (acts : List ChatAct) :
    ∃ new, (s.request L acts).responses = s.responses ++ new ∧ (new ≠ [] ↔ Answered acts) := by
  obtain ⟨hready, -⟩ := chained_tells L h
  have hstart : Answering s.responses s.chained :=
    ⟨rfl, [], (List.append_nil _).symm, by simp [chained]⟩
  by_cases hclose : .close ∈ acts
  · -- what is behind the close is silent
    obtain ⟨pre, post, hacts, hpre⟩ := List.eq_append_cons_of_mem hclose
    have htake : acts.takeWhile (· ≠ .close) = pre := by
      rw [hacts, List.takeWhile_append_of_pos fun a ha => by
        simpa using fun heq : a = .close => hpre (heq ▸ ha)]
      simp
    obtain ⟨hbefore, hprocessed⟩ := acts_answering L hready hstart rfl hpre
    obtain ⟨_, htells, -, -⟩ := acts_tells L hready pre
    obtain ⟨hsilent, hready', hup⟩ := acts_silent L (act_tells L htells.ready .close).ready
      (close_silent (htells.bubbleUp.trans rfl))
      ((act_tells L htells.ready .close).bubbleUp.trans (htells.bubbleUp.trans rfl)) post
    have hend := finish_silent L hready' hsilent hup
    obtain ⟨new, hnew, hsome⟩ := hbefore.answered
    refine ⟨new, ?_, ?_⟩
    · have hfold : acts.foldl (act L) s.chained = post.foldl (act L)
          ((pre.foldl (act L) s.chained).act L .close) := by
        rw [hacts, List.foldl_append, List.foldl_cons]
      unfold request
      rw [hfold]
      exact hend.responses.trans hnew
    · rw [hsome, hprocessed, Answered, htake]
      simp [chained, hclose]
  · obtain ⟨hacts, -⟩ := acts_answering L hready hstart rfl hclose
    obtain ⟨_, htells, -, -⟩ := acts_tells L hready acts
    have hend := finish_answering L htells.ready hacts (htells.bubbleUp.trans rfl)
    obtain ⟨-, -, -, -, hprocessed⟩ := finish_tells L htells.ready (htells.bubbleUp.trans rfl)
    obtain ⟨new, hnew, hsome⟩ := hend.answered
    exact ⟨new, hnew, iff_of_true (hsome.mpr hprocessed) (.inl hclose)⟩

end Answers

section New
variable (L : TxtLib) {pid number : ℕ}

theorem alloc_ready (hpid : pid < 2 ^ 31) (hnumber : number < 2 ^ 31) (fd : ℤ) (now : ℕ) :
    Ready L (webSessionSid L pid number) (alloc L fd pid number now) := by
  have hline := not_mem_webSessionSid L hpid hnumber (c := 10) (by decide) (by decide)
  have hlen := webSessionSid_length L hpid hnumber
  refine ⟨le_rfl, .inl rfl, ⟨.inl rfl, hline, ?_⟩, fun h => absurd h (by simp [alloc,
    AroopTxt.isEmpty]), fun body hbody => absurd hbody List.not_mem_nil⟩
  have hmax : nginzMaxWebchatMsgSize = 1024 := rfl
  change (webSessionSid L pid number).length + 2 ≤ nginzMaxWebchatMsgSize
  omega

/-- What a new session tells its client, behind the session ids of its responses and with what
is still cached, is all that the chat said, with a space for each request on which it said
nothing, if and only if each text had room in the cache behind what was there and no response
with a text in it was given to a connection that the session had closed. -/
theorem session_told_iff (hpid : pid < 2 ^ 31) (hnumber : number < 2 ^ 31) (fd : ℤ) (now : ℕ)
    (es : List WebEvent) :
    let start := alloc L fd pid number now
    let s := es.foldl (on L) start
    s.told = Lossy.saidAlong (on L) said start es ↔
      Transition.Along (on L) (HasRoomFor L) start es ∧
        ∀ body ∈ s.deadResponses, payload body = [] := by
  intro start s
  obtain ⟨kept, hcarried, hkept, hwhole⟩ :=
    run_carries L (alloc_ready L hpid hnumber fd now) es
  have hall : s.carried = kept := hcarried
  rw [told_eq_iff (hall ▸ hkept), hall, hwhole]

/-- Whatever happened to a session, a request of its client is answered if and only if the chat
does not close the session in it, or sends a text without more to come before; and each response
is a session id on a line and a text: the id of the session, or that of a closed one. -/
theorem session_answers (hpid : pid < 2 ^ 31) (hnumber : number < 2 ^ 31) (fd : ℤ) (now : ℕ)
    (es : List WebEvent) (acts : List ChatAct) :
    let s := es.foldl (on L) (alloc L fd pid number now)
    ∃ new, (s.on L (.request acts)).responses = s.responses ++ new ∧
      (new ≠ [] ↔ Answered acts) ∧
      ∀ body ∈ s.responses ++ new, ∃ text, body = webSessionSid L pid number ++ 10 :: text ∨
        body = lit "invalid" ++ 10 :: text := by
  intro s
  have hready : Ready L (webSessionSid L pid number) s :=
    run_ready L (alloc_ready L hpid hnumber fd now) es
  obtain ⟨new, hnew, hsome⟩ := request_answered_iff L hready acts
  have hready' : Ready L (webSessionSid L pid number) (s.on L (.request acts)) :=
    run_ready L hready [.request acts]
  refine ⟨new, hnew, hsome, fun body hbody => ?_⟩
  obtain ⟨sid, text, hsid, rfl⟩ := hready'.answered body (responses_subset _ (hnew ▸ hbody))
  exact ⟨text, hsid.origin.imp (by rintro rfl; rfl) (by rintro rfl; rfl)⟩

end New

/-- A text that was cached, and the answer to a login. -/
theorem session_told_login :
    let events : List WebEvent := [.beside (.send (lit "Login name?\n") false),
      .request [.send (lit "Welcome bob\n") false], .request []]
    let start := alloc .cutting 7 (4711 : ℕ) (77 : ℕ) 1000
    let s := events.foldl (on .cutting) start
    s.told = Lossy.saidAlong (on .cutting) said start events ↔
      Transition.Along (on .cutting) (HasRoomFor .cutting) start events ∧
        ∀ body ∈ s.deadResponses, payload body = [] :=
  session_told_iff .cutting (by decide) (by decide) 7 1000 _

theorem session_answers_idle :
    let s := alloc .cutting 7 (4711 : ℕ) (77 : ℕ) 1000
    ∃ new, (s.on .cutting (.request [])).responses = s.responses ++ new ∧
      (new ≠ [] ↔ Answered []) ∧
      ∀ body ∈ s.responses ++ new, ∃ text,
        body = webSessionSid .cutting (4711 : ℕ) (77 : ℕ) ++ 10 :: text ∨
          body = lit "invalid" ++ 10 :: text :=
  session_answers .cutting (by decide) (by decide) 7 1000 [] []

end WebSession
end Nginz
