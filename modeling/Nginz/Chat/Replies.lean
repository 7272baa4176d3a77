import Nginz.Chat.Parting

/-! The replies of the master at a worker: the hooks that take them, and everything else
that can happen to a worker in between. -/
namespace Nginz

/-- `ON_ASYNC_ROOM_REPLY`. -/
def onAsyncRoomReply : Bytes := lit "on/async/room/reply"

/-- `chat_room_lookup_plug`: the token of the request it sends. -/
def chatRoomLookupPlug (w : Worker) (t : ℕ) : Option ℕ := if !isValidChat w t then none else some t

/-- `on_asyncchat_rooms` on the fields of a reply; `OPPUNREF` of `NULL` does nothing. -/
def onAsyncchatRooms (W : World) (w : Worker) (cbToken : ℕ) (info : Bytes) : Worker :=
  match chatGet w cbToken with
  | (w, none) => w
  | (w, some t) =>
    let info := if info = [] then lit "There is no room\n" else info
    let w := defaultChatSend W w t info
    oppUnref W w t

/-- The fields of a reply behind its token. -/
inductive Reply where
  | login (success : ℤ) (name : Bytes)
  | roomPid (roomKey pidstr : Bytes)
  | rooms (info : Bytes)
  deriving DecidableEq, Repr

/-- The plugin space that takes the reply. -/
def Reply.hook : Reply → Bytes
  | .login .. => onAsyncchatLoginName
  | .roomPid .. => onAsyncchatRoomPidName
  | .rooms .. => onAsyncRoomReply

/-- The hook of the reply. -/
def onReply (W : World) (w : Worker) (cbToken : ℕ) : Reply → Worker
  | .login success name => onAsyncchatLoginHook W w cbToken success name
  | .roomPid roomKey pidstr => onAsyncchatRoomPid W w cbToken roomKey pidstr
  | .rooms info => onAsyncchatRooms W w cbToken info

/-- What happens to a worker beside the replies: data or the end of a client, a transferred
socket, a pass over the zombies, a lazy cleanup, and the passing of time. -/
inductive WorkerEvent where
  | clientData (fd : ℤ) (t : ℕ) (result : RecvResult)
  | arrive (fd : ℤ) (t : ℕ) (storage : Bytes) (h : HandOff)
  | zombiePass
  | cleanup
  | tick
  deriving DecidableEq, Repr

/-- The event loop dispatches for registrations only, the kernel gives a descriptor number
that is closed, and the pool gives a free slot. -/
def Worker.Enabled (w : Worker) : WorkerEvent → Prop
  | .clientData fd t _ => (fd, t) ∈ w.eventLoop
  | .arrive fd t _ _ => 0 ≤ fd ∧ w.fds fd = none ∧ w.chats t = none
  | _ => True

instance (w : Worker) (e : WorkerEvent) : Decidable (w.Enabled e) := by
  cases e <;> unfold Worker.Enabled <;> infer_instance

def Worker.on (W : World) (w : Worker) (e : WorkerEvent) : Worker :=
  if w.Enabled e then
    match e with
    | .clientData fd t result => onClientData W w fd t result
    | .arrive fd t storage h => onRawRecvSocket W w fd t storage h
    | .zombiePass => chatLazyCleanupFiber w
    | .cleanup => lazyCallStep W w
    | .tick => { w with clock := w.clock + 1 }
  else w

/-- A connection that takes no more replies. -/
def ChatConnection.ending (c : ChatConnection) : Bool :=
  c.state.quit || c.state.softQuit || c.state.zombie

/-! ### What a reply does to the connection it reaches -/

/-- A login reply without a name is for nobody. -/
def Reply.silent : Reply → Bool
  | .login _ name => name = []
  | _ => false

/-- What the connection is told first. -/
def Reply.text (L : TxtLib) : Reply → Bytes
  | .login success name =>
    if success ≠ 0 then compose L 128 [lit "Welcome ", name, lit "!", lit "\n"]
    else lit "Sorry, name taken.\n"
  | .roomPid roomKey pidstr =>
    if txtToInt (compose L 32 [pidstr]) ≤ 0 ∨ roomOfPidKey L roomKey = [] then
      lit "The room is not avilable\n"
    else
      compose L 64 [lit "Trying ...(" ++ decimal (txtToInt (compose L 32 [pidstr])) ++ lit ")\n"]
  | .rooms info => if info = [] then lit "There is no room\n" else info

/-- What is done to the connection before it is told. -/
def Reply.adopt (L : TxtLib) (w : Worker) (t : ℕ) : Reply → Worker
  | .login success name =>
    if success ≠ 0 then
      ({ w with greetOnLogin := compose L 128 [lit "Welcome ", name, lit "!", lit "\n"] }).setChat t
        fun c => { c with name := name, onResponseCallback := none,
                          state := { c.state with loggedIn := true } }
    else { w with greetOnLogin := lit "Sorry, name taken.\n" }
  | _ => w

/-- What is done to the connection after it was told. -/
def Reply.follow (W : World) (w : Worker) (t : ℕ) : Reply → Worker
  | .roomPid roomKey pidstr =>
    if txtToInt (compose W.txt 32 [pidstr]) ≤ 0 ∨ roomOfPidKey W.txt roomKey = [] then w
    else chatJoinHelper W w t (roomOfPidKey W.txt roomKey) (txtToInt (compose W.txt 32 [pidstr]))
  | _ => w

/-- A reply applied to the connection in slot `t`. -/
def Reply.apply (W : World) (w : Worker) (t : ℕ) (r : Reply) : Worker :=
  r.follow W (defaultChatSend W (r.adopt W.txt w t) t (r.text W.txt)) t

variable (W : World) (w : Worker) (t : ℕ)

theorem welcome_ne_nil (L : TxtLib) (name : Bytes) :
    compose L 128 [lit "Welcome ", name, lit "!", lit "\n"] ≠ [] := by
  intro hnil
  have hhead := compose_head L [name, lit "!", lit "\n"]
    (show (lit "Welcome ").length ≤ 128 by decide)
  rw [hnil, List.prefix_nil] at hhead
  exact absurd hhead (by decide)

/-- The hooks: the connection that the token leads to takes a reference, gets the reply,
and gives the reference back. -/
theorem onReply_eq (cbToken : ℕ) {r : Reply} (hr : r.silent = false) : onReply W w cbToken r =
    match chatGet w cbToken with
    | (w, none) => w
    | (w, some t) => oppUnref W (r.apply W w t) t := by
  cases r with
  | login success name =>
    have hname : name ≠ [] := by simpa [Reply.silent] using hr
    unfold onReply onAsyncchatLoginHook
    dsimp only
    rw [if_neg hname]
    generalize chatGet w cbToken = found
    obtain ⟨v, _ | t⟩ := found
    · rfl
    unfold Reply.apply Reply.follow Reply.adopt Reply.text
    by_cases hs : success ≠ 0
    · have htwice : ({ v.setChat t fun c => { c with name := name } with
            greetOnLogin := compose W.txt 128 [lit "Welcome ", name, lit "!", lit "\n"] }).setChat t
            (fun c => { c with onResponseCallback := none, state :=
              { c.state with loggedIn := true } }) =
          ({ v with
            greetOnLogin := compose W.txt 128 [lit "Welcome ", name, lit "!", lit "\n"] }).setChat t
            fun c => { c with name := name, onResponseCallback := none,
                              state := { c.state with loggedIn := true } } := by
        unfold Worker.setChat
        simp only [Function.update_self, Function.update_idem, Option.map_map]
        rfl
      simp only [if_pos hs, htwice]
      show oppUnref W (if compose W.txt 128 [lit "Welcome ", name, lit "!", lit "\n"] ≠ [] then
        _ else _) t = _
      rw [if_pos (welcome_ne_nil W.txt name)]
      rfl
    · simp only [if_neg hs]
      rfl
  | roomPid roomKey pidstr =>
    unfold onReply onAsyncchatRoomPid
    dsimp only
    generalize chatGet w cbToken = found
    obtain ⟨v, _ | t⟩ := found
    · rfl
    unfold Reply.apply Reply.follow Reply.adopt Reply.text
    dsimp only
    split
    · rfl
    · rfl
  | rooms info => rfl

theorem onReply_silent (cbToken : ℕ) {r : Reply} (hr : r.silent = true) :
    onReply W w cbToken r = w := by
  cases r with
  | login success name =>
    have hname : name = [] := by simpa [Reply.silent] using hr
    unfold onReply onAsyncchatLoginHook
    exact if_pos hname
  | roomPid roomKey pidstr => exact absurd hr (by simp [Reply.silent])
  | rooms info => exact absurd hr (by simp [Reply.silent])

section Slot
variable {cbToken : ℕ} {r : Reply}

/-- An empty slot is a null object. -/
theorem onReply_none (hc : w.chats cbToken = none) (hr : r.silent = false) :
    onReply W w cbToken r = w.assert false := by
  rw [onReply_eq W w cbToken hr]
  unfold chatGet
  rw [hc]

variable {c : ChatConnection} (hc : w.chats cbToken = some c)
include hc

/-- A connection that is ending only gets a reference that nobody gives back. -/
theorem onReply_ending (hend : c.ending = true) (hr : r.silent = false) :
    onReply W w cbToken r = w.setChat cbToken fun c => { c with refs := c.refs + 1 } := by
  unfold ChatConnection.ending at hend
  rw [onReply_eq W w cbToken hr]
  unfold chatGet
  rw [hc]
  simp [hend]

theorem onReply_open (hopen : c.ending = false) (hr : r.silent = false) : onReply W w cbToken r =
    oppUnref W (r.apply W (w.setChat cbToken fun c => { c with refs := c.refs + 1 }) cbToken)
      cbToken := by
  unfold ChatConnection.ending at hopen
  rw [onReply_eq W w cbToken hr]
  unfold chatGet
  rw [hc]
  simp [hopen]

end Slot

theorem joinHelper_sends (room : Bytes) (pid : ℤ) :
    w.sends <+: (chatJoinHelper W w t room pid).sends := by
  have hraw (v : Worker) (fd : ℤ) (msg : Bytes) :
      (ppRawSendSocket W v t pid fd msg).sends = v.sends := by
    unfold ppRawSendSocket
    split
    · rfl
    · split <;> rfl
  have hqueue (v : Worker) : (lazyCleanup v (.chat t)).sends = v.sends := by
    unfold lazyCleanup
    dsimp only
    split <;> rfl
  unfold chatJoinHelper chatJoinTransfer
  split
  · dsimp only
    rw [hqueue]
    refine (routine_leave W w t).sends.trans ?_
    show _ <+: (ppRawSendSocket W _ t pid _ _).sends
    rw [hraw]
    exact List.prefix_rfl
  · exact (join_keeps W w t room).2.2

/-- The connection that a reply reaches is the first one that is told something. -/
theorem apply_sends (r : Reply) :
    ∃ rest, (oppUnref W (r.apply W w t) t).sends = w.sends ++ (t, r.text W.txt) :: rest := by
  have hadopt : (r.adopt W.txt w t).sends = w.sends := by
    cases r with
    | login success name =>
      unfold Reply.adopt
      dsimp only
      split <;> rfl
    | _ => rfl
  have hfollow (v : Worker) : v.sends <+: (r.follow W v t).sends := by
    cases r with
    | roomPid roomKey pidstr =>
      unfold Reply.follow
      dsimp only
      split
      · exact List.prefix_rfl
      · exact joinHelper_sends W v t _ _
    | _ => exact List.prefix_rfl
  obtain ⟨rest, hrest⟩ :=
    (hfollow (defaultChatSend W (r.adopt W.txt w t) t (r.text W.txt))).trans
      (parting_unref W (r.apply W w t) t).sends_grow
  refine ⟨rest, ?_⟩
  rw [← hrest, defaultChatSend_sends, hadopt, List.append_assoc]
  rfl

/-- A datagram that brings a new client. -/
def welcomeHandOff (pid : ℤ) (socket : ℕ) : HandOff :=
  ⟨pid, socket, (transferMessage .cutting 255 pid nginzChatPort (lit "chat/_welcome")).content⟩

end Nginz
