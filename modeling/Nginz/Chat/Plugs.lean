import Nginz.Chat.Factory
import Nginz.Chat.Command

/-! The bridge plugins of the chat and the replies they wait for. -/
namespace Nginz

def nginzChatPort : ℤ := 9399

/-- `IS_VALID_CHAT` of a connection of its own socket. -/
def isValidChat (w : Worker) (t : ℕ) : Bool := (w.chat t).fd ≠ invalidFd

/-! ### Logging in -/

def onAsyncchatLoginName : Bytes := lit "on/asyncchat/login"

def chatWelcomePlug (W : World) (w : Worker) (t : ℕ) : Worker :=
  if !isValidChat w t then w
  else
    let w := w.assert ((w.chat t).state = .connected)
    let w := w.setChat t fun c => { c with onResponseCallback := some .login }
    defaultChatSend W w t (lit "Welcome to NginZ chat server\nLogin name?\n")

/-- A name line; when the request is sent, the greeting left over from before is too. -/
def onAsyncchatLogin (W : World) (w : Worker) (t : ℕ) (answer : Bytes) : Worker :=
  if answer = [] then w
  else
    let w := w.assert ((w.chat t).state = .connected)
    let name := (scannerNextToken answer).1
    let w :=
      if name = [] then { w with greetOnLogin := lit "Invalid name:(, try again\n" }
      else if name.length ≥ nginzMaxChatUserNameSize then
        { w with greetOnLogin := lit "The name is too big\n" }
      else asyncTryLogin W w name t onAsyncchatLoginName
    if w.greetOnLogin ≠ [] then defaultChatSend W w t w.greetOnLogin else w

/-- `on_asyncchat_login_hook` on the fields of a reply. -/
def onAsyncchatLoginHook (W : World) (w : Worker) (cbToken : ℕ) (success : ℤ) (name : Bytes) :
    Worker :=
  if name = [] then w
  else
    match chatGet w cbToken with
    | (w, none) => w
    | (w, some t) =>
      let w : Worker :=
        if success ≠ 0 then
          let w := w.setChat t fun c => { c with name := name }
          let w : Worker :=
            { w with greetOnLogin := compose W.txt 128 [lit "Welcome ", name, lit "!", lit "\n"] }
          w.setChat t fun c =>
            { c with onResponseCallback := none, state := { c.state with loggedIn := true } }
        else { w with greetOnLogin := lit "Sorry, name taken.\n" }
      let w := if w.greetOnLogin ≠ [] then defaultChatSend W w t w.greetOnLogin else w
      oppUnref W w t

/-! ### Joining a room -/

def onAsyncchatRoomPidName : Bytes := lit "on/asyncchat/room/pid"

/-- `pp_raw_send_socket`: the descriptor is closed here when it is sent. -/
def ppRawSendSocket (W : World) (w : Worker) (t : ℕ) (destpid : ℤ) (fd : ℤ) (msg : Bytes) :
    Worker :=
  match w.fds fd with
  | none => w.logFd (.handOffFailed fd t)
  | some socket =>
    if W.rawSendOk w.fdLog.length destpid then
      { w with fds := Function.update w.fds fd none,
               handOffs := w.handOffs ++ [HandOff.mk destpid socket msg] }.logFd (.handOff fd t)
    else w.logFd (.handOffFailed fd t)

def defaultTransferParallel (W : World) (w : Worker) (t : ℕ) (destpid protoPort : ℤ) (cmd : Bytes) :
    Worker :=
  let bin := transferMessage W.txt (W.txt.room 255) destpid protoPort cmd
  let w := w.eventLoopUnregisterFd (w.chat t).fd t
  ppRawSendSocket W w t destpid (w.chat t).fd bin.content

/-- The command of a transfer in its 128-byte buffer. -/
def hiddenjoinCommand (L : TxtLib) (room name : Bytes) : Bytes :=
  compose L 128 [lit "chat/_hiddenjoin ", room, lit " ", name, lit "\n"]

/-- `chat_join_transfer` behind leaving the room and before the lazy queue. -/
def transferOut (W : World) (w : Worker) (t : ℕ) (room : Bytes) (pid : ℤ) : Worker :=
  let w := w.eventLoopUnregisterFd (w.chat t).fd t
  let cmd := hiddenjoinCommand W.txt room (w.chat t).name
  let w := defaultTransferParallel W w t pid nginzChatPort cmd
  w.setState t fun s => { s with softQuit := true }

def chatJoinTransfer (W : World) (w : Worker) (t : ℕ) (room : Bytes) (pid : ℤ) : Worker :=
  let w := broadcastRoomLeave W w t
  let w := transferOut W w t room pid
  lazyCleanup w (.chat t)

def chatJoinHelper (W : World) (w : Worker) (t : ℕ) (room : Bytes) (pid : ℤ) : Worker :=
  if pid ≠ w.pid then chatJoinTransfer W w t room pid else (broadcastRoomJoin W w t room).1

/-- `chat_room_convert_room_from_room_pid_key`. -/
def roomOfPidKey (L : TxtLib) (roomKey : Bytes) : Bytes :=
  (compose L 64 [roomKey]).drop (lit "room/pid/").length

/-- `on_asyncchat_room_pid` on the fields of a reply. -/
def onAsyncchatRoomPid (W : World) (w : Worker) (cbToken : ℕ) (roomKey pidstr : Bytes) : Worker :=
  let room := roomOfPidKey W.txt roomKey
  match chatGet w cbToken with
  | (w, none) => w
  | (w, some t) =>
    let pid := txtToInt (compose W.txt 32 [pidstr])
    if pid ≤ 0 ∨ room = [] then
      oppUnref W (defaultChatSend W w t (lit "The room is not avilable\n")) t
    else
      let w := defaultChatSend W w t
        (compose W.txt 64 [lit "Trying ...(" ++ decimal pid ++ lit ")\n"])
      let w := chatJoinHelper W w t room pid
      oppUnref W w t

/-- `chat_room_get_pid`. -/
def chatRoomGetPid (W : World) (w : Worker) (myRoom : Bytes) (token : ℤ) (callbackHook : Bytes) :
    Worker × ℤ :=
  if myRoom = [] then (w, -1)
  else (w.call (.get token (some callbackHook) (roomPidKey W.txt myRoom)), 0)

def chatJoinPlug (W : World) (w : Worker) (t : ℕ) (request : Bytes) : Worker :=
  if !isValidChat w t then w
  else if (w.chat t).name = [] then defaultChatSend W w t (lit "Please login first\n")
  else
    let room := (scannerNextToken request).1
    if room = [] then defaultChatSend W w t (lit "The room is not avilable\n")
    else
      let r := chatRoomGetPid W w room t onAsyncchatRoomPidName
      if r.2 = -1 then defaultChatSend W r.1 t (lit "The room is not avilable\n")
      else defaultChatSend W r.1 t (compose W.txt 64 [lit "Trying ...\n"])

/-- The room and the name of a hidden join, when the request has them. -/
def chatHiddenjoinGetRoomAndName (request : Bytes) : Option (Bytes × Bytes) :=
  let command := scannerNextToken request
  let room := scannerNextToken command.2
  let name := scannerNextToken room.2
  if command.1 = [] ∨ room.1 = [] ∨ name.1 = [] then none else some (room.1, name.1)

def chatHiddenjoinPlug (W : World) (w : Worker) (t : ℕ) (request : Bytes) : Worker :=
  if !isValidChat w t then w
  else
    let w := w.setState t fun s => { s with loggedIn := true }
    match chatHiddenjoinGetRoomAndName request with
    | none => w
    | some (room, name) =>
      let w := w.setChat t fun c => { c with name := name }
      (broadcastRoomJoin W w t room).1

/-! ### The other plugins -/

def chatLeavePlug (W : World) (w : Worker) (t : ℕ) : Worker :=
  if !isValidChat w t then w
  else
    let w := broadcastRoomLeave W w t
    w.assert !(w.chat t).state.inRoom

/-- The worker and the return code. -/
def chatQuitPlug (W : World) (w : Worker) (t : ℕ) : Worker × ℤ :=
  if !isValidChat w t then (w, 0)
  else
    let w := broadcastRoomLeave W w t
    let w := w.setState t fun s => { s with quit := true }
    let w := logoffUser W w t
    (defaultChatSend W w t (lit "BYE\n"), -1)

def chatPrivateMessagePlug (W : World) (w : Worker) (t : ℕ) (request : Bytes) : Worker :=
  if !isValidChat w t || !(w.chat t).state.inRoom then w
  else
    let other := (scannerNextToken request).1
    let sandbox := (scannerNextToken request).2
    if other = [] ∨ sandbox = [] then w
    else
      let pm := compose W.txt (32 + nginzMaxChatUserNameSize + nginzMaxChatMsgSize)
        [(w.chat t).name, lit "~", sandbox]
      broadcastPrivateMessage W w t other pm

/-- `composite_plugin_bridge_call` on the chat plugins: the worker and the joined return
codes. The plugins that only answer with a text are `W.otherPlug`. -/
def pluginBridgeCall (W : World) (w : Worker) (t : ℕ) (space request : Bytes) : Worker × ℤ :=
  if space = lit "chat/_welcome" then (chatWelcomePlug W w t, 0)
  else if space = lit "chat/_hiddenjoin" then (chatHiddenjoinPlug W w t request, 0)
  else if space = lit "chat/join" then (chatJoinPlug W w t request, 0)
  else if space = lit "chat/leave" then (chatLeavePlug W w t, 0)
  else if space = lit "chat/quit" then chatQuitPlug W w t
  else if space = lit "chat/pm" then (chatPrivateMessagePlug W w t request, 0)
  else
    match W.otherPlug space with
    | some text => (if isValidChat w t then defaultChatSend W w t text else w, 0)
    | none => (w, 0)

end Nginz
