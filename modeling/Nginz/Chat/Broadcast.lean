import Nginz.Chat.Worker

/-! Rooms of a worker: joining, leaving, and sending to the users of a room. -/
namespace Nginz

/-- `NGINZ_MAX_CHAT_ROOM_USER`. -/
def nginzMaxChatRoomUser : ℕ := 32

/-- `NGINZ_MAX_CHAT_USER_NAME_SIZE` and `NGINZ_MAX_CHAT_MSG_SIZE`. -/
def nginzMaxChatUserNameSize : ℕ := 32
def nginzMaxChatMsgSize : ℕ := 255

/-- The key of the user count of a room in its 128-byte buffer. -/
def roomUserKey (L : TxtLib) (room : Bytes) : Bytes := compose L 128 [lit "room/user/", room]

/-- The key of the host of a room. -/
def roomPidKey (L : TxtLib) (room : Bytes) : Bytes := compose L 128 [lit "room/pid/", room]

def chatRoomSetUserCount (W : World) (w : Worker) (myRoom : Bytes) (userCount increment : ℤ) :
    Worker :=
  if myRoom = [] then w
  else w.call (.increment (-1) none (roomUserKey W.txt myRoom) userCount increment)

/-- `chat` is the user left out, if any. -/
def broadcastCallbackHelper (W : World) (w : Worker) (chat : Option ℕ) (rm : ℕ) (msg : Bytes) :
    Worker :=
  (w.users rm).foldl (fun w other =>
    if chat = some other then w else defaultChatSend W w other msg) w

def broadcastCallback (W : World) (w : Worker) (t : ℕ) (msg : Bytes) : Worker :=
  match (w.chat t).callbackData with
  | none => w
  | some rm =>
    let resp := compose W.txt (nginzMaxChatUserNameSize + nginzMaxChatMsgSize)
      [(w.chat t).name, lit ":", msg]
    broadcastCallbackHelper W w (some t) rm resp

/-- The first user of the room with the given name gets the message. -/
def broadcastPrivateMessage (W : World) (w : Worker) (t : ℕ) (dest msg : Bytes) : Worker :=
  match (w.chat t).callbackData with
  | none => w
  | some rm =>
    match (w.users rm).find? fun other => (w.chat other).name = dest with
    | none => w
    | some other => defaultChatSend W w other msg

def broadcastRoomGreet (W : World) (w : Worker) (t rm : ℕ) : Worker :=
  let line := compose W.txt 1024
  let w := defaultChatSend W w t (line [lit "Entering room:", w.roomName rm, lit "\n"])
  let w := (w.users rm).foldl (fun w other =>
    defaultChatSend W w t (line ([lit "\t", lit "*", lit " ", (w.chat other).name] ++
      (if t = other then [lit "(** this is you)"] else []) ++ [lit "\n"]))) w
  let w := defaultChatSend W w t (line [lit "end of list\n"])
  broadcastCallbackHelper W w (some t) rm
    (line [lit "\t* user joined chat:", (w.chat t).name, lit "\n"])

/-- The leaving user is not left out. -/
def broadcastRoomBye (W : World) (w : Worker) (t rm : ℕ) : Worker :=
  broadcastCallbackHelper W w none rm
    (compose W.txt 1024 [lit "\t* user has left chat:", (w.chat t).name, lit "\n"])

def broadcastRoomSendJoinFailed (W : World) (w : Worker) (t : ℕ) : Worker :=
  defaultChatSend W w t (lit "Sorry, room is full\n")

/-- The first entry of a user is pruned from a list, with the reference it holds; the
caller holds another one. -/
def pruneUser (w : Worker) (t rm : ℕ) : Worker :=
  if t ∈ w.users rm then
    (w.setRoom rm fun room => { room with userList := room.userList.erase t }).setChat t fun c =>
      { c with refs := c.refs - 1 }
  else w

/-- The pruning and the assignments that make a user no member. -/
def exitRoom (w : Worker) (t rm : ℕ) : Worker :=
  (pruneUser w t rm).setChat t fun c =>
    { c with callbackData := none, onResponseCallback := none,
             state := { c.state with inRoom := false } }

def broadcastRoomLeave (W : World) (w : Worker) (t : ℕ) : Worker :=
  match (w.chat t).callbackData with
  | none => w
  | some rm =>
    let w := w.assert (w.chat t).state.inRoom
    let w := broadcastRoomBye W w t rm
    let w := exitRoom w t rm
    chatRoomSetUserCount W w (w.roomName rm) ((w.users rm).length + 1) (-1)

/-- `opp_list_add_noref`, `OPPREF` and the assignments that make a user a member. -/
def enterRoom (w : Worker) (t rm : ℕ) : Worker :=
  (w.setRoom rm fun room => { room with userList := room.userList ++ [t] }).setChat t fun c =>
    { c with refs := c.refs + 1, callbackData := some rm, onResponseCallback := some .broadcast,
             state := { c.state with inRoom := true } }

/-- The `do ... while(0)` block of `broadcast_room_join`: a member stays, anybody else
leaves the old room and enters the new one. -/
def settleInRoom (W : World) (w : Worker) (t rm : ℕ) : Worker :=
  if (w.chat t).callbackData = some rm then w.assert (w.chat t).state.inRoom
  else
    let w :=
      if (w.chat t).callbackData.isSome then
        broadcastRoomLeave W (w.assert (w.chat t).state.inRoom) t
      else w
    enterRoom (w.assert (w.chat t).callbackData.isNone) t rm

/-- What `broadcast_room_join` does behind that block. -/
def announceJoin (W : World) (w : Worker) (t rm : ℕ) : Worker :=
  let w := w.assert (w.chat t).callbackData.isSome
  let w := w.setRoom rm fun room => { room with refs := room.refs - 1 }
  let w := broadcastRoomGreet W w t rm
  let oldcount : ℤ := (w.users rm).length
  chatRoomSetUserCount W w (w.roomName rm) (oldcount - 1) 1

/-- The worker and the return code. -/
def broadcastRoomJoin (W : World) (w : Worker) (t : ℕ) (roomName : Bytes) : Worker × ℤ :=
  if !(w.chat t).state.loggedIn then (w, -1)
  else
    match W.oppSearch (w.rooms.map InternalRoom.name) roomName with
    | none => (w, -1)
    | some rm =>
      let w := w.setRoom rm fun room => { room with refs := room.refs + 1 }
      if (w.users rm).length ≥ nginzMaxChatRoomUser then
        (broadcastRoomSendJoinFailed W w t, -1)
      else (announceJoin W (settleInRoom W w t rm) t rm, 0)

/-! ### The rooms of a worker -/

/-- A name that is there already is not added again. -/
def broadcastAddRoom (w : Worker) (roomName : Bytes) : Worker :=
  if roomName ∈ w.rooms.map InternalRoom.name then w
  else { w with rooms := w.rooms ++ [InternalRoom.mk roomName [] 1] }

/-- `chat_room_add_helper` for a name of `default_rooms`. -/
def chatRoomAddHelper (L : TxtLib) (w : Worker) (myRoom : Bytes) : Worker :=
  let roomName := compose L 128 [myRoom]
  let w := w.call (.setIfNull (-1) none (roomPidKey L roomName) w.pid)
  broadcastAddRoom w roomName

/-- A worker with its rooms, before the first connection. -/
def Worker.start (L : TxtLib) (pid : ℤ) (myRooms : List Bytes) (clock : ℕ) : Worker :=
  myRooms.foldl (chatRoomAddHelper L) (.fresh pid clock)

end Nginz
