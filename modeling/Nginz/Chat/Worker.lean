import Nginz.Db.AsyncDb
import Nginz.Net.TransferMessage
import Nginz.Net.Streamio

/-! The state of a chat worker: its connections, its rooms, its event loop and the
descriptors it holds, with a record of what it sent and to whom. -/
namespace Nginz

/-- `enum chat_state`, one flag for each bit; `CHAT_CONNECTED` is no flag. -/
structure ChatState where
  loggedIn : Bool
  inRoom : Bool
  quit : Bool
  softQuit : Bool
  zombie : Bool
  deriving DecidableEq, Repr

def ChatState.connected : ChatState := ⟨false, false, false, false, false⟩

/-- The values of `on_response_callback`: `on_asyncchat_login` and `broadcast_callback`. -/
inductive ResponseCallback where
  | login | broadcast
  deriving DecidableEq, Repr

/-- `struct chat_connection` of a client that talks over a socket of its own. The room in
`callback_data` is given by its index, and `refs` is the reference count of the object. -/
structure ChatConnection where
  fd : ℤ
  error : Bool
  state : ChatState
  name : Bytes
  onResponseCallback : Option ResponseCallback
  callbackData : Option ℕ
  quitedAt : ℕ
  refs : ℕ
  deriving DecidableEq, Repr

/-- A fresh object of the pool, after its initializer and with the given descriptor. -/
def ChatConnection.initial (fd : ℤ) : ChatConnection :=
  ⟨fd, false, .connected, [], none, none, 0, 1⟩

/-- `struct internal_room`; users are given by their tokens. -/
structure InternalRoom where
  name : Bytes
  userList : List ℕ
  refs : ℕ
  deriving DecidableEq, Repr

/-- An object given to `lazy_cleanup`: a connection, or the entry of one in the zombie list. -/
inductive LazyObject where
  | chat (t : ℕ)
  | zombie (t : ℕ)
  deriving DecidableEq, Repr

/-- What is done to a descriptor number, and for which connection; an unregistration also
says whose registration goes. -/
inductive FdEvent where
  | opened (fd : ℤ) (t : ℕ)
  | register (fd : ℤ) (t : ℕ)
  | unregister (fd : ℤ) (t : ℕ) (removed : Option ℕ)
  | write (fd : ℤ) (t : ℕ)
  | close (fd : ℤ) (t : ℕ)
  | handOff (fd : ℤ) (t : ℕ)
  | handOffFailed (fd : ℤ) (t : ℕ)
  deriving DecidableEq, Repr

/-- A datagram with a socket on its way to another process. -/
structure HandOff where
  destpid : ℤ
  socket : ℕ
  datagram : Bytes
  deriving DecidableEq, Repr

/-- What a worker does not decide: the text library, the outcome of a write to a
connection and of a hand-off when the worker has logged `n` operations on descriptors, and
the result of `opp_search` among rooms of the given names. -/
structure World where
  txt : TxtLib
  sendFails : ℕ → ℕ → Bool
  rawSendOk : ℕ → ℤ → Bool
  oppSearch : List Bytes → Bytes → Option ℕ
  oppSearch_lt : ∀ names name i, oppSearch names name = some i → i < names.length
  otherPlug : Bytes → Option Bytes

/-- A world where every operation succeeds and rooms are found by their names. -/
def World.calm : World where
  txt := .cutting
  sendFails _ _ := false
  rawSendOk _ _ := true
  oppSearch names name := names.findIdx? (· = name)
  oppSearch_lt _ _ _ h := (List.findIdx?_eq_some_iff_findIdx_eq.mp h).1
  otherPlug _ := none

/-- A worker process. `fds` is its descriptor table, `calls`, `sends`, `fdLog` and
`handOffs` are what it did so far, in order. -/
structure Worker where
  pid : ℤ
  chats : ℕ → Option ChatConnection
  rooms : List InternalRoom
  eventLoop : List (ℤ × ℕ)
  fds : ℤ → Option ℕ
  lazyCleanup : List LazyObject
  zombieList : List ℕ
  quiting : Bool
  clock : ℕ
  gear : ℕ
  greetOnLogin : Bytes
  crashed : Bool
  calls : List DbCall
  sends : List (ℕ × Bytes)
  fdLog : List FdEvent
  handOffs : List HandOff

namespace Worker

/-- A worker that has done nothing yet. -/
def fresh (pid : ℤ) (clock : ℕ) : Worker where
  pid := pid
  chats _ := none
  rooms := []
  eventLoop := []
  fds _ := none
  lazyCleanup := []
  zombieList := []
  quiting := false
  clock := clock
  gear := 0
  greetOnLogin := []
  crashed := false
  calls := []
  sends := []
  fdLog := []
  handOffs := []

/-- The object a pointer of this token leads to. -/
def chat (w : Worker) (t : ℕ) : ChatConnection := (w.chats t).getD (.initial invalidFd)

/-- An assignment to fields of the object. -/
def setChat (w : Worker) (t : ℕ) (f : ChatConnection → ChatConnection) : Worker :=
  { w with chats := Function.update w.chats t ((w.chats t).map f) }

def setState (w : Worker) (t : ℕ) (f : ChatState → ChatState) : Worker :=
  w.setChat t fun c => { c with state := f c.state }

def users (w : Worker) (r : ℕ) : List ℕ := (w.rooms[r]?).elim [] InternalRoom.userList

def roomName (w : Worker) (r : ℕ) : Bytes := (w.rooms[r]?).elim [] InternalRoom.name

def setRoom (w : Worker) (r : ℕ) (f : InternalRoom → InternalRoom) : Worker :=
  { w with rooms := w.rooms.modify r f }

/-- `aroop_assert`. -/
def assert (w : Worker) (b : Bool) : Worker := { w with crashed := w.crashed || !b }

def call (w : Worker) (c : DbCall) : Worker := { w with calls := w.calls ++ [c] }

def logFd (w : Worker) (e : FdEvent) : Worker := { w with fdLog := w.fdLog ++ [e] }

/-- `event_loop_register_fd` with a connection as its data. -/
def eventLoopRegisterFd (w : Worker) (fd : ℤ) (t : ℕ) : Worker :=
  { w with eventLoop := w.eventLoop ++ [(fd, t)] }.logFd (.register fd t)

/-- `event_loop_unregister_fd`, called for connection `t`: the first registration of the
number goes. -/
def eventLoopUnregisterFd (w : Worker) (fd : ℤ) (t : ℕ) : Worker :=
  let removed := (w.eventLoop.find? fun e => e.1 = fd).map Prod.snd
  { w with eventLoop := w.eventLoop.eraseP fun e => e.1 = fd }.logFd (.unregister fd t removed)

/-- `close(2)`, called for connection `t`. -/
def closeFd (w : Worker) (fd : ℤ) (t : ℕ) : Worker :=
  { w with fds := Function.update w.fds fd none }.logFd (.close fd t)

section Fields
variable (w : Worker) (t : ℕ) (f : ChatConnection → ChatConnection)

@[simp] theorem setChat_same : (w.setChat t f).chats t = (w.chats t).map f := by
  unfold setChat
  simp

theorem setChat_other {u : ℕ} (h : u ≠ t) : (w.setChat t f).chats u = w.chats u := by
  unfold setChat
  exact Function.update_of_ne h ..

theorem chat_of_some {c : ChatConnection} (h : w.chats t = some c) : w.chat t = c := by
  simp [chat, h]

variable {w t}

theorem setChat_absent (h : w.chats t = none) : (w.setChat t f).chats = w.chats := by
  unfold setChat
  dsimp only
  rw [h]
  exact Function.update_eq_self_iff.mpr h.symm

theorem loggedIn_some (h : (w.chat t).state.loggedIn = true) :
    ∃ c, w.chats t = some c ∧ c.state.loggedIn = true := by
  cases hc : w.chats t with
  | none => simp [chat, hc, ChatConnection.initial, ChatState.connected] at h
  | some c =>
    rw [w.chat_of_some t hc] at h
    exact ⟨c, rfl, h⟩

theorem callbackData_some {r : ℕ} (h : (w.chat t).callbackData = some r) :
    ∃ c, w.chats t = some c ∧ c.callbackData = some r := by
  cases hc : w.chats t with
  | none => simp [chat, hc, ChatConnection.initial] at h
  | some c =>
    rw [w.chat_of_some t hc] at h
    exact ⟨c, rfl, h⟩

end Fields
end Worker

/-- A text built by appending the parts in a stack buffer of the given size. -/
def compose (L : TxtLib) (n : ℕ) (parts : List Bytes) : Bytes :=
  (parts.foldl (fun t part => t.concat L part) (AroopTxt.stackbuffer L n)).content

/-- `aroop_txt_to_int`. -/
def txtToInt (s : Bytes) : ℤ :=
  let digits (s : Bytes) : ℕ :=
    (s.takeWhile fun c => 48 ≤ c && c ≤ 57).foldl (fun acc c => acc * 10 + (c.toNat - 48)) 0
  match s with
  | 45 :: rest => -(digits rest : ℤ)
  | _ => digits s

/-! ### Sending -/

/-- `default_streamio_send_nonblock` for a stream without another one above it. -/
def defaultStreamioSendNonblock (W : World) (w : Worker) (t : ℕ) : Worker :=
  if (w.chat t).fd = invalidFd then w
  else
    let err := W.sendFails w.fdLog.length t
    let w := w.logFd (.write (w.chat t).fd t)
    if err then w.setChat t fun c => { c with error := true } else w

/-- A call of `strm.send`, which is `default_chat_send`. The call is recorded before the test of
the state, which may refuse it; what is written is in the log of the descriptors. -/
def defaultChatSend (W : World) (w : Worker) (t : ℕ) (content : Bytes) : Worker :=
  let w := { w with sends := w.sends ++ [(t, content)] }
  if (w.chat t).state.quit || (w.chat t).state.softQuit || (w.chat t).state.zombie then w
  else
    let w := defaultStreamioSendNonblock W w t
    if (w.chat t).error then w.setState t fun s => { s with softQuit := true } else w

end Nginz
