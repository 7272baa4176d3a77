import Nginz.LazyCall
import Nginz.Chat.Broadcast

/-! The life of a connection object: the pool, closing, lazy cleanup and the zombie
list. -/
namespace Nginz

def userPrefix : Bytes := lit "user/"

/-- `build_name_key` into its 128-byte buffer. -/
def buildNameKey (L : TxtLib) (name : Bytes) : Bytes := compose L 128 [userPrefix, name]

def asyncTryLogin (W : World) (w : Worker) (name : Bytes) (token : ℤ) (responseHook : Bytes) :
    Worker :=
  if name = [] then w
  else w.call (.compareAndSwap token (some responseHook) (buildNameKey W.txt name) (some name) none)

/-- Without a name nothing happens, and `CHAT_LOGGED_IN` stays. -/
def logoffUser (W : World) (w : Worker) (t : ℕ) : Worker :=
  if (w.chat t).name = [] then w
  else
    (w.call (.unset (-1) none (buildNameKey W.txt (w.chat t).name))).setState t fun s =>
      { s with loggedIn := false }

/-- The last part of `default_chat_close`. -/
def releaseFd (w : Worker) (t : ℕ) : Worker :=
  if (w.chat t).fd ≠ invalidFd then
    let w := w.eventLoopUnregisterFd (w.chat t).fd t
    let w := if !(w.chat t).state.softQuit then w.closeFd (w.chat t).fd t else w
    w.setChat t fun c => { c with fd := invalidFd }
  else w

def defaultChatClose (W : World) (w : Worker) (t : ℕ) : Worker :=
  let w :=
    if (w.chat t).quitedAt = 0 then w.setChat t fun c => { c with quitedAt := w.clock } else w
  let w :=
    if !((w.chat t).state.softQuit || (w.chat t).state.quit) then
      w.setState t fun s => { s with quit := true }
    else w
  let w := if (w.chat t).state.inRoom then broadcastRoomLeave W w t else w
  let w := if (w.chat t).state.loggedIn then logoffUser W w t else w
  releaseFd w t

/-- `chat_alloc` into the free slot `t` of the pool. -/
def chatAlloc (w : Worker) (t : ℕ) (fd : ℤ) : Worker :=
  { w with chats := Function.update w.chats t (some (.initial fd)) }.logFd (.opened fd t)

/-- `chat_get`. The reference that `opp_get` takes stays when the connection is quitting;
an empty slot gives a `NULL` that is dereferenced. -/
def chatGet (w : Worker) (token : ℕ) : Worker × Option ℕ :=
  match w.chats token with
  | none => (w.assert false, none)
  | some chat =>
    let w := w.setChat token fun c => { c with refs := c.refs + 1 }
    if chat.state.quit || chat.state.softQuit || chat.state.zombie then (w, none)
    else (w, some token)

/-- The finalizer of the pool: `streamio_finalize`, then the slot is free. -/
def finalizeChat (W : World) (w : Worker) (t : ℕ) : Worker :=
  let w := defaultChatClose W w t
  { w with chats := Function.update w.chats t none }

/-- `OPPUNREF` of a connection; the last reference finalizes it. -/
def oppUnref (W : World) (w : Worker) (t : ℕ) : Worker :=
  match w.chats t with
  | none => w
  | some chat =>
    if chat.refs ≤ 1 then finalizeChat W w t
    else w.setChat t fun c => { c with refs := c.refs - 1 }

/-- `OPPUNREF` of an object in the lazy queue; an entry of the zombie list drops the
reference it holds. -/
def lazyUnref (W : World) (w : Worker) : LazyObject → Worker
  | .chat t => oppUnref W w t
  | .zombie t =>
    if t ∈ w.zombieList then oppUnref W { w with zombieList := w.zombieList.erase t } t else w

def lazyCleanup (w : Worker) (obj : LazyObject) : Worker :=
  let w := w.assert (w.lazyCleanup.length < nginzLazyObjectQueueSize)
  if w.lazyCleanup.length = nginzLazyObjectQueueSize then w
  else { w with lazyCleanup := w.lazyCleanup ++ [obj] }

/-- The cleanup part of `lazy_call_step`, from the last object to the first; the count is
reset at the end. -/
def lazyCallStep (W : World) (w : Worker) : Worker :=
  let w := w.lazyCleanup.foldr (fun obj w => lazyUnref W w obj) w
  { w with lazyCleanup := [] }

def chatZombieAdd (w : Worker) (t : ℕ) : Worker :=
  if (w.chat t).state.zombie then w
  else
    let w := w.assert ((w.chat t).quitedAt ≠ 0)
    let w := w.setChat t fun c => { c with state := { c.state with zombie := true } }
    { w with zombieList := w.zombieList ++ [t] }.setChat t fun c => { c with refs := c.refs + 1 }

def chatLazyCleanupFiber (w : Worker) : Worker :=
  if w.gear < 10 then { w with gear := w.gear + 1 }
  else
    let now := w.clock
    let w := { w with gear := 0 }
    w.zombieList.foldl (fun w t =>
      if (w.chat t).quitedAt = 0 ∨ now - (w.chat t).quitedAt > 120 then w
      else lazyCleanup w (.zombie t)) w

end Nginz
