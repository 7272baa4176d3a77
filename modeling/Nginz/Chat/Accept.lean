import Nginz.Chat.Plugs

/-! Client data and transferred sockets arriving at a worker. -/
namespace Nginz

/-- `chat_api.on_command`: the worker and the return code. -/
def onCommand (W : World) (w : Worker) (t : ℕ) (request : Bytes) : Worker × ℤ :=
  match commandHook W.txt request with
  | .hidden => (w, 0)
  | .noToken => (w, -1)
  | .dispatch space rest => pluginBridgeCall W w t space rest

/-- What `handle_chat_request` does before it looks whether the client quits. -/
def answerRequest (W : World) (w : Worker) (t : ℕ) (request : Bytes) : Worker :=
  let cannotProcess (w : Worker) :=
    if (w.chat t).state.quit || (w.chat t).state.softQuit then w
    else defaultChatSend W w t (lit "Cannot process the request\n")
  if request.head? = some 47 ∧ (w.chat t).state.loggedIn then
    let r := onCommand W w t request
    if r.2 = 0 then r.1 else cannotProcess r.1
  else
    match (w.chat t).onResponseCallback with
    | some .login => onAsyncchatLogin W w t request
    | some .broadcast => broadcastCallback W w t request
    | none => cannotProcess w

/-- The close of a client and its entry in the zombie list. -/
def closeClient (W : World) (w : Worker) (t : ℕ) : Worker :=
  chatZombieAdd (defaultChatClose W w t) t

def handleChatRequest (W : World) (w : Worker) (t : ℕ) (request : Bytes) : Worker :=
  if request = [] then w
  else if request.getLast? ≠ some 10 then closeClient W w t
  else
    let w := answerRequest W w t request
    if (w.chat t).error || (w.chat t).state.quit || (w.chat t).state.softQuit then
      closeClient W w t
    else w

/-- `on_client_data` for the registration of `fd` with connection `t`. -/
def onClientData (W : World) (w : Worker) (fd : ℤ) (t : ℕ) (result : RecvResult) :
    Worker :=
  if w.quiting then w
  else if (w.chat t).state.quit || (w.chat t).state.softQuit then
    oppUnref W (closeClient W w t) t
  else
    let w := w.assert (fd = (w.chat t).fd)
    match result with
    | .closed | .error => oppUnref W (closeClient W w t) t
    | .data bytes =>
      if bytes.length ≥ nginzMaxChatMsgSize then oppUnref W (closeClient W w t) t
      else
        let w := handleChatRequest W w t bytes
        if (w.chat t).state.quit || (w.chat t).state.softQuit then
          oppUnref W (closeClient W w t) t
        else w

/-- `on_connection_bubble` with `x` as its field 2; the pool gives slot `t`. -/
def onConnectionBubble (W : World) (w : Worker) (fd : ℤ) (t : ℕ) (x : Bytes) : Worker :=
  if w.quiting then w
  else
    let w := chatAlloc w t fd
    let pluginSpace := (scannerNextToken x).1
    if pluginSpace = [] then oppUnref W (closeClient W w t) t
    else
      let w := w.eventLoopRegisterFd fd t
      (pluginBridgeCall W w t pluginSpace x).1

/-- `on_raw_recv_socket`: the kernel installs the socket as `fd`, `storage` is the buffer
offered for the datagram, and only the chat protocol is followed further. -/
def onRawRecvSocket (W : World) (w : Worker) (fd : ℤ) (t : ℕ) (storage : Bytes) (h : HandOff) :
    Worker :=
  let w := { w with fds := Function.update w.fds fd (some h.socket) }
  let cmd := receivedCommand storage h.datagram
  match unpackedInt cmd 1, unpackedString cmd 2 with
  | some port, some x => if port = nginzChatPort then onConnectionBubble W w fd t x else w
  | _, _ => w.assert false

end Nginz
