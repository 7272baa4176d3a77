import Nginz.Chat.NameSteps
import Nginz.Net.TcpListener
import Nginz.Parallel.LoadBalancer
import Nginz.WebChat.SessionId

/-! The connections that the master accepts: which worker each of them goes to, and what the
worker is told. -/
namespace Nginz

/-- The protocols that have a stack: `chat_protostack` and `http_protostack`. -/
inductive Protocol where
  | chat
  | http
  deriving DecidableEq, Repr

/-- The datagram of `http_on_tcp_connection`. -/
def httpWelcomeDatagram (L : TxtLib) : Bytes :=
  (transferMessage L (L.room 255) 0 nginzHttpPort (lit "http/welcome")).content

namespace Protocol

def port : Protocol → ℤ
  | chat => nginzChatPort
  | http => nginzHttpPort

def welcome : Protocol → Bytes
  | chat => lit "chat/_welcome"
  | http => lit "http/welcome"

def datagram (L : TxtLib) : Protocol → Bytes
  | chat => welcomeDatagram L
  | http => httpWelcomeDatagram L

end Protocol

/-- The master as it accepts: its listeners, `chat_lb` and `http_lb`, the sockets of clients that
it has open, and those that it sent away. -/
structure AcceptMaster where
  listener : TcpListener Protocol
  balancer : Protocol → LoadBalancer
  opened : List ℕ
  handOffs : List HandOff

section Accept
variable {n : ℕ} (L : TxtLib) (p : NginzProcess n)

/-- `pp_raw_send_socket`: there is a raw pipe to every process in the table, and a socket that
went through it is closed here. -/
def AcceptMaster.ppRawSendSocket (sent : Bool) (o : HandOff) (m : AcceptMaster) : AcceptMaster :=
  if (ppFindNode p o.destpid).isSome && sent then
    { m with opened := m.opened.erase o.socket, handOffs := m.handOffs ++ [o] }
  else m

/-- The two functions below differ in the balancer and in the datagram. They do not look at what
`pp_raw_send_socket` returns. -/
def handToNext (x : Protocol) (datagram : Bytes) (sent : Bool) (socket : ℕ) (m : AcceptMaster) :
    Option AcceptMaster :=
  (loadBalancerNext p (m.balancer x)).map fun (lb, destpid) =>
    AcceptMaster.ppRawSendSocket p sent ⟨destpid, socket, datagram⟩
      { m with balancer := Function.update m.balancer x lb }

/-- `on_tcp_connection` of `chat_accept.c`. -/
def onTcpConnection : Bool → ℕ → AcceptMaster → Option AcceptMaster :=
  handToNext p .chat (welcomeDatagram L)

def httpOnTcpConnection : Bool → ℕ → AcceptMaster → Option AcceptMaster :=
  handToNext p .http (httpWelcomeDatagram L)

def Protocol.onTcpConnection : Protocol → Bool → ℕ → AcceptMaster → Option AcceptMaster
  | chat => Nginz.onTcpConnection L p
  | http => httpOnTcpConnection L p

/-- A connection at a descriptor: the socket that `accept` returns, if any, and whether `sendmsg`
takes it. -/
structure Connecting where
  fd : ℤ
  client : Option ℕ
  sent : Bool
  deriving DecidableEq, Repr

/-- `on_connection`; the -1 that `accept` returned is closed without an effect. -/
def onConnection (x : Protocol) (a : Connecting) (m : AcceptMaster) : Option AcceptMaster :=
  match a.client with
  | none => some { m with listener := m.listener.emit [.unregisterFd a.fd, .close a.fd] }
  | some socket => x.onTcpConnection L p a.sent socket { m with opened := m.opened ++ [socket] }

/-- The stack that the event loop has with a descriptor. -/
def stackAfter {α : Type*} (fd : ℤ) (stack : Option α) : ListenerCall α → Option α
  | .socket _ => stack
  | .close _ => stack
  | .registerFd fd' x => if fd' = fd then some x else stack
  | .unregisterFd fd' => if fd' = fd then none else stack

def stackOf {α : Type*} (log : List (ListenerCall α)) (fd : ℤ) : Option α :=
  log.foldl (stackAfter fd) none

/-- The event loop calls `on_connection` for the descriptors that it has. -/
def AcceptMaster.on (m : AcceptMaster) (a : Connecting) : Option AcceptMaster :=
  match stackOf m.listener.log a.fd with
  | none => some m
  | some x => onConnection L p x a m

/-- The listeners are up, and the modules have set up their balancers. -/
def AcceptMaster.start (listener : TcpListener Protocol) : AcceptMaster where
  listener := listener
  balancer _ := loadBalancerSetup p
  opened := []
  handOffs := []

end Accept

/-! ### The clients of a protocol -/

/-- A client that a protocol got, and whether it could be sent on. -/
structure Client where
  protocol : Protocol
  socket : ℕ
  sent : Bool
  deriving DecidableEq, Repr

/-- A descriptor that `accept` fails at is given up. -/
def listensAfter (listens : ℤ → Option Protocol) (a : Connecting) : ℤ → Option Protocol :=
  if a.client = none then Function.update listens a.fd none else listens

def clientOf (listens : ℤ → Option Protocol) (a : Connecting) : Option Client :=
  match a.client, listens a.fd with
  | some socket, some x => some ⟨x, socket, a.sent⟩
  | _, _ => none

/-- The clients that connect at descriptors which are listened at. -/
def clientsOf (listens : ℤ → Option Protocol) : List Connecting → List Client
  | [] => []
  | a :: as => (clientOf listens a).toList ++ clientsOf (listensAfter listens a) as

/-- The clients of a protocol. -/
def Client.ofProtocol (x : Protocol) (clients : List Client) : List Client :=
  clients.filter (·.protocol = x)

/-- The workers take turns at the clients, also at those that cannot be sent. -/
def turnsTaken {n : ℕ} (p : NginzProcess (n + 2)) (datagram : Bytes) (clients : List Client) :
    List HandOff :=
  (clients.zipIdx.filter fun c => c.1.sent).map fun c =>
    ⟨p.nodes (workerSlot n c.2), c.1.socket, datagram⟩

def AcceptMaster.handedAs (m : AcceptMaster) (datagram : Bytes) : List HandOff :=
  m.handOffs.filter (·.datagram = datagram)

section Turns
variable {n : ℕ} {p : NginzProcess (n + 2)} {datagram : Bytes} {clients : List Client}

theorem turnsTaken_concat (c : Client) : turnsTaken p datagram (clients ++ [c]) =
    turnsTaken p datagram clients ++
      if c.sent then [⟨p.nodes (workerSlot n clients.length), c.socket, datagram⟩] else [] := by
  unfold turnsTaken
  rw [List.zipIdx_append, List.filter_append, List.map_append]
  congr 1
  cases hsent : c.sent <;> simp [hsent]

/-- When all of them are sent, the clients go to the workers whose turn it is. -/
theorem turnsTaken_destpid (hsent : ∀ c ∈ clients, c.sent = true) :
    (turnsTaken p datagram clients).map HandOff.destpid =
      (List.range clients.length).map fun k => p.nodes (workerSlot n k) := by
  have hall : ∀ c ∈ clients.zipIdx, c.1.sent = true := fun c hc =>
    hsent c.1 (List.fst_mem_of_mem_zipIdx hc)
  unfold turnsTaken
  rw [List.filter_eq_self.mpr hall, List.map_map, List.range_eq_range', ← List.zipIdx_map_snd,
    List.map_map]
  rfl

theorem turnsTaken_worker {o : HandOff} (ho : o ∈ turnsTaken p datagram clients) :
    ∃ i : Fin (n + 1), o.destpid = p.nodes i.succ := by
  obtain ⟨c, -, rfl⟩ := List.mem_map.mp ho
  exact ⟨⟨c.2 % (n + 1), Nat.mod_lt _ n.succ_pos⟩, rfl⟩

end Turns

/-! ### The datagrams -/

section Datagrams
variable {L : TxtLib} (hcap : L.room nginzMaxBinaryMsgLen < 65536) (hcap' : L.room 255 < 65536)
include hcap hcap'

/-- A worker is told the port and the welcome of the protocol. -/
theorem datagram_delivered (x : Protocol) {storage : Bytes} (hs : 128 ≤ storage.length) :
    Delivered storage (x.datagram L) x.port x.welcome := by
  cases x with
  | chat =>
    obtain ⟨hport, hrequest⟩ := transferMessage_received L hcap
      ((L.le_room nginzMaxBinaryMsgLen).trans' (by decide))
      (show (lit "chat/_welcome").length ≤ 104 by decide) 0 hs
    exact ⟨hport, hrequest⟩
  | http =>
    have hlength : (lit "http/welcome").length = 12 := by decide
    obtain ⟨hoff, htotal⟩ := transferFields_offset 0 nginzHttpPort (lit "http/welcome")
    have hroom := L.le_room 255
    have hdelivered := transfer_delivered L hcap' hs (show 0 ≤ nginzHttpPort by decide)
      (by decide) 0 (lit "http/welcome")
    have hwhole : 12 ≤ arrivedLength L storage 0 nginzHttpPort (lit "http/welcome") := by
      unfold arrivedLength
      dsimp only
      rw [if_pos (by omega)]
      omega
    rw [List.take_of_length_le (hlength.trans_le hwhole)] at hdelivered
    exact hdelivered

theorem datagram_injective {x y : Protocol} (h : x.datagram L = y.datagram L) : x = y := by
  have hs : 128 ≤ (List.replicate 128 (0 : UInt8)).length := (List.length_replicate ..).ge
  have hx := (datagram_delivered hcap hcap' x hs).port
  rw [h, (datagram_delivered hcap hcap' y hs).port] at hx
  cases x <;> cases y <;> first | rfl | exact absurd hx (by decide)

end Datagrams

/-! ### What the event loop has -/

section Listening
variable {α : Type*} {t : Protostacks α} {tcpPorts : ℕ → ℤ} {answers : KernelAnswers}
  {s s' : TcpListener α} {k : ℕ}

theorem startSlot_stackOf (h : startSlot t tcpPorts answers s k = some s') (fd : ℤ) :
    stackOf s'.log fd =
      if (answers.attempt k).Listens ∧ (answers.attempt k).socket = fd then
        protostackGet t (tcpPorts k)
      else stackOf s.log fd := by
  unfold startSlot at h
  dsimp only at h
  split_ifs at h with hslot hsocket hbind hlisten
  · cases h
    rw [if_neg fun hl => absurd hsocket (Int.not_lt.mpr hl.1.1)]
  · cases h
    rw [if_neg fun hl => absurd hbind (Int.not_lt.mpr hl.1.2.1)]
    simp [stackOf, TcpListener.emit, stackAfter]
  · cases h
    rw [if_neg fun hl => absurd hlisten (Int.not_lt.mpr hl.1.2.2)]
    simp [stackOf, TcpListener.emit, stackAfter]
  · have hlistens : (answers.attempt k).Listens :=
      ⟨Int.not_lt.mp hsocket, Int.not_lt.mp hbind, Int.not_lt.mp hlisten⟩
    split at h
    · cases h
    · rename_i stack hstack
      cases h
      rw [hstack]
      simp [stackOf, TcpListener.emit, stackAfter, hlistens]

/-- A descriptor that is listened at has the stack of the port of its slot. -/
theorem start_stackOf (h : tcpListenerStart t tcpPorts answers .initial = some s) (fd : ℤ) (x : α) :
    stackOf s.log fd = some x ↔ ∃ i < (startedSlots tcpPorts).length,
      (answers.attempt i).Listens ∧ (answers.attempt i).socket = fd ∧
        protostackGet t (tcpPorts i) = some x := by
  have hloop (n : ℕ) : ∀ {s}, (List.range n).foldlM (startSlot t tcpPorts answers) .initial =
      some s → (stackOf s.log fd = some x ↔ ∃ i < n, (answers.attempt i).Listens ∧
        (answers.attempt i).socket = fd ∧ protostackGet t (tcpPorts i) = some x) := by
    induction n with
    | zero =>
      intro s hs
      cases hs
      simp [stackOf, TcpListener.initial]
    | succ n ih =>
      intro s hs
      rw [List.range_succ, List.foldlM_append, Option.bind_eq_bind] at hs
      obtain ⟨before, hbefore, hslot⟩ := Option.bind_eq_some_iff.mp hs
      simp only [List.foldlM_cons, List.foldlM_nil, bind_pure] at hslot
      rw [startSlot_stackOf hslot, Nat.exists_lt_succ_right]
      split_ifs with hnew
      · constructor
        · exact fun hget => .inr ⟨hnew.1, hnew.2, hget⟩
        · rintro (⟨i, hi, hlistens, hsocket, -⟩ | ⟨-, -, hget⟩)
          · have hsame := KernelAnswers.listens_inj hlistens hnew.1 (hsocket.trans hnew.2.symm)
            exact absurd hsame hi.ne
          · exact hget
      · rw [ih hbefore]
        exact (or_iff_left fun hlast => hnew ⟨hlast.1, hlast.2.1⟩).symm
  unfold tcpListenerStart at h
  split_ifs at h with hport
  refine hloop _ ?_
  rw [← h]
  unfold startedSlots
  rw [← takeWhile_range_eq]

end Listening

/-! ### Runs -/

section Sharing
variable {n : ℕ} {p : NginzProcess (n + 2)} {L : TxtLib} {listens : ℤ → Option Protocol}
  {clients : List Client} {m : AcceptMaster}

/-- What the master did for the clients so far. -/
structure Sharing (p : NginzProcess (n + 2)) (L : TxtLib) (listens : ℤ → Option Protocol)
    (clients : List Client) (m : AcceptMaster) : Prop where
  listens : stackOf m.listener.log = listens
  balancer : ∀ x, ∃ i : Fin (n + 2), m.balancer x = ⟨p.nodes i⟩ ∧
    i.val ≡ (Client.ofProtocol x clients).length [MOD n + 1]
  handOffs : ∀ x, m.handedAs (x.datagram L) =
    turnsTaken p (x.datagram L) (Client.ofProtocol x clients)
  known : ∀ o ∈ m.handOffs, ∃ x : Protocol, o.datagram = x.datagram L
  opened : m.opened.Perm ((clients.filter (! ·.sent)).map Client.socket)

theorem sharing_start (hmaster : p.pid = p.nodes 0) (listener : TcpListener Protocol) :
    Sharing p L (stackOf listener.log) [] (.start p listener) where
  listens := rfl
  balancer _ := ⟨0, congrArg LoadBalancer.mk hmaster, rfl⟩
  handOffs _ := rfl
  known _ ho := absurd ho List.not_mem_nil
  opened := .nil

/-- A failed `accept`. -/
theorem Sharing.giveUp (h : Sharing p L listens clients m) (fd : ℤ) :
    Sharing p L (Function.update listens fd none) clients
      { m with listener := m.listener.emit [.unregisterFd fd, .close fd] } where
  listens := by
    funext fd'
    rw [← h.listens]
    by_cases hfd : fd' = fd
    · rw [hfd, Function.update_self]
      simp [stackOf, TcpListener.emit, stackAfter]
    · rw [Function.update_of_ne hfd]
      simp [stackOf, TcpListener.emit, stackAfter, Ne.symm hfd]
  balancer := h.balancer
  handOffs := h.handOffs
  known := h.known
  opened := h.opened

theorem ofProtocol_concat (x : Protocol) (c : Client) : Client.ofProtocol x (clients ++ [c]) =
    Client.ofProtocol x clients ++ if c.protocol = x then [c] else [] := by
  unfold Client.ofProtocol
  rw [List.filter_append]
  split_ifs with hx <;> simp [hx]

/-- An accepted client goes to the worker whose turn it is at its protocol. -/
theorem Sharing.handToNext (h : Sharing p L listens clients m)
    (hdistinct : Function.Injective p.nodes)
    (hdatagram : ∀ x y : Protocol, x.datagram L = y.datagram L → x = y) (c : Client) :
    ∃ m', handToNext p c.protocol (c.protocol.datagram L) c.sent c.socket
        { m with opened := m.opened ++ [c.socket] } = some m' ∧
      Sharing p L listens (clients ++ [c]) m' := by
  obtain ⟨i, hi, hmod⟩ := h.balancer c.protocol
  have hslot : workerSlot n i.val = workerSlot n (Client.ofProtocol c.protocol clients).length := by
    apply Fin.ext
    show i.val % (n + 1) + 1 = _ % (n + 1) + 1
    rw [hmod]
  have hnext : loadBalancerNext p (m.balancer c.protocol) = some
      (⟨p.nodes (workerSlot n (Client.ofProtocol c.protocol clients).length)⟩,
        p.nodes (workerSlot n (Client.ofProtocol c.protocol clients).length)) := by
    rw [hi, loadBalancerNext_slot hdistinct, hslot]
  have hbalancer (x : Protocol) : ∃ j : Fin (n + 2), Function.update m.balancer c.protocol
      ⟨p.nodes (workerSlot n (Client.ofProtocol c.protocol clients).length)⟩ x = ⟨p.nodes j⟩ ∧
        j.val ≡ (Client.ofProtocol x (clients ++ [c])).length [MOD n + 1] := by
    rw [ofProtocol_concat]
    by_cases hx : c.protocol = x
    · subst hx
      rw [Function.update_self, if_pos rfl, List.length_append]
      exact ⟨_, rfl, (Nat.mod_modEq _ (n + 1)).add_right 1⟩
    · rw [Function.update_of_ne (Ne.symm hx), if_neg hx, List.append_nil]
      exact h.balancer x
  have hturn (x : Protocol) : turnsTaken p (x.datagram L) (Client.ofProtocol x clients ++ [c]) =
      turnsTaken p (x.datagram L) (Client.ofProtocol x clients) ++ if c.sent then
        [⟨p.nodes (workerSlot n (Client.ofProtocol x clients).length), c.socket, x.datagram L⟩]
      else [] := turnsTaken_concat c
  unfold Nginz.handToNext
  rw [hnext]
  refine ⟨_, rfl, ?_⟩
  unfold AcceptMaster.ppRawSendSocket
  dsimp only
  rw [ppFindNode_slot hdistinct, Option.isSome_some, Bool.true_and]
  cases hsent : c.sent with
  | false =>
    rw [if_neg Bool.false_ne_true]
    refine ⟨h.listens, hbalancer, fun x => ?_, h.known, ?_⟩
    · rw [ofProtocol_concat]
      split_ifs with hx
      · rw [hturn, hsent, if_neg Bool.false_ne_true, List.append_nil]
        exact h.handOffs x
      · rw [List.append_nil]
        exact h.handOffs x
    · rw [List.filter_append, List.map_append]
      simpa [hsent] using h.opened.append_right [c.socket]
  | true =>
    rw [if_pos rfl]
    refine ⟨h.listens, hbalancer, fun x => ?_, ?_, ?_⟩
    · unfold AcceptMaster.handedAs
      dsimp only
      rw [List.filter_append, ← AcceptMaster.handedAs, h.handOffs, ofProtocol_concat]
      split_ifs with hx
      · subst hx
        rw [hturn, hsent]
        simp
      · have hother : ¬ c.protocol.datagram L = x.datagram L := fun he => hx (hdatagram _ _ he)
        simp [hother]
    · intro o ho
      rcases List.mem_append.mp ho with ho | ho
      · exact h.known o ho
      · rw [List.mem_singleton.mp ho]
        exact ⟨c.protocol, rfl⟩
    · have herase : ((m.opened ++ [c.socket]).erase c.socket).Perm m.opened := by
        have hswap : (m.opened ++ [c.socket]).Perm (c.socket :: m.opened) := List.perm_append_comm
        have hhead := hswap.erase c.socket
        rwa [List.erase_cons_head] at hhead
      rw [List.filter_append, List.map_append]
      simpa [hsent] using herase.trans h.opened

variable (hdistinct : Function.Injective p.nodes) (hcap : L.room nginzMaxBinaryMsgLen < 65536)
  (hcap' : L.room 255 < 65536)
include hdistinct hcap hcap'

theorem Sharing.on (h : Sharing p L listens clients m) (a : Connecting) :
    ∃ m', m.on L p a = some m' ∧
      Sharing p L (listensAfter listens a) (clients ++ (clientOf listens a).toList) m' := by
  have hstack : stackOf m.listener.log a.fd = listens a.fd := congrFun h.listens a.fd
  unfold AcceptMaster.on listensAfter clientOf
  rw [hstack]
  cases hx : listens a.fd with
  | none =>
    refine ⟨m, rfl, ?_⟩
    have hsame : Function.update listens a.fd none = listens :=
      Function.update_eq_self_iff.mpr hx.symm
    rw [hsame, ite_self]
    cases a.client <;> simpa using h
  | some x =>
    dsimp only [onConnection]
    cases hclient : a.client with
    | none =>
      refine ⟨_, rfl, ?_⟩
      rw [if_pos rfl]
      simpa using h.giveUp a.fd
    | some socket =>
      obtain ⟨m', hm', hshare⟩ := h.handToNext hdistinct
        (fun x y => datagram_injective hcap hcap') ⟨x, socket, a.sent⟩
      refine ⟨m', ?_, ?_⟩
      · cases x <;> exact hm'
      · rw [if_neg (Option.some_ne_none socket)]
        exact hshare

theorem Sharing.run (as : List Connecting) : ∀ {listens clients m}, Sharing p L listens clients m →
    ∃ m' listens', as.foldlM (AcceptMaster.on L p) m = some m' ∧
      Sharing p L listens' (clients ++ clientsOf listens as) m' := by
  induction as with
  | nil =>
    intro listens clients m h
    exact ⟨m, listens, rfl, by simpa [clientsOf] using h⟩
  | cons a as ih =>
    intro listens clients m h
    obtain ⟨m', hm', hshare⟩ := h.on hdistinct hcap hcap' a
    obtain ⟨m'', listens', hrun, hshare'⟩ := ih hshare
    refine ⟨m'', listens', ?_, ?_⟩
    · rw [List.foldlM_cons, hm']
      exact hrun
    · rw [List.append_assoc] at hshare'
      exact hshare'

end Sharing

/-- The clients are handed out in turns, for each protocol on its own: never to the master, never
more than one apart, with the port and the welcome of their protocol; and those that cannot be
sent stay open in the master. -/
structure HandedOut {n : ℕ} (p : NginzProcess (n + 2)) (L : TxtLib) (clients : List Client)
    (m : AcceptMaster) : Prop where
  turns : ∀ x, m.handedAs (x.datagram L) =
    turnsTaken p (x.datagram L) (Client.ofProtocol x clients)
  toWorkers : ∀ o ∈ m.handOffs, ∃ i : Fin (n + 1), o.destpid = p.nodes i.succ
  told : ∀ o ∈ m.handOffs, ∃ x : Protocol, o.datagram = x.datagram L ∧
    ∀ storage : Bytes, 128 ≤ storage.length → Delivered storage o.datagram x.port x.welcome
  even : (∀ c ∈ clients, c.sent = true) → ∀ (x : Protocol) (i j : Fin (n + 1)),
    ((m.handedAs (x.datagram L)).map HandOff.destpid).count (p.nodes i.succ) ≤
      ((m.handedAs (x.datagram L)).map HandOff.destpid).count (p.nodes j.succ) + 1
  kept : m.opened.Perm ((clients.filter (! ·.sent)).map Client.socket)

/-- Over every sequence of connections at all the ports, whichever fail: the clients that connect
at a descriptor with a stack, before `accept` fails there, are handed out. -/
theorem connections_shared {n : ℕ} {p : NginzProcess (n + 2)}
    (hdistinct : Function.Injective p.nodes) (hmaster : p.pid = p.nodes 0) {L : TxtLib}
    (hcap : L.room nginzMaxBinaryMsgLen < 65536) (hcap' : L.room 255 < 65536)
    {t : Protostacks Protocol} {answers : KernelAnswers} {listener : TcpListener Protocol}
    (hstart : tcpListenerInit t answers = some listener) (as : List Connecting) :
    let tcpPorts := protostackGetPortsInternal t fun _ => 0
    (∀ fd x, stackOf listener.log fd = some x ↔ ∃ i < (startedSlots tcpPorts).length,
      (answers.attempt i).Listens ∧ (answers.attempt i).socket = fd ∧
        protostackGet t (tcpPorts i) = some x) ∧
      ∃ m, as.foldlM (AcceptMaster.on L p) (.start p listener) = some m ∧
        HandedOut p L (clientsOf (stackOf listener.log) as) m := by
  intro tcpPorts
  obtain ⟨m, listens, hrun, hshare⟩ := (sharing_start hmaster listener).run hdistinct hcap hcap' as
  rw [List.nil_append] at hshare
  have hknown {o : HandOff} (ho : o ∈ m.handOffs) : ∃ x : Protocol, o.datagram = x.datagram L ∧
      o ∈ turnsTaken p (x.datagram L)
        (Client.ofProtocol x (clientsOf (stackOf listener.log) as)) := by
    obtain ⟨x, hx⟩ := hshare.known o ho
    refine ⟨x, hx, ?_⟩
    rw [← hshare.handOffs]
    exact List.mem_filter.mpr ⟨ho, decide_eq_true hx⟩
  refine ⟨start_stackOf hstart, m, hrun, hshare.handOffs, fun o ho => ?_, fun o ho => ?_,
    fun hsent x i j => ?_, hshare.opened⟩
  · obtain ⟨x, -, hturn⟩ := hknown ho
    exact turnsTaken_worker hturn
  · obtain ⟨x, hx, -⟩ := hknown ho
    refine ⟨x, hx, fun storage hs => ?_⟩
    rw [hx]
    exact datagram_delivered hcap hcap' x hs
  · have hall : ∀ c ∈ Client.ofProtocol x (clientsOf (stackOf listener.log) as), c.sent = true :=
      fun c hc => hsent c (List.mem_filter.mp hc).1
    rw [hshare.handOffs, turnsTaken_destpid hall, turns_eq hdistinct, turns_eq hdistinct]
    split <;> split <;> omega

/-- All the calls succeed, and the descriptors go up from 5. -/
def KernelAnswers.upFromFive : KernelAnswers where
  attempt i := ⟨i + 5, 0, 0⟩
  failed i h := absurd h (Int.not_lt.mpr (show (0 : ℤ) ≤ i + 5 by omega))
  fresh i j hij _ := show (j : ℤ) + 5 ≠ i + 5 by omega

/-- Two workers take turns at the chat's clients, one of which cannot be sent, and start again at
the client of the pages. -/
theorem connections_shared_twoWorkers :
    let master : NginzProcess 3 := ⟨4711, ![4711, 4712, 4713], some 0, .empty⟩
    let t : Protostacks Protocol :=
      (protostackSet (protostackSet protostackInit nginzChatPort (some .chat)).1 nginzHttpPort
        (some .http)).1
    ∃ listener m, tcpListenerInit t .upFromFive = some listener ∧
      [⟨5, some 1, true⟩, ⟨6, some 2, true⟩, ⟨5, some 3, false⟩, ⟨5, some 4, true⟩,
        ⟨5, none, false⟩, ⟨5, some 6, true⟩].foldlM (AcceptMaster.on .cutting master)
          (.start master listener) = some m ∧
      m.handedAs (Protocol.chat.datagram .cutting) =
        [⟨4712, 1, Protocol.chat.datagram .cutting⟩,
          ⟨4712, 4, Protocol.chat.datagram .cutting⟩] ∧
      m.handedAs (Protocol.http.datagram .cutting) =
        [⟨4712, 2, Protocol.http.datagram .cutting⟩] ∧
      m.opened.Perm [3] := by
  intro master t
  have hstart : tcpListenerInit t .upFromFive = some _ := rfl
  obtain ⟨-, m, hrun, hout⟩ := connections_shared (p := master) (by decide) rfl
    (show TxtLib.cutting.room nginzMaxBinaryMsgLen < 65536 by decide)
    (show TxtLib.cutting.room 255 < 65536 by decide) hstart
    [⟨5, some 1, true⟩, ⟨6, some 2, true⟩, ⟨5, some 3, false⟩, ⟨5, some 4, true⟩,
      ⟨5, none, false⟩, ⟨5, some 6, true⟩]
  exact ⟨_, m, hstart, hrun, hout.turns .chat, hout.turns .http, hout.kept⟩

end Nginz
