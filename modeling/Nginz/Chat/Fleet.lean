import Nginz.Chat.SoftQuit
import Nginz.Chat.NameSteps

/-! The sockets of the clients: accepted by one process, handed off to a worker, and moved on
between the workers by joins. As long as every write and every hand-off succeeds, no worker
that quits receives a socket and no cleanup unregisters a stranger, each accepted socket is
served, on its way or closed. -/
namespace Nginz
open Transition

/-- The descriptors of the accepting process, the workers by their pids, the sockets on
their way, and those accepted so far. -/
structure Fleet where
  fds : ℤ → Option ℕ
  workers : ℤ → Worker
  flights : List HandOff
  accepted : List ℕ

/-- A client is accepted for a worker, a socket arrives, something happens at a worker, a reply
reaches it, or it quits softly. A handler finds the world as its step says. -/
inductive FleetAction where
  | accept (fd : ℤ) (socket : ℕ) (destpid : ℤ) (sent : Bool)
  | receive (W : World) (k : ℕ) (fd : ℤ) (t : ℕ) (storage : Bytes)
  | event (W : World) (pid : ℤ) (e : WorkerEvent)
  | reply (W : World) (pid : ℤ) (cbToken : ℕ) (r : Reply)
  | softQuit (W : World) (pid : ℤ) (ts : List ℕ)

namespace Fleet

/-- Every worker just started, and nobody was accepted. -/
def start (L : TxtLib) (myRooms : ℤ → List Bytes) (clock : ℤ → ℕ) : Fleet where
  fds _ := none
  workers pid := .start L pid (myRooms pid) (clock pid)
  flights := []
  accepted := []

/-- A worker moves on, and the sockets it hands off leave. -/
def move (s : Fleet) (pid : ℤ) (w : Worker) : Fleet :=
  { s with
    workers := Function.update s.workers pid w
    flights := s.flights ++ w.handOffs.drop (s.workers pid).handOffs.length }

/-- `on_tcp_connection` for the worker that the load balancer names; `sent` is the outcome of
`sendmsg`, which is not reached without a raw descriptor of that worker. -/
def onTcpConnection (L : TxtLib) (s : Fleet) (fd destpid : ℤ) (sent : Bool) : Fleet :=
  match s.fds fd with
  | none => s
  | some socket =>
    if sent then
      { s with
        fds := Function.update s.fds fd none
        flights := s.flights ++ [HandOff.mk destpid socket (welcomeDatagram L)] }
    else s

/-- The socket that arrives: one on its way, at the process it is sent to and in a buffer of
at least 128 bytes. -/
def arrival (s : Fleet) (k : ℕ) (fd : ℤ) (t : ℕ) (storage : Bytes) : Option HandOff :=
  (s.flights[k]?).filter fun o =>
    128 ≤ storage.length ∧ (s.workers o.destpid).Enabled (.arrive fd t storage o)

def step (L : TxtLib) (s : Fleet) : FleetAction → Fleet
  | .accept fd socket destpid sent =>
    if s.fds fd = none ∧ socket ∉ s.accepted then
      { s with
        fds := Function.update s.fds fd (some socket)
        accepted := socket :: s.accepted }.onTcpConnection L fd destpid sent
    else s
  | .receive W k fd t storage =>
    match s.arrival k fd t storage with
    | none => s
    | some o =>
      { s with flights := s.flights.eraseIdx k }.move o.destpid
        ((s.workers o.destpid).on W (.arrive fd t storage o))
  | .event _ _ (.arrive ..) => s
  | .event W pid e => s.move pid ((s.workers pid).on W e)
  | .reply W pid cbToken r => s.move pid (onReply W (s.workers pid) cbToken r)
  | .softQuit W pid ts => s.move pid (chatOnSoftquit W (s.workers pid) ts)

/-! ### Where a socket is -/

/-- The socket has one open descriptor, which is registered with a live connection. -/
def Served (s : Fleet) (socket : ℕ) : Prop :=
  ∃ pid fd t c, (fd, t) ∈ (s.workers pid).eventLoop ∧ (s.workers pid).fds fd = some socket ∧
    (s.workers pid).chats t = some c ∧ c.fd = fd ∧ c.state.softQuit = false ∧
    c.state.zombie = false ∧ (∀ fd', s.fds fd' ≠ some socket) ∧
    ∀ pid' fd', (s.workers pid').fds fd' = some socket → pid' = pid ∧ fd' = fd

/-- The socket travels to one process. -/
def InFlight (s : Fleet) (socket : ℕ) : Prop := s.flights.countP (·.socket = socket) = 1

/-- The socket has no open descriptor. -/
def Closed (s : Fleet) (socket : ℕ) : Prop :=
  (∀ fd, s.fds fd ≠ some socket) ∧ (∀ pid fd, (s.workers pid).fds fd ≠ some socket) ∧
    ∀ o ∈ s.flights, o.socket ≠ socket

/-- The socket is in exactly one of the three situations. -/
def Situated (s : Fleet) (socket : ℕ) : Prop :=
  s.Served socket ∧ ¬ s.InFlight socket ∧ ¬ s.Closed socket ∨
    ¬ s.Served socket ∧ s.InFlight socket ∧ ¬ s.Closed socket ∨
    ¬ s.Served socket ∧ ¬ s.InFlight socket ∧ s.Closed socket

/-- What conserving the sockets relies on: every write and every hand-off succeeds, a socket
arrives with a datagram for the chat at a worker that does not quit, and no cleanup ends a
connection that handed its descriptor off when the number of it is registered again. The
iterator of a soft quit visits the objects of the pool. -/
def Conserves (s : Fleet) : FleetAction → Prop
  | .accept _ _ _ sent => sent = true
  | .receive W k fd t storage => W.Succeeds ∧ ∀ o ∈ s.arrival k fd t storage,
      (s.workers o.destpid).quiting = false ∧ Understood storage o.datagram
  | .event W pid e => W.Succeeds ∧ (e = .cleanup →
      Sparing False (s.workers pid).lazyCleanup (s.workers pid))
  | .reply W _ _ _ => W.Succeeds
  | .softQuit W pid ts => W.Succeeds ∧ ∀ t, t ∈ ts ↔ ((s.workers pid).chats t).isSome

/-! ### The sockets in their places -/

/-- Who holds which socket, and what is on its way. -/
def custody (s : Fleet) : Custody ℤ ℤ ℕ :=
  ⟨fun pid => (s.workers pid).fds, s.flights.map HandOff.socket⟩

/-- The kernel installed a socket that was on its way, before its handler. -/
def install (s : Fleet) (k : ℕ) (fd : ℤ) (o : HandOff) : Fleet :=
  { s with
    workers := Function.update s.workers o.destpid
      ((s.workers o.destpid).withSocket fd o.socket)
    flights := s.flights.eraseIdx k }

/-- Every accepted socket is in one place at most, and none is left in the accepting process. -/
structure Accounted (s : Fleet) : Prop where
  accepting : ∀ fd, s.fds fd = none
  linear : s.custody.Linear
  known : ∀ socket, socket ∉ s.accepted → s.custody.Absent socket

/-- A worker serves its connections tidily, or it quit. -/
def InOrder (w : Worker) : Prop := w.Orderly ∨ w.Vacant ∧ w.quiting = true

/-- The fleet between the handlers. -/
structure Conserved (s : Fleet) : Prop where
  inOrder : ∀ pid, InOrder (s.workers pid)
  accounted : s.Accounted

section Moves
variable {s : Fleet} {pid : ℤ} {w : Worker}

theorem Accounted.apart (h : s.Accounted) (pid : ℤ) : (s.workers pid).SocketsApart :=
  fun fd fd' socket hs hs' => (h.linear.apart pid pid fd fd' socket hs hs').2

theorem held_update {h : ℤ → Worker} :
    (fun pid' => (Function.update h pid w pid').fds) =
      Function.update (fun pid' => (h pid').fds) pid w.fds := by
  funext pid'
  by_cases hp : pid' = pid
  · rw [hp, Function.update_self, Function.update_self]
  · rw [Function.update_of_ne hp, Function.update_of_ne hp]

/-- What a worker gives up is closed or leaves. -/
theorem Accounted.move (h : s.Accounted) (hw : ShedSince (s.workers pid) w) :
    (s.move pid w).Accounted := by
  obtain ⟨sent, hout, hshed⟩ := hw
  have hcustody : (s.move pid w).custody =
      s.custody.shed pid w.fds (sent.map HandOff.socket) := by
    unfold custody Fleet.move Custody.shed
    rw [hout, List.drop_left, List.map_append, held_update]
  refine ⟨h.accepting, ?_, fun socket hsocket => ?_⟩
  · rw [hcustody]
    exact h.linear.shed hshed
  · rw [hcustody]
    exact (h.known socket hsocket).shed hshed

theorem Accounted.install (h : s.Accounted) {k : ℕ} {o : HandOff} (ho : s.flights[k]? = some o)
    (fd : ℤ) : (s.install k fd o).Accounted := by
  obtain ⟨hk, rfl⟩ := List.getElem?_eq_some_iff.mp ho
  have hperm : s.custody.transit.Perm
      (s.flights[k].socket :: (s.flights.eraseIdx k).map HandOff.socket) :=
    (List.getElem_cons_eraseIdx_perm hk).symm.map HandOff.socket
  have hcustody : (s.install k fd s.flights[k]).custody =
      s.custody.receive s.flights[k].destpid fd s.flights[k].socket
        ((s.flights.eraseIdx k).map HandOff.socket) := by
    unfold custody Custody.receive Fleet.install
    dsimp only
    rw [held_update]
    rfl
  refine ⟨h.accepting, ?_, fun socket hsocket => ?_⟩
  · rw [hcustody]
    exact h.linear.receive hperm
  · rw [hcustody]
    exact (h.known socket hsocket).receive hperm

/-- A new socket leaves the accepting process. -/
theorem Accounted.enter (h : s.Accounted) {socket : ℕ} (hnew : socket ∉ s.accepted) (destpid : ℤ)
    (datagram : Bytes) : Accounted { s with
      flights := s.flights ++ [HandOff.mk destpid socket datagram]
      accepted := socket :: s.accepted } := by
  have habsent := h.known socket hnew
  have hcustody : Fleet.custody { s with
      flights := s.flights ++ [HandOff.mk destpid socket datagram]
      accepted := socket :: s.accepted } = ⟨s.custody.held, s.custody.transit ++ [socket]⟩ := by
    unfold custody
    rw [List.map_append]
    rfl
  refine ⟨h.accepting, ?_, fun other hother => ?_⟩
  · rw [hcustody]
    exact h.linear.enter habsent
  · obtain ⟨hne, hold⟩ := List.ne_and_not_mem_of_not_mem_cons hother
    rw [hcustody]
    refine ⟨(h.known other hold).1, fun hmem => ?_⟩
    rcases List.mem_append.mp hmem with hmem | hmem
    · exact (h.known other hold).2 hmem
    · exact hne (List.mem_singleton.mp hmem)

/-- A worker that is in order moves on. -/
theorem Conserved.move (h : s.Conserved) (hw : InOrder w) (hshed : ShedSince (s.workers pid) w) :
    (s.move pid w).Conserved where
  inOrder pid' := by
    change InOrder (Function.update s.workers pid w pid')
    by_cases hp : pid' = pid
    · rw [hp, Function.update_self]
      exact hw
    · rw [Function.update_of_ne hp]
      exact h.inOrder pid'
  accounted := h.accounted.move hshed

end Moves

/-! ### Steps -/

section Steps
variable {s : Fleet} {W : World} {pid : ℤ}

/-- A handler of a worker that serves its connections or nobody. -/
theorem Conserved.work (h : s.Conserved) {w : Worker}
    (horderly : (s.workers pid).Orderly → w.Orderly ∧ ShedSince (s.workers pid) w)
    (hresting : Resting (s.workers pid) (s.workers pid) → Resting (s.workers pid) w) :
    (s.move pid w).Conserved := by
  rcases h.inOrder pid with hserves | ⟨hvacant, hquit⟩
  · obtain ⟨hw, hshed⟩ := horderly hserves
    exact h.move (Or.inl hw) hshed
  · have hrest := hresting ⟨hvacant, rfl, rfl⟩
    exact h.move (Or.inr ⟨hrest.vacant, hrest.quiting.trans hquit⟩) hrest.shed

theorem conserved_event (h : s.Conserved) (hW : W.Succeeds) {e : WorkerEvent}
    (hold : ∀ fd t storage o, e ≠ .arrive fd t storage o)
    (hspare : e = .cleanup → Sparing False (s.workers pid).lazyCleanup (s.workers pid)) :
    (s.move pid ((s.workers pid).on W e)).Conserved :=
  h.work (fun hw => hw.event hW (h.accounted.apart pid) hold hspare) fun hw => hw.event hW hold

theorem conserved_reply (h : s.Conserved) (hW : W.Succeeds) (t : ℕ) (r : Reply) :
    (s.move pid (onReply W (s.workers pid) t r)).Conserved :=
  h.work (fun hw => hw.reply hW (h.accounted.apart pid) t r) fun hw => hw.reply t r

theorem conserved_softQuit (h : s.Conserved) (hW : W.Succeeds) {ts : List ℕ}
    (hts : ∀ t, t ∈ ts ↔ ((s.workers pid).chats t).isSome) :
    (s.move pid (chatOnSoftquit W (s.workers pid) ts)).Conserved := by
  have hclosing : (s.workers pid).Closing := by
    rcases h.inOrder pid with horderly | ⟨hvacant, -⟩
    · exact horderly.closing
    · exact hvacant.closing
  obtain ⟨hvacant, hquit, hshed⟩ := hclosing.softQuit hW hts
  exact h.move (Or.inr ⟨hvacant, hquit⟩) hshed

theorem conserved_receive (h : s.Conserved) (hW : W.Succeeds) {k : ℕ} {fd : ℤ} {t : ℕ}
    {storage : Bytes} {o : HandOff} (ho : s.arrival k fd t storage = some o)
    (hquit : (s.workers o.destpid).quiting = false) (hu : Understood storage o.datagram) :
    ({ s with flights := s.flights.eraseIdx k }.move o.destpid
      ((s.workers o.destpid).on W (.arrive fd t storage o))).Conserved := by
  obtain ⟨hflight, henabled⟩ := Option.filter_eq_some_iff.mp ho
  simp only [Bool.decide_and, Bool.and_eq_true, decide_eq_true_eq] at henabled
  have hinst := h.accounted.install hflight fd
  have hinstalled : (s.install k fd o).workers o.destpid =
      (s.workers o.destpid).withSocket fd o.socket := Function.update_self ..
  have horderly : (s.workers o.destpid).Orderly := by
    rcases h.inOrder o.destpid with horderly | ⟨-, hquits⟩
    · exact horderly
    · rw [hquit] at hquits
      exact absurd hquits (by decide)
  have hapart := hinst.apart o.destpid
  rw [hinstalled] at hapart
  obtain ⟨hw, hshed⟩ := horderly.arrive hW henabled.2 hapart hquit hu
  generalize (s.workers o.destpid).on W (.arrive fd t storage o) = w at hw hshed
  have hmove : ((s.install k fd o).move o.destpid w).Accounted :=
    hinst.move (by rwa [hinstalled])
  have heq : (s.install k fd o).move o.destpid w =
      { s with flights := s.flights.eraseIdx k }.move o.destpid w := by
    unfold Fleet.move
    rw [hinstalled]
    unfold Fleet.install
    dsimp only
    rw [Function.update_idem]
    rfl
  refine ⟨fun pid' => ?_, heq ▸ hmove⟩
  change InOrder (Function.update s.workers o.destpid w pid')
  by_cases hp : pid' = o.destpid
  · rw [hp, Function.update_self]
    exact Or.inl hw
  · rw [Function.update_of_ne hp]
    exact h.inOrder pid'

theorem conserved_accept (L : TxtLib) (h : s.Conserved) {fd : ℤ} {socket : ℕ}
    (hnew : socket ∉ s.accepted) (destpid : ℤ) :
    ({ s with
        fds := Function.update s.fds fd (some socket)
        accepted := socket :: s.accepted }.onTcpConnection L fd destpid true).Conserved := by
  have hentered := h.accounted.enter hnew destpid (welcomeDatagram L)
  have hfds : Function.update (Function.update s.fds fd (some socket)) fd none = s.fds := by
    rw [Function.update_idem, ← h.accounted.accepting fd, Function.update_eq_self]
  unfold onTcpConnection
  simp only [Function.update_self, if_true, hfds]
  exact ⟨h.inOrder, hentered⟩

/-- A step that meets the condition conserves the sockets. -/
theorem Conserved.step (L : TxtLib) (h : s.Conserved) {a : FleetAction} (ha : s.Conserves a) :
    (s.step L a).Conserved := by
  cases a with
  | accept fd socket destpid sent =>
    obtain rfl : sent = true := ha
    unfold Fleet.step
    dsimp only
    split
    · rename_i hnew
      exact conserved_accept L h hnew.2 destpid
    · exact h
  | receive W k fd t storage =>
    obtain ⟨hW, harrives⟩ := ha
    unfold Fleet.step
    dsimp only
    split
    · exact h
    · rename_i o ho
      obtain ⟨hquit, hu⟩ := harrives o ho
      exact conserved_receive h hW ho hquit hu
  | event W pid e =>
    obtain ⟨hW, hspare⟩ := ha
    cases e with
    | arrive fd t storage o => exact h
    | _ => exact conserved_event h hW (by simp) hspare
  | reply W pid cbToken r => exact conserved_reply h ha cbToken r
  | softQuit W pid ts =>
    obtain ⟨hW, hts⟩ := ha
    exact conserved_softQuit h hW hts

end Steps

/-- Nothing is open and nothing on its way before the first client. -/
theorem conserved_start (L : TxtLib) (myRooms : ℤ → List Bytes) (clock : ℤ → ℕ) :
    (start L myRooms clock).Conserved := by
  have hkeeps (pid : ℤ) := start_keeps L pid (myRooms pid) (clock pid)
  have hfds (pid fd : ℤ) : (Worker.start L pid (myRooms pid) (clock pid)).fds fd = none :=
    congrFun (congrArg Worker.fds (hkeeps pid)) fd
  have hchats (pid : ℤ) (t : ℕ) : (Worker.start L pid (myRooms pid) (clock pid)).chats t = none :=
    congrFun (congrArg Worker.chats (hkeeps pid)) t
  have hnone (pid fd : ℤ) (socket : ℕ) : ((start L myRooms clock).workers pid).fds fd ≠
      some socket := by
    change (Worker.start L pid (myRooms pid) (clock pid)).fds fd ≠ _
    rw [hfds]
    exact (Option.some_ne_none socket).symm
  refine ⟨fun pid => Or.inl ⟨start_serving L False pid _ _, fun fd socket hs => ?_, ?_⟩,
    fun _ => rfl, ⟨?_, List.nodup_nil, ?_⟩, fun socket _ => ⟨?_, List.not_mem_nil⟩⟩
  · exact absurd hs (hnone pid fd socket)
  · intro t c hc
    exact absurd ((hchats pid t).symm.trans hc) (by simp)
  · exact fun i j k l socket hs => absurd hs (hnone i k socket)
  · exact fun pid fd socket hs => absurd hs (hnone pid fd socket)
  · exact fun pid fd => hnone pid fd socket

section Situations
variable {s : Fleet} {socket : ℕ}

theorem inFlight_iff (h : s.Accounted) (socket : ℕ) :
    s.InFlight socket ↔ ∃ o ∈ s.flights, o.socket = socket := by
  unfold InFlight
  constructor
  · intro hone
    obtain ⟨o, ho, hsocket⟩ := List.countP_pos_iff.mp (hone ▸ Nat.one_pos)
    exact ⟨o, ho, by simpa using hsocket⟩
  · rintro ⟨o, ho, rfl⟩
    have hcount : (s.flights.map HandOff.socket).count o.socket = 1 :=
      List.count_eq_one_of_mem h.linear.once (List.mem_map_of_mem ho)
    rw [List.count, List.countP_map] at hcount
    exact hcount

/-- An open descriptor is registered with a live connection. -/
theorem Conserved.served (h : s.Conserved) {pid fd : ℤ}
    (hs : (s.workers pid).fds fd = some socket) : s.Served socket := by
  rcases h.inOrder pid with horderly | ⟨hvacant, -⟩
  · obtain ⟨t, ht⟩ := horderly.tidy.opened fd socket hs
    obtain ⟨c, hc, hfd, hne, -⟩ := horderly.serving.entry fd t ht
    have huntroubled := horderly.conserving.untroubled hc (hfd ▸ ht)
    have hzombie : c.state.zombie = false := by
      by_contra hz
      have hinvalid := (horderly.serving.zombie t c hc (by simpa using hz)).1
      exact hne (hfd.symm.trans hinvalid)
    refine ⟨pid, fd, t, c, ht, hs, hc, hfd, (Bool.or_eq_false_iff.mp huntroubled).2, hzombie,
      fun fd' => ?_, fun pid' fd' hs' => ?_⟩
    · rw [h.accounted.accepting]
      exact (Option.some_ne_none socket).symm
    · exact h.accounted.linear.apart pid' pid fd' fd socket hs' hs
  · rw [hvacant.closed] at hs
    exact absurd hs (by simp)

theorem Conserved.situated (h : s.Conserved) (socket : ℕ) : s.Situated socket := by
  have hflight := inFlight_iff h.accounted socket
  have hmoving := h.accounted.linear.moving
  by_cases hin : s.InFlight socket
  · obtain ⟨o, ho, hsocket⟩ := hflight.mp hin
    refine Or.inr (Or.inl ⟨?_, hin, fun hclosed => hclosed.2.2 o ho hsocket⟩)
    rintro ⟨pid, fd, t, c, -, hs, -⟩
    exact hmoving pid fd socket hs (List.mem_map.mpr ⟨o, ho, hsocket⟩)
  by_cases hheld : ∃ pid fd, (s.workers pid).fds fd = some socket
  · obtain ⟨pid, fd, hs⟩ := hheld
    exact Or.inl ⟨h.served hs, hin, fun hclosed => hclosed.2.1 pid fd hs⟩
  · refine Or.inr (Or.inr ⟨?_, hin, fun fd => ?_, fun pid fd hs => hheld ⟨pid, fd, hs⟩,
      fun o ho hsocket => hin (hflight.mpr ⟨o, ho, hsocket⟩)⟩)
    · rintro ⟨pid, fd, t, c, -, hs, -⟩
      exact hheld ⟨pid, fd, hs⟩
    · rw [h.accounted.accepting]
      exact (Option.some_ne_none socket).symm

end Situations
end Fleet

/-- Whatever clients are accepted, handed off and moved between the workers: as long as the
steps meet the condition, every accepted socket is served by one process, on its way to one,
or closed. -/
theorem sockets_conserved (L : TxtLib) (myRooms : ℤ → List Bytes) (clock : ℤ → ℕ)
    (as : List FleetAction)
    (h : Along (Fleet.step L) Fleet.Conserves (.start L myRooms clock) as) :
    ∀ socket ∈ (as.foldl (Fleet.step L) (.start L myRooms clock)).accepted,
      (as.foldl (Fleet.step L) (.start L myRooms clock)).Situated socket := by
  have hrun := along_invariant (fun s a (hs : s.Conserved) ha => hs.step L ha)
    (Fleet.conserved_start L myRooms clock) h
  exact fun socket _ => hrun.situated socket

/-- A client is accepted for process 4712 and joins a room of process 4713. -/
def socketMoves : List FleetAction :=
  [.accept 5 0 4712 true, .receive .calm 0 6 0 (List.replicate 128 0),
    .reply .calm 4712 0 (.roomPid (lit "room/pid/TWO") (lit "4713")),
    .receive .calm 0 7 0 (List.replicate 128 0)]

theorem calm_succeeds : World.calm.Succeeds := ⟨fun _ _ => rfl, fun _ _ => rfl⟩

theorem sockets_conserved_moves :
    (socketMoves.foldl (Fleet.step .cutting) (.start .cutting (fun _ => []) fun _ => 1)).Situated
      0 := by
  refine sockets_conserved .cutting (fun _ => []) (fun _ => 1) socketMoves
    ⟨rfl, ⟨calm_succeeds, ?_⟩, calm_succeeds, ⟨calm_succeeds, ?_⟩, trivial⟩ 0 (by decide +kernel)
  · decide +kernel
  · decide +kernel

/-- `pp_raw_send_socket` fails for the first client: its socket stays open in the accepting
process. -/
theorem accept_leaks : ¬ ([FleetAction.accept 5 0 4712 false].foldl (Fleet.step .cutting)
    (.start .cutting (fun _ => []) fun _ => 1)).Situated 0 := by
  have hopen : ([FleetAction.accept 5 0 4712 false].foldl (Fleet.step .cutting)
      (.start .cutting (fun _ => []) fun _ => 1)).fds 5 = some 0 := by decide +kernel
  have hstays : ([FleetAction.accept 5 0 4712 false].foldl (Fleet.step .cutting)
      (.start .cutting (fun _ => []) fun _ => 1)).flights = [] := by decide +kernel
  rintro (⟨⟨_, _, _, _, -, -, -, -, -, -, hclosed, -⟩, -, -⟩ | ⟨-, hflight, -⟩ | ⟨-, -, hclosed⟩)
  · exact hclosed 5 hopen
  · unfold Fleet.InFlight at hflight
    rw [hstays] at hflight
    exact absurd hflight (by decide)
  · exact hclosed.1 5 hopen

end Nginz
