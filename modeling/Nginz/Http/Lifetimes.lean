import Nginz.Http.Tunnel
import Nginz.Lib.Replay
import Nginz.WebChat.SessionId

/-! The connections of an HTTP worker over whole runs: which descriptors are open and which of
them the event loop has, and when the objects are freed. -/
namespace Nginz
open Replay

/-- What a plugin does on a call: what it does with the stream, and perhaps it sends the socket
to another process, which `pp_raw_send_socket` may refuse. A plugin that keeps the descriptor in
objects of its own, as `http_webchat_plug` does in a session and its chat, is not covered. -/
structure HttpVisit where
  acts : List HttpAct
  transfer : Option Bool
  more : List HttpAct
  ret : ℤ
  deriving DecidableEq, Repr

abbrev HttpVisits := Bytes → Bytes → HttpVisit

def HttpVisit.isProcessed (visit : HttpVisit) : Bool :=
  (visit.acts ++ visit.more).any (· ≠ .close)

/-- `default_transfer_parallel` of a connection, and the flag that `webchat_transfer_parallel` and
`web_session_transfer_parallel` set behind it. A socket that was sent is closed. -/
def httpTransferParallel (w : HttpWorker) (t : ℕ) (taken : Bool) : HttpWorker :=
  let fd := (w.connection t).fd
  let w := w.emit (.unregister fd t)
  let w := if taken && fd ≠ invalidFd then w.emit (.close fd t) else w
  w.setConnection t fun http => { http with softQuit := true }

def httpVisitServe (L : TxtLib) (w : HttpWorker) (t : ℕ) (visit : HttpVisit) : HttpWorker :=
  let w := visit.acts.foldl (httpAct L t) w
  let w :=
    match visit.transfer with
    | none => w
    | some taken => httpTransferParallel w t taken
  visit.more.foldl (httpAct L t) w

/-- `http_url_go` with plugins that may send the socket away. -/
def httpVisitGo (L : TxtLib) (visits : HttpVisits) (w : HttpWorker) (t : ℕ) (target : AroopTxt) :
    HttpWorker × ℤ :=
  match httpUrlGo L target with
  | .testAndClose => httpResponseTestAndClose w t
  | .bridgeCall space =>
    let content := (w.connection t).content
    let visit := visits space content
    let w := w.emit (.dispatch t space content)
    let w := httpVisitServe L w t visit
    let w :=
      if !visit.isProcessed then
        httpStreamioSend w t (lit "HTTP/1.0 404 NOT FOUND\r\nContent-Length: 9\r\n\r\nNot Found")
      else w
    (w, visit.ret)

/-- The clients' descriptors: those that the event loop has a connection with, and those that are
open, with the connections that they came for. -/
structure HttpTable where
  eventLoop : List (ℤ × ℕ)
  opened : List (ℤ × ℕ)
  deriving DecidableEq, Repr

/-- `event_loop_unregister_fd` and `close` go by the number alone. -/
def HttpTable.after (x : HttpTable) : HttpEffect → HttpTable
  | .dispatch _ _ _ => x
  | .send _ _ => x
  | .unregister fd _ => { x with eventLoop := x.eventLoop.filter (·.1 ≠ fd) }
  | .close fd _ => { x with opened := x.opened.filter (·.1 ≠ fd) }
  | .unref _ => x

structure HttpHost where
  worker : HttpWorker
  table : HttpTable

/-- What happens at a worker: a connection arrives with a request and gets a free object, the
event loop calls for one, or the worker is told to quit with these objects in its pool. -/
inductive HttpHostEvent where
  | arrive (fd : ℤ) (t : ℕ) (request : Bytes) (visits : HttpVisits)
  | clientData (fd : ℤ) (t : ℕ) (result : RecvResult) (visits : HttpVisits)
  | softQuit (pool : List ℕ)

namespace HttpHost

/-- The worker does something, and the table follows. -/
def work (h : HttpHost) (f : HttpWorker → HttpWorker) : HttpHost :=
  ⟨f h.worker, settle HttpWorker.log HttpTable.after h.worker h.table (f h.worker)⟩

/-- `http_alloc`, and the content that `http_on_connection_bubble` sets. -/
def alloc (h : HttpHost) (fd : ℤ) (t : ℕ) (request : Bytes) : HttpHost :=
  let http := { HttpConnection.initial fd with content := request }
  ⟨{ h.worker with connections := Function.update h.worker.connections t (some http) },
    { h.table with opened := (fd, t) :: h.table.opened }⟩

def registerFd (h : HttpHost) (fd : ℤ) (t : ℕ) : HttpHost :=
  { h with table := { h.table with eventLoop := (fd, t) :: h.table.eventLoop } }

def clearContent (t : ℕ) (w : HttpWorker) : HttpWorker :=
  w.setConnection t fun http => { http with content := [] }

/-- `http_on_connection_bubble`. The plugin's flags are not looked at behind the call. -/
def arrive (L : TxtLib) (h : HttpHost) (fd : ℤ) (t : ℕ) (request : Bytes) (visits : HttpVisits) :
    HttpHost :=
  let h := h.alloc fd t request
  match httpOnConnectionBubble L request with
  | .closed => h.work fun w => dismissHttp w t
  | .welcomed => (h.registerFd fd t).work (clearContent t)
  | .called space content => (h.registerFd fd t).work fun w =>
      clearContent t
        (httpVisitServe L (w.emit (.dispatch t space content)) t (visits space content))

/-- The event loop calls `http_on_client_data` with the connection it has for a descriptor. -/
def on (L : TxtLib) (negative : NegativeLength) (h : HttpHost) : HttpHostEvent → HttpHost
  | .arrive fd t request visits => h.arrive L fd t request visits
  | .clientData fd t result visits =>
    if h.table.eventLoop.any fun r => r.1 = fd ∧ r.2 = t then
      h.work fun w =>
        (httpClientDataWith (fun w => httpVisitGo L visits w t) negative w t result).1
    else h
  | .softQuit pool => h.work fun w => pool.foldl defaultHttpClose w

def start (L : TxtLib) : HttpHost where
  worker := ⟨fun _ => none, .fresh L nginzMaxHttpMsgSize, false, []⟩
  table := ⟨[], []⟩

/-- A descriptor that arrives is not open, and its connection gets a free object; all objects are
in the pool. -/
def Permits (h : HttpHost) : HttpHostEvent → Prop
  | .arrive fd t _ _ => fd ≠ invalidFd ∧ fd ∉ h.table.opened.map Prod.fst ∧
      h.worker.connections t = none
  | .clientData _ _ _ _ => True
  | .softQuit pool => ∀ t, (h.worker.connections t).isSome → t ∈ pool

end HttpHost

namespace HttpHostEvent

/-- The descriptor that comes with an event. -/
def arrival : HttpHostEvent → Option (ℤ × ℕ)
  | .arrive fd t _ _ => some (fd, t)
  | .clientData _ _ _ _ => none
  | .softQuit _ => none

/-- No socket is refused. -/
def Taken : HttpHostEvent → Prop
  | .arrive _ _ _ visits => ∀ space content, (visits space content).transfer ≠ some false
  | .clientData _ _ _ visits => ∀ space content, (visits space content).transfer ≠ some false
  | .softQuit _ => True

/-- A plugin closes or sends away no connection that has just arrived, and closes another one
only if it sends it away; and the worker does not quit. -/
def Flagged : HttpHostEvent → Prop
  | .arrive _ _ _ visits => ∀ space content, (visits space content).transfer = none ∧
      .close ∉ (visits space content).acts ++ (visits space content).more
  | .clientData _ _ _ visits => ∀ space content, (visits space content).transfer = none →
      .close ∉ (visits space content).acts ++ (visits space content).more
  | .softQuit _ => False

end HttpHostEvent

/-! ### What stays true at every moment -/

/-- What the table has to do with of an object. -/
structure HttpHandle where
  fd : ℤ
  softQuit : Bool
  refs : ℕ

def HttpConnection.handle (http : HttpConnection) : HttpHandle :=
  ⟨http.fd, http.softQuit, http.refs⟩

def HttpWorker.handle (w : HttpWorker) (t : ℕ) : Option HttpHandle :=
  (w.connections t).map HttpConnection.handle

/-- The log has closed and freed the same. -/
structure SameEnds (w w' : HttpWorker) : Prop where
  closes : ∀ fd t, w'.log.count (.close fd t) = w.log.count (.close fd t)
  frees : ∀ t, w'.log.count (.unref t) = w.log.count (.unref t)

/-- After these arrivals each descriptor is closed or open, each object is freed or there, and what
the event loop has is open and belongs to the object it has it with. -/
structure HttpHeld (arrivals : List (ℤ × ℕ)) (taken : Prop) (w : HttpWorker) (x : HttpTable) :
    Prop where
  valid : ∀ fd t, (fd, t) ∈ x.opened → fd ≠ invalidFd
  once : (x.opened.map Prod.fst).Nodup
  registered : ∀ fd t, (fd, t) ∈ x.eventLoop → (fd, t) ∈ x.opened ∧
    ∃ refs, w.handle t = some ⟨fd, false, refs⟩
  refs : ∀ t http, w.handle t = some http → http.refs = 1
  holds : ∀ fd t refs, w.handle t = some ⟨fd, false, refs⟩ → fd ≠ invalidFd → (fd, t) ∈ x.opened
  closes : ∀ fd t, w.log.count (.close fd t) + x.opened.count (fd, t) = arrivals.count (fd, t)
  frees : ∀ t, w.log.count (.unref t) + (if (w.handle t).isSome then 1 else 0) =
    (arrivals.map Prod.snd).count t
  owned : taken → ∀ fd t, (fd, t) ∈ x.opened → ∃ refs, w.handle t = some ⟨fd, false, refs⟩

section Held
variable {arrivals : List (ℤ × ℕ)} {taken : Prop} {w w' : HttpWorker} {x : HttpTable} {t u : ℕ}
  {fd : ℤ} {http http' : HttpHandle}

theorem handle_setConnection (w : HttpWorker) (t : ℕ) (f : HttpConnection → HttpConnection) :
    (w.setConnection t f).handle =
      Function.update w.handle t ((w.connections t).map fun http => (f http).handle) := by
  funext u
  unfold HttpWorker.handle HttpWorker.setConnection
  dsimp only
  by_cases hu : u = t
  · subst hu
    rw [Function.update_self, Function.update_self, Option.map_map]
    rfl
  · rw [Function.update_of_ne hu, Function.update_of_ne hu]

/-- A change of an object that is none of the table's business. -/
theorem handle_setConnection_same {f : HttpConnection → HttpConnection}
    (hf : ∀ http, w.connections t = some http → (f http).handle = http.handle) :
    (w.setConnection t f).handle = w.handle := by
  rw [handle_setConnection]
  refine Function.update_eq_self_iff.mpr ?_
  unfold HttpWorker.handle
  cases hc : w.connections t with
  | none => rfl
  | some http => exact congrArg some (hf http hc)

theorem connection_handle (h : w.handle t = some http) : (w.connection t).handle = http := by
  unfold HttpWorker.handle at h
  obtain ⟨c, hc, rfl⟩ := Option.map_eq_some_iff.mp h
  rw [HttpWorker.connection, hc]
  rfl

theorem HttpHeld.same (h : HttpHeld arrivals taken w x) (hhandle : w'.handle = w.handle)
    (hends : SameEnds w w') : HttpHeld arrivals taken w' x := by
  refine ⟨h.valid, h.once, ?_, ?_, ?_, ?_, ?_, ?_⟩
  · rw [hhandle]
    exact h.registered
  · rw [hhandle]
    exact h.refs
  · rw [hhandle]
    exact h.holds
  · intro fd t
    rw [hends.closes]
    exact h.closes fd t
  · intro t
    rw [hends.frees, hhandle]
    exact h.frees t
  · rw [hhandle]
    exact h.owned

theorem HttpHeld.fd_unique (h : HttpHeld arrivals taken w x) (ht : (fd, t) ∈ x.opened)
    (hu : (fd, u) ∈ x.opened) : t = u :=
  congrArg Prod.snd (List.inj_on_of_nodup_map h.once ht hu rfl)

/-- An object whose registration is gone has no entry in the table any more, if the descriptor
does not stay open. -/
theorem HttpHeld.forget (h : HttpHeld arrivals taken w x) (ht : w.handle t = some http)
    (hleft : taken → (http.fd, t) ∉ x.opened)
    (hhandle : w'.handle = Function.update w.handle t (some http')) (hrefs : http'.refs = http.refs)
    (hexempt : http'.fd = invalidFd ∨ http'.softQuit = true) (hends : SameEnds w w') :
    HttpHeld arrivals taken w' { x with eventLoop := x.eventLoop.filter (·.1 ≠ http.fd) } := by
  have hother {u : ℕ} (hu : u ≠ t) : w'.handle u = w.handle u := by
    rw [hhandle, Function.update_of_ne hu]
  have hself : w'.handle t = some http' := by rw [hhandle, Function.update_self]
  refine ⟨h.valid, h.once, fun fd u hmem => ?_, fun u http'' hu => ?_, fun fd u refs hu hfd => ?_,
    fun fd u => ?_, fun u => ?_, fun htaken fd u hmem => ?_⟩
  · obtain ⟨hin, hne⟩ := List.mem_filter.mp hmem
    obtain ⟨hopened, refs, hu⟩ := h.registered fd u hin
    refine ⟨hopened, refs, ?_⟩
    rw [hother]
    · exact hu
    · rintro rfl
      rw [ht] at hu
      exact of_decide_eq_true hne (congrArg HttpHandle.fd (Option.some.inj hu)).symm
  · by_cases hut : u = t
    · rw [hut, hself] at hu
      rw [← Option.some.inj hu, hrefs]
      exact h.refs t http ht
    · rw [hother hut] at hu
      exact h.refs u http'' hu
  · by_cases hut : u = t
    · rw [hut, hself] at hu
      rw [Option.some.inj hu] at hexempt
      exact absurd hexempt (by simp [hfd])
    · rw [hother hut] at hu
      exact h.holds fd u refs hu hfd
  · rw [hends.closes]
    exact h.closes fd u
  · rw [hends.frees, ← h.frees u]
    by_cases hut : u = t
    · rw [hut, hself, ht]
      rfl
    · rw [hother hut]
  · obtain ⟨refs, hu⟩ := h.owned htaken fd u hmem
    refine ⟨refs, ?_⟩
    rw [hother]
    · exact hu
    · rintro rfl
      rw [ht] at hu
      rw [Option.some.inj hu] at hleft
      exact hleft htaken hmem

/-- The descriptor of an object is unregistered and closed. -/
theorem HttpHeld.giveUp (h : HttpHeld arrivals taken w x) (ht : w.handle t = some http)
    (hcalm : http.softQuit = false) (hfd : http.fd ≠ invalidFd)
    (hhandle : w'.handle = Function.update w.handle t (some http')) (hrefs : http'.refs = http.refs)
    (hexempt : http'.fd = invalidFd ∨ http'.softQuit = true)
    (hcloses : ∀ fd u, w'.log.count (.close fd u) =
      w.log.count (.close fd u) + if fd = http.fd ∧ u = t then 1 else 0)
    (hfrees : ∀ u, w'.log.count (.unref u) = w.log.count (.unref u)) :
    HttpHeld arrivals taken w' ⟨x.eventLoop.filter (·.1 ≠ http.fd),
      x.opened.filter (·.1 ≠ http.fd)⟩ := by
  have hopened : (http.fd, t) ∈ x.opened :=
    h.holds http.fd t http.refs (by rw [ht, ← hcalm]) hfd
  have hother {u : ℕ} (hu : u ≠ t) : w'.handle u = w.handle u := by
    rw [hhandle, Function.update_of_ne hu]
  have hself : w'.handle t = some http' := by rw [hhandle, Function.update_self]
  refine ⟨fun fd u hmem => ?_, ?_, fun fd u hmem => ?_, fun u http'' hu => ?_,
    fun fd u refs hu hvalid => ?_, fun fd u => ?_, fun u => ?_, fun htaken fd u hmem => ?_⟩
  · exact h.valid fd u (List.mem_filter.mp hmem).1
  · exact h.once.sublist (List.filter_sublist.map _)
  · obtain ⟨hin, hne⟩ := List.mem_filter.mp hmem
    obtain ⟨hopened', refs, hu⟩ := h.registered fd u hin
    refine ⟨List.mem_filter.mpr ⟨hopened', hne⟩, refs, ?_⟩
    rw [hother]
    · exact hu
    · rintro rfl
      rw [ht] at hu
      exact of_decide_eq_true hne (congrArg HttpHandle.fd (Option.some.inj hu)).symm
  · by_cases hut : u = t
    · rw [hut, hself] at hu
      rw [← Option.some.inj hu, hrefs]
      exact h.refs t http ht
    · rw [hother hut] at hu
      exact h.refs u http'' hu
  · by_cases hut : u = t
    · rw [hut, hself] at hu
      rw [Option.some.inj hu] at hexempt
      exact absurd hexempt (by simp [hvalid])
    · rw [hother hut] at hu
      have hin := h.holds fd u refs hu hvalid
      refine List.mem_filter.mpr ⟨hin, decide_eq_true ?_⟩
      rintro rfl
      exact hut (h.fd_unique hin hopened)
  · rw [hcloses, ← h.closes fd u]
    by_cases hfd' : fd = http.fd
    · subst hfd'
      have hgone : (x.opened.filter (·.1 ≠ http.fd)).count (http.fd, u) = 0 :=
        List.count_eq_zero.mpr fun hmem => absurd (List.mem_filter.mp hmem).2 (by simp)
      rw [hgone]
      by_cases hut : u = t
      · rw [hut, List.count_eq_one_of_mem (List.Nodup.of_map _ h.once) hopened]
        simp
      · have hnot : x.opened.count (http.fd, u) = 0 :=
          List.count_eq_zero.mpr fun hmem => hut (h.fd_unique hmem hopened)
        simp [hut, hnot]
    · rw [List.count_filter (by simpa using hfd')]
      simp [hfd']
  · rw [hfrees, ← h.frees u]
    by_cases hut : u = t
    · rw [hut, hself, ht]
      rfl
    · rw [hother hut]
  · obtain ⟨hin, hne⟩ := List.mem_filter.mp hmem
    obtain ⟨refs, hu⟩ := h.owned htaken fd u hin
    refine ⟨refs, ?_⟩
    rw [hother]
    · exact hu
    · rintro rfl
      rw [ht] at hu
      exact of_decide_eq_true hne (congrArg HttpHandle.fd (Option.some.inj hu)).symm

/-- An object without a descriptor is freed. -/
theorem HttpHeld.free (h : HttpHeld arrivals taken w x) (ht : w.handle t = some http)
    (hfd : http.fd = invalidFd) (hhandle : w'.handle = Function.update w.handle t none)
    (hcloses : ∀ fd u, w'.log.count (.close fd u) = w.log.count (.close fd u))
    (hfrees : ∀ u, w'.log.count (.unref u) = w.log.count (.unref u) + if u = t then 1 else 0) :
    HttpHeld arrivals taken w' x := by
  have hother {u : ℕ} (hu : u ≠ t) : w'.handle u = w.handle u := by
    rw [hhandle, Function.update_of_ne hu]
  have hself : w'.handle t = none := by rw [hhandle, Function.update_self]
  have hkept {fd : ℤ} {u refs : ℕ} (hopened : (fd, u) ∈ x.opened)
      (hu : w.handle u = some ⟨fd, false, refs⟩) : w'.handle u = some ⟨fd, false, refs⟩ := by
    rw [hother]
    · exact hu
    · rintro rfl
      rw [ht] at hu
      rw [Option.some.inj hu] at hfd
      exact h.valid fd u hopened hfd
  refine ⟨h.valid, h.once, fun fd u hmem => ?_, fun u http'' hu => ?_,
    fun fd u refs hu hvalid => ?_, fun fd u => ?_, fun u => ?_, fun htaken fd u hmem => ?_⟩
  · obtain ⟨hopened, refs, hu⟩ := h.registered fd u hmem
    exact ⟨hopened, refs, hkept hopened hu⟩
  · by_cases hut : u = t
    · rw [hut, hself] at hu
      exact absurd hu (Option.some_ne_none _).symm
    · rw [hother hut] at hu
      exact h.refs u http'' hu
  · by_cases hut : u = t
    · rw [hut, hself] at hu
      exact absurd hu (Option.some_ne_none _).symm
    · rw [hother hut] at hu
      exact h.holds fd u refs hu hvalid
  · rw [hcloses]
    exact h.closes fd u
  · rw [hfrees, ← h.frees u]
    by_cases hut : u = t
    · rw [hut, hself, ht]
      simp
    · rw [hother hut]
      simp [hut]
  · obtain ⟨refs, hu⟩ := h.owned htaken fd u hmem
    exact ⟨refs, hkept hmem hu⟩

end Held

/-! ### What handlers do -/

/-- The event loop has the object with its descriptor. -/
def HttpTable.Has (x : HttpTable) (t : ℕ) : Prop := ∃ fd, (fd, t) ∈ x.eventLoop

/-- While the handler of a connection runs. -/
structure HttpServed (arrivals : List (ℤ × ℕ)) (taken attended : Prop) (t : ℕ) (w : HttpWorker)
    (x : HttpTable) : Prop where
  held : HttpHeld arrivals taken w x
  listened : ∀ fd u refs, w.handle u = some ⟨fd, false, refs⟩ → fd ≠ invalidFd →
    (fd, u) ∈ x.eventLoop
  alive : ∃ http, w.handle t = some http
  own : ∀ http u, w.handle t = some http → (http.fd, u) ∈ x.eventLoop → u = t
  others : attended → ∀ u, u ≠ t → (w.handle u).isSome → x.Has u

/-- Between the handlers. -/
structure HttpKept (arrivals : List (ℤ × ℕ)) (taken attended : Prop) (w : HttpWorker)
    (x : HttpTable) : Prop where
  held : HttpHeld arrivals taken w x
  listened : ∀ fd u refs, w.handle u = some ⟨fd, false, refs⟩ → fd ≠ invalidFd →
    (fd, u) ∈ x.eventLoop
  all : attended → ∀ u, (w.handle u).isSome → x.Has u

/-- The connection was not sent away. -/
def HttpWorker.Calm (w : HttpWorker) (t : ℕ) : Prop :=
  ∀ http, w.handle t = some http → http.softQuit = false

/-- Its descriptor is gone. -/
def HttpWorker.Gone (w : HttpWorker) (t : ℕ) : Prop :=
  ∀ http, w.handle t = some http → http.fd = invalidFd

/-- The connection is still here, and under a condition the event loop has it. -/
def HttpReady (arrivals : List (ℤ × ℕ)) (taken attended present : Prop) (t : ℕ) (w : HttpWorker)
    (x : HttpTable) : Prop :=
  HttpServed arrivals taken attended t w x ∧ w.Calm t ∧ (present → x.Has t)

/-- The connection is about to end. -/
def HttpWorker.Ending (w : HttpWorker) (t : ℕ) : Prop :=
  (w.connection t).quit = true ∨ (w.connection t).softQuit = true

section Served
variable {arrivals : List (ℤ × ℕ)} {taken attended present : Prop} {w w' : HttpWorker}
  {x : HttpTable} {t u : ℕ} {fd : ℤ} {http http' : HttpHandle}

theorem HttpServed.same (h : HttpServed arrivals taken attended t w x)
    (hhandle : w'.handle = w.handle) (hends : SameEnds w w') :
    HttpServed arrivals taken attended t w' x := by
  refine ⟨h.held.same hhandle hends, ?_, ?_, ?_, ?_⟩
  · rw [hhandle]
    exact h.listened
  · rw [hhandle]
    exact h.alive
  · rw [hhandle]
    exact h.own
  · rw [hhandle]
    exact h.others

/-- The registration of the connection is gone, and what else happened to it left its object out
of the table. -/
theorem HttpServed.leave (h : HttpServed arrivals taken attended t w x)
    (ht : w.handle t = some http) (hhandle : w'.handle = Function.update w.handle t (some http'))
    (hfd : http'.fd = invalidFd ∨ http'.fd = http.fd)
    (hexempt : http'.fd = invalidFd ∨ http'.softQuit = true) {opened : List (ℤ × ℕ)}
    (hheld : HttpHeld arrivals taken w' ⟨x.eventLoop.filter (·.1 ≠ http.fd), opened⟩) :
    HttpServed arrivals taken attended t w'
      ⟨x.eventLoop.filter (·.1 ≠ http.fd), opened⟩ := by
  have hother {u : ℕ} (hu : u ≠ t) : w'.handle u = w.handle u := by
    rw [hhandle, Function.update_of_ne hu]
  have hself : w'.handle t = some http' := by rw [hhandle, Function.update_self]
  have hstays {fd : ℤ} {u : ℕ} (hu : u ≠ t) (hin : (fd, u) ∈ x.eventLoop) :
      (fd, u) ∈ x.eventLoop.filter (·.1 ≠ http.fd) := by
    refine List.mem_filter.mpr ⟨hin, decide_eq_true ?_⟩
    rintro rfl
    exact hu (h.own http u ht hin)
  refine ⟨hheld, fun fd u refs hu hvalid => ?_, ⟨http', hself⟩, fun http'' u ht' hin => ?_,
    fun hattended u hu hsome => ?_⟩
  · by_cases hut : u = t
    · rw [hut, hself] at hu
      rw [Option.some.inj hu] at hexempt
      exact absurd hexempt (by simp [hvalid])
    · rw [hother hut] at hu
      exact hstays hut (h.listened fd u refs hu hvalid)
  · rw [hself] at ht'
    rw [← Option.some.inj ht'] at hin
    rcases hfd with hfd | hfd
    · exact absurd hfd (hheld.valid _ _ (hheld.registered _ _ hin).1)
    · exact absurd hfd (of_decide_eq_true (List.mem_filter.mp hin).2)
  · rw [hother hu] at hsome
    obtain ⟨fd, hin⟩ := h.others hattended u hu hsome
    exact ⟨fd, hstays hu hin⟩

theorem HttpServed.forget (h : HttpServed arrivals taken attended t w x)
    (ht : w.handle t = some http) (hleft : taken → (http.fd, t) ∉ x.opened)
    (hhandle : w'.handle = Function.update w.handle t (some http')) (hrefs : http'.refs = http.refs)
    (hfd : http'.fd = invalidFd ∨ http'.fd = http.fd)
    (hexempt : http'.fd = invalidFd ∨ http'.softQuit = true) (hends : SameEnds w w') :
    HttpServed arrivals taken attended t w'
      { x with eventLoop := x.eventLoop.filter (·.1 ≠ http.fd) } :=
  h.leave ht hhandle hfd hexempt (h.held.forget ht hleft hhandle hrefs hexempt hends)

theorem HttpServed.giveUp (h : HttpServed arrivals taken attended t w x)
    (ht : w.handle t = some http) (hcalm : http.softQuit = false) (hvalid : http.fd ≠ invalidFd)
    (hhandle : w'.handle = Function.update w.handle t (some http')) (hrefs : http'.refs = http.refs)
    (hfd : http'.fd = invalidFd ∨ http'.fd = http.fd)
    (hexempt : http'.fd = invalidFd ∨ http'.softQuit = true)
    (hcloses : ∀ fd u, w'.log.count (.close fd u) =
      w.log.count (.close fd u) + if fd = http.fd ∧ u = t then 1 else 0)
    (hfrees : ∀ u, w'.log.count (.unref u) = w.log.count (.unref u)) :
    HttpServed arrivals taken attended t w' ⟨x.eventLoop.filter (·.1 ≠ http.fd),
      x.opened.filter (·.1 ≠ http.fd)⟩ :=
  h.leave ht hhandle hfd hexempt
    (h.held.giveUp ht hcalm hvalid hhandle hrefs hexempt hcloses hfrees)

/-- The object is freed. -/
theorem HttpServed.free (h : HttpServed arrivals taken attended t w x)
    (ht : w.handle t = some http) (hfd : http.fd = invalidFd)
    (hhandle : w'.handle = Function.update w.handle t none)
    (hcloses : ∀ fd u, w'.log.count (.close fd u) = w.log.count (.close fd u))
    (hfrees : ∀ u, w'.log.count (.unref u) = w.log.count (.unref u) + if u = t then 1 else 0) :
    HttpKept arrivals taken attended w' x := by
  have hself : w'.handle t = none := by rw [hhandle, Function.update_self]
  have hother {u : ℕ} (hu : u ≠ t) : w'.handle u = w.handle u := by
    rw [hhandle, Function.update_of_ne hu]
  refine ⟨h.held.free ht hfd hhandle hcloses hfrees, fun fd u refs hu hvalid => ?_,
    fun hattended u hsome => ?_⟩
  · by_cases hut : u = t
    · rw [hut, hself] at hu
      exact absurd hu (Option.some_ne_none _).symm
    · rw [hother hut] at hu
      exact h.listened fd u refs hu hvalid
  · by_cases hut : u = t
    · rw [hut, hself] at hsome
      exact absurd hsome Bool.false_ne_true
    · rw [hother hut] at hsome
      exact h.others hattended u hut hsome

theorem HttpServed.kept (h : HttpServed arrivals taken attended t w x)
    (hpresent : attended → x.Has t) : HttpKept arrivals taken attended w x where
  held := h.held
  listened := h.listened
  all hattended u hsome := by
    by_cases hut : u = t
    · rw [hut]
      exact hpresent hattended
    · exact h.others hattended u hut hsome

theorem HttpReady.same (h : HttpReady arrivals taken attended present t w x)
    (hhandle : w'.handle = w.handle) (hends : SameEnds w w') :
    HttpReady arrivals taken attended present t w' x := by
  refine ⟨h.1.same hhandle hends, ?_, h.2.2⟩
  unfold HttpWorker.Calm
  rw [hhandle]
  exact h.2.1

end Served

/-- Nothing happened but to contents, and nothing was closed or freed. -/
structure HttpAlike (w w' : HttpWorker) : Prop where
  handle : w'.handle = w.handle
  quit : ∀ u, (w'.connection u).quit = (w.connection u).quit
  ends : SameEnds w w'

/-- What does not look at contents. -/
def HttpStable (P : HttpWorker → HttpTable → Prop) : Prop :=
  ∀ w w' x, HttpAlike w w' → P w x → P w' x

abbrev HttpDoes (P : HttpWorker → HttpTable → Prop) (f : HttpWorker → HttpWorker)
    (Q : HttpWorker → HttpTable → Prop) : Prop :=
  Does HttpWorker.log HttpTable.after P f Q

section Operations
variable {arrivals : List (ℤ × ℕ)} {taken attended present : Prop} {w w' : HttpWorker}
  {x : HttpTable} {http : HttpHandle} {P Q : HttpWorker → HttpTable → Prop} (t : ℕ)

theorem connection_softQuit (w : HttpWorker) (t : ℕ) :
    (w.connection t).softQuit = ((w.handle t).map HttpHandle.softQuit).getD false := by
  unfold HttpWorker.connection HttpWorker.handle
  cases w.connections t <;> rfl

theorem HttpAlike.ending (h : HttpAlike w w') : w'.Ending t ↔ w.Ending t := by
  unfold HttpWorker.Ending
  rw [h.quit, connection_softQuit, connection_softQuit, h.handle]

theorem stable_served : HttpStable (HttpServed arrivals taken attended t) :=
  fun _ _ _ h hs => hs.same h.handle h.ends

theorem stable_ready : HttpStable (HttpReady arrivals taken attended present t) :=
  fun _ _ _ h hs => hs.same h.handle h.ends

theorem stable_kept : HttpStable (HttpKept arrivals taken attended) := by
  intro w w' x h hk
  refine ⟨hk.held.same h.handle h.ends, ?_, ?_⟩
  · rw [h.handle]
    exact hk.listened
  · rw [h.handle]
    exact hk.all

theorem HttpStable.ending (hP : HttpStable P) : HttpStable fun w x => P w x ∧ w.Ending t :=
  fun _ _ _ h hs => ⟨hP _ _ _ h hs.1, (h.ending t).mpr hs.2⟩

/-- What touches neither the connections nor the log. -/
theorem does_nothing {f : HttpWorker → HttpWorker} (hP : HttpStable P)
    (hconnections : ∀ w, (f w).connections = w.connections) (hlog : ∀ w, (f w).log = w.log) :
    HttpDoes P f P := by
  refine Does.quiet hlog fun w x h => hP w _ x ⟨?_, fun u => ?_, fun fd u => ?_, fun u => ?_⟩ h
  · unfold HttpWorker.handle
    rw [hconnections]
  · unfold HttpWorker.connection
    rw [hconnections]
  · rw [hlog]
  · rw [hlog]

theorem does_emit (hP : HttpStable P) (e : HttpEffect) (hafter : ∀ x : HttpTable, x.after e = x)
    (hclose : ∀ fd u, e ≠ .close fd u) (hunref : ∀ u, e ≠ .unref u) :
    HttpDoes P (fun w => w.emit e) P := by
  refine Does.of_log (fun w => show (w.emit e).log = w.log ++ [e] from rfl) fun w x h => ?_
  have hsame : HttpAlike w (w.emit e) := by
    refine ⟨rfl, fun _ => rfl, fun fd u => ?_, fun u => ?_⟩
    · change (w.log ++ [e]).count _ = _
      rw [List.count_append, List.count_singleton, if_neg (by simpa using hclose fd u)]
      rfl
    · change (w.log ++ [e]).count _ = _
      rw [List.count_append, List.count_singleton, if_neg (by simpa using hunref u)]
      rfl
  rw [List.foldl_cons, List.foldl_nil, hafter]
  exact hP _ _ _ hsame h

theorem does_dispatch (hP : HttpStable P) (space content : Bytes) :
    HttpDoes P (fun w => w.emit (.dispatch t space content)) P :=
  does_emit hP _ (fun _ => rfl) (by simp) (by simp)

theorem does_send (hP : HttpStable P) (content : Bytes) :
    HttpDoes P (fun w => httpStreamioSend w t content) P := by
  refine Does.ite (.skip fun _ _ h => h.1) ?_
  exact (does_emit hP (.send t content) (fun _ => rfl) (by simp) (by simp)).weaken
    (fun _ _ h => h.1) fun _ _ h => h

theorem does_tunnel (L : TxtLib) (hP : HttpStable P) (content : Bytes) :
    HttpDoes P (fun w => httpTunnelSendContent L w t content) P := by
  have hhead := (does_send t hP httpOk).comp (does_send t hP (tunnelSendBuf L content))
  unfold httpTunnelSendContent
  by_cases hcontent : content ≠ []
  · simp only [if_pos hcontent]
    exact hhead.comp (does_send t hP content)
  · simp only [if_neg hcontent]
    exact hhead

theorem does_content (hP : HttpStable P) (content : Bytes) :
    HttpDoes P (fun w => w.setConnection t fun http => { http with content := content }) P := by
  refine Does.quiet (fun _ => rfl) fun w x h =>
    hP w _ x ⟨?_, fun u => ?_, fun _ _ => rfl, fun _ => rfl⟩ h
  · exact handle_setConnection_same fun _ _ => rfl
  · unfold HttpWorker.connection HttpWorker.setConnection
    dsimp only
    by_cases hu : u = t
    · subst hu
      rw [Function.update_self]
      cases w.connections u <;> rfl
    · rw [Function.update_of_ne hu]

theorem close_free (ht : w.handle t = none) : defaultHttpClose w t = w := by
  unfold HttpWorker.handle at ht
  have hfd : (w.connection t).fd = invalidFd := by
    rw [HttpWorker.connection, Option.map_eq_none_iff.mp ht]
    rfl
  unfold defaultHttpClose
  dsimp only
  rw [if_neg (not_not_intro hfd)]

/-- What `default_http_close` comes to. -/
theorem close_cases (ht : w.handle t = some http) :
    http.fd = invalidFd ∧ defaultHttpClose w t = w ∨
      http.fd ≠ invalidFd ∧
        (defaultHttpClose w t).handle =
          Function.update w.handle t (some { http with fd := invalidFd }) ∧
        (∀ u, (defaultHttpClose w t).Ending u ↔ w.Ending u) ∧
        (defaultHttpClose w t).log = w.log ++ .unregister http.fd t ::
          if http.softQuit then [] else [.close http.fd t] := by
  have hfd : (w.connection t).fd = http.fd := congrArg HttpHandle.fd (connection_handle ht)
  have hsoft : ((w.emit (.unregister http.fd t)).connection t).softQuit = http.softQuit :=
    congrArg HttpHandle.softQuit (connection_handle ht)
  have hcore (v : HttpWorker) (hv : v.connections = w.connections) :
      (v.setConnection t fun http => { http with fd := invalidFd }).handle =
        Function.update w.handle t (some { http with fd := invalidFd }) ∧
      ∀ u, (v.setConnection t fun http => { http with fd := invalidFd }).Ending u ↔
        w.Ending u := by
    constructor
    · have hhandle : v.handle = w.handle := by
        funext u
        unfold HttpWorker.handle
        rw [hv]
      rw [handle_setConnection, hhandle, hv]
      congr 1
      unfold HttpWorker.handle at ht
      obtain ⟨c, hc, rfl⟩ := Option.map_eq_some_iff.mp ht
      rw [hc]
      rfl
    · intro u
      unfold HttpWorker.Ending HttpWorker.connection HttpWorker.setConnection
      dsimp only
      rw [hv]
      by_cases hu : u = t
      · subst hu
        rw [Function.update_self]
        cases w.connections u <;> rfl
      · rw [Function.update_of_ne hu]
  unfold defaultHttpClose
  dsimp only
  rw [hfd, hsoft]
  by_cases hvalid : http.fd = invalidFd
  · exact .inl ⟨hvalid, if_neg (not_not_intro hvalid)⟩
  · refine .inr ⟨hvalid, ?_⟩
    rw [if_pos hvalid]
    have hv : (if !http.softQuit then (w.emit (.unregister http.fd t)).emit (.close http.fd t)
        else w.emit (.unregister http.fd t)).connections = w.connections := by
      split <;> rfl
    have hlog : (if !http.softQuit then (w.emit (.unregister http.fd t)).emit (.close http.fd t)
        else w.emit (.unregister http.fd t)).log = w.log ++ .unregister http.fd t ::
          if http.softQuit then [] else [.close http.fd t] := by
      cases http.softQuit with
      | false => exact List.append_assoc _ _ _
      | true => rfl
    obtain ⟨hhandle, hending⟩ := hcore _ hv
    exact ⟨hhandle, hending, hlog⟩

theorem count_closed_fd (fd fd' : ℤ) (u : ℕ) :
    ([.unregister fd' t, .close fd' t] : List HttpEffect).count (.close fd u) =
      if fd = fd' ∧ u = t then 1 else 0 := by
  by_cases hsame : fd = fd' ∧ u = t
  · rw [hsame.1, hsame.2, if_pos ⟨rfl, rfl⟩]
    simp
  · rw [if_neg hsame, List.count_eq_zero]
    simpa using hsame

/-- A close loses no count, whatever object it is called with. -/
theorem does_close_held : HttpDoes (HttpHeld arrivals taken) (fun w => defaultHttpClose w t)
    (fun w x => HttpHeld arrivals taken w x ∧ w.Gone t) := by
  intro w x h
  dsimp only
  cases ht : w.handle t with
  | none =>
    have hsame := close_free t ht
    rw [hsame, settle_same rfl]
    refine ⟨List.prefix_rfl, h, fun http ht' => ?_⟩
    rw [ht] at ht'
    exact absurd ht'.symm (Option.some_ne_none http)
  | some http =>
    rcases close_cases t ht with ⟨hfd, hsame⟩ | ⟨hfd, hhandle, -, hlog⟩
    · rw [hsame, settle_same rfl]
      refine ⟨List.prefix_rfl, h, fun http' ht' => ?_⟩
      rw [← Option.some.inj (ht.symm.trans ht'), hfd]
    · refine ⟨⟨_, hlog.symm⟩, ?_, fun http' ht' => ?_⟩
      · rw [settle_append hlog]
        cases hsoft : http.softQuit with
        | false =>
          rw [hsoft, if_neg Bool.false_ne_true] at hlog
          refine h.giveUp ht hsoft hfd hhandle rfl (.inl rfl) (fun fd u => ?_) fun u => ?_
          · rw [hlog, List.count_append, count_closed_fd]
          · rw [hlog, List.count_append]
            simp
        | true =>
          rw [hsoft, if_pos rfl] at hlog
          refine h.forget ht ?_ hhandle rfl (.inl rfl) ⟨fun fd u => ?_, fun u => ?_⟩
          · intro htaken hopened
            obtain ⟨refs, ht'⟩ := h.owned htaken _ _ hopened
            rw [ht] at ht'
            have hcalm := congrArg HttpHandle.softQuit (Option.some.inj ht')
            exact Bool.false_ne_true (hcalm.symm.trans hsoft)
          · rw [hlog, List.count_append]
            simp
          · rw [hlog, List.count_append]
            simp
      · rw [hhandle, Function.update_self] at ht'
        rw [← Option.some.inj ht']

/-- The event loop loses the connection, and its descriptor is closed unless it was sent away. -/
theorem does_close (b b' : Prop) : HttpDoes
    (fun w x => HttpServed arrivals taken attended t w x ∧ (b → w.Ending t) ∧ (b' → w.Calm t))
    (fun w => defaultHttpClose w t)
    (fun w x => HttpServed arrivals taken attended t w x ∧ (b → w.Ending t) ∧ (b' → w.Calm t) ∧
      w.Gone t) := by
  rintro w x ⟨h, hb, hb'⟩
  obtain ⟨http, ht⟩ := h.alive
  obtain ⟨hpre, hheld, hgone⟩ := does_close_held t w x h.held
  dsimp only at *
  rcases close_cases t ht with ⟨hfd, hsame⟩ | ⟨hfd, hhandle, hending, hlog⟩
  · rw [hsame, settle_same rfl]
    rw [hsame] at hgone
    exact ⟨List.prefix_rfl, h, hb, hb', hgone⟩
  · refine ⟨hpre, ?_, fun hb₁ => (hending t).mpr (hb hb₁), fun hb₁ http' ht' => ?_, hgone⟩
    · rw [settle_append hlog] at hheld ⊢
      cases hsoft : http.softQuit with
      | false =>
        rw [hsoft] at hheld
        exact h.leave ht hhandle (.inl rfl) (.inl rfl) hheld
      | true =>
        rw [hsoft] at hheld
        exact h.leave ht hhandle (.inl rfl) (.inl rfl) hheld
    · rw [hhandle, Function.update_self] at ht'
      rw [← Option.some.inj ht']
      exact hb' hb₁ http ht

theorem does_close_ending : HttpDoes
    (fun w x => HttpServed arrivals taken attended t w x ∧ w.Ending t)
    (fun w => defaultHttpClose w t)
    (fun w x => HttpServed arrivals taken attended t w x ∧ w.Ending t) :=
  (does_close t True False).weaken (fun _ _ h => ⟨h.1, fun _ => h.2, False.elim⟩)
    fun _ _ h => ⟨h.1, h.2.1 trivial⟩

/-- `OPPUNREF` of a closed connection frees its object. -/
theorem does_unref : HttpDoes
    (fun w x => HttpServed arrivals taken attended t w x ∧ w.Gone t)
    (fun w => httpUnref w t) (HttpKept arrivals taken attended) := by
  rintro w x ⟨h, hgone⟩
  obtain ⟨http, ht⟩ := h.alive
  have hfd := hgone http ht
  have hrefs : ((w.emit (.unref t)).connection t).refs ≤ 1 := by
    have href := congrArg HttpHandle.refs (connection_handle ht)
    exact (href.trans (h.held.refs t http ht)).le
  have hclosed : (((w.emit (.unref t)).setConnection t
      fun http => { http with content := [] }).connection t).fd = invalidFd := by
    have hhandle := handle_setConnection_same (w := w.emit (.unref t)) (t := t)
      (f := fun http => { http with content := [] }) fun _ _ => rfl
    have ht' := (congrFun hhandle t).trans ht
    exact (congrArg HttpHandle.fd (connection_handle ht')).trans hfd
  have hworker : httpUnref w t =
      { w.emit (.unref t) with connections := Function.update w.connections t none } := by
    unfold httpUnref
    dsimp only
    rw [if_pos hrefs]
    unfold defaultHttpClose
    dsimp only
    rw [hclosed, if_neg (not_not_intro rfl), HttpWorker.setConnection, Function.update_idem]
    rfl
  have hlog : (httpUnref w t).log = w.log ++ [.unref t] := by
    rw [hworker]
    rfl
  have hhandle : (httpUnref w t).handle = Function.update w.handle t none := by
    rw [hworker]
    funext u
    unfold HttpWorker.handle
    dsimp only
    by_cases hu : u = t
    · rw [hu, Function.update_self, Function.update_self]
      rfl
    · rw [Function.update_of_ne hu, Function.update_of_ne hu]
  dsimp only
  refine ⟨⟨_, hlog.symm⟩, ?_⟩
  rw [settle_append hlog]
  refine h.free ht hfd hhandle (fun fd u => ?_) fun u => ?_
  · rw [hlog, List.count_append]
    simp
  · rw [hlog, List.count_append]
    by_cases hu : u = t
    · rw [hu]
      simp
    · simp [hu, Ne.symm hu]

theorem does_dismiss : HttpDoes (HttpServed arrivals taken attended t)
    (fun w => dismissHttp w t) (HttpKept arrivals taken attended) :=
  ((does_close t False False).weaken (fun _ _ h => ⟨h, False.elim, False.elim⟩)
    fun _ _ h => ⟨h.1, h.2.2.2⟩).comp (does_unref t)

/-- A connection that is sent away is flagged. A socket that is refused stays open. -/
theorem does_transfer {accepted : Bool} (haccepted : taken → accepted = true) : HttpDoes
    (HttpReady arrivals taken attended present t) (fun w => httpTransferParallel w t accepted)
    (fun w x => HttpServed arrivals taken attended t w x ∧ w.Ending t) := by
  rintro w x ⟨h, hcalm, -⟩
  obtain ⟨http, ht⟩ := h.alive
  have hsoft := hcalm http ht
  have hfd : (w.connection t).fd = http.fd := congrArg HttpHandle.fd (connection_handle ht)
  have hcore (v : HttpWorker) (hv : v.connections = w.connections) :
      (v.setConnection t fun http => { http with softQuit := true }).handle =
        Function.update w.handle t (some { http with softQuit := true }) ∧
      (v.setConnection t fun http => { http with softQuit := true }).Ending t := by
    unfold HttpWorker.handle at ht
    obtain ⟨c, hc, rfl⟩ := Option.map_eq_some_iff.mp ht
    have hhandle : v.handle = w.handle := by
      funext u
      unfold HttpWorker.handle
      rw [hv]
    refine ⟨by rw [handle_setConnection, hhandle, hv, hc]; rfl, .inr ?_⟩
    rw [HttpWorker.connection, HttpWorker.setConnection]
    dsimp only
    rw [Function.update_self, hv, hc]
    rfl
  have hends {v : HttpWorker} (hlog : v.log = w.log ++ [.unregister http.fd t]) :
      SameEnds w v := by
    constructor
    · intro fd u
      rw [hlog, List.count_append]
      simp
    · intro u
      rw [hlog, List.count_append]
      simp
  dsimp only
  unfold httpTransferParallel
  dsimp only
  rw [hfd]
  by_cases hsent : (accepted && decide (http.fd ≠ invalidFd)) = true
  · have hvalid : http.fd ≠ invalidFd := of_decide_eq_true (Bool.and_eq_true_iff.mp hsent).2
    obtain ⟨hhandle, hending⟩ :=
      hcore ((w.emit (.unregister http.fd t)).emit (.close http.fd t)) rfl
    have hlog : (((w.emit (.unregister http.fd t)).emit (.close http.fd t)).setConnection t
        fun http => { http with softQuit := true }).log =
          w.log ++ [.unregister http.fd t, .close http.fd t] := List.append_assoc _ _ _
    rw [if_pos hsent]
    refine ⟨⟨_, hlog.symm⟩, ?_, hending⟩
    rw [settle_append hlog]
    refine h.giveUp ht hsoft hvalid hhandle rfl (.inr rfl) (.inr rfl) (fun fd u => ?_) fun u => ?_
    · rw [hlog, List.count_append, count_closed_fd]
    · rw [hlog, List.count_append]
      simp
  · obtain ⟨hhandle, hending⟩ := hcore (w.emit (.unregister http.fd t)) rfl
    have hlog : ((w.emit (.unregister http.fd t)).setConnection t
        fun http => { http with softQuit := true }).log = w.log ++ [.unregister http.fd t] := rfl
    rw [if_neg hsent]
    refine ⟨⟨_, hlog.symm⟩, ?_, hending⟩
    rw [settle_append hlog]
    refine h.forget ht (fun htaken hopened => ?_) hhandle rfl (.inr rfl) (.inr rfl) (hends hlog)
    have hvalid := h.held.valid _ _ hopened
    exact hsent (Bool.and_eq_true_iff.mpr ⟨haccepted htaken, decide_eq_true hvalid⟩)

/-- The test page. -/
theorem does_test : HttpDoes (HttpReady arrivals taken attended present t)
    (fun w => (httpResponseTestAndClose w t).1)
    (fun w x => HttpServed arrivals taken attended t w x ∧ w.Ending t) := by
  have hflag : HttpDoes (HttpReady arrivals taken attended present t)
      (fun w => w.setConnection t fun http => { http with quit := true, softQuit := false })
      (fun w x => HttpServed arrivals taken attended t w x ∧ w.Ending t) := by
    refine Does.quiet (fun _ => rfl) fun w x h => ?_
    obtain ⟨http, ht⟩ := h.1.alive
    unfold HttpWorker.handle at ht
    obtain ⟨c, hc, rfl⟩ := Option.map_eq_some_iff.mp ht
    have hcalm : c.softQuit = false := h.2.1 _ ht
    refine ⟨h.1.same (handle_setConnection_same fun c' hc' => ?_) ⟨fun _ _ => rfl, fun _ => rfl⟩,
      .inl ?_⟩
    · rw [hc] at hc'
      obtain rfl := Option.some.inj hc'
      unfold HttpConnection.handle
      rw [hcalm]
    · rw [HttpWorker.connection, HttpWorker.setConnection]
      dsimp only
      rw [Function.update_self, hc]
      rfl
  exact (hflag.comp (does_send t ((stable_served t).ending t) _)).comp (does_close_ending t)

/-- Before a plugin sends the connection away. -/
theorem does_acts (L : TxtLib) {acts : List HttpAct} (hacts : present → .close ∉ acts) :
    HttpDoes (HttpReady arrivals taken attended present t)
      (fun w => acts.foldl (httpAct L t) w) (HttpReady arrivals taken attended present t) := by
  refine Does.foldl fun a ha => ?_
  cases a with
  | send content => exact does_tunnel t L (stable_ready t) content
  | close =>
    exact (does_close t False True).weaken (fun _ _ h => ⟨h.1, False.elim, fun _ => h.2.1⟩)
      fun _ _ h => ⟨h.1, h.2.2.1 trivial, fun hpresent => absurd ha (hacts hpresent)⟩

/-- Behind that it can do what it likes. -/
theorem does_acts_ending (L : TxtLib) (acts : List HttpAct) :
    HttpDoes (fun w x => HttpServed arrivals taken attended t w x ∧ w.Ending t)
      (fun w => acts.foldl (httpAct L t) w)
      (fun w x => HttpServed arrivals taken attended t w x ∧ w.Ending t) := by
  refine Does.foldl fun a _ => ?_
  cases a with
  | send content => exact does_tunnel t L ((stable_served t).ending t) content
  | close => exact does_close_ending t

/-- A plugin that keeps the connection. -/
theorem does_visit_here (L : TxtLib) {visit : HttpVisit} (hhere : visit.transfer = none)
    (hacts : present → .close ∉ visit.acts ++ visit.more) :
    HttpDoes (HttpReady arrivals taken attended present t)
      (fun w => httpVisitServe L w t visit) (HttpReady arrivals taken attended present t) := by
  unfold httpVisitServe
  rw [hhere]
  exact (does_acts t L fun h hmem => hacts h (List.mem_append_left _ hmem)).comp
    (does_acts t L fun h hmem => hacts h (List.mem_append_right _ hmem))

theorem does_visit_away (L : TxtLib) {visit : HttpVisit} {accepted : Bool}
    (haway : visit.transfer = some accepted) (haccepted : taken → accepted = true) :
    HttpDoes (HttpReady arrivals taken attended attended t) (fun w => httpVisitServe L w t visit)
      (fun w x => HttpServed arrivals taken attended t w x ∧ w.Ending t) := by
  have hstart : HttpDoes (HttpReady arrivals taken attended attended t) (fun w => w)
      (HttpReady arrivals taken attended False t) :=
    .skip fun _ _ h => ⟨h.1, h.2.1, False.elim⟩
  have hacts : HttpDoes (HttpReady arrivals taken attended attended t)
      (fun w => visit.acts.foldl (httpAct L t) w) (HttpReady arrivals taken attended False t) :=
    hstart.comp (does_acts t L False.elim)
  unfold httpVisitServe
  rw [haway]
  exact (hacts.comp (does_transfer t haccepted)).comp (does_acts_ending t L visit.more)

/-- Once a plugin returned, the connection is about to end, or the event loop has it. -/
def HttpReturned (arrivals : List (ℤ × ℕ)) (taken attended : Prop) (t : ℕ) (w : HttpWorker)
    (x : HttpTable) : Prop :=
  HttpServed arrivals taken attended t w x ∧ (attended → w.Ending t ∨ x.Has t)

theorem stable_returned : HttpStable (HttpReturned arrivals taken attended t) :=
  fun _ _ _ h hs => ⟨hs.1.same h.handle h.ends, fun hattended =>
    (hs.2 hattended).imp_left (h.ending t).mpr⟩

/-- What a run is promised about the plugins. -/
structure HttpPromised (taken attended : Prop) (visits : HttpVisits) : Prop where
  taken : taken → ∀ space content, (visits space content).transfer ≠ some false
  flagged : attended → ∀ space content, (visits space content).transfer = none →
    .close ∉ (visits space content).acts ++ (visits space content).more

variable (L : TxtLib) (negative : NegativeLength) {visits : HttpVisits}
  (hvisits : HttpPromised taken attended visits)
include hvisits

theorem does_visit (space content : Bytes) :
    HttpDoes (HttpReady arrivals taken attended attended t)
      (fun w => httpVisitServe L w t (visits space content))
      (HttpReturned arrivals taken attended t) := by
  cases hvisit : (visits space content).transfer with
  | none =>
    exact (does_visit_here t L hvisit fun h => hvisits.flagged h space content hvisit).weaken
      (fun _ _ h => h) fun _ _ h => ⟨h.1, fun hattended => .inr (h.2.2 hattended)⟩
  | some accepted =>
    have haccepted (h : taken) : accepted = true := by
      have hnot := hvisits.taken h space content
      rw [hvisit] at hnot
      simpa using hnot
    exact (does_visit_away t L hvisit haccepted).weaken (fun _ _ h => h)
      fun _ _ h => ⟨h.1, fun _ => .inl h.2⟩

theorem does_go (target : AroopTxt) :
    HttpDoes (HttpReady arrivals taken attended attended t)
      (fun w => (httpVisitGo L visits w t target).1) (HttpReturned arrivals taken attended t) := by
  unfold httpVisitGo
  cases httpUrlGo L target with
  | testAndClose =>
    exact (does_test t).weaken (fun _ _ h => h) fun _ _ h => ⟨h.1, fun _ => .inl h.2⟩
  | bridgeCall space =>
    have hserved (content : Bytes) : HttpDoes (HttpReady arrivals taken attended attended t)
        (fun w => httpVisitServe L (w.emit (.dispatch t space content)) t (visits space content))
        (HttpReturned arrivals taken attended t) :=
      (does_dispatch t (stable_ready t) space content).comp (does_visit t L hvisits space content)
    intro w x h
    have hcontent := hserved (w.connection t).content
    dsimp only
    cases hprocessed : (visits space (w.connection t).content).isProcessed with
    | false => exact (hcontent.comp (does_send t (stable_returned t) _)) w x h
    | true => exact hcontent w x h

/-- A request is answered, and the connection dismissed if it is about to end. -/
theorem does_handle (userData : Bytes) (parsed : HttpParsed) :
    HttpDoes (HttpReady arrivals taken attended attended t)
      (fun w => (httpHandleWith (fun w => httpVisitGo L visits w t) w t userData parsed).1)
      (HttpKept arrivals taken attended) := by
  have hend : HttpDoes (HttpReturned arrivals taken attended t)
      (fun w => if (w.connection t).quit || (w.connection t).softQuit then dismissHttp w t else w)
      (HttpKept arrivals taken attended) := by
    refine Does.ite ((does_dismiss t).weaken (fun _ _ h => h.1.1) fun _ _ h => h) ?_
    refine Does.skip fun w x h => h.1.1.kept fun hattended => ?_
    refine (h.1.2 hattended).resolve_left fun hending => h.2 ?_
    exact Bool.or_eq_true_iff.mpr hending
  have hgo : HttpDoes (HttpReady arrivals taken attended attended t)
      (fun w => if parsed.ret = 0 then (httpVisitGo L visits w t parsed.targetUrl).1 else w)
      (HttpReturned arrivals taken attended t) := by
    by_cases hret : parsed.ret = 0
    · simp only [if_pos hret]
      exact does_go t L hvisits parsed.targetUrl
    · simp only [if_neg hret]
      exact Does.skip fun w x h => ⟨h.1, fun hattended => .inr (h.2.2 hattended)⟩
  have hall := (((does_content t (stable_ready t) (parsed.content userData)).comp hgo).comp
    (does_content t (stable_returned t) [])).comp hend
  intro w x h
  have hall' := hall w x h
  unfold httpHandleWith
  dsimp only at hall' ⊢
  by_cases hret : parsed.ret = 0
  · simp only [if_pos hret] at hall' ⊢
    split_ifs at hall' ⊢ <;> exact hall'
  · simp only [if_neg hret] at hall' ⊢
    split_ifs at hall' ⊢ <;> exact hall'

/-- `http_on_client_data` leaves the connection dismissed or registered. -/
theorem does_clientData (result : RecvResult) :
    HttpDoes (HttpReady arrivals taken attended attended t)
      (fun w => (httpClientDataWith (fun w => httpVisitGo L visits w t) negative w t result).1)
      (HttpKept arrivals taken attended) := by
  have hdismiss : HttpDoes (HttpReady arrivals taken attended attended t)
      (fun w => dismissHttp w t) (HttpKept arrivals taken attended) :=
    (does_dismiss t).weaken (fun _ _ h => h.1) fun _ _ h => h
  cases result with
  | closed => exact hdismiss
  | data bytes =>
    unfold httpClientDataWith
    dsimp only
    by_cases hbig : bytes.length ≥ nginzMaxHttpMsgSize
    · simp only [if_pos hbig]
      have hread : HttpDoes (HttpReady arrivals taken attended attended t)
          (fun w => { w with recvBuffer := w.recvBuffer.recv bytes })
          (HttpReady arrivals taken attended attended t) :=
        does_nothing (stable_ready t) (fun _ => rfl) fun _ => rfl
      exact hread.comp hdismiss
    · simp only [if_neg hbig]
      have hread : HttpDoes (HttpReady arrivals taken attended attended t)
          (fun w => { w with recvBuffer := (w.recvBuffer.recv bytes).terminate bytes.length })
          (HttpReady arrivals taken attended attended t) :=
        does_nothing (stable_ready t) (fun _ => rfl) fun _ => rfl
      exact fun w x h => (hread.comp (does_handle t L hvisits bytes _)) w x h
  | error =>
    intro w x h
    unfold httpClientDataWith
    dsimp only
    cases htext : negative w.recvBuffer.storage with
    | none =>
      exact does_nothing (stable_kept) (f := fun w => { w with crashed := true }) (fun _ => rfl)
        (fun _ => rfl) w x (h.1.kept h.2.2)
    | some text => exact does_handle t L hvisits text (httpUrlParse text) w x h

omit hvisits in
/-- Objects that are gone stay so. -/
theorem does_close_gone (u : ℕ) :
    HttpDoes (fun w x => HttpHeld arrivals taken w x ∧ w.Gone u) (fun w => defaultHttpClose w t)
      (fun w x => HttpHeld arrivals taken w x ∧ w.Gone u) := by
  rintro w x ⟨h, hgone⟩
  obtain ⟨hpre, hheld, hself⟩ := does_close_held t w x h
  refine ⟨hpre, hheld, ?_⟩
  by_cases hu : u = t
  · rw [hu]
    exact hself
  · dsimp only
    cases ht : w.handle t with
    | none =>
      rw [close_free t ht]
      exact hgone
    | some http =>
      rcases close_cases t ht with ⟨-, hsame⟩ | ⟨-, hhandle, -⟩
      · rw [hsame]
        exact hgone
      · intro http' hu'
        rw [hhandle, Function.update_of_ne hu] at hu'
        exact hgone http' hu'

omit hvisits in
/-- `http_factory_on_softquit` frees no object. -/
theorem does_softQuit (hattended : ¬ attended) (pool : List ℕ) :
    HttpDoes (fun w x => HttpKept arrivals taken attended w x ∧
        ∀ u, (w.connections u).isSome → u ∈ pool)
      (fun w => pool.foldl defaultHttpClose w) (HttpKept arrivals taken attended) := by
  rintro w x ⟨h, hpool⟩
  have hturn (t : ℕ) : HttpDoes (HttpHeld arrivals taken) (fun w => defaultHttpClose w t)
      (HttpHeld arrivals taken) := (does_close_held t).weaken (fun _ _ h => h) fun _ _ h => h.1
  have hgone (u : ℕ) : (pool.foldl defaultHttpClose w).Gone u := by
    by_cases hu : u ∈ pool
    · have hreach := Does.foldl_reach hu (fun t _ => hturn t) (does_close_held u)
        fun t _ => does_close_gone t u
      exact (hreach w x h.held).2.2
    · have hfree : w.Gone u := by
        intro http ht
        unfold HttpWorker.handle at ht
        obtain ⟨c, hc, -⟩ := Option.map_eq_some_iff.mp ht
        exact absurd (hpool u (Option.isSome_of_mem hc)) hu
      exact (Does.foldl (fun t _ => does_close_gone t u) w x ⟨h.held, hfree⟩).2.2
  obtain ⟨hpre, hheld⟩ := Does.foldl (fun t (_ : t ∈ pool) => hturn t) w x h.held
  exact ⟨hpre, hheld, fun fd u refs hu hfd => absurd (hgone u _ hu) hfd,
    fun h => absurd h hattended⟩

end Operations

/-! ### Whole runs -/

section Runs
variable {arrivals : List (ℤ × ℕ)} {taken attended : Prop} {h : HttpHost} {fd : ℤ} {t : ℕ}
  {P Q : HttpWorker → HttpTable → Prop} {f : HttpWorker → HttpWorker}

theorem HttpHost.work_does (hf : HttpDoes P f Q) (hp : P h.worker h.table) :
    Q (h.work f).worker (h.work f).table := (hf h.worker h.table hp).2

theorem alloc_handle (h : HttpHost) (fd : ℤ) (t : ℕ) (request : Bytes) :
    (h.alloc fd t request).worker.handle =
      Function.update h.worker.handle t (some ⟨fd, false, 1⟩) := by
  funext u
  unfold HttpWorker.handle HttpHost.alloc
  dsimp only
  by_cases hu : u = t
  · subst hu
    rw [Function.update_self, Function.update_self]
    rfl
  · rw [Function.update_of_ne hu, Function.update_of_ne hu]

/-- A connection arrives. -/
theorem HttpHeld.alloc (hheld : HttpHeld arrivals taken h.worker h.table) (hfd : fd ≠ invalidFd)
    (hfresh : fd ∉ h.table.opened.map Prod.fst) (hfree : h.worker.connections t = none)
    (request : Bytes) :
    HttpHeld (arrivals ++ [(fd, t)]) taken (h.alloc fd t request).worker
      (h.alloc fd t request).table := by
  have ht : h.worker.handle t = none := Option.map_eq_none_iff.mpr hfree
  have hhandle := alloc_handle h fd t request
  have hself : (h.alloc fd t request).worker.handle t = some ⟨fd, false, 1⟩ := by
    rw [hhandle, Function.update_self]
  have hother {u : ℕ} (hu : u ≠ t) :
      (h.alloc fd t request).worker.handle u = h.worker.handle u := by
    rw [hhandle, Function.update_of_ne hu]
  have hkept {u : ℕ} {http : HttpHandle} (hu : h.worker.handle u = some http) :
      (h.alloc fd t request).worker.handle u = some http := by
    rw [hother]
    · exact hu
    · rintro rfl
      rw [ht] at hu
      exact absurd hu.symm (Option.some_ne_none http)
  refine ⟨fun fd' u hmem => ?_, ?_, fun fd' u hmem => ?_, fun u http hu => ?_,
    fun fd' u refs hu hvalid => ?_, fun fd' u => ?_, fun u => ?_, fun htaken fd' u hmem => ?_⟩
  · rcases List.mem_cons.mp hmem with heq | hmem
    · rw [(Prod.mk.inj heq).1]
      exact hfd
    · exact hheld.valid fd' u hmem
  · exact List.nodup_cons.mpr ⟨hfresh, hheld.once⟩
  · obtain ⟨hopened, refs, hu⟩ := hheld.registered fd' u hmem
    exact ⟨List.mem_cons_of_mem _ hopened, refs, hkept hu⟩
  · by_cases hut : u = t
    · rw [hut, hself] at hu
      rw [← Option.some.inj hu]
    · rw [hother hut] at hu
      exact hheld.refs u http hu
  · by_cases hut : u = t
    · rw [hut, hself] at hu
      obtain rfl : fd = fd' := congrArg HttpHandle.fd (Option.some.inj hu)
      rw [hut]
      exact List.mem_cons_self
    · rw [hother hut] at hu
      exact List.mem_cons_of_mem _ (hheld.holds fd' u refs hu hvalid)
  · rw [List.count_append, ← hheld.closes fd' u, List.count_singleton]
    change h.worker.log.count _ + ((fd, t) :: h.table.opened).count (fd', u) = _
    rw [List.count_cons, Nat.add_assoc]
  · rw [List.map_append, List.count_append, ← hheld.frees u, List.map_singleton,
      List.count_singleton]
    change h.worker.log.count _ + _ = _
    by_cases hut : u = t
    · rw [hut, hself, ht]
      simp
    · rw [hother hut]
      simp [Ne.symm hut]
  · rcases List.mem_cons.mp hmem with heq | hmem
    · obtain ⟨rfl, rfl⟩ := Prod.mk.inj heq
      exact ⟨1, hself⟩
    · obtain ⟨refs, hu⟩ := hheld.owned htaken fd' u hmem
      exact ⟨refs, hkept hu⟩

/-- It is registered in the event loop. -/
theorem HttpKept.arrival (hkept : HttpKept arrivals taken attended h.worker h.table)
    (hfd : fd ≠ invalidFd) (hfresh : fd ∉ h.table.opened.map Prod.fst)
    (hfree : h.worker.connections t = none) (request : Bytes) :
    HttpReady (arrivals ++ [(fd, t)]) taken attended attended t
      ((h.alloc fd t request).registerFd fd t).worker
      ((h.alloc fd t request).registerFd fd t).table := by
  have hheld := hkept.held.alloc hfd hfresh hfree request
  have hhandle := alloc_handle h fd t request
  have hself : (h.alloc fd t request).worker.handle t = some ⟨fd, false, 1⟩ := by
    rw [hhandle, Function.update_self]
  have hother {u : ℕ} (hu : u ≠ t) :
      (h.alloc fd t request).worker.handle u = h.worker.handle u := by
    rw [hhandle, Function.update_of_ne hu]
  have hown {http : HttpHandle} (ht : (h.alloc fd t request).worker.handle t = some http) :
      http = ⟨fd, false, 1⟩ := (Option.some.inj (hself.symm.trans ht)).symm
  refine ⟨⟨⟨hheld.valid, hheld.once, fun fd' u hmem => ?_, hheld.refs, hheld.holds, hheld.closes,
    hheld.frees, hheld.owned⟩, fun fd' u refs hu hvalid => ?_, ⟨_, hself⟩,
    fun http u ht hmem => ?_, fun hattended u hu hsome => ?_⟩, fun http ht => ?_,
    fun _ => ⟨fd, List.mem_cons_self⟩⟩
  · rcases List.mem_cons.mp hmem with heq | hmem
    · obtain ⟨rfl, rfl⟩ := Prod.mk.inj heq
      exact ⟨List.mem_cons_self, 1, hself⟩
    · exact hheld.registered fd' u hmem
  · by_cases hut : u = t
    · rw [hut] at hu
      obtain rfl : fd' = fd := congrArg HttpHandle.fd (hown hu)
      rw [hut]
      exact List.mem_cons_self
    · refine List.mem_cons_of_mem _ (hkept.listened fd' u refs ?_ hvalid)
      rw [← hother hut]
      exact hu
  · rw [hown ht] at hmem
    rcases List.mem_cons.mp hmem with heq | hmem
    · exact (Prod.mk.inj heq).2
    · have hopened := (hkept.held.registered fd u hmem).1
      exact absurd (List.mem_map_of_mem hopened) hfresh
  · obtain ⟨fd', hmem⟩ := hkept.all hattended u (by rw [← hother hu]; exact hsome)
    exact ⟨fd', List.mem_cons_of_mem _ hmem⟩
  · rw [hown ht]

theorem close_log (w : HttpWorker) (t : ℕ) : w.log <+: (defaultHttpClose w t).log := by
  cases ht : w.handle t with
  | none => rw [close_free t ht]
  | some http =>
    rcases close_cases t ht with ⟨-, hsame⟩ | ⟨-, -, -, hlog⟩
    · rw [hsame]
    · exact ⟨_, hlog.symm⟩

theorem unref_log (w : HttpWorker) (t : ℕ) : w.log <+: (httpUnref w t).log := by
  have hemit : w.log <+: w.log ++ [.unref t] := List.prefix_append _ _
  unfold httpUnref
  dsimp only
  split_ifs
  · exact hemit.trans (close_log ((w.emit (.unref t)).setConnection t _) t)
  · exact hemit

/-- A dismissal begins with the event loop. -/
theorem dismiss_log {w : HttpWorker} (ht : w.handle t = some ⟨fd, false, 1⟩)
    (hfd : fd ≠ invalidFd) : ∃ es, (dismissHttp w t).log = w.log ++ .unregister fd t :: es := by
  rcases close_cases t ht with ⟨habsurd, -⟩ | ⟨-, -, -, hlog⟩
  · exact absurd habsurd hfd
  · obtain ⟨es, hes⟩ := unref_log (defaultHttpClose w t) t
    rw [hlog, List.append_assoc] at hes
    exact ⟨_, hes.symm⟩

/-- It is dismissed before it was registered: to the event loop that is the same. -/
theorem dismiss_unregistered (h : HttpHost) (ht : h.worker.handle t = some ⟨fd, false, 1⟩)
    (hfd : fd ≠ invalidFd) :
    h.work (fun w => dismissHttp w t) = (h.registerFd fd t).work fun w => dismissHttp w t := by
  obtain ⟨es, hlog⟩ := dismiss_log ht hfd
  unfold HttpHost.work HttpHost.registerFd
  dsimp only
  rw [settle_append hlog, settle_append hlog, List.foldl_cons, List.foldl_cons]
  unfold HttpTable.after
  dsimp only
  rw [List.filter_cons, if_neg (by simp)]

/-- `http_on_connection_bubble` leaves the connection dismissed or registered. -/
theorem HttpKept.arrive (L : TxtLib) (hkept : HttpKept arrivals taken attended h.worker h.table)
    (hfd : fd ≠ invalidFd) (hfresh : fd ∉ h.table.opened.map Prod.fst)
    (hfree : h.worker.connections t = none) (request : Bytes) {visits : HttpVisits}
    (htaken : taken → ∀ space content, (visits space content).transfer ≠ some false)
    (hflagged : attended → ∀ space content, (visits space content).transfer = none ∧
      .close ∉ (visits space content).acts ++ (visits space content).more) :
    HttpKept (arrivals ++ [(fd, t)]) taken attended (h.arrive L fd t request visits).worker
      (h.arrive L fd t request visits).table := by
  have hready := hkept.arrival hfd hfresh hfree request
  have hvisits : HttpPromised taken attended visits :=
    ⟨htaken, fun ha space content _ => (hflagged ha space content).2⟩
  unfold HttpHost.arrive
  dsimp only
  cases httpOnConnectionBubble L request with
  | closed =>
    have hself : (h.alloc fd t request).worker.handle t = some ⟨fd, false, 1⟩ := by
      rw [alloc_handle, Function.update_self]
    dsimp only
    rw [dismiss_unregistered _ hself hfd]
    exact HttpHost.work_does (does_dismiss t) hready.1
  | welcomed =>
    have hdone := HttpHost.work_does (does_content t (stable_ready t) []) hready
    exact hdone.1.kept hdone.2.2
  | called space content =>
    have hstable : HttpStable fun w x =>
        HttpServed (arrivals ++ [(fd, t)]) taken attended t w x ∧ (attended → x.Has t) :=
      fun _ _ _ h hs => ⟨hs.1.same h.handle h.ends, hs.2⟩
    have hcall : HttpDoes (HttpReady (arrivals ++ [(fd, t)]) taken attended attended t)
        (fun w => w.emit (.dispatch t space content))
        (HttpReady (arrivals ++ [(fd, t)]) taken attended attended t) :=
      does_dispatch t (stable_ready t) space content
    have hvisit : HttpDoes (HttpReady (arrivals ++ [(fd, t)]) taken attended attended t)
        (fun w => httpVisitServe L w t (visits space content)) fun w x =>
          HttpServed (arrivals ++ [(fd, t)]) taken attended t w x ∧ (attended → x.Has t) := by
      cases htransfer : (visits space content).transfer with
      | none =>
        exact (does_visit_here t L htransfer fun ha => (hflagged ha space content).2).weaken
          (fun _ _ h => h) fun _ _ h => ⟨h.1, h.2.2⟩
      | some accepted =>
        have hnot : ¬ attended := by
          intro ha
          rw [(hflagged ha space content).1] at htransfer
          exact absurd htransfer (Option.some_ne_none accepted).symm
        exact (does_visit t L hvisits space content).weaken (fun _ _ h => h)
          fun _ _ h => ⟨h.1, fun ha => absurd ha hnot⟩
    have hdone := HttpHost.work_does ((hcall.comp hvisit).comp (does_content t hstable [])) hready
    exact hdone.1.kept hdone.2

variable (L : TxtLib) (negative : NegativeLength)

/-- What happens at a worker keeps the account. -/
theorem HttpKept.on (hkept : HttpKept arrivals taken attended h.worker h.table)
    {e : HttpHostEvent} (hpermits : h.Permits e) (htaken : taken → e.Taken)
    (hflagged : attended → e.Flagged) :
    HttpKept (arrivals ++ e.arrival.toList) taken attended (h.on L negative e).worker
      (h.on L negative e).table := by
  cases e with
  | arrive fd t request visits =>
    obtain ⟨hfd, hfresh, hfree⟩ := hpermits
    exact hkept.arrive L hfd hfresh hfree request htaken hflagged
  | clientData fd t result visits =>
    unfold HttpHostEvent.arrival HttpHost.on
    dsimp only
    rw [Option.toList_none, List.append_nil]
    split_ifs with hany
    · have hin : (fd, t) ∈ h.table.eventLoop := by simpa using hany
      have hready : HttpReady arrivals taken attended attended t h.worker h.table := by
        obtain ⟨-, refs, ht⟩ := hkept.held.registered fd t hin
        refine ⟨⟨hkept.held, hkept.listened, ⟨_, ht⟩, fun http u ht' hmem => ?_, fun ha u _ =>
          hkept.all ha u⟩, fun http ht' => ?_, fun _ => ⟨fd, hin⟩⟩
        · rw [← Option.some.inj (ht.symm.trans ht')] at hmem
          exact hkept.held.fd_unique (hkept.held.registered _ _ hmem).1
            (hkept.held.registered _ _ hin).1
        · rw [← Option.some.inj (ht.symm.trans ht')]
      exact HttpHost.work_does (does_clientData t L negative ⟨htaken, hflagged⟩ result) hready
    · exact hkept
  | softQuit pool =>
    unfold HttpHostEvent.arrival HttpHost.on
    dsimp only
    rw [Option.toList_none, List.append_nil]
    exact HttpHost.work_does (does_softQuit hflagged pool) ⟨hkept, hpermits⟩

theorem HttpKept.run (hkept : HttpKept arrivals taken attended h.worker h.table)
    {es : List HttpHostEvent}
    (hrun : Transition.Along (HttpHost.on L negative) HttpHost.Permits h es)
    (htaken : taken → ∀ e ∈ es, e.Taken) (hflagged : attended → ∀ e ∈ es, e.Flagged) :
    HttpKept (arrivals ++ es.filterMap HttpHostEvent.arrival) taken attended
      (es.foldl (HttpHost.on L negative) h).worker (es.foldl (HttpHost.on L negative) h).table := by
  induction es generalizing arrivals h with
  | nil =>
    rw [List.filterMap_nil, List.append_nil]
    exact hkept
  | cons e es ih =>
    have hnext := hkept.on L negative hrun.1 (fun ha => htaken ha e List.mem_cons_self)
      fun ha => hflagged ha e List.mem_cons_self
    have hrest := ih hnext hrun.2 (fun ha e' he' => htaken ha e' (List.mem_cons_of_mem _ he'))
      fun ha e' he' => hflagged ha e' (List.mem_cons_of_mem _ he')
    rw [List.append_assoc] at hrest
    have harrivals : (e :: es).filterMap HttpHostEvent.arrival =
        e.arrival.toList ++ es.filterMap HttpHostEvent.arrival := by
      rw [List.filterMap_cons]
      cases e.arrival <;> rfl
    rw [harrivals]
    exact hrest

theorem HttpKept.start : HttpKept [] taken attended (HttpHost.start L).worker
    (HttpHost.start L).table := by
  refine ⟨⟨fun _ _ h => ?_, List.nodup_nil, fun _ _ h => ?_, fun _ _ h => ?_, fun _ _ _ h => ?_,
    fun _ _ => rfl, fun _ => rfl, fun _ _ _ h => ?_⟩, fun _ _ _ h => ?_, fun _ _ h => ?_⟩
  · exact absurd h List.not_mem_nil
  · exact absurd h List.not_mem_nil
  · exact absurd h (Option.some_ne_none _).symm
  · exact absurd h (Option.some_ne_none _).symm
  · exact absurd h List.not_mem_nil
  · exact absurd h (Option.some_ne_none _).symm
  · exact absurd h Bool.false_ne_true

end Runs

/-- What became of the connections of a run. -/
structure HttpAccounted (es : List HttpHostEvent) (h : HttpHost) : Prop where
  registered : ∀ fd t, (fd, t) ∈ h.table.eventLoop → (fd, t) ∈ h.table.opened ∧
    ∃ http, h.worker.connections t = some http ∧ http.fd = fd ∧ http.softQuit = false
  listened : ∀ t http, h.worker.connections t = some http → http.fd ≠ invalidFd →
    http.softQuit = false → (http.fd, t) ∈ h.table.eventLoop
  closed : ∀ fd t, h.worker.log.count (.close fd t) + h.table.opened.count (fd, t) =
    (es.filterMap HttpHostEvent.arrival).count (fd, t)
  freed : ∀ t, h.worker.log.count (.unref t) + (if (h.worker.connections t).isSome then 1 else 0) =
    ((es.filterMap HttpHostEvent.arrival).map Prod.snd).count t
  owned : (∀ e ∈ es, e.Taken) → ∀ fd t, (fd, t) ∈ h.table.opened → (fd, t) ∈ h.table.eventLoop
  attended : (∀ e ∈ es, e.Flagged) → ∀ t, (h.worker.connections t).isSome → h.table.Has t

/-- Over every run the event loop has the connections that are there and hold their descriptors
open, and no others. Each descriptor that arrived was closed once or is open, and each object that
was taken was freed once or is there. While no socket is refused no descriptor is left behind, and
while the plugins flag what they close and the worker does not quit no object is. The plugins keep
no descriptors in objects of their own. -/
theorem http_connections_accounted (L : TxtLib) (negative : NegativeLength)
    (es : List HttpHostEvent)
    (hrun : Transition.Along (HttpHost.on L negative) HttpHost.Permits (.start L) es) :
    HttpAccounted es (es.foldl (HttpHost.on L negative) (.start L)) := by
  have hstart : HttpKept [] (∀ e ∈ es, e.Taken) (∀ e ∈ es, e.Flagged)
      (HttpHost.start L).worker (HttpHost.start L).table := .start L
  have hkept := hstart.run L negative hrun id id
  rw [List.nil_append] at hkept
  generalize es.foldl (HttpHost.on L negative) (.start L) = h at hkept
  have halive (t : ℕ) : (h.worker.handle t).isSome = (h.worker.connections t).isSome :=
    Option.isSome_map
  have hhandle {t : ℕ} {http : HttpConnection} (ht : h.worker.connections t = some http) :
      h.worker.handle t = some ⟨http.fd, http.softQuit, http.refs⟩ := by
    unfold HttpWorker.handle
    rw [ht]
    rfl
  refine ⟨fun fd t hmem => ?_, fun t http ht hfd hsoft => ?_, hkept.held.closes, fun t => ?_,
    fun htaken fd t hmem => ?_, fun hattended t ht => ?_⟩
  · obtain ⟨hopened, refs, ht⟩ := hkept.held.registered fd t hmem
    obtain ⟨http, hc, heq⟩ := Option.map_eq_some_iff.mp ht
    exact ⟨hopened, http, hc, congrArg HttpHandle.fd heq, congrArg HttpHandle.softQuit heq⟩
  · refine hkept.listened http.fd t http.refs ?_ hfd
    rw [hhandle ht, hsoft]
  · rw [← halive]
    exact hkept.held.frees t
  · obtain ⟨refs, ht⟩ := hkept.held.owned htaken fd t hmem
    exact hkept.listened fd t refs ht (hkept.held.valid fd t hmem)
  · exact hkept.all hattended t (by rw [halive]; exact ht)

/-- A connection is sent away on its first request, and the next one gets its number and its
object. -/
theorem http_connections_accounted_reused :
    let visits : HttpVisits := fun _ _ => ⟨[.send (lit "<html>")], some true, [], 0⟩
    let es : List HttpHostEvent := [.arrive 5 0 (lit "http/welcome") visits,
      .clientData 5 0 (.data pageRequest) visits, .arrive 5 0 (lit "http/welcome") visits,
      .clientData 5 0 .closed visits]
    HttpAccounted es (es.foldl (HttpHost.on .cutting some) (.start .cutting)) := by
  intro visits es
  refine http_connections_accounted .cutting some es ⟨⟨by decide, by decide, rfl⟩, trivial,
    ⟨by decide, ?_, ?_⟩, trivial, trivial⟩
  · decide +kernel
  · decide +kernel

end Nginz
