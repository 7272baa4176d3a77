import Nginz.Http.Requests
import Nginz.Lib.Transition
import Nginz.Net.Streamio

/-! The data of HTTP clients at a worker: one receive buffer for all connections, the parse,
the dispatch to a plugin, and the end of a connection. -/
namespace Nginz

/-- `struct http_connection`. The flags are `HTTP_QUIT` and `HTTP_SOFT_QUIT`, and `refs` is
the reference count of the object; nothing is chained above its stream. -/
structure HttpConnection where
  fd : ℤ
  quit : Bool
  softQuit : Bool
  content : Bytes
  refs : ℕ
  deriving DecidableEq, Repr

/-- A fresh object of the pool with the given descriptor. -/
def HttpConnection.initial (fd : ℤ) : HttpConnection := ⟨fd, false, false, [], 1⟩

/-- What a worker does for a connection. -/
inductive HttpEffect where
  | dispatch (t : ℕ) (space content : Bytes)
  | send (t : ℕ) (bytes : Bytes)
  | unregister (fd : ℤ) (t : ℕ)
  | close (fd : ℤ) (t : ℕ)
  | unref (t : ℕ)
  deriving DecidableEq, Repr

/-- What a plugin leaves behind: its return code, `is_processed`, which was reset before the
call, and the flags it sets. -/
structure HttpAnswer where
  ret : ℤ
  isProcessed : Bool
  quit : Bool
  softQuit : Bool
  deriving DecidableEq, Repr

/-- The plugins: what they answer to a content in a space. -/
abbrev HttpPlugins := Bytes → Bytes → HttpAnswer

structure HttpWorker where
  connections : ℕ → Option HttpConnection
  recvBuffer : RecvBuffer nginzMaxHttpMsgSize
  crashed : Bool
  log : List HttpEffect

namespace HttpWorker

/-- The object a pointer of this token leads to. -/
def connection (w : HttpWorker) (t : ℕ) : HttpConnection :=
  (w.connections t).getD (.initial invalidFd)

def setConnection (w : HttpWorker) (t : ℕ) (f : HttpConnection → HttpConnection) : HttpWorker :=
  { w with connections := Function.update w.connections t ((w.connections t).map f) }

def emit (w : HttpWorker) (e : HttpEffect) : HttpWorker := { w with log := w.log ++ [e] }

end HttpWorker

/-- `default_streamio_send`. -/
def httpStreamioSend (w : HttpWorker) (t : ℕ) (content : Bytes) : HttpWorker :=
  if (w.connection t).fd = invalidFd then w else w.emit (.send t content)

def defaultHttpClose (w : HttpWorker) (t : ℕ) : HttpWorker :=
  let fd := (w.connection t).fd
  if fd ≠ invalidFd then
    let w := w.emit (.unregister fd t)
    let w := if !(w.connection t).softQuit then w.emit (.close fd t) else w
    w.setConnection t fun http => { http with fd := invalidFd }
  else w

/-- `OPPUNREF` of a connection; the last reference finalizes it. -/
def httpUnref (w : HttpWorker) (t : ℕ) : HttpWorker :=
  let w := w.emit (.unref t)
  if (w.connection t).refs ≤ 1 then
    let w := w.setConnection t fun http => { http with content := [] }
    let w := defaultHttpClose w t
    { w with connections := Function.update w.connections t none }
  else w.setConnection t fun http => { http with refs := http.refs - 1 }

/-- The close of a connection and the drop of the reference that the event loop holds. -/
def dismissHttp (w : HttpWorker) (t : ℕ) : HttpWorker := httpUnref (defaultHttpClose w t) t

def httpResponseTestAndClose (w : HttpWorker) (t : ℕ) : HttpWorker × ℤ :=
  let w := w.setConnection t fun http => { http with quit := true, softQuit := false }
  let w := httpStreamioSend w t
    (lit "HTTP/1.0 200 OK\r\nContent-Length: 9\r\n\r\nIt Works!\r\n")
  (defaultHttpClose w t, -1)

/-- `http_url_go` on a connection: the worker and the return code. -/
def httpRequestGo (L : TxtLib) (plugins : HttpPlugins) (w : HttpWorker) (t : ℕ)
    (target : AroopTxt) : HttpWorker × ℤ :=
  match httpUrlGo L target with
  | .testAndClose => httpResponseTestAndClose w t
  | .bridgeCall space =>
    let content := (w.connection t).content
    let answer := plugins space content
    let w := w.emit (.dispatch t space content)
    let w := w.setConnection t fun http =>
      { http with quit := http.quit || answer.quit, softQuit := http.softQuit || answer.softQuit }
    let w :=
      if !answer.isProcessed then
        httpStreamioSend w t (lit "HTTP/1.0 404 NOT FOUND\r\nContent-Length: 9\r\n\r\nNot Found")
      else w
    (w, answer.ret)

/-- `http_on_client_data` behind `recv`, when the text in the buffer was parsed. -/
def httpHandle (L : TxtLib) (plugins : HttpPlugins) (w : HttpWorker) (t : ℕ) (userData : Bytes)
    (parsed : HttpParsed) : HttpWorker × ℤ :=
  let w := w.setConnection t fun http => { http with content := parsed.content userData }
  let (w, response) :=
    if parsed.ret = 0 then httpRequestGo L plugins w t parsed.targetUrl else (w, parsed.ret)
  let w := w.setConnection t fun http => { http with content := [] }
  if (w.connection t).quit || (w.connection t).softQuit then (dismissHttp w t, response)
  else (w, response)

/-- What `aroop_txt_set_length` with -1 makes of a buffer: the text that the parser walks
through then, or nothing if an assertion fails or the parser gets `NULL`. -/
abbrev NegativeLength := Bytes → Option Bytes

/-- `http_on_client_data`: the worker and the return code. An error of `recv` is a count of
-1, which both tests of the count let through. -/
def httpOnClientData (L : TxtLib) (negative : NegativeLength) (plugins : HttpPlugins)
    (w : HttpWorker) (t : ℕ) : RecvResult → HttpWorker × ℤ
  | .closed => (dismissHttp w t, -1)
  | .data bytes =>
    let w := { w with recvBuffer := w.recvBuffer.recv bytes }
    if bytes.length ≥ nginzMaxHttpMsgSize then (dismissHttp w t, -1)
    else
      let w := { w with recvBuffer := w.recvBuffer.terminate bytes.length }
      httpHandle L plugins w t bytes (httpUrlParse w.recvBuffer.storage)
  | .error =>
    match negative w.recvBuffer.storage with
    | none => ({ w with crashed := true }, -1)
    | some text => httpHandle L plugins w t text (httpUrlParse text)

/-! ### Histories -/

/-- What happens at a worker: a connection is welcomed in a free slot of the pool, or `recv`
returns for one, with the plugins as they are then. -/
inductive HttpEvent where
  | welcome (u : ℕ) (fd : ℤ)
  | clientData (u : ℕ) (result : RecvResult) (plugins : HttpPlugins)

def HttpWorker.on (L : TxtLib) (negative : NegativeLength) (w : HttpWorker) :
    HttpEvent → HttpWorker
  | .welcome u fd =>
    { w with connections := Function.update w.connections u (some (.initial fd)) }
  | .clientData u result plugins => (httpOnClientData L negative plugins w u result).1

/-- The event is that of another connection than `t`. -/
def HttpWorker.OfOthers (t : ℕ) (w : HttpWorker) : HttpEvent → Prop
  | .welcome u _ => u ≠ t ∧ w.connections u = none
  | .clientData u _ _ => u ≠ t ∧ (w.connections u).isSome

/-- What a worker does for a connection on a result of `recv`. -/
def httpEffects (L : TxtLib) (negative : NegativeLength) (plugins : HttpPlugins) (w : HttpWorker)
    (t : ℕ) (result : RecvResult) : List HttpEffect :=
  (httpOnClientData L negative plugins w t result).1.log.drop w.log.length

/-- A connection that is open and not about to end. -/
def HttpWorker.Open (w : HttpWorker) (t : ℕ) (fd : ℤ) : Prop :=
  ∃ http, w.connections t = some http ∧ http.fd = fd ∧ fd ≠ invalidFd ∧ http.quit = false ∧
    http.softQuit = false

/-- What is done for a connection is the same after any two histories of other connections,
and after the end of the stream or an error it is unregistered, closed and unreferenced
once. -/
structure HttpIsolated (L : TxtLib) (negative : NegativeLength) (w : HttpWorker) (t : ℕ) (fd : ℤ)
    (result : RecvResult) : Prop where
  same : ∀ plugins h h', Transition.Along (HttpWorker.on L negative) (HttpWorker.OfOthers t) w h →
    Transition.Along (HttpWorker.on L negative) (HttpWorker.OfOthers t) w h' →
    httpEffects L negative plugins (h.foldl (HttpWorker.on L negative) w) t result =
      httpEffects L negative plugins (h'.foldl (HttpWorker.on L negative) w) t result
  ends : result = .closed ∨ result = .error → ∀ plugins h,
    Transition.Along (HttpWorker.on L negative) (HttpWorker.OfOthers t) w h →
    let effects := httpEffects L negative plugins (h.foldl (HttpWorker.on L negative) w) t result
    effects.count (.unregister fd t) = 1 ∧ effects.count (.close fd t) = 1 ∧
      effects.count (.unref t) = 1

/-! ### What one connection does to another -/

/-- The second worker is the first one after some work for connection `u`. -/
structure HttpBeside (u : ℕ) (w w' : HttpWorker) : Prop where
  others : ∀ t, u ≠ t → w'.connections t = w.connections t
  recvBuffer : w'.recvBuffer = w.recvBuffer

namespace HttpBeside
variable {u : ℕ} {w w' w'' : HttpWorker}

protected theorem refl (w : HttpWorker) : HttpBeside u w w := ⟨fun _ _ => rfl, rfl⟩

protected theorem trans (h : HttpBeside u w w') (h' : HttpBeside u w' w'') : HttpBeside u w w'' :=
  ⟨fun t ht => (h'.others t ht).trans (h.others t ht), h'.recvBuffer.trans h.recvBuffer⟩

theorem emit (w : HttpWorker) (e : HttpEffect) : HttpBeside u w (w.emit e) :=
  ⟨fun _ _ => rfl, rfl⟩

theorem update (w : HttpWorker) (x : Option HttpConnection) :
    HttpBeside u w { w with connections := Function.update w.connections u x } :=
  ⟨fun _ ht => Function.update_of_ne ht.symm .., rfl⟩

theorem setConnection (w : HttpWorker) (f : HttpConnection → HttpConnection) :
    HttpBeside u w (w.setConnection u f) := update w _

theorem send (w : HttpWorker) (content : Bytes) :
    HttpBeside u w (httpStreamioSend w u content) := by
  unfold httpStreamioSend
  split
  · exact .refl w
  · exact emit w _

theorem close (w : HttpWorker) : HttpBeside u w (defaultHttpClose w u) := by
  unfold defaultHttpClose
  dsimp only
  split
  · refine HttpBeside.trans ?_ (setConnection _ _)
    split
    · exact (emit w _).trans (emit _ _)
    · exact emit w _
  · exact .refl w

theorem unref (w : HttpWorker) : HttpBeside u w (httpUnref w u) := by
  have hunref : HttpBeside u w (w.emit (.unref u)) := emit w _
  unfold httpUnref
  dsimp only
  split
  · exact ((hunref.trans (setConnection _ _)).trans (close _)).trans (update _ none)
  · exact hunref.trans (setConnection _ _)

theorem dismiss (w : HttpWorker) : HttpBeside u w (dismissHttp w u) := (close w).trans (unref _)

theorem requestGo (L : TxtLib) (plugins : HttpPlugins) (w : HttpWorker) (target : AroopTxt) :
    HttpBeside u w (httpRequestGo L plugins w u target).1 := by
  unfold httpRequestGo
  split
  · exact ((setConnection w _).trans (send _ _)).trans (close _)
  · dsimp only
    split
    · exact ((emit w _).trans (setConnection _ _)).trans (send _ _)
    · exact (emit w _).trans (setConnection _ _)

theorem handle (L : TxtLib) (plugins : HttpPlugins) (w : HttpWorker) (userData : Bytes)
    (parsed : HttpParsed) : HttpBeside u w (httpHandle L plugins w u userData parsed).1 := by
  have hend (v : HttpWorker) (response : ℤ) : HttpBeside u v
      (if (v.connection u).quit || (v.connection u).softQuit then (dismissHttp v u, response)
        else (v, response)).1 := by
    split
    · exact dismiss v
    · exact .refl v
  unfold httpHandle
  dsimp only
  refine HttpBeside.trans ?_ (hend _ _)
  refine HttpBeside.trans ?_ (setConnection _ _)
  split
  · exact (setConnection w _).trans (requestGo L plugins _ _)
  · exact setConnection w _

theorem onClientData (L : TxtLib) (negative : NegativeLength) (plugins : HttpPlugins)
    (w : HttpWorker) (result : RecvResult) {t : ℕ} (h : u ≠ t) :
    (httpOnClientData L negative plugins w u result).1.connections t = w.connections t := by
  cases result with
  | closed => exact (dismiss w).others t h
  | data bytes =>
    unfold httpOnClientData
    dsimp only
    split
    · exact (dismiss { w with recvBuffer := w.recvBuffer.recv bytes }).others t h
    · exact (handle L plugins _ bytes _).others t h
  | error =>
    unfold httpOnClientData
    dsimp only
    split
    · rfl
    · exact (handle L plugins w _ _).others t h

end HttpBeside

/-- The other connections leave a connection alone. -/
theorem others_keep (L : TxtLib) (negative : NegativeLength) {w : HttpWorker} {t : ℕ}
    {events : List HttpEvent}
    (hrun : Transition.Along (HttpWorker.on L negative) (HttpWorker.OfOthers t) w events) :
    (events.foldl (HttpWorker.on L negative) w).connections t = w.connections t := by
  induction events generalizing w with
  | nil => rfl
  | cons event events ih =>
    rw [List.foldl_cons, ih hrun.2]
    cases event with
    | welcome u fd => exact Function.update_of_ne hrun.1.1.symm ..
    | clientData u result plugins =>
      exact HttpBeside.onClientData L negative plugins w result hrun.1.1

/-! ### Two workers that agree on a connection -/

/-- The workers hold the same connection, and they did the same for it since their logs were
as given. -/
structure HttpTwins (t : ℕ) (log log' : List HttpEffect) (w w' : HttpWorker) : Prop where
  same : w.connections t = w'.connections t
  effects : ∃ effects, w.log = log ++ effects ∧ w'.log = log' ++ effects

namespace HttpTwins
variable {t : ℕ} {log log' : List HttpEffect} {w w' : HttpWorker}

theorem connection_eq (h : HttpTwins t log log' w w') : w.connection t = w'.connection t := by
  unfold HttpWorker.connection
  rw [h.same]

theorem emit (h : HttpTwins t log log' w w') (e : HttpEffect) :
    HttpTwins t log log' (w.emit e) (w'.emit e) where
  same := h.same
  effects := by
    obtain ⟨effects, hlog, hlog'⟩ := h.effects
    refine ⟨effects ++ [e], ?_, ?_⟩
    · change w.log ++ [e] = _
      rw [hlog, List.append_assoc]
    · change w'.log ++ [e] = _
      rw [hlog', List.append_assoc]

theorem update (h : HttpTwins t log log' w w') (x : Option HttpConnection) :
    HttpTwins t log log' { w with connections := Function.update w.connections t x }
      { w' with connections := Function.update w'.connections t x } where
  same := by
    change Function.update w.connections t x t = Function.update w'.connections t x t
    rw [Function.update_self, Function.update_self]
  effects := h.effects

theorem setConnection (h : HttpTwins t log log' w w') (f : HttpConnection → HttpConnection) :
    HttpTwins t log log' (w.setConnection t f) (w'.setConnection t f) := by
  unfold HttpWorker.setConnection
  rw [h.same]
  exact h.update _

theorem send (h : HttpTwins t log log' w w') (content : Bytes) :
    HttpTwins t log log' (httpStreamioSend w t content) (httpStreamioSend w' t content) := by
  unfold httpStreamioSend
  rw [h.connection_eq]
  split
  · exact h
  · exact h.emit _

theorem close (h : HttpTwins t log log' w w') :
    HttpTwins t log log' (defaultHttpClose w t) (defaultHttpClose w' t) := by
  unfold defaultHttpClose
  dsimp only
  rw [h.connection_eq]
  split
  · have hunregister := h.emit (.unregister (w'.connection t).fd t)
    rw [hunregister.connection_eq]
    split
    · exact (hunregister.emit _).setConnection _
    · exact hunregister.setConnection _
  · exact h

theorem unref (h : HttpTwins t log log' w w') :
    HttpTwins t log log' (httpUnref w t) (httpUnref w' t) := by
  have hunref := h.emit (.unref t)
  unfold httpUnref
  dsimp only
  rw [hunref.connection_eq]
  split
  · exact (hunref.setConnection _).close.update none
  · exact hunref.setConnection _

theorem requestGo (h : HttpTwins t log log' w w') (L : TxtLib) (plugins : HttpPlugins)
    (target : AroopTxt) :
    HttpTwins t log log' (httpRequestGo L plugins w t target).1
        (httpRequestGo L plugins w' t target).1 ∧
      (httpRequestGo L plugins w t target).2 = (httpRequestGo L plugins w' t target).2 := by
  unfold httpRequestGo
  cases httpUrlGo L target with
  | testAndClose => exact ⟨((h.setConnection _).send _).close, rfl⟩
  | bridgeCall space =>
    dsimp only
    rw [h.connection_eq]
    have hcall := (h.emit (.dispatch t space (w'.connection t).content)).setConnection
      fun http =>
        { http with
          quit := http.quit || (plugins space (w'.connection t).content).quit
          softQuit := http.softQuit || (plugins space (w'.connection t).content).softQuit }
    refine ⟨?_, rfl⟩
    split
    · exact hcall.send _
    · exact hcall

theorem handle (h : HttpTwins t log log' w w') (L : TxtLib) (plugins : HttpPlugins)
    (userData : Bytes) (parsed : HttpParsed) :
    HttpTwins t log log' (httpHandle L plugins w t userData parsed).1
      (httpHandle L plugins w' t userData parsed).1 := by
  have hcontent := h.setConnection fun http => { http with content := parsed.content userData }
  have hgo := hcontent.requestGo L plugins parsed.targetUrl
  unfold httpHandle
  dsimp only
  by_cases hret : parsed.ret = 0
  · rw [if_pos hret, if_pos hret]
    have hdone := hgo.1.setConnection fun http => { http with content := [] }
    rw [hdone.connection_eq]
    split
    · exact hdone.close.unref
    · exact hdone
  · rw [if_neg hret, if_neg hret]
    have hdone := hcontent.setConnection fun http => { http with content := [] }
    rw [hdone.connection_eq]
    split
    · exact hdone.close.unref
    · exact hdone

/-- What is received for a connection is all that its treatment depends on. -/
theorem onClientData (h : HttpTwins t log log' w w') (L : TxtLib) (negative : NegativeLength)
    (plugins : HttpPlugins) {result : RecvResult} (hresult : result ≠ .error) :
    HttpTwins t log log' (httpOnClientData L negative plugins w t result).1
      (httpOnClientData L negative plugins w' t result).1 := by
  cases result with
  | closed => exact h.close.unref
  | data bytes =>
    unfold httpOnClientData
    dsimp only
    have hrecv : HttpTwins t log log' { w with recvBuffer := w.recvBuffer.recv bytes }
        { w' with recvBuffer := w'.recvBuffer.recv bytes } := ⟨h.same, h.effects⟩
    split
    · exact hrecv.close.unref
    · rename_i hsize
      have hfits : bytes.length < nginzMaxHttpMsgSize := Nat.lt_of_not_le hsize
      obtain ⟨stale, hstorage⟩ := w.recvBuffer.terminated hfits
      obtain ⟨stale', hstorage'⟩ := w'.recvBuffer.terminated hfits
      have hterminated : HttpTwins t log log'
          { w with recvBuffer := (w.recvBuffer.recv bytes).terminate bytes.length }
          { w' with recvBuffer := (w'.recvBuffer.recv bytes).terminate bytes.length } :=
        ⟨h.same, h.effects⟩
      rw [hstorage, hstorage', httpUrlParse_terminated, httpUrlParse_terminated]
      exact hterminated.handle L plugins bytes (httpUrlParse bytes)
  | error => exact absurd rfl hresult

end HttpTwins

/-- Workers that agree on a connection do the same for it on every result but an error. -/
theorem httpEffects_congr (L : TxtLib) (negative : NegativeLength) (plugins : HttpPlugins)
    {w w' : HttpWorker} {t : ℕ} (h : w.connections t = w'.connections t) {result : RecvResult}
    (hresult : result ≠ .error) :
    httpEffects L negative plugins w t result = httpEffects L negative plugins w' t result := by
  have htwins : HttpTwins t w.log w'.log w w' := ⟨h, [], by simp, by simp⟩
  obtain ⟨effects, hlog, hlog'⟩ := (htwins.onClientData L negative plugins hresult).effects
  rw [httpEffects, httpEffects, hlog, hlog', List.drop_left, List.drop_left]

section Ends
variable {w : HttpWorker} {t : ℕ} {fd : ℤ} {http : HttpConnection}

theorem connection_of_some (h : w.connections t = some http) : w.connection t = http := by
  rw [HttpWorker.connection, h, Option.getD_some]

theorem setConnection_same (h : w.connections t = some http)
    (f : HttpConnection → HttpConnection) :
    (w.setConnection t f).connections t = some (f http) := by
  unfold HttpWorker.setConnection
  rw [h]
  exact Function.update_self ..

/-- An assignment that changes nothing. -/
theorem setConnection_id (h : w.connections t = some http) {f : HttpConnection → HttpConnection}
    (hf : f http = http) : w.setConnection t f = w := by
  unfold HttpWorker.setConnection
  rw [h, Option.map_some, hf, ← h, Function.update_eq_self]

/-- An open connection is unregistered, closed and unreferenced. -/
theorem dismissHttp_log (h : w.Open t fd) :
    (dismissHttp w t).log = w.log ++ [.unregister fd t, .close fd t, .unref t] := by
  obtain ⟨http, hhttp, rfl, hvalid, -, hsoft⟩ := h
  have hclose : defaultHttpClose w t =
      ((w.emit (.unregister http.fd t)).emit (.close http.fd t)).setConnection t
        fun http => { http with fd := invalidFd } := by
    unfold defaultHttpClose
    rw [connection_of_some hhttp]
    have hkept : (w.emit (.unregister http.fd t)).connection t = http := connection_of_some hhttp
    dsimp only
    rw [if_pos hvalid, hkept, hsoft]
    rfl
  have hslot : (defaultHttpClose w t).connections t = some { http with fd := invalidFd } := by
    rw [hclose]
    exact setConnection_same hhttp _
  have hlog : (defaultHttpClose w t).log =
      w.log ++ [.unregister http.fd t, .close http.fd t] := by
    rw [hclose]
    exact List.append_assoc ..
  have hagain (v : HttpWorker) (hv : v.connections t = some { http with fd := invalidFd }) :
      (defaultHttpClose (v.setConnection t fun http => { http with content := [] }) t).log =
        v.log := by
    unfold defaultHttpClose
    rw [connection_of_some (setConnection_same hv _)]
    rfl
  have hunref : (httpUnref (defaultHttpClose w t) t).log =
      (defaultHttpClose w t).log ++ [.unref t] := by
    unfold httpUnref
    dsimp only
    split
    · exact hagain _ hslot
    · rfl
  rw [dismissHttp, hunref, hlog, List.append_assoc]
  rfl

end Ends

section Replay

/-- A request for the chat page. -/
def pageRequest : Bytes := lit "GET /pagechat HTTP/1.1\r\n"

/-- Plugins that serve every request. -/
def servingPlugins : HttpPlugins := fun _ _ => ⟨0, true, false, false⟩

variable (L : TxtLib) {w : HttpWorker} {t : ℕ} {fd : ℤ}

/-- A request is left in the buffer behind its treatment. -/
theorem request_stays (negative : NegativeLength) (plugins : HttpPlugins) (w : HttpWorker) (u : ℕ)
    {bytes : Bytes} (h : bytes.length < nginzMaxHttpMsgSize) :
    ∃ stale, (httpOnClientData L negative plugins w u (.data bytes)).1.recvBuffer.storage =
      bytes ++ 0 :: stale := by
  obtain ⟨stale, hstorage⟩ := w.recvBuffer.terminated h
  refine ⟨stale, ?_⟩
  unfold httpOnClientData
  dsimp only
  rw [if_neg (Nat.not_le.mpr h), (HttpBeside.handle ..).recvBuffer]
  exact hstorage

/-- A request that is served leaves the connection as it is. -/
theorem httpRequestGo_served {http : HttpConnection} (hhttp : w.connections t = some http)
    {target : AroopTxt} {space : Bytes} (hcall : httpUrlGo L target = .bridgeCall space) :
    httpRequestGo L servingPlugins w t target = (w.emit (.dispatch t space http.content), 0) := by
  have hslot : (w.emit (.dispatch t space http.content)).connections t = some http := hhttp
  unfold httpRequestGo
  rw [hcall]
  dsimp only
  rw [connection_of_some hhttp, setConnection_id hslot]
  · rfl
  · simp [servingPlugins]

/-- The chat page is dispatched, and nothing else happens. -/
theorem page_log (h : w.Open t fd) (userData : Bytes) : ∃ space content,
    (httpHandle L servingPlugins w t userData (httpUrlParse pageRequest)).1.log =
      w.log ++ [.dispatch t space content] := by
  obtain ⟨http, hhttp, -, -, hquit, hsoft⟩ := h
  have hparsed : httpUrlParse pageRequest =
      ⟨0, ⟨lit "/pagechat HTTP/1.1\r\n" ++ [0], 9⟩, none⟩ := by decide +kernel
  have hcall : httpUrlGo L ⟨lit "/pagechat HTTP/1.1\r\n" ++ [0], 9⟩ =
      .bridgeCall (urlSpace L ⟨lit "/pagechat HTTP/1.1\r\n" ++ [0], 9⟩) := by
    have hindex : (AroopTxt.mk (lit "/pagechat HTTP/1.1\r\n" ++ [0]) 9).charAt L 5 = 99 := by
      rw [AroopTxt.charAt, if_pos (by decide)]
      decide
    unfold httpUrlGo
    rw [hindex]
    rfl
  generalize urlSpace L ⟨lit "/pagechat HTTP/1.1\r\n" ++ [0], 9⟩ = space at hcall
  refine ⟨space, [], ?_⟩
  have hslot : (w.setConnection t fun http => { http with content := [] }).connections t =
      some { http with content := [] } := setConnection_same hhttp _
  have hserved := httpRequestGo_served L hslot hcall
  have hagain : ((w.setConnection t fun http => { http with content := [] }).emit
      (.dispatch t space [])).connections t = some { http with content := [] } := hslot
  rw [hparsed]
  unfold httpHandle HttpParsed.content
  dsimp only
  rw [if_pos rfl, hserved]
  dsimp only
  rw [setConnection_id hagain rfl, connection_of_some hagain, hquit, hsoft]
  rfl

end Replay

/-- What is done for a connection is isolated from the others, and ends it where it must,
exactly when `recv` does not fail; whether the library stops at a length of -1 or leaves the
bytes of the buffer as they are. -/
theorem http_isolated_iff (L : TxtLib) (negative : NegativeLength)
    (hnegative : ∀ storage, negative storage = none ∨ negative storage = some storage)
    {w : HttpWorker} {t : ℕ} {fd : ℤ} (hopen : w.Open t fd)
    (hroom : ∃ u, u ≠ t ∧ w.connections u = none) (result : RecvResult) :
    HttpIsolated L negative w t fd result ↔ result ≠ .error := by
  have hkept {events : List HttpEvent}
      (hrun : Transition.Along (HttpWorker.on L negative) (HttpWorker.OfOthers t) w events) :
      (events.foldl (HttpWorker.on L negative) w).Open t fd := by
    obtain ⟨http, hhttp, hrest⟩ := hopen
    exact ⟨http, (others_keep L negative hrun).trans hhttp, hrest⟩
  constructor
  · rintro hisolated rfl
    obtain ⟨u, hut, hfree⟩ := hroom
    have hrun : Transition.Along (HttpWorker.on L negative) (HttpWorker.OfOthers t) w
        [.welcome u 7, .clientData u (.data pageRequest) servingPlugins] := by
      refine ⟨⟨hut, hfree⟩, ⟨hut, ?_⟩, trivial⟩
      change (Function.update w.connections u (some (.initial 7)) u).isSome
      rw [Function.update_self]
      rfl
    have hends := hisolated.ends (.inr rfl) servingPlugins _ hrun
    have hopen' := hkept hrun
    generalize hv : [HttpEvent.welcome u 7, .clientData u (.data pageRequest) servingPlugins].foldl
      (HttpWorker.on L negative) w = v at hends hopen'
    obtain ⟨stale, hstorage⟩ : ∃ stale, v.recvBuffer.storage = pageRequest ++ 0 :: stale := by
      rw [← hv]
      exact request_stays L negative servingPlugins _ u (by decide)
    have heffects : ∃ effects, httpEffects L negative servingPlugins v t .error = effects ∧
        effects.count (.unref t) = 0 := by
      unfold httpEffects httpOnClientData
      dsimp only
      rcases hnegative v.recvBuffer.storage with hnone | hsome
      · rw [hnone]
        exact ⟨_, rfl, by rw [List.drop_length]; rfl⟩
      · rw [hsome, hstorage]
        dsimp only
        rw [httpUrlParse_terminated]
        obtain ⟨space, content, hlog⟩ := page_log L hopen' (pageRequest ++ 0 :: stale)
        rw [hlog, List.drop_left]
        exact ⟨_, rfl, by simp⟩
    obtain ⟨effects, heq, hzero⟩ := heffects
    rw [heq] at hends
    exact absurd (hends.2.2.symm.trans hzero) (by decide)
  · intro hresult
    constructor
    · intro plugins h h' hrun hrun'
      have hsame := (others_keep L negative hrun).trans (others_keep L negative hrun').symm
      exact httpEffects_congr L negative plugins hsame hresult
    · intro hend plugins h hrun
      obtain rfl : result = .closed := hend.resolve_right hresult
      have hlog := dismissHttp_log (hkept hrun)
      have heffects : httpEffects L negative plugins (h.foldl (HttpWorker.on L negative) w) t
          .closed = [.unregister fd t, .close fd t, .unref t] := by
        unfold httpEffects httpOnClientData
        dsimp only
        rw [hlog, List.drop_left]
      dsimp only
      rw [heffects]
      simp

/-- A worker with one connection, before its first request. -/
def welcomedWorker : HttpWorker where
  connections := fun t => if t = 0 then some (.initial 5) else none
  recvBuffer := .fresh .cutting nginzMaxHttpMsgSize
  crashed := false
  log := []

theorem welcomedWorker_open : welcomedWorker.Open 0 5 :=
  ⟨_, rfl, rfl, by decide, rfl, rfl⟩

theorem http_isolated_iff_closed :
    HttpIsolated .cutting some welcomedWorker 0 5 .closed ↔ RecvResult.closed ≠ .error :=
  http_isolated_iff .cutting some (fun _ => .inr rfl) welcomedWorker_open
    ⟨1, by decide, rfl⟩ .closed

/-- The error of one client replays the request of another, and its connection stays. -/
theorem http_error_replays :
    let history := [HttpEvent.welcome 1 7, .clientData 1 (.data pageRequest) servingPlugins]
    Transition.Along (HttpWorker.on .cutting some) (HttpWorker.OfOthers 0) welcomedWorker history ∧
      httpEffects .cutting some servingPlugins
        (history.foldl (HttpWorker.on .cutting some) welcomedWorker) 0 .error =
          [.dispatch 0 (lit "http/pagechat") []] ∧
      (httpEffects .cutting some servingPlugins welcomedWorker 0 .error).head? =
        some (.send 0 (lit "HTTP/1.0 200 OK\r\nContent-Length: 9\r\n\r\nIt Works!\r\n")) ∧
      ¬ HttpIsolated .cutting some welcomedWorker 0 5 .error := by
  have hrun : Transition.Along (HttpWorker.on .cutting some) (HttpWorker.OfOthers 0) welcomedWorker
      [.welcome 1 7, .clientData 1 (.data pageRequest) servingPlugins] :=
    ⟨⟨by decide, rfl⟩, ⟨by decide, rfl⟩, trivial⟩
  have hreplayed : httpEffects .cutting some servingPlugins
      ([HttpEvent.welcome 1 7, .clientData 1 (.data pageRequest) servingPlugins].foldl
        (HttpWorker.on .cutting some) welcomedWorker) 0 .error =
          [.dispatch 0 (lit "http/pagechat") []] := by
    decide +kernel
  refine ⟨hrun, hreplayed, by decide +kernel, fun hisolated => ?_⟩
  have hends := hisolated.ends (.inr rfl) servingPlugins _ hrun
  rw [hreplayed] at hends
  exact absurd hends.1 (by decide)

end Nginz
