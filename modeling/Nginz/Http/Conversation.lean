import Nginz.Http.Tunnel

/-! The conversation with one HTTP client: what is written to it during a run of the worker
reads as the responses to its requests, in order. -/
namespace Nginz
open Announced Framing

/-! ### Events and responses -/

/-- What happens at a worker, with all that its plugins do. -/
inductive ServeEvent where
  | welcome (u : ℕ) (fd : ℤ)
  | clientData (u : ℕ) (result : RecvResult) (services : HttpServices)

def HttpWorker.serve (L : TxtLib) (negative : NegativeLength) (w : HttpWorker) :
    ServeEvent → HttpWorker
  | .welcome u fd =>
    { w with connections := Function.update w.connections u (some (.initial fd)) }
  | .clientData u result services => httpServeClient L negative services w u result

/-- The bytes written to a connection. -/
def bytesTo (t : ℕ) : HttpEffect → Bytes
  | .send u bytes => if u = t then bytes else []
  | _ => []

def writtenTo (t : ℕ) (log : List HttpEffect) : Bytes := log.flatMap (bytesTo t)

/-- The contents that are sent while the stream is open. -/
def openContents (acts : List HttpAct) : List Bytes :=
  (acts.takeWhile (· ≠ .close)).filterMap fun
    | .send content => some content
    | .close => none

/-- The responses to a request, whether the connection ends with them, and what is written
behind them then. -/
structure Answer where
  responses : List (Bytes × Bytes)
  ends : Bool
  trailer : Bytes
  deriving DecidableEq, Repr

/-- The answer of a service: the contents it sent, or that there is no such page. -/
def HttpService.answer (service : HttpService) : Answer where
  responses :=
    if service.acts = [] then [(statusNotFound, lit "Not Found")]
    else (openContents service.acts).map fun content => (statusOk, content)
  ends := decide (HttpAct.close ∈ service.acts) || (service.quit || service.softQuit)
  trailer := []

/-- The answer to a URL. The test page is longer than it says. -/
def urlAnswer (L : TxtLib) (services : HttpServices) (target : AroopTxt) (content : Bytes) :
    Answer :=
  match httpUrlGo L target with
  | .testAndClose => ⟨[(statusOk, lit "It Works!")], true, lit "\r\n"⟩
  | .bridgeCall space => (services space content).answer

/-- The answer to a parsed message; one that does not parse has none. -/
def parsedAnswer (L : TxtLib) (services : HttpServices) (userData : Bytes) (parsed : HttpParsed) :
    Answer :=
  if parsed.ret = 0 then urlAnswer L services parsed.targetUrl (parsed.content userData)
  else ⟨[], false, []⟩

/-- The answer to the bytes of one `recv`. -/
def answerTo (L : TxtLib) (services : HttpServices) (bytes : Bytes) : Answer :=
  if bytes.length ≥ nginzMaxHttpMsgSize then ⟨[], true, []⟩
  else parsedAnswer L services bytes (httpUrlParse bytes)

/-- The responses to the requests of connection `t` until it ends, and what is written behind
them. -/
def conversation (L : TxtLib) (t : ℕ) : List ServeEvent → List (Bytes × Bytes) × Bytes
  | [] => ([], [])
  | .clientData u (.data bytes) services :: es =>
    if u = t then
      let answer := answerTo L services bytes
      if answer.ends then (answer.responses, answer.trailer)
      else
        let rest := conversation L t es
        (answer.responses ++ rest.1, rest.2)
    else conversation L t es
  | .clientData u _ _ :: es => if u = t then ([], []) else conversation L t es
  | .welcome _ _ :: es => conversation L t es

/-- The event gives no other client the object of `t`, no `recv` for `t` fails, and what is
sent to `t` has the length of a text. -/
def Conversing (L : TxtLib) (t : ℕ) : ServeEvent → Prop
  | .welcome u _ => u ≠ t
  | .clientData u result services => u = t → result ≠ .error ∧ ∀ bytes, result = .data bytes →
      ∀ response ∈ (answerTo L services bytes).responses, response.2.length < 2 ^ 31

/-! ### What is written -/

section Written
variable {t : ℕ} {w : HttpWorker}

theorem emit_written (w : HttpWorker) (e : HttpEffect) :
    writtenTo t (w.emit e).log = writtenTo t w.log ++ bytesTo t e := by
  simp [writtenTo, HttpWorker.emit]

theorem setConnection_written (w : HttpWorker) (u : ℕ) (f : HttpConnection → HttpConnection) :
    writtenTo t (w.setConnection u f).log = writtenTo t w.log := rfl

/-- The stream of `t` is closed. -/
def Mute (t : ℕ) (w : HttpWorker) : Prop := (w.connection t).fd = invalidFd

theorem mute_congr {w' : HttpWorker} (h : w'.connections t = w.connections t) :
    Mute t w' ↔ Mute t w := by
  unfold Mute HttpWorker.connection
  rw [h]

/-- An assignment that leaves an open descriptor, or closes it. -/
theorem mute_setConnection (w : HttpWorker) {f : HttpConnection → HttpConnection}
    (hf : ∀ c, (f c).fd = c.fd) : Mute t (w.setConnection t f) ↔ Mute t w := by
  unfold Mute
  cases h : w.connections t with
  | none => simp [HttpWorker.connection, HttpWorker.setConnection, h]
  | some http => simp [HttpWorker.connection, HttpWorker.setConnection, h, hf]

theorem setConnection_closes (w : HttpWorker) {f : HttpConnection → HttpConnection}
    (hf : ∀ c, (f c).fd = invalidFd) : Mute t (w.setConnection t f) := by
  unfold Mute
  cases h : w.connections t with
  | none => simp [HttpWorker.connection, HttpWorker.setConnection, h, HttpConnection.initial]
  | some http => simp [HttpWorker.connection, HttpWorker.setConnection, h, hf]

theorem send_open (h : ¬ Mute t w) (content : Bytes) :
    httpStreamioSend w t content = w.emit (.send t content) := if_neg h

theorem send_mute (h : Mute t w) (content : Bytes) : httpStreamioSend w t content = w := if_pos h

theorem close_mute (w : HttpWorker) : Mute t (defaultHttpClose w t) := by
  unfold defaultHttpClose
  dsimp only
  split
  · exact setConnection_closes _ fun _ => rfl
  · exact not_not.mp ‹_›

theorem close_written (w : HttpWorker) (u : ℕ) :
    writtenTo t (defaultHttpClose w u).log = writtenTo t w.log := by
  unfold defaultHttpClose
  dsimp only
  split
  · rw [setConnection_written]
    split
    · rw [emit_written, emit_written]
      simp [bytesTo]
    · rw [emit_written]
      simp [bytesTo]
  · rfl

theorem unref_written (w : HttpWorker) (u : ℕ) :
    writtenTo t (httpUnref w u).log = writtenTo t w.log := by
  unfold httpUnref
  dsimp only
  split
  · rw [close_written, setConnection_written, emit_written]
    simp [bytesTo]
  · rw [setConnection_written, emit_written]
    simp [bytesTo]

theorem dismiss_written (w : HttpWorker) (u : ℕ) :
    writtenTo t (dismissHttp w u).log = writtenTo t w.log := by
  rw [dismissHttp, unref_written, close_written]

theorem unref_mute (h : Mute t w) : Mute t (httpUnref w t) := by
  have hemit : Mute t (w.emit (.unref t)) := h
  unfold httpUnref
  dsimp only
  split
  · simp [Mute, HttpWorker.connection, HttpConnection.initial]
  · exact (mute_setConnection (w.emit (.unref t))
      (f := fun http => { http with refs := http.refs - 1 }) fun _ => rfl).mpr hemit

theorem dismiss_mute (w : HttpWorker) : Mute t (dismissHttp w t) := unref_mute (close_mute w)

/-! ### The tunnel -/

variable (L : TxtLib)

theorem tunnelSendBuf_eq {content : Bytes} (h : content.length < 2 ^ 31) :
    tunnelSendBuf L content = Decimal.digits content.length ++ lit "\r\n\r\n" := by
  have hdigits := Decimal.digits_length_le (k := 10) (by decide) (h.trans (by decide))
  have hend : (lit "\r\n\r\n").length = 4 := by decide
  have hmax : nginzMaxHttpMsgSize = 1024 := rfl
  unfold tunnelSendBuf
  rw [decimal_eq_digits, compose_fits L]
  · simp
  · simp only [List.flatten_cons, List.flatten_nil, List.append_nil, List.length_append]
    omega

/-- What the tunnel writes is a response with the content. -/
theorem tunnel_written (h : ¬ Mute t w) {content : Bytes} (hlen : content.length < 2 ^ 31) :
    writtenTo t (httpTunnelSendContent L w t content).log =
      writtenTo t w.log ++ httpHeads.frame (statusOk, content) := by
  have hkept (v : HttpWorker) (bytes : Bytes) (hv : ¬ Mute t v) :
      ¬ Mute t (v.emit (.send t bytes)) := hv
  have hframe : httpHeads.frame (statusOk, content) =
      httpOk ++ (Decimal.digits content.length ++ lit "\r\n\r\n") ++ content := by
    simp [Heads.frame, httpHeads, httpOk]
  unfold httpTunnelSendContent
  dsimp only
  rw [hframe, ← tunnelSendBuf_eq L hlen, send_open h, send_open (hkept w _ h)]
  split
  · rw [send_open (hkept _ _ (hkept w _ h)), emit_written, emit_written, emit_written]
    simp [bytesTo]
  · rw [emit_written, emit_written]
    simp [bytesTo, not_not.mp ‹¬ content ≠ []›]

theorem tunnel_mute (h : Mute t w) (content : Bytes) : httpTunnelSendContent L w t content = w := by
  unfold httpTunnelSendContent
  dsimp only
  rw [send_mute h, send_mute h, send_mute h]
  exact ite_self w

theorem send_connections (w : HttpWorker) (u : ℕ) (content : Bytes) :
    (httpStreamioSend w u content).connections = w.connections := by
  unfold httpStreamioSend
  split
  · rfl
  · rfl

theorem tunnel_connections (w : HttpWorker) (u : ℕ) (content : Bytes) :
    (httpTunnelSendContent L w u content).connections = w.connections := by
  unfold httpTunnelSendContent
  dsimp only
  split
  · rw [send_connections, send_connections, send_connections]
  · rw [send_connections, send_connections]

/-! ### A request -/

theorem close_slot {http : HttpConnection} (h : w.connections t = some http) :
    (defaultHttpClose w t).connections t = some { http with fd := invalidFd } := by
  unfold defaultHttpClose
  dsimp only
  rw [connection_of_some h]
  split
  · apply setConnection_same
    split
    · exact h
    · exact h
  · rw [h, ← not_not.mp ‹¬ http.fd ≠ invalidFd›]

theorem acts_slot {http : HttpConnection} (h : w.connections t = some http)
    (acts : List HttpAct) : (acts.foldl (httpAct L t) w).connections t =
      some { http with fd := if HttpAct.close ∈ acts then invalidFd else http.fd } := by
  induction acts generalizing w http with
  | nil => simpa using h
  | cons act acts ih =>
    cases act with
    | send content =>
      rw [List.foldl_cons, httpAct, ih ((congrFun (tunnel_connections L w t content) t).trans h)]
      simp
    | close =>
      rw [List.foldl_cons, httpAct, ih (close_slot h)]
      simp

theorem acts_mute (h : Mute t w) (acts : List HttpAct) :
    writtenTo t (acts.foldl (httpAct L t) w).log = writtenTo t w.log := by
  induction acts generalizing w with
  | nil => rfl
  | cons act acts ih =>
    cases act with
    | send content =>
      rw [List.foldl_cons, httpAct, tunnel_mute L h]
      exact ih h
    | close =>
      rw [List.foldl_cons, httpAct, ih (close_mute w), close_written]

/-- The contents sent before a close are written as responses. -/
theorem acts_written (h : ¬ Mute t w) {acts : List HttpAct}
    (hlen : ∀ content ∈ openContents acts, content.length < 2 ^ 31) :
    writtenTo t (acts.foldl (httpAct L t) w).log = writtenTo t w.log ++
      encode httpHeads.frame ((openContents acts).map fun content => (statusOk, content)) := by
  induction acts generalizing w with
  | nil => simp [openContents]
  | cons act acts ih =>
    cases act with
    | send content =>
      have hopen : openContents (.send content :: acts) = content :: openContents acts := by
        simp [openContents]
      rw [hopen] at hlen ⊢
      have hkept : ¬ Mute t (httpTunnelSendContent L w t content) :=
        mt (mute_congr (congrFun (tunnel_connections L w t content) t)).mp h
      rw [List.foldl_cons, httpAct, ih hkept fun c hc => hlen c (List.mem_cons_of_mem _ hc),
        tunnel_written L h (hlen content List.mem_cons_self), List.map_cons, encode_cons,
        List.append_assoc]
    | close =>
      have hopen : openContents (.close :: acts) = [] := by simp [openContents]
      rw [hopen, List.foldl_cons, httpAct, acts_mute L (close_mute w), close_written]
      simp

/-- What the parser sends itself are responses, too; the test page has more behind it. -/
theorem testPage_eq : lit "HTTP/1.0 200 OK\r\nContent-Length: 9\r\n\r\nIt Works!\r\n" =
    httpHeads.frame (statusOk, lit "It Works!") ++ lit "\r\n" := by decide +kernel

theorem notFound_eq : lit "HTTP/1.0 404 NOT FOUND\r\nContent-Length: 9\r\n\r\nNot Found" =
    httpHeads.frame (statusNotFound, lit "Not Found") := by decide +kernel

/-- The worker wrote the answer to the connection in the slot, which is closed or about to be if
and only if the answer ends it. -/
structure Answered (t : ℕ) (http : HttpConnection) (answer : Answer) (w w' : HttpWorker) :
    Prop where
  written : writtenTo t w'.log = writtenTo t w.log ++
    (encode httpHeads.frame answer.responses ++ answer.trailer)
  slot : ∃ http', w'.connections t = some http' ∧
    (answer.ends = true → http'.fd = invalidFd ∨ (http'.quit || http'.softQuit) = true) ∧
    (answer.ends = false → http'.fd = http.fd ∧ (http'.quit || http'.softQuit) = false)

variable {http : HttpConnection}

theorem unprocessed_connections (service : HttpService) (v : HttpWorker) (u : ℕ) :
    (if !service.isProcessed then
        httpStreamioSend v u (lit "HTTP/1.0 404 NOT FOUND\r\nContent-Length: 9\r\n\r\nNot Found")
      else v).connections = v.connections := by
  split
  · exact send_connections ..
  · rfl

/-- The page that there is none of is written exactly when the service did nothing. -/
theorem unprocessed_written (service : HttpService) {v : HttpWorker}
    (hv : Mute t v ↔ HttpAct.close ∈ service.acts) :
    writtenTo t (if !service.isProcessed then
        httpStreamioSend v t (lit "HTTP/1.0 404 NOT FOUND\r\nContent-Length: 9\r\n\r\nNot Found")
      else v).log = writtenTo t v.log ++
        if service.acts = [] then encode httpHeads.frame [(statusNotFound, lit "Not Found")]
        else [] := by
  cases hacts : service.acts with
  | nil =>
    have hopen : ¬ Mute t v := by simp [hv, hacts]
    have hprocessed : service.isProcessed = false := by simp [HttpService.isProcessed, hacts]
    rw [hprocessed, Bool.not_false, if_pos rfl, if_pos rfl, send_open hopen, emit_written,
      bytesTo, if_pos rfl, notFound_eq, encode_cons, encode_nil, List.append_nil]
  | cons act acts =>
    rw [if_neg (List.cons_ne_nil act acts), List.append_nil]
    split
    · have hclosed : HttpAct.close ∈ service.acts := by
        have hall : service.isProcessed = false := by simpa using ‹(!service.isProcessed) = true›
        have hact : act = .close := by
          simpa using List.any_eq_false.mp hall act (hacts ▸ List.mem_cons_self)
        rw [hacts, hact]
        exact List.mem_cons_self
      rw [send_mute (hv.mpr hclosed)]
    · rfl

theorem service_answered (services : HttpServices) (h : w.connections t = some http)
    (hfd : http.fd ≠ invalidFd) (hflags : (http.quit || http.softQuit) = false)
    {target : AroopTxt} (hlen : ∀ response ∈ (urlAnswer L services target http.content).responses,
      response.2.length < 2 ^ 31) :
    Answered t http (urlAnswer L services target http.content) w
      (httpRequestServe L services w t target).1 := by
  have hopen : ¬ Mute t w := by
    unfold Mute
    rwa [connection_of_some h]
  unfold urlAnswer httpRequestServe at *
  cases hurl : httpUrlGo L target with
  | testAndClose =>
    have hquit := setConnection_same h fun http => { http with quit := true, softQuit := false }
    have hsend := send_open
      (mt (mute_setConnection w (f := fun http => { http with quit := true, softQuit := false })
        fun _ => rfl).mp hopen)
      (lit "HTTP/1.0 200 OK\r\nContent-Length: 9\r\n\r\nIt Works!\r\n")
    dsimp only [httpResponseTestAndClose]
    rw [hsend]
    refine ⟨?_, _, close_slot hquit, fun _ => .inl rfl, by simp⟩
    rw [close_written, emit_written, setConnection_written, bytesTo, if_pos rfl, testPage_eq]
    simp
  | bridgeCall space =>
    rw [hurl] at hlen
    dsimp only at hlen ⊢
    rw [connection_of_some h]
    generalize services space http.content = service at hlen ⊢
    have hdispatch : ¬ Mute t (w.emit (.dispatch t space http.content)) := hopen
    have hacts := acts_slot L (w := w.emit (.dispatch t space http.content)) h service.acts
    have hflagged := setConnection_same hacts fun http => { http with
      quit := http.quit || service.quit, softQuit := http.softQuit || service.softQuit }
    obtain ⟨hq, hs⟩ := Bool.or_eq_false_iff.mp hflags
    refine ⟨?_, _, (congrFun (unprocessed_connections service _ t) t).trans hflagged, ?_, ?_⟩
    · rw [unprocessed_written service, setConnection_written]
      · by_cases hnone : service.acts = []
        · simp [hnone, HttpService.answer, emit_written, bytesTo]
        · simp only [HttpService.answer, hnone, if_false] at hlen ⊢
          rw [acts_written L hdispatch, emit_written]
          · simp [bytesTo]
          · intro content hcontent
            exact hlen (statusOk, content) (List.mem_map_of_mem hcontent)
      · unfold Mute
        rw [connection_of_some hflagged]
        simp [hfd]
    · intro hends
      by_cases hclose : HttpAct.close ∈ service.acts
      · exact .inl (if_pos hclose)
      · right
        simpa [HttpService.answer, hclose, hq, hs] using hends
    · intro hends
      obtain ⟨hclose, hstays⟩ := Bool.or_eq_false_iff.mp hends
      refine ⟨if_neg (of_decide_eq_false hclose), ?_⟩
      simpa [hq, hs] using hstays

/-! ### A step -/

/-- The stream of `t` is open and its connection is to stay. -/
def Speaking (t : ℕ) (w : HttpWorker) : Prop :=
  ∃ http, w.connections t = some http ∧ http.fd ≠ invalidFd ∧ (http.quit || http.softQuit) = false

theorem speaking_congr {w' : HttpWorker} (h : w'.connections t = w.connections t) :
    Speaking t w' ↔ Speaking t w := by
  unfold Speaking
  rw [h]

/-- Behind the plugin the content is forgotten, and a connection that asked to quit is gone. -/
theorem answered_ends {answer : Answer} {v : HttpWorker} (h : Answered t http answer w v)
    (hfd : http.fd ≠ invalidFd) :
    let v := v.setConnection t fun http => { http with content := [] }
    let v' := if (v.connection t).quit || (v.connection t).softQuit then dismissHttp v t else v
    writtenTo t v'.log =
        writtenTo t w.log ++ (encode httpHeads.frame answer.responses ++ answer.trailer) ∧
      if answer.ends then Mute t v' else Speaking t v' := by
  obtain ⟨hwritten, http', hhttp', hends, hstays⟩ := h
  have hclear := setConnection_same hhttp' fun http => { http with content := [] }
  dsimp only
  rw [connection_of_some hclear]
  dsimp only
  constructor
  · split
    · rw [dismiss_written, setConnection_written, hwritten]
    · exact hwritten
  · cases hanswer : answer.ends with
    | true =>
      rw [if_pos rfl]
      split
      · exact dismiss_mute _
      · unfold Mute
        rw [connection_of_some hclear]
        exact (hends hanswer).resolve_right ‹_›
    | false =>
      obtain ⟨hkept, hflags⟩ := hstays hanswer
      rw [if_neg Bool.false_ne_true, if_neg (by rw [hflags]; exact Bool.false_ne_true)]
      exact ⟨_, hclear, hkept ▸ hfd, hflags⟩

theorem handle_answered (services : HttpServices) (h : Speaking t w) (userData : Bytes)
    {parsed : HttpParsed}
    (hlen : ∀ response ∈ (parsedAnswer L services userData parsed).responses,
      response.2.length < 2 ^ 31) :
    let answer := parsedAnswer L services userData parsed
    let w' := (httpHandleWith (fun w => httpRequestServe L services w t) w t userData parsed).1
    writtenTo t w'.log =
        writtenTo t w.log ++ (encode httpHeads.frame answer.responses ++ answer.trailer) ∧
      if answer.ends then Mute t w' else Speaking t w' := by
  obtain ⟨http, hhttp, hfd, hflags⟩ := h
  have hset := setConnection_same hhttp fun http => { http with content := parsed.content userData }
  unfold parsedAnswer httpHandleWith at *
  dsimp only
  by_cases hret : parsed.ret = 0
  · rw [if_pos hret] at hlen
    rw [if_pos hret, if_pos hret]
    have hserved := answered_ends (service_answered L services hset hfd hflags hlen) hfd
    rw [apply_ite Prod.fst]
    exact hserved
  · rw [if_neg hret, if_neg hret]
    have hsilent : Answered t { http with content := parsed.content userData } ⟨[], false, []⟩ w
        (w.setConnection t fun http => { http with content := parsed.content userData }) := by
      exact ⟨by simp [setConnection_written], _, hset, by simp, fun _ => ⟨rfl, hflags⟩⟩
    rw [apply_ite Prod.fst]
    exact answered_ends hsilent hfd

end Written

/-! ### What is not written -/

/-- What is done for `u` changes no other connection, and writes nothing to `t` unless `u` is `t`
and its stream is open. -/
structure Unheard (t u : ℕ) (w w' : HttpWorker) : Prop where
  others : u ≠ t → w'.connections t = w.connections t
  quiet : (u = t → Mute t w) →
    writtenTo t w'.log = writtenTo t w.log ∧ (u = t → Mute t w')

namespace Unheard
variable {t u : ℕ} {w w' w'' : HttpWorker}

protected theorem refl (w : HttpWorker) : Unheard t u w w := ⟨fun _ => rfl, fun h => ⟨rfl, h⟩⟩

protected theorem trans (h : Unheard t u w w') (h' : Unheard t u w' w'') : Unheard t u w w'' := by
  refine ⟨fun hne => (h'.others hne).trans (h.others hne), fun hmute => ?_⟩
  obtain ⟨hwritten, hmute'⟩ := h.quiet hmute
  obtain ⟨hwritten', hmute''⟩ := h'.quiet hmute'
  exact ⟨hwritten'.trans hwritten, hmute''⟩

theorem emit (w : HttpWorker) {e : HttpEffect} (he : bytesTo t e = []) :
    Unheard t u w (w.emit e) :=
  ⟨fun _ => rfl, fun h => ⟨by rw [emit_written, he, List.append_nil], h⟩⟩

theorem setConnection (w : HttpWorker) {f : HttpConnection → HttpConnection}
    (hf : ∀ c, (f c).fd = c.fd) : Unheard t u w (w.setConnection u f) := by
  refine ⟨(HttpBeside.setConnection w f).others t, fun h => ⟨rfl, ?_⟩⟩
  rintro rfl
  exact (mute_setConnection w hf).mpr (h rfl)

theorem send (w : HttpWorker) (content : Bytes) :
    Unheard t u w (httpStreamioSend w u content) := by
  refine ⟨(HttpBeside.send w content).others t, fun h => ?_⟩
  by_cases hu : u = t
  · subst hu
    rw [send_mute (h rfl)]
    exact ⟨rfl, h⟩
  · refine ⟨?_, fun he => absurd he hu⟩
    unfold httpStreamioSend
    split
    · rfl
    · rw [emit_written, bytesTo, if_neg hu, List.append_nil]

theorem close (w : HttpWorker) : Unheard t u w (defaultHttpClose w u) := by
  refine ⟨(HttpBeside.close w).others t, fun _ => ⟨close_written w u, ?_⟩⟩
  rintro rfl
  exact close_mute w

theorem dismiss (w : HttpWorker) : Unheard t u w (dismissHttp w u) := by
  refine ⟨(HttpBeside.dismiss w).others t, fun _ => ⟨dismiss_written w u, ?_⟩⟩
  rintro rfl
  exact dismiss_mute w

variable (L : TxtLib)

theorem act (w : HttpWorker) (a : HttpAct) : Unheard t u w (httpAct L u w a) := by
  cases a with
  | send content =>
    rw [httpAct]
    unfold httpTunnelSendContent
    dsimp only
    split
    · exact ((send w _).trans (send _ _)).trans (send _ _)
    · exact (send w _).trans (send _ _)
  | close => exact close w

theorem acts (w : HttpWorker) (as : List HttpAct) : Unheard t u w (as.foldl (httpAct L u) w) := by
  induction as generalizing w with
  | nil => exact .refl w
  | cons a as ih => exact (act L w a).trans (ih _)

theorem serve (services : HttpServices) (w : HttpWorker) (target : AroopTxt) :
    Unheard t u w (httpRequestServe L services w u target).1 := by
  unfold httpRequestServe
  split
  · exact ((setConnection w (by exact fun _ => rfl)).trans (send _ _)).trans (close _)
  · rename_i space _
    dsimp only
    have hdispatch : Unheard t u w (w.emit (.dispatch u space (w.connection u).content)) :=
      emit w rfl
    have hacts := hdispatch.trans (acts L _ (services space (w.connection u).content).acts)
    split
    · exact (hacts.trans (setConnection _ (by exact fun _ => rfl))).trans (send _ _)
    · exact hacts.trans (setConnection _ (by exact fun _ => rfl))

theorem handle (services : HttpServices) (w : HttpWorker) (userData : Bytes) (parsed : HttpParsed) :
    Unheard t u w
      (httpHandleWith (fun w => httpRequestServe L services w u) w u userData parsed).1 := by
  have hends (v : HttpWorker) (response : ℤ) : Unheard t u v
      (if (v.connection u).quit || (v.connection u).softQuit then (dismissHttp v u, response)
        else (v, response)).1 := by
    split
    · exact dismiss v
    · exact .refl v
  unfold httpHandleWith
  dsimp only
  refine Unheard.trans ?_ (hends _ _)
  refine Unheard.trans ?_ (setConnection _ (by exact fun _ => rfl))
  split
  · exact (setConnection w (by exact fun _ => rfl)).trans (serve L services _ _)
  · exact setConnection w fun _ => rfl

theorem client (negative : NegativeLength) (services : HttpServices) (w : HttpWorker)
    (result : RecvResult) : Unheard t u w (httpServeClient L negative services w u result) := by
  have hbuffer (v : HttpWorker) (buffer : RecvBuffer nginzMaxHttpMsgSize) :
      Unheard t u v { v with recvBuffer := buffer } := ⟨fun _ => rfl, fun h => ⟨rfl, h⟩⟩
  unfold httpServeClient httpClientDataWith
  cases result with
  | closed => exact dismiss w
  | data bytes =>
    dsimp only
    split
    · exact (hbuffer w _).trans (dismiss _)
    · exact (hbuffer w _).trans (handle L services _ _ _)
  | error =>
    dsimp only
    split
    · exact ⟨fun _ => rfl, fun h => ⟨rfl, h⟩⟩
    · exact handle L services w _ _

theorem welcome (negative : NegativeLength) (hu : u ≠ t) (w : HttpWorker) (fd : ℤ) :
    Unheard t u w (w.serve L negative (.welcome u fd)) :=
  ⟨fun _ => Function.update_of_ne hu.symm .., fun _ => ⟨rfl, fun he => absurd he hu⟩⟩

end Unheard

/-! ### The conversation -/

section Run
variable (L : TxtLib) (negative : NegativeLength) {t : ℕ} {w : HttpWorker}

/-- The answer to a request is written; the rest of the conversation is up to it. -/
theorem request_answered (services : HttpServices) (h : Speaking t w) {bytes : Bytes}
    (hlen : ∀ response ∈ (answerTo L services bytes).responses, response.2.length < 2 ^ 31) :
    let answer := answerTo L services bytes
    let w' := httpServeClient L negative services w t (.data bytes)
    writtenTo t w'.log =
        writtenTo t w.log ++ (encode httpHeads.frame answer.responses ++ answer.trailer) ∧
      if answer.ends then Mute t w' else Speaking t w' := by
  unfold answerTo httpServeClient httpClientDataWith at *
  dsimp only
  by_cases hlong : bytes.length ≥ nginzMaxHttpMsgSize
  · rw [if_pos hlong, if_pos hlong]
    refine ⟨?_, dismiss_mute _⟩
    rw [dismiss_written]
    simp
  · rw [if_neg hlong] at hlen
    rw [if_neg hlong, if_neg hlong]
    obtain ⟨stale, hstorage⟩ := w.recvBuffer.terminated (Nat.not_le.mp hlong)
    rw [hstorage, httpUrlParse_terminated]
    have hspeaking : Speaking t
      { w with recvBuffer := (w.recvBuffer.recv bytes).terminate bytes.length } := h
    exact handle_answered L services hspeaking bytes hlen

/-- Only an answer that ends the connection has something behind it. -/
theorem answerTo_trailer {services : HttpServices} {bytes : Bytes}
    (h : (answerTo L services bytes).ends = false) : (answerTo L services bytes).trailer = [] := by
  unfold answerTo parsedAnswer urlAnswer at *
  split at h
  · exact absurd h (by simp)
  · rw [if_neg ‹_›]
    split at h
    · rw [if_pos ‹_›]
      split at h
      · exact absurd h (by simp)
      · rfl
    · rw [if_neg ‹_›]

theorem answerTo_ok (services : HttpServices) (bytes : Bytes) :
    (∀ f ∈ (answerTo L services bytes).responses, httpHeads.ok f.1) ∧
      parseHttpHead (answerTo L services bytes).trailer = none := by
  unfold answerTo parsedAnswer urlAnswer
  split
  · exact ⟨by simp, by decide⟩
  · split
    · split
      · refine ⟨fun f hf => ?_, by decide⟩
        rw [List.mem_singleton.mp hf]
        exact statusOk_ok
      · refine ⟨fun f hf => ?_, rfl⟩
        unfold HttpService.answer at hf
        dsimp only at hf
        split at hf
        · rw [List.mem_singleton.mp hf]
          exact statusNotFound_ok
        · obtain ⟨content, -, rfl⟩ := List.mem_map.mp hf
          exact statusOk_ok
    · exact ⟨by simp, by decide⟩

theorem conversation_ok (es : List ServeEvent) :
    (∀ f ∈ (conversation L t es).1, httpHeads.ok f.1) ∧
      parseHttpHead (conversation L t es).2 = none := by
  fun_induction conversation L t es with
  | case1 => exact ⟨by simp, by decide⟩
  | case2 bytes services es answer hends => exact answerTo_ok L services bytes
  | case3 bytes services es answer hstays rest ih =>
    refine ⟨fun f hf => ?_, ih.2⟩
    obtain hf | hf := List.mem_append.mp hf
    · exact (answerTo_ok L services bytes).1 f hf
    · exact ih.1 f hf
  | case4 u bytes services es hu ih => exact ih
  | case5 => exact ⟨by simp, by decide⟩
  | case6 u result services es _ hu ih => exact ih
  | case7 u fd es ih => exact ih

/-- A closed stream stays silent. -/
theorem mute_run {es : List ServeEvent} (hes : ∀ e ∈ es, Conversing L t e) (h : Mute t w) :
    writtenTo t (es.foldl (HttpWorker.serve L negative) w).log = writtenTo t w.log := by
  have hstep {u : ℕ} {w w' : HttpWorker} (hevent : Unheard t u w w') (h : Mute t w) :
      Mute t w' ∧ writtenTo t w'.log = writtenTo t w.log := by
    obtain ⟨hwritten, hmute⟩ := hevent.quiet fun _ => h
    refine ⟨?_, hwritten⟩
    by_cases hu : u = t
    · exact hmute hu
    · exact (mute_congr (hevent.others hu)).mpr h
  induction es generalizing w with
  | nil => rfl
  | cons e es ih =>
    obtain ⟨he, hrest⟩ := List.forall_mem_cons.mp hes
    obtain ⟨hmute, hwritten⟩ : Mute t (w.serve L negative e) ∧
        writtenTo t (w.serve L negative e).log = writtenTo t w.log := by
      cases e with
      | welcome u fd => exact hstep (.welcome L negative he w fd) h
      | clientData u result services => exact hstep (.client L negative services w result) h
    rw [List.foldl_cons, ih hrest hmute, hwritten]

/-- What is written to an open stream is the conversation. -/
theorem speaking_run {es : List ServeEvent} (hes : ∀ e ∈ es, Conversing L t e)
    (h : Speaking t w) :
    writtenTo t (es.foldl (HttpWorker.serve L negative) w).log = writtenTo t w.log ++
      (encode httpHeads.frame (conversation L t es).1 ++ (conversation L t es).2) := by
  have hother {u : ℕ} {w w' : HttpWorker} (hne : u ≠ t) (hevent : Unheard t u w w')
      (h : Speaking t w) : Speaking t w' ∧ writtenTo t w'.log = writtenTo t w.log :=
    ⟨(speaking_congr (hevent.others hne)).mpr h, (hevent.quiet fun he => absurd he hne).1⟩
  induction es generalizing w with
  | nil => simp [conversation]
  | cons e es ih =>
    obtain ⟨he, hrest⟩ := List.forall_mem_cons.mp hes
    rw [List.foldl_cons]
    cases e with
    | welcome u fd =>
      obtain ⟨hnext, hwritten⟩ := hother he (.welcome L negative he w fd) h
      rw [ih hrest hnext, hwritten, conversation]
    | clientData u result services =>
      by_cases hu : u = t
      · subst hu
        obtain ⟨hresult, hlen⟩ := he rfl
        cases result with
        | error => exact absurd rfl hresult
        | closed =>
          have hgone : w.serve L negative (.clientData u .closed services) = dismissHttp w u := rfl
          rw [hgone, mute_run L negative hrest (dismiss_mute w), dismiss_written]
          simp [conversation]
        | data bytes =>
          obtain ⟨hwritten, hnext⟩ := request_answered L negative services h (hlen bytes rfl)
          rw [HttpWorker.serve]
          cases hends : (answerTo L services bytes).ends with
          | true =>
            rw [hends, if_pos rfl] at hnext
            rw [mute_run L negative hrest hnext, hwritten]
            simp [conversation, hends]
          | false =>
            rw [hends, if_neg Bool.false_ne_true] at hnext
            rw [ih hrest hnext, hwritten, answerTo_trailer L hends]
            simp [conversation, hends, encode_append]
      · obtain ⟨hnext, hwritten⟩ := hother hu (.client L negative services w result) h
        have hskipped : conversation L t (.clientData u result services :: es) =
            conversation L t es := by
          cases result with
          | closed => simp [conversation, hu]
          | data bytes => simp [conversation, hu]
          | error => simp [conversation, hu]
        rw [HttpWorker.serve, ih hrest hnext, hwritten, hskipped]

/-- The bytes written to a client while its `recv`s succeed read as the conversation with it:
the responses to its requests in their order, each with the content that its plugin sent, and
behind them nothing, or the end of the test page. -/
theorem conversation_decoded {fd : ℤ} (h : w.Open t fd) {es : List ServeEvent}
    (hes : ∀ e ∈ es, Conversing L t e) : ∃ sent,
    writtenTo t (es.foldl (HttpWorker.serve L negative) w).log = writtenTo t w.log ++ sent ∧
      httpHeads.decode sent = conversation L t es := by
  obtain ⟨http, hhttp, rfl, hfd, hquit, hsoft⟩ := h
  have hspeaking : Speaking t w := ⟨http, hhttp, hfd, by rw [hquit, hsoft]; rfl⟩
  obtain ⟨hok, htrailer⟩ := conversation_ok L es (t := t)
  exact ⟨_, speaking_run L negative hes hspeaking, httpHeads.decode_encode hok htrailer⟩

end Run

/-- A page that is sent in two parts, and the test page behind it. -/
theorem conversation_decoded_pages :
    let pages : List ServeEvent := [.clientData 0 (.data pageRequest) fun _ _ =>
        ⟨[.send (lit "<html>"), .send []], 0, false, false⟩,
      .clientData 0 (.data (lit "GET / HTTP/1.1\r\n")) fun _ _ => ⟨[], 0, false, false⟩]
    ∃ sent, writtenTo 0 (pages.foldl (HttpWorker.serve .cutting some) welcomedWorker).log = sent ∧
      httpHeads.decode sent =
        ([(statusOk, lit "<html>"), (statusOk, []), (statusOk, lit "It Works!")], lit "\r\n") := by
  intro pages
  have hpages : ∀ e ∈ pages, Conversing .cutting 0 e := by
    intro e he
    simp only [pages, List.mem_cons, List.not_mem_nil, or_false] at he
    obtain rfl | rfl := he
    · refine fun _ => ⟨by simp, ?_⟩
      rintro bytes ⟨⟩
      decide +kernel
    · refine fun _ => ⟨by simp, ?_⟩
      rintro bytes ⟨⟩
      decide +kernel
  obtain ⟨sent, hsent, hdecode⟩ :=
    conversation_decoded .cutting some welcomedWorker_open hpages
  exact ⟨sent, hsent, hdecode.trans (by decide +kernel)⟩

end Nginz
