import Nginz.Http.ClientData
import Nginz.Lib.Announced
import Nginz.Lib.Decimal
import Nginz.Chat.Keys

/-! What HTTP clients are sent: the responses of the tunnel that the plugins send through, and
those that the parser sends itself. -/
namespace Nginz
open Announced Framing

/-- `HTTP_OK` without the name of the length field, and the same of the other response. -/
def statusOk : Bytes := lit "HTTP/1.0 200 OK\r\n"
def statusNotFound : Bytes := lit "HTTP/1.0 404 NOT FOUND\r\n"

def httpOk : Bytes := statusOk ++ lit "Content-Length: "

theorem decimal_eq_digits (n : ℕ) : decimal n = Decimal.digits n := by
  unfold decimal Decimal.digits
  rw [if_neg (by omega), List.nil_append, Int.natAbs_natCast]
  simp only [Nat.cast_eq_zero]

/-- What `http_tunnel_send_content` prints in `send_buf`. -/
def tunnelSendBuf (L : TxtLib) (content : Bytes) : Bytes :=
  compose L nginzMaxHttpMsgSize [decimal content.length ++ lit "\r\n\r\n"]

/-- `http_tunnel_send_content`; no content is an empty one. -/
def httpTunnelSendContent (L : TxtLib) (w : HttpWorker) (t : ℕ) (content : Bytes) : HttpWorker :=
  let w := httpStreamioSend w t httpOk
  let w := httpStreamioSend w t (tunnelSendBuf L content)
  if content ≠ [] then httpStreamioSend w t content else w

/-- What a plugin does with the stream of a connection. -/
inductive HttpAct where
  | send (content : Bytes)
  | close
  deriving DecidableEq, Repr

/-- What a plugin does on a call, its return code, and the flags it sets. -/
structure HttpService where
  acts : List HttpAct
  ret : ℤ
  quit : Bool
  softQuit : Bool
  deriving DecidableEq, Repr

abbrev HttpServices := Bytes → Bytes → HttpService

def httpAct (L : TxtLib) (t : ℕ) (w : HttpWorker) : HttpAct → HttpWorker
  | .send content => httpTunnelSendContent L w t content
  | .close => defaultHttpClose w t

/-- The tunnel sets `is_processed`. -/
def HttpService.isProcessed (service : HttpService) : Bool := service.acts.any (· ≠ .close)

/-- `http_url_go` with all that its plugin does. -/
def httpRequestServe (L : TxtLib) (services : HttpServices) (w : HttpWorker) (t : ℕ)
    (target : AroopTxt) : HttpWorker × ℤ :=
  match httpUrlGo L target with
  | .testAndClose => httpResponseTestAndClose w t
  | .bridgeCall space =>
    let content := (w.connection t).content
    let service := services space content
    let w := w.emit (.dispatch t space content)
    let w := service.acts.foldl (httpAct L t) w
    let w := w.setConnection t fun http =>
      { http with quit := http.quit || service.quit, softQuit := http.softQuit || service.softQuit }
    let w :=
      if !service.isProcessed then
        httpStreamioSend w t (lit "HTTP/1.0 404 NOT FOUND\r\nContent-Length: 9\r\n\r\nNot Found")
      else w
    (w, service.ret)

/-- `http_on_client_data` behind `recv`, over any `http_url_go`. -/
def httpHandleWith (go : HttpWorker → AroopTxt → HttpWorker × ℤ) (w : HttpWorker) (t : ℕ)
    (userData : Bytes) (parsed : HttpParsed) : HttpWorker × ℤ :=
  let w := w.setConnection t fun http => { http with content := parsed.content userData }
  let (w, response) := if parsed.ret = 0 then go w parsed.targetUrl else (w, parsed.ret)
  let w := w.setConnection t fun http => { http with content := [] }
  if (w.connection t).quit || (w.connection t).softQuit then (dismissHttp w t, response)
  else (w, response)

/-- `http_on_client_data` over any `http_url_go`. -/
def httpClientDataWith (go : HttpWorker → AroopTxt → HttpWorker × ℤ) (negative : NegativeLength)
    (w : HttpWorker) (t : ℕ) : RecvResult → HttpWorker × ℤ
  | .closed => (dismissHttp w t, -1)
  | .data bytes =>
    let w := { w with recvBuffer := w.recvBuffer.recv bytes }
    if bytes.length ≥ nginzMaxHttpMsgSize then (dismissHttp w t, -1)
    else
      let w := { w with recvBuffer := w.recvBuffer.terminate bytes.length }
      httpHandleWith go w t bytes (httpUrlParse w.recvBuffer.storage)
  | .error =>
    match negative w.recvBuffer.storage with
    | none => ({ w with crashed := true }, -1)
    | some text => httpHandleWith go w t text (httpUrlParse text)

/-- Over the plain `http_url_go` it is `http_on_client_data`. -/
theorem httpOnClientData_eq (L : TxtLib) (negative : NegativeLength) (plugins : HttpPlugins)
    (w : HttpWorker) (t : ℕ) (result : RecvResult) :
    httpOnClientData L negative plugins w t result =
      httpClientDataWith (fun w => httpRequestGo L plugins w t) negative w t result := by
  cases result with
  | closed => rfl
  | data bytes => rfl
  | error => rfl

/-- `http_on_client_data` with all that the plugins do. -/
def httpServeClient (L : TxtLib) (negative : NegativeLength) (services : HttpServices)
    (w : HttpWorker) (t : ℕ) (result : RecvResult) : HttpWorker :=
  (httpClientDataWith (fun w => httpRequestServe L services w t) negative w t result).1

/-! ### The heads of responses -/

/-- How a client reads the head of a response: a status line, then the length field alone. -/
def parseHttpHead (s : Bytes) : Option (Bytes × ℕ × Bytes) :=
  let fields := (s.dropWhile (· ≠ 10)).drop 1
  if lit "Content-Length: " <+: fields then
    let number := fields.drop (lit "Content-Length: ").length
    let rest := number.dropWhile Decimal.isDigit
    if lit "\r\n\r\n" <+: rest then
      some (s.takeWhile (· ≠ 10) ++ [10], Decimal.read number, rest.drop (lit "\r\n\r\n").length)
    else none
  else none

/-- The heads of HTTP responses. -/
def httpHeads : Heads Bytes UInt8 where
  ok status := ∃ line, 10 ∉ line ∧ status = line ++ [10]
  head status n := status ++ lit "Content-Length: " ++ Decimal.digits n ++ lit "\r\n\r\n"
  parse := parseHttpHead
  parse_head := by
    rintro _ ⟨line, hline, rfl⟩ n rest
    have hs : line ++ [10] ++ lit "Content-Length: " ++ Decimal.digits n ++ lit "\r\n\r\n" ++
        rest = line ++ 10 ::
          (lit "Content-Length: " ++ (Decimal.digits n ++ (lit "\r\n\r\n" ++ rest))) := by
      simp only [List.append_assoc, List.cons_append, List.nil_append]
    have hnot : ∀ c ∈ line, decide (c ≠ 10) = true := by
      intro c hc
      exact decide_eq_true fun he => hline (he ▸ hc)
    have hstop : ∀ c ∈ (lit "\r\n\r\n" ++ rest).head?, Decimal.isDigit c = false := by
      intro c hc
      have hc : c = 13 := by simpa [lit, eq_comm] using hc
      rw [hc]
      decide
    unfold parseHttpHead
    rw [hs, List.dropWhile_append_of_pos hnot, List.takeWhile_append_of_pos hnot]
    simp only [ne_eq, not_true_eq_false, decide_false, Bool.false_eq_true, not_false_eq_true,
      List.dropWhile_cons_of_neg, List.takeWhile_cons_of_neg, List.drop_succ_cons, List.drop_zero,
      List.append_nil, List.prefix_append, ↓reduceIte, List.drop_left]
    rw [Decimal.dropWhile_digits hstop, Decimal.read_digits hstop]
    simp
  parse_shorter := by
    intro s k n rest h
    unfold parseHttpHead at h
    simp only [Option.ite_none_right_eq_some, Option.some.injEq, Prod.mk.injEq] at h
    obtain ⟨hfield, hend, -, -, rfl⟩ := h
    have hfour : (lit "\r\n\r\n").length = 4 := by decide
    have hlong := hend.length_le
    have hnumber := (List.dropWhile_sublist Decimal.isDigit
      (l := ((s.dropWhile (· ≠ 10)).drop 1).drop (lit "Content-Length: ").length)).length_le
    have hline := (List.dropWhile_sublist (· ≠ 10) (l := s)).length_le
    simp only [List.length_drop] at hnumber ⊢
    omega

theorem statusOk_ok : httpHeads.ok statusOk :=
  ⟨lit "HTTP/1.0 200 OK\r", by decide, by decide⟩

theorem statusNotFound_ok : httpHeads.ok statusNotFound :=
  ⟨lit "HTTP/1.0 404 NOT FOUND\r", by decide, by decide⟩

end Nginz
