import Nginz.Chat.JoinHandOff
import Nginz.Http.Requests
import Nginz.Http.Tunnel
import Nginz.Lib.Decimal
import Nginz.Net.Delivery

/-! Requests of the web chat: the session id in front of what a client says, and the process
that it sends the request to. -/
namespace Nginz

/-- `HTTP_WEBCHAT_PLUG` and `NGINZ_HTTP_PORT`. -/
def httpWebchatPlug : Bytes := lit "http/webchat"
def nginzHttpPort : ℤ := 80

def nginzMaxWebchatSidSize : ℕ := 32

/-- What `http_webchat_get_sessionid` leaves in `sid`, `rest` and `pid`. -/
structure SessionRequest where
  sid : Bytes
  rest : Bytes
  pid : ℤ
  deriving DecidableEq, Repr

/-- Both texts are destroyed, and the pid is the initial one of `http_webchat_plug`. -/
def SessionRequest.new : SessionRequest := ⟨[], [], -1⟩

/-- `http_webchat_get_sessionid_trim_webchat_prefix`; the size of the plug counts the zero. -/
def httpWebchatTrimPrefix (sid : Bytes) : Bytes :=
  if sid.take httpWebchatPlug.length = httpWebchatPlug then sid.drop (httpWebchatPlug.length + 1)
  else sid

def httpWebchatGetSessionid (content : Bytes) : SessionRequest :=
  if content = [] then .new
  else
    let text := httpWebchatTrimPrefix content
    match strchr text 10 with
    | none => .new
    | some sidlen =>
      -- a zero ends the session id from here on, also for the search
      let sid := text.take sidlen
      match strchr sid 45 with
      | none => .new
      | some intlen => ⟨sid, text.drop (sidlen + 1), txtToInt (sid.take intlen)⟩

/-- The new session id of `web_session_alloc`. -/
def webSessionSid (L : TxtLib) (getpid rand : ℤ) : Bytes :=
  compose L nginzMaxWebchatSidSize [decimal getpid ++ 45 :: decimal rand]

/-- What the script of the chat page keeps of a response as the session id, and what it posts
with a text. -/
def pageSid (responseText : Bytes) : Bytes :=
  (if 10 ∈ responseText then responseText.takeWhile (· ≠ 10) else responseText.dropLast) ++ [10]

def pageSubmit (sid text : Bytes) : Bytes := sid ++ text ++ [10]

/-- What `http_webchat_plug` does with a request by the process id in it: it looks for the session
here, or `webchat_transfer_parallel` sends the request on. -/
inductive WebchatRoute where
  | serve (sid rest : Bytes)
  | transfer (destpid : ℤ) (cmd : Bytes)
  deriving DecidableEq, Repr

/-- The command of `webchat_transfer_parallel`. -/
def webchatTransferCmd (L : TxtLib) (sid rest : Bytes) : Bytes :=
  compose L 128 [httpWebchatPlug, [32], sid, [10], rest]

def webchatRoute (L : TxtLib) (getpid : ℤ) (content : Bytes) : WebchatRoute :=
  let request := httpWebchatGetSessionid content
  if request.pid ≠ -1 ∧ request.pid ≠ getpid then
    .transfer request.pid (webchatTransferCmd L request.sid request.rest)
  else .serve request.sid request.rest

/-- What `http_on_connection_bubble` does with a connection: close it, leave it as it is, or call
a plugin with the request as its content. -/
inductive HttpBubble where
  | closed
  | welcomed
  | called (space content : Bytes)
  deriving DecidableEq, Repr

def httpOnConnectionBubble (L : TxtLib) (request : Bytes) : HttpBubble :=
  let requestSandbox := compose L request.length [request]
  let space := (scannerNextToken requestSandbox).1
  if space = [] then .closed
  else if space = lit "http/welcome" then .welcomed
  else .called space request

/-- `on_raw_recv_socket` for the port of the HTTP module. -/
def httpArrival (L : TxtLib) (storage datagram : Bytes) : Option HttpBubble := do
  let port ← unpackedInt (receivedCommand storage datagram) 1
  guard (port = nginzHttpPort)
  let request ← unpackedString (receivedCommand storage datagram) 2
  return httpOnConnectionBubble L request

section Parse
variable {sid rest : Bytes}

theorem strchr_some {s : Bytes} {c : UInt8} {i : ℕ} (h : strchr s c = some i) :
    s = s.take i ++ c :: s.drop (i + 1) ∧ 0 ∉ s.take i ∧ c ∉ s.take i := by
  obtain ⟨hi, hat, hbefore⟩ := List.findIdx?_eq_some_iff_getElem.mp h
  have hlt := strchr_lt h
  have hfront : s.take i = (s.takeWhile fun b => decide (b ≠ 0)).take i := by
    obtain ⟨tail, htail⟩ := List.takeWhile_prefix (fun b => decide (b ≠ 0)) (l := s)
    nth_rewrite 1 [← htail]
    exact List.take_append_of_le_length hi.le
  have hc : s[i] = c := by
    have hget : (s.takeWhile fun b => decide (b ≠ 0))[i] = s[i] :=
      (List.takeWhile_prefix _).getElem hi
    rw [← hget]
    exact of_decide_eq_true hat
  refine ⟨?_, ?_, ?_⟩
  · rw [← hc, ← List.drop_eq_getElem_cons hlt, List.take_append_drop]
  · rw [hfront]
    intro h0
    have hpos := List.mem_takeWhile_imp (List.mem_of_mem_take h0)
    exact absurd hpos (by decide)
  · rw [hfront]
    intro hmem
    obtain ⟨j, hj, hget⟩ := List.mem_take_iff_getElem.mp hmem
    exact hbefore j (lt_of_lt_of_le hj (min_le_left _ _)) (decide_eq_true hget)

/-- A text is read as a request of a session if and only if it is a line with a dash and a rest,
perhaps behind the name of the plugin. -/
theorem getSessionid_iff {content : Bytes} (hsid : sid ≠ []) {pid : ℤ} :
    httpWebchatGetSessionid content = ⟨sid, rest, pid⟩ ↔
      httpWebchatTrimPrefix content = sid ++ 10 :: rest ∧ 0 ∉ sid ∧ 10 ∉ sid ∧
        ∃ n, strchr sid 45 = some n ∧ pid = txtToInt (sid.take n) := by
  have hnew : SessionRequest.new ≠ ⟨sid, rest, pid⟩ := fun h =>
    hsid (congrArg SessionRequest.sid h).symm
  unfold httpWebchatGetSessionid
  constructor
  · intro h
    split at h
    · exact absurd h hnew
    dsimp only at h
    split at h
    · exact absurd h hnew
    rename_i sidlen hline
    split at h
    · exact absurd h hnew
    rename_i intlen hdash
    obtain ⟨hsplit, h0, h10⟩ := strchr_some hline
    obtain ⟨rfl, rfl, rfl⟩ := SessionRequest.mk.inj h
    exact ⟨hsplit, h0, h10, intlen, hdash, rfl⟩
  · rintro ⟨htext, h0, h10, n, hdash, rfl⟩
    have hne : content ≠ [] := by
      rintro rfl
      simp [httpWebchatTrimPrefix] at htext
    rw [if_neg hne]
    dsimp only
    rw [htext, strchr_append (by decide) h0 h10]
    dsimp only
    rw [List.take_left, hdash]
    simp

theorem getSessionid_pid {content : Bytes} (hsid : sid ≠ []) {pid : ℤ}
    (h : httpWebchatGetSessionid content = ⟨sid, rest, pid⟩) : 0 ≤ pid := by
  obtain ⟨-, -, -, n, hdash, rfl⟩ := (getSessionid_iff hsid).mp h
  have hno := (strchr_some hdash).2.2
  unfold txtToInt
  dsimp only
  split
  · rename_i hminus
    exact absurd (hminus ▸ List.mem_cons_self) hno
  · exact Int.natCast_nonneg _

end Parse

section Route
variable (L : TxtLib) {storage : Bytes} {sid rest : Bytes} {pid : ℤ}

/-- The whole command of a transfer. -/
def webchatCommand (sid rest : Bytes) : Bytes := httpWebchatPlug ++ 32 :: (sid ++ 10 :: rest)

theorem transferCmd_flatten (sid rest : Bytes) :
    [httpWebchatPlug, [32], sid, [10], rest].flatten = webchatCommand sid rest := by
  simp [webchatCommand]

/-- A request that is sent on is read there as it was here. -/
theorem getSessionid_command (hsid : sid ≠ []) {content : Bytes}
    (h : httpWebchatGetSessionid content = ⟨sid, rest, pid⟩) :
    httpWebchatGetSessionid (webchatCommand sid rest) = ⟨sid, rest, pid⟩ := by
  obtain ⟨-, hline⟩ := (getSessionid_iff hsid).mp h
  refine (getSessionid_iff hsid).mpr ⟨?_, hline⟩
  unfold httpWebchatTrimPrefix webchatCommand
  rw [List.take_left, if_pos rfl, ← List.drop_drop, List.drop_left]
  rfl

/-- A text that is cut short is not read as the request. -/
theorem getSessionid_cut (hsid : sid ≠ []) (pid : ℤ) {cmd : Bytes} (hplug : httpWebchatPlug <+: cmd)
    {n : ℕ} (hn : n < (webchatCommand sid rest).length) :
    httpWebchatGetSessionid (cmd.take n) ≠ ⟨sid, rest, pid⟩ := by
  intro h
  obtain ⟨htrim, h0, h10, -⟩ := (getSessionid_iff hsid).mp h
  have hlen : (webchatCommand sid rest).length =
      httpWebchatPlug.length + 1 + (sid.length + 1 + rest.length) := by
    simp [webchatCommand]
    omega
  unfold httpWebchatTrimPrefix at htrim
  split at htrim
  · have hshort := congrArg List.length htrim
    simp only [List.length_drop, List.length_take, List.length_append, List.length_cons] at hshort
    omega
  · rename_i hother
    have hten : (10 : UInt8) ∈ cmd.take n := by
      rw [htrim]
      simp
    have hnone : (10 : UInt8) ∉ httpWebchatPlug := by decide
    obtain ⟨tail, rfl⟩ := hplug
    rcases le_total httpWebchatPlug.length n with hle | hle
    · refine hother ?_
      rw [List.take_take, min_eq_left hle, List.take_left]
    · rw [List.take_append_of_le_length hle] at hten
      exact hnone (List.mem_of_mem_take hten)

/-- The command is built whole if and only if it fits into its buffer; its plugin is at its front
in any case. -/
theorem transferCmd_cases (sid rest : Bytes) :
    httpWebchatPlug <+: webchatTransferCmd L sid rest ∧
      (webchatTransferCmd L sid rest).length ≤ L.room 128 ∧
      ((webchatCommand sid rest).length ≤ L.room 128 →
        webchatTransferCmd L sid rest = webchatCommand sid rest) := by
  have hbuffer := AroopTxt.buffer_wellFormed (L.room 128)
  refine ⟨compose_head L _ (by decide), ?_, fun hfits => ?_⟩
  · obtain ⟨hw, hc, -⟩ := foldl_concat L [httpWebchatPlug, [32], sid, [10], rest] hbuffer
    unfold webchatTransferCmd compose AroopTxt.stackbuffer
    rw [AroopTxt.content_length hw]
    unfold AroopTxt.WellFormed at hw
    rwa [hc, AroopTxt.buffer_capacity] at hw
  · unfold webchatTransferCmd compose AroopTxt.stackbuffer
    rw [foldl_concat_fits L hbuffer, transferCmd_flatten]
    · rfl
    · rwa [transferCmd_flatten, AroopTxt.buffer_len, zero_add, AroopTxt.buffer_capacity]

/-- The first word of a request names the plugin. -/
theorem httpOnConnectionBubble_word {space : Bytes} (hne : space ≠ [])
    (hword : ∀ x ∈ space, isSeparator x = false) (hother : space ≠ lit "http/welcome")
    (rest : Bytes) :
    httpOnConnectionBubble L (space ++ 32 :: rest) = .called space (space ++ 32 :: rest) := by
  have hfirst := scannerNextToken_word [] rest (by simp) hne hword
    (show isSeparator 32 = true by decide)
  have hspace : (scannerNextToken (space ++ 32 :: rest)).1 = space := congrArg Prod.fst hfirst
  unfold httpOnConnectionBubble
  dsimp only
  rw [compose_fits L (by simp), List.flatten_cons, List.flatten_nil, List.append_nil, hspace,
    if_neg hne, if_neg hother]

/-- What arrives of a request that is sent on: all of it if the receiver has room for the message,
and something else otherwise. -/
theorem webchat_arrival (hcap : L.room 255 < 65536) (hs : storage.length = L.room 128)
    (hs' : L.room 128 ≤ 255) (hsid : sid ≠ []) (rest : Bytes) (pid destpid : ℤ) : ∃ request,
    httpArrival L storage
        (transferDatagram L destpid nginzHttpPort (webchatTransferCmd L sid rest)) =
        some (httpOnConnectionBubble L request) ∧
      if packedLength (transferFields destpid nginzHttpPort (webchatCommand sid rest)) ≤
        storage.length then request = webchatCommand sid rest
      else httpWebchatGetSessionid request ≠ ⟨sid, rest, pid⟩ := by
  have hroom := L.le_room 128
  obtain ⟨hplug, hshort, hwhole⟩ := transferCmd_cases L sid rest
  have hport : (0 : ℤ) ≤ nginzHttpPort ∧ nginzHttpPort < 2 ^ 31 := by decide
  have harrived := transfer_delivered L hcap (hs ▸ hroom) hport.1 hport.2 destpid
    (webchatTransferCmd L sid rest)
  have hne : webchatTransferCmd L sid rest ≠ [] := by
    intro hnil
    rw [hnil, List.prefix_nil] at hplug
    exact absurd hplug (by decide)
  have hn := arrived_whole_iff L (hs.trans_le hs') destpid nginzHttpPort hne
  generalize arrivedLength L storage destpid nginzHttpPort (webchatTransferCmd L sid rest) = n at *
  refine ⟨(webchatTransferCmd L sid rest).take n,
    by simp [httpArrival, harrived.port, harrived.request], ?_⟩
  rw [packedLength_transferFields] at hn ⊢
  by_cases hfull : (webchatCommand sid rest).length ≤ L.room 128
  · rw [hwhole hfull] at hn hplug ⊢
    split
    · exact List.take_of_length_le (hn.mpr (by assumption))
    · exact getSessionid_cut hsid pid hplug (Nat.not_le.mp (mt hn.mp (by assumption)))
  · rw [if_neg (by omega)]
    have hcut := getSessionid_cut hsid pid hplug
      (show min n (webchatTransferCmd L sid rest).length <
        (webchatCommand sid rest).length by omega)
    rwa [← List.take_take, List.take_length] at hcut

end Route

section Page
variable (L : TxtLib) {pid number : ℕ}

theorem digits_short {n : ℕ} (h : n < 2 ^ 31) : (Decimal.digits n).length ≤ 10 :=
  Decimal.digits_length_le (by decide) (h.trans (by decide))

theorem webSessionSid_eq (hpid : pid < 2 ^ 31) (hnumber : number < 2 ^ 31) :
    webSessionSid L pid number = Decimal.digits pid ++ 45 :: Decimal.digits number := by
  have hshort := digits_short hpid
  have hshort' := digits_short hnumber
  unfold webSessionSid nginzMaxWebchatSidSize
  rw [decimal_eq_digits, decimal_eq_digits, compose_fits L]
  · simp
  · simp only [List.flatten_cons, List.flatten_nil, List.append_nil, List.length_append,
      List.length_cons]
    omega

theorem webSessionSid_length (hpid : pid < 2 ^ 31) (hnumber : number < 2 ^ 31) :
    (webSessionSid L pid number).length ≤ 21 := by
  have hshort := digits_short hpid
  have hshort' := digits_short hnumber
  rw [webSessionSid_eq L hpid hnumber, List.length_append, List.length_cons]
  omega

theorem not_mem_digits (n : ℕ) {c : UInt8} (hc : Decimal.isDigit c = false) :
    c ∉ Decimal.digits n := fun h => absurd (Decimal.isDigit_of_mem h) (by simp [hc])

/-- A session id is made of digits and a dash. -/
theorem not_mem_webSessionSid (hpid : pid < 2 ^ 31) (hnumber : number < 2 ^ 31) {c : UInt8}
    (hc : Decimal.isDigit c = false) (hdash : c ≠ 45) : c ∉ webSessionSid L pid number := by
  rw [webSessionSid_eq L hpid hnumber]
  simp [not_mem_digits pid hc, not_mem_digits number hc, hdash]

theorem txtToInt_digits (n : ℕ) : txtToInt (Decimal.digits n) = n := by
  have hread : (Decimal.read (Decimal.digits n) : ℤ) = n := by
    have hend : ∀ c ∈ ([] : Bytes).head?, Decimal.isDigit c = false := by simp
    have h := Decimal.read_digits hend n
    rw [List.append_nil] at h
    exact congrArg Nat.cast h
  unfold txtToInt
  dsimp only
  split
  · rename_i hminus
    have hdigit := Decimal.isDigit_of_mem (hminus ▸ List.mem_cons_self)
    exact absurd hdigit (by decide)
  · exact hread

theorem trimPrefix_other {c : UInt8} (hc : c ≠ 104) (text : Bytes) :
    httpWebchatTrimPrefix (c :: text) = c :: text := by
  refine if_neg fun h => hc ?_
  have hplug : httpWebchatPlug = 104 :: lit "ttp/webchat" := by decide
  rw [hplug, List.length_cons, List.take_succ_cons] at h
  exact (List.cons.inj h).1

/-- What a client posts behind a response of its session is read as a request of the session. -/
theorem page_request_read (hpid : pid < 2 ^ 31) (hnumber : number < 2 ^ 31) (said text : Bytes) :
    httpWebchatGetSessionid
      (pageSubmit (pageSid (webSessionSid L pid number ++ 10 :: said)) text) =
        ⟨webSessionSid L pid number, text ++ [10], pid⟩ := by
  have hnone {c : UInt8} (hc : Decimal.isDigit c = false) (hdash : c ≠ 45) :=
    not_mem_webSessionSid L hpid hnumber hc hdash
  rw [webSessionSid_eq L hpid hnumber] at hnone ⊢
  generalize hsid : Decimal.digits pid ++ 45 :: Decimal.digits number = sid at hnone ⊢
  have h10 : 10 ∉ sid := hnone (by decide) (by decide)
  have hposted : pageSubmit (pageSid (sid ++ 10 :: said)) text = sid ++ 10 :: (text ++ [10]) := by
    unfold pageSubmit pageSid
    rw [if_pos (by simp), List.takeWhile_append_of_pos (decide_ne_of_not_mem h10)]
    simp
  have hne : sid ≠ [] := by simp [← hsid]
  rw [hposted]
  refine (getSessionid_iff hne).mpr
    ⟨?_, hnone (by decide) (by decide), h10, (Decimal.digits pid).length, ?_, ?_⟩
  · obtain ⟨c, tail, htail⟩ := List.exists_cons_of_ne_nil hne
    rw [htail]
    refine trimPrefix_other ?_ _
    rintro rfl
    exact hnone (by decide) (by decide) (htail ▸ List.mem_cons_self)
  · rw [← hsid]
    exact strchr_append (by decide) (not_mem_digits pid (by decide))
      (not_mem_digits pid (by decide)) _
  · rw [← hsid, List.take_left, txtToInt_digits]

end Page
end Nginz
