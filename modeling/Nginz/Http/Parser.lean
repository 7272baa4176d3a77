import Nginz.AroopTxt

/-! The request parser of the HTTP module: the URL of the request line, the content behind
the headers, and the dispatch of the URL to a plugin space. -/
namespace Nginz

/-- `NGINZ_MAX_HTTP_HEADER_SIZE`. -/
def nginzMaxHttpHeaderSize : ℕ := 1024

/-- The index of the first `c` in a string that ends at its first zero byte. -/
def strchr (s : Bytes) (c : UInt8) : Option ℕ :=
  (s.takeWhile (· ≠ 0)).findIdx? (· = c)

/-- The return code of `http_url_parse`, the URL it leaves in `target_url`, and the offset
of the content in the user data. -/
structure HttpParsed where
  ret : ℤ
  targetUrl : AroopTxt
  contentAt : Option ℕ
  deriving DecidableEq, Repr

def HttpParsed.failed : HttpParsed := ⟨-1, .empty, none⟩

/-- The URL in the buffer that holds the request line and a terminating zero. -/
def requestUrl (line : Bytes) : Option AroopTxt := do
  let sp ← strchr line 32
  let url := line.drop (sp + 1)
  let sp' ← strchr url 32
  return ⟨url ++ [0], sp'⟩

/-- The loop over the lines from offset `pos` on, with the URL once the request line has
been read. -/
def httpHeaderLoop (userData : Bytes) : ℕ → ℕ → Option AroopTxt → HttpParsed
  | 0, _, target => ⟨0, target.getD .empty, none⟩
  | fuel + 1, pos, target =>
    match strchr (userData.drop pos) 10 with
    | none => ⟨0, target.getD .empty, none⟩
    | some nl =>
      let headerLen := nl + 1
      match target with
      | none =>
        if headerLen > nginzMaxHttpHeaderSize then .failed
        else
          match requestUrl ((userData.drop pos).take headerLen) with
          | none => .failed
          | some url => httpHeaderLoop userData fuel (pos + headerLen) (some url)
      | some url =>
        if headerLen ≤ 4 then ⟨0, url, some (pos + headerLen)⟩
        else httpHeaderLoop userData fuel (pos + headerLen) (some url)

/-- Every round consumes a byte, so the length of the data bounds the rounds. -/
def httpUrlParse (userData : Bytes) : HttpParsed :=
  httpHeaderLoop userData (userData.length + 1) 0 none

/-- `http_url_go`: the test page, or a bridge call on a plugin space. -/
inductive UrlOutcome where
  | testAndClose
  | bridgeCall (space : Bytes)
  deriving DecidableEq, Repr

def urlSpace (L : TxtLib) (target : AroopTxt) : Bytes :=
  let space := (AroopTxt.stackbuffer L (target.len + 32)).concat L (lit "http")
  let space := if target.charAt L 0 ≠ 47 then space.concatChar L 47 else space
  (space.concat L target.content).content

def httpUrlGo (L : TxtLib) (target : AroopTxt) : UrlOutcome :=
  if target.isEmpty || target.len == 1 then .testAndClose
  else
    let space := urlSpace L target
    if target.charAt L 5 = 95 then .testAndClose else .bridgeCall space

/-- The plugin spaces that are not for clients. -/
def HiddenUrlSpace (space : Bytes) : Prop := lit "http/_" <+: space

instance (space : Bytes) : Decidable (HiddenUrlSpace space) :=
  inferInstanceAs (Decidable (_ <+: _))

/-- The space of a URL: a slash is put in front of the URL unless it starts with one. -/
def spaceOfUrl (url : Bytes) : Bytes :=
  lit "http" ++ if url.head? = some 47 then url else 47 :: url

theorem urlSpace_eq (L : TxtLib) {target : AroopTxt} (hw : target.WellFormed)
    (hl : 2 ≤ target.len) : urlSpace L target = spaceOfUrl target.content := by
  have hlen := AroopTxt.content_length hw
  have hroom := L.le_room (target.len + 32)
  have hlit : (lit "http").length = 4 := by decide
  have h0 : (AroopTxt.stackbuffer L (target.len + 32)).WellFormed := AroopTxt.buffer_wellFormed _
  have hc0 : (AroopTxt.stackbuffer L (target.len + 32)).capacity = L.room (target.len + 32) :=
    AroopTxt.buffer_capacity _
  have hf0 : (AroopTxt.stackbuffer L (target.len + 32)).len + (lit "http").length ≤
      (AroopTxt.stackbuffer L (target.len + 32)).capacity := by
    rw [hc0, hlit]
    change 0 + 4 ≤ _
    omega
  have hw1 := AroopTxt.concat_wellFormed L (x := lit "http") h0
  have hc1 := AroopTxt.concat_capacity L (x := lit "http") h0
  have hl1 : ((AroopTxt.stackbuffer L (target.len + 32)).concat L (lit "http")).len = 4 := by
    rw [AroopTxt.concat_len L hf0, hlit]; rfl
  have hcon : ((AroopTxt.stackbuffer L (target.len + 32)).concat L (lit "http")).content =
      lit "http" := by
    rw [AroopTxt.concat_content L h0 hf0]; rfl
  have hhead : target.content.head? = some (target.charAt L 0) := by
    have hlt : 0 < target.content.length := by omega
    have h0lt : 0 < target.len := by omega
    rw [AroopTxt.charAt, if_pos h0lt, AroopTxt.rawAt, List.head?_eq_getElem?]
    unfold AroopTxt.content at hlt ⊢
    rw [List.getElem?_take_of_lt h0lt, List.getD_eq_getElem?_getD]
    have hm : 0 < target.mem.length := by
      rw [List.length_take] at hlt
      omega
    rw [List.getElem?_eq_getElem hm, Option.getD_some]
  unfold urlSpace
  by_cases hs : target.charAt L 0 = 47
  · simp only [hs, ne_eq, not_true_eq_false, ↓reduceIte]
    rw [AroopTxt.concat_content L hw1 (by rw [hl1, hc1, hc0]; omega), hcon, spaceOfUrl, hhead, hs,
      if_pos rfl]
  · have hw2 := AroopTxt.concat_wellFormed L (x := [47]) hw1
    have hf1 : ((AroopTxt.stackbuffer L (target.len + 32)).concat L (lit "http")).len +
        [(47 : UInt8)].length ≤
        ((AroopTxt.stackbuffer L (target.len + 32)).concat L (lit "http")).capacity := by
      rw [hl1, hc1, hc0, List.length_singleton]
      omega
    have hl2 := AroopTxt.concat_len L hf1
    have hc2 := AroopTxt.concat_capacity L (x := [47]) hw1
    rw [hl1, List.length_singleton] at hl2
    simp only [hs, ne_eq, not_false_eq_true, ↓reduceIte, AroopTxt.concatChar]
    rw [AroopTxt.concat_content L hw2 (by rw [hl2, hc2, hc1, hc0]; omega),
      AroopTxt.concat_content L hw1 hf1, hcon, spaceOfUrl, hhead,
      if_neg (by rw [Option.some.injEq]; exact hs)]
    simp

/-- A space is hidden when its URL starts with an underscore, with or without a slash
before it. -/
theorem hiddenUrlSpace_iff (url : Bytes) :
    HiddenUrlSpace (spaceOfUrl url) ↔ [95] <+: url ∨ [47, 95] <+: url := by
  have hlit : lit "http/_" = lit "http" ++ [47, 95] := by decide
  rw [HiddenUrlSpace, spaceOfUrl, hlit, List.prefix_append_right_inj]
  cases url with
  | nil => simp
  | cons c url =>
    by_cases hc : c = 47
    · subst hc
      simp [List.cons_prefix_cons]
    · have hc' : ¬ 47 = c := fun h => hc h.symm
      simp [List.cons_prefix_cons, hc, hc']

/-- A URL is dispatched exactly when its space is not hidden, for the URLs on which the
byte at index 5 tells what the byte behind the optional slash tells. -/
theorem http_url_go_guard_iff (L : TxtLib) {target : AroopTxt} (hw : target.WellFormed)
    (hl : 2 ≤ target.len) :
    (httpUrlGo L target = .bridgeCall (spaceOfUrl target.content) ↔
        ¬ HiddenUrlSpace (spaceOfUrl target.content)) ↔
      (target.charAt L 5 = 95 ↔ [95] <+: target.content ∨ [47, 95] <+: target.content) := by
  have hne : (target.isEmpty || target.len == 1) = false := by
    rw [AroopTxt.isEmpty, Bool.or_eq_false_iff, beq_eq_false_iff_ne, beq_eq_false_iff_ne]
    omega
  rw [← hiddenUrlSpace_iff, httpUrlGo, hne, urlSpace_eq L hw hl]
  by_cases h5 : target.charAt L 5 = 95
  · simp [h5]
  · simp [h5]

theorem http_url_go_guard_iff_pagechat :
    (httpUrlGo .cutting (.ofBytes (lit "/pagechat")) = .bridgeCall (spaceOfUrl (lit "/pagechat")) ↔
        ¬ HiddenUrlSpace (spaceOfUrl (lit "/pagechat"))) ↔
      ((AroopTxt.ofBytes (lit "/pagechat")).charAt .cutting 5 = 95 ↔
        [95] <+: lit "/pagechat" ∨ [47, 95] <+: lit "/pagechat") := by
  have h := http_url_go_guard_iff .cutting (AroopTxt.ofBytes_wellFormed (lit "/pagechat"))
    (by decide)
  rwa [AroopTxt.content_ofBytes] at h

/-- Without a leading slash the hidden session transfer is dispatched, and a page whose
name has an underscore at index 5 is refused. -/
theorem http_url_go_misjudges :
    let hidden := (httpUrlParse (lit "GET _web_session_transfer HTTP/1.1\r\n")).targetUrl
    let page := (httpUrlParse (lit "GET /user_list HTTP/1.1\r\n")).targetUrl
    (hidden.content = lit "_web_session_transfer" ∧
      httpUrlGo .cutting hidden = .bridgeCall (lit "http/_web_session_transfer") ∧
      HiddenUrlSpace (lit "http/_web_session_transfer")) ∧
    (page.content = lit "/user_list" ∧ httpUrlGo .cutting page = .testAndClose ∧
      ¬ HiddenUrlSpace (lit "http/user_list")) := by
  decide +kernel

end Nginz
