import Nginz.Http.Parser
import Nginz.Lib.Lines

/-! What `http_url_parse` makes of a request: the request line, the headers up to the first
empty line, and the content behind them. -/
namespace Nginz

/-- `NGINZ_MAX_HTTP_MSG_SIZE`. -/
def nginzMaxHttpMsgSize : ℕ := 1024

/-- What `http->content` holds after the parse. -/
def HttpParsed.content (parsed : HttpParsed) (userData : Bytes) : Bytes :=
  match parsed.contentAt with
  | none => []
  | some at' => userData.drop at'

/-- The first line, without its end. -/
def requestLine (userData : Bytes) : Bytes := userData.takeWhile (· ≠ 10)

/-- What follows the first line. -/
def headers (userData : Bytes) : Bytes := (userData.dropWhile (· ≠ 10)).drop 1

/-- A line that ends the headers. -/
def EmptyLine (line : Bytes) : Prop := line = [] ∨ line = [13]

/-- A line that the parser takes for an empty one: at most four bytes with its end. -/
def ShortLine (line : Bytes) : Prop := line.length ≤ 3

instance : DecidablePred EmptyLine := fun _ => inferInstanceAs (Decidable (_ ∨ _))

instance : DecidablePred ShortLine := fun _ => inferInstanceAs (Decidable (_ ≤ _))

theorem EmptyLine.short {line : Bytes} (h : EmptyLine line) : ShortLine line := by
  rcases h with rfl | rfl
  · exact Nat.zero_le 3
  · exact Nat.succ_le_succ (Nat.zero_le 2)

/-- The text behind the first line that `stop` accepts, and nothing if there is none. -/
def behindLine (stop : Bytes → Prop) [DecidablePred stop] (text : Bytes) : Bytes :=
  ((Lines.search 10 stop text).map Prod.snd).getD []

/-- The parse of a request as the protocol has it: accepted with a complete request line of
at least two spaces, with the URL between them and the content behind the empty line. -/
structure SplitsRequest (userData : Bytes) : Prop where
  accepted : (httpUrlParse userData).ret = 0 ↔
    10 ∈ userData ∧ 2 ≤ (requestLine userData).count 32
  url : 10 ∈ userData → 2 ≤ (requestLine userData).count 32 →
    ∃ method version, 32 ∉ method ∧ 32 ∉ (httpUrlParse userData).targetUrl.content ∧
      requestLine userData =
        method ++ 32 :: ((httpUrlParse userData).targetUrl.content ++ 32 :: version)
  content : 10 ∈ userData → 2 ≤ (requestLine userData).count 32 →
    (httpUrlParse userData).content userData = behindLine EmptyLine (headers userData)

section Strchr
variable {s line rest : Bytes} {c : UInt8}

theorem strchr_eq_none (h : c ∉ s) : strchr s c = none := by
  rw [strchr, List.findIdx?_eq_none_iff]
  intro b hb
  have hbs : b ∈ s := List.takeWhile_subset _ hb
  exact decide_eq_false fun hbc => h (hbc ▸ hbs)

theorem decide_ne_of_not_mem (h : c ∉ s) : ∀ b ∈ s, decide (b ≠ c) = true := by
  intro b hb
  exact decide_eq_true fun hbc => h (hbc ▸ hb)

theorem strchr_append (hc : c ≠ 0) (h0 : 0 ∉ line) (h : c ∉ line) (rest : Bytes) :
    strchr (line ++ c :: rest) c = some line.length := by
  have hfirst : line.findIdx? (fun b => decide (b = c)) = none := by
    rw [List.findIdx?_eq_none_iff]
    intro b hb
    exact decide_eq_false fun hbc => h (hbc ▸ hb)
  have htake : (line ++ c :: rest).takeWhile (fun b => decide (b ≠ 0)) =
      line ++ c :: rest.takeWhile (fun b => decide (b ≠ 0)) := by
    rw [List.takeWhile_append_of_pos (decide_ne_of_not_mem h0), List.takeWhile_cons,
      if_pos (decide_eq_true hc)]
  rw [strchr, htake, List.findIdx?_append, hfirst, List.findIdx?_cons]
  simp

/-- What is behind the terminator of a text plays no part. -/
theorem strchr_terminated (s stale : Bytes) (c : UInt8) :
    strchr (s ++ 0 :: stale) c = strchr s c := by
  have htake : (s ++ 0 :: stale).takeWhile (fun b => decide (b ≠ 0)) =
      s.takeWhile (fun b => decide (b ≠ 0)) := by
    induction s with
    | nil => rfl
    | cons b s ih =>
      rw [List.cons_append, List.takeWhile_cons, List.takeWhile_cons, ih]
  rw [strchr, htake]
  rfl

theorem strchr_lt {i : ℕ} (h : strchr s c = some i) : i < s.length := by
  obtain ⟨hi, -⟩ := List.findIdx?_eq_some_iff_getElem.mp h
  exact lt_of_lt_of_le hi (List.takeWhile_prefix _).length_le

end Strchr

section RequestLine
variable {userData line rest : Bytes}

theorem requestLine_append (h : 10 ∉ line) (rest : Bytes) :
    requestLine (line ++ 10 :: rest) = line := by
  rw [requestLine, List.takeWhile_append_of_pos (decide_ne_of_not_mem h)]
  simp

theorem headers_append (h : 10 ∉ line) (rest : Bytes) : headers (line ++ 10 :: rest) = rest := by
  rw [headers, List.dropWhile_append_of_pos (decide_ne_of_not_mem h)]
  simp

/-- A line with two spaces, cut at the first two. -/
theorem exists_two_spaces (h : 2 ≤ line.count 32) :
    ∃ method url version, line = method ++ 32 :: (url ++ 32 :: version) ∧
      32 ∉ method ∧ 32 ∉ url := by
  have hmem : (32 : UInt8) ∈ line := List.count_pos_iff.mp (by omega)
  obtain ⟨method, behind, rfl, hmethod⟩ := List.eq_append_cons_of_mem hmem
  rw [List.count_append, List.count_eq_zero_of_not_mem hmethod, List.count_cons_self] at h
  have hmem' : (32 : UInt8) ∈ behind := List.count_pos_iff.mp (by omega)
  obtain ⟨url, version, rfl, hurl⟩ := List.eq_append_cons_of_mem hmem'
  exact ⟨method, url, version, rfl, hmethod, hurl⟩

theorem requestUrl_eq_none (h0 : 0 ∉ line) (h : line.count 32 < 2) : requestUrl line = none := by
  by_cases hmem : (32 : UInt8) ∈ line
  · obtain ⟨method, behind, rfl, hmethod⟩ := List.eq_append_cons_of_mem hmem
    rw [List.count_append, List.count_eq_zero_of_not_mem hmethod, List.count_cons_self] at h
    have hbehind : (32 : UInt8) ∉ behind := List.count_eq_zero.mp (by omega)
    have h0' : (0 : UInt8) ∉ method := fun hm => h0 (List.mem_append_left _ hm)
    rw [requestUrl, strchr_append (by decide) h0' hmethod]
    simp [strchr_eq_none hbehind]
  · rw [requestUrl, strchr_eq_none hmem]
    rfl

theorem requestUrl_eq_some {method url : Bytes} (version : Bytes) (h0 : 0 ∉ method)
    (h0' : 0 ∉ url) (hmethod : 32 ∉ method) (hurl : 32 ∉ url) :
    requestUrl (method ++ 32 :: (url ++ 32 :: version)) =
      some ⟨url ++ 32 :: version ++ [0], url.length⟩ := by
  rw [requestUrl, strchr_append (by decide) h0 hmethod]
  simp [strchr_append (by decide) h0' hurl]

end RequestLine

/-- Behind the request line the parser stops at the first short line. -/
theorem httpHeaderLoop_headers (userData : Bytes) (url : AroopTxt) (text : Bytes)
    (fuel pos : ℕ) (hpos : userData.drop pos = text) (h0 : 0 ∉ text) (hfuel : text.length < fuel) :
    let parsed := httpHeaderLoop userData fuel pos (some url)
    parsed.ret = 0 ∧ parsed.targetUrl = url ∧
      parsed.content userData = behindLine ShortLine text := by
  induction text using Lines.byLines (10 : UInt8) generalizing fuel pos with
  | tail tail htail =>
    obtain ⟨fuel, rfl⟩ := Nat.exists_eq_add_one_of_ne_zero (Nat.ne_zero_of_lt hfuel)
    rw [httpHeaderLoop, hpos, strchr_eq_none htail, behindLine, Lines.search_tail htail]
    exact ⟨rfl, rfl, rfl⟩
  | line line rest hline ih =>
    obtain ⟨fuel, rfl⟩ := Nat.exists_eq_add_one_of_ne_zero (Nat.ne_zero_of_lt hfuel)
    have hline0 : (0 : UInt8) ∉ line := fun h => h0 (List.mem_append_left _ h)
    have hrest0 : (0 : UInt8) ∉ rest := fun h =>
      h0 (List.mem_append_right _ (List.mem_cons_of_mem _ h))
    have hnext : userData.drop (pos + (line.length + 1)) = rest := by
      rw [← List.drop_drop, hpos, ← List.drop_drop, List.drop_left]
      rfl
    rw [httpHeaderLoop, hpos, strchr_append (by decide) hline0 hline, behindLine,
      Lines.search_line hline]
    dsimp only
    by_cases hshort : ShortLine line
    · have hlen : line.length + 1 ≤ 4 := Nat.succ_le_succ hshort
      rw [if_pos hlen, if_pos hshort]
      exact ⟨rfl, rfl, hnext⟩
    · have hlen : ¬ line.length + 1 ≤ 4 := fun h => hshort (Nat.le_of_succ_le_succ h)
      rw [if_neg hlen, if_neg hshort]
      rw [List.length_append, List.length_cons] at hfuel
      exact ih fuel _ hnext hrest0 (by omega)

section Parse
variable {userData line rest : Bytes}

/-- Without a complete line the parser falls through to success. -/
theorem httpUrlParse_tail (h : 10 ∉ userData) : httpUrlParse userData = ⟨0, .empty, none⟩ := by
  rw [httpUrlParse, httpHeaderLoop, List.drop_zero, strchr_eq_none h]
  rfl

theorem httpUrlParse_line (h0 : 0 ∉ line) (hline : 10 ∉ line)
    (hsize : line.length < nginzMaxHttpHeaderSize) (rest : Bytes) :
    httpUrlParse (line ++ 10 :: rest) =
      match requestUrl (line ++ [10]) with
      | none => .failed
      | some url =>
        httpHeaderLoop (line ++ 10 :: rest) (line ++ 10 :: rest).length (line.length + 1)
          (some url) := by
  have htake : (line ++ 10 :: rest).take (line.length + 1) = line ++ [10] := by
    rw [List.take_append, List.take_of_length_le (Nat.le_succ _)]
    simp
  have hlen : ¬ line.length + 1 > nginzMaxHttpHeaderSize := by omega
  rw [httpUrlParse, httpHeaderLoop, List.drop_zero, strchr_append (by decide) h0 hline]
  cases hurl : requestUrl (line ++ [10]) with
  | none => simp only [if_neg hlen, htake, hurl]
  | some url => simp only [if_neg hlen, htake, Nat.zero_add, hurl]

/-- A request line with fewer than two spaces is refused. -/
theorem httpUrlParse_refused (h0 : 0 ∉ line) (hline : 10 ∉ line)
    (hsize : line.length < nginzMaxHttpHeaderSize) (h : line.count 32 < 2) (rest : Bytes) :
    httpUrlParse (line ++ 10 :: rest) = .failed := by
  have h0' : (0 : UInt8) ∉ line ++ [10] := by simp [h0]
  have h' : (line ++ [10]).count (32 : UInt8) < 2 := by
    rw [List.count_append]
    exact h
  rw [httpUrlParse_line h0 hline hsize, requestUrl_eq_none h0' h']

/-- A request line with two spaces is accepted, whatever follows it. -/
theorem httpUrlParse_accepted (h0 : 0 ∉ line ++ 10 :: rest) (hline : 10 ∉ line)
    (hsize : line.length < nginzMaxHttpHeaderSize) (h : 2 ≤ line.count 32) :
    let parsed := httpUrlParse (line ++ 10 :: rest)
    parsed.ret = 0 ∧
      (∃ method version, 32 ∉ method ∧ 32 ∉ parsed.targetUrl.content ∧
        line = method ++ 32 :: (parsed.targetUrl.content ++ 32 :: version)) ∧
      parsed.content (line ++ 10 :: rest) = behindLine ShortLine rest := by
  obtain ⟨method, url, version, rfl, hmethod, hurl⟩ := exists_two_spaces h
  have hline0 : (0 : UInt8) ∉ method ++ 32 :: (url ++ 32 :: version) :=
    fun hm => h0 (List.mem_append_left _ hm)
  have hmethod0 : (0 : UInt8) ∉ method := fun hm => hline0 (List.mem_append_left _ hm)
  have hurl0 : (0 : UInt8) ∉ url := fun hm => hline0 (by simp [hm])
  have hrest0 : (0 : UInt8) ∉ rest := fun hm => h0 (by simp [hm])
  have htarget : requestUrl (method ++ 32 :: (url ++ 32 :: version) ++ [10]) =
      some ⟨url ++ 32 :: (version ++ [10]) ++ [0], url.length⟩ := by
    rw [← requestUrl_eq_some (version ++ [10]) hmethod0 hurl0 hmethod hurl]
    simp
  have hcontent : (AroopTxt.mk (url ++ 32 :: (version ++ [10]) ++ [0]) url.length).content =
      url := by
    simp [AroopTxt.content]
  have hdrop : (method ++ 32 :: (url ++ 32 :: version) ++ 10 :: rest).drop
      ((method ++ 32 :: (url ++ 32 :: version)).length + 1) = rest := by
    rw [← List.drop_drop, List.drop_left]
    rfl
  have hloop := httpHeaderLoop_headers (method ++ 32 :: (url ++ 32 :: version) ++ 10 :: rest)
    ⟨url ++ 32 :: (version ++ [10]) ++ [0], url.length⟩ rest
    (method ++ 32 :: (url ++ 32 :: version) ++ 10 :: rest).length _ hdrop hrest0 (by simp; omega)
  rw [httpUrlParse_line hline0 hline hsize, htarget]
  obtain ⟨hret, htgt, hcon⟩ := hloop
  dsimp only
  rw [htgt, hcontent]
  exact ⟨hret, ⟨method, version, hmethod, hurl, rfl⟩, hcon⟩

end Parse

section Terminated
variable {userData : Bytes} (stale : Bytes)

/-- The loop reads nothing behind the terminator, and any bound on its rounds will do. -/
theorem httpHeaderLoop_terminated {fuel fuel' pos : ℕ} (target : Option AroopTxt)
    (hpos : pos ≤ userData.length) (hfuel : userData.length < pos + fuel)
    (hfuel' : userData.length < pos + fuel') :
    httpHeaderLoop (userData ++ 0 :: stale) fuel pos target =
      httpHeaderLoop userData fuel' pos target := by
  induction fuel generalizing fuel' pos target with
  | zero => omega
  | succ fuel ih =>
    obtain ⟨fuel', rfl⟩ : ∃ n, fuel' = n + 1 := Nat.exists_eq_add_one_of_ne_zero (by omega)
    have hdrop : (userData ++ 0 :: stale).drop pos = userData.drop pos ++ 0 :: stale :=
      List.drop_append_of_le_length hpos
    rw [httpHeaderLoop, httpHeaderLoop, hdrop, strchr_terminated]
    cases hline : strchr (userData.drop pos) 10 with
    | none => rfl
    | some nl =>
      have hlt := strchr_lt hline
      rw [List.length_drop] at hlt
      have htake : (userData.drop pos ++ 0 :: stale).take (nl + 1) =
          (userData.drop pos).take (nl + 1) := by
        apply List.take_append_of_le_length
        rw [List.length_drop]
        omega
      have hnext (target : Option AroopTxt) :
          httpHeaderLoop (userData ++ 0 :: stale) fuel (pos + (nl + 1)) target =
            httpHeaderLoop userData fuel' (pos + (nl + 1)) target :=
        ih target (by omega) (by omega) (by omega)
      dsimp only
      rw [htake]
      cases target with
      | none =>
        dsimp only
        split
        · rfl
        · cases requestUrl ((userData.drop pos).take (nl + 1)) with
          | none => rfl
          | some url => exact hnext (some url)
      | some url =>
        dsimp only
        split
        · rfl
        · exact hnext (some url)

theorem httpUrlParse_terminated :
    httpUrlParse (userData ++ 0 :: stale) = httpUrlParse userData := by
  apply httpHeaderLoop_terminated
  · exact Nat.zero_le _
  · rw [List.length_append]
    omega
  · omega

end Terminated

theorem behindLine_length (stop : Bytes → Prop) [DecidablePred stop] {text : Bytes}
    (h : text ≠ []) : (behindLine stop text).length < text.length := by
  unfold behindLine
  cases hs : Lines.search 10 stop text with
  | none => exact List.length_pos_iff.mpr h
  | some found => exact Lines.search_length hs

/-- The short lines stand in for the empty ones exactly when the first of them is empty or
nothing follows it. -/
theorem behindLine_short_iff (text : Bytes) :
    behindLine ShortLine text = behindLine EmptyLine text ↔
      ∀ found ∈ Lines.search 10 ShortLine text, EmptyLine found.1 ∨ found.2 = [] := by
  have himp : ∀ line, EmptyLine line → ShortLine line := fun _ => EmptyLine.short
  have h := Lines.search_of_imp 10 himp text
  unfold behindLine
  cases hs : Lines.search 10 ShortLine text with
  | none =>
    rw [hs] at h
    rw [h]
    simp
  | some found =>
    obtain ⟨line, rest⟩ := found
    rw [hs] at h
    rw [h]
    by_cases he : EmptyLine line
    · simp [he]
    · rw [if_neg he]
      change rest = behindLine EmptyLine rest ↔ _
      constructor
      · intro heq found hfound
        obtain rfl := Option.some.inj hfound
        refine .inr (Classical.byContradiction fun hrest => ?_)
        have hlt := behindLine_length EmptyLine hrest
        rw [← heq] at hlt
        exact lt_irrefl _ hlt
      · intro hall
        rcases hall (line, rest) rfl with hempty | hrest
        · exact absurd hempty he
        · change rest = [] at hrest
          rw [hrest]
          rfl

/-- A request without a zero byte is parsed as the protocol has it exactly when it has a
complete line and its first short header line, if the request line is accepted, is empty or
the last thing in it. -/
theorem url_parse_splits_iff (userData : Bytes) (h0 : 0 ∉ userData)
    (hsize : userData.length < nginzMaxHttpMsgSize) :
    SplitsRequest userData ↔
      10 ∈ userData ∧ (2 ≤ (requestLine userData).count 32 →
        ∀ found ∈ Lines.search 10 ShortLine (headers userData),
          EmptyLine found.1 ∨ found.2 = []) := by
  by_cases hmem : (10 : UInt8) ∈ userData
  · obtain ⟨line, rest, rfl, hline⟩ := List.eq_append_cons_of_mem hmem
    have h0' : (0 : UInt8) ∉ line := fun hm => h0 (List.mem_append_left _ hm)
    have hsize' : line.length < nginzMaxHttpHeaderSize := by
      rw [List.length_append] at hsize
      exact lt_of_le_of_lt (Nat.le_add_right _ _) hsize
    rw [headers_append hline, requestLine_append hline, ← behindLine_short_iff]
    by_cases hspaces : 2 ≤ line.count 32
    · obtain ⟨hret, hurl, hcontent⟩ := httpUrlParse_accepted h0 hline hsize' hspaces
      constructor
      · intro h
        refine ⟨hmem, fun _ => ?_⟩
        rw [← hcontent, h.content hmem (by rwa [requestLine_append hline]), headers_append hline]
      · intro h
        constructor
        · rw [requestLine_append hline]
          exact ⟨fun _ => ⟨hmem, hspaces⟩, fun _ => hret⟩
        · intro _ _
          rw [requestLine_append hline]
          exact hurl
        · intro _ _
          rw [headers_append hline, hcontent, h.2 hspaces]
    · have hfailed := httpUrlParse_refused h0' hline hsize' (by omega) rest
      constructor
      · intro _
        exact ⟨hmem, fun h => absurd h hspaces⟩
      · intro _
        constructor
        · rw [requestLine_append hline, hfailed]
          exact ⟨fun h => absurd h (by decide), fun h => absurd h.2 hspaces⟩
        · intro _ h
          rw [requestLine_append hline] at h
          exact absurd h hspaces
        · intro _ h
          rw [requestLine_append hline] at h
          exact absurd h hspaces
  · constructor
    · intro h
      have hret : (httpUrlParse userData).ret = 0 := by
        rw [httpUrlParse_tail hmem]
      exact absurd (h.accepted.mp hret).1 hmem
    · intro h
      exact absurd h.1 hmem

theorem url_parse_splits_iff_pagechat :
    SplitsRequest (lit "GET /pagechat HTTP/1.1\r\nHost: a\r\n\r\nnick=b") ↔
      10 ∈ lit "GET /pagechat HTTP/1.1\r\nHost: a\r\n\r\nnick=b" ∧
      (2 ≤ (requestLine (lit "GET /pagechat HTTP/1.1\r\nHost: a\r\n\r\nnick=b")).count 32 →
        ∀ found ∈ Lines.search 10 ShortLine
            (headers (lit "GET /pagechat HTTP/1.1\r\nHost: a\r\n\r\nnick=b")),
          EmptyLine found.1 ∨ found.2 = []) :=
  url_parse_splits_iff _ (by decide +kernel) (by decide +kernel)

/-- A request line without its end is accepted, with an empty URL; and a header line of three
bytes ends the headers, so that the content starts with the header line behind it. -/
theorem url_parse_missplits :
    let cut := lit "GET /pagechat"
    let short := lit "GET /pagechat HTTP/1.1\r\nA:\r\nHost: a\r\n\r\nnick=b"
    ((httpUrlParse cut).ret = 0 ∧ ¬ SplitsRequest cut) ∧
    ((httpUrlParse short).content short = lit "Host: a\r\n\r\nnick=b" ∧
      behindLine EmptyLine (headers short) = lit "nick=b" ∧ ¬ SplitsRequest short) := by
  have hshort : ¬ SplitsRequest
      (lit "GET /pagechat HTTP/1.1\r\nA:\r\nHost: a\r\n\r\nnick=b") := by
    intro h
    exact absurd (h.content (by decide +kernel) (by decide +kernel)) (by decide +kernel)
  have hcut : ¬ SplitsRequest (lit "GET /pagechat") := by
    intro h
    exact absurd (h.accepted.mp (by decide +kernel)).1 (by decide +kernel)
  exact ⟨⟨by decide +kernel, hcut⟩, by decide +kernel, by decide +kernel, hshort⟩

end Nginz
