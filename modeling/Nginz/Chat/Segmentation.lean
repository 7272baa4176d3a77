import Nginz.Chat.Segments
import Nginz.Lib.Transition

/-! Whether the way a client's bytes are cut into chunks shows in what its worker does. -/
namespace Nginz
open Cuts (IsCut)

/-- A line of a client, with its end. -/
structure IsLine (line : Bytes) : Prop where
  terminated : ∃ body, (10 : UInt8) ∉ body ∧ line = body ++ [10]
  below : line.length < nginzMaxChatMsgSize

/-- Every two ways of cutting the stream lead to the same. -/
def SegmentationFree (W : World) (w : Worker) (fd : ℤ) (t : ℕ) (stream : Bytes) : Prop :=
  ∀ cut cut', IsCut nginzMaxChatMsgSize stream cut → IsCut nginzMaxChatMsgSize stream cut' →
    (converse W w fd t cut).observe t = (converse W w fd t cut').observe t

section Free
variable {W : World} {w : Worker} {fd : ℤ} {t : ℕ} {stream : Bytes}
  (h : SegmentationFree W w fd t stream)
  {cut cut' : List Bytes} (hcut : IsCut nginzMaxChatMsgSize stream cut)
  (hcut' : IsCut nginzMaxChatMsgSize stream cut')
include h hcut hcut'

theorem SegmentationFree.requests_eq : (cut.foldl (Conversation.receive W fd t) ⟨w, []⟩).requests =
    (cut'.foldl (Conversation.receive W fd t) ⟨w, []⟩).requests :=
  congrArg Observation.requests (h cut cut' hcut hcut')

theorem SegmentationFree.sends_eq : (cut.foldl (Conversation.receive W fd t) ⟨w, []⟩).worker.sends =
    (cut'.foldl (Conversation.receive W fd t) ⟨w, []⟩).worker.sends :=
  congrArg Observation.sends (h cut cut' hcut hcut')

end Free

/-- However the stream is cut, its first `n + 1` chunks are empty lines, and the last of their
refusals fails. -/
structure RefusedAnyway (W : World) (w : Worker) (t : ℕ) (c : ChatConnection) (stream : Bytes)
    (n : ℕ) : Prop where
  fails : RefusalFails W w t c n
  newlines : ∀ b ∈ stream.take ((n + 1) * (nginzMaxChatMsgSize - 1)), b = 10
  longer : n * (nginzMaxChatMsgSize - 1) < stream.length

/-! ### Conversations -/

section Runs
variable {W : World} {w : Worker} {fd : ℤ} {t : ℕ} {rs : List ClientRequest}

theorem receive_enabled {s : Conversation} (hreg : (fd, t) ∈ s.worker.eventLoop) (chunk : Bytes) :
    s.receive W fd t chunk = ⟨onClientData W s.worker fd t (.data chunk),
      s.requests ++ (requestOf s.worker t chunk).toList⟩ := by
  have henabled : s.worker.Enabled (.clientData fd t (.data chunk)) := hreg
  unfold Conversation.receive Worker.on
  dsimp only
  rw [if_pos henabled, if_pos henabled]

theorem receive_gone {s : Conversation} (hgone : (fd, t) ∉ s.worker.eventLoop) (chunk : Bytes) :
    s.receive W fd t chunk = s := by
  have hdisabled : ¬ s.worker.Enabled (.clientData fd t (.data chunk)) := hgone
  unfold Conversation.receive Worker.on
  dsimp only
  rw [if_neg hdisabled, if_neg hdisabled]

theorem heard_gone {s : Conversation} (hgone : (fd, t) ∉ s.worker.eventLoop) (chunks : List Bytes) :
    chunks.foldl (Conversation.receive W fd t) s = s := by
  induction chunks with
  | nil => rfl
  | cons chunk chunks ih =>
    rw [List.foldl_cons, receive_gone hgone]
    exact ih

theorem heard_cons (hreg : (fd, t) ∈ w.eventLoop) (chunk : Bytes) (chunks : List Bytes) :
    (chunk :: chunks).foldl (Conversation.receive W fd t) ⟨w, rs⟩ =
      chunks.foldl (Conversation.receive W fd t)
        ⟨onClientData W w fd t (.data chunk), rs ++ (requestOf w t chunk).toList⟩ := by
  rw [List.foldl_cons, receive_enabled hreg]

theorem heard_grows (s : Conversation) (chunks : List Bytes) :
    s.requests <+: (chunks.foldl (Conversation.receive W fd t) s).requests ∧
      s.worker.sends <+: (chunks.foldl (Conversation.receive W fd t) s).worker.sends := by
  refine Transition.run_invariant (P := fun s' : Conversation =>
    s.requests <+: s'.requests ∧ s.worker.sends <+: s'.worker.sends) ?_
    ⟨List.prefix_rfl, List.prefix_rfl⟩ chunks
  intro s' chunk hs
  by_cases hreg : (fd, t) ∈ s'.worker.eventLoop
  · rw [receive_enabled hreg]
    exact ⟨hs.1.trans (List.prefix_append _ _), hs.2.trans (onClientData_sends W _ t fd _)⟩
  · rw [receive_gone hreg]
    exact hs

/-- A worker that is quitting reads nothing. -/
theorem heard_quiting (hq : w.quiting = true) (chunks : List Bytes) :
    chunks.foldl (Conversation.receive W fd t) ⟨w, rs⟩ = ⟨w, rs⟩ := by
  induction chunks with
  | nil => rfl
  | cons chunk chunks ih =>
    by_cases hreg : (fd, t) ∈ w.eventLoop
    · have hnothing : onClientData W w fd t (.data chunk) = w := by
        unfold onClientData
        rw [hq]
        rfl
      have hnone : requestOf w t chunk = none := by
        unfold requestOf
        rw [hq]
        rfl
      rw [heard_cons hreg, hnothing, hnone, Option.toList_none, List.append_nil]
      exact ih
    · exact heard_gone hreg _

/-- A client that is about to leave is gone at its first byte. -/
theorem heard_leaving {c : ChatConnection} (h : Talking w fd t c) (hq : w.quiting = false)
    (hleaving : w.leaving t = true) (chunk : Bytes) (chunks : List Bytes) :
    (chunk :: chunks).foldl (Conversation.receive W fd t) ⟨w, rs⟩ =
      ⟨oppUnref W (closeClient W w t) t, rs⟩ := by
  have hstate : ((w.chat t).state.quit || (w.chat t).state.softQuit) = true := hleaving
  have hclosed : onClientData W w fd t (.data chunk) = oppUnref W (closeClient W w t) t := by
    unfold onClientData
    rw [hq, if_neg (by decide), if_pos hstate]
  have hnone : requestOf w t chunk = none := by
    unfold requestOf
    rw [hq, Bool.false_or, if_pos hstate]
  rw [heard_cons h.registered, hclosed, hnone, Option.toList_none, List.append_nil]
  exact heard_gone ((parting_unref W _ t).stays_gone (h.closed W).1) chunks

/-- A chunk that ends inside a line is the last one that is delivered. -/
theorem heard_unterminated (rs : List ClientRequest) {c : ChatConnection} (h : Answering w fd t c)
    {chunk : Bytes} (hne : chunk ≠ []) (hlast : chunk.getLast? ≠ some 10)
    (hbelow : chunk.length < nginzMaxChatMsgSize)
    (chunks : List Bytes) :
    ((chunk :: chunks).foldl (Conversation.receive W fd t) ⟨w, rs⟩).requests = rs ∧
      Parting w ((chunk :: chunks).foldl (Conversation.receive W fd t) ⟨w, rs⟩).worker := by
  obtain ⟨hparting, hgone⟩ := h.unterminated hbelow hne hlast (W := W)
  have hnone : requestOf w t chunk = none := by rw [h.requestOf_eq hbelow, if_neg hlast]
  rw [heard_cons h.registered, hnone, Option.toList_none, List.append_nil]
  rw [heard_gone (by exact hgone)]
  exact ⟨rfl, hparting⟩

/-- A line that is handed on is the first request of what follows. -/
theorem heard_handed (rs : List ClientRequest) {c : ChatConnection} (h : Answering w fd t c)
    {chunk : Bytes} (hlast : chunk.getLast? = some 10) (hbelow : chunk.length < nginzMaxChatMsgSize)
    {r : ClientRequest} (hr : handedOn w t chunk = some r) (chunks : List Bytes) :
    rs ++ [r] <+: ((chunk :: chunks).foldl (Conversation.receive W fd t) ⟨w, rs⟩).requests := by
  have hsome : requestOf w t chunk = some r := by rw [h.requestOf_eq hbelow, if_pos hlast, hr]
  rw [heard_cons h.registered, hsome]
  exact (heard_grows ⟨onClientData W w fd t (.data chunk), rs ++ [r]⟩ chunks).1

/-- A line that nobody takes leaves its refusal in the record. -/
theorem heard_refused (rs : List ClientRequest) {c : ChatConnection} (h : Answering w fd t c)
    {chunk : Bytes} (hlast : chunk.getLast? = some 10) (hbelow : chunk.length < nginzMaxChatMsgSize)
    (hnone : handedOn w t chunk = none) (chunks : List Bytes) :
    w.sends ++ [(t, cannotProcess)] <+:
      ((chunk :: chunks).foldl (Conversation.receive W fd t) ⟨w, rs⟩).worker.sends := by
  rw [heard_cons h.registered]
  refine (h.refusal_sent (W := W) hbelow hlast hnone).trans ?_
  exact (heard_grows ⟨onClientData W w fd t (.data chunk), _⟩ chunks).2

theorem Parting.no_refusal {w' : Worker} (h : Parting w w') :
    ¬ w.sends ++ [(t, cannotProcess)] <+: w'.sends := by
  obtain ⟨byes, hbyes, hall⟩ := h.byes
  rw [hbyes, List.prefix_append_right_inj]
  intro hfirst
  have hbye : byePrefix <+: cannotProcess :=
    hall (t, cannotProcess) (hfirst.subset List.mem_cons_self)
  exact absurd hbye (by decide)

end Runs

/-! ### Empty lines -/

/-- The first chunk of a stream that starts with empty lines. -/
theorem emptyLines_first {n : ℕ} {stream chunk : Bytes} {chunks : List Bytes}
    (hcut : IsCut nginzMaxChatMsgSize stream (chunk :: chunks))
    (hnew : ∀ b ∈ stream.take n, b = 10) (hn : nginzMaxChatMsgSize - 1 ≤ n) : EmptyLines chunk := by
  obtain ⟨hne, hbelow, -, htake⟩ := hcut.first
  refine ⟨hne, fun b hb => hnew b ?_, hbelow⟩
  rw [htake] at hb
  exact List.take_subset_take_left stream (by omega) hb

namespace Refusing
variable {W : World} {w : Worker} {fd : ℤ} {t : ℕ} {c : ChatConnection}

theorem heard_next (h : Refusing w fd t c) (hok : ¬ RefusalFails W w t c 0) {chunk : Bytes}
    (he : EmptyLines chunk) (rs : List ClientRequest) (chunks : List Bytes) :
    (chunk :: chunks).foldl (Conversation.receive W fd t) ⟨w, rs⟩ =
      chunks.foldl (Conversation.receive W fd t) ⟨w.refusing fd t, rs⟩ := by
  rw [heard_cons h.registered, (h.goes_on hok he).1, h.requestOf_none he, Option.toList_none,
    List.append_nil]

theorem refusing_fails (w : Worker) (n : ℕ) :
    RefusalFails W (w.refusing fd t) t c n ↔ RefusalFails W w t c (n + 1) := by
  have hlen : (w.refusing fd t).fdLog.length + n = w.fdLog.length + (n + 1) := by
    show (w.fdLog ++ [_]).length + n = _
    rw [List.length_append, List.length_singleton]
    omega
  unfold RefusalFails
  rw [hlen]

/-- Empty lines whose refusals go out leave nothing but the refusals. -/
theorem heard_all (h : Refusing w fd t c) (chunks : List Bytes)
    (hchunks : ∀ chunk ∈ chunks, EmptyLines chunk)
    (hok : ∀ n < chunks.length, ¬ RefusalFails W w t c n) (rs : List ClientRequest) :
    ∃ w', (∀ rest, (chunks ++ rest).foldl (Conversation.receive W fd t) ⟨w, rs⟩ =
        rest.foldl (Conversation.receive W fd t) ⟨w', rs⟩) ∧ Refusing w' fd t c ∧
      w'.sends = w.sends ++ List.replicate chunks.length (t, cannotProcess) := by
  induction chunks generalizing w with
  | nil => exact ⟨w, fun rest => rfl, h, by simp⟩
  | cons chunk chunks ih =>
    have hfirst := hok 0 (Nat.zero_lt_succ _)
    have he := hchunks chunk List.mem_cons_self
    obtain ⟨w', hheard, h', hsends⟩ := ih (h.goes_on hfirst he).2
      (fun x hx => hchunks x (List.mem_cons_of_mem chunk hx))
      fun n hn hfails => hok (n + 1) (Nat.succ_lt_succ hn) ((refusing_fails w n).mp hfails)
    refine ⟨w', fun rest => ?_, h', ?_⟩
    · rw [List.cons_append, h.heard_next hfirst he]
      exact hheard rest
    · rw [hsends]
      show w.sends ++ [_] ++ _ = _
      rw [List.append_assoc, List.length_cons, List.replicate_succ]
      rfl

theorem heard_last (h : Refusing w fd t c) (hfails : RefusalFails W w t c 0) :
    ∃ v, ∀ chunk chunks rs, EmptyLines chunk →
      (chunk :: chunks).foldl (Conversation.receive W fd t) ⟨w, rs⟩ = ⟨v, rs⟩ := by
  obtain ⟨v, hgone, hv⟩ := h.ends hfails
  refine ⟨v, fun chunk chunks rs he => ?_⟩
  rw [heard_cons h.registered, hv chunk he, h.requestOf_none he, Option.toList_none,
    List.append_nil]
  exact heard_gone hgone chunks

/-- A stream that is refused anyway leads to the same however it is cut. -/
theorem heard_anyway {n : ℕ} (h : Refusing w fd t c) (hfails : RefusalFails W w t c n) :
    ∃ v, ∀ stream cut rs, (∀ b ∈ stream.take ((n + 1) * (nginzMaxChatMsgSize - 1)), b = 10) →
      n * (nginzMaxChatMsgSize - 1) < stream.length → IsCut nginzMaxChatMsgSize stream cut →
        cut.foldl (Conversation.receive W fd t) ⟨w, rs⟩ = ⟨v, rs⟩ := by
  have hcons {stream : Bytes} {cut : List Bytes} {m : ℕ} (hlong : m < stream.length)
      (hcut : IsCut nginzMaxChatMsgSize stream cut) : ∃ chunk chunks, cut = chunk :: chunks :=
    List.exists_cons_of_ne_nil (hcut.ne_nil (List.ne_nil_of_length_pos (by omega)))
  induction n generalizing w with
  | zero =>
    obtain ⟨v, hv⟩ := h.heard_last hfails
    refine ⟨v, fun stream cut rs hnew hlong hcut => ?_⟩
    obtain ⟨chunk, chunks, rfl⟩ := hcons hlong hcut
    exact hv chunk chunks rs (emptyLines_first hcut hnew
      (Nat.le_mul_of_pos_left _ (Nat.succ_pos _)))
  | succ n ih =>
    by_cases hfirst : RefusalFails W w t c 0
    · obtain ⟨v, hv⟩ := h.heard_last hfirst
      refine ⟨v, fun stream cut rs hnew hlong hcut => ?_⟩
      obtain ⟨chunk, chunks, rfl⟩ := hcons hlong hcut
      exact hv chunk chunks rs (emptyLines_first hcut hnew
        (Nat.le_mul_of_pos_left _ (Nat.succ_pos _)))
    · have hblank : EmptyLines [10] := ⟨by simp, by simp, by decide⟩
      obtain ⟨v, hv⟩ := ih (h.goes_on hfirst hblank).2 ((refusing_fails w n).mpr hfails)
      refine ⟨v, fun stream cut rs hnew hlong hcut => ?_⟩
      obtain ⟨chunk, chunks, rfl⟩ := hcons hlong hcut
      have he := emptyLines_first hcut hnew (Nat.le_mul_of_pos_left _ (Nat.succ_pos _))
      obtain ⟨-, hbelow, hrest, -⟩ := hcut.first
      rw [h.heard_next hfirst he]
      refine hv (stream.drop chunk.length) chunks rs (fun b hb => hnew b ?_) ?_ hrest
      · rw [List.take_drop] at hb
        exact List.take_subset_take_left stream (by rw [Nat.succ_mul (n + 1)]; omega)
          (List.mem_of_mem_drop hb)
      · rw [List.length_drop]
        rw [Nat.succ_mul] at hlong
        omega

/-- Empty lines that can arrive in few chunks and one by one are told apart by the number of
refusals, unless one of the refusals fails. -/
theorem not_free (h : Refusing w fd t c) {stream : Bytes} (chunks rest : List Bytes)
    (hchunks : ∀ chunk ∈ chunks, EmptyLines chunk)
    (hok : ∀ n < chunks.length, ¬ RefusalFails W w t c n)
    (hcut : IsCut nginzMaxChatMsgSize stream (chunks ++ rest))
    (hrest : ∀ w', Refusing w' fd t c →
      Parting w' (rest.foldl (Conversation.receive W fd t) ⟨w', []⟩).worker)
    (hnew : stream.take (chunks.length + 1) = List.replicate (chunks.length + 1) 10) :
    ¬ SegmentationFree W w fd t stream := by
  intro hfree
  have hblank : EmptyLines [10] := ⟨by simp, by simp, by decide⟩
  obtain ⟨w', hheard, h', hsends⟩ := h.heard_all chunks hchunks hok []
  obtain ⟨v, hheard', hv, hsends'⟩ := h.heard_all (List.replicate chunks.length [10])
    (fun x hx => by rwa [List.eq_of_mem_replicate hx])
    (fun n hn => hok n (by rwa [List.length_replicate] at hn)) []
  have hsingles : stream.map (fun b => [b]) = List.replicate chunks.length [10] ++
      [10] :: (stream.drop (chunks.length + 1)).map fun b => [b] := by
    conv_lhs => rw [← List.take_append_drop (chunks.length + 1) stream, hnew]
    rw [List.map_append, List.map_replicate, List.replicate_succ', List.append_assoc]
    rfl
  have hcut' := IsCut.singles (n := nginzMaxChatMsgSize) (by decide) stream
  rw [hsingles] at hcut'
  have hsame := hfree.sends_eq hcut hcut'
  rw [hheard, hheard'] at hsame
  have hmore := heard_refused (W := W) [] hv.toAnswering hblank.ends.2 hblank.below
    (hv.handedOn_none hblank.ends.1) ((stream.drop (chunks.length + 1)).map fun b => [b])
  rw [List.length_replicate] at hsends'
  rw [hsends', ← hsends, ← hsame] at hmore
  exact (hrest w' h').no_refusal hmore

end Refusing

namespace Answering
variable {W : World} {w : Worker} {fd : ℤ} {t : ℕ} {c : ChatConnection} (h : Answering w fd t c)
include h

/-- A first line with something in it can be cut behind its first byte. -/
theorem first_empty {body rest : Bytes} (hbody : (10 : UInt8) ∉ body)
    (hbelow : (body ++ [10]).length < nginzMaxChatMsgSize)
    (hfree : SegmentationFree W w fd t (body ++ [10] ++ rest)) : body = [] := by
  have hsingles (text : Bytes) := IsCut.singles (n := nginzMaxChatMsgSize) (by decide) text
  cases body with
  | nil => rfl
  | cons b bs =>
    exfalso
    have hb : [b].getLast? ≠ some 10 := by
      intro he
      obtain rfl := Option.some.inj he
      exact hbody List.mem_cons_self
    have hone : [b].length < nginzMaxChatMsgSize := (by decide : 1 < nginzMaxChatMsgSize)
    have hlast : (b :: bs ++ [10]).getLast? = some 10 := List.getLast?_concat ..
    have hwhole := IsCut.cons (by simp) hbelow (hsingles rest)
    have hcut := IsCut.cons (List.cons_ne_nil b []) hone (hsingles (bs ++ [10] ++ rest))
    obtain ⟨hnone, hparting⟩ := heard_unterminated (W := W) [] h (List.cons_ne_nil b []) hb hone
      ((bs ++ [10] ++ rest).map fun x => [x])
    cases hr : handedOn w t (b :: bs ++ [10]) with
    | none =>
      have hrefused := heard_refused (W := W) [] h hlast hbelow hr (rest.map fun x => [x])
      rw [hfree.sends_eq hwhole hcut] at hrefused
      exact hparting.no_refusal hrefused
    | some r =>
      have hhanded := heard_handed (W := W) [] h hlast hbelow hr (rest.map fun x => [x])
      rw [hfree.requests_eq hwhole hcut, hnone] at hhanded
      simp at hhanded

/-- An empty line that somebody waits for can be merged with what follows. -/
theorem silent {x : UInt8} {rest : Bytes} (hfree : SegmentationFree W w fd t (10 :: x :: rest)) :
    c.onResponseCallback = none := by
  have hsingles (text : Bytes) := IsCut.singles (n := nginzMaxChatMsgSize) (by decide) text
  have htwo : [10, x].length < nginzMaxChatMsgSize := (by decide : 2 < nginzMaxChatMsgSize)
  cases hcallback : c.onResponseCallback with
  | none => rfl
  | some callback =>
    exfalso
    have hresponse (line : Bytes) (hhead : line.head? = some 10) :
        handedOn w t line = some (.response callback line) := by
      unfold handedOn
      rw [hhead, w.chat_of_some t h.slot, hcallback, if_neg (by simp)]
      rfl
    have hcut := IsCut.cons (List.cons_ne_nil 10 []) (by decide) (hsingles (x :: rest))
    have hmerged := IsCut.cons (List.cons_ne_nil 10 [x]) htwo (hsingles rest)
    have hone : ([10] : Bytes).getLast? = some 10 := rfl
    have hfirst := heard_handed (W := W) [] h hone (by decide) (hresponse [10] rfl)
      ((x :: rest).map fun b => [b])
    rw [hfree.requests_eq hcut hmerged] at hfirst
    by_cases hx : x = 10
    · subst hx
      have hlast : ([10, 10] : Bytes).getLast? = some 10 := rfl
      have hboth := heard_handed (W := W) [] h hlast htwo (hresponse [10, 10] rfl)
        (rest.map fun b => [b])
      have hsame := List.prefix_of_prefix_length_le hfirst hboth le_rfl
      simp at hsame
    · have hlast : [10, x].getLast? ≠ some 10 := fun he => hx (Option.some.inj he)
      obtain ⟨hnone, -⟩ := heard_unterminated (W := W) [] h (List.cons_ne_nil 10 [x]) hlast htwo
        (rest.map fun b => [b])
      rw [hnone] at hfirst
      simp at hfirst

end Answering

/-- A stream that starts with an empty line nobody waits for is cut in vain only when its
refusals end the client anyway. -/
theorem Refusing.refused_anyway {W : World} {w : Worker} {fd : ℤ} {t : ℕ} {c : ChatConnection}
    (h : Refusing w fd t c) {stream : Bytes} (hstream : stream.head? = some 10)
    (hlong : 2 ≤ stream.length)
    (hfree : SegmentationFree W w fd t stream) : ∃ n, RefusedAnyway W w t c stream n := by
  have hok (n : ℕ) (hnew : ∀ b ∈ stream.take ((n + 1) * 254), b = 10)
    (hlong : n * 254 < stream.length)
      (hnot : ¬ ∃ n, RefusedAnyway W w t c stream n) : ¬ RefusalFails W w t c n :=
    fun hfails => hnot ⟨n, hfails, hnew, hlong⟩
  have hblank {k : ℕ} (hpos : 0 < k) (hk : k < nginzMaxChatMsgSize) :
      EmptyLines (List.replicate k 10) :=
    ⟨by simp [hpos.ne'], fun b hb => List.eq_of_mem_replicate hb, by rwa [List.length_replicate]⟩
  by_contra hnot
  obtain ⟨j, tail, rfl, htail⟩ := Cuts.leading_run 10 stream
  cases tail with
  | nil =>
    -- nothing but empty lines: as few chunks as possible against one line at a time
    rw [List.append_nil] at hlong hok hfree hnot
    rw [List.length_replicate] at hlong hok
    obtain ⟨k, r, hj, hr⟩ : ∃ k r, j = k * 254 + r ∧ 0 < r ∧ r < nginzMaxChatMsgSize :=
      ⟨(j - 1) / 254, j - (j - 1) / 254 * 254, by omega, by omega, by show _ < 255; omega⟩
    have hlast := hblank hr.1 hr.2
    have hcut := (IsCut.run (n := nginzMaxChatMsgSize) (m := 254) (by decide) (by decide)
      (10 : UInt8) k).append (IsCut.one hlast.nonempty hlast.below)
    rw [← List.replicate_add, ← hj] at hcut
    have hlen :
        (List.replicate k (List.replicate 254 (10 : UInt8)) ++ [List.replicate r 10]).length =
        k + 1 := by rw [List.length_append, List.length_replicate, List.length_singleton]
    refine h.not_free (List.replicate k (List.replicate 254 10) ++ [List.replicate r 10]) []
      ?_ ?_ ?_ (fun w' _ => .refl w') ?_ hfree
    · intro chunk hchunk
      rcases List.mem_append.mp hchunk with hc | hc
      · rw [List.eq_of_mem_replicate hc]
        exact hblank (by decide) (by decide)
      · rwa [List.mem_singleton.mp hc]
    · intro n hn
      rw [hlen] at hn
      refine hok n (fun b hb => List.eq_of_mem_replicate (List.mem_of_mem_take hb)) ?_ hnot
      have hle := Nat.mul_le_mul_right 254 (Nat.lt_succ_iff.mp hn)
      omega
    · rwa [List.append_nil]
    · rw [hlen, List.take_replicate]
      congr 1
      omega
  | cons x tail =>
    -- a line behind them: cut behind its first byte, against one byte at a time
    have hx : x ≠ 10 := fun he => htail (congrArg some he)
    have hj : 0 < j := by
      rcases Nat.eq_zero_or_pos j with rfl | hpos
      · exact absurd (Option.some.inj hstream) hx
      · exact hpos
    have hsplit : j = j / 254 * 254 + j % 254 := by omega
    have hbelow : (List.replicate (j % 254) 10 ++ [x]).length < nginzMaxChatMsgSize := by
      show _ < 255
      rw [List.length_append, List.length_replicate, List.length_singleton]
      omega
    have hcut := (IsCut.run (n := nginzMaxChatMsgSize) (m := 254) (by decide) (by decide)
      (10 : UInt8) (j / 254)).append (IsCut.cons (by simp) hbelow (IsCut.singles (by decide) tail))
    rw [← List.append_assoc, ← List.append_assoc, ← List.replicate_add, ← hsplit,
      List.append_assoc] at hcut
    refine h.not_free (List.replicate (j / 254) (List.replicate 254 10)) _ ?_ ?_ hcut ?_ ?_ hfree
    · intro chunk hchunk
      rw [List.eq_of_mem_replicate hchunk]
      exact hblank (by decide) (by decide)
    · intro n hn
      rw [List.length_replicate] at hn
      have hle := Nat.mul_le_mul_right 254 (Nat.succ_le_of_lt hn)
      refine hok n (fun b hb => ?_) ?_ hnot
      · rw [List.take_append_of_le_length (by rw [List.length_replicate]; omega)] at hb
        exact List.eq_of_mem_replicate (List.mem_of_mem_take hb)
      · rw [List.length_append, List.length_replicate]
        omega
    · intro w' h'
      exact (heard_unterminated (W := W) [] h'.toAnswering (by simp) (by simpa using hx) hbelow _).2
    · rw [List.length_replicate, List.take_append_of_le_length
        (by rw [List.length_replicate]; omega), List.take_replicate]
      congr 1
      omega

/-- Bytes that nobody reads can be cut in any way. -/
theorem Talking.free_unread (W : World) {w : Worker} {fd : ℤ} {t : ℕ} {c : ChatConnection}
    (h : Talking w fd t c) (hunread : w.quiting = true ∨ w.leaving t = true) (stream : Bytes) :
    SegmentationFree W w fd t stream := by
  intro cut cut' hcut hcut'
  unfold converse
  by_cases hq : w.quiting = true
  · rw [heard_quiting hq, heard_quiting hq]
  have hleaving := hunread.resolve_left hq
  rw [Bool.not_eq_true] at hq
  cases cut with
  | nil =>
    obtain rfl : [] = stream := hcut.whole
    rw [hcut'.eq_nil]
  | cons chunk chunks =>
    have hne : stream ≠ [] := by
      rintro rfl
      exact absurd hcut.eq_nil (List.cons_ne_nil chunk chunks)
    obtain ⟨chunk', chunks', rfl⟩ := List.exists_cons_of_ne_nil (hcut'.ne_nil hne)
    rw [heard_leaving h hq hleaving, heard_leaving h hq hleaving]

/-- A client's lines, cut in any two ways, are taken for the same exactly when the worker does
not read them, when there is nothing to cut, or when they start with empty lines that end the
client however they arrive. -/
theorem segmentation_free_iff (W : World) {w : Worker} {fd : ℤ} {t : ℕ} {c : ChatConnection}
    (h : Talking w fd t c) {lines : List Bytes} (hlines : ∀ line ∈ lines, IsLine line) :
    SegmentationFree W w fd t lines.flatten ↔
      w.quiting = true ∨ c.state.quit = true ∨ c.state.softQuit = true ∨ lines.flatten.length ≤ 1 ∨
        c.onResponseCallback = none ∧ ∃ n, RefusedAnyway W w t c lines.flatten n := by
  have hleaving : w.leaving t = (c.state.quit || c.state.softQuit) := by
    unfold Worker.leaving
    rw [w.chat_of_some t h.slot]
  by_cases hunread : w.quiting = true ∨ w.leaving t = true
  · refine iff_of_true (h.free_unread W hunread _) ?_
    rw [hleaving, Bool.or_eq_true] at hunread
    tauto
  simp only [not_or, Bool.not_eq_true] at hunread
  have hanswering : Answering w fd t c := ⟨h, hunread.1, hunread.2⟩
  rw [hleaving, Bool.or_eq_false_iff] at hunread
  simp only [hunread.1, hunread.2.1, hunread.2.2, Bool.false_eq_true, false_or]
  constructor
  · intro hfree
    by_cases hlong : lines.flatten.length ≤ 1
    · exact Or.inl hlong
    right
    cases lines with
    | nil => exact absurd (Nat.zero_le 1) hlong
    | cons line lines =>
      obtain ⟨⟨body, hbody, rfl⟩, hbelow⟩ := hlines line List.mem_cons_self
      rw [List.flatten_cons] at hfree hlong ⊢
      obtain rfl := hanswering.first_empty hbody hbelow hfree
      cases hrest : lines.flatten with
      | nil => simp [hrest] at hlong
      | cons x rest =>
        rw [hrest] at hfree hlong
        have hsilent := hanswering.silent hfree
        refine ⟨hsilent, ?_⟩
        exact Refusing.refused_anyway ⟨hanswering, hsilent⟩ rfl (not_le.mp hlong) hfree
  · rintro (hshort | ⟨hsilent, n, hfails, hnew, hlong⟩) cut cut' hcut hcut'
    · rw [hcut.unique hcut' hshort]
    · obtain ⟨v, hv⟩ := Refusing.heard_anyway ⟨hanswering, hsilent⟩ hfails
      unfold converse
      rw [hv _ cut [] hnew hlong hcut, hv _ cut' [] hnew hlong hcut']

/-- A worker that has welcomed its first client, who is asked for a name. -/
def greetingWorker : Worker := onConnectionBubble .calm (.fresh 2 1) 7 1 (lit "chat/_welcome")

/-- The registration of the client who is asked for a name. -/
theorem talking_greeted : ∃ c, c.onResponseCallback = some .login ∧ c.state = .connected ∧
    Talking greetingWorker 7 1 c :=
  ⟨{ ChatConnection.initial 7 with onResponseCallback := some .login }, rfl, rfl, by decide +kernel,
    rfl, by decide, rfl, by decide +kernel, by decide +kernel⟩

theorem segmentation_free_iff_greeted : SegmentationFree .calm greetingWorker 7 1 (lit "\n") ∧
    ¬ SegmentationFree .calm greetingWorker 7 1 (lit "bob\n") := by
  obtain ⟨c, hcallback, hstate, h⟩ := talking_greeted
  constructor
  · have hline : ∀ line ∈ [lit "\n"], IsLine line := by
      intro line hline
      rw [List.mem_singleton.mp hline]
      exact ⟨⟨[], by simp, rfl⟩, by decide⟩
    exact (segmentation_free_iff .calm h hline).mpr
      (Or.inr (Or.inr (Or.inr (Or.inl (by decide)))))
  · have hline : ∀ line ∈ [lit "bob\n"], IsLine line := by
      intro line hline
      rw [List.mem_singleton.mp hline]
      exact ⟨⟨lit "bob", by decide, rfl⟩, by decide⟩
    intro hfree
    rcases (segmentation_free_iff .calm h hline).mp hfree with hq | hq | hs | hshort | ⟨hsilent, -⟩
    · exact absurd hq (by decide +kernel)
    · rw [hstate] at hq
      exact absurd hq (by decide)
    · rw [hstate] at hs
      exact absurd hs (by decide)
    · exact absurd hshort (by decide)
    · rw [hcallback] at hsilent
      exact absurd hsilent (by decide)

/-- Two lines that come one by one, in one segment, and cut inside the first: two requests to
log in, one, and the end of the client. -/
theorem segmentation_shows :
    let lines := [lit "bob\n", lit "eve\n"]
    let merged := [lit "bob\neve\n"]
    let inside := [lit "bo", lit "b\neve\n"]
    (∀ line ∈ lines, IsLine line) ∧ IsCut nginzMaxChatMsgSize lines.flatten lines ∧
      IsCut nginzMaxChatMsgSize lines.flatten merged ∧
      IsCut nginzMaxChatMsgSize lines.flatten inside ∧
      (converse .calm greetingWorker 7 1 lines).requests =
        [.response .login (lit "bob\n"), .response .login (lit "eve\n")] ∧
      (converse .calm greetingWorker 7 1 merged).requests = [.response .login (lit "bob\neve\n")] ∧
      (converse .calm greetingWorker 7 1 inside).requests = [] ∧
      ((converse .calm greetingWorker 7 1 inside).worker.chat 1).state.quit = true ∧
      ¬ SegmentationFree .calm greetingWorker 7 1 lines.flatten := by
  dsimp only
  have hlines : IsCut nginzMaxChatMsgSize [lit "bob\n", lit "eve\n"].flatten
      [lit "bob\n", lit "eve\n"] := ⟨rfl, by decide, by decide⟩
  have hmerged : IsCut nginzMaxChatMsgSize [lit "bob\n", lit "eve\n"].flatten [lit "bob\neve\n"] :=
    ⟨by decide, by decide, by decide⟩
  have hinside : IsCut nginzMaxChatMsgSize [lit "bob\n", lit "eve\n"].flatten
      [lit "bo", lit "b\neve\n"] := ⟨by decide, by decide, by decide⟩
  refine ⟨?_, hlines, hmerged, hinside, by decide +kernel, by decide +kernel, by decide +kernel,
    by decide +kernel, fun hfree => ?_⟩
  · intro line hline
    simp only [List.mem_cons, List.not_mem_nil, or_false] at hline
    rcases hline with rfl | rfl
    · exact ⟨⟨lit "bob", by decide, rfl⟩, by decide⟩
    · exact ⟨⟨lit "eve", by decide, rfl⟩, by decide⟩
  · exact absurd (hfree _ _ hlines hinside) (by decide +kernel)

end Nginz
