import Nginz.Chat.Broadcast

/-! What sending can change: the error and `CHAT_SOFT_QUIT` marks of connections, and
the record of the sends. -/
namespace Nginz

/-- A connection after some of its sends, which may have failed. -/
def ChatConnection.mark (error soft : Bool) (c : ChatConnection) : ChatConnection :=
  { c with error := c.error || error,
           state := { c.state with softQuit := c.state.softQuit || soft } }

/-- Something went wrong with a write to the connection. -/
def ChatConnection.troubled (c : ChatConnection) : Bool := c.error || c.state.softQuit

/-- A `write` for a connection that is open and not about to quit. -/
def OpenWrite (w : Worker) (e : FdEvent) : Prop :=
  ∃ t c, w.chats t = some c ∧ c.state.quit = false ∧ c.state.softQuit = false ∧
    c.fd ≠ invalidFd ∧ e = .write c.fd t

/-- The second worker is the first one after some sends. -/
structure OnlySends (W : World) (w w' : Worker) : Prop where
  frame : { w' with chats := w.chats, sends := w.sends, fdLog := w.fdLog } = w
  marked : ∀ t, ∃ error soft, w'.chats t = (w.chats t).map (ChatConnection.mark error soft)
  blame : ∀ t c c', w.chats t = some c → w'.chats t = some c' → c'.troubled →
    c.troubled ∨ ∃ n, W.sendFails n t
  writes : ∃ es, w'.fdLog = w.fdLog ++ es ∧ ∀ e ∈ es, OpenWrite w e
  sends : w.sends <+: w'.sends

theorem mark_none (c : ChatConnection) : c.mark false false = c := by
  simp [ChatConnection.mark]

theorem mark_mark (c : ChatConnection) (e s e' s' : Bool) :
    (c.mark e s).mark e' s' = c.mark (e || e') (s || s') := by
  simp [ChatConnection.mark, Bool.or_assoc]

namespace OnlySends
variable {W : World} {w w' w'' : Worker}

protected theorem refl (w : Worker) : OnlySends W w w where
  frame := rfl
  marked t := ⟨false, false, by cases w.chats t <;> simp [mark_none]⟩
  blame t c c' hc hc' ht := by
    rw [hc] at hc'
    rw [Option.some.inj hc']
    exact Or.inl ht
  writes := ⟨[], by simp, fun e he => absurd he List.not_mem_nil⟩
  sends := List.prefix_rfl

theorem openWrite (h : OnlySends W w w') {e : FdEvent} (he : OpenWrite w' e) : OpenWrite w e := by
  obtain ⟨t, c', hc', hq, hs, hfd, rfl⟩ := he
  obtain ⟨error, soft, hm⟩ := h.marked t
  rw [hc'] at hm
  obtain ⟨c, hc, rfl⟩ := Option.map_eq_some_iff.mp hm.symm
  simp only [ChatConnection.mark, Bool.or_eq_false_iff] at hq hs hfd ⊢
  exact ⟨t, c, hc, hq, hs.1, hfd, rfl⟩

protected theorem trans (h : OnlySends W w w') (h' : OnlySends W w' w'') : OnlySends W w w'' where
  frame := by
    have h1 := h.frame
    have h2 := h'.frame
    rw [← h2] at h1
    exact h1
  marked t := by
    obtain ⟨e, s, hm⟩ := h.marked t
    obtain ⟨e', s', hm'⟩ := h'.marked t
    refine ⟨e || e', s || s', ?_⟩
    rw [hm', hm, Option.map_map]
    congr 1
    funext c
    exact mark_mark c e s e' s'
  blame t c c'' hc hc'' ht := by
    obtain ⟨e, s, hm⟩ := h.marked t
    rw [hc] at hm
    rcases h'.blame t _ c'' hm hc'' ht with ht' | hn
    · exact h.blame t c _ hc hm ht'
    · exact Or.inr hn
  writes := by
    obtain ⟨es, hes, hw⟩ := h.writes
    obtain ⟨es', hes', hw'⟩ := h'.writes
    refine ⟨es ++ es', by rw [hes', hes, List.append_assoc], fun e he => ?_⟩
    rcases List.mem_append.mp he with he | he
    · exact hw e he
    · exact h.openWrite (hw' e he)
  sends := h.sends.trans h'.sends

theorem foldl {α : Type*} {f : Worker → α → Worker} (hf : ∀ w a, OnlySends W w (f w a))
    (xs : List α) (w : Worker) : OnlySends W w (xs.foldl f w) := by
  induction xs generalizing w with
  | nil => exact .refl w
  | cons x xs ih => exact (hf w x).trans (ih _)

section Fields
variable (h : OnlySends W w w')
include h

theorem pid_eq : w'.pid = w.pid := by rw [← h.frame]
theorem rooms_eq : w'.rooms = w.rooms := by rw [← h.frame]
theorem eventLoop_eq : w'.eventLoop = w.eventLoop := by rw [← h.frame]
theorem calls_eq : w'.calls = w.calls := by rw [← h.frame]
theorem handOffs_eq : w'.handOffs = w.handOffs := by rw [← h.frame]
theorem crashed_eq : w'.crashed = w.crashed := by rw [← h.frame]

theorem users_eq (r : ℕ) : w'.users r = w.users r := by
  unfold Worker.users
  rw [h.rooms_eq]

theorem chats_some {t : ℕ} {c : ChatConnection} (hc : w.chats t = some c) :
    ∃ error soft, w'.chats t = some (c.mark error soft) := by
  obtain ⟨error, soft, hm⟩ := h.marked t
  exact ⟨error, soft, by rw [hm, hc]; rfl⟩

end Fields
end OnlySends

/-! ### The sending functions -/

variable (W : World) (w : Worker)

theorem onlySends_record (m : ℕ × Bytes) : OnlySends W w { w with sends := w.sends ++ [m] } where
  frame := rfl
  marked t := ⟨false, false, by cases w.chats t <;> simp [mark_none]⟩
  blame := (OnlySends.refl w).blame
  writes := ⟨[], by simp, fun e he => absurd he List.not_mem_nil⟩
  sends := List.prefix_append _ _

theorem onlySends_mark (t : ℕ) (error soft : Bool)
    (hb : (w.chat t).troubled ∨ ∃ n, W.sendFails n t) :
    OnlySends W w (w.setChat t (ChatConnection.mark error soft)) where
  frame := rfl
  marked u := by
    by_cases hu : u = t
    · subst hu
      exact ⟨error, soft, w.setChat_same u _⟩
    · refine ⟨false, false, ?_⟩
      rw [w.setChat_other t _ hu]
      cases w.chats u <;> simp [mark_none]
  blame u c c' hc hc' ht := by
    by_cases hu : u = t
    · subst hu
      rwa [w.chat_of_some u hc] at hb
    · rw [w.setChat_other t _ hu, hc] at hc'
      rw [Option.some.inj hc']
      exact Or.inl ht
  writes := ⟨[], by simp [Worker.setChat], fun e he => absurd he List.not_mem_nil⟩
  sends := List.prefix_rfl

theorem onlySends_write {e : FdEvent} (h : OpenWrite w e) : OnlySends W w (w.logFd e) where
  frame := rfl
  marked t := ⟨false, false, by
    change w.chats t = _
    cases w.chats t <;> simp [mark_none]⟩
  blame := (OnlySends.refl w).blame
  writes := ⟨[e], rfl, fun e' he' => by rwa [List.mem_singleton.mp he']⟩
  sends := List.prefix_rfl

/-- The write of a send, when the connection is open and not about to quit. -/
theorem onlySends_nonblock {t : ℕ} (hq : (w.chat t).state.quit = false)
    (hs : (w.chat t).state.softQuit = false) :
      OnlySends W w (defaultStreamioSendNonblock W w t) := by
  unfold defaultStreamioSendNonblock
  by_cases hfd : (w.chat t).fd = invalidFd
  · rw [if_pos hfd]
    exact .refl w
  rw [if_neg hfd]
  cases hc : w.chats t with
  | none => simp [Worker.chat, hc, ChatConnection.initial] at hfd
  | some c =>
    rw [w.chat_of_some t hc] at hq hs hfd ⊢
    have hopen : OpenWrite w (.write c.fd t) := ⟨t, c, hc, hq, hs, hfd, rfl⟩
    have hwrite := onlySends_write W w hopen
    dsimp only
    split
    · rename_i hfail
      have hmark : (fun c : ChatConnection => { c with error := true }) =
          ChatConnection.mark true false := by
        funext c
        simp [ChatConnection.mark]
      rw [hmark]
      exact hwrite.trans (onlySends_mark W _ t true false (Or.inr ⟨_, hfail⟩))
    · exact hwrite

theorem onlySends_send (t : ℕ) (content : Bytes) :
    OnlySends W w (defaultChatSend W w t content) := by
  have hrec := onlySends_record W w (t, content)
  unfold defaultChatSend
  dsimp only
  split
  · exact hrec
  · rename_i hflags
    simp only [Bool.or_eq_true, not_or, Bool.not_eq_true] at hflags
    have hsend := hrec.trans (onlySends_nonblock W _ hflags.1.1 hflags.1.2)
    split
    · rename_i herror
      have hmark :
          (fun c : ChatConnection => { c with state := { c.state with softQuit := true } }) =
          ChatConnection.mark false true := by
        funext c
        simp [ChatConnection.mark]
      unfold Worker.setState
      rw [hmark]
      refine hsend.trans (onlySends_mark W _ t false true (Or.inl ?_))
      simp [ChatConnection.troubled, herror]
    · exact hsend

theorem onlySends_helper (chat : Option ℕ) (rm : ℕ) (msg : Bytes) :
    OnlySends W w (broadcastCallbackHelper W w chat rm msg) := by
  unfold broadcastCallbackHelper
  apply OnlySends.foldl
  intro v other
  split
  · exact .refl v
  · exact onlySends_send W v other msg

theorem onlySends_callback (t : ℕ) (msg : Bytes) : OnlySends W w (broadcastCallback W w t msg) := by
  unfold broadcastCallback
  split
  · exact .refl w
  · exact onlySends_helper W w _ _ _

theorem onlySends_private (t : ℕ) (dest msg : Bytes) :
    OnlySends W w (broadcastPrivateMessage W w t dest msg) := by
  unfold broadcastPrivateMessage
  split
  · exact .refl w
  · split
    · exact .refl w
    · exact onlySends_send W w _ _

theorem onlySends_greet (t rm : ℕ) : OnlySends W w (broadcastRoomGreet W w t rm) := by
  unfold broadcastRoomGreet
  dsimp only
  refine OnlySends.trans ?_ (onlySends_helper W _ _ _ _)
  refine OnlySends.trans ?_ (onlySends_send W _ t _)
  exact OnlySends.trans (onlySends_send W w t _)
    (OnlySends.foldl (fun v other => onlySends_send W v t _) _ _)

theorem onlySends_bye (t rm : ℕ) : OnlySends W w (broadcastRoomBye W w t rm) :=
  onlySends_helper W w _ _ _

theorem onlySends_joinFailed (t : ℕ) : OnlySends W w (broadcastRoomSendJoinFailed W w t) :=
  onlySends_send W w t _

/-! ### What is recorded -/

/-- A send to the connection is written: it is not about to quit and has a descriptor. -/
def Worker.hears (w : Worker) (t : ℕ) : Bool :=
  !((w.chat t).state.quit || (w.chat t).state.softQuit || (w.chat t).state.zombie) &&
    (w.chat t).fd ≠ invalidFd

theorem send_slot {t u : ℕ} (h : u ≠ t) (content : Bytes) :
    (defaultChatSend W w u content).chats t = w.chats t := by
  have hwrite (v : Worker) : (defaultStreamioSendNonblock W v u).chats t = v.chats t := by
    unfold defaultStreamioSendNonblock
    split
    · rfl
    · dsimp only
      split
      · exact Worker.setChat_other _ u _ (Ne.symm h)
      · rfl
  unfold defaultChatSend
  dsimp only
  split
  · rfl
  · split
    · exact (Worker.setChat_other _ u _ (Ne.symm h)).trans (hwrite _)
    · exact hwrite _

/-- A send writes at most once, and does if the connection hears. -/
theorem defaultChatSend_fdLog (t : ℕ) (content : Bytes) :
    (defaultChatSend W w t content).fdLog =
      w.fdLog ++ if w.hears t then [.write (w.chat t).fd t] else [] := by
  have hwrite (v : Worker) : (defaultStreamioSendNonblock W v t).fdLog =
      v.fdLog ++ if (v.chat t).fd ≠ invalidFd then [.write (v.chat t).fd t] else [] := by
    unfold defaultStreamioSendNonblock
    by_cases hfd : (v.chat t).fd = invalidFd
    · rw [if_pos hfd, if_neg (not_not.mpr hfd), List.append_nil]
    · rw [if_neg hfd, if_pos hfd]
      dsimp only
      split
      · rfl
      · rfl
  unfold defaultChatSend Worker.hears
  dsimp only
  split
  · rename_i hquits
    have hquits' : ((w.chat t).state.quit || (w.chat t).state.softQuit ||
        (w.chat t).state.zombie) = true := hquits
    rw [hquits', Bool.not_true, Bool.false_and, if_neg Bool.false_ne_true, List.append_nil]
  · rename_i hquits
    have hquits' : ((w.chat t).state.quit || (w.chat t).state.softQuit ||
        (w.chat t).state.zombie) = false := eq_false_of_ne_true hquits
    rw [hquits', Bool.not_false, Bool.true_and]
    simp only [decide_eq_true_eq]
    split
    · exact hwrite _
    · exact hwrite _

theorem defaultChatSend_sends (t : ℕ) (content : Bytes) :
    (defaultChatSend W w t content).sends = w.sends ++ [(t, content)] := by
  have hwrite (v : Worker) : (defaultStreamioSendNonblock W v t).sends = v.sends := by
    unfold defaultStreamioSendNonblock
    split
    · rfl
    · dsimp only
      split <;> rfl
  unfold defaultChatSend
  dsimp only
  split
  · rfl
  split
  · exact hwrite _
  · exact hwrite _

/-- Each user of the room but the one left out is sent to once, in the order of the list. -/
theorem broadcastCallbackHelper_sends (chat : Option ℕ) (rm : ℕ) (msg : Bytes) :
    (broadcastCallbackHelper W w chat rm msg).sends =
      w.sends ++ ((w.users rm).filter fun u => chat ≠ some u).map fun u => (u, msg) := by
  unfold broadcastCallbackHelper
  generalize w.users rm = users
  induction users generalizing w with
  | nil => simp
  | cons u users ih =>
    rw [List.foldl_cons, ih]
    by_cases hu : chat = some u
    · simp [hu]
    · simp [hu, defaultChatSend_sends]

/-- And of these it is written to those that hear. -/
theorem broadcastCallbackHelper_fdLog (chat : Option ℕ) {rm : ℕ} (hnodup : (w.users rm).Nodup)
    (msg : Bytes) : (broadcastCallbackHelper W w chat rm msg).fdLog =
      w.fdLog ++ (((w.users rm).filter fun u => chat ≠ some u).filter w.hears).map fun u =>
        .write (w.chat u).fd u := by
  unfold broadcastCallbackHelper
  generalize w.users rm = users at hnodup ⊢
  induction users generalizing w with
  | nil => simp
  | cons u users ih =>
    obtain ⟨hu, husers⟩ := List.nodup_cons.mp hnodup
    rw [List.foldl_cons, ih _ husers]
    by_cases hchat : chat = some u
    · simp [hchat]
    · rw [if_neg hchat, List.filter_cons_of_pos (by simpa using hchat), defaultChatSend_fdLog]
      -- the users behind this one are as they were
      have hsame (v : ℕ) (hv : v ∈ users) : (defaultChatSend W w u msg).chat v = w.chat v := by
        have hslot := send_slot W w (fun huv : u = v => hu (huv ▸ hv)) msg
        unfold Worker.chat
        rw [hslot]
      have hhears : (users.filter fun v => chat ≠ some v).filter
          (defaultChatSend W w u msg).hears =
          (users.filter fun v => chat ≠ some v).filter w.hears := by
        refine List.filter_congr fun v hv => ?_
        unfold Worker.hears
        rw [hsame v (List.mem_of_mem_filter hv)]
      have hwrites : ((users.filter fun v => chat ≠ some v).filter w.hears).map
          (fun v => FdEvent.write ((defaultChatSend W w u msg).chat v).fd v) =
          ((users.filter fun v => chat ≠ some v).filter w.hears).map
            fun v => FdEvent.write (w.chat v).fd v := by
        refine List.map_congr_left fun v hv => ?_
        rw [hsame v (List.mem_of_mem_filter (List.mem_of_mem_filter hv))]
      rw [hhears, hwrites, List.append_assoc]
      by_cases hheard : w.hears u
      · rw [if_pos hheard, List.filter_cons_of_pos hheard]
        rfl
      · rw [if_neg hheard, List.filter_cons_of_neg hheard]
        rfl

end Nginz
