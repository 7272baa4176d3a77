import Nginz.Chat.RoomMembers
import Nginz.Chat.Serving

/-! How connections leave the event loop: closing, handing off, the zombie list and the
end of the object. -/
namespace Nginz

/-- What an unregistration of the number removes. -/
def Worker.registrant (w : Worker) (fd : ℤ) : Option ℕ :=
  (w.eventLoop.find? fun e => e.1 = fd).map Prod.snd

/-- The calls of a log-off. -/
def logoffCalls (L : TxtLib) (c : ChatConnection) : List DbCall :=
  if c.state.loggedIn && c.name ≠ [] then [.unset (-1) none (buildNameKey L c.name)] else []

/-- The time of the close, unless there is one already. -/
def ChatConnection.timed (clock : ℕ) (c : ChatConnection) : ChatConnection :=
  if c.quitedAt = 0 then { c with quitedAt := clock } else c

/-- The flag of the close, unless there is one already. -/
def ChatConnection.quitting (c : ChatConnection) : ChatConnection :=
  if !(c.state.softQuit || c.state.quit) then
    { c with state := { c.state with quit := true } } else c

def ChatConnection.loggedOff (c : ChatConnection) : ChatConnection :=
  { c with state := { c.state with loggedIn := c.state.loggedIn && c.name = [] } }

theorem ChatConnection.loggedOff_self {c : ChatConnection}
    (h : (c.state.loggedIn && c.name = []) = c.state.loggedIn) : c.loggedOff = c := by
  unfold loggedOff
  rw [h]

/-- A connection behind its close, but for the descriptor. -/
def ChatConnection.ended (clock : ℕ) (c : ChatConnection) : ChatConnection :=
  (c.timed clock).quitting.loggedOff

section Equations
variable (w : Worker) {t : ℕ} {c : ChatConnection} (hc : w.chats t = some c)
include hc

theorem setChat_chats (f : ChatConnection → ChatConnection) :
    w.setChat t f = { w with chats := Function.update w.chats t (some (f c)) } := by
  unfold Worker.setChat
  rw [hc]
  rfl

/-- What a close does to an open connection. -/
theorem releaseFd_eq (hfd : c.fd ≠ invalidFd) : releaseFd w t =
    { w with
      eventLoop := w.eventLoop.eraseP fun e => e.1 = c.fd
      fds := if c.state.softQuit then w.fds else Function.update w.fds c.fd none
      fdLog := w.fdLog ++ [.unregister c.fd t (w.registrant c.fd)] ++
        if c.state.softQuit then [] else [.close c.fd t]
      chats := Function.update w.chats t (some { c with fd := invalidFd }) } := by
  unfold releaseFd Worker.eventLoopUnregisterFd Worker.closeFd Worker.logFd Worker.registrant
    Worker.setChat Worker.chat
  simp only [hc, Option.getD_some, ne_eq, hfd, not_false_eq_true, ↓reduceIte]
  cases hs : c.state.softQuit
  · simp [hc]
  · simp [hc]

theorem releaseFd_closed (hfd : c.fd = invalidFd) : releaseFd w t = w := by
  unfold releaseFd
  rw [w.chat_of_some t hc]
  simp [hfd]

/-- What a transfer does to an open connection. -/
theorem transferOut_eq (W : World) {socket : ℕ} (hs : w.fds c.fd = some socket) (room : Bytes)
    (pid : ℤ) (hone : (w.eventLoop.eraseP fun e => e.1 = c.fd).find? (fun e => e.1 = c.fd) = none) :
    transferOut W w t room pid =
    { w with
      eventLoop := w.eventLoop.eraseP fun e => e.1 = c.fd
      fds := if W.rawSendOk (w.fdLog.length + 2) pid then Function.update w.fds c.fd none else w.fds
      handOffs := if W.rawSendOk (w.fdLog.length + 2) pid then w.handOffs ++
        [HandOff.mk pid socket (transferMessage W.txt (W.txt.room 255) pid nginzChatPort
          (hiddenjoinCommand W.txt room c.name)).content] else w.handOffs
      fdLog := w.fdLog ++ [.unregister c.fd t (w.registrant c.fd)] ++ [.unregister c.fd t none] ++
        [if W.rawSendOk (w.fdLog.length + 2) pid then .handOff c.fd t else .handOffFailed c.fd t]
      chats := Function.update w.chats t (some { c with state :=
        { c.state with softQuit := true } }) } := by
  have htwice : ((w.eventLoop.eraseP fun e => e.1 = c.fd).eraseP fun e => e.1 = c.fd) =
      w.eventLoop.eraseP fun e => e.1 = c.fd := by
    apply List.eraseP_of_forall_not
    rw [List.find?_eq_none] at hone
    exact fun e he => by simpa using hone e he
  unfold transferOut defaultTransferParallel ppRawSendSocket Worker.eventLoopUnregisterFd
    Worker.logFd Worker.registrant Worker.setState Worker.setChat Worker.chat
  simp only [hc, Option.getD_some, hs, hone, htwice, Option.map_none, List.length_append,
    List.length_singleton]
  cases W.rawSendOk (w.fdLog.length + 1 + 1) pid
  · simp [hc]
  · simp [hc]

theorem setChat_if (p : Prop) [Decidable p] (f : ChatConnection → ChatConnection) :
    (if p then w.setChat t f else w) =
      { w with chats := Function.update w.chats t (some (if p then f c else c)) } := by
  split
  · exact setChat_chats w hc f
  · rw [Function.update_eq_self_iff.mpr hc.symm]

theorem logoffUser_if (W : World) : (if c.state.loggedIn then logoffUser W w t else w) =
    { w with
      chats := Function.update w.chats t (some c.loggedOff)
      calls := w.calls ++ logoffCalls W.txt c } := by
  have hsame : c.loggedOff = c → w =
      { w with chats := Function.update w.chats t (some c.loggedOff), calls := w.calls ++ [] } := by
    intro he
    rw [he, List.append_nil, Function.update_eq_self_iff.mpr hc.symm]
  unfold logoffUser logoffCalls
  rw [w.chat_of_some t hc]
  cases hl : c.state.loggedIn
  · simp only [Bool.false_eq_true, ↓reduceIte, Bool.false_and]
    exact hsame (ChatConnection.loggedOff_self (by simp [hl]))
  by_cases hname : c.name = []
  · simp only [hname, ↓reduceIte, Bool.true_and, ne_eq, not_true_eq_false, decide_false,
      Bool.false_eq_true]
    exact hsame (ChatConnection.loggedOff_self (by simp [hname]))
  · simp only [hname, ↓reduceIte, Bool.true_and, ne_eq, not_false_eq_true, decide_true]
    rw [Worker.setState, setChat_chats (w.call _) hc]
    unfold ChatConnection.loggedOff
    simp [hname, Worker.call]

/-- What a close does before the log-off and the release of the descriptor is routine. -/
theorem close_routine (W : World) : ∃ v d, defaultChatClose W w t =
      releaseFd (if d.state.loggedIn then logoffUser W v t else v) t ∧ Routine W w v ∧
      v.chats t = some d ∧ (d.state.quit = true ∨ d.state.softQuit = true) ∧
      (Membership w → Membership v ∧ Outside v t) := by
  unfold defaultChatClose
  have htime : Routine W w (if (w.chat t).quitedAt = 0 then
      w.setChat t fun c => { c with quitedAt := w.clock } else w) ∧ (Membership w → Membership
      (if (w.chat t).quitedAt = 0 then w.setChat t fun c => { c with quitedAt := w.clock } else
        w)) := by
    split
    · exact ⟨.setChat t (fun c _ => ⟨rfl, rfl, rfl, rfl, id, id, le_rfl⟩) (fun _ => rfl)
        fun _ => ⟨rfl, rfl⟩, fun hm => hm.setChat t fun _ => rfl⟩
    · exact ⟨.refl w, id⟩
  generalize (if (w.chat t).quitedAt = 0 then
      w.setChat t fun c => { c with quitedAt := w.clock } else w) = w1 at htime
  obtain ⟨hr1, hm1⟩ := htime
  obtain ⟨c1, hc1, -⟩ := hr1.chats_some hc
  have hquit : ∃ c2, Routine W w1 (if !((w1.chat t).state.softQuit || (w1.chat t).state.quit) then
      w1.setState t fun s => { s with quit := true } else w1) ∧ (Membership w1 → Membership
      (if !((w1.chat t).state.softQuit || (w1.chat t).state.quit) then
        w1.setState t fun s => { s with quit := true } else w1)) ∧
      (if !((w1.chat t).state.softQuit || (w1.chat t).state.quit) then
        w1.setState t fun s => { s with quit := true } else w1).chats t = some c2 ∧
      (c2.state.quit = true ∨ c2.state.softQuit = true) := by
    rw [w1.chat_of_some t hc1]
    split
    · refine ⟨{ c1 with state := { c1.state with quit := true } },
        .setChat t (fun c _ => ⟨rfl, rfl, rfl, rfl, fun _ => rfl, id, le_rfl⟩) (fun _ => rfl)
          fun _ => ⟨rfl, rfl⟩, fun hm => hm.setChat t fun _ => rfl, ?_, Or.inl rfl⟩
      unfold Worker.setState
      rw [w1.setChat_same, hc1]
      rfl
    · rename_i hend
      refine ⟨c1, .refl w1, id, hc1, ?_⟩
      by_cases hq : c1.state.quit = true
      · exact Or.inl hq
      · exact Or.inr (by simpa [hq] using hend)
  dsimp only
  generalize (if !((w1.chat t).state.softQuit || (w1.chat t).state.quit) then
      w1.setState t fun s => { s with quit := true } else w1) = w2 at hquit
  obtain ⟨c2, hr2, hm2, hc2, hend⟩ := hquit
  have hleft : Routine W w2 (if (w2.chat t).state.inRoom then broadcastRoomLeave W w2 t else w2) ∧
      (Membership w2 → Membership (if (w2.chat t).state.inRoom then
        broadcastRoomLeave W w2 t else w2) ∧
        Outside (if (w2.chat t).state.inRoom then broadcastRoomLeave W w2 t else w2) t) := by
    split
    · exact ⟨routine_leave W w2 t, fun hm => hm.leave W t⟩
    · rename_i hin
      refine ⟨.refl w2, fun hm => ⟨hm, fun c hc => ?_⟩⟩
      rw [w2.chat_of_some t hc, hm.inRoom t c hc] at hin
      simpa using hin
  generalize (if (w2.chat t).state.inRoom then broadcastRoomLeave W w2 t else w2) = w3 at hleft
  obtain ⟨hr3, hm3⟩ := hleft
  obtain ⟨c3, hc3, hf3⟩ := hr3.chats_some hc2
  rw [w3.chat_of_some t hc3]
  exact ⟨w3, c3, rfl, (hr1.trans hr2).trans hr3, hc3, hend.imp hf3.quit hf3.softQuit,
    fun hm => hm3 (hm2 (hm1 hm))⟩

/-- The close of a connection outside every room. -/
theorem close_eq (W : World) (hin : c.state.inRoom = false) : defaultChatClose W w t = releaseFd
    { w with
      chats := Function.update w.chats t (some (c.ended w.clock))
      calls := w.calls ++ logoffCalls W.txt c } t := by
  let w1 : Worker := { w with chats := Function.update w.chats t (some (c.timed w.clock)) }
  have hc1 : w1.chats t = some (c.timed w.clock) := Function.update_self ..
  let w2 : Worker := { w1 with
    chats := Function.update w1.chats t (some (c.timed w.clock).quitting) }
  have hc2 : w2.chats t = some (c.timed w.clock).quitting := Function.update_self ..
  have htime : (if (w.chat t).quitedAt = 0 then
      w.setChat t fun c => { c with quitedAt := w.clock } else w) = w1 := by
    rw [w.chat_of_some t hc]
    exact setChat_if w hc _ _
  have hquit : (if !((w1.chat t).state.softQuit || (w1.chat t).state.quit) then
      w1.setState t fun s => { s with quit := true } else w1) = w2 := by
    rw [w1.chat_of_some t hc1]
    exact setChat_if w1 hc1 _ _
  have hfields : (c.timed w.clock).quitting.state.inRoom = c.state.inRoom ∧
      (c.timed w.clock).quitting.state.loggedIn = c.state.loggedIn ∧
      (c.timed w.clock).quitting.name = c.name := by
    unfold ChatConnection.quitting ChatConnection.timed
    split <;> split <;> exact ⟨rfl, rfl, rfl⟩
  have hcalls : logoffCalls W.txt (c.timed w.clock).quitting = logoffCalls W.txt c := by
    unfold logoffCalls
    rw [hfields.2.1, hfields.2.2]
  have hroom : ¬ (w2.chat t).state.inRoom = true := by
    rw [w2.chat_of_some t hc2, hfields.1, hin]
    decide
  unfold defaultChatClose
  dsimp only
  rw [htime, hquit, if_neg hroom, w2.chat_of_some t hc2, logoffUser_if w2 hc2 W, hcalls]
  congr 2
  change Function.update (Function.update (Function.update _ t _) t _) t _ = _
  rw [Function.update_idem, Function.update_idem]
  rfl

/-- The end of a connection that is in no room and whose number nobody registered. -/
theorem finalizeChat_eq (W : World) (hin : c.state.inRoom = false)
    (hsoft : c.fd ≠ invalidFd → c.state.softQuit = true) (hnone : ∀ u, (c.fd, u) ∉ w.eventLoop) :
    finalizeChat W w t =
    { w with
      chats := Function.update w.chats t none
      calls := w.calls ++ logoffCalls W.txt c
      fdLog := w.fdLog ++ if c.fd = invalidFd then [] else [.unregister c.fd t none] } := by
  obtain ⟨herase, hfind⟩ := Serving.entry_none hnone
  obtain ⟨hfd, hsoft'⟩ : (c.ended w.clock).fd = c.fd ∧
      (c.ended w.clock).state.softQuit = c.state.softQuit := by
    unfold ChatConnection.ended ChatConnection.loggedOff ChatConnection.quitting
      ChatConnection.timed
    split <;> split <;> exact ⟨rfl, rfl⟩
  let w1 : Worker :=
    { w with
      chats := Function.update w.chats t (some (c.ended w.clock))
      calls := w.calls ++ logoffCalls W.txt c }
  have hc1 : w1.chats t = some (c.ended w.clock) := Function.update_self ..
  unfold finalizeChat
  rw [close_eq w hc W hin]
  change { releaseFd w1 t with chats := Function.update (releaseFd w1 t).chats t none } = _
  by_cases hinvalid : c.fd = invalidFd
  · rw [releaseFd_closed w1 hc1 (hfd.trans hinvalid), if_pos hinvalid, List.append_nil]
    change { w1 with chats := Function.update (Function.update w.chats t _) t none } = _
    rw [Function.update_idem]
  · rw [releaseFd_eq w1 hc1 (by rwa [hfd])]
    unfold Worker.registrant
    rw [hsoft', hsoft hinvalid, hfd]
    change { w with
      chats := Function.update (Function.update (Function.update w.chats t _) t _) t none
      calls := w.calls ++ logoffCalls W.txt c
      eventLoop := w.eventLoop.eraseP fun e => e.1 = c.fd
      fds := w.fds
      fdLog := w.fdLog ++ [FdEvent.unregister c.fd t
        ((w.eventLoop.find? fun e : ℤ × ℕ => e.1 = c.fd).map Prod.snd)] ++
        [] } = _
    rw [Function.update_idem, Function.update_idem, herase, hfind, if_neg hinvalid, List.append_nil]
    rfl

end Equations

/-- The refusal of a connection that is not registered yet. -/
theorem reject_eq (W : World) (w : Worker) (t : ℕ) {fd : ℤ} (hfd : fd ≠ invalidFd) :
    oppUnref W (closeClient W (chatAlloc w t fd) t) t =
    { w with
      chats := Function.update w.chats t (some
        { ChatConnection.initial invalidFd with
          state := { ChatState.connected with quit := true, zombie := true }, quitedAt := w.clock })
      eventLoop := w.eventLoop.eraseP fun e => e.1 = fd
      fds := Function.update w.fds fd none
      zombieList := w.zombieList ++ [t]
      crashed := w.crashed || !(w.clock ≠ 0)
      fdLog := w.fdLog ++ [.opened fd t] ++ [.unregister fd t (w.registrant fd)] ++
        [.close fd t] } := by
  have hnew : (chatAlloc w t fd).chats t = some (.initial fd) := Function.update_self ..
  have hended : Function.update (chatAlloc w t fd).chats t
      (some ((ChatConnection.initial fd).ended w.clock)) t =
      some ((ChatConnection.initial fd).ended w.clock) := Function.update_self ..
  unfold closeClient
  rw [close_eq _ hnew W rfl, releaseFd_eq _ hended hfd]
  unfold chatZombieAdd oppUnref Worker.chat Worker.setChat Worker.assert chatAlloc Worker.logFd
    Worker.registrant
  simp [ChatConnection.ended, ChatConnection.timed, ChatConnection.quitting,
    ChatConnection.loggedOff, ChatConnection.initial, ChatState.connected, logoffCalls]

/-- The connection an event is about. -/
def FdEvent.owner : FdEvent → ℕ
  | .opened _ t | .register _ t | .unregister _ t _ | .write _ t | .close _ t | .handOff _ t
  | .handOffFailed _ t => t

theorem handedOff_others {log es : List FdEvent} {t u : ℕ} (hut : u ≠ t)
    (h : ∀ e ∈ es, e.owner = t) : handedOff (log ++ es) u = handedOff log u := by
  apply handedOff_append
  intro e he fd
  have ho := h e he
  constructor
  · rintro rfl
    exact hut ho
  · rintro rfl
    exact hut ho

namespace Serving
variable {s : Prop} {q : List LazyObject} {held : Multiset ℕ} {w : Worker} {t : ℕ}
  {c : ChatConnection}

/-- The registration of a connection is its own. -/
theorem registrant_eq (h : Serving s q held w) {fd : ℤ} (hreg : (fd, t) ∈ w.eventLoop) :
    w.registrant fd = some t := by
  obtain ⟨-, -, -, -, hfind, -⟩ := h.entry_split hreg
  unfold Worker.registrant
  rw [hfind]
  rfl

theorem unregistered (h : Serving s q held w) {fd : ℤ} (hreg : (fd, t) ∈ w.eventLoop) :
    (w.eventLoop.eraseP fun e => e.1 = fd).find? (fun e => e.1 = fd) = none := by
  obtain ⟨xs, ys, -, herase, -, hrest⟩ := h.entry_split hreg
  rw [herase, List.find?_eq_none]
  simpa using hrest

/-- Operations on the number of a connection that did not hand it off. -/
theorem untouched_end {log : List FdEvent} (h : Untouched log) (hmoved : handedOff log t = false)
    (fd : ℤ) (removed : Option ℕ) (hown : ∀ u, removed = some u → u = t) :
    Untouched (log ++ [.unregister fd t removed]) ∧
      handedOff (log ++ [.unregister fd t removed]) t = false := by
  constructor
  · apply h.snoc
    · intro fd' t' u he
      obtain ⟨-, rfl, hr⟩ := FdEvent.unregister.inj he
      exact hown u hr
    · intro u hu
      obtain rfl := Option.some.inj hu
      exact hmoved
  · rw [handedOff_append _ _ _ fun e he => by
      obtain rfl := List.mem_singleton.mp he
      simp]
    exact hmoved

theorem untouched_close {log : List FdEvent} (h : Untouched log) (hmoved : handedOff log t = false)
    (fd : ℤ) : Untouched (log ++ [.close fd t]) ∧ handedOff (log ++ [.close fd t]) t = false := by
  constructor
  · apply h.snoc
    · intro fd' t' u he
      cases he
    · intro u hu
      obtain rfl := Option.some.inj hu
      exact hmoved
  · rw [handedOff_append _ _ _ fun e he => by
      obtain rfl := List.mem_singleton.mp he
      simp]
    exact hmoved

/-- The log after a close. -/
theorem log_release (hmoved : handedOff w.fdLog t = false) (fd : ℤ) (removed : Option ℕ)
    (hown : ∀ u, removed = some u → u = t) (soft : Bool) :
    (∀ u, handedOff (w.fdLog ++ [.unregister fd t removed] ++
      if soft then [] else [.close fd t]) u = handedOff w.fdLog u) ∧
    (Untouched w.fdLog → Untouched (w.fdLog ++ [.unregister fd t removed] ++
      if soft then [] else [.close fd t])) := by
  constructor
  · intro u
    rw [List.append_assoc]
    apply handedOff_append
    intro e he fd'
    cases soft <;> rcases List.mem_append.mp he with he | he <;> simp_all
  · intro hu
    obtain ⟨hone, hm⟩ := untouched_end hu hmoved fd removed hown
    cases soft
    · exact (untouched_close hone hm fd).1
    · simpa using hone

/-- A registered connection is closed. -/
theorem release (h : Serving s q held w) (hc : w.chats t = some c) (hreg : (c.fd, t) ∈ w.eventLoop)
    (hend : c.state.quit = true ∨ c.state.softQuit = true) :
    Serving s q (t ::ₘ held) (releaseFd w t) := by
  obtain ⟨-, -, -, hne, hmoved⟩ := h.entry c.fd t hreg
  obtain ⟨hsame, huntouched⟩ := log_release hmoved c.fd (some t)
    (fun u hu => (Option.some.inj hu).symm) c.state.softQuit
  have hm : Membership (w.setChat t fun c => { c with fd := invalidFd }) :=
    h.membership.setChat t fun _ => rfl
  rw [setChat_chats w hc] at hm
  rw [releaseFd_eq w hc hne, h.registrant_eq hreg]
  apply h.detach { c with fd := invalidFd } hc hreg
  · exact hm.of_same rfl rfl
  · exact h.queue
  · rfl
  · rfl
  · intro fd hfd
    dsimp only
    split
    · rfl
    · exact Function.update_of_ne hfd ..
  · rfl
  · exact fun u _ => hsame u
  · exact fun hs => huntouched (h.untouched hs)
  · rfl
  · rfl
  · exact Or.inl ⟨rfl, hend, by rw [hsame, hmoved]⟩

/-- A registered connection is transferred, or a failed transfer marks it. -/
theorem transferOut (h : Serving s q held w) (hc : w.chats t = some c)
    (hreg : (c.fd, t) ∈ w.eventLoop) (W : World) (room : Bytes) (pid : ℤ) :
    Serving s q (t ::ₘ held) (transferOut W w t room pid) := by
  obtain ⟨-, -, -, hne, hmoved⟩ := h.entry c.fd t hreg
  obtain ⟨socket, hs⟩ := Option.isSome_iff_exists.mp (h.holds t c hc hne hmoved)
  have hm :
      Membership (w.setChat t fun c => { c with state := { c.state with softQuit := true } }) :=
    h.membership.setChat t fun _ => rfl
  rw [setChat_chats w hc] at hm
  have huntouched (e : FdEvent) (he : e.toucher = none) (hstrict : s) : Untouched
      (w.fdLog ++ [.unregister c.fd t (some t)] ++ [.unregister c.fd t none] ++ [e]) := by
    obtain ⟨hone, hm1⟩ := untouched_end (h.untouched hstrict) hmoved c.fd (some t)
      fun u hu => (Option.some.inj hu).symm
    obtain ⟨htwo, -⟩ := untouched_end hone hm1 c.fd none fun u hu => absurd hu (by simp)
    apply htwo.snoc
    · rintro fd t' u rfl
      exact absurd he (by simp [FdEvent.toucher])
    · intro u hu
      rw [he] at hu
      exact absurd hu (by simp)
  rw [transferOut_eq w hc W hs room pid (h.unregistered hreg), h.registrant_eq hreg]
  apply h.detach { c with state := { c.state with softQuit := true } } hc hreg
  · exact hm.of_same rfl rfl
  · exact h.queue
  · rfl
  · rfl
  · intro fd hfd
    dsimp only
    split
    · exact Function.update_of_ne hfd ..
    · rfl
  · rfl
  · intro u hut
    dsimp only
    rw [List.append_assoc, List.append_assoc]
    apply handedOff_others hut
    intro e he
    simp only [List.cons_append, List.nil_append, List.mem_cons, List.not_mem_nil, or_false] at he
    rcases he with rfl | rfl | rfl
    · rfl
    · rfl
    · split <;> rfl
  · cases W.rawSendOk (w.fdLog.length + 2) pid
    · exact huntouched _ rfl
    · exact huntouched _ rfl
  · rfl
  · rfl
  · refine Or.inr ⟨rfl, rfl, fun hno => ?_⟩
    dsimp only at hno ⊢
    cases hsent : W.rawSendOk (w.fdLog.length + 2) pid
    · simp [hs]
    · simp only [hsent, if_true, handedOff_handOff] at hno
      exact absurd hno (by decide)

/-- Nothing is registered for a closed connection. -/
theorem closed_unregistered (h : Serving s q held w) (hc : w.chats t = some c)
    (hfd : c.fd = invalidFd) (fd : ℤ) : (fd, t) ∉ w.eventLoop := by
  intro hmem
  obtain ⟨d, hd, hdfd, hne, -⟩ := h.entry fd t hmem
  rw [hc] at hd
  obtain rfl := Option.some.inj hd
  exact hne (hdfd.symm.trans hfd)

/-- A closed connection goes to the zombie list. -/
theorem zombieAdd (h : Serving s q held w) (hc : w.chats t = some c) (hfd : c.fd = invalidFd)
    (hend : c.state.quit = true ∨ c.state.softQuit = true) :
    Serving s q held (chatZombieAdd w t) := by
  unfold chatZombieAdd
  rw [w.chat_of_some t hc]
  split
  · exact h
  dsimp only
  have hmoved : handedOff w.fdLog t = false := by
    by_contra hm
    exact (h.moved t c hc (by simpa using hm)).2 hfd
  have hun := h.closed_unregistered hc hfd
  have hcount := h.refs t c hc
  unfold Worker.holders at hcount
  have hm1 : Membership ((w.assert (c.quitedAt ≠ 0)).setChat t fun c =>
      { c with state := { c.state with zombie := true } }) :=
    (h.membership.of_same rfl rfl : Membership (w.assert _)).setChat t fun _ => rfl
  have hm2 : Membership { (w.assert (c.quitedAt ≠ 0)).setChat t fun c =>
      { c with state := { c.state with zombie := true } } with zombieList :=
        w.zombieList ++ [t] } :=
    hm1.of_same rfl rfl
  apply h.replace (x := some { c with state := { c.state with zombie := true }, refs :=
    c.refs + 1 }) hun
  · exact hm2.setChat t fun _ => rfl
  · exact h.queue
  · rfl
  · exact fun u d _ hd hne hdm => h.holds u d hd hne hdm
  · unfold Worker.setChat Worker.assert
    simp [hc]
  · exact fun _ _ => rfl
  · exact h.untouched
  · intro u hut
    refine ⟨?_, rfl⟩
    change (w.zombieList ++ [t]).count u = _
    simp [List.count_append, Ne.symm hut]
  · intro c' hc'
    obtain rfl := Option.some.inj hc'
    refine ⟨hfd, hend, hmoved, fun _ => rfl, ?_⟩
    change ((w.zombieList ++ [t]).count t + _ : ℤ) ≤ _
    unfold ChatConnection.spare at hcount ⊢
    simp only [List.count_append, List.count_singleton_self] at hcount ⊢
    push_cast at hcount ⊢
    omega
  · intro hx
    exact absurd hx (by simp)

/-- A refused connection goes to the zombie list. -/
theorem reject (h : Serving s q held w) {fd : ℤ} (hfresh : Fresh w fd) (ht : w.chats t = none)
    (W : World) : Serving s q held (oppUnref W (closeClient W (chatAlloc w t fd) t) t) := by
  obtain ⟨hun, hzero, hheld⟩ := h.slot_free ht
  obtain ⟨herase, hfind⟩ := entry_none (h.not_registered_of_fresh hfresh)
  have hm : Membership (oppUnref W (closeClient W (chatAlloc w t fd) t) t) := by
    have hP := membership_invariant W
    have halloc : Membership (chatAlloc w t fd) := h.membership.alloc ht fd
    exact hP.unref (hP.closeClient halloc t) t
  rw [reject_eq W w t hfresh.1] at hm ⊢
  have hregistrant : w.registrant fd = none := by
    unfold Worker.registrant
    rw [hfind]
    rfl
  rw [hregistrant] at hm ⊢
  have hopened : handedOff (w.fdLog ++ [.opened fd t]) t = false := handedOff_opened ..
  have hlog : handedOff (w.fdLog ++ [.opened fd t] ++ [.unregister fd t none] ++ [.close fd t]) t =
    false := by
    rw [List.append_assoc, handedOff_append _ _ _ fun e he => by
      rcases List.mem_append.mp he with he | he <;> obtain rfl := List.mem_singleton.mp he <;> simp]
    exact hopened
  apply h.replace (x := _) hun hm
  · exact h.queue
  · exact herase
  · intro u d hut hd hne hdm
    have hother : d.fd ≠ fd := by
      intro he
      rw [hfresh.2 u d hd he] at hdm
      exact absurd hdm (by decide)
    change (Function.update w.fds fd none d.fd).isSome
    rw [Function.update_of_ne hother]
    exact h.holds u d hd hne hdm
  · rfl
  · intro u hut
    dsimp only
    rw [List.append_assoc, List.append_assoc]
    apply handedOff_others hut
    intro e he
    simp only [List.cons_append, List.nil_append, List.mem_cons, List.not_mem_nil, or_false] at he
    rcases he with rfl | rfl | rfl <;> rfl
  · intro hstrict
    have hone : Untouched (w.fdLog ++ [.opened fd t]) :=
      (h.untouched hstrict).snoc (fun fd' t' u he => by cases he) fun u hu => by cases hu
    obtain ⟨htwo, hm2⟩ := untouched_end hone hopened fd none fun u hu => absurd hu (by simp)
    exact (untouched_close htwo hm2 fd).1
  · intro u hut
    refine ⟨?_, rfl⟩
    simp [List.count_append, Ne.symm hut]
  · intro c' hc'
    obtain rfl := Option.some.inj hc'
    refine ⟨rfl, Or.inl rfl, hlog, fun _ => rfl, ?_⟩
    simp [List.count_append, hzero, hheld, ChatConnection.spare, ChatConnection.initial]
  · intro hx
    exact absurd hx (by simp)

/-- The last reference is the one that is dropped: nobody else holds one. -/
theorem last_ref (h : Serving s q (t ::ₘ held) w) (hc : w.chats t = some c) (hlast : c.refs ≤ 1) :
    c.callbackData = none ∧ c.state.inRoom = false ∧ w.holders t = 0 ∧ held.count t = 0 ∧
      (∀ fd, (fd, t) ∉ w.eventLoop) ∧ (c.fd ≠ invalidFd → c.state.softQuit = true) := by
  have hr := h.refs t c hc
  rw [Multiset.count_cons_self] at hr
  have hdata : c.callbackData = none := by
    by_contra hsome
    unfold ChatConnection.spare at hr
    rw [if_pos (Option.isSome_iff_ne_none.mpr hsome)] at hr
    push_cast at hr
    omega
  unfold ChatConnection.spare at hr
  rw [hdata] at hr
  simp only [Option.isSome_none, Bool.false_eq_true, if_false] at hr
  push_cast at hr
  have hun : ∀ fd, (fd, t) ∉ w.eventLoop := by
    intro fd hmem
    have hpos : 0 < w.eventLoop.countP (·.2 = t) := List.countP_pos_iff.mpr ⟨_, hmem, by simp⟩
    unfold Worker.holders at hr
    push_cast at hr
    omega
  refine ⟨hdata, ?_, by omega, by omega, hun, fun hne => ?_⟩
  · rw [h.membership.inRoom t c hc, hdata]
    rfl
  · by_contra hs
    exact hun _ (h.registered t c hc hne (by simpa using hs))

/-- Nobody registered the number of a connection that lost its last reference, unless it was
handed off. -/
theorem number_free (h : Serving s q (t ::ₘ held) w) (hc : w.chats t = some c) (hlast : c.refs ≤ 1)
    (hmoved : handedOff w.fdLog t = true → ∀ u, (c.fd, u) ∉ w.eventLoop) (u : ℕ) :
    (c.fd, u) ∉ w.eventLoop := by
  cases hm : handedOff w.fdLog t with
  | true => exact hmoved hm u
  | false =>
    intro hmem
    obtain ⟨d, hd, hdfd, hne, hdm⟩ := h.entry c.fd u hmem
    obtain rfl := h.unique u t d c hd hc hdfd (by rwa [hdfd]) hdm hm
    exact (h.last_ref hc hlast).2.2.2.2.1 _ hmem

/-- A connection that lost its last reference goes. -/
theorem finish (h : Serving s q (t ::ₘ held) w) (hc : w.chats t = some c) (hlast : c.refs ≤ 1)
    (hmoved : handedOff w.fdLog t = true → ¬ s ∧ ∀ u, (c.fd, u) ∉ w.eventLoop) (W : World) :
    Serving s q held (finalizeChat W w t) := by
  obtain ⟨hdata, hin, hholders, hheld, hun, hsoft⟩ := h.last_ref hc hlast
  have hnone := h.number_free hc hlast fun hm => (hmoved hm).2
  unfold Worker.holders at hholders
  have hm : Membership { w with chats := Function.update w.chats t none } :=
    h.membership.free fun d hd => by
      rw [hc] at hd
      rwa [← Option.some.inj hd]
  rw [finalizeChat_eq w hc W hin hsoft hnone]
  apply h.replace (x := none) hun
  · exact hm.of_same rfl rfl
  · exact h.queue
  · rfl
  · exact fun u d _ hd hne hdm => h.holds u d hd hne hdm
  · rfl
  · intro u hut
    apply handedOff_others hut
    intro e he
    split at he
    · exact absurd he List.not_mem_nil
    · obtain rfl := List.mem_singleton.mp he
      rfl
  · intro hstrict
    have hno : handedOff w.fdLog t = false := by
      by_contra hm
      exact (hmoved (by simpa using hm)).1 hstrict
    dsimp only
    split
    · simpa using h.untouched hstrict
    · exact (untouched_end (h.untouched hstrict) hno _ none fun u hu => absurd hu (by simp)).1
  · exact fun u hut => ⟨rfl, (Multiset.count_cons_of_ne hut held).symm⟩
  · intro c' hx
    exact absurd hx (by simp)
  · intro _
    dsimp only
    omega

/-- An entry leaves the zombie list, with its reference. -/
theorem unlist (h : Serving s q held w) (ht : t ∈ w.zombieList) :
    Serving s q (t ::ₘ held) { w with zombieList := w.zombieList.erase t } := by
  obtain ⟨c, hc, hz⟩ := h.zombies t ht
  obtain ⟨hfd, hend⟩ := h.zombie t c hc hz
  have hun := h.closed_unregistered hc hfd
  have hpos : 0 < w.zombieList.count t := List.count_pos_iff.mpr ht
  have hcount := h.refs t c hc
  unfold Worker.holders at hcount
  apply h.replace (x := some c) hun
  · exact h.membership.of_same rfl rfl
  · exact h.queue
  · rfl
  · exact fun u d _ hd hne hdm => h.holds u d hd hne hdm
  · exact (Function.update_eq_self_iff.mpr hc.symm).symm
  · exact fun _ _ => rfl
  · exact h.untouched
  · intro u hut
    exact ⟨List.count_erase_of_ne hut, Multiset.count_cons_of_ne hut held⟩
  · intro c' hx
    obtain rfl := Option.some.inj hx
    refine ⟨hfd, hend, ?_, fun _ => hz, ?_⟩
    · by_contra hm
      exact (h.moved t _ hc (by simpa using hm)).2 hfd
    · dsimp only
      rw [List.count_erase_self, Multiset.count_cons_self]
      push_cast at hcount ⊢
      omega
  · intro hx
    exact absurd hx (by simp)

/-- A log-off outside every room. -/
theorem logoff (h : Serving s q held w) {W : World} (ht : Outside w t) :
    Serving s q held (logoffUser W w t) := by
  have hm := ((membership_invariant W).logoff h.membership ht).1
  unfold logoffUser at hm ⊢
  split
  · exact h
  · rename_i hname
    rw [if_neg hname] at hm
    have hcall :
        Serving s q held (w.call (.unset (-1) none (buildNameKey W.txt (w.chat t).name))) :=
      h.same (h.membership.of_same rfl rfl) rfl rfl rfl rfl rfl rfl
    exact hcall.logged hm fun _ => ⟨rfl, rfl, rfl⟩

end Serving
end Nginz
