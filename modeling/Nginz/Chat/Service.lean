import Nginz.Chat.ServingEnds
import Nginz.Chat.JoinHandOff
import Nginz.Chat.Replies

/-! What the handlers of a worker keep: an invariant that the operations on one connection
keep is kept by the handlers, whatever they do with the descriptors. -/
namespace Nginz

/-- What the event loop and the references of a connection depend on. -/
def ChatConnection.serviceView (c : ChatConnection) :
    ℤ × Bool × (Bool × Bool × Bool) × ℕ × Option ℕ :=
  (c.fd, c.error, (c.state.quit, c.state.softQuit, c.state.zombie), c.refs, c.callbackData)

theorem steady_of_view {c c' : ChatConnection} (h : c'.serviceView = c.serviceView) :
    Steady c c' ∧ c'.spare = c.spare := by
  simp only [ChatConnection.serviceView, Prod.mk.injEq] at h
  obtain ⟨hfd, -, ⟨hq, hs, hz⟩, hr, hd⟩ := h
  refine ⟨⟨hfd, hz, fun hx => by rw [hq, hx], fun hx => by rw [← hs, hx]⟩, ?_⟩
  unfold ChatConnection.spare
  rw [hr, hd]

/-- The operations on an old connection keep `P`. When `named`, the name of a connection changes
in no other way than by the hook of a login, and when `leaks`, a reference may be
forgotten. -/
structure HandlerInvariant (W : World) (strict named leaks : Prop)
    (P : List LazyObject → Multiset ℕ → Worker → Prop) : Prop where
  serving : ∀ {q held w}, P q held w → Serving strict q held w
  honest : ∀ {q held w t c}, named → P q held w → w.chats t = some c → c.ending = false →
    c.name ≠ [] → c.state.loggedIn = true
  routine : ∀ {q held w w'}, P q held w → Routine W w w' → Membership w' → P q held w'
  weaken : ∀ {q held held' w}, leaks → P q held w → held' ≤ held → P q held' w
  requeue : ∀ {q held w}, P q held w → ∀ q', P q' held { w with lazyCleanup := q' }
  tick : ∀ {q held w}, P q held w → ∀ gear clock quiting,
    P q held { w with gear := gear, clock := clock, quiting := quiting }
  get : ∀ {q held w t c}, P q held w → w.chats t = some c →
    P q (t ::ₘ held) (w.setChat t fun c => { c with refs := c.refs + 1 })
  drop : ∀ {q held w t c}, P q (t ::ₘ held) w → w.chats t = some c → 1 < c.refs →
    P q held (w.setChat t fun c => { c with refs := c.refs - 1 })
  unlist : ∀ {q held w t}, P q held w → t ∈ w.zombieList →
    P q (t ::ₘ held) { w with zombieList := w.zombieList.erase t }
  zombieAdd : ∀ {q held w t c}, P q held w → w.chats t = some c → c.fd = invalidFd →
    c.state.quit = true ∨ c.state.softQuit = true → P q held (chatZombieAdd w t)
  relabel : ∀ {q held w t f}, ¬ named → P q held w → Membership (w.setChat t f) →
    (∀ c, (f c).serviceView = c.serviceView) → P q held (w.setChat t f)
  logoff : ∀ {q held w t}, P q held w → Outside w t →
    (named → (w.chat t).state.loggedIn = true ∧ handedOff w.fdLog t = false ∧
      ((w.chat t).state.quit = true ∨ (w.chat t).state.softQuit = true)) →
    P q held (logoffUser W w t)
  release : ∀ {q held w t c}, P q held w → w.chats t = some c →
    (c.fd, t) ∈ w.eventLoop → Outside w t → c.state.quit = true ∨ c.state.softQuit = true →
    (c.state.loggedIn = true → c.name = []) → P q (t ::ₘ held) (releaseFd w t)
  transferOut : ∀ {q held w t c}, P q held w → ∀ room pid, w.chats t = some c →
    (c.fd, t) ∈ w.eventLoop → Outside w t →
    (named → ValidRoom room ∧ (c.name ≠ [] → c.state.loggedIn = true)) →
    P q (t ::ₘ held) (transferOut W w t room pid)
  finish : ∀ {q held w t c}, P q (t ::ₘ held) w → w.chats t = some c → c.refs ≤ 1 →
    (handedOff w.fdLog t = true → ¬ strict ∧ ∀ u, (c.fd, u) ∉ w.eventLoop) →
    P q held (finalizeChat W w t)

/-- So do the operations on a new one. -/
structure ServiceInvariant (W : World) (strict named leaks : Prop)
    (P : List LazyObject → Multiset ℕ → Worker → Prop) : Prop extends
    HandlerInvariant W strict named leaks P where
  install : ∀ {q held w fd}, P q held w → Serving.Fresh w fd → ∀ socket,
    P q held { w with fds := Function.update w.fds fd (some socket) }
  arrive : ∀ {q held w t fd}, P q held w → Serving.Fresh w fd → (w.fds fd).isSome →
    w.chats t = none → P q held ((chatAlloc w t fd).eventLoopRegisterFd fd t)
  reject : ∀ {q held w t fd}, P q held w → Serving.Fresh w fd → w.chats t = none →
    P q held (oppUnref W (closeClient W (chatAlloc w t fd) t) t)

/-- A closed connection that its handler still holds a reference to. -/
def Closed (w : Worker) (t : ℕ) : Prop :=
  ∃ c, w.chats t = some c ∧ c.fd = invalidFd ∧ (c.state.quit = true ∨ c.state.softQuit = true) ∧
    (c.state.zombie = true → t ∈ w.zombieList)

/-- A worker between its handlers: the references that the lazy queue will drop. -/
def queued (q : List LazyObject) : Multiset ℕ :=
  ((q.filterMap fun | .chat t => some t | .zombie _ => none : List ℕ) : Multiset ℕ)

def AtRest (P : List LazyObject → Multiset ℕ → Worker → Prop) (w : Worker) : Prop :=
  P w.lazyCleanup (queued w.lazyCleanup) w

theorem queued_chat (q : List LazyObject) (t : ℕ) : queued (q ++ [.chat t]) = t ::ₘ queued q := by
  unfold queued
  rw [List.filterMap_append, ← Multiset.coe_add, add_comm]
  rfl

theorem queued_zombie (q : List LazyObject) (t : ℕ) : queued (q ++ [.zombie t]) = queued q := by
  unfold queued
  rw [List.filterMap_append]
  simp

theorem Attached.setChat {w : Worker} {t u : ℕ} (h : Attached w t)
    {f : ChatConnection → ChatConnection}
    (hf : ∀ c, (f c).fd = c.fd) : Attached (w.setChat u f) t := by
  obtain ⟨c, hc, hreg⟩ := h
  by_cases ht : t = u
  · subst ht
    exact ⟨f c, by rw [w.setChat_same, hc]; rfl, by rw [hf]; exact hreg⟩
  · exact ⟨c, by rw [w.setChat_other u f ht, hc], hreg⟩

theorem Attached.logoff {W : World} {w : Worker} {t : ℕ} (h : Attached w t) (u : ℕ) :
    Attached (logoffUser W w u) t := by
  unfold logoffUser
  split
  · exact h
  · have hcall : Attached (w.call (.unset (-1) none (buildNameKey W.txt (w.chat u).name))) t := h
    exact hcall.setChat fun _ => rfl

namespace HandlerInvariant
variable {W : World} {strict named leaks : Prop} {P : List LazyObject → Multiset ℕ → Worker → Prop}
  (hP : HandlerInvariant W strict named leaks P)
  {q : List LazyObject} {held : Multiset ℕ} {w : Worker} {t : ℕ}
include hP

theorem membership (h : P q held w) : Membership w := (hP.serving h).membership

/-- Routine work that keeps the rooms as it finds them. -/
theorem sends {w' : Worker} (h : P q held w) (hs : OnlySends W w w') : P q held w' :=
  hP.routine h (.of_onlySends hs) ((hP.membership h).onlySends hs)

theorem send (h : P q held w) (t : ℕ) (content : Bytes) :
    P q held (defaultChatSend W w t content) :=
  hP.sends h (onlySends_send W w t content)

theorem assert (h : P q held w) (b : Bool) : P q held (w.assert b) :=
  hP.routine h (routine_assert W w b) ((hP.membership h).of_same rfl rfl)

theorem leave (h : P q held w) (t : ℕ) : P q held (broadcastRoomLeave W w t) :=
  hP.routine h (routine_leave W w t) ((hP.membership h).leave W t).1

theorem join (h : P q held w) (ht : Attached w t) (room : Bytes) :
    P q held (broadcastRoomJoin W w t room).1 :=
  hP.routine h (routine_join W w ht room) ((hP.membership h).join W t room)

/-! ### Closing -/

/-- The close of a connection up to the release of its descriptor. -/
theorem beforeRelease (h : P q held w) {c : ChatConnection} (hc : w.chats t = some c)
    (hmoved : handedOff w.fdLog t = false) : ∃ w1 c1, defaultChatClose W w t = releaseFd w1 t ∧
      P q held w1 ∧ w1.chats t = some c1 ∧ c1.fd = c.fd ∧ c1.state.zombie = c.state.zombie ∧
      (c1.state.quit = true ∨ c1.state.softQuit = true) ∧
      (c1.state.loggedIn = true → c1.name = []) ∧ Outside w1 t ∧
      w1.eventLoop = w.eventLoop ∧ w1.zombieList = w.zombieList := by
  obtain ⟨w3, c3, hclose, hr, hc3, hend3, hleft⟩ := close_routine w hc W
  obtain ⟨hmem, hout⟩ := hleft (hP.membership h)
  have h3 := hP.routine h hr hmem
  obtain ⟨c', hc', hf⟩ := hr.chats_some hc
  obtain rfl := Option.some.inj (hc3.symm.trans hc')
  have hoff : P q held (if c3.state.loggedIn then logoffUser W w3 t else w3) := by
    split
    · rename_i hlogin
      refine hP.logoff h3 hout fun _ => ?_
      rw [Serving.handedOff_routine hr, w3.chat_of_some t hc3]
      exact ⟨hlogin, hmoved, hend3⟩
    · exact h3
  have heq := logoffUser_if w3 hc3 W
  refine ⟨_, c3.loggedOff, hclose, hoff, ?_, hf.fd, hf.zombie, hend3, ?_, ?_, ?_, ?_⟩
  · rw [heq]
    exact Function.update_self ..
  · intro hlogin
    exact (by simpa using (Bool.and_eq_true_iff.mp hlogin).2 : c3.name = [])
  · intro d hd
    rw [heq] at hd
    obtain rfl := Option.some.inj ((Function.update_self t (some c3.loggedOff)
      w3.chats).symm.trans hd)
    exact hout c3 hc3
  · rw [heq]
    exact hr.eventLoop_eq
  · rw [heq]
    exact hr.zombieList_eq

/-- The close of a connection that is registered. -/
theorem close (h : P q held w) (ht : Attached w t) :
    P q (t ::ₘ held) (defaultChatClose W w t) ∧ Closed (defaultChatClose W w t) t := by
  obtain ⟨c, hc, hreg⟩ := ht
  obtain ⟨-, -, -, hne, hmoved⟩ := (hP.serving h).entry c.fd t hreg
  obtain ⟨w1, c1, heq, h1, hc1, hfd, hz, hend, hoff, hout, hloop, -⟩ := hP.beforeRelease h hc hmoved
  have hreg1 : (c1.fd, t) ∈ w1.eventLoop := by rwa [hfd, hloop]
  rw [heq]
  refine ⟨hP.release h1 hc1 hreg1 hout hend hoff, { c1 with fd := invalidFd }, ?_, rfl, hend, ?_⟩
  · rw [releaseFd_eq w1 hc1 (by rwa [hfd])]
    exact Function.update_self ..
  · intro hzombie
    exact absurd ((hP.serving h1).zombie t c1 hc1 hzombie).1 (by rwa [hfd])

/-- A second close leaves the descriptors alone. -/
theorem closeAgain (h : P q held w) (ht : Closed w t) :
    P q held (defaultChatClose W w t) ∧ Closed (defaultChatClose W w t) t := by
  obtain ⟨c, hc, hfd, -, hlisted⟩ := ht
  have hmoved : handedOff w.fdLog t = false := by
    by_contra hm
    exact ((hP.serving h).moved t c hc (by simpa using hm)).2 hfd
  obtain ⟨w1, c1, heq, h1, hc1, hfd1, hz, hend, -, -, -, hlist⟩ := hP.beforeRelease h hc hmoved
  rw [heq, releaseFd_closed w1 hc1 (hfd1.trans hfd)]
  exact ⟨h1, c1, hc1, hfd1.trans hfd, hend, by rw [hz, hlist]; exact hlisted⟩

/-- The entry of a closed connection in the zombie list. -/
theorem bury (h : P q held w) (ht : Closed w t) : P q held (chatZombieAdd w t) ∧
    Closed (chatZombieAdd w t) t ∧ t ∈ (chatZombieAdd w t).zombieList := by
  obtain ⟨c, hc, hfd, hend, hlisted⟩ := ht
  refine ⟨hP.zombieAdd h hc hfd hend, ?_⟩
  unfold chatZombieAdd
  rw [w.chat_of_some t hc]
  split
  · rename_i hz
    exact ⟨⟨c, hc, hfd, hend, hlisted⟩, hlisted hz⟩
  · have hmem : t ∈ w.zombieList ++ [t] := by simp
    refine ⟨⟨{ c with state := { c.state with zombie := true }, refs := c.refs + 1 }, ?_, hfd, hend,
      fun _ => hmem⟩, hmem⟩
    unfold Worker.setChat Worker.assert
    simp [hc]

/-- A connection that a handler attends to: it is registered, or it is closed and the
handler holds the reference of its registration. -/
def Attended (_ : HandlerInvariant W strict named leaks P) (q : List LazyObject)
    (held : Multiset ℕ) (w : Worker) (t : ℕ) : Prop :=
  P q held w ∧ Attached w t ∨ P q (t ::ₘ held) w ∧ Closed w t

theorem closeClient (h : hP.Attended q held w t) :
    P q (t ::ₘ held) (closeClient W w t) ∧ Closed (closeClient W w t) t ∧
      t ∈ (closeClient W w t).zombieList := by
  unfold Nginz.closeClient
  rcases h with ⟨h, ht⟩ | ⟨h, ht⟩
  · obtain ⟨hc, hcl⟩ := hP.close h ht
    exact hP.bury hc hcl
  · obtain ⟨hc, hcl⟩ := hP.closeAgain h ht
    exact hP.bury hc hcl

/-- A reference that somebody else holds one more of is dropped. -/
theorem dropHeld (h : P q (t ::ₘ held) w) {c : ChatConnection} (hc : w.chats t = some c)
    (hmore : 0 < w.holders t + held.count t) : P q held (oppUnref W w t) := by
  have hr := (hP.serving h).refs t c hc
  rw [Multiset.count_cons_self] at hr
  have hlast : 1 < c.refs := by
    unfold ChatConnection.spare at hr
    split at hr <;> push_cast at hr <;> omega
  unfold oppUnref
  rw [hc]
  dsimp only
  rw [if_neg (by omega)]
  exact hP.drop h hc hlast

/-- The client is gone for the event loop. -/
theorem dismiss (h : hP.Attended q held w t) :
    P q held (oppUnref W (Nginz.closeClient W w t) t) := by
  obtain ⟨hc, ⟨c, hcc, -⟩, hmem⟩ := hP.closeClient h
  apply hP.dropHeld hc hcc
  unfold Worker.holders
  have hpos := List.count_pos_iff.mpr hmem
  omega

/-! ### Requests -/

theorem quitPlug (h : P q held w) (ht : Attached w t)
    (hlogin : named → (w.chat t).state.loggedIn = true) :
    P q held (chatQuitPlug W w t).1 ∧ Attached (chatQuitPlug W w t).1 t := by
  unfold chatQuitPlug
  split
  · exact ⟨h, ht⟩
  have hleft := hP.leave h t
  have hrl := routine_leave W w t
  have hr : Routine W (broadcastRoomLeave W w t)
      ((broadcastRoomLeave W w t).setState t fun s => { s with quit := true }) :=
    .setChat t (fun c _ => ⟨rfl, rfl, rfl, rfl, fun _ => rfl, id, le_rfl⟩) (fun _ => rfl)
          fun _ => ⟨rfl, rfl⟩
  have hquit : P q held ((broadcastRoomLeave W w t).setState t fun s => { s with quit := true }) :=
    hP.routine hleft hr ((hP.membership hleft).setChat t fun _ => rfl)
  have hout : Outside ((broadcastRoomLeave W w t).setState t fun s => { s with quit := true }) t :=
    Outside.setChat ((hP.membership h).leave W t).2 fun _ => rfl
  have hatt := ht.routine (hrl.trans hr)
  obtain ⟨c, hc, hreg⟩ := ht
  have hmoved := (hP.serving h).entry c.fd t hreg
  have hoff : P q held (logoffUser W
      ((broadcastRoomLeave W w t).setState t fun s => { s with quit := true }) t) := by
    refine hP.logoff hquit hout fun hn => ?_
    obtain ⟨c', hc', hf⟩ := (hrl.trans hr).chats_some hc
    have hl := hlogin hn
    have hquits : c'.state.quit = true := by
      obtain ⟨d, hd, -⟩ := hrl.chats_some hc
      unfold Worker.setState at hc'
      rw [Worker.setChat_same, hd] at hc'
      rw [← Option.some.inj hc']
    rw [w.chat_of_some t hc] at hl
    rw [Worker.chat_of_some _ t hc', hf.loggedIn, Serving.handedOff_routine (hrl.trans hr)]
    exact ⟨hl, hmoved.choose_spec.2.2.2, Or.inl hquits⟩
  exact ⟨hP.send hoff t _, (hatt.logoff t).routine (routine_send W _ t _)⟩

theorem hiddenjoin (hnamed : ¬ named) (h : P q held w) (ht : Attached w t) (request : Bytes) :
    P q held (chatHiddenjoinPlug W w t request) ∧
      Attached (chatHiddenjoinPlug W w t request) t := by
  unfold chatHiddenjoinPlug
  split
  · exact ⟨h, ht⟩
  have hlogin : P q held (w.setState t fun s => { s with loggedIn := true }) :=
    hP.relabel hnamed h ((hP.membership h).setLoggedIn t (fun c => ⟨rfl, rfl⟩) fun c hc hin => rfl)
      fun _ => rfl
  have hatt : Attached (w.setState t fun s => { s with loggedIn := true }) t :=
    ht.setChat fun _ => rfl
  dsimp only
  split
  · exact ⟨hlogin, hatt⟩
  · rename_i room name _
    have hname : P q held ((w.setState t fun s => { s with loggedIn := true }).setChat t fun c =>
        { c with name := name }) :=
      hP.relabel hnamed hlogin ((hP.membership hlogin).setChat t fun _ => rfl) fun _ => rfl
    have hnamed : Attached ((w.setState t fun s => { s with loggedIn := true }).setChat t fun c =>
        { c with name := name }) t := hatt.setChat fun _ => rfl
    exact ⟨hP.join hname hnamed room, hnamed.routine (routine_join W _ hnamed room)⟩

/-- Every plugin keeps the invariant and the registration of its client. -/
theorem bridge (h : P q held w) (ht : Attached w t) {space : Bytes} (request : Bytes)
    (hhidden : named → space ≠ lit "chat/_hiddenjoin")
    (hlogin : named → space = lit "chat/quit" → (w.chat t).state.loggedIn = true) :
    P q held (pluginBridgeCall W w t space request).1 ∧
      Attached (pluginBridgeCall W w t space request).1 t := by
  have hroutine {w' : Worker} (hr : Routine W w w') (hm : Membership w') :
      P q held w' ∧ Attached w' t := ⟨hP.routine h hr hm, ht.routine hr⟩
  have hM := membership_invariant W
  have hm := hP.membership h
  unfold pluginBridgeCall
  split
  · exact hroutine (routine_welcome W w t) (hM.welcome hm t)
  split
  · rename_i hspace
    exact hP.hiddenjoin (fun hn => hhidden hn hspace) h ht request
  split
  · exact hroutine (routine_joinPlug W w t request) (hM.joinPlug hm t request)
  split
  · exact hroutine (routine_leavePlug W w t) (hM.leavePlug hm t)
  split
  · rename_i hspace
    exact hP.quitPlug h ht fun hn => hlogin hn hspace
  split
  · exact hroutine (routine_pm W w t request) (hM.pm hm t request)
  split
  · dsimp only
    split
    · exact hroutine (routine_send W w t _) (hM.send hm t _)
    · exact ⟨h, ht⟩
  · exact ⟨h, ht⟩

/-- When names matter, the line of a client reaches no hidden space. -/
def Public (W : World) (named : Prop) (line : Bytes) : Prop :=
  named → line.head? = some 47 →
    ∀ space rest, commandHook W.txt line = .dispatch space rest → ¬ HiddenSpace space

omit hP in
theorem hidden_hiddenjoin : HiddenSpace (lit "chat/_hiddenjoin") := by decide +kernel

theorem command (h : P q held w) (ht : Attached w t) {request : Bytes}
    (hpublic : Public W named request) (hslash : request.head? = some 47)
    (hlogin : (w.chat t).state.loggedIn = true) :
    P q held (onCommand W w t request).1 ∧ Attached (onCommand W w t request).1 t := by
  unfold onCommand
  split
  · exact ⟨h, ht⟩
  · exact ⟨h, ht⟩
  · rename_i space rest hspace
    refine hP.bridge h ht rest (fun hn hs => ?_) fun _ _ => hlogin
    apply hpublic hn hslash space rest hspace
    rw [hs]
    exact hidden_hiddenjoin

theorem answer (h : P q held w) (ht : Attached w t) {request : Bytes}
    (hpublic : Public W named request) :
    P q held (answerRequest W w t request) ∧ Attached (answerRequest W w t request) t := by
  have hM := membership_invariant W
  unfold answerRequest
  dsimp only
  split
  · rename_i hslash
    obtain ⟨hcmd, hatt⟩ := hP.command h ht hpublic hslash.1 hslash.2
    split
    · exact ⟨hcmd, hatt⟩
    · have hr := routine_cannotProcess W (onCommand W w t request).1 t
      exact ⟨hP.routine hcmd hr (hM.cannotProcess (hP.membership hcmd) t), hatt.routine hr⟩
  · have hr := routine_talk W w t request
    have hm : Membership (answerRequest W w t request) := hM.answer (hP.membership h) t request
    unfold answerRequest at hm
    dsimp only at hm
    rename_i hslash
    rw [if_neg hslash] at hm
    exact ⟨hP.routine h hr hm, ht.routine hr⟩

theorem handleRequest (h : P q held w) (ht : Attached w t) {request : Bytes}
    (hpublic : Public W named request) :
    hP.Attended q held (handleChatRequest W w t request) t := by
  have hend (v : Worker) (hv : hP.Attended q held v t) :
      hP.Attended q held (Nginz.closeClient W v t) t := by
    obtain ⟨hc, hcl, -⟩ := hP.closeClient hv
    exact Or.inr ⟨hc, hcl⟩
  unfold handleChatRequest
  split
  · exact Or.inl ⟨h, ht⟩
  split
  · exact hend w (Or.inl ⟨h, ht⟩)
  have hanswer := hP.answer h ht hpublic
  dsimp only
  split
  · exact hend _ (Or.inl hanswer)
  · exact Or.inl hanswer

theorem Attended.attached (h : hP.Attended q held w t)
    (hlive : ¬ ((w.chat t).state.quit || (w.chat t).state.softQuit) = true) : P q held w := by
  rcases h with ⟨h, -⟩ | ⟨-, c, hc, -, hend, -⟩
  · exact h
  · rw [w.chat_of_some t hc] at hlive
    simp at hlive
    rcases hend with he | he
    · rw [hlive.1] at he
      exact absurd he (by decide)
    · rw [hlive.2] at he
      exact absurd he (by decide)

/-- The event loop dispatches to a registered connection. -/
theorem clientData (h : P q held w) {fd : ℤ} (hreg : (fd, t) ∈ w.eventLoop) {result : RecvResult}
    (hpublic : ∀ bytes, result = .data bytes → Public W named bytes) :
    P q held (onClientData W w fd t result) := by
  obtain ⟨c, hc, hfd, -, -⟩ := (hP.serving h).entry fd t hreg
  have ht : Attached w t := ⟨c, hc, by rwa [hfd]⟩
  unfold onClientData
  split
  · exact h
  split
  · exact hP.dismiss (Or.inl ⟨h, ht⟩)
  have ha : P q held (w.assert (fd = (w.chat t).fd)) := hP.assert h _
  have hatt : Attached (w.assert (fd = (w.chat t).fd)) t := ht
  have hgone := hP.dismiss (Or.inl ⟨ha, hatt⟩)
  dsimp only
  split
  · exact hgone
  · exact hgone
  · rename_i bytes
    split
    · exact hgone
    have hreq := hP.handleRequest ha hatt (hpublic bytes rfl)
    split
    · exact hP.dismiss hreq
    · rename_i hlive
      exact Attended.attached hP hreq hlive

end HandlerInvariant

/-- The service invariant is one, also when references are forgotten. -/
theorem serving_invariant (W : World) (strict : Prop) :
    ServiceInvariant W strict False True (Serving strict) where
  serving h := h
  honest hn := absurd hn not_false
  routine h hr hm := h.routine hr hm
  weaken _ h hle := h.weaken hle
  requeue h q' := h.requeue q'
  tick h _ _ _ := h.same (h.membership.of_same rfl rfl) rfl rfl rfl rfl rfl rfl
  get h hc := h.get hc
  drop h hc hmore := h.drop hc hmore
  unlist h ht := h.unlist ht
  zombieAdd h hc hfd hend := h.zombieAdd hc hfd hend
  relabel {q held w t f} _ h hm hf := by
    cases hc : w.chats t with
    | none =>
      refine h.same hm ?_ rfl rfl rfl rfl rfl
      exact Worker.setChat_absent f hc
    | some c =>
      obtain ⟨hsteady, hspare⟩ := steady_of_view (hf c)
      exact h.setChat hc hm hsteady (fun _ _ => rfl) (by rw [hspare])
  logoff h hout _ := h.logoff hout
  install h hfresh socket := h.install hfresh socket
  arrive h hfresh hopen ht := h.arrive hfresh hopen ht
  reject h hfresh ht := h.reject hfresh ht W
  release h hc hreg _ hend _ := h.release hc hreg hend
  transferOut h room pid hc hreg _ _ := h.transferOut hc hreg W room pid
  finish h hc hlast hmoved := h.finish hc hlast hmoved W

end Nginz
