import Nginz.Chat.Replies

/-! Owned names: a worker gives up a name that one of its connections owns only together
with a request to the store to remove it. -/
namespace Nginz

/-- The connection is not closed, and it is logged in under the name. -/
def ChatConnection.Owns (c : ChatConnection) (name : Bytes) : Prop :=
  c.fd ≠ invalidFd ∧ c.state.loggedIn = true ∧ c.name = name

instance (c : ChatConnection) (name : Bytes) : Decidable (c.Owns name) := by
  unfold ChatConnection.Owns
  infer_instance

/-- One of the connections owns the name. -/
def Worker.Owned (w : Worker) (name : Bytes) : Prop := ∃ t c, w.chats t = some c ∧ c.Owns name

/-- The calls of a worker on behalf of its clients. -/
inductive ClientCall (L : TxtLib) : DbCall → Prop where
  | routine {c : DbCall} (h : RoutineCall L c) : ClientCall L c
  | logoff (name : Bytes) : ClientCall L (.unset (-1) none (buildNameKey L name))

/-- Names that were owned before are owned afterwards, or their removal is requested. -/
structure NamesKept (W : World) (w w' : Worker) : Prop where
  pid : w'.pid = w.pid
  calls : ∃ cs, w'.calls = w.calls ++ cs ∧ (∀ c ∈ cs, ClientCall W.txt c) ∧
    ∀ name, name ≠ [] → w.Owned name →
      w'.Owned name ∨ .unset (-1) none (buildNameKey W.txt name) ∈ cs

namespace NamesKept
variable {W : World} {w w' w'' : Worker}

/-- A change that makes no call and after which every owner is one still. -/
theorem of_owners (hpid : w'.pid = w.pid) (hcalls : w'.calls = w.calls)
    (h : ∀ name, name ≠ [] → w.Owned name → w'.Owned name) : NamesKept W w w' :=
  ⟨hpid, [], by rw [hcalls, List.append_nil], fun c hc => absurd hc List.not_mem_nil,
    fun name hn ho => Or.inl (h name hn ho)⟩

theorem same (hpid : w'.pid = w.pid) (hcalls : w'.calls = w.calls) (hchats : w'.chats = w.chats) :
    NamesKept W w w' :=
  of_owners hpid hcalls fun name _ ⟨t, c, hc, ho⟩ => ⟨t, c, by rw [hchats, hc], ho⟩

protected theorem refl (w : Worker) : NamesKept W w w := same rfl rfl rfl

protected theorem trans (h : NamesKept W w w') (h' : NamesKept W w' w'') : NamesKept W w w'' := by
  obtain ⟨cs, hcs, hall, hown⟩ := h.calls
  obtain ⟨cs', hcs', hall', hown'⟩ := h'.calls
  refine ⟨h'.pid.trans h.pid, cs ++ cs', by rw [hcs', hcs, List.append_assoc], ?_, ?_⟩
  · intro c hc
    rcases List.mem_append.mp hc with hc | hc
    · exact hall c hc
    · exact hall' c hc
  · intro name hn ho
    rcases hown name hn ho with ho' | hasked
    · exact (hown' name hn ho').imp_right (List.mem_append_right cs)
    · exact Or.inr (List.mem_append_left cs' hasked)

theorem of_routine (h : Routine W w w') : NamesKept W w w' := by
  obtain ⟨cs, hcs, hall⟩ := h.calls
  refine ⟨h.pid_eq, cs, hcs, fun c hc => .routine (hall c hc), ?_⟩
  rintro name - ⟨t, c, hc, hfd, hl, hn⟩
  obtain ⟨c', hc', hf⟩ := h.chats_some hc
  exact Or.inl ⟨t, c', hc', by rwa [hf.fd], by rwa [hf.loggedIn], by rwa [hf.name]⟩

theorem of_onlySends (h : OnlySends W w w') : NamesKept W w w' := of_routine (.of_onlySends h)

/-- A change of one connection that keeps its name. -/
theorem setChat (t : ℕ) {f : ChatConnection → ChatConnection}
    (hf : ∀ c name, w.chats t = some c → name ≠ [] → c.Owns name → (f c).Owns name) :
    NamesKept W w (w.setChat t f) := by
  refine of_owners rfl rfl fun name hn howned => ?_
  obtain ⟨u, c, hc, ho⟩ := howned
  by_cases hu : u = t
  · subst hu
    exact ⟨u, f c, by rw [w.setChat_same, hc]; rfl, hf c name hc hn ho⟩
  · exact ⟨u, c, by rw [w.setChat_other t f hu, hc], ho⟩

theorem foldl {α : Type*} {f : Worker → α → Worker} (hf : ∀ w a, NamesKept W w (f w a))
    (xs : List α) (w : Worker) : NamesKept W w (xs.foldl f w) := by
  induction xs generalizing w with
  | nil => exact .refl w
  | cons x xs ih => exact (hf w x).trans (ih _)

end NamesKept

/-! ### Closing and finalizing -/

section Closing
variable (W : World) (w : Worker) (t : ℕ)

/-- The connection in the slot, if any, is logged in under no name. -/
def Nameless (w : Worker) (t : ℕ) : Prop :=
  ∀ c, w.chats t = some c → c.state.loggedIn = true → c.name = []

theorem kept_logoff : NamesKept W w (logoffUser W w t) := by
  unfold logoffUser
  split
  · exact .refl w
  refine ⟨rfl, [.unset (-1) none (buildNameKey W.txt (w.chat t).name)], rfl, ?_, ?_⟩
  · intro c hc
    obtain rfl := List.mem_singleton.mp hc
    exact .logoff _
  · rintro name - ⟨u, c, hc, ho⟩
    by_cases hu : u = t
    · subst hu
      have hname : (w.chat u).name = name := by
        rw [w.chat_of_some u hc]
        exact ho.2.2
      exact Or.inr (by simp [hname])
    · exact Or.inl ⟨u, c, (Worker.setChat_other _ t _ hu).trans hc, ho⟩

/-- Whoever logs off when logged in is logged in under no name afterwards. -/
theorem logoff_nameless :
    Nameless (if (w.chat t).state.loggedIn then logoffUser W w t else w) t := by
  intro c hc hl
  split at hc
  · unfold logoffUser at hc
    split at hc
    · rename_i hname
      rwa [w.chat_of_some t hc] at hname
    · unfold Worker.setState at hc
      rw [Worker.setChat_same] at hc
      obtain ⟨d, -, rfl⟩ := Option.map_eq_some_iff.mp hc
      exact absurd hl (by simp)
  · rename_i hout
    rw [w.chat_of_some t hc] at hout
    exact absurd hl hout

theorem kept_releaseFd {w : Worker} {t : ℕ} (h : Nameless w t) :
    NamesKept W w (releaseFd w t) ∧ Nameless (releaseFd w t) t := by
  unfold releaseFd
  split
  swap
  · exact ⟨.refl w, h⟩
  dsimp only
  have hfree {v : Worker} (hchats : v.chats = w.chats) (hpid : v.pid = w.pid)
      (hcalls : v.calls = w.calls) : NamesKept W w
        (v.setChat t fun c => { c with fd := invalidFd }) ∧
        Nameless (v.setChat t fun c => { c with fd := invalidFd }) t := by
    constructor
    · refine (NamesKept.same hpid hcalls hchats).trans (.setChat t fun c name hc hn ho => ?_)
      rw [hchats] at hc
      exact absurd (ho.2.2.symm.trans (h c hc ho.2.1)) hn
    · intro c hc hl
      rw [Worker.setChat_same, hchats] at hc
      obtain ⟨d, hd, rfl⟩ := Option.map_eq_some_iff.mp hc
      exact h d hd hl
  split
  · exact hfree rfl rfl rfl
  · exact hfree rfl rfl rfl

theorem kept_close :
    NamesKept W w (defaultChatClose W w t) ∧ Nameless (defaultChatClose W w t) t := by
  have hquit (v : Worker) (f : ChatConnection → ChatConnection) (b : Prop) [Decidable b]
      (hf : ∀ c, (f c).fd = c.fd ∧ (f c).state.loggedIn = c.state.loggedIn ∧ (f c).name = c.name) :
      NamesKept W v (if b then v.setChat t f else v) := by
    split
    · refine .setChat t fun c name _ _ ho => ?_
      obtain ⟨hfd, hl, hn⟩ := hf c
      exact ⟨by rw [hfd]; exact ho.1, by rw [hl]; exact ho.2.1, by rw [hn]; exact ho.2.2⟩
    · exact .refl v
  have hleave (v : Worker) : NamesKept W v (if (v.chat t).state.inRoom then broadcastRoomLeave W v t
      else v) := by
    split
    · exact .of_routine (routine_leave W v t)
    · exact .refl v
  have hlogoff (v : Worker) :
      NamesKept W v (if (v.chat t).state.loggedIn then logoffUser W v t else v) := by
    split
    · exact kept_logoff W v t
    · exact .refl v
  unfold defaultChatClose Worker.setState
  dsimp only
  obtain ⟨hrelease, hnameless⟩ := kept_releaseFd W (logoff_nameless W _ t)
  refine ⟨?_, hnameless⟩
  refine NamesKept.trans ?_ hrelease
  refine NamesKept.trans ?_ (hlogoff _)
  refine NamesKept.trans ?_ (hleave _)
  refine NamesKept.trans (hquit w _ _ ?_) (hquit _ _ _ ?_)
  · exact fun c => ⟨rfl, rfl, rfl⟩
  · exact fun c => ⟨rfl, rfl, rfl⟩

theorem kept_finalize : NamesKept W w (finalizeChat W w t) := by
  obtain ⟨hclose, hnameless⟩ := kept_close W w t
  refine hclose.trans (NamesKept.of_owners rfl rfl fun name hn howned => ?_)
  obtain ⟨u, c, hc, ho⟩ := howned
  by_cases hu : u = t
  · subst hu
    exact absurd (ho.2.2.symm.trans (hnameless c hc ho.2.1)) hn
  · exact ⟨u, c, (Function.update_of_ne hu _ _).trans hc, ho⟩

/-- References do not matter to names. -/
theorem kept_refs (f : ℕ → ℕ) : NamesKept W w (w.setChat t fun c => { c with refs := f c.refs }) :=
  .setChat t fun _ _ _ _ ho => ho

theorem kept_unref : NamesKept W w (oppUnref W w t) := by
  unfold oppUnref
  split
  · exact .refl w
  split
  · exact kept_finalize W w t
  · exact kept_refs W w t (· - 1)

theorem kept_lazyUnref (obj : LazyObject) : NamesKept W w (lazyUnref W w obj) := by
  unfold lazyUnref
  split
  · exact kept_unref W w _
  rename_i t
  have hunlist : NamesKept W w { w with zombieList := w.zombieList.erase t } := .same rfl rfl rfl
  split
  · exact hunlist.trans (kept_unref W _ t)
  · exact .refl w

theorem kept_cleanup : NamesKept W w (lazyCallStep W w) := by
  have hloop (objs : List LazyObject) :
      NamesKept W w (objs.foldr (fun obj w => lazyUnref W w obj) w) := by
    induction objs with
    | nil => exact .refl w
    | cons obj objs ih => exact ih.trans (kept_lazyUnref W _ obj)
  exact (hloop w.lazyCleanup).trans (.same rfl rfl rfl)

theorem kept_lazyCleanup (obj : LazyObject) : NamesKept W w (lazyCleanup w obj) := by
  unfold lazyCleanup
  dsimp only
  split
  · exact .same rfl rfl rfl
  · exact .same rfl rfl rfl

theorem kept_zombiePass : NamesKept W w (chatLazyCleanupFiber w) := by
  unfold chatLazyCleanupFiber
  split
  · exact .same rfl rfl rfl
  dsimp only
  have hgear : NamesKept W w { w with gear := 0 } := .same rfl rfl rfl
  refine hgear.trans (NamesKept.foldl (fun v u => ?_) _ _)
  split
  · exact .refl v
  · exact kept_lazyCleanup W v _

theorem kept_zombieAdd : NamesKept W w (chatZombieAdd w t) := by
  unfold chatZombieAdd
  split
  · exact .refl w
  dsimp only
  have hmark :
      NamesKept W w (w.setChat t fun c => { c with state := { c.state with zombie := true } }) :=
    .setChat t fun _ _ _ _ ho => ho
  refine NamesKept.trans ?_ (kept_refs W _ t (· + 1))
  exact hmark.trans (.same rfl rfl rfl)

theorem kept_closeClient : NamesKept W w (closeClient W w t) :=
  (kept_close W w t).1.trans (kept_zombieAdd W _ t)

theorem kept_dismiss : NamesKept W w (oppUnref W (closeClient W w t) t) :=
  (kept_closeClient W w t).trans (kept_unref W _ t)

end Closing

/-! ### Rooms and requests -/

section Requests
variable (W : World) (w : Worker) (t : ℕ)

theorem kept_join (room : Bytes) : NamesKept W w (broadcastRoomJoin W w t room).1 := by
  have hroom (v : Worker) (rm : ℕ) (f : InternalRoom → InternalRoom) :
      NamesKept W v (v.setRoom rm f) :=
    .same rfl rfl rfl
  have henter (v : Worker) (rm : ℕ) : NamesKept W v (enterRoom v t rm) :=
    (hroom v rm _).trans (.setChat t fun _ _ _ _ ho => ho)
  have hassert (v : Worker) (b : Bool) : NamesKept W v (v.assert b) :=
    .of_routine (routine_assert W v b)
  have hsettle (v : Worker) (rm : ℕ) : NamesKept W v (settleInRoom W v t rm) := by
    unfold settleInRoom
    split
    · exact hassert v _
    refine NamesKept.trans ?_ (henter _ rm)
    refine NamesKept.trans ?_ (hassert _ _)
    split
    · exact (hassert v _).trans (.of_routine (routine_leave W _ t))
    · exact .refl v
  unfold broadcastRoomJoin
  split
  · exact .refl w
  split
  · exact .refl w
  rename_i rm _
  apply (hroom w rm fun room => { room with refs := room.refs + 1 }).trans
  dsimp only
  split
  · exact .of_onlySends (onlySends_joinFailed W _ t)
  · exact (hsettle _ rm).trans (.of_routine (routine_announce W _ t rm))

theorem kept_quitPlug : NamesKept W w (chatQuitPlug W w t).1 := by
  unfold chatQuitPlug
  split
  · exact .refl w
  refine NamesKept.trans ?_ (.of_routine (routine_send W _ t _))
  refine NamesKept.trans ?_ (kept_logoff W _ t)
  exact (NamesKept.of_routine (routine_leave W w t)).trans (.setChat t fun _ _ _ _ ho => ho)

/-- A hidden join with this request gives the connection no other name than it has. -/
def KeepsName (c : ChatConnection) (request : Bytes) : Prop :=
  ∀ command ∈ chatHiddenjoinGetRoomAndName request,
    c.state.loggedIn = true → c.name = [] ∨ c.name = command.2

instance (c : ChatConnection) (request : Bytes) : Decidable (KeepsName c request) := by
  unfold KeepsName
  infer_instance

theorem kept_hiddenjoin {request : Bytes} (h : KeepsName (w.chat t) request) :
    NamesKept W w (chatHiddenjoinPlug W w t request) := by
  have hlogin : NamesKept W w (w.setState t fun s => { s with loggedIn := true }) :=
    .setChat t fun _ _ _ _ ho => ⟨ho.1, rfl, ho.2.2⟩
  unfold chatHiddenjoinPlug
  split
  · exact .refl w
  dsimp only
  split
  · exact hlogin
  rename_i room name hcommand
  refine NamesKept.trans ?_ (kept_join W _ t room)
  show NamesKept W w ((w.setState t fun s => { s with loggedIn := true }).setChat t fun c =>
    { c with name := name })
  unfold Worker.setState Worker.setChat
  simp only [Function.update_self, Function.update_idem, Option.map_map]
  refine NamesKept.setChat t fun c own hc hown ho => ⟨ho.1, rfl, ?_⟩
  rw [w.chat_of_some t hc] at h
  rcases h (room, name) hcommand ho.2.1 with hnone | hsame
  · exact absurd (ho.2.2.symm.trans hnone) hown
  · exact hsame.symm.trans ho.2.2

theorem kept_bridge {space request : Bytes}
    (h : space = lit "chat/_hiddenjoin" → KeepsName (w.chat t) request) :
    NamesKept W w (pluginBridgeCall W w t space request).1 := by
  unfold pluginBridgeCall
  split
  · exact .of_routine (routine_welcome W w t)
  split
  · rename_i hspace
    exact kept_hiddenjoin W w t (h hspace)
  split
  · exact .of_routine (routine_joinPlug W w t request)
  split
  · exact .of_routine (routine_leavePlug W w t)
  split
  · exact kept_quitPlug W w t
  split
  · exact .of_routine (routine_pm W w t request)
  split
  · dsimp only
    split
    · exact .of_routine (routine_send W w t _)
    · exact .refl w
  · exact .refl w

/-- The line takes no other name than the connection has. -/
def LineKeepsName (c : ChatConnection) (line : Bytes) : Prop :=
  line.head? = some 47 → c.state.loggedIn = true →
    match commandHook W.txt line with
    | .dispatch space rest => space = lit "chat/_hiddenjoin" → KeepsName c rest
    | _ => True

instance (c : ChatConnection) (line : Bytes) : Decidable (LineKeepsName W c line) := by
  unfold LineKeepsName
  cases commandHook W.txt line <;> infer_instance

variable {w t}

theorem kept_answer {line : Bytes} (h : LineKeepsName W (w.chat t) line) :
    NamesKept W w (answerRequest W w t line) := by
  unfold answerRequest
  dsimp only
  split
  · rename_i hslash
    have hline := h hslash.1 hslash.2
    have hcommand : NamesKept W w (onCommand W w t line).1 := by
      unfold onCommand
      split
      · exact .refl w
      · exact .refl w
      · rename_i space rest hspace
        rw [hspace] at hline
        exact kept_bridge W w t hline
    split
    · exact hcommand
    · exact hcommand.trans (.of_routine (routine_cannotProcess W _ t))
  · exact .of_routine (routine_talk W w t line)

theorem kept_handleRequest {line : Bytes} (h : LineKeepsName W (w.chat t) line) :
    NamesKept W w (handleChatRequest W w t line) := by
  unfold handleChatRequest
  split
  · exact .refl w
  split
  · exact kept_closeClient W w t
  dsimp only
  split
  · exact (kept_answer W h).trans (kept_closeClient W _ t)
  · exact kept_answer W h

theorem kept_clientData {fd : ℤ} {result : RecvResult}
    (h : ∀ line, result = .data line → LineKeepsName W (w.chat t) line) :
    NamesKept W w (onClientData W w fd t result) := by
  unfold onClientData
  split
  · exact .refl w
  split
  · exact kept_dismiss W w t
  have hassert : NamesKept W w (w.assert (fd = (w.chat t).fd)) := .of_routine (routine_assert W w _)
  dsimp only
  split
  · exact hassert.trans (kept_dismiss W _ t)
  · exact hassert.trans (kept_dismiss W _ t)
  rename_i line
  split
  · exact hassert.trans (kept_dismiss W _ t)
  have hrequest := hassert.trans (kept_handleRequest W (w := w.assert (fd = (w.chat t).fd))
    (h line rfl))
  split
  · exact hrequest.trans (kept_dismiss W _ t)
  · exact hrequest

end Requests

/-! ### Arrivals and replies -/

section Replies
variable (W : World) {w : Worker} {t : ℕ}

theorem kept_rawRecv (hfree : w.chats t = none) (fd : ℤ) (storage : Bytes) (o : HandOff) :
    NamesKept W w (onRawRecvSocket W w fd t storage o) := by
  have hinst : NamesKept W w { w with fds := Function.update w.fds fd (some o.socket) } :=
    .same rfl rfl rfl
  have hfree' : { w with fds := Function.update w.fds fd (some o.socket) }.chats t = none := hfree
  unfold onRawRecvSocket
  dsimp only
  generalize { w with fds := Function.update w.fds fd (some o.socket) } = v at hinst hfree'
  apply hinst.trans
  split
  swap
  · exact .of_routine (routine_assert W v false)
  split
  swap
  · exact .refl v
  unfold onConnectionBubble
  split
  · exact .refl v
  have halloc : NamesKept W v (chatAlloc v t fd) := by
    refine .of_owners rfl rfl fun name _ howned => ?_
    obtain ⟨u, c, hc, ho⟩ := howned
    have hut : u ≠ t := by
      rintro rfl
      exact absurd (hfree'.symm.trans hc) (by simp)
    exact ⟨u, c, (Function.update_of_ne hut _ _).trans hc, ho⟩
  dsimp only
  split
  · exact halloc.trans (kept_dismiss W _ t)
  · have hreg : NamesKept W (chatAlloc v t fd) ((chatAlloc v t fd).eventLoopRegisterFd fd t) :=
      .same rfl rfl rfl
    refine (halloc.trans hreg).trans (kept_bridge W _ t fun _ command _ hl => ?_)
    have hnew : ((chatAlloc v t fd).eventLoopRegisterFd fd t).chat t = .initial fd :=
      Worker.chat_of_some _ t (Function.update_self ..)
    rw [hnew] at hl
    exact absurd hl (by simp [ChatConnection.initial, ChatState.connected])

theorem kept_on {e : WorkerEvent}
    (h : ∀ fd t line, e = .clientData fd t (.data line) → LineKeepsName W (w.chat t) line) :
    NamesKept W w (w.on W e) := by
  unfold Worker.on
  split
  swap
  · exact .refl w
  rename_i henabled
  cases e with
  | clientData fd t result =>
    refine kept_clientData W fun line hline => ?_
    subst hline
    exact h fd t line rfl
  | arrive fd t storage o => exact kept_rawRecv W henabled.2.2 fd storage o
  | zombiePass => exact kept_zombiePass W w
  | cleanup => exact kept_cleanup W w
  | tick => exact .same rfl rfl rfl

variable (w t)

theorem kept_transfer (room : Bytes) (pid : ℤ) :
    NamesKept W w (chatJoinTransfer W w t room pid) := by
  have hraw (v : Worker) (fd : ℤ) (msg : Bytes) : NamesKept W v
    (ppRawSendSocket W v t pid fd msg) := by
    unfold ppRawSendSocket
    split
    · exact .same rfl rfl rfl
    split
    · exact .same rfl rfl rfl
    · exact .same rfl rfl rfl
  have hunreg (v : Worker) (fd : ℤ) : NamesKept W v (v.eventLoopUnregisterFd fd t) :=
    .same rfl rfl rfl
  have hout (v : Worker) : NamesKept W v (transferOut W v t room pid) := by
    unfold transferOut defaultTransferParallel
    dsimp only
    refine NamesKept.trans ?_ (.setChat t fun _ _ _ _ ho => ho)
    exact ((hunreg v _).trans (hunreg _ _)).trans (hraw _ _ _)
  unfold chatJoinTransfer
  exact ((NamesKept.of_routine (routine_leave W w t)).trans (hout _)).trans (kept_lazyCleanup W _ _)

theorem kept_follow (r : Reply) : NamesKept W w (r.follow W w t) := by
  cases r with
  | roomPid roomKey pidstr =>
    unfold Reply.follow chatJoinHelper
    dsimp only
    split
    · exact .refl w
    split
    · exact kept_transfer W w t _ _
    · exact kept_join W w t _
  | _ => exact .refl w

/-- The name that a reply grants. -/
def Reply.granted : Reply → Option Bytes
  | .login success name => if success ≠ 0 ∧ name ≠ [] then some name else none
  | _ => none

/-- A granted name finds an open connection in the slot that is logged in under no other
one. -/
def Reply.Adoptable (w : Worker) (t : ℕ) (r : Reply) : Prop :=
  ∀ name ∈ r.granted, ∃ c ∈ w.chats t, c.ending = false ∧ c.fd ≠ invalidFd ∧
    (c.state.loggedIn = true → c.name = name)

instance (w : Worker) (t : ℕ) (r : Reply) : Decidable (r.Adoptable w t) := by
  unfold Reply.Adoptable
  infer_instance

variable {w t} {r : Reply}

theorem granted_of_silent (hr : r.silent = true) : r.granted = none := by
  cases r with
  | login success name =>
    unfold Reply.silent at hr
    simp [Reply.granted, of_decide_eq_true hr]
  | _ => rfl

/-- An open connection adopts the name of its login. -/
theorem kept_adopt (h : r.Adoptable w t) (hr : r.silent = false) :
    NamesKept W w (r.adopt W.txt w t) ∧ ∀ name ∈ r.granted, (r.adopt W.txt w t).Owned name := by
  cases r with
  | login success name =>
    have hname : name ≠ [] := by simpa [Reply.silent] using hr
    unfold Reply.adopt
    dsimp only
    by_cases hs : success ≠ 0
    · have hgranted : Reply.granted (.login success name) = some name := if_pos ⟨hs, hname⟩
      obtain ⟨c, hc, -, hfd, hsame⟩ := h name hgranted
      rw [if_pos hs]
      constructor
      · have hgreet (text : Bytes) : NamesKept W w { w with greetOnLogin := text } :=
          .same rfl rfl rfl
        refine (hgreet _).trans (.setChat t fun d own hd _ ho => ⟨ho.1, rfl, ?_⟩)
        obtain rfl : c = d := Option.some.inj (hc.symm.trans hd)
        exact (hsame ho.2.1).symm.trans ho.2.2
      · intro n hn
        obtain rfl : name = n := Option.some.inj (hgranted.symm.trans hn)
        refine ⟨t, { c with name := name, onResponseCallback := none,
                            state := { c.state with loggedIn := true } }, ?_, hfd, rfl, rfl⟩
        rw [Worker.setChat_same]
        show (w.chats t).map _ = _
        rw [hc]
        rfl
    · rw [if_neg hs]
      have hnone : Reply.granted (.login success name) = none := if_neg fun hg => hs hg.1
      exact ⟨.same rfl rfl rfl, fun n hn => absurd (hnone.symm.trans hn) (by simp)⟩
  | _ => exact ⟨.refl w, fun n hn => absurd hn (by simp [Reply.granted])⟩

/-- A granted name is owned once its reply is handled, or its removal is requested. -/
theorem kept_reply (h : r.Adoptable w t) :
    ∃ v, NamesKept W w v ∧ (∀ name ∈ r.granted, v.Owned name) ∧
    NamesKept W v (onReply W w t r) := by
  by_cases hr : r.silent = true
  · refine ⟨w, .refl w, fun name hn => ?_, ?_⟩
    · exact absurd ((granted_of_silent hr).symm.trans hn) (by simp)
    · rw [onReply_silent W w t hr]
      exact .refl w
  have hr' : r.silent = false := by simpa using hr
  have hlost (hnone : ∀ c ∈ w.chats t, c.ending = true) : ∀ name ∈ r.granted, w.Owned name := by
    intro name hn
    obtain ⟨c, hc, hopen, -⟩ := h name hn
    exact absurd (hopen.symm.trans (hnone c hc)) (by decide)
  cases hc : w.chats t with
  | none =>
    refine ⟨w, .refl w, hlost fun c hc' => absurd (hc.symm.trans hc') (by simp), ?_⟩
    rw [onReply_none W w hc hr']
    exact .of_routine (routine_assert W w false)
  | some c =>
    by_cases hend : c.ending = true
    · refine ⟨w, .refl w, hlost fun d hd => ?_, ?_⟩
      · obtain rfl : c = d := Option.some.inj (hc.symm.trans hd)
        exact hend
      · rw [onReply_ending W w hc hend hr']
        exact kept_refs W w t (· + 1)
    have hget : NamesKept W w (w.setChat t fun c => { c with refs := c.refs + 1 }) :=
      kept_refs W w t (· + 1)
    have hfound : r.Adoptable (w.setChat t fun c => { c with refs := c.refs + 1 }) t := by
      intro name hn
      obtain ⟨d, hd, hopen, hfd, hsame⟩ := h name hn
      refine ⟨{ d with refs := d.refs + 1 }, ?_, hopen, hfd, hsame⟩
      rw [Worker.setChat_same, hd]
      rfl
    obtain ⟨hadopt, howned⟩ := kept_adopt W hfound hr'
    refine ⟨_, hget.trans hadopt, howned, ?_⟩
    rw [onReply_open W w hc (by simpa using hend) hr']
    unfold Reply.apply
    exact ((NamesKept.of_routine (routine_send W _ t _)).trans (kept_follow W _ t r)).trans
      (kept_unref W _ t)

end Replies
end Nginz
