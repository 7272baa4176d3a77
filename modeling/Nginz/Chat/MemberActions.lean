import Nginz.Chat.MembershipRuns
import Nginz.Chat.Keys
import Nginz.Lib.Transition

/-! The operations of a worker on its connections, and the invariants of its rooms that
all of them keep. -/
namespace Nginz

/-- A connection is made, answered, moved or ended. -/
inductive MemberAction where
  | create (t : ℕ) (fd : ℤ)
  | loginReply (cbToken : ℕ) (success : ℤ) (name : Bytes)
  | join (t : ℕ) (room : Bytes)
  | leave (t : ℕ)
  | hiddenjoin (t : ℕ) (request : Bytes)
  | quit (t : ℕ)
  | transfer (t : ℕ) (room : Bytes) (pid : ℤ)
  | close (t : ℕ)
  | cleanup
  deriving DecidableEq, Repr

/-- The pool never gives a slot that is in use. -/
def Worker.act (W : World) (w : Worker) : MemberAction → Worker
  | .create t fd => if (w.chats t).isNone then chatAlloc w t fd else w
  | .loginReply cbToken success name => onAsyncchatLoginHook W w cbToken success name
  | .join t room => (broadcastRoomJoin W w t room).1
  | .leave t => broadcastRoomLeave W w t
  | .hiddenjoin t request => chatHiddenjoinPlug W w t request
  | .quit t => (chatQuitPlug W w t).1
  | .transfer t room pid => chatJoinTransfer W w t room pid
  | .close t => defaultChatClose W w t
  | .cleanup => lazyCallStep W w

namespace Membership
variable {w : Worker}

/-- A fresh connection is in no room. -/
theorem alloc (h : Membership w) {t : ℕ} (ht : w.chats t = none) (fd : ℤ) :
    Membership (chatAlloc w t fd) := by
  have hchat (u : ℕ) : (chatAlloc w t fd).chats u =
      if u = t then some (.initial fd) else w.chats u := by
    unfold chatAlloc Worker.logFd
    exact Function.update_apply ..
  constructor
  · intro u r
    change u ∈ w.users r ↔ _
    rw [h.entry, hchat]
    by_cases hu : u = t
    · subst hu
      simp [ht, ChatConnection.initial]
    · simp [hu]
  · exact h.nodup
  · intro u c hc
    rw [hchat] at hc
    split at hc
    · obtain rfl := Option.some.inj hc
      rfl
    · exact h.inRoom u c hc
  · intro u c hc hin
    rw [hchat] at hc
    split at hc
    · obtain rfl := Option.some.inj hc
      exact absurd hin (by simp [ChatConnection.initial, ChatState.connected])
    · exact h.loggedIn u c hc hin
  · exact h.bound

/-- A connection outside every room can go. -/
theorem free (h : Membership w) {t : ℕ} (ht : ∀ c, w.chats t = some c → c.callbackData = none) :
    Membership { w with chats := Function.update w.chats t none } := by
  have hback {u : ℕ} {c : ChatConnection} (hc : Function.update w.chats t none u = some c) :
      u ≠ t ∧ w.chats u = some c := by
    rw [Function.update_apply] at hc
    split at hc
    · exact absurd hc (by simp)
    · exact ⟨‹_›, hc⟩
  constructor
  · intro u r
    change u ∈ w.users r ↔ ∃ c, Function.update w.chats t none u = some c ∧ _
    rw [h.entry]
    constructor
    · rintro ⟨c, hc, hr⟩
      have hu : u ≠ t := by
        rintro rfl
        rw [ht c hc] at hr
        exact absurd hr (by simp)
      exact ⟨c, by rw [Function.update_of_ne hu, hc], hr⟩
    · rintro ⟨c, hc, hr⟩
      exact ⟨c, (hback hc).2, hr⟩
  · exact h.nodup
  · exact fun u c hc => h.inRoom u c (hback hc).2
  · exact fun u c hc => h.loggedIn u c (hback hc).2
  · exact h.bound

end Membership

/-! ### Invariants of the rooms -/

/-- A call that does not name the counter of a room. -/
def OtherCall (L : TxtLib) (pid : ℤ) (c : DbCall) : Prop :=
  ∀ q ∈ c.requests pid, ∀ room, q.key ≠ roomUserKey L room

/-- An invariant of rooms that joining and leaving keep, that depends on nothing else than
the rooms and the calls, and that no call about another key affects. -/
structure RoomInvariant (W : World) (P : Worker → Prop) : Prop where
  membership : ∀ {w}, P w → Membership w
  congr : ∀ {w w'}, P w → Membership w' → w'.rooms = w.rooms → w'.calls = w.calls →
    w'.pid = w.pid → P w'
  call : ∀ {w c}, P w → OtherCall W.txt w.pid c → P (w.call c)
  leave : ∀ {w}, P w → ∀ t, P (broadcastRoomLeave W w t)
  join : ∀ {w}, P w → ∀ t room, P (broadcastRoomJoin W w t room).1

/-- The connection, if there is one, is in no room. -/
def Outside (w : Worker) (t : ℕ) : Prop := ∀ c, w.chats t = some c → c.callbackData = none

theorem Outside.setChat {w : Worker} {t : ℕ} (h : Outside w t) {f : ChatConnection → ChatConnection}
    (hf : ∀ c, (f c).callbackData = c.callbackData) : Outside (w.setChat t f) t := by
  intro c hc
  rw [w.setChat_same] at hc
  obtain ⟨c', hc', rfl⟩ := Option.map_eq_some_iff.mp hc
  rw [hf]
  exact h c' hc'

theorem otherCall_user {L : TxtLib} {pid : ℤ} {c : DbCall} (name : Bytes)
    (h : ∀ q ∈ c.requests pid, q.key = buildNameKey L name) : OtherCall L pid c := by
  intro q hq room he
  rw [h q hq] at he
  exact nameKey_ne_roomUserKey L name room he

namespace RoomInvariant
variable {W : World} {P : Worker → Prop} (hP : RoomInvariant W P) {w : Worker}
include hP

theorem same {w' : Worker} (h : P w) (hc : w'.chats = w.chats) (hr : w'.rooms = w.rooms)
    (hd : w'.calls = w.calls) (hp : w'.pid = w.pid) : P w' :=
  hP.congr h ((hP.membership h).of_same hc hr) hr hd hp

theorem sends {w' : Worker} (h : P w) (hs : OnlySends W w w') : P w' :=
  hP.congr h ((hP.membership h).onlySends hs) hs.rooms_eq hs.calls_eq hs.pid_eq

theorem setChat (h : P w) (t : ℕ) {f : ChatConnection → ChatConnection}
    (hf : ∀ c, (f c).roomView = c.roomView) : P (w.setChat t f) :=
  hP.congr h ((hP.membership h).setChat t hf) rfl rfl rfl

theorem outside_of_leave (h : P w) (t : ℕ) : Outside (broadcastRoomLeave W w t) t :=
  ((hP.membership h).leave W t).2

/-- Logging off outside every room. -/
theorem logoff (h : P w) {t : ℕ} (ht : Outside w t) :
    P (logoffUser W w t) ∧ Outside (logoffUser W w t) t := by
  unfold logoffUser
  split
  · exact ⟨h, ht⟩
  have hcall : P (w.call (.unset (-1) none (buildNameKey W.txt (w.chat t).name))) :=
    hP.call h (otherCall_user (w.chat t).name fun q hq => by rw [List.mem_singleton.mp hq])
  refine ⟨hP.congr hcall ?_ rfl rfl rfl, Outside.setChat ht fun c => rfl⟩
  refine (hP.membership hcall).setLoggedIn t (fun c => ⟨rfl, rfl⟩) fun c hc hin => ?_
  rw [(hP.membership h).inRoom t c hc, ht c hc] at hin
  exact absurd hin (by simp)

theorem release (h : P w) {t : ℕ} (ht : Outside w t) :
    P (releaseFd w t) ∧ Outside (releaseFd w t) t := by
  unfold releaseFd
  split
  swap
  · exact ⟨h, ht⟩
  have hun : P (w.eventLoopUnregisterFd (w.chat t).fd t) := hP.same h rfl rfl rfl rfl
  have hclosed : ∀ v : Worker, P v → Outside v t →
      P (v.setChat t fun c => { c with fd := invalidFd }) ∧
        Outside (v.setChat t fun c => { c with fd := invalidFd }) t := fun v hv ho =>
    ⟨hP.setChat hv t fun c => rfl, ho.setChat fun c => rfl⟩
  dsimp only
  split
  · exact hclosed _ (hP.same hun rfl rfl rfl rfl) ht
  · exact hclosed _ hun ht

/-- A closed connection is in no room. -/
theorem close (h : P w) (t : ℕ) :
    P (defaultChatClose W w t) ∧ Outside (defaultChatClose W w t) t := by
  unfold defaultChatClose
  have htime : P (if (w.chat t).quitedAt = 0 then
      w.setChat t fun c => { c with quitedAt := w.clock } else w) := by
    split
    · exact hP.setChat h t fun c => rfl
    · exact h
  generalize (if (w.chat t).quitedAt = 0 then
      w.setChat t fun c => { c with quitedAt := w.clock } else w) = w1 at htime
  have hquit : P (if !((w1.chat t).state.softQuit || (w1.chat t).state.quit) then
      w1.setState t fun s => { s with quit := true } else w1) := by
    split
    · exact hP.setChat htime t fun c => rfl
    · exact htime
  dsimp only
  generalize (if !((w1.chat t).state.softQuit || (w1.chat t).state.quit) then
      w1.setState t fun s => { s with quit := true } else w1) = w2 at hquit
  have hleft : P (if (w2.chat t).state.inRoom then broadcastRoomLeave W w2 t else w2) ∧
      Outside (if (w2.chat t).state.inRoom then broadcastRoomLeave W w2 t else w2) t := by
    split
    · exact ⟨hP.leave hquit t, hP.outside_of_leave hquit t⟩
    · rename_i hin
      refine ⟨hquit, fun c hc => ?_⟩
      rw [w2.chat_of_some t hc, (hP.membership hquit).inRoom t c hc] at hin
      simpa using hin
  generalize (if (w2.chat t).state.inRoom then broadcastRoomLeave W w2 t else w2) = w3 at hleft
  have hoff : P (if (w3.chat t).state.loggedIn then logoffUser W w3 t else w3) ∧
      Outside (if (w3.chat t).state.loggedIn then logoffUser W w3 t else w3) t := by
    split
    · exact hP.logoff hleft.1 hleft.2
    · exact hleft
  exact hP.release hoff.1 hoff.2

theorem finalize (h : P w) (t : ℕ) : P (finalizeChat W w t) := by
  unfold finalizeChat
  obtain ⟨hc, ho⟩ := hP.close h t
  exact hP.congr hc ((hP.membership hc).free ho) rfl rfl rfl

theorem unref (h : P w) (t : ℕ) : P (oppUnref W w t) := by
  unfold oppUnref
  split
  · exact h
  split
  · exact hP.finalize h t
  · exact hP.setChat h t fun c => rfl

theorem lazyUnref (h : P w) (obj : LazyObject) : P (lazyUnref W w obj) := by
  cases obj with
  | chat t => exact hP.unref h t
  | zombie t =>
    unfold Nginz.lazyUnref
    dsimp only
    split
    · have hlist : P { w with zombieList := w.zombieList.erase t } := hP.same h rfl rfl rfl rfl
      exact hP.unref hlist t
    · exact h

theorem cleanup (h : P w) : P (lazyCallStep W w) := by
  unfold lazyCallStep
  have hloop (objs : List LazyObject) :
      P (objs.foldr (fun obj w => Nginz.lazyUnref W w obj) w) := by
    induction objs with
    | nil => exact h
    | cons obj objs ih => exact hP.lazyUnref ih obj
  exact hP.same (hloop w.lazyCleanup) rfl rfl rfl rfl

theorem get (h : P w) (token : ℕ) : P (chatGet w token).1 := by
  unfold chatGet
  split
  · exact hP.same h rfl rfl rfl rfl
  · have href : P (w.setChat token fun c => { c with refs := c.refs + 1 }) :=
      hP.setChat h token fun c => rfl
    dsimp only
    split <;> exact href

theorem sendGreeting (h : P w) (t : ℕ) :
    P (if w.greetOnLogin ≠ [] then defaultChatSend W w t w.greetOnLogin else w) := by
  split
  · exact hP.sends h (onlySends_send W w t _)
  · exact h

theorem loginHook (h : P w) (cbToken : ℕ) (success : ℤ) (name : Bytes) :
    P (onAsyncchatLoginHook W w cbToken success name) := by
  unfold onAsyncchatLoginHook
  split
  · exact h
  have hget := hP.get h cbToken
  generalize chatGet w cbToken = r at hget
  obtain ⟨w1, _ | t⟩ := r
  · exact hget
  dsimp only
  refine hP.unref (hP.sendGreeting ?_ t) t
  split
  · have hname : P (w1.setChat t fun c => { c with name := name }) :=
      hP.setChat hget t fun c => rfl
    have hgreet : P { w1.setChat t fun c => { c with name := name } with
        greetOnLogin := compose W.txt 128 [lit "Welcome ", name, lit "!", lit "\n"] } :=
      hP.same hname rfl rfl rfl rfl
    refine hP.congr hgreet ?_ rfl rfl rfl
    refine (hP.membership hgreet).setLoggedIn t ?_ ?_
    · exact fun c => ⟨rfl, rfl⟩
    · exact fun c hc hin => rfl
  · exact hP.same hget rfl rfl rfl rfl

theorem hiddenjoin (h : P w) (t : ℕ) (request : Bytes) : P (chatHiddenjoinPlug W w t request) := by
  unfold chatHiddenjoinPlug
  split
  · exact h
  have hlogin : P (w.setState t fun s => { s with loggedIn := true }) :=
    hP.congr h ((hP.membership h).setLoggedIn t (fun c => ⟨rfl, rfl⟩) fun c hc hin => rfl) rfl
      rfl rfl
  dsimp only
  split
  · exact hlogin
  · rename_i room name _
    have hname : P ((w.setState t fun s => { s with loggedIn := true }).setChat t fun c =>
        { c with name := name }) := hP.setChat hlogin t fun c => rfl
    exact hP.join hname t room

theorem quit (h : P w) (t : ℕ) : P (chatQuitPlug W w t).1 := by
  unfold chatQuitPlug
  split
  · exact h
  have hleft := hP.leave h t
  have hquit : P ((broadcastRoomLeave W w t).setState t fun s => { s with quit := true }) :=
    hP.setChat hleft t fun c => rfl
  have hout : Outside ((broadcastRoomLeave W w t).setState t fun s => { s with quit := true }) t :=
    (hP.outside_of_leave h t).setChat fun c => rfl
  exact hP.sends (hP.logoff hquit hout).1 (onlySends_send W _ t _)

theorem rawSend (h : P w) (t : ℕ) (destpid fd : ℤ) (msg : Bytes) :
    P (ppRawSendSocket W w t destpid fd msg) := by
  unfold ppRawSendSocket
  split
  · exact hP.same h rfl rfl rfl rfl
  split <;> exact hP.same h rfl rfl rfl rfl

theorem queue (h : P w) (obj : LazyObject) : P (lazyCleanup w obj) := by
  unfold lazyCleanup
  dsimp only
  split <;> exact hP.same h rfl rfl rfl rfl

theorem transfer (h : P w) (t : ℕ) (room : Bytes) (pid : ℤ) :
    P (chatJoinTransfer W w t room pid) := by
  unfold chatJoinTransfer transferOut defaultTransferParallel
  apply hP.queue
  refine hP.setChat ?_ t fun c => rfl
  apply hP.rawSend
  exact hP.same (hP.leave h t) rfl rfl rfl rfl

/-- Every action keeps the invariant. -/
theorem act (h : P w) (a : MemberAction) : P (w.act W a) := by
  cases a with
  | create t fd =>
    unfold Worker.act
    dsimp only
    split
    · rename_i hnone
      exact hP.congr h ((hP.membership h).alloc (Option.isNone_iff_eq_none.mp hnone) fd) rfl rfl rfl
    · exact h
  | loginReply cbToken success name => exact hP.loginHook h cbToken success name
  | join t room => exact hP.join h t room
  | leave t => exact hP.leave h t
  | hiddenjoin t request => exact hP.hiddenjoin h t request
  | quit t => exact hP.quit h t
  | transfer t room pid => exact hP.transfer h t room pid
  | close t => exact (hP.close h t).1
  | cleanup => exact hP.cleanup h

/-- So does every run. -/
theorem run (h : P w) (as : List MemberAction) : P (as.foldl (Worker.act W) w) :=
  Transition.run_invariant (P := P) (fun _ a hs => hP.act hs a) h as

end RoomInvariant
end Nginz
