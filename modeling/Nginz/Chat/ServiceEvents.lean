import Nginz.Chat.Service

/-! Replies, new connections, zombie passes and lazy cleanups keep what the handlers of a
worker keep, so the actions of a worker do. -/
namespace Nginz

/-- An event at a worker, or a reply. -/
inductive WorkerAction where
  | event (e : WorkerEvent)
  | reply (cbToken : ℕ) (r : Reply)
  deriving DecidableEq, Repr

def Worker.step (W : World) (w : Worker) : WorkerAction → Worker
  | .event e => w.on W e
  | .reply cbToken r => onReply W w cbToken r

/-- The cleanup of the objects finalizes no connection that handed its descriptor off; when
not `strict`, it may be one whose number nobody registered again. -/
def Sparing (strict : Prop) (objs : List LazyObject) (w : Worker) : Prop :=
  ∀ t c, w.chats t = some c → handedOff w.fdLog t = true →
    objs.count (.chat t) < c.refs ∨ ¬ strict ∧ ∀ u, (c.fd, u) ∉ w.eventLoop

/-- The reply sends the connection it reaches to another process. -/
def Reply.Transfers (L : TxtLib) (pid : ℤ) : Reply → Prop
  | .roomPid roomKey pidstr => ¬ (txtToInt (compose L 32 [pidstr]) ≤ 0 ∨
    roomOfPidKey L roomKey = []) ∧
      txtToInt (compose L 32 [pidstr]) ≠ pid
  | _ => False

/-- The room of the reply is one that a client can ask for. -/
def Reply.RoomValid (L : TxtLib) : Reply → Prop
  | .roomPid roomKey _ => ValidRoom (roomOfPidKey L roomKey)
  | _ => True

theorem Attached.holders_pos {w : Worker} {t : ℕ} (ht : Attached w t) : 0 < w.holders t := by
  obtain ⟨c, -, hreg⟩ := ht
  have hpos : 0 < w.eventLoop.countP (·.2 = t) := List.countP_pos_iff.mpr ⟨_, hreg, by simp⟩
  unfold Worker.holders
  omega

instance (L : TxtLib) (pid : ℤ) (r : Reply) : Decidable (r.Transfers L pid) := by
  cases r <;> unfold Reply.Transfers <;> infer_instance

namespace HandlerInvariant
variable {W : World} {strict named leaks : Prop} {P : List LazyObject → Multiset ℕ → Worker → Prop}
  (hP : HandlerInvariant W strict named leaks P)
  {q : List LazyObject} {held : Multiset ℕ} {w : Worker} {t : ℕ}
include hP

/-! ### Replies -/

/-- An open connection is registered. -/
theorem attached_of_open (h : P q held w) {c : ChatConnection} (hc : w.chats t = some c)
    (hopen : c.ending = false) : Attached w t := by
  unfold ChatConnection.ending at hopen
  simp only [Bool.or_eq_false_iff] at hopen
  have hvalid := (hP.serving h).valid t c hc hopen.1.1 hopen.1.2
  exact ⟨c, hc, (hP.serving h).registered t c hc hvalid hopen.1.2⟩

/-- Somebody holds a reference to an object that is there. -/
theorem some_of_held (h : P q (t ::ₘ held) w) : ∃ c, w.chats t = some c := by
  cases hc : w.chats t with
  | some c => exact ⟨c, rfl⟩
  | none =>
    have hfree := (hP.serving h).free t hc
    rw [Multiset.count_cons_self] at hfree
    omega

/-- The transfer of a connection: the reference of its registration goes into the lazy
queue, or is forgotten when the queue is full. -/
theorem transfer (h : P q held w) (ht : Attached w t) (room : Bytes) (pid : ℤ)
    (hnamed : named → ValidRoom room ∧
      ∀ c, w.chats t = some c → c.name ≠ [] → c.state.loggedIn = true) :
    (q.length = nginzLazyObjectQueueSize ∧ P q (t ::ₘ held) (chatJoinTransfer W w t room pid)) ∨
      (q.length ≠ nginzLazyObjectQueueSize ∧
        P (q ++ [.chat t]) (t ::ₘ held) (chatJoinTransfer W w t room pid)) := by
  have hleft := hP.leave h t
  have hout : Outside (broadcastRoomLeave W w t) t := ((hP.membership h).leave W t).2
  obtain ⟨c, hc, hreg⟩ := ht.routine (routine_leave W w t)
  have hgone := hP.transferOut hleft room pid hc hreg hout fun hn => by
    obtain ⟨hroom, hlogin⟩ := hnamed hn
    obtain ⟨d, hd, hf⟩ := (routine_leave W w t).chats_of_some hc
    refine ⟨hroom, fun hname => ?_⟩
    rw [hf.loggedIn]
    exact hlogin d hd (by rwa [← hf.name])
  unfold chatJoinTransfer
  dsimp only
  generalize Nginz.transferOut W (broadcastRoomLeave W w t) t room pid = v at hgone
  have hassert := hP.assert hgone (v.lazyCleanup.length < nginzLazyObjectQueueSize)
  have hqueue : v.lazyCleanup = q := (hP.serving hgone).queue
  unfold lazyCleanup
  dsimp only
  rw [← hqueue] at hassert ⊢
  by_cases hfull : v.lazyCleanup.length = nginzLazyObjectQueueSize
  · rw [if_pos (show (v.assert _).lazyCleanup.length = _ from hfull)]
    exact Or.inl ⟨hfull, hassert⟩
  · rw [if_neg (show ¬ (v.assert _).lazyCleanup.length = _ from hfull)]
    exact Or.inr ⟨hfull, hP.requeue hassert _⟩

/-- What the hook of a reply does with an open connection behind its text. -/
theorem follow (h : P q (t ::ₘ queued q) w) (ht : Attached w t) (r : Reply)
    (hspace : leaks ∨ (r.Transfers W.txt w.pid → q.length ≠ nginzLazyObjectQueueSize))
    (hnamed : named → (r.Transfers W.txt w.pid → r.RoomValid W.txt) ∧
      ∀ c, w.chats t = some c → c.name ≠ [] → c.state.loggedIn = true) :
    ∃ q' held', P q' (t ::ₘ held') (r.follow W w t) ∧
      (held' = queued q' ∨ leaks ∧ queued q' ≤ held') ∧
      0 < (r.follow W w t).holders t + held'.count t := by
  have hstay {v : Worker} (hv : P q (t ::ₘ queued q) v) (hat : Attached v t) :
      ∃ q' held', P q' (t ::ₘ held') v ∧ (held' = queued q' ∨ leaks ∧ queued q' ≤ held') ∧
        0 < v.holders t + held'.count t :=
    ⟨q, queued q, hv, Or.inl rfl, Nat.add_pos_left hat.holders_pos _⟩
  cases r with
  | login success name => exact hstay h ht
  | rooms info => exact hstay h ht
  | roomPid roomKey pidstr =>
    unfold Reply.follow
    dsimp only
    split
    · exact hstay h ht
    rename_i hvalid
    unfold chatJoinHelper
    split
    · rename_i hpid
      have hcount : 0 < (t ::ₘ queued q).count t := by
        rw [Multiset.count_cons_self]
        omega
      rcases hP.transfer h ht (roomOfPidKey W.txt roomKey) (txtToInt (compose W.txt 32 [pidstr]))
        (fun hn => (hnamed hn).imp_left fun hroom => hroom ⟨hvalid, hpid⟩) with ⟨hfull, h'⟩ |
          ⟨-, h'⟩
      · have hleaks : leaks := hspace.resolve_right fun hs => hs ⟨hvalid, hpid⟩ hfull
        exact ⟨q, t ::ₘ queued q, h', Or.inr ⟨hleaks, Multiset.le_cons_self _ t⟩,
          Nat.add_pos_right _ hcount⟩
      · exact ⟨q ++ [.chat t], t ::ₘ queued q, h', Or.inl (queued_chat q t).symm,
          Nat.add_pos_right _ hcount⟩
    · exact hstay (hP.join h ht _) (ht.routine (routine_join W w ht _))

/-- A reply is handled between other events; a login may change the name. -/
theorem reply (h : AtRest P w) (r : Reply)
    (hkept : leaks ∨ ∀ c, w.chats t = some c → r.silent = false → c.ending = false ∧
      (r.Transfers W.txt w.pid → w.lazyCleanup.length ≠ nginzLazyObjectQueueSize))
    (hadopt : ∀ v, P w.lazyCleanup (t ::ₘ queued w.lazyCleanup) v → Attached v t →
      v = (w.setChat t fun c => { c with refs := c.refs + 1 }) →
      P w.lazyCleanup (t ::ₘ queued w.lazyCleanup) (r.adopt W.txt v t))
    (hroom : named → r.Transfers W.txt w.pid → r.RoomValid W.txt) :
    AtRest P (onReply W w t r) := by
  by_cases hr : r.silent = true
  · rw [onReply_silent W w t hr]
    exact h
  have hr' : r.silent = false := by simpa using hr
  cases hc : w.chats t with
  | none =>
    rw [onReply_none W w hc hr']
    exact hP.assert h false
  | some c =>
    have hget : P w.lazyCleanup (t ::ₘ queued w.lazyCleanup)
        (w.setChat t fun c => { c with refs := c.refs + 1 }) := hP.get h hc
    by_cases hending : c.ending = true
    · rw [onReply_ending W w hc hending hr']
      have hleaks : leaks := hkept.resolve_right fun hopen => by
        rw [(hopen c hc hr').1] at hending
        exact absurd hending (by decide)
      exact hP.weaken hleaks hget (Multiset.le_cons_self _ t)
    have hopen : c.ending = false := by simpa using hending
    have hatt : Attached (w.setChat t fun c => { c with refs := c.refs + 1 }) t :=
      (hP.attached_of_open h hc hopen).setChat fun _ => rfl
    have hadopted := hadopt _ hget hatt rfl
    have hkeep : Attached (r.adopt W.txt (w.setChat t fun c => { c with refs := c.refs + 1 }) t) t ∧
        (r.adopt W.txt (w.setChat t fun c => { c with refs := c.refs + 1 }) t).pid = w.pid := by
      cases r with
      | login success name =>
        unfold Reply.adopt
        dsimp only
        split
        · exact ⟨Attached.setChat (w := { w.setChat t _ with greetOnLogin := _ }) hatt fun _ =>
            rfl, rfl⟩
        · exact ⟨hatt, rfl⟩
      | _ => exact ⟨hatt, rfl⟩
    have hsent := hP.send hadopted t (r.text W.txt)
    have hrs := routine_send W (r.adopt W.txt (w.setChat t fun c =>
      { c with refs := c.refs + 1 }) t) t (r.text W.txt)
    have hlogin (hn : named) (d : ChatConnection)
        (hd : (r.adopt W.txt (w.setChat t fun c => { c with refs := c.refs + 1 }) t).chats t =
          some d)
        (hname : d.name ≠ []) : d.state.loggedIn = true := by
      have hfound : (w.setChat t fun c => { c with refs := c.refs + 1 }).chats t =
          some { c with refs := c.refs + 1 } := by
        rw [w.setChat_same, hc]
        rfl
      have hsame (hd' : (w.setChat t fun c => { c with refs := c.refs + 1 }).chats t = some d) :
          d.state.loggedIn = true := by
        obtain rfl := Option.some.inj (hfound.symm.trans hd')
        have hchat : c.state.loggedIn = true := hP.honest hn h hc hopen hname
        exact hchat
      cases r with
      | login success name =>
        unfold Reply.adopt at hd
        dsimp only at hd
        split at hd
        · rw [Worker.setChat_same] at hd
          obtain ⟨e, -, rfl⟩ := Option.map_eq_some_iff.mp hd
          rfl
        · exact hsame hd
      | _ => exact hsame hd
    obtain ⟨q', held', h', hheld, hpos⟩ := hP.follow hsent (hkeep.1.routine hrs) r
      (by rw [hrs.pid_eq, hkeep.2]; exact hkept.imp_right fun hopen => (hopen c hc hr').2)
      (fun hn => by
        refine ⟨by rw [hrs.pid_eq, hkeep.2]; exact hroom hn, fun d hd hname => ?_⟩
        obtain ⟨e, he, hf⟩ := hrs.chats_of_some hd
        rw [hf.loggedIn]
        exact hlogin hn e he (by rwa [← hf.name]))
    obtain ⟨c', hc'⟩ := hP.some_of_held h'
    have hdone := hP.dropHeld h' hc' hpos
    have hqueue : (oppUnref W (r.follow W (defaultChatSend W (r.adopt W.txt
        (w.setChat t fun c => { c with refs := c.refs + 1 }) t) t (r.text W.txt)) t)
          t).lazyCleanup =
        q' := (hP.serving hdone).queue
    rw [onReply_open W w hc hopen hr']
    unfold Reply.apply AtRest
    rw [hqueue]
    rcases hheld with rfl | ⟨hleaks, hle⟩
    · exact hdone
    · exact hP.weaken hleaks hdone hle

omit hP in
theorem adopt_unnamed (hP : HandlerInvariant W strict named leaks P) (hnamed : ¬ named)
    (h : P q held w) (t : ℕ) (r : Reply) : P q held (r.adopt W.txt w t) := by
  have hgreet (text : Bytes) : P q held { w with greetOnLogin := text } :=
    hP.routine h (.of_same rfl fun _ => rfl) ((hP.membership h).of_same rfl rfl)
  cases r with
  | login success name =>
    unfold Reply.adopt
    dsimp only
    split
    · apply hP.relabel hnamed (hgreet _)
      · exact (hP.membership (hgreet _)).setLoggedIn t (fun _ => ⟨rfl, rfl⟩) fun _ _ _ => rfl
      · exact fun _ => rfl
    · exact hgreet _
  | _ => exact h

/-! ### Lazy cleanups -/

/-- Dropping the reference of a queued connection. -/
theorem unqueue (h : P q (t ::ₘ held) w) {rest : List LazyObject}
    (hspare : Sparing strict (rest ++ [.chat t]) w) :
    P q held (oppUnref W w t) ∧ Sparing strict rest (oppUnref W w t) := by
  obtain ⟨c, hc⟩ := hP.some_of_held h
  have hcount : (rest ++ [LazyObject.chat t]).count (.chat t) = rest.count (.chat t) + 1 := by
    simp [List.count_append]
  unfold oppUnref
  rw [hc]
  dsimp only
  split
  · rename_i hlast
    have hmoved (hm : handedOff w.fdLog t = true) : ¬ strict ∧ ∀ u, (c.fd, u) ∉ w.eventLoop :=
      (hspare t c hc hm).resolve_left (by omega)
    refine ⟨hP.finish h hc hlast hmoved, ?_⟩
    obtain ⟨-, hin, -, -, -, hsoft⟩ := (hP.serving h).last_ref hc hlast
    rw [finalizeChat_eq w hc W hin hsoft ((hP.serving h).number_free hc hlast fun hm =>
      (hmoved hm).2)]
    intro u d hd hm
    have hut : u ≠ t := by
      rintro rfl
      exact absurd ((Function.update_self u _ w.chats).symm.trans hd) (by simp)
    have hold : w.chats u = some d := (Function.update_of_ne hut _ w.chats).symm.trans hd
    have hmold : handedOff w.fdLog u = true := by
      rw [← hm]
      symm
      apply handedOff_others hut
      intro e he
      split at he
      · exact absurd he List.not_mem_nil
      · obtain rfl := List.mem_singleton.mp he
        rfl
    have hrest : (rest ++ [LazyObject.chat t]).count (.chat u) = rest.count (.chat u) := by
      simp [List.count_append, Ne.symm hut]
    rw [← hrest]
    exact hspare u d hold hmold
  · rename_i hmore
    refine ⟨hP.drop h hc (by omega), fun u d hd hm => ?_⟩
    by_cases hut : u = t
    · subst hut
      rw [w.setChat_same, hc] at hd
      obtain rfl := Option.some.inj hd
      refine (hspare u c hc hm).imp_left fun hlt => ?_
      show rest.count (.chat u) < c.refs - 1
      omega
    · rw [w.setChat_other t _ hut] at hd
      have hrest : (rest ++ [LazyObject.chat t]).count (.chat u) = rest.count (.chat u) := by
        simp [List.count_append, Ne.symm hut]
      rw [← hrest]
      exact hspare u d hd hm

/-- One object of the lazy queue. -/
theorem lazyUnref (obj : LazyObject) {rest : List LazyObject} (h : P q (queued (rest ++ [obj])) w)
    (hspare : Sparing strict (rest ++ [obj]) w) :
    P q (queued rest) (lazyUnref W w obj) ∧ Sparing strict rest (Nginz.lazyUnref W w obj) := by
  cases obj with
  | chat t =>
    rw [queued_chat] at h
    exact hP.unqueue h hspare
  | zombie t =>
    rw [queued_zombie] at h
    have hrest (u : ℕ) :
        (rest ++ [LazyObject.zombie t]).count (.chat u) = rest.count (.chat u) := by
      simp [List.count_append]
    unfold Nginz.lazyUnref
    dsimp only
    split
    · rename_i hlisted
      apply hP.unqueue (hP.unlist h hlisted)
      intro u d hd hm
      obtain ⟨c, hc, hz⟩ := (hP.serving h).zombies t hlisted
      have hut : u ≠ t := by
        rintro rfl
        exact ((hP.serving h).moved u c hc hm).2 ((hP.serving h).zombie u c hc hz).1
      have hsame : (rest ++ [LazyObject.chat t]).count (.chat u) =
          (rest ++ [LazyObject.zombie t]).count (.chat u) := by
        simp [List.count_append, Ne.symm hut]
      rw [hsame]
      exact hspare u d hd hm
    · refine ⟨h, fun u d hd hm => ?_⟩
      rw [← hrest]
      exact hspare u d hd hm

/-- The loop of the cleanup, from the last object on. -/
theorem cleanupLoop (objs rest : List LazyObject) (h : P q (queued (rest ++ objs)) w)
    (hspare : Sparing strict (rest ++ objs) w) :
    P q (queued rest) (objs.foldr (fun obj w => Nginz.lazyUnref W w obj) w) ∧
      Sparing strict rest (objs.foldr (fun obj w => Nginz.lazyUnref W w obj) w) := by
  induction objs generalizing rest with
  | nil =>
    rw [List.append_nil] at h hspare
    exact ⟨h, hspare⟩
  | cons obj objs ih =>
    obtain ⟨hlast, hspared⟩ := ih (rest ++ [obj]) (by simpa using h) (by simpa using hspare)
    exact hP.lazyUnref obj hlast hspared

theorem cleanup (h : AtRest P w) (hspare : Sparing strict w.lazyCleanup w) :
    AtRest P (lazyCallStep W w) := by
  obtain ⟨hdone, -⟩ := hP.cleanupLoop w.lazyCleanup [] h hspare
  exact hP.requeue hdone []

theorem zombiePass (h : AtRest P w) : AtRest P (chatLazyCleanupFiber w) := by
  have hone (v : Worker) (u : ℕ) (hv : AtRest P v) :
      AtRest P (Nginz.lazyCleanup v (.zombie u)) := by
    have hassert := hP.assert hv (v.lazyCleanup.length < nginzLazyObjectQueueSize)
    unfold Nginz.lazyCleanup
    dsimp only
    split
    · exact hassert
    · unfold AtRest
      show P (v.lazyCleanup ++ [.zombie u]) (queued (v.lazyCleanup ++ [.zombie u])) _
      rw [queued_zombie]
      exact hP.requeue hassert _
  unfold chatLazyCleanupFiber
  split
  · exact hP.tick h (w.gear + 1) w.clock w.quiting
  dsimp only
  have hstart : AtRest P { w with gear := 0 } := hP.tick h 0 w.clock w.quiting
  generalize { w with gear := 0 } = v at hstart
  generalize w.zombieList = us
  induction us generalizing v with
  | nil => exact hstart
  | cons u us ih =>
    rw [List.foldl_cons]
    apply ih
    split
    · exact hstart
    · exact hone v u hstart

/-- A handler that leaves the lazy queue alone ends at rest. -/
theorem atRest {v : Worker} (h : P q (queued q) v) : AtRest P v := by
  unfold AtRest
  rwa [(hP.serving h).queue]

/-- Every event but an arrival. -/
theorem event (h : AtRest P w) {e : WorkerEvent}
    (hold : ∀ fd t storage o, e ≠ .arrive fd t storage o)
    (hspare : e = .cleanup → Sparing strict w.lazyCleanup w)
    (hline : named → ∀ fd t bytes, e = .clientData fd t (.data bytes) → Public W named bytes) :
    AtRest P (w.on W e) := by
  unfold Worker.on
  split
  swap
  · exact h
  rename_i henabled
  cases e with
  | clientData fd t result =>
    refine hP.atRest (hP.clientData h henabled fun bytes hb hn => ?_)
    subst hb
    exact hline hn fd t bytes rfl hn
  | arrive fd t storage o => exact absurd rfl (hold fd t storage o)
  | zombiePass => exact hP.zombiePass h
  | cleanup => exact hP.cleanup h (hspare rfl)
  | tick => exact hP.tick h w.gear (w.clock + 1) w.quiting

end HandlerInvariant

/-! ### New connections -/

namespace ServiceInvariant
variable {W : World} {strict named leaks : Prop} {P : List LazyObject → Multiset ℕ → Worker → Prop}
  (hP : ServiceInvariant W strict named leaks P)
  {q : List LazyObject} {held : Multiset ℕ} {w : Worker} {t : ℕ}
include hP

/-- The kernel installs a socket, and its connection is registered and answered. -/
theorem rawRecv (h : P q held w) {fd : ℤ} (hfd : 0 ≤ fd) (hclosed : w.fds fd = none)
    (ht : w.chats t = none) {storage : Bytes} {o : HandOff}
    (hpublic : named → ∀ x, unpackedString (receivedCommand storage o.datagram) 2 = some x →
      (scannerNextToken x).1 ≠ lit "chat/_hiddenjoin" ∧ (scannerNextToken x).1 ≠ lit "chat/quit") :
    P q held (onRawRecvSocket W w fd t storage o) := by
  have hfresh : Serving.Fresh w fd :=
    (hP.serving h).fresh_of_closed (by unfold invalidFd; omega) hclosed
  have hinst := hP.install h hfresh o.socket
  have hopen : ((Function.update w.fds fd (some o.socket)) fd).isSome := by simp
  generalize hv : { w with fds := Function.update w.fds fd (some o.socket) } = v at hinst
  have hfresh' : Serving.Fresh v fd := by rwa [← hv]
  have hfree : v.chats t = none := by rwa [← hv]
  have hfds : (v.fds fd).isSome := by rwa [← hv]
  unfold onRawRecvSocket
  dsimp only
  rw [hv]
  split
  · rename_i port x _ hx
    split
    · unfold onConnectionBubble
      split
      · exact hinst
      dsimp only
      split
      · exact hP.reject hinst hfresh' hfree
      · have hnew := hP.arrive hinst hfresh' hfds hfree
        have hatt : Attached ((chatAlloc v t fd).eventLoopRegisterFd fd t) t :=
          ⟨.initial fd, Function.update_self ..,
            List.mem_append_right _ (List.mem_singleton_self _)⟩
        refine (hP.bridge hnew hatt x (fun hn => (hpublic hn x hx).1) fun hn hq => ?_).1
        exact absurd hq (hpublic hn x hx).2
    · exact hinst
  · exact hP.assert hinst false

/-! ### Runs -/

/-- What an action may not do: forget a reference, unless that is allowed, and finalize a
connection that handed its descriptor off. -/
def Careful (_ : ServiceInvariant W strict named leaks P) (w : Worker) : WorkerAction → Prop
  | .event .cleanup => Sparing strict w.lazyCleanup w
  | .event _ => True
  | .reply t r => leaks ∨ ∀ c, w.chats t = some c → r.silent = false → c.ending = false ∧
      (r.Transfers W.txt w.pid → w.lazyCleanup.length ≠ nginzLazyObjectQueueSize)

/-- Every event keeps the invariant, when clients keep to the public commands or names do
not matter. -/
theorem on (h : AtRest P w) (e : WorkerEvent)
    (hspare : e = .cleanup → Sparing strict w.lazyCleanup w)
    (hline : named → ∀ fd t bytes, e = .clientData fd t (.data bytes) →
      HandlerInvariant.Public W named bytes)
    (hpublic : named → ∀ fd t storage o x, e = .arrive fd t storage o →
      unpackedString (receivedCommand storage o.datagram) 2 = some x →
      (scannerNextToken x).1 ≠ lit "chat/_hiddenjoin" ∧ (scannerNextToken x).1 ≠ lit "chat/quit") :
    AtRest P (w.on W e) := by
  cases e with
  | arrive fd t storage o =>
    unfold Worker.on
    split
    · rename_i henabled
      obtain ⟨hfd, hclosed, hfree⟩ := henabled
      exact hP.atRest (hP.rawRecv h hfd hclosed hfree fun hn x hx =>
        hpublic hn fd t storage o x rfl hx)
    · exact h
  | _ => exact hP.event h (by simp) hspare hline

/-- Careful actions keep the invariant when names do not matter. -/
theorem step (hnamed : ¬ named) (h : AtRest P w) {a : WorkerAction} (ha : hP.Careful w a) :
    AtRest P (w.step W a) := by
  cases a with
  | event e =>
    apply hP.on h e
    · rintro rfl
      exact ha
    · exact fun hn => absurd hn hnamed
    · exact fun hn => absurd hn hnamed
  | reply t r =>
    exact hP.reply h r ha (fun u hu _ _ => hP.adopt_unnamed hnamed hu t r) fun hn =>
      absurd hn hnamed

end ServiceInvariant
end Nginz
