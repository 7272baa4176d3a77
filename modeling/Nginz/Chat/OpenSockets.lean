import Nginz.Chat.ServiceEvents
import Nginz.Lib.Custody

/-! The open sockets of a worker: as long as writes and hand-offs succeed, its handlers leave
every open descriptor registered, and give up a socket by closing it or by sending it away. -/
namespace Nginz

/-- Every write and every hand-off succeeds. -/
structure World.Succeeds (W : World) : Prop where
  writes : ∀ n t, W.sendFails n t = false
  handOffs : ∀ n destpid, W.rawSendOk n destpid = true

/-- Open descriptors are registered, and a connection in trouble handed its own off. -/
structure Worker.Tidy (w : Worker) : Prop where
  opened : ∀ fd socket, w.fds fd = some socket → ∃ t, (fd, t) ∈ w.eventLoop
  troubled : ∀ t c, w.chats t = some c → c.troubled = true → c.fd ≠ invalidFd →
    handedOff w.fdLog t = true

/-- The descriptors of a worker have a socket each. -/
def Worker.SocketsApart (w : Worker) : Prop :=
  ∀ fd fd' socket, w.fds fd = some socket → w.fds fd' = some socket → fd = fd'

/-- What the worker gave up since it was `base`, and what of it it sent away. -/
def ShedSince (base w : Worker) : Prop :=
  ∃ sent, w.handOffs = base.handOffs ++ sent ∧
    Custody.Sheds base.fds w.fds (sent.map HandOff.socket)

/-- A worker that serves its connections tidily, some work after it was `base`. -/
structure Conserving (base : Worker) (q : List LazyObject) (held : Multiset ℕ) (w : Worker) :
    Prop where
  serving : Serving False q held w
  tidy : w.Tidy
  shed : ShedSince base w

/-- A connection that is about to end. -/
def ChatConnection.Leaving (c : ChatConnection) : Prop :=
  c.state.quit = true ∨ c.state.softQuit = true

/-- The same connection for its descriptor, in no more trouble. -/
structure ChatConnection.Continues (c c' : ChatConnection) : Prop where
  fd : c'.fd = c.fd
  leaving : c.Leaving → c'.Leaving
  troubled : c'.troubled = true → c.troubled = true

/-- The descriptors of the worker and its connections are the same. -/
structure Worker.Continues (w w' : Worker) : Prop where
  fds : w'.fds = w.fds
  eventLoop : w'.eventLoop = w.eventLoop
  handOffs : w'.handOffs = w.handOffs
  quiting : w'.quiting = w.quiting
  chats : ∀ t, Option.Rel ChatConnection.Continues (w.chats t) (w'.chats t)

namespace Worker.Continues
variable {W : World} {w w' w'' : Worker} {t : ℕ} {c c' : ChatConnection}

theorem chats_some (h : w.Continues w') (hc : w.chats t = some c) :
    ∃ c', w'.chats t = some c' ∧ c.Continues c' := related_some (h.chats t) hc

theorem chats_of_some (h : w.Continues w') (hc : w'.chats t = some c') :
    ∃ c, w.chats t = some c ∧ c.Continues c' := related_of_some (h.chats t) hc

theorem of_chats (hfds : w'.fds = w.fds) (hloop : w'.eventLoop = w.eventLoop)
    (hout : w'.handOffs = w.handOffs) (hquit : w'.quiting = w.quiting)
    (hchats : w'.chats = w.chats) : w.Continues w' := by
  refine ⟨hfds, hloop, hout, hquit, fun t => ?_⟩
  rw [hchats]
  cases w.chats t with
  | none => exact .none
  | some c => exact .some ⟨rfl, id, id⟩

protected theorem refl (w : Worker) : w.Continues w := of_chats rfl rfl rfl rfl rfl

protected theorem trans (h : w.Continues w') (h' : w'.Continues w'') : w.Continues w'' := by
  refine ⟨h'.fds.trans h.fds, h'.eventLoop.trans h.eventLoop, h'.handOffs.trans h.handOffs,
    h'.quiting.trans h.quiting, fun t => ?_⟩
  have ht := h.chats t
  have ht' := h'.chats t
  generalize w.chats t = x at ht
  generalize w'.chats t = y at ht ht'
  generalize w''.chats t = z at ht'
  cases ht with
  | none =>
    cases ht' with
    | none => exact .none
  | some hc =>
    cases ht' with
    | some hc' =>
      exact .some ⟨hc'.fd.trans hc.fd, hc'.leaving ∘ hc.leaving, hc.troubled ∘ hc'.troubled⟩

theorem routine (hW : W.Succeeds) (hr : Routine W w w') : w.Continues w' := by
  refine ⟨hr.fds_eq, hr.eventLoop_eq, hr.handOffs_eq, by rw [← hr.frame], fun t => ?_⟩
  cases hc : w.chats t with
  | none =>
    cases hc' : w'.chats t with
    | none => exact .none
    | some c' =>
      obtain ⟨c, hcsome, -⟩ := hr.chats_of_some hc'
      exact absurd (hc.symm.trans hcsome) (by simp)
  | some c =>
    obtain ⟨c', hc', hf⟩ := hr.chats_some hc
    rw [hc']
    refine .some ⟨hf.fd, Or.imp hf.quit hf.softQuit, fun ht => ?_⟩
    refine (hr.blame t c c' hc hc' ht).resolve_right ?_
    rintro ⟨n, hn⟩
    rw [hW.writes] at hn
    exact absurd hn (by decide)

theorem setChat (w : Worker) (t : ℕ) {f : ChatConnection → ChatConnection}
    (hf : ∀ c : ChatConnection, c.Continues (f c)) : w.Continues (w.setChat t f) := by
  refine ⟨rfl, rfl, rfl, rfl, fun u => ?_⟩
  by_cases hut : u = t
  · subst hut
    rw [w.setChat_same]
    cases w.chats u with
    | none => exact .none
    | some c => exact .some (hf c)
  · rw [w.setChat_other t f hut]
    cases w.chats u with
    | none => exact .none
    | some c => exact .some ⟨rfl, id, id⟩

theorem logoff (W : World) (w : Worker) (t : ℕ) : w.Continues (logoffUser W w t) := by
  unfold logoffUser
  split
  · exact .refl w
  · have hcall : w.Continues (w.call (.unset (-1) none (buildNameKey W.txt (w.chat t).name))) :=
      of_chats rfl rfl rfl rfl rfl
    exact hcall.trans (setChat _ t fun _ => ⟨rfl, id, id⟩)

end Worker.Continues

section Tidy
variable {w w' base : Worker} {t : ℕ} {c : ChatConnection}

/-- Nobody gets into trouble. -/
theorem Worker.Tidy.continues (h : w.Tidy) (hw : w.Continues w')
    (hlog : ∀ t, handedOff w'.fdLog t = handedOff w.fdLog t) : w'.Tidy where
  opened fd socket hs := by
    rw [hw.fds] at hs
    rw [hw.eventLoop]
    exact h.opened fd socket hs
  troubled t c' hc' ht hne := by
    obtain ⟨c, hc, hcc⟩ := hw.chats_of_some hc'
    rw [hlog]
    exact h.troubled t c hc (hcc.troubled ht) (hcc.fd ▸ hne)

/-- A number goes, with the connection that had it. -/
theorem Worker.Tidy.forget (h : w.Tidy) (fd : ℤ) {x : Option ChatConnection}
    (hchats : w'.chats = Function.update w.chats t x)
    (hloop : w'.eventLoop = w.eventLoop.eraseP fun e => e.1 = fd)
    (hx : ∀ c', x = some c' → c'.troubled = true → c'.fd ≠ invalidFd →
      handedOff w'.fdLog t = true)
    (hfds : ∀ fd' socket, w'.fds fd' = some socket → w.fds fd' = some socket ∧ fd' ≠ fd)
    (hlog : ∀ u, u ≠ t → handedOff w'.fdLog u = handedOff w.fdLog u) : w'.Tidy where
  opened fd' socket hs := by
    obtain ⟨hold, hother⟩ := hfds fd' socket hs
    obtain ⟨u, hu⟩ := h.opened fd' socket hold
    rw [hloop]
    exact ⟨u, (List.mem_eraseP_of_neg (by simpa using hother)).mpr hu⟩
  troubled u c' hc' ht hne := by
    rw [hchats] at hc'
    by_cases hut : u = t
    · subst hut
      rw [Function.update_self] at hc'
      exact hx c' hc' ht hne
    · rw [Function.update_of_ne hut] at hc'
      rw [hlog u hut]
      exact h.troubled u c' hc' ht hne

theorem shedSince_same (h : ShedSince base w) (hfds : w'.fds = w.fds)
    (hout : w'.handOffs = w.handOffs) : ShedSince base w' := by
  unfold ShedSince
  rw [hfds, hout]
  exact h

theorem ShedSince.continues (h : ShedSince base w) (hw : w.Continues w') : ShedSince base w' :=
  shedSince_same h hw.fds hw.handOffs

theorem ShedSince.trans (h : ShedSince base w) (h' : ShedSince w w') :
    ShedSince base w' := by
  obtain ⟨sent, hout, hshed⟩ := h
  obtain ⟨sent', hout', hshed'⟩ := h'
  refine ⟨sent ++ sent', by rw [hout', hout, List.append_assoc], ?_⟩
  rw [List.map_append]
  exact hshed.trans hshed'

/-- The worker gives up more. -/
theorem ShedSince.more (h : ShedSince base w) {sent : List HandOff}
    (hout : w'.handOffs = w.handOffs ++ sent)
    (hf : Custody.Sheds w.fds w'.fds (sent.map HandOff.socket)) : ShedSince base w' :=
  h.trans ⟨sent, hout, hf⟩

theorem Worker.SocketsApart.shed (hapart : base.SocketsApart)
    (h : ShedSince base w) : w.SocketsApart := by
  obtain ⟨sent, -, hshed⟩ := h
  exact fun fd fd' socket hs hs' => hapart fd fd' socket (hshed.held fd socket hs)
    (hshed.held fd' socket hs')

end Tidy

section Steps
variable {base w w' : Worker} {q q' : List LazyObject} {held held' : Multiset ℕ} {t : ℕ}
  {c : ChatConnection}

/-- A registered connection is in no trouble. -/
theorem Conserving.untroubled (h : Conserving base q held w) (hc : w.chats t = some c)
    (hreg : (c.fd, t) ∈ w.eventLoop) : c.troubled = false := by
  obtain ⟨-, -, -, hne, hkept⟩ := h.serving.entry c.fd t hreg
  by_contra htrouble
  rw [h.tidy.troubled t c hc (by simpa using htrouble) hne] at hkept
  exact absurd hkept (by decide)

/-- Work that leaves the descriptors alone. -/
theorem Conserving.continues (h : Conserving base q held w) (hs : Serving False q' held' w')
    (hw : w.Continues w') (hlog : ∀ t, handedOff w'.fdLog t = handedOff w.fdLog t) :
    Conserving base q' held' w' := ⟨hs, h.tidy.continues hw hlog, h.shed.continues hw⟩

theorem Conserving.release (h : Conserving base q held w) (hc : w.chats t = some c)
    (hreg : (c.fd, t) ∈ w.eventLoop) (hend : c.state.quit = true ∨ c.state.softQuit = true) :
    Conserving base q (t ::ₘ held) (releaseFd w t) := by
  obtain ⟨-, -, -, hne, -⟩ := h.serving.entry c.fd t hreg
  have huntroubled := h.untroubled hc hreg
  have hsoft : c.state.softQuit = false := (Bool.or_eq_false_iff.mp huntroubled).2
  have hserving := h.serving.release hc hreg hend
  rw [releaseFd_eq w hc hne, hsoft] at hserving ⊢
  refine ⟨hserving, h.tidy.forget c.fd rfl rfl ?_ ?_ ?_, h.shed.more (List.append_nil _).symm ?_⟩
  · rintro c' hc' - hvalid
    obtain rfl := Option.some.inj hc'
    exact absurd rfl hvalid
  · intro fd' socket hs
    by_cases hfd : fd' = c.fd
    · rw [hfd] at hs
      exact absurd ((Function.update_self ..).symm.trans hs) (by simp)
    · exact ⟨(Function.update_of_ne hfd ..).symm.trans hs, hfd⟩
  · intro u hut
    dsimp only
    rw [List.append_assoc]
    apply handedOff_others hut
    intro e he
    simp only [Bool.false_eq_true, if_false, List.cons_append, List.nil_append, List.mem_cons,
      List.not_mem_nil, or_false] at he
    rcases he with rfl | rfl <;> rfl
  · exact Custody.Sheds.drop w.fds c.fd

theorem Conserving.transferOut {W : World} (hW : W.Succeeds) (hapart : base.SocketsApart)
    (h : Conserving base q held w) (hc : w.chats t = some c) (hreg : (c.fd, t) ∈ w.eventLoop)
    (room : Bytes) (pid : ℤ) : Conserving base q (t ::ₘ held) (transferOut W w t room pid) := by
  obtain ⟨-, -, -, hne, hkept⟩ := h.serving.entry c.fd t hreg
  obtain ⟨socket, hs⟩ := Option.isSome_iff_exists.mp (h.serving.holds t c hc hne hkept)
  have hserving := h.serving.transferOut hc hreg W room pid
  have honly := fun fd hfd => hapart.shed h.shed fd c.fd socket hfd hs
  rw [transferOut_eq w hc W hs room pid (h.serving.unregistered hreg), hW.handOffs] at hserving ⊢
  simp only [if_true] at hserving ⊢
  refine ⟨hserving, h.tidy.forget c.fd rfl rfl ?_ ?_ ?_,
    h.shed.more rfl (Custody.Sheds.send hs honly)⟩
  · exact fun _ _ _ _ => handedOff_handOff ..
  · intro fd' socket' hs'
    by_cases hfd : fd' = c.fd
    · rw [hfd] at hs'
      exact absurd ((Function.update_self ..).symm.trans hs') (by simp)
    · exact ⟨(Function.update_of_ne hfd ..).symm.trans hs', hfd⟩
  · intro u hut
    dsimp only
    rw [List.append_assoc, List.append_assoc]
    apply handedOff_others hut
    intro e he
    simp only [List.cons_append, List.nil_append, List.mem_cons, List.not_mem_nil, or_false] at he
    rcases he with rfl | rfl | rfl <;> rfl

theorem Conserving.finish (W : World) (h : Conserving base q (t ::ₘ held) w)
    (hc : w.chats t = some c) (hlast : c.refs ≤ 1)
    (hfree : handedOff w.fdLog t = true → ∀ u, (c.fd, u) ∉ w.eventLoop) :
    Conserving base q held (finalizeChat W w t) := by
  obtain ⟨-, hin, -, -, -, hsoft⟩ := h.serving.last_ref hc hlast
  have hnone := h.serving.number_free hc hlast hfree
  have hserving := h.serving.finish hc hlast (fun hm => ⟨not_false, hfree hm⟩) W
  have herase := (Serving.entry_none hnone).1
  rw [finalizeChat_eq w hc W hin hsoft hnone] at hserving ⊢
  refine ⟨hserving, h.tidy.forget c.fd rfl herase.symm ?_ ?_ ?_, shedSince_same h.shed rfl rfl⟩
  · intro c' hc'
    exact absurd hc' (by simp)
  · rintro fd' socket hs
    refine ⟨hs, ?_⟩
    rintro rfl
    obtain ⟨u, hu⟩ := h.tidy.opened c.fd socket hs
    exact hnone u hu
  · intro u hut
    apply handedOff_others hut
    intro e he
    split at he
    · exact absurd he List.not_mem_nil
    · obtain rfl := List.mem_singleton.mp he
      rfl

theorem Worker.Continues.zombieAdd (w : Worker) (t : ℕ) : w.Continues (chatZombieAdd w t) := by
  unfold chatZombieAdd
  split
  · exact .refl w
  have hassert : w.Continues (w.assert ((w.chat t).quitedAt ≠ 0)) := .of_chats rfl rfl rfl rfl rfl
  have hmark : w.Continues ((w.assert ((w.chat t).quitedAt ≠ 0)).setChat t fun c =>
      { c with state := { c.state with zombie := true } }) :=
    hassert.trans (.setChat _ t fun _ => ⟨rfl, id, id⟩)
  have hlist : w.Continues { (w.assert ((w.chat t).quitedAt ≠ 0)).setChat t fun c =>
      { c with state := { c.state with zombie := true } } with
        zombieList := w.zombieList ++ [t] } := hmark.trans (.of_chats rfl rfl rfl rfl rfl)
  exact hlist.trans (.setChat _ t fun _ => ⟨rfl, id, id⟩)

end Steps

/-- Where everything succeeds, the operations on the old connections conserve the sockets. -/
theorem conserving_invariant {W : World} (hW : W.Succeeds) {base : Worker}
    (hapart : base.SocketsApart) : HandlerInvariant W False False True (Conserving base) where
  serving h := h.serving
  honest hn := absurd hn not_false
  routine h hr hm := h.continues (h.serving.routine hr hm) (.routine hW hr)
    (Serving.handedOff_routine hr)
  weaken _ h hle := ⟨h.serving.weaken hle, h.tidy, h.shed⟩
  requeue h q' := h.continues (h.serving.requeue q') (.of_chats rfl rfl rfl rfl rfl) fun _ => rfl
  tick h gear clock quiting :=
    ⟨(serving_invariant W False).tick h.serving gear clock quiting,
      ⟨h.tidy.opened, h.tidy.troubled⟩, shedSince_same h.shed rfl rfl⟩
  get h hc := h.continues (h.serving.get hc) (.setChat _ _ fun _ => ⟨rfl, id, id⟩) fun _ => rfl
  drop h hc hmore := h.continues (h.serving.drop hc hmore) (.setChat _ _ fun _ => ⟨rfl, id, id⟩)
    fun _ => rfl
  unlist h ht := h.continues (h.serving.unlist ht) (.of_chats rfl rfl rfl rfl rfl) fun _ => rfl
  zombieAdd {q held w t c} h hc hfd hend := by
    refine h.continues (h.serving.zombieAdd hc hfd hend) (.zombieAdd w t) fun u => ?_
    unfold chatZombieAdd
    split
    · rfl
    · rfl
  relabel {q held w t f} _ h hm hf := by
    refine h.continues ((serving_invariant W False).relabel not_false h.serving hm hf)
      (.setChat w t fun c => ?_) fun _ => rfl
    have hview := hf c
    simp only [ChatConnection.serviceView, Prod.mk.injEq] at hview
    obtain ⟨hfd, herror, ⟨hquit, hsoft, -⟩, -⟩ := hview
    refine ⟨hfd, fun hleaving => ?_, fun htrouble => ?_⟩
    · unfold ChatConnection.Leaving
      rwa [hquit, hsoft]
    · unfold ChatConnection.troubled at htrouble ⊢
      rwa [← herror, ← hsoft]
  logoff {q held w t} h hout _ := by
    refine h.continues (h.serving.logoff hout) (.logoff W w t) fun u => ?_
    unfold logoffUser
    split
    · rfl
    · rfl
  release h hc hreg _ hend _ := h.release hc hreg hend
  transferOut h room pid hc hreg _ _ := h.transferOut hW hapart hc hreg room pid
  finish h hc hlast hmoved := h.finish W hc hlast fun hm => (hmoved hm).2

/-! ### Between the handlers -/

/-- A worker between its handlers. -/
structure Worker.Orderly (w : Worker) : Prop where
  serving : AtRest (Serving False) w
  tidy : w.Tidy

/-- The datagram of a socket is one for the chat. -/
def Understood (storage datagram : Bytes) : Prop :=
  unpackedInt (receivedCommand storage datagram) 1 = some nginzChatPort ∧
    (unpackedString (receivedCommand storage datagram) 2).isSome

instance (storage datagram : Bytes) : Decidable (Understood storage datagram) :=
  inferInstanceAs (Decidable (_ ∧ _))

/-- The descriptors after the kernel installed a received socket. -/
def Worker.withSocket (w : Worker) (fd : ℤ) (socket : ℕ) : Worker :=
  { w with fds := Function.update w.fds fd (some socket) }

namespace Worker.Orderly
variable {W : World} {w : Worker}

theorem conserving (h : w.Orderly) : AtRest (Conserving w) w :=
  ⟨h.serving, h.tidy, [], (List.append_nil _).symm, .refl _⟩

theorem of_conserving {base : Worker} (h : AtRest (Conserving base) w) :
    w.Orderly ∧ ShedSince base w := ⟨⟨h.serving, h.tidy⟩, h.shed⟩

theorem event (hW : W.Succeeds) (h : w.Orderly) (hapart : w.SocketsApart) {e : WorkerEvent}
    (hold : ∀ fd t storage o, e ≠ .arrive fd t storage o)
    (hspare : e = .cleanup → Sparing False w.lazyCleanup w) :
    (w.on W e).Orderly ∧ ShedSince w (w.on W e) :=
  of_conserving ((conserving_invariant hW hapart).event h.conserving hold hspare
    fun hn => absurd hn not_false)

theorem reply (hW : W.Succeeds) (h : w.Orderly) (hapart : w.SocketsApart) (t : ℕ) (r : Reply) :
    (onReply W w t r).Orderly ∧ ShedSince w (onReply W w t r) :=
  have hP := conserving_invariant hW hapart
  of_conserving (hP.reply h.conserving r (Or.inl trivial)
    (fun _ hv _ _ => hP.adopt_unnamed not_false hv t r) fun hn => absurd hn not_false)

/-- The new connection of an installed socket is registered. -/
theorem register (h : w.Orderly) {fd : ℤ} {t : ℕ} (socket : ℕ) (hfd : 0 ≤ fd)
    (hclosed : w.fds fd = none) (hfree : w.chats t = none) :
    AtRest (Conserving (w.withSocket fd socket))
      ((chatAlloc (w.withSocket fd socket) t fd).eventLoopRegisterFd fd t) := by
  have hfresh : Serving.Fresh w fd :=
    h.serving.fresh_of_closed (by unfold invalidFd; omega) hclosed
  have hinst : Serving False w.lazyCleanup (queued w.lazyCleanup) (w.withSocket fd socket) :=
    h.serving.install hfresh (some socket)
  have hopen : ((w.withSocket fd socket).fds fd).isSome := by
    unfold Worker.withSocket
    simp
  refine ⟨hinst.arrive hfresh hopen hfree, ⟨fun fd' socket' hs => ?_, ?_⟩, [],
    (List.append_nil _).symm, .refl _⟩
  · change Function.update w.fds fd (some socket) fd' = some socket' at hs
    by_cases hother : fd' = fd
    · exact ⟨t, hother ▸ List.mem_append_right _ (List.mem_singleton_self _)⟩
    · rw [Function.update_of_ne hother] at hs
      obtain ⟨u, hu⟩ := h.tidy.opened fd' socket' hs
      exact ⟨u, List.mem_append_left _ hu⟩
  · intro u c hc htrouble hne
    change Function.update w.chats t (some (.initial fd)) u = some c at hc
    by_cases hut : u = t
    · subst hut
      rw [Function.update_self] at hc
      obtain rfl := Option.some.inj hc
      exact absurd htrouble Bool.false_ne_true
    · rw [Function.update_of_ne hut] at hc
      have hold := h.tidy.troubled u c hc htrouble hne
      rw [← hold]
      change handedOff (w.fdLog ++ [.opened fd t] ++ [.register fd t]) u = handedOff w.fdLog u
      rw [List.append_assoc]
      apply handedOff_others hut
      intro e he
      simp only [List.cons_append, List.nil_append, List.mem_cons, List.not_mem_nil, or_false] at he
      rcases he with rfl | rfl <;> rfl

/-- A new connection without a command is refused, and its socket closed. -/
theorem refuse (W : World) (h : w.Orderly) {fd : ℤ} {t : ℕ} (socket : ℕ) (hfd : 0 ≤ fd)
    (hclosed : w.fds fd = none) (hfree : w.chats t = none) :
    AtRest (Conserving (w.withSocket fd socket))
      (oppUnref W (closeClient W (chatAlloc (w.withSocket fd socket) t fd) t) t) := by
  have hfresh : Serving.Fresh w fd :=
    h.serving.fresh_of_closed (by unfold invalidFd; omega) hclosed
  have hinst : Serving False w.lazyCleanup (queued w.lazyCleanup) (w.withSocket fd socket) :=
    h.serving.install hfresh (some socket)
  have hserving := hinst.reject hfresh hfree W
  have hnone := (Serving.entry_none (h.serving.not_registered_of_fresh hfresh)).1
  have hserves : AtRest (Serving False)
      (oppUnref W (closeClient W (chatAlloc (w.withSocket fd socket) t fd) t) t) := by
    unfold AtRest
    rw [hserving.queue]
    exact hserving
  have heq := reject_eq W (w.withSocket fd socket) t hfresh.1
  refine ⟨hserves, ?_, [], ?_, ?_⟩
  · rw [heq]
    refine h.tidy.forget fd rfl rfl ?_ ?_ ?_
    · rintro c' hc' - hne
      obtain rfl := Option.some.inj hc'
      exact (hne rfl).elim
    · intro fd' socket' hs
      change Function.update (Function.update w.fds fd (some socket)) fd none fd' = _ at hs
      rw [Function.update_idem] at hs
      by_cases hother : fd' = fd
      · rw [hother, Function.update_self] at hs
        exact absurd hs (by simp)
      · exact ⟨(Function.update_of_ne hother ..).symm.trans hs, hother⟩
    · intro u hut
      dsimp only
      rw [List.append_assoc, List.append_assoc]
      apply handedOff_others hut
      intro e he
      simp only [List.cons_append, List.nil_append, List.mem_cons, List.not_mem_nil, or_false] at he
      rcases he with rfl | rfl | rfl <;> rfl
  · rw [heq, List.append_nil]
  · rw [heq]
    exact Custody.Sheds.drop _ fd

/-- A socket that comes with a datagram for the chat is served, or closed. -/
theorem arrive (hW : W.Succeeds) (h : w.Orderly) {fd : ℤ} {t : ℕ} {storage : Bytes} {o : HandOff}
    (henabled : w.Enabled (.arrive fd t storage o))
    (hapart : (w.withSocket fd o.socket).SocketsApart)
    (hquit : w.quiting = false) (hu : Understood storage o.datagram) :
    (w.on W (.arrive fd t storage o)).Orderly ∧
      ShedSince (w.withSocket fd o.socket) (w.on W (.arrive fd t storage o)) := by
  apply of_conserving
  have hP := conserving_invariant hW hapart
  have hquit' : ¬ (w.withSocket fd o.socket).quiting = true := by
    rw [show (w.withSocket fd o.socket).quiting = false from hquit]
    decide
  obtain ⟨hfd, hclosed, hfree⟩ := id henabled
  obtain ⟨hport, hcmd⟩ := hu
  obtain ⟨x, hx⟩ := Option.isSome_iff_exists.mp hcmd
  unfold Worker.on
  rw [if_pos henabled]
  change AtRest _ (onRawRecvSocket W w fd t storage o)
  unfold onRawRecvSocket onConnectionBubble
  dsimp only
  rw [hport, hx]
  dsimp only
  rw [if_pos rfl]
  change AtRest _ (if (w.withSocket fd o.socket).quiting = true then _ else _)
  rw [if_neg hquit']
  split
  · exact h.refuse W o.socket hfd hclosed hfree
  · have hnew := h.register o.socket hfd hclosed hfree
    refine hP.atRest (hP.bridge hnew ⟨.initial fd, Function.update_self .., ?_⟩ x
      (fun hn => absurd hn not_false) fun hn => absurd hn not_false).1
    exact List.mem_append_right _ (List.mem_singleton_self _)

end Worker.Orderly
end Nginz
