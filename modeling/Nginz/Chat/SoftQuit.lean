import Nginz.Chat.OpenSockets

/-! The soft quit of a worker: all connections are closed, and the worker serves nobody from
then on. -/
namespace Nginz

/-- `chat_factory_on_softquit`; `ts` are the objects of the pool in the order of the iterator. -/
def chatFactoryOnSoftquit (W : World) (w : Worker) (ts : List ℕ) : Worker :=
  ts.foldl (fun w t => defaultChatClose W (broadcastRoomLeave W w t) t) w

/-- `chat_zombie_on_softquit`. -/
def chatZombieOnSoftquit (W : World) (w : Worker) : Worker :=
  w.zombieList.foldl (fun w t => lazyUnref W w (.zombie t)) w

/-- `chat_accept_on_softquit`. -/
def chatAcceptOnSoftquit (w : Worker) : Worker := { w with quiting := true }

/-- `shake/softquitall`: the callbacks in the order in which they were plugged. -/
def chatOnSoftquit (W : World) (w : Worker) (ts : List ℕ) : Worker :=
  chatAcceptOnSoftquit (chatZombieOnSoftquit W (chatFactoryOnSoftquit W w ts))

/-! ### Closing all connections -/

/-- A worker that closes its connections: what is registered belongs to a connection, and what
is open to one in no trouble. -/
structure Worker.Closing (w : Worker) : Prop where
  entry : ∀ fd t, (fd, t) ∈ w.eventLoop → ∃ c, w.chats t = some c ∧ c.fd = fd ∧ fd ≠ invalidFd
  numbers : (w.eventLoop.map Prod.fst).Nodup
  opened : ∀ fd socket, w.fds fd = some socket →
    ∃ t c, w.chats t = some c ∧ c.fd = fd ∧ fd ≠ invalidFd ∧ c.troubled = false

/-- The connection of the object, if there is one, is closed. -/
def Worker.Done (w : Worker) (t : ℕ) : Prop :=
  ∀ c, w.chats t = some c → c.fd = invalidFd ∧ c.Leaving

/-- A worker that serves nobody. -/
structure Worker.Vacant (w : Worker) : Prop where
  closed : ∀ fd, w.fds fd = none
  deserted : w.eventLoop = []
  ended : ∀ t, w.Done t

section Closing
variable {W : World} {w w' base : Worker} {t : ℕ} {c : ChatConnection}

/-- A close up to the release of the descriptor. -/
theorem Worker.Continues.close (hW : W.Succeeds) (hc : w.chats t = some c) :
    ∃ v d, defaultChatClose W w t = releaseFd v t ∧ w.Continues v ∧ v.chats t = some d ∧
      d.Leaving := by
  obtain ⟨v, d, heq, hr, hd, hleaving, -⟩ := close_routine w hc W
  have hv := Worker.Continues.routine hW hr
  have hoff : v.Continues (if d.state.loggedIn then logoffUser W v t else v) := by
    split
    · exact .logoff W v t
    · exact .refl v
  obtain ⟨d', hd', hdd⟩ := hoff.chats_some hd
  exact ⟨_, d', heq, hv.trans hoff, hd', hdd.leaving hleaving⟩

theorem Worker.Closing.continues (h : w.Closing) (hw : w.Continues w') : w'.Closing where
  entry fd t hmem := by
    rw [hw.eventLoop] at hmem
    obtain ⟨c, hc, hfd, hne⟩ := h.entry fd t hmem
    obtain ⟨c', hc', hcc⟩ := hw.chats_some hc
    exact ⟨c', hc', hcc.fd.trans hfd, hne⟩
  numbers := by
    rw [hw.eventLoop]
    exact h.numbers
  opened fd socket hs := by
    rw [hw.fds] at hs
    obtain ⟨t, c, hc, hfd, hne, htrouble⟩ := h.opened fd socket hs
    obtain ⟨c', hc', hcc⟩ := hw.chats_some hc
    refine ⟨t, c', hc', hcc.fd.trans hfd, hne, ?_⟩
    by_contra ht
    rw [hcc.troubled (by simpa using ht)] at htrouble
    exact absurd htrouble (by decide)

theorem Worker.Done.continues {u : ℕ} (h : w.Done u) (hw : w.Continues w') : w'.Done u := by
  intro c' hc'
  obtain ⟨c, hc, hcc⟩ := hw.chats_of_some hc'
  exact ⟨hcc.fd.trans (h c hc).1, hcc.leaving (h c hc).2⟩

theorem Worker.Vacant.continues (h : w.Vacant) (hw : w.Continues w') : w'.Vacant where
  closed fd := by rw [hw.fds, h.closed]
  deserted := hw.eventLoop.trans h.deserted
  ended t := (h.ended t).continues hw

theorem Worker.Orderly.closing (h : w.Orderly) : w.Closing where
  entry fd t hmem := by
    obtain ⟨c, hc, hfd, hne, -⟩ := h.serving.entry fd t hmem
    exact ⟨c, hc, hfd, hne⟩
  numbers := h.serving.numbers
  opened fd socket hs := by
    obtain ⟨t, ht⟩ := h.tidy.opened fd socket hs
    obtain ⟨c, hc, hfd, hne, -⟩ := h.serving.entry fd t ht
    exact ⟨t, c, hc, hfd, hne, h.conserving.untroubled hc (hfd ▸ ht)⟩

theorem Worker.Vacant.closing (h : w.Vacant) : w.Closing where
  entry fd t hmem := by
    rw [h.deserted] at hmem
    exact absurd hmem List.not_mem_nil
  numbers := by
    rw [h.deserted]
    exact List.nodup_nil
  opened fd socket hs := by
    rw [h.closed] at hs
    exact absurd hs (by simp)

/-- The release of the descriptor of a connection, also of one that handed it off. -/
theorem Worker.Closing.release (h : w.Closing) (hc : w.chats t = some c) :
    (releaseFd w t).Closing ∧ ShedSince w (releaseFd w t) ∧
      (releaseFd w t).chats = Function.update w.chats t (some { c with fd := invalidFd }) := by
  by_cases hne : c.fd = invalidFd
  · have hsame : (⟨invalidFd, c.error, c.state, c.name, c.onResponseCallback, c.callbackData,
        c.quitedAt, c.refs⟩ : ChatConnection) = c := by rw [← hne]
    rw [releaseFd_closed w hc hne]
    refine ⟨h, ⟨[], (List.append_nil _).symm, .refl _⟩, ?_⟩
    rw [hsame, Function.update_eq_self_iff.mpr hc.symm]
  have hother {u : ℕ} (hut : u ≠ t) (x : Option ChatConnection) :
      Function.update w.chats t x u = w.chats u := Function.update_of_ne hut ..
  have hopen : ∀ fd socket, (if c.state.softQuit then w.fds
      else Function.update w.fds c.fd none) fd = some socket → w.fds fd = some socket := by
    intro fd socket hs
    split at hs
    · exact hs
    · exact (Custody.Sheds.drop w.fds c.fd).held fd socket hs
  rw [releaseFd_eq w hc hne]
  refine ⟨⟨?_, ?_, ?_⟩, ⟨[], (List.append_nil _).symm, .of_held hopen⟩, rfl⟩
  · intro fd u hmem
    obtain ⟨hold, hfd⟩ := (KeyedEntries.mem_eraseP_iff h.numbers).mp hmem
    obtain ⟨d, hd, hdfd, hvalid⟩ := h.entry fd u hold
    have hut : u ≠ t := by
      rintro rfl
      obtain rfl := Option.some.inj (hc.symm.trans hd)
      exact hfd hdfd.symm
    exact ⟨d, (hother hut _).trans hd, hdfd, hvalid⟩
  · exact h.numbers.sublist (List.eraseP_sublist.map Prod.fst)
  · intro fd socket hs
    obtain ⟨u, d, hd, hdfd, hvalid, huntroubled⟩ := h.opened fd socket (hopen fd socket hs)
    have hut : u ≠ t := by
      rintro rfl
      obtain rfl := Option.some.inj (hc.symm.trans hd)
      rw [(Bool.or_eq_false_iff.mp huntroubled).2, ← hdfd] at hs
      exact absurd ((Function.update_self ..).symm.trans hs) (by simp)
    exact ⟨u, d, (hother hut _).trans hd, hdfd, hvalid, huntroubled⟩

/-- One turn of the loop of `chat_factory_on_softquit`. -/
theorem Worker.Closing.turn (hW : W.Succeeds) (h : w.Closing) (hsome : (w.chats t).isSome)
    (heq : defaultChatClose W (broadcastRoomLeave W w t) t = w') :
    w'.Closing ∧ ShedSince w w' ∧ w'.Done t ∧ (∀ u, w.Done u → w'.Done u) ∧
      ∀ u, (w.chats u).isSome → (w'.chats u).isSome := by
  obtain ⟨c, hc⟩ := Option.isSome_iff_exists.mp hsome
  have hleave := Worker.Continues.routine hW (routine_leave W w t)
  obtain ⟨c', hc', -⟩ := hleave.chats_some hc
  obtain ⟨v, d, hclose, hv, hd, hleaving⟩ := Worker.Continues.close hW hc'
  have hwv := hleave.trans hv
  obtain ⟨hclosing, hshed, hchats⟩ := (h.continues hwv).release hd
  rw [← hclose, heq] at hclosing hshed hchats
  have hdone : w'.Done t := by
    intro e he
    rw [hchats, Function.update_self] at he
    obtain rfl := Option.some.inj he
    exact ⟨rfl, hleaving⟩
  refine ⟨hclosing, ?_, hdone, fun u hu => ?_, fun u hu => ?_⟩
  · unfold ShedSince at hshed ⊢
    rwa [hwv.fds, hwv.handOffs] at hshed
  · by_cases hut : u = t
    · exact hut ▸ hdone
    · intro e he
      rw [hchats, Function.update_of_ne hut] at he
      exact hu.continues hwv e he
  · rw [hchats]
    by_cases hut : u = t
    · rw [hut, Function.update_self]
      rfl
    · obtain ⟨e, he⟩ := Option.isSome_iff_exists.mp hu
      obtain ⟨e', he', -⟩ := hwv.chats_some he
      rw [Function.update_of_ne hut, he']
      rfl

/-- The loop closes the connections of its objects. -/
theorem Worker.Closing.closeAll (hW : W.Succeeds) (ts : List ℕ) (h : w.Closing)
    (hts : ∀ t ∈ ts, (w.chats t).isSome) :
    (chatFactoryOnSoftquit W w ts).Closing ∧ ShedSince w (chatFactoryOnSoftquit W w ts) ∧
      ∀ t, w.Done t ∨ t ∈ ts → (chatFactoryOnSoftquit W w ts).Done t := by
  unfold chatFactoryOnSoftquit
  induction ts generalizing w with
  | nil =>
    refine ⟨h, ⟨[], (List.append_nil _).symm, .refl _⟩, fun t ht => ?_⟩
    exact ht.resolve_right List.not_mem_nil
  | cons t ts ih =>
    obtain ⟨hturn, hshed, hdone, hkeep, hsome⟩ := h.turn hW (hts t List.mem_cons_self) rfl
    obtain ⟨hclosing, hrest, hall⟩ := ih hturn fun u hu =>
      hsome u (hts u (List.mem_cons_of_mem t hu))
    rw [List.foldl_cons]
    refine ⟨hclosing, hshed.trans hrest, fun u hu => hall u ?_⟩
    rcases hu with hu | hu
    · exact Or.inl (hkeep u hu)
    · rcases List.mem_cons.mp hu with rfl | hu
      · exact Or.inl hdone
      · exact Or.inr hu

/-- When all connections are closed, nobody is registered. -/
theorem Worker.Closing.vacant (h : w.Closing) (hall : ∀ t, w.Done t) : w.Vacant := by
  have hdeserted : w.eventLoop = [] := by
    apply List.eq_nil_iff_forall_not_mem.mpr
    rintro ⟨fd, t⟩ hmem
    obtain ⟨c, hc, hfd, hne⟩ := h.entry fd t hmem
    exact hne (hfd.symm.trans (hall t c hc).1)
  refine ⟨fun fd => ?_, hdeserted, hall⟩
  cases hs : w.fds fd with
  | none => rfl
  | some socket =>
    obtain ⟨t, c, hc, hfd, hne, -⟩ := h.opened fd socket hs
    exact absurd (hfd.symm.trans (hall t c hc).1) hne

end Closing

/-! ### A worker that serves nobody -/

/-- A worker that serves nobody, some work after it was `base`. -/
structure Resting (base w : Worker) : Prop where
  vacant : w.Vacant
  handOffs : w.handOffs = base.handOffs
  quiting : w.quiting = base.quiting

namespace Resting
variable {W : World} {base w w' : Worker} {t : ℕ}

theorem shed (h : Resting base w) : ShedSince base w := by
  refine ⟨[], by rw [h.handOffs, List.append_nil], .of_held fun fd socket hs => ?_⟩
  rw [h.vacant.closed] at hs
  exact absurd hs (by simp)

theorem continues (h : Resting base w) (hw : w.Continues w') : Resting base w' :=
  ⟨h.vacant.continues hw, hw.handOffs.trans h.handOffs, hw.quiting.trans h.quiting⟩

theorem same (h : Resting base w) (hfds : w'.fds = w.fds) (hloop : w'.eventLoop = w.eventLoop)
    (hout : w'.handOffs = w.handOffs) (hquit : w'.quiting = w.quiting)
    (hchats : w'.chats = w.chats) : Resting base w' :=
  h.continues (.of_chats hfds hloop hout hquit hchats)

/-- The last reference to a closed connection, or another one. -/
theorem unref (hW : W.Succeeds) (h : Resting base w) (t : ℕ) : Resting base (oppUnref W w t) := by
  unfold oppUnref
  split
  · exact h
  rename_i c hc
  split
  · obtain ⟨v, d, heq, hv, hd, -⟩ := Worker.Continues.close hW hc
    have hrest := h.continues hv
    unfold finalizeChat
    rw [heq, releaseFd_closed v hd (hrest.vacant.ended t d hd).1]
    refine ⟨⟨hrest.vacant.closed, hrest.vacant.deserted, fun u e he => ?_⟩, hrest.handOffs,
      hrest.quiting⟩
    by_cases hut : u = t
    · rw [hut] at he
      exact absurd ((Function.update_self ..).symm.trans he) (by simp)
    · exact hrest.vacant.ended u e ((Function.update_of_ne hut ..).symm.trans he)
  · exact h.continues (.setChat w t fun _ => ⟨rfl, id, id⟩)

theorem lazyUnref (hW : W.Succeeds) (h : Resting base w) (obj : LazyObject) :
    Resting base (lazyUnref W w obj) := by
  cases obj with
  | chat t => exact h.unref hW t
  | zombie t =>
    unfold Nginz.lazyUnref
    dsimp only
    split
    · have hlist : Resting base { w with zombieList := w.zombieList.erase t } :=
        h.same rfl rfl rfl rfl rfl
      exact hlist.unref hW t
    · exact h

theorem cleanup (hW : W.Succeeds) (h : Resting base w) : Resting base (lazyCallStep W w) := by
  have hloop (objs : List LazyObject) :
      Resting base (objs.foldr (fun obj w => Nginz.lazyUnref W w obj) w) := by
    induction objs with
    | nil => exact h
    | cons obj objs ih => exact ih.lazyUnref hW obj
  exact (hloop w.lazyCleanup).same rfl rfl rfl rfl rfl

theorem zombies (hW : W.Succeeds) (h : Resting base w) :
    Resting base (chatZombieOnSoftquit W w) := by
  unfold chatZombieOnSoftquit
  generalize w.zombieList = ts
  induction ts generalizing w with
  | nil => exact h
  | cons t ts ih => exact ih (h.lazyUnref hW (.zombie t))

theorem zombiePass (h : Resting base w) : Resting base (chatLazyCleanupFiber w) := by
  have hqueue (v : Worker) (obj : LazyObject) (hv : Resting base v) :
      Resting base (lazyCleanup v obj) := by
    unfold lazyCleanup
    dsimp only
    split
    · exact hv.same rfl rfl rfl rfl rfl
    · exact hv.same rfl rfl rfl rfl rfl
  unfold chatLazyCleanupFiber
  split
  · exact h.same rfl rfl rfl rfl rfl
  have hstart : Resting base { w with gear := 0 } := h.same rfl rfl rfl rfl rfl
  dsimp only
  generalize { w with gear := 0 } = v at hstart
  generalize w.zombieList = ts
  induction ts generalizing v with
  | nil => exact hstart
  | cons t ts ih =>
    rw [List.foldl_cons]
    apply ih
    split
    · exact hstart
    · exact hqueue v (.zombie t) hstart

theorem event (hW : W.Succeeds) (h : Resting base w) {e : WorkerEvent}
    (hold : ∀ fd t storage o, e ≠ .arrive fd t storage o) : Resting base (w.on W e) := by
  unfold Worker.on
  split
  swap
  · exact h
  rename_i henabled
  cases e with
  | clientData fd t result =>
    have hmem : (fd, t) ∈ w.eventLoop := henabled
    rw [h.vacant.deserted] at hmem
    exact absurd hmem List.not_mem_nil
  | arrive fd t storage o => exact absurd rfl (hold fd t storage o)
  | zombiePass => exact h.zombiePass
  | cleanup => exact h.cleanup hW
  | tick => exact h.same rfl rfl rfl rfl rfl

theorem reply (h : Resting base w) (t : ℕ) (r : Reply) : Resting base (onReply W w t r) := by
  by_cases hr : r.silent = true
  · rw [onReply_silent W w t hr]
    exact h
  have hr' : r.silent = false := by simpa using hr
  cases hc : w.chats t with
  | none =>
    rw [onReply_none W w hc hr']
    exact h.same rfl rfl rfl rfl rfl
  | some c =>
    have hending : c.ending = true := by
      unfold ChatConnection.ending
      rcases (h.vacant.ended t c hc).2 with hq | hs
      · rw [hq]
        rfl
      · rw [hs]
        simp
    rw [onReply_ending W w hc hending hr']
    exact h.continues (.setChat w t fun _ => ⟨rfl, id, id⟩)

end Resting

/-- A soft quit closes the connections of a worker for good. -/
theorem Worker.Closing.softQuit {W : World} {w : Worker} (hW : W.Succeeds) (h : w.Closing)
    {ts : List ℕ} (hts : ∀ t, t ∈ ts ↔ (w.chats t).isSome) :
    (chatOnSoftquit W w ts).Vacant ∧ (chatOnSoftquit W w ts).quiting = true ∧
      ShedSince w (chatOnSoftquit W w ts) := by
  obtain ⟨hclosing, hshed, hall⟩ := h.closeAll hW ts fun t => (hts t).mp
  have hvacant := hclosing.vacant fun t => by
    by_cases ht : t ∈ ts
    · exact hall t (Or.inr ht)
    · refine hall t (Or.inl fun c hc => ?_)
      rw [hts t, hc] at ht
      exact absurd rfl ht
  have hrest := Resting.zombies hW ⟨hvacant, rfl, rfl⟩
  refine ⟨⟨hrest.vacant.closed, hrest.vacant.deserted, hrest.vacant.ended⟩, rfl, ?_⟩
  exact hshed.trans (shedSince_same hrest.shed rfl rfl)

end Nginz
