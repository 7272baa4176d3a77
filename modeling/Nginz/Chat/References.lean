import Mathlib.Algebra.BigOperators.Fin
import Nginz.Chat.HandedOff

/-! The references to a connection: between the handlers of a worker the count of each one is
the number of its holders. -/
namespace Nginz
open Transition

/-- A connection is listed once in the room it is in, and nowhere else. -/
theorem Membership.entries_eq {w : Worker} (h : Membership w) {t : ℕ} {c : ChatConnection}
    (hc : w.chats t = some c) : w.entries t = if c.callbackData.isSome then 1 else 0 := by
  have hin (r : ℕ) : t ∈ w.users r ↔ c.callbackData = some r := by
    rw [h.entry]
    constructor
    · rintro ⟨d, hd, hr⟩
      rw [hc] at hd
      obtain rfl := Option.some.inj hd
      exact hr
    · exact fun hr => ⟨c, hc, hr⟩
  have husers (i : Fin w.rooms.length) : w.rooms[i].userList = w.users i := by
    unfold Worker.users
    simp
  have hsum : w.entries t = ∑ i : Fin w.rooms.length, (w.users i).count t := by
    unfold Worker.entries
    rw [← Fin.sum_univ_fun_getElem]
    exact Finset.sum_congr rfl fun i _ => by rw [← husers]; rfl
  rw [hsum]
  cases hdata : c.callbackData with
  | none =>
    rw [Finset.sum_eq_zero fun i _ => ?_]
    · rfl
    · rw [List.count_eq_zero, hin, hdata]
      simp
  | some r =>
    have hmem : t ∈ w.users r := (hin r).mpr hdata
    have hr : r < w.rooms.length := by
      by_contra hr
      unfold Worker.users at hmem
      rw [List.getElem?_eq_none (by omega)] at hmem
      exact absurd hmem List.not_mem_nil
    rw [Finset.sum_eq_single ⟨r, hr⟩]
    · exact List.count_eq_one_of_mem (h.nodup r) hmem
    · intro i _ hi
      rw [List.count_eq_zero, hin, hdata]
      rintro heq
      exact hi (Fin.ext (Option.some.inj heq).symm)
    · exact fun hno => absurd (Finset.mem_univ _) hno

/-! ### The balance within and between handlers -/

/-- Every connection has as many references as there are holders, handlers included, and a
connection in a room is registered. -/
structure Balanced (held : Multiset ℕ) (w : Worker) : Prop where
  positive : ∀ t c, w.chats t = some c → 0 < c.refs
  level : ∀ t c, w.chats t = some c → c.spare = w.holders t + held.count t
  roomed : ∀ t c, w.chats t = some c → c.callbackData.isSome → (c.fd, t) ∈ w.eventLoop

namespace Balanced
variable {held held' : Multiset ℕ} {w w' : Worker} {t : ℕ} {c : ChatConnection}

/-- Nothing that counts changed. -/
theorem same (h : Balanced held w) (hc : w'.chats = w.chats) (he : w'.eventLoop = w.eventLoop)
    (hz : w'.zombieList = w.zombieList) : Balanced held w' where
  positive t c ht := by
    rw [hc] at ht
    exact h.positive t c ht
  level t c ht := by
    rw [hc] at ht
    unfold Worker.holders
    rw [he, hz]
    exact h.level t c ht
  roomed t c ht hd := by
    rw [hc] at ht
    rw [he]
    exact h.roomed t c ht hd

/-- One connection changes, with its own holders; it may also come or go. -/
theorem replace (h : Balanced held w) {x : Option ChatConnection}
    (hchats : w'.chats = Function.update w.chats t x)
    (hother : ∀ u, u ≠ t → w'.holders u = w.holders u ∧ held'.count u = held.count u)
    (hloop : ∀ fd u, u ≠ t → (fd, u) ∈ w.eventLoop → (fd, u) ∈ w'.eventLoop)
    (hsome : ∀ c', x = some c' → 0 < c'.refs ∧ c'.spare = w'.holders t + held'.count t ∧
      (c'.callbackData.isSome → (c'.fd, t) ∈ w'.eventLoop)) : Balanced held' w' := by
  have hback : ∀ u d, w'.chats u = some d → u = t ∧ x = some d ∨ u ≠ t ∧ w.chats u = some d := by
    intro u d hd
    rw [hchats] at hd
    by_cases hut : u = t
    · subst hut
      rw [Function.update_self] at hd
      exact Or.inl ⟨rfl, hd⟩
    · rw [Function.update_of_ne hut] at hd
      exact Or.inr ⟨hut, hd⟩
  constructor
  · intro u d hd
    rcases hback u d hd with ⟨rfl, hx⟩ | ⟨hut, hd⟩
    · exact (hsome d hx).1
    · exact h.positive u d hd
  · intro u d hd
    rcases hback u d hd with ⟨rfl, hx⟩ | ⟨hut, hd⟩
    · exact (hsome d hx).2.1
    · rw [(hother u hut).1, (hother u hut).2]
      exact h.level u d hd
  · intro u d hd hdata
    rcases hback u d hd with ⟨rfl, hx⟩ | ⟨hut, hd⟩
    · exact (hsome d hx).2.2 hdata
    · exact hloop d.fd u hut (h.roomed u d hd hdata)

/-- A change of one connection that moves references between it and the handlers. -/
theorem setChat (h : Balanced held w) (hc : w.chats t = some c)
    {f : ChatConnection → ChatConnection} (hpos : 0 < (f c).refs) (hfd : (f c).fd = c.fd)
    (hdata : (f c).callbackData = c.callbackData)
    (hother : ∀ u, u ≠ t → held'.count u = held.count u)
    (hspare : (f c).spare - c.spare = (held'.count t : ℤ) - held.count t) :
    Balanced held' (w.setChat t f) := by
  refine h.replace (x := some (f c)) ?_ (fun u hut => ⟨rfl, hother u hut⟩) (fun _ _ _ hm => hm) ?_
  · rw [setChat_chats w hc]
  · intro c' hx
    obtain rfl := Option.some.inj hx
    refine ⟨hpos, ?_, fun hd => ?_⟩
    · have hlevel := h.level t c hc
      show _ = (w.holders t : ℤ) + _
      omega
    · rw [hfd]
      rw [hdata] at hd
      exact h.roomed t c hc hd

/-- Routine work moves references between a connection and its room only. -/
theorem routine {W : World} (h : Balanced held w) (hm : Membership w) (hw : Routine W w w')
    (hm' : Membership w') : Balanced held w' := by
  have hview {u : ℕ} {c c' : ChatConnection} (hc : w.chats u = some c)
    (hc' : w'.chats u = some c') :
      c'.spare = c.spare ∧ 0 < c'.refs := by
    have hpos := h.positive u c hc
    have hentries := hm.entries_eq hc
    have hentries' := hm'.entries_eq hc'
    have hlevel := hw.level u c c' hc hc' (by rw [hentries]; split <;> omega)
    have hspare : c'.spare = c.spare := by
      unfold ChatConnection.spare
      rw [hentries, hentries'] at hlevel
      push_cast at hlevel
      omega
    refine ⟨hspare, ?_⟩
    by_cases hin : c.callbackData.isSome
    · have hreg : (c.fd, u) ∈ w.eventLoop := h.roomed u c hc hin
      have hheld := Attached.holders_pos ⟨c, hc, hreg⟩
      have hcount := h.level u c hc
      rw [← hspare] at hcount
      unfold ChatConnection.spare at hcount
      split at hcount <;> omega
    · unfold ChatConnection.spare at hspare
      rw [if_neg hin] at hspare
      split at hspare <;> omega
  constructor
  · intro u c' hc'
    obtain ⟨c, hc, -⟩ := hw.chats_of_some hc'
    exact (hview hc hc').2
  · intro u c' hc'
    obtain ⟨c, hc, -⟩ := hw.chats_of_some hc'
    rw [(hview hc hc').1, h.level u c hc]
    unfold Worker.holders
    rw [hw.eventLoop_eq, hw.zombieList_eq]
  · intro u c' hc' hd
    obtain ⟨c, hc, hf⟩ := hw.chats_of_some hc'
    rw [hf.fd, hw.eventLoop_eq]
    rcases hw.enters u c c' hc hc' hd with hold | hreg
    · exact h.roomed u c hc hold
    · exact hreg

/-- A registered connection outside every room leaves the event loop; the handler gets the
reference of the registration. -/
theorem detach (h : Balanced held w) {s : Prop} {q : List LazyObject} (hs : Serving s q held w)
    {c' : ChatConnection} (hc : w.chats t = some c) (hreg : (c.fd, t) ∈ w.eventLoop)
    (hout : Outside w t) (hchats : w'.chats = Function.update w.chats t (some c'))
    (hloop : w'.eventLoop = w.eventLoop.eraseP fun e => e.1 = c.fd)
    (hz : w'.zombieList = w.zombieList) (hrefs : c'.refs = c.refs)
    (hdata : c'.callbackData = c.callbackData) : Balanced (t ::ₘ held) w' := by
  obtain ⟨xs, ys, hsplit, herase, -, -⟩ := hs.entry_split hreg
  rw [herase] at hloop
  apply h.replace hchats
  · intro u hut
    refine ⟨?_, Multiset.count_cons_of_ne hut held⟩
    unfold Worker.holders
    rw [hloop, hz, hsplit]
    simp [List.countP_append, Ne.symm hut]
  · intro fd u hut hmem
    rw [hsplit] at hmem
    rw [hloop]
    rcases List.mem_append.mp hmem with hmem | hmem
    · exact List.mem_append_left _ hmem
    · rcases List.mem_cons.mp hmem with heq | hmem
      · exact absurd (Prod.mk.inj heq).2 hut
      · exact List.mem_append_right _ hmem
  · intro d hd
    obtain rfl := Option.some.inj hd
    refine ⟨by rw [hrefs]; exact h.positive t c hc, ?_, fun hin => ?_⟩
    · have hlevel := h.level t c hc
      unfold Worker.holders ChatConnection.spare at hlevel ⊢
      rw [hsplit] at hlevel
      rw [hloop, hz, hrefs, hdata, Multiset.count_cons_self]
      simp only [List.countP_append, List.countP_cons, decide_true, if_true] at hlevel ⊢
      push_cast at hlevel ⊢
      omega
    · rw [hdata, hout c hc] at hin
      exact absurd hin (by simp)

/-- A change that keeps what the service sees of a connection. -/
theorem relabel (h : Balanced held w) {f : ChatConnection → ChatConnection}
    (hf : ∀ c, (f c).serviceView = c.serviceView) : Balanced held (w.setChat t f) := by
  cases hc : w.chats t with
  | none =>
    refine h.same ?_ rfl rfl
    exact Worker.setChat_absent f hc
  | some c =>
    have hview := hf c
    simp only [ChatConnection.serviceView, Prod.mk.injEq] at hview
    refine h.setChat hc ?_ hview.1 hview.2.2.2.2 (fun _ _ => rfl) ?_
    · rw [hview.2.2.2.1]
      exact h.positive t c hc
    · rw [(steady_of_view (hf c)).2]
      omega

theorem zombieAdd (h : Balanced held w) (hc : w.chats t = some c) :
    Balanced held (chatZombieAdd w t) := by
  unfold chatZombieAdd
  rw [w.chat_of_some t hc]
  split
  · exact h
  dsimp only
  apply h.replace (t := t)
    (x := some { c with state := { c.state with zombie := true }, refs := c.refs + 1 })
  · unfold Worker.setChat Worker.assert
    simp [hc]
  · intro u hut
    refine ⟨?_, rfl⟩
    show w.eventLoop.countP _ + (w.zombieList ++ [t]).count u = _
    unfold Worker.holders
    simp [List.count_append, Ne.symm hut]
  · exact fun _ _ _ hm => hm
  · intro c' hx
    obtain rfl := Option.some.inj hx
    refine ⟨Nat.succ_pos _, ?_, h.roomed t c hc⟩
    have hlevel := h.level t c hc
    show _ = ((w.eventLoop.countP _ + (w.zombieList ++ [t]).count t : ℕ) : ℤ) + _
    unfold Worker.holders ChatConnection.spare at hlevel
    unfold ChatConnection.spare
    rw [List.count_append, List.count_singleton_self]
    push_cast at hlevel ⊢
    omega

theorem unlist (h : Balanced held w) (hc : w.chats t = some c) (ht : t ∈ w.zombieList) :
    Balanced (t ::ₘ held) { w with zombieList := w.zombieList.erase t } := by
  have hpos : 0 < w.zombieList.count t := List.count_pos_iff.mpr ht
  apply h.replace (x := some c)
  · exact (Function.update_eq_self_iff.mpr hc.symm).symm
  · intro u hut
    refine ⟨?_, Multiset.count_cons_of_ne hut held⟩
    unfold Worker.holders
    dsimp only
    rw [List.count_erase_of_ne hut]
  · exact fun _ _ _ hm => hm
  · intro c' hx
    obtain rfl := Option.some.inj hx
    refine ⟨h.positive t _ hc, ?_, h.roomed t _ hc⟩
    have hlevel := h.level t _ hc
    unfold Worker.holders at hlevel ⊢
    dsimp only
    rw [List.count_erase_self, Multiset.count_cons_self]
    push_cast at hlevel ⊢
    omega

theorem entries_none (h : ∀ fd, (fd, t) ∉ w.eventLoop) : w.eventLoop.countP (·.2 = t) = 0 := by
  rw [List.countP_eq_zero]
  rintro ⟨fd, u⟩ hmem hu
  obtain rfl : u = t := by simpa using hu
  exact h fd hmem

theorem arrive (h : Balanced held w) (hun : ∀ fd, (fd, t) ∉ w.eventLoop)
    (hzero : w.zombieList.count t = 0) (hheld : held.count t = 0) (fd : ℤ) :
    Balanced held ((chatAlloc w t fd).eventLoopRegisterFd fd t) := by
  have hnone := entries_none hun
  apply h.replace (x := some (.initial fd))
  · rfl
  · intro u hut
    refine ⟨?_, rfl⟩
    show (w.eventLoop ++ [(fd, t)]).countP _ + w.zombieList.count u = _
    unfold Worker.holders
    simp [List.countP_append, Ne.symm hut]
  · exact fun _ _ _ hm => List.mem_append_left _ hm
  · intro c' hx
    obtain rfl := Option.some.inj hx
    refine ⟨Nat.one_pos, ?_, fun hin => absurd hin (by simp [ChatConnection.initial])⟩
    show _ = (((w.eventLoop ++ [(fd, t)]).countP _ + w.zombieList.count t : ℕ) : ℤ) + _
    simp [List.countP_append, hnone, hzero, hheld, ChatConnection.spare, ChatConnection.initial]

theorem reject (h : Balanced held w) {s : Prop} {q : List LazyObject} (hs : Serving s q held w)
    {fd : ℤ} (hfresh : Serving.Fresh w fd) (ht : w.chats t = none) (W : World) :
    Balanced held (oppUnref W (closeClient W (chatAlloc w t fd) t) t) := by
  obtain ⟨hun, hzero, hheld⟩ := hs.slot_free ht
  obtain ⟨herase, -⟩ := Serving.entry_none (hs.not_registered_of_fresh hfresh)
  rw [reject_eq W w t hfresh.1, herase]
  have hnone := entries_none hun
  apply h.replace (x := _)
  · rfl
  · intro u hut
    refine ⟨?_, rfl⟩
    unfold Worker.holders
    simp [List.count_append, Ne.symm hut]
  · exact fun _ _ _ hm => hm
  · intro c' hx
    obtain rfl := Option.some.inj hx
    refine ⟨Nat.one_pos, ?_, fun hin => absurd hin (by simp [ChatConnection.initial])⟩
    unfold Worker.holders
    simp [List.count_append, hnone, hzero, hheld, ChatConnection.spare, ChatConnection.initial]

end Balanced

/-- The balance is kept by handlers that forget no reference. -/
theorem balanced_invariant (W : World) : ServiceInvariant W False False False
    fun q held w => Serving False q held w ∧ Balanced held w where
  serving h := h.1
  honest hn := absurd hn not_false
  routine h hr hm := ⟨h.1.routine hr hm, h.2.routine h.1.membership hr hm⟩
  weaken hleaks := hleaks.elim
  requeue h q' := ⟨h.1.requeue q', h.2.same rfl rfl rfl⟩
  tick h _ _ _ := ⟨h.1.same (h.1.membership.of_same rfl rfl) rfl rfl rfl rfl rfl rfl,
    h.2.same rfl rfl rfl⟩
  get {q held w t c} h hc := by
    refine ⟨h.1.get hc, h.2.setChat hc (Nat.succ_pos _) rfl rfl
      (fun u hut => Multiset.count_cons_of_ne hut held) ?_⟩
    rw [Multiset.count_cons_self]
    unfold ChatConnection.spare
    push_cast
    omega
  drop {q held w t c} h hc hmore := by
    refine ⟨h.1.drop hc hmore, h.2.setChat hc ?_ rfl rfl
      (fun u hut => (Multiset.count_cons_of_ne hut held).symm) ?_⟩
    · show 0 < c.refs - 1
      omega
    · rw [Multiset.count_cons_self]
      unfold ChatConnection.spare
      push_cast [Nat.cast_sub hmore.le]
      omega
  unlist h ht := by
    obtain ⟨c, hc, -⟩ := h.1.zombies _ ht
    exact ⟨h.1.unlist ht, h.2.unlist hc ht⟩
  zombieAdd h hc hfd hend := ⟨h.1.zombieAdd hc hfd hend, h.2.zombieAdd hc⟩
  relabel _ h hm hf := ⟨(serving_invariant W False).relabel not_false h.1 hm hf, h.2.relabel hf⟩
  logoff {q held w t} h hout _ := by
    refine ⟨h.1.logoff hout, ?_⟩
    unfold logoffUser
    split
    · exact h.2
    · exact Balanced.relabel (w := w.call _) (h.2.same rfl rfl rfl) fun _ => rfl
  install h hfresh socket := ⟨h.1.install hfresh socket, h.2.same rfl rfl rfl⟩
  arrive h hfresh hopen ht := by
    obtain ⟨hun, hzero, hheld⟩ := h.1.slot_free ht
    exact ⟨h.1.arrive hfresh hopen ht, h.2.arrive hun hzero hheld _⟩
  reject h hfresh ht := ⟨h.1.reject hfresh ht W, h.2.reject h.1 hfresh ht W⟩
  release {q held w t c} h hc hreg hout hend _ := by
    obtain ⟨-, -, -, hne, -⟩ := h.1.entry c.fd t hreg
    refine ⟨h.1.release hc hreg hend, ?_⟩
    rw [releaseFd_eq w hc hne]
    exact h.2.detach h.1 hc hreg hout rfl rfl rfl rfl rfl
  transferOut {q held w t c} h room pid hc hreg hout _ := by
    obtain ⟨-, -, -, hne, hmoved⟩ := h.1.entry c.fd t hreg
    obtain ⟨socket, hs⟩ := Option.isSome_iff_exists.mp (h.1.holds t c hc hne hmoved)
    refine ⟨h.1.transferOut hc hreg W room pid, ?_⟩
    rw [transferOut_eq w hc W hs room pid (h.1.unregistered hreg)]
    exact h.2.detach h.1 hc hreg hout rfl rfl rfl rfl rfl
  finish {q held w t c} h hc hlast hmoved := by
    obtain ⟨-, hin, -, -, -, hsoft⟩ := h.1.last_ref hc hlast
    have hnone := h.1.number_free hc hlast fun hm => (hmoved hm).2
    refine ⟨h.1.finish hc hlast hmoved W, ?_⟩
    rw [finalizeChat_eq w hc W hin hsoft hnone]
    exact h.2.replace rfl (fun u hut => ⟨rfl, (Multiset.count_cons_of_ne hut held).symm⟩)
      (fun _ _ _ hm => hm) fun _ hx => absurd hx (by simp)

/-! ### Counts between the handlers -/

/-- The holders of references to a connection between handlers: registrations in the event
loop, entries in user lists and in the zombie list, and cleanups that are pending. -/
def Worker.references (w : Worker) (t : ℕ) : ℕ :=
  w.eventLoop.countP (·.2 = t) + w.entries t + w.zombieList.count t + w.lazyCleanup.count (.chat t)

/-- The count of every connection is the number of its holders, and positive; nobody holds a
connection that is gone. -/
structure ReferencesBalance (w : Worker) : Prop where
  count : ∀ t c, w.chats t = some c → c.refs = w.references t
  gone : ∀ t, w.chats t = none ↔ w.references t = 0

theorem queued_count (q : List LazyObject) (t : ℕ) : (queued q).count t = q.count (.chat t) := by
  unfold queued
  rw [Multiset.coe_count]
  induction q with
  | nil => rfl
  | cons obj q ih =>
    cases obj with
    | chat u =>
      by_cases hu : u = t
      · simp [hu, ih]
      · simp [hu, ih]
    | zombie u => simpa using ih

theorem balance_of_rest {w : Worker}
    (h : AtRest (fun q held w => Serving False q held w ∧ Balanced held w) w) :
      ReferencesBalance w := by
  obtain ⟨hs, hb⟩ := h
  have hcount : ∀ t c, w.chats t = some c → c.refs = w.references t := by
    intro t c hc
    have hlevel := hb.level t c hc
    have hentries := hs.membership.entries_eq hc
    rw [queued_count] at hlevel
    unfold ChatConnection.spare Worker.holders at hlevel
    unfold Worker.references
    rw [hentries]
    split at hlevel <;> rename_i hin <;> simp only [hin] <;> push_cast at hlevel <;> simp <;> omega
  refine ⟨hcount, fun t => ⟨fun hnone => ?_, fun hzero => ?_⟩⟩
  · have hfree := hs.free t hnone
    rw [queued_count] at hfree
    have hentries : w.entries t = 0 := by
      unfold Worker.entries
      rw [List.sum_eq_zero]
      intro n hn
      obtain ⟨room, hroom, rfl⟩ := List.mem_map.mp hn
      obtain ⟨r, hr, rfl⟩ := List.getElem_of_mem hroom
      rw [List.count_eq_zero]
      intro hmem
      obtain ⟨c, hc, -⟩ := (hs.membership.entry t r).mp (by
        unfold Worker.users
        rw [List.getElem?_eq_getElem hr]
        exact hmem)
      rw [hnone] at hc
      exact absurd hc (by simp)
    unfold Worker.references
    unfold Worker.holders at hfree
    omega
  · cases hc : w.chats t with
    | none => rfl
    | some c =>
      have hpos := hb.positive t c hc
      have := hcount t c hc
      omega

/-- The descriptor number of a queued connection is not registered again. -/
def NumberFree (w : Worker) : LazyObject → Prop
  | .chat t => ∀ c ∈ w.chats t, ∀ e ∈ w.eventLoop, e.1 ≠ c.fd
  | .zombie _ => True

instance (w : Worker) (obj : LazyObject) : Decidable (NumberFree w obj) := by
  cases obj <;> unfold NumberFree <;> infer_instance

/-- No reply reaches a connection that is ending, no reply transfers a connection while the
lazy queue is full, and no lazy cleanup starts while the descriptor number of a connection
in its queue is registered again. -/
def KeepsReferences (W : World) (w : Worker) : WorkerAction → Prop
  | .event .cleanup => ∀ obj ∈ w.lazyCleanup, NumberFree w obj
  | .event _ => True
  | .reply t r => ∀ c ∈ w.chats t, r.silent = false → c.ending = false ∧
      (r.Transfers W.txt w.pid → w.lazyCleanup.length ≠ nginzLazyObjectQueueSize)

instance (W : World) (w : Worker) (a : WorkerAction) : Decidable (KeepsReferences W w a) :=
  match a with
  | .event .cleanup => inferInstanceAs (Decidable (∀ obj ∈ w.lazyCleanup, NumberFree w obj))
  | .event (.clientData ..) => .isTrue trivial
  | .event (.arrive ..) => .isTrue trivial
  | .event .zombiePass => .isTrue trivial
  | .event .tick => .isTrue trivial
  | .reply t r => inferInstanceAs (Decidable (∀ c ∈ w.chats t, r.silent = false → c.ending = false ∧
      (r.Transfers W.txt w.pid → w.lazyCleanup.length ≠ nginzLazyObjectQueueSize)))

/-- What a run that keeps the references leaves between the handlers. -/
theorem balanced_run (W : World) (pid : ℤ) (myRooms : List Bytes) (clock : ℕ)
    {as : List WorkerAction}
    (h : Along (Worker.step W) (KeepsReferences W) (.start W.txt pid myRooms clock) as) :
    AtRest (fun q held w => Serving False q held w ∧ Balanced held w)
      (as.foldl (Worker.step W) (.start W.txt pid myRooms clock)) := by
  have hP := balanced_invariant W
  have hstart : AtRest (fun q held w => Serving False q held w ∧ Balanced held w)
      (.start W.txt pid myRooms clock) := by
    have hnone := (start_membership W.txt pid myRooms clock).2
    refine ⟨start_serving W.txt False pid myRooms clock, ?_⟩
    constructor <;> intro t c hc <;> rw [hnone] at hc <;> exact absurd hc (by simp)
  apply along_invariant ?_ hstart h
  intro w a hw ha
  apply hP.step not_false hw
  cases a with
  | reply t r => exact Or.inr ha
  | event e =>
    cases e with
    | cleanup =>
      intro t c hc hm
      by_cases hqueued : .chat t ∈ w.lazyCleanup
      · exact Or.inr ⟨not_false, fun u hmem => ha (.chat t) hqueued c hc _ hmem rfl⟩
      · refine Or.inl ?_
        rw [List.count_eq_zero.mpr hqueued]
        exact hw.2.positive t c hc
    | _ => trivial

/-- In every run of client data, replies, transfers, new connections, zombie passes and lazy
cleanups that keeps the references, the count of every connection is the number of its
holders between the handlers, and it is gone when there are none. -/
theorem references_balance (W : World) (pid : ℤ) (myRooms : List Bytes) (clock : ℕ)
    (as : List WorkerAction)
    (h : Along (Worker.step W) (KeepsReferences W) (.start W.txt pid myRooms clock) as) :
    ReferencesBalance (as.foldl (Worker.step W) (.start W.txt pid myRooms clock)) :=
  balance_of_rest (balanced_run W pid myRooms clock h)

/-- Two clients log in, meet in a room, one is transferred and destroyed, and the other one
quits. -/
def meeting : List WorkerAction :=
  [.event (.arrive 5 0 (List.replicate 128 0) (welcomeHandOff 4712 1)),
    .event (.clientData 5 0 (.data (lit "ann\n"))), .reply 0 (.login 1 (lit "ann")),
    .event (.arrive 6 1 (List.replicate 128 0) (welcomeHandOff 4712 2)),
    .event (.clientData 6 1 (.data (lit "bob\n"))), .reply 1 (.login 1 (lit "bob")),
    .reply 0 (.roomPid (lit "room/pid/ONE") (lit "4712")),
    .reply 1 (.roomPid (lit "room/pid/ONE") (lit "4712")),
    .reply 0 (.roomPid (lit "room/pid/TWO") (lit "4713")), .event .cleanup,
    .event (.clientData 6 1 (.data (lit "/quit\n")))]

theorem references_balance_meeting :
    ReferencesBalance (meeting.foldl (Worker.step .calm) (.start .cutting 4712 [lit "ONE"] 1)) :=
  references_balance .calm 4712 [lit "ONE"] 1 meeting (by decide +kernel)

/-- A client disconnects while its login is on the way. -/
def lateReply : List WorkerAction :=
  [.event (.arrive 5 0 (List.replicate 128 0) (welcomeHandOff 4712 1)),
    .event (.clientData 5 0 (.data (lit "bob\n"))), .event (.clientData 5 0 .closed),
    .reply 0 (.login 1 (lit "bob"))]

/-- The reply leaves a reference behind: two of them, for one entry in the zombie list. -/
theorem late_reply_leaks :
    ¬ ReferencesBalance (lateReply.foldl (Worker.step .calm)
    (.start .cutting 4712 [lit "ONE"] 1)) := by
  intro h
  have hthere : ((lateReply.foldl (Worker.step .calm)
      (.start .cutting 4712 [lit "ONE"] 1)).chats 0).isSome := by decide +kernel
  obtain ⟨c, hc⟩ := Option.isSome_iff_exists.mp hthere
  have hcount := h.count 0 c hc
  rw [← Worker.chat_of_some _ 0 hc] at hcount
  exact absurd hcount (by decide +kernel)

end Nginz
