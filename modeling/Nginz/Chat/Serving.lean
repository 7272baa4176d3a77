import Nginz.Chat.RequestInvariant
import Nginz.Lib.KeyedEntries

/-! The service invariant of a worker: which connection holds which descriptor number,
who is registered in the event loop, and who holds references to a connection. -/
namespace Nginz
open ChatConnection (Follows)

/-! ### Descriptor numbers -/

/-- Whether the connection in slot `t` has handed its descriptor off after an event. -/
def FdEvent.moves (t : ℕ) (moved : Bool) : FdEvent → Bool
  | .opened _ u => if u = t then false else moved
  | .handOff _ u => if u = t then true else moved
  | _ => moved

/-- The connection in the slot handed its descriptor off: a hand-off for it, and no new
connection in the slot since. -/
def handedOff (log : List FdEvent) (t : ℕ) : Bool := log.foldl (FdEvent.moves t) false

/-- The connection a number is written to, closed or unregistered for. -/
def FdEvent.toucher : FdEvent → Option ℕ
  | .write _ t => some t
  | .close _ t => some t
  | .unregister _ t _ => some t
  | _ => none

/-- Registrations are removed for their own connections only, and nothing is done for a
connection that handed its descriptor off. -/
structure Untouched (log : List FdEvent) : Prop where
  own : ∀ fd t u, .unregister fd t (some u) ∈ log → u = t
  after : ∀ pre e post t, log = pre ++ e :: post → e.toucher = some t → handedOff pre t = false

theorem handedOff_append (log es : List FdEvent) (t : ℕ)
    (h : ∀ e ∈ es, ∀ fd, e ≠ .opened fd t ∧ e ≠ .handOff fd t) :
    handedOff (log ++ es) t = handedOff log t := by
  unfold handedOff
  rw [List.foldl_append]
  generalize log.foldl _ false = moved
  induction es with
  | nil => rfl
  | cons e es ih =>
    have he := h e List.mem_cons_self
    have hstep : e.moves t moved = moved := by
      cases e with
      | opened fd u =>
        have hu : u ≠ t := by
          rintro rfl
          exact (he fd).1 rfl
        simp [FdEvent.moves, hu]
      | handOff fd u =>
        have hu : u ≠ t := by
          rintro rfl
          exact (he fd).2 rfl
        simp [FdEvent.moves, hu]
      | _ => rfl
    rw [List.foldl_cons, hstep]
    exact ih fun f hf => h f (List.mem_cons_of_mem e hf)

theorem handedOff_opened (log : List FdEvent) (fd : ℤ) (t : ℕ) :
    handedOff (log ++ [.opened fd t]) t = false := by
  unfold handedOff
  simp [FdEvent.moves]

theorem handedOff_handOff (log : List FdEvent) (fd : ℤ) (t : ℕ) :
    handedOff (log ++ [.handOff fd t]) t = true := by
  unfold handedOff
  simp [FdEvent.moves]

/-- One more event on the log. -/
theorem Untouched.snoc {log : List FdEvent} (h : Untouched log) {e : FdEvent}
    (hown : ∀ fd t u, e = .unregister fd t (some u) → u = t)
    (hafter : ∀ t, e.toucher = some t → handedOff log t = false) : Untouched (log ++ [e]) where
  own fd t u hmem := by
    rcases List.mem_append.mp hmem with hold | hnew
    · exact h.own fd t u hold
    · exact hown fd t u (List.mem_singleton.mp hnew).symm
  after pre f post t hsplit hf := by
    rcases List.eq_nil_or_concat post with rfl | ⟨post', g, rfl⟩
    · obtain ⟨rfl, he⟩ := List.append_inj' hsplit rfl
      obtain rfl := List.singleton_inj.mp he
      exact hafter t hf
    · rw [List.concat_eq_append, ← List.cons_append, ← List.append_assoc] at hsplit
      obtain ⟨rfl, -⟩ := List.append_inj' hsplit rfl
      exact h.after pre f post' t rfl hf

/-- Writes for open connections that did not hand anything off. -/
theorem Untouched.writes {log es : List FdEvent} (h : Untouched log)
    (hes : ∀ e ∈ es, ∃ fd t, e = .write fd t ∧ handedOff log t = false) :
      Untouched (log ++ es) := by
  induction es generalizing log with
  | nil => simpa using h
  | cons e es ih =>
    obtain ⟨fd, t, rfl, ht⟩ := hes e List.mem_cons_self
    have hone : Untouched (log ++ [.write fd t]) := h.snoc (fun fd' t' u he => by cases he)
      fun u hu => by
        obtain rfl := Option.some.inj hu
        exact ht
    have hrest := ih hone fun f hf => by
      obtain ⟨fd', t', rfl, ht'⟩ := hes f (List.mem_cons_of_mem _ hf)
      refine ⟨fd', t', rfl, ?_⟩
      rw [handedOff_append _ _ _ fun e he => by
        obtain rfl := List.mem_singleton.mp he
        simp]
      exact ht'
    simpa using hrest

/-! ### The invariant -/

/-- The same connection for the event loop: routine work, and logging in and out. -/
structure Steady (c c' : ChatConnection) : Prop where
  fd : c'.fd = c.fd
  zombie : c'.state.zombie = c.state.zombie
  quit : c.state.quit = true → c'.state.quit = true
  softQuit : c'.state.softQuit = false → c.state.softQuit = false

theorem Steady.refl (c : ChatConnection) : Steady c c := ⟨rfl, rfl, id, id⟩

theorem steady_of_follows {c c' : ChatConnection} (h : Follows c c') : Steady c c' :=
  ⟨h.fd, h.zombie, h.quit, h.not_softQuit⟩

/-- The references to a connection that its worker holds beside those of handlers, of
the lazy queue and of a room. -/
def Worker.holders (w : Worker) (t : ℕ) : ℕ :=
  w.eventLoop.countP (·.2 = t) + w.zombieList.count t

/-- The state of a worker between and within its handlers. `q` is the lazy queue, `held`
are the references that a handler or the queue will drop; when `strict`, descriptors that
were handed off are never touched again. -/
structure Serving (strict : Prop) (q : List LazyObject) (held : Multiset ℕ)
    (w : Worker) : Prop where
  membership : Membership w
  queue : w.lazyCleanup = q
  entry : ∀ fd t, (fd, t) ∈ w.eventLoop →
    ∃ c, w.chats t = some c ∧ c.fd = fd ∧ fd ≠ invalidFd ∧ handedOff w.fdLog t = false
  numbers : (w.eventLoop.map Prod.fst).Nodup
  holds : ∀ t c, w.chats t = some c → c.fd ≠ invalidFd → handedOff w.fdLog t = false →
    (w.fds c.fd).isSome
  unique : ∀ t u c d, w.chats t = some c → w.chats u = some d → c.fd = d.fd → c.fd ≠ invalidFd →
    handedOff w.fdLog t = false → handedOff w.fdLog u = false → t = u
  registered : ∀ t c, w.chats t = some c → c.fd ≠ invalidFd → c.state.softQuit = false →
    (c.fd, t) ∈ w.eventLoop
  valid : ∀ t c, w.chats t = some c → c.state.quit = false → c.state.softQuit = false →
    c.fd ≠ invalidFd
  zombie : ∀ t c, w.chats t = some c → c.state.zombie = true →
    c.fd = invalidFd ∧ (c.state.quit = true ∨ c.state.softQuit = true)
  zombies : ∀ t ∈ w.zombieList, ∃ c, w.chats t = some c ∧ c.state.zombie = true
  moved : ∀ t c, w.chats t = some c → handedOff w.fdLog t = true →
    c.state.softQuit = true ∧ c.fd ≠ invalidFd
  refs : ∀ t c, w.chats t = some c → (w.holders t + held.count t : ℤ) ≤ c.spare
  free : ∀ t, w.chats t = none → w.holders t + held.count t = 0
  untouched : strict → Untouched w.fdLog

namespace Serving
variable {s : Prop} {q : List LazyObject} {held : Multiset ℕ} {w w' : Worker} {t : ℕ}

theorem not_handedOff (h : Serving s q held w) {t : ℕ} {c : ChatConnection}
    (hc : w.chats t = some c) (hs : c.state.softQuit = false) : handedOff w.fdLog t = false := by
  by_contra hm
  rw [(h.moved t c hc (by simpa using hm)).1] at hs
  exact absurd hs (by decide)

theorem weaken (h : Serving s q held w) {held' : Multiset ℕ} (hle : held' ≤ held) :
    Serving s q held' w where
  __ := h
  refs t c hc := by
    have hcount := Multiset.count_le_of_le t hle
    have := h.refs t c hc
    omega
  free t ht := by
    have hcount := Multiset.count_le_of_le t hle
    have := h.free t ht
    omega

/-- The writes of routine work are for connections that did not hand anything off. -/
theorem openWrite (h : Serving s q held w) {e : FdEvent} (he : OpenWrite w e) :
    ∃ fd t, e = .write fd t ∧ handedOff w.fdLog t = false := by
  obtain ⟨t, c, hc, -, hs, -, rfl⟩ := he
  exact ⟨c.fd, t, rfl, h.not_handedOff hc hs⟩

theorem handedOff_routine {W : World} (hw : Routine W w w') (t : ℕ) :
    handedOff w'.fdLog t = handedOff w.fdLog t := by
  obtain ⟨es, hes, hopen⟩ := hw.writes
  rw [hes]
  apply handedOff_append
  intro e he fd
  obtain ⟨u, c, -, -, -, -, rfl⟩ := hopen e he
  simp

/-- A step that leaves the tables alone and every connection steady. -/
theorem transport (h : Serving s q held w) {held' : Multiset ℕ} (hm : Membership w')
    (hqueue : w'.lazyCleanup = q) (hloop : w'.eventLoop = w.eventLoop)
    (hz : w'.zombieList = w.zombieList) (hfds : w'.fds = w.fds)
    (hlog : ∀ t, handedOff w'.fdLog t = handedOff w.fdLog t) (hu : s → Untouched w'.fdLog)
    (hchats : ∀ t, Option.Rel Steady (w.chats t) (w'.chats t))
    (hrefs : ∀ t c', w'.chats t = some c' → (w.holders t + held'.count t : ℤ) ≤ c'.spare)
    (hfree : ∀ t, w.chats t = none → w.holders t + held'.count t = 0) :
    Serving s q held' w' where
  membership := hm
  queue := hqueue
  entry fd t hmem := by
    rw [hloop] at hmem
    obtain ⟨c, hc, hfd, hne, hmoved⟩ := h.entry fd t hmem
    obtain ⟨c', hc', hf⟩ := related_some (hchats t) hc
    exact ⟨c', hc', hf.fd.trans hfd, hne, by rw [hlog, hmoved]⟩
  numbers := by
    rw [hloop]
    exact h.numbers
  holds t c' hc' hne hmoved := by
    obtain ⟨c, hc, hf⟩ := related_of_some (hchats t) hc'
    rw [hf.fd] at hne ⊢
    rw [hlog] at hmoved
    rw [hfds]
    exact h.holds t c hc hne hmoved
  unique t u c' d' hc' hd' hfd hne ht hu := by
    obtain ⟨c, hc, hf⟩ := related_of_some (hchats t) hc'
    obtain ⟨d, hd, hg⟩ := related_of_some (hchats u) hd'
    rw [hf.fd] at hfd hne
    rw [hg.fd] at hfd
    rw [hlog] at ht hu
    exact h.unique t u c d hc hd hfd hne ht hu
  registered t c' hc' hne hs := by
    obtain ⟨c, hc, hf⟩ := related_of_some (hchats t) hc'
    rw [hf.fd] at hne ⊢
    rw [hloop]
    exact h.registered t c hc hne (hf.softQuit hs)
  valid t c' hc' hq hs := by
    obtain ⟨c, hc, hf⟩ := related_of_some (hchats t) hc'
    have hcq : c.state.quit = false := by
      by_contra hcq
      rw [hf.quit (by simpa using hcq)] at hq
      exact absurd hq (by decide)
    rw [hf.fd]
    exact h.valid t c hc hcq (hf.softQuit hs)
  zombie t c' hc' hz' := by
    obtain ⟨c, hc, hf⟩ := related_of_some (hchats t) hc'
    rw [hf.zombie] at hz'
    obtain ⟨hfd, hend⟩ := h.zombie t c hc hz'
    refine ⟨hf.fd.trans hfd, ?_⟩
    by_contra hend'
    rw [not_or, Bool.not_eq_true, Bool.not_eq_true] at hend'
    rcases hend with hq | hs
    · rw [hf.quit hq] at hend'
      exact absurd hend'.1 (by decide)
    · rw [hf.softQuit hend'.2] at hs
      exact absurd hs (by decide)
  zombies t ht := by
    rw [hz] at ht
    obtain ⟨c, hc, hzc⟩ := h.zombies t ht
    obtain ⟨c', hc', hf⟩ := related_some (hchats t) hc
    exact ⟨c', hc', hf.zombie.trans hzc⟩
  moved t c' hc' hmoved := by
    obtain ⟨c, hc, hf⟩ := related_of_some (hchats t) hc'
    rw [hlog] at hmoved
    obtain ⟨hs, hne⟩ := h.moved t c hc hmoved
    refine ⟨?_, by rwa [hf.fd]⟩
    by_contra hs'
    rw [hf.softQuit (by simpa using hs')] at hs
    exact absurd hs (by decide)
  refs t c' hc' := by
    unfold Worker.holders
    rw [hloop, hz]
    exact hrefs t c' hc'
  free t ht := by
    unfold Worker.holders
    rw [hloop, hz]
    exact hfree t (related_none (hchats t) ht)
  untouched := hu

/-- Routine work keeps the invariant. -/
theorem routine {W : World} (h : Serving s q held w) (hw : Routine W w w') (hm : Membership w') :
    Serving s q held w' := by
  refine h.transport hm (hw.lazyCleanup_eq.trans h.queue) hw.eventLoop_eq hw.zombieList_eq
    hw.fds_eq (handedOff_routine hw) ?_ (fun t => ?_) (fun t c' hc' => ?_) h.free
  · intro hstrict
    obtain ⟨es, hes, hopen⟩ := hw.writes
    rw [hes]
    exact (h.untouched hstrict).writes fun e he => h.openWrite (hopen e he)
  · have ht := hw.chats t
    generalize w.chats t = x at ht
    generalize w'.chats t = y at ht
    cases ht with
    | none => exact .none
    | some hf => exact .some (steady_of_follows hf)
  · obtain ⟨c, hc, hf⟩ := hw.chats_of_some hc'
    exact (h.refs t c hc).trans hf.spare

theorem steady_refl (x : Option ChatConnection) : Option.Rel Steady x x := by
  cases x with
  | none => exact .none
  | some c => exact .some (.refl c)

/-- A change of one connection that keeps it steady and moves references between it and
the handlers. -/
theorem setChat (h : Serving s q held w) {held' : Multiset ℕ} {t : ℕ} {c : ChatConnection}
    (hc : w.chats t = some c) {f : ChatConnection → ChatConnection}
    (hm : Membership (w.setChat t f)) (hf : Steady c (f c))
    (hother : ∀ u, u ≠ t → held'.count u = held.count u)
    (hspare : (held'.count t : ℤ) + c.spare ≤ held.count t + (f c).spare) :
    Serving s q held' (w.setChat t f) := by
  refine h.transport hm h.queue rfl rfl rfl (fun _ => rfl) h.untouched (fun u => ?_)
    (fun u c' hc' => ?_) fun u hu => ?_
  · by_cases hu : u = t
    · subst hu
      rw [w.setChat_same, hc]
      exact .some hf
    · rw [w.setChat_other t f hu]
      exact steady_refl _
  · by_cases hu : u = t
    · subst hu
      rw [w.setChat_same, hc] at hc'
      obtain rfl := Option.some.inj hc'
      have := h.refs u c hc
      omega
    · rw [w.setChat_other t f hu] at hc'
      rw [hother u hu]
      exact h.refs u c' hc'
  · have hut : u ≠ t := by
      rintro rfl
      rw [hc] at hu
      exact absurd hu (by simp)
    rw [hother u hut]
    exact h.free u hu

/-- `chat_get` takes a reference. -/
theorem get (h : Serving s q held w) {t : ℕ} {c : ChatConnection} (hc : w.chats t = some c) :
    Serving s q (t ::ₘ held) (w.setChat t fun c => { c with refs := c.refs + 1 }) := by
  refine h.setChat hc (h.membership.setChat t fun _ => rfl) ⟨rfl, rfl, id, id⟩
    (fun u hu => Multiset.count_cons_of_ne hu held) ?_
  rw [Multiset.count_cons_self]
  unfold ChatConnection.spare
  push_cast
  omega

/-- A reference that is not the last one is dropped. -/
theorem drop (h : Serving s q (t ::ₘ held) w) {c : ChatConnection} (hc : w.chats t = some c)
    (hlast : 1 < c.refs) :
    Serving s q held (w.setChat t fun c => { c with refs := c.refs - 1 }) := by
  refine h.setChat hc (h.membership.setChat t fun _ => rfl) ⟨rfl, rfl, id, id⟩
    (fun u hu => (Multiset.count_cons_of_ne hu held).symm) ?_
  rw [Multiset.count_cons_self]
  unfold ChatConnection.spare
  push_cast [Nat.cast_sub hlast.le]
  omega

/-- A step that touches nothing the invariant is about. -/
theorem same (h : Serving s q held w) (hm : Membership w') (hc : w'.chats = w.chats)
    (hl : w'.lazyCleanup = w.lazyCleanup) (he : w'.eventLoop = w.eventLoop)
    (hz : w'.zombieList = w.zombieList) (hfds : w'.fds = w.fds) (hlog : w'.fdLog = w.fdLog) :
    Serving s q held w' := by
  refine h.transport hm (hl.trans h.queue) he hz hfds (fun _ => by rw [hlog]) ?_ (fun t => ?_)
    (fun t c' hc' => ?_) h.free
  · rw [hlog]
    exact h.untouched
  · rw [hc]
    exact steady_refl _
  · rw [hc] at hc'
    exact h.refs t c' hc'

/-- The lazy queue is what references are held for, and nothing else. -/
theorem requeue (h : Serving s q held w) (q' : List LazyObject) :
    Serving s q' held { w with lazyCleanup := q' } where
  __ := h
  queue := rfl
  membership := h.membership.of_same rfl rfl

/-- Logging off, or logging in, and the call that goes with it. -/
theorem logged (h : Serving s q held w) {t : ℕ} {f : ChatState → ChatState}
    (hm : Membership (w.setState t f))
    (hf : ∀ x, (f x).quit = x.quit ∧ (f x).softQuit = x.softQuit ∧ (f x).zombie = x.zombie) :
    Serving s q held (w.setState t f) := by
  cases hc : w.chats t with
  | none =>
    have hsame : (w.setState t f).chats = w.chats := Worker.setChat_absent _ hc
    exact h.same hm hsame rfl rfl rfl rfl rfl
  | some c =>
    obtain ⟨hq, hs, hz⟩ := hf c.state
    exact h.setChat hc hm ⟨rfl, hz, fun hx => by rw [← hx]; exact hq, fun hx => by
      rw [← hx]; exact hs.symm⟩ (fun _ _ => rfl) le_rfl

/-! ### Registrations -/

/-- The registration of a number and those of the others. -/
theorem entry_split (h : Serving s q held w) {fd : ℤ} (ht : (fd, t) ∈ w.eventLoop) :
    ∃ xs ys, w.eventLoop = xs ++ (fd, t) :: ys ∧
      (w.eventLoop.eraseP fun e => e.1 = fd) = xs ++ ys ∧
      w.eventLoop.find? (fun e => e.1 = fd) = some (fd, t) ∧ ∀ e ∈ xs ++ ys, e.1 ≠ fd :=
  KeyedEntries.split_at h.numbers ht

/-- A number that nobody registered. -/
theorem entry_none {fd : ℤ} (hnone : ∀ u, (fd, u) ∉ w.eventLoop) :
    (w.eventLoop.eraseP fun e => e.1 = fd) = w.eventLoop ∧
      w.eventLoop.find? (fun e => e.1 = fd) = none := by
  have hall : ∀ e ∈ w.eventLoop, ¬ e.1 = fd := by
    rintro ⟨fd', u⟩ he rfl
    exact hnone u he
  constructor
  · exact List.eraseP_of_forall_not (by simpa using hall)
  · rw [List.find?_eq_none]
    simpa using hall

/-- A registered connection leaves the event loop: its descriptor is closed, handed off or
left open, and its reference goes to the handler. -/
theorem detach (h : Serving s q held w) {c : ChatConnection} (c' : ChatConnection)
    (hc : w.chats t = some c)
    (hreg : (c.fd, t) ∈ w.eventLoop) (hm : Membership w') (hq : w'.lazyCleanup = q)
    (hz : w'.zombieList = w.zombieList)
    (hloop : w'.eventLoop = w.eventLoop.eraseP fun e => e.1 = c.fd)
    (hfds : ∀ fd, fd ≠ c.fd → w'.fds fd = w.fds fd)
    (hchats : w'.chats = Function.update w.chats t (some c'))
    (hlog : ∀ u, u ≠ t → handedOff w'.fdLog u = handedOff w.fdLog u) (hu : s → Untouched w'.fdLog)
    (hzombie : c'.state.zombie = c.state.zombie) (hspare : c'.spare = c.spare)
    (hend : (c'.fd = invalidFd ∧ (c'.state.quit = true ∨ c'.state.softQuit = true) ∧
        handedOff w'.fdLog t = false) ∨
      (c'.fd = c.fd ∧ c'.state.softQuit = true ∧
        (handedOff w'.fdLog t = false → (w'.fds c.fd).isSome))) :
    Serving s q (t ::ₘ held) w' := by
  obtain ⟨xs, ys, hsplit, herase, -, hrest⟩ := h.entry_split hreg
  rw [herase] at hloop
  have hsub : ∀ e ∈ xs ++ ys, e ∈ w.eventLoop := by
    intro e he
    rw [hsplit]
    rcases List.mem_append.mp he with he | he <;> simp [he]
  obtain ⟨-, -, -, hne, hmoved⟩ := h.entry c.fd t hreg
  have hsame : w'.chats t = some c' := by rw [hchats, Function.update_self]
  have hother : ∀ u, u ≠ t → w'.chats u = w.chats u := fun u hut => by
    rw [hchats, Function.update_of_ne hut]
  have hback : ∀ u d, w'.chats u = some d → u = t ∧ d = c' ∨ u ≠ t ∧ w.chats u = some d := by
    intro u d hd
    by_cases hut : u = t
    · subst hut
      rw [hsame] at hd
      exact Or.inl ⟨rfl, (Option.some.inj hd).symm⟩
    · rw [hother u hut] at hd
      exact Or.inr ⟨hut, hd⟩
  have hnumber : ∀ u d, u ≠ t → w.chats u = some d → d.fd ≠ invalidFd →
      handedOff w.fdLog u = false → d.fd ≠ c.fd := by
    intro u d hut hd hdne hdm hfd
    exact hut (h.unique u t d c hd hc hfd hdne hdm hmoved)
  constructor
  · exact hm
  · exact hq
  · intro fd u hmem
    rw [hloop] at hmem
    obtain ⟨d, hd, hfd, hfdne, hdm⟩ := h.entry fd u (hsub _ hmem)
    have hut : u ≠ t := by
      rintro rfl
      rw [hc] at hd
      obtain rfl := Option.some.inj hd
      exact hrest _ hmem hfd.symm
    exact ⟨d, by rw [hother u hut, hd], hfd, hfdne, by rw [hlog u hut, hdm]⟩
  · have hnodup := h.numbers
    rw [hloop]
    rw [hsplit] at hnodup
    exact hnodup.sublist (List.Sublist.map _ (List.Sublist.append_left
      (List.sublist_cons_self _ _) _))
  · intro u d hd hdne hdm
    rcases hback u d hd with ⟨rfl, rfl⟩ | ⟨hut, hd⟩
    · rcases hend with ⟨hfd, -⟩ | ⟨hfd, -, hopen⟩
      · exact absurd hfd hdne
      · rw [hfd]
        exact hopen hdm
    · rw [hlog u hut] at hdm
      rw [hfds d.fd (hnumber u d hut hd hdne hdm)]
      exact h.holds u d hd hdne hdm
  · intro u v d e hd he hde hdne hdm hem
    have hfd' : ∀ x, handedOff w'.fdLog t = false → c'.fd = x → x ≠ invalidFd → x = c.fd := by
      rintro x - rfl hx
      rcases hend with ⟨hfd, -⟩ | ⟨hfd, -⟩
      · exact absurd hfd hx
      · exact hfd
    rcases hback u d hd with ⟨rfl, rfl⟩ | ⟨hut, hd⟩ <;> rcases hback v e he with ⟨rfl, rfl⟩ |
      ⟨hvt, he⟩
    · rfl
    · rw [hlog v hvt] at hem
      have hx := hfd' _ hdm rfl hdne
      exact absurd (hde.symm.trans hx) (hnumber v e hvt he (by rwa [← hde]) hem)
    · rw [hlog u hut] at hdm
      have hx := hfd' _ hem rfl (by rwa [← hde])
      exact absurd (hde.trans hx) (hnumber u d hut hd hdne hdm)
    · rw [hlog u hut] at hdm
      rw [hlog v hvt] at hem
      exact h.unique u v d e hd he hde hdne hdm hem
  · intro u d hd hdne hds
    rcases hback u d hd with ⟨rfl, rfl⟩ | ⟨hut, hd⟩
    · rcases hend with ⟨hfd, -⟩ | ⟨-, hsoft, -⟩
      · exact absurd hfd hdne
      · rw [hsoft] at hds
        exact absurd hds (by decide)
    · have hmem := h.registered u d hd hdne hds
      rw [hsplit] at hmem
      rw [hloop]
      rcases List.mem_append.mp hmem with hmem | hmem
      · exact List.mem_append_left _ hmem
      · rcases List.mem_cons.mp hmem with heq | hmem
        · exact absurd (Prod.mk.inj heq).2 hut
        · exact List.mem_append_right _ hmem
  · intro u d hd hdq hds
    rcases hback u d hd with ⟨rfl, rfl⟩ | ⟨hut, hd⟩
    · rcases hend with ⟨-, hq' | hs', -⟩ | ⟨-, hs', -⟩
      · rw [hq'] at hdq
        exact absurd hdq (by decide)
      · rw [hs'] at hds
        exact absurd hds (by decide)
      · rw [hs'] at hds
        exact absurd hds (by decide)
    · exact h.valid u d hd hdq hds
  · intro u d hd hdz
    rcases hback u d hd with ⟨rfl, rfl⟩ | ⟨hut, hd⟩
    · rw [hzombie] at hdz
      exact absurd (h.zombie u c hc hdz).1 hne
    · exact h.zombie u d hd hdz
  · intro u hu
    rw [hz] at hu
    obtain ⟨d, hd, hdz⟩ := h.zombies u hu
    by_cases hut : u = t
    · subst hut
      rw [hc] at hd
      obtain rfl := Option.some.inj hd
      exact ⟨c', hsame, hzombie.trans hdz⟩
    · exact ⟨d, by rw [hother u hut, hd], hdz⟩
  · intro u d hd hdm
    rcases hback u d hd with ⟨rfl, rfl⟩ | ⟨hut, hd⟩
    · rcases hend with ⟨-, -, hno⟩ | ⟨hfd, hsoft, -⟩
      · rw [hno] at hdm
        exact absurd hdm (by decide)
      · exact ⟨hsoft, by rw [hfd]; exact hne⟩
    · rw [hlog u hut] at hdm
      exact h.moved u d hd hdm
  · intro u d hd
    unfold Worker.holders
    rw [hloop, hz]
    rcases hback u d hd with ⟨rfl, rfl⟩ | ⟨hut, hd⟩
    · have hr := h.refs u c hc
      unfold Worker.holders at hr
      rw [hsplit] at hr
      rw [hspare, Multiset.count_cons_self]
      simp only [List.countP_append, List.countP_cons, decide_true, if_true] at hr ⊢
      push_cast at hr ⊢
      omega
    · have hr := h.refs u d hd
      unfold Worker.holders at hr
      rw [hsplit] at hr
      rw [Multiset.count_cons_of_ne hut]
      simp only [List.countP_append, List.countP_cons, Ne.symm hut, decide_false,
        Bool.false_eq_true, if_false, add_zero] at hr ⊢
      exact hr
  · intro u hu
    have hut : u ≠ t := by
      rintro rfl
      rw [hsame] at hu
      exact absurd hu (by simp)
    rw [hother u hut] at hu
    have hf := h.free u hu
    unfold Worker.holders at hf ⊢
    rw [hsplit] at hf
    rw [hloop, hz, Multiset.count_cons_of_ne hut]
    simp only [List.countP_append, List.countP_cons, Ne.symm hut, decide_false, Bool.false_eq_true,
      if_false, add_zero] at hf ⊢
    exact hf
  · exact hu

/-- A connection without a registration is replaced by a closed one, or goes. -/
theorem replace (h : Serving s q held w) {held' : Multiset ℕ} {x : Option ChatConnection}
    (hun : ∀ fd, (fd, t) ∉ w.eventLoop) (hm : Membership w') (hq : w'.lazyCleanup = q)
    (hloop : w'.eventLoop = w.eventLoop)
    (hopen : ∀ u d, u ≠ t → w.chats u = some d → d.fd ≠ invalidFd → handedOff w.fdLog u = false →
      (w'.fds d.fd).isSome)
    (hchats : w'.chats = Function.update w.chats t x)
    (hlog : ∀ u, u ≠ t → handedOff w'.fdLog u = handedOff w.fdLog u) (hu : s → Untouched w'.fdLog)
    (hother : ∀ u, u ≠ t → w'.zombieList.count u = w.zombieList.count u ∧
      held'.count u = held.count u)
    (hsome : ∀ c', x = some c' → c'.fd = invalidFd ∧
      (c'.state.quit = true ∨ c'.state.softQuit = true) ∧ handedOff w'.fdLog t = false ∧
      (t ∈ w'.zombieList → c'.state.zombie = true) ∧
      (w'.zombieList.count t + held'.count t : ℤ) ≤ c'.spare)
    (hnone : x = none → w'.zombieList.count t + held'.count t = 0) : Serving s q held' w' := by
  have hsame : w'.chats t = x := by rw [hchats, Function.update_self]
  have hkeep : ∀ u, u ≠ t → w'.chats u = w.chats u := fun u hut => by
    rw [hchats, Function.update_of_ne hut]
  have hback : ∀ u d, w'.chats u = some d → u = t ∧ x = some d ∨ u ≠ t ∧ w.chats u = some d := by
    intro u d hd
    by_cases hut : u = t
    · subst hut
      exact Or.inl ⟨rfl, hsame.symm.trans hd⟩
    · rw [hkeep u hut] at hd
      exact Or.inr ⟨hut, hd⟩
  have hzero : w.eventLoop.countP (·.2 = t) = 0 := by
    rw [List.countP_eq_zero]
    rintro ⟨fd, u⟩ hmem hut
    obtain rfl : u = t := by simpa using hut
    exact hun fd hmem
  constructor
  · exact hm
  · exact hq
  · intro fd u hmem
    rw [hloop] at hmem
    have hut : u ≠ t := by
      rintro rfl
      exact hun fd hmem
    obtain ⟨d, hd, hfd, hne, hdm⟩ := h.entry fd u hmem
    exact ⟨d, by rw [hkeep u hut, hd], hfd, hne, by rw [hlog u hut, hdm]⟩
  · rw [hloop]
    exact h.numbers
  · intro u d hd hne hdm
    rcases hback u d hd with ⟨rfl, hx⟩ | ⟨hut, hd⟩
    · exact absurd (hsome d hx).1 hne
    · rw [hlog u hut] at hdm
      exact hopen u d hut hd hne hdm
  · intro u v d e hd he hde hne hdm hem
    rcases hback u d hd with ⟨rfl, hx⟩ | ⟨hut, hd⟩
    · exact absurd (hsome d hx).1 hne
    · rcases hback v e he with ⟨rfl, hx⟩ | ⟨hvt, he⟩
      · exact absurd (hde.trans (hsome e hx).1) hne
      · rw [hlog u hut] at hdm
        rw [hlog v hvt] at hem
        exact h.unique u v d e hd he hde hne hdm hem
  · intro u d hd hne hds
    rcases hback u d hd with ⟨rfl, hx⟩ | ⟨hut, hd⟩
    · exact absurd (hsome d hx).1 hne
    · rw [hloop]
      exact h.registered u d hd hne hds
  · intro u d hd hdq hds
    rcases hback u d hd with ⟨rfl, hx⟩ | ⟨hut, hd⟩
    · rcases (hsome d hx).2.1 with hq' | hs'
      · rw [hq'] at hdq
        exact absurd hdq (by decide)
      · rw [hs'] at hds
        exact absurd hds (by decide)
    · exact h.valid u d hd hdq hds
  · intro u d hd hdz
    rcases hback u d hd with ⟨rfl, hx⟩ | ⟨hut, hd⟩
    · exact ⟨(hsome d hx).1, (hsome d hx).2.1⟩
    · exact h.zombie u d hd hdz
  · intro u hu
    by_cases hut : u = t
    · subst hut
      cases hx : x with
      | none =>
        have hpos := List.count_pos_iff.mpr hu
        have := hnone hx
        omega
      | some c' => exact ⟨c', hsame.trans hx, (hsome c' hx).2.2.2.1 hu⟩
    · have hmem : u ∈ w.zombieList := by
        rw [← List.count_pos_iff, ← (hother u hut).1, List.count_pos_iff]
        exact hu
      obtain ⟨d, hd, hdz⟩ := h.zombies u hmem
      exact ⟨d, by rw [hkeep u hut, hd], hdz⟩
  · intro u d hd hdm
    rcases hback u d hd with ⟨rfl, hx⟩ | ⟨hut, hd⟩
    · rw [(hsome d hx).2.2.1] at hdm
      exact absurd hdm (by decide)
    · rw [hlog u hut] at hdm
      exact h.moved u d hd hdm
  · intro u d hd
    unfold Worker.holders
    rw [hloop]
    rcases hback u d hd with ⟨rfl, hx⟩ | ⟨hut, hd⟩
    · rw [hzero]
      have := (hsome d hx).2.2.2.2
      push_cast
      omega
    · rw [(hother u hut).1, (hother u hut).2]
      exact h.refs u d hd
  · intro u hu
    unfold Worker.holders
    rw [hloop]
    by_cases hut : u = t
    · subst hut
      rw [hzero]
      have := hnone (hsame.symm.trans hu)
      omega
    · rw [hkeep u hut] at hu
      rw [(hother u hut).1, (hother u hut).2]
      exact h.free u hu
  · exact hu

/-- A number that no connection holds. -/
def Fresh (w : Worker) (fd : ℤ) : Prop :=
  fd ≠ invalidFd ∧ ∀ u d, w.chats u = some d → d.fd = fd → handedOff w.fdLog u = true

theorem fresh_of_closed (h : Serving s q held w) {fd : ℤ} (hfd : fd ≠ invalidFd)
    (hclosed : w.fds fd = none) : Fresh w fd := by
  refine ⟨hfd, fun u d hd hdfd => ?_⟩
  by_contra hm
  have hopen := h.holds u d hd (by rwa [hdfd]) (by simpa using hm)
  rw [hdfd, hclosed] at hopen
  exact absurd hopen (by decide)

theorem not_registered_of_fresh (h : Serving s q held w) {fd : ℤ} (hfresh : Fresh w fd) (u : ℕ) :
    (fd, u) ∉ w.eventLoop := by
  intro hmem
  obtain ⟨d, hd, hdfd, -, hdm⟩ := h.entry fd u hmem
  rw [hfresh.2 u d hd hdfd] at hdm
  exact absurd hdm (by decide)

/-- The kernel gives a number to a received socket. -/
theorem install (h : Serving s q held w) {fd : ℤ} (hfresh : Fresh w fd) (socket : Option ℕ) :
    Serving s q held { w with fds := Function.update w.fds fd socket } where
  __ := h
  membership := h.membership.of_same rfl rfl
  holds t c hc hne hm := by
    have hother : c.fd ≠ fd := by
      intro he
      rw [hfresh.2 t c hc he] at hm
      exact absurd hm (by decide)
    change (Function.update w.fds fd socket c.fd).isSome
    rw [Function.update_of_ne hother]
    exact h.holds t c hc hne hm

/-- A slot that is free has no registration, no room and no reference. -/
theorem slot_free (h : Serving s q held w) (ht : w.chats t = none) :
    (∀ fd, (fd, t) ∉ w.eventLoop) ∧ w.zombieList.count t = 0 ∧ held.count t = 0 := by
  have hf := h.free t ht
  unfold Worker.holders at hf
  refine ⟨fun fd hmem => ?_, by omega, by omega⟩
  obtain ⟨c, hc, -⟩ := h.entry fd t hmem
  rw [ht] at hc
  exact absurd hc (by simp)

/-- A new connection is registered. -/
theorem arrive (h : Serving s q held w) {fd : ℤ} (hfresh : Fresh w fd) (hopen : (w.fds fd).isSome)
    (ht : w.chats t = none) :
    Serving s q held ((chatAlloc w t fd).eventLoopRegisterFd fd t) := by
  obtain ⟨hun, hzero, hheld⟩ := h.slot_free ht
  have hm : Membership ((chatAlloc w t fd).eventLoopRegisterFd fd t) :=
    (h.membership.alloc ht fd).of_same rfl rfl
  have hchats : ((chatAlloc w t fd).eventLoopRegisterFd fd t).chats =
      Function.update w.chats t (some (.initial fd)) := rfl
  have hloop : ((chatAlloc w t fd).eventLoopRegisterFd fd t).eventLoop = w.eventLoop ++ [(fd, t)] :=
    rfl
  have hfdlog : ((chatAlloc w t fd).eventLoopRegisterFd fd t).fdLog =
      w.fdLog ++ [.opened fd t] ++ [.register fd t] := rfl
  have hreg (log : List FdEvent) (u : ℕ) :
      handedOff (log ++ [.register fd t]) u = handedOff log u := by
    apply handedOff_append
    intro e he
    obtain rfl := List.mem_singleton.mp he
    simp
  have hnew : handedOff (w.fdLog ++ [.opened fd t] ++ [.register fd t]) t = false := by
    rw [hreg, handedOff_opened]
  have hold : ∀ u, u ≠ t → handedOff (w.fdLog ++ [.opened fd t] ++ [.register fd t]) u =
      handedOff w.fdLog u := by
    intro u hut
    rw [hreg]
    apply handedOff_append
    intro e he
    obtain rfl := List.mem_singleton.mp he
    simp [Ne.symm hut]
  have hback : ∀ u d, Function.update w.chats t (some (.initial fd)) u = some d →
      u = t ∧ d = .initial fd ∨ u ≠ t ∧ w.chats u = some d := by
    intro u d hd
    by_cases hut : u = t
    · subst hut
      rw [Function.update_self] at hd
      exact Or.inl ⟨rfl, (Option.some.inj hd).symm⟩
    · rw [Function.update_of_ne hut] at hd
      exact Or.inr ⟨hut, hd⟩
  have hnumber : ∀ u d, w.chats u = some d → handedOff w.fdLog u = false → d.fd ≠ fd := by
    intro u d hd hdm hfd
    rw [hfresh.2 u d hd hfd] at hdm
    exact absurd hdm (by decide)
  constructor
  · exact hm
  · exact h.queue
  · intro fd' u hmem
    rw [hloop] at hmem
    rw [hchats, hfdlog]
    rcases List.mem_append.mp hmem with hmem' | hmem'
    · have hut : u ≠ t := by
        rintro rfl
        exact hun fd' hmem'
      obtain ⟨d, hd, hfd, hne, hdm⟩ := h.entry fd' u hmem'
      exact ⟨d, by rw [Function.update_of_ne hut, hd], hfd, hne, by rw [hold u hut, hdm]⟩
    · obtain ⟨rfl, rfl⟩ := Prod.mk.inj (List.mem_singleton.mp hmem')
      exact ⟨.initial fd', by rw [Function.update_self], rfl, hfresh.1, hnew⟩
  · rw [hloop, List.map_append, List.nodup_append]
    refine ⟨h.numbers, by simp, ?_⟩
    intro a ha b hb hab
    obtain ⟨⟨fd', u⟩, hmem, rfl⟩ := List.mem_map.mp ha
    obtain rfl : b = fd := by simpa using hb
    subst hab
    exact h.not_registered_of_fresh hfresh u hmem
  · intro u d hd hne hdm
    rw [hfdlog] at hdm
    rcases hback u d hd with ⟨rfl, rfl⟩ | ⟨hut, hd⟩
    · exact hopen
    · rw [hold u hut] at hdm
      exact h.holds u d hd hne hdm
  · intro u v d e hd he hde hne hdm hem
    rw [hfdlog] at hdm hem
    rcases hback u d hd with ⟨rfl, rfl⟩ | ⟨hut, hd'⟩ <;>
      rcases hback v e he with ⟨rfl, rfl⟩ | ⟨hvt, he'⟩
    · rfl
    · rw [hold v hvt] at hem
      exact absurd hde.symm (hnumber v e he' hem)
    · rw [hold u hut] at hdm
      exact absurd hde (hnumber u d hd' hdm)
    · rw [hold u hut] at hdm
      rw [hold v hvt] at hem
      exact h.unique u v d e hd' he' hde hne hdm hem
  · intro u d hd hne hds
    rw [hloop]
    rcases hback u d hd with ⟨rfl, rfl⟩ | ⟨hut, hd⟩
    · exact List.mem_append_right _ (List.mem_singleton_self _)
    · exact List.mem_append_left _ (h.registered u d hd hne hds)
  · intro u d hd hdq hds
    rcases hback u d hd with ⟨rfl, rfl⟩ | ⟨hut, hd⟩
    · exact hfresh.1
    · exact h.valid u d hd hdq hds
  · intro u d hd hdz
    rcases hback u d hd with ⟨rfl, rfl⟩ | ⟨hut, hd⟩
    · exact absurd hdz (by simp [ChatConnection.initial, ChatState.connected])
    · exact h.zombie u d hd hdz
  · intro u hu
    obtain ⟨d, hd, hdz⟩ := h.zombies u hu
    have hut : u ≠ t := by
      rintro rfl
      rw [ht] at hd
      exact absurd hd (by simp)
    exact ⟨d, by rw [hchats, Function.update_of_ne hut, hd], hdz⟩
  · intro u d hd hdm
    rw [hfdlog] at hdm
    rcases hback u d hd with ⟨rfl, rfl⟩ | ⟨hut, hd⟩
    · rw [hnew] at hdm
      exact absurd hdm (by decide)
    · rw [hold u hut] at hdm
      exact h.moved u d hd hdm
  · intro u d hd
    unfold Worker.holders
    rw [hloop]
    change (((w.eventLoop ++ [(fd, t)]).countP (·.2 = u) + w.zombieList.count u : ℕ) + _ : ℤ) ≤ _
    rcases hback u d hd with ⟨rfl, rfl⟩ | ⟨hut, hd⟩
    · have hcount : w.eventLoop.countP (·.2 = u) = 0 := by
        rw [List.countP_eq_zero]
        rintro ⟨fd', v⟩ hmem hv
        obtain rfl : v = u := by simpa using hv
        exact hun fd' hmem
      simp [hcount, hzero, hheld, ChatConnection.initial, ChatConnection.spare]
    · have hr := h.refs u d hd
      unfold Worker.holders at hr
      simp only [List.countP_append, List.countP_cons, List.countP_nil, Ne.symm hut, decide_false,
        Bool.false_eq_true, if_false, add_zero]
      exact hr
  · intro u hu
    have hut : u ≠ t := by
      rintro rfl
      rw [hchats, Function.update_self] at hu
      exact absurd hu (by simp)
    rw [hchats, Function.update_of_ne hut] at hu
    have hf := h.free u hu
    unfold Worker.holders at hf ⊢
    rw [hloop]
    change (w.eventLoop ++ [(fd, t)]).countP (·.2 = u) + w.zombieList.count u + _ = 0
    simp only [List.countP_append, List.countP_cons, List.countP_nil, Ne.symm hut, decide_false,
      Bool.false_eq_true, if_false, add_zero]
    exact hf
  · intro hstrict
    rw [hfdlog]
    have hone : Untouched (w.fdLog ++ [.opened fd t]) :=
      (h.untouched hstrict).snoc (fun fd' t' u he => by cases he) fun u hu => by cases hu
    exact hone.snoc (fun fd' t' u he => by cases he) fun u hu => by cases hu

end Serving
end Nginz
