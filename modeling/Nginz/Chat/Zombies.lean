import Nginz.Chat.Burial

/-! The zombies of a worker: what a pass over them schedules, and what a lazy step buries. -/
namespace Nginz

/-- The seconds since a connection quitted. -/
def Worker.quitFor (w : Worker) (t : ℕ) : ℕ := w.clock - (w.chat t).quitedAt

/-- The zombies that the test of `chat_lazy_cleanup_fiber` lets through at the time `now`. -/
def Worker.Passed (w : Worker) (now t : ℕ) : Prop :=
  ¬ ((w.chat t).quitedAt = 0 ∨ now - (w.chat t).quitedAt > 120)

instance (w : Worker) (now : ℕ) : DecidablePred (w.Passed now) :=
  fun _ => inferInstanceAs (Decidable (¬ _))

/-- A pass queues those that the test lets through, as far as there is room. -/
theorem pass_eq (now : ℕ) (ts : List ℕ) (w : Worker)
    (hroom : w.lazyCleanup.length ≤ nginzLazyObjectQueueSize) :
    ∃ crashed, ts.foldl (fun w t =>
        if (w.chat t).quitedAt = 0 ∨ now - (w.chat t).quitedAt > 120 then w
        else lazyCleanup w (.zombie t)) w =
      { w with
        lazyCleanup := w.lazyCleanup ++ ((ts.filter (w.Passed now ·)).take
          (nginzLazyObjectQueueSize - w.lazyCleanup.length)).map LazyObject.zombie
        crashed } := by
  induction ts generalizing w with
  | nil => exact ⟨w.crashed, by simp⟩
  | cons t ts ih =>
    rw [List.foldl_cons, List.filter_cons]
    by_cases hp : w.Passed now t
    · have htest : ¬ ((w.chat t).quitedAt = 0 ∨ now - (w.chat t).quitedAt > 120) := hp
      rw [if_neg htest, if_pos (decide_eq_true hp)]
      by_cases hfull : w.lazyCleanup.length = nginzLazyObjectQueueSize
      · have hkept : lazyCleanup w (.zombie t) =
            w.assert (w.lazyCleanup.length < nginzLazyObjectQueueSize) := by
          unfold lazyCleanup
          exact if_pos hfull
        obtain ⟨crashed, htail⟩ := ih (lazyCleanup w (.zombie t)) (by rw [hkept]; exact hroom)
        refine ⟨crashed, ?_⟩
        rw [htail, hkept]
        simp [Worker.assert, hfull]
      · have hqueued : lazyCleanup w (.zombie t) =
            { w.assert (w.lazyCleanup.length < nginzLazyObjectQueueSize) with
              lazyCleanup := w.lazyCleanup ++ [.zombie t] } := by
          unfold lazyCleanup
          exact if_neg hfull
        obtain ⟨n, hn⟩ : ∃ n, nginzLazyObjectQueueSize - w.lazyCleanup.length = n + 1 :=
          Nat.exists_eq_add_one_of_ne_zero (by omega)
        have hrest : nginzLazyObjectQueueSize - (w.lazyCleanup.length + 1) = n := by omega
        obtain ⟨crashed, htail⟩ := ih (lazyCleanup w (.zombie t)) (by
          rw [hqueued]
          simp only [List.length_append, List.length_singleton]
          omega)
        refine ⟨crashed, ?_⟩
        rw [htail, hqueued, hn]
        simp only [List.length_append, List.length_singleton, hrest, List.take_succ_cons,
          List.map_cons, List.append_assoc, List.singleton_append, Worker.assert]
        rfl
    · have htest : (w.chat t).quitedAt = 0 ∨ now - (w.chat t).quitedAt > 120 :=
        Classical.not_not.mp hp
      rw [if_pos htest, if_neg (by simpa using hp)]
      exact ih w hroom

theorem chatLazyCleanupFiber_idle {w : Worker} (h : w.gear < 10) :
    chatLazyCleanupFiber w = { w with gear := w.gear + 1 } := if_pos h

theorem chatLazyCleanupFiber_full {w : Worker} (h : 10 ≤ w.gear) (hqueue : w.lazyCleanup = []) :
    ∃ crashed, chatLazyCleanupFiber w =
      { w with
        gear := 0
        lazyCleanup := ((w.zombieList.filter (w.Passed w.clock ·)).take
          nginzLazyObjectQueueSize).map LazyObject.zombie
        crashed } := by
  have hgear : ¬ w.gear < 10 := Nat.not_lt.mpr h
  obtain ⟨crashed, hpass⟩ := pass_eq w.clock w.zombieList { w with gear := 0 }
    (by simp [hqueue])
  refine ⟨crashed, ?_⟩
  unfold chatLazyCleanupFiber
  rw [if_neg hgear]
  dsimp only
  rw [hpass]
  simp [hqueue]
  rfl

theorem chatZombieAdd_new {w : Worker} {t : ℕ} {c : ChatConnection} (hc : w.chats t = some c)
    (hz : c.state.zombie = false) :
    ∃ crashed, chatZombieAdd w t =
      { w with
        crashed
        zombieList := w.zombieList ++ [t]
        chats := Function.update w.chats t
          (some { c with
            state := { c.state with zombie := true }
            refs := c.refs + 1 }) } := by
  refine ⟨w.crashed || !decide (c.quitedAt ≠ 0), ?_⟩
  unfold chatZombieAdd
  rw [w.chat_of_some t hc, hz]
  simp [Worker.setChat, Worker.assert, hc]

/-! ### A lazy step -/

/-- The second worker is the first one after a lazy step on zombies of its list. -/
structure Buried (queue : List LazyObject) (w w' : Worker) : Prop where
  list : ∀ t, t ∈ w'.zombieList ↔ t ∈ w.zombieList ∧ .zombie t ∉ queue
  nodup : w'.zombieList.Nodup
  kept : ∀ t ∈ w'.zombieList,
    (w'.chats t).map ChatConnection.grave = (w.chats t).map ChatConnection.grave
  zombie : ∀ t c', w'.chats t = some c' →
    ∃ c, w.chats t = some c ∧ c'.state.zombie = c.state.zombie

theorem buried (W : World) {queue : List LazyObject} {w : Worker} (hlist : w.zombieList.Nodup)
    (hqueue : queue.Nodup) (hzombies : ∀ obj ∈ queue, ∃ t ∈ w.zombieList, obj = .zombie t) :
    Buried queue w (queue.foldr (fun obj w => lazyUnref W w obj) w) := by
  induction queue with
  | nil => exact ⟨fun t => by simp, hlist, fun _ _ => rfl, fun _ c' hc' => ⟨c', hc', rfl⟩⟩
  | cons obj queue ih =>
    obtain ⟨hnew, hqueue'⟩ := List.nodup_cons.mp hqueue
    obtain ⟨⟨t, ht, rfl⟩, hzombies'⟩ := List.forall_mem_cons.mp hzombies
    have hrest := ih hqueue' hzombies'
    rw [List.foldr_cons]
    generalize queue.foldr (fun obj w => lazyUnref W w obj) w = v at hrest ⊢
    have htv : t ∈ v.zombieList := (hrest.list t).mpr ⟨ht, hnew⟩
    have hunref : lazyUnref W v (.zombie t) =
        oppUnref W { v with zombieList := v.zombieList.erase t } t := if_pos htv
    have hend := burying_unref W { v with zombieList := v.zombieList.erase t } t
    have hmem (u : ℕ) : u ∈ v.zombieList.erase t ↔ u ≠ t ∧ u ∈ v.zombieList :=
      hrest.nodup.mem_erase_iff
    rw [hunref]
    constructor
    · intro u
      rw [hend.list, hmem, hrest.list, List.mem_cons, LazyObject.zombie.injEq]
      tauto
    · rw [hend.list]
      exact hrest.nodup.erase t
    · intro u hu
      rw [hend.list] at hu
      obtain ⟨hut, hu⟩ := (hmem u).mp hu
      exact (hend.others u hut).trans (hrest.kept u hu)
    · intro u c' hc'
      by_cases hut : u = t
      · subst hut
        obtain ⟨d, hd, hz⟩ := hend.zombie c' hc'
        obtain ⟨c, hc, hz'⟩ := hrest.zombie u d hd
        exact ⟨c, hc, hz.trans hz'⟩
      · have hgrave := hend.others u hut
        rw [hc', Option.map_some, eq_comm, Option.map_eq_some_iff] at hgrave
        obtain ⟨d, hd, hz⟩ := hgrave
        obtain ⟨c, hc, hz'⟩ := hrest.zombie u d hd
        exact ⟨c, hc, (congrArg Prod.snd hz).symm.trans hz'⟩

/-- The lazy work of a worker: no function, and finalizers that schedule nothing. -/
def chatLazyWork (W : World) : LazyWork Empty Empty LazyObject Worker where
  invoke goLazy := nomatch goLazy
  oppUnref obj w := (lazyUnref W w obj, [])

/-- The lazy step of a worker is that of the process, for the objects in its queue. -/
theorem lazyCallStep_worker (W : World) (s : LazyState Empty Empty LazyObject Worker)
    (hqueue : s.lazyObjects = s.env.lazyCleanup)
    (h : ((chatLazyWork W).lazyCallStep s).crashed = false) :
    lazyCallStep W s.env =
      { ((chatLazyWork W).lazyCallStep s).env with lazyCleanup := [] } := by
  have hstack : s.lazyStack = [] := by
    cases hs : s.lazyStack with
    | nil => rfl
    | cons call rest => exact nomatch call.1
  have hfunctions : (chatLazyWork W).functions s = (s.env, []) := by
    rw [LazyWork.functions, hstack]
    rfl
  rw [lazyCallStep_eq h, LazyWork.finalizers, hfunctions, runAll_env, hqueue]
  simp only [scheduledObjects, List.filterMap_nil, List.append_nil, List.foldl_reverse]
  rfl

/-! ### Runs -/

/-- What happens to the zombies of a worker: one is added, the fiber or the lazy step has its
turn, time passes. -/
inductive ZombieAct where
  | add (t : ℕ)
  | fiber
  | lazyStep
  | wait (seconds : ℕ)
  deriving DecidableEq, Repr

/-- A worker with what its passes scheduled so far, and whether a lazy step came behind the
last one. -/
structure Graveyard where
  worker : Worker
  scheduled : List LazyObject
  cleaned : Bool

def Graveyard.start (w : Worker) : Graveyard := ⟨w, [], true⟩

def Graveyard.act (W : World) (s : Graveyard) : ZombieAct → Graveyard
  | .add t => { s with worker := chatZombieAdd s.worker t }
  | .fiber =>
    let w := chatLazyCleanupFiber s.worker
    ⟨w, s.scheduled ++ w.lazyCleanup.drop s.worker.lazyCleanup.length, false⟩
  | .lazyStep => ⟨lazyCallStep W s.worker, s.scheduled, true⟩
  | .wait seconds => { s with worker := { s.worker with clock := s.worker.clock + seconds } }

/-- Only connections that quitted are added, and a lazy step comes between two steps of the
fiber. -/
def Graveyard.Permits (s : Graveyard) : ZombieAct → Prop
  | .add t => ∃ c, s.worker.chats t = some c ∧ c.quitedAt ≠ 0
  | .fiber => s.cleaned = true
  | .lazyStep => True
  | .wait _ => True

/-- A worker whose list and queue are empty, and none of whose connections is a zombie. -/
structure Worker.NoZombies (w : Worker) : Prop where
  list : w.zombieList = []
  queue : w.lazyCleanup = []
  chats : ∀ t c, w.chats t = some c → c.state.zombie = false

/-- A step of the fiber schedules none before its time, and a full pass all whose time has
come. -/
structure TimelyPass (w w' : Worker) : Prop where
  late : ∀ t, .zombie t ∈ w'.lazyCleanup.drop w.lazyCleanup.length → 120 < w.quitFor t
  all : 10 ≤ w.gear → ∀ t ∈ w.zombieList, 120 < w.quitFor t → .zombie t ∈ w'.lazyCleanup

/-- Zombies are released late, all of them, and none twice. -/
def TimelyReleases (W : World) (s : Graveyard) (acts : List ZombieAct) : Prop :=
  Transition.Along (Graveyard.act W)
    (fun s a => (s.act W a).scheduled.Nodup ∧
      (a = .fiber → TimelyPass s.worker (s.act W a).worker)) s acts

/-- What holds of a worker's zombies at all times. -/
structure Graveyard.Orderly (s : Graveyard) : Prop where
  nodup : s.worker.zombieList.Nodup
  listed : ∀ t ∈ s.worker.zombieList,
    ∃ c, s.worker.chats t = some c ∧ c.quitedAt ≠ 0 ∧ c.state.zombie = true
  queue : s.worker.lazyCleanup.Nodup
  queued : ∀ obj ∈ s.worker.lazyCleanup, ∃ t ∈ s.worker.zombieList, obj = .zombie t
  cleaned : s.cleaned = true → s.worker.lazyCleanup = []
  once : s.scheduled.Nodup
  gone : ∀ obj ∈ s.scheduled, ∃ t, obj = .zombie t ∧ (obj ∈ s.worker.lazyCleanup ∨
    t ∉ s.worker.zombieList ∧ ∀ c, s.worker.chats t = some c → c.state.zombie = true)

namespace Graveyard.Orderly
variable {W : World} {s : Graveyard}

theorem start {w : Worker} (h : w.NoZombies) : (Graveyard.start w).Orderly where
  nodup := by simp [Graveyard.start, h.list]
  listed := by simp [Graveyard.start, h.list]
  queue := by simp [Graveyard.start, h.queue]
  queued := by simp [Graveyard.start, h.queue]
  cleaned _ := h.queue
  once := List.nodup_nil
  gone := by simp [Graveyard.start]

/-- A connection that is no zombie yet is in no list. -/
theorem add (h : s.Orderly) {t : ℕ} {c : ChatConnection} (hc : s.worker.chats t = some c)
    (hquited : c.quitedAt ≠ 0) : (s.act W (.add t)).Orderly := by
  by_cases hz : c.state.zombie = true
  · have hsame : chatZombieAdd s.worker t = s.worker := by
      unfold chatZombieAdd
      rw [s.worker.chat_of_some t hc]
      exact if_pos hz
    rw [Graveyard.act, hsame]
    exact h
  · obtain ⟨crashed, hadd⟩ := chatZombieAdd_new hc (by simpa using hz)
    have hnot : t ∉ s.worker.zombieList := by
      intro ht
      obtain ⟨d, hd, -, hzd⟩ := h.listed t ht
      exact hz (Option.some.inj (hc.symm.trans hd) ▸ hzd)
    rw [Graveyard.act, hadd]
    constructor
    · exact List.nodup_append.mpr ⟨h.nodup, List.nodup_singleton t, by
        intro u hu v hv
        obtain rfl := List.mem_singleton.mp hv
        exact fun huv => hnot (huv ▸ hu)⟩
    · intro u hu
      by_cases hut : u = t
      · subst hut
        exact ⟨_, Function.update_self .., hquited, rfl⟩
      · have hu' : u ∈ s.worker.zombieList := by
          rcases List.mem_append.mp hu with hu | hu
          · exact hu
          · exact absurd (List.mem_singleton.mp hu) hut
        obtain ⟨d, hd, hrest⟩ := h.listed u hu'
        exact ⟨d, (Function.update_of_ne hut ..).trans hd, hrest⟩
    · exact h.queue
    · intro obj hobj
      obtain ⟨u, hu, rfl⟩ := h.queued obj hobj
      exact ⟨u, List.mem_append_left _ hu, rfl⟩
    · exact h.cleaned
    · exact h.once
    · intro obj hobj
      obtain ⟨u, rfl, hu⟩ := h.gone obj hobj
      refine ⟨u, rfl, hu.imp_right ?_⟩
      rintro ⟨hu, hzombie⟩
      have hut : u ≠ t := by
        rintro rfl
        exact hz (hzombie c hc)
      constructor
      · intro hmem
        rcases List.mem_append.mp hmem with hmem | hmem
        · exact hu hmem
        · exact hut (List.mem_singleton.mp hmem)
      · intro d hd
        exact hzombie d ((Function.update_of_ne hut ..).symm.trans hd)

/-- The idle steps of the fiber change nothing but the gear. -/
theorem idle (h : s.Orderly) (hclean : s.cleaned = true) (hgear : s.worker.gear < 10) :
    (s.act W .fiber).Orderly := by
  have hnone : s.worker.lazyCleanup = [] := h.cleaned hclean
  rw [Graveyard.act, chatLazyCleanupFiber_idle hgear]
  dsimp only
  rw [List.drop_length, List.append_nil]
  exact ⟨h.nodup, h.listed, h.queue, h.queued, fun _ => hnone, h.once, h.gone⟩

/-- What was scheduled before a full pass is in the list no more. -/
theorem full (h : s.Orderly) (hclean : s.cleaned = true) (hgear : 10 ≤ s.worker.gear) :
    (s.act W .fiber).Orderly := by
  have hnone : s.worker.lazyCleanup = [] := h.cleaned hclean
  obtain ⟨crashed, hpass⟩ := chatLazyCleanupFiber_full hgear hnone
  have hsub : ((s.worker.zombieList.filter (s.worker.Passed s.worker.clock ·)).take
      nginzLazyObjectQueueSize).Sublist s.worker.zombieList :=
    (List.take_sublist _ _).trans List.filter_sublist
  rw [Graveyard.act, hpass, hnone]
  generalize (s.worker.zombieList.filter (s.worker.Passed s.worker.clock ·)).take
    nginzLazyObjectQueueSize = ts at hsub
  have hnodup : (ts.map LazyObject.zombie).Nodup :=
    (h.nodup.sublist hsub).map fun _ _ htu => LazyObject.zombie.inj htu
  have hmem {obj : LazyObject} (hobj : obj ∈ ts.map LazyObject.zombie) :
      ∃ t ∈ s.worker.zombieList, obj = .zombie t := by
    obtain ⟨t, ht, rfl⟩ := List.mem_map.mp hobj
    exact ⟨t, hsub.subset ht, rfl⟩
  constructor
  · exact h.nodup
  · exact h.listed
  · exact hnodup
  · exact fun obj hobj => hmem hobj
  · exact fun hc => absurd hc Bool.false_ne_true
  · refine List.nodup_append.mpr ⟨h.once, hnodup, fun obj hobj obj' hobj' heq => ?_⟩
    obtain ⟨t, rfl, ht⟩ := h.gone obj hobj
    obtain ⟨u, hu, rfl⟩ := hmem hobj'
    obtain rfl := LazyObject.zombie.inj heq
    rcases ht with ht | ht
    · rw [hnone] at ht
      exact List.not_mem_nil ht
    · exact ht.1 hu
  · intro obj hobj
    rcases List.mem_append.mp hobj with hobj | hobj
    · obtain ⟨t, rfl, ht⟩ := h.gone obj hobj
      refine ⟨t, rfl, .inr (ht.resolve_left ?_)⟩
      rw [hnone]
      exact List.not_mem_nil
    · obtain ⟨t, -, rfl⟩ := hmem hobj
      exact ⟨t, rfl, .inl hobj⟩

/-- Whatever the queue held is in the list no more. -/
theorem lazyStep (h : s.Orderly) : (s.act W .lazyStep).Orderly := by
  have hburied := buried W h.nodup h.queue h.queued
  rw [Graveyard.act, lazyCallStep]
  generalize s.worker.lazyCleanup.foldr (fun obj w => lazyUnref W w obj) s.worker = v at hburied
  constructor
  · exact hburied.nodup
  · intro t ht
    have hgrave := hburied.kept t ht
    obtain ⟨c, hc, hquited, hz⟩ := h.listed t ((hburied.list t).mp ht).1
    rw [hc, Option.map_some, Option.map_eq_some_iff] at hgrave
    obtain ⟨c', hc', heq⟩ := hgrave
    have hquited' : c'.quitedAt = c.quitedAt := congrArg Prod.fst heq
    have hz' : c'.state.zombie = c.state.zombie := congrArg Prod.snd heq
    exact ⟨c', hc', hquited' ▸ hquited, hz'.trans hz⟩
  · exact List.nodup_nil
  · exact fun obj hobj => absurd hobj List.not_mem_nil
  · exact fun _ => rfl
  · exact h.once
  · intro obj hobj
    obtain ⟨t, rfl, ht⟩ := h.gone obj hobj
    have hout : t ∉ v.zombieList := by
      intro hmem
      obtain ⟨hlist, hqueue⟩ := (hburied.list t).mp hmem
      exact ht.elim hqueue fun hgone => hgone.1 hlist
    refine ⟨t, rfl, .inr ⟨hout, fun c' hc' => ?_⟩⟩
    obtain ⟨c, hc, hz⟩ := hburied.zombie t c' hc'
    rw [hz]
    rcases ht with ht | ht
    · obtain ⟨u, hu, heq⟩ := h.queued _ ht
      obtain rfl := LazyObject.zombie.inj heq
      obtain ⟨d, hd, -, hzd⟩ := h.listed t hu
      exact Option.some.inj (hc.symm.trans hd) ▸ hzd
    · exact ht.2 c hc

theorem act {a : ZombieAct} (h : s.Orderly) (hpermits : s.Permits a) : (s.act W a).Orderly := by
  cases a with
  | add t =>
    obtain ⟨c, hc, hquited⟩ := hpermits
    exact h.add hc hquited
  | fiber =>
    rcases Nat.lt_or_ge s.worker.gear 10 with hgear | hgear
    · exact h.idle hpermits hgear
    · exact h.full hpermits hgear
  | lazyStep => exact h.lazyStep
  | wait seconds => exact ⟨h.nodup, h.listed, h.queue, h.queued, h.cleaned, h.once, h.gone⟩

end Graveyard.Orderly

/-- No zombie is ever scheduled twice. -/
theorem scheduled_once (W : World) {w : Worker} (h : w.NoZombies) {acts : List ZombieAct}
    (hrun : Transition.Along (Graveyard.act W) Graveyard.Permits (.start w) acts) :
    (acts.foldl (Graveyard.act W) (.start w)).scheduled.Nodup :=
  (Transition.along_invariant (fun _ _ hs hp => Graveyard.Orderly.act hs hp)
    (Graveyard.Orderly.start h) hrun).once

section Passes
variable {W : World} {s : Graveyard}

/-- A full pass is timely only over an empty list: it takes those that quitted lately, and
leaves the others. -/
theorem timelyPass_iff (h : s.Orderly) (hclean : s.cleaned = true) :
    TimelyPass s.worker (s.act W .fiber).worker ↔
      (10 ≤ s.worker.gear → s.worker.zombieList = []) := by
  have hnone : s.worker.lazyCleanup = [] := h.cleaned hclean
  rw [Graveyard.act]
  dsimp only
  rcases Nat.lt_or_ge s.worker.gear 10 with hgear | hgear
  · have hgear' : ¬ 10 ≤ s.worker.gear := Nat.not_le.mpr hgear
    rw [chatLazyCleanupFiber_idle hgear]
    constructor
    · exact fun _ hfull => absurd hfull hgear'
    · intro _
      constructor
      · intro t ht
        dsimp only at ht
        rw [List.drop_length] at ht
        exact absurd ht List.not_mem_nil
      · exact fun hfull => absurd hfull hgear'
  · obtain ⟨crashed, hpass⟩ := chatLazyCleanupFiber_full hgear hnone
    rw [hpass]
    constructor
    · intro htimely _
      cases hlist : s.worker.zombieList with
      | nil => rfl
      | cons t rest =>
        have ht : t ∈ s.worker.zombieList := by simp [hlist]
        obtain ⟨c, hc, hquited, -⟩ := h.listed t ht
        have hchat : (s.worker.chat t).quitedAt ≠ 0 := by rwa [s.worker.chat_of_some t hc]
        by_cases hage : 120 < s.worker.quitFor t
        · -- the pass does not take it
          have hin := htimely.all hgear t ht hage
          obtain ⟨u, hu, heq⟩ := List.mem_map.mp hin
          obtain rfl := LazyObject.zombie.inj heq
          have hpassed := (List.mem_filter.mp (List.mem_of_mem_take hu)).2
          exact absurd (Or.inr hage) (of_decide_eq_true hpassed)
        · -- it is the first one that the pass takes
          have hpassed : s.worker.Passed s.worker.clock t := fun hor => hor.elim hchat hage
          refine absurd (htimely.late t ?_) hage
          rw [hnone, hlist, List.filter_cons, if_pos (decide_eq_true hpassed)]
          simp [nginzLazyObjectQueueSize]
    · intro hempty
      have hlist := hempty hgear
      constructor
      · intro t ht
        rw [hlist] at ht
        simp at ht
      · intro _ t ht
        rw [hlist] at ht
        exact absurd ht List.not_mem_nil

end Passes

/-- Zombies are released late, all of them and none twice, exactly in the runs in which every
full pass finds the list of zombies empty. -/
theorem zombies_released_iff (W : World) {w : Worker} (h : w.NoZombies) (acts : List ZombieAct)
    (hrun : Transition.Along (Graveyard.act W) Graveyard.Permits (.start w) acts) :
    TimelyReleases W (.start w) acts ↔
      Transition.Along (Graveyard.act W)
        (fun s a => a = .fiber → 10 ≤ s.worker.gear → s.worker.zombieList = [])
        (.start w) acts := by
  refine Transition.along_iff ?_ ?_ (Graveyard.Orderly.start h) hrun
  · intro s a hs hpermits
    have honce := (hs.act (W := W) hpermits).once
    constructor
    · rintro ⟨-, hpass⟩ rfl
      exact (timelyPass_iff hs hpermits).mp (hpass rfl)
    · intro hcond
      refine ⟨honce, ?_⟩
      rintro rfl
      exact (timelyPass_iff hs hpermits).mpr (hcond rfl)
  · intro s a hs hpermits _
    exact hs.act hpermits

/-- A worker at second 1000 with one connection, which quitted, before a full pass. -/
def quittedWorker (quitedAt : ℕ) : Worker :=
  { Worker.fresh 1 1000 with
    gear := 10
    chats := fun t => if t = 0 then
      some { ChatConnection.initial invalidFd with
        state := { ChatState.connected with quit := true }
        quitedAt := quitedAt }
      else none }

theorem quittedWorker_noZombies (quitedAt : ℕ) : (quittedWorker quitedAt).NoZombies where
  list := rfl
  queue := rfl
  chats t c hc := by
    have hslot : (if t = 0 then
        some { ChatConnection.initial invalidFd with
          state := { ChatState.connected with quit := true }
          quitedAt := quitedAt }
        else none) = some c := hc
    split at hslot
    · obtain rfl := Option.some.inj hslot
      rfl
    · cases hslot

theorem zombies_released_iff_oneZombie :
    TimelyReleases .calm (.start (quittedWorker 990)) [.add 0, .wait 7, .fiber, .lazyStep] ↔
      Transition.Along (Graveyard.act .calm)
        (fun s a => a = .fiber → 10 ≤ s.worker.gear → s.worker.zombieList = [])
        (.start (quittedWorker 990)) [.add 0, .wait 7, .fiber, .lazyStep] :=
  zombies_released_iff .calm (quittedWorker_noZombies 990) _
    ⟨⟨_, rfl, by decide⟩, trivial, rfl, trivial, trivial⟩

/-- A connection that quitted ten seconds ago is scheduled by a full pass, and one that
quitted 990 seconds ago is not. -/
theorem zombies_released_inverted :
    let early := [ZombieAct.add 0, .fiber].foldl (Graveyard.act .calm) (.start (quittedWorker 990))
    let late := [ZombieAct.add 0, .fiber].foldl (Graveyard.act .calm) (.start (quittedWorker 10))
    (Transition.Along (Graveyard.act .calm) Graveyard.Permits (.start (quittedWorker 990))
        [.add 0, .fiber] ∧ early.scheduled = [.zombie 0] ∧
      ¬ TimelyReleases .calm (.start (quittedWorker 990)) [.add 0, .fiber]) ∧
    (Transition.Along (Graveyard.act .calm) Graveyard.Permits (.start (quittedWorker 10))
        [.add 0, .fiber] ∧ late.scheduled = [] ∧
      ¬ TimelyReleases .calm (.start (quittedWorker 10)) [.add 0, .fiber]) := by
  refine ⟨⟨⟨⟨_, rfl, by decide⟩, rfl, trivial⟩, by decide, fun h => ?_⟩,
    ⟨⟨_, rfl, by decide⟩, rfl, trivial⟩, by decide, fun h => ?_⟩
  · exact absurd ((h.2.1.2 rfl).late 0 (by decide)) (by decide)
  · exact absurd ((h.2.1.2 rfl).all (by decide) 0 (by decide) (by decide)) (by decide)

end Nginz
