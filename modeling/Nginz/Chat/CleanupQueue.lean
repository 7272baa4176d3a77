import Nginz.Chat.Zombies

/-! The room in the cleanup queue that a pass over the zombies needs. -/
namespace Nginz

/-- The body of the loop of `chat_lazy_cleanup_fiber`. -/
def zombiePass (now : ℕ) (w : Worker) (t : ℕ) : Worker :=
  if (w.chat t).quitedAt = 0 ∨ now - (w.chat t).quitedAt > 120 then w
  else lazyCleanup w (.zombie t)

/-- A full pass is its loop over the zombies. -/
theorem chatLazyCleanupFiber_loop {w : Worker} (h : 10 ≤ w.gear) :
    chatLazyCleanupFiber w = w.zombieList.foldl (zombiePass w.clock) { w with gear := 0 } :=
  if_neg (Nat.not_lt.mpr h)

/-- Every call of `lazy_cleanup` in a step of the fiber finds `lazy_cleanup_count` below the
size of the queue, and its assertion holds. -/
structure CleanupFits (w : Worker) : Prop where
  room : 10 ≤ w.gear → Transition.Along (zombiePass w.clock)
    (fun v t => v.Passed w.clock t → v.lazyCleanup.length < nginzLazyObjectQueueSize)
    { w with gear := 0 } w.zombieList
  asserted : (chatLazyCleanupFiber w).crashed = w.crashed

/-- The number of zombies that a full pass hands to `lazy_cleanup`. -/
def Worker.passedCount (w : Worker) : ℕ := w.zombieList.countP (w.Passed w.clock ·)

section Pass
variable {now : ℕ} {w : Worker} {t : ℕ}

theorem zombiePass_kept (h : ¬ w.Passed now t) : zombiePass now w t = w :=
  if_pos (Classical.not_not.mp h)

theorem zombiePass_passed (h : w.Passed now t) : zombiePass now w t = lazyCleanup w (.zombie t) :=
  if_neg h

/-- A cleanup that finds room is queued, without a failed assertion. -/
theorem lazyCleanup_roomy {obj : LazyObject} (h : w.lazyCleanup.length < nginzLazyObjectQueueSize) :
    lazyCleanup w obj = { w with lazyCleanup := w.lazyCleanup ++ [obj] } := by
  unfold lazyCleanup Worker.assert
  dsimp only
  rw [if_neg h.ne, decide_eq_true h]
  simp

theorem zombiePass_chats (now : ℕ) (w : Worker) (t : ℕ) : (zombiePass now w t).chats = w.chats := by
  unfold zombiePass lazyCleanup
  dsimp only
  split_ifs <;> rfl

/-- Who is let through is a matter of the connections alone. -/
theorem passed_congr {w' : Worker} (h : w'.chats = w.chats) : w'.Passed now t ↔ w.Passed now t := by
  unfold Worker.Passed Worker.chat
  rw [h]

theorem zombiePass_size {w' : Worker} (hchats : w'.chats = w.chats)
    (hroom : w.Passed now t → w'.lazyCleanup.length < nginzLazyObjectQueueSize) :
    (zombiePass now w' t).lazyCleanup.length =
      w'.lazyCleanup.length + if w.Passed now t then 1 else 0 := by
  by_cases hp : w.Passed now t
  · rw [zombiePass_passed ((passed_congr hchats).mpr hp), lazyCleanup_roomy (hroom hp), if_pos hp]
    simp
  · rw [zombiePass_kept (mt (passed_congr hchats).mp hp), if_neg hp, Nat.add_zero]

/-- A pass that finds room for each cleanup fails no assertion. -/
theorem pass_crashed {ts : List ℕ} (h : Transition.Along (zombiePass now)
    (fun v t => v.Passed now t → v.lazyCleanup.length < nginzLazyObjectQueueSize) w ts) :
    (ts.foldl (zombiePass now) w).crashed = w.crashed := by
  refine Transition.along_invariant (P := fun v => v.crashed = w.crashed) ?_ rfl h
  intro v t hv hroom
  by_cases hp : v.Passed now t
  · rw [zombiePass_passed hp, lazyCleanup_roomy (hroom hp)]
    exact hv
  · rwa [zombiePass_kept hp]

/-- A pass finds room for each cleanup if they all fit behind those that are pending. -/
theorem pass_room_iff (w : Worker) (now : ℕ) (ts : List ℕ) :
    Transition.Along (zombiePass now)
        (fun v t => v.Passed now t → v.lazyCleanup.length < nginzLazyObjectQueueSize) w ts ↔
      ts.countP (w.Passed now ·) = 0 ∨
        w.lazyCleanup.length + ts.countP (w.Passed now ·) ≤ nginzLazyObjectQueueSize := by
  have hsame : Transition.Along (zombiePass now)
      (fun v t => v.Passed now t → v.lazyCleanup.length < nginzLazyObjectQueueSize) w ts ↔
        Transition.Along (zombiePass now)
          (fun v t => w.Passed now t → v.lazyCleanup.length < nginzLazyObjectQueueSize) w ts := by
    have hany : Transition.Along (zombiePass now) (fun _ _ => True) w ts :=
      Transition.along_actions_iff.mpr fun _ _ => trivial
    refine Transition.along_iff (P := fun v => v.chats = w.chats) ?_ ?_ rfl hany
    · intro v t hv _
      rw [passed_congr hv]
    · exact fun v t hv _ _ => (zombiePass_chats now v t).trans hv
  rw [hsame]
  refine Transition.along_room_iff (P := fun v => v.chats = w.chats) ?_ ?_ rfl
  · exact fun v t hv => (zombiePass_chats now v t).trans hv
  · exact fun v t hv hroom => zombiePass_size hv hroom

end Pass

/-- From every state of a worker, however many cleanups are pending: a step of the fiber finds
room for all that it hands to `lazy_cleanup` exactly if it is no full pass, hands over none,
or those and the pending ones fit into the queue together. -/
theorem cleanup_fits_iff (w : Worker) :
    CleanupFits w ↔ (10 ≤ w.gear → w.passedCount = 0 ∨
      w.lazyCleanup.length + w.passedCount ≤ nginzLazyObjectQueueSize) := by
  have hroom := pass_room_iff { w with gear := 0 } w.clock w.zombieList
  constructor
  · intro h hgear
    exact hroom.mp (h.room hgear)
  · intro h
    refine ⟨fun hgear => hroom.mpr (h hgear), ?_⟩
    rcases Nat.lt_or_ge w.gear 10 with hgear | hgear
    · rw [chatLazyCleanupFiber_idle hgear]
    · rw [chatLazyCleanupFiber_loop hgear]
      exact pass_crashed (hroom.mpr (h hgear))

/-- More zombies than the queue has places for, if they are all let through. -/
theorem crowd_overflows {w : Worker} (hgear : 10 ≤ w.gear)
    (hpassed : ∀ t ∈ w.zombieList, w.Passed w.clock t)
    (hcrowd : nginzLazyObjectQueueSize < w.zombieList.length) : ¬ CleanupFits w := by
  intro h
  have hall : w.zombieList.countP (w.Passed w.clock ·) = w.zombieList.length :=
    List.countP_eq_length.mpr fun t ht => decide_eq_true (hpassed t ht)
  have hfits : w.zombieList.countP (w.Passed w.clock ·) = 0 ∨
      w.lazyCleanup.length + w.zombieList.countP (w.Passed w.clock ·) ≤ nginzLazyObjectQueueSize :=
    (pass_room_iff { w with gear := 0 } w.clock w.zombieList).mp (h.room hgear)
  omega

/-- A worker all of whose connections quitted this second, before a full pass. -/
def crowdedWorker (zombies : List ℕ) : Worker :=
  { Worker.fresh 4712 1000 with
    gear := 10
    zombieList := zombies
    chats := fun _ => some { ChatConnection.initial invalidFd with
      state := ⟨false, false, true, false, true⟩
      quitedAt := 1000 } }

theorem crowdedWorker_zombieList (zombies : List ℕ) :
    (crowdedWorker zombies).zombieList = zombies :=
  rfl

/-- With 1025 zombies of this second and nothing pending the last cleanup finds no room. -/
theorem cleanup_overflows :
    (crowdedWorker (List.range 1025)).lazyCleanup = [] ∧
      ¬ CleanupFits (crowdedWorker (List.range 1025)) := by
  refine ⟨rfl, crowd_overflows le_rfl (fun t _ => ?_) ?_⟩
  · rintro (hnever | hlate)
    · exact absurd (show (1000 : ℕ) = 0 from hnever) (by decide)
    · exact absurd (show (1000 : ℕ) - 1000 > 120 from hlate) (by decide)
  · rw [crowdedWorker_zombieList, List.length_range]
    decide

end Nginz
