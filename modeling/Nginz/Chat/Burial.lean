import Nginz.Chat.Routine

/-! What the end of a connection leaves as it was: the other connections, the zombie list and
the greeting buffer. -/
namespace Nginz

/-- What counts of a connection in the zombie list. -/
def ChatConnection.grave (c : ChatConnection) : ℕ × Bool := (c.quitedAt, c.state.zombie)

/-- The second worker is the first one after the end of connection `t`, which stays a zombie
if it was one. -/
structure Burying (t : ℕ) (w w' : Worker) : Prop where
  list : w'.zombieList = w.zombieList
  greet : w'.greetOnLogin = w.greetOnLogin
  others : ∀ u, u ≠ t → (w'.chats u).map ChatConnection.grave = (w.chats u).map ChatConnection.grave
  zombie : ∀ c', w'.chats t = some c' →
    ∃ c, w.chats t = some c ∧ c'.state.zombie = c.state.zombie

namespace Burying
variable {W : World} {t : ℕ} {w w' w'' : Worker}

theorem of_same (hl : w'.zombieList = w.zombieList) (hg : w'.greetOnLogin = w.greetOnLogin)
    (hc : w'.chats = w.chats) : Burying t w w' where
  list := hl
  greet := hg
  others u _ := by rw [hc]
  zombie c' hc' := ⟨c', by rwa [hc] at hc', rfl⟩

protected theorem refl (w : Worker) : Burying t w w := of_same rfl rfl rfl

protected theorem trans (h : Burying t w w') (h' : Burying t w' w'') : Burying t w w'' where
  list := h'.list.trans h.list
  greet := h'.greet.trans h.greet
  others u hu := (h'.others u hu).trans (h.others u hu)
  zombie c'' hc'' := by
    obtain ⟨c', hc', hz'⟩ := h'.zombie c'' hc''
    obtain ⟨c, hc, hz⟩ := h.zombie c' hc'
    exact ⟨c, hc, hz'.trans hz⟩

theorem setChat {f : ChatConnection → ChatConnection}
    (hf : ∀ c, (f c).state.zombie = c.state.zombie) : Burying t w (w.setChat t f) where
  list := rfl
  greet := rfl
  others u hu := by rw [w.setChat_other t f hu]
  zombie c' hc' := by
    rw [w.setChat_same, Option.map_eq_some_iff] at hc'
    obtain ⟨c, hc, rfl⟩ := hc'
    exact ⟨c, hc, hf c⟩

theorem of_onlySends (h : OnlySends W w w') : Burying t w w' where
  list := by rw [← h.frame]
  greet := by rw [← h.frame]
  others u _ := by
    obtain ⟨error, soft, hu⟩ := h.marked u
    rw [hu, Option.map_map]
    rfl
  zombie c' hc' := by
    obtain ⟨error, soft, ht⟩ := h.marked t
    rw [ht, Option.map_eq_some_iff] at hc'
    obtain ⟨c, hc, rfl⟩ := hc'
    exact ⟨c, hc, rfl⟩

theorem of_if {p : Prop} [Decidable p] (h : Burying t w w') :
    Burying t w (if p then w' else w) := by
  split
  · exact h
  · exact .refl w

end Burying

section End
variable (W : World) (w : Worker) (t : ℕ)

theorem burying_exit (rm : ℕ) : Burying t w (exitRoom w t rm) := by
  have hprune : Burying t w (pruneUser w t rm) := by
    unfold pruneUser
    split
    · have hlist : Burying t w (w.setRoom rm fun room =>
          { room with userList := room.userList.erase t }) := .of_same rfl rfl rfl
      exact hlist.trans (.setChat fun _ => rfl)
    · exact .refl w
  exact hprune.trans (.setChat fun _ => rfl)

theorem burying_leave : Burying t w (broadcastRoomLeave W w t) := by
  have hcount (v : Worker) (room : Bytes) (n d : ℤ) :
      Burying t v (chatRoomSetUserCount W v room n d) := by
    unfold chatRoomSetUserCount
    split
    · exact .refl v
    · exact .of_same rfl rfl rfl
  unfold broadcastRoomLeave
  split
  · exact .refl w
  · rename_i rm _
    have hassert : Burying t w (w.assert (w.chat t).state.inRoom) := .of_same rfl rfl rfl
    have hbye := hassert.trans (.of_onlySends (onlySends_bye W _ t rm))
    exact (hbye.trans (burying_exit _ t rm)).trans (hcount ..)

theorem burying_logoff : Burying t w (logoffUser W w t) := by
  unfold logoffUser
  split
  · exact .refl w
  · have hcall : Burying t w (w.call (.unset (-1) none (buildNameKey W.txt (w.chat t).name))) :=
      .of_same rfl rfl rfl
    exact hcall.trans (.setChat fun _ => rfl)

theorem burying_release : Burying t w (releaseFd w t) := by
  unfold releaseFd
  split
  · have hunregister : Burying t w (w.eventLoopUnregisterFd (w.chat t).fd t) := .of_same rfl rfl rfl
    have hclose (v : Worker) : Burying t v (v.closeFd (w.chat t).fd t) := .of_same rfl rfl rfl
    exact (hunregister.trans (.of_if (hclose _))).trans (.setChat fun _ => rfl)
  · exact .refl w

theorem burying_close : Burying t w (defaultChatClose W w t) := by
  unfold defaultChatClose
  have hquited : Burying t w
      (if (w.chat t).quitedAt = 0 then w.setChat t fun c => { c with quitedAt := w.clock }
        else w) :=
    .of_if (.setChat fun _ => rfl)
  refine Burying.trans ?_ (burying_release _ t)
  refine Burying.trans ?_ (.of_if (burying_logoff W _ t))
  refine Burying.trans ?_ (.of_if (burying_leave W _ t))
  exact hquited.trans (.of_if (.setChat fun _ => rfl))

theorem burying_unref : Burying t w (oppUnref W w t) := by
  unfold oppUnref
  split
  · exact .refl w
  split
  · have hfree (v : Worker) : Burying t v { v with chats := Function.update v.chats t none } := by
      constructor
      · rfl
      · rfl
      · intro u hu
        exact congrArg _ (Function.update_of_ne hu ..)
      · intro c' hc'
        have hnone : Function.update v.chats t none t = some c' := hc'
        rw [Function.update_self] at hnone
        cases hnone
    exact (burying_close W w t).trans (hfree _)
  · exact .setChat fun _ => rfl

end End

end Nginz
