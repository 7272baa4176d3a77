import Nginz.Chat.Routine
import Nginz.Chat.Keys

/-! What the end of a client shows: registrations go and none comes, and nobody is told
anything else than that the client has left. -/
namespace Nginz

def byePrefix : Bytes := lit "\t* user has left chat:"

/-- The second worker is the first one after it parted from a client. -/
structure Parting (w w' : Worker) : Prop where
  eventLoop : w'.eventLoop.Sublist w.eventLoop
  byes : ∃ byes, w'.sends = w.sends ++ byes ∧ ∀ m ∈ byes, byePrefix <+: m.2

namespace Parting
variable {w w' w'' : Worker}

theorem of_same (hl : w'.eventLoop = w.eventLoop) (hs : w'.sends = w.sends) : Parting w w' where
  eventLoop := by rw [hl]
  byes := ⟨[], by rw [hs, List.append_nil], fun m hm => absurd hm List.not_mem_nil⟩

protected theorem refl (w : Worker) : Parting w w := of_same rfl rfl

protected theorem trans (h : Parting w w') (h' : Parting w' w'') : Parting w w'' where
  eventLoop := h'.eventLoop.trans h.eventLoop
  byes := by
    obtain ⟨bs, hbs, hall⟩ := h.byes
    obtain ⟨bs', hbs', hall'⟩ := h'.byes
    refine ⟨bs ++ bs', by rw [hbs', hbs, List.append_assoc], fun m hm => ?_⟩
    exact (List.mem_append.mp hm).elim (hall m) (hall' m)

theorem sends_grow (h : Parting w w') : w.sends <+: w'.sends := by
  obtain ⟨bs, hbs, -⟩ := h.byes
  exact ⟨bs, hbs.symm⟩

end Parting

variable (W : World) (w : Worker) (t : ℕ)

/-- The users of the room are told. -/
theorem parting_leave : Parting w (broadcastRoomLeave W w t) where
  eventLoop := by rw [(routine_leave W w t).eventLoop_eq]
  byes := by
    have hexit (v : Worker) (rm : ℕ) : (exitRoom v t rm).sends = v.sends := by
      unfold exitRoom pruneUser
      split <;> rfl
    have hcount (v : Worker) (room : Bytes) (n d : ℤ) :
        (chatRoomSetUserCount W v room n d).sends = v.sends := by
      unfold chatRoomSetUserCount
      split <;> rfl
    unfold broadcastRoomLeave
    split
    · exact (Parting.refl w).byes
    · dsimp only
      unfold broadcastRoomBye
      rw [hcount, hexit, broadcastCallbackHelper_sends]
      refine ⟨_, rfl, fun m hm => ?_⟩
      obtain ⟨u, -, rfl⟩ := List.mem_map.mp hm
      exact compose_head W.txt _ (by decide)

theorem parting_logoff : Parting w (logoffUser W w t) := by
  unfold logoffUser
  split
  · exact .refl w
  · exact .of_same rfl rfl

theorem parting_release : Parting w (releaseFd w t) := by
  unfold releaseFd
  split
  · constructor
    · dsimp only
      split <;> exact List.eraseP_sublist
    · dsimp only
      split <;> exact (Parting.refl w).byes
  · exact .refl w

theorem parting_close : Parting w (defaultChatClose W w t) := by
  have hif (p : Prop) [Decidable p] {v v' : Worker} (h : Parting v v') :
      Parting v (if p then v' else v) := by
    split
    · exact h
    · exact .refl v
  unfold defaultChatClose
  refine Parting.trans ?_ (parting_release _ t)
  refine Parting.trans ?_ (hif _ (parting_logoff W _ t))
  refine Parting.trans ?_ (hif _ (parting_leave W _ t))
  refine Parting.trans ?_ (hif _ (.of_same rfl rfl))
  exact hif _ (.of_same rfl rfl)

theorem parting_zombieAdd : Parting w (chatZombieAdd w t) := by
  unfold chatZombieAdd
  split
  · exact .refl w
  · exact .of_same rfl rfl

theorem parting_closeClient : Parting w (closeClient W w t) :=
  (parting_close W w t).trans (parting_zombieAdd _ t)

/-- Dropping a reference ends the client at most. -/
theorem parting_unref : Parting w (oppUnref W w t) := by
  unfold oppUnref
  split
  · exact .refl w
  split
  · exact (parting_close W w t).trans (.of_same rfl rfl)
  · exact .of_same rfl rfl

end Nginz
