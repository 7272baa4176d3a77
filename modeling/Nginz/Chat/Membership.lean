import Nginz.Chat.Sending
import Nginz.Chat.Plugs

/-! The room membership invariant: list entry, room pointer and state flag of a
connection say the same, whatever operations run at a worker. -/
namespace Nginz

/-- The three places that record the room of a connection agree. -/
structure Membership (w : Worker) : Prop where
  entry : ∀ t r, t ∈ w.users r ↔ ∃ c, w.chats t = some c ∧ c.callbackData = some r
  nodup : ∀ r, (w.users r).Nodup
  inRoom : ∀ t c, w.chats t = some c → c.state.inRoom = c.callbackData.isSome
  loggedIn : ∀ t c, w.chats t = some c → c.state.inRoom = true → c.state.loggedIn = true
  bound : ∀ r, (w.users r).length ≤ nginzMaxChatRoomUser

/-- What the invariant sees of a connection. -/
def ChatConnection.roomView (c : ChatConnection) : Option ℕ × Bool × Bool :=
  (c.callbackData, c.state.inRoom, c.state.loggedIn)

section Rooms
variable (w : Worker) (r : ℕ)

theorem users_setRoom_other {f : InternalRoom → InternalRoom} {s : ℕ} (h : s ≠ r) :
    (w.setRoom r f).users s = w.users s := by
  unfold Worker.users Worker.setRoom
  simp [Ne.symm h]

theorem users_setRoom_same (f : InternalRoom → InternalRoom) :
    (w.setRoom r f).users r = (w.rooms[r]?).elim [] fun room => (f room).userList := by
  unfold Worker.users Worker.setRoom
  cases hr : w.rooms[r]? <;> simp [hr]

/-- A change that leaves user lists alone. -/
theorem users_setRoom_keep {f : InternalRoom → InternalRoom}
    (hf : ∀ room, (f room).userList = room.userList) (s : ℕ) :
    (w.setRoom r f).users s = w.users s := by
  by_cases h : s = r
  · subst h
    rw [users_setRoom_same]
    unfold Worker.users
    cases w.rooms[s]? with
    | none => rfl
    | some room => exact hf room
  · exact users_setRoom_other w r h

variable (t : ℕ)

/-- A member after it left its room. -/
def ChatConnection.outside (c : ChatConnection) : ChatConnection :=
  { c with refs := c.refs - 1, callbackData := none, onResponseCallback := none,
           state := { c.state with inRoom := false } }

/-- A connection after it entered a room. -/
def ChatConnection.inside (r : ℕ) (c : ChatConnection) : ChatConnection :=
  { c with refs := c.refs + 1, callbackData := some r, onResponseCallback := some .broadcast,
           state := { c.state with inRoom := true } }

theorem exitRoom_eq (h : t ∈ w.users r) :
    exitRoom w t r = (w.setRoom r fun room =>
      { room with userList := room.userList.erase t }).setChat t ChatConnection.outside := by
  unfold exitRoom pruneUser
  rw [if_pos h]
  unfold Worker.setChat
  simp only [Function.update_self, Function.update_idem, Option.map_map]
  rfl

theorem exitRoom_users (h : t ∈ w.users r) (s : ℕ) :
    (exitRoom w t r).users s = if s = r then (w.users r).erase t else w.users s := by
  rw [exitRoom_eq w r t h]
  change (w.setRoom r _).users s = _
  split
  · rename_i hs
    subst hs
    rw [users_setRoom_same]
    unfold Worker.users
    cases w.rooms[s]? <;> rfl
  · rename_i hs
    exact users_setRoom_other w r hs

theorem exitRoom_same (h : t ∈ w.users r) :
    (exitRoom w t r).chats t = (w.chats t).map ChatConnection.outside := by
  rw [exitRoom_eq w r t h, Worker.setChat_same]
  rfl

theorem exitRoom_other (h : t ∈ w.users r) {u : ℕ} (hu : u ≠ t) :
    (exitRoom w t r).chats u = w.chats u := by
  rw [exitRoom_eq w r t h, Worker.setChat_other _ _ _ hu]
  rfl

theorem enterRoom_users (h : r < w.rooms.length) (s : ℕ) :
    (enterRoom w t r).users s = if s = r then w.users r ++ [t] else w.users s := by
  change (w.setRoom r _).users s = _
  split
  · rename_i hs
    subst hs
    rw [users_setRoom_same]
    unfold Worker.users
    rw [List.getElem?_eq_getElem h]
    rfl
  · rename_i hs
    exact users_setRoom_other w r hs

theorem enterRoom_same :
    (enterRoom w t r).chats t = (w.chats t).map (ChatConnection.inside r) := by
  unfold enterRoom
  rw [Worker.setChat_same]
  rfl

theorem enterRoom_other {u : ℕ} (hu : u ≠ t) : (enterRoom w t r).chats u = w.chats u := by
  unfold enterRoom
  rw [Worker.setChat_other _ _ _ hu]
  rfl

end Rooms

namespace Membership
variable {w w' : Worker}

/-- The invariant depends on the user lists and on what it sees of each connection. -/
theorem of_view (h : Membership w) (hu : ∀ r, w'.users r = w.users r)
    (hc : ∀ t, (w'.chats t).map ChatConnection.roomView =
      (w.chats t).map ChatConnection.roomView) : Membership w' := by
  have hback {t : ℕ} {c' : ChatConnection} (hs : w'.chats t = some c') :
      ∃ c, w.chats t = some c ∧ c.roomView = c'.roomView := by
    have ht := hc t
    rw [hs] at ht
    exact Option.map_eq_some_iff.mp ht.symm
  constructor
  · intro t r
    rw [hu, h.entry]
    constructor
    · rintro ⟨c, hs, hr⟩
      have ht := hc t
      rw [hs] at ht
      obtain ⟨c', hs', hv⟩ := Option.map_eq_some_iff.mp ht
      exact ⟨c', hs', by rw [← hr]; exact congrArg Prod.fst hv⟩
    · rintro ⟨c', hs, hr⟩
      obtain ⟨c, hs', hv⟩ := hback hs
      exact ⟨c, hs', by rw [← hr]; exact congrArg Prod.fst hv⟩
  · intro r
    rw [hu]
    exact h.nodup r
  · intro t c' hs
    obtain ⟨c, hs', hv⟩ := hback hs
    simp only [ChatConnection.roomView, Prod.mk.injEq] at hv
    rw [← hv.1, ← hv.2.1]
    exact h.inRoom t c hs'
  · intro t c' hs hin
    obtain ⟨c, hs', hv⟩ := hback hs
    simp only [ChatConnection.roomView, Prod.mk.injEq] at hv
    rw [← hv.2.2]
    exact h.loggedIn t c hs' (by rw [hv.2.1]; exact hin)
  · intro r
    rw [hu]
    exact h.bound r

theorem onlySends {W : World} (h : Membership w) (hs : OnlySends W w w') : Membership w' := by
  refine h.of_view hs.users_eq fun t => ?_
  obtain ⟨error, soft, hm⟩ := hs.marked t
  rw [hm, Option.map_map]
  rfl

/-- A change of one connection that keeps what the invariant sees. -/
theorem setChat (h : Membership w) (t : ℕ) {f : ChatConnection → ChatConnection}
    (hf : ∀ c, (f c).roomView = c.roomView) : Membership (w.setChat t f) := by
  refine h.of_view (fun r => rfl) fun u => ?_
  by_cases hu : u = t
  · subst hu
    rw [w.setChat_same, Option.map_map]
    congr 1
    funext c
    exact hf c
  · rw [w.setChat_other t f hu]

/-- Logging in, or logging out outside any room. -/
theorem setLoggedIn (h : Membership w) (t : ℕ) {f : ChatConnection → ChatConnection}
    (hf : ∀ c, (f c).callbackData = c.callbackData ∧ (f c).state.inRoom = c.state.inRoom)
    (hin : ∀ c, w.chats t = some c → c.state.inRoom = true → (f c).state.loggedIn = true) :
    Membership (w.setChat t f) := by
  have hback {u : ℕ} {c' : ChatConnection} (hs : (w.setChat t f).chats u = some c') :
      ∃ c, w.chats u = some c ∧ c'.callbackData = c.callbackData ∧
        c'.state.inRoom = c.state.inRoom ∧ (c'.state.inRoom = true → c'.state.loggedIn = true) := by
    by_cases hu : u = t
    · subst hu
      rw [w.setChat_same] at hs
      obtain ⟨c, hc, rfl⟩ := Option.map_eq_some_iff.mp hs
      refine ⟨c, hc, (hf c).1, (hf c).2, fun hr => hin c hc ?_⟩
      rw [← (hf c).2]
      exact hr
    · rw [w.setChat_other t f hu] at hs
      exact ⟨c', hs, rfl, rfl, h.loggedIn u c' hs⟩
  constructor
  · intro u r
    change u ∈ w.users r ↔ _
    rw [h.entry]
    constructor
    · rintro ⟨c, hc, hr⟩
      by_cases hu : u = t
      · subst hu
        exact ⟨f c, by rw [w.setChat_same, hc]; rfl, by rw [(hf c).1, hr]⟩
      · exact ⟨c, by rw [w.setChat_other t f hu, hc], hr⟩
    · rintro ⟨c', hs, hr⟩
      obtain ⟨c, hc, hd, -⟩ := hback hs
      exact ⟨c, hc, by rw [← hd, hr]⟩
  · exact h.nodup
  · intro u c' hs
    obtain ⟨c, hc, hd, hi, -⟩ := hback hs
    rw [hi, hd]
    exact h.inRoom u c hc
  · intro u c' hs hr
    obtain ⟨c, hc, -, -, hl⟩ := hback hs
    exact hl hr
  · exact h.bound

/-- A connection that leaves its room. -/
theorem exitRoom (h : Membership w) {t r : ℕ} {c : ChatConnection} (hc : w.chats t = some c)
    (hr : c.callbackData = some r) : Membership (exitRoom w t r) := by
  have ht : t ∈ w.users r := (h.entry t r).mpr ⟨c, hc, hr⟩
  have hgone : (Nginz.exitRoom w t r).chats t = some c.outside := by
    rw [exitRoom_same w r t ht, hc]
    rfl
  constructor
  · intro u s
    rw [exitRoom_users w r t ht]
    by_cases hu : u = t
    · subst hu
      constructor
      · intro hm
        split at hm
        · exact absurd hm (h.nodup r).not_mem_erase
        · rename_i hs
          obtain ⟨c', hc', hr'⟩ := (h.entry u s).mp hm
          rw [hc, Option.some.injEq] at hc'
          rw [← hc', hr, Option.some.injEq] at hr'
          exact absurd hr'.symm hs
      · rintro ⟨c', hc', hr'⟩
        rw [hgone, Option.some.injEq] at hc'
        rw [← hc'] at hr'
        simp [ChatConnection.outside] at hr'
    · rw [exitRoom_other w r t ht hu, ← h.entry]
      split
      · rename_i hs
        rw [hs, List.mem_erase_of_ne hu]
      · rfl
  · intro s
    rw [exitRoom_users w r t ht]
    split
    · exact (h.nodup r).erase t
    · exact h.nodup s
  · intro u c' hc'
    by_cases hu : u = t
    · subst hu
      rw [hgone, Option.some.injEq] at hc'
      rw [← hc']
      rfl
    · rw [exitRoom_other w r t ht hu] at hc'
      exact h.inRoom u c' hc'
  · intro u c' hc' hin
    by_cases hu : u = t
    · subst hu
      rw [hgone, Option.some.injEq] at hc'
      rw [← hc'] at hin
      simp [ChatConnection.outside] at hin
    · rw [exitRoom_other w r t ht hu] at hc'
      exact h.loggedIn u c' hc' hin
  · intro s
    rw [exitRoom_users w r t ht]
    split
    · exact (List.length_erase_le).trans (h.bound r)
    · exact h.bound s

/-- A logged-in connection without a room that enters one with room left. -/
theorem enterRoom (h : Membership w) {t r : ℕ} {c : ChatConnection} (hc : w.chats t = some c)
    (hr : c.callbackData = none) (hl : c.state.loggedIn = true) (hrm : r < w.rooms.length)
    (hb : (w.users r).length < nginzMaxChatRoomUser) : Membership (Nginz.enterRoom w t r) := by
  have hout : ∀ s, t ∉ w.users s := by
    intro s hm
    obtain ⟨c', hc', hr'⟩ := (h.entry t s).mp hm
    rw [hc, Option.some.injEq] at hc'
    rw [← hc', hr] at hr'
    exact absurd hr' (by simp)
  have hin : (Nginz.enterRoom w t r).chats t = some (c.inside r) := by
    rw [enterRoom_same, hc]
    rfl
  constructor
  · intro u s
    rw [enterRoom_users w r t hrm]
    by_cases hu : u = t
    · subst hu
      constructor
      · intro hm
        split at hm
        · rename_i hs
          exact ⟨c.inside r, hin, by rw [hs]; rfl⟩
        · exact absurd hm (hout s)
      · rintro ⟨c', hc', hr'⟩
        rw [hin, Option.some.injEq] at hc'
        rw [← hc'] at hr'
        obtain rfl : r = s := Option.some.inj hr'
        simp
    · rw [enterRoom_other w r t hu, ← h.entry]
      split
      · rename_i hs
        simp [hs, hu]
      · rfl
  · intro s
    rw [enterRoom_users w r t hrm]
    split
    · rw [List.nodup_append]
      refine ⟨h.nodup r, List.nodup_singleton t, fun a ha b hb hab => ?_⟩
      rw [List.mem_singleton.mp hb] at hab
      exact hout r (hab ▸ ha)
    · exact h.nodup s
  · intro u c' hc'
    by_cases hu : u = t
    · subst hu
      rw [hin, Option.some.injEq] at hc'
      rw [← hc']
      rfl
    · rw [enterRoom_other w r t hu] at hc'
      exact h.inRoom u c' hc'
  · intro u c' hc' hroom
    by_cases hu : u = t
    · subst hu
      rw [hin, Option.some.injEq] at hc'
      rw [← hc']
      exact hl
    · rw [enterRoom_other w r t hu] at hc'
      exact h.loggedIn u c' hc' hroom
  · intro s
    rw [enterRoom_users w r t hrm]
    split
    · rw [List.length_append, List.length_singleton]
      exact hb
    · exact h.bound s

end Membership
end Nginz
