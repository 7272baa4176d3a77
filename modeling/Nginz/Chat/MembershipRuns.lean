import Nginz.Chat.Membership
import Nginz.Chat.Routine

/-! The membership invariant over runs: every operation on connections keeps it, and a
broadcast reaches each other member once. -/
namespace Nginz

/-! ### Leaving -/

def Worker.names (w : Worker) : List Bytes := w.rooms.map InternalRoom.name

theorem roomName_eq_names (w : Worker) (r : ℕ) : w.roomName r = (w.names[r]?).getD [] := by
  unfold Worker.roomName Worker.names
  rw [List.getElem?_map]
  cases w.rooms[r]? <;> rfl

theorem names_length (w : Worker) : w.names.length = w.rooms.length := by
  simp [Worker.names]

/-- What a change of a room keeps. -/
theorem map_setRoom {β : Type*} {g : InternalRoom → β} (w : Worker) (r : ℕ)
    {f : InternalRoom → InternalRoom} (hf : ∀ room, g (f room) = g room) :
    (w.setRoom r f).rooms.map g = w.rooms.map g := by
  unfold Worker.setRoom
  apply List.ext_getElem?
  intro s
  simp only [List.getElem?_map, List.getElem?_modify]
  cases w.rooms[s]? with
  | none => rfl
  | some room =>
    simp only [Option.map_some]
    split <;> simp [hf]

theorem names_setRoom (w : Worker) (r : ℕ) {f : InternalRoom → InternalRoom}
    (hf : ∀ room, (f room).name = room.name) : (w.setRoom r f).names = w.names :=
  map_setRoom w r hf

/-- The calls of `chat_room_set_user_count`. -/
def countCalls (L : TxtLib) (room : Bytes) (n d : ℤ) : List DbCall :=
  if room = [] then [] else [.increment (-1) none (roomUserKey L room) n d]

theorem setUserCount_eq (W : World) (w : Worker) (room : Bytes) (n d : ℤ) :
    chatRoomSetUserCount W w room n d =
      { w with calls := w.calls ++ countCalls W.txt room n d } := by
  unfold chatRoomSetUserCount countCalls
  split
  · simp
  · rfl

/-- What leaving room `r` does to the rooms and asks of the store. -/
structure Left (L : TxtLib) (w w' : Worker) (t r : ℕ) : Prop where
  users : ∀ s, w'.users s = if s = r then (w.users r).erase t else w.users s
  names : w'.names = w.names
  calls : w'.calls =
    w.calls ++ countCalls L (w.roomName r) (((w.users r).erase t).length + 1) (-1)
  gone : ∀ c, w'.chats t = some c → c.callbackData = none

section Leave
variable (W : World) (w : Worker) (t : ℕ)

theorem broadcastRoomLeave_outside (h : (w.chat t).callbackData = none) :
    broadcastRoomLeave W w t = w := by
  unfold broadcastRoomLeave
  rw [h]

/-- Leaving a room: some sends, the exit, and the request for the count. -/
theorem broadcastRoomLeave_inside {r : ℕ} (h : (w.chat t).callbackData = some r) :
    ∃ v, OnlySends W (w.assert (w.chat t).state.inRoom) v ∧
      broadcastRoomLeave W w t = chatRoomSetUserCount W (exitRoom v t r)
        ((exitRoom v t r).roomName r) (((exitRoom v t r).users r).length + 1) (-1) := by
  refine ⟨_, onlySends_bye W (w.assert (w.chat t).state.inRoom) t r, ?_⟩
  unfold broadcastRoomLeave
  rw [h]

end Leave

namespace Membership
variable {w w' : Worker} (W : World)

/-- Connections and rooms untouched. -/
theorem of_same (h : Membership w) (hc : w'.chats = w.chats) (hr : w'.rooms = w.rooms) :
    Membership w' := by
  refine h.of_view (fun r => ?_) fun t => by rw [hc]
  unfold Worker.users
  rw [hr]

theorem setUserCount (h : Membership w) (room : Bytes) (n d : ℤ) :
    Membership (chatRoomSetUserCount W w room n d) := by
  rw [setUserCount_eq]
  exact h.of_same rfl rfl

/-- A member of a room leaves it and keeps the invariant. -/
theorem left (h : Membership w) {t r : ℕ} {c : ChatConnection} (hc : w.chats t = some c)
    (hr : c.callbackData = some r) :
    Membership (broadcastRoomLeave W w t) ∧ Left W.txt w (broadcastRoomLeave W w t) t r := by
  have hcb : (w.chat t).callbackData = some r := by rwa [w.chat_of_some t hc]
  obtain ⟨v, hs, hl⟩ := broadcastRoomLeave_inside W w t hcb
  have hv : Membership v := (h.of_same rfl rfl : Membership (w.assert _)).onlySends hs
  obtain ⟨error, soft, hvc⟩ := hs.chats_some hc
  have hvr : (c.mark error soft).callbackData = some r := hr
  have ht : t ∈ v.users r := (hv.entry t r).mpr ⟨_, hvc, hvr⟩
  have husers (s : ℕ) : (Nginz.exitRoom v t r).users s =
      if s = r then (w.users r).erase t else w.users s := by
    rw [exitRoom_users v r t ht, hs.users_eq, hs.users_eq]
    rfl
  have hnames : (Nginz.exitRoom v t r).names = w.names := by
    have hrooms : v.names = w.names := by
      unfold Worker.names
      rw [hs.rooms_eq]
      rfl
    rw [exitRoom_eq v r t ht, ← hrooms]
    exact names_setRoom v r fun _ => rfl
  have hcalls : (Nginz.exitRoom v t r).calls = w.calls := by
    rw [exitRoom_eq v r t ht]
    exact hs.calls_eq
  rw [hl]
  constructor
  · exact (hv.exitRoom hvc hvr).setUserCount W _ _ _
  · rw [setUserCount_eq, roomName_eq_names, hnames, husers, if_pos rfl, ← roomName_eq_names]
    refine ⟨husers, hnames, by rw [← hcalls], ?_⟩
    intro c' hc'
    have hout : (Nginz.exitRoom v t r).chats t = some c' := hc'
    rw [exitRoom_same v r t ht, hvc] at hout
    obtain rfl := Option.some.inj hout
    rfl

/-- After a leave the connection is in no room. -/
theorem leave (h : Membership w) (t : ℕ) :
    Membership (broadcastRoomLeave W w t) ∧
      ∀ c, (broadcastRoomLeave W w t).chats t = some c → c.callbackData = none := by
  cases hcb : (w.chat t).callbackData with
  | none =>
    rw [broadcastRoomLeave_outside W w t hcb]
    refine ⟨h, fun c hc => ?_⟩
    rwa [w.chat_of_some t hc] at hcb
  | some r =>
    obtain ⟨c, hc, hcb⟩ := Worker.callbackData_some hcb
    obtain ⟨hm, hl⟩ := h.left W hc hcb
    exact ⟨hm, hl.gone⟩

theorem setRefs (h : Membership w) (r : ℕ) (f : ℕ → ℕ) :
    Membership (w.setRoom r fun room => { room with refs := f room.refs }) :=
  h.of_view (users_setRoom_keep w r fun _ => rfl) fun _ => rfl

end Membership

/-! ### Joining -/

/-- A connection about to enter room `rm`: outside every room and logged in. -/
structure Ready (w v : Worker) (t rm : ℕ) : Prop where
  outside : ∃ c, v.chats t = some c ∧ c.callbackData = none ∧ c.state.loggedIn = true
  users : v.users rm = w.users rm
  names : v.names = w.names

section Join
variable (W : World) {w : Worker} {t rm : ℕ}

/-- A join of another room leaves the old one first, if there is one. -/
theorem settle_enters (h : Membership w) {c : ChatConnection} (hc : w.chats t = some c)
    (hl : c.state.loggedIn = true) (hne : c.callbackData ≠ some rm) :
    ∃ v b, (v = w ∨ v = broadcastRoomLeave W (w.assert c.state.inRoom) t) ∧ Ready w v t rm ∧
      settleInRoom W w t rm = enterRoom (v.assert b) t rm := by
  unfold settleInRoom
  rw [w.chat_of_some t hc, if_neg hne]
  cases hr : c.callbackData with
  | none =>
    exact ⟨w, _, Or.inl rfl, ⟨⟨c, hc, hr, hl⟩, rfl, rfl⟩, by simp; rfl⟩
  | some r =>
    have hrm : rm ≠ r := fun he => hne (by rw [hr, he])
    have ha : Membership (w.assert c.state.inRoom) := h.of_same rfl rfl
    obtain ⟨-, hleft⟩ := ha.left W hc hr
    obtain ⟨c', hc', hf⟩ := (routine_leave W (w.assert c.state.inRoom) t).chats_some hc
    refine ⟨_, _, Or.inr rfl, ⟨⟨c', hc', hleft.gone c' hc', by rw [hf.loggedIn, hl]⟩, ?_,
      hleft.names⟩, by simp; rfl⟩
    rw [hleft.users rm, if_neg hrm]
    rfl

theorem names_of_onlySends {w' : Worker} (h : OnlySends W w w') : w'.names = w.names := by
  unfold Worker.names
  rw [h.rooms_eq]

/-- What follows the entry: some sends, and the request for the count. -/
theorem announceJoin_eq (w : Worker) (t rm : ℕ) :
    ∃ v, v.chats = w.chats ∧ v.calls = w.calls ∧ v.pid = w.pid ∧
    v.names = w.names ∧ (∀ r, v.users r = w.users r) ∧ ∃ v', OnlySends W v v' ∧
      announceJoin W w t rm = { v' with
        calls := v'.calls ++ countCalls W.txt (w.roomName rm) ((w.users rm).length - 1) 1 } := by
  let v := (w.assert (w.chat t).callbackData.isSome).setRoom rm fun room =>
    { room with refs := room.refs - 1 }
  have husers : ∀ r, v.users r = w.users r :=
    users_setRoom_keep (w.assert (w.chat t).callbackData.isSome) rm fun _ => rfl
  have hnames : v.names = w.names :=
    names_setRoom (w.assert (w.chat t).callbackData.isSome) rm fun _ => rfl
  have hs : OnlySends W v (broadcastRoomGreet W v t rm) := onlySends_greet W v t rm
  refine ⟨v, rfl, rfl, rfl, hnames, husers, _, hs, ?_⟩
  have hn : (broadcastRoomGreet W v t rm).roomName rm = w.roomName rm := by
    rw [roomName_eq_names, names_of_onlySends W hs, hnames, ← roomName_eq_names]
  have hu : (broadcastRoomGreet W v t rm).users rm = w.users rm := by rw [hs.users_eq, husers]
  rw [← hn, ← hu, ← setUserCount_eq]
  rfl

end Join

namespace Membership
variable {w : Worker} (W : World)

theorem announce (h : Membership w) (t rm : ℕ) : Membership (announceJoin W w t rm) := by
  obtain ⟨v, hc, -, -, -, hu, v', hs, he⟩ := announceJoin_eq W w t rm
  have hv : Membership v := h.of_view hu fun u => by rw [hc]
  rw [he]
  exact (hv.onlySends hs).of_same rfl rfl

theorem settle (h : Membership w) {t rm : ℕ} {c : ChatConnection} (hc : w.chats t = some c)
    (hl : c.state.loggedIn = true) (hrm : rm < w.rooms.length)
    (hb : (w.users rm).length < nginzMaxChatRoomUser) : Membership (settleInRoom W w t rm) := by
  by_cases hin : c.callbackData = some rm
  · unfold settleInRoom
    rw [w.chat_of_some t hc, if_pos hin]
    exact h.of_same rfl rfl
  obtain ⟨v, b, hv, hready, he⟩ := settle_enters W h hc hl hin
  have hm : Membership v := by
    rcases hv with rfl | rfl
    · exact h
    · exact ((h.of_same rfl rfl : Membership (w.assert _)).leave W t).1
  have ha : Membership (v.assert b) := hm.of_same rfl rfl
  obtain ⟨c', hc', hr', hl'⟩ := hready.outside
  have hlen : rm < v.rooms.length := by
    rw [← names_length, hready.names, names_length]
    exact hrm
  have hroom : ((v.assert b).users rm).length < nginzMaxChatRoomUser := by
    change (v.users rm).length < _
    rwa [hready.users]
  rw [he]
  exact ha.enterRoom hc' hr' hl' hlen hroom

/-- Whatever a join comes to, it keeps the invariant. -/
theorem join (h : Membership w) (t : ℕ) (room : Bytes) :
    Membership (broadcastRoomJoin W w t room).1 := by
  unfold broadcastRoomJoin
  split
  · exact h
  rename_i hlogin
  split
  · exact h
  rename_i rm hrm
  dsimp only
  have hfound := h.setRefs rm (· + 1)
  split
  · exact hfound.onlySends (onlySends_joinFailed W _ t)
  rename_i hfull
  apply Membership.announce
  obtain ⟨c, hc, hlogin⟩ := Worker.loggedIn_some (by simpa using hlogin)
  refine hfound.settle W (c := c) hc hlogin ?_ (not_le.mp hfull)
  have hlt := W.oppSearch_lt _ _ _ hrm
  simpa [Worker.setRoom] using hlt

end Membership
end Nginz
