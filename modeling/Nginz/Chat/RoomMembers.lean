import Nginz.Chat.MemberActions

/-! Room membership over whole runs of a worker, and who a broadcast reaches. -/
namespace Nginz
namespace Membership
variable {w : Worker} (h : Membership w)
include h

/-- A connection has one entry at most over all rooms. -/
theorem entries_nodup : (w.rooms.flatMap InternalRoom.userList).Nodup := by
  have husers (r : ℕ) (hr : r < w.rooms.length) : w.users r = w.rooms[r].userList := by
    unfold Worker.users
    rw [List.getElem?_eq_getElem hr]
    rfl
  rw [List.nodup_flatMap]
  constructor
  · intro room hroom
    obtain ⟨r, hr, rfl⟩ := List.getElem_of_mem hroom
    rw [← husers r hr]
    exact h.nodup r
  · rw [List.pairwise_iff_getElem]
    intro r s hr hs hrs t htr hts
    rw [← husers r hr, h.entry] at htr
    rw [← husers s hs, h.entry] at hts
    obtain ⟨c, hc, hcr⟩ := htr
    obtain ⟨d, hd, hds⟩ := hts
    rw [hc, Option.some.injEq] at hd
    rw [← hd, hcr, Option.some.injEq] at hds
    omega

/-- The message of a member goes to the other members of its room, once each, and is written to
those of them that hear. -/
theorem broadcast_written (W : World) {t r : ℕ} {c : ChatConnection} (hc : w.chats t = some c)
    (hr : c.callbackData = some r) (msg : Bytes) :
    ∃ users : List ℕ, (broadcastCallback W w t msg).sends = w.sends ++ users.map (fun u =>
        (u, compose W.txt (nginzMaxChatUserNameSize + nginzMaxChatMsgSize)
          [c.name, lit ":", msg])) ∧
      (broadcastCallback W w t msg).fdLog =
        w.fdLog ++ (users.filter w.hears).map (fun u => .write (w.chat u).fd u) ∧
      users.Nodup ∧
      ∀ u, u ∈ users ↔ u ≠ t ∧ ∃ d, w.chats u = some d ∧ d.callbackData = some r := by
  refine ⟨(w.users r).filter fun u => some t ≠ some u, ?_, ?_, (h.nodup r).filter _, ?_⟩
  · unfold broadcastCallback
    rw [w.chat_of_some t hc, hr]
    exact broadcastCallbackHelper_sends W w (some t) r _
  · unfold broadcastCallback
    rw [w.chat_of_some t hc, hr]
    exact broadcastCallbackHelper_fdLog W w (some t) (h.nodup r) _
  · intro u
    rw [List.mem_filter, h.entry]
    simp only [ne_eq, Option.some.injEq, decide_not, Bool.not_eq_eq_eq_not, Bool.not_true,
      decide_eq_false_iff_not]
    constructor
    · exact fun ⟨hd, hu⟩ => ⟨Ne.symm hu, hd⟩
    · exact fun ⟨hu, hd⟩ => ⟨hd, Ne.symm hu⟩

/-- The message of a member goes to the other members of its room, once each. -/
theorem broadcast_sends (W : World) {t r : ℕ} {c : ChatConnection} (hc : w.chats t = some c)
    (hr : c.callbackData = some r) (msg : Bytes) :
    ∃ users : List ℕ, (broadcastCallback W w t msg).sends = w.sends ++ users.map (fun u =>
        (u, compose W.txt (nginzMaxChatUserNameSize + nginzMaxChatMsgSize)
          [c.name, lit ":", msg])) ∧
      users.Nodup ∧
      ∀ u, u ∈ users ↔ u ≠ t ∧ ∃ d, w.chats u = some d ∧ d.callbackData = some r :=
  let ⟨users, hsends, _, hmem⟩ := h.broadcast_written W hc hr msg
  ⟨users, hsends, hmem⟩

end Membership

/-- A worker that only added its rooms. -/
theorem start_membership (L : TxtLib) (pid : ℤ) (myRooms : List Bytes) (clock : ℕ) :
    Membership (.start L pid myRooms clock) ∧
      (Worker.start L pid myRooms clock).chats = fun _ => none := by
  have hempty {w : Worker} (hc : w.chats = fun _ => none)
    (hu : ∀ room ∈ w.rooms, room.userList = []) :
      Membership w := by
    have husers (r : ℕ) : w.users r = [] := by
      unfold Worker.users
      cases hr : w.rooms[r]? with
      | none => rfl
      | some room => exact hu room (List.mem_of_getElem? hr)
    constructor
    · intro t r
      simp [husers, hc]
    · intro r
      simp [husers]
    · intro t c h
      simp [hc] at h
    · intro t c h
      simp [hc] at h
    · intro r
      simp [husers]
  have hrun : (Worker.start L pid myRooms clock).chats = (fun _ => none) ∧
      ∀ room ∈ (Worker.start L pid myRooms clock).rooms, room.userList = [] := by
    unfold Worker.start
    apply Transition.run_invariant (P := fun w : Worker =>
      w.chats = (fun _ => none) ∧ ∀ room ∈ w.rooms, room.userList = [])
    · rintro w myRoom ⟨hc, hu⟩
      unfold chatRoomAddHelper broadcastAddRoom
      dsimp only
      split
      · exact ⟨hc, hu⟩
      · refine ⟨hc, fun room hroom => ?_⟩
        rcases List.mem_append.mp hroom with hold | hnew
        · exact hu room hold
        · obtain rfl := List.mem_singleton.mp hnew
          rfl
    · exact ⟨rfl, by simp [Worker.fresh]⟩
  exact ⟨hempty hrun.1 hrun.2, hrun.1⟩

theorem membership_invariant (W : World) : RoomInvariant W Membership where
  membership h := h
  congr _ h _ _ _ := h
  call h _ := h.of_same rfl rfl
  leave h t := (h.leave W t).1
  join h t room := h.join W t room

/-- However connections are made, answered, moved and ended: list entries, room pointers
and state flags agree, nobody is in two rooms, no room is overfull, and what a member says
is sent once to each other member of its room and to nobody else. -/
theorem room_membership (W : World) (pid : ℤ) (myRooms : List Bytes) (clock : ℕ)
    (as : List MemberAction) :
    let w := as.foldl (Worker.act W) (.start W.txt pid myRooms clock)
    Membership w ∧ (w.rooms.flatMap InternalRoom.userList).Nodup ∧
      ∀ t c r msg, w.chats t = some c → c.callbackData = some r →
        ∃ users : List ℕ, (broadcastCallback W w t msg).sends = w.sends ++ users.map (fun u =>
            (u, compose W.txt (nginzMaxChatUserNameSize + nginzMaxChatMsgSize)
              [c.name, lit ":", msg])) ∧
          users.Nodup ∧
          ∀ u, u ∈ users ↔ u ≠ t ∧ ∃ d, w.chats u = some d ∧ d.callbackData = some r := by
  intro w
  have h : Membership w :=
    (membership_invariant W).run (start_membership W.txt pid myRooms clock).1 as
  exact ⟨h, h.entries_nodup, fun t c r msg hc hr => h.broadcast_sends W hc hr msg⟩

/-- Two users who talk in a room. -/
def twoInRoom : List MemberAction :=
  [.create 1 5, .loginReply 1 1 (lit "ann"), .join 1 (lit "ONE"), .create 2 6,
    .loginReply 2 1 (lit "bob"), .join 2 (lit "ONE")]

def twoInRoutineer : Worker :=
  twoInRoom.foldl (Worker.act .calm) (.start World.calm.txt 4712 [lit "ONE"] 0)

theorem room_membership_twoInRoom :
    ∃ users : List ℕ,
      (broadcastCallback .calm twoInRoutineer 2 (lit "hi\n")).sends = twoInRoutineer.sends ++
        users.map (fun u => (u, lit "bob:hi\n")) ∧
      users.Nodup ∧
      ∀ u, u ∈ users ↔ u ≠ 2 ∧ ∃ d, twoInRoutineer.chats u = some d ∧ d.callbackData = some 0 := by
  have hc : twoInRoutineer.chats 2 = some (twoInRoutineer.chat 2) := by decide +kernel
  have hr : (twoInRoutineer.chat 2).callbackData = some 0 := by decide +kernel
  have hline : compose World.calm.txt (nginzMaxChatUserNameSize + nginzMaxChatMsgSize)
      [(twoInRoutineer.chat 2).name, lit ":", lit "hi\n"] = lit "bob:hi\n" := by decide +kernel
  have hrun : twoInRoom.foldl (Worker.act .calm) (.start World.calm.txt 4712 [lit "ONE"] 0) =
    twoInRoutineer := rfl
  have h := (room_membership .calm 4712 [lit "ONE"] 0 twoInRoom).2.2
  rw [hrun] at h
  have htalk := h 2 _ 0 (lit "hi\n") hc hr
  rw [hline] at htalk
  exact htalk

end Nginz
