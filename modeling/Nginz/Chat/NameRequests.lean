import Nginz.Chat.JoinHandOff
import Nginz.Chat.NamesKept
import Nginz.Db.AsyncDbMaster

/-! What workers ask the store about names, and the replies that grant them. -/
namespace Nginz
open KeyedStore

/-- What a request on the key of a name does: it removes it, or it registers it for a login. -/
def NameRequest (r : DbRequest) : Prop :=
  ∀ name, r.key = userPrefix ++ name → r.op = .unset ∨
    ValidName name ∧ r.op = .setIfNull name ∧ r.cbHook = onAsyncchatLoginName

section Requests
variable (L : TxtLib)

theorem nameKey_fits {name : Bytes} (h : ValidName name) :
    buildNameKey L name = userPrefix ++ name := by
  have hlit : userPrefix.length = 5 := by decide
  have hmax : nginzMaxChatUserNameSize = 32 := rfl
  have hshort := h.short
  unfold buildNameKey
  rw [compose_fits L (by simp [hlit]; omega)]
  simp

/-- The keys of rooms are no keys of names. -/
theorem nameRequest_of_room {r : DbRequest} (h : lit "room/" <+: r.key) : NameRequest r := by
  intro name hkey
  exact absurd hkey (ne_of_heads h (List.prefix_append userPrefix name) (by decide) (by decide))

theorem requests_increment_key {pid t n d : ℤ} {k : Bytes} {r : DbRequest}
    (hr : r ∈ (DbCall.increment t none k n d).requests pid) : r.key = k := by
  simp only [DbCall.requests] at hr
  split_ifs at hr
  · rw [List.mem_singleton.mp hr]
  · rcases List.mem_append.mp hr with hr | hr
    · rw [List.mem_singleton.mp hr]
    · rw [List.mem_singleton.mp hr]
  · rw [List.mem_singleton.mp hr]

theorem clientCall_requests {c : DbCall} (h : ClientCall L c) {pid : ℤ} {r : DbRequest}
    (hr : r ∈ c.requests pid) : NameRequest r := by
  have hroom : lit "room/" <+: lit "room/user/" ∧ lit "room/" <+: lit "room/pid/" := by decide
  cases h with
  | logoff name =>
    rw [List.mem_singleton.mp hr]
    exact fun _ _ => Or.inl rfl
  | routine h =>
    cases h with
    | count room n d =>
      apply nameRequest_of_room
      rw [requests_increment_key hr]
      exact hroom.1.trans (roomUserKey_head L room)
    | host t room _ =>
      apply nameRequest_of_room
      rw [List.mem_singleton.mp hr]
      exact hroom.2.trans (roomPidKey_head L room)
    | login t name hvalid =>
      intro own hkey
      have hreq : r = ⟨pid, t, onAsyncchatLoginName, buildNameKey L name, .setIfNull name⟩ := by
        simpa [DbCall.requests, swapOp] using hr
      rw [hreq] at hkey ⊢
      have hkey' : buildNameKey L name = userPrefix ++ own := hkey
      rw [nameKey_fits L hvalid] at hkey'
      obtain rfl : name = own := List.append_cancel_left hkey'
      exact Or.inr ⟨hvalid, rfl, rfl⟩

/-- Routine work removes no name from the store. -/
theorem routineCall_keeps {c : DbCall} (h : RoutineCall L c) {pid : ℤ} {r : DbRequest}
    (hr : r ∈ c.requests pid) (name : Bytes) : r.keyOp ≠ (userPrefix ++ name, .unset) := by
  intro he
  have hkey : r.key = userPrefix ++ name := congrArg Prod.fst he
  have hop : r.op = .unset := congrArg Prod.snd he
  cases h with
  | count room n d =>
    rw [requests_increment_key hr] at hkey
    exact absurd hkey (ne_of_heads (roomUserKey_head L room) (List.prefix_append userPrefix name)
      (by decide) (by decide))
  | host t room _ =>
    rw [List.mem_singleton.mp hr] at hop
    exact absurd hop (by simp)
  | login t own _ =>
    have hreq : r = ⟨pid, t, onAsyncchatLoginName, buildNameKey L own, .setIfNull own⟩ := by
      simpa [DbCall.requests, swapOp] using hr
    rw [hreq] at hop
    exact absurd hop (by simp)

/-- A request of a worker: it may touch a name or the host of a room in these ways only. -/
structure ChatRequest (r : DbRequest) : Prop where
  names : NameRequest r
  logins : r.cbHook = onAsyncchatLoginName →
    ∃ name, ValidName name ∧ r.key = userPrefix ++ name ∧ r.op = .setIfNull name
  lookups : r.cbHook = onAsyncchatRoomPidName → r.op = .get ∧ lit "room/pid/" <+: r.key
  hosts : ∀ room, r.key = lit "room/pid/" ++ room → r.op = .get ∨ ValidRoom room

theorem requests_increment_hook {pid t n d : ℤ} {k : Bytes} {r : DbRequest}
    (hr : r ∈ (DbCall.increment t none k n d).requests pid) : r.cbHook = nullHook := by
  simp only [DbCall.requests] at hr
  split_ifs at hr
  · rw [List.mem_singleton.mp hr]
  · rcases List.mem_append.mp hr with hr | hr
    · rw [List.mem_singleton.mp hr]
    · rw [List.mem_singleton.mp hr]
      rfl
  · rw [List.mem_singleton.mp hr]
    rfl

/-- Whoever asks for no reply neither logs in nor looks a room up. -/
theorem chatRequest_silent {r : DbRequest} (hnames : NameRequest r) (hhook : r.cbHook = nullHook)
    (hhosts : ∀ room, r.key = lit "room/pid/" ++ room → r.op = .get ∨ ValidRoom room) :
    ChatRequest r where
  names := hnames
  logins h := absurd (hhook.symm.trans h) (by decide)
  lookups h := absurd (hhook.symm.trans h) (by decide)
  hosts := hhosts

theorem clientCall_chatRequest {c : DbCall} (h : ClientCall L c) {pid : ℤ} {r : DbRequest}
    (hr : r ∈ c.requests pid) : ChatRequest r := by
  have hnames := clientCall_requests L h hr
  have hother {head : Bytes} (hhead : head <+: r.key) (hne : ¬ head <+: lit "room/pid/")
      (hne' : ¬ lit "room/pid/" <+: head) (room : Bytes) : r.key ≠ lit "room/pid/" ++ room :=
    ne_of_heads hhead (List.prefix_append _ room) hne hne'
  cases h with
  | logoff name =>
    refine chatRequest_silent hnames ?_ fun room hkey => absurd hkey ?_
    · rw [List.mem_singleton.mp hr]
      rfl
    · rw [List.mem_singleton.mp hr] at hother ⊢
      exact hother (nameKey_head L name) (by decide) (by decide) room
  | routine h =>
    cases h with
    | count room n d =>
      refine chatRequest_silent hnames (requests_increment_hook hr) fun host hkey => absurd hkey ?_
      have hhead : lit "room/user/" <+: r.key := by
        rw [requests_increment_key hr]
        exact roomUserKey_head L room
      exact hother hhead (by decide) (by decide) host
    | host t room _ =>
      obtain rfl := List.mem_singleton.mp hr
      have hhook : onAsyncchatRoomPidName ≠ onAsyncchatLoginName := by decide
      exact ⟨hnames, fun he => absurd he hhook, fun _ => ⟨rfl, roomPidKey_head L room⟩,
        fun _ _ => Or.inl rfl⟩
    | login t name hvalid =>
      have hreq : r = ⟨pid, t, onAsyncchatLoginName, buildNameKey L name, .setIfNull name⟩ := by
        simpa [DbCall.requests, swapOp] using hr
      subst hreq
      have hhook : onAsyncchatLoginName ≠ onAsyncchatRoomPidName := by decide
      refine ⟨hnames, fun _ => ⟨name, hvalid, nameKey_fits L hvalid, rfl⟩,
        fun he => absurd he hhook, fun room hkey => absurd hkey ?_⟩
      exact hother (nameKey_head L name) (by decide) (by decide) room

/-- A worker that starts asks for its rooms only. -/
theorem start_calls (pid : ℤ) (myRooms : List Bytes) (clock : ℕ) :
    ∀ c ∈ (Worker.start L pid myRooms clock).calls,
      ∃ name ∈ myRooms, c = .setIfNull (-1) none (roomPidKey L (compose L 128 [name])) pid := by
  have hadd (names : List Bytes) (hnames : names ⊆ myRooms) (w : Worker) (hw : w.pid = pid)
      (h : ∀ c ∈ w.calls, ∃ name ∈ myRooms,
        c = DbCall.setIfNull (-1) none (roomPidKey L (compose L 128 [name])) pid) :
      ∀ c ∈ (names.foldl (chatRoomAddHelper L) w).calls, ∃ name ∈ myRooms,
        c = DbCall.setIfNull (-1) none (roomPidKey L (compose L 128 [name])) pid := by
    induction names generalizing w with
    | nil => exact h
    | cons name names ih =>
      obtain ⟨hname, hrest⟩ := List.cons_subset.mp hnames
      have hone : (chatRoomAddHelper L w name).pid = w.pid ∧ (chatRoomAddHelper L w name).calls =
          w.calls ++ [.setIfNull (-1) none (roomPidKey L (compose L 128 [name])) w.pid] := by
        unfold chatRoomAddHelper broadcastAddRoom
        dsimp only
        split <;> exact ⟨rfl, rfl⟩
      apply ih hrest _ (hone.1.trans hw)
      rw [hone.2, hw]
      intro c hc
      rcases List.mem_append.mp hc with hc | hc
      · exact h c hc
      · exact ⟨name, hname, List.mem_singleton.mp hc⟩
  exact hadd myRooms (List.Subset.refl _) (.fresh pid clock) rfl fun c hc =>
    absurd hc List.not_mem_nil

end Requests

/-! ### Replies -/

/-- The reply as a hook of the chat reads it. -/
def DbReply.forChat (r : DbReply) : Option Reply :=
  if r.cbHook = onAsyncchatLoginName then some (.login r.success (r.value.getD []))
  else if r.cbHook = onAsyncchatRoomPidName then some (.roomPid r.key (r.value.getD []))
  else none

def onDbReply (W : World) (w : Worker) (r : DbReply) : Worker :=
  match r.forChat with
  | some reply => onReply W w r.cbToken.toNat reply
  | none => w

/-- The reply grants the name. -/
def DbReply.Grants (r : DbReply) (name : Bytes) : Prop := r.forChat.bind Reply.granted = some name

/-- The news of a registration that took effect is on the way. -/
theorem reply_grants {db : Bytes → Option Bytes} {r : DbRequest} {name : Bytes}
    (hvalid : ValidName name)
    (hop : r.op = .setIfNull name) (hhook : r.cbHook = onAsyncchatLoginName)
    (hfree : db r.key = none) :
    ∃ rep ∈ r.replies db, rep.Grants name := by
  have hlistened : ¬ r.HookIsNull := by
    unfold DbRequest.HookIsNull
    rw [hhook]
    decide
  refine ⟨r.reply db, by simp [DbRequest.replies, hlistened], ?_⟩
  unfold DbReply.Grants DbReply.forChat DbRequest.reply
  simp [hop, hhook, hfree, Op.succeeds, DbRequest.replyValue, Reply.granted, hvalid.nonempty]

end Nginz
