import Nginz.Chat.MembershipRuns
import Nginz.Lib.Transition

/-! What a join does with the room that the search finds: which room the connection ends up in,
and what becomes of the reference that the search takes. -/
namespace Nginz
open Transition

/-- The reference counts of the rooms. -/
def Worker.roomRefs (w : Worker) : List ℕ := w.rooms.map InternalRoom.refs

/-- The search of a join finds a room, and the room is full. -/
def FindsFullRoom (W : World) (w : Worker) (t : ℕ) (roomName : Bytes) : Prop :=
  (w.chat t).state.loggedIn = true ∧
    ∃ rm ∈ W.oppSearch w.names roomName, nginzMaxChatRoomUser ≤ (w.users rm).length

/-- A change of a reference count. -/
def setRefs (w : Worker) (rm : ℕ) (f : ℕ → ℕ) : Worker :=
  w.setRoom rm fun room => { room with refs := f room.refs }

section Refs
variable (w : Worker) (rm : ℕ) (f : ℕ → ℕ)

theorem setRefs_users (r : ℕ) : (setRefs w rm f).users r = w.users r := by
  apply users_setRoom_keep
  intro room
  rfl

theorem setRefs_names : (setRefs w rm f).names = w.names := by
  apply names_setRoom
  intro room
  rfl

theorem setRefs_refs : (setRefs w rm f).roomRefs = w.roomRefs.modify rm f := by
  unfold Worker.roomRefs setRefs Worker.setRoom
  apply List.ext_getElem?
  intro s
  rw [List.getElem?_map, List.getElem?_modify, List.getElem?_modify, List.getElem?_map]
  cases w.rooms[s]? with
  | none => rfl
  | some room =>
    by_cases hs : rm = s <;> simp [hs]

end Refs

/-! ### What the rooms keep -/

section Rooms
variable {β : Type*} {g : InternalRoom → β}
  (hg : ∀ room us, g { room with userList := us } = g room) (W : World)
include hg

theorem leave_map (w : Worker) (t : ℕ) :
    (broadcastRoomLeave W w t).rooms.map g = w.rooms.map g := by
  cases hcb : (w.chat t).callbackData with
  | none => rw [broadcastRoomLeave_outside W w t hcb]
  | some r =>
    obtain ⟨v, hs, hl⟩ := broadcastRoomLeave_inside W w t hcb
    have hexit : (exitRoom v t r).rooms.map g = v.rooms.map g := by
      unfold exitRoom pruneUser
      split
      · exact map_setRoom v r fun room => hg room _
      · rfl
    rw [hl, setUserCount_eq]
    show (exitRoom v t r).rooms.map g = _
    rw [hexit, hs.rooms_eq]
    rfl

theorem settle_map (w : Worker) (t rm : ℕ) :
    (settleInRoom W w t rm).rooms.map g = w.rooms.map g := by
  have henter (v : Worker) : (enterRoom v t rm).rooms.map g = v.rooms.map g :=
    map_setRoom v rm fun room => hg room _
  unfold settleInRoom
  split
  · rfl
  dsimp only
  rw [henter]
  split
  · exact leave_map hg W _ t
  · rfl

end Rooms

theorem announce_map {β : Type*} (g : InternalRoom → β) (W : World) (w : Worker) (t rm : ℕ) :
    (announceJoin W w t rm).rooms.map g =
      (setRefs w rm (· - 1)).rooms.map g := by
  unfold announceJoin
  dsimp only
  rw [setUserCount_eq]
  show (broadcastRoomGreet W _ t rm).rooms.map g = _
  rw [(onlySends_greet W _ t rm).rooms_eq]
  rfl

/-! ### The three ways a join goes -/

section Join
variable (W : World) {w : Worker} {t rm : ℕ} {roomName : Bytes}

theorem join_loggedOut (h : (w.chat t).state.loggedIn = false) :
    broadcastRoomJoin W w t roomName = (w, -1) := by
  unfold broadcastRoomJoin
  rw [h]
  rfl

theorem join_unknown (h : W.oppSearch w.names roomName = none) :
    broadcastRoomJoin W w t roomName = (w, -1) := by
  unfold broadcastRoomJoin Worker.names at *
  rw [h]
  split <;> rfl

/-- The worker that holds the reference of the search. -/
def found (w : Worker) (rm : ℕ) : Worker := setRefs w rm (· + 1)

theorem join_full (hlogin : (w.chat t).state.loggedIn = true)
    (hrm : W.oppSearch w.names roomName = some rm)
    (hfull : nginzMaxChatRoomUser ≤ (w.users rm).length) :
    broadcastRoomJoin W w t roomName = (broadcastRoomSendJoinFailed W (found w rm) t, -1) := by
  have husers : (found w rm).users rm = w.users rm := setRefs_users w rm (· + 1) rm
  unfold broadcastRoomJoin Worker.names at *
  rw [hlogin, hrm]
  show (if ((found w rm).users rm).length ≥ _ then _ else _) = _
  rw [husers, if_pos hfull]
  rfl

theorem join_enters (hlogin : (w.chat t).state.loggedIn = true)
    (hrm : W.oppSearch w.names roomName = some rm)
    (hfull : (w.users rm).length < nginzMaxChatRoomUser) :
    broadcastRoomJoin W w t roomName =
      (announceJoin W (settleInRoom W (found w rm) t rm) t rm, 0) := by
  have husers : (found w rm).users rm = w.users rm := setRefs_users w rm (· + 1) rm
  unfold broadcastRoomJoin Worker.names at *
  rw [hlogin, hrm]
  show (if ((found w rm).users rm).length ≥ _ then _ else _) = _
  rw [husers, if_neg (not_le.mpr hfull)]
  rfl

/-- A join ends at once, at a full room, or in the room that was found. -/
theorem join_cases (W : World) (w : Worker) (t : ℕ) (roomName : Bytes) :
    (broadcastRoomJoin W w t roomName = (w, -1) ∧ ¬ FindsFullRoom W w t roomName) ∨
    (∃ rm, FindsFullRoom W w t roomName ∧ W.oppSearch w.names roomName = some rm ∧
      broadcastRoomJoin W w t roomName = (broadcastRoomSendJoinFailed W (found w rm) t, -1)) ∨
    ∃ rm, (w.chat t).state.loggedIn = true ∧ ¬ FindsFullRoom W w t roomName ∧
      W.oppSearch w.names roomName = some rm ∧
      broadcastRoomJoin W w t roomName =
        (announceJoin W (settleInRoom W (found w rm) t rm) t rm, 0) := by
  cases hlogin : (w.chat t).state.loggedIn with
  | false =>
    refine Or.inl ⟨join_loggedOut W hlogin, fun hfull => ?_⟩
    exact absurd (hlogin.symm.trans hfull.1) Bool.false_ne_true
  | true =>
    cases hrm : W.oppSearch w.names roomName with
    | none =>
      refine Or.inl ⟨join_unknown W hrm, fun hfull => ?_⟩
      obtain ⟨rm, hfound, -⟩ := hfull.2
      exact absurd (hrm.symm.trans hfound) (by simp)
    | some rm =>
      by_cases hfull : nginzMaxChatRoomUser ≤ (w.users rm).length
      · exact Or.inr (Or.inl ⟨rm, ⟨hlogin, rm, hrm, hfull⟩, rfl, join_full W hlogin hrm hfull⟩)
      · refine Or.inr (Or.inr ⟨rm, rfl, fun hfinds => ?_, rfl,
          join_enters W hlogin hrm (not_le.mp hfull)⟩)
        obtain ⟨rm', hfound, hfull'⟩ := hfinds.2
        obtain rfl := Option.some.inj (hrm.symm.trans hfound)
        exact hfull hfull'

theorem join_names (W : World) (w : Worker) (t : ℕ) (roomName : Bytes) :
    (broadcastRoomJoin W w t roomName).1.names = w.names := by
  have hfound (rm : ℕ) : (found w rm).names = w.names := setRefs_names w rm (· + 1)
  rcases join_cases W w t roomName with ⟨he, -⟩ | ⟨rm, -, -, he⟩ | ⟨rm, -, -, -, he⟩
  · rw [he]
  · rw [he]
    exact (names_of_onlySends W (onlySends_joinFailed W _ t)).trans (hfound rm)
  · rw [he]
    show ((announceJoin W _ t rm).rooms.map InternalRoom.name) = _
    rw [announce_map]
    show (setRefs (settleInRoom W (found w rm) t rm) rm (· - 1)).names = _
    rw [setRefs_names]
    exact (settle_map (fun _ _ => rfl) W (found w rm) t rm).trans (hfound rm)

/-! ### References -/

/-- Unless the room is full, the reference of the search is dropped again. -/
theorem join_refs_kept (h : ¬ FindsFullRoom W w t roomName) :
    (broadcastRoomJoin W w t roomName).1.roomRefs = w.roomRefs := by
  rcases join_cases W w t roomName with ⟨he, -⟩ | ⟨rm, hfull, -⟩ | ⟨rm, -, -, -, he⟩
  · rw [he]
  · exact absurd hfull h
  · rw [he]
    show ((announceJoin W _ t rm).rooms.map InternalRoom.refs) = _
    rw [announce_map]
    show (setRefs (settleInRoom W (found w rm) t rm) rm (· - 1)).roomRefs = _
    have hsettle : (settleInRoom W (found w rm) t rm).roomRefs = (found w rm).roomRefs :=
      settle_map (fun _ _ => rfl) W (found w rm) t rm
    rw [setRefs_refs, hsettle, found, setRefs_refs, List.modify_modify_eq]
    exact List.modify_id _ _

theorem sum_modify_succ {xs : List ℕ} {i : ℕ} (h : i < xs.length) :
    (xs.modify i (· + 1)).sum = xs.sum + 1 := by
  induction xs generalizing i with
  | nil => exact absurd h (Nat.not_lt_zero i)
  | cons x xs ih =>
    cases i with
    | zero =>
      rw [List.modify_zero_cons, List.sum_cons, List.sum_cons]
      omega
    | succ i =>
      rw [List.modify_succ_cons, List.sum_cons, List.sum_cons, ih (Nat.lt_of_succ_lt_succ h)]
      omega

/-- A full room keeps the reference of the search. -/
theorem join_refs_leaks (h : FindsFullRoom W w t roomName) :
    (broadcastRoomJoin W w t roomName).1.roomRefs.sum = w.roomRefs.sum + 1 := by
  rcases join_cases W w t roomName with ⟨-, hnot⟩ | ⟨rm, -, hrm, he⟩ | ⟨rm, -, hnot, -⟩
  · exact absurd h hnot
  · have hlt : rm < w.roomRefs.length := by
      have hnames := W.oppSearch_lt _ _ _ hrm
      rwa [Worker.names, List.length_map, ← List.length_map (f := InternalRoom.refs)] at hnames
    rw [he]
    show ((broadcastRoomSendJoinFailed W (found w rm) t).rooms.map InternalRoom.refs).sum = _
    rw [(onlySends_joinFailed W (found w rm) t).rooms_eq]
    show (setRefs w rm (· + 1)).roomRefs.sum = _
    rw [setRefs_refs, sum_modify_succ hlt]
  · exact absurd h hnot

end Join

/-- A join by a connection, with the name it asks for. -/
def joinStep (W : World) (w : Worker) (join : ℕ × Bytes) : Worker :=
  (broadcastRoomJoin W w join.1 join.2).1

theorem joins_sum_le (W : World) (w : Worker) (joins : List (ℕ × Bytes)) :
    w.roomRefs.sum ≤ (joins.foldl (joinStep W) w).roomRefs.sum := by
  refine run_invariant (P := fun w' : Worker => w.roomRefs.sum ≤ w'.roomRefs.sum) ?_ le_rfl joins
  intro w' join h
  by_cases hfull : FindsFullRoom W w' join.1 join.2
  · exact h.trans ((Nat.le_succ _).trans_eq (join_refs_leaks W hfull).symm)
  · exact h.trans_eq (congrArg List.sum (join_refs_kept W hfull)).symm

/-- Joins keep the reference count of every room exactly when none of them finds a full room. -/
theorem join_references_kept_iff (W : World) (w : Worker) (joins : List (ℕ × Bytes)) :
    (joins.foldl (joinStep W) w).roomRefs = w.roomRefs ↔
      Along (joinStep W) (fun w join => ¬ FindsFullRoom W w join.1 join.2) w joins := by
  induction joins generalizing w with
  | nil => exact ⟨fun _ => trivial, fun _ => rfl⟩
  | cons join joins ih =>
    show ((joins.foldl (joinStep W) (joinStep W w join)).roomRefs = _) ↔ _ ∧ _
    by_cases hfull : FindsFullRoom W w join.1 join.2
    · -- the leaked reference is never given back
      refine ⟨fun hsame => ?_, fun h => absurd hfull h.1⟩
      have hle := joins_sum_le W (joinStep W w join) joins
      have hleak : (joinStep W w join).roomRefs.sum = w.roomRefs.sum + 1 := join_refs_leaks W hfull
      rw [hsame, hleak] at hle
      exact absurd hle (Nat.not_succ_le_self _)
    · have hkept : (joinStep W w join).roomRefs = w.roomRefs := join_refs_kept W hfull
      rw [← hkept, ih (joinStep W w join)]
      exact ⟨fun h => ⟨hfull, h⟩, fun h => h.2⟩

/-- Thirty-two users in a room, and one more that is logged in. -/
def fullRoom : Worker :=
  { Worker.fresh 4712 0 with
    chats := fun t => if t < 33 then
      some { ChatConnection.initial t with
        state := ⟨true, decide (t < 32), false, false, false⟩
        name := decimal t
        callbackData := if t < 32 then some 0 else none }
      else none
    rooms := [⟨lit "ONE", List.range 32, 1⟩] }

/-- The refused user leaves a reference behind. -/
theorem refused_join_leaks :
    ([(32, lit "ONE")].foldl (joinStep .calm) fullRoom).roomRefs ≠ fullRoom.roomRefs := by
  decide +kernel

/-! ### Names and hashes -/

/-- `opp_search` without a compare callback: a room is found when the stored hash of one is that
of the name, and the room that is found has that hash. -/
structure SearchesByHash (hash : Bytes → ℕ) (W : World) : Prop where
  found : ∀ names name rm, W.oppSearch names name = some rm →
    ∃ room ∈ names[rm]?, hash room = hash name
  finds : ∀ names name, ∀ room ∈ names, hash room = hash name →
    (W.oppSearch names name).isSome

/-- The rooms of a worker that some names were added to. -/
def addedRooms (added : List Bytes) : List Bytes :=
  (added.foldl broadcastAddRoom (.fresh 0 0)).names

theorem mem_addRooms (added : List Bytes) (w : Worker) (room : Bytes) :
    room ∈ (added.foldl broadcastAddRoom w).names ↔ room ∈ w.names ∨ room ∈ added := by
  induction added generalizing w with
  | nil => simp
  | cons name added ih =>
    have hone : room ∈ (broadcastAddRoom w name).names ↔ room ∈ w.names ∨ room = name := by
      unfold broadcastAddRoom
      split
      · rename_i hmem
        exact ⟨Or.inl, fun h => h.elim id fun he => he ▸ hmem⟩
      · simp [Worker.names]
    rw [List.foldl_cons, ih, hone, or_assoc, List.mem_cons]

theorem mem_addedRooms {added : List Bytes} {room : Bytes} :
    room ∈ addedRooms added ↔ room ∈ added := by
  unfold addedRooms
  rw [mem_addRooms]
  exact ⟨fun h => h.resolve_left List.not_mem_nil, Or.inr⟩

/-- Whatever the search finds, a connection that a join puts into a room, or leaves in it with
success, is in the room of that name; without such a room the join fails and the connection is as
before. -/
def JoinsByName (hash : Bytes → ℕ) (added : List Bytes) (roomName : Bytes) : Prop :=
  ∀ W, SearchesByHash hash W → ∀ w : Worker, w.names = addedRooms added → ∀ t,
    let r := broadcastRoomJoin W w t roomName
    (∀ rm, (r.1.chat t).callbackData = some rm →
      r.2 = 0 ∨ (w.chat t).callbackData ≠ some rm → r.1.roomName rm = roomName) ∧
    (roomName ∉ added → r.2 = -1 ∧ r.1.chat t = w.chat t)

section Place
variable (W : World) {w : Worker} {t rm : ℕ} {roomName : Bytes}

/-- A connection that settles is in the room. -/
theorem settle_place (rm : ℕ) {c : ChatConnection} (hc : w.chats t = some c) :
    ∃ c', (settleInRoom W w t rm).chats t = some c' ∧ c'.callbackData = some rm := by
  unfold settleInRoom
  split
  · rename_i hin
    rw [w.chat_of_some t hc] at hin
    exact ⟨c, hc, hin⟩
  · dsimp only
    rw [enterRoom_same]
    obtain ⟨c', hc'⟩ : ∃ c', (if (w.chat t).callbackData.isSome then
        broadcastRoomLeave W (w.assert (w.chat t).state.inRoom) t else w).chats t = some c' := by
      split
      · obtain ⟨c', hc', -⟩ := (routine_leave W (w.assert (w.chat t).state.inRoom) t).chats_some hc
        exact ⟨c', hc'⟩
      · exact ⟨c, hc⟩
    exact ⟨_, congrArg (Option.map _) hc', rfl⟩

/-- A join with success leaves the connection in the room that was found. -/
theorem join_place (hlogin : (w.chat t).state.loggedIn = true) :
    ((announceJoin W (settleInRoom W (found w rm) t rm) t rm).chat t).callbackData = some rm := by
  obtain ⟨c, hc, -⟩ := Worker.loggedIn_some hlogin
  have hfound : (found w rm).chats t = some c := hc
  obtain ⟨c', hc', hplace⟩ := settle_place W rm hfound
  obtain ⟨v, hv, -, -, -, -, v', hs, he⟩ :=
    announceJoin_eq W (settleInRoom W (found w rm) t rm) t rm
  obtain ⟨error, soft, hd⟩ := hs.chats_some (hv ▸ hc')
  have hin : (v'.chat t).callbackData = some rm := by
    rw [v'.chat_of_some t hd]
    exact hplace
  rw [he]
  exact hin

end Place

theorem joinsByName_of_injective {hash : Bytes → ℕ} {added : List Bytes} {roomName : Bytes}
    (hinj : ∀ room ∈ added, hash room = hash roomName → room = roomName) :
    JoinsByName hash added roomName := by
  intro W hW w hnames t
  -- a room that is found is one of the added ones, and has the name
  have hname {rm : ℕ} (hrm : W.oppSearch w.names roomName = some rm) :
      w.roomName rm = roomName ∧ roomName ∈ added := by
    obtain ⟨room, hroom, hhash⟩ := hW.found _ _ _ hrm
    have hmem : room ∈ added := by
      rw [← mem_addedRooms, ← hnames]
      exact List.mem_of_getElem? hroom
    obtain rfl := hinj room hmem hhash
    rw [roomName_eq_names, Option.mem_def.mp hroom]
    exact ⟨rfl, hmem⟩
  have hkept (rm : ℕ) : (broadcastRoomJoin W w t roomName).1.roomName rm = w.roomName rm := by
    rw [roomName_eq_names, join_names, ← roomName_eq_names]
  refine ⟨fun rm hplace hwhen => ?_, fun hnone => ?_⟩
  · rw [hkept]
    rcases join_cases W w t roomName with ⟨he, -⟩ | ⟨rm', -, -, he⟩ | ⟨rm', hlogin, -, hrm, he⟩
    · rw [he] at hplace hwhen
      exact absurd hplace (hwhen.resolve_left (show ¬ (-1 : ℤ) = 0 by decide))
    · rw [he] at hplace hwhen
      refine absurd ?_ (hwhen.resolve_left (show ¬ (-1 : ℤ) = 0 by decide))
      obtain ⟨error, soft, hm⟩ := (onlySends_joinFailed W (found w rm') t).marked t
      unfold Worker.chat at hplace ⊢
      rw [hm] at hplace
      cases hc : w.chats t with
      | none =>
        have hfound : (found w rm').chats t = none := hc
        rw [hfound] at hplace
        exact hplace
      | some c =>
        have hfound : (found w rm').chats t = some c := hc
        rw [hfound] at hplace
        exact hplace
    · rw [he, join_place W hlogin] at hplace
      obtain rfl := Option.some.inj hplace
      exact (hname hrm).1
  · rcases join_cases W w t roomName with ⟨he, -⟩ | ⟨rm, -, hrm, -⟩ | ⟨rm, -, -, hrm, -⟩
    · rw [he]
      exact ⟨rfl, rfl⟩
    · exact absurd (hname hrm).2 hnone
    · exact absurd (hname hrm).2 hnone

theorem preferring_lt (hash : Bytes → ℕ) (room : Bytes) (names : List Bytes) (name : Bytes) (i : ℕ)
    (h : (if hash name = hash room ∧ names.any (· = room) then names.findIdx? (· = room)
      else names.findIdx? (hash · = hash name)) = some i) : i < names.length := by
  split at h
  · exact (List.findIdx?_eq_some_iff_findIdx_eq.mp h).1
  · exact (List.findIdx?_eq_some_iff_findIdx_eq.mp h).1

/-- The search that prefers a room among those with its hash. -/
def preferring (hash : Bytes → ℕ) (room : Bytes) : World :=
  { World.calm with
    oppSearch := fun names name =>
      if hash name = hash room ∧ names.any (· = room) then names.findIdx? (· = room)
      else names.findIdx? (hash · = hash name)
    oppSearch_lt := preferring_lt hash room }

theorem preferring_searches (hash : Bytes → ℕ) (room : Bytes) :
    SearchesByHash hash (preferring hash room) where
  found names name rm h := by
    unfold preferring at h
    dsimp only at h
    split at h
    · rename_i hroom
      obtain ⟨hlt, hfound, -⟩ := List.findIdx?_eq_some_iff_getElem.mp h
      exact ⟨names[rm], List.getElem?_eq_getElem hlt, by rw [of_decide_eq_true hfound, hroom.1]⟩
    · obtain ⟨hlt, hfound, -⟩ := List.findIdx?_eq_some_iff_getElem.mp h
      exact ⟨names[rm], List.getElem?_eq_getElem hlt, of_decide_eq_true hfound⟩
  finds names name other hmem hhash := by
    unfold preferring
    dsimp only
    split
    · rename_i hroom
      exact List.findIdx?_isSome.trans hroom.2
    · exact List.findIdx?_isSome.trans (List.any_eq_true.mpr ⟨other, hmem, by simp [hhash]⟩)

/-- A worker with some empty rooms and one connection, which is logged in. -/
def visited (names : List Bytes) : Worker :=
  { Worker.fresh 4712 0 with
    chats := fun _ => some { ChatConnection.initial 5 with
      state := ⟨true, false, false, false, false⟩
      name := lit "bob" }
    rooms := names.map fun name => ⟨name, [], 1⟩ }

theorem visited_names (names : List Bytes) : (visited names).names = names := by
  unfold visited Worker.names
  rw [List.map_map]
  exact List.map_id _

theorem visited_users (names : List Bytes) (r : ℕ) : (visited names).users r = [] := by
  unfold visited Worker.users
  rw [List.getElem?_map]
  cases names[r]? <;> rfl

/-- Joins go by the name exactly when no other added room shares the hash of the name. -/
theorem joins_by_name_iff (hash : Bytes → ℕ) (added : List Bytes) (roomName : Bytes) :
    JoinsByName hash added roomName ↔
      ∀ room ∈ added, hash room = hash roomName → room = roomName := by
  refine ⟨fun hjoins room hmem hhash => ?_, joinsByName_of_injective⟩
  let W := preferring hash room
  let w := visited (addedRooms added)
  have hnames : w.names = addedRooms added := visited_names _
  have hroom : w.names.any (· = room) = true :=
    List.any_eq_true.mpr ⟨room, by rwa [hnames, mem_addedRooms], by simp⟩
  obtain ⟨rm, hrm⟩ : ∃ rm, w.names.findIdx? (· = room) = some rm :=
    Option.isSome_iff_exists.mp (List.findIdx?_isSome.trans hroom)
  have hsearch : W.oppSearch w.names roomName = some rm := (if_pos ⟨hhash.symm, hroom⟩).trans hrm
  have hempty : (w.users rm).length < nginzMaxChatRoomUser := by
    rw [visited_users]
    decide
  obtain ⟨hplaced, -⟩ := hjoins W (preferring_searches hash room) w hnames 0
  have hlogin : (w.chat 0).state.loggedIn = true := rfl
  have hname := hplaced rm
  rw [roomName_eq_names, join_names, join_enters W hlogin hsearch hempty] at hname
  obtain ⟨hlt, hfound, -⟩ := List.findIdx?_eq_some_iff_getElem.mp hrm
  rw [List.getElem?_eq_getElem hlt, Option.getD_some, of_decide_eq_true hfound] at hname
  dsimp only at hname
  exact hname (join_place W hlogin) (Or.inl rfl)

/-- With a hash that tells only lengths apart, who asks for a room that is not there is put into
another one. -/
theorem join_by_hash_misplaces : ¬ JoinsByName List.length [lit "ONE"] (lit "SIX") := by
  intro h
  have hfail := (h (preferring List.length (lit "ONE")) (preferring_searches _ _)
    (visited [lit "ONE"]) rfl 0).2 (by decide)
  exact absurd hfail.1 (by decide +kernel)

end Nginz
