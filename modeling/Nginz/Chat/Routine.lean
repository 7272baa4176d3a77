import Mathlib.Algebra.Order.BigOperators.Group.List
import Mathlib.Data.List.TakeWhile
import Mathlib.Tactic.Ring
import Nginz.Chat.Membership
import Nginz.Chat.Accept

/-! Routine work of a worker for its clients: talking, asking the store, joining and
leaving rooms, marking connections for their end. It leaves the descriptors, the event
loop and the identity of every connection alone. -/
namespace Nginz

section Related
variable {α : Type*} {r : α → α → Prop} {x y : Option α} (h : Option.Rel r x y)
include h

theorem related_some {a : α} (hx : x = some a) : ∃ b, y = some b ∧ r a b := by
  cases h with
  | none => exact absurd hx (by simp)
  | some hab =>
    obtain rfl := Option.some.inj hx
    exact ⟨_, rfl, hab⟩

theorem related_of_some {b : α} (hy : y = some b) : ∃ a, x = some a ∧ r a b := by
  cases h with
  | none => exact absurd hy (by simp)
  | some hab =>
    obtain rfl := Option.some.inj hy
    exact ⟨_, rfl, hab⟩

theorem related_none (hy : y = none) : x = none := by
  cases h with
  | none => rfl
  | some hab => exact absurd hy (by simp)

end Related

/-- The references of a connection beside the one its room holds. -/
def ChatConnection.spare (c : ChatConnection) : ℤ :=
  c.refs - if c.callbackData.isSome then 1 else 0

/-- The same connection after some routine work. -/
structure ChatConnection.Follows (c c' : ChatConnection) : Prop where
  fd : c'.fd = c.fd
  name : c'.name = c.name
  loggedIn : c'.state.loggedIn = c.state.loggedIn
  zombie : c'.state.zombie = c.state.zombie
  quit : c.state.quit = true → c'.state.quit = true
  softQuit : c.state.softQuit = true → c'.state.softQuit = true
  spare : c.spare ≤ c'.spare

namespace ChatConnection.Follows
variable {c c' c'' : ChatConnection}

protected theorem refl (c : ChatConnection) : Follows c c :=
  ⟨rfl, rfl, rfl, rfl, id, id, le_rfl⟩

protected theorem trans (h : Follows c c') (h' : Follows c' c'') : Follows c c'' where
  fd := h'.fd.trans h.fd
  name := h'.name.trans h.name
  loggedIn := h'.loggedIn.trans h.loggedIn
  zombie := h'.zombie.trans h.zombie
  quit := fun hq => h'.quit (h.quit hq)
  softQuit := fun hs => h'.softQuit (h.softQuit hs)
  spare := h.spare.trans h'.spare

theorem not_quit (h : Follows c c') (hq : c'.state.quit = false) : c.state.quit = false := by
  by_contra hc
  rw [h.quit (by simpa using hc)] at hq
  exact absurd hq (by decide)

theorem not_softQuit (h : Follows c c') (hs : c'.state.softQuit = false) :
    c.state.softQuit = false := by
  by_contra hc
  rw [h.softQuit (by simpa using hc)] at hs
  exact absurd hs (by decide)

theorem mark (c : ChatConnection) (error soft : Bool) : Follows c (c.mark error soft) :=
  ⟨rfl, rfl, rfl, rfl, id, fun h => by simp [ChatConnection.mark, h], le_rfl⟩

end ChatConnection.Follows

open ChatConnection (Follows)

/-- A registered connection and its descriptor. -/
def Attached (w : Worker) (t : ℕ) : Prop := ∃ c, w.chats t = some c ∧ (c.fd, t) ∈ w.eventLoop

/-- The entries of a connection in the user lists of all rooms. -/
def Worker.entries (w : Worker) (t : ℕ) : ℕ := (w.rooms.map fun room => room.userList.count t).sum

/-- A name that a client can log in with. -/
structure ValidName (name : Bytes) : Prop where
  nonempty : name ≠ []
  short : name.length < nginzMaxChatUserNameSize
  token : ∀ x ∈ name, isSeparator x = false

/-- The calls of routine work: a count, a login request, a search for the host of a room. -/
inductive RoutineCall (L : TxtLib) : DbCall → Prop where
  | count (room : Bytes) (n d : ℤ) :
    RoutineCall L (.increment (-1) none (roomUserKey L room) n d)
  | login (t : ℤ) (name : Bytes) (h : ValidName name) :
    RoutineCall L (.compareAndSwap t (some onAsyncchatLoginName) (buildNameKey L name)
      (some name) none)
  | host (t : ℤ) (room : Bytes) (h : ∀ x ∈ room, isSeparator x = false) :
    RoutineCall L (.get t (some onAsyncchatRoomPidName) (roomPidKey L room))

/-- The second worker is the first one after some routine work. -/
structure Routine (W : World) (w w' : Worker) : Prop where
  frame : { w' with chats := w.chats, rooms := w.rooms, crashed := w.crashed, calls := w.calls,
                    sends := w.sends, fdLog := w.fdLog, greetOnLogin := w.greetOnLogin } = w
  chats : ∀ t, Option.Rel Follows (w.chats t) (w'.chats t)
  calls : ∃ cs, w'.calls = w.calls ++ cs ∧ ∀ c ∈ cs, RoutineCall W.txt c
  blame : ∀ t c c', w.chats t = some c → w'.chats t = some c' → c'.troubled →
    c.troubled ∨ ∃ n, W.sendFails n t
  writes : ∃ es, w'.fdLog = w.fdLog ++ es ∧ ∀ e ∈ es, OpenWrite w e
  sends : w.sends <+: w'.sends
  level : ∀ t c c', w.chats t = some c → w'.chats t = some c' → w.entries t ≤ c.refs →
    (c'.refs - w'.entries t : ℤ) = c.refs - w.entries t
  enters : ∀ t c c', w.chats t = some c → w'.chats t = some c' → c'.callbackData.isSome →
    c.callbackData.isSome ∨ (c.fd, t) ∈ w.eventLoop

namespace Routine
variable {W : World} {w w' w'' : Worker}

section Fields
variable (h : Routine W w w')
include h

theorem pid_eq : w'.pid = w.pid := by rw [← h.frame]
theorem eventLoop_eq : w'.eventLoop = w.eventLoop := by rw [← h.frame]
theorem fds_eq : w'.fds = w.fds := by rw [← h.frame]
theorem lazyCleanup_eq : w'.lazyCleanup = w.lazyCleanup := by rw [← h.frame]
theorem zombieList_eq : w'.zombieList = w.zombieList := by rw [← h.frame]
theorem handOffs_eq : w'.handOffs = w.handOffs := by rw [← h.frame]

theorem chats_some {t : ℕ} {c : ChatConnection} (hc : w.chats t = some c) :
    ∃ c', w'.chats t = some c' ∧ Follows c c' := related_some (h.chats t) hc

theorem chats_of_some {t : ℕ} {c' : ChatConnection} (hc : w'.chats t = some c') :
    ∃ c, w.chats t = some c ∧ Follows c c' := related_of_some (h.chats t) hc

theorem openWrite {e : FdEvent} (he : OpenWrite w' e) : OpenWrite w e := by
  obtain ⟨t, c', hc', hq, hs, hfd, rfl⟩ := he
  obtain ⟨c, hc, hf⟩ := h.chats_of_some hc'
  exact ⟨t, c, hc, hf.not_quit hq, hf.not_softQuit hs, by rwa [← hf.fd], by rw [hf.fd]⟩

end Fields

theorem rel_refl (x : Option ChatConnection) : Option.Rel Follows x x := by
  cases x with
  | none => exact .none
  | some c => exact .some (.refl c)

protected theorem refl (w : Worker) : Routine W w w where
  frame := rfl
  chats t := rel_refl _
  calls := ⟨[], by simp, fun c hc => absurd hc List.not_mem_nil⟩
  blame t c c' hc hc' ht := by
    rw [hc] at hc'
    rw [Option.some.inj hc']
    exact Or.inl ht
  writes := ⟨[], by simp, fun e he => absurd he List.not_mem_nil⟩
  sends := List.prefix_rfl
  level t c c' hc hc' _ := by
    obtain rfl := Option.some.inj (hc.symm.trans hc')
    rfl
  enters t c c' hc hc' hd := by
    obtain rfl := Option.some.inj (hc.symm.trans hc')
    exact Or.inl hd

protected theorem trans (h : Routine W w w') (h' : Routine W w' w'') : Routine W w w'' where
  frame := by
    have h1 := h.frame
    have h2 := h'.frame
    rw [← h2] at h1
    exact h1
  chats t := by
    have ht := h.chats t
    have ht' := h'.chats t
    generalize w.chats t = x at ht
    generalize w'.chats t = y at ht ht'
    generalize w''.chats t = z at ht'
    cases ht with
    | none =>
      cases ht' with
      | none => exact .none
    | some hf =>
      cases ht' with
      | some hf' => exact .some (hf.trans hf')
  calls := by
    obtain ⟨cs, hcs, hall⟩ := h.calls
    obtain ⟨cs', hcs', hall'⟩ := h'.calls
    refine ⟨cs ++ cs', by rw [hcs', hcs, List.append_assoc], fun c hc => ?_⟩
    rcases List.mem_append.mp hc with hc | hc
    · exact hall c hc
    · exact hall' c hc
  blame t c c'' hc hc'' ht := by
    obtain ⟨c', hc', -⟩ := h.chats_some hc
    rcases h'.blame t c' c'' hc' hc'' ht with ht' | hn
    · exact h.blame t c c' hc hc' ht'
    · exact Or.inr hn
  writes := by
    obtain ⟨es, hes, hw⟩ := h.writes
    obtain ⟨es', hes', hw'⟩ := h'.writes
    refine ⟨es ++ es', by rw [hes', hes, List.append_assoc], fun e he => ?_⟩
    rcases List.mem_append.mp he with he | he
    · exact hw e he
    · exact h.openWrite (hw' e he)
  sends := h.sends.trans h'.sends
  level t c c'' hc hc'' hle := by
    obtain ⟨c', hc', -⟩ := h.chats_some hc
    have hfirst := h.level t c c' hc hc' hle
    have hsecond := h'.level t c' c'' hc' hc'' (by omega)
    omega
  enters t c c'' hc hc'' hd := by
    obtain ⟨c', hc', hf⟩ := h.chats_some hc
    rcases h'.enters t c' c'' hc' hc'' hd with hd' | hreg
    · exact h.enters t c c' hc hc' hd'
    · rw [hf.fd, h.eventLoop_eq] at hreg
      exact Or.inr hreg

theorem of_onlySends (h : OnlySends W w w') : Routine W w w' where
  frame := by
    have hf := h.frame
    conv_rhs => rw [← hf]
    rw [h.rooms_eq, h.crashed_eq, h.calls_eq]
    congr 1
    rw [← hf]
  chats t := by
    obtain ⟨error, soft, hm⟩ := h.marked t
    rw [hm]
    cases w.chats t with
    | none => exact .none
    | some c => exact .some (.mark c error soft)
  calls := ⟨[], by rw [h.calls_eq, List.append_nil], fun c hc => absurd hc List.not_mem_nil⟩
  blame := h.blame
  writes := h.writes
  sends := h.sends
  level t c c' hc hc' _ := by
    obtain ⟨error, soft, hm⟩ := h.chats_some hc
    obtain rfl := Option.some.inj (hm.symm.trans hc')
    unfold Worker.entries
    rw [h.rooms_eq]
    rfl
  enters t c c' hc hc' hd := by
    obtain ⟨error, soft, hm⟩ := h.chats_some hc
    obtain rfl := Option.some.inj (hm.symm.trans hc')
    exact Or.inl hd

/-- A change of a connection and of its entries in the rooms that keeps its identity. -/
theorem setMember (t : ℕ) (rooms : List InternalRoom) {f : ChatConnection → ChatConnection}
    (hf : ∀ c, w.chats t = some c → Follows c (f c)) (hb : ∀ c, (f c).troubled = c.troubled)
    (hother : ∀ u, u ≠ t → { w with rooms := rooms }.entries u = w.entries u)
    (hlevel : ∀ c, w.chats t = some c → w.entries t ≤ c.refs →
      ((f c).refs - { w with rooms := rooms }.entries t : ℤ) = c.refs - w.entries t)
    (henters : ∀ c, w.chats t = some c → (f c).callbackData.isSome →
      c.callbackData.isSome ∨ (c.fd, t) ∈ w.eventLoop) :
    Routine W w ({ w with rooms := rooms }.setChat t f) where
  frame := rfl
  chats u := by
    by_cases hu : u = t
    · subst hu
      rw [Worker.setChat_same]
      show Option.Rel Follows (w.chats u) ((w.chats u).map f)
      cases hc : w.chats u with
      | none => exact .none
      | some c => exact .some (hf c hc)
    · rw [Worker.setChat_other _ t f hu]
      exact rel_refl _
  calls := ⟨[], by simp [Worker.setChat], fun c hc => absurd hc List.not_mem_nil⟩
  blame u c c' hc hc' ht := by
    by_cases hu : u = t
    · subst hu
      have hsame : (w.chats u).map f = some c' := (Worker.setChat_same _ u f).symm.trans hc'
      rw [hc] at hsame
      rw [← Option.some.inj hsame, hb] at ht
      exact Or.inl ht
    · have hkeep : w.chats u = some c' := (Worker.setChat_other _ t f hu).symm.trans hc'
      rw [Option.some.inj (hc.symm.trans hkeep)]
      exact Or.inl ht
  writes := ⟨[], by simp [Worker.setChat], fun e he => absurd he List.not_mem_nil⟩
  sends := List.prefix_rfl
  level u c c' hc hc' hle := by
    show (c'.refs - { w with rooms := rooms }.entries u : ℤ) = _
    by_cases hu : u = t
    · subst hu
      have hsame : (w.chats u).map f = some c' := (Worker.setChat_same _ u f).symm.trans hc'
      rw [hc] at hsame
      rw [← Option.some.inj hsame]
      exact hlevel c hc hle
    · have hkeep : w.chats u = some c' := (Worker.setChat_other _ t f hu).symm.trans hc'
      rw [Option.some.inj (hc.symm.trans hkeep), hother u hu]
  enters u c c' hc hc' hd := by
    by_cases hu : u = t
    · subst hu
      have hsame : (w.chats u).map f = some c' := (Worker.setChat_same _ u f).symm.trans hc'
      rw [hc] at hsame
      rw [← Option.some.inj hsame] at hd
      exact henters c hc hd
    · have hkeep : w.chats u = some c' := (Worker.setChat_other _ t f hu).symm.trans hc'
      rw [Option.some.inj (hc.symm.trans hkeep)]
      exact Or.inl hd

/-- A change of a connection that keeps its identity, its references and its room. -/
theorem setChat (t : ℕ) {f : ChatConnection → ChatConnection}
    (hf : ∀ c, w.chats t = some c → Follows c (f c)) (hb : ∀ c, (f c).troubled = c.troubled)
    (hr : ∀ c, (f c).refs = c.refs ∧ (f c).callbackData = c.callbackData) :
    Routine W w (w.setChat t f) := by
  refine setMember t w.rooms hf hb (fun u _ => rfl) (fun c _ _ => ?_) fun c _ hd => ?_
  · rw [(hr c).1]
  · rw [(hr c).2] at hd
    exact Or.inl hd

/-- A change of rooms that keeps their users, of the crash flag or of the greeting. -/
theorem of_same
    (hf : { w' with rooms := w.rooms, crashed := w.crashed, greetOnLogin := w.greetOnLogin } = w)
    (hrooms : ∀ t, w'.entries t = w.entries t) : Routine W w w' where
  frame := by rw [← hf]
  chats t := by
    rw [← hf]
    exact rel_refl _
  calls := ⟨[], by rw [← hf]; simp, fun c hc => absurd hc List.not_mem_nil⟩
  blame := by
    rw [← hf]
    exact (Routine.refl w').blame
  writes := ⟨[], by rw [← hf]; simp, fun e he => absurd he List.not_mem_nil⟩
  sends := by rw [← hf]
  level t c c' hc hc' _ := by
    rw [← hf] at hc
    obtain rfl := Option.some.inj (hc.symm.trans hc')
    rw [hrooms]
  enters t c c' hc hc' hd := by
    rw [← hf] at hc
    obtain rfl := Option.some.inj (hc.symm.trans hc')
    exact Or.inl hd

theorem call {c : DbCall} (hc : RoutineCall W.txt c) : Routine W w (w.call c) where
  frame := rfl
  chats t := rel_refl _
  calls := ⟨[c], rfl, fun d hd => by rwa [List.mem_singleton.mp hd]⟩
  blame := (Routine.refl w).blame
  writes := ⟨[], by simp [Worker.call], fun e he => absurd he List.not_mem_nil⟩
  sends := List.prefix_rfl
  level := (Routine.refl (W := W) w).level
  enters := (Routine.refl (W := W) w).enters

end Routine

theorem Attached.routine {W : World} {w w' : Worker} {t : ℕ} (h : Attached w t)
    (hw : Routine W w w') : Attached w' t := by
  obtain ⟨c, hc, hreg⟩ := h
  obtain ⟨c', hc', hf⟩ := hw.chats_some hc
  exact ⟨c', hc', by rw [hf.fd, hw.eventLoop_eq]; exact hreg⟩

/-! ### The room operations -/

section Rooms
variable (W : World) (w : Worker)

/-- What a change of one room does to the entries of a connection. -/
theorem entries_setRoom (rm : ℕ) (f : InternalRoom → InternalRoom) (t : ℕ) :
    ((w.setRoom rm f).entries t : ℤ) = w.entries t +
      (w.rooms[rm]?).elim 0 fun room => ((f room).userList.count t : ℤ) - room.userList.count
        t := by
  unfold Worker.entries Worker.setRoom
  generalize w.rooms = rooms
  induction rooms generalizing rm with
  | nil => simp
  | cons room rooms ih =>
    cases rm with
    | zero =>
      simp only [List.modify_zero_cons, List.map_cons, List.sum_cons, List.getElem?_cons_zero,
        Option.elim_some]
      push_cast
      omega
    | succ rm =>
      have hrest := ih rm
      simp only [List.modify_succ_cons, List.map_cons, List.sum_cons, List.getElem?_cons_succ,
        Nat.cast_add]
      rw [hrest]
      ring

/-- A change of a room that keeps its users. -/
theorem entries_setRoom_keep (rm : ℕ) {f : InternalRoom → InternalRoom}
    (hf : ∀ room, (f room).userList = room.userList) (t : ℕ) :
    (w.setRoom rm f).entries t = w.entries t := by
  have h := entries_setRoom w rm f t
  simp only [hf, sub_self] at h
  cases hr : w.rooms[rm]? <;> simp [hr] at h <;> omega

theorem routine_setUserCount (room : Bytes) (n d : ℤ) :
    Routine W w (chatRoomSetUserCount W w room n d) := by
  unfold chatRoomSetUserCount
  split
  · exact .refl w
  · exact .call (.count room n d)

theorem routine_exitRoom {t rm : ℕ} (h : (w.chat t).callbackData.isSome) :
    Routine W w (exitRoom w t rm) := by
  have hin {c : ChatConnection} (hc : w.chats t = some c) : c.callbackData.isSome := by
    rwa [w.chat_of_some t hc] at h
  by_cases ht : t ∈ w.users rm
  · have hentries := entries_setRoom w rm fun room =>
      { room with userList := room.userList.erase t }
    have hroom : ∃ room, w.rooms[rm]? = some room ∧ t ∈ room.userList := by
      unfold Worker.users at ht
      cases hr : w.rooms[rm]? with
      | none => simp [hr] at ht
      | some room => exact ⟨room, rfl, by simpa [hr] using ht⟩
    obtain ⟨room, hr, hmem⟩ := hroom
    have hpos := List.count_pos_iff.mpr hmem
    simp only [hr, Option.elim_some] at hentries
    rw [exitRoom_eq w rm t ht]
    refine .setMember t _ (fun c hc => ⟨rfl, rfl, rfl, rfl, id, id, ?_⟩) (fun c => rfl)
      (fun u hu => ?_) (fun c hc hle => ?_) fun c hc hd => ?_
    · simp only [ChatConnection.spare, ChatConnection.outside, hin hc, ↓reduceIte,
        Option.isSome_none, Bool.false_eq_true]
      omega
    · have hu' := hentries u
      rw [List.count_erase_of_ne hu] at hu'
      show (w.setRoom rm _).entries u = _
      omega
    · have ht' := hentries t
      rw [List.count_erase_self] at ht'
      show ((c.refs - 1 : ℕ) - (w.setRoom rm _).entries t : ℤ) = _
      omega
    · exact absurd hd (by simp [ChatConnection.outside])
  · unfold exitRoom pruneUser
    rw [if_neg ht]
    refine .setMember t w.rooms (fun c hc => ⟨rfl, rfl, rfl, rfl, id, id, ?_⟩) (fun c => rfl)
      (fun u hu => rfl) (fun c hc hle => rfl) fun c hc hd => ?_
    · simp only [ChatConnection.spare, hin hc, ↓reduceIte, Option.isSome_none, Bool.false_eq_true]
      omega
    · exact absurd hd (by simp)

theorem routine_enterRoom {t rm : ℕ} (hrm : rm < w.rooms.length) (hatt : Attached w t) :
    Routine W w (enterRoom w t rm) := by
  unfold enterRoom
  have hentries := entries_setRoom w rm fun room => { room with userList := room.userList ++ [t] }
  simp only [List.getElem?_eq_getElem hrm, Option.elim_some, List.count_append] at hentries
  refine .setMember t _ (fun c hc => ⟨rfl, rfl, rfl, rfl, id, id, ?_⟩) (fun c => rfl)
    (fun u hu => ?_) (fun c hc hle => ?_) fun c hc hd => ?_
  · simp only [ChatConnection.spare, Option.isSome_some, ↓reduceIte]
    split <;> push_cast <;> omega
  · have hu' := hentries u
    rw [List.count_singleton, if_neg (by simpa using Ne.symm hu)] at hu'
    show (w.setRoom rm _).entries u = _
    omega
  · have ht' := hentries t
    rw [List.count_singleton_self] at ht'
    show ((c.refs + 1 : ℕ) - (w.setRoom rm _).entries t : ℤ) = _
    push_cast at ht' ⊢
    omega
  · obtain ⟨c', hc', hreg⟩ := hatt
    obtain rfl := Option.some.inj (hc.symm.trans hc')
    exact Or.inr hreg

theorem routine_assert (b : Bool) : Routine W w (w.assert b) := .of_same rfl fun _ => rfl

theorem routine_send (t : ℕ) (content : Bytes) : Routine W w (defaultChatSend W w t content) :=
  .of_onlySends (onlySends_send W w t content)

theorem routine_leave (t : ℕ) : Routine W w (broadcastRoomLeave W w t) := by
  unfold broadcastRoomLeave
  split
  · exact .refl w
  rename_i rm hrm
  have hbye : Routine W w (broadcastRoomBye W (w.assert (w.chat t).state.inRoom) t rm) :=
    (routine_assert W w _).trans (.of_onlySends (onlySends_bye W _ t rm))
  have hin : ((broadcastRoomBye W (w.assert (w.chat t).state.inRoom) t rm).chat
    t).callbackData.isSome := by
    obtain ⟨c, hc, hcb⟩ := Worker.callbackData_some hrm
    have hs := onlySends_bye W (w.assert (w.chat t).state.inRoom) t rm
    obtain ⟨error, soft, hc'⟩ := hs.chats_some hc
    rw [Worker.chat_of_some _ t hc']
    exact Option.isSome_iff_exists.mpr ⟨rm, hcb⟩
  exact (hbye.trans (routine_exitRoom W _ hin)).trans (routine_setUserCount W _ _ _ _)

theorem leave_rooms_length (t : ℕ) : (broadcastRoomLeave W w t).rooms.length = w.rooms.length := by
  have hcount (v : Worker) (room : Bytes) (n d : ℤ) :
      (chatRoomSetUserCount W v room n d).rooms = v.rooms := by
    unfold chatRoomSetUserCount
    split <;> rfl
  have hexit (v : Worker) (rm : ℕ) : (exitRoom v t rm).rooms.length = v.rooms.length := by
    unfold exitRoom pruneUser
    split
    · exact List.length_modify ..
    · rfl
  unfold broadcastRoomLeave
  split
  · rfl
  · rw [hcount, hexit, (onlySends_bye W _ t _).rooms_eq]
    rfl

theorem routine_settle {t rm : ℕ} (hrm : rm < w.rooms.length) (hatt : Attached w t) :
    Routine W w (settleInRoom W w t rm) := by
  unfold settleInRoom
  split
  · exact routine_assert W w _
  · have hout : Routine W w (if (w.chat t).callbackData.isSome then
        broadcastRoomLeave W (w.assert (w.chat t).state.inRoom) t else w) := by
      split
      · exact (routine_assert W w _).trans (routine_leave W _ t)
      · exact .refl w
    have hlen : (if (w.chat t).callbackData.isSome then
        broadcastRoomLeave W (w.assert (w.chat t).state.inRoom) t else w).rooms.length =
          w.rooms.length := by
      split
      · exact leave_rooms_length W _ t
      · rfl
    generalize (if (w.chat t).callbackData.isSome then
        broadcastRoomLeave W (w.assert (w.chat t).state.inRoom) t else w) = v at hout hlen ⊢
    have hready := hout.trans (routine_assert W v (v.chat t).callbackData.isNone)
    exact hready.trans (routine_enterRoom W _ (hrm.trans_eq hlen.symm) (hatt.routine hready))

theorem routine_announce (t rm : ℕ) : Routine W w (announceJoin W w t rm) := by
  unfold announceJoin
  refine Routine.trans ?_ (routine_setUserCount W _ _ _ _)
  refine Routine.trans ?_ (.of_onlySends (onlySends_greet W _ t rm))
  exact (routine_assert W w _).trans (.of_same rfl (entries_setRoom_keep _ rm fun _ => rfl))

theorem routine_join {t : ℕ} (hatt : Attached w t) (room : Bytes) :
    Routine W w (broadcastRoomJoin W w t room).1 := by
  unfold broadcastRoomJoin
  split
  · exact .refl w
  split
  · exact .refl w
  rename_i rm hfound
  have hrm := W.oppSearch_lt _ _ _ hfound
  rw [List.length_map] at hrm
  have hcounted : Routine W w (w.setRoom rm fun room => { room with refs := room.refs + 1 }) :=
    .of_same rfl (entries_setRoom_keep w rm fun _ => rfl)
  apply hcounted.trans
  dsimp only
  split
  · exact .of_onlySends (onlySends_joinFailed W _ t)
  · refine (routine_settle W _ ?_ (hatt.routine hcounted)).trans (routine_announce W _ t rm)
    exact hrm.trans_eq (List.length_modify ..).symm

/-- What a join does, whoever joins: the pid stays, nothing is handed off and nothing that
was said is taken back. -/
theorem join_keeps (t : ℕ) (room : Bytes) : (broadcastRoomJoin W w t room).1.pid = w.pid ∧
    (broadcastRoomJoin W w t room).1.handOffs = w.handOffs ∧
      w.sends <+: (broadcastRoomJoin W w t room).1.sends := by
  have hsettle (v : Worker) (rm : ℕ) : (settleInRoom W v t rm).pid = v.pid ∧
      (settleInRoom W v t rm).handOffs = v.handOffs ∧
        v.sends <+: (settleInRoom W v t rm).sends := by
    unfold settleInRoom
    split
    · exact ⟨rfl, rfl, List.prefix_rfl⟩
    · dsimp only
      split
      · have hleave := routine_leave W (v.assert (v.chat t).state.inRoom) t
        exact ⟨hleave.pid_eq, hleave.handOffs_eq, hleave.sends⟩
      · exact ⟨rfl, rfl, List.prefix_rfl⟩
  unfold broadcastRoomJoin
  split
  · exact ⟨rfl, rfl, List.prefix_rfl⟩
  split
  · exact ⟨rfl, rfl, List.prefix_rfl⟩
  rename_i rm _
  dsimp only
  split
  · have hs := onlySends_joinFailed W (w.setRoom rm fun room =>
      { room with refs := room.refs + 1 }) t
    exact ⟨hs.pid_eq, hs.handOffs_eq, hs.sends⟩
  · have hs := hsettle (w.setRoom rm fun room => { room with refs := room.refs + 1 }) rm
    have ha := routine_announce W (settleInRoom W
      (w.setRoom rm fun room => { room with refs := room.refs + 1 }) t rm) t rm
    exact ⟨ha.pid_eq.trans hs.1, ha.handOffs_eq.trans hs.2.1, hs.2.2.trans ha.sends⟩

end Rooms

/-! ### The plugins -/

section Plugs
variable (W : World) (w : Worker) (t : ℕ)

theorem routine_welcome : Routine W w (chatWelcomePlug W w t) := by
  unfold chatWelcomePlug
  split
  · exact .refl w
  · refine Routine.trans ?_ (routine_send W _ t _)
    apply (routine_assert W w _).trans
    exact .setChat t (fun c hc => ⟨rfl, rfl, rfl, rfl, id, id, le_rfl⟩) (fun c => rfl) fun c =>
      ⟨rfl, rfl⟩

/-- A token has no separators. -/
theorem token_valid (src : Bytes) : ∀ x ∈ (scannerNextToken src).1, isSeparator x = false := by
  intro x hx
  rw [scannerNextToken_eq] at hx
  simpa using List.mem_takeWhile_imp hx

theorem routine_greeting {w v : Worker} (h : Routine W w v) : Routine W w
    (if v.greetOnLogin ≠ [] then defaultChatSend W v t v.greetOnLogin else v) := by
  split
  · exact h.trans (routine_send W v t _)
  · exact h

theorem routine_login (answer : Bytes) : Routine W w (onAsyncchatLogin W w t answer) := by
  unfold onAsyncchatLogin
  split
  · exact .refl w
  dsimp only
  apply routine_greeting
  apply (routine_assert W w _).trans
  split
  · exact .of_same rfl fun _ => rfl
  rename_i hname
  split
  · exact .of_same rfl fun _ => rfl
  rename_i hshort
  unfold asyncTryLogin
  rw [if_neg hname]
  exact .call (.login t _ ⟨hname, not_le.mp hshort, token_valid answer⟩)

theorem routine_joinPlug (request : Bytes) : Routine W w (chatJoinPlug W w t request) := by
  unfold chatJoinPlug
  split
  · exact .refl w
  split
  · exact routine_send W w t _
  dsimp only
  split
  · exact routine_send W w t _
  rename_i hroom
  have hget : Routine W w
      (chatRoomGetPid W w (scannerNextToken request).1 t onAsyncchatRoomPidName).1 := by
    unfold chatRoomGetPid
    rw [if_neg hroom]
    exact .call (.host t _ (token_valid request))
  split
  · exact hget.trans (routine_send W _ t _)
  · exact hget.trans (routine_send W _ t _)

theorem routine_leavePlug : Routine W w (chatLeavePlug W w t) := by
  unfold chatLeavePlug
  split
  · exact .refl w
  · exact (routine_leave W w t).trans (routine_assert W _ _)

theorem routine_pm (request : Bytes) : Routine W w (chatPrivateMessagePlug W w t request) := by
  unfold chatPrivateMessagePlug
  split
  · exact .refl w
  dsimp only
  split
  · exact .refl w
  · exact .of_onlySends (onlySends_private W w t _ _)

theorem routine_cannotProcess : Routine W w
    (if (w.chat t).state.quit || (w.chat t).state.softQuit then w
      else defaultChatSend W w t (lit "Cannot process the request\n")) := by
  split
  · exact .refl w
  · exact routine_send W w t _

/-- The part of a request that is no command. -/
theorem routine_talk (request : Bytes) : Routine W w
    (match (w.chat t).onResponseCallback with
      | some .login => onAsyncchatLogin W w t request
      | some .broadcast => broadcastCallback W w t request
      | none => if (w.chat t).state.quit || (w.chat t).state.softQuit then w
        else defaultChatSend W w t (lit "Cannot process the request\n")) := by
  split
  · exact routine_login W w t request
  · exact .of_onlySends (onlySends_callback W w t request)
  · exact routine_cannotProcess W w t

end Plugs
end Nginz
