import Nginz.Chat.Counters
import Nginz.Db.Atomic

/-! Exact counters at quiescence: the worker that hosts a room, the other workers and the
master run in any order, and when every message is processed the store has the number of
users of the room. -/
namespace Nginz
open KeyedStore

/-! ### The start -/

/-- A worker whose rooms are empty and that never named a counter. -/
structure Uncounted (L : TxtLib) (w : Worker) : Prop where
  short : ∀ name ∈ w.names, name ≠ [] ∧ name.length < 32
  nodup : w.names.Nodup
  empty : ∀ r, w.users r = []
  other : ∀ c ∈ w.calls, OtherCall L w.pid c

namespace Uncounted
variable {L : TxtLib} {w : Worker}

theorem counted (h : Uncounted L w) (hpid : 0 ≤ w.pid ∧ w.pid < 2 ^ 31) : Counted L w where
  pid := hpid
  short := h.short
  nodup := h.nodup
  exact r name _ := by
    have hnone : onKey (roomUserKey L name) (w.requests.map DbRequest.keyOp) = [] := by
      apply onKey_of_not
      intro q hq
      obtain ⟨c, hc, hqc⟩ := List.mem_flatMap.mp hq
      exact h.other c hc q hqc name
    unfold Worker.counter
    rw [hnone, h.empty]
    rfl
  admissible c hc hcount := absurd hcount (not_isCount (h.other c hc))

theorem addRoom (h : Uncounted L w) {name : Bytes} (hn : name ≠ [] ∧ name.length < 32) :
    Uncounted L (chatRoomAddHelper L w name) := by
  have hwhole : compose L 128 [name] = name := by
    rw [compose_fits L (by simp; omega)]
    simp
  have hcalls : ∀ c ∈ w.calls ++ [DbCall.setIfNull (-1) none (roomPidKey L name) w.pid],
      OtherCall L w.pid c := by
    intro c hc
    rcases List.mem_append.mp hc with hold | hnew
    · exact h.other c hold
    · obtain rfl := List.mem_singleton.mp hnew
      intro q hq room
      obtain rfl := List.mem_singleton.mp hq
      exact roomPidKey_ne_roomUserKey L name room
  unfold chatRoomAddHelper broadcastAddRoom
  dsimp only
  rw [hwhole]
  split
  · exact ⟨h.short, h.nodup, h.empty, hcalls⟩
  rename_i hnew
  refine ⟨?_, ?_, ?_, hcalls⟩
  · intro other hother
    simp only [Worker.names, List.map_append, List.map_cons, List.map_nil, List.mem_append,
      List.mem_singleton] at hother
    rcases hother with hold | rfl
    · exact h.short other hold
    · exact hn
  · have hdisjoint : name ∉ w.names := hnew
    have hnodup := h.nodup
    simp only [Worker.names, List.map_append, List.map_cons, List.map_nil] at hdisjoint hnodup ⊢
    exact List.nodup_append.mpr ⟨hnodup, List.nodup_singleton _, by
      rintro a ha b hb rfl
      exact hdisjoint (List.mem_singleton.mp hb ▸ ha)⟩
  · intro r
    have hr := h.empty r
    unfold Worker.users at hr ⊢
    change ((w.rooms ++ [InternalRoom.mk name [] 1])[r]?).elim [] InternalRoom.userList = []
    rw [List.getElem?_append]
    split
    · exact hr
    · cases hk : ([InternalRoom.mk name [] 1])[r - w.rooms.length]? with
      | none => rfl
      | some room =>
        obtain rfl := List.mem_singleton.mp (List.mem_of_getElem? hk)
        rfl

end Uncounted

theorem addRooms_pid (L : TxtLib) (myRooms : List Bytes) (w : Worker) :
    (myRooms.foldl (chatRoomAddHelper L) w).pid = w.pid := by
  induction myRooms generalizing w with
  | nil => rfl
  | cons name names ih =>
    rw [List.foldl_cons, ih]
    unfold chatRoomAddHelper broadcastAddRoom
    dsimp only
    split <;> rfl

theorem start_pid (L : TxtLib) (pid : ℤ) (myRooms : List Bytes) (clock : ℕ) :
    (Worker.start L pid myRooms clock).pid = pid := addRooms_pid L myRooms _

/-- A worker that only added its rooms counts them right. -/
theorem start_counted (L : TxtLib) {pid : ℤ} (hpid : 0 ≤ pid ∧ pid < 2 ^ 31) {myRooms : List Bytes}
    (hrooms : ∀ name ∈ myRooms, name ≠ [] ∧ name.length < 32) (clock : ℕ) :
    Counted L (.start L pid myRooms clock) := by
  have hrun :
      ∀ w : Worker, Uncounted L w → Uncounted L (myRooms.foldl (chatRoomAddHelper L) w) := by
    induction myRooms with
    | nil => exact fun w h => h
    | cons name names ih =>
      intro w h
      have hadd := h.addRoom (hrooms name List.mem_cons_self)
      exact ih (fun n hn => hrooms n (List.mem_cons_of_mem name hn)) _ hadd
  have hfresh : Uncounted L (.fresh pid clock) :=
    ⟨by simp [Worker.names, Worker.fresh], by simp [Worker.names, Worker.fresh],
      fun r => by simp [Worker.users, Worker.fresh], by simp [Worker.fresh]⟩
  exact (hrun _ hfresh).counted (by rw [addRooms_pid]; exact hpid)

/-! ### One worker and the store -/

variable {ι : Type*} [DecidableEq ι]

/-- The operations on a key that only one worker names. -/
theorem onKey_of_owner {host : ι} {k : Bytes} {served : List (ι × DbRequest)}
    (h : ∀ e ∈ served, e.2.key = k → e.1 = host) :
    onKey k (served.map fun e => e.2.keyOp) =
      onKey k ((Mailbox.takenFrom host served).map DbRequest.keyOp) := by
  induction served with
  | nil => rfl
  | cons e served ih =>
    have hlater := ih fun f hf => h f (List.mem_cons_of_mem e hf)
    have hnow := h e List.mem_cons_self
    unfold Mailbox.takenFrom at hlater ⊢
    rw [List.map_cons, onKey_cons, hlater]
    by_cases hk : e.2.key = k
    · have hw := hnow hk
      simp [hw, onKey_cons]
    · have hkey : ¬ e.2.keyOp.1 = k := hk
      rw [if_neg hkey]
      by_cases hw : e.1 = host
      · simp [hw, onKey_cons, hkey]
      · simp [hw]

/-- The calls of the host are those of its run; the others keep off the counters of its
rooms, and every call but the counts is admissible. -/
structure HostedRun (L : TxtLib) (pid : ι → ℤ) (host : ι) (w : Worker)
    (as : List (StoreAction ι)) : Prop where
  own : callsBy host as = w.calls
  foreign : ∀ v c, v ≠ host → .call v c ∈ as →
    ∀ q ∈ c.requests (pid v), ∀ name ∈ w.names, q.key ≠ roomUserKey L name
  admissible : ∀ a ∈ as, (∃ c, a = .call host c ∧ IsCount L c) ∨ a.Admissible pid

theorem HostedRun.allAdmissible {L : TxtLib} {pid : ι → ℤ} {host : ι} {w : Worker}
    {as : List (StoreAction ι)} (h : HostedRun L pid host w as) (hw : Counted L w)
    (hpid : w.pid = pid host) : ∀ a ∈ as, a.Admissible pid := by
  intro a ha
  rcases h.admissible a ha with ⟨c, rfl, hcount⟩ | hadm
  · have hmem := call_mem_callsBy ha
    rw [h.own] at hmem
    have hc := hw.admissible c hmem hcount
    rwa [hpid] at hc
  · exact hadm

theorem pid_invariant (W : World) (pid : ℤ) :
    RoomInvariant W fun w => Membership w ∧ w.pid = pid where
  membership h := h.1
  congr h hm _ _ hp := ⟨hm, hp.trans h.2⟩
  call h _ := ⟨h.1.of_same rfl rfl, h.2⟩
  leave h t := ⟨(h.1.leave W t).1, (routine_leave W _ t).pid_eq.trans h.2⟩
  join h t room := ⟨h.1.join W t room, (join_keeps W _ t room).1.trans h.2⟩

/-- What the served requests leave of a key that only one worker names, when none waits. -/
theorem storeAfter_of_owner {pid : ι → ℤ} {host : ι} {as : List (StoreAction ι)} {k : Bytes}
    (howner : ∀ e ∈ servedIn pid as, e.2.key = k → e.1 = host)
    (hquiet : (Mailbox.run Mailbox.init (as.map (StoreAction.event pid))).pending host = [])
    (db : Bytes → Option Bytes) :
    storeAfter db (servedIn pid as) k = counted (db k) (onKey k
      (((callsBy host as).flatMap (DbCall.requests (pid host))).map DbRequest.keyOp)) := by
  have honce := Mailbox.run_exactly_once Mailbox.init (as.map (StoreAction.event pid)) host
  rw [hquiet, posted_calls] at honce
  simp only [Mailbox.init, Mailbox.takenFrom, List.filter_nil, List.map_nil, List.append_nil,
    List.nil_append] at honce
  unfold storeAfter counted
  rw [run_key, onKey_of_owner howner, ← honce]
  rfl

/-- Whatever joins, leaves, quits and closes run at the worker that hosts a room, and
however its requests are served among those of other workers about other keys: when all of
them are processed, the store has the number of users of the room in decimal, and no such
key when there are none. -/
theorem room_counters_exact (W : World) (hroom : W.txt.room nginzMaxBinaryMsgLen < 65536)
    {masterPid : ℤ} (pid : ι → ℤ) (host : ι) (hpid : 0 ≤ pid host ∧ pid host < 2 ^ 31)
    (myRooms : List Bytes) (hrooms : ∀ name ∈ myRooms, name ≠ [] ∧ name.length < 32) (clock : ℕ)
    (actions : List MemberAction) (db : Bytes → Option Bytes)
    (hdb : ∀ name, db (roomUserKey W.txt name) = none) (as : List (StoreAction ι))
    (hhost : HostedRun W.txt pid host
      (actions.foldl (Worker.act W) (.start W.txt (pid host) myRooms clock)) as)
    (hfit : ∀ rep ∈ repliesTo db (servedIn pid as), packedLength (rep.fields masterPid) ≤ 255) :
    ∃ s, (StoreSystem.start W.txt db).run W.txt masterPid pid as = some s ∧
      ((∀ v, s.pipe v = []) →
        ∀ room ∈ (actions.foldl (Worker.act W) (.start W.txt (pid host) myRooms clock)).rooms,
          s.master.globalDb (roomUserKey W.txt room.name) =
            if room.userList = [] then none else some (decimal room.userList.length)) := by
  have hstart := start_counted W.txt hpid hrooms clock
  have hstartm := (start_membership W.txt (pid host) myRooms clock).1
  have hcounted := ((counted_invariant W).run ⟨hstartm, hstart⟩ actions).2
  have hsame := ((pid_invariant W _).run ⟨hstartm, rfl⟩ actions).2
  have hstartpid := start_pid W.txt (pid host) myRooms clock
  rw [hstartpid] at hsame
  generalize actions.foldl (Worker.act W) (.start W.txt (pid host) myRooms clock) = w at *
  have hadm := hhost.allAdmissible hcounted hsame
  obtain ⟨s, hrun, h⟩ := run_refines W.txt hroom (start_refines W.txt hroom) hadm hfit
  refine ⟨s, hrun, fun hquiet room hmem => ?_⟩
  obtain ⟨r, hr, rfl⟩ := List.getElem_of_mem hmem
  have hname : w.names[r]? = some w.rooms[r].name := by
    unfold Worker.names
    rw [List.getElem?_map, List.getElem?_eq_getElem hr]
    rfl
  have husers : w.users r = w.rooms[r].userList := by
    unfold Worker.users
    rw [List.getElem?_eq_getElem hr]
    rfl
  have hdone : (Mailbox.run Mailbox.init (as.map (StoreAction.event pid))).pending host = [] := by
    have hpipe := h.pipe host
    rw [hquiet host] at hpipe
    exact List.map_eq_nil_iff.mp hpipe.symm
  have howner :
      ∀ e ∈ servedIn pid as, e.2.key = roomUserKey W.txt w.rooms[r].name → e.1 = host := by
    intro e he hk
    by_contra hne
    obtain ⟨c, hc, hq⟩ := served_issued he
    exact hhost.foreign e.1 c hne hc e.2 hq _ (List.mem_of_getElem? hname) hk
  have hexact := hcounted.exact r _ hname
  rw [husers] at hexact
  rw [h.table]
  have htable := storeAfter_of_owner howner hdone db
  rw [hdb, hhost.own, ← hsame] at htable
  refine htable.trans (hexact.trans ?_)
  unfold countValue
  simp

/-- Two users join a room, one of them twice, and the first one quits. -/
def twoUsers : List MemberAction :=
  [.create 1 5, .loginReply 1 1 (lit "ann"), .join 1 (lit "ONE"), .create 2 6,
    .loginReply 2 1 (lit "bob"), .join 2 (lit "ONE"), .join 2 (lit "ONE"), .quit 1]

/-- Their requests among those of another worker. -/
def twoUsersServed : List (StoreAction Bool) :=
  (((twoUsers.foldl (Worker.act .calm) (.start .cutting 4712 [lit "ONE"] 0)).calls.map
      (StoreAction.call true)) ++
    .call false (.get 3 none (lit "room/pid/ONE")) :: .receive false ::
      List.replicate 10 (.receive true))

theorem room_counters_exact_twoUsers :
    ∃ s, (StoreSystem.start .cutting fun _ => none).run .cutting 4711 (fun w => cond w 4712 4713)
        twoUsersServed = some s ∧
      ((∀ v, s.pipe v = []) →
        ∀ room ∈ (twoUsers.foldl (Worker.act .calm) (.start .cutting 4712 [lit "ONE"] 0)).rooms,
          s.master.globalDb (roomUserKey .cutting room.name) =
            if room.userList = [] then none else some (decimal room.userList.length)) :=
  room_counters_exact .calm (by decide) (fun w => cond w 4712 4713) true (by decide) [lit "ONE"]
    (by decide) 0 twoUsers (fun _ => none) (fun _ => rfl) twoUsersServed
    { own := by decide +kernel
      foreign := by
        intro v c hv hc q hq
        rcases List.mem_append.mp hc with hown | hother
        · obtain ⟨c', -, he⟩ := List.mem_map.mp hown
          exact absurd (StoreAction.call.inj he).1.symm hv
        · simp only [List.mem_cons, List.mem_replicate, StoreAction.call.injEq, reduceCtorEq,
            and_false, or_false] at hother
          obtain ⟨rfl, rfl⟩ := hother
          obtain rfl := List.mem_singleton.mp hq
          decide +kernel
      admissible := by
        have hall :
            ∀ a ∈ twoUsersServed, a.Admissible fun w => cond w 4712 4713 := by decide +kernel
        exact fun a ha => Or.inr (hall a ha) }
    (by decide +kernel)

end Nginz
