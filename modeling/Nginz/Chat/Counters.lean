import Nginz.Chat.RoomMembers
import Nginz.Db.Store

/-! The counters of rooms in the store: what the requests of a worker make of them, and
that they are exact when every request is served. -/
namespace Nginz
open KeyedStore

/-! ### Counting -/

/-- The operations of an increment. -/
def incrementOps (n d : ℤ) : List (Op Bytes) :=
  if n + d = 0 then [.unset]
  else (if n = 0 then [.setIfNull (decimal d)] else []) ++ [.cas (decimal (n + d)) (decimal n)]

/-- The value of a counter: absent at zero, else a decimal number. -/
def countValue (n : ℕ) : Option Bytes := if n = 0 then none else some (decimal n)

def counted (cur : Option Bytes) (ops : List (Op Bytes)) : Option Bytes :=
  ops.foldl (fun cur op => op.update cur) cur

theorem requests_increment (pid t : ℤ) (k : Bytes) (n d : ℤ) :
    (DbCall.requests pid (.increment t none k n d)).map DbRequest.keyOp =
      (incrementOps n d).map fun op => (k, op) := by
  unfold DbCall.requests incrementOps DbRequest.keyOp
  dsimp only
  split
  · rfl
  split <;> rfl

/-- A first or a further user. -/
theorem count_up (n : ℕ) : counted (countValue n) (incrementOps n 1) = countValue (n + 1) := by
  have hpos : ¬ (n : ℤ) + 1 = 0 := by omega
  have hsum : ((n + 1 : ℕ) : ℤ) = (n : ℤ) + 1 := by push_cast; ring
  by_cases hn : n = 0
  · subst hn
    decide
  · unfold counted incrementOps countValue
    simp [hn, hpos, Op.update, Op.succeeds, Op.written]

/-- The pair of a repeated join finds the count as it will be and changes nothing. -/
theorem count_again (n : ℕ) :
    counted (countValue (n + 1)) (incrementOps n 1) = countValue (n + 1) := by
  have hpos : ¬ (n : ℤ) + 1 = 0 := by omega
  have hne : decimal ((n : ℤ) + 1) ≠ decimal (n : ℤ) := by
    intro h
    have h' : decimal ((n + 1 : ℕ) : ℤ) = decimal (n : ℤ) := by exact_mod_cast h
    exact absurd (decimal_natCast_injective h') (by omega)
  by_cases hn : n = 0
  · subst hn
    decide
  · unfold counted incrementOps countValue
    simp [hn, hpos, hne, Op.update, Op.succeeds]

/-- A user less, or the last one. -/
theorem count_down (n : ℕ) :
    counted (countValue (n + 1)) (incrementOps (n + 1) (-1)) = countValue n := by
  have hsum : (n : ℤ) + 1 = ((n + 1 : ℕ) : ℤ) := by push_cast; ring
  have hback : ((n + 1 : ℕ) : ℤ) + -1 = (n : ℤ) := by push_cast; ring
  have hpos : ¬ ((n + 1 : ℕ) : ℤ) = 0 := by omega
  unfold counted incrementOps countValue
  rw [hsum, hback]
  by_cases hn : n = 0
  · subst hn
    decide
  · simp only [Nat.cast_eq_zero, hn, hpos, ↓reduceIte, List.nil_append, List.foldl_cons,
      List.foldl_nil, Nat.add_eq_zero_iff, one_ne_zero, and_false]
    simp [Op.update, Op.succeeds, Op.written]

/-! ### The counters a worker writes -/

def Worker.requests (w : Worker) : List DbRequest := w.calls.flatMap (DbCall.requests w.pid)

/-- The counter of a room, as the requests of the worker alone would leave it. -/
def Worker.counter (L : TxtLib) (w : Worker) (room : Bytes) : Option Bytes :=
  counted none (onKey (roomUserKey L room) (w.requests.map DbRequest.keyOp))

def IsCount (L : TxtLib) (c : DbCall) : Prop :=
  ∃ room n d, c = .increment (-1) none (roomUserKey L room) n d

/-- Every room has a short name of its own and its counter says how many users it has. -/
structure Counted (L : TxtLib) (w : Worker) : Prop where
  pid : 0 ≤ w.pid ∧ w.pid < 2 ^ 31
  short : ∀ name ∈ w.names, name ≠ [] ∧ name.length < 32
  nodup : w.names.Nodup
  exact : ∀ r name, w.names[r]? = some name → w.counter L name = countValue (w.users r).length
  admissible : ∀ c ∈ w.calls, IsCount L c → c.Admissible w.pid

section Counter
variable {L : TxtLib} {w w' : Worker}

theorem counter_append {cs : List DbCall} (hc : w'.calls = w.calls ++ cs) (hp : w'.pid = w.pid)
    (room : Bytes) :
    w'.counter L room = counted (w.counter L room)
      (onKey (roomUserKey L room) ((cs.flatMap (DbCall.requests w.pid)).map DbRequest.keyOp)) := by
  unfold Worker.counter Worker.requests counted
  rw [hc, hp, List.flatMap_append, List.map_append, onKey_append, List.foldl_append]

theorem onKey_of_not {k : Bytes} {rs : List DbRequest} (h : ∀ q ∈ rs, q.key ≠ k) :
    onKey k (rs.map DbRequest.keyOp) = [] := by
  unfold onKey
  rw [List.map_eq_nil_iff, List.filter_eq_nil_iff]
  intro e he
  obtain ⟨q, hq, rfl⟩ := List.mem_map.mp he
  have hne := h q hq
  simp [DbRequest.keyOp, hne]

theorem onKey_increment (k : Bytes) (ops : List (Op Bytes)) :
    onKey k (ops.map fun op => (k, op)) = ops := by
  unfold onKey
  simp [List.filter_map, Function.comp_def]

theorem not_isCount {pid : ℤ} {c : DbCall} (h : OtherCall L pid c) : ¬ IsCount L c := by
  rintro ⟨room, n, d, rfl⟩
  obtain ⟨q, hq⟩ : ∃ q, q ∈ DbCall.requests pid
      (.increment (-1) none (roomUserKey L room) n d) := by
    unfold DbCall.requests
    dsimp only
    split
    · exact ⟨_, List.mem_singleton_self _⟩
    · exact ⟨_, List.mem_append_right _ (List.mem_singleton_self _)⟩
  have hmem := List.mem_map_of_mem (f := DbRequest.keyOp) hq
  rw [requests_increment] at hmem
  obtain ⟨op, -, he⟩ := List.mem_map.mp hmem
  exact h q hq room (congrArg Prod.fst he).symm

theorem counter_same {c : DbCall} (h : OtherCall L w.pid c) (room : Bytes) :
    (w.call c).counter L room = w.counter L room := by
  have hcalls : (w.call c).calls = w.calls ++ [c] := rfl
  rw [counter_append hcalls rfl, onKey_of_not]
  · rfl
  · intro q hq
    simp only [List.flatMap_cons, List.flatMap_nil, List.append_nil] at hq
    exact h q hq room

/-- The count requests of a room change its counter. -/
theorem counter_count {room : Bytes} {n d : ℤ} (hroom : room ≠ [])
    (hc : w'.calls = w.calls ++ countCalls L room n d) (hp : w'.pid = w.pid) :
    w'.counter L room = counted (w.counter L room) (incrementOps n d) := by
  rw [counter_append hc hp]
  unfold countCalls
  rw [if_neg hroom, List.flatMap_cons, List.flatMap_nil, List.append_nil, requests_increment,
    onKey_increment]

/-- They change no other counter. -/
theorem counter_count_other {room other : Bytes} {n d : ℤ}
    (hk : roomUserKey L room ≠ roomUserKey L other)
    (hc : w'.calls = w.calls ++ countCalls L room n d) (hp : w'.pid = w.pid) :
    w'.counter L other = w.counter L other := by
  rw [counter_append hc hp, onKey_of_not]
  · rfl
  · intro q hq
    unfold countCalls at hq
    split at hq
    · simp at hq
    simp only [List.flatMap_cons, List.flatMap_nil, List.append_nil] at hq
    have hmem := List.mem_map_of_mem (f := DbRequest.keyOp) hq
    rw [requests_increment] at hmem
    obtain ⟨op, -, he⟩ := List.mem_map.mp hmem
    have hkey : q.key = roomUserKey L room := (congrArg Prod.fst he).symm
    rw [hkey]
    exact hk

end Counter

/-- The count requests of a room with a short name are admissible while the counts are. -/
theorem count_admissible {L : TxtLib} {pid : ℤ} (hpid : 0 ≤ pid ∧ pid < 2 ^ 31) {room : Bytes}
    (hroom : room.length < 32) {n d : ℤ} (hn : 0 ≤ n ∧ n ≤ 32)
    (hd : d = 1 ∨ d = -1 ∧ 1 ≤ n) :
    DbCall.Admissible pid (.increment (-1) none (roomUserKey L room) n d) := by
  have hkey := roomUserKey_fits L hroom
  have hhead : (lit "room/user/").length = 10 := by decide
  have hne : roomUserKey L room ≠ [] := by
    rw [hkey]
    simp [lit]
  have hlen : (roomUserKey L room).length ≤ 41 := by
    rw [hkey, List.length_append, hhead]
    omega
  have hdec : ∀ m : ℤ, 0 ≤ m → m ≤ 33 → decimal m ≠ [] ∧ (decimal m).length ≤ 2 := by
    intro m h0 h1
    interval_cases m <;> decide
  have happ : ∀ op : Op Bytes, (DbRequest.app op).length ≤ 21 := by
    intro op
    cases op <;> simp only [DbRequest.app] <;> decide
  have hnull : nullHook.length = 4 := by decide
  have hpidlen := intbuf_length_le pid
  have htoklen := intbuf_length_le (-1)
  have hgood : ∀ op : Op Bytes, (∀ v ∈ DbRequest.args op, v ≠ [] ∧ v.length ≤ 2) →
      (DbRequest.args op).length ≤ 2 →
      DbRequest.Admissible ⟨pid, -1, nullHook, roomUserKey L room, op⟩ := by
    intro op hargs hcount
    refine ⟨hne, fun v hv => (hargs v hv).1, hpid, Or.inl (Or.inr rfl), ?_⟩
    have happop := happ op
    have hsum : ((DbRequest.args op).map fun v => v.length + 3).sum ≤ 10 := by
      have hle : ((DbRequest.args op).map fun v => v.length + 3).sum ≤
          (DbRequest.args op).length * 5 := by
        have hall := List.sum_le_card_nsmul ((DbRequest.args op).map fun v => v.length + 3) 5 (by
          intro x hx
          obtain ⟨v, hv, rfl⟩ := List.mem_map.mp hx
          have := (hargs v hv).2
          omega)
        simpa using hall
      omega
    simp only [packedLength, DbRequest.fields, callFields, List.map_append, List.map_cons,
      List.map_nil, List.sum_append, List.sum_cons, List.sum_nil, Field.body, List.map_map,
      Function.comp_def, hnull]
    omega
  have hsum : decimal (n + d) ≠ [] ∧ (decimal (n + d)).length ≤ 2 ∨ n + d = 0 := by
    by_cases hz : n + d = 0
    · exact Or.inr hz
    · exact Or.inl (hdec _ (by omega) (by omega))
  have hold := hdec n hn.1 (by omega)
  unfold DbCall.Admissible DbCall.requests
  dsimp only
  split
  · refine ⟨by simp, fun r hr => ?_⟩
    obtain rfl := List.mem_singleton.mp hr
    exact hgood _ (by simp [DbRequest.args]) (by simp [DbRequest.args])
  rename_i hz
  have hnew := hsum.resolve_right hz
  refine ⟨by simp, fun r hr => ?_⟩
  rcases List.mem_append.mp hr with hr | hr
  · split at hr
    · rename_i h0
      obtain rfl := List.mem_singleton.mp hr
      have hone := hdec d (by omega) (by omega)
      exact hgood _ (by simpa [DbRequest.args] using hone) (by simp [DbRequest.args])
    · exact absurd hr List.not_mem_nil
  · obtain rfl := List.mem_singleton.mp hr
    refine hgood _ ?_ (by simp [DbRequest.args])
    intro v hv
    simp only [DbRequest.args, List.mem_cons, List.not_mem_nil, or_false] at hv
    rcases hv with rfl | rfl
    · exact hnew
    · exact hold

namespace Counted
variable {W : World} {w w' : Worker}

/-- The counters depend on the names and user lists of the rooms and on the calls. -/
theorem congr (h : Counted W.txt w) (hn : w'.names = w.names)
    (hu : ∀ r, (w'.users r).length = (w.users r).length) (hc : w'.calls = w.calls)
    (hp : w'.pid = w.pid) : Counted W.txt w' where
  pid := by
    rw [hp]
    exact h.pid
  short := by
    rw [hn]
    exact h.short
  nodup := by
    rw [hn]
    exact h.nodup
  exact r name hr := by
    rw [hn] at hr
    rw [hu, ← h.exact r name hr]
    unfold Worker.counter Worker.requests
    rw [hc, hp]
  admissible := by
    rw [hc, hp]
    exact h.admissible

theorem call (h : Counted W.txt w) {c : DbCall} (hc : OtherCall W.txt w.pid c) :
    Counted W.txt (w.call c) where
  pid := h.pid
  short := h.short
  nodup := h.nodup
  exact r name hr := by
    rw [counter_same hc]
    exact h.exact r name hr
  admissible d hd hcount := by
    rcases List.mem_append.mp hd with hd | hd
    · exact h.admissible d hd hcount
    · obtain rfl := List.mem_singleton.mp hd
      exact absurd hcount (not_isCount hc)

/-- A change of one user list together with the count requests that go with it. -/
theorem recount (h : Counted W.txt w) {r : ℕ} {name : Bytes} (hr : w.names[r]? = some name)
    {n d : ℤ} (hn : w'.names = w.names) (hp : w'.pid = w.pid)
    (hu : ∀ s, s ≠ r → (w'.users s).length = (w.users s).length)
    (hc : w'.calls = w.calls ++ countCalls W.txt name n d)
    (hcount : counted (countValue (w.users r).length) (incrementOps n d) =
      countValue (w'.users r).length)
    (hfits : (0 ≤ n ∧ n ≤ 32) ∧ (d = 1 ∨ d = -1 ∧ 1 ≤ n)) : Counted W.txt w' where
  pid := by
    rw [hp]
    exact h.pid
  short := by
    rw [hn]
    exact h.short
  nodup := by
    rw [hn]
    exact h.nodup
  exact s other hs := by
    rw [hn] at hs
    have hname := h.short name (List.mem_of_getElem? hr)
    by_cases hsr : s = r
    · subst hsr
      obtain rfl : name = other := by
        rw [hr] at hs
        exact Option.some.inj hs
      rw [counter_count hname.1 hc hp, h.exact s name hr, hcount]
    · have hne : roomUserKey W.txt name ≠ roomUserKey W.txt other := by
        intro he
        have hother := h.short other (List.mem_of_getElem? hs)
        obtain rfl := roomUserKey_injective W.txt hname.2 hother.2 he
        have hlt := (List.getElem?_eq_some_iff.mp hs).1
        exact hsr ((List.getElem?_inj hlt h.nodup).mp (by rw [hs, hr]))
      rw [counter_count_other hne hc hp, hu s hsr]
      exact h.exact s other hs
  admissible c hmem hcnt := by
    rw [hc] at hmem
    rw [hp]
    rcases List.mem_append.mp hmem with hold | hnew
    · exact h.admissible c hold hcnt
    · unfold countCalls at hnew
      split at hnew
      · exact absurd hnew List.not_mem_nil
      · obtain rfl := List.mem_singleton.mp hnew
        exact count_admissible h.pid (h.short name (List.mem_of_getElem? hr)).2 hfits.1 hfits.2

theorem of_onlySends (h : Counted W.txt w) (hs : OnlySends W w w') : Counted W.txt w' :=
  h.congr (names_of_onlySends W hs) (fun r => by rw [hs.users_eq]) hs.calls_eq hs.pid_eq

theorem room_of_member {r t : ℕ} (ht : t ∈ w.users r) :
    ∃ name, w.names[r]? = some name ∧ w.roomName r = name := by
  have hlt : r < w.rooms.length := by
    by_contra hge
    unfold Worker.users at ht
    rw [List.getElem?_eq_none (not_lt.mp hge)] at ht
    exact absurd ht List.not_mem_nil
  rw [← names_length] at hlt
  refine ⟨w.names[r], List.getElem?_eq_getElem hlt, ?_⟩
  rw [roomName_eq_names, List.getElem?_eq_getElem hlt]
  rfl

theorem leave (h : Counted W.txt w) (hm : Membership w) (t : ℕ) :
    Counted W.txt (broadcastRoomLeave W w t) := by
  cases hcb : (w.chat t).callbackData with
  | none => rwa [broadcastRoomLeave_outside W w t hcb]
  | some r =>
    obtain ⟨c, hc, hcb⟩ := Worker.callbackData_some hcb
    obtain ⟨-, hl⟩ := hm.left W hc hcb
    have ht : t ∈ w.users r := (hm.entry t r).mpr ⟨c, hc, hcb⟩
    obtain ⟨name, hname, hroom⟩ := room_of_member ht
    have hlen : (w.users r).length = ((w.users r).erase t).length + 1 := by
      rw [List.length_erase_of_mem ht]
      have := List.length_pos_of_mem ht
      omega
    have hcalls := hl.calls
    rw [hroom] at hcalls
    have hbound := hm.bound r
    have hmax : nginzMaxChatRoomUser = 32 := rfl
    refine h.recount hname hl.names (routine_leave W w t).pid_eq ?_ hcalls ?_ ?_
    · intro s hs
      rw [hl.users, if_neg hs]
    · rw [hl.users, if_pos rfl, hlen]
      exact count_down _
    · omega

/-- What `broadcast_room_join` does behind the entry of a user. -/
theorem announce (h : Counted W.txt w) {t rm : ℕ} {name : Bytes} (hr : w.names[rm]? = some name)
    {v : Worker} (hn : v.names = w.names) (hp : v.pid = w.pid) (hc : v.calls = w.calls)
    (hu : ∀ s, s ≠ rm → (v.users s).length = (w.users s).length)
    (hpos : 1 ≤ (v.users rm).length ∧ (v.users rm).length ≤ nginzMaxChatRoomUser)
    (hnew : (v.users rm).length = (w.users rm).length + 1 ∨
      (v.users rm).length = (w.users rm).length) : Counted W.txt (announceJoin W v t rm) := by
  obtain ⟨x, -, hxc, hxp, hxn, hxu, y, hy, he⟩ := announceJoin_eq W v t rm
  have hname : v.roomName rm = name := by
    rw [roomName_eq_names, hn, hr]
    rfl
  have hmax : nginzMaxChatRoomUser = 32 := rfl
  obtain ⟨k, hk⟩ : ∃ k : ℕ, (v.users rm).length = k + 1 := ⟨(v.users rm).length - 1, by omega⟩
  have hcount : ((v.users rm).length : ℤ) - 1 = (k : ℤ) := by
    rw [hk]
    push_cast
    ring
  rw [he, hname, hcount]
  refine h.recount hr ?_ ?_ ?_ (n := (k : ℤ)) (d := 1) ?_ ?_ ?_
  · exact (names_of_onlySends W hy).trans (hxn.trans hn)
  · exact hy.pid_eq.trans (hxp.trans hp)
  · intro s hs
    change (y.users s).length = _
    rw [hy.users_eq, hxu, hu s hs]
  · change y.calls ++ _ = _
    rw [hy.calls_eq, hxc, hc]
  · change _ = countValue (y.users rm).length
    rw [hy.users_eq, hxu, hk]
    rcases hnew with hnew | hnew
    · obtain rfl : (w.users rm).length = k := by omega
      exact count_up _
    · rw [← hnew, hk]
      exact count_again k
  · omega

theorem join (h : Counted W.txt w) (hm : Membership w) (t : ℕ) (room : Bytes) :
    Counted W.txt (broadcastRoomJoin W w t room).1 := by
  unfold broadcastRoomJoin
  split
  · exact h
  rename_i hlogin
  split
  · exact h
  rename_i rm hrm
  dsimp only
  have hlt : rm < w.names.length := by
    have := W.oppSearch_lt _ _ _ hrm
    simpa [names_length] using this
  obtain ⟨v, hv⟩ : ∃ v, v = w.setRoom rm fun room => { room with refs := room.refs + 1 } := ⟨_, rfl⟩
  rw [← hv]
  have hvn : v.names = w.names := by
    rw [hv]
    exact names_setRoom w rm fun _ => rfl
  have hvu : ∀ r, v.users r = w.users r := by
    rw [hv]
    exact users_setRoom_keep w rm fun _ => rfl
  have hvm : Membership v := by
    rw [hv]
    exact hm.setRefs rm (· + 1)
  have hvc : Counted W.txt v :=
    h.congr hvn (fun r => by rw [hvu]) (by rw [hv]; rfl) (by rw [hv]; rfl)
  have hchats : v.chats = w.chats := by
    rw [hv]
    rfl
  have hname : v.names[rm]? = some (w.names[rm]) := by
    rw [hvn]
    exact List.getElem?_eq_getElem hlt
  split
  · exact hvc.of_onlySends (onlySends_joinFailed W v t)
  rename_i hfull
  have hmax : nginzMaxChatRoomUser = 32 := rfl
  obtain ⟨c, hc, hl⟩ := Worker.loggedIn_some (by simpa using hlogin)
  have hcv : v.chats t = some c := by rw [hchats, hc]
  by_cases hin : c.callbackData = some rm
  · have hmem : t ∈ v.users rm := (hvm.entry t rm).mpr ⟨c, hcv, hin⟩
    have hpos := List.length_pos_of_mem hmem
    have hsettle : settleInRoom W v t rm = v.assert c.state.inRoom := by
      unfold settleInRoom
      rw [v.chat_of_some t hcv, if_pos hin]
    rw [hsettle]
    refine hvc.announce hname rfl rfl rfl (fun s hs => rfl) ⟨hpos, ?_⟩ (Or.inr rfl)
    exact (not_le.mp hfull).le
  · obtain ⟨u, b, hu, hready, he⟩ := settle_enters W hvm hcv hl hin
    have huc : Counted W.txt u ∧ Membership u := by
      rcases hu with rfl | rfl
      · exact ⟨hvc, hvm⟩
      · have ha : Membership (v.assert c.state.inRoom) := hvm.of_same rfl rfl
        have hac : Counted W.txt (v.assert c.state.inRoom) := hvc.congr rfl (fun r => rfl) rfl rfl
        exact ⟨hac.leave ha t, (ha.leave W t).1⟩
    have hub : Counted W.txt (u.assert b) := huc.1.congr rfl (fun r => rfl) rfl rfl
    have hrooms : rm < (u.assert b).rooms.length := by
      change rm < u.rooms.length
      rw [← names_length, hready.names, hvn]
      exact hlt
    have husers := enterRoom_users (u.assert b) rm t hrooms
    have hlen :
        ((enterRoom (u.assert b) t rm).users rm).length = ((u.assert b).users rm).length + 1 := by
      rw [husers, if_pos rfl, List.length_append, List.length_singleton]
    have hroom : ((u.assert b).users rm).length < 32 := by
      change (u.users rm).length < 32
      rw [hready.users]
      omega
    have hnames : (enterRoom (u.assert b) t rm).names = (u.assert b).names :=
      names_setRoom (u.assert b) rm fun _ => rfl
    have huname : (u.assert b).names[rm]? = some w.names[rm] := by
      change u.names[rm]? = _
      rw [hready.names]
      exact hname
    rw [he]
    refine hub.announce huname hnames rfl rfl ?_ ?_ (Or.inl hlen)
    · intro s hs
      rw [husers, if_neg hs]
    · omega

end Counted

/-- Membership together with exact counters is kept by every operation. -/
theorem counted_invariant (W : World) :
    RoomInvariant W fun w => Membership w ∧ Counted W.txt w where
  membership h := h.1
  congr h hm hr hc hp := by
    refine ⟨hm, h.2.congr ?_ (fun r => ?_) hc hp⟩
    · unfold Worker.names
      rw [hr]
    · unfold Worker.users
      rw [hr]
  call h hc := ⟨h.1.of_same rfl rfl, h.2.call hc⟩
  leave h t := ⟨(h.1.leave W t).1, h.2.leave h.1 t⟩
  join h t room := ⟨h.1.join W t room, h.2.join h.1 t room⟩

end Nginz
