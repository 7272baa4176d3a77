import Nginz.Chat.Keys
import Nginz.Db.Atomic

/-! Handing out the rooms: `fork_processors` gives each worker the next two rooms of the
table, and each worker registers itself as their host. -/
namespace Nginz
open KeyedStore

/-- A process with its `internal_child_count`, and what it has of the chat. -/
structure RoomProcess where
  internalChildCount : ℕ
  worker : Worker

def defaultRoomForkParentAfterCallback (p : RoomProcess) : RoomProcess :=
  { p with internalChildCount := p.internalChildCount + 2 }

/-- `none` when there is no such name in the table. -/
def defaultRoomForkChildAfterCallback (L : TxtLib) (defaultRooms : List Bytes) (p : RoomProcess) :
    Option RoomProcess := do
  let myRoom ← defaultRooms[p.internalChildCount]?
  let worker := chatRoomAddHelper L p.worker myRoom
  let count := p.internalChildCount + 1
  let myRoom ← defaultRooms[count]?
  some ⟨count, chatRoomAddHelper L worker myRoom⟩

/-- `fork_processors` for as many clients as there are results of `fork`: the parent and the
children when all callbacks returned. A child is a copy of the parent with a pid of its own, and
a fork that fails is the last one. -/
def forkProcessors (L : TxtLib) (defaultRooms : List Bytes) :
    List ℤ → RoomProcess → Option (RoomProcess × List RoomProcess)
  | [], parent => some (parent, [])
  | pid :: pids, parent =>
    if pid < 0 then some (parent, [])
    else do
      let child ← defaultRoomForkChildAfterCallback L defaultRooms
        { parent with worker := { parent.worker with pid := pid } }
      let forked ← forkProcessors L defaultRooms pids (defaultRoomForkParentAfterCallback parent)
      some (forked.1, child :: forked.2)

/-- The master before the first fork: it hosts no rooms. -/
def roomMasterStart (pid : ℤ) (clock : ℕ) : RoomProcess := ⟨0, .fresh pid clock⟩

section Rooms
variable (L : TxtLib) {room : Bytes}

/-- The call by which a process becomes the host of a room. -/
def hostCall (pid : ℤ) (room : Bytes) : DbCall := .setIfNull (-1) none (lit "room/pid/" ++ room) pid

theorem chatRoomAddHelper_eq (w : Worker) (h : room.length < 32)
    (hnew : room ∉ w.rooms.map InternalRoom.name) :
    chatRoomAddHelper L w room = { w with
      calls := w.calls ++ [hostCall w.pid room]
      rooms := w.rooms ++ [InternalRoom.mk room [] 1] } := by
  unfold chatRoomAddHelper
  dsimp only
  rw [roomName_fits L (by omega), roomPidKey_fits L (by omega)]
  exact if_neg hnew

/-- A worker that was forked when the parent was at the given index of the table. -/
structure RoomProcess.Hosts (defaultRooms : List Bytes) (index : ℕ) (pid : ℤ)
    (p : RoomProcess) : Prop where
  rooms : p.worker.rooms.map InternalRoom.name = (defaultRooms.drop index).take 2
  calls : p.worker.calls = ((defaultRooms.drop index).take 2).map (hostCall pid)

variable {defaultRooms : List Bytes} (hshort : ∀ room ∈ defaultRooms, room.length < 32)
  (hdistinct : defaultRooms.Nodup)
include hshort hdistinct

/-- A child of a process without rooms adds the two rooms from its index on. -/
theorem child_hosts {p : RoomProcess} (hrooms : p.worker.rooms = []) (hcalls : p.worker.calls = [])
    (hroom : p.internalChildCount + 2 ≤ defaultRooms.length) :
    ∃ child, defaultRoomForkChildAfterCallback L defaultRooms p = some child ∧
      child.Hosts defaultRooms p.internalChildCount p.worker.pid := by
  obtain ⟨index, hindex⟩ : ∃ index, p.internalChildCount = index := ⟨_, rfl⟩
  rw [hindex] at hroom ⊢
  have hfirst := List.getElem?_eq_getElem (l := defaultRooms) (i := index) (by omega)
  have hsecond := List.getElem?_eq_getElem (l := defaultRooms) (i := index + 1) (by omega)
  have hne : defaultRooms[index + 1] ≠ defaultRooms[index] := fun he =>
    absurd ((List.Nodup.getElem_inj_iff hdistinct).mp he) (by omega)
  have htwo :
      (defaultRooms.drop index).take 2 = [defaultRooms[index], defaultRooms[index + 1]] := by
    rw [List.drop_eq_getElem_cons (by omega), List.drop_eq_getElem_cons (by omega)]
    rfl
  have hadd := chatRoomAddHelper_eq L p.worker (hshort _ (List.getElem_mem (l := defaultRooms)
    (n := index) (by omega))) (by simp [hrooms])
  have hmore := chatRoomAddHelper_eq L (chatRoomAddHelper L p.worker defaultRooms[index])
    (hshort _ (List.getElem_mem (l := defaultRooms) (n := index + 1) (by omega)))
    (by rw [hadd]; simp [hrooms, hne])
  refine ⟨⟨index + 1, chatRoomAddHelper L (chatRoomAddHelper L p.worker defaultRooms[index])
    defaultRooms[index + 1]⟩, ?_, ?_, ?_⟩
  · unfold defaultRoomForkChildAfterCallback
    simp only [hindex, hfirst, hsecond, Option.bind_eq_bind, Option.bind_some]
  · rw [hmore, hadd, htwo]
    simp [hrooms]
  · rw [hmore, hadd, htwo]
    simp [hcalls]

/-- The forks give each child the next two rooms. -/
theorem forkProcessors_hosts {pids : List ℤ} (hpids : ∀ pid ∈ pids, 0 ≤ pid) {p : RoomProcess}
    (hrooms : p.worker.rooms = []) (hcalls : p.worker.calls = [])
    (hroom : p.internalChildCount + 2 * pids.length ≤ defaultRooms.length) :
    ∃ (m : RoomProcess) (children : List RoomProcess),
      forkProcessors L defaultRooms pids p = some (m, children) ∧ children.length = pids.length ∧
      ∀ (i : ℕ) (child : RoomProcess) (pid : ℤ), children[i]? = some child → pids[i]? = some pid →
        child.Hosts defaultRooms (p.internalChildCount + 2 * i) pid := by
  induction pids generalizing p with
  | nil => exact ⟨p, [], rfl, rfl, fun i child pid hc => absurd hc (by simp)⟩
  | cons pid pids ih =>
    rw [List.length_cons] at hroom
    obtain ⟨child, hchild, hhosts⟩ := child_hosts L hshort hdistinct
      (p := { p with worker := { p.worker with pid := pid } }) hrooms hcalls
      (show p.internalChildCount + 2 ≤ _ by omega)
    obtain ⟨m, children, hforked, hlength, hothers⟩ := ih
      (fun q hq => hpids q (List.mem_cons_of_mem _ hq))
      (p := defaultRoomForkParentAfterCallback p) hrooms hcalls
      (show p.internalChildCount + 2 + 2 * pids.length ≤ _ by omega)
    refine ⟨m, child :: children, ?_, by rw [List.length_cons, List.length_cons, hlength], ?_⟩
    · unfold forkProcessors
      rw [if_neg (hpids pid List.mem_cons_self).not_gt, hchild, hforked]
      rfl
    · intro i c q hc hq
      cases i with
      | zero =>
        obtain rfl := Option.some.inj hc
        obtain rfl := Option.some.inj hq
        exact hhosts
      | succ i =>
        have hnext := hothers i c q hc hq
        have hindex :
            p.internalChildCount + 2 + 2 * i = p.internalChildCount + 2 * (i + 1) := by omega
        exact hindex ▸ hnext

end Rooms

/-! ### The store -/

/-- The request of a host for a room. -/
def hostRequest (pid : ℤ) (room : Bytes) : DbRequest :=
  ⟨pid, -1, nullHook, lit "room/pid/" ++ room, .setIfNull (decimal pid)⟩

theorem hostCall_requests (pid : ℤ) (room : Bytes) :
    (hostCall pid room).requests pid = [hostRequest pid room] :=
  rfl

theorem decimal_length_le {n : ℤ} (h0 : 0 < n) (h : n < 2 ^ 31) : (decimal n).length ≤ 10 := by
  have hdigits : (Nat.digits 10 n.natAbs).length ≤ 10 := by
    rw [Nat.digits_length_le_iff (by decide)]
    omega
  unfold decimal
  rw [if_neg (by omega), if_neg (by omega)]
  simpa using hdigits

theorem hostRequest_admissible {pid : ℤ} (hpid : 0 < pid ∧ pid < 2 ^ 31) {room : Bytes}
    (hroom : room.length < 32) : (hostRequest pid room).Admissible where
  key := by simp [hostRequest, lit]
  values v hv := by
    obtain rfl := List.mem_singleton.mp hv
    exact decimal_ne_nil pid
  pid := ⟨hpid.1.le, hpid.2⟩
  token := .inl (.inr rfl)
  short := by
    have hlen := decimal_length_le hpid.1 hpid.2
    have hint := intbuf_length_le pid
    have htoken := intbuf_length_le (-1)
    have happ : setIfNullApp.length = 19 := by decide
    have hhook : nullHook.length = 4 := by decide
    have hkey : (lit "room/pid/").length = 9 := by decide
    simp only [hostRequest, DbRequest.fields, DbRequest.app, DbRequest.args, callFields,
      packedLength,
      Field.body, List.map_append, List.map_cons, List.map_nil, List.sum_append, List.sum_cons,
      List.sum_nil, List.length_append, happ, hhook, hkey]
    omega

section Run
variable {ι : Type} [DecidableEq ι]

omit [DecidableEq ι] in
/-- Requests for the null hook are not answered. -/
theorem repliesTo_host {served : List (ι × DbRequest)} (h : ∀ e ∈ served, e.2.HookIsNull)
    (db : Bytes → Option Bytes) : repliesTo db served = [] := by
  induction served generalizing db with
  | nil => rfl
  | cons e served ih =>
    have hfirst : e.2.replies db = [] := if_pos (h e List.mem_cons_self)
    have hrest := ih (fun f hf => h f (List.mem_cons_of_mem _ hf)) (apply db e.2.keyOp)
    unfold repliesTo
    rw [hfirst, hrest]
    rfl

end Run

variable {P : ℕ}

/-- Each name below `2 * P` is that of one worker. -/
theorem hosted_once {defaultRooms : List Bytes} (hdistinct : defaultRooms.Nodup)
    (htable : 2 * P ≤ defaultRooms.length) {room : Bytes}
    (hroom : room ∈ defaultRooms.take (2 * P)) :
    ∃! i : Fin P, room ∈ (defaultRooms.drop (2 * i)).take 2 := by
  obtain ⟨k, hk, rfl⟩ := List.mem_iff_getElem.mp hroom
  rw [List.length_take] at hk
  have hmem :
      ∀ i : ℕ, i < P → (defaultRooms[k] ∈ (defaultRooms.drop (2 * i)).take 2 ↔ i = k / 2) := by
    intro i hi
    constructor
    · intro h
      obtain ⟨j, hj, heq⟩ := List.mem_iff_getElem.mp h
      rw [List.length_take, List.length_drop] at hj
      rw [List.getElem_take, List.getElem_drop] at heq
      have hindex := (List.Nodup.getElem_inj_iff hdistinct).mp heq
      omega
    · rintro rfl
      refine List.mem_iff_getElem.mpr ⟨k % 2, ?_, ?_⟩
      · rw [List.length_take, List.length_drop]
        omega
      · rw [List.getElem_take, List.getElem_drop]
        congr 1
        omega
  refine ⟨⟨k / 2, by omega⟩, ?_, fun i hi => ?_⟩
  · rw [List.getElem_take]
    exact (hmem (k / 2) (by omega)).mpr rfl
  · rw [List.getElem_take] at hi
    exact Fin.ext ((hmem i i.isLt).mp hi)

section Store
variable {defaultRooms : List Bytes} {workers : Fin P → RoomProcess} {pid : Fin P → ℤ}
  (hhosts : ∀ i : Fin P, (workers i).Hosts defaultRooms (2 * i) (pid i))
  {as : List (StoreAction (Fin P))} (hcalls : ∀ i, callsBy i as = (workers i).worker.calls)
include hhosts hcalls

/-- A worker calls for its rooms only. -/
theorem call_of_host {i : Fin P} {c : DbCall} (h : .call i c ∈ as) :
    ∃ room ∈ (defaultRooms.drop (2 * i)).take 2, c = hostCall (pid i) room := by
  have hmem := call_mem_callsBy h
  rw [hcalls, (hhosts i).calls] at hmem
  obtain ⟨room, hroom, rfl⟩ := List.mem_map.mp hmem
  exact ⟨room, hroom, rfl⟩

theorem served_of_host {e : Fin P × DbRequest} (he : e ∈ servedIn pid as) :
    ∃ room ∈ (defaultRooms.drop (2 * e.1)).take 2, e.2 = hostRequest (pid e.1) room := by
  obtain ⟨c, hc, hrequest⟩ := served_issued he
  obtain ⟨room, hroom, rfl⟩ := call_of_host hhosts hcalls hc
  rw [hostCall_requests] at hrequest
  exact ⟨room, hroom, List.mem_singleton.mp hrequest⟩

/-- When everything was served, the first requests for a room were the only ones. -/
theorem served_host_key (hdistinct : defaultRooms.Nodup) (htable : 2 * P ≤ defaultRooms.length)
    {db : Bytes → Option Bytes} {i : Fin P} {room : Bytes}
    (hroom : room ∈ (defaultRooms.drop (2 * i)).take 2) (hdb : db (lit "room/pid/" ++ room) = none)
    (hall : hostRequest (pid i) room ∈ Mailbox.takenFrom i (servedIn pid as)) :
    storeAfter db (servedIn pid as) (lit "room/pid/" ++ room) = some (decimal (pid i)) := by
  have hbelow : ∀ {j : Fin P}, room ∈ (defaultRooms.drop (2 * j)).take 2 →
      room ∈ defaultRooms.take (2 * P) := by
    intro j hj
    rw [List.take_drop] at hj
    have hsub := List.mem_of_mem_drop hj
    exact (List.take_subset_take_left _ (by omega)) hsub
  unfold storeAfter
  refine run_setIfNull hdb (fun op hop => ?_) ?_
  · obtain ⟨r, hr, rfl⟩ := List.mem_map.mp hop
    obtain ⟨hr, hkey⟩ := List.mem_filter.mp hr
    obtain ⟨e, he, rfl⟩ := List.mem_map.mp hr
    obtain ⟨other, hother, heq⟩ := served_of_host hhosts hcalls he
    rw [heq] at hkey ⊢
    have hsame : lit "room/pid/" ++ other = lit "room/pid/" ++ room := of_decide_eq_true hkey
    obtain rfl := List.append_cancel_left hsame
    have howner := (hosted_once hdistinct htable (hbelow hroom)).unique hother hroom
    rw [howner]
    rfl
  · obtain ⟨e, he, heq⟩ := List.mem_map.mp hall
    have hserved := (List.mem_filter.mp he).1
    refine List.ne_nil_of_mem (List.mem_map_of_mem (List.mem_filter.mpr
      ⟨List.mem_map_of_mem hserved, ?_⟩))
    rw [heq]
    exact decide_eq_true rfl

/-- Once all messages have arrived, the store has the hosts. -/
theorem hosts_stored (L : TxtLib) (hbuffer : L.room nginzMaxBinaryMsgLen < 65536)
    (hdistinct : defaultRooms.Nodup) (hshort : ∀ room ∈ defaultRooms, room.length < 32)
    (htable : 2 * P ≤ defaultRooms.length) (masterPid : ℤ) (hpid : ∀ i, 0 < pid i ∧ pid i < 2 ^ 31)
    {db : Bytes → Option Bytes} (hdb : ∀ room ∈ defaultRooms, db (lit "room/pid/" ++ room) = none) :
    ∃ s, (StoreSystem.start L db).run L masterPid pid as = some s ∧
      ((∀ i, s.pipe i = []) → ∀ i : Fin P, ∀ room ∈ (defaultRooms.drop (2 * i)).take 2,
        s.master.globalDb (lit "room/pid/" ++ room) = some (decimal (pid i))) := by
  have hname :
      ∀ {i : Fin P} {room}, room ∈ (defaultRooms.drop (2 * i)).take 2 → room ∈ defaultRooms :=
    fun h => List.mem_of_mem_drop (List.mem_of_mem_take h)
  have hadmissible : ∀ a ∈ as, a.Admissible pid := by
    intro a ha
    cases a with
    | receive w => trivial
    | call w c =>
      obtain ⟨room, hroom, rfl⟩ := call_of_host hhosts hcalls ha
      refine ⟨by simp [hostCall_requests], fun r hr => ?_⟩
      rw [hostCall_requests] at hr
      obtain rfl := List.mem_singleton.mp hr
      exact hostRequest_admissible (hpid w) (hshort room (hname hroom))
  have hsilent : repliesTo db (servedIn pid as) = [] := by
    refine repliesTo_host (fun e he => ?_) db
    obtain ⟨room, -, heq⟩ := served_of_host hhosts hcalls he
    rw [heq]
    exact .inr rfl
  obtain ⟨s, hrun, h⟩ := run_refines L hbuffer (start_refines L hbuffer) hadmissible
    (fun rep hrep => absurd (hsilent ▸ hrep) List.not_mem_nil)
  refine ⟨s, hrun, fun hquiet i room hroom => ?_⟩
  have hpending : (Mailbox.run Mailbox.init (as.map (StoreAction.event pid))).pending i = [] := by
    have hpipe := h.pipe i
    rw [hquiet i] at hpipe
    exact List.map_eq_nil_iff.mp hpipe.symm
  have htaken := Mailbox.run_exactly_once Mailbox.init (as.map (StoreAction.event pid)) i
  rw [hpending, List.append_nil, posted_calls, hcalls, (hhosts i).calls] at htaken
  have hall : hostRequest (pid i) room ∈ Mailbox.takenFrom i (servedIn pid as) := by
    unfold servedIn
    rw [htaken]
    refine List.mem_append_right _ (List.mem_flatMap.mpr
      ⟨_, List.mem_map_of_mem hroom, List.mem_singleton.mpr rfl⟩)
  rw [h.table]
  exact served_host_key hhosts hcalls hdistinct htable hroom (hdb room (hname hroom)) hall

end Store

/-- When the forks are done, each room of the table below `2 * P` was added by one worker, and
each worker added two; and when all its messages have arrived, in whatever order among the
workers, the store has the pid of the worker under the key of each room. -/
theorem rooms_hosted_once (L : TxtLib) (hroom : L.room nginzMaxBinaryMsgLen < 65536)
    (defaultRooms : List Bytes) (hdistinct : defaultRooms.Nodup)
    (hshort : ∀ room ∈ defaultRooms, room.length < 32) (htable : 2 * P ≤ defaultRooms.length)
    (masterPid : ℤ) (clock : ℕ) (pid : Fin P → ℤ) (hpid : ∀ i, 0 < pid i ∧ pid i < 2 ^ 31)
    (db : Bytes → Option Bytes) (hdb : ∀ room ∈ defaultRooms, db (lit "room/pid/" ++ room) = none) :
    ∃ (m : RoomProcess) (workers : Fin P → RoomProcess),
      forkProcessors L defaultRooms (List.ofFn pid) (roomMasterStart masterPid clock) =
        some (m, List.ofFn workers) ∧
      (∀ room ∈ defaultRooms.take (2 * P),
        ∃! i, room ∈ (workers i).worker.rooms.map InternalRoom.name) ∧
      (∀ i, (workers i).worker.rooms.length = 2) ∧
      ∀ as : List (StoreAction (Fin P)), (∀ i, callsBy i as = (workers i).worker.calls) →
        ∃ s, (StoreSystem.start L db).run L masterPid pid as = some s ∧
          ((∀ i, s.pipe i = []) → ∀ i, ∀ room ∈ (workers i).worker.rooms.map InternalRoom.name,
            s.master.globalDb (lit "room/pid/" ++ room) = some (decimal (pid i))) := by
  have hforks : ∀ q ∈ List.ofFn pid, 0 ≤ q := by
    intro q hq
    obtain ⟨i, rfl⟩ := List.mem_ofFn.mp hq
    exact (hpid i).1.le
  obtain ⟨m, children, hforked, hlength, hchildren⟩ :=
    forkProcessors_hosts L hshort hdistinct hforks
    (p := roomMasterStart masterPid clock) rfl rfl (by
      rw [List.length_ofFn]
      show 0 + 2 * P ≤ _
      omega)
  rw [List.length_ofFn] at hlength
  let workers : Fin P → RoomProcess := fun i => children[i.val]
  have hworkers : List.ofFn workers = children := by
    subst hlength
    exact List.ofFn_getElem
  have hhosts : ∀ i : Fin P, (workers i).Hosts defaultRooms (2 * i) (pid i) := by
    intro i
    have hhost := hchildren i (workers i) (pid i) (List.getElem?_eq_getElem _) (by simp)
    rwa [show (roomMasterStart masterPid clock).internalChildCount = 0 from rfl, Nat.zero_add]
      at hhost
  refine ⟨m, workers, hforked.trans (by rw [hworkers]), fun room hroom => ?_, fun i => ?_,
    fun as hcalls => ?_⟩
  · simp only [(hhosts _).rooms]
    exact hosted_once hdistinct htable hroom
  · have hrooms := congrArg List.length (hhosts i).rooms
    rw [List.length_map, List.length_take, List.length_drop] at hrooms
    omega
  · simp only [(hhosts _).rooms]
    exact hosts_stored hhosts hcalls L hroom hdistinct hshort htable masterPid hpid hdb

/-- Two workers and four rooms. -/
theorem rooms_hosted_once_twoWorkers :
    ∃ (m : RoomProcess) (workers : Fin 2 → RoomProcess),
      forkProcessors .cutting [lit "ONE", lit "TWO", lit "THREE", lit "FOUR"]
        (List.ofFn ![4712, 4713]) (roomMasterStart 4711 0) = some (m, List.ofFn workers) ∧
      (∀ i, (workers i).worker.rooms.length = 2) ∧
      ∀ as : List (StoreAction (Fin 2)), (∀ i, callsBy i as = (workers i).worker.calls) →
        ∃ s, (StoreSystem.start .cutting fun _ => none).run .cutting 4711 ![4712, 4713] as =
          some s ∧
          ((∀ i, s.pipe i = []) → ∀ i, ∀ room ∈ (workers i).worker.rooms.map InternalRoom.name,
            s.master.globalDb (lit "room/pid/" ++ room) = some (decimal (![4712, 4713] i))) := by
  obtain ⟨m, workers, hforked, -, htwo, hstored⟩ := rooms_hosted_once .cutting (by decide)
    [lit "ONE", lit "TWO", lit "THREE", lit "FOUR"] (by decide) (by decide) (P := 2) (by decide)
      4711 0
    ![4712, 4713] (by decide) (fun _ => none) fun _ _ => rfl
  exact ⟨m, workers, hforked, htwo, hstored⟩

end Nginz
