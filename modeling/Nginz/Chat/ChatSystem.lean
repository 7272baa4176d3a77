import Nginz.Chat.NameSteps
import Nginz.Lib.Transition

/-! The whole chat: any number of workers, the store of the master, and what is on its way
between them. -/
namespace Nginz
open KeyedStore

/-- `default_rooms`. -/
def defaultRooms : List Bytes :=
  [lit "ONE", lit "TWO", lit "THREE", lit "FOUR", lit "FIVE", lit "SIX", lit "SEVEN", lit "EIGHT",
    lit "NINE", lit "TEN"]

theorem defaultRooms_valid : ∀ room ∈ defaultRooms, ValidRoom room := by
  have hall :
      ∀ room ∈ defaultRooms, room ≠ [] ∧ room.length ≤ 54 ∧ ∀ x ∈ room, isSeparator x = false := by
    decide +kernel
  exact fun room hroom => ⟨(hall room hroom).1, (hall room hroom).2.1, (hall room hroom).2.2⟩

/-- The workers, the requests and replies between each of them and the store, oldest first,
and the sockets that travel with their datagrams. -/
structure ChatSystem (ι : Type*) where
  workers : ι → Worker
  toMaster : ι → List DbRequest
  db : Bytes → Option Bytes
  toWorker : ι → List DbReply
  flights : List HandOff

namespace ChatSystem
variable {ι : Type*} [DecidableEq ι]

/-- A worker moves on: its new calls are sent, and the sockets it hands off leave. -/
def move (s : ChatSystem ι) (i : ι) (w : Worker) : ChatSystem ι :=
  { s with
    workers := Function.update s.workers i w
    toMaster := Function.update s.toMaster i (s.toMaster i ++
      (w.calls.drop (s.workers i).calls.length).flatMap (DbCall.requests w.pid))
    flights := s.flights ++ w.handOffs.drop (s.workers i).handOffs.length }

/-- The store serves the oldest request of a worker, which leaves the others. -/
def serve (s : ChatSystem ι) (i : ι) (r : DbRequest) (rs : List DbRequest) : ChatSystem ι :=
  { s with
    toMaster := Function.update s.toMaster i rs
    db := apply s.db r.keyOp
    toWorker := Function.update s.toWorker i (s.toWorker i ++ r.replies s.db) }

section Fields
variable (s : ChatSystem ι) {i j : ι} (w : Worker)

theorem move_worker : (s.move i w).workers i = w := Function.update_self ..

theorem move_worker_other (h : j ≠ i) : (s.move i w).workers j = s.workers j :=
  Function.update_of_ne h ..

theorem move_toMaster : (s.move i w).toMaster i = s.toMaster i ++
    (w.calls.drop (s.workers i).calls.length).flatMap (DbCall.requests w.pid) :=
      Function.update_self ..

theorem move_toMaster_other (h : j ≠ i) : (s.move i w).toMaster j = s.toMaster j :=
  Function.update_of_ne h ..

variable (r : DbRequest) (rs : List DbRequest)

theorem serve_toMaster : (s.serve i r rs).toMaster i = rs := Function.update_self ..

theorem serve_toWorker : (s.serve i r rs).toWorker i = s.toWorker i ++ r.replies s.db :=
  Function.update_self ..

end Fields

/-- An event at a worker, a list of rooms for one of its clients, the oldest message of
either direction, a new client that the master accepts for some worker, or the arrival of a
socket on its way. -/
inductive Action (ι : Type*) where
  | event (i : ι) (e : WorkerEvent)
  | rooms (i : ι) (cbToken : ℕ) (info : Bytes)
  | serve (i : ι)
  | deliver (i : ι)
  | accept (destpid : ℤ) (socket : ℕ)
  | receive (i : ι) (k : ℕ) (fd : ℤ) (t : ℕ) (storage : Bytes)

/-- Sockets arrive by `receive` only, at the process they are sent to and in a buffer of at
least 128 bytes. -/
def step (L : TxtLib) (W : ι → World) (s : ChatSystem ι) : Action ι → ChatSystem ι
  | .event _ (.arrive ..) => s
  | .event i e => s.move i ((s.workers i).on (W i) e)
  | .rooms i cbToken info => s.move i (onReply (W i) (s.workers i) cbToken (.rooms info))
  | .serve i =>
    match s.toMaster i with
    | [] => s
    | r :: rs => s.serve i r rs
  | .deliver i =>
    match s.toWorker i with
    | [] => s
    | r :: rs =>
      { s with toWorker := Function.update s.toWorker i rs }.move i
        (onDbReply (W i) (s.workers i) r)
  | .accept destpid socket =>
    { s with flights := s.flights ++ [HandOff.mk destpid socket (welcomeDatagram L)] }
  | .receive i k fd t storage =>
    match s.flights[k]? with
    | none => s
    | some o =>
      if o.destpid = (s.workers i).pid ∧ 128 ≤ storage.length ∧
          (s.workers i).Enabled (.arrive fd t storage o) then
        { s with flights := s.flights.eraseIdx k }.move i
          ((s.workers i).on (W i) (.arrive fd t storage o))
      else s

/-- Every worker just started, and the store is empty. -/
def start (L : TxtLib) (pid : ι → ℤ) (myRooms : ι → List Bytes) (clock : ι → ℕ) : ChatSystem ι where
  workers i := .start L (pid i) (myRooms i) (clock i)
  toMaster i := (Worker.start L (pid i) (myRooms i) (clock i)).calls.flatMap
    (DbCall.requests (pid i))
  db _ := none
  toWorker _ := []
  flights := []

/-- The connection in slot `t` of the worker is logged in under the name. -/
def LoggedIn (s : ChatSystem ι) (i : ι) (t : ℕ) (name : Bytes) : Prop :=
  ∃ c ∈ (s.workers i).chats t, c.state.loggedIn = true ∧ c.state.quit = false ∧
    c.state.softQuit = false ∧ c.name = name

instance (s : ChatSystem ι) (i : ι) (t : ℕ) (name : Bytes) : Decidable (s.LoggedIn i t name) := by
  unfold LoggedIn
  infer_instance

/-- Clients use the public commands only. -/
def PublicCommands (L : TxtLib) : Action ι → Prop
  | .event _ (.clientData _ _ (.data line)) => PublicLine L line
  | _ => True

instance (L : TxtLib) (a : Action ι) : Decidable (PublicCommands L a) :=
  match a with
  | .event _ (.clientData _ _ (.data line)) => inferInstanceAs (Decidable (PublicLine L line))
  | .event _ (.clientData _ _ .closed) => .isTrue trivial
  | .event _ (.clientData _ _ .error) => .isTrue trivial
  | .event _ (.arrive ..) => .isTrue trivial
  | .event _ .zombiePass => .isTrue trivial
  | .event _ .cleanup => .isTrue trivial
  | .event _ .tick => .isTrue trivial
  | .rooms .. => .isTrue trivial
  | .serve _ => .isTrue trivial
  | .deliver _ => .isTrue trivial
  | .accept .. => .isTrue trivial
  | .receive .. => .isTrue trivial

/-- A lazy cleanup drops the last reference of no connection that was handed off. -/
def SparesHandedOff (s : ChatSystem ι) : Action ι → Prop
  | .event i e => Nginz.SparesHandedOff (s.workers i) (.event e)
  | _ => True

/-- Every name is logged in at one place at most, and as long as it is, it is registered. -/
structure UniqueNames (s : ChatSystem ι) : Prop where
  one : ∀ name, name ≠ [] → ∀ i t j u, s.LoggedIn i t name → s.LoggedIn j u name → i = j ∧ t = u
  held : ∀ name, name ≠ [] → ∀ i t, s.LoggedIn i t name → (s.db (userPrefix ++ name)).isSome

end ChatSystem
end Nginz
