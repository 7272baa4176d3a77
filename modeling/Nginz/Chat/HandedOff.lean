import Nginz.Chat.ServiceEvents
import Nginz.Lib.Transition

/-! Handed-off descriptors: a connection that gave its descriptor number away leaves it
alone, and every registration is removed for its own connection, as long as no lazy cleanup
finalizes such a connection. -/
namespace Nginz
open Transition

/-- What adding rooms leaves alone. -/
theorem addRooms_keeps (L : TxtLib) (myRooms : List Bytes) (w : Worker) :
    { myRooms.foldl (chatRoomAddHelper L) w with rooms := w.rooms, calls := w.calls } = w := by
  induction myRooms generalizing w with
  | nil => rfl
  | cons name names ih =>
    have hone : { chatRoomAddHelper L w name with rooms := w.rooms, calls := w.calls } = w := by
      unfold chatRoomAddHelper broadcastAddRoom
      dsimp only
      split <;> rfl
    have hrest := ih (chatRoomAddHelper L w name)
    rw [List.foldl_cons]
    generalize names.foldl (chatRoomAddHelper L) (chatRoomAddHelper L w name) = v at hrest
    rw [← hrest] at hone
    exact hone

theorem start_keeps (L : TxtLib) (pid : ℤ) (myRooms : List Bytes) (clock : ℕ) :
    { Worker.start L pid myRooms clock with rooms := [], calls := [] } = .fresh pid clock :=
  addRooms_keeps L myRooms (.fresh pid clock)

/-- A worker that just started serves nobody. -/
theorem start_serving (L : TxtLib) (strict : Prop) (pid : ℤ) (myRooms : List Bytes) (clock : ℕ) :
    AtRest (Serving strict) (.start L pid myRooms clock) := by
  have hm := (start_membership L pid myRooms clock).1
  have hk := start_keeps L pid myRooms clock
  generalize Worker.start L pid myRooms clock = w at hm hk
  have hchats : w.chats = fun _ => none := congrArg Worker.chats hk
  have hloop : w.eventLoop = [] := congrArg Worker.eventLoop hk
  have hzombies : w.zombieList = [] := congrArg Worker.zombieList hk
  have hqueue : w.lazyCleanup = [] := congrArg Worker.lazyCleanup hk
  have hlog : w.fdLog = [] := congrArg Worker.fdLog hk
  have hnone {t : ℕ} {c : ChatConnection} (hc : w.chats t = some c) : False := by
    rw [hchats] at hc
    exact absurd hc (by simp)
  unfold AtRest
  rw [hqueue]
  constructor
  · exact hm
  · exact hqueue
  · intro fd t hreg
    rw [hloop] at hreg
    exact absurd hreg List.not_mem_nil
  · rw [hloop]
    exact List.nodup_nil
  · exact fun t c hc => (hnone hc).elim
  · exact fun t u c d hc => (hnone hc).elim
  · exact fun t c hc => (hnone hc).elim
  · exact fun t c hc => (hnone hc).elim
  · exact fun t c hc => (hnone hc).elim
  · intro t ht
    rw [hzombies] at ht
    exact absurd ht List.not_mem_nil
  · exact fun t c hc => (hnone hc).elim
  · exact fun t c hc => (hnone hc).elim
  · intro t _
    unfold Worker.holders queued
    rw [hloop, hzombies]
    simp
  · intro _
    rw [hlog]
    exact ⟨fun fd t u hmem => absurd hmem List.not_mem_nil,
      fun pre e post t hsplit _ => absurd hsplit (by simp)⟩

/-- A lazy cleanup drops the last reference of no connection that handed its descriptor
off. -/
def SparesHandedOff (w : Worker) : WorkerAction → Prop
  | .event .cleanup => ∀ t c, w.chats t = some c → handedOff w.fdLog t = true →
      w.lazyCleanup.count (.chat t) < c.refs
  | _ => True

/-- Whatever clients, replies, new connections and cleanups a worker goes through: as long as
no cleanup finalizes a handed-off connection, every registration is removed for its own
connection only, and no number is written to, closed or unregistered for a connection that
handed it off. -/
theorem handed_off_untouched (W : World) (pid : ℤ) (myRooms : List Bytes) (clock : ℕ)
    (as : List WorkerAction)
    (h : Along (Worker.step W) SparesHandedOff (.start W.txt pid myRooms clock) as) :
    Untouched (as.foldl (Worker.step W) (.start W.txt pid myRooms clock)).fdLog := by
  have hP := serving_invariant W True
  have hrest :
      AtRest (Serving True) (as.foldl (Worker.step W) (.start W.txt pid myRooms clock)) := by
    apply along_invariant ?_ (start_serving W.txt True pid myRooms clock) h
    intro w a hw ha
    apply hP.step not_false hw
    cases a with
    | reply t r => exact Or.inl trivial
    | event e =>
      cases e with
      | cleanup => exact fun t c hc hm => Or.inl (ha t c hc hm)
      | _ => trivial
  exact hrest.untouched trivial

/-- A client logs in and joins a room of process 4713; the next client gets the number of
its descriptor. -/
def numberReused : List WorkerAction :=
  [.event (.arrive 5 0 (List.replicate 128 0) (welcomeHandOff 4712 1)),
    .event (.clientData 5 0 (.data (lit "ann\n"))), .reply 0 (.login 1 (lit "ann")),
    .reply 0 (.roomPid (lit "room/pid/TWO") (lit "4713")),
    .event (.arrive 5 1 (List.replicate 128 0) (welcomeHandOff 4712 2))]

theorem handed_off_untouched_numberReused : Untouched
    (numberReused.foldl (Worker.step .calm) (.start .cutting 4712 [lit "ONE"] 1)).fdLog :=
  handed_off_untouched .calm 4712 [lit "ONE"] 1 numberReused
    ⟨trivial, trivial, trivial, trivial, trivial, trivial⟩

/-- The cleanup of the first connection takes the registration of the second one. -/
theorem cleanup_unregisters_stranger : ¬ Untouched
    ((numberReused.foldl (Worker.step .calm) (.start .cutting 4712 [lit "ONE"] 1)).step .calm
      (.event .cleanup)).fdLog := by
  intro h
  have hown := h.own 5 0 1 (by decide +kernel)
  exact absurd hown (by decide)

end Nginz
