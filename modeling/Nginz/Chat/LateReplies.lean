import Nginz.Chat.Replies
import Nginz.Lib.Transition

/-! Late replies: a reply finds its connection by the slot of the pool alone. It reaches the
connection that asked exactly when the slot was not given away in between. -/
namespace Nginz
open Transition

/-- How many connections were made in the slot so far; it tells them apart. -/
def Worker.generation (w : Worker) (t : ℕ) : ℕ :=
  w.fdLog.countP fun
    | .opened _ u => u = t
    | _ => false

/-- A request whose reply is awaited, and the generation of the connection that asked. -/
structure Request where
  hook : Bytes
  token : ℕ
  asker : ℕ
  deriving DecidableEq, Repr

/-- The connection that is in the slot now asks. -/
def Worker.asks (w : Worker) (hook : Bytes) (t : ℕ) : Request := ⟨hook, t, w.generation t⟩

/-- The request of a call that names a hook for the reply. -/
def Worker.asked (w : Worker) : DbCall → Option Request
  | .compareAndSwap cbToken (some hook) _ _ _ => some (w.asks hook cbToken.toNat)
  | .get cbToken (some hook) _ => some (w.asks hook cbToken.toNat)
  | _ => none

/-- The worker and the replies that are on their way to it. -/
structure Awaiting where
  worker : Worker
  awaited : List Request

namespace Awaiting

/-- The worker moves on, and awaits the replies to its new calls. -/
def move (s : Awaiting) (w : Worker) : Awaiting :=
  ⟨w, s.awaited ++ (w.calls.drop s.worker.calls.length).filterMap w.asked⟩

/-- An event at the worker, a request for the list of rooms, or the delivery of the reply to
any of the requests. -/
inductive Action where
  | event (e : WorkerEvent)
  | rooms (t : ℕ)
  | reply (i : ℕ) (r : Reply)
  deriving DecidableEq, Repr

/-- The request that a delivered reply belongs to. -/
def answers (s : Awaiting) (i : ℕ) (r : Reply) : Option Request :=
  (s.awaited[i]?).filter fun q => q.hook = r.hook

def step (W : World) (s : Awaiting) : Action → Awaiting
  | .event e => s.move (s.worker.on W e)
  | .rooms t =>
    match chatRoomLookupPlug s.worker t with
    | some token => ⟨s.worker, s.awaited ++ [s.worker.asks onAsyncRoomReply token]⟩
    | none => s
  | .reply i r =>
    match s.answers i r with
    | some q => { s with awaited := s.awaited.eraseIdx i }.move (onReply W s.worker q.token r)
    | none => s

/-- A worker that just started. -/
def start (L : TxtLib) (pid : ℤ) (myRooms : List Bytes) : Awaiting :=
  ⟨.start L pid myRooms 0, []⟩

end Awaiting

/-! ### What a reply may do -/

/-- A connection but for its reference count. -/
def ChatConnection.uncounted (c : ChatConnection) : ChatConnection := { c with refs := 0 }

/-- The connection that asked is in its slot and open. -/
def StillOpen (w : Worker) (q : Request) : Prop :=
  ∃ c, w.chats q.token = some c ∧ w.generation q.token = q.asker ∧ c.ending = false

/-- No connection changed as far as the view shows it, nothing was sent, and nothing failed. -/
structure Ignored (view : ChatConnection → ChatConnection) (w w' : Worker) : Prop where
  chats : ∀ t, (w'.chats t).map view = (w.chats t).map view
  sends : w'.sends = w.sends
  crashed : w'.crashed = w.crashed

/-- The reply was applied to the connection in slot `t`, which is told before anybody else. -/
def Applied (W : World) (w : Worker) (t : ℕ) (r : Reply) (w' : Worker) : Prop :=
  if r.silent then w' = w
  else w' = oppUnref W (r.apply W (w.setChat t fun c => { c with refs := c.refs + 1 }) t) t ∧
    ∃ rest, w'.sends = w.sends ++ (t, r.text W.txt) :: rest

/-- The worker before anything failed in it. -/
def Worker.sound (w : Worker) : Worker := { w with crashed := false }

/-- The reply is applied to the connection that asked when it is still open, and does
nothing at all otherwise. -/
def ReplyHandled (W : World) (view : ChatConnection → ChatConnection) (w : Worker) (q : Request)
    (r : Reply) : Prop :=
  (StillOpen w q → Applied W w q.token r (onReply W w q.token r)) ∧
    (¬ StillOpen w q → Ignored view w.sound (onReply W w.sound q.token r))

/-- The replies of an action are handled right. -/
def RepliesRight (W : World) (view : ChatConnection → ChatConnection) (s : Awaiting) :
    Awaiting.Action → Prop
  | .reply i r => ∀ q, s.answers i r = some q → ReplyHandled W view s.worker q r
  | _ => True

/-- The slot of the request holds the connection that asked, or one that is ending. -/
def AskerOrEnding (w : Worker) (q : Request) : Prop :=
  ∃ c ∈ w.chats q.token, w.generation q.token = q.asker ∨ c.ending = true

/-- The slot of the request holds the connection that asked, and it is open. -/
def AskerOpen (w : Worker) (q : Request) : Prop :=
  ∃ c ∈ w.chats q.token, w.generation q.token = q.asker ∧ c.ending = false

instance (w : Worker) (q : Request) : Decidable (AskerOrEnding w q) := by
  unfold AskerOrEnding
  infer_instance

/-- The replies of an action find the slots of their requests so, unless they are silent. -/
def RepliesFind (slot : Worker → Request → Prop) (s : Awaiting) : Awaiting.Action → Prop
  | .reply i r => ∀ q ∈ s.answers i r, r.silent = true ∨ slot s.worker q
  | _ => True

instance (slot : Worker → Request → Prop) [∀ w q, Decidable (slot w q)] (s : Awaiting)
    (a : Awaiting.Action) : Decidable (RepliesFind slot s a) := by
  cases a <;> unfold RepliesFind <;> infer_instance

/-! ### The exact condition -/

section Handling
variable (W : World) {w : Worker} {q : Request} {r : Reply}

/-- An open connection in the slot gets the reply, whoever asked. -/
theorem applied_open {c : ChatConnection} (hc : w.chats q.token = some c)
    (hopen : c.ending = false) :
    Applied W w q.token r (onReply W w q.token r) := by
  unfold Applied
  by_cases hr : r.silent = true
  · rw [if_pos hr]
    exact onReply_silent W w q.token hr
  · rw [if_neg hr, onReply_open W w hc hopen (by simpa using hr)]
    exact ⟨rfl, apply_sends W _ q.token r⟩

theorem applied_stillOpen (hopen : StillOpen w q) :
    Applied W w q.token r (onReply W w q.token r) := by
  obtain ⟨c, hc, -, hc'⟩ := hopen
  exact applied_open W hc hc'

theorem ignored_refl (view : ChatConnection → ChatConnection) (w : Worker) : Ignored view w w :=
  ⟨fun _ => rfl, rfl, rfl⟩

theorem ignored_ending (w : Worker) (t : ℕ) : Ignored ChatConnection.uncounted w
    (w.setChat t fun c => { c with refs := c.refs + 1 }) where
  chats u := by
    by_cases hu : u = t
    · subst hu
      rw [w.setChat_same, Option.map_map]
      rfl
    · rw [w.setChat_other t _ hu]
  sends := rfl
  crashed := rfl

/-- Nothing of this is ignoring a reply: to apply it to an open connection, and to look for
it in an empty slot. -/
theorem ignored_slot {view : ChatConnection → ChatConnection} (hr : r.silent = false)
    (h : Ignored view w.sound (onReply W w.sound q.token r)) :
    ∃ c, w.chats q.token = some c ∧ c.ending = true := by
  cases hc : w.chats q.token with
  | none =>
    have hfail := h.crashed
    rw [onReply_none W w.sound hc hr] at hfail
    exact absurd hfail (by simp [Worker.assert, Worker.sound])
  | some c =>
    refine ⟨c, rfl, ?_⟩
    by_contra hopen
    have happlied := applied_open (w := w.sound) (q := q) (r := r) W hc (by simpa using hopen)
    unfold Applied at happlied
    rw [if_neg (by simp [hr])] at happlied
    obtain ⟨-, rest, hsends⟩ := happlied
    rw [h.sends] at hsends
    exact absurd hsends (by simp)

/-- A reply is handled right, up to reference counts, exactly when the slot holds the
connection that asked or one that is ending. -/
theorem replyHandled_iff : ReplyHandled W ChatConnection.uncounted w q r ↔
    r.silent = true ∨ AskerOrEnding w q := by
  constructor
  · rintro ⟨-, hignored⟩
    by_cases hr : r.silent = true
    · exact Or.inl hr
    by_cases hopen : StillOpen w q
    · obtain ⟨c, hc, hgen, -⟩ := hopen
      exact Or.inr ⟨c, hc, Or.inl hgen⟩
    · obtain ⟨c, hc, hend⟩ := ignored_slot W (by simpa using hr) (hignored hopen)
      exact Or.inr ⟨c, hc, Or.inr hend⟩
  · intro hcond
    refine ⟨fun hopen => applied_stillOpen W hopen, fun hgone => ?_⟩
    by_cases hr : r.silent = true
    · rw [onReply_silent W _ _ hr]
      exact ignored_refl _ _
    obtain ⟨c, hc, hslot⟩ := hcond.resolve_left hr
    have hend : c.ending = true := by
      by_contra hopen
      rcases hslot with hgen | hend
      · exact hgone ⟨c, hc, hgen, by simpa using hopen⟩
      · exact hopen hend
    rw [onReply_ending W w.sound hc hend (by simpa using hr)]
    exact ignored_ending _ _

/-- With the reference counts, the connection that asked must be open. -/
theorem replyHandled_counted_iff : ReplyHandled W id w q r ↔ r.silent = true ∨ AskerOpen w q := by
  constructor
  · rintro ⟨-, hignored⟩
    by_cases hr : r.silent = true
    · exact Or.inl hr
    by_cases hopen : StillOpen w q
    · exact Or.inr hopen
    · obtain ⟨c, hc, hend⟩ := ignored_slot W (by simpa using hr) (hignored hopen)
      have hsame := (hignored hopen).chats q.token
      rw [onReply_ending W w.sound hc hend (by simpa using hr), Worker.setChat_same] at hsame
      have hfound : w.sound.chats q.token = some c := hc
      rw [hfound] at hsame
      have hcount := congrArg ChatConnection.refs (Option.some.inj hsame)
      exact absurd hcount (by simp)
  · intro hcond
    refine ⟨fun hopen => applied_stillOpen W hopen, fun hgone => ?_⟩
    rcases hcond with hr | hopen
    · rw [onReply_silent W _ _ hr]
      exact ignored_refl _ _
    · exact absurd hopen hgone

theorem repliesRight_iff (s : Awaiting) (a : Awaiting.Action) :
    RepliesRight W ChatConnection.uncounted s a ↔ RepliesFind AskerOrEnding s a := by
  cases a with
  | reply i r => exact forall₂_congr fun q _ => replyHandled_iff W
  | _ => exact Iff.rfl

theorem repliesRight_counted_iff (s : Awaiting) (a : Awaiting.Action) :
    RepliesRight W id s a ↔ RepliesFind AskerOpen s a := by
  cases a with
  | reply i r => exact forall₂_congr fun q _ => replyHandled_counted_iff W
  | _ => exact Iff.rfl

end Handling

/-- In every run of requests, disconnects, destructions, new connections and replies, every
reply is handled right exactly when each of them finds, in the slot that its token names,
the connection that asked or one that is ending; a reference stays behind in the second
case. -/
theorem late_replies_iff (W : World) (s : Awaiting) (as : List Awaiting.Action) :
    (Along (Awaiting.step W) (RepliesRight W ChatConnection.uncounted) s as ↔
      Along (Awaiting.step W) (RepliesFind AskerOrEnding) s as) ∧
    (Along (Awaiting.step W) (RepliesRight W id) s as ↔
      Along (Awaiting.step W) (RepliesFind AskerOpen) s as) :=
  ⟨along_congr (repliesRight_iff W), along_congr (repliesRight_counted_iff W)⟩

/-! ### A reply on another's socket -/

/-- A client sends its name and disconnects, its connection is destroyed, the next client
gets the slot, and then the reply comes. -/
def lateLogin : List Awaiting.Action :=
  [.event (.arrive 5 0 (List.replicate 128 0) (welcomeHandOff 4712 1)),
    .event (.clientData 5 0 (.data (lit "bob\n"))), .event .tick,
      .event (.clientData 5 0 .closed)] ++
  List.replicate 11 (.event .zombiePass) ++
  [.event .cleanup, .event (.arrive 5 0 (List.replicate 128 0) (welcomeHandOff 4712 2)),
    .reply 0 (.login 1 (lit "bob"))]

/-- The second client is logged in under the name of the first one. -/
theorem late_login_reaches_stranger :
    ¬ Along (Awaiting.step .calm) (RepliesRight .calm ChatConnection.uncounted)
        (.start .cutting 4712 [lit "ONE"]) lateLogin ∧
      ((lateLogin.foldl (Awaiting.step .calm) (.start .cutting 4712 [lit "ONE"])).worker.chat
        0).name = lit "bob" := by
  rw [along_congr (repliesRight_iff .calm)]
  decide +kernel

end Nginz
