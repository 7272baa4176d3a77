import Nginz.Chat.NameRequests
import Nginz.Chat.References

/-! Names in the store: a worker and the master with the messages between them. No name
stays registered without an owner as long as every name that the master grants finds a
connection that takes it. -/
namespace Nginz
open KeyedStore Transition

/-- A worker, the store of the master, and what is on its way between them, oldest first. -/
structure NameRegistry where
  worker : Worker
  toMaster : List DbRequest
  db : Bytes → Option Bytes
  toWorker : List DbReply

namespace NameRegistry

/-- The worker moves on, and its new calls are sent. -/
def move (s : NameRegistry) (w : Worker) : NameRegistry :=
  { s with worker := w,
           toMaster := s.toMaster ++
             (w.calls.drop s.worker.calls.length).flatMap (DbCall.requests w.pid) }

/-- An event at the worker, a list of rooms for one of its clients, or the next message of
either direction. -/
inductive Action where
  | event (e : WorkerEvent)
  | rooms (cbToken : ℕ) (info : Bytes)
  | serve
  | deliver
  deriving DecidableEq, Repr

def step (W : World) (s : NameRegistry) : Action → NameRegistry
  | .event e => s.move (s.worker.on W e)
  | .rooms cbToken info => s.move (onReply W s.worker cbToken (.rooms info))
  | .serve =>
    match s.toMaster with
    | [] => s
    | r :: rs =>
      { s with toMaster := rs, db := apply s.db r.keyOp, toWorker := s.toWorker ++ r.replies s.db }
  | .deliver =>
    match s.toWorker with
    | [] => s
    | r :: rs => { s with toWorker := rs }.move (onDbReply W s.worker r)

/-- A worker that just started, with an empty store. -/
def start (L : TxtLib) (pid : ℤ) (myRooms : List Bytes) (clock : ℕ) : NameRegistry :=
  NameRegistry.move ⟨.fresh pid clock, [], fun _ => none, []⟩ (.start L pid myRooms clock)

/-- What an action makes the worker do. -/
def workerAction (s : NameRegistry) : Action → Option WorkerAction
  | .event e => some (.event e)
  | .rooms cbToken info => some (.reply cbToken (.rooms info))
  | .serve => none
  | .deliver => s.toWorker.head?.bind fun r => r.forChat.map (.reply r.cbToken.toNat)

def workerActions (W : World) : NameRegistry → List Action → List WorkerAction
  | _, [] => []
  | s, a :: as => (s.workerAction a).toList ++ workerActions W (s.step W a) as

/-- The worker goes through a run of its own. -/
theorem worker_run (W : World) (s : NameRegistry) (as : List Action) :
    (as.foldl (step W) s).worker = (s.workerActions W as).foldl (Worker.step W) s.worker := by
  induction as generalizing s with
  | nil => rfl
  | cons a as ih =>
    have hone : (s.step W a).worker = (s.workerAction a).toList.foldl (Worker.step W) s.worker := by
      cases a with
      | event e => rfl
      | rooms cbToken info => rfl
      | serve =>
        unfold step
        dsimp only
        split <;> rfl
      | deliver =>
        unfold step workerAction
        dsimp only
        split
        · rename_i hnone
          rw [hnone]
          rfl
        · rename_i r rs hrs
          rw [hrs]
          show onDbReply W s.worker r = _
          unfold onDbReply
          cases hreply : r.forChat with
          | none => simp [hreply]
          | some reply =>
            simp [hreply]
            rfl
    rw [List.foldl_cons, ih, hone]
    show _ = ((s.workerAction a).toList ++ workerActions W (s.step W a) as).foldl _ _
    rw [List.foldl_append]

/-- When no message is in flight, every registered name has an owner. -/
def NamesOwned (s : NameRegistry) : Prop :=
  s.toMaster = [] → s.toWorker = [] →
    ∀ name, (s.db (userPrefix ++ name)).isSome → s.worker.Owned name

/-- A granted name finds an open connection that is not logged in under another one, and no
line of a client takes over another name. -/
def GrantsTaken (W : World) (s : NameRegistry) : Action → Prop
  | .event (.clientData _ t (.data line)) => LineKeepsName W (s.worker.chat t) line
  | .deliver => ∀ r ∈ s.toWorker.head?, ∀ reply ∈ r.forChat,
    reply.Adoptable s.worker r.cbToken.toNat
  | _ => True

instance (W : World) (s : NameRegistry) (a : Action) : Decidable (GrantsTaken W s a) :=
  match a with
  | .event (.clientData _ t (.data line)) =>
    inferInstanceAs (Decidable (LineKeepsName W (s.worker.chat t) line))
  | .event (.clientData _ _ .closed) => .isTrue trivial
  | .event (.clientData _ _ .error) => .isTrue trivial
  | .event (.arrive ..) => .isTrue trivial
  | .event .zombiePass => .isTrue trivial
  | .event .cleanup => .isTrue trivial
  | .event .tick => .isTrue trivial
  | .rooms .. => .isTrue trivial
  | .serve => .isTrue trivial
  | .deliver => inferInstanceAs (Decidable (∀ r ∈ s.toWorker.head?, ∀ reply ∈ r.forChat,
      reply.Adoptable s.worker r.cbToken.toNat))

end NameRegistry

/-! ### The invariant -/

/-- Every registered name has an owner, or its removal or the news of its registration is on
the way. -/
structure Accounted (s : NameRegistry) : Prop where
  requests : ∀ r ∈ s.toMaster, NameRequest r
  keys : ∀ name, (s.db (userPrefix ++ name)).isSome → ValidName name ∧
    (s.worker.Owned name ∨ (∃ r ∈ s.toMaster, r.keyOp = (userPrefix ++ name, .unset)) ∨
      ∃ r ∈ s.toWorker, r.Grants name)

namespace Accounted
variable {W : World} {s : NameRegistry}

theorem namesOwned (h : Accounted s) : s.NamesOwned := by
  intro hrequests hreplies name hname
  rcases (h.keys name hname).2 with howned | ⟨r, hr, -⟩ | ⟨r, hr, -⟩
  · exact howned
  · rw [hrequests] at hr
    exact absurd hr List.not_mem_nil
  · rw [hreplies] at hr
    exact absurd hr List.not_mem_nil

/-- The worker gives names up by requests only. -/
theorem move (h : Accounted s) {w : Worker} (hw : NamesKept W s.worker w) :
    Accounted (s.move w) := by
  obtain ⟨cs, hcs, hall, hown⟩ := hw.calls
  have hnew : w.calls.drop s.worker.calls.length = cs := by rw [hcs, List.drop_left]
  constructor
  · intro r hr
    unfold NameRegistry.move at hr
    rw [hnew] at hr
    rcases List.mem_append.mp hr with hr | hr
    · exact h.requests r hr
    · obtain ⟨c, hc, hrc⟩ := List.mem_flatMap.mp hr
      exact clientCall_requests W.txt (hall c hc) hrc
  · intro name hname
    obtain ⟨hvalid, hwhere⟩ := h.keys name hname
    refine ⟨hvalid, ?_⟩
    unfold NameRegistry.move
    rw [hnew]
    rcases hwhere with howned | ⟨r, hr, hop⟩ | hgranted
    · rcases hown name hvalid.nonempty howned with howned' | hasked
      · exact Or.inl howned'
      · refine Or.inr (Or.inl ⟨⟨w.pid, -1, nullHook, buildNameKey W.txt name, .unset⟩, ?_, ?_⟩)
        · exact List.mem_append_right _ (List.mem_flatMap.mpr
            ⟨_, hasked, List.mem_singleton_self _⟩)
        · rw [← nameKey_fits W.txt hvalid]
          rfl
    · exact Or.inr (Or.inl ⟨r, List.mem_append_left _ hr, hop⟩)
    · exact Or.inr (Or.inr hgranted)

/-- A reply whose name has an owner is no longer needed. -/
theorem take (h : Accounted s) {r : DbReply} {rs : List DbReply} (hrs : s.toWorker = r :: rs)
    (howned : ∀ name, r.Grants name → s.worker.Owned name) :
      Accounted { s with toWorker := rs } := by
  refine ⟨h.requests, fun name hname => ?_⟩
  obtain ⟨hvalid, hwhere⟩ := h.keys name hname
  refine ⟨hvalid, ?_⟩
  rcases hwhere with hown | hasked | ⟨q, hq, hgrants⟩
  · exact Or.inl hown
  · exact Or.inr (Or.inl hasked)
  · rw [hrs] at hq
    rcases List.mem_cons.mp hq with rfl | hq
    · exact Or.inl (howned name hgrants)
    · exact Or.inr (Or.inr ⟨q, hq, hgrants⟩)

theorem serve (h : Accounted s) : Accounted (s.step W .serve) := by
  unfold NameRegistry.step
  dsimp only
  split
  · exact h
  rename_i r rs hrs
  have hfirst := h.requests r (by rw [hrs]; exact List.mem_cons_self)
  constructor
  · exact fun q hq => h.requests q (by rw [hrs]; exact List.mem_cons_of_mem r hq)
  intro name hname
  -- what is known of the name when this request leaves its key alone
  have hkept (hold : (s.db (userPrefix ++ name)).isSome)
    (hr : r.keyOp ≠ (userPrefix ++ name, .unset)) :
      ValidName name ∧ (s.worker.Owned name ∨ (∃ q ∈ rs, q.keyOp = (userPrefix ++ name, .unset)) ∨
        ∃ rep ∈ s.toWorker ++ r.replies s.db, rep.Grants name) := by
    obtain ⟨hvalid, hwhere⟩ := h.keys name hold
    refine ⟨hvalid, hwhere.imp_right (Or.imp ?_ ?_)⟩
    · rintro ⟨q, hq, hop⟩
      rw [hrs] at hq
      rcases List.mem_cons.mp hq with rfl | hq
      · exact absurd hop hr
      · exact ⟨q, hq, hop⟩
    · rintro ⟨rep, hrep, hgrants⟩
      exact ⟨rep, List.mem_append_left _ hrep, hgrants⟩
  have happly : (apply s.db r.keyOp (userPrefix ++ name)).isSome := hname
  by_cases hkey : r.key = userPrefix ++ name
  swap
  · rw [apply_other s.db (show r.keyOp.1 ≠ _ from hkey)] at happly
    exact hkept happly fun he => hkey (congrArg Prod.fst he)
  have hsame :
      apply s.db r.keyOp (userPrefix ++ name) = r.op.update (s.db (userPrefix ++ name)) := by
    unfold DbRequest.keyOp
    rw [hkey, apply_same]
  rw [hsame] at happly
  rcases hfirst name hkey with hunset | ⟨hvalid, hset, hhook⟩
  · rw [hunset] at happly
    exact absurd happly (by simp [Op.update, Op.succeeds, Op.written])
  · cases hold : s.db (userPrefix ++ name) with
    | none =>
      obtain ⟨rep, hrep, hgrants⟩ := reply_grants hvalid hset hhook (hkey ▸ hold)
      exact ⟨hvalid, Or.inr (Or.inr ⟨rep, List.mem_append_right _ hrep, hgrants⟩)⟩
    | some v =>
      refine hkept (by rw [hold]; rfl) fun he => ?_
      have hop : r.op = .unset := congrArg Prod.snd he
      rw [hset] at hop
      exact absurd hop (by simp)

/-- The deliveries in two parts: what comes before a reply is handled, and the rest. -/
theorem move_move {v w : Worker} (hv : NamesKept W s.worker v) (hw : NamesKept W v w) :
    (s.move v).move w = s.move w := by
  obtain ⟨cs, hcs, -⟩ := hv.calls
  obtain ⟨ds, hds, -⟩ := hw.calls
  have hboth : w.calls = s.worker.calls ++ (cs ++ ds) := by rw [hds, hcs, List.append_assoc]
  unfold NameRegistry.move
  dsimp only
  rw [hboth, List.drop_left, hcs, List.drop_left, ← List.append_assoc, ← hcs, List.drop_left,
    hw.pid, List.flatMap_append, List.append_assoc]

theorem deliver (h : Accounted s) (hgrants : NameRegistry.GrantsTaken W s .deliver) :
    Accounted (s.step W .deliver) := by
  unfold NameRegistry.step
  dsimp only
  split
  · exact h
  rename_i r rs hrs
  unfold NameRegistry.GrantsTaken at hgrants
  rw [hrs] at hgrants
  obtain ⟨v, hv, howned, hw⟩ : ∃ v, NamesKept W s.worker v ∧
    (∀ name, r.Grants name → v.Owned name) ∧
      NamesKept W v (onDbReply W s.worker r) := by
    unfold onDbReply DbReply.Grants
    cases hreply : r.forChat with
    | none => exact ⟨s.worker, .refl _, fun name hn => absurd hn (by simp), .refl _⟩
    | some reply =>
      obtain ⟨v, hv, howned, hw⟩ := kept_reply W (hgrants r rfl reply hreply)
      exact ⟨v, hv, fun name hn => howned name hn, hw⟩
  have hadopted : Accounted { s.move v with toWorker := rs } := (h.move hv).take hrs howned
  rw [← move_move (W := W) (s := { s with toWorker := rs }) hv hw]
  exact hadopted.move (W := W) hw

theorem step (h : Accounted s) {a : NameRegistry.Action} (ha : NameRegistry.GrantsTaken W s a) :
    Accounted (s.step W a) := by
  cases a with
  | event e =>
    refine h.move (W := W) (kept_on W fun fd t line he => ?_)
    subst he
    exact ha
  | rooms cbToken info =>
    obtain ⟨v, hv, -, hw⟩ := kept_reply W (w := s.worker) (t := cbToken) (r := .rooms info)
      fun name hn => absurd hn (by simp [Reply.granted])
    exact h.move (hv.trans hw)
  | serve => exact h.serve
  | deliver => exact h.deliver ha

end Accounted

theorem start_accounted (L : TxtLib) (pid : ℤ) (myRooms : List Bytes) (clock : ℕ) :
    Accounted (.start L pid myRooms clock) where
  requests r hr := by
    obtain ⟨c, hc, hrc⟩ := List.mem_flatMap.mp hr
    obtain ⟨name, -, rfl⟩ := start_calls L pid myRooms clock c (List.mem_of_mem_drop hc)
    apply nameRequest_of_room
    rw [List.mem_singleton.mp hrc]
    exact List.IsPrefix.trans (by decide) (roomPidKey_head L _)
  keys name hname := absurd hname (by simp [NameRegistry.start, NameRegistry.move])

/-- In every run whose grants are taken, every registered name has an owner whenever no
message is in flight. -/
theorem names_owned (W : World) (pid : ℤ) (myRooms : List Bytes) (clock : ℕ)
    (as : List NameRegistry.Action)
    (h : Along (NameRegistry.step W) (NameRegistry.GrantsTaken W)
    (.start W.txt pid myRooms clock) as) :
    (as.foldl (NameRegistry.step W) (.start W.txt pid myRooms clock)).NamesOwned := by
  have hend : Accounted (as.foldl (NameRegistry.step W) (.start W.txt pid myRooms clock)) :=
    along_invariant (P := Accounted) (fun _ _ hs ha => hs.step ha)
      (start_accounted W.txt pid myRooms clock) h
  exact hend.namesOwned

/-- A client logs in and disconnects. -/
def loginAndOut : List NameRegistry.Action :=
  [.serve, .event (.arrive 5 0 (List.replicate 128 0) (welcomeHandOff 4712 1)),
    .event (.clientData 5 0 (.data (lit "bob\n"))), .serve, .deliver,
    .event (.clientData 5 0 .closed), .serve]

theorem names_owned_loginAndOut :
    (loginAndOut.foldl (NameRegistry.step .calm) (.start .cutting 4712 [lit "ONE"] 1)).NamesOwned :=
  names_owned .calm 4712 [lit "ONE"] 1 loginAndOut (by decide +kernel)

/-- A client sends two names before the first reply. -/
def twoNames : List NameRegistry.Action :=
  [.serve, .event (.arrive 5 0 (List.replicate 128 0) (welcomeHandOff 4712 1)),
    .event (.clientData 5 0 (.data (lit "bob\n"))), .event (.clientData 5 0 (.data (lit "ann\n"))),
    .serve, .serve, .deliver, .deliver]

def afterTwoNames : NameRegistry :=
  twoNames.foldl (NameRegistry.step .calm) (.start .cutting 4712 [lit "ONE"] 1)

/-- The first name stays registered, and nobody has it. -/
theorem second_name_orphans_first : ¬ afterTwoNames.NamesOwned := by
  intro h
  obtain ⟨t, c, hc, -, -, hname⟩ :=
    h (by decide +kernel) (by decide +kernel) (lit "bob") (by decide +kernel)
  have hbalance : ReferencesBalance afterTwoNames.worker := by
    unfold afterTwoNames
    rw [NameRegistry.worker_run]
    exact balance_of_rest (balanced_run .calm 4712 [lit "ONE"] 1 (by decide +kernel))
  -- the worker has one connection, the one in slot 0
  have hslot : t = 0 := by
    by_contra ht
    have hgone : afterTwoNames.worker.references t = 0 := by
      have hloop : afterTwoNames.worker.eventLoop = [(5, 0)] := by decide +kernel
      have hrooms : afterTwoNames.worker.rooms.map InternalRoom.userList = [[]] := by decide +kernel
      have hzombies : afterTwoNames.worker.zombieList = [] := by decide +kernel
      have hqueue : afterTwoNames.worker.lazyCleanup = [] := by decide +kernel
      have hentries : afterTwoNames.worker.entries t = 0 := by
        have hcounts :
            (afterTwoNames.worker.rooms.map InternalRoom.userList).map (List.count t) = [0] := by
          rw [hrooms]
          rfl
        unfold Worker.entries
        rw [List.map_map] at hcounts
        show (afterTwoNames.worker.rooms.map (List.count t ∘ InternalRoom.userList)).sum = 0
        rw [hcounts]
        rfl
      unfold Worker.references
      rw [hloop, hzombies, hqueue, hentries]
      simpa using Ne.symm ht
    rw [(hbalance.gone t).mpr hgone] at hc
    exact absurd hc (by simp)
  subst hslot
  have hann : (afterTwoNames.worker.chats 0).map ChatConnection.name = some (lit "ann") := by
    decide +kernel
  rw [hc] at hann
  exact absurd (hname.symm.trans (Option.some.inj hann)) (by decide)

end Nginz
