import Mathlib.Data.Set.Card
import Nginz.Chat.NameRequests
import Nginz.Chat.ServiceEvents

/-! The names of a worker as a ledger: a connection that is logged in holds its name until
it passes it on with its descriptor or asks the store to remove it. -/
namespace Nginz
open KeyedStore

/-- The connections that are logged in under the name, except those that handed their
descriptor off. -/
def Worker.namesakes (w : Worker) (name : Bytes) : Set ℕ :=
  {t | ∃ c, w.chats t = some c ∧ c.state.loggedIn = true ∧ c.name = name ∧
    handedOff w.fdLog t = false}

/-- A connection on its way to the room of another process. -/
structure Passage where
  destpid : ℤ
  socket : ℕ
  room : Bytes
  name : Bytes
  deriving DecidableEq, Repr

/-- What the destination receives of it. -/
def Passage.handOff (L : TxtLib) (p : Passage) : HandOff :=
  ⟨p.destpid, p.socket, joinDatagram L p.destpid p.room p.name⟩

/-- Room and name fit into the datagram. -/
structure Passage.Valid (p : Passage) : Prop where
  room : ValidRoom p.room
  name : p.name ≠ [] → ValidName p.name

/-- The requests that remove the name from the store. -/
def removals (rs : List DbRequest) (name : Bytes) : ℕ :=
  rs.countP fun r => r.keyOp = (userPrefix ++ name, .unset)

/-- The connections on their way that are logged in under the name. -/
def carried (ps : List Passage) (name : Bytes) : ℕ := ps.countP (·.name = name)

@[simp] theorem removals_nil (name : Bytes) : removals [] name = 0 := rfl

@[simp] theorem carried_nil (name : Bytes) : carried [] name = 0 := rfl

theorem removals_append (rs ts : List DbRequest) (name : Bytes) :
    removals (rs ++ ts) name = removals rs name + removals ts name := List.countP_append

theorem carried_append (ps qs : List Passage) (name : Bytes) :
    carried (ps ++ qs) name = carried ps name + carried qs name := List.countP_append

section Slot
variable {w w' : Worker} {t : ℕ} (hchats : ∀ u, u ≠ t → w'.chats u = w.chats u)
  (hlog : ∀ u, u ≠ t → handedOff w'.fdLog u = handedOff w.fdLog u) {name : Bytes}
include hchats hlog

theorem namesakes_others {u : ℕ} (hut : u ≠ t) : u ∈ w'.namesakes name ↔ u ∈ w.namesakes name := by
  show (∃ c, w'.chats u = some c ∧ _) ↔ ∃ c, w.chats u = some c ∧ _
  rw [hchats u hut, hlog u hut]

/-- A connection that is new under the name is one more. -/
theorem namesakes_gain : (w'.namesakes name).encard ≤ (w.namesakes name).encard + 1 := by
  have hsub : w'.namesakes name ⊆ insert t (w.namesakes name) := by
    intro u hu
    by_cases hut : u = t
    · exact Or.inl hut
    · exact Or.inr ((namesakes_others hchats hlog hut).mp hu)
  exact (Set.encard_le_encard hsub).trans (Set.encard_insert_le _ t)

/-- A connection that is not new under the name is none more. -/
theorem namesakes_keep (ht : t ∈ w'.namesakes name → t ∈ w.namesakes name) :
    (w'.namesakes name).encard ≤ (w.namesakes name).encard := by
  apply Set.encard_le_encard
  intro u hu
  by_cases hut : u = t
  · subst hut
    exact ht hu
  · exact (namesakes_others hchats hlog hut).mp hu

/-- A connection that leaves the name is one less. -/
theorem namesakes_spend (hgone : t ∉ w'.namesakes name) (ht : t ∈ w.namesakes name) :
    (w'.namesakes name).encard + 1 ≤ (w.namesakes name).encard := by
  rw [← Set.encard_sdiff_singleton_add_one ht]
  refine add_le_add_left (Set.encard_le_encard fun u hu => ?_) 1
  have hut : u ≠ t := by
    rintro rfl
    exact hgone hu
  exact ⟨(namesakes_others hchats hlog hut).mp hu, hut⟩

end Slot

/-- A worker that moved on gained at most `gain` connections under each name: what it asks
the store to remove and what it sends away comes out of its own. -/
structure NamesSpent (W : World) (gain : Bytes → ℕ∞) (w w' : Worker) : Prop where
  pid : w'.pid = w.pid
  ledger : ∃ cs ps, w'.calls = w.calls ++ cs ∧ (∀ c ∈ cs, ClientCall W.txt c) ∧
    w'.handOffs = w.handOffs ++ ps.map (Passage.handOff W.txt) ∧ (∀ p ∈ ps, p.Valid) ∧
    ∀ name, name ≠ [] →
      (w'.namesakes name).encard + removals (cs.flatMap (DbCall.requests w.pid)) name +
        carried ps name ≤ (w.namesakes name).encard + gain name

/-- A named connection has a name that a login can give, and is logged in unless it ends. -/
def ChatConnection.Credible (c : ChatConnection) : Prop :=
  c.name ≠ [] → ValidName c.name ∧ (c.state.loggedIn = true ∨ c.ending = true)

def Worker.Credible (w : Worker) : Prop := ∀ t c, w.chats t = some c → c.Credible

namespace NamesSpent
variable {W : World} {gain gain' : Bytes → ℕ∞} {w w' w'' : Worker}

/-- A change that calls nobody and after which no name has more connections. -/
theorem of_fewer (hpid : w'.pid = w.pid) (hcalls : w'.calls = w.calls)
    (hoffs : w'.handOffs = w.handOffs)
    (h : ∀ name, name ≠ [] → (w'.namesakes name).encard ≤ (w.namesakes name).encard + gain name) :
    NamesSpent W gain w w' := by
  refine ⟨hpid, [], [], ?_, ?_, ?_, ?_, fun name hname => ?_⟩
  · rw [hcalls, List.append_nil]
  · exact fun c hc => absurd hc List.not_mem_nil
  · rw [hoffs, List.map_nil, List.append_nil]
  · exact fun p hp => absurd hp List.not_mem_nil
  · simpa using h name hname

theorem same (hpid : w'.pid = w.pid) (hcalls : w'.calls = w.calls)
    (hoffs : w'.handOffs = w.handOffs)
    (hchats : w'.chats = w.chats) (hlog : w'.fdLog = w.fdLog) : NamesSpent W gain w w' := by
  refine of_fewer hpid hcalls hoffs fun name _ => ?_
  unfold Worker.namesakes
  rw [hchats, hlog]
  exact le_self_add

protected theorem refl (w : Worker) : NamesSpent W gain w w := same rfl rfl rfl rfl rfl

protected theorem trans (h : NamesSpent W gain w w') (h' : NamesSpent W gain' w' w'') :
    NamesSpent W (gain + gain') w w'' := by
  obtain ⟨cs, ps, hcs, hcalls, hps, hvalid, hsum⟩ := h.ledger
  obtain ⟨cs', ps', hcs', hcalls', hps', hvalid', hsum'⟩ := h'.ledger
  refine ⟨h'.pid.trans h.pid, cs ++ cs', ps ++ ps', ?_, ?_, ?_, ?_, fun name hname => ?_⟩
  · rw [hcs', hcs, List.append_assoc]
  · intro c hc
    exact (List.mem_append.mp hc).elim (hcalls c) (hcalls' c)
  · rw [hps', hps, List.map_append, List.append_assoc]
  · intro p hp
    exact (List.mem_append.mp hp).elim (hvalid p) (hvalid' p)
  · have hfirst := hsum name hname
    have hsecond := hsum' name hname
    rw [h.pid] at hsecond
    rw [List.flatMap_append, removals_append, carried_append]
    push_cast
    calc _ = ((w''.namesakes name).encard + removals (cs'.flatMap (DbCall.requests w.pid)) name +
            carried ps' name) +
          (removals (cs.flatMap (DbCall.requests w.pid)) name + carried ps name : ℕ∞) := by ring
      _ ≤ ((w'.namesakes name).encard + gain' name) +
          (removals (cs.flatMap (DbCall.requests w.pid)) name + carried ps name : ℕ∞) :=
        add_le_add_left hsecond _
      _ = ((w'.namesakes name).encard + removals (cs.flatMap (DbCall.requests w.pid)) name +
            carried ps name) + gain' name := by ring
      _ ≤ ((w.namesakes name).encard + gain name) + gain' name := add_le_add_left hfirst _
      _ = _ := by rw [Pi.add_apply, add_assoc]

/-- A part that gains nothing. -/
theorem then_free (h : NamesSpent W gain w w') (h' : NamesSpent W 0 w' w'') :
    NamesSpent W gain w w'' := by
  have hboth := h.trans h'
  rwa [add_zero] at hboth

theorem free_then (h : NamesSpent W 0 w w') (h' : NamesSpent W gain w' w'') :
    NamesSpent W gain w w'' := by
  have hboth := h.trans h'
  rwa [zero_add] at hboth

/-- No routine work changes who is logged in. -/
theorem of_routine (h : Routine W w w') : NamesSpent W 0 w w' := by
  obtain ⟨cs, hcs, hall⟩ := h.calls
  refine ⟨h.pid_eq, cs, [], hcs, fun c hc => .routine (hall c hc), ?_, ?_, fun name _ => ?_⟩
  · rw [h.handOffs_eq, List.map_nil, List.append_nil]
  · exact fun p hp => absurd hp List.not_mem_nil
  have hnone : removals (cs.flatMap (DbCall.requests w.pid)) name = 0 := by
    unfold removals
    rw [List.countP_eq_zero]
    intro r hr
    obtain ⟨c, hc, hrc⟩ := List.mem_flatMap.mp hr
    simpa using routineCall_keeps W.txt (hall c hc) hrc name
  have hsub : w'.namesakes name ⊆ w.namesakes name := by
    rintro t ⟨c', hc', hlogin, hname, hmoved⟩
    obtain ⟨c, hc, hf⟩ := h.chats_of_some hc'
    refine ⟨c, hc, ?_, ?_, ?_⟩
    · rw [← hf.loggedIn, hlogin]
    · rw [← hf.name, hname]
    · rw [← Serving.handedOff_routine h, hmoved]
  rw [hnone]
  simpa using Set.encard_le_encard hsub

/-- A change of one connection that makes it new under no name. -/
theorem of_slot (t : ℕ) (hpid : w'.pid = w.pid) (hcalls : w'.calls = w.calls)
    (hoffs : w'.handOffs = w.handOffs) (hchats : ∀ u, u ≠ t → w'.chats u = w.chats u)
    (hlog : ∀ u, u ≠ t → handedOff w'.fdLog u = handedOff w.fdLog u)
    (ht : ∀ name, name ≠ [] → t ∈ w'.namesakes name → t ∈ w.namesakes name) :
    NamesSpent W gain w w' :=
  of_fewer hpid hcalls hoffs fun name hne =>
    (namesakes_keep hchats hlog (ht name hne)).trans le_self_add

theorem setChat (t : ℕ) {f : ChatConnection → ChatConnection}
    (hf : ∀ c, w.chats t = some c → (f c).state.loggedIn = true → (f c).name ≠ [] →
      c.state.loggedIn = true ∧ c.name = (f c).name) : NamesSpent W gain w (w.setChat t f) := by
  refine of_slot t rfl rfl rfl (fun u hut => w.setChat_other t f hut) (fun u _ => rfl) ?_
  rintro name hne ⟨c', hc', hlogin, rfl, hmoved⟩
  rw [w.setChat_same] at hc'
  obtain ⟨c, hc, rfl⟩ := Option.map_eq_some_iff.mp hc'
  obtain ⟨hlogin', hname⟩ := hf c hc hlogin hne
  exact ⟨c, hc, hlogin', hname, hmoved⟩

end NamesSpent

/-! ### The end of a connection -/

section Ends
variable {W : World} {q : List LazyObject} {held : Multiset ℕ} {w w' : Worker} {t : ℕ}
  {c : ChatConnection}

theorem removals_unset (pid t : ℤ) (hook own name : Bytes) :
    removals [⟨pid, t, hook, userPrefix ++ own, .unset⟩] name = if own = name then 1 else 0 := by
  unfold removals DbRequest.keyOp
  by_cases h : own = name
  · simp [h]
  · simp [h]

theorem namesake_iff (hc : w.chats t = some c) (name : Bytes) : t ∈ w.namesakes name ↔
    c.state.loggedIn = true ∧ c.name = name ∧ handedOff w.fdLog t = false := by
  constructor
  · rintro ⟨d, hd, h⟩
    obtain rfl := Option.some.inj (hc.symm.trans hd)
    exact h
  · exact fun h => ⟨c, hc, h⟩

/-- A connection that leaves a name leaves it to one request or one passage. -/
theorem spent_leave (hc : w.chats t = some c) (hmoved : handedOff w.fdLog t = false)
    (cs : List DbCall) (ps : List Passage) (hpid : w'.pid = w.pid)
    (hcalls : w'.calls = w.calls ++ cs)
    (hclient : ∀ d ∈ cs, ClientCall W.txt d)
    (hoffs : w'.handOffs = w.handOffs ++ ps.map (Passage.handOff W.txt))
    (hvalid : ∀ p ∈ ps, p.Valid)
    (hchats : ∀ u, u ≠ t → w'.chats u = w.chats u)
    (hlog : ∀ u, u ≠ t → handedOff w'.fdLog u = handedOff w.fdLog u)
    (hgone : ∀ name, name ≠ [] → t ∉ w'.namesakes name)
    (hleft : ∀ name, name ≠ [] →
      let left := removals (cs.flatMap (DbCall.requests w.pid)) name + carried ps name
      left = 0 ∨ left = 1 ∧ c.state.loggedIn = true ∧ c.name = name) : NamesSpent W 0 w w' := by
  refine ⟨hpid, cs, ps, hcalls, hclient, hoffs, hvalid, fun name hne => ?_⟩
  rw [add_assoc, Pi.zero_apply, add_zero]
  rcases hleft name hne with hnone | ⟨hone, hlogin, hname⟩
  · have hkeep := namesakes_keep hchats hlog fun h => absurd h (hgone name hne)
    calc _ = (w'.namesakes name).encard + ((removals (cs.flatMap (DbCall.requests w.pid)) name +
            carried ps name : ℕ) : ℕ∞) := by push_cast; rfl
      _ ≤ _ := by rw [hnone]; simpa using hkeep
  · have hspend := namesakes_spend hchats hlog (hgone name hne)
      ((namesake_iff hc name).mpr ⟨hlogin, hname, hmoved⟩)
    calc _ = (w'.namesakes name).encard + ((removals (cs.flatMap (DbCall.requests w.pid)) name +
            carried ps name : ℕ) : ℕ∞) := by push_cast; rfl
      _ ≤ _ := by rw [hone]; simpa using hspend

/-- A connection that logs off leaves its name to the request to remove it. -/
theorem spent_slot (hc : w.chats t = some c) (hcredible : c.Credible)
    (hmoved : handedOff w.fdLog t = false) (hpid : w'.pid = w.pid)
    (hcalls : w'.calls = w.calls ++ logoffCalls W.txt c) (hoffs : w'.handOffs = w.handOffs)
    (hchats : ∀ u, u ≠ t → w'.chats u = w.chats u)
    (hlog : ∀ u, u ≠ t → handedOff w'.fdLog u = handedOff w.fdLog u)
    (hgone : ∀ name, name ≠ [] → t ∉ w'.namesakes name) : NamesSpent W 0 w w' := by
  refine spent_leave hc hmoved (logoffCalls W.txt c) [] hpid hcalls ?_ (by simpa using hoffs) ?_
    hchats hlog hgone fun name hne => ?_
  · intro d hd
    unfold logoffCalls at hd
    split at hd
    · rw [List.mem_singleton.mp hd]
      exact .logoff _
    · exact absurd hd List.not_mem_nil
  · exact fun p hp => absurd hp List.not_mem_nil
  unfold logoffCalls
  split
  · rename_i hlogin
    simp only [Bool.and_eq_true, decide_eq_true_eq] at hlogin
    have hone : removals ([DbCall.unset (-1) none (buildNameKey W.txt c.name)].flatMap
        (DbCall.requests w.pid)) name = if c.name = name then 1 else 0 := by
      rw [nameKey_fits W.txt (hcredible hlogin.2).1]
      exact removals_unset w.pid (-1) nullHook c.name name
    rw [hone]
    split
    · rename_i hname
      exact Or.inr ⟨rfl, hlogin.1, hname⟩
    · exact Or.inl rfl
  · exact Or.inl rfl

theorem spent_logoff (hc : w.chats t = some c) (hcredible : c.Credible)
    (hmoved : handedOff w.fdLog t = false) (hlogin : c.state.loggedIn = true) :
    NamesSpent W 0 w (logoffUser W w t) := by
  have heq := logoffUser_if w hc W
  rw [if_pos hlogin] at heq
  rw [heq]
  refine spent_slot hc hcredible hmoved rfl rfl rfl ?_ ?_ ?_
  · exact fun u hut => Function.update_of_ne hut ..
  · exact fun u _ => rfl
  · rintro name hne ⟨d, hd, hl, rfl, -⟩
    obtain rfl := Option.some.inj ((Function.update_self t _ w.chats).symm.trans hd)
    unfold ChatConnection.loggedOff at hl
    simp only [Bool.and_eq_true, decide_eq_true_eq] at hl
    exact hne hl.2

theorem spent_finish (h : Serving True q (t ::ₘ held) w) (hc : w.chats t = some c)
    (hcredible : c.Credible) (hlast : c.refs ≤ 1) (hmoved : handedOff w.fdLog t = false) :
    NamesSpent W 0 w (finalizeChat W w t) := by
  obtain ⟨-, hin, -, -, -, hsoft⟩ := h.last_ref hc hlast
  have hnone := h.number_free hc hlast fun hm => by
    rw [hmoved] at hm
    exact absurd hm (by decide)
  rw [finalizeChat_eq w hc W hin hsoft hnone]
  refine spent_slot hc hcredible hmoved rfl rfl rfl ?_ ?_ ?_
  · exact fun u hut => Function.update_of_ne hut ..
  · intro u hut
    apply handedOff_others hut
    intro e he
    split at he
    · exact absurd he List.not_mem_nil
    · rw [List.mem_singleton.mp he]
      rfl
  · rintro name - ⟨d, hd, -⟩
    exact absurd ((Function.update_self t _ w.chats).symm.trans hd) (by simp)

theorem spent_release (hc : w.chats t = some c) (hmoved : handedOff w.fdLog t = false)
    (hfd : c.fd ≠ invalidFd) : NamesSpent W 0 w (releaseFd w t) := by
  have hlog (u : ℕ) : handedOff (w.fdLog ++ [.unregister c.fd t (w.registrant c.fd)] ++
      if c.state.softQuit then [] else [.close c.fd t]) u = handedOff w.fdLog u := by
    rw [List.append_assoc]
    apply handedOff_append
    intro e he fd
    cases c.state.softQuit <;> rcases List.mem_append.mp he with he | he <;> simp_all
  rw [releaseFd_eq w hc hfd]
  refine .of_slot t rfl rfl rfl (fun u hut => Function.update_of_ne hut ..) (fun u _ => hlog u) ?_
  rintro name - ⟨d, hd, hl, hn, -⟩
  obtain rfl := Option.some.inj ((Function.update_self t _ w.chats).symm.trans hd)
  exact (namesake_iff hc name).mpr ⟨hl, hn, hmoved⟩

/-- A connection that is handed off takes its name along. -/
theorem spent_transferOut (h : Serving True q held w) (hc : w.chats t = some c)
    (hreg : (c.fd, t) ∈ w.eventLoop) {room : Bytes} (hroom : ValidRoom room)
    (hcredible : c.Credible)
    (hlogin : c.name ≠ [] → c.state.loggedIn = true) (pid : ℤ) :
    NamesSpent W 0 w (transferOut W w t room pid) := by
  obtain ⟨-, -, -, hne, hmoved⟩ := h.entry c.fd t hreg
  obtain ⟨socket, hs⟩ := Option.isSome_iff_exists.mp (h.holds t c hc hne hmoved)
  rw [transferOut_eq w hc W hs room pid (h.unregistered hreg)]
  have hothers (u : ℕ) (hut : u ≠ t) (e : FdEvent) (he : e.owner = t) :
      handedOff (w.fdLog ++ [.unregister c.fd t (w.registrant c.fd)] ++ [.unregister c.fd t none] ++
        [e]) u = handedOff w.fdLog u := by
    rw [List.append_assoc, List.append_assoc]
    apply handedOff_others hut
    intro e' he'
    simp only [List.mem_append, List.mem_singleton] at he'
    rcases he' with rfl | rfl | rfl
    · rfl
    · rfl
    · exact he
  cases W.rawSendOk (w.fdLog.length + 2) pid with
  | false =>
    refine .of_slot t rfl rfl rfl (fun u hut => Function.update_of_ne hut ..)
      (fun u hut => hothers u hut _ rfl) ?_
    rintro name - ⟨d, hd, hl, hn, -⟩
    obtain rfl := Option.some.inj ((Function.update_self t _ w.chats).symm.trans hd)
    exact (namesake_iff hc name).mpr ⟨hl, hn, hmoved⟩
  | true =>
    refine spent_leave hc hmoved [] [⟨pid, socket, room, c.name⟩] rfl ?_ ?_ rfl ?_
      (fun u hut => Function.update_of_ne hut ..) (fun u hut => hothers u hut _ rfl) ?_ ?_
    · simp
    · exact fun d hd => absurd hd List.not_mem_nil
    · intro p hp
      rw [List.mem_singleton.mp hp]
      exact ⟨hroom, fun hown => (hcredible hown).1⟩
    · rintro name - ⟨d, -, -, -, hm⟩
      exact absurd ((handedOff_handOff _ c.fd t).symm.trans hm) (by decide)
    · intro name hname
      by_cases hown : c.name = name
      · subst hown
        exact Or.inr ⟨by simp [carried], hlogin hname, rfl⟩
      · exact Or.inl (by simp [carried, hown])

/-- A new connection is logged in under no name. -/
theorem spent_new {x : ChatConnection} (hpid : w'.pid = w.pid) (hcalls : w'.calls = w.calls)
    (hoffs : w'.handOffs = w.handOffs) (hchats : w'.chats = Function.update w.chats t (some x))
    (es : List FdEvent) (hlog : w'.fdLog = w.fdLog ++ es) (howner : ∀ e ∈ es, e.owner = t)
    (hx : x.state.loggedIn = false) : NamesSpent W 0 w w' := by
  refine .of_slot t hpid hcalls hoffs (fun u hut => ?_) (fun u hut => ?_) ?_
  · rw [hchats]
    exact Function.update_of_ne hut ..
  · rw [hlog]
    exact handedOff_others hut howner
  · rintro name - ⟨d, hd, hl, -⟩
    rw [hchats] at hd
    obtain rfl := Option.some.inj ((Function.update_self t _ w.chats).symm.trans hd)
    exact absurd (hx.symm.trans hl) (by decide)

theorem spent_zombieAdd (W : World) (w : Worker) (t : ℕ) :
    NamesSpent W 0 w (chatZombieAdd w t) := by
  unfold chatZombieAdd
  split
  · exact .refl w
  dsimp only
  have hassert : NamesSpent W 0 w (w.assert ((w.chat t).quitedAt ≠ 0)) := .same rfl rfl rfl rfl rfl
  have hmark := hassert.then_free (.setChat t (f := fun c =>
    { c with state := { c.state with zombie := true } }) fun _ _ hlogin _ => ⟨hlogin, rfl⟩)
  refine NamesSpent.then_free ?_ (.setChat t fun _ _ hlogin _ => ⟨hlogin, rfl⟩)
  exact hmark.then_free (.same rfl rfl rfl rfl rfl)

end Ends

/-! ### What the handlers keep -/

/-- A worker that serves, with the names it was given since `base`. -/
structure NameLedger (W : World) (base : Worker) (gain : Bytes → ℕ∞) (q : List LazyObject)
    (held : Multiset ℕ) (w : Worker) : Prop where
  serving : Serving True q held w
  credible : w.Credible
  spent : NamesSpent W gain base w

section Credible
variable {w w' : Worker} {t : ℕ}

theorem Worker.Credible.setChat (h : w.Credible) {f : ChatConnection → ChatConnection}
    (hf : ∀ c, w.chats t = some c → c.Credible → (f c).Credible) : (w.setChat t f).Credible := by
  intro u c' hc'
  by_cases hut : u = t
  · subst hut
    rw [w.setChat_same] at hc'
    obtain ⟨c, hc, rfl⟩ := Option.map_eq_some_iff.mp hc'
    exact hf c hc (h u c hc)
  · rw [w.setChat_other t f hut] at hc'
    exact h u c' hc'

/-- A slot that is emptied, or filled with a credible connection. -/
theorem Worker.Credible.update (h : w.Credible) {x : Option ChatConnection}
    (hchats : w'.chats = Function.update w.chats t x) (hx : ∀ c, x = some c → c.Credible) :
    w'.Credible := by
  intro u c hc
  rw [hchats] at hc
  by_cases hut : u = t
  · subst hut
    exact hx c ((Function.update_self u x w.chats).symm.trans hc)
  · exact h u c ((Function.update_of_ne hut x w.chats).symm.trans hc)

theorem credible_nameless {c : ChatConnection} (h : c.name = []) : c.Credible :=
  fun hname => absurd h hname

theorem Worker.Credible.routine {W : World} (h : w.Credible) (hr : Routine W w w') :
    w'.Credible := by
  intro t c' hc' hname
  obtain ⟨c, hc, hf⟩ := hr.chats_of_some hc'
  rw [hf.name] at hname ⊢
  rw [hf.loggedIn]
  refine (h t c hc hname).imp_right (Or.imp_right fun hend => ?_)
  unfold ChatConnection.ending at hend ⊢
  simp only [Bool.or_eq_true] at hend ⊢
  rw [hf.zombie]
  exact hend.imp_left (Or.imp hf.quit hf.softQuit)

end Credible

/-- The operations on one connection keep the ledger. -/
theorem ledger_invariant (W : World) (base : Worker) (gain : Bytes → ℕ∞) :
    ServiceInvariant W True True True (NameLedger W base gain) where
  serving h := h.serving
  honest {q held w t c} _ h hc hopen hname := by
    refine (h.credible t c hc hname).2.resolve_right fun hend => ?_
    exact absurd (hopen.symm.trans hend) (by decide)
  routine h hr hm := ⟨h.serving.routine hr hm, h.credible.routine hr,
    h.spent.then_free (.of_routine hr)⟩
  weaken _ h hle := ⟨h.serving.weaken hle, h.credible, h.spent⟩
  requeue h q' := ⟨h.serving.requeue q', h.credible, h.spent.then_free (.same rfl rfl rfl rfl rfl)⟩
  tick h _ _ _ :=
    ⟨h.serving.same (h.serving.membership.of_same rfl rfl) rfl rfl rfl rfl rfl rfl, h.credible,
      h.spent.then_free (.same rfl rfl rfl rfl rfl)⟩
  get {q held w t c} h hc :=
    ⟨h.serving.get hc, h.credible.setChat fun _ _ hcred => hcred,
      h.spent.then_free (.setChat t fun _ _ hlogin _ => ⟨hlogin, rfl⟩)⟩
  drop {q held w t c} h hc hmore :=
    ⟨h.serving.drop hc hmore, h.credible.setChat fun _ _ hcred => hcred,
      h.spent.then_free (.setChat t fun _ _ hlogin _ => ⟨hlogin, rfl⟩)⟩
  unlist h ht := ⟨h.serving.unlist ht, h.credible, h.spent.then_free (.same rfl rfl rfl rfl rfl)⟩
  zombieAdd {q held w t c} h hc hfd hend := by
    refine ⟨h.serving.zombieAdd hc hfd hend, ?_, h.spent.then_free (spent_zombieAdd W w t)⟩
    unfold chatZombieAdd
    split
    · exact h.credible
    dsimp only
    refine Worker.Credible.setChat (fun u d hd => ?_) fun _ _ hcred => hcred
    have hmarked : (w.setChat t fun c =>
        { c with state := { c.state with zombie := true } }).Credible :=
      h.credible.setChat fun c _ hcred hname =>
        ⟨(hcred hname).1, Or.inr (by simp [ChatConnection.ending])⟩
    exact hmarked u d hd
  relabel hn _ _ _ := absurd trivial hn
  logoff {q held w t} h hout hlaw := by
    obtain ⟨hlogin, hmoved, hend⟩ := hlaw trivial
    cases hc : w.chats t with
    | none =>
      unfold Worker.chat at hlogin
      rw [hc] at hlogin
      exact absurd hlogin (by decide)
    | some c =>
      rw [w.chat_of_some t hc] at hlogin hend
      refine ⟨h.serving.logoff hout, ?_,
        h.spent.then_free (spent_logoff hc (h.credible t c hc) hmoved hlogin)⟩
      have heq := logoffUser_if w hc W
      rw [if_pos hlogin] at heq
      rw [heq]
      refine h.credible.update rfl fun d hd hname => ?_
      rw [← Option.some.inj hd] at hname ⊢
      refine ⟨(h.credible t c hc hname).1, Or.inr ?_⟩
      unfold ChatConnection.ending ChatConnection.loggedOff
      simpa using Or.inl hend
  install h hfresh socket :=
    ⟨h.serving.install hfresh socket, h.credible, h.spent.then_free (.same rfl rfl rfl rfl rfl)⟩
  arrive {q held w t fd} h hfresh hopen ht := by
    refine ⟨h.serving.arrive hfresh hopen ht, ?_, h.spent.then_free ?_⟩
    · exact h.credible.update rfl fun c hc => credible_nameless (by rw [← Option.some.inj hc]; rfl)
    · exact spent_new rfl rfl rfl rfl [.opened fd t, .register fd t]
        (by unfold chatAlloc Worker.eventLoopRegisterFd Worker.logFd; simp)
        (by simp [FdEvent.owner]) rfl
  reject {q held w t fd} h hfresh ht := by
    refine ⟨h.serving.reject hfresh ht W, ?_, h.spent.then_free ?_⟩
    · rw [reject_eq W w t hfresh.1]
      exact h.credible.update rfl fun c hc => credible_nameless (by rw [← Option.some.inj hc]; rfl)
    · rw [reject_eq W w t hfresh.1]
      exact spent_new rfl rfl rfl rfl
        ([.opened fd t] ++ [.unregister fd t (w.registrant fd)] ++ [.close fd t])
        (by simp) (by simp [FdEvent.owner]) rfl
  release {q held w t c} h hc hreg hout hend hoff := by
    obtain ⟨-, -, -, hne, hmoved⟩ := h.serving.entry c.fd t hreg
    refine ⟨h.serving.release hc hreg hend, ?_, h.spent.then_free (spent_release hc hmoved hne)⟩
    rw [releaseFd_eq w hc hne]
    exact h.credible.update rfl fun d hd => by
      rw [← Option.some.inj hd]
      exact h.credible t c hc
  transferOut {q held w t c} h room pid hc hreg hout hlaw := by
    obtain ⟨hroom, hlogin⟩ := hlaw trivial
    refine ⟨h.serving.transferOut hc hreg W room pid, ?_, h.spent.then_free
      (spent_transferOut h.serving hc hreg hroom (h.credible t c hc) hlogin pid)⟩
    obtain ⟨-, -, -, hne, hkept⟩ := h.serving.entry c.fd t hreg
    obtain ⟨socket, hs⟩ := Option.isSome_iff_exists.mp (h.serving.holds t c hc hne hkept)
    rw [transferOut_eq w hc W hs room pid (h.serving.unregistered hreg)]
    refine h.credible.update rfl fun d hd hname => ?_
    rw [← Option.some.inj hd] at hname ⊢
    exact ⟨(h.credible t c hc hname).1, Or.inr (by simp [ChatConnection.ending])⟩
  finish {q held w t c} h hc hlast hmoved := by
    have hkept : handedOff w.fdLog t = false := by
      by_contra hm
      exact (hmoved (by simpa using hm)).1 trivial
    refine ⟨h.serving.finish hc hlast hmoved W, ?_, h.spent.then_free
      (spent_finish h.serving hc (h.credible t c hc) hlast hkept)⟩
    obtain ⟨-, hin, -, -, -, hsoft⟩ := h.serving.last_ref hc hlast
    rw [finalizeChat_eq w hc W hin hsoft
      (h.serving.number_free hc hlast fun hm => (hmoved hm).2)]
    exact h.credible.update rfl fun d hd => absurd hd (by simp)

end Nginz
