import Nginz.Chat.ChatSystem
import Nginz.Lib.Shares

/-! Unique names: everybody who could be logged in under a name, now or after the messages
on their way, is counted, and the store holds the key of a name as long as there is one. -/
namespace Nginz
open KeyedStore

/-- A reply to such a request: it grants a name that a login can give, and sends nobody into
a room that the store has not. -/
structure ChatReply (L : TxtLib) (r : DbReply) : Prop where
  grants : ∀ name, r.Grants name → ValidName name
  rooms : ∀ reply ∈ r.forChat, ∀ pid, reply.Transfers L pid → reply.RoomValid L

instance (r : DbReply) (name : Bytes) : Decidable (r.Grants name) := by
  unfold DbReply.Grants
  infer_instance

/-- The replies that grant the name. -/
def grants (rs : List DbReply) (name : Bytes) : ℕ := rs.countP (·.Grants name)

/-- The name that a socket on its way brings to the process it goes to. -/
def HandOff.name (o : HandOff) : Bytes :=
  ((unpackedString (receivedCommand (List.replicate 128 0) o.datagram) 2).bind
    chatHiddenjoinGetRoomAndName).elim [] Prod.snd

/-- What is on its way is a new client or the passage of a connection. -/
def HandOff.Expected (L : TxtLib) (o : HandOff) : Prop :=
  o.datagram = welcomeDatagram L ∨ ∃ p : Passage, p.Valid ∧ o = p.handOff L

section HandOffs
variable (L : TxtLib)

theorem Passage.Valid.short {p : Passage} (h : p.Valid) :
    p.name.length < nginzMaxChatUserNameSize := by
  by_cases hn : p.name = []
  · rw [hn]
    decide
  · exact (h.name hn).short

theorem passage_name (hcap : L.room 255 < 65536) {p : Passage} (h : p.Valid) :
    (p.handOff L).name = p.name := by
  obtain ⟨-, hcommand⟩ := joinDatagram_command L hcap h.room h.short p.destpid
    (show 128 ≤ (List.replicate 128 (0 : UInt8)).length by simp)
  unfold HandOff.name Passage.handOff
  rw [hcommand]
  by_cases hn : p.name = []
  · rw [hn, Option.bind_some, hiddenjoinCommand_nameless L h.room]
    rfl
  · rw [Option.bind_some, hiddenjoinCommand_parsed L h.room (h.name hn)]
    rfl

theorem passages_name (hcap : L.room 255 < 65536) {ps : List Passage} (h : ∀ p ∈ ps, p.Valid)
    (name : Bytes) : (ps.map (Passage.handOff L)).countP (·.name = name) = carried ps name := by
  unfold carried
  rw [List.countP_map]
  refine List.countP_congr fun p hp => ?_
  simp [passage_name L hcap (h p hp)]

theorem welcome_name (hcap : L.room nginzMaxBinaryMsgLen < 65536) {o : HandOff}
    (ho : o.datagram = welcomeDatagram L) : o.name = [] := by
  have hreceived := transferMessage_received L hcap
    ((L.le_room nginzMaxBinaryMsgLen).trans' (by decide))
    (show (lit "chat/_welcome").length ≤ 104 by decide) 0
    (show 128 ≤ (List.replicate 128 (0 : UInt8)).length by simp)
  unfold HandOff.name
  rw [ho]
  unfold welcomeDatagram
  rw [hreceived.2]
  decide +kernel

end HandOffs

namespace ChatSystem
variable {ι : Type*} [DecidableEq ι]

/-- What one worker, its requests and its replies may make of the name. -/
noncomputable def claims (s : ChatSystem ι) (name : Bytes) (i : ι) : ℕ∞ :=
  ((s.workers i).namesakes name).encard + removals (s.toMaster i) name + grants (s.toWorker i) name

/-- Everybody who could be logged in under the name. -/
noncomputable def total [Fintype ι] (s : ChatSystem ι) (name : Bytes) : ℕ∞ :=
  ∑ i, s.claims name i + s.flights.countP (·.name = name)

/-- What is on its way is what workers and the store send. -/
structure Orderly (L : TxtLib) (s : ChatSystem ι) : Prop where
  sound : ∀ i, (s.workers i).Sound
  requests : ∀ i, ∀ r ∈ s.toMaster i, ChatRequest r
  replies : ∀ i, ∀ r ∈ s.toWorker i, ChatReply L r
  hosts : ∀ room, (s.db (lit "room/pid/" ++ room)).isSome → ValidRoom room
  flights : ∀ o ∈ s.flights, o.Expected L

/-- One place at most for a registered name, and none for any other. -/
structure Audited [Fintype ι] (L : TxtLib) (s : ChatSystem ι) : Prop extends Orderly L s where
  audit : ∀ name, name ≠ [] → s.total name ≤ if (s.db (userPrefix ++ name)).isSome then 1 else 0

namespace Audited
variable [Fintype ι] {L : TxtLib} {s : ChatSystem ι}

theorem uniqueNames (h : Audited L s) : s.UniqueNames := by
  have hmember {i : ι} {t : ℕ} {name : Bytes} (hlogged : s.LoggedIn i t name) :
      t ∈ (s.workers i).namesakes name := by
    obtain ⟨c, hc, hlogin, -, hsoft, hname⟩ := hlogged
    exact ⟨c, hc, hlogin, hname, (h.sound i).serving.not_handedOff hc hsoft⟩
  have hplaces (name : Bytes) : ∑ i, ((s.workers i).namesakes name).encard ≤ s.total name := by
    unfold total
    refine (Finset.sum_le_sum fun i _ => ?_).trans le_self_add
    unfold claims
    rw [add_assoc]
    exact le_self_add
  constructor
  · intro name hname i t j u ht hu
    refine Shares.place_unique (((hplaces name).trans (h.audit name hname)).trans ?_) (hmember ht)
      (hmember hu)
    split
    · exact le_rfl
    · exact zero_le
  · intro name hname i t ht
    by_contra hnone
    have hle := (hplaces name).trans (h.audit name hname)
    rw [if_neg hnone] at hle
    have hpos : 1 ≤ ∑ i, ((s.workers i).namesakes name).encard :=
      (Set.one_le_encard_iff_nonempty.mpr ⟨t, hmember ht⟩).trans
        (Finset.single_le_sum (f := fun i => ((s.workers i).namesakes name).encard)
          (fun _ _ => zero_le) (Finset.mem_univ i))
    exact absurd (hpos.trans hle) (by decide)

end Audited

theorem mem_update {α : Type*} {f : ι → List α} {i j : ι} {xs : List α} {x : α}
    (h : x ∈ Function.update f i xs j) : x ∈ xs ∨ x ∈ f j := by
  by_cases hji : j = i
  · subst hji
    rw [Function.update_self] at h
    exact Or.inl h
  · rw [Function.update_of_ne hji] at h
    exact Or.inr h

/-! ### A worker moves on -/

section Move
variable {L : TxtLib} {W : World} {s : ChatSystem ι} {i : ι} {gain : Bytes → ℕ∞} {w : Worker}
  (hW : W.txt = L) (hw : NamesSpent W gain (s.workers i) w)
include hW hw

theorem Orderly.move (h : Orderly L s) (hsound : w.Sound) : Orderly L (s.move i w) := by
  obtain ⟨cs, ps, hcs, hcalls, hps, hvalid, -⟩ := hw.ledger
  subst hW
  constructor
  · intro j
    by_cases hji : j = i
    · subst hji
      rw [move_worker]
      exact hsound
    · rw [move_worker_other s w hji]
      exact h.sound j
  · intro j r hr
    by_cases hji : j = i
    · subst hji
      rw [move_toMaster, hcs, List.drop_left] at hr
      rcases List.mem_append.mp hr with hr | hr
      · exact h.requests j r hr
      · obtain ⟨c, hc, hrc⟩ := List.mem_flatMap.mp hr
        exact clientCall_chatRequest W.txt (hcalls c hc) hrc
    · rw [move_toMaster_other s w hji] at hr
      exact h.requests j r hr
  · exact h.replies
  · exact h.hosts
  · intro o ho
    unfold ChatSystem.move at ho
    rw [hps, List.drop_left] at ho
    rcases List.mem_append.mp ho with ho | ho
    · exact h.flights o ho
    · obtain ⟨p, hp, rfl⟩ := List.mem_map.mp ho
      exact Or.inr ⟨p, hvalid p hp, rfl⟩

variable [Fintype ι]

/-- The total grows by what the worker gains. -/
theorem total_move (hcap : L.room 255 < 65536) {name : Bytes} (hname : name ≠ []) :
    (s.move i w).total name ≤ s.total name + gain name := by
  obtain ⟨cs, ps, hcs, -, hps, hvalid, hsum⟩ := hw.ledger
  subst hW
  have hflights : (s.move i w).flights.countP (·.name = name) =
      s.flights.countP (·.name = name) + carried ps name := by
    unfold ChatSystem.move
    rw [hps, List.drop_left, List.countP_append, passages_name W.txt hcap hvalid]
  have hothers (j : ι) (hji : j ≠ i) : (s.move i w).claims name j = s.claims name j := by
    unfold claims
    rw [move_worker_other s w hji, move_toMaster_other s w hji]
    rfl
  have hone :
      (s.move i w).claims name i + (carried ps name : ℕ∞) ≤ s.claims name i + gain name := by
    have hreplies : (s.move i w).toWorker i = s.toWorker i := rfl
    unfold claims
    rw [move_worker, move_toMaster, hreplies, hcs, List.drop_left, removals_append, hw.pid]
    push_cast
    calc _ = ((w.namesakes name).encard +
            removals (cs.flatMap (DbCall.requests (s.workers i).pid)) name + carried ps name) +
            (removals (s.toMaster i) name + grants (s.toWorker i) name : ℕ∞) := by ring
      _ ≤ (((s.workers i).namesakes name).encard + gain name) +
            (removals (s.toMaster i) name + grants (s.toWorker i) name : ℕ∞) :=
          add_le_add_left (hsum name hname) _
      _ = _ := by ring
  have htotal := Shares.sum_add_le hothers hone
  unfold total
  rw [hflights]
  push_cast
  calc _ = (∑ j, (s.move i w).claims name j + carried ps name) +
          (s.flights.countP (·.name = name) : ℕ∞) := by ring
    _ ≤ (∑ j, s.claims name j + gain name) + (s.flights.countP (·.name = name) : ℕ∞) :=
        add_le_add_left htotal _
    _ = _ := by ring

theorem Audited.move (hcap : L.room 255 < 65536) (h : Orderly L s) (hsound : w.Sound)
    (haudit : ∀ name, name ≠ [] →
      s.total name + gain name ≤ if (s.db (userPrefix ++ name)).isSome then 1 else 0) :
    Audited L (s.move i w) where
  toOrderly := h.move hW hw hsound
  audit name hname := (total_move hW hw hcap hname).trans (haudit name hname)

end Move

/-! ### Every step is accounted for -/

section Steps
variable [Fintype ι] {L : TxtLib} {s : ChatSystem ι} {i : ι}

theorem grants_append (rs ts : List DbReply) (name : Bytes) :
    grants (rs ++ ts) name = grants rs name + grants ts name := List.countP_append

/-- A change of what is on its way between one worker and the store. -/
theorem total_change (s' : ChatSystem ι) (hworkers : s'.workers = s.workers)
    (hflights : s'.flights = s.flights) (hrequests : ∀ j, j ≠ i → s'.toMaster j = s.toMaster j)
    (hreplies : ∀ j, j ≠ i → s'.toWorker j = s.toWorker j) {name : Bytes} {x y : ℕ∞}
    (hone : (removals (s'.toMaster i) name + grants (s'.toWorker i) name + x : ℕ∞) ≤
      removals (s.toMaster i) name + grants (s.toWorker i) name + y) :
    s'.total name + x ≤ s.total name + y := by
  have hothers (j : ι) (hji : j ≠ i) : s'.claims name j = s.claims name j := by
    unfold claims
    rw [hworkers, hrequests j hji, hreplies j hji]
  have hclaims : s'.claims name i + x ≤ s.claims name i + y := by
    unfold claims
    rw [hworkers]
    calc _ = ((s.workers i).namesakes name).encard +
          (removals (s'.toMaster i) name + grants (s'.toWorker i) name + x : ℕ∞) := by ring
      _ ≤ ((s.workers i).namesakes name).encard +
          (removals (s.toMaster i) name + grants (s.toWorker i) name + y : ℕ∞) :=
        add_le_add_right hone _
      _ = _ := by ring
  have hsum := Shares.sum_add_le hothers hclaims
  unfold total
  rw [hflights, add_right_comm, add_right_comm _ _ y]
  exact add_le_add_left hsum _

/-- A reply grants a name only when the name was free. -/
theorem reply_grants_free {db : Bytes → Option Bytes} {r : DbRequest} (hr : ChatRequest r)
    {name : Bytes} (hg : (r.reply db).Grants name) :
    ValidName name ∧ r.keyOp = (userPrefix ++ name, .setIfNull name) ∧
      db (userPrefix ++ name) = none := by
  unfold DbReply.Grants DbReply.forChat at hg
  by_cases hlogin : (r.reply db).cbHook = onAsyncchatLoginName
  · obtain ⟨own, hvalid, hkey, hop⟩ := hr.logins hlogin
    have hvalue : (r.reply db).value = some own := by
      show DbRequest.replyValue r.op _ = _
      rw [hop]
      rfl
    rw [if_pos hlogin, hvalue] at hg
    simp only [Option.getD_some, Option.bind_some, Reply.granted] at hg
    split at hg
    · rename_i hsuccess
      obtain rfl := Option.some.inj hg
      refine ⟨hvalid, by unfold DbRequest.keyOp; rw [hkey, hop], ?_⟩
      have hfree : (if r.op.succeeds (db r.key) then (1 : ℤ) else 0) ≠ 0 := hsuccess.1
      rw [hkey, hop] at hfree
      by_contra htaken
      exact hfree (by simp [Op.succeeds, htaken])
    · exact absurd hg (by simp)
  · rw [if_neg hlogin] at hg
    split at hg
    · exact absurd hg (by simp [Reply.granted])
    · exact absurd hg (by simp)

theorem serve_grants {r : DbRequest} (hr : ChatRequest r) (db : Bytes → Option Bytes)
    (name : Bytes) :
    grants (r.replies db) name = 0 ∨
      grants (r.replies db) name = 1 ∧ r.keyOp = (userPrefix ++ name, .setIfNull name) ∧
        db (userPrefix ++ name) = none := by
  unfold DbRequest.replies grants
  split
  · exact Or.inl rfl
  by_cases hg : (r.reply db).Grants name
  · exact Or.inr ⟨by simp [hg], (reply_grants_free hr hg).2⟩
  · exact Or.inl (by simp [hg])

/-- A room that is hosted by nobody sends nobody anywhere. -/
theorem chatReply_of_request {db : Bytes → Option Bytes}
    (hhosts : ∀ room, (db (lit "room/pid/" ++ room)).isSome → ValidRoom room) {r : DbRequest}
    (hr : ChatRequest r) : ChatReply L (r.reply db) where
  grants _ hg := (reply_grants_free hr hg).1
  rooms reply hreply pid htransfers := by
    unfold DbReply.forChat at hreply
    split at hreply
    · obtain rfl := Option.some.inj hreply
      exact htransfers.elim
    split at hreply
    swap
    · exact absurd hreply (by simp)
    rename_i hhook
    obtain rfl := Option.some.inj hreply
    obtain ⟨hop, room, hkey⟩ := hr.lookups hhook
    have hvalue : (r.reply db).value = db r.key := by
      show DbRequest.replyValue r.op _ = _
      rw [hop]
      rfl
    have hkey' : (r.reply db).key = lit "room/pid/" ++ room := hkey.symm
    cases hdb : db r.key with
    | none =>
      rw [hvalue, hdb] at htransfers
      refine absurd (Or.inl ?_) htransfers.1
      rw [compose_fits L (by simp)]
      decide
    | some v =>
      have hroom : ValidRoom room := hhosts room (by rw [hkey, hdb]; rfl)
      show ValidRoom (roomOfPidKey L (r.reply db).key)
      rw [hkey', roomOfPidKey_of_key L hroom]
      exact hroom

omit [Fintype ι] in
theorem Orderly.serve (h : Orderly L s) {r : DbRequest} {rs : List DbRequest}
    (hrs : s.toMaster i = r :: rs) : Orderly L (s.serve i r rs) := by
  have hfirst := h.requests i r (by rw [hrs]; exact List.mem_cons_self)
  refine ⟨h.sound, fun j q hq => ?_, fun j q hq => ?_, fun room hroom => ?_, h.flights⟩
  · rcases mem_update hq with hq | hq
    · exact h.requests i q (by rw [hrs]; exact List.mem_cons_of_mem r hq)
    · exact h.requests j q hq
  · rcases mem_update hq with hq | hq
    · rcases List.mem_append.mp hq with hq | hq
      · exact h.replies i q hq
      · unfold DbRequest.replies at hq
        split at hq
        · exact absurd hq List.not_mem_nil
        · rw [List.mem_singleton.mp hq]
          exact chatReply_of_request h.hosts hfirst
    · exact h.replies j q hq
  · by_cases hkey : r.key = lit "room/pid/" ++ room
    · rcases hfirst.hosts room hkey with hget | hvalid
      · have hkeep : apply s.db r.keyOp = s.db := by
          unfold apply DbRequest.keyOp
          rw [hget]
          exact Function.update_eq_self r.key s.db
        exact h.hosts room (by rw [← hkeep]; exact hroom)
      · exact hvalid
    · have hother := apply_other s.db (r := r.keyOp) hkey
      exact h.hosts room (by rw [← hother]; exact hroom)

theorem Audited.serve (h : Audited L s) (W : ι → World) : Audited L (s.step L W (.serve i)) := by
  unfold ChatSystem.step
  dsimp only
  split
  · exact h
  rename_i r rs hrs
  have hfirst := h.requests i r (by rw [hrs]; exact List.mem_cons_self)
  refine ⟨h.toOrderly.serve hrs, fun name hname => ?_⟩
  have hbefore := h.audit name hname
  have hgrants := serve_grants hfirst s.db name
  have hchange {x y : ℕ∞} (hone : (removals rs name + grants (r.replies s.db) name + x : ℕ∞) ≤
      removals (r :: rs) name + y) : (s.serve i r rs).total name + x ≤ s.total name + y := by
    refine total_change (s := s) (i := i) (s.serve i r rs) rfl rfl
      (fun j hji => Function.update_of_ne hji ..)
      (fun j hji => Function.update_of_ne hji ..) ?_
    rw [serve_toMaster, serve_toWorker, hrs, grants_append]
    push_cast
    calc _ = (removals rs name + grants (r.replies s.db) name + x : ℕ∞) +
            grants (s.toWorker i) name := by
          ring
      _ ≤ (removals (r :: rs) name + y : ℕ∞) + grants (s.toWorker i) name := add_le_add_left hone _
      _ = _ := by ring
  by_cases hunset : r.keyOp = (userPrefix ++ name, .unset)
  · -- the removal takes the one place away
    have hnone : grants (r.replies s.db) name = 0 := by
      refine hgrants.resolve_right fun hset => ?_
      exact absurd ((congrArg Prod.snd hunset).symm.trans (congrArg Prod.snd hset.2.1)) (by simp)
    have hcount : removals (r :: rs) name = removals rs name + 1 := by
      unfold removals
      rw [List.countP_cons_of_pos (by simpa using hunset)]
    have hless := hchange (x := 1) (y := 0) (by rw [hnone, hcount]; push_cast; simp)
    rw [add_zero] at hless
    have hle : s.total name ≤ 1 := hbefore.trans (by split <;> simp)
    have hzero := (ENat.add_le_add_iff_right ENat.one_ne_top).mp
      ((hless.trans hle).trans_eq (zero_add 1).symm)
    exact hzero.trans zero_le
  have hcount : removals (r :: rs) name = removals rs name := by
    unfold removals
    rw [List.countP_cons_of_neg (by simpa using hunset)]
  rcases hgrants with hnone | ⟨hone, hset, hfree⟩
  · have hsame := hchange (x := 0) (y := 0) (by rw [hnone, hcount]; simp)
    rw [add_zero, add_zero] at hsame
    refine (hsame.trans hbefore).trans ?_
    by_cases hpresent : (s.db (userPrefix ++ name)).isSome
    · have hstays : ((s.serve i r rs).db (userPrefix ++ name)).isSome :=
        apply_present hpresent hunset
      rw [if_pos hpresent, if_pos hstays]
    · rw [if_neg hpresent]
      exact zero_le
  · -- the name was free, and the reply is the one place
    have hmore := hchange (x := 0) (y := 1) (by rw [hone, hcount]; simp)
    rw [hfree] at hbefore
    have hwritten : ((s.serve i r rs).db (userPrefix ++ name)).isSome := by
      show (apply s.db r.keyOp _).isSome = true
      rw [hset, apply_same, hfree]
      rfl
    rw [add_zero] at hmore
    rw [if_pos hwritten]
    exact hmore.trans (add_le_add_left hbefore 1)

theorem gain_eq (r : Reply) (name : Bytes) :
    r.gain name = if r.granted = some name then 1 else 0 := by
  unfold Reply.gain
  cases r.granted with
  | none => rfl
  | some own =>
    show (Pi.single own 1 : Bytes → ℕ∞) name = _
    by_cases h : own = name
    · subst h
      simp
    · rw [Pi.single_eq_of_ne (Ne.symm h), if_neg (by simpa using h)]

theorem Audited.deliver (hcap : L.room 255 < 65536) (h : Audited L s) {W : ι → World}
    (hW : ∀ i, (W i).txt = L) : Audited L (s.step L W (.deliver i)) := by
  unfold ChatSystem.step
  dsimp only
  split
  · exact h
  rename_i r rs hrs
  have hfirst := h.replies i r (by rw [hrs]; exact List.mem_cons_self)
  have horderly : Orderly L { s with toWorker := Function.update s.toWorker i rs } := by
    refine ⟨h.sound, h.requests, fun j q hq => ?_, h.hosts, h.flights⟩
    rcases mem_update hq with hq | hq
    · exact h.replies i q (by rw [hrs]; exact List.mem_cons_of_mem r hq)
    · exact h.replies j q hq
  have hspend {name : Bytes} {x : ℕ∞} (hx : (grants rs name + x : ℕ∞) ≤ grants (r :: rs) name) :
      ChatSystem.total { s with toWorker := Function.update s.toWorker i rs } name + x ≤
      s.total name := by
    have hnow : Function.update s.toWorker i rs i = rs := Function.update_self ..
    have hone :
        (removals (s.toMaster i) name + grants (Function.update s.toWorker i rs i) name + x : ℕ∞) ≤
        removals (s.toMaster i) name + grants (s.toWorker i) name + 0 := by
      rw [hnow, hrs, add_zero, add_assoc]
      exact add_le_add_right hx _
    have hchange := total_change (s := s) (i := i)
      { s with toWorker := Function.update s.toWorker i rs }
      rfl rfl (fun _ _ => rfl) (fun j hji => Function.update_of_ne hji ..) hone
    rwa [add_zero] at hchange
  obtain ⟨gain, hsound, hspent, hgain⟩ : ∃ gain, (onDbReply (W i) (s.workers i) r).Sound ∧
      NamesSpent (W i) gain (s.workers i) (onDbReply (W i) (s.workers i) r) ∧
      ∀ name, (grants rs name + gain name : ℕ∞) ≤ grants (r :: rs) name := by
    unfold onDbReply
    cases hreply : r.forChat with
    | none =>
      refine ⟨0, h.sound i, .refl _, fun name => ?_⟩
      have hle : grants rs name ≤ grants (r :: rs) name := (List.sublist_cons_self r rs).countP_le
      simpa using hle
    | some reply =>
      have hgrants (name : Bytes) : r.Grants name ↔ reply.granted = some name := by
        unfold DbReply.Grants
        rw [hreply, Option.bind_some]
      obtain ⟨hsound, hspent⟩ := spent_reply (h.sound i) (W := W i) (r := reply)
        (fun name hn => hfirst.grants name ((hgrants name).mpr hn))
        (by rw [hW i]; exact hfirst.rooms reply hreply _) r.cbToken.toNat
      refine ⟨reply.gain, hsound, hspent, fun name => ?_⟩
      unfold grants
      rw [gain_eq, List.countP_cons]
      push_cast
      simp [hgrants name]
  exact Audited.move (s := { s with toWorker := Function.update s.toWorker i rs }) (hW i)
    hspent hcap horderly hsound fun name hname => (hspend (hgain name)).trans (h.audit name hname)

theorem Audited.accept (hcap : L.room nginzMaxBinaryMsgLen < 65536) (h : Audited L s)
    (W : ι → World)
    (destpid : ℤ) (socket : ℕ) : Audited L (s.step L W (.accept destpid socket)) := by
  have hdatagram : (HandOff.mk destpid socket (welcomeDatagram L)).datagram =
      welcomeDatagram L := by
    dsimp only
  refine ⟨⟨h.sound, h.requests, h.replies, h.hosts, fun o ho => ?_⟩, fun name hname => ?_⟩
  · rcases List.mem_append.mp ho with ho | ho
    · exact h.flights o ho
    · rw [List.mem_singleton.mp ho]
      exact Or.inl hdatagram
  · have hnew : (HandOff.mk destpid socket (welcomeDatagram L)).name = [] :=
      welcome_name L hcap hdatagram
    have hcount : (s.flights ++ [HandOff.mk destpid socket (welcomeDatagram L)]).countP
        (·.name = name) = s.flights.countP (·.name = name) := by
      rw [List.countP_append, List.countP_singleton, hnew]
      simp [Ne.symm hname]
    have hsame : (s.step L W (.accept destpid socket)).total name = s.total name := by
      unfold total ChatSystem.step
      dsimp only
      rw [hcount]
      rfl
    rw [hsame]
    exact h.audit name hname

theorem Audited.receive (hcap : L.room 255 < 65536) (hcap' : L.room nginzMaxBinaryMsgLen < 65536)
    (h : Audited L s) {W : ι → World} (hW : ∀ i, (W i).txt = L) (k : ℕ) (fd : ℤ) (t : ℕ)
    (storage : Bytes) : Audited L (s.step L W (.receive i k fd t storage)) := by
  unfold ChatSystem.step
  dsimp only
  split
  · exact h
  rename_i o ho
  split
  swap
  · exact h
  rename_i hready
  obtain ⟨hk, hget⟩ := List.getElem?_eq_some_iff.mp ho
  have hsplit : s.flights = s.flights.take k ++ o :: s.flights.drop (k + 1) := by
    rw [← hget, ← List.drop_eq_getElem_cons hk, List.take_append_drop]
  have horderly : Orderly L { s with flights := s.flights.eraseIdx k } :=
    ⟨h.sound, h.requests, h.replies, h.hosts, fun q hq => h.flights q (List.mem_of_mem_eraseIdx hq)⟩
  have hspend (name : Bytes) : ChatSystem.total { s with flights := s.flights.eraseIdx k } name +
      (if o.name = name then 1 else 0) = s.total name := by
    have hcount : s.flights.countP (·.name = name) =
        (s.flights.eraseIdx k).countP (·.name = name) + if o.name = name then 1 else 0 := by
      rw [List.eraseIdx_eq_take_drop_succ]
      nth_rewrite 1 [hsplit]
      rw [List.countP_append, List.countP_append, List.countP_cons, add_assoc]
      simp
    unfold total
    rw [hcount]
    push_cast
    rw [← add_assoc]
    rfl
  have haudit (gain : Bytes → ℕ∞)
      (hgain : ∀ name, name ≠ [] → gain name ≤ if o.name = name then 1 else 0)
      (name : Bytes) (hname : name ≠ []) :
      ChatSystem.total { s with flights := s.flights.eraseIdx k } name + gain name ≤
        if (s.db (userPrefix ++ name)).isSome then 1 else 0 :=
    ((add_le_add_right (hgain name hname) _).trans (hspend name).le).trans (h.audit name hname)
  rcases h.flights o (List.mem_of_getElem? ho) with hwelcome | ⟨p, hp, rfl⟩
  · obtain ⟨hsound, hspent⟩ := spent_welcome (W := W i) (t := t) (by rw [hW i]; exact hcap')
      (h.sound i) fd hready.2.1 (by rw [hW i]; exact hwelcome)
    exact Audited.move (s := { s with flights := s.flights.eraseIdx k }) (hW i) hspent hcap
      horderly hsound (haudit 0 fun _ _ => zero_le)
  · obtain ⟨hsound, hspent⟩ := spent_join (W := W i) (t := t) (by rw [hW i]; exact hcap)
      (h.sound i) fd hready.2.1 hp
    rw [hW i] at hsound hspent
    refine Audited.move (s := { s with flights := s.flights.eraseIdx k }) (hW i) hspent hcap
      horderly hsound (haudit _ fun name _ => ?_)
    rw [passage_name L hcap hp]
    by_cases hname : p.name = name
    · subst hname
      simp
    · rw [Pi.single_eq_of_ne (Ne.symm hname), if_neg hname]

theorem Audited.step (hcap : L.room 255 < 65536) (hcap' : L.room nginzMaxBinaryMsgLen < 65536)
    {W : ι → World} (hW : ∀ i, (W i).txt = L) (h : Audited L s) {a : Action ι}
    (hpublic : PublicCommands L a) (hspare : s.SparesHandedOff a) : Audited L (s.step L W a) := by
  cases a with
  | event i e =>
    by_cases harrive : ∃ fd t storage o, e = .arrive fd t storage o
    · obtain ⟨fd, t, storage, o, rfl⟩ := harrive
      exact h
    have hlocal (fd : ℤ) (t : ℕ) (storage : Bytes) (o : HandOff) : e ≠ .arrive fd t storage o :=
      fun he => harrive ⟨fd, t, storage, o, he⟩
    obtain ⟨hsound, hspent⟩ := spent_event (h.sound i) (W := W i) hlocal hspare (by
      rintro fd t line rfl
      rw [hW i]
      exact hpublic)
    have hmove : s.step L W (.event i e) = s.move i ((s.workers i).on (W i) e) := by
      cases e with
      | arrive fd t storage o => exact absurd rfl (hlocal fd t storage o)
      | _ => rfl
    rw [hmove]
    exact Audited.move (hW i) hspent hcap h.toOrderly hsound fun name hname => by
      simpa using h.audit name hname
  | rooms i cbToken info =>
    obtain ⟨hsound, hspent⟩ := spent_reply (h.sound i) (W := W i) (r := .rooms info)
      (fun name hn => absurd hn (by simp [Reply.granted])) (fun hn => hn.elim) cbToken
    exact Audited.move (hW i) hspent hcap h.toOrderly hsound fun name hname => by
      have hnone : Reply.gain (.rooms info) name = 0 := rfl
      rw [hnone, add_zero]
      exact h.audit name hname
  | serve i => exact h.serve W
  | deliver i => exact h.deliver hcap hW
  | accept destpid socket => exact h.accept hcap' W destpid socket
  | receive i k fd t storage => exact h.receive hcap hcap' hW k fd t storage

end Steps

end ChatSystem
end Nginz
