import Nginz.Db.AsyncDbMaster
import Nginz.Lib.Mailbox

/-! The store as a system: workers that send calls over their pipes, and the master that
receives the datagrams in any order that keeps those of one worker in sequence. -/
namespace Nginz
open KeyedStore
variable {ι : Type*} [DecidableEq ι]

/-- The datagrams each worker has sent and the master has not received, the receive
buffer of the master, and its store. -/
structure StoreSystem (ι : Type*) where
  pipe : ι → List Bytes
  recvBuffer : AroopTxt
  master : Master

inductive StoreAction (ι : Type*) where
  | call (w : ι) (c : DbCall)
  | receive (w : ι)

/-- The call of an action, if it is one, is admissible. -/
def StoreAction.Admissible (pid : ι → ℤ) : StoreAction ι → Prop
  | .call w c => c.Admissible (pid w)
  | .receive _ => True

instance (pid : ι → ℤ) : DecidablePred (StoreAction.Admissible pid) := fun a => by
  cases a <;> unfold StoreAction.Admissible <;> infer_instance

namespace StoreSystem

def start (L : TxtLib) (db : Bytes → Option Bytes) : StoreSystem ι :=
  ⟨fun _ => [], .stackbuffer L nginzMaxBinaryMsgLen, ⟨db, []⟩⟩

/-- `none` when an assertion fails. -/
def step (L : TxtLib) (masterPid : ℤ) (pid : ι → ℤ) (s : StoreSystem ι) :
    StoreAction ι → Option (StoreSystem ι)
  | .call w c => (c.send L (pid w)).map fun ds =>
    { s with pipe := Function.update s.pipe w (s.pipe w ++ ds) }
  | .receive w =>
    match s.pipe w with
    | [] => some s
    | d :: ds =>
      (onBubbles (fun space bin m => m.pmCall L masterPid space bin) s.recvBuffer d s.master).map
        fun r => ⟨Function.update s.pipe w ds, r.1, r.2⟩

def run (L : TxtLib) (masterPid : ℤ) (pid : ι → ℤ) (s : StoreSystem ι)
    (as : List (StoreAction ι)) : Option (StoreSystem ι) :=
  as.foldlM (step L masterPid pid) s

end StoreSystem

/-! ### The abstract store -/

/-- The posts and takes of a run, with what each call stands for. -/
def StoreAction.event (pid : ι → ℤ) : StoreAction ι → Mailbox.Event ι DbRequest
  | .call w c => .post w (c.requests (pid w))
  | .receive w => .take w

/-- The calls that a worker makes in a run. -/
def callsBy (w : ι) (as : List (StoreAction ι)) : List DbCall :=
  as.filterMap fun
    | .call v c => if v = w then some c else none
    | .receive _ => none

theorem call_mem_callsBy {w : ι} {c : DbCall} {as : List (StoreAction ι)} (h : .call w c ∈ as) :
    c ∈ callsBy w as :=
  List.mem_filterMap.mpr ⟨_, h, by simp⟩

theorem posted_calls (pid : ι → ℤ) (w : ι) (as : List (StoreAction ι)) :
    Mailbox.posted w (as.map (StoreAction.event pid)) =
      (callsBy w as).flatMap (DbCall.requests (pid w)) := by
  induction as with
  | nil => rfl
  | cons a as ih =>
    cases a with
    | receive v => exact ih
    | call v c =>
      by_cases hv : v = w
      · subst hv
        have hcalls : callsBy v (.call v c :: as) = c :: callsBy v as := by simp [callsBy]
        rw [hcalls, List.flatMap_cons, ← ih]
        simp [Mailbox.posted, StoreAction.event]
      · have hcalls : callsBy w (.call v c :: as) = callsBy w as := by simp [callsBy, hv]
        rw [hcalls, ← ih]
        simp [Mailbox.posted, StoreAction.event, hv]

/-- The requests the master served in a run, in order, each with its worker. -/
def servedIn (pid : ι → ℤ) (as : List (StoreAction ι)) : List (ι × DbRequest) :=
  (Mailbox.run Mailbox.init (as.map (StoreAction.event pid))).taken

section
omit [DecidableEq ι]

/-- The store after some served requests. -/
def storeAfter (db : Bytes → Option Bytes) (served : List (ι × DbRequest)) : Bytes → Option Bytes :=
  KeyedStore.run db (served.map fun e => e.2.keyOp)

/-- The replies to requests served one after the other. -/
def repliesTo (db : Bytes → Option Bytes) : List (ι × DbRequest) → List DbReply
  | [] => []
  | e :: es => e.2.replies db ++ repliesTo (apply db e.2.keyOp) es

theorem storeAfter_append (db : Bytes → Option Bytes) (es fs : List (ι × DbRequest)) :
    storeAfter db (es ++ fs) = storeAfter (storeAfter db es) fs := by
  unfold storeAfter
  rw [List.map_append, run_append]

theorem repliesTo_append (db : Bytes → Option Bytes) (es fs : List (ι × DbRequest)) :
    repliesTo db (es ++ fs) = repliesTo db es ++ repliesTo (storeAfter db es) fs := by
  induction es generalizing db with
  | nil => rfl
  | cons e es ih =>
    rw [List.cons_append, repliesTo, ih, repliesTo, List.append_assoc]
    rfl

end

/-! ### Refinement -/

/-- The system is where the mailbox is: the pipes hold the messages of the pending
requests, the table is the map after the served ones, and their replies are sent. -/
structure Refines (masterPid : ℤ) (db : Bytes → Option Bytes) (s : StoreSystem ι)
    (t : Mailbox.State ι DbRequest) : Prop where
  pipe : ∀ w, s.pipe w = (t.pending w).map fun r => message r.fields
  pending : ∀ w, ∀ r ∈ t.pending w, r.Admissible
  room : nginzMaxBinaryMsgLen ≤ s.recvBuffer.capacity ∧ s.recvBuffer.capacity < 65536
  table : s.master.globalDb = storeAfter db t.taken
  sent : s.master.sent = (repliesTo db t.taken).map (DbReply.datagram masterPid)

section Run
variable (L : TxtLib) (hroom : L.room nginzMaxBinaryMsgLen < 65536) {masterPid : ℤ}
  {pid : ι → ℤ} {db : Bytes → Option Bytes} {s : StoreSystem ι} {t : Mailbox.State ι DbRequest}

include hroom

omit [DecidableEq ι] in
theorem start_refines :
    Refines masterPid db (StoreSystem.start L db : StoreSystem ι) Mailbox.init where
  pipe w := rfl
  pending w r hr := absurd hr List.not_mem_nil
  room := by
    simp only [StoreSystem.start, AroopTxt.stackbuffer, AroopTxt.buffer_capacity]
    exact ⟨L.le_room _, hroom⟩
  table := rfl
  sent := rfl

/-- An admissible call posts its requests. -/
theorem Refines.call (h : Refines masterPid db s t) {w : ι} {c : DbCall}
    (hc : c.Admissible (pid w)) :
    ∃ s', s.step L masterPid pid (.call w c) = some s' ∧
      Refines masterPid db s' (Mailbox.step t ((StoreAction.call w c).event pid)) := by
  have hsend := send_eq L hroom hc
  obtain ⟨sent, hsent⟩ : ∃ ds, ds = (c.requests (pid w)).map fun r => message r.fields := ⟨_, rfl⟩
  rw [← hsent] at hsend
  refine ⟨{ s with pipe := Function.update s.pipe w (s.pipe w ++ sent) }, ?_, ?_, ?_, h.room,
    h.table, h.sent⟩
  · simp only [StoreSystem.step, hsend, Option.map_some]
  · intro v
    by_cases hv : v = w
    · subst hv
      simp [StoreAction.event, Mailbox.step, h.pipe, hsent]
    · simp [StoreAction.event, Mailbox.step, Function.update_of_ne hv, h.pipe]
  · intro v r hr
    by_cases hv : v = w
    · subst hv
      simp only [StoreAction.event, Mailbox.step, Function.update_self, List.mem_append] at hr
      rcases hr with hr | hr
      · exact h.pending v r hr
      · exact hc.2 r hr
    · simp only [StoreAction.event, Mailbox.step, Function.update_of_ne hv] at hr
      exact h.pending v r hr

/-- A received datagram is served. -/
theorem Refines.receive (h : Refines masterPid db s t) (w : ι)
    (hfit : ∀ rep ∈ repliesTo db (Mailbox.step t (.take w)).taken,
      packedLength (rep.fields masterPid) ≤ 255) :
    ∃ s', s.step L masterPid pid (.receive w) = some s' ∧
      Refines masterPid db s' (Mailbox.step t (.take w)) := by
  cases hp : t.pending w with
  | nil =>
    have hpipe : s.pipe w = [] := by rw [h.pipe, hp]; rfl
    rw [Mailbox.step_take_empty hp]
    exact ⟨s, by simp [StoreSystem.step, hpipe], h⟩
  | cons r rs =>
    rw [Mailbox.step_take hp] at hfit ⊢
    have ha : r.Admissible := h.pending w r (by simp [hp])
    have hpipe : s.pipe w = message r.fields :: rs.map fun r => message r.fields := by
      rw [h.pipe, hp]
      rfl
    have hmax : nginzMaxBinaryMsgLen = 1024 := rfl
    have hshort := ha.short
    have hcap : packedLength r.fields ≤ s.recvBuffer.capacity := by
      have := h.room.1
      omega
    have hone : repliesTo s.master.globalDb [(w, r)] = r.replies s.master.globalDb := by
      simp [repliesTo]
    have hrep : ∀ rep ∈ r.replies s.master.globalDb, packedLength (rep.fields masterPid) ≤ 255 := by
      intro rep hmem
      apply hfit rep
      rw [repliesTo_append, ← h.table, hone]
      exact List.mem_append_right _ hmem
    have hspace : DbRequest.app r.op ≠ [] := DbRequest.app_ne_nil r.op
    have hdispatch := onBubbles_message (fun space bin (m : Master) =>
      m.pmCall L masterPid space bin) h.room.2 hshort hcap rfl hspace s.master
    have hserve := pmCall_request L hroom (recv_startsWith h.room.2 hcap) ha hrep
    rw [hserve] at hdispatch
    refine ⟨⟨Function.update s.pipe w (rs.map fun r => message r.fields),
      ppSimpleRecvmsgHelper s.recvBuffer (message r.fields), s.master.serve masterPid r⟩, ?_,
      ?_, ?_, ?_, ?_, ?_⟩
    · simp only [StoreSystem.step, hpipe, hdispatch, Option.map_some]
    · intro v
      by_cases hv : v = w
      · subst hv
        simp
      · simp [Function.update_of_ne hv, h.pipe]
    · intro v q hq
      by_cases hv : v = w
      · subst hv
        simp only [Function.update_self] at hq
        exact h.pending v q (by simp [hp, hq])
      · simp only [Function.update_of_ne hv] at hq
        exact h.pending v q hq
    · simp only [recv_capacity]
      exact h.room
    · simp only [Master.serve, storeAfter_append, ← h.table]
      rfl
    · rw [repliesTo_append, List.map_append, ← h.table, hone, ← h.sent]
      rfl

/-- The system follows the mailbox through a whole run. -/
theorem run_refines {as : List (StoreAction ι)} (h : Refines masterPid db s t)
    (hcalls : ∀ a ∈ as, a.Admissible pid)
    (hfit : ∀ rep ∈ repliesTo db (Mailbox.run t (as.map (StoreAction.event pid))).taken,
      packedLength (rep.fields masterPid) ≤ 255) :
    ∃ s', s.run L masterPid pid as = some s' ∧
      Refines masterPid db s' (Mailbox.run t (as.map (StoreAction.event pid))) := by
  induction as generalizing s t with
  | nil => exact ⟨s, rfl, h⟩
  | cons a as ih =>
    have hnow : ∀ rep ∈ repliesTo db (Mailbox.step t (a.event pid)).taken,
        packedLength (rep.fields masterPid) ≤ 255 := by
      intro rep hmem
      obtain ⟨later, hl⟩ := Mailbox.run_keeps_taken (Mailbox.step t (a.event pid))
        (as.map (StoreAction.event pid))
      apply hfit rep
      rw [List.map_cons, Mailbox.run_cons, ← hl, repliesTo_append]
      exact List.mem_append_left _ hmem
    obtain ⟨s', hs', h'⟩ : ∃ s', s.step L masterPid pid a = some s' ∧
        Refines masterPid db s' (Mailbox.step t (a.event pid)) := by
      cases a with
      | call w c => exact h.call L hroom (hcalls _ List.mem_cons_self)
      | receive w => exact h.receive L hroom w hnow
    obtain ⟨s'', hs'', h''⟩ := ih h' (fun b hb => hcalls b (List.mem_cons_of_mem a hb)) hfit
    refine ⟨s'', ?_, h''⟩
    unfold StoreSystem.run at hs'' ⊢
    rw [List.foldlM_cons, hs']
    exact hs''

end Run
end Nginz
