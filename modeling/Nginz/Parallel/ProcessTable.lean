import Nginz.Parallel.Nodes
import Nginz.Parallel.AsyncRequest
import Nginz.Lib.Fanout

/-! The tables of the processes while `fork_processors` makes them: each child claims the
first free slot of the table it inherits and learns the others from the broadcasts of the
master. -/
namespace Nginz

def mailboxChildPid : Bytes := lit "mailbox/child/pid"

/-- The first slot without a pid. -/
def freeSlot {m : ℕ} (p : NginzProcess m) : Option (Fin m) :=
  (List.finRange m).find? fun i => p.nodes i = 0

variable {n : ℕ}

/-- `pp_fork_child_after_callback`; `none` when no slot is left for `mynode`. -/
def ppForkChildAfterCallback (p : NginzProcess (n + 1)) : Option (NginzProcess (n + 1)) :=
  (freeSlot p).map fun i =>
    { p with mynode := some i, nodes := Function.update p.nodes i p.pid }

/-- `async_pm_reply_worker` down to the pipes. -/
def replyWorker {m : ℕ} (L : TxtLib) (p : NginzProcess m) (destpid cbToken : ℤ) (workerHook : Bytes)
    (success : ℤ) (args : List (Option Bytes)) : Option (List (Fin m × Bytes)) :=
  (asyncPmReplyWorker L p.pid destpid cbToken workerHook success args).bind fun ds =>
    (ds.mapM fun d => ppSend p d.1 d.2).map List.flatten

/-- The loop that broadcasts the pids of the children in some slots. -/
def broadcastChildPids {m : ℕ} (L : TxtLib) (p : NginzProcess m) :
    List (Fin m) → Option (List (Fin m × Bytes))
  | [] => some []
  | i :: is =>
    (replyWorker L p 0 (p.nodes i) mailboxChildPid i.val [none]).bind fun sent =>
      (broadcastChildPids L p is).map fun rest => sent ++ rest

/-- The children's slots. -/
def childSlots (n : ℕ) : List (Fin (n + 1)) := (List.finRange n).map Fin.succ

/-- `pp_fork_parent_after_callback`: the process afterwards, what it sends, and whether it
listens to its pipe from now on. -/
def ppForkParentAfterCallback (L : TxtLib) (p : NginzProcess (n + 1)) (childPid : ℤ) :
    Option (NginzProcess (n + 1) × List (Fin (n + 1) × Bytes) × Bool) :=
  let p :=
    match freeSlot p with
    | some i => { p with nodes := Function.update p.nodes i childPid }
    | none => p
  match p.mynode with
  | none => none
  | some i =>
    if p.nodes i ≠ p.pid then none
    else if p.nodes (Fin.last n) ≠ 0 then
      (broadcastChildPids L p (childSlots n)).map fun sent => (p, sent, true)
    else some (p, [], false)

/-- `pp_update_siblings_pid`; `none` also when it would write past the table. -/
def ppUpdateSiblingsPid (input : AroopTxt) (p : NginzProcess (n + 1)) :
    Option (NginzProcess (n + 1)) :=
  (unpackedInt input 2).bind fun nid =>
    (unpackedInt input 3).bind fun index =>
      if h : 0 ≤ index ∧ index.toNat < n + 1 then
        if some ⟨index.toNat, h.2⟩ ≠ p.mynode then
          some { p with nodes := Function.update p.nodes ⟨index.toNat, h.2⟩ nid }
        else some p
      else none

/-- `pm_call` for a received command: `others` are the plugins of the other spaces. -/
def siblingsPmCall
    (others : Bytes → AroopTxt → NginzProcess (n + 1) → Option (NginzProcess (n + 1)))
    (space : Bytes) (input : AroopTxt) (p : NginzProcess (n + 1)) : Option (NginzProcess (n + 1)) :=
  if space = mailboxChildPid then ppUpdateSiblingsPid input p else others space input p

/-- The processes in the order they were forked, the first one being the parent of all
others; which of them listen to their pipes; the datagrams waiting in the pipe of each slot;
the number of forks so far, and the result of the last one until the parent has handled
it. -/
structure ForkSystem (n : ℕ) where
  proc : Fin (n + 1) → Option (NginzProcess (n + 1))
  listening : Fin (n + 1) → Bool
  pipe : Fin (n + 1) → List Bytes
  forked : ℕ
  inFork : Option ℤ

/-- `fork` in `fork_processors`, the callbacks of parent and children behind it, and
`on_bubbles` in some process. -/
inductive ForkAction (n : ℕ) where
  | fork
  | parentAfter
  | childAfter (k : Fin (n + 1))
  | deliver (k : Fin (n + 1))
  deriving DecidableEq

namespace ForkSystem

/-- After `pp_module_init`, before `fork_processors`. -/
def start (L : TxtLib) (pid : ℤ) : ForkSystem n where
  proc := Function.update (fun _ => none) 0 (some
    { pid := pid
      nodes := Function.update (fun _ => 0) 0 pid
      mynode := some 0
      recvBuffer := .stackbuffer L nginzMaxBinaryMsgLen })
  listening _ := false
  pipe _ := []
  forked := 0
  inFork := none

/-- `none` when an assertion fails or a null pointer is followed. The system gives the
processes the pids `pid`. -/
def step (L : TxtLib)
    (others : Bytes → AroopTxt → NginzProcess (n + 1) → Option (NginzProcess (n + 1)))
    (pid : Fin (n + 1) → ℤ) (s : ForkSystem n) : ForkAction n → Option (ForkSystem n)
  | .fork =>
    match s.proc 0 with
    | none => some s
    | some p =>
      if h : s.inFork = none ∧ s.forked < n then
        let k : Fin (n + 1) := ⟨s.forked + 1, Nat.succ_lt_succ h.2⟩
        some { s with
          proc := Function.update s.proc k (some { p with pid := pid k })
          forked := s.forked + 1
          inFork := some (pid k) }
      else some s
  | .parentAfter =>
    match s.proc 0, s.inFork with
    | some p, some childPid => (ppForkParentAfterCallback L p childPid).map fun r =>
      { s with
        proc := Function.update s.proc 0 (some r.1)
        pipe := fun i => s.pipe i ++ sentTo i r.2.1
        listening := if r.2.2 then Function.update s.listening 0 true else s.listening
        inFork := none }
    | _, _ => some s
  | .childAfter k =>
    match s.proc k with
    | none => some s
    | some p =>
      if k ≠ 0 ∧ s.listening k = false then
        (ppForkChildAfterCallback p).map fun p' =>
          { s with
            proc := Function.update s.proc k (some p')
            listening := Function.update s.listening k true }
      else some s
  | .deliver k =>
    match s.proc k with
    | none => some s
    | some p =>
      if s.listening k then
        match p.mynode with
        | none => none
        | some i =>
          match s.pipe i with
          | [] => some s
          | d :: ds => (onBubbles (siblingsPmCall others) p.recvBuffer d p).map fun r =>
            { s with
              proc := Function.update s.proc k (some { r.2 with recvBuffer := r.1 })
              pipe := Function.update s.pipe i ds }
      else some s

def run (L : TxtLib)
    (others : Bytes → AroopTxt → NginzProcess (n + 1) → Option (NginzProcess (n + 1)))
    (pid : Fin (n + 1) → ℤ) (s : ForkSystem n) (as : List (ForkAction n)) : Option (ForkSystem n) :=
  as.foldlM (step L others pid) s

/-- The number of children whose pids the parent has in its table. -/
def recorded (s : ForkSystem n) : ℕ := if s.inFork = none then s.forked else s.forked - 1

theorem recorded_le (s : ForkSystem n) : s.recorded ≤ s.forked := by
  unfold recorded
  split
  · exact le_rfl
  · exact Nat.sub_le _ _

end ForkSystem

/-! ### Tables -/

/-- The table with the first `b` processes. -/
def pidsBelow (pid : Fin (n + 1) → ℤ) (b : ℕ) (i : Fin (n + 1)) :
    ℤ := if i.val < b then pid i else 0

/-- The table of the process in slot `k` after some broadcasts. -/
def pidsLearnt (pid : Fin (n + 1) → ℤ) (k : Fin (n + 1))
    (taken : List (Fin (n + 1) × Fin (n + 1))) (i : Fin (n + 1)) : ℤ :=
  if i ≤ k ∨ i ∈ taken.map Prod.snd then pid i else 0

section Table
variable {pid : Fin (n + 1) → ℤ} (hpid : ∀ i, pid i ≠ 0)

include hpid in
/-- The first free slot of a partial table is the next one. -/
theorem freeSlot_pidsBelow {p : NginzProcess (n + 1)} {k : Fin (n + 1)}
    (hp : p.nodes = pidsBelow pid k.val) : freeSlot p = some k := by
  unfold freeSlot
  rw [List.find?_eq_some_iff_getElem]
  refine ⟨by simp [hp, pidsBelow], k.val, by simpa using Nat.lt_succ_iff.mp k.isLt, by simp,
    fun j hj => ?_⟩
  simp [hp, pidsBelow, hj, hpid]

theorem pidsBelow_update (k : Fin (n + 1)) :
    Function.update (pidsBelow pid k.val) k (pid k) = pidsBelow pid (k.val + 1) := by
  funext i
  unfold pidsBelow
  by_cases hi : i = k
  · subst hi
    simp
  · have hne : i.val ≠ k.val := fun h => hi (Fin.ext h)
    rw [Function.update_of_ne hi]
    by_cases hlt : i.val < k.val
    · rw [if_pos hlt, if_pos (by omega)]
    · rw [if_neg hlt, if_neg (by omega)]

theorem pidsLearnt_nil (k : Fin (n + 1)) : pidsLearnt pid k [] = pidsBelow pid (k.val + 1) := by
  funext i
  have hknown : (i ≤ k ∨ i ∈ ([] : List (Fin (n + 1) × Fin (n + 1))).map Prod.snd) ↔
      i.val < k.val + 1 := by
    rw [List.map_nil, Nat.lt_succ_iff]
    simp
  exact if_congr hknown rfl rfl

/-- One more broadcast; the own slot is known from the beginning. -/
theorem pidsLearnt_snoc (k : Fin (n + 1)) (taken : List (Fin (n + 1) × Fin (n + 1)))
    (x : Fin (n + 1) × Fin (n + 1)) : pidsLearnt pid k (taken ++ [x]) =
      if x.2 = k then pidsLearnt pid k taken
      else Function.update (pidsLearnt pid k taken) x.2 (pid x.2) := by
  funext i
  have hmem : i ∈ (taken ++ [x]).map Prod.snd ↔ i ∈ taken.map Prod.snd ∨ i = x.2 := by simp
  unfold pidsLearnt
  simp only [hmem]
  by_cases hx : x.2 = k
  · rw [if_pos hx]
    by_cases hi : i = x.2
    · simp [hi, hx]
    · simp only [hi, or_false]
  · rw [if_neg hx]
    by_cases hi : i = x.2
    · subst hi
      simp
    · simp only [hi, or_false, ne_eq, not_false_eq_true, Function.update_of_ne]

end Table

/-! ### Broadcasting the pids -/

/-- The fields of the broadcast for slot `i`. -/
def siblingFields (pid : Fin (n + 1) → ℤ) (i : Fin (n + 1)) : List Field :=
  replyFields (pid 0) (pid i) mailboxChildPid i.val []

theorem siblingFields_short (pid : Fin (n + 1) → ℤ) (i : Fin (n + 1)) :
    packedLength (siblingFields pid i) ≤ 43 := by
  have hmaster := intbuf_length_le (pid 0)
  have hchild := intbuf_length_le (pid i)
  have hslot := intbuf_length_le i.val
  have hword : mailboxChildPid.length = 17 := by decide
  simp only [packedLength, siblingFields, replyFields, Field.body, List.map_nil, List.append_nil,
    List.map_cons, List.sum_cons, List.sum_nil, hword]
  omega

section Broadcast
variable (L : TxtLib) (hroom : L.room nginzMaxBinaryMsgLen < 65536) {pid : Fin (n + 1) → ℤ}
include hroom

/-- The loop broadcasts one message for each slot, in order. -/
theorem broadcastChildPids_sent {p : NginzProcess (n + 1)} (hp : p.pid = pid 0)
    (hnodes : p.nodes = pid) (is : List (Fin (n + 1))) :
    ∃ sent, broadcastChildPids L p is = some sent ∧ ∀ j, sentTo j sent =
      if some j = p.mynode then [] else is.map fun i => message (siblingFields pid i) := by
  induction is with
  | nil => exact ⟨[], rfl, fun j => by simp [sentTo]⟩
  | cons i is ih =>
    obtain ⟨rest, hrest, hto⟩ := ih
    obtain ⟨sent, hsent, hone⟩ := ppSend_broadcast p (message (siblingFields pid i))
    have hshort := siblingFields_short pid i
    have hpack : asyncPmReplyWorker L p.pid 0 (p.nodes i) mailboxChildPid i.val [none] =
        some [(0, message (siblingFields pid i))] := by
      rw [hp, hnodes]
      apply asyncPmReplyWorker_eq L hroom (by decide) (by decide)
      exact hshort.trans (by decide)
    refine ⟨sent ++ rest, ?_, fun j => ?_⟩
    · unfold broadcastChildPids replyWorker
      rw [hpack, hrest]
      simp [hsent]
    · rw [sentTo_append, hone, hto]
      split
      · rfl
      · rfl

end Broadcast

/-- A received broadcast updates the slot it is about, unless it is the own one. -/
theorem ppUpdateSiblingsPid_received {pid : Fin (n + 1) → ℤ} {p : NginzProcess (n + 1)}
    {input : AroopTxt} {i : Fin (n + 1)} (hn : n < 2 ^ 31) (hpid : 0 < pid i ∧ pid i < 2 ^ 31)
    (hsw : StartsWith input (siblingFields pid i)) :
    ppUpdateSiblingsPid input p = some (if some i = p.mynode then p
      else { p with nodes := Function.update p.nodes i (pid i) }) := by
  have hshort := siblingFields_short pid i
  have hi := i.isLt
  have hnid : unpackedInt input 2 = some (pid i) :=
    hsw.unpackedInt_field (hshort.trans (by decide)) rfl hpid.1.le hpid.2
  have hindex : unpackedInt input 3 = some (i.val : ℤ) :=
    hsw.unpackedInt_field (hshort.trans (by decide)) rfl (by omega) (by omega)
  unfold ppUpdateSiblingsPid
  rw [hnid, hindex]
  have hslot : (0 : ℤ) ≤ (i.val : ℤ) ∧ (i.val : ℤ).toNat < n + 1 := ⟨by omega, by omega⟩
  simp only [Option.bind_some]
  rw [dif_pos hslot]
  simp only [Int.toNat_natCast, Fin.eta]
  by_cases hown : some i = p.mynode
  · rw [if_neg (not_not.mpr hown), if_pos hown]
  · rw [if_pos hown, if_neg hown]

/-! ### The invariant -/

/-- A process in the order `k` of the forks: the parent has recorded some children and the
process took some broadcasts. -/
structure NginzProcess.Knows (pid : Fin (n + 1) → ℤ) (listening : Bool) (recorded : ℕ)
    (k : Fin (n + 1)) (taken : List (Fin (n + 1) × Fin (n + 1))) (p : NginzProcess (n + 1)) :
    Prop where
  getpid : p.pid = pid k
  room : nginzMaxBinaryMsgLen ≤ p.recvBuffer.capacity ∧ p.recvBuffer.capacity < 65536
  mynode : k = 0 ∨ listening = true → p.mynode = some k
  nodes : p.nodes =
    if k = 0 then pidsBelow pid (recorded + 1)
    else if listening then pidsLearnt pid k taken
    else pidsBelow pid k.val

/-- What a child knows does not depend on the table of the parent. -/
theorem NginzProcess.Knows.child {pid : Fin (n + 1) → ℤ} {listening : Bool} {b b' : ℕ}
    {k : Fin (n + 1)} {taken : List (Fin (n + 1) × Fin (n + 1))} {p : NginzProcess (n + 1)}
    (h : p.Knows pid listening b k taken) (hk : k ≠ 0) : p.Knows pid listening b' k taken where
  getpid := h.getpid
  room := h.room
  mynode := h.mynode
  nodes := by
    have hnodes := h.nodes
    rw [if_neg hk] at hnodes ⊢
    exact hnodes

/-- The processes are where the broadcasts of the parent are. -/
structure Tables (pid : Fin (n + 1) → ℤ) (s : ForkSystem n)
    (t : Fanout.State (Fin (n + 1)) (Fin (n + 1))) : Prop where
  exact : Fanout.Exact t
  published : t.published = if s.recorded = n then (childSlots n).map (0, ·) else []
  pipe : ∀ k, s.pipe k = (t.pending k).map fun x => message (siblingFields pid x.2)
  forked : s.forked ≤ n
  inFork : ∀ childPid, s.inFork = some childPid →
    ∃ k : Fin (n + 1), k.val = s.forked ∧ k ≠ 0 ∧ childPid = pid k
  present : ∀ k, (s.proc k).isSome ↔ k.val ≤ s.forked
  knows : ∀ k p, s.proc k = some p → p.Knows pid (s.listening k) s.recorded k (t.taken k)
  listens : ∀ k, s.listening k = true → k.val ≤ s.forked
  waiting : ∀ k, k ≠ 0 → s.listening k = false → t.taken k = []

namespace Tables
variable (L : TxtLib) (hroom : L.room nginzMaxBinaryMsgLen < 65536)
  (others : Bytes → AroopTxt → NginzProcess (n + 1) → Option (NginzProcess (n + 1)))
  {pid : Fin (n + 1) → ℤ} (hpid : ∀ i, 0 < pid i ∧ pid i < 2 ^ 31) (hn : n < 2 ^ 31)
  {s : ForkSystem n} {t : Fanout.State (Fin (n + 1)) (Fin (n + 1))} (h : Tables pid s t)

include hroom in
theorem start : Tables pid (ForkSystem.start L (pid 0)) Fanout.init where
  exact := Fanout.init_exact
  published := by
    show [] = if (0 : ℕ) = n then _ else _
    split
    · rename_i hzero
      subst hzero
      rfl
    · rfl
  pipe k := rfl
  forked := Nat.zero_le n
  inFork childPid hc := by cases hc
  present k := by
    unfold ForkSystem.start
    by_cases hk : k = 0
    · subst hk
      simp
    · have hv : k.val ≠ 0 := fun hv => hk (Fin.ext hv)
      simp [hk]
  knows k p hp := by
    unfold ForkSystem.start at hp
    by_cases hk : k = 0
    · subst hk
      simp only [Function.update_self] at hp
      obtain rfl := Option.some.inj hp
      refine ⟨rfl, ?_, fun _ => rfl, ?_⟩
      · simp only [AroopTxt.stackbuffer, AroopTxt.buffer_capacity]
        exact ⟨L.le_room _, hroom⟩
      · funext i
        by_cases hi : i = 0
        · subst hi
          simp [pidsBelow]
        · have hv : i.val ≠ 0 := fun hv => hi (Fin.ext hv)
          simp [pidsBelow, hi, ForkSystem.recorded, ForkSystem.start]
    · simp [hk] at hp
  listens k hk := by cases hk
  waiting k _ _ := rfl

include h

/-- There always is a first process. -/
theorem first :
    ∃ p, s.proc 0 = some p := Option.isSome_iff_exists.mp ((h.present 0).mpr (Nat.zero_le _))

/-- A fork copies the table of the parent. -/
theorem fork : ∃ s', s.step L others pid .fork = some s' ∧ Tables pid s' t := by
  obtain ⟨p, hp⟩ := h.first
  by_cases hfork : s.inFork = none ∧ s.forked < n
  · let k : Fin (n + 1) := ⟨s.forked + 1, Nat.succ_lt_succ hfork.2⟩
    have hk : k ≠ 0 := by
      intro hk
      exact absurd (congrArg Fin.val hk) (Nat.succ_ne_zero _)
    have hsilent : s.listening k = false := by
      by_contra hl
      have := h.listens k (by simpa using hl)
      exact absurd this (by simp [k])
    have hrecorded : s.recorded = s.forked := if_pos hfork.1
    let s' : ForkSystem n := { s with
      proc := Function.update s.proc k (some { p with pid := pid k })
      forked := s.forked + 1
      inFork := some (pid k) }
    have hrecorded' : s'.recorded = s.recorded := by
      rw [hrecorded]
      rfl
    refine ⟨s', ?_, ?_⟩
    · simp only [ForkSystem.step, hp]
      rw [dif_pos hfork]
    · refine { h with
        published := ?_
        forked := Nat.succ_le_of_lt hfork.2
        inFork := ?_
        present := fun j => ?_
        knows := fun j q hq => ?_
        listens := fun j hj => (h.listens j hj).trans (Nat.le_succ _) }
      · rw [hrecorded']
        exact h.published
      · rintro childPid ⟨⟩
        exact ⟨k, rfl, hk, rfl⟩
      · show (Function.update s.proc k _ j).isSome ↔ j.val ≤ s.forked + 1
        by_cases hj : j = k
        · subst hj
          simp [k]
        · have hv : j.val ≠ s.forked + 1 := fun hv => hj (Fin.ext hv)
          rw [Function.update_of_ne hj, h.present]
          omega
      · change Function.update s.proc k _ j = some q at hq
        rw [hrecorded']
        by_cases hj : j = k
        · subst hj
          rw [Function.update_self] at hq
          obtain rfl := Option.some.inj hq
          have hfirst := h.knows 0 p hp
          refine ⟨rfl, hfirst.room, ?_, ?_⟩
          · rintro (hzero | hl)
            · exact absurd hzero hk
            · exact absurd (hsilent.symm.trans hl) (by decide)
          · have hnodes := hfirst.nodes
            rw [if_pos rfl, hrecorded] at hnodes
            show p.nodes = _
            rw [hnodes, if_neg hk]
            show _ = if s.listening k = true then _ else _
            rw [hsilent]
            rfl
        · rw [Function.update_of_ne hj] at hq
          exact h.knows j q hq
  · refine ⟨s, ?_, h⟩
    simp only [ForkSystem.step, hp]
    rw [dif_neg hfork]

include hpid in
/-- What the parent's callback does to its own table. -/
theorem parent_records {p : NginzProcess (n + 1)} (hp : s.proc 0 = some p) {k : Fin (n + 1)}
    (hk : k ≠ 0) (hforked : k.val = s.forked) (hin : s.inFork = some (pid k)) :
    freeSlot p = some k ∧ Function.update p.nodes k (pid k) = pidsBelow pid (s.forked + 1) ∧
      p.mynode = some 0 ∧ p.pid = pid 0 := by
  have hfirst := h.knows 0 p hp
  have hpos : k.val ≠ 0 := fun hv => hk (Fin.ext hv)
  have hrecorded : s.recorded + 1 = k.val := by
    unfold ForkSystem.recorded
    rw [hin, if_neg (by simp)]
    omega
  have hnodes := hfirst.nodes
  rw [if_pos rfl, hrecorded] at hnodes
  refine ⟨freeSlot_pidsBelow (fun i => (hpid i).1.ne') hnodes, ?_, hfirst.mynode (Or.inl rfl),
    hfirst.getpid⟩
  rw [hnodes, pidsBelow_update, hforked]

include hroom hpid in
/-- The parent records the child, and behind the last fork it broadcasts all of them. -/
theorem parentAfter : ∃ s' t', s.step L others pid .parentAfter = some s' ∧ Tables pid s' t' := by
  obtain ⟨p, hp⟩ := h.first
  cases hin : s.inFork with
  | none =>
    refine ⟨s, t, ?_, h⟩
    simp only [ForkSystem.step, hp, hin]
  | some childPid =>
    obtain ⟨k, hforked, hk, rfl⟩ := h.inFork childPid hin
    obtain ⟨hfree, hnodes, hmynode, hown⟩ := h.parent_records hpid hp hk hforked hin
    have hroomp := (h.knows 0 p hp).room
    have hzero : (0 : Fin (n + 1)).val < s.forked + 1 := Nat.succ_pos _
    have hassert : ¬ Function.update p.nodes k (pid k) 0 ≠ p.pid := by
      rw [hnodes, hown]
      simp [pidsBelow]
    have hrecorded : s.recorded ≠ n := by
      have hle := h.forked
      have hpos : k.val ≠ 0 := fun hv => hk (Fin.ext hv)
      unfold ForkSystem.recorded
      rw [hin, if_neg (by simp)]
      omega
    have hnothing : t.published = [] := by
      rw [h.published, if_neg hrecorded]
    let p' : NginzProcess (n + 1) := { p with nodes := Function.update p.nodes k (pid k) }
    have hknows (listening : Bool) (taken : List (Fin (n + 1) × Fin (n + 1))) :
        p'.Knows pid listening s.forked 0 taken :=
      ⟨hown, hroomp, fun _ => hmynode, by rw [if_pos rfl]; exact hnodes⟩
    have hpresent (q : NginzProcess (n + 1)) (j : Fin (n + 1)) :
        (Function.update s.proc 0 (some q) j).isSome ↔ j.val ≤ s.forked := by
      by_cases hj : j = 0
      · subst hj
        simp
      · rw [Function.update_of_ne hj]
        exact h.present j
    by_cases hlast : s.forked = n
    · have htable : p'.nodes = pid := by
        funext i
        show Function.update p.nodes k (pid k) i = pid i
        rw [hnodes]
        exact if_pos (by omega)
      obtain ⟨sent, hsent, hto⟩ := broadcastChildPids_sent L hroom (p := p') hown htable
        (childSlots n)
      have hfull : Function.update p.nodes k (pid k) (Fin.last n) ≠ 0 := by
        show p'.nodes (Fin.last n) ≠ 0
        rw [htable]
        exact (hpid _).1.ne'
      refine ⟨{ s with
          proc := Function.update s.proc 0 (some p')
          pipe := fun i => s.pipe i ++ sentTo i sent
          listening := Function.update s.listening 0 true
          inFork := none },
        Fanout.run t ((childSlots n).map (.publish 0)), ?_, ?_⟩
      · simp only [ForkSystem.step, hp, hin, ppForkParentAfterCallback, hfree, hmynode]
        rw [if_neg hassert, if_pos hfull]
        simp only [p'] at hsent
        rw [hmynode] at hsent
        simp [hsent, p', hmynode]
      · have hrun := Fanout.run_publish t 0 (childSlots n)
        refine {
          exact := Fanout.run_exact h.exact _
          published := ?_
          pipe := fun j => ?_
          forked := h.forked
          inFork := by rintro _ ⟨⟩
          present := hpresent p'
          knows := fun j q hq => ?_
          listens := fun j hj => ?_
          waiting := fun j hj hl => ?_ }
        · rw [hrun]
          show t.published ++ _ = if s.forked = n then _ else _
          rw [hnothing, if_pos hlast, List.nil_append]
        · rw [hrun]
          show s.pipe j ++ sentTo j sent = List.map _ (if j = 0 then _ else _)
          rw [h.pipe, hto, show p'.mynode = some 0 from hmynode]
          by_cases hj : j = 0
          · simp [hj]
          · simp [hj]
        · rw [hrun]
          change Function.update s.proc 0 (some p') j = some q at hq
          by_cases hj : j = 0
          · subst hj
            rw [Function.update_self] at hq
            obtain rfl := Option.some.inj hq
            exact hknows _ _
          · rw [Function.update_of_ne hj] at hq
            have hold := h.knows j q hq
            have hl : Function.update s.listening 0 true j = s.listening j :=
              Function.update_of_ne hj ..
            show q.Knows pid (Function.update s.listening 0 true j) s.forked j (t.taken j)
            rw [hl]
            exact hold.child hj
        · by_cases hj0 : j = 0
          · subst hj0
            exact Nat.zero_le _
          · change Function.update s.listening 0 true j = true at hj
            rw [Function.update_of_ne hj0] at hj
            exact h.listens j hj
        · rw [hrun]
          change Function.update s.listening 0 true j = false at hl
          rw [Function.update_of_ne hj] at hl
          exact h.waiting j hj hl
    · have hmore : ¬ Function.update p.nodes k (pid k) (Fin.last n) ≠ 0 := by
        have hle := h.forked
        rw [hnodes]
        simp only [pidsBelow, Fin.val_last]
        rw [if_neg (by omega)]
        simp
      refine ⟨{ s with
          proc := Function.update s.proc 0 (some p')
          inFork := none }, t, ?_, ?_⟩
      · simp only [ForkSystem.step, hp, hin, ppForkParentAfterCallback, hfree, hmynode]
        rw [if_neg hassert, if_neg hmore]
        simp [p', hmynode, sentTo]
      · refine { h with
          published := ?_
          inFork := by rintro _ ⟨⟩
          present := hpresent p'
          knows := fun j q hq => ?_ }
        · show t.published = if s.forked = n then _ else _
          rw [hnothing, if_neg hlast]
        · change Function.update s.proc 0 (some p') j = some q at hq
          by_cases hj : j = 0
          · subst hj
            rw [Function.update_self] at hq
            obtain rfl := Option.some.inj hq
            exact hknows _ _
          · rw [Function.update_of_ne hj] at hq
            exact (h.knows j q hq).child hj

omit hroom in
include hpid in
/-- A child claims its own slot. -/
theorem childAfter (k : Fin (n + 1)) :
    ∃ s', s.step L others pid (.childAfter k) = some s' ∧ Tables pid s' t := by
  cases hp : s.proc k with
  | none =>
    refine ⟨s, ?_, h⟩
    simp only [ForkSystem.step, hp]
  | some p =>
    by_cases hready : k ≠ 0 ∧ s.listening k = false
    · obtain ⟨hk, hl⟩ := hready
      have hold := h.knows k p hp
      have hnodes : p.nodes = pidsBelow pid k.val := by
        rw [hold.nodes, if_neg hk, hl]
        rfl
      have hfree := freeSlot_pidsBelow (fun i => (hpid i).1.ne') hnodes
      let p' : NginzProcess (n + 1) :=
        { p with mynode := some k, nodes := Function.update p.nodes k p.pid }
      refine ⟨{ s with
          proc := Function.update s.proc k (some p')
          listening := Function.update s.listening k true }, ?_, ?_⟩
      · simp only [ForkSystem.step, hp, ppForkChildAfterCallback, hfree]
        rw [if_pos ⟨hk, hl⟩]
        rfl
      · refine { h with
          present := fun j => ?_
          knows := fun j q hq => ?_
          listens := fun j hj => ?_
          waiting := fun j hj hlj => ?_ }
        · show (Function.update s.proc k (some p') j).isSome ↔ _
          by_cases hj : j = k
          · subst hj
            rw [Function.update_self, ← h.present, hp]
            simp
          · rw [Function.update_of_ne hj]
            exact h.present j
        · show q.Knows pid (Function.update s.listening k true j) s.recorded j (t.taken j)
          change Function.update s.proc k (some p') j = some q at hq
          by_cases hj : j = k
          · subst hj
            rw [Function.update_self] at hq ⊢
            obtain rfl := Option.some.inj hq
            refine ⟨hold.getpid, hold.room, fun _ => rfl, ?_⟩
            show Function.update p.nodes j p.pid = _
            rw [if_neg hk, if_pos rfl, h.waiting j hk hl, pidsLearnt_nil, hnodes, hold.getpid,
              pidsBelow_update]
          · rw [Function.update_of_ne hj] at hq ⊢
            exact h.knows j q hq
        · change Function.update s.listening k true j = true at hj
          by_cases hjk : j = k
          · subst hjk
            exact (h.present j).mp (by rw [hp]; rfl)
          · rw [Function.update_of_ne hjk] at hj
            exact h.listens j hj
        · change Function.update s.listening k true j = false at hlj
          by_cases hjk : j = k
          · subst hjk
            rw [Function.update_self] at hlj
            cases hlj
          · rw [Function.update_of_ne hjk] at hlj
            exact h.waiting j hj hlj
    · refine ⟨s, ?_, h⟩
      simp only [ForkSystem.step, hp]
      rw [if_neg hready]

/-- Only children hear of anything. -/
theorem pending_parent : t.pending 0 = [] := by
  have hheard := h.exact 0
  have hall : Fanout.heard 0 t.published = [] := by
    unfold Fanout.heard
    rw [List.filter_eq_nil_iff, h.published]
    intro x hx
    split at hx
    · obtain ⟨i, -, rfl⟩ := List.mem_map.mp hx
      simp
    · cases hx
  rw [hall] at hheard
  exact (List.append_eq_nil_iff.mp hheard).2

include hpid hn in
/-- A process that listens learns the pid of one more child. -/
theorem deliver (k : Fin (n + 1)) :
    ∃ s' t', s.step L others pid (.deliver k) = some s' ∧ Tables pid s' t' := by
  cases hp : s.proc k with
  | none =>
    refine ⟨s, t, ?_, h⟩
    simp only [ForkSystem.step, hp]
  | some p =>
    by_cases hl : s.listening k = true
    swap
    · refine ⟨s, t, ?_, h⟩
      simp only [ForkSystem.step, hp]
      rw [if_neg hl]
    have hold := h.knows k p hp
    have hmynode := hold.mynode (Or.inr hl)
    have hstep : s.step L others pid (.deliver k) =
        match s.pipe k with
        | [] => some s
        | d :: ds => (onBubbles (siblingsPmCall others) p.recvBuffer d p).map fun r =>
          { s with
            proc := Function.update s.proc k (some { r.2 with recvBuffer := r.1 })
            pipe := Function.update s.pipe k ds } := by
      simp only [ForkSystem.step, hp, hmynode]
      rw [if_pos hl]
    cases hpend : t.pending k with
    | nil =>
      refine ⟨s, t, ?_, h⟩
      rw [hstep, h.pipe, hpend]
      rfl
    | cons x xs =>
      have hk : k ≠ 0 := by
        rintro rfl
        rw [h.pending_parent] at hpend
        cases hpend
      have hmax : nginzMaxBinaryMsgLen = 1024 := rfl
      have hroomp := hold.room
      have hshort := siblingFields_short pid x.2
      have hspace : mailboxChildPid ≠ [] := by decide
      have hfits : packedLength (siblingFields pid x.2) ≤ p.recvBuffer.capacity := by omega
      have hdispatch := onBubbles_message (siblingsPmCall others) hroomp.2
        (hshort.trans (by decide)) hfits rfl hspace p
      have hupdate := ppUpdateSiblingsPid_received (p := p) hn (hpid x.2)
        (recv_startsWith hroomp.2 hfits)
      have hcall : siblingsPmCall others mailboxChildPid
          (ppSimpleRecvmsgHelper p.recvBuffer (message (siblingFields pid x.2))) p =
            ppUpdateSiblingsPid
              (ppSimpleRecvmsgHelper p.recvBuffer (message (siblingFields pid x.2))) p := if_pos rfl
      rw [hcall, hupdate, Option.map_some] at hdispatch
      let p' : NginzProcess (n + 1) := { (if some x.2 = p.mynode then p
        else { p with nodes := Function.update p.nodes x.2 (pid x.2) }) with
          recvBuffer := ppSimpleRecvmsgHelper p.recvBuffer (message (siblingFields pid x.2)) }
      have hp' : p'.Knows pid (s.listening k) s.recorded k (t.taken k ++ [x]) := by
        have hnodes := hold.nodes
        rw [if_neg hk, if_pos hl] at hnodes
        refine ⟨?_, ?_, fun _ => ?_, ?_⟩
        · show (if some x.2 = p.mynode then p else _).pid = pid k
          split
          · exact hold.getpid
          · exact hold.getpid
        · show _ ≤ (ppSimpleRecvmsgHelper _ _).capacity ∧ (ppSimpleRecvmsgHelper _ _).capacity < _
          rw [recv_capacity]
          exact hroomp
        · show (if some x.2 = p.mynode then p else _).mynode = some k
          split
          · exact hmynode
          · exact hmynode
        · show (if some x.2 = p.mynode then p else _).nodes = _
          rw [if_neg hk, if_pos hl, pidsLearnt_snoc, hmynode]
          by_cases hx : x.2 = k
          · rw [if_pos (congrArg some hx), if_pos hx, hnodes]
          · rw [if_neg fun he => hx (Option.some.inj he), if_neg hx, ← hnodes]
      refine ⟨{ s with
          proc := Function.update s.proc k (some p')
          pipe := Function.update s.pipe k (xs.map fun x => message (siblingFields pid x.2)) },
        Fanout.step t (.take k), ?_, ?_⟩
      · rw [hstep, h.pipe, hpend, List.map_cons]
        show (onBubbles _ _ _ _).map _ = _
        rw [hdispatch]
        rfl
      · have htake := Fanout.step_take hpend
        refine {
          exact := Fanout.step_exact h.exact _
          published := ?_
          pipe := fun j => ?_
          forked := h.forked
          inFork := h.inFork
          present := fun j => ?_
          knows := fun j q hq => ?_
          listens := h.listens
          waiting := fun j hj hlj => ?_ }
        · rw [htake]
          exact h.published
        · rw [htake]
          show Function.update s.pipe k _ j = List.map _ (Function.update t.pending k xs j)
          by_cases hj : j = k
          · subst hj
            simp
          · simp [hj, h.pipe]
        · show (Function.update s.proc k (some p') j).isSome ↔ _
          by_cases hj : j = k
          · subst hj
            rw [Function.update_self, ← h.present, hp]
            simp
          · rw [Function.update_of_ne hj]
            exact h.present j
        · rw [htake]
          show q.Knows pid (s.listening j) s.recorded j
            (Function.update t.taken k (t.taken k ++ [x]) j)
          change Function.update s.proc k (some p') j = some q at hq
          by_cases hj : j = k
          · subst hj
            rw [Function.update_self] at hq ⊢
            obtain rfl := Option.some.inj hq
            exact hp'
          · rw [Function.update_of_ne hj] at hq ⊢
            exact h.knows j q hq
        · have hjk : j ≠ k := by
            rintro rfl
            rw [hl] at hlj
            cases hlj
          rw [htake]
          show Function.update t.taken k _ j = []
          rw [Function.update_of_ne hjk]
          exact h.waiting j hj hlj

include hroom hpid hn in
/-- The processes keep their tables through a whole run. -/
theorem run (as : List (ForkAction n)) :
    ∃ s' t', s.run L others pid as = some s' ∧ Tables pid s' t' := by
  induction as generalizing s t with
  | nil => exact ⟨s, t, rfl, h⟩
  | cons a as ih =>
    obtain ⟨s₁, t₁, hs₁, h₁⟩ : ∃ s' t', s.step L others pid a = some s' ∧ Tables pid s' t' := by
      cases a with
      | fork =>
        obtain ⟨s', hs', h'⟩ := h.fork L others
        exact ⟨s', t, hs', h'⟩
      | parentAfter => exact h.parentAfter L hroom others hpid
      | childAfter k =>
        obtain ⟨s', hs', h'⟩ := h.childAfter L others hpid k
        exact ⟨s', t, hs', h'⟩
      | deliver k => exact h.deliver L others hpid hn k
    obtain ⟨s₂, t₂, hs₂, h₂⟩ := ih h₁
    refine ⟨s₂, t₂, ?_, h₂⟩
    unfold ForkSystem.run at hs₂ ⊢
    rw [List.foldlM_cons, hs₁]
    exact hs₂

/-- An entry of a table is empty or the pid of the process that owns the slot. -/
theorem entry {k : Fin (n + 1)} {p : NginzProcess (n + 1)} (hp : s.proc k = some p)
    (i : Fin (n + 1)) : p.nodes i = 0 ∨ ∃ q, s.proc i = some q ∧ p.nodes i = q.pid := by
  have hk : k.val ≤ s.forked := (h.present k).mp (by rw [hp]; rfl)
  have hrecorded := s.recorded_le
  have hforked := h.forked
  have howner (hi : i.val ≤ s.forked) : ∃ q, s.proc i = some q ∧ pid i = q.pid := by
    obtain ⟨q, hq⟩ := Option.isSome_iff_exists.mp ((h.present i).mpr hi)
    exact ⟨q, hq, (h.knows i q hq).getpid.symm⟩
  have hbelow {b : ℕ} (hb : b ≤ s.forked + 1) (hnodes : p.nodes = pidsBelow pid b) :
      p.nodes i = 0 ∨ ∃ q, s.proc i = some q ∧ p.nodes i = q.pid := by
    rw [hnodes]
    unfold pidsBelow
    split
    · exact Or.inr (howner (by omega))
    · exact Or.inl rfl
  have hnodes := (h.knows k p hp).nodes
  by_cases hzero : k = 0
  · rw [if_pos hzero] at hnodes
    exact hbelow (by omega) hnodes
  rw [if_neg hzero] at hnodes
  by_cases hl : s.listening k = true
  · rw [if_pos hl] at hnodes
    rw [hnodes]
    unfold pidsLearnt
    split
    · rename_i hknown
      apply Or.inr ∘ howner
      rcases hknown with hle | hmem
      · exact le_trans hle hk
      · -- something was broadcast, so the forks are over
        obtain ⟨x, hx, -⟩ := List.mem_map.mp hmem
        have hheard : x ∈ Fanout.heard k t.published := by
          rw [← h.exact k]
          exact List.mem_append_left _ hx
        have hpublished := (List.mem_filter.mp hheard).1
        rw [h.published] at hpublished
        have hall : s.recorded = n := by
          by_contra hnot
          rw [if_neg hnot] at hpublished
          cases hpublished
        have hi := i.isLt
        omega
    · exact Or.inl rfl
  · rw [if_neg hl] at hnodes
    exact hbelow (by omega) hnodes

/-- A child that has nothing more to hear knows the table of the parent. -/
theorem complete {k : Fin (n + 1)} {p m : NginzProcess (n + 1)} (hp : s.proc k = some p)
    (hm : s.proc 0 = some m) (hl : s.listening k = true) (hall : s.recorded = n)
    (hquiet : s.pipe k = []) : p.nodes = m.nodes := by
  have hmaster := (h.knows 0 m hm).nodes
  have hnodes := (h.knows k p hp).nodes
  rw [if_pos rfl, hall] at hmaster
  by_cases hk : k = 0
  · rw [if_pos hk, hall] at hnodes
    rw [hnodes, hmaster]
  rw [if_neg hk, if_pos hl] at hnodes
  have hpending : t.pending k = [] := by
    rw [h.pipe] at hquiet
    exact List.map_eq_nil_iff.mp hquiet
  have htaken : t.taken k = (childSlots n).map (0, ·) := by
    rw [h.exact.quiet hpending, h.published, if_pos hall]
    unfold Fanout.heard
    apply List.filter_eq_self.mpr
    intro x hx
    obtain ⟨i, -, rfl⟩ := List.mem_map.mp hx
    simpa using Ne.symm hk
  rw [hnodes, hmaster, htaken]
  funext i
  have hi : i ≤ k ∨ i ∈ ((childSlots n).map ((0 : Fin (n + 1)), ·)).map Prod.snd := by
    by_cases hzero : i = 0
    · exact Or.inl (hzero ▸ Fin.zero_le k)
    · right
      obtain ⟨j, rfl⟩ := Fin.exists_succ_eq.mpr hzero
      unfold childSlots
      simp
  unfold pidsLearnt pidsBelow
  rw [if_pos hi, if_pos i.isLt]

end Tables

/-- In every run nothing fails; entries of tables are empty or the pids of the owners of
their slots; a process behind its fork callback points to its own slot, and only the first
one is the master; and a process that heard all broadcasts has the table of the master. -/
theorem process_tables_agree (L : TxtLib) (hroom : L.room nginzMaxBinaryMsgLen < 65536)
    (others : Bytes → AroopTxt → NginzProcess (n + 1) → Option (NginzProcess (n + 1)))
    (pid : Fin (n + 1) → ℤ) (hpid : ∀ i, 0 < pid i ∧ pid i < 2 ^ 31) (hn : n < 2 ^ 31)
    (as : List (ForkAction n)) :
    ∃ s, (ForkSystem.start L (pid 0)).run L others pid as = some s ∧
      (∀ k p, s.proc k = some p → p.pid = pid k ∧
        ∀ i, p.nodes i = 0 ∨ ∃ q, s.proc i = some q ∧ p.nodes i = q.pid) ∧
      (∀ k p, s.proc k = some p → k = 0 ∨ s.listening k = true →
        p.mynode = some k ∧ (isMaster p = true ↔ k = 0)) ∧
      ∀ k p m, s.proc k = some p → s.proc 0 = some m → s.listening k = true → s.forked = n →
        s.inFork = none → s.pipe k = [] → p.nodes = m.nodes := by
  have hstart : Tables pid (ForkSystem.start L (pid 0)) Fanout.init := Tables.start L hroom
  obtain ⟨s, t, hs, h⟩ := hstart.run L hroom others hpid hn as
  refine ⟨s, hs, fun k p hp => ⟨(h.knows k p hp).getpid, h.entry hp⟩, fun k p hp hk => ?_,
    fun k p m hp hm hl hforked hin hquiet => ?_⟩
  · have hmynode := (h.knows k p hp).mynode hk
    refine ⟨hmynode, ?_⟩
    unfold isMaster
    rw [hmynode, Option.any_some, decide_eq_true_eq]
    exact ⟨fun hv => Fin.ext hv, congrArg Fin.val⟩
  · apply h.complete hp hm hl ?_ hquiet
    unfold ForkSystem.recorded
    rw [if_pos hin, hforked]

theorem process_tables_agree_twoWorkers :
    ∃ s, (ForkSystem.start .cutting 4711 : ForkSystem 2).run .cutting (fun _ _ p => some p)
        ![4711, 4712, 4713]
        [.fork, .parentAfter, .fork, .childAfter 2, .parentAfter, .childAfter 1, .deliver 1,
          .deliver 1] = some s ∧
      ∀ p m, s.proc 1 = some p → s.proc 0 = some m → s.listening 1 = true → s.forked = 2 →
        s.inFork = none → s.pipe 1 = [] → p.nodes = m.nodes := by
  obtain ⟨s, hs, -, -, hagree⟩ := process_tables_agree .cutting (by decide) (fun _ _ p => some p)
    ![4711, 4712, 4713] (by decide) (by decide)
    [.fork, .parentAfter, .fork, .childAfter 2, .parentAfter, .childAfter 1, .deliver 1, .deliver 1]
  exact ⟨s, hs, fun p m => hagree 1 p m⟩

end Nginz
