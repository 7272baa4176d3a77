import Nginz.Parallel.Pipeline

/-! The table of the processes that each of them keeps, and sending over the pipes that
all of them share. -/
namespace Nginz
variable {n : ℕ}

/-- A process: the pids of its table of `nodes`, the slot `mynode` points to, and its
receive buffer. -/
structure NginzProcess (n : ℕ) where
  pid : ℤ
  nodes : Fin n → ℤ
  mynode : Option (Fin n)
  recvBuffer : AroopTxt

/-- `is_master`. -/
def isMaster (p : NginzProcess n) : Bool := p.mynode.any fun i => i.val = 0

/-- `pp_find_node`. -/
def ppFindNode (p : NginzProcess n) (nid : ℤ) : Option (Fin n) :=
  (List.finRange n).find? fun i => p.nodes i = nid

/-- `pp_next_nid`: the pid in the slot behind the own one, and -1 behind the last slot. -/
def ppNextNid (p : NginzProcess n) : ℤ :=
  match p.mynode with
  | none => -1
  | some i => if h : i.val + 1 < n then p.nodes ⟨i.val + 1, h⟩ else -1

/-- The packets `pp_send` puts into the pipes, each with its slot; `none` when the
assertion fails. -/
def ppSend (p : NginzProcess n) (dnid : ℤ) (pkt : Bytes) : Option (List (Fin n × Bytes)) :=
  if dnid = 0 then
    some (((List.finRange n).filter fun i => some i ≠ p.mynode).map fun i => (i, pkt))
  else (ppFindNode p dnid).map fun i => [(i, pkt)]

/-- The slots that `pp_send` writes to; `none` when the assertion fails. -/
def ppDestinations (p : NginzProcess n) (dnid : ℤ) : Option (List (Fin n)) :=
  if dnid = 0 then some ((List.finRange n).filter fun i => some i ≠ p.mynode)
  else (ppFindNode p dnid).map fun i => [i]

/-- The calls of `pp_simple_sendmsg`, of which those succeed that `sends` tells: the return code
and the packets that went out. The first failure is the last call. -/
def ppSendEach (sends : Fin n → Bool) (pkt : Bytes) : List (Fin n) → ℤ × List (Fin n × Bytes)
  | [] => (0, [])
  | i :: is =>
    if sends i then
      let r := ppSendEach sends pkt is
      (r.1, (i, pkt) :: r.2)
    else (-1, [])

/-- `pp_send` with the outcome of each `sendmsg`. -/
def ppSendOutcome (sends : Fin n → Bool) (p : NginzProcess n) (dnid : ℤ) (pkt : Bytes) :
    Option (ℤ × List (Fin n × Bytes)) :=
  (ppDestinations p dnid).map (ppSendEach sends pkt)

/-- Every destination gets its packet exactly when no `sendmsg` fails. -/
theorem ppSendEach_iff (sends : Fin n → Bool) (pkt : Bytes) (is : List (Fin n)) :
    (ppSendEach sends pkt is).2 = is.map (fun i => (i, pkt)) ↔ ∀ i ∈ is, sends i = true := by
  induction is with
  | nil => simp [ppSendEach]
  | cons i is ih =>
    rw [ppSendEach, List.forall_mem_cons, List.map_cons]
    by_cases hi : sends i = true
    · rw [if_pos hi, ← ih]
      simp [hi]
    · rw [if_neg hi]
      simp [hi]

/-- Without failures `pp_send` is what all others take it for. -/
theorem ppSendOutcome_eq (p : NginzProcess n) (dnid : ℤ) (pkt : Bytes) :
    ppSendOutcome (fun _ => true) p dnid pkt = (ppSend p dnid pkt).map fun sent => (0, sent) := by
  have heach (is : List (Fin n)) :
      ppSendEach (fun _ => true) pkt is = (0, is.map fun i => (i, pkt)) := by
    induction is with
    | nil => rfl
    | cons i is ih => rw [ppSendEach, if_pos rfl, ih, List.map_cons]
  unfold ppSendOutcome ppDestinations ppSend
  split
  · rw [Option.map_some, Option.map_some, heach]
  · cases ppFindNode p dnid with
    | none => rfl
    | some i => rfl

/-- What comes into the pipe of a slot. -/
def sentTo (i : Fin n) (sent : List (Fin n × Bytes)) : List Bytes :=
  (sent.filter fun e => e.1 = i).map Prod.snd

theorem sentTo_append (i : Fin n) (xs ys : List (Fin n × Bytes)) :
    sentTo i (xs ++ ys) = sentTo i xs ++ sentTo i ys := by
  unfold sentTo
  rw [List.filter_append, List.map_append]

/-- A process that everybody else's table has in its slot is found there. -/
theorem ppFindNode_slot {p : NginzProcess n} (hdistinct : Function.Injective p.nodes) (i : Fin n) :
    ppFindNode p (p.nodes i) = some i := by
  have hfound : ∃ j, ppFindNode p (p.nodes i) = some j := by
    unfold ppFindNode
    rw [← Option.isSome_iff_exists, List.find?_isSome]
    exact ⟨i, List.mem_finRange i, by simp⟩
  obtain ⟨j, hj⟩ := hfound
  have hsame := List.find?_some hj
  rw [hj, hdistinct (of_decide_eq_true hsame)]

/-- A broadcast goes once to every slot but the own one. -/
theorem ppSend_broadcast (p : NginzProcess n) (pkt : Bytes) :
    ∃ sent, ppSend p 0 pkt = some sent ∧
      ∀ i, sentTo i sent = if some i = p.mynode then [] else [pkt] := by
  refine ⟨_, if_pos rfl, fun i => ?_⟩
  unfold sentTo
  rw [List.filter_map, List.filter_filter, List.map_map]
  have hone : (List.finRange n).filter (fun j => decide (j = i)) = [i] := by
    have hcount : (List.finRange n).count i = 1 :=
      List.count_eq_one_of_mem (List.nodup_finRange n) (List.mem_finRange i)
    rw [List.filter_eq, hcount]
    rfl
  by_cases hi : some i = p.mynode
  · rw [if_pos hi]
    have hnone :
        (List.finRange n).filter (fun j => (decide (j = i)) && decide (some j ≠ p.mynode)) =
        [] := by
      rw [List.filter_eq_nil_iff]
      intro j _ hj
      simp only [Bool.and_eq_true, decide_eq_true_eq] at hj
      rw [hj.1] at hj
      exact hj.2 hi
    simpa using hnone
  · rw [if_neg hi]
    have hsame :
        (List.finRange n).filter (fun j => (decide (j = i)) && decide (some j ≠ p.mynode)) =
        [i] := by
      rw [← hone]
      apply List.filter_congr
      intro j _
      by_cases hj : j = i
      · subst hj
        simp [hi]
      · simp [hj]
    simp only [Function.comp_def]
    rw [hsame]
    rfl

end Nginz
