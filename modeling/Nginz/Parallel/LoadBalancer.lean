import Mathlib.Data.Int.CardIntervalMod
import Nginz.Parallel.Nodes

/-! The load balancer, which goes round the workers in the table of the processes. -/
namespace Nginz
variable {n : ℕ}

/-- The slot that `pp_next_worker_nid` reads: the one behind a nid, where the last slot and
the master's are followed by the first worker's. A nid that is not in the table leads to -1. -/
def nextWorkerIndex (p : NginzProcess n) (nid : ℤ) : ℤ :=
  let nextIndex : ℤ :=
    match ppFindNode p nid with
    | some i => i.val + 1
    | none => -1
  let nextIndex := nextIndex.tmod n
  if nextIndex = 0 then nextIndex + 1 else nextIndex

/-- `none` when the slot is outside the table. -/
def ppNextWorkerNid (p : NginzProcess n) (nid : ℤ) : Option ℤ :=
  let nextIndex := nextWorkerIndex p nid
  if h : 0 ≤ nextIndex ∧ nextIndex.toNat < n then some (p.nodes ⟨nextIndex.toNat, h.2⟩) else none

structure LoadBalancer where
  nid : ℤ
  deriving DecidableEq, Repr

def loadBalancerSetup (p : NginzProcess n) : LoadBalancer := ⟨p.pid⟩

def loadBalancerNext (p : NginzProcess n) (lb : LoadBalancer) : Option (LoadBalancer × ℤ) :=
  (ppNextWorkerNid p lb.nid).map fun nid => (⟨nid⟩, nid)

/-- A number of calls of `load_balancer_next`: the slots they read and the nids they return. -/
def loadBalancerCalls (p : NginzProcess n) (lb : LoadBalancer) :
    ℕ → Option (LoadBalancer × List (ℤ × ℤ))
  | 0 => some (lb, [])
  | calls + 1 => do
    let (lb, picks) ← loadBalancerCalls p lb calls
    let (next, nid) ← loadBalancerNext p lb
    return (next, picks ++ [(nextWorkerIndex p lb.nid, nid)])

/-- The worker whose turn it is after a number of calls. -/
def workerSlot (n calls : ℕ) : Fin (n + 2) :=
  ⟨calls % (n + 1) + 1, Nat.succ_lt_succ (Nat.mod_lt _ n.succ_pos)⟩

section RoundRobin
variable {p : NginzProcess (n + 2)} (hdistinct : Function.Injective p.nodes)
include hdistinct

/-- Behind slot `i` comes the worker whose turn it is after `i` calls. -/
theorem nextWorkerIndex_slot (i : Fin (n + 2)) :
    nextWorkerIndex p (p.nodes i) = (workerSlot n i.val).val := by
  have hi : i.val < n + 2 := i.isLt
  unfold nextWorkerIndex workerSlot
  rw [ppFindNode_slot hdistinct i]
  dsimp only
  have hmod : ((i.val : ℤ) + 1).tmod ((n + 2 : ℕ) : ℤ) = ((i.val + 1) % (n + 2) : ℕ) := by
    rw [Int.tmod_eq_emod_of_nonneg (by omega)]
    push_cast
    rfl
  rw [hmod]
  by_cases hlast : i.val = n + 1
  · rw [hlast, Nat.mod_self, Nat.mod_self]
    rfl
  · rw [Nat.mod_eq_of_lt (a := i.val + 1) (by omega), Nat.mod_eq_of_lt (a := i.val) (by omega),
      if_neg (by omega)]

theorem loadBalancerNext_slot (i : Fin (n + 2)) :
    loadBalancerNext p ⟨p.nodes i⟩ =
      some (⟨p.nodes (workerSlot n i.val)⟩, p.nodes (workerSlot n i.val)) := by
  have hindex := nextWorkerIndex_slot hdistinct i
  have hin : 0 ≤ nextWorkerIndex p (p.nodes i) ∧
      (nextWorkerIndex p (p.nodes i)).toNat < n + 2 := by
    rw [hindex, Int.toNat_natCast]
    exact ⟨Int.natCast_nonneg _, (workerSlot n i.val).isLt⟩
  have hslot : (⟨(nextWorkerIndex p (p.nodes i)).toNat, hin.2⟩ : Fin (n + 2)) =
      workerSlot n i.val := by
    apply Fin.ext
    show (nextWorkerIndex p (p.nodes i)).toNat = _
    rw [hindex, Int.toNat_natCast]
  unfold loadBalancerNext ppNextWorkerNid
  dsimp only
  rw [dif_pos hin, hslot]
  rfl

/-- The balancer holds the nid of a slot that is the number of calls modulo the workers, so
each call returns the worker whose turn it is. -/
theorem loadBalancerCalls_eq (hmaster : p.pid = p.nodes 0) (calls : ℕ) :
    ∃ i : Fin (n + 2), i.val ≡ calls [MOD n + 1] ∧
      loadBalancerCalls p (loadBalancerSetup p) calls = some (⟨p.nodes i⟩,
        (List.range calls).map fun k =>
          (((workerSlot n k).val : ℤ), p.nodes (workerSlot n k))) := by
  induction calls with
  | zero => exact ⟨0, rfl, by rw [loadBalancerCalls, loadBalancerSetup, hmaster]; rfl⟩
  | succ calls ih =>
    obtain ⟨i, hi, hrun⟩ := ih
    have hsame : workerSlot n i.val = workerSlot n calls := by
      apply Fin.ext
      show i.val % (n + 1) + 1 = calls % (n + 1) + 1
      rw [hi]
    refine ⟨workerSlot n calls, ?_, ?_⟩
    · exact (Nat.mod_modEq calls (n + 1)).add_right 1
    · rw [loadBalancerCalls, hrun]
      show (loadBalancerNext p ⟨p.nodes i⟩).bind _ = _
      rw [loadBalancerNext_slot hdistinct i, hsame, List.range_succ, List.map_append]
      show some (_, _ ++ [(nextWorkerIndex p (p.nodes i), _)]) = _
      rw [nextWorkerIndex_slot hdistinct i, hsame]
      rfl

/-- How often a worker's turn comes. -/
theorem turns_eq (calls : ℕ) (i : Fin (n + 1)) :
    ((List.range calls).map fun k => p.nodes (workerSlot n k)).count (p.nodes i.succ) =
      calls / (n + 1) + if i.val < calls % (n + 1) then 1 else 0 := by
  have hturn : ∀ k ∈ List.range calls,
      ((· == p.nodes i.succ) ∘ fun k => p.nodes (workerSlot n k)) k = true ↔
        decide (k ≡ i.val [MOD n + 1]) = true := by
    intro k _
    rw [Function.comp_apply, beq_iff_eq, decide_eq_true_eq, hdistinct.eq_iff, Fin.ext_iff]
    show k % (n + 1) + 1 = i.val + 1 ↔ k % (n + 1) = i.val % (n + 1)
    rw [Nat.mod_eq_of_lt i.isLt]
    omega
  have hcount := Nat.count_modEq_card calls n.succ_pos i.val
  rw [Nat.mod_eq_of_lt i.isLt] at hcount
  rw [List.count, List.countP_map, List.countP_congr hturn]
  exact hcount

end RoundRobin

/-- The calls of a balancer that starts at the master read the workers' slots one after the
other and round again; they never return the master, and any two workers equally often but for
one time. -/
theorem load_balancing_fair {p : NginzProcess (n + 2)} (hdistinct : Function.Injective p.nodes)
    (hmaster : p.pid = p.nodes 0) (calls : ℕ) :
    ∃ lb, ∃ picks : List (ℤ × ℤ),
      loadBalancerCalls p (loadBalancerSetup p) calls = some (lb, picks) ∧
      picks.length = calls ∧
      (∀ k < calls, picks[k]? = some (((k % (n + 1) + 1 : ℕ) : ℤ), p.nodes (workerSlot n k))) ∧
      (∀ pick ∈ picks, 1 ≤ pick.1 ∧ pick.1 ≤ n + 1 ∧ pick.2 ≠ p.pid) ∧
      ∀ i j : Fin (n + 1), (picks.map Prod.snd).count (p.nodes i.succ) ≤
        (picks.map Prod.snd).count (p.nodes j.succ) + 1 := by
  obtain ⟨i, -, hrun⟩ := loadBalancerCalls_eq hdistinct hmaster calls
  refine ⟨_, _, hrun, by simp, fun k hk => ?_, fun pick hpick => ?_, fun i j => ?_⟩
  · rw [List.getElem?_map, List.getElem?_range hk]
    rfl
  · obtain ⟨k, -, rfl⟩ := List.mem_map.mp hpick
    have hlt := Nat.mod_lt k n.succ_pos
    have hslot : (workerSlot n k).val = k % (n + 1) + 1 := rfl
    refine ⟨by dsimp only; omega, by dsimp only; omega, fun hsame => ?_⟩
    have hzero := congrArg Fin.val (hdistinct (hsame.trans hmaster))
    rw [hslot, Fin.val_zero] at hzero
    exact absurd hzero (Nat.succ_ne_zero _)
  · rw [List.map_map]
    show ((List.range calls).map fun k => p.nodes (workerSlot n k)).count _ ≤
      ((List.range calls).map fun k => p.nodes (workerSlot n k)).count _ + 1
    rw [turns_eq hdistinct, turns_eq hdistinct]
    split <;> split <;> omega

/-- Two workers take turns. -/
theorem load_balancing_fair_twoWorkers :
    let master : NginzProcess 3 := ⟨4711, ![4711, 4712, 4713], some 0, .empty⟩
    ∃ lb, ∃ picks : List (ℤ × ℤ),
      loadBalancerCalls master (loadBalancerSetup master) 5 = some (lb, picks) ∧
      picks[4]? = some (1, 4712) ∧
      (picks.map Prod.snd).count 4712 ≤ (picks.map Prod.snd).count 4713 + 1 := by
  intro master
  obtain ⟨lb, picks, hrun, -, hturn, -, hfair⟩ :=
    load_balancing_fair (p := master) (by decide) rfl 5
  exact ⟨lb, picks, hrun, hturn 4 (by decide), hfair 0 1⟩

end Nginz
