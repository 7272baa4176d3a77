import Nginz.EventLoop.Partitioned

/-! A step of the partitioned event loop: the partitions are polled one after the other, and
the callbacks of one may ask for descriptors of all of them. -/
namespace Nginz
open Compaction KeyedEntries

variable {κ δ : Type*}

def FdRequest.fd : FdRequest κ δ → ℤ
  | .register fd _ _ _ => fd
  | .unregister fd => fd

/-! ### Requests on one table -/

namespace EventLoopData

def request (pt : EventLoopData κ δ) : FdRequest κ δ → EventLoopData κ δ
  | .register fd onEvent eventData requestedEvents => pt.append fd onEvent eventData requestedEvents
  | .unregister fd => pt.unregister fd

/-- A registration asks for something and is the only live one of its descriptor. -/
def Permits (pt : EventLoopData κ δ) : FdRequest κ δ → Prop
  | .register fd _ _ requestedEvents => requestedEvents ≠ 0 ∧ fd ∉ pt.live.map Prod.fst
  | .unregister _ => True

/-- A descriptor with events in a slot that is live. -/
def Ready (pt : EventLoopData κ δ) (i : ℕ) : Prop :=
  (pt.fds i).events ≠ 0 ∧ (pt.fds i).revents ≠ 0

instance (pt : EventLoopData κ δ) (i : ℕ) : Decidable (pt.Ready i) :=
  inferInstanceAs (Decidable (_ ∧ _))

/-- The calls that are due when a table was polled, in its order. -/
def readyOf (pt : EventLoopData κ δ) : List (Dispatch κ δ) :=
  ((List.range pt.nfds).filter pt.Ready).map pt.dispatch

section Requests
variable {pt : EventLoopData κ δ} {i j : ℕ} {fd : ℤ} {r : Registration κ δ}

/-- The live entries of different descriptors are in different slots. -/
theorem slot_unique (hnodup : (pt.live.map Prod.fst).Nodup) (hi : i < pt.nfds) (hj : j < pt.nfds)
    {r' : Registration κ δ} (hentry : pt.entry i = some (fd, r))
    (hentry' : pt.entry j = some (fd, r')) : i = j := by
  by_contra hij
  have hclear := entries_clear pt.entry hi hentry
  have hother : (fd, r') ∈ entries (Function.update pt.entry i none) pt.nfds :=
    mem_entries.mpr ⟨j, hj, (Function.update_of_ne (Ne.symm hij) ..).trans hentry'⟩
  have hone := ((hclear.map Prod.fst).nodup_iff.mpr hnodup)
  rw [List.map_cons, List.nodup_cons] at hone
  exact hone.1 (List.mem_map.mpr ⟨_, hother, rfl⟩)

theorem request_nfds_le (a : FdRequest κ δ) : pt.nfds ≤ (pt.request a).nfds := by
  cases a with
  | register => exact Nat.le_succ _
  | unregister fd =>
    unfold request unregister
    dsimp only
    split
    · exact le_rfl
    · exact le_rfl

/-- A slot that is dead stays dead. -/
theorem request_dead (hi : i < pt.nfds) (hdead : pt.entry i = none) (a : FdRequest κ δ) :
    (pt.request a).entry i = none := by
  rw [entry_none] at hdead ⊢
  cases a with
  | register =>
    unfold request append
    dsimp only
    rw [Function.update_of_ne (by omega)]
    exact hdead
  | unregister fd =>
    unfold request unregister
    dsimp only
    split
    · exact hdead
    · rename_i k _
      dsimp only
      by_cases hik : i = k
      · rw [hik, Function.update_self]
      · rw [Function.update_of_ne hik]
        exact hdead

theorem requests_dead (hi : i < pt.nfds) (hdead : pt.entry i = none)
    (asked : List (FdRequest κ δ)) : (asked.foldl request pt).entry i = none :=
  (Transition.run_invariant (P := fun pt : EventLoopData κ δ => i < pt.nfds ∧ pt.entry i = none)
    (fun _ a h => ⟨h.1.trans_le (request_nfds_le a), request_dead h.1 h.2 a⟩) ⟨hi, hdead⟩ asked).2

/-- A request for another descriptor leaves a live slot as it is. -/
theorem request_other (hi : i < pt.nfds) (hentry : pt.entry i = some (fd, r)) {a : FdRequest κ δ}
    (ha : a.fd ≠ fd) : (pt.request a).entry i = some (fd, r) := by
  rw [← hentry]
  cases a with
  | register fd' onEvent eventData requestedEvents =>
    unfold request append
    dsimp only
    rw [entry_set, Function.update_of_ne (by omega)]
  | unregister fd' =>
    unfold request unregister
    dsimp only
    split
    · rfl
    · rename_i k hfind
      have hk := List.find?_some hfind
      simp only [ne_eq, decide_eq_true_eq] at hk
      have hik : i ≠ k := by
        rintro rfl
        exact ha (hk.1.symm.trans (entry_fd hentry).1)
      have hset := entry_set pt k { pt.fds k with events := 0 } (pt.cbs k) pt.nfds
      rw [Function.update_eq_self] at hset
      exact (congrFun hset i).trans (Function.update_of_ne hik ..)

/-- The first request for the descriptor of a live slot is to unregister it. -/
theorem request_same (hnodup : (pt.live.map Prod.fst).Nodup) (hi : i < pt.nfds)
    (hentry : pt.entry i = some (fd, r)) {a : FdRequest κ δ} (ha : a.fd = fd)
    (hpermits : pt.Permits a) : (pt.request a).entry i = none := by
  have hmem : (fd, r) ∈ pt.live := mem_entries.mpr ⟨i, hi, hentry⟩
  cases a with
  | register fd' onEvent eventData requestedEvents =>
    obtain rfl : fd' = fd := ha
    exact absurd (List.mem_map_of_mem hmem) hpermits.2
  | unregister fd' =>
    obtain rfl : fd' = fd := ha
    have hlive := entry_fd hentry
    unfold request unregister
    dsimp only
    split
    · rename_i hnone
      have hno := List.find?_eq_none.mp hnone i (List.mem_range.mpr hi)
      simp [hlive.1, hlive.2.1, hlive.2.2] at hno
    · rename_i k hfind
      have hk := List.find?_some hfind
      simp only [ne_eq, decide_eq_true_eq] at hk
      have hkn : k < pt.nfds := List.mem_range.mp (List.mem_of_find?_eq_some hfind)
      have hentry' : pt.entry k =
          some (fd', ⟨(pt.cbs k).onEvent, (pt.cbs k).eventData, (pt.fds k).events⟩) := by
        unfold entry
        rw [if_neg hk.2, hk.1]
      obtain rfl := slot_unique hnodup hi hkn hentry hentry'
      rw [entry_none]
      dsimp only
      rw [Function.update_self]

theorem request_represents {m : Registry κ δ} (h : Represents pt.live m) {a : FdRequest κ δ}
    (ha : pt.Permits a) : ∃ m' : Registry κ δ, Represents (pt.request a).live m' := by
  cases a with
  | register fd onEvent eventData requestedEvents =>
    exact ⟨_, represents_append h ((h.absent_iff fd).mpr ha.2) onEvent eventData ha.1⟩
  | unregister fd => exact ⟨_, represents_unregister h fd⟩

/-- A live slot is as it was exactly as long as nobody asked for its descriptor. -/
theorem requests_entry {m : Registry κ δ} (h : Represents pt.live m) (hi : i < pt.nfds)
    (hentry : pt.entry i = some (fd, r)) {asked : List (FdRequest κ δ)}
    (hpermits : Transition.Along request Permits pt asked) :
    (asked.foldl request pt).entry i =
      if fd ∈ asked.map FdRequest.fd then none else some (fd, r) := by
  induction asked generalizing pt m with
  | nil => exact hentry
  | cons a asked ih =>
    have hin := hi.trans_le (request_nfds_le a)
    by_cases ha : a.fd = fd
    · rw [if_pos (by simp [ha])]
      exact requests_dead hin (request_same h.nodup hi hentry ha hpermits.1) asked
    · obtain ⟨m', hm'⟩ := request_represents h hpermits.1
      have hrest := ih hm' hin (request_other hi hentry ha) hpermits.2
      rw [List.foldl_cons, hrest, List.map_cons]
      simp [Ne.symm ha]

end Requests
end EventLoopData

/-! ### The step -/

/-- What happens around a step: what a callback asks for depends on all the calls of the step so
far, its own included, and so does what a poll of a partition returns, the events of each slot
or a failure. -/
structure LoopWorld (κ δ : Type*) where
  react : List (Dispatch κ δ) → List (FdRequest κ δ)
  poll : List (Dispatch κ δ) → Fin pollPartition → Option (ℕ → ℤ)

namespace EventLoopData

/-- What `poll` writes. -/
def polled (pt : EventLoopData κ δ) (revents : ℕ → ℤ) : EventLoopData κ δ :=
  { pt with
    fds := fun i => if i < pt.nfds then { pt.fds i with revents := revents i } else pt.fds i }

/-- What `poll` returns then. -/
def readyCount (pt : EventLoopData κ δ) : ℕ :=
  (List.range pt.nfds).countP fun i => (pt.fds i).revents ≠ 0

end EventLoopData

namespace PartitionedLoop

def request (s : PartitionedLoop κ δ) : FdRequest κ δ → PartitionedLoop κ δ
  | .register fd onEvent eventData requestedEvents =>
    s.eventLoopRegisterFd fd onEvent eventData requestedEvents
  | .unregister fd => s.eventLoopUnregisterFd fd

/-- The loop of `event_loop_step_helper` over partition `p` from `i` on. -/
def stepFrom (react : List (Dispatch κ δ) → List (FdRequest κ δ)) (p : Fin pollPartition)
    (i ecount : ℕ) (s : PartitionedLoop κ δ) (calls : List (Dispatch κ δ)) :
    PartitionedLoop κ δ × List (Dispatch κ δ) :=
  if i < (s.edata p).nfds ∧ ecount ≠ 0 then
    if ((s.edata p).fds i).events = 0 ∨ ((s.edata p).fds i).revents = 0 then
      stepFrom react p (i + 1) ecount s calls
    else
      let calls := calls ++ [(s.edata p).dispatch i]
      stepFrom react p (i + 1) (ecount - 1) ((react calls).foldl request s) calls
  else (s, calls)
termination_by (ecount, (s.edata p).nfds - i)

/-- The turn of partition `p` in `event_loop_step`; a process of which an assertion failed makes
no further turn. -/
def stepPart (W : LoopWorld κ δ) (sc : PartitionedLoop κ δ × List (Dispatch κ δ))
    (p : Fin pollPartition) : PartitionedLoop κ δ × List (Dispatch κ δ) :=
  let s := sc.1
  if s.crashed ∨ (s.edata p).nfds = 0 then sc
  else
    match W.poll sc.2 p with
    | none => ({ s with crashed := true }, sc.2)
    | some revents =>
      let s := s.setPart p fun pt => pt.polled revents
      let ecount := (s.edata p).readyCount
      if ecount = 0 then (s, sc.2)
      else
        let r := stepFrom W.react p 0 ecount s sc.2
        (r.1.eventLoopBatchUnregister p, r.2)

/-- `event_loop_step`: the loop behind it and the calls it made. -/
def eventLoopStep (W : LoopWorld κ δ) (s : PartitionedLoop κ δ) :
    PartitionedLoop κ δ × List (Dispatch κ δ) :=
  if s.eventLoopFdCount = 0 then (s, [])
  else
    let r := (List.finRange pollPartition).foldl (stepPart W) (s, [])
    (r.1.fixGrandTotal, r.2)

/-! ### The partition as an event loop of its own -/

/-- What a callback asks for in partition `p`, behind the calls of the partitions before. -/
def within (react : List (Dispatch κ δ) → List (FdRequest κ δ)) (p : Fin pollPartition)
    (before calls : List (Dispatch κ δ)) : List (FdRequest κ δ) :=
  (react (before ++ calls)).filter fun a => partitionOf a.fd = p

variable {react : List (Dispatch κ δ) → List (FdRequest κ δ)} {p : Fin pollPartition}
  {s : PartitionedLoop κ δ} {v : EventLoop κ δ} {before : List (Dispatch κ δ)}

theorem request_edata (s : PartitionedLoop κ δ) (p : Fin pollPartition) (a : FdRequest κ δ) :
    (s.request a).edata p =
      if partitionOf a.fd = p then (s.edata p).request a else s.edata p := by
  have hset (fd : ℤ) (f : EventLoopData κ δ → EventLoopData κ δ) :
      Function.update s.edata (partitionOf fd) (f (s.edata (partitionOf fd))) p =
        if partitionOf fd = p then f (s.edata p) else s.edata p := by
    by_cases hp : partitionOf fd = p
    · rw [if_pos hp, ← hp, Function.update_self]
    · rw [if_neg hp, Function.update_of_ne (Ne.symm hp)]
  cases a with
  | register fd onEvent eventData requestedEvents =>
    exact hset fd fun pt => pt.append fd onEvent eventData requestedEvents
  | unregister fd => exact hset fd fun pt => pt.unregister fd

theorem requests_edata (s : PartitionedLoop κ δ) (p : Fin pollPartition)
    (asked : List (FdRequest κ δ)) : (asked.foldl request s).edata p =
      (asked.filter fun a => partitionOf a.fd = p).foldl EventLoopData.request (s.edata p) := by
  induction asked generalizing s with
  | nil => rfl
  | cons a asked ih =>
    rw [List.foldl_cons, ih, request_edata]
    by_cases hp : partitionOf a.fd = p
    · rw [if_pos hp, List.filter_cons_of_pos (by simpa using hp), List.foldl_cons]
    · rw [if_neg hp, List.filter_cons_of_neg (by simpa using hp)]

theorem plain_requests_table (v : EventLoop κ δ) (asked : List (FdRequest κ δ)) :
    (asked.foldl EventLoop.request v).table = asked.foldl EventLoopData.request v.table := by
  induction asked generalizing v with
  | nil => rfl
  | cons a asked ih =>
    rw [List.foldl_cons, List.foldl_cons, ih]
    cases a with
    | register => rfl
    | unregister => rfl

/-- The pass over a partition is a pass of an event loop that has its table. -/
theorem stepFrom_view (react : List (Dispatch κ δ) → List (FdRequest κ δ))
    (before : List (Dispatch κ δ)) (i ecount : ℕ) (calls : List (Dispatch κ δ))
    (hv : v.table = s.edata p) :
    let r := stepFrom react p i ecount s (before ++ calls)
    let q := EventLoop.stepFrom (within react p before) i ecount v calls
    q.1.table = r.1.edata p ∧ r.2 = before ++ q.2 := by
  fun_induction EventLoop.stepFrom (within react p before) i ecount v calls generalizing s with
  | case1 i ecount v calls hloop hskip ih =>
    rw [stepFrom, ← hv, if_pos hloop, if_pos hskip]
    exact ih hv
  | case2 i ecount v calls hloop hserve q =>
    rename_i ih
    rw [stepFrom, ← hv, if_pos hloop, if_neg hserve, List.append_assoc]
    apply ih
    rw [requests_edata, ← hv]
    exact plain_requests_table v _
  | case3 i ecount v calls hstop =>
    rw [stepFrom, ← hv, if_neg hstop]
    exact ⟨hv, rfl⟩

end PartitionedLoop

/-! ### Who is served -/

/-- Each one that is ready is called, unless a callback asked for its descriptor meanwhile. -/
def served (react : List (Dispatch κ δ) → List (FdRequest κ δ))
    (before ready : List (Dispatch κ δ)) : List (Dispatch κ δ) :=
  ready.foldl (fun calls d =>
    if d.fd ∈ (asksOf react before calls).map FdRequest.fd then calls else calls ++ [d]) []

section Served
variable {react : List (Dispatch κ δ) → List (FdRequest κ δ)}
  {before calls ready : List (Dispatch κ δ)} {d : Dispatch κ δ}

theorem asksOf_front {calls' : List (Dispatch κ δ)} (h : calls <+: calls') :
    asksOf react before calls <+: asksOf react before calls' := by
  induction calls generalizing before calls' with
  | nil => exact List.nil_prefix
  | cons c calls ih =>
    obtain ⟨rest, rfl⟩ := h
    rw [List.cons_append, asksOf, asksOf]
    exact (List.prefix_append_right_inj _).mpr (ih (List.prefix_append _ _))

theorem asksOf_within (p : Fin pollPartition) (c0 : List (Dispatch κ δ)) :
    asksOf (PartitionedLoop.within react p before) c0 calls =
      (asksOf react (before ++ c0) calls).filter fun a => partitionOf a.fd = p := by
  induction calls generalizing c0 with
  | nil => rfl
  | cons c calls ih =>
    rw [asksOf, asksOf, ih, List.filter_append, List.append_assoc]
    rfl

theorem served_concat : served react before (ready ++ [d]) =
    if d.fd ∈ (asksOf react before (served react before ready)).map FdRequest.fd
    then served react before ready else served react before ready ++ [d] := by
  unfold served
  rw [List.foldl_append]
  rfl

theorem served_grow : served react before ready <+: served react before (ready ++ [d]) := by
  rw [served_concat]
  split
  · exact List.prefix_rfl
  · exact List.prefix_append _ _

/-- In a partition, only the requests for its descriptors count. -/
theorem served_within {p : Fin pollPartition} (hready : ∀ d ∈ ready, partitionOf d.fd = p) :
    served (PartitionedLoop.within react p before) [] ready = served react before ready := by
  induction ready using List.reverseRecOn with
  | nil => rfl
  | append_singleton ready d ih =>
    have hd : partitionOf d.fd = p := hready d (by simp)
    have hsame : d.fd ∈ ((asksOf react before (served react before ready)).filter fun a =>
          partitionOf a.fd = p).map FdRequest.fd ↔
        d.fd ∈ (asksOf react before (served react before ready)).map FdRequest.fd := by
      simp only [List.mem_map, List.mem_filter, decide_eq_true_eq]
      constructor
      · rintro ⟨a, ⟨ha, -⟩, hfd⟩
        exact ⟨a, ha, hfd⟩
      · rintro ⟨a, ha, hfd⟩
        exact ⟨a, ⟨ha, hfd ▸ hd⟩, hfd⟩
    rw [served_concat, served_concat, ih fun d hd => hready d (List.mem_append_left _ hd),
      asksOf_within, List.append_nil]
    simp only [hsame]

end Served

/-! ### A pass over a table -/

namespace EventLoop
variable (react : List (Dispatch κ δ) → List (FdRequest κ δ)) (v : EventLoop κ δ)

/-- Behind the turns of the first slots, the table is what the requests made of it. -/
theorem afterTurns_table (n : ℕ) : (afterTurns react v n).1.table =
    (asksOf react [] (afterTurns react v n).2).foldl EventLoopData.request v.table := by
  rw [← PartitionedLoop.plain_requests_table, ← afterTurns_asks]

/-- The turns serve the slots that are ready, except those whose descriptor was asked for. -/
theorem afterTurns_served {m : Registry κ δ} (h : Represents v.table.live m) {n : ℕ}
    (hn : n ≤ v.table.nfds) (hpermits : Transition.Along EventLoopData.request EventLoopData.Permits
      v.table (asksOf react [] (served react []
        (((List.range n).filter v.table.Ready).map v.table.dispatch)))) :
    (afterTurns react v n).2 =
      served react [] (((List.range n).filter v.table.Ready).map v.table.dispatch) := by
  induction n with
  | zero => rfl
  | succ n ih =>
    rw [List.range_succ, List.filter_append, List.map_append] at hpermits ⊢
    have hgrow : served react [] (((List.range n).filter v.table.Ready).map v.table.dispatch) <+:
        served react [] (((List.range n).filter v.table.Ready).map v.table.dispatch ++
          ([n].filter v.table.Ready).map v.table.dispatch) := by
      by_cases hready : v.table.Ready n
      · rw [List.filter_cons_of_pos (l := []) (by simpa using hready)]
        exact served_grow
      · rw [List.filter_cons_of_neg (l := []) (by simpa using hready)]
        simp
    have hcalls := ih (by omega) (Transition.along_prefix (asksOf_front hgrow) hpermits)
    have hbefore := Transition.along_prefix (asksOf_front hgrow) hpermits
    rw [← hcalls] at hbefore
    by_cases hready : v.table.Ready n
    · obtain ⟨⟨fd, r⟩, hentry⟩ := Option.ne_none_iff_exists'.mp
        (mt EventLoopData.entry_none.mp hready.1)
      have hfd : (v.table.dispatch n).fd = fd := (EventLoopData.entry_fd hentry).1
      -- the slot is as it was exactly when nobody asked for its descriptor
      have hslot := EventLoopData.requests_entry h (by omega) hentry hbefore
      rw [← afterTurns_table] at hslot
      have hone : [n].filter v.table.Ready = [n] := List.filter_cons_of_pos (by simpa using hready)
      rw [hone, List.map_singleton, served_concat, ← hcalls, hfd]
      by_cases hasked : fd ∈ (asksOf react [] (afterTurns react v n).2).map FdRequest.fd
      · rw [if_pos hasked] at hslot ⊢
        rw [afterTurns_skip react v]
        rintro ⟨-, hsome, hsame⟩
        rw [← hsame, hslot] at hsome
        exact absurd hsome (by simp)
      · rw [if_neg hasked] at hslot ⊢
        rw [afterTurns_due react v ⟨hready.2, by rw [hentry]; rfl, hslot.trans hentry.symm⟩]
        rfl
    · have hnone : [n].filter v.table.Ready = [] := List.filter_cons_of_neg (by simpa using hready)
      have hskip : ¬ Due v (afterTurns react v n).1 n := by
        rintro ⟨hevents, hsome, -⟩
        refine hready ⟨fun hdead => ?_, hevents⟩
        rw [EventLoopData.entry_none.mpr hdead] at hsome
        exact absurd hsome (by simp)
      rw [hnone, List.map_nil, List.append_nil, afterTurns_skip react v hskip, hcalls]

end EventLoop

/-! ### The turn of a partition -/

/-- What a request does to the map of registrations. -/
def Registry.request (m : Registry κ δ) : FdRequest κ δ → Registry κ δ
  | .register fd onEvent eventData requestedEvents =>
    Function.update m fd (some ⟨onEvent, eventData, requestedEvents⟩)
  | .unregister fd => Function.update m fd none

namespace EventLoopData

theorem polled_entry (pt : EventLoopData κ δ) (revents : ℕ → ℤ) :
    (pt.polled revents).entry = pt.entry := by
  funext i
  unfold polled entry
  dsimp only
  split_ifs <;> rfl

theorem polled_live (pt : EventLoopData κ δ) (revents : ℕ → ℤ) :
    (pt.polled revents).live = pt.live := by
  unfold live
  rw [polled_entry]
  rfl

/-- What is ready stands for registrations, one for each descriptor. -/
theorem readyOf_registered {pt : EventLoopData κ δ} {m : Registry κ δ} (h : Represents pt.live m) :
    (pt.readyOf.map Dispatch.fd).Nodup ∧ ∀ d ∈ pt.readyOf, d.returnedEvents ≠ 0 ∧
      ∃ events, m d.fd = some ⟨d.onEvent, d.eventData, events⟩ := by
  have hentry {i : ℕ} (hready : pt.Ready i) : pt.entry i =
      some ((pt.fds i).fd, ⟨(pt.cbs i).onEvent, (pt.cbs i).eventData, (pt.fds i).events⟩) :=
    if_neg hready.1
  unfold readyOf
  constructor
  · rw [List.map_map]
    refine List.Nodup.map_on (fun i hi j hj hfd => ?_) (List.nodup_range.filter _)
    rw [List.mem_filter, List.mem_range, decide_eq_true_eq] at hi hj
    have hfd' : (pt.fds i).fd = (pt.fds j).fd := hfd
    exact slot_unique h.nodup hi.1 hj.1 (hfd' ▸ hentry hi.2) (hentry hj.2)
  · intro d hd
    obtain ⟨i, hi, rfl⟩ := List.mem_map.mp hd
    rw [List.mem_filter, List.mem_range, decide_eq_true_eq] at hi
    exact ⟨hi.2.2, _, (h.lookup _ _).mpr (mem_entries.mpr ⟨i, hi.1, hentry hi.2⟩)⟩

end EventLoopData

namespace PartitionedLoop

/-- A registration asks for something, is the only live one of its descriptor and fits into its
partition, and the count leaves room for it; no descriptor is negative. -/
def Permits (s : PartitionedLoop κ δ) : FdRequest κ δ → Prop
  | .register fd _ _ requestedEvents =>
    0 ≤ fd ∧ requestedEvents ≠ 0 ∧ fd ∉ (s.edata (partitionOf fd)).live.map Prod.fst ∧
      (s.edata (partitionOf fd)).nfds < maxPollFdPerPartition ∧ s.eventLoopFdCount < maxPollFd
  | .unregister fd => 0 ≤ fd

instance (s : PartitionedLoop κ δ) (a : FdRequest κ δ) : Decidable (s.Permits a) := by
  cases a with
  | register => exact inferInstanceAs (Decidable (_ ∧ _))
  | unregister fd => exact inferInstanceAs (Decidable (0 ≤ fd))

/-- The poll of a turn does not fail, and what the callbacks ask for in the turn is permitted. -/
def TurnPermits (W : LoopWorld κ δ) (sc : PartitionedLoop κ δ × List (Dispatch κ δ))
    (p : Fin pollPartition) : Prop :=
  ((sc.1.edata p).nfds ≠ 0 → W.poll sc.2 p ≠ none) ∧ ∀ revents, W.poll sc.2 p = some revents →
    let s := sc.1.setPart p fun pt => pt.polled revents
    Transition.Along request Permits s
      (asksOf W.react sc.2 (served W.react sc.2 (s.edata p).readyOf))

section Turn
variable {W : LoopWorld κ δ} {s : PartitionedLoop κ δ} {m : Registry κ δ} {p : Fin pollPartition}
  {calls : List (Dispatch κ δ)}

/-- The callbacks make the state out of the one that was polled. -/
theorem stepFrom_asks (react : List (Dispatch κ δ) → List (FdRequest κ δ))
    (calls : List (Dispatch κ δ)) (i ecount : ℕ) :
    ∃ new, (stepFrom react p i ecount s calls).2 = calls ++ new ∧
      (stepFrom react p i ecount s calls).1 = (asksOf react calls new).foldl request s := by
  fun_induction stepFrom react p i ecount s calls with
  | case1 i ecount s calls hloop hskip ih => exact ih
  | case2 i ecount s calls hloop hserve calls' ih =>
    obtain ⟨new, hcalls, hstate⟩ := ih
    refine ⟨(s.edata p).dispatch i :: new, ?_, ?_⟩
    · rw [hcalls, List.append_assoc]
      rfl
    · rw [hstate, asksOf, List.foldl_append]
  | case3 i ecount s calls hstop => exact ⟨[], (List.append_nil _).symm, rfl⟩

theorem permits_part {asked : List (FdRequest κ δ)} (h : Transition.Along request Permits s asked)
    (p : Fin pollPartition) :
    Transition.Along EventLoopData.request EventLoopData.Permits (s.edata p)
      (asked.filter fun a => partitionOf a.fd = p) := by
  induction asked generalizing s with
  | nil => exact trivial
  | cons a asked ih =>
    have hrest := ih h.2
    rw [request_edata] at hrest
    by_cases hp : partitionOf a.fd = p
    · rw [List.filter_cons_of_pos (by simpa using hp)]
      rw [if_pos hp] at hrest
      refine ⟨?_, hrest⟩
      cases a with
      | register fd onEvent eventData requestedEvents => exact ⟨h.1.2.1, hp ▸ h.1.2.2.1⟩
      | unregister fd => exact trivial
    · rw [List.filter_cons_of_neg (by simpa using hp)]
      rwa [if_neg hp] at hrest

theorem request_partitioned (h : Partitioned s m) {a : FdRequest κ δ} (ha : s.Permits a) :
    Partitioned (s.request a) (m.request a) := by
  cases a with
  | register fd onEvent eventData requestedEvents =>
    obtain ⟨-, hevents, hlive, hroom, -⟩ := ha
    refine h.register ?_ onEvent eventData hevents hroom
    have habsent := ((h.part (partitionOf fd)).absent_iff fd).mpr hlive
    rwa [if_pos rfl] at habsent
  | unregister fd => exact h.unregister fd

theorem request_running (hrunning : s.crashed = false) {a : FdRequest κ δ} (ha : s.Permits a) :
    (s.request a).crashed = false := by
  cases a with
  | register fd onEvent eventData requestedEvents =>
    obtain ⟨-, -, -, -, hroom⟩ := ha
    show (s.crashed || !(s.eventLoopFdCount < maxPollFd)) = false
    simp [hrunning, hroom]
  | unregister fd => exact hrunning

theorem requests_running (hrunning : s.crashed = false) {asked : List (FdRequest κ δ)}
    (hpermits : Transition.Along request Permits s asked) :
    (asked.foldl request s).crashed = false :=
  Transition.along_invariant (P := fun s : PartitionedLoop κ δ => s.crashed = false)
    (fun _ (a : FdRequest κ δ) h ha => request_running (a := a) h ha) hrunning hpermits

theorem polled_partitioned (h : Partitioned s m) (p : Fin pollPartition) (revents : ℕ → ℤ) :
    Partitioned (s.setPart p fun pt => pt.polled revents) m where
  part q := by
    unfold setPart
    dsimp only
    by_cases hq : q = p
    · subst hq
      rw [Function.update_self, EventLoopData.polled_live]
      exact h.part q
    · rw [Function.update_of_ne hq]
      exact h.part q
  bound q := by
    unfold setPart
    dsimp only
    by_cases hq : q = p
    · subst hq
      rw [Function.update_self]
      exact h.bound q
    · rw [Function.update_of_ne hq]
      exact h.bound q

theorem requests_partitioned (h : Partitioned s m) {asked : List (FdRequest κ δ)}
    (hpermits : Transition.Along request Permits s asked) :
    Partitioned (asked.foldl request s) (asked.foldl Registry.request m) :=
  Transition.along_simulation (R := Partitioned)
    (fun _ _ (a : FdRequest κ δ) hs ha => request_partitioned (a := a) hs ha) h hpermits

/-- A pass over a partition serves those who are ready. -/
theorem stepFrom_served (react : List (Dispatch κ δ) → List (FdRequest κ δ)) (h : Partitioned s m)
    (hpermits : Transition.Along request Permits s
      (asksOf react calls (served react calls (s.edata p).readyOf))) :
    (stepFrom react p 0 (s.edata p).readyCount s calls).2 =
      calls ++ served react calls (s.edata p).readyOf := by
  let v : EventLoop κ δ := ⟨s.edata p, false⟩
  have hin : ∀ d ∈ (s.edata p).readyOf, partitionOf d.fd = p := by
    intro d hd
    obtain ⟨-, events, hlookup⟩ := (EventLoopData.readyOf_registered (h.part p)).2 d hd
    by_contra hp
    rw [if_neg hp] at hlookup
    exact absurd hlookup (by simp)
  have hview := (stepFrom_view react calls 0 (s.edata p).readyCount []
    (show v.table = s.edata p from rfl)).2
  have hturns : EventLoop.stepFrom (within react p calls) 0 (s.edata p).readyCount v [] =
      EventLoop.afterTurns (within react p calls) v v.table.nfds :=
    EventLoop.stepFrom_eq (within react p calls) v (by rw [Nat.zero_min]; rfl)
      (Nat.le_add_right _ _)
  have hpart := permits_part hpermits p
  rw [← List.append_nil calls, ← asksOf_within, List.append_nil, ← served_within hin] at hpart
  have hserved := EventLoop.afterTurns_served (within react p calls) v (h.part p) le_rfl hpart
  rw [List.append_nil] at hview
  rw [hview, hturns, hserved]
  exact congrArg (calls ++ ·) (served_within hin)

/-- The turn of a partition calls those who are ready, each once, except those whose descriptor
a callback of the turn asked for before; and it leaves the registrations that the callbacks
asked for. -/
theorem turn_served (h : Partitioned s m) (hrunning : s.crashed = false) {revents : ℕ → ℤ}
    (hpoll : W.poll calls p = some revents) (hpermits : TurnPermits W (s, calls) p) :
    let ready := ((s.edata p).polled revents).readyOf
    (stepPart W (s, calls) p).2 = calls ++ served W.react calls ready ∧
      Partitioned (stepPart W (s, calls) p).1
        ((asksOf W.react calls (served W.react calls ready)).foldl Registry.request m) ∧
      (stepPart W (s, calls) p).1.crashed = false := by
  intro ready
  have hself : (s.setPart p fun pt => pt.polled revents).edata p = (s.edata p).polled revents :=
    Function.update_self ..
  have hpart := polled_partitioned h p revents
  have hpolled : (s.setPart p fun pt => pt.polled revents).crashed = false := hrunning
  have hpermits' := hpermits.2 revents hpoll
  dsimp only at hpermits'
  have hcalls := stepFrom_served W.react hpart hpermits'
  obtain ⟨new, hnew, hstate⟩ := stepFrom_asks (s := s.setPart p fun pt => pt.polled revents)
    (p := p) W.react calls 0 ((s.setPart p fun pt => pt.polled revents).edata p).readyCount
  rw [hself] at hpermits' hcalls hnew hstate
  have hidle : ready = [] → served W.react calls ready = [] := by
    intro hnone
    rw [hnone]
    rfl
  unfold stepPart
  dsimp only
  by_cases hnfds : (s.edata p).nfds = 0
  · have hnone : ready = [] := by
      have hnfds' : ((s.edata p).polled revents).nfds = 0 := hnfds
      unfold ready EventLoopData.readyOf
      rw [hnfds']
      rfl
    rw [if_pos (Or.inr hnfds), hidle hnone, List.append_nil]
    exact ⟨rfl, h, hrunning⟩
  rw [if_neg (by simp [hrunning, hnfds]), hpoll]
  dsimp only
  rw [hself]
  by_cases hcount : ((s.edata p).polled revents).readyCount = 0
  · have hnone : ready = [] := by
      unfold ready EventLoopData.readyOf
      rw [List.map_eq_nil_iff, List.filter_eq_nil_iff]
      intro i hi
      have hno := List.countP_eq_zero.mp hcount i hi
      simp only [ne_eq, decide_not, Bool.not_eq_true', decide_eq_false_iff_not, not_not] at hno
      simp [EventLoopData.Ready, hno]
    rw [if_pos hcount, hidle hnone, List.append_nil]
    exact ⟨rfl, hpart, hrunning⟩
  · rw [if_neg hcount]
    obtain rfl : new = served W.react calls ready :=
      List.append_cancel_left (hnew.symm.trans hcalls)
    rw [hstate]
    exact ⟨hcalls, (requests_partitioned hpart hpermits').batch p,
      requests_running hpolled hpermits'⟩

/-- A turn keeps the partitions those of a map, and no assertion fails in it. -/
theorem stepPart_partitioned (h : Partitioned s m) (hrunning : s.crashed = false)
    (hpermits : TurnPermits W (s, calls) p) :
    (∃ m', Partitioned (stepPart W (s, calls) p).1 m') ∧
      (stepPart W (s, calls) p).1.crashed = false := by
  cases hpoll : W.poll calls p with
  | some revents =>
    obtain ⟨-, hparts, hturn⟩ := turn_served h hrunning hpoll hpermits
    exact ⟨⟨_, hparts⟩, hturn⟩
  | none =>
    have hnfds : (s.edata p).nfds = 0 := by
      by_contra hnfds
      exact hpermits.1 hnfds hpoll
    have hturn : stepPart W (s, calls) p = (s, calls) := if_pos (Or.inr hnfds)
    rw [hturn]
    exact ⟨⟨m, h⟩, hrunning⟩

end Turn

/-! ### Runs -/

/-- Between two steps, other fibers register and unregister descriptors. -/
inductive Event (κ δ : Type*) where
  | request (a : FdRequest κ δ)
  | step (W : LoopWorld κ δ)

def on (s : PartitionedLoop κ δ) : Event κ δ → PartitionedLoop κ δ
  | .request a => s.request a
  | .step W => (s.eventLoopStep W).1

/-- All that is asked for is permitted, and no poll fails. -/
def Permitted (s : PartitionedLoop κ δ) : Event κ δ → Prop
  | .request a => s.Permits a
  | .step W => Transition.Along (stepPart W) (TurnPermits W) (s, []) (List.finRange pollPartition)

/-- The partitions are those of a map, each has been counted, and no assertion failed. -/
structure Consistent (s : PartitionedLoop κ δ) : Prop where
  registers : ∃ m, Partitioned s m
  running : s.crashed = false
  counted : ∀ p, (s.edata p).nfds ≤ s.grandNfds

section Runs
variable {W : LoopWorld κ δ} {s : PartitionedLoop κ δ}

theorem turns_partitioned (hregisters : ∃ m, Partitioned s m) (hrunning : s.crashed = false)
    {ps : List (Fin pollPartition)}
    (hpermits : Transition.Along (stepPart W) (TurnPermits W) (s, []) ps) :
    (∃ m, Partitioned (ps.foldl (stepPart W) (s, [])).1 m) ∧
      (ps.foldl (stepPart W) (s, [])).1.crashed = false :=
  Transition.along_invariant (P := fun sc : PartitionedLoop κ δ × List (Dispatch κ δ) =>
      (∃ m, Partitioned sc.1 m) ∧ sc.1.crashed = false)
    (fun _ _ h hp => h.1.elim fun _ hm => stepPart_partitioned hm h.2 hp)
    ⟨hregisters, hrunning⟩ hpermits

theorem consistent_start (fds : Fin pollPartition → ℕ → Pollfd)
    (cbs : Fin pollPartition → ℕ → EventCallback κ δ) : Consistent (start fds cbs) :=
  ⟨⟨_, .start fds cbs⟩, rfl, fun _ => le_rfl⟩

theorem request_counted (hcounted : ∀ p, (s.edata p).nfds ≤ s.grandNfds) (a : FdRequest κ δ)
    (p : Fin pollPartition) : ((s.request a).edata p).nfds ≤ (s.request a).grandNfds := by
  have hp := hcounted p
  rw [request_edata]
  cases a with
  | register fd onEvent eventData requestedEvents =>
    change _ ≤ s.grandNfds + 1
    split
    · exact Nat.succ_le_succ hp
    · omega
  | unregister fd =>
    change _ ≤ s.grandNfds
    split
    · unfold EventLoopData.request EventLoopData.unregister
      dsimp only
      split
      · exact hp
      · exact hp
    · exact hp

theorem fixGrandTotal_counted (s : PartitionedLoop κ δ) (p : Fin pollPartition) :
    (s.fixGrandTotal.edata p).nfds ≤ s.fixGrandTotal.grandNfds :=
  List.le_sum_of_mem (List.mem_map.mpr ⟨p, List.mem_finRange p, rfl⟩)

theorem on_consistent (h : Consistent s) {e : Event κ δ} (he : s.Permitted e) :
    Consistent (s.on e) := by
  obtain ⟨m, hm⟩ := h.registers
  cases e with
  | request a =>
    exact ⟨⟨_, request_partitioned hm he⟩, request_running h.running he,
      request_counted h.counted a⟩
  | step W =>
    change Consistent (s.eventLoopStep W).1
    unfold eventLoopStep
    split
    · exact h
    · obtain ⟨⟨m', hm'⟩, hrunning⟩ := turns_partitioned h.registers h.running he
      exact ⟨⟨m', hm'.fixGrandTotal⟩, hrunning, fixGrandTotal_counted _⟩

theorem turns_idle (hempty : ∀ p, (s.edata p).nfds = 0) (W : LoopWorld κ δ)
    (ps : List (Fin pollPartition)) : ps.foldl (stepPart W) (s, []) = (s, []) := by
  induction ps with
  | nil => rfl
  | cons p ps ih =>
    have hturn : stepPart W (s, []) p = (s, []) := if_pos (Or.inr (hempty p))
    rw [List.foldl_cons, hturn, ih]

/-- The step makes the turns of the partitions; it leaves them out only if there is nothing to
poll. -/
theorem step_turns (h : Consistent s) (W : LoopWorld κ δ) : (s.eventLoopStep W).2 =
    ((List.finRange pollPartition).foldl (stepPart W) (s, [])).2 := by
  unfold eventLoopStep
  split
  · rename_i hzero
    have hempty (p : Fin pollPartition) : (s.edata p).nfds = 0 :=
      Nat.le_zero.mp ((h.counted p).trans_eq hzero)
    rw [turns_idle hempty]
  · dsimp only

/-- In every run of steps in which no poll fails and callbacks and other fibers ask only for what
is permitted, if that is so in the next step too: no assertion fails in the run or the step; the
step makes the turns of the partitions; and in the turn of a partition the loop holds
one registration for each of some descriptors, and of these, in the order of the table and with
their own callbacks and data, those are called once that have events when the partition is
polled and whose descriptor no callback of the turn asked for before. -/
theorem partitioned_step_serves (fds : Fin pollPartition → ℕ → Pollfd)
    (cbs : Fin pollPartition → ℕ → EventCallback κ δ) (es : List (Event κ δ))
    (hrun : Transition.Along on Permitted (start fds cbs) es) (W : LoopWorld κ δ)
    (hnext : Permitted (es.foldl on (start fds cbs)) (.step W)) :
    let s := es.foldl on (start fds cbs)
    s.crashed = false ∧ (s.eventLoopStep W).1.crashed = false ∧
    (s.eventLoopStep W).2 = ((List.finRange pollPartition).foldl (stepPart W) (s, [])).2 ∧
    ∀ before p after, List.finRange pollPartition = before ++ p :: after →
      let sc := before.foldl (stepPart W) (s, [])
      sc.1.crashed = false ∧
      ∃ m : Registry κ δ, Partitioned sc.1 m ∧ ∀ revents, W.poll sc.2 p = some revents →
        let ready := ((sc.1.edata p).polled revents).readyOf
        (ready.map Dispatch.fd).Nodup ∧
        (∀ d ∈ ready, d.returnedEvents ≠ 0 ∧
          ∃ events, m d.fd = some ⟨d.onEvent, d.eventData, events⟩) ∧
        (stepPart W sc p).2 = sc.2 ++ served W.react sc.2 ready ∧
        Partitioned (stepPart W sc p).1
          ((asksOf W.react sc.2 (served W.react sc.2 ready)).foldl Registry.request m) := by
  intro s
  have hs : Consistent s := Transition.along_invariant (P := Consistent)
    (fun s (e : Event κ δ) h he => on_consistent (e := e) h he) (consistent_start fds cbs) hrun
  have hstepped : Consistent (s.on (.step W)) := on_consistent hs hnext
  refine ⟨hs.running, hstepped.running, step_turns hs W, fun before p after hsplit => ?_⟩
  intro sc
  have hturns : Transition.Along (stepPart W) (TurnPermits W) (s, []) (before ++ p :: after) :=
    hsplit ▸ hnext
  obtain ⟨⟨m, hm⟩, hrunning⟩ := turns_partitioned hs.registers hs.running
    (Transition.along_prefix (List.prefix_append before (p :: after)) hturns)
  refine ⟨hrunning, m, hm, fun revents hpoll => ?_⟩
  have hturn : TurnPermits W sc p :=
    Transition.along_iff_forall_split.mp hturns before p after rfl
  have hlive := (hm.part p)
  rw [← EventLoopData.polled_live _ revents] at hlive
  obtain ⟨hnodup, hregistered⟩ := EventLoopData.readyOf_registered hlive
  obtain ⟨hcalls, hparts, -⟩ := turn_served hm hrunning hpoll hturn
  refine ⟨hnodup, fun d hd => ?_, hcalls, hparts⟩
  obtain ⟨hevents, events, hlookup⟩ := hregistered d hd
  refine ⟨hevents, events, ?_⟩
  by_cases hp : partitionOf d.fd = p
  · rwa [if_pos hp] at hlookup
  · rw [if_neg hp] at hlookup
    exact absurd hlookup (by simp)

end Runs

/-- Callbacks that only unregister descriptors ask for nothing that is not permitted. -/
theorem permitted_of_unregisters {W : LoopWorld κ δ} (hpolls : ∀ calls p, W.poll calls p ≠ none)
    (hreact : ∀ calls, ∀ a ∈ W.react calls, ∃ fd, 0 ≤ fd ∧ a = .unregister fd)
    (s : PartitionedLoop κ δ) : s.Permitted (.step W) := by
  have hasks (before calls : List (Dispatch κ δ)) :
      ∀ a ∈ asksOf W.react before calls, ∃ fd, 0 ≤ fd ∧ a = .unregister fd := by
    induction calls generalizing before with
    | nil => exact fun a ha => absurd ha List.not_mem_nil
    | cons d calls ih =>
      intro a ha
      obtain hnow | hlater := List.mem_append.mp ha
      · exact hreact _ a hnow
      · exact ih _ a hlater
  unfold Permitted
  dsimp only
  rw [Transition.along_iff_forall_split]
  intro before p after _
  refine ⟨fun _ => hpolls _ _, fun revents _ => ?_⟩
  rw [Transition.along_iff_forall_split]
  rintro earlier a later heq
  obtain ⟨fd, hfd, rfl⟩ := hasks _ _ a (heq ▸ List.mem_append_right _ List.mem_cons_self)
  exact hfd

/-- Three descriptors, two of them in one partition. -/
def threeReady : List (Event ℕ ℕ) :=
  [.request (.register 8 0 80 1), .request (.register 16 0 160 1), .request (.register 9 1 90 1)]

theorem threeReady_permitted : Transition.Along on Permitted
    (start (fun _ _ => ⟨0, 0, 0⟩) fun _ _ => ⟨0, 0⟩) threeReady := by
  have hpermitted {s : PartitionedLoop ℕ ℕ} {a : FdRequest ℕ ℕ} (h : s.Permits a) :
    s.Permitted (.request a) := h
  exact ⟨hpermitted (by decide +kernel), hpermitted (by decide +kernel),
    hpermitted (by decide +kernel), trivial⟩

/-- All have events, and the first callback unregisters the second descriptor. -/
def oneGone : LoopWorld ℕ ℕ where
  react calls := if calls.length = 1 then [.unregister 16] else []
  poll _ _ := some fun _ => 1

theorem partitioned_step_serves_oneGone :
    let s := threeReady.foldl on (start (fun _ _ => ⟨0, 0, 0⟩) fun _ _ => ⟨0, 0⟩)
    s.crashed = false ∧ (s.eventLoopStep oneGone).1.crashed = false ∧
    (s.eventLoopStep oneGone).2 =
      ((List.finRange pollPartition).foldl (stepPart oneGone) (s, [])).2 ∧
    ∀ before p after, List.finRange pollPartition = before ++ p :: after →
      let sc := before.foldl (stepPart oneGone) (s, [])
      sc.1.crashed = false ∧
      ∃ m : Registry ℕ ℕ, Partitioned sc.1 m ∧ ∀ revents, oneGone.poll sc.2 p = some revents →
        let ready := ((sc.1.edata p).polled revents).readyOf
        (ready.map Dispatch.fd).Nodup ∧
        (∀ d ∈ ready, d.returnedEvents ≠ 0 ∧
          ∃ events, m d.fd = some ⟨d.onEvent, d.eventData, events⟩) ∧
        (stepPart oneGone sc p).2 = sc.2 ++ served oneGone.react sc.2 ready ∧
        Partitioned (stepPart oneGone sc p).1
          ((asksOf oneGone.react sc.2 (served oneGone.react sc.2 ready)).foldl Registry.request
            m) :=
  partitioned_step_serves _ _ threeReady threeReady_permitted oneGone
    (permitted_of_unregisters (fun _ _ => Option.some_ne_none _) (fun calls a ha => by
      unfold oneGone at ha
      dsimp only at ha
      split at ha
      · exact ⟨16, by decide, List.mem_singleton.mp ha⟩
      · exact absurd ha List.not_mem_nil) _)

end PartitionedLoop

end Nginz
