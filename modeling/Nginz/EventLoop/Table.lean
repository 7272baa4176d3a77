import Nginz.Lib.Compaction
import Nginz.Lib.KeyedEntries

/-! The two parallel arrays of an event loop: descriptors and callbacks, lazy
unregistration and compaction. -/
namespace Nginz
open Compaction KeyedEntries
open scoped List

/-- `MAX_POLL_FD`. -/
def maxPollFd : ℕ := 20000

/-- `struct pollfd`. -/
structure Pollfd where
  fd : ℤ
  events : ℤ
  revents : ℤ
  deriving DecidableEq, Repr

/-- `struct event_callback` with callbacks in `κ` and data in `δ`. -/
structure EventCallback (κ δ : Type*) where
  onEvent : κ
  eventData : δ
  deriving DecidableEq, Repr

/-- `struct event_loop_data`; `event_loop_poll.c` keeps the same three in static variables. -/
structure EventLoopData (κ δ : Type*) where
  fds : ℕ → Pollfd
  cbs : ℕ → EventCallback κ δ
  nfds : ℕ

/-- What a registration asks for. -/
structure Registration (κ δ : Type*) where
  onEvent : κ
  eventData : δ
  events : ℤ
  deriving DecidableEq, Repr

/-- Number of entries that the loop `for(; last >= 0 && !fds[last].events; last--)` leaves
of the first `n`. -/
def trimLast (fds : ℕ → Pollfd) : ℕ → ℕ
  | 0 => 0
  | n + 1 => if (fds n).events = 0 then trimLast fds n else n + 1

theorem trimLast_le (fds : ℕ → Pollfd) (n : ℕ) : trimLast fds n ≤ n := by
  induction n with
  | zero => exact le_rfl
  | succ n ih =>
    unfold trimLast
    split <;> omega

namespace EventLoopData
variable {κ δ : Type*}

/-- The assignments of `event_loop_register_fd`. -/
def append (pt : EventLoopData κ δ) (fd : ℤ) (onEvent : κ) (eventData : δ) (requestedEvents : ℤ) :
    EventLoopData κ δ where
  fds := Function.update pt.fds pt.nfds ⟨fd, requestedEvents, 0⟩
  cbs := Function.update pt.cbs pt.nfds ⟨onEvent, eventData⟩
  nfds := pt.nfds + 1

/-- The loop of `event_loop_unregister_fd`: the first live entry of the descriptor dies. -/
def unregister (pt : EventLoopData κ δ) (fd : ℤ) : EventLoopData κ δ :=
  match (List.range pt.nfds).find? fun i => (pt.fds i).fd = fd ∧ (pt.fds i).events ≠ 0 with
  | none => pt
  | some i => { pt with fds := Function.update pt.fds i { pt.fds i with events := 0 } }

/-- The second loop of `event_loop_batch_unregister` from `i` on, with `last` as `n - 1`. -/
def compactFrom (pt : EventLoopData κ δ) (i n : ℕ) : EventLoopData κ δ :=
  if i + 1 < n then
    if (pt.fds i).events ≠ 0 then pt.compactFrom (i + 1) n
    else
      let pt := { pt with
        fds := Function.update pt.fds i (pt.fds (n - 1))
        cbs := Function.update pt.cbs i (pt.cbs (n - 1)) }
      pt.compactFrom (i + 1) (trimLast pt.fds (n - 1))
  else { pt with nfds := n }
termination_by n - i
decreasing_by
  · omega
  · refine lt_of_le_of_lt (Nat.sub_le_sub_right (trimLast_le _ _) _) ?_
    omega

/-- `event_loop_batch_unregister`. -/
def batchUnregister (pt : EventLoopData κ δ) : EventLoopData κ δ :=
  pt.compactFrom 0 (trimLast pt.fds pt.nfds)

/-! ### Live entries -/

/-- The registration in a slot, if it is live. -/
def entry (pt : EventLoopData κ δ) (i : ℕ) : Option (ℤ × Registration κ δ) :=
  if (pt.fds i).events = 0 then none
  else some ((pt.fds i).fd, ⟨(pt.cbs i).onEvent, (pt.cbs i).eventData, (pt.fds i).events⟩)

/-- The live registrations in the order of the table. -/
def live (pt : EventLoopData κ δ) : List (ℤ × Registration κ δ) := entries pt.entry pt.nfds

variable {pt : EventLoopData κ δ}

theorem entry_none {i : ℕ} : pt.entry i = none ↔ (pt.fds i).events = 0 := by
  unfold entry
  split <;> simp_all

theorem entry_fd {i : ℕ} {fd : ℤ} {r : Registration κ δ} (h : pt.entry i = some (fd, r)) :
    (pt.fds i).fd = fd ∧ (pt.fds i).events = r.events ∧ r.events ≠ 0 := by
  unfold entry at h
  split at h
  · exact absurd h (by simp)
  · rename_i hne
    obtain ⟨rfl, rfl⟩ := Prod.mk.inj (Option.some.inj h)
    exact ⟨rfl, rfl, hne⟩

/-- A change of one slot is a change of one entry. -/
theorem entry_set (pt : EventLoopData κ δ) (i : ℕ) (p : Pollfd) (cb : EventCallback κ δ) (n : ℕ) :
    (EventLoopData.mk (Function.update pt.fds i p) (Function.update pt.cbs i cb) n).entry =
      Function.update pt.entry i
        (if p.events = 0 then none else some (p.fd, ⟨cb.onEvent, cb.eventData, p.events⟩)) := by
  funext j
  unfold entry
  by_cases hj : j = i
  · subst hj
    simp
  · simp [Function.update_of_ne hj]

theorem live_append (fd : ℤ) (onEvent : κ) (eventData : δ) {requestedEvents : ℤ}
    (h : requestedEvents ≠ 0) : (pt.append fd onEvent eventData requestedEvents).live =
      pt.live ++ [(fd, ⟨onEvent, eventData, requestedEvents⟩)] := by
  unfold live append
  rw [entry_set, if_neg h]
  dsimp only
  rw [entries_succ, entries_update _ le_rfl, Function.update_self]
  rfl

/-- Unregistering removes the first live entry of the descriptor, or finds none. -/
theorem live_unregister (pt : EventLoopData κ δ) (fd : ℤ) :
    (fd ∉ pt.live.map Prod.fst ∧ pt.unregister fd = pt) ∨
      ∃ r, (fd, r) :: (pt.unregister fd).live ~ pt.live := by
  unfold unregister
  split
  · rename_i hnone
    left
    refine ⟨?_, rfl⟩
    intro hmem
    obtain ⟨⟨fd', r⟩, hr, rfl⟩ := List.mem_map.mp hmem
    obtain ⟨i, hi, hentry⟩ := mem_entries.mp hr
    obtain ⟨hfd, he, hne⟩ := entry_fd hentry
    rw [List.find?_eq_none] at hnone
    have hno := hnone i (List.mem_range.mpr hi)
    simp [hfd, he, hne] at hno
  · rename_i i hsome
    right
    have hi : i < pt.nfds := List.mem_range.mp (List.mem_of_find?_eq_some hsome)
    have hp := List.find?_some hsome
    simp only [ne_eq, decide_eq_true_eq] at hp
    have hentry :
        pt.entry i = some (fd, ⟨(pt.cbs i).onEvent, (pt.cbs i).eventData, (pt.fds i).events⟩) := by
      unfold entry
      rw [if_neg hp.2, hp.1]
    have hclear := entries_clear pt.entry hi hentry
    have hset := entry_set pt i { pt.fds i with events := 0 } (pt.cbs i) pt.nfds
    rw [Function.update_eq_self, if_pos rfl] at hset
    refine ⟨⟨(pt.cbs i).onEvent, (pt.cbs i).eventData, (pt.fds i).events⟩, ?_⟩
    unfold live
    rw [hset]
    exact hclear

/-! ### Compaction -/

theorem trimLast_entries (n : ℕ) : entries pt.entry (trimLast pt.fds n) = entries pt.entry n := by
  induction n with
  | zero => rfl
  | succ n ih =>
    unfold trimLast
    split
    · rename_i hdead
      rw [ih, entries_trim (entry_none.mpr hdead)]
    · rfl

theorem trimLast_live (fds : ℕ → Pollfd) {n m : ℕ} (h : trimLast fds n = m + 1) :
    (fds m).events ≠ 0 := by
  induction n with
  | zero => exact absurd h (by simp [trimLast])
  | succ n ih =>
    unfold trimLast at h
    split at h
    · exact ih h
    · rename_i hlive
      obtain rfl : n = m := by omega
      exact hlive

/-- The state of the compaction at `i`: all before it and the last one are live. -/
structure Compacting (pt : EventLoopData κ δ) (i n : ℕ) : Prop where
  before : ∀ j < i, j < n → (pt.fds j).events ≠ 0
  last : ∀ m, n = m + 1 → (pt.fds m).events ≠ 0

/-- Compaction keeps the live entries up to their order and leaves no dead one. -/
theorem compactFrom_spec {i n : ℕ} (h : Compacting pt i n) :
    (pt.compactFrom i n).live ~ entries pt.entry n ∧
      ∀ j < (pt.compactFrom i n).nfds, ((pt.compactFrom i n).fds j).events ≠ 0 := by
  fun_induction compactFrom pt i n with
  | case1 pt i n hin hlive ih =>
    apply ih
    constructor
    · intro j hj hjn
      rcases Nat.lt_succ_iff_lt_or_eq.mp hj with hj | rfl
      · exact h.before j hj hjn
      · exact hlive
    · exact h.last
  | case2 pt i n hin hdead pt' ih =>
    have hdead' : (pt.fds i).events = 0 := not_not.mp hdead
    have hn : n = (n - 1) + 1 := by omega
    have hlast : (pt.fds (n - 1)).events ≠ 0 := h.last (n - 1) hn
    have hentry : pt'.entry = Function.update pt.entry i (pt.entry (n - 1)) := by
      have hset := entry_set pt i (pt.fds (n - 1)) (pt.cbs (n - 1)) pt.nfds
      exact hset
    have hfilled : Compacting pt' (i + 1) (trimLast pt'.fds (n - 1)) := by
      constructor
      · intro j hj hjn
        change (Function.update pt.fds i (pt.fds (n - 1)) j).events ≠ 0
        rcases Nat.lt_succ_iff_lt_or_eq.mp hj with hj | rfl
        · rw [Function.update_of_ne (by omega)]
          exact h.before j hj (by omega)
        · rw [Function.update_self]
          exact hlast
      · exact fun m hm => trimLast_live _ hm
    obtain ⟨hperm, hall⟩ := ih hfilled
    refine ⟨?_, hall⟩
    have hfill := entries_fill pt.entry (n := n - 1) (by omega) (entry_none.mpr hdead')
    rw [← hn] at hfill
    rw [trimLast_entries, hentry] at hperm
    exact hperm.trans hfill
  | case3 pt i n hin =>
    refine ⟨List.Perm.refl _, ?_⟩
    intro j hj
    change j < n at hj
    rcases Nat.lt_or_ge j i with hji | hji
    · exact h.before j hji hj
    · exact h.last j (by omega)

theorem compacting_start (pt : EventLoopData κ δ) : Compacting pt 0 (trimLast pt.fds pt.nfds) where
  before j hj := absurd hj (by omega)
  last m hm := trimLast_live _ hm

theorem live_batchUnregister (pt : EventLoopData κ δ) : pt.batchUnregister.live ~ pt.live := by
  have h := (compactFrom_spec (compacting_start pt)).1
  rw [trimLast_entries] at h
  exact h

/-- After a compaction no entry is dead. -/
theorem batchUnregister_alive (pt : EventLoopData κ δ) :
    ∀ j < pt.batchUnregister.nfds, (pt.batchUnregister.fds j).events ≠ 0 :=
  (compactFrom_spec (compacting_start pt)).2

theorem batchUnregister_nfds (pt : EventLoopData κ δ) :
    pt.batchUnregister.nfds = pt.batchUnregister.live.length := by
  symm
  apply length_entries
  intro i hi
  rw [ne_eq, entry_none]
  exact batchUnregister_alive pt i hi

theorem compactFrom_nfds_le (pt : EventLoopData κ δ) (i n : ℕ) : (pt.compactFrom i n).nfds ≤ n := by
  fun_induction compactFrom pt i n with
  | case1 pt i n hin hlive ih => exact ih
  | case2 pt i n hin hdead pt' ih =>
    have hle := trimLast_le pt'.fds (n - 1)
    omega
  | case3 pt i n hin => exact le_rfl

theorem batchUnregister_nfds_le (pt : EventLoopData κ δ) : pt.batchUnregister.nfds ≤ pt.nfds :=
  (compactFrom_nfds_le pt 0 _).trans (trimLast_le _ _)

/-! ### The map of registrations -/

variable {m : ℤ → Option (Registration κ δ)}

theorem represents_append (h : Represents pt.live m) {fd : ℤ} (hfd : m fd = none) (onEvent : κ)
    (eventData : δ) {requestedEvents : ℤ} (he : requestedEvents ≠ 0) :
    Represents (pt.append fd onEvent eventData requestedEvents).live
      (Function.update m fd (some ⟨onEvent, eventData, requestedEvents⟩)) := by
  rw [live_append fd onEvent eventData he]
  exact h.insert hfd _

theorem represents_unregister (h : Represents pt.live m) (fd : ℤ) :
    Represents (pt.unregister fd).live (Function.update m fd none) := by
  rcases live_unregister pt fd with ⟨habsent, hsame⟩ | ⟨r, hp⟩
  · rw [hsame]
    exact h.eraseAbsent habsent
  · exact h.erase hp

theorem represents_batch (h : Represents pt.live m) : Represents pt.batchUnregister.live m :=
  h.perm (live_batchUnregister pt)

end EventLoopData
end Nginz
