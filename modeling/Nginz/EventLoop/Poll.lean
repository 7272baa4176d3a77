import Nginz.EventLoop.Table
import Nginz.Lib.Transition

/-! `event_loop_poll.c`: the table of registrations is a map, and a pass over it dispatches
every event once. -/
namespace Nginz
open Compaction KeyedEntries

variable {κ δ : Type*}

/-- The table and whether an assertion failed. -/
structure EventLoop (κ δ : Type*) where
  table : EventLoopData κ δ
  crashed : Bool

/-- Operations on an event loop; compaction is `event_loop_batch_unregister`. -/
inductive LoopAction (κ δ : Type*) where
  | register (fd : ℤ) (onEvent : κ) (eventData : δ) (requestedEvents : ℤ)
  | unregister (fd : ℤ)
  | batchUnregister
  deriving DecidableEq, Repr

namespace EventLoop

/-- The arrays are static, and no entry is in use. -/
def start (fds : ℕ → Pollfd) (cbs : ℕ → EventCallback κ δ) : EventLoop κ δ := ⟨⟨fds, cbs, 0⟩, false⟩

def eventLoopFdCount (s : EventLoop κ δ) : ℕ := s.table.nfds

def eventLoopRegisterFd (s : EventLoop κ δ) (fd : ℤ) (onEvent : κ) (eventData : δ)
    (requestedEvents : ℤ) : EventLoop κ δ where
  table := s.table.append fd onEvent eventData requestedEvents
  crashed := s.crashed || !(s.table.nfds < maxPollFd)

def eventLoopUnregisterFd (s : EventLoop κ δ) (fd : ℤ) : EventLoop κ δ :=
  { s with table := s.table.unregister fd }

def eventLoopBatchUnregister (s : EventLoop κ δ) : EventLoop κ δ :=
  { s with table := s.table.batchUnregister }

def act (s : EventLoop κ δ) : LoopAction κ δ → EventLoop κ δ
  | .register fd onEvent eventData requestedEvents =>
    s.eventLoopRegisterFd fd onEvent eventData requestedEvents
  | .unregister fd => s.eventLoopUnregisterFd fd
  | .batchUnregister => s.eventLoopBatchUnregister

end EventLoop

/-! ### The map of registrations -/

/-- What an event loop is for: one registration for each descriptor. -/
abbrev Registry (κ δ : Type*) := ℤ → Option (Registration κ δ)

def Registry.act (m : Registry κ δ) : LoopAction κ δ → Registry κ δ
  | .register fd onEvent eventData requestedEvents =>
    Function.update m fd (some ⟨onEvent, eventData, requestedEvents⟩)
  | .unregister fd => Function.update m fd none
  | .batchUnregister => m

/-- A registration asks for something, is the only live one of its descriptor and fits. -/
def Permitted (s : EventLoop κ δ) : LoopAction κ δ → Prop
  | .register fd _ _ requestedEvents =>
    requestedEvents ≠ 0 ∧ fd ∉ s.table.live.map Prod.fst ∧ s.table.nfds < maxPollFd
  | _ => True

instance (s : EventLoop κ δ) (a : LoopAction κ δ) : Decidable (Permitted s a) := by
  cases a with
  | register => exact inferInstanceAs (Decidable (_ ∧ _))
  | unregister => exact .isTrue trivial
  | batchUnregister => exact .isTrue trivial

/-- The live entries are those of the map, and no assertion failed. -/
structure Registers (s : EventLoop κ δ) (m : Registry κ δ) : Prop where
  entries : Represents s.table.live m
  running : s.crashed = false
  bound : s.table.nfds ≤ maxPollFd

namespace Registers
variable {s : EventLoop κ δ} {m : Registry κ δ}

theorem start (fds : ℕ → Pollfd) (cbs : ℕ → EventCallback κ δ) :
    Registers (.start fds cbs) fun _ => none where
  entries := .nil
  running := rfl
  bound := Nat.zero_le _

theorem batchUnregister (h : Registers s m) : Registers s.eventLoopBatchUnregister m where
  entries := EventLoopData.represents_batch h.entries
  running := h.running
  bound := (EventLoopData.batchUnregister_nfds_le _).trans h.bound

/-- Each operation on the table is that of the map. -/
theorem act (h : Registers s m) {a : LoopAction κ δ} (ha : Permitted s a) :
    Registers (s.act a) (m.act a) := by
  cases a with
  | register fd onEvent eventData requestedEvents =>
    obtain ⟨he, hfd, hroom⟩ := ha
    constructor
    · exact EventLoopData.represents_append h.entries ((h.entries.absent_iff fd).mpr hfd) _ _ he
    · show (s.crashed || !(s.table.nfds < maxPollFd)) = false
      simp [h.running, hroom]
    · exact hroom
  | unregister fd =>
    constructor
    · exact EventLoopData.represents_unregister h.entries fd
    · exact h.running
    · show (s.table.unregister fd).nfds ≤ maxPollFd
      unfold EventLoopData.unregister
      split <;> exact h.bound
  | batchUnregister => exact h.batchUnregister

/-- A compacted table has the size of the map. -/
theorem count (h : Registers s m) :
    s.eventLoopBatchUnregister.eventLoopFdCount = {fd | m fd ≠ none}.ncard := by
  show s.table.batchUnregister.nfds = _
  rw [EventLoopData.batchUnregister_nfds]
  exact h.batchUnregister.entries.length_eq

end Registers

/-- Over every run of registrations, unregistrations and compactions, the live entries are
the registrations of the map, one for each descriptor, and after a compaction nothing is
dead and the count is the size of the map. -/
theorem event_loop_is_map (fds : ℕ → Pollfd) (cbs : ℕ → EventCallback κ δ)
    (as : List (LoopAction κ δ))
    (hrun : Transition.Along EventLoop.act Permitted (.start fds cbs) as) :
    let s := as.foldl EventLoop.act (.start fds cbs)
    let m := as.foldl Registry.act fun _ => none
    (s.table.live.map Prod.fst).Nodup ∧ (∀ fd r, m fd = some r ↔ (fd, r) ∈ s.table.live) ∧
      s.crashed = false ∧
      (∀ i < s.eventLoopBatchUnregister.eventLoopFdCount,
        (s.eventLoopBatchUnregister.table.fds i).events ≠ 0) ∧
      s.eventLoopBatchUnregister.eventLoopFdCount = {fd | m fd ≠ none}.ncard := by
  intro s m
  have h : Registers s m :=
    Transition.along_simulation (fun _ _ _ hr ha => hr.act ha) (.start fds cbs) hrun
  refine ⟨h.entries.nodup, h.entries.lookup, h.running, ?_, h.count⟩
  exact EventLoopData.batchUnregister_alive s.table

/-- Five descriptors of which three go, with a compaction in between. -/
def fiveDescriptors : List (LoopAction ℕ ℕ) :=
  [.register 5 0 50 1, .register 6 0 60 1, .register 7 1 70 1, .unregister 5, .register 8 1 80 1,
    .unregister 7, .batchUnregister, .register 5 2 51 1, .unregister 8]

theorem event_loop_is_map_fiveDescriptors :
    let s := fiveDescriptors.foldl EventLoop.act (.start (fun _ => ⟨0, 0, 0⟩) fun _ => ⟨0, 0⟩)
    let m := fiveDescriptors.foldl Registry.act fun _ => none
    (s.table.live.map Prod.fst).Nodup ∧ (∀ fd r, m fd = some r ↔ (fd, r) ∈ s.table.live) ∧
      s.crashed = false ∧
      (∀ i < s.eventLoopBatchUnregister.eventLoopFdCount,
        (s.eventLoopBatchUnregister.table.fds i).events ≠ 0) ∧
      s.eventLoopBatchUnregister.eventLoopFdCount = {fd | m fd ≠ none}.ncard :=
  event_loop_is_map _ _ fiveDescriptors (by decide +kernel)

/-! ### Dispatch -/

/-- One call of a callback with what it is given. -/
structure Dispatch (κ δ : Type*) where
  onEvent : κ
  fd : ℤ
  returnedEvents : ℤ
  eventData : δ
  deriving DecidableEq, Repr

/-- The call for a slot of the table. -/
def EventLoopData.dispatch (pt : EventLoopData κ δ) (i : ℕ) : Dispatch κ δ :=
  ⟨(pt.cbs i).onEvent, (pt.fds i).fd, (pt.fds i).revents, (pt.cbs i).eventData⟩

/-- What a callback may do to the event loop. -/
inductive FdRequest (κ δ : Type*) where
  | register (fd : ℤ) (onEvent : κ) (eventData : δ) (requestedEvents : ℤ)
  | unregister (fd : ℤ)
  deriving DecidableEq, Repr

/-- What the callbacks ask for that are called one after the other. -/
def asksOf (react : List (Dispatch κ δ) → List (FdRequest κ δ)) (before : List (Dispatch κ δ)) :
    List (Dispatch κ δ) → List (FdRequest κ δ)
  | [] => []
  | d :: calls => react (before ++ [d]) ++ asksOf react (before ++ [d]) calls

theorem asksOf_concat {react : List (Dispatch κ δ) → List (FdRequest κ δ)}
    {before calls : List (Dispatch κ δ)} {d : Dispatch κ δ} :
    asksOf react before (calls ++ [d]) =
      asksOf react before calls ++ react (before ++ (calls ++ [d])) := by
  induction calls generalizing before with
  | nil => simp [asksOf]
  | cons c calls ih =>
    rw [List.cons_append, asksOf, asksOf, ih, List.append_assoc, List.append_assoc]
    rfl

namespace EventLoop

def request (s : EventLoop κ δ) : FdRequest κ δ → EventLoop κ δ
  | .register fd onEvent eventData requestedEvents =>
    s.eventLoopRegisterFd fd onEvent eventData requestedEvents
  | .unregister fd => s.eventLoopUnregisterFd fd

/-- What `event_loop_register_fd` asserts. -/
def HasRoom (s : EventLoop κ δ) : FdRequest κ δ → Prop
  | .register .. => s.eventLoopFdCount < maxPollFd
  | .unregister _ => True

theorem request_crashed (s : EventLoop κ δ) (a : FdRequest κ δ) :
    (s.request a).crashed = false ↔ s.crashed = false ∧ s.HasRoom a := by
  cases a with
  | register =>
    show (s.crashed || !(s.table.nfds < maxPollFd)) = false ↔ _
    simp [HasRoom, eventLoopFdCount]
  | unregister => exact (and_iff_left trivial).symm

/-- A call of a callback: what it does depends on all the calls so far, this one included. -/
def invoke (react : List (Dispatch κ δ) → List (FdRequest κ δ)) (s : EventLoop κ δ)
    (calls : List (Dispatch κ δ)) (d : Dispatch κ δ) : EventLoop κ δ × List (Dispatch κ δ) :=
  ((react (calls ++ [d])).foldl request s, calls ++ [d])

/-- The loop of `event_loop_step_helper` from `i` on. -/
def stepFrom (react : List (Dispatch κ δ) → List (FdRequest κ δ)) (i count : ℕ) (s : EventLoop κ δ)
    (calls : List (Dispatch κ δ)) : EventLoop κ δ × List (Dispatch κ δ) :=
  if i < s.table.nfds ∧ count ≠ 0 then
    if (s.table.fds i).events = 0 ∨ (s.table.fds i).revents = 0 then
      stepFrom react (i + 1) count s calls
    else
      let r := s.invoke react calls (s.table.dispatch i)
      stepFrom react (i + 1) (count - 1) r.1 r.2
  else (s, calls)
termination_by (count, s.table.nfds - i)

/-- `event_loop_step_helper`: the loop behind it and the calls it made. -/
def eventLoopStepHelper (react : List (Dispatch κ δ) → List (FdRequest κ δ)) (count : ℕ)
    (s : EventLoop κ δ) : EventLoop κ δ × List (Dispatch κ δ) :=
  let r := stepFrom react 0 count s []
  (r.1.eventLoopBatchUnregister, r.2)

/-- The number `poll` returns. -/
def readyCount (s : EventLoop κ δ) : ℕ :=
  (List.range s.table.nfds).countP fun i => (s.table.fds i).revents ≠ 0

/-- Whether the slot had events in `s` and its registration is still there in `v`. -/
def Due (s v : EventLoop κ δ) (i : ℕ) : Prop :=
  (s.table.fds i).revents ≠ 0 ∧ (s.table.entry i).isSome ∧ v.table.entry i = s.table.entry i

/-- The pass as it should be: the turns of the first slots, each served when it is due. -/
noncomputable def afterTurns (react : List (Dispatch κ δ) → List (FdRequest κ δ))
  (s : EventLoop κ δ) :
    ℕ → EventLoop κ δ × List (Dispatch κ δ)
  | 0 => (s, [])
  | i + 1 =>
    let r := afterTurns react s i
    open Classical in if Due s r.1 i then r.1.invoke react r.2 (s.table.dispatch i) else r

/-- What callbacks leave of the table a pass began with: entries die, and new ones have no
events. -/
structure Pass (s v : EventLoop κ δ) : Prop where
  grown : s.table.nfds ≤ v.table.nfds
  cbs : ∀ i < s.table.nfds, v.table.cbs i = s.table.cbs i
  fds : ∀ i < s.table.nfds, v.table.fds i = s.table.fds i ∨
    v.table.fds i = { s.table.fds i with events := 0 }
  added : ∀ i < v.table.nfds, s.table.nfds ≤ i → (v.table.fds i).revents = 0

namespace Pass
variable {s v : EventLoop κ δ}

protected theorem refl (s : EventLoop κ δ) : Pass s s where
  grown := le_rfl
  cbs _ _ := rfl
  fds _ _ := Or.inl rfl
  added i hi hn := absurd hi (by omega)

theorem register (h : Pass s v) (fd : ℤ) (onEvent : κ) (eventData : δ) (requestedEvents : ℤ) :
    Pass s (v.eventLoopRegisterFd fd onEvent eventData requestedEvents) := by
  have hgrown := h.grown
  constructor
  · show s.table.nfds ≤ v.table.nfds + 1
    omega
  · intro i hi
    show Function.update v.table.cbs v.table.nfds _ i = _
    rw [Function.update_of_ne (by omega)]
    exact h.cbs i hi
  · intro i hi
    show Function.update v.table.fds v.table.nfds _ i = _ ∨
      Function.update v.table.fds v.table.nfds _ i = _
    rw [Function.update_of_ne (by omega)]
    exact h.fds i hi
  · intro i hi hn
    show (Function.update v.table.fds v.table.nfds _ i).revents = 0
    rcases Nat.lt_succ_iff_lt_or_eq.mp hi with hi | rfl
    · rw [Function.update_of_ne (by omega)]
      exact h.added i hi hn
    · rw [Function.update_self]

theorem unregister (h : Pass s v) (fd : ℤ) : Pass s (v.eventLoopUnregisterFd fd) := by
  unfold eventLoopUnregisterFd EventLoopData.unregister
  split
  · exact h
  · rename_i k _
    constructor
    · exact h.grown
    · exact h.cbs
    · intro i hi
      show Function.update v.table.fds k _ i = _ ∨ Function.update v.table.fds k _ i = _
      by_cases hik : i = k
      · subst hik
        rw [Function.update_self]
        rcases h.fds i hi with he | he
        · exact Or.inr (by rw [he])
        · exact Or.inr (by rw [he])
      · rw [Function.update_of_ne hik]
        exact h.fds i hi
    · intro i hi hn
      show (Function.update v.table.fds k _ i).revents = 0
      by_cases hik : i = k
      · subst hik
        rw [Function.update_self]
        exact h.added i hi hn
      · rw [Function.update_of_ne hik]
        exact h.added i hi hn

theorem invoke (h : Pass s v) (react : List (Dispatch κ δ) → List (FdRequest κ δ))
    (calls : List (Dispatch κ δ)) (d : Dispatch κ δ) : Pass s (v.invoke react calls d).1 := by
  unfold EventLoop.invoke
  apply Transition.run_invariant (P := Pass s)
  · intro u a hu
    cases a with
    | register fd onEvent eventData requestedEvents =>
      exact hu.register fd onEvent eventData requestedEvents
    | unregister fd => exact hu.unregister fd
  · exact h

/-- The loop serves a slot exactly when it is due, and with what the slot had. -/
theorem due_iff (h : Pass s v) {i : ℕ} (hi : i < s.table.nfds) :
    Due s v i ↔ ¬ ((v.table.fds i).events = 0 ∨ (v.table.fds i).revents = 0) := by
  have hentry : v.table.fds i = s.table.fds i → v.table.entry i = s.table.entry i := by
    intro he
    unfold EventLoopData.entry
    rw [he, h.cbs i hi]
  unfold Due
  rcases h.fds i hi with he | he
  · rw [hentry he, he]
    simp only [Option.isSome_iff_ne_none, ne_eq, EventLoopData.entry_none]
    tauto
  · have hdead : (v.table.fds i).events = 0 := by rw [he]
    rw [EventLoopData.entry_none.mpr hdead]
    constructor
    · rintro ⟨-, hsome, hnone⟩
      rw [← hnone, Option.isSome_none] at hsome
      exact absurd hsome (by decide)
    · intro hno
      exact absurd (Or.inl hdead) hno

theorem dispatch_eq (h : Pass s v) {i : ℕ} (hi : i < s.table.nfds)
    (hlive : ¬ (v.table.fds i).events = 0) : v.table.dispatch i = s.table.dispatch i := by
  have he : v.table.fds i = s.table.fds i := by
    rcases h.fds i hi with he | he
    · exact he
    · rw [he] at hlive
      exact absurd rfl hlive
  unfold EventLoopData.dispatch
  rw [he, h.cbs i hi]

end Pass

section Turns
variable (react : List (Dispatch κ δ) → List (FdRequest κ δ)) (s : EventLoop κ δ)

theorem afterTurns_due {i : ℕ} (h : Due s (afterTurns react s i).1 i) : afterTurns react s (i + 1) =
    (afterTurns react s i).1.invoke react (afterTurns react s i).2 (s.table.dispatch i) :=
  if_pos h

theorem afterTurns_skip {i : ℕ} (h : ¬ Due s (afterTurns react s i).1 i) :
    afterTurns react s (i + 1) = afterTurns react s i :=
  if_neg h

/-- Behind the turns of the first slots, the loop is what the requests made of it. -/
theorem afterTurns_asks (n : ℕ) : (afterTurns react s n).1 =
    (asksOf react [] (afterTurns react s n).2).foldl request s := by
  induction n with
  | zero => rfl
  | succ n ih =>
    by_cases hdue : Due s (afterTurns react s n).1 n
    · rw [afterTurns_due react s hdue]
      unfold invoke
      dsimp only
      rw [ih, asksOf_concat, List.foldl_append]
      rfl
    · rw [afterTurns_skip react s hdue]
      exact ih

theorem afterTurns_pass (i : ℕ) : Pass s (afterTurns react s i).1 := by
  induction i with
  | zero => exact .refl s
  | succ i ih =>
    by_cases hdue : Due s (afterTurns react s i).1 i
    · rw [afterTurns_due react s hdue]
      exact ih.invoke react _ _
    · rw [afterTurns_skip react s hdue]
      exact ih

/-- Turns of slots without events change nothing. -/
theorem afterTurns_idle {i j : ℕ} (hij : i ≤ j)
    (h : ∀ k, i ≤ k → k < j → (s.table.fds k).revents = 0) :
    afterTurns react s j = afterTurns react s i := by
  induction j, hij using Nat.le_induction with
  | base => rfl
  | succ j hij ih =>
    have hno : ¬ Due s (afterTurns react s j).1 j := fun hd => hd.1 (h j hij (by omega))
    rw [afterTurns_skip react s hno]
    exact ih fun k hk hkj => h k hk (by omega)

/-- The calls of a pass are those of the due slots, in the order of the table. -/
theorem afterTurns_calls (n : ℕ) : (afterTurns react s n).2 =
    open Classical in
    ((List.range n).filter fun i => Due s (afterTurns react s i).1 i).map s.table.dispatch := by
  induction n with
  | zero => rfl
  | succ n ih =>
    rw [List.range_succ, List.filter_append, List.map_append, ← ih]
    by_cases hdue : Due s (afterTurns react s n).1 n
    · rw [afterTurns_due react s hdue]
      simp [invoke, hdue]
    · rw [afterTurns_skip react s hdue]
      simp [hdue]

/-- The slots with events among the first ones. -/
def readyBefore (i : ℕ) : ℕ := (List.range i).countP fun j => (s.table.fds j).revents ≠ 0

theorem readyBefore_succ (i : ℕ) : readyBefore s (i + 1) =
    readyBefore s i + if (s.table.fds i).revents ≠ 0 then 1 else 0 := by
  unfold readyBefore
  rw [List.range_succ, List.countP_append]
  simp [List.countP_singleton]

theorem readyBefore_mono {i j : ℕ} (hij : i ≤ j) : readyBefore s i ≤ readyBefore s j := by
  induction j, hij using Nat.le_induction with
  | base => exact le_rfl
  | succ j hij ih =>
    rw [readyBefore_succ]
    omega

/-- When as many slots were ready as there are, the rest of them is idle. -/
theorem idle_of_ready {i n : ℕ} (h : readyBefore s n ≤ readyBefore s i) {k : ℕ} (hik : i ≤ k)
    (hkn : k < n) : (s.table.fds k).revents = 0 := by
  by_contra hready
  have hbefore := readyBefore_mono s hik
  have hafter := readyBefore_mono s (show k + 1 ≤ n by omega)
  rw [readyBefore_succ, if_pos hready] at hafter
  omega

/-- The countdown never ends the loop before a due slot had its turn. -/
theorem stepFrom_eq {i count : ℕ} {v : EventLoop κ δ} {calls : List (Dispatch κ δ)}
    (hstate : (v, calls) = afterTurns react s (min i s.table.nfds))
    (hcount : readyBefore s s.table.nfds ≤ count + readyBefore s (min i s.table.nfds)) :
    stepFrom react i count v calls = afterTurns react s s.table.nfds := by
  have hpass : Pass s v := by
    have h := afterTurns_pass react s (min i s.table.nfds)
    rwa [← hstate] at h
  fun_induction stepFrom react i count v calls with
  | case1 i count v calls hloop hskip ih =>
    rcases Nat.lt_or_ge i s.table.nfds with hi | hi
    · rw [Nat.min_eq_left hi.le] at hstate hcount
      have hno : ¬ Due s v i := fun hd => (hpass.due_iff hi).mp hd hskip
      have hnext : (v, calls) = afterTurns react s (i + 1) := by
        rw [afterTurns_skip react s (by rwa [← hstate]), hstate]
      have hmin : min (i + 1) s.table.nfds = i + 1 := Nat.min_eq_left hi
      have hgrown := readyBefore_mono s (show i ≤ i + 1 by omega)
      apply ih _ _ hpass
      · rw [hmin]
        exact hnext
      · rw [hmin]
        omega
    · rw [Nat.min_eq_right hi] at hstate hcount
      apply ih _ _ hpass
      · rw [Nat.min_eq_right (by omega)]
        exact hstate
      · rw [Nat.min_eq_right (by omega)]
        exact hcount
  | case2 i count v calls hloop hserve r ih =>
    have hi : i < s.table.nfds := by
      by_contra hi
      exact hserve (Or.inr (hpass.added i hloop.1 (by omega)))
    rw [Nat.min_eq_left hi.le] at hstate hcount
    have hdue : Due s v i := (hpass.due_iff hi).mpr hserve
    have hcall : v.table.dispatch i = s.table.dispatch i :=
      hpass.dispatch_eq hi fun he => hserve (Or.inl he)
    have hnext : r = afterTurns react s (i + 1) := by
      rw [afterTurns_due react s (by rwa [← hstate]), ← hstate, ← hcall]
    apply ih
    · rw [Nat.min_eq_left hi]
      exact hnext
    · have hleft := hloop.2
      rw [Nat.min_eq_left hi, readyBefore_succ, if_pos hdue.1]
      omega
    · exact hpass.invoke react calls _
  | case3 i count v calls hstop =>
    rw [hstate]
    rcases Nat.lt_or_ge i s.table.nfds with hi | hi
    · have hzero : count = 0 := by
        by_contra hne
        exact hstop ⟨lt_of_lt_of_le hi hpass.grown, hne⟩
      subst hzero
      rw [Nat.min_eq_left hi.le] at hcount ⊢
      refine (afterTurns_idle react s hi.le fun k hk hkn => ?_).symm
      exact idle_of_ready s (by omega) hk hkn
    · rw [Nat.min_eq_right hi]

end Turns

/-- Whatever callbacks register and unregister: a pass calls the callback of every slot
that has events and whose registration is still there when its turn comes, once and with
what the slot has, and no other; then it compacts. No assertion fails meanwhile exactly when
the table has room for each registration that the callbacks ask for. -/
theorem event_loop_dispatches_once (react : List (Dispatch κ δ) → List (FdRequest κ δ))
    (s : EventLoop κ δ) :
    let r := s.eventLoopStepHelper react s.readyCount
    r.1 = (afterTurns react s s.table.nfds).1.eventLoopBatchUnregister ∧
      (r.2 = open Classical in ((List.range s.table.nfds).filter fun i =>
        Due s (afterTurns react s i).1 i).map s.table.dispatch) ∧
      (r.1.crashed = false ↔
        s.crashed = false ∧ Transition.Along request HasRoom s (asksOf react [] r.2)) := by
  have hstep : stepFrom react 0 s.readyCount s [] = afterTurns react s s.table.nfds := by
    apply stepFrom_eq
    · rw [Nat.zero_min]
      rfl
    · show readyBefore s s.table.nfds ≤ readyBefore s s.table.nfds + _
      omega
  intro r
  refine ⟨?_, ?_, ?_⟩
  · show (stepFrom react 0 s.readyCount s []).1.eventLoopBatchUnregister = _
    rw [hstep]
  · show (stepFrom react 0 s.readyCount s []).2 = _
    rw [hstep]
    exact afterTurns_calls react s s.table.nfds
  · show (stepFrom react 0 s.readyCount s []).1.crashed = false ↔ s.crashed = false ∧
      Transition.Along request HasRoom s (asksOf react [] (stepFrom react 0 s.readyCount s []).2)
    rw [hstep]
    nth_rewrite 1 [afterTurns_asks]
    exact Transition.run_flag_iff request_crashed

end EventLoop
end Nginz
