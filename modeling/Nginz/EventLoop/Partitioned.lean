import Nginz.EventLoop.Poll

/-! `event_loop_partitioned_openmp_poll.c`: the same event loop over partitions of the
descriptors. -/
namespace Nginz
open Compaction KeyedEntries
open scoped List

variable {κ δ : Type*}

/-- `POLL_PARTITION` and `MAX_POLL_FD_PER_PARTITION`. -/
def pollPartition : ℕ := 8
def maxPollFdPerPartition : ℕ := maxPollFd / pollPartition

/-- `fd%POLL_PARTITION` of a number that is not negative. -/
def partitionOf (fd : ℤ) : Fin pollPartition :=
  ⟨(fd % pollPartition).toNat, by unfold pollPartition; omega⟩

/-- `edata`, `grand_nfds`, and whether an assertion failed. -/
structure PartitionedLoop (κ δ : Type*) where
  edata : Fin pollPartition → EventLoopData κ δ
  grandNfds : ℕ
  crashed : Bool

namespace PartitionedLoop

/-- After `event_loop_module_init`. -/
def start (fds : Fin pollPartition → ℕ → Pollfd) (cbs : Fin pollPartition → ℕ → EventCallback κ δ) :
    PartitionedLoop κ δ :=
  ⟨fun p => ⟨fds p, cbs p, 0⟩, 0, false⟩

def eventLoopFdCount (s : PartitionedLoop κ δ) : ℕ := s.grandNfds

def setPart (s : PartitionedLoop κ δ) (p : Fin pollPartition)
    (f : EventLoopData κ δ → EventLoopData κ δ) : PartitionedLoop κ δ :=
  { s with edata := Function.update s.edata p (f (s.edata p)) }

def eventLoopRegisterFd (s : PartitionedLoop κ δ) (fd : ℤ) (onEvent : κ) (eventData : δ)
    (requestedEvents : ℤ) : PartitionedLoop κ δ :=
  let crashed := s.crashed || !(s.eventLoopFdCount < maxPollFd)
  let s := s.setPart (partitionOf fd) fun pt => pt.append fd onEvent eventData requestedEvents
  { s with grandNfds := s.grandNfds + 1, crashed := crashed }

def eventLoopUnregisterFd (s : PartitionedLoop κ δ) (fd : ℤ) : PartitionedLoop κ δ :=
  s.setPart (partitionOf fd) fun pt => pt.unregister fd

/-- `event_loop_batch_unregister` of one partition. -/
def eventLoopBatchUnregister (s : PartitionedLoop κ δ) (p : Fin pollPartition) :
    PartitionedLoop κ δ :=
  s.setPart p EventLoopData.batchUnregister

/-- The end of `event_loop_step`. -/
def fixGrandTotal (s : PartitionedLoop κ δ) : PartitionedLoop κ δ :=
  { s with grandNfds := ((List.finRange pollPartition).map fun p => (s.edata p).nfds).sum }

/-- All partitions compacted and the total recomputed. -/
def compactAll (s : PartitionedLoop κ δ) : PartitionedLoop κ δ :=
  ((List.finRange pollPartition).foldl eventLoopBatchUnregister s).fixGrandTotal

/-- The live registrations of all partitions. -/
def live (s : PartitionedLoop κ δ) : List (ℤ × Registration κ δ) :=
  (List.finRange pollPartition).flatMap fun p => (s.edata p).live

end PartitionedLoop

/-- Registrations and unregistrations reach both event loops; each compacts when it likes. -/
inductive SharedAction (κ δ : Type*) where
  | register (fd : ℤ) (onEvent : κ) (eventData : δ) (requestedEvents : ℤ)
  | unregister (fd : ℤ)
  | compactPlain
  | compactPart (p : Fin pollPartition)
  | fixTotal
  deriving DecidableEq, Repr

/-- The two event loops side by side. -/
def sharedStep (s : EventLoop κ δ × PartitionedLoop κ δ) :
    SharedAction κ δ → EventLoop κ δ × PartitionedLoop κ δ
  | .register fd onEvent eventData requestedEvents =>
    (s.1.eventLoopRegisterFd fd onEvent eventData requestedEvents,
      s.2.eventLoopRegisterFd fd onEvent eventData requestedEvents)
  | .unregister fd => (s.1.eventLoopUnregisterFd fd, s.2.eventLoopUnregisterFd fd)
  | .compactPlain => (s.1.eventLoopBatchUnregister, s.2)
  | .compactPart p => (s.1, s.2.eventLoopBatchUnregister p)
  | .fixTotal => (s.1, s.2.fixGrandTotal)

/-- A registration asks for something, has no negative descriptor, is the only live one of it
and fits into its partition. -/
def SharedPermitted (s : EventLoop κ δ × PartitionedLoop κ δ) : SharedAction κ δ → Prop
  | .register fd _ _ requestedEvents =>
    requestedEvents ≠ 0 ∧ 0 ≤ fd ∧ fd ∉ s.1.table.live.map Prod.fst ∧
      (s.2.edata (partitionOf fd)).nfds < maxPollFdPerPartition
  | .unregister fd => 0 ≤ fd
  | _ => True

instance (s : EventLoop κ δ × PartitionedLoop κ δ) (a : SharedAction κ δ) :
    Decidable (SharedPermitted s a) := by
  cases a with
  | register => exact inferInstanceAs (Decidable (_ ∧ _))
  | unregister fd => exact inferInstanceAs (Decidable (0 ≤ fd))
  | compactPlain => exact .isTrue trivial
  | compactPart p => exact .isTrue trivial
  | fixTotal => exact .isTrue trivial

/-- What both event loops assert of a registration. -/
def SharedRoom (s : EventLoop κ δ × PartitionedLoop κ δ) : SharedAction κ δ → Prop
  | .register .. => s.1.eventLoopFdCount < maxPollFd ∧ s.2.eventLoopFdCount < maxPollFd
  | _ => True

/-- Whether an assertion of either event loop failed. -/
def sharedCrashed (s : EventLoop κ δ × PartitionedLoop κ δ) : Bool := s.1.crashed || s.2.crashed

theorem sharedStep_crashed (s : EventLoop κ δ × PartitionedLoop κ δ) (a : SharedAction κ δ) :
    sharedCrashed (sharedStep s a) = false ↔ sharedCrashed s = false ∧ SharedRoom s a := by
  cases a with
  | register fd onEvent eventData requestedEvents =>
    show ((s.1.crashed || !(s.1.eventLoopFdCount < maxPollFd)) ||
      (s.2.crashed || !(s.2.eventLoopFdCount < maxPollFd))) = false ↔ _
    simp only [sharedCrashed, SharedRoom, Bool.or_eq_false_iff, Bool.not_eq_false',
      decide_eq_true_eq]
    tauto
  | _ => exact (and_iff_left trivial).symm

/-! ### The simulation -/

/-- Each partition has the registrations of its own descriptors. -/
structure Partitioned (s : PartitionedLoop κ δ) (m : Registry κ δ) : Prop where
  part : ∀ p, Represents (s.edata p).live fun fd => if partitionOf fd = p then m fd else none
  bound : ∀ p, (s.edata p).nfds ≤ maxPollFdPerPartition

namespace Partitioned
variable {s : PartitionedLoop κ δ} {m : Registry κ δ}

theorem start (fds : Fin pollPartition → ℕ → Pollfd)
    (cbs : Fin pollPartition → ℕ → EventCallback κ δ) :
    Partitioned (.start fds cbs) fun _ => none where
  part p := by
    simp only [ite_self]
    exact .nil
  bound p := Nat.zero_le _

/-- A change of the map at one descriptor is a change of its partition. -/
theorem update_part (m : Registry κ δ) (fd : ℤ) (x : Option (Registration κ δ))
    (p : Fin pollPartition) :
    (fun fd' => if partitionOf fd' = p then Function.update m fd x fd' else none) =
      if partitionOf fd = p then
        Function.update (fun fd' => if partitionOf fd' = p then m fd' else none) fd x
      else fun fd' => if partitionOf fd' = p then m fd' else none := by
  by_cases hp : partitionOf fd = p
  · rw [if_pos hp]
    funext fd'
    by_cases hfd : fd' = fd
    · subst hfd
      simp [hp]
    · simp [hfd]
  · rw [if_neg hp]
    funext fd'
    by_cases hfd : fd' = fd
    · subst hfd
      simp [hp]
    · simp [hfd]

/-- An operation on one partition that is the one of the map there. -/
theorem setPart (h : Partitioned s m) {fd : ℤ} {x : Option (Registration κ δ)}
    {f : EventLoopData κ δ → EventLoopData κ δ}
    (hf : ∀ m', Represents (s.edata (partitionOf fd)).live m' → m' fd = m fd →
      Represents (f (s.edata (partitionOf fd))).live (Function.update m' fd x))
    (hb : (f (s.edata (partitionOf fd))).nfds ≤ maxPollFdPerPartition) :
    Partitioned (s.setPart (partitionOf fd) f) (Function.update m fd x) where
  part p := by
    rw [update_part]
    unfold PartitionedLoop.setPart
    dsimp only
    by_cases hp : partitionOf fd = p
    · subst hp
      rw [if_pos rfl, Function.update_self]
      exact hf _ (h.part _) (if_pos rfl)
    · rw [if_neg hp, Function.update_of_ne (Ne.symm hp)]
      exact h.part p
  bound p := by
    unfold PartitionedLoop.setPart
    dsimp only
    by_cases hp : p = partitionOf fd
    · subst hp
      rw [Function.update_self]
      exact hb
    · rw [Function.update_of_ne hp]
      exact h.bound p

theorem register (h : Partitioned s m) {fd : ℤ} (hfd : m fd = none) (onEvent : κ) (eventData : δ)
    {requestedEvents : ℤ} (he : requestedEvents ≠ 0)
    (hroom : (s.edata (partitionOf fd)).nfds < maxPollFdPerPartition) :
    Partitioned (s.eventLoopRegisterFd fd onEvent eventData requestedEvents)
      (Function.update m fd (some ⟨onEvent, eventData, requestedEvents⟩)) := by
  have hset : Partitioned (s.setPart (partitionOf fd) fun pt =>
      pt.append fd onEvent eventData requestedEvents)
      (Function.update m fd (some ⟨onEvent, eventData, requestedEvents⟩)) := by
    apply h.setPart
    · intro m' hm hsame
      exact EventLoopData.represents_append hm (hsame.trans hfd) onEvent eventData he
    · exact hroom
  exact ⟨hset.part, hset.bound⟩

theorem unregister (h : Partitioned s m) (fd : ℤ) :
    Partitioned (s.eventLoopUnregisterFd fd) (Function.update m fd none) := by
  apply h.setPart
  · intro m' hm _
    exact EventLoopData.represents_unregister hm fd
  · unfold EventLoopData.unregister
    split <;> exact h.bound _

theorem batch (h : Partitioned s m) (p : Fin pollPartition) :
    Partitioned (s.eventLoopBatchUnregister p) m where
  part p' := by
    unfold PartitionedLoop.eventLoopBatchUnregister PartitionedLoop.setPart
    dsimp only
    by_cases hp : p' = p
    · subst hp
      rw [Function.update_self]
      exact EventLoopData.represents_batch (h.part _)
    · rw [Function.update_of_ne hp]
      exact h.part p'
  bound p' := by
    unfold PartitionedLoop.eventLoopBatchUnregister PartitionedLoop.setPart
    dsimp only
    by_cases hp : p' = p
    · subst hp
      rw [Function.update_self]
      exact (EventLoopData.batchUnregister_nfds_le _).trans (h.bound _)
    · rw [Function.update_of_ne hp]
      exact h.bound p'

theorem fixGrandTotal (h : Partitioned s m) : Partitioned s.fixGrandTotal m := ⟨h.part, h.bound⟩

/-- A live registration is in the partition of its descriptor. -/
theorem mem_part (h : Partitioned s m) {p : Fin pollPartition} {fd : ℤ} {r : Registration κ δ}
    (hmem : (fd, r) ∈ (s.edata p).live) : p = partitionOf fd := by
  have hlookup := ((h.part p).lookup fd r).mpr hmem
  by_contra hp
  rw [if_neg fun he => hp he.symm] at hlookup
  exact absurd hlookup (by simp)

/-- All partitions together have the registrations of the map. -/
theorem represents (h : Partitioned s m) : Represents s.live m where
  nodup := by
    unfold PartitionedLoop.live
    rw [List.map_flatMap, List.nodup_flatMap]
    constructor
    · exact fun p _ => (h.part p).nodup
    · refine (List.nodup_finRange pollPartition).imp ?_
      intro p p' hne fd hfd hfd'
      obtain ⟨⟨fd1, r⟩, hr, rfl⟩ := List.mem_map.mp hfd
      obtain ⟨⟨fd2, r'⟩, hr', he⟩ := List.mem_map.mp hfd'
      obtain rfl : fd2 = fd1 := he
      exact hne ((h.mem_part hr).trans (h.mem_part hr').symm)
  lookup fd r := by
    unfold PartitionedLoop.live
    rw [List.mem_flatMap]
    constructor
    · intro hm
      refine ⟨partitionOf fd, List.mem_finRange _, ?_⟩
      rw [← (h.part _).lookup, if_pos rfl]
      exact hm
    · rintro ⟨p, -, hmem⟩
      obtain rfl := h.mem_part hmem
      have hlookup := ((h.part _).lookup fd r).mpr hmem
      rwa [if_pos rfl] at hlookup

end Partitioned

/-- Both event loops have the registrations of one map. -/
structure Agree (s : EventLoop κ δ × PartitionedLoop κ δ) (m : Registry κ δ) : Prop where
  plain : Represents s.1.table.live m
  parts : Partitioned s.2 m

/-- What the operations are for the map. -/
def Registry.sharedAct (m : Registry κ δ) : SharedAction κ δ → Registry κ δ
  | .register fd onEvent eventData requestedEvents =>
    Function.update m fd (some ⟨onEvent, eventData, requestedEvents⟩)
  | .unregister fd => Function.update m fd none
  | _ => m

theorem Agree.step {s : EventLoop κ δ × PartitionedLoop κ δ} {m : Registry κ δ} (h : Agree s m)
    {a : SharedAction κ δ} (ha : SharedPermitted s a) : Agree (sharedStep s a) (m.sharedAct a) := by
  cases a with
  | register fd onEvent eventData requestedEvents =>
    obtain ⟨he, -, hfd, hroom⟩ := ha
    have hnone : m fd = none := (h.plain.absent_iff fd).mpr hfd
    exact ⟨EventLoopData.represents_append h.plain hnone _ _ he,
      h.parts.register hnone _ _ he hroom⟩
  | unregister fd => exact ⟨EventLoopData.represents_unregister h.plain fd, h.parts.unregister fd⟩
  | compactPlain => exact ⟨EventLoopData.represents_batch h.plain, h.parts⟩
  | compactPart p => exact ⟨h.plain, h.parts.batch p⟩
  | fixTotal => exact ⟨h.plain, h.parts.fixGrandTotal⟩

namespace PartitionedLoop

/-- Compacting some partitions compacts each of them. -/
theorem foldl_batch (ps : List (Fin pollPartition)) (s : PartitionedLoop κ δ)
    (p : Fin pollPartition) (h : p ∈ ps ∨ (s.edata p).nfds = (s.edata p).live.length) :
    ((ps.foldl eventLoopBatchUnregister s).edata p).nfds =
      ((ps.foldl eventLoopBatchUnregister s).edata p).live.length := by
  induction ps generalizing s with
  | nil =>
    rcases h with h | h
    · exact absurd h List.not_mem_nil
    · exact h
  | cons p' ps ih =>
    apply ih
    by_cases hp : p = p'
    · right
      subst hp
      show (Function.update s.edata p _ p).nfds = (Function.update s.edata p _ p).live.length
      rw [Function.update_self]
      exact EventLoopData.batchUnregister_nfds _
    · rcases h with h | h
      · left
        exact List.mem_of_ne_of_mem hp h
      · right
        show (Function.update s.edata p' _ p).nfds = (Function.update s.edata p' _ p).live.length
        rw [Function.update_of_ne hp]
        exact h

/-- Compacted and recomputed, the total is the number of live registrations. -/
theorem compactAll_count (s : PartitionedLoop κ δ) :
    s.compactAll.eventLoopFdCount = s.compactAll.live.length := by
  show ((List.finRange pollPartition).map fun p =>
    (((List.finRange pollPartition).foldl eventLoopBatchUnregister s).edata p).nfds).sum =
    ((List.finRange pollPartition).flatMap fun p =>
      (((List.finRange pollPartition).foldl eventLoopBatchUnregister s).edata p).live).length
  rw [List.length_flatMap]
  congr 1
  apply List.map_congr_left
  intro p hp
  exact foldl_batch _ s p (Or.inl hp)

end PartitionedLoop

theorem Agree.compactAll {s : EventLoop κ δ × PartitionedLoop κ δ} {m : Registry κ δ}
    (h : Agree s m) :
    Agree (s.1.eventLoopBatchUnregister, s.2.compactAll) m := by
  refine ⟨EventLoopData.represents_batch h.plain, Partitioned.fixGrandTotal ?_⟩
  apply Transition.run_invariant (P := fun v => Partitioned v m)
  · exact fun v p hv => hv.batch p
  · exact h.parts

/-- Over every run of registrations and unregistrations, however the two event loops compact
meanwhile: they have the same live registrations, each in the partition of its descriptor,
and their counts agree once both are compacted. No assertion of either fails exactly when the
count of each is below the limit at every registration. -/
theorem partitioned_refines_plain (fds : ℕ → Pollfd) (cbs : ℕ → EventCallback κ δ)
    (partFds : Fin pollPartition → ℕ → Pollfd)
    (partCbs : Fin pollPartition → ℕ → EventCallback κ δ) (as : List (SharedAction κ δ))
    (hrun : Transition.Along sharedStep SharedPermitted
      (.start fds cbs, .start partFds partCbs) as) :
    let s := as.foldl sharedStep (.start fds cbs, .start partFds partCbs)
    s.2.live ~ s.1.table.live ∧ (s.1.table.live.map Prod.fst).Nodup ∧
      (∀ p fd r, (fd, r) ∈ (s.2.edata p).live → (p : ℤ) = fd % pollPartition) ∧
      s.2.compactAll.eventLoopFdCount = s.1.eventLoopBatchUnregister.eventLoopFdCount ∧
      (sharedCrashed s = false ↔
        Transition.Along sharedStep SharedRoom (.start fds cbs, .start partFds partCbs) as) := by
  intro s
  have hstart : Agree ((.start fds cbs, .start partFds partCbs) :
      EventLoop κ δ × PartitionedLoop κ δ) fun _ => none := ⟨.nil, .start partFds partCbs⟩
  have h : Agree s (as.foldl Registry.sharedAct fun _ => none) :=
    Transition.along_simulation (fun _ _ _ hr ha => hr.step ha) hstart hrun
  refine ⟨h.parts.represents.unique h.plain, h.plain.nodup, ?_, ?_, ?_⟩
  · intro p fd r hmem
    rw [h.parts.mem_part hmem]
    show ((fd % pollPartition).toNat : ℤ) = _
    unfold pollPartition
    omega
  · have hall := h.compactAll
    show s.2.compactAll.eventLoopFdCount = s.1.table.batchUnregister.nfds
    rw [PartitionedLoop.compactAll_count, EventLoopData.batchUnregister_nfds]
    exact (hall.parts.represents.unique hall.plain).length_eq
  · rw [Transition.run_flag_iff sharedStep_crashed]
    exact and_iff_right rfl

/-- Descriptors of two partitions that come and go between compactions. -/
def twoPartitions : List (SharedAction ℕ ℕ) :=
  [.register 8 0 80 1, .register 16 0 160 1, .register 9 1 90 1, .unregister 8, .compactPlain,
    .register 24 1 240 1, .unregister 9, .compactPart (partitionOf 8), .fixTotal,
      .register 8 2 81 1]

theorem partitioned_refines_plain_twoPartitions :
    let s := twoPartitions.foldl sharedStep
      (.start (fun _ => ⟨0, 0, 0⟩) fun _ => ⟨0, 0⟩, .start (fun _ _ => ⟨0, 0, 0⟩) fun _ _ => ⟨0, 0⟩)
    s.2.live ~ s.1.table.live ∧ (s.1.table.live.map Prod.fst).Nodup ∧
      (∀ p fd r, (fd, r) ∈ (s.2.edata p).live → (p : ℤ) = fd % pollPartition) ∧
      s.2.compactAll.eventLoopFdCount = s.1.eventLoopBatchUnregister.eventLoopFdCount ∧
      (sharedCrashed s = false ↔ Transition.Along sharedStep SharedRoom
        (.start (fun _ => ⟨0, 0, 0⟩) fun _ => ⟨0, 0⟩,
          .start (fun _ _ => ⟨0, 0, 0⟩) fun _ _ => ⟨0, 0⟩) twoPartitions) :=
  partitioned_refines_plain _ _ _ _ twoPartitions (by decide +kernel)

end Nginz
