import Nginz.EventLoop.Partitioned

/-! The entries of the partitioned event loop that registrations and unregistrations access,
and when they are all inside the arrays. -/
namespace Nginz

variable {κ δ : Type*}

/-- `fd%POLL_PARTITION` as C has it: negative for a negative number that is no multiple. -/
def partIndex (fd : ℤ) : ℤ := fd.tmod pollPartition

/-- An access to `edata[part]`, to its `nfds` or to an entry of its two arrays. -/
structure ArrayAccess where
  part : ℤ
  entry : Option ℕ
  deriving DecidableEq, Repr

/-- The partition exists, and so does the entry. -/
def ArrayAccess.Inside (a : ArrayAccess) : Prop :=
  (0 ≤ a.part ∧ a.part < pollPartition) ∧ ∀ i ∈ a.entry, i < maxPollFdPerPartition

/-- The entries that the loop of `event_loop_unregister_fd` looks at. -/
def EventLoopData.visited (pt : EventLoopData κ δ) (fd : ℤ) : List ℕ :=
  match (List.range pt.nfds).find? fun i => (pt.fds i).fd = fd ∧ (pt.fds i).events ≠ 0 with
  | none => List.range pt.nfds
  | some i => List.range (i + 1)

/-- A call of `event_loop_register_fd` or `event_loop_unregister_fd`. -/
inductive LoopCall (κ δ : Type*) where
  | register (fd : ℤ) (onEvent : κ) (eventData : δ) (requestedEvents : ℤ)
  | unregister (fd : ℤ)
  deriving DecidableEq, Repr

namespace LoopCall

def fd : LoopCall κ δ → ℤ
  | register fd _ _ _ => fd
  | unregister fd => fd

def Registers : LoopCall κ δ → Prop
  | register _ _ _ _ => True
  | unregister _ => False

instance : DecidablePred (Registers (κ := κ) (δ := δ)) := by
  intro c
  cases c with
  | register => exact .isTrue trivial
  | unregister fd => exact .isFalse id

/-- The call registers a number of the partition. -/
def RegistersIn (p : Fin pollPartition) : LoopCall κ δ → Prop
  | register fd _ _ _ => partitionOf fd = p
  | unregister _ => False

instance (p : Fin pollPartition) : DecidablePred (RegistersIn (κ := κ) (δ := δ) p) := by
  intro c
  cases c with
  | register fd => exact inferInstanceAs (Decidable (partitionOf fd = p))
  | unregister fd => exact .isFalse id

theorem registersIn_register {p : Fin pollPartition} {fd : ℤ} {onEvent : κ} {eventData : δ}
    {requestedEvents : ℤ} :
    (register fd onEvent eventData requestedEvents).RegistersIn p ↔ partitionOf fd = p :=
  Iff.rfl

theorem not_registersIn_unregister {p : Fin pollPartition} {fd : ℤ} :
    ¬ (unregister fd : LoopCall κ δ).RegistersIn p :=
  id

end LoopCall

namespace PartitionedLoop

/-- The effect of a call. Behind an access outside the arrays it says nothing. -/
def loopCall (s : PartitionedLoop κ δ) : LoopCall κ δ → PartitionedLoop κ δ
  | .register fd onEvent eventData requestedEvents =>
    s.eventLoopRegisterFd fd onEvent eventData requestedEvents
  | .unregister fd => s.eventLoopUnregisterFd fd

/-- The entries of its partition that a call accesses. -/
def entries (s : PartitionedLoop κ δ) : LoopCall κ δ → List ℕ
  | .register fd _ _ _ => [(s.edata (partitionOf fd)).nfds]
  | .unregister fd => (s.edata (partitionOf fd)).visited fd

/-- The accesses of a call. In front of the arrays there is no known `nfds` that would say
which entries follow. -/
def accesses (s : PartitionedLoop κ δ) (c : LoopCall κ δ) : List ArrayAccess :=
  ⟨partIndex c.fd, none⟩ ::
    if 0 ≤ partIndex c.fd then (s.entries c).map fun i => ⟨partIndex c.fd, some i⟩ else []

/-- The assertion of `event_loop_register_fd` holds at each call. -/
def CapacityAsserted (s : PartitionedLoop κ δ) (calls : List (LoopCall κ δ)) : Prop :=
  Transition.Along loopCall (fun s c => c.Registers → s.eventLoopFdCount < maxPollFd) s calls

/-- Every access of every call is inside the arrays. -/
def StaysInside (s : PartitionedLoop κ δ) (calls : List (LoopCall κ δ)) : Prop :=
  Transition.Along loopCall (fun s c => ∀ a ∈ s.accesses c, a.Inside) s calls

end PartitionedLoop

/-! ### One call -/

theorem partIndex_nonneg {fd : ℤ} : 0 ≤ partIndex fd ↔ 0 ≤ fd ∨ (pollPartition : ℤ) ∣ fd := by
  unfold partIndex pollPartition
  rw [Int.tmod_eq_emod]
  split_ifs with h
  · exact iff_of_true (by omega) h
  · exact iff_of_false (by omega) h

theorem partIndex_lt (fd : ℤ) : partIndex fd < pollPartition :=
  Int.tmod_lt_of_pos fd (by decide)

namespace EventLoopData
variable {pt : EventLoopData κ δ}

theorem visited_lt {fd : ℤ} {i : ℕ} (h : i ∈ pt.visited fd) : i < pt.nfds := by
  unfold visited at h
  split at h
  · exact List.mem_range.mp h
  · rename_i j hj
    have hlast : j < pt.nfds := List.mem_range.mp (List.mem_of_find?_eq_some hj)
    have hi := List.mem_range.mp h
    omega

@[simp] theorem unregister_nfds (pt : EventLoopData κ δ) (fd : ℤ) :
    (pt.unregister fd).nfds = pt.nfds := by
  unfold unregister
  split <;> rfl

end EventLoopData

namespace PartitionedLoop
variable {s : PartitionedLoop κ δ}

/-- No partition has more entries than its arrays. -/
def Bounded (s : PartitionedLoop κ δ) : Prop := ∀ p, (s.edata p).nfds ≤ maxPollFdPerPartition

theorem loopCall_nfds (s : PartitionedLoop κ δ) (c : LoopCall κ δ) (p : Fin pollPartition) :
    ((s.loopCall c).edata p).nfds = (s.edata p).nfds + if c.RegistersIn p then 1 else 0 := by
  cases c with
  | register fd onEvent eventData requestedEvents =>
    change (Function.update s.edata (partitionOf fd) _ p).nfds = _
    by_cases hp : partitionOf fd = p
    · rw [if_pos (LoopCall.registersIn_register.mpr hp), hp, Function.update_self]
      rfl
    · rw [if_neg (mt LoopCall.registersIn_register.mp hp), Function.update_of_ne (Ne.symm hp),
        Nat.add_zero]
  | unregister fd =>
    change (Function.update s.edata (partitionOf fd) _ p).nfds = _
    rw [if_neg LoopCall.not_registersIn_unregister, Nat.add_zero]
    by_cases hp : p = partitionOf fd
    · subst hp
      rw [Function.update_self, EventLoopData.unregister_nfds]
    · rw [Function.update_of_ne hp]

/-- The accesses are inside if the partition exists and a registration finds room in it. -/
theorem inside_iff (h : s.Bounded) (c : LoopCall κ δ) :
    (∀ a ∈ s.accesses c, a.Inside) ↔
      (0 ≤ c.fd ∨ (pollPartition : ℤ) ∣ c.fd) ∧
        ∀ p, c.RegistersIn p → (s.edata p).nfds < maxPollFdPerPartition := by
  rw [← partIndex_nonneg]
  have hlt := partIndex_lt c.fd
  unfold accesses
  rw [List.forall_mem_cons]
  constructor
  · rintro ⟨hpart, hentries⟩
    have hnonneg : 0 ≤ partIndex c.fd := hpart.1.1
    refine ⟨hnonneg, fun p hp => ?_⟩
    rw [if_pos hnonneg] at hentries
    cases c with
    | register fd onEvent eventData requestedEvents =>
      obtain rfl : partitionOf fd = p := hp
      exact (hentries _ (List.mem_map_of_mem (List.mem_singleton_self _))).2 _ rfl
    | unregister fd => exact absurd hp LoopCall.not_registersIn_unregister
  · rintro ⟨hnonneg, hroom⟩
    refine ⟨⟨⟨hnonneg, hlt⟩, by simp⟩, ?_⟩
    rw [if_pos hnonneg]
    intro a ha
    obtain ⟨i, hi, rfl⟩ := List.mem_map.mp ha
    refine ⟨⟨hnonneg, hlt⟩, fun j hj => ?_⟩
    obtain rfl := Option.some.inj hj
    cases c with
    | register fd onEvent eventData requestedEvents =>
      rw [List.mem_singleton.mp hi]
      exact hroom _ rfl
    | unregister fd => exact (EventLoopData.visited_lt hi).trans_le (h _)

theorem bounded_loopCall (h : s.Bounded) {c : LoopCall κ δ}
    (hroom : ∀ p, c.RegistersIn p → (s.edata p).nfds < maxPollFdPerPartition) :
    (s.loopCall c).Bounded := by
  intro p
  rw [loopCall_nfds]
  split_ifs with hp
  · exact hroom p hp
  · exact h p

/-! ### Sequences of calls -/

/-- From a state whose arrays hold what they can: the calls stay inside if each number has a
partition and each partition has room for all of its registrations. -/
theorem staysInside_iff (h : s.Bounded) (calls : List (LoopCall κ δ)) :
    s.StaysInside calls ↔
      (∀ c ∈ calls, 0 ≤ c.fd ∨ (pollPartition : ℤ) ∣ c.fd) ∧
        ∀ p, (s.edata p).nfds + calls.countP (LoopCall.RegistersIn p ·) ≤
          maxPollFdPerPartition := by
  have hany : Transition.Along loopCall (fun _ _ => True) s calls :=
    Transition.along_actions_iff.mpr fun _ _ => trivial
  have hsteps : s.StaysInside calls ↔ Transition.Along loopCall
      (fun s c => (0 ≤ c.fd ∨ (pollPartition : ℤ) ∣ c.fd) ∧
        ∀ p, c.RegistersIn p → (s.edata p).nfds < maxPollFdPerPartition) s calls := by
    refine Transition.along_iff (P := Bounded) ?_ ?_ h hany
    · exact fun s c hs _ => inside_iff hs c
    · exact fun s c hs _ hc => bounded_loopCall hs ((inside_iff hs c).mp hc).2
  rw [hsteps, Transition.along_and_iff, Transition.along_actions_iff, Transition.along_forall_iff]
  refine and_congr_right fun _ => forall_congr' fun p => ?_
  rw [Transition.along_room_iff (P := fun _ => True) (fun _ _ _ => trivial)
    (fun s c _ _ => loopCall_nfds s c p) trivial]
  have hp := h p
  omega

theorem capacityAsserted_iff (s : PartitionedLoop κ δ) (calls : List (LoopCall κ δ)) :
    s.CapacityAsserted calls ↔
      calls.countP (LoopCall.Registers ·) = 0 ∨
        s.grandNfds + calls.countP (LoopCall.Registers ·) ≤ maxPollFd := by
  refine Transition.along_room_iff (P := fun _ => True) (fun _ _ _ => trivial) ?_ trivial
  intro s c _ _
  cases c with
  | register fd onEvent eventData requestedEvents => rfl
  | unregister fd => rfl

theorem bounded_start (fds : Fin pollPartition → ℕ → Pollfd)
    (cbs : Fin pollPartition → ℕ → EventCallback κ δ) : (start fds cbs).Bounded :=
  fun _ => Nat.zero_le _

end PartitionedLoop

/-- Over every sequence of registrations and unregistrations from the start, of any numbers:
the accesses stay inside the arrays exactly if no number is negative but for the multiples of
`POLL_PARTITION`, and no partition gets more registrations than its arrays hold. -/
theorem loop_stays_inside_iff (fds : Fin pollPartition → ℕ → Pollfd)
    (cbs : Fin pollPartition → ℕ → EventCallback κ δ) (calls : List (LoopCall κ δ)) :
    (PartitionedLoop.start fds cbs).StaysInside calls ↔
      (∀ c ∈ calls, 0 ≤ c.fd ∨ (pollPartition : ℤ) ∣ c.fd) ∧
        ∀ p, calls.countP (LoopCall.RegistersIn p ·) ≤ maxPollFdPerPartition := by
  rw [PartitionedLoop.staysInside_iff (PartitionedLoop.bounded_start fds cbs)]
  refine and_congr_right fun _ => forall_congr' fun p => ?_
  have hempty : ((PartitionedLoop.start fds cbs).edata p).nfds = 0 := rfl
  rw [hempty, Nat.zero_add]

/-- Registrations of the multiples of `POLL_PARTITION` from zero on. -/
def skewedCalls (n : ℕ) : List (LoopCall ℕ ℕ) :=
  (List.range n).map fun i => .register ((pollPartition * i : ℕ) : ℤ) 0 0 1

theorem skewedCalls_registers {n : ℕ} {c : LoopCall ℕ ℕ} (h : c ∈ skewedCalls n) :
    c.RegistersIn ⟨0, by decide⟩ := by
  obtain ⟨i, -, rfl⟩ := List.mem_map.mp h
  refine Fin.ext ?_
  show (((pollPartition * i : ℕ) : ℤ) % pollPartition).toNat = 0
  rw [← Int.natCast_emod, Nat.mul_mod_right]
  rfl

section Skewed
variable {s : PartitionedLoop ℕ ℕ} {n : ℕ}

theorem skewedCalls_length (n : ℕ) : (skewedCalls n).length = n := by
  rw [skewedCalls, List.length_map, List.length_range]

/-- More registrations in one partition than it has room for, and fewer than the assertion
permits. -/
theorem skewedCalls_overrun (hbounded : s.Bounded) (hempty : s.grandNfds = 0)
    (hmany : maxPollFdPerPartition < n) (hfew : n ≤ maxPollFd) :
    s.CapacityAsserted (skewedCalls n) ∧ ¬ s.StaysInside (skewedCalls n) := by
  have hcount := List.countP_le_length (p := (LoopCall.Registers ·)) (l := skewedCalls n)
  rw [skewedCalls_length] at hcount
  refine ⟨(s.capacityAsserted_iff _).mpr (.inr ?_), fun h => ?_⟩
  · rw [hempty, Nat.zero_add]
    exact hcount.trans hfew
  · have hroom := ((PartitionedLoop.staysInside_iff hbounded _).mp h).2 ⟨0, by decide⟩
    rw [List.countP_eq_length.mpr fun c hc => decide_eq_true (skewedCalls_registers hc),
      skewedCalls_length] at hroom
    omega

end Skewed

/-- On the teardown path the number -1 is unregistered in front of the arrays, and 2501
registrations in one partition overrun its arrays, far below the asserted capacity. -/
theorem loop_leaves_arrays :
    let s : PartitionedLoop ℕ ℕ := .start (fun _ _ => ⟨0, 0, 0⟩) fun _ _ => ⟨0, 0⟩
    (s.CapacityAsserted [.unregister (-1)] ∧ ¬ s.StaysInside [.unregister (-1)]) ∧
      s.CapacityAsserted (skewedCalls 2501) ∧ ¬ s.StaysInside (skewedCalls 2501) := by
  intro s
  have hbounded : s.Bounded := PartitionedLoop.bounded_start _ _
  refine ⟨⟨⟨False.elim, trivial⟩, fun h => ?_⟩,
    skewedCalls_overrun hbounded rfl (by decide) (by decide)⟩
  have hpart := ((PartitionedLoop.staysInside_iff hbounded _).mp h).1 _ List.mem_cons_self
  exact absurd hpart (by decide)

end Nginz
