import Mathlib.Data.List.TakeWhile
import Nginz.Net.Protostack

/-! Starting and stopping the listeners, over every pattern of failures. -/
namespace Nginz

/-- What the listener asks of the kernel and of the event loop, with the number it is about. -/
inductive ListenerCall (α : Type*) where
  | socket (fd : ℤ)
  | close (fd : ℤ)
  | registerFd (fd : ℤ) (stack : α)
  | unregisterFd (fd : ℤ)
  deriving DecidableEq, Repr

/-- What `socket`, `bind` and `listen` return for a slot. -/
structure SocketAttempt where
  socket : ℤ
  bind : ℤ
  listen : ℤ
  deriving DecidableEq, Repr

/-- All three calls succeed. -/
def SocketAttempt.Listens (a : SocketAttempt) : Prop := 0 ≤ a.socket ∧ 0 ≤ a.bind ∧ 0 ≤ a.listen

instance (a : SocketAttempt) : Decidable a.Listens :=
  inferInstanceAs (Decidable (_ ∧ _ ∧ _))

/-- What the kernel returns for the slots: -1 or a number that is not open. -/
structure KernelAnswers where
  attempt : ℕ → SocketAttempt
  failed : ∀ i, (attempt i).socket < 0 → (attempt i).socket = -1
  fresh : ∀ i j, i < j → (attempt i).Listens → (attempt j).socket ≠ (attempt i).socket

/-- `tcp_sockets`, and the calls so far. -/
structure TcpListener (α : Type*) where
  tcpSockets : ℕ → ℤ
  log : List (ListenerCall α)

variable {α : Type*}

namespace TcpListener

def initial : TcpListener α := ⟨fun _ => -1, []⟩

def emit (s : TcpListener α) (calls : List (ListenerCall α)) : TcpListener α :=
  { s with log := s.log ++ calls }

end TcpListener

/-- The body of the loop of `tcp_listener_start`, or `none` where an assertion fails. -/
def startSlot (t : Protostacks α) (tcpPorts : ℕ → ℤ) (answers : KernelAnswers) (s : TcpListener α)
    (i : ℕ) : Option (TcpListener α) :=
  let a := answers.attempt i
  if s.tcpSockets i ≠ -1 then none
  else
    let s := { s with tcpSockets := Function.update s.tcpSockets i a.socket }
    if a.socket < 0 then some s
    else if a.bind < 0 then some (s.emit [.socket a.socket, .close a.socket])
    else if a.listen < 0 then some (s.emit [.socket a.socket, .close a.socket])
    else
      match protostackGet t (tcpPorts i) with
      | none => none
      | some stack => some (s.emit [.socket a.socket, .registerFd a.socket stack])

/-- The slots that the loop of `tcp_listener_start` visits. -/
def startedSlots (tcpPorts : ℕ → ℤ) : List ℕ :=
  (List.range nginzMaxProto).takeWhile fun i => tcpPorts i ≠ 0

/-- `tcp_listener_start`. -/
def tcpListenerStart (t : Protostacks α) (tcpPorts : ℕ → ℤ) (answers : KernelAnswers)
    (s : TcpListener α) : Option (TcpListener α) :=
  if tcpPorts 0 = 0 then none
  else (startedSlots tcpPorts).foldlM (startSlot t tcpPorts answers) s

/-- The calls that `tcp_listener_stop` makes for a slot. -/
def stopSlotCalls (fd : ℤ) : List (ListenerCall α) :=
  .unregisterFd fd :: if fd > 0 then [.close fd] else []

/-- `tcp_listener_init` in the master, up to its plugs. -/
def tcpListenerInit (t : Protostacks α) (answers : KernelAnswers) : Option (TcpListener α) :=
  tcpListenerStart t (protostackGetPortsInternal t fun _ => 0) answers .initial

/-- The body of the loop of `tcp_listener_stop`. -/
def stopSlot (s : TcpListener α) (i : ℕ) : TcpListener α :=
  { s.emit (stopSlotCalls (s.tcpSockets i)) with
    tcpSockets := Function.update s.tcpSockets i (-1) }

/-- The slots that the loop of `tcp_listener_stop` visits: it writes none before its test. -/
def stoppedSlots (s : TcpListener α) : List ℕ :=
  (List.range nginzMaxProto).takeWhile fun i => s.tcpSockets i ≠ -1

/-- `tcp_listener_stop`. -/
def tcpListenerStop (s : TcpListener α) : TcpListener α := (stoppedSlots s).foldl stopSlot s

/-! ### What the calls amount to -/

/-- The open descriptors after a call. -/
def descriptorsAfter (fds : List ℤ) : ListenerCall α → List ℤ
  | .socket fd => fd :: fds
  | .close fd => fds.filter (· ≠ fd)
  | .registerFd _ _ => fds
  | .unregisterFd _ => fds

def descriptors (log : List (ListenerCall α)) : List ℤ := log.foldl descriptorsAfter []

def closed : List (ListenerCall α) → List ℤ :=
  List.filterMap fun
    | .close fd => some fd
    | _ => none

def registered : List (ListenerCall α) → List ℤ :=
  List.filterMap fun
    | .registerFd fd _ => some fd
    | _ => none

def unregistered : List (ListenerCall α) → List ℤ :=
  List.filterMap fun
    | .unregisterFd fd => some fd
    | _ => none

/-- The calls of `tcp_listener_stop` alone. -/
def TcpListener.stopCalls (s : TcpListener α) : List (ListenerCall α) :=
  (tcpListenerStop s).log.drop s.log.length

/-- Stopped now, the listener unregisters and closes each registered open socket once, closes
none that is not open, and leaves every slot at -1. -/
structure StopUndoes (s : TcpListener α) : Prop where
  once : ∀ fd ∈ registered s.log, fd ∈ descriptors s.log →
    (unregistered s.stopCalls).count fd = 1 ∧ (closed s.stopCalls).count fd = 1
  owned : Transition.Along descriptorsAfter (fun fds c => ∀ fd, c = .close fd → fd ∈ fds)
    (descriptors s.log) s.stopCalls
  free : ∀ i < nginzMaxProto, (tcpListenerStop s).tcpSockets i = -1

/-- What stopping relies on: the positive sockets are those that listen, and none is created
behind one that was not. -/
structure StopsClean (tcpPorts : ℕ → ℤ) (answers : KernelAnswers) : Prop where
  listens_iff : ∀ i ∈ startedSlots tcpPorts,
    (answers.attempt i).Listens ↔ 0 < (answers.attempt i).socket
  no_gap : ∀ i ∈ startedSlots tcpPorts, ∀ j ∈ startedSlots tcpPorts, i < j →
    (answers.attempt i).socket = -1 → (answers.attempt j).socket = -1

/-! ### Starting -/

theorem takeWhile_range_eq (n : ℕ) (p : ℕ → Bool) :
    (List.range n).takeWhile p = List.range ((List.range n).takeWhile p).length := by
  have htake := List.prefix_iff_eq_take.mp (List.takeWhile_prefix p (l := List.range n))
  have hle := (List.takeWhile_sublist p (l := List.range n)).length_le
  rw [List.length_range] at hle
  rw [List.take_range, Nat.min_eq_left hle] at htake
  exact htake

theorem mem_takeWhile_range {n i : ℕ} {p : ℕ → Bool} :
    i ∈ (List.range n).takeWhile p ↔ i < n ∧ ∀ j ≤ i, p j := by
  constructor
  · intro hi
    refine ⟨List.mem_range.mp ((List.takeWhile_sublist p).subset hi), fun j hj => ?_⟩
    rw [takeWhile_range_eq, List.mem_range] at hi
    refine List.mem_takeWhile_imp (l := List.range n) ?_
    rw [takeWhile_range_eq]
    exact List.mem_range.mpr (hj.trans_lt hi)
  · rintro ⟨hi, hall⟩
    obtain ⟨k, rfl⟩ := Nat.exists_eq_add_of_le hi
    have hpos : ∀ j ∈ List.range (i + 1), p j :=
      fun j hj => hall j (Nat.le_of_lt_succ (List.mem_range.mp hj))
    rw [List.range_add, List.takeWhile_append_of_pos hpos]
    exact List.mem_append_left _ (List.mem_range.mpr (Nat.lt_succ_self i))

section Start
variable {t : Protostacks α} {tcpPorts : ℕ → ℤ} {answers : KernelAnswers} {s s' : TcpListener α}
  {k : ℕ}

/-- A slot is left with what `socket` returned, whatever became of it. -/
theorem startSlot_cases {a : SocketAttempt} (ha : answers.attempt k = a)
    (h : startSlot t tcpPorts answers s k = some s') :
    s'.tcpSockets = Function.update s.tcpSockets k a.socket ∧
      (a.socket < 0 ∧ s'.log = s.log ∨
        0 ≤ a.socket ∧ ¬ a.Listens ∧ s'.log = s.log ++ [.socket a.socket, .close a.socket] ∨
        a.Listens ∧ ∃ stack, s'.log = s.log ++ [.socket a.socket, .registerFd a.socket stack]) := by
  subst ha
  unfold startSlot at h
  dsimp only at h
  split_ifs at h with hslot hsocket hbind hlisten
  · cases h
    exact ⟨rfl, .inl ⟨hsocket, rfl⟩⟩
  · cases h
    refine ⟨rfl, .inr (.inl ⟨Int.not_lt.mp hsocket, ?_, rfl⟩)⟩
    exact fun hl => absurd hbind (Int.not_lt.mpr hl.2.1)
  · cases h
    refine ⟨rfl, .inr (.inl ⟨Int.not_lt.mp hsocket, ?_, rfl⟩)⟩
    exact fun hl => absurd hlisten (Int.not_lt.mpr hl.2.2)
  · split at h
    · cases h
    · rename_i stack hstack
      cases h
      refine ⟨rfl, .inr (.inr ⟨?_, stack, rfl⟩)⟩
      exact ⟨Int.not_lt.mp hsocket, Int.not_lt.mp hbind, Int.not_lt.mp hlisten⟩

/-- No two slots listen on one descriptor. -/
theorem KernelAnswers.listens_inj {i j : ℕ} (hi : (answers.attempt i).Listens)
    (hj : (answers.attempt j).Listens)
    (h : (answers.attempt i).socket = (answers.attempt j).socket) : i = j := by
  rcases lt_trichotomy i j with hij | hij | hij
  · exact absurd h.symm (answers.fresh i j hij hi)
  · exact hij
  · exact absurd h (answers.fresh j i hij hj)

/-- A descriptor is the socket of one of the first slots, which listens. -/
def KernelAnswers.ListensBelow (answers : KernelAnswers) (k : ℕ) (fd : ℤ) : Prop :=
  ∃ i < k, (answers.attempt i).Listens ∧ (answers.attempt i).socket = fd

theorem KernelAnswers.listensBelow_succ {fd : ℤ} : answers.ListensBelow (k + 1) fd ↔
    answers.ListensBelow k fd ∨ (answers.attempt k).Listens ∧ (answers.attempt k).socket = fd :=
  Nat.exists_lt_succ_right

/-- The state in which the loop of `tcp_listener_start` enters the slot. -/
structure Started (answers : KernelAnswers) (k : ℕ) (s : TcpListener α) : Prop where
  slots : ∀ i, s.tcpSockets i = if i < k then (answers.attempt i).socket else -1
  opened : ∀ fd, fd ∈ descriptors s.log ↔ answers.ListensBelow k fd
  registers : ∀ fd, fd ∈ registered s.log ↔ answers.ListensBelow k fd

theorem started_initial : Started answers 0 (TcpListener.initial : TcpListener α) where
  slots _ := rfl
  opened fd := by simp [TcpListener.initial, descriptors, KernelAnswers.ListensBelow]
  registers fd := by simp [TcpListener.initial, registered, KernelAnswers.ListensBelow]

theorem startSlot_started (hs : Started answers k s)
    (h : startSlot t tcpPorts answers s k = some s') : Started answers (k + 1) s' := by
  obtain ⟨hsockets, hlog⟩ := startSlot_cases rfl h
  have hslots (i : ℕ) :
      s'.tcpSockets i = if i < k + 1 then (answers.attempt i).socket else -1 := by
    rw [hsockets]
    by_cases hi : i = k
    · rw [hi, Function.update_self, if_pos (Nat.lt_succ_self k)]
    · rw [Function.update_of_ne hi, hs.slots]
      exact if_congr (by omega) rfl rfl
  rcases hlog with ⟨hsocket, hlog⟩ | ⟨hsocket, hfails, hlog⟩ | ⟨hlistens, stack, hlog⟩
  · have hnot : ¬ (answers.attempt k).Listens := fun hl => absurd hl.1 (Int.not_le.mpr hsocket)
    refine ⟨hslots, fun fd => ?_, fun fd => ?_⟩
    · rw [hlog, hs.opened, answers.listensBelow_succ]
      simp [hnot]
    · rw [hlog, hs.registers, answers.listensBelow_succ]
      simp [hnot]
  · refine ⟨hslots, fun fd => ?_, fun fd => ?_⟩
    · rw [hlog, answers.listensBelow_succ, ← hs.opened]
      have hclosed : fd ∈ descriptors (s.log ++ [.socket (answers.attempt k).socket,
          .close (answers.attempt k).socket]) ↔
            fd ∈ descriptors s.log ∧ fd ≠ (answers.attempt k).socket := by
        simp [descriptors, descriptorsAfter]
      rw [hclosed]
      refine ⟨fun h => .inl h.1, fun h => ?_⟩
      have hopen := h.resolve_right fun hl => hfails hl.1
      obtain ⟨i, hi, hlistens, rfl⟩ := (hs.opened fd).mp hopen
      exact ⟨hopen, (answers.fresh i k hi hlistens).symm⟩
    · rw [hlog, answers.listensBelow_succ, ← hs.registers]
      simp [registered, hfails]
  · refine ⟨hslots, fun fd => ?_, fun fd => ?_⟩
    · rw [hlog, answers.listensBelow_succ, ← hs.opened]
      simp [descriptors, descriptorsAfter, hlistens, or_comm, eq_comm]
    · rw [hlog, answers.listensBelow_succ, ← hs.registers]
      simp [registered, hlistens, eq_comm]

/-- Where no assertion fails, the loop leaves the state behind its last slot. -/
theorem start_started (h : tcpListenerStart t tcpPorts answers .initial = some s) :
    Started answers (startedSlots tcpPorts).length s := by
  have hloop (n : ℕ) : ∀ {s}, (List.range n).foldlM (startSlot t tcpPorts answers) .initial =
      some s → Started answers n s := by
    induction n with
    | zero =>
      intro s hs
      cases hs
      exact started_initial
    | succ n ih =>
      intro s hs
      rw [List.range_succ, List.foldlM_append, Option.bind_eq_bind] at hs
      obtain ⟨before, hbefore, hslot⟩ := Option.bind_eq_some_iff.mp hs
      simp only [List.foldlM_cons, List.foldlM_nil, bind_pure] at hslot
      exact startSlot_started (ih hbefore) hslot
  unfold tcpListenerStart at h
  split_ifs at h with hport
  refine hloop _ ?_
  rw [← h]
  unfold startedSlots
  rw [← takeWhile_range_eq]

theorem startSlot_isSome (hs : Started answers k s)
    (hstack : (protostackGet t (tcpPorts k)).isSome) :
    (startSlot t tcpPorts answers s k).isSome := by
  obtain ⟨stack, hstack⟩ := Option.isSome_iff_exists.mp hstack
  have hslot : ¬ s.tcpSockets k ≠ -1 := by
    rw [hs.slots, if_neg (lt_irrefl k)]
    exact not_not_intro rfl
  unfold startSlot
  dsimp only
  rw [if_neg hslot, hstack]
  split_ifs <;> rfl

/-- With the ports of the table, the first not 0, no assertion fails. -/
theorem tcpListenerInit_isSome {entries : List (ℤ × α)} (ht : t.Holds entries)
    (hport : protostackGetPortsInternal t (fun _ => 0) 0 ≠ 0) :
    (tcpListenerInit t answers).isSome := by
  have hstack {i : ℕ} (hi : protostackGetPortsInternal t (fun _ => 0) i ≠ 0) :
      (protostackGet t (protostackGetPortsInternal t (fun _ => 0) i)).isSome := by
    rw [ht.ports] at hi ⊢
    split_ifs at hi ⊢ with hlt
    · rw [ht.get, (ht.filled (List.getElem?_eq_getElem hlt)).1, List.lookup_isSome_iff]
      exact ⟨_, List.getElem_mem hlt, beq_self_eq_true _⟩
    · exact absurd rfl hi
  have hloop (n : ℕ) (hn : ∀ i < n, protostackGetPortsInternal t (fun _ => 0) i ≠ 0) :
      ∃ s, (List.range n).foldlM (startSlot t (protostackGetPortsInternal t fun _ => 0) answers)
        .initial = some s ∧ Started answers n s := by
    induction n with
    | zero => exact ⟨_, rfl, started_initial⟩
    | succ n ih =>
      obtain ⟨s, hloop, hs⟩ := ih fun i hi => hn i (Nat.lt_succ_of_lt hi)
      obtain ⟨s', hslot⟩ := Option.isSome_iff_exists.mp
        (startSlot_isSome hs (hstack (hn n (Nat.lt_succ_self n))))
      refine ⟨s', ?_, startSlot_started hs hslot⟩
      rw [List.range_succ, List.foldlM_append, hloop]
      simp [hslot]
  obtain ⟨s, hs, -⟩ := hloop (startedSlots _).length fun i hi => by
    rw [← List.mem_range, startedSlots, ← takeWhile_range_eq] at hi
    simpa using List.mem_takeWhile_imp hi
  unfold tcpListenerInit tcpListenerStart
  rw [if_neg hport, startedSlots, takeWhile_range_eq, ← startedSlots, hs]
  rfl

end Start

/-! ### Stopping -/

section Stop
variable {s : TcpListener α} {calls : List (ListenerCall α)} {fds : List ℤ}

theorem foldl_stopSlot {slots : List ℕ} (hnodup : slots.Nodup) (s : TcpListener α) :
    slots.foldl stopSlot s = {
      tcpSockets := fun i => if i ∈ slots then -1 else s.tcpSockets i
      log := s.log ++ slots.flatMap fun i => stopSlotCalls (s.tcpSockets i) } := by
  induction slots generalizing s with
  | nil => simp
  | cons k slots ih =>
    obtain ⟨hk, hslots⟩ := List.nodup_cons.mp hnodup
    have hother : ∀ i ∈ slots, (stopSlot s k).tcpSockets i = s.tcpSockets i :=
      fun i hi => Function.update_of_ne (ne_of_mem_of_not_mem hi hk) ..
    rw [List.foldl_cons, ih hslots, List.flatMap_cons, ← List.append_assoc]
    refine congrArg₂ TcpListener.mk (funext fun i => ?_) ?_
    · by_cases hi : i ∈ slots
      · rw [if_pos hi, if_pos (List.mem_cons_of_mem k hi)]
      · rw [if_neg hi]
        by_cases hik : i = k
        · rw [hik, if_pos List.mem_cons_self]
          exact Function.update_self ..
        · rw [if_neg (List.not_mem_cons_of_ne_of_not_mem hik hi)]
          exact Function.update_of_ne hik ..
    · exact congrArg (_ ++ ·) (List.flatMap_congr fun i hi => by rw [hother i hi])

/-- The closes are the unregistrations of the positive numbers. -/
theorem closed_stopSlots (f : ℕ → ℤ) (slots : List ℕ) :
    closed (slots.flatMap fun i => stopSlotCalls (α := α) (f i)) =
      (slots.map f).filter (0 < ·) := by
  induction slots with
  | nil => rfl
  | cons k slots ih =>
    rw [List.flatMap_cons, closed, List.filterMap_append, ← closed, ih]
    unfold stopSlotCalls
    split_ifs with hk <;> simp [closed, hk]

theorem unregistered_stopSlots (f : ℕ → ℤ) (slots : List ℕ) :
    unregistered (slots.flatMap fun i => stopSlotCalls (α := α) (f i)) = slots.map f := by
  induction slots with
  | nil => rfl
  | cons k slots ih =>
    rw [List.flatMap_cons, unregistered, List.filterMap_append, ← unregistered, ih]
    unfold stopSlotCalls
    split_ifs with hk <;> simp [unregistered]

/-- Calls that create no socket close open descriptors only, if they close each once and all of
them are open before. -/
theorem owned_iff (hcalls : ∀ c ∈ calls, ∀ fd, c ≠ .socket fd) :
    Transition.Along descriptorsAfter (fun fds c => ∀ fd, c = .close fd → fd ∈ fds) fds calls ↔
      (closed calls).Nodup ∧ ∀ fd ∈ closed calls, fd ∈ fds := by
  induction calls generalizing fds with
  | nil => simp [Transition.Along, closed]
  | cons c calls ih =>
    obtain ⟨hc, hcalls⟩ := List.forall_mem_cons.mp hcalls
    rw [Transition.Along, ih hcalls]
    cases c with
    | socket fd => exact absurd rfl (hc fd)
    | close fd =>
      change _ ↔ (fd :: closed calls).Nodup ∧ ∀ x ∈ fd :: closed calls, x ∈ fds
      rw [List.nodup_cons, List.forall_mem_cons]
      simp only [descriptorsAfter, List.mem_filter, decide_eq_true_eq, ListenerCall.close.injEq,
        forall_eq']
      constructor
      · rintro ⟨hfd, hnodup, hrest⟩
        exact ⟨⟨fun hmem => (hrest fd hmem).2 rfl, hnodup⟩, hfd, fun x hx => (hrest x hx).1⟩
      · rintro ⟨⟨hmem, hnodup⟩, hfd, hrest⟩
        exact ⟨hfd, hnodup, fun x hx => ⟨hrest x hx, ne_of_mem_of_not_mem hx hmem⟩⟩
    | registerFd fd stack => simp [closed, descriptorsAfter]
    | unregisterFd fd => simp [closed, descriptorsAfter]

theorem nodup_stoppedSlots (s : TcpListener α) : (stoppedSlots s).Nodup :=
  List.nodup_range.sublist (List.takeWhile_sublist _)

variable (s) in
/-- What the loop of `tcp_listener_stop` leaves in the slots. -/
theorem stop_sockets (i : ℕ) :
    (tcpListenerStop s).tcpSockets i = if i ∈ stoppedSlots s then -1 else s.tcpSockets i := by
  unfold tcpListenerStop
  rw [foldl_stopSlot (nodup_stoppedSlots s)]

variable (s) in
theorem stopCalls_eq :
    s.stopCalls = (stoppedSlots s).flatMap fun i => stopSlotCalls (s.tcpSockets i) := by
  unfold TcpListener.stopCalls tcpListenerStop
  rw [foldl_stopSlot (nodup_stoppedSlots s)]
  exact List.drop_left

end Stop

section StopUndoes
variable {t : Protostacks α} {tcpPorts : ℕ → ℤ} {answers : KernelAnswers} {s : TcpListener α}

theorem mem_startedSlots {i : ℕ} :
    i ∈ startedSlots tcpPorts ↔ i < (startedSlots tcpPorts).length := by
  conv_lhs => rw [startedSlots, takeWhile_range_eq]
  exact List.mem_range

theorem mem_stoppedSlots {i : ℕ} :
    i ∈ stoppedSlots s ↔ i < nginzMaxProto ∧ ∀ j ≤ i, s.tcpSockets j ≠ -1 := by
  rw [stoppedSlots, mem_takeWhile_range]
  simp

/-- The closes are those of the positive numbers in the slots that the loop visits. -/
theorem closed_eq : closed s.stopCalls = (unregistered s.stopCalls).filter (0 < ·) := by
  rw [stopCalls_eq, closed_stopSlots, unregistered_stopSlots]

theorem mem_closed {fd : ℤ} :
    fd ∈ closed s.stopCalls ↔ 0 < fd ∧ ∃ i ∈ stoppedSlots s, s.tcpSockets i = fd := by
  rw [stopCalls_eq, closed_stopSlots, List.mem_filter, List.mem_map, decide_eq_true_eq, and_comm]

theorem count_closed {fd : ℤ} (hpos : 0 < fd) :
    (closed s.stopCalls).count fd = (unregistered s.stopCalls).count fd := by
  rw [closed_eq]
  exact List.count_filter (p := fun fd => decide (0 < fd)) (decide_eq_true hpos)

/-- No number is closed twice if no positive one is in two of the slots. -/
theorem nodup_closed_iff : (closed s.stopCalls).Nodup ↔ ∀ i ∈ stoppedSlots s,
    ∀ j ∈ stoppedSlots s, 0 < s.tcpSockets i → s.tcpSockets i = s.tcpSockets j → i = j := by
  rw [stopCalls_eq, closed_stopSlots, List.filter_map,
    List.nodup_map_iff_inj_on ((nodup_stoppedSlots s).filter _)]
  simp only [List.mem_filter, Function.comp_apply, decide_eq_true_eq]
  constructor
  · intro h i hi j hj hpos heq
    exact h i ⟨hi, hpos⟩ j ⟨hj, heq ▸ hpos⟩ heq
  · rintro h i ⟨hi, hpos⟩ j ⟨hj, -⟩ heq
    exact h i hi j hj hpos heq

theorem owned_stop_iff :
    Transition.Along descriptorsAfter (fun fds c => ∀ fd, c = .close fd → fd ∈ fds)
        (descriptors s.log) s.stopCalls ↔
      (closed s.stopCalls).Nodup ∧ ∀ fd ∈ closed s.stopCalls, fd ∈ descriptors s.log := by
  refine owned_iff fun c hc fd => ?_
  rw [stopCalls_eq] at hc
  obtain ⟨i, -, hi⟩ := List.mem_flatMap.mp hc
  unfold stopSlotCalls at hi
  split_ifs at hi <;> grind

variable (hs : Started answers (startedSlots tcpPorts).length s)
include hs

theorem started_slot {i : ℕ} (hi : i ∈ startedSlots tcpPorts) :
    s.tcpSockets i = (answers.attempt i).socket := by
  rw [hs.slots, if_pos (mem_startedSlots.mp hi)]

theorem started_of_socket {i : ℕ} (hi : s.tcpSockets i ≠ -1) : i ∈ startedSlots tcpPorts := by
  rw [mem_startedSlots]
  by_contra hlt
  exact hi ((hs.slots i).trans (if_neg hlt))

theorem started_open {fd : ℤ} : fd ∈ descriptors s.log ↔
    ∃ i ∈ startedSlots tcpPorts, (answers.attempt i).Listens ∧ s.tcpSockets i = fd := by
  rw [hs.opened]
  constructor
  · rintro ⟨i, hi, hlistens, hfd⟩
    have hmem := mem_startedSlots.mpr hi
    exact ⟨i, hmem, hlistens, (started_slot hs hmem).trans hfd⟩
  · rintro ⟨i, hi, hlistens, hfd⟩
    exact ⟨i, mem_startedSlots.mp hi, hlistens, (started_slot hs hi).symm.trans hfd⟩

theorem StopUndoes.clean (h : StopUndoes s) : StopsClean tcpPorts answers := by
  have hstopped {i : ℕ} (hi : i ∈ startedSlots tcpPorts)
      (hsocket : (answers.attempt i).socket ≠ -1) : i ∈ stoppedSlots s := by
    by_contra hnot
    have hlt : i < nginzMaxProto := List.mem_range.mp ((List.takeWhile_sublist _).subset hi)
    have hfree := h.free i hlt
    rw [stop_sockets, if_neg hnot, started_slot hs hi] at hfree
    exact hsocket hfree
  obtain ⟨hnodup, hopen⟩ := owned_stop_iff.mp h.owned
  refine ⟨fun i hi => ⟨fun hlistens => ?_, fun hpos => ?_⟩, fun i hi j hj hij hgap => ?_⟩
  · have hfd := (hs.registers _).mpr ⟨i, mem_startedSlots.mp hi, hlistens, rfl⟩
    have honce := (h.once _ hfd ((hs.opened _).mpr ((hs.registers _).mp hfd))).2
    have hclosed := List.count_pos_iff.mp (honce.symm ▸ Nat.one_pos)
    exact (mem_closed.mp hclosed).1
  · -- the number is closed for this slot, so that a slot which listens has it too
    have hi' := hstopped hi (by omega)
    have hslot := started_slot hs hi
    have hclosed := mem_closed.mpr ⟨hpos, i, hi', hslot⟩
    obtain ⟨j, hj, hlistens, hfd⟩ := (started_open hs).mp (hopen _ hclosed)
    have hj' := hstopped hj (by rw [← started_slot hs hj, hfd]; omega)
    rw [nodup_closed_iff.mp hnodup i hi' j hj' (hslot ▸ hpos) (hslot.trans hfd.symm)]
    exact hlistens
  · by_contra hsocket
    have hbefore := (mem_stoppedSlots.mp (hstopped hj hsocket)).2 i hij.le
    exact hbefore ((started_slot hs hi).trans hgap)

theorem StopsClean.undoes (h : StopsClean tcpPorts answers) : StopUndoes s := by
  have hstopped {i : ℕ} (hi : i ∈ startedSlots tcpPorts)
      (hsocket : (answers.attempt i).socket ≠ -1) : i ∈ stoppedSlots s := by
    refine mem_stoppedSlots.mpr ⟨List.mem_range.mp ((List.takeWhile_sublist _).subset hi), ?_⟩
    intro j hj hgap
    have hj' := mem_startedSlots.mpr (hj.trans_lt (mem_startedSlots.mp hi))
    rw [started_slot hs hj'] at hgap
    rcases hj.eq_or_lt with rfl | hlt
    · exact hsocket hgap
    · exact hsocket (h.no_gap j hj' i hi hlt hgap)
  have hlistens {i : ℕ} (hi : i ∈ stoppedSlots s) (hpos : 0 < s.tcpSockets i) :
      (answers.attempt i).Listens ∧ s.tcpSockets i = (answers.attempt i).socket := by
    have hi' := started_of_socket hs (hpos.trans' (by decide)).ne'
    rw [started_slot hs hi'] at hpos ⊢
    exact ⟨(h.listens_iff i hi').mpr hpos, rfl⟩
  have hnodup : (closed s.stopCalls).Nodup := by
    rw [nodup_closed_iff]
    intro i hi j hj hpos heq
    obtain ⟨hli, hsi⟩ := hlistens hi hpos
    obtain ⟨hlj, hsj⟩ := hlistens hj (heq ▸ hpos)
    exact answers.listens_inj hli hlj (hsi.symm.trans (heq.trans hsj))
  refine ⟨fun fd _ hopen => ?_, owned_stop_iff.mpr ⟨hnodup, fun fd hclosed => ?_⟩, fun i hi => ?_⟩
  · obtain ⟨i, hi, hli, rfl⟩ := (started_open hs).mp hopen
    have hpos := (h.listens_iff i hi).mp hli
    have hi' := hstopped hi (by omega)
    rw [← started_slot hs hi] at hpos
    have hone := List.count_eq_one_of_mem hnodup (mem_closed.mpr ⟨hpos, i, hi', rfl⟩)
    exact ⟨(count_closed hpos).symm.trans hone, hone⟩
  · obtain ⟨hpos, i, hi, rfl⟩ := mem_closed.mp hclosed
    have hi' := started_of_socket hs (hpos.trans' (by decide)).ne'
    exact (started_open hs).mpr ⟨i, hi', (hlistens hi hpos).1, rfl⟩
  · rw [stop_sockets]
    split_ifs with hmem
    · rfl
    · by_contra hsocket
      have hi' := started_of_socket hs hsocket
      exact hmem (hstopped hi' (started_slot hs hi' ▸ hsocket))

end StopUndoes

/-- After every start, whatever fails during it: stopping undoes it exactly if the positive
sockets are those that listen, and no socket is created behind one that was not. -/
theorem stop_undoes_iff {t : Protostacks α} {tcpPorts : ℕ → ℤ} {answers : KernelAnswers}
    {s : TcpListener α} (h : tcpListenerStart t tcpPorts answers .initial = some s) :
    StopUndoes s ↔ StopsClean tcpPorts answers :=
  ⟨fun hu => hu.clean (start_started h), fun hc => hc.undoes (start_started h)⟩

/-- Only this slot gets a socket. -/
def KernelAnswers.single (k : ℕ) (a : SocketAttempt) (ha : 0 ≤ a.socket) : KernelAnswers where
  attempt := Function.update (fun _ => ⟨-1, 0, 0⟩) k a
  failed i hi := by
    by_cases hik : i = k
    · rw [hik, Function.update_self] at hi
      exact absurd ha (Int.not_le.mpr hi)
    · rw [Function.update_of_ne hik]
  fresh i j hij hi := by
    have hik : i = k := by
      by_contra hik
      rw [Function.update_of_ne hik] at hi
      exact absurd hi.1 (by decide)
    rw [hik, Function.update_self, Function.update_of_ne (hik ▸ hij.ne')]
    exact (ha.trans_lt' (by decide)).ne

/-- The table with the ports of the two protocols. -/
def twoProtocols : Protostacks ℕ :=
  (protostackSet (protostackSet protostackInit 80 (some 1)).1 9399 (some 2)).1

theorem stop_undoes_single :
    ∃ s, tcpListenerInit twoProtocols (.single 0 ⟨5, 0, 0⟩ (by decide)) = some s ∧
      StopUndoes s := by
  have hs : tcpListenerInit twoProtocols (.single 0 ⟨5, 0, 0⟩ (by decide)) = some _ := rfl
  exact ⟨_, hs, (stop_undoes_iff hs).mpr ⟨by decide, by decide⟩⟩

/-- A descriptor closed after a failed `bind` is closed again, and behind a failed `socket` a
registered one stays open. -/
theorem stop_misses :
    (∃ s, tcpListenerInit twoProtocols (.single 0 ⟨5, -1, 0⟩ (by decide)) = some s ∧
      s.log = [.socket 5, .close 5] ∧ s.stopCalls = [.unregisterFd 5, .close 5] ∧
        ¬ StopUndoes s) ∧
    ∃ s, tcpListenerInit twoProtocols (.single 1 ⟨5, 0, 0⟩ (by decide)) = some s ∧
      s.log = [.socket 5, .registerFd 5 2] ∧ s.stopCalls = [] ∧ ¬ StopUndoes s := by
  constructor
  · have hs : tcpListenerInit twoProtocols (.single 0 ⟨5, -1, 0⟩ (by decide)) = some _ := rfl
    refine ⟨_, hs, rfl, rfl, fun h => ?_⟩
    exact absurd (((stop_undoes_iff hs).mp h).listens_iff 0 (by decide)) (by decide)
  · have hs : tcpListenerInit twoProtocols (.single 1 ⟨5, 0, 0⟩ (by decide)) = some _ := rfl
    refine ⟨_, hs, rfl, rfl, fun h => ?_⟩
    have hgap := ((stop_undoes_iff hs).mp h).no_gap 0 (by decide) 1 (by decide) (by decide)
    exact absurd (hgap (by decide)) (by decide)

end Nginz
