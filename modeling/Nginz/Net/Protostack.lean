import Nginz.Lib.Transition

/-! The table of the protocols by port, and when it is a finite map. -/
namespace Nginz

/-- `NGINZ_MAX_PROTO`. -/
def nginzMaxProto : ℕ := 4

/-- `internal_port_for_stacks` and `internal_stacks`, with the stacks in `α`. -/
structure Protostacks (α : Type*) where
  internalPortForStacks : ℕ → ℤ
  internalStacks : ℕ → Option α

variable {α : Type*}

/-- `protostack_get`. -/
def protostackGet (t : Protostacks α) (port : ℤ) : Option α :=
  match (List.range nginzMaxProto).find? fun i => t.internalPortForStacks i = port with
  | none => none
  | some i => t.internalStacks i

/-- `protostack_set`. -/
def protostackSet (t : Protostacks α) (port : ℤ) (x : Option α) : Protostacks α × ℤ :=
  if (t.internalStacks (nginzMaxProto - 1)).isSome then (t, -1)
  else
    match (List.range nginzMaxProto).find? fun i => (t.internalStacks i).isNone with
    | none => (t, 0)
    | some i => ({
        internalPortForStacks := Function.update t.internalPortForStacks i port
        internalStacks := Function.update t.internalStacks i x }, 0)

/-- `protostack_get_ports_internal`. -/
def protostackGetPortsInternal (t : Protostacks α) (tcpPorts : ℕ → ℤ) : ℕ → ℤ :=
  ((List.range nginzMaxProto).takeWhile fun i => (t.internalStacks i).isSome).foldl
    (fun ports i => Function.update ports i (t.internalPortForStacks i)) tcpPorts

/-- `protostack_init`. -/
def protostackInit : Protostacks α := ⟨fun _ => 0, fun _ => none⟩

/-! ### The table as a log of registrations -/

/-- The slots from the first on hold these registrations, and the other slots no stack. -/
structure Protostacks.Holds (t : Protostacks α) (entries : List (ℤ × α)) : Prop where
  fits : entries.length ≤ nginzMaxProto
  filled : ∀ {i e}, entries[i]? = some e →
    t.internalPortForStacks i = e.1 ∧ t.internalStacks i = some e.2
  free : ∀ {i}, entries.length ≤ i → t.internalStacks i = none

namespace Protostacks
variable {t : Protostacks α} {entries : List (ℤ × α)}

theorem holds_init : (protostackInit : Protostacks α).Holds [] where
  fits := Nat.zero_le _
  filled := by simp
  free := fun _ => rfl

/-- A slot with a stack is one of the registrations. -/
theorem Holds.stack_iff (h : t.Holds entries) {i : ℕ} :
    (t.internalStacks i).isSome ↔ i < entries.length := by
  constructor
  · intro hstack
    by_contra hi
    rw [h.free (Nat.le_of_not_lt hi)] at hstack
    exact absurd hstack Bool.false_ne_true
  · intro hi
    rw [(h.filled (List.getElem?_eq_getElem hi)).2]
    rfl

/-- A lookup finds the first registration of the port. -/
theorem Holds.get (h : t.Holds entries) (port : ℤ) :
    protostackGet t port = entries.lookup port := by
  unfold protostackGet
  cases hlookup : entries.lookup port with
  | some x =>
    obtain ⟨earlier, later, rfl, hearlier⟩ := List.lookup_eq_some_iff.mp hlookup
    have hslot := h.filled (i := earlier.length) (e := (port, x)) (by simp)
    have hfirst : (List.range nginzMaxProto).find? (fun i => t.internalPortForStacks i = port) =
        some earlier.length := by
      refine List.find?_range_eq_some.mpr ⟨decide_eq_true hslot.1, ?_, fun j hj => ?_⟩
      · have hfits := h.fits
        rw [List.length_append, List.length_cons] at hfits
        exact List.mem_range.mpr (by omega)
      · have hport := (h.filled (i := j) (e := earlier[j]) (by grind)).1
        have hother : port ≠ earlier[j].1 := bne_iff_ne.mp (hearlier _ (List.getElem_mem hj))
        rw [hport]
        simpa using hother.symm
    rw [hfirst]
    exact hslot.2
  | none =>
    have hnone := List.lookup_eq_none_iff.mp hlookup
    split
    · rfl
    · rename_i i hi
      have hport : t.internalPortForStacks i = port := by simpa using List.find?_some hi
      refine h.free (Nat.le_of_not_lt fun hlt => ?_)
      have hslot := (h.filled (List.getElem?_eq_getElem hlt)).1
      exact bne_iff_ne.mp (hnone _ (List.getElem_mem hlt)) (hport.symm.trans hslot)

/-- A call behind the last free slot is refused. -/
theorem Holds.set_full (h : t.Holds entries) (hfull : entries.length = nginzMaxProto) (port : ℤ)
    (x : Option α) : protostackSet t port x = (t, -1) := by
  unfold protostackSet
  rw [if_pos (h.stack_iff.mpr _)]
  rw [hfull]
  decide

/-- Any other call fills the first free slot. -/
theorem Holds.set_room (h : t.Holds entries) (hroom : entries.length < nginzMaxProto) (port : ℤ)
    (x : Option α) : protostackSet t port x = ({
      internalPortForStacks := Function.update t.internalPortForStacks entries.length port
      internalStacks := Function.update t.internalStacks entries.length x }, 0) := by
  have hlast : ¬ (t.internalStacks (nginzMaxProto - 1)).isSome := by
    rw [h.stack_iff]
    omega
  have hfirst : (List.range nginzMaxProto).find? (fun i => (t.internalStacks i).isNone) =
      some entries.length := by
    refine List.find?_range_eq_some.mpr ⟨?_, List.mem_range.mpr hroom, fun j hj => ?_⟩
    · rw [h.free le_rfl]
      rfl
    · have hstack := h.stack_iff.mpr hj
      rw [← Option.not_isSome, hstack]
      rfl
  unfold protostackSet
  rw [if_neg hlast, hfirst]

/-- The slot filled, the registrations have one more, unless the call passed no stack. -/
theorem Holds.push (h : t.Holds entries) (hroom : entries.length < nginzMaxProto) (port : ℤ)
    (x : Option α) : (Protostacks.mk (Function.update t.internalPortForStacks entries.length port)
      (Function.update t.internalStacks entries.length x)).Holds
        (entries ++ (x.map (port, ·)).toList) := by
  have hkept {i : ℕ} {e : ℤ × α} (hi : i < entries.length) (he : entries[i]? = some e) :
      Function.update t.internalPortForStacks entries.length port i = e.1 ∧
        Function.update t.internalStacks entries.length x i = some e.2 := by
    rw [Function.update_of_ne hi.ne, Function.update_of_ne hi.ne]
    exact h.filled he
  cases x with
  | none =>
    rw [Option.map_none, Option.toList_none, List.append_nil]
    refine ⟨h.fits, fun he => hkept (List.getElem?_eq_some_iff.mp he).1 he, fun {i} hi => ?_⟩
    by_cases hslot : i = entries.length
    · rw [hslot]
      exact Function.update_self ..
    · exact (Function.update_of_ne hslot _ _).trans (h.free hi)
  | some x =>
    rw [Option.map_some, Option.toList_some]
    refine ⟨?_, fun {i e} he => ?_, fun {i} hi => ?_⟩
    · rw [List.length_append]
      exact hroom
    · rcases Nat.lt_or_ge i entries.length with hi | hi
      · exact hkept hi (by rwa [List.getElem?_append_left hi] at he)
      · rw [List.getElem?_append_right hi, List.getElem?_singleton] at he
        split at he
        · obtain rfl := Option.some.inj he
          obtain rfl : i = entries.length := by omega
          exact ⟨Function.update_self .., Function.update_self ..⟩
        · exact absurd he (Option.some_ne_none _).symm
    · rw [List.length_append, List.length_singleton] at hi
      exact (Function.update_of_ne (by omega) _ _).trans (h.free (by omega))

end Protostacks

/-! ### The ports of the table -/

theorem takeWhile_range {m n : ℕ} {p : ℕ → Bool} (hp : ∀ i, p i ↔ i < m) (hmn : m ≤ n) :
    (List.range n).takeWhile p = List.range m := by
  obtain ⟨k, rfl⟩ := Nat.exists_eq_add_of_le hmn
  rw [List.range_add, List.takeWhile_append_of_pos fun i hi => (hp i).mpr (List.mem_range.mp hi)]
  cases k with
  | zero => exact List.append_nil _
  | succ k =>
    have hstop : ¬ p (m + 0) := mt (hp m).mp (lt_irrefl m)
    rw [List.range_succ_eq_map, List.map_cons, List.takeWhile_cons_of_neg hstop, List.append_nil]

theorem foldl_update_range {β : Type*} (f g : ℕ → β) (n i : ℕ) :
    (List.range n).foldl (fun f j => Function.update f j (g j)) f i =
      if i < n then g i else f i := by
  induction n with
  | zero => rfl
  | succ n ih =>
    rw [List.range_succ, List.foldl_append, List.foldl_cons, List.foldl_nil]
    by_cases hi : i = n
    · rw [hi, Function.update_self, if_pos (Nat.lt_succ_self n)]
    · rw [Function.update_of_ne hi, ih]
      exact if_congr (by omega) rfl rfl

/-- `protostack_get_ports_internal` copies the ports of the slots with a stack. -/
theorem Protostacks.Holds.ports {t : Protostacks α} {entries : List (ℤ × α)} (h : t.Holds entries)
    (tcpPorts : ℕ → ℤ) (i : ℕ) : protostackGetPortsInternal t tcpPorts i =
      if i < entries.length then t.internalPortForStacks i else tcpPorts i := by
  unfold protostackGetPortsInternal
  rw [takeWhile_range (fun i => h.stack_iff) h.fits, foldl_update_range]

/-! ### Sequences of calls -/

/-- A call of `protostack_set`. -/
structure ProtostackCall (α : Type*) where
  port : ℤ
  x : Option α

/-- The table, and for each port what the last call for it passed of those that returned 0. -/
structure ProtostackRun (α : Type*) where
  table : Protostacks α
  lastSet : ℤ → Option α

namespace ProtostackRun

def start : ProtostackRun α := ⟨protostackInit, fun _ => none⟩

def call (s : ProtostackRun α) (c : ProtostackCall α) : ProtostackRun α where
  table := (protostackSet s.table c.port c.x).1
  lastSet :=
    if (protostackSet s.table c.port c.x).2 = 0 then Function.update s.lastSet c.port c.x
    else s.lastSet

/-- Each port is mapped to what the last accepted call for it passed. -/
def Maps (s : ProtostackRun α) : Prop := ∀ port, protostackGet s.table port = s.lastSet port

end ProtostackRun

/-- After every call of the sequence the table is a map, and a call that returns -1 changes
nothing. -/
def IsFiniteMap (calls : List (ProtostackCall α)) : Prop :=
  Transition.Along ProtostackRun.call (fun s c => (s.call c).Maps ∧
    ((protostackSet s.table c.port c.x).2 = -1 → (s.call c).table = s.table)) .start calls

/-- The stacks that the calls pass, with their ports. -/
def registrations (calls : List (ProtostackCall α)) : List (ℤ × α) :=
  calls.filterMap fun c => c.x.map (c.port, ·)

/-- As long as there is room in the table, no call for a port follows one that passed another
stack for it. -/
def KeepsStacks (calls : List (ProtostackCall α)) : Prop :=
  ∀ before c after, calls = before ++ c :: after → (registrations before).length < nginzMaxProto →
    ∀ y, (c.port, y) ∈ registrations before → c.x = some y

section Calls
variable {s : ProtostackRun α} {entries : List (ℤ × α)} {c : ProtostackCall α}
  {calls : List (ProtostackCall α)}

theorem registrations_concat (calls : List (ProtostackCall α)) (c : ProtostackCall α) :
    registrations (calls ++ [c]) = registrations calls ++ (c.x.map (c.port, ·)).toList := by
  unfold registrations
  rw [List.filterMap_append]
  cases h : c.x <;> simp [h]

/-- A call finds room for what it passes if the registrations before it leave some. -/
theorem registrations_concat_length (h : (registrations calls).length < nginzMaxProto) :
    (registrations (calls ++ [c])).length ≤ nginzMaxProto := by
  rw [registrations_concat, List.length_append]
  have hone := Option.length_toList_le (o := c.x.map (c.port, ·))
  omega

/-- The table holds the first registrations that fit. -/
theorem run_holds (calls : List (ProtostackCall α)) :
    (calls.foldl ProtostackRun.call .start).table.Holds
      ((registrations calls).take nginzMaxProto) := by
  induction calls using List.reverseRecOn with
  | nil => exact Protostacks.holds_init
  | append_singleton calls c ih =>
    rw [List.foldl_append]
    change (protostackSet _ c.port c.x).1.Holds _
    rcases Nat.lt_or_ge (registrations calls).length nginzMaxProto with hroom | hfull
    · rw [List.take_of_length_le hroom.le] at ih
      rw [ih.set_room hroom, List.take_of_length_le (registrations_concat_length hroom),
        registrations_concat]
      exact ih.push hroom c.port c.x
    · rw [registrations_concat, List.take_append_of_le_length hfull,
        ih.set_full (List.length_take_of_le hfull)]
      exact ih

/-- No port has two stacks. -/
def Unanimous (entries : List (ℤ × α)) : Prop :=
  ∀ port y y', (port, y) ∈ entries → (port, y') ∈ entries → y = y'

theorem unanimous_lookup (h : Unanimous entries) {port : ℤ} {y : α} :
    entries.lookup port = some y ↔ (port, y) ∈ entries := by
  constructor
  · intro hlookup
    obtain ⟨_, _, rfl, _⟩ := List.lookup_eq_some_iff.mp hlookup
    exact List.mem_append_right _ List.mem_cons_self
  · intro hmem
    cases hlookup : entries.lookup port with
    | none =>
      exact absurd rfl (bne_iff_ne.mp (List.lookup_eq_none_iff.mp hlookup _ hmem))
    | some y' =>
      obtain ⟨_, _, rfl, _⟩ := List.lookup_eq_some_iff.mp hlookup
      exact congrArg some (h _ _ _ (List.mem_append_right _ List.mem_cons_self) hmem)

theorem unanimous_concat (h : Unanimous entries)
    (hc : ∀ y, (c.port, y) ∈ entries → c.x = some y) :
    Unanimous (entries ++ (c.x.map (c.port, ·)).toList) := by
  cases hx : c.x with
  | none =>
    rw [Option.map_none, Option.toList_none, List.append_nil]
    exact h
  | some x =>
    rw [Option.map_some, Option.toList_some]
    have hsame {y : α} (hy : (c.port, y) ∈ entries) : y = x :=
      Option.some.inj ((hc y hy).symm.trans hx)
    intro port y y' hy hy'
    rw [List.mem_append, List.mem_singleton, Prod.mk.injEq] at hy hy'
    rcases hy with hy | ⟨rfl, rfl⟩ <;> rcases hy' with hy' | ⟨hport, rfl⟩
    · exact h port y y' hy hy'
    · exact hsame (hport ▸ hy)
    · exact (hsame hy').symm
    · rfl

/-- A call that finds room keeps the map if it passes the stack that the port has, or the port
has none. -/
theorem maps_room_iff (h : s.table.Holds entries) (hmaps : s.Maps) (hone : Unanimous entries)
    (hroom : entries.length < nginzMaxProto) :
    (s.call c).Maps ↔ ∀ y, (c.port, y) ∈ entries → c.x = some y := by
  have hget (port : ℤ) : protostackGet (s.call c).table port =
      (entries.lookup port).or ((c.x.map (c.port, ·)).toList.lookup port) := by
    change protostackGet (protostackSet _ _ _).1 port = _
    rw [h.set_room hroom, (h.push hroom c.port c.x).get, List.lookup_append]
  have hlast : (s.call c).lastSet = Function.update s.lastSet c.port c.x := by
    change (if (protostackSet _ _ _).2 = 0 then _ else _) = _
    rw [h.set_room hroom]
    exact if_pos rfl
  have hother {port : ℤ} (hport : port ≠ c.port) :
      protostackGet (s.call c).table port = (s.call c).lastSet port := by
    rw [hget, hlast, Function.update_of_ne hport, ← hmaps port, h.get]
    cases c.x <;> simp [List.lookup_cons, beq_false_of_ne hport]
  have hself : (s.call c).Maps ↔ (entries.lookup c.port).or c.x = c.x := by
    have hport : protostackGet (s.call c).table c.port = (entries.lookup c.port).or c.x := by
      rw [hget]
      cases c.x <;> simp
    constructor
    · intro hm
      rw [← hport, hm c.port, hlast, Function.update_self]
    · intro hx port
      by_cases hp : port = c.port
      · rw [hp, hport, hlast, Function.update_self, hx]
      · exact hother hp
  rw [hself]
  cases hlookup : entries.lookup c.port with
  | none =>
    refine iff_of_true (Option.none_or) fun y hy => ?_
    rw [← unanimous_lookup hone, hlookup] at hy
    exact absurd hy (Option.some_ne_none y).symm
  | some y =>
    rw [Option.some_or]
    constructor
    · intro hx y' hy'
      rw [← hx, ← hlookup, unanimous_lookup hone]
      exact hy'
    · exact fun hall => (hall y ((unanimous_lookup hone).mp hlookup)).symm

theorem keepsStacks_concat : KeepsStacks (calls ++ [c]) ↔ KeepsStacks calls ∧
    ((registrations calls).length < nginzMaxProto →
      ∀ y, (c.port, y) ∈ registrations calls → c.x = some y) := by
  have hreplay (calls : List (ProtostackCall α)) :
      calls.foldl (fun before c => before ++ [c]) [] = calls := by
    rw [List.foldl_append_eq_append, List.nil_append, ← List.flatMap_def, List.flatMap_singleton']
  have hhistory (calls : List (ProtostackCall α)) : KeepsStacks calls ↔
      Transition.Along (fun before c => before ++ [c])
        (fun before c => (registrations before).length < nginzMaxProto →
          ∀ y, (c.port, y) ∈ registrations before → c.x = some y) [] calls := by
    rw [Transition.along_iff_forall_split]
    simp only [hreplay]
    exact Iff.rfl
  rw [hhistory, Transition.along_concat_iff, ← hhistory, hreplay]

theorem call_full (h : s.table.Holds entries) (hfull : entries.length = nginzMaxProto) :
    s.call c = s := by
  unfold ProtostackRun.call
  rw [h.set_full hfull]
  rfl

end Calls

/-- Over every sequence of calls: the table is a finite map after each of them exactly if no
call passes another stack, or none, for a port that has one, as long as there is room. -/
theorem protostack_map_iff (calls : List (ProtostackCall α)) :
    IsFiniteMap calls ↔ KeepsStacks calls := by
  suffices h : (IsFiniteMap calls ↔ KeepsStacks calls) ∧ (IsFiniteMap calls →
      (calls.foldl ProtostackRun.call .start).Maps ∧
        Unanimous ((registrations calls).take nginzMaxProto)) from h.1
  induction calls using List.reverseRecOn with
  | nil =>
    refine ⟨iff_of_true trivial fun before c after h => ?_, fun _ => ?_⟩
    · exact absurd h (List.append_ne_nil_of_right_ne_nil _ (List.cons_ne_nil _ _)).symm
    · exact ⟨Protostacks.holds_init.get, fun _ _ _ h => absurd h List.not_mem_nil⟩
  | append_singleton calls c ih =>
    have hholds := run_holds calls
    rw [keepsStacks_concat, IsFiniteMap, Transition.along_concat_iff, ← IsFiniteMap, ← ih.1,
      List.foldl_concat]
    rcases Nat.lt_or_ge (registrations calls).length nginzMaxProto with hroom | hfull
    · have hall := List.take_of_length_le hroom.le
      rw [hall] at hholds ih
      have haccepted : (protostackSet (calls.foldl ProtostackRun.call .start).table c.port c.x).2 ≠
          -1 := by
        rw [hholds.set_room hroom]
        exact (by decide : (0 : ℤ) ≠ -1)
      constructor
      · refine and_congr_right fun hmap => ?_
        obtain ⟨hmaps, hone⟩ := ih.2 hmap
        rw [and_iff_left fun h => absurd h haccepted, maps_room_iff hholds hmaps hone hroom]
        exact ⟨fun h _ => h, fun h => h hroom⟩
      · rintro ⟨hmap, hmaps', -⟩
        obtain ⟨hmaps, hone⟩ := ih.2 hmap
        refine ⟨hmaps', ?_⟩
        rw [List.take_of_length_le (registrations_concat_length hroom), registrations_concat]
        exact unanimous_concat hone ((maps_room_iff hholds hmaps hone hroom).mp hmaps')
    · rw [call_full hholds (List.length_take_of_le hfull), registrations_concat,
        List.take_append_of_le_length hfull]
      constructor
      · refine and_congr_right fun hmap => iff_of_true ⟨(ih.2 hmap).1, fun _ => rfl⟩ fun h => ?_
        exact absurd h (Nat.not_lt.mpr hfull)
      · exact fun h => ih.2 h.1

/-- What a destructor passes to remove a protocol goes behind it, and the port keeps its stack. -/
theorem protostack_keeps_removed :
    let calls : List (ProtostackCall ℕ) := [⟨80, some 1⟩, ⟨80, none⟩]
    protostackGet (calls.foldl ProtostackRun.call .start).table 80 = some 1 ∧
      (calls.foldl ProtostackRun.call .start).lastSet 80 = none ∧ ¬ IsFiniteMap calls := by
  intro calls
  refine ⟨by decide, by decide, fun h => ?_⟩
  have hkept := (protostack_map_iff calls).mp h [⟨80, some 1⟩] ⟨80, none⟩ [] rfl
  exact absurd (hkept (by decide) 1 (by decide)) (by decide)

end Nginz
