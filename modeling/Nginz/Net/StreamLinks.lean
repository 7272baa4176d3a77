import Nginz.Lib.Links
import Nginz.Lib.Transition
import Nginz.Net.Streamio

/-! Chained streams with the default close, and when their links stay symmetric. -/
namespace Nginz

/-- The fields of `struct streamio` by stream, with the references to each, and the descriptors
that were unregistered and closed. -/
structure Streams (ι : Type*) where
  fd : ι → ℤ
  bubbleUp : ι → Option ι
  bubbleDown : ι → Option ι
  refs : ι → ℕ
  closedFds : List ℤ

/-- A call of `streamio_chain` or `streamio_unchain`. -/
inductive StreamCall (ι : Type*) where
  | chain (up down : ι)
  | unchain (up down : ι)
  deriving DecidableEq, Repr

variable {ι : Type*} [DecidableEq ι]

namespace Streams

/-- `strm->bubble_up = up`. -/
def setUp (s : Streams ι) (strm : ι) (up : Option ι) : Streams ι :=
  { s with bubbleUp := Function.update s.bubbleUp strm up }

@[simp] theorem setUp_bubbleUp (s : Streams ι) (strm : ι) (up : Option ι) :
    (s.setUp strm up).bubbleUp = Function.update s.bubbleUp strm up :=
  rfl

@[simp] theorem setUp_bubbleDown (s : Streams ι) (strm : ι) (up : Option ι) :
    (s.setUp strm up).bubbleDown = s.bubbleDown :=
  rfl

@[simp] theorem setUp_refs (s : Streams ι) (strm : ι) (up : Option ι) :
    (s.setUp strm up).refs = s.refs :=
  rfl

/-- `default_streamio_close`, as far as the fuel lasts. -/
def defaultStreamioClose : ℕ → Streams ι → ι → Option (Streams ι)
  | 0, _, _ => none
  | n + 1, s, strm =>
    match s.bubbleUp strm with
    | some up => defaultStreamioClose n s up
    | none =>
      if s.fd strm ≠ invalidFd then
        some { s with
          closedFds := s.closedFds ++ [s.fd strm]
          fd := Function.update s.fd strm invalidFd }
      else some s

/-- The count of `OPPUNREF`: a stream without references is finalized. What `OPPUNREF` leaves in
the pointer that it is applied to is up to the library. -/
def oppUnref (leaves : ι → Option ι) : ℕ → Streams ι → ι → Option (Streams ι)
  | 0, _, _ => none
  | n + 1, s, strm =>
    let s := { s with refs := Function.update s.refs strm (s.refs strm - 1) }
    if s.refs strm = 0 then do
      -- `streamio_finalize`
      let s ← defaultStreamioClose n s strm
      let s := { s.setUp strm none with fd := Function.update s.fd strm (-1) }
      match s.bubbleDown strm with
      | none => some s
      | some down => do
        let s ← oppUnref leaves n s down
        some { s with bubbleDown := Function.update s.bubbleDown strm (leaves down) }
    else some s

/-- `OPPUNREF(up->bubble_down)`. -/
def unrefDown (leaves : ι → Option ι) (n : ℕ) (s : Streams ι) (up down : ι) :
    Option (Streams ι) := do
  let s ← oppUnref leaves n s down
  some { s with bubbleDown := Function.update s.bubbleDown up (leaves down) }

/-- What `streamio_chain` does first, if the lower stream has an upper one. -/
def closeFirst (n : ℕ) (s : Streams ι) (down : ι) : Option (Streams ι) :=
  if (s.bubbleUp down).isSome then defaultStreamioClose n s down else some s

/-- What `streamio_chain` does with the old lower stream. -/
def closeOld (leaves : ι → Option ι) (n : ℕ) (s : Streams ι) (up : ι) : Option (Streams ι) :=
  match s.bubbleDown up with
  | none => some s
  | some old => do
    let s ← defaultStreamioClose n s old
    unrefDown leaves n s up old

/-- `streamio_chain`. -/
def streamioChain (leaves : ι → Option ι) (n : ℕ) (s : Streams ι) (up down : ι) :
    Option (Streams ι) := do
  let s ← closeFirst n s down
  let s ← closeOld leaves n (s.setUp down (some up)) up
  some { s with
    bubbleDown := Function.update s.bubbleDown up (some down)
    refs := Function.update s.refs down (s.refs down + 1) }

/-- `streamio_unchain`. -/
def streamioUnchain (leaves : ι → Option ι) (n : ℕ) (s : Streams ι) (up down : ι) :
    Option (Streams ι) :=
  let s := s.setUp down none
  if s.bubbleDown up = some down then unrefDown leaves n s up down else some s

def call (leaves : ι → Option ι) (n : ℕ) (s : Streams ι) : StreamCall ι → Option (Streams ι)
  | .chain up down => streamioChain leaves n s up down
  | .unchain up down => streamioUnchain leaves n s up down

/-- The links are symmetric, and each holds one reference to its lower end, beside those of
the owners. -/
structure Linked (own : ι → ℕ) (s : Streams ι) : Prop where
  symmetric : ∀ u d, s.bubbleDown u = some d ↔ s.bubbleUp d = some u
  held : ∀ u d, s.bubbleDown u = some d → s.refs d = own d + 1
  unheld : ∀ d, (∀ u, s.bubbleDown u ≠ some d) → s.refs d = own d

/-- Each call returns, and leaves the streams linked. -/
def StaysLinked (leaves : ι → Option ι) (own : ι → ℕ) : Streams ι → List (StreamCall ι) → Prop
  | _, [] => True
  | s, c :: calls => ∃ s', (∃ n, s.call leaves n c = some s') ∧ s'.Linked own ∧
      StaysLinked leaves own s' calls

omit [DecidableEq ι] in
/-- Streams that are not linked, with the references of their owners. -/
def unlinked (fd : ι → ℤ) (own : ι → ℕ) : Streams ι where
  fd := fd
  bubbleUp _ := none
  bubbleDown _ := none
  refs := own
  closedFds := []

end Streams

/-! ### The links that the calls are for -/

namespace StreamCall

/-- A call on the links alone: both ends get the new link only. -/
def apply (l : ι ≃. ι) : StreamCall ι → (ι ≃. ι)
  | chain up down => Links.link l up down
  | unchain up down => Links.unlink l up down

omit [DecidableEq ι] in
/-- Two streams are chained that are not linked, or again where the climb from them ends, and
unchained if the lower one is not linked to another. -/
def Settled (l : ι ≃. ι) : StreamCall ι → Prop
  | chain up down => l up = none ∧ l.symm down = none ∨ l up = some down ∧ Links.Ends l.symm up
  | unchain up down => l.symm down = none ∨ l.symm down = some up

end StreamCall

namespace Streams

/-! ### Closing -/

omit [DecidableEq ι] in
/-- The links and the references are the same. -/
structure SameLinks (s s' : Streams ι) : Prop where
  up : s'.bubbleUp = s.bubbleUp
  down : s'.bubbleDown = s.bubbleDown
  refs : s'.refs = s.refs

section Closing
variable {s s' : Streams ι} {strm : ι} {n : ℕ} {leaves : ι → Option ι}

theorem close_same (h : defaultStreamioClose n s strm = some s') : SameLinks s s' := by
  induction n generalizing strm with
  | zero => exact absurd h (Option.some_ne_none s').symm
  | succ n ih =>
    unfold defaultStreamioClose at h
    split at h
    · exact ih h
    · split_ifs at h <;> cases h <;> exact ⟨rfl, rfl, rfl⟩

/-- A close returns only if the climb to the top ends. -/
theorem close_ends (h : defaultStreamioClose n s strm = some s') :
    Links.Ends s.bubbleUp strm := by
  induction n generalizing strm with
  | zero => exact absurd h (Option.some_ne_none s').symm
  | succ n ih =>
    unfold defaultStreamioClose at h
    split at h
    · rename_i up hup
      exact (Links.ends_of_some hup).mpr (ih h)
    · rename_i hup
      exact Links.ends_of_none hup

/-- If the climb ends, enough fuel lets a close return in all states with these links. -/
theorem close_returns {f : ι → Option ι} (h : Links.Ends f strm) :
    ∃ fuel, ∀ n, fuel ≤ n → ∀ s : Streams ι, s.bubbleUp = f →
      ∃ s', defaultStreamioClose n s strm = some s' := by
  induction h with
  | intro strm _ ih =>
    cases hup : f strm with
    | none =>
      refine ⟨1, fun n hn s hs => ?_⟩
      obtain ⟨n, rfl⟩ := Nat.exists_eq_add_of_le' hn
      unfold defaultStreamioClose
      rw [hs, hup]
      dsimp only
      split_ifs
      · exact ⟨_, rfl⟩
      · exact ⟨_, rfl⟩
    | some up =>
      obtain ⟨fuel, hfuel⟩ := ih up hup
      refine ⟨fuel + 1, fun n hn s hs => ?_⟩
      obtain ⟨n, rfl⟩ := Nat.exists_eq_add_of_le' (Nat.le_of_add_left_le hn)
      unfold defaultStreamioClose
      rw [hs, hup]
      exact hfuel n (Nat.le_of_add_le_add_right hn) s hs

/-- Where references remain, `OPPUNREF` counts and sets the pointer. -/
theorem unrefDown_kept {u d : ι} (h : 2 ≤ s.refs d) : unrefDown leaves (n + 1) s u d = some { s with
    refs := Function.update s.refs d (s.refs d - 1)
    bubbleDown := Function.update s.bubbleDown u (leaves d) } := by
  have hcount : Function.update s.refs d (s.refs d - 1) d ≠ 0 := by
    rw [Function.update_self]
    omega
  unfold unrefDown oppUnref
  dsimp only
  rw [if_neg hcount]
  rfl

end Closing

/-! ### Chaining and unchaining -/

/-- Both ends of the link are written, one reference is taken, and one given back for the old
lower end. -/
structure Chained (s s' : Streams ι) (u d : ι) : Prop where
  up : s'.bubbleUp = Function.update s.bubbleUp d (some u)
  down : s'.bubbleDown = Function.update s.bubbleDown u (some d)
  refs : ∀ x, s'.refs x =
    (s.refs x - if s.bubbleDown u = some x then 1 else 0) + if x = d then 1 else 0

/-- The lower end is written, the upper one if it has this lower end, with its reference. -/
structure Unchained (s s' : Streams ι) (u d : ι) : Prop where
  up : s'.bubbleUp = Function.update s.bubbleUp d none
  down : s'.bubbleDown =
    if s.bubbleDown u = some d then Function.update s.bubbleDown u none else s.bubbleDown
  refs : ∀ x, s'.refs x = s.refs x - if s.bubbleDown u = some d ∧ x = d then 1 else 0

section Calls
variable {s s' : Streams ι} {u d : ι} {n : ℕ} {leaves : ι → Option ι}

theorem unchain_returns (hrefs : s.bubbleDown u = some d → 2 ≤ s.refs d) :
    ∃ s', streamioUnchain leaves (n + 1) s u d = some s' := by
  unfold streamioUnchain
  dsimp only
  split_ifs with hlinked
  · exact ⟨_, unrefDown_kept (hrefs hlinked)⟩
  · exact ⟨_, rfl⟩

theorem unchain_unchained (hleaves : ∀ x, leaves x = none)
    (hrefs : s.bubbleDown u = some d → 2 ≤ s.refs d)
    (h : streamioUnchain leaves n s u d = some s') : Unchained s s' u d := by
  by_cases hlinked : s.bubbleDown u = some d
  · replace h : unrefDown leaves n (s.setUp d none) u d = some s' := (if_pos hlinked).symm.trans h
    cases n with
    | zero => exact absurd h (Option.some_ne_none s').symm
    | succ n =>
      rw [unrefDown_kept (s := s.setUp d none) (hrefs hlinked)] at h
      cases h
      refine ⟨rfl, ?_, fun x => ?_⟩
      · rw [if_pos hlinked, hleaves, setUp_bubbleDown]
      · by_cases hx : x = d
        · rw [hx, if_pos ⟨hlinked, rfl⟩]
          exact Function.update_self ..
        · rw [if_neg fun h => hx h.2]
          exact Function.update_of_ne hx ..
  · replace h : some (s.setUp d none) = some s' := (if_neg hlinked).symm.trans h
    cases h
    refine ⟨rfl, ?_, fun x => ?_⟩
    · rw [if_neg hlinked, setUp_bubbleDown]
    · rw [if_neg fun h => hlinked h.1, setUp_refs, Nat.sub_zero]

theorem closeFirst_same (h : closeFirst n s d = some s') : SameLinks s s' := by
  unfold closeFirst at h
  split_ifs at h
  · exact close_same h
  · cases h
    exact ⟨rfl, rfl, rfl⟩

theorem closeOld_some {old : ι} (h : s.bubbleDown u = some old) : closeOld leaves n s u =
    (defaultStreamioClose n s old).bind fun s => unrefDown leaves n s u old := by
  unfold closeOld
  rw [h]
  rfl

/-- The old lower stream loses the reference and keeps its link. -/
theorem closeOld_spec (hrefs : ∀ x, s.bubbleDown u = some x → 2 ≤ s.refs x)
    (h : closeOld leaves n s u = some s') :
    s'.bubbleUp = s.bubbleUp ∧ (∀ x ≠ u, s'.bubbleDown x = s.bubbleDown x) ∧
      ∀ x, s'.refs x = s.refs x - if s.bubbleDown u = some x then 1 else 0 := by
  unfold closeOld at h
  split at h
  · rename_i hnone
    cases h
    refine ⟨rfl, fun _ _ => rfl, fun x => ?_⟩
    rw [hnone, if_neg (Option.some_ne_none x).symm, Nat.sub_zero]
  · rename_i old hold
    obtain ⟨t, hclose, h⟩ := Option.bind_eq_some_iff.mp h
    have hsame := close_same hclose
    cases n with
    | zero => exact absurd hclose (Option.some_ne_none t).symm
    | succ n =>
      rw [unrefDown_kept (by rw [hsame.refs]; exact hrefs old hold)] at h
      cases h
      refine ⟨hsame.up, fun x hx => ?_, fun x => ?_⟩
      · rw [← hsame.down]
        exact Function.update_of_ne hx ..
      · rw [hold, ← hsame.refs]
        by_cases hx : x = old
        · rw [hx, if_pos rfl]
          exact Function.update_self ..
        · rw [if_neg fun h => hx (Option.some.inj h).symm]
          exact Function.update_of_ne hx ..

/-- A chain that returns has written both ends, whatever it closed before. -/
theorem chain_chained (hrefs : ∀ x, s.bubbleDown u = some x → 2 ≤ s.refs x)
    (h : streamioChain leaves n s u d = some s') : Chained s s' u d := by
  obtain ⟨s₁, hfirst, h⟩ := Option.bind_eq_some_iff.mp h
  obtain ⟨s₂, hold, h⟩ := Option.bind_eq_some_iff.mp h
  cases h
  have hsame := closeFirst_same hfirst
  have hrefs' : ∀ x, (s₁.setUp d (some u)).bubbleDown u = some x →
      2 ≤ (s₁.setUp d (some u)).refs x := by
    rw [setUp_bubbleDown, setUp_refs, hsame.down, hsame.refs]
    exact hrefs
  obtain ⟨hup, hdown, hcount⟩ := closeOld_spec hrefs' hold
  refine ⟨?_, ?_, fun x => ?_⟩
  · exact hup.trans (by rw [setUp_bubbleUp, hsame.up])
  · funext x
    change Function.update s₂.bubbleDown u (some d) x = _
    by_cases hx : x = u
    · rw [hx, Function.update_self, Function.update_self]
    · rw [Function.update_of_ne hx, Function.update_of_ne hx, hdown x hx]
      exact congrFun hsame.down x
  · have hcount' : s₂.refs x = s.refs x - if s.bubbleDown u = some x then 1 else 0 := by
      rw [hcount, setUp_refs, setUp_bubbleDown, hsame.refs, hsame.down]
    rw [← hcount']
    change Function.update s₂.refs d (s₂.refs d + 1) x = _
    by_cases hx : x = d
    · rw [hx, Function.update_self, if_pos rfl]
    · rw [Function.update_of_ne hx, if_neg hx, Nat.add_zero]

theorem chain_returns {s₁ s₂ : Streams ι} (hfirst : closeFirst n s d = some s₁)
    (hold : closeOld leaves n (s₁.setUp d (some u)) u = some s₂) :
    ∃ s', streamioChain leaves n s u d = some s' :=
  ⟨_, Option.bind_eq_some_iff.mpr ⟨s₁, hfirst, Option.bind_eq_some_iff.mpr ⟨s₂, hold, rfl⟩⟩⟩

theorem chain_returns_free (hup : s.bubbleUp d = none) (hdown : s.bubbleDown u = none) :
    ∃ s', streamioChain leaves n s u d = some s' := by
  have hfirst : closeFirst n s d = some s := by
    unfold closeFirst
    rw [hup]
    rfl
  refine chain_returns hfirst (?_ : _ = some (s.setUp d (some u)))
  have hdown' : (s.setUp d (some u)).bubbleDown u = none := hdown
  unfold closeOld
  rw [hdown']

/-- Streams that are linked are chained again if the climb from them ends. -/
theorem chain_returns_again (hup : s.bubbleUp d = some u) (hdown : s.bubbleDown u = some d)
    (hrefs : 2 ≤ s.refs d) (h : Links.Ends s.bubbleUp u) :
    ∃ n s', streamioChain leaves n s u d = some s' := by
  obtain ⟨fuel, hfuel⟩ := close_returns ((Links.ends_of_some hup).mpr h)
  obtain ⟨s₁, hclose⟩ := hfuel (fuel + 1) (Nat.le_succ fuel) s rfl
  have hsame := close_same hclose
  have hfirst : closeFirst (fuel + 1) s d = some s₁ := by
    unfold closeFirst
    rw [hup]
    exact hclose
  have hagain : (s₁.setUp d (some u)).bubbleUp = s.bubbleUp := by
    rw [setUp_bubbleUp, hsame.up, ← hup, Function.update_eq_self]
  obtain ⟨s₂, hclose'⟩ := hfuel (fuel + 1) (Nat.le_succ fuel) _ hagain
  have hsame' := close_same hclose'
  have hold : ∃ s₃, closeOld leaves (fuel + 1) (s₁.setUp d (some u)) u = some s₃ := by
    have hdown' : (s₁.setUp d (some u)).bubbleDown u = some d :=
      (congrFun hsame.down u).trans hdown
    have hrefs' : 2 ≤ s₂.refs d := by
      rw [hsame'.refs]
      exact hrefs.trans_eq (congrFun hsame.refs d).symm
    rw [closeOld_some hdown', hclose']
    exact ⟨_, unrefDown_kept hrefs'⟩
  obtain ⟨s₃, hold⟩ := hold
  exact ⟨fuel + 1, chain_returns hfirst hold⟩

/-- They are not chained again if it does not. -/
theorem chain_ends (hup : s.bubbleUp d = some u) (h : streamioChain leaves n s u d = some s') :
    Links.Ends s.bubbleUp u := by
  obtain ⟨s₁, hfirst, -⟩ := Option.bind_eq_some_iff.mp h
  unfold closeFirst at hfirst
  rw [if_pos (by rw [hup]; rfl)] at hfirst
  exact (Links.ends_of_some hup).mp (close_ends hfirst)

end Calls

/-! ### The links that the streams have -/

omit [DecidableEq ι] in
/-- The streams have these links, and each link a reference. -/
structure Represents (own : ι → ℕ) (s : Streams ι) (l : ι ≃. ι) : Prop where
  down : s.bubbleDown = l
  up : s.bubbleUp = l.symm
  refs : ∀ d, s.refs d = own d + if (l.symm d).isSome then 1 else 0

section Links
variable {own : ι → ℕ} {s s' : Streams ι} {l : ι ≃. ι} {u d : ι} {leaves : ι → Option ι}

omit [DecidableEq ι] in
theorem represents_unlinked (fd : ι → ℤ) (own : ι → ℕ) : (unlinked fd own).Represents own ⊥ :=
  ⟨rfl, rfl, fun _ => rfl⟩

omit [DecidableEq ι] in
theorem Represents.linked (h : s.Represents own l) : s.Linked own := by
  refine ⟨fun u d => ?_, fun u d hd => ?_, fun d hd => ?_⟩
  · rw [h.down, h.up]
    exact l.eq_some_iff.symm
  · rw [h.down, ← l.eq_some_iff] at hd
    rw [h.refs, hd]
    rfl
  · have hnone : l.symm d = none := by
      by_contra hsome
      obtain ⟨u, hu⟩ := Option.ne_none_iff_exists'.mp hsome
      exact hd u (h.down ▸ l.eq_some_iff.mp hu)
    rw [h.refs, hnone]
    rfl

omit [DecidableEq ι] in
/-- A linked stream has a reference beside that of its link. -/
theorem Represents.two_refs (h : s.Represents own l) (hown : ∀ x, 0 < own x)
    (hd : s.bubbleDown u = some d) : 2 ≤ s.refs d := by
  rw [h.linked.held u d hd]
  exact Nat.succ_le_succ (hown d)

/-- The reference of its link given back, a stream has those of its owners. -/
theorem Represents.owned (h : s.Represents own l) (hd : l.symm d = none ∨ l.symm d = some u) :
    (s.refs d - if l u = some d then 1 else 0) = own d := by
  have hsame : l u = some d ↔ l.symm d = some u := l.eq_some_iff.symm
  rcases hd with hd | hd
  · have hfree : l u ≠ some d := by
      rw [Ne, hsame, hd]
      exact (Option.some_ne_none u).symm
    rw [h.refs, if_neg hfree, hd]
    rfl
  · rw [h.refs, if_pos (hsame.mpr hd), hd]
    rfl

/-- A chain between streams that have no other link makes the link. -/
theorem Represents.chain (h : s.Represents own l) (hs : Chained s s' u d)
    (hu : l u = none ∨ l u = some d) (hd : l.symm d = none ∨ l.symm d = some u) :
    s'.Represents own (Links.link l u d) := by
  have hup := Links.coe_link_symm hu
  refine ⟨?_, ?_, fun x => ?_⟩
  · rw [Links.coe_link hd, hs.down, h.down]
  · rw [hup, hs.up, h.up]
  · rw [hup, hs.refs, h.refs, h.down]
    by_cases hx : x = d
    · rw [hx, Function.update_self, ← h.refs, h.owned hd, if_pos rfl]
      rfl
    · have hother : l u ≠ some x := by
        rcases hu with hu | hu
        · rw [hu]
          exact (Option.some_ne_none x).symm
        · rw [hu]
          exact fun h => hx (Option.some.inj h).symm
      rw [Function.update_of_ne hx, if_neg hother, if_neg hx]
      rfl

/-- An unchain of a stream that has no other upper one dissolves the link. -/
theorem Represents.unchain (h : s.Represents own l) (hs : Unchained s s' u d)
    (hd : l.symm d = none ∨ l.symm d = some u) : s'.Represents own (Links.unlink l u d) := by
  have hup := Links.coe_unlink_symm hd
  refine ⟨?_, ?_, fun x => ?_⟩
  · rw [Links.coe_unlink, hs.down, h.down]
  · rw [hup, hs.up, h.up]
  · rw [hup, hs.refs, h.refs, h.down]
    by_cases hx : x = d
    · rw [hx, Function.update_self, ← h.refs]
      simpa using h.owned hd
    · rw [Function.update_of_ne hx, if_neg (mt And.right hx), Nat.sub_zero]

/-- A settled call returns, and does to the streams what it does to the links. -/
theorem Represents.call_returns (h : s.Represents own l) (hown : ∀ x, 0 < own x)
    (hleaves : ∀ x, leaves x = none) {c : StreamCall ι} (hc : c.Settled l) :
    ∃ s', (∃ n, s.call leaves n c = some s') ∧ s'.Represents own (c.apply l) := by
  cases c with
  | chain u d =>
    have hreturns : ∃ n s', streamioChain leaves n s u d = some s' := by
      rcases hc with ⟨hu, hd⟩ | ⟨hu, hends⟩
      · exact ⟨0, chain_returns_free (h.up ▸ hd) (h.down ▸ hu)⟩
      · have hdown : s.bubbleDown u = some d := h.down ▸ hu
        refine chain_returns_again ?_ hdown (h.two_refs hown hdown) (h.up ▸ hends)
        exact h.up ▸ l.eq_some_iff.mpr hu
    obtain ⟨n, s', hs'⟩ := hreturns
    refine ⟨s', ⟨n, hs'⟩, h.chain (chain_chained (fun x => h.two_refs hown) hs') ?_ ?_⟩
    · exact hc.imp And.left And.left
    · exact hc.imp And.right fun hc => l.eq_some_iff.mpr hc.1
  | unchain u d =>
    have hrefs := fun hd => h.two_refs hown (u := u) (d := d) hd
    obtain ⟨s', hs'⟩ := unchain_returns (n := 0) hrefs
    exact ⟨s', ⟨1, hs'⟩, h.unchain (unchain_unchained hleaves hrefs hs') hc⟩

/-- A call that returns and leaves the streams linked is settled. -/
theorem Represents.call_settled (h : s.Represents own l) (hown : ∀ x, 0 < own x)
    (hleaves : ∀ x, leaves x = none) {c : StreamCall ι} {n : ℕ} (hs : s.call leaves n c = some s')
    (hlinked : s'.Linked own) : c.Settled l ∧ s'.Represents own (c.apply l) := by
  cases c with
  | chain u d =>
    have hchained := chain_chained (fun x => h.two_refs hown) hs
    have hsym := hlinked.symmetric
    rw [hchained.down, hchained.up, h.down, h.up] at hsym
    obtain ⟨hu, hd⟩ := Links.mutual_update_iff.mp hsym
    refine ⟨?_, h.chain hchained hu hd⟩
    rcases hu with hu | hu
    · refine .inl ⟨hu, hd.resolve_right fun hd => ?_⟩
      exact Option.some_ne_none d ((l.eq_some_iff.mp hd).symm.trans hu)
    · have hup : s.bubbleUp d = some u := h.up ▸ l.eq_some_iff.mpr hu
      exact .inr ⟨hu, h.up ▸ chain_ends hup hs⟩
  | unchain u d =>
    have hunchained := unchain_unchained hleaves (fun hd => h.two_refs hown hd) hs
    have hsym := hlinked.symmetric
    rw [hunchained.down, hunchained.up, h.down, h.up] at hsym
    have hd := Links.mutual_dissolve_iff.mp hsym
    exact ⟨hd, h.unchain hunchained hd⟩

end Links
end Streams

/-- From streams that are not linked, over every sequence of calls: each returns and leaves the
links symmetric, with one reference each, exactly if each is settled for the links before it. -/
theorem links_symmetric_iff {leaves : ι → Option ι} (hleaves : ∀ x, leaves x = none) {own : ι → ℕ}
    (hown : ∀ x, 0 < own x) (fd : ι → ℤ) (calls : List (StreamCall ι)) :
    (Streams.unlinked fd own).StaysLinked leaves own calls ↔
      Transition.Along StreamCall.apply StreamCall.Settled ⊥ calls := by
  suffices h : ∀ (s : Streams ι) (l : ι ≃. ι), s.Represents own l →
      (s.StaysLinked leaves own calls ↔
        Transition.Along StreamCall.apply StreamCall.Settled l calls) from
    h _ _ (Streams.represents_unlinked fd own)
  induction calls with
  | nil => exact fun _ _ _ => Iff.rfl
  | cons c calls ih =>
    intro s l hs
    constructor
    · rintro ⟨s', ⟨n, hcall⟩, hlinked, hrest⟩
      obtain ⟨hsettled, hs'⟩ := hs.call_settled hown hleaves hcall hlinked
      exact ⟨hsettled, (ih s' _ hs').mp hrest⟩
    · rintro ⟨hsettled, hrest⟩
      obtain ⟨s', hcall, hs'⟩ := hs.call_returns hown hleaves hsettled
      exact ⟨s', hcall, hs'.linked, (ih s' _ hs').mpr hrest⟩

theorem links_symmetric_relinked : (Streams.unlinked (fun _ => -1) fun _ => 1).StaysLinked
    (fun _ => none) (fun _ => 1) [.chain 0 1, .unchain 0 1, .chain 2 (1 : ℕ), .chain 2 1] := by
  rw [links_symmetric_iff (fun _ => rfl) fun _ => Nat.one_pos]
  refine ⟨.inl ⟨rfl, rfl⟩, .inr rfl, .inl ⟨rfl, rfl⟩, .inr ⟨rfl, ?_⟩, trivial⟩
  exact Links.ends_of_none rfl

/-- Chained to another upper stream, a stream stays the lower one of the first, and chained to
another lower stream, an upper one stays that of the first. -/
theorem links_turn_asymmetric :
    let s : Streams ℕ := .unlinked (fun _ => -1) fun _ => 1
    (∃ t t', s.call (fun _ => none) 2 (.chain 0 1) = some t ∧
      t.call (fun _ => none) 2 (.chain 2 1) = some t' ∧ t'.bubbleDown 0 = some 1 ∧
        t'.bubbleUp 1 = some 2) ∧
      ¬ s.StaysLinked (fun _ => none) (fun _ => 1) [.chain 0 1, .chain 2 1] ∧
        ¬ s.StaysLinked (fun _ => none) (fun _ => 1) [.chain 0 1, .chain 0 2] := by
  intro s
  refine ⟨⟨_, _, rfl, rfl, rfl, rfl⟩, ?_, ?_⟩
  · rw [links_symmetric_iff (fun _ => rfl) fun _ => Nat.one_pos]
    rintro ⟨-, ⟨-, hd⟩ | ⟨hu, -⟩, -⟩
    · exact absurd hd (by decide)
    · exact absurd hu (by decide)
  · rw [links_symmetric_iff (fun _ => rfl) fun _ => Nat.one_pos]
    rintro ⟨-, ⟨hu, -⟩ | ⟨hu, -⟩, -⟩
    · exact absurd hu (by decide)
    · exact absurd hu (by decide)

end Nginz
