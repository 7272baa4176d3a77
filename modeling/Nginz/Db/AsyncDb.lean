import Nginz.Lib.KeyedStore
import Nginz.Parallel.AsyncRequest

/-! The worker's side of the asynchronous store: what each call sends to the master. -/
namespace Nginz
open KeyedStore

def compareAndSetApp : Bytes := lit "asyncdb/cas/request"
def setIfNullApp : Bytes := lit "asyncdb/sin/request"
def unsetApp : Bytes := lit "asyncdb/unset/request"
def getApp : Bytes := lit "asyncdb/get/request"

/-- `aroop_txt_printf` with `"%d"`. -/
def decimal (n : ℤ) : Bytes :=
  (if n < 0 then [45] else []) ++
    if n = 0 then [48] else (Nat.digits 10 n.natAbs).reverse.map fun d => UInt8.ofNat (48 + d)

theorem decimal_natCast_injective {m n : ℕ} (h : decimal m = decimal n) : m = n := by
  have hdigits : ∀ k : ℕ, k ≠ 0 → decimal k = (Nat.digits 10 k).reverse.map fun d =>
      UInt8.ofNat (48 + d) := by
    intro k hk
    unfold decimal
    simp [hk, Int.natAbs_natCast]
  have hback : ∀ k : ℕ, (decimal k).map (fun c => c.toNat - 48) =
      if k = 0 then [0] else (Nat.digits 10 k).reverse := by
    intro k
    split
    · rename_i hk
      subst hk
      decide
    · rename_i hk
      rw [hdigits k hk, List.map_map]
      conv_rhs => rw [← List.map_id (Nat.digits 10 k).reverse]
      apply List.map_congr_left
      intro d hd
      have hlt : d < 10 := Nat.digits_lt_base (by decide) (List.mem_reverse.mp hd)
      simp only [Function.comp, id_eq, UInt8.toNat_ofNat']
      omega
  have hnonzero : ∀ k : ℕ, k ≠ 0 → (Nat.digits 10 k).reverse ≠ [0] := by
    intro k hk he
    have hlast := Nat.getLast_digit_ne_zero 10 hk
    have hd : Nat.digits 10 k = [0] := by
      rw [← List.reverse_reverse (Nat.digits 10 k), he]
      rfl
    simp [hd] at hlast
  have hm := hback m
  rw [h, hback n] at hm
  split at hm <;> split at hm
  · omega
  · exact absurd hm.symm (hnonzero m ‹_›)
  · exact absurd hm (hnonzero n ‹_›)
  · exact (Nat.digits_inj_iff.mp (List.reverse_injective hm)).symm

theorem decimal_neg {n : ℤ} (h : n < 0) : decimal n = 45 :: decimal n.natAbs := by
  have hne : n ≠ 0 := by omega
  have hpos : ¬ (n.natAbs : ℤ) < 0 := by omega
  have hne' : (n.natAbs : ℤ) ≠ 0 := by omega
  unfold decimal
  rw [if_pos h, if_neg hne, if_neg hpos, if_neg hne', Int.natAbs_natCast]
  rfl

theorem decimal_ne_nil (n : ℤ) : decimal n ≠ [] := by
  unfold decimal
  split_ifs with hneg hzero hzero <;> simp [hzero]

theorem decimal_head (k : ℕ) : (decimal k).head? ≠ some 45 := by
  by_cases hk : k = 0
  · subst hk
    decide
  · intro hhead
    have hpos : ¬ (k : ℤ) < 0 := by omega
    unfold decimal at hhead
    simp only [hpos, ↓reduceIte, List.nil_append, Nat.cast_eq_zero, hk, Int.natAbs_natCast,
      List.head?_map, Option.map_eq_some_iff] at hhead
    obtain ⟨d, hd, hchar⟩ := hhead
    have hlt : d < 10 :=
      Nat.digits_lt_base (by decide) (List.mem_reverse.mp (List.mem_of_mem_head? hd))
    have hnat := congrArg UInt8.toNat hchar
    simp only [UInt8.toNat_ofNat'] at hnat
    have h45 : (45 : UInt8).toNat = 45 := rfl
    omega

/-- Two numbers with one text are the same. -/
theorem decimal_injective : Function.Injective decimal := by
  intro m n h
  have hsign {a b : ℤ} (ha : a < 0) (hb : 0 ≤ b) (hab : decimal a = decimal b) : False := by
    obtain ⟨k, rfl⟩ := Int.eq_ofNat_of_zero_le hb
    refine decimal_head k ?_
    rw [← hab, decimal_neg ha]
    rfl
  rcases lt_or_ge m 0 with hm | hm <;> rcases lt_or_ge n 0 with hn | hn
  · rw [decimal_neg hm, decimal_neg hn] at h
    have habs := decimal_natCast_injective (List.tail_eq_of_cons_eq h)
    omega
  · exact absurd (hsign hm hn h) id
  · exact absurd (hsign hn hm h.symm) id
  · obtain ⟨j, rfl⟩ := Int.eq_ofNat_of_zero_le hm
    obtain ⟨k, rfl⟩ := Int.eq_ofNat_of_zero_le hn
    rw [decimal_natCast_injective h]

/-- The datagram sent; `none` when an assertion fails. -/
def asyncDbCompareAndSwap (L : TxtLib) (pid cbToken : ℤ) (cbHook : Option Bytes) (key : Bytes)
    (newval oldval : Option Bytes) : Option Bytes :=
  let cbHook := cbHook.getD nullHook
  if key = [] then none
  else if oldval.isSome ∧ newval.getD [] = [] then none
  else
    let app :=
      if oldval.isSome then compareAndSetApp
      else if newval.isSome then setIfNullApp
      else unsetApp
    some (asyncPmCallMaster L pid cbToken (some cbHook) app [some key, newval, oldval, none])

def asyncDbUnset (L : TxtLib) (pid cbToken : ℤ) (cbHook : Option Bytes) (key : Bytes) :
    Option Bytes :=
  let cbHook := cbHook.getD nullHook
  asyncDbCompareAndSwap L pid cbToken (some cbHook) key none none

def asyncDbSetIfNull (L : TxtLib) (pid cbToken : ℤ) (cbHook : Option Bytes) (key : Bytes)
    (intval : ℤ) : Option Bytes :=
  let cbHook := cbHook.getD nullHook
  asyncDbCompareAndSwap L pid cbToken (some cbHook) key (some (decimal intval)) none

/-- The datagrams of an increment, in the order they are sent. -/
def asyncDbIncrement (L : TxtLib) (pid cbToken : ℤ) (cbHook : Option Bytes) (key : Bytes)
    (intval increment : ℤ) : Option (List Bytes) :=
  let cbHook := cbHook.getD nullHook
  if intval + increment = 0 then
    (asyncDbUnset L pid (-1) none key).map fun d => [d]
  else do
    let first ←
      if intval = 0 then (asyncDbSetIfNull L pid (-1) none key increment).map fun d => [d]
      else some []
    let swap ← asyncDbCompareAndSwap L pid cbToken (some cbHook) key
      (some (decimal (intval + increment))) (some (decimal intval))
    some (first ++ [swap])

def asyncDbGet (L : TxtLib) (pid cbToken : ℤ) (cbHook : Option Bytes) (key : Bytes) :
    Option Bytes :=
  let cbHook := cbHook.getD nullHook
  if key = [] then none
  else some (asyncPmCallMaster L pid cbToken (some cbHook) getApp [some key, none])

/-- A call of one of the functions above. -/
inductive DbCall where
  | compareAndSwap (cbToken : ℤ) (cbHook : Option Bytes) (key : Bytes)
    (newval oldval : Option Bytes)
  | setIfNull (cbToken : ℤ) (cbHook : Option Bytes) (key : Bytes) (intval : ℤ)
  | unset (cbToken : ℤ) (cbHook : Option Bytes) (key : Bytes)
  | get (cbToken : ℤ) (cbHook : Option Bytes) (key : Bytes)
  | increment (cbToken : ℤ) (cbHook : Option Bytes) (key : Bytes) (intval increment : ℤ)
  deriving DecidableEq, Repr

/-- The datagrams a call sends. -/
def DbCall.send (L : TxtLib) (pid : ℤ) : DbCall → Option (List Bytes)
  | compareAndSwap t h k new old => (asyncDbCompareAndSwap L pid t h k new old).map fun d => [d]
  | setIfNull t h k n => (asyncDbSetIfNull L pid t h k n).map fun d => [d]
  | unset t h k => (asyncDbUnset L pid t h k).map fun d => [d]
  | get t h k => (asyncDbGet L pid t h k).map fun d => [d]
  | increment t h k n d => asyncDbIncrement L pid t h k n d

/-! ### Requests -/

/-- An operation on the store, with what the reply needs. -/
structure DbRequest where
  srcpid : ℤ
  cbToken : ℤ
  cbHook : Bytes
  key : Bytes
  op : Op Bytes
  deriving DecidableEq, Repr

namespace DbRequest

def app : Op Bytes → Bytes
  | .cas _ _ => compareAndSetApp
  | .setIfNull _ => setIfNullApp
  | .unset => unsetApp
  | .get => getApp

theorem app_ne_nil (op : Op Bytes) : app op ≠ [] := by
  cases op with
  | cas new old => exact (by decide : compareAndSetApp ≠ [])
  | setIfNull new => exact (by decide : setIfNullApp ≠ [])
  | unset => decide
  | get => decide

def args : Op Bytes → List Bytes
  | .cas new old => [new, old]
  | .setIfNull new => [new]
  | .unset => []
  | .get => []

def fields (r : DbRequest) : List Field :=
  callFields r.srcpid r.cbToken r.cbHook (app r.op) (r.key :: args r.op)

/-- The key and the operation. -/
def keyOp (r : DbRequest) : Bytes × Op Bytes := (r.key, r.op)

/-- Nobody listens for the reply: the master takes an empty hook for the null hook. -/
def HookIsNull (r : DbRequest) : Prop := r.cbHook = [] ∨ r.cbHook = nullHook

instance : DecidablePred HookIsNull := fun r => by unfold HookIsNull; infer_instance

/-- What the store is promised of a request: a key, values, a token that survives the
coder if there is somebody to reply to, and a short message. -/
structure Admissible (r : DbRequest) : Prop where
  key : r.key ≠ []
  values : ∀ v ∈ args r.op, v ≠ []
  pid : 0 ≤ r.srcpid ∧ r.srcpid < 2 ^ 31
  token : r.HookIsNull ∨ 0 ≤ r.cbToken ∧ r.cbToken < 2 ^ 31
  short : packedLength r.fields ≤ 255

/-- What a request needs to get to the store: a key, values, and a short message. -/
structure Sendable (r : DbRequest) : Prop where
  key : r.key ≠ []
  values : ∀ v ∈ args r.op, v ≠ []
  short : packedLength r.fields ≤ 255

theorem Admissible.sendable {r : DbRequest} (h : r.Admissible) : r.Sendable :=
  ⟨h.key, h.values, h.short⟩

instance : DecidablePred Admissible := fun r =>
  decidable_of_iff (r.key ≠ [] ∧ (∀ v ∈ args r.op, v ≠ []) ∧ (0 ≤ r.srcpid ∧ r.srcpid < 2 ^ 31) ∧
      (r.HookIsNull ∨ 0 ≤ r.cbToken ∧ r.cbToken < 2 ^ 31) ∧ packedLength r.fields ≤ 255)
    ⟨fun ⟨hk, hv, hp, ht, hs⟩ => ⟨hk, hv, hp, ht, hs⟩,
      fun h => ⟨h.key, h.values, h.pid, h.token, h.short⟩⟩

end DbRequest

/-- What a compare-and-swap with a `NULL` in the place of either value stands for. -/
def swapOp : Option Bytes → Option Bytes → Option (Op Bytes)
  | some new, some old => some (.cas new old)
  | some new, none => some (.setIfNull new)
  | none, none => some .unset
  | none, some _ => none

/-- The operations a call stands for. -/
def DbCall.requests (pid : ℤ) : DbCall → List DbRequest
  | compareAndSwap t h k new old =>
    (swapOp new old).toList.map fun op => ⟨pid, t, h.getD nullHook, k, op⟩
  | setIfNull t h k n => [⟨pid, t, h.getD nullHook, k, .setIfNull (decimal n)⟩]
  | unset t h k => [⟨pid, t, h.getD nullHook, k, .unset⟩]
  | get t h k => [⟨pid, t, h.getD nullHook, k, .get⟩]
  | increment t h k n d =>
    if n + d = 0 then [⟨pid, -1, nullHook, k, .unset⟩]
    else (if n = 0 then [⟨pid, -1, nullHook, k, .setIfNull (decimal d)⟩] else []) ++
      [⟨pid, t, h.getD nullHook, k, .cas (decimal (n + d)) (decimal n)⟩]

/-- A call whose requests are admissible, and that is not the one the assertion on
`newval` refuses. -/
def DbCall.Admissible (pid : ℤ) (c : DbCall) : Prop :=
  c.requests pid ≠ [] ∧ ∀ r ∈ c.requests pid, r.Admissible

instance (pid : ℤ) : DecidablePred (DbCall.Admissible pid) := fun c => by
  unfold DbCall.Admissible
  infer_instance

section Send
variable (L : TxtLib) (hroom : L.room nginzMaxBinaryMsgLen < 65536) {pid : ℤ}
include hroom

theorem callMaster_eq {r : DbRequest} (ha : r.Sendable) {x : List (Option Bytes)}
    (hx : argsUntilNull x = r.key :: DbRequest.args r.op) :
    asyncPmCallMaster L r.srcpid r.cbToken (some r.cbHook) (DbRequest.app r.op) x =
      message r.fields := by
  have hshort := ha.short
  unfold DbRequest.fields at hshort ⊢
  rw [← hx] at hshort ⊢
  exact asyncPmCallMaster_eq L hroom hshort

theorem compareAndSwap_eq {t : ℤ} {h : Option Bytes} {k : Bytes} {new old : Option Bytes}
    {op : Op Bytes} (hop : swapOp new old = some op)
    (ha : DbRequest.Sendable ⟨pid, t, h.getD nullHook, k, op⟩) :
    asyncDbCompareAndSwap L pid t h k new old =
      some (message (DbRequest.fields ⟨pid, t, h.getD nullHook, k, op⟩)) := by
  have hkey : k ≠ [] := ha.key
  have hval := ha.values
  unfold asyncDbCompareAndSwap
  rcases new with _ | new <;> rcases old with _ | old <;> simp only [swapOp, Option.some.injEq,
    reduceCtorEq] at hop <;> subst hop
  · have hsent := callMaster_eq L hroom ha (x := [some k, none, none, none]) rfl
    simpa [hkey, DbRequest.app] using hsent
  · have hsent := callMaster_eq L hroom ha (x := [some k, some new, none, none]) rfl
    simpa [hkey, DbRequest.app] using hsent
  · have hnew : new ≠ [] := hval new (by simp [DbRequest.args])
    have hsent := callMaster_eq L hroom ha (x := [some k, some new, some old, none]) rfl
    simpa [hkey, hnew, DbRequest.app] using hsent

theorem setIfNull_eq {t : ℤ} {h : Option Bytes} {k : Bytes} {n : ℤ}
    (ha : DbRequest.Sendable ⟨pid, t, h.getD nullHook, k, .setIfNull (decimal n)⟩) :
    asyncDbSetIfNull L pid t h k n =
      some (message (DbRequest.fields
        ⟨pid, t, h.getD nullHook, k, .setIfNull (decimal n)⟩)) := by
  unfold asyncDbSetIfNull
  exact compareAndSwap_eq L hroom (h := some (h.getD nullHook)) rfl ha

theorem unset_eq {t : ℤ} {h : Option Bytes} {k : Bytes}
    (ha : DbRequest.Sendable ⟨pid, t, h.getD nullHook, k, .unset⟩) :
    asyncDbUnset L pid t h k =
      some (message (DbRequest.fields ⟨pid, t, h.getD nullHook, k, .unset⟩)) := by
  unfold asyncDbUnset
  exact compareAndSwap_eq L hroom (h := some (h.getD nullHook)) rfl ha

theorem get_eq {t : ℤ} {h : Option Bytes} {k : Bytes}
    (ha : DbRequest.Sendable ⟨pid, t, h.getD nullHook, k, .get⟩) :
    asyncDbGet L pid t h k = some (message (DbRequest.fields
      ⟨pid, t, h.getD nullHook, k, .get⟩)) := by
  have hkey : k ≠ [] := ha.key
  have hsent := callMaster_eq L hroom ha (x := [some k, none]) rfl
  unfold asyncDbGet
  simpa [hkey, DbRequest.app] using hsent

/-- A call whose requests can be sent sends their messages. -/
theorem send_of_sendable {c : DbCall} (hne : c.requests pid ≠ [])
    (hall : ∀ r ∈ c.requests pid, r.Sendable) :
    c.send L pid = some ((c.requests pid).map fun r => message r.fields) := by
  cases c with
  | compareAndSwap t h k new old =>
    cases hop : swapOp new old with
    | none => simp [DbCall.requests, hop] at hne
    | some op =>
      have ha := hall ⟨pid, t, h.getD nullHook, k, op⟩ (by simp [DbCall.requests, hop])
      simp [DbCall.send, DbCall.requests, compareAndSwap_eq L hroom hop ha, hop]
  | setIfNull t h k n =>
    have ha := hall ⟨pid, t, h.getD nullHook, k, .setIfNull (decimal n)⟩ (by simp [DbCall.requests])
    have hs := setIfNull_eq L hroom ha
    simp [DbCall.send, DbCall.requests, hs]
  | unset t h k =>
    have ha := hall ⟨pid, t, h.getD nullHook, k, .unset⟩ (by simp [DbCall.requests])
    have hs := unset_eq L hroom ha
    simp [DbCall.send, DbCall.requests, hs]
  | get t h k =>
    have ha := hall ⟨pid, t, h.getD nullHook, k, .get⟩ (by simp [DbCall.requests])
    simp [DbCall.send, DbCall.requests, get_eq L hroom ha]
  | increment t h k n d =>
    simp only [DbCall.requests] at hall
    simp only [DbCall.send, DbCall.requests]
    unfold asyncDbIncrement
    by_cases hz : n + d = 0
    · simp only [hz, ↓reduceIte, List.mem_singleton, forall_eq] at hall ⊢
      have hs := unset_eq L hroom (h := none) hall
      simp [hs]
    · simp only [hz, ↓reduceIte, List.mem_append, List.mem_singleton] at hall ⊢
      have hop : swapOp (some (decimal (n + d))) (some (decimal n)) =
          some (.cas (decimal (n + d)) (decimal n)) := rfl
      have hswap := compareAndSwap_eq L hroom (h := some (h.getD nullHook)) (t := t) (k := k) hop
        (hall _ (Or.inr rfl))
      by_cases hn : n = 0
      · have ha := hall ⟨pid, -1, nullHook, k, .setIfNull (decimal d)⟩ (Or.inl (by simp [hn]))
        have hs := setIfNull_eq L hroom (h := none) ha
        simp [hn] at hswap ⊢
        simp [hs, hswap]
      · simp [hn, hswap]

/-- An admissible call sends the messages of its requests. -/
theorem send_eq {c : DbCall} (h : c.Admissible pid) :
    c.send L pid = some ((c.requests pid).map fun r => message r.fields) :=
  send_of_sendable L hroom h.1 fun r hr => (h.2 r hr).sendable

end Send
end Nginz
