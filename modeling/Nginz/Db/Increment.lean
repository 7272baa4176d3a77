import Nginz.Db.Reading

/-! What one increment does to the store when the master serves its messages without others in
between. -/
namespace Nginz
open KeyedStore

/-- The stored count, which is 0 for a key that is absent. -/
def CountIs (cur : Option Bytes) (n : ℤ) : Prop := cur = none ∧ n = 0 ∨ cur = some (decimal n)

instance (cur : Option Bytes) (n : ℤ) : Decidable (CountIs cur n) := by
  unfold CountIs
  infer_instance

theorem countIs_none {n : ℤ} : CountIs none n ↔ n = 0 := by simp [CountIs]

theorem countIs_some {v : Bytes} {n : ℤ} : CountIs (some v) n ↔ v = decimal n := by simp [CountIs]

/-- The value that stands for a count that was just computed. -/
def sumValue (n : ℤ) : Option Bytes := if n = 0 then none else some (decimal n)

/-- The store after an increment on the view `intval`: the sum if the view was right, and
otherwise what it was. -/
def incremented (db : Bytes → Option Bytes) (key : Bytes) (intval increment : ℤ) :
    Bytes → Option Bytes :=
  if CountIs (db key) intval then Function.update db key (sumValue (intval + increment)) else db

/-! ### The operations of an increment -/

/-- The requests of an increment, applied to the store. -/
def incrementRun (db : Bytes → Option Bytes) (pid cbToken : ℤ) (cbHook : Option Bytes) (key : Bytes)
    (intval increment : ℤ) : Bytes → Option Bytes :=
  KeyedStore.run db
    (((DbCall.increment cbToken cbHook key intval increment).requests pid).map DbRequest.keyOp)

section Run
variable {db : Bytes → Option Bytes} {pid cbToken : ℤ} {cbHook : Option Bytes} {key : Bytes}
  {intval increment : ℤ}

theorem increment_requests : (DbCall.increment cbToken cbHook key intval increment).requests pid =
    if intval + increment = 0 then [⟨pid, -1, nullHook, key, .unset⟩]
    else (if intval = 0 then [⟨pid, -1, nullHook, key, .setIfNull (decimal increment)⟩] else []) ++
      [⟨pid, cbToken, cbHook.getD nullHook, key, .cas (decimal (intval + increment))
        (decimal intval)⟩] :=
  rfl

/-- A sum of zero removes the key, whatever its count is. -/
theorem incrementRun_zero (h : intval + increment = 0) :
    incrementRun db pid cbToken cbHook key intval increment = Function.update db key none := by
  unfold incrementRun
  rw [increment_requests, if_pos h]
  rfl

/-- A swap replaces the value it compares with, and no other. -/
theorem apply_cas (new old : Bytes) :
    apply db (key, .cas new old) = if db key = some old then Function.update db key (some new) else
      db := by
  unfold apply Op.update
  by_cases hcur : db key = some old
  · simp [Op.succeeds, Op.written, hcur]
  · simp [Op.succeeds, hcur]

theorem apply_setIfNull (new : Bytes) :
    apply db (key, .setIfNull new) = if db key = none then Function.update db key (some new) else
      db := by
  unfold apply Op.update
  by_cases hcur : db key = none
  · simp [Op.succeeds, Op.written, hcur]
  · simp [Op.succeeds, hcur]

/-- Any other sum replaces the count of the view, and no other. -/
theorem incrementRun_nonzero (h : intval + increment ≠ 0) :
    incrementRun db pid cbToken cbHook key intval increment =
      incremented db key intval increment := by
  unfold incrementRun incremented sumValue
  rw [increment_requests, if_neg h, if_neg h]
  by_cases hview : intval = 0
  · subst hview
    rw [zero_add] at h ⊢
    show apply (apply db (key, .setIfNull (decimal increment))) (key, .cas _ _) = _
    rw [apply_setIfNull]
    rcases hcur : db key with _ | v
    · -- the key is set, and the swap behind it finds another count
      have hother : decimal increment ≠ decimal 0 := fun he => h (decimal_injective he)
      rw [if_pos rfl, if_pos (countIs_none.mpr rfl), apply_cas, if_neg]
      rw [Function.update_self]
      exact fun he => hother (Option.some.inj he)
    · rw [if_neg (Option.some_ne_none v), apply_cas, hcur]
      simp only [Option.some.injEq, countIs_some]
  · rw [if_neg hview]
    show apply db (key, .cas _ _) = _
    rw [apply_cas]
    rcases hcur : db key with _ | v
    · rw [if_neg (by simp), if_neg (countIs_none.not.mpr hview)]
    · simp only [Option.some.injEq, countIs_some]

theorem incrementRun_iff :
    incrementRun db pid cbToken cbHook key intval increment = incremented db key intval increment ↔
      intval + increment ≠ 0 ∨ CountIs (db key) intval ∨ db key = none := by
  by_cases hsum : intval + increment = 0
  · rw [incrementRun_zero hsum]
    unfold incremented sumValue
    by_cases hcount : CountIs (db key) intval
    · simp [hsum, hcount]
    · rw [if_neg hcount, Function.update_eq_self_iff]
      simp [hsum, hcount, eq_comm]
  · simp [incrementRun_nonzero hsum, hsum]

end Run

/-! ### What is read of an increment -/

/-- An operation that was read has nothing to do. -/
def Idle (db : Bytes → Option Bytes) : Bytes × Op Bytes → Prop
  | (key, .cas new old) => key = [] ∨ db key ≠ some old ∨ new = old
  | (key, .setIfNull _) => key = [] ∨ db key ≠ none
  | (key, .unset) => key = [] ∨ db key = none
  | (_, .get) => True

theorem servedStore_eq_self_iff {db : Bytes → Option Bytes} {q : Bytes × Op Bytes} :
    servedStore db q = db ↔ Idle db q := by
  obtain ⟨key, op⟩ := q
  unfold servedStore
  by_cases hkey : key = []
  · cases op <;> simp [hkey, Idle]
  rw [if_neg hkey]
  cases op with
  | cas new old =>
    rw [apply_cas]
    by_cases hcur : db key = some old
    · simp [Idle, hkey, hcur, Function.update_eq_self_iff]
    · simp [Idle, hcur]
  | setIfNull new =>
    rw [apply_setIfNull]
    by_cases hcur : db key = none
    · simp [Idle, hkey, hcur, Function.update_eq_self_iff]
    · simp [Idle, hcur]
  | unset =>
    show Function.update db key none = db ↔ _
    rw [Function.update_eq_self_iff, Idle, eq_comm]
    simp [hkey]
  | get => simp [Idle, apply, Op.update, Op.succeeds, Op.written]

/-- The last operation of an increment. -/
def lastOp (key : Bytes) (intval increment : ℤ) : Bytes × Op Bytes :=
  (key, if intval + increment = 0 then .unset
    else .cas (decimal (intval + increment)) (decimal intval))

/-- The increment asks for no change: the view is wrong, or the count is the sum already. -/
def NoChange (db : Bytes → Option Bytes) (key : Bytes) (intval increment : ℤ) : Prop :=
  ¬ CountIs (db key) intval ∨ db key = sumValue (intval + increment)

theorem incremented_eq_self_iff {db : Bytes → Option Bytes} {key : Bytes} {intval increment : ℤ} :
    incremented db key intval increment = db ↔ NoChange db key intval increment := by
  unfold incremented NoChange
  by_cases hcount : CountIs (db key) intval
  · rw [if_pos hcount, Function.update_eq_self_iff, eq_comm]
    simp [hcount]
  · simp [hcount]

/-- What is read of the last operation does what the increment asks for. -/
def LastLands (db : Bytes → Option Bytes) (key : Bytes) (intval increment : ℤ)
    (q : Bytes × Op Bytes) : Prop :=
  if q = lastOp key intval increment then
    intval + increment ≠ 0 ∨ CountIs (db key) intval ∨ db key = none
  else Idle db q ∧ NoChange db key intval increment

/-- What is read of all operations does what the increment asks for. A count that is absent is
set by the first operation, or by the second one from what the first one set. -/
def Lands (db : Bytes → Option Bytes) (key : Bytes) (intval increment : ℤ) :
    List (Bytes × Op Bytes) → Prop
  | [q] => LastLands db key intval increment q
  | [(k, .setIfNull v), q] =>
    if db key = none then
      k = key ∧ (v = decimal increment ∧ Idle (Function.update db key (some v)) q ∨
        q = (key, .cas (decimal increment) v))
    else Idle db (k, .setIfNull v) ∧ LastLands db key intval increment q
  | _ => False

section Lands
variable {db : Bytes → Option Bytes} {key : Bytes} {intval increment : ℤ}

/-- An operation that changes the store as a swap does is that swap. -/
theorem servedStore_swap {q : Bytes × Op Bytes} {new old : Bytes}
    (hkind : ∃ n o, q.2 = .cas n o) (hcur : db key = some old) (hne : new ≠ old)
    (h : servedStore db q = Function.update db key (some new)) : q = (key, .cas new old) := by
  obtain ⟨k, op⟩ := q
  obtain ⟨n, o, rfl⟩ : ∃ n o, op = .cas n o := hkind
  have hbusy : ¬ Idle db (k, .cas n o) := by
    rw [← servedStore_eq_self_iff, h, Function.update_eq_self_iff, hcur]
    exact fun he => hne (Option.some.inj he)
  simp only [Idle, not_or, not_not] at hbusy
  obtain ⟨hk, hold, hno⟩ := hbusy
  rw [servedStore, if_neg hk, apply_cas, if_pos hold] at h
  have hsame : k = key := by
    by_contra hother
    have hat := congrFun h k
    rw [Function.update_self, Function.update_of_ne hother, hold] at hat
    exact hno (Option.some.inj hat)
  subst hsame
  have hat := congrFun h k
  rw [Function.update_self, Function.update_self] at hat
  obtain rfl := Option.some.inj hat
  obtain rfl := Option.some.inj (hold.symm.trans hcur)
  rfl

/-- One that takes away what is there is the unset of that key. -/
theorem servedStore_unset {q : Bytes × Op Bytes} (hkind : q.2 = .unset) (hcur : db key ≠ none)
    (h : servedStore db q = Function.update db key none) : q = (key, .unset) := by
  obtain ⟨k, op⟩ := q
  obtain rfl : op = .unset := hkind
  have hat := congrFun h key
  rw [Function.update_self] at hat
  unfold servedStore at hat
  split at hat
  · exact absurd hat hcur
  · by_cases hk : k = key
    · rw [hk]
    · rw [apply_other _ hk] at hat
      exact absurd hat hcur

variable (hkey : key ≠ [])
include hkey

/-- The last operation, read as it was sent, on a key that is there or with nothing in front. -/
theorem servedStore_lastOp_iff (hthere : intval ≠ 0 ∨ intval + increment = 0 ∨ db key ≠ none) :
    servedStore db (lastOp key intval increment) = incremented db key intval increment ↔
      intval + increment ≠ 0 ∨ CountIs (db key) intval ∨ db key = none := by
  have hserved (op : Op Bytes) : servedStore db (key, op) = apply db (key, op) := if_neg hkey
  unfold lastOp
  by_cases hsum : intval + increment = 0
  · rw [if_pos hsum, hserved, ← @incrementRun_iff db 0 0 none key intval increment,
      incrementRun_zero hsum]
    rfl
  · rw [if_neg hsum, hserved, apply_cas]
    simp only [ne_eq, hsum, not_false_eq_true, true_or, iff_true]
    unfold incremented sumValue
    rw [if_neg hsum]
    rcases hcur : db key with _ | v
    · have hview : intval ≠ 0 := by simpa [hsum, hcur] using hthere
      rw [if_neg (by simp), if_neg (countIs_none.not.mpr hview)]
    · simp only [Option.some.injEq, countIs_some]

/-- Which operation must be read in the place of the last one. -/
theorem lastLands_iff {q : Bytes × Op Bytes}
    (hkind : if intval + increment = 0 then q.2 = .unset else ∃ n o, q.2 = .cas n o)
    (hthere : intval ≠ 0 ∨ intval + increment = 0 ∨ db key ≠ none) :
    servedStore db q = incremented db key intval increment ↔
      LastLands db key intval increment q := by
  unfold LastLands
  by_cases hlast : q = lastOp key intval increment
  · rw [if_pos hlast, hlast, servedStore_lastOp_iff hkey hthere]
  rw [if_neg hlast]
  constructor
  · intro h
    have hidle : Idle db q := by
      rw [← servedStore_eq_self_iff]
      by_contra hbusy
      rw [h] at hbusy
      -- a change is asked for, so the view is right
      have hcount : CountIs (db key) intval := by
        by_contra hno
        exact hbusy (if_neg hno)
      have hwanted : incremented db key intval increment =
          Function.update db key (sumValue (intval + increment)) := if_pos hcount
      rw [hwanted] at h hbusy
      refine hlast ?_
      unfold lastOp
      unfold sumValue at h hbusy
      split_ifs at hkind h hbusy ⊢ with hsum
      · exact servedStore_unset hkind (fun hnone => hbusy (by
          rw [Function.update_eq_self_iff, hnone])) h
      · have hcur : db key = some (decimal intval) := by
          rcases hcount with ⟨hnone, hzero⟩ | hcur
          · exact absurd hnone ((hthere.resolve_left (not_not.mpr hzero)).resolve_left hsum)
          · exact hcur
        refine servedStore_swap hkind hcur (fun he => hbusy ?_) h
        rw [Function.update_eq_self_iff, hcur, he]
    refine ⟨hidle, incremented_eq_self_iff.mp ?_⟩
    rw [← h]
    exact servedStore_eq_self_iff.mpr hidle
  · rintro ⟨hidle, hno⟩
    rw [servedStore_eq_self_iff.mpr hidle, incremented_eq_self_iff.mpr hno]

omit hkey in
/-- A swap sets no key that is absent. -/
theorem servedStore_swap_absent {q : Bytes × Op Bytes} {k : Bytes} (hkind : ∃ n o, q.2 = .cas n o) :
    servedStore db q k = none ↔ db k = none := by
  obtain ⟨k', op⟩ := q
  obtain ⟨n, o, rfl⟩ : ∃ n o, op = .cas n o := hkind
  unfold servedStore
  split
  · rfl
  rw [apply_cas]
  split
  · rename_i hold
    by_cases hk : k = k'
    · subst hk
      rw [Function.update_self, hold]
      simp
    · rw [Function.update_of_ne hk]
  · rfl

/-- What must be read of the two operations when the count is absent, as the view says. -/
theorem lands_absent_iff {k v : Bytes} {q : Bytes × Op Bytes} (hsum : increment ≠ 0)
    (hkind : ∃ n o, q.2 = .cas n o) (habsent : db key = none) :
    servedStore (servedStore db (k, .setIfNull v)) q = incremented db key 0 increment ↔
      k = key ∧ (v = decimal increment ∧ Idle (Function.update db key (some v)) q ∨
        q = (key, .cas (decimal increment) v)) := by
  have hwanted : incremented db key 0 increment =
      Function.update db key (some (decimal increment)) := by
    unfold incremented sumValue
    rw [if_pos (by rw [habsent]; exact countIs_none.mpr rfl), zero_add, if_neg hsum]
  have hset : servedStore db (key, .setIfNull v) = Function.update db key (some v) := by
    rw [servedStore, if_neg hkey, apply_setIfNull, if_pos habsent]
  rw [hwanted]
  constructor
  · intro h
    -- the swap finds the key, so the first operation set it
    have hthere : servedStore db (k, .setIfNull v) key ≠ none := by
      intro hnone
      have hat := (servedStore_swap_absent (k := key) hkind).mpr hnone
      rw [h, Function.update_self] at hat
      exact Option.some_ne_none _ hat
    have hk : k = key := by
      by_contra hother
      refine hthere ?_
      unfold servedStore
      split
      · exact habsent
      · rw [apply_other _ hother, habsent]
    subst hk
    rw [hset] at h
    refine ⟨rfl, ?_⟩
    by_cases hv : v = decimal increment
    · subst hv
      exact .inl ⟨rfl, servedStore_eq_self_iff.mp h⟩
    · have hold : Function.update db k (some v) k = some v := Function.update_self ..
      refine .inr (servedStore_swap hkind hold (Ne.symm hv) ?_)
      rw [h, Function.update_idem]
  · rintro ⟨rfl, ⟨rfl, hidle⟩ | rfl⟩
    · rw [hset, servedStore_eq_self_iff.mpr hidle]
    · rw [hset, servedStore, if_neg hkey, apply_cas, if_pos (Function.update_self ..),
        Function.update_idem]

/-- When there is a count, the first operation must not do anything. -/
theorem lands_there_iff {k v : Bytes} {q : Bytes × Op Bytes} (hsum : increment ≠ 0)
    (hkind : ∃ n o, q.2 = .cas n o) (hthere : db key ≠ none) :
    servedStore (servedStore db (k, .setIfNull v)) q = incremented db key 0 increment ↔
      Idle db (k, .setIfNull v) ∧ LastLands db key 0 increment q := by
  by_cases hidle : Idle db (k, .setIfNull v)
  · rw [servedStore_eq_self_iff.mpr hidle, and_iff_right hidle]
    refine lastLands_iff hkey ?_ (.inr (.inr hthere))
    rwa [zero_add, if_neg hsum]
  · refine iff_of_false (fun h => ?_) fun h => hidle h.1
    simp only [Idle, not_or, not_not] at hidle
    obtain ⟨hk, hnone⟩ := hidle
    have hother : k ≠ key := by
      rintro rfl
      exact hthere hnone
    -- what the first operation set stays, and is not asked for
    have hset : servedStore (servedStore db (k, .setIfNull v)) q k ≠ none := by
      rw [ne_eq, servedStore_swap_absent hkind, servedStore, if_neg hk, apply_setIfNull,
        if_pos hnone, Function.update_self]
      exact Option.some_ne_none _
    refine hset ?_
    rw [h]
    unfold incremented
    split
    · rw [Function.update_of_ne hother, hnone]
    · exact hnone

/-- What must be read of the two operations on the view of an absent count. -/
theorem lands_two_iff {k v : Bytes} {q : Bytes × Op Bytes} (hsum : increment ≠ 0)
    (hkind : ∃ n o, q.2 = .cas n o) :
    servedStore (servedStore db (k, .setIfNull v)) q = incremented db key 0 increment ↔
      Lands db key 0 increment [(k, .setIfNull v), q] := by
  unfold Lands
  dsimp only
  split
  · exact lands_absent_iff hkey hsum hkind (by assumption)
  · exact lands_there_iff hkey hsum hkind (by assumption)

end Lands

section Sent
variable (L : TxtLib) {pid cbToken : ℤ} {cbHook : Option Bytes} {key : Bytes}
  {intval increment : ℤ}

/-- An increment sends the datagrams of its requests. -/
theorem increment_sent (hkey : key ≠ []) :
    asyncDbIncrement L pid cbToken cbHook key intval increment =
      some (((DbCall.increment cbToken cbHook key intval increment).requests pid).map
        (DbRequest.datagram L)) := by
  rw [increment_requests]
  unfold asyncDbIncrement asyncDbUnset asyncDbSetIfNull asyncDbCompareAndSwap
  by_cases hsum : intval + increment = 0
  · simp [hsum, hkey, DbRequest.datagram, DbRequest.app, DbRequest.args, asyncPmCallMaster,
      argsUntilNull]
  by_cases hview : intval = 0
  · subst hview
    rw [zero_add] at hsum
    simp [hsum, hkey, decimal_ne_nil, DbRequest.datagram, DbRequest.app, DbRequest.args,
      asyncPmCallMaster, argsUntilNull]
  · simp [hsum, hview, hkey, decimal_ne_nil, DbRequest.datagram, DbRequest.app, DbRequest.args,
      asyncPmCallMaster, argsUntilNull]

theorem increment_writes : ∀ r ∈ (DbCall.increment cbToken cbHook key intval increment).requests
    pid, r.op ≠ .get ∧ r.key = key := by
  rw [increment_requests]
  split_ifs <;> simp

end Sent

section Kinds
variable {bin : AroopTxt} {q : Bytes × Op Bytes}

theorem readRequest_unset (h : readRequest bin .unset = some q) : q.2 = .unset := by
  simp only [readRequest, Option.bind_eq_bind, Option.bind_eq_some_iff, Option.some.injEq] at h
  obtain ⟨_, _, _, _, _, _, _, _, rfl⟩ := h
  rfl

theorem readRequest_setIfNull {v : Bytes} (h : readRequest bin (.setIfNull v) = some q) :
    ∃ k v', q = (k, .setIfNull v') := by
  simp only [readRequest, Option.bind_eq_bind, Option.bind_eq_some_iff, Option.some.injEq] at h
  obtain ⟨_, _, _, _, _, _, k, _, v', _, rfl⟩ := h
  exact ⟨k, v', rfl⟩

theorem readRequest_cas {new old : Bytes} (h : readRequest bin (.cas new old) = some q) :
    ∃ n o, q.2 = .cas n o := by
  simp only [readRequest, Option.bind_eq_bind, Option.bind_eq_some_iff, Option.some.injEq] at h
  obtain ⟨_, _, _, _, _, _, _, _, n, _, o, _, rfl⟩ := h
  exact ⟨n, o, rfl⟩

end Kinds

/-- What was read of an increment does what it asks for exactly when it lands. -/
theorem readAll_lands_iff (L : TxtLib) {recvBuffer : AroopTxt} {pid cbToken : ℤ}
    {cbHook : Option Bytes} {db : Bytes → Option Bytes} {key : Bytes} (hkey : key ≠ [])
    {intval increment : ℤ} {qs : List (Bytes × Op Bytes)}
    (h : DbRequest.readAll L recvBuffer
      ((DbCall.increment cbToken cbHook key intval increment).requests pid) = some qs) :
    qs.foldl servedStore db = incremented db key intval increment ↔
      Lands db key intval increment qs := by
  rw [increment_requests] at h
  split_ifs at h with hsum hview
  · simp only [DbRequest.readAll, Option.bind_eq_bind, Option.bind_some, Option.bind_eq_some_iff,
      Option.some.injEq] at h
    obtain ⟨q, hq, rfl⟩ := h
    exact lastLands_iff hkey (by rw [if_pos hsum]; exact readRequest_unset hq) (.inr (.inl hsum))
  · subst hview
    simp only [List.singleton_append, DbRequest.readAll, Option.bind_eq_bind, Option.bind_some,
      Option.bind_eq_some_iff, Option.some.injEq] at h
    obtain ⟨q₁, hq₁, _, ⟨q, hq, rfl⟩, rfl⟩ := h
    obtain ⟨k, v, rfl⟩ := readRequest_setIfNull hq₁
    exact lands_two_iff hkey (by simpa using hsum) (readRequest_cas hq)
  · simp only [List.nil_append, DbRequest.readAll, Option.bind_eq_bind, Option.bind_some,
      Option.bind_eq_some_iff, Option.some.injEq] at h
    obtain ⟨q, hq, rfl⟩ := h
    exact lastLands_iff hkey (by rw [if_neg hsum]; exact readRequest_cas hq) (.inl hview)

/-- After the master servedStore the datagrams of an increment, the store is the incremented one in
these cases and no others: if all of them are legible, when the sum is not zero, or the view was
right, or there is no such key; otherwise, when no assertion of the coder fails and what the
master reads happens to land. -/
theorem increment_no_lost_update_iff (L : TxtLib) (hroom : L.room nginzMaxBinaryMsgLen < 65536)
    {pid masterPid cbToken : ℤ} {cbHook : Option Bytes} {key : Bytes} {intval increment : ℤ}
    (hkey : key ≠ []) {recvBuffer : AroopTxt}
    (hbuffer : recvBuffer.capacity = L.room nginzMaxBinaryMsgLen) (m : Master) :
    let rs := (DbCall.increment cbToken cbHook key intval increment).requests pid
    (∃ datagrams buffer m', asyncDbIncrement L pid cbToken cbHook key intval increment =
        some datagrams ∧ m.receiveAll L masterPid recvBuffer datagrams = some (buffer, m') ∧
        m'.globalDb = incremented m.globalDb key intval increment) ↔
      if ∀ r ∈ rs, r.Legible L then
        intval + increment ≠ 0 ∨ CountIs (m.globalDb key) intval ∨ m.globalDb key = none
      else ∃ qs, DbRequest.readAll L recvBuffer rs = some qs ∧
        Lands m.globalDb key intval increment qs := by
  intro rs
  have hwrites : ∀ r ∈ rs, r.op ≠ .get ∧ r.key = key := increment_writes
  have hreads := receiveAll_reads L hroom hbuffer m masterPid fun r hr => (hwrites r hr).1
  have hstore : (∃ datagrams buffer m', asyncDbIncrement L pid cbToken cbHook key intval increment =
        some datagrams ∧ m.receiveAll L masterPid recvBuffer datagrams = some (buffer, m') ∧
        m'.globalDb = incremented m.globalDb key intval increment) ↔
      ∃ qs, DbRequest.readAll L recvBuffer rs = some qs ∧
        qs.foldl servedStore m.globalDb = incremented m.globalDb key intval increment := by
    rw [increment_sent L hkey, ← Option.map_eq_some_iff, ← hreads, Option.map_eq_some_iff]
    constructor
    · rintro ⟨_, buffer, m', hsent, hrun, hdb⟩
      obtain rfl := Option.some.inj hsent
      exact ⟨(buffer, m'), hrun, hdb⟩
    · rintro ⟨⟨buffer, m'⟩, hrun, hdb⟩
      exact ⟨_, buffer, m', rfl, hrun, hdb⟩
  rw [hstore]
  split
  · rename_i hlegible
    have hall := readAll_legible L hroom hbuffer fun r hr => ⟨hlegible r hr, (hwrites r hr).1⟩
    have hserved (ops : List (Bytes × Op Bytes)) (hkeys : ∀ q ∈ ops, q.1 ≠ [])
        (db : Bytes → Option Bytes) : ops.foldl servedStore db = KeyedStore.run db ops := by
      induction ops generalizing db with
      | nil => rfl
      | cons q ops ih =>
        obtain ⟨hq, hrest⟩ := List.forall_mem_cons.mp hkeys
        rw [List.foldl_cons, servedStore, if_neg hq, run_cons, ih hrest]
    have hkeys : ∀ q ∈ rs.map DbRequest.keyOp, q.1 ≠ [] := by
      intro q hq
      obtain ⟨r, hr, rfl⟩ := List.mem_map.mp hq
      exact (hwrites r hr).2.trans_ne hkey
    rw [← @incrementRun_iff m.globalDb pid cbToken cbHook key intval increment, hall]
    simp only [Option.some.injEq, exists_eq_left']
    rw [hserved _ hkeys]
    rfl
  · exact exists_congr fun qs => and_congr_right fun hqs => readAll_lands_iff L hkey hqs

/-- A store with five users in the first room. -/
def fiveUsers : Master :=
  ⟨fun key => if key = lit "room/user/ONE" then some (lit "5") else none, []⟩

theorem increment_no_lost_update_iff_sixth :
    let rs := (DbCall.increment (-1) none (lit "room/user/ONE") 5 1).requests 4712
    let recvBuffer := AroopTxt.stackbuffer .cutting nginzMaxBinaryMsgLen
    (∃ datagrams buffer m', asyncDbIncrement .cutting 4712 (-1) none (lit "room/user/ONE") 5 1 =
        some datagrams ∧ fiveUsers.receiveAll .cutting 4711 recvBuffer datagrams =
          some (buffer, m') ∧
        m'.globalDb = incremented fiveUsers.globalDb (lit "room/user/ONE") 5 1) ↔
      if ∀ r ∈ rs, r.Legible .cutting then
        (5 : ℤ) + 1 ≠ 0 ∨ CountIs (fiveUsers.globalDb (lit "room/user/ONE")) 5 ∨
          fiveUsers.globalDb (lit "room/user/ONE") = none
      else ∃ qs, DbRequest.readAll .cutting recvBuffer rs = some qs ∧
        Lands fiveUsers.globalDb (lit "room/user/ONE") 5 1 qs :=
  increment_no_lost_update_iff .cutting (by decide) (by decide) (AroopTxt.buffer_capacity _)
    fiveUsers

/-- A decrement on the stale view of one user: the five users of the store are gone. -/
theorem stale_decrement_unsets :
    ∃ datagrams buffer m', asyncDbIncrement .cutting 4712 (-1) none (lit "room/user/ONE") 1 (-1) =
        some datagrams ∧
      fiveUsers.receiveAll .cutting 4711 (.stackbuffer .cutting nginzMaxBinaryMsgLen) datagrams =
        some (buffer, m') ∧
      m'.globalDb (lit "room/user/ONE") = none ∧
      m'.globalDb ≠ incremented fiveUsers.globalDb (lit "room/user/ONE") 1 (-1) := by
  have hrun : ((asyncDbIncrement .cutting 4712 (-1) none (lit "room/user/ONE") 1 (-1)).bind
      fun datagrams => (fiveUsers.receiveAll .cutting 4711
        (.stackbuffer .cutting nginzMaxBinaryMsgLen) datagrams).map
          fun r => r.2.globalDb (lit "room/user/ONE")) = some none := by
    decide +kernel
  obtain ⟨datagrams, hsent, hmap⟩ := Option.bind_eq_some_iff.mp hrun
  obtain ⟨⟨buffer, m'⟩, hserved, hgone⟩ := Option.map_eq_some_iff.mp hmap
  refine ⟨datagrams, buffer, m', hsent, hserved, hgone, fun heq => ?_⟩
  have hfive : incremented fiveUsers.globalDb (lit "room/user/ONE") 1 (-1) (lit "room/user/ONE") =
      some (lit "5") := by decide +kernel
  rw [← heq] at hfive
  exact absurd (hgone.symm.trans hfive) (by simp)

end Nginz
