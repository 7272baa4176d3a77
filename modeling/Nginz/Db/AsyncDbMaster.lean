import Nginz.Db.AsyncDb
import Nginz.Parallel.Pipeline

/-! The master's side of the asynchronous store: the four hooks, and that each of them
does what its request stands for. -/
namespace Nginz
open KeyedStore

/-- The hash table, and the replies handed to `pp_send` so far. -/
structure Master where
  globalDb : Bytes → Option Bytes
  sent : List (ℤ × Bytes)

/-- `opp_hash_table_set`, which removes the key for a `NULL` value. -/
def hashTableSet (db : Bytes → Option Bytes) (key : Bytes) (val : Option Bytes) :
    Bytes → Option Bytes :=
  Function.update db key val

def asyncDbOpReply (L : TxtLib) (pid destpid cbToken : ℤ) (cbHook : Bytes) (success : ℤ)
    (key : Bytes) (newval : Option Bytes) : Option (List (ℤ × Bytes)) :=
  if cbHook = [] then
    asyncPmReplyWorker L pid destpid cbToken nullHook success [some key, newval, none]
  else asyncPmReplyWorker L pid destpid cbToken cbHook success [some key, newval, none]

/-- The return code and the table afterwards. -/
def asyncDbOpHelper (db : Bytes → Option Bytes) (key : Bytes) (newval expval : Option Bytes) :
    ℤ × (Bytes → Option Bytes) :=
  if key = [] then (-1, db)
  else
    match newval with
    | none => (0, hashTableSet db key none)
    | some newval =>
      match db key, expval with
      | none, none => (0, hashTableSet db key (some newval))
      | some oldval, some expval =>
        if expval = oldval then (0, hashTableSet db key (some newval)) else (-1, db)
      | _, _ => (-1, db)

/-- `!ret` of a return code. -/
def successOf (ret : ℤ) : ℤ := if ret = 0 then 1 else 0

/-- The call of `async_db_op_helper` and of `async_db_op_reply` that the three writing
hooks share. -/
def Master.operate (L : TxtLib) (pid : ℤ) (m : Master) (srcpid cbToken : ℤ) (cbHook key : Bytes)
    (newval expval : Option Bytes) : Option Master :=
  let r := asyncDbOpHelper m.globalDb key newval expval
  (asyncDbOpReply L pid srcpid cbToken cbHook (successOf r.1) key newval).map fun out =>
    ⟨r.2, m.sent ++ out⟩

def asyncDbCasHook (L : TxtLib) (pid : ℤ) (bin : AroopTxt) (m : Master) : Option Master := do
  let srcpid ← unpackedInt bin 0
  let cbToken ← unpackedInt bin 2
  let cbHook ← unpackedString bin 3
  let key ← unpackedString bin 4
  let newval ← unpackedString bin 5
  let expval ← unpackedString bin 6
  m.operate L pid srcpid cbToken cbHook key (some newval) (some expval)

def asyncDbSetIfNullHook (L : TxtLib) (pid : ℤ) (bin : AroopTxt) (m : Master) : Option Master := do
  let srcpid ← unpackedInt bin 0
  let cbToken ← unpackedInt bin 2
  let cbHook ← unpackedString bin 3
  let key ← unpackedString bin 4
  let newval ← unpackedString bin 5
  m.operate L pid srcpid cbToken cbHook key (some newval) none

def asyncDbUnsetHook (L : TxtLib) (pid : ℤ) (bin : AroopTxt) (m : Master) : Option Master := do
  let srcpid ← unpackedInt bin 0
  let cbToken ← unpackedInt bin 2
  let cbHook ← unpackedString bin 3
  let key ← unpackedString bin 4
  m.operate L pid srcpid cbToken cbHook key none none

def asyncDbGetHook (L : TxtLib) (pid : ℤ) (bin : AroopTxt) (m : Master) : Option Master := do
  let srcpid ← unpackedInt bin 0
  let cbToken ← unpackedInt bin 2
  let cbHook ← unpackedString bin 3
  let key ← unpackedString bin 4
  let out ← asyncDbOpReply L pid srcpid cbToken cbHook 1 key (m.globalDb key)
  some { m with sent := m.sent ++ out }

/-- `pm_call` on the plugin spaces of the store; other spaces leave it alone. -/
def Master.pmCall (L : TxtLib) (pid : ℤ) (space : Bytes) (bin : AroopTxt) (m : Master) :
    Option Master :=
  if space = compareAndSetApp then asyncDbCasHook L pid bin m
  else if space = setIfNullApp then asyncDbSetIfNullHook L pid bin m
  else if space = unsetApp then asyncDbUnsetHook L pid bin m
  else if space = getApp then asyncDbGetHook L pid bin m
  else some m

/-! ### What a request stands for -/

/-- A reply, before it is packed. -/
structure DbReply where
  destpid : ℤ
  cbToken : ℤ
  cbHook : Bytes
  success : ℤ
  key : Bytes
  value : Option Bytes
  deriving DecidableEq, Repr

namespace DbReply

def fields (pid : ℤ) (r : DbReply) : List Field :=
  replyFields pid r.cbToken r.cbHook r.success (r.key :: r.value.toList)

def datagram (pid : ℤ) (r : DbReply) : ℤ × Bytes := (r.destpid, message (r.fields pid))

end DbReply

namespace DbRequest

/-- The value a reply carries. -/
def replyValue : Op Bytes → Option Bytes → Option Bytes
  | .cas new _, _ => some new
  | .setIfNull new, _ => some new
  | .unset, _ => none
  | .get, cur => cur

/-- The reply to a request served on the given store. -/
def reply (db : Bytes → Option Bytes) (r : DbRequest) : DbReply where
  destpid := r.srcpid
  cbToken := r.cbToken
  cbHook := r.cbHook
  success := if r.op.succeeds (db r.key) then 1 else 0
  key := r.key
  value := replyValue r.op (db r.key)

/-- One reply, and none for a null hook. -/
def replies (db : Bytes → Option Bytes) (r : DbRequest) : List DbReply :=
  if r.HookIsNull then [] else [r.reply db]

/-- The operands of `async_db_op_helper` for an operation that writes. -/
def operands : Op Bytes → Option Bytes × Option Bytes
  | .cas new old => (some new, some old)
  | .setIfNull new => (some new, none)
  | .unset => (none, none)
  | .get => (none, none)

end DbRequest

/-- The helper performs the operation, and returns `0` exactly when it takes effect. -/
theorem opHelper_eq {db : Bytes → Option Bytes} {key : Bytes} {op : Op Bytes} (hk : key ≠ [])
    (hop : op ≠ .get) :
    let r := asyncDbOpHelper db key (DbRequest.operands op).1 (DbRequest.operands op).2
    r.2 = apply db (key, op) ∧ successOf r.1 = if op.succeeds (db key) then 1 else 0 := by
  have hsame : Function.update db key (db key) = db := Function.update_eq_self key db
  unfold asyncDbOpHelper apply Op.update hashTableSet successOf
  cases op with
  | cas new old =>
    cases hcur : db key with
    | none =>
      rw [hcur] at hsame
      simp [hk, DbRequest.operands, Op.succeeds, hsame]
    | some v =>
      rw [hcur] at hsame
      by_cases hv : v = old
      · simp [hk, hv, DbRequest.operands, Op.succeeds, Op.written]
      · have hv' : old ≠ v := Ne.symm hv
        simp [hk, hv, hv', DbRequest.operands, Op.succeeds, hsame]
  | setIfNull new =>
    cases hcur : db key with
    | none => simp [hk, DbRequest.operands, Op.succeeds, Op.written]
    | some v =>
      rw [hcur] at hsame
      simp [hk, DbRequest.operands, Op.succeeds, hsame]
  | unset => simp [hk, DbRequest.operands, Op.succeeds, Op.written]
  | get => exact absurd rfl hop

section Serve
variable (L : TxtLib) (hroom : L.room nginzMaxBinaryMsgLen < 65536) {pid : ℤ}

include hroom in
/-- The reply that is sent, whatever token was read when nobody listens. -/
theorem opReply_eq {db : Bytes → Option Bytes} {r : DbRequest} {t : ℤ}
    (ht : r.HookIsNull ∨ t = r.cbToken)
    (hfit : ∀ rep ∈ r.replies db, packedLength (rep.fields pid) ≤ 255) :
    asyncDbOpReply L pid r.srcpid t r.cbHook (if r.op.succeeds (db r.key) then 1 else 0) r.key
        (DbRequest.replyValue r.op (db r.key)) =
      some ((r.replies db).map (DbReply.datagram pid)) := by
  have hnull : nullHook ≠ [] := by decide
  unfold asyncDbOpReply
  unfold DbRequest.replies at hfit ⊢
  by_cases hnone : r.HookIsNull
  · simp only [if_pos hnone, List.map_nil]
    rcases hnone with he | hn
    · simp [he, asyncPmReplyWorker, hnull]
    · simp [hn, asyncPmReplyWorker, hnull]
  · obtain rfl := ht.resolve_left hnone
    simp only [if_neg hnone, List.mem_singleton, forall_eq] at hfit ⊢
    have hne : r.cbHook ≠ [] ∧ r.cbHook ≠ nullHook := by
      unfold DbRequest.HookIsNull at hnone
      exact not_or.mp hnone
    have hargs (v : Option Bytes) : argsUntilNull [some r.key, v, none] = r.key :: v.toList := by
      cases v <;> rfl
    have hshort : packedLength (replyFields pid r.cbToken r.cbHook
        (if r.op.succeeds (db r.key) then 1 else 0)
        (argsUntilNull [some r.key, DbRequest.replyValue r.op (db r.key), none])) ≤ 255 := by
      rw [hargs]
      exact hfit
    rw [if_neg hne.1, asyncPmReplyWorker_eq L hroom hne.1 hne.2 hshort, hargs]
    rfl

variable {bin : AroopTxt} {r : DbRequest}

/-- What every hook reads of a request. -/
theorem unpack_request (h : StartsWith bin r.fields) (ha : r.Admissible) :
    unpackedInt bin 0 = some r.srcpid ∧
      (∃ t, unpackedInt bin 2 = some t ∧ (r.HookIsNull ∨ t = r.cbToken)) ∧
      unpackedString bin 3 = some r.cbHook ∧ unpackedString bin 4 = some r.key := by
  have hs := ha.short
  have hp := ha.pid
  refine ⟨h.unpackedInt_field hs rfl hp.1 hp.2, ?_, h.unpackedString_field hs rfl,
    h.unpackedString_field hs rfl⟩
  rcases ha.token with hnull | ht
  · obtain ⟨t, ht⟩ := h.unpackedInt_isSome hs (k := 2) (v := r.cbToken) rfl
    exact ⟨t, ht, Or.inl hnull⟩
  · exact ⟨r.cbToken, h.unpackedInt_field hs rfl ht.1 ht.2, Or.inr rfl⟩

/-- The master after it served a request. -/
def Master.serve (pid : ℤ) (m : Master) (r : DbRequest) : Master :=
  ⟨apply m.globalDb r.keyOp, m.sent ++ (r.replies m.globalDb).map (DbReply.datagram pid)⟩

include hroom in
theorem operate_eq {m : Master} {t : ℤ} (hk : r.key ≠ []) (hop : r.op ≠ .get)
    (ht : r.HookIsNull ∨ t = r.cbToken)
    (hfit : ∀ rep ∈ r.replies m.globalDb, packedLength (rep.fields pid) ≤ 255) :
    m.operate L pid r.srcpid t r.cbHook r.key (DbRequest.operands r.op).1
      (DbRequest.operands r.op).2 = some (m.serve pid r) := by
  obtain ⟨hdb, hret⟩ : (asyncDbOpHelper m.globalDb r.key (DbRequest.operands r.op).1
      (DbRequest.operands r.op).2).2 = apply m.globalDb (r.key, r.op) ∧ _ := opHelper_eq hk hop
  have hval : (DbRequest.operands r.op).1 = DbRequest.replyValue r.op (m.globalDb r.key) := by
    cases hr : r.op <;> first | rfl | exact absurd hr hop
  have hreply := opReply_eq L hroom ht hfit
  unfold Master.operate
  rw [← hval] at hreply
  simp only [hret, hreply, hdb, Option.map_some]
  rfl

/-- The hook of a request that writes operates on its key with its operands. -/
theorem pmCall_operates {m : Master} {srcpid t : ℤ} (h : StartsWith bin r.fields)
    (hs : packedLength r.fields ≤ 255) (hop : r.op ≠ .get) (hsrc : unpackedInt bin 0 = some srcpid)
    (htok : unpackedInt bin 2 = some t) :
    m.pmCall L pid (DbRequest.app r.op) bin = m.operate L pid srcpid t r.cbHook r.key
      (DbRequest.operands r.op).1 (DbRequest.operands r.op).2 := by
  have hhook : unpackedString bin 3 = some r.cbHook := h.unpackedString_field hs rfl
  have hkey : unpackedString bin 4 = some r.key := h.unpackedString_field hs rfl
  unfold Master.pmCall
  obtain ⟨_, _, cbHook, key, op⟩ := r
  cases op with
  | cas new old =>
    have hnew : unpackedString bin 5 = some new := h.unpackedString_field hs rfl
    have hold : unpackedString bin 6 = some old := h.unpackedString_field hs rfl
    have hspace : DbRequest.app (.cas new old) = compareAndSetApp := rfl
    simp only [hspace, ↓reduceIte, asyncDbCasHook, hsrc, htok, hhook, hkey, hnew, hold]
    rfl
  | setIfNull new =>
    have hnew : unpackedString bin 5 = some new := h.unpackedString_field hs rfl
    have hspace : DbRequest.app (.setIfNull new) = setIfNullApp := rfl
    have h1 : setIfNullApp ≠ compareAndSetApp := by decide
    simp only [hspace, h1, ↓reduceIte, asyncDbSetIfNullHook, hsrc, htok, hhook, hkey, hnew]
    rfl
  | unset =>
    have hspace : DbRequest.app .unset = unsetApp := rfl
    have h1 : unsetApp ≠ compareAndSetApp := by decide
    have h2 : unsetApp ≠ setIfNullApp := by decide
    simp only [hspace, h1, h2, ↓reduceIte, asyncDbUnsetHook, hsrc, htok, hhook, hkey]
    rfl
  | get => exact absurd rfl hop

include hroom in
/-- The hook of a request serves it. -/
theorem pmCall_request {m : Master} (h : StartsWith bin r.fields) (ha : r.Admissible)
    (hfit : ∀ rep ∈ r.replies m.globalDb, packedLength (rep.fields pid) ≤ 255) :
    m.pmCall L pid (DbRequest.app r.op) bin = some (m.serve pid r) := by
  obtain ⟨hsrc, ⟨t, htok, ht⟩, hhook, hkey⟩ := unpack_request h ha
  by_cases hop : r.op = .get
  · have hspace : DbRequest.app r.op = getApp := by rw [hop]; rfl
    have h1 : getApp ≠ compareAndSetApp := by decide
    have h2 : getApp ≠ setIfNullApp := by decide
    have h3 : getApp ≠ unsetApp := by decide
    have hreply := opReply_eq L hroom ht hfit
    rw [hop] at hreply
    simp only [DbRequest.replyValue, Op.succeeds, ↓reduceIte] at hreply
    unfold Master.pmCall
    simp only [hspace, h1, h2, h3, ↓reduceIte, asyncDbGetHook, hsrc, htok, hhook, hkey]
    simp [hreply, Master.serve, DbRequest.keyOp, apply, Op.update, Op.succeeds, Op.written, hop]
  · rw [pmCall_operates L h ha.short hop hsrc htok]
    exact operate_eq L hroom ha.key hop ht hfit

end Serve
end Nginz
