import Nginz.BinaryCoder.PackRuns
import Nginz.Db.AsyncDbMaster

/-! What the master reads out of the datagram of any request, also of one that is too long for
the 8-bit cursor of the coder or for the buffer it was packed into. -/
namespace Nginz
open KeyedStore Framing

/-- The master receives some datagrams one after the other; `none` when an assertion fails. -/
def Master.receiveAll (L : TxtLib) (masterPid : ℤ) (recvBuffer : AroopTxt) (m : Master)
    (datagrams : List Bytes) : Option (AroopTxt × Master) :=
  datagrams.foldlM
    (fun s d => onBubbles (fun space bin m => m.pmCall L masterPid space bin) s.1 d s.2)
    (recvBuffer, m)

/-- The key and the values that the hook of an operation finds in a message; `none` when an
assertion of the coder fails. -/
def readRequest (bin : AroopTxt) : Op Bytes → Option (Bytes × Op Bytes)
  | .cas _ _ => do
    let _ ← unpackedInt bin 0
    let _ ← unpackedInt bin 2
    let _ ← unpackedString bin 3
    let key ← unpackedString bin 4
    let newval ← unpackedString bin 5
    let expval ← unpackedString bin 6
    some (key, .cas newval expval)
  | .setIfNull _ => do
    let _ ← unpackedInt bin 0
    let _ ← unpackedInt bin 2
    let _ ← unpackedString bin 3
    let key ← unpackedString bin 4
    let newval ← unpackedString bin 5
    some (key, .setIfNull newval)
  | .unset => do
    let _ ← unpackedInt bin 0
    let _ ← unpackedInt bin 2
    let _ ← unpackedString bin 3
    let key ← unpackedString bin 4
    some (key, .unset)
  | .get => do
    let _ ← unpackedInt bin 0
    let _ ← unpackedInt bin 2
    let _ ← unpackedString bin 3
    let key ← unpackedString bin 4
    some (key, .get)

/-- The store after an operation that was read; one without a key is refused. -/
def servedStore (db : Bytes → Option Bytes) (q : Bytes × Op Bytes) : Bytes → Option Bytes :=
  if q.1 = [] then db else apply db q

namespace DbRequest

/-- The datagram of a request, whether all its fields fit or not. -/
def datagram (L : TxtLib) (r : DbRequest) : Bytes :=
  asyncPmCallMaster L r.srcpid r.cbToken (some r.cbHook) (app r.op) ((r.key :: args r.op).map some)

/-- What the master reads out of some datagrams that it receives one after the other. -/
def readAll (L : TxtLib) : AroopTxt → List DbRequest → Option (List (Bytes × Op Bytes))
  | _, [] => some []
  | recvBuffer, r :: rs => do
    let recvBuffer := ppSimpleRecvmsgHelper recvBuffer (r.datagram L)
    let q ← readRequest recvBuffer r.op
    let qs ← readAll L recvBuffer rs
    some (q :: qs)

/-- The whole message fits into the buffer, and the cursor does not wrap in front of the body
of its last field. -/
def Legible (L : TxtLib) (r : DbRequest) : Prop :=
  packedLength r.fields ≤ L.room nginzMaxBinaryMsgLen ∧
    fieldOffset r.fields (r.fields.length - 1) + 3 ≤ 255

instance (L : TxtLib) : DecidablePred (Legible L) := fun r => by
  unfold Legible
  infer_instance

end DbRequest

section Read
variable (L : TxtLib) {bin recvBuffer : AroopTxt} {m : Master} {r : DbRequest} (pid : ℤ)

/-- A reply is sent, or nobody listens; no assertion fails. -/
theorem opReply_isSome (destpid cbToken : ℤ) (cbHook : Bytes) (success : ℤ) (key : Bytes)
    (newval : Option Bytes) :
    ∃ out, asyncDbOpReply L pid destpid cbToken cbHook success key newval = some out := by
  have hnull : nullHook ≠ [] := by decide
  unfold asyncDbOpReply asyncPmReplyWorker
  by_cases hhook : cbHook = []
  · simp [hhook, hnull]
  · by_cases hn : cbHook = nullHook
    · simp [hn, hnull]
    · simp [hhook, hn]

/-- Whoever waits for the reply, the store takes the operation. -/
theorem operate_store (srcpid t : ℤ) (cbHook key : Bytes) {op : Op Bytes} (hop : op ≠ .get) :
    (m.operate L pid srcpid t cbHook key (DbRequest.operands op).1 (DbRequest.operands op).2).map
        Master.globalDb = some (servedStore m.globalDb (key, op)) := by
  have hdb : (asyncDbOpHelper m.globalDb key (DbRequest.operands op).1
      (DbRequest.operands op).2).2 = servedStore m.globalDb (key, op) := by
    unfold servedStore
    by_cases hkey : key = []
    · simp [asyncDbOpHelper, hkey]
    · rw [if_neg hkey]
      exact (opHelper_eq hkey hop).1
  obtain ⟨out, hout⟩ := opReply_isSome L pid srcpid t cbHook
    (successOf (asyncDbOpHelper m.globalDb key (DbRequest.operands op).1
      (DbRequest.operands op).2).1) key (DbRequest.operands op).1
  unfold Master.operate
  dsimp only
  rw [hout]
  exact congrArg some hdb

/-- The hook of an operation serves what it reads. -/
theorem pmCall_reads {op : Op Bytes} (hop : op ≠ .get) :
    (m.pmCall L pid (DbRequest.app op) bin).map Master.globalDb =
      (readRequest bin op).map (servedStore m.globalDb) := by
  unfold Master.pmCall
  cases op with
  | cas new old =>
    rw [if_pos (show DbRequest.app (.cas new old) = compareAndSetApp from rfl)]
    unfold readRequest asyncDbCasHook
    rcases unpackedInt bin 0 with _ | srcpid
    · rfl
    rcases unpackedInt bin 2 with _ | t
    · rfl
    rcases unpackedString bin 3 with _ | hook
    · rfl
    rcases unpackedString bin 4 with _ | key
    · rfl
    rcases unpackedString bin 5 with _ | new'
    · rfl
    rcases unpackedString bin 6 with _ | old'
    · rfl
    exact @operate_store L m pid srcpid t hook key (.cas new' old') (by simp)
  | setIfNull new =>
    rw [show DbRequest.app (.setIfNull new) = setIfNullApp from rfl, if_neg (by decide),
      if_pos rfl]
    unfold readRequest asyncDbSetIfNullHook
    rcases unpackedInt bin 0 with _ | srcpid
    · rfl
    rcases unpackedInt bin 2 with _ | t
    · rfl
    rcases unpackedString bin 3 with _ | hook
    · rfl
    rcases unpackedString bin 4 with _ | key
    · rfl
    rcases unpackedString bin 5 with _ | new'
    · rfl
    exact @operate_store L m pid srcpid t hook key (.setIfNull new') (by simp)
  | unset =>
    rw [show DbRequest.app .unset = unsetApp from rfl, if_neg (by decide), if_neg (by decide),
      if_pos rfl]
    unfold readRequest asyncDbUnsetHook
    rcases unpackedInt bin 0 with _ | srcpid
    · rfl
    rcases unpackedInt bin 2 with _ | t
    · rfl
    rcases unpackedString bin 3 with _ | hook
    · rfl
    rcases unpackedString bin 4 with _ | key
    · rfl
    exact @operate_store L m pid srcpid t hook key .unset (by simp)
  | get => exact absurd rfl hop

end Read

section Front
variable (L : TxtLib) (hroom : L.room nginzMaxBinaryMsgLen < 65536)

/-- The calls of the coder for a request. -/
theorem datagram_eq (r : DbRequest) :
    r.datagram L = (packAll L (requestBuffer L) r.fields).content := by
  have hargs (xs : List Bytes) : argsUntilNull (xs.map some) = xs := by
    induction xs with
    | nil => rfl
    | cons x xs ih => rw [List.map_cons, argsUntilNull, ih]
  unfold DbRequest.datagram DbRequest.fields
  rw [asyncPmCallMaster_packed, hargs]
  rfl

include hroom

/-- A request that fits into the buffer is sent as its message. -/
theorem datagram_message {r : DbRequest}
    (hfits : packedLength r.fields ≤ L.room nginzMaxBinaryMsgLen) :
    r.datagram L = message r.fields := by
  rw [datagram_eq]
  exact (packAll_of_room L hroom hfits).content

omit hroom in
theorem app_length_le (op : Op Bytes) : (DbRequest.app op).length ≤ 21 := by
  cases op with
  | cas new old => exact (by decide : compareAndSetApp.length ≤ 21)
  | setIfNull new => exact (by decide : setIfNullApp.length ≤ 21)
  | unset => exact (by decide : unsetApp.length ≤ 21)
  | get => exact (by decide : getApp.length ≤ 21)

/-- Whatever fits, the pid and the name of the hook are in front. -/
theorem datagram_front (r : DbRequest) : ∃ kept,
    r.datagram L = message ([.int r.srcpid, .str (DbRequest.app r.op)] ++ kept) ∧
      packedLength ([.int r.srcpid, .str (DbRequest.app r.op)] ++ kept) ≤
        L.room nginzMaxBinaryMsgLen := by
  have hle := L.le_room nginzMaxBinaryMsgLen
  have hmax : nginzMaxBinaryMsgLen = 1024 := rfl
  obtain ⟨hm, hcap⟩ := requestBuffer_isMessage L
  have hpid := intbuf_length_le r.srcpid
  have happ : (DbRequest.app r.op).length ≤ 21 := app_length_le r.op
  have hroomy : packedLength ([] ++ [.int r.srcpid, .str (DbRequest.app r.op)]) ≤
      (requestBuffer L).capacity := by
    simp only [List.nil_append, packedLength, Field.body, List.map_cons, List.map_nil,
      List.sum_cons, List.sum_nil]
    omega
  obtain ⟨b, hb⟩ := packFields_of_fits L hm (by omega) hroomy
  obtain ⟨hfront, hb'⟩ := packFields_isMessage L hm (by omega) hb
  obtain ⟨kept, -, hall, hc⟩ := packAll_sublist L hfront (by omega)
    ([.int r.cbToken, .str r.cbHook] ++ (r.key :: DbRequest.args r.op).map .str)
  have hsplit : packAll L (requestBuffer L) r.fields =
      packAll L b ([.int r.cbToken, .str r.cbHook] ++
        (r.key :: DbRequest.args r.op).map .str) := by
    rw [← packAll_eq L hb]
    unfold packAll DbRequest.fields callFields
    rw [← List.foldl_append]
    simp only [List.cons_append, List.nil_append]
  refine ⟨kept, ?_, ?_⟩
  · rw [datagram_eq, hsplit, hall.content]
    rfl
  · have hbound := hall.packedLength_le
    rw [hc, hb', hcap] at hbound
    exact hbound

end Front

section Receive
variable (L : TxtLib) (hroom : L.room nginzMaxBinaryMsgLen < 65536) {recvBuffer : AroopTxt}
  (hbuffer : recvBuffer.capacity = L.room nginzMaxBinaryMsgLen) (m : Master) (pid : ℤ)
include hroom hbuffer

/-- A datagram of a request is dispatched to the hook of its operation. -/
theorem onBubbles_datagram (r : DbRequest) :
    onBubbles (fun space bin (m : Master) => m.pmCall L pid space bin) recvBuffer
        (r.datagram L) m =
      (m.pmCall L pid (DbRequest.app r.op)
        (ppSimpleRecvmsgHelper recvBuffer (r.datagram L))).map fun m' =>
          (ppSimpleRecvmsgHelper recvBuffer (r.datagram L), m') := by
  obtain ⟨kept, hkept, hfits⟩ := datagram_front L hroom r
  have hsw := @recv_startsWith recvBuffer _ (by omega) (hfits.trans hbuffer.ge)
  have hpid := intbuf_length_le r.srcpid
  have hoff : fieldOffset ([.int r.srcpid, .str (DbRequest.app r.op)] ++ kept) 1 + 3 ≤ 255 := by
    rw [fieldOffset_succ (k := 0) rfl]
    simp only [fieldOffset, offset, List.take_zero, encode, Field.body]
    simp
    omega
  have happ := hsw.unpackedString_reached (k := 1) rfl hoff
  rw [← hkept] at happ
  unfold onBubbles
  dsimp only
  rw [happ, Option.bind_some, if_neg (DbRequest.app_ne_nil r.op)]

/-- The master serves what it reads, whatever the requests are. -/
theorem receiveAll_reads {rs : List DbRequest} (hops : ∀ r ∈ rs, r.op ≠ .get) :
    (m.receiveAll L pid recvBuffer (rs.map (DbRequest.datagram L))).map (fun s => s.2.globalDb) =
      (DbRequest.readAll L recvBuffer rs).map fun qs => qs.foldl servedStore m.globalDb := by
  induction rs generalizing recvBuffer m with
  | nil => rfl
  | cons r rs ih =>
    obtain ⟨hop, hrest⟩ := List.forall_mem_cons.mp hops
    have hdispatch := onBubbles_datagram L hroom hbuffer m pid r
    have hread := @pmCall_reads L (ppSimpleRecvmsgHelper recvBuffer (r.datagram L)) m pid _ hop
    have hcap : (ppSimpleRecvmsgHelper recvBuffer (r.datagram L)).capacity =
        L.room nginzMaxBinaryMsgLen := recv_capacity.trans hbuffer
    unfold DbRequest.readAll
    unfold Master.receiveAll at ih ⊢
    dsimp only
    rw [List.map_cons, List.foldlM_cons, hdispatch]
    cases hq : readRequest (ppSimpleRecvmsgHelper recvBuffer (r.datagram L)) r.op with
    | none =>
      rw [hq, Option.map_none, Option.map_eq_none_iff] at hread
      rw [hread]
      rfl
    | some q =>
      rw [hq, Option.map_some, Option.map_eq_some_iff] at hread
      obtain ⟨m₁, hserved, hdb⟩ := hread
      have hothers := ih hcap m₁ hrest
      rw [hdb] at hothers
      rw [hserved]
      refine hothers.trans ?_
      cases DbRequest.readAll L (ppSimpleRecvmsgHelper recvBuffer (r.datagram L)) rs with
      | none => rfl
      | some qs => rfl

/-- A legible request is read as it was sent. -/
theorem readRequest_legible {r : DbRequest} (h : r.Legible L) (hop : r.op ≠ .get) :
    readRequest (ppSimpleRecvmsgHelper recvBuffer (r.datagram L)) r.op = some r.keyOp := by
  obtain ⟨hfits, hlast⟩ := h
  rw [datagram_message L hroom hfits]
  have hsw := @recv_startsWith recvBuffer r.fields (by omega) (hfits.trans hbuffer.ge)
  have hoff {k : ℕ} (hk : k < r.fields.length) : fieldOffset r.fields k + 3 ≤ 255 :=
    (Nat.add_le_add_right (fieldOffset_mono _ (Nat.le_sub_one_of_lt hk)) 3).trans hlast
  have hlen : r.fields.length = 5 + (DbRequest.args r.op).length := by
    simp [DbRequest.fields, callFields]
    omega
  obtain ⟨srcpid, hsrc⟩ := hsw.unpackedInt_reached (k := 0) (v := r.srcpid) rfl
    (hoff (by omega))
  obtain ⟨t, htok⟩ := hsw.unpackedInt_reached (k := 2) (v := r.cbToken) rfl (hoff (by omega))
  have hhook := hsw.unpackedString_reached (k := 3) (s := r.cbHook) rfl (hoff (by omega))
  have hkey := hsw.unpackedString_reached (k := 4) (s := r.key) rfl (hoff (by omega))
  generalize ppSimpleRecvmsgHelper recvBuffer (message r.fields) = bin at *
  obtain ⟨_, _, cbHook, key, op⟩ := r
  dsimp only at *
  cases op with
  | cas new old =>
    have hnew := hsw.unpackedString_reached (k := 5) (s := new) rfl
      (hoff (by simp [hlen, DbRequest.args]))
    have hold := hsw.unpackedString_reached (k := 6) (s := old) rfl
      (hoff (by simp [hlen, DbRequest.args]))
    simp only [readRequest, hsrc, htok, hhook, hkey, hnew, hold]
    rfl
  | setIfNull new =>
    have hnew := hsw.unpackedString_reached (k := 5) (s := new) rfl
      (hoff (by simp [hlen, DbRequest.args]))
    simp only [readRequest, hsrc, htok, hhook, hkey, hnew]
    rfl
  | unset =>
    simp only [readRequest, hsrc, htok, hhook, hkey]
    rfl
  | get => exact absurd rfl hop

theorem readAll_legible {rs : List DbRequest} (h : ∀ r ∈ rs, r.Legible L ∧ r.op ≠ .get) :
    DbRequest.readAll L recvBuffer rs = some (rs.map DbRequest.keyOp) := by
  induction rs generalizing recvBuffer with
  | nil => rfl
  | cons r rs ih =>
    obtain ⟨⟨hr, hop⟩, hrest⟩ := List.forall_mem_cons.mp h
    unfold DbRequest.readAll
    dsimp only
    rw [readRequest_legible L hroom hbuffer hr hop, ih (recv_capacity.trans hbuffer) hrest]
    rfl

end Receive
end Nginz
