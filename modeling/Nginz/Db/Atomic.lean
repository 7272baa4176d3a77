import Nginz.Db.Store

/-! The asynchronous store is an atomic map: every run of workers and master is a
sequence of operations on one map, each answered once. -/
namespace Nginz
open KeyedStore
variable {ι : Type*} [DecidableEq ι]

/-- A datagram goes to the process of a reply, and a worker reads the reply from it
whatever its receive buffer held before. -/
structure Carries (masterPid : ℤ) (d : ℤ × Bytes) (rep : DbReply) : Prop where
  dest : d.1 = rep.destpid
  reads : ∀ buffer : AroopTxt, nginzMaxBinaryMsgLen ≤ buffer.capacity → buffer.capacity < 65536 →
    let bin := ppSimpleRecvmsgHelper buffer d.2
    unpackedInt bin 0 = some masterPid ∧ unpackedString bin 1 = some rep.cbHook ∧
      unpackedInt bin 2 = some rep.cbToken ∧ unpackedInt bin 3 = some rep.success ∧
      unpackedString bin 4 = some rep.key ∧ unpackedString bin 5 = some (rep.value.getD [])

/-- A state of the system after a run, explained by the requests served in it. -/
structure AtomicStore (masterPid : ℤ) (pid : ι → ℤ) (db : Bytes → Option Bytes)
    (as : List (StoreAction ι)) (s : StoreSystem ι) (served : List (ι × DbRequest)) : Prop where
  /-- Each worker's requests are served once, in the order of its calls; the others wait. -/
  fifo : ∀ w, ∃ left, Mailbox.takenFrom w served ++ left =
      Mailbox.posted w (as.map (StoreAction.event pid)) ∧
    s.pipe w = left.map fun r => message r.fields
  origin : ∀ e ∈ served, e.2.srcpid = pid e.1
  table : s.master.globalDb = storeAfter db served
  replies : List.Forall₂ (Carries masterPid) s.master.sent (repliesTo db served)
  failed : ∀ pre e post, served = pre ++ e :: post →
    e.2.op.succeeds (storeAfter db pre e.2.key) = false →
    storeAfter db (pre ++ [e]) = storeAfter db pre
  /-- Between two removals of a key one set-if-null takes effect, if the key was absent. -/
  exclusive : ∀ k pre mid post, served = pre ++ mid ++ post →
    (∀ e ∈ mid, e.2.keyOp ≠ (k, .unset)) →
    insertions k (storeAfter db pre) (mid.map fun e => e.2.keyOp) =
      ((storeAfter db pre k).isNone &&
        (onKey k (mid.map fun e => e.2.keyOp)).any Op.isSetIfNull).toNat

theorem requests_srcpid {pid : ℤ} {c : DbCall} {r : DbRequest} (h : r ∈ c.requests pid) :
    r.srcpid = pid := by
  cases c with
  | compareAndSwap t hook k new old =>
    simp only [DbCall.requests, List.mem_map, Option.mem_toList] at h
    obtain ⟨op, -, rfl⟩ := h
    rfl
  | increment t hook k n d =>
    simp only [DbCall.requests] at h
    split_ifs at h
    · obtain rfl := List.mem_singleton.mp h
      rfl
    · rcases List.mem_append.mp h with h | h <;> obtain rfl := List.mem_singleton.mp h <;> rfl
    · obtain rfl := List.mem_singleton.mp h
      rfl
  | _ =>
    obtain rfl := List.mem_singleton.mp h
    rfl

/-- A served request was issued by a call of its worker. -/
theorem served_issued {pid : ι → ℤ} {as : List (StoreAction ι)} {e : ι × DbRequest}
    (h : e ∈ servedIn pid as) : ∃ c, .call e.1 c ∈ as ∧ e.2 ∈ c.requests (pid e.1) := by
  have hmem := Mailbox.run_taken_mem h
  simp only [Mailbox.init, Mailbox.takenFrom, List.filter_nil, List.map_nil, List.append_nil,
    List.nil_append, Mailbox.posted, List.mem_flatMap, List.mem_map] at hmem
  obtain ⟨_, ⟨a, ha, rfl⟩, hin⟩ := hmem
  cases a with
  | call w c =>
    simp only [StoreAction.event] at hin
    split_ifs at hin with hw
    · subst hw
      exact ⟨c, ha, hin⟩
    · exact absurd hin List.not_mem_nil
  | receive w => exact absurd hin List.not_mem_nil

/-- A reply is read back as it was sent. -/
theorem carries_reply {masterPid : ℤ} (hpid : 0 ≤ masterPid ∧ masterPid < 2 ^ 31) {r : DbRequest}
    (ha : r.Admissible) {db : Bytes → Option Bytes} {rep : DbReply} (hrep : rep ∈ r.replies db)
    (hfit : packedLength (rep.fields masterPid) ≤ 255) :
    Carries masterPid (rep.datagram masterPid) rep := by
  unfold DbRequest.replies at hrep
  split_ifs at hrep with hnull
  · exact absurd hrep List.not_mem_nil
  obtain rfl := List.mem_singleton.mp hrep
  have ht := ha.token.resolve_left hnull
  refine ⟨rfl, fun buffer hc hc' => ?_⟩
  have hmax : nginzMaxBinaryMsgLen = 1024 := rfl
  have hsw : StartsWith (ppSimpleRecvmsgHelper buffer (message ((r.reply db).fields masterPid)))
      ((r.reply db).fields masterPid) := recv_startsWith hc' (hfit.trans (by omega))
  have hsucc : 0 ≤ (r.reply db).success ∧ (r.reply db).success < 2 ^ 31 := by
    simp only [DbRequest.reply]
    split <;> decide
  refine ⟨hsw.unpackedInt_field hfit rfl hpid.1 hpid.2, hsw.unpackedString_field hfit rfl,
    hsw.unpackedInt_field hfit rfl ht.1 ht.2, hsw.unpackedInt_field hfit rfl hsucc.1 hsucc.2,
    hsw.unpackedString_field hfit rfl, ?_⟩
  cases hv : (r.reply db).value with
  | some v =>
    exact hsw.unpackedString_field hfit (by simp [DbReply.fields, replyFields, hv])
  | none =>
    have hlen : ((r.reply db).fields masterPid).length ≤ 5 := by
      simp [DbReply.fields, replyFields, hv]
    exact hsw.unpackedString_past_end hfit (by simp [DbReply.fields, replyFields]) hlen

omit [DecidableEq ι] in
/-- So are all the replies to served requests. -/
theorem carries_replies {masterPid : ℤ} (hpid : 0 ≤ masterPid ∧ masterPid < 2 ^ 31)
    {db : Bytes → Option Bytes} {served : List (ι × DbRequest)}
    (ha : ∀ e ∈ served, e.2.Admissible)
    (hfit : ∀ rep ∈ repliesTo db served, packedLength (rep.fields masterPid) ≤ 255) :
    List.Forall₂ (Carries masterPid) ((repliesTo db served).map (DbReply.datagram masterPid))
      (repliesTo db served) := by
  rw [List.forall₂_map_left_iff, List.forall₂_same]
  induction served generalizing db with
  | nil => exact fun rep hrep => absurd hrep List.not_mem_nil
  | cons e es ih =>
    intro rep hrep
    rcases List.mem_append.mp hrep with hnow | hlater
    · exact carries_reply hpid (ha e List.mem_cons_self) hnow (hfit rep hrep)
    · exact ih (fun f hf => ha f (List.mem_cons_of_mem e hf))
        (fun q hq => hfit q (List.mem_append_right _ hq)) rep hlater

/-- Any number of workers calling the store in any order, with the master receiving
their datagrams in any order that is first-in first-out for each worker: no assertion
fails, and the system is an atomic map that answers every request once. -/
theorem async_store_atomic (L : TxtLib) (hroom : L.room nginzMaxBinaryMsgLen < 65536)
    {masterPid : ℤ} (hmaster : 0 ≤ masterPid ∧ masterPid < 2 ^ 31) (pid : ι → ℤ)
    (db : Bytes → Option Bytes) (as : List (StoreAction ι)) (hcalls : ∀ a ∈ as, a.Admissible pid)
    (hfit : ∀ rep ∈ repliesTo db (servedIn pid as), packedLength (rep.fields masterPid) ≤ 255) :
    ∃ s, (StoreSystem.start L db).run L masterPid pid as = some s ∧
      AtomicStore masterPid pid db as s (servedIn pid as) := by
  obtain ⟨s, hrun, h⟩ := run_refines L hroom (start_refines L hroom) hcalls hfit
  have hissued : ∀ e ∈ servedIn pid as, e.2.Admissible ∧ e.2.srcpid = pid e.1 := by
    intro e he
    obtain ⟨c, hc, hr⟩ := served_issued he
    exact ⟨(hcalls _ hc).2 e.2 hr, requests_srcpid hr⟩
  refine ⟨s, hrun, ?_, fun e he => (hissued e he).2, h.table, ?_, ?_, ?_⟩
  · intro w
    have honce := Mailbox.run_exactly_once Mailbox.init (as.map (StoreAction.event pid)) w
    simp only [Mailbox.init, Mailbox.takenFrom, List.filter_nil, List.map_nil, List.append_nil,
      List.nil_append] at honce
    exact ⟨_, honce, h.pipe w⟩
  · rw [h.sent]
    exact carries_replies hmaster (fun e he => (hissued e he).1) hfit
  · intro pre e post _ hfail
    rw [storeAfter_append]
    exact apply_of_failed hfail
  · intro k pre mid post _ hmid
    apply insertions_eq
    simpa only [List.mem_map, not_exists, not_and] using hmid

/-- Two workers race for a name; the first request that arrives wins. -/
def raceForName : List (StoreAction Bool) :=
  [.call true (.compareAndSwap 7 (some (lit "async/login")) (lit "user/bob") (some (lit "7")) none),
    .call false (.compareAndSwap 9 (some (lit "async/login")) (lit "user/bob") (some (lit "9"))
      none),
    .receive false, .receive true, .call true (.get 8 none (lit "user/bob")), .receive true]

theorem async_store_atomic_race :
    ∃ s, (StoreSystem.start .cutting fun _ => none).run .cutting 4711 (fun w => cond w 4712 4713)
        raceForName = some s ∧
      AtomicStore 4711 (fun w => cond w 4712 4713) (fun _ => none) raceForName s
        (servedIn (fun w => cond w 4712 4713) raceForName) :=
  async_store_atomic .cutting (by decide) (by decide) _ _ _ (by decide +kernel) (by decide +kernel)

end Nginz
