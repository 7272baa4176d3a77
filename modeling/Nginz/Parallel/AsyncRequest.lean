import Nginz.BinaryCoder.Packing

/-! Requests from a worker to the master and replies from the master to a worker. -/
namespace Nginz

def nullHook : Bytes := lit "null"

/-- The entries of an argument array in front of its first `NULL`. -/
def argsUntilNull : List (Option Bytes) → List Bytes
  | some arg :: args => arg :: argsUntilNull args
  | _ => []

/-- The fields of a request to the master. -/
def callFields (pid cbToken : ℤ) (workerHook masterHook : Bytes) (args : List Bytes) : List Field :=
  [.int pid, .str masterHook, .int cbToken, .str workerHook] ++ args.map .str

/-- The datagram sent to the master. -/
def asyncPmCallMaster (L : TxtLib) (pid cbToken : ℤ) (workerHook : Option Bytes)
    (masterHook : Bytes) (args : List (Option Bytes)) : Bytes :=
  let workerHook := workerHook.getD nullHook
  let bin := binaryCoderReset L (.stackbuffer L nginzMaxBinaryMsgLen)
  let bin := (binaryPackInt L bin pid).2
  let bin := (binaryPackString L bin masterHook).2
  let bin := (binaryPackInt L bin cbToken).2
  let bin := (binaryPackString L bin workerHook).2
  let bin := (argsUntilNull args).foldl (fun bin arg => (binaryPackString L bin arg).2) bin
  bin.content

/-- The fields of a reply to a worker. -/
def replyFields (pid cbToken : ℤ) (workerHook : Bytes) (success : ℤ) (args : List Bytes) :
    List Field :=
  [.int pid, .str workerHook, .int cbToken, .int success] ++ args.map .str

/-- The datagrams sent, each with its destination; `none` when the assertion fails. -/
def asyncPmReplyWorker (L : TxtLib) (pid destpid cbToken : ℤ) (workerHook : Bytes) (success : ℤ)
    (args : List (Option Bytes)) : Option (List (ℤ × Bytes)) :=
  if workerHook = [] then none
  else if workerHook = nullHook then some []
  else
    let bin := binaryCoderReset L (.stackbuffer L nginzMaxBinaryMsgLen)
    let bin := (binaryPackInt L bin pid).2
    let bin := (binaryPackString L bin workerHook).2
    let bin := (binaryPackInt L bin cbToken).2
    let bin := (binaryPackInt L bin success).2
    let bin := (argsUntilNull args).foldl (fun bin arg => (binaryPackString L bin arg).2) bin
    some [(destpid, bin.content)]

/-- The buffer both calls pack into. -/
def requestBuffer (L : TxtLib) :
    AroopTxt := binaryCoderReset L (.stackbuffer L nginzMaxBinaryMsgLen)

section Packed
variable (L : TxtLib) (pid cbToken : ℤ) (args : List (Option Bytes))

theorem requestBuffer_isMessage : IsMessage (requestBuffer L) [] ∧
    (requestBuffer L).capacity = L.room nginzMaxBinaryMsgLen := by
  have hle := L.le_room nginzMaxBinaryMsgLen
  have hcap : (AroopTxt.stackbuffer L nginzMaxBinaryMsgLen).capacity =
      L.room nginzMaxBinaryMsgLen := AroopTxt.buffer_capacity _
  have hmax : nginzMaxBinaryMsgLen = 1024 := rfl
  exact ⟨reset_isMessage L (by omega), (reset_capacity L _).trans hcap⟩

/-- A request is what the pack calls leave of its fields. -/
theorem asyncPmCallMaster_packed (workerHook : Option Bytes) (masterHook : Bytes) :
    asyncPmCallMaster L pid cbToken workerHook masterHook args =
      (packAll L (requestBuffer L) (callFields pid cbToken (workerHook.getD nullHook) masterHook
        (argsUntilNull args))).content := by
  simp [asyncPmCallMaster, callFields, packAll, packField, requestBuffer, List.foldl_map]

/-- So is a reply, unless its hook is the null hook. -/
theorem asyncPmReplyWorker_packed (destpid success : ℤ) {workerHook : Bytes}
    (hne : workerHook ≠ []) (hnull : workerHook ≠ nullHook) :
    asyncPmReplyWorker L pid destpid cbToken workerHook success args =
      some [(destpid, (packAll L (requestBuffer L) (replyFields pid cbToken workerHook success
        (argsUntilNull args))).content)] := by
  simp [asyncPmReplyWorker, replyFields, packAll, packField, requestBuffer, List.foldl_map, hne,
    hnull]

end Packed

section Sent
variable (L : TxtLib) (hroom : L.room nginzMaxBinaryMsgLen < 65536) {pid cbToken : ℤ}
include hroom

/-- A request that fits is the message of its fields. -/
theorem asyncPmCallMaster_eq {workerHook : Option Bytes} {masterHook : Bytes}
    {args : List (Option Bytes)}
    (hf : packedLength (callFields pid cbToken (workerHook.getD nullHook) masterHook
      (argsUntilNull args)) ≤ 255) :
    asyncPmCallMaster L pid cbToken workerHook masterHook args =
      message (callFields pid cbToken (workerHook.getD nullHook) masterHook
        (argsUntilNull args)) := by
  rw [asyncPmCallMaster_packed]
  exact (packAll_isMessage L hroom (hf.trans (by decide))).content

/-- So is a reply. -/
theorem asyncPmReplyWorker_eq {destpid success : ℤ} {workerHook : Bytes}
    {args : List (Option Bytes)} (hne : workerHook ≠ []) (hnull : workerHook ≠ nullHook)
    (hf : packedLength (replyFields pid cbToken workerHook success (argsUntilNull args)) ≤ 255) :
    asyncPmReplyWorker L pid destpid cbToken workerHook success args =
      some [(destpid, message (replyFields pid cbToken workerHook success
        (argsUntilNull args)))] := by
  have hm := packAll_isMessage L hroom (hf.trans (by decide))
  rw [asyncPmReplyWorker_packed L pid cbToken args destpid success hne hnull]
  exact congrArg (fun pkt => some [(destpid, pkt)]) hm.content

end Sent
end Nginz
