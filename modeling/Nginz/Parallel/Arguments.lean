import Nginz.BinaryCoder.PackRuns
import Nginz.Parallel.AsyncRequest
import Nginz.Parallel.Nodes

/-! Which requests and replies carry all their arguments: the return codes of the pack calls
are dropped, so a message that does not fit loses fields and the later ones move up; and so is
the return code of `pp_send`. -/
namespace Nginz
open BigEndian Framing
variable {n : ℕ}

/-- The return code of `async_pm_call_master` and the packets that go out, when `sendmsg` to the
pipes succeeds where `sends` tells; `none` when the assertion of `pp_send` fails. -/
def callMasterOutcome (L : TxtLib) (sends : Fin n → Bool) (p : NginzProcess n)
    (masterpid cbToken : ℤ) (workerHook : Option Bytes) (masterHook : Bytes)
    (args : List (Option Bytes)) : Option (ℤ × List (Fin n × Bytes)) :=
  (ppSendOutcome sends p masterpid
    (asyncPmCallMaster L p.pid cbToken workerHook masterHook args)).map fun r => (0, r.2)

/-- The same for `async_pm_reply_worker`, which has an assertion of its own. -/
def replyWorkerOutcome (L : TxtLib) (sends : Fin n → Bool) (p : NginzProcess n)
    (destpid cbToken : ℤ) (workerHook : Bytes) (success : ℤ) (args : List (Option Bytes)) :
    Option (ℤ × List (Fin n × Bytes)) :=
  (asyncPmReplyWorker L p.pid destpid cbToken workerHook success args).bind fun ds =>
    (ds.mapM fun d => ppSendOutcome sends p d.1 d.2).map fun rs => (0, rs.flatMap Prod.snd)

/-- No assertion fails, and one message is sent to all destinations there are, whose fields from
the fourth on are the arguments, or nothing is sent and the return code says so. -/
def ArgumentsSent (p : NginzProcess n) (destpid : ℤ) (args : List Bytes)
    (outcome : Option (ℤ × List (Fin n × Bytes))) : Prop :=
  ∃ r, outcome = some r ∧
    ((∃ is fs, ppDestinations p destpid = some is ∧ is ≠ [] ∧
        r.2 = is.map (fun i => (i, message fs)) ∧ fs.drop 4 = args.map Field.str) ∨
      r.1 ≠ 0 ∧ r.2 = [])

/-- There is somebody to send to, and no `sendmsg` fails. -/
def Reached (sends : Fin n → Bool) (p : NginzProcess n) (destpid : ℤ) : Prop :=
  ∃ is, ppDestinations p destpid = some is ∧ is ≠ [] ∧ ∀ i ∈ is, sends i = true

/-! ### What is left of the fields -/

/-- The length in front of a body tells where it ends. -/
theorem frame_front {f g : Field} {xs ys : Bytes} (hf : f.body.length < 65536)
    (hg : g.body.length < 65536) (h : f.frame ++ xs = g.frame ++ ys) : f.frame = g.frame := by
  unfold Field.frame digits digits digits at h
  simp only [List.cons_append, List.nil_append, List.cons.injEq] at h
  obtain ⟨htype, h1, h0, hbody⟩ := h
  have hlen : f.body.length = g.body.length := by
    rw [← join_digits hf, ← join_digits hg, h1, h0]
  have hsame : f.body = g.body := (List.append_inj hbody hlen).1
  unfold Field.frame
  rw [htype, hsame]

/-- A message tells its fields apart. -/
theorem message_unique {fs gs : List Field} (hf : packedLength fs < 65536)
    (h : message fs = message gs) : fs.map Field.frame = gs.map Field.frame := by
  have hlen : packedLength fs = packedLength gs := by
    rw [← message_length, ← message_length, h]
  have hbodies : encode Field.frame fs = encode Field.frame gs := by
    unfold message at h
    rw [hlen] at h
    exact List.append_cancel_left h
  apply encode_unique Field.frame (fun f => f.body.length < 65536)
  · exact fun f g xs ys hf hg he => frame_front hf hg he
  · intro f he
    have hlen := f.frame_length
    rw [he] at hlen
    simp at hlen
  · exact body_lt hf
  · exact body_lt (by omega)
  · exact hbodies

section Outcome
variable (L : TxtLib) (hroom : L.room nginzMaxBinaryMsgLen < 65536)

include hroom

/-- Four fields and some arguments are packed as they are exactly when there is no argument or
everything fits. -/
theorem argumentsPacked_iff {header : List Field} (hheader : header.length = 4)
    (args : List Bytes) :
    (∃ fs, (packAll L (requestBuffer L) (header ++ args.map Field.str)).content = message fs ∧
        fs.drop 4 = args.map Field.str) ↔
      args = [] ∨
        packedLength (header ++ args.map Field.str) ≤ L.room nginzMaxBinaryMsgLen := by
  obtain ⟨hreset, hcap⟩ := requestBuffer_isMessage L
  obtain ⟨kept, hsub, hm, hk⟩ :=
    packAll_sublist L hreset (by omega) (header ++ args.map Field.str)
  rw [List.nil_append] at hm
  have hshort : packedLength kept ≤ L.room nginzMaxBinaryMsgLen := by
    rw [← hcap, ← hk]
    exact hm.packedLength_le
  have htotal : (header ++ args.map Field.str).length = 4 + args.length := by
    rw [List.length_append, List.length_map, hheader]
  constructor
  · rintro ⟨fs, hmessage, hargs⟩
    by_cases hempty : args = []
    · exact Or.inl hempty
    right
    rw [hm.content] at hmessage
    have hframes := message_unique (by omega) hmessage
    have hcount : kept.length = fs.length := by
      have := congrArg List.length hframes
      simpa using this
    have hpos : 0 < args.length := List.length_pos_iff.mpr hempty
    have hdrop : fs.length - 4 = args.length := by
      rw [← List.length_drop, hargs, List.length_map]
    have hall : kept = header ++ args.map Field.str := by
      apply hsub.eq_of_length
      omega
    rwa [hall] at hshort
  · intro hfits
    refine ⟨kept, hm.content, ?_⟩
    rcases hfits with rfl | hfits
    · have hlen := hsub.length_le
      rw [htotal] at hlen
      rw [List.drop_eq_nil_of_le (by simpa using hlen)]
      rfl
    · have hwhole := packAll_of_room L hroom hfits
      have hframes := message_unique (by omega) (hm.content.symm.trans hwhole.content)
      have hcount : kept.length = (header ++ args.map Field.str).length := by
        have := congrArg List.length hframes
        simpa using this
      rw [hsub.eq_of_length hcount, ← hheader, List.drop_left]

omit hroom in
/-- A call that returns `0` always has sent its arguments exactly when everybody is reached and
the packet has them. -/
theorem argumentsSent_iff (sends : Fin n → Bool) (p : NginzProcess n) (destpid : ℤ) (pkt : Bytes)
    (args : List Bytes) :
    ArgumentsSent p destpid args ((ppSendOutcome sends p destpid pkt).map fun r => (0, r.2)) ↔
      Reached sends p destpid ∧ ∃ fs, pkt = message fs ∧ fs.drop 4 = args.map Field.str := by
  unfold ppSendOutcome
  constructor
  · rintro ⟨r, hr, ⟨is, fs, his, hne, hsent, hargs⟩ | ⟨hno, -⟩⟩
    · rw [his, Option.map_some, Option.map_some, Option.some.injEq] at hr
      obtain rfl := hr
      -- the packet of the first destination is the message
      have hpkt : pkt = message fs := by
        obtain ⟨i, is, rfl⟩ := List.exists_cons_of_ne_nil hne
        rw [ppSendEach, List.map_cons] at hsent
        split at hsent
        · exact (Prod.mk.inj (List.cons.inj hsent).1).2
        · exact absurd hsent (by simp)
      subst hpkt
      exact ⟨⟨is, his, hne, (ppSendEach_iff sends _ is).mp hsent⟩, fs, rfl, hargs⟩
    · obtain ⟨sent, _, rfl⟩ := Option.map_eq_some_iff.mp hr
      exact absurd rfl hno
  · rintro ⟨⟨is, his, hne, hsends⟩, fs, rfl, hargs⟩
    refine ⟨(0, (ppSendEach sends (message fs) is).2), by rw [his]; rfl, .inl ?_⟩
    exact ⟨is, fs, his, hne, (ppSendEach_iff sends _ is).mpr hsends, hargs⟩

end Outcome

/-- A request or a reply carries its arguments exactly when its destinations are there, no
`sendmsg` fails, and there are no arguments or the whole message fits into the buffer; but for
replies that nobody waits for, which are not sent. -/
theorem arguments_sent_iff (L : TxtLib) (hroom : L.room nginzMaxBinaryMsgLen < 65536)
    (sends : Fin n → Bool) (p : NginzProcess n) (cbToken : ℤ) (args : List (Option Bytes)) :
    (∀ masterpid workerHook masterHook,
      ArgumentsSent p masterpid (argsUntilNull args)
          (callMasterOutcome L sends p masterpid cbToken workerHook masterHook args) ↔
        Reached sends p masterpid ∧
          (argsUntilNull args = [] ∨ packedLength (callFields p.pid cbToken
            (workerHook.getD nullHook) masterHook (argsUntilNull args)) ≤
              L.room nginzMaxBinaryMsgLen)) ∧
      ∀ destpid workerHook success,
        ArgumentsSent p destpid (argsUntilNull args)
            (replyWorkerOutcome L sends p destpid cbToken workerHook success args) ↔
          workerHook ≠ [] ∧ workerHook ≠ nullHook ∧ Reached sends p destpid ∧
            (argsUntilNull args = [] ∨ packedLength (replyFields p.pid cbToken workerHook success
              (argsUntilNull args)) ≤ L.room nginzMaxBinaryMsgLen) := by
  constructor
  · intro masterpid workerHook masterHook
    have hheader : [Field.int p.pid, .str masterHook, .int cbToken,
        .str (workerHook.getD nullHook)].length = 4 := rfl
    unfold callMasterOutcome
    rw [asyncPmCallMaster_packed, argumentsSent_iff, callFields,
      argumentsPacked_iff L hroom hheader]
  · intro destpid workerHook success
    unfold replyWorkerOutcome
    by_cases hne : workerHook = []
    · simp [hne, asyncPmReplyWorker, ArgumentsSent]
    by_cases hnull : workerHook = nullHook
    · simp [hnull, show nullHook ≠ [] by decide, asyncPmReplyWorker, ArgumentsSent]
    have hheader : [Field.int p.pid, .str workerHook, .int cbToken, .int success].length = 4 := rfl
    have hone (pkt : Bytes) :
        (([(destpid, pkt)].mapM fun d => ppSendOutcome sends p d.1 d.2).map fun rs =>
          ((0 : ℤ), rs.flatMap Prod.snd)) =
            (ppSendOutcome sends p destpid pkt).map fun r => (0, r.2) := by
      cases hr : ppSendOutcome sends p destpid pkt <;> simp [hr]
    rw [asyncPmReplyWorker_packed L p.pid cbToken args destpid success hne hnull,
      Option.bind_some, hone, argumentsSent_iff, replyFields, argumentsPacked_iff L hroom hheader]
    simp only [ne_eq, hne, hnull, not_false_eq_true, true_and]

/-- A worker of two processes that knows its master. -/
def secondProcess : NginzProcess 2 := ⟨4712, ![4711, 4712], some (Fin.last 1), .buffer 1024⟩

theorem arguments_sent_iff_login :
    (∀ masterpid workerHook masterHook,
      ArgumentsSent secondProcess masterpid [lit "user/bob"]
          (callMasterOutcome .cutting (fun _ => true) secondProcess masterpid 7 workerHook
            masterHook [some (lit "user/bob"), none]) ↔
        Reached (fun _ => true) secondProcess masterpid ∧
          ([lit "user/bob"] = [] ∨ packedLength (callFields 4712 7 (workerHook.getD nullHook)
            masterHook [lit "user/bob"]) ≤ TxtLib.cutting.room nginzMaxBinaryMsgLen)) ∧
      ∀ destpid workerHook success,
        ArgumentsSent secondProcess destpid [lit "user/bob"]
            (replyWorkerOutcome .cutting (fun _ => true) secondProcess destpid 7 workerHook
              success [some (lit "user/bob"), none]) ↔
          workerHook ≠ [] ∧ workerHook ≠ nullHook ∧ Reached (fun _ => true) secondProcess destpid ∧
            ([lit "user/bob"] = [] ∨ packedLength (replyFields 4712 7 workerHook success
              [lit "user/bob"]) ≤ TxtLib.cutting.room nginzMaxBinaryMsgLen) :=
  arguments_sent_iff .cutting (by decide) (fun _ => true) secondProcess 7
    [some (lit "user/bob"), none]

/-- A first argument of 1100 bytes is dropped, and the second one takes its place. -/
theorem async_pm_call_master_shifts :
    callMasterOutcome .cutting (fun _ => true) secondProcess 4711 7 none (lit "on/db/async/set")
        [some (List.replicate 1100 97), some (lit "x"), none] =
      some (0, [(0, message (callFields 4712 7 nullHook (lit "on/db/async/set") [lit "x"]))]) ∧
      ¬ ArgumentsSent secondProcess 4711 [List.replicate 1100 97, lit "x"]
        (callMasterOutcome .cutting (fun _ => true) secondProcess 4711 7 none
          (lit "on/db/async/set") [some (List.replicate 1100 97), some (lit "x"), none]) := by
  have hpacked : asyncPmCallMaster .cutting 4712 7 none (lit "on/db/async/set")
      [some (List.replicate 1100 97), some (lit "x"), none] =
        message (callFields 4712 7 nullHook (lit "on/db/async/set") [lit "x"]) := by decide +kernel
  have hdest : ppDestinations secondProcess 4711 = some [0] := by decide
  have hrun : callMasterOutcome .cutting (fun _ => true) secondProcess 4711 7 none
      (lit "on/db/async/set") [some (List.replicate 1100 97), some (lit "x"), none] =
      some (0, [(0, message (callFields 4712 7 nullHook (lit "on/db/async/set") [lit "x"]))]) := by
    unfold callMasterOutcome ppSendOutcome
    rw [hdest, show secondProcess.pid = 4712 from rfl, hpacked]
    rfl
  refine ⟨hrun, ?_⟩
  rw [hrun]
  rintro ⟨r, hr, hcases⟩
  obtain rfl := Option.some.inj hr
  rcases hcases with ⟨is, fs, his, -, hsent, hargs⟩ | ⟨hno, -⟩
  · obtain rfl := Option.some.inj (hdest.symm.trans his)
    have hmessage : message (callFields 4712 7 nullHook (lit "on/db/async/set") [lit "x"]) =
        message fs := by simpa using hsent
    have hshort :
        packedLength (callFields 4712 7 nullHook (lit "on/db/async/set") [lit "x"]) < 65536 := by
      decide +kernel
    have hcount := congrArg List.length (message_unique hshort hmessage)
    have hdrop := congrArg List.length hargs
    simp only [List.length_map, callFields, List.length_append, List.length_cons, List.length_nil,
      List.length_drop] at hcount hdrop
    omega
  · exact absurd rfl hno

end Nginz
