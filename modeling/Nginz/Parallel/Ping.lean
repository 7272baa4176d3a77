import Mathlib.Data.List.DropRight
import Nginz.Parallel.Nodes
import Nginz.Lib.Fanout

/-! Pinging the other processes: `ping_command` broadcasts a command, and
`enumerate_command` counts the ones that arrive. -/
namespace Nginz
variable {n : ℕ}

/-- `isspace`. -/
def isSpace (x : UInt8) : Bool := x == 32 || (9 ≤ x && x ≤ 13)

/-- `scanner_trim`: the bytes up to the last one that is no space. -/
def scannerTrim (src : Bytes) : Bytes := src.rdropWhile isSpace

/-- A process with the buffer of `ping_command`, the `accumulator` of `enumerate_command`,
and a record of the datagrams it received. -/
structure PingProcess (n : ℕ) extends NginzProcess n where
  pingBuffer : AroopTxt
  accumulator : ℕ
  handled : List Bytes

/-- The process afterwards and what it sends. -/
def pingCommand (L : TxtLib) (p : PingProcess n) (input : Bytes) :
    Option (PingProcess n × List (Fin n × Bytes)) :=
  let cmd := scannerTrim input
  let pingBuffer := binaryCoderResetForPid L p.pingBuffer p.pid
  let pingBuffer := (binaryPackString L pingBuffer cmd).2
  (ppSend p.toNginzProcess 0 pingBuffer.content).map fun sent =>
    ({ p with pingBuffer := pingBuffer }, sent)

def enumerateCommand (p : PingProcess n) : PingProcess n :=
  { p with accumulator := p.accumulator + 1 }

/-- `pm_call` for a received command: `others` are the plugins of the other spaces. -/
def pingPmCall (others : Bytes → AroopTxt → PingProcess n → Option (PingProcess n)) (space : Bytes)
    (input : AroopTxt) (p : PingProcess n) : Option (PingProcess n) :=
  if space = lit "shake/enumerate" then some (enumerateCommand p) else others space input p

/-- The processes by their slots, and the datagrams waiting in the pipe of each slot. -/
structure PingSystem (n : ℕ) where
  proc : Fin n → PingProcess n
  pipe : Fin n → List Bytes

/-- A process calls `shake/ping` with the command to enumerate, or receives a datagram. -/
inductive PingAction (n : ℕ) where
  | ping (i : Fin n)
  | deliver (i : Fin n)
  deriving DecidableEq

namespace PingSystem

/-- Processes that know their slots and each other, before anything is sent. -/
def start (L : TxtLib) (pid : Fin n → ℤ) : PingSystem n where
  proc i :=
    { pid := pid i
      nodes := pid
      mynode := some i
      recvBuffer := .stackbuffer L nginzMaxBinaryMsgLen
      pingBuffer := .stackbuffer L 1024
      accumulator := 0
      handled := [] }
  pipe _ := []

/-- `none` when an assertion fails. -/
def step (L : TxtLib) (others : Bytes → AroopTxt → PingProcess n → Option (PingProcess n))
    (s : PingSystem n) : PingAction n → Option (PingSystem n)
  | .ping i => (pingCommand L (s.proc i) (lit "shake/enumerate")).map fun r =>
    ⟨Function.update s.proc i r.1, fun j => s.pipe j ++ sentTo j r.2⟩
  | .deliver i =>
    match s.pipe i with
    | [] => some s
    | d :: ds =>
      (onBubbles (pingPmCall others) (s.proc i).recvBuffer d
        { s.proc i with handled := (s.proc i).handled ++ [d] }).map fun r =>
          ⟨Function.update s.proc i { r.2 with recvBuffer := r.1 }, Function.update s.pipe i ds⟩

def run (L : TxtLib) (others : Bytes → AroopTxt → PingProcess n → Option (PingProcess n))
    (s : PingSystem n) (as : List (PingAction n)) : Option (PingSystem n) :=
  as.foldlM (step L others) s

end PingSystem

/-! ### The broadcasts of a run -/

/-- The fields of a ping to enumerate. -/
def pingFields (pid : ℤ) : List Field := [.int pid, .str (lit "shake/enumerate")]

/-- An action as a broadcast among the slots. -/
def PingAction.event : PingAction n → Fanout.Event (Fin n) Unit
  | .ping i => .publish i ()
  | .deliver i => .take i

theorem pingFields_short (pid : ℤ) : packedLength (pingFields pid) ≤ 27 := by
  have hpid := intbuf_length_le pid
  have hword : (lit "shake/enumerate").length = 15 := by decide
  simp only [packedLength, pingFields, Field.body, List.map_cons, List.map_nil, List.sum_cons,
    List.sum_nil, hword]
  omega

/-- The datagram of a ping carries the pid of its sender. -/
theorem pingFields_pid {pid : ℤ} (h0 : 0 ≤ pid) (h1 : pid < 2 ^ 31) :
    unpackedInt (.ofBytes (message (pingFields pid))) 0 = some pid := by
  have hshort := pingFields_short pid
  have hsw : StartsWith (.ofBytes (message (pingFields pid))) (pingFields pid) :=
    ⟨⟨[], by simp [AroopTxt.ofBytes]⟩, by simp [AroopTxt.ofBytes], by
      simp only [AroopTxt.ofBytes, message_length]
      omega⟩
  exact hsw.unpackedInt_field (by omega) rfl h0 h1

/-- A process of slot `i` that took the given broadcasts. -/
structure PingProcess.Took (pid : Fin n → ℤ) (i : Fin n) (p : PingProcess n)
    (taken : List (Fin n × Unit)) : Prop where
  handled : p.handled = taken.map fun x => message (pingFields (pid x.1))
  accumulator : p.accumulator = taken.length
  pid : p.pid = pid i
  mynode : p.mynode = some i
  recvRoom : nginzMaxBinaryMsgLen ≤ p.recvBuffer.capacity ∧ p.recvBuffer.capacity < 65536
  pingRoom : 1024 ≤ p.pingBuffer.capacity ∧ p.pingBuffer.capacity < 65536

/-- The processes are where the broadcasts are. -/
structure PingRefines (pid : Fin n → ℤ) (s : PingSystem n) (t : Fanout.State (Fin n) Unit) :
    Prop where
  pipe : ∀ i, s.pipe i = (t.pending i).map fun x => message (pingFields (pid x.1))
  proc : ∀ i, (s.proc i).Took pid i (t.taken i)

section Run
variable (L : TxtLib) (others : Bytes → AroopTxt → PingProcess n → Option (PingProcess n))
  {pid : Fin n → ℤ}

/-- `ping_command` broadcasts one message. -/
theorem pingCommand_enumerate (p : PingProcess n)
    (hp : 1024 ≤ p.pingBuffer.capacity ∧ p.pingBuffer.capacity < 65536) :
    ∃ (b : AroopTxt) (sent : List (Fin n × Bytes)),
      pingCommand L p (lit "shake/enumerate") = some ({ p with pingBuffer := b }, sent) ∧
      b.capacity = p.pingBuffer.capacity ∧
      ∀ i, sentTo i sent = if some i = p.mynode then [] else [message (pingFields p.pid)] := by
  have hshort := pingFields_short p.pid
  have hreset := reset_isMessage L (b := p.pingBuffer) (by omega)
  have hcap : (binaryCoderReset L p.pingBuffer).capacity = p.pingBuffer.capacity :=
    reset_capacity L _
  have hfits : packedLength ([] ++ pingFields p.pid) ≤
    (binaryCoderReset L p.pingBuffer).capacity := by
    rw [List.nil_append, hcap]
    omega
  obtain ⟨b, hb⟩ := packFields_of_fits L hreset (by omega) hfits
  obtain ⟨hm, hbcap⟩ := packFields_isMessage L hreset (by omega) hb
  have hall : (binaryPackString L (binaryCoderResetForPid L p.pingBuffer p.pid)
      (lit "shake/enumerate")).2 = b := packAll_eq L hb
  obtain ⟨sent, hsent, hto⟩ := ppSend_broadcast p.toNginzProcess (message (pingFields p.pid))
  have htrim : scannerTrim (lit "shake/enumerate") = lit "shake/enumerate" := by decide
  refine ⟨b, sent, ?_, hbcap.trans hcap, hto⟩
  unfold pingCommand
  simp only [htrim, hall, hm.content, List.nil_append, hsent, Option.map_some]

/-- A process that pings publishes. -/
theorem PingRefines.ping {s : PingSystem n} {t : Fanout.State (Fin n) Unit}
    (h : PingRefines pid s t) (i : Fin n) :
    ∃ s', s.step L others (.ping i) = some s' ∧
      PingRefines pid s' (Fanout.step t (PingAction.ping i).event) := by
  have hi := h.proc i
  obtain ⟨b, sent, hcmd, hcap, hto⟩ := pingCommand_enumerate L (s.proc i) hi.pingRoom
  rw [hi.pid, hi.mynode] at hto
  refine ⟨⟨Function.update s.proc i { s.proc i with pingBuffer := b },
    fun j => s.pipe j ++ sentTo j sent⟩, ?_, fun j => ?_, fun j => ?_⟩
  · simp only [PingSystem.step, hcmd, Option.map_some]
  · simp only [PingAction.event, Fanout.step, h.pipe, hto]
    by_cases hj : j = i
    · simp [hj]
    · simp [hj]
  · show (Function.update s.proc i _ j).Took pid j (t.taken j)
    by_cases hj : j = i
    · subst hj
      rw [Function.update_self]
      exact { hi with pingRoom := by rw [hcap]; exact hi.pingRoom }
    · rw [Function.update_of_ne hj]
      exact h.proc j

/-- A process that receives takes, and counts. -/
theorem PingRefines.deliver {s : PingSystem n} {t : Fanout.State (Fin n) Unit}
    (h : PingRefines pid s t) (i : Fin n) :
    ∃ s', s.step L others (.deliver i) = some s' ∧
      PingRefines pid s' (Fanout.step t (PingAction.deliver i).event) := by
  have hi := h.proc i
  cases hp : t.pending i with
  | nil =>
    have hpipe : s.pipe i = [] := by
      rw [h.pipe, hp]
      rfl
    refine ⟨s, by simp [PingSystem.step, hpipe], ?_⟩
    show PingRefines pid s (Fanout.step t (.take i))
    rw [Fanout.step_take_empty hp]
    exact h
  | cons x xs =>
    have hpipe : s.pipe i = message (pingFields (pid x.1)) ::
        xs.map fun x => message (pingFields (pid x.1)) := by
      rw [h.pipe, hp]
      rfl
    have hmax : nginzMaxBinaryMsgLen = 1024 := rfl
    have hroom := hi.recvRoom
    have hshort := pingFields_short (pid x.1)
    have hdispatch := onBubbles_message (pingPmCall others) hroom.2
      (hshort.trans (by decide)) (by omega) rfl (show lit "shake/enumerate" ≠ [] by decide)
      { s.proc i with handled := (s.proc i).handled ++ [message (pingFields (pid x.1))] }
    let p : PingProcess n :=
      { s.proc i with
        handled := (s.proc i).handled ++ [message (pingFields (pid x.1))]
        accumulator := (s.proc i).accumulator + 1
        recvBuffer := ppSimpleRecvmsgHelper (s.proc i).recvBuffer (message (pingFields (pid x.1))) }
    refine ⟨⟨Function.update s.proc i p,
      Function.update s.pipe i (xs.map fun x => message (pingFields (pid x.1)))⟩, ?_, ?_⟩
    · simp only [PingSystem.step, hpipe, hdispatch]
      rfl
    · show PingRefines pid _ (Fanout.step t (.take i))
      rw [Fanout.step_take hp]
      refine ⟨fun j => ?_, fun j => ?_⟩
      · by_cases hj : j = i
        · subst hj
          simp
        · simp [hj, h.pipe]
      · by_cases hj : j = i
        · subst hj
          simp only [Function.update_self]
          exact {
            handled := by simp [p, hi.handled]
            accumulator := by simp [p, hi.accumulator]
            pid := hi.pid
            mynode := hi.mynode
            recvRoom := by
              show _ ≤ (ppSimpleRecvmsgHelper _ _).capacity ∧
                (ppSimpleRecvmsgHelper _ _).capacity < _
              rw [recv_capacity]
              exact hroom
            pingRoom := hi.pingRoom }
        · simp only [Function.update_of_ne hj]
          exact h.proc j

/-- The processes follow the broadcasts through a whole run. -/
theorem PingRefines.run {s : PingSystem n} {t : Fanout.State (Fin n) Unit}
    (h : PingRefines pid s t) (as : List (PingAction n)) :
    ∃ s', s.run L others as = some s' ∧
      PingRefines pid s' (Fanout.run t (as.map PingAction.event)) := by
  induction as generalizing s t with
  | nil => exact ⟨s, rfl, h⟩
  | cons a as ih =>
    obtain ⟨s', hs', h'⟩ : ∃ s', s.step L others a = some s' ∧
        PingRefines pid s' (Fanout.step t a.event) := by
      cases a with
      | ping i => exact h.ping L others i
      | deliver i => exact h.deliver L others i
    obtain ⟨s'', hs'', h''⟩ := ih h'
    refine ⟨s'', ?_, h''⟩
    unfold PingSystem.run at hs'' ⊢
    rw [List.foldlM_cons, hs']
    exact hs''

theorem start_pingRefines (hroom : L.room 1024 < 65536) :
    PingRefines pid (PingSystem.start L pid) Fanout.init where
  pipe i := rfl
  proc i :=
    have hcap : 1024 ≤ (AroopTxt.stackbuffer L 1024).capacity ∧
        (AroopTxt.stackbuffer L 1024).capacity < 65536 := by
      simp only [AroopTxt.stackbuffer, AroopTxt.buffer_capacity]
      exact ⟨L.le_room _, hroom⟩
    ⟨rfl, rfl, rfl, rfl, hcap, hcap⟩

end Run

/-- The broadcasts of a run, by the slots of their senders. -/
def pingedBy (as : List (PingAction n)) : List (Fin n) :=
  as.filterMap fun
    | .ping i => some i
    | .deliver _ => none

theorem publications_pings (as : List (PingAction n)) :
    Fanout.publications (as.map PingAction.event) = (pingedBy as).map fun i => (i, ()) := by
  unfold Fanout.publications pingedBy
  rw [List.filterMap_map, List.map_filterMap]
  congr 1
  funext a
  cases a with
  | ping i => rfl
  | deliver i => rfl

/-- When nothing is in flight, each process has counted each broadcast of the others once and
in the order of the broadcasts; and no process ever handles a broadcast of its own. -/
theorem broadcast_exactly_once (L : TxtLib) (hroom : L.room 1024 < 65536)
    (others : Bytes → AroopTxt → PingProcess n → Option (PingProcess n)) (pid : Fin n → ℤ)
    (hpid : ∀ i, 0 < pid i ∧ pid i < 2 ^ 31) (hdistinct : Function.Injective pid)
    (as : List (PingAction n)) :
    ∃ s, (PingSystem.start L pid).run L others as = some s ∧
      ((∀ i, s.pipe i = []) → ∀ i,
        (s.proc i).accumulator = (pingedBy as).countP (· ≠ i) ∧
        (s.proc i).handled = ((pingedBy as).filter (· ≠ i)).map fun j =>
          message (pingFields (pid j))) ∧
      ∀ i, ∀ d ∈ (s.proc i).handled, unpackedInt (.ofBytes d) 0 ≠ some (s.proc i).pid := by
  have hstart : PingRefines pid (PingSystem.start L pid) Fanout.init := start_pingRefines L hroom
  obtain ⟨s, hs, h⟩ := hstart.run L others as
  have hexact := Fanout.run_exact Fanout.init_exact (as.map PingAction.event)
  have hpub := Fanout.run_published Fanout.init (as.map (PingAction.event (n := n)))
  rw [publications_pings] at hpub
  generalize Fanout.run Fanout.init (as.map PingAction.event) = t at h hexact hpub
  have hpublished :
      t.published = (pingedBy as).map fun i => (i, ()) := by simpa [Fanout.init] using hpub
  refine ⟨s, hs, fun hquiet i => ?_, fun i d hd => ?_⟩
  · have hpending : t.pending i = [] := by
      have := h.pipe i
      rw [hquiet i] at this
      exact List.map_eq_nil_iff.mp this.symm
    have htaken : t.taken i = ((pingedBy as).filter (· ≠ i)).map fun j => (j, ()) := by
      rw [hexact.quiet hpending, hpublished]
      unfold Fanout.heard
      rw [List.filter_map]
      rfl
    constructor
    · rw [(h.proc i).accumulator, htaken, List.length_map, List.countP_eq_length_filter]
    · rw [(h.proc i).handled, htaken, List.map_map]
      rfl
  · rw [(h.proc i).handled] at hd
    obtain ⟨x, hx, rfl⟩ := List.mem_map.mp hd
    rw [pingFields_pid (hpid x.1).1.le (hpid x.1).2, (h.proc i).pid]
    exact fun he => hexact.other hx (hdistinct (Option.some.inj he))

theorem broadcast_exactly_once_threeProcesses :
    ∃ s, (PingSystem.start .cutting ![4711, 4712, 4713]).run .cutting (fun _ _ p => some p)
        [.ping 0, .deliver 1, .ping 2, .deliver 0, .deliver 1, .deliver 2] = some s ∧
      ((∀ i, s.pipe i = []) →
        (s.proc 0).accumulator = 1 ∧ (s.proc 1).accumulator = 2 ∧ (s.proc 2).accumulator = 1) := by
  obtain ⟨s, hs, hcount, -⟩ := broadcast_exactly_once .cutting (by decide) (fun _ _ p => some p)
    ![4711, 4712, 4713] (by decide) (by decide)
    [.ping 0, .deliver 1, .ping 2, .deliver 0, .deliver 1, .deliver 2]
  refine ⟨s, hs, fun hquiet => ⟨?_, ?_, ?_⟩⟩
  · exact (hcount hquiet 0).1.trans (by decide)
  · exact (hcount hquiet 1).1.trans (by decide)
  · exact (hcount hquiet 2).1.trans (by decide)

end Nginz
