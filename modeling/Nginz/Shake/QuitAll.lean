import Nginz.Lib.Relay
import Nginz.Parallel.Nodes

/-! Shutting down: `shake/softquitall` and `shake/quitall` travel from the master along the
slots of the table, and each process quits behind its own soft quit. -/
namespace Nginz
variable {n : ℕ}

inductive ShakeCommand where
  | softQuitall | quitall
  deriving DecidableEq, Repr

def ShakeCommand.space : ShakeCommand → Bytes
  | softQuitall => lit "shake/softquitall"
  | quitall => lit "shake/quitall"

/-- What a process does about its shutdown: it hands a command on, it sets `soft_quitall`, and
it calls `fiber_quit`. -/
inductive ShakeEvent where
  | forward (c : ShakeCommand)
  | softQuit
  | quit
  deriving DecidableEq, Repr

/-- A process with its `soft_quitall`, the `internal_quit` of its fibers, and a record of what
it did about its shutdown. -/
structure ShakeProcess (n : ℕ) extends NginzProcess n where
  softQuitall : Bool
  internalQuit : Bool
  record : List ShakeEvent

/-- The command for the next process, if there is one; `none` when an assertion fails. -/
def propagateCommand (L : TxtLib) (p : ShakeProcess n) (command : Bytes) :
    Option (List (Fin n × Bytes)) :=
  let next := ppNextNid p.toNginzProcess
  if next = -1 then some []
  else
    let bin := binaryCoderReset L (.stackbuffer L 255)
    let bin := (binaryPackInt L bin p.pid).2
    let bin := (binaryPackString L bin command).2
    ppSend p.toNginzProcess next bin.content

/-- The process afterwards, what it sends, and the output. -/
def shakeSoftQuitallCommand (L : TxtLib) (p : ShakeProcess n) :
    Option (ShakeProcess n × List (Fin n × Bytes) × Bytes) :=
  if p.softQuitall then some (p, [], [])
  else
    (propagateCommand L p (lit "shake/softquitall")).map fun sent =>
      ({ p with
          softQuitall := true
          record := p.record ++ sent.map (fun _ => .forward .softQuitall) ++ [.softQuit] },
        sent, if sent = [] then [] else lit "Sending softquit to all\n")

def shakeQuitallCommand (L : TxtLib) (p : ShakeProcess n) :
    Option (ShakeProcess n × List (Fin n × Bytes) × Bytes) :=
  if ¬ p.softQuitall then some (p, [], lit "Please softquitall first\n")
  else
    (propagateCommand L p (lit "shake/quitall")).map fun sent =>
      ({ p with
          internalQuit := true
          record := p.record ++ sent.map (fun _ => .forward .quitall) ++ [.quit] },
        sent, if sent = [] then [] else lit "Sending QUIT to all\n")

/-- `pm_call`: `others` are the plugins of the other spaces. -/
def shakePmCall (L : TxtLib)
    (others : Bytes → AroopTxt → ShakeProcess n × List (Fin n × Bytes) →
      Option (ShakeProcess n × List (Fin n × Bytes)))
    (space : Bytes) (input : AroopTxt) (s : ShakeProcess n × List (Fin n × Bytes)) :
    Option (ShakeProcess n × List (Fin n × Bytes)) :=
  if space = lit "shake/softquitall" then
    (shakeSoftQuitallCommand L s.1).map fun r => (r.1, s.2 ++ r.2.1)
  else if space = lit "shake/quitall" then
    (shakeQuitallCommand L s.1).map fun r => (r.1, s.2 ++ r.2.1)
  else others space input s

/-- The processes by their slots, the master first, and the datagrams waiting in the pipe of
each slot. -/
structure ShakeSystem (n : ℕ) where
  proc : Fin (n + 1) → ShakeProcess (n + 1)
  pipe : Fin (n + 1) → List Bytes

/-- The master executes a command, or a process receives a datagram; one that has quit may do
so in the round in which it quits. -/
inductive ShakeAction (n : ℕ) where
  | command (c : ShakeCommand)
  | deliver (i : Fin (n + 1))
  deriving DecidableEq

namespace ShakeSystem

/-- Processes that know their slots and each other, before anything is sent. -/
def start (L : TxtLib) (pid : Fin (n + 1) → ℤ) : ShakeSystem n where
  proc i :=
    { pid := pid i
      nodes := pid
      mynode := some i
      recvBuffer := .stackbuffer L nginzMaxBinaryMsgLen
      softQuitall := false
      internalQuit := false
      record := [] }
  pipe _ := []

/-- A process is where a command left it, and what it sent is in the pipes. -/
def settle (s : ShakeSystem n) (i : Fin (n + 1))
    (r : ShakeProcess (n + 1) × List (Fin (n + 1) × Bytes)) :
    ShakeSystem n :=
  ⟨Function.update s.proc i r.1, fun j => s.pipe j ++ sentTo j r.2⟩

variable (L : TxtLib)
  (others : Bytes → AroopTxt → ShakeProcess (n + 1) × List (Fin (n + 1) × Bytes) →
    Option (ShakeProcess (n + 1) × List (Fin (n + 1) × Bytes)))

/-- `none` when an assertion fails. -/
def step (s : ShakeSystem n) : ShakeAction n → Option (ShakeSystem n)
  | .command c =>
    let master : Fin (n + 1) := ⟨0, n.succ_pos⟩
    (shakePmCall L others c.space .empty (s.proc master, [])).map (s.settle master)
  | .deliver i =>
    match s.pipe i with
    | [] => some s
    | d :: ds =>
      (onBubbles (shakePmCall L others) (s.proc i).recvBuffer d (s.proc i, [])).map fun r =>
        { s with pipe := Function.update s.pipe i ds }.settle i
          ({ r.2.1 with recvBuffer := r.1 }, r.2.2)

def run (s : ShakeSystem n) (as : List (ShakeAction n)) : Option (ShakeSystem n) :=
  as.foldlM (step L others) s

end ShakeSystem

/-! ### The commands along the chain -/

/-- What a process makes of a command, by its `soft_quitall`: whether it is set afterwards, and
what is handed on. -/
def shakeNext : Bool → ShakeCommand → Bool × List ShakeCommand
  | true, .softQuitall => (true, [])
  | false, .softQuitall => (true, [.softQuitall])
  | true, .quitall => (true, [.quitall])
  | false, .quitall => (false, [])

/-- The events of a process that took some commands; the last one hands nothing on. -/
def shakeEvents (last : Bool) : Bool → List ShakeCommand → List ShakeEvent
  | _, [] => []
  | soft, c :: cs =>
    (if last then [] else (shakeNext soft c).2.map .forward) ++
      (match soft, c with
        | false, .softQuitall => [.softQuit]
        | true, .quitall => [.quit]
        | _, _ => []) ++
      shakeEvents last (shakeNext soft c).1 cs

def ShakeAction.event : ShakeAction n → Relay.Event n ShakeCommand
  | .command c => .issue c
  | .deliver i => .take i

/-- The commands that the master executes in a run. -/
def commandsOf (as : List (ShakeAction n)) : List ShakeCommand :=
  as.filterMap fun
    | .command c => some c
    | .deliver _ => none

theorem shakeEvents_append (last : Bool) (soft : Bool) (cs : List ShakeCommand) (c : ShakeCommand) :
    shakeEvents last soft (cs ++ [c]) = shakeEvents last soft cs ++
      shakeEvents last (Relay.after shakeNext soft cs) [c] := by
  induction cs generalizing soft with
  | nil => rfl
  | cons d cs ih =>
    show _ ++ _ ++ shakeEvents last (shakeNext soft d).1 (cs ++ [c]) = _
    rw [ih, ← List.append_assoc]
    rfl

/-- A soft quit is behind the command for it. -/
theorem command_of_softQuit {last soft : Bool} {cs : List ShakeCommand}
    (h : .softQuit ∈ shakeEvents last soft cs) : .softQuitall ∈ cs := by
  induction cs generalizing soft with
  | nil => exact absurd h List.not_mem_nil
  | cons c cs ih =>
    cases c with
    | softQuitall => exact List.mem_cons_self
    | quitall =>
      have hrest : .softQuit ∈ shakeEvents last (shakeNext soft .quitall).1 cs := by
        cases soft <;> cases last <;> simpa [shakeEvents, shakeNext] using h
      exact List.mem_cons_of_mem _ (ih hrest)

/-- What is handed on is what the node of the chain puts out. -/
theorem forward_of_output {soft : Bool} {cs : List ShakeCommand} {c : ShakeCommand}
    (h : c ∈ Relay.output shakeNext soft cs) : .forward c ∈ shakeEvents false soft cs := by
  induction cs generalizing soft with
  | nil => exact absurd h List.not_mem_nil
  | cons d cs ih =>
    rcases List.mem_append.mp h with hnow | hlater
    · refine List.mem_append_left _ (List.mem_append_left _ ?_)
      exact List.mem_map_of_mem hnow
    · exact List.mem_append_right _ (ih hlater)

/-- A process that soft-quit hands no more `softquitall` on. -/
theorem no_second_forward (last : Bool) (cs : List ShakeCommand) :
    (shakeEvents last true cs).count (.forward .softQuitall) = 0 := by
  induction cs with
  | nil => rfl
  | cons c cs ih => cases c <;> cases last <;> simpa [shakeEvents, shakeNext] using ih

theorem forward_at_most_once (last soft : Bool) (cs : List ShakeCommand) :
    (shakeEvents last soft cs).count (.forward .softQuitall) ≤ 1 := by
  cases soft with
  | true => simp [no_second_forward]
  | false =>
    induction cs with
    | nil => exact Nat.zero_le 1
    | cons c cs ih =>
      have hno := no_second_forward last cs
      cases c with
      | softQuitall => cases last <;> simp [shakeEvents, shakeNext, hno]
      | quitall => cases last <;> simpa [shakeEvents, shakeNext] using ih

/-- A process quits behind its soft quit. -/
theorem softQuit_before_quit {last : Bool} {cs : List ShakeCommand} {pre post : List ShakeEvent}
    (h : shakeEvents last false cs = pre ++ .quit :: post) : .softQuit ∈ pre := by
  induction cs generalizing pre with
  | nil => exact absurd h.symm (by simp [shakeEvents])
  | cons c cs ih =>
    cases c with
    | quitall =>
      refine ih ?_
      cases last <;> simpa [shakeEvents, shakeNext] using h
    | softQuitall =>
      cases last with
      | true =>
        cases pre with
        | nil => simp [shakeEvents, shakeNext] at h
        | cons e pre =>
          obtain ⟨rfl, -⟩ := List.cons.inj h
          exact List.mem_cons_self
      | false =>
        cases pre with
        | nil => simp [shakeEvents, shakeNext] at h
        | cons e pre =>
          cases pre with
          | nil => simp [shakeEvents, shakeNext] at h
          | cons f pre =>
            simp only [shakeEvents, shakeNext, Bool.false_eq_true, ↓reduceIte, List.map_cons,
              List.map_nil, List.cons_append, List.nil_append, List.cons.injEq] at h
            rw [← h.2.1]
            simp

/-- A process that soft-quit quits on the command, and hands it on. -/
theorem quitall_after_soft {cs : List ShakeCommand} (h : .quitall ∈ cs) (last : Bool) :
    .quitall ∈ Relay.output shakeNext true cs ∧ .quit ∈ shakeEvents last true cs := by
  induction cs with
  | nil => exact absurd h List.not_mem_nil
  | cons c cs ih =>
    cases c with
    | quitall => cases last <;> simp [Relay.output, shakeEvents, shakeNext]
    | softQuitall =>
      have hrest : .quitall ∈ cs := by simpa using h
      obtain ⟨hout, hquit⟩ := ih hrest
      cases last <;> exact ⟨by simpa [Relay.output, shakeNext] using hout,
        by simpa [shakeEvents, shakeNext] using hquit⟩

/-- A process that takes both commands in order quits, and so does the one behind it. -/
theorem both_commands {cs : List ShakeCommand} (h : [ShakeCommand.softQuitall, .quitall].Sublist cs)
    (last : Bool) :
    [ShakeCommand.softQuitall, .quitall].Sublist (Relay.output shakeNext false cs) ∧
      .quit ∈ shakeEvents last false cs := by
  induction cs with
  | nil => exact absurd h.length_le (by decide)
  | cons c cs ih =>
    cases c with
    | quitall =>
      have hrest : [ShakeCommand.softQuitall, .quitall].Sublist cs := by
        cases h with
        | cons _ hrest => exact hrest
      obtain ⟨hout, hquit⟩ := ih hrest
      cases last <;> exact ⟨by simpa [Relay.output, shakeNext] using hout,
        by simpa [shakeEvents, shakeNext] using hquit⟩
    | softQuitall =>
      have hmem : .quitall ∈ cs := by
        cases h with
        | cons _ hrest => exact hrest.subset (by simp)
        | cons_cons _ hrest => exact List.singleton_sublist.mp hrest
      obtain ⟨hout, hquit⟩ := quitall_after_soft hmem last
      have houtput : Relay.output shakeNext false (.softQuitall :: cs) =
          .softQuitall :: Relay.output shakeNext true cs := rfl
      rw [houtput]
      refine ⟨(List.singleton_sublist.mpr hout).cons_cons _, ?_⟩
      cases last <;> simp [shakeEvents, shakeNext, hquit]

/-! ### Refinement -/

/-- The fields of a command on its way. -/
def shakeFields (pid : ℤ) (c : ShakeCommand) : List Field := [.int pid, .str c.space]

/-- The slot in front of one. -/
def inFront (j : Fin (n + 1)) : Fin (n + 1) := ⟨j.val - 1, by omega⟩

theorem shakeFields_short (pid : ℤ) (c : ShakeCommand) : packedLength (shakeFields pid c) ≤ 29 := by
  have hpid := intbuf_length_le pid
  have hspace : c.space.length ≤ 17 := by cases c <;> decide
  simp only [packedLength, shakeFields, Field.body, List.map_cons, List.map_nil, List.sum_cons,
    List.sum_nil]
  omega

/-- A process of slot `i` that took the given commands. -/
structure ShakeProcess.Took (pid : Fin (n + 1) → ℤ) (i : Fin (n + 1)) (p : ShakeProcess (n + 1))
    (taken : List ShakeCommand) : Prop where
  soft : p.softQuitall = Relay.after shakeNext false taken
  record : p.record = shakeEvents (i.val = n) false taken
  quit : p.internalQuit = true ↔ .quit ∈ p.record
  nodes : p.nodes = pid
  pid : p.pid = pid i
  mynode : p.mynode = some i
  recvRoom : nginzMaxBinaryMsgLen ≤ p.recvBuffer.capacity ∧ p.recvBuffer.capacity < 65536

/-- The processes and pipes are where the chain is. -/
structure ShakeRefines (pid : Fin (n + 1) → ℤ) (s : ShakeSystem n)
    (t : Relay.State n ShakeCommand) :
    Prop where
  pipe : ∀ j, s.pipe j = (t.pending j).map fun c => message (shakeFields (pid (inFront j)) c)
  proc : ∀ i, (s.proc i).Took pid i (t.taken i)

section Command
variable (L : TxtLib) (h255 : L.room 255 < 65536) {pid : Fin (n + 1) → ℤ}
  (hpid : ∀ i, 0 < pid i) (hdistinct : Function.Injective pid)
  {i : Fin (n + 1)} {p : ShakeProcess (n + 1)} {taken : List ShakeCommand}
include h255 hpid hdistinct

/-- A command goes to the next slot, and nowhere from the last one. -/
theorem propagateCommand_eq (h : p.Took pid i taken) (c : ShakeCommand) :
    propagateCommand L p c.space = some (if hi : i.val + 1 < n + 1 then
      [(⟨i.val + 1, hi⟩, message (shakeFields (pid i) c))] else []) := by
  have hshort := shakeFields_short (pid i) c
  have hm : IsMessage (packAll L (binaryCoderReset L (.stackbuffer L 255)) (shakeFields (pid i) c))
      (shakeFields (pid i) c) := packAll_isMessage L h255 (by omega)
  have hpacked : (binaryPackString L (binaryPackInt L (binaryCoderReset L (.stackbuffer L 255))
      p.pid).2 c.space).2.content = message (shakeFields (pid i) c) := by
    rw [← hm.content, h.pid]
    rfl
  have hnid :
      ppNextNid p.toNginzProcess = if hi : i.val + 1 < n + 1 then pid ⟨i.val + 1, hi⟩ else -1 := by
    unfold ppNextNid
    rw [h.mynode, h.nodes]
  unfold propagateCommand
  dsimp only
  rw [hpacked]
  by_cases hi : i.val + 1 < n + 1
  · rw [dif_pos hi] at hnid ⊢
    have hnext := hpid ⟨i.val + 1, hi⟩
    have hfind : ppFindNode p.toNginzProcess (pid ⟨i.val + 1, hi⟩) = some ⟨i.val + 1, hi⟩ := by
      have hslot := ppFindNode_slot (p := p.toNginzProcess) (by rw [h.nodes]; exact hdistinct)
        ⟨i.val + 1, hi⟩
      rwa [h.nodes] at hslot
    rw [hnid, if_neg (by omega)]
    unfold ppSend
    rw [if_neg (by omega), hfind]
    rfl
  · rw [dif_neg hi] at hnid ⊢
    rw [hnid, if_pos rfl]

omit h255 hpid hdistinct in
theorem sentTo_next (i j : Fin (n + 1)) (d : Bytes) :
    sentTo j (if hi : i.val + 1 < n + 1 then [(⟨i.val + 1, hi⟩, d)] else []) =
      if j.val = i.val + 1 then [d] else [] := by
  unfold sentTo
  by_cases hi : i.val + 1 < n + 1
  · rw [dif_pos hi]
    by_cases hj : j.val = i.val + 1
    · have hslot : (⟨i.val + 1, hi⟩ : Fin (n + 1)) = j := Fin.ext hj.symm
      simp [hslot, hj]
    · have hslot : (⟨i.val + 1, hi⟩ : Fin (n + 1)) ≠ j := fun he => hj (congrArg Fin.val he).symm
      simp [hslot, hj]
  · have hj : ¬ j.val = i.val + 1 := by omega
    rw [dif_neg hi, if_neg hj]
    rfl

/-- What `pm_call` makes of a command. -/
theorem shakePmCall_command (others : Bytes → AroopTxt → ShakeProcess (n + 1) ×
      List (Fin (n + 1) × Bytes) → Option (ShakeProcess (n + 1) × List (Fin (n + 1) × Bytes)))
    (h : p.Took pid i taken) (c : ShakeCommand) (input : AroopTxt) :
    ∃ p' sent, shakePmCall L others c.space input (p, []) = some (p', sent) ∧
      p'.Took pid i (taken ++ [c]) ∧
      ∀ j, sentTo j sent = (if j.val = i.val + 1 then
        (shakeNext (Relay.after shakeNext false taken) c).2 else []).map
          fun c => message (shakeFields (pid i) c) := by
  have hsend := propagateCommand_eq L h255 hpid hdistinct h c
  have hto := sentTo_next i
  have hlast : (i.val = n) ↔ ¬ i.val + 1 < n + 1 := by omega
  have hspaces : lit "shake/quitall" ≠ lit "shake/softquitall" := by decide
  obtain ⟨soft, hsoft⟩ : ∃ soft, Relay.after shakeNext false taken = soft := ⟨_, rfl⟩
  have hflag : p.softQuitall = soft := h.soft.trans hsoft
  have hafter : Relay.after shakeNext false (taken ++ [c]) = (shakeNext soft c).1 := by
    rw [Relay.after_append, hsoft]
  have hevents := shakeEvents_append (i.val = n) false taken c
  rw [hsoft, ← h.record] at hevents
  rw [hsoft]
  unfold shakePmCall
  cases c with
  | softQuitall =>
    show ∃ p' sent, (if lit "shake/softquitall" = lit "shake/softquitall" then _ else _) =
      some (p', sent) ∧ _
    rw [if_pos rfl]
    unfold shakeSoftQuitallCommand
    cases soft with
    | true =>
      rw [if_pos hflag]
      refine ⟨p, [], rfl, { h with soft := hflag.trans hafter.symm, record := ?_ }, fun j => ?_⟩
      · rw [hevents]
        cases decide (i.val = n) <;> simp [shakeEvents, shakeNext]
      · simp [sentTo, shakeNext]
    | false =>
      rw [if_neg (by simp [hflag])]
      rw [show lit "shake/softquitall" = ShakeCommand.softQuitall.space from rfl, hsend]
      refine ⟨_, _, rfl, ?_, fun j => ?_⟩
      · refine { h with soft := hafter.symm, record := ?_, quit := ?_ }
        · rw [hevents]
          by_cases hi : i.val + 1 < n + 1
          · simp [hi, hlast, shakeEvents, shakeNext]
          · simp [hi, hlast, shakeEvents]
        · rw [h.quit]
          by_cases hi : i.val + 1 < n + 1 <;> simp [hi]
      · rw [List.nil_append, hto]
        split <;> rfl
  | quitall =>
    show ∃ p' sent, (if lit "shake/quitall" = lit "shake/softquitall" then _ else
      if lit "shake/quitall" = lit "shake/quitall" then _ else _) = some (p', sent) ∧ _
    rw [if_neg hspaces, if_pos rfl]
    unfold shakeQuitallCommand
    cases soft with
    | false =>
      rw [if_pos (by simp [hflag])]
      refine ⟨p, [], rfl, { h with soft := hflag.trans hafter.symm, record := ?_ }, fun j => ?_⟩
      · rw [hevents]
        cases decide (i.val = n) <;> simp [shakeEvents, shakeNext]
      · simp [sentTo, shakeNext]
    | true =>
      rw [if_neg (by simp [hflag])]
      rw [show lit "shake/quitall" = ShakeCommand.quitall.space from rfl, hsend]
      refine ⟨_, _, rfl, ?_, fun j => ?_⟩
      · refine { h with soft := hflag.trans hafter.symm, record := ?_, quit := ?_ }
        · rw [hevents]
          by_cases hi : i.val + 1 < n + 1
          · simp [hi, hlast, shakeEvents, shakeNext]
          · simp [hi, hlast, shakeEvents]
        · simp
      · rw [List.nil_append, hto]
        split <;> rfl

end Command

/-- A process that executes a command accepts it. -/
theorem ShakeRefines.accept {pid : Fin (n + 1) → ℤ} {s : ShakeSystem n}
    {t : Relay.State n ShakeCommand}
    (h : ShakeRefines pid s t) {i : Fin (n + 1)} {c : ShakeCommand} {p : ShakeProcess (n + 1)}
    {sent : List (Fin (n + 1) × Bytes)} (htook : p.Took pid i (t.taken i ++ [c]))
    (hsent : ∀ j, sentTo j sent = (if j.val = i.val + 1 then
      (shakeNext (Relay.after shakeNext false (t.taken i)) c).2 else []).map
        fun c => message (shakeFields (pid i) c)) :
    ShakeRefines pid (s.settle i (p, sent)) (Relay.accept shakeNext false t i c) where
  pipe j := by
    show s.pipe j ++ sentTo j sent = (t.pending j ++ _).map _
    rw [List.map_append, h.pipe, hsent]
    by_cases hj : j.val = i.val + 1
    · have hfront : inFront j = i := Fin.ext (by simp [inFront, hj])
      rw [if_pos hj, hfront]
    · rw [if_neg hj]
      rfl
  proc j := by
    show (Function.update s.proc i p j).Took pid j (Function.update t.taken i _ j)
    by_cases hj : j = i
    · subst hj
      rw [Function.update_self, Function.update_self]
      exact htook
    · rw [Function.update_of_ne hj, Function.update_of_ne hj]
      exact h.proc j

section Run
variable (L : TxtLib) (h255 : L.room 255 < 65536)
  (others : Bytes → AroopTxt → ShakeProcess (n + 1) × List (Fin (n + 1) × Bytes) →
    Option (ShakeProcess (n + 1) × List (Fin (n + 1) × Bytes)))
  {pid : Fin (n + 1) → ℤ} (hpid : ∀ i, 0 < pid i) (hdistinct : Function.Injective pid)
include h255 hpid hdistinct

/-- A command of the master is issued. -/
theorem ShakeRefines.command {s : ShakeSystem n} {t : Relay.State n ShakeCommand}
    (h : ShakeRefines pid s t) (c : ShakeCommand) :
    ∃ s', s.step L others (.command c) = some s' ∧
      ShakeRefines pid s' (Relay.step shakeNext false t (ShakeAction.command c).event) := by
  obtain ⟨p, sent, hcall, htook, hsent⟩ :=
    shakePmCall_command L h255 hpid hdistinct others (h.proc 0) c .empty
  refine ⟨s.settle 0 (p, sent), ?_, h.accept htook hsent⟩
  show (shakePmCall L others c.space .empty (s.proc 0, [])).map (s.settle 0) = _
  rw [hcall]
  rfl

/-- A process that receives a command takes it. -/
theorem ShakeRefines.deliver {s : ShakeSystem n} {t : Relay.State n ShakeCommand}
    (h : ShakeRefines pid s t) (i : Fin (n + 1)) :
    ∃ s', s.step L others (.deliver i) = some s' ∧
      ShakeRefines pid s' (Relay.step shakeNext false t (ShakeAction.deliver i).event) := by
  have hi := h.proc i
  have hpipe := h.pipe i
  unfold ShakeSystem.step ShakeAction.event Relay.step
  dsimp only
  cases hp : t.pending i with
  | nil =>
    rw [hp] at hpipe
    rw [hpipe]
    exact ⟨s, rfl, h⟩
  | cons c cs =>
    rw [hp] at hpipe
    rw [hpipe]
    have hmax : nginzMaxBinaryMsgLen = 1024 := rfl
    have hshort := shakeFields_short (pid (inFront i)) c
    have hroom := hi.recvRoom
    have hspace : c.space ≠ [] := by cases c <;> decide
    have hdispatch := onBubbles_message (shakePmCall L others) hroom.2 (by omega) (by omega)
      (show (shakeFields (pid (inFront i)) c)[1]? = some (.str c.space) from rfl) hspace
        (s.proc i, [])
    obtain ⟨p, sent, hcall, htook, hsent⟩ := shakePmCall_command L h255 hpid hdistinct others hi c
      (ppSimpleRecvmsgHelper (s.proc i).recvBuffer (message (shakeFields (pid (inFront i)) c)))
    let waiting : ShakeSystem n :=
      { s with
        pipe := Function.update s.pipe i (cs.map fun c =>
          message (shakeFields (pid (inFront i)) c)) }
    have hwaiting :
        ShakeRefines pid waiting { t with pending := Function.update t.pending i cs } := by
      refine ⟨fun j => ?_, h.proc⟩
      by_cases hj : j = i
      · subst hj
        simp [waiting]
      · simp [waiting, hj, h.pipe]
    let received := ppSimpleRecvmsgHelper (s.proc i).recvBuffer
      (message (shakeFields (pid (inFront i)) c))
    have hcap : received.capacity = (s.proc i).recvBuffer.capacity := recv_capacity
    have hreceived : ({ p with recvBuffer := received } : ShakeProcess (n + 1)).Took pid i
        (t.taken i ++ [c]) := { htook with recvRoom := by rw [hcap]; exact hroom }
    refine ⟨_, ?_, hwaiting.accept hreceived hsent⟩
    show (onBubbles (shakePmCall L others) (s.proc i).recvBuffer
      (message (shakeFields (pid (inFront i)) c)) (s.proc i, [])).map _ = _
    rw [hdispatch, hcall]
    rfl

/-- The processes follow the chain through a whole run. -/
theorem ShakeRefines.run {s : ShakeSystem n} {t : Relay.State n ShakeCommand}
    (h : ShakeRefines pid s t) (as : List (ShakeAction n)) :
    ∃ s', s.run L others as = some s' ∧
      ShakeRefines pid s' (Relay.run shakeNext false t (as.map ShakeAction.event)) := by
  induction as generalizing s t with
  | nil => exact ⟨s, rfl, h⟩
  | cons a as ih =>
    obtain ⟨s', hs', h'⟩ : ∃ s', s.step L others a = some s' ∧
        ShakeRefines pid s' (Relay.step shakeNext false t a.event) := by
      cases a with
      | command c => exact h.command L h255 others hpid hdistinct c
      | deliver i => exact h.deliver L h255 others hpid hdistinct i
    obtain ⟨s'', hs'', h''⟩ := ih h'
    refine ⟨s'', ?_, h''⟩
    unfold ShakeSystem.run at hs'' ⊢
    rw [List.foldlM_cons, hs']
    exact hs''

end Run

theorem start_shakeRefines (L : TxtLib) (hroom : L.room 1024 < 65536) (pid : Fin (n + 1) → ℤ) :
    ShakeRefines pid (ShakeSystem.start L pid) Relay.init where
  pipe j := rfl
  proc i :=
    have hcap : 1024 ≤ (AroopTxt.stackbuffer L 1024).capacity ∧
        (AroopTxt.stackbuffer L 1024).capacity < 65536 := by
      simp only [AroopTxt.stackbuffer, AroopTxt.buffer_capacity]
      exact ⟨L.le_room _, hroom⟩
    ⟨rfl, rfl, by simp [ShakeSystem.start], rfl, rfl, rfl, hcap⟩

theorem issued_commands (as : List (ShakeAction n)) :
    Relay.issued (as.map ShakeAction.event) = commandsOf as := by
  unfold Relay.issued commandsOf
  rw [List.filterMap_map]
  congr 1
  funext a
  cases a with
  | command c => rfl
  | deliver i => rfl

/-- When nothing waits in the chain, both commands got through it. -/
theorem both_commands_everywhere {t : Relay.State n ShakeCommand}
    (h : Relay.Exact shakeNext false t) (hquiet : ∀ i, t.pending i = [])
    (hissued : [ShakeCommand.softQuitall, .quitall].Sublist (t.taken 0)) (i : Fin (n + 1)) :
    [ShakeCommand.softQuitall, .quitall].Sublist (t.taken i) := by
  induction i using Fin.induction with
  | zero => exact hissued
  | succ i ih =>
    rw [h.quiet (hquiet i.succ)]
    exact (both_commands ih false).1

/-- Whatever is issued and however the deliveries interleave: no process quits before its soft
quit; a process soft-quits only behind one that has handed the command on; none hands
`softquitall` on twice; and when both commands were issued in order and nothing is in flight,
every process has quit. -/
theorem shutdown_ordered (L : TxtLib) (hroom : L.room 1024 < 65536) (h255 : L.room 255 < 65536)
    (others : Bytes → AroopTxt → ShakeProcess (n + 1) × List (Fin (n + 1) × Bytes) →
      Option (ShakeProcess (n + 1) × List (Fin (n + 1) × Bytes)))
    (pid : Fin (n + 1) → ℤ) (hpid : ∀ i, 0 < pid i) (hdistinct : Function.Injective pid)
    (as : List (ShakeAction n)) :
    ∃ s, (ShakeSystem.start L pid).run L others as = some s ∧
      (∀ i pre post, (s.proc i).record = pre ++ .quit :: post → .softQuit ∈ pre) ∧
      (∀ i : Fin n, .softQuit ∈ (s.proc i.succ).record →
        .forward .softQuitall ∈ (s.proc i.castSucc).record) ∧
      (∀ i, (s.proc i).record.count (.forward .softQuitall) ≤ 1) ∧
      ([ShakeCommand.softQuitall, .quitall].Sublist (commandsOf as) → (∀ i, s.pipe i = []) →
        ∀ i, (s.proc i).internalQuit = true) := by
  obtain ⟨s, hs, h⟩ := (start_shakeRefines L hroom pid).run L h255 others hpid hdistinct as
  have hinit : Relay.Exact shakeNext false (Relay.init : Relay.State n ShakeCommand) :=
    Relay.init_exact
  have hexact := Relay.run_exact hinit (as.map ShakeAction.event)
  have hissued := Relay.run_issued hinit (as.map ShakeAction.event)
  rw [issued_commands] at hissued
  generalize Relay.run shakeNext false Relay.init (as.map ShakeAction.event) = t at h hexact hissued
  refine ⟨s, hs, fun i pre post hrecord => ?_, fun i hsoft => ?_, fun i => ?_,
    fun hboth hquiet i => ?_⟩
  · rw [(h.proc i).record] at hrecord
    exact softQuit_before_quit hrecord
  · rw [(h.proc i.succ).record] at hsoft
    have htook : .softQuitall ∈ t.taken i.succ := command_of_softQuit hsoft
    have hput : .softQuitall ∈ Relay.output shakeNext false (t.taken i.castSucc) := by
      rw [← hexact.flow i]
      exact List.mem_append_left _ htook
    have hlast : decide (i.castSucc.val = n) = false := by simp [i.isLt.ne]
    rw [(h.proc i.castSucc).record, hlast]
    exact forward_of_output hput
  · rw [(h.proc i).record]
    exact forward_at_most_once _ _ _
  · have hpending : ∀ j, t.pending j = [] := fun j => by
      have hpipe := h.pipe j
      rw [hquiet j] at hpipe
      exact List.map_eq_nil_iff.mp hpipe.symm
    have htaken : [ShakeCommand.softQuitall, .quitall].Sublist (t.taken 0) := by
      rw [hissued]
      exact hboth
    rw [(h.proc i).quit, (h.proc i).record]
    exact (both_commands (both_commands_everywhere hexact hpending htaken i) _).2

theorem shutdown_ordered_threeProcesses :
    ∃ s, (ShakeSystem.start .cutting ![4711, 4712, 4713]).run .cutting (fun _ _ s => some s)
        [.command .softQuitall, .command .quitall, .deliver 1, .deliver 1, .deliver 2, .deliver 2] =
          some s ∧
      ((∀ i, s.pipe i = []) → ∀ i, (s.proc i).internalQuit = true) := by
  obtain ⟨s, hs, -, -, -, hquit⟩ := shutdown_ordered .cutting (by decide) (by decide)
    (fun _ _ s => some s) ![4711, 4712, 4713] (by decide) (by decide)
    [.command .softQuitall, .command .quitall, .deliver 1, .deliver 1, .deliver 2, .deliver 2]
  exact ⟨s, hs, hquit (by decide)⟩

example : ((ShakeSystem.start .cutting ![4711, 4712]).run .cutting (fun _ _ s => some s)
    [.command .quitall, .command .softQuitall, .command .quitall, .deliver 1]).map
      (fun s => ((s.proc 0).record, (s.proc 1).record, (s.pipe 1).length)) =
    some ([.forward .softQuitall, .softQuit, .forward .quitall, .quit], [.softQuit], 1) := by
  decide +kernel

end Nginz
