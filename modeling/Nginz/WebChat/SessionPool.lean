import Nginz.WebChat.Session

/-! The sessions of a worker: which of them a request finds, and how long each is there. -/
namespace Nginz

/-- An object of the factory of sessions: the session, the hash that it is found by, and the
references to it. It is gone when there is none left. -/
structure PooledSession where
  session : WebSession
  hash : ℕ
  refs : ℕ
  deriving DecidableEq, Repr

/-- What happened to the sessions, which are numbered as they were made: one was made with a
descriptor at some time, the chat of one that a request found was given a text, one was closed by
its chat or by a soft quit, and one lost a reference to the cleanup. -/
inductive PoolEffect where
  | made (i : ℕ) (fd : ℤ) (now : ℕ)
  | cameBack (i : ℕ) (text : Bytes)
  | closed (i : ℕ)
  | unref (i : ℕ)
  deriving DecidableEq, Repr

/-- The sessions of a worker, `gear`, and the time. -/
structure SessionPool where
  getpid : ℤ
  sessions : List PooledSession
  gear : ℕ
  clock : ℕ
  log : List PoolEffect
  deriving DecidableEq, Repr

/-- `aroop_txt_get_hash` and `opp_search` without a compare callback, which finds some object of
the given hash among those that are there, if there is one. -/
structure SessionSearch where
  hash : Bytes → ℕ
  oppSearch : List (Option ℕ) → ℕ → Option ℕ
  found : ∀ hashes h i, oppSearch hashes h = some i → hashes[i]? = some (some h)
  missing : ∀ hashes h, oppSearch hashes h = none → some h ∉ hashes

/-- A search that finds the oldest object. -/
def SessionSearch.oldest (hash : Bytes → ℕ) : SessionSearch where
  hash := hash
  oppSearch hashes h := hashes.findIdx? (· = some h)
  found hashes h i hi := by
    obtain ⟨hlt, hat, -⟩ := List.findIdx?_eq_some_iff_getElem.mp hi
    rw [List.getElem?_eq_getElem hlt, of_decide_eq_true hat]
  missing hashes h hnone hmem := by
    have hno := List.findIdx?_eq_none_iff.mp hnone _ hmem
    simp at hno

/-- What happens at the pool of a worker: a request that stays in the process comes with a
session id and the text behind it, and the chat acts on it; the chat of a session acts between
requests or is moved; the cleanup fiber has its turn; the worker is told to quit; a second
passes. -/
inductive PoolEvent where
  | webchat (fd rand : ℤ) (sid rest : Bytes) (acts : List ChatAct)
  | beside (i : ℕ) (act : ChatAct)
  | transfer (i : ℕ) (destpid : ℤ) (cmd : Bytes)
  | cleanup
  | softQuit
  | tick
  deriving DecidableEq, Repr

namespace PooledSession

/-- `OPPREF`. -/
def oppRef (e : PooledSession) : PooledSession := { e with refs := e.refs + 1 }

/-- `OPPUNREF`. -/
def oppUnref (e : PooledSession) : PooledSession :=
  if e.refs = 1 then { e with refs := 0, session := e.session.finalize }
  else { e with refs := e.refs - 1 }

def does (L : TxtLib) (e : PooledSession) (event : WebEvent) : PooledSession :=
  { e with session := e.session.on L event }

/-- A request of the session: `webchat_chain_helper` takes a reference, and `streamio_unchain`
drops it. -/
def visit (L : TxtLib) (e : PooledSession) (event : WebEvent) : PooledSession :=
  ((e.oppRef).does L event).oppUnref

/-- `web_session_alloc`, with the reference of its own. -/
def alloc (L : TxtLib) (S : SessionSearch) (fd getpid rand : ℤ) (now : ℕ) : PooledSession :=
  let session := WebSession.alloc L fd getpid rand now
  oppRef ⟨session, S.hash session.sid, 1⟩

/-- A session that the cleanup at `now` does not skip. -/
def Expired (now : ℕ) (e : PooledSession) : Prop :=
  e.refs ≠ 0 ∧ ¬ now < e.session.lastActivity + 120

instance (now : ℕ) : DecidablePred (Expired now) := fun _ => inferInstanceAs (Decidable (_ ∧ _))

def close (e : PooledSession) : PooledSession :=
  { e with session := e.session.webSessionCloseWrapper }

end PooledSession

namespace SessionPool

def start (getpid : ℤ) (clock : ℕ) : SessionPool := ⟨getpid, [], 0, clock, []⟩

def modify (pool : SessionPool) (i : ℕ) (f : PooledSession → PooledSession) : SessionPool :=
  { pool with sessions := pool.sessions.modify i f }

def emit (pool : SessionPool) (e : PoolEffect) : SessionPool := { pool with log := pool.log ++ [e] }

/-- The chat has closed the session if one of its acts is to close. -/
def closeNote (i : ℕ) (acts : List ChatAct) : List PoolEffect :=
  if .close ∈ acts then [.closed i] else []

def noteClose (pool : SessionPool) (i : ℕ) (acts : List ChatAct) : SessionPool :=
  { pool with log := pool.log ++ closeNote i acts }

/-- The hashes of the sessions that are there. -/
def hashes (pool : SessionPool) : List (Option ℕ) :=
  pool.sessions.map fun e => if e.refs = 0 then none else some e.hash

/-- `web_session_search`, for a request with a session id. -/
def lookUp (S : SessionSearch) (pool : SessionPool) (sid : Bytes) : Option ℕ :=
  if sid = [] then none else S.oppSearch pool.hashes (S.hash sid)

/-- The request of a session that was found; the search has taken a reference. -/
def cameBack (L : TxtLib) (pool : SessionPool) (i : ℕ) (rest : Bytes) (acts : List ChatAct) :
    SessionPool :=
  let pool := pool.modify i PooledSession.oppRef
  let pool := pool.emit (.cameBack i rest)
  let pool := pool.modify i fun e => e.visit L (.request acts)
  pool.noteClose i acts

/-- The request for which a session is made, also one that `http_web_session_transfer_plug` gets. -/
def isNew (L : TxtLib) (S : SessionSearch) (pool : SessionPool) (fd rand : ℤ)
    (acts : List ChatAct) : SessionPool :=
  let i := pool.sessions.length
  let e := PooledSession.alloc L S fd pool.getpid rand pool.clock
  let pool := { pool with sessions := pool.sessions ++ [e.visit L (.welcome acts)] }
  (pool.emit (.made i fd pool.clock)).noteClose i acts

/-- `http_webchat_plug` for a request that stays here, above whose stream nothing is chained. -/
def webchatPlug (L : TxtLib) (S : SessionSearch) (pool : SessionPool) (fd rand : ℤ)
    (sid rest : Bytes) (acts : List ChatAct) : SessionPool :=
  if fd = invalidFd then pool
  else
    match pool.lookUp S sid with
    | some i => pool.cameBack L i rest acts
    | none => pool.isNew L S fd rand acts

/-- An iteration over the sessions that does something with those of a kind. -/
def each (pool : SessionPool) (P : PooledSession → Prop) [DecidablePred P]
    (does : PooledSession → PooledSession) (effect : ℕ → PoolEffect) : SessionPool where
  getpid := pool.getpid
  sessions := pool.sessions.map fun e => if P e then does e else e
  gear := pool.gear
  clock := pool.clock
  log := pool.log ++ ((List.range pool.sessions.length).filter fun i =>
    ∃ e ∈ pool.sessions[i]?, P e).map effect

/-- The iteration of the cleanup. -/
def cleanupPass (pool : SessionPool) : SessionPool :=
  pool.each (·.Expired pool.clock) (fun e => e.close.oppUnref) .unref

/-- `web_session_cleanup_fiber`. -/
def webSessionCleanupFiber (pool : SessionPool) : SessionPool :=
  let pool := if pool.gear = 1000 then { pool.cleanupPass with gear := 0 } else pool
  { pool with gear := pool.gear + 1 }

/-- `web_session_factory_on_softquit`. -/
def webSessionFactoryOnSoftquit (pool : SessionPool) : SessionPool :=
  pool.each (·.refs ≠ 0) PooledSession.close .closed

def step (L : TxtLib) (S : SessionSearch) (pool : SessionPool) : PoolEvent → SessionPool
  | .webchat fd rand sid rest acts => pool.webchatPlug L S fd rand sid rest acts
  | .beside i act => (pool.modify i fun e => e.does L (.beside act)).noteClose i [act]
  | .transfer i destpid cmd => pool.modify i fun e => e.does L (.transfer destpid cmd)
  | .cleanup => pool.webSessionCleanupFiber
  | .softQuit => pool.webSessionFactoryOnSoftquit
  | .tick => { pool with clock := pool.clock + 1 }

/-- The chat acts only on a session that is there. -/
def Permitted (pool : SessionPool) : PoolEvent → Prop
  | .beside i _ => ∃ e ∈ pool.sessions[i]?, e.refs ≠ 0
  | .transfer i _ _ => ∃ e ∈ pool.sessions[i]?, e.refs ≠ 0
  | _ => True

end SessionPool

/-- How often requests found session `i`. -/
def returnsIn (log : List PoolEffect) (i : ℕ) : ℕ := log.countP fun
  | .cameBack j _ => j = i
  | _ => false

/-! ### The descriptor of a session -/

/-- The chat closes the session in the event. -/
def WebEvent.Closes : WebEvent → Prop
  | .welcome acts => .close ∈ acts
  | .request acts => .close ∈ acts
  | .beside a => a = .close
  | .transfer _ _ => False

instance : DecidablePred WebEvent.Closes := fun ev => by
  cases ev <;> unfold WebEvent.Closes <;> infer_instance

namespace WebSession

/-- The descriptors that the session closed itself. -/
def closes (s : WebSession) : List ℤ := s.log.filterMap fun
  | .close fd => some fd
  | _ => none

/-- A session that is not chained has the descriptor it was made with, or has closed it. -/
def Holding (fd : ℤ) (s : WebSession) : Prop :=
  s.bubbleUp = false ∧
    (s.closes = [] ∧ s.fd = fd ∨ s.closes = [fd] ∧ s.fd = invalidFd)

theorem closes_emit (s : WebSession) (e : SessionEffect) :
    (s.emit e).closes = s.closes ++ match e with
      | .close fd => [fd]
      | _ => [] := by
  unfold closes emit
  rw [List.filterMap_append]
  cases e <;> rfl

/-- What is done below a connection leaves the descriptor of the session alone, and a close makes
the session idle. -/
structure Upward (closing : Prop) [Decidable closing] (s s' : WebSession) : Prop where
  fd : s'.fd = s.fd
  closes : s'.closes = s.closes
  bubbleUp : s'.bubbleUp = s.bubbleUp
  lastActivity : s'.lastActivity = if closing then 0 else s.lastActivity

section Upward
variable (L : TxtLib) {s : WebSession}

theorem flush_upward (hup : s.bubbleUp = true) : Upward False s s.flush := by
  rw [flush_eq hup]
  refine ⟨rfl, ?_, rfl, rfl⟩
  cases s.upOpen with
  | true => exact (closes_emit s (.response s.msg.content)).trans (List.append_nil _)
  | false => exact (closes_emit s (.dead s.msg.content)).trans (List.append_nil _)

theorem send_upward (hup : s.bubbleUp = true) (content : Bytes) (more : Bool) :
    Upward False s (s.webSessionSendWrapper L content more) := by
  rw [sendWrapper_eq]
  split
  · have hflush := flush_upward (s := s.appended L content) hup
    exact ⟨hflush.fd, hflush.closes, hflush.bubbleUp, hflush.lastActivity⟩
  · exact ⟨rfl, rfl, rfl, rfl⟩

theorem act_upward (hup : s.bubbleUp = true) (a : ChatAct) :
    Upward (a = .close) s (s.act L a) := by
  cases a with
  | send content more =>
    have h := send_upward L hup content more
    exact ⟨h.fd, h.closes, h.bubbleUp, h.lastActivity⟩
  | close =>
    unfold act webSessionCloseWrapper
    dsimp only
    rw [if_pos hup]
    exact ⟨rfl, (closes_emit _ .closeUp).trans (List.append_nil _), rfl, rfl⟩

theorem acts_upward (hup : s.bubbleUp = true) (acts : List ChatAct) :
    Upward (.close ∈ acts) s (acts.foldl (act L) s) := by
  induction acts generalizing s with
  | nil => exact ⟨rfl, rfl, rfl, rfl⟩
  | cons a acts ih =>
    have hfirst := act_upward L hup a
    have hrest := ih (hfirst.bubbleUp.trans hup)
    refine ⟨hrest.fd.trans hfirst.fd, hrest.closes.trans hfirst.closes,
      hrest.bubbleUp.trans hfirst.bubbleUp, ?_⟩
    rw [List.foldl_cons, hrest.lastActivity, hfirst.lastActivity]
    by_cases ha : a = .close
    · simp [ha]
    · simp [ha, Ne.symm ha]

theorem finish_upward (hup : s.bubbleUp = true) : Upward False s (s.finish L) := by
  unfold finish
  split
  · exact ⟨rfl, rfl, rfl, rfl⟩
  · dsimp only
    split
    · have hspace := send_upward L hup [32] false
      split
      · exact hspace
      · have hflush := flush_upward (hspace.bubbleUp.trans hup)
        exact ⟨hflush.fd.trans hspace.fd, hflush.closes.trans hspace.closes,
          hflush.bubbleUp.trans hspace.bubbleUp, hflush.lastActivity.trans hspace.lastActivity⟩
    · exact flush_upward hup

end Upward

section Holding
variable (L : TxtLib) {fd : ℤ} {s : WebSession}

/-- A session that is not chained closes its descriptor, and not twice. -/
theorem close_holding (hfd : fd ≠ invalidFd) (h : s.Holding fd) :
    s.webSessionCloseWrapper.Holding fd ∧ s.webSessionCloseWrapper.fd = invalidFd := by
  obtain ⟨hup, ⟨hcloses, hown⟩ | ⟨hcloses, hgone⟩⟩ := h
  · have hemit := closes_emit { s with lastActivity := 0, sid := lit "invalid" } (.close s.fd)
    have hnone : ({ s with lastActivity := 0, sid := lit "invalid" } : WebSession).closes = [] :=
      hcloses
    unfold webSessionCloseWrapper
    dsimp only
    rw [if_neg (ne_true_of_eq_false hup), if_pos (hown ▸ hfd)]
    rw [hnone, List.nil_append, hown] at hemit
    exact ⟨⟨hup, .inr ⟨hown ▸ hemit, rfl⟩⟩, rfl⟩
  · unfold webSessionCloseWrapper
    dsimp only
    rw [if_neg (ne_true_of_eq_false hup), if_neg (not_not.mpr hgone)]
    exact ⟨⟨hup, .inr ⟨hcloses, hgone⟩⟩, hgone⟩

theorem close_lastActivity (s : WebSession) : s.webSessionCloseWrapper.lastActivity = 0 := by
  unfold webSessionCloseWrapper
  dsimp only
  split_ifs <;> rfl

theorem finalize_holding (hfd : fd ≠ invalidFd) (h : s.Holding fd) : s.finalize.Holding fd := by
  obtain ⟨⟨-, hheld⟩, hgone⟩ := close_holding hfd h
  have hcloses : s.finalize.closes = s.webSessionCloseWrapper.closes :=
    (closes_emit s.webSessionCloseWrapper .unrefDown).trans (List.append_nil _)
  refine ⟨rfl, .inr ⟨hcloses.trans ?_, rfl⟩⟩
  obtain ⟨-, hown⟩ | ⟨hclosed, -⟩ := hheld
  · exact absurd (hown.symm.trans hgone) hfd
  · exact hclosed

theorem chained_upward {closing : Prop} [Decidable closing] {s' : WebSession}
    (h : Upward closing s.chained s') (hheld : s.Holding fd) :
    s'.unchained.Holding fd ∧ s'.unchained.fd = s.fd ∧
      s'.unchained.lastActivity = if closing then 0 else s.lastActivity := by
  obtain ⟨-, hown⟩ := hheld
  have hcloses : s'.unchained.closes = s.closes := h.closes
  have hfd : s'.unchained.fd = s.fd := h.fd
  refine ⟨⟨rfl, ?_⟩, hfd, h.lastActivity⟩
  rwa [hcloses, hfd]

/-- What an event of the session leaves of its descriptor and of its last activity. -/
theorem on_holding (hfd : fd ≠ invalidFd) (h : s.Holding fd) (ev : WebEvent) :
    (s.on L ev).Holding fd ∧ (s.fd = invalidFd → (s.on L ev).fd = invalidFd) ∧
      (s.on L ev).lastActivity = if ev.Closes then 0 else s.lastActivity := by
  cases ev with
  | welcome acts =>
    obtain ⟨hheld, hsame, hactive⟩ := chained_upward (acts_upward L (s := s.chained) rfl acts) h
    exact ⟨hheld, fun hgone => hsame.trans hgone, hactive⟩
  | request acts =>
    have hacts := acts_upward L (s := s.chained) rfl acts
    have hfinish := finish_upward L (hacts.bubbleUp.trans rfl)
    have hall : Upward (.close ∈ acts) s.chained ((acts.foldl (act L) s.chained).finish L) :=
      ⟨hfinish.fd.trans hacts.fd, hfinish.closes.trans hacts.closes,
        hfinish.bubbleUp.trans hacts.bubbleUp, hfinish.lastActivity.trans hacts.lastActivity⟩
    obtain ⟨hheld, hsame, hactive⟩ := chained_upward hall h
    exact ⟨hheld, fun hgone => hsame.trans hgone, hactive⟩
  | beside a =>
    cases a with
    | close =>
      obtain ⟨hheld, hgone⟩ := close_holding hfd h
      exact ⟨hheld, fun _ => hgone, close_lastActivity s⟩
    | send content more =>
      have hkept : s.on L (.beside (.send content more)) = s.appended L content := by
        unfold on act
        dsimp only
        rw [sendWrapper_eq, h.1, Bool.and_false, if_neg Bool.false_ne_true]
      rw [hkept]
      exact ⟨h, id, rfl⟩
  | transfer destpid cmd =>
    have hcloses := (closes_emit s (.transfer s.fd destpid cmd)).trans (List.append_nil _)
    refine ⟨⟨h.1, ?_⟩, id, rfl⟩
    unfold on transferParallel
    dsimp only
    rw [hcloses]
    exact h.2

end Holding
end WebSession

/-! ### The references to a session -/

def PoolEffect.index : PoolEffect → ℕ
  | .made i _ _ => i
  | .cameBack i _ => i
  | .closed i => i
  | .unref i => i

section Logs
variable {es : List PoolEffect} {i : ℕ}

theorem returnsIn_append (log es : List PoolEffect) (i : ℕ) :
    returnsIn (log ++ es) i = returnsIn log i + returnsIn es i := List.countP_append ..

/-- What is not about a session is none of its effects. -/
theorem effects_other (h : ∀ x ∈ es, x.index ≠ i) : es.count (.unref i) = 0 ∧
    returnsIn es i = 0 ∧ .closed i ∉ es ∧ .unref i ∉ es := by
  have hunref : .unref i ∉ es := fun hmem => h _ hmem rfl
  refine ⟨List.count_eq_zero.mpr hunref, List.countP_eq_zero.mpr fun x hx => ?_,
    fun hmem => h _ hmem rfl, hunref⟩
  cases x with
  | cameBack j text => simpa [PoolEffect.index] using h _ hx
  | _ => exact Bool.false_ne_true

/-- The effects of one kind on some of the sessions. -/
theorem count_each {f : ℕ → PoolEffect} (hf : f.Injective) (P : ℕ → Prop) [DecidablePred P]
    (n i : ℕ) : (((List.range n).filter P).map f).count (f i) = if i < n ∧ P i then 1 else 0 := by
  rw [((List.nodup_range.filter _).map hf).count]
  simp only [List.mem_map_of_injective hf, List.mem_filter, List.mem_range, decide_eq_true_eq]

end Logs

namespace PooledSession
variable {L : TxtLib} {e : PooledSession}

theorem visit_eq (h : e.refs ≠ 0) (event : WebEvent) : e.visit L event = e.does L event := by
  unfold visit oppUnref does oppRef
  dsimp only
  rw [if_neg (by omega), Nat.add_sub_cancel]

theorem alloc_visit (S : SessionSearch) (fd getpid rand : ℤ) (now : ℕ) (event : WebEvent) :
    (alloc L S fd getpid rand now).visit L event =
      ⟨(WebSession.alloc L fd getpid rand now).on L event,
        S.hash (webSessionSid L getpid rand), 2⟩ :=
  visit_eq (e := alloc L S fd getpid rand now) (Nat.succ_ne_zero 1) event

/-- A session that the cleanup takes has one reference less and no descriptor. -/
theorem release_holding {fd : ℤ} (hfd : fd ≠ invalidFd) (hrefs : e.refs ≠ 0)
    (h : e.session.Holding fd) : e.close.oppUnref.refs + 1 = e.refs ∧
      e.close.oppUnref.session.Holding fd ∧ e.close.oppUnref.session.fd = invalidFd ∧
      e.close.oppUnref.session.lastActivity = 0 := by
  obtain ⟨hheld, hgone⟩ := WebSession.close_holding hfd h
  have hidle := WebSession.close_lastActivity e.session
  have hrefs' : e.close.refs = e.refs := rfl
  unfold oppUnref
  split
  · rename_i hlast
    refine ⟨?_, WebSession.finalize_holding hfd hheld, rfl, ?_⟩
    · show 0 + 1 = e.refs
      rw [← hrefs', hlast]
    · exact WebSession.close_lastActivity e.close.session
  · exact ⟨Nat.sub_add_cancel (Nat.one_le_iff_ne_zero.mpr hrefs), hheld, hgone, hidle⟩

end PooledSession

namespace SessionPool

/-- The references to session `i`, made with a descriptor at `now`, are those it was made with and
one for each request that found it, without those that the cleanup dropped; and what its descriptor
and its last activity are. -/
structure Accounted (pool : SessionPool) (i : ℕ) (fd : ℤ) (now : ℕ) (e : PooledSession) : Prop where
  slot : pool.sessions[i]? = some e
  refs : e.refs + pool.log.count (.unref i) = 2 + returnsIn pool.log i
  active : e.session.lastActivity =
    if .closed i ∈ pool.log ∨ .unref i ∈ pool.log then 0 else now
  early : .unref i ∈ pool.log → .closed i ∈ pool.log ∨ now + 120 ≤ pool.clock
  holding : e.session.Holding fd
  released : .unref i ∈ pool.log → e.session.fd = invalidFd

structure Sound (pool : SessionPool) : Prop where
  late : 120 ≤ pool.clock
  bound : ∀ x ∈ pool.log, x.index < pool.sessions.length
  made : ∀ i fd now, .made i fd now ∈ pool.log →
    fd ≠ invalidFd ∧ ∃ e, pool.Accounted i fd now e

section Steps
variable {L : TxtLib} {S : SessionSearch} {pool pool' : SessionPool} {i j now : ℕ} {fd : ℤ}
  {e e' : PooledSession} {es : List PoolEffect}

theorem Accounted.advance (h : pool.Accounted i fd now e) (hslot : pool'.sessions[i]? = some e')
    (hlog : pool'.log = pool.log ++ es) (hclock : pool.clock ≤ pool'.clock)
    (hrefs : e'.refs + es.count (.unref i) = e.refs + returnsIn es i)
    (hactive : e'.session.lastActivity =
      if .closed i ∈ es ∨ .unref i ∈ es then 0 else e.session.lastActivity)
    (hearly : .unref i ∈ es → .closed i ∈ pool.log ∨ now + 120 ≤ pool.clock)
    (hheld : e'.session.Holding fd)
    (hreleased : e.session.fd = invalidFd ∨ .unref i ∈ es → e'.session.fd = invalidFd) :
    pool'.Accounted i fd now e' where
  slot := hslot
  refs := by
    have hbefore := h.refs
    rw [hlog, List.count_append, returnsIn_append]
    omega
  active := by
    rw [hactive, h.active, hlog]
    simp only [List.mem_append]
    split_ifs <;> tauto
  early hmem := by
    rw [hlog, List.mem_append] at hmem ⊢
    have hthen := hmem.elim h.early hearly
    exact hthen.imp .inl (fun hlate => hlate.trans hclock)
  holding := hheld
  released hmem := by
    rw [hlog, List.mem_append] at hmem
    exact hreleased (hmem.imp h.released id)

/-- What is about other sessions leaves a session as it is. -/
theorem Accounted.frame (h : pool.Accounted i fd now e) (hslot : pool'.sessions[i]? = some e)
    (hlog : pool'.log = pool.log ++ es) (hclock : pool.clock ≤ pool'.clock)
    (hes : ∀ x ∈ es, x.index ≠ i) : pool'.Accounted i fd now e := by
  obtain ⟨hunref, hreturns, hclosed, hmem⟩ := effects_other hes
  refine h.advance hslot hlog hclock (by rw [hunref, hreturns]) ?_ (fun hin => absurd hin hmem)
    h.holding fun hgone => hgone.resolve_right hmem
  rw [if_neg (by tauto)]

/-- A session that was just made starts its account with two references. -/
theorem Sound.fresh (h : pool.Sound) (hi : pool.sessions.length = i)
    (hslot : pool'.sessions[i]? = some e) (hlog : pool'.log = pool.log ++ es) (hrefs : e.refs = 2)
    (hreturns : returnsIn es i = 0) (hunref : .unref i ∉ es)
    (hactive : e.session.lastActivity = if .closed i ∈ es then 0 else now)
    (hheld : e.session.Holding fd) : pool'.Accounted i fd now e := by
  have hbefore : ∀ x ∈ pool.log, x.index ≠ i := fun x hx => hi ▸ (h.bound x hx).ne
  obtain ⟨hcount, hreturned, hopen, hkept⟩ := effects_other hbefore
  have hnone : .unref i ∉ pool'.log := by
    rw [hlog, List.mem_append]
    exact not_or.mpr ⟨hkept, hunref⟩
  refine ⟨hslot, ?_, ?_, fun hin => absurd hin hnone, hheld, fun hin => absurd hin hnone⟩
  · rw [List.count_eq_zero.mpr hnone, hlog, returnsIn_append, hreturned, hreturns, hrefs]
  · rw [hactive, hlog]
    simp only [List.mem_append, hopen, hkept, hunref, false_or, or_false]

/-- A pool is sound behind effects that keep the accounts of its sessions. -/
theorem Sound.extend (h : pool.Sound) (hclock : pool.clock ≤ pool'.clock)
    (hlength : pool.sessions.length ≤ pool'.sessions.length)
    (hlog : pool'.log = pool.log ++ es) (hes : ∀ x ∈ es, x.index < pool'.sessions.length)
    (hmade : ∀ i fd now, .made i fd now ∈ es → fd ≠ invalidFd ∧ ∃ e, pool'.Accounted i fd now e)
    (hkeep : ∀ i fd now e, fd ≠ invalidFd → pool.Accounted i fd now e →
      ∃ e', pool'.Accounted i fd now e') : pool'.Sound where
  late := h.late.trans hclock
  bound x hx := by
    rw [hlog, List.mem_append] at hx
    exact hx.elim (fun hold => (h.bound x hold).trans_le hlength) (hes x)
  made i fd now hmem := by
    rw [hlog, List.mem_append] at hmem
    rcases hmem with hold | hnew
    · obtain ⟨hfd, e, he⟩ := h.made i fd now hold
      exact ⟨hfd, hkeep i fd now e hfd he⟩
    · exact hmade i fd now hnew

/-- What the chat of a session does counts for the session alone, and takes as many references as
requests found it. -/
theorem Accounted.does (h : pool.Accounted i fd now e) (hfd : fd ≠ invalidFd) (event : WebEvent)
    (hsessions : pool'.sessions = pool.sessions.modify j fun e =>
      ⟨e.session.on L event, e.hash, e.refs + returnsIn es j⟩)
    (hlog : pool'.log = pool.log ++ es) (hclock : pool.clock ≤ pool'.clock)
    (hes : ∀ x ∈ es, x.index = j) (hunref : .unref j ∉ es)
    (hclosed : .closed j ∈ es ↔ event.Closes) : ∃ e', pool'.Accounted i fd now e' := by
  have hslot := congrArg (·[i]?) hsessions
  rw [List.getElem?_modify, h.slot, Option.map_eq_map, Option.map_some] at hslot
  by_cases hji : j = i
  · subst hji
    obtain ⟨hheld, hgone, hactive⟩ := WebSession.on_holding L hfd h.holding event
    rw [if_pos rfl] at hslot
    refine ⟨_, h.advance hslot hlog hclock ?_ ?_ (fun hin => absurd hin hunref) hheld fun hgone' =>
      hgone (hgone'.resolve_right hunref)⟩
    · rw [List.count_eq_zero.mpr hunref]
      rfl
    · rw [hactive]
      simp only [hclosed, hunref, or_false]
  · rw [if_neg hji] at hslot
    exact ⟨e, h.frame hslot hlog hclock fun x hx hi => hji ((hes x hx).symm.trans hi)⟩

theorem Sound.does (h : pool.Sound) (event : WebEvent) (hj : j < pool.sessions.length)
    (hsessions : pool'.sessions = pool.sessions.modify j fun e =>
      ⟨e.session.on L event, e.hash, e.refs + returnsIn es j⟩)
    (hlog : pool'.log = pool.log ++ es) (hclock : pool.clock ≤ pool'.clock)
    (hes : ∀ x ∈ es, x.index = j) (hunref : .unref j ∉ es)
    (hclosed : .closed j ∈ es ↔ event.Closes) (hmade : ∀ i fd now, .made i fd now ∉ es) :
    pool'.Sound := by
  have hlength : pool'.sessions.length = pool.sessions.length := by
    rw [hsessions, List.length_modify]
  exact h.extend hclock hlength.ge hlog (fun x hx => by rwa [hes x hx, hlength])
    (fun i fd now hin => absurd hin (hmade i fd now)) fun i fd now e hfd he =>
      he.does hfd event hsessions hlog hclock hes hunref hclosed

/-- The note of a close. -/
theorem closeNote_spec (i : ℕ) (acts : List ChatAct) :
    (∀ x ∈ closeNote i acts, x = .closed i) ∧ (.closed i ∈ closeNote i acts ↔ .close ∈ acts) ∧
      returnsIn (closeNote i acts) i = 0 := by
  unfold closeNote
  split
  · rename_i hclose
    exact ⟨fun x hx => List.mem_singleton.mp hx, by simp [hclose], rfl⟩
  · rename_i hclose
    exact ⟨fun x hx => absurd hx List.not_mem_nil, by simp [hclose], rfl⟩

/-- A note of something else in front of it. -/
theorem noted_spec {x : PoolEffect} (hx : x.index = i) (hopen : x ≠ .closed i)
    (acts : List ChatAct) :
    (∀ y ∈ x :: closeNote i acts, y.index = i ∧ (y = x ∨ y = .closed i)) ∧
      (.closed i ∈ x :: closeNote i acts ↔ .close ∈ acts) ∧
      returnsIn (x :: closeNote i acts) i = returnsIn [x] i := by
  obtain ⟨hnote, hclosed, hreturns⟩ := closeNote_spec i acts
  refine ⟨fun y hy => ?_, ?_, ?_⟩
  · rcases List.mem_cons.mp hy with rfl | hlater
    · exact ⟨hx, .inl rfl⟩
    · rw [hnote y hlater]
      exact ⟨rfl, .inr rfl⟩
  · rw [List.mem_cons, hclosed, or_iff_right hopen.symm]
  · have hsplit := returnsIn_append [x] (closeNote i acts) i
    rwa [hreturns] at hsplit

theorem lookUp_some {sid : Bytes} (h : pool.lookUp S sid = some i) :
    ∃ e, pool.sessions[i]? = some e ∧ e.refs ≠ 0 ∧ e.hash = S.hash sid := by
  unfold lookUp at h
  split at h
  · exact absurd h (Option.some_ne_none i).symm
  · have hfound := S.found _ _ _ h
    unfold hashes at hfound
    rw [List.getElem?_map] at hfound
    obtain ⟨e, he, hhash⟩ := Option.map_eq_some_iff.mp hfound
    split_ifs at hhash with hrefs
    exact ⟨e, he, hrefs, Option.some.inj hhash⟩

theorem lt_of_slot (h : pool.sessions[i]? = some e) : i < pool.sessions.length :=
  (List.getElem?_eq_some_iff.mp h).1

theorem Sound.cameBack (h : pool.Sound) (hi : i < pool.sessions.length) (rest : Bytes)
    (acts : List ChatAct) : (pool.cameBack L i rest acts).Sound := by
  let es : List PoolEffect := .cameBack i rest :: closeNote i acts
  obtain ⟨hes, hclosed, hreturns⟩ :=
    noted_spec (x := .cameBack i rest) (i := i) rfl (by simp) acts
  have hback : returnsIn es i = 1 := hreturns.trans (by simp [returnsIn])
  have hlog : (pool.cameBack L i rest acts).log = pool.log ++ es :=
    List.append_assoc pool.log [.cameBack i rest] _
  refine h.does (L := L) (.request acts) hi ?_ hlog le_rfl (fun x hx => (hes x hx).1)
    (fun hx => absurd (hes _ hx).2 (by simp)) hclosed
    fun j fd now hx => absurd (hes _ hx).2 (by simp)
  have hvisit : (fun e : PooledSession => e.visit L (.request acts)) ∘ PooledSession.oppRef =
      fun e => ⟨e.session.on L (.request acts), e.hash, e.refs + 1⟩ :=
    funext fun e => PooledSession.visit_eq (e := e.oppRef) (Nat.succ_ne_zero _) (.request acts)
  rw [hback]
  show (pool.sessions.modify i PooledSession.oppRef).modify i _ = _
  rw [List.modify_modify_eq, hvisit]

theorem Sound.isNew (h : pool.Sound) (hfd : fd ≠ invalidFd) (rand : ℤ) (acts : List ChatAct) :
    (pool.isNew L S fd rand acts).Sound := by
  let i := pool.sessions.length
  let es : List PoolEffect := .made i fd pool.clock :: closeNote i acts
  obtain ⟨hes, hclosed, hreturns⟩ :=
    noted_spec (x := .made i fd pool.clock) (i := i) rfl (by simp) acts
  have hlog : (pool.isNew L S fd rand acts).log = pool.log ++ es :=
    List.append_assoc pool.log [.made i fd pool.clock] _
  have hsessions : (pool.isNew L S fd rand acts).sessions = pool.sessions ++
      [⟨(WebSession.alloc L fd pool.getpid rand pool.clock).on L (.welcome acts),
        S.hash (webSessionSid L pool.getpid rand), 2⟩] :=
    congrArg (fun e => pool.sessions ++ [e]) (PooledSession.alloc_visit S ..)
  have hlength : (pool.isNew L S fd rand acts).sessions.length = i + 1 := by
    rw [hsessions, List.length_append]
    rfl
  refine h.extend le_rfl (hlength ▸ Nat.le_succ i) hlog
    (fun x hx => by rw [(hes x hx).1, hlength]; exact Nat.lt_succ_self i) ?_ ?_
  · intro j fd' now hx
    obtain ⟨rfl, rfl, rfl⟩ : j = i ∧ fd' = fd ∧ now = pool.clock := by
      rcases (hes _ hx).2 with heq | heq
      · exact PoolEffect.made.inj heq
      · exact absurd heq (by simp)
    have hstart : (WebSession.alloc L fd' pool.getpid rand pool.clock).Holding fd' :=
      ⟨rfl, .inl ⟨rfl, rfl⟩⟩
    obtain ⟨hheld, -, hactive⟩ := WebSession.on_holding L hfd hstart (.welcome acts)
    refine ⟨hfd, ⟨(WebSession.alloc L fd' pool.getpid rand pool.clock).on L (.welcome acts),
      S.hash (webSessionSid L pool.getpid rand), 2⟩, h.fresh rfl ?_ hlog rfl hreturns
        (fun hin => absurd (hes _ hin).2 (by simp)) ?_ hheld⟩
    · rw [hsessions]
      exact List.getElem?_concat_length
    · exact hactive.trans (if_congr hclosed.symm rfl rfl)
  · intro j fd' now e _ he
    have hj := lt_of_slot he.slot
    refine ⟨e, he.frame ?_ hlog le_rfl fun x hx => by rw [(hes x hx).1]; exact hj.ne'⟩
    rw [hsessions, List.getElem?_append_left hj]
    exact he.slot

theorem Sound.webchat (h : pool.Sound) (fd rand : ℤ) (sid rest : Bytes) (acts : List ChatAct) :
    (pool.webchatPlug L S fd rand sid rest acts).Sound := by
  unfold webchatPlug
  split
  · exact h
  · rename_i hfd
    split
    · rename_i i hfound
      obtain ⟨e, he, -⟩ := lookUp_some hfound
      exact h.cameBack (lt_of_slot he) rest acts
    · exact h.isNew hfd rand acts

theorem Sound.beside (h : pool.Sound) (hi : i < pool.sessions.length) (a : ChatAct) :
    ((pool.modify i fun e => e.does L (.beside a)).noteClose i [a]).Sound := by
  obtain ⟨hnote, hclosed, hreturns⟩ := closeNote_spec i [a]
  have hlog : ((pool.modify i fun e => e.does L (.beside a)).noteClose i [a]).log =
      pool.log ++ closeNote i [a] := rfl
  refine h.does (L := L) (.beside a) hi ?_ hlog le_rfl (fun x hx => by rw [hnote x hx]; rfl)
    (fun hx => absurd (hnote _ hx) (by simp)) ?_
    fun j fd now hx => absurd (hnote _ hx) (by simp)
  · rw [hreturns]
    rfl
  · rw [hclosed, List.mem_singleton]
    exact eq_comm

theorem Sound.transfer (h : pool.Sound) (hi : i < pool.sessions.length) (destpid : ℤ)
    (cmd : Bytes) : (pool.modify i fun e => e.does L (.transfer destpid cmd)).Sound := by
  have hlog : (pool.modify i fun e => e.does L (.transfer destpid cmd)).log = pool.log ++ [] :=
    (List.append_nil _).symm
  exact h.does (L := L) (.transfer destpid cmd) hi rfl hlog le_rfl
    (fun _ hx => absurd hx List.not_mem_nil) List.not_mem_nil
    (iff_of_false List.not_mem_nil id) fun _ _ _ => List.not_mem_nil

/-- An iteration is sound if what it does keeps the accounts of the sessions that it does it
with. -/
theorem Sound.each (h : pool.Sound) {P : PooledSession → Prop} [DecidablePred P]
    {does : PooledSession → PooledSession} {effect : ℕ → PoolEffect}
    (hindex : ∀ i, (effect i).index = i) (hmade : ∀ i j fd now, effect i ≠ .made j fd now)
    (hdoes : ∀ i fd now e es, fd ≠ invalidFd → pool.Accounted i fd now e → P e →
      (pool.each P does effect).sessions[i]? = some (does e) →
      (pool.each P does effect).log = pool.log ++ es → (∀ x ∈ es, ∃ j, x = effect j) →
      es.count (effect i) = 1 → (pool.each P does effect).Accounted i fd now (does e)) :
    (pool.each P does effect).Sound := by
  have hlength : (pool.each P does effect).sessions.length = pool.sessions.length :=
    List.length_map ..
  generalize hes : ((List.range pool.sessions.length).filter fun i =>
    ∃ e ∈ pool.sessions[i]?, P e).map effect = es
  have hlog : (pool.each P does effect).log = pool.log ++ es := by
    rw [← hes]
    rfl
  have hall {x : PoolEffect} (hx : x ∈ es) : ∃ j < pool.sessions.length, x = effect j := by
    obtain ⟨j, hj, rfl⟩ := List.mem_map.mp (hes ▸ hx)
    exact ⟨j, List.mem_range.mp (List.mem_of_mem_filter hj), rfl⟩
  refine h.extend le_rfl hlength.ge hlog (fun x hx => ?_) (fun i fd now hx => ?_)
    fun i fd now e hfd he => ?_
  · obtain ⟨j, hj, rfl⟩ := hall hx
    rwa [hindex, hlength]
  · obtain ⟨j, -, heq⟩ := hall hx
    exact absurd heq.symm (hmade j i fd now)
  · have hinjective : effect.Injective := fun i j heq => by rw [← hindex i, heq, hindex]
    have hslot : (pool.each P does effect).sessions[i]? = some (if P e then does e else e) := by
      unfold SessionPool.each
      dsimp only
      rw [List.getElem?_map, he.slot]
      rfl
    have hcount : es.count (effect i) = if P e then 1 else 0 := by
      rw [← hes, count_each hinjective, he.slot]
      simp [lt_of_slot he.slot]
    by_cases hP : P e
    · rw [if_pos hP] at hslot hcount
      exact ⟨_, hdoes i fd now e es hfd he hP hslot hlog
        (fun x hx => (hall hx).imp fun _ hj => hj.2) hcount⟩
    · rw [if_neg hP] at hslot hcount
      refine ⟨e, he.frame hslot hlog le_rfl fun x hx hi => List.count_eq_zero.mp hcount ?_⟩
      obtain ⟨j, -, rfl⟩ := hall hx
      rwa [← hi, hindex]

/-- Whether the cleanup takes a session. -/
theorem Accounted.expired_iff (h : pool.Accounted i fd now e) (hlate : 120 ≤ pool.clock) :
    e.Expired pool.clock ↔ e.refs ≠ 0 ∧ (.closed i ∈ pool.log ∨ now + 120 ≤ pool.clock) := by
  have hearly := h.early
  have hactive := h.active
  unfold PooledSession.Expired
  refine and_congr_right fun _ => ?_
  rw [hactive]
  split_ifs with hidle
  · exact iff_of_true (by omega) (hidle.elim .inl hearly)
  · rw [not_or] at hidle
    simp [hidle.1]

theorem Sound.cleanupPass (h : pool.Sound) : pool.cleanupPass.Sound := by
  refine h.each (fun _ => rfl) (by simp) fun i fd now e es hfd he hexpired hslot hlog hall
    hcount => ?_
  have hin : .unref i ∈ es := List.count_pos_iff.mp (by omega)
  have hreturns : returnsIn es i = 0 := List.countP_eq_zero.mpr fun x hx => by
    obtain ⟨j, rfl⟩ := hall x hx
    exact Bool.false_ne_true
  obtain ⟨hrefs, hheld, hgone, hidle⟩ := PooledSession.release_holding hfd hexpired.1 he.holding
  refine he.advance hslot hlog le_rfl (by rw [hcount, hreturns, hrefs, Nat.add_zero]) ?_
    (fun _ => ((he.expired_iff h.late).mp hexpired).2) hheld fun _ => hgone
  rw [if_pos (.inr hin), hidle]

theorem Sound.softQuit (h : pool.Sound) : pool.webSessionFactoryOnSoftquit.Sound := by
  refine h.each (fun _ => rfl) (by simp) fun i fd now e es hfd he _ hslot hlog hall hcount => ?_
  have hin : .closed i ∈ es := List.count_pos_iff.mp (by omega)
  have hother {x : PoolEffect} (hx : ∀ j, x ≠ .closed j) : x ∉ es := fun hmem =>
    (hall x hmem).elim hx
  have hreturns : returnsIn es i = 0 := List.countP_eq_zero.mpr fun x hx => by
    obtain ⟨j, rfl⟩ := hall x hx
    exact Bool.false_ne_true
  have hunref : .unref i ∉ es := hother (by simp)
  obtain ⟨hheld, hgone⟩ := WebSession.close_holding hfd he.holding
  refine he.advance hslot hlog le_rfl ?_ ?_ (fun hmem => absurd hmem hunref) hheld fun _ => hgone
  · rw [List.count_eq_zero.mpr hunref, hreturns]
    rfl
  · rw [if_pos (.inl hin)]
    exact WebSession.close_lastActivity e.session

/-- What leaves the sessions as they are. -/
theorem Sound.pass (h : pool.Sound) (hsessions : pool'.sessions = pool.sessions)
    (hlog : pool'.log = pool.log) (hclock : pool.clock ≤ pool'.clock) : pool'.Sound := by
  have hnothing : pool'.log = pool.log ++ [] := hlog.trans (List.append_nil _).symm
  exact h.extend hclock (congrArg List.length hsessions).ge hnothing
    (fun _ hx => absurd hx List.not_mem_nil) (fun _ _ _ hx => absurd hx List.not_mem_nil)
    fun _ _ _ e _ he => ⟨e, he.frame (hsessions ▸ he.slot) hnothing hclock
      fun _ hx => absurd hx List.not_mem_nil⟩

theorem Sound.step (h : pool.Sound) {ev : PoolEvent} (hev : pool.Permitted ev) :
    (pool.step L S ev).Sound := by
  cases ev with
  | webchat fd rand sid rest acts => exact h.webchat fd rand sid rest acts
  | beside i a =>
    obtain ⟨e, he, -⟩ := hev
    exact h.beside (lt_of_slot he) a
  | transfer i destpid cmd =>
    obtain ⟨e, he, -⟩ := hev
    exact h.transfer (lt_of_slot he) destpid cmd
  | cleanup =>
    unfold SessionPool.step webSessionCleanupFiber
    dsimp only
    split
    · exact h.cleanupPass.pass rfl rfl le_rfl
    · exact h.pass rfl rfl le_rfl
  | softQuit => exact h.softQuit
  | tick => exact h.pass rfl rfl (Nat.le_succ _)

end Steps

/-- A session that a second request finds, and the time passes. -/
def foundOnce : List PoolEvent :=
  [.webchat 7 77 [] [] [.send (lit "Login name?\n") false],
    .webchat 8 78 (lit "4711-77") (lit "bob\n") [.send (lit "Welcome bob\n") false], .tick,
    .cleanup]

end SessionPool

/-! ### Requests of the page -/

/-- What becomes of a request of the web chat: the chat of the session that is found for its id
gets the text behind it, a new session is made and the text is dropped, or the request is sent on
to still another process. -/
inductive WebchatOutcome where
  | cameBack (pid : ℤ) (sid : Bytes) (session : ℕ) (text : Bytes)
  | isNew (pid : ℤ)
  | sentOn (pid destpid : ℤ)
  deriving DecidableEq, Repr

section Requests
variable (L : TxtLib) (S : SessionSearch) (pools : ℤ → SessionPool)

/-- `http_webchat_plug` of process `getpid` for a request that stays there. -/
def webchatServe (getpid : ℤ) (sid rest : Bytes) : WebchatOutcome :=
  match (pools getpid).lookUp S sid with
  | some i => .cameBack getpid sid i rest
  | none => .isNew getpid

/-- What `http_webchat_plug` does with a connection that was sent to its process. -/
def webchatTaken (getpid : ℤ) : HttpBubble → Option WebchatOutcome
  | .called space content =>
    if space = httpWebchatPlug then
      match webchatRoute L getpid content with
      | .serve sid rest => some (webchatServe S pools getpid sid rest)
      | .transfer destpid _ => some (.sentOn getpid destpid)
    else none
  | _ => none

/-- What becomes of a request of the web chat that arrives at process `getpid`, when sockets can be
sent to the processes in `reachable`. -/
def webchatServed (storage : Bytes) (reachable : ℤ → Bool) (getpid : ℤ) (content : Bytes) :
    Option WebchatOutcome :=
  match webchatRoute L getpid content with
  | .serve sid rest => some (webchatServe S pools getpid sid rest)
  | .transfer destpid cmd =>
    if reachable destpid then
      (httpArrival L storage (transferDatagram L destpid nginzHttpPort cmd)).bind
        (webchatTaken L S pools destpid)
    else none

variable {pid : ℤ} {sid rest : Bytes} {i : ℕ}

/-- The chat of a session gets a text only if the request is read as one for the session. -/
theorem webchatTaken_bubble (hsid : sid ≠ []) {request : Bytes}
    (h : webchatTaken L S pools pid (httpOnConnectionBubble L request) =
      some (.cameBack pid sid i rest)) :
    httpWebchatGetSessionid request = ⟨sid, rest, pid⟩ := by
  have hcalled : ∃ space, httpOnConnectionBubble L request = .called space request := by
    unfold httpOnConnectionBubble at h ⊢
    dsimp only at h ⊢
    split at h
    · exact absurd h (by simp [webchatTaken])
    rw [if_neg (by assumption)]
    split at h
    · exact absurd h (by simp [webchatTaken])
    rw [if_neg (by assumption)]
    exact ⟨_, rfl⟩
  obtain ⟨space, hspace⟩ := hcalled
  rw [hspace, webchatTaken] at h
  split_ifs at h
  unfold webchatRoute at h
  dsimp only at h
  split_ifs at h with hother
  · simp at h
  unfold webchatServe at h
  dsimp only at h
  split at h
  · simp only [Option.some.injEq, WebchatOutcome.cameBack.injEq, true_and] at h
    obtain ⟨hsid', -, hrest'⟩ := h
    have hread : httpWebchatGetSessionid request =
        ⟨sid, rest, (httpWebchatGetSessionid request).pid⟩ := by rw [← hsid', ← hrest']
    have hpid := getSessionid_pid hsid hread
    have hown : (httpWebchatGetSessionid request).pid = pid := by
      by_contra hne
      exact hother ⟨by omega, hne⟩
    rwa [hown] at hread
  · simp at h

/-- A request that arrived at the process of its session, or that the receiver has room for when
that process can be reached, is looked up there; otherwise no chat gets it as it was sent. -/
theorem webchat_served_cases {storage : Bytes} (hcap : L.room 255 < 65536)
    (hs : storage.length = L.room 128) (hs' : L.room 128 ≤ 255) (reachable : ℤ → Bool)
    (getpid : ℤ) {content : Bytes} (hsid : sid ≠ [])
    (h : httpWebchatGetSessionid content = ⟨sid, rest, pid⟩) :
    let arrives := pid = getpid ∨ reachable pid = true ∧
      packedLength (transferFields pid nginzHttpPort (webchatCommand sid rest)) ≤ storage.length
    let outcome := webchatServed L S pools storage reachable getpid content
    (arrives → outcome = some (webchatServe S pools pid sid rest)) ∧
      (¬ arrives → ∀ i, outcome ≠ some (.cameBack pid sid i rest)) := by
  intro arrives outcome
  have hpid := getSessionid_pid hsid h
  have houtcome : outcome = webchatServed L S pools storage reachable getpid content := rfl
  unfold webchatServed at houtcome
  rw [webchatRoute, h] at houtcome
  dsimp only at houtcome
  by_cases hown : pid = getpid
  · rw [if_neg (by simp [hown])] at houtcome
    subst hown
    exact ⟨fun _ => houtcome, fun hnot => absurd (.inl rfl) hnot⟩
  rw [if_pos ⟨by omega, hown⟩] at houtcome
  dsimp only at houtcome
  have harrives : arrives ↔ reachable pid = true ∧
      packedLength (transferFields pid nginzHttpPort (webchatCommand sid rest)) ≤
        storage.length := or_iff_right hown
  rw [harrives]
  by_cases hreach : reachable pid = true
  · obtain ⟨request, harrival, hrequest⟩ := webchat_arrival L hcap hs hs' hsid rest pid pid
    rw [if_pos hreach, harrival, Option.bind_some] at houtcome
    by_cases hfits : packedLength (transferFields pid nginzHttpPort (webchatCommand sid rest)) ≤
        storage.length
    · rw [if_pos hfits] at hrequest
      have hsame := getSessionid_command hsid h
      unfold webchatCommand at hrequest hsame
      rw [hrequest, httpOnConnectionBubble_word L (by decide) (by decide +kernel) (by decide),
        webchatTaken, if_pos rfl, webchatRoute, hsame] at houtcome
      dsimp only at houtcome
      rw [if_neg (by simp)] at houtcome
      exact ⟨fun _ => houtcome, fun hnot => absurd ⟨hreach, hfits⟩ hnot⟩
    · rw [if_neg hfits] at hrequest
      refine ⟨fun harrived => absurd harrived.2 hfits, fun _ i hback => hrequest ?_⟩
      exact webchatTaken_bubble L S pools hsid (houtcome.symm.trans hback)
  · rw [if_neg hreach] at houtcome
    exact ⟨fun harrived => absurd harrived.1 hreach, fun _ i hback =>
      absurd (houtcome.symm.trans hback) (by simp)⟩

/-- A session that is there under the hash of the id and shares it with no other is found. -/
theorem lookUp_only {pool : SessionPool} {e : PooledSession} (hsid : sid ≠ [])
    (hslot : pool.sessions[i]? = some e) (hrefs : e.refs ≠ 0) (hhash : e.hash = S.hash sid)
    (honly : ∀ j e', pool.sessions[j]? = some e' → e'.refs ≠ 0 → e'.hash = S.hash sid → j = i) :
    pool.lookUp S sid = some i := by
  cases hfound : pool.lookUp S sid with
  | some j =>
    obtain ⟨e', hslot', hrefs', hhash'⟩ := SessionPool.lookUp_some hfound
    exact congrArg some (honly j e' hslot' hrefs' hhash')
  | none =>
    unfold SessionPool.lookUp at hfound
    rw [if_neg hsid] at hfound
    refine absurd ?_ (S.missing _ _ hfound)
    refine List.mem_map.mpr ⟨e, List.mem_of_getElem? hslot, ?_⟩
    rw [if_neg hrefs, hhash]

/-- No session is found if none that is there has the hash of the id. -/
theorem lookUp_gone {pool : SessionPool}
    (hnone : ∀ e ∈ pool.sessions, e.refs ≠ 0 → e.hash ≠ S.hash sid) :
    pool.lookUp S sid = none := by
  refine Option.eq_none_iff_forall_ne_some.mpr fun i hfound => ?_
  obtain ⟨e, hslot, hrefs, hhash⟩ := SessionPool.lookUp_some hfound
  exact hnone e (List.mem_of_getElem? hslot) hrefs hhash

end Requests

section Page
variable (L : TxtLib) (S : SessionSearch) (pools : ℤ → SessionPool) {pid number : ℕ}

/-- What a client posts behind a response of its session comes to the chat of the session, with the
text of the client, if and only if it arrived at the process of the session, or that process can be
reached and the receiver has room for the message, and the search there finds the session: it does
when the session is still there and no other has its hash. If it gets there and none of that hash
is there any more, a new session is made and no chat gets the text. -/
theorem page_request_served {storage : Bytes} (hcap : L.room 255 < 65536)
    (hs : storage.length = L.room 128) (hs' : L.room 128 ≤ 255) (hpid : pid < 2 ^ 31)
    (hnumber : number < 2 ^ 31) (reachable : ℤ → Bool) (getpid : ℤ) (said text : Bytes) :
    let sid := webSessionSid L pid number
    let arrives := (pid : ℤ) = getpid ∨ reachable pid = true ∧
      packedLength (transferFields pid nginzHttpPort (webchatCommand sid (text ++ [10]))) ≤
        storage.length
    let outcome := webchatServed L S pools storage reachable getpid
      (pageSubmit (pageSid (sid ++ 10 :: said)) text)
    (∀ i, outcome = some (.cameBack pid sid i (text ++ [10])) ↔
        arrives ∧ (pools pid).lookUp S sid = some i) ∧
      (∀ i e, (pools pid).sessions[i]? = some e → e.refs ≠ 0 → e.hash = S.hash sid →
        (∀ j e', (pools pid).sessions[j]? = some e' → e'.refs ≠ 0 → e'.hash = S.hash sid →
          j = i) → (outcome = some (.cameBack pid sid i (text ++ [10])) ↔ arrives)) ∧
      ((∀ e ∈ (pools pid).sessions, e.refs ≠ 0 → e.hash ≠ S.hash sid) → arrives →
        outcome = some (.isNew pid)) := by
  intro sid arrives outcome
  have hsid : sid ≠ [] := by
    unfold sid
    rw [webSessionSid_eq L hpid hnumber]
    simp
  obtain ⟨hthere, hlost⟩ := webchat_served_cases L S pools hcap hs hs' reachable getpid hsid
    (page_request_read L hpid hnumber said text)
  have hfound (i : ℕ) : outcome = some (.cameBack pid sid i (text ++ [10])) ↔
      arrives ∧ (pools pid).lookUp S sid = some i := by
    by_cases harrives : arrives
    · have hserve : outcome = some (webchatServe S pools pid sid (text ++ [10])) :=
        hthere harrives
      rw [hserve, webchatServe]
      cases (pools pid).lookUp S sid with
      | some j => simp [harrives]
      | none => simp
    · exact iff_of_false (hlost harrives i) fun h => harrives h.1
  refine ⟨hfound, fun i e hslot hrefs hhash honly => ?_, fun hnone harrives => ?_⟩
  · rw [hfound, and_iff_left (lookUp_only S hsid hslot hrefs hhash honly)]
  · have hserve : outcome = some (webchatServe S pools pid sid (text ++ [10])) := hthere harrives
    rw [hserve, webchatServe, lookUp_gone S hnone]

/-- The session of `foundOnce`, and a request for it that comes to another process. -/
theorem page_request_served_hello :
    let S := SessionSearch.oldest List.length
    let pool := SessionPool.foundOnce.foldl (SessionPool.step .cutting S) (.start 4711 1000)
    let sid := webSessionSid .cutting (4711 : ℕ) (77 : ℕ)
    webchatServed .cutting S (fun _ => pool) (List.replicate 129 0) (fun _ => true) 4712
        (pageSubmit (pageSid (sid ++ 10 :: lit "hi\n")) (lit "hello")) =
      some (.cameBack (4711 : ℕ) sid 0 (lit "hello" ++ [10])) :=
  ((page_request_served .cutting _ _ (by decide) (by simp [TxtLib.cutting]) (by decide) (by decide)
    (by decide) (fun _ => true) 4712 (lit "hi\n") (lit "hello")).1 0).mpr
      ⟨.inr ⟨rfl, by decide +kernel⟩, by decide +kernel⟩

end Page
end Nginz
