import Nginz.Chat.Burial
import Nginz.Chat.Replies

/-! What a connection that logs in is told, and what the logins of other connections have to
do with it. -/
namespace Nginz

/-- A login at a worker: a line with a name, or the reply to a request. -/
inductive LoginEvent where
  | attempt (u : ℕ) (line : Bytes)
  | reply (u : ℕ) (success : ℤ) (name : Bytes)
  deriving DecidableEq, Repr

def Worker.login (W : World) (w : Worker) : LoginEvent → Worker
  | .attempt u line => onAsyncchatLogin W w u line
  | .reply u success name => onAsyncchatLoginHook W w u success name

/-- A connection that was asked for its name. -/
def Worker.AwaitsLogin (w : Worker) (u : ℕ) : Prop :=
  ∃ c, w.chats u = some c ∧ c.state = .connected ∧ c.onResponseCallback = some .login

/-- A connection that `chat_get` finds. -/
def Worker.TakesReplies (w : Worker) (u : ℕ) : Prop := ∃ c, w.chats u = some c ∧ c.ending = false

/-- The event is that of another connection than `t`. -/
def OfOthers (t : ℕ) (w : Worker) : LoginEvent → Prop
  | .attempt u _ => u ≠ t ∧ w.AwaitsLogin u
  | .reply u _ _ => u ≠ t

/-- What `on_asyncchat_login` sends. -/
def loginOutput (W : World) (w : Worker) (t : ℕ) (line : Bytes) : List (ℕ × Bytes) :=
  (onAsyncchatLogin W w t line).sends.drop w.sends.length

/-- What a connection is sent for a line is the same after any two histories of logins of
other connections. -/
def LoginIndependent (W : World) (w : Worker) (t : ℕ) (line : Bytes) : Prop :=
  ∀ h h', Transition.Along (Worker.login W) (OfOthers t) w h →
    Transition.Along (Worker.login W) (OfOthers t) w h' →
    loginOutput W (h.foldl (Worker.login W) w) t line =
      loginOutput W (h'.foldl (Worker.login W) w) t line

/-- The line is answered without a request to the store. -/
def DecidedAtOnce (line : Bytes) : Prop :=
  line = [] ∨ (scannerNextToken line).1 = [] ∨
    nginzMaxChatUserNameSize ≤ (scannerNextToken line).1.length

/-- The greeting buffer when the line has been looked at. -/
def greetingFor (w : Worker) (line : Bytes) : Bytes :=
  if (scannerNextToken line).1 = [] then lit "Invalid name:(, try again\n"
  else if (scannerNextToken line).1.length ≥ nginzMaxChatUserNameSize then
    lit "The name is too big\n"
  else w.greetOnLogin

section Output
variable (W : World) (w : Worker) (t : ℕ) {line : Bytes}

/-- A request to the store sends nothing and leaves the buffer as it was. -/
theorem loginOutput_eq (h : line ≠ []) :
    loginOutput W w t line =
      if greetingFor w line = [] then [] else [(t, greetingFor w line)] := by
  have hsent (v : Worker) (hv : v.sends = w.sends) :
      (if v.greetOnLogin ≠ [] then defaultChatSend W v t v.greetOnLogin else v).sends.drop
        w.sends.length = if v.greetOnLogin = [] then [] else [(t, v.greetOnLogin)] := by
    by_cases hg : v.greetOnLogin = []
    · rw [if_neg (not_not.mpr hg), if_pos hg, hv, List.drop_length]
    · rw [if_pos hg, if_neg hg, defaultChatSend_sends, hv, List.drop_left]
  have htry (v : Worker) (name : Bytes) (token : ℤ) (hook : Bytes) :
      (asyncTryLogin W v name token hook).sends = v.sends ∧
        (asyncTryLogin W v name token hook).greetOnLogin = v.greetOnLogin := by
    unfold asyncTryLogin
    split
    · exact ⟨rfl, rfl⟩
    · exact ⟨rfl, rfl⟩
  unfold loginOutput onAsyncchatLogin greetingFor
  rw [if_neg h]
  dsimp only
  by_cases hname : (scannerNextToken line).1 = []
  · rw [if_pos hname, if_pos hname]
    exact hsent _ rfl
  · rw [if_neg hname, if_neg hname]
    by_cases hbig : (scannerNextToken line).1.length ≥ nginzMaxChatUserNameSize
    · rw [if_pos hbig, if_pos hbig]
      exact hsent _ rfl
    · rw [if_neg hbig, if_neg hbig]
      obtain ⟨hsends, hgreet⟩ := htry (w.assert ((w.chat t).state = .connected))
        (scannerNextToken line).1 t onAsyncchatLoginName
      rw [hsent _ hsends, hgreet]
      rfl

theorem loginOutput_nil : loginOutput W w t [] = [] := by
  rw [loginOutput, onAsyncchatLogin, if_pos rfl, List.drop_length]

variable {w} {w' : Worker}

/-- The greeting is all that the output takes from the worker. -/
theorem loginOutput_congr (h : greetingFor w line = greetingFor w' line) :
    loginOutput W w t line = loginOutput W w' t line := by
  by_cases hline : line = []
  · rw [hline, loginOutput_nil, loginOutput_nil]
  · rw [loginOutput_eq W w t hline, loginOutput_eq W w' t hline, h]

theorem greetingFor_decided (h : DecidedAtOnce line) :
    line = [] ∨ greetingFor w line = greetingFor w' line := by
  refine h.imp_right fun htoken => ?_
  unfold greetingFor
  rcases htoken with hname | hbig
  · rw [if_pos hname, if_pos hname]
  · split
    · rfl
    · rfl

theorem greetingFor_undecided (h : ¬ DecidedAtOnce line) :
    line ≠ [] ∧ greetingFor w line = w.greetOnLogin := by
  obtain ⟨hline, htoken⟩ := not_or.mp h
  obtain ⟨hname, hshort⟩ := not_or.mp htoken
  unfold greetingFor
  rw [if_neg hname, if_neg hshort]
  exact ⟨hline, rfl⟩

end Output

section Histories
variable (W : World) (w : Worker) (u : ℕ)

/-- Two replies that leave different greetings behind. -/
theorem greet_of_reply {c : ChatConnection} (hc : w.chats u = some c) (hend : c.ending = false)
    (success : ℤ) {name : Bytes} (hname : name ≠ []) :
    (w.login W (.reply u success name)).greetOnLogin = (Reply.login success name).text W.txt := by
  have hget : chatGet w u = (w.setChat u fun c => { c with refs := c.refs + 1 }, some u) := by
    unfold chatGet
    rw [hc]
    exact if_neg (by simpa [ChatConnection.ending] using hend)
  have hsilent : (Reply.login success name).silent = false := by simpa [Reply.silent] using hname
  have hreply := onReply_eq W w u hsilent
  rw [hget] at hreply
  have hadopt (v : Worker) : ((Reply.login success name).adopt W.txt v u).greetOnLogin =
      (Reply.login success name).text W.txt := by
    unfold Reply.adopt Reply.text
    dsimp only
    split
    · rfl
    · rfl
  change (onReply W w u (.login success name)).greetOnLogin = _
  rw [hreply]
  dsimp only
  rw [(burying_unref W _ u).greet]
  unfold Reply.apply Reply.follow
  dsimp only
  rw [(Burying.of_onlySends (t := u) (onlySends_send W _ u _)).greet, hadopt]

/-- A reply to a connection that takes none leaves the buffer as it was, and no connection
takes replies afterwards that took none before. -/
theorem reply_unheard (h : ¬ w.TakesReplies u) (success : ℤ) (name : Bytes) :
    (w.login W (.reply u success name)).greetOnLogin = w.greetOnLogin ∧
      ∀ v, (w.login W (.reply u success name)).TakesReplies v → w.TakesReplies v := by
  unfold Worker.login onAsyncchatLoginHook
  dsimp only
  split
  · exact ⟨rfl, fun _ => id⟩
  · cases hc : w.chats u with
    | none =>
      have hget : chatGet w u = (w.assert false, none) := by
        unfold chatGet
        rw [hc]
      rw [hget]
      exact ⟨rfl, fun _ => id⟩
    | some c =>
      have hend : (c.state.quit || c.state.softQuit || c.state.zombie) = true := by
        by_contra hopen
        exact h ⟨c, hc, by simpa [ChatConnection.ending] using hopen⟩
      have hget : chatGet w u = (w.setChat u fun c => { c with refs := c.refs + 1 }, none) := by
        unfold chatGet
        rw [hc]
        exact if_pos hend
      rw [hget]
      refine ⟨rfl, ?_⟩
      rintro v ⟨d, hd, hopen⟩
      by_cases hvu : v = u
      · subst hvu
        rw [w.setChat_same, hc] at hd
        obtain rfl := Option.some.inj hd
        exact absurd hend (by simpa [ChatConnection.ending] using hopen)
      · rw [w.setChat_other u _ hvu] at hd
        exact ⟨d, hd, hopen⟩

end Histories

theorem awaitsLogin_takes {w : Worker} {u : ℕ} (h : w.AwaitsLogin u) : w.TakesReplies u := by
  obtain ⟨c, hc, hstate, -⟩ := h
  exact ⟨c, hc, by simp [ChatConnection.ending, hstate, ChatState.connected]⟩

/-- Where no other connection takes replies, no history of theirs writes to the buffer. -/
theorem greet_unheard (W : World) {w : Worker} {t : ℕ} (h : ∀ u, u ≠ t → ¬ w.TakesReplies u)
    {events : List LoginEvent} (hrun : Transition.Along (Worker.login W) (OfOthers t) w events) :
    (events.foldl (Worker.login W) w).greetOnLogin = w.greetOnLogin := by
  induction events generalizing w with
  | nil => rfl
  | cons event events ih =>
    obtain ⟨hevent, hrest⟩ := hrun
    cases event with
    | attempt u line => exact absurd (awaitsLogin_takes hevent.2) (h u hevent.1)
    | reply u success name =>
      obtain ⟨hgreet, htakes⟩ := reply_unheard W w u (h u hevent) success name
      have hnext := ih (fun v hv hv' => h v hv (htakes v hv')) hrest
      exact hnext.trans hgreet

/-- The reply to another connection is sent for a valid name. -/
theorem loginOutput_replied (W : World) {w : Worker} {t u : ℕ} {line : Bytes}
    (h : ¬ DecidedAtOnce line) {c : ChatConnection} (hc : w.chats u = some c)
    (hend : c.ending = false) (success : ℤ) {name : Bytes} (hname : name ≠ []) :
    loginOutput W (w.login W (.reply u success name)) t line =
      if (Reply.login success name).text W.txt = [] then []
      else [(t, (Reply.login success name).text W.txt)] := by
  obtain ⟨hline, hgreeting⟩ := greetingFor_undecided
    (w := w.login W (.reply u success name)) h
  rw [loginOutput_eq W _ t hline, hgreeting, greet_of_reply W w u hc hend success hname]

/-- What a connection is sent for a line does not depend on the logins of the others exactly
when the line is answered without a request, or no other connection takes replies. -/
theorem login_output_independent_iff (W : World) (w : Worker) (t : ℕ) (line : Bytes) :
    LoginIndependent W w t line ↔
      DecidedAtOnce line ∨ ∀ u, u ≠ t → ¬ w.TakesReplies u := by
  constructor
  · intro hsame
    by_contra hnot
    obtain ⟨hundecided, hothers⟩ := not_or.mp hnot
    obtain ⟨u, hu⟩ := not_forall.mp hothers
    obtain ⟨hut, htakes⟩ := Classical.not_imp.mp hu
    obtain ⟨c, hc, hend⟩ := not_not.mp htakes
    have houtput (success : ℤ) : loginOutput W (w.login W (.reply u success [97])) t line =
        if (Reply.login success [97]).text W.txt = [] then []
        else [(t, (Reply.login success [97]).text W.txt)] :=
      loginOutput_replied W hundecided hc hend success (by decide)
    have heq := hsame [.reply u 1 [97]] [.reply u 0 [97]] ⟨hut, trivial⟩ ⟨hut, trivial⟩
    simp only [List.foldl_cons, List.foldl_nil, houtput] at heq
    have hwelcome : (Reply.login 1 [97]).text W.txt ≠ [] := welcome_ne_nil W.txt [97]
    have hsorry : (Reply.login 0 [97]).text W.txt = lit "Sorry, name taken.\n" := rfl
    rw [if_neg hwelcome, hsorry, if_neg (by decide)] at heq
    have hhead : lit "Welcome " <+: (Reply.login 1 [97]).text W.txt :=
      compose_head W.txt [[97], lit "!", lit "\n"] (by decide)
    rw [(Prod.mk.inj (List.cons.inj heq).1).2] at hhead
    exact absurd hhead (by decide)
  · rintro (hdecided | hothers) h h' hrun hrun'
    · rcases greetingFor_decided hdecided with rfl | hgreeting
      · rw [loginOutput_nil, loginOutput_nil]
      · exact loginOutput_congr W t hgreeting
    · have hgreet := (greet_unheard W hothers hrun).trans (greet_unheard W hothers hrun').symm
      apply loginOutput_congr
      unfold greetingFor
      rw [hgreet]

/-- A worker with two connections that were asked for their names. -/
def twoAwaiting : Worker :=
  { Worker.fresh 1 1000 with
    chats := fun t =>
      if t = 0 then some { ChatConnection.initial 5 with onResponseCallback := some .login }
      else if t = 1 then some { ChatConnection.initial 6 with onResponseCallback := some .login }
      else none }

/-- Carol is greeted with the name of Bob, who logged in before. -/
theorem login_output_of_stranger :
    let history := [LoginEvent.attempt 0 (lit "bob\n"), .reply 0 1 (lit "bob")]
    Transition.Along (Worker.login .calm) (OfOthers 1) twoAwaiting history ∧
      loginOutput .calm (history.foldl (Worker.login .calm) twoAwaiting) 1 (lit "carol\n") =
        [(1, lit "Welcome bob!\n")] ∧
      loginOutput .calm twoAwaiting 1 (lit "carol\n") = [] ∧
      ¬ LoginIndependent .calm twoAwaiting 1 (lit "carol\n") := by
  have hrun : Transition.Along (Worker.login .calm) (OfOthers 1) twoAwaiting
      [.attempt 0 (lit "bob\n"), .reply 0 1 (lit "bob")] :=
    ⟨⟨by decide, _, rfl, rfl, rfl⟩, Nat.zero_ne_one, trivial⟩
  have hgreeted : loginOutput .calm ([LoginEvent.attempt 0 (lit "bob\n"),
      .reply 0 1 (lit "bob")].foldl (Worker.login .calm) twoAwaiting) 1 (lit "carol\n") =
        [(1, lit "Welcome bob!\n")] := by
    decide +kernel
  have hsilent : loginOutput .calm twoAwaiting 1 (lit "carol\n") = [] := by
    decide +kernel
  refine ⟨hrun, hgreeted, hsilent, fun hsame => ?_⟩
  have heq := hsame _ [] hrun trivial
  rw [hgreeted] at heq
  exact absurd (heq.trans hsilent) (by decide)

end Nginz
