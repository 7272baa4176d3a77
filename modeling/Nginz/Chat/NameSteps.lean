import Nginz.Chat.HandedOff
import Nginz.Chat.NameLedger

/-! What an event, a reply or an arriving connection does to the names of a worker: events
give it none, a reply gives it the name it grants, and an arriving connection the name it
brings. -/
namespace Nginz

/-- A worker between its handlers that touches no descriptor it handed off, and whose named
connections are credible. -/
structure Worker.Sound (w : Worker) : Prop where
  serving : AtRest (Serving True) w
  credible : w.Credible

/-- The line of a client reaches no hidden space. -/
def PublicLine (L : TxtLib) (line : Bytes) : Prop :=
  line.head? = some 47 → ∀ space rest, commandHook L line = .dispatch space rest →
    ¬ HiddenSpace space

instance (L : TxtLib) (line : Bytes) : Decidable (PublicLine L line) :=
  match hline : commandHook L line with
  | .hidden => .isTrue fun _ _ _ he => absurd (hline.symm.trans he) (by simp)
  | .noToken => .isTrue fun _ _ _ he => absurd (hline.symm.trans he) (by simp)
  | .dispatch space _ => decidable_of_iff (line.head? = some 47 → ¬ HiddenSpace space)
      ⟨fun h hhead _ _ he => by
        obtain ⟨rfl, -⟩ := CommandOutcome.dispatch.inj (hline.symm.trans he)
        exact h hhead, fun h hhead => h hhead _ _ hline⟩

section Steps
variable {W : World} {w : Worker} {t : ℕ}

theorem Worker.Sound.ledger (h : w.Sound) (gain : Bytes → ℕ∞) : AtRest (NameLedger W w gain) w :=
  ⟨h.serving, h.credible, .refl w⟩

theorem sound_of_ledger {base : Worker} {gain : Bytes → ℕ∞}
    (h : AtRest (NameLedger W base gain) w) :
    w.Sound ∧ NamesSpent W gain base w := ⟨⟨h.serving, h.credible⟩, h.spent⟩

/-- Whatever happens to a worker beside replies and arrivals gives it no name. -/
theorem spent_event (h : w.Sound) {e : WorkerEvent}
    (hlocal : ∀ fd t storage o, e ≠ .arrive fd t storage o)
    (hspare : SparesHandedOff w (.event e))
    (hpublic : ∀ fd t line, e = .clientData fd t (.data line) → PublicLine W.txt line) :
    (w.on W e).Sound ∧ NamesSpent W 0 w (w.on W e) := by
  have hP := ledger_invariant W w 0
  refine sound_of_ledger (hP.on (h.ledger 0) e ?_ ?_ ?_)
  · rintro rfl
    exact fun t c hc hm => Or.inl (hspare t c hc hm)
  · exact fun _ fd t line he _ => hpublic fd t line he
  · exact fun _ fd t storage o _ he => absurd he (hlocal fd t storage o)

/-- A login under a name gives one connection that name. -/
theorem spent_login (t : ℕ) {name : Bytes} {f : ChatConnection → ChatConnection}
    (hf : ∀ c, (f c).name = name) : NamesSpent W (Pi.single name 1) w (w.setChat t f) := by
  refine .of_fewer rfl rfl rfl fun other hother => ?_
  have hchats (u : ℕ) (hut : u ≠ t) : (w.setChat t f).chats u = w.chats u := w.setChat_other t f hut
  by_cases hname : other = name
  · subst hname
    rw [Pi.single_eq_same]
    exact namesakes_gain hchats fun _ _ => rfl
  · rw [Pi.single_eq_of_ne hname, add_zero]
    refine namesakes_keep hchats (fun _ _ => rfl) ?_
    rintro ⟨d, hd, -, hn, -⟩
    rw [w.setChat_same] at hd
    obtain ⟨c, -, rfl⟩ := Option.map_eq_some_iff.mp hd
    exact absurd (hn.symm.trans (hf c)) hname

/-- The name that a reply gives. -/
def Reply.gain (r : Reply) : Bytes → ℕ∞ := r.granted.elim 0 fun name => Pi.single name 1

theorem spent_adopt (L : TxtLib) (v : Worker) (t : ℕ) (r : Reply) :
    NamesSpent W r.gain v (r.adopt L v t) := by
  cases r with
  | login success name =>
    have hgreet (text : Bytes) : NamesSpent W 0 v { v with greetOnLogin := text } :=
      .same rfl rfl rfl rfl rfl
    unfold Reply.adopt
    dsimp only
    split
    · rename_i hs
      by_cases hname : name = []
      · subst hname
        exact (hgreet _).free_then (.setChat t fun _ _ _ hn => absurd rfl hn)
      · have hgranted : Reply.granted (.login success name) = some name := if_pos ⟨hs, hname⟩
        have hgain : Reply.gain (.login success name) = Pi.single name 1 := by
          unfold Reply.gain
          rw [hgranted]
          rfl
        rw [hgain]
        exact (hgreet _).free_then (spent_login t fun _ => rfl)
    · exact .same rfl rfl rfl rfl rfl
  | roomPid roomKey pidstr => exact .refl v
  | rooms info => exact .refl v

theorem spent_reply (h : w.Sound) {r : Reply} (hvalid : ∀ name ∈ r.granted, ValidName name)
    (hroom : r.Transfers W.txt w.pid → r.RoomValid W.txt) (t : ℕ) :
    (onReply W w t r).Sound ∧ NamesSpent W r.gain w (onReply W w t r) := by
  have hP := ledger_invariant W w r.gain
  refine sound_of_ledger (hP.reply (h.ledger r.gain) r (Or.inl trivial) ?_ fun _ => hroom)
  rintro v hv - rfl
  have hget : NamesSpent W 0 w (w.setChat t fun c => { c with refs := c.refs + 1 }) :=
    .setChat t fun _ _ hlogin _ => ⟨hlogin, rfl⟩
  generalize w.setChat t (fun c => { c with refs := c.refs + 1 }) = v at hv hget
  refine ⟨(serving_invariant W True).adopt_unnamed not_false hv.serving t r, ?_,
    hget.free_then (spent_adopt W.txt v t r)⟩
  cases r with
  | login success name =>
    unfold Reply.adopt
    dsimp only
    split
    · rename_i hs
      have hgreet (text : Bytes) : Worker.Credible { v with greetOnLogin := text } := hv.credible
      exact (hgreet _).setChat fun c _ _ hname => ⟨hvalid name (if_pos ⟨hs, hname⟩), Or.inl rfl⟩
    · exact hv.credible
  | roomPid roomKey pidstr => exact hv.credible
  | rooms info => exact hv.credible

/-! ### Arrivals -/

/-- `on_tcp_connection`: the datagram that goes with a new client. -/
def welcomeDatagram (L : TxtLib) : Bytes :=
  (transferMessage L (L.room nginzMaxBinaryMsgLen) 0 nginzChatPort (lit "chat/_welcome")).content

/-- A new client has no name. -/
theorem spent_welcome (hcap : W.txt.room nginzMaxBinaryMsgLen < 65536) (h : w.Sound) (fd : ℤ)
    {storage : Bytes} (hs : 128 ≤ storage.length) {o : HandOff}
    (ho : o.datagram = welcomeDatagram W.txt) :
    (w.on W (.arrive fd t storage o)).Sound ∧
      NamesSpent W 0 w (w.on W (.arrive fd t storage o)) := by
  have hP := ledger_invariant W w 0
  refine sound_of_ledger (hP.on (h.ledger 0) _ ?_ ?_ ?_)
  · exact fun he => absurd he (by simp)
  · exact fun _ fd t line he => absurd he (by simp)
  · rintro - fd' t' storage' o' x he hx
    obtain ⟨rfl, rfl, rfl, rfl⟩ := WorkerEvent.arrive.inj he
    have hreceived := transferMessage_received W.txt hcap
      ((W.txt.le_room nginzMaxBinaryMsgLen).trans' (by decide))
      (show (lit "chat/_welcome").length ≤ 104 by decide) 0 hs
    rw [ho] at hx
    obtain rfl := Option.some.inj (hx.symm.trans hreceived.2)
    exact ⟨by decide +kernel, by decide +kernel⟩

/-- The command of a passage logs a nameless connection in under the name of the passage. -/
theorem ledger_hiddenjoin {base : Worker} {q : List LazyObject} {held : Multiset ℕ}
    (h : NameLedger W base 0 q held w) {c : ChatConnection} (hc : w.chats t = some c)
    (hreg : (c.fd, t) ∈ w.eventLoop) (hnew : c.name = []) {p : Passage} (hp : p.Valid) :
    NameLedger W base (Pi.single p.name 1) q held
      (chatHiddenjoinPlug W w t (hiddenjoinCommand W.txt p.room p.name)) := by
  have hS := serving_invariant W True
  have hP := ledger_invariant W base (Pi.single p.name 1)
  have hm := hS.membership h.serving
  obtain ⟨-, -, -, hfd, -⟩ := h.serving.entry c.fd t hreg
  have hvalid : isValidChat w t = true := by
    unfold isValidChat
    rw [w.chat_of_some t hc]
    simpa using hfd
  have hmlogin : Membership (w.setState t fun s => { s with loggedIn := true }) :=
    hm.setLoggedIn t (fun _ => ⟨rfl, rfl⟩) fun _ _ _ => rfl
  have hslogin : Serving True q held (w.setState t fun s => { s with loggedIn := true }) :=
    hS.relabel not_false h.serving hmlogin fun _ => rfl
  have hcredible : (w.setState t fun s => { s with loggedIn := true }).Credible :=
    h.credible.setChat fun d hd _ => credible_nameless (by
      rw [← Option.some.inj (hc.symm.trans hd)]
      exact hnew)
  have hspent (gain : Bytes → ℕ∞) :
      NamesSpent W gain base (w.setState t fun s => { s with loggedIn := true }) := by
    refine h.spent.free_then (.setChat t fun d hd _ hn => ?_)
    rw [← Option.some.inj (hc.symm.trans hd)] at hn
    exact absurd hnew hn
  unfold chatHiddenjoinPlug
  rw [if_neg (by simp [hvalid])]
  dsimp only
  by_cases hname : p.name = []
  · rw [hname, hiddenjoinCommand_nameless W.txt hp.room]
    exact ⟨hslogin, hcredible, hspent _⟩
  · rw [hiddenjoinCommand_parsed W.txt hp.room (hp.name hname)]
    dsimp only
    refine hP.join (w := (w.setState t fun s => { s with loggedIn := true }).setChat t fun c =>
      { c with name := p.name }) ⟨?_, ?_, ?_⟩ ?_ p.room
    · exact hS.relabel not_false hslogin (hmlogin.setChat t fun _ => rfl) fun _ => rfl
    · refine hcredible.setChat fun d hd _ hn => ⟨hp.name hn, Or.inl ?_⟩
      unfold Worker.setState at hd
      rw [Worker.setChat_same] at hd
      obtain ⟨e, -, rfl⟩ := Option.map_eq_some_iff.mp hd
      rfl
    · exact (hspent 0).free_then (spent_login t fun _ => rfl)
    · have hatt : Attached (w.setState t fun s => { s with loggedIn := true }) t :=
        Attached.setChat ⟨c, hc, hreg⟩ fun _ => rfl
      exact hatt.setChat fun _ => rfl

/-- A connection that arrives from another process has the name it left with. -/
theorem spent_join (hcap : W.txt.room 255 < 65536) (h : w.Sound) (fd : ℤ) {storage : Bytes}
    (hs : 128 ≤ storage.length) {p : Passage} (hp : p.Valid) :
    (w.on W (.arrive fd t storage (p.handOff W.txt))).Sound ∧
      NamesSpent W (Pi.single p.name 1) w (w.on W (.arrive fd t storage (p.handOff W.txt))) := by
  have hP := ledger_invariant W w 0
  have hstart := h.ledger (W := W) 0
  have hidle {q : List LazyObject} {held : Multiset ℕ} {v : Worker}
    (hv : NameLedger W w 0 q held v) :
      NameLedger W w (Pi.single p.name 1) q held v :=
    ⟨hv.serving, hv.credible, hv.spent.free_then (.refl v)⟩
  unfold Worker.on
  split
  swap
  · exact sound_of_ledger (hidle hstart)
  rename_i henabled
  obtain ⟨hfd, hclosed, hfree⟩ := henabled
  suffices hdone : NameLedger W w (Pi.single p.name 1) w.lazyCleanup (queued w.lazyCleanup)
      (onRawRecvSocket W w fd t storage (p.handOff W.txt)) by
    apply sound_of_ledger
    unfold AtRest
    rwa [hdone.serving.queue]
  have hname : p.name.length < nginzMaxChatUserNameSize := by
    by_cases hn : p.name = []
    · rw [hn]
      decide
    · exact (hp.name hn).short
  have hfresh : Serving.Fresh w fd := h.serving.fresh_of_closed (by unfold invalidFd; omega) hclosed
  have hinst := hP.install hstart hfresh p.socket
  have hopen : ((Function.update w.fds fd (some p.socket)) fd).isSome := by simp
  obtain ⟨hport, hcommand⟩ := joinDatagram_command W.txt hcap hp.room hname p.destpid hs
  unfold onRawRecvSocket Passage.handOff
  dsimp only
  rw [hport, hcommand]
  dsimp only
  rw [if_pos rfl]
  generalize hv : { w with fds := Function.update w.fds fd (some p.socket) } = v at hinst
  have hfresh' : Serving.Fresh v fd := by rwa [← hv]
  have hfree' : v.chats t = none := by rwa [← hv]
  have hfds : (v.fds fd).isSome := by rwa [← hv]
  unfold onConnectionBubble
  split
  · exact hidle hinst
  dsimp only
  rw [hiddenjoinCommand_space W.txt hp.room hname, if_neg (by decide)]
  unfold pluginBridgeCall
  rw [if_neg (by decide), if_pos rfl]
  exact ledger_hiddenjoin (hP.arrive hinst hfresh' hfds hfree') (Function.update_self ..)
    (List.mem_append_right _ (List.mem_singleton_self _)) rfl hp

end Steps
end Nginz
