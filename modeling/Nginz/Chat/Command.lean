import Nginz.Scanner

/-! `command_hook`: which plugin space a command line of a client is dispatched to. -/
namespace Nginz

/-- What `command_hook` does with a request: it refuses a hidden command, it finds no
token, or it calls the bridge plugins of a space with the rest of the line. -/
inductive CommandOutcome where
  | hidden
  | noToken
  | dispatch (space rest : Bytes)
  deriving DecidableEq, Repr

/-- The plugin space in its 64-byte buffer. -/
def commandSpace (L : TxtLib) (ctoken : Bytes) : Bytes :=
  (((AroopTxt.stackbuffer L 64).concat L (lit "chat/")).concat L ctoken).content

def commandHook (L : TxtLib) (givenRequest : Bytes) : CommandOutcome :=
  let request := givenRequest.drop 1
  if request.head? = some 95 then .hidden
  else
    let ctoken := (scannerNextToken request).1
    let request := (scannerNextToken request).2
    if ctoken = [] then .noToken
    else .dispatch (commandSpace L ctoken) (request.drop 1)

/-- The plugin spaces no client command may reach. -/
def HiddenSpace (space : Bytes) : Prop := lit "chat/_" <+: space

instance (space : Bytes) : Decidable (HiddenSpace space) :=
  inferInstanceAs (Decidable (_ <+: _))

/-- What the library leaves of a command token behind the prefix. -/
def commandTail (L : TxtLib) (ctoken : Bytes) : Bytes := L.spill (L.room 64 - 5) ctoken

theorem commandSpace_eq (L : TxtLib) (ctoken : Bytes) :
    commandSpace L ctoken = lit "chat/" ++ commandTail L ctoken := by
  have hroom := L.le_room 64
  have hlit : (lit "chat/").length = 5 := by decide
  have hw : (AroopTxt.stackbuffer L 64).WellFormed := AroopTxt.buffer_wellFormed _
  have hcap : (AroopTxt.stackbuffer L 64).capacity = L.room 64 := AroopTxt.buffer_capacity _
  have hlen : (AroopTxt.stackbuffer L 64).len = 0 := rfl
  have hf : (AroopTxt.stackbuffer L 64).len + (lit "chat/").length ≤
      (AroopTxt.stackbuffer L 64).capacity := by omega
  rw [commandSpace, AroopTxt.concat_content_spill L (AroopTxt.concat_wellFormed L hw),
    AroopTxt.concat_content L hw hf, AroopTxt.concat_capacity L hw, AroopTxt.concat_len L hf, hcap,
    hlen, hlit]
  rfl

/-- Behind the prefix a space is hidden when an underscore follows. -/
theorem hiddenSpace_iff (L : TxtLib) (ctoken : Bytes) :
    HiddenSpace (commandSpace L ctoken) ↔
      ctoken.head? = some 95 ∧ commandTail L ctoken ≠ [] := by
  have hlit : lit "chat/_" = lit "chat/" ++ [95] := by decide
  have hpre := L.spill_prefix (L.room 64 - 5) ctoken
  rw [HiddenSpace, commandSpace_eq, hlit, List.prefix_append_right_inj]
  change [95] <+: commandTail L ctoken ↔ _
  change commandTail L ctoken <+: ctoken at hpre
  cases ht : commandTail L ctoken with
  | nil => simp
  | cons x xs =>
    rw [ht] at hpre
    obtain ⟨rest, rfl⟩ := hpre
    simp [List.cons_prefix_cons, eq_comm]

/-- The command token of the line `'/' :: body`. -/
def commandToken (body : Bytes) : Bytes :=
  (body.dropWhile isSeparator).takeWhile (! isSeparator ·)

/-- A line dispatches when its byte behind the slash is no underscore and it has a token. -/
theorem commandHook_dispatch_iff (L : TxtLib) (body space rest : Bytes) :
    commandHook L (47 :: body) = .dispatch space rest ↔
      body.head? ≠ some 95 ∧ commandToken body ≠ [] ∧ space = commandSpace L (commandToken body) ∧
        rest = ((body.dropWhile isSeparator).dropWhile (! isSeparator ·)).drop 1 := by
  simp only [commandHook, List.drop_succ_cons, List.drop_zero, scannerNextToken_eq]
  change (if body.head? = some 95 then CommandOutcome.hidden else
    if commandToken body = [] then .noToken else .dispatch (commandSpace L (commandToken body)) _) =
      _ ↔ _
  by_cases h1 : body.head? = some 95
  · simp [h1]
  · by_cases h2 : commandToken body = []
    · simp [h1, h2]
    · simp [h1, h2, eq_comm]

theorem takeWhile_head {p : UInt8 → Bool} {xs : Bytes} {c : UInt8} (hc : p c) :
    (xs.takeWhile p).head? = some c ↔ xs.head? = some c := by
  cases xs with
  | nil => simp
  | cons x xs =>
    by_cases hx : p x
    · simp [hx]
    · simp only [List.takeWhile_cons, hx, Bool.false_eq_true, ↓reduceIte, List.head?_nil,
        List.head?_cons, Option.some.injEq, false_iff, reduceCtorEq]
      rintro rfl
      exact hx hc

theorem commandToken_head (body : Bytes) :
    (commandToken body).head? = some 95 ↔ (body.dropWhile isSeparator).head? = some 95 :=
  takeWhile_head (by decide)

/-- A client line reaches no hidden space exactly when it does not start with a slash, a
separator and, as its first other byte, an underscore of which the plugin space keeps
something. -/
theorem command_hook_hidden_iff (L : TxtLib) (line : Bytes) :
    (∀ space rest, commandHook L (47 :: line ++ [10]) = .dispatch space rest →
      ¬ HiddenSpace space) ↔ ¬ (∃ c, (line ++ [10]).head? = some c ∧ isSeparator c ∧
        ((line ++ [10]).dropWhile isSeparator).head? = some 95 ∧
          commandTail L (commandToken (line ++ [10])) ≠ []) := by
  generalize hbody : line ++ [10] = body
  have hcons : 47 :: line ++ [10] = 47 :: body := by rw [← hbody]; rfl
  simp only [hcons, commandHook_dispatch_iff]
  constructor
  · rintro h ⟨c, hc, hsep, hus, htail⟩
    have hne : body.head? ≠ some 95 := by
      rw [hc]
      intro he
      rw [Option.some.inj he] at hsep
      exact absurd hsep (by decide)
    have htok : (commandToken body).head? = some 95 := (commandToken_head body).mpr hus
    have hsome : commandToken body ≠ [] := by
      intro hnil
      simp [hnil] at htok
    exact h _ _ ⟨hne, hsome, rfl, rfl⟩ ((hiddenSpace_iff L _).mpr ⟨htok, htail⟩)
  · rintro h space rest ⟨hne, -, rfl, -⟩ hhid
    obtain ⟨htok, htail⟩ := (hiddenSpace_iff L _).mp hhid
    have hus := (commandToken_head body).mp htok
    cases body with
    | nil => simp at hus
    | cons c rest =>
      by_cases hsep : isSeparator c
      · exact h ⟨c, rfl, hsep, hus, htail⟩
      · rw [List.dropWhile_cons_of_neg hsep] at hus
        exact hne hus

/-- A blank behind the slash hides the underscore from the check, and the line reaches the plugin
of the hidden space. -/
theorem command_hook_reaches_hiddenjoin :
    commandHook .cutting (lit "/ _hiddenjoin ONE bob\n") =
        .dispatch (lit "chat/_hiddenjoin") (lit "ONE bob\n") ∧
      HiddenSpace (lit "chat/_hiddenjoin") := by
  decide +kernel

end Nginz
