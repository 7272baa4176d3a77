import Nginz.AroopTxt
import Nginz.Lib.Words

/-! The tokenizer `scanner_next_token`, the token it yields, and the tokens of a text. -/
namespace Nginz
open Words

def isSeparator (x : UInt8) : Bool := x == 32 || x == 13 || x == 10

/-- The loop over the bytes from index `i` on: the final `i`, `token_start` and
`trim_at`, where `none` stands for `-1`. -/
def scanLoop : Bytes → ℕ → Option ℕ → ℕ × Option ℕ × Option ℕ
  | [], i, tokenStart => (i, tokenStart, none)
  | x :: xs, i, tokenStart =>
    if isSeparator x then
      match tokenStart with
      | none => scanLoop xs (i + 1) none
      | some start => (i, some start, some i)
    else scanLoop xs (i + 1) (some (tokenStart.getD i))

/-- The token and the source afterwards. -/
def scannerNextToken (src : Bytes) : Bytes × Bytes :=
  match scanLoop src 0 none with
  | (i, some start, some trim) => ((src.take trim).drop start, src.drop i)
  | (i, some start, none) => (src.drop start, src.drop i)
  | (i, none, _) => ([], src.drop i)

theorem drop_takeWhile_length (p : UInt8 → Bool) (xs : Bytes) :
    xs.drop (xs.takeWhile p).length = xs.dropWhile p := by
  nth_rewrite 2 [← List.takeWhile_append_dropWhile (p := p) (l := xs)]
  exact List.drop_left

theorem take_takeWhile_length (p : UInt8 → Bool) (xs : Bytes) :
    xs.take (xs.takeWhile p).length = xs.takeWhile p := by
  nth_rewrite 2 [← List.takeWhile_append_dropWhile (p := p) (l := xs)]
  exact List.take_left

/-- Inside a token the loop runs to the next separator. -/
theorem scanLoop_inside (xs : Bytes) (i start : ℕ) :
    scanLoop xs i (some start) =
      (i + (xs.takeWhile (! isSeparator ·)).length, some start,
        if xs.dropWhile (! isSeparator ·) = [] then none
        else some (i + (xs.takeWhile (! isSeparator ·)).length)) := by
  induction xs generalizing i with
  | nil => simp [scanLoop]
  | cons x xs ih =>
    by_cases hx : isSeparator x
    · simp [scanLoop, hx]
    · simp [scanLoop, hx, ih, Nat.add_assoc, Nat.add_comm 1]

/-- Before a token the loop skips the separators. -/
theorem scanLoop_outside (xs : Bytes) (i : ℕ) :
    scanLoop xs i none =
      match xs.dropWhile isSeparator with
      | [] => (i + xs.length, none, none)
      | y :: ys => scanLoop (y :: ys) (i + (xs.takeWhile isSeparator).length) none := by
  induction xs generalizing i with
  | nil => simp [scanLoop]
  | cons x xs ih =>
    by_cases hx : isSeparator x
    · simp only [scanLoop, hx, ↓reduceIte, ih, List.dropWhile_cons_of_pos,
        List.takeWhile_cons_of_pos, List.length_cons]
      cases xs.dropWhile isSeparator with
      | nil => simp only [Nat.add_right_comm i 1, Nat.add_assoc]
      | cons y ys => simp only [Nat.add_right_comm i 1, Nat.add_assoc]
    · simp [hx]

/-- The token is the first maximal run of other bytes, and the source becomes what
follows it. -/
theorem scannerNextToken_eq (src : Bytes) :
    scannerNextToken src =
      ((src.dropWhile isSeparator).takeWhile (! isSeparator ·),
        (src.dropWhile isSeparator).dropWhile (! isSeparator ·)) := by
  have hsplit : src.takeWhile isSeparator ++ src.dropWhile isSeparator = src :=
    List.takeWhile_append_dropWhile
  rw [scannerNextToken, scanLoop_outside]
  cases hd : src.dropWhile isSeparator with
  | nil => simp
  | cons y ys =>
    have hy : isSeparator y = false := by
      have hne : src.dropWhile isSeparator ≠ [] := by simp [hd]
      simpa [hd] using List.head_dropWhile_not isSeparator hne
    rw [hd] at hsplit
    have hstart : src.drop (src.takeWhile isSeparator).length = y :: ys := by
      rw [drop_takeWhile_length, hd]
    have hrest : src.drop ((src.takeWhile isSeparator).length + 1 +
        (ys.takeWhile (! isSeparator ·)).length) = ys.dropWhile (! isSeparator ·) := by
      rw [Nat.add_assoc, ← List.drop_drop, hstart, Nat.add_comm 1, List.drop_succ_cons,
        drop_takeWhile_length]
    simp only [scanLoop, hy, Bool.false_eq_true, ↓reduceIte, Option.getD_none, zero_add,
      scanLoop_inside]
    by_cases hend : ys.dropWhile (! isSeparator ·) = []
    · have htok : ys.takeWhile (! isSeparator ·) = ys := by
        conv_rhs => rw [← List.takeWhile_append_dropWhile (p := (! isSeparator ·)) (l := ys), hend,
          List.append_nil]
      rw [hend, htok] at hrest
      simp only [hend, ↓reduceIte, hrest, hstart, Bool.not_false, List.takeWhile_cons_of_pos,
        List.dropWhile_cons_of_pos, htok, hy]
    · have htake : (src.take ((src.takeWhile isSeparator).length + 1 +
          (ys.takeWhile (! isSeparator ·)).length)).drop (src.takeWhile isSeparator).length =
            y :: ys.takeWhile (! isSeparator ·) := by
        rw [List.drop_take, hstart, Nat.add_assoc, Nat.add_sub_cancel_left, Nat.add_comm 1,
          List.take_succ_cons, take_takeWhile_length]
      simp only [hend, ↓reduceIte, hrest, htake, hy, Bool.not_false, List.takeWhile_cons_of_pos,
        List.dropWhile_cons_of_pos]

/-- A word that a separator ends is the token, whatever separators stand in front of it. -/
theorem scannerNextToken_word (seps rest : Bytes) {word : Bytes} {sep : UInt8}
    (hseps : ∀ x ∈ seps, isSeparator x = true) (hne : word ≠ [])
    (hword : ∀ x ∈ word, isSeparator x = false) (hsep : isSeparator sep = true) :
    scannerNextToken (seps ++ (word ++ sep :: rest)) = (word, sep :: rest) := by
  have hstart : (word ++ sep :: rest).dropWhile isSeparator = word ++ sep :: rest := by
    obtain ⟨x, xs, rfl⟩ := List.exists_cons_of_ne_nil hne
    rw [List.cons_append, List.dropWhile_cons_of_neg]
    simp [hword x List.mem_cons_self]
  have hin : ∀ x ∈ word, (! isSeparator x) = true := by
    intro x hx
    simp [hword x hx]
  rw [scannerNextToken_eq, List.dropWhile_append_of_pos hseps, hstart,
    List.takeWhile_append_of_pos hin, List.dropWhile_append_of_pos hin]
  simp [hsep]

/-- A token is at least as far from the end of the text as what follows it. -/
theorem scannerNextToken_length (src : Bytes) :
    (scannerNextToken src).1.length + (scannerNextToken src).2.length ≤ src.length := by
  have hskip := (List.dropWhile_sublist isSeparator (l := src)).length_le
  have hsplit := congrArg List.length (List.takeWhile_append_dropWhile
    (p := (! isSeparator ·)) (l := src.dropWhile isSeparator))
  rw [List.length_append] at hsplit
  rw [scannerNextToken_eq]
  dsimp only
  omega

/-- Behind a token, the next one follows a separator. -/
theorem scannerNextToken_next {src : Bytes}
    (hne : (scannerNextToken (scannerNextToken src).2).1 ≠ []) :
    (scannerNextToken (scannerNextToken src).2).1.length +
        (scannerNextToken (scannerNextToken src).2).2.length + 1 ≤
      (scannerNextToken src).2.length := by
  generalize hrest : (scannerNextToken src).2 = rest at hne ⊢
  rw [scannerNextToken_eq] at hrest
  dsimp only at hrest
  cases rest with
  | nil => exact absurd (by decide) hne
  | cons c rest =>
    have hsep : isSeparator c = true := by
      have hne : (src.dropWhile isSeparator).dropWhile (! isSeparator ·) ≠ [] := by simp [hrest]
      have hhead := List.head_dropWhile_not (! isSeparator ·) hne
      simpa [hrest] using hhead
    have hsame : scannerNextToken (c :: rest) = scannerNextToken rest := by
      rw [scannerNextToken_eq, scannerNextToken_eq, List.dropWhile_cons_of_pos hsep]
    have hlen := scannerNextToken_length rest
    rw [hsame, List.length_cons]
    omega

/-- A word at the end of the text is the token, too. -/
theorem scannerNextToken_last {word : Bytes} (hne : word ≠ [])
    (hword : ∀ x ∈ word, isSeparator x = false) :
    scannerNextToken (32 :: word) = (word, []) := by
  have hstart : (32 :: word).dropWhile isSeparator = word := by
    obtain ⟨x, xs, rfl⟩ := List.exists_cons_of_ne_nil hne
    rw [List.dropWhile_cons_of_pos (by decide), List.dropWhile_cons_of_neg]
    simp [hword x List.mem_cons_self]
  have hall : ∀ x ∈ word, (! isSeparator x) = true := fun x hx => by simp [hword x hx]
  rw [scannerNextToken_eq, hstart, List.takeWhile_eq_self_iff.mpr hall,
    List.dropWhile_eq_nil_iff.mpr hall]

/-! ### All tokens of a text -/

/-- A call of `scanner_next_token`: the source before it, the token, and the source
afterwards. -/
structure ScannerCall where
  src : Bytes
  token : Bytes
  rest : Bytes
  deriving DecidableEq, Repr

def scannerCall (src : Bytes) : ScannerCall :=
  ⟨src, (scannerNextToken src).1, (scannerNextToken src).2⟩

/-- The calls up to the one that yields an empty token, and `none` when there is none among
the first ones. -/
def scannerCalls : ℕ → Bytes → Option (List ScannerCall)
  | 0, _ => none
  | calls + 1, src =>
    let call := scannerCall src
    if call.token = [] then some [call]
    else (scannerCalls calls call.rest).map (call :: ·)

/-- The call skips separators, takes a run of other bytes and stops at a separator or at the
end. -/
structure ScannerCall.Splits (call : ScannerCall) : Prop where
  whole : ∃ skipped, (∀ x ∈ skipped, isSeparator x) ∧
    call.src = skipped ++ (call.token ++ call.rest)
  token : ∀ x ∈ call.token, isSeparator x = false
  stop : ∀ x ∈ call.rest.head?, isSeparator x

theorem scannerCall_splits (src : Bytes) : (scannerCall src).Splits := by
  unfold scannerCall
  rw [scannerNextToken_eq]
  refine ⟨⟨src.takeWhile isSeparator, fun x => List.mem_takeWhile_imp, ?_⟩, fun x hx => ?_,
    fun x hx => ?_⟩
  · rw [List.takeWhile_append_dropWhile, List.takeWhile_append_dropWhile]
  · simpa using List.mem_takeWhile_imp hx
  · have h := List.head?_dropWhile_not (! isSeparator ·) (src.dropWhile isSeparator)
    rw [Option.mem_def.mp hx] at h
    simpa using h

/-- Without a token there is nothing left. -/
theorem scannerCall_last {src : Bytes} (h : (scannerCall src).token = []) :
    words isSeparator src = [] ∧ (scannerCall src).rest = [] := by
  unfold scannerCall at h ⊢
  rw [scannerNextToken_eq] at h ⊢
  have hend : src.dropWhile isSeparator = [] := by
    by_contra hne
    have hhead := List.head_dropWhile_not isSeparator hne
    cases hd : src.dropWhile isSeparator with
    | nil => exact hne hd
    | cons x xs =>
      simp only [hd, List.head_cons] at hhead h
      simp [hhead] at h
  refine ⟨?_, ?_⟩
  · rw [← words_dropWhile, hend, words_nil]
  · simp [hend]

/-- A token is the first word, and the source keeps the other ones. -/
theorem scannerCall_word {src : Bytes} (h : (scannerCall src).token ≠ []) :
    words isSeparator src =
      (scannerCall src).token :: words isSeparator (scannerCall src).rest := by
  unfold scannerCall at h ⊢
  rw [scannerNextToken_eq] at h ⊢
  refine words_eq_cons fun hend => h ?_
  simp [hend]

/-- A token makes the source shorter. -/
theorem scannerCall_rest_lt {src : Bytes} (h : (scannerCall src).token ≠ []) :
    (scannerCall src).rest.length < src.length := by
  obtain ⟨skipped, -, hwhole⟩ := (scannerCall_splits src).whole
  have hlength := congrArg List.length hwhole
  have hpos := List.length_pos_iff.mpr h
  simp only [List.length_append] at hlength
  have hsrc : (scannerCall src).src = src := rfl
  rw [hsrc] at hlength
  omega

/-- The calls yield the words of the source in order and then nothing; each splits its source,
and the next one goes on with what it leaves. -/
structure Tokenizes (calls : List ScannerCall) (src : Bytes) : Prop where
  count : calls.length ≤ src.length + 1
  tokens : calls.map ScannerCall.token = words isSeparator src ++ [[]]
  splits : ∀ call ∈ calls, call.Splits
  first : calls.head?.map ScannerCall.src = some src
  next : calls.IsChain fun call later => later.src = call.rest
  last : calls.getLast?.map ScannerCall.rest = some []

theorem Tokenizes.single {src : Bytes} (h : (scannerCall src).token = []) :
    Tokenizes [scannerCall src] src := by
  obtain ⟨hwords, hrest⟩ := scannerCall_last h
  refine ⟨by simp, ?_, ?_, rfl, .singleton _, ?_⟩
  · rw [hwords, List.map_singleton, h, List.nil_append]
  · exact fun call hcall => List.mem_singleton.mp hcall ▸ scannerCall_splits src
  · rw [List.getLast?_singleton, Option.map_some, hrest]

theorem Tokenizes.cons {src : Bytes} (h : (scannerCall src).token ≠ []) {calls : List ScannerCall}
    (hcalls : Tokenizes calls (scannerCall src).rest) :
    Tokenizes (scannerCall src :: calls) src := by
  have hlt := scannerCall_rest_lt h
  have hcount := hcalls.count
  cases calls with
  | nil => exact absurd hcalls.first (by simp)
  | cons later calls =>
    have hnext : later.src = (scannerCall src).rest := Option.some.inj hcalls.first
    refine ⟨?_, ?_, ?_, rfl, hcalls.next.cons_cons hnext, ?_⟩
    · rw [List.length_cons]
      omega
    · rw [List.map_cons, hcalls.tokens, scannerCall_word h, List.cons_append]
    · exact List.forall_mem_cons.mpr ⟨scannerCall_splits src, hcalls.splits⟩
    · rw [List.getLast?_cons_cons]
      exact hcalls.last

/-- Calling until the token is empty ends after at most one call more than the source has
bytes, and tokenizes it. -/
theorem tokenizing_splits (src : Bytes) :
    ∃ calls, scannerCalls (src.length + 1) src = some calls ∧ Tokenizes calls src := by
  -- more calls than needed change nothing, so the induction is on their number
  have hcalls (n : ℕ) : ∀ src : Bytes, src.length < n →
      ∃ calls, scannerCalls n src = some calls ∧ Tokenizes calls src := by
    induction n with
    | zero => exact fun src h => absurd h (Nat.not_lt_zero _)
    | succ n ih =>
      intro src hlen
      by_cases htoken : (scannerCall src).token = []
      · exact ⟨[scannerCall src], if_pos htoken, .single htoken⟩
      · have hlt := scannerCall_rest_lt htoken
        obtain ⟨calls, hrun, htokenizes⟩ := ih (scannerCall src).rest (by omega)
        refine ⟨scannerCall src :: calls, ?_, htokenizes.cons htoken⟩
        show (if (scannerCall src).token = [] then _ else _) = _
        rw [if_neg htoken, hrun]
        rfl
  exact hcalls (src.length + 1) src (Nat.lt_succ_self _)

/-- The sentence of the scanner test has seven tokens. -/
example : (scannerCalls 60 (lit "NginZ is a scalable communication server framework.")).map
    (fun calls => (calls.map ScannerCall.token).length) = some 8 := by decide +kernel

end Nginz
