import Mathlib.Tactic

/-! Work on a state that logs what it does, beside a table that is brought up to date from the
log: rules of pre- and postconditions. -/
namespace Replay
variable {σ ε τ α : Type*} (log : σ → List ε) (after : τ → ε → τ)

/-- The table, up to date with a state that has moved on. -/
def settle (s : σ) (x : τ) (s' : σ) : τ := ((log s').drop (log s).length).foldl after x

/-- From states and tables as described the work only adds to the log, and when the table is up
to date with it, both are as described. -/
def Does (P : σ → τ → Prop) (f : σ → σ) (Q : σ → τ → Prop) : Prop :=
  ∀ s x, P s x → log s <+: log (f s) ∧ Q (f s) (settle log after s x (f s))

variable {log after} {s s' s'' : σ} {x : τ} {P Q R : σ → τ → Prop} {f g : σ → σ}

theorem settle_append {es : List ε} (h : log s' = log s ++ es) :
    settle log after s x s' = es.foldl after x := by
  unfold settle
  rw [h, List.drop_left]

theorem settle_same (h : log s' = log s) : settle log after s x s' = x :=
  settle_append (h.trans (List.append_nil _).symm)

theorem settle_settle (h : log s <+: log s') (h' : log s' <+: log s'') :
    settle log after s' (settle log after s x s') s'' = settle log after s x s'' := by
  obtain ⟨es, hs⟩ := h
  obtain ⟨es', hs'⟩ := h'
  rw [settle_append hs.symm, settle_append hs'.symm, ← List.foldl_append]
  refine (settle_append ?_).symm
  rw [← List.append_assoc, hs, hs']

namespace Does

theorem of_log {es : σ → List ε} (hlog : ∀ s, log (f s) = log s ++ es s)
    (h : ∀ s x, P s x → Q (f s) ((es s).foldl after x)) : Does log after P f Q := by
  intro s x hs
  refine ⟨⟨_, (hlog s).symm⟩, ?_⟩
  rw [settle_append (hlog s)]
  exact h s x hs

/-- Work that logs nothing. -/
theorem quiet (hlog : ∀ s, log (f s) = log s) (h : ∀ s x, P s x → Q (f s) x) :
    Does log after P f Q :=
  of_log (fun s => (hlog s).trans (List.append_nil _).symm) h

theorem skip (h : ∀ s x, P s x → Q s x) : Does log after P (fun s => s) Q :=
  quiet (fun _ => rfl) h

theorem comp (hf : Does log after P f Q) (hg : Does log after Q g R) :
    Does log after P (fun s => g (f s)) R := by
  intro s x hs
  obtain ⟨hlog, hq⟩ := hf s x hs
  obtain ⟨hlog', hr⟩ := hg (f s) _ hq
  rw [settle_settle hlog hlog'] at hr
  exact ⟨hlog.trans hlog', hr⟩

theorem weaken {P' Q' : σ → τ → Prop} (hf : Does log after P f Q) (hP : ∀ s x, P' s x → P s x)
    (hQ : ∀ s x, Q s x → Q' s x) : Does log after P' f Q' := fun s x hs =>
  ⟨(hf s x (hP s x hs)).1, hQ _ _ (hf s x (hP s x hs)).2⟩

theorem ite {c : σ → Prop} [DecidablePred c] (hf : Does log after (fun s x => P s x ∧ c s) f Q)
    (hg : Does log after (fun s x => P s x ∧ ¬ c s) g Q) :
    Does log after P (fun s => if c s then f s else g s) Q := by
  intro s x hs
  dsimp only
  split_ifs with hc
  · exact hf s x ⟨hs, hc⟩
  · exact hg s x ⟨hs, hc⟩

/-- A loop whose turns keep a property. -/
theorem foldl {act : σ → α → σ} {as : List α}
    (h : ∀ a ∈ as, Does log after P (fun s => act s a) P) :
    Does log after P (fun s => as.foldl act s) P := by
  induction as with
  | nil => exact skip fun _ _ hs => hs
  | cons a as ih =>
    obtain ⟨ha, has⟩ := List.forall_mem_cons.mp h
    exact ha.comp (ih has)

/-- A loop one of whose turns brings about what the others keep. -/
theorem foldl_reach {act : σ → α → σ} {as : List α} {a : α} (ha : a ∈ as)
    (hbefore : ∀ b ∈ as, Does log after P (fun s => act s b) P)
    (hturn : Does log after P (fun s => act s a) Q)
    (hbehind : ∀ b ∈ as, Does log after Q (fun s => act s b) Q) :
    Does log after P (fun s => as.foldl act s) Q := by
  obtain ⟨front, back, rfl⟩ := List.append_of_mem ha
  have hfront := foldl fun b hb => hbefore b (List.mem_append_left _ hb)
  have hback := foldl fun b hb =>
    hbehind b (List.mem_append_right _ (List.mem_cons_of_mem _ hb))
  simp only [List.foldl_append]
  exact hfront.comp (hturn.comp hback)

end Does

end Replay
