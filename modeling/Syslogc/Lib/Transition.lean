-- SUMMARY: Partial labelled transitions and their invariant rules.
import Mathlib

/-!
# Runs of a labelled transition function

A system is given by a partial step function `σ → α → Option σ`: `none` means
that the label is not enabled in the state. A run takes a list of labels in
order. The rules at the end turn a fact about one step into a fact about every
run, with or without a guard on the steps that are taken.
-/

namespace Transition

variable {σ α : Type*}

/-- Take the labels in order; `none` as soon as one of them is not enabled. -/
def run (step : σ → α → Option σ) : σ → List α → Option σ
  | s, [] => some s
  | s, a :: as => (step s a).bind fun s' => run step s' as

variable {step : σ → α → Option σ}

variable {s : σ} {as : List α}

@[simp] theorem run_cons {a : α} :
    run step s (a :: as) = (step s a).bind fun s' => run step s' as := rfl

/-- Every step the run takes is taken from a state and with a label that meet `G`. -/
def Guarded (step : σ → α → Option σ) (G : σ → α → Prop) : σ → List α → Prop
  | _, [] => True
  | s, a :: as => ∀ s', step s a = some s' → G s a ∧ Guarded step G s' as

instance Guarded.decidable {G : σ → α → Prop} [∀ s a, Decidable (G s a)] :
    ∀ (s : σ) (as : List α), Decidable (Guarded step G s as)
  | _, [] => .isTrue trivial
  | s, a :: as =>
    match hstep : step s a with
    | none => .isTrue (by simp [Guarded, hstep])
    | some t =>
      have : Decidable (Guarded step G t as) := Guarded.decidable t as
      decidable_of_iff (G s a ∧ Guarded step G t as) (by simp [Guarded, hstep])

/-- `P` holds in every state the run passes through. -/
def Always (step : σ → α → Option σ) (P : σ → Prop) : σ → List α → Prop
  | s, [] => P s
  | s, a :: as => P s ∧ ∀ s', step s a = some s' → Always step P s' as

variable {P : σ → Prop}

theorem Always.head (h : Always step P s as) : P s := by
  cases as with
  | nil => exact h
  | cons a as => exact h.1

theorem Always.last {s' : σ} (h : Always step P s as) (hrun : run step s as = some s') :
    P s' := by
  induction as generalizing s with
  | nil => cases hrun; exact h
  | cons a as ih =>
    obtain ⟨t, ht, hrest⟩ := Option.bind_eq_some_iff.mp hrun
    exact ih (h.2 t ht) hrest

theorem Always.imp {Q : σ → Prop} (hPQ : ∀ s, P s → Q s) (h : Always step P s as) :
    Always step Q s as := by
  induction as generalizing s with
  | nil => exact hPQ s h
  | cons a as ih => exact ⟨hPQ s h.1, fun s' hs' => ih (h.2 s' hs')⟩

variable {G : σ → α → Prop} {I : σ → Prop}

/-- What every guarded step preserves holds in every state a guarded run passes through. -/
theorem Guarded.always (hstep : ∀ s a s', I s → G s a → step s a = some s' → I s')
    (hinit : I s) (h : Guarded step G s as) : Always step I s as := by
  induction as generalizing s with
  | nil => exact hinit
  | cons a as ih => exact ⟨hinit, fun s' hs' => ih (hstep s a s' hinit (h s' hs').1 hs') (h s' hs').2⟩

/-- If a step between states with `P` meets `G`, so do all steps of a run that stays in `P`. The
invariant `I` holds in every run and may be used for the step. -/
theorem Always.guarded (hinv : ∀ s a s', I s → step s a = some s' → I s')
    (hstep : ∀ s a s', I s → P s → step s a = some s' → P s' → G s a) (hI : I s)
    (h : Always step P s as) : Guarded step G s as := by
  induction as generalizing s with
  | nil => trivial
  | cons a as ih =>
    intro s' hs'
    exact ⟨hstep s a s' hI h.1 hs' (h.2 s' hs').head, ih (hinv s a s' hI hs') (h.2 s' hs')⟩

/-- If from a state with `P` a step leads to a state with `P` exactly when it meets
`G`, then the runs that stay in `P` are the runs whose steps all meet `G`. -/
theorem always_iff_guarded
    (hinv : ∀ s a s', I s → step s a = some s' → I s')
    (hstep : ∀ s a s', I s → P s → step s a = some s' → (P s' ↔ G s a))
    (hI : I s) (hP : P s) (as : List α) :
    Always step P s as ↔ Guarded step G s as := by
  refine ⟨Always.guarded hinv (fun s a s' hI hP hs' => (hstep s a s' hI hP hs').mp) hI, fun h => ?_⟩
  have hboth : Always step (fun s => I s ∧ P s) s as := h.always (fun s a s' hs hG hs' =>
    ⟨hinv s a s' hs.1 hs', (hstep s a s' hs.1 hs.2 hs').mpr hG⟩) ⟨hI, hP⟩
  exact hboth.imp fun s hs => hs.2

/-- An invariant of the labels taken and the state. A step may use that its label meets `Q` and
stands in the relation `R` to those before it. -/
theorem always_of_pairwise {Q : α → Prop} {R : α → α → Prop} {I : List α → σ → Prop}
    (hP : ∀ past s, I past s → P s)
    (hstep : ∀ past s a s', I past s → Q a → (∀ b ∈ past, R b a) → step s a = some s' → I (a :: past) s')
    {past : List α} (hinit : I past s) (hpast : ∀ b ∈ past, ∀ a ∈ as, R b a)
    (hQ : ∀ a ∈ as, Q a) (h : as.Pairwise R) : Always step P s as := by
  induction as generalizing past s with
  | nil => exact hP past s hinit
  | cons a as ih =>
    obtain ⟨ha, has⟩ := List.pairwise_cons.mp h
    have hbefore : ∀ b ∈ past, R b a := fun b hb => hpast b hb a List.mem_cons_self
    refine ⟨hP past s hinit, fun s' hs' => ih (hstep past s a s' hinit (hQ a List.mem_cons_self) hbefore hs') ?_
      (fun a' ha' => hQ a' (List.mem_cons_of_mem _ ha')) has⟩
    intro b hb a' ha'
    obtain rfl | hb := List.mem_cons.mp hb
    · exact ha a' ha'
    · exact hpast b hb a' (List.mem_cons_of_mem _ ha')

/-- What every guarded step preserves holds at the end of every guarded run. -/
theorem Guarded.invariant {s' : σ}
    (hstep : ∀ s a s', I s → G s a → step s a = some s' → I s')
    (hinit : I s) (hguard : Guarded step G s as) (hrun : run step s as = some s') : I s' := by
  induction as generalizing s with
  | nil => cases hrun; exact hinit
  | cons a as ih =>
    obtain ⟨t, ht, hrest⟩ := Option.bind_eq_some_iff.mp hrun
    obtain ⟨hG, hguard⟩ := hguard t ht
    exact ih (hstep s a t hinit hG ht) hguard hrest

/-- A guard that follows from another one at the states which runs under that one reach. -/
theorem Guarded.imp {G' : σ → α → Prop}
    (hstep : ∀ s a s', I s → G s a → step s a = some s' → I s')
    (himp : ∀ s a s', I s → G s a → step s a = some s' → G' s a)
    (hinit : I s) (h : Guarded step G s as) : Guarded step G' s as := by
  induction as generalizing s with
  | nil => trivial
  | cons a as ih =>
    intro s' hs'
    obtain ⟨hG, hrest⟩ := h s' hs'
    exact ⟨himp s a s' hinit hG hs', ih (hstep s a s' hinit hG hs') hrest⟩

/-- Two guards that agree at the states which runs under a third one reach. -/
theorem Guarded.congr {G₁ G₂ : σ → α → Prop}
    (hstep : ∀ s a s', I s → G s a → step s a = some s' → I s')
    (hiff : ∀ s a s', I s → G s a → step s a = some s' → (G₁ s a ↔ G₂ s a))
    (hinit : I s) (h : Guarded step G s as) : Guarded step G₁ s as ↔ Guarded step G₂ s as := by
  induction as generalizing s with
  | nil => exact Iff.rfl
  | cons a as ih =>
    refine forall_congr' fun s' => forall_congr' fun hs' => ?_
    obtain ⟨hG, hrest⟩ := h s' hs'
    exact and_congr (hiff s a s' hinit hG hs') (ih (hstep s a s' hinit hG hs') hrest)

/-- What every step preserves holds at the end of every run. -/
theorem run_invariant {s' : σ}
    (hstep : ∀ s a s', I s → step s a = some s' → I s')
    (hinit : I s) (hrun : run step s as = some s') : I s' := by
  induction as generalizing s with
  | nil => cases hrun; exact hinit
  | cons a as ih =>
    obtain ⟨t, ht, hrest⟩ := Option.bind_eq_some_iff.mp hrun
    exact ih (hstep s a t hinit ht) hrest

end Transition
