-- SUMMARY: Programs over a shared object, and their interleavings.
import Syslogc.Lib.Transition

/-!
# Interleaved programs

A program calls operations of a shared object one at a time and goes on with their
answers. Several programs run side by side: a step starts one, or makes the next call of
one that runs. Only calls change the object, so what each operation preserves every
interleaving preserves.
-/

namespace Interleaving

/-- A program over operations `Op` with answers `Ans`. -/
inductive Prog (Op : Type) (Ans : Op → Type) (α : Type) : Type
  | done (a : α)
  | call (op : Op) (next : Ans op → Prog Op Ans α)

variable {Op : Type} {Ans : Op → Type} {α β σ ρ : Type}

def Prog.bind : Prog Op Ans α → (α → Prog Op Ans β) → Prog Op Ans β
  | .done a, f => f a
  | .call op next, f => .call op fun ans => (next ans).bind f

instance : Monad (Prog Op Ans) where
  pure := .done
  bind := Prog.bind

/-- Every call that the program can still make meets `P`. -/
def Prog.Only (P : Op → Prop) : Prog Op Ans α → Prop
  | .done _ => True
  | .call op next => P op ∧ ∀ ans, (next ans).Only P

theorem Prog.Only.bind {P : Op → Prop} {p : Prog Op Ans α} {f : α → Prog Op Ans β} (hp : p.Only P)
    (hf : ∀ a, (f a).Only P) : (p.bind f).Only P := by
  induction p with
  | done a => exact hf a
  | call op next ih => exact ⟨hp.1, fun ans => ih ans (hp.2 ans)⟩

theorem Prog.Only.mono {P Q : Op → Prop} (hPQ : ∀ op, P op → Q op) {p : Prog Op Ans α} (h : p.Only P) : p.Only Q := by
  induction p with
  | done a => trivial
  | call op next ih => exact ⟨hPQ op h.1, fun ans => ih ans (h.2 ans)⟩

/-- The shared object and the programs that run. -/
structure Pool (σ Op : Type) (Ans : Op → Type) (α : Type) where
  shared : σ
  running : List (Prog Op Ans α) := []

inductive Label (ρ : Type)
  | start (request : ρ)
  | advance (i : Nat)

/-- The call a step makes. -/
def Pool.next (s : Pool σ Op Ans α) : Label ρ → Option Op
  | .start _ => none
  | .advance i =>
    match s.running[i]? with
    | some (.call op _) => some op
    | _ => none

/-- A request that is admitted starts a program; a program that runs makes its next call. -/
def step (launch : σ → ρ → Option (Prog Op Ans α)) (exec : σ → (op : Op) → Ans op × σ)
    (s : Pool σ Op Ans α) : Label ρ → Option (Pool σ Op Ans α)
  | .start r => (launch s.shared r).map fun p => { s with running := s.running ++ [p] }
  | .advance i =>
    match s.running[i]? with
    | some (.call op next) =>
      let (ans, shared) := exec s.shared op
      some { shared, running := s.running.set i (next ans) }
    | _ => none

variable {launch : σ → ρ → Option (Prog Op Ans α)} {exec : σ → (op : Op) → Ans op × σ}
variable {s s' : Pool σ Op Ans α}

theorem step_advance {i : Nat} (h : step launch exec s (.advance i) = some s') :
    ∃ op next, s.running[i]? = some (.call op next) ∧
      s' = ⟨(exec s.shared op).2, s.running.set i (next (exec s.shared op).1)⟩ := by
  simp only [step] at h
  cases hp : s.running[i]? with
  | none => simp [hp] at h
  | some p =>
    cases p with
    | done a => simp [hp] at h
    | call op next =>
      simp only [hp, Option.some.injEq] at h
      exact ⟨op, next, rfl, h.symm⟩

end Interleaving
