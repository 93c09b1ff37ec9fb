-- SUMMARY: Sums over a list of which one component changes.
import Mathlib

/-!
# Sums over indexed components

A concurrent state keeps its components in a list and a step replaces one of
them. The lemmas below say what that does to a sum over all components: it
grows or shrinks by what the one component gained or lost.
-/

namespace Sums

variable {α M : Type*} [AddCommMonoid M]

/-- The sum of `f` over the components. -/
def total (f : α → M) (l : List α) : M := (l.map f).sum

@[simp] theorem total_nil (f : α → M) : total f [] = 0 := rfl

@[simp] theorem total_cons (f : α → M) (a : α) (l : List α) :
    total f (a :: l) = f a + total f l := by
  simp [total]

@[simp] theorem total_append (f : α → M) (l l' : List α) :
    total f (l ++ l') = total f l + total f l' := by
  simp [total]

theorem total_replicate_zero {f : α → M} {a : α} (h : f a = 0) (n : Nat) :
    total f (List.replicate n a) = 0 := by
  simp [total, h]

theorem total_eq_zero {f : α → M} {l : List α} (h : ∀ a ∈ l, f a = 0) : total f l = 0 := by
  induction l with
  | nil => rfl
  | cons a l ih =>
    rw [total_cons, h a (by simp), ih fun b hb => h b (by simp [hb]), add_zero]

/-- Replacing one component exchanges its contribution. -/
theorem total_set (f : α → M) {l : List α} {j : Nat} {a : α} (h : l[j]? = some a) (a' : α) :
    total f (l.set j a') + f a = total f l + f a' := by
  induction l generalizing j with
  | nil => simp at h
  | cons b l ih =>
    cases j with
    | zero =>
      simp only [List.getElem?_cons_zero, Option.some.injEq] at h
      subst h
      simp only [List.set_cons_zero, total_cons]
      abel
    | succ j =>
      simp only [List.getElem?_cons_succ] at h
      simp only [List.set_cons_succ, total_cons]
      rw [add_assoc, ih h, add_assoc]

/-- Removing one component takes its contribution away. -/
theorem total_eraseIdx (f : α → M) {l : List α} {j : Nat} {a : α} (h : l[j]? = some a) :
    total f l = total f (l.eraseIdx j) + f a := by
  induction l generalizing j with
  | nil => simp at h
  | cons b l ih =>
    cases j with
    | zero =>
      simp only [List.getElem?_cons_zero, Option.some.injEq] at h
      subst h
      simp only [List.eraseIdx_cons_zero, total_cons]
      abel
    | succ j =>
      simp only [List.getElem?_cons_succ] at h
      simp only [List.eraseIdx_cons_succ, total_cons]
      rw [ih h, add_assoc]

variable [IsCancelAdd M]

/-- A component that gains `d` raises the sum by `d`. -/
theorem total_set_gain {f : α → M} {l : List α} {j : Nat} {a a' : α} {d : M}
    (h : l[j]? = some a) (hd : f a' = f a + d) : total f (l.set j a') = total f l + d := by
  have hset := total_set f h a'
  rw [hd, ← add_assoc, add_right_comm] at hset
  exact add_right_cancel hset

/-- A component that loses `d` lowers the sum by `d`. -/
theorem total_set_lose {f : α → M} {l : List α} {j : Nat} {a a' : α} {d : M}
    (h : l[j]? = some a) (hd : f a = f a' + d) : total f l = total f (l.set j a') + d := by
  have hset := total_set f h a'
  rw [hd, ← add_assoc, add_right_comm] at hset
  exact (add_right_cancel hset).symm

/-- A component that keeps its contribution keeps the sum. -/
theorem total_set_same {f : α → M} {l : List α} {j : Nat} {a a' : α}
    (h : l[j]? = some a) (hd : f a' = f a) : total f (l.set j a') = total f l := by
  rw [total_set_gain h (d := 0) (by rw [hd, add_zero]), add_zero]

/-- A family of counts that adds up to one is one at a single index. -/
theorem exists_single_of_sum_eq_one {ι : Type*} [Fintype ι] {f : ι → ℕ} (h : ∑ i, f i = 1) :
    ∃ i, f i = 1 ∧ ∀ j, j ≠ i → f j = 0 := by
  classical
  obtain ⟨i, -, hi⟩ := Finset.exists_ne_zero_of_sum_ne_zero (s := Finset.univ) (f := f) (by omega)
  rw [← Finset.add_sum_erase _ _ (Finset.mem_univ i)] at h
  have hrest : ∑ j ∈ Finset.univ.erase i, f j = 0 := by omega
  refine ⟨i, by omega, fun j hj => ?_⟩
  exact Finset.sum_eq_zero_iff.mp hrest j (Finset.mem_erase.mpr ⟨hj, Finset.mem_univ j⟩)

end Sums
