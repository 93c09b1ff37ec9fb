-- SUMMARY: Counts on a grid of instants, and their sums.
import Syslogc.Lib.Instants

/-!
# Charts

A chart lays a grid of instants over a range and keeps one number for each of them. A
count is put at the index of its instant, or is dropped if the grid does not have it. The
points of a line add up to the counts that the grid has an instant for.
-/

namespace Charts

variable {α κ : Type*}

/-- The instants from `first` on, a step apart, before `stop`. -/
def grid (step first stop : Int) : List Int :=
  (List.range ((stop - first + step - 1) / step).toNat).map fun i : Nat => first + step * (i : Int)

theorem mem_grid {step first stop t : Int} (h : 0 < step) :
    t ∈ grid step first stop ↔ first ≤ t ∧ t < stop ∧ step ∣ t - first := by
  -- An index is in range if its instant is before `stop`.
  have hindex (i : Nat) : i < ((stop - first + step - 1) / step).toNat ↔ first + step * i < stop := by
    rw [Int.lt_toNat, Int.lt_iff_add_one_le, Int.le_ediv_iff_mul_le h, add_mul, one_mul, mul_comm step]
    omega
  unfold grid
  simp only [List.mem_map, List.mem_range, hindex]
  constructor
  · rintro ⟨i, hi, rfl⟩
    exact ⟨le_add_of_nonneg_right (by positivity), hi, by simp⟩
  · rintro ⟨hle, hlt, k, hk⟩
    have hpos : 0 ≤ k := by
      by_contra hneg
      nlinarith
    obtain ⟨i, rfl⟩ := Int.eq_ofNat_of_zero_le hpos
    have ht : first + step * i = t := by omega
    exact ⟨i, ht ▸ hlt, ht⟩

/-- A grid has at most so many instants if that many steps lead from its first to its end. -/
theorem length_grid_le {step first stop n : Int} (h : 0 < step) (hn : 0 ≤ n) :
    ((grid step first stop).length : Int) ≤ n ↔ stop - first ≤ n * step := by
  have hdiv : (stop - first + step - 1) / step ≤ n ↔ stop - first ≤ n * step := by
    rw [← Int.lt_add_one_iff, Int.ediv_lt_iff_lt_mul h, add_mul, one_mul]
    omega
  rw [grid, List.length_map, List.length_range, ← hdiv]
  omega

theorem nodup_grid {step first stop : Int} (h : 0 < step) : (grid step first stop).Nodup := by
  unfold grid
  apply List.Nodup.map _ List.nodup_range
  intro i j hij
  have := mul_left_cancel₀ h.ne' (add_left_cancel hij)
  exact_mod_cast this

section

variable [DecidableEq κ]

theorem length_filter_mem_cons {k : κ} {keys : List κ} (hk : k ∉ keys) (key : α → κ) (as : List α) :
    (as.filter fun a => key a ∈ k :: keys).length =
      (as.filter fun a => key a = k).length + (as.filter fun a => key a ∈ keys).length := by
  induction as with
  | nil => rfl
  | cons a as ih =>
    by_cases ha : key a = k
    · simp [ha, hk] at ih ⊢
      omega
    · by_cases hmem : key a ∈ keys
      · simp [ha, hmem] at ih ⊢
        omega
      · simpa [ha, hmem] using ih

/-- How many elements have one of the keys, counted key by key. -/
theorem sum_fibers {keys : List κ} (h : keys.Nodup) (key : α → κ) (as : List α) :
    (keys.map fun k => (as.filter fun a => key a = k).length).sum = (as.filter fun a => key a ∈ keys).length := by
  induction keys with
  | nil => simp
  | cons k keys ih =>
    obtain ⟨hk, hkeys⟩ := List.nodup_cons.mp h
    rw [List.map_cons, List.sum_cons, ih hkeys, length_filter_mem_cons hk]

/-- The same for the keys of one kind, if there is a key for every element. -/
theorem sum_fibers_filter {keys : List κ} (h : keys.Nodup) (key : α → κ) (as : List α) (hkeys : ∀ a ∈ as, key a ∈ keys)
    (q : κ → Bool) :
    ((keys.filter q).map fun k => (as.filter fun a => key a = k).length).sum =
      (as.filter fun a => q (key a)).length := by
  rw [sum_fibers (h.filter q)]
  apply congrArg List.length
  apply List.filter_congr
  intro a ha
  simp [hkeys a ha]

end

/-! ## Points -/

/-- Add a count at an instant. -/
def add (grid : List Int) (points : List Nat) (t : Int) (n : Nat) : List Nat :=
  if t ∈ grid then points.modify (grid.idxOf t) (· + n) else points

/-- Write a count at an instant, whatever is there. -/
def write (grid : List Int) (points : List Nat) (t : Int) (n : Nat) : List Nat :=
  if t ∈ grid then points.set (grid.idxOf t) n else points

/-- A line without counts. -/
def flat (grid : List Int) : List Nat := List.replicate grid.length 0

variable {points : List Nat} {times : List Int} {t : Int} {n : Nat}

theorem sum_modify {i : Nat} (h : i < points.length) : (points.modify i (· + n)).sum = points.sum + n := by
  induction points generalizing i with
  | nil => simp at h
  | cons m points ih =>
    cases i with
    | zero => simp; omega
    | succ i =>
      simp only [List.modify_succ_cons, List.sum_cons, ih (Nat.lt_of_succ_lt_succ h)]
      omega

@[simp] theorem length_add : (add times points t n).length = points.length := by
  unfold add
  split <;> simp

@[simp] theorem length_flat : (flat times).length = times.length := List.length_replicate

@[simp] theorem sum_flat : (flat times).sum = 0 := by simp [flat]

theorem sum_add (h : points.length = times.length) :
    (add times points t n).sum = points.sum + if t ∈ times then n else 0 := by
  unfold add
  split
  next hmem => exact sum_modify (h ▸ List.idxOf_lt_length_of_mem hmem)
  next => rfl

/-- The points of a line after counts were added one after the other. -/
theorem sum_foldl_add (h : points.length = times.length) (rows : List α) (instant : α → Int) (count : α → Nat) :
    (rows.foldl (fun points row => add times points (instant row) (count row)) points).sum =
      points.sum + ((rows.filter fun row => instant row ∈ times).map count).sum := by
  induction rows generalizing points with
  | nil => simp
  | cons row rows ih =>
    rw [List.foldl_cons, ih (by simpa using h), sum_add h]
    by_cases hrow : instant row ∈ times
    · simp [hrow]
      omega
    · simp [hrow]

/-- Nothing is put at the instant yet. -/
def Empty (times : List Int) (points : List Nat) (t : Int) : Prop := t ∈ times → points[times.idxOf t]? = some 0

theorem write_eq_add (h : Empty times points t) : write times points t n = add times points t n := by
  unfold write add
  split
  next hmem =>
    have hzero := h hmem
    apply List.ext_getElem?
    intro j
    rw [List.getElem?_set, List.getElem?_modify]
    by_cases hj : times.idxOf t = j
    · subst hj
      obtain ⟨hlt, hzero⟩ := List.getElem?_eq_some_iff.mp hzero
      simp [hzero, hlt]
    · simp [hj]
  next => rfl

theorem Empty.add {t' : Int} (h : Empty times points t') (hne : t ≠ t') : Empty times (add times points t n) t' := by
  intro hmem
  unfold Charts.add
  split
  next ht =>
    have hidx : times.idxOf t ≠ times.idxOf t' := fun heq => hne ((List.idxOf_inj ht).mp heq)
    rw [List.getElem?_modify, h hmem]
    simp [hidx]
  next => exact h hmem

theorem empty_flat : Empty times (flat times) t := by
  intro hmem
  simp [flat, List.idxOf_lt_length_of_mem hmem]

/-- Counts of different instants can as well be added as written. -/
theorem foldl_write_eq (rows : List α) (instant : α → Int) (count : α → Nat) (hnodup : (rows.map instant).Nodup)
    (h : ∀ row ∈ rows, Empty times points (instant row)) :
    rows.foldl (fun points row => write times points (instant row) (count row)) points =
      rows.foldl (fun points row => add times points (instant row) (count row)) points := by
  induction rows generalizing points with
  | nil => rfl
  | cons row rows ih =>
    obtain ⟨hnew, hnodup⟩ := List.nodup_cons.mp hnodup
    rw [List.foldl_cons, List.foldl_cons, write_eq_add (h row List.mem_cons_self)]
    apply ih hnodup
    intro row' hrow'
    exact (h row' (List.mem_cons_of_mem _ hrow')).add fun heq => hnew (heq ▸ List.mem_map_of_mem hrow')

theorem sum_foldl_write (rows : List α) (instant : α → Int) (count : α → Nat) (hnodup : (rows.map instant).Nodup) :
    (rows.foldl (fun points row => write times points (instant row) (count row)) (flat times)).sum =
      ((rows.filter fun row => instant row ∈ times).map count).sum := by
  rw [foldl_write_eq rows instant count hnodup fun _ _ => empty_flat, sum_foldl_add length_flat, sum_flat, zero_add]

end Charts
