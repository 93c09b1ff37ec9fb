-- SUMMARY: Related lists, pieces of lists, and maps kept as lists.
import Mathlib

/-!
# Lists

Membership in two lists that are related element by element, the pieces a list is cut
into, and the lookup in a map that is kept as a list of its entries.
-/

namespace Lists

variable {α β : Type*} {R : α → β → Prop} {as : List α} {bs : List β}

/-- An element of a list of which one was replaced: the new one, or one at another place. -/
theorem getElem?_set_cases {a b : α} {i j : Nat} (h : (as.set i a)[j]? = some b) :
    j = i ∧ b = a ∨ j ≠ i ∧ as[j]? = some b := by
  by_cases hij : j = i
  · subst hij
    obtain ⟨hlt, rfl⟩ := List.getElem?_eq_some_iff.mp h
    exact .inl ⟨rfl, List.getElem_set_self hlt⟩
  · rw [List.getElem?_set_ne (Ne.symm hij)] at h
    exact .inr ⟨hij, h⟩

theorem forall₂_exists_right (h : List.Forall₂ R as bs) {a : α} (ha : a ∈ as) :
    ∃ b ∈ bs, R a b := by
  induction h with
  | nil => cases ha
  | @cons a' b' as bs hab _ ih =>
    obtain rfl | ha := List.mem_cons.mp ha
    · exact ⟨b', List.mem_cons_self, hab⟩
    · obtain ⟨b, hb, hR⟩ := ih ha
      exact ⟨b, List.mem_cons_of_mem _ hb, hR⟩

theorem forall₂_exists_left (h : List.Forall₂ R as bs) {b : β} (hb : b ∈ bs) :
    ∃ a ∈ as, R a b := by
  induction h with
  | nil => cases hb
  | @cons a' b' as bs hab _ ih =>
    obtain rfl | hb := List.mem_cons.mp hb
    · exact ⟨a', List.mem_cons_self, hab⟩
    · obtain ⟨a, ha, hR⟩ := ih hb
      exact ⟨a, List.mem_cons_of_mem _ ha, hR⟩

/-- A list related to two in a row is made of two lists. -/
theorem forall₂_append_left {as' : List α} (h : List.Forall₂ R (as ++ as') bs) :
    ∃ cs ds, bs = cs ++ ds ∧ List.Forall₂ R as cs ∧ List.Forall₂ R as' ds := by
  induction as generalizing bs with
  | nil => exact ⟨[], bs, rfl, .nil, h⟩
  | cons a as ih =>
    obtain _ | ⟨hab, hrest⟩ := h
    obtain ⟨cs, ds, rfl, hcs, hds⟩ := ih hrest
    exact ⟨_ :: cs, ds, rfl, .cons hab hcs, hds⟩

theorem forall₂_exists_zip (h : List.Forall₂ R as bs) {a : α} (ha : a ∈ as) : ∃ b, (a, b) ∈ as.zip bs ∧ R a b := by
  induction h with
  | nil => cases ha
  | @cons a' b' as bs hab _ ih =>
    obtain rfl | ha := List.mem_cons.mp ha
    · exact ⟨b', List.mem_cons_self, hab⟩
    · obtain ⟨b, hb, hR⟩ := ih ha
      exact ⟨b, List.mem_cons_of_mem _ hb, hR⟩

/-- The only element with its key, in a list whose keys differ. -/
theorem filter_key_eq_singleton {κ : Type*} [DecidableEq κ] {key : α → κ} {a : α} (h : (as.map key).Nodup)
    (ha : a ∈ as) :
    as.filter (fun b => key b = key a) = [a] := by
  induction as with
  | nil => cases ha
  | cons b as ih =>
    obtain ⟨hb, has⟩ := List.nodup_cons.mp h
    obtain rfl | ha := List.mem_cons.mp ha
    · have hrest : as.filter (fun c => key c = key a) = [] := by
        rw [List.filter_eq_nil_iff]
        intro c hc
        have hne : key c ≠ key a := fun heq => hb (heq ▸ List.mem_map_of_mem hc)
        simpa using hne
      simp [hrest]
    · have hne : key b ≠ key a := fun heq => hb (heq ▸ List.mem_map_of_mem ha)
      simp [hne, ih has ha]

/-! ## Pieces -/

/-- The list in pieces of `n` elements, or of one if `n` is zero; the last may be shorter. -/
def pieces (n : Nat) : List α → List (List α)
  | [] => []
  | a :: as => (a :: as.take (n - 1)) :: pieces n (as.drop (n - 1))
termination_by as => as.length

theorem flatten_pieces (n : Nat) (as : List α) : (pieces n as).flatten = as := by
  fun_induction pieces n as with
  | case1 => rfl
  | case2 a as ih => simp [ih]

theorem ne_nil_of_mem_pieces {n : Nat} {part : List α} (h : part ∈ pieces n as) : part ≠ [] := by
  fun_induction pieces n as with
  | case1 => simp at h
  | case2 a as ih =>
    obtain rfl | h := List.mem_cons.mp h
    · simp
    · exact ih h

/-! ## Maps -/

variable {κ ν : Type*} [DecidableEq κ] [BEq κ] [LawfulBEq κ] {k k' : κ} {v : ν} {m : List (κ × ν)}

/-- Write an entry, in the place of the one its key has. -/
def assign (k : κ) (v : ν) : List (κ × ν) → List (κ × ν)
  | [] => [(k, v)]
  | e :: m => if e.1 = k then (k, v) :: m else e :: assign k v m

theorem lookup_cons (e : κ × ν) : (e :: m).lookup k = if k = e.1 then some e.2 else m.lookup k := by
  by_cases h : k = e.1
  · rw [List.lookup, if_pos h, beq_iff_eq.mpr h]
  · rw [List.lookup, if_neg h, beq_false_of_ne h]

theorem lookup_eq_none : m.lookup k = none ↔ k ∉ m.map Prod.fst := by
  induction m with
  | nil => simp
  | cons e m ih =>
    rw [lookup_cons, List.map_cons, List.mem_cons, not_or, ← ih]
    split <;> simp_all

theorem lookup_filter_ne : (m.filter (·.1 ≠ k)).lookup k' = if k' = k then none else m.lookup k' := by
  induction m with
  | nil => simp
  | cons e m ih =>
    by_cases he : e.1 = k
    · rw [List.filter_cons_of_neg (by simpa using he), ih, lookup_cons, he]
      split <;> rfl
    · rw [List.filter_cons_of_pos (by simpa using he), lookup_cons, lookup_cons, ih]
      grind

theorem lookup_assign : (assign k v m).lookup k' = if k' = k then some v else m.lookup k' := by
  induction m with
  | nil => simp [assign, lookup_cons]
  | cons e m ih =>
    by_cases he : e.1 = k
    · rw [assign, if_pos he, lookup_cons, lookup_cons, he]
      split <;> rfl
    · rw [assign, if_neg he, lookup_cons, lookup_cons, ih]
      grind

omit [BEq κ] [LawfulBEq κ] in
theorem assign_of_not_mem (h : k ∉ m.map Prod.fst) : assign k v m = m ++ [(k, v)] := by
  induction m with
  | nil => rfl
  | cons e m ih =>
    rw [List.map_cons, List.mem_cons, not_or] at h
    rw [assign, if_neg (Ne.symm h.1), ih h.2, List.cons_append]

theorem mem_keys_assign {k' : κ} : k' ∈ (assign k v m).map Prod.fst ↔ k' = k ∨ k' ∈ m.map Prod.fst := by
  induction m with
  | nil => simp [assign]
  | cons e m ih =>
    by_cases he : e.1 = k
    · simp [assign, he]
    · simp only [assign, if_neg he, List.map_cons, List.mem_cons, ih]
      tauto

theorem nodup_keys_assign (h : (m.map Prod.fst).Nodup) : ((assign k v m).map Prod.fst).Nodup := by
  induction m with
  | nil => simp [assign]
  | cons e m ih =>
    obtain ⟨he, hm⟩ := List.nodup_cons.mp h
    by_cases hk : e.1 = k
    · rw [assign, if_pos hk]
      exact List.nodup_cons.mpr ⟨hk ▸ he, hm⟩
    · rw [assign, if_neg hk]
      exact List.nodup_cons.mpr ⟨mem_keys_assign.not.mpr (by simp [hk, he]), ih hm⟩

theorem mem_iff_lookup (h : (m.map Prod.fst).Nodup) : (k, v) ∈ m ↔ m.lookup k = some v := by
  induction m with
  | nil => simp
  | cons e m ih =>
    obtain ⟨he, hm⟩ := List.nodup_cons.mp h
    rw [lookup_cons, List.mem_cons, ih hm]
    by_cases hk : k = e.1
    · subst hk
      have hnone : m.lookup e.1 ≠ some v := fun hsome => he (List.mem_map.mpr ⟨_, (ih hm).mpr hsome, rfl⟩)
      simp [hnone, Prod.ext_iff, eq_comm]
    · simp [hk, Prod.ext_iff]

theorem lookup_map {μ : Type*} (f : ν → μ) : (m.map fun e => (e.1, f e.2)).lookup k = (m.lookup k).map f := by
  induction m with
  | nil => rfl
  | cons e m ih =>
    rw [List.map_cons, lookup_cons, lookup_cons, ih]
    split <;> rfl

end Lists
