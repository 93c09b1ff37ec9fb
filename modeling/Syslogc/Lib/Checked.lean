-- SUMMARY: Computations that index, slice and loop.
import Mathlib

/-!
# Checked computations

A computation gives a result or goes wrong: by an index or a slice outside of the data, or
by a loop that is still running when its fuel is used up. A computation that never goes
wrong is described by an equation with its result, and a loop by a function that each of
its steps leaves alone.
-/

namespace Checked

/-- How a computation goes wrong. -/
inductive Fault where
  | outOfRange
  | endless
deriving DecidableEq, Repr

end Checked

abbrev Checked (α : Type) := Except Checked.Fault α

namespace Checked

variable {α β σ : Type}

@[simp] theorem ok_bind (a : α) (f : α → Checked β) : ((Except.ok a : Checked α) >>= f) = f a := rfl

@[simp] theorem pure_eq (a : α) : (pure a : Checked α) = .ok a := rfl

@[simp] theorem map_ok (f : α → β) (a : α) : f <$> (Except.ok a : Checked α) = .ok (f a) := rfl

/-! ## Indices and slices -/

/-- `s[i]`. -/
def index (s : List α) (i : Nat) : Checked α :=
  match s[i]? with
  | none => .error .outOfRange
  | some a => .ok a

/-- `s[i:j]`. -/
def slice (s : List α) (i j : Nat) : Checked (List α) :=
  if i ≤ j ∧ j ≤ s.length then .ok ((s.take j).drop i) else .error .outOfRange

/-- `s[i:]`. -/
def suffix (s : List α) (i : Nat) : Checked (List α) := slice s i s.length

/-- An index that is counted down. -/
def pred (n : Nat) : Checked Nat := if n = 0 then .error .outOfRange else .ok (n - 1)

/-- `p && x`, which looks at `x` only if `p` holds. -/
def andAlso (p : Prop) [Decidable p] (x : Checked Bool) : Checked Bool := if p then x else pure false

/-- `p || x`, which looks at `x` only if `p` does not hold. -/
def orElse (p : Prop) [Decidable p] (x : Checked Bool) : Checked Bool := if p then pure true else x

/-- `i < len(s) && s[i] == c`. -/
def isAt [DecidableEq α] (s : List α) (i : Nat) (c : α) : Checked Bool :=
  andAlso (i < s.length) ((fun a => decide (a = c)) <$> index s i)

/-- Go's `strings.IndexByte`. -/
def indexByte [DecidableEq α] (s : List α) (c : α) : Option Nat := s.findIdx? (· = c)

variable {s : List α} {i j : Nat}

theorem index_of_lt (h : i < s.length) : index s i = .ok s[i] := by
  simp [index, List.getElem?_eq_getElem h]

theorem index_eq_ok {a : α} : index s i = .ok a ↔ s[i]? = some a := by
  unfold index
  split <;> simp [*]

variable {rest : List α}

/-- An index into what follows a position. -/
theorem index_of_drop {a : α} (h : s.drop i = a :: rest) : index s i = .ok a := by
  rw [index_eq_ok, ← Nat.add_zero i, ← List.getElem?_drop, h]
  rfl

theorem slice_of_le (hij : i ≤ j) (hj : j ≤ s.length) : slice s i j = .ok ((s.take j).drop i) :=
  if_pos ⟨hij, hj⟩

theorem suffix_of_le (h : i ≤ s.length) : suffix s i = .ok (s.drop i) := by
  rw [suffix, slice_of_le h le_rfl, List.take_length]

theorem slice_add {n : Nat} (h : i + n ≤ s.length) : slice s i (i + n) = .ok ((s.drop i).take n) := by
  rw [slice_of_le (Nat.le_add_right i n) h, List.drop_take, Nat.add_sub_cancel_left]

theorem indexByte_lt [DecidableEq α] {c : α} (h : indexByte s c = some i) : i < s.length :=
  (List.findIdx?_eq_some_iff_getElem.mp h).1

/-- A slice stands between its positions. -/
theorem drop_slice (hij : i ≤ j) : s.drop i = (s.take j).drop i ++ s.drop j := by
  obtain ⟨n, rfl⟩ := Nat.exists_eq_add_of_le hij
  rw [List.drop_take, Nat.add_sub_cancel_left, ← List.drop_drop, List.take_append_drop]

theorem pred_of_pos {n : Nat} (h : 0 < n) : pred n = .ok (n - 1) := if_neg (by omega)

/-- Where the end of a sequence starts in it. -/
def posOf (s rest : List α) : Nat := s.length - rest.length

theorem posOf_drop (h : i ≤ s.length) : posOf s (s.drop i) = i := by
  rw [posOf, List.length_drop]
  omega

theorem posOf_of_drop (hi : i ≤ s.length) (h : s.drop i = rest) : posOf s rest = i := by
  rw [← h, posOf_drop hi]

theorem posOf_le (s rest : List α) : posOf s rest ≤ s.length := Nat.sub_le _ _

theorem drop_posOf (h : rest <:+ s) : s.drop (posOf s rest) = rest :=
  (List.suffix_iff_eq_drop.mp h).symm

/-- A position from which on something is left. -/
theorem lt_of_drop {a : α} (h : s.drop i = a :: rest) : i < s.length := by
  by_contra hge
  rw [List.drop_eq_nil_of_le (Nat.le_of_not_lt hge)] at h
  cases h

/-- What is left behind the next element. -/
theorem drop_succ {a : α} (h : s.drop i = a :: rest) : s.drop (i + 1) = rest := by
  rw [← List.drop_drop, h]
  rfl

/-! ## Loops -/

/-- A loop: a step goes on with a new state or gives the result. -/
def loop (step : σ → Checked (σ ⊕ β)) : Nat → σ → Checked β
  | 0, _ => .error .endless
  | n + 1, x =>
    match step x with
    | .error e => .error e
    | .ok (.inl y) => loop step n y
    | .ok (.inr b) => .ok b

variable {step : σ → Checked (σ ⊕ β)} {n : Nat} {x : σ}

theorem loop_inl {y : σ} (h : step x = .ok (.inl y)) : loop step (n + 1) x = loop step n y := by
  simp only [loop, h]

theorem loop_inr {b : β} (h : step x = .ok (.inr b)) : loop step (n + 1) x = .ok b := by
  simp only [loop, h]

/-- A loop gives a result that every step gives or leaves to a state closer to the end. -/
theorem loop_leads (Leads : Nat → σ → β → Prop)
    (hstep : ∀ k x b, Leads k x b → step x = .ok (.inr b) ∨ ∃ y, step x = .ok (.inl y) ∧ ∃ j < k, Leads j y b)
    {k : Nat} {b : β} (hx : Leads k x b) (hn : k < n) : loop step n x = .ok b := by
  induction n generalizing k x with
  | zero => exact absurd hn (Nat.not_lt_zero _)
  | succ n ih =>
    rcases hstep k x b hx with hdone | ⟨y, hgo, j, hj, hy⟩
    · exact loop_inr hdone
    · rw [loop_inl hgo, ih hy (by omega)]

/-- A loop gives what a function has for its first state, if every step gives it or leaves
it alone and comes closer to the end. -/
theorem loop_eq (left : σ → Nat) (result : σ → β)
    (hstep : ∀ x, step x = .ok (.inr (result x)) ∨
      ∃ y, step x = .ok (.inl y) ∧ left y < left x ∧ result y = result x)
    (hn : left x < n) : loop step n x = .ok (result x) := by
  refine loop_leads (fun k x b => left x = k ∧ result x = b) ?_ ⟨rfl, rfl⟩ hn
  rintro _ x _ ⟨rfl, rfl⟩
  rcases hstep x with hdone | ⟨y, hgo, hleft, hresult⟩
  · exact .inl hdone
  · exact .inr ⟨y, hgo, _, hleft, rfl, hresult⟩

/-! ## Scanning -/

/-- `for i < len(s) && i < limit && p(s[i]) { x = f(x, s[i]); i++ }`. -/
def foldTo (p : α → Bool) (f : β → α → β) (s : List α) (limit : Nat) (x : β) (i : Nat) : Checked (β × Nat) :=
  loop (fun x : β × Nat =>
    if x.2 < s.length && x.2 < limit then do
      let a ← index s x.2
      pure (if p a then .inl (f x.1 a, x.2 + 1) else .inr x)
    else pure (.inr x)) (s.length + 1) (x, i)

theorem foldTo_eq (p : α → Bool) (f : β → α → β) (s : List α) (limit : Nat) (x : β) (i : Nat) :
    foldTo p f s limit x i = .ok ((((s.take limit).drop i).takeWhile p).foldl f x,
      i + (((s.take limit).drop i).takeWhile p).length) := by
  refine loop_eq (fun x : β × Nat => s.length - x.2)
    (fun x => ((((s.take limit).drop x.2).takeWhile p).foldl f x.1,
      x.2 + (((s.take limit).drop x.2).takeWhile p).length)) ?_ (by dsimp only; omega)
  rintro ⟨x, i⟩
  by_cases hi : i < s.length ∧ i < limit
  · have hlt := hi.1
    have hdrop : (s.take limit).drop i = s[i] :: (s.take limit).drop (i + 1) := by
      rw [List.drop_eq_getElem_cons (by simp; omega), List.getElem_take]
    simp only [hi.1, hi.2, decide_true, Bool.and_self, if_true, index_of_lt hi.1, bind, Except.bind, pure, Except.pure]
    cases hp : p s[i] with
    | true =>
      refine .inr ⟨(f x s[i], i + 1), rfl, by dsimp only; omega, ?_⟩
      dsimp only
      rw [hdrop, List.takeWhile_cons_of_pos hp, List.length_cons, List.foldl_cons]
      congr 1
      omega
    | false =>
      left
      rw [hdrop, List.takeWhile_cons_of_neg (by simp [hp])]
      rfl
  · left
    have hend : (s.take limit).drop i = [] := by
      rw [List.drop_eq_nil_iff, List.length_take]
      omega
    have hcond : (decide (i < s.length) && decide (i < limit)) = false := by
      simpa using hi
    dsimp only
    rw [hend]
    simp only [hcond, Bool.false_eq_true, if_false]
    rfl

/-- `for i < len(s) && i < limit && p(s[i]) { i++ }`. -/
def scanTo (p : α → Bool) (s : List α) (limit i : Nat) : Checked Nat :=
  Prod.snd <$> foldTo p (fun _ _ => ()) s limit () i

/-- `for i < len(s) && p(s[i]) { i++ }`. -/
def scan (p : α → Bool) (s : List α) (i : Nat) : Checked Nat := scanTo p s s.length i

theorem scanTo_eq (p : α → Bool) (s : List α) (limit i : Nat) :
    scanTo p s limit i = .ok (i + (((s.take limit).drop i).takeWhile p).length) := by
  rw [scanTo, foldTo_eq]
  rfl

theorem scan_eq (p : α → Bool) (s : List α) (i : Nat) :
    scan p s i = .ok (i + ((s.drop i).takeWhile p).length) := by
  rw [scan, scanTo_eq, List.take_length]

/-- What is left where a scan ends. -/
theorem drop_scan (p : α → Bool) (s : List α) (i : Nat) :
    s.drop (i + ((s.drop i).takeWhile p).length) = (s.drop i).dropWhile p := by
  rw [← List.drop_drop]
  exact List.append_cancel_left ((List.prefix_iff_eq_append.mp (List.takeWhile_prefix p)).trans
    (List.takeWhile_append_dropWhile (p := p)).symm)

/-- What a scan went over, and what is left behind it. -/
theorem slice_scan (p : α → Bool) (hi : i ≤ s.length) (h : s.drop i = rest) :
    slice s i (i + (rest.takeWhile p).length) = .ok (rest.takeWhile p) ∧
      s.drop (i + (rest.takeWhile p).length) = rest.dropWhile p ∧ i + (rest.takeWhile p).length ≤ s.length := by
  subst h
  have hle := (List.takeWhile_sublist p (l := s.drop i)).length_le
  rw [List.length_drop] at hle
  refine ⟨?_, drop_scan p s i, by omega⟩
  rw [slice_add (by omega), ← List.prefix_iff_eq_take.mp (List.takeWhile_prefix p)]

/-- `for i := 0; i < len(s); i++ { x = f(x, s[i]) }`. -/
def fold (f : β → α → β) (x : β) (s : List α) : Checked β :=
  Prod.fst <$> foldTo (fun _ => true) f s s.length x 0

theorem fold_eq (f : β → α → β) (x : β) (s : List α) : fold f x s = .ok (s.foldl f x) := by
  rw [fold, foldTo_eq, List.take_length, List.drop_zero, List.takeWhile_eq_self_iff.mpr fun _ _ => rfl]
  rfl

/-- `for ; i < len(s); i++ { if p(s[i]) { … } }`: the first index from `i` on at which `p` holds. -/
def find (p : α → Bool) (s : List α) (i : Nat) : Checked (Option Nat) :=
  loop (fun i =>
    if i < s.length then do
      let a ← index s i
      pure (if p a then .inr (some i) else .inl (i + 1))
    else pure (.inr none)) (s.length + 1) i

theorem find_eq (p : α → Bool) (s : List α) (i : Nat) :
    find p s i = .ok (((s.drop i).findIdx? p).map (i + ·)) := by
  refine loop_eq (fun i => s.length - i) (fun i => ((s.drop i).findIdx? p).map (i + ·)) ?_ (by omega)
  intro i
  by_cases hi : i < s.length
  · have hdrop := List.drop_eq_getElem_cons hi
    simp only [hi, if_true, index_of_lt hi, bind, Except.bind, pure, Except.pure]
    cases hp : p s[i] with
    | true =>
      left
      rw [hdrop, List.findIdx?_cons, hp]
      rfl
    | false =>
      refine .inr ⟨i + 1, rfl, by omega, ?_⟩
      rw [hdrop, List.findIdx?_cons, hp]
      simp only [Bool.false_eq_true, if_false, Option.map_map]
      congr 1
      funext k
      simp only [Function.comp_apply]
      omega
  · left
    rw [List.drop_eq_nil_of_le (Nat.le_of_not_lt hi)]
    simp only [hi, if_false]
    rfl

/-! ## Total correctness -/

/-- A computation does not go wrong, and its result has a property. -/
def Yields (x : Checked α) (P : α → Prop) : Prop := ∃ a, x = .ok a ∧ P a

section

variable {x : Checked α} {f : α → Checked β} {P Q : α → Prop} {R : β → Prop}

theorem yields_ok {a : α} (h : P a) : Yields (.ok a) P := ⟨a, rfl, h⟩

theorem Yields.mono (hx : Yields x P) (h : ∀ a, P a → Q a) : Yields x Q := by
  obtain ⟨a, hx, ha⟩ := hx
  exact ⟨a, hx, h a ha⟩

theorem Yields.bind (hx : Yields x P) (hf : ∀ a, P a → Yields (f a) R) : Yields (x >>= f) R := by
  obtain ⟨a, rfl, ha⟩ := hx
  exact hf a ha

theorem Yields.ite {c : Prop} [Decidable c] {y : Checked α} (hx : c → Yields x P) (hy : ¬c → Yields y P) :
    Yields (if c then x else y) P := by
  split
  · exact hx ‹_›
  · exact hy ‹_›

theorem yields_index (h : i < s.length) : Yields (index s i) fun a => s.drop i = a :: s.drop (i + 1) := by
  rw [index_of_lt h]
  exact yields_ok (List.drop_eq_getElem_cons h)

theorem yields_slice (hij : i ≤ j) (hj : j ≤ s.length) :
    Yields (slice s i j) fun w => s.drop i = w ++ s.drop j ∧ w.length = j - i := by
  rw [slice_of_le hij hj]
  exact yields_ok ⟨drop_slice hij, by rw [List.length_drop, List.length_take]; omega⟩

theorem yields_suffix (h : i ≤ s.length) : Yields (suffix s i) fun rest => rest = s.drop i := by
  rw [suffix_of_le h]
  exact yields_ok rfl

theorem yields_find (p : α → Bool) (s : List α) (i : Nat) : Yields (find p s i) fun _ => True := by
  rw [find_eq]
  exact yields_ok trivial

/-- A scan goes over elements that pass, up to one that does not. -/
theorem yields_scan (p : α → Bool) (h : i ≤ s.length) :
    Yields (scan p s i) fun j => i ≤ j ∧ j ≤ s.length ∧
      ∃ w, s.drop i = w ++ s.drop j ∧ (∀ a ∈ w, p a = true) ∧ ∀ a ∈ (s.drop j).head?, p a = false := by
  rw [scan_eq]
  have hle := (List.takeWhile_sublist p (l := s.drop i)).length_le
  rw [List.length_drop] at hle
  refine yields_ok ⟨Nat.le_add_right _ _, by omega, (s.drop i).takeWhile p, ?_,
    fun a ha => List.mem_takeWhile_imp ha, ?_⟩
  · rw [drop_scan, List.takeWhile_append_dropWhile]
  · rw [drop_scan]
    intro a ha
    have := List.head?_dropWhile_not p (s.drop i)
    rw [Option.mem_def.mp ha] at this
    exact this

theorem yields_scanTo (p : α → Bool) (limit : Nat) (h : i ≤ s.length) :
    Yields (scanTo p s limit i) fun j => i ≤ j ∧ j ≤ s.length := by
  rw [scanTo_eq]
  have hle := (List.takeWhile_sublist p (l := (s.take limit).drop i)).length_le
  rw [List.length_drop, List.length_take] at hle
  exact yields_ok ⟨Nat.le_add_right _ _, by omega⟩

theorem yields_andAlso {p : Prop} [Decidable p] {x : Checked Bool} {P : Prop}
    (hx : p → Yields x fun b => b = true → P) :
    Yields (andAlso p x) fun b => b = true → p ∧ P := by
  apply Yields.ite
  · intro hp
    exact (hx hp).mono fun b hb h => ⟨hp, hb h⟩
  · intro _
    exact yields_ok fun h => by cases h

theorem yields_isAt [DecidableEq α] (s : List α) (i : Nat) (c : α) :
    Yields (isAt s i c) fun b => b = true → i < s.length ∧ s.drop i = c :: s.drop (i + 1) := by
  apply yields_andAlso
  intro hi
  rw [index_of_lt hi]
  refine yields_ok fun h => ?_
  rw [List.drop_eq_getElem_cons hi, of_decide_eq_true h]

/-- An attempt does not go wrong, and what it gives, if anything, has a property. -/
def Attempts (x : OptionT Checked α) (P : α → Prop) : Prop := Yields x.run fun o => ∀ a ∈ o, P a

theorem attempts_pure {a : α} (h : P a) : Attempts (pure a) P :=
  yields_ok fun _ hb => by cases hb; exact h

theorem attempts_guard (p : Prop) [Decidable p] : Attempts (guard p) fun _ => p := by
  unfold guard
  split
  · exact attempts_pure ‹_›
  · exact yields_ok fun _ hb => by cases hb

theorem Yields.lift (hx : Yields x P) : Attempts (liftM x) P := by
  obtain ⟨a, rfl, ha⟩ := hx
  exact attempts_pure ha

theorem Attempts.run {y : OptionT Checked α} (hy : Attempts y P) : Yields y.run fun o => ∀ a ∈ o, P a := hy

variable {y : OptionT Checked α} {g : α → OptionT Checked β}

theorem Attempts.bind (hy : Attempts y P) (hg : ∀ a, P a → Attempts (g a) R) : Attempts (y >>= g) R := by
  obtain ⟨o, hy, ho⟩ := hy
  unfold Attempts
  rw [OptionT.run_bind, hy]
  cases o with
  | none => exact yields_ok fun _ hb => by cases hb
  | some a => exact hg a (ho a rfl)

end

@[simp] theorem lift_ok_bind (a : α) (g : α → OptionT Checked β) :
    ((liftM (Except.ok a : Checked α) : OptionT Checked α) >>= g) = g a := rfl

end Checked
