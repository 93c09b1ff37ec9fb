-- SUMMARY: What the parser of filter texts accepts.
import Syslogc.Frontend.FilterText

/-!
# Parsed expressions

An expression is readable if no connective stands for less than two arguments or has an
argument with the same connective, and every field that must have a name has one. The
parser gives only readable expressions, and it never runs out of fuel.
-/

namespace Syslogc.FilterText

open Fuel
open Fallible (bind_eq_ok map_eq_ok)

/-- The shape of an expression that printing and parsing keeps. The field of `!field:*`
may be empty. -/
inductive Readable : FilterExpr → Prop
  | bool {op : BoolOp} {args : List FilterExpr} (many : 2 ≤ args.length)
      (each : ∀ a ∈ args, Readable a) (flat : ∀ a ∈ args, ∀ args', a ≠ .bool op args') :
      Readable (.bool op args)
  | not {arg : FilterExpr} (h : Readable arg) : Readable (.not arg)
  | text (v : Text) : Readable (.text v)
  | fieldValue (op : FieldValueOp) {field : Text} (named : field ≠ []) (v : Text) :
      Readable (.fieldValue op field v)
  | fieldValues (op : FieldValuesOp) {field : Text} (named : field ≠ []) {values : List Text}
      (some : values ≠ []) : Readable (.fieldValues op field values)
  | present {field : Text} (named : field ≠ []) : Readable (.fieldExists .exists_ field)
  | absent (field : Text) : Readable (.fieldExists .notExists field)

/-! ## Connectives -/

theorem parts_self {op : BoolOp} {a : FilterExpr} (h : ∀ args, a ≠ .bool op args) : parts op a = [a] := by
  cases a with
  | bool op' args =>
    have hne : op' ≠ op := by
      rintro rfl
      exact h args rfl
    simp [parts, hne]
  | not arg => rfl
  | text v => rfl
  | fieldValue op field v => rfl
  | fieldValues op field values => rfl
  | fieldExists op field => rfl

theorem Readable.parts {op : BoolOp} {a : FilterExpr} (h : Readable a) :
    1 ≤ (parts op a).length ∧ ∀ b ∈ parts op a, Readable b ∧ ∀ args, b ≠ .bool op args := by
  by_cases hop : ∃ args, a = .bool op args
  · obtain ⟨args, rfl⟩ := hop
    cases h with
    | bool many each flat =>
      simp only [FilterText.parts, ↓reduceIte]
      exact ⟨by omega, fun b hb => ⟨each b hb, flat b hb⟩⟩
  · have hne : ∀ args, a ≠ .bool op args := fun args heq => hop ⟨args, heq⟩
    rw [parts_self hne]
    simpa using ⟨h, hne⟩

theorem Readable.parts_length {a : FilterExpr} (h : Readable a) (op : BoolOp) :
    1 ≤ (FilterText.parts op a).length :=
  h.parts.1

theorem Readable.connect {op : BoolOp} {first : FilterExpr} {more : List FilterExpr}
    (hfirst : Readable first) (hmore : ∀ a ∈ more, Readable a) : Readable (connect op first more) := by
  unfold FilterText.connect
  cases more with
  | nil => exact hfirst
  | cons second more =>
    have hall : ∀ a ∈ first :: second :: more, Readable a := by
      intro a ha
      obtain rfl | ha := List.mem_cons.mp ha
      · exact hfirst
      · exact hmore a ha
    have hparts : ∀ b ∈ (first :: second :: more).flatMap (FilterText.parts op),
        Readable b ∧ ∀ args, b ≠ .bool op args := by
      intro b hb
      obtain ⟨a, ha, hb⟩ := List.mem_flatMap.mp hb
      exact (hall a ha).parts.2 b hb
    refine .bool ?_ (fun b hb => (hparts b hb).1) fun b hb => (hparts b hb).2
    have h₁ := (hall first (by simp)).parts_length op
    have h₂ := (hall second (by simp)).parts_length op
    simp only [List.flatMap_cons, List.length_append]
    omega

/-! ## Terms -/

variable {stringify : Text → Text} {stop : Nat} {ts rest : List Token} {t : Token} {e : FilterExpr}

theorem value_ok {v : Text} (h : value stop ts = .ok (v, rest)) : rest.length < ts.length := by
  unfold value at h
  split at h
  · split_ifs at h
    cases h
    simp
  · cases h

theorem moreValues_ok {vs : List Text} (h : moreValues stop ts = .ok (vs, rest)) :
    rest.length < ts.length := by
  fun_induction moreValues stop ts generalizing vs with
  | case1 => cases h
  | case2 =>
    cases h
    simp
  | case3 => cases h
  | case4 => cases h
  | case5 sep _ _ t ts _ ih =>
    obtain ⟨r, hr, hvr⟩ := map_eq_ok.mp h
    cases hvr
    have := ih hr
    simp only [List.length_cons]
    omega
  | case6 => cases h

theorem values_ok {op : FieldValuesOp} {field : Text} (hfield : field ≠ [])
    (h : values stop op field ts = .ok (e, rest)) : Readable e ∧ rest.length < ts.length := by
  unfold values at h
  split at h
  · split_ifs at h
    obtain ⟨⟨first, ts₁⟩, hfirst, h⟩ := bind_eq_ok.mp h
    obtain ⟨⟨more, ts₂⟩, hmore, h⟩ := bind_eq_ok.mp h
    cases h
    have := value_ok hfirst
    have := moreValues_ok hmore
    refine ⟨.fieldValues op hfield (by simp), ?_⟩
    simp only [List.length_cons]
    omega
  · cases h

theorem comparison_ok {field : Text} (hfield : field ≠ [])
    (h : comparison stop field ts = .ok (e, rest)) : Readable e ∧ rest.length < ts.length := by
  unfold comparison at h
  split at h
  · cases h
  · rename_i op ts
    split_ifs at h
    · cases h
      exact ⟨.present hfield, by simp⟩
    · obtain ⟨r, hr, her⟩ := map_eq_ok.mp h
      cases her
      have := value_ok hr
      exact ⟨.fieldValue _ hfield _, by simp only [List.length_cons]; omega⟩
    · obtain ⟨r, hr, her⟩ := map_eq_ok.mp h
      cases her
      have := value_ok hr
      exact ⟨.fieldValue _ hfield _, by simp only [List.length_cons]; omega⟩
    · obtain ⟨he, hlt⟩ := values_ok hfield h
      refine ⟨he, ?_⟩
      simp only [List.length_tail, List.length_cons] at hlt ⊢
      omega
    · obtain ⟨he, hlt⟩ := values_ok hfield h
      exact ⟨he, by simp only [List.length_cons]; omega⟩

theorem term_ok (h : term stringify stop t ts = .ok (e, rest)) : Readable e ∧ rest.length ≤ ts.length := by
  unfold term at h
  split_ifs at h with _ _ _ hname
  · cases h
    exact ⟨.text _, le_rfl⟩
  · obtain ⟨he, hlt⟩ := comparison_ok hname h
    exact ⟨he, hlt.le⟩

theorem absent_ok (h : absent stop ts = .ok (e, rest)) : Readable e ∧ rest.length < ts.length := by
  unfold absent at h
  split at h
  · cases h
  · split_ifs at h
    split at h
    · split_ifs at h
      cases h
      exact ⟨.absent _, by simp⟩
    · cases h

theorem closeBracket_ok {e' : FilterExpr} (h : closeBracket stop e ts = .ok (e', rest)) :
    e' = e ∧ rest.length < ts.length := by
  unfold closeBracket at h
  split at h
  · cases h
  · split_ifs at h
    cases h
    exact ⟨rfl, by simp⟩

/-! ## The parser -/

variable (stringify stop)

/-- What each function of the parser gives, and how much fuel it needs for a list of
tokens. -/
structure Sound (n : Nat) : Prop where
  orExpr : ∀ ts, 3 * ts.length + 3 ≤ n →
    Yields (orExpr stringify stop n ts) fun r => Readable r.1 ∧ r.2.length < ts.length
  orRest : ∀ ts, 3 * ts.length + 1 ≤ n →
    Yields (orRest stringify stop n ts) fun r => (∀ e ∈ r.1, Readable e) ∧ r.2.length ≤ ts.length
  andExpr : ∀ ts, 3 * ts.length + 2 ≤ n →
    Yields (andExpr stringify stop n ts) fun r => Readable r.1 ∧ r.2.length < ts.length
  andRest : ∀ ts, 3 * ts.length + 2 ≤ n →
    Yields (andRest stringify stop n ts) fun r => (∀ e ∈ r.1, Readable e) ∧ r.2.length ≤ ts.length
  unary : ∀ ts, 3 * ts.length + 1 ≤ n →
    Yields (unary stringify stop n ts) fun r => Readable r.1 ∧ r.2.length < ts.length

theorem sound (n : Nat) : Sound stringify stop n := by
  induction n with
  | zero =>
    constructor
    all_goals
      intro ts h
      omega
  | succ n ih =>
    constructor
    case orExpr =>
      intro ts h
      refine (ih.andExpr ts (by omega)).bind fun first ⟨hfirst, hlt⟩ => ?_
      refine (ih.orRest first.2 (by omega)).bind fun more ⟨hmore, hle⟩ => ?_
      exact .pure ⟨hfirst.connect hmore, hle.trans_lt hlt⟩
    case andExpr =>
      intro ts h
      refine (ih.unary ts (by omega)).bind fun first ⟨hfirst, hlt⟩ => ?_
      refine (ih.andRest first.2 (by omega)).bind fun more ⟨hmore, hle⟩ => ?_
      exact .pure ⟨hfirst.connect hmore, hle.trans_lt hlt⟩
    case orRest =>
      intro ts h
      cases ts with
      | nil => exact .pure (by simp)
      | cons t ts =>
        simp only [List.length_cons] at h ⊢
        rw [FilterText.orRest]
        split_ifs
        · refine (ih.andExpr ts (by omega)).bind fun a ⟨ha, hlt⟩ => ?_
          refine (ih.orRest a.2 (by omega)).bind fun more ⟨hmore, hle⟩ => ?_
          exact .pure ⟨List.forall_mem_cons.mpr ⟨ha, hmore⟩, hle.trans (by omega)⟩
        · exact .pure (by simp)
    case andRest =>
      intro ts h
      cases ts with
      | nil => exact .pure (by simp)
      | cons t ts =>
        have hlength : (if isKeyword "and" t then ts else t :: ts).length ≤ ts.length + 1 := by
          split_ifs <;> simp
        simp only [List.length_cons] at h ⊢
        rw [FilterText.andRest]
        by_cases hstop : (t.kind = .rparen || isKeyword "or" t) = true
        · rw [if_pos hstop]
          exact .pure (by simp)
        · rw [if_neg hstop]
          refine (ih.unary (if isKeyword "and" t then ts else t :: ts) (by omega)).bind fun a ⟨ha, hlt⟩ => ?_
          refine (ih.andRest a.2 (by omega)).bind fun more ⟨hmore, hle⟩ => ?_
          exact .pure ⟨List.forall_mem_cons.mpr ⟨ha, hmore⟩, hle.trans (by omega)⟩
    case unary =>
      intro ts h
      cases ts with
      | nil => exact yields_throw
      | cons t ts =>
        simp only [List.length_cons] at h ⊢
        rw [FilterText.unary]
        split_ifs
        · refine (ih.unary ts (by omega)).bind fun arg ⟨harg, hlt⟩ => ?_
          exact .pure ⟨.not harg, hlt.trans (Nat.lt_succ_self _)⟩
        · refine yields_lift fun r hr => ?_
          obtain ⟨hreadable, hlt⟩ := absent_ok hr
          exact ⟨hreadable, by omega⟩
        · refine (ih.orExpr ts (by omega)).bind fun e ⟨he, hlt⟩ => yields_lift fun r hr => ?_
          obtain ⟨heq, hlt'⟩ := closeBracket_ok hr
          exact ⟨heq ▸ he, by omega⟩
        · refine yields_lift fun r hr => ?_
          obtain ⟨hreadable, hle⟩ := term_ok hr
          exact ⟨hreadable, by omega⟩

variable {stringify stop}

theorem parse_eq_ok : parse stringify stop ts = .ok e ↔
    orExpr stringify stop (fuel ts) ts = pure (e, []) := by
  constructor
  · intro h
    unfold parse at h
    split at h
    · cases h
    · cases h
    · rename_i hrun
      cases h
      exact hrun
    · cases h
  · intro h
    unfold parse
    rw [h]
    rfl

theorem parseFilter_readable {text : Text} (h : parseFilter stringify text = .ok (some e)) :
    Readable e := by
  unfold parseFilter at h
  split_ifs at h
  · cases h
  · obtain ⟨ts, -, h⟩ := bind_eq_ok.mp h
    obtain ⟨e', hparse, h⟩ := bind_eq_ok.mp h
    cases h
    exact (((sound stringify text.length _).orExpr ts le_rfl).result _ (parse_eq_ok.mp hparse)).1

end Syslogc.FilterText
