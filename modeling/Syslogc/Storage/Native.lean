-- SUMMARY: When a selection selects only what both parts select.
import Syslogc.Storage.Meaning

/-!
# Native queries beside filter expressions

The native text is put between brackets behind the compiled expression. What the two
texts select, and what the combined text selects, is read off the grammar of LogsQL
with terms of any meaning. A native text that is a filter by itself stays within its
brackets. One that is not may close the bracket and go on with alternatives of its own.
-/

namespace Syslogc.VictoriaLogs

open Syslogc.Filter LogsQL

/-! ## What a text selects -/

/-- What the terms of LogsQL say of the rows of a store. -/
structure Reading (Row : Type) where
  holds : Leaf → Row → Bool
  /-- The star is met by every row. -/
  star : ∀ r, holds ⟨[.bare (utf8 "*")], []⟩ r

variable {Row : Type} (I : Reading Row) (r : Row)

/-- A text that is no filter is refused and selects nothing. -/
def Selects (text : Bytes) : Prop := ∃ t, Parses some text t ∧ t.eval fun l => I.holds l r

/-- The filter part of a native query; none was given if it is empty. -/
def NativeSelects (nativePart : Bytes) : Prop := nativePart = [] ∨ Selects I r nativePart

/-- The selection never goes beyond its parts. -/
def Confined (Row : Type) (ast nativePart : Bytes) : Prop :=
  ∀ (I : Reading Row) (r : Row), Selects I r (combine ast nativePart) → Selects I r ast ∧ NativeSelects I r nativePart

variable {I r} {text ast nativePart : Bytes} {t ta tn : ParseTree Leaf} {toks : List Token}
  {ts : List (ParseTree Leaf)} {go : GoLib}

theorem selects_iff (h : Parses some text t) : Selects I r text ↔ t.eval fun l => I.holds l r := by
  constructor
  · rintro ⟨t', h', heval⟩
    rwa [parses_unique h h'] at heval
  · exact fun heval => ⟨t, h, heval⟩

theorem selects_star : Selects I r (utf8 "*") :=
  ⟨.leaf ⟨[.bare (utf8 "*")], []⟩, parses_iff.mpr rfl, I.star r⟩

/-! ## A native filter between brackets -/

theorem parses_grouped (hs : Settles nativePart toks) (h : Reads some .or toks ts) :
    Parses some (utf8 "(" ++ nativePart ++ utf8 ")") (disj ts) := by
  have hopen : Lexes (utf8 "(") [.lpar] := rfl
  have htext := (hopen.append_settles hs).rpar.settles.lex_eq
  exact ⟨_, [disj ts], htext, .alternative (.operand h.group), rfl⟩

theorem parses_conjoined (hast : Compiles go some ast ta) (hs : Settles nativePart toks) (h : Reads some .or toks ts) :
    Parses some (ast ++ utf8 " AND (" ++ nativePart ++ utf8 ")") (.and [ta, disj ts]) := by
  obtain ⟨atoks, has, -, hreads⟩ := hast
  have hopen : Lexes (utf8 "AND (") [.and, .lpar] := rfl
  have htext := ((has.blank.append hopen).append_settles hs).rpar.settles.lex_eq
  refine ⟨_, [.and [ta, disj ts]], ?_, .alternative ((Reads.operand hreads).and h.group), rfl⟩
  rw [show utf8 " AND (" = utf8 " " ++ utf8 "AND (" from rfl]
  simpa using htext

/-- A comment that is open behind the native filter takes the closing bracket with it. -/
theorem lex_commented {before : Bytes} {btoks : List Token} (hb : Lexes before btoks)
    (h : Runs .gap nativePart .comment toks) :
    lex (before ++ nativePart ++ utf8 ")") = some (btoks ++ toks) := by
  have hclose : Runs .comment (utf8 ")") .comment [] := rfl
  have hrun := (Runs.append hb h).append hclose
  simp only [Runs] at hrun
  rw [lex, hrun]
  simp [State.finish]

theorem not_parses_commented {before : Bytes} {btoks : List Token} {m : Machine Leaf}
    (hb : Lexes before (btoks ++ [.lpar])) (hm : Machine.run some {} btoks = some m) (hcall : m.call = none)
    (hn : parse some toks = some tn) (h : Runs .gap nativePart .comment toks) :
    ¬Parses some (before ++ nativePart ++ utf8 ")") t := by
  rw [parses_iff, lex_commented hb h, Option.bind_some, parse]
  simpa using parse_unclosed hn hm hcall

/-- A native text that is a filter by itself is confined. -/
theorem Confined.of_parses (hast : Compiles go some ast ta) (hn : Parses some nativePart tn) :
    Confined Row ast nativePart := by
  intro I r hsel
  have hnsel : ∀ {p : Prop}, (p ∧ Selects I r nativePart) → p ∧ NativeSelects I r nativePart :=
    fun h => ⟨h.1, .inr h.2⟩
  obtain ⟨toks, ts, hlex, hreads, rfl⟩ := hn
  have hparses : Parses some nativePart (disj ts) := ⟨toks, ts, hlex, hreads, rfl⟩
  rw [combine] at hsel
  split at hsel
  next hempty =>
    refine ⟨hsel, ?_⟩
    rcases hempty with rfl | rfl
    · exact .inl rfl
    · exact .inr selects_star
  next =>
    split at hsel
    next hstar =>
      apply hnsel
      rw [hstar]
      refine ⟨selects_star, ?_⟩
      rcases lex_cases hlex with hs | hs
      · rw [selects_iff (parses_grouped hs hreads)] at hsel
        exact (selects_iff hparses).mpr hsel
      · obtain ⟨t, ht, -⟩ := hsel
        have hopen : Lexes (utf8 "(") ([] ++ [.lpar]) := rfl
        exact absurd ht (not_parses_commented hopen rfl rfl hreads.parse_eq hs)
    next =>
      apply hnsel
      rcases lex_cases hlex with hs | hs
      · rw [selects_iff (parses_conjoined hast hs hreads)] at hsel
        simp only [ParseTree.eval, ParseTree.all, Bool.and_eq_true, Bool.and_true] at hsel
        exact ⟨(selects_iff hast.parses).mpr hsel.1, (selects_iff hparses).mpr hsel.2⟩
      · obtain ⟨t, ht, -⟩ := hsel
        obtain ⟨atoks, has, -, hareads⟩ := hast
        have hopen : Lexes (ast ++ utf8 " AND (") (atoks ++ [.and] ++ [.lpar]) := by
          have hand : Lexes (utf8 "AND (") [.and, .lpar] := rfl
          rw [show utf8 " AND (" = utf8 " " ++ utf8 "AND (" from rfl]
          simpa using has.blank.append hand
        have hrun : ∃ m : Machine Leaf, Machine.run some {} (atoks ++ [.and]) = some m ∧ m.call = none := by
          rw [Machine.run_append, hareads.runs {} rfl ta rfl, Option.bind_some]
          exact ⟨_, rfl, rfl⟩
        obtain ⟨m, hm, hcall⟩ := hrun
        exact absurd ht (not_parses_commented hopen hm hcall hreads.parse_eq hs)

/-! ## Selections -/

theorem compileFilter_validates {e : Expr} (h : compileFilter go e = .ok ast) : validate go e = .ok () := by
  cases e with
  | null => rfl
  | node op args arg field value values =>
    cases hv : validate go (.node op args arg field value values) with
    | error err => simp only [compileFilter, hv, reduceCtorEq] at h
    | ok u => rfl

/-- The text of a compiled filter is a single operand. -/
theorem compileFilter_operand {e : Expr} (h : compileFilter go e = .ok ast) : ∃ ta, Compiles go some ast ta := by
  have hread : ∀ t : Term, some (t.leaf go.toQuoting) = some (Term.leaf go.toQuoting t) := fun _ => rfl
  rcases compileFilter_compiles hread (compileFilter_validates h) with herr | ⟨s, t, hs, -, hc⟩
  · rw [h] at herr
    cases herr
  · rw [h] at hs
    cases hs
    exact ⟨t, hc⟩

/-- A selection stays within the compiled expression and the native filter exactly if
the native filter is none, or is a filter by itself, or if the combined text selects
nothing at all, whatever its terms say. -/
theorem buildSelection_confined_iff (Row : Type) (go : GoLib) (sel : Selection) (ast nativePart pipes : Bytes)
    (hast : compileFilter go sel.filter = .ok ast) (hnative : nativeParts sel.native = .ok (nativePart, pipes)) :
    ∃ f, buildSelection go sel = .ok (f, pipes) ∧
      ((∀ (I : Reading Row) (r : Row), Selects I r f → Selects I r ast ∧ NativeSelects I r nativePart) ↔
        nativePart = [] ∨ (∃ t, Parses some nativePart t) ∨ ∀ (I : Reading Row) (r : Row), ¬Selects I r f) := by
  refine ⟨combine ast nativePart, by simp [buildSelection, hast, hnative, Except.bind, Except.map], ?_, ?_⟩
  · intro h
    by_cases hempty : nativePart = []
    · exact .inl hempty
    by_cases hfilter : ∃ t, Parses some nativePart t
    · exact .inr (.inl hfilter)
    refine .inr (.inr fun I r hsel => ?_)
    rcases (h I r hsel).2 with hnone | ⟨t, ht, -⟩
    · exact hempty hnone
    · exact hfilter ⟨t, ht⟩
  · rintro (rfl | ⟨tn, hn⟩ | hnothing) I r hsel
    · exact ⟨by simpa [combine] using hsel, .inl rfl⟩
    · obtain ⟨ta, hta⟩ := compileFilter_operand hast
      exact Confined.of_parses hta hn I r hsel
    · exact absurd hsel (hnothing I r)

/-- A filter expression beside a native text. -/
def beside (nativePart : Bytes) : Selection where
  tenant := []
  range := ⟨0, 1⟩
  filter := fieldIs .eq (utf8 "host") (utf8 "fw01")
  native := some ⟨dialectLogsQL, nativePart⟩

theorem buildSelection_confined_iff_alternatives :
    compileFilter plainLib (beside (utf8 "x OR y # z\n")).filter = .ok (utf8 "\"host\":=\"fw01\"") ∧
      nativeParts (beside (utf8 "x OR y # z\n")).native = .ok (utf8 "x OR y # z", []) ∧
      ∃ f, buildSelection plainLib (beside (utf8 "x OR y # z\n")) = .ok (f, []) ∧
        ((∀ (I : Reading Unit) (r : Unit), Selects I r f →
            Selects I r (utf8 "\"host\":=\"fw01\"") ∧ NativeSelects I r (utf8 "x OR y # z")) ↔
          utf8 "x OR y # z" = [] ∨ (∃ t, Parses some (utf8 "x OR y # z") t) ∨
            ∀ (I : Reading Unit) (r : Unit), ¬Selects I r f) :=
  ⟨rfl, rfl, buildSelection_confined_iff Unit plainLib _ _ _ _ rfl rfl⟩

/-- Only the term `y` holds, besides the star. -/
def onlyY : Reading Unit where
  holds l _ := l = ⟨[.bare (utf8 "*")], []⟩ || l = ⟨[.bare (utf8 "y")], []⟩
  star _ := by decide

/-- A native text that closes the bracket selects a row that the expression does not. -/
theorem native_closes_bracket :
    splitNative (utf8 "x) OR (y") = .ok (utf8 "x) OR (y", []) ∧
      ∃ f, buildSelection plainLib (beside (utf8 "x) OR (y")) = .ok (f, []) ∧ Selects onlyY () f ∧
        compileFilter plainLib (beside (utf8 "x) OR (y")).filter = .ok (utf8 "\"host\":=\"fw01\"") ∧
        ¬Selects onlyY () (utf8 "\"host\":=\"fw01\"") := by
  refine ⟨rfl, _, rfl, ?_, rfl, ?_⟩
  · exact (selects_iff (parses_iff.mpr rfl)).mpr rfl
  · intro h
    have := (selects_iff (parses_iff.mpr rfl)).mp h
    exact absurd this (by decide)

end Syslogc.VictoriaLogs
