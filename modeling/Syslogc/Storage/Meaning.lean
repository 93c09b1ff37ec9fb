-- SUMMARY: The LogsQL text of a filter parses to its own tree.
import Syslogc.Storage.Compile

/-!
# What compiled filters mean

`Expr.tree` reads a filter expression as a tree of LogsQL terms without going through
text: aliased fields, operators and values, with the negated operators as NOT of the
positive term. The compiled text of the expression parses to this tree and to no other.
-/

namespace Syslogc.VictoriaLogs

open Syslogc.Filter LogsQL

/-! ## The tree of an expression -/

variable (go : GoLib) {L : Type} (leaf : Term → L)

/-- The comparison with a number. -/
def numeric (op : Comparison) (value : Bytes) : Option Condition :=
  (go.parseFloat value).map fun n => .compare op (go.formatFloat n)

/-- The condition of an operator on its field; that of a negated one is the positive one. -/
def condition (op : Op) (value : Bytes) (values : List Bytes) : Option Condition :=
  match op with
  | .text => some (.phrase value)
  | .eq | .ne => some (.exact value)
  | .contains => some (.regexp (utf8 "(?i)" ++ quoteMeta value))
  | .startsWith => some (.regexp (utf8 "^" ++ quoteMeta value))
  | .regex => some (.regexp value)
  | .gt => numeric go .gt value
  | .gte => numeric go .gte value
  | .lt => numeric go .lt value
  | .lte => numeric go .lte value
  | .cidr => some (.ipv4Range value)
  | .isIn | .notIn => values.head?.map fun v => .oneOf v values.tail
  | .exist | .notExist => some .any
  | _ => none

def negated : Op → Bool
  | .ne | .notIn | .notExist => true
  | _ => false

/-- The field of a term; a text is looked for in the message. -/
def termField (op : Op) (field : Bytes) : Bytes :=
  if op = .text then fieldMsg else storageField field

/-- The tree of a leaf. -/
def leafTree (op : Op) (field : Bytes) (c : Condition) : ParseTree L :=
  if negated op then .not (.leaf (leaf (.field (termField op field) c)))
  else .leaf (leaf (.field (termField op field) c))

mutual

def tree : Expr → Option (ParseTree L)
  | .null => none
  | .node op args arg field value values =>
    match op with
    | .and => (trees args).map conj
    | .or => (trees args).map disj
    | .not => (tree arg).map .not
    | _ => (condition go op value values).map (leafTree leaf op field)

def trees : List Expr → Option (List (ParseTree L))
  | [] => some []
  | a :: as => (tree a).bind fun t => (trees as).map fun ts => t :: ts

end

/-- The tree of a filter; no expression is the term that every row meets. -/
def filterTree : Expr → Option (ParseTree L)
  | .null => some (.leaf (leaf .all))
  | e => tree go leaf e

/-! ## Compiled text -/

/-- The words outside of string literals that no user chose. -/
def vocabulary : List Bytes :=
  [utf8 "*", utf8 ":i", utf8 ":=", utf8 ":~", utf8 ":ipv4_range", utf8 ":in", utf8 ":*", utf8 ","]

/-- A word of the compiler, or a comparison with a number that it has formatted. -/
def FixedWord (w : Bytes) : Prop :=
  w ∈ vocabulary ∨ ∃ (op : Comparison) (n : go.Float64), w = utf8 ":" ++ op.text ++ (go.formatFloat n).text

/-- What stands outside of string literals is fixed. -/
def FixedPieces (ps : List Piece) : Prop := ∀ w, .bare w ∈ ps → FixedWord go w

def FixedTokens (toks : List Token) : Prop :=
  ∀ ps, .term ps ∈ toks ∨ .call ps ∈ toks → FixedPieces go ps

/-- The text is that of a single operand with this tree. -/
def Compiles (read : Leaf → Option L) (s : Bytes) (t : ParseTree L) : Prop :=
  ∃ toks, Settles s toks ∧ FixedTokens go toks ∧ Reads read .unary toks [t]

variable {go leaf} {read : Leaf → Option L} {toks toks' : List Token} {s s' : Bytes} {t : ParseTree L}
  {ts : List (ParseTree L)} {e : Expr} {args : List Expr} {op : Op} {value : Bytes} {values : List Bytes}

theorem FixedTokens.append (h : FixedTokens go toks) (h' : FixedTokens go toks') :
    FixedTokens go (toks ++ toks') := by
  intro ps hps
  simp only [List.mem_append] at hps
  rcases hps with (hps | hps) | (hps | hps)
  · exact h ps (.inl hps)
  · exact h' ps (.inl hps)
  · exact h ps (.inr hps)
  · exact h' ps (.inr hps)

/-- Brackets and connectives. -/
theorem FixedTokens.marks (h : ∀ k ∈ toks, k = .lpar ∨ k = .rpar ∨ k = .and ∨ k = .or ∨ k = .not) :
    FixedTokens go toks := by
  intro ps hps
  rcases hps with hps | hps
  · simpa using h _ hps
  · simpa using h _ hps

theorem valuePieces_bare {q : Quoting} {v w : Bytes} {vs : List Bytes} (h : .bare w ∈ valuePieces q v vs) :
    w = utf8 "," := by
  induction vs generalizing v with
  | nil => simp [valuePieces] at h
  | cons v' vs ih =>
    simp only [valuePieces, List.mem_cons, reduceCtorEq, Piece.bare.injEq, false_or] at h
    rcases h with h | h
    · exact h
    · exact ih h

/-- A number in a condition is one that was formatted. -/
theorem condition_compare {cmp : Comparison} {n : Number}
    (h : condition go op value values = some (.compare cmp n)) : ∃ x, n = go.formatFloat x := by
  have hnumeric : ∀ {cmp'}, numeric go cmp' value = some (.compare cmp n) → ∃ x, n = go.formatFloat x := by
    intro cmp' h
    obtain ⟨x, -, hx⟩ := Option.map_eq_some_iff.mp h
    cases hx
    exact ⟨x, rfl⟩
  cases op with
  | gt | gte | lt | lte => exact hnumeric h
  | isIn | notIn =>
    obtain ⟨v, -, hv⟩ := Option.map_eq_some_iff.mp h
    cases hv
  | _ => cases h

theorem FixedTokens.term {ps : List Piece} (h : FixedPieces go ps) : FixedTokens go [.term ps] := by
  intro ps' hps
  simp only [List.mem_singleton, Token.term.injEq, reduceCtorEq, or_false] at hps
  exact hps ▸ h

theorem FixedTokens.call {ps ps' : List Piece} (h : FixedPieces go ps) (h' : FixedPieces go ps') :
    FixedTokens go [.call ps, .term ps', .rpar] := by
  intro ps'' hps
  simp only [List.mem_cons, Token.term.injEq, Token.call.injEq, reduceCtorEq, List.not_mem_nil, false_or,
    or_false] at hps
  rcases hps with hps | hps
  · exact hps ▸ h'
  · exact hps ▸ h

/-- The pieces of a field with a word of the compiler behind it. -/
theorem FixedPieces.field {f w : Bytes} {ps : List Piece} (h : FixedWord go w) (hps : FixedPieces go ps) :
    FixedPieces go (.quoted f :: .bare w :: ps) := by
  intro w' hw
  simp only [List.mem_cons, reduceCtorEq, Piece.bare.injEq, false_or] at hw
  rcases hw with hw | hw
  · exact hw ▸ h
  · exact hps w' hw

theorem FixedPieces.nil : FixedPieces go [] := by
  intro w hw
  simp at hw

theorem FixedPieces.literals (v : Bytes) (vs : List Bytes) :
    FixedPieces go (valuePieces go.toQuoting v vs) := by
  intro w hw
  exact .inl (valuePieces_bare hw ▸ by decide)

theorem FixedPieces.literal (v : Bytes) : FixedPieces go [.quoted (go.quote v)] :=
  FixedPieces.literals v []

theorem condition_fixed {c : Condition} (h : condition go op value values = some c) (name : Bytes) :
    FixedTokens go ((Term.field name c).leaf go.toQuoting).tokens := by
  cases c with
  | phrase v => exact .call (.field (.inl (by decide)) .nil) (.literal v)
  | exact v => exact .term (.field (.inl (by decide)) (.literal v))
  | regexp v => exact .term (.field (.inl (by decide)) (.literal v))
  | compare cmp n =>
    obtain ⟨x, rfl⟩ := condition_compare h
    exact .term (.field (.inr ⟨cmp, x, rfl⟩) .nil)
  | ipv4Range v => exact .call (.field (.inl (by decide)) .nil) (.literal v)
  | oneOf v vs => exact .call (.field (.inl (by decide)) .nil) (.literals v vs)
  | any => exact .term (.field (.inl (by decide)) .nil)

/-! ## Leaves -/

theorem compileValues_text (v : Bytes) (vs : List Bytes) :
    compileValues go true (v :: vs) = valuesText go.toQuoting v vs := by
  have hrest : ∀ vs v, go.quote v ++ compileValues go false vs = valuesText go.toQuoting v vs := by
    intro vs
    induction vs with
    | nil => intro v; simp [compileValues, valuesText]
    | cons v' vs ih => intro v; simp [compileValues, valuesText, ← ih v']
  simpa [compileValues] using hrest vs v

/-- A leaf is written as its term, behind a NOT if its operator is a negated one. -/
theorem compile_leaf (args : List Expr) (arg : Expr) (field : Bytes) (hop : op ≠ .and ∧ op ≠ .or ∧ op ≠ .not)
    (h : op.Operand go value values) :
    compile go (.node op args arg field value values) = .error unsupportedCIDR ∨
      ∃ c, condition go op value values = some c ∧
        compile go (.node op args arg field value values)
          = .ok ((if negated op then utf8 "NOT " else [])
            ++ (Term.field (termField op field) c).text go.toQuoting) := by
  have hnumeric : ∀ cmp : Comparison, (go.parseFloat value).isSome →
      ∃ c, numeric go cmp value = some c ∧
        compileComparison go op cmp.text (go.quote (storageField field)) value
          = .ok ((Term.field (storageField field) c).text go.toQuoting) := by
    intro cmp hvalue
    obtain ⟨n, hn⟩ := Option.isSome_iff_exists.mp hvalue
    exact ⟨.compare cmp (go.formatFloat n), by simp [numeric, hn], by simp [compileComparison, hn, Term.text]⟩
  cases op with
  | and => exact absurd rfl hop.1
  | or => exact absurd rfl hop.2.1
  | not => exact absurd rfl hop.2.2
  | other name => exact h.elim
  | gt => exact .inr (hnumeric .gt h)
  | gte => exact .inr (hnumeric .gte h)
  | lt => exact .inr (hnumeric .lt h)
  | lte => exact .inr (hnumeric .lte h)
  | cidr =>
    by_cases hv : 58 ∈ value
    · exact .inl (by simp [compile, hv])
    · exact .inr ⟨_, rfl, by simp [compile, hv, negated, termField, Term.text]; rfl⟩
  | isIn =>
    obtain ⟨v, vs, rfl⟩ := List.exists_cons_of_ne_nil h
    exact .inr ⟨_, rfl, by simp [compile, compileValues_text, negated, termField, Term.text]; rfl⟩
  | notIn =>
    obtain ⟨v, vs, rfl⟩ := List.exists_cons_of_ne_nil h
    exact .inr ⟨_, rfl, by simp [compile, compileValues_text, negated, termField, Term.text]; rfl⟩
  | text => exact .inr ⟨_, rfl, by simp [compile, negated, termField, Term.text]; rfl⟩
  | _ => exact .inr ⟨_, rfl, by simp [compile, negated, termField, Term.text]⟩

/-! ## Whole expressions -/

/-- The compiler refuses the expression for a range of IPv6 addresses, or writes a
text that reads as the tree of the expression. -/
def Good (go : GoLib) (leaf : Term → L) (read : Leaf → Option L) (e : Expr) : Prop :=
  compile go e = .error unsupportedCIDR ∨
    ∃ s t, compile go e = .ok s ∧ tree go leaf e = some t ∧ Compiles go read s t

theorem lexes_not : Lexes (utf8 "NOT ") [.not] := rfl

theorem Compiles.not (h : Compiles go read s t) : Compiles go read (utf8 "NOT " ++ s) (.not t) := by
  obtain ⟨toks, hs, hfixed, hreads⟩ := h
  have hmarks : FixedTokens go [.not] := .marks (by simp)
  exact ⟨_, lexes_not.append_settles hs, hmarks.append hfixed, hreads.not⟩

theorem Compiles.group (hs : Settles s toks) (hfixed : FixedTokens go toks) (h : Reads read .or toks ts) :
    Compiles go read (utf8 "(" ++ s ++ utf8 ")") (disj ts) := by
  have hopen : Lexes (utf8 "(") [.lpar] := rfl
  have hmarks : FixedTokens go [.lpar] ∧ FixedTokens go [.rpar] := ⟨.marks (by simp), .marks (by simp)⟩
  exact ⟨_, (hopen.append_settles hs).rpar.settles, (hmarks.1.append hfixed).append hmarks.2, by simpa using h.group⟩

theorem good_leaf {arg : Expr} {field : Bytes} (hread : ∀ t : Term, read (t.leaf go.toQuoting) = some (leaf t))
    (hop : op ≠ .and ∧ op ≠ .or ∧ op ≠ .not) (h : op.Operand go value values) :
    Good go leaf read (.node op args arg field value values) := by
  rcases compile_leaf args arg field hop h with herr | ⟨c, hc, hcompile⟩
  · exact .inl herr
  · have hterm : Compiles go read ((Term.field (termField op field) c).text go.toQuoting)
        (.leaf (leaf (.field (termField op field) c))) :=
      ⟨_, Term.settles _, condition_fixed hc _, Term.reads (hread _)⟩
    refine .inr ⟨_, leafTree leaf op field c, hcompile, ?_, ?_⟩
    · cases op <;> simp_all [tree]
    · rw [leafTree]
      split
      next => exact hterm.not
      next => simpa using hterm

/-- How the operands of a connective are joined. -/
structure Joins (read : Leaf → Option L) (word : Bytes) (sep : Token) (lvl : Level) : Prop where
  lexes : Lexes (word ++ utf8 " ") [sep]
  mark : sep = .and ∨ sep = .or
  operand : ∀ {s t}, Reads read .unary s [t] → Reads read lvl s [t]
  join : ∀ {s ts s' t}, Reads read lvl s ts → Reads read .unary s' [t] → Reads read lvl (s ++ sep :: s') (ts ++ [t])

theorem Joins.and : Joins read (utf8 "AND") .and .and where
  lexes := rfl
  mark := .inl rfl
  operand := .operand
  join := .and

theorem Joins.or : Joins read (utf8 "OR") .or .or where
  lexes := rfl
  mark := .inr rfl
  operand h := .alternative (.operand h)
  join h h' := .or h (.operand h')

/-- The operands behind the first ones. -/
theorem compileArgs_rest {word : Bytes} {sep : Token} {lvl : Level} (hj : Joins read word sep lvl)
    (hargs : ∀ a ∈ args, Good go leaf read a) (hs : Settles s toks) (hfixed : FixedTokens go toks)
    (hreads : Reads read lvl toks ts) :
    compileArgs go (utf8 " " ++ word ++ utf8 " ") false args = .error unsupportedCIDR ∨
      ∃ rest us toks', compileArgs go (utf8 " " ++ word ++ utf8 " ") false args = .ok rest ∧
        trees go leaf args = some us ∧ Settles (s ++ rest) toks' ∧ FixedTokens go toks' ∧
        Reads read lvl toks' (ts ++ us) := by
  induction args generalizing s toks ts with
  | nil => exact .inr ⟨[], [], toks, rfl, rfl, by simpa using hs, hfixed, by simpa using hreads⟩
  | cons a as ih =>
    rcases hargs a (by simp) with herr | ⟨sa, ta, hcompile, htree, toksa, hsa, hfixeda, hreadsa⟩
    · exact .inl (by rw [compileArgs, herr]; rfl)
    · have hsep : FixedTokens go [sep] := .marks (by rcases hj.mark with h | h <;> simp [h])
      have hnext := (hs.blank.append hj.lexes).append_settles hsa
      rcases ih (fun b hb => hargs b (by simp [hb])) hnext ((hfixed.append hsep).append hfixeda)
        (by simpa using hj.join hreads hreadsa) with herr | ⟨rest, us, toks', hrest, htrees, hsettles, hfixed', hreads'⟩
      · exact .inl (by rw [compileArgs, hcompile, Except.bind, herr]; rfl)
      · refine .inr ⟨utf8 " " ++ word ++ utf8 " " ++ sa ++ rest, ta :: us, toks', ?_, ?_, ?_, hfixed', ?_⟩
        · rw [compileArgs, hcompile, Except.bind, hrest]
          rfl
        · simp [trees, htree, htrees]
        · simpa using hsettles
        · simpa using hreads'

theorem compileArgs_good {word : Bytes} {sep : Token} {lvl : Level} (hj : Joins read word sep lvl) (hne : args ≠ [])
    (hargs : ∀ a ∈ args, Good go leaf read a) :
    compileArgs go (utf8 " " ++ word ++ utf8 " ") true args = .error unsupportedCIDR ∨
      ∃ s ts toks, compileArgs go (utf8 " " ++ word ++ utf8 " ") true args = .ok s ∧
        trees go leaf args = some ts ∧ Settles s toks ∧ FixedTokens go toks ∧ Reads read lvl toks ts := by
  obtain ⟨a, as, rfl⟩ := List.exists_cons_of_ne_nil hne
  rcases hargs a (by simp) with herr | ⟨sa, ta, hcompile, htree, toksa, hsa, hfixeda, hreadsa⟩
  · exact .inl (by rw [compileArgs, herr]; rfl)
  · have has : ∀ b ∈ as, Good go leaf read b := fun b hb => hargs b (by simp [hb])
    rcases compileArgs_rest hj has hsa hfixeda (hj.operand hreadsa) with
      herr | ⟨rest, us, toks, hrest, htrees, hsettles, hfixed, hreads⟩
    · exact .inl (by rw [compileArgs, hcompile, Except.bind, herr]; rfl)
    · refine .inr ⟨sa ++ rest, ta :: us, toks, ?_, ?_, hsettles, hfixed, hreads⟩
      · rw [compileArgs, hcompile, Except.bind, hrest]
        rfl
      · simp [trees, htree, htrees]

theorem compile_connective (args : List Expr) (arg : Expr) (field value : Bytes) (values : List Bytes) :
    compile go (.node .and args arg field value values)
        = (compileArgs go (utf8 " " ++ utf8 "AND" ++ utf8 " ") true args).map
          (fun s => utf8 "(" ++ s ++ utf8 ")") ∧
      compile go (.node .or args arg field value values)
        = (compileArgs go (utf8 " " ++ utf8 "OR" ++ utf8 " ") true args).map
          (fun s => utf8 "(" ++ s ++ utf8 ")") := by
  simp only [compile]
  exact ⟨rfl, rfl⟩

theorem good_of_valid (hread : ∀ t : Term, read (t.leaf go.toQuoting) = some (leaf t)) (h : e.Valid go) :
    Good go leaf read e := by
  induction h with
  | connective hop hne _ ih =>
    rcases hop with rfl | rfl
    · rcases compileArgs_good Joins.and hne ih with herr | ⟨s, ts, toks, hs, hts, hsettles, hfixed, hreads⟩
      · exact .inl (by rw [(compile_connective _ _ _ _ _).1, herr]; rfl)
      · refine .inr ⟨_, conj ts, ?_, by simp [tree, hts], Compiles.group hsettles hfixed (.alternative hreads)⟩
        rw [(compile_connective _ _ _ _ _).1, hs]
        rfl
    · rcases compileArgs_good Joins.or hne ih with herr | ⟨s, ts, toks, hs, hts, hsettles, hfixed, hreads⟩
      · exact .inl (by rw [(compile_connective _ _ _ _ _).2, herr]; rfl)
      · refine .inr ⟨_, disj ts, ?_, by simp [tree, hts], Compiles.group hsettles hfixed hreads⟩
        rw [(compile_connective _ _ _ _ _).2, hs]
        rfl
  | not _ ih =>
    rcases ih with herr | ⟨s, t, hs, ht, toks, hsettles, hfixed, hreads⟩
    · exact .inl (by simp [compile, herr, Except.map])
    · refine .inr ⟨_, .not t, by simp only [compile, hs]; rfl, by simp [tree, ht], ?_⟩
      have hgroup := (Compiles.group hsettles hfixed (.alternative (.operand hreads))).not
      rw [show utf8 "NOT (" = utf8 "NOT " ++ utf8 "(" from rfl]
      simpa [conj, disj] using hgroup
  | leaf hop h => exact good_leaf hread hop h

/-- The filter of a selection, with the text that stands for no expression. -/
theorem compileFilter_compiles (hread : ∀ t : Term, read (t.leaf go.toQuoting) = some (leaf t))
    {u : Unit} (hv : validate go e = .ok u) :
    compileFilter go e = .error (.other unsupportedCIDR) ∨
      ∃ s t, compileFilter go e = .ok s ∧ filterTree go leaf e = some t ∧ Compiles go read s t := by
  cases e with
  | null =>
    refine .inr ⟨utf8 "*", .leaf (leaf .all), rfl, rfl, ?_⟩
    have hfixed : FixedTokens go (Term.all.leaf go.toQuoting).tokens := by
      apply FixedTokens.term
      intro w hw
      cases List.mem_singleton.mp hw
      exact .inl (by decide)
    exact ⟨_, Term.settles .all, hfixed, Term.reads (hread .all)⟩
  | node op args arg field value values =>
    have hvalid := (validate_valid hv).resolve_left (by rintro ⟨⟩)
    rcases good_of_valid hread hvalid with herr | ⟨s, t, hs, ht, hc⟩
    · exact .inl (by simp only [compileFilter, hv, herr])
    · exact .inr ⟨s, t, by simp only [compileFilter, hv, hs], ht, hc⟩

theorem Compiles.parses (h : Compiles go read s t) : Parses read s t := by
  obtain ⟨toks, hs, -, hreads⟩ := h
  exact ⟨toks, [t], hs.lex_eq, .alternative (.operand hreads), rfl⟩

theorem parses_unique {t' : ParseTree L} (h : Parses read s t) (h' : Parses read s t') : t' = t := by
  rw [parses_iff] at h h'
  exact Option.some.inj (h'.symm.trans h)

/-- Read with the terms of LogsQL, the compiled text has exactly one tree, the one of the
expression, and outside of string literals it has no word but those of the compiler. -/
theorem compileFilter_tree (go : GoLib) (e : Expr) (u : Unit) (hv : validate go e = .ok u) :
    compileFilter go e = .error (.other unsupportedCIDR) ∨
      ∃ text t toks, compileFilter go e = .ok text ∧ filterTree go id e = some t ∧
        (∀ t', Parses (readTerm go.toQuoting) text t' ↔ t' = t) ∧
        lex text = some toks ∧ FixedTokens go toks := by
  have hread : ∀ t : Term, readTerm go.toQuoting (t.leaf go.toQuoting) = some (id t) := readTerm_leaf
  rcases compileFilter_compiles hread hv with herr | ⟨text, t, htext, ht, hc⟩
  · exact .inl herr
  · have hparses := hc.parses
    obtain ⟨toks, hs, hfixed, -⟩ := hc
    refine .inr ⟨text, t, toks, htext, ht, fun t' => ⟨parses_unique hparses, ?_⟩, hs.lex_eq, hfixed⟩
    rintro rfl
    exact hparses

/-- A library whose numbers are their own texts. -/
def plainLib : GoLib where
  toQuoting := backslashes
  Float64 := Number
  parseFloat w := if h : isNumber w then some ⟨w, h⟩ else none
  formatFloat n := n
  regexpError _ := none
  parsePrefix w := w.contains 47

/-- A connective or an operator of a field, with nothing in the fields it does not read. -/
def connective (op : Op) (args : List Expr) : Expr := .node op args .null [] [] []

def fieldIs (op : Op) (field value : Bytes) : Expr := .node op [] .null field value []

/-- A bracket and a connective in a value, below a negated alternative. -/
def injected : Expr :=
  connective .and
    [fieldIs .eq (utf8 "host") (utf8 "fw01\") OR (\"x"),
      .node .not [] (connective .or [fieldIs .gt (utf8 "severity_code") (utf8 "3"),
        fieldIs .notExist (utf8 "message") []]) [] [] []]

theorem compileFilter_tree_injected :
    validate plainLib injected = .ok () ∧
      (compileFilter plainLib injected = .error (.other unsupportedCIDR) ∨
        ∃ text t toks, compileFilter plainLib injected = .ok text ∧ filterTree plainLib id injected = some t ∧
          (∀ t', Parses (readTerm plainLib.toQuoting) text t' ↔ t' = t) ∧
          lex text = some toks ∧ FixedTokens plainLib toks) :=
  ⟨rfl, compileFilter_tree plainLib injected () rfl⟩

end Syslogc.VictoriaLogs
