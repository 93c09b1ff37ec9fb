-- SUMMARY: The lexical level of LogsQL.
import Syslogc.Lib.Bytes

/-!
# LogsQL, the lexical level

A query is cut into terms, brackets and connectives. A term is a run of words and
string literals with nothing between them, such as `"host":="fw01"`; whether it is
one that the store knows is not decided here. Words are cut at blanks, brackets,
literals and comments. There are three kinds of literals, and a comment goes from
`#` to the end of the line. The lexer is a machine that reads one byte at a time, so
that the tokens of a text are those of its parts.
-/

namespace LogsQL

/-! ## Tokens -/

inductive Piece where
  | bare (word : Bytes)
  /-- A string literal, with its quotation marks. -/
  | quoted (literal : Bytes)
deriving DecidableEq, Repr

inductive Token where
  | term (pieces : List Piece)
  /-- A term with an opening bracket right behind it: the call of a function, a range,
  or a group that belongs to a field. -/
  | call (pieces : List Piece)
  | lpar
  | rpar
  | rsquare
  | and
  | or
  | not
deriving DecidableEq, Repr

def lower (c : UInt8) : UInt8 := if 65 ≤ c && c ≤ 90 then c + 32 else c

/-- The connective that a term is, if it is one. Case does not matter. -/
def keyword : List Piece → Option Token
  | [.bare w] =>
    if w.map lower = utf8 "and" then some .and
    else if w.map lower = utf8 "or" then some .or
    else if w.map lower = utf8 "not" then some .not
    else none
  | _ => none

def termToken (ps : List Piece) : Token := (keyword ps).getD (.term ps)

/-! ## The machine -/

inductive Kind where
  | blank
  | hash
  | lpar
  | lsquare
  | rpar
  | rsquare
  /-- A mark that negates what it stands in front of. -/
  | negation
  | quote
  | plain
deriving DecidableEq, Repr

def kind (c : UInt8) : Kind :=
  if c = 32 || (9 ≤ c && c ≤ 13) then .blank
  else if c = 35 then .hash
  else if c = 40 then .lpar
  else if c = 91 then .lsquare
  else if c = 41 then .rpar
  else if c = 93 then .rsquare
  else if c = 33 || c = 45 then .negation
  else if c = 34 || c = 39 || c = 96 then .quote
  else .plain

inductive State where
  | gap
  /-- In a term, after some pieces and a word that may go on. -/
  | term (pieces : List Piece) (word : Bytes)
  | literal (pieces : List Piece) (mark : UInt8) (escaped : Bool) (text : Bytes)
  | comment
deriving DecidableEq, Repr

/-- The pieces of a term that ends here. -/
def pending (ps : List Piece) (word : Bytes) : List Piece :=
  if word = [] then ps else ps ++ [.bare word]

def gapStep (c : UInt8) : Option (State × List Token) :=
  match kind c with
  | .blank => some (.gap, [])
  | .hash => some (.comment, [])
  | .lpar => some (.gap, [.lpar])
  | .lsquare => none
  | .rpar => some (.gap, [.rpar])
  | .rsquare => some (.gap, [.rsquare])
  | .negation => some (.gap, [.not])
  | .quote => some (.literal [] c false [c], [])
  | .plain => some (.term [] [c], [])

/-- The tokens of a step, after those that were due before it. -/
def after (due : List Token) (r : Option (State × List Token)) : Option (State × List Token) :=
  r.map fun p => (p.1, due ++ p.2)

def termStep (ps : List Piece) (word : Bytes) (c : UInt8) : Option (State × List Token) :=
  match kind c with
  | .blank | .hash | .rpar | .rsquare => after [termToken (pending ps word)] (gapStep c)
  | .lpar | .lsquare =>
    match keyword (pending ps word) with
    | some k => after [k] (gapStep c)
    | none => some (.gap, [.call (pending ps word)])
  | .quote => some (.literal (pending ps word) c false [c], [])
  | .negation | .plain => some (.term ps (word ++ [c]), [])

/-- A backslash takes the next byte into the literal, except between backticks. -/
def literalStep (ps : List Piece) (mark : UInt8) (escaped : Bool) (text : Bytes) (c : UInt8) : State :=
  if escaped then .literal ps mark false (text ++ [c])
  else if c = 92 && mark != 96 then .literal ps mark true (text ++ [c])
  else if c = mark then .term (ps ++ [.quoted (text ++ [c])]) []
  else .literal ps mark false (text ++ [c])

def step : State → UInt8 → Option (State × List Token)
  | .gap, c => gapStep c
  | .term ps word, c => termStep ps word c
  | .literal ps mark escaped text, c => some (literalStep ps mark escaped text c, [])
  | .comment, c => some (if c = 10 then .gap else .comment, [])

def run : State → Bytes → Option (State × List Token)
  | σ, [] => some (σ, [])
  | σ, c :: cs => (step σ c).bind fun p => after p.2 (run p.1 cs)

/-- The tokens that are due at the end of the text. -/
def State.finish : State → Option (List Token)
  | .gap | .comment => some []
  | .term ps word => some [termToken (pending ps word)]
  | .literal .. => none

def lex (text : Bytes) : Option (List Token) :=
  (run .gap text).bind fun p => p.1.finish.map (p.2 ++ ·)

/-! ## Reading a text in parts -/

variable {σ τ ρ : State} {text a b : Bytes} {c : UInt8} {ts us : List Token}
  {ps : List Piece} {word : Bytes}

@[simp] theorem after_some (due : List Token) (σ : State) (ts : List Token) :
    after due (some (σ, ts)) = some (σ, due ++ ts) := rfl

@[simp] theorem after_none (due : List Token) : after due none = none := rfl

@[simp] theorem after_nil (r : Option (State × List Token)) : after [] r = r := by
  cases r <;> rfl

theorem run_append (σ : State) (a b : Bytes) :
    run σ (a ++ b) = (run σ a).bind fun p => after p.2 (run p.1 b) := by
  induction a generalizing σ with
  | nil => simp [run, after]
  | cons c a ih =>
    simp only [List.cons_append, run]
    cases step σ c with
    | none => rfl
    | some p =>
      simp only [Option.bind_some, ih]
      cases run p.1 a with
      | none => rfl
      | some q => simp [after, Function.comp_def]

/-- Reading a text takes the machine from one state to another. -/
def Runs (σ : State) (text : Bytes) (τ : State) (ts : List Token) : Prop :=
  run σ text = some (τ, ts)

theorem Runs.nil (σ : State) : Runs σ [] σ [] := rfl

theorem Runs.append (h : Runs σ a τ ts) (h' : Runs τ b ρ us) : Runs σ (a ++ b) ρ (ts ++ us) := by
  simp only [Runs] at h h' ⊢
  simp [run_append, h, h']

theorem Runs.cons (hc : step σ c = some (τ, ts)) (h : Runs τ b ρ us) :
    Runs σ (c :: b) ρ (ts ++ us) := by
  simp only [Runs] at h ⊢
  simp [run, hc, h]

/-- The text is read as these tokens and nothing is open behind it. -/
def Lexes (text : Bytes) (ts : List Token) : Prop := Runs .gap text .gap ts

/-- The tokens of a text that is followed by a break. -/
def State.due : State → List Token
  | .term ps word => [termToken (pending ps word)]
  | _ => []

/-- Behind the text a term may still be open. -/
def State.atBreak : State → Bool
  | .gap | .term .. => true
  | _ => false

/-- The text is read as these tokens if a break or the end follows it. -/
def Settles (text : Bytes) (ts : List Token) : Prop :=
  ∃ σ us, Runs .gap text σ us ∧ σ.atBreak ∧ ts = us ++ σ.due

theorem Lexes.settles (h : Lexes text ts) : Settles text ts := ⟨.gap, ts, h, rfl, by simp [State.due]⟩

theorem Lexes.append (h : Lexes a ts) (h' : Lexes b us) : Lexes (a ++ b) (ts ++ us) :=
  Runs.append h h'

theorem Lexes.append_settles (h : Lexes a ts) (h' : Settles b us) : Settles (a ++ b) (ts ++ us) := by
  obtain ⟨σ, vs, hb, hσ, rfl⟩ := h'
  exact ⟨σ, ts ++ vs, Runs.append h hb, hσ, by simp⟩

def breaks (c : UInt8) : Bool :=
  match kind c with
  | .blank | .hash | .rpar | .rsquare => true
  | _ => false

theorem step_break (hσ : σ.atBreak) (hc : breaks c) : step σ c = after σ.due (gapStep c) := by
  cases σ with
  | gap => exact (after_nil _).symm
  | term ps word =>
    simp only [step, termStep, State.due]
    cases hk : kind c <;> simp_all [breaks]
  | literal ps mark escaped text => simp [State.atBreak] at hσ
  | comment => simp [State.atBreak] at hσ

/-- A break ends what is open behind the text. -/
theorem Settles.ended (h : Settles a ts) (hc : breaks c) (hg : gapStep c = some (τ, us)) :
    Runs .gap (a ++ [c]) τ (ts ++ us) := by
  obtain ⟨σ, vs, ha, hσ, rfl⟩ := h
  have hstep : step σ c = some (τ, σ.due ++ us) := by
    rw [step_break hσ hc, hg]
    rfl
  simpa using ha.append (Runs.cons hstep (.nil τ))

theorem Settles.blank (h : Settles a ts) : Lexes (a ++ utf8 " ") ts := by
  have hr : Runs .gap (a ++ utf8 " ") .gap (ts ++ []) := h.ended rfl rfl
  rwa [List.append_nil] at hr

theorem Settles.rpar (h : Settles a ts) : Lexes (a ++ utf8 ")") (ts ++ [.rpar]) :=
  h.ended rfl rfl

theorem Settles.lex_eq (h : Settles text ts) : lex text = some ts := by
  obtain ⟨σ, us, hr, hσ, rfl⟩ := h
  simp only [Runs] at hr
  cases σ <;> simp_all [lex, State.finish, State.due, State.atBreak]

/-- Behind a text that has tokens, a comment may be open, but no literal. -/
theorem lex_cases (h : lex text = some ts) : Settles text ts ∨ Runs .gap text .comment ts := by
  obtain ⟨⟨σ, us⟩, hr, hf⟩ := Option.bind_eq_some_iff.mp h
  obtain ⟨vs, hv, rfl⟩ := Option.map_eq_some_iff.mp hf
  cases σ with
  | gap =>
    cases hv
    exact .inl ⟨.gap, us, hr, rfl, rfl⟩
  | term ps word =>
    cases hv
    exact .inl ⟨.term ps word, us, hr, rfl, rfl⟩
  | literal ps mark escaped text => cases hv
  | comment =>
    cases hv
    exact .inr (by simpa [Runs] using hr)

end LogsQL
