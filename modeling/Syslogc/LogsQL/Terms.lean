-- SUMMARY: Field terms of LogsQL, written and read back.
import Mathlib.Data.List.TakeWhile
import Syslogc.LogsQL.Grammar

/-!
# LogsQL, field terms

A term compares a field with literals or with a number. `Term.leaf` is how a term is
written and `readTerm` how it is read; both are given what a string literal is, as a
pair of functions that undo each other (`Quoting`).
-/

namespace LogsQL

/-! ## String literals and numbers -/

/-- What stands between the marks of a literal: no mark that is not escaped, and no
backslash that would escape the closing one. -/
def inside : Bool → Bytes → Bool
  | escaped, [] => !escaped
  | true, _ :: cs => inside false cs
  | false, c :: cs => if c = 92 then inside true cs else c != 34 && inside false cs

def Delimited (literal : Bytes) : Prop :=
  ∃ body, literal = 34 :: (body ++ [34]) ∧ inside false body

structure Quoting where
  quote : Bytes → Bytes
  unquote : Bytes → Option Bytes
  delimited : ∀ s, Delimited (quote s)
  unquote_quote : ∀ s, unquote (quote s) = some s

def isDigit (c : UInt8) : Bool := 48 ≤ c && c ≤ 57

/-- Digits, with a fraction or without. -/
def isDecimal (w : Bytes) : Bool :=
  w.takeWhile isDigit ≠ [] &&
    match w.dropWhile isDigit with
    | [] => true
    | c :: ds => c = 46 && ds ≠ [] && ds.all isDigit

def isNumber (w : Bytes) : Bool :=
  w = utf8 "NaN" || w = utf8 "+Inf" || w = utf8 "-Inf" ||
    match w with
    | [] => false
    | c :: ds => if c = 45 then isDecimal ds else isDecimal w

structure Number where
  text : Bytes
  isNumber : isNumber text

/-! ## Terms -/

inductive Comparison where
  | gt
  | gte
  | lt
  | lte
deriving DecidableEq, Repr

def Comparison.text : Comparison → Bytes
  | .gt => utf8 ">"
  | .gte => utf8 ">="
  | .lt => utf8 "<"
  | .lte => utf8 "<="

inductive Condition where
  /-- The words of a phrase, in any case. -/
  | phrase (v : Bytes)
  | exact (v : Bytes)
  | regexp (v : Bytes)
  | compare (op : Comparison) (n : Number)
  | ipv4Range (v : Bytes)
  /-- One of the values, of which there is at least one. -/
  | oneOf (v : Bytes) (vs : List Bytes)
  | any

inductive Term where
  /-- Every row. -/
  | all
  | field (name : Bytes) (c : Condition)

variable {L : Type} (q : Quoting)

def valuePieces : Bytes → List Bytes → List Piece
  | v, [] => [.quoted (q.quote v)]
  | v, v' :: vs => .quoted (q.quote v) :: .bare (utf8 ",") :: valuePieces v' vs

/-- A term as it is written. -/
def Term.leaf : Term → Leaf
  | .all => ⟨[.bare (utf8 "*")], []⟩
  | .field name c =>
    let f := Piece.quoted (q.quote name)
    match c with
    | .phrase v => ⟨[f, .bare (utf8 ":i")], [.term [.quoted (q.quote v)]]⟩
    | .exact v => ⟨[f, .bare (utf8 ":="), .quoted (q.quote v)], []⟩
    | .regexp v => ⟨[f, .bare (utf8 ":~"), .quoted (q.quote v)], []⟩
    | .compare op n => ⟨[f, .bare (utf8 ":" ++ op.text ++ n.text)], []⟩
    | .ipv4Range v => ⟨[f, .bare (utf8 ":ipv4_range")], [.term [.quoted (q.quote v)]]⟩
    | .oneOf v vs => ⟨[f, .bare (utf8 ":in")], [.term (valuePieces q v vs)]⟩
    | .any => ⟨[f, .bare (utf8 ":*")], []⟩

/-- The values of a list, as they are written. -/
def valuesText : Bytes → List Bytes → Bytes
  | v, [] => q.quote v
  | v, v' :: vs => q.quote v ++ utf8 "," ++ valuesText v' vs

/-- The text of a term. -/
def Term.text : Term → Bytes
  | .all => utf8 "*"
  | .field name c =>
    let f := q.quote name
    match c with
    | .phrase v => f ++ utf8 ":i" ++ utf8 "(" ++ q.quote v ++ utf8 ")"
    | .exact v => f ++ utf8 ":=" ++ q.quote v
    | .regexp v => f ++ utf8 ":~" ++ q.quote v
    | .compare op n => f ++ utf8 ":" ++ op.text ++ n.text
    | .ipv4Range v => f ++ utf8 ":ipv4_range" ++ utf8 "(" ++ q.quote v ++ utf8 ")"
    | .oneOf v vs => f ++ utf8 ":in" ++ utf8 "(" ++ valuesText q v vs ++ utf8 ")"
    | .any => f ++ utf8 ":*"

/-- The tokens of a leaf: a call if there is something between its brackets. -/
def Leaf.tokens (l : Leaf) : List Token :=
  if l.args = [] then [.term l.pieces] else .call l.pieces :: (l.args ++ [.rpar])

def readNumber (op : Comparison) (w : Bytes) : Option Condition :=
  if h : isNumber w then some (.compare op ⟨w, h⟩) else none

def readComparison : Bytes → Option Condition
  | 58 :: 62 :: 61 :: w => readNumber .gte w
  | 58 :: 60 :: 61 :: w => readNumber .lte w
  | 58 :: 62 :: w => readNumber .gt w
  | 58 :: 60 :: w => readNumber .lt w
  | _ => none

def readValues : List Piece → Option (Bytes × List Bytes)
  | [.quoted v] => (q.unquote v).map fun v => (v, [])
  | .quoted v :: .bare w :: ps =>
    if w = utf8 "," then
      (q.unquote v).bind fun v => (readValues ps).map fun p => (v, p.1 :: p.2)
    else none
  | _ => none

def readCall (w : Bytes) (ps : List Piece) : Option Condition :=
  (readValues q ps).bind fun p =>
    if w = utf8 ":in" then some (.oneOf p.1 p.2)
    else if p.2 ≠ [] then none
    else if w = utf8 ":i" then some (.phrase p.1)
    else if w = utf8 ":ipv4_range" then some (.ipv4Range p.1)
    else none

def readLiteral (w v : Bytes) : Option Condition :=
  (q.unquote v).bind fun v =>
    if w = utf8 ":=" then some (.exact v) else if w = utf8 ":~" then some (.regexp v) else none

def readCondition : List Piece → List Token → Option Condition
  | [.bare w], [] => if w = utf8 ":*" then some .any else readComparison w
  | [.bare w, .quoted v], [] => readLiteral q w v
  | [.bare w], [.term ps] => readCall q w ps
  | _, _ => none

def readTerm (l : Leaf) : Option Term :=
  match l.pieces with
  | .quoted f :: ps =>
    (q.unquote f).bind fun f => (readCondition q ps l.args).map (Term.field f)
  | ps => if ps = [.bare (utf8 "*")] ∧ l.args = [] then some .all else none

/-! ## Reading what was written -/

variable {q}

theorem readValues_valuePieces (v : Bytes) (vs : List Bytes) :
    readValues q (valuePieces q v vs) = some (v, vs) := by
  induction vs generalizing v with
  | nil => simp [valuePieces, readValues, q.unquote_quote]
  | cons v' vs ih => simp [valuePieces, readValues, q.unquote_quote, ih]

theorem Number.head_ne (n : Number) {w : Bytes} : n.text ≠ 61 :: w := by
  intro h
  have hn := n.isNumber
  rw [h] at hn
  simp only [LogsQL.isNumber, Bool.or_eq_true, decide_eq_true_eq] at hn
  rcases hn with ((h | h) | h) | h
  · cases h
  · cases h
  · cases h
  · simp [isDecimal, isDigit] at h

theorem readComparison_text (op : Comparison) (n : Number) :
    readComparison (utf8 ":" ++ op.text ++ n.text) = some (.compare op n) := by
  have hn : readNumber op n.text = some (.compare op n) := by simp [readNumber, n.isNumber]
  cases op with
  | gte => exact hn
  | lte => exact hn
  | gt =>
    change readComparison (58 :: 62 :: n.text) = _
    rw [readComparison]
    · exact hn
    · intro w h
      exact n.head_ne h
  | lt =>
    change readComparison (58 :: 60 :: n.text) = _
    rw [readComparison]
    · exact hn
    · intro w h
      exact n.head_ne h

theorem readTerm_leaf (t : Term) : readTerm q (t.leaf q) = some t := by
  cases t with
  | all => rfl
  | field name c =>
    have hc : ∀ ps args, readCondition q ps args = some c →
        readTerm q ⟨.quoted (q.quote name) :: ps, args⟩ = some (.field name c) := by
      intro ps args h
      simp [readTerm, q.unquote_quote, h]
    cases c with
    | phrase v =>
      apply hc
      simp only [readCondition, readCall, readValues, q.unquote_quote, Option.map_some, Option.bind_some]
      rfl
    | exact v =>
      apply hc
      simp only [readCondition, readLiteral, q.unquote_quote, Option.bind_some, if_true]
    | regexp v =>
      apply hc
      simp only [readCondition, readLiteral, q.unquote_quote, Option.bind_some]
      rfl
    | compare op n =>
      apply hc
      have hne : utf8 ":" ++ op.text ++ n.text ≠ utf8 ":*" := by
        intro h
        cases op <;> cases h
      simp only [readCondition, hne, if_false]
      exact readComparison_text op n
    | ipv4Range v =>
      apply hc
      simp only [readCondition, readCall, readValues, q.unquote_quote, Option.map_some, Option.bind_some]
      rfl
    | oneOf v vs =>
      apply hc
      simp only [readCondition, readCall, readValues_valuePieces, Option.bind_some, if_true]
    | any => exact hc _ _ rfl

/-! ## The tokens of a written term -/

variable {ps : List Piece} {w v lit : Bytes} {read : Leaf → Option L}

theorem Runs.inside {escaped : Bool} {text body : Bytes} (h : inside escaped body) :
    Runs (.literal ps 34 escaped text) body (.literal ps 34 false (text ++ body)) [] := by
  induction body generalizing escaped text with
  | nil =>
    cases escaped with
    | true => cases h
    | false => simpa using Runs.nil _
  | cons c body ih =>
    have hnext : ∀ {e}, LogsQL.inside e body →
        step (.literal ps 34 escaped text) c = some (.literal ps 34 e (text ++ [c]), []) →
        Runs (.literal ps 34 escaped text) (c :: body) (.literal ps 34 false (text ++ c :: body)) [] := by
      intro e he hc
      simpa using Runs.cons hc (ih he)
    cases escaped with
    | true => exact hnext h rfl
    | false =>
      by_cases hc : c = 92
      · simp only [LogsQL.inside, hc, if_true] at h
        exact hnext h (by simp [step, literalStep, hc])
      · simp only [LogsQL.inside, hc, if_false, Bool.and_eq_true, bne_iff_ne] at h
        exact hnext h.2 (by simp [step, literalStep, hc, h.1])

/-- A literal behind what was read of a term. -/
theorem Runs.literal (h : Delimited lit) (ps : List Piece) (w : Bytes) :
    Runs (.term ps w) lit (.term (pending ps w ++ [.quoted lit]) []) [] := by
  obtain ⟨body, rfl, hbody⟩ := h
  have hopen : step (.term ps w) 34 = some (.literal (pending ps w) 34 false [34], []) := rfl
  have hclose : Runs (.literal (pending ps w) 34 false ([34] ++ body)) [34]
      (.term (pending ps w ++ [.quoted (34 :: (body ++ [34]))]) []) [] := rfl
  simpa using Runs.cons hopen ((Runs.inside hbody).append hclose)

theorem Runs.literal_gap (h : Delimited lit) : Runs .gap lit (.term [.quoted lit] []) [] := by
  obtain ⟨body, rfl, hbody⟩ := h
  have hopen : step .gap 34 = some (.literal [] 34 false [34], []) := rfl
  have hclose : Runs (.literal [] 34 false ([34] ++ body)) [34]
      (.term [.quoted (34 :: (body ++ [34]))] []) [] := rfl
  simpa using Runs.cons hopen ((Runs.inside hbody).append hclose)

/-- A byte that does not end a word. -/
def inWord (c : UInt8) : Bool := kind c = .plain || kind c = .negation

theorem Runs.word {word : Bytes} (h : word.all inWord) (ps : List Piece) (w : Bytes) :
    Runs (.term ps w) word (.term ps (w ++ word)) [] := by
  induction word generalizing w with
  | nil => simpa using Runs.nil _
  | cons c word ih =>
    simp only [List.all_cons, Bool.and_eq_true] at h
    have hc : step (.term ps w) c = some (.term ps (w ++ [c]), []) := by
      have hk : kind c = .plain ∨ kind c = .negation := by simpa [inWord] using h.1
      rcases hk with hk | hk <;> simp [step, termStep, hk]
    simpa using Runs.cons hc (ih h.2 (w ++ [c]))

theorem isDigit_inWord {c : UInt8} (h : isDigit c) : inWord c := by
  have hall : ∀ n : Fin 256, isDigit (.ofBitVec (.ofFin n)) → inWord (.ofBitVec (.ofFin n)) := by
    decide +kernel
  exact hall c.toBitVec.toFin h

theorem isDecimal_all {p : UInt8 → Bool} (hdigit : ∀ c, isDigit c → p c) (hpoint : p 46) (h : isDecimal w) :
    w.all p := by
  rw [← List.takeWhile_append_dropWhile (p := isDigit) (l := w), List.all_append, Bool.and_eq_true]
  constructor
  · simp only [List.all_eq_true]
    intro c hc
    exact hdigit c (List.mem_takeWhile_imp hc)
  · simp only [isDecimal, Bool.and_eq_true] at h
    cases hw : w.dropWhile isDigit with
    | nil => rfl
    | cons c ds =>
      simp only [hw, Bool.and_eq_true, decide_eq_true_eq, List.all_eq_true] at h
      simp only [List.all_cons, Bool.and_eq_true, List.all_eq_true]
      exact ⟨h.2.1.1 ▸ hpoint, fun d hd => hdigit d (h.2.2 d hd)⟩

/-- The bytes of a number besides its digits. -/
def numberMarks : Bytes := utf8 "NaInf+-."

theorem Number.all {p : UInt8 → Bool} (hdigit : ∀ c, isDigit c → p c) (hmarks : numberMarks.all p)
    (n : Number) : n.text.all p := by
  have hmarks := List.all_eq_true.mp hmarks
  have hword : ∀ w : Bytes, w.all numberMarks.contains → w.all p := by
    intro w hw
    exact List.all_eq_true.mpr fun c hc => hmarks c (List.contains_iff_mem.mp (List.all_eq_true.mp hw c hc))
  have hn := n.isNumber
  simp only [LogsQL.isNumber, Bool.or_eq_true, decide_eq_true_eq] at hn
  rcases hn with ((h | h) | h) | h
  · exact hword _ (h ▸ rfl)
  · exact hword _ (h ▸ rfl)
  · exact hword _ (h ▸ rfl)
  · have hpoint : p 46 := hmarks 46 (List.contains_iff_mem.mp rfl)
    cases hw : n.text with
    | nil => rfl
    | cons c ds =>
      simp only [hw] at h
      split at h
      next hc =>
        rw [List.all_cons, isDecimal_all hdigit hpoint h, Bool.and_true, hc]
        exact hmarks 45 (List.contains_iff_mem.mp rfl)
      next => exact isDecimal_all hdigit hpoint h

theorem Number.inWord (n : Number) : n.text.all inWord :=
  n.all (fun _ => isDigit_inWord) (by decide)

theorem Number.text_ne_nil (n : Number) : n.text ≠ [] := by
  intro h
  have hn := n.isNumber
  rw [h] at hn
  cases hn

/-- The bracket of a call, behind a term that is no connective. -/
theorem Runs.call (h : keyword (pending ps w) = none) :
    Runs (.term ps w) (utf8 "(") .gap [.call (pending ps w)] := by
  have hc : step (.term ps w) 40 = some (.gap, [.call (pending ps w)]) := by
    change termStep ps w 40 = _
    rw [termStep]
    simp only [show kind 40 = .lpar from rfl, h]
  exact Runs.cons hc (.nil .gap)

/-- The rest of a list of values. -/
theorem Runs.values (q : Quoting) (ps : List Piece) (w v : Bytes) (vs : List Bytes) :
    Runs (.term ps w) (valuesText q v vs) (.term (pending ps w ++ valuePieces q v vs) []) [] := by
  induction vs generalizing ps w v with
  | nil => exact Runs.literal (q.delimited v) ps w
  | cons v' vs ih =>
    have hcomma : Runs (.term (pending ps w ++ [.quoted (q.quote v)]) []) (utf8 ",")
        (.term (pending ps w ++ [.quoted (q.quote v)]) (utf8 ",")) [] := rfl
    have hrest := ((Runs.literal (q.delimited v) ps w).append hcomma).append (ih _ _ v')
    simpa [valuesText, valuePieces, pending, show utf8 "," ≠ [] by decide] using hrest

theorem Runs.values_gap (q : Quoting) (v : Bytes) (vs : List Bytes) :
    Runs .gap (valuesText q v vs) (.term (valuePieces q v vs) []) [] := by
  cases vs with
  | nil => exact Runs.literal_gap (q.delimited v)
  | cons v' vs =>
    have hcomma : Runs (.term [.quoted (q.quote v)] []) (utf8 ",")
        (.term [.quoted (q.quote v)] (utf8 ",")) [] := rfl
    have hrest := ((Runs.literal_gap (q.delimited v)).append hcomma).append (Runs.values q _ _ v' vs)
    simpa [valuesText, valuePieces, pending, show utf8 "," ≠ [] by decide] using hrest

/-- The field of a term and the word behind it. -/
theorem Runs.field (q : Quoting) (name : Bytes) {word : Bytes} (h : word.all LogsQL.inWord) :
    Runs .gap (q.quote name ++ word) (.term [.quoted (q.quote name)] word) [] := by
  simpa using (Runs.literal_gap (q.delimited name)).append (Runs.word h _ [])

/-- A function of a field, called with some values. -/
theorem Lexes.called (name word : Bytes) (h : word.all LogsQL.inWord) (hne : word ≠ [])
    (v : Bytes) (vs : List Bytes) :
    Lexes (q.quote name ++ word ++ utf8 "(" ++ valuesText q v vs ++ utf8 ")")
      [.call [.quoted (q.quote name), .bare word], .term (valuePieces q v vs), .rpar] := by
  have hpieces : pending [.quoted (q.quote name)] word = [.quoted (q.quote name), .bare word] := by
    simp [pending, hne]
  have hcall : Runs (.term [.quoted (q.quote name)] word) (utf8 "(") .gap
      [.call (pending [.quoted (q.quote name)] word)] := Runs.call (by rw [hpieces]; rfl)
  have hvalues := ((Runs.field q name h).append hcall).append (Runs.values_gap q v vs)
  have hkeyword : keyword (valuePieces q v vs) = none := by cases vs <;> rfl
  have hsettled : Settles (q.quote name ++ word ++ utf8 "(" ++ valuesText q v vs)
      [.call [.quoted (q.quote name), .bare word], .term (valuePieces q v vs)] := by
    refine ⟨_, _, hvalues, rfl, ?_⟩
    simp [State.due, pending, hne, termToken, hkeyword]
  simpa using hsettled.rpar

/-- A term without brackets is one token. -/
theorem Settles.of_runs (h : Runs .gap v (.term ps w) []) (hk : keyword (pending ps w) = none) :
    Settles v [.term (pending ps w)] :=
  ⟨_, _, h, rfl, by simp [State.due, termToken, hk]⟩

/-- A field compared with a literal. -/
theorem Settles.compared (name v : Bytes) {word : Bytes} (h : word.all LogsQL.inWord) (hne : word ≠ []) :
    Settles (q.quote name ++ word ++ q.quote v)
      [.term [.quoted (q.quote name), .bare word, .quoted (q.quote v)]] := by
  have hrun := (Runs.field q name h).append (Runs.literal (q.delimited v) _ _)
  have hsettled := Settles.of_runs hrun (by simp [pending, hne, keyword])
  simpa [pending, hne] using hsettled

theorem Settles.single (name : Bytes) {word : Bytes} (h : word.all LogsQL.inWord) (hne : word ≠ []) :
    Settles (q.quote name ++ word) [.term [.quoted (q.quote name), .bare word]] := by
  have hsettled := Settles.of_runs (Runs.field q name h) (by simp [pending, hne, keyword])
  simpa [pending, hne] using hsettled

theorem Comparison.inWord (op : Comparison) : op.text.all LogsQL.inWord := by
  cases op <;> decide

theorem Term.settles (t : Term) : Settles (t.text q) (t.leaf q).tokens := by
  cases t with
  | all => exact ⟨_, _, (rfl : Runs .gap (utf8 "*") (.term [] (utf8 "*")) []), rfl, rfl⟩
  | field name c =>
    cases c with
    | phrase v => exact (Lexes.called name (utf8 ":i") (by decide) (by decide) v []).settles
    | exact v => exact Settles.compared name v (by decide) (by decide)
    | regexp v => exact Settles.compared name v (by decide) (by decide)
    | compare op n =>
      have hword : (utf8 ":" ++ op.text ++ n.text).all LogsQL.inWord := by
        simp only [List.all_append, op.inWord, n.inWord, Bool.and_true]
        decide
      have hne : utf8 ":" ++ op.text ++ n.text ≠ [] := by
        intro h
        cases h
      simpa [Term.text, Term.leaf, Leaf.tokens] using Settles.single (q := q) name hword hne
    | ipv4Range v =>
      exact (Lexes.called name (utf8 ":ipv4_range") (by decide) (by decide) v []).settles
    | oneOf v vs =>
      exact (Lexes.called name (utf8 ":in") (by decide) (by decide) v vs).settles
    | any => exact Settles.single name (by decide) (by decide)

theorem Term.reads {t : Term} {l : L} (h : read (t.leaf q) = some l) :
    Reads read .unary (t.leaf q).tokens [.leaf l] := by
  cases t with
  | all => exact .term h
  | field name c =>
    cases c with
    | phrase v => exact .call rfl rfl h
    | exact v => exact .term h
    | regexp v => exact .term h
    | compare op n => exact .term h
    | ipv4Range v => exact .call rfl rfl h
    | oneOf v vs => exact .call rfl rfl h
    | any => exact .term h

/-! ## Literals with backslashes -/

def escape (s : Bytes) : Bytes := s.flatMap fun c => if c = 34 || c = 92 then [92, c] else [c]

def unescape : Bool → Bytes → Bytes
  | _, [] => []
  | true, c :: cs => c :: unescape false cs
  | false, c :: cs => if c = 92 then unescape true cs else c :: unescape false cs

/-- A mark or a backslash is escaped, every other byte stands for itself. -/
theorem escape_cons (c : UInt8) (s : Bytes) :
    escape (c :: s) = (if c = 34 || c = 92 then [92, c] else [c]) ++ escape s := by
  simp [escape]

theorem inside_escape (s : Bytes) : inside false (escape s) := by
  induction s with
  | nil => rfl
  | cons c s ih =>
    rw [escape_cons]
    split
    next => simpa [inside] using ih
    next hc =>
      simp only [Bool.or_eq_true, decide_eq_true_eq, not_or] at hc
      simpa [inside, hc] using ih

theorem unescape_escape (s : Bytes) : unescape false (escape s) = s := by
  induction s with
  | nil => rfl
  | cons c s ih =>
    rw [escape_cons]
    split
    next => simpa [unescape] using ih
    next hc =>
      simp only [Bool.or_eq_true, decide_eq_true_eq, not_or] at hc
      simpa [unescape, hc] using ih

/-- The plainest literals there are. -/
def backslashes : Quoting where
  quote s := 34 :: (escape s ++ [34])
  unquote l := some (unescape false (l.drop 1).dropLast)
  delimited s := ⟨escape s, rfl, inside_escape s⟩
  unquote_quote s := by simp [unescape_escape]

end LogsQL
