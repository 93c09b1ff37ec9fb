-- SUMMARY: The text form of filter expressions in explorer URLs.
import Mathlib
import Syslogc.Lib.Fallible
import Syslogc.Lib.Fuel

/-!
# Filter text

The explorer writes a filter expression into its URL as text and reads it back. Texts
are sequences of UTF-16 code units, as in the browser. The parser is a recursive
descent over the tokens; it is given fuel, of which a list of tokens needs a bounded
amount.
-/

namespace Syslogc.FilterText

open Fuel

/-! ## Text -/

abbrev Text := List UInt16

/-- The code units of a text of ASCII characters. -/
def units (s : String) : Text := s.toList.map fun c => c.toNat.toUInt16

/-- The class `\s` of regular expressions, which is also what `trim` removes. -/
def isSpace (u : UInt16) : Bool :=
  (9 ≤ u && u ≤ 13) || u = 32 || u = 0xA0 || u = 0x1680 || (0x2000 ≤ u && u ≤ 0x200A) ||
    u = 0x2028 || u = 0x2029 || u = 0x202F || u = 0x205F || u = 0x3000 || u = 0xFEFF

/-- The characters that have a meaning of their own. -/
def special : Text := units "(),\"=!~^<>:"

/-- A character of a bare word. -/
def plain (u : UInt16) : Bool := !(isSpace u || special.contains u)

/-- `toLowerCase`, as far as keywords are concerned: no other character has a letter of a
keyword as its lower case. -/
def toLowerCase (t : Text) : Text := t.map fun u => if 65 ≤ u && u ≤ 90 then u + 32 else u

def keywords : List Text := [units "and", units "or", units "not", units "in", units "cidr"]

def quotationMark : UInt16 := 34
def backslash : UInt16 := 92

/-! ## Expressions -/

inductive BoolOp where
  | and
  | or
deriving DecidableEq, Repr

inductive FieldValueOp where
  | eq
  | ne
  | contains
  | startsWith
  | regex
  | gt
  | gte
  | lt
  | lte
  | cidr
deriving DecidableEq, Repr

inductive FieldValuesOp where
  | isIn
  | notIn
deriving DecidableEq, Repr

inductive FieldExistsOp where
  | exists_
  | notExists
deriving DecidableEq, Repr

inductive FilterExpr where
  | bool (op : BoolOp) (args : List FilterExpr)
  | not (arg : FilterExpr)
  | text (value : Text)
  | fieldValue (op : FieldValueOp) (field value : Text)
  | fieldValues (op : FieldValuesOp) (field : Text) (values : List Text)
  | fieldExists (op : FieldExistsOp) (field : Text)

/-! ## Tokens -/

structure FilterSyntaxError where
  message : Text
  position : Nat
deriving DecidableEq, Repr

/-- The message of an error ends with its position, counted from one. -/
def syntaxError (message : Text) (position : Nat) : FilterSyntaxError where
  message := message ++ units (" (at position " ++ toString (position + 1) ++ ")")
  position

inductive TokenKind where
  | bare
  | quoted
  | op
  | lparen
  | rparen
  | comma
  | bang
  | exists_
deriving DecidableEq, Repr

structure Token where
  kind : TokenKind
  value : Text
  pos : Nat
deriving DecidableEq, Repr

/-- The operators in the order in which they are tried, with what they stand for. -/
def operators : List (Text × FieldValueOp) :=
  [(units "!=", .ne), (units "=~", .regex), (units "^=", .startsWith), (units ">=", .gte),
    (units "<=", .lte), (units "=", .eq), (units "~", .contains), (units ">", .gt), (units "<", .lt)]

/-- The rest of a quoted string that began at `start`: its value, and what follows it. -/
def readQuoted (start : Nat) : Nat → Text → Except FilterSyntaxError (Text × Text)
  | _, [] => .error (syntaxError (units "unterminated quoted string") start)
  | pos, c :: rest =>
    if c = backslash then
      match rest with
      | [] => .error (syntaxError (units "unterminated escape") pos)
      | next :: rest => (readQuoted start (pos + 2) rest).map fun r => (next :: r.1, r.2)
    else if c = quotationMark then .ok ([], rest)
    else (readQuoted start (pos + 1) rest).map fun r => (c :: r.1, r.2)

-- `JSON.stringify`
variable (stringify : Text → Text)

/-- The token at the head of a text that does not begin with a blank, and what follows it. -/
def readToken (pos : Nat) (c : UInt16) (rest : Text) : Except FilterSyntaxError (Token × Text) :=
  if [c] = units "(" then .ok (⟨.lparen, [c], pos⟩, rest)
  else if [c] = units ")" then .ok (⟨.rparen, [c], pos⟩, rest)
  else if [c] = units "," then .ok (⟨.comma, [c], pos⟩, rest)
  else if (units ":*").isPrefixOf (c :: rest) then .ok (⟨.exists_, units ":*", pos⟩, rest.tail)
  else if c = quotationMark then
    (readQuoted pos (pos + 1) rest).map fun r => (⟨.quoted, r.1, pos⟩, r.2)
  else match operators.find? fun o => o.1.isPrefixOf (c :: rest) with
    | some o => .ok (⟨.op, o.1, pos⟩, (c :: rest).drop o.1.length)
    | none =>
      if [c] = units "!" then .ok (⟨.bang, [c], pos⟩, rest)
      else if plain c then
        .ok (⟨.bare, (c :: rest).takeWhile plain, pos⟩, (c :: rest).dropWhile plain)
      else .error (syntaxError (units "unexpected character " ++ stringify [c]) pos)

theorem readQuoted_length {start pos : Nat} {input v rest : Text}
    (h : readQuoted start pos input = .ok (v, rest)) : rest.length < input.length := by
  fun_induction readQuoted start pos input generalizing v with
  | case1 => cases h
  | case2 => cases h
  | case3 pos next tail ih =>
    obtain ⟨r, hr, hvr⟩ := Fallible.map_eq_ok.mp h
    cases hvr
    have := ih hr
    simp only [List.length_cons]
    omega
  | case4 =>
    cases h
    simp
  | case5 pos c tail _ _ ih =>
    obtain ⟨r, hr, hvr⟩ := Fallible.map_eq_ok.mp h
    cases hvr
    have := ih hr
    simp only [List.length_cons]
    omega

/-- A token takes at least one character. -/
theorem readToken_length {pos : Nat} {c : UInt16} {rest rest' : Text} {t : Token}
    (h : readToken stringify pos c rest = .ok (t, rest')) : rest'.length ≤ rest.length := by
  unfold readToken at h
  split at h
  · cases h
    rfl
  split at h
  · cases h
    rfl
  split at h
  · cases h
    rfl
  split at h
  · cases h
    simp
  split at h
  · obtain ⟨r, hr, hvr⟩ := Fallible.map_eq_ok.mp h
    cases hvr
    exact (readQuoted_length hr).le
  split at h
  · rename_i o ho
    cases h
    have hpos : ∀ o ∈ operators, 1 ≤ o.1.length := by decide
    have := hpos o (List.mem_of_find?_eq_some ho)
    simp only [List.length_drop, List.length_cons]
    omega
  split at h
  · cases h
    rfl
  split at h
  · rename_i hplain
    cases h
    rw [List.dropWhile_cons_of_pos hplain]
    exact (List.dropWhile_sublist _).length_le
  · cases h

def tokenizeFrom (pos : Nat) : Text → Except FilterSyntaxError (List Token)
  | [] => .ok []
  | c :: rest =>
    if isSpace c then tokenizeFrom (pos + 1) rest
    else match h : readToken stringify pos c rest with
      | .error e => .error e
      | .ok (t, rest') =>
        have := readToken_length stringify h
        (tokenizeFrom (pos + (rest.length + 1 - rest'.length)) rest').map (t :: ·)
termination_by input => input.length
decreasing_by
  · simp
  · simp only [List.length_cons]
    omega

def tokenize (input : Text) : Except FilterSyntaxError (List Token) := tokenizeFrom stringify 0 input

/-! ## Terms -/

def Token.isWord (t : Token) : Bool := t.kind = .bare || t.kind = .quoted

def isKeyword (kw : String) (t : Token) : Bool := t.kind = .bare && toLowerCase t.value = units kw

-- The length of the text, at which errors about a missing token are reported.
variable (stop : Nat)

def value (ts : List Token) : Except FilterSyntaxError (Text × List Token) :=
  match ts with
  | t :: ts =>
    if t.isWord then .ok (t.value, ts) else .error (syntaxError (units "expected a value") t.pos)
  | [] => .error (syntaxError (units "expected a value") stop)

/-- The values of a list after the first, up to the closing bracket. -/
def moreValues : List Token → Except FilterSyntaxError (List Text × List Token)
  | [] => .error (syntaxError (units "expected \")\"") stop)
  | sep :: ts =>
    if sep.kind = .rparen then .ok ([], ts)
    else if sep.kind ≠ .comma then .error (syntaxError (units "expected \",\" or \")\"") sep.pos)
    else match ts with
      | [] => .error (syntaxError (units "expected a value") stop)
      | t :: ts =>
        if t.isWord then (moreValues ts).map fun r => (t.value :: r.1, r.2)
        else .error (syntaxError (units "expected a value") t.pos)

def values (op : FieldValuesOp) (field : Text) (ts : List Token) :
    Except FilterSyntaxError (FilterExpr × List Token) :=
  match ts with
  | bracket :: ts =>
    if bracket.kind = .lparen then do
      let (first, ts) ← value stop ts
      let (more, ts) ← moreValues stop ts
      return (.fieldValues op field (first :: more), ts)
    else .error (syntaxError (units "expected \"(\" after in") bracket.pos)
  | [] => .error (syntaxError (units "expected \"(\" after in") stop)

/-- The tokens that follow a word make it the field of a comparison. -/
def followedByFieldOp : List Token → Bool
  | [] => false
  | after :: later =>
    after.kind = .op || after.kind = .exists_ || isKeyword "in" after || isKeyword "cidr" after ||
      (isKeyword "not" after && later.head?.any (isKeyword "in"))

/-- What the operator after a field says of it. -/
def comparison (field : Text) : List Token → Except FilterSyntaxError (FilterExpr × List Token)
  | [] => .error (syntaxError [] stop)
  | op :: ts =>
    if op.kind = .exists_ then .ok (.fieldExists .exists_ field, ts)
    else if op.kind = .op then
      (value stop ts).map fun r => (.fieldValue ((operators.lookup op.value).getD .eq) field r.1, r.2)
    else if isKeyword "cidr" op then (value stop ts).map fun r => (.fieldValue .cidr field r.1, r.2)
    else if isKeyword "not" op then values stop .notIn field ts.tail
    else values stop .isIn field ts

def term (t : Token) (ts : List Token) : Except FilterSyntaxError (FilterExpr × List Token) :=
  if !t.isWord then .error (syntaxError (units "unexpected " ++ stringify t.value) t.pos)
  else if !followedByFieldOp ts then
    if t.kind = .bare && keywords.contains (toLowerCase t.value) then
      .error (syntaxError (units "unexpected keyword " ++ t.value) t.pos)
    else .ok (.text t.value, ts)
  else if t.value = [] then .error (syntaxError (units "empty field name") t.pos)
  else comparison stop t.value ts

/-- A field that is said to be absent, after the exclamation mark. -/
def absent (ts : List Token) : Except FilterSyntaxError (FilterExpr × List Token) :=
  match ts with
  | [] => .error (syntaxError (units "expected a field name after \"!\"") stop)
  | field :: ts =>
    if field.isWord then
      match ts with
      | ex :: ts =>
        if ex.kind = .exists_ then .ok (.fieldExists .notExists field.value, ts)
        else .error (syntaxError (units "expected \":*\" after \"!field\"") ex.pos)
      | [] => .error (syntaxError (units "expected \":*\" after \"!field\"") stop)
    else .error (syntaxError (units "expected a field name after \"!\"") field.pos)

/-! ## Expressions -/

/-- What an argument contributes to a connective: the arguments of its own, if it has the
same. -/
def parts (op : BoolOp) : FilterExpr → List FilterExpr
  | .bool op' args => if op' = op then args else [.bool op' args]
  | a => [a]

def flatten (op : BoolOp) (args : List FilterExpr) : FilterExpr := .bool op (args.flatMap (parts op))

/-- One argument stands for itself. -/
def connect (op : BoolOp) (first : FilterExpr) (more : List FilterExpr) : FilterExpr :=
  if more.isEmpty then first else flatten op (first :: more)

abbrev Parse := Fuelled FilterSyntaxError

def closeBracket (e : FilterExpr) : List Token → Except FilterSyntaxError (FilterExpr × List Token)
  | [] => .error (syntaxError (units "expected \")\"") stop)
  | close :: ts =>
    if close.kind = .rparen then .ok (e, ts)
    else .error (syntaxError (units "expected \")\"") close.pos)

mutual

def orExpr : Nat → List Token → Parse (FilterExpr × List Token)
  | 0, _ => exhausted
  | n + 1, ts => do
    let (first, ts) ← andExpr n ts
    let (more, ts) ← orRest n ts
    return (connect .or first more, ts)

def orRest : Nat → List Token → Parse (List FilterExpr × List Token)
  | 0, _ => exhausted
  | _ + 1, [] => return ([], [])
  | n + 1, t :: ts =>
    if isKeyword "or" t then do
      let (a, ts) ← andExpr n ts
      let (more, ts) ← orRest n ts
      return (a :: more, ts)
    else return ([], t :: ts)

def andExpr : Nat → List Token → Parse (FilterExpr × List Token)
  | 0, _ => exhausted
  | n + 1, ts => do
    let (first, ts) ← unary n ts
    let (more, ts) ← andRest n ts
    return (connect .and first more, ts)

def andRest : Nat → List Token → Parse (List FilterExpr × List Token)
  | 0, _ => exhausted
  | _ + 1, [] => return ([], [])
  | n + 1, t :: ts =>
    if t.kind = .rparen || isKeyword "or" t then return ([], t :: ts)
    else do
      let (a, ts) ← unary n (if isKeyword "and" t then ts else t :: ts)
      let (more, ts) ← andRest n ts
      return (a :: more, ts)

def unary : Nat → List Token → Parse (FilterExpr × List Token)
  | 0, _ => exhausted
  | _ + 1, [] => throw (syntaxError (units "expected a filter") stop)
  | n + 1, t :: ts =>
    if isKeyword "not" t then do
      let (arg, ts) ← unary n ts
      return (.not arg, ts)
    else if t.kind = .bang then lift (absent stop ts)
    else if t.kind = .lparen then do
      let (e, ts) ← orExpr n ts
      lift (closeBracket stop e ts)
    else lift (term stringify stop t ts)

end

/-- Fuel that is enough for a list of tokens. -/
def fuel (ts : List Token) : Nat := 3 * ts.length + 3

def parse (ts : List Token) : Except FilterSyntaxError FilterExpr :=
  match (orExpr stringify stop (fuel ts) ts).run with
  | none => .error (syntaxError [] stop)
  | some (.error e) => .error e
  | some (.ok (e, [])) => .ok e
  | some (.ok (_, t :: _)) =>
    .error (syntaxError (units "unexpected " ++
      if t.kind = .rparen then units "\")\"" else stringify t.value) t.pos)

/-- The expression of a text, none for a blank text. -/
def parseFilter (text : Text) : Except FilterSyntaxError (Option FilterExpr) :=
  if text.all isSpace then .ok none
  else do
    let ts ← tokenize stringify text
    let e ← parse stringify text.length ts
    return some e

/-! ## Printing -/

/-- `replace` with a global pattern of one character. -/
def replaceAll (u : UInt16) (by_ : Text) (t : Text) : Text := t.flatMap fun c => if c = u then by_ else [c]

def quoteAlways (v : Text) : Text :=
  [quotationMark] ++
    replaceAll quotationMark [backslash, quotationMark] (replaceAll backslash [backslash, backslash] v) ++
    [quotationMark]

def isBareWord (v : Text) : Bool := !v.isEmpty && v.all plain && !keywords.contains (toLowerCase v)

def quote (v : Text) : Text := if isBareWord v then v else quoteAlways v

/-- The operator of a comparison; `cidr` has none. -/
def opText (op : FieldValueOp) : Text := ((operators.find? (·.2 = op)).map (·.1)).getD []

/-- Twice the precedence, which the source counts in halves. -/
def BoolOp.prec : BoolOp → Nat
  | .or => 2
  | .and => 4

def BoolOp.separator : BoolOp → Text
  | .or => units " OR "
  | .and => units " AND "

mutual

def fmt : FilterExpr → Nat → Text
  | .bool op args, parentPrec =>
    let s := op.separator.intercalate (fmtArgs args (op.prec + 1))
    if op.prec < parentPrec then units "(" ++ s ++ units ")" else s
  | .not arg, _ => units "NOT " ++ fmt arg 6
  | .text v, _ => quoteAlways v
  | .fieldExists .exists_ field, _ => quote field ++ units ":*"
  | .fieldExists .notExists field, _ => units "!" ++ quote field ++ units ":*"
  | .fieldValues op field values, _ =>
    quote field ++ units (if op = .isIn then " in (" else " not in (") ++
      (units ", ").intercalate (values.map quote) ++ units ")"
  | .fieldValue op field v, _ =>
    if op = .cidr then quote field ++ units " cidr " ++ quote v
    else if op = .regex then quote field ++ units "=~" ++ quoteAlways v
    else quote field ++ opText op ++ quote v

def fmtArgs : List FilterExpr → Nat → List Text
  | [], _ => []
  | a :: args, parentPrec => fmt a parentPrec :: fmtArgs args parentPrec

end

def formatFilter : Option FilterExpr → Text
  | none => []
  | some e => fmt e 0

end Syslogc.FilterText
