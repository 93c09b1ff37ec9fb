-- SUMMARY: The compiler from filters to LogsQL text.
import Syslogc.Storage.Filter

/-!
# Compiling selections to LogsQL

`compileFilter` writes a filter expression as LogsQL text, `splitNative` cuts a native
query into its filter and its pipes, and `buildSelection` puts the two together.
-/

namespace Syslogc.VictoriaLogs

open Syslogc.Filter

/-! ## Selections -/

/-- The half-open interval of instants, in nanoseconds since the epoch. -/
structure TimeRange where
  start : Int
  stop : Int
deriving DecidableEq, Repr

structure NativeQuery where
  dialect : Bytes
  text : Bytes
deriving DecidableEq, Repr

structure Selection where
  tenant : Bytes
  range : TimeRange
  filter : Expr := .null
  native : Option NativeQuery := none

inductive StorageError where
  /-- A filter that is refused, with what was set before the text of its error. -/
  | invalid (e : ValidationError) (wrapper : Bytes)
  | unsupportedDialect (dialect : Bytes)
  | query (statusCode : Nat) (message : Bytes) (userFacing : Bool)
  | pipesNotAllowed
  | other (message : Bytes)
deriving DecidableEq, Repr

/-- The error with a text before it, as `%w` wraps those of a filter. -/
def StorageError.wrap (text : Bytes) : StorageError → StorageError
  | .invalid e wrapper => .invalid e (text ++ wrapper)
  | .other message => .other (text ++ message)
  | e => e

/-! ## Filter expressions -/

def fieldTime : Bytes := utf8 "_time"
def fieldMsg : Bytes := utf8 "_msg"

def storageField (name : Bytes) : Bytes :=
  if name = utf8 "message" then fieldMsg
  else if name = utf8 "timestamp" then fieldTime
  else name

/-- `regexp.QuoteMeta`. -/
def quoteMeta (s : Bytes) : Bytes :=
  s.flatMap fun c => if c ∈ utf8 "\\.+*?()|[]\x7b\x7d^$" then [92, c] else [c]

def unsupportedCIDR : Bytes := utf8 "cidr: IPv6 ranges are not supported by VictoriaLogs"

variable (go : GoLib)

def compileComparison (op : Op) (mark : Bytes) (f value : Bytes) : Except Bytes Bytes :=
  match go.parseFloat value with
  | none => .error (op.name ++ utf8 " needs a numeric value")
  | some n => .ok (f ++ utf8 ":" ++ mark ++ (go.formatFloat n).text)

/-- The values of a list; a comma stands before all but the first. -/
def compileValues : Bool → List Bytes → Bytes
  | _, [] => []
  | first, v :: vs => (if first then [] else utf8 ",") ++ go.quote v ++ compileValues false vs

mutual

def compile : Expr → Except Bytes Bytes
  | .null => .error (utf8 "nil pointer")
  | .node op args arg field value values =>
    let f := go.quote (storageField field)
    match op with
    | .and => (compileArgs (utf8 " AND ") true args).map fun s => utf8 "(" ++ s ++ utf8 ")"
    | .or => (compileArgs (utf8 " OR ") true args).map fun s => utf8 "(" ++ s ++ utf8 ")"
    | .not => (compile arg).map fun s => utf8 "NOT (" ++ s ++ utf8 ")"
    | .text => .ok (go.quote fieldMsg ++ utf8 ":i(" ++ go.quote value ++ utf8 ")")
    | .eq => .ok (f ++ utf8 ":=" ++ go.quote value)
    | .ne => .ok (utf8 "NOT " ++ f ++ utf8 ":=" ++ go.quote value)
    | .contains => .ok (f ++ utf8 ":~" ++ go.quote (utf8 "(?i)" ++ quoteMeta value))
    | .startsWith => .ok (f ++ utf8 ":~" ++ go.quote (utf8 "^" ++ quoteMeta value))
    | .regex => .ok (f ++ utf8 ":~" ++ go.quote value)
    | .gt => compileComparison go op (utf8 ">") f value
    | .gte => compileComparison go op (utf8 ">=") f value
    | .lt => compileComparison go op (utf8 "<") f value
    | .lte => compileComparison go op (utf8 "<=") f value
    | .cidr =>
      if 58 ∈ value then .error unsupportedCIDR
      else .ok (f ++ utf8 ":" ++ utf8 "ipv4_range" ++ utf8 "(" ++ go.quote value ++ utf8 ")")
    | .isIn => .ok (f ++ utf8 ":in(" ++ compileValues go true values ++ utf8 ")")
    | .notIn => .ok (utf8 "NOT " ++ f ++ utf8 ":in(" ++ compileValues go true values ++ utf8 ")")
    | .exist => .ok (f ++ utf8 ":*")
    | .notExist => .ok (utf8 "NOT " ++ f ++ utf8 ":*")
    | .other name => .error (utf8 "unsupported op " ++ go.quote name)

/-- The arguments of a connective; the separator stands before all but the first. -/
def compileArgs (sep : Bytes) : Bool → List Expr → Except Bytes Bytes
  | _, [] => .ok []
  | first, a :: as =>
    (compile a).bind fun s =>
      (compileArgs sep false as).map fun rest => (if first then [] else sep) ++ s ++ rest

end

/-- `CompileFilter`. No expression matches everything. -/
def compileFilter : Expr → Except StorageError Bytes
  | .null => .ok (utf8 "*")
  | e =>
    match validate go e, compile go e with
    | .error err, _ => .error (.invalid err [])
    | .ok _, .error message => .error (.other message)
    | .ok _, .ok text => .ok text

/-! ## Native queries -/

/-- Whether the scan of a native query is inside of a string literal. -/
inductive Scan where
  | outside
  | within (mark : UInt8) (escaped : Bool)
deriving DecidableEq, Repr

/-- The text before and after the first bar outside of string literals. -/
def scanNative : Scan → Bytes → Bytes → Except Bytes (Option (Bytes × Bytes))
  | .outside, _, [] => .ok none
  | .within .., _, [] => .error (utf8 "unterminated string literal")
  | .within mark escaped, before, c :: cs =>
    if escaped then scanNative (.within mark false) (before ++ [c]) cs
    else if c = 92 && mark != 96 then scanNative (.within mark true) (before ++ [c]) cs
    else if c = mark then scanNative .outside (before ++ [c]) cs
    else scanNative (.within mark false) (before ++ [c]) cs
  | .outside, before, c :: cs =>
    if c = 34 || c = 39 || c = 96 then scanNative (.within c false) (before ++ [c]) cs
    else if c = 124 then .ok (some (before, cs))
    else scanNative .outside (before ++ [c]) cs

/-- `SplitNative`: the filter part and the pipes. -/
def splitNative (text : Bytes) : Except Bytes (Bytes × Bytes) :=
  (scanNative .outside [] text).bind fun
    | none => .ok (text.trimSpace, [])
    | some (before, rest) =>
      if rest.trimSpace = [] then .error (utf8 "expected a pipe after '|'")
      else .ok (before.trimSpace, rest.trimSpace)

def dialectLogsQL : Bytes := utf8 "logsql"

/-- The filter part and the pipes of the native query of a selection. -/
def nativeParts : Option NativeQuery → Except StorageError (Bytes × Bytes)
  | none => .ok ([], [])
  | some n =>
    if n.dialect ≠ dialectLogsQL then .error (.unsupportedDialect n.dialect)
    else
      match splitNative n.text with
      | .error message => .error (.query 400 message true)
      | .ok parts => .ok parts

/-- The filter of a selection, given its two parts. -/
def combine (ast nativePart : Bytes) : Bytes :=
  if nativePart = [] ∨ nativePart = utf8 "*" then ast
  else if ast = utf8 "*" then utf8 "(" ++ nativePart ++ utf8 ")"
  else ast ++ utf8 " AND (" ++ nativePart ++ utf8 ")"

def buildSelection (sel : Selection) : Except StorageError (Bytes × Bytes) :=
  (compileFilter go sel.filter).bind fun ast =>
    (nativeParts sel.native).map fun parts => (combine ast parts.1, parts.2)

end Syslogc.VictoriaLogs
