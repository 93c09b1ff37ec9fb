-- SUMMARY: The filter expressions of the API and their validation.
import Syslogc.Lib.Fallible
import Syslogc.LogsQL.Terms

/-!
# Filter expressions

A filter is a tree of nodes that all have the same fields; which of them matter
depends on the operator. `validate` walks the tree with a counter of nodes and the
path to the node, and reports the first node that is not as it should be.
-/

namespace Syslogc.Filter

/-- What the code calls of the standard library. -/
structure GoLib extends LogsQL.Quoting where
  Float64 : Type
  /-- `strconv.ParseFloat(s, 64)`. -/
  parseFloat : Bytes → Option Float64
  /-- `strconv.FormatFloat(n, 'f', -1, 64)`. -/
  formatFloat : Float64 → LogsQL.Number
  /-- The error of `regexp.Compile`, if there is one. -/
  regexpError : Bytes → Option Bytes
  /-- `netip.ParsePrefix` accepts the text. -/
  parsePrefix : Bytes → Bool

/-! ## Expressions -/

inductive Op where
  | and
  | or
  | not
  | text
  | eq
  | ne
  | contains
  | startsWith
  | regex
  | gt
  | gte
  | lt
  | lte
  | cidr
  | isIn
  | notIn
  | exist
  | notExist
  /-- Any other text, the empty one included. -/
  | other (name : Bytes)
deriving DecidableEq, Repr

def Op.name : Op → Bytes
  | .and => utf8 "and"
  | .or => utf8 "or"
  | .not => utf8 "not"
  | .text => utf8 "text"
  | .eq => utf8 "eq"
  | .ne => utf8 "ne"
  | .contains => utf8 "contains"
  | .startsWith => utf8 "starts_with"
  | .regex => utf8 "regex"
  | .gt => utf8 "gt"
  | .gte => utf8 "gte"
  | .lt => utf8 "lt"
  | .lte => utf8 "lte"
  | .cidr => utf8 "cidr"
  | .isIn => utf8 "in"
  | .notIn => utf8 "not_in"
  | .exist => utf8 "exists"
  | .notExist => utf8 "not_exists"
  | .other name => name

/-- A node, or the nil pointer. -/
inductive Expr where
  | null
  | node (op : Op) (args : List Expr) (arg : Expr) (field value : Bytes) (values : List Bytes)

def maxDepth : Nat := 16
def maxNodes : Nat := 500
def maxArgs : Nat := 100
def maxValues : Nat := 1000
def maxFieldBytes : Nat := 256
def maxValueBytes : Nat := 4096
def maxRegexBytes : Nat := 1024

structure ValidationError where
  pointer : Bytes
  message : Bytes
deriving DecidableEq, Repr

/-! ## Validation -/

def num (n : Nat) : Bytes := utf8 (toString n)

/-- A complaint if the condition holds. -/
def failIf (bad : Bool) (e : ValidationError) : Except ValidationError Unit :=
  if bad then .error e else .ok ()

def validateField (f : Bytes) : Except Bytes Unit :=
  if f = [] then .error (utf8 "field is required")
  else if maxFieldBytes < f.length then
    .error (utf8 "field name longer than " ++ num maxFieldBytes ++ utf8 " bytes")
  else if f.any fun c => c = 0 || c = 10 || c = 13 then
    .error (utf8 "field name contains control characters")
  else .ok ()

variable (go : GoLib)

/-- The checks of the operators that compare a field. -/
def validateOperand (op : Op) (value : Bytes) (values : List Bytes) (ptr : Bytes) :
    Except ValidationError Unit :=
  let tooLong : ValidationError := ⟨ptr, utf8 "value longer than " ++ num maxValueBytes ++ utf8 " bytes"⟩
  match op with
  | .eq | .ne => failIf (maxValueBytes < value.length) tooLong
  | .contains | .startsWith =>
    (failIf (maxValueBytes < value.length) tooLong).bind fun _ =>
      failIf (value = []) ⟨ptr, op.name ++ utf8 " needs a non-empty value"⟩
  | .regex =>
    (failIf (value = [] || maxRegexBytes < value.length)
      ⟨ptr, utf8 "regex must be 1–" ++ num maxRegexBytes ++ utf8 " bytes"⟩).bind fun _ =>
      match go.regexpError value with
      | none => .ok ()
      | some err => .error ⟨ptr, utf8 "invalid regular expression: " ++ err⟩
  | .gt | .gte | .lt | .lte =>
    failIf (go.parseFloat value).isNone ⟨ptr, op.name ++ utf8 " needs a numeric value"⟩
  | .cidr => failIf (!go.parsePrefix value) ⟨ptr, utf8 "invalid CIDR " ++ go.quote value⟩
  | .isIn | .notIn =>
    (failIf (values = [] || maxValues < values.length)
      ⟨ptr, op.name ++ utf8 " needs 1–" ++ num maxValues ++ utf8 " values"⟩).bind fun _ =>
      failIf (values.any fun v => maxValueBytes < v.length) tooLong
  | .exist | .notExist => .ok ()
  | op =>
    .error ⟨ptr, if op.name = [] then utf8 "op is required" else utf8 "unknown op " ++ go.quote op.name⟩

def validateLeaf (op : Op) (field value : Bytes) (values : List Bytes) (ptr : Bytes) :
    Except ValidationError Unit :=
  match validateField field with
  | .error message => .error ⟨ptr ++ utf8 "/field", message⟩
  | .ok _ => validateOperand go op value values ptr

mutual

/-- The number of nodes after this one and those below it. -/
def validateNode : Expr → Bytes → Nat → Nat → Except ValidationError Nat
  | .null, ptr, _, _ => .error ⟨ptr, utf8 "expression is null"⟩
  | .node op args arg field value values, ptr, depth, nodes =>
    (failIf (maxNodes < nodes + 1)
      ⟨ptr, utf8 "filter has more than " ++ num maxNodes ++ utf8 " nodes"⟩).bind fun _ =>
    (failIf (maxDepth < depth)
      ⟨ptr, utf8 "filter is nested deeper than " ++ num maxDepth ++ utf8 " levels"⟩).bind fun _ =>
    match op with
    | .and | .or =>
      (failIf (args.isEmpty || maxArgs < args.length)
        ⟨ptr, op.name ++ utf8 " needs 1–" ++ num maxArgs ++ utf8 " arguments"⟩).bind fun _ =>
        validateArgs args ptr 0 (depth + 1) (nodes + 1)
    | .not => validateNode arg (ptr ++ utf8 "/arg") (depth + 1) (nodes + 1)
    | .text =>
      (failIf (value = [] || maxValueBytes < value.length)
        ⟨ptr, utf8 "text value must be 1–" ++ num maxValueBytes ++ utf8 " bytes"⟩).map fun _ => nodes + 1
    | _ => (validateLeaf go op field value values ptr).map fun _ => nodes + 1

def validateArgs : List Expr → Bytes → Nat → Nat → Nat → Except ValidationError Nat
  | [], _, _, _, nodes => .ok nodes
  | a :: as, ptr, i, depth, nodes =>
    (validateNode a (ptr ++ utf8 "/args/" ++ num i) depth nodes).bind fun nodes =>
      validateArgs as ptr (i + 1) depth nodes

end

/-- `Validate`. No expression matches everything. -/
def validate : Expr → Except ValidationError Unit
  | .null => .ok ()
  | e => (validateNode go e (utf8 "/filter") 1 0).map fun _ => ()

/-! ## What a valid expression is -/

/-- What the compiler relies on in the operand of an operator. -/
def Op.Operand : Op → Bytes → List Bytes → Prop
  | .gt, value, _ | .gte, value, _ | .lt, value, _ | .lte, value, _ => (go.parseFloat value).isSome
  | .isIn, _, values | .notIn, _, values => values ≠ []
  | .other _, _, _ => False
  | _, _, _ => True

/-- What the compiler relies on in an expression. -/
inductive Expr.Valid : Expr → Prop where
  | connective {op args arg field value values} (hop : op = .and ∨ op = .or) (hne : args ≠ [])
      (h : ∀ a ∈ args, Expr.Valid a) : Expr.Valid (.node op args arg field value values)
  | not {args arg field value values} (h : Expr.Valid arg) :
      Expr.Valid (.node .not args arg field value values)
  | leaf {op args arg field value values} (hop : op ≠ .and ∧ op ≠ .or ∧ op ≠ .not)
      (h : op.Operand go value values) : Expr.Valid (.node op args arg field value values)

variable {go} {e : Expr} {args : List Expr} {ptr : Bytes} {depth nodes n i : Nat} {op : Op} {value : Bytes}
  {values : List Bytes}

theorem failIf_ok {bad : Bool} {err : ValidationError} {u : Unit} (h : failIf bad err = .ok u) : bad = false := by
  cases bad with
  | true => cases h
  | false => rfl

theorem validateOperand_operand {u : Unit} (h : validateOperand go op value values ptr = .ok u) :
    op.Operand go value values := by
  cases op with
  | gt | gte | lt | lte => simpa [Op.Operand, Option.isSome_iff_ne_none] using failIf_ok h
  | isIn | notIn =>
    obtain ⟨_, hne, -⟩ := Fallible.bind_eq_ok.mp h
    have := failIf_ok hne
    simp only [Bool.or_eq_false_iff, decide_eq_false_iff_not] at this
    exact this.1
  | other name => cases h
  | _ => trivial

theorem validateLeaf_operand {field : Bytes} {u : Unit} (h : validateLeaf go op field value values ptr = .ok u) :
    op.Operand go value values := by
  rw [validateLeaf] at h
  split at h
  next => cases h
  next => exact validateOperand_operand h

mutual

theorem validateNode_valid : ∀ {e : Expr} {ptr : Bytes} {depth nodes n : Nat},
    validateNode go e ptr depth nodes = .ok n → e.Valid go
  | .null, _, _, _, _, h => by
    rw [validateNode] at h
    cases h
  | .node op args arg field value values, ptr, depth, nodes, n, h => by
    cases op with
    | and | or =>
      simp only [validateNode] at h
      obtain ⟨_, -, h⟩ := Fallible.bind_eq_ok.mp h
      obtain ⟨_, -, h⟩ := Fallible.bind_eq_ok.mp h
      obtain ⟨_, hne, h⟩ := Fallible.bind_eq_ok.mp h
      have := failIf_ok hne
      simp only [Bool.or_eq_false_iff, List.isEmpty_eq_false_iff] at this
      exact .connective (by simp) this.1 (validateArgs_valid h)
    | not =>
      simp only [validateNode] at h
      obtain ⟨_, -, h⟩ := Fallible.bind_eq_ok.mp h
      obtain ⟨_, -, h⟩ := Fallible.bind_eq_ok.mp h
      exact .not (validateNode_valid h)
    | text => exact .leaf (by simp) trivial
    | _ =>
      simp only [validateNode] at h
      obtain ⟨_, -, h⟩ := Fallible.bind_eq_ok.mp h
      obtain ⟨_, -, h⟩ := Fallible.bind_eq_ok.mp h
      obtain ⟨_, h, -⟩ := Fallible.map_eq_ok.mp h
      exact .leaf (by simp) (validateLeaf_operand h)

theorem validateArgs_valid : ∀ {args : List Expr} {ptr : Bytes} {i depth nodes n : Nat},
    validateArgs go args ptr i depth nodes = .ok n → ∀ a ∈ args, a.Valid go
  | [], _, _, _, _, _, _ => by simp
  | a :: as, ptr, i, depth, nodes, n, h => by
    rw [validateArgs] at h
    obtain ⟨m, ha, has⟩ := Fallible.bind_eq_ok.mp h
    intro b hb
    rcases List.mem_cons.mp hb with hb | hb
    · exact hb ▸ validateNode_valid ha
    · exact validateArgs_valid has b hb

end

theorem validate_valid {u : Unit} (h : validate go e = .ok u) : e = .null ∨ e.Valid go := by
  cases e with
  | null => exact .inl rfl
  | node op args arg field value values =>
    obtain ⟨n, h, -⟩ := Fallible.map_eq_ok.mp h
    exact .inr (validateNode_valid h)

end Syslogc.Filter
