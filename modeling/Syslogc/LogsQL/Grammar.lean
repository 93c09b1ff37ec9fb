-- SUMMARY: The grammar of LogsQL filters, and the machine for it.
import Syslogc.LogsQL.Lexer

/-!
# LogsQL, the grammar of filters

`Reads` is the grammar: NOT binds tighter than AND, which may be left out between two
operands, and AND binds tighter than OR. What a term stands for is a parameter, so that
the grammar can be read with terms of any kind.

`parse` is a machine with a stack of open brackets, one token at a time. It computes
exactly what the grammar derives (`parse_eq_some_iff`), so that a text has at most one
tree, and its runs compose where derivations do not.
-/

namespace LogsQL

/-! ## Trees -/

inductive ParseTree (L : Type) where
  | leaf (l : L)
  | not (t : ParseTree L)
  | and (ts : List (ParseTree L))
  | or (ts : List (ParseTree L))

/-- A term as it is written, with the tokens between its brackets. -/
structure Leaf where
  pieces : List Piece
  args : List Token := []
deriving DecidableEq, Repr

variable {L : Type}

/-- A single operand needs no connective. -/
def conj : List (ParseTree L) → ParseTree L
  | [t] => t
  | ts => .and ts

def disj : List (ParseTree L) → ParseTree L
  | [t] => t
  | ts => .or ts

mutual

/-- What a tree says, given what its leaves say. -/
def ParseTree.eval (I : L → Bool) : ParseTree L → Bool
  | .leaf l => I l
  | .not t => !t.eval I
  | .and ts => ParseTree.all I ts
  | .or ts => ParseTree.any I ts

def ParseTree.all (I : L → Bool) : List (ParseTree L) → Bool
  | [] => true
  | t :: ts => t.eval I && ParseTree.all I ts

def ParseTree.any (I : L → Bool) : List (ParseTree L) → Bool
  | [] => false
  | t :: ts => t.eval I || ParseTree.any I ts

end

/-! ## The grammar -/

def Token.opens : Token → Bool
  | .call _ | .lpar => true
  | _ => false

def Token.closes : Token → Bool
  | .rpar | .rsquare => true
  | _ => false

/-- How many brackets are open behind the tokens, if none is closed that is not open. -/
def balance : Nat → List Token → Option Nat
  | d, [] => some d
  | d, t :: ts =>
    if t.closes then if d = 0 then none else balance (d - 1) ts
    else balance (if t.opens then d + 1 else d) ts

inductive Level where
  | unary
  | and
  | or

/-- The tokens are read as these operands at the level. -/
inductive Reads (read : Leaf → Option L) : Level → List Token → List (ParseTree L) → Prop where
  | term {ps l} (hl : read ⟨ps, []⟩ = some l) : Reads read .unary [.term ps] [.leaf l]
  | call {ps args c l} (hb : balance 0 args = some 0) (hc : c.closes)
      (hl : read ⟨ps, args⟩ = some l) :
      Reads read .unary (.call ps :: (args ++ [c])) [.leaf l]
  | group {s ts} (h : Reads read .or s ts) :
      Reads read .unary (.lpar :: (s ++ [.rpar])) [disj ts]
  | not {s t} (h : Reads read .unary s [t]) : Reads read .unary (.not :: s) [.not t]
  | operand {s t} (h : Reads read .unary s [t]) : Reads read .and s [t]
  | and {s ts s' t} (h : Reads read .and s ts) (h' : Reads read .unary s' [t]) :
      Reads read .and (s ++ .and :: s') (ts ++ [t])
  | juxtaposed {s ts s' t} (h : Reads read .and s ts) (h' : Reads read .unary s' [t]) :
      Reads read .and (s ++ s') (ts ++ [t])
  | alternative {s ts} (h : Reads read .and s ts) : Reads read .or s [conj ts]
  | or {s ts s' us} (h : Reads read .or s ts) (h' : Reads read .and s' us) :
      Reads read .or (s ++ .or :: s') (ts ++ [conj us])

/-- The text is a filter with this tree. -/
def Parses (read : Leaf → Option L) (text : Bytes) (t : ParseTree L) : Prop :=
  ∃ toks ts, lex text = some toks ∧ Reads read .or toks ts ∧ disj ts = t

/-! ## The machine -/

/-- What was read of the innermost open group. -/
structure Frame (L : Type) where
  /-- The alternatives that are complete. -/
  alts : List (ParseTree L) := []
  /-- The operands of the alternative that is being read. -/
  operands : List (ParseTree L) := []
  /-- The negations in front of the next operand. -/
  negs : Nat := 0
  /-- An operand must follow. -/
  due : Bool := true

/-- An open call: its brackets that are open within it and the tokens so far. -/
structure Call where
  pieces : List Piece
  depth : Nat := 0
  args : List Token := []

def Call.push (k : Call) (t : Token) : Call where
  pieces := k.pieces
  depth := if t.closes then k.depth - 1 else if t.opens then k.depth + 1 else k.depth
  args := k.args ++ [t]

structure Machine (L : Type) where
  top : Frame L := {}
  below : List (Frame L) := []
  call : Option Call := none

def nots : Nat → ParseTree L → ParseTree L
  | 0, t => t
  | n + 1, t => nots n (.not t)

def Frame.operand (f : Frame L) (t : ParseTree L) : Frame L :=
  { f with operands := f.operands ++ [nots f.negs t], negs := 0, due := false }

def Frame.tree (f : Frame L) : ParseTree L := disj (f.alts ++ [conj f.operands])

def Machine.operand (m : Machine L) (t : ParseTree L) : Machine L :=
  { m with top := m.top.operand t, call := none }

def Machine.group (m : Machine L) : Option (Machine L) :=
  match m.below with
  | [] => none
  | f :: fs => if m.top.due then none else some { top := f.operand m.top.tree, below := fs }

variable (read : Leaf → Option L)

def Machine.stepCall (m : Machine L) (k : Call) (t : Token) : Option (Machine L) :=
  if t.closes && k.depth = 0 then (read ⟨k.pieces, k.args⟩).map fun l => m.operand (.leaf l)
  else some { m with call := some (k.push t) }

def Machine.stepTop (m : Machine L) : Token → Option (Machine L)
  | .term ps => (read ⟨ps, []⟩).map fun l => m.operand (.leaf l)
  | .call ps => some { m with call := some { pieces := ps } }
  | .lpar => some { top := {}, below := m.top :: m.below }
  | .rpar => m.group
  | .rsquare => none
  | .and => if m.top.due then none else some { m with top := { m.top with due := true } }
  | .or =>
    if m.top.due then none
    else some { m with top := { alts := m.top.alts ++ [conj m.top.operands] } }
  | .not => some { m with top := { m.top with negs := m.top.negs + 1, due := true } }

def Machine.step (m : Machine L) (t : Token) : Option (Machine L) :=
  match m.call with
  | none => m.stepTop read t
  | some k => m.stepCall read k t

def Machine.run (m : Machine L) (ts : List Token) : Option (Machine L) := ts.foldlM (Machine.step read) m

/-- The tree, if no bracket is open and no operand is missing. -/
def Machine.finish (m : Machine L) : Option (ParseTree L) :=
  match m.call, m.below with
  | none, [] => if m.top.due then none else some m.top.tree
  | _, _ => none

def parse (ts : List Token) : Option (ParseTree L) := (Machine.run read {} ts).bind Machine.finish

/-! ## What the grammar derives, the machine reads -/

variable {read} {m m' : Machine L} {f : Frame L} {fs : List (Frame L)} {s s' : List Token} {ts us : List (ParseTree L)}
  {t : ParseTree L} {k : Call}

@[simp] theorem Machine.run_nil : m.run read [] = some m := rfl

theorem Machine.run_cons (t : Token) :
    m.run read (t :: s) = (m.step read t).bind fun m' => m'.run read s := rfl

theorem Machine.run_append : m.run read (s ++ s') = (m.run read s).bind fun m' => m'.run read s' := by
  simp [Machine.run, List.foldlM_append]

theorem balance_cons {t : Token} {args : List Token} {d e : Nat} (h : balance d (t :: args) = some e) :
    ¬(t.closes && d = 0) ∧
      balance (if t.closes then d - 1 else if t.opens then d + 1 else d) args = some e := by
  rw [balance] at h
  split at h
  next hc =>
    split at h
    next => cases h
    next hd => simpa [hc, hd] using h
  next hc => simpa [hc] using h

/-- Between the brackets of a call every token is taken as it is. -/
theorem Machine.run_call (read : Leaf → Option L) {args : List Token} {d : Nat} (hb : balance k.depth args = some d) :
    Machine.run read { m with call := some k } args
      = some { m with call := some { k with depth := d, args := k.args ++ args } } := by
  induction args generalizing k with
  | nil =>
    simp only [balance, Option.some.injEq] at hb
    simp [← hb]
  | cons t args ih =>
    obtain ⟨hc, hb⟩ := balance_cons hb
    have hrest := ih (k := k.push t) hb
    simp only [Machine.run_cons, Machine.step, Machine.stepCall, hc, Bool.false_eq_true, if_false,
      Option.bind_some, hrest]
    simp [Call.push]

/-- The machine after some operands of the alternative that is being read. -/
def Machine.operands (m : Machine L) (ts : List (ParseTree L)) : Machine L :=
  { m with top := { m.top with operands := m.top.operands ++ ts, due := false } }

/-- What reading the tokens of a level does to the machine. -/
def Level.Runs (read : Leaf → Option L) : Level → List Token → List (ParseTree L) → Prop
  | .unary, s, ts => ∀ m : Machine L, m.call = none → ∀ t, ts = [t] → m.run read s = some (m.operand t)
  | .and, s, ts => ∀ m : Machine L, m.call = none → m.top.negs = 0 →
    m.run read s = some (m.operands ts)
  | .or, s, ts => ∀ m : Machine L, m.call = none → m.top.negs = 0 → m.top.operands = [] →
    ∃ f : Frame L, m.run read s = some { m with top := f } ∧ f.alts ++ [conj f.operands] = m.top.alts ++ ts ∧
      f.negs = 0 ∧ f.due = false

theorem Machine.run_term {ps : List Piece} {l : L} (hm : m.call = none) (hl : read ⟨ps, []⟩ = some l) :
    m.run read [.term ps] = some (m.operand (.leaf l)) := by
  simp [Machine.run_cons, Machine.step, Machine.stepTop, hm, hl]

theorem Machine.run_called {ps : List Piece} {args : List Token} {c : Token} {l : L} (hm : m.call = none)
    (hb : balance 0 args = some 0) (hc : c.closes) (hl : read ⟨ps, args⟩ = some l) :
    m.run read (.call ps :: (args ++ [c])) = some (m.operand (.leaf l)) := by
  have hargs := Machine.run_call read (m := m) (k := { pieces := ps }) hb
  simp only [Machine.run_cons, Machine.step, hm, Machine.stepTop, Option.bind_some, Machine.run_append, hargs]
  simp [Machine.stepCall, hc, hl, Machine.operand]

theorem nots_succ (n : Nat) (t : ParseTree L) : nots (n + 1) t = nots n (.not t) := rfl

theorem Reads.runs {lvl : Level} (h : Reads read lvl s ts) : lvl.Runs read s ts := by
  induction h with
  | term hl =>
    rintro m hm t ⟨⟩
    exact Machine.run_term hm hl
  | call hb hc hl =>
    rintro m hm t ⟨⟩
    exact Machine.run_called hm hb hc hl
  | @group s ts _ ih =>
    rintro m hm t ⟨⟩
    obtain ⟨f, hrun, htree, -, hdue⟩ := ih { top := {}, below := m.top :: m.below } rfl rfl rfl
    simp only [Machine.run_cons, Machine.step, hm, Machine.stepTop, Option.bind_some, Machine.run_append, hrun]
    simp [Machine.group, hdue, Frame.tree, htree, Machine.operand]
  | not _ ih =>
    rintro m hm t ⟨⟩
    simp only [Machine.run_cons, Machine.step, hm, Machine.stepTop, Option.bind_some]
    rw [ih _ rfl _ rfl]
    simp [Machine.operand, Frame.operand, nots_succ]
  | operand _ ih =>
    intro m hm hn
    rw [ih m hm _ rfl]
    simp [Machine.operand, Machine.operands, Frame.operand, hn, nots, hm]
  | @and s ts s' t _ _ ih ih' =>
    intro m hm hn
    rw [Machine.run_append, ih m hm hn, Option.bind_some, Machine.run_cons]
    simp only [Machine.step, Machine.operands, hm, Machine.stepTop, Bool.false_eq_true, if_false, Option.bind_some]
    rw [ih' _ rfl _ rfl]
    simp [Machine.operand, Frame.operand, hn, nots]
  | @juxtaposed s ts s' t _ _ ih ih' =>
    intro m hm hn
    rw [Machine.run_append, ih m hm hn, Option.bind_some, ih' (m.operands ts) hm _ rfl]
    simp [Machine.operand, Machine.operands, Frame.operand, hn, nots, hm]
  | alternative _ ih =>
    intro m hm hn ho
    refine ⟨(m.operands _).top, ih m hm hn, ?_, hn, rfl⟩
    simp [Machine.operands, ho]
  | or _ _ ih ih' =>
    intro m hm hn ho
    obtain ⟨f, hrun, htree, hnegs, hdue⟩ := ih m hm hn ho
    rw [Machine.run_append, hrun, Option.bind_some, Machine.run_cons]
    simp only [Machine.step, hm, Machine.stepTop, hdue, Bool.false_eq_true, if_false, Option.bind_some]
    refine ⟨_, ih' _ rfl rfl, ?_, rfl, rfl⟩
    simp [htree]

theorem Reads.parse_eq (h : Reads read .or s ts) : parse read s = some (disj ts) := by
  obtain ⟨f, hrun, htree, -, hdue⟩ := h.runs {} rfl rfl rfl
  simp [parse, hrun, Machine.finish, hdue, Frame.tree, htree]

/-! ## What the machine reads, the grammar derives -/

/-- Tokens that were read as complete alternatives, with the OR that follows them. -/
inductive Alts (read : Leaf → Option L) : List Token → List (ParseTree L) → Prop where
  | none : Alts read [] []
  | some {s : List Token} {ts : List (ParseTree L)} (h : Reads read .or s ts) : Alts read (s ++ [.or]) ts

/-- Tokens that were read as operands, with an AND that may follow them. -/
inductive Operands (read : Leaf → Option L) : List Token → List (ParseTree L) → Prop where
  | none : Operands read [] []
  | some {s : List Token} {ts : List (ParseTree L)} (h : Reads read .and s ts) : Operands read s ts
  | and {s : List Token} {ts : List (ParseTree L)} (h : Reads read .and s ts) :
      Operands read (s ++ [.and]) ts

theorem Alts.or (h : Alts read s ts) (h' : Reads read .and s' us) :
    Reads read .or (s ++ s') (ts ++ [conj us]) := by
  cases h with
  | none => exact .alternative h'
  | some h => simpa using h.or h'

theorem Operands.unary (h : Operands read s ts) (h' : Reads read .unary s' [t]) :
    Reads read .and (s ++ s') (ts ++ [t]) := by
  cases h with
  | none => exact .operand h'
  | some h => exact h.juxtaposed h'
  | and h => simpa using h.and h'

theorem Reads.nots (h : Reads read .unary s [t]) (n : Nat) :
    Reads read .unary (List.replicate n .not ++ s) [LogsQL.nots n t] := by
  induction n generalizing s t with
  | zero => exact h
  | succ n ih =>
    rw [List.replicate_succ', List.append_assoc]
    exact ih h.not

/-- The tokens of a group that has been read this far. -/
inductive Frame.Of (read : Leaf → Option L) : List Token → Frame L → Prop where
  | due {a b alts operands} (ha : Alts read a alts) (hb : Operands read b operands) (n : Nat) :
      Frame.Of read (a ++ b ++ List.replicate n .not) ⟨alts, operands, n, true⟩
  | done {a b alts operands} (ha : Alts read a alts) (hb : Reads read .and b operands) :
      Frame.Of read (a ++ b) ⟨alts, operands, 0, false⟩

theorem Frame.Of.init : Frame.Of read [] ({} : Frame L) := .due .none .none 0

theorem Frame.Of.operand (h : f.Of read s) (h' : Reads read .unary s' [t]) :
    (f.operand t).Of read (s ++ s') := by
  cases h with
  | due ha hb n =>
    simpa [Frame.operand] using Frame.Of.done ha (hb.unary (h'.nots n))
  | done ha hb =>
    simpa [Frame.operand, LogsQL.nots] using Frame.Of.done ha (hb.juxtaposed h')

theorem Frame.Of.not (h : f.Of read s) :
    Frame.Of read (s ++ [.not]) { f with negs := f.negs + 1, due := true } := by
  cases h with
  | due ha hb n => simpa [List.replicate_succ'] using Frame.Of.due ha hb (n + 1)
  | done ha hb => simpa using Frame.Of.due ha (.some hb) 1

theorem Frame.Of.and (h : f.Of read s) (hd : ¬f.due) :
    Frame.Of read (s ++ [.and]) { f with due := true } := by
  cases h with
  | due ha hb n => exact absurd rfl hd
  | done ha hb => simpa using Frame.Of.due ha (.and hb) 0

theorem Frame.Of.alternatives (h : f.Of read s) (hd : ¬f.due) :
    Reads read .or s (f.alts ++ [conj f.operands]) := by
  cases h with
  | due ha hb n => exact absurd rfl hd
  | done ha hb => exact ha.or hb

theorem Frame.Of.or (h : f.Of read s) (hd : ¬f.due) :
    Frame.Of read (s ++ [.or]) { alts := f.alts ++ [conj f.operands] } := by
  simpa using Frame.Of.due (.some (h.alternatives hd)) .none 0

/-- The tokens of the groups that are open, the innermost first. -/
inductive Stack (read : Leaf → Option L) : List Token → Frame L → List (Frame L) → Prop where
  | base {s : List Token} {f : Frame L} (h : f.Of read s) : Stack read s f []
  | push {s s' : List Token} {f g : Frame L} {fs : List (Frame L)} (h : Stack read s f fs)
      (h' : g.Of read s') : Stack read (s ++ .lpar :: s') g (f :: fs)

/-- What becomes of the innermost group alone. -/
theorem Stack.extend {g : Frame L} (h : Stack read s f fs)
    (hf : ∀ {p}, f.Of read p → g.Of read (p ++ s')) : Stack read (s ++ s') g fs := by
  cases h with
  | base h => exact .base (hf h)
  | push h h' => simpa using Stack.push h (hf h')

theorem Stack.operand (h : Stack read s f fs) (h' : Reads read .unary s' [t]) :
    Stack read (s ++ s') (f.operand t) fs :=
  h.extend fun hf => hf.operand h'

theorem Stack.group {g : Frame L} (h : Stack read s g (f :: fs)) (hd : ¬g.due) :
    Stack read (s ++ [.rpar]) (f.operand g.tree) fs := by
  cases h with
  | push h h' => simpa [Frame.tree] using h.operand (.group (h'.alternatives hd))

/-- The tokens that the machine has read. -/
inductive Machine.Of (read : Leaf → Option L) : List Token → Machine L → Prop where
  | top {s : List Token} {f : Frame L} {fs : List (Frame L)} (h : Stack read s f fs) :
      Machine.Of read s ⟨f, fs, none⟩
  | call {s : List Token} {f : Frame L} {fs : List (Frame L)} {k : Call} (h : Stack read s f fs)
      (hb : balance 0 k.args = some k.depth) :
      Machine.Of read (s ++ .call k.pieces :: k.args) ⟨f, fs, some k⟩

theorem balance_append (d : Nat) (a b : List Token) :
    balance d (a ++ b) = (balance d a).bind fun e => balance e b := by
  induction a generalizing d with
  | nil => rfl
  | cons t a ih =>
    simp only [List.cons_append, balance]
    split_ifs <;> simp [ih]

theorem Call.push_balance {c : Token} (hb : balance 0 k.args = some k.depth) (hc : ¬(c.closes && k.depth = 0)) :
    balance 0 (k.push c).args = some (k.push c).depth := by
  simp only [Call.push, balance_append, hb, Option.bind_some, balance]
  cases h : c.closes with
  | true => simp_all
  | false => simp

theorem Machine.Of.stepTop {c : Token} (h : Stack read s f fs) (hs : Machine.stepTop read ⟨f, fs, none⟩ c = some m') :
    m'.Of read (s ++ [c]) := by
  cases c with
  | term ps =>
    obtain ⟨l, hl, rfl⟩ := Option.map_eq_some_iff.mp hs
    exact .top (h.operand (.term hl))
  | call ps =>
    cases hs
    exact .call (k := { pieces := ps }) h rfl
  | lpar =>
    cases hs
    exact .top (.push h .init)
  | rpar =>
    cases fs with
    | nil => cases hs
    | cons g fs =>
      simp only [Machine.stepTop, Machine.group] at hs
      split at hs
      next => cases hs
      next hd =>
        cases hs
        exact .top (h.group hd)
  | rsquare => cases hs
  | and =>
    simp only [Machine.stepTop] at hs
    split at hs
    next => cases hs
    next hd =>
      cases hs
      exact .top (h.extend fun hf => hf.and hd)
  | or =>
    simp only [Machine.stepTop] at hs
    split at hs
    next => cases hs
    next hd =>
      cases hs
      exact .top (h.extend fun hf => hf.or hd)
  | not =>
    cases hs
    exact .top (h.extend fun hf => hf.not)

theorem Machine.Of.step {c : Token} (h : m.Of read s) (hs : m.step read c = some m') :
    m'.Of read (s ++ [c]) := by
  cases h with
  | top h => exact Machine.Of.stepTop h hs
  | @call s f fs k h hb =>
    simp only [Machine.step, Machine.stepCall] at hs
    split at hs
    next hc =>
      simp only [Bool.and_eq_true, decide_eq_true_eq] at hc
      obtain ⟨l, hl, rfl⟩ := Option.map_eq_some_iff.mp hs
      have hcall : Reads read .unary (.call k.pieces :: (k.args ++ [c])) [.leaf l] :=
        .call (hc.2 ▸ hb) hc.1 hl
      simpa [Machine.operand] using Machine.Of.top (h.operand hcall)
    next hc =>
      cases hs
      simpa [Call.push] using Machine.Of.call h (Call.push_balance hb hc)

theorem Machine.Of.run (h : m.Of read s) (hs : m.run read s' = some m') : m'.Of read (s ++ s') := by
  induction s' generalizing m s with
  | nil =>
    cases hs
    simpa using h
  | cons c s' ih =>
    rw [Machine.run_cons] at hs
    obtain ⟨n, hn, hs⟩ := Option.bind_eq_some_iff.mp hs
    simpa using ih (h.step hn) hs

theorem parse_reads (h : parse read s = some t) : ∃ ts, Reads read .or s ts ∧ disj ts = t := by
  obtain ⟨m, hrun, hfinish⟩ := Option.bind_eq_some_iff.mp h
  have hm : m.Of read s := Machine.Of.run (.top (.base .init)) hrun
  cases hm with
  | call h hb => cases hfinish
  | top h =>
    cases h with
    | push h h' => cases hfinish
    | base h =>
      simp only [Machine.finish] at hfinish
      split at hfinish
      next => cases hfinish
      next hd => exact ⟨_, h.alternatives hd, Option.some.inj hfinish⟩

theorem parse_eq_some_iff : parse read s = some t ↔ ∃ ts, Reads read .or s ts ∧ disj ts = t := by
  constructor
  · exact parse_reads
  · rintro ⟨ts, h, rfl⟩
    exact h.parse_eq

theorem parses_iff {text : Bytes} : Parses read text t ↔ (lex text).bind (parse read) = some t := by
  simp [Parses, Option.bind_eq_some_iff, parse_eq_some_iff]

/-! ## Groups that are open around what is read -/

/-- The machine with more groups open around it. -/
def Machine.around (m : Machine L) (fs : List (Frame L)) : Machine L := { m with below := m.below ++ fs }

theorem Machine.step_around {c : Token} (h : m.step read c = some m') (fs : List (Frame L)) :
    (m.around fs).step read c = some (m'.around fs) := by
  obtain ⟨top, below, call⟩ := m
  cases call with
  | some k =>
    simp only [Machine.step, Machine.stepCall, Machine.around] at h ⊢
    split at h
    next hc =>
      obtain ⟨l, hl, rfl⟩ := Option.map_eq_some_iff.mp h
      simp [hc, hl, Machine.operand]
    next hc =>
      cases h
      simp [hc]
  | none =>
    simp only [Machine.step, Machine.around] at h ⊢
    cases c with
    | term ps =>
      obtain ⟨l, hl, rfl⟩ := Option.map_eq_some_iff.mp h
      simp [Machine.stepTop, hl, Machine.operand]
    | rpar =>
      cases below with
      | nil => cases h
      | cons f below =>
        simp only [Machine.stepTop, Machine.group, List.cons_append] at h ⊢
        split at h
        next => cases h
        next hd =>
          cases h
          simp [hd]
    | rsquare => cases h
    | and | or =>
      simp only [Machine.stepTop] at h ⊢
      split at h
      next => cases h
      next hd =>
        cases h
        simp [hd]
    | call ps | lpar | not =>
      cases h
      rfl

theorem Machine.run_around (h : m.run read s = some m') (fs : List (Frame L)) :
    (m.around fs).run read s = some (m'.around fs) := by
  induction s generalizing m with
  | nil =>
    cases h
    rfl
  | cons c s ih =>
    rw [Machine.run_cons] at h ⊢
    obtain ⟨n, hn, h⟩ := Option.bind_eq_some_iff.mp h
    rw [Machine.step_around hn fs]
    exact ih h

/-- A bracket that is opened before a whole filter stays open behind it. -/
theorem parse_unclosed {t' : ParseTree L} (h : parse read s = some t) (h' : m.run read s' = some m')
    (hm : m'.call = none) :
    (m.run read (s' ++ .lpar :: s)).bind Machine.finish ≠ some t' := by
  obtain ⟨n, hn, -⟩ := Option.bind_eq_some_iff.mp h
  have hrun := Machine.run_around hn (m'.top :: m'.below)
  have hstep : m'.step read .lpar = some (({} : Machine L).around (m'.top :: m'.below)) := by
    simp [Machine.step, hm, Machine.stepTop, Machine.around]
  rw [Machine.run_append, h', Option.bind_some, Machine.run_cons, hstep, Option.bind_some, hrun]
  simp only [Option.bind_some, Machine.finish, Machine.around]
  cases n.call <;> cases n.below <;> simp

end LogsQL
