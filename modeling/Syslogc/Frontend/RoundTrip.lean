-- SUMMARY: A printed filter expression is parsed back.
import Syslogc.Lib.Lists
import Syslogc.Frontend.Lexing

/-!
# The round trip

A printed expression is read as its lexemes, and the parser rebuilds the expression from
them. At each level of precedence the parser stops where the next level down would go on:
what may follow an expression is the end, a closing bracket, or the connective of a
looser level.
-/

namespace Syslogc.FilterText

open Fuel

/-! ## The lexemes of an expression -/

def lparen : Lexeme := (.lparen, units "(")
def rparen : Lexeme := (.rparen, units ")")
def comma : Lexeme := (.comma, units ",")
def present : Lexeme := (.exists_, units ":*")

/-- A keyword as it is printed. -/
def keyword (s : String) : Lexeme := (.bare, units s)

def BoolOp.keyword : BoolOp → Lexeme
  | .or => FilterText.keyword "OR"
  | .and => FilterText.keyword "AND"

def FieldValuesOp.keywords : FieldValuesOp → List Lexeme
  | .isIn => [keyword "in"]
  | .notIn => [keyword "not", keyword "in"]

mutual

/-- What `fmt` is read as. -/
def lexemes : FilterExpr → Nat → List Lexeme
  | .bool op args, parentPrec =>
    let ls := [op.keyword].intercalate (lexemesArgs args (op.prec + 1))
    if op.prec < parentPrec then lparen :: (ls ++ [rparen]) else ls
  | .not arg, _ => keyword "NOT" :: lexemes arg 6
  | .text v, _ => [(.quoted, v)]
  | .fieldExists .exists_ field, _ => [word field, present]
  | .fieldExists .notExists field, _ => [(.bang, units "!"), word field, present]
  | .fieldValues op field values, _ =>
    word field :: (op.keywords ++ lparen :: ([comma].intercalate (values.map fun v => [word v]) ++ [rparen]))
  | .fieldValue op field v, _ =>
    if op = .cidr then [word field, keyword "cidr", word v]
    else if op = .regex then [word field, (.op, units "=~"), (.quoted, v)]
    else [word field, (.op, opText op), word v]

def lexemesArgs : List FilterExpr → Nat → List (List Lexeme)
  | [], _ => []
  | a :: args, parentPrec => lexemes a parentPrec :: lexemesArgs args parentPrec

end

theorem lexemesArgs_eq_map (args : List FilterExpr) (p : Nat) :
    lexemesArgs args p = args.map (lexemes · p) := by
  induction args with
  | nil => rfl
  | cons a args ih => rw [lexemesArgs, ih, List.map_cons]

theorem fmtArgs_eq_map (args : List FilterExpr) (p : Nat) : fmtArgs args p = args.map (fmt · p) := by
  induction args with
  | nil => rfl
  | cons a args ih => rw [fmtArgs, ih, List.map_cons]

theorem intercalate_cons {α : Type} (sep x : List α) (xs : List (List α)) :
    sep.intercalate (x :: xs) = x ++ xs.flatMap (sep ++ ·) := by
  induction xs generalizing x with
  | nil => simp [List.intercalate]
  | cons y xs ih =>
    have hstep : sep.intercalate (x :: y :: xs) = x ++ (sep ++ sep.intercalate (y :: xs)) := by
      simp [List.intercalate, List.intersperse]
    rw [hstep, ih, List.flatMap_cons, List.append_assoc]

/-! ## Lexing -/

variable {stringify : Text → Text}

theorem stop_blank (rest : Text) : Stop (32 :: rest) := by
  rintro u ⟨⟩
  decide

theorem stop_special {c : UInt16} (hc : c ∈ special) (rest : Text) : Stop (c :: rest) := by
  rintro u ⟨⟩
  by_contra hplain
  exact plain_not_special (by simpa using hplain) hc

/-- Items with a separator between them are read one by one. -/
theorem lexes_intercalate {α : Type} {text : α → Text} {ls : α → List Lexeme} {sep : Text} {l : Lexeme}
    {rest : Text} (hstop : Stop rest) (hsep : ∀ a, Stop (sep ++ a))
    (hread : ∀ rest, Lexes stringify sep [l] rest) {items : List α} (hne : items ≠ [])
    (h : ∀ a ∈ items, ∀ rest, Stop rest → Lexes stringify (text a) (ls a) rest) :
    Lexes stringify (sep.intercalate (items.map text)) ([l].intercalate (items.map ls)) rest := by
  obtain ⟨a, items, rfl⟩ := List.exists_cons_of_ne_nil hne
  simp only [List.map_cons, intercalate_cons]
  -- What follows an item is the separator or the rest.
  have hmore : Lexes stringify ((items.map text).flatMap (sep ++ ·)) ((items.map ls).flatMap ([l] ++ ·)) rest ∧
      Stop ((items.map text).flatMap (sep ++ ·) ++ rest) := by
    have hitems : ∀ b ∈ items, ∀ rest, Stop rest → Lexes stringify (text b) (ls b) rest :=
      fun b hb => h b (List.mem_cons_of_mem a hb)
    clear h
    induction items with
    | nil => exact ⟨.nil, hstop⟩
    | cons b items ih =>
      obtain ⟨hrest, hnext⟩ := ih (by simp) fun c hc => hitems c (List.mem_cons_of_mem b hc)
      simp only [List.map_cons, List.flatMap_cons]
      refine ⟨((hread _).trans (hitems b List.mem_cons_self _ hnext)).trans hrest, ?_⟩
      rw [List.append_assoc, List.append_assoc]
      exact hsep _
  exact (h a List.mem_cons_self _ hmore.2).trans hmore.1

theorem lexes_keyword {s : String} (hne : units s ≠ []) (hplain : (units s).all plain = true) {rest : Text} :
    Lexes stringify (32 :: (units s ++ [32])) [keyword s] rest := by
  have hword : Lexes stringify (units s) [keyword s] ([32] ++ rest) :=
    lexes_bare hne hplain (stop_blank _)
  have hend : Lexes stringify [32] [] rest := Lexes.blank .nil
  exact (hword.trans hend).blank

theorem lexes_separator (op : BoolOp) {rest : Text} : Lexes stringify op.separator [op.keyword] rest := by
  cases op with
  | or => exact lexes_keyword (s := "OR") (by decide) (by decide)
  | and => exact lexes_keyword (s := "AND") (by decide) (by decide)

theorem mem_operators_opText {op : FieldValueOp} (h : op ≠ .cidr) : (opText op, op) ∈ operators := by
  cases op with
  | cidr => exact absurd rfl h
  | eq | ne | contains | startsWith | regex | gt | gte | lt | lte => decide

theorem stop_opText {op : FieldValueOp} (h : op ≠ .cidr) (rest : Text) : Stop (opText op ++ rest) := by
  have hhead : ∀ o ∈ operators, ∃ c ∈ special, o.1 = c :: o.1.tail := by decide
  obtain ⟨c, hc, ho⟩ := hhead _ (mem_operators_opText h)
  simp only at ho
  rw [ho, List.cons_append]
  exact stop_special hc _

theorem lexes_opText {op : FieldValueOp} (h : op ≠ .cidr) {rest : Text} (hrest : StartsValue rest) :
    Lexes stringify (opText op) [(.op, opText op)] rest :=
  lexes_op (mem_operators_opText h) hrest

theorem lexes_fieldValue (op : FieldValueOp) (field v : Text) (p : Nat) {rest : Text} (hstop : Stop rest) :
    Lexes stringify (fmt (.fieldValue op field v) p) (lexemes (.fieldValue op field v) p) rest := by
  simp only [fmt, lexemes]
  split_ifs with hcidr hregex
  · have hfield : Lexes stringify (quote field) [word field] (units " cidr " ++ (quote v ++ rest)) :=
      lexes_quote (stop_blank _)
    have hkeyword : Lexes stringify (units " cidr ") [keyword "cidr"] (quote v ++ rest) :=
      lexes_keyword (s := "cidr") (by decide) (by decide)
    exact (hfield.trans hkeyword).trans (lexes_quote hstop)
  · subst hregex
    have hfield : Lexes stringify (quote field) [word field] (opText .regex ++ (quoteAlways v ++ rest)) :=
      lexes_quote (stop_opText hcidr _)
    exact (hfield.trans (lexes_opText hcidr (startsValue_quoteAlways v rest))).trans lexes_quoteAlways
  · have hfield : Lexes stringify (quote field) [word field] (opText op ++ (quote v ++ rest)) :=
      lexes_quote (stop_opText hcidr _)
    exact (hfield.trans (lexes_opText hcidr (startsValue_quote v rest))).trans (lexes_quote hstop)

theorem FieldValuesOp.lexes (op : FieldValuesOp) {rest : Text} :
    Lexes stringify (units (if op = .isIn then " in (" else " not in (")) (op.keywords ++ [lparen]) rest := by
  have hin : Lexes stringify (units " in (") ([keyword "in"] ++ [lparen]) rest :=
    (lexes_keyword (s := "in") (by decide) (by decide)).trans lexes_lparen
  cases op with
  | isIn => exact hin
  | notIn =>
    have hnot : Lexes stringify (units " not") [keyword "not"] (units " in (" ++ rest) :=
      (lexes_bare (by decide) (by decide) (stop_blank _)).blank
    exact hnot.trans hin

theorem lexes_fieldValues (op : FieldValuesOp) (field : Text) {values : List Text} (hvalues : values ≠ [])
    (p : Nat) {rest : Text} :
    Lexes stringify (fmt (.fieldValues op field values) p) (lexemes (.fieldValues op field values) p) rest := by
  have hstop : ∀ rest, Stop (units (if op = .isIn then " in (" else " not in (") ++ rest) := by
    intro rest
    cases op with
    | isIn => exact stop_blank _
    | notIn => exact stop_blank _
  have hcomma (rest : Text) : Lexes stringify (units ", ") [comma] rest := by
    have hblank : Lexes stringify [32] [] rest := Lexes.blank .nil
    exact lexes_comma.trans hblank
  have hlist : Lexes stringify ((units ", ").intercalate (values.map quote))
      ([comma].intercalate (values.map fun v => [word v])) (units ")" ++ rest) :=
    lexes_intercalate (stop_special (by decide) _) (fun a => stop_special (by decide) _) hcomma hvalues
      fun v _ rest hrest => lexes_quote hrest
  have hall := (((lexes_quote (v := field) (hstop _)).trans op.lexes).trans hlist).trans lexes_rparen
  simpa [fmt, lexemes, rparen] using hall

/-- A printed expression is read as its lexemes. -/
theorem lexes_fmt {e : FilterExpr} (h : Readable e) (p : Nat) {rest : Text} (hstop : Stop rest) :
    Lexes stringify (fmt e p) (lexemes e p) rest := by
  induction h generalizing p rest with
  | @bool op args many each flat ih =>
    have hne : args ≠ [] := by
      rintro rfl
      simp at many
    have hsep : ∀ a, Stop (op.separator ++ a) := by
      intro a
      cases op with
      | or => exact stop_blank _
      | and => exact stop_blank _
    have hargs {rest : Text} (hrest : Stop rest) :
        Lexes stringify (op.separator.intercalate (fmtArgs args (op.prec + 1)))
          ([op.keyword].intercalate (lexemesArgs args (op.prec + 1))) rest := by
      rw [fmtArgs_eq_map, lexemesArgs_eq_map]
      exact lexes_intercalate hrest hsep (fun _ => lexes_separator op) hne fun a ha _ hr => ih a ha _ hr
    simp only [fmt, lexemes]
    split_ifs
    · exact (lexes_lparen.trans (hargs (stop_special (by decide) _))).trans lexes_rparen
    · exact hargs hstop
  | @not arg h ih =>
    have hnot : Lexes stringify (units "NOT") [keyword "NOT"] ([32] ++ (fmt arg 6 ++ rest)) :=
      lexes_bare (by decide) (by decide) (stop_blank _)
    have hblank : Lexes stringify [32] [] (fmt arg 6 ++ rest) := Lexes.blank .nil
    exact (hnot.trans hblank).trans (ih 6 hstop)
  | text v => exact lexes_quoteAlways
  | fieldValue op named v => exact lexes_fieldValue op _ v p hstop
  | fieldValues op named some => exact lexes_fieldValues op _ some p
  | @present field named =>
    exact (lexes_quote (v := field) (stop_special (by decide) _)).trans lexes_exists
  | absent field =>
    have hbang : Lexes stringify (units "!") [(.bang, units "!")] (quote field ++ (units ":*" ++ rest)) :=
      lexes_bang (startsValue_quote field _)
    exact (hbang.trans (lexes_quote (stop_special (by decide) _))).trans lexes_exists

/-! ## Parsing -/

section

variable (stop : Nat) {tl rest : List Token} {l : Lexeme} {ls : List Lexeme}

/-- The token of a lexeme. -/
def Lexeme.at (l : Lexeme) (pos : Nat) : Token := ⟨l.1, l.2, pos⟩

theorem lexemes_cons (h : tl.map Token.lexeme = l :: ls) :
    ∃ pos tl', tl = l.at pos :: tl' ∧ tl'.map Token.lexeme = ls := by
  obtain ⟨t, tl', rfl, rfl, htl⟩ := List.map_eq_cons_iff.mp h
  exact ⟨t.pos, tl', rfl, htl⟩

/-- A printed word is a word, and no keyword. -/
theorem isWord_word (v : Text) (pos : Nat) : ((word v).at pos).isWord = true := by
  rw [Token.isWord, Lexeme.at, word]
  split_ifs <;> rfl

theorem isKeyword_word {kw : String} (hkw : units kw ∈ keywords) (v : Text) (pos : Nat) :
    isKeyword kw ((word v).at pos) = false := by
  rw [isKeyword, Lexeme.at, word]
  split_ifs with hbare
  · simp only [isBareWord, Bool.and_eq_true, Bool.not_eq_true'] at hbare
    have hne : toLowerCase v ≠ units kw := by
      intro heq
      have := hbare.2
      rw [heq, List.contains_eq_mem, decide_eq_false_iff_not] at this
      exact this hkw
    simp [hne]
  · rfl

/-- What can follow an expression: the end, a closing bracket, or one of some connectives. -/
def Follow (connectives : List Lexeme) (ts : List Token) : Prop :=
  ∀ t ∈ ts.head?, t.lexeme ∈ rparen :: connectives

/-- What can follow an argument of a connective: nothing that binds more tightly. -/
def BoolOp.after : BoolOp → List Lexeme
  | .or => []
  | .and => [BoolOp.or.keyword]

theorem Follow.cons (op : BoolOp) {ts : List Token} (h : Follow op.after ts) :
    Follow (op.keyword :: op.after) ts :=
  fun t ht => List.mem_cons.mpr ((List.mem_cons.mp (h t ht)).imp_right (List.mem_cons_of_mem _))

theorem followedByFieldOp_follow (h : Follow (BoolOp.and.keyword :: BoolOp.and.after) rest) :
    followedByFieldOp rest = false := by
  cases rest with
  | nil => rfl
  | cons t rest =>
    have hl := h t rfl
    simp only [BoolOp.after, List.mem_cons, List.not_mem_nil, or_false] at hl
    obtain ⟨kind, v, pos⟩ := t
    obtain hl | hl | hl := hl
    all_goals
      cases hl
      rfl

theorem value_word (v : Text) (pos : Nat) (ts : List Token) :
    value stop ((word v).at pos :: ts) = .ok (v, ts) := by
  rw [value, if_pos (isWord_word v pos)]
  rfl

theorem moreValues_words {values : List Text}
    (h : tl.map Token.lexeme = values.flatMap (fun v => [comma, word v]) ++ [rparen]) :
    moreValues stop (tl ++ rest) = .ok (values, rest) := by
  induction values generalizing tl with
  | nil =>
    obtain ⟨pos, tl, rfl, h₁⟩ := lexemes_cons h
    obtain rfl := List.map_eq_nil_iff.mp h₁
    exact moreValues.eq_def _ _
  | cons v values ih =>
    obtain ⟨_, tl, rfl, h₁⟩ := lexemes_cons h
    obtain ⟨pos, tl, rfl, h₂⟩ := lexemes_cons h₁
    rw [List.cons_append, List.cons_append, moreValues, if_neg (by rintro ⟨⟩), if_neg (· rfl)]
    simp only [isWord_word v pos, if_true, ih h₂]
    rfl

theorem values_words (op : FieldValuesOp) (field : Text) {v : Text} {more : List Text}
    (h : tl.map Token.lexeme = lparen :: ([comma].intercalate ((v :: more).map fun v => [word v]) ++ [rparen])) :
    values stop op field (tl ++ rest) = .ok (.fieldValues op field (v :: more), rest) := by
  rw [List.map_cons, intercalate_cons, List.flatMap_map] at h
  obtain ⟨_, tl, rfl, h₁⟩ := lexemes_cons h
  obtain ⟨pos, tl, rfl, h₂⟩ := lexemes_cons h₁
  rw [List.cons_append, values, if_pos (by rfl), List.cons_append, value_word]
  simp only [moreValues_words stop h₂, bind, Except.bind]
  rfl

/-- What an operator after a field is read as. -/
theorem comparison_value {op : FieldValueOp} (field : Text) {v : Text} {lv : Lexeme} (hop : op ≠ .cidr)
    (hlv : lv = word v ∨ lv = (.quoted, v)) (pos pos' : Nat) :
    comparison stop field (Lexeme.at (.op, opText op) pos :: lv.at pos' :: rest) =
      .ok (.fieldValue op field v, rest) := by
  have hvalue : value stop (lv.at pos' :: rest) = .ok (v, rest) := by
    obtain rfl | rfl := hlv
    · exact value_word stop v pos' rest
    · rfl
  have hlookup : operators.lookup (opText op) = some op :=
    (Lists.mem_iff_lookup (by decide)).mp (mem_operators_opText hop)
  simp only [comparison, Lexeme.at, reduceCtorEq, if_false, if_true, hlookup] at hvalue ⊢
  rw [hvalue]
  rfl

/-- A field with what follows it is read as a comparison. -/
theorem term_field {field : Text} (hfield : field ≠ []) (pos : Nat) {ts : List Token}
    (hfollowed : followedByFieldOp ts = true) :
    term stringify stop ((word field).at pos) ts = comparison stop field ts := by
  rw [term, isWord_word, hfollowed]
  exact if_neg hfield

/-- A function of the parser reads the lexemes as the expression, wherever they stand,
and leaves what follows them. -/
def Reads (f : Nat → List Token → Parse (FilterExpr × List Token)) (need : Nat)
    (after : List Lexeme) (e : FilterExpr) (l : List Lexeme) : Prop :=
  ∀ n tl rest, tl.map Token.lexeme = l → Follow after rest →
    3 * (tl.length + rest.length) + need ≤ n → f n (tl ++ rest) = pure (e, rest)

abbrev ReadsUnary (stringify : Text → Text) (stop : Nat) (e : FilterExpr) (l : List Lexeme) : Prop :=
  Reads (unary stringify stop) 1 (BoolOp.and.keyword :: BoolOp.and.after) e l

abbrev ReadsAnd (stringify : Text → Text) (stop : Nat) (e : FilterExpr) (l : List Lexeme) : Prop :=
  Reads (andExpr stringify stop) 2 BoolOp.and.after e l

abbrev ReadsOr (stringify : Text → Text) (stop : Nat) (e : FilterExpr) (l : List Lexeme) : Prop :=
  Reads (orExpr stringify stop) 3 BoolOp.or.after e l

variable {e : FilterExpr}

/-- A term, which begins with a word, is read at the level of `unary`. -/
theorem readsUnary_of_term {l : Lexeme} {ls : List Lexeme}
    (hword : ∀ pos, (l.at pos).isWord = true ∧ isKeyword "not" (l.at pos) = false)
    (h : ∀ pos tl rest, tl.map Token.lexeme = ls → Follow (BoolOp.and.keyword :: BoolOp.and.after) rest →
      term stringify stop (l.at pos) (tl ++ rest) = .ok (e, rest)) :
    ReadsUnary stringify stop e (l :: ls) := by
  intro n tl rest htl hfollow hn
  obtain ⟨pos, tl, rfl, h₁⟩ := lexemes_cons htl
  obtain ⟨m, rfl⟩ : ∃ m, n = m + 1 := ⟨n - 1, by omega⟩
  obtain ⟨hisWord, hnot⟩ := hword pos
  have hkind : (l.at pos).kind ≠ .bang ∧ (l.at pos).kind ≠ .lparen := by
    simp only [Token.isWord, Bool.or_eq_true, decide_eq_true_eq] at hisWord
    obtain hkind | hkind := hisWord
    · simp [hkind]
    · simp [hkind]
  rw [List.cons_append, unary, hnot, if_neg Bool.false_ne_true, if_neg hkind.1, if_neg hkind.2,
    h pos tl rest h₁ hfollow]
  rfl

theorem not_keyword_word (field : Text) (pos : Nat) :
    ((word field).at pos).isWord = true ∧ isKeyword "not" ((word field).at pos) = false :=
  ⟨isWord_word field pos, isKeyword_word (by decide) field pos⟩

theorem readsUnary_text (v : Text) : ReadsUnary stringify stop (.text v) [(.quoted, v)] := by
  refine readsUnary_of_term stop (fun _ => ⟨rfl, rfl⟩) fun pos tl rest htl hfollow => ?_
  obtain rfl := List.map_eq_nil_iff.mp htl
  rw [List.nil_append, term, followedByFieldOp_follow hfollow]
  rfl

theorem readsUnary_present {field : Text} (hfield : field ≠ []) :
    ReadsUnary stringify stop (.fieldExists .exists_ field) [word field, present] := by
  refine readsUnary_of_term stop (not_keyword_word field) fun pos tl rest htl _ => ?_
  obtain ⟨_, tl, rfl, h₁⟩ := lexemes_cons htl
  obtain rfl := List.map_eq_nil_iff.mp h₁
  exact term_field stop hfield pos rfl

theorem readsUnary_absent (field : Text) :
    ReadsUnary stringify stop (.fieldExists .notExists field) [(.bang, units "!"), word field, present] := by
  intro n tl rest htl _ hn
  obtain ⟨_, tl, rfl, h₁⟩ := lexemes_cons htl
  obtain ⟨pos, tl, rfl, h₂⟩ := lexemes_cons h₁
  obtain ⟨_, tl, rfl, h₃⟩ := lexemes_cons h₂
  obtain rfl := List.map_eq_nil_iff.mp h₃
  obtain ⟨m, rfl⟩ : ∃ m, n = m + 1 := ⟨n - 1, by omega⟩
  change lift (absent stop ((word field).at pos :: _)) = _
  simp only [absent, isWord_word, if_true]
  rfl

theorem readsUnary_fieldValue (op : FieldValueOp) {field : Text} (hfield : field ≠ []) (v : Text) (p : Nat) :
    ReadsUnary stringify stop (.fieldValue op field v) (lexemes (.fieldValue op field v) p) := by
  simp only [lexemes]
  split_ifs with hcidr hregex
  all_goals
    refine readsUnary_of_term stop (not_keyword_word field) fun pos tl rest htl _ => ?_
    obtain ⟨_, tl, rfl, h₁⟩ := lexemes_cons htl
    obtain ⟨_, tl, rfl, h₂⟩ := lexemes_cons h₁
    obtain rfl := List.map_eq_nil_iff.mp h₂
    refine (term_field stop hfield pos rfl).trans ?_
  · subst hcidr
    change (value stop ((word v).at _ :: rest)).map _ = _
    rw [value_word]
    rfl
  · subst hregex
    exact comparison_value stop field hcidr (.inr rfl) _ _
  · exact comparison_value stop field hcidr (.inl rfl) _ _

theorem readsUnary_fieldValues (op : FieldValuesOp) {field : Text} (hfield : field ≠ []) {vs : List Text}
    (hvs : vs ≠ []) (p : Nat) :
    ReadsUnary stringify stop (.fieldValues op field vs) (lexemes (.fieldValues op field vs) p) := by
  obtain ⟨v, more, rfl⟩ := List.exists_cons_of_ne_nil hvs
  refine readsUnary_of_term stop (not_keyword_word field) fun pos tl rest htl _ => ?_
  cases op with
  | isIn =>
    obtain ⟨_, tl, rfl, h₁⟩ := lexemes_cons htl
    exact (term_field stop hfield pos rfl).trans (values_words stop .isIn field h₁)
  | notIn =>
    obtain ⟨_, tl, rfl, h₁⟩ := lexemes_cons htl
    obtain ⟨_, tl, rfl, h₂⟩ := lexemes_cons h₁
    exact (term_field stop hfield pos rfl).trans (values_words stop .notIn field h₂)

theorem readsUnary_not {arg : FilterExpr} {l : List Lexeme} (h : ReadsUnary stringify stop arg l) :
    ReadsUnary stringify stop (.not arg) (keyword "NOT" :: l) := by
  intro n tl rest htl hfollow hn
  obtain ⟨_, tl, rfl, h₁⟩ := lexemes_cons htl
  obtain ⟨m, rfl⟩ : ∃ m, n = m + 1 := ⟨n - 1, by omega⟩
  simp only [List.length_cons] at hn
  exact bind_eq_pure.mpr ⟨_, h m tl rest h₁ hfollow (by omega), rfl⟩

theorem readsUnary_bracket {l : List Lexeme} (h : ReadsOr stringify stop e l) :
    ReadsUnary stringify stop e (lparen :: (l ++ [rparen])) := by
  intro n tl rest htl _ hn
  obtain ⟨_, tl, rfl, h₁⟩ := lexemes_cons htl
  obtain ⟨tl, tl', rfl, h₂, htl'⟩ := List.map_eq_append_iff.mp h₁
  obtain ⟨pos, tl', rfl, h₃⟩ := lexemes_cons htl'
  obtain rfl := List.map_eq_nil_iff.mp h₃
  obtain ⟨m, rfl⟩ : ∃ m, n = m + 1 := ⟨n - 1, by omega⟩
  simp only [List.length_cons, List.length_append, List.length_nil] at hn
  have he := h m tl (rparen.at pos :: rest) h₂ (by rintro t ⟨⟩; exact List.mem_cons_self)
    (by simp only [List.length_cons]; omega)
  rw [List.cons_append, List.append_assoc]
  exact bind_eq_pure.mpr ⟨_, he, rfl⟩

/-- The connective of arguments that do not have it themselves. -/
theorem connect_flat {op : BoolOp} {first second : FilterExpr} {more : List FilterExpr}
    (h : ∀ a ∈ first :: second :: more, ∀ args, a ≠ .bool op args) :
    connect op first (second :: more) = .bool op (first :: second :: more) := by
  have hparts : ∀ args : List FilterExpr, (∀ a ∈ args, ∀ args', a ≠ .bool op args') →
      args.flatMap (parts op) = args := by
    intro args hargs
    induction args with
    | nil => rfl
    | cons a args ih =>
      rw [List.flatMap_cons, parts_self (hargs a List.mem_cons_self),
        ih fun b hb => hargs b (List.mem_cons_of_mem a hb)]
      rfl
  show flatten op _ = _
  rw [flatten, hparts _ h]

/-- A level of the grammar: `expr` is made of items with a connective between them. -/
structure Level (op : BoolOp) (item expr : Nat → List Token → Parse (FilterExpr × List Token))
    (more : Nat → List Token → Parse (List FilterExpr × List Token)) : Prop where
  expr : ∀ n ts, expr (n + 1) ts = do
    let (first, ts) ← item n ts
    let (args, ts) ← more n ts
    return (connect op first args, ts)
  step : ∀ n pos ts, more (n + 1) (op.keyword.at pos :: ts) = do
    let (a, ts) ← item n ts
    let (args, ts) ← more n ts
    return (a :: args, ts)
  stop : ∀ n ts, Follow op.after ts → more (n + 1) ts = pure ([], ts)

section Level

variable {op : BoolOp} {item expr : Nat → List Token → Parse (FilterExpr × List Token)}
  {more : Nat → List Token → Parse (List FilterExpr × List Token)} {need : Nat}
  {args : List FilterExpr} {lex : FilterExpr → List Lexeme}

/-- What follows an argument is a connective or what follows the arguments. -/
theorem follow_args (htl : tl.map Token.lexeme = args.flatMap (fun a => op.keyword :: lex a))
    (h : Follow op.after rest) : Follow (op.keyword :: op.after) (tl ++ rest) := by
  cases args with
  | nil =>
    obtain rfl := List.map_eq_nil_iff.mp htl
    exact h.cons op
  | cons a args =>
    obtain ⟨pos, tl, rfl, -⟩ := lexemes_cons htl
    rintro t ⟨⟩
    exact List.mem_cons_of_mem _ List.mem_cons_self

theorem Level.more_reads (hlevel : Level op item expr more) (hneed : need ≤ 3)
    (h : ∀ a ∈ args, Reads item need (op.keyword :: op.after) a (lex a)) {n : Nat}
    (htl : tl.map Token.lexeme = args.flatMap fun a => op.keyword :: lex a)
    (hfollow : Follow op.after rest) (hn : 3 * (tl.length + rest.length) + 1 ≤ n) :
    more n (tl ++ rest) = pure (args, rest) := by
  obtain ⟨m, rfl⟩ : ∃ m, n = m + 1 := ⟨n - 1, by omega⟩
  induction args generalizing m tl with
  | nil =>
    obtain rfl := List.map_eq_nil_iff.mp htl
    exact hlevel.stop m rest hfollow
  | cons a args ih =>
    obtain ⟨pos, tl, rfl, h₁⟩ := lexemes_cons htl
    obtain ⟨ta, tl, rfl, hta, h₂⟩ := List.map_eq_append_iff.mp h₁
    simp only [List.length_cons, List.length_append] at hn
    obtain ⟨k, rfl⟩ : ∃ k, m = k + 1 := ⟨m - 1, by omega⟩
    have ha := h a List.mem_cons_self (k + 1) ta (tl ++ rest) hta (follow_args h₂ hfollow)
      (by simp only [List.length_append]; omega)
    have hmore := ih (fun b hb => h b (List.mem_cons_of_mem a hb)) h₂ k (by omega)
    rw [List.cons_append, List.append_assoc, hlevel.step]
    exact bind_eq_pure.mpr ⟨_, ha, bind_eq_pure.mpr ⟨_, hmore, rfl⟩⟩

/-- Items with a connective between them, of which one stands for itself. -/
theorem Level.reads (hlevel : Level op item expr more) (hpos : 1 ≤ need) (hneed : need ≤ 3)
    (lex : FilterExpr → List Lexeme) (first : FilterExpr) (args : List FilterExpr)
    (h : ∀ a ∈ first :: args, Reads item need (op.keyword :: op.after) a (lex a)) :
    Reads expr (need + 1) op.after (connect op first args)
      ([op.keyword].intercalate ((first :: args).map lex)) := by
  intro n tl rest htl hfollow hn
  rw [List.map_cons, intercalate_cons, List.flatMap_map] at htl
  obtain ⟨tf, tl, rfl, htf, h₁⟩ := List.map_eq_append_iff.mp htl
  simp only [List.length_append] at hn
  obtain ⟨m, rfl⟩ : ∃ m, n = m + 1 := ⟨n - 1, by omega⟩
  have hfirst := h first List.mem_cons_self m tf (tl ++ rest) htf (follow_args h₁ hfollow)
    (by simp only [List.length_append]; omega)
  have hmore := hlevel.more_reads hneed (fun a ha => h a (List.mem_cons_of_mem first ha)) h₁ hfollow
    (n := m) (by omega)
  rw [List.append_assoc, hlevel.expr]
  exact bind_eq_pure.mpr ⟨_, hfirst, bind_eq_pure.mpr ⟨_, hmore, rfl⟩⟩

/-- One item is an expression of the level. -/
theorem Level.single (hlevel : Level op item expr more) (hpos : 1 ≤ need) (hneed : need ≤ 3)
    {e : FilterExpr} {l : List Lexeme} (h : Reads item need (op.keyword :: op.after) e l) :
    Reads expr (need + 1) op.after e l := by
  have := hlevel.reads hpos hneed (fun _ => l) e [] (by simpa using h)
  simpa [connect, List.intercalate] using this

end Level

theorem andLevel : Level .and (unary stringify stop) (andExpr stringify stop) (andRest stringify stop) where
  expr n ts := rfl
  step n pos ts := rfl
  stop n ts h := by
    cases ts with
    | nil => rfl
    | cons t ts =>
      obtain ⟨kind, v, pos⟩ := t
      obtain hl | hl : (kind, v) = rparen ∨ (kind, v) = BoolOp.or.keyword := by
        simpa [BoolOp.after, Token.lexeme] using h _ rfl
      all_goals
        cases hl
        rfl

theorem orLevel : Level .or (andExpr stringify stop) (orExpr stringify stop) (orRest stringify stop) where
  expr n ts := rfl
  step n pos ts := rfl
  stop n ts h := by
    cases ts with
    | nil => rfl
    | cons t ts =>
      obtain ⟨kind, v, pos⟩ := t
      have hl : (kind, v) = rparen := by simpa [BoolOp.after, Token.lexeme] using h _ rfl
      cases hl
      rfl

theorem Reads.and {l : List Lexeme} (h : ReadsUnary stringify stop e l) :
    ReadsAnd stringify stop e l :=
  (andLevel stop).single (by omega) (by omega) h

theorem Reads.or {l : List Lexeme} (h : ReadsAnd stringify stop e l) :
    ReadsOr stringify stop e l :=
  (orLevel stop).single (by omega) (by omega) h

theorem lexemes_five {a : FilterExpr} (h : ∀ args, a ≠ .bool .and args) : lexemes a 5 = lexemes a 6 := by
  cases a with
  | bool op args =>
    cases op with
    | and => exact absurd rfl (h args)
    | or => rfl
  | not arg => rfl
  | text v => rfl
  | fieldValue op field v => rfl
  | fieldValues op field values => rfl
  | fieldExists op field =>
    cases op with
    | exists_ => rfl
    | notExists => rfl

/-- What the parser reads at each level of precedence. -/
structure ReadsBack (stringify : Text → Text) (stop : Nat) (e : FilterExpr) : Prop where
  unary : ReadsUnary stringify stop e (lexemes e 6)
  and : (∀ args, e ≠ .bool .or args) → ReadsAnd stringify stop e (lexemes e 3)
  or : ReadsOr stringify stop e (lexemes e 0)

/-- An expression that is no connective is printed alike at all levels. -/
theorem ReadsBack.of_unary (h : ReadsUnary stringify stop e (lexemes e 6))
    (h₃ : lexemes e 3 = lexemes e 6) (h₀ : lexemes e 0 = lexemes e 6) :
    ReadsBack stringify stop e where
  unary := h
  and _ := by rw [h₃]; exact h.and stop
  or := by rw [h₀]; exact (h.and stop).or stop

theorem ReadsBack.bool {op : BoolOp} {args : List FilterExpr} (many : 2 ≤ args.length)
    (flat : ∀ a ∈ args, ∀ args', a ≠ .bool op args')
    (h : ∀ a ∈ args, ReadsBack stringify stop a) :
    ReadsBack stringify stop (.bool op args) := by
  obtain ⟨first, second, more, rfl⟩ : ∃ first second more, args = first :: second :: more := by
    match args, many with
    | first :: second :: more, _ => exact ⟨first, second, more, rfl⟩
  rw [← connect_flat flat]
  cases op with
  | and =>
    have hargs : ReadsAnd stringify stop (connect .and first (second :: more))
        (lexemes (.bool .and (first :: second :: more)) 3) := by
      have hread := (andLevel stop).reads (le_refl 1) (by omega) (lexemes · 5) first (second :: more) fun a ha => by
        rw [lexemes_five (flat a ha)]
        exact (h a ha).unary
      simpa [lexemes, lexemesArgs_eq_map, BoolOp.prec] using hread
    rw [connect_flat flat] at hargs ⊢
    exact ⟨readsUnary_bracket stop (hargs.or stop), fun _ => hargs, hargs.or stop⟩
  | or =>
    have hargs : ReadsOr stringify stop (connect .or first (second :: more))
        (lexemes (.bool .or (first :: second :: more)) 0) := by
      have hread := (orLevel stop).reads (Nat.le_succ 1) (by omega) (lexemes · 3) first (second :: more) fun a ha =>
        (h a ha).and (flat a ha)
      simpa [lexemes, lexemesArgs_eq_map, BoolOp.prec] using hread
    rw [connect_flat flat] at hargs ⊢
    exact ⟨readsUnary_bracket stop hargs, fun hor => absurd rfl (hor _), hargs⟩

theorem Readable.readsBack (h : Readable e) : ReadsBack stringify stop e := by
  induction h with
  | bool many each flat ih => exact .bool stop many flat ih
  | not h ih => exact .of_unary stop (readsUnary_not stop ih.unary) rfl rfl
  | text v => exact .of_unary stop (readsUnary_text stop v) rfl rfl
  | fieldValue op named v => exact .of_unary stop (readsUnary_fieldValue stop op named v 6) rfl rfl
  | fieldValues op named some => exact .of_unary stop (readsUnary_fieldValues stop op named some 6) rfl rfl
  | present named => exact .of_unary stop (readsUnary_present stop named) rfl rfl
  | absent field => exact .of_unary stop (readsUnary_absent stop field) rfl rfl

end

/-! ## The round trip -/

theorem tokenizeFrom_blank {pos : Nat} {text : Text} (h : text.all isSpace = true) :
    tokenizeFrom stringify pos text = .ok [] := by
  induction text generalizing pos with
  | nil => rw [tokenizeFrom]
  | cons c text ih =>
    simp only [List.all_cons, Bool.and_eq_true] at h
    rw [tokenizeFrom_space h.1, ih h.2]

/-- A readable expression is printed as a text that is parsed as the expression. -/
theorem Readable.parse_format {e : FilterExpr} (h : Readable e) :
    parseFilter stringify (formatFilter (some e)) = .ok (some e) := by
  have hlexes : Lexes stringify (fmt e 0) (lexemes e 0) [] := lexes_fmt h 0 (by rintro u ⟨⟩)
  obtain ⟨ts, pos, hls, htokens⟩ := hlexes 0
  have htokens : tokenize stringify (fmt e 0) = .ok ts := by
    rw [List.append_nil] at htokens
    rw [tokenize, htokens, tokenizeFrom]
    simp [Except.map]
  have hback : ReadsBack stringify (fmt e 0).length e := h.readsBack _
  have hread := hback.or (fuel ts) ts [] hls (by rintro t ⟨⟩) le_rfl
  rw [List.append_nil] at hread
  have hblank : (fmt e 0).all isSpace = false := by
    by_contra hblank
    rw [Bool.not_eq_false] at hblank
    rw [tokenize, tokenizeFrom_blank hblank] at htokens
    cases htokens
    have := (((sound stringify _ _).orExpr _ le_rfl).result _ hread).2
    simp at this
  rw [formatFilter, parseFilter, if_neg (by simp [hblank]), htokens]
  show (parse stringify (fmt e 0).length ts >>= _) = _
  rw [parse_eq_ok.mpr hread]
  rfl

/-- The canonical expressions: connectives have two arguments or more and none with the
same connective, fields have names, and lists have values. -/
inductive Canonical : FilterExpr → Prop
  | bool {op : BoolOp} {args : List FilterExpr} (many : 2 ≤ args.length)
      (each : ∀ a ∈ args, Canonical a) (flat : ∀ a ∈ args, ∀ args', a ≠ .bool op args') :
      Canonical (.bool op args)
  | not {arg : FilterExpr} (h : Canonical arg) : Canonical (.not arg)
  | text (v : Text) : Canonical (.text v)
  | fieldValue (op : FieldValueOp) {field : Text} (named : field ≠ []) (v : Text) :
      Canonical (.fieldValue op field v)
  | fieldValues (op : FieldValuesOp) {field : Text} (named : field ≠ []) {values : List Text}
      (some : values ≠ []) : Canonical (.fieldValues op field values)
  | fieldExists (op : FieldExistsOp) {field : Text} (named : field ≠ []) : Canonical (.fieldExists op field)

theorem Canonical.readable {e : FilterExpr} (h : Canonical e) : Readable e := by
  induction h with
  | bool many each flat ih => exact .bool many ih flat
  | not h ih => exact .not ih
  | text v => exact .text v
  | fieldValue op named v => exact .fieldValue op named v
  | fieldValues op named some => exact .fieldValues op named some
  | fieldExists op named =>
    cases op with
    | exists_ => exact .present named
    | notExists => exact .absent _

/-- Canonical expressions survive printing and parsing, and so does what any accepted
text stands for. -/
theorem parseFilter_formatFilter (stringify : Text → Text) :
    (∀ e, Canonical e → parseFilter stringify (formatFilter (some e)) = .ok (some e)) ∧
      ∀ text parsed, parseFilter stringify text = .ok parsed →
        parsed = none ∨ parseFilter stringify (formatFilter parsed) = .ok parsed := by
  refine ⟨fun e h => h.readable.parse_format, fun text parsed h => ?_⟩
  cases parsed with
  | none => exact .inl rfl
  | some e => exact .inr (parseFilter_readable h).parse_format

/-- A value that is a keyword, and a text with a quotation mark. -/
def sample : FilterExpr :=
  .bool .and [.fieldValue .eq (units "host") (units "and"), .not (.bool .or
    [.text (units "say \"no\""), .fieldValues .notIn (units "app") [units "a", units "b c"]])]

theorem parseFilter_formatFilter_sample :
    parseFilter id (formatFilter (some sample)) = .ok (some sample) := by
  have hinner : Canonical (.bool .or
      [.text (units "say \"no\""), .fieldValues .notIn (units "app") [units "a", units "b c"]]) := by
    refine .bool (by decide) ?_ ?_
    · simp only [List.forall_mem_cons, List.not_mem_nil, false_implies, implies_true, and_true]
      exact ⟨.text _, .fieldValues _ (by decide) (by simp)⟩
    · simp
  have hsample : Canonical sample := by
    refine .bool (by decide) ?_ ?_
    · simp only [List.forall_mem_cons, List.not_mem_nil, false_implies, implies_true, and_true]
      exact ⟨.fieldValue _ (by decide) _, .not hinner⟩
    · simp
  exact (parseFilter_formatFilter id).1 sample hsample

end Syslogc.FilterText
