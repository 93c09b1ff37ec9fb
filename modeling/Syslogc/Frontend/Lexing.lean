-- SUMMARY: Printed filter texts are read as their tokens.
import Syslogc.Frontend.Parsing

/-!
# Lexing printed text

A printed expression is a sequence of pieces, each of which is read as the tokens it
stands for whatever follows, as long as the end of a bare word shows.
-/

namespace Syslogc.FilterText

/-- A token without its position. -/
abbrev Lexeme := TokenKind × Text

def Token.lexeme (t : Token) : Lexeme := (t.kind, t.value)

variable {stringify : Text → Text}

/-! ## Reading one token -/

variable {pos : Nat} {rest : Text}

theorem tokenizeFrom_space {c : UInt16} (h : isSpace c = true) :
    tokenizeFrom stringify pos (c :: rest) = tokenizeFrom stringify (pos + 1) rest := by
  rw [tokenizeFrom, if_pos h]

theorem tokenizeFrom_token {c : UInt16} {rest' : Text} {t : Token}
    (hspace : isSpace c = false) (h : readToken stringify pos c rest = .ok (t, rest')) :
    ∃ pos', tokenizeFrom stringify pos (c :: rest) =
      (tokenizeFrom stringify pos' rest').map (t :: ·) := by
  refine ⟨pos + (rest.length + 1 - rest'.length), ?_⟩
  rw [tokenizeFrom, if_neg (by simp [hspace])]
  split
  · rename_i e heq
    rw [h] at heq
    cases heq
  · rename_i t₁ rest₁ heq
    rw [h] at heq
    cases heq
    rfl

/-- The text `a`, with `rest` after it, is read as the lexemes `ls` and then what `rest` is
read as. -/
def Lexes (stringify : Text → Text) (a : Text) (ls : List Lexeme) (rest : Text) : Prop :=
  ∀ pos, ∃ ts pos', ts.map Token.lexeme = ls ∧
    tokenizeFrom stringify pos (a ++ rest) = (tokenizeFrom stringify pos' rest).map (ts ++ ·)

theorem Lexes.trans {a b : Text} {ls ls' : List Lexeme} (h₁ : Lexes stringify a ls (b ++ rest))
    (h₂ : Lexes stringify b ls' rest) : Lexes stringify (a ++ b) (ls ++ ls') rest := by
  intro pos
  obtain ⟨ts₁, pos₁, rfl, heq₁⟩ := h₁ pos
  obtain ⟨ts₂, pos₂, rfl, heq₂⟩ := h₂ pos₁
  refine ⟨ts₁ ++ ts₂, pos₂, List.map_append, ?_⟩
  rw [List.append_assoc, heq₁, heq₂, Fallible.map_map]
  simp only [List.append_assoc]

theorem Lexes.of_readToken {c : UInt16} {a : Text} {l : Lexeme} (hspace : isSpace c = false)
    (h : ∀ pos, ∃ t : Token, t.lexeme = l ∧ readToken stringify pos c (a ++ rest) = .ok (t, rest)) :
    Lexes stringify (c :: a) [l] rest := by
  intro pos
  obtain ⟨t, rfl, hread⟩ := h pos
  obtain ⟨pos', heq⟩ := tokenizeFrom_token hspace hread
  exact ⟨[t], pos', rfl, heq⟩

/-- A text that begins with a blank is read like what follows the blank. -/
theorem Lexes.blank {a : Text} {ls : List Lexeme} (h : Lexes stringify a ls rest) :
    Lexes stringify (32 :: a) ls rest := by
  intro pos
  obtain ⟨ts, pos', hls, heq⟩ := h (pos + 1)
  refine ⟨ts, pos', hls, ?_⟩
  rw [List.cons_append, tokenizeFrom_space (by decide), heq]

theorem Lexes.nil : Lexes stringify [] [] rest := by
  intro pos
  refine ⟨[], pos, rfl, ?_⟩
  rw [List.nil_append]
  cases tokenizeFrom stringify pos rest with
  | error e => rfl
  | ok ts => rfl

theorem lexes_lparen : Lexes stringify (units "(") [(.lparen, units "(")] rest :=
  .of_readToken rfl fun pos => ⟨⟨_, _, pos⟩, rfl, rfl⟩

theorem lexes_rparen : Lexes stringify (units ")") [(.rparen, units ")")] rest :=
  .of_readToken rfl fun pos => ⟨⟨_, _, pos⟩, rfl, rfl⟩

theorem lexes_comma : Lexes stringify (units ",") [(.comma, units ",")] rest :=
  .of_readToken rfl fun pos => ⟨⟨_, _, pos⟩, rfl, rfl⟩

theorem lexes_exists : Lexes stringify (units ":*") [(.exists_, units ":*")] rest :=
  .of_readToken rfl fun pos => ⟨⟨_, _, pos⟩, rfl, rfl⟩

/-! ## Words -/

/-- No bare word goes on into this text. -/
def Stop (rest : Text) : Prop := ∀ u ∈ rest.head?, plain u = false

/-- The text begins with a character that extends no operator. -/
def StartsValue (rest : Text) : Prop := ∃ u tail, rest = u :: tail ∧ u ≠ 61 ∧ u ≠ 126

theorem plain_not_special {u : UInt16} (h : plain u = true) : u ∉ special := by
  simp only [plain, Bool.not_eq_true', Bool.or_eq_false_iff] at h
  simpa using h.2

theorem plain_not_space {u : UInt16} (h : plain u = true) : isSpace u = false := by
  simp only [plain, Bool.not_eq_true', Bool.or_eq_false_iff] at h
  exact h.1

/-- Every operator begins with a special character. -/
theorem find_operator_plain {u : UInt16} (h : plain u = true) :
    operators.find? (fun o => o.1.isPrefixOf (u :: rest)) = none := by
  refine List.find?_eq_none.mpr fun o ho => ?_
  have hhead : ∀ o ∈ operators, ∃ v ∈ special, o.1.head? = some v := by decide
  obtain ⟨v, hv, ho⟩ := hhead o ho
  obtain ⟨tail, ho⟩ := List.head?_eq_some_iff.mp ho
  rw [ho, List.isPrefixOf_cons_cons]
  have hne : (v == u) = false := by
    rw [beq_eq_false_iff_ne]
    rintro rfl
    exact plain_not_special h hv
  simp [hne]

theorem readToken_plain {u : UInt16} (h : plain u = true) :
    readToken stringify pos u rest =
      .ok (⟨.bare, (u :: rest).takeWhile plain, pos⟩, (u :: rest).dropWhile plain) := by
  have hspecial (v : UInt16) (hv : v ∈ special) : u ≠ v := by
    rintro rfl
    exact plain_not_special h hv
  unfold readToken
  rw [if_neg, if_neg, if_neg, if_neg, if_neg, find_operator_plain h]
  · simp only [h, if_true]
    rw [if_neg]
    exact fun heq => hspecial 33 (by decide) (List.head_eq_of_cons_eq heq)
  · exact hspecial 34 (by decide)
  · have : ((58 : UInt16) == u) = false := beq_eq_false_iff_ne.mpr (hspecial 58 (by decide)).symm
    simp [units, List.isPrefixOf, this]
  · exact fun heq => hspecial 44 (by decide) (List.head_eq_of_cons_eq heq)
  · exact fun heq => hspecial 41 (by decide) (List.head_eq_of_cons_eq heq)
  · exact fun heq => hspecial 40 (by decide) (List.head_eq_of_cons_eq heq)

theorem lexes_bare {v : Text} (hne : v ≠ []) (hplain : v.all plain = true) (hstop : Stop rest) :
    Lexes stringify v [(.bare, v)] rest := by
  obtain ⟨u, tail, rfl⟩ := List.exists_cons_of_ne_nil hne
  have hall : ∀ x ∈ u :: tail, plain x = true := List.all_eq_true.mp hplain
  have hu : plain u = true := hall u List.mem_cons_self
  have hend : rest.takeWhile plain = [] ∧ rest.dropWhile plain = rest := by
    cases rest with
    | nil => exact ⟨rfl, rfl⟩
    | cons x rest =>
      have := hstop x rfl
      simp [this]
  refine .of_readToken (plain_not_space hu) fun pos => ⟨⟨.bare, u :: tail, pos⟩, rfl, ?_⟩
  rw [readToken_plain hu, ← List.cons_append, List.takeWhile_append_of_pos hall,
    List.dropWhile_append_of_pos hall, hend.1, hend.2, List.append_nil]

/-- The two replacements in one pass. -/
def escape (v : Text) : Text :=
  v.flatMap fun u => if u = backslash then [backslash, backslash]
    else if u = quotationMark then [backslash, quotationMark] else [u]

theorem quoteAlways_eq (v : Text) :
    quoteAlways v = quotationMark :: (escape v ++ [quotationMark]) := by
  have hescape : replaceAll quotationMark [backslash, quotationMark]
      (replaceAll backslash [backslash, backslash] v) = escape v := by
    induction v with
    | nil => rfl
    | cons u v ih =>
      simp only [replaceAll, escape, List.flatMap_cons, List.flatMap_append] at ih ⊢
      rw [ih]
      by_cases hb : u = backslash
      · subst hb
        rfl
      · simp [hb]
  rw [quoteAlways, hescape]
  rfl

theorem readQuoted_close {start : Nat} :
    readQuoted start pos (quotationMark :: rest) = .ok ([], rest) := by
  unfold readQuoted
  rw [if_neg (by decide), if_pos rfl]

theorem readQuoted_escaped {start : Nat} {u : UInt16} :
    readQuoted start pos (backslash :: u :: rest) =
      (readQuoted start (pos + 2) rest).map fun r => (u :: r.1, r.2) := by
  rw [readQuoted, if_pos rfl]

theorem readQuoted_other {start : Nat} {u : UInt16} (hback : u ≠ backslash)
    (hquote : u ≠ quotationMark) : readQuoted start pos (u :: rest) =
      (readQuoted start (pos + 1) rest).map fun r => (u :: r.1, r.2) := by
  conv_lhs => unfold readQuoted
  rw [if_neg hback, if_neg hquote]

theorem readQuoted_escape {start : Nat} {v : Text} :
    readQuoted start pos (escape v ++ quotationMark :: rest) = .ok (v, rest) := by
  induction v generalizing pos with
  | nil => exact readQuoted_close
  | cons u v ih =>
    have hcons : escape (u :: v) = escape [u] ++ escape v := by simp [escape]
    rw [hcons, List.append_assoc]
    by_cases hback : u = backslash
    · subst hback
      have hback : escape [backslash] = [backslash, backslash] := rfl
      rw [hback, List.cons_append, List.singleton_append, readQuoted_escaped, ih]
      rfl
    · by_cases hquote : u = quotationMark
      · subst hquote
        have hmark : escape [quotationMark] = [backslash, quotationMark] := rfl
        rw [hmark, List.cons_append, List.singleton_append, readQuoted_escaped, ih]
        rfl
      · have hplain : escape [u] = [u] := by simp [escape, hback, hquote]
        rw [hplain, List.singleton_append, readQuoted_other hback hquote, ih]
        rfl

theorem lexes_quoteAlways {v : Text} : Lexes stringify (quoteAlways v) [(.quoted, v)] rest := by
  rw [quoteAlways_eq]
  refine .of_readToken (by decide) fun pos => ⟨⟨.quoted, v, pos⟩, rfl, ?_⟩
  have hread : readToken stringify pos quotationMark (escape v ++ quotationMark :: rest) =
      (readQuoted pos (pos + 1) (escape v ++ quotationMark :: rest)).map
        fun r => (⟨.quoted, r.1, pos⟩, r.2) := rfl
  rw [List.append_assoc, List.singleton_append, hread, readQuoted_escape]
  rfl

/-- What a printed word is read as. -/
def word (v : Text) : Lexeme := (if isBareWord v then .bare else .quoted, v)

theorem lexes_quote {v : Text} (hstop : Stop rest) : Lexes stringify (quote v) [word v] rest := by
  unfold quote word
  split_ifs with hbare
  · simp only [isBareWord, Bool.and_eq_true, Bool.not_eq_true', List.isEmpty_eq_false_iff] at hbare
    exact lexes_bare hbare.1.1 hbare.1.2 hstop
  · exact lexes_quoteAlways

theorem startsValue_quoteAlways (v rest : Text) : StartsValue (quoteAlways v ++ rest) := by
  rw [quoteAlways_eq]
  exact ⟨quotationMark, _, rfl, by decide, by decide⟩

theorem startsValue_quote (v rest : Text) : StartsValue (quote v ++ rest) := by
  unfold quote
  split_ifs with hbare
  · simp only [isBareWord, Bool.and_eq_true, Bool.not_eq_true', List.isEmpty_eq_false_iff] at hbare
    obtain ⟨u, tail, rfl⟩ := List.exists_cons_of_ne_nil hbare.1.1
    have hu := plain_not_special (List.all_eq_true.mp hbare.1.2 u List.mem_cons_self)
    refine ⟨u, tail ++ rest, rfl, ?_, ?_⟩
    · rintro rfl
      exact hu (by decide)
    · rintro rfl
      exact hu (by decide)
  · exact startsValue_quoteAlways v rest

theorem operators_eq : operators = [([33, 61], .ne), ([61, 126], .regex), ([94, 61], .startsWith),
    ([62, 61], .gte), ([60, 61], .lte), ([61], .eq), ([126], .contains), ([62], .gt), ([60], .lt)] :=
  rfl

theorem lexes_bang (h : StartsValue rest) :
    Lexes stringify (units "!") [(.bang, units "!")] rest := by
  obtain ⟨u, tail, rfl, heq, -⟩ := h
  have heq : ((61 : UInt16) == u) = false := beq_eq_false_iff_ne.mpr heq.symm
  have hfind : operators.find? (fun o => o.1.isPrefixOf (33 :: u :: tail)) = none := by
    simp [operators_eq, List.isPrefixOf, heq]
  have hread (pos : Nat) : readToken stringify pos 33 (u :: tail) = .ok (⟨.bang, [33], pos⟩, u :: tail) := by
    unfold readToken
    rw [if_neg (by decide), if_neg (by decide), if_neg (by decide), if_neg, if_neg (by decide), hfind]
    · rfl
    · exact Bool.false_ne_true
  show Lexes stringify [33] [(.bang, [33])] (u :: tail)
  exact .of_readToken (by decide) fun pos => ⟨⟨.bang, [33], pos⟩, rfl, hread pos⟩

theorem find_operator {o : Text × FieldValueOp} (ho : o ∈ operators) (h : StartsValue rest) :
    operators.find? (fun o' => o'.1.isPrefixOf (o.1 ++ rest)) = some o := by
  obtain ⟨u, tail, rfl, heq, htilde⟩ := h
  have heq : ((61 : UInt16) == u) = false := beq_eq_false_iff_ne.mpr heq.symm
  have htilde : ((126 : UInt16) == u) = false := beq_eq_false_iff_ne.mpr htilde.symm
  simp only [operators_eq, List.mem_cons, List.not_mem_nil, or_false] at ho ⊢
  obtain rfl | rfl | rfl | rfl | rfl | rfl | rfl | rfl | rfl := ho
  all_goals simp [List.isPrefixOf, heq, htilde]

/-- An operator is read whole. -/
theorem lexes_op {o : Text × FieldValueOp} (ho : o ∈ operators) (h : StartsValue rest) :
    Lexes stringify o.1 [(.op, o.1)] rest := by
  have hhead : ∀ o ∈ operators, ∃ c ∈ special, o.1 = c :: o.1.tail ∧ isSpace c = false ∧
      [c] ≠ units "(" ∧ [c] ≠ units ")" ∧ [c] ≠ units "," ∧ c ≠ 58 ∧ c ≠ quotationMark := by decide
  obtain ⟨c, -, hc, hspace, hl, hr, hcomma, hcolon, hquote⟩ := hhead o ho
  have hfind := find_operator ho h
  rw [hc] at hfind
  have hread (pos : Nat) : readToken stringify pos c (o.1.tail ++ rest) = .ok (⟨.op, o.1, pos⟩, rest) := by
    unfold readToken
    rw [if_neg hl, if_neg hr, if_neg hcomma, if_neg, if_neg hquote]
    · simp only [List.cons_append] at hfind
      rw [hfind]
      have hdrop : (c :: (o.1.tail ++ rest)).drop o.1.length = rest := by
        rw [← List.cons_append, ← hc, List.drop_left]
      simp only [hdrop]
    · have : ((58 : UInt16) == c) = false := beq_eq_false_iff_ne.mpr hcolon.symm
      show ¬ List.isPrefixOf [58, 42] (c :: _) = true
      simp [List.isPrefixOf, this]
  rw [hc]
  exact .of_readToken hspace fun pos => ⟨⟨.op, o.1, pos⟩, by rw [Token.lexeme, ← hc], hread pos⟩

end Syslogc.FilterText
