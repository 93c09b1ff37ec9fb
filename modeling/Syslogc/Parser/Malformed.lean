-- SUMMARY: Messages with malformed structured data.
import Syslogc.Parser.Rfc5424Positions

/-!
# Malformed structured data

Structured data that starts is malformed if the grammar does not read it, wherever it goes
wrong. The parser finds out while it is adding fields to the entry, and takes them back. The
grammar is wider than that of RFC 5424: a closing bracket in a value needs no backslash.
-/

namespace Syslogc.Parser.Rfc5424

open Logentry

/-- A complete header: what follows it. -/
structure Header (data : Bytes) (pri : Nat) (toks : List Bytes) (rest : Bytes) : Prop where
  header : ∃ r version r', parsePRI data = some (pri, r) ∧ parseVersion r = .ok (version, r') ∧
    tokens 5 r' = (toks, rest)
  complete : toks.length = 5

/-- Structured data that is started and goes wrong, in whichever of its elements. -/
structure MalformedSD (rest : Bytes) : Prop where
  starts : rest.head? = some 91
  wrong : ¬∃ els after, ReadsElements rest els after

/-- Structured data is malformed where the parser finds an error in it. -/
theorem malformedSD_iff {rest : Bytes} (hstart : rest.head? = some 91) (length : Nat) (short : Bool)
    (fields : List Field) :
    MalformedSD rest ↔ ∃ perr, parseSD length short fields rest = .error perr := by
  constructor
  · rintro ⟨-, hwrong⟩
    cases hparse : parseSD length short fields rest with
    | error perr => exact ⟨perr, rfl⟩
    | ok r =>
      obtain ⟨-, els, hels⟩ := readsElements_of_ok le_rfl hparse
      exact absurd ⟨els, _, hels⟩ hwrong
  · rintro ⟨perr, hparse⟩
    refine ⟨hstart, ?_⟩
    rintro ⟨els, after, hels⟩
    rw [parseSD, hels.sdElements_eq length short le_rfl fields] at hparse
    cases hparse

/-! ## Errors -/

theorem atOffset_ne_nil (text : String) (offset : Nat) : atOffset text offset ≠ [] := by
  have hdigits := Decimal.text_ne_nil offset
  simp [atOffset, hdigits]

theorem sdParams_error {length : Nat} {short : Bool} {sdID : Bytes} {elemStart n : Nat} {fields : List Field}
    {rest perr : Bytes} (h : sdParams length short sdID elemStart n fields rest = .error perr) : perr ≠ [] := by
  fun_induction sdParams length short sdID elemStart n fields rest with
  | case1 | case2 =>
    cases h
    decide
  | case3 => cases h
  | case7 _ _ _ _ _ _ _ _ _ _ _ _ _ ih => exact ih h
  | case4 | case5 | case6 | case8 =>
    cases h
    exact atOffset_ne_nil _ _

theorem sdElements_error {length : Nat} {short : Bool} {n : Nat} {fields : List Field} {rest perr : Bytes}
    (h : sdElements length short n fields rest = .error perr) : perr ≠ [] := by
  fun_induction sdElements length short n fields rest with
  | case1 | case2 | case3 => cases h
  | case4 =>
    cases h
    exact atOffset_ne_nil _ _
  | case5 _ _ _ _ _ _ _ _ _ hparams =>
    cases h
    exact sdParams_error hparams
  | case6 _ _ _ _ _ _ _ _ _ _ _ ih => exact ih h

theorem trimBOM_open (rest : Bytes) : trimBOM (91 :: rest) = 91 :: rest := by
  simp [trimBOM, Bytes.cutPrefix]

theorem applyHeader_fields (go : GoLib) (e : Entry) (toks : List Bytes) :
    (applyHeader go e toks).fields = e.fields := by
  have hstep (e : Entry) (i : Nat) (tok : Bytes) : (applyToken go e i tok).fields = e.fields := by
    unfold applyToken
    split
    · rfl
    · split
      · split <;> rfl
      all_goals rfl
  unfold applyHeader
  induction toks.zipIdx generalizing e with
  | nil => rfl
  | cons t ts ih => rw [List.foldl_cons, ih, hstep]

/-- For every message with a complete header whose structured data starts with a bracket and
is malformed at any point, after any number of elements: the parser reports an error, the
fields of the entry are those of before and the message is the whole text from the bracket on. -/
theorem parse_malformed (go : GoLib) (input : Input) (e : Entry) {pri : Nat} {toks : List Bytes} {rest : Bytes}
    (hheader : Header input.data pri toks rest) (hwrong : MalformedSD rest) :
    ∃ perr, perr ≠ [] ∧
      Positional.Rfc5424.parse go input e =
        .ok (.ok { applyHeader go (setPRI e pri) toks with
          parseError := perr, fields := e.fields, message := rest }) := by
  obtain ⟨⟨r, version, r', hpri, hversion, htokens⟩, hfive⟩ := hheader
  have hfields : (applyHeader go (setPRI e pri) toks).fields = e.fields := applyHeader_fields go _ toks
  obtain ⟨perr, hperr⟩ := (malformedSD_iff hwrong.starts input.data.length input.sdShort e.fields).mp hwrong
  obtain ⟨after, rfl⟩ := List.head?_eq_some_iff.mp hwrong.starts
  refine ⟨perr, sdElements_error hperr, ?_⟩
  rw [Positional.Rfc5424.parse_eq, parse]
  simp only [hpri, hversion, htokens, hfive, lt_self_iff_false, if_false]
  rw [parseBody, hfields]
  simp only [hperr, trimBOM_open]
  rfl

/-- A message that ends in its second element, behind a parameter that was given twice. -/
def cutShort : Bytes := utf8 "<34>1 - host su - ID47 [a x=\"1\" x=\"2\"][b y=\"3"

theorem parse_malformed_cut_short :
    ∃ perr, perr ≠ [] ∧
      Positional.Rfc5424.parse ⟨fun _ => none, id⟩ ⟨cutShort, false⟩ {} =
        .ok (.ok { applyHeader ⟨fun _ => none, id⟩ (setPRI {} 34) ["-", "host", "su", "-", "ID47"] with
          parseError := perr, fields := [], message := utf8 "[a x=\"1\" x=\"2\"][b y=\"3" }) := by
  have hheader : Header cutShort 34 ["-", "host", "su", "-", "ID47"] (utf8 "[a x=\"1\" x=\"2\"][b y=\"3") :=
    ⟨⟨utf8 "1 - host su - ID47 [a x=\"1\" x=\"2\"][b y=\"3", utf8 "1",
      utf8 "- host su - ID47 [a x=\"1\" x=\"2\"][b y=\"3", by decide, by decide, by decide⟩, rfl⟩
  have hwrong : MalformedSD (utf8 "[a x=\"1\" x=\"2\"][b y=\"3") :=
    (malformedSD_iff (by decide) 0 false []).mpr ⟨_, rfl⟩
  exact parse_malformed ⟨fun _ => none, id⟩ ⟨cutShort, false⟩ {} hheader hwrong

/-- The value of `[a x="]"]` has a bracket that RFC 5424 wants to be escaped: no error is
reported and its field is kept. -/
theorem parse_open_bracket :
    ∃ e, Positional.Rfc5424.parse ⟨fun _ => none, id⟩ ⟨utf8 "<34>1 - host su - ID47 [a x=\"]\"] m", false⟩ {} =
      .ok (.ok e) ∧
      e.parseError = [] ∧ e.fields = [⟨utf8 "sd.a.x", utf8 "]"⟩] ∧ e.message = utf8 "m" :=
  ⟨_, by rw [Positional.Rfc5424.parse_eq]; rfl, rfl, rfl, rfl⟩

end Syslogc.Parser.Rfc5424
