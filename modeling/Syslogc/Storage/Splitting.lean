-- SUMMARY: A compiled filter is split where its pipes begin.
import Syslogc.Storage.Native

/-!
# Splitting a query behind its compiled filter

The splitter reads a query byte by byte and knows only whether it is within a string
literal. It passes over the text of a compiled expression: what stands there outside of
literals has neither marks nor bars, and the literals are closed.
-/

namespace Syslogc.VictoriaLogs

open Syslogc.Filter LogsQL

/-! ## Texts without a bar -/

/-- A text that the splitter passes over, to be outside of a literal behind it. -/
def Barless (s : Bytes) : Prop :=
  ∀ before rest, scanNative .outside before (s ++ rest) = scanNative .outside (before ++ s) rest

/-- A byte that opens no literal and is no bar. -/
def isUnmarked (c : UInt8) : Bool := c != 34 && c != 39 && c != 96 && c != 124

variable {go : GoLib} {s t lit : Bytes} {e : Expr} {args : List Expr}

theorem Barless.nil : Barless [] := by
  intro before rest
  simp

theorem Barless.append (hs : Barless s) (ht : Barless t) : Barless (s ++ t) := by
  intro before rest
  rw [List.append_assoc, hs, ht, List.append_assoc]

theorem Barless.unmarked (h : s.all isUnmarked) : Barless s := by
  induction s with
  | nil => exact .nil
  | cons c s ih =>
    intro before rest
    simp only [List.all_cons, Bool.and_eq_true] at h
    have hc : c ≠ 34 ∧ c ≠ 39 ∧ c ≠ 96 ∧ c ≠ 124 := by simpa [isUnmarked, and_assoc] using h.1
    simpa [scanNative, hc] using ih h.2 (before ++ [c]) rest

theorem scanNative_inside {escaped : Bool} {body : Bytes} (h : inside escaped body) (before rest : Bytes) :
    scanNative (.within 34 escaped) before (body ++ 34 :: rest) =
      scanNative .outside (before ++ body ++ [34]) rest := by
  induction body generalizing escaped before with
  | nil =>
    cases escaped with
    | true => cases h
    | false => simp [scanNative]
  | cons c body ih =>
    cases escaped with
    | true =>
      have hbody : inside false body := h
      simpa [scanNative] using ih hbody (before ++ [c])
    | false =>
      by_cases hc : c = 92
      · simp only [inside, hc, if_true] at h
        simpa [scanNative, hc] using ih h (before ++ [c])
      · simp only [inside, hc, if_false, Bool.and_eq_true, bne_iff_ne] at h
        simpa [scanNative, hc, h.1] using ih h.2 (before ++ [c])

theorem Barless.literal (h : Delimited lit) : Barless lit := by
  obtain ⟨body, rfl, hbody⟩ := h
  intro before rest
  have hbody := scanNative_inside hbody (before ++ [34]) rest
  rw [List.append_assoc, List.append_assoc] at hbody
  simpa [scanNative] using hbody

theorem Barless.quote (go : GoLib) (v : Bytes) : Barless (go.quote v) :=
  .literal (go.delimited v)

theorem Barless.number (n : Number) : Barless n.text := by
  apply Barless.unmarked
  apply n.all
  · intro c hc
    have hrange : 48 ≤ c ∧ c ≤ 57 := by simpa [isDigit] using hc
    simp only [isUnmarked, Bool.and_eq_true, bne_iff_ne]
    refine ⟨⟨⟨?_, ?_⟩, ?_⟩, ?_⟩ <;> (rintro rfl; revert hrange; decide)
  · decide

/-! ## Compiled texts -/

/-- A text without a bar that neither begins nor ends with white space. -/
structure Compact (s : Bytes) : Prop where
  barless : Barless s
  head : ∃ c ∈ s.head?, Bytes.Solid c
  last : ∃ c ∈ s.getLast?, Bytes.Solid c

theorem Compact.unmarked (h : s.all isUnmarked) (hhead : ∃ c ∈ s.head?, Bytes.Solid c)
    (hlast : ∃ c ∈ s.getLast?, Bytes.Solid c) : Compact s :=
  ⟨.unmarked h, hhead, hlast⟩

theorem Compact.byte {c : UInt8} (h : isUnmarked c) (hc : Bytes.Solid c) : Compact [c] :=
  .unmarked (by simpa using h) ⟨c, rfl, hc⟩ ⟨c, rfl, hc⟩

/-- The ends of a text are those of its outer parts. -/
theorem Compact.around {m : Bytes} (hs : Compact s) (hm : Barless m) (ht : Compact t) : Compact (s ++ m ++ t) where
  barless := (hs.barless.append hm).append ht.barless
  head := by
    obtain ⟨c, hc, hsolid⟩ := hs.head
    exact ⟨c, by simp [Option.mem_def.mp hc], hsolid⟩
  last := by
    obtain ⟨c, hc, hsolid⟩ := ht.last
    exact ⟨c, by simp [Option.mem_def.mp hc], hsolid⟩

theorem Compact.quote (go : GoLib) (v : Bytes) : Compact (go.quote v) := by
  have hbarless := Barless.quote go v
  obtain ⟨body, hv, -⟩ := go.delimited v
  refine ⟨hbarless, ⟨34, ?_, by decide⟩, ⟨34, ?_, by decide⟩⟩
  · simp [hv]
  · rw [hv, ← List.cons_append]
    exact List.getLast?_concat

theorem isDigit_solid {c : UInt8} (h : isDigit c) : Bytes.Solid c := by
  have hends : ∀ p ∈ Bytes.spaces, p.head?.all (!isDigit ·) && p.getLast?.all (!isDigit ·) := by decide
  intro p hp
  have hp := hends p hp
  constructor
  · intro hc
    simp [hc, h] at hp
  · intro hc
    simp [hc, h] at hp

theorem Compact.number (n : Number) : Compact n.text := by
  have hsolid : n.text.all fun c => decide (Bytes.Solid c) := by
    apply n.all
    · intro c hc
      exact decide_eq_true (isDigit_solid hc)
    · decide
  have hsolid : ∀ c ∈ n.text, Bytes.Solid c := by simpa using hsolid
  refine ⟨.number n, ⟨n.text.head n.text_ne_nil, ?_, ?_⟩, ⟨n.text.getLast n.text_ne_nil, ?_, ?_⟩⟩
  · exact List.head?_eq_some_head n.text_ne_nil
  · exact hsolid _ (List.head_mem n.text_ne_nil)
  · exact List.getLast?_eq_some_getLast n.text_ne_nil
  · exact hsolid _ (List.getLast_mem n.text_ne_nil)

theorem Compact.not (hs : Compact s) : Compact (utf8 "NOT " ++ s) := by
  have hword : Compact (utf8 "NOT") := .unmarked (by decide) ⟨78, rfl, by decide⟩ ⟨84, rfl, by decide⟩
  exact hword.around (.unmarked (by decide : (utf8 " ").all isUnmarked)) hs

theorem Compact.group (hs : Barless s) : Compact (utf8 "(" ++ s ++ utf8 ")") :=
  Compact.around (.byte (by decide) (by decide)) hs (.byte (by decide) (by decide))

theorem Barless.values (v : Bytes) (vs : List Bytes) : Barless (valuesText go.toQuoting v vs) := by
  induction vs generalizing v with
  | nil => exact .quote go v
  | cons v' vs ih => exact ((Barless.quote go v).append (.unmarked (by decide))).append (ih v')

/-- The text of a field term begins with the name of the field, a literal. -/
theorem Compact.term (name : Bytes) (c : Condition) : Compact ((Term.field name c).text go.toQuoting) := by
  have hname := Compact.quote go name
  -- what a call has between its brackets
  have hcall : ∀ {mark arg : Bytes}, mark.all isUnmarked → Barless arg →
      Compact (go.quote name ++ mark ++ utf8 "(" ++ arg ++ utf8 ")") := by
    intro mark arg hmark harg
    have hbody : Barless (mark ++ utf8 "(" ++ arg) :=
      ((Barless.unmarked hmark).append (.unmarked (by decide))).append harg
    have hclosed : Compact (utf8 ")") := .byte (by decide) (by decide)
    simpa [List.append_assoc] using hname.around hbody hclosed
  cases c with
  | phrase v => exact hcall (by decide) (.quote go v)
  | exact v => exact hname.around (.unmarked (by decide)) (.quote go v)
  | regexp v => exact hname.around (.unmarked (by decide)) (.quote go v)
  | compare op n =>
    have hmark : (utf8 ":" ++ op.text).all isUnmarked := by cases op <;> decide
    simpa [Term.text, List.append_assoc] using hname.around (.unmarked hmark) (.number n)
  | ipv4Range v => exact hcall (by decide) (.quote go v)
  | oneOf v vs => exact hcall (by decide) (.values v vs)
  | any =>
    have hstar : Compact (utf8 "*") := .byte (by decide) (by decide)
    have htext := hname.around (.unmarked (by decide : (utf8 ":").all isUnmarked)) hstar
    rw [List.append_assoc] at htext
    exact htext

theorem compileArgs_barless {sep : Bytes} {first : Bool} (hsep : sep.all isUnmarked)
    (hargs : ∀ a ∈ args, ∀ s, compile go a = .ok s → Compact s) (h : compileArgs go sep first args = .ok s) :
    Barless s := by
  induction args generalizing first s with
  | nil =>
    simp only [compileArgs, Except.ok.injEq] at h
    exact h ▸ .nil
  | cons a args ih =>
    simp only [compileArgs] at h
    obtain ⟨sa, hsa, h⟩ := Fallible.bind_eq_ok.mp h
    obtain ⟨rest, hrest, rfl⟩ := Fallible.map_eq_ok.mp h
    have hfirst : Barless (if first then [] else sep) := by
      cases first with
      | true => exact .nil
      | false => exact .unmarked hsep
    have hrest := ih (fun a ha => hargs a (List.mem_cons_of_mem _ ha)) hrest
    exact (hfirst.append (hargs a List.mem_cons_self sa hsa).barless).append hrest

theorem compile_compact (hvalid : e.Valid go) (h : compile go e = .ok s) : Compact s := by
  induction hvalid generalizing s with
  | connective hop _ _ ih =>
    rcases hop with rfl | rfl
    · simp only [compile] at h
      obtain ⟨body, hbody, rfl⟩ := Fallible.map_eq_ok.mp h
      exact .group (compileArgs_barless (by decide) (fun a ha s => ih a ha) hbody)
    · simp only [compile] at h
      obtain ⟨body, hbody, rfl⟩ := Fallible.map_eq_ok.mp h
      exact .group (compileArgs_barless (by decide) (fun a ha s => ih a ha) hbody)
  | not _ ih =>
    simp only [compile] at h
    obtain ⟨body, hbody, rfl⟩ := Fallible.map_eq_ok.mp h
    exact (Compact.group (ih hbody).barless).not
  | leaf hop hoperand =>
    rcases compile_leaf _ _ _ hop hoperand with herr | ⟨c, -, hc⟩
    · rw [h] at herr
      cases herr
    · obtain rfl : s = _ := Except.ok.inj (h.symm.trans hc)
      split
      · exact (Compact.term _ c).not
      · exact .term _ c

theorem compileFilter_compact (h : compileFilter go e = .ok s) : Compact s := by
  cases e with
  | null =>
    obtain rfl : utf8 "*" = s := Except.ok.inj h
    exact .byte (by decide) (by decide)
  | node op args arg field value values =>
    have hv := compileFilter_validates h
    have hvalid := (validate_valid hv).resolve_left (by rintro ⟨⟩)
    cases hc : compile go (.node op args arg field value values) with
    | error message => simp only [compileFilter, hv, hc, reduceCtorEq] at h
    | ok text =>
      simp only [compileFilter, hv, hc, Except.ok.injEq] at h
      exact h ▸ compile_compact hvalid hc

/-! ## The split -/

/-- The filter of a query and its pipes are what was put together, without the white
space around the pipes, whatever the names and values of the filter are. -/
theorem splitNative_compiled (go : GoLib) (e : Expr) (s p : Bytes) (hs : compileFilter go e = .ok s)
    (hp : p.trimSpace ≠ []) : splitNative (s ++ utf8 " | " ++ p) = .ok (s, p.trimSpace) := by
  have hc := compileFilter_compact hs
  have hscan : scanNative .outside [] (s ++ utf8 " | " ++ p) = .ok (some (s ++ [32], 32 :: p)) := by
    rw [List.append_assoc, hc.barless]
    rfl
  have hrest : Bytes.trimSpace (32 :: p) = p.trimSpace := Bytes.trimSpace_cons_blank p
  have hbefore : Bytes.trimSpace (s ++ [32]) = s := Bytes.trimSpace_blank hc.head hc.last
  simp only [splitNative, hscan, Except.bind, hrest, hbefore, if_neg hp]

/-- A bar, a quote and a backslash in a name and in a value. -/
def barred : Expr := fieldIs .eq (utf8 "a|b\"") (utf8 "\\|\" | '")

def barredText : Bytes := utf8 "\"a|b\\\"\":=\"\\\\|\\\" | '\""

theorem splitNative_compiled_barred :
    compileFilter plainLib barred = .ok barredText ∧ (utf8 " limit 5\n").trimSpace = utf8 "limit 5" ∧
      splitNative (barredText ++ utf8 " | " ++ utf8 " limit 5\n") = .ok (barredText, utf8 "limit 5") :=
  ⟨rfl, rfl, splitNative_compiled plainLib barred barredText (utf8 " limit 5\n") rfl (by decide)⟩

end Syslogc.VictoriaLogs
