-- SUMMARY: Browser and server split a native query at the same bar.
import Syslogc.Frontend.Text
import Syslogc.Storage.Compile

/-!
# Splitting native queries in the browser

The side panels of the explorer describe the logs that a native query starts from, so the
browser splits the query as the server does. It takes a literal that is not closed, and a bar
with nothing behind it, which the server refuses.
-/

namespace Syslogc.FilterText

open VictoriaLogs

/-- The loop of `splitNativePipes`: the texts before and after the first bar outside of
literals. In a literal `quote` is the mark that it began with; after a backslash in it the
next character is skipped. -/
def scanPipes (quote : Option UInt16) (skip : Bool) (before : Text) : Text → Option (Text × Text)
  | [] => none
  | c :: cs =>
    if skip then scanPipes quote false (before ++ [c]) cs
    else match quote with
      | some mark =>
        if c = 92 ∧ mark ≠ 96 then scanPipes quote true (before ++ [c]) cs
        else if c = mark then scanPipes none false (before ++ [c]) cs
        else scanPipes quote false (before ++ [c]) cs
      | none =>
        if c = 34 ∨ c = 39 ∨ c = 96 then scanPipes (some c) false (before ++ [c]) cs
        else if c = 124 then some (before, cs)
        else scanPipes none false (before ++ [c]) cs

def splitNativePipes (text : Text) : Text × Text :=
  match scanPipes none false [] text with
  | some (before, rest) => (trim before, trim rest)
  | none => (trim text, [])

/-! ## The two scans -/

/-- The variables of the browser's loop where the server's scan is in a state. -/
def scanState : Scan → Option UInt16 × Bool
  | .outside => (none, false)
  | .within mark escaped => (some mark.toUInt16, escaped)

/-- Wherever the server's scan succeeds, the browser's is in step with it. -/
theorem scanPipes_eq {st : Scan} {before cs : Bytes} {r : Option (Bytes × Bytes)}
    (h : scanNative st before cs = .ok r) :
    scanPipes (scanState st).1 (scanState st).2 (ofBytes before) (ofBytes cs) =
      r.map fun p => (ofBytes p.1, ofBytes p.2) := by
  have hbyte (c d : UInt8) : c.toUInt16 = d.toUInt16 ↔ c = d := UInt8.toUInt16_inj
  have hmark (c : UInt8) : (c.toUInt16 = 34 ∨ c.toUInt16 = 39 ∨ c.toUInt16 = 96) ↔ c = 34 ∨ c = 39 ∨ c = 96 :=
    or_congr (hbyte c 34) (or_congr (hbyte c 39) (hbyte c 96))
  have hbar (c : UInt8) : c.toUInt16 = 124 ↔ c = 124 := hbyte c 124
  have hescape (c mark : UInt8) : (c.toUInt16 = 92 ∧ mark.toUInt16 ≠ 96) ↔ c = 92 ∧ mark ≠ 96 :=
    and_congr (hbyte c 92) (hbyte mark 96).not
  induction cs generalizing st before with
  | nil =>
    cases st with
    | outside =>
      cases h
      rfl
    | within mark escaped => cases h
  | cons c cs ih =>
    have hnext {st : Scan} (h : scanNative st (before ++ [c]) cs = .ok r) := ih h
    simp only [ofBytes, List.map_append, List.map_cons, List.map_nil] at hnext ⊢
    cases st with
    | outside =>
      simp only [scanNative, Bool.or_eq_true, decide_eq_true_eq, or_assoc] at h
      simp only [scanState, scanPipes, hmark, hbar, Bool.false_eq_true, if_false]
      split_ifs at h ⊢
      · exact hnext h
      · cases h
        rfl
      · exact hnext h
    | within mark escaped =>
      simp only [scanNative, Bool.and_eq_true, decide_eq_true_eq, bne_iff_ne] at h
      simp only [scanState, scanPipes, hescape, hbyte]
      split_ifs at h ⊢ <;> exact hnext h

/-- Where the server's scan stops at a bar, the query is what is before it and after it. -/
theorem scanNative_parts {st : Scan} {before cs : Bytes} {p : Bytes × Bytes}
    (h : scanNative st before cs = .ok (some p)) :
    p.1 ++ 124 :: p.2 = before ++ cs := by
  fun_induction scanNative st before cs with
  | case8 =>
    cases h
    simp_all
  | _ => simp_all

theorem trim_ofBytes {s : Bytes} (h : ∀ c ∈ s, c < 128) : trim (ofBytes s) = ofBytes s.trimSpace := by
  obtain ⟨hsmall, hs⟩ := ascii_eq_some.mp (ascii_ofBytes h)
  have hsub : ∀ u ∈ trim (ofBytes s), u < 128 := fun u hu =>
      hsmall u ((List.dropWhile_sublist _).mem ((List.rdropWhile_prefix _ _).mem hu))
  have htrim : ascii (trim (ofBytes s)) = some ((trim (ofBytes s)).map UInt16.toUInt8) := ascii_eq_some.mpr ⟨hsub, rfl⟩
  have hencode : encode (ofBytes s) = s := by
    rw [encode_eq_flatMap fun u hu => .inl (UInt16.lt_trans (hsmall u hu) (by decide))]
    rw [List.flatMap_congr fun u hu => encodeRune_ascii (hsmall u hu), ← List.map_eq_flatMap, hs]
  have hserver := trimSpace_encode htrim fun hmark => absurd (hsmall _ hmark) (by decide)
  rw [hencode] at hserver
  rw [hserver]
  exact (ofBytes_of_ascii htrim).1

/-- The parts of a query that the server accepts are those that the browser shows. -/
theorem splitNativePipes_eq {text part pipes : Bytes} (hascii : ∀ c ∈ text, c < 128)
    (h : splitNative text = .ok (part, pipes)) : splitNativePipes (ofBytes text) = (ofBytes part, ofBytes pipes) := by
  obtain ⟨r, hscan, h⟩ := Fallible.bind_eq_ok.mp h
  have hbrowser : scanPipes none false [] (ofBytes text) = _ := scanPipes_eq hscan
  rw [splitNativePipes, hbrowser]
  cases r with
  | none =>
    cases h
    rw [← trim_ofBytes hascii]
    rfl
  | some p =>
    have hparts := scanNative_parts hscan
    simp only at h
    split_ifs at h
    cases h
    have hbefore : ∀ c ∈ p.1, c < 128 := fun c hc => hascii c (by rw [← List.nil_append text, ← hparts]; simp [hc])
    have hrest : ∀ c ∈ p.2, c < 128 := fun c hc => hascii c (by rw [← List.nil_append text, ← hparts]; simp [hc])
    simp [trim_ofBytes hbefore, trim_ofBytes hrest]

/-- A bar in a literal, and an escaped quotation mark before it. -/
theorem splitNativePipes_literal :
    splitNative (utf8 " msg:\"a\\\"|b\" | stats count() ") = .ok (utf8 "msg:\"a\\\"|b\"", utf8 "stats count()") ∧
      splitNativePipes (ofBytes (utf8 " msg:\"a\\\"|b\" | stats count() ")) =
        (ofBytes (utf8 "msg:\"a\\\"|b\""), ofBytes (utf8 "stats count()")) := by
  have hserver : splitNative (utf8 " msg:\"a\\\"|b\" | stats count() ") =
      .ok (utf8 "msg:\"a\\\"|b\"", utf8 "stats count()") := by decide +kernel
  exact ⟨hserver, splitNativePipes_eq (by decide +kernel) hserver⟩

end Syslogc.FilterText
