-- SUMMARY: Lines that end with CR LF and with LF alone.
import Syslogc.Framing.Stream

/-!
# Line endings

A line that ends with CR LF is decoded as the line without the CR, which is removed after
the line was cut at the maximum. So the CR counts where the line is cut: a line of exactly
the maximum is marked as cut although nothing of it is missing.
-/

namespace Syslogc.Framing

open Bufio

/-- A line of text that is not longer than the maximum. -/
structure TextLine (max : Nat) where
  bytes : Bytes
  nonempty : bytes ≠ []
  fits : bytes.length ≤ max
  plain : ∀ c ∈ bytes, c ≠ cr ∧ c ≠ newline ∧ c ≠ 0
  start : ∀ c ∈ bytes.head?, isDelimiter c = false ∧ isDigit c = false

/-- Lines, each with the same ending. -/
def endedBy {max : Nat} (ending : Bytes) (lines : List (TextLine max)) : Bytes :=
  lines.flatMap fun l => l.bytes ++ ending

namespace TextLine

variable {mode : Mode} {max : Nat}

theorem newline_notMem (l : TextLine max) : newline ∉ l.bytes := fun h => (l.plain newline h).2.1 rfl

/-- A line is what stands before the newline. -/
theorem nextFrame_line (hmode : mode = .lf ∨ mode = .auto) (l : TextLine max) {e : Bytes}
    (he : newline ∉ e) (t : Bytes) :
    nextFrame mode max (l.bytes ++ e ++ newline :: t) = .ok (cutAt max (l.bytes ++ e), t) := by
  obtain ⟨c, b, hbytes⟩ := List.exists_cons_of_ne_nil l.nonempty
  obtain ⟨hdelimiter, hdigit⟩ := l.start c (by simp [hbytes])
  have hdelim : mode.delim = newline := by
    obtain rfl | rfl := hmode <;> rfl
  have hnone : lengthDigits (c :: (b ++ (e ++ newline :: t))) = none := by
    apply lengthDigits_of_not_starts
    rw [startsLength_eq, hdigit]
    rfl
  have hfirst : firstFrame mode max (c :: (b ++ (e ++ newline :: t))) =
      line mode max (c :: (b ++ (e ++ newline :: t))) := by
    obtain rfl | rfl := hmode
    · rfl
    · simp [firstFrame, hnone, uncounted]
  have hall : l.bytes ++ e ++ newline :: t = c :: (b ++ (e ++ newline :: t)) := by
    rw [hbytes]
    simp
  have hno : newline ∉ l.bytes ++ e := by
    rw [List.mem_append, not_or]
    exact ⟨l.newline_notMem, he⟩
  have hnext : nextFrame mode max (c :: (b ++ (e ++ newline :: t))) =
      firstFrame mode max (c :: (b ++ (e ++ newline :: t))) := by
    simp [nextFrame, hdelimiter]
  rw [hall, hnext, hfirst, ← hall, line, hdelim, upTo_append hno, afterDelim_append hno]
  simp

theorem trimmed_bytes (l : TextLine max) : trimmed l.bytes = l.bytes := by
  obtain ⟨b, c, hbytes⟩ := (l.bytes.eq_nil_or_concat').resolve_left l.nonempty
  rw [hbytes]
  exact trimmed_eq_self (l.plain c (by simp [hbytes]))

theorem cutAt_bytes (l : TextLine max) : cutAt max l.bytes = (l.bytes, false) := by
  rw [cutAt, List.take_of_length_le l.fits, l.trimmed_bytes]
  simp [l.fits]

/-- The CR is removed, but counts for the maximum. -/
theorem cutAt_cr (l : TextLine max) :
    cutAt max (l.bytes ++ [cr]) = (l.bytes, decide (l.bytes.length = max)) := by
  have hfits := l.fits
  have hcut : trimmed ((l.bytes ++ [cr]).take max) = l.bytes := by
    obtain heq | hlt := eq_or_lt_of_le hfits
    · rw [List.take_left' heq, l.trimmed_bytes]
    · rw [List.take_of_length_le (by simpa using hlt), trimmed, List.rdropWhile_concat_pos _ _ _ (by simp)]
      exact l.trimmed_bytes
  rw [cutAt, hcut]
  simp only [List.length_append, List.length_singleton]
  congr 2
  exact propext ⟨fun h => by omega, fun h => by omega⟩

end TextLine

theorem framesOf_endedBy {mode : Mode} (hmode : mode = .lf ∨ mode = .auto) {max : Nat} {e : Bytes}
    (he : newline ∉ e) (lines : List (TextLine max)) :
    framesOf mode max (endedBy (e ++ [newline]) lines) =
      (lines.map fun l => cutAt max (l.bytes ++ e), .failure .eof) := by
  induction lines with
  | nil => exact framesOf_of_error rfl
  | cons l lines ih =>
    have hstream : endedBy (e ++ [newline]) (l :: lines) =
        l.bytes ++ e ++ newline :: endedBy (e ++ [newline]) lines := by
      simp [endedBy]
    rw [hstream, framesOf_of_ok (l.nextFrame_line hmode he _), ih]
    rfl

/-- Lines that end with CR LF are decoded as those that end with LF, exactly if none is as
long as the maximum. -/
theorem decode_crlf_iff (mode : Mode) (hmode : mode = .lf ∨ mode = .auto) (max : Nat)
    (lines : List (TextLine max)) (reads reads' : List Bytes)
    (hreads : reads.flatten = endedBy [cr, newline] lines) (hreads' : reads'.flatten = endedBy [newline] lines)
    (n : Nat) (hn : reads.flatten.length < n) (hn' : reads'.flatten.length < n) :
    (newDecoder (Reader.new · reads .eof) mode max).decode n =
        (newDecoder (Reader.new · reads' .eof) mode max).decode n ↔
      ∀ l ∈ lines, l.bytes.length ≠ max := by
  have hcrlf : framesOf mode max reads.flatten =
      (lines.map fun l => (l.bytes, decide (l.bytes.length = max)), .failure .eof) := by
    rw [hreads]
    refine (framesOf_endedBy hmode (e := [cr]) (by decide) lines).trans ?_
    simp only [TextLine.cutAt_cr]
  have hlf : framesOf mode max reads'.flatten = (lines.map fun l => (l.bytes, false), .failure .eof) := by
    rw [hreads']
    refine (framesOf_endedBy hmode (e := []) (by simp) lines).trans ?_
    simp only [List.append_nil, TextLine.cutAt_bytes]
  have hdecode : (newDecoder (Reader.new · reads .eof) mode max).decode n =
      some (framesOf mode max reads.flatten) := Decoder.decode_eq _ rfl hn
  have hdecode' : (newDecoder (Reader.new · reads' .eof) mode max).decode n =
      some (framesOf mode max reads'.flatten) := Decoder.decode_eq _ rfl hn'
  rw [hdecode, hdecode', hcrlf, hlf]
  simp [List.map_inj_left]

/-- A line of two letters. -/
def shortLine (max : Nat) (h : 2 ≤ max) : TextLine max where
  bytes := [97, 98]
  nonempty := by simp
  fits := h
  plain := by simp [cr, newline]
  start := by simp [isDelimiter, isDigit, newline, cr, space]

theorem decode_crlf_iff_short :
    (newDecoder (Reader.new · [[97, 98, cr], [newline]] .eof) .auto 3).decode 9 =
        (newDecoder (Reader.new · [[97, 98, newline]] .eof) .auto 3).decode 9 ↔
      ∀ l ∈ [shortLine 3 (by decide)], l.bytes.length ≠ 3 :=
  decode_crlf_iff .auto (.inr rfl) 3 [shortLine 3 (by decide)] [[97, 98, cr], [newline]] [[97, 98, newline]]
    rfl rfl 9 (by decide) (by decide)

/-- A line as long as the maximum is marked as cut where it ends with CR LF. -/
theorem crlf_marks_whole_line :
    (newDecoder (Reader.new · [[97, 98, cr, newline]] .eof) .lf 2).decode 5 =
        some ([([97, 98], true)], .failure .eof) ∧
      (newDecoder (Reader.new · [[97, 98, newline]] .eof) .lf 2).decode 5 =
        some ([([97, 98], false)], .failure .eof) := by
  decide +kernel

end Syslogc.Framing
