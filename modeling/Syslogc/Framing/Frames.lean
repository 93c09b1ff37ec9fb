-- SUMMARY: What the decoder returns, in terms of the bytes alone.
import Syslogc.Framing.Decoder

/-!
# Frames

The buffered reads of the decoder are put back together: `delimited` returns what
stands before the delimiter and `octet` the bytes that are counted, cut at the maximum,
however the stream is split into reads.
-/

namespace Syslogc.Framing

open Bufio

/-! ## Delimited frames -/

theorem skipUntil_rest (delim : UInt8) (r : Reader) :
    (skipUntil delim r).rest = afterDelim delim r.rest := by
  fun_induction skipUntil delim r with
  | case1 r hfull ih => rw [ih, ((r.readSlice_spec delim).of_full hfull).2.1]
  | case2 r hfull =>
    cases hstop : (r.readSlice delim).1.stop with
    | found => exact ((r.readSlice_spec delim).of_found hstop).2
    | full => exact absurd hstop hfull
    | failed =>
      obtain ⟨-, -, hafter, hnil⟩ := (r.readSlice_spec delim).of_failed hstop
      rw [hafter, hnil]

/-- A frame that is longer than the maximum is cut whatever follows. -/
theorem Decoder.limit_append (d : Decoder) {buf : Bytes} (h : d.max < buf.length)
    (b : Bytes) :
    d.limit (buf ++ b) = { msg := trimmed (buf.take d.max), truncated := true } := by
  have hlong : d.max < (buf ++ b).length := by
    rw [List.length_append]
    omega
  rw [Decoder.limit, if_pos hlong, List.take_append_of_le_length h.le]

/-- A slice that is not a full buffer completes the frame. -/
theorem Decoder.complete_spec (d : Decoder) {delim : UInt8} {r : Reader}
    (hfull : (r.readSlice delim).1.stop ≠ .full) {buf : Bytes} (h : buf ++ r.rest ≠ []) :
    d.complete r.failure (buf ++ (r.readSlice delim).1.line) (r.readSlice delim).1.stop =
        d.limit (buf ++ upTo delim r.rest) ∧
      (r.readSlice delim).2.rest = afterDelim delim r.rest := by
  cases hstop : (r.readSlice delim).1.stop with
  | found =>
    obtain ⟨hline, hrest⟩ := (r.readSlice_spec delim).of_found hstop
    refine ⟨?_, hrest⟩
    rw [hline, Decoder.complete, ← List.append_assoc, List.dropLast_concat]
  | full => exact absurd hstop hfull
  | failed =>
    obtain ⟨hline, hup, hafter, hrest⟩ := (r.readSlice_spec delim).of_failed hstop
    rw [hline, hup, hafter]
    exact ⟨if_neg h, hrest⟩

theorem Decoder.collect_spec (d : Decoder) (delim : UInt8) (buf : Bytes) (r : Reader)
    (h : buf ++ r.rest ≠ []) :
    (d.collect delim buf r).1 = d.limit (buf ++ upTo delim r.rest) ∧
      (d.collect delim buf r).2.rest = afterDelim delim r.rest := by
  fun_induction Decoder.collect d delim buf r with
  | case1 buf r hlong => exact ⟨(d.limit_append hlong _).symm, skipUntil_rest delim r⟩
  | case2 buf r hshort hfull ih =>
    obtain ⟨hup, hafter, -⟩ := (r.readSlice_spec delim).of_full hfull
    have hmore : buf ++ (r.readSlice delim).1.line ++ (r.readSlice delim).2.rest ≠ [] := by
      rwa [List.append_assoc, ← (r.readSlice_spec delim).after.rest]
    rw [hup, hafter, ← List.append_assoc]
    exact ih hmore
  | case3 buf r hshort hfull => exact d.complete_spec hfull h

/-- A delimited frame is what stands before the delimiter. -/
theorem Decoder.delimited_spec (d : Decoder) (delim : UInt8) (pre : Bytes) (r : Reader)
    (h : pre ++ r.rest ≠ []) :
    (d.delimited delim pre r).1 = d.limit (pre ++ upTo delim r.rest) ∧
      (d.delimited delim pre r).2.rest = afterDelim delim r.rest := by
  unfold Decoder.delimited
  split
  · exact d.collect_spec delim pre r h
  · rename_i hpre
    rw [not_not.mp hpre, List.nil_append] at h ⊢
    split
    · rename_i hfull
      obtain ⟨hup, hafter, -⟩ := (r.readSlice_spec delim).of_full hfull
      rw [hup, hafter]
      apply d.collect_spec
      rwa [← (r.readSlice_spec delim).after.rest]
    · rename_i hfull
      exact d.complete_spec hfull (show [] ++ r.rest ≠ [] from h)

/-! ## The decoder reads on -/

theorem skipUntil_onward (delim : UInt8) (r : Reader) : Onward r (skipUntil delim r) := by
  fun_induction skipUntil delim r with
  | case1 r hfull ih => exact (r.readSlice_spec delim).after.onward.trans ih
  | case2 r hfull => exact (r.readSlice_spec delim).after.onward

theorem Decoder.collect_onward (d : Decoder) (delim : UInt8) (buf : Bytes) (r : Reader) :
    Onward r (d.collect delim buf r).2 := by
  fun_induction Decoder.collect d delim buf r with
  | case1 buf r hlong => exact skipUntil_onward delim r
  | case2 buf r hshort hfull ih => exact (r.readSlice_spec delim).after.onward.trans ih
  | case3 buf r hshort hfull => exact (r.readSlice_spec delim).after.onward

theorem Decoder.delimited_onward (d : Decoder) (delim : UInt8) (pre : Bytes) (r : Reader) :
    Onward r (d.delimited delim pre r).2 := by
  unfold Decoder.delimited
  split
  · exact d.collect_onward delim pre r
  · split
    · exact (r.readSlice_spec delim).after.onward.trans (d.collect_onward _ _ _)
    · exact (r.readSlice_spec delim).after.onward

theorem Decoder.octet_onward (d : Decoder) (length : Nat) (r : Reader) :
    Onward r (d.octet length r).2 := by
  have hread := (r.readFull_taken (min length d.max)).after.onward
  simp only [Decoder.octet]
  split
  · exact hread
  · split
    · obtain ⟨b, hb⟩ := (r.readFull (min length d.max)).2.discard_taken (length - min length d.max)
      exact hread.trans hb.after.onward
    · exact hread

theorem Decoder.endLength_onward (d : Decoder) (digits : Bytes) (length : Nat) (c : UInt8)
    (r : Reader) : Onward r (d.endLength digits length c r).2 := by
  unfold Decoder.endLength
  split
  · exact d.octet_onward length r
  · split
    · exact Onward.refl r
    · split
      · exact Onward.refl r
      · exact d.delimited_onward _ _ _

theorem Decoder.readLength_onward (d : Decoder) (room : Nat) (digits : Bytes) (length : Nat)
    (r : Reader) : Onward r (d.readLength room digits length r).2 := by
  induction room generalizing digits length r with
  | zero =>
    unfold Decoder.readLength
    split
    · split <;> exact (r.peek_after 1).onward
    · rename_i hread
      exact (Reader.readByte_some hread).onward.trans (d.endLength_onward _ _ _ _)
  | succ room ih =>
    unfold Decoder.readLength
    split
    · split <;> exact (r.peek_after 1).onward
    · rename_i hread
      dsimp only
      split
      · exact (Reader.readByte_some hread).onward.trans (ih _ _ _)
      · exact (Reader.readByte_some hread).onward.trans (d.endLength_onward _ _ _ _)

theorem skipDelimiters_onward (r : Reader) : Onward r (skipDelimiters r).1 := by
  fun_induction skipDelimiters r with
  | case1 r hread => exact (r.peek_after 1).onward
  | case2 r c r' hread hc ih => exact (Reader.readByte_some hread).onward.trans ih
  | case3 r c r' hread hc => exact (r.peek_after 1).onward

theorem Decoder.frame_onward (d : Decoder) (r : Reader) (c : Option UInt8) : Onward r (d.frame r c).2 := by
  unfold Decoder.frame
  split
  · exact Onward.refl r
  · split
    · exact d.delimited_onward _ _ _
    · exact d.delimited_onward _ _ _
    · split
      · split
        · exact Onward.refl r
        · exact d.delimited_onward _ _ _
      · exact (r.drop_after 1).onward.trans (d.readLength_onward _ _ _ _)

theorem Decoder.next_onward (d : Decoder) : Onward d.reader d.next.2.reader :=
  (skipDelimiters_onward d.reader).trans (d.frame_onward _ _)

/-! ## The first byte of a frame -/

/-- The byte that is read is the one that is looked at. -/
theorem peek_of_readByte {r r' : Reader} {c : UInt8} (h : r.readByte = some (c, r')) :
    (r.peek 1).buffered.head? = some c := by
  unfold Reader.readByte at h
  split at h
  · cases h
  · rename_i hbuffered
    cases h
    rw [hbuffered]
    rfl

theorem trimmed_eq_self {b : Bytes} {c : UInt8}
    (hc : c ≠ cr ∧ c ≠ newline ∧ c ≠ 0) : trimmed (b ++ [c]) = b ++ [c] := by
  rw [trimmed, List.rdropWhile_concat_neg]
  simp [hc]

/-- The delimiter that ends a frame without a length. -/
def Mode.delim : Mode → UInt8
  | .nul => 0
  | _ => newline

/-! ## Lengths -/

/-- The number that digits stand for, after those read before. -/
def digitsValue (n : Nat) (ds : Bytes) : Nat := ds.foldl (fun n c => n * 10 + (c.toNat - 48)) n

/-- A number as a length prefix writes it. -/
def decimal (n : Nat) : Bytes := ((Nat.digits 10 n).map fun d => UInt8.ofNat (48 + d)).reverse

theorem decimal_length_le {n k : Nat} (h : n < 10 ^ k) : (decimal n).length ≤ k := by
  rw [decimal, List.length_reverse, List.length_map]
  exact (Nat.digits_length_le_iff (by omega) n).mpr h

theorem decimal_mem {n : Nat} {c : UInt8} (h : c ∈ decimal n) :
    ∃ d < 10, d ∈ Nat.digits 10 n ∧ c = UInt8.ofNat (48 + d) := by
  obtain ⟨d, hd, rfl⟩ := List.mem_map.mp (List.mem_reverse.mp h)
  exact ⟨d, Nat.digits_lt_base (by omega) hd, hd, rfl⟩

theorem isDigit_ofNat {d : Nat} (h : d < 10) : isDigit (UInt8.ofNat (48 + d)) = true := by
  interval_cases d <;> rfl

theorem toNat_ofNat {d : Nat} (h : d < 10) : (UInt8.ofNat (48 + d)).toNat - 48 = d := by
  interval_cases d <;> rfl

theorem digitsValue_decimal (n : Nat) : digitsValue 0 (decimal n) = n := by
  have hdigits : ∀ ds : List Nat, (∀ d ∈ ds, d < 10) →
      (ds.map fun d => UInt8.ofNat (48 + d)).foldr (fun c n => n * 10 + (c.toNat - 48)) 0 =
        Nat.ofDigits 10 ds := by
    intro ds hds
    induction ds with
    | nil => rfl
    | cons d ds ih =>
      rw [List.map_cons, List.foldr_cons, ih fun d' hd' => hds d' (List.mem_cons_of_mem d hd'),
        toNat_ofNat (hds d (by simp)), Nat.ofDigits_cons]
      ring
  rw [digitsValue, decimal, List.foldl_reverse,
    hdigits _ fun d hd => Nat.digits_lt_base (by omega) hd, Nat.ofDigits_digits]

/-- The first digit of a positive number is not zero. -/
theorem decimal_head {n : Nat} (h : 0 < n) :
    ∃ c ds, decimal n = c :: ds ∧ 49 ≤ c ∧ c ≤ 57 := by
  have hne : Nat.digits 10 n ≠ [] := Nat.digits_ne_nil_iff_ne_zero.mpr h.ne'
  have hlast := Nat.getLast_digit_ne_zero 10 h.ne'
  have hlt := Nat.digits_lt_base (b := 10) (by omega) (List.getLast_mem hne)
  refine ⟨UInt8.ofNat (48 + (Nat.digits 10 n).getLast hne),
    ((Nat.digits 10 n).dropLast.map fun d => UInt8.ofNat (48 + d)).reverse, ?_, ?_⟩
  · rw [decimal]
    conv_lhs => rw [← List.dropLast_append_getLast hne]
    simp
  · generalize (Nat.digits 10 n).getLast hne = d at hlast hlt
    interval_cases d
    · exact absurd rfl hlast
    all_goals decide

end Syslogc.Framing
