-- SUMMARY: A whole stream as its frames, and the decoder's agreement.
import Syslogc.Framing.Frames
import Syslogc.Lib.Bytes

/-!
# Streams

`framesOf` splits a byte string into frames directly. The decoder returns the same frames
and ends with the same error, however the bytes are split into reads.
-/

namespace Syslogc.Framing

open Bufio

/-! ## Frames of a byte string -/

/-- A message and whether it was cut. -/
abbrev Message := Bytes × Bool

def cutAt (max : Nat) (b : Bytes) : Message := (trimmed (b.take max), max < b.length)

/-- The digits that a byte string begins with, if they can be a length: the first is not
zero, and there are not too many. -/
def lengthDigits (s : Bytes) : Option Bytes :=
  let ds := s.takeWhile isDigit
  if ds.head?.any (· ≠ 48) && ds.length ≤ maxLengthDigits then some ds else none

/-- One to ten digits, of which the first is not zero. -/
structure IsLength (ds : Bytes) : Prop where
  digits : ∀ c ∈ ds, isDigit c = true
  positive : ds.head?.any (· ≠ 48) = true
  short : ds.length ≤ maxLengthDigits

variable {ds : Bytes}

theorem IsLength.ne_nil (h : IsLength ds) : ds ≠ [] := by
  rintro rfl
  cases h.positive

variable {s : Bytes}

theorem lengthDigits_eq_some (h : lengthDigits s = some ds) :
    IsLength ds ∧ s = ds ++ s.drop ds.length := by
  obtain ⟨hlength, ⟨⟩⟩ := Option.ite_none_right_eq_some.mp h
  obtain ⟨hhead, hshort⟩ := Bool.and_eq_true_iff.mp hlength
  exact ⟨⟨fun c hc => List.mem_takeWhile_imp hc, hhead, of_decide_eq_true hshort⟩,
    (List.prefix_iff_eq_append.mp (s.takeWhile_prefix isDigit)).symm⟩

/-- The next `n` bytes as a message. -/
def counted (max n : Nat) (body : Bytes) : Except Error (Message × Bytes) :=
  if body.length < min n max then .error (.failure .eof)
  else .ok ((trimmed (body.take (min n max)), max < n), body.drop n)

/-- What stands before the delimiter as a message. -/
def line (mode : Mode) (max : Nat) (s : Bytes) : Except Error (Message × Bytes) :=
  .ok (cutAt max (upTo mode.delim s), afterDelim mode.delim s)

/-- Without a length there is a line, unless every frame has to have a length. -/
def uncounted (mode : Mode) (max : Nat) (s : Bytes) : Except Error (Message × Bytes) :=
  if mode = .octetCounting then .error .invalidFrame else line mode max s

/-- The first message of a byte string that begins with no delimiter, and what follows. -/
def firstFrame (mode : Mode) (max : Nat) (s : Bytes) : Except Error (Message × Bytes) :=
  if mode = .lf ∨ mode = .nul then line mode max s
  else
    match lengthDigits s with
    | none => uncounted mode max s
    | some ds =>
      match s.drop ds.length with
      -- the end of the stream does not tell a length from text
      | [] => line mode max s
      | c :: body => if c = space then counted max (digitsValue 0 ds) body else uncounted mode max s

variable {max : Nat} {rest : Bytes}

theorem counted_rest {n : Nat} {body : Bytes} {m : Message}
    (h : counted max n body = .ok (m, rest)) : rest.length ≤ body.length := by
  unfold counted at h
  split at h
  · cases h
  · cases h
    simp

variable {mode : Mode} {c : UInt8}

theorem line_rest {m : Message}
    (h : line mode max (c :: s) = .ok (m, rest)) : rest.length < (c :: s).length := by
  cases h
  simp only [afterDelim, List.length_drop, List.length_cons]
  omega

theorem uncounted_rest {m : Message}
    (h : uncounted mode max (c :: s) = .ok (m, rest)) : rest.length < (c :: s).length := by
  unfold uncounted at h
  split at h
  · cases h
  · exact line_rest h

theorem firstFrame_rest {m : Message}
    (h : firstFrame mode max (c :: s) = .ok (m, rest)) : rest.length < (c :: s).length := by
  unfold firstFrame at h
  split at h
  · exact line_rest h
  · split at h
    · exact uncounted_rest h
    · rename_i ds _
      split at h
      · exact line_rest h
      · rename_i b body hdrop
        split at h
        · have hlength := congrArg List.length hdrop
          simp only [List.length_drop, List.length_cons] at hlength ⊢
          have := counted_rest h
          omega
        · exact uncounted_rest h

/-- The first frame of a byte string, or its end. -/
def nextFrame (mode : Mode) (max : Nat) (s : Bytes) : Except Error (Message × Bytes) :=
  match s.dropWhile isDelimiter with
  | [] => .error (.failure .eof)
  | c :: t => firstFrame mode max (c :: t)

theorem nextFrame_rest {m : Message}
    (h : nextFrame mode max s = .ok (m, rest)) : rest.length < s.length := by
  have hle : (s.dropWhile isDelimiter).length ≤ s.length := (List.dropWhile_sublist _).length_le
  unfold nextFrame at h
  split at h
  · cases h
  · rename_i hs
    rw [hs] at hle
    exact (firstFrame_rest h).trans_le hle

theorem trimmed_take_length_le {n : Nat} (h : n ≤ max) (b : Bytes) : (trimmed (b.take n)).length ≤ max := by
  refine ((List.rdropWhile_prefix _ _).length_le.trans ?_).trans h
  rw [List.length_take]
  exact Nat.min_le_left _ _

theorem nextFrame_length {p : Message × Bytes}
    (h : nextFrame mode max s = .ok p) : p.1.1.length ≤ max := by
  have hline {c : UInt8} {t : Bytes} (h : line mode max (c :: t) = .ok p) : p.1.1.length ≤ max := by
    cases h
    exact trimmed_take_length_le le_rfl _
  have huncounted {c : UInt8} {t : Bytes} (h : uncounted mode max (c :: t) = .ok p) : p.1.1.length ≤ max := by
    unfold uncounted at h
    split at h
    · cases h
    · exact hline h
  unfold nextFrame at h
  split at h
  · cases h
  · unfold firstFrame at h
    split at h
    · exact hline h
    · split at h
      · exact huncounted h
      · split at h
        · exact hline h
        · split at h
          · unfold counted at h
            split at h
            · cases h
            · cases h
              exact trimmed_take_length_le (Nat.min_le_right _ _) _
          · exact huncounted h

/-- All messages of a byte string, and the error that ends them. -/
def framesOf (mode : Mode) (max : Nat) (s : Bytes) : List Message × Error :=
  match _h : nextFrame mode max s with
  | .error e => ([], e)
  | .ok (m, rest) =>
    let (ms, e) := framesOf mode max rest
    (m :: ms, e)
termination_by s.length
decreasing_by exact nextFrame_rest _h

theorem framesOf_of_error {e : Error}
    (h : nextFrame mode max s = .error e) : framesOf mode max s = ([], e) := by
  rw [framesOf]
  split
  · rename_i h'
    cases h'.symm.trans h
    rfl
  · rename_i h'
    cases h'.symm.trans h

theorem framesOf_of_ok {m : Message}
    (h : nextFrame mode max s = .ok (m, rest)) :
    framesOf mode max s = (m :: (framesOf mode max rest).1, (framesOf mode max rest).2) := by
  rw [framesOf]
  split
  · rename_i h'
    cases h'.symm.trans h
  · rename_i h'
    cases h'.symm.trans h
    rfl

/-- The messages a decoder returns until an error, which is the last it returns; `none`
where the given number of calls does not reach it. -/
def Decoder.decode : Nat → Decoder → Option (List Message × Error)
  | 0, _ => none
  | n + 1, d =>
    let (f, d') := d.next
    match f.err with
    | some e => some ([], e)
    | none => (decode n d').map fun (ms, e) => ((f.msg, f.truncated) :: ms, e)

/-! ## The decoder reads on -/

/-- What a call returned is what the bytes say, and the reader stands behind it; `failure` is
what the stream ends with. -/
def Agrees (failure : Failure) (result : Except Error (Message × Bytes)) (p : Frame × Reader) : Prop :=
  match result with
  | .error e => p.1.msg = [] ∧ p.1.err.isSome ∧ (failure = .eof → p.1.err = some e)
  | .ok (m, rest) => p.1 = { msg := m.1, truncated := m.2 } ∧ p.2.rest = rest ∧ p.2.failure = failure

theorem Decoder.limit_eq (d : Decoder) (b : Bytes) :
    d.limit b = { msg := (cutAt d.max b).1, truncated := (cutAt d.max b).2 } := by
  unfold Decoder.limit cutAt
  split
  · simp [*]
  · rename_i hle
    simp [hle, List.take_of_length_le (not_lt.mp hle)]

/-- A line, of which some bytes that hold no delimiter were read before. -/
theorem Decoder.delimited_agrees (d : Decoder) {pre : Bytes} {r : Reader} (hpre : d.mode.delim ∉ pre)
    (h : pre ++ r.rest ≠ []) :
    Agrees r.failure (line d.mode d.max (pre ++ r.rest)) (d.delimited d.mode.delim pre r) := by
  obtain ⟨hframe, hrest⟩ := d.delimited_spec d.mode.delim pre r h
  refine ⟨?_, ?_, (d.delimited_onward _ pre r).failure⟩
  · rw [hframe, d.limit_eq, upTo_append hpre]
  · rw [hrest, afterDelim_append hpre]

theorem Decoder.octet_agrees (d : Decoder) {n : Nat} {r : Reader} :
    Agrees r.failure (counted d.max n r.rest) (d.octet n r) := by
  have htaken := r.readFull_taken (min n d.max)
  obtain ⟨hread, hrest⟩ := htaken.eq_take
  simp only [counted, Decoder.octet, hread]
  have hlength : (r.rest.take (min n d.max)).length < min n d.max ↔ r.rest.length < min n d.max := by
    rw [List.length_take]
    omega
  simp only [hlength]
  split
  · exact ⟨rfl, rfl, congrArg (fun f => some (Error.failure f))⟩
  · split
    · rename_i hlong
      obtain ⟨b, hb⟩ := (r.readFull (min n d.max)).2.discard_taken (n - min n d.max)
      refine ⟨by simp [hlong], ?_, hb.after.failure.trans htaken.after.failure⟩
      rw [hb.eq_take.2, hrest, List.drop_drop]
      congr 1
      omega
    · rename_i hshort
      refine ⟨by simp [hshort], ?_, htaken.after.failure⟩
      rw [hrest, Nat.min_eq_left (not_lt.mp hshort)]

/-- How the search for the end of a length ended: at the end of the stream, or with a
byte that does not continue the digits. -/
structure LengthRead (d : Decoder) (room : Nat) (digits : Bytes) (length : Nat) (r : Reader)
    (ds t : Bytes) (r' : Reader) : Prop where
  rest : r.rest = ds ++ t
  all_digits : ∀ c ∈ ds, isDigit c = true
  fits : ds.length ≤ room
  failure : r'.failure = r.failure
  left : r'.rest = t.tail
  ended : t = [] → d.readLength room digits length r =
    (if r.failure = .eof then d.limit (digits ++ ds) else { err := some (.failure r.failure) }, r')
  stopped : ∀ c t', t = c :: t' → (ds.length = room ∨ isDigit c = false) ∧
    d.readLength room digits length r = d.endLength (digits ++ ds) (digitsValue length ds) c r'

theorem Decoder.readLength_read (d : Decoder) (room : Nat) (digits : Bytes) (length : Nat) (r : Reader) :
    ∃ ds t r', LengthRead d room digits length r ds t r' := by
  -- the stream ends here, or with a byte that does not continue the digits
  have hnone (room : Nat) (digits : Bytes) (length : Nat) {r : Reader} (hread : r.readByte = none) :
      ∃ ds t r', LengthRead d room digits length r ds t r' := by
    have hrest := Reader.readByte_none hread
    have hpeek := r.peek_after 1
    refine ⟨[], [], r.peek 1, hrest, by simp, Nat.zero_le _, hpeek.failure, hpeek.rest.symm.trans hrest,
      fun _ => ?_, by simp⟩
    rw [Decoder.readLength, hread, List.append_nil]
    dsimp only
    split <;> rfl
  have hstop {room : Nat} (digits : Bytes) (length : Nat) {r r' : Reader} {c : UInt8}
      (hread : r.readByte = some (c, r'))
      (hc : room = 0 ∨ isDigit c = false)
      (hend : d.readLength room digits length r = d.endLength digits length c r') :
      ∃ ds t r', LengthRead d room digits length r ds t r' := by
    have hafter := Reader.readByte_some hread
    refine ⟨[], c :: r'.rest, r', hafter.rest, by simp, Nat.zero_le _, hafter.failure, rfl, by simp, ?_⟩
    rintro c' t' ⟨⟩
    rw [hend, List.append_nil]
    exact ⟨hc.imp_left Eq.symm, rfl⟩
  induction room generalizing digits length r with
  | zero =>
    cases hread : r.readByte with
    | none => exact hnone _ _ _ hread
    | some p => exact hstop _ _ hread (.inl rfl) (by rw [Decoder.readLength, hread])
  | succ room ih =>
    cases hread : r.readByte with
    | none => exact hnone _ _ _ hread
    | some p =>
      obtain ⟨c, r'⟩ := p
      have hafter := Reader.readByte_some hread
      cases hc : isDigit c with
      | true =>
        have hstep : d.readLength (room + 1) digits length r =
            d.readLength room (digits ++ [c]) (length * 10 + (c.toNat - 48)) r' := by
          rw [Decoder.readLength, hread]
          simp [hc]
        obtain ⟨ds, t, r'', h⟩ := ih (digits ++ [c]) (length * 10 + (c.toNat - 48)) r'
        refine ⟨c :: ds, t, r'', ?_, ?_, ?_, h.failure.trans hafter.failure, h.left, fun ht => ?_, fun b t' ht => ?_⟩
        · rw [hafter.rest, h.rest]
          rfl
        · exact List.forall_mem_cons.mpr ⟨hc, h.all_digits⟩
        · exact Nat.succ_le_succ h.fits
        · rw [hstep, h.ended ht, hafter.failure, List.append_assoc]
          rfl
        · obtain ⟨hstop, hlength⟩ := h.stopped b t' ht
          refine ⟨hstop.imp_left (congrArg Nat.succ), ?_⟩
          rw [hstep, hlength, List.append_assoc]
          rfl
      | false => exact hstop _ _ hread (.inr hc) (by rw [Decoder.readLength, hread]; simp [hc])

/-- A first byte from 1 to 9. -/
def startsLength (c : UInt8) : Bool := !(c < 49 || 57 < c)

theorem if_startsLength {α : Type} (c : UInt8) (p q : α) :
    (if c < 49 || 57 < c then p else q) = if startsLength c then q else p := by
  unfold startsLength
  cases (decide (c < 49) || decide (57 < c)) <;> rfl

theorem startsLength_eq (c : UInt8) : startsLength c = (isDigit c && c ≠ 48) := by
  have hall : ∀ n : Fin 256, startsLength (.ofBitVec (.ofFin n)) =
      (isDigit (.ofBitVec (.ofFin n)) && (.ofBitVec (.ofFin n) : UInt8) ≠ 48) := by decide +kernel
  exact hall c.toBitVec.toFin

theorem lengthDigits_of_not_starts (h : startsLength c = false) (t : Bytes) :
    lengthDigits (c :: t) = none := by
  rw [startsLength_eq] at h
  simp only [lengthDigits, List.takeWhile_cons]
  cases hc : isDigit c with
  | false => simp
  | true => simp_all

theorem takeWhile_digits (hds : ∀ c ∈ ds, isDigit c = true) (t : Bytes) :
    (ds ++ t).takeWhile isDigit = ds ++ t.takeWhile isDigit :=
  List.takeWhile_append_of_pos hds

/-- Digits are a length if there is room for them and no other digit follows. -/
theorem lengthDigits_append (hc : startsLength c = true) {t : Bytes}
    (hds : ∀ c ∈ ds, isDigit c = true) :
    lengthDigits (c :: (ds ++ t)) =
      if (c :: (ds ++ t.takeWhile isDigit)).length ≤ maxLengthDigits then some (c :: (ds ++ t.takeWhile isDigit))
      else none := by
  rw [startsLength_eq] at hc
  obtain ⟨hdigit, hzero⟩ := Bool.and_eq_true_iff.mp hc
  simp only [lengthDigits, List.takeWhile_cons, hdigit, if_true, takeWhile_digits hds]
  simp_all

theorem newline_notMem (hds : ∀ c ∈ ds, isDigit c = true) : newline ∉ ds :=
  fun h => absurd (hds newline h) (by decide)

theorem Mode.delim_eq (h : ¬ (mode = .lf ∨ mode = .nul)) : mode.delim = newline := by
  cases mode with
  | nul => exact absurd (.inr rfl) h
  | _ => rfl

theorem Decoder.endLength_agrees (d : Decoder) (hmode : ¬ (d.mode = .lf ∨ d.mode = .nul))
    (hds : ∀ c ∈ ds, isDigit c = true) {r : Reader} (n : Nat) :
    Agrees r.failure (if c = space then counted d.max n r.rest else uncounted d.mode d.max (ds ++ c :: r.rest))
      (d.endLength ds n c r) := by
  have hdelim := Mode.delim_eq hmode
  unfold Decoder.endLength uncounted
  split
  · exact d.octet_agrees
  · split
    · exact ⟨rfl, rfl, fun _ => rfl⟩
    · split
      · rename_i hnewline
        refine ⟨?_, ?_, rfl⟩
        · rw [d.limit_eq, hdelim, hnewline, upTo_append (newline_notMem hds)]
          simp
        · rw [hdelim, hnewline, afterDelim_append (newline_notMem hds)]
          simp
      · rename_i hnewline
        have hpre : newline ∉ ds ++ [c] := by
          rw [List.mem_append, List.mem_singleton, not_or]
          exact ⟨newline_notMem hds, fun h => hnewline h.symm⟩
        have hline := d.delimited_agrees (r := r) (hdelim ▸ hpre) (by simp)
        rw [List.append_assoc, hdelim] at hline
        exact hline

/-- What is left without the delimiters in front, and its first byte, which is buffered. -/
theorem skipDelimiters_spec (r : Reader) :
    (skipDelimiters r).1.rest = r.rest.dropWhile isDelimiter ∧
      (skipDelimiters r).1.failure = r.failure ∧
      (skipDelimiters r).2 = (r.rest.dropWhile isDelimiter).head? ∧
      ∀ c, (skipDelimiters r).2 = some c → (skipDelimiters r).1.buffered.head? = some c := by
  fun_induction skipDelimiters r with
  | case1 r hread =>
    have hpeek := r.peek_after 1
    have hrest := Reader.readByte_none hread
    refine ⟨?_, hpeek.failure, by simp [hrest], by simp⟩
    rw [hrest]
    exact hpeek.rest.symm.trans hrest
  | case2 r c r' hread hc ih =>
    have hafter := Reader.readByte_some hread
    have hdrop : r.rest.dropWhile isDelimiter = r'.rest.dropWhile isDelimiter := by
      rw [hafter.rest]
      simp [hc]
    rw [hdrop, ← hafter.failure]
    exact ih
  | case3 r c r' hread hc =>
    have hrest := (Reader.readByte_some hread).rest
    have hnot : isDelimiter c = false := by simpa using hc
    have hafter := r.peek_after 1
    have hdrop : r.rest.dropWhile isDelimiter = r.rest := by
      rw [hrest]
      simp [hnot]
    rw [hdrop]
    refine ⟨hafter.rest.symm, hafter.failure, by rw [hrest]; rfl, ?_⟩
    rintro c' ⟨⟩
    exact peek_of_readByte hread

theorem isLength_cons (hc : startsLength c = true)
    (hds : ∀ c ∈ ds, isDigit c = true) (hroom : ds.length ≤ maxLengthDigits - 1) : IsLength (c :: ds) := by
  rw [startsLength_eq] at hc
  obtain ⟨hdigit, hzero⟩ := Bool.and_eq_true_iff.mp hc
  exact ⟨List.forall_mem_cons.mpr ⟨hdigit, hds⟩, hzero, Nat.succ_le_succ hroom⟩

/-- A stream that fails inside a length. -/
def Broken (mode : Mode) (failure : Failure) (s : Bytes) : Prop :=
  ¬ (mode = .lf ∨ mode = .nul) ∧ failure ≠ .eof ∧ IsLength s

/-- An error is returned if the stream is broken here, and what the bytes say otherwise. -/
structure Returns (mode : Mode) (failure : Failure) (s : Bytes) (result : Except Error (Message × Bytes))
    (p : Frame × Reader) : Prop where
  broken : Broken mode failure s → p.1.msg = [] ∧ p.1.err.isSome
  agrees : ¬ Broken mode failure s → Agrees failure result p

theorem Agrees.returns {failure : Failure} {result : Except Error (Message × Bytes)}
    {p : Frame × Reader} (h : Agrees failure result p) (hnot : ¬ Broken mode failure s) :
    Returns mode failure s result p :=
  ⟨fun hbroken => absurd hbroken hnot, fun _ => h⟩

/-- With a byte that may start a length the digits decide. -/
theorem Decoder.readLength_returns (d : Decoder) (hmode : ¬ (d.mode = .lf ∨ d.mode = .nul))
    (hc : startsLength c = true) {r : Reader} :
    Returns d.mode r.failure (c :: r.rest) (firstFrame d.mode d.max (c :: r.rest))
      (d.readLength (maxLengthDigits - 1) [c] (c.toNat - 48) r) := by
  obtain ⟨ds, t, r', h⟩ := d.readLength_read (maxLengthDigits - 1) [c] (c.toNat - 48) r
  have hdelim := Mode.delim_eq hmode
  have hcds : ∀ b ∈ c :: ds, isDigit b = true := by
    rw [startsLength_eq] at hc
    exact List.forall_mem_cons.mpr ⟨(Bool.and_eq_true_iff.mp hc).1, h.all_digits⟩
  have hvalue : digitsValue 0 (c :: ds) = digitsValue (c.toNat - 48) ds := by simp [digitsValue]
  have hfits : (c :: ds).length ≤ maxLengthDigits := Nat.succ_le_succ h.fits
  have hlength := lengthDigits_append hc h.all_digits (t := t)
  rw [h.rest, firstFrame, if_neg hmode]
  cases t with
  | nil =>
    rw [h.ended rfl]
    refine ⟨fun hbroken => by simp [hbroken.2.1], fun hnot => ?_⟩
    have heof : r.failure = .eof := by
      by_contra hother
      exact hnot ⟨hmode, hother, by simpa using isLength_cons hc h.all_digits h.fits⟩
    rw [if_pos heof]
    simp only [List.takeWhile_nil, List.append_nil, hfits, if_true] at hlength ⊢
    simp only [hlength, List.drop_length]
    have hnewline := newline_notMem hcds
    refine ⟨?_, ?_, h.failure⟩
    · have hup := upTo_append hnewline []
      simp only [List.append_nil, upTo_nil] at hup
      rw [d.limit_eq, hdelim, hup]
      rfl
    · have hafter := afterDelim_append hnewline []
      simp only [List.append_nil, afterDelim_nil] at hafter
      rw [hdelim, hafter]
      exact h.left
  | cons b t =>
    obtain ⟨hstop, hread⟩ := h.stopped b t rfl
    have hend := d.endLength_agrees hmode hcds (c := b) (r := r') (digitsValue (c.toNat - 48) ds)
    rw [h.left, List.tail_cons, h.failure] at hend
    rw [hread]
    refine Agrees.returns ?_ ?_
    case refine_2 =>
      rintro ⟨_, _, hlong⟩
      obtain hfull | hb := hstop
      · have hshort := hlong.short
        simp only [List.length_cons, List.length_append, hfull] at hshort
        omega
      · cases hb.symm.trans (hlong.digits b (by simp))
    cases hb : isDigit b with
    | true =>
      have hlong : ¬ (c :: (ds ++ (b :: t).takeWhile isDigit)).length ≤ maxLengthDigits := by
        have hfull := hstop.resolve_right (by simp [hb])
        simp only [List.length_cons, List.length_append, List.takeWhile_cons, hb, if_true, hfull]
        omega
      have hspace : b ≠ space := by
        rintro rfl
        exact absurd hb (by decide)
      rw [if_neg hlong] at hlength
      rw [if_neg hspace] at hend
      simp only [hlength]
      exact hend
    | false =>
      simp only [List.takeWhile_cons, hb, Bool.false_eq_true, if_false, List.append_nil, hfits, if_true]
        at hlength
      have hdrop : (c :: (ds ++ b :: t)).drop (c :: ds).length = b :: t := by simp
      simp only [hlength, hdrop, hvalue]
      exact hend

theorem Decoder.frame_returns (d : Decoder) {r : Reader} {t : Bytes}
    (hhead : r.buffered.head? = some c) (hrest : r.rest = c :: t) :
    Returns d.mode r.failure (c :: t) (firstFrame d.mode d.max (c :: t)) (d.frame r (some c)) := by
  have hline : Agrees r.failure (line d.mode d.max (c :: t)) (d.delimited d.mode.delim [] r) := by
    rw [← hrest]
    exact d.delimited_agrees (by simp) (by simp [hrest])
  have hafter := Reader.drop_one_after hhead
  have hdrop : (r.drop 1).rest = t := by
    have hcons := hafter.rest
    rw [hrest] at hcons
    exact (List.cons.inj hcons).2.symm
  have hcounted : ¬ (d.mode = .lf ∨ d.mode = .nul) →
      Returns d.mode r.failure (c :: t) (firstFrame d.mode d.max (c :: t))
        (if startsLength c then d.readLength (maxLengthDigits - 1) [c] (c.toNat - 48) (r.drop 1)
          else if d.mode = .octetCounting then ({ err := some .invalidFrame }, r)
          else d.delimited d.mode.delim [] r) := by
    intro hmode
    cases hc : startsLength c with
    | true =>
      rw [← hdrop, ← hafter.failure]
      exact d.readLength_returns hmode hc
    | false =>
      refine Agrees.returns ?_ fun ⟨_, _, hlength⟩ => ?_
      · simp only [firstFrame, if_neg hmode, lengthDigits_of_not_starts hc, uncounted, Bool.false_eq_true, if_false]
        split
        · exact ⟨rfl, rfl, fun _ => rfl⟩
        · exact hline
      · have hdigit := hlength.digits c List.mem_cons_self
        have hzero := hlength.positive
        simp_all [startsLength_eq]
  simp only [Decoder.frame]
  cases hmode : d.mode with
  | lf =>
    rw [hmode] at hline
    exact Agrees.returns hline fun h => h.1 (.inl rfl)
  | nul =>
    rw [hmode] at hline
    exact Agrees.returns hline fun h => h.1 (.inr rfl)
  | auto =>
    rw [hmode] at hcounted
    dsimp only
    rw [if_startsLength]
    exact hcounted (by simp)
  | octetCounting =>
    rw [hmode] at hcounted
    dsimp only
    rw [if_startsLength]
    exact hcounted (by simp)

/-! ## The decoder returns the frames of the stream -/

/-- A call of `Next` returns the first frame of what is left, or the end of it. -/
theorem Decoder.next_returns (d : Decoder) :
    Returns d.mode d.reader.failure (d.reader.rest.dropWhile isDelimiter) (nextFrame d.mode d.max d.reader.rest)
      (d.next.1, d.next.2.reader) := by
  obtain ⟨hrest, hfailure, hnext, hhead⟩ := skipDelimiters_spec d.reader
  simp only [Decoder.next, nextFrame]
  cases hs : d.reader.rest.dropWhile isDelimiter with
  | nil =>
    rw [hs] at hnext
    rw [hnext]
    refine Agrees.returns ⟨rfl, rfl, fun heof => ?_⟩ fun h => absurd rfl h.2.2.ne_nil
    exact congrArg (fun f => some (Error.failure f)) (hfailure.trans heof)
  | cons c t =>
    rw [hs] at hnext hrest
    rw [hnext, ← hfailure]
    exact d.frame_returns (hhead c hnext) hrest

theorem Decoder.next_agrees (d : Decoder) (heof : d.reader.failure = .eof) :
    Agrees .eof (nextFrame d.mode d.max d.reader.rest) (d.next.1, d.next.2.reader) :=
  heof ▸ d.next_returns.agrees fun h => h.2.1 heof

/-- A message is the first frame of what is left. -/
theorem Decoder.next_ok (d : Decoder) (h : d.next.1.err = none) :
    ¬ Broken d.mode d.reader.failure (d.reader.rest.dropWhile isDelimiter) ∧
      nextFrame d.mode d.max d.reader.rest = .ok ((d.next.1.msg, d.next.1.truncated), d.next.2.reader.rest) ∧
      d.next.2.reader.failure = d.reader.failure := by
  have hnot : ¬ Broken d.mode d.reader.failure (d.reader.rest.dropWhile isDelimiter) := fun hbroken => by
    simpa [h] using (d.next_returns.broken hbroken).2
  refine ⟨hnot, ?_⟩
  have hagrees := d.next_returns.agrees hnot
  cases hframe : nextFrame d.mode d.max d.reader.rest with
  | error e =>
    rw [hframe] at hagrees
    simpa [h] using hagrees.2.1
  | ok p =>
    obtain ⟨m, rest⟩ := p
    rw [hframe] at hagrees
    obtain ⟨hnext, rfl, hfailure⟩ := hagrees
    exact ⟨by simp_all, hfailure⟩

/-- No message is longer than the maximum. -/
theorem Decoder.next_length (d : Decoder) : d.next.1.msg.length ≤ d.max := by
  by_cases hbroken : Broken d.mode d.reader.failure (d.reader.rest.dropWhile isDelimiter)
  · have hnil : d.next.1.msg = [] := (d.next_returns.broken hbroken).1
    simp [hnil]
  · have hagrees := d.next_returns.agrees hbroken
    cases hframe : nextFrame d.mode d.max d.reader.rest with
    | error e =>
      rw [hframe] at hagrees
      have hnil : d.next.1.msg = [] := hagrees.1
      simp [hnil]
    | ok p =>
      rw [hframe] at hagrees
      rw [show d.next.1.msg = p.1.1 from congrArg Frame.msg hagrees.1]
      exact nextFrame_length hframe

/-- Enough calls return the frames of the bytes that are left. -/
theorem Decoder.decode_eq (d : Decoder) (heof : d.reader.failure = .eof) {n : Nat}
    (hn : d.reader.rest.length < n) : d.decode n = some (framesOf d.mode d.max d.reader.rest) := by
  induction n generalizing d with
  | zero => cases hn
  | succ n ih =>
    have hagrees := d.next_agrees heof
    simp only [Decoder.decode]
    cases hframe : nextFrame d.mode d.max d.reader.rest with
    | error e =>
      rw [hframe] at hagrees
      have herr : d.next.1.err = some e := hagrees.2.2 rfl
      rw [herr, framesOf_of_error hframe]
    | ok p =>
      obtain ⟨m, rest⟩ := p
      rw [hframe] at hagrees
      obtain ⟨hnext, hrest, heof'⟩ := hagrees
      have hlt := nextFrame_rest hframe
      have hih := ih d.next.2 heof' (by
        dsimp only at hrest
        rw [hrest]
        omega)
      dsimp only at hrest hnext
      rw [hnext, hih, framesOf_of_ok hframe, hrest]
      rfl

/-- The decoder of a stream that ends returns the frames of its bytes, whatever reads they
arrive in. -/
theorem decode_newDecoder (mode : Mode) (max : Nat) (s : Bytes) (n : Nat) (hn : s.length < n) :
    ∀ reads : List Bytes, reads.flatten = s →
      (newDecoder (Reader.new · reads .eof) mode max).decode n = some (framesOf mode max s) := by
  rintro reads rfl
  exact (newDecoder (Reader.new · reads .eof) mode max).decode_eq rfl hn

/-- A counted message of four bytes, cut at three, and a line, in two reads. -/
theorem decode_newDecoder_two_reads :
    (newDecoder (Reader.new · [utf8 "4 ab", utf8 "cd\nhi\n"] .eof) .auto 3).decode 20 =
      some (framesOf .auto 3 (utf8 "4 abcd\nhi\n")) :=
  decode_newDecoder .auto 3 (utf8 "4 abcd\nhi\n") 20 (by decide) _ (by decide)

end Syslogc.Framing
