-- SUMMARY: The buffer that the decoder keeps, and how much it holds.
import Syslogc.Framing.Stream

/-!
# The retained buffer

Between calls the decoder keeps a buffer in which it puts together what does not lie in the
read buffer as a whole. Here the decoder is given with that buffer, whose bytes are
counted, and it is shown to be the decoder without it. Whatever a stream announces, the
buffer never holds more than a message and a read buffer, and each message costs the
stream a byte.
-/

namespace Syslogc.Framing

open Bufio

/-! ## The decoder with its buffer -/

/-- The number of bytes in the buffer, and the largest there ever was. -/
structure Held where
  len : Nat
  peak : Nat
  held : len ≤ peak

/-- The buffer is set to some bytes. -/
def Held.set (k : Held) (n : Nat) : Held := ⟨n, max k.peak n, le_max_right _ _⟩

/-- The loop of `delimited`; `buf` is in the buffer. -/
def Decoder.collectHeld (d : Decoder) (delim : UInt8) (buf : Bytes) (r : Reader) (k : Held) :
    (Frame × Reader) × Held :=
  if d.max < buf.length then
    (({ msg := trimmed (buf.take d.max), truncated := true }, skipUntil delim r), k.set d.max)
  else
    let k := k.set (buf ++ (r.readSlice delim).1.line).length
    if (r.readSlice delim).1.stop = .full then
      d.collectHeld delim (buf ++ (r.readSlice delim).1.line) (r.readSlice delim).2 k
    else
      ((d.complete r.failure (buf ++ (r.readSlice delim).1.line) (r.readSlice delim).1.stop,
        (r.readSlice delim).2), k)
termination_by r.rest.length
decreasing_by
  rename_i _ hfull
  exact ((r.readSlice_spec delim).of_full hfull).2.2

/-- A line that is buffered by the reader leaves the buffer alone. -/
def Decoder.delimitedHeld (d : Decoder) (delim : UInt8) (pre : Bytes) (r : Reader) (k : Held) :
    (Frame × Reader) × Held :=
  if pre ≠ [] then d.collectHeld delim pre r (k.set pre.length)
  else if (r.readSlice delim).1.stop = .full then
    d.collectHeld delim (r.readSlice delim).1.line (r.readSlice delim).2
      (k.set (r.readSlice delim).1.line.length)
  else
    ((d.complete r.failure (r.readSlice delim).1.line (r.readSlice delim).1.stop,
      (r.readSlice delim).2), k)

/-- The payload is read into the buffer, which has its length before it is known that all
of it is there. -/
def Decoder.octetHeld (d : Decoder) (length : Nat) (r : Reader) (k : Held) : (Frame × Reader) × Held :=
  (d.octet length r, k.set (min length d.max))

def Decoder.endLengthHeld (d : Decoder) (digits : Bytes) (length : Nat) (c : UInt8) (r : Reader)
    (k : Held) : (Frame × Reader) × Held :=
  if c = space then d.octetHeld length r k
  else if d.mode = .octetCounting then (({ err := some .invalidFrame }, r), k)
  else if c = newline then ((d.limit digits, r), k.set digits.length)
  else d.delimitedHeld newline (digits ++ [c]) r k

def Decoder.readLengthHeld (d : Decoder) (room : Nat) (digits : Bytes) (length : Nat) (r : Reader)
    (k : Held) : (Frame × Reader) × Held :=
  match r.readByte with
  | none =>
    if r.failure = .eof then ((d.limit digits, r.peek 1), k.set digits.length)
    else (({ err := some (.failure r.failure) }, r.peek 1), k)
  | some (c, r') =>
    match room with
    | 0 => d.endLengthHeld digits length c r' k
    | room + 1 =>
      if isDigit c then d.readLengthHeld room (digits ++ [c]) (length * 10 + (c.toNat - 48)) r' k
      else d.endLengthHeld digits length c r' k

def Decoder.frameHeld (d : Decoder) (r : Reader) (k : Held) : Option UInt8 → (Frame × Reader) × Held
  | none => (({ err := some (.failure r.failure) }, r), k)
  | some c =>
    match d.mode with
    | .lf => d.delimitedHeld newline [] r k
    | .nul => d.delimitedHeld 0 [] r k
    | _ =>
      if c < 49 || 57 < c then
        if d.mode = .octetCounting then (({ err := some .invalidFrame }, r), k)
        else d.delimitedHeld newline [] r k
      else d.readLengthHeld (maxLengthDigits - 1) [c] (c.toNat - 48) (r.drop 1) k

structure HoldingDecoder extends Decoder where
  buf : Held

/-- A new decoder has no buffer. -/
def holdingDecoder (input : Nat → Reader) (mode : Mode) (max : Nat) : HoldingDecoder where
  toDecoder := newDecoder input mode max
  buf := ⟨0, 0, le_refl 0⟩

/-- `Next`. -/
def HoldingDecoder.next (d : HoldingDecoder) : Frame × HoldingDecoder :=
  let (r, c) := skipDelimiters d.reader
  let ((f, r'), k) := d.toDecoder.frameHeld r d.buf c
  (f, { mode := d.mode, max := d.max, reader := r', buf := k })

/-! ## The buffer changes nothing -/

theorem Decoder.collectHeld_fst (d : Decoder) (delim : UInt8) (buf : Bytes) (r : Reader) (k : Held) :
    (d.collectHeld delim buf r k).1 = d.collect delim buf r := by
  induction buf, r using Decoder.collect.induct d delim generalizing k with
  | case1 buf r hlong => rw [Decoder.collectHeld, Decoder.collect, if_pos hlong, if_pos hlong]
  | case2 buf r hshort hfull ih =>
    rw [Decoder.collectHeld, Decoder.collect, if_neg hshort, if_neg hshort]
    simp only [if_pos hfull]
    exact ih _
  | case3 buf r hshort hfull =>
    rw [Decoder.collectHeld, Decoder.collect, if_neg hshort, if_neg hshort]
    simp only [if_neg hfull]

theorem Decoder.delimitedHeld_fst (d : Decoder) (delim : UInt8) (pre : Bytes) (r : Reader) (k : Held) :
    (d.delimitedHeld delim pre r k).1 = d.delimited delim pre r := by
  unfold Decoder.delimitedHeld Decoder.delimited
  split
  · exact d.collectHeld_fst delim pre r _
  · split
    · exact d.collectHeld_fst delim _ _ _
    · rfl

theorem Decoder.endLengthHeld_fst (d : Decoder) (digits : Bytes) (length : Nat) (c : UInt8)
    (r : Reader) (k : Held) :
    (d.endLengthHeld digits length c r k).1 = d.endLength digits length c r := by
  unfold Decoder.endLengthHeld Decoder.endLength
  split
  · rfl
  · split
    · rfl
    · split
      · rfl
      · exact d.delimitedHeld_fst _ _ _ _

theorem Decoder.readLengthHeld_fst (d : Decoder) (room : Nat) (digits : Bytes) (length : Nat)
    (r : Reader) (k : Held) :
    (d.readLengthHeld room digits length r k).1 = d.readLength room digits length r := by
  induction room generalizing digits length r with
  | zero =>
    rw [Decoder.readLengthHeld, Decoder.readLength]
    cases r.readByte with
    | none => dsimp only; split <;> rfl
    | some p => exact d.endLengthHeld_fst _ _ _ _ _
  | succ room ih =>
    rw [Decoder.readLengthHeld, Decoder.readLength]
    cases r.readByte with
    | none => dsimp only; split <;> rfl
    | some p =>
      dsimp only
      split
      · exact ih _ _ _
      · exact d.endLengthHeld_fst _ _ _ _ _

theorem Decoder.frameHeld_fst (d : Decoder) (r : Reader) (k : Held) (c : Option UInt8) :
    (d.frameHeld r k c).1 = d.frame r c := by
  cases c with
  | none => rfl
  | some c =>
    have hlength := d.readLengthHeld_fst (maxLengthDigits - 1) [c] (c.toNat - 48) (r.drop 1) k
    cases hmode : d.mode with
    | lf =>
      simp only [Decoder.frameHeld, Decoder.frame, hmode]
      exact d.delimitedHeld_fst _ _ _ _
    | nul =>
      simp only [Decoder.frameHeld, Decoder.frame, hmode]
      exact d.delimitedHeld_fst _ _ _ _
    | auto =>
      simp only [Decoder.frameHeld, Decoder.frame, hmode, reduceCtorEq, if_false]
      split
      · exact d.delimitedHeld_fst _ _ _ _
      · exact hlength
    | octetCounting =>
      simp only [Decoder.frameHeld, Decoder.frame, hmode, if_true]
      split
      · rfl
      · exact hlength

/-- The decoder with its buffer returns what the decoder returns. -/
theorem HoldingDecoder.next_eq (d : HoldingDecoder) :
    (d.next.1, d.next.2.toDecoder) = d.toDecoder.next := by
  have hframe := d.frameHeld_fst (skipDelimiters d.reader).1 d.buf (skipDelimiters d.reader).2
  simp only [HoldingDecoder.next, Decoder.next]
  rw [← hframe]

/-! ## What the buffer holds -/

/-- What a message and a read buffer take. -/
def Decoder.bound (d : Decoder) : Nat := d.max + readBufferSize

theorem Decoder.maxLengthDigits_lt_bound (d : Decoder) : maxLengthDigits < d.bound := by
  simp only [Decoder.bound, maxLengthDigits, readBufferSize]
  omega

theorem Held.set_peak_le {k : Held} {n bound : Nat} (hk : k.peak ≤ bound) (hn : n ≤ bound) :
    (k.set n).peak ≤ bound :=
  max_le hk hn

theorem Decoder.collectHeld_peak (d : Decoder) (delim : UInt8) (buf : Bytes) (r : Reader) (k : Held)
    (hsize : r.size ≤ readBufferSize) (hk : k.peak ≤ d.bound) :
    (d.collectHeld delim buf r k).2.peak ≤ d.bound := by
  induction buf, r using Decoder.collect.induct d delim generalizing k with
  | case1 buf r hlong =>
    rw [Decoder.collectHeld, if_pos hlong]
    exact Held.set_peak_le hk (Nat.le_add_right _ _)
  | case2 buf r hshort hfull ih =>
    -- what was there fits the maximum, and the reader adds at most its own buffer
    have hline := r.readSlice_length_le delim
    have hlength : (buf ++ (r.readSlice delim).1.line).length ≤ d.bound := by
      rw [List.length_append, Decoder.bound]
      omega
    rw [Decoder.collectHeld, if_neg hshort]
    simp only [if_pos hfull]
    refine ih _ ?_ (Held.set_peak_le hk hlength)
    rw [(r.readSlice_spec delim).after.size]
    exact hsize
  | case3 buf r hshort hfull =>
    have hline := r.readSlice_length_le delim
    have hlength : (buf ++ (r.readSlice delim).1.line).length ≤ d.bound := by
      rw [List.length_append, Decoder.bound]
      omega
    rw [Decoder.collectHeld, if_neg hshort]
    simp only [if_neg hfull]
    exact Held.set_peak_le hk hlength

theorem Decoder.delimitedHeld_peak (d : Decoder) (delim : UInt8) {pre : Bytes} {r : Reader} {k : Held}
    (hpre : pre.length ≤ maxLengthDigits + 1) (hsize : r.size ≤ readBufferSize) (hk : k.peak ≤ d.bound) :
    (d.delimitedHeld delim pre r k).2.peak ≤ d.bound := by
  unfold Decoder.delimitedHeld
  split
  · exact d.collectHeld_peak _ _ _ _ hsize (Held.set_peak_le hk (hpre.trans d.maxLengthDigits_lt_bound))
  · split
    · have hline : (r.readSlice delim).1.line.length ≤ d.bound :=
        ((r.readSlice_length_le delim).trans hsize).trans (Nat.le_add_left _ _)
      refine d.collectHeld_peak _ _ _ _ ?_ (Held.set_peak_le hk hline)
      rw [(r.readSlice_spec delim).after.size]
      exact hsize
    · exact hk

theorem Decoder.endLengthHeld_peak (d : Decoder) {digits : Bytes} (length : Nat) (c : UInt8) {r : Reader}
    {k : Held} (hdigits : digits.length ≤ maxLengthDigits) (hsize : r.size ≤ readBufferSize)
    (hk : k.peak ≤ d.bound) : (d.endLengthHeld digits length c r k).2.peak ≤ d.bound := by
  unfold Decoder.endLengthHeld
  split
  · exact Held.set_peak_le hk ((Nat.min_le_right _ _).trans (Nat.le_add_right _ _))
  · split
    · exact hk
    · split
      · exact Held.set_peak_le hk (hdigits.trans d.maxLengthDigits_lt_bound.le)
      · exact d.delimitedHeld_peak newline (by simpa using hdigits) hsize hk

theorem Decoder.readLengthHeld_peak (d : Decoder) (room : Nat) {digits : Bytes} (length : Nat) {r : Reader}
    {k : Held} (hdigits : digits.length + room ≤ maxLengthDigits) (hsize : r.size ≤ readBufferSize)
    (hk : k.peak ≤ d.bound) : (d.readLengthHeld room digits length r k).2.peak ≤ d.bound := by
  have hended : ∀ {digits : Bytes}, digits.length ≤ maxLengthDigits → ∀ {r : Reader},
      (if r.failure = .eof then ((d.limit digits, r.peek 1), k.set digits.length)
        else (({ err := some (.failure r.failure) }, r.peek 1), k)).2.peak ≤ d.bound := by
    intro digits hdigits r
    split
    · exact Held.set_peak_le hk (hdigits.trans d.maxLengthDigits_lt_bound.le)
    · exact hk
  induction room generalizing digits length r with
  | zero =>
    rw [Decoder.readLengthHeld]
    split
    · exact hended hdigits
    · rename_i hread
      exact d.endLengthHeld_peak _ _ hdigits ((Reader.readByte_some hread).size ▸ hsize) hk
  | succ room ih =>
    rw [Decoder.readLengthHeld]
    split
    · exact hended (by omega)
    · rename_i hread
      have hsize' := (Reader.readByte_some hread).size ▸ hsize
      dsimp only
      split
      · refine ih _ ?_ hsize'
        rw [List.length_append, List.length_singleton]
        omega
      · exact d.endLengthHeld_peak _ _ (by omega) hsize' hk

theorem Decoder.frameHeld_peak (d : Decoder) {r : Reader} {k : Held} (c : Option UInt8)
    (hsize : r.size ≤ readBufferSize) (hk : k.peak ≤ d.bound) : (d.frameHeld r k c).2.peak ≤ d.bound := by
  unfold Decoder.frameHeld
  split
  · exact hk
  · split
    · exact d.delimitedHeld_peak _ (by simp) hsize hk
    · exact d.delimitedHeld_peak _ (by simp) hsize hk
    · split
      · split
        · exact hk
        · exact d.delimitedHeld_peak _ (by simp) hsize hk
      · exact d.readLengthHeld_peak _ _ (by simp [maxLengthDigits]) hsize hk

/-! ## What a message costs -/

/-- A call that returns a message takes at least one byte of the stream. -/
theorem Decoder.next_rest_lt (d : Decoder) (h : d.next.1.err = none) :
    d.next.2.reader.rest.length < d.reader.rest.length :=
  nextFrame_rest (d.next_ok h).2.1

/-! ## Any number of calls -/

/-- What some calls of `Next` return, errors or not, and the decoder after them. -/
def HoldingDecoder.calls : Nat → HoldingDecoder → List Frame × HoldingDecoder
  | 0, d => ([], d)
  | n + 1, d =>
    let (f, d') := d.next
    let (fs, d'') := d'.calls n
    (f :: fs, d'')

/-- What holds of a decoder between calls. -/
structure HoldingDecoder.Small (d : HoldingDecoder) : Prop where
  size : d.reader.size ≤ readBufferSize
  peak : d.buf.peak ≤ d.bound

theorem holdingDecoder_small (reads : List Bytes) (failure : Failure) (mode : Mode) (max : Nat) :
    (holdingDecoder (Reader.new · reads failure) mode max).Small := by
  refine ⟨?_, Nat.zero_le _⟩
  refine max_le ?_ (by decide)
  unfold readBufferSize
  split <;> omega

theorem HoldingDecoder.next_fst (d : HoldingDecoder) : d.next.1 = d.toDecoder.next.1 :=
  congrArg Prod.fst d.next_eq

theorem HoldingDecoder.next_reader (d : HoldingDecoder) : d.next.2.reader = d.toDecoder.next.2.reader :=
  congrArg (fun p => p.2.reader) d.next_eq

theorem HoldingDecoder.Small.next {d : HoldingDecoder} (h : d.Small) : d.next.2.Small := by
  constructor
  · rw [d.next_reader, d.next_onward.size]
    exact h.size
  · refine d.frameHeld_peak _ ?_ h.peak
    rw [(skipDelimiters_onward d.reader).size]
    exact h.size

/-- Some calls return messages that fit, of which each takes a byte from what is left. -/
theorem HoldingDecoder.Small.calls {d : HoldingDecoder} (h : d.Small) (n : Nat) :
    (d.calls n).2.Small ∧ (d.calls n).2.max = d.max ∧ (∀ f ∈ (d.calls n).1, f.msg.length ≤ d.max) ∧
      ((d.calls n).1.countP fun f => f.err = none) + (d.calls n).2.reader.rest.length ≤
        d.reader.rest.length := by
  induction n generalizing d with
  | zero => simp [HoldingDecoder.calls, h]
  | succ n ih =>
    obtain ⟨hsmall, hmax, hfit, hcost⟩ := ih h.next
    have hlength := d.toDecoder.next_length
    rw [← d.next_fst] at hlength
    simp only [HoldingDecoder.calls]
    refine ⟨hsmall, hmax, List.forall_mem_cons.mpr ⟨hlength, hfit⟩, ?_⟩
    rw [List.countP_cons]
    rw [d.next_reader] at hcost
    split
    · rename_i hok
      have hok : d.toDecoder.next.1.err = none := by
        rw [← d.next_fst]
        exact of_decide_eq_true hok
      have := d.toDecoder.next_rest_lt hok
      omega
    · have := d.next_onward.length_le
      omega

/-- In any number of calls the buffer never holds more than the maximum and a read buffer,
no message is longer than the maximum, each message takes at least one byte from the
stream, and so there are no more messages than bytes. -/
theorem decoder_bounded (mode : Mode) (max : Nat) (reads : List Bytes) (failure : Failure) (n : Nat) :
    let (fs, d) := (holdingDecoder (Reader.new · reads failure) mode max).calls n
    d.buf.peak ≤ max + readBufferSize ∧
      (∀ f ∈ fs, f.msg.length ≤ max) ∧
      (d.next.1.err = none → d.next.2.reader.rest.length < d.reader.rest.length) ∧
      (fs.countP fun f => f.err = none) ≤ reads.flatten.length := by
  obtain ⟨hsmall, hmax, hfit, hcost⟩ := (holdingDecoder_small reads failure mode max).calls n
  refine ⟨?_, hfit, fun hok => ?_, (Nat.le_add_right _ _).trans hcost⟩
  · have hpeak := hsmall.peak
    rw [Decoder.bound, hmax] at hpeak
    exact hpeak
  · rw [HoldingDecoder.next_reader]
    exact Decoder.next_rest_lt _ (HoldingDecoder.next_fst _ ▸ hok)

end Syslogc.Framing
