-- SUMMARY: Streams of counted frames.
import Syslogc.Framing.Stream

/-!
# Counted frames

A counted frame has its length in front, and only delimiters stand between frames. The
decoder returns the payloads of such a stream. Where every frame has to be counted it
returns nothing else, but for one thing: a stream that ends inside a length is text.
-/

namespace Syslogc.Framing

open Bufio

/-! ## Lengths -/

/-- A length is recognised where no other digit follows. -/
theorem IsLength.lengthDigits_append {ds : Bytes} (h : IsLength ds) {t : Bytes}
    (ht : t.takeWhile isDigit = []) : lengthDigits (ds ++ t) = some ds := by
  simp only [lengthDigits, takeWhile_digits h.digits, ht, List.append_nil, h.positive, h.short]
  rfl

theorem isDelimiter_of_isDigit {c : UInt8} (h : isDigit c = true) : isDelimiter c = false := by
  have hne : ∀ b : UInt8, isDigit b = false → c ≠ b := by
    rintro b hb rfl
    rw [h] at hb
    cases hb
  simp [isDelimiter, hne newline (by decide), hne cr (by decide), hne 0 (by decide), hne space (by decide)]

/-- Delimiters in front of a length are skipped, and no more. -/
theorem IsLength.dropWhile_append {gap ds : Bytes} (hgap : ∀ c ∈ gap, isDelimiter c = true)
    (h : IsLength ds) (t : Bytes) :
    (gap ++ (ds ++ t)).dropWhile isDelimiter = ds ++ t := by
  rw [List.dropWhile_append_of_pos hgap]
  cases ds with
  | nil => exact absurd rfl h.ne_nil
  | cons c ds =>
    have hc : isDelimiter c = false := isDelimiter_of_isDigit (h.digits c (by simp))
    simp [hc]

/-- The number of bytes of a message as a length, if it has not too many digits. -/
theorem isLength_decimal {n : Nat} (hn : 0 < n) (hdigits : (decimal n).length ≤ maxLengthDigits) :
    IsLength (decimal n) := by
  refine ⟨fun c hc => ?_, ?_, hdigits⟩
  · obtain ⟨d, hd, -, rfl⟩ := decimal_mem hc
    exact isDigit_ofNat hd
  · obtain ⟨c, ds, hdecimal, hlow, -⟩ := decimal_head hn
    have hzero : c ≠ 48 := by
      rintro rfl
      exact absurd hlow (by decide)
    rw [hdecimal]
    simpa using hzero

/-! ## One frame -/

/-- The next `n` bytes, without the delimiters at their end, cut at the maximum. -/
def payload (max n : Nat) (body : Bytes) : Message :=
  (trimmed (body.take (min n max)), max < n)

variable {max : Nat}

/-- A counted frame after delimiters is read, and what follows it is left. -/
theorem nextFrame_counted {mode : Mode} (hmode : mode = .auto ∨ mode = .octetCounting)
    {gap ds body : Bytes} (hgap : ∀ c ∈ gap, isDelimiter c = true) (hds : IsLength ds)
    (henough : min (digitsValue 0 ds) max ≤ body.length) :
    nextFrame mode max (gap ++ (ds ++ space :: body)) =
      .ok (payload max (digitsValue 0 ds) body, body.drop (digitsValue 0 ds)) := by
  have hlength : lengthDigits (ds ++ space :: body) = some ds := hds.lengthDigits_append rfl
  have hcounted : ¬ (mode = .lf ∨ mode = .nul) := by
    rcases hmode with rfl | rfl <;> simp
  have hframe : firstFrame mode max (ds ++ space :: body) =
      .ok (payload max (digitsValue 0 ds) body, body.drop (digitsValue 0 ds)) := by
    simp only [firstFrame, if_neg hcounted, hlength, List.drop_left, if_true, counted,
      if_neg (not_lt.mpr henough), payload]
  rw [nextFrame, hds.dropWhile_append hgap]
  split
  · rename_i hnil
    simp at hnil
  · rename_i hcons
    rw [← hcons]
    exact hframe

/-! ## What counted frames carry -/

/-- A message as a counted frame carries it whole, and the delimiters in front of it. -/
structure OctetFrame (max : Nat) where
  gap : Bytes
  gap_delimiters : ∀ c ∈ gap, isDelimiter c = true
  message : Bytes
  nonempty : message ≠ []
  fits : message.length ≤ max
  digits : (decimal message.length).length ≤ maxLengthDigits
  ending : ∀ c ∈ message.getLast?, c ≠ cr ∧ c ≠ newline ∧ c ≠ 0

def OctetFrame.bytes {max : Nat} (f : OctetFrame max) : Bytes :=
  f.gap ++ (decimal f.message.length ++ space :: f.message)

/-- Frames, and the delimiters behind the last one. -/
def octetStream {max : Nat} (frames : List (OctetFrame max)) (trailing : Bytes) : Bytes :=
  frames.flatMap OctetFrame.bytes ++ trailing

theorem trimmed_of_getLast {b : Bytes} (h : ∀ c ∈ b.getLast?, c ≠ cr ∧ c ≠ newline ∧ c ≠ 0) :
    trimmed b = b := by
  obtain rfl | ⟨b, c, rfl⟩ := b.eq_nil_or_concat'
  · rfl
  · exact trimmed_eq_self (h c (by simp))

theorem OctetFrame.nextFrame_bytes {mode : Mode} (hmode : mode = .auto ∨ mode = .octetCounting)
    (f : OctetFrame max) (t : Bytes) :
    nextFrame mode max (f.bytes ++ t) = .ok ((f.message, false), t) := by
  have hlength := isLength_decimal (List.length_pos_iff.mpr f.nonempty) f.digits
  have hvalue : min (digitsValue 0 (decimal f.message.length)) max = f.message.length := by
    rw [digitsValue_decimal, Nat.min_eq_left f.fits]
  have henough : min (digitsValue 0 (decimal f.message.length)) max ≤ (f.message ++ t).length := by
    rw [hvalue, List.length_append]
    omega
  have hframe := nextFrame_counted hmode f.gap_delimiters hlength henough
  have hpayload : payload max (digitsValue 0 (decimal f.message.length)) (f.message ++ t) =
      (f.message, false) := by
    rw [payload, hvalue, List.take_left, trimmed_of_getLast f.ending, digitsValue_decimal]
    simp [f.fits]
  rw [hpayload, digitsValue_decimal, List.drop_left] at hframe
  rw [← hframe]
  simp [OctetFrame.bytes]

theorem framesOf_octetStream {mode : Mode} (hmode : mode = .auto ∨ mode = .octetCounting)
    (frames : List (OctetFrame max)) {trailing : Bytes} (h : ∀ c ∈ trailing, isDelimiter c = true) :
    framesOf mode max (octetStream frames trailing) =
      (frames.map fun f => (f.message, false), .failure .eof) := by
  induction frames with
  | nil =>
    have hdrop : trailing.dropWhile isDelimiter = [] := by simpa using h
    apply framesOf_of_error
    simp [nextFrame, octetStream, hdrop]
  | cons f frames ih =>
    have hstream : octetStream (f :: frames) trailing = f.bytes ++ octetStream frames trailing := by
      simp [octetStream]
    rw [hstream, framesOf_of_ok (f.nextFrame_bytes hmode _), ih]
    rfl

/-- A stream of counted frames is decoded to what they carry, whatever the bytes of the
messages look like and whatever reads they arrive in. -/
theorem decode_octetStream (mode : Mode) (hmode : mode = .auto ∨ mode = .octetCounting) (max : Nat)
    (frames : List (OctetFrame max)) (trailing : Bytes) (htrailing : ∀ c ∈ trailing, isDelimiter c = true)
    (reads : List Bytes) (hreads : reads.flatten = octetStream frames trailing)
    (n : Nat) (hn : reads.flatten.length < n) :
    (newDecoder (Reader.new · reads .eof) mode max).decode n =
      some (frames.map fun f => (f.message, false), .failure .eof) := by
  have hdecode := (newDecoder (Reader.new · reads .eof) mode max).decode_eq rfl hn
  have hrest : (newDecoder (Reader.new · reads .eof) mode max).reader.rest = octetStream frames trailing := hreads
  rw [hdecode, hrest]
  exact congrArg some (framesOf_octetStream hmode frames htrailing)

/-- A message that looks like a frame of its own, with delimiters around it. -/
def nestedFrame : OctetFrame 4 where
  gap := [newline, 0]
  gap_delimiters := by simp [isDelimiter]
  message := [50, space, 97]
  nonempty := by simp
  fits := by simp
  digits := by simp [decimal, maxLengthDigits]
  ending := by simp [cr, newline]

theorem decode_octetStream_nested :
    (newDecoder (Reader.new · [nestedFrame.bytes, nestedFrame.bytes ++ [space]] .eof) .auto 4).decode 20 =
      some ([([50, space, 97], false), ([50, space, 97], false)], .failure .eof) :=
  decode_octetStream .auto (.inl rfl) 4 [nestedFrame, nestedFrame] [space] (by simp [isDelimiter])
    [nestedFrame.bytes, nestedFrame.bytes ++ [space]] (by simp [octetStream]) 20
    (by simp [nestedFrame, OctetFrame.bytes, decimal])

/-! ## What else is returned -/

/-- The messages of counted frames with only delimiters in front of each, and what follows
the last of them. -/
inductive OctetFrames (max : Nat) : Bytes → List Message → Bytes → Prop
  | done (s : Bytes) : OctetFrames max s [] s
  | frame {gap ds body rest : Bytes} {ms : List Message} (hgap : ∀ c ∈ gap, isDelimiter c = true)
      (hds : IsLength ds) (henough : min (digitsValue 0 ds) max ≤ body.length)
      (hrest : OctetFrames max (body.drop (digitsValue 0 ds)) ms rest) :
      OctetFrames max (gap ++ (ds ++ space :: body)) (payload max (digitsValue 0 ds) body :: ms) rest

/-- The messages of the first calls of `Next`, up to an error. -/
def Decoder.messages : Nat → Decoder → List Message
  | 0, _ => []
  | n + 1, d =>
    let (f, d') := d.next
    if f.err = none then (f.msg, f.truncated) :: d'.messages n else []

variable {rest : Bytes}

/-- A message where every frame has to be counted: the payload of the first frame, or the
length at which the stream ends. -/
theorem nextFrame_octetCounting {s : Bytes} {m : Message}
    (h : nextFrame .octetCounting max s = .ok (m, rest)) :
    IsLength (s.dropWhile isDelimiter) ∨
      ∃ gap ds body, s = gap ++ (ds ++ space :: body) ∧ (∀ c ∈ gap, isDelimiter c = true) ∧ IsLength ds ∧
        min (digitsValue 0 ds) max ≤ body.length ∧ m = payload max (digitsValue 0 ds) body ∧
        rest = body.drop (digitsValue 0 ds) := by
  have hgap := List.takeWhile_append_dropWhile (p := isDelimiter) (l := s)
  unfold nextFrame at h
  split at h
  · cases h
  · rename_i c t hs
    rw [hs] at hgap ⊢
    unfold firstFrame at h
    rw [if_neg (by simp)] at h
    split at h
    · cases h
    · rename_i ds hds
      obtain ⟨hlength, hsplit⟩ := lengthDigits_eq_some hds
      split at h
      · rename_i hnil
        rw [hnil, List.append_nil] at hsplit
        exact .inl (hsplit ▸ hlength)
      · rename_i b body hbody
        rw [hbody] at hsplit
        split at h
        · rename_i hspace
          subst hspace
          unfold counted at h
          split at h
          · cases h
          · rename_i henough
            cases h
            refine .inr ⟨s.takeWhile isDelimiter, ds, body, ?_, fun c hc => List.mem_takeWhile_imp hc, hlength,
              not_lt.mp henough, rfl, rfl⟩
            rw [← hsplit, hgap]
        · cases h

variable {ms : List Message}

/-- The frames of a stream are those the decoder reads. -/
theorem OctetFrames.framesOf_eq {s : Bytes}
    (h : OctetFrames max s ms rest) :
    (framesOf .octetCounting max s).1 = ms ++ (framesOf .octetCounting max rest).1 := by
  induction h with
  | done s => rfl
  | frame hgap hds henough hrest ih =>
    rw [framesOf_of_ok (nextFrame_counted (.inr rfl) hgap hds henough), ih]
    rfl

theorem OctetFrames.uncons {s : Bytes} {m : Message}
    (h : OctetFrames max s (m :: ms) rest) :
    ∃ s', nextFrame .octetCounting max s = .ok (m, s') ∧ OctetFrames max s' ms rest := by
  cases h with
  | frame hgap hds henough hrest => exact ⟨_, nextFrame_counted (.inr rfl) hgap hds henough, hrest⟩

/-- The frames of a stream are its own, so that more of them go on where some end. -/
theorem OctetFrames.append {s rest' : Bytes} {ms' : List Message}
    (h : OctetFrames max s ms rest) (h' : OctetFrames max s (ms ++ ms') rest') :
    OctetFrames max rest ms' rest' := by
  induction h with
  | done s => exact h'
  | frame hgap hds henough hrest ih =>
    obtain ⟨s', hnext, hmore⟩ := h'.uncons
    cases (nextFrame_counted (.inr rfl) hgap hds henough).symm.trans hnext
    exact ih hmore

/-- No frame begins with the length at which a stream ends. -/
theorem OctetFrames.eq_nil_of_isLength {s : Bytes}
    (h : OctetFrames max s ms rest) (hs : IsLength (s.dropWhile isDelimiter)) : ms = [] := by
  cases h with
  | done s => rfl
  | frame hgap hds henough hrest =>
    rw [hds.dropWhile_append hgap] at hs
    exact absurd (hs.digits space (by simp)) (by decide)

/-- No frames are followed by a length at which the stream ends. -/
def NoBareLength (max : Nat) (s : Bytes) : Prop :=
  ∀ ms rest, OctetFrames max s ms rest → ¬ IsLength (rest.dropWhile isDelimiter)

theorem Decoder.messages_octetFrames (d : Decoder) (hmode : d.mode = .octetCounting)
    (h : d.reader.failure = .eof → NoBareLength d.max d.reader.rest) (n : Nat) :
    ∃ rest, OctetFrames d.max d.reader.rest (d.messages n) rest := by
  induction n generalizing d with
  | zero => exact ⟨_, .done _⟩
  | succ n ih =>
    simp only [Decoder.messages]
    split
    · rename_i hok
      obtain ⟨hnot, hframe, hfailure⟩ := d.next_ok hok
      rw [hmode] at hframe
      obtain hlength | ⟨gap, ds, body, hrest, hgap, hds, henough, hmessage, hnext⟩ := nextFrame_octetCounting hframe
      · have heof : d.reader.failure = .eof := by
          by_contra hother
          exact hnot ⟨by simp [hmode], hother, hlength⟩
        exact absurd hlength (h heof [] d.reader.rest (.done _))
      · have hbare : d.next.2.reader.failure = .eof → NoBareLength d.next.2.max d.next.2.reader.rest := by
          intro heof ms rest hframes
          rw [hnext] at hframes
          have hmore := OctetFrames.frame hgap hds henough hframes
          rw [← hrest] at hmore
          exact h (hfailure ▸ heof) _ rest hmore
        obtain ⟨rest, hframes⟩ := ih d.next.2 hmode hbare
        rw [hnext] at hframes
        have hmore := OctetFrames.frame hgap hds henough hframes
        rw [← hrest, ← hmessage] at hmore
        exact ⟨rest, hmore⟩
    · exact ⟨_, .done _⟩

theorem Decoder.messages_of_decode {d : Decoder} {n : Nat} {e : Error}
    (h : d.decode n = some (ms, e)) : d.messages n = ms := by
  induction n generalizing d ms with
  | zero => cases h
  | succ n ih =>
    simp only [Decoder.decode, Decoder.messages] at h ⊢
    cases herr : d.next.1.err with
    | some e' =>
      rw [herr] at h
      cases h
      rfl
    | none =>
      rw [herr] at h
      obtain ⟨⟨ms', e'⟩, hdecode, hms⟩ := Option.map_eq_some_iff.mp h
      cases hms
      rw [if_pos rfl, ih hdecode]

/-- A length at the end of the stream is returned as text. -/
theorem framesOf_of_isLength {s : Bytes} (h : IsLength (s.dropWhile isDelimiter)) :
    (framesOf .octetCounting max s).1 ≠ [] := by
  have hlength := h.lengthDigits_append (t := []) rfl
  rw [List.append_nil] at hlength
  have hnext : nextFrame .octetCounting max s = line .octetCounting max (s.dropWhile isDelimiter) := by
    cases hs : s.dropWhile isDelimiter with
    | nil => exact absurd hs h.ne_nil
    | cons c t =>
      rw [hs] at hlength
      simp only [nextFrame, hs, firstFrame, hlength, List.drop_length]
      rfl
  rw [framesOf_of_ok (hnext.trans rfl)]
  exact List.cons_ne_nil _ _

/-- A length behind frames is among the messages, and no frame. -/
theorem OctetFrames.not_messages {reads : List Bytes}
    (h : OctetFrames max reads.flatten ms rest)
    (hlength : IsLength (rest.dropWhile isDelimiter)) :
    ¬ ∃ rest', OctetFrames max reads.flatten
      ((newDecoder (Reader.new · reads .eof) .octetCounting max).messages (reads.flatten.length + 1)) rest' := by
  rintro ⟨rest', hall⟩
  have hdecode := (newDecoder (Reader.new · reads .eof) .octetCounting max).decode_eq rfl
    (Nat.lt_succ_self reads.flatten.length)
  have hmessages : (newDecoder (Reader.new · reads .eof) .octetCounting max).messages
      (reads.flatten.length + 1) = ms ++ (framesOf .octetCounting max rest).1 :=
    (Decoder.messages_of_decode hdecode).trans h.framesOf_eq
  rw [hmessages] at hall
  exact framesOf_of_isLength hlength ((h.append hall).eq_nil_of_isLength hlength)

/-- Where every frame has to be counted, all that is returned is the payloads of counted
frames, exactly if the stream fails or does not end behind frames inside a length. -/
theorem messages_octetCounting_iff (max : Nat) (reads : List Bytes) (failure : Failure) :
    (∀ n, ∃ rest, OctetFrames max reads.flatten
        ((newDecoder (Reader.new · reads failure) .octetCounting max).messages n) rest) ↔
      (failure = .eof → NoBareLength max reads.flatten) := by
  constructor
  · rintro h rfl ms rest hframes hlength
    exact hframes.not_messages hlength (h _)
  · exact fun h n => (newDecoder (Reader.new · reads failure) .octetCounting max).messages_octetFrames rfl h n

/-- Two digits and the end of the stream are returned, which is no counted frame. -/
theorem bare_length_returned :
    (newDecoder (Reader.new · [[49, 50]] .eof) .octetCounting 8).messages 3 = [([49, 50], false)] ∧
      ¬ ∃ rest, OctetFrames 8 [49, 50]
        ((newDecoder (Reader.new · [[49, 50]] .eof) .octetCounting 8).messages 3) rest := by
  have hlength : IsLength [49, 50] := ⟨by simp [isDigit], rfl, by decide⟩
  have hdone : OctetFrames 8 [[49, 50]].flatten [] [49, 50] := .done [49, 50]
  exact ⟨by decide +kernel, hdone.not_messages hlength⟩

end Syslogc.Framing
