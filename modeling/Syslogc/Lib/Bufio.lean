-- SUMMARY: A buffered reader over a stream that arrives in reads.
import Mathlib
import Syslogc.Lib.Bytes

/-!
# Buffered reading

A stream arrives as a sequence of reads and then fails, at its end or for another
reason. A reader buffers up to `size` bytes of it. `Reader.rest` is what it can still
hand out, whatever is buffered already; `After` relates the reader before and after
an operation to the bytes the operation took, and each operation has one
specification in these terms.
-/

namespace Bufio

/-- Why there is nothing more to read. -/
inductive Failure where
  | eof
  | other
deriving DecidableEq, Repr

structure Reader where
  size : Nat
  pos : 0 < size
  /-- What is buffered and not yet handed out. -/
  buffered : Bytes
  fits : buffered.length ≤ size
  /-- The data of the reads to come. -/
  reads : List Bytes
  /-- What every read after those meets. -/
  failure : Failure

/-- A reader with nothing buffered. The smallest buffer has 16 bytes. -/
def Reader.new (size : Nat) (reads : List Bytes) (failure : Failure) : Reader where
  size := max size 16
  pos := by omega
  buffered := []
  fits := Nat.zero_le _
  reads
  failure

/-- A reader with at least the given buffer over another one, which is itself if its
buffer is large enough. -/
def Reader.withSize (r : Reader) (size : Nat) : Reader :=
  if size ≤ r.size then r else Reader.new size (r.buffered :: r.reads) r.failure

/-- What the reader can still hand out. -/
def Reader.rest (r : Reader) : Bytes := r.buffered ++ r.reads.flatten

/-- A bound on the reads that are left. -/
def Reader.pending (r : Reader) : Nat := r.reads.flatten.length + r.reads.length

/-- Take at most `n` bytes from the next read; the rest of it is the next read then. -/
def takeRead (n : Nat) : List Bytes → Bytes × List Bytes
  | [] => ([], [])
  | c :: cs => (c.take n, if c.length ≤ n then cs else c.drop n :: cs)

theorem takeRead_flatten (n : Nat) (reads : List Bytes) :
    (takeRead n reads).1 ++ (takeRead n reads).2.flatten = reads.flatten := by
  cases reads with
  | nil => rfl
  | cons c cs =>
    simp only [takeRead]
    split
    · rename_i h
      rw [List.take_of_length_le h, List.flatten_cons]
    · rw [List.flatten_cons, List.flatten_cons, ← List.append_assoc, List.take_append_drop]

theorem takeRead_length_le (n : Nat) (reads : List Bytes) :
    (takeRead n reads).1.length ≤ n := by
  cases reads with
  | nil => exact Nat.zero_le _
  | cons c cs => simp [takeRead]

theorem takeRead_pending {n : Nat} (hn : 0 < n) {reads : List Bytes} (h : reads ≠ []) :
    (takeRead n reads).2.flatten.length + (takeRead n reads).2.length <
      reads.flatten.length + reads.length := by
  cases reads with
  | nil => exact absurd rfl h
  | cons c cs =>
    simp only [takeRead]
    split
    · simp only [List.flatten_cons, List.length_append, List.length_cons]
      omega
    · rename_i hlong
      simp only [List.flatten_cons, List.length_append, List.length_cons, List.length_drop]
      omega

/-- Read once into the free part of the buffer. -/
def Reader.fill (r : Reader) : Reader :=
  { r with
    buffered := r.buffered ++ (takeRead (r.size - r.buffered.length) r.reads).1
    fits := by
      have hroom := takeRead_length_le (r.size - r.buffered.length) r.reads
      have hfits := r.fits
      rw [List.length_append]
      omega
    reads := (takeRead (r.size - r.buffered.length) r.reads).2 }

variable {r : Reader}

theorem Reader.fill_pending (hroom : r.buffered.length < r.size)
    (hreads : r.reads ≠ []) : r.fill.pending < r.pending :=
  takeRead_pending (by omega) hreads

/-- Read once past the buffer. -/
def Reader.readPast (r : Reader) (n : Nat) : Reader := { r with reads := (takeRead n r.reads).2 }

/-- Drop buffered bytes. -/
def Reader.drop (r : Reader) (n : Nat) : Reader :=
  { r with
    buffered := r.buffered.drop n
    fits := by
      have hfits := r.fits
      rw [List.length_drop]
      omega }

/-! ## Operations -/

/-- Fill the buffer until it has `n` bytes, is full, or nothing more comes. -/
def Reader.peek (n : Nat) (r : Reader) : Reader :=
  if r.buffered.length < min n r.size ∧ r.reads ≠ [] then r.fill.peek n else r
termination_by r.pending
decreasing_by
  rename_i h
  exact Reader.fill_pending (by omega) h.2

/-- The next byte, if there is one. -/
def Reader.readByte (r : Reader) : Option (UInt8 × Reader) :=
  match (r.peek 1).buffered with
  | [] => none
  | b :: _ => some (b, (r.peek 1).drop 1)

/-- How a search for a delimiter ended. -/
inductive Stop where
  | found
  | full
  | failed
deriving DecidableEq, Repr

structure Slice where
  line : Bytes
  stop : Stop

/-- What stands before the first delimiter. -/
def upTo (delim : UInt8) (b : Bytes) : Bytes := b.takeWhile (· ≠ delim)

/-- Everything up to and including the delimiter, or what is there when the buffer is
full or the stream fails. -/
def Reader.readSlice (delim : UInt8) (r : Reader) : Slice × Reader :=
  if delim ∈ r.buffered then
    (⟨upTo delim r.buffered ++ [delim], .found⟩, r.drop ((upTo delim r.buffered).length + 1))
  else if r.size ≤ r.buffered.length then
    (⟨r.buffered, .full⟩, r.drop r.buffered.length)
  else if r.reads = [] then (⟨r.buffered, .failed⟩, r.drop r.buffered.length)
  else r.fill.readSlice delim
termination_by r.pending
decreasing_by
  rename_i _ hfull hreads
  exact Reader.fill_pending (by omega) hreads

/-- Exactly `n` bytes, or all there are. Where the buffer is empty and too small, the
bytes are read past it. -/
def Reader.readFull (n : Nat) (r : Reader) : Bytes × Reader :=
  if n = 0 then ([], r)
  else if r.buffered ≠ [] then
    let (b, r') := Reader.readFull (n - r.buffered.length) (r.drop n)
    (r.buffered.take n ++ b, r')
  else if r.reads = [] then ([], r)
  else if r.size ≤ n then
    let (b, r') := Reader.readFull (n - (takeRead n r.reads).1.length) (r.readPast n)
    ((takeRead n r.reads).1 ++ b, r')
  else Reader.readFull n r.fill
termination_by (r.pending, n)
decreasing_by
  · rename_i hn hbuffered
    apply Prod.Lex.right'
    · exact le_refl r.pending
    · have := List.length_pos_iff.mpr hbuffered
      omega
  · rename_i hn _ hreads _
    apply Prod.Lex.left
    exact takeRead_pending (by omega) hreads
  · rename_i hn hbuffered hreads _
    apply Prod.Lex.left
    refine Reader.fill_pending ?_ hreads
    rw [not_not.mp hbuffered]
    exact r.pos

/-- Skip `n` bytes, or all there are. -/
def Reader.discard (n : Nat) (r : Reader) : Reader :=
  if n = 0 then r
  else if r.buffered ≠ [] then Reader.discard (n - r.buffered.length) (r.drop n)
  else if r.reads = [] then r
  else Reader.discard n r.fill
termination_by (r.pending, n)
decreasing_by
  · rename_i hn hbuffered
    apply Prod.Lex.right'
    · exact le_refl r.pending
    · have := List.length_pos_iff.mpr hbuffered
      omega
  · rename_i hn hbuffered hreads
    apply Prod.Lex.left
    refine Reader.fill_pending ?_ hreads
    rw [not_not.mp hbuffered]
    exact r.pos

/-! ## What an operation takes -/

/-- The reader after the bytes were taken. -/
structure After (r : Reader) (taken : Bytes) (r' : Reader) : Prop where
  rest : r.rest = taken ++ r'.rest
  size : r'.size = r.size
  failure : r'.failure = r.failure

theorem After.refl (r : Reader) : After r [] r := ⟨rfl, rfl, rfl⟩

variable {r' : Reader}

theorem After.trans {r'' : Reader} {a b : Bytes} (h : After r a r') (h' : After r' b r'') :
    After r (a ++ b) r'' :=
  ⟨by rw [h.rest, h'.rest, List.append_assoc], h'.size.trans h.size, h'.failure.trans h.failure⟩

/-- The reader went on, whatever it took. -/
def Onward (r r' : Reader) : Prop := ∃ taken, After r taken r'

theorem After.onward {taken : Bytes} (h : After r taken r') : Onward r r' :=
  ⟨taken, h⟩

theorem Onward.refl (r : Reader) : Onward r r := (After.refl r).onward

theorem Onward.trans {r'' : Reader} (h : Onward r r') (h' : Onward r' r'') : Onward r r'' := by
  obtain ⟨a, ha⟩ := h
  obtain ⟨b, hb⟩ := h'
  exact (ha.trans hb).onward

theorem Onward.size (h : Onward r r') : r'.size = r.size := by
  obtain ⟨taken, h⟩ := h
  exact h.size

theorem Onward.failure (h : Onward r r') : r'.failure = r.failure := by
  obtain ⟨taken, h⟩ := h
  exact h.failure

theorem Onward.length_le (h : Onward r r') : r'.rest.length ≤ r.rest.length := by
  obtain ⟨taken, h⟩ := h
  rw [h.rest, List.length_append]
  omega

theorem Reader.fill_after (r : Reader) : After r [] r.fill := by
  refine ⟨?_, rfl, rfl⟩
  simp only [Reader.rest, Reader.fill, List.nil_append, List.append_assoc, takeRead_flatten]

theorem Reader.drop_after (r : Reader) (n : Nat) : After r (r.buffered.take n) (r.drop n) := by
  refine ⟨?_, rfl, rfl⟩
  simp only [Reader.rest, Reader.drop, ← List.append_assoc, List.take_append_drop]

theorem Reader.drop_one_after {c : UInt8} (h : r.buffered.head? = some c) :
    After r [c] (r.drop 1) := by
  have hdrop := r.drop_after 1
  obtain ⟨b, hbuffered⟩ := List.head?_eq_some_iff.mp h
  rw [hbuffered] at hdrop
  exact hdrop

theorem Reader.readPast_after (h : r.buffered = []) (n : Nat) :
    After r (takeRead n r.reads).1 (r.readPast n) := by
  refine ⟨?_, rfl, rfl⟩
  simp only [Reader.rest, Reader.readPast, h, List.nil_append, takeRead_flatten]

theorem Reader.peek_after (n : Nat) (r : Reader) : After r [] (r.peek n) := by
  fun_induction Reader.peek n r with
  | case1 r h ih => exact r.fill_after.trans ih
  | case2 r h => exact After.refl r

/-- Nothing is buffered for a look ahead only where nothing is left. -/
theorem Reader.peek_nil {n : Nat} (hn : 0 < n) (h : (r.peek n).buffered = []) :
    r.rest = [] := by
  fun_induction Reader.peek n r with
  | case1 r hmore ih =>
    rw [r.fill_after.rest, ih h]
    rfl
  | case2 r hdone =>
    have hreads : r.reads = [] := by
      by_contra hreads
      refine hdone ⟨?_, hreads⟩
      have hpos := r.pos
      rw [h, List.length_nil]
      omega
    rw [Reader.rest, h, hreads]
    rfl

theorem Reader.readByte_some {b : UInt8} (h : r.readByte = some (b, r')) :
    After r [b] r' := by
  unfold Reader.readByte at h
  split at h
  · cases h
  · rename_i t hbuffered
    cases h
    have hdrop := (r.peek 1).drop_after 1
    rw [hbuffered] at hdrop
    exact (r.peek_after 1).trans hdrop

theorem Reader.readByte_none (h : r.readByte = none) : r.rest = [] := by
  unfold Reader.readByte at h
  split at h
  · exact Reader.peek_nil Nat.one_pos ‹_›
  · cases h

/-- Reading a byte gives the first one there is. -/
theorem Reader.readByte_of_rest {b : UInt8} {t : Bytes} (h : r.rest = b :: t) :
    ∃ r', r.readByte = some (b, r') ∧ After r [b] r' := by
  cases hread : r.readByte with
  | none =>
    rw [Reader.readByte_none hread] at h
    cases h
  | some p =>
    obtain ⟨c, r'⟩ := p
    have hafter := Reader.readByte_some hread
    have heq : c = b := by
      have hrest := hafter.rest
      rw [h] at hrest
      exact (List.cons.inj hrest).1.symm
    exact ⟨r', by rw [heq], heq ▸ hafter⟩

/-- A larger buffer hands out the same. -/
theorem Reader.withSize_rest (r : Reader) (size : Nat) :
    (r.withSize size).rest = r.rest ∧ (r.withSize size).failure = r.failure := by
  unfold Reader.withSize
  split
  · exact ⟨rfl, rfl⟩
  · exact ⟨rfl, rfl⟩

/-- What a slice says of the stream. -/
structure Slice.Spec (delim : UInt8) (r : Reader) (s : Slice) (r' : Reader) : Prop where
  after : After r s.line r'
  found : s.stop = .found → ∃ l, s.line = l ++ [delim] ∧ delim ∉ l
  full : s.stop = .full → delim ∉ s.line ∧ s.line.length = r.size
  failed : s.stop = .failed → delim ∉ s.line ∧ r'.rest = []

theorem Reader.drop_all_after (r : Reader) : After r r.buffered (r.drop r.buffered.length) := by
  have h := r.drop_after r.buffered.length
  rwa [List.take_length] at h

theorem not_mem_upTo (delim : UInt8) (b : Bytes) : delim ∉ upTo delim b := by
  intro hmem
  simpa using List.mem_takeWhile_imp hmem

variable {delim : UInt8}

theorem take_upTo {b : Bytes} (h : delim ∈ b) :
    b.take ((upTo delim b).length + 1) = upTo delim b ++ [delim] := by
  induction b with
  | nil => cases h
  | cons c b ih =>
    by_cases hc : c = delim
    · subst hc
      simp [upTo]
    · have hb : delim ∈ b := (List.mem_cons.mp h).resolve_left (Ne.symm hc)
      have hstep : upTo delim (c :: b) = c :: upTo delim b := by simp [upTo, hc]
      rw [hstep, List.length_cons, List.take_succ_cons, ih hb, List.cons_append]

/-- What follows the first delimiter. -/
def afterDelim (delim : UInt8) (b : Bytes) : Bytes := b.drop ((upTo delim b).length + 1)

theorem upTo_append {a : Bytes} (h : delim ∉ a) (b : Bytes) :
    upTo delim (a ++ b) = a ++ upTo delim b := by
  refine List.takeWhile_append_of_pos fun c hc => ?_
  simpa using fun heq : c = delim => h (heq ▸ hc)

theorem afterDelim_append {a : Bytes} (h : delim ∉ a) (b : Bytes) :
    afterDelim delim (a ++ b) = afterDelim delim b := by
  rw [afterDelim, upTo_append h, List.length_append, Nat.add_assoc, List.drop_append]
  simp [afterDelim]

@[simp] theorem upTo_nil (delim : UInt8) : upTo delim [] = [] := rfl

@[simp] theorem upTo_cons_self (delim : UInt8) (b : Bytes) : upTo delim (delim :: b) = [] := by
  simp [upTo]

@[simp] theorem afterDelim_nil (delim : UInt8) : afterDelim delim [] = [] := rfl

@[simp] theorem afterDelim_cons_self (delim : UInt8) (b : Bytes) :
    afterDelim delim (delim :: b) = b := by
  simp [afterDelim]

theorem Reader.readSlice_spec (delim : UInt8) (r : Reader) :
    (r.readSlice delim).1.Spec delim r (r.readSlice delim).2 := by
  fun_induction Reader.readSlice delim r with
  | case1 r hmem =>
    have hafter := r.drop_after ((upTo delim r.buffered).length + 1)
    rw [take_upTo hmem] at hafter
    exact ⟨hafter, fun _ => ⟨_, rfl, not_mem_upTo _ _⟩, by rintro ⟨⟩, by rintro ⟨⟩⟩
  | case2 r hmem hfull =>
    refine ⟨r.drop_all_after, by rintro ⟨⟩, fun _ => ⟨hmem, le_antisymm r.fits hfull⟩, by rintro ⟨⟩⟩
  | case3 r hmem hfull hreads =>
    refine ⟨r.drop_all_after, by rintro ⟨⟩, by rintro ⟨⟩, fun _ => ⟨hmem, ?_⟩⟩
    simp [Reader.rest, Reader.drop, hreads]
  | case4 r hmem hfull hreads ih => exact ⟨r.fill_after.trans ih.after, ih.found, ih.full, ih.failed⟩

/-- A slice is a part of the buffer. -/
theorem Reader.readSlice_length_le (delim : UInt8) (r : Reader) :
    (r.readSlice delim).1.line.length ≤ r.size := by
  fun_induction Reader.readSlice delim r with
  | case1 r hmem =>
    have htake := congrArg List.length (take_upTo hmem)
    rw [List.length_take] at htake
    exact htake ▸ (Nat.min_le_right _ _).trans r.fits
  | case2 r hmem hfull => exact r.fits
  | case3 r hmem hfull hreads => exact r.fits
  | case4 r hmem hfull hreads ih => exact ih

/-- A slice that ends at the delimiter is all there was before it. -/
theorem Slice.Spec.of_found {s : Slice} (h : s.Spec delim r r')
    (hstop : s.stop = .found) :
    s.line = upTo delim r.rest ++ [delim] ∧ r'.rest = afterDelim delim r.rest := by
  obtain ⟨l, hline, hl⟩ := h.found hstop
  have hrest : r.rest = l ++ delim :: r'.rest := by rw [h.after.rest, hline]; simp
  rw [hrest, upTo_append hl, afterDelim_append hl, hline]
  simp

/-- A full buffer is a part of what stands before the delimiter. -/
theorem Slice.Spec.of_full {s : Slice} (h : s.Spec delim r r')
    (hstop : s.stop = .full) : upTo delim r.rest = s.line ++ upTo delim r'.rest ∧
      afterDelim delim r.rest = afterDelim delim r'.rest ∧ r'.rest.length < r.rest.length := by
  obtain ⟨hno, hlength⟩ := h.full hstop
  rw [h.after.rest]
  refine ⟨upTo_append hno _, afterDelim_append hno _, ?_⟩
  have hpos := r.pos
  rw [List.length_append]
  omega

/-- A slice that ends with the stream is the rest of it. -/
theorem Slice.Spec.of_failed {s : Slice} (h : s.Spec delim r r')
    (hstop : s.stop = .failed) : s.line = r.rest ∧ upTo delim r.rest = r.rest ∧
      afterDelim delim r.rest = [] ∧ r'.rest = [] := by
  obtain ⟨hno, hnil⟩ := h.failed hstop
  have hrest : r.rest = s.line := by rw [h.after.rest, hnil, List.append_nil]
  have hup := upTo_append hno []
  have hdrop := afterDelim_append hno []
  rw [List.append_nil] at hup hdrop
  rw [hrest]
  exact ⟨rfl, hup.trans (by simp), hdrop, hnil⟩

/-- The bytes an operation that asks for `n` took: `n` of them, or all there are. -/
structure Taken (n : Nat) (r : Reader) (taken : Bytes) (r' : Reader) : Prop where
  after : After r taken r'
  length_le : taken.length ≤ n
  short : taken.length < n → r'.rest = []

theorem Taken.eq_take {n : Nat} {taken : Bytes} (h : Taken n r taken r') :
    taken = r.rest.take n ∧ r'.rest = r.rest.drop n := by
  rw [h.after.rest]
  obtain hlt | heq := lt_or_eq_of_le h.length_le
  · rw [h.short hlt, List.append_nil, List.take_of_length_le hlt.le, List.drop_of_length_le hlt.le]
    exact ⟨rfl, rfl⟩
  · subst heq
    simp

/-- Take `n` bytes in two parts. -/
theorem Taken.append {n : Nat} {r'' : Reader} {a b : Bytes} (h : After r a r')
    (ha : a.length ≤ n) (h' : Taken (n - a.length) r' b r'') : Taken n r (a ++ b) r'' := by
  have hb := h'.length_le
  refine ⟨h.trans h'.after, ?_, fun hshort => h'.short ?_⟩
  · rw [List.length_append]
    omega
  · rw [List.length_append] at hshort
    omega

theorem Reader.drop_taken {n : Nat} {b : Bytes}
    (h : Taken (n - r.buffered.length) (r.drop n) b r') : Taken n r (r.buffered.take n ++ b) r' := by
  apply Taken.append (r.drop_after n)
  · simp
  · have heq : n - (r.buffered.take n).length = n - r.buffered.length := by
      rw [List.length_take]
      omega
    rwa [heq]

theorem Reader.taken_nil {n : Nat} (hbuffered : ¬ r.buffered ≠ [])
    (hreads : r.reads = []) : Taken n r [] r := by
  refine ⟨After.refl r, Nat.zero_le n, fun _ => ?_⟩
  rw [Reader.rest, not_not.mp hbuffered, hreads]
  rfl

theorem Reader.readFull_taken (n : Nat) (r : Reader) :
    Taken n r (r.readFull n).1 (r.readFull n).2 := by
  fun_induction Reader.readFull n r with
  | case1 r => exact ⟨After.refl r, le_refl 0, by simp⟩
  | case2 n r hn hbuffered b r' hrec ih =>
    rw [hrec] at ih
    exact Reader.drop_taken ih
  | case3 n r hn hbuffered hreads => exact Reader.taken_nil hbuffered hreads
  | case4 n r hn hbuffered hreads hsize b r' hrec ih =>
    rw [hrec] at ih
    exact Taken.append (Reader.readPast_after (not_not.mp hbuffered) n) (takeRead_length_le n _) ih
  | case5 n r hn hbuffered hreads hsize ih => exact Taken.append r.fill_after (Nat.zero_le n) ih

theorem Reader.discard_taken (n : Nat) (r : Reader) : ∃ b, Taken n r b (r.discard n) := by
  fun_induction Reader.discard n r with
  | case1 r => exact ⟨[], After.refl r, le_refl 0, by simp⟩
  | case2 n r hn hbuffered ih =>
    obtain ⟨b, hb⟩ := ih
    exact ⟨_, Reader.drop_taken hb⟩
  | case3 n r hn hbuffered hreads => exact ⟨[], Reader.taken_nil hbuffered hreads⟩
  | case4 n r hn hbuffered hreads ih =>
    obtain ⟨b, hb⟩ := ih
    exact ⟨b, Taken.append r.fill_after (Nat.zero_le n) hb⟩

end Bufio
