-- SUMMARY: UTF-8: encoded characters, stray bytes and their repair.
import Syslogc.Lib.Bytes
import Mathlib

/-!
# UTF-8

`pieces` reads a byte string as Go does: at each position the encoding of a character, or
one byte that is not part of any. What strings are valid, and what becomes of the others,
is said in terms of the pieces; `pieces_induction` is the induction that goes with them.
-/

namespace Utf8

def isCont (b : UInt8) : Bool := 0x80 ≤ b && b ≤ 0xBF

/-- For a first byte of several: how many bytes there are, and the range of the second. -/
def lead (a : UInt8) : Option (Nat × UInt8 × UInt8) :=
  if a < 0xC2 then none
  else if a ≤ 0xDF then some (2, 0x80, 0xBF)
  else if a = 0xE0 then some (3, 0xA0, 0xBF)
  else if a = 0xED then some (3, 0x80, 0x9F)
  else if a ≤ 0xEF then some (3, 0x80, 0xBF)
  else if a = 0xF0 then some (4, 0x90, 0xBF)
  else if a ≤ 0xF3 then some (4, 0x80, 0xBF)
  else if a = 0xF4 then some (4, 0x80, 0x8F)
  else none

/-- The length of the encoded character at the start; nothing where `DecodeRune` answers
`RuneError` and length 1. -/
def runeLength : Bytes → Option Nat
  | [] => none
  | a :: s =>
    if a < 0x80 then some 1
    else
      match lead a with
      | none => none
      | some (n, lo, hi) =>
        if n ≤ s.length + 1 && (s.head?.any fun b => lo ≤ b && b ≤ hi) && (s.take (n - 1)).all isCont then some n
        else none

/-- The encoding of one character. -/
def IsRune (u : Bytes) : Prop := runeLength u = some u.length

variable {a b : UInt8} {s t u : Bytes} {n : Nat}

theorem runeLength_ascii (h : a < 0x80) : runeLength (a :: s) = some 1 := by
  simp [runeLength, h]

theorem lead_length {lo hi : UInt8} (h : lead a = some (n, lo, hi)) : 2 ≤ n ∧ n ≤ 4 := by
  unfold lead at h
  grind

theorem runeLength_eq_some : runeLength (a :: s) = some n ↔ a < 0x80 ∧ n = 1 ∨
    ¬a < 0x80 ∧ ∃ lo hi, lead a = some (n, lo, hi) ∧ n ≤ s.length + 1 ∧ (∃ b, s.head? = some b ∧ lo ≤ b ∧ b ≤ hi) ∧
      ∀ c ∈ s.take (n - 1), isCont c = true := by
  unfold runeLength
  by_cases ha : a < 0x80
  · simp only [ha, if_true, Option.some.injEq, true_and, not_true_eq_false, false_and, or_false]
    exact eq_comm
  · simp only [ha, if_false, false_and, not_false_eq_true, true_and, false_or]
    cases hlead : lead a with
    | none => simp
    | some r =>
      obtain ⟨m, lo, hi⟩ := r
      simp only [Option.some.injEq, Prod.mk.injEq]
      constructor
      · intro h
        split at h
        next hc =>
          cases h
          simp only [Bool.and_eq_true, decide_eq_true_eq, Option.any_eq_true, List.all_eq_true] at hc
          exact ⟨lo, hi, ⟨rfl, rfl, rfl⟩, hc.1.1, hc.1.2, hc.2⟩
        next => cases h
      · rintro ⟨_, _, ⟨rfl, rfl, rfl⟩, hlength, ⟨b, hb, hlo, hhi⟩, hall⟩
        rw [if_pos]
        simp only [Bool.and_eq_true, decide_eq_true_eq, Option.any_eq_true, List.all_eq_true]
        exact ⟨⟨hlength, b, hb, hlo, hhi⟩, hall⟩

theorem runeLength_pos (h : runeLength s = some n) : 0 < n := by
  cases s with
  | nil => cases h
  | cons a s =>
    obtain ⟨-, rfl⟩ | ⟨-, lo, hi, hlead, -⟩ := runeLength_eq_some.mp h
    · exact Nat.one_pos
    · have := lead_length hlead
      omega

theorem runeLength_le (h : runeLength s = some n) : n ≤ s.length := by
  cases s with
  | nil => cases h
  | cons a s =>
    obtain ⟨-, rfl⟩ | ⟨-, lo, hi, -, hlength, -⟩ := runeLength_eq_some.mp h
    · simp
    · simpa using hlength

/-- Only the bytes of the character are read. -/
theorem runeLength_congr (h : runeLength s = some n) (htake : t.take n = s.take n) : runeLength t = some n := by
  have hpos := runeLength_pos h
  have hle := runeLength_le h
  cases s with
  | nil => cases h
  | cons a s =>
    obtain ⟨k, rfl⟩ : ∃ k, n = k + 1 := ⟨n - 1, by omega⟩
    cases t with
    | nil => simp at htake
    | cons c t =>
      simp only [List.take_succ_cons, List.cons.injEq] at htake
      obtain ⟨rfl, htake⟩ := htake
      refine runeLength_eq_some.mpr ?_
      obtain hascii | ⟨ha, lo, hi, hlead, hlength, ⟨b, hb, hrange⟩, hall⟩ := runeLength_eq_some.mp h
      · exact .inl hascii
      · have hk : 0 < k := by
          have := lead_length hlead
          omega
        have hlen := congrArg List.length htake
        simp only [List.length_take] at hlen
        refine .inr ⟨ha, lo, hi, hlead, by simp at hle; omega, ⟨b, ?_, hrange⟩, ?_⟩
        · have hhead := congrArg List.head? htake
          rw [List.head?_take, List.head?_take, if_neg hk.ne', if_neg hk.ne'] at hhead
          rw [hhead, hb]
        · rw [Nat.add_sub_cancel] at hall ⊢
          rw [htake]
          exact hall

theorem IsRune.append (h : IsRune u) (s : Bytes) : runeLength (u ++ s) = some u.length :=
  runeLength_congr h (by simp)

theorem isRune_take (h : runeLength s = some n) : IsRune (s.take n) := by
  have hlength : (s.take n).length = n := by simpa using runeLength_le h
  unfold IsRune
  rw [hlength]
  exact runeLength_congr h (by simp)

theorem isRune_singleton (h : a < 0x80) : IsRune [a] := runeLength_ascii h

theorem IsRune.ne_nil (h : IsRune u) : u ≠ [] := by
  rintro rfl
  cases h

theorem le_of_isCont (h : isCont b = true) : 0x80 ≤ b := by
  simp only [isCont, Bool.and_eq_true, decide_eq_true_eq] at h
  exact h.1

/-- A character is one ASCII byte, or several bytes that are none. -/
theorem IsRune.ascii_or (h : IsRune u) : (∃ a, u = [a] ∧ a < 0x80) ∨ ∀ c ∈ u, 0x80 ≤ c := by
  cases u with
  | nil => cases h
  | cons a s =>
    obtain ⟨ha, hn⟩ | ⟨ha, lo, hi, -, -, -, hall⟩ := runeLength_eq_some.mp h
    · left
      refine ⟨a, ?_, ha⟩
      simpa using hn
    · right
      intro c hc
      obtain rfl | hc := List.mem_cons.mp hc
      · simpa using ha
      · exact le_of_isCont (hall c (by simpa using hc))

/-- A byte that starts no character does not start one because of an ASCII byte further on. -/
theorem runeLength_append_ascii (h : runeLength (b :: s) = none) (ha : a < 0x80) (t : Bytes) :
    runeLength (b :: s ++ a :: t) = none := by
  cases hlong : runeLength (b :: s ++ a :: t) with
  | none => rfl
  | some n =>
    by_cases hn : n ≤ s.length + 1
    · have hshort : runeLength (b :: s) = some n := by
        refine runeLength_congr hlong ?_
        rw [List.take_append_of_le_length (by simpa using hn)]
      cases h.symm.trans hshort
    · -- The ASCII byte would be one of the bytes that continue the character.
      exfalso
      rw [List.cons_append] at hlong
      obtain ⟨-, rfl⟩ | ⟨-, lo, hi, -, -, -, hall⟩ := runeLength_eq_some.mp hlong
      · omega
      · have hmem : a ∈ (s ++ a :: t).take (n - 1) := by
          rw [List.take_append]
          apply List.mem_append_right
          obtain ⟨k, hk⟩ : ∃ k, n - 1 - s.length = k + 1 := ⟨n - 2 - s.length, by omega⟩
          simp [hk]
        exact absurd (le_of_isCont (hall a hmem)) (by simpa using ha)

/-- Go's `utf8.AppendRune`, of a code point: U+FFFD for those that stand for no character. -/
def encodeRune (r : Nat) : Bytes :=
  if r < 0x80 then [UInt8.ofNat r]
  else if r < 0x800 then [UInt8.ofNat (0xC0 + r / 64), UInt8.ofNat (0x80 + r % 64)]
  else if 0xD800 ≤ r ∧ r ≤ 0xDFFF ∨ 0x10FFFF < r then [0xEF, 0xBF, 0xBD]
  else if r < 0x10000 then
    [UInt8.ofNat (0xE0 + r / 4096), UInt8.ofNat (0x80 + r / 64 % 64), UInt8.ofNat (0x80 + r % 64)]
  else
    [UInt8.ofNat (0xF0 + r / 262144), UInt8.ofNat (0x80 + r / 4096 % 64), UInt8.ofNat (0x80 + r / 64 % 64),
      UInt8.ofNat (0x80 + r % 64)]

theorem encodeRune_length_le (r : Nat) : (encodeRune r).length ≤ 4 := by
  unfold encodeRune
  grind

/-! ## Pieces -/

inductive Piece where
  /-- An encoded character. -/
  | rune (bytes : Bytes)
  /-- A byte that is not part of valid UTF-8. -/
  | stray (byte : UInt8)
deriving DecidableEq, Repr

/-- The pieces of a string, of which the given number of bytes belong to a character that
was read before. -/
def piecesFrom : Nat → Bytes → List Piece
  | _, [] => []
  | k + 1, _ :: s => piecesFrom k s
  | 0, b :: s =>
    match runeLength (b :: s) with
    | none => .stray b :: piecesFrom 0 s
    | some n => .rune ((b :: s).take n) :: piecesFrom (n - 1) s

def pieces (s : Bytes) : List Piece := piecesFrom 0 s

theorem piecesFrom_append (u s : Bytes) : piecesFrom u.length (u ++ s) = pieces s := by
  induction u with
  | nil => rfl
  | cons a u ih => exact ih

theorem pieces_rune (h : IsRune u) (s : Bytes) : pieces (u ++ s) = .rune u :: pieces s := by
  have hlength := h.append s
  cases u with
  | nil => cases h
  | cons a u =>
    rw [pieces, List.cons_append, piecesFrom, ← List.cons_append, hlength]
    simp only [List.take_left]
    rw [List.length_cons, Nat.add_sub_cancel, piecesFrom_append]

theorem pieces_stray (h : runeLength (b :: s) = none) : pieces (b :: s) = .stray b :: pieces s := by
  rw [pieces, piecesFrom, h]
  rfl

/-- A string is empty, or starts with a character or with a stray byte. -/
theorem pieces_induction {P : Bytes → Prop} (nil : P []) (rune : ∀ u s, IsRune u → P s → P (u ++ s))
    (stray : ∀ b s, runeLength (b :: s) = none → P s → P (b :: s)) (s : Bytes) : P s := by
  obtain ⟨n, hn⟩ : ∃ n, s.length ≤ n := ⟨_, le_rfl⟩
  induction n generalizing s with
  | zero =>
    obtain rfl : s = [] := List.length_eq_zero_iff.mp (by omega)
    exact nil
  | succ n ih =>
    cases s with
    | nil => exact nil
    | cons b s =>
      cases hlength : runeLength (b :: s) with
      | none => exact stray b s hlength (ih s (by simpa using hn))
      | some k =>
        have hpos := runeLength_pos hlength
        rw [← List.take_append_drop k (b :: s)]
        refine rune _ _ (isRune_take hlength) (ih _ ?_)
        simp only [List.length_drop, List.length_cons] at hn ⊢
        omega

theorem isRune_of_mem_pieces (h : .rune u ∈ pieces s) : IsRune u := by
  induction s using pieces_induction with
  | nil => cases h
  | rune v s hv ih =>
    rw [pieces_rune hv] at h
    obtain heq | h := List.mem_cons.mp h
    · cases heq
      exact hv
    · exact ih h
  | stray b s hb ih =>
    rw [pieces_stray hb] at h
    obtain heq | h := List.mem_cons.mp h
    · cases heq
    · exact ih h

/-- An ASCII byte separates: what stands before it is read on its own. -/
theorem pieces_append_ascii (ha : a < 0x80) (s t : Bytes) : pieces (s ++ a :: t) = pieces s ++ pieces (a :: t) := by
  induction s using pieces_induction with
  | nil => rfl
  | rune u s hu ih => rw [List.append_assoc, pieces_rune hu, pieces_rune hu, ih, List.cons_append]
  | stray b s hb ih =>
    have hlong := runeLength_append_ascii hb ha t
    rw [List.cons_append] at hlong ⊢
    rw [pieces_stray hlong, pieces_stray hb, ih, List.cons_append]

/-! ## Valid strings -/

def Piece.isRune : Piece → Bool
  | .rune _ => true
  | .stray _ => false

/-- Go's `utf8.ValidString`. -/
def valid (s : Bytes) : Bool := (pieces s).all Piece.isRune

/-- The encoding of U+FFFD. -/
def replacement : Bytes := [0xEF, 0xBF, 0xBD]

theorem isRune_replacement : IsRune replacement := show runeLength replacement = some 3 by decide

def Piece.repaired : Piece → Bytes
  | .rune u => u
  | .stray _ => replacement

/-- Each stray byte is replaced by U+FFFD. -/
def sanitize (s : Bytes) : Bytes := (pieces s).flatMap Piece.repaired

theorem sanitize_rune (h : IsRune u) (s : Bytes) : sanitize (u ++ s) = u ++ sanitize s := by
  rw [sanitize, pieces_rune h]
  rfl

theorem sanitize_stray (h : runeLength (b :: s) = none) : sanitize (b :: s) = replacement ++ sanitize s := by
  rw [sanitize, pieces_stray h]
  rfl

theorem valid_rune (h : IsRune u) (s : Bytes) : valid (u ++ s) = valid s := by
  rw [valid, pieces_rune h]
  rfl

theorem valid_stray (h : runeLength (b :: s) = none) : valid (b :: s) = false := by
  rw [valid, pieces_stray h]
  rfl

theorem valid_ascii (h : a < 0x80) (s : Bytes) : valid (a :: s) = valid s := valid_rune (isRune_singleton h) s

theorem sanitize_of_valid (h : valid s = true) : sanitize s = s := by
  induction s using pieces_induction with
  | nil => rfl
  | rune u s hu ih =>
    rw [valid_rune hu] at h
    rw [sanitize_rune hu, ih h]
  | stray b s hb ih =>
    rw [valid_stray hb] at h
    cases h

theorem length_le_sanitize (s : Bytes) : s.length ≤ (sanitize s).length := by
  induction s using pieces_induction with
  | nil => exact le_rfl
  | rune u s hu ih =>
    rw [sanitize_rune hu, List.length_append, List.length_append]
    omega
  | stray b s hb ih =>
    rw [sanitize_stray hb, List.length_append, List.length_cons]
    simp only [replacement, List.length_cons, List.length_nil]
    omega

theorem valid_append_ascii (ha : a < 0x80) (s t : Bytes) : valid (s ++ a :: t) = (valid s && valid t) := by
  rw [valid, pieces_append_ascii ha, List.all_append, ← valid, ← valid, valid_ascii ha]

theorem valid_of_ascii (h : ∀ c ∈ s, c < 0x80) : valid s = true := by
  induction s with
  | nil => rfl
  | cons c s ih =>
    rw [valid_ascii (h c List.mem_cons_self)]
    exact ih fun c' hc' => h c' (List.mem_cons_of_mem c hc')

/-- The pieces, with each run of stray bytes replaced by one U+FFFD. A run may have begun
before. -/
def repairRuns : Bool → List Piece → Bytes
  | _, [] => []
  | _, .rune u :: ps => u ++ repairRuns false ps
  | false, .stray _ :: ps => replacement ++ repairRuns true ps
  | true, .stray _ :: ps => repairRuns true ps

/-- Go's `strings.ToValidUTF8` with U+FFFD. -/
def toValidUTF8 (s : Bytes) : Bytes := repairRuns false (pieces s)

theorem valid_repairRuns {ps : List Piece} (h : ∀ u, .rune u ∈ ps → IsRune u) (run : Bool) :
    valid (repairRuns run ps) = true := by
  induction ps generalizing run with
  | nil => rfl
  | cons p ps ih =>
    have hrest := ih fun u hu => h u (List.mem_cons_of_mem p hu)
    cases p with
    | rune u => rw [repairRuns, valid_rune (h u List.mem_cons_self), hrest]
    | stray b =>
      cases run with
      | false => rw [repairRuns, valid_rune isRune_replacement, hrest]
      | true => rw [repairRuns, hrest]

theorem valid_toValidUTF8 (s : Bytes) : valid (toValidUTF8 s) = true :=
  valid_repairRuns (fun _ hu => isRune_of_mem_pieces hu) false

theorem toValidUTF8_of_valid (h : valid s = true) : toValidUTF8 s = s := by
  unfold toValidUTF8
  induction s using pieces_induction with
  | nil => rfl
  | rune u s hu ih =>
    rw [valid_rune hu] at h
    rw [pieces_rune hu, repairRuns, ih h]
  | stray b s hb ih =>
    rw [valid_stray hb] at h
    cases h

theorem valid_append (hs : valid s = true) (t : Bytes) : valid (s ++ t) = valid t := by
  induction s using pieces_induction with
  | nil => rfl
  | rune u s hu ih =>
    rw [valid_rune hu] at hs
    rw [List.append_assoc, valid_rune hu, ih hs]
  | stray b s hb ih =>
    rw [valid_stray hb] at hs
    cases hs

theorem sanitize_append_of_valid (hs : valid s = true) (t : Bytes) : sanitize (s ++ t) = s ++ sanitize t := by
  induction s using pieces_induction with
  | nil => rfl
  | rune u s hu ih =>
    rw [valid_rune hu] at hs
    rw [List.append_assoc, sanitize_rune hu, ih hs, List.append_assoc]
  | stray b s hb ih =>
    rw [valid_stray hb] at hs
    cases hs

/-! ## Cutting a string -/

/-- Go's `utf8.RuneStart`. -/
def runeStart (b : UInt8) : Bool := b &&& 0xC0 ≠ 0x80

theorem runeStart_eq (b : UInt8) : runeStart b = !isCont b := by
  have hall : ∀ k < 256, runeStart (UInt8.ofNat k) = !isCont (UInt8.ofNat k) := by decide +kernel
  have hk := hall b.toNat b.toNat_lt
  rwa [UInt8.ofNat_toNat] at hk

theorem IsRune.isCont_of_mem_tail (h : IsRune (a :: u)) : ∀ c ∈ u, isCont c = true := by
  intro c hc
  obtain ⟨-, hlength⟩ | ⟨-, lo, hi, -, -, -, hall⟩ := runeLength_eq_some.mp h
  · have hu : u = [] := by simpa using hlength
    rw [hu] at hc
    cases hc
  · exact hall c (by simpa using hc)

/-- A valid string that is cut before the first byte of a character stays valid. -/
theorem valid_take (hs : valid s = true) (hn : n = 0 ∨ ∃ c, s[n]? = some c ∧ runeStart c = true) :
    valid (s.take n) = true := by
  induction s using pieces_induction generalizing n with
  | nil => rw [List.take_nil, hs]
  | rune u s hu ih =>
    rw [valid_rune hu] at hs
    obtain rfl | ⟨c, hc, hstart⟩ := hn
    · rfl
    · by_cases hle : u.length ≤ n
      · rw [List.take_append, List.take_of_length_le hle, valid_rune hu]
        rw [List.getElem?_append_right hle] at hc
        exact ih hs (.inr ⟨c, hc, hstart⟩)
      · cases u with
        | nil => cases hu
        | cons a u =>
          cases n with
          | zero => rfl
          | succ n =>
            rw [List.getElem?_append_left (by omega), List.getElem?_cons_succ] at hc
            have hcont := hu.isCont_of_mem_tail c (List.mem_of_getElem? hc)
            rw [runeStart_eq, hcont] at hstart
            cases hstart
  | stray b s hb ih =>
    rw [valid_stray hb] at hs
    cases hs

theorem runeStart_of_valid (h : valid (b :: s) = true) : runeStart b = true := by
  rw [runeStart_eq, Bool.not_eq_true', ← Bool.not_eq_true]
  intro hcont
  have hbounds : 0x80 ≤ b ∧ b ≤ 0xBF := by simpa [isCont] using hcont
  have hstray : runeLength (b :: s) = none := by
    cases hlength : runeLength (b :: s) with
    | none => rfl
    | some n =>
      obtain ⟨hascii, -⟩ | ⟨-, lo, hi, hlead, -⟩ := runeLength_eq_some.mp hlength
      · exact absurd hascii (by simpa using hbounds.1)
      · have hlow : b < 0xC2 := UInt8.lt_of_le_of_lt hbounds.2 (by decide)
        simp [lead, hlow] at hlead
  rw [valid_stray hstray] at h
  cases h

/-- Where a valid string is cut into valid ones, a character starts. -/
theorem runeStart_of_valid_take (hs : valid s = true) (htake : valid (s.take n) = true) (hn : n < s.length) :
    runeStart (s.getD n 0) = true := by
  rw [List.getD_eq_getElem _ _ hn]
  rw [← List.take_append_drop n s, valid_append htake, List.drop_eq_getElem_cons hn] at hs
  exact runeStart_of_valid hs

end Utf8
