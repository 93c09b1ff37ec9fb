-- SUMMARY: Numbers as text, and reading digits back.
import Syslogc.Lib.Bytes
import Mathlib

/-!
# Numbers as text
-/

namespace Decimal

/-- A number in a base of at most 16, with small letters. -/
def inBase (base n : Nat) : Bytes := (Nat.toDigits base n).map fun c => UInt8.ofNat c.toNat

def text (n : Nat) : Bytes := inBase 10 n

/-- Go's `strconv.Itoa`. -/
def intText (i : Int) : Bytes := if i < 0 then 45 :: text i.natAbs else text i.natAbs

/-- With zeros in front, up to a width. -/
def padded (width n : Nat) : Bytes := List.replicate (width - (text n).length) 48 ++ text n

def isDigit (c : UInt8) : Bool := 48 ≤ c && c ≤ 57

/-- A digit, or a small letter up to f. -/
def isHexDigit (c : UInt8) : Bool := isDigit c || (97 ≤ c && c ≤ 102)

/-- The number that decimal digits write. -/
def ofDigits (s : Bytes) : Nat := s.foldl (fun n c => 10 * n + (c.toNat - 48)) 0

/-- The sign of a number and what follows it. -/
def cutSign : Bytes → Bool × Bytes
  | 43 :: s => (false, s)
  | 45 :: s => (true, s)
  | s => (false, s)

/-- Go's `strconv.ParseInt` for base 10 and 64 bits. -/
def parseInt64 (s : Bytes) : Option Int :=
  let (negative, digits) := cutSign s
  let i : Int := if negative then -ofDigits digits else ofDigits digits
  if digits ≠ [] ∧ digits.all isDigit ∧ -2 ^ 63 ≤ i ∧ i < 2 ^ 63 then some i else none

variable {c : UInt8} {n width : Nat} {i : Int}

theorem digitChar_of_mem {base : Nat} (hbase : 1 < base) {ch : Char} (h : ch ∈ Nat.toDigits base n) :
    ∃ d < base, ch = d.digitChar := by
  induction n using Nat.strong_induction_on with
  | _ n ih =>
    by_cases hn : n < base
    · rw [Nat.toDigits_of_lt_base hn, List.mem_singleton] at h
      exact ⟨n, hn, h⟩
    · rw [Nat.toDigits_of_base_le hbase (not_lt.mp hn)] at h
      obtain h | h := List.mem_append.mp h
      · exact ih (n / base) (Nat.div_lt_self (by omega) hbase) h
      · exact ⟨n % base, Nat.mod_lt n (by omega), List.mem_singleton.mp h⟩

theorem isDigit_of_mem_text (h : c ∈ text n) : isDigit c = true := by
  obtain ⟨ch, hch, rfl⟩ := List.mem_map.mp h
  obtain ⟨d, hd, rfl⟩ := digitChar_of_mem (by decide) hch
  interval_cases d <;> decide

/-- A number has no zeros in front. -/
theorem text_eq_cons (h : n ≠ 0) : ∃ c ds, text n = c :: ds ∧ c ≠ 48 := by
  induction n using Nat.strong_induction_on with
  | _ n ih =>
    by_cases hn : n < 10
    · refine ⟨UInt8.ofNat n.digitChar.toNat, [], ?_, ?_⟩
      · rw [text, inBase, Nat.toDigits_of_lt_base hn]
        rfl
      · interval_cases n <;> simp_all <;> decide
    · obtain ⟨c, ds, htext, hc⟩ := ih (n / 10) (by omega) (by omega)
      rw [text, inBase, Nat.toDigits_of_base_le (by decide) (by omega), List.map_append, ← inBase, ← text, htext]
      exact ⟨c, _, rfl, hc⟩

theorem text_ne_nil (n : Nat) : text n ≠ [] := by
  by_cases hn : n = 0
  · subst hn
    decide
  · obtain ⟨c, ds, htext, -⟩ := text_eq_cons hn
    simp [htext]

theorem isHexDigit_of_mem_inBase (h : c ∈ inBase 16 n) : isHexDigit c = true := by
  obtain ⟨ch, hch, rfl⟩ := List.mem_map.mp h
  obtain ⟨d, hd, rfl⟩ := digitChar_of_mem (by decide) hch
  interval_cases d <;> decide

theorem isDigit_of_mem_padded (h : c ∈ padded width n) : isDigit c = true := by
  obtain h | h := List.mem_append.mp h
  · rw [List.eq_of_mem_replicate h]
    rfl
  · exact isDigit_of_mem_text h

end Decimal
