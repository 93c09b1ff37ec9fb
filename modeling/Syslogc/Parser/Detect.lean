-- SUMMARY: The priority of a message, and its format.
import Syslogc.Lib.Checked
import Syslogc.Parser.Rfc5424

/-!
# Detection of the format

The definitions in `Positional` hold positions, as the source does, and check every index
and slice. Those of `Parser` hold what is left of the message. The first give what the
second give, and never go wrong.
-/

namespace Syslogc.Parser

open Logentry Decimal Checked

/-- The format that the first bytes of a message suggest. -/
def detect (data : Bytes) : Format :=
  match data with
  | [] => .unknown
  | c :: _ =>
    if c = 123 || c = 91 then .json
    else
      match parsePRI data with
      | some (_, 49 :: 32 :: _) => .rfc5424
      | _ => .rfc3164

namespace Positional

/-- The digits of a priority: their value, and the position behind them. -/
def priDigits (data : Bytes) : Checked (Nat × Nat) :=
  foldTo isDigit (fun pri c => pri * 10 + (c.toNat - 48)) data 5 0 1

/-- A leading priority, and the number of its bytes. -/
def parsePRI (data : Bytes) : Checked (Option (Nat × Nat)) :=
  if data.length < 3 then pure none
  else do
    let c ← index data 0
    if c ≠ 60 then pure none
    else do
      let (pri, i) ← priDigits data
      if i = 1 || i > 4 || i ≥ data.length then pure none
      else do
        let c ← index data i
        if c ≠ 62 || pri > 191 then pure none else pure (some (pri, i + 1))

def detect (data : Bytes) : Checked Format :=
  if data = [] then pure .unknown
  else do
    let c ← index data 0
    if c = 123 || c = 91 then pure .json
    else if c = 60 then do
      match ← parsePRI data with
      | none => pure .rfc3164
      | some (_, n) =>
        let rest ← suffix data n
        if rest.length < 2 then pure .rfc3164
        else do
          let version ← index rest 0
          if version ≠ 49 then pure .rfc3164
          else do
            let space ← index rest 1
            if space ≠ 32 then pure .rfc3164 else pure .rfc5424
    else pure .rfc3164

end Positional

/-! ## The priority -/

/-- How a message with a priority is written. -/
theorem parsePRI_eq_some {data rest : Bytes} {pri : Nat} (h : parsePRI data = some (pri, rest)) :
    ∃ digits, data = 60 :: (digits ++ 62 :: rest) ∧ digits ≠ [] ∧ digits.length ≤ 3 ∧
      (∀ c ∈ digits, isDigit c = true) ∧ pri = digitsValue digits ∧ pri ≤ 191 := by
  unfold parsePRI at h
  split at h
  · cases h
  · rename_i c t
    split_ifs at h with hstart
    simp only [Bool.or_eq_true, decide_eq_true_eq, not_or, not_not] at hstart
    obtain ⟨-, rfl⟩ := hstart
    dsimp only at h
    split at h
    · cases h
    · rename_i c after hdrop
      split_ifs at h with hbad
      simp only [Bool.or_eq_true, decide_eq_true_eq, not_or, not_not, not_lt] at hbad
      cases h
      obtain ⟨⟨⟨hne, hlength⟩, rfl⟩, hvalue⟩ := hbad
      refine ⟨_, ?_, hne, by omega, fun c hc => List.mem_takeWhile_imp hc, rfl, by omega⟩
      have hstart : (t.take 4).takeWhile isDigit <+: t := (List.takeWhile_prefix _).trans (List.take_prefix _ _)
      rw [← hdrop]
      exact congrArg (60 :: ·) (List.prefix_iff_eq_append.mp hstart).symm

theorem parsePRI_suffix {data rest : Bytes} {pri : Nat} (h : parsePRI data = some (pri, rest)) : rest <:+ data := by
  obtain ⟨digits, rfl, -⟩ := parsePRI_eq_some h
  exact ⟨60 :: (digits ++ [62]), by simp⟩

namespace Positional

theorem priDigits_eq (c : UInt8) (t : Bytes) : priDigits (c :: t) =
    .ok (digitsValue ((t.take 4).takeWhile isDigit), 1 + ((t.take 4).takeWhile isDigit).length) :=
  foldTo_eq isDigit _ (c :: t) 5 0 1

/-- The position behind a priority is where the rest starts. -/
theorem parsePRI_eq (data : Bytes) :
    parsePRI data = .ok ((Parser.parsePRI data).map fun p => (p.1, data.length - p.2.length)) := by
  cases data with
  | nil => rfl
  | cons c t =>
    unfold parsePRI Parser.parsePRI
    by_cases hlen : (c :: t).length < 3
    · simp only [hlen, if_true, decide_true, Bool.true_or, Option.map_none]
      rfl
    have hindex : index (c :: t) 0 = .ok c := rfl
    simp only [hlen, hindex, bind, Except.bind, if_false, decide_false, Bool.false_or, decide_eq_true_eq]
    by_cases hc : c = 60
    · simp only [hc, ne_eq, not_true_eq_false, if_false, priDigits_eq]
      generalize hdigits : (t.take 4).takeWhile isDigit = digits
      have hle : digits.length ≤ 4 := by
        rw [← hdigits]
        exact (List.takeWhile_sublist _).length_le.trans (List.length_take_le _ _)
      cases hdrop : t.drop digits.length with
      | nil =>
        have hend : t.length ≤ digits.length := List.drop_eq_nil_iff.mp hdrop
        have hcond : (60 :: t).length ≤ 1 + digits.length := by simp only [List.length_cons]; omega
        simp only [ge_iff_le, hcond, decide_true, Bool.or_true, if_true, Option.map_none]
        rfl
      | cons d after =>
        have hlt : digits.length < t.length := by
          by_contra hge
          rw [List.drop_eq_nil_of_le (Nat.le_of_not_lt hge)] at hdrop
          cases hdrop
        have hindex : index (60 :: t) (1 + digits.length) = .ok d := by
          have hat : (60 :: t).drop (1 + digits.length) = d :: after := by rw [Nat.add_comm]; exact hdrop
          exact index_of_drop hat
        have hcond : ¬(60 :: t).length ≤ 1 + digits.length := by simp only [List.length_cons]; omega
        have hafter := congrArg List.length hdrop
        simp only [List.length_drop, List.length_cons] at hafter
        by_cases hbad : digits = [] ∨ 3 < digits.length
        · have hshort : (decide (1 + digits.length = 1) || decide (1 + digits.length > 4)) = true := by
            rcases hbad with rfl | hlong
            · rfl
            · simp only [Bool.or_eq_true, decide_eq_true_eq]
              omega
          have hpure : (decide (digits = []) || decide (digits.length > 3)) = true := by
            simpa using hbad
          simp only [hshort, hpure, Bool.true_or, if_true, Option.map_none]
          rfl
        · rw [not_or, not_lt, ← List.length_eq_zero_iff] at hbad
          have hgood : (decide (1 + digits.length = 1) || decide (1 + digits.length > 4) ||
              decide (1 + digits.length ≥ (60 :: t).length)) = false := by
            simp only [Bool.or_eq_false_iff, decide_eq_false_iff_not]
            omega
          have hpure : (decide (digits = []) || decide (digits.length > 3)) = false := by
            simp only [Bool.or_eq_false_iff, decide_eq_false_iff_not, ← List.length_eq_zero_iff]
            omega
          have hposition : 1 + digits.length + 1 = (60 :: t).length - after.length := by
            simp only [List.length_cons]
            omega
          simp only [hgood, hpure, Bool.false_or, Bool.false_eq_true, if_false, hindex, hposition]
          split <;> rfl
    · simp only [hc, ne_eq, not_false_eq_true, if_true, Option.map_none]
      rfl

/-- What follows a priority, from its position on. -/
theorem suffix_parsePRI {data rest : Bytes} {pri : Nat} (h : Parser.parsePRI data = some (pri, rest)) :
    suffix data (data.length - rest.length) = .ok rest := by
  rw [suffix_of_le (Nat.sub_le _ _)]
  exact congrArg _ (drop_posOf (parsePRI_suffix h))

theorem detect_eq (data : Bytes) : detect data = .ok (Parser.detect data) := by
  cases data with
  | nil => rfl
  | cons c t =>
    have hindex : index (c :: t) 0 = .ok c := rfl
    unfold detect Parser.detect
    simp only [reduceCtorEq, if_false, hindex, bind, Except.bind]
    split
    · rfl
    · by_cases hc : c = 60
      · rw [if_pos hc, parsePRI_eq]
        cases hpri : Parser.parsePRI (c :: t) with
        | none => rfl
        | some p =>
          obtain ⟨pri, rest⟩ := p
          simp only [Option.map_some, suffix_parsePRI hpri]
          match rest with
          | [] => rfl
          | [_] => simp [pure, Except.pure]
          | version :: space :: rest =>
            have hversion : index (version :: space :: rest) 0 = .ok version := rfl
            have hspace : index (version :: space :: rest) 1 = .ok space := rfl
            simp only [hversion, hspace, List.length_cons]
            rw [if_neg (by omega)]
            by_cases hv : version = 49
            · by_cases hs : space = 32
              · subst hv hs
                rfl
              · simp [hv, hs, pure, Except.pure]
            · simp [hv, pure, Except.pure]
      · have hpri : Parser.parsePRI (c :: t) = none := by
          simp [Parser.parsePRI, hc]
        rw [if_neg hc, hpri]
        rfl

end Positional

end Syslogc.Parser
