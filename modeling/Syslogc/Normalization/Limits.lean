-- SUMMARY: What the normalizer's limits guarantee of dynamic fields.
import Syslogc.Normalization.Keys

/-!
# Limits of dynamic fields

A value is cut to its limit, and a name is cut before it is moved under `fields.`. So the
names that are moved, and the name that stands for none, can be longer than the limit
allows; and a limit of a single byte is not enforced.
-/

namespace Syslogc.Normalization

open Logentry

/-! ## What is cut -/

theorem truncateUTF8_length (s : Bytes) (max : Nat) : (truncateUTF8 s max).length ≤ max := by
  unfold truncateUTF8
  split
  · assumption
  · exact (List.length_take_le _ _).trans (cutBack_le s max)

/-- A limit of zero or less is none. -/
def Within (s : Bytes) (max : Int) : Prop := 0 < max → (s.length : Int) ≤ max

instance (s : Bytes) (max : Int) : Decidable (Within s max) := inferInstanceAs (Decidable (_ → _))

namespace Normalizer

/-- What the limits and the naming rules promise of a dynamic field. -/
structure Promised (n : Normalizer) (f : Field) : Prop where
  keyLength : Within f.key n.opts.maxFieldNameBytes
  valueLength : Within f.value n.opts.maxFieldValueBytes
  keyValid : Utf8.valid f.key = true
  valueValid : Utf8.valid f.value = true
  notReserved : isReserved f.key = false

/-- The name of a dynamic field keeps to the limit: a name that is moved, or that stands for
none, has room for what is put in front; and a limit of one byte is met by the key itself. -/
def HasRoom (n : Normalizer) (key : Bytes) : Prop :=
  if key = [] then Within (utf8 "fields.empty") n.opts.maxFieldNameBytes
  else if isReserved (n.cutName key) then Within (utf8 "fields." ++ n.cutName key) n.opts.maxFieldNameBytes
  else n.opts.maxFieldNameBytes = 1 → key.length ≤ 1

variable (n : Normalizer)

/-- A name is cut to a limit of two bytes or more. -/
theorem cutName_within {key : Bytes} (h : n.opts.maxFieldNameBytes = 1 → key.length ≤ 1) :
    Within (n.cutName key) n.opts.maxFieldNameBytes := by
  intro hpos
  unfold cutName
  dsimp only
  split
  · have hcut := truncateUTF8_length key (n.opts.maxFieldNameBytes - 1).toNat
    have htilde : (utf8 "~").length = 1 := rfl
    rw [List.length_append, htilde]
    omega
  · rename_i hshort
    simp only [gt_iff_lt, Bool.and_eq_true, decide_eq_true_eq, not_and, not_lt] at hshort
    by_cases hone : n.opts.maxFieldNameBytes = 1
    · have := h hone
      omega
    · exact hshort (by omega)

theorem fieldName_within_iff (key : Bytes) :
    Within (n.fieldName key) n.opts.maxFieldNameBytes ↔ n.HasRoom (validUTF8 key) := by
  unfold fieldName HasRoom
  dsimp only
  split
  · rfl
  · split
    · rfl
    · constructor
      · intro hwithin hone
        have hcut : n.cutName (validUTF8 key) = validUTF8 key := by simp [cutName, hone]
        rw [hcut, hone] at hwithin
        have := hwithin (by decide)
        omega
      · exact n.cutName_within

theorem applyField_value (f : Field) :
    Within (n.applyField f).1.value n.opts.maxFieldValueBytes ∧ Utf8.valid (n.applyField f).1.value = true := by
  have hvalid := valid_validUTF8 f.value
  unfold applyField
  dsimp only
  split
  · refine ⟨fun hpos => ?_, valid_truncateUTF8 hvalid _⟩
    have := truncateUTF8_length (validUTF8 f.value) n.opts.maxFieldValueBytes.toNat
    dsimp only
    omega
  · rename_i hshort
    refine ⟨fun hpos => ?_, hvalid⟩
    simpa [hpos] using hshort

theorem fieldName_not_reserved (key : Bytes) : isReserved (n.fieldName key) = false := by
  obtain ⟨rest, hrest⟩ | hfree := fieldName_cases n key
  · rw [hrest]
    exact fields_not_reserved rest
  · exact hfree

theorem applyField_promised_iff (f : Field) : n.Promised (n.applyField f).1 ↔ n.HasRoom (validUTF8 f.key) := by
  obtain ⟨hlength, hvalid⟩ := n.applyField_value f
  rw [← fieldName_within_iff]
  constructor
  · intro h
    have hkey := h.keyLength
    rwa [applyField_key] at hkey
  · intro h
    have hkey := applyField_key n f
    exact
      { keyLength := hkey ▸ h
        valueLength := hlength
        keyValid := hkey ▸ valid_fieldName n f.key
        valueValid := hvalid
        notReserved := hkey ▸ n.fieldName_not_reserved f.key }

/-- For every entry and every setting of the limits: the dynamic fields of the normalized
entry are as the limits and the naming rules promise if and only if each field that is kept
has room for its name. -/
theorem apply_promised_iff (e : Entry) (src : Source) (m : Meta) :
    (∀ f ∈ (n.apply e src m).fields, n.Promised f) ↔ ∀ f ∈ n.keptFields e.fields, n.HasRoom (validUTF8 f.key) := by
  simp only [apply_fields, List.forall_mem_map, applyField_promised_iff]

/-- Names of 16 bytes at most. -/
def shortNames : Normalizer := ⟨⟨0, 0, 256, 32768, 16⟩, fun _ => []⟩

/-- A reserved name is moved behind a prefix for which the limit has no room. -/
theorem moved_key_too_long :
    ¬∀ f ∈ (shortNames.apply { fields := [⟨utf8 "_transport", utf8 "tcp"⟩] } plainSource
      ⟨[], 0, .invalid, 0, false⟩).fields, shortNames.Promised f := by
  have hfields : (shortNames.apply { fields := [⟨utf8 "_transport", utf8 "tcp"⟩] } plainSource
      ⟨[], 0, .invalid, 0, false⟩).fields = [⟨utf8 "fields._transport", utf8 "tcp"⟩] := by decide
  rw [hfields]
  intro h
  have hlength := (h _ List.mem_cons_self).keyLength
  exact absurd hlength (by decide)

end Normalizer

end Syslogc.Normalization
