-- SUMMARY: Byte strings: literals and trimming.
import Mathlib.Data.List.Basic

/-!
# Byte strings

A string of the source is a sequence of bytes, of any values. A literal stands for
its UTF-8 encoding.
-/

abbrev Bytes := List UInt8

def utf8 (s : String) : Bytes := s.toUTF8.data.toList

theorem utf8_injective : Function.Injective utf8 := by
  intro s t h
  have hdata : s.toUTF8.data = t.toUTF8.data := Array.toList_inj.mp h
  exact String.toByteArray_inj.mp (ByteArray.ext hdata)

instance : Coe String Bytes := ⟨utf8⟩

instance : LawfulBEq Bytes := inferInstance

namespace Bytes

/-- The encodings of the characters that Unicode counts as white space. -/
def spaces : List Bytes :=
  [[32], [9], [10], [11], [12], [13], [0xC2, 0x85], [0xC2, 0xA0], [0xE1, 0x9A, 0x80]] ++
    ((List.range 11).map fun i => [0xE2, 0x80, 0x80 + UInt8.ofNat i]) ++
    [[0xE2, 0x80, 0xA8], [0xE2, 0x80, 0xA9], [0xE2, 0x80, 0xAF], [0xE2, 0x81, 0x9F], [0xE3, 0x80, 0x80]]

/-- Drop encodings from the front, at most the given number of them. -/
def dropEncodings (encodings : List Bytes) : Nat → Bytes → Bytes
  | 0, s => s
  | n + 1, s =>
    match encodings.find? (·.isPrefixOf s) with
    | none => s
    | some p => dropEncodings encodings n (s.drop p.length)

def trimLeft (s : Bytes) : Bytes := dropEncodings spaces s.length s

def trimRight (s : Bytes) : Bytes :=
  (dropEncodings (spaces.map List.reverse) s.length s.reverse).reverse

def trimSpace (s : Bytes) : Bytes := trimRight (trimLeft s)

def hexDigits : Bytes := utf8 "0123456789abcdef"

/-- What follows a given start. -/
def cutPrefix (start s : Bytes) : Option Bytes :=
  if start.isPrefixOf s then some (s.drop start.length) else none

/-- What stands before and after the first separator. -/
def cut (sep : UInt8) : Bytes → Option (Bytes × Bytes)
  | [] => none
  | b :: s => if b = sep then some ([], s) else (cut sep s).map fun (before, after) => (b :: before, after)

theorem takeWhile_stop {p : UInt8 → Bool} {s : Bytes} {c : UInt8} (hs : ∀ a ∈ s, p a = true) (hc : p c = false)
    (rest : Bytes) : (s ++ c :: rest).takeWhile p = s ∧ (s ++ c :: rest).dropWhile p = c :: rest := by
  rw [List.takeWhile_append_of_pos hs, List.dropWhile_append_of_pos hs, List.takeWhile_cons_of_neg (by simp [hc]),
    List.dropWhile_cons_of_neg (by simp [hc]), List.append_nil]
  exact ⟨rfl, rfl⟩

theorem cutPrefix_append (start s : Bytes) : cutPrefix start (start ++ s) = some s := by
  simp [cutPrefix]

theorem cut_append {sep : UInt8} {before : Bytes} (h : sep ∉ before) (after : Bytes) :
    cut sep (before ++ sep :: after) = some (before, after) := by
  induction before with
  | nil => simp [cut]
  | cons b before ih =>
    have hb : b ≠ sep := fun hb => h (hb ▸ List.mem_cons_self)
    simp [cut, hb, ih fun hmem => h (List.mem_cons_of_mem _ hmem)]

theorem cut_eq_some {sep : UInt8} {s : Bytes} {parts : Bytes × Bytes} (h : cut sep s = some parts) :
    parts.1 ++ sep :: parts.2 = s := by
  induction s generalizing parts with
  | nil => cases h
  | cons b s ih =>
    rw [cut] at h
    split at h
    next hb =>
      cases h
      simp [hb]
    next =>
      obtain ⟨rest, hrest, rfl⟩ := Option.map_eq_some_iff.mp h
      simp [ih hrest]

/-! ## Trimming -/

/-- A byte that no white space begins or ends with. -/
def Solid (c : UInt8) : Prop := ∀ p ∈ spaces, p.head? ≠ some c ∧ p.getLast? ≠ some c

instance (c : UInt8) : Decidable (Solid c) := inferInstanceAs (Decidable (∀ p ∈ spaces, _))

theorem dropEncodings_stop {encodings : List Bytes} {c : UInt8} (h : ∀ p ∈ encodings, p ≠ [] ∧ p.head? ≠ some c)
    (n : Nat) (s : Bytes) : dropEncodings encodings n (c :: s) = c :: s := by
  cases n with
  | zero => rfl
  | succ n =>
    have hnone : encodings.find? (·.isPrefixOf (c :: s)) = none := by
      rw [List.find?_eq_none]
      intro p hp hpre
      obtain ⟨hne, hhead⟩ := h p hp
      obtain ⟨d, p, rfl⟩ := List.exists_cons_of_ne_nil hne
      simp only [List.isPrefixOf_cons_cons, Bool.and_eq_true, beq_iff_eq] at hpre
      exact hhead (congrArg some hpre.1)
    simp only [dropEncodings, hnone]

theorem reversed_stop {c : UInt8} (h : Solid c) : ∀ p ∈ spaces.map List.reverse, p ≠ [] ∧ p.head? ≠ some c := by
  simp only [List.mem_map]
  rintro _ ⟨p, hp, rfl⟩
  refine ⟨?_, by simpa using (h p hp).2⟩
  simpa using (by decide : ∀ p ∈ spaces, p ≠ []) p hp

/-- Encodings none of which begins with another are dropped one by one. -/
theorem dropEncodings_flatten {encodings : List Bytes} (hcode : ∀ p ∈ encodings, ∀ q ∈ encodings, q <+: p → q = p)
    {ps : List Bytes} (h : ∀ p ∈ ps, p ∈ encodings) {n : Nat} (hn : ps.length ≤ n) (s : Bytes) :
    dropEncodings encodings n (ps.flatten ++ s) = dropEncodings encodings (n - ps.length) s := by
  induction ps generalizing n with
  | nil => rfl
  | cons p ps ih =>
    obtain ⟨hp, hps⟩ := List.forall_mem_cons.mp h
    obtain ⟨n, rfl⟩ : ∃ m, n = m + 1 := ⟨n - 1, by rw [List.length_cons] at hn; omega⟩
    rw [List.flatten_cons, List.append_assoc]
    have hmatch : p <+: p ++ (ps.flatten ++ s) := List.prefix_append ..
    have hfind : encodings.find? (·.isPrefixOf (p ++ (ps.flatten ++ s))) = some p := by
      cases hq : encodings.find? (·.isPrefixOf (p ++ (ps.flatten ++ s))) with
      | none => exact absurd (List.isPrefixOf_iff_prefix.mpr hmatch) (List.find?_eq_none.mp hq p hp)
      | some q =>
        have hpre : q.isPrefixOf (p ++ (ps.flatten ++ s)) = true := by simpa using List.find?_some hq
        have hmem := List.mem_of_find?_eq_some hq
        rcases List.prefix_or_prefix_of_prefix (List.isPrefixOf_iff_prefix.mp hpre) hmatch with hqp | hpq
        · rw [hcode p hp q hmem hqp]
        · rw [hcode q hmem p hp hpq]
    rw [List.length_cons] at hn
    simp only [dropEncodings, hfind, List.drop_left]
    rw [ih hps (by omega), List.length_cons, Nat.add_sub_add_right]

theorem length_le_flatten {ps : List Bytes} (h : ∀ p ∈ ps, p ∈ spaces) : ps.length ≤ ps.flatten.length := by
  induction ps with
  | nil => exact Nat.le_refl _
  | cons p ps ih =>
    obtain ⟨hp, hps⟩ := List.forall_mem_cons.mp h
    have := List.length_pos_of_ne_nil ((by decide : ∀ p ∈ spaces, p ≠ []) p hp)
    have := ih hps
    rw [List.flatten_cons, List.length_append, List.length_cons]
    omega

/-- White space alone is dropped. -/
theorem trimSpace_flatten {ps : List Bytes} (h : ∀ p ∈ ps, p ∈ spaces) : trimSpace ps.flatten = [] := by
  have hnil (n : Nat) : dropEncodings spaces n [] = [] := by cases n <;> rfl
  have hleft : trimLeft ps.flatten = [] := by
    have hdrop := dropEncodings_flatten (by decide) h (length_le_flatten h) []
    rwa [List.append_nil, hnil] at hdrop
  rw [trimSpace, hleft]
  rfl

/-- White space on both sides of a text that begins and ends with none is dropped, and nothing else is. -/
theorem trimSpace_pads {s : Bytes} (hhead : ∃ c ∈ s.head?, Solid c) (hlast : ∃ c ∈ s.getLast?, Solid c)
    (before after : List Bytes) (hbefore : ∀ p ∈ before, p ∈ spaces) (hafter : ∀ p ∈ after, p ∈ spaces) :
    trimSpace (before.flatten ++ s ++ after.flatten) = s := by
  obtain ⟨c, hc, hsolid⟩ := hhead
  obtain ⟨d, hd, hsolid'⟩ := hlast
  obtain ⟨t, rfl⟩ : ∃ t, s = c :: t := List.head?_eq_some_iff.mp hc
  obtain ⟨u, hu⟩ := List.getLast?_eq_some_iff.mp hd
  have hleft : trimLeft (before.flatten ++ (c :: t) ++ after.flatten) = c :: t ++ after.flatten := by
    rw [trimLeft, List.append_assoc, dropEncodings_flatten (by decide) hbefore, List.cons_append,
      dropEncodings_stop fun p hp => ⟨(by decide : ∀ p ∈ spaces, p ≠ []) p hp, (hsolid p hp).1⟩]
    have := length_le_flatten hbefore
    rw [List.length_append]
    omega
  have hreverse : ∀ p ∈ (after.map List.reverse).reverse, p ∈ spaces.map List.reverse := by
    simp only [List.mem_reverse, List.mem_map]
    rintro _ ⟨p, hp, rfl⟩
    exact ⟨p, hafter p hp, rfl⟩
  rw [trimSpace, hleft, hu, trimRight, List.reverse_append, List.reverse_flatten,
    dropEncodings_flatten (by decide) hreverse,
    List.reverse_append, List.reverse_singleton, List.singleton_append, dropEncodings_stop (reversed_stop hsolid')]
  · simp
  · have := length_le_flatten hafter
    simp only [List.length_reverse, List.length_map, List.length_append]
    omega

/-- A text that begins and ends with no space is left as it is. -/
theorem trimSpace_solid {s : Bytes} (hhead : ∃ c ∈ s.head?, Solid c) (hlast : ∃ c ∈ s.getLast?, Solid c) :
    trimSpace s = s := by
  simpa using trimSpace_pads hhead hlast [] [] (by simp) (by simp)

theorem trimSpace_blank {s : Bytes} (hhead : ∃ c ∈ s.head?, Solid c) (hlast : ∃ c ∈ s.getLast?, Solid c) :
    trimSpace (s ++ [32]) = s := by
  simpa using trimSpace_pads hhead hlast [] [[32]] (by simp) (by decide)

theorem trimSpace_cons_blank (s : Bytes) : trimSpace (32 :: s) = trimSpace s := rfl

end Bytes
