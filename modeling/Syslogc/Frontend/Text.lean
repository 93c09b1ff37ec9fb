-- SUMMARY: Texts of the browser as the server gets them.
import Syslogc.Frontend.FilterText
import Syslogc.Lib.Bytes
import Syslogc.Lib.Utf8

/-!
# Texts on both sides

The browser has texts of UTF-16 code units and the server gets their UTF-8 encoding. Both
trim white space, of which the browser knows one character more, the byte order mark.
-/

namespace Syslogc.FilterText

/-! ## Encoding -/

/-- The UTF-8 encoding. A surrogate without its partner is replaced. -/
def encode : Text → Bytes
  | [] => []
  | [u] => Utf8.encodeRune u.toNat
  | u :: v :: t =>
    if 0xD800 ≤ u ∧ u ≤ 0xDBFF ∧ 0xDC00 ≤ v ∧ v ≤ 0xDFFF then
      Utf8.encodeRune (0x10000 + (u.toNat - 0xD800) * 1024 + (v.toNat - 0xDC00)) ++ encode t
    else Utf8.encodeRune u.toNat ++ encode (v :: t)

/-- The characters of a text, if all are ASCII. -/
def ascii (t : Text) : Option Bytes := if t.all (· < 128) then some (t.map UInt16.toUInt8) else none

def ofBytes (s : Bytes) : Text := s.map UInt8.toUInt16

/-! ## Trimming -/

/-- `trim`. -/
def trim (t : Text) : Text := (t.dropWhile isSpace).rdropWhile isSpace

variable {expr : Text} {e : Bytes} {u : UInt16}

/-- Texts of the characters below occur here only. -/
def Simple (u : UInt16) : Prop := u < 0xD800 ∨ u = 0xFEFF

theorem encode_eq_flatMap {t : Text} (h : ∀ u ∈ t, Simple u) :
    encode t = t.flatMap fun u => Utf8.encodeRune u.toNat := by
  induction t with
  | nil => rfl
  | cons u t ih =>
    obtain ⟨hu, ht⟩ := List.forall_mem_cons.mp h
    cases t with
    | nil => simp [encode]
    | cons v t =>
      have hpair : ¬ (0xD800 ≤ u ∧ u ≤ 0xDBFF ∧ 0xDC00 ≤ v ∧ v ≤ 0xDFFF) := by
        rintro ⟨hlow, hhigh, -⟩
        rcases hu with hu | rfl
        · exact absurd hu (UInt16.not_lt.mpr hlow)
        · exact absurd hhigh (by decide)
      rw [encode, if_neg hpair, ih ht]
      rfl

def spaceUnits : List UInt16 :=
  [9, 10, 11, 12, 13, 32, 0xA0, 0x1680, 0x2000, 0x2001, 0x2002, 0x2003, 0x2004, 0x2005, 0x2006, 0x2007, 0x2008, 0x2009,
    0x200A, 0x2028, 0x2029, 0x202F, 0x205F, 0x3000, 0xFEFF]

theorem mem_spaceUnits (h : isSpace u = true) : u ∈ spaceUnits := by
  simp only [isSpace, Bool.or_eq_true, Bool.and_eq_true, decide_eq_true_eq, UInt16.le_iff_toNat_le,
    ← UInt16.toNat_inj] at h
  simp only [spaceUnits, List.mem_cons, ← UInt16.toNat_inj, List.not_mem_nil, or_false]
  simp only [UInt16.reduceToNat] at h ⊢
  omega

theorem simple_of_isSpace (h : isSpace u = true) : Simple u := by
  have hall : spaceUnits.all (fun u => u < 0xD800 || u = 0xFEFF) = true := by decide
  simpa [Simple] using List.all_eq_true.mp hall u (mem_spaceUnits h)

/-- The server knows all white space of the browser but the byte order mark. -/
theorem encodeRune_mem_spaces (h : isSpace u = true) (hmark : u ≠ 0xFEFF) : Utf8.encodeRune u.toNat ∈ Bytes.spaces := by
  have hall : spaceUnits.all (fun u => u = 0xFEFF || Bytes.spaces.contains (Utf8.encodeRune u.toNat)) = true := by
    decide
  simpa [hmark] using List.all_eq_true.mp hall u (mem_spaceUnits h)

theorem encodeRune_ascii (h : u < 128) : Utf8.encodeRune u.toNat = [u.toUInt8] := by
  have hn : u.toNat < 128 := UInt16.lt_iff_toNat_lt.mp h
  rw [Utf8.encodeRune, if_pos hn]
  rfl

theorem solid_of_ascii (h : u < 128) (hspace : isSpace u = false) : Bytes.Solid u.toUInt8 := by
  have hall : ∀ n < 128, isSpace (UInt16.ofNat n) = false → Bytes.Solid (UInt8.ofNat n) := by decide +kernel
  have hn := UInt16.lt_iff_toNat_lt.mp h
  have := hall u.toNat hn (by rwa [UInt16.ofNat_toNat])
  exact this

theorem ascii_eq_some {t : Text} : ascii t = some e ↔ (∀ u ∈ t, u < 128) ∧ t.map UInt16.toUInt8 = e := by
  simp [ascii]

theorem trim_pads (t : Text) : ∃ before after, t = before ++ trim t ++ after ∧
    (∀ u ∈ before, isSpace u = true) ∧ ∀ u ∈ after, isSpace u = true := by
  refine ⟨t.takeWhile isSpace, ((t.dropWhile isSpace).reverse.takeWhile isSpace).reverse, ?_, ?_, ?_⟩
  · rw [trim, List.rdropWhile, List.append_assoc, ← List.reverse_append, List.takeWhile_append_dropWhile,
      List.reverse_reverse, List.takeWhile_append_dropWhile]
  · exact fun u hu => List.mem_takeWhile_imp hu
  · exact fun u hu => List.mem_takeWhile_imp (List.mem_reverse.mp hu)

theorem simple_of_ascii (he : ascii (trim expr) = some e) : ∀ u ∈ expr, Simple u := by
  obtain ⟨before, after, hexpr, hbefore, hafter⟩ := trim_pads expr
  rw [hexpr]
  simp only [List.mem_append]
  rintro u ((hu | hu) | hu)
  · exact simple_of_isSpace (hbefore u hu)
  · exact .inl (UInt16.lt_trans ((ascii_eq_some.mp he).1 u hu) (by decide))
  · exact simple_of_isSpace (hafter u hu)

theorem encode_pads (he : ascii (trim expr) = some e) (hmark : 0xFEFF ∉ expr) : ∃ before after : List Bytes,
    encode expr = before.flatten ++ e ++ after.flatten ∧ (∀ p ∈ before, p ∈ Bytes.spaces) ∧
      ∀ p ∈ after, p ∈ Bytes.spaces := by
  have hencode := encode_eq_flatMap (simple_of_ascii he)
  obtain ⟨hascii, rfl⟩ := ascii_eq_some.mp he
  obtain ⟨before, after, hexpr, hbefore, hafter⟩ := trim_pads expr
  have hmiddle : (trim expr).flatMap (fun u => Utf8.encodeRune u.toNat) = (trim expr).map UInt16.toUInt8 := by
    rw [List.map_eq_flatMap]
    exact List.flatMap_congr fun u hu => encodeRune_ascii (hascii u hu)
  have hspaces {pad : Text} (hpad : ∀ u ∈ pad, isSpace u = true) (hsub : ∀ u ∈ pad, u ∈ expr) :
      ∀ p ∈ pad.map fun u => Utf8.encodeRune u.toNat, p ∈ Bytes.spaces := by
    rintro _ hp
    obtain ⟨u, hu, rfl⟩ := List.mem_map.mp hp
    exact encodeRune_mem_spaces (hpad u hu) fun heq => hmark (heq ▸ hsub u hu)
  refine ⟨_, _, ?_, hspaces hbefore fun u hu => ?_, hspaces hafter fun u hu => ?_⟩
  · calc encode expr
        = (before ++ trim expr ++ after).flatMap fun u => Utf8.encodeRune u.toNat := by rw [← hexpr, hencode]
      _ = _ := by rw [List.flatMap_append, List.flatMap_append, hmiddle, List.flatMap_def, List.flatMap_def]
  · rw [hexpr]
    simp [hu]
  · rw [hexpr]
    simp [hu]

/-- A trimmed text begins and ends with no white space. -/
theorem trim_ends (h : trim expr ≠ []) :
    isSpace ((trim expr).head h) = false ∧ isSpace ((trim expr).getLast h) = false := by
  constructor
  · obtain ⟨rest, hrest⟩ : trim expr <+: expr.dropWhile isSpace := List.rdropWhile_prefix _ _
    have hhead := List.head?_dropWhile_not isSpace expr
    rwa [← hrest, List.head?_append, List.head?_eq_some_head h] at hhead
  · exact Bool.eq_false_of_not_eq_true (List.rdropWhile_last_not isSpace (expr.dropWhile isSpace) h)

/-- The server trims a text to the same characters. -/
theorem trimSpace_encode (he : ascii (trim expr) = some e) (hmark : 0xFEFF ∉ expr) : (encode expr).trimSpace = e := by
  obtain ⟨before, after, hencode, hbefore, hafter⟩ := encode_pads he hmark
  obtain ⟨hascii, rfl⟩ := ascii_eq_some.mp he
  rw [hencode]
  by_cases hne : trim expr = []
  · rw [hne, List.map_nil, List.append_nil, ← List.flatten_append]
    exact Bytes.trimSpace_flatten fun p hp => (List.mem_append.mp hp).elim (hbefore p) (hafter p)
  · obtain ⟨hhead, hlast⟩ := trim_ends hne
    refine Bytes.trimSpace_pads ⟨_, ?_, solid_of_ascii (hascii _ (List.head_mem hne)) hhead⟩
      ⟨_, ?_, solid_of_ascii (hascii _ (List.getLast_mem hne)) hlast⟩ before after hbefore hafter
    · simp [List.head?_eq_some_head hne]
    · simp [List.getLast?_eq_some_getLast hne]

theorem ascii_ofBytes (h : ∀ c ∈ e, c < 128) : ascii (ofBytes e) = some e := by
  refine ascii_eq_some.mpr ⟨fun u hu => ?_, ?_⟩
  · obtain ⟨c, hc, rfl⟩ := List.mem_map.mp hu
    simpa [UInt16.lt_iff_toNat_lt] using UInt8.lt_iff_toNat_lt.mp (h c hc)
  · rw [ofBytes, List.map_map]
    exact List.map_id'' (fun c => by simp) e

theorem ofBytes_of_ascii {t : Text} (h : ascii t = some e) : t = ofBytes e ∧ ∀ c ∈ e, c < 128 := by
  obtain ⟨hascii, rfl⟩ := ascii_eq_some.mp h
  have hsmall : ∀ u ∈ t, u.toNat < 128 := fun u hu => UInt16.lt_iff_toNat_lt.mp (hascii u hu)
  constructor
  · rw [ofBytes, List.map_map]
    symm
    refine (List.map_congr_left fun u hu => ?_).trans t.map_id
    have := hsmall u hu
    rw [← UInt16.toNat_inj]
    simp
    omega
  · intro c hc
    obtain ⟨u, hu, rfl⟩ := List.mem_map.mp hc
    have := hsmall u hu
    rw [UInt8.lt_iff_toNat_lt]
    simp
    omega

end Syslogc.FilterText
