-- SUMMARY: Repeated parameters become a JSON array.
import Syslogc.Parser.StructuredData
import Syslogc.Lib.JsonArray

/-!
# Repeated parameters

The values of a repeated parameter are put together one by one, and whether a field is an
array already is told from its text. So a first value that looks like an array is taken for
one. What is written is read back strictly: a string must be valid UTF-8.
-/

namespace Syslogc.Parser.Rfc5424

open Logentry Json
open Bytes (hexDigits)

/-! ## Strings as they are written -/

/-- What `writeJSONString` sets between quotes. -/
def jsonText (s : Bytes) : Bytes := s.flatMap jsonByte

theorem writeJSONString_eq (s : Bytes) : writeJSONString s = quote :: (jsonText s ++ [quote]) := rfl

/-- A byte as an item of a string. -/
def jsonItem (c : UInt8) : Item :=
  if c = 34 || c = 92 then .escape c
  else if c < 0x20 then .unit [48, 48, hexDigits.getD (c.toNat / 16) 0, hexDigits.getD (c.toNat % 16) 0]
  else .raw [c]

theorem jsonItem_text (c : UInt8) : (jsonItem c).text = jsonByte c := by
  unfold jsonItem jsonByte
  split
  · rfl
  · split <;> rfl

/-- A control character is written as its number. -/
theorem control_unit {c : UInt8} (h : c < 0x20) :
    (Item.unit [48, 48, hexDigits.getD (c.toNat / 16) 0, hexDigits.getD (c.toNat % 16) 0]).Proper ∧
      hexValue [48, 48, hexDigits.getD (c.toNat / 16) 0, hexDigits.getD (c.toNat % 16) 0] < 0xD800 ∧
      Utf8.encodeRune (hexValue [48, 48, hexDigits.getD (c.toNat / 16) 0, hexDigits.getD (c.toNat % 16) 0]) = [c] := by
  have hall : ∀ n < 32,
      (∀ b ∈ [48, 48, hexDigits.getD (n / 16) 0, hexDigits.getD (n % 16) 0], isHex b = true) ∧
        hexValue [48, 48, hexDigits.getD (n / 16) 0, hexDigits.getD (n % 16) 0] < 0xD800 ∧
        Utf8.encodeRune (hexValue [48, 48, hexDigits.getD (n / 16) 0, hexDigits.getD (n % 16) 0]) =
          [UInt8.ofNat n] := by
    decide +kernel
  have hc := hall c.toNat (UInt8.lt_iff_toNat_lt.mp h)
  rw [UInt8.ofNat_toNat] at hc
  exact ⟨⟨rfl, hc.1⟩, hc.2⟩

theorem jsonItem_proper {c : UInt8} (h : c < 0x80) :
    (jsonItem c).Proper ∧ ∀ is, render (jsonItem c :: is) = [c] ++ render is := by
  unfold jsonItem
  split
  · rename_i hspecial
    have hescaped : escaped c = some c := by
      simp only [Bool.or_eq_true, decide_eq_true_eq] at hspecial
      obtain rfl | rfl := hspecial <;> decide
    refine ⟨by rw [Item.Proper, hescaped]; rfl, fun is => ?_⟩
    rw [render, hescaped]
    rfl
  · rename_i hplain
    split
    · rename_i hcontrol
      obtain ⟨hproper, hsmall, hrune⟩ := control_unit hcontrol
      refine ⟨hproper, fun is => ?_⟩
      rw [render_unit hsmall, hrune]
    · rename_i hvisible
      simp only [Bool.or_eq_true, decide_eq_true_eq, not_or] at hplain
      refine ⟨⟨Utf8.isRune_singleton h, ?_⟩, fun is => rfl⟩
      intro b hb
      rw [List.mem_singleton.mp hb]
      exact ⟨UInt8.not_lt.mp hvisible, hplain.1, hplain.2⟩

/-- Bytes that are not ASCII are written as they are. -/
theorem jsonText_high {u : Bytes} (h : ∀ c ∈ u, 0x80 ≤ c) : jsonText u = u := by
  induction u with
  | nil => rfl
  | cons c u ih =>
    rw [List.forall_mem_cons] at h
    obtain ⟨hspace, hquote, hback⟩ := unescaped_of_high h.1
    have hbyte : jsonByte c = [c] := by
      have hnot : ¬ c < 0x20 := UInt8.not_lt.mpr hspace
      unfold jsonByte
      rw [if_neg, if_neg hnot]
      simp only [Bool.or_eq_true, decide_eq_true_eq, not_or]
      exact ⟨hquote, hback⟩
    rw [jsonText, List.flatMap_cons, hbyte, ← jsonText, ih h.2]
    rfl

theorem jsonText_append (s t : Bytes) : jsonText (s ++ t) = jsonText s ++ jsonText t := List.flatMap_append

theorem jsonByte_ascii {c : UInt8} (h : c < 0x80) : ∃ b t, jsonByte c = b :: t ∧ b < 0x80 := by
  unfold jsonByte
  split
  · exact ⟨92, _, rfl, by decide⟩
  · split
    · exact ⟨92, _, rfl, by decide⟩
    · exact ⟨c, _, rfl, h⟩

/-- A byte that starts no character starts none in what is written. -/
theorem runeLength_jsonText {b : UInt8} {s : Bytes} (h : Utf8.runeLength (b :: s) = none) (rest : Bytes) :
    Utf8.runeLength (b :: (jsonText s ++ quote :: rest)) = none := by
  -- the bytes up to the first ASCII byte decide
  obtain ⟨high, low, rfl, hhigh, hlow⟩ : ∃ high low, s = high ++ low ∧ (∀ c ∈ high, 0x80 ≤ c) ∧
      ∀ c ∈ low.head?, c < 0x80 := by
    refine ⟨s.takeWhile (0x80 ≤ ·), s.dropWhile (0x80 ≤ ·), List.takeWhile_append_dropWhile.symm, ?_, ?_⟩
    · exact fun c hc => by simpa using List.mem_takeWhile_imp hc
    · intro c hc
      have := List.head?_dropWhile_not (fun c : UInt8 => decide (0x80 ≤ c)) s
      rw [Option.mem_def.mp hc] at this
      simpa using this
  have hshort : Utf8.runeLength (b :: high) = none := by
    cases hlength : Utf8.runeLength (b :: high) with
    | none => rfl
    | some n =>
      have hle := Utf8.runeLength_le hlength
      have hlong := Utf8.runeLength_congr (t := b :: (high ++ low)) hlength (by
        rw [← List.cons_append, List.take_append_of_le_length hle])
      rw [h] at hlong
      cases hlong
  obtain ⟨a, t, hnext, ha⟩ : ∃ a t, jsonText low ++ quote :: rest = a :: t ∧ a < 0x80 := by
    cases low with
    | nil => exact ⟨quote, rest, rfl, by decide⟩
    | cons c low =>
      obtain ⟨a, t, hbyte, ha⟩ := jsonByte_ascii (hlow c rfl)
      refine ⟨a, t ++ (jsonText low ++ quote :: rest), ?_, ha⟩
      rw [jsonText, List.flatMap_cons, hbyte]
      simp [jsonText]
  rw [jsonText_append, jsonText_high hhigh, List.append_assoc, hnext]
  exact Utf8.runeLength_append_ascii hshort ha t

/-- A written string is read back if it is valid UTF-8, and not read otherwise. -/
theorem readsAs_jsonText (s : Bytes) : ReadsAs (jsonText s) (if Utf8.valid s then some s else none) := by
  induction s using Utf8.pieces_induction with
  | nil => exact readsAs_nil
  | rune u s hu ih =>
    have hitem : ∃ i : Item, i.Proper ∧ i.text = jsonText u ∧ ∀ is, render (i :: is) = u ++ render is := by
      obtain ⟨a, rfl, ha⟩ | hhigh := hu.ascii_or
      · obtain ⟨hproper, hrender⟩ := jsonItem_proper ha
        refine ⟨jsonItem a, hproper, ?_, hrender⟩
        rw [jsonItem_text]
        simp [jsonText]
      · refine ⟨.raw u, ⟨hu, fun c hc => unescaped_of_high (hhigh c hc)⟩, ?_, fun is => rfl⟩
        rw [jsonText_high hhigh, Item.text]
    obtain ⟨i, hproper, htext, hrender⟩ := hitem
    have hread := ih.item hproper hrender
    rw [htext, ← jsonText_append] at hread
    rw [Utf8.valid_rune hu]
    cases hvalid : Utf8.valid s with
    | true => simpa [hvalid] using hread
    | false => simpa [hvalid] using hread
  | stray b s hb ih =>
    intro rest
    have hhigh : 0x80 ≤ b := by
      by_contra hlow
      rw [Utf8.runeLength_ascii (by simpa using hlow)] at hb
      cases hb
    obtain ⟨hspace, hquote, hback⟩ := unescaped_of_high hhigh
    have htext : jsonText (b :: s) = b :: jsonText s := by
      have hb' := jsonText_high (u := [b]) (by simpa using hhigh)
      rw [← List.singleton_append, jsonText_append, hb']
      rfl
    rw [htext, Utf8.valid_stray hb, List.cons_append, readString, lexString, if_neg hquote, lexItem, if_neg hback,
      if_neg (UInt8.not_lt.mpr hspace), runeLength_jsonText hb]
    rfl

theorem jsonByte_inside (c : UInt8) : Walk .inside (jsonByte c) .inside 0 := by
  by_cases hc : c < 0x80
  · rw [← jsonItem_text]
    exact walk_item (jsonItem_proper hc).1
  · have hhigh : ∀ b ∈ [c], 0x80 ≤ b := by simpa using hc
    have htext := jsonText_high hhigh
    rw [jsonText, List.flatMap_singleton] at htext
    rw [htext]
    exact walk_plain (.inr rfl) fun b hb => (unescaped_of_high (hhigh b hb)).2

theorem jsonByte_outside (c : UInt8) :
    scan .outside (jsonByte c) = .outside ∨ scan .outside (jsonByte c) = .lost := by
  have hlost (t : Bytes) : scan .outside (92 :: t) = .lost := scan_lost t
  unfold jsonByte
  split
  · exact .inr (hlost _)
  · rename_i hplain
    split
    · exact .inr (hlost _)
    · simp only [Bool.or_eq_true, decide_eq_true_eq, not_or] at hplain
      refine .inl (walk_plain (.inl rfl) fun b hb => ?_).scan
      rw [List.mem_singleton.mp hb]
      exact hplain

theorem enclosed_jsonText (s : Bytes) : Enclosed (jsonText s) := by
  constructor
  · induction s with
    | nil => exact .nil _
    | cons c s ih => exact (jsonByte_inside c).append ih
  · induction s with
    | nil => exact .inl rfl
    | cons c s ih =>
      rw [jsonText, List.flatMap_cons, scan_append]
      obtain hout | hlost := jsonByte_outside c
      · rw [hout]
        exact ih
      · rw [hlost, scan_lost]
        exact .inr rfl

/-! ## Values put together -/

/-- The text is taken for an array. -/
def looksLikeArray (s : Bytes) : Bool := (utf8 "[\"").isPrefixOf s && (utf8 "\"]").isSuffixOf s

theorem looksLikeArray_iff {s : Bytes} :
    looksLikeArray s = true ↔ (∃ t, s = 91 :: quote :: t) ∧ ∃ t, s = t ++ [quote, 93] := by
  have hopen : utf8 "[\"" = [91, quote] := by rfl
  have hclose : utf8 "\"]" = [quote, 93] := by rfl
  rw [looksLikeArray, Bool.and_eq_true, List.isPrefixOf_iff_prefix, List.isSuffixOf_iff_suffix, hopen, hclose]
  constructor
  · rintro ⟨⟨t, rfl⟩, ⟨t', ht'⟩⟩
    exact ⟨⟨t, rfl⟩, t', ht'.symm⟩
  · rintro ⟨⟨t, ht⟩, t', ht'⟩
    exact ⟨⟨t, ht.symm⟩, t', ht'.symm⟩

/-- What stands before the second value. -/
def firstText (s : Bytes) : Bytes := if looksLikeArray s then s.dropLast else 91 :: writeJSONString s

theorem appendJSONArray_eq (existing value : Bytes) :
    appendJSONArray existing value = firstText existing ++ (comma :: writeJSONString value ++ [93]) := by
  have hstart : appendJSONArray existing value =
      (if looksLikeArray existing then existing.dropLast ++ [44] else 91 :: writeJSONString existing ++ [44]) ++
        writeJSONString value ++ [93] := rfl
  rw [hstart, firstText]
  split <;> simp [comma]

/-- A text that is taken for an array begins with a quote and goes on to another one. -/
theorem firstText_array {s : Bytes} (h : looksLikeArray s = true) :
    ∃ t, firstText s = 91 :: quote :: t ∧ s = firstText s ++ [93] ∧ ∃ t', firstText s = t' ++ [quote] := by
  obtain ⟨⟨t, ht⟩, t', ht'⟩ := looksLikeArray_iff.mp h
  have hfirst : firstText s = t' ++ [quote] := by
    rw [firstText, if_pos h, ht', show t' ++ [quote, 93] = (t' ++ [quote]) ++ [93] by simp, List.dropLast_concat]
  have hwhole : s = firstText s ++ [93] := by
    rw [hfirst, ht']
    simp
  -- the two quotes can be one
  match t' with
  | [] =>
    rw [ht] at ht'
    exact absurd (List.cons.inj ht').1 (by decide)
  | [c] =>
    rw [ht] at ht'
    obtain rfl : 91 = c := (List.cons.inj ht').1
    exact ⟨[], hfirst, hwhole, _, hfirst⟩
  | c :: d :: t' =>
    rw [ht] at ht'
    obtain ⟨rfl, rfl, -⟩ : 91 = c ∧ quote = d ∧ _ := by simpa using ht'
    exact ⟨t' ++ [quote], hfirst, hwhole, _, hfirst⟩

theorem firstText_head (s : Bytes) : ∃ t, firstText s = 91 :: quote :: t := by
  cases h : looksLikeArray s with
  | true =>
    obtain ⟨t, ht, -⟩ := firstText_array h
    exact ⟨t, ht⟩
  | false => exact ⟨_, by rw [firstText, h]; rfl⟩

/-- The text of a value and others behind it. -/
theorem foldl_appendJSONArray (v : Bytes) {vs : List Bytes} (hvs : vs ≠ []) :
    vs.foldl appendJSONArray v = firstText v ++ (moreStrings (vs.map jsonText) ++ [93]) := by
  induction vs using List.reverseRecOn with
  | nil => exact absurd rfl hvs
  | append_singleton vs w ih =>
    rw [List.foldl_append, List.foldl_cons, List.foldl_nil, appendJSONArray_eq, writeJSONString_eq]
    cases hempty : vs with
    | nil => simp [moreStrings]
    | cons w' ws =>
      rw [← hempty]
      have hne : vs ≠ [] := by simp [hempty]
      obtain ⟨t, ht⟩ := firstText_head v
      obtain ⟨t', ht'⟩ : ∃ t', moreStrings (vs.map jsonText) = t' ++ [quote] := by
        obtain ⟨ws', w'', hvs'⟩ := (vs.eq_nil_or_concat').resolve_left hne
        rw [hvs', List.map_append, moreStrings, List.flatMap_append]
        exact ⟨(ws'.map jsonText).flatMap (fun T => comma :: quote :: T ++ [quote]) ++ comma :: quote :: jsonText w'',
          by simp⟩
      have harray : looksLikeArray (vs.foldl appendJSONArray v) = true := by
        rw [ih hne, looksLikeArray_iff]
        refine ⟨⟨t ++ (moreStrings (vs.map jsonText) ++ [93]), by rw [ht]; rfl⟩, firstText v ++ t', ?_⟩
        rw [ht']
        simp
      have hfirst : firstText (vs.foldl appendJSONArray v) = firstText v ++ moreStrings (vs.map jsonText) := by
        rw [firstText, if_pos harray, ih hne, ← List.append_assoc, List.dropLast_concat]
      rw [hfirst, List.map_append, moreStrings, moreStrings, List.flatMap_append]
      simp

/-- Values of which the first does not look like an array are read back if they are valid
UTF-8, and not read otherwise. -/
theorem parse_values_iff {v : Bytes} (hplain : looksLikeArray v = false) {vs : List Bytes} (hvs : vs ≠ [])
    {us : List Bytes} :
    Json.parse (vs.foldl appendJSONArray v) = some (.array (us.map .string)) ↔
      (∀ w ∈ v :: vs, Utf8.valid w = true) ∧ us = v :: vs := by
  let reading (w : Bytes) : Option Bytes := if Utf8.valid w then some w else none
  have htext : vs.foldl appendJSONArray v = arrayText (jsonText v) (vs.map jsonText) := by
    rw [foldl_appendJSONArray v hvs, firstText, hplain, writeJSONString_eq, arrayText]
    simp
  have hread : List.Forall₂ ReadsAs (vs.map jsonText) (vs.map reading) := by
    rw [List.forall₂_map_left_iff, List.forall₂_map_right_iff, List.forall₂_same]
    exact fun w _ => readsAs_jsonText w
  have hreading : ∀ ws us : List Bytes, ws.map reading = us.map some ↔ (∀ w ∈ ws, Utf8.valid w = true) ∧ us = ws := by
    intro ws
    induction ws with
    | nil => intro us; cases us <;> simp
    | cons w ws ih =>
      intro us
      cases us with
      | nil => simp
      | cons u us =>
        simp only [List.map_cons, List.cons.injEq, ih, List.forall_mem_cons, reading]
        cases Utf8.valid w with
        | true => simp only [if_true, Option.some.injEq, true_and]; tauto
        | false => simp
  have hinj : Function.Injective fun us : List Bytes => us.map Value.string :=
    List.map_injective_iff.mpr fun a b h => by cases h; rfl
  rw [htext, parse_arrayText (readsAs_jsonText v) hread, Option.map_eq_some_iff]
  constructor
  · rintro ⟨us', hus', heq⟩
    obtain rfl : us' = us := hinj (by simpa using heq)
    exact (hreading (v :: vs) us').mp (mapM_id_eq_some.mp hus')
  · rintro h
    exact ⟨us, mapM_id_eq_some.mpr ((hreading (v :: vs) us).mpr h), rfl⟩

/-- A first value that looks like an array is taken for one: if the whole is read as strings
at all, then there are as many as there are values or more, and the first of them is not the
first value. -/
theorem parse_values_array {v : Bytes} (harray : looksLikeArray v = true) {vs : List Bytes} (hvs : vs ≠ [])
    {us : List Bytes} (h : Json.parse (vs.foldl appendJSONArray v) = some (.array (us.map .string))) :
    vs.length < us.length ∧ us.head? ≠ some v := by
  obtain ⟨t, ht, hwhole, t', ht'⟩ := firstText_array harray
  rw [foldl_appendJSONArray v hvs] at h
  constructor
  · have hwalk : Walk .outside (firstText v ++ (moreStrings (vs.map jsonText) ++ [93])) .outside us.length := by
      rw [ht] at h ⊢
      exact parse_walk h
    rw [ht', List.append_assoc, List.singleton_append] at hwalk
    have hlt := length_lt_of_walk (fun T hT => ?_) hwalk
    · simpa using hlt
    · obtain ⟨w, -, rfl⟩ := List.mem_map.mp hT
      exact enclosed_jsonText w
  · intro hhead
    obtain ⟨us, rfl⟩ := List.head?_eq_some_iff.mp hhead
    obtain ⟨w, ws, rfl⟩ := List.exists_cons_of_ne_nil hvs
    rw [ht] at h
    obtain ⟨is, r, htext, his, hrender⟩ := parse_first h
    -- the string would have to go on past the quote that opens the second value
    have hlong : t.length + 3 ≤ (is.flatMap Item.text).length := by
      have hlength := render_length his
      rw [hrender, hwhole, ht] at hlength
      simp only [List.length_append, List.length_cons, List.length_nil] at hlength
      omega
    obtain ⟨z, hz⟩ : ∃ z, is.flatMap Item.text = t ++ comma :: quote :: z := by
      have hprefix : t ++ [comma, quote] <+: is.flatMap Item.text := by
        refine List.prefix_of_prefix_length_le ⟨jsonText w ++ quote :: (moreStrings (ws.map jsonText) ++ [93]), ?_⟩
          (List.prefix_append _ (quote :: r)) ?_
        · rw [← htext]
          simp
        · simpa using hlong.trans' (by omega)
      obtain ⟨z, hz⟩ := hprefix
      exact ⟨z, by rw [← hz]; simp⟩
    have hchain := (quotes_escaped his).1
    rw [hz] at hchain
    have hcomma := (List.isChain_cons_cons.mp hchain.right_of_append).1 rfl
    exact absurd hcomma (by decide)

/-! ## Repeated parameters -/

/-- The values of a parameter in written order. -/
def SDElement.values (el : SDElement) (name : Bytes) : List Bytes :=
  (el.params.filter (·.name = name)).map (·.value)

/-- The field that is found for the name is an array of the values of the parameter. -/
def StoredArray (short : Bool) (el : SDElement) (slots : List Slot) (name : Bytes) : Prop :=
  ∃ f, ((slots.map Slot.field).find? fun f => isKeyOf short el.id name f.key) = some f ∧
    Json.parse f.value = some (.array ((el.values name).map .string))

/-- The first value does not look like an array, and all values are valid UTF-8. -/
def SDElement.PlainValues (el : SDElement) (name : Bytes) : Prop :=
  (∀ v ∈ (el.values name).head?, looksLikeArray v = false) ∧ ∀ v ∈ el.values name, Utf8.valid v = true

/-- The values are plain, and in the short mode no other parameter is stored in the field. -/
def Recoverable (short : Bool) (el : SDElement) (slots : List Slot) (name : Bytes) : Prop :=
  (short = true →
    ∀ s, (slots.find? fun s => isKeyOf short el.id name s.key) = some s → ∀ p ∈ s.params, p.name = name) ∧
    el.PlainValues name

/-- In the full mode a field has the values of one parameter only. -/
theorem Placed.name_of_full {id name : Bytes} {done : List SDParam} {slots : List Slot} (h : Placed false id done slots)
    {s : Slot} (hs : (slots.find? fun s => isKeyOf false id name s.key) = some s) : ∀ p ∈ s.params, p.name = name := by
  intro p hp
  have hkey := List.find?_some hs
  have hkey' := List.find?_some (h.found s (List.mem_of_find?_eq_some hs) p hp)
  simp only [isKeyOf, Bool.false_and, Bool.or_false, decide_eq_true_eq] at hkey hkey'
  exact fullKey_injective id (hkey'.symm.trans hkey)

theorem storedArray_iff {short : Bool} {el : SDElement} {slots : List Slot} (h : Placed short el.id el.params slots)
    {name : Bytes} (hname : 2 ≤ (el.values name).length) :
    StoredArray short el slots name ↔ Recoverable short el slots name := by
  -- the slot of the name, and the values in it
  obtain ⟨s, hs⟩ : ∃ s, (slots.find? fun s => isKeyOf short el.id name s.key) = some s := by
    have hne : el.params.filter (·.name = name) ≠ [] := by
      intro hnil
      rw [SDElement.values, hnil] at hname
      simp at hname
    obtain ⟨p, hp⟩ := List.exists_mem_of_ne_nil _ hne
    obtain ⟨hmem, hpname⟩ := List.mem_filter.mp hp
    rw [← of_decide_eq_true hpname]
    exact h.placed p hmem
  have hvalues : el.values name = (s.params.filter (·.name = name)).map (·.value) := by
    rw [SDElement.values, h.order name s hs]
  have hfield : ((slots.map Slot.field).find? fun f => isKeyOf short el.id name f.key) = some s.field := by
    rw [List.find?_map, Function.comp_def]
    simp only [Slot.field_key, hs, Option.map_some]
  have hlength := List.length_filter_le (fun p : SDParam => decide (p.name = name)) s.params
  have hmore : s.more.map (·.value) ≠ [] := by
    intro hnil
    rw [hvalues, List.length_map] at hname
    have hone : s.params.length = 1 := by simp [Slot.params, List.map_eq_nil_iff.mp hnil]
    omega
  have hall (hfull : s.params.length ≤ (el.values name).length) : ∀ p ∈ s.params, p.name = name := by
    rw [hvalues, List.length_map] at hfull
    have hself := List.filter_eq_self.mp (List.filter_sublist.eq_of_length (le_antisymm hlength hfull))
    exact fun p hp => of_decide_eq_true (hself p hp)
  have hwhole (hpure : ∀ p ∈ s.params, p.name = name) :
      el.values name = s.first.value :: s.more.map (·.value) := by
    rw [hvalues, List.filter_eq_self.mpr fun p hp => by simpa using hpure p hp]
    rfl
  constructor
  · rintro ⟨f, hf, hparse⟩
    rw [hfield] at hf
    cases hf
    cases harray : looksLikeArray s.first.value with
    | true =>
      exfalso
      obtain ⟨hlong, hhead⟩ := parse_values_array harray hmore hparse
      have hpure := hall (by simpa [Slot.params] using hlong)
      rw [hwhole hpure] at hhead
      exact hhead rfl
    | false =>
      obtain ⟨hvalid, hus⟩ := (parse_values_iff harray hmore).mp hparse
      refine ⟨fun _ s' hs' => ?_, ?_, ?_⟩
      · rw [hs] at hs'
        cases hs'
        exact hall (by simp [hus, Slot.params])
      · rw [hus]
        simpa using harray
      · rw [hus]
        exact hvalid
  · rintro ⟨hpure, hhead, hvalid⟩
    have hus : el.values name = s.first.value :: s.more.map (·.value) := by
      cases short with
      | false => exact hwhole (h.name_of_full hs)
      | true => exact hwhole (hpure rfl s hs)
    refine ⟨s.field, hfield, ?_⟩
    rw [hus] at hhead hvalid ⊢
    exact (parse_values_iff (hhead _ rfl) hmore).mpr ⟨hvalid, rfl⟩

theorem exists_elementSlots {short : Bool} {keys : List Bytes} {els : List SDElement} {p : SDElement × List Slot}
    (h : p ∈ els.zip (dataSlots short keys els)) : ∃ keys', p.2 = elementSlots short keys' p.1 := by
  induction els generalizing keys with
  | nil => cases h
  | cons el els ih =>
    rw [dataSlots, List.zip_cons_cons] at h
    obtain rfl | h := List.mem_cons.mp h
    · exact ⟨keys, rfl⟩
    · exact ih h

/-- In the fields that well-formed structured data becomes, every parameter that is repeated
in its element is an array of its values in written order, exactly if every such parameter
is recoverable. In the full mode, and where no name of the element is the full key of
another, that depends on the values alone. -/
theorem parseSD_arrays_iff {s rest : Bytes} {els : List SDElement} (h : ReadsElements s els rest) (length : Nat)
    (short : Bool) (fields : List Field) :
    parseSD length short fields s =
        .ok (fields ++ (dataSlots short (fields.map Field.key) els).flatten.map Slot.field, rest) ∧
      ((∀ p ∈ els.zip (dataSlots short (fields.map Field.key) els), ∀ name, 2 ≤ (p.1.values name).length →
          StoredArray short p.1 p.2 name) ↔
        ∀ p ∈ els.zip (dataSlots short (fields.map Field.key) els), ∀ name, 2 ≤ (p.1.values name).length →
          Recoverable short p.1 p.2 name) ∧
      ∀ p ∈ els.zip (dataSlots short (fields.map Field.key) els), (short = true → p.1.NamesApart p.1) →
        ∀ name, 2 ≤ (p.1.values name).length → (StoredArray short p.1 p.2 name ↔ p.1.PlainValues name) := by
  refine ⟨h.parseSD_eq length short fields, ?_, ?_⟩
  · refine forall₂_congr fun p hp => forall₂_congr fun name hname => ?_
    obtain ⟨keys, hslots⟩ := exists_elementSlots hp
    rw [hslots]
    exact storedArray_iff (elementSlots_placed short keys p.1) hname
  · intro p hp hapart name hname
    obtain ⟨keys, hslots⟩ := exists_elementSlots hp
    have hplaced := elementSlots_placed short keys p.1
    rw [hslots, storedArray_iff hplaced hname]
    refine and_iff_right fun _ s hs q hq => ?_
    -- the name was read in the element, so the slot that is found for it is its own
    have hmem := List.mem_of_find?_eq_some hs
    have hfound := List.find?_some hs
    obtain ⟨r, hr⟩ := List.length_pos_iff_exists_mem.mp (by omega : 0 < (p.1.values name).length)
    obtain ⟨t, hvalue, -⟩ := List.mem_map.mp hr
    obtain ⟨ht, htname⟩ := List.mem_filter.mp hvalue
    obtain rfl := of_decide_eq_true htname
    rw [elementSlots_pure hapart s hmem q hq, elementSlots_name hapart hmem ht hfound]

/-- The element `[t x="a" x="b"]`. -/
theorem readsElements_twice :
    ReadsElements (91 :: ([116] ++ (32 :: ([120] ++ 61 :: 34 :: [97, 34, 32, 120, 61, 34, 98, 34, 93]))))
      [⟨[116], [⟨[120], [97]⟩, ⟨[120], [98]⟩]⟩] [] := by
  have hx : ∀ c ∈ [(120 : UInt8)], isSDNameChar c = true := by simp [isSDNameChar]
  have ht : ∀ c ∈ [(116 : UInt8)], isSDNameChar c = true := by simp [isSDNameChar]
  have hsecond : ReadsParams (32 :: ([120] ++ 61 :: 34 :: [98, 34, 93])) [⟨[120], [98]⟩] [] :=
    .param (by simp) hx (.plain (by decide) (by decide) (.close _)) (.done [])
  have hfirst := ReadsParams.param (by simp) hx (.plain (c := 97) (by decide) (by decide) (.close _)) hsecond
  exact .element (by simp) ht hfirst (.done (by simp))

theorem parseSD_arrays_iff_twice :
    ((∀ p ∈ [SDElement.mk [116] [⟨[120], [97]⟩, ⟨[120], [98]⟩]].zip
          (dataSlots false [] [⟨[116], [⟨[120], [97]⟩, ⟨[120], [98]⟩]⟩]), ∀ name, 2 ≤ (p.1.values name).length →
          StoredArray false p.1 p.2 name) ↔
        ∀ p ∈ [SDElement.mk [116] [⟨[120], [97]⟩, ⟨[120], [98]⟩]].zip
          (dataSlots false [] [⟨[116], [⟨[120], [97]⟩, ⟨[120], [98]⟩]⟩]), ∀ name, 2 ≤ (p.1.values name).length →
          Recoverable false p.1 p.2 name) :=
  (parseSD_arrays_iff readsElements_twice 17 false []).2.1

/-- The values `["a"]` and `b` of one parameter become an array of `a` and `b`. -/
theorem array_value_taken_for_array :
    parseSD 25 false [] (utf8 "[t x=\"[\\\"a\\\"\\]\" x=\"b\"]") =
        .ok ([⟨utf8 "sd.t.x", utf8 "[\"a\",\"b\"]"⟩], []) ∧
      Json.parse (utf8 "[\"a\",\"b\"]") = some (.array [.string (utf8 "a"), .string (utf8 "b")]) :=
  ⟨rfl, rfl⟩

end Syslogc.Parser.Rfc5424
