-- SUMMARY: Reading JSON text into a value.
import Syslogc.Lib.Json
import Syslogc.Lib.Utf8

/-!
# JSON values

`parse` reads a whole text as one value. A string is read in two steps: `lexString` finds
its end and takes it apart into characters and escapes, `render` gives the characters that
they stand for. A text must be valid UTF-8.
-/

namespace Json

open Utf8

def quote : UInt8 := 34
def comma : UInt8 := 44
def colon : UInt8 := 58
def backslash : UInt8 := 92

/-! ## Strings -/

/-- The byte that an escape of two characters stands for. -/
def escaped (e : UInt8) : Option UInt8 :=
  if e = quote || e = backslash || e = 47 then some e
  else if e = 98 then some 8
  else if e = 102 then some 12
  else if e = 110 then some 10
  else if e = 114 then some 13
  else if e = 116 then some 9
  else none

def hexDigit (c : UInt8) : Nat :=
  if isDigit c then c.toNat - 48 else if 97 ≤ c then c.toNat - 87 else c.toNat - 55

/-- The number that hexadecimal digits stand for. -/
def hexValue (ds : Bytes) : Nat := ds.foldl (fun n c => n * 16 + hexDigit c) 0

/-- A part of a string as it is written. -/
inductive Item where
  /-- A character. -/
  | raw (u : Bytes)
  /-- A backslash and a letter. -/
  | escape (e : UInt8)
  /-- A backslash, the letter u and four digits. -/
  | unit (digits : Bytes)
deriving DecidableEq, Repr

def Item.text : Item → Bytes
  | .raw u => u
  | .escape e => [backslash, e]
  | .unit ds => backslash :: 117 :: ds

def Item.isRaw : Item → Bool
  | .raw _ => true
  | _ => false

/-- The escape that follows a backslash. -/
def lexEscape : Bytes → Option Item
  | [] => none
  | e :: s =>
    if e = 117 then if 4 ≤ s.length && (s.take 4).all isHex then some (.unit (s.take 4)) else none
    else if (escaped e).isSome then some (.escape e)
    else none

/-- The item at the start of a text in which the string does not end at once. -/
def lexItem : Bytes → Option Item
  | [] => none
  | c :: s =>
    if c = backslash then lexEscape s
    else if c < 0x20 then none
    else (runeLength (c :: s)).map fun n => .raw ((c :: s).take n)

/-- The items of a string up to the quote that ends it, and what follows. The given number
of bytes belong to an item that was read before. -/
def lexString : Nat → Bytes → Option (List Item × Bytes)
  | _, [] => none
  | k + 1, _ :: s => lexString k s
  | 0, c :: s =>
    if c = quote then some ([], s)
    else
      match lexItem (c :: s) with
      | none => none
      | some i => (lexString (i.text.length - 1) s).map fun r => (i :: r.1, r.2)

/-- The character of two surrogates. -/
def surrogatePair (high low : Nat) : Option Nat :=
  if 0xD800 ≤ high ∧ high < 0xDC00 ∧ 0xDC00 ≤ low ∧ low < 0xE000 then
    some (0x10000 + (high - 0xD800) * 0x400 + (low - 0xDC00))
  else none

/-- What the items of a string stand for. -/
def render : List Item → Bytes
  | [] => []
  | .raw u :: is => u ++ render is
  | .escape e :: is => (escaped e).toList ++ render is
  | .unit high :: .unit low :: is =>
    match surrogatePair (hexValue high) (hexValue low) with
    | some r => encodeRune r ++ render is
    | none => encodeRune (hexValue high) ++ render (.unit low :: is)
  | .unit ds :: is => encodeRune (hexValue ds) ++ render is

def readString (s : Bytes) : Option (Bytes × Bytes) := (lexString 0 s).map fun r => (render r.1, r.2)

/-! ## Values -/

inductive Value where
  | null
  | bool (b : Bool)
  /-- A number, as it is written. -/
  | number (text : Bytes)
  | string (s : Bytes)
  | array (elements : List Value)
  | object (members : List (Bytes × Value))
deriving Repr

def skipSpace (s : Bytes) : Bytes := s.dropWhile isSpace

/-- What follows a byte that must stand at the start. -/
def expect (c : UInt8) : Bytes → Option Bytes
  | [] => none
  | c' :: s => if c' = c then some s else none

/-- One or more digits, and what follows. -/
def readDigits (s : Bytes) : Option (Bytes × Bytes) :=
  if s.takeWhile isDigit = [] then none else some (s.takeWhile isDigit, s.dropWhile isDigit)

/-- A zero, or digits that start with another one. -/
def readInteger : Bytes → Option (Bytes × Bytes)
  | [] => none
  | c :: s => if c = 48 then some ([c], s) else readDigits (c :: s)

def readFraction : Bytes → Option (Bytes × Bytes)
  | [] => some ([], [])
  | c :: s => if c = 46 then (readDigits s).map fun r => (c :: r.1, r.2) else some ([], c :: s)

def readExponent : Bytes → Option (Bytes × Bytes)
  | [] => some ([], [])
  | c :: s =>
    if c = 101 || c = 69 then
      match s with
      | [] => none
      | sign :: s' =>
        if sign = 43 || sign = 45 then (readDigits s').map fun r => (c :: sign :: r.1, r.2)
        else (readDigits s).map fun r => (c :: r.1, r.2)
    else some ([], c :: s)

def readNumber (s : Bytes) : Option (Bytes × Bytes) := do
  let sign := if s.head? = some 45 then [45] else []
  let (int, s) ← readInteger (s.drop sign.length)
  let (frac, s) ← readFraction s
  let (exp, s) ← readExponent s
  return (sign ++ int ++ frac ++ exp, s)

/-- `null`, `true`, `false` or a number. -/
def readScalar (s : Bytes) : Option (Value × Bytes) :=
  if let some rest := Bytes.cutPrefix (utf8 "null") s then some (.null, rest)
  else if let some rest := Bytes.cutPrefix (utf8 "true") s then some (.bool true, rest)
  else if let some rest := Bytes.cutPrefix (utf8 "false") s then some (.bool false, rest)
  else (readNumber s).map fun r => (.number r.1, r.2)

mutual

/-- A value, and what follows it. The number bounds the values and members still to be read,
each of which takes a byte at least. -/
def readValueOf : Nat → Bytes → Option (Value × Bytes)
  | 0, _ => none
  | n + 1, s =>
    match skipSpace s with
    | [] => none
    | c :: s =>
      if c = 123 then
        match expect 125 (skipSpace s) with
        | some rest => some (.object [], rest)
        | none => (readMembers n s).map fun r => (.object r.1, r.2)
      else if c = 91 then
        match expect 93 (skipSpace s) with
        | some rest => some (.array [], rest)
        | none => (readElements n s).map fun r => (.array r.1, r.2)
      else if c = quote then (readString s).map fun r => (.string r.1, r.2)
      else readScalar (c :: s)

/-- The members of an object, up to its end. -/
def readMembers : Nat → Bytes → Option (List (Bytes × Value) × Bytes)
  | 0, _ => none
  | n + 1, s => do
    let s ← expect quote (skipSpace s)
    let (key, s) ← readString s
    let s ← expect colon (skipSpace s)
    let (value, s) ← readValueOf n s
    match skipSpace s with
    | [] => none
    | c :: s =>
      if c = comma then (readMembers n s).map fun r => ((key, value) :: r.1, r.2)
      else if c = 125 then some ([(key, value)], s)
      else none

/-- The elements of an array, up to its end. -/
def readElements : Nat → Bytes → Option (List Value × Bytes)
  | 0, _ => none
  | n + 1, s => do
    let (value, s) ← readValueOf n s
    match skipSpace s with
    | [] => none
    | c :: s =>
      if c = comma then (readElements n s).map fun r => (value :: r.1, r.2)
      else if c = 93 then some ([value], s)
      else none

end

/-- The value that a whole text stands for. -/
def parse (s : Bytes) : Option Value :=
  match readValueOf (s.length + 1) s with
  | none => none
  | some (value, rest) => if skipSpace rest = [] then some value else none

theorem parse_eq_some {s : Bytes} {value : Value} :
    parse s = some value ↔ ∃ rest, readValueOf (s.length + 1) s = some (value, rest) ∧ skipSpace rest = [] := by
  rw [parse]
  cases readValueOf (s.length + 1) s with
  | none => simp
  | some r => simp [and_comm, Prod.ext_iff]

theorem skipSpace_of_not {c : UInt8} (h : isSpace c = false) (s : Bytes) : skipSpace (c :: s) = c :: s := by
  simp [skipSpace, h]

theorem readValueOf_quote (n : Nat) (s : Bytes) :
    readValueOf (n + 1) (quote :: s) = (readString s).map fun r => (.string r.1, r.2) := by
  rw [readValueOf, skipSpace_of_not (by decide)]
  simp only [show quote ≠ 123 by decide, show quote ≠ 91 by decide, if_false, if_true]

/-! ## What a text between quotes stands for -/

/-- A byte that stands for itself in a string. -/
def Unescaped (c : UInt8) : Prop := 0x20 ≤ c ∧ c ≠ quote ∧ c ≠ backslash

instance (c : UInt8) : Decidable (Unescaped c) := inferInstanceAs (Decidable (_ ∧ _ ∧ _))

/-- The item can stand in a string. -/
def Item.Proper : Item → Prop
  | .raw u => IsRune u ∧ ∀ c ∈ u, Unescaped c
  | .escape e => (escaped e).isSome = true
  | .unit ds => ds.length = 4 ∧ ∀ c ∈ ds, isHex c = true

variable {s rest T u : Bytes} {is : List Item} {i : Item} {e : UInt8}

theorem Item.Proper.text_ne_nil (h : i.Proper) : i.text ≠ [] := by
  cases i with
  | raw u => exact h.1.ne_nil
  | escape e => simp [Item.text]
  | unit ds => simp [Item.text]

theorem escaped_u : escaped 117 = none := by decide

theorem lexEscape_eq_some :
    lexEscape s = some i ↔ i.Proper ∧ i.isRaw = false ∧ ∃ s', backslash :: s = i.text ++ s' := by
  cases s with
  | nil =>
    refine iff_of_false (by simp [lexEscape]) ?_
    rintro ⟨hi, hraw, s', heq⟩
    cases i <;> simp_all [Item.text, Item.isRaw]
  | cons e s =>
    rw [lexEscape]
    constructor
    · intro h
      split at h
      next hu =>
        split at h
        next hc =>
          cases h
          simp only [Bool.and_eq_true, decide_eq_true_eq, List.all_eq_true] at hc
          refine ⟨⟨List.length_take_of_le hc.1, hc.2⟩, rfl, s.drop 4, ?_⟩
          rw [hu, Item.text, List.cons_append, List.cons_append, List.take_append_drop]
        next => cases h
      next hu =>
        split at h
        next he =>
          cases h
          exact ⟨he, rfl, s, rfl⟩
        next => cases h
    · rintro ⟨hi, hraw, s', heq⟩
      cases i with
      | raw u => cases hraw
      | escape e' =>
        obtain ⟨rfl, rfl⟩ : e = e' ∧ s = s' := by simpa [Item.text] using heq
        have hu : e ≠ 117 := by
          rintro rfl
          rw [Item.Proper, escaped_u] at hi
          cases hi
        rw [if_neg hu]
        exact if_pos hi
      | unit ds =>
        obtain ⟨rfl, rfl⟩ : e = 117 ∧ s = ds ++ s' := by simpa [Item.text] using heq
        obtain ⟨hlength, hhex⟩ := hi
        have htake : (ds ++ s').take 4 = ds := by rw [← hlength, List.take_left]
        rw [if_pos rfl, htake, if_pos]
        simpa [hlength] using hhex

theorem unescaped_of_high {c : UInt8} (h : 0x80 ≤ c) : Unescaped c := by
  have hspace : (0x20 : UInt8) ≤ 0x80 := by decide
  refine ⟨UInt8.le_trans hspace h, ?_, ?_⟩ <;> rintro rfl <;> exact absurd h (by decide)

/-- A character is unescaped if its first byte is. -/
theorem unescaped_of_head {c : UInt8} (hu : IsRune (c :: u)) (hc : Unescaped c) : ∀ b ∈ c :: u, Unescaped b := by
  intro b hb
  obtain ⟨a, ha, -⟩ | hhigh := hu.ascii_or
  · cases ha
    rw [List.mem_singleton] at hb
    rwa [hb]
  · exact unescaped_of_high (hhigh b hb)

theorem Item.Proper.head_ne_quote (h : i.Proper) (hs : s = i.text ++ rest) : s.head? ≠ some quote := by
  subst hs
  cases i with
  | raw u =>
    cases u with
    | nil => exact absurd rfl h.1.ne_nil
    | cons c u => simpa [Item.text] using (h.2 c List.mem_cons_self).2.1
  | escape e => exact fun h => absurd (Option.some_injective _ h) (by decide)
  | unit ds => exact fun h => absurd (Option.some_injective _ h) (by decide)

theorem lexItem_eq_some (hs : s.head? ≠ some quote) :
    lexItem s = some i ↔ i.Proper ∧ ∃ s', s = i.text ++ s' := by
  cases s with
  | nil =>
    refine iff_of_false (by simp [lexItem]) ?_
    rintro ⟨hi, s', heq⟩
    exact hi.text_ne_nil (List.append_eq_nil_iff.mp heq.symm).1
  | cons c s =>
    have hquote : c ≠ quote := by simpa using hs
    rw [lexItem]
    constructor
    · intro h
      split at h
      next hback =>
        obtain ⟨hi, -, hs'⟩ := lexEscape_eq_some.mp h
        exact ⟨hi, hback ▸ hs'⟩
      next hback =>
        split at h
        next => cases h
        next hspace =>
          obtain ⟨n, hn, rfl⟩ := Option.map_eq_some_iff.mp h
          obtain ⟨k, rfl⟩ : ∃ k, n = k + 1 := ⟨n - 1, by have := runeLength_pos hn; omega⟩
          have hrune := isRune_take hn
          rw [List.take_succ_cons] at hrune ⊢
          refine ⟨⟨hrune, unescaped_of_head hrune ⟨by simpa using hspace, hquote, hback⟩⟩, s.drop k, ?_⟩
          rw [Item.text, List.cons_append, List.take_append_drop]
    · rintro ⟨hi, s', heq⟩
      cases i with
      | raw u =>
        cases u with
        | nil => exact absurd rfl hi.1.ne_nil
        | cons a u =>
          obtain ⟨rfl, rfl⟩ : c = a ∧ s = u ++ s' := by simpa [Item.text] using heq
          obtain ⟨hspace, -, hback⟩ := hi.2 c List.mem_cons_self
          have hlength := hi.1.append s'
          rw [List.cons_append] at hlength
          rw [if_neg hback, if_neg (by simpa using hspace), hlength, Option.map_some, ← List.cons_append,
            List.take_left]
      | escape e =>
        have hc : c = backslash := (List.cons.inj heq).1
        rw [if_pos hc, lexEscape_eq_some]
        exact ⟨hi, rfl, s', hc ▸ heq⟩
      | unit ds =>
        have hc : c = backslash := (List.cons.inj heq).1
        rw [if_pos hc, lexEscape_eq_some]
        exact ⟨hi, rfl, s', hc ▸ heq⟩

theorem lexString_quote (s : Bytes) : lexString 0 (quote :: s) = some ([], s) := by
  simp [lexString]

theorem lexString_skip (u s : Bytes) : lexString u.length (u ++ s) = lexString 0 s := by
  induction u with
  | nil => rfl
  | cons c u ih => exact ih

theorem lexString_item (hi : i.Proper) (s : Bytes) :
    lexString 0 (i.text ++ s) = (lexString 0 s).map fun r => (i :: r.1, r.2) := by
  have hhead := hi.head_ne_quote (s := i.text ++ s) rfl
  have hitem := (lexItem_eq_some hhead).mpr ⟨hi, s, rfl⟩
  have hne := hi.text_ne_nil
  generalize htext : i.text = text at hhead hitem hne ⊢
  cases text with
  | nil => exact absurd rfl hne
  | cons c u =>
    rw [List.cons_append] at hhead hitem ⊢
    rw [lexString, if_neg (by simpa using hhead), hitem]
    simp only [htext, List.length_cons, Nat.add_sub_cancel, lexString_skip]

/-- The lexer takes the first item. -/
theorem lexString_cons (h : lexString 0 s = some (is, rest)) :
    is = [] ∧ s = quote :: rest ∨
      ∃ i is' s', is = i :: is' ∧ i.Proper ∧ s = i.text ++ s' ∧ lexString 0 s' = some (is', rest) := by
  cases s with
  | nil => cases h
  | cons c s =>
    by_cases hquote : c = quote
    · subst hquote
      rw [lexString_quote] at h
      cases h
      exact .inl ⟨rfl, rfl⟩
    · have hunfold := h
      rw [lexString, if_neg hquote] at h
      split at h
      next => cases h
      next i hitem =>
        obtain ⟨hi, s', hs⟩ := (lexItem_eq_some (by simpa using hquote)).mp hitem
        rw [hs, lexString_item hi] at hunfold
        obtain ⟨⟨is', rest'⟩, hlex, heq⟩ := Option.map_eq_some_iff.mp hunfold
        cases heq
        exact .inr ⟨i, is', s', rfl, hi, hs, hlex⟩

theorem lexString_eq_some :
    lexString 0 s = some (is, rest) ↔ s = is.flatMap Item.text ++ quote :: rest ∧ ∀ i ∈ is, i.Proper := by
  induction is generalizing s with
  | nil =>
    constructor
    · intro h
      obtain ⟨-, rfl⟩ | ⟨_, _, _, heq, -⟩ := lexString_cons h
      · exact ⟨rfl, by simp⟩
      · cases heq
    · rintro ⟨rfl, -⟩
      exact lexString_quote rest
  | cons i is ih =>
    constructor
    · intro h
      obtain ⟨heq, -⟩ | ⟨_, _, s', heq, hi, rfl, hlex⟩ := lexString_cons h
      · cases heq
      · cases heq
        obtain ⟨rfl, his⟩ := ih.mp hlex
        exact ⟨by simp, List.forall_mem_cons.mpr ⟨hi, his⟩⟩
    · rintro ⟨rfl, hall⟩
      rw [List.forall_mem_cons] at hall
      rw [List.flatMap_cons, List.append_assoc, lexString_item hall.1, ih.mpr ⟨rfl, hall.2⟩]
      rfl

/-- The text stands for the string. -/
def Reads (T v : Bytes) : Prop := ∀ rest, readString (T ++ quote :: rest) = some (v, rest)

theorem reads_items (h : ∀ i ∈ is, i.Proper) : Reads (is.flatMap Item.text) (render is) := by
  intro rest
  rw [readString, lexString_eq_some.mpr ⟨rfl, h⟩]
  rfl

/-! ## Texts that stand for themselves -/

/-- The text can stand between quotes as it is. -/
structure Plain (T : Bytes) : Prop where
  valid : Utf8.valid T = true
  unescaped : ∀ c ∈ T, Unescaped c

instance (T : Bytes) : Decidable (Plain T) :=
  decidable_of_iff (Utf8.valid T = true ∧ ∀ c ∈ T, Unescaped c) ⟨fun h => ⟨h.1, h.2⟩, fun h => ⟨h.valid, h.unescaped⟩⟩

theorem plain_iff_items :
    Plain T ↔ ∃ us : List Bytes, (∀ u ∈ us, (Item.raw u).Proper) ∧ us.flatten = T := by
  constructor
  · rintro ⟨hvalid, hunescaped⟩
    induction T using pieces_induction with
    | nil => exact ⟨[], by simp, rfl⟩
    | rune u s hu ih =>
      rw [valid_rune hu] at hvalid
      obtain ⟨us, hus, rfl⟩ := ih hvalid fun c hc => hunescaped c (List.mem_append_right u hc)
      refine ⟨u :: us, List.forall_mem_cons.mpr ⟨⟨hu, fun c hc => ?_⟩, hus⟩, rfl⟩
      exact hunescaped c (List.mem_append_left _ hc)
    | stray b s hb ih =>
      rw [valid_stray hb] at hvalid
      cases hvalid
  · rintro ⟨us, hus, rfl⟩
    induction us with
    | nil => exact ⟨rfl, by simp⟩
    | cons u us ih =>
      rw [List.forall_mem_cons] at hus
      obtain ⟨⟨hu, hplain⟩, hus⟩ := hus
      obtain ⟨hvalid, hunescaped⟩ := ih hus
      rw [List.flatten_cons]
      refine ⟨(valid_rune hu _).trans hvalid, fun c hc => ?_⟩
      obtain hc | hc := List.mem_append.mp hc
      · exact hplain c hc
      · exact hunescaped c hc

theorem flatMap_raw (us : List Bytes) : (us.map Item.raw).flatMap Item.text = us.flatten := by
  induction us with
  | nil => rfl
  | cons u us ih => rw [List.map_cons, List.flatMap_cons, ih, List.flatten_cons, Item.text]

theorem render_raw (us : List Bytes) : render (us.map Item.raw) = us.flatten := by
  induction us with
  | nil => rfl
  | cons u us ih => rw [List.map_cons, render, ih, List.flatten_cons]

theorem plain_of_ascii (h : ∀ c ∈ T, c < 0x80 ∧ Unescaped c) : Plain T :=
  ⟨valid_of_ascii fun c hc => (h c hc).1, fun c hc => (h c hc).2⟩

theorem Plain.reads (h : Plain T) : Reads T T := by
  obtain ⟨us, hus, rfl⟩ := plain_iff_items.mp h
  have hreads : Reads ((us.map Item.raw).flatMap Item.text) (render (us.map Item.raw)) :=
    reads_items (by simpa using hus)
  rwa [flatMap_raw, render_raw] at hreads

/-- A string is not longer than its text, and shorter if there is an escape. -/
theorem render_length (h : ∀ i ∈ is, i.Proper) :
    (render is).length + (is.filter fun i => !i.isRaw).length ≤ (is.flatMap Item.text).length := by
  have hunit {ds : Bytes} (hds : (Item.unit ds).Proper) (r : Nat) :
      (encodeRune r).length + 2 ≤ (Item.unit ds).text.length := by
    have hle := encodeRune_length_le r
    simp only [Item.text, List.length_cons, hds.1]
    omega
  induction is using render.induct with
  | case1 => simp [render]
  | case2 u is ih =>
    have := ih fun i hi => h i (List.mem_cons_of_mem _ hi)
    rw [render, List.filter_cons_of_neg (by simp [Item.isRaw]), List.flatMap_cons]
    simp only [List.length_append, Item.text]
    omega
  | case3 e is ih =>
    have := ih fun i hi => h i (List.mem_cons_of_mem _ hi)
    have hle : (escaped e).toList.length ≤ 1 := by cases escaped e <;> simp
    rw [render, List.filter_cons_of_pos rfl, List.flatMap_cons]
    simp only [List.length_append, List.length_cons, List.length_nil, Item.text]
    omega
  | case4 high low is r hpair ih =>
    have := ih fun i hi => h i (List.mem_cons_of_mem _ (List.mem_cons_of_mem _ hi))
    have hhigh := hunit (h _ List.mem_cons_self) r
    have hlow := hunit (h _ (List.mem_cons_of_mem _ List.mem_cons_self)) r
    rw [render, hpair, List.filter_cons_of_pos rfl, List.filter_cons_of_pos rfl, List.flatMap_cons, List.flatMap_cons]
    simp only [List.length_append, List.length_cons]
    omega
  | case5 high low is hpair ih =>
    have := ih fun i hi => h i (List.mem_cons_of_mem _ hi)
    have hhigh := hunit (h _ List.mem_cons_self) (hexValue high)
    rw [render, hpair, List.filter_cons_of_pos rfl, List.flatMap_cons]
    simp only [List.length_append, List.length_cons]
    omega
  | case6 ds is hnot ih =>
    have := ih fun i hi => h i (List.mem_cons_of_mem _ hi)
    have hds := hunit (h _ List.mem_cons_self) (hexValue ds)
    rw [render, List.filter_cons_of_pos rfl, List.flatMap_cons]
    · simp only [List.length_append, List.length_cons]
      omega
    · exact hnot

/-- A unit that is no surrogate stands for a character of its own. -/
theorem render_unit {ds : Bytes} (h : hexValue ds < 0xD800) (is : List Item) :
    render (.unit ds :: is) = encodeRune (hexValue ds) ++ render is := by
  cases is with
  | nil => rfl
  | cons i is =>
    cases i with
    | unit low =>
      have hpair : surrogatePair (hexValue ds) (hexValue low) = none := by
        unfold surrogatePair
        rw [if_neg]
        omega
      rw [render, hpair]
    | _ => rfl

theorem isHex_ne_quote {c : UInt8} (h : isHex c = true) : c ≠ quote := by
  rintro rfl
  exact absurd h (by decide)

theorem isHex_unescaped {c : UInt8} (h : isHex c = true) : 0x20 ≤ c := by
  simp only [isHex, isDigit, Bool.or_eq_true, Bool.and_eq_true, decide_eq_true_eq] at h
  obtain (⟨h, -⟩ | ⟨h, -⟩) | ⟨h, -⟩ := h <;> exact UInt8.le_trans (by decide) h

theorem escaped_visible (h : (escaped e).isSome = true) : 0x20 ≤ e := by
  have hall : ∀ k < 256, (escaped (UInt8.ofNat k)).isSome = true → 0x20 ≤ UInt8.ofNat k := by decide +kernel
  have hk := hall e.toNat e.toNat_lt
  rw [UInt8.ofNat_toNat] at hk
  exact hk h

/-- There is no control character in the text of a string. -/
theorem Item.Proper.no_control (h : i.Proper) : ∀ c ∈ i.text, 0x20 ≤ c := by
  cases i with
  | raw u => exact fun c hc => (h.2 c hc).1
  | escape e =>
    intro c hc
    simp only [Item.text, List.mem_cons, List.not_mem_nil, or_false] at hc
    obtain rfl | rfl := hc
    · decide
    · exact escaped_visible h
  | unit ds =>
    intro c hc
    simp only [Item.text, List.mem_cons] at hc
    obtain rfl | rfl | hc := hc
    · decide
    · decide
    · exact isHex_unescaped (h.2 c hc)

/-- In the text of a string, a quote follows a backslash. -/
theorem quotes_escaped (h : ∀ i ∈ is, i.Proper) :
    (is.flatMap Item.text).IsChain (fun a b => b = quote → a = backslash) ∧
      (is.flatMap Item.text).head? ≠ some quote := by
  have hno {l : Bytes} (hl : ∀ c ∈ l, c ≠ quote) : l.IsChain (fun a b => b = quote → a = backslash) := by
    induction l with
    | nil => exact .nil
    | cons a l ih =>
      rw [List.forall_mem_cons] at hl
      refine List.isChain_cons.mpr ⟨fun b hb hquote => ?_, ih hl.2⟩
      exact absurd hquote (hl.2 b (List.mem_of_mem_head? hb))
  induction is with
  | nil => exact ⟨.nil, by simp⟩
  | cons i is ih =>
    rw [List.forall_mem_cons] at h
    obtain ⟨hchain, hhead⟩ := ih h.2
    rw [List.flatMap_cons]
    refine ⟨List.isChain_append.mpr ⟨?_, hchain, fun a _ b hb hquote => ?_⟩, h.1.head_ne_quote rfl⟩
    · cases i with
      | raw u => exact hno fun c hc => (h.1.2 c hc).2.1
      | escape e => simp [Item.text]
      | unit ds =>
        apply hno
        simp only [Item.text, List.mem_cons, forall_eq_or_imp]
        exact ⟨by decide, by decide, fun c hc => isHex_ne_quote (h.1.2 c hc)⟩
    · exact absurd (hquote ▸ hb) hhead

/-- A text is set between quotes as it is, and a comma and another string follow. If what is
read back is as long as the text, and the string that follows was not taken for a part of it,
then the text can stand between quotes. -/
theorem plain_of_readString {v r : Bytes} {c : UInt8}
    (h : readString (T ++ quote :: comma :: quote :: c :: rest) = some (v, r)) (hv : T.length ≤ v.length)
    (hr : r ≠ c :: rest) : Plain T := by
  obtain ⟨⟨is, r'⟩, hlex, heq⟩ := Option.map_eq_some_iff.mp h
  obtain ⟨rfl, rfl⟩ : render is = v ∧ r' = r := Prod.mk.inj heq
  obtain ⟨htext, his⟩ := lexString_eq_some.mp hlex
  have hlength := render_length his
  -- If the whole text was read and nothing got lost, then there is no escape in it.
  have hwhole (heq : is.flatMap Item.text = T) : Plain T := by
    have hraw : (is.filter fun i => !i.isRaw) = [] := by
      apply List.length_eq_zero_iff.mp
      rw [heq] at hlength
      omega
    rw [List.filter_eq_nil_iff] at hraw
    refine plain_iff_items.mpr ⟨is.map Item.text, fun u hu => ?_, ?_⟩
    · obtain ⟨i, hi, rfl⟩ := List.mem_map.mp hu
      cases i with
      | raw u => exact his _ hi
      | escape e => exact absurd rfl (hraw _ hi)
      | unit ds => exact absurd rfl (hraw _ hi)
    · rw [← heq, List.flatMap_def]
  obtain ⟨more, hmore, hrest⟩ | ⟨more, rfl, -⟩ := List.append_eq_append_iff.mp htext
  · -- A string that goes on goes on up to the next quote.
    match more with
    | [] => exact hwhole (by simpa using hmore)
    | [_] => exact absurd (List.cons.inj (List.cons.inj hrest).2).1 (by decide)
    | [_, _] =>
      have hend := (List.cons.inj (List.cons.inj (List.cons.inj hrest).2).2).2
      exact absurd hend.symm hr
    | a :: b :: d :: more =>
      obtain ⟨rfl, rfl, rfl, -⟩ : quote = a ∧ comma = b ∧ quote = d ∧ _ := by simpa using hrest
      have hchain := (quotes_escaped his).1
      rw [hmore] at hchain
      have hcomma := (List.isChain_cons_cons.mp (List.isChain_cons_cons.mp hchain.right_of_append).2).1 rfl
      exact absurd hcomma (by decide)
  · cases more with
    | nil => exact hwhole (List.append_nil _).symm
    | cons b more =>
      rw [List.length_append, List.length_cons] at hv
      omega

/-- A text is read back as it is, repaired if need be, only if it can stand between quotes. -/
theorem reads_sanitize_iff : Reads T (sanitize T) ↔ Plain T := by
  constructor
  · intro h
    refine plain_of_readString (h (comma :: quote :: comma :: [])) (length_le_sanitize T) ?_
    simp
  · intro h
    rw [sanitize_of_valid h.valid]
    exact h.reads

/-! ## Objects of strings -/

/-- A member of an object whose value is a string: as it is written, and what it stands for. -/
structure StringMember where
  keyText : Bytes
  key : Bytes
  valueText : Bytes
  value : Bytes

namespace StringMember

def text (m : StringMember) : Bytes := quote :: m.keyText ++ quote :: colon :: quote :: m.valueText ++ [quote]

/-- Members after the first, each with the comma before it. -/
def more (ms : List StringMember) : Bytes := ms.flatMap fun m => comma :: m.text

def pair (m : StringMember) : Bytes × Value := (m.key, .string m.value)

/-- The value's text is read back as the value. -/
def Good (m : StringMember) : Prop := Reads m.valueText m.value

/-- A byte after which no member ends. -/
def Separate (c : UInt8) : Prop := isSpace c = false ∧ c ≠ comma ∧ c ≠ 125

/-- Each member is good, or its value is set between quotes as it is and a member follows
whose key cannot be taken for the end of it. -/
def Followed : StringMember → List StringMember → Prop
  | m, [] => m.Good
  | m, m' :: ms =>
    (m.Good ∨ m.value = sanitize m.valueText ∧ ∃ c key, m'.keyText = c :: key ∧ Separate c) ∧ Followed m' ms

variable {m : StringMember} {ms : List StringMember} {n : Nat}

theorem good_of_plain (hvalue : m.value = sanitize m.valueText) (hplain : Plain m.valueText) : m.Good := by
  rw [Good, hvalue]
  exact reads_sanitize_iff.mpr hplain

/-- The members up to one whose value is good have keys that cannot be taken for the end of a
value, and those after it are good. -/
theorem followed_of_good {before after : List StringMember} {last : StringMember}
    (hraw : ∀ m' ∈ m :: before, m'.Good ∨ m'.value = sanitize m'.valueText)
    (hkeys : ∀ m' ∈ before ++ [last], ∃ c key, m'.keyText = c :: key ∧ Separate c)
    (hafter : ∀ m' ∈ last :: after, m'.Good) : Followed m (before ++ last :: after) := by
  have hgood {m : StringMember} {ms : List StringMember} (h : ∀ m' ∈ m :: ms, m'.Good) : Followed m ms := by
    induction ms generalizing m with
    | nil => exact h m List.mem_cons_self
    | cons m' ms ih =>
      rw [List.forall_mem_cons] at h
      exact ⟨.inl h.1, ih h.2⟩
  have hm {m' : StringMember} (hm' : m'.Good ∨ m'.value = sanitize m'.valueText) {next : StringMember}
      (hnext : ∃ c key, next.keyText = c :: key ∧ Separate c) :
      m'.Good ∨ m'.value = sanitize m'.valueText ∧ ∃ c key, next.keyText = c :: key ∧ Separate c :=
    hm'.imp_right fun hvalue => ⟨hvalue, hnext⟩
  induction before generalizing m with
  | nil => exact ⟨hm (hraw m List.mem_cons_self) (hkeys last List.mem_cons_self), hgood hafter⟩
  | cons m' before ih =>
    rw [List.forall_mem_cons] at hraw
    exact ⟨hm hraw.1 (hkeys m' List.mem_cons_self), ih hraw.2 fun m'' hm'' => hkeys m'' (List.mem_cons_of_mem _ hm'')⟩

/-- What becomes of a value once it is read. -/
def finish (n : Nat) (key : Bytes) (r : Bytes × Bytes) : Option (List (Bytes × Value) × Bytes) :=
  match skipSpace r.2 with
  | [] => none
  | c :: s =>
    if c = comma then (readMembers n s).map fun rest => ((key, .string r.1) :: rest.1, rest.2)
    else if c = 125 then some ([(key, .string r.1)], s)
    else none

theorem expect_self (c : UInt8) (s : Bytes) : expect c (c :: s) = some s := by
  simp [expect]

theorem readMembers_text (hkey : Reads m.keyText m.key) (n : Nat) (s : Bytes) :
    readMembers (n + 2) (m.text ++ s) = (readString (m.valueText ++ quote :: s)).bind (finish (n + 1) m.key) := by
  have htext : m.text ++ s = quote :: (m.keyText ++ quote :: colon :: quote :: (m.valueText ++ quote :: s)) := by
    simp [text]
  have hquote (t : Bytes) : expect quote (skipSpace (quote :: t)) = some t := by
    rw [skipSpace_of_not (by decide), expect_self]
  have hcolon (t : Bytes) : expect colon (skipSpace (colon :: t)) = some t := by
    rw [skipSpace_of_not (by decide), expect_self]
  rw [htext, readMembers, hquote]
  simp only [Option.bind_eq_bind, Option.bind_some, hkey _, hcolon, readValueOf_quote]
  cases readString (m.valueText ++ quote :: s) <;> rfl

theorem readMembers_more (hkey : Reads m.keyText m.key) (hgood : m.Good) (n : Nat) (s : Bytes) :
    readMembers (n + 2) (m.text ++ comma :: s) = (readMembers (n + 1) s).map fun r => (m.pair :: r.1, r.2) := by
  rw [readMembers_text hkey, hgood (comma :: s), Option.bind_some, finish, skipSpace_of_not (by decide)]
  exact if_pos rfl

theorem readMembers_last (hkey : Reads m.keyText m.key) (hgood : m.Good) (n : Nat) (s : Bytes) :
    readMembers (n + 2) (m.text ++ 125 :: s) = some ([m.pair], s) := by
  rw [readMembers_text hkey, hgood (125 :: s), Option.bind_some, finish, skipSpace_of_not (by decide)]
  simp only [show (125 : UInt8) ≠ comma by decide, if_false, if_true]
  rfl

theorem readMembers_good (hkeys : ∀ m' ∈ m :: ms, Reads m'.keyText m'.key) (hgood : ∀ m' ∈ m :: ms, m'.Good)
    (hn : ms.length ≤ n) (s : Bytes) :
    readMembers (n + 2) (m.text ++ (more ms ++ 125 :: s)) = some ((m :: ms).map pair, s) := by
  induction ms generalizing m n with
  | nil => exact readMembers_last (hkeys m List.mem_cons_self) (hgood m List.mem_cons_self) n s
  | cons m' ms ih =>
    rw [List.forall_mem_cons] at hkeys hgood
    obtain ⟨k, rfl⟩ : ∃ k, n = k + 1 := ⟨n - 1, by simp at hn; omega⟩
    have hrest := ih hkeys.2 hgood.2 (n := k) (by simpa using hn)
    rw [more, List.flatMap_cons, List.cons_append, List.cons_append, List.append_assoc,
      readMembers_more hkeys.1 hgood.1, ← more, hrest]
    rfl

/-- A value that is set between quotes as it is, and followed by another member, is only read
back if it can stand between quotes. -/
theorem plain_of_readMembers {m' : StringMember} (hkey : Reads m.keyText m.key)
    (hvalue : m.value = sanitize m.valueText)
    {c : UInt8} {key : Bytes} (hc : m'.keyText = c :: key) (hseparate : Separate c) {s r : Bytes}
    {rest : List (Bytes × Value)}
    (h : readMembers (n + 2) (m.text ++ comma :: (m'.text ++ s)) = some (m.pair :: rest, r)) : Plain m.valueText := by
  have htext : m'.text = quote :: c :: (key ++ quote :: colon :: quote :: m'.valueText ++ [quote]) := by simp [text, hc]
  rw [readMembers_text hkey, htext, List.cons_append, List.cons_append] at h
  obtain ⟨⟨v, r'⟩, hread, hfinish⟩ := Option.bind_eq_some_iff.mp h
  have hv : v = m.value := by
    unfold finish at hfinish
    split at hfinish
    · cases hfinish
    · split at hfinish
      · obtain ⟨_, -, heq⟩ := Option.map_eq_some_iff.mp hfinish
        cases heq
        rfl
      · split at hfinish
        · cases hfinish
          rfl
        · cases hfinish
  refine plain_of_readString hread (by rw [hv, hvalue]; exact length_le_sanitize _) fun hr => ?_
  obtain ⟨hspace, hcomma, hbrace⟩ := hseparate
  rw [finish, hr, skipSpace_of_not hspace] at hfinish
  simp [hcomma, hbrace] at hfinish

theorem good_of_readMembers (hkeys : ∀ m' ∈ m :: ms, Reads m'.keyText m'.key) (hfollowed : Followed m ms)
    (hn : ms.length ≤ n) {s r : Bytes}
    (h : readMembers (n + 2) (m.text ++ (more ms ++ 125 :: s)) = some ((m :: ms).map pair, r)) :
    ∀ m' ∈ m :: ms, m'.Good := by
  induction ms generalizing m n with
  | nil => simpa [Followed] using hfollowed
  | cons m' ms ih =>
    rw [List.forall_mem_cons] at hkeys
    obtain ⟨hm, hfollowed⟩ := hfollowed
    obtain ⟨k, rfl⟩ : ∃ k, n = k + 1 := ⟨n - 1, by simp at hn; omega⟩
    rw [more, List.flatMap_cons, List.cons_append, List.cons_append, List.append_assoc, ← more] at h
    have hgood : m.Good := by
      obtain hgood | ⟨hvalue, c, key, hc, hseparate⟩ := hm
      · exact hgood
      · exact good_of_plain hvalue (plain_of_readMembers hkeys.1 hvalue hc hseparate h)
    rw [readMembers_more hkeys.1 hgood] at h
    obtain ⟨⟨rest, r'⟩, hrest, heq⟩ := Option.map_eq_some_iff.mp h
    cases heq
    exact List.forall_mem_cons.mpr ⟨hgood, ih hkeys.2 hfollowed (n := k) (by simpa using hn) hrest⟩

theorem length_le_more (ms : List StringMember) : ms.length ≤ (more ms).length := by
  induction ms with
  | nil => exact le_rfl
  | cons m ms ih =>
    rw [more, List.flatMap_cons, ← more, List.length_append, List.length_cons, List.length_cons]
    omega

/-- An object that does not end at once. -/
theorem readValueOf_object {s : Bytes} (hs : s.head? = some quote) (n : Nat) :
    readValueOf (n + 1) (123 :: s) = (readMembers n s).map fun r => (.object r.1, r.2) := by
  obtain ⟨s, rfl⟩ := List.head?_eq_some_iff.mp hs
  have hend : expect 125 (skipSpace (quote :: s)) = none := by
    rw [skipSpace_of_not (by decide), expect, if_neg (by decide)]
  rw [readValueOf, skipSpace_of_not (by decide)]
  simp only [if_true, hend]

/-- The whole object is read back if and only if the values can stand as they are written. -/
theorem parse_eq_iff (hkeys : ∀ m' ∈ m :: ms, Reads m'.keyText m'.key) (hfollowed : Followed m ms) :
    parse (123 :: (m.text ++ (more ms ++ [125]))) = some (.object ((m :: ms).map pair)) ↔
      ∀ m' ∈ m :: ms, m'.Good := by
  obtain ⟨n, hn, hle⟩ : ∃ n, (m.text ++ (more ms ++ [125])).length + 1 = n + 2 ∧ ms.length ≤ n := by
    have hmore := length_le_more ms
    refine ⟨m.text.length + (more ms).length, ?_, by omega⟩
    simp only [List.length_append, List.length_singleton]
    omega
  rw [parse_eq_some, List.length_cons, readValueOf_object (by simp [text]), hn]
  constructor
  · rintro ⟨rest, hvalue, -⟩
    obtain ⟨⟨members, r⟩, hread, heq⟩ := Option.map_eq_some_iff.mp hvalue
    cases heq
    exact good_of_readMembers hkeys hfollowed hle hread
  · intro hgood
    exact ⟨[], by rw [readMembers_good hkeys hgood hle]; rfl, rfl⟩

end StringMember

end Json
