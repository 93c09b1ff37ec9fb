-- SUMMARY: JSON arrays of strings, and what their quotes tell.
import Syslogc.Lib.JsonValue

/-!
# Arrays of strings

An array that is put together from the texts of strings is read back as these strings. In
the other direction, the quotes of any text that is read as an array of strings come in
pairs, one for each string: `scan` follows them byte by byte.
-/

namespace Json

open Utf8

variable {s t rest T v : Bytes} {n : Nat}

/-! ## Reading strings one after the other -/

/-- What a text between quotes is read as, if it is read at all. -/
def ReadsAs (T : Bytes) (v : Option Bytes) : Prop :=
  ∀ rest, readString (T ++ quote :: rest) = v.map fun v => (v, rest)

theorem readsAs_nil : ReadsAs [] (some []) := by
  intro rest
  rw [List.nil_append, readString, lexString_quote]
  rfl

/-- One item more in front. -/
theorem readString_item {i : Item} (hi : i.Proper) {u : Bytes} (hu : ∀ is, render (i :: is) = u ++ render is)
    (s : Bytes) : readString (i.text ++ s) = (readString s).map fun r => (u ++ r.1, r.2) := by
  rw [readString, readString, lexString_item hi]
  cases lexString 0 s with
  | none => rfl
  | some r => simp [hu]

theorem ReadsAs.item {i : Item} (hi : i.Proper) {u : Bytes} (hu : ∀ is, render (i :: is) = u ++ render is)
    {v : Option Bytes} (h : ReadsAs T v) : ReadsAs (i.text ++ T) (v.map (u ++ ·)) := by
  intro rest
  rw [List.append_assoc, readString_item hi hu, h rest]
  cases v <;> rfl

theorem readValueOf_array (n : Nat) (s : Bytes) : readValueOf (n + 1) (91 :: quote :: s) =
    (readElements n (quote :: s)).map fun r => (.array r.1, r.2) := by
  rw [readValueOf, skipSpace_of_not (by decide)]
  simp only [show (91 : UInt8) ≠ 123 by decide, if_false, if_true, skipSpace_of_not (c := quote) (by decide), expect,
    show quote ≠ 93 by decide]

/-- Strings after the first, each with the comma before it. -/
def moreStrings (Ts : List Bytes) : Bytes := Ts.flatMap fun T => comma :: quote :: T ++ [quote]

@[simp] theorem moreStrings_nil : moreStrings [] = [] := rfl

@[simp] theorem moreStrings_cons (T : Bytes) (Ts : List Bytes) :
    moreStrings (T :: Ts) = comma :: quote :: (T ++ quote :: moreStrings Ts) := by
  simp [moreStrings]

/-- Strings are read one after the other up to the first that is not read. -/
theorem readElements_strings {v : Option Bytes} {Ts : List Bytes} {vs : List (Option Bytes)} (hT : ReadsAs T v)
    (hTs : List.Forall₂ ReadsAs Ts vs) (hn : Ts.length ≤ n) (rest : Bytes) :
    readElements (n + 2) (quote :: (T ++ quote :: (moreStrings Ts ++ 93 :: rest))) =
      ((v :: vs).mapM id).map fun vs => (vs.map .string, rest) := by
  induction hTs generalizing T v n with
  | nil =>
    rw [readElements, readValueOf_quote, hT]
    cases v with
    | none => rfl
    | some v => simp [skipSpace_of_not (c := 93) (by decide), comma]
  | @cons T' v' Ts vs hT' hTs ih =>
    obtain ⟨k, rfl⟩ : ∃ k, n = k + 1 := ⟨n - 1, by simp at hn; omega⟩
    rw [readElements, readValueOf_quote, hT]
    cases v with
    | none => rfl
    | some v =>
      have hrest := ih hT' (n := k) (by simpa using hn)
      simp only [moreStrings_cons, List.cons_append, List.append_assoc, Option.map_some, Option.bind_eq_bind,
        Option.bind_some, skipSpace_of_not (c := comma) (by decide), if_true, hrest]
      simp only [List.mapM_cons, id_eq, Option.bind_eq_bind]
      cases v' with
      | none => rfl
      | some v' => cases (vs.mapM id) <;> rfl

theorem mapM_id_eq_some {α : Type} {l : List (Option α)} {us : List α} : l.mapM id = some us ↔ l = us.map some := by
  induction l generalizing us with
  | nil => cases us <;> simp
  | cons a l ih =>
    cases a with
    | none => cases us <;> simp
    | some a =>
      have hbind : ((some a :: l).mapM id) = (l.mapM id).map (a :: ·) := by
        rw [List.mapM_cons]
        cases l.mapM id <;> rfl
      rw [hbind, Option.map_eq_some_iff]
      cases us with
      | nil => simp
      | cons u us => simp [ih, and_comm]

/-- An array of strings as it is written. -/
def arrayText (T : Bytes) (Ts : List Bytes) : Bytes := 91 :: quote :: (T ++ quote :: (moreStrings Ts ++ [93]))

theorem moreStrings_length (Ts : List Bytes) : Ts.length ≤ (moreStrings Ts).length := by
  induction Ts with
  | nil => simp
  | cons T Ts ih =>
    simp only [moreStrings_cons, List.length_cons, List.length_append]
    omega

/-- An array is read as what its strings are read as. -/
theorem parse_arrayText {v : Option Bytes} {Ts : List Bytes} {vs : List (Option Bytes)} (hT : ReadsAs T v)
    (hTs : List.Forall₂ ReadsAs Ts vs) :
    parse (arrayText T Ts) = ((v :: vs).mapM id).map fun vs => .array (vs.map .string) := by
  obtain ⟨n, hn, hle⟩ : ∃ n, (arrayText T Ts).length = n + 2 ∧ Ts.length ≤ n := by
    refine ⟨(T ++ quote :: (moreStrings Ts ++ [93])).length, by simp [arrayText], ?_⟩
    have := moreStrings_length Ts
    simp only [List.length_append, List.length_cons]
    omega
  rw [parse, hn, arrayText, readValueOf_array, readElements_strings hT hTs hle []]
  cases ((v :: vs).mapM id) with
  | none => rfl
  | some vs => simp [skipSpace]

/-! ## Quotes -/

/-- Where a byte of a text stands: a backslash outside of strings makes no sense. -/
inductive Place where
  | outside
  | inside
  | escape
  | lost
deriving DecidableEq

def Place.step (p : Place) (c : UInt8) : Place :=
  match p with
  | .outside => if c = quote then .inside else if c = backslash then .lost else .outside
  | .inside => if c = quote then .outside else if c = backslash then .escape else .inside
  | .escape => .inside
  | .lost => .lost

/-- Where the byte after a text stands. -/
def scan (p : Place) (s : Bytes) : Place := s.foldl Place.step p

/-- The strings that begin in a text. -/
def opened : Place → Bytes → Nat
  | _, [] => 0
  | p, c :: s => (if p = .outside ∧ c = quote then 1 else 0) + opened (p.step c) s

@[simp] theorem scan_nil (p : Place) : scan p [] = p := rfl

@[simp] theorem scan_cons (p : Place) (c : UInt8) (s : Bytes) : scan p (c :: s) = scan (p.step c) s := rfl

theorem scan_append (p : Place) (s t : Bytes) : scan p (s ++ t) = scan (scan p s) t := List.foldl_append

theorem opened_append (p : Place) (s t : Bytes) : opened p (s ++ t) = opened p s + opened (scan p s) t := by
  induction s generalizing p with
  | nil => simp [opened]
  | cons c s ih => simp only [List.cons_append, opened, ih, scan_cons, Nat.add_assoc]

/-- A text goes from a place to a place, and so many strings begin in it. -/
structure Walk (p : Place) (s : Bytes) (q : Place) (k : Nat) : Prop where
  scan : Json.scan p s = q
  opened : Json.opened p s = k

theorem Walk.nil (p : Place) : Walk p [] p 0 := ⟨rfl, rfl⟩

theorem Walk.append {p q r : Place} {j k : Nat} (h : Walk p s q j) (h' : Walk q t r k) : Walk p (s ++ t) r (j + k) := by
  constructor
  · rw [scan_append, h.scan, h'.scan]
  · rw [opened_append, h.scan, h.opened, h'.opened]

theorem Walk.cons {p q : Place} {c : UInt8} {k : Nat} (hc : ¬ (p = .outside ∧ c = quote)) (h : Walk (p.step c) s q k) :
    Walk p (c :: s) q k := by
  refine ⟨h.scan, ?_⟩
  rw [Json.opened, if_neg hc, h.opened, Nat.zero_add]

theorem Walk.open {q : Place} {k : Nat} (h : Walk .inside s q k) : Walk .outside (quote :: s) q (k + 1) := by
  refine ⟨h.scan, ?_⟩
  rw [Json.opened, if_pos ⟨rfl, rfl⟩, Nat.add_comm]
  exact congrArg (· + 1) h.opened

/-- Bytes that are no quotes and no backslashes lead nowhere. -/
theorem walk_plain {p : Place} (hp : p = .outside ∨ p = .inside) (h : ∀ c ∈ s, c ≠ quote ∧ c ≠ backslash) :
    Walk p s p 0 := by
  induction s with
  | nil => exact .nil p
  | cons c s ih =>
    rw [List.forall_mem_cons] at h
    have hstep : p.step c = p := by
      obtain rfl | rfl := hp <;> simp [Place.step, h.1]
    refine .cons (fun hc => h.1.1 hc.2) ?_
    rw [hstep]
    exact ih h.2

theorem walk_item {i : Item} (h : i.Proper) : Walk .inside i.text .inside 0 := by
  cases i with
  | raw u => exact walk_plain (.inr rfl) fun c hc => (h.2 c hc).2
  | escape e => exact .cons (by simp) (.cons (by simp [Place.step, quote, backslash]) (.nil _))
  | unit ds =>
    have hds : Walk .inside ds .inside 0 := by
      refine walk_plain (.inr rfl) fun c hc => ⟨isHex_ne_quote (h.2 c hc), ?_⟩
      rintro rfl
      exact absurd (h.2 backslash hc) (by decide)
    exact .cons (by simp) (.cons (by simp [Place.step, quote, backslash]) hds)

theorem walk_items {is : List Item} (h : ∀ i ∈ is, i.Proper) : Walk .inside (is.flatMap Item.text) .inside 0 := by
  induction is with
  | nil => exact .nil _
  | cons i is ih =>
    rw [List.forall_mem_cons] at h
    exact (walk_item h.1).append (ih h.2)

theorem walk_spaces (s : Bytes) : ∃ spaces, s = spaces ++ skipSpace s ∧ Walk .outside spaces .outside 0 := by
  refine ⟨s.takeWhile isSpace, (List.takeWhile_append_dropWhile).symm, walk_plain (.inl rfl) fun c hc => ?_⟩
  have hspace := List.mem_takeWhile_imp hc
  constructor <;> rintro rfl <;> exact absurd hspace (by decide)

theorem readString_items (h : readString s = some (v, rest)) :
    ∃ is : List Item, s = is.flatMap Item.text ++ quote :: rest ∧ (∀ i ∈ is, i.Proper) ∧ render is = v := by
  obtain ⟨⟨is, rest'⟩, hlex, heq⟩ := Option.map_eq_some_iff.mp h
  obtain ⟨rfl, rfl⟩ : render is = v ∧ rest' = rest := Prod.mk.inj heq
  obtain ⟨htext, his⟩ := lexString_eq_some.mp hlex
  exact ⟨is, htext, his, rfl⟩

/-- The quotes around a text that leads nowhere from inside. -/
theorem walk_quoted (h : Walk .inside T .inside 0) : Walk .outside (quote :: (T ++ [quote])) .outside 1 := by
  have hclose : Walk .inside [quote] .outside 0 := .cons (by simp) (.nil _)
  exact (h.append hclose).open

theorem readValueOf_string (h : readValueOf n s = some (.string v, rest)) :
    ∃ t, skipSpace s = quote :: t ∧ readString t = some (v, rest) := by
  cases n with
  | zero => cases h
  | succ n =>
    rw [readValueOf] at h
    split at h
    · cases h
    · rename_i c t hspace
      split at h
      · split at h
        · cases h
        · obtain ⟨r, -, heq⟩ := Option.map_eq_some_iff.mp h
          cases heq
      · split at h
        · split at h
          · cases h
          · obtain ⟨r, -, heq⟩ := Option.map_eq_some_iff.mp h
            cases heq
        · split at h
          · rename_i hquote
            obtain ⟨r, hread, heq⟩ := Option.map_eq_some_iff.mp h
            cases heq
            exact ⟨t, by rw [hspace, hquote], hread⟩
          · -- what is neither an object nor an array nor between quotes is no string
            unfold readScalar at h
            split at h
            · cases h
            · split at h
              · cases h
              · split at h
                · cases h
                · obtain ⟨r, -, heq⟩ := Option.map_eq_some_iff.mp h
                  cases heq

/-- The first of several strings, and what follows it. -/
theorem readElements_cons {us : List Value} (h : readElements n s = some (.string v :: us, rest)) :
    ∃ (is : List Item) (t : Bytes), skipSpace s = quote :: (is.flatMap Item.text ++ quote :: t) ∧
      (∀ i ∈ is, i.Proper) ∧ render is = v ∧
      ((∃ m t', skipSpace t = comma :: t' ∧ readElements m t' = some (us, rest)) ∨
        us = [] ∧ skipSpace t = 93 :: rest) := by
  cases n with
  | zero => cases h
  | succ n =>
    rw [readElements] at h
    obtain ⟨⟨value, t⟩, hvalue, h⟩ := Option.bind_eq_some_iff.mp h
    dsimp only at h
    split at h
    · cases h
    · rename_i c t' hspace
      have hfirst : value = .string v := by
        split at h
        · obtain ⟨r, -, heq⟩ := Option.map_eq_some_iff.mp h
          cases heq
          rfl
        · split at h
          · cases h
            rfl
          · cases h
      subst hfirst
      obtain ⟨s', hs, hread⟩ := readValueOf_string hvalue
      obtain ⟨is, rfl, his, hrender⟩ := readString_items hread
      refine ⟨is, t, hs, his, hrender, ?_⟩
      split at h
      · rename_i hcomma
        obtain ⟨r, hmore, heq⟩ := Option.map_eq_some_iff.mp h
        cases heq
        exact .inl ⟨n, t', hcomma ▸ hspace, hmore⟩
      · split at h
        · rename_i hend
          cases h
          exact .inr ⟨rfl, hend ▸ hspace⟩
        · cases h

theorem readElements_ne_nil (n : Nat) (s rest : Bytes) : readElements n s ≠ some ([], rest) := by
  intro h
  cases n with
  | zero => cases h
  | succ n =>
    rw [readElements] at h
    obtain ⟨⟨value, t⟩, -, h⟩ := Option.bind_eq_some_iff.mp h
    dsimp only at h
    split at h
    · cases h
    · split at h
      · obtain ⟨r, -, heq⟩ := Option.map_eq_some_iff.mp h
        cases heq
      · split at h <;> cases h

/-- One pair of quotes for each string. -/
theorem readElements_walk {us : List Bytes} (h : readElements n s = some (us.map .string, rest)) :
    ∃ t, s = t ++ rest ∧ Walk .outside t .outside us.length := by
  induction us generalizing n s with
  | nil => exact absurd h (readElements_ne_nil n s rest)
  | cons u us ih =>
    obtain ⟨is, t, hs, his, -, hend⟩ := readElements_cons h
    obtain ⟨spaces, hspaces, hwalk⟩ := walk_spaces s
    obtain ⟨spaces', hspaces', hwalk'⟩ := walk_spaces t
    have hsep {c : UInt8} (hc : c = comma ∨ c = 93) : Walk .outside [c] .outside 0 :=
      walk_plain (.inl rfl) (by obtain rfl | rfl := hc <;> simp [quote, backslash, comma])
    have hfirst := hwalk.append ((walk_quoted (walk_items his)).append hwalk')
    obtain ⟨m, t', ht, hmore⟩ | ⟨hnil, ht⟩ := hend
    · obtain ⟨t'', rfl, hrest⟩ := ih hmore
      refine ⟨_, ?_, Nat.add_comm us.length 1 ▸ (hfirst.append (hsep (.inl rfl))).append hrest⟩
      rw [hspaces, hs, hspaces', ht]
      simp
    · obtain rfl := List.map_eq_nil_iff.mp hnil
      refine ⟨_, ?_, hfirst.append (hsep (.inr rfl))⟩
      rw [hspaces, hs, hspaces', ht]
      simp

theorem parse_elements {us : List Value} (h : parse (91 :: quote :: s) = some (.array us)) :
    ∃ n rest, readElements n (quote :: s) = some (us, rest) ∧ skipSpace rest = [] := by
  obtain ⟨rest, hvalue, hrest⟩ := parse_eq_some.mp h
  rw [readValueOf_array] at hvalue
  obtain ⟨⟨vs, r⟩, hread, heq⟩ := Option.map_eq_some_iff.mp hvalue
  cases heq
  exact ⟨_, _, hread, hrest⟩

/-- In a text that is read as an array of strings, the quotes come in pairs. -/
theorem parse_walk {us : List Bytes} (h : parse (91 :: quote :: s) = some (.array (us.map .string))) :
    Walk .outside (91 :: quote :: s) .outside us.length := by
  obtain ⟨n, rest, hread, hrest⟩ := parse_elements h
  obtain ⟨t, ht, hwalk⟩ := readElements_walk hread
  obtain ⟨spaces, hspaces, hwalk'⟩ := walk_spaces rest
  rw [hrest, List.append_nil] at hspaces
  refine .cons (by simp [quote]) ?_
  rw [ht, hspaces]
  exact hwalk.append hwalk'

/-- The first string ends at the first quote that no backslash precedes. -/
theorem parse_first {us : List Value} (h : parse (91 :: quote :: s) = some (.array (.string v :: us))) :
    ∃ (is : List Item) (t : Bytes), s = is.flatMap Item.text ++ quote :: t ∧ (∀ i ∈ is, i.Proper) ∧ render is = v := by
  obtain ⟨n, rest, hread, -⟩ := parse_elements h
  obtain ⟨is, t, hs, his, hrender, -⟩ := readElements_cons hread
  rw [skipSpace_of_not (by decide)] at hs
  exact ⟨is, t, (List.cons.inj hs).2, his, hrender⟩

/-! ## Strings behind any text -/

/-- A text as it can stand between quotes: from inside it does not lead out, and from
outside it opens nothing. -/
structure Enclosed (T : Bytes) : Prop where
  inside : Walk .inside T .inside 0
  outside : scan .outside T = .outside ∨ scan .outside T = .lost

theorem scan_lost (s : Bytes) : scan .lost s = .lost := by
  induction s with
  | nil => rfl
  | cons c s ih => exact ih

theorem walk_moreStrings {Ts : List Bytes} (h : ∀ T ∈ Ts, Enclosed T) :
    Walk .outside (moreStrings Ts) .outside Ts.length := by
  induction Ts with
  | nil => exact .nil _
  | cons T Ts ih =>
    rw [List.forall_mem_cons] at h
    have hall := (walk_quoted h.1.inside).append (ih h.2)
    rw [Nat.add_comm, List.cons_append, List.append_assoc] at hall
    rw [moreStrings_cons]
    exact .cons (by simp [comma, quote]) hall

/-- Where a string has been opened, the quotes of strings close it and open it again. -/
theorem scan_moreStrings {Ts : List Bytes} (h : ∀ T ∈ Ts, Enclosed T) {p : Place} (hp : p ≠ .outside) :
    scan p (moreStrings Ts) ≠ .outside := by
  induction Ts generalizing p with
  | nil => exact hp
  | cons T Ts ih =>
    rw [List.forall_mem_cons] at h
    have hquote : scan p [comma, quote] = .outside ∨ scan p [comma, quote] = .lost := by
      cases p with
      | outside => exact absurd rfl hp
      | inside => exact .inl rfl
      | escape => exact .inl rfl
      | lost => exact .inr rfl
    have htext : moreStrings (T :: Ts) = [comma, quote] ++ (T ++ ([quote] ++ moreStrings Ts)) := by simp
    rw [htext, scan_append, scan_append, scan_append]
    refine ih h.2 ?_
    obtain hquote | hquote := hquote
    · rw [hquote]
      obtain hT | hT := h.1.outside <;> rw [hT] <;> simp [Place.step]
    · rw [hquote, scan_lost, scan_lost]
      simp

/-- To get inside a string one must begin. -/
theorem opened_pos (h : scan .outside s = .inside ∨ scan .outside s = .escape) : 1 ≤ opened .outside s := by
  induction s with
  | nil => simp at h
  | cons c s ih =>
    by_cases hquote : c = quote
    · simp [opened, hquote]
    · by_cases hback : c = backslash
      · rw [scan_cons, hback] at h
        simp [Place.step, quote, backslash, scan_lost] at h
      · simp only [scan_cons, Place.step, hquote, hback, if_false] at h
        simp only [opened, Place.step, hquote, hback, and_false, if_false, Nat.zero_add]
        exact ih h

/-- Strings behind a text that ends with a quote: if the quotes come in pairs, then there
is another string for the text. -/
theorem length_lt_of_walk {Ts : List Bytes} (h : ∀ T ∈ Ts, Enclosed T) {k : Nat}
    (hwalk : Walk .outside (s ++ quote :: (moreStrings Ts ++ [93])) .outside k) : Ts.length < k := by
  have htext : s ++ quote :: (moreStrings Ts ++ [93]) = (s ++ [quote]) ++ (moreStrings Ts ++ [93]) := by simp
  have hclose {p : Place} : scan p [93] = .outside → p = .outside := by
    cases p <;> simp [Place.step, quote, backslash]
  rw [htext] at hwalk
  have hscan := hwalk.scan
  rw [scan_append, scan_append] at hscan
  by_cases hout : scan .outside (s ++ [quote]) = .outside
  · have hinside : scan .outside s = .inside := by
      rw [scan_append] at hout
      cases hs : scan .outside s with
      | inside => rfl
      | _ => rw [hs] at hout; simp [Place.step] at hout
    have hpos := opened_pos (.inl hinside)
    have hmore := walk_moreStrings h
    have hopened := hwalk.opened
    rw [opened_append, opened_append, hout, opened_append, hmore.opened] at hopened
    omega
  · exact absurd (hclose hscan) (scan_moreStrings h hout)

end Json
