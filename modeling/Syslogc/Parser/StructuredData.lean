-- SUMMARY: Structured data as written, and the fields it becomes.
import Syslogc.Parser.Rfc5424
import Mathlib

/-!
# Structured data

`ReadsElements` is the grammar of structured data. The fields that the parser makes of it
are described by slots: a slot is a field together with the parameters whose values are in
it. A parameter goes into the first slot of its element whose key is one of its own, and
into a new slot otherwise.
-/

namespace Syslogc.Parser.Rfc5424

open Logentry

/-! ## What is written -/

structure SDParam where
  name : Bytes
  value : Bytes
deriving DecidableEq, Repr

structure SDElement where
  id : Bytes
  params : List SDParam
deriving DecidableEq, Repr

/-- A value from behind its opening quote, and what follows the closing one. A backslash
escapes a quote, a backslash and a closing bracket, and stands for itself before all else. -/
inductive ReadsValue : Bytes → Bytes → Bytes → Prop
  | close (rest : Bytes) : ReadsValue (34 :: rest) [] rest
  | escaped {c : UInt8} {s value rest : Bytes} (hc : c = 34 ∨ c = 92 ∨ c = 93) (hmore : ReadsValue s value rest) :
      ReadsValue (92 :: c :: s) (c :: value) rest
  | plain {c : UInt8} {s value rest : Bytes} (hc : c ≠ 34)
      (hescape : c = 92 → ∀ e ∈ s.head?, e ≠ 34 ∧ e ≠ 92 ∧ e ≠ 93) (hmore : ReadsValue s value rest) :
      ReadsValue (c :: s) (c :: value) rest

/-- The parameters of an element, from behind its name to its end, and what follows. -/
inductive ReadsParams : Bytes → List SDParam → Bytes → Prop
  | done (rest : Bytes) : ReadsParams (93 :: rest) [] rest
  | param {name value after s rest : Bytes} {ps : List SDParam} (hname : name ≠ [])
      (hchars : ∀ c ∈ name, isSDNameChar c = true) (hvalue : ReadsValue after value s)
      (hmore : ReadsParams s ps rest) :
      ReadsParams (32 :: (name ++ 61 :: 34 :: after)) (⟨name, value⟩ :: ps) rest

/-- Elements one after the other, and what follows them. -/
inductive ReadsElements : Bytes → List SDElement → Bytes → Prop
  | done {s : Bytes} (hend : s.head? ≠ some 91) : ReadsElements s [] s
  | element {id s s' rest : Bytes} {ps : List SDParam} {els : List SDElement} (hid : id ≠ [])
      (hchars : ∀ c ∈ id, isSDNameChar c = true) (hparams : ReadsParams s ps s')
      (hmore : ReadsElements s' els rest) : ReadsElements (91 :: (id ++ s)) (⟨id, ps⟩ :: els) rest

/-- The fields with those of an element. -/
def addElement (short : Bool) (fields : List Field) (el : SDElement) : List Field :=
  el.params.foldl (fun fs p => addSDParam fs fields.length el.id p.name p.value short) fields

variable {rest : Bytes}

theorem readsValue_iff {s value : Bytes} : ReadsValue s value rest ↔ sdValue s = some (value, rest) := by
  constructor
  · intro h
    induction h with
    | close rest =>
      rw [sdValue.eq_def]
      rfl
    | escaped hc _ ih =>
      rw [sdValue.eq_def]
      simp only [if_true, ih, Option.map_some]
      rw [if_pos (by simpa [or_assoc] using hc)]
    | @plain c s value rest hc hescape hmore ih =>
      rw [sdValue.eq_def]
      by_cases hback : c = 92
      · cases s with
        | nil => cases hmore
        | cons e after =>
          have hplain := hescape hback e rfl
          simp [hback, hplain, ih]
      · simp [hback, hc, ih]
  · intro h
    fun_induction sdValue s generalizing value with
    | case1 | case2 => cases h
    | case3 e after hspecial ih =>
      obtain ⟨r, hr, heq⟩ := Option.map_eq_some_iff.mp h
      cases heq
      exact .escaped (by simpa [or_assoc] using hspecial) (ih hr)
    | case4 e after hplain ih =>
      obtain ⟨r, hr, heq⟩ := Option.map_eq_some_iff.mp h
      cases heq
      refine .plain (by decide) (fun _ e' he' => ?_) (ih hr)
      cases he'
      simpa [not_or, and_assoc] using hplain
    | case5 =>
      cases h
      exact .close _
    | case6 c rest' hback hquote ih =>
      obtain ⟨r, hr, heq⟩ := Option.map_eq_some_iff.mp h
      cases heq
      exact .plain hquote (fun hc => absurd hc hback) (ih hr)

theorem sdValue_suffix {s value : Bytes} (h : sdValue s = some (value, rest)) :
    rest <:+ s ∧ rest.length < s.length := by
  fun_induction sdValue s generalizing value with
  | case1 | case2 => cases h
  | case3 e after _ ih =>
    obtain ⟨r, hr, heq⟩ := Option.map_eq_some_iff.mp h
    cases heq
    obtain ⟨hsuffix, hlt⟩ := ih hr
    exact ⟨hsuffix.trans ((List.suffix_cons _ _).trans (List.suffix_cons _ _)), by simp only [List.length_cons]; omega⟩
  | case4 _ _ _ ih | case6 _ _ _ _ ih =>
    obtain ⟨r, hr, heq⟩ := Option.map_eq_some_iff.mp h
    cases heq
    obtain ⟨hsuffix, hlt⟩ := ih hr
    exact ⟨hsuffix.trans (List.suffix_cons _ _), hlt.trans (Nat.lt_succ_self _)⟩
  | case5 =>
    cases h
    exact ⟨List.suffix_cons _ _, Nat.lt_succ_self _⟩

theorem ReadsParams.sdParams_eq {s : Bytes} {ps : List SDParam} (h : ReadsParams s ps rest) (length : Nat)
    (short : Bool) (id : Bytes) (elemStart : Nat) {n : Nat} (hn : s.length ≤ n) (fields : List Field) :
    sdParams length short id elemStart (n + 1) fields s =
      .ok (ps.foldl (fun fs p => addSDParam fs elemStart id p.name p.value short) fields, rest) := by
  induction h generalizing n fields with
  | done rest => rw [sdParams, if_pos rfl, List.foldl_nil]
  | @param name value after s rest ps hname hchars hvalue _ ih =>
    have hvalue := readsValue_iff.mp hvalue
    have hlength := (sdValue_suffix hvalue).2
    simp only [List.length_cons, List.length_append] at hn
    obtain ⟨k, rfl⟩ : ∃ k, n = k + 1 := ⟨n - 1, by omega⟩
    obtain ⟨htake, hdrop⟩ := Bytes.takeWhile_stop hchars (c := 61) (by decide) (34 :: after)
    rw [sdParams, if_neg (by decide), if_neg (by decide)]
    simp only [htake, hdrop, hname, if_false, hvalue, List.foldl_cons]
    exact ih (by omega) _

/-- What follows the name of an element. -/
theorem ReadsParams.head {s : Bytes} {ps : List SDParam} (h : ReadsParams s ps rest) :
    ∃ c t, s = c :: t ∧ isSDNameChar c = false := by
  cases h with
  | done => exact ⟨93, _, rfl, by decide⟩
  | param => exact ⟨32, _, rfl, by decide⟩

theorem ReadsParams.suffix {s : Bytes} {ps : List SDParam} (h : ReadsParams s ps rest) :
    rest <:+ s ∧ rest.length < s.length := by
  induction h with
  | done => exact ⟨List.suffix_cons _ _, Nat.lt_succ_self _⟩
  | @param name value after s _ _ _ _ hvalue _ ih =>
    obtain ⟨hafter, hlength⟩ := sdValue_suffix (readsValue_iff.mp hvalue)
    refine ⟨(ih.1.trans hafter).trans ⟨32 :: (name ++ [61, 34]), by simp⟩, ?_⟩
    simp only [List.length_cons, List.length_append]
    omega

/-- What is read is in the grammar. -/
theorem readsParams_of_ok {length : Nat} {short : Bool} {sdID : Bytes} {elemStart n : Nat} {fields fs : List Field}
    {after : Bytes} (h : sdParams length short sdID elemStart n fields rest = .ok (fs, after)) :
    ∃ ps, ReadsParams rest ps after ∧
      ps.foldl (fun fs p => addSDParam fs elemStart sdID p.name p.value short) fields = fs := by
  fun_induction sdParams length short sdID elemStart n fields rest with
  | case3 =>
    cases h
    exact ⟨[], .done _, rfl⟩
  | case7 n fields c rest hend hspace name value hvalue hname v after' hv ih =>
    obtain ⟨ps, hps, hfs⟩ := ih h
    have hrest : rest = name ++ 61 :: 34 :: value := by rw [← hvalue, List.takeWhile_append_dropWhile]
    rw [not_not.mp hspace, hrest]
    exact ⟨_, .param hname (fun c hc => List.mem_takeWhile_imp hc) (readsValue_iff.mpr hv) hps, hfs⟩
  | _ => cases h

theorem ReadsElements.sdElements_eq {s : Bytes} {els : List SDElement} (h : ReadsElements s els rest)
    (length : Nat) (short : Bool) {n : Nat} (hn : s.length ≤ n) (fields : List Field) :
    sdElements length short n fields s = .ok (els.foldl (addElement short) fields, rest) := by
  induction h generalizing n fields with
  | @done s hend =>
    cases n with
    | zero => rfl
    | succ n =>
      cases s with
      | nil => rfl
      | cons c s =>
        have hc : c ≠ 91 := by simpa using hend
        rw [sdElements, if_pos hc, List.foldl_nil]
  | @element id s s' rest ps els hid hchars hparams _ ih =>
    obtain ⟨c, t, rfl, hc⟩ := hparams.head
    have hlength := hparams.suffix.2
    simp only [List.length_cons, List.length_append] at hn hlength
    obtain ⟨k, rfl⟩ : ∃ k, n = k + 1 := ⟨n - 1, by omega⟩
    obtain ⟨htake, hdrop⟩ := Bytes.takeWhile_stop hchars hc t
    rw [sdElements, if_neg (by simp)]
    simp only [htake, hdrop, hid, decide_false, Bool.false_or, reduceCtorEq, if_false,
      hparams.sdParams_eq length short id fields.length (le_refl _) fields]
    exact ih (by omega) _

theorem readsElements_of_ok {length : Nat} {short : Bool} {n : Nat} {fields fs : List Field} {after : Bytes}
    (hn : rest.length ≤ n) (h : sdElements length short n fields rest = .ok (fs, after)) :
    after <:+ rest ∧ ∃ els, ReadsElements rest els after := by
  fun_induction sdElements length short n fields rest with
  | case1 fields rest =>
    obtain rfl := List.length_eq_zero_iff.mp (Nat.le_zero.mp hn)
    cases h
    exact ⟨List.suffix_refl _, [], .done (by simp)⟩
  | case2 =>
    cases h
    exact ⟨List.suffix_refl _, [], .done (by simp)⟩
  | case3 n fields c rest hc =>
    cases h
    exact ⟨List.suffix_refl _, [], .done (by simpa using hc)⟩
  | case4 | case5 => cases h
  | case6 n fields c rest hc id after' hid fs' s hparams ih =>
    obtain ⟨ps, hps, -⟩ := readsParams_of_ok hparams
    obtain ⟨hsuffix, hlt⟩ := hps.suffix
    have hdrop : after' <:+ rest := List.dropWhile_suffix _
    have hle := hdrop.length_le
    rw [List.length_cons] at hn
    obtain ⟨hafter, els, hels⟩ := ih (by omega) h
    refine ⟨hafter.trans (hsuffix.trans (hdrop.trans (List.suffix_cons _ _))), ⟨id, ps⟩ :: els, ?_⟩
    rw [not_not.mp hc, ← List.takeWhile_append_dropWhile (p := isSDNameChar) (l := rest)]
    refine .element (fun hnil => ?_) (fun c hc => List.mem_takeWhile_imp hc) hps hels
    simp [id, hnil] at hid

/-! ## Slots -/

/-- A field, and the parameters whose values are in it. -/
structure Slot where
  key : Bytes
  first : SDParam
  more : List SDParam

namespace Slot

def params (s : Slot) : List SDParam := s.first :: s.more

def field (s : Slot) : Field := ⟨s.key, (s.more.map (·.value)).foldl appendJSONArray s.first.value⟩

def add (p : SDParam) (s : Slot) : Slot := { s with more := s.more ++ [p] }

@[simp] theorem field_key (s : Slot) : s.field.key = s.key := rfl

@[simp] theorem add_key (p : SDParam) (s : Slot) : (s.add p).key = s.key := rfl

theorem add_params (p : SDParam) (s : Slot) : (s.add p).params = s.params ++ [p] := rfl

theorem add_field (p : SDParam) (s : Slot) : (s.add p).field = ⟨s.key, appendJSONArray s.field.value p.value⟩ := by
  simp [field, add]

end Slot

/-- The keys under which a parameter is looked for in its element. -/
def isKeyOf (short : Bool) (id name key : Bytes) : Bool := key = fullKey id name || short && key = name

/-- The key of a new field, given those in use. -/
def newKey (short : Bool) (keys : List Bytes) (id name : Bytes) : Bytes :=
  if short && !keys.contains name then name else fullKey id name

/-- A parameter is put into the slot that is found for it, or into a new one. -/
def place (short : Bool) (keys : List Bytes) (id : Bytes) (slots : List Slot) (p : SDParam) : List Slot :=
  match slots.find? fun s => isKeyOf short id p.name s.key with
  | some found => slots.map fun s => if s.key = found.key then s.add p else s
  | none => slots ++ [⟨newKey short (keys ++ slots.map Slot.key) id p.name, p, []⟩]

/-- The slots of an element, given the keys of earlier fields. -/
def elementSlots (short : Bool) (keys : List Bytes) (el : SDElement) : List Slot :=
  el.params.foldl (place short keys el.id) []

/-- The slots of each element. -/
def dataSlots (short : Bool) : List Bytes → List SDElement → List (List Slot)
  | _, [] => []
  | keys, el :: els =>
    elementSlots short keys el :: dataSlots short (keys ++ (elementSlots short keys el).map Slot.key) els

/-! ## What one parameter does -/

section Place

variable {short : Bool} {keys : List Bytes} {id : Bytes} {slots : List Slot} {p : SDParam}

theorem place_cases (short : Bool) (keys : List Bytes) (id : Bytes) (slots : List Slot) (p : SDParam) :
    (∃ found, slots.find? (fun s => isKeyOf short id p.name s.key) = some found ∧
        place short keys id slots p = slots.map fun s => if s.key = found.key then s.add p else s) ∨
      ((∀ s ∈ slots, isKeyOf short id p.name s.key = false) ∧
        place short keys id slots p = slots ++ [⟨newKey short (keys ++ slots.map Slot.key) id p.name, p, []⟩]) := by
  unfold place
  cases hfind : slots.find? fun s => isKeyOf short id p.name s.key with
  | some found => exact .inl ⟨found, rfl, rfl⟩
  | none => exact .inr ⟨by simpa using hfind, rfl⟩

theorem isKeyOf_newKey (short : Bool) (keys : List Bytes) (id name : Bytes) :
    isKeyOf short id name (newKey short keys id name) = true := by
  unfold isKeyOf newKey
  split <;> simp_all

theorem map_key_add (found : Slot) (slots : List Slot) (p : SDParam) :
    (slots.map fun s => if s.key = found.key then s.add p else s).map Slot.key = slots.map Slot.key := by
  rw [List.map_map]
  refine List.map_congr_left fun s _ => ?_
  simp only [Function.comp_apply]
  split <;> rfl

theorem find_map_add (found : Slot) (p : SDParam) (slots : List Slot) (sel : Bytes → Bool) :
    (slots.map fun s => if s.key = found.key then s.add p else s).find? (fun s => sel s.key) =
      (slots.find? fun s => sel s.key).map fun s => if s.key = found.key then s.add p else s := by
  rw [List.find?_map]
  congr 2
  funext s
  simp only [Function.comp_apply]
  split <;> rfl

/-- What holds of the slots of an element once some of its parameters are placed. -/
structure Placed (short : Bool) (id : Bytes) (done : List SDParam) (slots : List Slot) : Prop where
  nodup : (slots.map Slot.key).Nodup
  found : ∀ s ∈ slots, ∀ p ∈ s.params, (slots.find? fun s => isKeyOf short id p.name s.key) = some s
  placed : ∀ p ∈ done, ∃ s, (slots.find? fun s => isKeyOf short id p.name s.key) = some s
  order : ∀ name s, (slots.find? fun s => isKeyOf short id name s.key) = some s →
    s.params.filter (·.name = name) = done.filter (·.name = name)

theorem Placed.nil (short : Bool) (id : Bytes) : Placed short id [] [] :=
  ⟨List.nodup_nil, by simp, by simp, by simp⟩

variable {done : List SDParam}

theorem Placed.eq_of_key (h : Placed short id done slots) {s t : Slot} (hs : s ∈ slots)
    (ht : t ∈ slots) (hkey : s.key = t.key) : s = t :=
  List.inj_on_of_nodup_map h.nodup hs ht hkey

/-- A parameter goes into the slot that is found for it. -/
theorem Placed.merge (h : Placed short id done slots) {found : Slot}
    (hfound : (slots.find? fun s => isKeyOf short id p.name s.key) = some found) :
    Placed short id (done ++ [p]) (slots.map fun s => if s.key = found.key then s.add p else s) := by
  have hmem := List.mem_of_find?_eq_some hfound
  refine ⟨by rw [map_key_add]; exact h.nodup, ?_, ?_, ?_⟩
  · intro s' hs' q hq
    obtain ⟨s, hs, rfl⟩ := List.mem_map.mp hs'
    have hin : (slots.find? fun s => isKeyOf short id q.name s.key) = some s := by
      split at hq
      · rename_i hkey
        rw [Slot.add_params, List.mem_append, List.mem_singleton] at hq
        obtain hq | rfl := hq
        · exact h.found s hs q hq
        · rw [h.eq_of_key hs hmem hkey]
          exact hfound
      · exact h.found s hs q hq
    rw [find_map_add, hin]
    rfl
  · intro q hq
    rw [List.mem_append, List.mem_singleton] at hq
    obtain ⟨s, hs⟩ : ∃ s, (slots.find? fun s => isKeyOf short id q.name s.key) = some s := by
      obtain hq | rfl := hq
      · exact h.placed q hq
      · exact ⟨found, hfound⟩
    exact ⟨_, by rw [find_map_add, hs]; rfl⟩
  · intro name s' hs'
    rw [find_map_add] at hs'
    obtain ⟨s, hs, rfl⟩ := Option.map_eq_some_iff.mp hs'
    have horder := h.order name s hs
    rw [List.filter_append]
    split
    · rw [Slot.add_params, List.filter_append, horder]
    · rename_i hkey
      have hname : p.name ≠ name := by
        rintro rfl
        rw [hfound] at hs
        cases hs
        exact hkey rfl
      simpa [hname] using horder

/-- A parameter for which no slot is found gets one that is found from then on. -/
theorem Placed.append (h : Placed short id done slots)
    (hnew : ∀ s ∈ slots, isKeyOf short id p.name s.key = false) {key : Bytes}
    (hkey : isKeyOf short id p.name key = true) : Placed short id (done ++ [p]) (slots ++ [⟨key, p, []⟩]) := by
  have hnone : (slots.find? fun s => isKeyOf short id p.name s.key) = none := by simpa using hnew
  have hself : ((slots ++ [Slot.mk key p []]).find? fun s => isKeyOf short id p.name s.key) = some ⟨key, p, []⟩ := by
    rw [List.find?_append, hnone, Option.none_or, List.find?_singleton, hkey]
    rfl
  refine ⟨?_, ?_, ?_, ?_⟩
  · rw [List.map_append, List.nodup_append']
    refine ⟨h.nodup, List.nodup_singleton _, ?_⟩
    rw [List.map_singleton, List.disjoint_singleton]
    intro hmem
    obtain ⟨s, hs, rfl⟩ := List.mem_map.mp hmem
    rw [hnew s hs] at hkey
    cases hkey
  · intro s hs q hq
    rw [List.mem_append, List.mem_singleton] at hs
    obtain hs | rfl := hs
    · rw [List.find?_append, h.found s hs q hq]
      rfl
    · obtain rfl : q = p := by simpa [Slot.params] using hq
      exact hself
  · intro q hq
    rw [List.mem_append, List.mem_singleton] at hq
    obtain hq | rfl := hq
    · obtain ⟨s, hs⟩ := h.placed q hq
      exact ⟨s, by rw [List.find?_append, hs]; rfl⟩
    · exact ⟨_, hself⟩
  · intro name s hs
    rw [List.filter_append]
    by_cases hname : p.name = name
    · subst hname
      -- nothing of this name was there before
      have hdone : done.filter (·.name = p.name) = [] := by
        rw [List.filter_eq_nil_iff]
        intro q hq hname
        obtain ⟨s', hs'⟩ := h.placed q hq
        rw [of_decide_eq_true hname, hnone] at hs'
        cases hs'
      rw [hself] at hs
      cases hs
      rw [hdone]
      rfl
    · rw [List.find?_append] at hs
      cases hold : slots.find? fun s => isKeyOf short id name s.key with
      | some s' =>
        rw [hold, Option.some_or] at hs
        cases hs
        simpa [hname] using h.order name s hold
      | none =>
        have hdone : done.filter (·.name = name) = [] := by
          rw [List.filter_eq_nil_iff]
          intro q hq hname
          obtain ⟨s', hs'⟩ := h.placed q hq
          rw [of_decide_eq_true hname, hold] at hs'
          cases hs'
        rw [hold, Option.none_or] at hs
        obtain rfl := List.mem_singleton.mp (List.mem_of_find?_eq_some hs)
        rw [hdone]
        rfl

theorem Placed.place (h : Placed short id done slots) (keys : List Bytes) (p : SDParam) :
    Placed short id (done ++ [p]) (place short keys id slots p) := by
  obtain ⟨found, hfound, hplace⟩ | ⟨hnew, hplace⟩ := place_cases short keys id slots p
  · rw [hplace]
    exact h.merge hfound
  · rw [hplace]
    exact h.append hnew (isKeyOf_newKey _ _ _ _)

/-- The first field that is found for a parameter is that of its slot. -/
theorem mergeFirst_slots {found : Slot} (hnodup : (slots.map Slot.key).Nodup)
    (hfound : (slots.find? fun s => isKeyOf short id p.name s.key) = some found) :
    mergeFirst (fun f => isKeyOf short id p.name f.key) p.value (slots.map Slot.field) =
      (slots.map fun s => if s.key = found.key then s.add p else s).map Slot.field := by
  induction slots with
  | nil => cases hfound
  | cons s slots ih =>
    rw [List.map_cons, List.nodup_cons] at hnodup
    rw [List.map_cons, mergeFirst]
    cases hs : isKeyOf short id p.name s.key with
    | true =>
      rw [List.find?_cons, hs] at hfound
      obtain rfl : s = found := Option.some.inj hfound
      have hrest : (slots.map fun t => if t.key = s.key then t.add p else t) = slots := by
        conv_rhs => rw [← List.map_id slots]
        refine List.map_congr_left fun t ht => if_neg fun hkey => ?_
        exact hnodup.1 (hkey ▸ List.mem_map_of_mem ht)
      rw [Slot.field_key, hs, if_pos rfl, List.map_cons, if_pos rfl, hrest, List.map_cons, Slot.add_field]
    | false =>
      rw [List.find?_cons, hs] at hfound
      have hkey : s.key ≠ found.key := by
        intro hkey
        exact hnodup.1 (hkey ▸ List.mem_map_of_mem (List.mem_of_find?_eq_some hfound))
      rw [Slot.field_key, hs, List.map_cons, if_neg hkey, ih hnodup.2 hfound]
      rfl

/-- The parser does to the fields what is done to the slots. -/
theorem Placed.addSDParam_eq (h : Placed short id done slots) (fields : List Field)
    (p : SDParam) :
    addSDParam (fields ++ slots.map Slot.field) fields.length id p.name p.value short =
      fields ++ (Rfc5424.place short (fields.map Field.key) id slots p).map Slot.field := by
  have hadd : addSDParam (fields ++ slots.map Slot.field) fields.length id p.name p.value short =
      if (slots.map Slot.field).any fun f => isKeyOf short id p.name f.key then
        fields ++ mergeFirst (fun f => isKeyOf short id p.name f.key) p.value (slots.map Slot.field)
      else fields ++ slots.map Slot.field ++
        [⟨newKey short (fields.map Field.key ++ slots.map Slot.key) id p.name, p.value⟩] := by
    have hkeys : ((fields ++ slots.map Slot.field).any fun f => decide (f.key = p.name)) =
        (fields.map Field.key ++ slots.map Slot.key).contains p.name := by
      have hmap : fields.map Field.key ++ slots.map Slot.key = (fields ++ slots.map Slot.field).map Field.key := by
        rw [List.map_append, List.map_map]
        rfl
      rw [Bool.eq_iff_iff, List.any_eq_true, List.contains_iff_mem, hmap, List.mem_map]
      exact exists_congr fun f => and_congr_right fun _ => decide_eq_true_iff
    simp only [addSDParam, List.drop_left, List.take_left, newKey, hkeys]
    rfl
  obtain ⟨found, hfound, hplace⟩ | ⟨hnew, hplace⟩ := place_cases short (fields.map Field.key) id slots p
  · have hany : ((slots.map Slot.field).any fun f => isKeyOf short id p.name f.key) = true := by
      rw [List.any_map, List.any_eq_true]
      exact ⟨found, List.mem_of_find?_eq_some hfound, List.find?_some hfound⟩
    rw [hadd, if_pos hany, hplace, mergeFirst_slots h.nodup hfound]
  · have hany : ((slots.map Slot.field).any fun f => isKeyOf short id p.name f.key) = false := by
      rw [List.any_map, List.any_eq_false]
      exact fun s hs => by simp [hnew s hs]
    rw [hadd, hany, hplace, List.map_append, List.append_assoc]
    rfl

theorem Placed.foldl (h : Placed short id done slots) (keys : List Bytes) (todo : List SDParam) :
    Placed short id (done ++ todo) (todo.foldl (Rfc5424.place short keys id) slots) := by
  induction todo generalizing done slots with
  | nil => simpa using h
  | cons p todo ih => simpa using ih (h.place keys p)

theorem Placed.foldl_addSDParam (h : Placed short id done slots) (fields : List Field)
    (todo : List SDParam) :
    todo.foldl (fun fs p => addSDParam fs fields.length id p.name p.value short) (fields ++ slots.map Slot.field) =
      fields ++ (todo.foldl (Rfc5424.place short (fields.map Field.key) id) slots).map Slot.field := by
  induction todo generalizing done slots with
  | nil => rfl
  | cons p todo ih =>
    rw [List.foldl_cons, List.foldl_cons, h.addSDParam_eq fields p]
    exact ih (h.place _ p)

end Place

/-- The slots of a whole element. -/
theorem elementSlots_placed (short : Bool) (keys : List Bytes) (el : SDElement) :
    Placed short el.id el.params (elementSlots short keys el) :=
  (Placed.nil short el.id).foldl keys el.params

theorem addElement_eq (short : Bool) (fields : List Field) (el : SDElement) :
    addElement short fields el = fields ++ (elementSlots short (fields.map Field.key) el).map Slot.field := by
  have hadd := (Placed.nil short el.id).foldl_addSDParam fields el.params
  rw [List.map_nil, List.append_nil] at hadd
  exact hadd

theorem foldl_addElement (short : Bool) (fields : List Field) (els : List SDElement) :
    els.foldl (addElement short) fields =
      fields ++ (dataSlots short (fields.map Field.key) els).flatten.map Slot.field := by
  induction els generalizing fields with
  | nil => simp [dataSlots]
  | cons el els ih =>
    rw [List.foldl_cons, addElement_eq, ih, List.map_append, List.map_map]
    simp [dataSlots, Function.comp_def]

/-- Structured data becomes the fields of its slots. -/
theorem ReadsElements.parseSD_eq {s : Bytes} {els : List SDElement} (h : ReadsElements s els rest) (length : Nat)
    (short : Bool) (fields : List Field) :
    parseSD length short fields s =
      .ok (fields ++ (dataSlots short (fields.map Field.key) els).flatten.map Slot.field, rest) := by
  rw [parseSD, h.sdElements_eq length short (le_refl _), foldl_addElement]

/-! ## Fields of their own -/

/-- The fields have distinct keys, and no field has values of two names. A slot has
parameters of one element only. -/
structure Separate (slots : List Slot) : Prop where
  nodup : (slots.map Slot.key).Nodup
  pure : ∀ s ∈ slots, ∀ p ∈ s.params, p.name = s.first.name

namespace SDElement

def names (el : SDElement) : List Bytes := el.params.map SDParam.name

/-- No name of the one element is the full key of a parameter of the other. -/
def NamesApart (el el' : SDElement) : Prop := ∀ n ∈ el.names, ∀ n' ∈ el'.names, n ≠ fullKey el'.id n'

end SDElement

section Element

variable {short : Bool} {keys : List Bytes} {el : SDElement}

theorem elementSlots_concat (short : Bool) (keys : List Bytes) (id : Bytes) (done : List SDParam) (p : SDParam) :
    elementSlots short keys ⟨id, done ++ [p]⟩ = place short keys id (elementSlots short keys ⟨id, done⟩) p := by
  simp [elementSlots]

theorem isKeyOf_iff {id name key : Bytes} :
    isKeyOf short id name key = true ↔ key = fullKey id name ∨ short = true ∧ key = name := by
  simp [isKeyOf]

theorem newKey_eq (short : Bool) (keys : List Bytes) (id name : Bytes) :
    newKey short keys id name = if short = true ∧ name ∉ keys then name else fullKey id name := by
  simp [newKey]

/-- Where no slot is found for a parameter, those of its element do not change its key. -/
theorem newKey_append {id name : Bytes} {slots : List Slot} (h : ∀ s ∈ slots, isKeyOf short id name s.key = false) :
    newKey short (keys ++ slots.map Slot.key) id name = newKey short keys id name := by
  have hnot (hshort : short = true) : name ∉ slots.map Slot.key := by
    intro hmem
    obtain ⟨s, hs, hkey⟩ := List.mem_map.mp hmem
    have hfound := h s hs
    rw [isKeyOf_iff.mpr (.inr ⟨hshort, hkey⟩)] at hfound
    cases hfound
  rw [newKey_eq, newKey_eq]
  refine if_congr (and_congr_right fun hshort => ?_) rfl rfl
  rw [List.mem_append, not_or, and_iff_left (hnot hshort)]

/-- A slot has the key that its first parameter gets, given the keys of earlier elements. -/
theorem elementSlots_key {s : Slot} (hs : s ∈ elementSlots short keys el) :
    s.key = newKey short keys el.id s.first.name := by
  obtain ⟨id, params⟩ := el
  induction params using List.reverseRecOn generalizing s with
  | nil => cases hs
  | append_singleton done p ih =>
    rw [elementSlots_concat] at hs
    obtain ⟨found, -, hplace⟩ | ⟨hnew, hplace⟩ := place_cases short keys id (elementSlots short keys ⟨id, done⟩) p
    · rw [hplace] at hs
      obtain ⟨t, ht, rfl⟩ := List.mem_map.mp hs
      have hkey := ih ht
      split
      · exact hkey
      · exact hkey
    · rw [hplace, List.mem_append, List.mem_singleton] at hs
      obtain hs | rfl := hs
      · exact ih hs
      · exact newKey_append hnew

theorem Placed.mem_params {id : Bytes} {done : List SDParam} {slots : List Slot} (h : Placed short id done slots)
    {s : Slot} (hs : s ∈ slots) {p : SDParam} (hp : p ∈ s.params) : p ∈ done := by
  have hfilter := h.order p.name s (h.found s hs p hp)
  have hin : p ∈ s.params.filter (·.name = p.name) := List.mem_filter.mpr ⟨hp, by simp⟩
  rw [hfilter] at hin
  exact (List.mem_filter.mp hin).1

/-- The slot that is found for a parameter has its name, unless the short mode confuses a
name with a full key. -/
theorem elementSlots_name (hapart : short = true → el.NamesApart el) {s : Slot}
    (hs : s ∈ elementSlots short keys el) {p : SDParam} (hp : p ∈ el.params)
    (hfound : isKeyOf short el.id p.name s.key = true) : p.name = s.first.name := by
  have hplaced := elementSlots_placed short keys el
  have hfirst : s.first.name ∈ el.names := List.mem_map_of_mem (hplaced.mem_params hs List.mem_cons_self)
  have hname : p.name ∈ el.names := List.mem_map_of_mem hp
  rw [elementSlots_key hs, newKey_eq, isKeyOf_iff] at hfound
  split at hfound
  next hnew =>
    obtain hkey | ⟨-, hkey⟩ := hfound
    · exact absurd hkey (hapart hnew.1 _ hfirst _ hname)
    · exact hkey.symm
  next =>
    obtain hkey | ⟨hshort, hkey⟩ := hfound
    · exact (fullKey_injective el.id hkey).symm
    · exact absurd hkey.symm (hapart hshort _ hname _ hfirst)

theorem elementSlots_pure (hapart : short = true → el.NamesApart el) :
    ∀ s ∈ elementSlots short keys el, ∀ p ∈ s.params, p.name = s.first.name := by
  intro s hs p hp
  have hplaced := elementSlots_placed short keys el
  have hfound := List.find?_some (hplaced.found s hs p hp)
  exact elementSlots_name hapart hs (hplaced.mem_params hs hp) hfound

/-- The keys of an element are those that its names get. -/
theorem mem_elementKeys (hapart : short = true → el.NamesApart el) {key : Bytes} :
    key ∈ (elementSlots short keys el).map Slot.key ↔ ∃ n ∈ el.names, key = newKey short keys el.id n := by
  have hplaced := elementSlots_placed short keys el
  constructor
  · intro h
    obtain ⟨s, hs, rfl⟩ := List.mem_map.mp h
    exact ⟨_, List.mem_map_of_mem (hplaced.mem_params hs List.mem_cons_self), elementSlots_key hs⟩
  · rintro ⟨n, hn, rfl⟩
    obtain ⟨p, hp, rfl⟩ := List.mem_map.mp hn
    obtain ⟨s, hs⟩ := hplaced.placed p hp
    have hmem := List.mem_of_find?_eq_some hs
    have hfound := List.find?_some hs
    refine List.mem_map.mpr ⟨s, hmem, ?_⟩
    rw [elementSlots_key hmem, ← elementSlots_name hapart hmem hp hfound]

end Element

/-! ## Full keys -/

/-- The parameters, each with the name of its element, whose fields are given full keys: all
of them, or in the short mode those with a name that an earlier element has. -/
def writtenOut (short : Bool) : List Bytes → List SDElement → List (Bytes × Bytes)
  | _, [] => []
  | seen, el :: els =>
    (el.names.filter fun n => !short || seen.contains n).map (el.id, ·) ++ writtenOut short (seen ++ el.names) els

/-- Different parameters have different full keys. -/
def JoinedApart (params : List (Bytes × Bytes)) : Prop :=
  ∀ q ∈ params, ∀ q' ∈ params, fullKey q.1 q.2 = fullKey q'.1 q'.2 → q = q'

instance (params : List (Bytes × Bytes)) : Decidable (JoinedApart params) :=
  inferInstanceAs (Decidable (∀ q ∈ params, ∀ q' ∈ params, fullKey q.1 q.2 = fullKey q'.1 q'.2 → q = q'))

/-- In the short mode a name of any element is no full key. -/
def AllApart (short : Bool) (els : List SDElement) : Prop :=
  short = true → ∀ el ∈ els, ∀ el' ∈ els, el.NamesApart el'

section Data

variable {short : Bool} {keys seen : List Bytes} {el : SDElement} {els : List SDElement}

/-- Of the names at hand, those are keys in use that were seen. -/
def InUse (short : Bool) (keys seen : List Bytes) (els : List SDElement) : Prop :=
  short = true → ∀ el ∈ els, ∀ n ∈ el.names, n ∈ keys ↔ n ∈ seen

theorem mem_names_of_writtenOut {q : Bytes × Bytes} (h : q ∈ writtenOut short seen els) :
    ∃ el ∈ els, el.id = q.1 ∧ q.2 ∈ el.names := by
  induction els generalizing seen with
  | nil => cases h
  | cons el els ih =>
    rw [writtenOut, List.mem_append] at h
    obtain h | h := h
    · obtain ⟨n, hn, rfl⟩ := List.mem_map.mp h
      exact ⟨el, List.mem_cons_self, rfl, (List.mem_filter.mp hn).1⟩
    · obtain ⟨el', hel', hq⟩ := ih h
      exact ⟨el', List.mem_cons_of_mem _ hel', hq⟩

theorem newKey_seen (huse : InUse short keys seen (el :: els)) {n : Bytes} (hn : n ∈ el.names) :
    newKey short keys el.id n = if short = true ∧ n ∉ seen then n else fullKey el.id n := by
  rw [newKey_eq]
  refine if_congr (and_congr_right fun hshort => not_congr ?_) rfl rfl
  exact huse hshort el List.mem_cons_self n hn

theorem InUse.next (huse : InUse short keys seen (el :: els)) (hapart : AllApart short (el :: els)) :
    InUse short (keys ++ (elementSlots short keys el).map Slot.key) (seen ++ el.names) els := by
  intro hshort el' hel' n hn
  have hself := fun h => hapart h el List.mem_cons_self el List.mem_cons_self
  rw [List.mem_append, List.mem_append, mem_elementKeys hself,
    huse hshort el' (List.mem_cons_of_mem _ hel') n hn]
  constructor
  · rintro (h | ⟨m, hm, hkey⟩)
    · exact .inl h
    · rw [newKey_eq] at hkey
      split at hkey
      · exact .inr (hkey ▸ hm)
      · exact absurd hkey (hapart hshort el' (List.mem_cons_of_mem _ hel') el List.mem_cons_self n hn m hm)
  · rintro (h | h)
    · exact .inl h
    · by_cases hseen : n ∈ seen
      · exact .inl hseen
      · exact .inr ⟨n, h, by rw [newKey_seen huse h, if_pos ⟨hshort, hseen⟩]⟩

theorem AllApart.tail (h : AllApart short (el :: els)) : AllApart short els :=
  fun hshort a ha b hb => h hshort a (List.mem_cons_of_mem _ ha) b (List.mem_cons_of_mem _ hb)

theorem dataSlots_pure (keys : List Bytes) (hapart : AllApart short els) :
    ∀ s ∈ (dataSlots short keys els).flatten, ∀ p ∈ s.params, p.name = s.first.name := by
  induction els generalizing keys with
  | nil => simp [dataSlots]
  | cons el els ih =>
    intro s hs
    rw [dataSlots, List.flatten_cons, List.mem_append] at hs
    obtain hs | hs := hs
    · exact elementSlots_pure (fun h => hapart h el List.mem_cons_self el List.mem_cons_self) s hs
    · exact ih _ hapart.tail s hs

/-- The keys of some elements: names that were not seen before, and full keys. -/
theorem mem_dataKeys (huse : InUse short keys seen els) (hapart : AllApart short els) {key : Bytes} :
    key ∈ (dataSlots short keys els).flatten.map Slot.key ↔
      (short = true ∧ key ∉ seen ∧ ∃ el ∈ els, key ∈ el.names) ∨
        ∃ q ∈ writtenOut short seen els, key = fullKey q.1 q.2 := by
  induction els generalizing keys seen with
  | nil => simp [dataSlots, writtenOut]
  | cons el els ih =>
    have hself := fun h => hapart h el List.mem_cons_self el List.mem_cons_self
    rw [dataSlots, List.flatten_cons, List.map_append, List.mem_append, mem_elementKeys hself,
      ih (huse.next hapart) hapart.tail]
    simp only [writtenOut, List.mem_append, List.mem_map, List.mem_filter, List.mem_cons, Bool.or_eq_true,
      Bool.not_eq_true', List.contains_iff_mem]
    constructor
    · rintro (⟨n, hn, rfl⟩ | ⟨hshort, hseen, el', hel', hkey⟩ | ⟨q, hq, hkey⟩)
      · rw [newKey_seen huse hn]
        split
        next h => exact .inl ⟨h.1, h.2, el, .inl rfl, hn⟩
        next h =>
          refine .inr ⟨(el.id, n), .inl ⟨n, ⟨hn, ?_⟩, rfl⟩, rfl⟩
          cases short with
          | false => exact .inl rfl
          | true => exact .inr (by simpa using h)
      · exact .inl ⟨hshort, fun h => hseen (.inl h), el', .inr hel', hkey⟩
      · exact .inr ⟨q, .inr hq, hkey⟩
    · rintro (⟨hshort, hseen, el', rfl | hel', hkey⟩ | ⟨q, ⟨n, ⟨hn, h⟩, rfl⟩ | hq, hkey⟩)
      · exact .inl ⟨key, hkey, by rw [newKey_seen huse hkey, if_pos ⟨hshort, hseen⟩]⟩
      · by_cases hin : key ∈ el.names
        · exact .inl ⟨key, hin, by rw [newKey_seen huse hin, if_pos ⟨hshort, hseen⟩]⟩
        · exact .inr (.inl ⟨hshort, by simp [hseen, hin], el', hel', hkey⟩)
      · refine .inl ⟨n, hn, ?_⟩
        rw [newKey_seen huse hn, if_neg, hkey]
        rintro ⟨hshort, hseen⟩
        rw [hshort] at h
        exact h.elim (fun h => by cases h) hseen
      · exact .inr (.inr ⟨q, hq, hkey⟩)

/-- The keys of the fields are distinct exactly if the full keys among them are. -/
theorem nodup_dataKeys_iff (keys : List Bytes) (hids : (els.map SDElement.id).Nodup) (huse : InUse short keys seen els)
    (hapart : AllApart short els) :
    ((dataSlots short keys els).flatten.map Slot.key).Nodup ↔ JoinedApart (writtenOut short seen els) := by
  induction els generalizing keys seen with
  | nil => simp [dataSlots, writtenOut, JoinedApart]
  | cons el els ih =>
    have hself := fun h => hapart h el List.mem_cons_self el List.mem_cons_self
    rw [List.map_cons, List.nodup_cons] at hids
    have hother {q : Bytes × Bytes} (hq : q ∈ writtenOut short (seen ++ el.names) els) : q.1 ≠ el.id := by
      obtain ⟨el', hel', hid, -⟩ := mem_names_of_writtenOut hq
      exact fun h => hids.1 (List.mem_map.mpr ⟨el', hel', hid.trans h⟩)
    rw [dataSlots, List.flatten_cons, List.map_append, List.nodup_append', ih _ hids.2 (huse.next hapart) hapart.tail,
      and_iff_right (elementSlots_placed short keys el).nodup]
    have hmem {n : Bytes} : (el.id, n) ∈ writtenOut short seen (el :: els) ↔
        n ∈ el.names ∧ ¬(short = true ∧ n ∉ seen) := by
      rw [writtenOut, List.mem_append, or_iff_left fun h => hother h rfl]
      simp only [List.mem_map, List.mem_filter, Prod.mk.injEq, true_and, exists_eq_right, Bool.or_eq_true,
        Bool.not_eq_true', List.contains_iff_mem, not_and, not_not, and_congr_right_iff]
      intro _
      cases short <;> simp
    have hcons {q : Bytes × Bytes} (hq : q ∈ writtenOut short seen (el :: els)) :
        (∃ n ∈ el.names, q = (el.id, n) ∧ newKey short keys el.id n = fullKey el.id n) ∨
          q ∈ writtenOut short (seen ++ el.names) els := by
      by_cases hid : q.1 = el.id
      · obtain ⟨hn, hfull⟩ := hmem.mp (hid ▸ hq : (el.id, q.2) ∈ writtenOut short seen (el :: els))
        exact .inl ⟨q.2, hn, by rw [← hid], by rw [newKey_seen huse hn, if_neg hfull]⟩
      · rw [writtenOut, List.mem_append] at hq
        refine .inr (hq.resolve_left fun h => ?_)
        obtain ⟨n, -, rfl⟩ := List.mem_map.mp h
        exact hid rfl
    constructor
    · rintro ⟨hrest, hdisjoint⟩
      have hcross {n : Bytes} (hn : n ∈ el.names) (hfull : newKey short keys el.id n = fullKey el.id n)
          {q : Bytes × Bytes} (hq : q ∈ writtenOut short (seen ++ el.names) els) :
          fullKey el.id n ≠ fullKey q.1 q.2 := fun heq =>
        hdisjoint ((mem_elementKeys hself).mpr ⟨n, hn, hfull.symm⟩)
          ((mem_dataKeys (huse.next hapart) hapart.tail).mpr (.inr ⟨q, hq, heq⟩))
      intro q hq q' hq' heq
      obtain ⟨n, hn, rfl, hfull⟩ | hq := hcons hq
      · obtain ⟨n', hn', rfl, -⟩ | hq' := hcons hq'
        · have hname : n = n' := fullKey_injective el.id heq
          rw [hname]
        · exact absurd heq (hcross hn hfull hq')
      · obtain ⟨n', hn', rfl, hfull⟩ | hq' := hcons hq'
        · exact absurd heq.symm (hcross hn' hfull hq)
        · exact hrest q hq q' hq' heq
    · intro hall
      have htail {q : Bytes × Bytes} (hq : q ∈ writtenOut short (seen ++ el.names) els) :
          q ∈ writtenOut short seen (el :: els) := by
        rw [writtenOut]
        exact List.mem_append_right _ hq
      refine ⟨fun q hq q' hq' => hall q (htail hq) q' (htail hq'), fun key hkey hkey' => ?_⟩
      obtain ⟨n, hn, rfl⟩ := (mem_elementKeys hself).mp hkey
      rw [newKey_seen huse hn, mem_dataKeys (huse.next hapart) hapart.tail] at hkey'
      split at hkey'
      next hnew =>
        obtain ⟨-, hseen, -⟩ | ⟨q, hq, hkey'⟩ := hkey'
        · exact hseen (List.mem_append_right _ hn)
        · obtain ⟨el', hel', hid, hq'⟩ := mem_names_of_writtenOut hq
          exact hapart hnew.1 el List.mem_cons_self el' (List.mem_cons_of_mem _ hel') n hn q.2 hq' (hid ▸ hkey')
      next hfull =>
        obtain ⟨hshort, -, el', hel', hin⟩ | ⟨q, hq, hkey'⟩ := hkey'
        · exact hapart hshort el' (List.mem_cons_of_mem _ hel') el List.mem_cons_self _ hin n hn rfl
        · have heq := hall _ (hmem.mpr ⟨hn, hfull⟩) q (htail hq) hkey'
          exact hother hq (by rw [← heq])

end Data

end Syslogc.Parser.Rfc5424
