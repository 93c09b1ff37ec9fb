-- SUMMARY: Extraction rules, which turn parts of a message into fields.
import Syslogc.Lib.Fallible
import Syslogc.Lib.Lists
import Syslogc.Logentry.Entry

/-!
# Extraction

A rule is a regular expression whose named groups become fields. Rules are tried in order,
up to the first that matches and is not additive. A JSON rule reads a message as a record
and turns some of its members into fields.
-/

namespace Syslogc.Extract

open Fallible Logentry

/-! ## The standard library -/

/-- A compiled regular expression: the names of its groups, empty for those without one,
and what they match. -/
structure Regexp where
  names : List String
  find : Bytes → Option (List Bytes)
  length_find : ∀ s groups, find s = some groups → groups.length = names.length

structure GoLib where
  /-- `regexp.Compile`. -/
  compile : String → Except String Regexp
  /-- The verb `%q`, of a text and of a character. -/
  quote : String → String
  quoteRune : Char → String
  /-- `strings.EqualFold`. -/
  equalFold : Bytes → Bytes → Bool
  /-- `strings.ToLower`. -/
  toLower : Bytes → Bytes
  /-- `json.Unmarshal` of an object: the raw text of each member. -/
  unmarshal : Bytes → Option (String → Option Bytes)
  /-- `json.Unmarshal` of a string. -/
  unmarshalString : Bytes → Option Bytes
  /-- `json.Unmarshal` of a number, and `strconv.FormatFloat` of the result. -/
  formatNumber : Bytes → Option Bytes

variable (lib : GoLib)

/-! ## Names of fields -/

def isFieldChar (c : Char) : Bool := c.isAlphanum || c = '_' || c = '.'

/-- The problem of a name that is no name of a field. -/
def validFieldName (name : String) : Option String :=
  if name = "" then some "empty"
  else if 128 < name.utf8ByteSize then some "longer than 128 characters"
  else if name.toList.head? = some '_' then some "names starting with _ are reserved"
  else (name.toList.find? fun c => !isFieldChar c).map fun c =>
    s!"unexpected character {lib.quoteRune c} (use letters, digits, _ and .)"

/-- Fail with the problem of a name, if it has one. -/
def checkFieldName (name : String) (error : String → String) : Except String Unit :=
  match validFieldName lib name with
  | none => .ok ()
  | some e => .error (error e)

/-- `strings.TrimSuffix(s, ".")`. -/
def trimDot (s : String) : String := if s.toList.getLast? = some '.' then String.ofList s.toList.dropLast else s

theorem checkFieldName_eq_ok {name : String} {error : String → String} {u : Unit} :
    checkFieldName lib name error = .ok u ↔ validFieldName lib name = none := by
  unfold checkFieldName
  split <;> simp [*]

/-! ## Rules -/

def maxRules : Nat := 16
def maxPatternLen : Nat := 4096
def maxFieldsPerRule : Nat := 32

/-- A rule before it is compiled. -/
structure Config where
  name : String := ""
  contains : String := ""
  regex : String
  fieldPrefix : String := ""
  additive : Bool := false
deriving DecidableEq, Repr

structure Rule where
  name : String
  contains : String
  fieldPrefix : String
  additive : Bool
  re : Regexp

/-- The body of the loop of `New`. -/
def newRule (i : Nat) (c : Config) : Except String Rule := do
  let name := if c.name = "" then s!"rule-{i + 1}" else c.name
  ensure (c.regex.utf8ByteSize ≤ maxPatternLen) s!"extract {name}: pattern longer than {maxPatternLen} bytes"
  let re ← (lib.compile c.regex).mapError fun e => s!"extract {name}: {e}"
  let named := re.names.filter (· ≠ "")
  named.forM fun g => checkFieldName lib g fun e => s!"extract {name}: capture group {lib.quote g}: {e}"
  ensure (named ≠ [])
    s!"extract {name}: the pattern has no named capture groups, so it produces no fields"
  ensure (named.length ≤ maxFieldsPerRule)
    s!"extract {name}: {named.length} capture groups, at most {maxFieldsPerRule} are allowed"
  (if c.fieldPrefix = "" then pure ()
    else checkFieldName lib (trimDot c.fieldPrefix) fun e => s!"extract {name}: prefix {lib.quote c.fieldPrefix}: {e}")
  return { name, contains := c.contains, fieldPrefix := c.fieldPrefix, additive := c.additive, re }

/-- `New`. -/
def new (cfgs : List Config) : Except String (List Rule) := do
  ensure (cfgs.length ≤ maxRules) s!"at most {maxRules} extract rules are allowed"
  cfgs.zipIdx.mapM fun c => newRule lib c.2 c.1

/-- What `New` demands of each rule. -/
structure Config.Accepted (c : Config) : Prop where
  pattern : c.regex.utf8ByteSize ≤ maxPatternLen
  compiles : ∃ re, lib.compile c.regex = .ok re ∧ (∀ g ∈ re.names, g ≠ "" → validFieldName lib g = none) ∧
    re.names.filter (· ≠ "") ≠ [] ∧ (re.names.filter (· ≠ "")).length ≤ maxFieldsPerRule
  fieldPrefix : c.fieldPrefix = "" ∨ validFieldName lib (trimDot c.fieldPrefix) = none

/-- What a compiled rule keeps. Its name may come from its place in the list. -/
structure Config.Compiled (c : Config) (r : Rule) : Prop where
  contains : r.contains = c.contains
  fieldPrefix : r.fieldPrefix = c.fieldPrefix
  additive : r.additive = c.additive
  re : lib.compile c.regex = .ok r.re

variable {lib} {c : Config} {i : Nat} {cfgs : List Config} {rules rules' : List Rule} {r : Rule}

theorem newRule_eq_ok (h : newRule lib i c = .ok r) : c.Compiled lib r ∧ c.Accepted lib := by
  obtain ⟨_, hpattern, h⟩ := bind_eq_ok.mp h
  obtain ⟨re, hre, h⟩ := bind_eq_ok.mp h
  obtain ⟨_, hgroups, h⟩ := bind_eq_ok.mp h
  obtain ⟨_, hne, h⟩ := bind_eq_ok.mp h
  obtain ⟨_, hfew, h⟩ := bind_eq_ok.mp h
  obtain ⟨_, hprefix, h⟩ := bind_eq_ok.mp h
  cases h
  have hcompile := mapError_eq_ok.mp hre
  refine ⟨⟨rfl, rfl, rfl, hcompile⟩, by simpa using hpattern,
    ⟨re, hcompile, fun g hg hname => ?_, by simpa using hne, by simpa using hfew⟩, ?_⟩
  · exact (checkFieldName_eq_ok lib).mp (forM_eq_ok.mp hgroups g (by simp [hg, hname]))
  · split at hprefix
    · exact .inl ‹_›
    · exact .inr ((checkFieldName_eq_ok lib).mp hprefix)

theorem Config.Accepted.newRule (h : c.Accepted lib) (i : Nat) : ∃ r, newRule lib i c = .ok r := by
  obtain ⟨re, hre, hnames, hne, hfew⟩ := h.compiles
  refine ⟨_, bind_eq_ok.mpr ⟨(), ensure_eq_ok.mpr (by simpa using h.pattern),
    bind_eq_ok.mpr ⟨re, mapError_eq_ok.mpr hre,
    bind_eq_ok.mpr ⟨(), forM_eq_ok.mpr fun g hg => ?_, bind_eq_ok.mpr ⟨(), ensure_eq_ok.mpr (by simpa using hne),
    bind_eq_ok.mpr ⟨(), ensure_eq_ok.mpr (by simpa using hfew), bind_eq_ok.mpr ⟨(), ?_, rfl⟩⟩⟩⟩⟩⟩⟩
  · obtain ⟨hg, hname⟩ := List.mem_filter.mp hg
    exact (checkFieldName_eq_ok lib).mpr (hnames g hg (by simpa using hname))
  · obtain hempty | hvalid := h.fieldPrefix
    · rw [if_pos hempty]
      rfl
    · split
      · rfl
      · exact (checkFieldName_eq_ok lib).mpr hvalid

/-- Rules compile together if there are not too many and each compiles. -/
theorem new_isOk : (∃ rules, new lib cfgs = .ok rules) ↔ cfgs.length ≤ maxRules ∧ ∀ c ∈ cfgs, c.Accepted lib := by
  simp only [new, bind_eq_ok, ensure_eq_ok, decide_eq_true_eq]
  rw [exists_comm]
  simp only [exists_and_left, exists_const, mapM_isOk]
  refine and_congr_right fun _ => ⟨fun h c hc => ?_, fun h ci hci => ?_⟩
  · obtain ⟨i, hi⟩ := List.mem_iff_getElem?.mp hc
    obtain ⟨r, hr⟩ := h (c, i) (List.mem_zipIdx_iff_getElem?.mpr hi)
    exact (newRule_eq_ok hr).2
  · exact (h ci.1 (List.fst_mem_of_mem_zipIdx hci)).newRule ci.2

theorem new_compiled (h : new lib cfgs = .ok rules) : List.Forall₂ (Config.Compiled lib) cfgs rules := by
  obtain ⟨_, -, h⟩ := bind_eq_ok.mp h
  have hrules : List.Forall₂ (fun ci r => Config.Compiled lib ci.1 r) cfgs.zipIdx rules :=
    (mapM_eq_ok.mp h).imp fun _ _ hr => (newRule_eq_ok hr).1
  rw [← List.zipIdx_map_fst 0 cfgs]
  exact List.forall₂_map_left_iff.mpr hrules

/-! ## Applying rules -/

/-- What the groups of a rule match in a message, if it matches. -/
def Rule.find (r : Rule) (message : Bytes) : Option (List Bytes) :=
  if r.contains ≠ "" ∧ ¬utf8 r.contains <:+: message then none else r.re.find message

/-- The fields of a match. Groups without a name and empty ones give none. -/
def Rule.fields (r : Rule) (groups : List Bytes) : List Field :=
  ((r.re.names.zip groups).filter fun g => g.1 ≠ "" && g.2 ≠ []).map fun g => ⟨utf8 (r.fieldPrefix ++ g.1), g.2⟩

def addFields (e : Entry) (fields : List Field) : Entry := fields.foldl (fun e f => e.addField f.key f.value) e

/-- The loop of `Apply`, with the name of the first rule that has matched. -/
def applyRules (matched : String) (e : Entry) : List Rule → String × Entry
  | [] => (matched, e)
  | r :: rules =>
    match r.find e.message with
    | none => applyRules matched e rules
    | some groups =>
      let e := addFields e (r.fields groups)
      let matched := if matched = "" then r.name else matched
      if r.additive then applyRules matched e rules else (matched, e)

def apply (rules : List Rule) (e : Entry) : String × Entry :=
  if rules = [] ∨ e.message = [] then ("", e) else applyRules "" e rules

/-- The fields that rules add to a message. -/
def added (message : Bytes) : List Rule → List Field
  | [] => []
  | r :: rules =>
    match r.find message with
    | none => added message rules
    | some groups => r.fields groups ++ if r.additive then added message rules else []

/-- The fields of rules that are tried on a message. -/
def textFields (rules : List Rule) (message : Bytes) : List Field := if message = [] then [] else added message rules

theorem addFields_eq (e : Entry) (fields : List Field) :
    addFields e fields = { e with fields := e.fields ++ fields } := by
  induction fields generalizing e with
  | nil => simp [addFields]
  | cons f fields ih =>
    change addFields (e.addField f.key f.value) fields = _
    rw [ih]
    simp [Entry.addField]

theorem applyRules_eq (matched : String) (e : Entry) (rules : List Rule) :
    (applyRules matched e rules).2 = { e with fields := e.fields ++ added e.message rules } := by
  induction rules generalizing matched e with
  | nil => simp [applyRules, added]
  | cons r rules ih =>
    rw [applyRules, added]
    cases hfind : r.find e.message with
    | none => exact ih matched e
    | some groups =>
      simp only [addFields_eq]
      split
      · rw [ih]
        simp [*]
      · simp [*]

/-- `Apply` appends the fields of its rules. -/
theorem apply_eq (rules : List Rule) (e : Entry) :
    (apply rules e).2 = { e with fields := e.fields ++ textFields rules e.message } := by
  unfold apply textFields
  by_cases hmessage : e.message = []
  · rw [if_pos (.inr hmessage), if_pos hmessage, List.append_nil]
  · cases rules with
    | nil => simp [added]
    | cons r rules => simp [hmessage, applyRules_eq]

section

variable {message : Bytes} {own parts : List Rule}

/-- What rules add is decided by what they were compiled from. -/
theorem added_congr (h : List.Forall₂ (Config.Compiled lib) cfgs rules)
    (h' : List.Forall₂ (Config.Compiled lib) cfgs rules') : added message rules = added message rules' := by
  induction h generalizing rules' with
  | nil =>
    cases h'
    rfl
  | @cons c r cfgs rules hr hrules ih =>
    obtain _ | @⟨_, r', _, rules', hr', hrules'⟩ := h'
    have hre : r.re = r'.re := by simpa [hr.re] using hr'.re
    have hfind : r.find = r'.find := by
      funext message
      rw [Rule.find, Rule.find, hr.contains, hr'.contains, hre]
    have hfields : r.fields = r'.fields := by
      funext groups
      rw [Rule.fields, Rule.fields, hr.fieldPrefix, hr'.fieldPrefix, hre]
    rw [added, added, hfind, hfields, hr.additive, hr'.additive, ih hrules']

/-- Rules that describe whole messages keep the rules after them from being tried. -/
theorem added_append_of_matched (hown : ∀ r ∈ own, r.additive = false) (h : ∃ r ∈ own, r.find message ≠ none) :
    added message (own ++ parts) = added message own := by
  induction own with
  | nil => simp at h
  | cons r own ih =>
    rw [List.cons_append, added, added]
    cases hfind : r.find message with
    | none =>
      refine ih (fun r hr => hown r (List.mem_cons_of_mem _ hr)) ?_
      obtain ⟨r', hr', hmatch⟩ := h
      obtain rfl | hr' := List.mem_cons.mp hr'
      · exact absurd hfind hmatch
      · exact ⟨r', hr', hmatch⟩
    | some groups => simp [hown r List.mem_cons_self]

theorem added_append_of_unmatched (h : ∀ r ∈ own, r.find message = none) :
    added message (own ++ parts) = added message parts := by
  induction own with
  | nil => rfl
  | cons r own ih =>
    rw [List.cons_append, added, h r List.mem_cons_self]
    exact ih fun r hr => h r (List.mem_cons_of_mem _ hr)

end

/-! ## Records -/

def maxJSONKeys : Nat := 64

/-- A condition on a record. -/
structure JSONMatch where
  keys : List String
  equals : List String := []
  fieldPrefix : String := ""
  matchIfAbsent : Bool := false
deriving DecidableEq, Repr

/-- The members of a record that become fields, under which names and of which records. -/
structure JSONConfig where
  fieldPrefix : String
  keys : List (String × String)
  when : List JSONMatch
  /-- The members are the keys of a map. -/
  nodup : (keys.map Prod.fst).Nodup
deriving DecidableEq, Repr

variable (lib)

/-- `NewJSON`, of which the rule itself is the result. Of several problems with the members,
which one is reported depends on the order of the map. -/
def newJSON (c : JSONConfig) : Except String JSONConfig := do
  ensure (c.keys ≠ []) "a JSON rule needs at least one key"
  ensure (c.keys.length ≤ maxJSONKeys)
    s!"at most {maxJSONKeys} keys are allowed, the rule has {c.keys.length}"
  (if c.fieldPrefix = "" then pure ()
    else checkFieldName lib (trimDot c.fieldPrefix) fun e => s!"prefix {lib.quote c.fieldPrefix}: {e}")
  c.keys.forM fun (key, field) => do
    ensure ((utf8 key).trimSpace ≠ []) "a key to read is required"
    checkFieldName lib field fun e => s!"key {lib.quote key} becomes field {lib.quote field}: {e}"
  c.when.forM fun m => ensure (m.keys ≠ []) "a condition needs at least one key to test"
  return c

/-- The text of a value. Objects and arrays have none. -/
def jsonScalar (raw : Bytes) : Bytes :=
  let trimmed := raw.trimSpace
  if trimmed = [] ∨ trimmed = utf8 "null" then []
  else if trimmed.head? = some 123 ∨ trimmed.head? = some 91 then []
  else if trimmed.head? = some 34 then
    match lib.unmarshalString raw with
    | none => []
    | some s => s.trimSpace
  else if trimmed = utf8 "true" ∨ trimmed = utf8 "false" then trimmed
  else (lib.formatNumber raw).getD trimmed

/-- The first member that is there decides. -/
def JSONMatch.holds (m : JSONMatch) (record : String → Option Bytes) : Bool :=
  match m.keys.findSome? record with
  | none => m.matchIfAbsent
  | some raw =>
    let value := jsonScalar lib raw
    (m.equals = [] && m.fieldPrefix = "") || (m.equals.any fun want => lib.equalFold value (utf8 want)) ||
      (m.fieldPrefix ≠ "" && m.fieldPrefix.utf8ByteSize ≤ value.length &&
        lib.equalFold (value.take m.fieldPrefix.utf8ByteSize) (utf8 m.fieldPrefix))

/-- The record that a message is, if it is one. -/
def readRecord (message : Bytes) : Option (String → Option Bytes) :=
  if message.trimSpace.head? = some 123 then lib.unmarshal message.trimSpace else none

/-- The field that a member of a record becomes, unless it is absent or empty. -/
def JSONConfig.fieldOf (c : JSONConfig) (record : String → Option Bytes) (key : String × String) : Option Field :=
  match record key.1 with
  | none => none
  | some raw => if jsonScalar lib raw = [] then none else some ⟨utf8 (c.fieldPrefix ++ key.2), jsonScalar lib raw⟩

/-- The fields that a rule adds to a record, with the keys in the order in which the loop
meets them. -/
def JSONConfig.added (c : JSONConfig) (order : List (String × String)) (record : String → Option Bytes) : List Field :=
  if c.when.all fun m => m.holds lib record then order.filterMap (c.fieldOf lib record) else []

/-- `JSONExtractor.Apply`: whether the message is a record, and the entry. -/
def JSONConfig.apply (c : JSONConfig) (order : List (String × String)) (e : Entry) : Bool × Entry :=
  match readRecord lib e.message with
  | none => (false, e)
  | some record => (true, addFields e (c.added lib order record))

/-- The fields that a rule adds to a message. -/
def JSONConfig.adds (c : JSONConfig) (order : List (String × String)) (message : Bytes) : List Field :=
  (readRecord lib message).elim [] (c.added lib order)

theorem JSONConfig.apply_eq (c : JSONConfig) (order : List (String × String)) (e : Entry) :
    (c.apply lib order e).2 = { e with fields := e.fields ++ c.adds lib order e.message } := by
  unfold JSONConfig.apply JSONConfig.adds
  cases readRecord lib e.message with
  | none => simp
  | some record => exact addFields_eq e _

/-- The fields that an entry has got. -/
def gained (e e' : Entry) : List Field := e'.fields.drop e.fields.length

theorem JSONConfig.gained_apply (c : JSONConfig) (order : List (String × String)) (e : Entry) :
    gained e (c.apply lib order e).2 = c.adds lib order e.message := by
  rw [gained, c.apply_eq, List.drop_left]

/-! ## Orders of a map -/

/-- An order in which Go may go through each table. -/
structure Order where
  keys : JSONConfig → List (String × String)
  perm : ∀ c, (keys c).Perm c.keys

variable {lib} {j : JSONConfig} {record : String → Option Bytes}

theorem JSONConfig.added_perm (j : JSONConfig) (order order' : Order) (record : String → Option Bytes) :
    (j.added lib (order.keys j) record).Perm (j.added lib (order'.keys j) record) := by
  unfold JSONConfig.added
  split
  · exact ((order.perm j).trans (order'.perm j).symm).filterMap _
  · exact .refl _

theorem JSONConfig.adds_perm (j : JSONConfig) (order order' : Order) (message : Bytes) :
    (j.adds lib (order.keys j) message).Perm (j.adds lib (order'.keys j) message) := by
  unfold JSONConfig.adds
  cases readRecord lib message with
  | none => exact .refl _
  | some record => exact j.added_perm order order' record

/-- No two members of a record become the same field. -/
def JSONConfig.Apart (lib : GoLib) (j : JSONConfig) (record : String → Option Bytes) : Prop :=
  ∀ a ∈ j.keys, ∀ b ∈ j.keys, a.1 ≠ b.1 → a.2 = b.2 →
    j.fieldOf lib record a = none ∨ j.fieldOf lib record b = none

theorem JSONConfig.fieldOf_key {key : String × String} {f : Field} (h : j.fieldOf lib record key = some f) :
    f.key = utf8 (j.fieldPrefix ++ key.2) := by
  unfold JSONConfig.fieldOf at h
  split at h
  · cases h
  · obtain ⟨-, ⟨⟩⟩ := Option.ite_none_left_eq_some.mp h
    rfl

/-- Where a rule applies, its fields have different keys in every order or in none. -/
theorem JSONConfig.added_nodup_iff (hrecord : (j.when.all fun m => m.holds lib record) = true) (order : Order) :
    ((j.added lib (order.keys j) record).map Field.key).Nodup ↔ j.Apart lib record := by
  -- different keys, as a relation between the members that become fields
  let Differ (a b : String × String) : Prop := ∀ f, j.fieldOf lib record a = some f →
    ∀ g, j.fieldOf lib record b = some g → f.key ≠ g.key
  have hsymm : Std.Symm Differ := ⟨fun a b h f hf g hg => (h g hg f hf).symm⟩
  have hnodup : j.keys.Nodup := j.nodup.of_map _
  rw [JSONConfig.added, if_pos hrecord, List.Nodup, List.pairwise_map, List.pairwise_filterMap]
  change (order.keys j).Pairwise Differ ↔ _
  rw [(order.perm j).pairwise_iff (hsymm.symm _ _)]
  constructor
  · intro h a ha b hb hne hfield
    by_contra hboth
    obtain ⟨⟨f, hf⟩, g, hg⟩ : (∃ f, j.fieldOf lib record a = some f) ∧ ∃ g, j.fieldOf lib record b = some g := by
      simpa [not_or, ← ne_eq, Option.ne_none_iff_exists'] using hboth
    refine h.forall ha hb (fun hab => hne (congrArg Prod.fst hab)) f hf g hg ?_
    rw [fieldOf_key hf, fieldOf_key hg, hfield]
  · intro h
    refine hnodup.pairwise_of_forall_ne fun a ha b hb hne f hf g hg hkey => ?_
    rw [fieldOf_key hf, fieldOf_key hg] at hkey
    have hfield : a.2 = b.2 := (String.append_right_inj _).mp (utf8_injective hkey)
    have hkeys : a.1 ≠ b.1 := fun heq => hne (Prod.ext heq hfield)
    obtain hnone | hnone := h a ha b hb hkeys hfield
    · simp [hnone] at hf
    · simp [hnone] at hg

end Syslogc.Extract
