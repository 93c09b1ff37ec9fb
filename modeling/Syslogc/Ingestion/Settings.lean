-- SUMMARY: The settings of a source, built from its definition.
import Syslogc.Config.Validate
import Syslogc.Extract.Templates
import Syslogc.Lib.Zones
import Syslogc.Normalization.Normalizer

/-!
# Settings of a source

`New` resolves a definition that was validated before. Validation compiles the rules of the
source alone; `New` compiles them together with the rules of the template's parts, and tries
them first.
-/

namespace Syslogc.Ingestion

open Config Extract Fallible Logentry

/-! ## Building -/

structure Lib extends GoLib where
  /-- `time.LoadLocation`. -/
  loadLocation : String → Except String Calendar.Location
  /-- `netip.ParsePrefix`, and `Masked` of the result. -/
  parsePrefix : String → Except String Netip.Prefix
  splitHostPort : String → Except String (String × String)
  addr : String → Bool
  atoi : String → Option Int

structure Settings where
  name : String
  config : Config.Source
  protocol : Protocol
  format : Format
  autoDetect : Bool
  location : Calendar.Location
  sdShort : Bool
  allowedCIDRs : List Netip.Prefix
  maxMessageBytes : Int
  norm : Normalization.Source
  extract : Option (List Rule)
  extractJSON : List JSONConfig

/-- A rule of the source itself. It is never additive. -/
def ownRule (r : ExtractRule) : Extract.Config where
  name := r.name
  contains := r.contains
  regex := r.regex
  fieldPrefix := r.fieldPrefix

variable (lib : Lib) (cfg : Config.Source)

def resolveProtocol : Except String Protocol :=
  if cfg.protocol = protocolUDP then .ok ⟨1⟩
  else if cfg.protocol = protocolTCP then .ok ⟨2⟩
  else if cfg.protocol = protocolTLS then .ok ⟨3⟩
  else if cfg.type = sourceTypeHTTPJSON then .ok ⟨4⟩
  else .error s!"source {cfg.name}: unsupported protocol {lib.quote cfg.protocol}"

/-- The format, and whether it is detected for each message instead. -/
def resolveFormat : Except String (Format × Bool) :=
  if cfg.type = sourceTypeHTTPJSON then .ok (.json, false)
  else if cfg.format = "auto" then .ok (.unknown, true)
  else if cfg.format = "rfc5424" then .ok (.rfc5424, false)
  else if cfg.format = "rfc3164" then .ok (.rfc3164, false)
  else .error s!"source {cfg.name}: unsupported format {lib.quote cfg.format}"

def templateParts : List String :=
  if cfg.templateParts ≠ [] then cfg.templateParts else defaultParts lib.toGoLib (utf8 cfg.template)

/-- The parts that a source carries. -/
def selectedParts : List Part :=
  (byID lib.toGoLib (utf8 cfg.template)).elim [] fun t => t.selectedParts lib.toGoLib (templateParts lib cfg)

/-- The rules of the parts. -/
def partRules : List Extract.Config := (selectedParts lib cfg).flatMap Part.extract

/-- The rules for records, with the id of their template. -/
def jsonRules : List (String × JSONConfig) :=
  (byID lib.toGoLib (utf8 cfg.template)).elim [] fun t =>
    (t.json.toList ++ (selectedParts lib cfg).filterMap Part.json).map fun j => (t.id, j)

/-- The rules of the source and then those of its parts, compiled together. -/
def compileRules : Except String (Option (List Rule)) :=
  let rules := cfg.extract.map ownRule ++ partRules lib cfg
  if rules = [] then .ok none
  else ((Extract.new lib.toGoLib rules).mapError fun e => s!"source {cfg.name}: {e}").map some

def compileJSON : Except String (List JSONConfig) :=
  (jsonRules lib cfg).mapM fun idj =>
    (newJSON lib.toGoLib idj.2).mapError fun e => s!"source {cfg.name}: template {idj.1}: {e}"

/-- `New`; the metrics are left out. -/
def newSettings : Except String Settings := do
  let protocol ← resolveProtocol lib cfg
  let format ← resolveFormat lib cfg
  let location ← (lib.loadLocation cfg.timezone).mapError fun e => s!"source {cfg.name}: timezone: {e}"
  let allowedCIDRs ← cfg.allowedCIDRs.mapM fun c =>
    (lib.parsePrefix c).mapError fun e => s!"source {cfg.name}: allowed_cidrs: {e}"
  let extract ← compileRules lib cfg
  let extractJSON ← compileJSON lib cfg
  return {
    name := cfg.name, config := cfg, protocol, location, allowedCIDRs, extract, extractJSON
    format := format.1
    autoDetect := format.2
    sdShort := cfg.sdFlatten = "short"
    maxMessageBytes := cfg.maxMessageBytes
    norm := {
      name := utf8 cfg.name
      type := if cfg.type = sourceTypeHTTPJSON then ⟨1⟩ else ⟨0⟩
      protocol
      tenant := utf8 cfg.tenant
      rawPolicy := if cfg.rawMessage = "on_error" then .onError
        else if cfg.rawMessage = "never" then .never else .always
      hostnameFallbackIP := cfg.hostnameFallback = "ip"
      labels := Normalization.labelFields (cfg.labels.map fun l => (utf8 l.1, utf8 l.2)) } }

/-! ## What validation asks -/

/-- The error of a computation. -/
def problem {α : Type} : Except String α → Option String
  | .ok _ => none
  | .error e => some e

/-- Validation, with what it asks of the other packages. -/
def Lib.checks : Checks where
  template := validTemplate lib.toGoLib
  extract rules := problem (Extract.new lib.toGoLib (rules.map ownRule))
  timezone zone := problem (lib.loadLocation zone)
  cidr c := (lib.parsePrefix c).isOk
  splitHostPort := lib.splitHostPort
  addr := lib.addr
  atoi := lib.atoi
  quote := lib.quote
  equalFold a b := lib.equalFold (utf8 a) (utf8 b)

/-- A definition that validation of the configuration or the preparation for the API accepts. -/
def Accepted (s : Config.Source) : Prop :=
  (∃ elsewhere c, validate lib.checks elsewhere c = [] ∧ s ∈ c.sources) ∨
    ∃ definition, prepareSource lib.checks definition = .ok s

variable {lib} {cfg}

theorem problem_eq_none {α : Type} {x : Except String α} : problem x = none ↔ ∃ a, x = .ok a := by
  cases x <;> simp [problem]

theorem report_eq_nil {field : String} {e : Option String} : report field e = [] ↔ e = none := by
  cases e <;> simp [report]

/-- What acceptance says of the checks that `New` makes again. -/
structure Resolves (lib : Lib) (cfg : Config.Source) : Prop where
  protocol : ∃ p, resolveProtocol lib cfg = .ok p
  format : ∃ f, resolveFormat lib cfg = .ok f
  location : ∃ l, lib.loadLocation cfg.timezone = .ok l
  cidrs : ∀ c ∈ cfg.allowedCIDRs, ∃ p, lib.parsePrefix c = .ok p
  rules : ∀ r ∈ cfg.extract.map ownRule, r.Accepted lib.toGoLib

theorem validateSource_eq_nil {k : Checks} {p : String} {s : Config.Source} :
    validateSource k p s = [] ↔ sourceErrors k s = [] := by
  rw [validateSource, List.map_eq_nil_iff]

theorem Accepted.errors {s : Config.Source} (h : Accepted lib s) : sourceErrors lib.checks s = [] := by
  obtain ⟨elsewhere, c, hvalid, hs⟩ | ⟨definition, h⟩ := h
  · obtain ⟨p, seen, hcheck⟩ := validateSources_mem (List.append_eq_nil_iff.mp hvalid).2 hs
    rw [checkSource, List.append_eq_nil_iff, List.append_eq_nil_iff, List.append_eq_nil_iff] at hcheck
    exact validateSource_eq_nil.mp hcheck.1.1.1
  · unfold prepareSource at h
    dsimp only at h
    split at h
    next hnil =>
      cases h
      exact validateSource_eq_nil.mp hnil
    next => cases h

theorem Accepted.resolves {s : Config.Source} (h : Accepted lib s) : Resolves lib s := by
  have herrors := h.errors
  simp only [sourceErrors, List.append_eq_nil_iff, and_assoc] at herrors
  obtain ⟨-, hextract, -, htype, hformat, hzone, hcidrs, -⟩ := herrors
  have hkind : s.type = sourceTypeHTTPJSON ∨
      s.protocol = protocolUDP ∨ s.protocol = protocolTCP ∨ s.protocol = protocolTLS := by
    unfold validateType at htype
    split at htype
    · simp only [List.append_eq_nil_iff, require_eq_nil, Bool.or_eq_true, decide_eq_true_eq, or_assoc] at htype
      exact .inr htype.1
    · split at htype
      · exact .inl ‹_›
      · cases htype
  constructor
  case protocol =>
    unfold resolveProtocol
    split_ifs <;> first | exact ⟨_, rfl⟩ | tauto
  case format =>
    simp only [require_eq_nil, Bool.or_eq_true, decide_eq_true_eq, or_assoc] at hformat
    unfold resolveFormat
    split_ifs <;> first | exact ⟨_, rfl⟩ | tauto
  case location => exact problem_eq_none.mp (report_eq_nil.mp hzone)
  case cidrs =>
    intro c hc
    have hok := require_eq_nil.mp (List.flatMap_eq_nil_iff.mp hcidrs c hc)
    change (lib.parsePrefix c).isOk = true at hok
    cases hparse : lib.parsePrefix c with
    | error e => simp [hparse, Except.isOk, Except.toBool] at hok
    | ok p => exact ⟨p, rfl⟩
  case rules =>
    intro r hr
    have hne : s.extract ≠ [] := fun hnil => by simp [hnil] at hr
    have hnone := report_eq_nil.mp hextract
    rw [if_neg hne] at hnone
    exact (new_isOk.mp (problem_eq_none.mp hnone)).2 r hr

/-! ## Building what was accepted -/

/-- The rule of every part passes its own check. -/
theorem newJSON_eq_ok {lib : GoLib} {j : JSONConfig} (h : j = directoryJSON ∨ j = mssqlJSON ∨ j = iisJSON) :
    newJSON lib j = .ok j := by
  obtain rfl | rfl | rfl := h <;> rfl

theorem selectedParts_mem {p : Part} (h : p ∈ selectedParts lib cfg) :
    p = directoryPart ∨ p = mssqlPart ∨ p = iisPart := by
  unfold selectedParts at h
  cases hid : byID lib.toGoLib (utf8 cfg.template) with
  | none => simp [hid] at h
  | some t =>
    rw [hid] at h
    have ht : t = dnsTemplate ∨ t = windowsTemplate := by simpa [templates] using List.mem_of_find?_eq_some hid
    obtain rfl | rfl := ht
    · cases h
    · simpa [windowsTemplate] using (List.mem_filter.mp h).1

theorem partRules_mem {r : Extract.Config} (h : r ∈ partRules lib cfg) : r ∈ mssqlPart.extract := by
  obtain ⟨p, hp, hr⟩ := List.mem_flatMap.mp h
  obtain rfl | rfl | rfl := selectedParts_mem hp
  · cases hr
  · exact hr
  · cases hr

theorem newJSON_of_mem {idj : String × JSONConfig} (h : idj ∈ jsonRules lib cfg) :
    newJSON lib.toGoLib idj.2 = .ok idj.2 := by
  unfold jsonRules at h
  cases hid : byID lib.toGoLib (utf8 cfg.template) with
  | none => simp [hid] at h
  | some t =>
    rw [hid] at h
    have ht : t = dnsTemplate ∨ t = windowsTemplate := by simpa [templates] using List.mem_of_find?_eq_some hid
    have hjson : t.json = none := by obtain rfl | rfl := ht <;> rfl
    obtain ⟨j, hj, rfl⟩ := List.mem_map.mp h
    rw [hjson, Option.toList_none, List.nil_append] at hj
    obtain ⟨p, hp, hj⟩ := List.mem_filterMap.mp hj
    refine newJSON_eq_ok ?_
    obtain rfl | rfl | rfl := selectedParts_mem hp <;> cases hj <;> simp

theorem compileJSON_eq_ok : compileJSON lib cfg = .ok ((jsonRules lib cfg).map Prod.snd) := by
  refine mapM_eq_ok.mpr (List.forall₂_map_right_iff.mpr (List.forall₂_same.mpr fun idj h => ?_))
  exact mapError_eq_ok.mpr (newJSON_of_mem h)

/-- What the settings of a source have of its rules. -/
structure Built (lib : Lib) (cfg : Config.Source) (s : Settings) : Prop where
  few : (cfg.extract.map ownRule ++ partRules lib cfg).length ≤ maxRules
  rules : List.Forall₂ (Config.Compiled lib.toGoLib) (cfg.extract.map ownRule ++ partRules lib cfg) (s.extract.getD [])
  json : s.extractJSON = (jsonRules lib cfg).map Prod.snd

theorem newSettings_built {s : Settings} (h : newSettings lib cfg = .ok s) : Built lib cfg s := by
  obtain ⟨protocol, -, h⟩ := bind_eq_ok.mp h
  obtain ⟨format, -, h⟩ := bind_eq_ok.mp h
  obtain ⟨location, -, h⟩ := bind_eq_ok.mp h
  obtain ⟨cidrs, -, h⟩ := bind_eq_ok.mp h
  obtain ⟨extract, hextract, h⟩ := bind_eq_ok.mp h
  obtain ⟨json, hjson, h⟩ := bind_eq_ok.mp h
  cases h
  have hmap : json = (jsonRules lib cfg).map Prod.snd := by
    rw [compileJSON_eq_ok] at hjson
    exact (Except.ok.inj hjson).symm
  unfold compileRules at hextract
  dsimp only at hextract
  split at hextract
  next hnil =>
    cases hextract
    exact ⟨by rw [hnil]; decide, by rw [hnil]; exact .nil, hmap⟩
  next hne =>
    obtain ⟨rules, hrules, rfl⟩ := map_eq_ok.mp hextract
    have hnew := mapError_eq_ok.mp hrules
    exact ⟨(new_isOk.mp ⟨_, hnew⟩).1, new_compiled hnew, hmap⟩

theorem Resolves.newSettings (h : Resolves lib cfg) (hparts : ∀ r ∈ partRules lib cfg, r.Accepted lib.toGoLib)
    (hfew : (cfg.extract.map ownRule ++ partRules lib cfg).length ≤ maxRules) : ∃ s, newSettings lib cfg = .ok s := by
  obtain ⟨protocol, hprotocol⟩ := h.protocol
  obtain ⟨format, hformat⟩ := h.format
  obtain ⟨location, hlocation⟩ := h.location
  obtain ⟨cidrs, hcidrs⟩ := mapM_isOk.mpr fun c hc => (h.cidrs c hc).imp fun p hp =>
    (mapError_eq_ok (f := fun e => s!"source {cfg.name}: allowed_cidrs: {e}")).mpr hp
  obtain ⟨extract, hextract⟩ : ∃ extract, compileRules lib cfg = .ok extract := by
    obtain ⟨rules, hrules⟩ := new_isOk.mpr ⟨hfew, fun r hr => (List.mem_append.mp hr).elim (h.rules r) (hparts r)⟩
    unfold compileRules
    dsimp only
    split
    · exact ⟨_, rfl⟩
    · exact ⟨_, map_eq_ok.mpr ⟨rules, mapError_eq_ok.mpr hrules, rfl⟩⟩
  exact ⟨_, bind_eq_ok.mpr ⟨protocol, hprotocol, bind_eq_ok.mpr ⟨format, hformat,
    bind_eq_ok.mpr ⟨location, mapError_eq_ok.mpr hlocation, bind_eq_ok.mpr ⟨cidrs, hcidrs,
    bind_eq_ok.mpr ⟨extract, hextract, bind_eq_ok.mpr ⟨_, compileJSON_eq_ok, rfl⟩⟩⟩⟩⟩⟩⟩

/-- An accepted definition can be built if and only if its rules and those of its parts are
no more than a source may have. The hypothesis says that the patterns of the parts are
regular expressions. -/
theorem accepted_builds_iff (lib : Lib) (hpatterns : ∀ r ∈ mssqlPart.extract, r.Accepted lib.toGoLib)
    {s : Config.Source} (h : Accepted lib s) :
    (∃ settings, newSettings lib s = .ok settings) ↔ s.extract.length + (partRules lib s).length ≤ maxRules := by
  have hlength : (s.extract.map ownRule ++ partRules lib s).length = s.extract.length + (partRules lib s).length := by
    rw [List.length_append, List.length_map]
  rw [← hlength]
  constructor
  · rintro ⟨settings, hsettings⟩
    exact (newSettings_built hsettings).few
  · exact h.resolves.newSettings fun r hr => hpatterns r (partRules_mem hr)

/-- The library on the texts that are used here. -/
def sampleLibrary : Lib where
  toGoLib := sampleLib
  loadLocation _ := .ok Calendar.Location.utc
  parsePrefix _ := .error "no prefix"
  splitHostPort _ := .ok ("", "6514")
  addr _ := true
  atoi _ := some 6514

/-- A source for SQL Server with rules of its own, all of the same pattern. -/
def databaseSource (n : Nat) : Config.Source where
  name := "sql"
  protocol := protocolTCP
  address := ":6514"
  template := "windows-server"
  templateParts := [partMSSQL]
  extract := List.replicate n { regex := userRegex, fieldPrefix := "sql." }

/-- Fifteen rules are accepted, and too many together with the two of the part. -/
theorem fifteen_rules_fail : ∃ s, prepareSource sampleLibrary.checks (databaseSource 15) = .ok s ∧
    ∃ e, newSettings sampleLibrary s = .error e := by
  refine ⟨applySourceDefaults (databaseSource 15), rfl, ?_⟩
  exact ⟨_, rfl⟩

theorem sampleLibrary_patterns : ∀ r ∈ mssqlPart.extract, r.Accepted sampleLibrary.toGoLib := by
  have hnew : ∃ rules, Extract.new sampleLibrary.toGoLib mssqlPart.extract = .ok rules := ⟨_, rfl⟩
  exact (new_isOk.mp hnew).2

theorem accepted_builds_iff_fourteen :
    ∃ s, Accepted sampleLibrary s ∧ ∃ settings, newSettings sampleLibrary s = .ok settings :=
  have h : Accepted sampleLibrary (applySourceDefaults (databaseSource 14)) := .inr ⟨databaseSource 14, rfl⟩
  ⟨_, h, (accepted_builds_iff sampleLibrary sampleLibrary_patterns h).mpr (by decide)⟩

/-! ## What is extracted -/

/-- The fields of a message that is a record. -/
def Settings.recordFields (lib : GoLib) (order : Order) (s : Settings) (message : Bytes) : List Field :=
  s.extractJSON.flatMap fun j => j.adds lib (order.keys j) message

def Settings.rules (s : Settings) : List Rule := s.extract.getD []

/-- The rules of the source itself. -/
def Settings.ownRules (s : Settings) : List Rule := s.rules.filter fun r => !r.additive

/-- What a worker does to an entry between parsing and normalization. -/
def Settings.extracted (lib : GoLib) (order : Order) (s : Settings) (e : Entry) : Entry :=
  let e := s.extractJSON.foldl (fun e j => (j.apply lib (order.keys j) e).2) e
  s.extract.elim e fun rules => (apply rules e).2

/-- The fields that a source adds to an entry. -/
def Settings.added (lib : GoLib) (order : Order) (s : Settings) (e : Entry) : List Field :=
  gained e (s.extracted lib order e)

theorem foldl_apply (lib : GoLib) (order : Order) (js : List JSONConfig) (e : Entry) :
    js.foldl (fun e j => (j.apply lib (order.keys j) e).2) e =
      { e with fields := e.fields ++ js.flatMap fun j => j.adds lib (order.keys j) e.message } := by
  induction js generalizing e with
  | nil => simp
  | cons j js ih => simp [ih, j.apply_eq]

theorem Settings.added_eq (lib : GoLib) (order : Order) (s : Settings) (e : Entry) :
    s.added lib order e = s.recordFields lib order e.message ++ textFields s.rules e.message := by
  unfold Settings.added Settings.extracted Settings.rules gained
  rw [foldl_apply]
  cases s.extract with
  | none => simp [Settings.recordFields, textFields, Extract.added]
  | some rules => simp [apply_eq, Settings.recordFields]

theorem Built.rules_append {s : Settings} (h : Built lib cfg s) : ∃ parts, s.rules = s.ownRules ++ parts ∧
    (∀ r ∈ s.ownRules, r.additive = false) ∧ List.Forall₂ (Config.Compiled lib.toGoLib) (partRules lib cfg) parts := by
  obtain ⟨own, parts, hrules, hown, hparts⟩ := Lists.forall₂_append_left h.rules
  have hownRules : ∀ r ∈ own, r.additive = false := by
    intro r hr
    obtain ⟨c, hc, hcompiled⟩ := Lists.forall₂_exists_left hown hr
    obtain ⟨_, -, rfl⟩ := List.mem_map.mp hc
    exact hcompiled.additive
  have hpartRules : ∀ r ∈ parts, r.additive = true := by
    intro r hr
    obtain ⟨c, hc, hcompiled⟩ := Lists.forall₂_exists_left hparts hr
    have hc := partRules_mem hc
    rw [hcompiled.additive]
    simp only [mssqlPart, List.mem_cons, List.not_mem_nil, or_false] at hc
    obtain rfl | rfl := hc <;> rfl
  have hsplit : s.ownRules = own := by
    have hkeep : own.filter (fun r => !r.additive) = own := List.filter_eq_self.mpr fun r hr => by simp [hownRules r hr]
    have hdrop : parts.filter (fun r => !r.additive) = [] :=
      List.filter_eq_nil_iff.mpr fun r hr => by simp [hpartRules r hr]
    rw [Settings.ownRules, Settings.rules, hrules, List.filter_append, hkeep, hdrop, List.append_nil]
  exact ⟨parts, by rw [hsplit]; exact hrules, hsplit ▸ hownRules, hparts⟩

/-- Rules of a source take nothing away from what its template extracts if and only if none
of them matches the message, or the first that does and the rules for records add all that
the rules of the parts would. -/
theorem ownRules_keep_iff (lib : Lib) (cfg : Config.Source) {s s₀ : Settings} (h : newSettings lib cfg = .ok s)
    (h₀ : newSettings lib { cfg with extract := [] } = .ok s₀) (order order₀ : Order) (e : Entry) :
    (∀ f ∈ s₀.added lib.toGoLib order₀ e, f ∈ s.added lib.toGoLib order e) ↔
      (∀ r ∈ s.ownRules, r.find e.message = none) ∨
        ∀ f ∈ textFields s₀.rules e.message,
          f ∈ textFields s.ownRules e.message ∨ f ∈ s.recordFields lib.toGoLib order e.message := by
  have hbuilt := newSettings_built h
  have hbuilt₀ := newSettings_built h₀
  obtain ⟨parts, hrules, hown, hparts⟩ := hbuilt.rules_append
  have hrecords : ∀ f, f ∈ s₀.recordFields lib.toGoLib order₀ e.message ↔
      f ∈ s.recordFields lib.toGoLib order e.message := by
    intro f
    have hjson : s₀.extractJSON = s.extractJSON := hbuilt₀.json.trans hbuilt.json.symm
    simp only [Settings.recordFields, List.mem_flatMap, hjson]
    exact exists_congr fun j => and_congr_right fun _ => (j.adds_perm order₀ order e.message).mem_iff
  have hadded : Extract.added e.message s₀.rules = Extract.added e.message parts := added_congr hbuilt₀.rules hparts
  have hmem : (∀ f ∈ s₀.added lib.toGoLib order₀ e, f ∈ s.added lib.toGoLib order e) ↔
      ∀ f ∈ textFields s₀.rules e.message,
        f ∈ textFields s.rules e.message ∨ f ∈ s.recordFields lib.toGoLib order e.message := by
    simp only [Settings.added_eq, List.mem_append]
    exact ⟨fun hall f hf => (hall f (.inr hf)).symm,
      fun hall f hf => hf.elim (fun hf => .inl ((hrecords f).mp hf)) fun hf => (hall f hf).symm⟩
  rw [hmem]
  by_cases hmatch : ∀ r ∈ s.ownRules, r.find e.message = none
  · refine iff_of_true (fun f hf => .inl ?_) (.inl hmatch)
    unfold textFields at hf ⊢
    rwa [hrules, added_append_of_unmatched hmatch, ← hadded]
  · have hfirst : textFields s.rules e.message = textFields s.ownRules e.message := by
      unfold textFields
      rw [hrules, added_append_of_matched hown (by simpa using hmatch)]
    rw [hfirst]
    simp [hmatch]

def loginFailed : Bytes := utf8 "Login failed for user 'sa'. [CLIENT: 10.20.4.19]"

/-- A rule of the source for the account keeps the rules of the part from being tried. -/
theorem ownRule_hides_login : ∃ s s₀, newSettings sampleLibrary (applySourceDefaults (databaseSource 1)) = .ok s ∧
    newSettings sampleLibrary { applySourceDefaults (databaseSource 1) with extract := [] } = .ok s₀ ∧
    ⟨utf8 "mssql.client_ip", utf8 "10.20.4.19"⟩ ∈ (s₀.extracted sampleLib .written { message := loginFailed }).fields ∧
    ⟨utf8 "mssql.client_ip", utf8 "10.20.4.19"⟩ ∉ (s.extracted sampleLib .written { message := loginFailed }).fields :=
  ⟨_, _, rfl, rfl, by decide +kernel, by decide +kernel⟩

/-- A message that the rule of the source does not match. -/
theorem ownRules_keep_iff_other : ∃ s s₀, newSettings sampleLibrary (applySourceDefaults (databaseSource 1)) = .ok s ∧
    newSettings sampleLibrary { applySourceDefaults (databaseSource 1) with extract := [] } = .ok s₀ ∧
    ∀ f ∈ s₀.added sampleLib .written { message := utf8 "[CLIENT: 10.20.4.19]" },
      f ∈ s.added sampleLib .written { message := utf8 "[CLIENT: 10.20.4.19]" } :=
  ⟨_, _, rfl, rfl, (ownRules_keep_iff sampleLibrary (applySourceDefaults (databaseSource 1)) rfl rfl .written .written
    { message := utf8 "[CLIENT: 10.20.4.19]" }).mpr (.inl (by decide +kernel))⟩

end Syslogc.Ingestion
