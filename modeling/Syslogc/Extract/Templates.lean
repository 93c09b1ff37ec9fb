-- SUMMARY: Source templates, and the fields that their parts read.
import Syslogc.Extract.Rules

/-!
# Source templates

A template knows how to read the logs of one kind of sender. The Windows template is made
of parts, of which a source carries some; each part reads the records that are marked as
its own. Titles, descriptions and setup steps are left out, and so are the rules of the
template for DNS, which a source only starts from.
-/

namespace Syslogc.Extract

/-! ## Templates -/

/-- One kind of log that a template can carry. -/
structure Part where
  id : String
  default : Bool := false
  extract : List Config := []
  json : Option JSONConfig := none
deriving DecidableEq, Repr

structure Template where
  id : String
  json : Option JSONConfig := none
  parts : List Part := []
deriving DecidableEq, Repr

def partDirectory : String := "active-directory"
def partMSSQL : String := "mssql"
def partIIS : String := "iis"

/-- The member by which the sender marks the records of each input. -/
def markerField : String := "syslogc_part"

def partWhen (marker : String) : List JSONMatch := [{ keys := [markerField], equals := [marker] }]

/-- Records without a mark belong to the part that existed before it. -/
def partWhenOrUnmarked (marker : String) : List JSONMatch :=
  [{ keys := [markerField], equals := [marker], matchIfAbsent := true }]

def directoryJSON : JSONConfig where
  fieldPrefix := "ad."
  keys := [("EventID", "event_id"), ("TargetUserName", "user"), ("TargetDomainName", "domain"),
    ("SubjectUserName", "actor"), ("LogonType", "logon_type"), ("IpAddress", "source_ip"), ("IpPort", "source_port"),
    ("WorkstationName", "workstation"), ("TargetUserSid", "user_sid"), ("Status", "status"),
    ("SubStatus", "sub_status"), ("FailureReason", "failure_reason"), ("LogonProcessName", "logon_process"),
    ("AuthenticationPackageName", "auth_package"), ("ProcessName", "process"), ("TargetServerName", "target_server"),
    ("ServiceName", "service"), ("CallerComputerName", "caller_computer"), ("MemberName", "member"),
    ("TicketOptions", "ticket_options"), ("TicketEncryptionType", "ticket_encryption"), ("Channel", "channel"),
    ("Hostname", "dc"), ("AccountName", "account_name"), ("AccountType", "account_type")]
  when := partWhenOrUnmarked "ad"
  nodup := by decide

def mssqlJSON : JSONConfig where
  fieldPrefix := "mssql."
  keys := [("EventID", "event_id"), ("SourceName", "provider"), ("ProviderName", "provider"), ("Severity", "severity"),
    ("SeverityValue", "severity_value"), ("EventType", "event_type"), ("Channel", "channel"), ("Hostname", "host"),
    ("Message", "message")]
  when := partWhen "mssql"
  nodup := by decide

def iisJSON : JSONConfig where
  fieldPrefix := "iis."
  keys := [("cs_method", "method"), ("cs_uri_stem", "uri"), ("cs_uri_query", "query"), ("sc_status", "status"),
    ("sc_substatus", "substatus"), ("sc_win32_status", "win32_status"), ("time_taken", "time_taken"),
    ("c_ip", "client_ip"), ("cs_username", "username"), ("cs_user_agent", "user_agent"), ("cs_referer", "referer"),
    ("s_ip", "server_ip"), ("s_port", "port")]
  when := partWhen "iis"
  nodup := by decide

def directoryPart : Part where
  id := partDirectory
  default := true
  json := some directoryJSON

/-- The account of a failed login is quoted in the text. -/
def loginFailure : Config where
  name := "mssql-login-failure"
  contains := "Login failed for user"
  regex := "Login failed for user '(?P<login_user>[^']*)'"
  fieldPrefix := "mssql."
  additive := true

def client : Config where
  name := "mssql-client"
  contains := "[CLIENT:"
  regex := "\\[CLIENT: (?P<client_ip>[^\\]]+)\\]"
  fieldPrefix := "mssql."
  additive := true

def mssqlPart : Part where
  id := partMSSQL
  extract := [loginFailure, client]
  json := some mssqlJSON

def iisPart : Part where
  id := partIIS
  json := some iisJSON

def dnsTemplate : Template where
  id := "dns-dnsdist"

def windowsTemplate : Template where
  id := "windows-server"
  parts := [directoryPart, mssqlPart, iisPart]

/-- `All`. -/
def templates : List Template := [dnsTemplate, windowsTemplate]

/-! ## Choosing -/

variable (lib : GoLib)

/-- Retired ids resolve to their successor. -/
def byID (id : Bytes) : Option Template :=
  let id := id.trimSpace
  let id := if lib.toLower id = utf8 partDirectory then utf8 "windows-server" else id
  templates.find? fun t => lib.equalFold (utf8 t.id) id

/-- The parts of a source that names none. -/
def defaultParts (id : Bytes) : List String :=
  if lib.equalFold id.trimSpace (utf8 partDirectory) then [partDirectory] else []

def templateIDs : List String := (templates.map Template.id).mergeSort fun a b => a ≤ b

/-- `Valid`: the problem of an id that names no template. -/
def validTemplate (id : String) : Option String :=
  if (utf8 id).trimSpace = [] then none
  else if byID lib (utf8 id) = none then
    let known := String.intercalate ", " templateIDs
    some s!"unknown template {lib.quote id}; known templates are {known}"
  else none

/-- The parts with the given ids, in the order of the template; those that are on by default
if there are no ids. -/
def Template.selectedParts (t : Template) (ids : List String) : List Part :=
  let want := ids.map fun id => lib.toLower (utf8 id).trimSpace
  t.parts.filter fun p => (want = [] && p.default) || lib.toLower (utf8 p.id) ∈ want

/-! ## The fields of a record -/

variable {lib} {j : JSONConfig} {record : String → Option Bytes} {p : Part}

/-- A reader that takes the first field of each key sees the same. -/
def SameFields (l l' : List Logentry.Field) : Prop :=
  l.Perm l' ∧ ∀ key, (l.find? fun f => f.key = key) = l'.find? fun f => f.key = key

theorem sameFields_of_nodup {l l' : List Logentry.Field} (h : l.Perm l') (hnodup : (l.map Logentry.Field.key).Nodup) :
    SameFields l l' := by
  refine ⟨h, fun key => ?_⟩
  induction h with
  | nil => rfl
  | cons f h ih =>
    simp only [List.find?_cons]
    split
    · rfl
    · exact ih (List.nodup_cons.mp hnodup).2
  | swap f g l =>
    have hne : g.key ≠ f.key := fun heq => by simp [heq] at hnodup
    simp only [List.find?_cons]
    by_cases hf : f.key = key
    · simp [hf, hf ▸ hne]
    · simp [hf]
  | trans h₁ _ ih₁ ih₂ => exact (ih₁ hnodup).trans (ih₂ ((h₁.map _).nodup_iff.mp hnodup))

/-- A member of a record with a value that is neither empty nor nested. -/
def Present (lib : GoLib) (record : String → Option Bytes) (key : String) : Prop :=
  ∃ raw, record key = some raw ∧ jsonScalar lib raw ≠ []

theorem JSONConfig.fieldOf_eq_none_iff {key : String × String} :
    j.fieldOf lib record key = none ↔ ¬Present lib record key.1 := by
  unfold JSONConfig.fieldOf Present
  cases record key.1 with
  | none => simp
  | some raw => simp

theorem JSONConfig.apart_of_nodup (h : (j.keys.map Prod.snd).Nodup) : j.Apart lib record := by
  intro a ha b hb hne hfield
  exact absurd (congrArg Prod.fst (List.inj_on_of_nodup_map h ha hb hfield)) hne

theorem mssqlJSON_apart_iff : mssqlJSON.Apart lib record ↔
    ¬(Present lib record "SourceName" ∧ Present lib record "ProviderName") := by
  have hpairs : ∀ a ∈ mssqlJSON.keys, ∀ b ∈ mssqlJSON.keys, a.1 ≠ b.1 → a.2 = b.2 →
      a.1 = "SourceName" ∧ b.1 = "ProviderName" ∨ a.1 = "ProviderName" ∧ b.1 = "SourceName" := by decide
  constructor
  · intro h hboth
    obtain hnone | hnone := h ("SourceName", "provider") (by decide) ("ProviderName", "provider") (by decide)
      (by decide) rfl
    · exact JSONConfig.fieldOf_eq_none_iff.mp hnone hboth.1
    · exact JSONConfig.fieldOf_eq_none_iff.mp hnone hboth.2
  · intro h a ha b hb hne hfield
    rw [JSONConfig.fieldOf_eq_none_iff, JSONConfig.fieldOf_eq_none_iff]
    obtain ⟨hs, hp⟩ | ⟨hp, hs⟩ := hpairs a ha b hb hne hfield
    · rw [hs, hp]
      exact not_and_or.mp h
    · rw [hs, hp]
      exact (not_and_or.mp h).symm

/-- A record of SQL Server that names its provider twice. -/
def NamesProviderTwice (lib : GoLib) (message : Bytes) : Prop :=
  ∃ record, readRecord lib message = some record ∧ (mssqlJSON.when.all fun m => m.holds lib record) = true ∧
    Present lib record "SourceName" ∧ Present lib record "ProviderName"

/-- The fields that `Apply` adds to an entry are the same in every order, each under a key
of its own. -/
def JSONConfig.Agrees (lib : GoLib) (j : JSONConfig) (e : Logentry.Entry) : Prop :=
  (∀ order order' : Order,
    SameFields (gained e (j.apply lib (order.keys j) e).2) (gained e (j.apply lib (order'.keys j) e).2)) ∧
    ∀ order : Order, ((gained e (j.apply lib (order.keys j) e).2).map Logentry.Field.key).Nodup

/-- The order in which a table is written. -/
def Order.written : Order := ⟨JSONConfig.keys, fun _ => .refl _⟩

theorem JSONConfig.agrees_iff (e : Logentry.Entry) : j.Agrees lib e ↔
    ∀ record, readRecord lib e.message = some record → (j.when.all fun m => m.holds lib record) = true →
      j.Apart lib record := by
  simp only [JSONConfig.Agrees, gained_apply]
  unfold JSONConfig.adds
  constructor
  · intro h record hrecord hwhen
    have hnodup := h.2 .written
    rw [hrecord] at hnodup
    exact (added_nodup_iff hwhen .written).mp hnodup
  · intro h
    have hnodup (order : Order) :
        (((readRecord lib e.message).elim [] (j.added lib (order.keys j))).map Logentry.Field.key).Nodup := by
      cases hrecord : readRecord lib e.message with
      | none => exact List.nodup_nil
      | some record =>
        by_cases hwhen : (j.when.all fun m => m.holds lib record) = true
        · exact (added_nodup_iff hwhen order).mpr (h record hrecord hwhen)
        · simp [added, hwhen]
    exact ⟨fun order order' => sameFields_of_nodup (j.adds_perm order order' e.message) (hnodup order), hnodup⟩

/-- The fields of every part are the same in every order, each under a key of its own,
except for a record of SQL Server that names its provider twice. -/
theorem part_agrees_iff (lib : GoLib) {t : Template} (ht : t ∈ templates) {p : Part} (hp : p ∈ t.parts)
    {j : JSONConfig} (hj : p.json = some j) (e : Logentry.Entry) :
    j.Agrees lib e ↔ ¬(p.id = partMSSQL ∧ NamesProviderTwice lib e.message) := by
  have hparts : p = directoryPart ∨ p = mssqlPart ∨ p = iisPart := by
    simp only [templates, List.mem_cons, List.not_mem_nil, or_false] at ht
    obtain rfl | rfl := ht
    · cases hp
    · simpa [windowsTemplate] using hp
  rw [JSONConfig.agrees_iff]
  obtain rfl | rfl | rfl := hparts
  · cases hj
    exact iff_of_true (fun _ _ _ => JSONConfig.apart_of_nodup (by decide)) fun h => absurd h.1 (by decide)
  · cases hj
    simp only [mssqlJSON_apart_iff, NamesProviderTwice]
    exact ⟨fun h ⟨_, record, hrecord, hwhen, hboth⟩ => h record hrecord hwhen hboth,
      fun h record hrecord hwhen hboth => h ⟨rfl, record, hrecord, hwhen, hboth⟩⟩
  · cases hj
    exact iff_of_true (fun _ _ _ => JSONConfig.apart_of_nodup (by decide)) fun h => absurd h.1 (by decide)

/-! ## A record with two providers -/

/-- What stands between two texts. -/
def between (start : Bytes) (stop : UInt8) (s : Bytes) : Option Bytes :=
  s.tails.findSome? fun t => ((Bytes.cutPrefix start t).bind (Bytes.cut stop)).map Prod.fst

/-- The pattern of a text, a named group without the character that ends it, and this
character. -/
def betweenRegexp (start : Bytes) (stop : UInt8) (name : String) : Regexp where
  names := ["", name]
  find := fun s => (between start stop s).map fun v => [start ++ v ++ [stop], v]
  length_find := by
    intro s groups h
    obtain ⟨v, -, rfl⟩ := Option.map_eq_some_iff.mp h
    rfl

def userRegex : String := "user '(?P<user>[^']*)'"

def twoProviders : Bytes :=
  utf8 "\x7b\"syslogc_part\":\"mssql\",\"SourceName\":\"MSSQLSERVER\",\"ProviderName\":\"MSSQL$SALES\"\x7d"

/-- The library on the texts that are used here. -/
def sampleLib : GoLib where
  compile regex :=
    if regex = loginFailure.regex then .ok (betweenRegexp (utf8 "Login failed for user '") 39 "login_user")
    else if regex = client.regex then .ok (betweenRegexp (utf8 "[CLIENT: ") 93 "client_ip")
    else if regex = userRegex then .ok (betweenRegexp (utf8 "user '") 39 "user")
    else .error "error parsing regexp"
  quote s := s
  quoteRune c := c.toString
  equalFold a b := a = b
  toLower := id
  unmarshal text :=
    if text = twoProviders then
      some fun key => [("syslogc_part", utf8 "\"mssql\""), ("SourceName", utf8 "\"MSSQLSERVER\""),
        ("ProviderName", utf8 "\"MSSQL$SALES\"")].lookup key
    else none
  unmarshalString raw := some (raw.tail.dropLast)
  formatNumber := some

/-- Which of the two names is the provider depends on the order of the table. -/
theorem twoProviders_disagree : ¬mssqlJSON.Agrees sampleLib { message := twoProviders } ∧
    ∃ order : Order, ((mssqlJSON.apply sampleLib (order.keys mssqlJSON) { message := twoProviders }).2.fields.find?
        fun f => f.key = utf8 "mssql.provider") ≠
      ((mssqlJSON.apply sampleLib (Order.written.keys mssqlJSON) { message := twoProviders }).2.fields.find?
        fun f => f.key = utf8 "mssql.provider") := by
  have hdiffer : ((mssqlJSON.apply sampleLib mssqlJSON.keys.reverse { message := twoProviders }).2.fields.find?
        fun f => f.key = utf8 "mssql.provider") ≠
      ((mssqlJSON.apply sampleLib mssqlJSON.keys { message := twoProviders }).2.fields.find?
        fun f => f.key = utf8 "mssql.provider") := by
    decide +kernel
  let order : Order := ⟨fun c => c.keys.reverse, fun c => c.keys.reverse_perm⟩
  exact ⟨fun h => hdiffer ((h.1 order .written).2 _), order, hdiffer⟩

/-- A web request names no provider. -/
theorem part_agrees_iff_iis : iisJSON.Agrees sampleLib { message := utf8 "\x7b\"syslogc_part\":\"iis\"\x7d" } :=
  (part_agrees_iff sampleLib (t := windowsTemplate) (by decide) (p := iisPart) (by decide) rfl _).mpr
    fun h => absurd h.1 (by decide)

end Syslogc.Extract
