-- SUMMARY: The table of stored sources, and the requests on it.
import Syslogc.Api.Users
import Syslogc.Config.Print
import Syslogc.Supervisor.Supervisor

/-!
# Managing sources

Sources are defined by the configuration file or stored in the metadata database. A
stored source may be the adopted copy of one of the file, which then stands aside. The
database holds one tenant, the default one.
-/

namespace Syslogc.Api

open Auth Config Supervisor

/-! ## The table -/

structure SourceRow extends ManagedSource where
  createdAt : Int
  updatedAt : Int
  version : Int

structure SourceTable where
  rows : List SourceRow := []
  /-- The database does not answer. -/
  down : Bool := false

/-- What the database does with text. -/
structure Database where
  /-- `lower`, over which the names of the table are unique. -/
  lower : String → String
  /-- The order of `ORDER BY name`. -/
  before : String → String → Bool

inductive UpdateError
  | versionConflict
  | store (e : StoreError)
deriving DecidableEq, Repr

namespace SourceTable

variable (db : Database) (t : SourceTable)

/-- A row stands against another under the unique index on names. -/
def sameName (r r' : SourceRow) : Bool := db.lower r.name = db.lower r'.name

def createSource (r : SourceRow) : Except StoreError SourceTable :=
  if t.down then .error .unavailable
  else if t.rows.any fun r' => r'.id = r.id || sameName db r' r then .error .conflict
  else .ok { t with rows := t.rows ++ [r] }

def sourceByID (id : Nat) : Except StoreError SourceRow :=
  if t.down then .error .unavailable else Fallible.get .notFound (t.rows.find? (·.id = id))

def listSources : Except StoreError (List SourceRow) :=
  if t.down then .error .unavailable
  else .ok (t.rows.mergeSort fun r r' => db.before r.name r'.name)

/-- The row that an update leaves in the place of the one with its identifier. -/
def written (now : Int) (r old : SourceRow) : SourceRow :=
  { old with name := r.name, config := r.config, enabled := r.enabled, updatedAt := now,
             version := old.version + 1 }

def replace (now : Int) (r : SourceRow) : SourceTable :=
  { t with rows := t.rows.map fun old => if old.id = r.id then written now r old else old }

/-- The update applies to the version that was read. -/
def updateSource (now : Int) (r : SourceRow) : Except UpdateError SourceTable :=
  if t.down then .error (.store .unavailable)
  else match t.rows.find? (·.id = r.id) with
    | none => .error (.store .notFound)
    | some old =>
      if old.version ≠ r.version then .error .versionConflict
      else if t.rows.any fun r' => r'.id ≠ r.id && sameName db r' r then .error (.store .conflict)
      else .ok (t.replace now r)

def deleteSource (id : Nat) : Except StoreError SourceTable :=
  if t.down then .error .unavailable
  else if t.rows.any (·.id = id) then .ok { t with rows := t.rows.filter (·.id ≠ id) }
  else .error .notFound

end SourceTable

/-! ## Answers -/

structure CertInfo where
  subject : String
  issuer : String
  dnsNames : List String
  ipAddresses : List String
  notBefore : Int
  notAfter : Int
  selfSigned : Bool
  chain : Nat
deriving DecidableEq, Repr

structure AcmeStatus where
  domains : List String
  staging : Bool := false
  obtained : List (String × Int) := []
  error : String := ""
  lastTried : Int := 0
deriving DecidableEq, Repr

/-- `sourceJSONBody`: a source in a response. -/
structure SourceBody where
  id : Option Nat := none
  config : Source
  enabled : Bool
  origin : Origin
  adopted : Bool := false
  keyStored : Bool := false
  certificate : Option CertInfo := none
  acme : Option AcmeStatus := none
  status : Option Status := none
  createdAt : Option Int := none
  updatedAt : Option Int := none
  version : Int := 0
deriving DecidableEq, Repr

/-- What the handlers ask of other packages. -/
structure Outside (Text : Type) where
  checks : Checks
  db : Database
  /-- `strings.ToLower`. -/
  toLower : String → String
  /-- `certs.Describe`, `none` for material that cannot be read. -/
  describe : String → Option CertInfo
  /-- `uuid.Parse`. -/
  parseID : String → Option Nat
  /-- `time.Duration.String`. -/
  goDuration : Int → String
  /-- `yaml.Marshal`. -/
  marshal : Node → Text

structure Server where
  config : Effective
  /-- `none` without a metadata database. -/
  store : Option SourceTable
  /-- The statuses of the sources, `none` on a node that runs none. -/
  statuses : Option (List Status) := none
  /-- The state of the certificates, `none` without a manager. -/
  certificates : Option (List AcmeStatus) := none

def Server.fileSources (s : Server) : List Source := s.config.ingestion.sources

variable {Text : Type} (out : Outside Text) (s : Server)

/-- The status reported under a name. -/
def Server.statusOf (name : String) : Option Status :=
  (s.statuses.getD []).reverse.find? (·.name = name)

def SourceBody.redactKey (b : SourceBody) : SourceBody :=
  { b with
    keyStored := !blank b.config.tls.key
    config := { b.config with tls := { b.config.tls with key := "" } } }

def describeCertificate (sc : Source) : Option CertInfo :=
  if blank sc.tls.cert then none else out.describe sc.tls.cert

def unexpected : ApiError := storeProblem .unavailable

/-- A stored source as a response; `status` is what is reported under its name. -/
def managedSource (m : SourceRow) (status : Option Status) : Except ApiError SourceBody :=
  match m.config with
  | none => .error unexpected
  | some sc =>
    let sc := { sc with name := m.name }
    let body : SourceBody :=
      { id := some m.id, config := sc, enabled := m.enabled, origin := .database,
        adopted := m.adopted, createdAt := some m.createdAt, updatedAt := some m.updatedAt,
        version := m.version }
    .ok { body.redactKey with certificate := describeCertificate out sc, status }

/-- The state of the certificate that a source asks an authority for, found by the
domains it asked about. -/
def acmeStatus (sc : Source) : Option AcmeStatus :=
  match s.certificates with
  | none => none
  | some certificates =>
    if sc.tls.acme.enabled then
      let want := out.toLower (",".intercalate sc.tls.acme.domains)
      (certificates.find? fun st => out.toLower (",".intercalate st.domains) = want).getD
        { domains := sc.tls.acme.domains }
    else none

def sourceBody (m : SourceRow) : Except ApiError SourceBody :=
  (managedSource out m (s.statusOf m.name)).map fun body =>
    { body with acme := acmeStatus out s body.config }

/-! ## Reading -/

def Server.table : Except ApiError SourceTable :=
  Fallible.get ⟨404, "not_found", "source management requires a metadata database", ""⟩ s.store

/-- The stored sources, none without a database. -/
def Server.managed : Except ApiError (List SourceRow) :=
  match s.store with
  | none => .ok []
  | some t => (t.listSources out.db).mapError storeProblem

/-- A stored source stands in the place of a file source: it is adopted, and the names
agree in lower case. -/
def replaced (toLower : String → String) (managed : List SourceRow) (sc : Source) : Bool :=
  managed.any fun m => m.adopted && toLower m.name = toLower sc.name

def fileBody (sc : Source) : SourceBody :=
  { config := sc, enabled := sc.isEnabled, origin := .file, status := s.statusOf sc.name }

def handleListSources : Except ApiError (List SourceBody) := do
  let managed ← s.managed out
  let bodies ← managed.mapM (sourceBody out s)
  return (s.fileSources.filter fun sc => !replaced out.toLower managed sc).map (fileBody s) ++ bodies

def noSuchSource : ApiError := ⟨404, "not_found", "no such source", ""⟩

/-- The stored source that a path names. -/
def loadSource (path : String) : Except ApiError SourceRow := do
  let t ← s.table
  let id ← Fallible.get noSuchSource (out.parseID path)
  match t.sourceByID id with
  | .ok m => return m
  | .error .notFound => throw noSuchSource
  | .error e => throw (storeProblem e)

def handleGetSource (path : String) : Except ApiError SourceBody := do
  let m ← loadSource out s path
  sourceBody out s m

/-- The effective configuration as it is printed. -/
def handleSystemConfig : Text := out.marshal (s.config.tree out.goDuration)

/-! ## Changing -/

/-- What a request finds outside of the process: the files of certificates, the clock,
and the identifier a new row gets. -/
structure Surroundings where
  clientCAs : String → String → Option String
  load : Material → Option String
  now : Int
  newID : Nat

variable (around : Surroundings)

/-- What a body is checked against. -/
def Server.env : SourceEnv where
  checks := out.checks
  hasStore := s.store.isSome
  tenant := defaultTenant
  fileSources := s.fileSources
  managed := (s.managed out).map fun ms => ms.map (·.toManagedSource)
  clientCAs := around.clientCAs
  load := around.load

def alreadyExists (sc : Source) : StoreError → ApiError
  | .conflict => ⟨409, "conflict", "a source named " ++ out.checks.quote sc.name ++ " already exists", ""⟩
  | e => storeProblem e

/-- A row as it is first written. -/
def newRow (sc : Source) (enabled adopted : Bool) : SourceRow where
  id := around.newID
  name := sc.name
  config := some sc
  enabled
  adopted
  createdAt := around.now
  updatedAt := around.now
  version := 1

def handleCreateSource (body : Except ApiError SourceInput) : Except ApiError (Server × SourceBody) := do
  let (input, sc) ← decodeSource (s.env out around) body none
  let t ← s.table
  let m := newRow around sc (input.enabled.getD true) false
  let t ← (t.createSource out.db m).mapError (alreadyExists out sc)
  let answer ← sourceBody out s m
  return ({ s with store := some t }, answer)

structure SourceUpdate extends SourceInput where
  version : Int

def updateProblem (sc : Source) : UpdateError → ApiError
  | .versionConflict => ⟨409, "version_conflict", "the source was modified by someone else; reload it", ""⟩
  | .store e => alreadyExists out sc e

/-- The row that an update asks for. -/
def editedRow (m : SourceRow) (input : SourceUpdate) (sc : Source) : SourceRow :=
  { m with name := sc.name, config := some sc, version := input.version,
           enabled := input.enabled.getD m.enabled }

def handleUpdateSource (path : String) (body : Except ApiError SourceUpdate) :
    Except ApiError (Server × SourceBody) := do
  let m ← loadSource out s path
  let (_, sc) ← decodeSource (s.env out around) (body.map (·.toSourceInput)) (some m.toManagedSource)
  let input ← body
  check (input.version ≠ 0) (badRequest "validation_failed" "/version" "version is required for updates")
  let t ← s.table
  let edited := editedRow m input sc
  let t ← (t.updateSource out.db around.now edited).mapError (updateProblem out sc)
  let answer ← sourceBody out s (SourceTable.written around.now edited m)
  return ({ s with store := some t }, answer)

def handleDeleteSource (path : String) : Except ApiError Server := do
  let m ← loadSource out s path
  let t ← s.table
  let t ← (t.deleteSource m.id).mapError storeProblem
  return { s with store := some t }

def alreadyManaged (sc : Source) : StoreError → ApiError
  | .conflict => ⟨409, "conflict", out.checks.quote sc.name ++ " is already managed here", ""⟩
  | e => storeProblem e

/-- Copy a source of the file into the database. -/
def handleAdoptSource (body : Except ApiError String) : Except ApiError (Server × SourceBody) := do
  let t ← Fallible.get ⟨404, "not_configured", "source management requires a metadata database", ""⟩ s.store
  let name ← body
  let file ← Fallible.get
    ⟨404, "not_found", "no source named " ++ out.checks.quote name ++ " in the configuration file", ""⟩
    (s.fileSources.find? fun sc => out.checks.equalFold sc.name name)
  let managed ← s.managed out
  check (!managed.any fun m => out.checks.equalFold m.name file.name) (alreadyManaged out file .conflict)
  let sc ← (prepareSource out.checks file).mapError fun errs =>
    badRequest "validation_failed" "/name"
      ("the configuration-file source is invalid: " ++ "\n".intercalate errs)
  let m := newRow around sc sc.isEnabled true
  let t ← (t.createSource out.db m).mapError (alreadyManaged out sc)
  let answer ← sourceBody out s m
  return ({ s with store := some t }, answer)

/-! ## What successful requests do -/

section

variable {out s} {around : Surroundings} {s' : Server} {answer : SourceBody} {m : SourceRow}
  {t t' : SourceTable} {db : Database}

open Fallible (bind_eq_ok mapError_eq_ok get_eq_ok pure_eq_ok)

theorem SourceTable.createSource_eq_ok : t.createSource db m = .ok t' ↔
    t.down = false ∧ (∀ r ∈ t.rows, r.id ≠ m.id ∧ sameName db r m = false) ∧
      t' = { t with rows := t.rows ++ [m] } := by
  unfold createSource
  split_ifs with hdown hused
  · simp [hdown]
  · simp only [List.any_eq_true, Bool.or_eq_true, decide_eq_true_eq] at hused
    obtain ⟨r, hr, hused⟩ := hused
    simp only [false_iff, not_and]
    intro _ hfree
    have := hfree r hr
    simp_all
  · simp only [List.any_eq_true, Bool.or_eq_true, decide_eq_true_eq, not_exists, not_and, not_or,
      Bool.not_eq_true] at hused
    simp only [Except.ok.injEq, Bool.not_eq_true] at *
    exact ⟨fun h => ⟨hdown, hused, h.symm⟩, fun h => h.2.2.symm⟩

theorem SourceTable.updateSource_ok {now : Int} (h : t.updateSource db now m = .ok t') :
    t.down = false ∧ t' = t.replace now m := by
  unfold updateSource at h
  split at h
  · cases h
  · rename_i hdown
    split at h
    · cases h
    · split at h
      · cases h
      · split at h
        · cases h
        · cases h
          exact ⟨by simpa using hdown, rfl⟩

theorem SourceTable.deleteSource_ok {id : Nat} (h : t.deleteSource id = .ok t') :
    t.down = false ∧ t' = { t with rows := t.rows.filter (·.id ≠ id) } := by
  unfold deleteSource at h
  split_ifs at h with hdown
  cases h
  exact ⟨by simpa using hdown, rfl⟩

theorem loadSource_ok {path : String} (h : loadSource out s path = .ok m) :
    ∃ t, s.store = some t ∧ t.down = false ∧ m ∈ t.rows := by
  simp only [loadSource, bind_eq_ok, Server.table, get_eq_ok] at h
  obtain ⟨t, ht, id, -, h⟩ := h
  refine ⟨t, ht, ?_⟩
  cases hfound : t.sourceByID id with
  | error e =>
    rw [hfound] at h
    cases e with
    | notFound => cases h
    | conflict => cases h
    | unavailable => cases h
  | ok r =>
    rw [hfound] at h
    cases h
    unfold SourceTable.sourceByID at hfound
    split_ifs at hfound with hdown
    exact ⟨by simpa using hdown, List.mem_of_find?_eq_some (get_eq_ok.mp hfound)⟩

theorem sourceBody_name {body : SourceBody} (h : sourceBody out s m = .ok body) :
    body.config.name = m.name := by
  unfold sourceBody managedSource at h
  cases hconfig : m.config with
  | none =>
    rw [hconfig] at h
    cases h
  | some sc =>
    rw [hconfig] at h
    cases h
    rfl

theorem handleCreateSource_ok {body : Except ApiError SourceInput}
    (h : handleCreateSource out s around body = .ok (s', answer)) :
    ∃ input sc t t', decodeSource (s.env out around) body none = .ok (input, sc) ∧ s.store = some t ∧
      t.createSource out.db (newRow around sc (input.enabled.getD true) false) = .ok t' ∧
      s' = { s with store := some t' } := by
  simp only [handleCreateSource, bind_eq_ok, mapError_eq_ok, Server.table, get_eq_ok] at h
  obtain ⟨⟨input, sc⟩, hdecode, t, ht, t', hcreate, answer', hanswer, hresult⟩ := h
  cases hresult
  exact ⟨input, sc, t, t', hdecode, ht, hcreate, rfl⟩

theorem handleUpdateSource_ok {path : String} {body : Except ApiError SourceUpdate}
    (h : handleUpdateSource out s around path body = .ok (s', answer)) :
    ∃ m input sc t t', loadSource out s path = .ok m ∧ body = .ok input ∧
      decodeSource (s.env out around) (.ok input.toSourceInput) (some m.toManagedSource) =
        .ok (input.toSourceInput, sc) ∧
      s.store = some t ∧ t.updateSource out.db around.now (editedRow m input sc) = .ok t' ∧
      s' = { s with store := some t' } := by
  simp only [handleUpdateSource, bind_eq_ok, mapError_eq_ok, Server.table, get_eq_ok] at h
  obtain ⟨m, hload, ⟨input', sc⟩, hdecode, input, rfl, -, -, t, ht, t', hupdate, answer', hanswer, hresult⟩ := h
  cases hresult
  have hinput := (decodeSource_decoded hdecode).1
  cases hinput
  exact ⟨m, input, sc, t, t', hload, rfl, hdecode, ht, hupdate, rfl⟩

theorem handleDeleteSource_ok {path : String} (h : handleDeleteSource out s path = .ok s') :
    ∃ m t, loadSource out s path = .ok m ∧ s.store = some t ∧
      s' = { s with store := some { t with rows := t.rows.filter (·.id ≠ m.id) } } := by
  simp only [handleDeleteSource, bind_eq_ok, mapError_eq_ok, Server.table, get_eq_ok] at h
  obtain ⟨m, hload, t, ht, t', hdelete, hresult⟩ := h
  cases hresult
  obtain ⟨-, rfl⟩ := SourceTable.deleteSource_ok hdelete
  exact ⟨m, t, hload, ht, rfl⟩

theorem handleAdoptSource_ok {body : Except ApiError String}
    (h : handleAdoptSource out s around body = .ok (s', answer)) :
    ∃ name file managed sc t t', body = .ok name ∧
      s.fileSources.find? (fun sc => out.checks.equalFold sc.name name) = some file ∧
      s.managed out = .ok managed ∧ (∀ m ∈ managed, out.checks.equalFold m.name file.name = false) ∧
      prepareSource out.checks file = .ok sc ∧ s.store = some t ∧
      t.createSource out.db (newRow around sc sc.isEnabled true) = .ok t' ∧
      s' = { s with store := some t' } ∧ answer.config.name = sc.name := by
  simp only [handleAdoptSource, bind_eq_ok, mapError_eq_ok, get_eq_ok, check_eq_ok] at h
  obtain ⟨t, ht, name, hname, file, hfile, managed, hmanaged, -, hfree, sc, hprepared, t', hcreate,
    body', hbody, hresult⟩ := h
  cases hresult
  refine ⟨name, file, managed, sc, t, t', hname, hfile, hmanaged, fun m hm => ?_, hprepared, ht,
    hcreate, rfl, sourceBody_name hbody⟩
  simp only [Bool.not_eq_true', List.any_eq_false, Bool.not_eq_true] at hfree
  exact hfree m hm

end

/-! ## A server to run requests on -/

/-- Packages that object to nothing, and names that are compared as they are. -/
def plain : Outside Node where
  checks :=
    { template := fun _ => none, extract := fun _ => none, timezone := fun _ => none
      cidr := fun _ => true, splitHostPort := fun _ => .ok ("", "514"), addr := fun _ => true
      atoi := fun _ => some 514, quote := id, equalFold := fun a b => a = b }
  db := { lower := id, before := fun _ _ => true }
  toLower := id
  describe _ := none
  parseID _ := some 0
  goDuration _ := ""
  marshal := id

/-- A server with sources of its file and a table. -/
def serverWith (files : List Source) (rows : List SourceRow) : Server where
  config := { ingestion := { sources := files } }
  store := some { rows }

end Syslogc.Api
