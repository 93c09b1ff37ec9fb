-- SUMMARY: What the read answers show of private keys.
import Syslogc.Api.ManageSources

/-!
# Private keys in read answers

A source may carry the text of its private key. Two servers are the same but for their
keys when hiding every key leaves the same server. A stored source is answered for
without its key, so reading one tells such servers apart in nothing. The sources of the
configuration file are answered for as they are, both in the list of sources and in the
printed configuration.
-/

namespace Syslogc.Api

open Config Supervisor

/-! ## Hiding the keys -/

/-- A source with the text of its key hidden, if it has one. -/
def hideKey (sc : Source) : Source :=
  { sc with tls := { sc.tls with key := if blank sc.tls.key then sc.tls.key else "hidden" } }

def SourceRow.hideKey (m : SourceRow) : SourceRow := { m with config := m.config.map Api.hideKey }

def SourceTable.hideKeys (t : SourceTable) : SourceTable := { t with rows := t.rows.map (·.hideKey) }

def Server.hideKeys (s : Server) : Server :=
  { s with
    config := { s.config with ingestion := { s.config.ingestion with
      sources := s.config.ingestion.sources.map hideKey } }
    store := s.store.map (·.hideKeys) }

/-- The servers differ only in the texts of private keys, and where one has a key the
other has one. -/
def Server.SameButKeys (s s' : Server) : Prop := s.hideKeys = s'.hideKeys

/-- A source with another key. -/
def withKey (sc : Source) (key : String) : Source := { sc with tls := { sc.tls with key } }

theorem withKey_hideKey (sc : Source) : withKey (hideKey sc) sc.tls.key = sc := rfl

/-- Sources that agree in their keys and in everything else are the same. -/
theorem sources_eq {l l' : List Source} (hrest : l.map hideKey = l'.map hideKey)
    (hkeys : l.map (·.tls.key) = l'.map (·.tls.key)) : l = l' := by
  have restore (l : List Source) : List.zipWith withKey (l.map hideKey) (l.map (·.tls.key)) = l := by
    simp [List.zipWith_map, withKey_hideKey]
  rw [← restore l, hrest, hkeys, restore l']

/-! ## Answers from the server with its keys hidden -/

variable {Text : Type} (out : Outside Text) (s : Server)

@[simp] theorem blank_hideKey (sc : Source) : blank (hideKey sc).tls.key = blank sc.tls.key := by
  unfold hideKey
  split
  · rfl
  · simp only [Bool.not_eq_true] at *
    simp only [*]
    decide

theorem managedSource_hideKey (m : SourceRow) (status : Option Status) :
    managedSource out m.hideKey status = managedSource out m status := by
  unfold managedSource SourceRow.hideKey
  cases m.config with
  | none => rfl
  | some sc =>
    simp only [Option.map_some, SourceBody.redactKey]
    have hstored : blank (hideKey sc).tls.key = blank sc.tls.key := blank_hideKey sc
    simp only [hideKey, describeCertificate] at hstored ⊢
    simp only [hstored]
    rfl

theorem sourceBody_hideKey (m : SourceRow) :
    sourceBody out s.hideKeys m.hideKey = sourceBody out s m := by
  unfold sourceBody
  rw [managedSource_hideKey]
  rfl

theorem managed_hideKeys :
    s.hideKeys.managed out = (s.managed out).map fun ms => ms.map (·.hideKey) := by
  unfold Server.managed Server.hideKeys
  cases s.store with
  | none => rfl
  | some t =>
    have hsort : (t.rows.map (·.hideKey)).mergeSort (fun r r' => out.db.before r.name r'.name) =
        (t.rows.mergeSort fun r r' => out.db.before r.name r'.name).map (·.hideKey) :=
      (List.map_mergeSort (f := SourceRow.hideKey) (fun _ _ _ _ => rfl)).symm
    simp only [Option.map_some, SourceTable.listSources, SourceTable.hideKeys, hsort]
    cases t.down with
    | true => rfl
    | false => rfl

theorem replaced_hideKey (managed : List SourceRow) (sc : Source) :
    replaced out.toLower (managed.map (·.hideKey)) sc = replaced out.toLower managed sc := by
  simp only [replaced, List.any_map]
  rfl

/-- The list of sources shows the file sources as they are, and the rest as if there
were no keys. -/
theorem handleListSources_eq : handleListSources out s = (do
    let managed ← s.hideKeys.managed out
    let bodies ← managed.mapM (sourceBody out s.hideKeys)
    return (s.fileSources.filter fun sc => !replaced out.toLower managed sc).map (fileBody s.hideKeys) ++
      bodies) := by
  have hbody : sourceBody out s.hideKeys ∘ SourceRow.hideKey = sourceBody out s :=
    funext (sourceBody_hideKey out s)
  have hfile : fileBody s.hideKeys = fileBody s := rfl
  rw [managed_hideKeys, hfile]
  unfold handleListSources
  cases s.managed out with
  | error e => rfl
  | ok managed =>
    simp only [Except.map, Except.bind, bind, List.mapM_map, replaced_hideKey, Function.comp_def] at *
    simp only [hbody]

theorem sourceByID_hideKeys (t : SourceTable) (id : Nat) :
    t.hideKeys.sourceByID id = (t.sourceByID id).map (·.hideKey) := by
  simp only [SourceTable.sourceByID, SourceTable.hideKeys, List.find?_map]
  have hid : ((fun r : SourceRow => decide (r.id = id)) ∘ SourceRow.hideKey) = fun r => decide (r.id = id) := rfl
  rw [hid]
  split
  · rfl
  · cases t.rows.find? (·.id = id) with
    | none => rfl
    | some m => rfl

theorem loadSource_hideKeys (path : String) :
    loadSource out s.hideKeys path = (loadSource out s path).map (·.hideKey) := by
  unfold loadSource Server.table Server.hideKeys
  cases s.store with
  | none => rfl
  | some t =>
    cases out.parseID path with
    | none => rfl
    | some id =>
      simp only [Option.map_some, Fallible.get, bind, Except.bind, sourceByID_hideKeys]
      cases t.sourceByID id with
      | ok m => rfl
      | error e =>
        cases e with
        | notFound => rfl
        | conflict => rfl
        | unavailable => rfl

/-- Reading one source answers as if there were no keys. -/
theorem handleGetSource_hideKeys (path : String) :
    handleGetSource out s.hideKeys path = handleGetSource out s path := by
  unfold handleGetSource
  rw [loadSource_hideKeys]
  cases loadSource out s path with
  | error e => rfl
  | ok m => exact sourceBody_hideKey out s m

/-! ## Two servers -/

variable {out s} {s' : Server}

theorem Server.SameButKeys.files (h : s.SameButKeys s') :
    s.fileSources.map hideKey = s'.fileSources.map hideKey :=
  congrArg (fun s : Server => s.fileSources) h

/-- With the same file sources, the whole configuration is the same. -/
theorem Server.SameButKeys.config_eq (h : s.SameButKeys s') (hfiles : s.fileSources = s'.fileSources) :
    s.config = s'.config := by
  have hrest : { s.hideKeys.config with ingestion := { s.hideKeys.config.ingestion with
        sources := s.fileSources } } =
      { s'.hideKeys.config with ingestion := { s'.hideKeys.config.ingestion with
        sources := s'.fileSources } } := by
    rw [show s.hideKeys = s'.hideKeys from h, hfiles]
  exact hrest

/-- Between servers that differ only in private keys, every read answer agrees exactly
when the sources of the configuration file have the same keys. The YAML package is
assumed to print different trees differently. -/
theorem read_answers_agree_iff (hyaml : Function.Injective out.marshal) (h : s.SameButKeys s') :
    (handleListSources out s = handleListSources out s' ∧
      (∀ path, handleGetSource out s path = handleGetSource out s' path) ∧
      handleSystemConfig out s = handleSystemConfig out s') ↔
    s.fileSources.map (·.tls.key) = s'.fileSources.map (·.tls.key) := by
  constructor
  · rintro ⟨-, -, hconfig⟩
    exact Effective.keys_eq_of_tree_eq out.goDuration (hyaml hconfig)
  · intro hkeys
    have hfiles : s.fileSources = s'.fileSources := sources_eq h.files hkeys
    have hhidden : s.hideKeys = s'.hideKeys := h
    refine ⟨?_, fun path => ?_, ?_⟩
    · rw [handleListSources_eq, handleListSources_eq out s', hhidden, hfiles]
    · rw [← handleGetSource_hideKeys, ← handleGetSource_hideKeys out s', hhidden]
    · rw [handleSystemConfig, handleSystemConfig, h.config_eq hfiles]

/-- A TLS source with its certificate and key as text. -/
def pasted (key : String) : Source :=
  { name := "tls", type := sourceTypeSyslog, protocol := protocolTLS, address := ":6514",
    tls := { cert := "certificate", key } }

def pastedRow (key : String) : SourceRow :=
  { id := 0, name := "tls", config := some (pasted key), enabled := true, adopted := false,
    createdAt := 0, updatedAt := 0, version := 1 }

/-- The key of a source that is stored shows in no answer. -/
theorem read_answers_agree_iff_stored :
    (serverWith [] [pastedRow "A"]).SameButKeys (serverWith [] [pastedRow "B"]) ∧
      handleListSources plain (serverWith [] [pastedRow "A"]) =
        handleListSources plain (serverWith [] [pastedRow "B"]) := by
  have hsame : (serverWith [] [pastedRow "A"]).SameButKeys (serverWith [] [pastedRow "B"]) := rfl
  have hyaml : Function.Injective plain.marshal := Function.injective_id
  exact ⟨hsame, ((read_answers_agree_iff hyaml hsame).mpr rfl).1⟩

/-- The key of a source of the file is listed. -/
theorem pasted_file_key_listed :
    (serverWith [pasted "A"] []).SameButKeys (serverWith [pasted "B"] []) ∧
      handleListSources plain (serverWith [pasted "A"] []) ≠
        handleListSources plain (serverWith [pasted "B"] []) := by
  refine ⟨rfl, fun h => ?_⟩
  have hlisted (key : String) : handleListSources plain (serverWith [pasted key] []) =
      .ok [fileBody (serverWith [pasted key] []) (pasted key)] := by
    simp only [handleListSources, Server.managed, serverWith, SourceTable.listSources,
      List.mergeSort_nil]
    rfl
  rw [hlisted, hlisted] at h
  simp [fileBody, pasted] at h

end Syslogc.Api
