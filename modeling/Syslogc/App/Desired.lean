-- SUMMARY: The merge of file and stored sources.
import Syslogc.Api.ManageSources
import Syslogc.Config.Load

/-!
# The desired sources

The application merges the sources of the configuration file with the stored ones and
hands the result to the supervisor. A file source stands aside for a stored source that
is marked as adopted and has its name; a stored source that conflicts with what is in
the list already is left out.

`System.copies` records which row was made by adopting which source of the file. The
code keeps no such record: it goes by the mark and the name, which a request can change.
-/

namespace Syslogc.App

open Config Supervisor Api Transition

/-! ## The merge -/

/-- What a row asks for: the definition it stores, under its name and as enabled as it is. -/
def settings (m : SourceRow) : Option Source :=
  m.config.map fun sc => Source.withEnabled { sc with name := m.name } m.enabled

def sourceConfig (k : Checks) (m : SourceRow) : Option Source :=
  (settings m).bind fun sc => (prepareSource k sc).toOption

/-- Add a stored source, unless it cannot be read or conflicts with one of the list. -/
def addManaged (k : Checks) (desired : List Desired) (m : SourceRow) : List Desired :=
  match sourceConfig k m with
  | none => desired
  | some sc =>
    if (conflict k sc (desired.map (·.source))).isSome then desired
    else desired ++ [⟨sc, .database⟩]

variable {Text : Type} (out : Outside Text)

def mergeSources (files : List Source) (managed : List SourceRow) : List Desired :=
  managed.foldl (addManaged out.checks)
    ((files.filter fun sc => !replaced out.toLower managed sc).map (⟨·, .file⟩))

def desiredSources (s : Server) : Except ApiError (List Desired) :=
  (s.managed out).map (mergeSources out s.fileSources)

/-! ## Requests -/

structure System where
  server : Server
  /-- The rows made by adopting a source of the file, with the name of that source. -/
  copies : List (Nat × String) := []

def rowsOf (server : Server) : List SourceRow := (server.store.map (·.rows)).getD []

def System.rows (s : System) : List SourceRow := rowsOf s.server

def System.files (s : System) : List Source := s.server.fileSources

inductive SourceRequest
  | create (around : Surroundings) (body : Except ApiError SourceInput)
  | update (around : Surroundings) (path : String) (body : Except ApiError SourceUpdate)
  | adopt (around : Surroundings) (body : Except ApiError String)
  | delete (path : String)

/-- A request that succeeds. -/
def step (s : System) : SourceRequest → Option System
  | .create around body =>
    (handleCreateSource out s.server around body).toOption.map fun r => { s with server := r.1 }
  | .update around path body =>
    (handleUpdateSource out s.server around path body).toOption.map fun r => { s with server := r.1 }
  | .adopt around body =>
    (handleAdoptSource out s.server around body).toOption.map fun r =>
      { server := r.1, copies := (around.newID, r.2.config.name) :: s.copies }
  | .delete path =>
    (handleDeleteSource out s.server path).toOption.map fun server =>
      { server, copies := s.copies.filter fun c => (rowsOf server).any (·.id = c.1) }

/-- A stored source is the adopted copy of a source of the file. -/
def System.Copied (s : System) (f : Source) : Prop := ∃ m ∈ s.rows, (m.id, f.name) ∈ s.copies

/-- The sources have different names and share no address while both are enabled. -/
def Apart (k : Checks) (a b : Source) : Prop :=
  k.equalFold a.name b.name = false ∧ (a.isEnabled = true → b.isEnabled = true → ¬ a.SharesAddress b)

/-- The list has every enabled stored source as it is stored, the file sources without an
adopted copy and no others, and no two entries that conflict. -/
structure Merged (s : System) (ds : List Desired) : Prop where
  stored : ∀ m ∈ s.rows, m.enabled = true → ∃ sc, m.config = some sc ∧
    ⟨{ sc with name := m.name, enabled := some true }, .database⟩ ∈ ds
  files : ∀ f ∈ s.files, ⟨f, .file⟩ ∈ ds ↔ ¬ s.Copied f
  apart : ds.Pairwise fun d d' => Apart out.checks d.source d'.source

/-- Names that no comparison of the code tells apart. -/
def SameName (a b : String) : Prop := out.checks.equalFold a b = true ∧ out.toLower a = out.toLower b

/-- What a request must respect: a body that leaves out `enabled` does not disable the
definition alone; an adopted source keeps its name; and what is adopted is the only
source of the file with its name in lower case, and contends with no other. -/
def Careful (s : System) : SourceRequest → Prop
  | .create _ body => ∀ input, body = .ok input →
      input.enabled = none → input.config.enabled ≠ some false
  | .update _ path body => ∀ m input, loadSource out s.server path = .ok m → body = .ok input →
      (input.enabled = none → m.enabled = true → input.config.enabled ≠ some false) ∧
      (m.adopted = true → SameName out (trimText input.config.name) m.name)
  | .adopt _ body => ∀ name f, body = .ok name →
      s.files.find? (fun sc => out.checks.equalFold sc.name name) = some f →
      ∀ g ∈ s.files, g.name ≠ f.name → out.toLower g.name ≠ out.toLower f.name ∧ ¬ f.Contends g
  | .delete _ => True

/-! ## The merge of sources that are compatible -/

/-- Neither source keeps the other from running. -/
def Compatible (k : Checks) (a b : Source) : Prop := a.conflictsWith k b = ""

section

variable {k : Checks} {a b : Source}

theorem Compatible.apart (h : Compatible k a b) : Apart k a b := by
  obtain ⟨hname, hcontends⟩ := Source.conflictsWith_eq_empty.mp h
  exact ⟨hname, fun ha hb hshared => hcontends ⟨ha, hb, .inr hshared⟩⟩

theorem Compatible.symm (hfold : ∀ a b, k.equalFold a b = k.equalFold b a) (h : Compatible k a b) :
    Compatible k b a := by
  obtain ⟨hname, hcontends⟩ := Source.conflictsWith_eq_empty.mp h
  exact Source.conflictsWith_eq_empty.mpr ⟨by rwa [hfold], fun hba => hcontends hba.symm⟩

theorem conflict_eq_none {sc : Source} {others : List Source} :
    conflict k sc others = none ↔ ∀ o ∈ others, Compatible k sc o := by
  simp [conflict, Compatible]

/-- Stored sources that are compatible with one another and with the list are all
appended. -/
theorem foldl_addManaged {ds : List Desired} {managed : List SourceRow} {entry : SourceRow → Source}
    (hread : ∀ m ∈ managed, sourceConfig k m = some (entry m))
    (hpairs : managed.Pairwise fun m m' => Compatible k (entry m') (entry m))
    (hlist : ∀ m ∈ managed, ∀ d ∈ ds, Compatible k (entry m) d.source) :
    managed.foldl (addManaged k) ds = ds ++ managed.map fun m => ⟨entry m, .database⟩ := by
  induction managed generalizing ds with
  | nil => simp
  | cons m managed ih =>
    obtain ⟨hhead, htail⟩ := List.pairwise_cons.mp hpairs
    have hfree : conflict k (entry m) (ds.map (·.source)) = none := by
      refine conflict_eq_none.mpr fun o ho => ?_
      obtain ⟨d, hd, rfl⟩ := List.mem_map.mp ho
      exact hlist m List.mem_cons_self d hd
    have hadd : addManaged k ds m = ds ++ [⟨entry m, .database⟩] := by
      rw [addManaged, hread m List.mem_cons_self]
      simp [hfree]
    rw [List.foldl_cons, hadd, ih (fun r hr => hread r (List.mem_cons_of_mem _ hr)) htail]
    · simp
    · intro r hr d hd
      obtain hd | hd := List.mem_append.mp hd
      · exact hlist r (List.mem_cons_of_mem _ hr) d hd
      · rw [List.mem_singleton.mp hd]
        exact hhead r hr

end

/-! ## The invariant -/

/-- What is used of the sources of the file: defaults are filled in, and names and
addresses differ. -/
structure Distinct (files : List Source) : Prop where
  defaults : ∀ f ∈ files, applySourceDefaults f = f
  apart : files.Pairwise (Apart out.checks)

/-- A row is the copy of the source of the file that a record names. -/
def CopyOf (files : List Source) (m : SourceRow) (c : Nat × String) : Prop :=
  m.adopted = true ∧ ∃ f ∈ files, c = (m.id, f.name) ∧ SameName out m.name f.name ∧
    ∀ g ∈ files, out.toLower g.name = out.toLower f.name → g = f

structure Inv (s : System) : Prop where
  store : ∃ t, s.server.store = some t ∧ t.down = false
  ids : (s.rows.map (·.id)).Nodup
  prepared : ∀ m ∈ s.rows, ∃ sc, settings m = some sc ∧ prepareSource out.checks sc = .ok sc
  rows : ∀ m ∈ s.rows, ∀ m' ∈ s.rows, m.id ≠ m'.id →
    ∀ a ∈ settings m, ∀ b ∈ settings m', Compatible out.checks a b
  files : ∀ m ∈ s.rows, ∀ f ∈ s.files, (m.id, f.name) ∉ s.copies →
    ∀ a ∈ settings m, Compatible out.checks a f
  copies : ∀ c ∈ s.copies, ∃ m ∈ s.rows, CopyOf out s.files m c
  adopted : ∀ m ∈ s.rows, m.adopted = true → ∃ f ∈ s.files, (m.id, f.name) ∈ s.copies

variable {out} {s s' : System}

theorem eq_of_id_eq {rows : List SourceRow} (hids : (rows.map (·.id)).Nodup) {m m' : SourceRow}
    (hm : m ∈ rows) (hm' : m' ∈ rows) (h : m.id = m'.id) : m = m' :=
  List.inj_on_of_nodup_map hids hm hm' h

theorem System.rows_eq {t : SourceTable} (h : s.server.store = some t) : s.rows = t.rows := by
  rw [System.rows, rowsOf, h]
  rfl

/-- A record belongs to the row with its identifier. -/
theorem Inv.copyOf (h : Inv out s) {m : SourceRow} {c : Nat × String} (hm : m ∈ s.rows) (hc : c ∈ s.copies)
    (hid : m.id = c.1) : CopyOf out s.files m c := by
  obtain ⟨m', hm', hcopy⟩ := h.copies c hc
  obtain ⟨-, f, -, rfl, -⟩ := id hcopy
  rwa [eq_of_id_eq h.ids hm hm' hid]

/-- Under the invariant, the code's test for an adopted copy is right. -/
theorem Inv.replaced_iff (h : Inv out s) {f : Source} (hf : f ∈ s.files) {rows : List SourceRow}
    (hrows : ∀ m, m ∈ rows ↔ m ∈ s.rows) : replaced out.toLower rows f = true ↔ s.Copied f := by
  simp only [replaced, List.any_eq_true, Bool.and_eq_true, decide_eq_true_eq, hrows]
  constructor
  · rintro ⟨m, hm, hadopted, hname⟩
    obtain ⟨g, hg, hcopy⟩ := h.adopted m hm hadopted
    obtain ⟨-, f', hf', heq, hsame, huniq⟩ := h.copyOf hm hcopy rfl
    obtain rfl := huniq f hf (by rw [← hname, hsame.2])
    exact ⟨m, hm, heq ▸ hcopy⟩
  · rintro ⟨m, hm, hcopy⟩
    obtain ⟨hadopted, f', -, heq, hsame, -⟩ := h.copyOf hm hcopy rfl
    exact ⟨m, hm, hadopted, by rw [hsame.2, (Prod.mk.inj heq).2]⟩

/-- The stored sources as they are listed. -/
theorem Inv.managed_eq (h : Inv out s) :
    ∃ rows, s.server.managed out = .ok rows ∧ rows.Perm s.rows := by
  obtain ⟨t, ht, hdown⟩ := h.store
  refine ⟨t.rows.mergeSort fun r r' => out.db.before r.name r'.name, ?_, ?_⟩
  · rw [Server.managed, ht]
    simp [SourceTable.listSources, hdown, Except.mapError]
  · rw [System.rows_eq ht]
    exact List.mergeSort_perm _ _

section

-- The comparison of names is that of their foldings.
variable {fold : String → List Char} (hfold : ∀ a b, out.checks.equalFold a b = decide (fold a = fold b))

include hfold

theorem equalFold_comm (a b : String) : out.checks.equalFold a b = out.checks.equalFold b a := by
  rw [hfold, hfold, decide_eq_decide]
  exact eq_comm

theorem Apart.symm {a b : Source} (h : Apart out.checks a b) : Apart out.checks b a := by
  refine ⟨by rw [equalFold_comm hfold]; exact h.1, fun hb ha hshared => ?_⟩
  have hcontends : b.Contends a := ⟨hb, ha, .inr hshared⟩
  obtain ⟨-, -, hhttp | hshared⟩ := hcontends.symm
  · exact absurd (hhttp.1.symm.trans hshared.2.1) (by decide)
  · exact h.2 ha hb hshared

/-- Under the invariant, the merge is complete. -/
theorem Inv.merged (h : Inv out s) (hfiles : Distinct out s.files) :
    ∃ ds, desiredSources out s.server = .ok ds ∧ Merged out s ds := by
  obtain ⟨rows, hmanaged, hperm⟩ := h.managed_eq
  have hmem (m : SourceRow) : m ∈ rows ↔ m ∈ s.rows := hperm.mem_iff
  have : Nonempty Source := ⟨{}⟩
  choose! entry hentry hprepared using h.prepared
  have hread (m : SourceRow) (hm : m ∈ rows) : sourceConfig out.checks m = some (entry m) := by
    have hm := (hmem m).mp hm
    rw [sourceConfig, hentry m hm, Option.bind_some, hprepared m hm]
    rfl
  have hids : rows.Pairwise fun m m' => m.id ≠ m'.id :=
    List.pairwise_map.mp ((hperm.map _).nodup_iff.mpr h.ids)
  have hpairs : rows.Pairwise fun m m' => Compatible out.checks (entry m') (entry m) := by
    refine hids.imp_of_mem fun {m m'} hm hm' hne => ?_
    have hm := (hmem m).mp hm
    have hm' := (hmem m').mp hm'
    exact h.rows m' hm' m hm hne.symm _ (hentry m' hm') _ (hentry m hm)
  have hkept {f : Source} : f ∈ s.files.filter (fun sc => !replaced out.toLower rows sc) ↔
      f ∈ s.files ∧ ¬ s.Copied f := by
    rw [List.mem_filter]
    refine and_congr_right fun hf => ?_
    rw [← h.replaced_iff hf hmem]
    simp
  have hlist (m : SourceRow) (hm : m ∈ rows) (f : Source)
      (hf : f ∈ s.files.filter fun sc => !replaced out.toLower rows sc) :
      Compatible out.checks (entry m) f := by
    have hm := (hmem m).mp hm
    obtain ⟨hf, hcopied⟩ := hkept.mp hf
    exact h.files m hm f hf (fun hcopy => hcopied ⟨m, hm, hcopy⟩) _ (hentry m hm)
  refine ⟨mergeSources out s.files rows, by rw [desiredSources, hmanaged]; rfl, ?_⟩
  have hbase : ∀ m ∈ rows, ∀ d ∈ (s.files.filter fun sc => !replaced out.toLower rows sc).map
      (Desired.mk · .file), Compatible out.checks (entry m) d.source := by
    intro m hm d hd
    obtain ⟨f, hf, rfl⟩ := List.mem_map.mp hd
    exact hlist m hm f hf
  rw [mergeSources, foldl_addManaged hread hpairs hbase]
  constructor
  case stored =>
    intro m hm henabled
    obtain ⟨sc, hconfig, hsc⟩ := Option.map_eq_some_iff.mp (hentry m hm)
    refine ⟨sc, hconfig, List.mem_append_right _ (List.mem_map.mpr ⟨m, (hmem m).mpr hm, ?_⟩)⟩
    rw [← hsc, henabled]
    rfl
  case files =>
    intro f hf
    have hnot : (⟨f, .file⟩ : Desired) ∉ rows.map fun m => ⟨entry m, .database⟩ := by simp
    rw [List.mem_append, or_iff_left hnot, List.mem_map]
    constructor
    · rintro ⟨g, hg, heq⟩
      cases heq
      exact (hkept.mp hg).2
    · intro hcopied
      exact ⟨f, hkept.mpr ⟨hf, hcopied⟩, rfl⟩
  case apart =>
    rw [List.pairwise_append]
    refine ⟨List.pairwise_map.mpr (hfiles.apart.filter _), List.pairwise_map.mpr ?_, ?_⟩
    · exact hpairs.imp fun hpair => (Compatible.apart hpair).symm hfold
    · intro d hd d' hd'
      obtain ⟨f, hf, rfl⟩ := List.mem_map.mp hd
      obtain ⟨m, hm, rfl⟩ := List.mem_map.mp hd'
      exact (hlist m hm f hf).apart.symm hfold

end

/-! ## What a request does -/

/-- The row is written: it is in the place of the one with its identifier, or is new. -/
def Puts (s s' : System) (m : SourceRow) : Prop :=
  s'.server.config = s.server.config ∧ (∃ t, s'.server.store = some t ∧ t.down = false) ∧
    (s'.rows.map (·.id)).Nodup ∧ ∀ r, r ∈ s'.rows ↔ r = m ∨ r ∈ s.rows ∧ r.id ≠ m.id

/-- Writing a row that is prepared and compatible with the rest keeps the invariant. -/
theorem Inv.put (hfold : ∀ a b, out.checks.equalFold a b = out.checks.equalFold b a) (h : Inv out s)
    {m : SourceRow} {sc : Source} (hput : Puts s s' m) (hset : settings m = some sc)
    (hprepared : prepareSource out.checks sc = .ok sc)
    (hrows : ∀ r ∈ s.rows, r.id ≠ m.id → ∀ b ∈ settings r, Compatible out.checks sc b)
    (hfiles : ∀ f ∈ s.files, (m.id, f.name) ∉ s'.copies → Compatible out.checks sc f)
    (hkept : ∀ c ∈ s.copies, c ∈ s'.copies)
    (hcopies : ∀ c ∈ s'.copies, c ∈ s.copies ∧ c.1 ≠ m.id ∨ CopyOf out s.files m c)
    (hadopted : m.adopted = true → ∃ f ∈ s.files, (m.id, f.name) ∈ s'.copies) : Inv out s' := by
  obtain ⟨hconfig, hstore, hids, hmem⟩ := hput
  have hsame : s'.files = s.files := by rw [System.files, Server.fileSources, hconfig]; rfl
  constructor
  case store => exact hstore
  case ids => exact hids
  case prepared =>
    intro r hr
    obtain rfl | ⟨hr, -⟩ := (hmem r).mp hr
    · exact ⟨sc, hset, hprepared⟩
    · exact h.prepared r hr
  case rows =>
    intro r hr r' hr' hne a ha b hb
    obtain rfl | ⟨hr, hrm⟩ := (hmem r).mp hr
    · obtain rfl | ⟨hr', hrm'⟩ := (hmem r').mp hr'
      · exact absurd rfl hne
      · rw [hset] at ha
        cases ha
        exact hrows r' hr' hrm' b hb
    · obtain rfl | ⟨hr', hrm'⟩ := (hmem r').mp hr'
      · rw [hset] at hb
        cases hb
        exact (hrows r hr hrm a ha).symm hfold
      · exact h.rows r hr r' hr' hne a ha b hb
  case files =>
    intro r hr f hf hnot a ha
    rw [hsame] at hf
    obtain rfl | ⟨hr, -⟩ := (hmem r).mp hr
    · rw [hset] at ha
      cases ha
      exact hfiles f hf hnot
    · exact h.files r hr f hf (fun hc => hnot (hkept _ hc)) a ha
  case copies =>
    intro c hc
    rw [hsame]
    obtain ⟨hc, hne⟩ | hcopy := hcopies c hc
    · obtain ⟨r, hr, hcopy⟩ := h.copies c hc
      obtain ⟨-, f, -, rfl, -⟩ := id hcopy
      exact ⟨r, (hmem r).mpr (.inr ⟨hr, hne⟩), hcopy⟩
    · exact ⟨m, (hmem m).mpr (.inl rfl), hcopy⟩
  case adopted =>
    intro r hr hadopt
    rw [hsame]
    obtain rfl | ⟨hr, -⟩ := (hmem r).mp hr
    · exact hadopted hadopt
    · obtain ⟨f, hf, hc⟩ := h.adopted r hr hadopt
      exact ⟨f, hf, hkept _ hc⟩

/-- A table whose rows are those of the system with one added. -/
theorem Puts.create {t t' : SourceTable} {m : SourceRow} (h : Inv out s) (ht : s.server.store = some t)
    (hcreate : t.createSource out.db m = .ok t') (copies : List (Nat × String)) :
    Puts s { server := { s.server with store := some t' }, copies } m := by
  obtain ⟨hdown, hfresh, rfl⟩ := SourceTable.createSource_eq_ok.mp hcreate
  have hrows := System.rows_eq ht
  have hids := h.ids
  rw [hrows] at hids
  refine ⟨rfl, ⟨_, rfl, hdown⟩, ?_, fun r => ?_⟩
  · show ((t.rows ++ [m]).map (·.id)).Nodup
    rw [List.map_append, List.nodup_append]
    refine ⟨hids, by simp, fun i hi j hj => ?_⟩
    obtain ⟨r, hr, rfl⟩ := List.mem_map.mp hi
    rw [List.map_singleton, List.mem_singleton] at hj
    rw [hj]
    exact (hfresh r hr).1
  · show r ∈ t.rows ++ [m] ↔ _
    rw [hrows, List.mem_append, List.mem_singleton]
    constructor
    · rintro (hr | rfl)
      · exact .inr ⟨hr, (hfresh r hr).1⟩
      · exact .inl rfl
    · rintro (rfl | ⟨hr, -⟩)
      · exact .inr rfl
      · exact .inl hr

/-- A table in which one row is rewritten. -/
theorem Puts.update {t : SourceTable} {m edited : SourceRow} {now : Int} (h : Inv out s)
    (ht : s.server.store = some t) (hdown : t.down = false) (hm : m ∈ t.rows) (hid : edited.id = m.id) :
    Puts s { s with server := { s.server with store := some (t.replace now edited) } }
      (SourceTable.written now edited m) := by
  have hrows := System.rows_eq ht
  have hids := h.ids
  rw [hrows] at hids
  have hkeeps (r : SourceRow) :
      (if r.id = edited.id then SourceTable.written now edited r else r).id = r.id := by
    split_ifs
    · rfl
    · rfl
  refine ⟨rfl, ⟨_, rfl, hdown⟩, ?_, fun r => ?_⟩
  · show ((t.rows.map _).map fun r : SourceRow => r.id).Nodup
    rw [List.map_map]
    simpa only [Function.comp_def, hkeeps] using hids
  · show r ∈ t.rows.map _ ↔ _
    rw [hrows, List.mem_map, hid]
    constructor
    · rintro ⟨old, hold, rfl⟩
      split_ifs with hsame
      · exact .inl (by rw [eq_of_id_eq hids hold hm hsame])
      · exact .inr ⟨hold, hsame⟩
    · rintro (rfl | ⟨hr, hne⟩)
      · exact ⟨m, hm, if_pos rfl⟩
      · exact ⟨r, hr, if_neg hne⟩

/-- No record has the identifier of a row that can be added. -/
theorem Inv.fresh {t t' : SourceTable} {m : SourceRow} (h : Inv out s) (ht : s.server.store = some t)
    (hcreate : t.createSource out.db m = .ok t') {c : Nat × String} (hc : c ∈ s.copies) : c.1 ≠ m.id := by
  obtain ⟨r, hr, -, f, -, rfl, -⟩ := h.copies c hc
  exact ((SourceTable.createSource_eq_ok.mp hcreate).2.1 r (System.rows_eq ht ▸ hr)).1

/-- Deleting a row keeps the invariant: the file source it stood for is compatible with
every row that is left. -/
theorem Inv.delete {t : SourceTable} {i : Nat} (h : Inv out s) (ht : s.server.store = some t) :
    Inv out { server := { s.server with store := some { t with rows := t.rows.filter (·.id ≠ i) } }
              copies := s.copies.filter fun c => (t.rows.filter (·.id ≠ i)).any (·.id = c.1) } := by
  have hrows := System.rows_eq ht
  have hdown : t.down = false := by
    obtain ⟨t', ht', hdown⟩ := h.store
    rw [ht] at ht'
    cases ht'
    exact hdown
  have hmem (r : SourceRow) : r ∈ t.rows.filter (·.id ≠ i) ↔ r ∈ s.rows ∧ r.id ≠ i := by
    rw [hrows, List.mem_filter]
    simp
  have hcopy (c : Nat × String) :
      c ∈ s.copies.filter (fun c => (t.rows.filter (·.id ≠ i)).any (·.id = c.1)) ↔
        c ∈ s.copies ∧ ∃ r ∈ s.rows, r.id ≠ i ∧ r.id = c.1 := by
    simp only [List.mem_filter, List.any_eq_true, decide_eq_true_eq, hrows, and_assoc]
  constructor
  case store => exact ⟨_, rfl, hdown⟩
  case ids =>
    have hids := h.ids
    rw [hrows] at hids
    exact hids.sublist (List.filter_sublist.map _)
  case prepared => exact fun m hm => h.prepared m ((hmem m).mp hm).1
  case rows => exact fun m hm m' hm' => h.rows m ((hmem m).mp hm).1 m' ((hmem m').mp hm').1
  case files =>
    intro m hm f hf hnot
    obtain ⟨hm, hne⟩ := (hmem m).mp hm
    exact h.files m hm f hf fun hc => hnot ((hcopy _).mpr ⟨hc, m, hm, hne, rfl⟩)
  case copies =>
    intro c hc
    obtain ⟨hc, r, hr, hne, hid⟩ := (hcopy c).mp hc
    exact ⟨r, (hmem r).mpr ⟨hr, hne⟩, h.copyOf hr hc hid⟩
  case adopted =>
    intro m hm hadopted
    obtain ⟨hm, hne⟩ := (hmem m).mp hm
    obtain ⟨f, hf, hc⟩ := h.adopted m hm hadopted
    exact ⟨f, hf, (hcopy _).mpr ⟨hc, m, hm, hne, rfl⟩⟩

/-! ## Requests keep the invariant -/

/-- A source that is enabled only if another is, and is otherwise the same, is compatible
with what that one is. -/
theorem Compatible.withEnabled {k : Checks} {a b : Source} {enabled : Bool}
    (hle : enabled = true → a.isEnabled = true) (h : Compatible k a b) :
    Compatible k (a.withEnabled enabled) b := by
  obtain ⟨hname, hcontends⟩ := Source.conflictsWith_eq_empty.mp h
  exact Source.conflictsWith_eq_empty.mpr ⟨hname, fun hab => hcontends (hab.of_enabled hle)⟩

section

variable {around : Surroundings} {self : Option ManagedSource} {input : SourceInput} {sc : Source}

/-- A decoded definition is compatible with the stored sources but the one it edits. -/
theorem Inv.decoded_rows (h : Inv out s) (hdecoded : Decoded (s.server.env out around) self input sc)
    {r : SourceRow} (hr : r ∈ s.rows) (hself : ∀ m, self = some m → m.id ≠ r.id) {b : Source}
    (hb : b ∈ settings r) : Compatible out.checks sc b := by
  obtain ⟨rows, hmanaged, hperm⟩ := h.managed_eq
  obtain ⟨managed, hlisted, hconflict⟩ := hdecoded.managed
  have hlist : managed = rows.map (·.toManagedSource) := by
    simp only [Server.env, hmanaged] at hlisted
    exact (Except.ok.inj hlisted).symm
  refine conflict_eq_none.mp hconflict b ?_
  rw [hlist, otherManaged, List.mem_filterMap]
  refine ⟨r.toManagedSource, List.mem_map.mpr ⟨r, hperm.mem_iff.mpr hr, rfl⟩, ?_⟩
  have hother : (self.any fun m => decide (m.id = r.id)) = false := by
    cases self with
    | none => rfl
    | some m => simpa using hself m rfl
  rw [hother]
  exact hb

/-- A decoded definition is compatible with the file sources but its own entry. -/
theorem Inv.decoded_files (hdecoded : Decoded (s.server.env out around) self input sc)
    {f : Source} (hf : f ∈ s.files)
    (hself : ∀ m, self = some m → m.adopted = true → out.checks.equalFold f.name m.name = false) :
    Compatible out.checks sc f := by
  refine conflict_eq_none.mp hdecoded.files f (List.mem_filter.mpr ⟨hf, ?_⟩)
  cases self with
  | none => rfl
  | some m =>
    have := hself m rfl
    cases hadopted : m.adopted with
    | false => simp [hadopted]
    | true => simp [Server.env, hadopted, this hadopted]

/-- The definition is at least as enabled as what is stored of it. -/
theorem decoded_enabled (hdecoded : Decoded (s.server.env out around) self input sc) {stored : Bool}
    (hcareful : input.enabled = none → stored = true → input.config.enabled ≠ some false)
    (h : input.enabled.getD stored = true) : sc.isEnabled = true := by
  rw [Source.isEnabled, hdecoded.enabled]
  cases henabled : input.enabled with
  | some enabled =>
    rw [henabled] at h
    simpa using h
  | none =>
    rw [henabled] at h
    have := hcareful henabled h
    cases hconfig : input.config.enabled with
    | none => rfl
    | some enabled =>
      cases enabled with
      | true => rfl
      | false => exact absurd hconfig this

end

section

variable {fold : String → List Char} (hfold : ∀ a b, out.checks.equalFold a b = decide (fold a = fold b))

include hfold

theorem SameName.trans {a b c : String} (hab : SameName out a b) (hbc : SameName out b c) :
    SameName out a c := by
  simp only [SameName, hfold, decide_eq_true_eq] at *
  exact ⟨hab.1.trans hbc.1, hab.2.trans hbc.2⟩

/-- The sources of the file are told apart by their names. -/
theorem Distinct.eq_of_equalFold (hfiles : Distinct out s.files) {f g : Source} (hf : f ∈ s.files)
    (hg : g ∈ s.files) (h : out.checks.equalFold f.name g.name = true) : f = g := by
  by_contra hne
  have : Std.Symm (Apart out.checks) := ⟨fun _ _ => Apart.symm hfold⟩
  have hapart := hfiles.apart.forall hf hg hne
  rw [hapart.1] at h
  cases h

theorem Distinct.eq_of_name (hfiles : Distinct out s.files) {f g : Source} (hf : f ∈ s.files)
    (hg : g ∈ s.files) (h : f.name = g.name) : f = g :=
  hfiles.eq_of_equalFold hfold hf hg (by rw [hfold, h, decide_eq_true rfl])

theorem Inv.create (h : Inv out s) {around : Surroundings} {body : Except ApiError SourceInput}
    (hcareful : Careful out s (.create around body)) {server : Server} {answer : SourceBody}
    (hok : handleCreateSource out s.server around body = .ok (server, answer)) :
    Inv out { s with server } := by
  obtain ⟨input, sc, t, t', hdecode, ht, hcreate, rfl⟩ := handleCreateSource_ok hok
  obtain ⟨hbody, hdecoded⟩ := decodeSource_decoded hdecode
  obtain ⟨given, hprepared⟩ := hdecoded.prepared
  have hle := decoded_enabled hdecoded fun hnone (_ : true = true) => hcareful input hbody hnone
  refine h.put (equalFold_comm hfold) (Puts.create h ht hcreate s.copies) rfl
    (prepareSource_enabled hprepared hle) ?_ ?_ (fun c hc => hc) (fun c hc => .inl ⟨hc, h.fresh ht hcreate hc⟩) ?_
  · intro r hr _ b hb
    exact (h.decoded_rows hdecoded hr (by rintro m ⟨⟩) hb).withEnabled hle
  · intro f hf _
    exact (Inv.decoded_files hdecoded hf (by rintro m ⟨⟩)).withEnabled hle
  · rintro ⟨⟩

theorem Inv.update (h : Inv out s) (hfiles : Distinct out s.files) {around : Surroundings} {path : String}
    {body : Except ApiError SourceUpdate} (hcareful : Careful out s (.update around path body))
    {server : Server} {answer : SourceBody}
    (hok : handleUpdateSource out s.server around path body = .ok (server, answer)) :
    Inv out { s with server } := by
  obtain ⟨m, input, sc, t, t', hload, hbody, hdecode, ht, hupdate, rfl⟩ := handleUpdateSource_ok hok
  obtain ⟨-, hdecoded⟩ := decodeSource_decoded hdecode
  obtain ⟨given, hprepared⟩ := hdecoded.prepared
  obtain ⟨hcareEnabled, hcareName⟩ := hcareful m input hload hbody
  have hle := decoded_enabled hdecoded hcareEnabled
  obtain ⟨hdown, rfl⟩ := SourceTable.updateSource_ok hupdate
  have hm : m ∈ t.rows := by
    obtain ⟨t', ht', -, hm⟩ := loadSource_ok hload
    rw [ht] at ht'
    cases ht'
    exact hm
  have hmrow : m ∈ s.rows := System.rows_eq ht ▸ hm
  -- The records of the row are those of a copy that keeps its name.
  have hown (c : Nat × String) (hc : c ∈ s.copies) (hid : c.1 = m.id) :
      CopyOf out s.files (SourceTable.written around.now (editedRow m input sc) m) c := by
    obtain ⟨hadopted, f, hf, hc, hsame, huniq⟩ := h.copyOf hmrow hc hid.symm
    refine ⟨hadopted, f, hf, hc, SameName.trans hfold ?_ hsame, huniq⟩
    show SameName out sc.name m.name
    rw [hdecoded.name]
    exact hcareName hadopted
  refine h.put (equalFold_comm hfold) (Puts.update h ht hdown hm rfl) rfl
    (prepareSource_enabled hprepared hle) ?_ ?_ (fun c hc => hc) ?_ (h.adopted m hmrow)
  · intro r hr hne b hb
    refine (h.decoded_rows hdecoded hr ?_ hb).withEnabled hle
    rintro m' ⟨⟩
    exact Ne.symm hne
  · intro f hf hnot
    refine (Inv.decoded_files hdecoded hf ?_).withEnabled hle
    rintro m' ⟨⟩ hadopted
    by_contra hsame
    obtain ⟨g, hg, hcopy⟩ := h.adopted m hmrow hadopted
    obtain ⟨-, g', hg', heq, hname, -⟩ := h.copyOf hmrow hcopy rfl
    have hfg : f = g' := by
      refine hfiles.eq_of_equalFold hfold hf hg' ?_
      have hfm : fold f.name = fold m.name := by simpa [hfold] using hsame
      have hmg : fold m.name = fold g'.name := by simpa [hfold] using hname.1
      rw [hfold, hfm, hmg, decide_eq_true rfl]
    rw [heq, ← hfg] at hcopy
    exact hnot hcopy
  · intro c hc
    by_cases hid : c.1 = m.id
    · exact .inr (hown c hc hid)
    · exact .inl ⟨hc, hid⟩

theorem Inv.adopt (h : Inv out s) (hfiles : Distinct out s.files) {around : Surroundings}
    {body : Except ApiError String} (hcareful : Careful out s (.adopt around body))
    {server : Server} {answer : SourceBody}
    (hok : handleAdoptSource out s.server around body = .ok (server, answer)) :
    Inv out { server, copies := (around.newID, answer.config.name) :: s.copies } := by
  obtain ⟨name, f, managed, sc, t, t', hbody, hfind, hmanaged, hfree, hprepared, ht, hcreate, rfl,
    hanswer⟩ := handleAdoptSource_ok hok
  have hf : f ∈ s.files := List.mem_of_find?_eq_some hfind
  obtain rfl : f = sc := (hfiles.defaults f hf).symm.trans (prepareSource_eq_ok.mp hprepared).1
  rw [hanswer]
  have hcare := hcareful name f hbody hfind
  have hle : f.isEnabled = true → f.isEnabled = true := id
  have huniq (g : Source) (hg : g ∈ s.files) (hlower : out.toLower g.name = out.toLower f.name) : g = f := by
    by_cases hname : g.name = f.name
    · exact hfiles.eq_of_name hfold hg hf hname
    · exact absurd hlower (hcare g hg hname).1
  have hcopy : CopyOf out s.files (newRow around f f.isEnabled true) (around.newID, f.name) :=
    ⟨rfl, f, hf, rfl, ⟨by rw [hfold]; exact decide_eq_true rfl, rfl⟩, huniq⟩
  have hnames (m : SourceRow) (hm : m ∈ s.rows) : out.checks.equalFold m.name f.name = false := by
    obtain ⟨rows, hrows, hperm⟩ := h.managed_eq
    rw [hmanaged] at hrows
    cases hrows
    exact hfree m (hperm.mem_iff.mpr hm)
  refine h.put (equalFold_comm hfold) (Puts.create h ht hcreate _) rfl
    (prepareSource_enabled hprepared hle) ?_ ?_ (fun c hc => List.mem_cons_of_mem _ hc) ?_
    (fun _ => ⟨f, hf, List.mem_cons_self⟩)
  · intro r hr _ b hb
    refine Compatible.withEnabled hle (Compatible.symm (equalFold_comm hfold) ?_)
    refine h.files r hr f hf (fun hc => ?_) b hb
    -- A copy of this source would have its name.
    obtain ⟨m, hm, -, g, hg, heq, hsame, -⟩ := h.copies _ hc
    obtain ⟨-, hgname⟩ := Prod.mk.inj heq
    have := hnames m hm
    rw [hgname, hsame.1] at this
    cases this
  · intro g hg hnot
    have hne : g.name ≠ f.name := fun heq => hnot (by rw [heq]; exact List.mem_cons_self)
    refine Compatible.withEnabled hle (Source.conflictsWith_eq_empty.mpr ⟨?_, (hcare g hg hne).2⟩)
    by_contra hsame
    rw [Bool.not_eq_false] at hsame
    exact hne (by rw [hfiles.eq_of_equalFold hfold hf hg hsame])
  · intro c hc
    obtain rfl | hc := List.mem_cons.mp hc
    · exact .inr hcopy
    · exact .inl ⟨hc, h.fresh ht hcreate hc⟩

/-- A careful request keeps the invariant and the file. -/
theorem Inv.step (hfiles : Distinct out s.files) (h : Inv out s) {r : SourceRequest}
    (hcareful : Careful out s r) (hstep : App.step out s r = some s') :
    Inv out s' ∧ s'.files = s.files := by
  cases r with
  | create around body =>
    obtain ⟨⟨server, answer⟩, hok, rfl⟩ := Option.map_eq_some_iff.mp hstep
    have hok := Fallible.toOption_eq_some.mp hok
    refine ⟨h.create hfold hcareful hok, ?_⟩
    obtain ⟨-, -, -, -, -, -, -, rfl⟩ := handleCreateSource_ok hok
    rfl
  | update around path body =>
    obtain ⟨⟨server, answer⟩, hok, rfl⟩ := Option.map_eq_some_iff.mp hstep
    have hok := Fallible.toOption_eq_some.mp hok
    refine ⟨h.update hfold hfiles hcareful hok, ?_⟩
    obtain ⟨-, -, -, -, -, -, -, -, -, -, rfl⟩ := handleUpdateSource_ok hok
    rfl
  | adopt around body =>
    obtain ⟨⟨server, answer⟩, hok, rfl⟩ := Option.map_eq_some_iff.mp hstep
    have hok := Fallible.toOption_eq_some.mp hok
    refine ⟨h.adopt hfold hfiles hcareful hok, ?_⟩
    obtain ⟨-, -, -, -, -, -, -, -, -, -, -, -, -, rfl, -⟩ := handleAdoptSource_ok hok
    rfl
  | delete path =>
    obtain ⟨server, hok, rfl⟩ := Option.map_eq_some_iff.mp hstep
    obtain ⟨m, t, -, ht, rfl⟩ := handleDeleteSource_ok (Fallible.toOption_eq_some.mp hok)
    exact ⟨h.delete ht, rfl⟩

end

/-! ## Runs -/

/-- Packages that compare names by folding their characters, as `strings.EqualFold` does. -/
def folding (out : Outside Text) (fold : Char → Char) : Outside Text :=
  { out with checks := { out.checks with
    equalFold := fun a b => a.toList.map fold = b.toList.map fold } }

theorem Inv.init {server : Server} (hstore : server.store = some {}) : Inv out { server } := by
  have hrows : System.rows { server } = [] := by rw [System.rows, rowsOf, hstore]; rfl
  exact {
    store := ⟨{}, hstore, rfl⟩
    ids := by rw [hrows]; exact List.nodup_nil
    prepared := by simp [hrows]
    rows := by simp [hrows]
    files := by simp [hrows]
    copies := by simp
    adopted := by simp [hrows] }

/-- Let a server start with a file that loads, whose sources have different names, and an
empty table. After careful requests the list of desired sources is complete. -/
theorem desiredSources_run (out : Outside Text) (fold : Char → Char) {elsewhere : List String}
    {raw : IngestionConfig} {server : Server}
    (hload : load (folding out fold).checks elsewhere raw = .ok server.config.ingestion)
    (hnames : server.fileSources.Pairwise fun a b =>
      (folding out fold).checks.equalFold a.name b.name = false)
    (hstore : server.store = some {}) {reqs : List SourceRequest} {s : System}
    (hguard : Guarded (step (folding out fold)) (Careful (folding out fold)) { server } reqs)
    (hrun : run (step (folding out fold)) { server } reqs = some s) :
    ∃ ds, desiredSources (folding out fold) s.server = .ok ds ∧ Merged (folding out fold) s ds := by
  have hfold : ∀ a b, (folding out fold).checks.equalFold a b =
      decide (a.toList.map fold = b.toList.map fold) := fun _ _ => rfl
  have hdistinct : Distinct (folding out fold) server.fileSources :=
    ⟨fun f hf => load_defaults hload hf, hnames.and (load_addresses hload)⟩
  have hinv : Inv (folding out fold) s ∧ s.files = server.fileSources := by
    refine Guarded.invariant (I := fun s => Inv (folding out fold) s ∧ s.files = server.fileSources)
      ?_ ⟨Inv.init hstore, rfl⟩ hguard hrun
    rintro s r s' ⟨h, hsame⟩ hcareful hstep
    obtain ⟨h', hsame'⟩ := Inv.step hfold (by rw [hsame]; exact hdistinct) h hcareful hstep
    exact ⟨h', hsame'.trans hsame⟩
  exact hinv.1.merged hfold (by rw [hinv.2]; exact hdistinct)

/-- A UDP source of the file. -/
def edge : Source := { name := "edge", protocol := protocolUDP, address := ":514" }

def quiet : Surroundings where
  clientCAs _ _ := none
  load _ := none
  now := 0
  newID := 0

/-- The server that starts with that source. -/
def edgeServer : Server where
  config := { ingestion := { sources := [applySourceDefaults edge] } }
  store := some {}

/-- The requests adopt the source and edit the copy. -/
def adoptThenEdit (edit : Source) : List SourceRequest :=
  [.adopt quiet (.ok "edge"), .update quiet "" (.ok { config := edit, version := 1 })]

def adoptedRow (sc : Source) (version : Int) : SourceRow where
  id := 0
  name := sc.name
  config := some (applySourceDefaults sc)
  enabled := true
  adopted := true
  createdAt := 0
  updatedAt := 0
  version

def edgeSystem (m : SourceRow) : System where
  server := { edgeServer with store := some { rows := [m] } }
  copies := [(0, "edge")]

theorem managed_edgeSystem (m : SourceRow) :
    (edgeSystem m).server.managed (folding plain id) = .ok [m] := by
  simp only [Server.managed, edgeSystem, SourceTable.listSources, List.mergeSort_singleton]
  rfl

theorem step_adopt_edge : step (folding plain id) { server := edgeServer } (.adopt quiet (.ok "edge")) =
    some (edgeSystem (adoptedRow edge 1)) := by
  have hmanaged : edgeServer.managed (folding plain id) = .ok [] := by
    simp only [Server.managed, edgeServer, SourceTable.listSources, List.mergeSort_nil]
    rfl
  simp only [step, handleAdoptSource, hmanaged]
  rfl

/-- An edit that moves the copy to another address. -/
def edgeMoved : Source := { edge with address := ":5514" }

/-- An edit that gives the copy another name. -/
def edgeRenamed : Source := { edge with name := "core" }

theorem step_edit_edge {edit : Source} (h : edit = edgeMoved ∨ edit = edgeRenamed) :
    step (folding plain id) (edgeSystem (adoptedRow edge 1))
      (.update quiet "" (.ok { config := edit, version := 1 })) =
    some (edgeSystem (adoptedRow edit 2)) := by
  simp only [step, handleUpdateSource, decodeSource, Server.env, managed_edgeSystem]
  obtain rfl | rfl := h
  · rfl
  · rfl

theorem run_adoptThenEdit {edit : Source} (h : edit = edgeMoved ∨ edit = edgeRenamed) :
    run (step (folding plain id)) { server := edgeServer } (adoptThenEdit edit) =
      some (edgeSystem (adoptedRow edit 2)) := by
  rw [adoptThenEdit, run_cons, step_adopt_edge, Option.bind_some, run_cons, step_edit_edge h]
  rfl

/-- A copy that moves is in the list instead of the source of the file. -/
theorem desiredSources_run_edgeMoved : ∃ s, run (step (folding plain id)) { server := edgeServer }
      (adoptThenEdit edgeMoved) = some s ∧
    ∃ ds, desiredSources (folding plain id) s.server = .ok ds ∧ Merged (folding plain id) s ds := by
  have hguard : Guarded (step (folding plain id)) (Careful (folding plain id)) { server := edgeServer }
      (adoptThenEdit edgeMoved) := by
    intro s₁ h₁
    rw [step_adopt_edge] at h₁
    cases h₁
    refine ⟨?_, fun s₂ h₂ => ⟨?_, trivial⟩⟩
    · intro name f _ hf g hg hne
      have hf := List.mem_singleton.mp (List.mem_of_find?_eq_some hf)
      have hg := List.mem_singleton.mp hg
      exact absurd (by rw [hf, hg]) hne
    · rintro m input hm ⟨⟩
      have hload : loadSource (folding plain id) (edgeSystem (adoptedRow edge 1)).server "" =
        .ok (adoptedRow edge 1) := rfl
      rw [hload] at hm
      cases hm
      exact ⟨by rintro - - ⟨⟩, fun _ => ⟨rfl, rfl⟩⟩
  have hload : load (folding plain id).checks [] { sources := [edge] } = .ok edgeServer.config.ingestion := rfl
  refine ⟨_, run_adoptThenEdit (.inl rfl), ?_⟩
  exact desiredSources_run plain id hload
    (List.pairwise_singleton _ _) rfl hguard (run_adoptThenEdit (.inl rfl))

/-- A copy that is renamed gives its place up to the source of the file, and is left out
of the list because it conflicts with it. -/
theorem edgeRenamed_left_out : ∃ s ds, run (step (folding plain id)) { server := edgeServer }
      (adoptThenEdit edgeRenamed) = some s ∧
    desiredSources (folding plain id) s.server = .ok ds ∧ ¬ Merged (folding plain id) s ds := by
  refine ⟨_, [⟨applySourceDefaults edge, .file⟩], run_adoptThenEdit (.inr rfl), ?_, fun h => ?_⟩
  · rw [desiredSources, managed_edgeSystem]
    rfl
  · obtain ⟨sc, -, hsc⟩ := h.stored (adoptedRow edgeRenamed 2) List.mem_cons_self rfl
    simp at hsc

end Syslogc.App
