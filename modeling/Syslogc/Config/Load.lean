-- SUMMARY: Loading the ingestion section of the configuration.
import Syslogc.Config.Validate
import Syslogc.Lib.Fallible

/-!
# Loaded sources

`Load` fills in the defaults of every source and refuses a file that does not validate.
A prepared source is not changed by preparing it again. Two sources conflict when they
cannot run alongside each other.
-/

namespace Syslogc.Config

variable {k : Checks} {s s' : Source}

/-! ## Conflicts -/

/-- The sources listen on one address. -/
def Source.SharesAddress (a b : Source) : Prop :=
  a.type = sourceTypeSyslog ∧ b.type = sourceTypeSyslog ∧ transport a = transport b ∧
    a.address = b.address

/-- Both are enabled and want the same place: the address, or that of the one
`http_json` source. -/
def Source.Contends (a b : Source) : Prop :=
  a.isEnabled = true ∧ b.isEnabled = true ∧
    (a.type = sourceTypeHTTPJSON ∧ b.type = sourceTypeHTTPJSON ∨ a.SharesAddress b)

theorem Source.Contends.symm {a b : Source} (h : a.Contends b) : b.Contends a := by
  obtain ⟨ha, hb, hhttp | ⟨hta, htb, htransport, haddress⟩⟩ := h
  · exact ⟨hb, ha, .inl ⟨hhttp.2, hhttp.1⟩⟩
  · exact ⟨hb, ha, .inr ⟨htb, hta, htransport.symm, haddress.symm⟩⟩

theorem Source.conflictsWith_eq_empty {a b : Source} :
    a.conflictsWith k b = "" ↔ k.equalFold a.name b.name = false ∧ ¬ a.Contends b := by
  unfold Source.conflictsWith Source.Contends Source.SharesAddress
  by_cases hname : k.equalFold a.name b.name = true
  · simp [hname]
  · have hhttp : sourceTypeHTTPJSON ≠ sourceTypeSyslog := by decide
    simp only [Bool.not_eq_true] at hname
    simp only [hname, Bool.false_eq_true, ↓reduceIte, true_and]
    by_cases henabled : a.isEnabled = true ∧ b.isEnabled = true
    · simp only [henabled.1, henabled.2, Bool.not_true, Bool.or_self, Bool.false_eq_true, ↓reduceIte,
        true_and]
      split_ifs with htype hother haddress
      · simp_all
      · simp only [true_iff]
        rintro (h | h)
        · simp_all
        · simp_all
      · simp_all
      · simp only [true_iff]
        rintro (h | h)
        · simp_all
        · simp_all
    · have : (!a.isEnabled || !b.isEnabled) = true := by
        simp only [Bool.or_eq_true, Bool.not_eq_true', ← Bool.not_eq_true]
        tauto
      simp only [this, ↓reduceIte, true_iff]
      tauto

/-- A source, enabled or not. -/
def Source.withEnabled (s : Source) (enabled : Bool) : Source := { s with enabled := some enabled }

/-- A source that is enabled only if another is, and is otherwise the same, contends
with no more sources. -/
theorem Source.Contends.of_enabled {a b : Source} {enabled : Bool} (hle : enabled = true → a.isEnabled = true)
    (h : (a.withEnabled enabled).Contends b) : a.Contends b :=
  ⟨hle h.1, h.2⟩

/-! ## Preparing -/

@[simp] theorem orElse_orElse (value default default' : String) (h : default ≠ "") :
    orElse (orElse value default) default' = orElse value default := by
  unfold orElse
  split_ifs <;> simp_all

@[simp] theorem orElseNum_orElseNum (value default default' : Int) (h : default ≠ 0) :
    orElseNum (orElseNum value default) default' = orElseNum value default := by
  unfold orElseNum
  split_ifs <;> simp_all

theorem applySourceDefaults_idem (s : Source) :
    applySourceDefaults (applySourceDefaults s) = applySourceDefaults s := by
  have hraw (type : String) : (if type = sourceTypeHTTPJSON then "never" else "on_error") ≠ "" := by
    split_ifs <;> decide
  have hbytes (protocol : String) : (if protocol = protocolUDP then defaultUDPMaxMessageBytes
      else defaultStreamMaxMessageBytes) ≠ 0 := by
    split_ifs <;> decide
  unfold applySourceDefaults
  simp only [orElse_orElse _ sourceTypeSyslog _ (by decide), orElse_orElse _ "auto" _ (by decide),
    orElse_orElse _ "UTC" _ (by decide), orElse_orElse _ _ _ (hraw _),
    orElse_orElse _ "none" _ (by decide), orElse_orElse _ "full" _ (by decide),
    orElse_orElse _ defaultTenant _ (by decide), orElseNum_orElseNum _ _ _ (hbytes _),
    orElseNum_orElseNum _ defaultMaxConnections _ (by decide),
    orElseNum_orElseNum _ defaultTCPIdleTimeout _ (by decide),
    orElseNum_orElseNum _ defaultUDPReadBuffer _ (by decide), orElse_orElse _ "1.2" _ (by decide)]

theorem prepareSource_eq_ok :
    prepareSource k s = .ok s' ↔ applySourceDefaults s = s' ∧ validateSource k "source" s' = [] := by
  unfold prepareSource
  constructor
  · intro h
    simp only at h
    split at h
    · cases h
      exact ⟨rfl, ‹_›⟩
    · cases h
  · rintro ⟨rfl, hvalid⟩
    simp only [hvalid]

/-- Only the checks of TLS look at whether a source is enabled, and they ask less of a
source that is not. -/
theorem sourceErrors_enabled {enabled : Bool} (hle : enabled = true → s.isEnabled = true)
    (h : sourceErrors k s = []) : sourceErrors k (s.withEnabled enabled) = [] := by
  obtain ⟨hrest, htls⟩ := List.append_eq_nil_iff.mp h
  refine List.append_eq_nil_iff.mpr ⟨hrest, ?_⟩
  by_cases hchecked : s.protocol = protocolTLS ∧ enabled = true
  · rw [validateTLS, if_pos ⟨hchecked.1, hle hchecked.2⟩] at htls
    exact (if_pos hchecked).trans htls
  · exact if_neg hchecked

/-- A prepared source is prepared with any setting of `enabled` that asks no more. -/
theorem prepareSource_enabled {enabled : Bool} (h : prepareSource k s = .ok s')
    (hle : enabled = true → s'.isEnabled = true) :
    prepareSource k (s'.withEnabled enabled) = .ok (s'.withEnabled enabled) := by
  obtain ⟨rfl, hvalid⟩ := prepareSource_eq_ok.mp h
  refine prepareSource_eq_ok.mpr ⟨?_, ?_⟩
  · exact congrArg (·.withEnabled enabled) (applySourceDefaults_idem s)
  · unfold validateSource at hvalid ⊢
    rw [List.map_eq_nil_iff] at hvalid ⊢
    exact sourceErrors_enabled hle hvalid

/-! ## Loading -/

/-- The part of `Load` that concerns the ingestion section; `elsewhere` is what it finds
in the other sections. -/
def load (k : Checks) (elsewhere : List String) (c : IngestionConfig) :
    Except (List String) IngestionConfig :=
  let c := { c with sources := c.sources.map applySourceDefaults }
  match validate k elsewhere c with
  | [] => .ok c
  | errs => .error errs

variable {elsewhere : List String} {raw c : IngestionConfig}

theorem load_defaults (h : load k elsewhere raw = .ok c) (hs : s ∈ c.sources) :
    applySourceDefaults s = s := by
  simp only [load] at h
  split at h
  · cases h
    obtain ⟨r, -, rfl⟩ := List.mem_map.mp hs
    exact applySourceDefaults_idem r
  · cases h

theorem load_valid (h : load k elsewhere raw = .ok c) : validateSources k c.queue 0 {} c.sources = [] := by
  simp only [load] at h
  split at h
  · cases h
    exact (List.append_eq_nil_iff.mp ‹_›).2
  · cases h

/-- No two sources of an accepted file listen on one address: the first of them is in
`seen` when the second is checked. -/
theorem validateSources_binds {queue : QueueConfig} {i : Nat} {seen : Seen} {sources : List Source}
    (h : validateSources k queue i seen sources = []) :
    sources.Pairwise (fun a b => a.bindsAddress = true → b.bindsAddress = true → bindKey a ≠ bindKey b) ∧
      ∀ b ∈ sources, b.bindsAddress = true → seen.binds.lookup (bindKey b) = none := by
  induction sources generalizing i seen with
  | nil => simp
  | cons s sources ih =>
    obtain ⟨hhead, htail⟩ := List.append_eq_nil_iff.mp h
    obtain ⟨hpairs, hseen⟩ := ih htail
    simp only [checkSource, List.append_eq_nil_iff] at hhead
    have hfree : s.bindsAddress = true → seen.binds.lookup (bindKey s) = none := by
      intro hbinds
      cases hlookup : seen.binds.lookup (bindKey s) with
      | none => rfl
      | some other =>
        have hnot := hhead.1.2
        rw [hlookup] at hnot
        simp [hbinds] at hnot
    refine ⟨List.pairwise_cons.mpr ⟨fun b hb ha hbb => ?_, hpairs⟩, fun b hb hbb => ?_⟩
    · intro heq
      have hnone := hseen b hb hbb
      simp [Seen.add, ha, ← heq] at hnone
    · obtain rfl | hb := List.mem_cons.mp hb
      · exact hfree hbb
      · have hnone := hseen b hb hbb
        simp only [Seen.add] at hnone
        split at hnone
        · rw [List.lookup_cons] at hnone
          split at hnone
          · cases hnone
          · exact hnone
        · exact hnone

/-- Sources of an accepted file share no address while both are enabled. -/
theorem load_addresses (h : load k elsewhere raw = .ok c) :
    c.sources.Pairwise fun a b => a.isEnabled = true → b.isEnabled = true → ¬ a.SharesAddress b := by
  refine (validateSources_binds (load_valid h)).1.imp fun {a b} hbinds ha hb hshared => ?_
  obtain ⟨hta, htb, htransport, haddress⟩ := hshared
  refine hbinds (by simp [Source.bindsAddress, hta, ha]) (by simp [Source.bindsAddress, htb, hb]) ?_
  rw [bindKey, bindKey, htransport, haddress]

end Syslogc.Config
