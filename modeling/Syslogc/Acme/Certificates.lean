-- SUMMARY: Certificates from an authority, and the settings they are kept in.
import Syslogc.Config.Source
import Syslogc.Lib.Bytes
import Syslogc.Lib.Lists
import Syslogc.Lib.Transition

/-!
# Certificates from an authority

A source can have its certificates from Let's Encrypt, from the production authority or
from the staging one, whose certificates nothing trusts. There is a manager for each list
of domains and each authority. All managers keep their certificates in the settings of the
metadata store, where they outlive a restart.

The manager of `autocert` looks for a certificate in its memory, then in the cache it was
given, and asks the authority last. The key of an entry of the cache is the domain and the
type of the key. It does not name the authority.
-/

namespace Syslogc.Acme

open Syslogc.Config (ACMEConfig blank)

/-- The directories a certificate can be asked of. -/
inductive Directory
  | production
  | staging
deriving DecidableEq, Repr

/-- A certificate, with the authority that issued it. -/
structure Certificate where
  issuer : Directory
  domain : String
  isRSA : Bool
  notBefore : Int
  notAfter : Int
deriving DecidableEq, Repr

/-- What the code calls of other packages. -/
structure Packages where
  /-- `strings.ToLower`. -/
  toLower : String → String
  /-- `strings.EqualFold`. -/
  equalFold : String → String → Bool
  /-- The verb `%q`. -/
  quote : String → String
  /-- `base64.StdEncoding`, which reads back what it has written. -/
  encodeToString : Bytes → Bytes
  decodeString : Bytes → Option Bytes
  encode_nil : encodeToString [] = []
  decode_encode : ∀ data, decodeString (encodeToString data) = some data
  /-- `autocert.HostWhitelist` allows the name. -/
  hostWhitelist : List String → String → Bool
  /-- A certificate with its private key as `autocert` writes it to the cache. -/
  marshal : Certificate → Bytes
  unmarshal : Bytes → Option Certificate
  /-- A certificate that is so far from its end is not renewed yet. -/
  keepsFor : Int

/-! ## The settings as a cache -/

/-- The settings that hold certificate material, with the data of each. -/
abbrev Settings := List (String × Bytes)

inductive CacheError
  | miss
  | other
deriving DecidableEq, Repr

def settingPrefix : String := "acme:"

/-- `SettingsStore.Get`; the settings may not be readable. -/
def settingsGet (settings : Settings) (readable : Bool) (key : String) : Except CacheError Bytes :=
  if readable then
    match settings.lookup (settingPrefix ++ key) with
    | none => .error .miss
    | some data => if data = [] then .error .miss else .ok data
  else .error .other

variable (pk : Packages)

/-- `cache.Get`. -/
def cacheGet (settings : Settings) (readable : Bool) (key : String) : Except CacheError Bytes :=
  match settingsGet settings readable key with
  | .error e => .error e
  | .ok data =>
    match pk.decodeString data with
    | none => .error .other
    | some data => .ok data

/-- `cache.Put`; the settings may not be writable, which nobody is told. -/
def cachePut (settings : Settings) (writable : Bool) (key : String) (data : Bytes) : Settings :=
  if writable then Lists.assign (settingPrefix ++ key) (pk.encodeToString data) settings else settings

/-! ## Managers -/

/-- What a manager asks for. -/
structure Config where
  domains : List String
  /-- The authority; none is the empty text. -/
  directory : Option Directory
  agreedToTerms : Bool

/-- The domain and the type of the key. -/
structure CertKey where
  domain : String
  isRSA : Bool
deriving DecidableEq, Repr

/-- `certKey.String`: the name of an entry of the cache. -/
def CertKey.text (ck : CertKey) : String := if ck.isRSA then ck.domain ++ "+rsa" else ck.domain

structure Manager where
  domains : List String
  directory : Directory
  /-- The certificates in memory. -/
  state : List (CertKey × Certificate) := []

def validDomain (d : String) : Except String Unit :=
  if blank d then .error "is empty"
  else if d.toList.any (· ∈ [' ', '\t', '/', ':']) then
    .error "must be a bare hostname, without a scheme or port"
  else if d.toList.head? = some '*' then
    .error "wildcards need the DNS-01 challenge, which this does not do"
  else if pk.equalFold d "localhost" || pk.equalFold d "localhost.localdomain" then
    .error "is not a public name, so no authority can certify it"
  else if '.' ∉ d.toList then .error "must be a fully qualified name the authority can look up"
  else .ok ()

def checkDomains : List String → Except String Unit
  | [] => .ok ()
  | d :: ds =>
    match validDomain pk d with
    | .error e => .error ("acme: " ++ pk.quote d ++ ": " ++ e)
    | .ok () => checkDomains ds

/-- `New`: a manager that has asked for nothing yet. -/
def newManager (cfg : Config) : Except String Manager :=
  if cfg.domains = [] then .error "acme: at least one domain is required"
  else
    match checkDomains pk cfg.domains with
    | .error e => .error e
    | .ok () =>
      if !cfg.agreedToTerms then
        .error ("acme: the certificate authority's subscriber agreement has not been accepted; " ++
          "set accept_terms once you have read https://letsencrypt.org/repository/")
      else .ok { domains := cfg.domains, directory := cfg.directory.getD .staging }

/-- What a connection, or a renewal, meets: the key it is for, the clock, the settings, and
the validity of the certificate that the authority issues if it is asked. -/
structure Attempt where
  key : CertKey
  now : Int
  readable : Bool := true
  writable : Bool := true
  issued : Option (Int × Int) := none

/-- The certificate of the cache, unless it is for another key or not valid now. -/
def cachedCertificate (settings : Settings) (a : Attempt) : Except CacheError Certificate :=
  match cacheGet pk settings a.readable a.key.text with
  | .error e => .error e
  | .ok data =>
    match pk.unmarshal data with
    | none => .error .miss
    | some c =>
      if c.domain = a.key.domain ∧ c.isRSA = a.key.isRSA ∧ c.notBefore ≤ a.now ∧ a.now ≤ c.notAfter then .ok c
      else .error .miss

/-- What a manager answers, and what it leaves. -/
structure Outcome where
  cert : Option Certificate
  manager : Manager
  settings : Settings

def Manager.remember (m : Manager) (key : CertKey) (c : Certificate) : Manager :=
  { m with state := Lists.assign key c m.state }

/-- The certificate that the authority of the manager issues. -/
def Manager.certificate (m : Manager) (key : CertKey) (validity : Int × Int) : Certificate :=
  ⟨m.directory, key.domain, key.isRSA, validity.1, validity.2⟩

/-- Ask the authority of the manager. -/
def Manager.create (m : Manager) (settings : Settings) (a : Attempt) : Outcome :=
  match a.issued with
  | none => ⟨none, m, settings⟩
  | some validity =>
    let c := m.certificate a.key validity
    ⟨some c, m.remember a.key c, cachePut pk settings a.writable a.key.text (pk.marshal c)⟩

/-- `autocert.Manager.GetCertificate`: from memory, from the cache, or from the authority. -/
def Manager.getCertificate (m : Manager) (settings : Settings) (a : Attempt) : Outcome :=
  match m.state.lookup a.key with
  | some c => ⟨some c, m, settings⟩
  | none =>
    match cachedCertificate pk settings a with
    | .ok c => ⟨some c, m.remember a.key c, settings⟩
    | .error .other => ⟨none, m, settings⟩
    | .error .miss =>
      if pk.hostWhitelist m.domains a.key.domain then m.create pk settings a else ⟨none, m, settings⟩

/-- The certificate that a renewal finds in the cache and takes over, because it is far
from its end. -/
def renewedElsewhere (settings : Settings) (a : Attempt) : Option Certificate :=
  match cachedCertificate pk settings a with
  | .ok c => if pk.keepsFor < c.notAfter - a.now then some c else none
  | .error _ => none

/-- The renewal of a certificate in memory. -/
def Manager.renew (m : Manager) (settings : Settings) (a : Attempt) : Outcome :=
  match renewedElsewhere pk settings a with
  | some c => ⟨some c, m.remember a.key c, settings⟩
  | none => m.create pk settings a

/-! ## The deployment -/

/-- The authority that a source asks for. -/
def authority (sc : ACMEConfig) : Directory := if sc.staging then .staging else .production

/-- What the manager of a source asks for. -/
def managerConfig (sc : ACMEConfig) : Config := ⟨sc.domains, some (authority sc), sc.acceptTerms⟩

/-- The key of the manager of a source. -/
def managerKey (sc : ACMEConfig) : String :=
  pk.toLower (",".intercalate sc.domains) ++ "|" ++ toString sc.staging

structure State where
  settings : Settings
  managers : List (String × Manager) := []
  /-- The certificates that were handed to connections, with the source they are of. -/
  served : List (ACMEConfig × Certificate) := []

inductive Label
  /-- A source asks for its manager; the challenge server may not start. -/
  | manager (sc : ACMEConfig) (listens : Bool)
  | getCertificate (sc : ACMEConfig) (a : Attempt)
  | renew (sc : ACMEConfig) (a : Attempt)
  | restart

/-- `manager`: the manager of a source, which is made the first time. -/
def State.manager (s : State) (sc : ACMEConfig) (listens : Bool) : State :=
  match s.managers.lookup (managerKey pk sc) with
  | some _ => s
  | none =>
    match newManager pk (managerConfig sc) with
    | .error _ => s
    | .ok m => if listens then { s with managers := Lists.assign (managerKey pk sc) m s.managers } else s

def step (s : State) : Label → Option State
  | .manager sc listens => some (s.manager pk sc listens)
  | .getCertificate sc a =>
    (s.managers.lookup (managerKey pk sc)).map fun m =>
      let o := m.getCertificate pk s.settings a
      { settings := o.settings
        managers := Lists.assign (managerKey pk sc) o.manager s.managers
        served := s.served ++ o.cert.toList.map (sc, ·) }
  | .renew sc a =>
    (s.managers.lookup (managerKey pk sc)).bind fun m =>
      (m.state.lookup a.key).map fun _ =>
        let o := m.renew pk s.settings a
        { s with settings := o.settings, managers := Lists.assign (managerKey pk sc) o.manager s.managers }
  | .restart => some { s with managers := [] }

/-- No manager serves a certificate of the authority that is not its own: none was handed
to a connection of its source, and none is in its memory for the next. -/
structure State.OwnCertificates (s : State) : Prop where
  served : ∀ sc c, (sc, c) ∈ s.served → c.issuer = authority sc
  state : ∀ key m ck c, s.managers.lookup key = some m → m.state.lookup ck = some c → c.issuer = m.directory

/-- The source and the attempt of a label that asks a manager for a certificate. -/
def Label.use : Label → Option (ACMEConfig × Attempt)
  | .getCertificate sc a | .renew sc a => some (sc, a)
  | .manager _ _ | .restart => none

/-- The label may be issued the certificate. -/
def Label.Issues (l : Label) (c : Certificate) : Prop :=
  ∃ sc a, l.use = some (sc, a) ∧ c.issuer = authority sc ∧ c.domain = a.key.domain ∧ c.isRSA = a.key.isRSA ∧
    a.issued = some (c.notBefore, c.notAfter)

/-- What `autocert` writes of the certificates that the label may be issued is read back. -/
def Label.ReadBack (l : Label) : Prop :=
  ∀ c, l.Issues c → pk.marshal c ≠ [] ∧ pk.unmarshal (pk.marshal c) = some c

/-- If the two labels are for one key under different authorities, then the certificate
that the first one may be issued is not valid at the second. -/
def Outlived (l l' : Label) : Prop :=
  ∀ sc a sc' a', l.use = some (sc, a) → l'.use = some (sc', a') → authority sc ≠ authority sc' → a.key = a'.key →
    ∀ notBefore notAfter, a.issued = some (notBefore, notAfter) → ¬(notBefore ≤ a'.now ∧ a'.now ≤ notAfter)

variable {pk}

/-! ## One manager -/

/-- What a manager can do: answer from memory or not at all, take a certificate over from
the settings, or have one issued. -/
inductive Acts (pk : Packages) (m : Manager) (settings : Settings) (a : Attempt) : Outcome → Prop
  | stays {cert : Option Certificate} (h : ∀ c, cert = some c → m.state.lookup a.key = some c) :
      Acts pk m settings a ⟨cert, m, settings⟩
  | takes {c : Certificate} (h : cachedCertificate pk settings a = .ok c) :
      Acts pk m settings a ⟨some c, m.remember a.key c, settings⟩
  | issued {validity : Int × Int} (h : a.issued = some validity) :
      Acts pk m settings a ⟨some (m.certificate a.key validity), m.remember a.key (m.certificate a.key validity),
        cachePut pk settings a.writable a.key.text (pk.marshal (m.certificate a.key validity))⟩

variable {m : Manager} {settings : Settings} {a : Attempt} {c : Certificate}

theorem Manager.create_acts : Acts pk m settings a (m.create pk settings a) := by
  unfold Manager.create
  split
  · exact .stays (by simp)
  · exact .issued ‹_›

theorem Manager.getCertificate_acts : Acts pk m settings a (m.getCertificate pk settings a) := by
  unfold Manager.getCertificate
  split
  · next c hc => exact .stays fun _ heq => heq ▸ hc
  · split
    · exact .takes ‹_›
    · exact .stays (by simp)
    · split
      · exact create_acts
      · exact .stays (by simp)

theorem Manager.renew_acts : Acts pk m settings a (m.renew pk settings a) := by
  unfold Manager.renew
  split
  · next c hc =>
    refine .takes ?_
    unfold renewedElsewhere at hc
    grind
  · exact create_acts

theorem cacheGet_eq_ok {readable : Bool} {key : String} {data : Bytes}
    (h : cacheGet pk settings readable key = .ok data) :
    ∃ text, settings.lookup (settingPrefix ++ key) = some text ∧ pk.decodeString text = some data := by
  unfold cacheGet settingsGet at h
  grind

/-- A certificate that is taken over from the settings is of the key, and valid. -/
theorem cachedCertificate_eq_ok (h : cachedCertificate pk settings a = .ok c) :
    (∃ text data, settings.lookup (settingPrefix ++ a.key.text) = some text ∧ pk.decodeString text = some data ∧
      pk.unmarshal data = some c) ∧
    c.domain = a.key.domain ∧ c.isRSA = a.key.isRSA ∧ c.notBefore ≤ a.now ∧ a.now ≤ c.notAfter := by
  unfold cachedCertificate at h
  split at h
  · cases h
  · next data hdata =>
    obtain ⟨text, htext, hdecode⟩ := cacheGet_eq_ok hdata
    split at h
    · cases h
    · next c' hc' =>
      split at h
      · next hvalid =>
        cases h
        exact ⟨⟨text, data, htext, hdecode, hc'⟩, hvalid⟩
      · cases h

/-! ## The managers of a deployment -/

/-- The key of a manager says which authority its sources ask for. -/
theorem authority_of_managerKey {sc sc' : ACMEConfig} (h : managerKey pk sc = managerKey pk sc') :
    authority sc = authority sc' := by
  suffices hstaging : sc.staging = sc'.staging by rw [authority, authority, hstaging]
  have hlist := congrArg (fun s => s.toList.reverse) h
  unfold managerKey at hlist
  simp only [String.toList_append, List.reverse_append] at hlist
  cases hs : sc.staging <;> cases hs' : sc'.staging
  · rfl
  · rw [hs, hs'] at hlist
    exact absurd (congrArg (fun l => l[1]?) hlist) (by simp [toString])
  · rw [hs, hs'] at hlist
    exact absurd (congrArg (fun l => l[1]?) hlist) (by simp [toString])
  · rfl

theorem newManager_eq {cfg : Config} (h : newManager pk cfg = .ok m) :
    m = ⟨cfg.domains, cfg.directory.getD .staging, []⟩ := by
  unfold newManager at h
  split at h
  · cases h
  · split at h
    · cases h
    · split at h
      · cases h
      · cases h
        rfl

/-- What holds after the labels `past`. -/
structure State.Sound (pk : Packages) (past : List Label) (s : State) : Prop extends s.OwnCertificates where
  /-- The managers are those of the authority that their sources ask for. -/
  keyed : ∀ sc m, s.managers.lookup (managerKey pk sc) = some m → m.directory = authority sc
  /-- What the settings hold was issued. -/
  origin : ∀ key text data c, s.settings.lookup key = some text → pk.decodeString text = some data →
    pk.unmarshal data = some c → ∃ l ∈ past, l.Issues c

variable {past : List Label} {s s' : State} {l : Label} {sc : ACMEConfig}

/-- A certificate of the settings comes from the own authority, unless another one's is
still valid. -/
theorem State.Sound.cached (h : s.Sound pk past) (hpast : ∀ b ∈ past, Outlived b l) (huse : l.use = some (sc, a))
    (hc : cachedCertificate pk s.settings a = .ok c) : c.issuer = authority sc := by
  obtain ⟨⟨text, data, htext, hdata, hmarshal⟩, hdomain, hisRSA, hvalid⟩ := cachedCertificate_eq_ok hc
  obtain ⟨b, hb, sc', a', huse', hissuer, hdomain', hisRSA', hissued⟩ := h.origin _ text data c htext hdata hmarshal
  have hkey : a'.key = a.key := by
    rw [CertKey.mk.injEq]
    exact ⟨hdomain'.symm.trans hdomain, hisRSA'.symm.trans hisRSA⟩
  by_contra hother
  exact hpast b hb sc' a' sc a huse' huse (hissuer ▸ hother) hkey _ _ hissued hvalid

theorem State.Sound.cons (h : s.Sound pk past) : s.Sound pk (l :: past) where
  toOwnCertificates := h.toOwnCertificates
  keyed := h.keyed
  origin key text data c htext hdata hc := by
    obtain ⟨b, hb, hissues⟩ := h.origin key text data c htext hdata hc
    exact ⟨b, List.mem_cons_of_mem _ hb, hissues⟩

/-- A manager is put in place that holds certificates of its own authority. -/
theorem State.Sound.assign (h : s.Sound pk past) (hdirectory : m.directory = authority sc)
    (hstate : ∀ ck c, m.state.lookup ck = some c → c.issuer = m.directory) :
    State.Sound pk past { s with managers := Lists.assign (managerKey pk sc) m s.managers } where
  served := h.served
  state key m' ck c hm' hc := by
    rw [Lists.lookup_assign] at hm'
    split at hm'
    · cases hm'
      exact hstate ck c hc
    · exact h.state key m' ck c hm' hc
  keyed sc' m' hm' := by
    rw [Lists.lookup_assign] at hm'
    split at hm'
    · next hkey =>
      cases hm'
      rw [hdirectory, authority_of_managerKey hkey]
    · exact h.keyed sc' m' hm'
  origin := h.origin

theorem lookup_remember {ck : CertKey} {c' : Certificate} (h : (m.remember a.key c).state.lookup ck = some c') :
    c' = c ∨ m.state.lookup ck = some c' := by
  simp only [Manager.remember, Lists.lookup_assign] at h
  grind

/-- What a manager answers and remembers comes from its own authority. -/
theorem State.Sound.acts (h : s.Sound pk past) (hread : l.ReadBack pk) (hpast : ∀ b ∈ past, Outlived b l)
    (huse : l.use = some (sc, a)) (hm : s.managers.lookup (managerKey pk sc) = some m) {o : Outcome}
    (ho : Acts pk m s.settings a o) :
    (∀ c, o.cert = some c → c.issuer = authority sc) ∧ State.Sound pk (l :: past)
      ⟨o.settings, Lists.assign (managerKey pk sc) o.manager s.managers, s.served⟩ := by
  have hdirectory := h.keyed sc m hm
  have hmemory := fun ck c => h.state _ m ck c hm
  have hremember (c : Certificate) (hc : c.issuer = m.directory) (ck : CertKey) (c' : Certificate)
      (hc' : (m.remember a.key c).state.lookup ck = some c') : c'.issuer = m.directory := by
    obtain rfl | hc' := lookup_remember hc'
    · exact hc
    · exact hmemory ck c' hc'
  cases ho with
  | stays hcert =>
    exact ⟨fun c hc => (hmemory _ c (hcert c hc)).trans hdirectory, (h.assign hdirectory hmemory).cons⟩
  | takes hc =>
    have hissuer := (h.cached hpast huse hc).trans hdirectory.symm
    exact ⟨fun c' hc' => by cases hc'; exact hissuer.trans hdirectory,
      (h.assign (m := m.remember a.key _) hdirectory (hremember _ hissuer)).cons⟩
  | @issued validity hissued =>
    have hsound := (h.assign (m := m.remember a.key (m.certificate a.key validity)) hdirectory (hremember _ rfl)).cons
      (l := l)
    have hissues : l.Issues (m.certificate a.key validity) := ⟨sc, a, huse, hdirectory, rfl, rfl, hissued⟩
    refine ⟨fun c' hc' => by cases hc'; exact hdirectory, ⟨hsound.served, hsound.state⟩, hsound.keyed, ?_⟩
    intro key text data c htext hdata hc
    simp only [cachePut] at htext
    split at htext
    · rw [Lists.lookup_assign] at htext
      split at htext
      · cases htext
        cases (pk.decode_encode _).symm.trans hdata
        cases (hread _ hissues).2.symm.trans hc
        exact ⟨l, List.mem_cons_self, hissues⟩
      · exact hsound.origin key text data c htext hdata hc
    · exact hsound.origin key text data c htext hdata hc

theorem State.Sound.step (hread : l.ReadBack pk) (h : s.Sound pk past)
    (hpast : ∀ b ∈ past, Outlived b l) (hstep : step pk s l = some s') : s'.Sound pk (l :: past) := by
  cases l with
  | manager sc listens =>
    cases hstep
    unfold State.manager
    split
    · exact h.cons
    · split
      · exact h.cons
      · next hnew =>
        obtain rfl := newManager_eq hnew
        split
        · exact (h.assign rfl (by simp)).cons
        · exact h.cons
  | getCertificate sc a =>
    obtain ⟨m, hm, rfl⟩ := Option.map_eq_some_iff.mp hstep
    obtain ⟨hcert, hsound⟩ := h.acts hread hpast rfl hm Manager.getCertificate_acts
    refine ⟨⟨fun sc' c hc => ?_, hsound.state⟩, hsound.keyed, hsound.origin⟩
    obtain hc | hc := List.mem_append.mp hc
    · exact h.served sc' c hc
    · obtain ⟨c', hc', heq⟩ := List.mem_map.mp hc
      cases heq
      exact hcert c (Option.mem_toList.mp hc')
  | renew sc a =>
    obtain ⟨m, hm, hstep⟩ := Option.bind_eq_some_iff.mp hstep
    obtain ⟨old, -, rfl⟩ := Option.map_eq_some_iff.mp hstep
    exact (h.acts hread hpast rfl hm Manager.renew_acts).2
  | restart =>
    cases hstep
    exact State.Sound.cons ⟨⟨h.served, by simp⟩, by simp, h.origin⟩

/-! ## Switching the authority -/

/-- A source asks for a certificate, and after a restart one with the other authority does. -/
def switchOver (sc sc' : ACMEConfig) (a a' : Attempt) : List Label :=
  [.manager sc true, .getCertificate sc a, .restart, .manager sc' true, .getCertificate sc' a']

/-- A source that has just got its manager connects, and a restart follows. -/
theorem run_first {m : Manager} (hnew : newManager pk (managerConfig sc) = .ok m)
    {served : List (ACMEConfig × Certificate)} {ls : List Label} :
    Transition.run (step pk) ⟨settings, [], served⟩ (.manager sc true :: .getCertificate sc a :: ls) =
      Transition.run (step pk) ⟨(m.getCertificate pk settings a).settings,
        [(managerKey pk sc, (m.getCertificate pk settings a).manager)],
        served ++ (m.getCertificate pk settings a).cert.toList.map (sc, ·)⟩ ls := by
  simp [Transition.run_cons, step, State.manager, hnew, Lists.assign]

/-- After a restart a source is served the certificate that one with the other authority
left in the settings. -/
theorem switchOver_serves (hread : (Label.getCertificate sc a).ReadBack pk) {sc' : ACMEConfig} {a' : Attempt}
    {m m' : Manager} {notBefore notAfter : Int} (hnew : newManager pk (managerConfig sc) = .ok m)
    (hnew' : newManager pk (managerConfig sc') = .ok m') (hreadable : a.readable) (hwritable : a.writable)
    (hreadable' : a'.readable) (hallowed : pk.hostWhitelist sc.domains a.key.domain)
    (hissued : a.issued = some (notBefore, notAfter)) (hkey : a.key = a'.key)
    (hvalid : notBefore ≤ a'.now ∧ a'.now ≤ notAfter) :
    ∃ s, Transition.run (step pk) { settings := [] } (switchOver sc sc' a a') = some s ∧
      (sc', ⟨authority sc, a.key.domain, a.key.isRSA, notBefore, notAfter⟩) ∈ s.served := by
  refine ⟨_, by rw [switchOver, run_first hnew, Transition.run_cons, step, Option.bind_some, run_first hnew']; rfl, ?_⟩
  obtain rfl := newManager_eq hnew
  obtain rfl := newManager_eq hnew'
  generalize hc : (⟨authority sc, a.key.domain, a.key.isRSA, notBefore, notAfter⟩ : Certificate) = c
  obtain ⟨hdata, hround⟩ := hread c (hc ▸ ⟨sc, a, rfl, rfl, rfl, rfl, hissued⟩)
  have hsome : pk.encodeToString (pk.marshal c) ≠ [] := by
    intro hnil
    have hdecode := pk.decode_encode (pk.marshal c)
    rw [hnil, ← pk.encode_nil, pk.decode_encode] at hdecode
    exact hdata (Option.some.inj hdecode).symm
  have hstored : (Manager.getCertificate pk ⟨sc.domains, authority sc, []⟩ [] a).settings =
      [(settingPrefix ++ a'.key.text, pk.encodeToString (pk.marshal c))] := by
    simp [Manager.getCertificate, cachedCertificate, cacheGet, settingsGet, hreadable, hallowed, Manager.create,
      hissued, cachePut, hwritable, Lists.assign, Manager.certificate, hc, ← hkey]
  have hfits : c.domain = a'.key.domain ∧ c.isRSA = a'.key.isRSA ∧ c.notBefore ≤ a'.now ∧ a'.now ≤ c.notAfter := by
    rw [← hc, ← hkey]
    exact ⟨rfl, rfl, hvalid⟩
  have hserved : (Manager.getCertificate pk ⟨sc'.domains, authority sc', []⟩
      [(settingPrefix ++ a'.key.text, pk.encodeToString (pk.marshal c))] a').cert = some c := by
    simp [Manager.getCertificate, cachedCertificate, cacheGet, settingsGet, hreadable', hsome, hround, pk.decode_encode,
      hfits]
  simp [managerConfig, hstored, hserved]

/-- In every history from an empty settings store, in which no key is used under one
authority while a certificate that the other one may have issued for it is valid, no
manager serves a certificate of the other authority. Where a source switches its authority
over a restart, this is also necessary. -/
theorem history_ownCertificates (pk : Packages) :
    (∀ ls : List Label, (∀ l ∈ ls, l.ReadBack pk) → ls.Pairwise Outlived →
      Transition.Always (step pk) State.OwnCertificates { settings := [] } ls) ∧
    ∀ sc sc' a a' m m' validity, (∀ l ∈ switchOver sc sc' a a', l.ReadBack pk) →
      newManager pk (managerConfig sc) = .ok m → newManager pk (managerConfig sc') = .ok m' →
      a.readable → a.writable → a'.readable → pk.hostWhitelist sc.domains a.key.domain → a.issued = some validity →
      (Transition.Always (step pk) State.OwnCertificates { settings := [] } (switchOver sc sc' a a') ↔
        (switchOver sc sc' a a').Pairwise Outlived) := by
  have hown (ls : List Label) (hread : ∀ l ∈ ls, l.ReadBack pk) (hls : ls.Pairwise Outlived) :
      Transition.Always (step pk) State.OwnCertificates { settings := [] } ls := by
    have hinit : State.Sound pk [] { settings := [] } := by
      refine ⟨⟨?_, ?_⟩, ?_, ?_⟩ <;> simp
    exact Transition.always_of_pairwise (fun past s h => h.toOwnCertificates)
      (fun past s l s' h hread hpast hstep => h.step hread hpast hstep) hinit (by simp) hread hls
  refine ⟨hown, fun sc sc' a a' m m' validity hread hnew hnew' hreadable hwritable hreadable' hallowed hissued => ?_⟩
  refine ⟨fun halways => ?_, hown _ hread⟩
  have hpair : Outlived (.getCertificate sc a) (.getCertificate sc' a') := by
    rintro sc₁ a₁ sc₂ a₂ huse huse' hother hkey notBefore notAfter hissued' hvalid
    cases huse
    cases huse'
    have hfirst := hread (.getCertificate sc a) (by simp [switchOver])
    obtain ⟨s, hrun, hserved⟩ :=
      switchOver_serves hfirst hnew hnew' hreadable hwritable hreadable' hallowed hissued' hkey hvalid
    exact hother ((halways.last hrun).served _ _ hserved)
  simp [switchOver, Outlived, Label.use] at hpair ⊢
  exact hpair

/-- Packages for one domain, whose certificates are written as their authority. -/
def samplePackages : Packages where
  toLower := id
  equalFold a b := a = b
  quote := id
  encodeToString := id
  decodeString := some
  encode_nil := rfl
  decode_encode _ := rfl
  hostWhitelist domains d := d ∈ domains
  marshal c := if c.issuer = .staging then [1] else [2]
  unmarshal data := some ⟨if data = [1] then .staging else .production, "logs.example.org", false, 0, 90⟩
  keepsFor := 30

def stagingSource : ACMEConfig := { domains := ["logs.example.org"], staging := true, acceptTerms := true }

def productionSource : ACMEConfig := { stagingSource with staging := false }

def firstHello : Attempt := { key := ⟨"logs.example.org", false⟩, now := 0, issued := some (0, 90) }

/-- A source tries the staging authority first and then turns to the production one, with
a restart in between. -/
def switchRun : List Label := switchOver stagingSource productionSource firstHello firstHello

/-- The production source serves the certificate of the staging authority. -/
theorem production_serves_staging :
    ∃ s, Transition.run (step samplePackages) { settings := [] } switchRun = some s ∧
      (productionSource, ⟨.staging, "logs.example.org", false, 0, 90⟩) ∈ s.served ∧ ¬ s.OwnCertificates := by
  have hserved : (Transition.run (step samplePackages) { settings := [] } switchRun).map (·.served) =
      some [(stagingSource, ⟨.staging, "logs.example.org", false, 0, 90⟩),
        (productionSource, ⟨.staging, "logs.example.org", false, 0, 90⟩)] := by
    decide +kernel
  obtain ⟨s, hrun, hs⟩ := Option.map_eq_some_iff.mp hserved
  have hmem : (productionSource, ⟨.staging, "logs.example.org", false, 0, 90⟩) ∈ s.served := by
    rw [hs]
    exact List.mem_cons_of_mem _ List.mem_cons_self
  refine ⟨s, hrun, hmem, fun h => ?_⟩
  cases h.served _ _ hmem

/-- The production source connects once the certificate of the staging authority has ended. -/
theorem history_ownCertificates_late :
    Transition.Always (step samplePackages) State.OwnCertificates { settings := [] }
      (switchOver stagingSource productionSource firstHello { firstHello with now := 91, issued := none }) := by
  refine (history_ownCertificates samplePackages).1 _ ?_ ?_
  · rintro l hl ⟨issuer, domain, isRSA, notBefore, notAfter⟩ ⟨sc, a, huse, hissuer, hdomain, hisRSA, hissued⟩
    simp only [switchOver, List.mem_cons, List.not_mem_nil, or_false] at hl
    obtain rfl | rfl | rfl | rfl | rfl := hl
    · cases huse
    · cases huse
      cases hissuer
      cases hdomain
      cases hisRSA
      cases hissued
      decide
    · cases huse
    · cases huse
    · cases huse
      cases hissued
  · simp [switchOver, Outlived, Label.use, firstHello]
    rintro _ _ _ _ rfl rfl rfl rfl - - notBefore notAfter hissued -
    cases hissued
    decide

end Syslogc.Acme
