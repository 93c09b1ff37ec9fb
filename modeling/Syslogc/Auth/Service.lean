-- SUMMARY: Authentication by session and by API key.
import Syslogc.Auth.Store
import Syslogc.Lib.Instants

/-!
# Authentication

A session carries the permissions of its user's role. An API key carries scopes, which
are limited to the permissions of its owner's role whenever the key is used.
-/

namespace Syslogc.Auth

open Fallible
open Instants (minute)

/-! ## Authentication -/

inductive AuthError
  | unauthenticated
  | sessionExpired
  /-- `ErrInvalidScopes`, with the scope that is refused. -/
  | invalidScopes (scope : Option Permission)
  /-- No random bytes could be read. -/
  | random
  | store (error : StoreError)
deriving DecidableEq, Repr

structure Service where
  sessionIdleTimeout : Int
  /-- SHA-256. -/
  hashToken : Bytes → Bytes

def apiKeyPrefix : Bytes := utf8 "slc_"

/-- A row that is looked for by a credential: a missing one does not authenticate. -/
def orUnauthenticated : StoreError → AuthError
  | .notFound => .unauthenticated
  | e => .store e

variable (svc : Service)

/-- A key may be given its creator's permissions and `logs:ingest`, each once. -/
def checkScopes (p : Principal) (seen : List Permission) : List Permission → Except AuthError Unit
  | [] => .ok ()
  | sc :: scopes => do
    ensure (!(sc ∉ apiKeyScopes || (!p.can sc && sc ≠ .logsIngest) || sc ∈ seen)) (.invalidScopes (some sc))
    checkScopes p (sc :: seen) scopes

/-- The replacement of the characters that separate the parts of a token. -/
def plainKeyID (random : Bytes) : Bytes :=
  random.map fun b => if b = 45 then 120 else if b = 95 then 121 else b

/-- Create a key for `p`: the store with it, the key and its token. The identifier and the
two random texts are drawn by the caller. -/
def createAPIKey (s : Store) (p : Principal) (name : String) (scopes : List Permission)
    (expiresAt : Option Int) (id : Nat) (keyID secret : Option Bytes) :
    Except AuthError (Store × APIKey × Bytes) := do
  ensure (scopes ≠ []) (.invalidScopes none)
  checkScopes p [] scopes
  let keyID := plainKeyID (← get .random keyID)
  let secret ← get .random secret
  let k : APIKey := {
    id, keyID, secretHash := svc.hashToken secret, name, tenant := p.tenant, ownerUserID := p.userID,
    scopes, expiresAt, lastUsedAt := none, revokedAt := none }
  let s ← (s.createAPIKey k).mapError .store
  return (s, k, apiKeyPrefix ++ keyID ++ 95 :: secret)

/-- The key a bearer token names, if its secret is right and it is still valid. -/
def bearerKey (s : Store) (now : Int) (token : Bytes) : Except AuthError APIKey := do
  let rest ← get .unauthenticated (Bytes.cutPrefix apiKeyPrefix token)
  let (keyID, secret) ← get .unauthenticated (Bytes.cut 95 rest)
  ensure (keyID ≠ [] && secret ≠ []) .unauthenticated
  let k ← (s.apiKeyByKeyID keyID).mapError orUnauthenticated
  ensure (svc.hashToken secret = k.secretHash && k.revokedAt = none && k.expiresAt.all (now ≤ ·))
    .unauthenticated
  return k

/-- The account of a key's owner, if the key has one. -/
def keyOwner (s : Store) (k : APIKey) : Except AuthError (Option User) :=
  match k.ownerUserID with
  | none => .ok none
  | some id => do
    let u ← (s.userByID id).mapError fun _ => .unauthenticated
    ensure (!u.disabled) .unauthenticated
    return some u

/-- A key's permissions are its scopes, limited to those of its owner's role;
`logs:ingest` is always allowed. -/
def keyPrincipal (k : APIKey) (owner : Option User) : Principal where
  kind := .apiKey
  userID := owner.map (·.id)
  username := "apikey:" ++ k.name
  tenant := k.tenant
  role := owner.map (·.role)
  permissions := k.scopes.filter fun perm =>
    perm = .logsIngest || perm ∈ (owner.map fun u => rolePermissions u.role).getD []
  apiKeyID := some k.id

def authenticateAPIKey (s : Store) (now : Int) (token : Bytes) : Except AuthError (Principal × Store) := do
  let k ← bearerKey svc s now token
  let owner ← keyOwner s k
  let touch := k.lastUsedAt.all fun last => minute < now - last
  return (keyPrincipal k owner, if touch then s.touchAPIKey k.id now else s)

/-! ## Passwords -/

def minPasswordLength : Nat := 12
def maxPasswordBytes : Nat := 256

def commonPasswords : List String :=
  ["password1234", "123456789012", "qwertyuiopas", "adminadminadmin", "changemechangeme", "syslogcsyslogc",
    "passwordpassword", "letmeinletmein", "welcome12345", "iloveyou1234"]

/-- Why a password is refused. -/
def validatePasswordPolicy (toLower : String → String) (password username : String) : Option String :=
  let lower := toLower password
  if maxPasswordBytes < password.utf8ByteSize then some "password must be at most 256 bytes"
  else if password.length < minPasswordLength then some "password must be at least 12 characters"
  else if username ≠ "" && (toLower username).toList <:+: lower.toList then
    some "password must not contain the username"
  else if lower ∈ commonPasswords then some "password is too common"
  else none

/-! ## Changes of an account -/

inductive AccountChange
  | role (role : Role)
  | disabled (disabled : Bool)
  | mustChangePassword (mustChange : Bool)
  | delete
deriving DecidableEq, Repr

def User.change (u : User) : AccountChange → User
  | .role role => { u with role }
  | .disabled disabled => { u with disabled }
  | .mustChangePassword mustChangePassword => { u with mustChangePassword }
  | .delete => u

/-- A deleted account takes its sessions and keys with it. -/
def Store.change (s : Store) (id : Nat) : AccountChange → Store
  | .delete => { s with
      users := s.users.filter (·.id ≠ id)
      sessions := s.sessions.filter (·.userID ≠ id)
      apiKeys := s.apiKeys.filter (·.ownerUserID ≠ some id) }
  | c => { s with users := s.users.map fun u => if u.id = id then u.change c else u }

def Store.changes (s : Store) (id : Nat) (cs : List AccountChange) : Store := cs.foldl (·.change id) s

/-! ## What a key grants -/

section

variable {svc}
variable {s s' : Store} {now : Int} {token : Bytes} {k : APIKey} {id : Nat}

/-- The owner can authenticate: the account exists and is enabled. -/
def Store.Active (s : Store) (id : Nat) (u : User) : Prop := s.userByID id = .ok u ∧ u.disabled = false

theorem row_eq_ok {α : Type} {table : Table} {found : Option α} {a : α} (h : s.row table found = .ok a) :
    found = some a := by
  simp only [Store.row, bind_eq_ok, ensure_eq_ok, get_eq_ok] at h
  obtain ⟨-, -, h⟩ := h
  exact h

theorem bearerKey_eq_ok (h : bearerKey svc s now token = .ok k) :
    ∃ keyID secret, (Bytes.cutPrefix apiKeyPrefix token).bind (Bytes.cut 95) = some (keyID, secret) ∧
      k ∈ s.apiKeys ∧ k.keyID = keyID := by
  simp only [bearerKey, bind_eq_ok, ensure_eq_ok, get_eq_ok, mapError_eq_ok, pure_eq_ok] at h
  obtain ⟨rest, hrest, ⟨keyID, secret⟩, hcut, -, -, k', hk', -, -, rfl⟩ := h
  have hfind := row_eq_ok hk'
  refine ⟨keyID, secret, by simp [hrest, hcut], List.mem_of_find?_eq_some hfind, ?_⟩
  simpa using List.find?_some hfind

theorem keyOwner_eq_ok {owner : Option User} (hid : k.ownerUserID = some id) (h : keyOwner s k = .ok owner) :
    ∃ u, owner = some u ∧ s.Active id u := by
  simp only [keyOwner, hid, bind_eq_ok, ensure_eq_ok, mapError_eq_ok, pure_eq_ok] at h
  obtain ⟨u, hu, -, hdisabled, rfl⟩ := h
  exact ⟨u, rfl, hu, by simpa using hdisabled⟩

theorem mem_keyPrincipal_permissions {u : User} {perm : Permission} :
    perm ∈ (keyPrincipal k (some u)).permissions ↔
      perm ∈ k.scopes ∧ (perm = .logsIngest ∨ perm ∈ rolePermissions u.role) := by
  simp [keyPrincipal]

/-- What the permissions of a key are to be: among its scopes, and apart from
`logs:ingest` among those of a session of its owner. -/
def Limited (k : APIKey) (u : User) (sess : Option Session) (q : Principal) : Prop :=
  (∀ perm ∈ q.permissions, perm ∈ k.scopes) ∧
    ∀ perm ∈ q.permissions, perm ≠ .logsIngest → perm ∈ (userPrincipal u sess).permissions

/-- A key asks for its owner's role only, a session also for a changed password. -/
theorem keyPrincipal_limited_iff {u : User} {sess : Option Session} :
    Limited k u sess (keyPrincipal k (some u)) ↔
      u.mustChangePassword = false ∨ ∀ perm ∈ k.scopes, perm ∈ rolePermissions u.role → perm = .logsIngest := by
  simp only [Limited, userPrincipal, mem_keyPrincipal_permissions]
  cases u.mustChangePassword with
  | false =>
    refine iff_of_true ⟨fun perm h => h.1, fun perm h hne => ?_⟩ (.inl rfl)
    exact h.2.resolve_left hne
  | true =>
    constructor
    · intro h
      refine .inr fun perm hscope hrole => ?_
      by_contra hne
      exact absurd (h.2 perm ⟨hscope, .inr hrole⟩ hne) List.not_mem_nil
    · intro h
      refine ⟨fun perm hperm => hperm.1, fun perm hperm hne => ?_⟩
      exact absurd (h.resolve_left (by simp) perm hperm.1 (hperm.2.resolve_left hne)) hne

/-- No other key of the store has the identifier of `k`. -/
def Store.Only (s : Store) (k : APIKey) : Prop := ∀ k' ∈ s.apiKeys, k'.keyID = k.keyID → k' = k

theorem Store.Only.change (h : s.Only k) (c : AccountChange) : (s.change id c).Only k := by
  cases c with
  | delete => exact fun k' hk' => h k' (List.mem_of_mem_filter hk')
  | role _ | disabled _ | mustChangePassword _ => exact h

theorem Store.Only.changes (h : s.Only k) (cs : List AccountChange) : (s.changes id cs).Only k := by
  induction cs generalizing s with
  | nil => exact h
  | cons c cs ih => exact ih (h.change c)

theorem separator_notMem_plainKeyID (random : Bytes) : 95 ∉ plainKeyID random := by
  simp only [plainKeyID, List.mem_map, not_exists, not_and]
  intro b _
  split
  · decide
  · split
    · decide
    · assumption

theorem createAPIKey_eq_ok {p : Principal} {name : String} {scopes : List Permission} {expiresAt : Option Int}
    {keyID secret : Option Bytes}
    (h : createAPIKey svc s p name scopes expiresAt id keyID secret = .ok (s', k, token)) :
    s'.Only k ∧ k.ownerUserID = p.userID ∧ k.scopes = scopes ∧
      ∃ secret, (Bytes.cutPrefix apiKeyPrefix token).bind (Bytes.cut 95) = some (k.keyID, secret) := by
  simp only [createAPIKey, Store.createAPIKey, bind_eq_ok, ensure_eq_ok, get_eq_ok, mapError_eq_ok, pure_eq_ok,
    Prod.mk.injEq] at h
  obtain ⟨-, -, -, -, random, -, secret, -, s₁, ⟨-, -, -, hfresh, rfl⟩, rfl, rfl, rfl⟩ := h
  refine ⟨fun k' hk' hid => ?_, rfl, rfl, secret, ?_⟩
  · obtain hk' | hk' := List.mem_append.mp hk'
    · exact absurd hid (by simpa using List.all_eq_true.mp hfresh k' hk')
    · simpa using hk'
  · rw [List.append_assoc, Bytes.cutPrefix_append]
    exact Bytes.cut_append (separator_notMem_plainKeyID random) secret

end

/-- A key that its creator made, used after any changes of the creator's account: it
authenticates only while the account is active, and its permissions are limited by its
scopes and by those of a session if and only if no change of the password is due or the
owner's role allows none of the scopes but `logs:ingest`. -/
theorem authenticateAPIKey_limited_iff {s s₁ s₂ : Store} {p q : Principal} {name : String}
    {scopes : List Permission} {expiresAt : Option Int} {id owner : Nat} {keyID secret : Option Bytes}
    {k : APIKey} {token : Bytes} (hp : p.userID = some owner)
    (hcreate : createAPIKey svc s p name scopes expiresAt id keyID secret = .ok (s₁, k, token))
    (cs : List AccountChange) (now : Int)
    (huse : authenticateAPIKey svc (s₁.changes owner cs) now token = .ok (q, s₂)) :
    ∃ u, (s₁.changes owner cs).Active owner u ∧
      ∀ sess, Limited k u sess q ↔
        u.mustChangePassword = false ∨ ∀ perm ∈ scopes, perm ∈ rolePermissions u.role → perm = .logsIngest := by
  obtain ⟨honly, howner, rfl, secret', hcut⟩ := createAPIKey_eq_ok hcreate
  simp only [authenticateAPIKey, bind_eq_ok, pure_eq_ok, Prod.mk.injEq] at huse
  obtain ⟨k', hk', o, ho, rfl, -⟩ := huse
  obtain ⟨keyID', secret'', hcut', hmem, hid⟩ := bearerKey_eq_ok hk'
  -- the token names one key only, and it is the one that was made
  obtain rfl : k' = k := by
    rw [hcut] at hcut'
    cases hcut'
    exact honly.changes cs k' hmem hid
  obtain ⟨u, rfl, hactive⟩ := keyOwner_eq_ok (howner.trans hp) ho
  exact ⟨u, hactive, fun sess => keyPrincipal_limited_iff⟩

/-! An operator makes a key for searching and ingesting; an administrator then resets the
operator's password. -/

def plainService : Service where
  sessionIdleTimeout := 1800 * 1000000000
  hashToken token := token

def ofOperator (mustChangePassword : Bool) : User where
  id := 7
  tenant := "default"
  username := "op"
  displayName := ""
  role := .operator
  mustChangePassword
  disabled := false

def searchKey : Except AuthError (Store × APIKey × Bytes) :=
  createAPIKey plainService { users := [ofOperator false] } (userPrincipal (ofOperator false) none) "reports"
    [.logsSearch, .logsIngest] none 1 (some (utf8 "a_b")) (some (utf8 "s3cret"))

/-- The key can search although a session of its owner could not. -/
theorem searchKey_not_limited :
    ∃ s₁ k token q s₂, searchKey = .ok (s₁, k, token) ∧
      authenticateAPIKey plainService (s₁.changes 7 [.mustChangePassword true]) 0 token = .ok (q, s₂) ∧
      (s₁.changes 7 [.mustChangePassword true]).Active 7 (ofOperator true) ∧
      ¬ Limited k (ofOperator true) none q := by
  refine ⟨_, _, _, _, _, rfl, rfl, ⟨rfl, rfl⟩, fun h => ?_⟩
  have hsearch := h.2 .logsSearch (by decide) (by decide)
  exact absurd hsearch (by decide)

theorem authenticateAPIKey_limited_iff_searchKey :
    ∃ s₁ k token q s₂, searchKey = .ok (s₁, k, token) ∧
      authenticateAPIKey plainService (s₁.changes 7 [.role .viewer]) 0 token = .ok (q, s₂) ∧
      ∃ u, (s₁.changes 7 [.role .viewer]).Active 7 u ∧
        ∀ sess, Limited k u sess q ↔
          u.mustChangePassword = false ∨
            ∀ perm ∈ [.logsSearch, .logsIngest], perm ∈ rolePermissions u.role → perm = .logsIngest := by
  obtain ⟨s₁, k, token, hcreate⟩ : ∃ s₁ k token, searchKey = .ok (s₁, k, token) := ⟨_, _, _, rfl⟩
  obtain ⟨q, s₂, huse⟩ : ∃ q s₂,
      authenticateAPIKey plainService (s₁.changes 7 [.role .viewer]) 0 token = .ok (q, s₂) := by
    cases hcreate
    exact ⟨_, _, rfl⟩
  exact ⟨s₁, k, token, q, s₂, hcreate, huse,
    authenticateAPIKey_limited_iff plainService rfl hcreate [.role .viewer] 0 huse⟩

end Syslogc.Auth
