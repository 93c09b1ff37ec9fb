-- SUMMARY: Roles, permissions, accounts, sessions and API keys.
import Mathlib
import Syslogc.Lib.Bytes
import Syslogc.Lib.Fallible

/-!
# Accounts

The permissions of the roles, and the tables of the metadata database that
authentication and the management of users read and write.
-/

namespace Syslogc.Auth

open Fallible

/-! ## Permissions -/

inductive Permission
  | dashboardView
  | logsSearch
  | logsTail
  | logsViewRaw
  | logsQueryNative
  | logsExport
  | logsIngest
  | searchesRead
  | searchesWrite
  | sourcesRead
  | sourcesManage
  | systemView
  | configView
  | configManage
  | retentionManage
  | analyticsManage
  | forwardingManage
  | usersManage
  | apiKeysOwn
  | apiKeysManage
  | auditView
  | other (name : String)
deriving DecidableEq, Repr

inductive Role
  | admin
  | operator
  | viewer
  | other (name : String)
deriving DecidableEq, Repr

abbrev PermissionSet := List Permission

def viewerPermissions : PermissionSet :=
  [.dashboardView, .logsSearch, .logsTail, .logsViewRaw, .searchesRead, .searchesWrite, .sourcesRead,
    .systemView]

def operatorPermissions : PermissionSet :=
  viewerPermissions ++
    [.logsQueryNative, .logsExport, .sourcesManage, .configView, .apiKeysOwn, .analyticsManage]

def adminPermissions : PermissionSet :=
  operatorPermissions ++
    [.configManage, .retentionManage, .usersManage, .apiKeysManage, .auditView, .forwardingManage]

/-- The permissions of a role; an unknown role has none. -/
def rolePermissions : Role → PermissionSet
  | .viewer => viewerPermissions
  | .operator => operatorPermissions
  | .admin => adminPermissions
  | .other _ => []

def validRole : Role → Bool
  | .viewer | .operator | .admin => true
  | .other _ => false

/-- The permissions an API key may carry. -/
def apiKeyScopes : PermissionSet :=
  [.logsIngest, .logsSearch, .logsTail, .logsExport, .logsQueryNative, .systemView]

/-! ## Accounts, sessions and keys -/

structure User where
  id : Nat
  tenant : String
  username : String
  displayName : String
  role : Role
  mustChangePassword : Bool
  disabled : Bool
deriving DecidableEq, Repr

structure Session where
  tokenHash : Bytes
  userID : Nat
  csrfToken : String
  lastSeenAt : Int
  expiresAt : Int
deriving DecidableEq, Repr

structure APIKey where
  id : Nat
  keyID : Bytes
  secretHash : Bytes
  name : String
  tenant : String
  ownerUserID : Option Nat
  scopes : List Permission
  expiresAt : Option Int
  lastUsedAt : Option Int
  revokedAt : Option Int
deriving DecidableEq, Repr

inductive Kind
  | user
  | apiKey
deriving DecidableEq, Repr

/-- The authenticated caller. -/
structure Principal where
  kind : Kind
  userID : Option Nat
  username : String
  tenant : String
  role : Option Role
  permissions : PermissionSet
  csrfToken : String := ""
  apiKeyID : Option Nat := none
deriving DecidableEq, Repr

def Principal.can (p : Principal) (perm : Permission) : Bool := perm ∈ p.permissions

/-- Until the password is changed a session has no permissions. -/
def userPrincipal (u : User) (sess : Option Session) : Principal where
  kind := .user
  userID := some u.id
  username := u.username
  tenant := u.tenant
  role := some u.role
  permissions := if u.mustChangePassword then [] else rolePermissions u.role
  csrfToken := (sess.map (·.csrfToken)).getD ""

/-! ## The store -/

inductive Table
  | users
  | sessions
  | apiKeys
deriving DecidableEq, Repr

inductive StoreError
  | notFound
  | conflict
  | unavailable
deriving DecidableEq, Repr

/-- The tables, and those that cannot be reached at the moment. -/
structure Store where
  users : List User := []
  sessions : List Session := []
  apiKeys : List APIKey := []
  down : List Table := []
deriving DecidableEq, Repr

namespace Store

variable (s : Store)

def row {α : Type} (table : Table) (found : Option α) : Except StoreError α := do
  ensure (table ∉ s.down) .unavailable
  get .notFound found

def userByID (id : Nat) : Except StoreError User := s.row .users (s.users.find? (·.id = id))

def apiKeyByKeyID (keyID : Bytes) : Except StoreError APIKey :=
  s.row .apiKeys (s.apiKeys.find? (·.keyID = keyID))

/-- A key identifier is unique. -/
def createAPIKey (k : APIKey) : Except StoreError Store := do
  ensure (.apiKeys ∉ s.down) .unavailable
  ensure (s.apiKeys.all fun other => other.keyID ≠ k.keyID) .conflict
  return { s with apiKeys := s.apiKeys ++ [k] }

def touchAPIKey (id : Nat) (time : Int) : Store :=
  { s with apiKeys := s.apiKeys.map fun k => if k.id = id then { k with lastUsedAt := some time } else k }

def updateUser (u : User) : Except StoreError Store := do
  ensure (.users ∉ s.down) .unavailable
  ensure (s.users.any fun v => v.tenant = u.tenant && v.id = u.id) .notFound
  return { s with
    users := s.users.map fun v =>
      if v.tenant = u.tenant && v.id = u.id then
        { v with displayName := u.displayName, role := u.role, disabled := u.disabled }
      else v }

def updatePassword (id : Nat) (mustChange : Bool) : Except StoreError Store := do
  ensure (.users ∉ s.down) .unavailable
  ensure (s.users.any fun v => v.id = id) .notFound
  return { s with
    users := s.users.map fun v => if v.id = id then { v with mustChangePassword := mustChange } else v }

/-- A deleted account takes its sessions and keys with it. -/
def deleteUser (tenant : String) (id : Nat) : Except StoreError Store := do
  ensure (.users ∉ s.down) .unavailable
  ensure (s.users.any fun v => v.tenant = tenant && v.id = id) .notFound
  return { s with
    users := s.users.filter fun v => !(v.tenant = tenant && v.id = id)
    sessions := s.sessions.filter (·.userID ≠ id)
    apiKeys := s.apiKeys.filter (·.ownerUserID ≠ some id) }

def listUsers (tenant : String) : Except StoreError (List User) := do
  ensure (.users ∉ s.down) .unavailable
  return s.users.filter (·.tenant = tenant)

def deleteUserSessions (id : Nat) : Except StoreError Store := do
  ensure (.sessions ∉ s.down) .unavailable
  return { s with sessions := s.sessions.filter (·.userID ≠ id) }

end Store

end Syslogc.Auth
