-- SUMMARY: Updates and deletions of users under every interleaving.
import Syslogc.Api.Sources
import Syslogc.Auth.Service
import Syslogc.Lib.Interleaving

/-!
# Managing users

A request that updates or deletes a user loads the account, checks what it was given
against the account as loaded, and writes. Other requests run between these calls of the
store.
-/

namespace Syslogc.Api

open Auth Interleaving

/-! ## Calls of the store -/

inductive StoreWrite
  | updateUser (u : User)
  | updatePassword (id : Nat) (mustChange : Bool)
  | deleteUserSessions (id : Nat)
  | deleteUser (tenant : String) (id : Nat)
deriving DecidableEq, Repr

inductive StoreCall
  | userByID (id : Nat)
  | listUsers (tenant : String)
  | write (w : StoreWrite)
deriving DecidableEq, Repr

@[reducible] def StoreCall.Answer : StoreCall → Type
  | .userByID _ => Except StoreError User
  | .listUsers _ => Except StoreError (List User)
  | .write _ => Except StoreError Unit

def StoreWrite.result (s : Store) : StoreWrite → Except StoreError Store
  | .updateUser u => s.updateUser u
  | .updatePassword id mustChange => s.updatePassword id mustChange
  | .deleteUserSessions id => s.deleteUserSessions id
  | .deleteUser tenant id => s.deleteUser tenant id

/-- A write that fails changes nothing. -/
def StoreCall.exec (s : Store) : (call : StoreCall) → call.Answer × Store
  | .userByID id => (s.userByID id, s)
  | .listUsers tenant => (s.listUsers tenant, s)
  | .write w =>
    match w.result s with
    | .ok s' => (.ok (), s')
    | .error e => (.error e, s)

/-! ## The handlers -/

abbrev Handler := ExceptT ApiError (Prog StoreCall StoreCall.Answer)

def storeProblem : StoreError → ApiError
  | .notFound => ⟨404, "not_found", "not found", ""⟩
  | .conflict => ⟨409, "conflict", "a resource with this name already exists", ""⟩
  | .unavailable => ⟨500, "internal", "an unexpected error occurred", ""⟩

def noSuchUser : ApiError := ⟨404, "not_found", "no such user", ""⟩

def answer {α : Type} (result : Except ApiError α) : Handler α := ExceptT.mk (pure result)

/-- A call of the store whose error ends the request. -/
def call {α : Type} (op : StoreCall) (result : op.Answer → Except ApiError α) : Handler α :=
  ExceptT.mk (.call op fun ans => .done (result ans))

def write (w : StoreWrite) : Handler Unit := call (.write w) (·.mapError storeProblem)

structure UserInput where
  displayName : Option String := none
  /-- `none` for an empty text. -/
  role : Option Role := none
  disabled : Option Bool := none
  newPassword : Option String := none

/-- Accounts of other tenants are not found. -/
def ownTenant (p : Principal) : Except StoreError User → Except ApiError User
  | .ok u => if u.tenant ≠ p.tenant then .error noSuchUser else .ok u
  | .error .notFound => .error noSuchUser
  | .error e => .error (storeProblem e)

/-- The account of the caller's tenant with an identifier. -/
def loadUser (p : Principal) (id : Nat) : Handler User := call (.userByID id) (ownTenant p)

/-- The number of enabled administrators among the users of a tenant. -/
def adminsOf (users : List User) : Nat := users.countP fun u => u.role = .admin && !u.disabled

def countAdmins (p : Principal) : Handler Nat :=
  call (.listUsers p.tenant) fun users => (users.map adminsOf).mapError storeProblem

-- strings.ToLower
variable (toLower : String → String)

/-- The account as loaded, with what the body gives. -/
def UserInput.apply (input : UserInput) (p : Principal) (u : User) : Except ApiError User := do
  let own := p.userID = some u.id
  let u ← match input.role with
    | none => pure u
    | some role => do
      check (validRole role) (badRequest "validation_failed" "/role" "role must be admin, operator or viewer")
      check (!(own && role ≠ u.role)) (badRequest "validation_failed" "/role" "you cannot change your own role")
      pure { u with role }
  let u := { u with displayName := input.displayName.getD u.displayName }
  let u ← match input.disabled with
    | none => pure u
    | some disabled => do
      check (!(own && disabled))
        (badRequest "validation_failed" "/disabled" "you cannot disable your own account")
      pure { u with disabled }
  match input.newPassword with
    | none => pure u
    | some password => do
      refuse (badRequest "validation_failed" "/new_password") (validatePasswordPolicy toLower password u.username)
      pure u

/-- `Auth.ResetPassword`; `hashes` tells whether the new password can be hashed. -/
def resetPassword (hashes : Bool) (u : User) (password : String) : Handler Unit := do
  answer (refuse (badRequest "validation_failed" "/new_password") (validatePasswordPolicy toLower password u.username))
  answer (check hashes (storeProblem .unavailable))
  write (.updatePassword u.id true)
  write (.deleteUserSessions u.id)

/-- What an update does once the account is written. -/
def settle (input : UserInput) (hashes : Bool) (u : User) : Handler Nat := do
  match input.newPassword with
    | none => pure ()
    | some password => resetPassword toLower hashes u password
  if u.disabled then write (.deleteUserSessions u.id)
  return 200

def handleUpdateUser (p : Principal) (id : Option Nat) (body : Except ApiError UserInput) (hashes : Bool) :
    Handler Nat := do
  let id ← answer (Fallible.get noSuchUser id)
  let input ← answer body
  let u ← loadUser p id
  let u ← answer (input.apply toLower p u)
  write (.updateUser u)
  settle toLower input hashes u

def handleDeleteUser (p : Principal) (id : Option Nat) : Handler Nat := do
  let id ← answer (Fallible.get noSuchUser id)
  answer (check (p.userID ≠ some id)
    (badRequest "validation_failed" "/id" "you cannot delete your own account"))
  let u ← loadUser p id
  if u.role = .admin then
    let admins ← countAdmins p
    answer (check (1 < admins)
      (badRequest "validation_failed" "/id" "the last administrator cannot be deleted"))
  write (.deleteUser p.tenant id)
  return 204

/-! ## Requests -/

inductive UserAction
  | update (id : Option Nat) (body : Except ApiError UserInput) (hashes : Bool)
  | delete (id : Option Nat)

structure UserRequest where
  requester : Nat
  action : UserAction

def UserAction.handler (p : Principal) : UserAction → Handler Nat
  | .update id body hashes => handleUpdateUser toLower p id body hashes
  | .delete id => handleDeleteUser p id

/-- A request runs if its session is of an enabled account that may manage users. -/
def launch (s : Store) (r : UserRequest) : Option (Prog StoreCall StoreCall.Answer (Except ApiError Nat)) :=
  match s.userByID r.requester with
  | .error _ => none
  | .ok u =>
    if !u.disabled && (userPrincipal u none).can .usersManage then
      some (r.action.handler toLower (userPrincipal u none)).run
    else none

abbrev Requests := Pool Store StoreCall StoreCall.Answer (Except ApiError Nat)

def userStep : Requests → Label UserRequest → Option Requests := step (launch toLower) StoreCall.exec

/-- A request that runs, and the account as it has loaded it. -/
structure Task where
  action : UserAction
  loaded : Option User := none

def Task.after (s : Store) (task : Task) : StoreCall → Task
  | .userByID id => { task with loaded := (s.userByID id).toOption }
  | _ => task

/-- The requests that run, each with what it has loaded. -/
structure Managing where
  pool : Requests
  tasks : List Task := []

def Managing.step (m : Managing) (l : Label UserRequest) : Option Managing :=
  (userStep toLower m.pool l).map fun pool =>
    { pool
      tasks :=
        match l, m.pool.next l with
        | .start r, _ => m.tasks ++ [{ action := r.action }]
        | .advance i, some op => m.tasks.modify i (·.after m.pool.shared op)
        | .advance _, none => m.tasks }

/-! ## Administrators -/

section

variable {toLower} {t : String} {s s' : Store} {w : StoreWrite}

/-- An enabled administrator of a tenant. -/
def adminOf (t : String) (u : User) : Prop := u.tenant = t ∧ u.role = .admin ∧ u.disabled = false

def HasAdmin (t : String) (s : Store) : Prop := ∃ u ∈ s.users, adminOf t u

/-- The users table has a primary key. -/
def Keyed (s : Store) : Prop := (s.users.map (·.id)).Nodup

/-- What the request makes of the account that it loaded is no enabled administrator. -/
def UserAction.Strips (u : User) : UserAction → Prop
  | .delete _ => True
  | .update _ (.ok input) _ => ¬(input.role.getD u.role = .admin ∧ input.disabled.getD u.disabled = false)
  | .update _ (.error _) _ => False

/-- The write changes or removes an account. -/
def StoreWrite.OfAccount : StoreWrite → Prop
  | .updateUser _ | .deleteUser _ _ => True
  | _ => False

/-- A request that leaves its account no enabled administrator writes, if it does, while the
tenant has another one. -/
def Spares (t : String) (m : Managing) : Label UserRequest → Prop
  | .start _ => True
  | .advance i => ∀ task u w s', m.tasks[i]? = some task → task.loaded = some u → task.action.Strips u →
      m.pool.next (.advance i : Label UserRequest) = some (.write w) → w.OfAccount →
      w.result m.pool.shared = .ok s' → ∃ v ∈ m.pool.shared.users, adminOf t v ∧ v.id ≠ u.id

instance adminOf.decidable (u : User) : Decidable (adminOf t u) := inferInstanceAs (Decidable (_ ∧ _ ∧ _))

instance HasAdmin.decidable : Decidable (HasAdmin t s) :=
  inferInstanceAs (Decidable (∃ u ∈ s.users, adminOf t u))

theorem Keyed.eq_of_id (hs : Keyed s) {u v : User} (hu : u ∈ s.users) (hv : v ∈ s.users) (hid : u.id = v.id) :
    u = v :=
  List.inj_on_of_nodup_map hs hu hv hid

/-! ## What a write does -/

def StoreWrite.target : StoreWrite → Nat
  | .updateUser u => u.id
  | .updatePassword id _ => id
  | .deleteUserSessions id => id
  | .deleteUser _ id => id

/-- A write changes or removes one account, and keeps the identifiers. -/
theorem StoreWrite.users_of_result (h : w.result s = .ok s') : ∃ f : User → Option User,
    s'.users = s.users.filterMap f ∧ (∀ u v, f u = some v → v.id = u.id) ∧ ∀ u, u.id ≠ w.target → f u = some u := by
  cases w with
  | updateUser u =>
    simp only [result, Store.updateUser, Fallible.bind_eq_ok, Fallible.pure_eq_ok] at h
    obtain ⟨-, -, -, -, rfl⟩ := h
    refine ⟨_, (congrFun List.filterMap_eq_map' s.users).symm, fun x y hxy => ?_,
      fun x hx => by simp [show x.id ≠ u.id from hx]⟩
    cases hxy
    split
    · rfl
    · rfl
  | updatePassword id mustChange =>
    simp only [result, Store.updatePassword, Fallible.bind_eq_ok, Fallible.pure_eq_ok] at h
    obtain ⟨-, -, -, -, rfl⟩ := h
    refine ⟨_, (congrFun List.filterMap_eq_map' s.users).symm, fun x y hxy => ?_,
      fun x hx => by simp [show x.id ≠ id from hx]⟩
    cases hxy
    split
    · rfl
    · rfl
  | deleteUserSessions id =>
    simp only [result, Store.deleteUserSessions, Fallible.bind_eq_ok, Fallible.pure_eq_ok] at h
    obtain ⟨-, -, rfl⟩ := h
    exact ⟨some, by simp, fun x y hxy => by cases hxy; rfl, fun x _ => rfl⟩
  | deleteUser tenant id =>
    simp only [result, Store.deleteUser, Fallible.bind_eq_ok, Fallible.pure_eq_ok] at h
    obtain ⟨-, -, -, -, rfl⟩ := h
    refine ⟨Option.guard fun v => !(v.tenant = tenant && v.id = id), ?_, fun x y hxy => ?_, fun x hx => ?_⟩
    · exact (congrFun List.filterMap_eq_filter s.users).symm
    · exact congrArg _ (Option.guard_eq_some_iff.mp hxy).1.symm
    · simp [Option.guard, show x.id ≠ id from hx]

theorem StoreWrite.keyed (hs : Keyed s) (h : w.result s = .ok s') : Keyed s' := by
  obtain ⟨f, husers, hid, -⟩ := users_of_result h
  rw [Keyed, husers, List.Nodup, List.pairwise_map]
  refine (List.pairwise_map.mp hs).filterMap f fun u v hne u' hu' v' hv' => ?_
  rwa [hid u u' hu', hid v v' hv']

/-- Every other account is as it was. -/
theorem StoreWrite.frame (h : w.result s = .ok s') {u : User} (hu : u.id ≠ w.target) :
    u ∈ s'.users ↔ u ∈ s.users := by
  obtain ⟨f, husers, hid, hf⟩ := users_of_result h
  rw [husers, List.mem_filterMap]
  constructor
  · rintro ⟨v, hv, hvu⟩
    rw [hid v u hvu] at hu
    rw [hf v hu] at hvu
    cases hvu
    exact hv
  · exact fun h => ⟨u, h, hf u hu⟩

/-- An update writes the fields that it was given. -/
theorem updateUser_stores (hs : Keyed s) {u : User} (h : s.updateUser u = .ok s') :
    ∃ v ∈ s.users, v.id = u.id ∧
      { v with displayName := u.displayName, role := u.role, disabled := u.disabled } ∈ s'.users ∧
      ∀ v' ∈ s'.users, v'.id = u.id →
        v' = { v with displayName := u.displayName, role := u.role, disabled := u.disabled } := by
  obtain ⟨_, -, h⟩ := Fallible.bind_eq_ok.mp h
  obtain ⟨_, hany, h⟩ := Fallible.bind_eq_ok.mp h
  cases h
  simp only [Fallible.ensure_eq_ok, List.any_eq_true, Bool.and_eq_true, decide_eq_true_eq] at hany
  obtain ⟨v, hv, htenant, hid⟩ := hany
  refine ⟨v, hv, hid, List.mem_map.mpr ⟨v, hv, by simp [htenant, hid]⟩, fun v' hv' hid' => ?_⟩
  obtain ⟨x, hx, rfl⟩ := List.mem_map.mp hv'
  have hxid : x.id = u.id := by split at hid' <;> exact hid'
  obtain rfl := hs.eq_of_id hx hv (hxid.trans hid.symm)
  simp [htenant, hid]

theorem deleteUser_removes (hs : Keyed s) {tenant : String} {id : Nat} (h : s.deleteUser tenant id = .ok s') :
    ∀ v ∈ s'.users, v.id ≠ id := by
  obtain ⟨_, -, h⟩ := Fallible.bind_eq_ok.mp h
  obtain ⟨_, hany, h⟩ := Fallible.bind_eq_ok.mp h
  cases h
  simp only [Fallible.ensure_eq_ok, List.any_eq_true, Bool.and_eq_true, decide_eq_true_eq] at hany
  obtain ⟨u, hu, htenant, hid⟩ := hany
  intro v hv heq
  obtain ⟨hv, hkept⟩ := List.mem_filter.mp hv
  obtain rfl := hs.eq_of_id hv hu (heq.trans hid.symm)
  simp [htenant, hid] at hkept

/-- A new password and the end of sessions leave administrators as they are. -/
theorem StoreWrite.hasAdmin_of_other (hw : ¬w.OfAccount) (h : w.result s = .ok s') (hadmin : HasAdmin t s) :
    HasAdmin t s' := by
  obtain ⟨u, hu, hau⟩ := hadmin
  cases w with
  | updateUser v => exact absurd trivial hw
  | deleteUser tenant id => exact absurd trivial hw
  | deleteUserSessions id =>
    obtain ⟨_, -, h⟩ := Fallible.bind_eq_ok.mp h
    cases h
    exact ⟨u, hu, hau⟩
  | updatePassword id mustChange =>
    obtain ⟨_, -, h⟩ := Fallible.bind_eq_ok.mp h
    obtain ⟨_, -, h⟩ := Fallible.bind_eq_ok.mp h
    cases h
    refine ⟨_, List.mem_map_of_mem hu, ?_⟩
    split <;> exact hau

/-- An update leaves the tenant an administrator exactly if it writes one, or if there is
another one. -/
theorem updateUser_hasAdmin_iff (hs : Keyed s) (hadmin : HasAdmin t s) {u : User} (h : s.updateUser u = .ok s') :
    HasAdmin t s' ↔ (¬(u.role = .admin ∧ u.disabled = false) → ∃ v ∈ s.users, adminOf t v ∧ v.id ≠ u.id) := by
  have hframe {v : User} (hv : v.id ≠ u.id) : v ∈ s'.users ↔ v ∈ s.users :=
    StoreWrite.frame (w := .updateUser u) h hv
  obtain ⟨v, hv, hid, hstored, honly⟩ := updateUser_stores hs h
  constructor
  · rintro ⟨x, hx, hax⟩ hstrips
    have hne : x.id ≠ u.id := by
      intro heq
      rw [honly x hx heq] at hax
      exact hstrips hax.2
    exact ⟨x, (hframe hne).mp hx, hax, hne⟩
  · intro hother
    by_cases hwrites : u.role = .admin ∧ u.disabled = false
    · obtain ⟨x, hx, hax⟩ := hadmin
      by_cases heq : x.id = u.id
      · obtain rfl := hs.eq_of_id hx hv (heq.trans hid.symm)
        exact ⟨_, hstored, hax.1, hwrites⟩
      · exact ⟨x, (hframe heq).mpr hx, hax⟩
    · obtain ⟨x, hx, hax, hne⟩ := hother hwrites
      exact ⟨x, (hframe hne).mpr hx, hax⟩

theorem deleteUser_hasAdmin_iff (hs : Keyed s) {tenant : String} {id : Nat} (h : s.deleteUser tenant id = .ok s') :
    HasAdmin t s' ↔ ∃ v ∈ s.users, adminOf t v ∧ v.id ≠ id := by
  have hframe {v : User} (hv : v.id ≠ id) : v ∈ s'.users ↔ v ∈ s.users :=
    StoreWrite.frame (w := .deleteUser tenant id) h hv
  constructor
  · rintro ⟨v, hv, hav⟩
    have hne := deleteUser_removes hs h v hv
    exact ⟨v, (hframe hne).mp hv, hav, hne⟩
  · rintro ⟨v, hv, hav, hne⟩
    exact ⟨v, (hframe hne).mpr hv, hav⟩

theorem StoreCall.exec_keyed (hs : Keyed s) (op : StoreCall) : Keyed (op.exec s).2 := by
  cases op with
  | userByID id => exact hs
  | listUsers tenant => exact hs
  | write w =>
    simp only [exec]
    cases h : w.result s with
    | error e => exact hs
    | ok s' => exact w.keyed hs h

/-! ## What a request writes -/

/-- The calls of a request after it has loaded an account: it writes that account, with the
values of its body, or removes it. -/
def Carries (action : UserAction) (u : User) : StoreCall → Prop
  | .userByID _ => False
  | .listUsers _ => True
  | .write (.updateUser v) => v.id = u.id ∧ (action.Strips u ↔ ¬(v.role = .admin ∧ v.disabled = false))
  | .write (.deleteUser _ id) => id = u.id ∧ action.Strips u
  | .write _ => True

section Only

variable {α β : Type} {P Q : StoreCall → Prop}

theorem only_bind {x : Handler α} {f : α → Handler β} (hx : x.run.Only P) (hf : ∀ a, (f a).run.Only P) :
    (x >>= f).run.Only P := by
  refine Prog.Only.bind hx fun result => ?_
  cases result with
  | ok a => exact hf a
  | error e => trivial

theorem only_write {w : StoreWrite} (h : P (.write w)) : (write w).run.Only P := ⟨h, fun _ => trivial⟩

end Only

/-- What an accepted input writes: the account with the requested values. -/
theorem UserInput.apply_eq {input : UserInput} {p : Principal} {u v : User} (h : input.apply toLower p u = .ok v) :
    v = { u with
      role := input.role.getD u.role
      displayName := input.displayName.getD u.displayName
      disabled := input.disabled.getD u.disabled } := by
  obtain ⟨name, role, disabled, password⟩ := input
  -- The checks of the fields that are given do not change the account.
  cases role <;> cases disabled <;> cases password <;>
    simp only [UserInput.apply, Fallible.bind_eq_ok, Fallible.pure_eq_ok, exists_eq_left'] at h <;>
    grind

/-- The calls after the account is written: those of a new password, and the end of its sessions. -/
def Settles (op : StoreCall) : Prop :=
  ∃ id, op = .write (.updatePassword id true) ∨ op = .write (.deleteUserSessions id)

/-- After the write there are only a new password and the sessions. -/
theorem settle_only (input : UserInput) (hashes : Bool) (u : User) :
    (settle toLower input hashes u).run.Only Settles := by
  have hsessions : (write (.deleteUserSessions u.id)).run.Only Settles := only_write ⟨u.id, .inr rfl⟩
  have hend : ((do
      if u.disabled then write (.deleteUserSessions u.id)
      return 200) : Handler Nat).run.Only Settles := by
    cases u.disabled with
    | false => trivial
    | true => exact only_bind hsessions fun _ => trivial
  unfold settle
  cases input.newPassword with
  | none => exact hend
  | some password =>
    refine only_bind ?_ fun _ => hend
    refine only_bind trivial fun _ => only_bind trivial fun _ => ?_
    exact only_bind (only_write ⟨u.id, .inl rfl⟩) fun _ => hsessions

theorem Settles.carries {action : UserAction} {u : User} {op : StoreCall} (h : Settles op) : Carries action u op := by
  obtain ⟨id, rfl | rfl⟩ := h <;> trivial

/-- A request fails at once, or loads its account and goes on with what it has loaded. -/
theorem UserAction.handler_run (p : Principal) (action : UserAction) :
    (∃ e, (action.handler toLower p).run = .done (.error e)) ∨
      ∃ id rest, (action.handler toLower p).run = (loadUser p id >>= rest).run ∧
        ∀ u : User, u.id = id → (rest u).run.Only (Carries action u) := by
  cases action with
  | update id body hashes =>
    cases id with
    | none => exact .inl ⟨_, rfl⟩
    | some id =>
      cases body with
      | error e => exact .inl ⟨e, rfl⟩
      | ok input =>
        refine .inr ⟨id, _, rfl, fun u _ => ?_⟩
        cases happly : input.apply toLower p u with
        | error e => trivial
        | ok v =>
          have hcarries : Carries (.update (some id) (.ok input) hashes) u (.write (.updateUser v)) := by
            rw [UserInput.apply_eq happly]
            exact ⟨rfl, Iff.rfl⟩
          have hwrite : (write (.updateUser v) >>= fun _ => settle toLower input hashes v).run.Only
              (Carries (.update (some id) (.ok input) hashes) u) :=
            only_bind (only_write hcarries) fun _ => (settle_only input hashes v).mono fun _ => Settles.carries
          exact hwrite
  | delete id =>
    cases id with
    | none => exact .inl ⟨_, rfl⟩
    | some id =>
      have hrun : ((UserAction.delete (some id)).handler toLower p).run = (answer (check (p.userID ≠ some id)
          (badRequest "validation_failed" "/id" "you cannot delete your own account")) >>= fun _ =>
            loadUser p id >>= _).run := rfl
      cases hown : check (p.userID ≠ some id)
          (badRequest "validation_failed" "/id" "you cannot delete your own account") with
      | error e =>
        rw [hown] at hrun
        exact .inl ⟨e, hrun⟩
      | ok _ =>
        rw [hown] at hrun
        refine .inr ⟨id, _, hrun, fun u hid => ?_⟩
        have hdelete : (write (.deleteUser p.tenant id) >>= fun _ => pure 204 : Handler Nat).run.Only
            (Carries (.delete (some id)) u) := only_bind (only_write ⟨hid.symm, trivial⟩) fun _ => trivial
        split
        · exact only_bind ⟨trivial, fun _ => trivial⟩ fun _ => only_bind trivial fun _ => hdelete
        · exact hdelete

/-! ## Runs -/

theorem userByID_id {id : Nat} {u : User} (h : s.userByID id = .ok u) : u.id = id := by
  obtain ⟨_, -, h⟩ := Fallible.bind_eq_ok.mp h
  simpa using List.find?_some (Fallible.get_eq_ok.mp h)

/-- Where a request is: it has not begun, it has ended, or it goes on with what it has loaded. -/
def Task.At (toLower : String → String) (task : Task) (p : Prog StoreCall StoreCall.Answer (Except ApiError Nat)) :
    Prop :=
  match task.loaded with
  | none => (∃ caller, p = (task.action.handler toLower caller).run) ∨ ∃ result, p = .done result
  | some u => p.Only (Carries task.action u)

/-- What holds of the requests in every run. -/
structure Managing.Sound (toLower : String → String) (m : Managing) : Prop where
  keyed : Keyed m.pool.shared
  length_eq : m.tasks.length = m.pool.running.length
  at_task : ∀ (i : Nat) (task : Task) p, m.tasks[i]? = some task → m.pool.running[i]? = some p → task.At toLower p

/-- One call of a request, and where the request is then. -/
theorem Task.At.call {task : Task} {op : StoreCall}
    {next : op.Answer → Prog StoreCall StoreCall.Answer (Except ApiError Nat)} (h : task.At toLower (.call op next)) :
    (task.after s op).At toLower (next (op.exec s).1) ∧
      ∀ w, op = .write w → ∃ u, task.loaded = some u ∧ Carries task.action u op := by
  cases hloaded : task.loaded with
  | some u =>
    simp only [Task.At, hloaded] at h
    refine ⟨?_, fun _ _ => ⟨u, rfl, h.1⟩⟩
    cases op with
    | userByID id => exact h.1.elim
    | listUsers tenant => simpa only [Task.At, Task.after, hloaded] using h.2 _
    | write w => simpa only [Task.At, Task.after, hloaded] using h.2 _
  | none =>
    simp only [Task.At, hloaded] at h
    obtain ⟨caller, hrun⟩ | ⟨result, hdone⟩ := h
    · obtain ⟨e, hfailed⟩ | ⟨id, rest, hload, hrest⟩ := task.action.handler_run caller
      · cases hrun.trans hfailed
      · cases hrun.trans hload
        refine ⟨?_, fun _ h => nomatch h⟩
        simp only [StoreCall.exec, Task.At, Task.after]
        cases huser : s.userByID id with
        | error e => cases e <;> exact .inr ⟨_, rfl⟩
        | ok u =>
          simp only [Except.toOption, Prog.bind, ownTenant]
          split
          · trivial
          · exact hrest u (userByID_id huser)
    · cases hdone

variable {m m' : Managing} {i : Nat}

theorem Managing.step_advance (h : m.step toLower (.advance i) = some m') :
    ∃ op next, m.pool.running[i]? = some (.call op next) ∧ m.pool.next (.advance i : Label UserRequest) = some op ∧
      m' = ⟨⟨(op.exec m.pool.shared).2, m.pool.running.set i (next (op.exec m.pool.shared).1)⟩,
        m.tasks.modify i (·.after m.pool.shared op)⟩ := by
  obtain ⟨pool, hpool, rfl⟩ := Option.map_eq_some_iff.mp h
  obtain ⟨op, next, hprog, rfl⟩ := Interleaving.step_advance hpool
  have hnext : m.pool.next (.advance i : Label UserRequest) = some op := by simp [Pool.next, hprog]
  exact ⟨op, next, hprog, hnext, by rw [hnext]⟩

theorem Managing.Sound.exists_task (h : m.Sound toLower) {p : Prog StoreCall StoreCall.Answer (Except ApiError Nat)}
    (hp : m.pool.running[i]? = some p) : ∃ task, m.tasks[i]? = some task ∧ task.At toLower p := by
  have hlt : i < m.tasks.length := h.length_eq ▸ (List.getElem?_eq_some_iff.mp hp).1
  exact ⟨_, List.getElem?_eq_getElem hlt, h.at_task i _ p (List.getElem?_eq_getElem hlt) hp⟩

theorem launch_eq {r : UserRequest} {p : Prog StoreCall StoreCall.Answer (Except ApiError Nat)}
    (h : launch toLower s r = some p) : ∃ caller, p = (r.action.handler toLower caller).run := by
  unfold launch at h
  split at h
  · cases h
  · split at h
    · cases h
      exact ⟨_, rfl⟩
    · cases h

theorem Managing.Sound.step {l : Label UserRequest} (h : m.Sound toLower) (hstep : m.step toLower l = some m') :
    m'.Sound toLower := by
  cases l with
  | start r =>
    obtain ⟨pool, hpool, rfl⟩ := Option.map_eq_some_iff.mp hstep
    obtain ⟨p, hlaunch, rfl⟩ := Option.map_eq_some_iff.mp hpool
    refine ⟨h.keyed, by simp [h.length_eq], fun j task q htask hq => ?_⟩
    simp only [List.getElem?_append, h.length_eq] at htask hq
    split at htask
    · next hlt =>
      rw [if_pos hlt] at hq
      exact h.at_task j task q htask hq
    · next hlt =>
      rw [if_neg hlt] at hq
      obtain ⟨rfl, rfl⟩ : task = { action := r.action } ∧ q = p := by grind
      obtain ⟨caller, rfl⟩ := launch_eq hlaunch
      exact .inl ⟨caller, rfl⟩
  | advance i =>
    obtain ⟨op, next, hprog, -, rfl⟩ := Managing.step_advance hstep
    refine ⟨op.exec_keyed h.keyed, by simp [h.length_eq], fun j task q htask hq => ?_⟩
    simp only [List.getElem?_modify, Option.map_eq_map, Option.map_eq_some_iff] at htask
    obtain ⟨old, hold, rfl⟩ := htask
    by_cases hj : i = j
    · subst hj
      obtain rfl : next (op.exec m.pool.shared).1 = q := by
        simpa [(List.getElem?_eq_some_iff.mp hprog).1] using hq
      rw [if_pos rfl]
      exact (h.at_task i old _ hold hprog).call.1
    · rw [List.getElem?_set_ne hj] at hq
      rw [if_neg hj]
      exact h.at_task j old q hold hq

/-- The condition at a write of an account. -/
theorem spares_iff {task : Task} {u : User} (htask : m.tasks[i]? = some task) (hloaded : task.loaded = some u)
    (hnext : m.pool.next (.advance i : Label UserRequest) = some (.write w)) (hw : w.OfAccount)
    (hresult : w.result m.pool.shared = .ok s') :
    Spares t m (.advance i) ↔ (task.action.Strips u → ∃ v ∈ m.pool.shared.users, adminOf t v ∧ v.id ≠ u.id) := by
  constructor
  · exact fun h hstrips => h task u w s' htask hloaded hstrips hnext hw hresult
  · intro h task' u' w' s'' htask' hloaded' hstrips hnext' _ _
    cases htask.symm.trans htask'
    cases hloaded.symm.trans hloaded'
    exact h hstrips

theorem Managing.Sound.hasAdmin_iff {l : Label UserRequest} (h : m.Sound toLower) (hadmin : HasAdmin t m.pool.shared)
    (hstep : m.step toLower l = some m') : HasAdmin t m'.pool.shared ↔ Spares t m l := by
  cases l with
  | start r =>
    obtain ⟨pool, hpool, rfl⟩ := Option.map_eq_some_iff.mp hstep
    obtain ⟨p, -, rfl⟩ := Option.map_eq_some_iff.mp hpool
    exact iff_of_true hadmin trivial
  | advance i =>
    obtain ⟨op, next, hprog, hnext, rfl⟩ := Managing.step_advance hstep
    obtain ⟨task, htask, hat⟩ := h.exists_task hprog
    cases op with
    | userByID id => exact iff_of_true hadmin fun _ _ w _ _ _ _ hw => by cases hnext.symm.trans hw
    | listUsers tenant => exact iff_of_true hadmin fun _ _ w _ _ _ _ hw => by cases hnext.symm.trans hw
    | write w =>
      obtain ⟨u, hloaded, hcarries⟩ := (hat.call (s := m.pool.shared)).2 w rfl
      simp only [StoreCall.exec]
      cases hresult : w.result m.pool.shared with
      | error e =>
        refine iff_of_true hadmin fun _ _ w' s' _ _ _ hw _ hok => ?_
        cases hnext.symm.trans hw
        cases hresult.symm.trans hok
      | ok s' =>
        by_cases hof : w.OfAccount
        · rw [spares_iff htask hloaded hnext hof hresult]
          cases w with
          | updateUser v =>
            obtain ⟨hid, hstrips⟩ := hcarries
            rw [hstrips, ← hid]
            exact updateUser_hasAdmin_iff h.keyed hadmin hresult
          | deleteUser tenant id =>
            obtain ⟨rfl, hstrips⟩ := hcarries
            rw [forall_prop_of_true hstrips]
            exact deleteUser_hasAdmin_iff h.keyed hresult
          | updatePassword id mustChange => cases hof
          | deleteUserSessions id => cases hof
        · refine iff_of_true (w.hasAdmin_of_other hof hresult hadmin) fun _ _ w' s' _ _ _ hw hof' _ => ?_
          cases hnext.symm.trans hw
          exact absurd hof' hof

/-- Along every interleaving of updates and deletions the tenant keeps an enabled
administrator exactly if each request that leaves its account none writes while there is
another one: the handlers check this before the write, if at all. -/
theorem hasAdmin_always_iff (hs : Keyed s) (hadmin : HasAdmin t s) (ls : List (Label UserRequest)) :
    Transition.Always (Managing.step toLower) (fun m => HasAdmin t m.pool.shared) ⟨⟨s, []⟩, []⟩ ls ↔
      Transition.Guarded (Managing.step toLower) (Spares t) ⟨⟨s, []⟩, []⟩ ls := by
  have hinit : Managing.Sound toLower ⟨⟨s, []⟩, []⟩ := ⟨hs, rfl, by simp⟩
  exact Transition.always_iff_guarded (fun m l m' hm hm' => hm.step hm')
    (fun m l m' hm hP hm' => hm.hasAdmin_iff hP hm') hinit hadmin ls

/-! Two administrators disable each other: both requests load the other account before
either writes. -/

def adminAccount (id : Nat) : User where
  id
  tenant := "default"
  username := ""
  displayName := ""
  role := .admin
  mustChangePassword := false
  disabled := false

def twoAdmins : Store := { users := [adminAccount 1, adminAccount 2] }

theorem twoAdmins_keyed : Keyed twoAdmins := by
  unfold Keyed
  decide

def disableEachOther : List (Label UserRequest) :=
  [.start ⟨1, .update (some 2) (.ok { disabled := some true }) true⟩,
   .start ⟨2, .update (some 1) (.ok { disabled := some true }) true⟩,
   .advance 0, .advance 1, .advance 0, .advance 1]

end

theorem disableEachOther_leaves_none :
    HasAdmin "default" twoAdmins ∧
      ∃ pool, Transition.run (userStep id) ⟨twoAdmins, []⟩ disableEachOther = some pool ∧
        ¬ HasAdmin "default" pool.shared :=
  ⟨by decide, _, rfl, by decide⟩

theorem hasAdmin_always_iff_disableEachOther :
    Transition.Always (Managing.step id) (fun m => HasAdmin "default" m.pool.shared) ⟨⟨twoAdmins, []⟩, []⟩
        disableEachOther ↔
      Transition.Guarded (Managing.step id) (Spares "default") ⟨⟨twoAdmins, []⟩, []⟩ disableEachOther :=
  hasAdmin_always_iff twoAdmins_keyed (by decide) disableEachOther

end Syslogc.Api
