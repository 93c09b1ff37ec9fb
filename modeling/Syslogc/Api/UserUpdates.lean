-- SUMMARY: Concurrent updates of one account.
import Syslogc.Api.Users

/-!
# Concurrent updates of an account

An update loads the whole account and later writes all of its fields. Beside the pool of
requests it is kept which of them have written, and which had written when a request
loaded the account. Updates of different fields are all kept if no request writes after
one whose write it has not loaded.
-/

namespace Syslogc.Api

open Auth Interleaving

/-- An update of the account at hand. -/
structure Update where
  caller : Principal
  input : UserInput
  hashes : Bool := true

-- strings.ToLower
variable (toLower : String → String)

def Update.program (id : Nat) (r : Update) : Prog StoreCall StoreCall.Answer (Except ApiError Nat) :=
  (handleUpdateUser toLower r.caller (some id) (.ok r.input) r.hashes).run

/-- The requests that run, those of them that have written the account, and for each one
those that had written it when the request loaded it. -/
structure Updates where
  pool : Requests
  wrote : List Nat := []
  seen : Nat → List Nat := fun _ => []

/-- The call writes an account. -/
def Writes (s : Store) : StoreCall → Bool
  | .write (.updateUser u) => (s.updateUser u).isOk
  | _ => false

/-- The call loads an account. -/
def Loads : StoreCall → Bool
  | .userByID _ => true
  | _ => false

def Updates.step (t : Updates) (i : Nat) : Option Updates :=
  let next := t.pool.next (.advance i : Label UserRequest)
  (userStep toLower t.pool (.advance i)).map fun pool =>
    { pool
      wrote := if next.any (Writes t.pool.shared) then i :: t.wrote else t.wrote
      seen := if next.any Loads then Function.update t.seen i t.wrote else t.seen }

/-- The requests on an account before any of them has made a call. -/
def Updates.init (id : Nat) (s : Store) (updates : List Update) : Updates :=
  { pool := ⟨s, updates.map (·.program toLower id)⟩ }

/-- The account has the values that the request asks for. -/
def UserInput.Carried (input : UserInput) (u : User) : Prop :=
  (∀ role, input.role = some role → u.role = role) ∧
    (∀ name, input.displayName = some name → u.displayName = name) ∧
    ∀ disabled, input.disabled = some disabled → u.disabled = disabled

/-- No field of an account is set by both requests. -/
def UserInput.Apart (a b : UserInput) : Prop :=
  (a.role = none ∨ b.role = none) ∧ (a.displayName = none ∨ b.displayName = none) ∧
    (a.disabled = none ∨ b.disabled = none)

/-- The stored account has the requested values. -/
def Stored (id : Nat) (input : UserInput) (s : Store) : Prop := ∀ v ∈ s.users, v.id = id → input.Carried v

/-- The stored account has the values of every request that has written it. -/
def Kept (id : Nat) (updates : List Update) (t : Updates) : Prop :=
  ∀ i ∈ t.wrote, ∀ r, updates[i]? = some r → Stored id r.input t.pool.shared

/-- If the step writes the account, then every request that has written it before had done
so when this one loaded it. -/
def Fresh (t : Updates) (i : Nat) : Prop :=
  (t.pool.next (.advance i : Label UserRequest)).any (Writes t.pool.shared) → ∀ j ∈ t.wrote, j ∈ t.seen i

instance Fresh.decidable (t : Updates) (i : Nat) : Decidable (Fresh t i) := inferInstanceAs (Decidable (_ → _))

section

variable {toLower} {id : Nat} {s s' : Store} {r : Update} {u v : User} {input other : UserInput}

/-- What an accepted input writes: the requested values, and the other fields as they were loaded. -/
theorem UserInput.apply_carried (other : UserInput) {p : Principal} (h : input.apply toLower p u = .ok v) :
    input.Carried v ∧ v.id = u.id ∧ (other.Apart input → other.Carried u → other.Carried v) := by
  rw [UserInput.apply_eq h]
  refine ⟨⟨?_, ?_, ?_⟩, rfl, fun hapart hcarried => ⟨?_, ?_, ?_⟩⟩
  · rintro _ hrole
    simp [hrole]
  · rintro _ hname
    simp [hname]
  · rintro _ hdisabled
    simp [hdisabled]
  · intro role hrole
    simp [hapart.1.resolve_left (by simp [hrole]), hcarried.1 role hrole]
  · intro name hname
    simp [hapart.2.1.resolve_left (by simp [hname]), hcarried.2.1 name hname]
  · intro disabled hdisabled
    simp [hapart.2.2.resolve_left (by simp [hdisabled]), hcarried.2.2 disabled hdisabled]

/-! ## Where a request is -/

/-- What a request has before it, and whether it has written the account. What it writes has
the values of the inputs `K`. -/
inductive Stage (toLower : String → String) (id : Nat) (r : Update) (K : UserInput → Prop) (wrote : Prop) :
    Prog StoreCall StoreCall.Answer (Except ApiError Nat) → Prop
  | loading (hwrote : ¬wrote) : Stage toLower id r K wrote (r.program toLower id)
  | writing {u : User} {next : Except StoreError Unit → Prog StoreCall StoreCall.Answer (Except ApiError Nat)}
      (hwrote : ¬wrote) (hcarried : r.input.Carried u) (hkeeps : ∀ other, K other → other.Carried u) (hid : u.id = id)
      (hok : (next (.ok ())).Only Settles) (herror : ∀ e, ∃ e', next (.error e) = .done (.error e')) :
      Stage toLower id r K wrote (.call (.write (.updateUser u)) next)
  | settling {p} (hwrote : wrote) (honly : p.Only Settles) : Stage toLower id r K wrote p
  | failed {e : ApiError} : Stage toLower id r K wrote (.done (.error e))

theorem Update.program_eq : r.program toLower id = .call (.userByID id) fun ans =>
    match ownTenant r.caller ans with
    | .error e => .done (.error e)
    | .ok u =>
      match r.input.apply toLower r.caller u with
      | .error e => .done (.error e)
      | .ok u => .call (.write (.updateUser u)) fun
        | .error e => .done (.error (storeProblem e))
        | .ok () => (settle toLower r.input r.hashes u).run := by
  apply congrArg (Prog.call (StoreCall.userByID id))
  funext ans
  show ExceptT.bindCont _ (ownTenant r.caller ans) = _
  cases ownTenant r.caller ans with
  | error e => rfl
  | ok u =>
    dsimp only
    show ExceptT.bindCont _ (r.input.apply toLower r.caller u) = _
    cases r.input.apply toLower r.caller u with
    | error e => rfl
    | ok u =>
      apply congrArg (Prog.call (StoreCall.write (.updateUser u)))
      funext ans
      cases ans <;> rfl

theorem ownTenant_eq_ok {p : Principal} {ans : Except StoreError User} (h : ownTenant p ans = .ok u) : ans = .ok u := by
  unfold ownTenant at h
  grind

theorem userByID_mem (h : s.userByID id = .ok u) : u ∈ s.users := by
  obtain ⟨_, -, h⟩ := Fallible.bind_eq_ok.mp h
  exact List.mem_of_find?_eq_some (Fallible.get_eq_ok.mp h)

variable {K K' : UserInput → Prop} {wrote : Prop} {op : StoreCall}
variable {next : op.Answer → Prog StoreCall StoreCall.Answer (Except ApiError Nat)}

theorem Stage.not_wrote (h : Stage toLower id r K wrote (.call op next)) (hloads : Loads op) : ¬wrote := by
  generalize hp : Prog.call op next = p at h
  cases h with
  | loading hwrote => exact hwrote
  | writing hwrote => exact hwrote
  | settling hwrote honly =>
    subst hp
    obtain ⟨_, rfl | rfl⟩ := honly.1 <;> cases hloads
  | failed => cases hp

/-- One call of a request, and where the request is then. At its load the stored account has
the values that it has to keep. -/
theorem Stage.call (h : Stage toLower id r K wrote (.call op next))
    (hload : Loads op → ∀ other, K' other → Stored id other s ∧ other.Apart r.input)
    (hkeep : ¬Loads op → ∀ other, K' other → K other) :
    Stage toLower id r K' (Writes s op ∨ wrote) (next (op.exec s).1) := by
  generalize hp : Prog.call op next = p at h
  cases h with
  | loading hwrote =>
    rw [Update.program_eq] at hp
    cases hp
    have hnot : ¬(Writes s (.userByID id) ∨ wrote) := by simpa [Writes] using hwrote
    simp only [StoreCall.exec]
    cases hown : ownTenant r.caller (s.userByID id) with
    | error e => exact .failed
    | ok u =>
      have huser := ownTenant_eq_ok hown
      cases happly : r.input.apply toLower r.caller u with
      | error e =>
        simp only [happly]
        exact .failed
      | ok v =>
        simp only [happly]
        obtain ⟨hcarried, hid, -⟩ := UserInput.apply_carried r.input happly
        refine .writing hnot hcarried (fun other hother => ?_) (hid.trans (userByID_id huser))
          (settle_only r.input r.hashes v) fun e => ⟨_, rfl⟩
        obtain ⟨hstored, hapart⟩ := hload rfl other hother
        exact (UserInput.apply_carried other happly).2.2 hapart (hstored u (userByID_mem huser) (userByID_id huser))
  | @writing u next hwrote hcarried hkeeps hid hok herror =>
    cases hp
    simp only [StoreCall.exec, StoreWrite.result]
    cases hresult : s.updateUser u with
    | error e =>
      obtain ⟨e', he'⟩ := herror e
      simp only [he']
      exact .failed
    | ok s' => exact .settling (.inl (by simp [Writes, hresult, Except.isOk, Except.toBool])) hok
  | settling hwrote honly =>
    subst hp
    exact .settling (.inr hwrote) (honly.2 _)
  | failed => cases hp

/-! ## What the calls store -/

/-- The calls after the write leave the fields of an update alone. -/
theorem Stored.settles (hop : Settles op) (h : Stored id input s) : Stored id input (op.exec s).2 := by
  obtain ⟨id', rfl | rfl⟩ := hop
  · simp only [StoreCall.exec, StoreWrite.result]
    cases hresult : s.updatePassword id' true with
    | error e => exact h
    | ok s' =>
      obtain ⟨_, -, hresult⟩ := Fallible.bind_eq_ok.mp hresult
      obtain ⟨_, -, hresult⟩ := Fallible.bind_eq_ok.mp hresult
      cases hresult
      intro v hv hid
      obtain ⟨v', hv', rfl⟩ := List.mem_map.mp hv
      by_cases hpassword : v'.id = id'
      · simp only [if_pos hpassword] at hid ⊢
        exact h v' hv' hid
      · simp only [if_neg hpassword] at hid ⊢
        exact h v' hv' hid
  · simp only [StoreCall.exec, StoreWrite.result]
    cases hresult : s.deleteUserSessions id' with
    | error e => exact h
    | ok s' =>
      obtain ⟨_, -, hresult⟩ := Fallible.bind_eq_ok.mp hresult
      cases hresult
      exact h

/-- The write stores the account it was given. -/
theorem updateUser_stored (hs : Keyed s) (hresult : s.updateUser u = .ok s') (h : input.Carried u) :
    Stored u.id input s' := by
  obtain ⟨v, -, -, -, honly⟩ := updateUser_stores hs hresult
  intro v' hv' hid
  rw [honly v' hv' hid]
  exact h

/-- What a call leaves stored, and what it stores if it writes. -/
theorem Stage.stored (hs : Keyed s) (h : Stage toLower id r K wrote (.call op next)) :
    (Writes s op → Stored id r.input (op.exec s).2 ∧ ∀ other, K other → Stored id other (op.exec s).2) ∧
      (¬Writes s op → ∀ other, Stored id other s → Stored id other (op.exec s).2) := by
  generalize hp : Prog.call op next = p at h
  cases h with
  | loading =>
    rw [Update.program_eq] at hp
    cases hp
    exact ⟨fun h => (by cases h), fun _ _ h => h⟩
  | @writing u _ _ hcarried hkeeps hid =>
    cases hp
    subst hid
    cases hresult : s.updateUser u with
    | error e =>
      simp only [StoreCall.exec, StoreWrite.result, Writes, hresult]
      exact ⟨fun h => (by cases h), fun _ _ h => h⟩
    | ok s' =>
      simp only [StoreCall.exec, StoreWrite.result, Writes, hresult]
      exact ⟨fun _ => ⟨updateUser_stored hs hresult hcarried, fun other hother =>
        updateUser_stored hs hresult (hkeeps other hother)⟩, fun h => absurd rfl h⟩
  | settling hwrote honly =>
    subst hp
    refine ⟨fun hwrites => ?_, fun _ _ h => h.settles honly.1⟩
    obtain ⟨_, rfl | rfl⟩ := honly.1 <;> cases hwrites
  | failed => cases hp

/-! ## Runs -/

variable {updates : List Update} {t t' : Updates} {i : Nat}

/-- The inputs of requests. -/
def inputsOf (updates : List Update) (requests : List Nat) (input : UserInput) : Prop :=
  ∃ j ∈ requests, ∃ r, updates[j]? = some r ∧ r.input = input

/-- What holds of the requests on an account in every run of fresh writes. -/
structure Updating (toLower : String → String) (id : Nat) (updates : List Update) (t : Updates) : Prop where
  keyed : Keyed t.pool.shared
  stage : ∀ (i : Nat) r p, updates[i]? = some r → t.pool.running[i]? = some p →
    Stage toLower id r (inputsOf updates (t.seen i)) (i ∈ t.wrote) p
  /-- Every program is of a request. -/
  request : ∀ (i : Nat) p, t.pool.running[i]? = some p → ∃ r, updates[i]? = some r
  kept : Kept id updates t

theorem Updates.step_eq (h : t.step toLower i = some t') : ∃ op next,
    t.pool.running[i]? = some (.call op next) ∧ t.pool.next (.advance i : Label UserRequest) = some op ∧
      t' = ⟨⟨(op.exec t.pool.shared).2, t.pool.running.set i (next (op.exec t.pool.shared).1)⟩,
        if Writes t.pool.shared op then i :: t.wrote else t.wrote,
        if Loads op then Function.update t.seen i t.wrote else t.seen⟩ := by
  obtain ⟨pool, hpool, rfl⟩ := Option.map_eq_some_iff.mp h
  obtain ⟨op, next, hrunning, rfl⟩ := step_advance hpool
  have hnext : t.pool.next (.advance i : Label UserRequest) = some op := by simp only [Pool.next, hrunning]
  exact ⟨op, next, hrunning, hnext, by simp only [hnext, Option.any_some]⟩

theorem Updating.init (hs : Keyed s) : Updating toLower id updates (Updates.init toLower id s updates) where
  keyed := hs
  stage i r p hr hp := by
    simp only [Updates.init, List.getElem?_map, hr, Option.map_some, Option.some.injEq] at hp
    subst hp
    exact .loading (by simp [Updates.init])
  request i p hp := by
    simp only [Updates.init, List.getElem?_map, Option.map_eq_some_iff] at hp
    obtain ⟨r, hr, -⟩ := hp
    exact ⟨r, hr⟩
  kept i hi := by cases hi

/-- No two requests set one field. -/
def PairwiseApart (updates : List Update) : Prop :=
  ∀ (i j : Nat) a b, i ≠ j → updates[i]? = some a → updates[j]? = some b → a.input.Apart b.input

/-- Only the request that makes the call moves; what it has to keep is what it has loaded. -/
theorem Updating.stage_step (hapart : PairwiseApart updates) (h : Updating toLower id updates t)
    (hr : updates[i]? = some r)
    (hstage : Stage toLower id r (inputsOf updates (t.seen i)) (i ∈ t.wrote) (.call op next)) :
    Stage toLower id r (inputsOf updates (if Loads op then t.wrote else t.seen i))
      (Writes t.pool.shared op ∨ i ∈ t.wrote) (next (op.exec t.pool.shared).1) := by
  refine hstage.call (fun hloads other hother => ?_) fun hloads other hother => by simpa [hloads] using hother
  simp only [hloads, if_true] at hother
  obtain ⟨j, hj, r', hr', rfl⟩ := hother
  have hne : j ≠ i := by
    rintro rfl
    exact hstage.not_wrote hloads hj
  exact ⟨h.kept j hj r' hr', hapart j i r' r hne hr' hr⟩

/-- A fresh write stores the values of every request that has written. -/
theorem Updating.kept_step (h : Updating toLower id updates t) (hr : updates[i]? = some r)
    (hstage : Stage toLower id r (inputsOf updates (t.seen i)) (i ∈ t.wrote) (.call op next))
    (hfresh : Writes t.pool.shared op → ∀ j ∈ t.wrote, j ∈ t.seen i) :
    ∀ j ∈ (if Writes t.pool.shared op then i :: t.wrote else t.wrote), ∀ r', updates[j]? = some r' →
      Stored id r'.input (op.exec t.pool.shared).2 := by
  intro j hj r' hr'
  obtain ⟨hwrite, hleave⟩ := hstage.stored h.keyed
  by_cases hwrites : Writes t.pool.shared op
  · obtain ⟨hown, hkeeps⟩ := hwrite hwrites
    rw [if_pos hwrites, List.mem_cons] at hj
    obtain rfl | hj := hj
    · cases hr.symm.trans hr'
      exact hown
    · exact hkeeps r'.input ⟨j, hfresh hwrites j hj, r', hr', rfl⟩
  · rw [if_neg hwrites] at hj
    exact hleave hwrites r'.input (h.kept j hj r' hr')

theorem Updating.step (hapart : PairwiseApart updates) (h : Updating toLower id updates t) (hfresh : Fresh t i)
    (hstep : t.step toLower i = some t') : Updating toLower id updates t' := by
  obtain ⟨op, next, hrunning, hnext, rfl⟩ := Updates.step_eq hstep
  obtain ⟨r, hr⟩ := h.request i _ hrunning
  have hstage := h.stage i r _ hr hrunning
  rw [Fresh, hnext, Option.any_some] at hfresh
  refine ⟨op.exec_keyed h.keyed, fun j r' p hr' hp => ?_, fun j p hp => ?_, h.kept_step hr hstage hfresh⟩
  · by_cases hj : i = j
    · subst hj
      cases hr.symm.trans hr'
      rw [List.getElem?_set_self (List.getElem?_eq_some_iff.mp hrunning).1] at hp
      cases hp
      have hnew := h.stage_step hapart hr hstage
      split <;> split <;> simp_all
    · rw [List.getElem?_set_ne hj] at hp
      have hsame := h.stage j r' p hr' hp
      split <;> split <;> simpa [Ne.symm hj] using hsame
  · by_cases hj : i = j
    · exact ⟨r, hj ▸ hr⟩
    · rw [List.getElem?_set_ne hj] at hp
      exact h.request j p hp

/-- A request that succeeds has written the account. -/
theorem Updating.wrote_of_ok (h : Updating toLower id updates t) {n : Nat} (hr : updates[i]? = some r)
    (hdone : t.pool.running[i]? = some (.done (.ok n))) : i ∈ t.wrote := by
  have hstage := h.stage i r _ hr hdone
  generalize hp : Prog.done (Except.ok n) = p at hstage
  cases hstage with
  | loading =>
    rw [Update.program_eq] at hp
    cases hp
  | writing => cases hp
  | settling hwrote => exact hwrote
  | failed => cases hp

end

/-- Updates of different fields of an account, however their calls are interleaved: if each
write comes from a request that loaded the account after all writes before it, then the
account always has the values of all requests that have written it, and every request that
succeeds has written. -/
theorem updates_kept (toLower : String → String) {id : Nat} {s : Store} (hs : Keyed s) (updates : List Update)
    (hapart : PairwiseApart updates) (calls : List Nat)
    (hfresh : Transition.Guarded (Updates.step toLower) Fresh (Updates.init toLower id s updates) calls) :
    Transition.Always (Updates.step toLower)
      (fun t => Kept id updates t ∧
        ∀ (i : Nat) r n, updates[i]? = some r → t.pool.running[i]? = some (.done (.ok n)) → i ∈ t.wrote)
      (Updates.init toLower id s updates) calls := by
  have hupdating : Transition.Always (Updates.step toLower) (Updating toLower id updates) _ calls :=
    hfresh.always (fun t i t' ht hfresh ht' => ht.step hapart hfresh ht') (.init hs)
  exact hupdating.imp fun t ht => ⟨ht.kept, fun i r n => ht.wrote_of_ok⟩

/-- An administrator renames the account and another one disables it. -/
def renameAndDisable : List Update :=
  [⟨userPrincipal (adminAccount 1) none, { displayName := some "Ops" }, true⟩,
   ⟨userPrincipal (adminAccount 1) none, { disabled := some true }, true⟩]

/-- The request that renames loads the account before the other one writes it, and writes after it. -/
theorem rename_undoes_disable :
    ∃ t, Transition.run (Updates.step id) (Updates.init id 2 twoAdmins renameAndDisable) [0, 1, 1, 1, 0] = some t ∧
      t.pool.running = [.done (.ok 200), .done (.ok 200)] ∧
      t.pool.shared.users = [adminAccount 1, { adminAccount 2 with displayName := "Ops" }] ∧
      ¬Kept 2 renameAndDisable t := by
  refine ⟨_, rfl, rfl, rfl, fun hkept => ?_⟩
  have hdisabled := (hkept 1 (by decide) _ rfl { adminAccount 2 with displayName := "Ops" } (by decide) rfl).2.2
  cases hdisabled true rfl

theorem updates_kept_renameAndDisable :
    Transition.Guarded (Updates.step id) Fresh (Updates.init id 2 twoAdmins renameAndDisable) [0, 0, 1, 1, 1] ∧
    Transition.Always (Updates.step id)
      (fun t => Kept 2 renameAndDisable t ∧
        ∀ (i : Nat) r n, renameAndDisable[i]? = some r → t.pool.running[i]? = some (.done (.ok n)) → i ∈ t.wrote)
      (Updates.init id 2 twoAdmins renameAndDisable) [0, 0, 1, 1, 1] := by
  have hapart : PairwiseApart renameAndDisable := by
    intro i j a b hij ha hb
    match i, j with
    | 0, 0 => exact absurd rfl hij
    | 0, 1 => cases ha; cases hb; exact ⟨.inl rfl, .inr rfl, .inl rfl⟩
    | 1, 0 => cases ha; cases hb; exact ⟨.inl rfl, .inl rfl, .inr rfl⟩
    | 1, 1 => exact absurd rfl hij
    | i + 2, _ => cases ha
    | _, j + 2 => cases hb
  have hfresh : Transition.Guarded (Updates.step id) Fresh (Updates.init id 2 twoAdmins renameAndDisable)
      [0, 0, 1, 1, 1] := by decide
  exact ⟨hfresh, updates_kept id twoAdmins_keyed renameAndDisable hapart [0, 0, 1, 1, 1] hfresh⟩

end Syslogc.Api
