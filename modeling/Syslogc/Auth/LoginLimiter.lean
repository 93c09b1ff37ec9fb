-- SUMMARY: The limiter of login attempts.
import Syslogc.Lib.Instants
import Syslogc.Lib.Lists

/-!
# The login limiter

Every attempt asks the limiter first, and reports its outcome to it unless the user store
failed. Attempts overlap, so that the limiter sees the calls of many of them in any order;
each call holds its lock. The table of addresses and the table of names are both bounded:
a table that has grown beyond its bound is emptied before the next new entry.
-/

namespace Syslogc.Auth

open Instants

/-! ## The limiter -/

/-- A limiter of package `rate`, which admits ten attempts at once and one more every six
seconds. -/
structure RateLimiter where
  State : Type
  fresh : State
  allow : State → Int → Bool × State
  /-- The first attempt is admitted. -/
  fresh_allows : ∀ now, (allow fresh now).1 = true

structure FailureState where
  count : Nat := 0
  /-- There is none for the zero time, which no reading of the clock precedes. -/
  untilTime : Option Int := none
deriving DecidableEq, Repr

structure LoginLimiter (rl : RateLimiter) where
  perIP : List (String × rl.State) := []
  failures : List (String × FailureState) := []

def maxEntries : Nat := 100000

/-- The delay after so many failures, at most a quarter of an hour. -/
def delay (count : Nat) : Int := min (second * 2 ^ min (count - 5) 10) (15 * Instants.minute)

variable (rl : RateLimiter) (toLower : String → String)

/-- The rate of an address. -/
def LoginLimiter.underRate (l : LoginLimiter rl) (ip : String) (now : Int) : Bool × LoginLimiter rl :=
  let perIP := if maxEntries < l.perIP.length then [] else l.perIP
  let answer := rl.allow ((perIP.lookup ip).getD rl.fresh) now
  (answer.1, { l with perIP := Lists.assign ip answer.2 perIP })

/-- The delay of a name has not passed. -/
def LoginLimiter.delayed (l : LoginLimiter rl) (username : String) (now : Int) : Bool :=
  ((l.failures.lookup (toLower username)).bind FailureState.untilTime).any (now < ·)

def LoginLimiter.allow (l : LoginLimiter rl) (ip username : String) (now : Int) : Bool × LoginLimiter rl :=
  match l.underRate rl ip now with
  | (false, l) => (false, l)
  | (true, l) => (!l.delayed rl toLower username now, l)

def FailureState.fail (f : FailureState) (now : Int) : FailureState :=
  let count := f.count + 1
  ⟨count, if 5 ≤ count then some (now + delay count) else f.untilTime⟩

def LoginLimiter.failure (l : LoginLimiter rl) (username : String) (now : Int) : LoginLimiter rl :=
  let key := toLower username
  match l.failures.lookup key with
  | some f => { l with failures := Lists.assign key (f.fail now) l.failures }
  | none =>
    let failures := if maxEntries < l.failures.length then [] else l.failures
    { l with failures := Lists.assign key (FailureState.fail {} now) failures }

def LoginLimiter.success (l : LoginLimiter rl) (username : String) : LoginLimiter rl :=
  { l with failures := l.failures.filter (·.1 ≠ toLower username) }

/-! ## Attempts -/

inductive Call where
  | allow (ip username : String) (now : Int)
  | failure (ip username : String) (now : Int)
  | success (username : String)
deriving DecidableEq, Repr

def LoginLimiter.step (l : LoginLimiter rl) : Call → LoginLimiter rl
  | .allow ip username now => (l.allow rl toLower ip username now).2
  | .failure _ username now => l.failure rl toLower username now
  | .success username => l.success rl toLower username

/-- The limiter after a sequence of calls. -/
def LoginLimiter.run (calls : List Call) : LoginLimiter rl := calls.foldl (LoginLimiter.step rl toLower) {}

/-! ## Failures since the last success -/

/-- How often a name has failed since it last succeeded, and when it last failed. -/
structure Streak where
  count : Nat := 0
  last : Option Int := none
deriving DecidableEq, Repr

def Streak.step (key : String) (s : Streak) : Call → Streak
  | .allow .. => s
  | .failure _ username now => if toLower username = key then ⟨s.count + 1, some now⟩ else s
  | .success username => if toLower username = key then {} else s

def streak (key : String) (calls : List Call) : Streak := calls.foldl (Streak.step toLower key) {}

def Call.time : Call → Option Int
  | .allow _ _ now => some now
  | .failure _ _ now => some now
  | .success _ => none

def times (calls : List Call) : List Int := calls.filterMap Call.time

variable {rl toLower} {l : LoginLimiter rl} {key ip username : String} {now t : Int} {n : Nat} {calls : List Call}

/-- How many failures the table knows of. -/
def LoginLimiter.remembered (l : LoginLimiter rl) (key : String) : Nat :=
  ((l.failures.lookup key).map FailureState.count).getD 0

theorem allow_eq (l : LoginLimiter rl) (ip username : String) (now : Int) :
    l.allow rl toLower ip username now =
      ((l.underRate rl ip now).1 && !l.delayed rl toLower username now, (l.underRate rl ip now).2) := by
  have hdelayed : (l.underRate rl ip now).2.delayed rl toLower username now = l.delayed rl toLower username now := rfl
  unfold LoginLimiter.allow
  split
  next h => rw [h, Bool.false_and]
  next h =>
    rw [h] at hdelayed
    rw [h, Bool.true_and, ← hdelayed]

@[simp] theorem allow_failures (l : LoginLimiter rl) (ip username : String) (now : Int) :
    (l.allow rl toLower ip username now).2.failures = l.failures := by
  rw [allow_eq]
  rfl

/-- After a failure the table has the name, with a count that went up by one or begins anew. -/
theorem LoginLimiter.failure_lookup (l : LoginLimiter rl) (toLower : String → String) (username : String) (now : Int) :
    ∃ f : FailureState, (f = {} ∨ l.failures.lookup (toLower username) = some f) ∧
      (l.failure rl toLower username now).failures.lookup (toLower username) = some (f.fail now) := by
  unfold LoginLimiter.failure
  dsimp only
  split
  next f hf => exact ⟨f, .inr hf, by simp [Lists.lookup_assign]⟩
  next => exact ⟨{}, .inl rfl, by simp [Lists.lookup_assign]⟩

/-- An address that was not seen yet is admitted. -/
theorem exists_admitted (l : LoginLimiter rl) (now : Int) : ∃ ip, (l.underRate rl ip now).1 = true := by
  obtain ⟨ip, hip⟩ := Infinite.exists_notMem_finset (l.perIP.map Prod.fst).toFinset
  refine ⟨ip, ?_⟩
  have hnone : (if maxEntries < l.perIP.length then [] else l.perIP).lookup ip = none := by
    split
    · rfl
    · exact Lists.lookup_eq_none.mpr fun hmem => hip (List.mem_toFinset.mpr hmem)
  simp only [LoginLimiter.underRate, hnone, Option.getD_none]
  exact rl.fresh_allows now

theorem exists_latest (ht : t ∈ times calls) : ∃ latest ∈ times calls, ∀ x ∈ times calls, x ≤ latest := by
  obtain ⟨latest, hmem, hmax⟩ := (times calls).toFinset.exists_max_image id ⟨t, by simpa using ht⟩
  exact ⟨latest, by simpa using hmem, fun x hx => hmax x (by simpa using hx)⟩

/-- Five attempts with a wrong password. -/
def fiveFailures : List Call := (List.range 5).map fun i => .failure "10.0.0.1" "alice" i

/-- A limiter that never admits more than ten. -/
def tenOnly : RateLimiter where
  State := Nat
  fresh := 0
  allow n _ := (decide (n < 10), n + 1)
  fresh_allows _ := rfl

/-! ## Few names -/

/-- The names that have failed. -/
def failedNames (toLower : String → String) (calls : List Call) : List String :=
  calls.filterMap fun
    | .failure _ username _ => some (toLower username)
    | _ => none

theorem failedNames_subset {more : List Call} :
    (failedNames toLower calls).toFinset ⊆ (failedNames toLower (calls ++ more)).toFinset := by
  simp [failedNames, List.filterMap_append, Finset.subset_union_left]

theorem run_append (calls : List Call) (c : Call) :
    LoginLimiter.run rl toLower (calls ++ [c]) = (LoginLimiter.run rl toLower calls).step rl toLower c := by
  simp [LoginLimiter.run]

theorem streak_append (key : String) (calls : List Call) (c : Call) :
    streak toLower key (calls ++ [c]) = (streak toLower key calls).step toLower key c := by
  simp [streak]

def LoginLimiter.keys (l : LoginLimiter rl) : List String := l.failures.map Prod.fst

/-- A failure adds its name to the table, and may empty it before. -/
theorem failure_keys (toLower : String → String) (hnodup : l.keys.Nodup) (username : String) (now : Int) :
    (l.failure rl toLower username now).keys.Nodup ∧
      ∀ k ∈ (l.failure rl toLower username now).keys, k = toLower username ∨ k ∈ l.keys := by
  unfold LoginLimiter.failure LoginLimiter.keys at *
  dsimp only
  split
  · exact ⟨Lists.nodup_keys_assign hnodup, fun k => Lists.mem_keys_assign.mp⟩
  · split
    · simp [Lists.assign]
    · exact ⟨Lists.nodup_keys_assign hnodup, fun k => Lists.mem_keys_assign.mp⟩

theorem keys_run (calls : List Call) : (LoginLimiter.run rl toLower calls).keys.Nodup ∧
    ∀ k ∈ (LoginLimiter.run rl toLower calls).keys, k ∈ failedNames toLower calls := by
  induction calls using List.reverseRecOn with
  | nil => exact ⟨List.nodup_nil, by rintro _ ⟨⟩⟩
  | append_singleton calls c ih =>
    obtain ⟨hnodup, hmem⟩ := ih
    rw [run_append]
    have hbefore : ∀ k ∈ failedNames toLower calls, k ∈ failedNames toLower (calls ++ [c]) := by
      intro k hk
      simp only [failedNames, List.filterMap_append, List.mem_append]
      exact .inl hk
    cases c with
    | allow ip username now =>
      simp only [LoginLimiter.step, LoginLimiter.keys, allow_failures]
      exact ⟨hnodup, fun k hk => hbefore k (hmem k hk)⟩
    | failure ip username now =>
      obtain ⟨hnodup', hmem'⟩ := failure_keys toLower hnodup username now
      refine ⟨hnodup', fun k hk => ?_⟩
      rcases hmem' k hk with rfl | hk
      · simp [failedNames]
      · exact hbefore k (hmem k hk)
    | success username =>
      have hsub : List.Sublist ((LoginLimiter.run rl toLower calls).success rl toLower username).keys
          (LoginLimiter.run rl toLower calls).keys := List.filter_sublist.map _
      exact ⟨hnodup.sublist hsub, fun k hk => hbefore k (hmem k (hsub.mem hk))⟩

theorem failure_remembered (key : String) (now : Int)
    (hroom : l.failures.lookup (toLower username) = none → l.failures.length ≤ maxEntries) :
    (l.failure rl toLower username now).remembered key =
      if toLower username = key then l.remembered key + 1 else l.remembered key := by
  unfold LoginLimiter.failure LoginLimiter.remembered
  by_cases hkey : toLower username = key
  · rw [if_pos hkey, hkey]
    cases hf : l.failures.lookup key with
    | none => simp [hf, Lists.lookup_assign, FailureState.fail]
    | some f => simp [hf, Lists.lookup_assign, FailureState.fail]
  · rw [if_neg hkey]
    cases hf : l.failures.lookup (toLower username) with
    | none =>
      have hroom := hroom hf
      simp [hf, Lists.lookup_assign, Ne.symm hkey, not_lt.mpr hroom]
    | some f => simp [hf, Lists.lookup_assign, Ne.symm hkey]

theorem success_remembered (l : LoginLimiter rl) (key username : String) :
    (l.success rl toLower username).remembered key = if toLower username = key then 0 else l.remembered key := by
  simp only [LoginLimiter.success, LoginLimiter.remembered, Lists.lookup_filter_ne, eq_comm]
  split <;> rfl

/-- The new name and those of the table are among the names that have failed. -/
theorem room_of_few (h : (failedNames toLower (calls ++ [.failure ip username now])).toFinset.card ≤ maxEntries + 1)
    (hnone : (LoginLimiter.run rl toLower calls).failures.lookup (toLower username) = none) :
    (LoginLimiter.run rl toLower calls).failures.length ≤ maxEntries := by
  obtain ⟨hnodup, hmem⟩ : (LoginLimiter.run rl toLower calls).keys.Nodup ∧ _ := keys_run calls
  have hnew : toLower username ∉ (LoginLimiter.run rl toLower calls).keys := Lists.lookup_eq_none.mp hnone
  have hall : (toLower username :: (LoginLimiter.run rl toLower calls).keys).toFinset ⊆
      (failedNames toLower (calls ++ [.failure ip username now])).toFinset := by
    intro k hk
    rcases List.mem_cons.mp (List.mem_toFinset.mp hk) with rfl | hk
    · simp [failedNames]
    · exact failedNames_subset (List.mem_toFinset.mpr (hmem k hk))
  have hcard := (Finset.card_le_card hall).trans h
  rw [List.toFinset_card_of_nodup (List.nodup_cons.mpr ⟨hnew, hnodup⟩), List.length_cons,
    LoginLimiter.keys, List.length_map] at hcard
  omega

theorem remembered_run (h : (failedNames toLower calls).toFinset.card ≤ maxEntries + 1) :
    (LoginLimiter.run rl toLower calls).remembered key = (streak toLower key calls).count := by
  induction calls using List.reverseRecOn with
  | nil => rfl
  | append_singleton calls c ih =>
    have ih := ih ((Finset.card_le_card failedNames_subset).trans h)
    rw [run_append, streak_append]
    cases c with
    | allow ip username now => simpa [LoginLimiter.step, Streak.step, LoginLimiter.remembered] using ih
    | success username =>
      simp only [LoginLimiter.step, Streak.step]
      rw [success_remembered, ih]
      split <;> rfl
    | failure ip username now =>
      simp only [LoginLimiter.step, Streak.step]
      rw [failure_remembered key now, ih]
      · split <;> rfl
      · exact room_of_few h

/-- As long as no more names have failed than the table holds, it knows of all failures. -/
theorem remembered_eq_streak (h : (failedNames toLower calls).toFinset.card ≤ maxEntries + 1) (key : String) :
    (LoginLimiter.run rl toLower calls).remembered key = (streak toLower key calls).count :=
  remembered_run h

theorem remembered_eq_streak_five :
    (failedNames id fiveFailures).toFinset.card ≤ maxEntries + 1 ∧
      (LoginLimiter.run tenOnly id fiveFailures).remembered "alice" = (streak id "alice" fiveFailures).count := by
  have h : (failedNames id fiveFailures).toFinset.card ≤ maxEntries + 1 := by decide
  exact ⟨h, remembered_eq_streak h "alice"⟩

/-! ## How long a delay is kept -/

/-- The name whose attempt has an outcome. -/
def Call.reports (toLower : String → String) : Call → Option String
  | .allow .. => none
  | .failure _ username _ => some (toLower username)
  | .success username => some (toLower username)

/-- Until when a name is delayed. -/
def LoginLimiter.deadline (l : LoginLimiter rl) (key : String) : Option Int :=
  (l.failures.lookup key).bind FailureState.untilTime

/-- No call empties the table: a name that is not in it fails only while there is room. -/
def Roomy (toLower : String → String) : LoginLimiter rl → List Call → Prop
  | _, [] => True
  | l, c :: calls =>
    (∀ ip username now, c = .failure ip username now → l.failures.lookup (toLower username) = none →
      l.failures.length ≤ maxEntries) ∧ Roomy toLower (l.step rl toLower c) calls

theorem Roomy.cons_failure {ip username : String} {now : Int} :
    Roomy toLower l (.failure ip username now :: calls) ↔
      (l.failures.lookup (toLower username) = none → l.failures.length ≤ maxEntries) ∧
        Roomy toLower (l.failure rl toLower username now) calls := by
  rw [Roomy]
  refine and_congr_left fun _ => ⟨fun h => h _ _ _ rfl, ?_⟩
  rintro h _ _ _ ⟨⟩
  exact h

theorem Roomy.cons_other {c : Call} (h : ∀ ip username now, c ≠ .failure ip username now) :
    Roomy toLower l (c :: calls) ↔ Roomy toLower (l.step rl toLower c) calls :=
  and_iff_right fun ip username now heq => absurd heq (h ip username now)

theorem success_lookup (h : toLower username ≠ key) :
    (l.success rl toLower username).failures.lookup key = l.failures.lookup key := by
  rw [LoginLimiter.success, Lists.lookup_filter_ne, if_neg (Ne.symm h)]

/-- The failure of another name forgets what is known of a name exactly if it empties the
table. -/
theorem failure_lookup_ne (now : Int) (h : toLower username ≠ key) :
    (l.failure rl toLower username now).failures.lookup key =
      if l.failures.lookup (toLower username) = none ∧ maxEntries < l.failures.length then none
      else l.failures.lookup key := by
  unfold LoginLimiter.failure
  dsimp only
  cases hother : l.failures.lookup (toLower username) with
  | some f => simp [Lists.lookup_assign, Ne.symm h]
  | none =>
    by_cases hfull : maxEntries < l.failures.length <;> simp [Lists.lookup_assign, Ne.symm h, hfull]

/-- What is forgotten stays forgotten until the name fails again. -/
theorem quiet_none (hquiet : ∀ c ∈ calls, c.reports toLower ≠ some key) (h : l.failures.lookup key = none) :
    (calls.foldl (LoginLimiter.step rl toLower) l).failures.lookup key = none := by
  induction calls generalizing l with
  | nil => exact h
  | cons c calls ih =>
    obtain ⟨hc, hcalls⟩ := List.forall_mem_cons.mp hquiet
    refine ih hcalls ?_
    cases c with
    | allow ip username now => simpa [LoginLimiter.step] using h
    | success username => exact (success_lookup fun heq => hc (congrArg some heq)).trans h
    | failure ip username now =>
      rw [LoginLimiter.step, failure_lookup_ne now fun heq => hc (congrArg some heq), h, ite_self]

/-- As long as a name has no outcome, what is known of it is kept exactly if the table is
not emptied. -/
theorem quiet_some {f : FailureState} (hquiet : ∀ c ∈ calls, c.reports toLower ≠ some key)
    (h : l.failures.lookup key = some f) :
    (Roomy toLower l calls ∧ (calls.foldl (LoginLimiter.step rl toLower) l).failures.lookup key = some f) ∨
      (¬Roomy toLower l calls ∧ (calls.foldl (LoginLimiter.step rl toLower) l).failures.lookup key = none) := by
  induction calls generalizing l with
  | nil => exact .inl ⟨trivial, h⟩
  | cons c calls ih =>
    obtain ⟨hc, hcalls⟩ := List.forall_mem_cons.mp hquiet
    rw [List.foldl_cons]
    cases c with
    | allow ip username now =>
      rw [Roomy.cons_other (by rintro _ _ _ ⟨⟩)]
      exact ih hcalls (by simpa [LoginLimiter.step] using h)
    | success username =>
      rw [Roomy.cons_other (by rintro _ _ _ ⟨⟩)]
      exact ih hcalls ((success_lookup fun heq => hc (congrArg some heq)).trans h)
    | failure ip username now =>
      have hlookup := failure_lookup_ne (l := l) now fun heq => hc (congrArg some heq)
      by_cases hreset : l.failures.lookup (toLower username) = none ∧ maxEntries < l.failures.length
      · rw [if_pos hreset] at hlookup
        refine .inr ⟨fun hroom => ?_, quiet_none hcalls hlookup⟩
        exact absurd ((Roomy.cons_failure.mp hroom).1 hreset.1) (not_le.mpr hreset.2)
      · rw [if_neg hreset, h] at hlookup
        rw [Roomy.cons_failure, and_iff_right fun hnone => not_lt.mp fun hfull => hreset ⟨hnone, hfull⟩]
        exact ih hcalls hlookup

theorem roomy_of_few {before after : List Call}
    (h : (failedNames toLower (before ++ after)).toFinset.card ≤ maxEntries + 1) :
    Roomy toLower (LoginLimiter.run rl toLower before) after := by
  induction after generalizing before with
  | nil => trivial
  | cons c after ih =>
    rw [← List.singleton_append, ← List.append_assoc] at h
    refine ⟨?_, run_append before c ▸ ih h⟩
    rintro ip username now rfl
    exact room_of_few ((Finset.card_le_card failedNames_subset).trans h)

theorem run_failure {before after : List Call} :
    LoginLimiter.run rl toLower (before ++ .failure ip username t :: after) =
      after.foldl (LoginLimiter.step rl toLower)
        (LoginLimiter.run rl toLower (before ++ [.failure ip username t])) := by
  simp [LoginLimiter.run]

/-- A name has failed five times or more without a success, the last time at `t`, and has no
other outcome since. If that failure set a delay, the name is refused from every address until
the delay has passed, exactly if it has passed already or no call since has emptied the
table. If no more names than the table holds have ever failed, the delay was set by all of
the failures, and the table was not emptied. -/
theorem allow_refuses_iff (rl : RateLimiter) (toLower : String → String) (before after : List Call)
    (addr username : String) (t : Int)
    (hn : 5 ≤ (streak toLower (toLower username) (before ++ [.failure addr username t])).count)
    (hquiet : ∀ c ∈ after, c.reports toLower ≠ some (toLower username)) :
    let calls := before ++ .failure addr username t :: after
    let l := LoginLimiter.run rl toLower (before ++ [.failure addr username t])
    (∀ u, l.deadline (toLower username) = some u →
      ((∀ ip name now, toLower name = toLower username → (∀ x ∈ times calls, x ≤ now) → now < u →
          ((LoginLimiter.run rl toLower calls).allow rl toLower ip name now).1 = false) ↔
        (∃ x ∈ times calls, u ≤ x) ∨ Roomy toLower l after)) ∧
    ((failedNames toLower calls).toFinset.card ≤ maxEntries + 1 →
      l.deadline (toLower username) =
          some (t + delay (streak toLower (toLower username) (before ++ [.failure addr username t])).count) ∧
        Roomy toLower l after) := by
  intro calls l
  obtain ⟨f, hf⟩ : ∃ f : FailureState, l.failures.lookup (toLower username) = some (f.fail t) := by
    obtain ⟨f, -, hf⟩ := (LoginLimiter.run rl toLower before).failure_lookup toLower username t
    refine ⟨f, ?_⟩
    rw [← hf]
    simp only [l, run_append]
    rfl
  constructor
  · intro u hu
    have huntil : (f.fail t).untilTime = some u := by simpa [LoginLimiter.deadline, hf] using hu
    have hkept := quiet_some hquiet hf
    constructor
    · intro h
      by_contra hnot
      push Not at hnot
      obtain ⟨hpassed, hroom⟩ := hnot
      have ht : t ∈ times calls := List.mem_filterMap.mpr ⟨.failure addr username t, by simp [calls], rfl⟩
      obtain ⟨latest, hmem, hlatest⟩ := exists_latest ht
      obtain ⟨ip, hip⟩ := exists_admitted (LoginLimiter.run rl toLower calls) latest
      have hrefused := h ip username latest rfl hlatest (hpassed latest hmem)
      rw [allow_eq, hip, LoginLimiter.delayed, run_failure, (hkept.resolve_left fun h => hroom h.1).2] at hrefused
      cases hrefused
    · rintro (⟨x, hx, hpassed⟩ | hroom) ip name now hname hlater hnow
      · exact absurd (hlater x hx) (by omega)
      · have hdelayed : (LoginLimiter.run rl toLower calls).delayed rl toLower name now := by
          rw [LoginLimiter.delayed, run_failure, hname, (hkept.resolve_right fun h => h.1 hroom).2]
          simpa [huntil] using hnow
        simp [allow_eq, hdelayed]
  · intro hfew
    have hcalls : calls = before ++ [.failure addr username t] ++ after := by simp [calls]
    rw [hcalls] at hfew
    refine ⟨?_, roomy_of_few hfew⟩
    have hcount : l.remembered (toLower username) = _ :=
      remembered_run ((Finset.card_le_card failedNames_subset).trans hfew)
    have hfail : f.count + 1 = (streak toLower (toLower username) (before ++ [.failure addr username t])).count := by
      rw [← hcount]
      simp [LoginLimiter.remembered, l, hf, FailureState.fail]
    rw [LoginLimiter.deadline, hf, ← hfail]
    exact if_pos (by omega)

theorem allow_refuses_iff_five :
    5 ≤ (streak id (id "alice") ((List.range 4).map (fun i => .failure "10.0.0.1" "alice" i) ++
        [.failure "10.0.0.1" "alice" 4])).count ∧
      ∀ ip now, 4 ≤ now → now < 4 + delay 5 →
        ((LoginLimiter.run tenOnly id fiveFailures).allow tenOnly id ip "alice" now).1 = false := by
  refine ⟨by decide, fun ip now hlater hnow => ?_⟩
  have h := allow_refuses_iff tenOnly id ((List.range 4).map fun i => .failure "10.0.0.1" "alice" i) [] "10.0.0.1"
    "alice" 4 (by decide) (by simp)
  obtain ⟨hdeadline, hroom⟩ := h.2 (by decide)
  refine (h.1 _ hdeadline).mpr (.inr hroom) ip "alice" now rfl (fun x hx => ?_) hnow
  have hall : ∀ x ∈ times fiveFailures, x ≤ 4 := by decide
  exact (hall x hx).trans hlater

/-! ## Many names -/

/-- The calls of an attempt with a wrong password. -/
def wrong (ip username : String) : List Call := [.allow ip username 0, .failure ip username 0]

/-- The name of a failed attempt that is new is added to the table, which is emptied first if
it has grown beyond its bound. -/
theorem wrong_failures (ip : String) (hname : username ∉ l.keys) :
    ((wrong ip username).foldl (LoginLimiter.step rl id) l).failures =
      (if maxEntries < l.failures.length then [] else l.failures) ++ [(username, ⟨1, none⟩)] := by
  have hnone : l.failures.lookup username = none := Lists.lookup_eq_none.mpr hname
  have hkeys : username ∉ (if maxEntries < l.failures.length then [] else l.failures).map Prod.fst := by
    split
    · exact List.not_mem_nil
    · exact hname
  rw [← Lists.assign_of_not_mem hkeys]
  simp [wrong, LoginLimiter.step, LoginLimiter.failure, hnone]
  rfl

def name (i : Nat) : String := String.ofList (List.replicate i 'x')

theorem name_inj {i j : Nat} (h : name i = name j) : i = j := by
  simpa [name] using congrArg String.length h

theorem name_ne {i : Nat} : name i ≠ "alice" := by
  intro h
  have hmem : 'a' ∈ (name i).toList := h ▸ by decide
  simp [name] at hmem

def guesses : List Call := (List.replicate 5 (wrong "10.0.0.1" "alice")).flatten

/-- One attempt of each of so many other names, each from an address of its own. -/
def others (n : Nat) : List Call := (List.range n).flatMap fun i => wrong (name i) (name i)

def flooded (n : Nat) : LoginLimiter tenOnly := LoginLimiter.run tenOnly id (guesses ++ others n)

theorem others_succ (n : Nat) : others (n + 1) = others n ++ wrong (name n) (name n) := by
  simp [others, List.range_succ]

theorem flooded_succ (n : Nat) :
    flooded (n + 1) = (wrong (name n) (name n)).foldl (LoginLimiter.step tenOnly id) (flooded n) := by
  rw [flooded, others_succ, ← List.append_assoc, LoginLimiter.run, List.foldl_append]
  rfl

/-- The table grows with every new name, up to its bound. -/
theorem flooded_keys {n : Nat} (h : n ≤ maxEntries) :
    (flooded n).failures.length = n + 1 ∧ ∀ k ∈ (flooded n).keys, k = "alice" ∨ ∃ i < n, k = name i := by
  induction n with
  | zero => exact ⟨rfl, fun k hk => .inl (List.mem_singleton.mp hk)⟩
  | succ n ih =>
    obtain ⟨hlength, hkeys⟩ := ih (by omega)
    have hfailures := wrong_failures (name n) fun hmem => (hkeys _ hmem).elim name_ne fun ⟨i, hi, heq⟩ =>
      hi.ne (name_inj heq).symm
    rw [if_neg (by omega), ← flooded_succ] at hfailures
    refine ⟨by rw [hfailures, List.length_append, hlength]; rfl, fun k hk => ?_⟩
    rw [LoginLimiter.keys, hfailures, List.map_append, List.mem_append] at hk
    obtain hk | hk := hk
    · exact (hkeys k hk).imp_right fun ⟨i, hi, heq⟩ => ⟨i, by omega, heq⟩
    · exact .inr ⟨n, by omega, List.mem_singleton.mp hk⟩

/-- With one name more the table is emptied. -/
theorem flooded_emptied : (flooded (maxEntries + 1)).failures = [(name maxEntries, ⟨1, none⟩)] := by
  obtain ⟨hlength, hkeys⟩ := flooded_keys le_rfl
  rw [flooded_succ, wrong_failures, if_pos (by omega)]
  · rfl
  · exact fun hmem => (hkeys _ hmem).elim name_ne fun ⟨i, hi, heq⟩ => hi.ne (name_inj heq).symm

theorem others_quiet (n : Nat) : (∀ c ∈ others n, c.time = some 0) ∧
    ∀ s : Streak, (others n).foldl (Streak.step id "alice") s = s := by
  induction n with
  | zero => exact ⟨by simp [others], fun s => rfl⟩
  | succ n ih =>
    rw [others_succ]
    refine ⟨fun c hc => (List.mem_append.mp hc).elim (ih.1 c) fun hc => ?_, fun s => ?_⟩
    · obtain rfl | rfl : c = _ ∨ c = _ := by simpa [wrong] using hc
      · rfl
      · rfl
    · rw [List.foldl_append, ih.2]
      exact if_neg name_ne

/-- Five wrong passwords of one name, then one of each of many others, all at one instant:
the table is emptied, and the name is admitted before its delay has passed. -/
theorem delay_forgotten : ∃ n,
    let calls := guesses ++ others n
    streak id "alice" calls = ⟨5, some 0⟩ ∧ (∀ x ∈ times calls, x ≤ 0) ∧ 0 < 0 + delay 5 ∧
      ∃ ip, ((LoginLimiter.run tenOnly id calls).allow tenOnly id ip "alice" 0).1 = true := by
  obtain ⟨ip, hip⟩ := exists_admitted (flooded (maxEntries + 1)) 0
  have hnone : (flooded (maxEntries + 1)).failures.lookup "alice" = none := by
    rw [flooded_emptied, Lists.lookup_cons, if_neg name_ne.symm]
    rfl
  refine ⟨maxEntries + 1, ?_⟩
  generalize maxEntries + 1 = n at hip hnone
  refine ⟨?_, fun x hx => ?_, by decide, ip, ?_⟩
  · rw [streak, List.foldl_append, (others_quiet n).2]
    rfl
  · obtain ⟨c, hc, hx⟩ := List.mem_filterMap.mp hx
    have hguesses : ∀ c ∈ guesses, c.time = some 0 := by decide
    have hzero := (List.mem_append.mp hc).elim (hguesses c) ((others_quiet n).1 c)
    exact (Option.some.inj (hx.symm.trans hzero)).le
  · rw [flooded] at hip hnone
    simp [allow_eq, hip, LoginLimiter.delayed, hnone]

end Syslogc.Auth
