-- SUMMARY: What the requests of the query service share.
import Syslogc.Auth.Store
import Syslogc.Query.TimeRange
import Syslogc.Storage.Queries

/-!
# The query service

Every request resolves its selection for its caller, takes one of the caller's slots, and
then asks the log store, once or several times. A request is a function of what it finds:
the clock, the slots in use, and the answers to its queries in the order they are made.
-/

namespace Syslogc.Query

open Instants Fallible
open Syslogc.VictoriaLogs (Failure Answer)

/-- Per-role guards. Zero is no limit on the range and on the slots of queries. -/
structure Limits where
  maxRange : Int
  maxConcurrent : Int
  maxTailSessions : Int
deriving DecidableEq, Repr

structure Options where
  limits : List (Auth.Role × Limits)
  maxTailTotal : Int

structure Service where
  opts : Options
  tailTotal_pos : 0 < opts.maxTailTotal

/-- A number that has a default. -/
def orDefault (n fallback : Int) : Int := if n ≤ 0 then fallback else n

theorem orDefault_pos (n : Int) {fallback : Int} (h : 0 < fallback) : 0 < orDefault n fallback := by
  unfold orDefault
  split
  · exact h
  · exact not_le.mp ‹_›

/-- `NewService`: the limit on live tails has a default. -/
def newService (opts : Options) : Service where
  opts := { opts with maxTailTotal := orDefault opts.maxTailTotal 200 }
  tailTotal_pos := orDefault_pos _ (by decide)

inductive ServiceError where
  | input (code pointer message : Bytes)
  | forbidden (message : Bytes)
  | tooManyQueries
  | queryTimeout
  | canceled
  | storageUnavailable (message : Bytes)
deriving DecidableEq, Repr

def invalidRange (message : Bytes) : ServiceError := .input (utf8 "invalid_time_range") (utf8 "/time_range") message

def validationFailed (pointer message : Bytes) : ServiceError := .input (utf8 "validation_failed") pointer message

/-- `mapErr`: what the caller is told of a query that failed. -/
def mapErr : Failure → ServiceError
  | .deadline => .queryTimeout
  | .canceled => .canceled
  | .storage (.query _ message userFacing) =>
    if userFacing then .input (utf8 "query_invalid") (utf8 "/native/text") message else .storageUnavailable message
  | .storage (.invalid e _) => validationFailed e.pointer e.message
  | .storage .pipesNotAllowed =>
    .input (utf8 "query_invalid") (utf8 "/native/text") (utf8 "pipes (|) are not supported for this request")
  | .storage (.other message) =>
    if utf8 "IPv6" <:+: message then validationFailed (utf8 "/filter") message else .storageUnavailable message
  | .storage (.unsupportedDialect dialect) => .storageUnavailable (utf8 "unsupported query dialect: " ++ dialect)

/-- What a request finds. -/
structure Env (Log : Type) where
  now : Int
  /-- How many queries of the caller are running. -/
  inflight : Nat := 0
  answer : Nat → Answer Log

structure Selection where
  timeRange : TimeRange
  filter : Filter.Expr := .null
  native : Option VictoriaLogs.NativeQuery := none

structure Resolved (gt : GoTime) where
  sel : VictoriaLogs.Selection
  loc : gt.Location
  limits : Limits

variable {Log : Type} (go : Filter.GoLib) (gt : GoTime) (svc : Service) (p : Auth.Principal) (env : Env Log)

/-- A caller without a known role has the limits of a viewer. -/
def Service.limitsFor : Limits :=
  match p.role.bind fun role => svc.opts.limits.lookup role with
  | some limits => limits
  | none => (svc.opts.limits.lookup .viewer).getD ⟨0, 0, 0⟩

/-- The native part of a selection; a blank text is none. -/
def resolveNative (native : Option VictoriaLogs.NativeQuery) :
    Except ServiceError (Option VictoriaLogs.NativeQuery) :=
  match native with
  | none => .ok none
  | some n =>
    if n.text.trimSpace = [] then .ok none
    else do
      ensure (p.can .logsQueryNative) (.forbidden (utf8 "forbidden: native queries require logs:query_native"))
      ensure (n.dialect = utf8 "logsql") (validationFailed (utf8 "/native/dialect") (utf8 "unsupported dialect"))
      ensure (n.text.length ≤ 16384) (validationFailed (utf8 "/native/text") (utf8 "native query too long"))
      return some n

/-- `resolve`: the selection of a request, checked for its caller. -/
def Service.resolve (now : Int) (sel : Selection) : Except ServiceError (Resolved gt) := do
  let (range, loc) ← (resolveRange gt sel.timeRange now).mapError invalidRange
  let limits := svc.limitsFor p
  ensure (!(0 < limits.maxRange && limits.maxRange < span range)) (invalidRange
    (utf8 "time range exceeds the maximum of " ++ formatStep limits.maxRange ++ utf8 " for your role"))
  (Filter.validate go sel.filter).mapError fun e => validationFailed e.pointer e.message
  let native ← resolveNative p sel.native
  return { sel := { tenant := utf8 p.tenant, range, filter := sel.filter, native }, loc, limits }

/-- `acquire`: one of the slots of the caller. -/
def acquire (limits : Limits) : Except ServiceError Unit :=
  ensure (!(0 < limits.maxConcurrent && limits.maxConcurrent ≤ env.inflight)) .tooManyQueries

/-- The error of a query as the caller is told it. -/
def told {α : Type} (x : Except Failure α) : Except ServiceError α := x.mapError mapErr

/-- A number that must not exceed a limit, with a default for none. -/
def bounded (n fallback limit : Int) (error : ServiceError) : Except ServiceError Int := do
  let n := if n ≤ 0 then fallback else n
  ensure (n ≤ limit) error
  return n

theorem resolveRange_lt {tr : TimeRange} {now : Int} {range : VictoriaLogs.TimeRange} {loc : gt.Location}
    (h : resolveRange gt tr now = .ok (range, loc)) : range.start < range.stop := by
  obtain ⟨_, -, h₁⟩ := bind_eq_ok.mp h
  obtain ⟨start, -, h₂⟩ := bind_eq_ok.mp h₁
  obtain ⟨stop, -, h₃⟩ := bind_eq_ok.mp h₂
  obtain ⟨_, hlt, h₄⟩ := bind_eq_ok.mp h₃
  cases pure_eq_ok.mp h₄
  simpa using hlt

end Syslogc.Query
