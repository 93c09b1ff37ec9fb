-- SUMMARY: The storage contract: rows and classes of write errors.
import Mathlib

/-!
# Storage types

What the pipeline, the forwarders and the query service share of the storage
contract.
-/

namespace Syslogc.Storage

/-- The classes of a write error. -/
inductive ErrorClass where
  | retryable
  | rejected
  | fatal
deriving DecidableEq, Repr

/-- What `WriteBatch` returned: nil, or an error that may carry a class. -/
inductive WriteResult where
  | ok
  | error (cls : Option ErrorClass)
deriving DecidableEq, Repr

/-- `storage.ClassOf`: an unclassified error counts as retryable. -/
def classOf (cls : Option ErrorClass) : ErrorClass := cls.getD .retryable

end Syslogc.Storage
