import Mathlib.Data.List.Basic

/-!
# Errors and identities of the managed namespace

## Main definitions

* `Id`: the identity of a reservation, an operation, an object or a scope.
* `ErrorCategory`, `Error`: the classified errors that the managed operations return.

## Implementation notes

An identity is a fresh random token of 128 bits that is only ever compared, so a number stands
for it. The fields of an error that only telemetry reads are left out.
-/

namespace Tgrep.Managed

/-- The identity of a managed entity. -/
abbrev Id := ℕ

/-- What kind of failure an error is. -/
inductive ErrorCategory
  | invalidInput
  | busy
  | staleIdentity
  | staleVersion
  | cacheEvicted
  | cacheMissing
  | gitObjectsUnavailable
  | incompatible
  | corruptMetadata
  | resourcePressure
  | permission
  | io
  | cancelled
  | deadline
  | receiptExpired
  | recoveryRequired
  deriving DecidableEq

/-- A classified error. -/
structure Error where
  /-- The kind of failure. -/
  category : ErrorCategory
  /-- The stable code of the reason. -/
  reasonCode : String
  /-- Local diagnostic information. -/
  detail : String
  /-- The authoritative version, when the caller's is stale. -/
  currentVersion : Option ℕ := none
  deriving DecidableEq

namespace Error

/-- Whether trying again may succeed. -/
def retryable (e : Error) : Bool :=
  match e.category with
  | .busy | .resourcePressure | .io | .recoveryRequired => true
  | _ => false

/-- An input that the operation does not take. -/
def invalid (detail : String) : Error := ⟨.invalidInput, "invalid-input", detail, none⟩

/-- Metadata that contradicts itself. -/
def corrupt (detail : String) : Error := ⟨.corruptMetadata, "invalid-catalog", detail, none⟩

/-- Something else has to end first. -/
def busy (reason : String) : Error := ⟨.busy, reason, reason, none⟩

/-- A budget is exhausted. -/
def pressure (reason : String) : Error := ⟨.resourcePressure, reason, reason, none⟩

/-- The caller decided on an older version. -/
def staleVersion (version : ℕ) : Error :=
  ⟨.staleVersion, "stale-version", "the authoritative version changed", some version⟩

end Error

end Tgrep.Managed
