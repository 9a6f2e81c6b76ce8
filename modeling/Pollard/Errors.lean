import Mathlib.Data.Int.Notation

/-!
# Exceptions

The exceptions the modelled functions raise, with the texts and fields the source
gives them.  `callerError` stands for an exception raised by code that Pollard
calls but does not contain: step functions, meters, policies, callbacks.
-/

namespace Pollard

inductive PyError where
  | integrityError (message : String)
  | budgetExceeded (message refusalId : String)
  | policyViolation (message refusalId : String)
  | confirmationRequired (message resumeToken : String)
  | missingRecording (message nodeId payloadSummary : String)
  | duplicateRecording (message nodeId payloadSummary : String) (attempt : ℤ)
  | reservationLeaseLost (message reservationId nodeId detail : String)
  | sqliteIntegrityError
  | keyError (key : String)
  | valueError (message : String)
  | typeError (message : String)
  | runtimeError (message : String)
  | unsupportedSchema (message : String)
  | unicodeEncodeError
  | overflowError
  | invalidOperation
  | callCleanupError
  | callerError (name : String)
  /-- An exception carrying the attribute `_pollard_post_dispatch_outcome_unknown`. -/
  | marked (error : PyError)
  | postDispatchOutcomeUnknown (error : PyError)
deriving DecidableEq, Repr

namespace PyError

/-- `type(error).__name__`. -/
def typeName : PyError → String
  | integrityError _ => "IntegrityError"
  | budgetExceeded _ _ => "BudgetExceeded"
  | policyViolation _ _ => "PolicyViolation"
  | confirmationRequired _ _ => "ConfirmationRequired"
  | missingRecording _ _ _ => "MissingRecording"
  | duplicateRecording _ _ _ _ => "DuplicateRecording"
  | reservationLeaseLost _ _ _ _ => "ReservationLeaseLost"
  | sqliteIntegrityError => "IntegrityError"
  | keyError _ => "KeyError"
  | valueError _ => "ValueError"
  | typeError _ => "TypeError"
  | runtimeError _ => "RuntimeError"
  | unsupportedSchema _ => "UnsupportedSchema"
  | unicodeEncodeError => "UnicodeEncodeError"
  | overflowError => "OverflowError"
  | invalidOperation => "InvalidOperation"
  | callCleanupError => "CallCleanupError"
  | callerError name => name
  | marked error => error.typeName
  | postDispatchOutcomeUnknown _ => "PostDispatchOutcomeUnknown"

/-- `mark_post_dispatch_outcome_unknown`: every exception modelled here accepts
the attribute, so the exception itself comes back. -/
def markPostDispatchOutcomeUnknown (error : PyError) : PyError := marked error

def isPostDispatchOutcomeUnknown : PyError → Bool
  | marked _ => true
  | postDispatchOutcomeUnknown _ => true
  | _ => false

end PyError

end Pollard
