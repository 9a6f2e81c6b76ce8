import Pollard.Runtime.Basic

/-!
# Step results

What a step function returned becomes one result dictionary: a dictionary is the
result, the chunks of a stream are merged.  Chunks are values here; containers that
Python shares between a kept chunk and the result are copies.
-/

namespace Pollard

open Lib

/-- `chunk.get(key)`, where `None` is as good as nothing. -/
def chunkField (chunk : List (String × Value)) (key : String) : Option Value :=
  (Assoc.lookup chunk key).filter fun value => value ≠ .none

/-- The body of the loop over a stream. -/
def consumeChunk (onDelta : Option (ℕ → Except PyError Unit)) (index : ℕ) (item : Value)
    (result : List (String × Value)) : Except PyError (List (String × Value)) :=
  match item with
  | .dict chunk => do
      match onDelta with
      | some onDelta => onDelta index
      | none => pure ()
      match chunkField chunk "result", chunkField chunk "delta" with
      | some (.dict complete), _ => .ok complete
      | some _, _ => .error (.typeError "a stream chunk result must be a dict")
      | none, some (.dict delta) => .ok (Value.mergeStreamValue result delta)
      | none, some _ => .error (.typeError "a stream chunk delta must be a dict")
      | none, none => .ok (Value.mergeStreamValue result chunk)
  | _ => .error (.typeError "stream chunks must be dicts")

/-- The loop over a stream, which ends or raises after its items. -/
def consumeChunks (onDelta : Option (ℕ → Except PyError Unit)) (ending : Option PyError) :
    ℕ → List Value → List (String × Value) → Except PyError (List (String × Value))
  | _, [], result =>
      match ending with
      | none => .ok result
      | some error => .error error
  | index, item :: items, result =>
      (consumeChunk onDelta index item result).bind
        (consumeChunks onDelta ending (index + 1) items)

/-- A stream; an exception after the first chunk is marked. -/
def consumeStream (onDelta : Option (ℕ → Except PyError Unit)) (keepChunks : Bool)
    (items : List Value) (ending : Option PyError) : Except PyError Value :=
  match consumeChunks onDelta ending 0 items [] with
  | .ok result =>
      .ok (.dict (if keepChunks then Assoc.upsert result "chunks" (.list items) else result))
  | .error error =>
      if items = [] ∨ error.isPostDispatchOutcomeUnknown then .error error
      else .error error.markPostDispatchOutcomeUnknown

/-- `_consume_step_result` -/
def consumeStepResult (onDelta : Option (ℕ → Except PyError Unit)) (keepChunks : Bool) :
    Produced → Except PyError Value
  | .dict entries => .ok (.dict entries)
  | .iterator items ending => consumeStream onDelta keepChunks items ending
  | .asyncIterator _ _ =>
      .error (.typeError "step function must return a dict or an iterator of chunk dicts")
  | .other =>
      .error (.typeError "step function must return a dict or an iterator of chunk dicts")

/-- `_aconsume_step_result` -/
def aconsumeStepResult (onDelta : Option (ℕ → Except PyError Unit)) (keepChunks : Bool) :
    Produced → Except PyError Value
  | .dict entries => .ok (.dict entries)
  | .iterator items ending => consumeStream onDelta keepChunks items ending
  | .asyncIterator items ending => consumeStream onDelta keepChunks items ending
  | .other => .error (.typeError "async step function must return a dict or a chunk iterator")

/-- A run is a `Run` or an `AsyncRun`. -/
inductive Flavor where
  | sync
  | async
deriving DecidableEq, Repr

def Flavor.consume : Flavor → Option (ℕ → Except PyError Unit) → Bool → Produced →
    Except PyError Value
  | sync => consumeStepResult
  | async => aconsumeStepResult

/-- A dictionary or a first chunk comes out of what the step function returned. -/
def Flavor.obtains : Flavor → Produced → Prop
  | _, .dict _ => True
  | _, .iterator items _ => items ≠ []
  | .async, .asyncIterator items _ => items ≠ []
  | .sync, .asyncIterator _ _ => False
  | _, .other => False

instance : (flavor : Flavor) → (produced : Produced) → Decidable (flavor.obtains produced)
  | .sync, .dict _ => inferInstanceAs (Decidable True)
  | .async, .dict _ => inferInstanceAs (Decidable True)
  | .sync, .iterator _ _ => inferInstanceAs (Decidable (_ ≠ _))
  | .async, .iterator _ _ => inferInstanceAs (Decidable (_ ≠ _))
  | .async, .asyncIterator _ _ => inferInstanceAs (Decidable (_ ≠ _))
  | .sync, .asyncIterator _ _ => inferInstanceAs (Decidable False)
  | .sync, .other => inferInstanceAs (Decidable False)
  | .async, .other => inferInstanceAs (Decidable False)

theorem consumeStream_error {onDelta : Option (ℕ → Except PyError Unit)} {keepChunks : Bool}
    {items : List Value} {ending : Option PyError} {error : PyError}
    (h : consumeStream onDelta keepChunks items ending = .error error) (hne : items ≠ []) :
    error.isPostDispatchOutcomeUnknown = true := by
  unfold consumeStream at h
  split at h
  · cases h
  · split at h
    · next hor =>
        cases h
        exact hor.resolve_left hne
    · cases h
      rfl

/-- An exception after a chunk is marked as one of an unknown outcome. -/
theorem Flavor.consume_error {flavor : Flavor} {onDelta : Option (ℕ → Except PyError Unit)}
    {keepChunks : Bool} {produced : Produced} {error : PyError}
    (h : flavor.consume onDelta keepChunks produced = .error error)
    (hobtains : flavor.obtains produced) : error.isPostDispatchOutcomeUnknown = true := by
  cases flavor <;> cases produced <;>
    first
      | exact False.elim hobtains
      | exact consumeStream_error h hobtains
      | cases h

end Pollard
