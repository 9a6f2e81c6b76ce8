import Pollard.Value

/-!
# Usage categories that exclude each other

Providers report token counts that overlap: cached input is input, and reasoning is output.  What
is charged is a partition of the input and the output.
-/

namespace Pollard.Tokenmaster

open Lib

/-! ## The code -/

/-- The count under a key, if it is one. -/
def count? (usage : Value) (key : String) : Option ℤ :=
  match usage.get? key with
  | some (.int n) => if 0 ≤ n then some n else none
  | _ => none

/-- `_int_usage` -/
def intUsage (usage : Value) : List String → ℤ
  | [] => 0
  | key :: keys =>
      match count? usage key with
      | some n => n
      | none => intUsage usage keys

/-- `_has_int_usage` -/
def hasIntUsage (usage : Value) (keys : List String) : Bool :=
  keys.any fun key => (count? usage key).isSome

/-- `_details` -/
def details (usage : Value) : List String → Value
  | [] => .dict []
  | key :: keys =>
      match usage.get? key with
      | some (.dict entries) => .dict entries
      | _ => details usage keys

/-- `_uses_separate_cache_fields` -/
def usesSeparateCacheFields (usage : Value) : Bool :=
  ["cache_read_tokens", "cache_read_input_tokens", "cacheReadInputTokens", "cache_write_tokens",
    "cache_creation_input_tokens", "cache_write_input_tokens", "cacheWriteInputTokens"].any
    fun key => (usage.get? key).isSome

structure TurnPayload where
  inputTokens : ℤ
  cacheReadTokens : ℤ
  cacheWriteTokens : ℤ
  outputTokens : ℤ
  reasoningTokens : ℤ
deriving DecidableEq, Repr

/-- `_empty_turn_payload` -/
def emptyTurnPayload : TurnPayload := ⟨0, 0, 0, 0, 0⟩

/-- `_canonical_turn_payload` -/
def canonicalTurnPayload (usage : Value) : TurnPayload where
  inputTokens := intUsage usage ["input_tokens", "prompt_tokens"]
  cacheReadTokens := intUsage usage
    ["cache_read_tokens", "cached_input_tokens", "cache_read_input_tokens"]
  cacheWriteTokens := intUsage usage
    ["cache_write_tokens", "cache_creation_input_tokens", "cache_write_input_tokens"]
  outputTokens := intUsage usage ["output_tokens", "completion_tokens"]
  reasoningTokens := intUsage usage ["reasoning_tokens"]

/-- The counts of a provider that reports cached input beside the input. -/
def separateTurnPayload (raw : Value) : TurnPayload where
  inputTokens := intUsage raw ["input_tokens", "inputTokens", "prompt_tokens"]
  cacheReadTokens := intUsage raw
    ["cache_read_tokens", "cache_read_input_tokens", "cacheReadInputTokens"]
  cacheWriteTokens := intUsage raw
    ["cache_write_tokens", "cache_creation_input_tokens", "cache_write_input_tokens",
      "cacheWriteInputTokens"]
  outputTokens := intUsage raw ["output_tokens", "outputTokens", "completion_tokens"]
  reasoningTokens := intUsage raw ["reasoning_tokens"]

/-- `left or right` -/
def orElse (left right : ℤ) : ℤ := if left ≠ 0 then left else right

/-- A total of the provider, or the normalized one. -/
def total (raw normalized : Value) (keys : List String) : ℤ :=
  if hasIntUsage raw keys then intUsage raw keys else intUsage normalized keys

/-- `_exclusive_turn_payload` of a normalized usage and one of a provider that counts cached
tokens as input -/
def overlappingTurnPayload (normalized raw : Value) : TurnPayload :=
  let inputTotal := total raw normalized ["input_tokens", "prompt_tokens"]
  let outputTotal := total raw normalized ["output_tokens", "completion_tokens"]
  let inputDetails := details raw ["input_tokens_details", "prompt_tokens_details"]
  let outputDetails := details raw ["output_tokens_details", "completion_tokens_details"]
  let cacheRead := min inputTotal
    (orElse (intUsage inputDetails ["cached_tokens"]) (intUsage raw ["cached_input_tokens"]))
  let cacheWrite := min (inputTotal - cacheRead)
    (orElse (intUsage inputDetails ["cache_write_tokens"])
      (intUsage raw ["cache_write_tokens", "cache_creation_input_tokens"]))
  let reasoning := min outputTotal
    (orElse (intUsage outputDetails ["reasoning_tokens"]) (intUsage raw ["reasoning_tokens"]))
  { inputTokens := inputTotal - cacheRead - cacheWrite
    cacheReadTokens := cacheRead
    cacheWriteTokens := cacheWrite
    outputTokens := outputTotal - reasoning
    reasoningTokens := reasoning }

/-- A value under a key, if it is a mapping. -/
def mapping? (result : Value) (key : String) : Option Value :=
  (result.get? key).filter Value.isDict

/-- `_exclusive_turn_payload` -/
def exclusiveTurnPayload (result : Value) : TurnPayload :=
  match mapping? result "usage" with
  | none => emptyTurnPayload
  | some normalized =>
      match mapping? result "provider_usage" with
      | none => canonicalTurnPayload normalized
      | some raw =>
          if usesSeparateCacheFields raw then separateTurnPayload raw
          else overlappingTurnPayload normalized raw

/-- `_context_total` -/
def contextTotal (turn : TurnPayload) : ℤ :=
  turn.inputTokens + turn.cacheReadTokens + turn.cacheWriteTokens + turn.outputTokens +
    turn.reasoningTokens

/-! ## Counts -/

/-- The first count that is reported under one of the keys. -/
def reported (usage : Value) (keys : List String) : Option ℤ := keys.findSome? (count? usage)

theorem count?_nonneg {usage : Value} {key : String} {n : ℤ} (h : count? usage key = some n) :
    0 ≤ n := by
  rw [count?] at h
  split at h
  · split at h
    · next hn =>
        obtain rfl := Option.some.inj h
        exact hn
    · cases h
  · cases h

theorem intUsage_eq (usage : Value) (keys : List String) :
    intUsage usage keys = (reported usage keys).getD 0 := by
  induction keys with
  | nil => rfl
  | cons key keys ih =>
      rw [intUsage, reported, List.findSome?_cons]
      cases count? usage key with
      | none => exact ih
      | some n => rfl

theorem intUsage_nonneg (usage : Value) (keys : List String) : 0 ≤ intUsage usage keys := by
  induction keys with
  | nil => exact le_rfl
  | cons key keys ih =>
      rw [intUsage]
      split
      · next n hn => exact count?_nonneg hn
      · exact ih

theorem hasIntUsage_eq (usage : Value) (keys : List String) :
    hasIntUsage usage keys = (reported usage keys).isSome := by
  induction keys with
  | nil => rfl
  | cons key keys ih =>
      rw [hasIntUsage] at ih
      rw [hasIntUsage, reported, List.findSome?_cons, List.any_cons, ih]
      cases count? usage key <;> rfl

/-- The total that the provider reports, and without one the normalized one. -/
theorem total_eq (raw normalized : Value) (keys : List String) :
    total raw normalized keys =
      (reported raw keys).getD ((reported normalized keys).getD 0) := by
  rw [total, hasIntUsage_eq, intUsage_eq, intUsage_eq]
  cases reported raw keys <;> rfl

theorem total_nonneg (raw normalized : Value) (keys : List String) :
    0 ≤ total raw normalized keys := by
  rw [total]
  split
  · exact intUsage_nonneg _ _
  · exact intUsage_nonneg _ _

theorem orElse_nonneg {left right : ℤ} (hleft : 0 ≤ left) (hright : 0 ≤ right) :
    0 ≤ orElse left right := by
  rw [orElse]
  split
  · exact hleft
  · exact hright

/-! ## The partition -/

structure TurnPayload.Nonnegative (turn : TurnPayload) : Prop where
  input : 0 ≤ turn.inputTokens
  cacheRead : 0 ≤ turn.cacheReadTokens
  cacheWrite : 0 ≤ turn.cacheWriteTokens
  output : 0 ≤ turn.outputTokens
  reasoning : 0 ≤ turn.reasoningTokens

/-- What is taken out of a total is between nothing and what is left of it. -/
theorem overlappingTurnPayload_nonnegative (normalized raw : Value) :
    (overlappingTurnPayload normalized raw).Nonnegative := by
  have hinput := total_nonneg raw normalized ["input_tokens", "prompt_tokens"]
  have houtput := total_nonneg raw normalized ["output_tokens", "completion_tokens"]
  have hread := orElse_nonneg
    (intUsage_nonneg (details raw ["input_tokens_details", "prompt_tokens_details"])
      ["cached_tokens"]) (intUsage_nonneg raw ["cached_input_tokens"])
  have hwrite := orElse_nonneg
    (intUsage_nonneg (details raw ["input_tokens_details", "prompt_tokens_details"])
      ["cache_write_tokens"])
    (intUsage_nonneg raw ["cache_write_tokens", "cache_creation_input_tokens"])
  have hreasoning := orElse_nonneg
    (intUsage_nonneg (details raw ["output_tokens_details", "completion_tokens_details"])
      ["reasoning_tokens"]) (intUsage_nonneg raw ["reasoning_tokens"])
  constructor <;> dsimp only [overlappingTurnPayload] <;> omega

theorem contextTotal_overlapping (normalized raw : Value) :
    contextTotal (overlappingTurnPayload normalized raw) =
      total raw normalized ["input_tokens", "prompt_tokens"] +
        total raw normalized ["output_tokens", "completion_tokens"] := by
  rw [contextTotal]
  dsimp only [overlappingTurnPayload]
  omega

/-- With a normalized usage, the five categories of a provider without separate cache fields are
nonnegative and add up to the input and the output.  Without one they are all zero. -/
theorem exclusiveTurnPayload_partition {result raw : Value}
    (hraw : mapping? result "provider_usage" = some raw)
    (hseparate : usesSeparateCacheFields raw = false) :
    (exclusiveTurnPayload result).Nonnegative ∧
      (∀ normalized, mapping? result "usage" = some normalized →
        contextTotal (exclusiveTurnPayload result) =
          (reported raw ["input_tokens", "prompt_tokens"]).getD
              ((reported normalized ["input_tokens", "prompt_tokens"]).getD 0) +
            (reported raw ["output_tokens", "completion_tokens"]).getD
              ((reported normalized ["output_tokens", "completion_tokens"]).getD 0)) ∧
      (mapping? result "usage" = none → exclusiveTurnPayload result = emptyTurnPayload) := by
  have hempty : emptyTurnPayload.Nonnegative := ⟨le_rfl, le_rfl, le_rfl, le_rfl, le_rfl⟩
  rw [exclusiveTurnPayload, hraw]
  cases mapping? result "usage" with
  | none => exact ⟨hempty, nofun, fun _ => rfl⟩
  | some normalized =>
      dsimp only
      rw [hseparate, if_neg Bool.false_ne_true]
      refine ⟨overlappingTurnPayload_nonnegative _ _, ?_, nofun⟩
      rintro _ ⟨⟩
      rw [contextTotal_overlapping, total_eq, total_eq]

/-- Overlapping counts at both levels, one of them negative and one a boolean. -/
theorem exclusiveTurnPayload_partition_mixed :
    let raw : Value := .dict [("input_tokens", .int (-1)), ("prompt_tokens", .int 100),
      ("cached_input_tokens", .int 300), ("reasoning_tokens", .bool true)]
    let normalized : Value := .dict [("output_tokens", .int 7)]
    let result : Value := .dict [("usage", normalized), ("provider_usage", raw)]
    (exclusiveTurnPayload result).Nonnegative ∧
      contextTotal (exclusiveTurnPayload result) = 107 := by
  intro raw normalized result
  have hpartition := @exclusiveTurnPayload_partition result raw rfl (by decide)
  exact ⟨hpartition.1, hpartition.2.1 _ rfl⟩

/-- A provider usage without a normalized one counts nothing. -/
theorem exclusiveTurnPayload_unnormalized :
    let raw : Value := .dict [("input_tokens", .int 10)]
    let result : Value := .dict [("provider_usage", raw)]
    mapping? result "provider_usage" = some raw ∧ usesSeparateCacheFields raw = false ∧
      reported raw ["input_tokens", "prompt_tokens"] = some 10 ∧
        contextTotal (exclusiveTurnPayload result) = 0 := by
  refine ⟨rfl, by decide, rfl, rfl⟩

end Pollard.Tokenmaster
