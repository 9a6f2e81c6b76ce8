import Mathlib.Data.List.DropRight
import Pollard.Value

/-!
# Declared identities

The names of teams, actors, tasks and roles are checked where they enter, and stay names.
No payload has a string with a lone surrogate.
-/

namespace Pollard.Teams

open Lib

/-! ## Names -/

/-- `str.isspace`, for one character -/
def isSpace (c : Char) : Bool :=
  let n := c.toNat
  (9 ≤ n ∧ n ≤ 13) ∨ (28 ≤ n ∧ n ≤ 32) ∨ (8192 ≤ n ∧ n ≤ 8202) ∨
    n ∈ [133, 160, 5760, 8232, 8233, 8239, 8287, 12288]

/-- `value.strip()` -/
def strip (value : List Char) : List Char := (value.dropWhile isSpace).rdropWhile isSpace

def isNonemptyName (value : String) : Bool :=
  value ≠ "" ∧ value.toList = strip value.toList ∧ value.length ≤ 256

def hasControl (value : String) : Bool :=
  value.toList.any fun c => c.toNat < 32 ∨ c.toNat = 127

/-- What `_validate_name` lets through. -/
def Name := { value : String // isNonemptyName value = true ∧ hasControl value = false }
deriving DecidableEq

/-- `_validate_name` -/
def validateName (value : Value) (field : String) : Except PyError Name :=
  match value with
  | .str value =>
      if hname : isNonemptyName value = true then
        if hcontrol : hasControl value = false then .ok ⟨value, hname, hcontrol⟩
        else .error (.valueError s!"{field} cannot contain control characters")
      else .error (.valueError s!"{field} must be a nonempty name of at most 256 characters")
  | _ => .error (.typeError s!"{field} must be a string")

/-- `_validate_tools` -/
def validateTools (tools : List Value) : Except PyError (List Name) :=
  (tools.mapM fun name => validateName name "tool name").bind fun tools =>
    if tools.Nodup then .ok (tools.insertionSort fun a b => a.1 ≤ b.1)
    else .error (.valueError "allowed_tools cannot contain duplicates")

/-! ## Identities -/

structure AgentIdentity where
  teamId : Name
  agentId : Name
  taskId : Name
  role : Option Name
  allowedTools : Option (List Name)
deriving DecidableEq

namespace AgentIdentity

/-- `to_dict` -/
def toDict (identity : AgentIdentity) : Value :=
  let text := fun name : Name => Value.str name.1
  .dict [("team_id", text identity.teamId), ("agent_id", text identity.agentId),
    ("task_id", text identity.taskId), ("role", (identity.role.map text).getD .none),
    ("allowed_tools", (identity.allowedTools.map fun tools => .list (tools.map text)).getD .none)]

def fields : List String := ["team_id", "agent_id", "task_id", "role", "allowed_tools"]

/-- `_fields` -/
def hasFields (data : Value) : Bool :=
  match data with
  | .dict entries =>
      (∀ name ∈ Assoc.keys entries, name ∈ fields) ∧ ∀ name ∈ fields, name ∈ Assoc.keys entries
  | _ => false

/-- An optional field, null being none. -/
def optional {α : Type} (data : Value) (field : String) (read : Value → Except PyError α) :
    Except PyError (Option α) :=
  match data.get? field with
  | none | some .none => .ok none
  | some value => (read value).map some

/-- The list that `allowed_tools` is transported as. -/
def transportedTools : Value → Except PyError (List Value)
  | .list tools => .ok tools
  | _ => .error (.typeError "transported allowed_tools must be a list or None")

/-- `AgentIdentity.from_dict` -/
def fromDict (data : Value) : Except PyError AgentIdentity := do
  if hasFields data = false then throw (.valueError "invalid agent identity fields")
  let tools ← optional data "allowed_tools" transportedTools
  let name := fun field => validateName ((data.get? field).getD .none) field
  let teamId ← name "team_id"
  let agentId ← name "agent_id"
  let taskId ← name "task_id"
  let role ← optional data "role" fun value => validateName value "role"
  let allowedTools ← tools.mapM validateTools
  return ⟨teamId, agentId, taskId, role, allowedTools⟩

end AgentIdentity

end Pollard.Teams
