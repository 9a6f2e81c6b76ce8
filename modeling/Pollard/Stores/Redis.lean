import Pollard.Arbiter
import Pollard.Errors
import Pollard.Lib.Binary64
import Pollard.Lib.Machine
import Pollard.Lib.Program

/-!
# Redis transactions

`RedisStore._run_transaction` and `_RedisTransaction`, for any number of clients of one logical
store.  A command is one step; a client may stop between two of them.
-/

namespace Pollard.Stores.Redis

open Lib

/-! ## Callbacks -/

/-- What a callback asks of its `KVTransaction`. -/
inductive Operation where
  | get (bucket key : String)
  | items (bucket : String)
  | put (bucket key value : String)
  | delete (bucket key : String)
  | now
  | revision

abbrev Operation.Answer : Operation → Type
  | get _ _ => Option String
  | items _ => List (String × String)
  | put _ _ _ => Unit
  | delete _ _ => Unit
  | now => Instant
  | revision => Option ℕ

abbrev Callback (α : Type) := Program Operation Operation.Answer PyError α

/-! ## The server -/

/-- The hashes of a logical store, by bucket. -/
abbrev Buckets := Dict String (Dict String String)

/-- `HGETALL` -/
def Buckets.hgetall (buckets : Buckets) (bucket : String) : Dict String String :=
  buckets.getD bucket ∅

def Buckets.hget (buckets : Buckets) (bucket key : String) : Option String :=
  (buckets.hgetall bucket).get? key

def Buckets.hset (buckets : Buckets) (bucket key value : String) : Buckets :=
  buckets.set bucket ((buckets.hgetall bucket).set key value)

def Buckets.hdel (buckets : Buckets) (bucket key : String) : Buckets :=
  buckets.set bucket ((buckets.hgetall bucket).erase key)

/-- The keys of a logical store: its hashes, and how often it was written. -/
structure KV where
  buckets : Buckets
  revision : Option ℕ

/-- `_server_time` of the `TIME` of a number of microseconds. -/
def serverTime (microseconds : ℕ) : Instant :=
  Binary64.round (Binary64.round (microseconds / 1000000 : ℕ) +
    Binary64.round (Binary64.round (microseconds % 1000000 : ℕ) / 1000000))

/-! ## Pending writes -/

/-- `_pending`, where `none` is a delete. -/
abbrev Pending := Dict (String × String) (Option String)

/-- The loop of `items` over the pending writes. -/
def overlay (bucket : String) : List ((String × String) × Option String) →
    Dict String String → Dict String String
  | [], values => values
  | ((pendingBucket, key), value) :: pending, values =>
      overlay bucket pending
        (if pendingBucket ≠ bucket then values
        else
          match value with
          | none => values.erase key
          | some value => values.set key value)

/-- `queue_writes` -/
def queueWrites : List ((String × String) × Option String) → Buckets → Buckets
  | [], buckets => buckets
  | ((bucket, key), value) :: pending, buckets =>
      queueWrites pending
        (match value with
        | none => buckets.hdel bucket key
        | some value => buckets.hset bucket key value)

def Pending.hasWrites (pending : Pending) : Bool := ¬ pending.entries.isEmpty

/-! ## Clients -/

/-- A call of `_read` or `_write`, and what its store was made with. -/
structure Call (α : Type) where
  allowWrites : Bool
  callback : Callback α
  watchRetries : ℕ
  initialized : Bool

/-- Where a client is in `_run_transaction`. -/
inductive Phase (α : Type) where
  /-- Before `WATCH`. -/
  | attempting
  /-- Before `GET`. -/
  | watching
  /-- Before `TIME`. -/
  | revised (revision : Option ℕ)
  /-- In the callback, whose rest is left. -/
  | calling (revision : Option ℕ) (now : Instant) (pending : Pending) (rest : Callback α)
  | returned (value : α)
  | raised (error : PyError)

/-- A client: `attempts` are left, and `dirty` says that the watched key was written. -/
structure Client (α : Type) where
  call : Call α
  attempts : ℕ
  dirty : Bool
  phase : Phase α

/-- A callback whose `EXEC` went through. -/
structure Commit (α : Type) where
  callback : Callback α
  now : Instant
  wrote : Bool
  result : α

/-- The server, its clock, the clients, and the callbacks in the order of their `EXEC`s. -/
structure World (α : Type) where
  kv : KV
  microseconds : ℕ
  clients : Dict ℕ (Client α)
  history : List (Commit α)

inductive Move (α : Type) where
  | call (client : ℕ) (call : Call α)
  /-- The next command of a client. -/
  | command (client : ℕ)
  /-- A client stops, whatever it is doing. -/
  | stop (client : ℕ)
  | tick (microseconds : ℕ)

/-- `_validate_revision`, of a number. -/
def validateRevision (initialized : Bool) : Option ℕ → Except PyError Unit
  | none =>
      if initialized then .error (.integrityError "Redis transaction revision is missing")
      else .ok ()
  | some value =>
      if value < 1 then .error (.integrityError "Redis transaction revision is invalid")
      else .ok ()

namespace World

variable {α : Type}

def start (kv : KV) (microseconds : ℕ) : World α := ⟨kv, microseconds, ∅, []⟩

def goto (s : World α) (client : ℕ) (c : Client α) (phase : Phase α) : World α :=
  { s with clients := s.clients.set client { c with phase } }

/-- `EXEC`, which fails if the watched key was written. -/
def exec (s : World α) (client : ℕ) (c : Client α) (now : Instant) (pending : Pending)
    (result : α) : World α :=
  if c.dirty then
    { s with
      clients := s.clients.set client { c with attempts := c.attempts - 1, phase := .attempting } }
  else
    let history := s.history ++ [⟨c.call.callback, now, pending.hasWrites, result⟩]
    let after := { s with
      kv := ⟨queueWrites pending.entries s.kv.buckets,
        if pending.hasWrites then some (s.kv.revision.getD 0 + 1) else s.kv.revision⟩
      history
      clients :=
        if pending.hasWrites then s.clients.map fun other : Client α => { other with dirty := true }
        else s.clients }
    after.goto client c (.returned result)

/-- The next command of a client in its callback; what needs none is a step too. -/
def callbackStep (s : World α) (client : ℕ) (c : Client α) (revision : Option ℕ) (now : Instant)
    (pending : Pending) : Callback α → World α
  | .raise error => s.goto client c (.raised error)
  | .ret result =>
      if ¬ c.call.allowWrites ∧ pending.hasWrites then
        s.goto client c (.raised (.runtimeError "Redis read transaction attempted a write"))
      else if revision = none ∧ ¬ pending.hasWrites then
        s.goto client c (.raised (.integrityError "Redis transaction revision is missing"))
      else s.exec client c now pending result
  | .op (.get bucket key) next =>
      let value :=
        match pending.get? (bucket, key) with
        | some value => value
        | none => s.kv.buckets.hget bucket key
      s.goto client c (.calling revision now pending (next value))
  | .op (.items bucket) next =>
      s.goto client c (.calling revision now pending
        (next (sortedItems (overlay bucket pending.entries (s.kv.buckets.hgetall bucket)))))
  | .op (.put bucket key value) next =>
      s.goto client c (.calling revision now (pending.set (bucket, key) (some value)) (next ()))
  | .op (.delete bucket key) next =>
      s.goto client c (.calling revision now (pending.set (bucket, key) none) (next ()))
  | .op .now next => s.goto client c (.calling revision now pending (next now))
  | .op .revision next => s.goto client c (.calling revision now pending (next revision))

/-- The next command of a client. -/
def command (s : World α) (client : ℕ) : World α :=
  match s.clients.get? client with
  | none => s
  | some c =>
      match c.phase with
      | .attempting =>
          if c.attempts = 0 then
            s.goto client c (.raised (.runtimeError
              ("Redis transaction could not commit after " ++ toString c.call.watchRetries ++
                " WATCH conflicts")))
          else s.goto client { c with dirty := false } .watching
      | .watching =>
          match validateRevision c.call.initialized s.kv.revision with
          | .error error => s.goto client c (.raised error)
          | .ok () => s.goto client c (.revised s.kv.revision)
      | .revised revision =>
          s.goto client c (.calling revision (serverTime s.microseconds) ∅ c.call.callback)
      | .calling revision now pending rest => s.callbackStep client c revision now pending rest
      | .returned _ => s
      | .raised _ => s

def step (s : World α) : Move α → World α
  | .call client call =>
      { s with
        clients := s.clients.set client ⟨call, call.watchRetries, false, .attempting⟩ }
  | .command client => s.command client
  | .stop client => { s with clients := s.clients.erase client }
  | .tick microseconds => { s with microseconds := max s.microseconds microseconds }

end World

end Pollard.Stores.Redis
