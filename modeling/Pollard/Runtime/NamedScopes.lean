import Pollard.Lib.Machine
import Pollard.Lib.Program
import Pollard.Runtime.Governance
import Pollard.Runtime.ScopeTexts

/-!
# Named scopes

Workers that share a store bind named budgets and windows before their calls.  The first
`put` of a scope's root fixes its configuration; whatever the store's operations are
interleaved with, a bind returns only if its configuration has the digest that is stored.
-/

namespace Pollard.NamedScopes

open Lib

/-! ## Scopes -/

/-- The limits of a `SharedBudget`. -/
structure SharedLimits where
  limits : Dict String SpelledDecimal
  additive : limits.entries ≠ [] ∧ limits.get? "depth" = none
  finite : ∀ limit ∈ limits.values, limit.value.isLeft = true

/-- A `SharedBudget`, or a `WindowMeter` with a scope, whose wrapped meter has a
configuration. -/
inductive Scope where
  | budget (name : String) (limits : SharedLimits)
  | window (name scope : String) (limit : SpelledDecimal) (windowSeconds : Seconds)
      (meter : Value)

namespace Scope

/-- What a scope is found by. -/
def names : Scope → String × Option String
  | budget name _ => (name, none)
  | window name scope _ _ _ => (name, some scope)

def payload : Scope → Value
  | budget name _ => .dict [("pollard_shared_budget", .int 1), ("name", .str name)]
  | window name scope _ _ _ =>
      .dict [("pollard_shared_window", .int 1), ("name", .str name), ("scope", .str scope)]

def limitTexts (limits : Dict String SpelledDecimal) : List (String × Value) :=
  (sortedItems limits).map fun e => (e.1, .str e.2.decimalText)

def configuration : Scope → Value
  | budget _ limits => .dict [("limits", .dict (limitTexts limits.limits))]
  | window _ _ limit windowSeconds meter =>
      .dict [("limit", .str limit.decimalText), ("window_seconds", .str windowSeconds.text),
        ("meter", meter)]

/-- `SharedBudget._node`, and the node of `bind_window` -/
def node (H : Hashing) (scope : Scope) : Except PyError Node :=
  Node.make H .root none scope.payload 0 (some scope.configuration)

def id (H : Hashing) (scope : Scope) : String := H.nodeId .root none 0 scope.payload

def digest (H : Hashing) (scope : Scope) : String := H.result scope.configuration.canonical

/-- Numerically equal limits, and lengths. -/
def Agrees : Scope → Scope → Prop
  | budget _ a, budget _ b => ∀ key,
      (a.limits.get? key).map SpelledDecimal.value = (b.limits.get? key).map SpelledDecimal.value
  | window _ _ limit seconds _, window _ _ limit' seconds' _ =>
      limit.value = limit'.value ∧ seconds.value = seconds'.value
  | _, _ => False

theorem payload_of_names {a b : Scope} (h : a.names = b.names) : a.payload = b.payload := by
  cases a <;> cases b <;> simp_all [names, payload]

theorem canonicalEntries_limitTexts (limits : Dict String SpelledDecimal) :
    Value.canonicalEntries (limitTexts limits) = limitTexts limits := by
  rw [Value.canonicalEntries_eq_map, limitTexts, List.map_map]
  exact List.map_congr_left fun e _ => rfl

theorem mem_limitTexts {limits : Dict String SpelledDecimal} {key : String} {value : Value} :
    (key, value) ∈ limitTexts limits ↔
      ∃ limit, limits.get? key = some limit ∧ value = .str limit.decimalText := by
  have hmem : ∀ e, e ∈ sortedItems limits ↔ e ∈ limits.entries := fun e =>
    (List.perm_insertionSort _ _).mem_iff
  constructor
  · intro h
    obtain ⟨⟨k, limit⟩, he, heq⟩ := List.mem_map.mp h
    cases heq
    exact ⟨limit, Dict.mem_entries_iff.mp ((hmem _).mp he), rfl⟩
  · rintro ⟨limit, hlimit, rfl⟩
    exact List.mem_map.mpr ⟨(key, limit), (hmem _).mpr (Dict.mem_entries_iff.mpr hlimit), rfl⟩

/-- The limits whose texts are among others are limits of the same value. -/
theorem value_of_texts {a b : Dict String SpelledDecimal}
    (h : ∀ e ∈ limitTexts a, e ∈ limitTexts b) {key : String} {limit : SpelledDecimal}
    (hlimit : a.get? key = some limit) :
    ∃ limit', b.get? key = some limit' ∧ limit.value = limit'.value := by
  obtain ⟨limit', hlimit', htext⟩ :=
    mem_limitTexts.mp (h _ (mem_limitTexts.mpr ⟨limit, hlimit, rfl⟩))
  rw [Value.str.injEq] at htext
  exact ⟨limit', hlimit', SpelledDecimal.value_of_decimalText htext⟩

/-- Scopes of one name and one configuration have equal limits. -/
theorem agrees_of_configuration {a b : Scope} (hnames : a.names = b.names)
    (h : a.configuration.canonical = b.configuration.canonical) : a.Agrees b := by
  cases a with
  | budget name limits =>
      cases b with
      | budget name' limits' =>
          simp only [configuration, Value.canonical, Value.canonicalEntries,
            canonicalEntries_limitTexts, List.insertionSort_cons, List.insertionSort_nil,
            List.orderedInsert_nil, Value.dict.injEq, List.cons.injEq, Prod.mk.injEq, true_and,
            and_true] at h
          have hperm : (limitTexts limits.limits).Perm (limitTexts limits'.limits) :=
            (List.perm_insertionSort _ _).symm.trans
              ((List.Perm.of_eq h).trans (List.perm_insertionSort _ _))
          intro key
          cases hlimit : limits.limits.get? key with
          | some limit =>
              obtain ⟨limit', hlimit', hvalue⟩ :=
                value_of_texts (fun e he => hperm.mem_iff.mp he) hlimit
              rw [hlimit', Option.map_some, Option.map_some, hvalue]
          | none =>
              cases hlimit' : limits'.limits.get? key with
              | none => rfl
              | some limit' =>
                  obtain ⟨limit, hsome, -⟩ :=
                    value_of_texts (fun e he => hperm.mem_iff.mpr he) hlimit'
                  rw [hlimit] at hsome
                  cases hsome
      | window name' scope limit seconds meter => simp [names] at hnames
  | window name scope limit seconds meter =>
      cases b with
      | budget name' limits => simp [names] at hnames
      | window name' scope' limit' seconds' meter' =>
          rw [configuration, configuration, Value.canonical, Value.canonical,
            Value.dict.injEq] at h
          have hmem := fun e => ((List.perm_insertionSort _ _).symm.trans
            ((List.Perm.of_eq h).trans (List.perm_insertionSort _ _))).mem_iff (a := e)
          have hlimit := (hmem ("limit", .str limit.decimalText)).mp (by
            simp [Value.canonicalEntries, Value.canonical])
          have hseconds := (hmem ("window_seconds", .str seconds.text)).mp (by
            simp [Value.canonicalEntries, Value.canonical])
          simp only [Value.canonicalEntries, Value.canonical, List.mem_cons, Prod.mk.injEq,
            String.reduceEq, true_and, false_and, or_false, false_or, Value.str.injEq,
            List.not_mem_nil] at hlimit hseconds
          exact ⟨SpelledDecimal.value_of_decimalText hlimit, Seconds.value_of_text hseconds⟩

end Scope

/-! ## Binding -/

inductive StoreOp where
  /-- `exists` -/
  | contains (id : String)
  | put (node : Node)
  | get (id : String)

def StoreOp.Answer : StoreOp → Type
  | .contains _ => Bool
  | .put _ => Except PyError Unit
  | .get _ => Except PyError Node

abbrev StoreProgram (α : Type) := Program StoreOp StoreOp.Answer PyError α

def StoreProgram.orRaise {α : Type} : Except PyError α → StoreProgram α
  | .ok a => .ret a
  | .error e => .raise e

section Binding

variable (H : Hashing)

/-- What the store does at an operation. -/
def perform : (o : StoreOp) → MemoryStore → o.Answer × MemoryStore
  | .contains id, store => (store.contains id, store)
  | .put node, store =>
      match store.put H node with
      | .ok after => (.ok (), after)
      | .error e => (.error e, store)
  | .get id, store => (store.get id, store)

/-- `result_digest` -/
def resultDigest (node : Node) : Option String := node.resultText.map H.result

structure VerifyFinding where
  nodeId : String
  message : String

/-- The loop of `verify`, over the nearest `depth` ancestors.  A digest held beside its
result is one of the texts the model does without, and is never wrong. -/
def verify : ℕ → List String → String → StoreProgram (List VerifyFinding)
  | 0, _, _ => .ret []
  | depth + 1, seen, current =>
      if current ∈ seen then .ret [⟨current, "cycle detected in ancestry"⟩]
      else
        .op (.get current) fun
          | .error (.keyError _) => .ret [⟨current, "node is missing"⟩]
          | .error e => .raise e
          | .ok node =>
              let findings := if node.id ≠ node.expectedId H then
                [⟨node.id, "node id does not match identity fields"⟩] else []
              match node.parent with
              | none => .ret findings
              | some parent =>
                  (verify depth (current :: seen) parent).bind fun rest => .ret (findings ++ rest)

/-- `_verify_recording` -/
def verifyRecording (depth : ℕ) (id : String) : StoreProgram Unit :=
  (verify H depth [] id).bind fun findings =>
    if findings.isEmpty then .ret ()
    else
      let details := "; ".intercalate (findings.map fun finding =>
        s!"{finding.nodeId}: {finding.message}")
      .raise (.integrityError s!"recording integrity check failed: {details}")

/-- `replay_node_or_missing` -/
def replayNodeOrMissing (depth : ℕ) (candidate : Node) : StoreProgram Node :=
  .op (.contains candidate.id) fun (found : Bool) =>
    if ¬ found then StoreProgram.orRaise (missingRecording H candidate)
    else
      .op (.get candidate.id) fun answer => (StoreProgram.orRaise answer).bind fun node =>
        (verifyRecording H depth node.id).bind fun _ => .ret node

/-- `_bind_configuration`, up to the node it finds -/
def findConfiguration (mode : ReplayMode) (depth : ℕ) (expected : Node) : StoreProgram Node :=
  if mode = .replay then replayNodeOrMissing H depth expected
  else
    .op (.contains expected.id) fun (found : Bool) =>
      if found then .op (.get expected.id) StoreProgram.orRaise
      else
        .op (.put expected) fun answer => (StoreProgram.orRaise answer).bind fun _ =>
          .op (.get expected.id) StoreProgram.orRaise

/-- `_bind_configuration` -/
def bindConfiguration (mode : ReplayMode) (depth : ℕ) (expected : Node) : StoreProgram Node :=
  (findConfiguration H mode depth expected).bind fun actual =>
    (verify H depth [] actual.id).bind fun findings =>
      if ¬ findings.isEmpty ∨ resultDigest H actual ≠ resultDigest H expected then
        .raise (.integrityError s!"shared scope configuration does not match: {expected.id}")
      else .ret actual

/-- `SharedBudget.bind` and `bind_window` -/
def bind (mode : ReplayMode) (depth : ℕ) (scope : Scope) : StoreProgram Node :=
  (StoreProgram.orRaise (scope.node H)).bind (bindConfiguration H mode depth)

end Binding

/-! ## Workers -/

inductive Stage where
  | idle
  /-- Binding a scope, of which the rest of the program is left; then more scopes. -/
  | binding (scope : Scope) (program : StoreProgram Node) (scopes : List Scope)
  /-- Every scope is bound. -/
  | validated
  | raised (e : PyError)

structure Worker where
  mode : ReplayMode
  scopes : List Scope
  stage : Stage

/-- The store, the workers, the scopes whose binds returned, and the scopes of each call that
was dispatched. -/
structure World where
  store : MemoryStore
  workers : List Worker
  bound : List Scope
  dispatched : List (List Scope)

inductive Move where
  | start (mode : ReplayMode) (scopes : List Scope)
  /-- `_validate_shared_configuration`, when a run is opened and before every call. -/
  | validate (worker : ℕ)
  /-- The next operation of a worker. -/
  | step (worker : ℕ)
  | dispatch (worker : ℕ)
  /-- Anything else that is written to the store. -/
  | put (node : Node)
  | updateMeta (id : String) (patch : Dict String Value)

namespace World

def start (store : MemoryStore) : World := ⟨store, [], [], []⟩

def goto (w : World) (i : ℕ) (worker : Worker) (stage : Stage) : World :=
  { w with workers := w.workers.set i { worker with stage } }

section Steps

variable (H : Hashing) (depth : ℕ)

/-- The binds of a worker's scopes, one after the other. -/
def bindNext (mode : ReplayMode) : List Scope → Stage
  | [] => .validated
  | scope :: scopes => .binding scope (bind H mode depth scope) scopes

/-- The next operation of a worker; what needs none is a step too. -/
def stepWorker (w : World) (i : ℕ) (worker : Worker) : World :=
  match worker.stage with
  | .binding scope (.ret _) scopes =>
      { w with bound := w.bound ++ [scope] }.goto i worker (bindNext H depth worker.mode scopes)
  | .binding _ (.raise e) _ => w.goto i worker (.raised e)
  | .binding scope (.op o next) scopes =>
      { w with store := (perform H o w.store).2 }.goto i worker
        (.binding scope (next (perform H o w.store).1) scopes)
  | _ => w

def step (w : World) : Move → World
  | .start mode scopes => { w with workers := w.workers ++ [⟨mode, scopes, .idle⟩] }
  | .validate i =>
      match w.workers[i]? with
      | some worker =>
          match worker.stage with
          | .binding _ _ _ => w
          | _ => w.goto i worker (bindNext H depth worker.mode worker.scopes)
      | none => w
  | .step i =>
      match w.workers[i]? with
      | some worker => w.stepWorker H depth i worker
      | none => w
  | .dispatch i =>
      match w.workers[i]? with
      | some worker =>
          match worker.mode, worker.stage with
          | .record, .validated | .hybrid, .validated =>
              { w with dispatched := w.dispatched ++ [worker.scopes] }.goto i worker .idle
          | _, _ => w
      | none => w
  | .put node => { w with store := (perform H (.put node) w.store).2 }
  | .updateMeta id patch =>
      match w.store.updateMeta id patch with
      | .ok store => { w with store }
      | .error _ => w

/-- Whatever the workers and the others do, one after the other. -/
def run : World → List Move → World := Machine.run (step H depth)

end Steps

end World

/-! ## What a returning bind found -/

/-- Results are never replaced. -/
def Keeps (s t : MemoryStore) : Prop :=
  ∀ id node, s.find? id = some node → ∃ after, t.find? id = some after ∧ after.result = node.result

namespace Keeps

theorem refl (s : MemoryStore) : Keeps s s := fun _ node h => ⟨node, h, rfl⟩

theorem trans (a b c : MemoryStore) (hab : Keeps a b) (hbc : Keeps b c) : Keeps a c := by
  intro id node hnode
  obtain ⟨node', hnode', hresult⟩ := hab id node hnode
  obtain ⟨node'', hnode'', hresult'⟩ := hbc id node' hnode'
  exact ⟨node'', hnode'', hresult'.trans hresult⟩

theorem replaceMeta (s : MemoryStore) (id : String) (metadata : Dict String Value) :
    Keeps s (s.replaceMeta id metadata) := by
  intro other node hnode
  rw [MemoryStore.find?_replaceMeta, hnode, Option.map_some]
  exact ⟨_, rfl, by split <;> rfl⟩

theorem put {H : Hashing} {s t : MemoryStore} {node : Node} (h : s.put H node = .ok t) :
    Keeps s t := by
  rcases MemoryStore.put_cases h with hadded | ⟨-, -, -, rfl | ⟨metadata, rfl, -⟩⟩
  · intro id found hfound
    have hne : id ≠ node.id := by
      rintro rfl
      rw [hadded.1] at hfound
      cases hfound
    exact ⟨found, by rw [hadded.find?_of_ne hne, hfound], rfl⟩
  · exact refl t
  · exact replaceMeta s _ _

theorem updateMeta {s t : MemoryStore} {id : String} {patch : Dict String Value}
    (h : s.updateMeta id patch = .ok t) : Keeps s t := by
  rw [MemoryStore.updateMeta] at h
  cases hget : s.get id with
  | error e =>
      rw [hget] at h
      cases h
  | ok node =>
      rw [hget] at h
      cases h
      exact replaceMeta s _ _

end Keeps

section Safety

variable {H : Hashing}

theorem keeps_perform (o : StoreOp) (s : MemoryStore) : Keeps s (perform H o s).2 := by
  cases o with
  | contains id => exact .refl s
  | get id => exact .refl s
  | put node =>
      rw [perform]
      cases hput : s.put H node with
      | ok after => exact .put hput
      | error e => exact .refl s

/-- The node of an id has the result of this one. -/
def Shows (id : String) (node : Node) (s : MemoryStore) : Prop :=
  ∃ stored, s.find? id = some stored ∧ stored.result = node.result

theorem Shows.keeps {id : String} {node : Node} {s t : MemoryStore} (h : Shows id node s)
    (hkeeps : Keeps s t) : Shows id node t := by
  obtain ⟨stored, hstored, hresult⟩ := h
  obtain ⟨after, hafter, hsame⟩ := hkeeps id stored hstored
  exact ⟨after, hafter, hsame.trans hresult⟩

/-- The node of a scope's id has the digest of its configuration. -/
def Holds (H : Hashing) (scope : Scope) (s : MemoryStore) : Prop :=
  ∃ stored, s.find? (scope.id H) = some stored ∧ resultDigest H stored = some (scope.digest H)

theorem Holds.keeps {scope : Scope} {s t : MemoryStore} (h : Holds H scope s)
    (hkeeps : Keeps s t) : Holds H scope t := by
  obtain ⟨stored, hstored, hdigest⟩ := h
  obtain ⟨after, hafter, hsame⟩ := hkeeps _ stored hstored
  exact ⟨after, hafter, by rw [resultDigest, Node.resultText, hsame, ← Node.resultText,
    ← resultDigest, hdigest]⟩

theorem safe_shows {α : Type} (p : StoreProgram α) {id : String} {node : Node} {s : MemoryStore}
    (h : Shows id node s) : p.Safe (perform H) Keeps (fun _ => Shows id node) s :=
  Program.safe_of_kept (fun _ _ hrely h => h.keeps hrely)
    (fun o s h => h.keeps (keeps_perform o s)) p h

theorem safe_get (id : String) (s : MemoryStore) :
    Program.Safe (perform H) Keeps (Shows id) (.op (.get id) StoreProgram.orRaise) s := by
  intro t _
  change Program.Safe (perform H) Keeps (Shows id) (StoreProgram.orRaise (t.get id)) t
  rw [MemoryStore.get]
  cases hfind : t.find? id with
  | none => trivial
  | some node => exact fun u hu => Shows.keeps ⟨node, hfind, rfl⟩ hu

theorem missingRecording_ne_ok (candidate node : Node) :
    missingRecording H candidate ≠ .ok node := by
  rw [missingRecording]
  cases payloadSummary H candidate.kind candidate.payload <;> intro h <;> cases h

theorem safe_replay (depth : ℕ) (candidate : Node) (s : MemoryStore) :
    (replayNodeOrMissing H depth candidate).Safe (perform H) Keeps (Shows candidate.id) s := by
  intro t _
  change Program.Safe (perform H) Keeps (Shows candidate.id) (if ¬ t.contains candidate.id then
    _ else _) t
  split
  · cases hmissing : missingRecording H candidate with
    | error e => trivial
    | ok node => exact absurd hmissing (missingRecording_ne_ok candidate node)
  · exact Program.Safe.bind .refl (safe_get candidate.id t) fun node u hu =>
      Program.Safe.bind .refl (safe_shows (verifyRecording H depth node.id) hu)
        fun _ v hv w hw => hv.keeps hw

theorem safe_findConfiguration (mode : ReplayMode) (depth : ℕ) (expected : Node)
    (s : MemoryStore) :
    (findConfiguration H mode depth expected).Safe (perform H) Keeps (Shows expected.id) s := by
  rw [findConfiguration]
  split
  · exact safe_replay depth expected s
  · intro t _
    change Program.Safe (perform H) Keeps (Shows expected.id) (if t.contains expected.id then
      _ else _) t
    split
    · exact safe_get expected.id t
    · intro u _
      cases (perform H (.put expected) u).1 with
      | error e => trivial
      | ok _ => exact safe_get expected.id _

/-- Whatever is written meanwhile, a bind returns only where its configuration is stored. -/
theorem safe_bind (mode : ReplayMode) (depth : ℕ) (scope : Scope) (s : MemoryStore) :
    (bind H mode depth scope).Safe (perform H) Keeps (fun _ => Holds H scope) s := by
  rw [bind]
  cases hnode : scope.node H with
  | error e => trivial
  | ok expected =>
      change (bindConfiguration H mode depth expected).Safe _ _ _ s
      obtain rfl := Node.eq_of_make hnode
      refine Program.Safe.bind .refl (safe_findConfiguration mode depth _ s) fun actual t ht =>
        Program.Safe.bind .refl (safe_shows (verify H depth [] actual.id) ht) fun findings u hu => ?_
      split
      · trivial
      · next hsame =>
          rw [not_or, not_not, not_not] at hsame
          obtain ⟨stored, hstored, hresult⟩ := hu
          have hholds : Holds H scope u := by
            refine ⟨stored, hstored, ?_⟩
            rw [resultDigest, Node.resultText, hresult, ← Node.resultText, ← resultDigest, hsame.2]
            rfl
          exact fun v hv => hholds.keeps hv

end Safety

/-! ## How long a bind takes -/

section Length

variable {H : Hashing}

theorem within_orRaise {α : Type} (answer : Except PyError α) (n : ℕ) :
    (StoreProgram.orRaise answer).Within n := by
  cases answer with
  | ok a => exact Program.within_ret n a
  | error e => exact Program.within_raise n e

theorem within_verify (depth : ℕ) (seen : List String) (current : String) :
    (verify H depth seen current).Within depth := by
  induction depth generalizing seen current with
  | zero => exact Program.within_ret 0 _
  | succ depth ih =>
      rw [verify]
      split
      · exact Program.within_ret _ _
      · intro answer
        dsimp only
        split
        · exact Program.within_ret _ _
        · exact Program.within_raise _ _
        · split
          · exact Program.within_ret _ _
          · exact (ih _ _).bind (n := 0) fun _ => Program.within_ret _ _

theorem within_verifyRecording (depth : ℕ) (id : String) :
    (verifyRecording H depth id).Within depth :=
  (within_verify depth [] id).bind (n := 0) fun findings => by
    split
    · exact Program.within_ret _ _
    · exact Program.within_raise _ _

theorem within_replay (depth : ℕ) (candidate : Node) :
    (replayNodeOrMissing H depth candidate).Within (depth + 2) := by
  intro found
  dsimp only
  split
  · exact within_orRaise _ _
  · intro answer
    refine Program.Within.mono (m := 0 + depth) ?_ (by omega)
    exact (within_orRaise answer 0).bind fun node =>
      (within_verifyRecording depth node.id).bind (n := 0) fun _ => Program.within_ret _ _

theorem within_findConfiguration (mode : ReplayMode) (depth : ℕ) (expected : Node) :
    (findConfiguration H mode depth expected).Within (depth + 3) := by
  rw [findConfiguration]
  split
  · exact (within_replay depth expected).mono (by omega)
  · intro found
    dsimp only
    split
    · exact fun answer => within_orRaise _ _
    · intro answer
      rw [← Nat.zero_add (depth + 1)]
      exact (within_orRaise answer 0).bind fun _ => fun answer => within_orRaise _ _

/-- The operations of a bind are limited. -/
theorem within_bind (mode : ReplayMode) (depth : ℕ) (scope : Scope) :
    (bind H mode depth scope).Within (depth + 3 + depth) := by
  rw [← Nat.zero_add (depth + 3 + depth)]
  refine (within_orRaise (scope.node H) 0).bind fun expected => ?_
  refine (within_findConfiguration mode depth expected).bind fun actual => ?_
  refine (within_verify depth [] actual.id).bind (n := 0) fun findings => ?_
  split
  · exact Program.within_raise _ _
  · exact Program.within_ret _ _

end Length

/-! ## Runs -/

/-- The scopes a worker is made with. -/
def Move.scopes : Move → List Scope
  | .start _ scopes => scopes
  | _ => []

/-- Scopes whose configurations differ have different digests. -/
def Unmistaken (H : Hashing) (scopes : List Scope) : Prop :=
  ∀ a ∈ scopes, ∀ b ∈ scopes, a.digest H = b.digest H →
    a.configuration.canonical = b.configuration.canonical

instance (H : Hashing) (scopes : List Scope) : Decidable (Unmistaken H scopes) :=
  inferInstanceAs (Decidable (∀ a ∈ scopes, ∀ b ∈ scopes, _ → _))

section Runs

variable {H : Hashing} {depth : ℕ}

/-- The scopes of a worker that its stage says are bound, and what is left of a bind. -/
def Stage.Sound (H : Hashing) (depth : ℕ) (store : MemoryStore) (bound scopes : List Scope) :
    Stage → Prop
  | .idle => True
  | .binding scope program rest =>
      program.Safe (perform H) Keeps (fun _ => Holds H scope) store ∧
        program.Within (depth + 3 + depth) ∧ (∀ other ∈ scope :: rest, other ∈ scopes) ∧
          ∀ other ∈ scopes, other ∈ bound ∨ other ∈ scope :: rest
  | .validated => ∀ other ∈ scopes, other ∈ bound
  | .raised _ => True

theorem Stage.Sound.after {store store' : MemoryStore} {bound bound' scopes : List Scope}
    {stage : Stage} (h : stage.Sound H depth store bound scopes) (hkeeps : Keeps store store')
    (hbound : bound ⊆ bound') : stage.Sound H depth store' bound' scopes := by
  cases stage with
  | idle => trivial
  | binding scope program rest =>
      obtain ⟨hsafe, hwithin, hrest, hscopes⟩ := h
      exact ⟨hsafe.after Keeps.trans hkeeps, hwithin, hrest, fun other hother =>
        (hscopes other hother).imp_left (hbound ·)⟩
  | validated => exact fun other hother => hbound (h other hother)
  | raised e => trivial

theorem sound_bindNext {store : MemoryStore} {bound scopes rest : List Scope} (mode : ReplayMode)
    (hrest : ∀ other ∈ rest, other ∈ scopes)
    (hscopes : ∀ other ∈ scopes, other ∈ bound ∨ other ∈ rest) :
    (World.bindNext H depth mode rest).Sound H depth store bound scopes := by
  cases rest with
  | nil => exact fun other hother => (hscopes other hother).resolve_right List.not_mem_nil
  | cons scope rest =>
      exact ⟨safe_bind mode depth scope store, within_bind mode depth scope, hrest, hscopes⟩

/-- Returned binds are stored, and the calls are governed by scopes whose binds returned. -/
structure World.Sound (H : Hashing) (depth : ℕ) (scopes : List Scope) (w : World) : Prop where
  bound : ∀ scope ∈ w.bound, Holds H scope w.store ∧ scope ∈ scopes
  dispatched : ∀ call ∈ w.dispatched, ∀ scope ∈ call, scope ∈ w.bound
  workers : ∀ worker ∈ w.workers, (∀ scope ∈ worker.scopes, scope ∈ scopes) ∧
    worker.stage.Sound H depth w.store w.bound worker.scopes

/-- One worker moves on, and the store, what is bound and what is dispatched grow. -/
theorem World.Sound.goto {scopes : List Scope} {w w' : World} (h : w.Sound H depth scopes)
    {i : ℕ} {worker : Worker} (hi : w.workers[i]? = some worker) {stage : Stage}
    (hworkers : w'.workers = w.workers) (hkeeps : Keeps w.store w'.store)
    (hgrows : w.bound ⊆ w'.bound)
    (hbound : ∀ scope ∈ w'.bound, Holds H scope w'.store ∧ scope ∈ scopes)
    (hdispatched : ∀ call ∈ w'.dispatched, ∀ scope ∈ call, scope ∈ w'.bound)
    (hstage : stage.Sound H depth w'.store w'.bound worker.scopes) :
    (w'.goto i worker stage).Sound H depth scopes where
  bound := hbound
  dispatched := hdispatched
  workers := by
    intro other hother
    rw [World.goto, hworkers] at hother
    rcases List.mem_or_eq_of_mem_set hother with hother | rfl
    · exact ⟨(h.workers other hother).1, (h.workers other hother).2.after hkeeps hgrows⟩
    · exact ⟨(h.workers worker (List.mem_of_getElem? hi)).1, hstage⟩

theorem World.Sound.store {scopes : List Scope} {w : World} (h : w.Sound H depth scopes)
    {store : MemoryStore} (hkeeps : Keeps w.store store) :
    World.Sound H depth scopes { w with store } where
  bound scope hscope := ⟨(h.bound scope hscope).1.keeps hkeeps, (h.bound scope hscope).2⟩
  dispatched := h.dispatched
  workers worker hworker := ⟨(h.workers worker hworker).1,
    (h.workers worker hworker).2.after hkeeps (List.Subset.refl _)⟩

theorem sound_stepWorker {scopes : List Scope} {w : World} (h : w.Sound H depth scopes) {i : ℕ}
    {worker : Worker} (hi : w.workers[i]? = some worker) :
    (w.stepWorker H depth i worker).Sound H depth scopes := by
  obtain ⟨hscopes, hstage⟩ := h.workers worker (List.mem_of_getElem? hi)
  rw [World.stepWorker]
  split
  · next scope node rest hbinding =>
      rw [hbinding] at hstage
      obtain ⟨hsafe, -, hrest, hcovered⟩ := hstage
      refine h.goto hi rfl (.refl _) (List.subset_append_left _ _) ?_ ?_ ?_
      · intro other hother
        rcases List.mem_append.mp hother with hother | hother
        · exact h.bound other hother
        · obtain rfl := List.mem_singleton.mp hother
          exact ⟨hsafe _ (.refl _), hscopes _ (hrest _ List.mem_cons_self)⟩
      · exact fun call hcall other hother =>
          List.mem_append_left _ (h.dispatched call hcall other hother)
      · refine sound_bindNext worker.mode (fun other hother => hrest other
          (List.mem_cons_of_mem _ hother)) fun other hother => ?_
        rcases hcovered other hother with hbound | hother
        · exact .inl (List.mem_append_left _ hbound)
        · rcases List.mem_cons.mp hother with rfl | hother
          · exact .inl (List.mem_append_right _ (List.mem_singleton_self _))
          · exact .inr hother
  · exact h.goto hi rfl (.refl _) (List.Subset.refl _) h.bound h.dispatched trivial
  · next scope o next rest hbinding =>
      rw [hbinding] at hstage
      obtain ⟨hsafe, hwithin, hrest, hcovered⟩ := hstage
      have hkeeps := keeps_perform (H := H) o w.store
      refine h.goto hi rfl hkeeps (List.Subset.refl _) (h.store hkeeps).bound h.dispatched
        ⟨hsafe _ (.refl _), ?_, hrest, hcovered⟩
      exact (hwithin.next (perform H o w.store).1).2.mono (by omega)
  · exact h

theorem sound_step (scopes : List Scope) (w : World) (move : Move) (h : w.Sound H depth scopes)
    (hmove : ∀ scope ∈ move.scopes, scope ∈ scopes) :
    (w.step H depth move).Sound H depth scopes := by
  cases move with
  | start mode started =>
      refine ⟨h.bound, h.dispatched, fun worker hworker => ?_⟩
      rcases List.mem_append.mp hworker with hworker | hworker
      · exact h.workers worker hworker
      · obtain rfl := List.mem_singleton.mp hworker
        exact ⟨hmove, trivial⟩
  | validate i =>
      rw [World.step]
      split
      · next worker hi =>
          split
          · exact h
          · exact h.goto hi rfl (.refl _) (List.Subset.refl _) h.bound h.dispatched
              (sound_bindNext worker.mode (fun _ hother => hother) fun _ hother => .inr hother)
      · exact h
  | step i =>
      rw [World.step]
      split
      · next worker hi => exact sound_stepWorker h hi
      · exact h
  | dispatch i =>
      rw [World.step]
      split
      · next worker hi =>
          have hdispatched (hvalidated : worker.stage = .validated) :
              ∀ call ∈ w.dispatched ++ [worker.scopes], ∀ scope ∈ call, scope ∈ w.bound := by
            intro call hcall
            rcases List.mem_append.mp hcall with hcall | hcall
            · exact h.dispatched call hcall
            · obtain rfl := List.mem_singleton.mp hcall
              have hstage := (h.workers worker (List.mem_of_getElem? hi)).2
              rwa [hvalidated] at hstage
          split
          · next hvalidated =>
              exact h.goto hi rfl (.refl _) (List.Subset.refl _) h.bound
                (hdispatched hvalidated) trivial
          · next hvalidated =>
              exact h.goto hi rfl (.refl _) (List.Subset.refl _) h.bound
                (hdispatched hvalidated) trivial
          · exact h
      · exact h
  | put node => exact h.store (keeps_perform (.put node) w.store)
  | updateMeta id patch =>
      rw [World.step]
      split
      · next store hstore => exact h.store (.updateMeta hstore)
      · exact h

theorem sound_run (store : MemoryStore) (moves : List Move) :
    (World.run H depth (.start store) moves).Sound H depth (moves.flatMap Move.scopes) := by
  refine Machine.invariant_run _ (sound_step (moves.flatMap Move.scopes)) ⟨?_, ?_, ?_⟩
    (Machine.along_of_forall (fun move hmove scope hscope =>
      List.mem_flatMap.mpr ⟨move, hmove, hscope⟩) _) <;> simp [World.start]

/-- Scopes of one name that hold in one store agree. -/
theorem agrees_of_holds {scopes : List Scope} (hunmistaken : Unmistaken H scopes) {a b : Scope}
    (ha : a ∈ scopes) (hb : b ∈ scopes) (hnames : a.names = b.names) {store : MemoryStore}
    (hholds : Holds H a store) (hholds' : Holds H b store) : a.Agrees b := by
  obtain ⟨stored, hstored, hdigest⟩ := hholds
  obtain ⟨stored', hstored', hdigest'⟩ := hholds'
  have hid : a.id H = b.id H := by rw [Scope.id, Scope.payload_of_names hnames, Scope.id]
  rw [hid, hstored', Option.some.injEq] at hstored
  subst hstored
  rw [hdigest', Option.some.injEq] at hdigest
  exact Scope.agrees_of_configuration hnames (hunmistaken a ha b hb hdigest.symm)

/-! ### A differing bind -/

/-- The moves that a worker at this stage answers to. -/
def Move.Moves (i : ℕ) (stage : Stage) : Move → Prop
  | .validate j => j = i ∧ ∀ scope program rest, stage ≠ .binding scope program rest
  | .step j => j = i ∧ ∃ scope program rest, stage = .binding scope program rest
  | .dispatch j => j = i ∧ stage = .validated
  | _ => False

theorem workers_step {w : World} {i : ℕ} {worker : Worker} (hi : w.workers[i]? = some worker)
    {move : Move} (hmove : ¬ move.Moves i worker.stage) :
    (w.step H depth move).workers[i]? = some worker := by
  have hset {j : ℕ} {other : Worker} (hother : w.workers[j]? = some other) (stage : Stage)
      (hj : j = i → other.stage = worker.stage → False) :
      (w.workers.set j { other with stage })[i]? = some worker := by
    refine (List.getElem?_set_ne fun hji => hj hji ?_).trans hi
    rw [hji, hi, Option.some.injEq] at hother
    rw [hother]
  cases move with
  | start mode scopes =>
      exact (List.getElem?_append_left (List.getElem?_eq_some_iff.mp hi).1).trans hi
  | validate j =>
      rw [World.step]
      split
      · next other hother =>
          split
          · exact hi
          · next hnot => exact hset hother _ fun hji hstage => hmove ⟨hji, hstage ▸ hnot⟩
      · exact hi
  | step j =>
      rw [World.step]
      split
      · next other hother =>
          have hbinding {scope : Scope} {program : StoreProgram Node} {rest : List Scope}
              (hother : other.stage = .binding scope program rest) (hji : j = i)
              (hstage : other.stage = worker.stage) : False :=
            hmove ⟨hji, scope, program, rest, hstage ▸ hother⟩
          rw [World.stepWorker]
          split
          · next h => exact hset hother _ (hbinding h)
          · next h => exact hset hother _ (hbinding h)
          · next h => exact hset hother _ (hbinding h)
          · exact hi
      · exact hi
  | dispatch j =>
      rw [World.step]
      split
      · next other hother =>
          split
          · next h => exact hset hother _ fun hji hstage => hmove ⟨hji, hstage ▸ h⟩
          · next h => exact hset hother _ fun hji hstage => hmove ⟨hji, hstage ▸ h⟩
          · exact hi
      · exact hi
  | put node => exact hi
  | updateMeta id patch =>
      rw [World.step]
      split <;> exact hi

theorem keeps_step (w : World) (move : Move) : Keeps w.store (w.step H depth move).store := by
  cases move with
  | start mode scopes => exact .refl _
  | validate i =>
      rw [World.step]
      split
      · split <;> exact .refl _
      · exact .refl _
  | step i =>
      rw [World.step]
      split
      · rw [World.stepWorker]
        split
        · exact .refl _
        · exact .refl _
        · exact keeps_perform _ w.store
        · exact .refl _
      · exact .refl _
  | dispatch i =>
      rw [World.step]
      split
      · split <;> exact .refl _
      · exact .refl _
  | put node => exact keeps_perform (.put node) w.store
  | updateMeta id patch =>
      rw [World.step]
      split
      · next store hstore => exact .updateMeta hstore
      · exact .refl _

def Move.isStep (i : ℕ) : Move → Bool
  | .step j => j = i
  | _ => false

def Move.isValidate (i : ℕ) : Move → Bool
  | .validate j => j = i
  | _ => false

/-- A worker that raised stays so until it tries again. -/
theorem raised_run {w : World} {i : ℕ} {worker : Worker} (hi : w.workers[i]? = some worker)
    {e : PyError} (hstage : worker.stage = .raised e) {moves : List Move}
    (hmoves : ∀ move ∈ moves, move.isValidate i = false) :
    (World.run H depth w moves).workers[i]? = some worker := by
  induction moves generalizing w with
  | nil => exact hi
  | cons move moves ih =>
      rw [List.forall_mem_cons] at hmoves
      refine ih (workers_step hi fun hmoved => ?_) hmoves.2
      rw [hstage] at hmoved
      cases move with
      | validate j => exact of_decide_eq_false hmoves.1 hmoved.1
      | step j =>
          obtain ⟨-, scope, program, rest, h⟩ := hmoved
          cases h
      | dispatch j => cases hmoved.2
      | _ => exact hmoved

/-- A bind that cannot return raises once it has made its operations. -/
theorem raises_of_steps {a b : Scope} (hdiffer : ∀ store, Holds H a store → ¬ Holds H b store)
    {i : ℕ} {moves : List Move} (hmoves : ∀ move ∈ moves, move.isValidate i = false)
    {w : World} {worker : Worker} (hi : w.workers[i]? = some worker)
    {program : StoreProgram Node} {rest : List Scope}
    (hstage : worker.stage = .binding b program rest) (ha : Holds H a w.store)
    (hsafe : program.Safe (perform H) Keeps (fun _ => Holds H b) w.store) {n : ℕ}
    (hwithin : program.Within n) (hsteps : n < moves.countP (Move.isStep i)) :
    ∃ e, (World.run H depth w moves).workers[i]? = some { worker with stage := .raised e } := by
  induction moves generalizing w worker program n with
  | nil => simp at hsteps
  | cons move moves ih =>
      rw [List.forall_mem_cons] at hmoves
      by_cases hmove : move = .step i
      · subst hmove
        have hcount : n < moves.countP (Move.isStep i) + 1 := by
          simpa [Move.isStep, List.countP_cons] using hsteps
        have hlt : i < w.workers.length := (List.getElem?_eq_some_iff.mp hi).1
        have hstep : w.step H depth (.step i) = w.stepWorker H depth i worker := by
          rw [World.step, hi]
        cases program with
        | ret node => exact absurd (hsafe _ (.refl _)) (hdiffer _ ha)
        | raise e =>
            have hafter : (w.step H depth (.step i)).workers[i]? =
                some { worker with stage := .raised e } := by
              rw [hstep, World.stepWorker, hstage]
              exact List.getElem?_set_self hlt
            exact ⟨e, raised_run hafter rfl hmoves.2⟩
        | op o next =>
            have hafter : (w.step H depth (.step i)).workers[i]? = some { worker with
                stage := .binding b (next (perform H o w.store).1) rest } := by
              rw [hstep, World.stepWorker, hstage]
              exact List.getElem?_set_self hlt
            have hstore : (w.step H depth (.step i)).store = (perform H o w.store).2 := by
              rw [hstep, World.stepWorker, hstage]
              rfl
            obtain ⟨hpos, hnext⟩ := hwithin.next (perform H o w.store).1
            have hholds : Holds H a (w.step H depth (.step i)).store := by
              rw [hstore]
              exact ha.keeps (keeps_perform o w.store)
            have hsafe' : (next (perform H o w.store).1).Safe (perform H) Keeps
                (fun _ => Holds H b) (w.step H depth (.step i)).store := by
              rw [hstore]
              exact hsafe _ (.refl _)
            have hraises := ih hmoves.2 hafter rfl hholds hsafe' hnext (by omega)
            exact hraises
      · have hother : move.isStep i = false := by
          cases move with
          | step j => exact decide_eq_false fun hj => hmove (by rw [hj])
          | _ => rfl
        have hkeeps : Keeps w.store (w.step H depth move).store := keeps_step w move
        refine ih hmoves.2 (workers_step hi fun hmoved => ?_) hstage (ha.keeps hkeeps)
          (hsafe.after Keeps.trans hkeeps) hwithin ?_
        · rw [hstage] at hmoved
          cases move with
          | validate j => exact hmoved.2 _ _ _ rfl
          | step j => exact hmove (by rw [hmoved.1])
          | dispatch j => cases hmoved.2
          | _ => exact hmoved
        · simpa [List.countP_cons, hother] using hsteps

/-- In every run, whatever its interleaving, the scopes of one name whose binds returned have
numerically equal limits and lengths, and every call is governed by such scopes; a bind of
the name with another limit raises, however many others are at work. -/
theorem named_scope_configured_once (H : Hashing) (depth : ℕ) (store : MemoryStore)
    (moves : List Move) (hunmistaken : Unmistaken H (moves.flatMap Move.scopes)) :
    let w := World.run H depth (.start store) moves
    (∀ a ∈ w.bound, ∀ b ∈ w.bound, a.names = b.names → a.Agrees b) ∧
    (∀ call ∈ w.dispatched, ∀ scope ∈ call, scope ∈ w.bound) ∧
    (∀ a ∈ w.bound, ∀ i mode scopes b program rest,
      w.workers[i]? = some ⟨mode, scopes, .binding b program rest⟩ →
      a.names = b.names → ¬ a.Agrees b → ∀ after : List Move,
        (∀ move ∈ after, move.isValidate i = false) →
        depth + 3 + depth < after.countP (Move.isStep i) →
        ∃ e, (World.run H depth (.start store) (moves ++ after)).workers[i]? =
          some ⟨mode, scopes, .raised e⟩) := by
  intro w
  have hsound : w.Sound H depth (moves.flatMap Move.scopes) := sound_run store moves
  refine ⟨fun a ha b hb hnames => ?_, hsound.dispatched, ?_⟩
  · exact agrees_of_holds hunmistaken (hsound.bound a ha).2 (hsound.bound b hb).2 hnames
      (hsound.bound a ha).1 (hsound.bound b hb).1
  · intro a ha i mode scopes b program rest hi hnames hdiffer after hafter hsteps
    obtain ⟨hscopes, hsafe, hwithin, hrest, -⟩ := hsound.workers _ (List.mem_of_getElem? hi)
    have hb := hscopes b (hrest b List.mem_cons_self)
    rw [World.run, Machine.run_append]
    exact raises_of_steps (fun store hstore hstore' => hdiffer (agrees_of_holds hunmistaken
      (hsound.bound a ha).2 hb hnames hstore hstore')) hafter hi rfl (hsound.bound a ha).1 hsafe
        hwithin hsteps

/-! ### Two spellings and another limit -/

/-- Workers of one name: two spellings of ten, and eleven. -/
def spelledLimits (coefficient : ℕ) (exponent : ℤ) : SharedLimits where
  limits := .ofList [("tokens", .finite false coefficient exponent)]
  additive := by simp [Dict.ofList, Dict.set, Assoc.upsert, Dict.get?, Assoc.lookup]
  finite := by simp [Dict.ofList, Dict.values, Dict.set, Assoc.upsert, SpelledDecimal.value]

def spelledMoves : List Move :=
  [.start .record [.budget "team" (spelledLimits 10 0)],
    .start .hybrid [.budget "team" (spelledLimits 100 (-1))],
    .start .record [.budget "team" (spelledLimits 11 0)],
    .validate 0, .validate 1, .validate 2,
    .step 0, .step 1, .step 2, .step 0, .step 1, .step 2, .step 0, .step 1, .step 2,
    .step 0, .step 1, .step 0, .step 1, .dispatch 0, .dispatch 1]

theorem named_scope_configured_once_spelledMoves :
    let w := World.run .plain 1 (.start .empty) spelledMoves
    (w.bound.length = 2 ∧ w.dispatched.length = 2) ∧
    (∀ a ∈ w.bound, ∀ b ∈ w.bound, a.names = b.names → a.Agrees b) ∧
    (∀ call ∈ w.dispatched, ∀ scope ∈ call, scope ∈ w.bound) ∧
    (∀ a ∈ w.bound, ∀ i mode scopes b program rest,
      w.workers[i]? = some ⟨mode, scopes, .binding b program rest⟩ →
      a.names = b.names → ¬ a.Agrees b → ∀ after : List Move,
        (∀ move ∈ after, move.isValidate i = false) →
        1 + 3 + 1 < after.countP (Move.isStep i) →
        ∃ e, (World.run .plain 1 (.start .empty) (spelledMoves ++ after)).workers[i]? =
          some ⟨mode, scopes, .raised e⟩) :=
  ⟨by decide +kernel,
    named_scope_configured_once .plain 1 .empty spelledMoves (by decide +kernel)⟩

end Runs

end Pollard.NamedScopes
