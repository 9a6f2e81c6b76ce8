import Pollard.Lib.Fallible
import Pollard.Lib.Machine
import Pollard.Runtime.Governance
import Mathlib.Tactic.LinearCombination

/-!
# Avoided charges of shared recordings

Replays in hybrid mode add what they avoided to the totals a recorded node keeps in its
metadata.  Reading the totals and writing the sums are two operations of the store, so a replay
that reads between the two of another one writes its sums over those of the other.
-/

namespace Pollard.AvoidedTotals

open Lib

/-! ## Totals -/

/-- What a node keeps: `node.meta.get("avoided", {})`, if it is a dictionary. -/
def avoided (node : Node) : Dict String Value :=
  match node.metadata.get? "avoided" with
  | some (.dict totals) => Dict.ofList totals
  | _ => ∅

/-- The loop of `record_avoided_charges`. -/
def addTotals (existing charges : Dict String Value) : Except PyError (Dict String Value) :=
  charges.entries.foldlM
    (fun totals e =>
      (chargeToDecimal (totals.getD e.1 (.int 0))).bind fun before =>
        (chargeToDecimal e.2).map fun amount => totals.set e.1 (chargeToJson (before + amount)))
    existing

/-- The amount of a meter. -/
def amount (totals : Dict String Value) (meter : String) : Decimal :=
  (chargeToDecimal (totals.getD meter (.int 0))).toOption.getD 0

/-- The totals of a node in a store. -/
def kept (store : MemoryStore) (id : String) : Dict String Value :=
  ((store.find? id).map avoided).getD ∅

/-- `charge_to_json` and `charge_to_decimal` do not lose anything of the number. -/
def Spelled (q : Decimal) : Prop := chargeToDecimal (chargeToJson q) = .ok q

instance (q : Decimal) : Decidable (Spelled q) :=
  inferInstanceAs (Decidable (chargeToDecimal (chargeToJson q) = .ok q))

/-! ## Replays -/

/-- A run in hybrid mode at a recorded call: its meters, and what they make of the node. -/
structure Replay where
  meters : List Meter
  env : Node → CallEnv

/-- Where a replay is, between two operations of the store. -/
inductive Stage where
  /-- Before `store.exists` in `recorded_node_or_missing`. -/
  | looking
  /-- Before its `store.get`. -/
  | found
  /-- Before `store.get` in `record_avoided_charges`. -/
  | charging (charges : Dict String Value)
  /-- Before its `store.update_meta`: what was read and what it is to become. -/
  | adding (charges read totals : Dict String Value)
  | done (charges : Dict String Value)
  /-- There is no recording, and the call is made. -/
  | live
  | raised (e : PyError)

/-- From the recording to the first operation of `record_avoided_charges`. -/
def charge (replay : Replay) (node : Node) : Stage :=
  if node.result = none then .live
  else
    match avoidedCharges (replay.env node) 0 replay.meters ∅ with
    | .error e => .raised e
    | .ok charges => if charges.entries.isEmpty then .done charges else .charging charges

/-- Between the operations of `record_avoided_charges`. -/
def add (charges : Dict String Value) (node : Node) : Stage :=
  match addTotals (avoided node) charges with
  | .error e => .raised e
  | .ok totals => .adding charges (avoided node) totals

structure World where
  store : MemoryStore
  replays : List (Replay × Stage)

inductive Move where
  | start (replay : Replay)
  /-- The next operation of a replay. -/
  | step (i : ℕ)

namespace World

section Steps

variable (id : String)

/-- The next operation of a replay, and what it does until the one after. -/
def advance (store : MemoryStore) (replay : Replay) : Stage → MemoryStore × Stage
  | .looking => (store, if store.contains id = true then .found else .live)
  | .found =>
      match store.get id with
      | .error e => (store, .raised e)
      | .ok node => (store, charge replay node)
  | .charging charges =>
      match store.get id with
      | .error e => (store, .raised e)
      | .ok node => (store, add charges node)
  | .adding charges _ totals =>
      match store.updateMeta id (.ofList [("avoided", .dict totals.entries)]) with
      | .error e => (store, .raised e)
      | .ok after => (after, .done charges)
  | stage => (store, stage)

def step (w : World) : Move → World
  | .start replay => { w with replays := w.replays ++ [(replay, .looking)] }
  | .step i =>
      match w.replays[i]? with
      | none => w
      | some (replay, stage) =>
          let next := advance id w.store replay stage
          ⟨next.1, w.replays.set i (replay, next.2)⟩

/-- Replays of one node, their operations in any order. -/
def run : World → List Move → World := Machine.run (step id)

end Steps

/-- The charges of a replay that is over. -/
def finished (meter : String) : Replay × Stage → Decimal
  | (_, .done charges) => amount charges meter
  | _ => 0

/-- A write finds the totals it adds to, and its sums can be spelled. -/
def Undisturbed (id : String) (w : World) : Move → Prop
  | .start _ => True
  | .step i =>
      match w.replays[i]? with
      | some (_, .adding charges read _) =>
          (∀ meter, amount (kept w.store id) meter = amount read meter) ∧
            ∀ e ∈ charges.entries, Spelled (amount read e.1 + amount charges e.1)
      | _ => True

end World

/-! ## What a write makes of the totals -/

theorem amount_eq_of_getD {a b : Dict String Value} {meter : String}
    (h : a.getD meter (.int 0) = b.getD meter (.int 0)) : amount a meter = amount b meter := by
  rw [amount, amount, h]

/-- Each meter gets its sum, and the others stay as they are. -/
theorem getD_addTotals {entries : List (String × Value)} (hnodup : (Assoc.keys entries).Nodup)
    {existing totals : Dict String Value}
    (h : entries.foldlM
      (fun totals e =>
        (chargeToDecimal (totals.getD e.1 (.int 0))).bind fun before =>
          (chargeToDecimal e.2).map fun amount => totals.set e.1 (chargeToJson (before + amount)))
      existing = .ok totals) (meter : String) :
    totals.getD meter (.int 0) =
      match Assoc.lookup entries meter with
      | none => existing.getD meter (.int 0)
      | some value =>
          chargeToJson (amount existing meter + (chargeToDecimal value).toOption.getD 0) := by
  induction entries generalizing existing with
  | nil =>
      cases h
      rfl
  | cons e entries ih =>
      rw [Assoc.keys, List.map_cons, List.nodup_cons] at hnodup
      rw [List.foldlM_cons] at h
      obtain ⟨next, hnext, hrest⟩ := Fallible.bind_ok_iff.mp h
      obtain ⟨before, hbefore, hnext⟩ := Fallible.bind_ok_iff.mp hnext
      obtain ⟨value, hvalue, rfl⟩ := Fallible.map_ok_iff.mp hnext
      rw [ih hnodup.2 hrest, Assoc.lookup]
      by_cases heq : e.1 = meter
      · subst heq
        have hnone : Assoc.lookup entries e.1 = none := Assoc.lookup_eq_none_iff.mpr hnodup.1
        rw [hnone, if_pos rfl]
        dsimp only
        rw [Dict.getD_set, if_pos rfl, amount, hbefore, hvalue]
        rfl
      · have hother : (existing.set e.1 (chargeToJson (before + value))).getD meter (.int 0) =
            existing.getD meter (.int 0) := by rw [Dict.getD_set, if_neg heq]
        rw [if_neg heq, hother, amount_eq_of_getD hother]

/-- Sums that can be spelled are what the totals then are. -/
theorem amount_addTotals {existing charges totals : Dict String Value}
    (h : addTotals existing charges = .ok totals)
    (hspelled : ∀ e ∈ charges.entries, Spelled (amount existing e.1 + amount charges e.1))
    (meter : String) : amount totals meter = amount existing meter + amount charges meter := by
  have hgetD := getD_addTotals charges.nodupKeys h meter
  have hcharge : amount charges meter =
      (chargeToDecimal ((charges.get? meter).getD (.int 0))).toOption.getD 0 := rfl
  rw [← Dict.get?] at hgetD
  cases hvalue : charges.get? meter with
  | none =>
      rw [hvalue] at hgetD hcharge
      rw [amount_eq_of_getD hgetD, hcharge]
      exact (add_zero _).symm
  | some value =>
      have hok := hspelled (meter, value) (Dict.mem_entries_iff.mpr hvalue)
      rw [hvalue] at hgetD hcharge
      rw [Option.getD_some] at hcharge
      dsimp only at hgetD hok
      rw [← hcharge] at hgetD
      rw [amount, hgetD, hok]
      rfl

/-! ## Runs -/

namespace World

variable {id : String}

/-- The totals have grown by the charges of the replays that are over, and what is about to be
written is the sum of what was read and the charges. -/
structure Sound (id : String) (initial : Dict String Value) (w : World) : Prop where
  totals : ∀ meter, amount (kept w.store id) meter =
    amount initial meter + (w.replays.map (finished meter)).sum
  pending : ∀ replay charges read totals, (replay, .adding charges read totals) ∈ w.replays →
    addTotals read charges = .ok totals

theorem kept_updateMeta {store after : MemoryStore} {totals : Dict String Value}
    (h : store.updateMeta id (.ofList [("avoided", .dict totals.entries)]) = .ok after) :
    kept after id = totals := by
  obtain ⟨node, hnode, rfl⟩ := Fallible.map_ok_iff.mp h
  have hfind : store.find? id = some node := by
    rw [MemoryStore.get] at hnode
    split at hnode
    · next found hfound => rw [hfound, Except.ok.inj hnode]
    · cases hnode
  rw [kept, MemoryStore.find?_replaceMeta, hfind, Option.map_some,
    if_pos (MemoryStore.mem_of_find? hfind).2, Option.map_some, Option.getD_some, avoided]
  have hpatch : (Dict.ofList [("avoided", Value.dict totals.entries)]).entries =
      [("avoided", Value.dict totals.entries)] := rfl
  rw [hpatch, List.foldl_cons, List.foldl_nil, Dict.get?_set_self]
  exact Dict.ofList_entries totals

/-- A replay that charges nothing is over at once. -/
theorem finished_charge (replay : Replay) (node : Node) (meter : String) :
    finished meter (replay, charge replay node) = 0 ∧
      ∀ charges read totals, charge replay node ≠ .adding charges read totals := by
  unfold charge
  split
  · exact ⟨rfl, by rintro _ _ _ ⟨⟩⟩
  · split
    · exact ⟨rfl, by rintro _ _ _ ⟨⟩⟩
    · next charges _ =>
        split
        · next hempty =>
            refine ⟨?_, by rintro _ _ _ ⟨⟩⟩
            have hnil : charges.entries = [] := List.isEmpty_iff.mp hempty
            have hget : charges.getD meter (.int 0) = .int 0 := by
              rw [Dict.getD, Dict.get?, hnil]
              rfl
            rw [finished, amount, hget]
            rfl
        · exact ⟨rfl, by rintro _ _ _ ⟨⟩⟩

/-- One replay of a list has gone on. -/
theorem sum_map_set {α : Type} (f : α → Decimal) {l : List α} {i : ℕ} {old : α} (new : α)
    (h : l[i]? = some old) : ((l.set i new).map f).sum + f old = (l.map f).sum + f new := by
  induction l generalizing i with
  | nil => cases h
  | cons a l ih =>
      cases i with
      | zero =>
          obtain rfl := Option.some.inj h
          rw [List.set_cons_zero, List.map_cons, List.map_cons, List.sum_cons, List.sum_cons]
          ring
      | succ i =>
          have hrest := ih (i := i) h
          rw [List.set_cons_succ, List.map_cons, List.map_cons, List.sum_cons, List.sum_cons]
          linear_combination hrest

/-- What an operation does: only the write changes the totals, and only a read before it. -/
theorem advance_cases (store : MemoryStore) (replay : Replay) (stage : Stage) :
    ((advance id store replay stage).1 = store ∧
      (∀ meter, finished meter (replay, (advance id store replay stage).2) =
        finished meter (replay, stage)) ∧
      ∀ charges read totals, (advance id store replay stage).2 = .adding charges read totals →
        addTotals read charges = .ok totals ∨ stage = .adding charges read totals) ∨
    ∃ charges read totals after, stage = .adding charges read totals ∧
      store.updateMeta id (.ofList [("avoided", .dict totals.entries)]) = .ok after ∧
      advance id store replay stage = (after, .done charges) := by
  cases stage with
  | looking =>
      left
      refine ⟨rfl, fun meter => ?_, fun charges read totals h => ?_⟩
      · rw [advance]
        dsimp only
        split <;> rfl
      · rw [advance] at h
        dsimp only at h
        split at h <;> cases h
  | found =>
      left
      rw [advance]
      split
      · exact ⟨rfl, fun _ => rfl, nofun⟩
      · next node _ =>
          refine ⟨rfl, fun meter => (finished_charge replay node meter).1, fun c r t h => ?_⟩
          exact absurd h ((finished_charge replay node "").2 c r t)
  | charging charges =>
      left
      rw [advance]
      split
      · exact ⟨rfl, fun _ => rfl, nofun⟩
      · next node _ =>
          rw [add]
          cases htotals : addTotals (avoided node) charges with
          | error e => exact ⟨rfl, fun _ => rfl, nofun⟩
          | ok totals =>
              refine ⟨rfl, fun _ => rfl, fun c r t h => ?_⟩
              cases h
              exact .inl htotals
  | adding charges read totals =>
      rw [advance]
      cases hupdate : store.updateMeta id (.ofList [("avoided", .dict totals.entries)]) with
      | error e => exact .inl ⟨rfl, fun _ => rfl, nofun⟩
      | ok after => exact .inr ⟨charges, read, totals, after, rfl, hupdate, rfl⟩
  | done charges => exact .inl ⟨rfl, fun _ => rfl, nofun⟩
  | live => exact .inl ⟨rfl, fun _ => rfl, nofun⟩
  | raised e => exact .inl ⟨rfl, fun _ => rfl, nofun⟩

theorem Sound.step {initial : Dict String Value} {w : World} {move : Move}
    (h : w.Sound id initial) (hundisturbed : w.Undisturbed id move) :
    (w.step id move).Sound id initial := by
  cases move with
  | start replay =>
      refine ⟨fun meter => ?_, fun r charges read totals hmem => ?_⟩
      · have hlooking : finished meter (replay, .looking) = 0 := rfl
        rw [World.step]
        dsimp only
        rw [List.map_append, List.sum_append, List.map_singleton, List.sum_singleton, hlooking,
          add_zero]
        exact h.totals meter
      · rcases List.mem_append.mp hmem with hmem | hmem
        · exact h.pending r charges read totals hmem
        · cases List.mem_singleton.mp hmem
  | step i =>
      rw [World.step]
      rw [Undisturbed] at hundisturbed
      cases hreplay : w.replays[i]? with
      | none => exact h
      | some entry =>
          obtain ⟨replay, stage⟩ := entry
          rw [hreplay] at hundisturbed
          have hmem : (replay, stage) ∈ w.replays := List.mem_of_getElem? hreplay
          dsimp only
          rcases advance_cases w.store replay stage with
            ⟨hstore, hfinished, hadding⟩ | ⟨charges, read, totals, after, rfl, hupdate, hnext⟩
          · refine ⟨fun meter => ?_, fun r charges read totals hin => ?_⟩
            · have hsum := sum_map_set (finished meter)
                (replay, (advance id w.store replay stage).2) hreplay
              have htotals := h.totals meter
              rw [hfinished meter] at hsum
              dsimp only
              rw [hstore, htotals]
              linear_combination -hsum
            · rcases List.mem_or_eq_of_mem_set hin with hin | heq
              · exact h.pending r charges read totals hin
              · have hstage := congrArg Prod.snd heq
                rcases hadding charges read totals hstage.symm with hadds | rfl
                · exact hadds
                · exact h.pending replay charges read totals hmem
          · obtain ⟨hread, hspelled⟩ := hundisturbed
            have hadds := h.pending replay charges read totals hmem
            rw [hnext]
            refine ⟨fun meter => ?_, fun r charges' read' totals' hin => ?_⟩
            · have hsum := sum_map_set (finished meter) (replay, Stage.done charges) hreplay
              have htotals := h.totals meter
              have hbefore : finished meter (replay, .adding charges read totals) = 0 := rfl
              have hafter : finished meter (replay, .done charges) = amount charges meter := rfl
              dsimp only
              rw [kept_updateMeta hupdate, amount_addTotals hadds hspelled meter, ← hread meter,
                htotals]
              rw [hbefore, hafter] at hsum
              linear_combination -hsum
            · rcases List.mem_or_eq_of_mem_set hin with hin | heq
              · exact h.pending r charges' read' totals' hin
              · cases heq

/-- A replay that avoids one step. -/
def stepReplay : Replay :=
  ⟨[stepMeter], fun _ => { CallEnv.calm with avoidedCharge := fun _ => .ok 1 }⟩

/-- A store with a recorded call, and its id. -/
def recording : Except PyError (MemoryStore × String) := do
  let root ← Node.make .plain .root none (.dict [("run", .str "r")])
  let call ← Node.make .plain .modelCall (some root.id) (.dict []) 0 (some (.str "answer"))
  let store ← MemoryStore.empty.put .plain root
  let store ← store.put .plain call
  return (store, call.id)

/-- The total after a run, and the one before with the charges of the replays that are over. -/
def outcome (moves : List Move) : Except PyError (Decimal × Decimal) := do
  let (store, id) ← recording
  let w := run id ⟨store, []⟩ moves
  return (amount (kept w.store id) "steps",
    amount (kept store id) "steps" + (w.replays.map (finished "steps")).sum)

/-- The totals are those that were read, and not only their amounts. -/
def unchanged (id : String) (w : World) : Move → Bool
  | .start _ => true
  | .step i =>
      match w.replays[i]? with
      | some (_, .adding charges read _) =>
          decide (kept w.store id = read) &&
            charges.entries.all fun e => decide (Spelled (amount read e.1 + amount charges e.1))
      | _ => true

theorem undisturbed_of_unchanged {w : World} {move : Move} (h : unchanged id w move = true) :
    w.Undisturbed id move := by
  cases move with
  | start replay => trivial
  | step i =>
      unfold unchanged at h
      rw [Undisturbed]
      dsimp only at h
      cases hreplay : w.replays[i]? with
      | none => trivial
      | some entry =>
          obtain ⟨replay, stage⟩ := entry
          rw [hreplay] at h
          cases stage with
          | adding charges read totals =>
              rw [Bool.and_eq_true, decide_eq_true_eq, List.all_eq_true] at h
              exact ⟨fun meter => by rw [h.1], fun e he => of_decide_eq_true (h.2 e he)⟩
          | _ => trivial

end World

end Pollard.AvoidedTotals
