import Pollard.Npm.Ledger
import Mathlib.Algebra.Order.BigOperators.Group.List
import Mathlib.Data.List.Perm.Subperm

/-!
# Each call is charged once

What the runs of one label settle against what their nodes record.  The two agree, once no
call is in flight, in every run in which no reserve uses a baseline that counts a failed call
whose settlement is still to come.
-/

namespace Pollard.Npm

open Lib Lib.Fallible Stores Stores.Transactional Stores.Sqlite

/-! ## Counting -/

/-- What a node records for a meter. -/
def CallNode.chargeOf (meter : String) (node : CallNode) : ℕ :=
  chargeAt (node.charges.getD ∅) meter

/-- What a node adds to a baseline. -/
def CallNode.countedOf (meter : String) (node : CallNode) : ℕ :=
  if node.reservedPending then 0 else node.chargeOf meter

/-- The sum of the charges recorded on the nodes of a walk. -/
def recorded (nodes : CallTree) (rootId meter : String) : ℕ :=
  (((nodes.walk rootId).getD []).map fun e => e.2.chargeOf meter).sum

theorem foldlM_addCharges {charges : List (String × ℕ)} (hnodup : (Assoc.keys charges).Nodup)
    {total after : Charges}
    (h : charges.foldlM
      (fun total e => (addCharges (chargeAt total e.1) e.2).map (total.set e.1)) total =
        some after) (meter : String) :
    chargeAt after meter = chargeAt total meter + (Assoc.lookup charges meter).getD 0 := by
  induction charges generalizing total with
  | nil =>
      cases h
      rfl
  | cons e charges ih =>
      obtain ⟨key, n⟩ := e
      rw [Assoc.keys, List.map_cons, List.nodup_cons] at hnodup
      rw [List.foldlM_cons] at h
      obtain ⟨middle, hmiddle, h⟩ := Option.bind_eq_some_iff.mp h
      obtain ⟨sum, hsum, rfl⟩ := Option.map_eq_some_iff.mp hmiddle
      rw [ih hnodup.2 h, Assoc.lookup]
      unfold addCharges at hsum
      split at hsum
      · cases hsum
        rw [chargeAt, Dict.getD_set]
        by_cases hkey : key = meter
        · subst hkey
          rw [if_pos rfl, if_pos rfl, Assoc.lookup_eq_none_iff.mpr hnodup.1]
          rfl
        · rw [if_neg hkey, if_neg hkey]
          rfl
      · cases hsum

theorem chargeAt_addNode {total after : Charges} {node : String × CallNode}
    (h : addNode total node = some after) (meter : String) :
    chargeAt after meter = chargeAt total meter + node.2.chargeOf meter :=
  foldlM_addCharges (node.2.charges.getD ∅).nodupKeys h meter

theorem chargeAt_foldlM {nodes : List (String × CallNode)} {total after : Charges}
    (h : nodes.foldlM addNode total = some after) (meter : String) :
    chargeAt after meter =
      chargeAt total meter + (nodes.map fun e => e.2.chargeOf meter).sum := by
  induction nodes generalizing total with
  | nil =>
      cases h
      rfl
  | cons node nodes ih =>
      rw [List.foldlM_cons] at h
      obtain ⟨middle, hmiddle, h⟩ := Option.bind_eq_some_iff.mp h
      rw [ih h, chargeAt_addNode hmiddle, List.map_cons, List.sum_cons]
      omega

/-- What `counters` reports of a tree is what its nodes record. -/
theorem chargeAt_counters {nodes : List (String × CallNode)} {total : Charges}
    (h : counters nodes false = some total) (meter : String) :
    chargeAt total meter = (nodes.map fun e => e.2.chargeOf meter).sum := by
  rw [counters] at h
  rw [chargeAt_foldlM h]
  simp [chargeAt]

/-- A baseline is what the nodes that are not reserved record. -/
theorem chargeAt_baseline {nodes : List (String × CallNode)} {total : Charges}
    (h : counters nodes true = some total) (meter : String) :
    chargeAt total meter = (nodes.map fun e => e.2.countedOf meter).sum := by
  rw [counters] at h
  rw [chargeAt_foldlM h]
  have hsum : ((nodes.filter fun e => ¬ (true ∧ e.2.reservedPending)).map fun e =>
      e.2.chargeOf meter).sum = (nodes.map fun e => e.2.countedOf meter).sum := by
    clear h
    induction nodes with
    | nil => rfl
    | cons e nodes ih =>
        rw [List.filter_cons, List.map_cons, List.sum_cons, ← ih, CallNode.countedOf]
        cases e.2.reservedPending <;> simp
  rw [hsum]
  simp [chargeAt]

/-- Nodes that are reserved count for nothing. -/
theorem sum_countedOf (nodes : List (String × CallNode)) (meter : String) :
    ((nodes.filter fun e => ¬ e.2.reservedPending).map fun e => e.2.countedOf meter).sum =
      (nodes.map fun e => e.2.countedOf meter).sum := by
  induction nodes with
  | nil => rfl
  | cons e nodes ih =>
      rw [List.map_cons, List.sum_cons, ← ih, List.filter_cons]
      cases hpending : e.2.reservedPending <;> simp [CallNode.countedOf, hpending]

/-! ## The tree -/

namespace CallTree

def edges (nodes : CallTree) : Forest.Edges String :=
  (nodes.entries.map fun e => (e.1, e.2.parent)).reverse

/-- The tree has one root, and parents came before their children. -/
structure Rooted (root : String) (nodes : CallTree) : Prop where
  grounded : Forest.Grounded nodes.edges
  root : ∀ id node, nodes.get? id = some node → node.parent = none → id = root

variable {root : String} {nodes : CallTree}

theorem keys_edges (nodes : CallTree) : Forest.keys nodes.edges = nodes.keys.reverse := by
  rw [Forest.keys, edges, List.map_reverse, List.map_map]
  rfl

theorem Rooted.put (h : Rooted root nodes) {id : String} {node : CallNode}
    (hfresh : nodes.get? id = none) (hparent : node.parent.all nodes.contains = true)
    (hroot : node.parent = none → id = root) : Rooted root (nodes.set id node) := by
  have hedges : edges (nodes.set id node) = (id, node.parent) :: edges nodes := by
    rw [edges, edges, Dict.entries_set_of_get?_none _ hfresh, List.map_append, List.reverse_append]
    rfl
  refine ⟨?_, fun other found hother hnone => ?_⟩
  · rw [hedges]
    refine ⟨?_, fun q hq => ?_, h.grounded⟩
    · rw [keys_edges, List.mem_reverse]
      exact Dict.get?_eq_none_iff.mp hfresh
    · rw [keys_edges, List.mem_reverse]
      rw [Option.mem_def.mp hq] at hparent
      by_contra hmem
      rw [Option.all_some, Dict.contains, Dict.get?_eq_none_iff.mpr hmem] at hparent
      cases hparent
  · rw [Dict.get?_set] at hother
    split at hother
    · next heq =>
        cases hother
        rw [← heq, hroot hnone]
    · exact h.root other found hother hnone

/-- Another state of a node leaves the tree. -/
theorem Rooted.replace (h : Rooted root nodes) {id : String} {old node : CallNode}
    (hfound : nodes.get? id = some old) (hparent : node.parent = old.parent) :
    Rooted root (nodes.set id node) := by
  have hedges : edges (nodes.set id node) = edges nodes := by
    obtain ⟨pre, post, hentries, hset, -⟩ := Dict.entries_set_of_get?_some node hfound
    rw [edges, edges, hentries, hset, List.map_append, List.map_append, List.map_cons,
      List.map_cons, hparent]
  refine ⟨hedges ▸ h.grounded, fun other found hother hnone => ?_⟩
  rw [Dict.get?_set] at hother
  split at hother
  · next heq =>
      cases hother
      subst heq
      exact h.root id old hfound (hparent ▸ hnone)
  · exact h.root other found hother hnone

theorem children_perm (nodes : CallTree) (id : String) :
    (nodes.children id).Perm (Forest.childrenOf nodes.edges id) := by
  have hfilter : Forest.childrenOf nodes.edges id =
      ((nodes.entries.filter fun e => e.2.parent = some id).map Prod.fst).reverse := by
    rw [Forest.childrenOf, edges, List.filter_reverse, List.map_reverse, List.filter_map,
      List.map_map]
    rfl
  rw [hfilter, children]
  exact ((List.perm_insertionSort _ _).map _).trans (List.reverse_perm _).symm

/-- A walk from the root finds every node once. -/
theorem Rooted.walk (h : Rooted root nodes) {rooted : CallNode}
    (hroot : nodes.get? root = some rooted) :
    ∃ walked, nodes.walk root = some walked ∧ walked.Perm nodes.entries := by
  have hkeys : root ∈ Forest.keys nodes.edges := by
    rw [keys_edges, List.mem_reverse]
    by_contra hmem
    rw [Dict.get?_eq_none_iff.mpr hmem] at hroot
    cases hroot
  have hbelow : Forest.below nodes.edges root = Forest.keys nodes.edges := by
    rw [Forest.below, List.filter_eq_self]
    intro k hk
    obtain ⟨r, hr, hmem⟩ := Forest.exists_root h.grounded hk
    obtain ⟨e, he, heq⟩ := List.mem_map.mp (List.mem_reverse.mp hmem)
    obtain ⟨key, value⟩ := e
    obtain ⟨rfl, hparent⟩ := Prod.mk.injEq .. ▸ heq
    rw [← h.root key value (Dict.mem_entries_iff.mp he) hparent]
    simpa using hr
  have hwalk := Forest.walk_below h.grounded (children_perm nodes) hkeys
    (show (edges nodes).length ≤ nodes.entries.length + 1 by simp [edges])
  rw [hbelow, keys_edges] at hwalk
  have hfound : ∀ ids : List String, (∀ id ∈ ids, id ∈ nodes.keys) →
      ids.mapM nodes.find = some (ids.filterMap nodes.find) := by
    intro ids hids
    induction ids with
    | nil => rfl
    | cons id ids ih =>
        rw [List.forall_mem_cons] at hids
        obtain ⟨e, he, heq⟩ := List.mem_map.mp hids.1
        have hfind : nodes.find id = some e := by
          rw [find, ← heq, Dict.mem_entries_iff.mp (show (e.1, e.2) ∈ _ from he)]
          rfl
        rw [List.mapM_cons, hfind, ih hids.2, List.filterMap_cons_some hfind]
        rfl
  have hentries : nodes.keys.filterMap nodes.find = nodes.entries := by
    rw [Dict.keys, Assoc.keys, List.filterMap_map]
    refine (List.filterMap_congr fun e he => ?_).trans List.filterMap_some
    rw [Function.comp_apply, find, Dict.mem_entries_iff.mp (show (e.1, e.2) ∈ _ from he)]
    rfl
  refine ⟨_, hfound _ fun id hid => List.mem_reverse.mp (hwalk.mem_iff.mp hid), ?_⟩
  exact ((hwalk.trans (List.reverse_perm _)).filterMap nodes.find).trans (.of_eq hentries)

theorem mapM_find {ids : List String} {walked : List (String × CallNode)}
    (h : ids.mapM nodes.find = some walked) :
    walked.map Prod.fst = ids ∧ ∀ e ∈ walked, nodes.get? e.1 = some e.2 := by
  induction ids generalizing walked with
  | nil =>
      cases h
      exact ⟨rfl, nofun⟩
  | cons id ids ih =>
      rw [List.mapM_cons] at h
      obtain ⟨e, he, h⟩ := Option.bind_eq_some_iff.mp h
      obtain ⟨rest, hrest, h⟩ := Option.bind_eq_some_iff.mp h
      obtain ⟨node, hnode, rfl⟩ := Option.map_eq_some_iff.mp he
      cases h
      obtain ⟨hids, hall⟩ := ih hrest
      refine ⟨by rw [List.map_cons, hids], ?_⟩
      rw [List.forall_mem_cons]
      exact ⟨hnode, hall⟩

/-- A walk from any node finds stored nodes, each once. -/
theorem Rooted.of_walk (h : Rooted root nodes) {anchor : String}
    {walked : List (String × CallNode)} (hwalk : nodes.walk anchor = some walked) :
    (walked.map Prod.fst).Nodup ∧ ∀ e ∈ walked, nodes.get? e.1 = some e.2 := by
  obtain ⟨hids, hfound⟩ := mapM_find hwalk
  refine ⟨?_, hfound⟩
  have hanchor : anchor ∈ walked.map Prod.fst := by
    rw [hids, Forest.walk]
    exact List.mem_cons_self
  obtain ⟨e, he, heq⟩ := List.mem_map.mp hanchor
  have hkeys : anchor ∈ Forest.keys nodes.edges := by
    rw [keys_edges, List.mem_reverse]
    by_contra hmem
    have hget := hfound e he
    rw [heq, Dict.get?_eq_none_iff.mpr hmem] at hget
    cases hget
  have hperm := Forest.walk_below h.grounded (children_perm nodes) hkeys
    (show (edges nodes).length ≤ nodes.entries.length + 1 by simp [edges])
  rw [hids]
  exact hperm.nodup_iff.mpr (h.grounded.nodup.filter _)

/-- What is recorded below the root is recorded on all the nodes. -/
theorem Rooted.recorded (h : Rooted root nodes) (meter : String) :
    Npm.recorded nodes root meter = nodes.sumBy (CallNode.chargeOf meter) := by
  cases hroot : nodes.get? root with
  | some rooted =>
      obtain ⟨walked, hwalk, hperm⟩ := h.walk hroot
      rw [Npm.recorded, hwalk, Option.getD_some, (hperm.map _).sum_eq, Dict.sumBy, Dict.values,
        List.map_map]
      rfl
  | none =>
      have hempty : nodes.entries = [] := by
        rw [List.eq_nil_iff_forall_not_mem]
        intro e he
        have hkey : e.1 ∈ Forest.keys nodes.edges := by
          rw [keys_edges, List.mem_reverse]
          exact List.mem_map_of_mem he
        obtain ⟨r, -, hmem⟩ := Forest.exists_root h.grounded hkey
        obtain ⟨found, hfound, heq⟩ := List.mem_map.mp (List.mem_reverse.mp hmem)
        obtain ⟨key, node⟩ := found
        have hnode := Dict.mem_entries_iff.mp hfound
        rw [Prod.mk.injEq] at heq
        rw [h.root key node hnode heq.2, hroot] at hnode
        cases hnode
      have hwalk : nodes.walk root = none := by
        rw [CallTree.walk, Forest.walk, List.mapM_cons, find, hroot]
        rfl
      rw [Npm.recorded, hwalk, Dict.sumBy, Dict.values, hempty]
      rfl

end CallTree

/-! ## The arbiter -/

theorem reserveBudgets_refused {reservations : Dict ReservationKey ReservationRow}
    {now : Instant} {rows : List BudgetRow} {budgetState after : Dict LedgerKey Decimal}
    {refused : ReservationCheck}
    (h : reserveBudgets reservations now rows budgetState = .ok (some refused, after)) :
    refused.ok = false := by
  induction rows generalizing budgetState with
  | nil => cases h
  | cons row rows ih =>
      rw [reserveBudgets] at h
      obtain ⟨_, -, h⟩ := bind_ok_iff.mp h
      obtain ⟨_, -, h⟩ := bind_ok_iff.mp h
      obtain ⟨_, -, h⟩ := bind_ok_iff.mp h
      dsimp only at h
      split at h
      · cases h
        rfl
      · exact ih h

theorem reserveWindows_refused {reservations : Dict ReservationKey ReservationRow}
    {now : Instant} {requests : List WindowReservation} {events after : List SettledEvent}
    {refused : ReservationCheck}
    (h : reserveWindows reservations now requests events = .ok (some refused, after)) :
    refused.ok = false := by
  induction requests generalizing events with
  | nil => cases h
  | cons request requests ih =>
      rw [reserveWindows] at h
      obtain ⟨_, -, h⟩ := bind_ok_iff.mp h
      split at h
      · next hloop =>
          cases h
          exact Sqlite.reserveWindows_refused hloop
      · exact ih h

theorem amount_ok_iff {value : Decimal} :
    amount value = .ok () ↔ 0 ≤ value ∧ value ≤ maxSafeInteger := ensure_ok_iff

theorem getD_settledOf {budgetState : Dict LedgerKey Decimal} {key : LedgerKey}
    {baseline : Decimal} (hnonneg : 0 ≤ baseline) (h : baseline ≤ budgetState.getD key 0) :
    settledOf (budgetState.get? key) baseline = budgetState.getD key 0 := by
  rw [Dict.getD] at h ⊢
  cases hstored : budgetState.get? key with
  | none =>
      rw [hstored] at h
      exact le_antisymm h hnonneg
  | some settled =>
      rw [hstored, Option.getD_some] at h
      rw [settledOf, if_neg (not_lt.mpr h)]
      rfl

/-- Baselines that a ledger is not behind leave its settled total. -/
theorem reserveBudgets_total {reservations : Dict ReservationKey ReservationRow}
    {now : Instant} {rows : List BudgetRow} {budgetState after : Dict LedgerKey Decimal}
    {check : Option ReservationCheck} {ledger : LedgerKey}
    (h : reserveBudgets reservations now rows budgetState = .ok (check, after))
    (hrows : ∀ row ∈ rows, row.key = ledger → row.baseline ≤ budgetState.getD ledger 0) :
    after.getD ledger 0 = budgetState.getD ledger 0 := by
  induction rows generalizing budgetState with
  | nil =>
      cases h
      rfl
  | cons row rows ih =>
      rw [List.forall_mem_cons] at hrows
      rw [reserveBudgets] at h
      obtain ⟨_, -, h⟩ := bind_ok_iff.mp h
      obtain ⟨_, hbaseline, h⟩ := bind_ok_iff.mp h
      obtain ⟨_, -, h⟩ := bind_ok_iff.mp h
      dsimp only at h
      have hset : (budgetState.set row.key
          (settledOf (budgetState.get? row.key) row.baseline)).getD ledger 0 =
            budgetState.getD ledger 0 := by
        rw [Dict.getD_set]
        split
        · next hkey =>
            subst hkey
            exact getD_settledOf (amount_ok_iff.mp hbaseline).1 (hrows.1 rfl)
        · rfl
      split at h
      · cases h
        exact hset
      · rw [ih h fun other hother hkey => hset ▸ hrows.2 other hother hkey, hset]

theorem reserveBudgets_present {reservations : Dict ReservationKey ReservationRow}
    {now : Instant} {rows : List BudgetRow} {budgetState after : Dict LedgerKey Decimal}
    {check : Option ReservationCheck}
    (h : reserveBudgets reservations now rows budgetState = .ok (check, after)) :
    (∀ ledger, (budgetState.get? ledger).isSome → (after.get? ledger).isSome) ∧
      (check = none → ∀ row ∈ rows, (after.get? row.key).isSome) := by
  induction rows generalizing budgetState with
  | nil =>
      cases h
      exact ⟨fun _ h => h, fun _ => nofun⟩
  | cons row rows ih =>
      rw [reserveBudgets] at h
      obtain ⟨_, -, h⟩ := bind_ok_iff.mp h
      obtain ⟨_, -, h⟩ := bind_ok_iff.mp h
      obtain ⟨_, -, h⟩ := bind_ok_iff.mp h
      dsimp only at h
      have hset : ∀ (settled : Decimal) ledger, (budgetState.get? ledger).isSome →
          ((budgetState.set row.key settled).get? ledger).isSome := by
        intro settled ledger hledger
        rw [Dict.get?_set]
        split
        · rfl
        · exact hledger
      split at h
      · cases h
        exact ⟨fun ledger => hset _ ledger, nofun⟩
      · obtain ⟨hkept, hmade⟩ := ih h
        refine ⟨fun ledger hledger => hkept ledger (hset _ ledger hledger), fun hnone => ?_⟩
        rw [List.forall_mem_cons]
        exact ⟨hkept _ (by simp), hmade hnone⟩

/-- What a reserve does to the tables. -/
structure Reserves (reservationId : String) (budgets : List BudgetReservation)
    (db after : SqliteState) (check : ReservationCheck) : Prop where
  kept : ∀ ledger, (db.budgetState.get? ledger).isSome → (after.budgetState.get? ledger).isSome
  total : ∀ ledger, (∀ row ∈ budgetRows budgets, row.key = ledger →
    row.baseline ≤ db.total ledger) → after.total ledger = db.total ledger
  fresh : rowsOf reservationId db = []
  others : ∀ other, other ≠ reservationId → rowsOf other after = rowsOf other db
  made : check.ok = true → ∃ windows, rowsOf reservationId after =
      (reservationDetails budgets windows).map (reservationKey reservationId) ∧
    (rowsOf reservationId after).Nodup ∧
    ∀ row ∈ budgetRows budgets, (after.budgetState.get? row.key).isSome

theorem reserves_of_ok {now : Instant} {reservationId : String}
    {budgets : List BudgetReservation} {windows : List WindowReservation} {leaseSeconds : ℚ}
    {db after : SqliteState} {check : ReservationCheck}
    (h : pollardReserve now reservationId budgets windows leaseSeconds db =
      .ok (check, after)) : Reserves reservationId budgets db after check := by
  unfold pollardReserve at h
  obtain ⟨_, -, h⟩ := bind_ok_iff.mp h
  obtain ⟨_, -, h⟩ := bind_ok_iff.mp h
  obtain ⟨_, hfresh, h⟩ := bind_ok_iff.mp h
  have hfresh := ensure_ok_iff.mp hfresh
  obtain ⟨loop, hloop, h⟩ := bind_ok_iff.mp h
  obtain ⟨stopped, budgetState⟩ := loop
  have hpresent := reserveBudgets_present hloop
  have htotal : ∀ ledger, (∀ row ∈ budgetRows budgets, row.key = ledger →
      row.baseline ≤ db.total ledger) → budgetState.getD ledger 0 = db.total ledger :=
    fun ledger hrows => reserveBudgets_total hloop hrows
  cases stopped with
  | some refused =>
      cases h
      refine ⟨hpresent.1, htotal, hfresh, fun _ _ => rfl, fun hok => ?_⟩
      rw [reserveBudgets_refused hloop] at hok
      cases hok
  | none =>
      obtain ⟨loop, hwindows, h⟩ := bind_ok_iff.mp h
      obtain ⟨stopped, windowEvents⟩ := loop
      cases stopped with
      | some refused =>
          cases h
          refine ⟨hpresent.1, htotal, hfresh, fun _ _ => rfl, fun hok => ?_⟩
          rw [reserveWindows_refused hwindows] at hok
          cases hok
      | none =>
          obtain ⟨reservations, hinsert, h⟩ := bind_ok_iff.mp h
          cases h
          have hinsert := mapError_ok hinsert
          have hkeys := insertReservations_ok hinsert
          have hown : rowsOf reservationId ⟨budgetState, reservations, windowEvents⟩ =
              (reservationDetails budgets windows).map (reservationKey reservationId) := by
            rw [rowsOf, hkeys, List.filter_append]
            change rowsOf reservationId db ++ _ = _
            rw [hfresh, List.nil_append, List.filter_eq_self]
            intro key hkey
            obtain ⟨detail, -, rfl⟩ := List.mem_map.mp hkey
            simp [reservationKey]
          refine ⟨hpresent.1, htotal, hfresh, fun other hother => ?_, fun _ => ?_⟩
          · have hsame : rowsOf other ⟨budgetState, reservations, windowEvents⟩ = rowsOf other db :=
              rowsOf_insertReservations hother.symm hinsert
            exact hsame
          · exact ⟨windows, hown, reservations.nodupKeys.filter _, hpresent.2 rfl⟩

/-- The rows of a reservation charge a ledger once, and none of their ledgers is missing. -/
structure Charging (ledger : LedgerKey) (reservationId : String) (db : SqliteState) : Prop where
  once : (budgetLedgers (rowsOf reservationId db)).count ledger = 1
  ledgers : ∀ other ∈ budgetLedgers (rowsOf reservationId db),
    (db.budgetState.get? other).isSome

theorem Charging.of_rows {ledger : LedgerKey} {reservationId : String} {db after : SqliteState}
    (h : Charging ledger reservationId db)
    (hrows : rowsOf reservationId after = rowsOf reservationId db)
    (hkept : ∀ other, (db.budgetState.get? other).isSome →
      (after.budgetState.get? other).isSome) : Charging ledger reservationId after :=
  ⟨hrows ▸ h.once, fun other hother => hkept other (h.ledgers other (hrows ▸ hother))⟩

theorem budgetLedgers_reservationDetails (reservationId : String)
    (budgets : List BudgetReservation) (windows : List WindowReservation) :
    budgetLedgers ((reservationDetails budgets windows).map (reservationKey reservationId)) =
      (budgetRows budgets).map BudgetRow.key := by
  rw [budgetLedgers, reservationDetails, List.map_append, List.filter_append]
  have hbudgets : (((budgetRows budgets).map budgetDetail).map
      (reservationKey reservationId)).filter (fun key => key.kind = .budget) =
        ((budgetRows budgets).map budgetDetail).map (reservationKey reservationId) := by
    rw [List.filter_eq_self, List.map_map, List.forall_mem_map]
    exact fun _ _ => rfl
  have hwindows : ((windows.map windowDetail).map (reservationKey reservationId)).filter
      (fun key => key.kind = .budget) = [] := by
    rw [List.filter_eq_nil_iff, List.map_map, List.forall_mem_map]
    exact fun _ _ => by simp [reservationKey, windowDetail]
  rw [hbudgets, hwindows, List.append_nil, List.map_map, List.map_map]
  rfl

/-- An accepted reservation charges each ledger it names. -/
theorem Reserves.charging {reservationId : String} {budgets : List BudgetReservation}
    {db after : SqliteState} {check : ReservationCheck}
    (h : Reserves reservationId budgets db after check) (hok : check.ok = true)
    {ledger : LedgerKey} (hledger : ledger ∈ (budgetRows budgets).map BudgetRow.key) :
    Charging ledger reservationId after := by
  obtain ⟨windows, hrows, hnodup, hpresent⟩ := h.made hok
  have hledgers := budgetLedgers_reservationDetails reservationId budgets windows
  rw [← hrows] at hledgers
  refine ⟨List.count_eq_one_of_mem ?_ (hledgers ▸ hledger), fun other hother => ?_⟩
  · refine (hnodup.filter _).map_on fun a ha b hb heq => ?_
    obtain ⟨hmema, hkinda⟩ := List.mem_filter.mp ha
    obtain ⟨hmemb, hkindb⟩ := List.mem_filter.mp hb
    have hida := of_decide_eq_true (List.mem_filter.mp hmema).2
    have hidb := of_decide_eq_true (List.mem_filter.mp hmemb).2
    have hkinda : a.kind = .budget := of_decide_eq_true hkinda
    have hkindb : b.kind = .budget := of_decide_eq_true hkindb
    rw [Prod.mk.injEq] at heq
    obtain ⟨id, kind, scope, meter⟩ := a
    obtain ⟨id', kind', scope', meter'⟩ := b
    rw [ReservationKey.mk.injEq]
    exact ⟨hida.trans hidb.symm, hkinda.trans hkindb.symm, heq.1, heq.2⟩
  · rw [hledgers] at hother
    obtain ⟨row, hrow, rfl⟩ := List.mem_map.mp hother
    exact hpresent row hrow

theorem settle_ok {now : Instant} {reservationId : String} {charges : Dict String Decimal}
    {db after : SqliteState} (h : Sqlite.settle now reservationId charges db = .ok after) :
    (∀ ledger, (db.budgetState.get? ledger).isSome → (after.budgetState.get? ledger).isSome) ∧
      ∀ other, other ≠ reservationId → rowsOf other after = rowsOf other db := by
  obtain ⟨middle, hmiddle, rfl⟩ := map_ok_iff.mp h
  obtain ⟨hreservations, hkept⟩ := settleRows_ok hmiddle
  refine ⟨hkept, fun other hother => ?_⟩
  rw [rowsOf_dropRows hother.symm, rowsOf, rowsOf, hreservations]

/-- A settlement adds the charge of a meter once to the ledger the reservation charges. -/
theorem Charging.settles {ledger : LedgerKey} {reservationId : String} {db : SqliteState}
    (h : Charging ledger reservationId db) (now : Instant) {charges : Charges}
    (hsafe : charges.safe = true) :
    ∃ after, pollardSettle now reservationId charges db = .ok after ∧
      after.total ledger = db.total ledger + (chargeAt charges ledger.2 : ℕ) ∧
      (∀ other, (db.budgetState.get? other).isSome → (after.budgetState.get? other).isSome) ∧
      ∀ other, other ≠ reservationId → rowsOf other after = rowsOf other db := by
  have hamounts : checkAll amount charges.amounts.values = .ok () := by
    rw [checkAll_ok_iff]
    intro value hvalue
    obtain ⟨e, he, rfl⟩ := List.mem_map.mp hvalue
    obtain ⟨own, hown, rfl⟩ := List.mem_map.mp he
    have hle := of_decide_eq_true (List.all_eq_true.mp hsafe own.2 (List.mem_map_of_mem hown))
    exact amount_ok_iff.mpr ⟨Nat.cast_nonneg _, Nat.cast_le.mpr hle⟩
  have hcharge : charges.amounts.getD ledger.2 0 = (chargeAt charges ledger.2 : ℕ) := by
    rw [Charges.amounts, Dict.getD, Dict.get?_map, chargeAt, Dict.getD]
    cases charges.get? ledger.2 <;> simp
  obtain ⟨middle, hmiddle, htotal⟩ := settleRows_returns charges.amounts now
    (rowsOf reservationId db) db h.ledgers
  have hsettle : Sqlite.settle now reservationId charges.amounts db =
      .ok (dropRows reservationId middle) := by
    rw [Sqlite.settle, hmiddle]
    rfl
  obtain ⟨hkept, hothers⟩ := settle_ok hsettle
  refine ⟨dropRows reservationId middle, ?_, ?_, hkept, hothers⟩
  · unfold pollardSettle
    rw [hamounts, hsettle]
    rfl
  · change middle.total ledger = _
    rw [htotal, h.once, hcharge, Nat.cast_one, one_mul]

/-! ## The runs -/

namespace Phase

/-- The node a call has claimed, and the state the call has put it in. -/
def dispatch : Phase → Option (Call × Option String × CallState)
  | running call reservationId => some (call, reservationId, .pending)
  | finishing call reservationId _ => some (call, reservationId, .pending)
  | failing call reservationId => some (call, reservationId, .pending)
  | failed call reservationId => some (call, reservationId, .failed)
  | _ => none

/-- The reservation that is still to be settled or released. -/
def holds : Phase → Option String
  | reserved _ reservationId => reservationId
  | releasing reservationId => some reservationId
  | running _ reservationId => reservationId
  | failing _ reservationId => reservationId
  | failed _ reservationId => reservationId
  | _ => none

/-- A call is dispatched with a reservation. -/
def priced : Phase → Bool
  | reserved _ reservationId => reservationId.isSome
  | running _ reservationId => reservationId.isSome
  | finishing _ reservationId _ => reservationId.isSome
  | failing _ reservationId => reservationId.isSome
  | failed _ reservationId => reservationId.isSome
  | _ => true

/-- The estimates of a call are safe integers. -/
def safe : Phase → Bool
  | measuring call _ _ => call.estimates.safe
  | reserved call _ => call.estimates.safe
  | running call _ => call.estimates.safe
  | failing call _ => call.estimates.safe
  | failed call _ => call.estimates.safe
  | _ => true

/-- What is settled for a node that does not count yet. -/
def ahead (meter : String) : Phase → ℕ
  | finishing _ _ charges => chargeAt charges meter
  | _ => 0

/-- The call of a node that counts before it is settled. -/
def unsettled : Phase → Option Call
  | failed call _ => some call
  | _ => none

def owed (meter : String) (phase : Phase) : ℕ :=
  (phase.unsettled.map fun call => chargeAt call.estimatedCharges meter).getD 0

def readings : Phase → List Reading
  | measuring _ _ readings => readings
  | _ => []

end Phase

namespace World

variable {root : String} {limits : Dict String Decimal} {s : World} {meter : String}

theorem phase_goto (s : World) (run : ℕ) (phase : Phase) (other : ℕ) :
    (s.goto run phase).phase other = if run = other then phase else s.phase other :=
  Dict.getD_set s.runs run phase other .idle

theorem sumBy_goto (weight : Phase → ℕ) (hidle : weight .idle = 0) (s : World) (run : ℕ)
    (phase : Phase) :
    (s.goto run phase).runs.sumBy weight + weight (s.phase run) =
      s.runs.sumBy weight + weight phase := by
  rw [World.phase, Dict.getD]
  cases hfound : s.runs.get? run with
  | none =>
      rw [Option.getD_none, hidle, add_zero]
      exact Dict.sumBy_set_of_get?_none weight phase hfound
  | some old => exact Dict.sumBy_set_of_get?_some weight phase hfound

/-- What was read and counted is still there. -/
def Current (nodes : CallTree) (reading : Reading) : Prop :=
  (reading.nodes.map Prod.fst).Nodup ∧
    ∀ e ∈ reading.nodes, e.2.reservedPending = false → nodes.get? e.1 = some e.2

/-- What holds of the tree and the claims of the runs. -/
structure Claimed (root : String) (s : World) : Prop where
  rooted : s.nodes.Rooted root
  owns : ∀ run call reservationId state,
    (s.phase run).dispatch = some (call, reservationId, state) →
      s.nodes.get? call.id = some { call.pending reservationId with state := some state }
  apart : ∀ run other call reservationId state call' reservationId' state',
    (s.phase run).dispatch = some (call, reservationId, state) →
      (s.phase other).dispatch = some (call', reservationId', state') →
        call.id = call'.id → run = other
  pendings : ∀ id node, s.nodes.get? id = some node → node.state = some .pending →
    ∃ run call reservationId, (s.phase run).dispatch = some (call, reservationId, .pending) ∧
      call.id = id
  current : ∀ run, ∀ reading ∈ (s.phase run).readings, Current s.nodes reading

/-- What holds of the ledger and the reservations of the runs. -/
structure Funded (root : String) (limits : Dict String Decimal) (meter : String) (s : World) :
    Prop where
  held : ∀ run reservationId, (s.phase run).holds = some reservationId →
    Charging (root, meter) reservationId s.ledger
  apart : ∀ run other reservationId, (s.phase run).holds = some reservationId →
    (s.phase other).holds = some reservationId → run = other
  priced : ∀ run, (s.phase run).priced = true
  safe : ∀ run, (s.phase run).safe = true
  covers : ∀ run call scopes readings, s.phase run = .measuring call scopes readings →
    ∃ inner, readings.map Reading.scope ++ scopes = ⟨root, limits⟩ :: inner

/-- The ledger and the tree, up to what the calls in flight have done to one of them only. -/
def Balanced (root meter : String) (s : World) : Prop :=
  s.ledger.total (root, meter) + (s.runs.sumBy (Phase.owed meter) : ℕ) =
    ((s.nodes.sumBy (CallNode.countedOf meter) + s.runs.sumBy (Phase.ahead meter) : ℕ) : ℚ)


/-! ## Steps and the claims -/

theorem Current.keep {nodes nodes' : CallTree} {reading : Reading} (h : Current nodes reading)
    (hkeep : ∀ id node, nodes.get? id = some node → node.reservedPending = false →
      nodes'.get? id = some node) : Current nodes' reading :=
  ⟨h.1, fun e he hcounted => hkeep e.1 e.2 (h.2 e he hcounted) hcounted⟩

theorem Claimed.withLedger (h : Claimed root s) (ledger : SqliteState) :
    Claimed root { s with ledger } :=
  ⟨h.rooted, h.owns, h.apart, h.pendings, h.current⟩

/-- A run goes on with the node it has, or leaves one that is not pending. -/
theorem Claimed.goto (h : Claimed root s) {run : ℕ} {phase : Phase}
    (hdispatch : phase.dispatch = (s.phase run).dispatch ∨
      phase.dispatch = none ∧
        ∀ call reservationId, (s.phase run).dispatch ≠ some (call, reservationId, .pending))
    (hcurrent : ∀ reading ∈ phase.readings, Current s.nodes reading) :
    Claimed root (s.goto run phase) := by
  have hsub : ∀ other x, ((s.goto run phase).phase other).dispatch = some x →
      (s.phase other).dispatch = some x := by
    intro other x hx
    rw [phase_goto] at hx
    split at hx
    · next heq =>
        subst heq
        rcases hdispatch with hsame | ⟨hnone, -⟩
        · exact hsame ▸ hx
        · rw [hnone] at hx
          cases hx
    · exact hx
  refine ⟨h.rooted, fun other call reservationId state hx => h.owns other _ _ _ (hsub other _ hx),
    fun other third call reservationId state call' reservationId' state' hx hy =>
      h.apart other third _ _ _ _ _ _ (hsub other _ hx) (hsub third _ hy),
    fun id node hnode hpending => ?_, fun other reading hreading => ?_⟩
  · obtain ⟨other, call, reservationId, hx, hid⟩ := h.pendings id node hnode hpending
    refine ⟨other, call, reservationId, ?_, hid⟩
    rw [phase_goto]
    split
    · next heq =>
        subst heq
        rcases hdispatch with hsame | ⟨-, hnot⟩
        · rw [hsame, hx]
        · exact absurd hx (hnot call reservationId)
    · exact hx
  · rw [phase_goto] at hreading
    split at hreading
    · exact hcurrent reading hreading
    · exact h.current other reading hreading

/-- A node without a state is put. -/
theorem Claimed.put (h : Claimed root s) {id : String} {node : CallNode}
    (hstate : node.state = none) (hroot : node.parent = none → id = root) :
    Claimed root (s.put id node) := by
  rw [World.put, CallTree.put]
  split
  · next hparent =>
      split
      · exact h
      · next hfresh =>
          rw [Dict.contains, Bool.not_eq_true, Option.isSome_eq_false_iff,
            Option.isNone_iff_eq_none] at hfresh
          have hkeep : ∀ other found, s.nodes.get? other = some found →
              (s.nodes.set id node).get? other = some found := by
            intro other found hfound
            rw [Dict.get?_set_of_ne, hfound]
            rintro rfl
            rw [hfresh] at hfound
            cases hfound
          refine ⟨h.rooted.put hfresh hparent hroot,
            fun run call reservationId state hx => hkeep _ _ (h.owns run _ _ _ hx), h.apart,
            fun other found hfound hpending => ?_, fun run reading hreading =>
              (h.current run reading hreading).keep fun other found hfound _ =>
                hkeep other found hfound⟩
          rw [Option.getD_some, Dict.get?_set] at hfound
          split at hfound
          · cases hfound
            rw [hstate] at hpending
            cases hpending
          · exact h.pendings other found hfound hpending
  · exact h

/-- A run claims a node that was not there. -/
theorem Claimed.claim (h : Claimed root s) {run : ℕ} {call : Call}
    {reservationId : Option String} (hold : (s.phase run).dispatch = none)
    (hfresh : s.nodes.get? call.id = none)
    (hparent : s.nodes.contains call.parent = true) :
    Claimed root ({ s with nodes := s.nodes.set call.id (call.pending reservationId) }.goto run
      (.running call reservationId)) := by
  have hkeep : ∀ other found, s.nodes.get? other = some found →
      (s.nodes.set call.id (call.pending reservationId)).get? other = some found := by
    intro other found hfound
    rw [Dict.get?_set_of_ne, hfound]
    rintro rfl
    rw [hfresh] at hfound
    cases hfound
  let after : World := { s with nodes := s.nodes.set call.id (call.pending reservationId) }
  have hcases : ∀ other x,
      ((after.goto run (.running call reservationId)).phase other).dispatch = some x →
        run = other ∧ x = (call, reservationId, .pending) ∨
          (s.phase other).dispatch = some x := by
    intro other x hx
    rw [phase_goto] at hx
    split at hx
    · next heq =>
        cases hx
        exact .inl ⟨heq, rfl⟩
    · exact .inr hx
  have hother : ∀ other call' reservationId' state',
      (s.phase other).dispatch = some (call', reservationId', state') → call'.id ≠ call.id := by
    intro other call' reservationId' state' hx heq
    have hfound := h.owns other call' reservationId' state' hx
    rw [heq, hfresh] at hfound
    cases hfound
  refine ⟨h.rooted.put hfresh hparent nofun, fun other call' reservationId' state' hx => ?_,
    fun other third call₁ reservationId₁ state₁ call₂ reservationId₂ state₂ hx hy heq => ?_,
    fun id node hnode hpending => ?_, fun other reading hreading => ?_⟩
  · rcases hcases other _ hx with ⟨-, heq⟩ | hx
    · cases heq
      exact Dict.get?_set_self _ _ _
    · exact hkeep _ _ (h.owns other _ _ _ hx)
  · rcases hcases other _ hx with ⟨hrun, hown⟩ | hold <;>
      rcases hcases third _ hy with ⟨hrun', hown'⟩ | hold'
    · exact hrun.symm.trans hrun'
    · cases hown
      exact absurd heq.symm (hother third _ _ _ hold')
    · cases hown'
      exact absurd heq (hother other _ _ _ hold)
    · exact h.apart other third _ _ _ _ _ _ hold hold' heq
  · change (s.nodes.set _ _).get? id = some node at hnode
    rw [Dict.get?_set] at hnode
    split at hnode
    · next heq =>
        refine ⟨run, call, reservationId, ?_, heq⟩
        rw [phase_goto, if_pos rfl]
        rfl
    · obtain ⟨other, call', reservationId', hx, hid⟩ := h.pendings id node hnode hpending
      refine ⟨other, call', reservationId', ?_, hid⟩
      rw [phase_goto, if_neg]
      · exact hx
      · rintro rfl
        change (s.phase run).dispatch = _ at hx
        rw [hold] at hx
        cases hx
  · rw [phase_goto] at hreading
    split at hreading
    · cases hreading
    · exact (h.current other reading hreading).keep fun id node hnode _ => hkeep id node hnode

/-- A run changes the state of the node it has pending. -/
theorem Claimed.replace (h : Claimed root s) {run : ℕ} {call : Call}
    {reservationId : Option String} {node : CallNode} {phase : Phase}
    (hold : (s.phase run).dispatch = some (call, reservationId, .pending))
    (hreserved : reservationId.isSome = true)
    (hparent : node.parent = some call.parent) (hstate : node.state ≠ some .pending)
    (hdispatch : ∀ x, phase.dispatch = some x → ∃ state, x = (call, reservationId, state) ∧
      node = { call.pending reservationId with state := some state })
    (hreadings : phase.readings = []) :
    Claimed root ({ s with nodes := s.nodes.set call.id node }.goto run phase) := by
  have hown := h.owns run call reservationId .pending hold
  let after : World := { s with nodes := s.nodes.set call.id node }
  have hcases : ∀ other x, ((after.goto run phase).phase other).dispatch = some x →
      run = other ∧ phase.dispatch = some x ∨
        run ≠ other ∧ (s.phase other).dispatch = some x := by
    intro other x hx
    rw [phase_goto] at hx
    split at hx
    · next heq => exact .inl ⟨heq, hx⟩
    · next hne => exact .inr ⟨hne, hx⟩
  have hother : ∀ other call' reservationId' state', run ≠ other →
      (s.phase other).dispatch = some (call', reservationId', state') → call.id ≠ call'.id :=
    fun other call' reservationId' state' hne hx heq =>
      hne (h.apart run other _ _ _ _ _ _ hold hx heq)
  refine ⟨h.rooted.replace hown hparent, fun other call' reservationId' state' hx => ?_,
    fun other third call₁ reservationId₁ state₁ call₂ reservationId₂ state₂ hx hy heq => ?_,
    fun id found hfound hpending => ?_, fun other reading hreading => ?_⟩
  · change (s.nodes.set _ _).get? _ = _
    rcases hcases other _ hx with ⟨-, hx⟩ | ⟨hne, hx⟩
    · obtain ⟨state, heq, hnode⟩ := hdispatch _ hx
      cases heq
      rw [Dict.get?_set_self, hnode]
    · rw [Dict.get?_set_of_ne _ _ (hother other _ _ _ hne hx)]
      exact h.owns other _ _ _ hx
  · rcases hcases other _ hx with ⟨hrun, hnew⟩ | ⟨hne, hkept⟩ <;>
      rcases hcases third _ hy with ⟨hrun', hnew'⟩ | ⟨hne', hkept'⟩
    · exact hrun.symm.trans hrun'
    · obtain ⟨state, heq', -⟩ := hdispatch _ hnew
      cases heq'
      exact absurd heq (hother third _ _ _ hne' hkept')
    · obtain ⟨state, heq', -⟩ := hdispatch _ hnew'
      cases heq'
      exact absurd heq.symm (hother other _ _ _ hne hkept)
    · exact h.apart other third _ _ _ _ _ _ hkept hkept' heq
  · change (s.nodes.set _ _).get? id = some found at hfound
    rw [Dict.get?_set] at hfound
    split at hfound
    · cases hfound
      exact absurd hpending hstate
    · next hne =>
        obtain ⟨other, call', reservationId', hx, hid⟩ := h.pendings id found hfound hpending
        refine ⟨other, call', reservationId', ?_, hid⟩
        rw [phase_goto, if_neg]
        · exact hx
        · rintro rfl
          change (s.phase run).dispatch = _ at hx
          rw [hold] at hx
          cases hx
          exact hne hid
  · rw [phase_goto] at hreading
    split at hreading
    · rw [hreadings] at hreading
      cases hreading
    · refine (h.current other reading hreading).keep fun id found hfound hcounted => ?_
      change (s.nodes.set _ _).get? id = some found
      rw [Dict.get?_set_of_ne, hfound]
      rintro rfl
      rw [hown] at hfound
      cases hfound
      rw [CallNode.reservedPending, decide_eq_false_iff_not] at hcounted
      exact hcounted ⟨rfl, hreserved⟩

/-! ## Steps and the reservations -/

theorem Funded.withNodes (h : Funded root limits meter s) (nodes : CallTree) :
    Funded root limits meter { s with nodes } :=
  ⟨h.held, h.apart, h.priced, h.safe, h.covers⟩

theorem Funded.goto (h : Funded root limits meter s) {run : ℕ} {phase : Phase}
    {ledger : SqliteState}
    (hkept : ∀ other, (s.ledger.budgetState.get? other).isSome →
      (ledger.budgetState.get? other).isSome)
    (hrows : ∀ other reservationId, run ≠ other → (s.phase other).holds = some reservationId →
      rowsOf reservationId ledger = rowsOf reservationId s.ledger)
    (hheld : ∀ reservationId, phase.holds = some reservationId →
      Charging (root, meter) reservationId ledger ∧
        ∀ other, run ≠ other → (s.phase other).holds ≠ some reservationId)
    (hpriced : phase.priced = true) (hsafe : phase.safe = true)
    (hcovers : ∀ call scopes readings, phase = .measuring call scopes readings →
      ∃ inner, readings.map Reading.scope ++ scopes = ⟨root, limits⟩ :: inner) :
    Funded root limits meter ({ s with ledger }.goto run phase) := by
  have hphase : ∀ other, (({ s with ledger } : World).goto run phase).phase other =
      if run = other then phase else s.phase other := fun other => phase_goto _ _ _ _
  refine ⟨fun other reservationId hholds => ?_, fun other third reservationId hx hy => ?_,
    fun other => ?_, fun other => ?_, fun other call scopes readings heq => ?_⟩
  · rw [hphase] at hholds
    split at hholds
    · exact (hheld reservationId hholds).1
    · next hne =>
        exact (h.held other reservationId hholds).of_rows (hrows other _ hne hholds) hkept
  · rw [hphase] at hx hy
    split at hx <;> split at hy
    · next heq heq' => exact heq.symm.trans heq'
    · next heq hne => exact absurd hy ((hheld reservationId hx).2 third hne)
    · next hne heq => exact absurd hx ((hheld reservationId hy).2 other hne)
    · exact h.apart other third reservationId hx hy
  · rw [hphase]
    split
    · exact hpriced
    · exact h.priced other
  · rw [hphase]
    split
    · exact hsafe
    · exact h.safe other
  · rw [hphase] at heq
    split at heq
    · exact hcovers call scopes readings heq
    · exact h.covers other call scopes readings heq

/-- A run moves on, and the tables stay. -/
theorem Funded.stay (h : Funded root limits meter s) {run : ℕ} {phase : Phase}
    (hholds : ∀ reservationId, phase.holds = some reservationId →
      (s.phase run).holds = some reservationId)
    (hpriced : phase.priced = true) (hsafe : phase.safe = true)
    (hcovers : ∀ call scopes readings, phase = .measuring call scopes readings →
      ∃ inner, readings.map Reading.scope ++ scopes = ⟨root, limits⟩ :: inner) :
    Funded root limits meter (s.goto run phase) :=
  h.goto (fun _ (h : (s.ledger.budgetState.get? _).isSome) => h) (fun _ _ _ _ => rfl)
    (fun reservationId hphase => ⟨h.held run reservationId (hholds reservationId hphase),
      fun other hne hother =>
        hne (h.apart run other reservationId (hholds reservationId hphase) hother)⟩)
    hpriced hsafe hcovers

/-! ## Steps and the balance -/

theorem Balanced.goto (h : Balanced root meter s) {run : ℕ} {phase : Phase}
    (howed : phase.owed meter = (s.phase run).owed meter)
    (hahead : phase.ahead meter = (s.phase run).ahead meter) :
    Balanced root meter (s.goto run phase) := by
  have ho := sumBy_goto (Phase.owed meter) rfl s run phase
  have ha := sumBy_goto (Phase.ahead meter) rfl s run phase
  rw [howed, Nat.add_right_cancel_iff] at ho
  rw [hahead, Nat.add_right_cancel_iff] at ha
  rw [Balanced, ho, ha]
  exact h

/-- The ledger, the tree and one run change by amounts that match. -/
theorem Balanced.shift (h : Balanced root meter s) {after : World} (run : ℕ) {phase : Phase}
    (settled gained lost : ℕ) (hruns : after.runs = (s.goto run phase).runs)
    (hledger : after.ledger.total (root, meter) = s.ledger.total (root, meter) + (settled : ℚ))
    (hnodes : after.nodes.sumBy (CallNode.countedOf meter) + lost =
      s.nodes.sumBy (CallNode.countedOf meter) + gained)
    (hmatch : settled + phase.owed meter + (s.phase run).ahead meter + lost =
      (s.phase run).owed meter + phase.ahead meter + gained) :
    Balanced root meter after := by
  have ho := sumBy_goto (Phase.owed meter) rfl s run phase
  have ha := sumBy_goto (Phase.ahead meter) rfl s run phase
  rw [← hruns] at ho ha
  rw [Balanced] at h ⊢
  rw [hledger]
  have ho' : ((after.runs.sumBy (Phase.owed meter) + (s.phase run).owed meter : ℕ) : ℚ) =
    ((s.runs.sumBy (Phase.owed meter) + phase.owed meter : ℕ) : ℚ) := congrArg _ ho
  have ha' : ((after.runs.sumBy (Phase.ahead meter) + (s.phase run).ahead meter : ℕ) : ℚ) =
    ((s.runs.sumBy (Phase.ahead meter) + phase.ahead meter : ℕ) : ℚ) := congrArg _ ha
  have hn' : ((after.nodes.sumBy (CallNode.countedOf meter) + lost : ℕ) : ℚ) =
    ((s.nodes.sumBy (CallNode.countedOf meter) + gained : ℕ) : ℚ) := congrArg _ hnodes
  have hm' : ((settled + phase.owed meter + (s.phase run).ahead meter + lost : ℕ) : ℚ) =
    (((s.phase run).owed meter + phase.ahead meter + gained : ℕ) : ℚ) := congrArg _ hmatch
  push_cast at h ho' ha' hn' hm' ⊢
  linarith

/-! ## Baselines -/

/-- Reads the failed calls whose settlement is to come. -/
def unsettledCalls (s : World) : List Call := s.runs.values.filterMap Phase.unsettled

theorem phase_of_mem {s : World} {phase : Phase} (h : phase ∈ s.runs.values) :
    ∃ run, s.phase run = phase := by
  obtain ⟨run, hrun⟩ := Dict.exists_get?_of_mem_values h
  exact ⟨run, by rw [World.phase, Dict.getD, hrun, Option.getD_some]⟩

theorem unsettled_dispatch {phase : Phase} {call : Call} (h : phase.unsettled = some call) :
    ∃ reservationId, phase.dispatch = some (call, reservationId, .failed) := by
  cases phase <;> cases h
  exact ⟨_, rfl⟩

theorem sumBy_owed (s : World) (meter : String) : s.runs.sumBy (Phase.owed meter) =
    (s.unsettledCalls.map fun call => chargeAt call.estimatedCharges meter).sum := by
  rw [Dict.sumBy, unsettledCalls]
  induction s.runs.values with
  | nil => rfl
  | cons phase phases ih =>
      rw [List.map_cons, List.sum_cons, ih, Phase.owed, List.filterMap_cons]
      cases phase.unsettled <;> simp

theorem Claimed.nodup_unsettled (h : Claimed root s) :
    (s.unsettledCalls.map Call.id).Nodup := by
  rw [unsettledCalls, List.map_filterMap]
  refine Dict.nodup_filterMap_values fun run other phase phase' id hrun hother hx hy => ?_
  obtain ⟨call, hcall, rfl⟩ := Option.map_eq_some_iff.mp hx
  obtain ⟨call', hcall', hid⟩ := Option.map_eq_some_iff.mp hy
  obtain ⟨first, hx⟩ := unsettled_dispatch hcall
  obtain ⟨second, hy⟩ := unsettled_dispatch hcall'
  refine h.apart run other call first .failed call' second .failed ?_ ?_ hid.symm
  · rw [World.phase, Dict.getD, hrun]
    exact hx
  · rw [World.phase, Dict.getD, hother]
    exact hy

theorem Claimed.unsettled_node (h : Claimed root s) (meter : String) {call : Call}
    (hcall : call ∈ s.unsettledCalls) : ∃ node, s.nodes.get? call.id = some node ∧
      node.state = some .failed ∧
        node.countedOf meter = chargeAt call.estimatedCharges meter := by
  obtain ⟨phase, hphase, hunsettled⟩ := List.mem_filterMap.mp hcall
  obtain ⟨run, rfl⟩ := phase_of_mem hphase
  obtain ⟨reservationId, hdispatch⟩ := unsettled_dispatch hunsettled
  exact ⟨_, h.owns run _ _ _ hdispatch, rfl, rfl⟩

/-- What is read, and what failed calls still owe, is all in the tree. -/
theorem Claimed.baseline_le (h : Claimed root s) {reading : Reading}
    (hcurrent : Current s.nodes reading)
    (htimely : ∀ call ∈ s.unsettledCalls, ∀ e ∈ reading.nodes, e.1 = call.id →
      e.2.state ≠ some .failed) (meter : String) :
    chargeAt reading.baseline meter + s.runs.sumBy (Phase.owed meter) ≤
      s.nodes.sumBy (CallNode.countedOf meter) := by
  let weight (id : String) : ℕ := ((s.nodes.get? id).map (CallNode.countedOf meter)).getD 0
  let counted := reading.nodes.filter fun e => ¬ e.2.reservedPending
  have hcounted : ∀ e ∈ counted, s.nodes.get? e.1 = some e.2 ∧ e ∈ reading.nodes := by
    intro e he
    obtain ⟨hmem, hnot⟩ := List.mem_filter.mp he
    exact ⟨hcurrent.2 e hmem (by simpa using hnot), hmem⟩
  have hbaseline : chargeAt reading.baseline meter =
      ((counted.map Prod.fst).map weight).sum := by
    rw [chargeAt_baseline reading.counted, ← sum_countedOf, List.map_map]
    refine congrArg List.sum (List.map_congr_left fun e he => ?_)
    simp only [Function.comp_apply, weight, (hcounted e he).1, Option.map_some, Option.getD_some]
  have howed : s.runs.sumBy (Phase.owed meter) =
      ((s.unsettledCalls.map Call.id).map weight).sum := by
    rw [sumBy_owed, List.map_map]
    refine congrArg List.sum (List.map_congr_left fun call hcall => ?_)
    obtain ⟨node, hnode, -, hcharge⟩ := h.unsettled_node meter hcall
    simp only [Function.comp_apply, weight, hnode, Option.map_some, Option.getD_some, hcharge]
  have hall : s.nodes.sumBy (CallNode.countedOf meter) = (s.nodes.keys.map weight).sum := by
    rw [Dict.sumBy, Dict.values, Dict.keys, Assoc.keys, List.map_map, List.map_map]
    refine congrArg List.sum (List.map_congr_left fun e he => ?_)
    simp only [Function.comp_apply, weight,
      Dict.mem_entries_iff.mp (show (e.1, e.2) ∈ s.nodes.entries from he), Option.map_some,
      Option.getD_some]
  have hnodup : (counted.map Prod.fst ++ s.unsettledCalls.map Call.id).Nodup := by
    refine List.nodup_append.mpr ⟨(hcurrent.1.sublist (List.filter_sublist.map _)),
      h.nodup_unsettled, fun id hid id' hid' heq => ?_⟩
    obtain ⟨e, he, rfl⟩ := List.mem_map.mp hid
    obtain ⟨call, hcall, rfl⟩ := List.mem_map.mp hid'
    obtain ⟨node, hnode, hfailed, -⟩ := h.unsettled_node meter hcall
    obtain ⟨hfound, hmem⟩ := hcounted e he
    rw [heq, hnode, Option.some.injEq] at hfound
    exact htimely call hcall e hmem heq (hfound ▸ hfailed)
  have hsubset : counted.map Prod.fst ++ s.unsettledCalls.map Call.id ⊆ s.nodes.keys := by
    have hkeys : ∀ id node, s.nodes.get? id = some node → id ∈ s.nodes.keys := by
      intro id node hnode
      by_contra hmem
      rw [Dict.get?_eq_none_iff.mpr hmem] at hnode
      cases hnode
    intro id hid
    rcases List.mem_append.mp hid with hid | hid
    · obtain ⟨e, he, rfl⟩ := List.mem_map.mp hid
      exact hkeys _ _ (hcounted e he).1
    · obtain ⟨call, hcall, rfl⟩ := List.mem_map.mp hid
      obtain ⟨node, hnode, -⟩ := h.unsettled_node meter hcall
      exact hkeys _ _ hnode
  obtain ⟨part, hperm, hsublist⟩ := List.Nodup.subperm hnodup hsubset
  rw [hbaseline, howed, hall, ← List.sum_append, ← List.map_append,
    ← (hperm.map weight).sum_eq]
  exact (hsublist.map weight).sum_le_sum fun _ _ => Nat.zero_le _

/-! ## Every step -/

/-- A reserve uses a baseline that counts no failed call whose settlement is to come. -/
def Timely (root : String) (s : World) : Input → Prop
  | .move run (.reserve _ _ _ _) => ∀ reading ∈ (s.phase run).readings,
      reading.scope.anchorId = root → ∀ call ∈ s.unsettledCalls, ∀ e ∈ reading.nodes,
        e.1 = call.id → e.2.state ≠ some .failed
  | _ => True

/-- What every timely step keeps. -/
structure Sound (root : String) (limits : Dict String Decimal) (meter : String) (s : World) :
    Prop where
  claimed : Claimed root s
  funded : Funded root limits meter s
  balanced : Balanced root meter s

theorem sound_start : Sound root limits meter start := by
  have hphase : ∀ run, start.phase run = .idle := fun _ => rfl
  refine ⟨⟨⟨trivial, fun _ _ h => (by cases h)⟩, fun run _ _ _ h => ?_,
    fun run _ _ _ _ _ _ _ h => ?_, fun _ _ h => (by cases h), fun run _ h => ?_⟩,
    ⟨fun run _ h => ?_, fun run _ _ h => ?_, fun _ => rfl, fun _ => rfl,
      fun run _ _ _ h => ?_⟩, ?_⟩
  case refine_7 =>
    rw [Balanced]
    simp [start, SqliteState.total, SqliteState.empty]
  all_goals
    rw [hphase run] at h
    cases h

/-- A node without charges is put. -/
theorem Sound.put (h : Sound root limits meter s) {id : String} {node : CallNode}
    (hstate : node.state = none) (hcharge : node.chargeOf meter = 0)
    (hroot : node.parent = none → id = root) : Sound root limits meter (s.put id node) := by
  refine ⟨h.claimed.put hstate hroot, h.funded.withNodes _, ?_⟩
  have hcounted : node.countedOf meter = 0 := by
    rw [CallNode.countedOf, hcharge, ite_self]
  have hnodes : (s.put id node).nodes.sumBy (CallNode.countedOf meter) =
      s.nodes.sumBy (CallNode.countedOf meter) := by
    rw [World.put, CallTree.put]
    split
    · split
      · rfl
      · next hfresh =>
          rw [Dict.contains, Bool.not_eq_true, Option.isSome_eq_false_iff,
            Option.isNone_iff_eq_none] at hfresh
          rw [Option.getD_some, Dict.sumBy_set_of_get?_none _ _ hfresh, hcounted, add_zero]
    · rfl
  have hbalanced := h.balanced
  rw [Balanced] at hbalanced ⊢
  rw [hnodes]
  exact hbalanced

/-- A run without a node goes on, with the reservation it has or without one. -/
theorem Sound.goto (h : Sound root limits meter s) {run : ℕ} {phase : Phase}
    (hold : (s.phase run).dispatch = none) (hnew : phase.dispatch = none)
    (hcurrent : ∀ reading ∈ phase.readings, Current s.nodes reading)
    (hholds : ∀ reservationId, phase.holds = some reservationId →
      (s.phase run).holds = some reservationId)
    (hpriced : phase.priced = true) (hsafe : phase.safe = true)
    (hcovers : ∀ call scopes readings, phase = .measuring call scopes readings →
      ∃ inner, readings.map Reading.scope ++ scopes = ⟨root, limits⟩ :: inner) :
    Sound root limits meter (s.goto run phase) := by
  have hquiet : ∀ phase : Phase, phase.dispatch = none →
      phase.owed meter = 0 ∧ phase.ahead meter = 0 := by
    intro phase hnone
    cases phase <;> first | exact ⟨rfl, rfl⟩ | cases hnone
  refine ⟨h.claimed.goto (.inl (hnew.trans hold.symm)) hcurrent,
    h.funded.stay hholds hpriced hsafe hcovers, h.balanced.goto ?_ ?_⟩
  · rw [(hquiet phase hnew).1, (hquiet _ hold).1]
  · rw [(hquiet phase hnew).2, (hquiet _ hold).2]

theorem Sound.idle (h : Sound root limits meter s) {run : ℕ}
    (hold : (s.phase run).dispatch = none) : Sound root limits meter (s.goto run .idle) :=
  h.goto hold rfl nofun nofun rfl rfl nofun

theorem current_readScope (h : s.nodes.Rooted root) {scope : Scope} {reading : Reading}
    (hread : readScope s.nodes scope = some reading) :
    Current s.nodes reading ∧ reading.scope = scope := by
  obtain ⟨walked, hwalk, hread⟩ := Option.bind_eq_some_iff.mp hread
  obtain ⟨hnodup, hfound⟩ := h.of_walk hwalk
  split at hread
  · cases hread
    exact ⟨⟨hnodup, fun e he _ => hfound e he⟩, rfl⟩
  · cases hread

theorem Sound.measure (h : Sound root limits meter s) {run : ℕ} {call : Call} {scope : Scope}
    {scopes : List Scope} {readings : List Reading} {reading : Reading}
    (hphase : s.phase run = .measuring call (scope :: scopes) readings)
    (hread : readScope s.nodes scope = some reading) :
    Sound root limits meter (s.goto run (.measuring call scopes (readings ++ [reading]))) := by
  obtain ⟨hcurrent, hscope⟩ := current_readScope h.claimed.rooted hread
  have hsafe := h.funded.safe run
  rw [hphase] at hsafe
  refine h.goto (by rw [hphase]; rfl) rfl ?_ nofun rfl hsafe ?_
  · intro other hother
    rcases List.mem_append.mp hother with hother | hother
    · exact h.claimed.current run other (by rw [hphase]; exact hother)
    · rw [List.mem_singleton.mp hother]
      exact hcurrent
  · rintro _ _ _ ⟨⟩
    obtain ⟨inner, hinner⟩ := h.funded.covers run call _ _ hphase
    refine ⟨inner, ?_⟩
    rw [List.map_append, List.append_assoc, List.map_singleton, hscope]
    exact hinner

section Reserve

variable {run : ℕ} {call : Call} {readings : List Reading}

/-- Every run names the ledger of the root. -/
theorem Funded.root_row (h : Funded root limits meter s)
    (hphase : s.phase run = .measuring call [] readings) (hmeter : meter ∈ limits.keys)
    (hdepth : meter ≠ "depth") :
    (root, meter) ∈ (budgetRows (budgetsOf readings call.estimates)).map BudgetRow.key := by
  obtain ⟨inner, hinner⟩ := h.covers run call _ _ hphase
  have hscope : (⟨root, limits⟩ : Scope) ∈ readings.map Reading.scope := by
    rw [List.append_nil] at hinner
    rw [hinner]
    exact List.mem_cons_self
  obtain ⟨reading, hreading, hscope⟩ := List.mem_map.mp hscope
  obtain ⟨e, he, rfl⟩ := List.mem_map.mp hmeter
  let request : BudgetReservation :=
    ⟨reading.scope.anchorId, reading.scope.limits, reading.baseline.amounts,
      call.estimates.amounts⟩
  have hlimits : request.limits = limits := congrArg Scope.limits hscope
  have hrequest : request ∈ budgetsOf readings call.estimates := by
    refine List.mem_filter.mpr ⟨List.mem_map_of_mem hreading, ?_⟩
    rw [hlimits]
    exact List.any_eq_true.mpr ⟨e.1, hmeter, by simpa using hdepth⟩
  refine List.mem_map.mpr ⟨⟨request, e.1, e.2⟩, List.mem_flatMap.mpr ⟨request, hrequest, ?_⟩, ?_⟩
  · refine List.mem_map.mpr ⟨e, List.mem_filter.mpr ⟨hlimits ▸ he, by simpa using hdepth⟩, rfl⟩
  · exact congrArg (fun scope => (scope.anchorId, e.1)) hscope

/-- A timely reserve has no baseline ahead of the ledger. -/
theorem Sound.baselines (h : Sound root limits meter s)
    (htimely : ∀ reading ∈ (s.phase run).readings, reading.scope.anchorId = root →
      ∀ call ∈ s.unsettledCalls, ∀ e ∈ reading.nodes, e.1 = call.id → e.2.state ≠ some .failed)
    (hphase : s.phase run = .measuring call [] readings) :
    ∀ row ∈ budgetRows (budgetsOf readings call.estimates), row.key = (root, meter) →
      row.baseline ≤ s.ledger.total (root, meter) := by
  intro row hrow hkey
  obtain ⟨request, hrequest, hrow⟩ := List.mem_flatMap.mp hrow
  obtain ⟨e, -, rfl⟩ := List.mem_map.mp hrow
  obtain ⟨reading, hreading, rfl⟩ := List.mem_map.mp (List.mem_filter.mp hrequest).1
  obtain ⟨hanchor, hmeter⟩ := Prod.mk.injEq .. ▸ hkey
  have hreading' : reading ∈ (s.phase run).readings := by rw [hphase]; exact hreading
  have hle := h.claimed.baseline_le (h.claimed.current run reading hreading')
    (htimely reading hreading' hanchor) meter
  have hbaseline : BudgetRow.baseline ⟨⟨reading.scope.anchorId, reading.scope.limits,
      reading.baseline.amounts, call.estimates.amounts⟩, e.1, e.2⟩ =
        ((chargeAt reading.baseline meter : ℕ) : ℚ) := by
    change reading.baseline.amounts.getD e.1 0 = _
    rw [show e.1 = meter from hmeter, Charges.amounts, Dict.getD, Dict.get?_map, chargeAt,
      Dict.getD]
    cases reading.baseline.get? meter <;> simp
  have hbalanced := h.balanced
  rw [Balanced] at hbalanced
  rw [hbaseline]
  have hle' : ((chargeAt reading.baseline meter + s.runs.sumBy (Phase.owed meter) : ℕ) : ℚ) ≤
    ((s.nodes.sumBy (CallNode.countedOf meter) : ℕ) : ℚ) := Nat.cast_le.mpr hle
  have hahead : (0 : ℚ) ≤ ((s.runs.sumBy (Phase.ahead meter) : ℕ) : ℚ) := Nat.cast_nonneg _
  push_cast at hbalanced hle'
  linarith

theorem Sound.reserve (h : Sound root limits meter s)
    (htimely : ∀ reading ∈ (s.phase run).readings, reading.scope.anchorId = root →
      ∀ call ∈ s.unsettledCalls, ∀ e ∈ reading.nodes, e.1 = call.id → e.2.state ≠ some .failed)
    (hphase : s.phase run = .measuring call [] readings) (hmeter : meter ∈ limits.keys)
    (hdepth : meter ≠ "depth") (now : Instant) (reservationId : String)
    (windows : List WindowReservation) (leaseSeconds : ℚ) :
    Sound root limits meter
      (s.reserve run call readings now reservationId windows leaseSeconds) := by
  have hrow := h.funded.root_row hphase hmeter hdepth
  have hold : (s.phase run).dispatch = none := by rw [hphase]; rfl
  have hsafe := h.funded.safe run
  rw [hphase] at hsafe
  unfold World.reserve
  dsimp only
  rw [if_neg]
  · split
    · next check ledger hreserve =>
        have hspec := reserves_of_ok hreserve
        have htotal := hspec.total (root, meter) (h.baselines htimely hphase)
        have hothers : ∀ other held, run ≠ other → (s.phase other).holds = some held →
            held ≠ reservationId := by
          rintro other held - hholds rfl
          have hrows := (h.funded.held other held hholds).once
          rw [hspec.fresh] at hrows
          cases hrows
        have hquiet : (s.phase run).owed meter = 0 ∧ (s.phase run).ahead meter = 0 := by
          rw [hphase]
          exact ⟨rfl, rfl⟩
        refine ⟨(h.claimed.withLedger ledger).goto (.inl ?_) ?_, h.funded.goto hspec.kept
          (fun other held hne hholds => hspec.others held (hothers other held hne hholds))
          ?_ ?_ ?_ ?_, h.balanced.shift run 0 0 0
            rfl ?_ rfl ?_⟩
        · refine Eq.trans ?_ hold.symm
          split <;> rfl
        · split <;> exact nofun
        · intro held hholds
          split at hholds
          · next hok =>
              cases hholds
              exact ⟨hspec.charging hok hrow, fun other hne hother =>
                hothers other _ hne hother rfl⟩
          · cases hholds
        · split <;> rfl
        · split
          · exact hsafe
          · rfl
        · intro _ _ _ heq
          split at heq <;> cases heq
        · rw [Nat.cast_zero, add_zero]
          exact htotal
        · rw [hquiet.1, hquiet.2]
          split <;> rfl
    · exact h.idle hold
  · rintro ⟨hnil, -⟩
    rw [hnil] at hrow
    cases hrow

end Reserve

theorem Sound.claim (h : Sound root limits meter s) {run : ℕ} {call : Call}
    {reservationId : Option String} {nodes : CallTree}
    (hphase : s.phase run = .reserved call reservationId)
    (hclaim : s.nodes.claim call.id (call.pending reservationId) = some nodes) :
    Sound root limits meter ({ s with nodes }.goto run (.running call reservationId)) := by
  have hpriced := h.funded.priced run
  have hsafe := h.funded.safe run
  rw [hphase] at hpriced hsafe
  rw [CallTree.claim] at hclaim
  split at hclaim
  · cases hclaim
  · next hfresh =>
      rw [CallTree.put, if_neg hfresh] at hclaim
      split at hclaim
      · next hparent =>
          cases hclaim
          rw [Dict.contains, Bool.not_eq_true, Option.isSome_eq_false_iff,
            Option.isNone_iff_eq_none] at hfresh
          refine ⟨h.claimed.claim (by rw [hphase]; rfl) hfresh hparent,
            (h.funded.withNodes _).stay ?_ hpriced hsafe (by intro _ _ _ h; cases h), h.balanced.shift run
              0 0 0 rfl ?_ ?_ ?_⟩
          · intro held hholds
            change (s.phase run).holds = _
            rw [hphase]
            exact hholds
          · rw [Nat.cast_zero, add_zero]
            rfl
          · change (s.nodes.set _ _).sumBy _ + 0 = _
            rw [Dict.sumBy_set_of_get?_none _ _ hfresh, CallNode.countedOf, if_pos]
            exact decide_eq_true ⟨rfl, hpriced⟩
          · rw [hphase]
            rfl
      · cases hclaim

/-- A run gives up before it has dispatched, with its reservation still to be released. -/
theorem Sound.abandon (h : Sound root limits meter s) {run : ℕ} {call : Call}
    {reservationId : Option String} (hphase : s.phase run = .reserved call reservationId) :
    Sound root limits meter (s.goto run (abandoned reservationId)) := by
  have hold : (s.phase run).dispatch = none := by rw [hphase]; rfl
  cases reservationId with
  | none => exact h.idle hold
  | some reservationId =>
      refine h.goto hold rfl nofun (fun held hholds => ?_) rfl rfl nofun
      rw [hphase]
      exact hholds

/-- The reservation of another run has other rows. -/
theorem Funded.apart_ne (h : Funded root limits meter s) {run other : ℕ} {held held' : String}
    (hholds : (s.phase run).holds = some held) (hne : run ≠ other)
    (hholds' : (s.phase other).holds = some held') : held' ≠ held := by
  rintro rfl
  exact hne (h.apart run other held' hholds hholds')

theorem Sound.release (h : Sound root limits meter s) {run : ℕ} {reservationId : String}
    (hphase : s.phase run = .releasing reservationId) :
    Sound root limits meter
      ({ s with ledger := pollardRelease reservationId s.ledger }.goto run .idle) := by
  have hholds : (s.phase run).holds = some reservationId := by rw [hphase]; rfl
  refine ⟨(h.claimed.withLedger _).goto (.inl ?_) nofun, h.funded.goto (fun _ h => h)
    (fun other held hne hother => rowsOf_dropRows (h.funded.apart_ne hholds hne hother).symm _)
    nofun rfl rfl nofun, h.balanced.shift run 0 0
      0 rfl ?_ rfl ?_⟩
  · change none = (s.phase run).dispatch
    rw [hphase]
    rfl
  · rw [Nat.cast_zero, add_zero]
    rfl
  · rw [hphase]
    rfl

theorem Sound.renew (h : Sound root limits meter s) (now : Instant) (reservationId : String)
    (leaseSeconds : ℚ) :
    Sound root limits meter
      { s with ledger := (pollardRenew now reservationId leaseSeconds s.ledger).2 } := by
  have hsame : (pollardRenew now reservationId leaseSeconds s.ledger).2.budgetState =
      s.ledger.budgetState ∧ ∀ other,
        rowsOf other (pollardRenew now reservationId leaseSeconds s.ledger).2 =
          rowsOf other s.ledger := by
    rw [pollardRenew, Sqlite.renew, if_neg Bool.false_ne_true]
    split
    · exact ⟨rfl, fun other => by simp [rowsOf, Dict.mapEntries, Function.comp_def]⟩
    · exact ⟨rfl, fun _ => rfl⟩
  refine ⟨h.claimed.withLedger _, ⟨fun run held hholds => ?_, h.funded.apart, h.funded.priced,
    h.funded.safe, h.funded.covers⟩, ?_⟩
  · exact (h.funded.held run held hholds).of_rows (hsame.2 held) fun other hother =>
      hsame.1 ▸ hother
  · have hbalanced := h.balanced
    rw [Balanced, SqliteState.total] at hbalanced ⊢
    rw [hsame.1]
    exact hbalanced

theorem Sound.settle (h : Sound root limits meter s) {run : ℕ} {call : Call}
    {reservationId : Option String} (hphase : s.phase run = .running call reservationId)
    (now : Instant) {charges : Charges} (hsafe : charges.safe = true) :
    Sound root limits meter
      ((s.settled now reservationId charges).goto run
        (.finishing call reservationId charges)) := by
  have hpriced := h.funded.priced run
  rw [hphase] at hpriced
  obtain ⟨held, rfl⟩ := Option.isSome_iff_exists.mp hpriced
  have hholds : (s.phase run).holds = some held := by rw [hphase]; rfl
  obtain ⟨ledger, hsettle, htotal, hkept, hrows⟩ :=
    (h.funded.held run held hholds).settles now hsafe
  rw [settled, hsettle]
  refine ⟨(h.claimed.withLedger ledger).goto (.inl ?_) nofun, h.funded.goto hkept
    (fun other held' hne hother => hrows held' (h.funded.apart_ne hholds hne hother)) nofun rfl
      rfl nofun, h.balanced.shift run (chargeAt charges meter)
        0 0 rfl htotal rfl ?_⟩
  · change _ = (s.phase run).dispatch
    rw [hphase]
    rfl
  · rw [hphase]
    simp [Phase.owed, Phase.unsettled, Phase.ahead]

theorem Sound.finalize (h : Sound root limits meter s) {run : ℕ} {call : Call}
    {reservationId : Option String} {charges : Charges}
    (hphase : s.phase run = .finishing call reservationId charges) :
    Sound root limits meter (s.finalize run call charges) := by
  have hpriced := h.funded.priced run
  rw [hphase] at hpriced
  have hold : (s.phase run).dispatch = some (call, reservationId, .pending) := by
    rw [hphase]
    rfl
  have hown := h.claimed.owns run _ _ _ hold
  have hcounted : CallNode.countedOf meter
      { call.pending reservationId with state := some .pending } = 0 := by
    rw [CallNode.countedOf, if_pos]
    exact decide_eq_true ⟨rfl, hpriced⟩
  rw [World.finalize, hown]
  dsimp only
  rw [if_pos rfl]
  refine ⟨h.claimed.replace hold hpriced rfl nofun nofun rfl,
    (h.funded.withNodes _).stay nofun rfl rfl nofun, h.balanced.shift run
      0 (chargeAt charges meter) 0 rfl ?_ ?_ ?_⟩
  · rw [Nat.cast_zero, add_zero]
    rfl
  · have hset := Dict.sumBy_set_of_get?_some (CallNode.countedOf meter)
      { call.pending reservationId with state := some .completed, charges := some charges } hown
    rw [hcounted] at hset
    exact hset
  · rw [hphase]
    simp [Phase.owed, Phase.unsettled, Phase.ahead]

theorem Sound.fail (h : Sound root limits meter s) {run : ℕ} {call : Call}
    {reservationId : Option String} (hphase : s.phase run = .running call reservationId) :
    Sound root limits meter (s.fail run call reservationId) := by
  have hpriced := h.funded.priced run
  have hsafe := h.funded.safe run
  rw [hphase] at hpriced hsafe
  have hold : (s.phase run).dispatch = some (call, reservationId, .pending) := by
    rw [hphase]
    rfl
  rw [World.fail, h.claimed.owns run _ _ _ hold, Option.any_some, if_pos (decide_eq_true rfl)]
  refine ⟨h.claimed.goto (.inl (Eq.symm hold)) nofun, h.funded.stay (fun held hholds => ?_)
    hpriced hsafe nofun, h.balanced.goto ?_ ?_⟩
  · rw [hphase]
    exact hholds
  · rw [hphase]
    rfl
  · rw [hphase]
    rfl

theorem Sound.mark (h : Sound root limits meter s) {run : ℕ} {call : Call}
    {reservationId : Option String} (hphase : s.phase run = .failing call reservationId) :
    Sound root limits meter (s.mark run call reservationId) := by
  have hpriced := h.funded.priced run
  have hsafe := h.funded.safe run
  rw [hphase] at hpriced hsafe
  have hold : (s.phase run).dispatch = some (call, reservationId, .pending) := by
    rw [hphase]
    rfl
  have hown := h.claimed.owns run _ _ _ hold
  have hcounted : CallNode.countedOf meter
      { call.pending reservationId with state := some .pending } = 0 := by
    rw [CallNode.countedOf, if_pos]
    exact decide_eq_true ⟨rfl, hpriced⟩
  rw [World.mark, hown]
  refine ⟨h.claimed.replace hold hpriced rfl nofun (fun x hx => ?_) rfl,
    (h.funded.withNodes _).stay (fun held hholds => ?_) hpriced hsafe nofun,
    h.balanced.shift run 0
      (chargeAt call.estimatedCharges meter) 0 rfl ?_ ?_ ?_⟩
  · cases hx
    exact ⟨.failed, rfl, rfl⟩
  · change (s.phase run).holds = _
    rw [hphase]
    exact hholds
  · rw [Nat.cast_zero, add_zero]
    rfl
  · have hset := Dict.sumBy_set_of_get?_some (CallNode.countedOf meter)
      { call.pending reservationId with state := some .failed } hown
    rw [hcounted] at hset
    exact hset
  · rw [hphase]
    simp [Phase.owed, Phase.unsettled, Phase.ahead]

theorem safe_estimatedCharges {call : Call} (h : call.estimates.safe = true) :
    call.estimatedCharges.safe = true := by
  rw [Charges.safe, List.all_eq_true] at h ⊢
  intro n hn
  obtain ⟨e, he, rfl⟩ := List.mem_map.mp hn
  exact h e.2 (List.mem_map_of_mem (List.mem_filter.mp he).1)

theorem Sound.settleFailed (h : Sound root limits meter s) {run : ℕ} {call : Call}
    {reservationId : Option String} (hphase : s.phase run = .failed call reservationId)
    (now : Instant) :
    Sound root limits meter
      ((s.settled now reservationId call.estimatedCharges).goto run .idle) := by
  have hpriced := h.funded.priced run
  have hsafe := h.funded.safe run
  rw [hphase] at hpriced hsafe
  obtain ⟨held, rfl⟩ := Option.isSome_iff_exists.mp hpriced
  have hholds : (s.phase run).holds = some held := by rw [hphase]; rfl
  obtain ⟨ledger, hsettle, htotal, hkept, hrows⟩ :=
    (h.funded.held run held hholds).settles now (safe_estimatedCharges hsafe)
  rw [settled, hsettle]
  refine ⟨(h.claimed.withLedger ledger).goto (.inr ⟨rfl, fun call' held' heq => ?_⟩) nofun,
    h.funded.goto hkept
      (fun other held' hne hother => hrows held' (h.funded.apart_ne hholds hne hother)) nofun
        rfl rfl nofun,
    h.balanced.shift run (chargeAt call.estimatedCharges meter)
      0 0 rfl htotal rfl ?_⟩
  · change (s.phase run).dispatch = _ at heq
    rw [hphase] at heq
    cases heq
  · rw [hphase]
    simp [Phase.owed, Phase.unsettled, Phase.ahead]

/-- Every step of a run keeps the ledger sound, if a reserve is timely. -/
theorem Sound.move (h : Sound root limits meter s) (hmeter : meter ∈ limits.keys)
    (hdepth : meter ≠ "depth") (run : ℕ) (move : Move)
    (htimely : Timely root s (.move run move)) :
    Sound root limits meter (s.move root limits run (s.phase run) move) := by
  unfold World.move
  split
  · next call inner hphase =>
      have hold : (s.phase run).dispatch = none := by rw [hphase]; rfl
      split
      · next hsafe =>
          refine h.goto hold rfl nofun nofun rfl hsafe ?_
          rintro _ _ _ ⟨⟩
          exact ⟨inner, rfl⟩
      · exact h
  · next call scope scopes readings hphase =>
      have hold : (s.phase run).dispatch = none := by rw [hphase]; rfl
      split
      · next reading hread => exact h.measure hphase hread
      · exact h.idle hold
  · next call readings now reservationId windows leaseSeconds hphase =>
      exact h.reserve htimely hphase hmeter hdepth now reservationId windows leaseSeconds
  · next hphase => exact h.abandon hphase
  · next call reservationId hphase =>
      split
      · next nodes hclaim => exact h.claim hphase hclaim
      · exact h.abandon hphase
  · next call reservationId hphase =>
      have hcharge : CallNode.chargeOf meter ⟨call.parent, call.kind, none, none, some ∅⟩ = 0 :=
        rfl
      have hput : Sound root limits meter (s.put call.id
          ⟨call.parent, call.kind, none, none, some ∅⟩) := h.put rfl hcharge nofun
      exact hput.abandon hphase
  · next hphase => exact h.release hphase
  · next hphase => exact h.renew _ _ _
  · next hphase =>
      split
      · next hsafe => exact h.settle hphase _ hsafe
      · exact h
  · next hphase => exact h.finalize hphase
  · next hphase => exact h.fail hphase
  · next hphase => exact h.mark hphase
  · next hphase => exact h.settleFailed hphase _
  · exact h

theorem Sound.step (h : Sound root limits meter s) (hmeter : meter ∈ limits.keys)
    (hdepth : meter ≠ "depth") (input : Input) (htimely : Timely root s input) :
    Sound root limits meter (s.step root limits input) := by
  cases input with
  | root => exact h.put rfl rfl fun _ => rfl
  | note id parent kind => exact h.put rfl rfl nofun
  | move run move => exact h.move hmeter hdepth run move htimely

instance (root : String) (s : World) (input : Input) : Decidable (Timely root s input) := by
  unfold Timely
  split <;> infer_instance

theorem phase_of_idle (h : s.idle) (run : ℕ) : s.phase run = .idle := by
  rw [World.phase, Dict.getD]
  cases hfound : s.runs.get? run with
  | none => rfl
  | some phase => exact h phase (Dict.mem_values_of_get? hfound)

/-- With no call in flight the ledger and the tree agree. -/
theorem Sound.settled_eq (h : Sound root limits meter s) (hidle : s.idle) :
    s.ledger.total (root, meter) = recorded s.nodes root meter := by
  have hzero : ∀ weight : Phase → ℕ, weight .idle = 0 → s.runs.sumBy weight = 0 := by
    intro weight hweight
    rw [Dict.sumBy, List.sum_eq_zero]
    intro n hn
    obtain ⟨phase, hphase, rfl⟩ := List.mem_map.mp hn
    rw [hidle phase hphase, hweight]
  have hcounted : s.nodes.sumBy (CallNode.countedOf meter) =
      s.nodes.sumBy (CallNode.chargeOf meter) := by
    refine Dict.sumBy_congr fun node hnode => ?_
    obtain ⟨id, hid⟩ := Dict.exists_get?_of_mem_values hnode
    rw [CallNode.countedOf, if_neg]
    intro hpending
    obtain ⟨run, call, reservationId, hdispatch, -⟩ :=
      h.claimed.pendings id node hid (of_decide_eq_true hpending).1
    rw [phase_of_idle hidle run] at hdispatch
    cases hdispatch
  have hbalanced := h.balanced
  rw [Balanced, hzero _ rfl, hzero _ rfl, hcounted, ← h.claimed.rooted.recorded] at hbalanced
  simpa using hbalanced

/-- One step may be taken ten times. -/
def tenSteps : Dict String Decimal := .ofList [("steps", 10)]

def oneStep (id : String) : Call := ⟨id, "root", .modelCall, .ofList [("steps", 1)]⟩

/-- A call begins, with a reservation. -/
def beginning (run : ℕ) (id : String) : List Input :=
  [.move run (.begin (oneStep id) []), .move run .measure, .move run (.reserve 0 id [] 60)]

/-- The callback of a call returns. -/
def completing (run : ℕ) : List Input :=
  [.move run .claim, .move run (.settle 0 (.ofList [("steps", 1)])), .move run .finalize]

/-- The callback of a call throws, up to the mark on its node. -/
def failing (run : ℕ) : List Input := [.move run .claim, .move run .fail, .move run .mark]

end World

end Pollard.Npm
