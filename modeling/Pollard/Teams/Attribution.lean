import Pollard.Lib.Fallible
import Pollard.Teams.Report

/-!
# Attribution

A node belongs to the nearest anchor above it, if that anchor is valid and everything from the
root down to the node is as it was recorded.  Whatever a store contains, each node that is read
is counted in one place besides the totals.
-/

namespace Pollard.Teams

open Lib
open Stores.Verification (StoredNode Texts)

section Attribution

variable (H : Hashing) (T : Texts) (rootId : String)

/-- A node that is read after others, and all above it, are as they were recorded. -/
inductive Sound : List StoredNode → StoredNode → Prop
  | intro {before : List StoredNode} {node : StoredNode} (hintact : intact H T node = true)
      (hroot : node.id = rootId ↔ node.parent = none)
      (hread : ∀ parent ∈ node.parent, ∃ p ∈ before, p.id = parent)
      (hsound : ∀ first p rest, before = first ++ p :: rest → node.parent = some p.id →
        Sound first p) :
      Sound before node

/-- The last node read before another that is its parent, and what was read before that. -/
def Parent (before : List StoredNode) (node : StoredNode) (first : List StoredNode)
    (p : StoredNode) : Prop :=
  ∃ rest, before = first ++ p :: rest ∧ node.parent = some p.id ∧ ∀ q ∈ rest, q.id ≠ p.id

/-- The nearest anchor above a node, or on it, declares an actor. -/
inductive Encloses : List StoredNode → StoredNode → AgentIdentity → Prop
  | anchor {before : List StoredNode} {node : StoredNode} {anchor : Value}
      {actor : AgentIdentity} (hsound : Sound H T rootId before node)
      (hanchor : reserved node "team_agent" = some anchor)
      (hdeclared : declaredActor rootId node anchor = .ok actor) : Encloses before node actor
  | inherited {before first : List StoredNode} {node p : StoredNode} {actor : AgentIdentity}
      (hsound : Sound H T rootId before node) (hnone : reserved node "team_agent" = none)
      (hparent : Parent before node first p) (h : Encloses first p actor) :
      Encloses before node actor

/-- One node lies below another, or is it. -/
inductive Below : List StoredNode → StoredNode → List StoredNode → StoredNode → Prop
  | refl (before : List StoredNode) (node : StoredNode) : Below before node before node
  | parent {before first upper : List StoredNode} {node p top : StoredNode}
      (hparent : Parent before node first p) (h : Below first p upper top) :
      Below before node upper top

/-! ## Sums -/

/-- What is added up over nodes. -/
def tally (nodes : List StoredNode) : MetricsBuilder := nodes.foldl MetricsBuilder.add {}

/-- What `team_report` counts. -/
inductive Count where
  | governedCalls
  | modelCalls
  | toolCalls
  | refusals
  | dryRuns
  | failedOutcomes
  | dependencyNotes
  | dependencyReferences
  | handoffs

def TeamMetrics.count (metrics : TeamMetrics) : Count → ℕ
  | .governedCalls => metrics.governedCalls
  | .modelCalls => metrics.modelCalls
  | .toolCalls => metrics.toolCalls
  | .refusals => metrics.refusals
  | .dryRuns => metrics.dryRuns
  | .failedOutcomes => metrics.failedOutcomes
  | .dependencyNotes => metrics.dependencyNotes
  | .dependencyReferences => metrics.dependencyReferences
  | .handoffs => metrics.handoffs

/-- What `team_report` sums up in decimals. -/
inductive Quantity where
  | charge (name : String)
  | usage (name : String)
  | duration

def MetricsBuilder.sum (builder : MetricsBuilder) : Quantity → Decimal
  | .charge name => builder.charges.getD name 0
  | .usage name => builder.usage.getD name 0
  | .duration => builder.duration

/-- The numbers under a name. -/
def named (name : String) (numbers : List (String × Decimal)) : List Decimal :=
  (numbers.filter fun e => e.1 = name).map Prod.snd

/-- The amounts that a node adds to a sum. -/
def amounts (quantity : Quantity) (node : StoredNode) : List Decimal :=
  match quantity with
  | .charge name => named name (numbers false "" ((node.metadata.get? "charges").getD .none))
  | .usage name => if (callKind node).isSome = true then
      named name (numbers true "" (usageOf node)) else []
  | .duration => if (callKind node).isSome = true then
      ((node.metadata.get? "duration_s").bind number).toList else []

/-- What a node adds to a count. -/
def countOf (c : Count) (node : StoredNode) : ℕ := (tally [node]).finish.count c

variable {H T rootId}

theorem add_count (builder : MetricsBuilder) (node : StoredNode) (c : Count) :
    (builder.add node).finish.count c = builder.finish.count c + countOf c node := by
  unfold countOf tally
  cases hcall : callKind node <;> cases hreserved : reserved node "dependency" <;> cases c <;>
    simp [MetricsBuilder.add, MetricsBuilder.addCall, MetricsBuilder.addDependency,
      MetricsBuilder.finish, TeamMetrics.count, hcall, hreserved] <;> omega

theorem tally_concat (nodes : List StoredNode) (node : StoredNode) :
    tally (nodes ++ [node]) = (tally nodes).add node :=
  List.foldl_concat ..

theorem tally_count (nodes : List StoredNode) (c : Count) :
    (tally nodes).finish.count c = (nodes.map (countOf c)).sum := by
  induction nodes using List.reverseRecOn with
  | nil => cases c <;> rfl
  | append_singleton nodes node ih =>
      rw [tally_concat, add_count, ih, List.map_append, List.sum_append, List.map_singleton,
        List.sum_singleton]

theorem addNumbers_getD (totals : Dict String Decimal) (numbers : List (String × Decimal))
    (name : String) : (addNumbers totals numbers).getD name 0 =
      (named name numbers).foldl (DecimalContext.add 28) (totals.getD name 0) := by
  induction numbers generalizing totals with
  | nil => rfl
  | cons e numbers ih =>
      rw [addNumbers, List.foldl_cons, ← addNumbers, ih, addNumber, Dict.getD_set, named, named]
      by_cases hname : e.1 = name
      · rw [if_pos hname, List.filter_cons_of_pos (by simpa using hname), ← hname]
        rfl
      · rw [if_neg hname, List.filter_cons_of_neg (by simpa using hname)]

theorem add_sum (builder : MetricsBuilder) (node : StoredNode) (quantity : Quantity) :
    (builder.add node).sum quantity =
      (amounts quantity node).foldl (DecimalContext.add 28) (builder.sum quantity) := by
  cases quantity with
  | charge name =>
      cases hcall : callKind node <;> cases hreserved : reserved node "dependency" <;>
        simp [MetricsBuilder.add, MetricsBuilder.addCall, MetricsBuilder.addDependency,
          MetricsBuilder.sum, amounts, hcall, hreserved, addNumbers_getD]
  | usage name =>
      cases hcall : callKind node <;> cases hreserved : reserved node "dependency" <;>
        simp [MetricsBuilder.add, MetricsBuilder.addCall, MetricsBuilder.addDependency,
          MetricsBuilder.sum, amounts, hcall, hreserved, addNumbers_getD]
  | duration =>
      cases hcall : callKind node <;> cases hreserved : reserved node "dependency" <;>
        cases hduration : (node.metadata.get? "duration_s").bind number <;>
        simp [MetricsBuilder.add, MetricsBuilder.addCall, MetricsBuilder.addDependency,
          MetricsBuilder.sum, amounts, hcall, hreserved, hduration]

theorem tally_sum (nodes : List StoredNode) (quantity : Quantity) :
    (tally nodes).sum quantity = DecimalContext.total 28 (nodes.flatMap (amounts quantity)) := by
  induction nodes using List.reverseRecOn with
  | nil => cases quantity <;> rfl
  | append_singleton nodes node ih =>
      rw [tally_concat, add_sum, ih, List.flatMap_append, DecimalContext.total, DecimalContext.total,
        List.foldl_append, List.flatMap_singleton]

/-! ## The loop -/

theorem concat_eq_iff {α : Type} {l first rest : List α} {x e : α} :
    l ++ [x] = first ++ e :: rest ↔
      (first = l ∧ e = x ∧ rest = []) ∨ ∃ rest', rest = rest' ++ [x] ∧ l = first ++ e :: rest' := by
  constructor
  · intro h
    rcases List.eq_nil_or_concat rest with rfl | ⟨rest', last, rfl⟩
    · obtain ⟨rfl, hlast⟩ := List.append_inj' h rfl
      cases hlast
      exact .inl ⟨rfl, rfl, rfl⟩
    · have hassoc : l ++ [x] = (first ++ e :: rest') ++ [last] := by rw [h]; simp
      obtain ⟨rfl, hlast⟩ := List.append_inj' hassoc rfl
      cases hlast
      exact .inr ⟨rest', List.concat_eq_append, rfl⟩
  · rintro (⟨rfl, rfl, rfl⟩ | ⟨rest', rfl, rfl⟩)
    · rfl
    · simp

/-- Of the elements with a property there is a last one. -/
theorem exists_last {α : Type} {p : α → Prop} {l : List α} (h : ∃ e ∈ l, p e) :
    ∃ first e rest, l = first ++ e :: rest ∧ p e ∧ ∀ q ∈ rest, ¬ p q := by
  induction l with
  | nil => exact absurd h (by simp)
  | cons x l ih =>
      by_cases hrest : ∃ e ∈ l, p e
      · obtain ⟨first, e, rest, rfl, he, hafter⟩ := ih hrest
        exact ⟨x :: first, e, rest, rfl, he, hafter⟩
      · obtain ⟨e, he, hp⟩ := h
        rcases List.mem_cons.mp he with rfl | he
        · exact ⟨[], e, l, rfl, hp, fun q hq hpq => hrest ⟨q, hq, hpq⟩⟩
        · exact absurd ⟨e, he, hp⟩ hrest

/-- A node that was read, and the actor it was attributed to. -/
abbrev Entry := StoredNode × Option AgentIdentity

theorem sound_iff {before : List StoredNode} {node : StoredNode} :
    Sound H T rootId before node ↔ intact H T node = true ∧ (node.id = rootId ↔ node.parent = none) ∧
      (∀ parent ∈ node.parent, ∃ p ∈ before, p.id = parent) ∧
        ∀ first p rest, before = first ++ p :: rest → node.parent = some p.id →
          Sound H T rootId first p :=
  ⟨fun ⟨h1, h2, h3, h4⟩ => ⟨h1, h2, h3, h4⟩, fun ⟨h1, h2, h3, h4⟩ => ⟨h1, h2, h3, h4⟩⟩

variable (H T rootId) in
/-- What the loop knows of the nodes it has read. -/
structure Tracks (progress : Progress) (entries : List Entry) : Prop where
  actors : ∀ first e rest, entries = first ++ e :: rest → (∀ q ∈ rest, q.1.id ≠ e.1.id) →
    progress.actors.get? e.1.id = some e.2
  known : ∀ id, progress.actors.get? id ≠ none → ∃ e ∈ entries, e.1.id = id
  invalid : ∀ id, id ∈ progress.invalid ↔ ∃ first e rest, entries = first ++ e :: rest ∧
    e.1.id = id ∧ ¬ Sound H T rootId (first.map Prod.fst) e.1
  encloses : ∀ first e rest, entries = first ++ e :: rest → ∀ actor,
    e.2 = some actor ↔ Encloses H T rootId (first.map Prod.fst) e.1 actor

namespace Tracks

variable {progress : Progress} {entries : List Entry} {node : StoredNode}

theorem known_iff (h : Tracks H T rootId progress entries) (id : String) :
    progress.actors.contains id = true ↔ ∃ e ∈ entries, e.1.id = id := by
  rw [Dict.contains, Option.isSome_iff_ne_none]
  refine ⟨h.known id, fun hread => ?_⟩
  obtain ⟨first, e, rest, heq, rfl, hafter⟩ := exists_last hread
  rw [h.actors first e rest heq hafter]
  rintro ⟨⟩

theorem sound_parent_iff (h : Tracks H T rootId progress entries) {parent : String}
    (hparent : node.parent = some parent) :
    (∀ first p rest, entries.map Prod.fst = first ++ p :: rest → node.parent = some p.id →
      Sound H T rootId first p) ↔ parent ∉ progress.invalid := by
  rw [h.invalid, hparent]
  constructor
  · rintro hsound ⟨first, e, rest, rfl, rfl, hunsound⟩
    exact hunsound (hsound _ e.1 (rest.map Prod.fst) (by simp) rfl)
  · intro hnone first p rest heq hid
    obtain ⟨first', tail, rfl, rfl, htail⟩ := List.map_eq_append_iff.mp heq
    obtain ⟨e, rest', rfl, rfl, -⟩ := List.map_eq_cons_iff.mp htail
    by_contra hunsound
    exact hnone ⟨first', e, rest', rfl, (Option.some.inj hid).symm, hunsound⟩

theorem broken_iff (h : Tracks H T rootId progress entries) (node : StoredNode) :
    broken H T rootId progress node = true ↔
      ¬ Sound H T rootId (entries.map Prod.fst) node := by
  rw [sound_iff]
  cases hparent : node.parent with
  | none => cases hintact : intact H T node <;> simp [broken, hparent, hintact]
  | some parent =>
      have hsound := h.sound_parent_iff hparent
      have hknown := h.known_iff parent
      rw [hparent] at hsound
      rw [hsound]
      have hread : (∃ p ∈ entries.map Prod.fst, p.id = parent) ↔
          progress.actors.contains parent = true := by
        rw [hknown]
        simp
      simp only [Option.mem_def, Option.some.injEq, forall_eq', hread, reduceCtorEq, iff_false]
      cases hintact : intact H T node <;> cases hcontains : progress.actors.contains parent <;>
        simp [broken, hparent, hintact, hcontains]
      tauto

theorem inherited_iff (h : Tracks H T rootId progress entries) {actor : AgentIdentity} :
    (node.parent.bind fun parent => (progress.actors.get? parent).join) = some actor ↔
      ∃ first p, Parent (entries.map Prod.fst) node first p ∧
        Encloses H T rootId first p actor := by
  constructor
  · intro hactor
    obtain ⟨parent, hparent, hjoin⟩ := Option.bind_eq_some_iff.mp hactor
    have hget := Option.join_eq_some_iff.mp hjoin
    obtain ⟨first, e, rest, rfl, rfl, hafter⟩ :=
      exists_last (h.known parent (by rw [hget]; nofun))
    have hsame := (h.actors first e rest rfl hafter).symm.trans hget
    refine ⟨first.map Prod.fst, e.1, ⟨rest.map Prod.fst, by simp, hparent, ?_⟩, ?_⟩
    · intro _ hread
      obtain ⟨q, hq, rfl⟩ := List.mem_map.mp hread
      exact hafter q hq
    · exact (h.encloses first e rest rfl actor).mp (Option.some.inj hsame)
  · rintro ⟨first, p, ⟨rest, heq, hparent, hafter⟩, hencloses⟩
    obtain ⟨first', tail, rfl, rfl, htail⟩ := List.map_eq_append_iff.mp heq
    obtain ⟨e, rest', rfl, rfl, rfl⟩ := List.map_eq_cons_iff.mp htail
    have hactor := h.actors first' e rest' rfl fun q hq => hafter q.1 (List.mem_map_of_mem hq)
    rw [hparent, Option.bind_some, hactor, (h.encloses first' e rest' rfl actor).mpr hencloses]
    rfl

theorem attribution_iff (h : Tracks H T rootId progress entries) {actor : AgentIdentity} :
    (attribution H T rootId progress node).1.1 = some actor ↔
      Encloses H T rootId (entries.map Prod.fst) node actor := by
  have hbroken := h.broken_iff node
  unfold attribution
  cases hanchor : reserved node "team_agent" with
  | none =>
      simp only
      split
      · next hb =>
          refine ⟨fun hnone => (by cases hnone), fun hencloses => ?_⟩
          cases hencloses with
          | anchor hsound => exact absurd hsound (hbroken.mp hb)
          | inherited hsound => exact absurd hsound (hbroken.mp hb)
      · next hb =>
          rw [h.inherited_iff]
          have hsound := not_not.mp fun hnot => hb (hbroken.mpr hnot)
          constructor
          · rintro ⟨first, p, hparent, hencloses⟩
            exact .inherited hsound hanchor hparent hencloses
          · intro hencloses
            cases hencloses with
            | anchor _ hsome => cases hanchor.symm.trans hsome
            | inherited _ _ hparent hencloses => exact ⟨_, _, hparent, hencloses⟩
  | some anchor =>
      simp only
      cases hdeclared : declaredActor rootId node anchor with
      | error error =>
          refine ⟨fun hnone => (by cases hnone), fun hencloses => ?_⟩
          cases hencloses with
          | anchor _ hsome hok =>
              cases hanchor.symm.trans hsome
              cases hdeclared.symm.trans hok
          | inherited _ hnone => cases hanchor.symm.trans hnone
      | ok declared =>
          simp only
          split
          · next hb =>
              refine ⟨fun hnone => (by cases hnone), fun hencloses => ?_⟩
              cases hencloses with
              | anchor hsound => exact absurd hsound (hbroken.mp hb)
              | inherited hsound => exact absurd hsound (hbroken.mp hb)
          · next hb =>
              have hsound := not_not.mp fun hnot => hb (hbroken.mpr hnot)
              constructor
              · intro hsame
                cases hsame
                exact .anchor hsound hanchor hdeclared
              · intro hencloses
                cases hencloses with
                | anchor _ hsome hok =>
                    cases hanchor.symm.trans hsome
                    cases hdeclared.symm.trans hok
                    rfl
                | inherited _ hnone => cases hanchor.symm.trans hnone

end Tracks

section Step

variable {progress : Progress} {entries : List Entry} {node : StoredNode}

theorem step_actors : (step H T rootId progress node).actors =
    progress.actors.set node.id (attribution H T rootId progress node).1.1 := by
  unfold step
  dsimp only
  split <;> rfl

theorem step_invalid : (step H T rootId progress node).invalid =
    if broken H T rootId progress node = true then node.id :: progress.invalid
    else progress.invalid := by
  unfold step
  dsimp only
  split <;> rfl

theorem step_totals : (step H T rootId progress node).totals = progress.totals.add node := by
  unfold step
  dsimp only
  split <;> rfl

theorem step_of_none (h : (attribution H T rootId progress node).1.1 = none) :
    (step H T rootId progress node).unattributed = progress.unattributed.add node ∧
      (step H T rootId progress node).groups = progress.groups := by
  unfold step
  dsimp only
  rw [h]
  exact ⟨rfl, rfl⟩

theorem step_of_some {actor : AgentIdentity}
    (h : (attribution H T rootId progress node).1.1 = some actor) :
    (step H T rootId progress node).unattributed = progress.unattributed ∧
      (step H T rootId progress node).groups =
        progress.groups.set actor.key ((progress.groups.getD actor.key {}).add node) := by
  unfold step
  dsimp only
  rw [h]
  exact ⟨rfl, rfl⟩

theorem Tracks.step (h : Tracks H T rootId progress entries) :
    Tracks H T rootId (step H T rootId progress node)
      (entries ++ [(node, (attribution H T rootId progress node).1.1)]) where
  actors first e rest heq hafter := by
    rw [step_actors]
    rcases concat_eq_iff.mp heq with ⟨-, rfl, -⟩ | ⟨rest', rfl, heq'⟩
    · rw [Dict.get?_set, if_pos rfl]
    · have hne : node.id ≠ e.1.id := hafter _ (List.mem_append_right _ List.mem_cons_self)
      rw [Dict.get?_set_of_ne _ _ hne]
      exact h.actors first e rest' heq' fun q hq => hafter q (List.mem_append_left _ hq)
  known id hget := by
    rw [step_actors, Dict.get?_set] at hget
    by_cases hid : node.id = id
    · exact ⟨_, List.mem_append_right _ List.mem_cons_self, hid⟩
    · rw [if_neg hid] at hget
      obtain ⟨e, he, heid⟩ := h.known id hget
      exact ⟨e, List.mem_append_left _ he, heid⟩
  invalid id := by
    have hbroken := h.broken_iff node
    have hearlier : ∀ first e rest, entries = first ++ e :: rest → e.1.id = id →
        ¬ Sound H T rootId (first.map Prod.fst) e.1 →
        id ∈ (Teams.step H T rootId progress node).invalid := by
      intro first e rest heq hid hunsound
      have hmem := (h.invalid id).mpr ⟨first, e, rest, heq, hid, hunsound⟩
      rw [step_invalid]
      split
      · exact List.mem_cons_of_mem _ hmem
      · exact hmem
    constructor
    · intro hmem
      rw [step_invalid] at hmem
      split at hmem
      · next hb =>
          rcases List.mem_cons.mp hmem with rfl | hmem
          · exact ⟨entries, _, [], rfl, rfl, hbroken.mp hb⟩
          · obtain ⟨first, e, rest, rfl, hid, hunsound⟩ := (h.invalid id).mp hmem
            exact ⟨first, e, _, concat_eq_iff.mpr (.inr ⟨rest, rfl, rfl⟩), hid, hunsound⟩
      · obtain ⟨first, e, rest, rfl, hid, hunsound⟩ := (h.invalid id).mp hmem
        exact ⟨first, e, _, concat_eq_iff.mpr (.inr ⟨rest, rfl, rfl⟩), hid, hunsound⟩
    · rintro ⟨first, e, rest, heq, hid, hunsound⟩
      rcases concat_eq_iff.mp heq with ⟨rfl, rfl, -⟩ | ⟨rest', rfl, heq'⟩
      · rw [step_invalid, if_pos (hbroken.mpr hunsound)]
        exact hid ▸ List.mem_cons_self
      · exact hearlier first e rest' heq' hid hunsound
  encloses first e rest heq actor := by
    rcases concat_eq_iff.mp heq with ⟨rfl, rfl, -⟩ | ⟨rest', rfl, heq'⟩
    · exact h.attribution_iff
    · exact h.encloses first e rest' heq' actor

/-- The group of a node that was read. -/
def Entry.key (e : Entry) : Option ActorKey := e.2.map AgentIdentity.key

/-- The nodes attributed to an actor, or to none. -/
def attributed (key : Option ActorKey) (entries : List Entry) : List StoredNode :=
  (Partition.members Entry.key key entries).map Prod.fst

theorem attributed_concat (key : Option ActorKey) (entries : List Entry) (e : Entry) :
    attributed key (entries ++ [e]) =
      if e.key = key then attributed key entries ++ [e.1] else attributed key entries := by
  rw [attributed, Partition.members_append, Partition.members_cons]
  split
  · rw [List.map_append]
    rfl
  · have hnil : Partition.members Entry.key key [] = [] := rfl
    rw [hnil, List.append_nil]
    rfl

/-- What the loop has added up of the nodes it has read. -/
structure Counts (progress : Progress) (entries : List Entry) : Prop where
  totals : progress.totals = tally (entries.map Prod.fst)
  unattributed : progress.unattributed = tally (attributed none entries)
  groups : ∀ key, progress.groups.getD key {} = tally (attributed (some key) entries)
  keys : ∀ e ∈ entries, ∀ key, e.key = some key → key ∈ progress.groups.keys

theorem Counts.step (h : Counts progress entries) : Counts (step H T rootId progress node)
    (entries ++ [(node, (attribution H T rootId progress node).1.1)]) where
  totals := by
    rw [step_totals, h.totals, List.map_append, List.map_singleton, tally_concat]
  unattributed := by
    rw [attributed_concat]
    cases hactor : (attribution H T rootId progress node).1.1 with
    | none =>
        rw [(step_of_none hactor).1, if_pos (by rw [Entry.key]; rfl), tally_concat,
          h.unattributed]
    | some actor => rw [(step_of_some hactor).1, if_neg (by rw [Entry.key]; nofun), h.unattributed]
  groups key := by
    rw [attributed_concat]
    cases hactor : (attribution H T rootId progress node).1.1 with
    | none => rw [(step_of_none hactor).2, if_neg (by rw [Entry.key]; nofun), h.groups]
    | some actor =>
        rw [(step_of_some hactor).2, Dict.getD_set]
        have hentry : Entry.key (node, some actor) = some key ↔ actor.key = key :=
          Option.some_inj
        simp only [hentry]
        by_cases hkey : actor.key = key
        · rw [if_pos hkey, if_pos hkey, tally_concat, hkey, h.groups]
        · rw [if_neg hkey, if_neg hkey, h.groups]
  keys e he key hkey := by
    have hmono : ∀ k ∈ progress.groups.keys, k ∈ (Teams.step H T rootId progress node).groups.keys := by
      intro k hk
      cases hactor : (attribution H T rootId progress node).1.1 with
      | none =>
          rw [(step_of_none hactor).2]
          exact hk
      | some actor =>
          rw [(step_of_some hactor).2, Dict.keys_set]
          split
          · exact hk
          · exact List.mem_append_left _ hk
    rcases List.mem_append.mp he with he | he
    · exact hmono key (h.keys e he key hkey)
    · rw [List.mem_singleton] at he
      subst he
      cases hactor : (attribution H T rootId progress node).1.1 with
      | none =>
          rw [Entry.key, hactor] at hkey
          cases hkey
      | some actor =>
          rw [Entry.key, hactor] at hkey
          cases hkey
          rw [(step_of_some hactor).2, Dict.keys_set]
          split
          · next hmem => exact hmem
          · simp

end Step

/-- The loop attributes each node it has read, and adds each up in one place. -/
theorem attributeNodes_entries (nodes : List StoredNode) :
    ∃ entries : List Entry, entries.map Prod.fst = nodes ∧
      Tracks H T rootId (attributeNodes H T rootId nodes) entries ∧
        Counts (attributeNodes H T rootId nodes) entries := by
  induction nodes using List.reverseRecOn with
  | nil =>
      refine ⟨[], rfl, ⟨?_, ?_, ?_, ?_⟩, ⟨rfl, rfl, fun _ => rfl, ?_⟩⟩
      · exact fun first e rest heq => absurd heq (by simp)
      · exact fun id h => absurd rfl h
      · refine fun id => ⟨nofun, ?_⟩
        rintro ⟨first, e, rest, heq, -⟩
        exact absurd heq (by simp)
      · exact fun first e rest heq => absurd heq (by simp)
      · exact fun e he => absurd he List.not_mem_nil
  | append_singleton nodes node ih =>
      obtain ⟨entries, rfl, htracks, hcounts⟩ := ih
      have hstep : attributeNodes H T rootId (entries.map Prod.fst ++ [node]) =
          step H T rootId (attributeNodes H T rootId (entries.map Prod.fst)) node :=
        List.foldl_concat ..
      rw [hstep]
      exact ⟨_, by rw [List.map_append]; rfl, htracks.step, hcounts.step⟩

theorem Sound.of_below {before upper : List StoredNode} {node top : StoredNode}
    (hbelow : Below before node upper top) (h : Sound H T rootId before node) :
    Sound H T rootId upper top := by
  induction hbelow with
  | refl => exact h
  | parent hparent _ ih =>
      obtain ⟨rest, heq, hid, -⟩ := hparent
      exact ih ((sound_iff.mp h).2.2.2 _ _ rest heq hid)

theorem Encloses.sound {before : List StoredNode} {node : StoredNode} {actor : AgentIdentity}
    (h : Encloses H T rootId before node actor) : Sound H T rootId before node := by
  cases h with
  | anchor hsound => exact hsound
  | inherited hsound => exact hsound

/-! ## Partition -/

theorem readFrom_ids {tree : Tree} {pending : List String} {seen : Finset String}
    {nodes : List StoredNode} {findings : List Finding}
    (h : readFrom tree pending seen = .ok (nodes, findings)) :
    ∃ ids : List String, ids.Nodup ∧ (∀ id ∈ ids, id ∉ seen) ∧
      List.Forall₂ (fun id node => tree.get id = .ok node) ids nodes := by
  induction pending, seen using readFrom.induct tree generalizing nodes findings with
  | case1 seen =>
      rw [readFrom] at h
      cases h
      exact ⟨[], List.nodup_nil, nofun, .nil⟩
  | case2 seen id pending hseen ih =>
      rw [readFrom, if_pos hseen, Fallible.map_ok_iff] at h
      obtain ⟨⟨rest, found⟩, hrest, heq⟩ := h
      cases heq
      exact ih hrest
  | case3 seen id pending hnew error herror text htext ih =>
      rw [readFrom, if_neg hnew] at h
      split at h
      · next error' herror' =>
          cases herror.symm.trans herror'
          rw [htext, Fallible.map_ok_iff] at h
          obtain ⟨⟨rest, found⟩, hrest, heq⟩ := h
          cases heq
          obtain ⟨ids, hnodup, hfresh, hget⟩ := ih hrest
          exact ⟨ids, hnodup, fun k hk hmem => hfresh k hk (Finset.mem_insert_of_mem hmem), hget⟩
      · next node hnode => cases herror.symm.trans hnode
  | case4 seen id pending hnew error herror htext =>
      rw [readFrom, if_neg hnew] at h
      split at h
      · next error' herror' =>
          cases herror.symm.trans herror'
          rw [htext] at h
          cases h
      · next node hnode => cases herror.symm.trans hnode
  | case5 seen id pending hnew node hnode ih =>
      rw [readFrom, if_neg hnew] at h
      split at h
      · next error herror => cases hnode.symm.trans herror
      · next node' hnode' =>
          cases hnode.symm.trans hnode'
          obtain ⟨children, -, h⟩ := Fallible.bind_ok_iff.mp h
          obtain ⟨⟨rest, found⟩, hrest, heq⟩ := Fallible.map_ok_iff.mp h
          cases heq
          obtain ⟨ids, hnodup, hfresh, hget⟩ := ih children hrest
          refine ⟨id :: ids, List.nodup_cons.mpr ⟨?_, hnodup⟩, ?_, .cons hnode hget⟩
          · exact fun hmem => hfresh id hmem (Finset.mem_insert_self id seen)
          · rw [List.forall_mem_cons]
            exact ⟨hnew, fun k hk hmem => hfresh k hk (Finset.mem_insert_of_mem hmem)⟩

/-- Where a store returns the node it is asked for, no node is read twice. -/
theorem readTree_nodup {tree : Tree} {nodes : List StoredNode} {findings : List Finding}
    (h : readTree tree rootId = .ok (nodes, findings))
    (hget : ∀ id node, tree.get id = .ok node → node.id = id) :
    (nodes.map fun node => node.id).Nodup := by
  obtain ⟨ids, hnodup, -, hall⟩ := readFrom_ids h
  have hsame : nodes.map (fun node => node.id) = ids := by
    clear hnodup h
    induction hall with
    | nil => rfl
    | cons hnode _ ih => rw [List.map_cons, hget _ _ hnode, ih]
  rwa [hsame]

section Sums

variable {progress : Progress} {entries : List Entry}

theorem Counts.sum_attributed {M : Type} [AddCommMonoid M] (h : Counts progress entries)
    (weight : StoredNode → M) :
    (progress.groups.keys.map fun key => ((attributed (some key) entries).map weight).sum).sum +
      ((attributed none entries).map weight).sum =
        ((entries.map Prod.fst).map weight).sum := by
  have hsum := Partition.sum_members progress.groups.nodupKeys h.keys fun e => weight e.1
  simpa only [attributed, List.map_map, Function.comp_def, Dict.keys] using hsum

theorem Counts.map_groups {β : Type} (h : Counts progress entries) (f : MetricsBuilder → β) :
    progress.groups.entries.map (fun e => f e.2) =
      progress.groups.keys.map fun key => f (tally (attributed (some key) entries)) := by
  rw [Dict.keys, Assoc.keys, List.map_map]
  refine List.map_congr_left fun e he => ?_
  have hget : progress.groups.get? e.1 = some e.2 := Dict.mem_entries_iff.mp he
  have hgroup := h.groups e.1
  rw [Dict.getD, hget] at hgroup
  exact congrArg f hgroup

theorem attributed_sublist (key : Option ActorKey) (entries : List Entry) :
    (attributed key entries).Sublist (entries.map Prod.fst) :=
  List.filter_sublist.map _

theorem sum_flatMap {α : Type} (f : α → List Decimal) (l : List α) :
    (l.flatMap f).sum = (l.map fun a => (f a).sum).sum := by
  induction l with
  | nil => rfl
  | cons a l ih => rw [List.flatMap_cons, List.sum_append, ih, List.map_cons, List.sum_cons]

theorem tally_sum_of_exact {nodes : List StoredNode} {quantity : Quantity}
    (h : DecimalContext.Exact 28 (nodes.flatMap (amounts quantity))) :
    (tally nodes).sum quantity = (nodes.map fun node => (amounts quantity node).sum).sum := by
  rw [tally_sum, DecimalContext.total_of_exact h, sum_flatMap]

end Sums

/-- Every node that is read is added up in the totals and in one place besides: in the group of
the actor that the nearest anchor above it declares, if that is valid and all above the node is
sound, else in the part of no actor.  So the counts of the totals are those of the parts, and
likewise the sums that are exact in the decimal context. -/
theorem teamReport_partition {tree : Tree} {report : TeamReport}
    (h : teamReport H T rootId tree = .ok report) :
    ∃ (entries : List Entry) (findings : List Finding),
      let nodes := entries.map Prod.fst
      let progress := attributeNodes H T rootId nodes
      readTree tree rootId = .ok (nodes, findings) ∧
      report = progress.report rootId findings ∧
      ((∀ id node, tree.get id = .ok node → node.id = id) →
        (nodes.map fun node => node.id).Nodup) ∧
      (∀ first e rest, entries = first ++ e :: rest →
        (∀ actor, e.2 = some actor ↔ Encloses H T rootId (first.map Prod.fst) e.1 actor) ∧
        ∀ upper top, Below (first.map Prod.fst) e.1 upper top →
          ¬ Sound H T rootId upper top → e.2 = none) ∧
      progress.totals = tally nodes ∧
      progress.unattributed = tally (attributed none entries) ∧
      (∀ key, progress.groups.getD key {} = tally (attributed (some key) entries)) ∧
      (∀ c, report.totals.count c = (report.agents.map fun agent => agent.metrics.count c).sum +
        report.unattributed.count c) ∧
      ∀ quantity, DecimalContext.Exact 28 (nodes.flatMap (amounts quantity)) →
        progress.totals.sum quantity =
          (progress.groups.values.map fun builder => builder.sum quantity).sum +
            progress.unattributed.sum quantity := by
  obtain ⟨⟨nodes, findings⟩, hread, rfl⟩ := Fallible.map_ok_iff.mp h
  obtain ⟨entries, rfl, htracks, hcounts⟩ :
      ∃ entries : List Entry, entries.map Prod.fst = nodes ∧
        Tracks H T rootId (attributeNodes H T rootId nodes) entries ∧
          Counts (attributeNodes H T rootId nodes) entries := attributeNodes_entries nodes
  refine ⟨entries, findings, hread, rfl, fun hget => readTree_nodup hread hget, ?_,
    hcounts.totals, hcounts.unattributed, hcounts.groups, ?_, ?_⟩
  · intro first e rest heq
    refine ⟨htracks.encloses first e rest heq, fun upper top hbelow hunsound => ?_⟩
    cases hactor : e.2 with
    | none => rfl
    | some actor =>
        have hencloses := (htracks.encloses first e rest heq actor).mp hactor
        exact absurd (hencloses.sound.of_below hbelow) hunsound
  · intro c
    have hagents : ((attributeNodes H T rootId (entries.map Prod.fst)).report rootId
        findings).agents.map (fun agent => agent.metrics.count c) |>.Perm
        ((attributeNodes H T rootId (entries.map Prod.fst)).groups.entries.map
          fun e => e.2.finish.count c) := by
      simp only [Progress.report, List.map_map]
      exact (List.perm_insertionSort _ _).map _
    rw [hagents.sum_eq, hcounts.map_groups fun builder => builder.finish.count c]
    simp only [Progress.report, hcounts.totals, hcounts.unattributed, tally_count]
    exact (hcounts.sum_attributed (countOf c)).symm
  · intro quantity hexact
    have hpart : ∀ key, (tally (attributed key entries)).sum quantity =
        ((attributed key entries).map fun node => (amounts quantity node).sum).sum := fun key =>
      tally_sum_of_exact (hexact.sublist ((attributed_sublist key entries).flatMap _))
    have hgroups := hcounts.map_groups fun builder => builder.sum quantity
    simp only [hpart] at hgroups
    rw [Dict.values, List.map_map, Function.comp_def, hgroups, hcounts.totals,
      hcounts.unattributed, hpart, tally_sum_of_exact hexact]
    exact (hcounts.sum_attributed _).symm

end Attribution

theorem readFrom_node {tree : Tree} {id : String} {pending children : List String}
    {seen : Finset String} {node : StoredNode} (hnew : id ∉ seen) (hget : tree.get id = .ok node)
    (hchildren : tree.children id = .ok children) : readFrom tree (id :: pending) seen =
      (readFrom tree (children ++ pending) (insert id seen)).map fun (nodes, findings) =>
        (node :: nodes, findings) := by
  rw [readFrom, if_neg hnew]
  split
  · next error herror => cases hget.symm.trans herror
  · next node' hnode =>
      cases hget.symm.trans hnode
      rw [hchildren]
      rfl

/-! ## An anchor of another run -/

/-- The tree of listed nodes. -/
def Tree.ofNodes (nodes : List StoredNode) : Tree where
  get id := ((nodes.find? fun node => node.id = id).map Except.ok).getD (.error (.keyError id))
  children id := .ok ((nodes.filter fun node => node.parent = some id).map fun node => node.id)
  ids := (nodes.map fun node => node.id).toFinset
  mem_ids := by
    intro id node h
    cases hfind : nodes.find? fun node => node.id = id with
    | none =>
        rw [hfind] at h
        cases h
    | some found =>
        have hid : found.id = id := by simpa using List.find?_some hfind
        exact List.mem_toFinset.mpr (hid ▸ List.mem_map_of_mem (List.mem_of_find?_eq_some hfind))

namespace Nested

/-- Ids by the number of the attempt. -/
def numbered : Hashing := { Hashing.plain with node := fun identity => toString identity.attempt }

def texts : Texts := ⟨fun _ => .ok .none, id⟩

def stored (attempt : ℤ) (parent : Option String) (kind : NodeKind) (payload : Value) :
    StoredNode :=
  ⟨toString attempt, parent, kind, attempt, payload, none, none, none, .dict []⟩

def anchorPayload (team : String) : Value :=
  .dict [("_pollard", .dict [("team_agent", .dict [("version", .int 1), ("identity", .dict
    [("team_id", .str team), ("agent_id", .str "worker"), ("task_id", .str "task"),
      ("role", .none), ("allowed_tools", .none)])])])]

def root : StoredNode := stored 0 none .root (.dict [])

/-- An anchor that names another run. -/
def forged : StoredNode := stored 1 (some "0") .note (anchorPayload "another")

def valid : StoredNode := stored 2 (some "1") .note (anchorPayload "0")

def call : StoredNode := stored 3 (some "2") .modelCall (.dict [])

def nested : List StoredNode := [root, forged, valid, call]

theorem readTree_nested : readTree (.ofNodes nested) "0" = .ok (nested, []) := by
  have h0 : (Tree.ofNodes nested).get "0" = .ok root := by decide +kernel
  have h1 : (Tree.ofNodes nested).get "1" = .ok forged := by decide +kernel
  have h2 : (Tree.ofNodes nested).get "2" = .ok valid := by decide +kernel
  have h3 : (Tree.ofNodes nested).get "3" = .ok call := by decide +kernel
  have c0 : (Tree.ofNodes nested).children "0" = .ok ["1"] := by decide +kernel
  have c1 : (Tree.ofNodes nested).children "1" = .ok ["2"] := by decide +kernel
  have c2 : (Tree.ofNodes nested).children "2" = .ok ["3"] := by decide +kernel
  have c3 : (Tree.ofNodes nested).children "3" = .ok [] := by decide +kernel
  rw [readTree, readFrom_node (by simp) h0 c0, List.append_nil, readFrom_node (by simp) h1 c1,
    List.append_nil, readFrom_node (by simp) h2 c2, List.append_nil,
    readFrom_node (by simp) h3 c3, List.append_nil, readFrom]
  rfl

theorem teamReport_nested : teamReport numbered texts "0" (.ofNodes nested) =
    .ok ((attributeNodes numbered texts "0" nested).report "0" []) := by
  rw [teamReport, readTree_nested]
  rfl

/-- A call below a broken anchor is attributed to an agent if another anchor is between. -/
theorem forged_anchor_passed : ∃ anchor, reserved forged "team_agent" = some anchor ∧
    (declaredActor "0" forged anchor).isOk = false ∧
    Below [root, forged, valid] call [root] forged ∧
    (teamReport numbered texts "0" (.ofNodes nested)).map (fun report =>
      report.agents.map fun agent => (agent.key.agentId.1, agent.metrics.modelCalls)) =
        .ok [("worker", 1)] := by
  refine ⟨(reserved forged "team_agent").getD .none, by decide +kernel, by decide +kernel, ?_, ?_⟩
  · refine .parent ⟨[], rfl, rfl, by simp⟩ (.parent ⟨[], rfl, rfl, by simp⟩ (.refl _ _))
  · rw [teamReport, readTree_nested]
    decide +kernel

theorem teamReport_partition_nested : ∃ report entries,
    teamReport numbered texts "0" (.ofNodes nested) = .ok report ∧
    (∀ first e rest, entries = first ++ e :: rest → ∀ actor,
      e.2 = some actor ↔ Encloses numbered texts "0" (first.map Prod.fst) e.1 actor) ∧
    ∀ c, report.totals.count c = (report.agents.map fun agent => agent.metrics.count c).sum +
      report.unattributed.count c := by
  obtain ⟨entries, findings, hpartition⟩ := teamReport_partition teamReport_nested
  obtain ⟨-, -, -, hattributed, -, -, -, hcounts, -⟩ := hpartition
  exact ⟨_, entries, teamReport_nested, fun first e rest heq => (hattributed first e rest heq).1,
    hcounts⟩

end Nested

end Pollard.Teams
