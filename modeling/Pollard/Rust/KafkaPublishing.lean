import Pollard.Lib.Machine
import Pollard.Rust.KafkaReplay
import Pollard.Rust.Reloading

/-!
# What Kafka stores in Rust publish

A fresh reader sees the nodes whose puts or finalizations were acknowledged, over every run of one
writer.
-/

namespace Pollard.Rust.Kafka

open Lib Fallible Effect

/-! ## Appending -/

section Append

variable {lib : Library} {D : Digests} {storeId : String} {nodes : Node → Prop}
  {patches : String → Json → Prop}

/-- A store whose view is of its log up to some offset. -/
structure Healthy (lib : Library) (D : Digests) (storeId : String) (nodes : Node → Prop)
    (patches : String → Json → Prop) (s : KafkaStore) : Prop where
  published : Published lib D storeId nodes patches s.log
  bound : s.view.nextOffset ≤ s.log.length
  replayed : replay lib D storeId (s.log.take s.view.nextOffset) = .ok s.view

theorem healthy_new : Healthy lib D storeId nodes patches .new where
  published := .nil
  bound := le_rfl
  replayed := rfl

theorem replay_append (log rest : List Delivered) :
    replay lib D storeId (log ++ rest) =
      (replay lib D storeId log).bind (rest.foldlM (View.apply lib D storeId)) :=
  List.foldlM_append

theorem syncTo_ok (hlaw : lib.Lawful) (hp : Publishable lib D storeId nodes patches)
    {s : KafkaStore} (h : Healthy lib D storeId nodes patches s) {next : ℕ}
    (hnext : s.view.nextOffset ≤ next) :
    ∃ view, replay lib D storeId (s.log.take next) = .ok view ∧
      view.Shows lib D nodes patches (s.log.take next) ∧
      KafkaStore.syncTo lib D storeId next s = .ok () { s with view } := by
  have hpub : Published lib D storeId nodes patches (s.log.take next) := by
    have hwhole := h.published
    rw [← List.take_append_drop next s.log] at hwhole
    exact hwhole.of_append
  obtain ⟨view, hview, hshows⟩ := exists_replay hlaw hp hpub
  refine ⟨view, hview, hshows, ?_⟩
  have hfold : ((s.log.take next).drop s.view.nextOffset).foldlM (View.apply lib D storeId)
      s.view = .ok view := by
    have hsplit := @replay_append lib D storeId (s.log.take s.view.nextOffset)
      ((s.log.take next).drop s.view.nextOffset)
    have htake : s.log.take s.view.nextOffset ++ (s.log.take next).drop s.view.nextOffset =
        s.log.take next := by
      have hmin := List.take_append_drop s.view.nextOffset (s.log.take next)
      rwa [List.take_take, min_eq_left hnext] at hmin
    rw [htake, hview, h.replayed] at hsplit
    exact hsplit.symm
  unfold KafkaStore.syncTo
  simp only [bind_apply, get_apply, hfold, orRaise_ok, modify_apply]

/-- A store that has read its whole log. -/
structure Synced (lib : Library) (D : Digests) (storeId : String) (nodes : Node → Prop)
    (patches : String → Json → Prop) (s : KafkaStore) : Prop where
  published : Published lib D storeId nodes patches s.log
  replayed : replay lib D storeId s.log = .ok s.view
  shows : s.view.Shows lib D nodes patches s.log

theorem Synced.healthy {s : KafkaStore} (h : Synced lib D storeId nodes patches s) :
    Healthy lib D storeId nodes patches s where
  published := h.published
  bound := h.shows.offset.le
  replayed := by
    rw [h.shows.offset, List.take_length]
    exact h.replayed

theorem sync_ok (hlaw : lib.Lawful) (hp : Publishable lib D storeId nodes patches)
    {s : KafkaStore} (h : Healthy lib D storeId nodes patches s) :
    ∃ view, KafkaStore.sync lib D storeId s = .ok () { s with view } ∧
      Synced lib D storeId nodes patches { s with view } := by
  obtain ⟨view, hview, hshows, hsync⟩ := syncTo_ok hlaw hp h h.bound
  rw [List.take_length] at hview hshows
  exact ⟨view, hsync, h.published, hview, hshows⟩

theorem Synced.sync (hlaw : lib.Lawful) (hp : Publishable lib D storeId nodes patches)
    {s : KafkaStore} (h : Synced lib D storeId nodes patches s) :
    KafkaStore.sync lib D storeId s = .ok () s := by
  obtain ⟨view, hsync, hsynced⟩ := sync_ok hlaw hp h.healthy
  have hview : view = s.view := Except.ok.inj (hsynced.replayed.symm.trans h.replayed)
  rw [hsync, hview]

theorem produced_succ (e : Envelope) (offset count : ℕ) :
    produced storeId e offset (count + 1) =
      produced storeId e offset count ++ [⟨offset + count, storeId, e⟩] := by
  simp [produced, List.range_succ]

theorem length_produced (e : Envelope) (offset count : ℕ) :
    (produced storeId e offset count).length = count := by
  simp [produced]

/-- However often a new command is appended, it is applied once. -/
theorem Synced.exists_produced (hlaw : lib.Lawful) (hp : Publishable lib D storeId nodes patches)
    {s : KafkaStore} (h : Synced lib D storeId nodes patches s) {request : Request}
    (hsent : Sent lib nodes patches request)
    (hnew : s.view.operations.get? (D.operation request) = none) :
    ∃ result, Performs lib nodes patches s.view.nodes request result ∧ ∀ count, ∃ view,
      Published lib D storeId nodes patches
        (s.log ++ produced storeId (envelope D storeId request) s.log.length (count + 1)) ∧
      replay lib D storeId (s.log ++ produced storeId (envelope D storeId request)
        s.log.length (count + 1)) = .ok view ∧
      view.nodes = result.toOption.getD s.view.nodes ∧
      view.operations = (s.view.applied D request result).operations := by
  obtain ⟨first, happly, hfirst, hcases⟩ := apply_published hlaw hp h.published h.shows hsent
  rcases hcases with ⟨entry, hentry, -⟩ | ⟨-, result, hresult, rfl⟩
  · rw [hnew] at hentry
    cases hentry
  refine ⟨result, hresult, fun count => ?_⟩
  induction count with
  | zero =>
      refine ⟨_, ?_, ?_, rfl, rfl⟩
      · exact .snoc _ _ h.published hsent
      · rw [produced_succ]
        change replay lib D storeId (s.log ++ [_]) = _
        rw [replay_snoc, h.replayed]
        exact happly
  | succ count ih =>
      obtain ⟨view, hpub, hview, hnodes, hoperations⟩ := ih
      have hlength : (s.log ++ produced storeId (envelope D storeId request) s.log.length
          (count + 1)).length = s.log.length + (count + 1) := by
        rw [List.length_append, length_produced]
      have hshows : view.Shows lib D nodes patches (s.log ++
          produced storeId (envelope D storeId request) s.log.length (count + 1)) := by
        obtain ⟨found, hfound, hshows⟩ := exists_replay hlaw hp hpub
        rwa [Except.ok.inj (hview.symm.trans hfound)]
      have hentry : ∃ entry, view.operations.get? (D.operation request) = some entry :=
        ⟨_, by rw [hoperations]; exact Dict.get?_set_self _ _ _⟩
      obtain ⟨after, happly, -, hcases⟩ := apply_published hlaw hp hpub hshows hsent
      rcases hcases with ⟨-, -, rfl⟩ | ⟨hnone, -⟩
      · refine ⟨view.skipped, ?_, ?_, hnodes, hoperations⟩
        · rw [produced_succ, ← List.append_assoc, ← hlength]
          exact .snoc _ _ hpub hsent
        · rw [produced_succ, ← List.append_assoc, ← hlength, replay_snoc, hview]
          exact happly
      · obtain ⟨entry, hentry⟩ := hentry
        rw [hnone] at hentry
        cases hentry

/-- What an append does: the command came to what it first came to, and the log shows its node
if that was a success. -/
structure Appended (lib : Library) (D : Digests) (storeId : String) (nodes : Node → Prop)
    (patches : String → Json → Prop) (s : KafkaStore) (sent : Request)
    (result : Except Error MemoryStore) (after : KafkaStore) : Prop where
  healthy : Healthy lib D storeId nodes patches after
  staged : after.staged = s.staged
  first : ∃ before, replay lib D storeId (beforeRequest sent s.log) = .ok before ∧
    Performs lib nodes patches before.nodes sent result
  shown : ∀ view, replay lib D storeId after.log = .ok view → ∀ id,
    view.nodes.exists? id = true ↔ s.view.nodes.exists? id = true ∨
      result.isOk = true ∧ ∃ record, sent = .put record ∧ record.id = id

theorem Synced.append_known (hlaw : lib.Lawful) (hp : Publishable lib D storeId nodes patches)
    {s : KafkaStore} (h : Synced lib D storeId nodes patches s) {sent : Request}
    (hsent : Sent lib nodes patches sent) {entry : String × ℕ × Except Error Unit}
    (hentry : s.view.operations.get? (D.operation sent) = some entry) :
    ∃ result, entry.2.2 = result.map (fun _ => ()) ∧
      Appended lib D storeId nodes patches s sent result s := by
  obtain ⟨before, result, hbefore, hresult, houtcome⟩ :=
    entry_first hlaw hp h.published h.replayed hsent hentry
  refine ⟨result, houtcome, h.healthy, rfl, ⟨before, hbefore, hresult⟩, fun view hview id => ?_⟩
  obtain rfl := Except.ok.inj (hview.symm.trans h.replayed)
  refine (or_iff_left_of_imp ?_).symm
  rintro ⟨hok, record, rfl, rfl⟩
  obtain ⟨store, rfl⟩ := isOk_iff.mp hok
  have hok' : s.view.operations.get? (D.operation (.put record)) =
      some (entry.1, entry.2.1, .ok ()) := by
    rw [hentry, ← show entry.2.2 = .ok () from houtcome]
  exact h.shows.acknowledged hsent hok'

theorem Synced.append_new (hlaw : lib.Lawful) (hp : Publishable lib D storeId nodes patches)
    {s : KafkaStore} (h : Synced lib D storeId nodes patches s) {sent : Request}
    (hsent : Sent lib nodes patches sent)
    (hnew : s.view.operations.get? (D.operation sent) = none) (delivery : Delivery) :
    ∃ view result,
      KafkaStore.syncTo lib D storeId (s.log.length + delivery.earlier + 1)
        (s.produce storeId (envelope D storeId sent) (delivery.earlier + 1 + delivery.later)) =
        .ok () { s.produce storeId (envelope D storeId sent)
          (delivery.earlier + 1 + delivery.later) with view } ∧
      view.operations.get? (D.operation sent) =
        some (D.request sent, s.view.nextOffset, result.map fun _ => ()) ∧
      Appended lib D storeId nodes patches s sent result
        { s.produce storeId (envelope D storeId sent)
          (delivery.earlier + 1 + delivery.later) with view } := by
  obtain ⟨result, hresult, hproduced⟩ := h.exists_produced hlaw hp hsent hnew
  have hcount : delivery.earlier + 1 + delivery.later = delivery.earlier + delivery.later + 1 := by
    omega
  obtain ⟨full, hpub, hfull, hnodes, -⟩ := hproduced (delivery.earlier + delivery.later)
  obtain ⟨view, -, hview, -, hoperations⟩ := hproduced delivery.earlier
  rw [hcount]
  have hhealthy : Healthy lib D storeId nodes patches (s.produce storeId
      (envelope D storeId sent) (delivery.earlier + delivery.later + 1)) := by
    refine ⟨hpub, ?_, ?_⟩
    · change s.view.nextOffset ≤ (s.log ++ _).length
      rw [h.shows.offset, List.length_append]
      omega
    · change replay lib D storeId (List.take s.view.nextOffset (s.log ++ _)) = .ok s.view
      rw [h.shows.offset, List.take_left]
      exact h.replayed
  have hbound : s.view.nextOffset ≤ s.log.length + delivery.earlier + 1 := by
    rw [h.shows.offset]
    omega
  have htake : (s.log ++ produced storeId (envelope D storeId sent) s.log.length
      (delivery.earlier + delivery.later + 1)).take (s.log.length + delivery.earlier + 1) =
        s.log ++ produced storeId (envelope D storeId sent) s.log.length (delivery.earlier + 1) := by
    rw [Nat.add_assoc, List.take_length_add_append, produced, produced, ← List.map_take,
      List.take_range, min_eq_left (by omega)]
  obtain ⟨found, hfound, hshows, hsync⟩ := syncTo_ok hlaw hp hhealthy hbound
  change replay lib D storeId (List.take _ (s.log ++ _)) = _ at hfound
  change View.Shows lib D nodes patches (List.take _ (s.log ++ _)) _ at hshows
  rw [htake] at hfound hshows
  obtain rfl := Except.ok.inj (hfound.symm.trans hview)
  refine ⟨found, result, hsync, ?_, ⟨hpub, ?_, ?_⟩, rfl, ⟨s.view, ?_, hresult⟩, ?_⟩
  · rw [hoperations]
    exact Dict.get?_set_self _ _ _
  · change found.nextOffset ≤ (s.log ++ _).length
    rw [hshows.offset, List.length_append, List.length_append, length_produced, length_produced]
    omega
  · change replay lib D storeId (List.take found.nextOffset (s.log ++ _)) = .ok found
    rw [hshows.offset, List.length_append, length_produced, ← Nat.add_assoc, htake]
    exact hfound
  · have hbefore := beforeRequest_of_not_mem (h.shows.not_mem h.published hnew) []
    rw [List.append_nil] at hbefore
    rw [hbefore]
    change replay lib D storeId (s.log ++ []) = _
    rw [List.append_nil]
    exact h.replayed
  · intro view hview id
    change replay lib D storeId (s.log ++ _) = _ at hview
    obtain rfl := Except.ok.inj (hview.symm.trans hfull)
    rw [hnodes]
    cases result with
    | error => exact (or_iff_left fun hand => absurd hand.1 Bool.false_ne_true).symm
    | ok store =>
        refine ((hresult.kept h.shows.wellFormed h.shows.recorded rfl).2.2 id).trans ?_
        exact or_congr_right (and_iff_right rfl).symm

/-- Every append raises what its command first came to. -/
theorem Synced.append (hlaw : lib.Lawful) (hp : Publishable lib D storeId nodes patches)
    {s : KafkaStore} (h : Synced lib D storeId nodes patches s) {request sent : Request}
    (hsent : Sent lib nodes patches sent)
    (hevent : event lib D storeId request = .ok (envelope D storeId sent)) (delivery : Delivery) :
    ∃ result after, Appended lib D storeId nodes patches s sent result after ∧
      KafkaStore.append lib D storeId request delivery s =
        orRaise (result.map fun _ => ()) after := by
  unfold KafkaStore.append
  cases hentry : s.view.operations.get? (D.operation sent) with
  | some entry =>
      obtain ⟨result, houtcome, happended⟩ := h.append_known hlaw hp hsent hentry
      refine ⟨result, s, happended, ?_⟩
      have hknown : s.view.operations.get? (envelope D storeId sent).operationId = some entry :=
        hentry
      simp only [bind_apply, get_apply, h.sync hlaw hp, hevent, orRaise_ok, hknown, houtcome]
  | none =>
      obtain ⟨view, result, hsync, hresult, happended⟩ :=
        h.append_new hlaw hp hsent hentry delivery
      refine ⟨result, _, happended, ?_⟩
      have hunknown : s.view.operations.get? (envelope D storeId sent).operationId = none := hentry
      have hentered : view.operations.get? (envelope D storeId sent).operationId =
        some (D.request sent, s.view.nextOffset, result.map fun _ => ()) := hresult
      simp only [bind_apply, get_apply, h.sync hlaw hp, hevent, orRaise_ok, hunknown, modify_apply,
        attempt, hsync, hentered]

/-! ## The operations -/

theorem Healthy.withStaged {s : KafkaStore} (h : Healthy lib D storeId nodes patches s)
    (staged : Dict String Node) : Healthy lib D storeId nodes patches { s with staged } :=
  ⟨h.published, h.bound, h.replayed⟩

/-- After an operation the log shows one more node, if one was acknowledged. -/
structure Accounted (lib : Library) (D : Digests) (storeId : String) (nodes : Node → Prop)
    (patches : String → Json → Prop) (s after : KafkaStore) (acknowledged : Option String) :
    Prop where
  healthy : Healthy lib D storeId nodes patches after
  shown : ∀ view, replay lib D storeId s.log = .ok view → ∀ view',
    replay lib D storeId after.log = .ok view' → ∀ id, view'.nodes.exists? id = true ↔
      view.nodes.exists? id = true ∨ acknowledged = some id

theorem accounted_of_log {s after : KafkaStore} (h : Healthy lib D storeId nodes patches after)
    (hlog : after.log = s.log) : Accounted lib D storeId nodes patches s after none where
  healthy := h
  shown := by
    intro view hview view' hview' id
    rw [hlog, hview] at hview'
    rw [Except.ok.inj hview']
    exact (or_iff_left nofun).symm

theorem Appended.accounted {s after : KafkaStore} {sent : Request}
    {result : Except Error MemoryStore} (hs : Synced lib D storeId nodes patches s)
    (h : Appended lib D storeId nodes patches s sent result after) {acknowledged : Option String}
    (hacknowledged : ∀ id, acknowledged = some id ↔
      result.isOk = true ∧ ∃ record, sent = .put record ∧ record.id = id) :
    Accounted lib D storeId nodes patches s after acknowledged where
  healthy := h.healthy
  shown := by
    intro view hview view' hview' id
    obtain rfl := Except.ok.inj (hview.symm.trans hs.replayed)
    rw [h.shown view' hview' id, hacknowledged]

theorem Accounted.withStaged {s after : KafkaStore} {acknowledged : Option String}
    (h : Accounted lib D storeId nodes patches s after acknowledged) (staged : Dict String Node) :
    Accounted lib D storeId nodes patches s { after with staged } acknowledged :=
  ⟨h.healthy.withStaged staged, h.shown⟩

theorem Accounted.ofView {s after : KafkaStore} {view : View} {acknowledged : Option String}
    (h : Accounted lib D storeId nodes patches { s with view } after acknowledged) :
    Accounted lib D storeId nodes patches s after acknowledged := ⟨h.healthy, h.shown⟩

theorem nodeRecord_ok {node : Node} {record : Record}
    (h : KafkaStore.nodeRecord lib node = .ok record) :
    node.validate lib = .ok () ∧ node.record lib = .ok record ∧ record.id = node.id := by
  obtain ⟨_, hvalid, hrecord⟩ := bind_ok_iff.mp h
  refine ⟨hvalid, hrecord, ?_⟩
  obtain ⟨_, -, hrest⟩ := bind_ok_iff.mp hrecord
  obtain ⟨_, -, hrest⟩ := bind_ok_iff.mp hrest
  cases hrest
  rfl

/-- An append of a node acknowledges it exactly if it came to a success. -/
theorem Synced.append_node (hlaw : lib.Lawful) (hp : Publishable lib D storeId nodes patches)
    {s : KafkaStore} (h : Synced lib D storeId nodes patches s) {node : Node} (hown : nodes node)
    {record : Record} (hrecord : node.record lib = .ok record) (hid : record.id = node.id)
    (delivery : Delivery) :
    ∃ result after, Appended lib D storeId nodes patches s (.put record) result after ∧
      KafkaStore.append lib D storeId (.put record) delivery s =
        orRaise (result.map fun _ => ()) after ∧
      Accounted lib D storeId nodes patches s after
        (if result.isOk then some node.id else none) := by
  have hsent : Sent lib nodes patches (.put record) := .put node record hown hrecord
  obtain ⟨result, after, happended, happend⟩ := h.append hlaw hp hsent (hsent.event hlaw) delivery
  refine ⟨result, after, happended, happend, happended.accounted h fun id => ?_⟩
  rw [← hid]
  cases result.isOk <;> simp

/-- A put stops before it appends, or ends with what its command came to. -/
theorem put_spec (hlaw : lib.Lawful) (hp : Publishable lib D storeId nodes patches)
    {s : KafkaStore} (h : Healthy lib D storeId nodes patches s) {node : Node} (hown : nodes node)
    {record : Record} (hrecord : KafkaStore.nodeRecord lib node = .ok record)
    (delivery : Delivery) :
    ∃ view, Synced lib D storeId nodes patches { s with view } ∧
      ((∃ error, KafkaStore.put lib D storeId node delivery s = .error error { s with view } ∧
          ¬ (s.staged.contains node.id = false ∧
            KafkaStore.checkParent { s with view } node = .ok ())) ∨
        ∃ result after,
          Appended lib D storeId nodes patches { s with view } (.put record) result after ∧
          KafkaStore.put lib D storeId node delivery s = orRaise (result.map fun _ => ()) after ∧
          Accounted lib D storeId nodes patches { s with view } after
            (if result.isOk then some node.id else none)) := by
  obtain ⟨view, hsync, hsynced⟩ := sync_ok hlaw hp h
  obtain ⟨-, hstored, hid⟩ := nodeRecord_ok hrecord
  refine ⟨view, hsynced, ?_⟩
  unfold KafkaStore.put
  simp only [bind_apply, hrecord, orRaise_ok, hsync, get_apply]
  by_cases hstaged : s.staged.contains node.id = false
  · rw [ensure_ok_iff.mpr hstaged]
    simp only [orRaise_ok]
    cases hparent : KafkaStore.checkParent { s with view } node with
    | error error => exact .inl ⟨error, rfl, fun hand => (by cases hand.2)⟩
    | ok _ =>
        obtain ⟨result, after, happended, happend, haccounted⟩ :=
          hsynced.append_node hlaw hp hown hstored hid delivery
        exact .inr ⟨result, after, happended, happend, haccounted⟩
  · rw [ensure, if_neg hstaged]
    exact .inl ⟨_, rfl, fun hand => hstaged hand.1⟩

/-- What an operation acknowledges: the node, if it succeeds. -/
def acknowledgedBy (id : String) (x : EStateM Error KafkaStore Unit) (s : KafkaStore) :
    Option String :=
  match outcome x s with
  | .ok _ => some id
  | .error _ => none

theorem acknowledgedBy_orRaise (id : String) {x : EStateM Error KafkaStore Unit}
    {s after : KafkaStore} {result : Except Error MemoryStore}
    (h : x s = orRaise (result.map fun _ => ()) after) :
    Effect.after x s = after ∧
      acknowledgedBy id x s = if result.isOk then some id else none := by
  cases result with
  | error error =>
      have hx : x s = .error error after := h
      rw [Effect.after, acknowledgedBy, outcome, hx]
      exact ⟨rfl, rfl⟩
  | ok store =>
      have hx : x s = .ok () after := h
      rw [Effect.after, acknowledgedBy, outcome, hx]
      exact ⟨rfl, rfl⟩

theorem acknowledgedBy_error (id : String) {x : EStateM Error KafkaStore Unit}
    {s after : KafkaStore} {error : Error} (h : x s = .error error after) :
    Effect.after x s = after ∧ acknowledgedBy id x s = none := by
  rw [Effect.after, acknowledgedBy, outcome, h]
  exact ⟨rfl, rfl⟩

theorem put_accounted (hlaw : lib.Lawful) (hp : Publishable lib D storeId nodes patches)
    {s : KafkaStore} (h : Healthy lib D storeId nodes patches s) {node : Node}
    (hown : node.validate lib = .ok () → nodes node) (delivery : Delivery) :
    Accounted lib D storeId nodes patches s (after (KafkaStore.put lib D storeId node delivery) s)
      (acknowledgedBy node.id (KafkaStore.put lib D storeId node delivery) s) := by
  cases hrecord : KafkaStore.nodeRecord lib node with
  | error error =>
      have hput : KafkaStore.put lib D storeId node delivery s = .error error s := by
        unfold KafkaStore.put
        simp only [bind_apply, hrecord, orRaise_error]
      obtain ⟨hafter, hnone⟩ := acknowledgedBy_error node.id hput
      rw [hafter, hnone]
      exact accounted_of_log h rfl
  | ok record =>
      obtain ⟨view, hsynced, ⟨error, hput, -⟩ | ⟨result, after, -, hput, haccounted⟩⟩ :=
        put_spec hlaw hp h (hown (nodeRecord_ok hrecord).1) hrecord delivery
      · obtain ⟨hafter, hnone⟩ := acknowledgedBy_error node.id hput
        rw [hafter, hnone]
        exact accounted_of_log hsynced.healthy rfl
      · obtain ⟨hafter, hsome⟩ := acknowledgedBy_orRaise node.id hput
        rw [hafter, hsome]
        exact haccounted.ofView

theorem finalize_accounted (hlaw : lib.Lawful) (hp : Publishable lib D storeId nodes patches)
    {s : KafkaStore} (h : Healthy lib D storeId nodes patches s) {node : Node}
    (hown : node.validate lib = .ok () → nodes node) (delivery : Delivery) :
    Accounted lib D storeId nodes patches s
      (after (KafkaStore.finalize lib D storeId node delivery) s)
      (acknowledgedBy node.id (KafkaStore.finalize lib D storeId node delivery) s) := by
  have hstop (error : Error) (view : View)
      (hhealthy : Healthy lib D storeId nodes patches { s with view })
      (hfinal : KafkaStore.finalize lib D storeId node delivery s = .error error { s with view }) :
      Accounted lib D storeId nodes patches s
        (after (KafkaStore.finalize lib D storeId node delivery) s)
        (acknowledgedBy node.id (KafkaStore.finalize lib D storeId node delivery) s) := by
    obtain ⟨hafter, hnone⟩ := acknowledgedBy_error node.id hfinal
    rw [hafter, hnone]
    exact accounted_of_log hhealthy rfl
  cases hrecord : KafkaStore.nodeRecord lib node with
  | error error =>
      refine hstop error s.view h ?_
      unfold KafkaStore.finalize
      simp only [bind_apply, hrecord, orRaise_error]
  | ok record =>
      obtain ⟨view, hsync, hsynced⟩ := sync_ok hlaw hp h
      obtain ⟨hvalid, hstored, hid⟩ := nodeRecord_ok hrecord
      cases hpending : s.staged.get? node.id with
      | none =>
          refine hstop (.integrity "Kafka identity was not staged") view hsynced.healthy ?_
          unfold KafkaStore.finalize
          simp only [bind_apply, hrecord, orRaise_ok, hsync, get_apply, hpending, throw_apply]
      | some pending =>
          by_cases hsame : pending.sameIdentity node ∧
              node.state.getD "" ∈ ["completed", "failed"]
          · obtain ⟨result, appended, -, happend, haccounted⟩ :=
              hsynced.append_node hlaw hp (hown hvalid) hstored hid delivery
            have hfinal : KafkaStore.finalize lib D storeId node delivery s =
                (KafkaStore.append lib D storeId (.put record) delivery >>= fun _ =>
                  modify fun s => { s with staged := s.staged.erase node.id })
                    { s with view } := by
              unfold KafkaStore.finalize
              simp only [bind_apply, hrecord, orRaise_ok, hsync, get_apply, hpending,
                ensure_ok_iff.mpr hsame]
            rw [bind_apply, happend] at hfinal
            cases result with
            | error error =>
                obtain ⟨hafter, hnone⟩ := acknowledgedBy_error node.id hfinal
                rw [hafter, hnone]
                exact haccounted.ofView
            | ok store =>
                rw [after, acknowledgedBy, outcome, hfinal]
                exact (haccounted.withStaged _).ofView
          · refine hstop (.integrity "Kafka settlement identity/state mismatch") view
              hsynced.healthy ?_
            unfold KafkaStore.finalize
            simp only [bind_apply, hrecord, orRaise_ok, hsync, get_apply, hpending,
              ensure, if_neg hsame, orRaise_error]

theorem updateMeta_accounted (hlaw : lib.Lawful) (hp : Publishable lib D storeId nodes patches)
    {s : KafkaStore} (h : Healthy lib D storeId nodes patches s) {id : String} {patch : Json}
    (hpatch : patch.isObject = true → patches id patch) (delivery : Delivery) :
    Accounted lib D storeId nodes patches s
      (after (KafkaStore.updateMeta lib D storeId id patch delivery) s) none := by
  unfold KafkaStore.updateMeta
  by_cases hobject : patch.isObject = true
  · rw [after_bind, ensure_ok_iff.mpr hobject]
    dsimp only [orRaise_ok]
    cases hspelled : patch.spelled lib with
    | error error => exact accounted_of_log h rfl
    | ok text =>
        obtain ⟨view, hsync, hsynced⟩ := sync_ok hlaw hp h
        rw [after_bind]
        dsimp only [orRaise_ok]
        rw [after_bind, hsync]
        dsimp only
        rw [after_bind]
        dsimp only [get_apply]
        cases patch with
        | object entries =>
            cases hstaged : s.staged.get? id with
            | some node => exact accounted_of_log (hsynced.healthy.withStaged _) rfl
            | none =>
                dsimp only
                rw [after_bind]
                cases hnode : KafkaStore.nodeOf { s with view } id with
                | error error => exact accounted_of_log hsynced.healthy rfl
                | ok node =>
                    dsimp only [orRaise_ok]
                    have hsent : Sent lib nodes patches (.patch id text) :=
                      .patch id (.object entries) text (hpatch hobject) hspelled
                    have hevent : event lib D storeId (.patch id (.object entries)) =
                        .ok (envelope D storeId (.patch id text)) := by
                      rw [event, Request.spelled, hspelled]
                      rfl
                    obtain ⟨result, appended, happended, happend⟩ :=
                      hsynced.append hlaw hp hsent hevent delivery
                    have hafter : after (KafkaStore.append lib D storeId
                        (.patch id (.object entries)) delivery) { s with view } = appended :=
                      (acknowledgedBy_orRaise id happend).1
                    rw [hafter]
                    refine (happended.accounted hsynced fun other => ?_).ofView
                    refine iff_of_false (by rintro ⟨⟩) ?_
                    rintro ⟨_, _, ⟨⟩, _⟩
        | _ => cases hobject
  · rw [ensure, if_neg hobject]
    exact accounted_of_log h rfl

/-- Nothing but what is staged changes. -/
def OnlyStages (s s' : KafkaStore) : Prop := s'.log = s.log ∧ s'.view = s.view

theorem onlyStages_frame : Frame OnlyStages where
  refl := fun _ => ⟨rfl, rfl⟩
  trans := fun h h' => ⟨h'.1.trans h.1, h'.2.trans h.2⟩

/-- What a store does after it was synchronized to what is staged is not published. -/
theorem accounted_of_onlyStages (hlaw : lib.Lawful)
    (hp : Publishable lib D storeId nodes patches) {s : KafkaStore}
    (h : Healthy lib D storeId nodes patches s) {rest : EStateM Error KafkaStore Unit}
    (hrest : Keeps OnlyStages rest) :
    Accounted lib D storeId nodes patches s
      (after (KafkaStore.sync lib D storeId >>= fun _ => rest) s) none := by
  obtain ⟨view, hsync, hsynced⟩ := sync_ok hlaw hp h
  rw [after_bind, hsync]
  obtain ⟨hlog, hview⟩ := hrest { s with view }
  refine accounted_of_log ⟨?_, ?_, ?_⟩ hlog
  · exact hlog.symm ▸ hsynced.published
  · exact hlog.symm ▸ hview.symm ▸ hsynced.healthy.bound
  · rw [hlog, hview]
    exact hsynced.healthy.replayed

theorem stagePending_accounted (hlaw : lib.Lawful) (hp : Publishable lib D storeId nodes patches)
    {s : KafkaStore} (h : Healthy lib D storeId nodes patches s) (node : Node) :
    Accounted lib D storeId nodes patches s
      (after (KafkaStore.stagePending lib D storeId node) s) none := by
  unfold KafkaStore.stagePending
  cases hvalid : node.validate lib with
  | error error => exact accounted_of_log h rfl
  | ok _ =>
      have hR := onlyStages_frame
      exact accounted_of_onlyStages hlaw hp h (hR.bind hR.get fun s => hR.bind (hR.orRaise _)
        fun _ => hR.bind (hR.orRaise _) fun _ => keeps_modify fun _ => ⟨rfl, rfl⟩)

theorem dropNodes_accounted (hlaw : lib.Lawful) (hp : Publishable lib D storeId nodes patches)
    {s : KafkaStore} (h : Healthy lib D storeId nodes patches s) (ids : List String) :
    Accounted lib D storeId nodes patches s
      (after (KafkaStore.dropNodes lib D storeId ids) s) none := by
  have hR := onlyStages_frame
  exact accounted_of_onlyStages hlaw hp h (hR.bind hR.get fun s => hR.bind (hR.orRaise _)
    fun _ => hR.bind (hR.orRaise _) fun _ => keeps_modify fun _ => ⟨rfl, rfl⟩)

end Append

/-! ## Runs -/

inductive Op where
  | put (node : Node) (delivery : Delivery)
  | updateMeta (id : String) (patch : Json) (delivery : Delivery)
  | stagePending (node : Node)
  | finalize (node : Node) (delivery : Delivery)
  | dropNodes (ids : List String)

/-- The nodes that operations may publish. -/
def nodesOf (lib : Library) (ops : List Op) (node : Node) : Prop :=
  node.validate lib = .ok () ∧ ∃ delivery, .put node delivery ∈ ops ∨ .finalize node delivery ∈ ops

def patchesOf (ops : List Op) (id : String) (patch : Json) : Prop :=
  patch.isObject = true ∧ ∃ delivery, .updateMeta id patch delivery ∈ ops

/-- A store with the ids of the nodes whose puts or finalizations returned. -/
structure Account where
  store : KafkaStore
  acknowledged : List String

def Account.opened : Account := ⟨.new, []⟩

section Runs

variable (lib : Library) (D : Digests) (storeId : String)

def Op.perform : Op → EStateM Error KafkaStore Unit
  | .put node delivery => KafkaStore.put lib D storeId node delivery
  | .updateMeta id patch delivery => KafkaStore.updateMeta lib D storeId id patch delivery
  | .stagePending node => KafkaStore.stagePending lib D storeId node
  | .finalize node delivery => KafkaStore.finalize lib D storeId node delivery
  | .dropNodes ids => KafkaStore.dropNodes lib D storeId ids

/-- What an operation acknowledges in a store. -/
def Op.acknowledges (s : KafkaStore) (op : Op) : Option String :=
  match op with
  | .put node _ | .finalize node _ => acknowledgedBy node.id (op.perform lib D storeId) s
  | _ => none

def Account.step (a : Account) (op : Op) : Account where
  store := after (op.perform lib D storeId) a.store
  acknowledged := (op.acknowledges lib D storeId a.store).toList ++ a.acknowledged

end Runs

section Publishing

variable {lib : Library} {D : Digests} {storeId : String}

theorem accounted_perform (hlaw : lib.Lawful) {ops : List Op}
    (hp : Publishable lib D storeId (nodesOf lib ops) (patchesOf ops)) {s : KafkaStore}
    (h : Healthy lib D storeId (nodesOf lib ops) (patchesOf ops) s) {op : Op} (hop : op ∈ ops) :
    Accounted lib D storeId (nodesOf lib ops) (patchesOf ops) s
      (after (op.perform lib D storeId) s) (op.acknowledges lib D storeId s) := by
  cases op with
  | put node delivery =>
      exact put_accounted hlaw hp h (fun hvalid => ⟨hvalid, delivery, .inl hop⟩) delivery
  | updateMeta id patch delivery =>
      exact updateMeta_accounted hlaw hp h (fun hobject => ⟨hobject, delivery, hop⟩) delivery
  | stagePending node => exact stagePending_accounted hlaw hp h node
  | finalize node delivery =>
      exact finalize_accounted hlaw hp h (fun hvalid => ⟨hvalid, delivery, .inr hop⟩) delivery
  | dropNodes ids => exact dropNodes_accounted hlaw hp h ids

/-- The log of a store shows what was acknowledged. -/
structure Account.Honest (lib : Library) (D : Digests) (storeId : String) (nodes : Node → Prop)
    (patches : String → Json → Prop) (a : Account) : Prop where
  healthy : Healthy lib D storeId nodes patches a.store
  shown : ∀ view, replay lib D storeId a.store.log = .ok view →
    ∀ id, view.nodes.exists? id = true ↔ id ∈ a.acknowledged

theorem Account.Honest.step (hlaw : lib.Lawful) {ops : List Op}
    (hp : Publishable lib D storeId (nodesOf lib ops) (patchesOf ops)) {a : Account}
    (h : a.Honest lib D storeId (nodesOf lib ops) (patchesOf ops)) {op : Op} (hop : op ∈ ops) :
    (a.step lib D storeId op).Honest lib D storeId (nodesOf lib ops) (patchesOf ops) := by
  have haccounted := accounted_perform hlaw hp h.healthy hop
  refine ⟨haccounted.healthy, fun view hview id => ?_⟩
  obtain ⟨old, hold, -⟩ := exists_replay hlaw hp h.healthy.published
  rw [haccounted.shown old hold view hview id, h.shown old hold]
  simp only [Account.step, List.mem_append, Option.mem_toList]
  exact or_comm

theorem honest_run (hlaw : lib.Lawful) {ops : List Op}
    (hp : Publishable lib D storeId (nodesOf lib ops) (patchesOf ops)) {run : List Op}
    (hrun : ∀ op ∈ run, op ∈ ops) :
    (Machine.run (Account.step lib D storeId) .opened run).Honest lib D storeId (nodesOf lib ops)
      (patchesOf ops) := by
  refine Machine.invariant_run _ (fun a op ha hop => ha.step hlaw hp hop) ?_
    (Machine.along_of_forall hrun _)
  refine ⟨healthy_new, fun view hview id => ?_⟩
  cases hview
  exact iff_of_false Bool.false_ne_true List.not_mem_nil

theorem checkParent_ok_iff {s : KafkaStore} {node : Node} :
    s.checkParent node = .ok () ↔ ∀ parent, node.parent = some parent →
      s.staged.contains parent = true ∨ s.view.nodes.exists? parent = true := by
  unfold KafkaStore.checkParent
  cases node.parent with
  | none => exact iff_of_true rfl nofun
  | some parent =>
      simp only [Option.some.injEq, forall_eq']
      unfold KafkaStore.nodeOf MemoryStore.get MemoryStore.exists? Dict.contains
      cases s.staged.get? parent <;> cases s.view.nodes.nodes.get? parent <;>
        simp [Except.map]

/-- Nodes with one record are admitted alike. -/
theorem admits_of_record {a b : Node} {record : Record} (ha : a.record lib = .ok record)
    (hb : b.record lib = .ok record) {store : MemoryStore} (h : Admits store a) :
    Admits store b := by
  have hfields {node : Node} (h : node.record lib = .ok record) :
      record.id = node.id ∧ record.parent = node.parent ∧ record.result = node.resultText := by
    obtain ⟨_, -, hrest⟩ := bind_ok_iff.mp h
    obtain ⟨_, -, hrest⟩ := bind_ok_iff.mp hrest
    cases hrest
    exact ⟨rfl, rfl, rfl⟩
  obtain ⟨hid, hparent, htext⟩ := hfields ha
  obtain ⟨hid', hparent', htext'⟩ := hfields hb
  obtain ⟨hparents, hconflicts⟩ := h
  refine ⟨fun parent hp => hparents parent ?_, fun existing hget hdiffers =>
    hconflicts existing ?_ ?_⟩
  · rw [← hparent, hparent', hp]
  · rw [← hid, hid', hget]
  · simpa only [Node.differs, ← htext, ← htext'] using hdiffers

/-- A put of a node below a visible one succeeds exactly if the log before its command admits
it. -/
theorem put_succeeds_iff (hlaw : lib.Lawful) {ops : List Op}
    (hp : Publishable lib D storeId (nodesOf lib ops) (patchesOf ops)) {s : KafkaStore}
    (h : Healthy lib D storeId (nodesOf lib ops) (patchesOf ops) s) {view : View}
    (hview : replay lib D storeId s.log = .ok view) {node : Node} {delivery : Delivery}
    (hop : .put node delivery ∈ ops) {record : Record}
    (hrecord : KafkaStore.nodeRecord lib node = .ok record)
    (hstaged : s.staged.contains node.id = false)
    (hvisible : ∀ parent, node.parent = some parent →
      s.staged.contains parent = true ∨ view.nodes.exists? parent = true) :
    ∃ before, replay lib D storeId (beforeRequest (.put record) s.log) = .ok before ∧
      (outcome (KafkaStore.put lib D storeId node delivery) s = .ok () ↔
        Admits before.nodes node) := by
  obtain ⟨hvalid, hstored, -⟩ := nodeRecord_ok hrecord
  have hown : nodesOf lib ops node := ⟨hvalid, delivery, .inl hop⟩
  obtain ⟨current, hsynced, ⟨_, -, hstopped⟩ | ⟨result, after, happended, hput, -⟩⟩ :=
    put_spec hlaw hp h hown hrecord delivery
  · obtain rfl := Except.ok.inj (hsynced.replayed.symm.trans hview)
    exact absurd ⟨hstaged, checkParent_ok_iff.mpr hvisible⟩ hstopped
  · obtain ⟨before, hbefore, hperforms⟩ := happended.first
    refine ⟨before, hbefore, ?_⟩
    have hpub : Published lib D storeId (nodesOf lib ops) (patchesOf ops)
        (beforeRequest (.put record) s.log) := by
      have hwhole := h.published
      obtain ⟨rest, hrest⟩ := List.takeWhile_prefix (l := s.log)
        fun r => decide (r.envelope.request ≠ .put record)
      rw [← hrest] at hwhole
      exact hwhole.of_append
    obtain ⟨found, hfound, hshows⟩ := exists_replay hlaw hp hpub
    obtain rfl := Except.ok.inj (hfound.symm.trans hbefore)
    have hok : outcome (KafkaStore.put lib D storeId node delivery) s = .ok () ↔
        ∃ store, result = .ok store := by
      rw [outcome, hput]
      cases result with
      | error error => exact iff_of_false nofun fun ⟨_, h⟩ => nomatch h
      | ok store => exact iff_of_true rfl ⟨store, rfl⟩
    rw [hok]
    cases hperforms with
    | put own other _ hother hownRecord hparsed hreads hfit hotherValid =>
        rw [put_ok_iff_admits hp hshows.wellFormed hshows.recorded hother hreads hfit hotherValid]
        exact ⟨admits_of_record hownRecord hstored, admits_of_record hstored hownRecord⟩

end Publishing

section Samples

def sampleRoot : Node := HashRopeStore.rootNode

def rootIn (state : String) : Node :=
  { sampleRoot with metadata := .object [("state", .string state)] }

def noteBelow : Node :=
  ⟨"30b3950537a7e9d322e406bde32b21c9b92e31cb3df92dba8961aee218bbebf5", some sampleRoot.id,
    .note, 0, .object [("note", .string "n")], none, none, none, .object []⟩

/-- A library that hashes the octets of two nodes, which differ in length, to their ids. -/
def hashingLibrary : Library :=
  ⟨fun octets => if octets.length = 53 then sampleRoot.id else noteBelow.id,
    fun _ => none, fun _ => true, fun _ => none, fun _ => ""⟩

/-- Digests that tell commands apart by their ids. -/
def idDigests : Digests :=
  let digest := fun
    | .put record => s!"put {record.id}"
    | .patch id _ => s!"meta {id}"
  ⟨digest, digest⟩

/-- The digests of the command that puts the root. -/
def rootDigests : Digests :=
  ⟨fun _ => "bee7ee7b7ac366c0d6c107616235809b92f9621dc8770d5d25f1116a1abb9e3b",
    fun _ => "b7e4e191f928bf9f67be836864ea946523f1a5339811fb1239eff1742a3119fd"⟩

theorem publishable_root : Publishable hashingLibrary rootDigests "default"
    (nodesOf hashingLibrary [.put sampleRoot ⟨0, 0⟩]) (patchesOf [.put sampleRoot ⟨0, 0⟩]) := by
  have hnode {own : Node} (h : nodesOf hashingLibrary [.put sampleRoot ⟨0, 0⟩] own) :
      own = sampleRoot := by
    obtain ⟨-, delivery, h | h⟩ := h
    · cases List.mem_singleton.mp h
      rfl
    · cases List.mem_singleton.mp h
  have hpatch {id : String} {body : Json} (h : patchesOf [.put sampleRoot ⟨0, 0⟩] id body) :
      False := by
    obtain ⟨-, delivery, h⟩ := h
    cases List.mem_singleton.mp h
  refine ⟨?_, fun h => h.1, ?_, ?_, fun h => (hpatch h).elim, fun h => (hpatch h).elim,
    fun h => (hpatch h).elim, ?_, ?_⟩
  · intro own h
    rw [hnode h]
    exact ⟨by decide, rfl, nofun⟩
  · exact fun _ => rfl
  · exact fun _ _ _ => rfl
  · intro a b ha hb _
    rw [hnode ha, hnode hb]
  · intro a b ha hb _
    cases ha with
    | put own record hown hrecord =>
        cases hb with
        | put own' record' hown' hrecord' =>
            rw [hnode hown] at hrecord
            rw [hnode hown'] at hrecord'
            rw [Except.ok.inj (hrecord.symm.trans hrecord')]
        | patch id body text hbody => exact (hpatch hbody).elim
    | patch id body text hbody => exact (hpatch hbody).elim

end Samples

end Pollard.Rust.Kafka
