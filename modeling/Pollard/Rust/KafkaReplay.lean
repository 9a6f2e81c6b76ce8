import Pollard.Rust.Kafka
import Pollard.Rust.MemorySteps
import Pollard.Rust.Replaying

/-!
# Replaying Kafka logs in Rust

Every log that one writer publishes is replayed, and shows what each of its commands came to when
it was first applied.
-/

namespace Pollard.Rust.Kafka

open Lib Fallible

/-- The commands of some nodes and patches. -/
inductive Sent (lib : Library) (nodes : Node → Prop) (patches : String → Json → Prop) :
    Request → Prop where
  | put (own : Node) (record : Record) (hown : nodes own) (hrecord : own.record lib = .ok record) :
      Sent lib nodes patches (.put record)
  | patch (id : String) (body text : Json) (hbody : patches id body)
      (hspelled : body.spelled lib = .ok text) : Sent lib nodes patches (.patch id text)

def envelope (D : Digests) (storeId : String) (request : Request) : Envelope :=
  ⟨storeId, D.operation request, request, D.request request⟩

/-- Nodes and patches that can be published: they are valid, their texts are read, and neither
ids of nodes nor ids of operations collide. -/
structure Publishable (lib : Library) (D : Digests) (storeId : String) (nodes : Node → Prop)
    (patches : String → Json → Prop) : Prop where
  wellFormed : ∀ {own}, nodes own → own.WellFormed
  valid : ∀ {own}, nodes own → own.validate lib = .ok ()
  payload : ∀ {own}, nodes own → lib.reads own.payload.respelled = true
  metadata : ∀ {own}, nodes own → own.metadata.TextReads lib
  isObject : ∀ {id body}, patches id body → body.isObject = true
  distinct : ∀ {id body}, patches id body → body.distinct = true
  reads : ∀ {id body text}, patches id body → body.spelled lib = .ok text →
    (envelope D storeId (.patch id text)).reads lib = true
  ids : ∀ {a b}, nodes a → nodes b → lib.sha a.idOctets = lib.sha b.idOctets →
    a.idOctets = b.idOctets
  operations : ∀ {a b}, Sent lib nodes patches a → Sent lib nodes patches b →
    D.operation a = D.operation b → a = b

section Replay

variable {lib : Library} {D : Digests} {storeId : String} {nodes : Node → Prop}
  {patches : String → Json → Prop}

theorem Sent.spelled (hlaw : lib.Lawful) {request : Request} (h : Sent lib nodes patches request) :
    request.spelled lib = .ok request := by
  cases h with
  | put => rfl
  | patch id body text _ hspelled =>
      rw [Request.spelled, Json.spelled_idem hlaw hspelled]
      rfl

theorem Sent.event (hlaw : lib.Lawful) {request : Request} (h : Sent lib nodes patches request) :
    event lib D storeId request = .ok (envelope D storeId request) := by
  rw [Kafka.event, h.spelled hlaw]
  rfl

/-! ## What a command comes to -/

/-- What a published command comes to in a store. -/
inductive Performs (lib : Library) (nodes : Node → Prop) (patches : String → Json → Prop)
    (store : MemoryStore) : Request → Except Error MemoryStore → Prop where
  | put (own other : Node) (record : Record) (hown : nodes own)
      (hrecord : own.record lib = .ok record) (hparsed : parseNode lib record = .ok other)
      (hreads : Node.Reads lib own other) (hother : other.Fit lib)
      (hvalid : other.validate lib = .ok ()) :
      Performs lib nodes patches store (.put record) (store.put lib other)
  | patch (id : String) (body text : Json) (hbody : patches id body)
      (hspelled : body.spelled lib = .ok text) (hdistinct : text.distinct = true) :
      Performs lib nodes patches store (.patch id text) (store.updateMeta id text)

theorem exists_performs (hlaw : lib.Lawful) (hp : Publishable lib D storeId nodes patches)
    {request : Request} (h : Sent lib nodes patches request) (store : MemoryStore) :
    ∃ result, request.perform lib store = .ok result ∧
      Performs lib nodes patches store request result := by
  cases h with
  | put own record hown hrecord =>
      have hfit := Node.fit_of_validate (hp.wellFormed hown) (hp.valid hown)
      obtain ⟨other, hstored, hvalid, hother, hreads⟩ :=
        hfit.read hlaw hrecord (hp.payload hown) (hp.metadata hown)
      have hparsed : parseNode lib record = .ok other := by
        rw [parseNode, hstored]
        change (other.validate lib).bind _ = _
        rw [hvalid]
        rfl
      refine ⟨_, ?_, .put own other record hown hrecord hparsed hreads hother hvalid⟩
      rw [Request.perform, hparsed]
      rfl
  | patch id body text hbody hspelled =>
      have hspells := Json.spells_of_spelled hlaw (hp.distinct hbody) hspelled
      refine ⟨_, ?_, .patch id body text hbody hspelled hspells.distinct⟩
      rw [Request.perform, ensure_ok_iff.mpr (hspells.isObject.trans (hp.isObject hbody))]
      rfl

/-! ## Logs and their views -/

/-- A log that one writer published. -/
inductive Published (lib : Library) (D : Digests) (storeId : String) (nodes : Node → Prop)
    (patches : String → Json → Prop) : List Delivered → Prop where
  | nil : Published lib D storeId nodes patches []
  | snoc (log : List Delivered) (request : Request)
      (h : Published lib D storeId nodes patches log) (hsent : Sent lib nodes patches request) :
      Published lib D storeId nodes patches
        (log ++ [⟨log.length, storeId, envelope D storeId request⟩])

/-- A recorded node is one of those published, as it is read back. -/
def Recorded (nodes : Node → Prop) (node : Node) : Prop :=
  ∃ own, nodes own ∧ own.id = node.id ∧ node.parent = own.parent ∧ node.kind = own.kind ∧
    node.attempt = own.attempt ∧ node.payload = own.payload.respelled ∧
    node.resultText = own.resultText

/-- What a view of a log shows. -/
structure View.Shows (lib : Library) (D : Digests) (nodes : Node → Prop)
    (patches : String → Json → Prop) (log : List Delivered) (view : View) : Prop where
  offset : view.nextOffset = log.length
  wellFormed : view.nodes.WellFormed lib
  recorded : ∀ {id node}, view.nodes.nodes.get? id = some node → Recorded nodes node
  known : ∀ {operationId entry}, view.operations.get? operationId = some entry →
    ∃ r ∈ log, r.envelope.operationId = operationId ∧ r.envelope.requestDigest = entry.1
  listed : ∀ {r}, r ∈ log → ∃ entry, view.operations.get? r.envelope.operationId = some entry
  acknowledged : ∀ {record digest offset}, Sent lib nodes patches (.put record) →
    view.operations.get? (D.operation (.put record)) = some (digest, offset, .ok ()) →
    view.nodes.exists? record.id = true

theorem shows_empty : View.empty.Shows lib D nodes patches [] where
  offset := rfl
  wellFormed := MemoryStore.wellFormed_empty
  recorded := nofun
  known := nofun
  listed := nofun
  acknowledged := fun _ h => nomatch h

theorem Published.sent {log : List Delivered} (h : Published lib D storeId nodes patches log) :
    ∀ r ∈ log, Sent lib nodes patches r.envelope.request ∧
      r.envelope = envelope D storeId r.envelope.request := by
  induction h with
  | nil => exact nofun
  | snoc log request h hsent ih =>
      rw [List.forall_mem_append, List.forall_mem_singleton]
      exact ⟨ih, hsent, rfl⟩

theorem Published.of_append {log rest : List Delivered}
    (h : Published lib D storeId nodes patches (log ++ rest)) :
    Published lib D storeId nodes patches log := by
  induction rest using List.reverseRecOn with
  | nil => rwa [List.append_nil] at h
  | append_singleton rest r ih =>
      rw [← List.append_assoc] at h
      generalize hall : log ++ rest ++ [r] = all at h
      cases h with
      | nil => simp at hall
      | snoc older request h _ => exact ih ((List.append_inj' hall rfl).1 ▸ h)

theorem Sent.reads (hp : Publishable lib D storeId nodes patches) {request : Request}
    (h : Sent lib nodes patches request) : (envelope D storeId request).reads lib = true := by
  cases h with
  | put => rfl
  | patch id body text hbody hspelled => exact hp.reads hbody hspelled

/-! ## Applying a record -/

/-- A view after the next record of a log, with the entry of its command. -/
def View.applied (view : View) (D : Digests) (request : Request)
    (result : Except Error MemoryStore) : View where
  nodes := result.toOption.getD view.nodes
  operations := view.operations.set (D.operation request)
    (D.request request, view.nextOffset, result.map fun _ => ())
  nextOffset := view.nextOffset + 1

def View.skipped (view : View) : View := { view with nextOffset := view.nextOffset + 1 }

theorem apply_envelope (hlaw : lib.Lawful) (hp : Publishable lib D storeId nodes patches)
    {request : Request} (hsent : Sent lib nodes patches request) (view : View) :
    view.apply lib D storeId ⟨view.nextOffset, storeId, envelope D storeId request⟩ =
      match view.operations.get? (D.operation request) with
      | some (previous, _) =>
          (ensure (previous = D.request request)
            (.integrity "Kafka operation ID collision")).map fun _ => view.skipped
      | none => (request.perform lib view.nodes).map (view.applied D request) := by
  have hreads : (envelope D storeId request).reads lib = true := hsent.reads hp
  have hevent : event lib D storeId (envelope D storeId request).request =
      .ok (envelope D storeId request) := hsent.event hlaw
  have hstore : (envelope D storeId request).storeId = storeId := rfl
  unfold View.apply
  dsimp only
  rw [ensure_ok_iff.mpr rfl, ensure_ok_iff.mpr rfl, ensure_ok_iff.mpr hreads,
    ensure_ok_iff.mpr hstore, hevent]
  change (ensure _ _).bind _ = _
  rw [ensure_ok_iff.mpr rfl]
  change (match view.operations.get? (D.operation request) with
    | some (previous, _) => _ | none => _) = _
  cases view.operations.get? (D.operation request) with
  | none =>
      cases h : request.perform lib view.nodes with
      | error error =>
          change (request.perform lib view.nodes).bind _ = _
          rw [h]
          rfl
      | ok result =>
          change (request.perform lib view.nodes).bind _ = _
          rw [h]
          rfl
  | some entry =>
      obtain ⟨previous, rest⟩ := entry
      change (ensure (previous = D.request request) (Error.integrity _)).bind _ =
        (ensure (previous = D.request request) (Error.integrity _)).map _
      by_cases h : previous = D.request request
      · rw [ensure_ok_iff.mpr h]
        rfl
      · rw [ensure, if_neg h]
        rfl

/-! ## Views of published logs -/

/-- A command that the view knows changes nothing. -/
theorem View.Shows.skipped {log : List Delivered} {view : View}
    (h : view.Shows lib D nodes patches log) {request : Request}
    {entry : String × ℕ × Except Error Unit}
    (hentry : view.operations.get? (D.operation request) = some entry) :
    view.skipped.Shows lib D nodes patches
      (log ++ [⟨log.length, storeId, envelope D storeId request⟩]) where
  offset := by
    rw [List.length_append, List.length_singleton]
    exact congrArg (· + 1) h.offset
  wellFormed := h.wellFormed
  recorded := h.recorded
  known := by
    intro operationId entry hget
    obtain ⟨r, hr, hrest⟩ := h.known hget
    exact ⟨r, List.mem_append_left _ hr, hrest⟩
  listed := by
    intro r hr
    rcases List.mem_append.mp hr with hr | hr
    · exact h.listed hr
    · rw [List.mem_singleton.mp hr]
      exact ⟨entry, hentry⟩
  acknowledged := h.acknowledged

/-- What is recorded after a put was recorded before or is the node that was put. -/
theorem recorded_of_put {store after : MemoryStore}
    (hrecorded : ∀ {id node}, store.nodes.get? id = some node → Recorded nodes node)
    {own other : Node} (hown : nodes own) (hreads : Node.Reads lib own other)
    (hput : store.put lib other = .ok after) {id : String} {node : Node}
    (hnode : after.nodes.get? id = some node) : Recorded nodes node := by
  obtain ⟨-, -, hputs⟩ := MemoryStore.put_ok_iff.mp hput
  cases hputs with
  | inserted hnew =>
      change (store.nodes.set other.id other).get? id = _ at hnode
      rw [Dict.get?_set] at hnode
      split at hnode
      · obtain rfl := Option.some.inj hnode
        exact ⟨own, hown, hreads.id.symm, hreads.parent, hreads.kind, hreads.attempt,
          hreads.payload, hreads.resultText⟩
      · exact hrecorded hnode
  | same => exact hrecorded hnode
  | conflict existing hget hsame hdiffers conflicts _ =>
      change (store.nodes.set existing.id _).get? id = _ at hnode
      rw [Dict.get?_set] at hnode
      split at hnode
      · obtain rfl := Option.some.inj hnode
        have hold := hrecorded hget
        exact hold
      · exact hrecorded hnode

/-- The nodes that an operation leaves. -/
theorem Performs.kept {store : MemoryStore} (hwell : store.WellFormed lib)
    (hrecorded : ∀ {id node}, store.nodes.get? id = some node → Recorded nodes node)
    {request : Request} {result : Except Error MemoryStore}
    (h : Performs lib nodes patches store request result) {after : MemoryStore}
    (hafter : result = .ok after) :
    after.WellFormed lib ∧
    (∀ {id node}, after.nodes.get? id = some node → Recorded nodes node) ∧
    ∀ id, after.exists? id = true ↔
      store.exists? id = true ∨ ∃ record, request = .put record ∧ record.id = id := by
  cases h with
  | put own other record hown hrecord hparsed hreads hother hvalid =>
      have hid : record.id = other.id := by
        obtain ⟨_, -, hrest⟩ := bind_ok_iff.mp hrecord
        obtain ⟨_, -, hrest⟩ := bind_ok_iff.mp hrest
        cases hrest
        exact hreads.id.symm
      refine ⟨hwell.put hother.toWellFormed hafter,
        fun hnode => recorded_of_put hrecorded hown hreads hafter hnode, fun id => ?_⟩
      have hsame : (∃ found, Request.put record = .put found ∧ found.id = id) ↔ other.id = id := by
        rw [← hid]
        constructor
        · rintro ⟨found, ⟨⟩, hid⟩
          exact hid
        · exact fun h => ⟨record, rfl, h⟩
      rw [hsame]
      obtain ⟨-, -, hputs⟩ := MemoryStore.put_ok_iff.mp hafter
      cases hputs with
      | inserted hnew =>
          change ((store.nodes.set other.id other).get? id).isSome = true ↔ _
          rw [Dict.get?_set]
          split
          · next heq => simp [heq]
          · next heq => exact (or_iff_left heq).symm
      | same existing hget =>
          refine ⟨.inl, fun hor => hor.elim (fun h => h) ?_⟩
          rintro rfl
          exact MemoryStore.exists?_iff.mpr ⟨existing, hget⟩
      | conflict existing hget =>
          change ((store.nodes.set existing.id _).get? id).isSome = true ↔ _
          rw [hwell.keyed hget, Dict.get?_set]
          split
          · next heq => simp [heq]
          · next heq => exact (or_iff_left heq).symm
  | patch id body text hbody hspelled hdistinct =>
      refine ⟨hwell.updateMeta hdistinct hafter, ?_, fun other => ?_⟩
      all_goals obtain ⟨entries, node, rfl, hget, rfl⟩ := MemoryStore.updateMeta_ok_iff.mp hafter
      · intro other found hfound
        change (store.nodes.set node.id _).get? other = _ at hfound
        rw [Dict.get?_set] at hfound
        split at hfound
        · obtain rfl := Option.some.inj hfound
          have hold := hrecorded hget
          exact hold
        · exact hrecorded hfound
      · change ((store.nodes.set node.id _).get? other).isSome = true ↔ _
        rw [hwell.keyed hget, Dict.get?_set]
        split
        · next heq =>
            refine iff_of_true rfl (.inl ?_)
            rw [← heq]
            exact MemoryStore.exists?_iff.mpr ⟨node, hget⟩
        · refine ⟨.inl, fun hor => hor.elim (fun h => h) ?_⟩
          rintro ⟨_, ⟨⟩, -⟩

theorem toOption_getD {result : Except Error MemoryStore} {store : MemoryStore}
    {P : MemoryStore → Prop} (hstore : P store) (hresult : ∀ after, result = .ok after → P after) :
    P (result.toOption.getD store) := by
  cases result with
  | ok after => exact hresult after rfl
  | error => exact hstore

/-- A new command is applied and entered. -/
theorem View.Shows.applied (hp : Publishable lib D storeId nodes patches)
    {log : List Delivered} {view : View} (h : view.Shows lib D nodes patches log)
    {request : Request} (hsent : Sent lib nodes patches request)
    {result : Except Error MemoryStore} (hresult : Performs lib nodes patches view.nodes request result)
    (hnew : view.operations.get? (D.operation request) = none) :
    (view.applied D request result).Shows lib D nodes patches
      (log ++ [⟨log.length, storeId, envelope D storeId request⟩]) where
  offset := by
    rw [List.length_append, List.length_singleton]
    exact congrArg (· + 1) h.offset
  wellFormed := toOption_getD h.wellFormed fun after hafter =>
    (hresult.kept h.wellFormed h.recorded hafter).1
  recorded := @toOption_getD _ _
    (fun store => ∀ {id node}, store.nodes.get? id = some node → Recorded nodes node) h.recorded
    fun after hafter => (hresult.kept h.wellFormed h.recorded hafter).2.1
  known := by
    intro operationId entry hget
    change (view.operations.set _ _).get? operationId = _ at hget
    rw [Dict.get?_set] at hget
    split at hget
    · next heq =>
        rw [← Option.some.inj hget]
        exact ⟨_, List.mem_append_right _ (List.mem_singleton_self _), heq, rfl⟩
    · obtain ⟨r, hr, hrest⟩ := h.known hget
      exact ⟨r, List.mem_append_left _ hr, hrest⟩
  listed := by
    intro r hr
    change ∃ entry, (view.operations.set _ _).get? _ = _
    rw [Dict.get?_set]
    split
    · exact ⟨_, rfl⟩
    · next hne =>
        rcases List.mem_append.mp hr with hr | hr
        · exact h.listed hr
        · rw [List.mem_singleton.mp hr] at hne
          exact absurd rfl hne
  acknowledged := by
    intro record digest offset hrecord hget
    change (view.operations.set _ _).get? _ = _ at hget
    change (result.toOption.getD view.nodes).exists? record.id = true
    rw [Dict.get?_set] at hget
    split at hget
    · next heq =>
        obtain rfl := hp.operations hsent hrecord heq
        cases result with
        | error error => cases hget
        | ok after =>
            have hkept := (hresult.kept h.wellFormed h.recorded rfl).2.2
            exact (hkept record.id).mpr (.inr ⟨record, rfl, rfl⟩)
    · have hold := h.acknowledged hrecord hget
      exact toOption_getD hold fun after hafter =>
        ((hresult.kept h.wellFormed h.recorded hafter).2.2 record.id).mpr (.inl hold)

theorem apply_published (hlaw : lib.Lawful) (hp : Publishable lib D storeId nodes patches)
    {log : List Delivered} (hpub : Published lib D storeId nodes patches log) {view : View}
    (h : view.Shows lib D nodes patches log) {request : Request}
    (hsent : Sent lib nodes patches request) :
    ∃ after, view.apply lib D storeId ⟨log.length, storeId, envelope D storeId request⟩ =
        .ok after ∧
      after.Shows lib D nodes patches
        (log ++ [⟨log.length, storeId, envelope D storeId request⟩]) ∧
      ((∃ entry, view.operations.get? (D.operation request) = some entry ∧ after = view.skipped) ∨
        view.operations.get? (D.operation request) = none ∧
        ∃ result, Performs lib nodes patches view.nodes request result ∧
          after = view.applied D request result) := by
  have happly := @apply_envelope lib D storeId nodes patches hlaw hp request hsent view
  rw [h.offset] at happly
  rw [happly]
  cases hentry : view.operations.get? (D.operation request) with
  | none =>
      obtain ⟨result, hperform, hresult⟩ := exists_performs hlaw hp hsent view.nodes
      refine ⟨view.applied D request result, ?_, h.applied hp hsent hresult hentry,
        .inr ⟨rfl, result, hresult, rfl⟩⟩
      change (request.perform lib view.nodes).map _ = _
      rw [hperform]
      rfl
  | some entry =>
      obtain ⟨r, hr, hid, hdigest⟩ := h.known hentry
      obtain ⟨hrsent, henvelope⟩ := hpub.sent r hr
      have hrequest : r.envelope.request = request := by
        refine hp.operations hrsent hsent ?_
        rw [← hid, henvelope]
        rfl
      have hprevious : entry.1 = D.request request := by
        rw [← hdigest, henvelope, hrequest]
        rfl
      refine ⟨view.skipped, ?_, h.skipped hentry, .inl ⟨entry, rfl, rfl⟩⟩
      change (ensure (entry.1 = D.request request) _).map _ = _
      rw [ensure_ok_iff.mpr hprevious]
      rfl

theorem replay_snoc (log : List Delivered) (r : Delivered) :
    replay lib D storeId (log ++ [r]) =
      (replay lib D storeId log).bind fun view => view.apply lib D storeId r := by
  rw [replay, List.foldlM_append]
  change Except.bind _ _ = Except.bind _ _
  congr 1
  funext view
  change (view.apply lib D storeId r).bind _ = _
  cases view.apply lib D storeId r <;> rfl

/-- Every published log is replayed. -/
theorem exists_replay (hlaw : lib.Lawful) (hp : Publishable lib D storeId nodes patches)
    {log : List Delivered} (h : Published lib D storeId nodes patches log) :
    ∃ view, replay lib D storeId log = .ok view ∧ view.Shows lib D nodes patches log := by
  induction h with
  | nil => exact ⟨.empty, rfl, shows_empty⟩
  | snoc log request hpub hsent ih =>
      obtain ⟨view, hview, hshows⟩ := ih
      obtain ⟨after, happly, hafter, -⟩ := apply_published hlaw hp hpub hshows hsent
      refine ⟨after, ?_, hafter⟩
      rw [replay_snoc, hview]
      exact happly

/-! ## What a command came to -/

/-- The log before a command was first appended. -/
def beforeRequest (request : Request) (log : List Delivered) : List Delivered :=
  log.takeWhile fun r => r.envelope.request ≠ request

theorem beforeRequest_of_mem {request : Request} {log : List Delivered}
    (h : ∃ r ∈ log, r.envelope.request = request) (rest : List Delivered) :
    beforeRequest request (log ++ rest) = beforeRequest request log := by
  rw [beforeRequest, beforeRequest, List.takeWhile_append, if_neg]
  intro hlength
  obtain ⟨r, hr, heq⟩ := h
  rw [(List.takeWhile_prefix _).eq_of_length hlength |>.symm] at hr
  have hne := List.all_eq_true.mp List.all_takeWhile r hr
  simp [heq] at hne

theorem beforeRequest_of_not_mem {request : Request} {log : List Delivered}
    (h : ∀ r ∈ log, r.envelope.request ≠ request) (rest : List Delivered) :
    beforeRequest request (log ++ rest) = log ++ beforeRequest request rest :=
  List.takeWhile_append_of_pos fun r hr => by simpa using h r hr

/-- A view that does not know a command is of a log without it. -/
theorem View.Shows.not_mem {log : List Delivered}
    (hpub : Published lib D storeId nodes patches log) {view : View}
    (h : view.Shows lib D nodes patches log) {request : Request}
    (hnew : view.operations.get? (D.operation request) = none) :
    ∀ r ∈ log, r.envelope.request ≠ request := by
  rintro r hr rfl
  obtain ⟨entry, hentry⟩ := h.listed hr
  rw [(hpub.sent r hr).2] at hentry
  change view.operations.get? (D.operation r.envelope.request) = _ at hentry
  rw [hnew] at hentry
  cases hentry

theorem View.Shows.exists_mem (hp : Publishable lib D storeId nodes patches)
    {log : List Delivered} (hpub : Published lib D storeId nodes patches log) {view : View}
    (h : view.Shows lib D nodes patches log) {request : Request}
    (hsent : Sent lib nodes patches request) {entry : String × ℕ × Except Error Unit}
    (hentry : view.operations.get? (D.operation request) = some entry) :
    ∃ r ∈ log, r.envelope.request = request := by
  obtain ⟨r, hr, hid, -⟩ := h.known hentry
  obtain ⟨hrsent, henvelope⟩ := hpub.sent r hr
  rw [henvelope] at hid
  exact ⟨r, hr, hp.operations hrsent hsent hid⟩

/-- A command came to what it comes to in the log before it. -/
theorem entry_first (hlaw : lib.Lawful) (hp : Publishable lib D storeId nodes patches)
    {log : List Delivered} (hpub : Published lib D storeId nodes patches log) {view : View}
    (hview : replay lib D storeId log = .ok view) {request : Request}
    (hsent : Sent lib nodes patches request) {entry : String × ℕ × Except Error Unit}
    (hentry : view.operations.get? (D.operation request) = some entry) :
    ∃ before result, replay lib D storeId (beforeRequest request log) = .ok before ∧
      Performs lib nodes patches before.nodes request result ∧
      entry.2.2 = result.map fun _ => () := by
  induction hpub generalizing view with
  | nil =>
      cases hview
      cases hentry
  | snoc log other hlog hother ih =>
      obtain ⟨old, hold, hshows⟩ := exists_replay hlaw hp hlog
      rw [replay_snoc, hold] at hview
      obtain ⟨after, happly, -, hcases⟩ := apply_published hlaw hp hlog hshows hother
      obtain rfl : after = view := Except.ok.inj (happly.symm.trans hview)
      have hstep (hknown : old.operations.get? (D.operation request) = some entry) :
          ∃ before result, replay lib D storeId (beforeRequest request
              (log ++ [⟨log.length, storeId, envelope D storeId other⟩])) = .ok before ∧
            Performs lib nodes patches before.nodes request result ∧
            entry.2.2 = result.map fun _ => () := by
        rw [beforeRequest_of_mem (hshows.exists_mem hp hlog hsent hknown)]
        exact ih hold hknown
      rcases hcases with ⟨_, -, rfl⟩ | ⟨hnew, result, hresult, rfl⟩
      · exact hstep hentry
      · change (old.operations.set _ _).get? _ = _ at hentry
        rw [Dict.get?_set] at hentry
        split at hentry
        · next heq =>
            obtain rfl := hp.operations hother hsent heq
            refine ⟨old, result, ?_, hresult, congrArg (fun e => e.2.2) (Option.some.inj hentry).symm⟩
            rw [beforeRequest_of_not_mem (hshows.not_mem hlog hnew)]
            have hstop : beforeRequest other [⟨log.length, storeId, envelope D storeId other⟩] = [] :=
              List.takeWhile_cons_of_neg (by simp [envelope])
            rw [hstop, List.append_nil, hold]
        · exact hstep hentry

/-- A store that a put can extend. -/
def Admits (store : MemoryStore) (own : Node) : Prop :=
  (∀ parent, own.parent = some parent → store.exists? parent = true) ∧
  ∀ existing, store.nodes.get? own.id = some existing → existing.differs own = true →
    existing.conflicts.isSome = true

theorem respelled_of_sameJson {a b : Json} (h : Value.SameJson a.toValue b.toValue) :
    a.respelled = b.respelled := congrArg Value.toRust h

/-- A recorded node has the identity of each node of its id. -/
theorem Recorded.sameIdentity (hp : Publishable lib D storeId nodes patches)
    {existing own other : Node} (h : Recorded nodes existing) (hown : nodes own)
    (hid : existing.id = own.id) (hreads : Node.Reads lib own other) (hother : other.Fit lib) :
    existing.sameIdentity other = true := by
  obtain ⟨first, hfirst, hfirstId, hparent, hkind, hattempt, hpayload, -⟩ := h
  obtain ⟨hparent', hkind', hattempt', hpayload'⟩ := Node.same_of_id
    (hp.wellFormed hfirst).payload (hp.wellFormed hown).payload (hp.valid hfirst) (hp.valid hown)
    (hfirstId.trans hid) (hp.ids hfirst hown)
  refine MemoryStore.sameIdentity_iff.mpr ⟨?_, ?_, ?_, ?_⟩
  · rw [hparent, hparent', hreads.parent]
  · rw [hkind, hkind', hreads.kind]
  · rw [hattempt, hattempt', hreads.attempt]
  · rw [hpayload, respelled_of_sameJson hpayload', ← hreads.payload]
    exact Json.equal_refl hother.payload hother.identity

/-- A put of a published node succeeds exactly in a store that admits it. -/
theorem put_ok_iff_admits (hp : Publishable lib D storeId nodes patches) {store : MemoryStore}
    (hwell : store.WellFormed lib)
    (hrecorded : ∀ {id node}, store.nodes.get? id = some node → Recorded nodes node)
    {own other : Node} (hown : nodes own) (hreads : Node.Reads lib own other)
    (hother : other.Fit lib) (hvalid : other.validate lib = .ok ()) :
    (∃ after, store.put lib other = .ok after) ↔ Admits store own := by
  have hdiffers (existing : Node) : existing.differs other = existing.differs own := by
    simp only [Node.differs, hreads.resultText]
  rw [Admits, ← hreads.parent, ← hreads.id]
  constructor
  · rintro ⟨after, hafter⟩
    obtain ⟨-, hparent, hputs⟩ := MemoryStore.put_ok_iff.mp hafter
    refine ⟨hparent, fun existing hget hdiff => ?_⟩
    rw [← hdiffers] at hdiff
    cases hputs with
    | inserted hnew =>
        rw [hnew] at hget
        cases hget
    | same found hfound _ hsame =>
        rw [hfound] at hget
        rw [← Option.some.inj hget, hsame] at hdiff
        cases hdiff
    | conflict found hfound _ _ conflicts hconflicts =>
        rw [hfound] at hget
        rw [← Option.some.inj hget, hconflicts]
        rfl
  · rintro ⟨hparent, hconflicts⟩
    have hput {after : MemoryStore} (h : store.Puts other after) : ∃ after,
        store.put lib other = .ok after :=
      ⟨after, MemoryStore.put_ok_iff.mpr ⟨hvalid, hparent, h⟩⟩
    cases hget : store.nodes.get? other.id with
    | none => exact hput (.inserted hget)
    | some existing =>
        have hsame := (hrecorded hget).sameIdentity hp hown
          ((hwell.keyed hget).trans hreads.id) hreads hother
        cases hdiff : existing.differs other with
        | false => exact hput (.same existing hget hsame hdiff)
        | true =>
            obtain ⟨conflicts, hsome⟩ := Option.isSome_iff_exists.mp
              (hconflicts existing hget (hdiffers existing ▸ hdiff))
            exact hput (.conflict existing hget hsame hdiff conflicts hsome)

end Replay

end Pollard.Rust.Kafka
