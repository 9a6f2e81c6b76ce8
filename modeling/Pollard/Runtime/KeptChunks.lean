import Pollard.Runtime.SharedMerge
import Pollard.Runtime.Stream

/-!
# Chunks that are kept

With `keep_chunks` the chunks of a stream are stored beside the result they are merged
into.  A kept chunk is a shallow copy of what the stream yielded, and the result takes
its nested containers over, so a chunk may change when a later one is merged.  Each item
of a stream is made of containers of its own.
-/

namespace Pollard

open Lib Heap

/-! ## Consuming a stream -/

/-- A stream that is being consumed: the kept chunks and the result, by their addresses. -/
structure Consuming where
  heap : Heap
  chunks : List ℕ
  result : ℕ

namespace Consuming

def start : Consuming :=
  let (result, heap) := Heap.empty.alloc (.dict [])
  ⟨heap, [], result⟩

/-- An item is copied, kept and delivered. -/
def receive (s : Consuming) (item : Value) :
    Except PyError (Consuming × List (String × Ref)) :=
  let (ref, heap) := s.heap.build item
  match heap.dict? ref with
  | some entries =>
      let (chunk, heap) := heap.alloc (.dict entries)
      .ok (⟨heap, s.chunks ++ [chunk], s.result⟩, entries)
  | none => .error (.typeError "stream chunks must be dicts")

/-- `chunk.get(key)`, where `None` is as good as nothing. -/
def chunkRef (chunk : List (String × Ref)) (key : String) : Option Ref :=
  (Assoc.lookup chunk key).filter fun ref => ref ≠ .scalar ⟨.none, Value.isContainer_none⟩

def merge (s : Consuming) (depth : ℕ) (delta : List (String × Ref)) : Except PyError Consuming :=
  match mergeStreamValue depth s.heap s.result delta with
  | some heap => .ok { s with heap }
  | none => .error (.runtimeError "maximum recursion depth exceeded")

/-- A complete result replaces the one so far.  A `Run` goes on with a copy, an `AsyncRun`
empties the dictionary and fills it again. -/
def adopt (flavor : Flavor) (s : Consuming) (complete : List (String × Ref)) : Consuming :=
  match flavor with
  | .sync =>
      let (result, heap) := s.heap.alloc (.dict complete)
      { s with heap, result }
  | .async => { s with heap := s.heap.write s.result (.dict complete) }

/-- What becomes of the result when a chunk was delivered. -/
def take (flavor : Flavor) (s : Consuming) (depth : ℕ) (chunk : List (String × Ref)) :
    Except PyError Consuming :=
  match chunkRef chunk "result", chunkRef chunk "delta" with
  | some complete, _ =>
      match s.heap.dict? complete with
      | some complete => .ok (s.adopt flavor complete)
      | none => .error (.typeError "a stream chunk result must be a dict")
  | none, some delta =>
      match s.heap.dict? delta with
      | some delta => s.merge depth delta
      | none => .error (.typeError "a stream chunk delta must be a dict")
  | none, none => s.merge depth chunk

/-- The body of the loop of `_consume_step_result` and of `_aconsume_chunk`. -/
def consumeItem (flavor : Flavor) (s : Consuming) (item : Value) : Except PyError Consuming := do
  let (s, chunk) ← s.receive item
  s.take flavor (item.height + 1) chunk

/-- The loop over a stream. -/
def consumeItems (flavor : Flavor) (s : Consuming) (items : List Value) :
    Except PyError Consuming :=
  items.foldlM (consumeItem flavor) s

/-- `result["chunks"] = chunks` -/
def keepChunks (s : Consuming) : Heap :=
  let (chunks, heap) := s.heap.alloc (.list (s.chunks.map .address))
  match heap.dict? (.address s.result) with
  | some fields => heap.setEntry s.result fields "chunks" (.address chunks)
  | none => heap

end Consuming

/-- `_reemit_chunks` -/
def reemittedChunks (result : Value) : List Value :=
  match result.get? "chunks" with
  | some (.list chunks) => chunks.filter Value.isDict
  | _ => []

/-! ## What is asked of it -/

/-- A reference reads as a value. -/
def Reads (h : Heap) (value : Value) (ref : Ref) : Prop := Spells h (fun _ => True) value ref

/-- The chunks that are stored, and emitted again by a replay, are the ones that were
delivered, and merging one leaves those kept before as they were. -/
structure KeptAsDelivered (flavor : Flavor) (items : List Value) : Prop where
  stored : ∀ s, Consuming.start.consumeItems flavor items = .ok s →
    ∃ result, Reads s.keepChunks result (.address s.result) ∧
      result.get? "chunks" = some (.list items) ∧ reemittedChunks result = items
  unaltered : ∀ before item after, items = before ++ item :: after → ∀ s s',
    Consuming.start.consumeItems flavor before = .ok s → s.consumeItem flavor item = .ok s' →
      ∀ chunk ∈ s.chunks, ∀ value, Reads s.heap value (.address chunk) →
        Reads s'.heap value (.address chunk)

/-- The entries of a chunk that are merged into the result. -/
def mergedPart : Value → Option (List (String × Value))
  | .dict chunk =>
      match chunkField chunk "result", chunkField chunk "delta" with
      | none, some (.dict delta) => some delta
      | none, none => some chunk
      | _, _ => none
  | _ => none

/-- Each nested dictionary that a chunk brings to a nested dictionary of the result so far
adds nothing to it. -/
def AddsNothing (result : List (String × Value)) (item : Value) : Prop :=
  ∀ delta, mergedPart item = some delta → ∀ key current value,
    Assoc.lookup result key = some (.dict current) →
      Assoc.lookup delta key = some (.dict value) →
        Value.mergeStreamValue current value = current

/-- No chunk of a stream adds to a nested dictionary of the result that the chunks before
it make. -/
def AddsNothingNested (items : List Value) : Prop :=
  ∀ before item after, items = before ++ item :: after → ∀ result,
    consumeChunks none none 0 before [] = .ok result → AddsNothing result item

/-! ## Where the containers of the result come from -/

/-- From one container another is reached under keys, through dictionaries of a kind. -/
inductive Leads (h : Heap) (passed : ℕ → Prop) : ℕ → ℕ → Prop where
  | entry {a c : ℕ} {fields : List (String × Ref)} {key : String} (ha : passed a)
      (hcell : h.cell? a = some (.dict fields))
      (hkey : Assoc.lookup fields key = some (.address c)) : Leads h passed a c
  | step {a b c : ℕ} {fields : List (String × Ref)} {key : String} (ha : passed a)
      (hcell : h.cell? a = some (.dict fields))
      (hkey : Assoc.lookup fields key = some (.address b)) (hrest : Leads h passed b c) :
      Leads h passed a c

theorem Leads.mono {h h' : Heap} {passed passed' : ℕ → Prop} {a c : ℕ}
    (hleads : Leads h passed a c)
    (hkeep : ∀ a < h.size, passed a → passed' a ∧ h'.cell? a = h.cell? a) :
    Leads h' passed' a c := by
  induction hleads with
  | entry ha hcell hkey =>
      obtain ⟨ha', hsame⟩ := hkeep _ (lt_size_of_cell? hcell) ha
      exact .entry ha' (hsame.trans hcell) hkey
  | step ha hcell hkey _ ih =>
      obtain ⟨ha', hsame⟩ := hkeep _ (lt_size_of_cell? hcell) ha
      exact .step ha' (hsame.trans hcell) hkey ih

/-- What is reached reads the same wherever the start does and the way is the same. -/
theorem Leads.reads {h : Heap} {passed : ℕ → Prop} {a c : ℕ} (hleads : Leads h passed a c) :
    ∀ {value : Value}, Reads h value (.address a) → ∃ inner, Reads h inner (.address c) ∧
      ∀ h' : Heap, (∀ b, passed b → b < h.size → h'.cell? b = h.cell? b) →
        Reads h' value (.address a) → Reads h' inner (.address c) := by
  have hentry : ∀ {a b : ℕ} {fields : List (String × Ref)} {key : String} {value : Value},
      passed a → h.cell? a = some (.dict fields) →
      Assoc.lookup fields key = some (.address b) → Reads h value (.address a) →
        ∃ inner, Reads h inner (.address b) ∧
          ∀ h' : Heap, (∀ b, passed b → b < h.size → h'.cell? b = h.cell? b) →
            Reads h' value (.address a) → Reads h' inner (.address b) := by
    intro a b fields key value ha hcell hkey hreads
    cases value with
    | dict entries =>
        have hspells := hreads.entries_of_cell hcell
        rcases hspells.lookup key with ⟨-, hnone⟩ | ⟨inner, ref, hinner, href, hread⟩
        · rw [hkey] at hnone
          cases hnone
        · rw [hkey] at href
          cases href
          refine ⟨inner, hread, fun h' hsame hreads' => ?_⟩
          have hcell' : h'.cell? a = some (.dict fields) :=
            (hsame a ha (lt_size_of_cell? hcell)).trans hcell
          exact (hreads'.entries_of_cell hcell').at hinner hkey
    | list items =>
        obtain ⟨_, _, heq, -, hlist, -⟩ := hreads
        cases heq
        rw [hcell] at hlist
        cases hlist
    | _ =>
        obtain ⟨_, heq⟩ := hreads
        cases heq
  induction hleads with
  | entry ha hcell hkey => exact hentry ha hcell hkey
  | step ha hcell hkey _ ih =>
      intro value hreads
      obtain ⟨inner, hinner, hkeep⟩ := hentry ha hcell hkey hreads
      obtain ⟨last, hlast, hkeep'⟩ := ih hinner
      exact ⟨last, hlast, fun h' hsame hreads' => hkeep' h' hsame (hkeep h' hsame hreads')⟩

/-- The entries of a chunk, or of a dictionary in it, that are about to be taken over. -/
structure Source (h : Heap) (old : ℕ) (chunk : ℕ) (entries : List (String × Value))
    (refs : List (String × Ref)) (given : Finset ℕ) : Prop where
  owns : OwnsEntries h entries refs given
  new : ∀ a ∈ given, old ≤ a
  leads : ∀ key c, Assoc.lookup refs key = some (.address c) →
    Leads h (fun a => a ∉ given ∧ old ≤ a) chunk c

/-- The result so far, by what it reads as.  Each nested dictionary it holds is reached from
a kept chunk without passing what the result owns. -/
structure Tracks (s : Consuming) (result : List (String × Value)) (fields : List (String × Ref))
    (inner : Finset ℕ) : Prop where
  holding : Holding s.heap s.result result fields inner
  leads : ∀ key current c, Assoc.lookup result key = some (.dict current) →
    Assoc.lookup fields key = some (.address c) →
      ∃ chunk ∈ s.chunks, Leads s.heap (fun a => a ∉ insert s.result inner) chunk c

/-- An item that was received. -/
structure Received (s : Consuming) (entries : List (String × Value)) (s' : Consuming)
    (refs : List (String × Ref)) (chunk : ℕ) (given : Finset ℕ) : Prop where
  chunks : s'.chunks = s.chunks ++ [chunk]
  result : s'.result = s.result
  frame : Frame s.heap ∅ s'.heap
  cell : s'.heap.cell? chunk = some (.dict refs)
  owns : OwnsEntries s'.heap entries refs given
  new : ∀ a ∈ insert chunk given, s.heap.size ≤ a
  apart : chunk ∉ given

theorem Consuming.receive_dict (s : Consuming) (entries : List (String × Value)) :
    ∃ s' refs chunk given, s.receive (.dict entries) = .ok (s', refs) ∧
      Received s entries s' refs chunk given := by
  obtain ⟨owned, howns, hnew, hframe⟩ := build_owns (.dict entries) s.heap
  obtain ⟨a, refs, given, href, hcell, hnot, rfl, hentries⟩ := howns
  have hdict : (s.heap.build (.dict entries)).2.dict? (s.heap.build (.dict entries)).1 =
      some refs := dict?_eq_some_iff.mpr ⟨a, href, hcell⟩
  let built := (s.heap.build (.dict entries)).2
  refine ⟨⟨(built.alloc (.dict refs)).2, s.chunks ++ [built.size], s.result⟩, refs, built.size,
    given, ?_, ?_⟩
  · unfold receive
    simp only [hdict]
    rfl
  · rw [Finset.forall_mem_insert] at hnew
    refine ⟨rfl, rfl, hframe.trans (Frame.alloc _ _ ∅) fun _ ha _ => ha, cell?_alloc_self _ _,
      (Frame.alloc _ _ ∅).mono_ownsEntries hentries (Finset.disjoint_empty_right _), ?_,
      not_mem_of_lt fun _ => hentries.lt_size⟩
    rw [Finset.forall_mem_insert]
    exact ⟨hframe.grown, hnew.2⟩

theorem dict?_eq_none {h : Heap} {value : Value} {ref : Ref} (hreads : Reads h value ref)
    (hdict : value.isDict = false) : h.dict? ref = none := by
  cases hfound : h.dict? ref with
  | none => rfl
  | some fields =>
      obtain ⟨a, rfl, hcell⟩ := dict?_eq_some_iff.mp hfound
      cases value with
      | dict entries => cases hdict
      | list items =>
          obtain ⟨_, _, heq, -, hlist, -⟩ := hreads
          cases heq
          rw [hcell] at hlist
          cases hlist
      | _ =>
          obtain ⟨_, heq⟩ := hreads
          cases heq

theorem Consuming.receive_other (s : Consuming) {item : Value} (h : item.isDict = false) :
    s.receive item = .error (.typeError "stream chunks must be dicts") := by
  obtain ⟨owned, howns, -⟩ := build_owns item s.heap
  unfold receive
  simp only [dict?_eq_none (howns.spells fun _ _ => trivial) h]

section Received

variable {s s' : Consuming} {entries : List (String × Value)} {refs : List (String × Ref)}
  {chunk : ℕ} {given : Finset ℕ}

/-- A chunk without `result` and `delta` is taken over as a whole. -/
theorem Received.whole (h : Received s entries s' refs chunk given) :
    Source s'.heap s.heap.size chunk entries refs given where
  owns := h.owns
  new a ha := h.new a (Finset.mem_insert_of_mem ha)
  leads _ _ hkey := .entry ⟨h.apart, h.new chunk (Finset.mem_insert_self _ _)⟩ h.cell hkey

/-- What a chunk holds under `result` or `delta`. -/
theorem Received.chunkRef (h : Received s entries s' refs chunk given) (key : String) :
    (chunkField entries key = none ∧ Consuming.chunkRef refs key = none) ∨
      ∃ value ref, chunkField entries key = some value ∧
        Consuming.chunkRef refs key = some ref ∧ Assoc.lookup entries key = some value ∧
        Assoc.lookup refs key = some ref ∧
        ∃ owned ⊆ given, Owns s'.heap value ref owned := by
  obtain ⟨owned, hpart, hlookup, -⟩ := h.owns.part key
  unfold chunkField Consuming.chunkRef
  rcases hlookup with ⟨hvalue, href⟩ | ⟨value, ref, hvalue, href, howns⟩
  · rw [hvalue, href]
    exact .inl ⟨rfl, rfl⟩
  · rw [hvalue, href]
    by_cases hnone : value = .none
    · have hnull : ref = .scalar ⟨.none, Value.isContainer_none⟩ := by
        subst hnone
        exact ((owns_scalar rfl).mp howns).2
      left
      rw [hnone, hnull]
      exact ⟨rfl, rfl⟩
    · have hnot : ref ≠ .scalar ⟨.none, Value.isContainer_none⟩ := by
        rintro rfl
        have hread : Reads s'.heap value (.scalar ⟨.none, Value.isContainer_none⟩) := howns.spells fun _ _ => trivial
        exact hnone (spells_of_scalar hread)
      refine .inr ⟨value, ref, ?_, ?_, rfl, rfl, owned, hpart, howns⟩
      · simp [Option.filter, hnone]
      · simp [Option.filter, hnot]

/-- A dictionary under `result` or `delta` is taken over without the chunk. -/
theorem Received.field (h : Received s entries s' refs chunk given) {key : String} {a : ℕ}
    {fields : List (String × Value)} {cells : List (String × Ref)} {owned : Finset ℕ}
    (href : Assoc.lookup refs key = some (.address a)) (hpart : owned ⊆ given)
    (howns : Owns s'.heap (.dict fields) (.address a) owned)
    (hcell : s'.heap.cell? a = some (.dict cells)) :
    ∃ inner, Source s'.heap s.heap.size chunk fields cells inner := by
  obtain ⟨inner, rfl, hold⟩ := howns.holding hcell
  have hin : ∀ b ∈ insert a inner, b ∈ given := fun b hb => hpart hb
  refine ⟨inner, hold.owns, fun b hb =>
    h.new b (Finset.mem_insert_of_mem (hin b (Finset.mem_insert_of_mem hb))), fun k c hkey => ?_⟩
  refine .step ⟨fun hmem => h.apart (hin chunk (Finset.mem_insert_of_mem hmem)),
    h.new chunk (Finset.mem_insert_self _ _)⟩ h.cell href (.entry ⟨hold.apart, ?_⟩ hcell hkey)
  exact h.new a (Finset.mem_insert_of_mem (hin a (Finset.mem_insert_self _ _)))

end Received

/-! ## What happens to the result -/

/-- The kept chunks read on as they did, whoever owns the result. -/
structure KeepsChunks (s s' : Consuming) : Prop where
  chunks : s'.chunks = s.chunks
  spells : ∀ value ref, Spells s.heap (· ≠ s.result) value ref →
    Spells s'.heap (· ≠ s'.result) value ref

theorem Source.adopt {s : Consuming} {old chunk : ℕ} {entries : List (String × Value)}
    {refs : List (String × Ref)} {given : Finset ℕ}
    (hsource : Source s.heap old chunk entries refs given) (hchunk : chunk ∈ s.chunks)
    (hresult : s.result < old) (hold : old ≤ s.heap.size) (flavor : Flavor) :
    Tracks (s.adopt flavor refs) entries refs given ∧ KeepsChunks s (s.adopt flavor refs) := by
  have hlt : s.result < s.heap.size := hresult.trans_le hold
  have hapart : s.result ∉ given := fun hmem => absurd (hsource.new _ hmem) (not_le.mpr hresult)
  cases flavor with
  | sync =>
      refine ⟨⟨⟨cell?_alloc_self _ _, ?_, not_mem_of_lt fun _ => hsource.owns.lt_size⟩, ?_⟩, rfl, ?_⟩
      · exact (Frame.alloc _ _ ∅).mono_ownsEntries hsource.owns (Finset.disjoint_empty_right _)
      · intro key current c _ hkey
        refine ⟨chunk, hchunk, (hsource.leads key c hkey).mono fun a ha hpassed => ⟨?_, ?_⟩⟩
        · rw [Finset.mem_insert, not_or]
          exact ⟨ha.ne, hpassed.1⟩
        · exact cell?_alloc_of_lt _ ha
      · intro value ref hspells
        refine hspells.mono (fun a cell _ hcell => ⟨?_, ?_⟩) value
        · exact (lt_size_of_cell? hcell).ne
        · exact (cell?_alloc_of_lt _ (lt_size_of_cell? hcell)).trans hcell
  | async =>
      refine ⟨⟨⟨cell?_write_self hlt, ?_, hapart⟩, ?_⟩, rfl, ?_⟩
      · exact (Frame.write _ _ _).mono_ownsEntries hsource.owns
          (Finset.disjoint_singleton_right.mpr hapart)
      · intro key current c _ hkey
        refine ⟨chunk, hchunk, (hsource.leads key c hkey).mono fun a _ hpassed => ?_⟩
        have hne : a ≠ s.result := (hresult.trans_le hpassed.2).ne'
        exact ⟨by rw [Finset.mem_insert, not_or]; exact ⟨hne, hpassed.1⟩,
          cell?_write_of_ne hne⟩
      · intro value ref hspells
        exact hspells.mono (fun a cell ha hcell => ⟨ha, (cell?_write_of_ne ha).trans hcell⟩) value

theorem Value.isDict_or (value : Value) :
    (∃ entries, value = .dict entries) ∨ value.isDict = false := by
  cases value with
  | dict entries => exact .inl ⟨entries, rfl⟩
  | _ => exact .inr rfl

theorem Value.dict_of_mergeInto {current : Option Value} {value : Value}
    {entries : List (String × Value)} (h : Value.mergeInto current value = .dict entries) :
    ∃ w, value = .dict w := by
  cases value with
  | dict w => exact ⟨w, rfl⟩
  | list items =>
      cases current with
      | none => cases h
      | some current => cases current <;> cases h
  | _ =>
      cases current with
      | none => cases h
      | some current =>
          rw [Value.mergeInto_scalar current rfl] at h
          cases current <;> cases h

section Merge

variable {s s₁ : Consuming} {result delta : List (String × Value)}
  {fields refs : List (String × Ref)} {inner given : Finset ℕ} {chunk : ℕ}

/-- What merging a part of a chunk into the result does. -/
structure MergedResult (s s₁ : Consuming) (result delta : List (String × Value))
    (fields refs : List (String × Ref)) (inner given : Finset ℕ) (s' : Consuming)
    (fields' : List (String × Ref)) (inner' : Finset ℕ) : Prop where
  sameChunks : s'.chunks = s₁.chunks
  samePlace : s'.result = s₁.result
  merged : Merged s₁.heap s₁.result result fields inner delta refs given s'.heap fields' inner'
  tracks : Tracks s' (Value.mergeStreamValue result delta) fields' inner'

theorem Tracks.holding_grown (htracks : Tracks s result fields inner)
    (hresult : s₁.result = s.result) (hframe : Frame s.heap ∅ s₁.heap) :
    Holding s₁.heap s₁.result result fields inner := by
  rw [hresult]
  exact ⟨(hframe.same _ (lt_size_of_cell? htracks.holding.cell) (Finset.notMem_empty _)).trans
    htracks.holding.cell,
    hframe.mono_ownsEntries htracks.holding.owns (Finset.disjoint_empty_right _),
    htracks.holding.apart⟩

theorem Tracks.merge (htracks : Tracks s result fields inner) (hresult : s₁.result = s.result)
    (hchunks : ∀ c ∈ s.chunks, c ∈ s₁.chunks) (hframe : Frame s.heap ∅ s₁.heap)
    (hsource : Source s₁.heap s.heap.size chunk delta refs given) (hchunk : chunk ∈ s₁.chunks)
    (hnodup : (Assoc.keys delta).Nodup) {depth : ℕ}
    (hdepth : Value.heightEntries delta < depth) :
    ∃ s' fields' inner', s₁.merge depth refs = .ok s' ∧
      MergedResult s s₁ result delta fields refs inner given s' fields' inner' := by
  have hlt : s.result < s.heap.size := lt_size_of_cell? htracks.holding.cell
  have hinner : ∀ a ∈ inner, a < s.heap.size := fun _ => htracks.holding.owns.lt_size
  have hold := htracks.holding_grown hresult hframe
  have htarget : s₁.result ∉ given := fun hmem =>
    absurd (hresult ▸ hsource.new _ hmem) (not_le.mpr hlt)
  have hdisj : Disjoint inner given := Finset.disjoint_left.mpr fun a ha ha' =>
    absurd (hinner a ha) (not_lt.mpr (hsource.new a ha'))
  obtain ⟨h', fields', inner', hcall, hmerged⟩ :=
    mergeStreamValue_owns depth hdepth hold hsource.owns hdisj htarget
  refine ⟨⟨h', s₁.chunks, s₁.result⟩, fields', inner', ?_, rfl, rfl, hmerged, hmerged.holding, ?_⟩
  · rw [Consuming.merge, hcall]
  · -- what was reached before still is, and what is new is reached from the new chunk
    have hsame : ∀ a < s₁.heap.size, a ∉ insert s.result inner → a ∉ given →
        a ∉ insert s₁.result inner' ∧ h'.cell? a = s₁.heap.cell? a := by
      intro a ha hnot hgiven
      rw [Finset.mem_insert, not_or] at hnot
      rw [hresult, Finset.mem_insert, not_or]
      refine ⟨⟨hnot.1, fun hmem => ?_⟩, hmerged.frame.same a ha ?_⟩
      · exact (Finset.mem_union.mp (hmerged.within a hmem ha)).elim hnot.2 hgiven
      · rw [hresult, Finset.mem_insert, Finset.mem_union, not_or, not_or]
        exact ⟨hnot.1, hnot.2, hgiven⟩
    have hearlier : ∀ key current c, Assoc.lookup result key = some (.dict current) →
        Assoc.lookup fields key = some (.address c) → ∃ chunk ∈ s₁.chunks,
          Leads h' (fun a => a ∉ insert s₁.result inner') chunk c := by
      intro key current c hcurrent hkey
      obtain ⟨earlier, hearlier, hleads⟩ := htracks.leads key current c hcurrent hkey
      refine ⟨earlier, hchunks earlier hearlier, hleads.mono fun a ha hpassed => ?_⟩
      have hgiven : a ∉ given := fun hmem => absurd ha (not_lt.mpr (hsource.new a hmem))
      obtain ⟨hpassed', hcell⟩ := hsame a (ha.trans_le hframe.grown) hpassed hgiven
      exact ⟨hpassed', hcell.trans (hframe.same a ha (Finset.notMem_empty a))⟩
    intro key current c hcurrent hkey
    cases hdelta : Assoc.lookup delta key with
    | none =>
        have hnot := Assoc.lookup_eq_none_iff.mp hdelta
        rw [Value.lookup_mergeStreamValue_of_not_mem hnot] at hcurrent
        rw [hmerged.untouched key hnot] at hkey
        exact hearlier key current c hcurrent hkey
    | some value =>
        rw [Value.lookup_mergeStreamValue _ hnodup hdelta] at hcurrent
        obtain ⟨w, rfl⟩ := Value.dict_of_mergeInto (Option.some.inj hcurrent)
        by_cases hnested : ∃ u, Assoc.lookup result key = some (.dict u)
        · obtain ⟨u, hu⟩ := hnested
          rw [hmerged.nested hnodup key u w hu hdelta] at hkey
          exact hearlier key u c hu hkey
        · rw [hmerged.placed hnodup key w (fun u hu => hnested ⟨u, hu⟩) hdelta] at hkey
          refine ⟨chunk, hchunk, (hsource.leads key c hkey).mono fun a ha hpassed => ?_⟩
          refine hsame a ha (fun hmem => ?_) hpassed.1
          rcases Finset.mem_insert.mp hmem with rfl | hmem
          · exact absurd hpassed.2 (not_le.mpr hlt)
          · exact absurd hpassed.2 (not_le.mpr (hinner a hmem))

/-- Where nested dictionaries are left as they are, the kept chunks are. -/
theorem Heap.Holding.merge_keeps (hold : Holding s₁.heap s₁.result result fields inner)
    (hsource : OwnsEntries s₁.heap delta refs given) (htarget : s₁.result ∉ given)
    (hnodup : (Assoc.keys delta).Nodup) (hdistinct : Value.DistinctEntries delta) {depth : ℕ}
    (hdepth : Value.heightEntries delta ≤ depth)
    (hnested : ∀ key u w, Assoc.lookup result key = some (.dict u) →
      Assoc.lookup delta key = some (.dict w) → Value.mergeStreamValue u w = u)
    {s' : Consuming} (hmerge : s₁.merge (depth + 1) refs = .ok s') : KeepsChunks s₁ s' := by
  have happart : ∀ {owned : Finset ℕ}, s₁.result ∉ owned → ∀ a ∈ owned, a ≠ s₁.result :=
    fun hnot a ha heq => hnot (heq ▸ ha)
  obtain ⟨h', hfold, hkeeps⟩ := foldlM_mergeEntry_around (mergeStreamValue_quiet depth) hdepth
    hnodup hdistinct hold.cell (hold.owns.spells (happart hold.apart))
    (hsource.spells (happart htarget)) hnested
  have hcall : mergeStreamValue (depth + 1) s₁.heap s₁.result refs = some h' := hfold
  rw [Consuming.merge, hcall] at hmerge
  cases hmerge
  exact ⟨rfl, hkeeps.spells⟩

/-- A chunk was consumed. -/
structure Advanced (s : Consuming) (result : List (String × Value)) (item : Value)
    (s' : Consuming) : Prop where
  kept : ∃ chunk, s'.chunks = s.chunks ++ [chunk] ∧
    (AddsNothing result item → Spells s'.heap (· ≠ s'.result) item (.address chunk))
  keeps : AddsNothing result item → ∀ value ref, Spells s.heap (· ≠ s.result) value ref →
    Spells s'.heap (· ≠ s'.result) value ref
  /-- What is merged into a nested dictionary shows in a chunk that was kept before. -/
  shows : ∀ delta, mergedPart item = some delta → ∀ key u w,
    Assoc.lookup result key = some (.dict u) → Assoc.lookup delta key = some (.dict w) →
      ∃ earlier ∈ s.chunks, ∃ c passed, Leads s.heap passed earlier c ∧
        Reads s.heap (.dict u) (.address c) ∧
        (∀ b, passed b → b < s.heap.size → s'.heap.cell? b = s.heap.cell? b) ∧
        Reads s'.heap (.dict (Value.mergeStreamValue u w)) (.address c)

theorem Received.spells {entries : List (String × Value)}
    (h : Received s entries s₁ refs chunk given) (hlt : s.result < s.heap.size) :
    Spells s₁.heap (· ≠ s₁.result) (.dict entries) (.address chunk) := by
  have hne : ∀ a ∈ insert chunk given, a ≠ s₁.result := fun a ha =>
    h.result ▸ (hlt.trans_le (h.new a ha)).ne'
  rw [Finset.forall_mem_insert] at hne
  exact ⟨chunk, refs, rfl, hne.1, h.cell, h.owns.spells hne.2⟩

theorem Received.keeps {entries : List (String × Value)}
    (h : Received s entries s₁ refs chunk given) (value : Value) (ref : Ref)
    (hspells : Spells s.heap (· ≠ s.result) value ref) :
    Spells s₁.heap (· ≠ s₁.result) value ref := by
  rw [h.result]
  exact (h.frame.quiet _).spells value ref hspells

theorem Received.adopted {entries complete : List (String × Value)}
    {cells : List (String × Ref)} {owned : Finset ℕ} {item : Value}
    (h : Received s entries s₁ refs chunk given) (htracks : Tracks s result fields inner)
    (hitem : item = .dict entries)
    (hsource : Source s₁.heap s.heap.size chunk complete cells owned)
    (hpart : mergedPart item = none) (flavor : Flavor) :
    Tracks (s₁.adopt flavor cells) complete cells owned ∧
      Advanced s result item (s₁.adopt flavor cells) := by
  have hlt : s.result < s.heap.size := lt_size_of_cell? htracks.holding.cell
  have hchunk : chunk ∈ s₁.chunks := by
    rw [h.chunks]
    exact List.mem_append_right _ List.mem_cons_self
  obtain ⟨htracks', hkeeps⟩ := hsource.adopt hchunk (h.result ▸ hlt) h.frame.grown flavor
  refine ⟨htracks', ⟨chunk, hkeeps.chunks.trans h.chunks, fun _ => ?_⟩, fun _ value ref hspells =>
    hkeeps.spells value ref (h.keeps value ref hspells), ?_⟩
  · rw [hitem]
    exact hkeeps.spells _ _ (h.spells hlt)
  · intro delta hdelta
    rw [hpart] at hdelta
    cases hdelta

theorem Received.merged {entries : List (String × Value)} {cells : List (String × Ref)}
    {owned : Finset ℕ} {item : Value} (h : Received s entries s₁ refs chunk given)
    (htracks : Tracks s result fields inner) (hitem : item = .dict entries)
    (hsource : Source s₁.heap s.heap.size chunk delta cells owned)
    (hpart : mergedPart item = some delta) (hnodup : (Assoc.keys delta).Nodup)
    (hdistinct : Value.DistinctEntries delta) {depth : ℕ}
    (hdepth : Value.heightEntries delta ≤ depth) :
    ∃ s' fields' inner', s₁.merge (depth + 1) cells = .ok s' ∧
      Tracks s' (Value.mergeStreamValue result delta) fields' inner' ∧
      Advanced s result item s' := by
  have hlt : s.result < s.heap.size := lt_size_of_cell? htracks.holding.cell
  have hchunk : chunk ∈ s₁.chunks := by
    rw [h.chunks]
    exact List.mem_append_right _ List.mem_cons_self
  have htarget : s₁.result ∉ owned := fun hmem =>
    absurd (h.result ▸ hsource.new _ hmem) (not_le.mpr hlt)
  obtain ⟨s', fields', inner', hcall, hmerged⟩ := htracks.merge h.result
    (fun c hc => by rw [h.chunks]; exact List.mem_append_left _ hc) h.frame hsource hchunk hnodup
    (Nat.lt_succ_of_le hdepth)
  have hkeeps : AddsNothing result item → KeepsChunks s₁ s' := fun hnothing =>
    (htracks.holding_grown h.result h.frame).merge_keeps hsource.owns htarget hnodup hdistinct
      hdepth (hnothing delta hpart) hcall
  refine ⟨s', fields', inner', hcall, hmerged.tracks, ⟨chunk, ?_, fun hnothing => ?_⟩, ?_, ?_⟩
  · exact hmerged.sameChunks.trans h.chunks
  · rw [hitem]
    exact (hkeeps hnothing).spells _ _ (h.spells hlt)
  · exact fun hnothing value ref hspells =>
      (hkeeps hnothing).spells value ref (h.keeps value ref hspells)
  · intro delta' hdelta' key u w hu hw
    rw [hpart] at hdelta'
    cases hdelta'
    have hread : SpellsEntries s.heap (fun _ => True) result fields :=
      htracks.holding.owns.spells fun _ _ => trivial
    obtain ⟨ref, href, hreads⟩ := hread.exists_ref hu
    obtain ⟨c, cells', rfl, -, -, -⟩ := id hreads
    obtain ⟨earlier, hearlier, hleads⟩ := htracks.leads key u c hu href
    refine ⟨earlier, hearlier, c, _, hleads, hreads, fun b hpassed hb => ?_, ?_⟩
    · refine (hmerged.merged.frame.same b (hb.trans_le h.frame.grown) ?_).trans
        (h.frame.same b hb (Finset.notMem_empty b))
      rw [Finset.mem_insert, not_or] at hpassed
      rw [h.result, Finset.mem_insert, Finset.mem_union, not_or, not_or]
      exact ⟨hpassed.1, hpassed.2, fun hmem => absurd hb (not_lt.mpr (hsource.new b hmem))⟩
    · have hread' : SpellsEntries s'.heap (fun _ => True)
          (Value.mergeStreamValue result delta) fields' :=
        hmerged.tracks.holding.owns.spells fun _ _ => trivial
      have hmergedKey := Value.lookup_mergeStreamValue result hnodup hw
      rw [hu, Value.mergeInto] at hmergedKey
      refine hread'.at hmergedKey ?_
      rw [hmerged.merged.nested hnodup key u w hu hw, href]

end Merge

/-! ## A chunk, and a stream -/

section Run

variable {flavor : Flavor} {s : Consuming} {result : List (String × Value)}
  {fields : List (String × Ref)} {inner : Finset ℕ} {item : Value}

/-- A chunk is consumed as it is by value, or it raises the same. -/
theorem Tracks.consumeItem (htracks : Tracks s result fields inner) (hdistinct : item.Distinct)
    (flavor : Flavor) (index : ℕ) :
    (∃ e, consumeChunk none index item result = .error e ∧
      s.consumeItem flavor item = .error e) ∨
    ∃ result' s' fields' inner', consumeChunk none index item result = .ok result' ∧
      s.consumeItem flavor item = .ok s' ∧ Tracks s' result' fields' inner' ∧
      Advanced s result item s' := by
  by_cases hdict : item.isDict = true
  · obtain ⟨entries, rfl⟩ : ∃ entries, item = .dict entries := by
      cases item with
      | dict entries => exact ⟨entries, rfl⟩
      | _ => cases hdict
    obtain ⟨s₁, refs, chunk, given, hreceive, hreceived⟩ := s.receive_dict entries
    have hconsume : s.consumeItem flavor (.dict entries) =
        s₁.take flavor (Value.height (.dict entries) + 1) refs := by
      rw [Consuming.consumeItem, hreceive]
      rfl
    rw [hconsume, Consuming.take]
    simp only [consumeChunk]
    rcases hreceived.chunkRef "result" with ⟨hcomplete, hcompleteRef⟩ |
      ⟨complete, ref, hcomplete, hcompleteRef, hlookup, href, owned, hpart, howns⟩
    · rw [hcomplete, hcompleteRef]
      rcases hreceived.chunkRef "delta" with ⟨hdelta, hdeltaRef⟩ |
        ⟨delta, ref, hdelta, hdeltaRef, hlookup, href, owned, hpart, howns⟩
      · rw [hdelta, hdeltaRef]
        right
        have hheight : Value.heightEntries entries ≤ Value.height (.dict entries) := Nat.le_succ _
        obtain ⟨s', fields', inner', hmerge, hrest⟩ := hreceived.merged htracks rfl
          hreceived.whole (by rw [mergedPart, hcomplete, hdelta]) hdistinct.1 hdistinct.2 hheight
        exact ⟨_, s', fields', inner', rfl, hmerge, hrest⟩
      · rw [hdelta, hdeltaRef]
        rcases delta.isDict_or with ⟨ds, rfl⟩ | hnot
        · right
          obtain ⟨a, cells, _, rfl, hcell, -⟩ := id howns
          obtain ⟨inner₁, hsource⟩ := hreceived.field href hpart howns hcell
          have hdict : s₁.heap.dict? (.address a) = some cells :=
            dict?_eq_some_iff.mpr ⟨a, rfl, hcell⟩
          obtain ⟨hnodup, hdistinct'⟩ := hdistinct.2.lookup hlookup
          have hheight : Value.heightEntries ds ≤ Value.height (.dict entries) :=
            (Nat.le_succ _).trans ((Value.height_lookup_le hlookup).trans (Nat.le_succ _))
          obtain ⟨s', fields', inner', hmerge, hrest⟩ := hreceived.merged htracks rfl hsource
            (by rw [mergedPart, hcomplete, hdelta]) hnodup hdistinct' hheight
          refine ⟨_, s', fields', inner', rfl, ?_, hrest⟩
          simp only [hdict]
          exact hmerge
        · left
          refine ⟨.typeError "a stream chunk delta must be a dict", ?_, ?_⟩
          · cases delta with
            | dict ds => cases hnot
            | _ => rfl
          · simp only [dict?_eq_none (howns.spells fun _ _ => trivial) hnot]
    · rw [hcomplete, hcompleteRef]
      rcases complete.isDict_or with ⟨cs, rfl⟩ | hnot
      · right
        obtain ⟨a, cells, _, rfl, hcell, -⟩ := id howns
        obtain ⟨inner₁, hsource⟩ := hreceived.field href hpart howns hcell
        have hdict : s₁.heap.dict? (.address a) = some cells :=
          dict?_eq_some_iff.mpr ⟨a, rfl, hcell⟩
        obtain ⟨htracks', hadvanced⟩ := hreceived.adopted htracks rfl hsource
          (by rw [mergedPart, hcomplete]) flavor
        refine ⟨_, _, cells, inner₁, rfl, ?_, htracks', hadvanced⟩
        simp only [hdict]
      · left
        refine ⟨.typeError "a stream chunk result must be a dict", ?_, ?_⟩
        · cases complete with
          | dict cs => cases hnot
          | _ => rfl
        · simp only [dict?_eq_none (howns.spells fun _ _ => trivial) hnot]
  · left
    refine ⟨.typeError "stream chunks must be dicts", ?_, ?_⟩
    · cases item with
      | dict entries => exact absurd rfl hdict
      | _ => rfl
    · rw [Consuming.consumeItem, s.receive_other (by simpa using hdict)]
      rfl

theorem consumeChunks_snoc (index : ℕ) (before : List Value) (item : Value)
    (result : List (String × Value)) :
    consumeChunks none none index (before ++ [item]) result =
      (consumeChunks none none index before result).bind
        (consumeChunk none (index + before.length) item) := by
  induction before generalizing index result with
  | nil =>
      change (consumeChunk none index item result).bind (consumeChunks none none (index + 1) []) =
        consumeChunk none index item result
      cases consumeChunk none index item result <;> rfl
  | cons first before ih =>
      rw [List.cons_append, consumeChunks, consumeChunks]
      cases consumeChunk none index first result with
      | error e => rfl
      | ok next =>
          change consumeChunks none none (index + 1) (before ++ [item]) next = _
          rw [ih, List.length_cons, Nat.add_right_comm, Nat.add_assoc]
          rfl

theorem consumeItems_snoc (s : Consuming) (flavor : Flavor) (before : List Value)
    (item : Value) :
    s.consumeItems flavor (before ++ [item]) =
      (s.consumeItems flavor before).bind fun t => t.consumeItem flavor item := by
  rw [Consuming.consumeItems, List.foldlM_append, Consuming.consumeItems]
  cases before.foldlM (Consuming.consumeItem flavor) s with
  | error e => rfl
  | ok t =>
      change List.foldlM (Consuming.consumeItem flavor) t [item] = t.consumeItem flavor item
      rw [List.foldlM_cons]
      cases t.consumeItem flavor item <;> rfl

theorem tracks_start : Tracks Consuming.start [] [] ∅ where
  holding := ⟨rfl, ⟨rfl, rfl⟩, Finset.notMem_empty _⟩
  leads _ _ _ hcurrent := nomatch hcurrent

/-- A stream is consumed as it is by value, or it raises the same. -/
theorem consumeItems_tracks (flavor : Flavor) {items : List Value}
    (hdistinct : ∀ item ∈ items, item.Distinct) :
    (∃ e, consumeChunks none none 0 items [] = .error e ∧
      Consuming.start.consumeItems flavor items = .error e) ∨
    ∃ result s fields inner, consumeChunks none none 0 items [] = .ok result ∧
      Consuming.start.consumeItems flavor items = .ok s ∧ Tracks s result fields inner := by
  induction items using List.reverseRecOn with
  | nil => exact .inr ⟨[], Consuming.start, [], ∅, rfl, rfl, tracks_start⟩
  | append_singleton before item ih =>
      rw [consumeChunks_snoc, consumeItems_snoc]
      rcases ih fun other ho => hdistinct other (List.mem_append_left _ ho) with
        ⟨e, hchunks, hitems⟩ | ⟨result, s, fields, inner, hchunks, hitems, htracks⟩
      · rw [hchunks, hitems]
        exact .inl ⟨e, rfl, rfl⟩
      · rw [hchunks, hitems]
        rcases htracks.consumeItem (hdistinct item (by simp)) flavor (0 + before.length) with
          ⟨e, hchunk, hitem⟩ | ⟨result', s', fields', inner', hchunk, hitem, htracks', -⟩
        · exact .inl ⟨e, hchunk, hitem⟩
        · exact .inr ⟨result', s', fields', inner', hchunk, hitem, htracks'⟩

/-- A chunk that merges something is consumed. -/
theorem consumeChunk_of_mergedPart {delta : List (String × Value)}
    (h : mergedPart item = some delta) (index : ℕ) (result : List (String × Value)) :
    consumeChunk none index item result = .ok (Value.mergeStreamValue result delta) := by
  unfold mergedPart at h
  split at h
  · next chunk =>
      split at h
      · next hcomplete hdelta =>
          cases h
          simp only [consumeChunk, hcomplete, hdelta]
      · next hcomplete hdelta =>
          cases h
          simp only [consumeChunk, hcomplete, hdelta]
      · cases h
  · cases h

/-- While nothing is added to a nested dictionary, every kept chunk reads as it did. -/
theorem kept_of_addsNothing {items : List Value} (hdistinct : ∀ item ∈ items, item.Distinct)
    (hnothing : AddsNothingNested items) (hs : Consuming.start.consumeItems flavor items = .ok s) :
    List.Forall₂ (fun item chunk => Spells s.heap (· ≠ s.result) item (.address chunk)) items
      s.chunks := by
  induction items using List.reverseRecOn generalizing s with
  | nil =>
      cases hs
      exact .nil
  | append_singleton before item ih =>
      have hdistinct' : ∀ other ∈ before, other.Distinct :=
        fun other ho => hdistinct other (List.mem_append_left _ ho)
      rw [consumeItems_snoc] at hs
      rcases consumeItems_tracks flavor hdistinct' with
        ⟨e, -, hitems⟩ | ⟨result, t, fields, inner, hchunks, hitems, htracks⟩
      · rw [hitems] at hs
        cases hs
      · rw [hitems] at hs
        rcases htracks.consumeItem (hdistinct item (by simp)) flavor before.length with
          ⟨e, -, hitem⟩ | ⟨result', s', fields', inner', -, hitem, -, hadvanced⟩
        · have herror : (Except.error e : Except PyError Consuming) = .ok s := hitem ▸ hs
          cases herror
        · have hsame : s' = s := Except.ok.inj (hitem.symm.trans hs)
          subst hsame
          have hhere : AddsNothing result item := hnothing before item [] rfl result hchunks
          have hbefore := ih hdistinct' (fun b i a hsplit =>
            hnothing b i (a ++ [item]) (by rw [hsplit]; simp)) hitems
          obtain ⟨chunk, hchunk, hkept⟩ := hadvanced.kept
          rw [hchunk]
          refine List.rel_append (hbefore.imp fun _ _ hspells =>
            hadvanced.keeps hhere _ _ hspells) (.cons (hkept hhere) .nil)

theorem spellsItems_of_forall₂ {h : Heap} {allowed : ℕ → Prop} {items : List Value}
    {chunks : List ℕ}
    (hkept : List.Forall₂ (fun item chunk => Spells h allowed item (.address chunk)) items chunks) :
    SpellsItems h allowed items (chunks.map .address) := by
  induction hkept with
  | nil => rfl
  | cons hitem _ ih => exact ⟨_, _, rfl, hitem, ih⟩

/-- What is consumed are dictionaries. -/
theorem isDict_of_consumeItems {items : List Value} {s s' : Consuming}
    (hs : s.consumeItems flavor items = .ok s') : ∀ item ∈ items, item.isDict = true := by
  induction items generalizing s with
  | nil => exact fun _ hitem => nomatch hitem
  | cons item items ih =>
      rw [Consuming.consumeItems, List.foldlM_cons] at hs
      cases hstep : s.consumeItem flavor item with
      | error e =>
          rw [hstep] at hs
          cases hs
      | ok t =>
          rw [hstep] at hs
          rw [List.forall_mem_cons]
          refine ⟨?_, ih hs⟩
          by_contra hnot
          rw [Consuming.consumeItem, s.receive_other (by simpa using hnot)] at hstep
          cases hstep

/-- Under the stored result the chunks read as they did. -/
theorem Tracks.reads_keepChunks (htracks : Tracks s result fields inner) {items : List Value}
    (hkept : List.Forall₂ (fun item chunk => Spells s.heap (· ≠ s.result) item (.address chunk))
      items s.chunks) :
    Reads s.keepChunks (.dict (Assoc.upsert result "chunks" (.list items)))
      (.address s.result) := by
  have hlt : s.result < s.heap.size := lt_size_of_cell? htracks.holding.cell
  have hitems := spellsItems_of_forall₂ hkept
  have hentries : SpellsEntries s.heap (· ≠ s.result) result fields :=
    htracks.holding.owns.spells fun a ha heq => htracks.holding.apart (heq ▸ ha)
  let grown := (s.heap.alloc (.list (s.chunks.map .address))).2
  have hgrown := (Frame.alloc s.heap (.list (s.chunks.map .address)) ∅).quiet (· ≠ s.result)
  have hcell : grown.cell? s.result = some (.dict fields) :=
    (cell?_alloc_of_lt _ hlt).trans htracks.holding.cell
  have hlist : Spells grown (· ≠ s.result) (.list items) (.address s.heap.size) :=
    ⟨s.heap.size, _, rfl, hlt.ne', cell?_alloc_self _ _, hitems.mono (fun a _ ha hfound =>
      ⟨ha, (cell?_alloc_of_lt _ (lt_size_of_cell? hfound)).trans hfound⟩) items⟩
  have hkeep : s.keepChunks = grown.setEntry s.result fields "chunks" (.address s.heap.size) := by
    have hdict : grown.dict? (.address s.result) = some fields :=
      dict?_eq_some_iff.mpr ⟨_, rfl, hcell⟩
    unfold Consuming.keepChunks
    simp only [grown] at hdict ⊢
    rw [hdict]
    rfl
  have hset := KeepsAround.setEntry grown s.result fields "chunks" (.address s.heap.size)
  rw [hkeep]
  refine ⟨s.result, _, rfl, trivial, cell?_write_self (hlt.trans_le hgrown.grown), ?_⟩
  exact ((((hentries.of_forall hgrown.spells).upsert "chunks" hlist).of_forall
    hset.spells)).mono (fun _ _ _ hfound => ⟨trivial, hfound⟩) _

/-- A prefix of a stream that adds nothing. -/
theorem AddsNothingNested.left {items rest : List Value}
    (h : AddsNothingNested (items ++ rest)) : AddsNothingNested items :=
  fun before item after hsplit => h before item (after ++ rest) (by rw [hsplit]; simp)

/-- If no merge alters a kept chunk, none adds to a nested dictionary. -/
theorem KeptAsDelivered.addsNothing {items : List Value} (hkept : KeptAsDelivered flavor items)
    (hdistinct : ∀ item ∈ items, item.Distinct) (before : List Value) :
    ∀ after, items = before ++ after → AddsNothingNested before := by
  induction before using List.reverseRecOn with
  | nil =>
      intro after _ b i a hsplit
      simp at hsplit
  | append_singleton before item ih =>
      intro after hitems b i a hsplit result hresult delta hdelta key u w hu hw
      rw [List.append_assoc, List.singleton_append] at hitems
      have hnothing := ih (item :: after) hitems
      rcases List.eq_nil_or_concat a with rfl | ⟨a, last, rfl⟩
      · -- the last item: a kept chunk would read differently afterwards
        obtain ⟨rfl, hlast⟩ := List.append_inj' hsplit rfl
        cases hlast
        have hdistinct' : ∀ other ∈ before, other.Distinct :=
          fun other ho => hdistinct other (by rw [hitems]; exact List.mem_append_left _ ho)
        rcases consumeItems_tracks flavor hdistinct' with
          ⟨e, hchunks, -⟩ | ⟨_, s, fields, inner, hchunks, hconsumed, htracks⟩
        · rw [hchunks] at hresult
          cases hresult
        · rw [hchunks] at hresult
          cases hresult
          rcases htracks.consumeItem (hdistinct item (by rw [hitems]; simp)) flavor 0 with
            ⟨e, hchunk, -⟩ | ⟨_, s', _, _, -, hitem, -, hadvanced⟩
          · rw [consumeChunk_of_mergedPart hdelta] at hchunk
            cases hchunk
          · obtain ⟨earlier, hearlier, c, passed, hleads, hreads, hsame, hreads'⟩ :=
              hadvanced.shows delta hdelta key u w hu hw
            obtain ⟨value, hvalue⟩ : ∃ value, Reads s.heap value (.address earlier) := by
              have hall := kept_of_addsNothing hdistinct' hnothing hconsumed
              obtain ⟨index, hindex, rfl⟩ := List.getElem_of_mem hearlier
              exact ⟨_, Spells.mono (fun _ _ _ hfound => ⟨trivial, hfound⟩) _
                (hall.get (by rw [hall.length_eq]; exact hindex) hindex)⟩
            obtain ⟨inner', hinner, hfollows⟩ := hleads.reads hvalue
            have hafter := hfollows s'.heap hsame
              (hkept.unaltered before item after hitems s s' hconsumed hitem earlier hearlier
                value hvalue)
            rw [Spells.unique _ hreads hinner] at hafter
            exact Value.dict.inj (Spells.unique _ hafter hreads')
      · refine hnothing b i a ?_ result hresult delta hdelta key u w hu hw
        rw [List.concat_eq_append, ← List.cons_append, ← List.append_assoc] at hsplit
        exact (List.append_inj' hsplit rfl).1

/-- A stream keeps its chunks as they were delivered exactly where no chunk adds to a nested
dictionary of the result so far. -/
theorem kept_as_delivered_iff (flavor : Flavor) {items : List Value}
    (hdistinct : ∀ item ∈ items, item.Distinct) :
    KeptAsDelivered flavor items ↔ AddsNothingNested items := by
  constructor
  · exact fun hkept => hkept.addsNothing hdistinct items [] (List.append_nil items).symm
  · intro hnothing
    constructor
    · intro s hs
      rcases consumeItems_tracks flavor hdistinct with
        ⟨e, -, hitems⟩ | ⟨result, t, fields, inner, hchunks, hitems, htracks⟩
      · rw [hitems] at hs
        cases hs
      · rw [hitems] at hs
        cases hs
        have hget : Value.get? (.dict (Assoc.upsert result "chunks" (.list items))) "chunks" =
            some (.list items) := by
          rw [Value.get?, Assoc.lookup_upsert, if_pos rfl]
        refine ⟨_, htracks.reads_keepChunks (kept_of_addsNothing hdistinct hnothing hitems), hget,
          ?_⟩
        simp only [reemittedChunks, hget]
        exact List.filter_eq_self.mpr (isDict_of_consumeItems hitems)
    · intro before item after hsplit s s' hs hs' chunk hchunk value hvalue
      subst hsplit
      have hdistinct' : ∀ other ∈ before, other.Distinct :=
        fun other ho => hdistinct other (List.mem_append_left _ ho)
      rcases consumeItems_tracks flavor hdistinct' with
        ⟨e, -, hitems⟩ | ⟨result, t, fields, inner, hchunks, hitems, htracks⟩
      · rw [hitems] at hs
        cases hs
      · rw [hitems] at hs
        cases hs
        rcases htracks.consumeItem (hdistinct item (by simp)) flavor 0 with
          ⟨e, -, hitem⟩ | ⟨_, t, _, _, -, hitem, -, hadvanced⟩
        · rw [hitem] at hs'
          cases hs'
        · rw [hitem] at hs'
          cases hs'
          have hall := kept_of_addsNothing hdistinct' hnothing.left hitems
          obtain ⟨index, hindex, rfl⟩ := List.getElem_of_mem hchunk
          have hread := hall.get (by rw [hall.length_eq]; exact hindex) hindex
          rw [Spells.unique _ hread hvalue]
          exact Spells.mono (fun _ _ _ hfound => ⟨trivial, hfound⟩) _
            (hadvanced.keeps (hnothing before item after rfl result hchunks) _ _ hread)

end Run

/-! ## Nested text in two chunks -/

/-- A chunk that brings a text inside a nested dictionary. -/
def textChunk (text : String) : Value := .dict [("message", .dict [("text", .str text)])]

theorem flat_chunks_kept :
    KeptAsDelivered .sync [.dict [("text", .str "hel")], .dict [("text", .str "lo")]] ↔
      AddsNothingNested [.dict [("text", .str "hel")], .dict [("text", .str "lo")]] :=
  kept_as_delivered_iff .sync (by
    intro item hitem
    simp only [List.mem_cons, List.not_mem_nil, or_false] at hitem
    rcases hitem with rfl | rfl <;> exact ⟨by decide, trivial, trivial⟩)

/-- The text of the second chunk is appended to the first, which was kept. -/
theorem nested_chunk_altered : ¬ KeptAsDelivered .sync [textChunk "hel", textChunk "lo"] := by
  intro hkept
  obtain ⟨s, hs, result, hresult, hget⟩ : ∃ s,
      Consuming.start.consumeItems .sync [textChunk "hel", textChunk "lo"] = .ok s ∧
      ∃ result, Reads s.keepChunks result (.address s.result) ∧
        result.get? "chunks" = some (.list [textChunk "hello", textChunk "lo"]) := by
    have hleaf : ∀ (h : Heap) (text : String), Reads h (.str text) (.scalar ⟨.str text, rfl⟩) :=
      fun _ _ => ⟨rfl, rfl⟩
    refine ⟨_, rfl, .dict [("message", .dict [("text", .str "hello")]),
      ("chunks", .list [textChunk "hello", textChunk "lo"])], ?_, rfl⟩
    exact ⟨0, _, rfl, trivial, rfl, _, _, rfl,
      ⟨1, _, rfl, trivial, rfl, _, _, rfl, hleaf _ _, rfl⟩, _, _, rfl,
      ⟨7, _, rfl, trivial, rfl, _, _, rfl,
        ⟨3, _, rfl, trivial, rfl, _, _, rfl,
          ⟨1, _, rfl, trivial, rfl, _, _, rfl, hleaf _ _, rfl⟩, rfl⟩, _, _, rfl,
        ⟨6, _, rfl, trivial, rfl, _, _, rfl,
          ⟨4, _, rfl, trivial, rfl, _, _, rfl, hleaf _ _, rfl⟩, rfl⟩, rfl⟩, rfl⟩
  obtain ⟨stored, hstored, hchunks, -⟩ := hkept.stored s hs
  rw [← Spells.unique _ hstored hresult, hget] at hchunks
  revert hchunks
  decide

end Pollard
