import Pollard.Stores.Redis
import Mathlib.Tactic.Linarith

/-!
# Redis transactions are serializable

The callbacks whose `EXEC` went through have the results, and leave the buckets, that they have
when they run alone, one after another, on the buckets themselves.
-/

namespace Pollard.Stores.Redis

open Lib

/-! ## One at a time -/

/-- The buckets a callback changes as it goes, and whether it has. -/
structure Direct where
  buckets : Buckets
  wrote : Bool

/-- What an operation does to the buckets themselves. -/
def Direct.perform (now : Instant) (revision : Option ℕ) :
    (o : Operation) → Direct → o.Answer × Direct
  | .get bucket key, d => (d.buckets.hget bucket key, d)
  | .items bucket, d => (sortedItems (d.buckets.hgetall bucket), d)
  | .put bucket key value, d => ((), ⟨d.buckets.hset bucket key value, true⟩)
  | .delete bucket key, d => ((), ⟨d.buckets.hdel bucket key, true⟩)
  | .now, d => (now, d)
  | .revision, d => (revision, d)

/-- A callback alone on a store. -/
def Commit.execute {α : Type} (kv : KV) (c : Commit α) : Except PyError α × KV :=
  let ran := c.callback.run (Direct.perform c.now kv.revision) ⟨kv.buckets, false⟩
  (ran.1, ⟨ran.2.buckets, if ran.2.wrote then some (kv.revision.getD 0 + 1) else kv.revision⟩)

/-- Callbacks one at a time. -/
def serial {α : Type} : KV → List (Commit α) → List (Except PyError α) × KV
  | kv, [] => ([], kv)
  | kv, c :: cs =>
      let rest := serial (c.execute kv).2 cs
      ((c.execute kv).1 :: rest.1, rest.2)

/-! ## The clock -/

/-- The part of a second that a number of microseconds is. -/
theorem fraction_bounds {us : ℕ} (h : us < 1000000) :
    0 ≤ Binary64.round (Binary64.round us / 1000000) ∧
      Binary64.round (Binary64.round us / 1000000) < 1 := by
  rw [Binary64.round_natCast (by omega)]
  refine ⟨Binary64.round_nonneg (by positivity), ?_⟩
  have hle : ((us : ℚ) / 1000000) ≤ 999999 / 1000000 := by
    have hcast : (us : ℚ) ≤ (999999 : ℕ) := Nat.cast_le.mpr (by omega)
    rw [Nat.cast_ofNat] at hcast
    linarith
  exact (Binary64.round_mono (by positivity) hle).trans_lt (by decide +kernel)

theorem serverTime_mono {t u : ℕ} (h : t ≤ u) : serverTime t ≤ serverTime u := by
  obtain ⟨hfraction, hfraction'⟩ := fraction_bounds (Nat.mod_lt t (show 0 < 1000000 by omega))
  obtain ⟨hother, hother'⟩ := fraction_bounds (Nat.mod_lt u (show 0 < 1000000 by omega))
  have hseconds : t / 1000000 ≤ u / 1000000 := Nat.div_le_div_right h
  have hzero : ∀ n : ℕ, (0 : ℚ) ≤ Binary64.round n := fun n =>
    Binary64.round_nonneg n.cast_nonneg
  have hround : Binary64.round (t / 1000000 : ℕ) ≤ Binary64.round (u / 1000000 : ℕ) :=
    Binary64.round_mono (Nat.cast_nonneg _) (Nat.cast_le.mpr hseconds)
  unfold serverTime
  rcases hseconds.eq_or_lt with heq | hlt
  · rw [heq]
    have hmicroseconds : t % 1000000 ≤ u % 1000000 := by omega
    refine Binary64.round_mono (add_nonneg (hzero _) hfraction) (add_le_add le_rfl ?_)
    refine Binary64.round_mono (div_nonneg (hzero _) (by norm_num)) ?_
    exact div_le_div_of_nonneg_right
      (Binary64.round_mono (Nat.cast_nonneg _) (Nat.cast_le.mpr hmicroseconds)) (by norm_num)
  -- The seconds differ by one at least, unless both are rounded to one number.
  by_cases hsame : Binary64.round (t / 1000000 : ℕ) = Binary64.round (u / 1000000 : ℕ) ∧
      2 ^ 53 ≤ t / 1000000
  · obtain ⟨m, v, hm, hm', hform⟩ := Binary64.round_of_le (hsame.2)
    rw [← hsame.1, hform, Binary64.round_add_of_lt_one hm hm' hfraction hfraction',
      Binary64.round_add_of_lt_one hm hm' hother hother']
  · have hnext : Binary64.round (t / 1000000 : ℕ) + 1 ≤ Binary64.round (u / 1000000 : ℕ) := by
      by_cases hlarge : 2 ^ 53 ≤ t / 1000000
      · obtain ⟨m, v, -, -, hform⟩ := Binary64.round_of_le hlarge
        obtain ⟨m', v', -, -, hform'⟩ := Binary64.round_of_le (hlarge.trans hlt.le)
        have hne : Binary64.round (t / 1000000 : ℕ) < Binary64.round (u / 1000000 : ℕ) :=
          lt_of_le_of_ne hround fun heq => hsame ⟨heq, hlarge⟩
        have hint : ∀ (m : ℤ) (v : ℕ), (m : ℚ) * 2 ^ ((v : ℤ) + 1) = (m * 2 ^ (v + 1) : ℤ) := by
          intro m v
          push_cast
          rfl
        rw [hform, hform', hint, hint, Int.cast_lt] at hne
        rw [hform, hform', hint, hint]
        exact_mod_cast hne
      · have hexact : Binary64.round (t / 1000000 + 1 : ℕ) = ((t / 1000000 + 1 : ℕ) : ℚ) :=
          Binary64.round_natCast (by omega)
        rw [Binary64.round_natCast (by omega : t / 1000000 ≤ 2 ^ 53)]
        calc
          ((t / 1000000 : ℕ) : ℚ) + 1 = ((t / 1000000 + 1 : ℕ) : ℚ) := by push_cast; rfl
          _ = Binary64.round (t / 1000000 + 1 : ℕ) := hexact.symm
          _ ≤ Binary64.round (u / 1000000 : ℕ) :=
            Binary64.round_mono (Nat.cast_nonneg _) (Nat.cast_le.mpr hlt)
    refine Binary64.round_mono (add_nonneg (hzero _) hfraction) ?_
    linarith

/-! ## Buckets that look alike -/

/-- Buckets in which every key reads alike. -/
def Buckets.Alike (a b : Buckets) : Prop := ∀ bucket key, a.hget bucket key = b.hget bucket key

def KV.Alike (a b : KV) : Prop := a.buckets.Alike b.buckets ∧ a.revision = b.revision

theorem sortedItems_congr {a b : Dict String String} (h : ∀ key, a.get? key = b.get? key) :
    sortedItems a = sortedItems b := by
  have hperm : a.entries.Perm b.entries := by
    rw [List.perm_ext_iff_of_nodup (List.Nodup.of_map _ a.nodupKeys)
      (List.Nodup.of_map _ b.nodupKeys)]
    rintro ⟨key, value⟩
    rw [Dict.mem_entries_iff, Dict.mem_entries_iff, h]
  have hsorted : ∀ d : Dict String String, (sortedItems d).Pairwise fun x y => x.1 ≤ y.1 :=
    fun d => List.pairwise_insertionSort (fun x y : String × String => x.1 ≤ y.1) d.entries
  refine List.Perm.eq_of_pairwise ?_ (hsorted a) (hsorted b)
    ((List.perm_insertionSort _ _).trans (hperm.trans (List.perm_insertionSort _ _).symm))
  rintro ⟨key, value⟩ ⟨other, value'⟩ hx hy hle hge
  have hkey : key = other := le_antisymm hle hge
  subst hkey
  have hx := Dict.mem_entries_iff.mp ((List.mem_insertionSort _).mp hx)
  have hy := Dict.mem_entries_iff.mp ((List.mem_insertionSort _).mp hy)
  rw [h, hy] at hx
  cases hx
  rfl

theorem hgetall_hset (buckets : Buckets) (bucket key value other : String) :
    (buckets.hset bucket key value).hgetall other =
      if bucket = other then (buckets.hgetall bucket).set key value
      else buckets.hgetall other := by
  rw [Buckets.hgetall, Buckets.hset, Dict.getD_set]
  rfl

theorem hgetall_hdel (buckets : Buckets) (bucket key other : String) :
    (buckets.hdel bucket key).hgetall other =
      if bucket = other then (buckets.hgetall bucket).erase key else buckets.hgetall other := by
  rw [Buckets.hgetall, Buckets.hdel, Dict.getD_set]
  rfl

theorem hget_hset (buckets : Buckets) (bucket key value other key' : String) :
    (buckets.hset bucket key value).hget other key' =
      if (bucket, key) = (other, key') then some value else buckets.hget other key' := by
  rw [Buckets.hget, hgetall_hset]
  by_cases hbucket : bucket = other
  · subst hbucket
    rw [if_pos rfl, Dict.get?_set]
    simp [Buckets.hget]
  · simp [hbucket, Buckets.hget]

theorem hget_hdel (buckets : Buckets) (bucket key other key' : String) :
    (buckets.hdel bucket key).hget other key' =
      if (bucket, key) = (other, key') then none else buckets.hget other key' := by
  rw [Buckets.hget, hgetall_hdel]
  by_cases hbucket : bucket = other
  · subst hbucket
    rw [if_pos rfl, Dict.get?_erase]
    simp [Buckets.hget]
  · simp [hbucket, Buckets.hget]

/-- Callbacks cannot tell buckets that look alike apart. -/
theorem run_alike {α : Type} (callback : Callback α) (now : Instant) (revision : Option ℕ)
    {a b : Buckets} (h : a.Alike b) (wrote : Bool) :
    (callback.run (Direct.perform now revision) ⟨a, wrote⟩).1 =
        (callback.run (Direct.perform now revision) ⟨b, wrote⟩).1 ∧
      (callback.run (Direct.perform now revision) ⟨a, wrote⟩).2.buckets.Alike
          (callback.run (Direct.perform now revision) ⟨b, wrote⟩).2.buckets ∧
        (callback.run (Direct.perform now revision) ⟨a, wrote⟩).2.wrote =
          (callback.run (Direct.perform now revision) ⟨b, wrote⟩).2.wrote := by
  refine Program.run_related 
    (R := fun a b : Direct => a.buckets.Alike b.buckets ∧ a.wrote = b.wrote)
    (fun o s t hst => ?_) callback ⟨h, rfl⟩
  obtain ⟨halike, hwrote⟩ := hst
  cases o with
  | get bucket key => exact ⟨halike bucket key, halike, hwrote⟩
  | items bucket => exact ⟨sortedItems_congr (halike bucket), halike, hwrote⟩
  | put bucket key value =>
      refine ⟨rfl, fun other key' => ?_, rfl⟩
      simp only [Direct.perform, hget_hset, halike other key']
  | delete bucket key =>
      refine ⟨rfl, fun other key' => ?_, rfl⟩
      simp only [Direct.perform, hget_hdel, halike other key']
  | now => exact ⟨rfl, halike, hwrote⟩
  | revision => exact ⟨rfl, halike, hwrote⟩

/-! ## Pending writes -/

/-- A key as a callback sees it, through its pending writes. -/
def Pending.view (pending : Pending) (buckets : Buckets) (bucket key : String) : Option String :=
  (pending.get? (bucket, key)).getD (buckets.hget bucket key)

theorem overlay_cons (bucket pendingBucket key : String) (value : Option String)
    (pending : List ((String × String) × Option String)) (values : Dict String String) :
    overlay bucket (((pendingBucket, key), value) :: pending) values =
      overlay bucket pending
        (if pendingBucket ≠ bucket then values
        else
          match value with
          | none => values.erase key
          | some value => values.set key value) := rfl

theorem queueWrites_cons (bucket key : String) (value : Option String)
    (pending : List ((String × String) × Option String)) (buckets : Buckets) :
    queueWrites (((bucket, key), value) :: pending) buckets =
      queueWrites pending
        (match value with
        | none => buckets.hdel bucket key
        | some value => buckets.hset bucket key value) := rfl

theorem get?_overlay {entries : List ((String × String) × Option String)}
    (hnodup : (Assoc.keys entries).Nodup) (bucket : String) (values : Dict String String)
    (key : String) : (overlay bucket entries values).get? key =
      (Assoc.lookup entries (bucket, key)).getD (values.get? key) := by
  induction entries generalizing values with
  | nil => rfl
  | cons e entries ih =>
      obtain ⟨⟨pendingBucket, k⟩, value⟩ := e
      rw [Assoc.keys, List.map_cons, List.nodup_cons] at hnodup
      rw [overlay_cons, ih hnodup.2, Assoc.lookup]
      by_cases hkey : (pendingBucket, k) = (bucket, key)
      · rw [if_pos hkey]
        obtain ⟨rfl, rfl⟩ := Prod.mk.inj hkey
        rw [Assoc.lookup_eq_none_iff.mpr hnodup.1]
        cases value with
        | none => simp [Dict.get?_erase]
        | some value => simp
      · rw [if_neg hkey]
        congr 1
        by_cases hbucket : pendingBucket = bucket
        · have hk : k ≠ key := fun hk => hkey (by rw [hbucket, hk])
          cases value with
          | none => simp [hbucket, Dict.get?_erase, hk]
          | some value => simp [hbucket, Dict.get?_set, hk]
        · simp [hbucket]

theorem hgetall_queueWrites (entries : List ((String × String) × Option String))
    (buckets : Buckets) (bucket : String) :
    (queueWrites entries buckets).hgetall bucket =
      overlay bucket entries (buckets.hgetall bucket) := by
  induction entries generalizing buckets with
  | nil => rfl
  | cons e entries ih =>
      obtain ⟨⟨pendingBucket, key⟩, value⟩ := e
      rw [queueWrites_cons, overlay_cons, ih]
      congr 1
      cases value with
      | none =>
          rw [hgetall_hdel]
          by_cases hbucket : pendingBucket = bucket <;> simp [hbucket]
      | some value =>
          rw [hgetall_hset]
          by_cases hbucket : pendingBucket = bucket <;> simp [hbucket]

theorem Pending.get?_overlay (pending : Pending) (buckets : Buckets) (bucket key : String) :
    (overlay bucket pending.entries (buckets.hgetall bucket)).get? key =
      pending.view buckets bucket key :=
  Redis.get?_overlay pending.nodupKeys bucket _ key

theorem Pending.hget_queueWrites (pending : Pending) (buckets : Buckets) (bucket key : String) :
    (queueWrites pending.entries buckets).hget bucket key = pending.view buckets bucket key := by
  rw [Buckets.hget, hgetall_queueWrites, pending.get?_overlay]

theorem Pending.view_set (pending : Pending) (buckets : Buckets) (bucket key : String)
    (value : Option String) (other key' : String) :
    Pending.view (pending.set (bucket, key) value) buckets other key' =
      if (bucket, key) = (other, key') then value else pending.view buckets other key' := by
  rw [view, Dict.get?_set]
  split <;> rfl

theorem Pending.hasWrites_set (pending : Pending) (bucket key : String) (value : Option String) :
    Pending.hasWrites (pending.set (bucket, key) value) = true := by
  have hget : (pending.set (bucket, key) value).get? (bucket, key) = some value := by
    rw [Dict.get?_set, if_pos rfl]
  have hmem := Dict.mem_entries_iff.mpr hget
  rw [hasWrites, decide_eq_true_eq]
  intro hempty
  rw [List.isEmpty_iff.mp hempty] at hmem
  cases hmem

/-! ## What a client knows -/

/-- Running a callback from its start is running what is left of it. -/
structure Tracks {α : Type} (buckets : Buckets) (revision : Option ℕ) (now : Instant)
    (pending : Pending) (callback rest : Callback α) (d : Direct) : Prop where
  runs : callback.run (Direct.perform now revision) ⟨buckets, false⟩ =
    rest.run (Direct.perform now revision) d
  shows : ∀ bucket key, d.buckets.hget bucket key = pending.view buckets bucket key
  wrote : d.wrote = pending.hasWrites

theorem Tracks.start {α : Type} (buckets : Buckets) (revision : Option ℕ) (now : Instant)
    (callback : Callback α) :
    Tracks buckets revision now ∅ callback callback ⟨buckets, false⟩ :=
  ⟨rfl, fun _ _ => rfl, rfl⟩

section Tracks

variable {α : Type} {buckets : Buckets} {revision : Option ℕ} {now : Instant}
  {pending : Pending} {callback : Callback α} {d : Direct}

/-- An operation that reads goes on with what the buckets themselves answer. -/
theorem Tracks.reads {o : Operation} {next : o.Answer → Callback α} {answer : o.Answer}
    (h : Tracks buckets revision now pending callback (.op o next) d)
    (hanswer : Direct.perform now revision o d = (answer, d)) :
    Tracks buckets revision now pending callback (next answer) d := by
  refine ⟨h.runs.trans ?_, h.shows, h.wrote⟩
  rw [Program.run, hanswer]

theorem Tracks.put {bucket key value : String} {next : Unit → Callback α}
    (h : Tracks buckets revision now pending callback (.op (.put bucket key value) next) d) :
    Tracks buckets revision now (pending.set (bucket, key) (some value)) callback (next ())
      ⟨d.buckets.hset bucket key value, true⟩ where
  runs := h.runs
  shows other key' := by rw [hget_hset, Pending.view_set, h.shows]
  wrote := (pending.hasWrites_set bucket key _).symm

theorem Tracks.delete {bucket key : String} {next : Unit → Callback α}
    (h : Tracks buckets revision now pending callback (.op (.delete bucket key) next) d) :
    Tracks buckets revision now (pending.set (bucket, key) none) callback (next ())
      ⟨d.buckets.hdel bucket key, true⟩ where
  runs := h.runs
  shows other key' := by rw [hget_hdel, Pending.view_set, h.shows]
  wrote := (pending.hasWrites_set bucket key _).symm

end Tracks

namespace World

variable {α : Type}

/-- What the world shows of a client in a phase, as long as the key it watches is not written. -/
def Knows (s : World α) (callback : Callback α) : Phase α → Prop
  | .revised revision => revision = s.kv.revision
  | .calling revision now pending rest =>
      revision = s.kv.revision ∧ (∀ c ∈ s.history, c.wrote = true → c.now ≤ now) ∧
        ∃ d, Tracks s.kv.buckets revision now pending callback rest d
  | _ => True

/-- No client has read a later time than the server's. -/
def Timely (s : World α) : Phase α → Prop
  | .calling _ now _ _ => now ≤ serverTime s.microseconds
  | _ => True

/-- The invariant of a run from a store. -/
structure Sound (kv : KV) (s : World α) : Prop where
  results : (serial kv s.history).1 = s.history.map fun c => .ok c.result
  alike : (serial kv s.history).2.Alike s.kv
  ordered : ((s.history.filter Commit.wrote).map Commit.now).Pairwise (· ≤ ·)
  past : ∀ c ∈ s.history, c.now ≤ serverTime s.microseconds
  timely : ∀ client c, s.clients.get? client = some c → s.Timely c.phase
  knows : ∀ client c, s.clients.get? client = some c → c.dirty = false →
    s.Knows c.call.callback c.phase

theorem Sound.start (kv : KV) (microseconds : ℕ) :
    Sound kv (World.start kv microseconds : World α) :=
  ⟨rfl, ⟨fun _ _ => rfl, rfl⟩, .nil, fun _ h => (by cases h), fun _ _ h => (by cases h),
    fun _ _ h => (by cases h)⟩

variable {kv : KV} {s : World α}

theorem serial_append (kv : KV) (cs : List (Commit α)) (c : Commit α) :
    serial kv (cs ++ [c]) =
      ((serial kv cs).1 ++ [(c.execute (serial kv cs).2).1], (c.execute (serial kv cs).2).2) := by
  induction cs generalizing kv with
  | nil => rfl
  | cons d cs ih => rw [List.cons_append, serial, ih, serial, List.cons_append]

/-- A client moves on, and the server stays. -/
theorem Sound.moves (h : Sound kv s) {client : ℕ} {c : Client α}
    (htimely : s.Timely c.phase) (hknows : c.dirty = false → s.Knows c.call.callback c.phase) :
    Sound kv { s with clients := s.clients.set client c } := by
  refine ⟨h.results, h.alike, h.ordered, h.past, fun other found hfound => ?_,
    fun other found hfound hclean => ?_⟩ <;> rw [Dict.get?_set] at hfound <;> split at hfound
  · cases hfound
    exact htimely
  · exact h.timely other found hfound
  · cases hfound
    exact hknows hclean
  · exact h.knows other found hfound hclean

/-- A client whose phase shows nothing of the server. -/
theorem Sound.rests (h : Sound kv s) (client : ℕ) (c : Client α) {phase : Phase α}
    (htimely : s.Timely phase) (hknows : s.Knows c.call.callback phase) :
    Sound kv (s.goto client c phase) :=
  h.moves htimely fun _ => hknows

/-- The callback's result, and the buckets it leaves, are those of the callback alone. -/
theorem Sound.execute (h : Sound kv s) {callback : Callback α} {now : Instant} {pending : Pending}
    {result : α} {d : Direct}
    (hruns : Tracks s.kv.buckets s.kv.revision now pending callback (.ret result) d) :
    let commit : Commit α := ⟨callback, now, pending.hasWrites, result⟩
    (commit.execute (serial kv s.history).2).1 = .ok result ∧
      (commit.execute (serial kv s.history).2).2.Alike
        ⟨queueWrites pending.entries s.kv.buckets,
          if pending.hasWrites then some (s.kv.revision.getD 0 + 1) else s.kv.revision⟩ := by
  obtain ⟨hbuckets, hrevision⟩ := h.alike
  obtain ⟨hresult, hleft, hwrote⟩ := run_alike callback now s.kv.revision hbuckets false
  rw [hruns.runs] at hresult hleft hwrote
  dsimp only [Commit.execute]
  rw [hrevision]
  refine ⟨hresult, fun bucket key => ?_, ?_⟩
  · rw [hleft bucket key, pending.hget_queueWrites]
    exact hruns.shows bucket key
  · dsimp only
    rw [hwrote, Program.run, hruns.wrote]

theorem Timely.later {after : World α} {phase : Phase α} (h : s.Timely phase)
    (htime : s.microseconds ≤ after.microseconds) : after.Timely phase := by
  cases phase with
  | calling revision now pending rest => exact le_trans h (serverTime_mono htime)
  | _ => trivial

theorem Pending.entries_of_no_writes {pending : Pending} (h : pending.hasWrites = false) :
    pending.entries = [] := by
  rw [Pending.hasWrites, decide_eq_false_iff_not, not_not] at h
  exact List.isEmpty_iff.mp h

/-- The other clients after an `EXEC`: one that wrote has dirtied their watched key. -/
theorem Sound.others (h : Sound kv s) {commit : Commit α} {pending : Pending}
    (hwrote : commit.wrote = pending.hasWrites) (after : World α)
    (hkv : after.kv = ⟨queueWrites pending.entries s.kv.buckets,
      if pending.hasWrites then some (s.kv.revision.getD 0 + 1) else s.kv.revision⟩)
    (hhistory : after.history = s.history ++ [commit])
    (htime : after.microseconds = s.microseconds) {other : ℕ} {found : Client α}
    (hfound : Dict.get? (if pending.hasWrites then s.clients.map fun other : Client α =>
      { other with dirty := true } else s.clients) other = some found) :
    after.Timely found.phase ∧
      (found.dirty = false → after.Knows found.call.callback found.phase) := by
  split at hfound
  · next hwrites =>
      rw [Dict.get?_map, Option.map_eq_some_iff] at hfound
      obtain ⟨before, hbefore, rfl⟩ := hfound
      refine ⟨?_, by rintro ⟨⟩⟩
      exact (h.timely other before hbefore).later htime.ge
  · next hwrites =>
      rw [Bool.not_eq_true] at hwrites
      rw [Pending.entries_of_no_writes hwrites, hwrites] at hkv
      have htimely := h.timely other found hfound
      have hknows := h.knows other found hfound
      have hsame : after.kv = s.kv := hkv
      cases hphase : found.phase with
      | calling revision now pending rest =>
          rw [hphase] at htimely hknows
          refine ⟨htimely.later htime.ge, fun hclean => ?_⟩
          obtain ⟨hrevision, hlater, d, htracks⟩ := hknows hclean
          refine ⟨hsame ▸ hrevision, fun c hc hcwrote => ?_, d, hsame ▸ htracks⟩
          rw [hhistory] at hc
          rcases List.mem_append.mp hc with hc | hc
          · exact hlater c hc hcwrote
          · rw [List.mem_singleton.mp hc, hwrote, hwrites] at hcwrote
            cases hcwrote
      | revised revision =>
          rw [hphase] at hknows
          exact ⟨trivial, fun hclean => (hknows hclean).trans (congrArg KV.revision hsame.symm)⟩
      | attempting => exact ⟨trivial, fun _ => trivial⟩
      | watching => exact ⟨trivial, fun _ => trivial⟩
      | returned value => exact ⟨trivial, fun _ => trivial⟩
      | raised error => exact ⟨trivial, fun _ => trivial⟩

theorem Sound.exec (h : Sound kv s) {client : ℕ} {c : Client α} {revision : Option ℕ}
    {now : Instant} {pending : Pending} {result : α} (hclient : s.clients.get? client = some c)
    (hphase : c.phase = .calling revision now pending (.ret result)) :
    Sound kv (s.exec client c now pending result) := by
  rw [World.exec]
  split
  · exact h.moves trivial fun _ => trivial
  · next hdirty =>
      have hknows := h.knows client c hclient (Bool.eq_false_iff.mpr hdirty)
      have htimely := h.timely client c hclient
      rw [hphase] at hknows htimely
      obtain ⟨rfl, hlater, d, htracks⟩ := hknows
      obtain ⟨hresult, halike⟩ := h.execute htracks
      let commit : Commit α := ⟨c.call.callback, now, pending.hasWrites, result⟩
      have hothers := fun other found => @Sound.others α kv s h commit pending rfl
        ⟨⟨queueWrites pending.entries s.kv.buckets,
          if pending.hasWrites then some (s.kv.revision.getD 0 + 1) else s.kv.revision⟩,
          s.microseconds, ∅, s.history ++ [commit]⟩ rfl rfl rfl other found
      refine ⟨?_, ?_, ?_, fun other hother => ?_, fun other found hfound => ?_,
        fun other found hfound => ?_⟩
      · change (serial kv (s.history ++ [commit])).1 = (s.history ++ [commit]).map _
        rw [serial_append, h.results, hresult, List.map_append]
        rfl
      · change (serial kv (s.history ++ [commit])).2.Alike _
        rw [serial_append]
        exact halike
      · change (((s.history ++ [commit]).filter Commit.wrote).map Commit.now).Pairwise _
        rw [List.filter_append, List.map_append, List.pairwise_append]
        refine ⟨h.ordered, ?_, fun t ht t' ht' => ?_⟩
        · rw [List.filter_singleton]
          cases commit.wrote <;> simp
        · obtain ⟨earlier, hearlier, rfl⟩ := List.mem_map.mp ht
          obtain ⟨last, hlast, rfl⟩ := List.mem_map.mp ht'
          obtain ⟨hearlier, hwrote⟩ := List.mem_filter.mp hearlier
          rw [List.mem_singleton.mp (List.mem_filter.mp hlast).1]
          exact hlater earlier hearlier hwrote
      · rcases List.mem_append.mp hother with hother | hother
        · exact h.past other hother
        · rw [List.mem_singleton.mp hother]
          exact htimely
      · change Dict.get? (Dict.set _ _ _) other = _ at hfound
        rw [Dict.get?_set] at hfound
        split at hfound
        · cases hfound
          trivial
        · exact (hothers other found hfound).1
      · change Dict.get? (Dict.set _ _ _) other = _ at hfound
        rw [Dict.get?_set] at hfound
        split at hfound
        · cases hfound
          exact fun _ => trivial
        · exact (hothers other found hfound).2

/-- A callback that has asked for an operation goes on. -/
theorem Sound.asks (h : Sound kv s) {client : ℕ} {c : Client α} {revision : Option ℕ}
    {now : Instant} {pending after : Pending} {rest left : Callback α}
    (hclient : s.clients.get? client = some c)
    (hphase : c.phase = .calling revision now pending rest)
    (hnext : ∀ d, Tracks s.kv.buckets revision now pending c.call.callback rest d →
      ∃ d', Tracks s.kv.buckets revision now after c.call.callback left d') :
    Sound kv (s.goto client c (.calling revision now after left)) := by
  have hknows := h.knows client c hclient
  have htimely := h.timely client c hclient
  rw [hphase] at hknows htimely
  refine h.moves htimely fun hclean => ?_
  obtain ⟨hrevision, hlater, d, htracks⟩ := hknows hclean
  exact ⟨hrevision, hlater, hnext d htracks⟩

theorem Sound.callbackStep (h : Sound kv s) {client : ℕ} {c : Client α} {revision : Option ℕ}
    {now : Instant} {pending : Pending} {rest : Callback α}
    (hclient : s.clients.get? client = some c)
    (hphase : c.phase = .calling revision now pending rest) :
    Sound kv (s.callbackStep client c revision now pending rest) := by
  cases rest with
  | raise error => exact h.rests client c trivial trivial
  | ret result =>
      rw [World.callbackStep]
      split
      · exact h.rests client c trivial trivial
      · split
        · exact h.rests client c trivial trivial
        · exact h.exec hclient hphase
  | op o next =>
      cases o with
      | get bucket key =>
          refine h.asks hclient hphase fun d htracks => ⟨d, htracks.reads ?_⟩
          have hview : d.buckets.hget bucket key =
              (pending.get? (bucket, key)).getD (s.kv.buckets.hget bucket key) :=
            htracks.shows bucket key
          rw [Direct.perform, hview]
          cases pending.get? (bucket, key) <;> rfl
      | items bucket =>
          refine h.asks hclient hphase fun d htracks => ⟨d, htracks.reads ?_⟩
          rw [Direct.perform, sortedItems_congr fun key => (htracks.shows bucket key).trans
            (pending.get?_overlay s.kv.buckets bucket key).symm]
      | put bucket key value => exact h.asks hclient hphase fun d htracks => ⟨_, htracks.put⟩
      | delete bucket key => exact h.asks hclient hphase fun d htracks => ⟨_, htracks.delete⟩
      | now => exact h.asks hclient hphase fun d htracks => ⟨d, htracks.reads rfl⟩
      | revision => exact h.asks hclient hphase fun d htracks => ⟨d, htracks.reads rfl⟩

theorem Sound.command (h : Sound kv s) (client : ℕ) : Sound kv (s.command client) := by
  rw [World.command]
  split
  · exact h
  · next c hclient =>
      split
      · split
        · exact h.rests client c trivial trivial
        · exact h.moves trivial fun _ => trivial
      · split
        · exact h.rests client c trivial trivial
        · exact h.moves trivial fun _ => rfl
      · next revision hphase =>
          refine h.moves le_rfl fun hclean => ?_
          have hknows := h.knows client c hclient hclean
          rw [hphase] at hknows
          subst hknows
          exact ⟨rfl, fun commit hcommit _ => h.past commit hcommit, _, .start ..⟩
      · next hphase => exact h.callbackStep hclient hphase
      · exact h
      · exact h

theorem Sound.step (h : Sound kv s) (i : Move α) : Sound kv (s.step i) := by
  cases i with
  | call client call => exact h.moves trivial fun _ => trivial
  | command client => exact h.command client
  | stop client =>
      have hfound : ∀ other found, (s.clients.erase client).get? other = some found →
          s.clients.get? other = some found := by
        intro other found hfound
        rw [Dict.erase, Dict.get?_filter, Option.filter_eq_some_iff] at hfound
        exact hfound.1
      exact ⟨h.results, h.alike, h.ordered, h.past,
        fun other found hother => h.timely other found (hfound other found hother),
        fun other found hother => h.knows other found (hfound other found hother)⟩
  | tick microseconds =>
      have hlater : s.microseconds ≤ max s.microseconds microseconds := le_max_left _ _
      exact ⟨h.results, h.alike, h.ordered,
        fun c hc => (h.past c hc).trans (serverTime_mono hlater),
        fun other found hother => (h.timely other found hother).later hlater, h.knows⟩

theorem sound_run (kv : KV) (microseconds : ℕ) (inputs : List (Move α)) :
    Sound kv (Machine.run step (World.start kv microseconds) inputs) :=
  Machine.preserved_run (Sound kv) (fun _ i h => h.step i) (Sound.start kv microseconds) inputs

/-! ## Attempts that write nothing -/

/-- The next command of a client ends its attempt without a commit: its callback has raised, or
the key it watches was written. -/
def Fails (s : World α) (client : ℕ) : Prop :=
  ∃ c revision now pending rest, s.clients.get? client = some c ∧
    c.phase = .calling revision now pending rest ∧
      ((∃ error, rest = .raise error) ∨ (∃ result, rest = .ret result) ∧ c.dirty = true)

theorem kv_callbackStep (s : World α) (client : ℕ) (c : Client α) (revision : Option ℕ)
    (now : Instant) (pending : Pending) (rest : Callback α) :
    (s.callbackStep client c revision now pending rest).kv = s.kv ∨
      ∃ commit, (s.callbackStep client c revision now pending rest).history =
        s.history ++ [commit] := by
  cases rest with
  | raise error => exact .inl rfl
  | ret result =>
      rw [callbackStep]
      split
      · exact .inl rfl
      · split
        · exact .inl rfl
        · rw [exec]
          split
          · exact .inl rfl
          · exact .inr ⟨_, rfl⟩
  | op o next => cases o <;> exact .inl rfl

/-- Only a commit writes. -/
theorem kv_step (s : World α) (i : Move α) :
    (s.step i).kv = s.kv ∨ ∃ commit, (s.step i).history = s.history ++ [commit] := by
  cases i with
  | command client =>
      change (s.command client).kv = _ ∨ _
      unfold step command
      dsimp only
      split
      · exact .inl rfl
      · split
        · split <;> exact .inl rfl
        · split <;> exact .inl rfl
        · exact .inl rfl
        · exact kv_callbackStep ..
        · exact .inl rfl
        · exact .inl rfl
  | call client call => exact .inl rfl
  | stop client => exact .inl rfl
  | tick microseconds => exact .inl rfl

theorem history_of_fails {client : ℕ} (h : s.Fails client) :
    (s.command client).history = s.history := by
  obtain ⟨c, revision, now, pending, rest, hclient, hphase, hfails⟩ := h
  rw [command, hclient]
  dsimp only
  rw [hphase]
  dsimp only
  rcases hfails with ⟨error, rfl⟩ | ⟨⟨result, rfl⟩, hdirty⟩
  · rfl
  · rw [callbackStep]
    split
    · rfl
    · split
      · rfl
      · rw [exec, if_pos hdirty]

/-- An attempt that fails leaves the store, and what was committed, as they were. -/
theorem command_of_fails {client : ℕ} (h : s.Fails client) :
    (s.command client).kv = s.kv ∧ (s.command client).history = s.history := by
  have hhistory := history_of_fails h
  refine ⟨?_, hhistory⟩
  rcases kv_step s (.command client) with hkv | ⟨commit, hcommit⟩
  · exact hkv
  · have hlength := congrArg List.length (hcommit.symm.trans hhistory)
    simp at hlength

/-! ## Serializability -/

end World

end Pollard.Stores.Redis
