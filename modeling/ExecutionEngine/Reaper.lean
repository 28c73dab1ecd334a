import ExecutionEngine.ContainerPool

/-!
# One pass of the reaper over the keyspace

`_reap_once` asks Redis for every key that begins with `warm_pool:`, reads each as a
list, schedules a kill for the expired entries and writes the others back. The keys
that begin so are the lists of idle containers and, while a prewarm is in progress,
the lock of its image, which is a string. The pass is given here for any keyspace and
any answer of `SCAN`, which may name a key twice.
-/
namespace ExecutionEngine.ContainerPool
open Transition

/-- A Redis value, of one of the two types that the pool uses. -/
inductive Value
  | list (entries : List Entry)
  | string (lockValue : ℤ)
  deriving DecidableEq, Repr

abbrev Keyspace := String → Option Value

/-- `_pool_key` -/
def poolKey (image : String) : String := "warm_pool:" ++ image

/-- `lock_key` of `ensure_pool_target` -/
def lockKey (image : String) : String := poolKey image ++ ":prewarm_lock"

/-- The pattern `warm_pool:*`. -/
def matchesPool (key : String) : Bool := "warm_pool:".toList.isPrefixOf key.toList

/-- `SCAN` names the keys that match the pattern, of any type, each at least once. -/
def Scans (db : Keyspace) (scan : List String) : Prop :=
  ∀ key, key ∈ scan ↔ (db key).isSome = true ∧ matchesPool key = true

/-- The keyspace and the kills scheduled so far. -/
structure Pass where
  db : Keyspace
  kills : List (String × Option String)

/-- `LRANGE key 0 -1`; `none` is the error for a key that is not a list. -/
def lrange (db : Keyspace) (key : String) : Option (List Entry) :=
  match db key with
  | none => some []
  | some (.list entries) => some entries
  | some (.string _) => none

/-- The arguments of `_kill_container` for an entry. -/
def killArgs (e : Entry) : String × Option String := (e.containerId, some e.tempDir)

/-- `pipe.delete(key)`, and `pipe.rpush(key, *keep)` unless nothing is kept. -/
def replaceList (db : Keyspace) (key : String) (keep : List Entry) : Keyspace :=
  Function.update db key (if keep = [] then none else some (.list keep))

/-- The loop body of `_reap_once`. An exception leaves the pass as it was. -/
def reapKey (limits : Limits) (now : ℤ) (p : Pass) (key : String) : Except Pass Pass :=
  match lrange p.db key with
  | none => .error p
  | some raws =>
    if raws = [] then .ok p
    else .ok {
      db := replaceList p.db key (raws.filter fun e => !expired limits now e)
      kills := p.kills ++ (raws.filter (expired limits now)).map killArgs }

/-- `_reap_once` for the keys that `SCAN` names, in their order. -/
def reapOnce (limits : Limits) (now : ℤ) (db : Keyspace) (scan : List String) :
    Except Pass Pass :=
  scan.foldlM (reapKey limits now) ⟨db, []⟩

/-- The entries of a list; a missing key is the empty list. -/
def entriesAt (db : Keyspace) (key : String) : List Entry :=
  match db key with
  | some (.list entries) => entries
  | _ => []

/-- The pass ends without an exception, every list keeps its live entries in their
order and a kill is scheduled once for each of the others. -/
def ReapsExactly (limits : Limits) (now : ℤ) (db : Keyspace) (scan : List String) : Prop :=
  ∃ p, reapOnce limits now db scan = .ok p ∧
    (∀ image, entriesAt p.db (poolKey image) =
      (entriesAt db (poolKey image)).filter fun e => !expired limits now e) ∧
    p.kills.Perm (scan.dedup.flatMap fun key =>
      ((entriesAt db key).filter (expired limits now)).map killArgs)

variable {limits : Limits} {now : ℤ}

theorem lrange_eq_some {db : Keyspace} {key : String} (h : lrange db key ≠ none) :
    lrange db key = some (entriesAt db key) := by
  unfold lrange entriesAt at *
  split <;> simp_all

@[simp] theorem entriesAt_replaceList (db : Keyspace) (key : String) (keep : List Entry) :
    entriesAt (replaceList db key keep) key = keep := by
  unfold entriesAt replaceList
  by_cases hkeep : keep = [] <;> simp [hkeep]

theorem lrange_replaceList (db : Keyspace) (key : String) (keep : List Entry) :
    lrange (replaceList db key keep) key ≠ none := by
  unfold lrange replaceList
  by_cases hkeep : keep = [] <;> simp [hkeep]

theorem replaceList_of_ne (db : Keyspace) {key key' : String} (keep : List Entry)
    (h : key' ≠ key) : replaceList db key keep key' = db key' :=
  Function.update_of_ne h _ _

/-- One key: the entries are divided into those kept and those to be killed. -/
theorem reapKey_spec (limits : Limits) (now : ℤ) {p : Pass} {key : String}
    (h : lrange p.db key ≠ none) :
    ∃ q, reapKey limits now p key = .ok q ∧
      entriesAt q.db key = (entriesAt p.db key).filter (fun e => !expired limits now e) ∧
      lrange q.db key ≠ none ∧ (∀ key', key' ≠ key → q.db key' = p.db key') ∧
      q.kills = p.kills ++ ((entriesAt p.db key).filter (expired limits now)).map killArgs := by
  unfold reapKey
  rw [lrange_eq_some h]
  by_cases hempty : entriesAt p.db key = []
  · exact ⟨p, by simp [hempty], by simp [hempty], h, fun _ _ => rfl, by simp [hempty]⟩
  · exact ⟨_, if_neg hempty, entriesAt_replaceList _ _ _, lrange_replaceList _ _ _,
      fun _ hne => replaceList_of_ne _ _ hne, rfl⟩

/-- The pass after the keys `past` have been swept. -/
structure Swept (limits : Limits) (now : ℤ) (db : Keyspace) (past : List String) (p : Pass) :
    Prop where
  swept : ∀ key ∈ past, entriesAt p.db key =
    (entriesAt db key).filter fun e => !expired limits now e
  lists : ∀ key ∈ past, lrange p.db key ≠ none
  untouched : ∀ key, key ∉ past → p.db key = db key
  kills : p.kills.Perm (past.dedup.flatMap fun key =>
    ((entriesAt db key).filter (expired limits now)).map killArgs)

theorem dedup_append_singleton_of_mem {past : List String} {key : String} (h : key ∈ past) :
    (past ++ [key]).dedup.Perm past.dedup := by
  apply (List.perm_ext_iff_of_nodup (List.nodup_dedup _) (List.nodup_dedup _)).mpr
  intro k
  simp only [List.mem_dedup, List.mem_append, List.mem_singleton]
  exact ⟨fun hk => hk.elim id fun heq => heq ▸ h, .inl⟩

theorem dedup_append_singleton {past : List String} {key : String} (h : key ∉ past) :
    (past ++ [key]).dedup.Perm (past.dedup ++ [key]) := by
  have hnodup : (past.dedup ++ [key]).Nodup := by
    rw [List.nodup_append]
    refine ⟨List.nodup_dedup _, List.nodup_singleton _, ?_⟩
    intro k hk k' hk' heq
    rw [List.mem_singleton.mp hk'] at heq
    exact h (heq ▸ List.mem_dedup.mp hk)
  apply (List.perm_ext_iff_of_nodup (List.nodup_dedup _) hnodup).mpr
  intro k
  simp only [List.mem_dedup, List.mem_append, List.mem_singleton]

theorem Swept.step {db : Keyspace} {past : List String} {p : Pass} {key : String}
    (h : Swept limits now db past p) (hkey : lrange db key ≠ none) :
    ∃ q, reapKey limits now p key = .ok q ∧ Swept limits now db (past ++ [key]) q := by
  have hlist : lrange p.db key ≠ none := by
    by_cases hmem : key ∈ past
    · exact h.lists key hmem
    · simpa [lrange, h.untouched key hmem] using hkey
  obtain ⟨q, hq, hentries, hlrange, hother, hkills⟩ := reapKey_spec limits now hlist
  refine ⟨q, hq, ?_, ?_, ?_, ?_⟩
  · intro k hk
    by_cases hne : k = key
    · subst hne
      rw [hentries]
      by_cases hmem : k ∈ past
      · rw [h.swept k hmem, List.filter_filter]
        simp only [Bool.and_self]
      · simp only [entriesAt, h.untouched k hmem]
    · have hmem : k ∈ past := by simpa [hne] using hk
      simpa only [entriesAt, hother k hne] using h.swept k hmem
  · intro k hk
    by_cases hne : k = key
    · exact hne ▸ hlrange
    · have hmem : k ∈ past := by simpa [hne] using hk
      simpa only [lrange, hother k hne] using h.lists k hmem
  · intro k hk
    have hk' : k ∉ past ∧ k ≠ key := by simpa using hk
    rw [hother k hk'.2, h.untouched k hk'.1]
  · rw [hkills]
    by_cases hmem : key ∈ past
    · -- a key that SCAN names again has no expired entry left
      have hnone : (entriesAt p.db key).filter (expired limits now) = [] := by
        rw [h.swept key hmem, List.filter_filter, List.filter_eq_nil_iff]
        intro e _
        cases expired limits now e <;> simp
      rw [hnone, List.map_nil, List.append_nil]
      exact h.kills.trans ((dedup_append_singleton_of_mem hmem).symm.flatMap_right _)
    · have hsame : entriesAt p.db key = entriesAt db key := by
        simp only [entriesAt, h.untouched key hmem]
      rw [hsame]
      refine List.Perm.trans ?_ ((dedup_append_singleton hmem).symm.flatMap_right _)
      rw [List.flatMap_append, List.flatMap_singleton]
      exact h.kills.append_right _

theorem Swept.run {db : Keyspace} (scan : List String) {past : List String} {p : Pass}
    (h : Swept limits now db past p) (hscan : ∀ key ∈ scan, lrange db key ≠ none) :
    ∃ q, scan.foldlM (reapKey limits now) p = .ok q ∧
      Swept limits now db (past ++ scan) q := by
  induction scan generalizing past p with
  | nil => exact ⟨p, rfl, by simpa using h⟩
  | cons key scan ih =>
    obtain ⟨q, hq, hswept⟩ := h.step (hscan key (by simp))
    obtain ⟨r, hr, hrest⟩ := ih hswept fun k hk => hscan k (by simp [hk])
    refine ⟨r, ?_, by simpa [List.append_assoc] using hrest⟩
    rw [List.foldlM_cons, hq]
    exact hr

theorem Swept.start (limits : Limits) (now : ℤ) (db : Keyspace) :
    Swept limits now db [] ⟨db, []⟩ where
  swept := by simp
  lists := by simp
  untouched := fun _ _ => rfl
  kills := by simp

/-- A key that is not a list is still there when the pass comes to it. -/
theorem not_ok_of_string {db : Keyspace} (scan : List String) {past : List String} {p q : Pass}
    (h : Swept limits now db past p) {key : String} (hkey : key ∈ scan)
    (hstring : lrange db key = none) (hpast : ∀ k ∈ past, lrange db k ≠ none) :
    scan.foldlM (reapKey limits now) p ≠ .ok q := by
  induction scan generalizing past p with
  | nil => simp at hkey
  | cons k scan ih =>
    rw [List.foldlM_cons]
    by_cases hk : lrange db k = none
    · have hfresh : k ∉ past := fun hmem => hpast k hmem hk
      have herror : reapKey limits now p k = .error p := by
        have : lrange p.db k = none := by simpa [lrange, h.untouched k hfresh] using hk
        simp [reapKey, this]
      rw [herror]
      intro hok
      cases hok
    · obtain ⟨r, hr, hswept⟩ := h.step hk
      rw [hr]
      have hne : key ≠ k := fun heq => hk (heq ▸ hstring)
      have hmem : key ∈ scan := by simpa [hne] using hkey
      refine ih hswept hmem ?_
      intro k' hk'
      rcases List.mem_append.mp hk' with hold | hnew
      · exact hpast k' hold
      · exact List.mem_singleton.mp hnew ▸ hk

theorem matches_poolKey (image : String) : matchesPool (poolKey image) = true := by
  rw [matchesPool, poolKey, List.isPrefixOf_iff_prefix, String.toList_append]
  exact List.prefix_append _ _

/-- On any keyspace the pass does its work exactly when no key under the pattern is a
string. -/
theorem reapsExactly_iff {db : Keyspace} {scan : List String} (hscan : Scans db scan) :
    ReapsExactly limits now db scan ↔ ∀ key ∈ scan, lrange db key ≠ none := by
  constructor
  · rintro ⟨p, hp, -, -⟩ key hkey hstring
    exact not_ok_of_string scan (.start limits now db) hkey hstring (by simp) hp
  · intro h
    obtain ⟨p, hp, hswept⟩ := (Swept.start limits now db).run scan h
    rw [List.nil_append] at hswept
    refine ⟨p, hp, ?_, hswept.kills⟩
    intro image
    by_cases hmem : poolKey image ∈ scan
    · exact hswept.swept _ hmem
    · -- a key that is not named does not exist
      have hnone : db (poolKey image) = none := by
        by_contra hsome
        exact hmem ((hscan _).mpr ⟨Option.isSome_iff_ne_none.mpr hsome, matches_poolKey image⟩)
      simp [entriesAt, hswept.untouched _ hmem, hnone]

/-- The lock of an image, as long as Redis keeps it. -/
def liveLock (s : State) (image : String) : Option Lock :=
  (s.lock image).filter fun l => decide (s.now < l.expiresAt)

/-- The keys of the pool. The images are those of the executors, which are also the
images that can be prewarmed. An empty list has no key. -/
def keyspace (s : State) : Keyspace := fun key =>
  match prewarmSpecs.find? fun image => decide (key = poolKey image) with
  | some image => if s.pool image = [] then none else some (.list (s.pool image))
  | none =>
    match prewarmSpecs.find? fun image => decide (key = lockKey image) with
    | some image => (liveLock s image).map fun l => .string l.value
    | none => none

theorem poolKey_injective : Function.Injective poolKey :=
  fun _ _ h => String.append_right_inj _ |>.mp h

theorem lockKey_injective : Function.Injective lockKey :=
  fun _ _ h => poolKey_injective (String.append_left_inj _ |>.mp h)

theorem poolKey_ne_lockKey : ∀ image ∈ prewarmSpecs, ∀ image' ∈ prewarmSpecs,
    poolKey image ≠ lockKey image' := by
  decide

theorem find_key {key : String → String} (hinj : Function.Injective key) {image : String}
    (h : image ∈ prewarmSpecs) :
    (prewarmSpecs.find? fun i => decide (key image = key i)) = some image := by
  cases hfind : prewarmSpecs.find? fun i => decide (key image = key i) with
  | none =>
    have := List.find?_eq_none.mp hfind image h
    simp at this
  | some i =>
    have heq : key image = key i := by simpa using List.find?_some hfind
    rw [hinj heq]

theorem keyspace_poolKey (s : State) {image : String} (h : image ∈ prewarmSpecs) :
    keyspace s (poolKey image) =
      if s.pool image = [] then none else some (.list (s.pool image)) := by
  rw [keyspace, find_key poolKey_injective h]

theorem keyspace_lockKey (s : State) {image : String} (h : image ∈ prewarmSpecs) :
    keyspace s (lockKey image) = (liveLock s image).map fun l => .string l.value := by
  have hnone : (prewarmSpecs.find? fun i => decide (lockKey image = poolKey i)) = none := by
    rw [List.find?_eq_none]
    intro i hi heq
    have hsame : lockKey image = poolKey i := by simpa using heq
    exact poolKey_ne_lockKey i hi image h hsame.symm
  rw [keyspace, hnone, find_key lockKey_injective h]

theorem keyspace_cases (s : State) (key : String) :
    (∃ image ∈ prewarmSpecs, key = poolKey image) ∨
      (∃ image ∈ prewarmSpecs, key = lockKey image) ∨ keyspace s key = none := by
  cases hpool : prewarmSpecs.find? fun image => decide (key = poolKey image) with
  | some image =>
    exact .inl ⟨image, List.mem_of_find?_eq_some hpool, by simpa using List.find?_some hpool⟩
  | none =>
    cases hlock : prewarmSpecs.find? fun image => decide (key = lockKey image) with
    | some image =>
      exact .inr (.inl ⟨image, List.mem_of_find?_eq_some hlock,
        by simpa using List.find?_some hlock⟩)
    | none => exact .inr (.inr (by rw [keyspace, hpool, hlock]))

/-- An answer of `SCAN`: the lists and then the locks. -/
def scanIter (s : State) : List String :=
  (prewarmSpecs.filter fun image => decide (s.pool image ≠ [])).map poolKey ++
    (prewarmSpecs.filter fun image => (liveLock s image).isSome).map lockKey

theorem matches_lockKey (image : String) : matchesPool (lockKey image) = true := by
  rw [matchesPool, lockKey, poolKey, List.isPrefixOf_iff_prefix, String.toList_append,
    String.toList_append, List.append_assoc]
  exact List.prefix_append _ _

theorem scans_scanIter (s : State) : Scans (keyspace s) (scanIter s) := by
  intro key
  constructor
  · intro h
    rcases List.mem_append.mp h with hlist | hlock
    · obtain ⟨image, himage, rfl⟩ := List.mem_map.mp hlist
      obtain ⟨hspec, hne⟩ := List.mem_filter.mp himage
      rw [keyspace_poolKey s hspec, if_neg (by simpa using hne)]
      exact ⟨rfl, matches_poolKey image⟩
    · obtain ⟨image, himage, rfl⟩ := List.mem_map.mp hlock
      obtain ⟨hspec, hlive⟩ := List.mem_filter.mp himage
      rw [keyspace_lockKey s hspec, Option.isSome_map]
      exact ⟨hlive, matches_lockKey image⟩
  · rintro ⟨hsome, -⟩
    obtain ⟨image, hspec, rfl⟩ | ⟨image, hspec, rfl⟩ | hnone := keyspace_cases s key
    · rw [keyspace_poolKey s hspec] at hsome
      have hne : s.pool image ≠ [] := by
        intro hempty
        simp [hempty] at hsome
      exact List.mem_append_left _ (List.mem_map_of_mem (List.mem_filter.mpr ⟨hspec, by simpa⟩))
    · rw [keyspace_lockKey s hspec, Option.isSome_map] at hsome
      exact List.mem_append_right _ (List.mem_map_of_mem (List.mem_filter.mpr ⟨hspec, hsome⟩))
    · rw [hnone] at hsome
      cases hsome

/-- In any state of the pool and for any answer of `SCAN`, the pass does its work
exactly when no prewarm lock exists. -/
theorem reaper_exact_iff (limits : Limits) (now : ℤ) (s : State) (scan : List String)
    (hscan : Scans (keyspace s) scan) :
    ReapsExactly limits now (keyspace s) scan ↔
      ∀ image ∈ prewarmSpecs, liveLock s image = none := by
  rw [reapsExactly_iff hscan]
  constructor
  · intro h image hspec
    by_contra hlive
    obtain ⟨l, hl⟩ := Option.ne_none_iff_exists'.mp hlive
    have hkey : keyspace s (lockKey image) = some (.string l.value) := by
      rw [keyspace_lockKey s hspec, hl, Option.map_some]
    have hmem : lockKey image ∈ scan :=
      (hscan _).mpr ⟨by rw [hkey]; rfl, matches_lockKey image⟩
    exact h _ hmem (by simp [lrange, hkey])
  · intro h key hkey
    obtain ⟨image, hspec, rfl⟩ | ⟨image, hspec, rfl⟩ | hnone := keyspace_cases s key
    · simp only [lrange, keyspace_poolKey s hspec]
      split_ifs <;> simp
    · simp [lrange, keyspace_lockKey s hspec, h image hspec]
    · simp [lrange, hnone]

/-- Two containers are in the pool of Go, one of them born long ago. -/
def oneExpired : State :=
  { State.empty with
    now := 1000
    pool := Function.update State.empty.pool "go-sandbox:latest"
      [⟨⟨"young", "/tmp/y", "/host/y"⟩, 990⟩, ⟨⟨"old", "/tmp/o", "/host/o"⟩, 10⟩] }

theorem reaper_exact_without_prewarm :
    ReapsExactly ⟨300, 50⟩ 1000 (keyspace oneExpired) (scanIter oneExpired) :=
  (reaper_exact_iff ⟨300, 50⟩ 1000 oneExpired (scanIter oneExpired) (scans_scanIter oneExpired)).mpr
    fun _ _ => rfl

/-- While a prewarm holds its lock, `LRANGE` of the lock ends the pass. -/
theorem reaper_stops_at_prewarm_lock :
    ¬ ∀ (limits : Limits) (acts : List Action) (s : State) (now : ℤ) (scan : List String),
      (system limits).run acts = some s → Scans (keyspace s) scan →
        ReapsExactly limits now (keyspace s) scan := by
  intro h
  let acts : List Action := [.ensurePoolTarget 1 "go-sandbox:latest" 1, .setLock 1]
  have hexact := h ⟨300, 50⟩ acts _ 0 _ rfl (scans_scanIter _)
  have hlist := (reapsExactly_iff (scans_scanIter _)).mp hexact
    (lockKey "go-sandbox:latest") (by decide)
  exact hlist (by decide)

theorem keyspace_congr {s s' : State} {key : String}
    (hpool : ∀ image ∈ prewarmSpecs, key = poolKey image → s'.pool image = s.pool image)
    (hlock : s'.lock = s.lock) (hnow : s'.now = s.now) : keyspace s' key = keyspace s key := by
  have hlive : ∀ image, liveLock s' image = liveLock s image := by
    intro image
    simp only [liveLock, hlock, hnow]
  unfold keyspace
  cases hfind : prewarmSpecs.find? fun image => decide (key = poolKey image) with
  | some image =>
    have heq : key = poolKey image := by simpa using List.find?_some hfind
    simp only [hpool image (List.mem_of_find?_eq_some hfind) heq]
  | none => simp only [hlive]

theorem keyspace_setPool {s s' : State} {image : String} {keep : List Entry}
    (hspec : image ∈ prewarmSpecs) (hpool : s'.pool = Function.update s.pool image keep)
    (hlock : s'.lock = s.lock) (hnow : s'.now = s.now) :
    keyspace s' = replaceList (keyspace s) (poolKey image) keep := by
  funext key
  by_cases hkey : key = poolKey image
  · subst hkey
    rw [keyspace_poolKey s' hspec, hpool, replaceList, Function.update_self, Function.update_self]
  · rw [replaceList_of_ne _ _ hkey]
    refine keyspace_congr ?_ hlock hnow
    intro image' _ heq
    have hne : image' ≠ image := fun h => hkey (h ▸ heq)
    rw [hpool, Function.update_of_ne hne]

theorem killAll_kills (s : State) (entries : List Entry) :
    (s.killAll entries).kills.reverse = s.kills.reverse ++ entries.map killArgs := by
  induction entries generalizing s with
  | nil => simp [State.killAll]
  | cons e entries ih =>
    have h := ih (s.killContainer e.toContainer)
    simpa [State.killAll, State.killContainer, killArgs] using h

/-- The loop body is `LRANGE`, the division of the entries and the pipeline. -/
theorem reapKey_simulated (limits : Limits) {s : State} {t : ℕ} {image : String}
    (hspec : image ∈ prewarmSpecs)
    (ht : s.tasks t = .scanning now) :
    ∃ acts s', (system limits).exec s acts = some s' ∧ s'.tasks t = .scanning now ∧
      reapKey limits now ⟨keyspace s, s.kills.reverse⟩ (poolKey image) =
        .ok ⟨keyspace s', s'.kills.reverse⟩ := by
  have hentries : lrange (keyspace s) (poolKey image) = some (s.pool image) := by
    simp only [lrange, keyspace_poolKey s hspec]
    split_ifs with hempty
    · rw [hempty]
    · rfl
  by_cases hempty : s.pool image = []
  · have hlrange : step limits s (.lrange t image) = some s := by
      simp only [step, ht, if_pos hempty]
    refine ⟨[.lrange t image], s, by simp [System.exec, system, hlrange], ht, ?_⟩
    simp only [reapKey, hentries, if_pos hempty]
  · let raws := s.pool image
    let keep := raws.filter fun e => !expired limits now e
    let s₁ := s.become t (.sifting now image raws)
    have h₁ : step limits s (.lrange t image) = some s₁ := by
      simp only [step, ht, if_neg hempty]
      rfl
    have ht₁ : s₁.tasks t = .sifting now image raws := by simp [s₁, State.become]
    let killed := s₁.killAll (raws.filter (expired limits now))
    let s₂ := killed.become t (.rebuilding now image raws keep)
    have h₂ : step limits s₁ (.sift t) = some s₂ := by
      simp only [step, ht₁]
      rfl
    have ht₂ : s₂.tasks t = .rebuilding now image raws keep := by simp [s₂, State.become]
    let s₃ := (s₂.setPool image keep).become t (.scanning now)
    have h₃ : step limits s₂ (.rebuild t) = some s₃ := by
      simp only [step, ht₂]
      rfl
    obtain ⟨hpool, hlock, hnow, -⟩ := killAll_frame s₁ (raws.filter (expired limits now))
    refine ⟨[.lrange t image, .sift t, .rebuild t], s₃, ?_, by simp [s₃, State.become], ?_⟩
    · simp [System.exec, system, h₁, h₂, h₃]
    · have hdb : keyspace s₃ = replaceList (keyspace s) (poolKey image) keep := by
        refine keyspace_setPool hspec ?_ hlock hnow
        change Function.update killed.pool image keep = Function.update s.pool image keep
        rw [hpool]
        rfl
      have hkills : s₃.kills.reverse =
          s.kills.reverse ++ (raws.filter (expired limits now)).map killArgs :=
        killAll_kills s₁ _
      rw [hdb, hkills]
      simp only [reapKey, hentries, if_neg hempty]
      rfl

/-- A pass that meets lists only is a run of the reaper of `ContainerPool` that no
other task interleaves with. -/
theorem reapOnce_simulated (images : List String) (hspec : ∀ image ∈ images, image ∈ prewarmSpecs)
    {s : State} {t : ℕ} (ht : s.tasks t = .scanning now) :
    ∃ acts s', (system limits).exec s acts = some s' ∧ s'.tasks t = .scanning now ∧
      (images.map poolKey).foldlM (reapKey limits now) ⟨keyspace s, s.kills.reverse⟩ =
        .ok ⟨keyspace s', s'.kills.reverse⟩ := by
  induction images generalizing s with
  | nil => exact ⟨[], s, rfl, ht, rfl⟩
  | cons image images ih =>
    obtain ⟨as, s₁, hexec, ht₁, hkey⟩ :=
      reapKey_simulated limits (hspec image (by simp)) ht
    obtain ⟨bs, s₂, hexec₂, ht₂, hrest⟩ := ih (fun i hi => hspec i (by simp [hi])) ht₁
    refine ⟨as ++ bs, s₂, (system limits).exec_append hexec hexec₂, ht₂, ?_⟩
    rw [List.map_cons, List.foldlM_cons, hkey]
    exact hrest

end ExecutionEngine.ContainerPool
