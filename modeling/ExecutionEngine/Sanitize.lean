import ExecutionEngine.ContainerPool
import Mathlib.Data.List.Sort
import Mathlib.Data.List.Lex
import Mathlib.Data.Char

/-!
# Cleaning a container before reuse

`_sanitize` runs one shell script in the container: a loop that kills every
process listed in `/proc` except PID 1, and after the loop a wipe of `/app` by two
globs. The shell is itself listed in `/proc`. The loop therefore ends with the
shell, at the place its own PID takes in the order of `ls`, and the wipe is never
reached. `release` looks at nothing but the liveness of PID 1.
-/
namespace ExecutionEngine.Sanitize
open ContainerPool

/-- The elements of the two patterns of the script. -/
inductive Glob
  | char (b : UInt8)
  | noneOf (bs : List UInt8)
  | star
  deriving DecidableEq, Repr

/-- The byte of a period. -/
def dot : UInt8 := 46

/-- A name of a directory entry: not empty, neither `.` nor `..`, without a NUL
byte and without a slash. -/
structure FileName where
  bytes : List UInt8
  valid : bytes ≠ [] ∧ bytes ≠ [dot] ∧ bytes ≠ [dot, dot] ∧ 0 ∉ bytes ∧ 47 ∉ bytes
  deriving DecidableEq, Repr

namespace Glob

/-- Pattern matching on the bytes of a name. -/
def matchBytes : List Glob → List UInt8 → Bool
  | [], bs => bs.isEmpty
  | .char b :: ps, bs => match bs with
    | [] => false
    | c :: cs => c == b && matchBytes ps cs
  | .noneOf s :: ps, bs => match bs with
    | [] => false
    | c :: cs => !s.contains c && matchBytes ps cs
  | .star :: ps, bs => bs.tails.any (matchBytes ps)

/-- Pathname expansion: a leading period is matched by a period of the pattern
only. -/
def expands (p : List Glob) (name : FileName) : Bool :=
  (name.bytes.head? != some dot || p.head? == some (.char dot)) && matchBytes p name.bytes

/-- `*` -/
def visible : List Glob := [.star]

/-- `.[!.]*` -/
def hidden : List Glob := [.char dot, .noneOf [dot], .star]

@[simp] theorem matchBytes_star (bs : List UInt8) : matchBytes [.star] bs = true := by
  simp only [matchBytes, List.any_eq_true]
  exact ⟨[], by simp, rfl⟩

theorem expands_visible (name : FileName) :
    expands visible name = true ↔ name.bytes.head? ≠ some dot := by
  simp [expands, visible]

theorem expands_hidden (name : FileName) :
    expands hidden name = true ↔ ∃ b cs, name.bytes = dot :: b :: cs ∧ b ≠ dot := by
  obtain ⟨bytes, hvalid⟩ := name
  match bytes with
  | [] => simp [expands, hidden, matchBytes]
  | [a] => simp [expands, hidden, matchBytes]
  | a :: b :: cs =>
    by_cases ha : a = dot <;> simp [expands, hidden, matchBytes, ha]

end Glob

/-- The processes of a container and the entries of its directory `/app`. A
container without PID 1 has no process at all. -/
structure Sandbox where
  image : String
  pids : List ℕ
  app : List FileName
  positive : 0 ∉ pids
  rooted : 1 ∈ pids ∨ pids = []
  deriving DecidableEq, Repr

namespace Sandbox

/-- `docker inspect --format {{.State.Running}}` prints `true`. -/
def running (s : Sandbox) : Bool := s.pids.contains 1

/-- Nothing of a submission is left: only PID 1 runs and `/app` is empty. -/
def Clean (s : Sandbox) : Prop := (∀ p ∈ s.pids, p = 1) ∧ s.app = []

instance (s : Sandbox) : Decidable s.Clean := inferInstanceAs (Decidable (_ ∧ _))

/-- `kill -9` from inside the container; PID 1 is shielded from its own children. -/
def kill9 (s : Sandbox) (pid : ℕ) : Sandbox where
  image := s.image
  pids := s.pids.filter fun p => p == 1 || p != pid
  app := s.app
  positive := fun h => s.positive (List.mem_filter.mp h).1
  rooted := s.rooted.imp (fun h => List.mem_filter.mpr ⟨h, rfl⟩) fun h => by simp [h]

/-- `rm -rf /app/* /app/.[!.]*` -/
def wipe (s : Sandbox) : Sandbox :=
  { s with
    app := s.app.filter fun f => !(Glob.expands Glob.visible f || Glob.expands Glob.hidden f) }

end Sandbox

/-- The processes of one `docker exec`: the shell of the script, and those that the
command substitution starts for `ls` and `grep` and that have ended when the loop
begins. The kernel gives them PIDs that are not in use. -/
structure Exec (s : Sandbox) where
  shell : ℕ
  helpers : List ℕ
  shell_gt : 1 < shell
  fresh : shell ∉ s.pids
  helpers_fresh : ∀ p ∈ helpers, p ≠ shell ∧ p ∉ s.pids

/-- The name of a process in `/proc`. -/
def decimal (pid : ℕ) : List Char := Nat.toDigits 10 pid

/-- The process comes before the other one in the output of `ls /proc`. -/
def lsBefore (p q : ℕ) : Prop := decimal p < decimal q

instance (p q : ℕ) : Decidable (lsBefore p q) := inferInstanceAs (Decidable (_ < _))

/-- `ls /proc | grep -E '^[0-9]+$'` -/
def listing (s : Sandbox) (x : Exec s) : List ℕ :=
  (x.shell :: (x.helpers ++ s.pids)).insertionSort fun p q => decimal p ≤ decimal q

/-- The loop of the script. The second component says whether the shell is still
there to go on with the script. -/
def killLoop (shell : ℕ) : List ℕ → Sandbox → Sandbox × Bool
  | [], s => (s, true)
  | pid :: rest, s =>
    if pid > 1 then
      if pid = shell then (s, false) else killLoop shell rest (s.kill9 pid)
    else killLoop shell rest s

/-- The whole script. -/
def script (s : Sandbox) (x : Exec s) : Sandbox :=
  match killLoop x.shell (listing s x) s with
  | (s', true) => s'.wipe
  | (s', false) => s'

/-- `_sanitize`: the exit code of `docker exec` is not looked at. A container that
does not run executes nothing. -/
def sanitize (s : Sandbox) (x : Exec s) : Sandbox × Bool :=
  let s' := if s.running then script s x else s
  (s', s'.running)

theorem decimal_injective : Function.Injective decimal := by
  intro p q h
  have hp := Nat.ofDigitChars_ten_toDigits (n := p)
  rw [show Nat.toDigits 10 p = Nat.toDigits 10 q from h] at hp
  rw [← hp, Nat.ofDigitChars_ten_toDigits]

theorem mem_kill9 {s : Sandbox} {p pid : ℕ} :
    p ∈ (s.kill9 pid).pids ↔ p ∈ s.pids ∧ (p = 1 ∨ p ≠ pid) := by
  simp [Sandbox.kill9]

/-- The loop up to the PID of the shell. -/
theorem killLoop_of_shell {shell : ℕ} (hshell : 1 < shell) {before : List ℕ} (after : List ℕ)
    (hb : shell ∉ before) (s : Sandbox) :
    ∃ s', killLoop shell (before ++ shell :: after) s = (s', false) ∧ s'.image = s.image ∧
      s'.app = s.app ∧ ∀ p, p ∈ s'.pids ↔ p ∈ s.pids ∧ (p ≤ 1 ∨ p ∉ before) := by
  induction before generalizing s with
  | nil => exact ⟨s, by simp [killLoop, hshell], rfl, rfl, by simp⟩
  | cons q before ih =>
    obtain ⟨hq, hb⟩ := not_or.mp (List.mem_cons.not.mp hb)
    by_cases hq1 : q > 1
    · obtain ⟨s', hrun, himage, happ, hpids⟩ := ih hb (s.kill9 q)
      refine ⟨s', by simp [killLoop, hq1, Ne.symm hq, hrun], himage, happ, fun p => ?_⟩
      rw [hpids, mem_kill9, List.mem_cons]
      have hpos : p ∈ s.pids → p ≠ 0 := fun hp h0 => s.positive (h0 ▸ hp)
      grind
    · obtain ⟨s', hrun, himage, happ, hpids⟩ := ih hb s
      refine ⟨s', by simp [killLoop, hq1, hrun], himage, happ, fun p => ?_⟩
      rw [hpids, List.mem_cons]
      grind

theorem pairwise_listing (s : Sandbox) (x : Exec s) :
    (listing s x).Pairwise fun p q => decimal p ≤ decimal q :=
  have : Std.Total fun p q => decimal p ≤ decimal q := ⟨fun p q => le_total (decimal p) (decimal q)⟩
  have : IsTrans ℕ fun p q => decimal p ≤ decimal q := ⟨fun _ _ _ => le_trans⟩
  List.pairwise_insertionSort _ _

/-- The processes listed before the shell are those whose name sorts before its
PID. -/
theorem listing_split (s : Sandbox) (x : Exec s) :
    ∃ before after, listing s x = before ++ x.shell :: after ∧ x.shell ∉ before ∧
      ∀ p ∈ s.pids, p ∈ before ↔ lsBefore p x.shell := by
  have hmem : x.shell ∈ listing s x := by simp [listing]
  obtain ⟨before, after, hsplit, hnot⟩ := List.eq_append_cons_of_mem hmem
  refine ⟨before, after, hsplit, hnot, fun p hp => ⟨fun hpb => ?_, fun hlt => ?_⟩⟩
  · have hle : decimal p ≤ decimal x.shell := by
      have hsorted := pairwise_listing s x
      rw [hsplit, List.pairwise_append] at hsorted
      exact hsorted.2.2 p hpb x.shell (by simp)
    exact lt_of_le_of_ne hle fun h => hnot (decimal_injective h ▸ hpb)
  · have hin : p ∈ before ++ x.shell :: after := by
      rw [← hsplit]
      simp [listing, hp]
    obtain hpb | hpa := List.mem_append.mp hin
    · exact hpb
    · have hle : decimal x.shell ≤ decimal p := by
        obtain rfl | hpa := List.mem_cons.mp hpa
        · exact le_rfl
        · have hsorted := pairwise_listing s x
          rw [hsplit, List.pairwise_append, List.pairwise_cons] at hsorted
          exact hsorted.2.1.1 p hpa
      exact absurd hlt (not_lt.mpr hle)

/-- The shell kills itself before the wipe: `/app` is left as it was, and of the
processes only those remain that sort after the shell. -/
theorem script_spec (s : Sandbox) (x : Exec s) :
    (script s x).app = s.app ∧
      ∀ p, p ∈ (script s x).pids ↔ p ∈ s.pids ∧ (p = 1 ∨ ¬ lsBefore p x.shell) := by
  obtain ⟨before, after, hsplit, hnot, hbefore⟩ := listing_split s x
  obtain ⟨s', hrun, -, happ, hpids⟩ := killLoop_of_shell x.shell_gt after hnot s
  have hscript : script s x = s' := by
    simp [script, hsplit, hrun]
  rw [hscript]
  refine ⟨happ, fun p => ?_⟩
  rw [hpids]
  refine and_congr_right fun hp => ?_
  have hpos : p ≠ 0 := fun h0 => s.positive (h0 ▸ hp)
  have hone : p ≤ 1 ↔ p = 1 := by omega
  rw [hbefore p hp, hone]

theorem script_running {s : Sandbox} (x : Exec s) (h : s.running = true) :
    (script s x).running = true := by
  simp only [Sandbox.running, List.contains_iff_mem] at h ⊢
  exact ((script_spec s x).2 1).mpr ⟨h, .inl rfl⟩

/-- When the script leaves a container clean. -/
theorem clean_script_iff (s : Sandbox) (x : Exec s) :
    (script s x).Clean ↔ s.app = [] ∧ ∀ p ∈ s.pids, p ≠ 1 → lsBefore p x.shell := by
  obtain ⟨happ, hpids⟩ := script_spec s x
  rw [Sandbox.Clean, happ, and_comm]
  refine and_congr_right fun _ => forall_congr' fun p => ?_
  rw [hpids]
  tauto

/-- Had the wipe been reached, it would leave the names that begin with two
periods. -/
theorem mem_wipe_iff (s : Sandbox) (f : FileName) :
    f ∈ s.wipe.app ↔ f ∈ s.app ∧ ∃ b cs, f.bytes = dot :: dot :: b :: cs := by
  have hname : (Glob.expands Glob.visible f || Glob.expands Glob.hidden f) = false ↔
      ∃ b cs, f.bytes = dot :: dot :: b :: cs := by
    rw [Bool.or_eq_false_iff, ← Bool.not_eq_true, ← Bool.not_eq_true, Glob.expands_visible,
      Glob.expands_hidden]
    obtain ⟨bytes, hempty, hdot, hdots, -⟩ := f
    match bytes with
    | [] => exact absurd rfl hempty
    | [a] => simpa using hdot
    | [a, b] =>
      have hb : a = dot → b ≠ dot := fun ha hb => hdots (by rw [ha, hb])
      simpa using fun ha => ⟨ha, hb ha⟩
    | a :: b :: c :: cs =>
      simp only [List.head?_cons, ne_eq, Option.some.injEq, not_not, List.cons.injEq, not_exists]
      grind
  simp only [Sandbox.wipe, List.mem_filter, Bool.not_eq_true', hname]

/-- The containers of a host and the pool of one image, listed in the order in
which `RPOP` takes the entries. -/
structure Host where
  sandbox : String → Sandbox
  pool : List Entry
  kills : List String

namespace Host

variable (limits : Limits)

/-- `release`: sanitize, and push the entry unless the container is dead or the
pool is full. The second component says whether the entry was pushed. -/
def release (h : Host) (now : ℤ) (c : Container) (x : Exec (h.sandbox c.containerId)) :
    Host × Bool :=
  let (s, alive) := sanitize (h.sandbox c.containerId) x
  let h := { h with sandbox := Function.update h.sandbox c.containerId s }
  if alive then
    if (h.pool.length : ℤ) ≥ limits.maxPerImage then
      ({ h with kills := c.containerId :: h.kills }, false)
    else ({ h with pool := h.pool ++ [⟨c, now⟩] }, true)
  else (h, false)

/-- `_container_is_usable` -/
def containerIsUsable (h : Host) (containerId : String) (currentImageId : Option String) : Bool :=
  (h.sandbox containerId).running &&
    (currentImageId.isNone || some (h.sandbox containerId).image == currentImageId)

/-- The loop of `acquire` over the entries it pops. The clock and the answer of
`_current_image_id` are read anew in each turn, which is identified by the number
of entries left. -/
def acquireLoop (now : ℕ → ℤ) (currentImageId : ℕ → Option String) (h : Host) :
    List Entry → List String → Option Entry × Host
  | [], kills => (none, { h with pool := [], kills := kills })
  | e :: rest, kills =>
    if expired limits (now rest.length) e then
      acquireLoop now currentImageId h rest (e.containerId :: kills)
    else if h.containerIsUsable e.containerId (currentImageId rest.length) then
      (some e, { h with pool := rest, kills := kills })
    else acquireLoop now currentImageId h rest (e.containerId :: kills)

def acquire (h : Host) (now : ℕ → ℤ) (currentImageId : ℕ → Option String) : Option Entry × Host :=
  h.acquireLoop limits now currentImageId h.pool h.kills

/-- `acquire` runs nothing inside a container. -/
theorem acquireLoop_sandbox (h : Host) (now : ℕ → ℤ) (currentImageId : ℕ → Option String)
    (entries : List Entry) (kills : List String) :
    (h.acquireLoop limits now currentImageId entries kills).2.sandbox = h.sandbox := by
  induction entries generalizing kills with
  | nil => rfl
  | cons e rest ih =>
    rw [acquireLoop]
    split_ifs
    · exact ih _
    · rfl
    · exact ih _

/-- Whenever `release` pushes the container, it is clean, and it is clean when
`acquire` hands it out. -/
def ReusedClean (h : Host) (now : ℤ) (c : Container) (x : Exec (h.sandbox c.containerId)) : Prop :=
  (h.release limits now c x).2 = true →
    ((h.release limits now c x).1.sandbox c.containerId).Clean ∧
      ∀ clock ids e h', (h.release limits now c x).1.acquire limits clock ids = (some e, h') →
        e.containerId = c.containerId → (h'.sandbox e.containerId).Clean

theorem release_pushed_iff (h : Host) (now : ℤ) (c : Container)
    (x : Exec (h.sandbox c.containerId)) :
    (h.release limits now c x).2 = true ↔
      (h.sandbox c.containerId).running = true ∧ (h.pool.length : ℤ) < limits.maxPerImage := by
  cases hr : (h.sandbox c.containerId).running with
  | false => simp [release, sanitize, hr]
  | true =>
    have halive : (sanitize (h.sandbox c.containerId) x).2 = true := by
      simpa [sanitize, hr] using script_running x hr
    unfold release
    simp only [halive, if_true]
    split_ifs with hcap <;> simpa using hcap

theorem release_sandbox (h : Host) (now : ℤ) (c : Container) (x : Exec (h.sandbox c.containerId)) :
    (h.release limits now c x).1.sandbox c.containerId =
      (sanitize (h.sandbox c.containerId) x).1 := by
  unfold release
  dsimp only
  split_ifs <;> simp

/-- A container is reused clean exactly when it is not pushed at all, or when the
submission left `/app` empty and every process it left sorts before the shell
that sanitizes. -/
theorem reusedClean_iff (h : Host) (now : ℤ) (c : Container)
    (x : Exec (h.sandbox c.containerId)) :
    h.ReusedClean limits now c x ↔
      ((h.sandbox c.containerId).running = true → (h.pool.length : ℤ) < limits.maxPerImage →
        (h.sandbox c.containerId).app = [] ∧
          ∀ p ∈ (h.sandbox c.containerId).pids, p ≠ 1 → lsBefore p x.shell) := by
  rw [← and_imp, ← release_pushed_iff limits h now c x]
  refine imp_congr_right fun hpushed => ?_
  obtain ⟨hrunning, -⟩ := (release_pushed_iff limits h now c x).mp hpushed
  have hsandbox : (h.release limits now c x).1.sandbox c.containerId =
      script (h.sandbox c.containerId) x := by
    rw [release_sandbox]
    simp [sanitize, hrunning]
  rw [hsandbox, ← clean_script_iff]
  refine and_iff_left_of_imp fun hclean clock ids e h' hacquire hid => ?_
  have hframe := acquireLoop_sandbox limits (h.release limits now c x).1 clock ids
    (h.release limits now c x).1.pool (h.release limits now c x).1.kills
  rw [show acquireLoop limits clock ids _ _ _ = _ from hacquire] at hframe
  rw [hid, show h'.sandbox = _ from hframe, hsandbox]
  exact hclean

/-- A finished submission leaves its source in `/app` and no process. -/
def finished : Sandbox :=
  ⟨"sha256:5f", [1], [⟨[109, 97, 105, 110, 46, 112, 121], by decide⟩], by decide, by decide⟩

/-- The source of a submission stays in the container that goes back to the pool. -/
theorem not_reusedClean :
    ¬ ∀ (limits : Limits) (h : Host) (now : ℤ) (c : Container)
      (x : Exec (h.sandbox c.containerId)), h.ReusedClean limits now c x := by
  intro hclean
  have hbad := hclean ⟨60, 50⟩ ⟨fun _ => finished, [], []⟩ 0 ⟨"c", "/t", "/h"⟩
    ⟨7, [8, 9, 10], by decide, by decide, by decide⟩ (by decide)
  exact absurd hbad.1 (by decide)

end Host

end ExecutionEngine.Sanitize
