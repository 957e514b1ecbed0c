import Mathlib.Logic.Relation
import ForgeIndex.Lib.Text

/-!
# The development command

`forge-index-cli/src/commands/dev.rs`, `process.rs` and `watcher.rs`: a build, a child process, and
a loop that waits for a change, kills the child and builds again.  Files are edited, the child exits
and a signal ends the command at any time.  The debouncer of `notify` is a parameter: which edits it
reports, and under which paths, is its own matter.
-/

namespace ForgeIndex

namespace Cli

/-- `Path::file_name` of a path with `/` between its parts. -/
def fileName (path : List Char) : Option (List Char) :=
  match ((path.splitOn '/').filter fun part => part ≠ [] ∧ part ≠ ['.']).getLast? with
  | some ['.', '.'] => none
  | name => name

def shouldIgnore (path : String) : Bool :=
  if Text.contains "/target/".toList path.toList || Text.contains "\\target\\".toList path.toList then
    true
  else if ".lock".toList.isSuffixOf path.toList then true
  else
    match fileName path.toList with
    | some name => name.head? == some '.'
    | none => false

inductive DebouncedEventKind where
  | any | anyContinuous
  deriving DecidableEq, Repr

structure DebouncedEvent where
  path : String
  kind : DebouncedEventKind
  deriving DecidableEq, Repr

/-- The event makes `wait_for_change` return. -/
def DebouncedEvent.relevant (e : DebouncedEvent) : Bool :=
  e.kind = .any && !shouldIgnore e.path

/-- What the debouncer sends. -/
inductive Message where
  | events (events : List DebouncedEvent)
  | error

/-- Some event of the message makes `wait_for_change` return. -/
def Message.relevant : Message → Bool
  | events es => es.any DebouncedEvent.relevant
  | error => false

/-- The body of the loop in `wait_for_change`: a path to return, `none` at the end of the watch, or
the next message. -/
inductive Received where
  | changed (path : String)
  | closed
  | nothing
  deriving DecidableEq, Repr

def Message.receive : Message → Received
  | events es =>
    match es.find? DebouncedEvent.relevant with
    | some e => .changed e.path
    | none => .nothing
  | error => .closed

theorem Message.receive_changed_iff (m : Message) :
    (∃ path, m.receive = .changed path) ↔ m.relevant = true := by
  cases m with
  | error => simp [Message.receive, Message.relevant]
  | events es =>
    simp only [Message.receive, Message.relevant, List.any_eq_true]
    cases hfind : es.find? DebouncedEvent.relevant with
    | none =>
      have hnone := List.find?_eq_none.mp hfind
      simpa using hnone
    | some e =>
      have he : e ∈ es := List.mem_of_find?_eq_some hfind
      have hrelevant := List.find?_some hfind
      simpa using ⟨e, he, hrelevant⟩

theorem Message.relevant_of_receive {m : Message} (h : ∀ path, m.receive ≠ .changed path) :
    m.relevant = false := by
  rw [← Bool.not_eq_true, ← Message.receive_changed_iff]
  exact fun ⟨path, hpath⟩ => h path hpath

/-- The debouncer that `FileWatcher::new` opens, as a state of a type `W` of its own. -/
structure Watcher (W : Type) where
  /-- What `FileWatcher::new` may return. -/
  opens : W → Prop
  /-- A file below a watched path is edited. -/
  notices : W → String → W → Prop
  sends : W → Message → W → Prop
  /-- An edit of a path that is not ignored waits to be sent. -/
  holds : W → Prop

/-- The debouncer loses no edit: it holds each of a path that is not ignored until it has sent it
as settled, under a path that is not ignored. -/
structure Watcher.Lossless {W : Type} (watcher : Watcher W) : Prop where
  notices {w w' : W} {path : String} : watcher.notices w path w' →
    shouldIgnore path = false ∨ watcher.holds w → watcher.holds w'
  sends {w w' : W} {message : Message} : watcher.sends w message w' → watcher.holds w →
    watcher.holds w' ∨ message.relevant = true

/-- The debouncer makes no edit up: it holds an edit of a path that is not ignored only after one,
and sends a path that is not ignored only when it holds one. -/
structure Watcher.Honest {W : Type} (watcher : Watcher W) : Prop where
  notices {w w' : W} {path : String} : watcher.notices w path w' → watcher.holds w' →
    shouldIgnore path = false ∨ watcher.holds w
  sends {w w' : W} {message : Message} : watcher.sends w message w' →
    watcher.holds w' ∨ message.relevant = true → watcher.holds w

/-- Where `dev::run` stands. -/
inductive Phase where
  /-- the initial build -/
  | building
  /-- `FileWatcher::new` -/
  | opening
  /-- `wait_for_change` -/
  | waiting
  /-- the build after a change -/
  | rebuilding
  /-- `run` has returned -/
  | stopped
  /-- A signal has ended the process: the command sets no handler, so nothing is dropped. -/
  | killed
  deriving DecidableEq, Repr

/-- The command, its child and the files.  A version of the sources is the number of edits that
are not ignored. -/
structure Dev (W : Type) where
  phase : Phase
  source : ℕ
  /-- The version when the latest build began. -/
  buildStart : ℕ
  /-- The version that the latest build compiled, if it succeeded. -/
  latest : Option ℕ
  /-- The binary, if it exists, with its version; one from before the command has none. -/
  binary : Option (Option ℕ)
  /-- The builds after a change. -/
  rebuilds : ℕ
  /-- The debouncer while it is open, with the version when it was opened. -/
  watch : Option (ℕ × W)
  queue : List Message
  /-- `ProcessManager::child`: a process id. -/
  child : Option ℕ
  /-- The processes that run the binary, with its version when they were started. -/
  live : List (ℕ × Option ℕ)
  nextPid : ℕ

namespace Dev

variable {W : Type}

/-- The command begins its initial build. -/
def started (W : Type) (binary : Bool) : Dev W where
  phase := .building
  source := 0
  buildStart := 0
  latest := none
  binary := if binary then some none else none
  rebuilds := 0
  watch := none
  queue := []
  child := none
  live := []
  nextPid := 0

/-- `ProcessManager::kill`: the child is gone once it has been waited for. -/
def kill (d : Dev W) : Dev W :=
  match d.child with
  | some pid => { d with child := none, live := d.live.filter fun p => p.1 ≠ pid }
  | none => d

/-- `ProcessManager::start`; the spawn fails for a binary that is missing, or for its own
reasons. -/
def start (spawns : Bool) (d : Dev W) : Dev W :=
  match d.binary, spawns with
  | some version, true => { d with
      child := some d.nextPid
      live := (d.nextPid, version) :: d.live
      nextPid := d.nextPid + 1 }
  | _, _ => d

/-- `run_cargo_build`: the version that was compiled, or a failure, which keeps the old binary. -/
def build (compiled : Option ℕ) (d : Dev W) : Dev W :=
  match compiled with
  | some version => { d with latest := some version, binary := some (some version) }
  | none => { d with latest := none }

/-- The initial build and the start of whatever binary there is then. -/
def first (compiled : Option ℕ) (spawns : Bool) (d : Dev W) : Dev W :=
  { (d.build compiled).start spawns with phase := .opening }

/-- The build after a change: a new manager takes the place of the old one, which is dropped. -/
def again (compiled : Option ℕ) (spawns : Bool) (d : Dev W) : Dev W :=
  match compiled with
  | some _ => { ((d.build compiled).kill).start spawns with phase := .waiting }
  | none => { d.build compiled with phase := .waiting }

/-- What the loop does with the next message. -/
def receive (d : Dev W) (message : Message) (queue : List Message) : Dev W :=
  match message.receive with
  | .changed _ => { d.kill with
      phase := .rebuilding
      buildStart := d.source
      rebuilds := d.rebuilds + 1
      queue := queue }
  -- the debouncer and the receiver are dropped with `run`
  | .closed => { d.kill with
      phase := .stopped
      watch := none
      queue := [] }
  | .nothing => { d with queue := queue }

/-- A signal ends the process in the middle of whatever it does. -/
def signal (d : Dev W) : Dev W :=
  { d with
    phase := .killed
    watch := none
    queue := [] }

def edit (path : String) (d : Dev W) : Dev W :=
  { d with source := if shouldIgnore path then d.source else d.source + 1 }

/-- A build compiles a version of the sources between its begin and its end. -/
def Compiles (d : Dev W) (compiled : Option ℕ) : Prop :=
  ∀ version, compiled = some version → d.buildStart ≤ version ∧ version ≤ d.source

variable (watcher : Watcher W)

inductive Step : Dev W → Dev W → Prop
  | edit (d : Dev W) (path : String) : d.watch = none → Step d (d.edit path)
  | noticed (d : Dev W) (path : String) (since : ℕ) (w w' : W) : d.watch = some (since, w) →
      watcher.notices w path w' → Step d { d.edit path with watch := some (since, w') }
  | send (d : Dev W) (message : Message) (since : ℕ) (w w' : W) : d.watch = some (since, w) →
      watcher.sends w message w' →
      Step d { d with watch := some (since, w'), queue := d.queue ++ [message] }
  | exit (d : Dev W) (pid : ℕ) : Step d { d with live := d.live.filter fun p => p.1 ≠ pid }
  | first (d : Dev W) (compiled : Option ℕ) (spawns : Bool) :
      d.phase = .building → d.Compiles compiled → Step d (d.first compiled spawns)
  | opened (d : Dev W) (w : W) : d.phase = .opening → watcher.opens w →
      Step d { d with phase := .waiting, watch := some (d.source, w) }
  /-- the manager is dropped -/
  | notOpened (d : Dev W) : d.phase = .opening → Step d { d.kill with phase := .stopped }
  | receive (d : Dev W) (message : Message) (queue : List Message) :
      d.phase = .waiting → d.queue = message :: queue → Step d (d.receive message queue)
  | again (d : Dev W) (compiled : Option ℕ) (spawns : Bool) :
      d.phase = .rebuilding → d.Compiles compiled → Step d (d.again compiled spawns)
  | signal (d : Dev W) : d.phase ≠ .stopped → Step d d.signal

inductive Reachable : Dev W → Prop
  | start (binary : Bool) : Reachable (started W binary)
  | step {d d' : Dev W} : Reachable d → Step watcher d d' → Reachable d'

variable {watcher}

/-- At most one process runs, and it is the one that the manager holds. -/
def Held (d : Dev W) : Prop := d.live = [] ∨ ∃ p, d.live = [p] ∧ d.child = some p.1

theorem live_kill {d : Dev W} (h : d.Held) : d.kill.live = [] := by
  unfold kill
  rcases h with hnone | ⟨p, hlive, hchild⟩
  · cases d.child <;> simp [hnone]
  · simp [hchild, hlive]

theorem held_start {d : Dev W} (h : d.live = []) (spawns : Bool) : (d.start spawns).Held := by
  unfold start Held
  split
  · rename_i version _
    exact .inr ⟨(d.nextPid, version), by simp [h], rfl⟩
  · exact .inl h

theorem held_filter {d : Dev W} (h : d.Held) (pid : ℕ) :
    Held { d with live := d.live.filter fun p => p.1 ≠ pid } := by
  rcases h with hnone | ⟨p, hlive, hchild⟩
  · exact .inl (by simp [hnone])
  · by_cases hp : p.1 = pid
    · exact .inl (by simp [hlive, hp])
    · exact .inr ⟨p, by simp [hlive, hp], hchild⟩

theorem kill_eq (d : Dev W) : d.kill = { d with child := d.kill.child, live := d.kill.live } := by
  unfold kill
  cases d.child <;> rfl

theorem start_eq (spawns : Bool) (d : Dev W) : d.start spawns = { d with
    child := (d.start spawns).child
    live := (d.start spawns).live
    nextPid := (d.start spawns).nextPid } := by
  unfold start
  split <;> rfl

theorem live_start {d : Dev W} (h : d.live = []) (spawns : Bool) {version : Option ℕ}
    (hbinary : d.binary = some version) : ∀ p ∈ (d.start spawns).live, p.2 = version := by
  unfold start
  rw [hbinary]
  cases spawns <;> simp [h]

theorem build_eq (compiled : Option ℕ) (d : Dev W) : d.build compiled = { d with
    latest := compiled
    binary := (d.build compiled).binary } := by
  unfold build
  cases compiled <;> rfl

/-- What holds after each step, whatever the debouncer does. -/
structure Sound (d : Dev W) : Prop where
  held : d.Held
  /-- No child runs while a build does, and none is left when the command returns. -/
  alone : d.phase = .building ∨ d.phase = .rebuilding ∨ d.phase = .stopped → d.live = []
  ahead : d.buildStart ≤ d.source
  /-- After a build that succeeded the child runs what it compiled. -/
  built : d.phase = .opening ∨ d.phase = .waiting → ∀ version, d.latest = some version →
    d.buildStart ≤ version ∧ version ≤ d.source ∧ ∀ p ∈ d.live, p.2 = some version
  /-- After a build that failed no child runs; only the initial build starts what it finds. -/
  failed : d.phase = .waiting → d.latest = none → d.rebuilds ≠ 0 → d.live = []
  opened : d.phase = .waiting ∨ d.phase = .rebuilding → d.watch.isSome = true
  fresh : d.phase = .building ∨ d.phase = .opening → d.rebuilds = 0 ∧ d.watch = none

theorem sound_started (binary : Bool) : Sound (started W binary) where
  held := .inl rfl
  alone _ := rfl
  ahead := Nat.le_refl 0
  built h := by simp [started] at h
  failed h := by simp [started] at h
  opened h := by simp [started] at h
  fresh _ := ⟨rfl, rfl⟩

theorem source_le_edit (path : String) (d : Dev W) : d.source ≤ (d.edit path).source := by
  unfold Dev.edit
  dsimp only
  split_ifs <;> omega

theorem Sound.edit {d : Dev W} (h : d.Sound) (path : String) {watch : Option (ℕ × W)}
    (hwatch : watch.isSome = d.watch.isSome) : Sound { d.edit path with watch := watch } where
  held := h.held
  alone := h.alone
  ahead := le_trans h.ahead (source_le_edit path d)
  built hphase version hlatest := by
    obtain ⟨hstart, hend, hlive⟩ := h.built hphase version hlatest
    exact ⟨hstart, le_trans hend (source_le_edit path d), hlive⟩
  failed := h.failed
  opened hphase := hwatch.trans (h.opened hphase)
  fresh hphase := by
    obtain ⟨hrebuilds, hnone⟩ := h.fresh hphase
    rw [hnone] at hwatch
    exact ⟨hrebuilds, Option.not_isSome_iff_eq_none.mp (by simp [hwatch])⟩

theorem Sound.send {d : Dev W} (h : d.Sound) {since : ℕ} {w w' : W}
    (hwatch : d.watch = some (since, w)) (message : Message) :
    Sound { d with watch := some (since, w'), queue := d.queue ++ [message] } where
  held := h.held
  alone := h.alone
  ahead := h.ahead
  built := h.built
  failed := h.failed
  opened _ := rfl
  fresh hphase := by
    have hnone := (h.fresh hphase).2
    rw [hwatch] at hnone
    cases hnone

theorem Sound.exit {d : Dev W} (h : d.Sound) (pid : ℕ) :
    Sound { d with live := d.live.filter fun p => p.1 ≠ pid } where
  held := held_filter h.held pid
  alone hphase := by simp [h.alone hphase]
  ahead := h.ahead
  built hphase version hlatest := by
    obtain ⟨hstart, hend, hlive⟩ := h.built hphase version hlatest
    exact ⟨hstart, hend, fun p hp => hlive p (List.mem_of_mem_filter hp)⟩
  failed hphase hlatest hrebuilds := by simp [h.failed hphase hlatest hrebuilds]
  opened := h.opened
  fresh := h.fresh

theorem Sound.first {d : Dev W} (h : d.Sound) (hphase : d.phase = .building)
    {compiled : Option ℕ} (hcompiles : d.Compiles compiled) (spawns : Bool) :
    (d.first compiled spawns).Sound := by
  have hempty : (d.build compiled).live = [] := by
    rw [build_eq]
    exact h.alone (.inl hphase)
  have hsame : d.first compiled spawns = { (d.build compiled).start spawns with
    phase := .opening } := rfl
  rw [hsame, start_eq]
  constructor
  · exact held_start hempty spawns
  · simp
  · rw [build_eq]
    exact h.ahead
  · intro _ version hlatest
    rw [build_eq] at hlatest
    have hcompiled : compiled = some version := hlatest
    obtain ⟨hstart, hend⟩ := hcompiles version hcompiled
    subst hcompiled
    exact ⟨hstart, hend, live_start hempty spawns rfl⟩
  · simp
  · simp
  · intro _
    rw [build_eq]
    exact h.fresh (.inl hphase)

theorem Sound.again {d : Dev W} (h : d.Sound) (hphase : d.phase = .rebuilding)
    {compiled : Option ℕ} (hcompiles : d.Compiles compiled) (spawns : Bool) :
    (d.again compiled spawns).Sound := by
  have hempty : d.live = [] := h.alone (.inr (.inl hphase))
  have hopened : d.watch.isSome = true := h.opened (.inr hphase)
  cases compiled with
  | none =>
    exact {
      held := h.held
      alone := fun hp => by simp [Dev.again] at hp
      ahead := h.ahead
      built := fun _ version hlatest => by simp [Dev.again, Dev.build] at hlatest
      failed := fun _ _ _ => hempty
      opened := fun _ => hopened
      fresh := fun hp => by simp [Dev.again] at hp }
  | some compiled =>
    obtain ⟨hstart, hend⟩ := hcompiles compiled rfl
    -- the old child is gone before the new one is started
    have hkilled : ((d.build (some compiled)).kill).live = [] := live_kill h.held
    have hsame : d.again (some compiled) spawns =
        { ((d.build (some compiled)).kill).start spawns with phase := .waiting } := rfl
    rw [hsame, start_eq, kill_eq]
    constructor
    · rw [← kill_eq]
      exact held_start hkilled spawns
    · simp
    · exact h.ahead
    · intro _ version hlatest
      have hversion : compiled = version := Option.some.inj hlatest
      subst hversion
      refine ⟨hstart, hend, ?_⟩
      rw [← kill_eq]
      apply live_start hkilled spawns
      rw [kill_eq]
      rfl
    · intro _ hlatest
      cases hlatest
    · exact fun _ => hopened
    · simp

/-- The command returns, and the manager is dropped. -/
theorem Sound.stop {d : Dev W} (h : d.Sound) (watch : Option (ℕ × W)) (queue : List Message) :
    Sound { d.kill with phase := .stopped, watch := watch, queue := queue } := by
  have hkilled : d.kill.live = [] := live_kill h.held
  rw [kill_eq]
  exact {
    held := .inl hkilled
    alone := fun _ => hkilled
    ahead := h.ahead
    built := fun hp => by simp at hp
    failed := fun hp => by simp at hp
    opened := fun hp => by simp at hp
    fresh := fun hp => by simp at hp }

theorem Sound.receive {d : Dev W} (h : d.Sound) (hphase : d.phase = .waiting) (message : Message)
    (queue : List Message) : (d.receive message queue).Sound := by
  have hkilled : d.kill.live = [] := live_kill h.held
  unfold Dev.receive
  cases message.receive with
  | changed path =>
    dsimp only
    rw [kill_eq]
    exact {
      held := .inl hkilled
      alone := fun _ => hkilled
      ahead := Nat.le_refl _
      built := fun hp => by simp at hp
      failed := fun hp => by simp at hp
      opened := fun _ => h.opened (.inl hphase)
      fresh := fun hp => by simp at hp }
  | closed => exact h.stop none []
  | nothing =>
    exact {
      held := h.held
      alone := h.alone
      ahead := h.ahead
      built := h.built
      failed := h.failed
      opened := h.opened
      fresh := h.fresh }

theorem Sound.open {d : Dev W} (h : d.Sound) (hphase : d.phase = .opening) (w : W) :
    Sound { d with phase := .waiting, watch := some (d.source, w) } where
  held := h.held
  alone hp := by simp at hp
  ahead := h.ahead
  built _ := h.built (.inl hphase)
  failed _ _ hrebuilds := absurd (h.fresh (.inr hphase)).1 hrebuilds
  opened _ := rfl
  fresh hp := by simp at hp

theorem Sound.signal {d : Dev W} (h : d.Sound) : d.signal.Sound where
  held := h.held
  alone hp := by simp [Dev.signal] at hp
  ahead := h.ahead
  built hp := by simp [Dev.signal] at hp
  failed hp := by simp [Dev.signal] at hp
  opened hp := by simp [Dev.signal] at hp
  fresh hp := by simp [Dev.signal] at hp

theorem Sound.step {d d' : Dev W} (h : d.Sound) (hstep : Step watcher d d') : d'.Sound := by
  cases hstep with
  | edit path hnone => exact h.edit path rfl
  | noticed path since w w' hwatch _ => exact h.edit path (by simp [hwatch])
  | send message since w w' hwatch _ => exact h.send hwatch message
  | exit pid => exact h.exit pid
  | first compiled spawns hphase hcompiles => exact h.first hphase hcompiles spawns
  | opened w hphase _ => exact h.open hphase w
  | notOpened _ => exact h.stop d.kill.watch d.kill.queue
  | receive message queue hphase _ => exact h.receive hphase message queue
  | again compiled spawns hphase hcompiles => exact h.again hphase hcompiles spawns
  | signal _ => exact h.signal

theorem Reachable.sound {d : Dev W} (h : Reachable watcher d) : d.Sound := by
  induction h with
  | start binary => exact sound_started binary
  | step _ hstep ih => exact ih.step hstep

/-- After a signal nothing is started and nothing is killed: processes only exit. -/
theorem killed_step {d d' : Dev W} (hphase : d.phase = .killed) (hstep : Step watcher d d') :
    d'.phase = .killed ∧ d'.live.Sublist d.live := by
  have hother {phase : Phase} (hd : d.phase = phase) (hne : phase ≠ .killed) : False :=
    hne (hd.symm.trans hphase)
  cases hstep with
  | edit path _ => exact ⟨hphase, List.Sublist.refl _⟩
  | noticed path since w w' _ _ => exact ⟨hphase, List.Sublist.refl _⟩
  | send message since w w' _ _ => exact ⟨hphase, List.Sublist.refl _⟩
  | exit pid => exact ⟨hphase, List.filter_sublist⟩
  | first compiled spawns hd _ => exact (hother hd (by simp)).elim
  | opened w hd _ => exact (hother hd (by simp)).elim
  | notOpened hd => exact (hother hd (by simp)).elim
  | receive message queue hd _ => exact (hother hd (by simp)).elim
  | again compiled spawns hd _ => exact (hother hd (by simp)).elim
  | signal _ => exact ⟨rfl, List.Sublist.refl _⟩

theorem killed_run {d d' : Dev W} (hphase : d.phase = .killed)
    (hrun : Relation.ReflTransGen (Step watcher) d d') :
    d'.phase = .killed ∧ d'.live.Sublist d.live := by
  induction hrun with
  | refl => exact ⟨hphase, List.Sublist.refl _⟩
  | tail _ hstep ih =>
    obtain ⟨hkilled, hlive⟩ := killed_step ih.1 hstep
    exact ⟨hkilled, hlive.trans ih.2⟩

variable (watcher)

/-- A change that will make the loop build again is on its way. -/
def Due (d : Dev W) : Prop :=
  (∃ since w, d.watch = some (since, w) ∧ watcher.holds w) ∨
    ∃ message ∈ d.queue, message.relevant = true

/-- Every edit since the watcher was opened has been built or is on its way. -/
def Noticed (d : Dev W) : Prop :=
  ∀ since w, d.watch = some (since, w) →
    d.source ≤ since ∨ d.source ≤ d.buildStart ∨ Due watcher d

variable {watcher}

theorem Due.rest {d : Dev W} (h : Due watcher d) {message : Message} {queue : List Message}
    (hqueue : d.queue = message :: queue) (hpassed : message.relevant = false) :
    Due watcher { d with queue := queue } := by
  rcases h with hheld | ⟨m, hm, hrelevant⟩
  · exact .inl hheld
  · rw [hqueue] at hm
    rcases List.mem_cons.mp hm with hfirst | hrest
    · rw [hfirst, hpassed] at hrelevant
      cases hrelevant
    · exact .inr ⟨m, hrest, hrelevant⟩

theorem Noticed.receive {d : Dev W} (h : Noticed watcher d) {message : Message}
    {queue : List Message} (hqueue : d.queue = message :: queue) :
    Noticed watcher (d.receive message queue) := by
  unfold Dev.receive
  cases hreceived : message.receive with
  | changed path =>
    dsimp only
    rw [kill_eq]
    exact fun _ _ _ => .inr (.inl (Nat.le_refl _))
  | closed =>
    dsimp only
    intro _ _ hsome
    cases hsome
  | nothing =>
    intro since w hsome
    have hpassed : message.relevant = false :=
      Message.relevant_of_receive fun path => by simp [hreceived]
    rcases h since w hsome with hsince | hbuilt | hdue
    · exact .inl hsince
    · exact .inr (.inl hbuilt)
    · exact .inr (.inr (hdue.rest hqueue hpassed))

theorem Noticed.step {d d' : Dev W} (hlossless : watcher.Lossless) (h : Noticed watcher d)
    (hstep : Step watcher d d') : Noticed watcher d' := by
  cases hstep with
  | edit path hnone =>
    -- before the watcher is opened nobody notices an edit
    intro since w hsome
    have hsome' : d.watch = some (since, w) := hsome
    rw [hnone] at hsome'
    cases hsome'
  | noticed path since w w' hwatch hnotices =>
    intro since' w'' hsome
    obtain ⟨rfl, rfl⟩ : since = since' ∧ w' = w'' := by simpa using hsome
    cases hignored : shouldIgnore path with
    | false =>
      exact .inr (.inr (.inl ⟨since, w', rfl, hlossless.notices hnotices (.inl hignored)⟩))
    | true =>
      -- an ignored edit leaves the sources as they are, and what was held is still held
      simp only [Dev.edit, hignored, if_true]
      rcases h since w hwatch with hsince | hbuilt | ⟨since', w'', hwatch', hheld⟩ | hqueue
      · exact .inl hsince
      · exact .inr (.inl hbuilt)
      · obtain ⟨rfl, rfl⟩ : since = since' ∧ w = w'' := by simpa [hwatch] using hwatch'
        exact .inr (.inr (.inl ⟨since, w', rfl, hlossless.notices hnotices (.inr hheld)⟩))
      · exact .inr (.inr (.inr hqueue))
  | send message since w w' hwatch hsends =>
    intro since' w'' hsome
    obtain ⟨rfl, rfl⟩ : since = since' ∧ w' = w'' := by simpa using hsome
    rcases h since w hwatch with hsince | hbuilt | ⟨since', w'', hwatch', hheld⟩ | ⟨m, hm, hrelevant⟩
    · exact .inl hsince
    · exact .inr (.inl hbuilt)
    · obtain ⟨rfl, rfl⟩ : since = since' ∧ w = w'' := by simpa [hwatch] using hwatch'
      -- what is no longer held has been sent
      rcases hlossless.sends hsends hheld with hstill | hrelevant
      · exact .inr (.inr (.inl ⟨since, w', rfl, hstill⟩))
      · exact .inr (.inr (.inr ⟨message, by simp, hrelevant⟩))
    · exact .inr (.inr (.inr ⟨m, List.mem_append_left _ hm, hrelevant⟩))
  | exit pid => exact h
  | first compiled spawns _ _ =>
    have hsame : d.first compiled spawns = { (d.build compiled).start spawns with
      phase := .opening } := rfl
    rw [hsame, start_eq, build_eq]
    exact h
  | opened w _ _ =>
    -- the watcher begins with the sources of this moment
    intro since w' hsome
    obtain ⟨rfl, -⟩ : d.source = since ∧ w = w' := by simpa using hsome
    exact .inl (Nat.le_refl _)
  | notOpened _ =>
    rw [kill_eq]
    exact h
  | receive message queue _ hqueue => exact h.receive hqueue
  | again compiled spawns _ _ =>
    cases compiled with
    | none => exact h
    | some compiled =>
      have hsame : d.again (some compiled) spawns =
        { ((d.build (some compiled)).kill).start spawns with phase := .waiting } := rfl
      rw [hsame, start_eq, kill_eq]
      exact h
  | signal _ =>
    intro _ _ hsome
    cases hsome

theorem Reachable.noticed {d : Dev W} (hlossless : watcher.Lossless) (h : Reachable watcher d) :
    Noticed watcher d := by
  induction h with
  | start binary =>
    intro _ _ hsome
    cases hsome
  | step _ hstep ih => exact ih.step hlossless hstep

end Dev

/-- A debouncer on files that are all seen: the paths that it holds back.  It forgets those that it
has sent as settled; an error changes nothing. -/
def debouncer : Watcher (List String) where
  opens w := w = []
  notices w path w' := w' = w ++ [path]
  sends w message w' :=
    match message with
    | .events es => (∀ e ∈ es, e.path ∈ w) ∧ w' = w.filter fun path => ⟨path, .any⟩ ∉ es
    | .error => w' = w
  holds w := ∃ path ∈ w, shouldIgnore path = false

theorem lossless_debouncer : debouncer.Lossless where
  notices := by
    intro w w' path hnotices hheld
    have hw : w' = w ++ [path] := hnotices
    subst hw
    rcases hheld with hignored | ⟨p, hp, hignored⟩
    · exact ⟨path, by simp, hignored⟩
    · exact ⟨p, List.mem_append_left _ hp, hignored⟩
  sends := by
    intro w w' message hsends hheld
    obtain ⟨path, hpath, hignored⟩ := hheld
    cases message with
    | error =>
      have hw : w' = w := hsends
      subst hw
      exact .inl ⟨path, hpath, hignored⟩
    | events es =>
      obtain ⟨_, hw⟩ := hsends
      subst hw
      by_cases hsettled : (⟨path, .any⟩ : DebouncedEvent) ∈ es
      · refine .inr (List.any_eq_true.mpr ⟨⟨path, .any⟩, hsettled, ?_⟩)
        simp [DebouncedEvent.relevant, hignored]
      · exact .inl ⟨path, by simp [hpath, hsettled], hignored⟩

theorem honest_debouncer : debouncer.Honest where
  notices := by
    intro w w' path hnotices hheld
    have hw : w' = w ++ [path] := hnotices
    subst hw
    obtain ⟨p, hp, hignored⟩ := hheld
    rcases List.mem_append.mp hp with hold | hnew
    · exact .inr ⟨p, hold, hignored⟩
    · rw [List.mem_singleton.mp hnew] at hignored
      exact .inl hignored
  sends := by
    intro w w' message hsends hcase
    cases message with
    | error =>
      have hw : w' = w := hsends
      subst hw
      simpa [Message.relevant] using hcase
    | events es =>
      obtain ⟨hpaths, hw⟩ := hsends
      subst hw
      rcases hcase with ⟨path, hpath, hignored⟩ | hrelevant
      · exact ⟨path, List.mem_of_mem_filter hpath, hignored⟩
      · obtain ⟨e, he, hrel⟩ := List.any_eq_true.mp hrelevant
        refine ⟨e.path, hpaths e he, ?_⟩
        simpa using (Bool.and_eq_true_iff.mp hrel).2

namespace Dev

/-- The command waits after an initial build that succeeded. -/
def opened : Dev (List String) :=
  { (started (List String) false).first (some 0) true with
    phase := .waiting
    watch := some (0, []) }

/-- A source file is edited, the change is sent, and the build after it succeeds. -/
def reloaded : Dev (List String) :=
  let edited : Dev (List String) :=
    { opened.edit "src/main.rs" with watch := some (0, ["src/main.rs"]) }
  let sent : Dev (List String) :=
    { edited with
      watch := some (0, [])
      queue := [.events [⟨"src/main.rs", .any⟩]] }
  (sent.receive (.events [⟨"src/main.rs", .any⟩]) []).again (some 1) true

theorem reachable_opened : Reachable debouncer opened := by
  have hfirst : Reachable debouncer ((started (List String) false).first (some 0) true) := by
    refine Reachable.step (Reachable.start false) (Step.first _ _ _ rfl ?_)
    intro version hversion
    cases hversion
    exact ⟨Nat.le_refl _, Nat.le_refl _⟩
  exact Reachable.step hfirst (Step.opened _ [] rfl rfl)

theorem reachable_reloaded : Reachable debouncer reloaded := by
  have hedit : Step debouncer opened
      { opened.edit "src/main.rs" with watch := some (0, ["src/main.rs"]) } :=
    Step.noticed _ "src/main.rs" 0 [] ["src/main.rs"] rfl rfl
  have hedited := Reachable.step reachable_opened hedit
  have hsent := Reachable.step hedited (Step.send _ (.events [⟨"src/main.rs", .any⟩]) 0
    ["src/main.rs"] [] rfl ⟨by simp, by simp⟩)
  have hbuilding := Reachable.step hsent
    (Step.receive _ (.events [⟨"src/main.rs", .any⟩]) [] rfl rfl)
  refine Reachable.step hbuilding (Step.again _ (some 1) true (by decide) ?_)
  intro version hversion
  cases hversion
  decide

/-- In every run at most one process runs the binary, and it is the one that the manager holds;
none runs while the binary is built, nor when the command has returned.  A signal in the middle of
the command leaves the child to itself: from then on nothing is killed and nothing is started. -/
theorem one_child {d : Dev W} (h : Reachable watcher d) :
    d.Held ∧ (d.phase = .building ∨ d.phase = .rebuilding ∨ d.phase = .stopped → d.live = []) ∧
    d.signal.live = d.live ∧
    (d.phase = .killed → ∀ d', Relation.ReflTransGen (Step watcher) d d' →
      d'.phase = .killed ∧ d'.live.Sublist d.live) :=
  ⟨h.sound.held, h.sound.alone, rfl, fun hphase _ hrun => killed_run hphase hrun⟩

theorem one_child_signalled :
    reloaded.signal.live ≠ [] ∧ reloaded.signal.Held ∧
    ∀ d', Relation.ReflTransGen (Step debouncer) reloaded.signal d' →
      d'.phase = .killed ∧ d'.live.Sublist reloaded.signal.live := by
  have hreachable : Reachable debouncer reloaded.signal :=
    Reachable.step reachable_reloaded (Step.signal _ (by decide))
  have hchild := one_child hreachable
  exact ⟨by decide, hchild.1, hchild.2.2.2 rfl⟩

/-- Further steps in which every edit is of an ignored path. -/
inductive Unedited (watcher : Watcher W) (d : Dev W) : Dev W → Prop
  | refl : Unedited watcher d d
  | step {d' d'' : Dev W} : Unedited watcher d d' → Step watcher d' d'' → d''.source = d'.source →
      Unedited watcher d d''

/-- The command waits, or it has come to its end. -/
def Quiet (d : Dev W) : Prop := d.phase = .waiting ∨ d.phase = .stopped ∨ d.phase = .killed

theorem not_due_step {d d' : Dev W} (hhonest : watcher.Honest) (hquiet : d.Quiet)
    (hidle : ¬Due watcher d) (hstep : Step watcher d d') (hsource : d'.source = d.source) :
    d'.Quiet ∧ ¬Due watcher d' ∧ d'.rebuilds = d.rebuilds := by
  have hother {phase : Phase} (hd : d.phase = phase)
      (hne : phase ≠ .waiting ∧ phase ≠ .stopped ∧ phase ≠ .killed) : False := by
    unfold Quiet at hquiet
    rw [hd] at hquiet
    tauto
  have hnone {d : Dev W} (hwatch : d.watch = none) (hqueue : d.queue = []) : ¬Due watcher d := by
    unfold Due
    simp [hwatch, hqueue]
  cases hstep with
  | edit path _ => exact ⟨hquiet, hidle, rfl⟩
  | noticed path since w w' hwatch hnotices =>
    have hignored : shouldIgnore path = true := by
      -- an edit of any other path would have changed the sources
      by_contra hnot
      simp only [Dev.edit, if_neg hnot] at hsource
      omega
    refine ⟨hquiet, fun hdue => hidle ?_, rfl⟩
    rcases hdue with ⟨since', w'', hwatch', hheld⟩ | hqueue
    · obtain ⟨rfl, rfl⟩ : since = since' ∧ w' = w'' := by simpa using hwatch'
      rcases hhonest.notices hnotices hheld with hnot | hheld
      · rw [hignored] at hnot
        cases hnot
      · exact .inl ⟨since, w, hwatch, hheld⟩
    · exact .inr hqueue
  | send message since w w' hwatch hsends =>
    refine ⟨hquiet, fun hdue => hidle ?_, rfl⟩
    rcases hdue with ⟨since', w'', hwatch', hheld⟩ | ⟨m, hm, hrelevant⟩
    · obtain ⟨rfl, rfl⟩ : since = since' ∧ w' = w'' := by simpa using hwatch'
      exact .inl ⟨since, w, hwatch, hhonest.sends hsends (.inl hheld)⟩
    · rcases List.mem_append.mp hm with hold | hnew
      · exact .inr ⟨m, hold, hrelevant⟩
      · rw [List.mem_singleton.mp hnew] at hrelevant
        exact .inl ⟨since, w, hwatch, hhonest.sends hsends (.inr hrelevant)⟩
  | exit pid => exact ⟨hquiet, hidle, rfl⟩
  | first compiled spawns hd _ => exact (hother hd (by simp)).elim
  | opened w hd _ => exact (hother hd (by simp)).elim
  | notOpened hd => exact (hother hd (by simp)).elim
  | receive message queue hd hqueue =>
    unfold Dev.receive
    cases hreceived : message.receive with
    | changed path =>
      have hrelevant : message.relevant = true :=
        message.receive_changed_iff.mp ⟨path, hreceived⟩
      exact absurd (.inr ⟨message, by simp [hqueue], hrelevant⟩) hidle
    | closed =>
      dsimp only
      rw [kill_eq]
      exact ⟨.inr (.inl rfl), hnone rfl rfl, rfl⟩
    | nothing =>
      refine ⟨.inl hd, fun hdue => hidle ?_, rfl⟩
      rcases hdue with hheld | ⟨m, hm, hrelevant⟩
      · exact .inl hheld
      · exact .inr ⟨m, by rw [hqueue]; exact List.mem_cons_of_mem _ hm, hrelevant⟩
  | again compiled spawns hd _ => exact (hother hd (by simp)).elim
  | signal _ => exact ⟨.inr (.inr rfl), hnone rfl rfl, rfl⟩

/-- Edits of ignored paths, such as `.env`, never lead to a build, however the debouncer sends
them. -/
theorem ignored_never_rebuild {d d' : Dev W} (hhonest : watcher.Honest) (hphase : d.phase = .waiting)
    (hidle : ¬Due watcher d) (hrun : Unedited watcher d d') :
    d'.rebuilds = d.rebuilds ∧ d'.Quiet ∧ ¬Due watcher d' := by
  induction hrun with
  | refl => exact ⟨rfl, .inl hphase, hidle⟩
  | step _ hstep hsource ih =>
    obtain ⟨hrebuilds, hquiet, hdue⟩ := ih
    obtain ⟨hquiet', hdue', hsame⟩ := not_due_step hhonest hquiet hdue hstep hsource
    exact ⟨hsame.trans hrebuilds, hquiet', hdue'⟩

/-- An edit of `.env` is noticed and sent. -/
theorem ignored_never_rebuild_env :
    let d : Dev (List String) :=
      { opened.edit ".env" with
        watch := some (0, [])
        queue := [.events [⟨".env", .any⟩]] }
    d.rebuilds = opened.rebuilds ∧ d.Quiet ∧ ¬Due debouncer d := by
  have hidle : ¬Due debouncer opened := by
    unfold Due
    simp [opened, first, start, build, started, debouncer]
  have hedit : Unedited debouncer opened
      { opened.edit ".env" with watch := some (0, [".env"]) } :=
    Unedited.step Unedited.refl (Step.noticed _ ".env" 0 [] [".env"] rfl rfl) (by decide)
  refine ignored_never_rebuild honest_debouncer rfl hidle (Unedited.step hedit
    (Step.send _ (.events [⟨".env", .any⟩]) 0 [".env"] [] rfl ⟨by simp, by simp⟩) rfl)

end Dev

end Cli

end ForgeIndex
