import Mathlib.Data.List.Sort
import ProxyLoop.Eval.Cells
import ProxyLoop.Evidence.Chain
import ProxyLoop.Lib.Dict

/-!
# The evaluation matrix and its resumes

`run_matrix` runs one session a cell and stops at a dead endpoint, runaway spend or a changed
model; a later run resumes it.  A session is open: it may leave a bundle, and fail in any way, and
the process may die in it.
-/

namespace ProxyLoop.Matrix

open Lib (Dict)
open Chain (LLMRole)

/-! ## Bundles -/

/-- What is read of an event. -/
inductive Logged
  /-- `llm.call`, with the served model's echo -/
  | call (role : LLMRole) (requested : String) (echo : Option String)
  /-- `session.ended` -/
  | ended (reason : String)
  | other
  deriving DecidableEq

/-- What is read of a `manifest.json`. -/
structure Manifest where
  split : String
  taskRef : String
  instanceHash : String
  /-- `cfg.seed` -/
  seed : Int
  deriving DecidableEq

/-- A bundle dir; a file that is missing or does not validate is `none`. -/
structure Bundle where
  manifest : Option Manifest
  events : Option (List Logged)

/-- The events of `read_bundle`. -/
def readBundle (b : Bundle) : Option (List Logged) := b.manifest.bind fun _ => b.events

/-- The bundle dirs of a cell's folder, by name. -/
abbrev Folder := Dict String Bundle

/-- The folders of a runs dir, by name. -/
abbrev Disk := Dict (List Char) Folder

def Disk.folder (disk : Disk) (dir : List Char) : Folder := (disk.get? dir).getD .empty

/-- `sorted(_bundles(folder))` -/
def bundles (folder : Folder) : List (String × Bundle) :=
  folder.entries.insertionSort fun a b => a.1 ≤ b.1

/-! ## Stops -/

/-- The exception `run_session` raises. -/
inductive Raised
  /-- `LLMUnavailable` -/
  | unavailable
  /-- `RunawaySpend` -/
  | runaway
  /-- another, by its text -/
  | failed (text : String)
  deriving DecidableEq

inductive Stop
  /-- `MatrixAborted` by `check_echo` -/
  | served (role : LLMRole) (requested echo first : String)
  /-- `MatrixAborted` by an end reason -/
  | aborted (cell : Cell) (reason : String)
  | raised (error : Raised)
  /-- the process dies in a session -/
  | killed
  /-- no such condition, or its config does not validate -/
  | config (text : String)
  deriving DecidableEq

def ABORT : List String := ["llm_unavailable", "budget", "p3_failed"]

def RERUN : List String := ["llm_unavailable", "unended", "unreadable"]

/-! ## Reading -/

abbrev Seen := Dict (LLMRole × String) String

def checkEcho : List (LLMRole × String × String) → Seen → Except Stop Seen
  | [], seen => .ok seen
  | (role, requested, echo) :: calls, seen =>
    match seen.get? (role, requested) with
    | none => checkEcho calls (seen.set (role, requested) echo)
    | some first =>
      if echo ≠ first then .error (.served role requested echo first) else checkEcho calls seen

def echoes (events : List Logged) : List (LLMRole × String × String) :=
  events.filterMap fun
    | .call role requested (some echo) => some (role, requested, echo)
    | _ => none

def reasonOf (events : List Logged) : String :=
  match events.getLast? with
  | some (.ended reason) => reason
  | _ => "unended"

def ended (b : Bundle) (seen : Seen) : Except Stop (String × Seen) :=
  match readBundle b with
  | none => .ok ("unreadable", seen)
  | some events => do
    let seen ← checkEcho (echoes events) seen
    .ok (reasonOf events, seen)

/-- The last of the bundles that is not run again. -/
def keptOf : List (String × Bundle) → Option (String × String) → Seen →
    Except Stop (Option (String × String) × Seen)
  | [], done, seen => .ok (done, seen)
  | (path, b) :: rest, done, seen => do
    let (reason, seen) ← ended b seen
    keptOf rest (if reason ∈ RERUN then done else some (path, reason)) seen

def kept (folder : Folder) (seen : Seen) : Except Stop (Option (String × String) × Seen) :=
  keptOf (bundles folder) none seen

/-! ## Running -/

/-- `CellRun`; without a bundle the path is the cell's folder. -/
structure CellRun where
  cell : Cell
  path : Option String
  reason : String
  error : Option String
  deriving DecidableEq

/-- What a session leaves: perhaps a bundle, under its run id, and perhaps an exception; and whether
the process dies in it. -/
structure Outcome where
  bundle : Option (String × Bundle)
  raised : Option Raised
  killed : Bool := false

/-- What the sessions of one invocation do, by the cell and its config. -/
abbrev Session (κ : Type) := Nat → Cell → κ → Outcome

/-- A session makes its dir, which must be new. -/
def Outcome.on (out : Outcome) (before : Folder) : Folder × Option Raised :=
  match out.bundle with
  | none => (before, out.raised)
  | some (runId, b) =>
    if before.has runId then (before, some (.failed "FileExistsError"))
    else (before.set runId b, out.raised)

/-- `_bundles(folder) - before`, in order. -/
def fresh (after before : Folder) : List (String × Bundle) :=
  (bundles after).filter fun d => !before.has d.1

structure State where
  disk : Disk
  seen : Seen
  runs : List CellRun

variable {κ : Type}

def endedNew (new : Option (String × Bundle)) (seen : Seen) : Except Stop (String × Seen) :=
  match new with
  | some d => ended d.2 seen
  | none => .ok ("no_bundle", seen)

/-- The row of a cell that ended, or why the matrix stops there. -/
def rowOf (cell : Cell) (path : Option String) (caught : Option Raised) (reason : String) :
    Except Stop CellRun :=
  match caught with
  | some .unavailable => .error (.raised .unavailable)
  | some .runaway => .error (.raised .runaway)
  | some (.failed text) =>
    if reason ∈ ABORT then .error (.aborted cell reason)
    else .ok ⟨cell, path, reason, some text⟩
  | none => if reason ∈ ABORT then .error (.aborted cell reason) else .ok ⟨cell, path, reason, none⟩

def judge (cell : Cell) (new : Option (String × Bundle)) (caught : Option Raised) (seen : Seen) :
    Except Stop (CellRun × Seen) := do
  let (reason, seen) ← endedNew new seen
  let run ← rowOf cell (new.map Prod.fst) caught reason
  .ok (run, seen)

def runCell (configs : Cell → Except String κ) (session : Session κ) (k : Nat) (cell : Cell)
    (s : State) : State × Option Stop :=
  let dir := cellDir k cell
  let before := s.disk.folder dir
  match kept before s.seen with
  | .error stop => (s, some stop)
  | .ok (some (path, reason), seen) =>
    ({ s with seen, runs := s.runs ++ [⟨cell, some path, reason, none⟩] }, none)
  | .ok (none, seen) =>
    match configs cell with
    | .error text => ({ s with disk := s.disk.set dir before }, some (.config text))
    | .ok cfg =>
      let out := session k cell cfg
      let (after, caught) := out.on before
      let disk := s.disk.set dir after
      if out.killed then ({ s with disk }, some .killed)
      else
        match judge cell (fresh after before).getLast? caught seen with
        | .error stop => ({ s with disk }, some stop)
        | .ok (run, seen) => ({ disk, seen, runs := s.runs ++ [run] }, none)

def runFrom (configs : Cell → Except String κ) (session : Session κ) :
    Nat → List Cell → State → State × Option Stop
  | _, [], s => (s, none)
  | k, cell :: cells, s =>
    match runCell configs session k cell s with
    | (s, some stop) => (s, some stop)
    | (s, none) => runFrom configs session (k + 1) cells s

/-- `run_matrix`: the runs dir it leaves, and its rows or why it stopped. -/
def runMatrix (configs : Cell → Except String κ) (session : Session κ) (cells : List Cell)
    (disk : Disk) : Disk × Except Stop (List CellRun) :=
  match runFrom configs session 0 cells ⟨disk, .empty, []⟩ with
  | (s, some stop) => (s.disk, .error stop)
  | (s, none) => (s.disk, .ok s.runs)

/-- The runs dir after some invocations, from a new one. -/
def resumed (configs : Cell → Except String κ) (cells : List Cell) (sessions : List (Session κ)) :
    Disk :=
  sessions.foldl (fun disk session => (runMatrix configs session cells disk).1) .empty

/-! ## What a folder keeps -/

def reason (b : Bundle) : String :=
  match readBundle b with
  | none => "unreadable"
  | some events => reasonOf events

/-- The bundle is not run again. -/
def Final (b : Bundle) : Prop := reason b ∉ RERUN

instance (b : Bundle) : Decidable (Final b) := inferInstanceAs (Decidable (_ ∉ _))

/-- At most one bundle of the folder is final. -/
def Once (folder : Folder) : Prop :=
  ∀ n b n' b', folder.get? n = some b → folder.get? n' = some b' → Final b → Final b' → n = n'

/-- What later invocations do to a folder: bundles are added, none after a final one. -/
structure Grown (folder folder' : Folder) : Prop where
  held : ∀ n b, folder.get? n = some b → folder'.get? n = some b
  frozen : ∀ n b, folder.get? n = some b → Final b → folder' = folder
  once : Once folder → Once folder'

theorem Grown.refl (folder : Folder) : Grown folder folder :=
  ⟨fun _ _ h => h, fun _ _ _ _ => rfl, fun h => h⟩

theorem Grown.trans {a b c : Folder} (h : Grown a b) (h' : Grown b c) : Grown a c where
  held n x hx := h'.held n x (h.held n x hx)
  frozen n x hx final := by
    have same := h.frozen n x hx final
    rw [h'.frozen n x (h.held n x hx) final, same]
  once once := h'.once (h.once once)

/-- A folder without a final bundle may get one. -/
theorem Grown.add {folder : Folder} (none_ : ∀ n b, folder.get? n = some b → ¬ Final b)
    {runId : String} (new : folder.get? runId = none) (b : Bundle) :
    Grown folder (folder.set runId b) where
  held n x hx := by
    have other : n ≠ runId := by
      rintro rfl
      rw [new] at hx
      cases hx
    rw [Dict.get?_set_ne _ other, hx]
  frozen n x hx final := absurd final (none_ n x hx)
  once _ n x n' x' hx hx' final final' := by
    have own : ∀ {n x}, (folder.set runId b).get? n = some x → Final x → n = runId := by
      intro n x hx final
      by_contra other
      rw [Dict.get?_set_ne _ other] at hx
      exact none_ n x hx final
    rw [own hx final, own hx' final']

/-! ## What the matrix has seen -/

def Extends (seen seen' : Seen) : Prop := ∀ key echo, seen.get? key = some echo →
  seen'.get? key = some echo

theorem Extends.refl (seen : Seen) : Extends seen seen := fun _ _ h => h

theorem Extends.trans {a b c : Seen} (h : Extends a b) (h' : Extends b c) : Extends a c :=
  fun key echo hk => h' key echo (h key echo hk)

/-- Every echo of the bundle is the one seen. -/
def Served (seen : Seen) (b : Bundle) : Prop :=
  ∀ role requested echo, (role, requested, echo) ∈ echoes ((readBundle b).getD []) →
    seen.get? (role, requested) = some echo

theorem Served.mono {seen seen' : Seen} {b : Bundle} (h : Served seen b)
    (ext : Extends seen seen') : Served seen' b :=
  fun role requested echo mem => ext _ _ (h role requested echo mem)

theorem checkEcho_ok {calls : List (LLMRole × String × String)} {seen seen' : Seen}
    (h : checkEcho calls seen = .ok seen') : Extends seen seen' ∧
      ∀ role requested echo, (role, requested, echo) ∈ calls →
        seen'.get? (role, requested) = some echo := by
  induction calls generalizing seen with
  | nil =>
    cases h
    exact ⟨.refl _, by simp⟩
  | cons call calls ih =>
    obtain ⟨role, requested, echo⟩ := call
    unfold checkEcho at h
    split at h
    · rename_i new
      obtain ⟨ext, rest⟩ := ih h
      refine ⟨fun key v hk => ext key v ?_, fun role' requested' echo' mem => ?_⟩
      · rw [Dict.get?_set_ne _ (by rintro rfl; rw [new] at hk; cases hk), hk]
      · rcases List.mem_cons.mp mem with same | mem
        · cases same
          exact ext _ _ (by rw [Dict.get?_set, if_pos rfl])
        · exact rest _ _ _ mem
    · rename_i first found
      split at h
      · cases h
      · rename_i same
        obtain ⟨ext, rest⟩ := ih h
        refine ⟨ext, fun role' requested' echo' mem => ?_⟩
        rcases List.mem_cons.mp mem with same' | mem
        · cases same'
          rw [not_not.mp same]
          exact ext _ _ found
        · exact rest _ _ _ mem

theorem ended_ok {b : Bundle} {seen seen' : Seen} {r : String} (h : ended b seen = .ok (r, seen')) :
    r = reason b ∧ Extends seen seen' ∧ Served seen' b := by
  unfold ended at h
  split at h
  · rename_i unread
    cases h
    refine ⟨by rw [reason, unread], .refl _, ?_⟩
    simp [Served, unread, echoes]
  · rename_i events read
    cases checked : checkEcho (echoes events) seen with
    | error stop =>
      rw [checked] at h
      cases h
    | ok seen₁ =>
      rw [checked] at h
      cases h
      obtain ⟨ext, served⟩ := checkEcho_ok checked
      refine ⟨by rw [reason, read], ext, ?_⟩
      rw [Served, read]
      exact served

theorem mem_bundles {folder : Folder} {n : String} {b : Bundle} :
    (n, b) ∈ bundles folder ↔ folder.get? n = some b := by
  rw [bundles, List.mem_insertionSort, Dict.get?_eq_some]

/-- The last final bundle, or what was found before. -/
theorem keptOf_ok {l : List (String × Bundle)} {done done' : Option (String × String)}
    {seen seen' : Seen} (h : keptOf l done seen = .ok (done', seen')) :
    Extends seen seen' ∧ (∀ d ∈ l, Served seen' d.2) ∧
      (done' = done ∧ (∀ d ∈ l, ¬ Final d.2) ∨
        ∃ d ∈ l, Final d.2 ∧ done' = some (d.1, reason d.2)) := by
  induction l generalizing done seen with
  | nil =>
    cases h
    exact ⟨.refl _, by simp, .inl ⟨rfl, by simp⟩⟩
  | cons d l ih =>
    obtain ⟨path, b⟩ := d
    unfold keptOf at h
    cases read : ended b seen with
    | error stop =>
      rw [read] at h
      cases h
    | ok found =>
      obtain ⟨r, seen₁⟩ := found
      rw [read] at h
      obtain ⟨rfl, ext, served⟩ := ended_ok read
      obtain ⟨ext', all, rest⟩ := ih h
      refine ⟨ext.trans ext', List.forall_mem_cons.mpr ⟨served.mono ext', all⟩, ?_⟩
      rcases rest with ⟨same, bare⟩ | ⟨d, hd, final, same⟩
      · by_cases final : Final b
        · rw [if_neg final] at same
          exact .inr ⟨(path, b), List.mem_cons_self, final, same⟩
        · rw [if_pos (not_not.mp final)] at same
          exact .inl ⟨same, List.forall_mem_cons.mpr ⟨final, bare⟩⟩
      · exact .inr ⟨d, List.mem_cons_of_mem _ hd, final, same⟩

theorem kept_ok {folder : Folder} {seen seen' : Seen} {done : Option (String × String)}
    (h : kept folder seen = .ok (done, seen')) :
    Extends seen seen' ∧ (∀ n b, folder.get? n = some b → Served seen' b) ∧
      (done = none ∧ (∀ n b, folder.get? n = some b → ¬ Final b) ∨
        ∃ n b, folder.get? n = some b ∧ Final b ∧ done = some (n, reason b)) := by
  obtain ⟨ext, served, found⟩ := keptOf_ok h
  refine ⟨ext, fun n b hb => served _ (mem_bundles.mpr hb), ?_⟩
  rcases found with ⟨rfl, bare⟩ | ⟨⟨n, b⟩, hd, final, rfl⟩
  · exact .inl ⟨rfl, fun n b hb => bare _ (mem_bundles.mpr hb)⟩
  · exact .inr ⟨n, b, mem_bundles.mp hd, final, rfl⟩

/-! ## A session -/

/-- A session leaves the folder as it was, or with one new bundle. -/
theorem on_cases {out : Outcome} {before after : Folder} {caught : Option Raised}
    (h : out.on before = (after, caught)) :
    after = before ∧ fresh after before = [] ∨
      ∃ runId b, before.get? runId = none ∧ after = before.set runId b ∧
        fresh after before = [(runId, b)] := by
  have still : fresh before before = [] := by
    rw [fresh, List.filter_eq_nil_iff]
    intro d hd
    rw [Dict.has, mem_bundles.mp hd]
    simp
  unfold Outcome.on at h
  split at h
  · cases h
    exact .inl ⟨rfl, still⟩
  · rename_i runId b _
    split at h
    · cases h
      exact .inl ⟨rfl, still⟩
    · rename_i new
      cases h
      have new : before.get? runId = none := by simpa [Dict.has] using new
      refine .inr ⟨runId, b, new, rfl, ?_⟩
      have keys : runId ∉ before.entries.map Prod.fst := by
        intro mem
        obtain ⟨⟨_, x⟩, hx, rfl⟩ := List.mem_map.mp mem
        rw [Dict.get?_eq_some.mpr hx] at new
        cases new
      have entries : (before.set runId b).entries = before.entries ++ [(runId, b)] :=
        Lib.setEntries_new keys
      have sorted : (bundles (before.set runId b)).Perm (before.entries ++ [(runId, b)]) := by
        rw [← entries]
        exact List.perm_insertionSort _ _
      have old : before.entries.filter (fun d => !before.has d.1) = [] := by
        rw [List.filter_eq_nil_iff]
        rintro ⟨n, x⟩ hx
        rw [Dict.has, Dict.get?_eq_some.mpr hx]
        simp
      have only := sorted.filter fun d => !before.has d.1
      rw [List.filter_append, old, List.nil_append,
        List.filter_cons_of_pos (by simp [Dict.has, new]), List.filter_nil] at only
      exact List.perm_singleton.mp only

theorem made_of_on {out : Outcome} {before after : Folder} {caught : Option Raised}
    (h : out.on before = (after, caught)) {n : String} {b : Bundle} (hb : after.get? n = some b) :
    before.get? n = some b ∨ out.bundle = some (n, b) := by
  unfold Outcome.on at h
  split at h
  · cases h
    exact .inl hb
  · rename_i left
    split at h
    · cases h
      exact .inl hb
    · cases h
      rw [Dict.get?_set] at hb
      split at hb
      · rename_i same
        cases hb
        exact .inr (by rw [left, same])
      · exact .inl hb

structure RowOf (folder : Folder) (row : CellRun) : Prop where
  read : ∀ path, row.path = some path → ∃ b, folder.get? path = some b ∧ row.reason = reason b
  bare : row.path = none → row.reason = "no_bundle"
  scored : ∀ n b, folder.get? n = some b → Final b → row.path = some n
  alive : row.reason ≠ "llm_unavailable"

theorem endedNew_ok {new : Option (String × Bundle)} {seen seen' : Seen} {r : String}
    (h : endedNew new seen = .ok (r, seen')) : Extends seen seen' ∧
      (new = none → r = "no_bundle") ∧ ∀ d, new = some d → r = reason d.2 ∧ Served seen' d.2 := by
  cases new with
  | none =>
    cases h
    exact ⟨.refl _, fun _ => rfl, by simp⟩
  | some d =>
    obtain ⟨same, ext, served⟩ := ended_ok h
    refine ⟨ext, by simp, fun d' hd => ?_⟩
    cases hd
    exact ⟨same, served⟩

theorem rowOf_ok {cell : Cell} {path : Option String} {caught : Option Raised} {r : String}
    {row : CellRun} (h : rowOf cell path caught r = .ok row) :
    row.cell = cell ∧ row.path = path ∧ row.reason = r ∧ r ∉ ABORT := by
  unfold rowOf at h
  split at h
  · cases h
  · cases h
  · split at h
    · cases h
    · rename_i on
      cases h
      exact ⟨rfl, rfl, rfl, on⟩
  · split at h
    · cases h
    · rename_i on
      cases h
      exact ⟨rfl, rfl, rfl, on⟩

theorem judge_ok {cell : Cell} {new : Option (String × Bundle)} {caught : Option Raised}
    {seen seen' : Seen} {row : CellRun} (h : judge cell new caught seen = .ok (row, seen')) :
    row.cell = cell ∧ row.path = new.map Prod.fst ∧ row.reason ∉ ABORT ∧ Extends seen seen' ∧
      (new = none → row.reason = "no_bundle") ∧
      ∀ d, new = some d → row.reason = reason d.2 ∧ Served seen' d.2 := by
  unfold judge at h
  cases read : endedNew new seen with
  | error stop =>
    rw [read] at h
    cases h
  | ok found =>
    obtain ⟨r, seen₁⟩ := found
    rw [read] at h
    cases made : rowOf cell (new.map Prod.fst) caught r with
    | error stop =>
      simp only [bind, Except.bind, made] at h
      cases h
    | ok run =>
      simp only [bind, Except.bind, made] at h
      cases h
      obtain ⟨own, path, rfl, on⟩ := rowOf_ok made
      obtain ⟨ext, bare, left⟩ := endedNew_ok read
      exact ⟨own, path, on, ext, bare, left⟩

end ProxyLoop.Matrix
