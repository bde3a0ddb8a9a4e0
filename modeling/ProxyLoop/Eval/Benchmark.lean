import Mathlib.Data.Char
import Mathlib.Data.List.Lex
import ProxyLoop.Eval.Resumes

/-!
# The benchmark

A benchmark spec is laid out in cells, which are run in a runs dir.
-/

namespace ProxyLoop.Matrix

open Lib (Dict)

/-! ## The spec -/

/-- `^[A-Za-z0-9]+$` -/
def isName (text : String) : Bool := text ≠ "" && text.toList.all Char.isAlphanum

/-- `^[a-z0-9-]+$` -/
def isId (text : String) : Bool :=
  text ≠ "" && text.toList.all fun c => c.isLower || c.isDigit || c = '-'

structure Task where
  id : String
  ref : String
  /-- `instance_hash(task)` -/
  hash : String
  plain : isId id = true

inductive Split
  | train | dev | test
  deriving DecidableEq

structure FamilySpec where
  family : String
  split : Split
  instances : List String
  seeds : List Int

structure Spec where
  conditions : List String
  families : List FamilySpec
  salt : Int
  named : ∀ c ∈ conditions, isName c = true
  /-- no condition and no instance is listed twice -/
  apart : conditions.Nodup ∧ (families.flatMap FamilySpec.instances).Nodup

structure Benchmark where
  spec : Spec
  tasks : Dict String Task
  family : Dict String String

inductive SpecError
  /-- `HeldOutRefused` -/
  | heldOut (families : List String)
  | noInstance (family instance_ : String)
  | load (text : String)

/-- The tasks of a family's instances: its file's one task. -/
def instancesOf (f : FamilySpec) (task : Task) : List String → Dict String Task →
    Except SpecError (Dict String Task)
  | [], tasks => .ok tasks
  | i :: rest, tasks =>
    if i ≠ task.id then .error (.noInstance f.family i)
    else instancesOf f task rest (tasks.set i task)

def tasksOf (load : String → Except String Task) : List FamilySpec → Dict String Task →
    Except SpecError (Dict String Task)
  | [], tasks => .ok tasks
  | f :: rest, tasks =>
    match load f.family with
    | .error text => .error (.load text)
    | .ok task => do
      let tasks ← instancesOf f task f.instances tasks
      tasksOf load rest tasks

/-- `load_spec`, of a spec that validates -/
def loadSpec (load : String → Except String Task) (spec : Spec) : Except SpecError Benchmark :=
  let held := spec.families.filter fun f => f.split = .test
  if held ≠ [] then .error (.heldOut (held.map FamilySpec.family))
  else do
    let tasks ← tasksOf load spec.families .empty
    let family := (spec.families.flatMap fun f => f.instances.map fun i => (i, f.family)).foldl
      (fun d p => d.set p.1 p.2) .empty
    .ok ⟨spec, tasks, family⟩

/-! ## The cells -/

/-- `random.Random(f"{salt}:{seed}:{instance}").shuffle` -/
structure Shuffle where
  order : Int → Int → String → List String → List String
  perm : ∀ salt seed instance_ l, (order salt seed instance_ l).Perm l

def schedule (sh : Shuffle) (conditions instances : List String) (seeds : List Int) (salt : Int) :
    List Cell :=
  seeds.flatMap fun seed => instances.flatMap fun i =>
    (sh.order salt seed i conditions).map fun c => ⟨c, i, seed⟩

inductive RunError
  /-- conditions that are not in the spec -/
  | unknown (conditions : List String)
  /-- folders outside the matrix -/
  | stray (folders : List (List Char))

/-- `cells` -/
def cellsOf (sh : Shuffle) (spec : Spec) (conditions : List String) :
    Except RunError (List Cell) :=
  let unknown := conditions.filter fun c => c ∉ spec.conditions
  if unknown ≠ [] then .error (.unknown unknown)
  else .ok (spec.families.flatMap fun f => schedule sh conditions f.instances f.seeds spec.salt)

/-! ## Running -/

/-- The files a session leaves under its run id. -/
structure Left where
  runId : String
  /-- the manifest is written at the end -/
  wrote : Bool
  events : Option (List Logged)

/-- What a session does. -/
structure Ran where
  left : Option Left
  raised : Option Raised
  killed : Bool := false

/-- The manifest of a session that ran a task with a seed. -/
def manifestOf (task : Task) (seed : Int) : Manifest := ⟨"train", task.ref, task.hash, seed⟩

variable {κ C : Type}

/-- `run_session(cfg, tasks[cell.instance])` -/
def sessionOf (bench : Benchmark) (ran : Nat → Cell → κ → Ran) : Session κ := fun k cell cfg =>
  match bench.tasks.get? cell.instance_ with
  | none => ⟨none, some (.failed "KeyError"), false⟩
  | some task =>
    let r := ran k cell cfg
    ⟨r.left.map fun l =>
      (l.runId, ⟨if l.wrote then some (manifestOf task cell.seed) else none, l.events⟩),
      r.raised, r.killed⟩

/-- The config of a cell: its condition's, with its seed. -/
def configOf (configs : Dict String C) (withSeed : C → Int → Except String κ) (cell : Cell) :
    Except String κ :=
  match configs.get? cell.condition with
  | none => .error "KeyError"
  | some c => withSeed c cell.seed

def run (bench : Benchmark) (sh : Shuffle) (configs : Dict String C)
    (withSeed : C → Int → Except String κ) (ran : Nat → Cell → κ → Ran) (disk : Disk) :
    Except RunError (Disk × Except Stop (List CellRun)) := do
  let todo ← cellsOf sh bench.spec configs.keys
  let planned := todo.zipIdx.map fun c => name (cellDir c.2 c.1)
  let stray := ((disk.keys.map name).filter fun d => d ∉ planned).insertionSort (· ≤ ·)
  if stray ≠ [] then .error (.stray stray)
  else .ok (runMatrix (configOf configs withSeed) (sessionOf bench ran) todo disk)

/-! ## A planned cell -/

/-- The spec has the cell's condition and instance. -/
structure Planned (bench : Benchmark) (cell : Cell) : Prop where
  condition : cell.condition ∈ bench.spec.conditions
  task : ∃ task, bench.tasks.get? cell.instance_ = some task
  id : isId cell.instance_ = true
  family : ∃ family, bench.family.get? cell.instance_ = some family

theorem not_mem_of_isName {text : String} (h : isName text = true) :
    text ≠ "" ∧ '-' ∉ text.toList ∧ '/' ∉ text.toList := by
  simp only [isName, Bool.and_eq_true, decide_eq_true_eq, List.all_eq_true, ne_eq] at h
  refine ⟨h.1, fun bad => ?_, fun bad => ?_⟩ <;> exact absurd (h.2 _ bad) (by decide)

theorem not_mem_of_isId {text : String} (h : isId text = true) :
    text ≠ "" ∧ '\n' ∉ text.toList ∧ '/' ∉ text.toList := by
  simp only [isId, Bool.and_eq_true, decide_eq_true_eq, List.all_eq_true, ne_eq] at h
  refine ⟨h.1, fun bad => ?_, fun bad => ?_⟩ <;> exact absurd (h.2 _ bad) (by decide)

section

variable {bench : Benchmark} {cell : Cell}

theorem Planned.flat (h : Planned bench cell) :
    '/' ∉ cell.condition.toList ∧ '/' ∉ cell.instance_.toList :=
  ⟨(not_mem_of_isName (bench.spec.named _ h.condition)).2.2, (not_mem_of_isId h.id).2.2⟩

theorem Planned.plain (h : Planned bench cell) : '-' ∉ cell.condition.toList :=
  (not_mem_of_isName (bench.spec.named _ h.condition)).2.1

theorem Planned.readable (h : Planned bench cell) : Readable cell ↔ 0 ≤ cell.seed := by
  refine ⟨Readable.seeded, fun seeded => ?_⟩
  exact ⟨(not_mem_of_isName (bench.spec.named _ h.condition)).1, h.plain, (not_mem_of_isId h.id).1,
    (not_mem_of_isId h.id).2.1, h.flat, seeded⟩

theorem Planned.name (h : Planned bench cell) (k : Nat) : name (cellDir k cell) = cellDir k cell :=
  name_eq (flat_cellDir h.flat k)

theorem Planned.read (h : Planned bench cell) (k : Nat) :
    readCellDir (Matrix.name (cellDir k cell)) =
      if k < 10000 ∧ 0 ≤ cell.seed then some cell else none := by
  split
  · rename_i fits
    exact (readCellDir_cellDir k cell).mpr ⟨fits.1, h.readable.mpr fits.2⟩
  · rename_i unfit
    cases read : readCellDir (Matrix.name (cellDir k cell)) with
    | none => rfl
    | some other =>
      obtain rfl := readCellDir_own h.flat h.plain read
      obtain ⟨small, readable⟩ := (readCellDir_cellDir k other).mp read
      exact absurd ⟨small, h.readable.mp readable⟩ unfit

end

/-! ## The plan -/

theorem instancesOf_ok {f : FamilySpec} {task : Task} {l : List String}
    {tasks tasks' : Dict String Task} (h : instancesOf f task l tasks = .ok tasks') :
    (∀ i ∈ l, i = task.id ∧ ∃ t, tasks'.get? i = some t) ∧
      ∀ i t, tasks.get? i = some t → ∃ t', tasks'.get? i = some t' := by
  induction l generalizing tasks with
  | nil =>
    cases h
    exact ⟨by simp, fun i t ht => ⟨t, ht⟩⟩
  | cons i l ih =>
    unfold instancesOf at h
    split at h
    · cases h
    · rename_i same
      obtain ⟨all, kept⟩ := ih h
      have there := kept i task (Dict.get?_set_self ..)
      refine ⟨List.forall_mem_cons.mpr ⟨⟨not_not.mp same, there⟩, all⟩, fun j t ht => ?_⟩
      by_cases own : j = i
      · rw [own]
        exact there
      · exact kept j t (by rw [Dict.get?_set_ne _ own, ht])

theorem tasksOf_ok {load : String → Except String Task} {fs : List FamilySpec}
    {tasks tasks' : Dict String Task} (h : tasksOf load fs tasks = .ok tasks') :
    (∀ f ∈ fs, ∀ i ∈ f.instances, isId i = true ∧ ∃ t, tasks'.get? i = some t) ∧
      ∀ i t, tasks.get? i = some t → ∃ t', tasks'.get? i = some t' := by
  induction fs generalizing tasks with
  | nil =>
    cases h
    exact ⟨by simp, fun i t ht => ⟨t, ht⟩⟩
  | cons f fs ih =>
    unfold tasksOf at h
    split at h
    · cases h
    · rename_i task loaded
      cases made : instancesOf f task f.instances tasks with
      | error e =>
        rw [made] at h
        cases h
      | ok tasks₁ =>
        rw [made] at h
        obtain ⟨own, kept⟩ := instancesOf_ok made
        obtain ⟨all, kept'⟩ := ih h
        refine ⟨List.forall_mem_cons.mpr ⟨fun i hi => ?_, all⟩, fun i t ht => ?_⟩
        · obtain ⟨same, t, ht⟩ := own i hi
          exact ⟨same ▸ task.plain, kept' i t ht⟩
        · obtain ⟨t', ht'⟩ := kept i t ht
          exact kept' i t' ht'

theorem get?_foldl_set {l : List (String × String)} {d : Dict String String} {k : String}
    (h : k ∈ l.map Prod.fst ∨ ∃ v, d.get? k = some v) :
    ∃ v, (l.foldl (fun d p => d.set p.1 p.2) d).get? k = some v := by
  induction l generalizing d with
  | nil => exact h.resolve_left List.not_mem_nil
  | cons p l ih =>
    refine ih ?_
    by_cases own : k = p.1
    · exact .inr ⟨p.2, by rw [own, Dict.get?_set_self]⟩
    · rw [Dict.get?_set_ne _ own]
      exact h.imp_left fun mem => (List.mem_cons.mp mem).resolve_left own

/-- What `load_spec` knows of each instance. -/
theorem loadSpec_ok {load : String → Except String Task} {spec : Spec} {bench : Benchmark}
    (h : loadSpec load spec = .ok bench) : bench.spec = spec ∧
      ∀ f ∈ spec.families, ∀ i ∈ f.instances, isId i = true ∧
        (∃ t, bench.tasks.get? i = some t) ∧ ∃ f, bench.family.get? i = some f := by
  unfold loadSpec at h
  dsimp only at h
  split at h
  · cases h
  · cases made : tasksOf load spec.families .empty with
    | error e =>
      rw [made] at h
      cases h
    | ok tasks =>
      rw [made] at h
      cases h
      refine ⟨rfl, fun f hf i hi => ?_⟩
      obtain ⟨id, task⟩ := (tasksOf_ok made).1 f hf i hi
      refine ⟨id, task, get?_foldl_set (.inl ?_)⟩
      rw [List.mem_map]
      exact ⟨(i, f.family), List.mem_flatMap.mpr ⟨f, hf, List.mem_map.mpr ⟨i, hi, rfl⟩⟩, rfl⟩

theorem planned_of_cellsOf {load : String → Except String Task} {spec : Spec} {bench : Benchmark}
    (loaded : loadSpec load spec = .ok bench) {sh : Shuffle} {conditions : List String}
    {todo : List Cell} (h : cellsOf sh bench.spec conditions = .ok todo) :
    ∀ cell ∈ todo, Planned bench cell := by
  obtain ⟨rfl, known⟩ := loadSpec_ok loaded
  unfold cellsOf at h
  dsimp only at h
  split at h
  · cases h
  · rename_i listed
    cases h
    intro cell mem
    simp only [schedule, List.mem_flatMap, List.mem_map] at mem
    obtain ⟨f, hf, seed, -, i, hi, c, hc, rfl⟩ := mem
    obtain ⟨id, task, family⟩ := known f hf i hi
    refine ⟨?_, task, id, family⟩
    have mem := (sh.perm _ _ _ _).mem_iff.mp hc
    have := List.filter_eq_nil_iff.mp (not_not.mp listed) c mem
    simpa using this

end ProxyLoop.Matrix
