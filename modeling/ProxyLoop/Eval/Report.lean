import Mathlib.Data.List.Forall2
import Mathlib.Data.List.Perm.Basic
import ProxyLoop.Eval.Benchmark

/-!
# The benchmark's report of a matrix

The report finds one bundle a cell in the folders of a runs dir, and checks that it ran the cell.
-/

namespace ProxyLoop.Matrix

open Lib (Dict)
open Chain (LLMRole)

/-! ## The report -/

structure Found where
  cell : Cell
  path : Option String
  manifest : Option Manifest
  /-- the runs dir it came from -/
  matrix : Nat

/-- A condition, and a family, an instance and a seed. -/
abbrev Key := String × String × String × Int

inductive ReportError
  | notACell (folder : List Char)
  /-- `HeldOutRefused` -/
  | heldOut (folder : List Char)
  | twice (cell : Cell)
  /-- a bundle that ran another cell -/
  | other (cell : Cell) (got : Manifest)
  | stopped (stop : Stop)
  /-- no such key -/
  | missing (instance_ : String)

/-- The bundle of a folder: the one a resume keeps, else the latest, else none. -/
def chosen (folder : Folder) (done : Option (String × String)) : Option String :=
  match done with
  | some (path, _) => some path
  | none => (bundles folder).getLast?.map Prod.fst

def discoverOne (bench : Benchmark) (matrix : Nat) (dir : List Char) (folder : Folder)
    (seen : Seen) (found : Dict Key Found) : Except ReportError (Seen × Dict Key Found) :=
  match readCellDir (name dir) with
  | none => .error (.notACell dir)
  | some cell =>
    if cell.condition ∉ bench.spec.conditions then .error (.notACell dir)
    else match bench.tasks.get? cell.instance_ with
    | none => .error (.notACell dir)
    | some task =>
      if folder.values.any fun b => b.manifest.any fun m => m.split = "test" then
        .error (.heldOut dir)
      else match kept folder seen with
      | .error stop => .error (.stopped stop)
      | .ok (done, seen) =>
        let path := chosen folder done
        match bench.family.get? cell.instance_ with
        | none => .error (.missing cell.instance_)
        | some family =>
          let key := (cell.condition, family, cell.instance_, cell.seed)
          if found.has key then .error (.twice cell)
          else
            let m := (path.bind folder.get?).bind Bundle.manifest
            match m with
            | none => .ok (seen, found.set key ⟨cell, path, none, matrix⟩)
            | some m =>
              if (m.taskRef, m.instanceHash, m.seed) ≠ (task.ref, task.hash, cell.seed) then
                .error (.other cell m)
              else .ok (seen, found.set key ⟨cell, path, some m, matrix⟩)

def discoverFrom (bench : Benchmark) : List (Nat × List Char × Folder) → Seen → Dict Key Found →
    Except ReportError (List Found)
  | [], _, found => .ok found.values
  | (matrix, dir, folder) :: rest, seen, found => do
    let (seen, found) ← discoverOne bench matrix dir folder seen found
    discoverFrom bench rest seen found

def folders (disk : Disk) : List (List Char × Folder) :=
  disk.entries.insertionSort fun a b => a.1 ≤ b.1

def discover (bench : Benchmark) (runsDirs : List Disk) : Except ReportError (List Found) :=
  discoverFrom bench (runsDirs.zipIdx.flatMap fun d => (folders d.1).map fun f => (d.2, f.1, f.2))
    .empty .empty

variable {κ C : Type}

/-! ## One folder of the report -/

section

variable {all seen seen' : Seen}

/-- What was served by one model is never refused. -/
theorem checkEcho_agrees {calls : List (LLMRole × String × String)}
    (served : ∀ role requested echo, (role, requested, echo) ∈ calls →
      all.get? (role, requested) = some echo) (ext : Extends seen all) :
    ∃ seen', checkEcho calls seen = .ok seen' ∧ Extends seen' all := by
  induction calls generalizing seen with
  | nil => exact ⟨seen, rfl, ext⟩
  | cons call calls ih =>
    obtain ⟨role, requested, echo⟩ := call
    have own := served role requested echo List.mem_cons_self
    have rest := fun r q e mem => served r q e (List.mem_cons_of_mem _ mem)
    unfold checkEcho
    split
    · refine ih rest fun key v hk => ?_
      rw [Dict.get?_set] at hk
      split at hk
      · rename_i same
        cases hk
        rw [same, own]
      · exact ext key v hk
    · rename_i first found
      have same : echo = first := Option.some.inj (own.symm.trans (ext _ _ found))
      rw [if_neg (not_not.mpr same)]
      exact ih rest ext

theorem ended_agrees {b : Bundle} (served : Served all b) (ext : Extends seen all) :
    ∃ r seen', ended b seen = .ok (r, seen') ∧ Extends seen' all := by
  unfold ended
  cases read : readBundle b with
  | none => exact ⟨_, seen, rfl, ext⟩
  | some events =>
    rw [Served, read] at served
    obtain ⟨seen', checked, ext'⟩ := checkEcho_agrees served ext
    rw [Option.getD_some] at checked
    exact ⟨reasonOf events, seen', by simp only [checked]; rfl, ext'⟩

theorem kept_agrees {folder : Folder} (served : ∀ n b, folder.get? n = some b → Served all b)
    (ext : Extends seen all) :
    ∃ done seen', kept folder seen = .ok (done, seen') ∧ Extends seen' all := by
  have step : ∀ (l : List (String × Bundle)) (done : Option (String × String)) (seen : Seen),
      (∀ d ∈ l, Served all d.2) → Extends seen all →
      ∃ done' seen', keptOf l done seen = .ok (done', seen') ∧ Extends seen' all := by
    intro l
    induction l with
    | nil => exact fun done seen _ ext => ⟨done, seen, rfl, ext⟩
    | cons d l ih =>
      intro done seen served ext
      obtain ⟨own, rest⟩ := List.forall_mem_cons.mp served
      obtain ⟨r, seen₁, read, ext₁⟩ := ended_agrees own ext
      rw [keptOf, read]
      exact ih _ seen₁ rest ext₁
  exact step _ none seen (fun d hd => served d.1 d.2 (mem_bundles.mp hd)) ext

end

/-- The report's path is the final bundle of the folder, if there is one. -/
def Reported (folder : Folder) (f : Found) : Prop :=
  Once folder → ∀ n b, folder.get? n = some b → Final b → f.path = some n

def keyOf (bench : Benchmark) (cell : Cell) : Option Key :=
  (bench.family.get? cell.instance_).map fun family =>
    (cell.condition, family, cell.instance_, cell.seed)

/-- Every bundle found is under the key of its cell. -/
def Keyed (bench : Benchmark) (found : Dict Key Found) : Prop :=
  ∀ key f, found.get? key = some f → keyOf bench f.cell = some key

section

variable {bench : Benchmark} {matrix : Nat} {dir : List Char} {folder : Folder}
  {seen seen' : Seen} {found found' : Dict Key Found}

theorem discoverOne_ok (h : discoverOne bench matrix dir folder seen found = .ok (seen', found')) :
    ∃ key f, readCellDir (name dir) = some f.cell ∧ Reported folder f ∧
      keyOf bench f.cell = some key ∧ found.has key = false ∧ found' = found.set key f := by
  unfold discoverOne at h
  split at h
  · cases h
  rename_i cell read
  split at h
  · cases h
  split at h
  · cases h
  rename_i task _
  split at h
  · cases h
  split at h
  · cases h
  rename_i done seen₁ kept_
  have reported : ∀ m, Reported folder ⟨cell, chosen folder done, m, matrix⟩ := by
    intro m once n b hb final
    rcases (kept_ok kept_).2.2 with ⟨-, bare⟩ | ⟨n', b', hb', final', rfl⟩
    · exact absurd final (bare n b hb)
    · rw [once n b n' b' hb hb' final final']
      rfl
  dsimp only at h
  split at h
  · cases h
  rename_i family known
  split at h
  · cases h
  rename_i new
  have key : keyOf bench cell = some (cell.condition, family, cell.instance_, cell.seed) := by
    rw [keyOf, known]
    rfl
  split at h
  · cases h
    exact ⟨_, _, read, reported none, key, by simpa using new, rfl⟩
  · split at h
    · cases h
    · cases h
      exact ⟨_, _, read, reported _, key, by simpa using new, rfl⟩

/-- The bundles of a folder are its cell's. -/
structure Fits (bench : Benchmark) (all : Seen) (cell : Cell) (folder : Folder) : Prop where
  planned : Planned bench cell
  served : ∀ n b, folder.get? n = some b → Served all b
  honest : ∀ n b m, folder.get? n = some b → b.manifest = some m →
    ∃ task, bench.tasks.get? cell.instance_ = some task ∧ m = manifestOf task cell.seed

theorem discoverOne_of {all : Seen} {cell : Cell} (fits : Fits bench all cell folder)
    (read : readCellDir (name dir) = some cell) (ext : Extends seen all)
    (new : ∀ key, keyOf bench cell = some key → found.has key = false) :
    ∃ out, discoverOne bench matrix dir folder seen found = .ok out ∧ Extends out.1 all := by
  obtain ⟨task, own⟩ := fits.planned.task
  obtain ⟨family, known⟩ := fits.planned.family
  obtain ⟨done, seen', kept_, ext'⟩ := kept_agrees fits.served ext
  have train : ¬ (folder.values.any fun b => b.manifest.any fun m => m.split = "test") = true := by
    simp only [List.any_eq_true, Option.any_eq_true, decide_eq_true_eq, not_exists, not_and]
    intro b hb m hm
    obtain ⟨n, hn⟩ := Dict.mem_values.mp hb
    obtain ⟨task', -, rfl⟩ := fits.honest n b m hn hm
    have split : (manifestOf task' cell.seed).split = "train" := rfl
    rw [split]
    decide
  have free := new (cell.condition, family, cell.instance_, cell.seed) (by rw [keyOf, known]; rfl)
  unfold discoverOne
  simp only [read, if_neg (not_not.mpr fits.planned.condition), own, if_neg train, kept_, known,
    free, Bool.false_eq_true, if_false]
  cases written : ((chosen folder done).bind folder.get?).bind Bundle.manifest with
  | none => exact ⟨_, rfl, ext'⟩
  | some m =>
    obtain ⟨b, hb, hm⟩ := Option.bind_eq_some_iff.mp written
    obtain ⟨n, -, hb⟩ := Option.bind_eq_some_iff.mp hb
    obtain ⟨task', own', rfl⟩ := fits.honest n b m hb hm
    cases own.symm.trans own'
    exact ⟨_, if_neg (not_not.mpr rfl), ext'⟩

end

/-! ## All folders -/

section

variable {bench : Benchmark} {seen : Seen} {found : Dict Key Found}

theorem Keyed.set {key : Key} {f : Found} (h : Keyed bench found)
    (own : keyOf bench f.cell = some key) : Keyed bench (found.set key f) := by
  intro key' f' hf
  rw [Dict.get?_set] at hf
  split at hf
  · rename_i same
    cases hf
    rw [same, own]
  · exact h key' f' hf

theorem values_set_new {key : Key} {f : Found} (new : found.has key = false) :
    (found.set key f).values = found.values ++ [f] := by
  have keys : key ∉ found.entries.map Prod.fst := by
    intro mem
    obtain ⟨⟨_, x⟩, hx, rfl⟩ := List.mem_map.mp mem
    rw [Dict.has, Dict.get?_eq_some.mpr hx] at new
    cases new
  have entries : (found.set key f).entries = found.entries ++ [(key, f)] :=
    Lib.setEntries_new keys
  rw [Dict.values, entries, List.map_append]
  rfl

/-- A cell is found once. -/
theorem Keyed.free {key : Key} {cell : Cell} (h : Keyed bench found)
    (own : keyOf bench cell = some key) (new : found.has key = false) :
    cell ∉ found.values.map Found.cell := by
  intro mem
  obtain ⟨f, hf, rfl⟩ := List.mem_map.mp mem
  obtain ⟨key', hk⟩ := Dict.mem_values.mp hf
  have same := (h key' f hk).symm.trans own
  cases same
  rw [Dict.has, hk] at new
  cases new

theorem keyOf_injective {key : Key} {cell cell' : Cell} (h : keyOf bench cell = some key)
    (h' : keyOf bench cell' = some key) : cell = cell' := by
  obtain ⟨f, -, rfl⟩ := Option.map_eq_some_iff.mp h
  obtain ⟨f', -, same⟩ := Option.map_eq_some_iff.mp h'
  simp only [Prod.mk.injEq] at same
  cases cell
  cases cell'
  simp only [Cell.mk.injEq]
  exact ⟨same.1.symm, same.2.2.1.symm, same.2.2.2.symm⟩

/-- What is found is one bundle a folder, under the cell its name is read as. -/
theorem discoverFrom_ok {items : List (Nat × List Char × Folder)} {out : List Found}
    (h : discoverFrom bench items seen found = .ok out) (keyed : Keyed bench found)
    (once : (found.values.map Found.cell).Nodup) : ∃ new, out = found.values ++ new ∧
      List.Forall₂ (fun item f => readCellDir (name item.2.1) = some f.cell ∧
        Reported item.2.2 f) items new ∧ (out.map Found.cell).Nodup := by
  induction items generalizing seen found with
  | nil =>
    cases h
    exact ⟨[], (List.append_nil _).symm, .nil, once⟩
  | cons item items ih =>
    obtain ⟨matrix, dir, folder⟩ := item
    unfold discoverFrom at h
    cases made : discoverOne bench matrix dir folder seen found with
    | error e =>
      rw [made] at h
      cases h
    | ok next =>
      obtain ⟨seen', found'⟩ := next
      rw [made] at h
      obtain ⟨key, f, read, reported, own, new, same⟩ := discoverOne_ok made
      have values : found'.values = found.values ++ [f] := by
        rw [same, values_set_new new]
      have once' : (found'.values.map Found.cell).Nodup := by
        rw [values, List.map_append, List.nodup_append]
        refine ⟨once, by simp, fun c hc c' hc' => ?_⟩
        rintro rfl
        rw [List.map_singleton, List.mem_singleton] at hc'
        exact keyed.free own new (hc' ▸ hc)
      obtain ⟨rest, out_, all, nodup⟩ := ih h (same ▸ keyed.set own) once'
      refine ⟨f :: rest, ?_, .cons ⟨read, reported⟩ all, nodup⟩
      rw [out_, values, List.append_assoc]
      rfl

/-- The report goes through when every folder is of a cell and no cell has two. -/
theorem discoverFrom_of {all : Seen} {items : List (Nat × List Char × Folder)}
    (each : ∀ item ∈ items, ∃ cell, readCellDir (name item.2.1) = some cell ∧
      Fits bench all cell item.2.2)
    (apart : (items.map fun item => readCellDir (name item.2.1)).Nodup)
    (ext : Extends seen all) (keyed : Keyed bench found)
    (new : ∀ item ∈ items, ∀ f ∈ found.values, readCellDir (name item.2.1) ≠ some f.cell) :
    ∃ out, discoverFrom bench items seen found = .ok out := by
  induction items generalizing seen found with
  | nil => exact ⟨_, rfl⟩
  | cons item items ih =>
    obtain ⟨matrix, dir, folder⟩ := item
    obtain ⟨⟨cell, read, fits⟩, each⟩ := List.forall_mem_cons.mp each
    rw [List.map_cons, List.nodup_cons] at apart
    obtain ⟨fresh, new⟩ := List.forall_mem_cons.mp new
    have free : ∀ key, keyOf bench cell = some key → found.has key = false := by
      intro key own
      cases there : found.get? key with
      | none => rw [Dict.has, there, Option.isSome_none]
      | some f =>
        refine absurd ?_ (fresh f (Dict.mem_values.mpr ⟨key, there⟩))
        rw [keyOf_injective (keyed key f there) own]
        exact read
    obtain ⟨⟨seen', found'⟩, made, ext'⟩ := discoverOne_of fits read ext free
    obtain ⟨key, f, read', -, own, unused, rfl⟩ := discoverOne_ok made
    rw [discoverFrom, made]
    refine ih each apart.2 ext' (keyed.set own) fun item hi f' hf' => ?_
    rw [values_set_new unused, List.mem_append, List.mem_singleton] at hf'
    rcases hf' with hf' | rfl
    · exact new item hi f' hf'
    · intro same
      refine apart.1 (List.mem_map.mpr ⟨item, hi, ?_⟩)
      rw [same]
      exact read'.symm

end

/-! ## A matrix and its report -/

/-- The runs dir that an invocation of `run` leaves. -/
def afterRun (bench : Benchmark) (sh : Shuffle) (configs : Dict String C)
    (withSeed : C → Int → Except String κ) (disk : Disk) (ran : Nat → Cell → κ → Ran) : Disk :=
  match run bench sh configs withSeed ran disk with
  | .error _ => disk
  | .ok (disk, _) => disk

/-- The runs dir after some invocations, from a new one. -/
def ranOver (bench : Benchmark) (sh : Shuffle) (configs : Dict String C)
    (withSeed : C → Int → Except String κ) (invocations : List (Nat → Cell → κ → Ran)) : Disk :=
  invocations.foldl (afterRun bench sh configs withSeed) .empty

/-- What every runs dir of the plan keeps. -/
structure Sound (bench : Benchmark) (todo : List Cell) (disk : Disk) : Prop where
  once : ∀ dir, Once (disk.folder dir)
  keys : ∀ dir ∈ disk.keys, ∃ k cell, todo[k]? = some cell ∧ dir = cellDir k cell
  honest : ∀ dir n b m, (disk.folder dir).get? n = some b → b.manifest = some m →
    ∃ k cell task, todo[k]? = some cell ∧ dir = cellDir k cell ∧
      bench.tasks.get? cell.instance_ = some task ∧ m = manifestOf task cell.seed

section

variable {bench : Benchmark} {sh : Shuffle} {configs : Dict String C}
  {withSeed : C → Int → Except String κ} {todo : List Cell} {disk : Disk}

theorem manifest_of_session {ran : Nat → Cell → κ → Ran} {k : Nat} {cell : Cell} {cfg : κ}
    {n : String} {b : Bundle} {m : Manifest}
    (made : (sessionOf bench ran k cell cfg).bundle = some (n, b)) (hm : b.manifest = some m) :
    ∃ task, bench.tasks.get? cell.instance_ = some task ∧ m = manifestOf task cell.seed := by
  unfold sessionOf at made
  split at made
  · cases made
  · rename_i task own
    obtain ⟨l, -, same⟩ := Option.map_eq_some_iff.mp made
    cases same
    dsimp only at hm
    split at hm
    · cases hm
      exact ⟨task, own, rfl⟩
    · cases hm

theorem Sound.run {ran : Nat → Cell → κ → Ran} (h : Sound bench todo disk) :
    Sound bench todo
      (runMatrix (configOf configs withSeed) (sessionOf bench ran) todo disk).1 := by
  obtain ⟨s, stop, spec, made, -⟩ :=
    runMatrix_spec (configOf configs withSeed) (sessionOf bench ran) todo disk
  rw [made]
  refine ⟨fun dir => (spec.grown dir).once (h.once dir), fun dir hd => ?_,
    fun dir n b m hb hm => ?_⟩
  · rcases spec.within dir hd with old | ⟨j, cell, hj, own⟩
    · exact h.keys dir old
    · exact ⟨j, cell, hj, by rw [own, Nat.zero_add]⟩
  · rcases spec.made dir n b hb with old | ⟨j, cell, cfg, hj, own, left⟩
    · exact h.honest dir n b m old hm
    · obtain ⟨task, known, same⟩ := manifest_of_session left hm
      exact ⟨j, cell, task, hj, by rw [own, Nat.zero_add], known, same⟩

theorem sound_empty : Sound bench todo .empty := by
  refine ⟨once_empty, fun dir hd => ?_, fun dir n b m hb _ => ?_⟩
  · cases hd
  · cases hb

theorem run_ok {ran : Nat → Cell → κ → Ran} {out : Disk × Except Stop (List CellRun)}
    (planned : cellsOf sh bench.spec configs.keys = .ok todo)
    (h : Matrix.run bench sh configs withSeed ran disk = .ok out) :
    out = runMatrix (configOf configs withSeed) (sessionOf bench ran) todo disk := by
  unfold Matrix.run at h
  rw [planned] at h
  simp only [bind, Except.bind] at h
  split at h
  · cases h
  · cases h
    rfl

theorem Sound.afterRun (planned : cellsOf sh bench.spec configs.keys = .ok todo)
    (h : Sound bench todo disk) (ran : Nat → Cell → κ → Ran) :
    Sound bench todo (afterRun bench sh configs withSeed disk ran) := by
  unfold Matrix.afterRun
  cases made : Matrix.run bench sh configs withSeed ran disk with
  | error e => exact h
  | ok out =>
    rw [run_ok planned made]
    exact h.run

theorem sound_ranOver (planned : cellsOf sh bench.spec configs.keys = .ok todo)
    (invocations : List (Nat → Cell → κ → Ran)) :
    Sound bench todo (ranOver bench sh configs withSeed invocations) := by
  have step : ∀ disk, Sound bench todo disk →
      Sound bench todo (invocations.foldl (Matrix.afterRun bench sh configs withSeed) disk) := by
    induction invocations with
    | nil => exact fun disk h => h
    | cons ran invocations ih => exact fun disk h => ih _ (h.afterRun planned ran)
  exact step _ sound_empty

def plannedDirs (todo : List Cell) : List (List Char) := todo.zipIdx.map fun c => cellDir c.2 c.1

theorem mem_plannedDirs {dir : List Char} :
    dir ∈ plannedDirs todo ↔ ∃ k cell, todo[k]? = some cell ∧ dir = cellDir k cell := by
  rw [plannedDirs, List.mem_map]
  constructor
  · rintro ⟨⟨cell, k⟩, hk, same⟩
    exact ⟨k, cell, List.mem_zipIdx_iff_getElem?.mp hk, same.symm⟩
  · rintro ⟨k, cell, hk, same⟩
    exact ⟨(cell, k), List.mem_zipIdx_iff_getElem?.mpr hk, same.symm⟩

theorem nodup_plannedDirs (todo : List Cell) : (plannedDirs todo).Nodup := by
  have places : todo.zipIdx.Nodup := by
    refine List.Nodup.of_map Prod.snd ?_
    rw [List.zipIdx_map_snd]
    exact List.nodup_range' ..
  refine List.Nodup.map_on (fun c hc c' hc' same => ?_) places
  have place := cellDir_place same
  have cell := List.mem_zipIdx_iff_getElem?.mp hc
  have cell' := List.mem_zipIdx_iff_getElem?.mp hc'
  rw [place, cell'] at cell
  exact Prod.ext (Option.some.inj cell).symm place

def items (disk : Disk) : List (Nat × List Char × Folder) :=
  (folders disk).map fun f => (0, f.1, f.2)

theorem discover_eq (bench : Benchmark) (disk : Disk) :
    discover bench [disk] = discoverFrom bench (items disk) .empty .empty := by
  simp [discover, items]

theorem mem_items {item : Nat × List Char × Folder} (h : item ∈ items disk) :
    item.2.1 ∈ disk.keys ∧ item.2.2 = disk.folder item.2.1 := by
  obtain ⟨⟨dir, folder⟩, hf, rfl⟩ := List.mem_map.mp h
  have entry := (List.mem_insertionSort _).mp hf
  refine ⟨List.mem_map.mpr ⟨_, entry, rfl⟩, ?_⟩
  rw [Disk.folder, Dict.get?_eq_some.mpr entry]
  rfl

/-- A matrix that ended has the folders of its plan. -/
theorem dirs_perm (keys : ∀ dir, dir ∈ disk.keys ↔
    ∃ k cell, todo[k]? = some cell ∧ dir = cellDir k cell) :
    ((items disk).map fun item => item.2.1).Perm (plannedDirs todo) := by
  have sorted : ((items disk).map fun item => item.2.1).Perm disk.keys := by
    rw [items, List.map_map]
    exact (List.perm_insertionSort _ disk.entries).map Prod.fst
  refine sorted.trans ((List.perm_ext_iff_of_nodup disk.nodup (nodup_plannedDirs todo)).mpr ?_)
  exact fun dir => (keys dir).trans mem_plannedDirs.symm

theorem reads_perm (planned : ∀ cell ∈ todo, Planned bench cell)
    (keys : ∀ dir, dir ∈ disk.keys ↔ ∃ k cell, todo[k]? = some cell ∧ dir = cellDir k cell) :
    ((items disk).map fun item => readCellDir (name item.2.1)).Perm
      (todo.zipIdx.map fun c => if c.2 < 10000 ∧ 0 ≤ c.1.seed then some c.1 else none) := by
  have same : (todo.zipIdx.map fun c => readCellDir (name (cellDir c.2 c.1))) =
      todo.zipIdx.map fun c => if c.2 < 10000 ∧ 0 ≤ c.1.seed then some c.1 else none := by
    refine List.map_congr_left fun c hc => ?_
    exact (planned c.1 (List.mem_of_getElem? (List.mem_zipIdx_iff_getElem?.mp hc))).read c.2
  have perm := (dirs_perm keys).map fun dir => readCellDir (name dir)
  simp only [plannedDirs, List.map_map, Function.comp_def] at perm
  rwa [← same]

/-- The cells that a report can read back. -/
def Reportable (todo : List Cell) : Prop :=
  todo.Nodup ∧ todo.length ≤ 10000 ∧ ∀ cell ∈ todo, 0 ≤ cell.seed

theorem reads_of_reportable (h : todo.length ≤ 10000 ∧ ∀ cell ∈ todo, 0 ≤ cell.seed) :
    (todo.zipIdx.map fun c => if c.2 < 10000 ∧ 0 ≤ c.1.seed then some c.1 else none) =
      todo.map some := by
  have cells : todo.map some = todo.zipIdx.map fun c => some c.1 := by
    conv_lhs => rw [← List.zipIdx_map_fst 0 todo, List.map_map]
    rfl
  rw [cells]
  refine List.map_congr_left fun c hc => ?_
  have at_ := List.mem_zipIdx_iff_getElem?.mp hc
  have short : c.2 < todo.length := (List.getElem?_eq_some_iff.mp at_).1
  rw [if_pos ⟨by omega, h.2 c.1 (List.mem_of_getElem? at_)⟩]

theorem reportable_of_reads {cells : List Cell}
    (h : (todo.zipIdx.map fun c => if c.2 < 10000 ∧ 0 ≤ c.1.seed then some c.1 else none).Perm
      (cells.map some)) : todo.length ≤ 10000 ∧ ∀ cell ∈ todo, 0 ≤ cell.seed := by
  have each : ∀ k cell, todo[k]? = some cell → k < 10000 ∧ 0 ≤ cell.seed := by
    intro k cell hk
    by_contra unfit
    have mem : none ∈ cells.map some := by
      refine h.mem_iff.mp (List.mem_map.mpr ⟨(cell, k), ?_, if_neg unfit⟩)
      exact List.mem_zipIdx_iff_getElem?.mpr hk
    simp at mem
  refine ⟨?_, fun cell mem => ?_⟩
  · by_contra long
    have := (each 10000 _ (List.getElem?_eq_getElem (by omega))).1
    omega
  · obtain ⟨k, hk⟩ := List.mem_iff_getElem?.mp mem
    exact (each k cell hk).2

theorem reads_eq {items : List (Nat × List Char × Folder)} {new : List Found}
    (h : List.Forall₂ (fun item f => readCellDir (name item.2.1) = some f.cell ∧
      Reported item.2.2 f) items new) :
    (items.map fun item => readCellDir (name item.2.1)) = (new.map Found.cell).map some := by
  induction h with
  | nil => rfl
  | cons own _ ih => rw [List.map_cons, own.1, ih, List.map_cons, List.map_cons]

theorem exists_of_forall₂ {α β : Type} {R : α → β → Prop} {l : List α} {l' : List β} {y : β}
    (h : List.Forall₂ R l l') (hy : y ∈ l') : ∃ x ∈ l, R x y := by
  induction h with
  | nil => cases hy
  | cons own _ ih =>
    rcases List.mem_cons.mp hy with rfl | hy
    · exact ⟨_, List.mem_cons_self, own⟩
    · obtain ⟨x, hx, hxy⟩ := ih hy
      exact ⟨x, List.mem_cons_of_mem _ hx, hxy⟩

structure Ended (bench : Benchmark) (todo : List Cell) (rows : List CellRun) (disk : Disk) :
    Prop where
  sound : Sound bench todo disk
  planned : ∀ cell ∈ todo, Planned bench cell
  keys : ∀ dir, dir ∈ disk.keys ↔ ∃ k cell, todo[k]? = some cell ∧ dir = cellDir k cell
  rows : Rows todo rows disk
  served : OneServed todo disk

theorem ended_of_run {load : String → Except String Task} {spec : Spec}
    (loaded : loadSpec load spec = .ok bench)
    (planned : cellsOf sh bench.spec configs.keys = .ok todo)
    {invocations : List (Nat → Cell → κ → Ran)} {ran : Nat → Cell → κ → Ran}
    {rows : List CellRun} (ended : Matrix.run bench sh configs withSeed ran
      (ranOver bench sh configs withSeed invocations) = .ok (disk, .ok rows)) :
    Ended bench todo rows disk := by
  have sound : Sound bench todo (ranOver bench sh configs withSeed invocations) :=
    sound_ranOver planned invocations
  have made := run_ok planned ended
  obtain ⟨s, stop, spec, left, done⟩ := runMatrix_spec (configOf configs withSeed)
    (sessionOf bench ran) todo (ranOver bench sh configs withSeed invocations)
  have last : (runMatrix (configOf configs withSeed) (sessionOf bench ran) todo
      (ranOver bench sh configs withSeed invocations)).2 = .ok rows := by
    rw [← made]
  have finished := done rows last
  obtain ⟨of_rows, served⟩ := runMatrix_rows sound.once last
  have sound' : Sound bench todo (runMatrix (configOf configs withSeed) (sessionOf bench ran) todo
      (ranOver bench sh configs withSeed invocations)).1 := sound.run
  rw [← made] at of_rows served left sound'
  refine ⟨sound', planned_of_cellsOf loaded planned, fun dir => ⟨sound'.keys dir, ?_⟩, of_rows,
    served⟩
  rintro ⟨k, cell, hk, same⟩
  have own := spec.own finished.1 k cell hk
  rw [Nat.zero_add] at own
  rw [show disk = s.disk from left, same]
  exact own

theorem Ended.fits {rows : List CellRun} (h : Ended bench todo rows disk) {all : Seen}
    (served : ∀ k cell, todo[k]? = some cell →
      ∀ n b, (disk.folder (cellDir k cell)).get? n = some b → Served all b)
    {k : Nat} {cell : Cell} (hk : todo[k]? = some cell) :
    Fits bench all cell (disk.folder (cellDir k cell)) := by
  refine ⟨h.planned cell (List.mem_of_getElem? hk), served k cell hk, fun n b m hb hm => ?_⟩
  obtain ⟨k', cell', task, hk', same, known, rfl⟩ := h.sound.honest _ n b m hb hm
  rw [← cellDir_place same, hk] at hk'
  cases hk'
  exact ⟨task, known, rfl⟩

/-- The report goes through exactly when the cells are different, of the first ten thousand, and
without negative seeds. -/
theorem Ended.discovers {rows : List CellRun} (h : Ended bench todo rows disk) :
    (∃ found, discover bench [disk] = .ok found) ↔ Reportable todo := by
  have perm := reads_perm h.planned h.keys
  rw [discover_eq]
  constructor
  · rintro ⟨found, made⟩
    obtain ⟨new, same, all, once⟩ := discoverFrom_ok made (by simp [Keyed, Dict.get?, Dict.empty])
      List.nodup_nil
    obtain rfl : found = new := same
    rw [reads_eq all] at perm
    have short := reportable_of_reads perm.symm
    rw [reads_of_reportable short] at perm
    have cells := (List.map_perm_map_iff (Option.some_injective _)).mp perm
    exact ⟨cells.nodup_iff.mp once, short⟩
  · intro fits
    rw [reads_of_reportable fits.2] at perm
    obtain ⟨all, served⟩ := h.served
    have each : ∀ item ∈ items disk, ∃ cell, readCellDir (name item.2.1) = some cell ∧
        Fits bench all cell item.2.2 := by
      intro item hi
      obtain ⟨own, folder⟩ := mem_items hi
      obtain ⟨k, cell, hk, dir⟩ := (h.keys _).mp own
      have short : k < todo.length := (List.getElem?_eq_some_iff.mp hk).1
      have mem := List.mem_of_getElem? hk
      refine ⟨cell, ?_, ?_⟩
      · rw [dir, (h.planned cell mem).read k,
          if_pos ⟨by have := fits.2.1; omega, fits.2.2 cell mem⟩]
      · rw [folder, dir]
        exact h.fits served hk
    exact discoverFrom_of each (perm.nodup_iff.mpr (fits.1.map (Option.some_injective _)))
      (fun _ _ none_ => by cases none_) (by simp [Keyed, Dict.get?, Dict.empty])
      (by simp [Dict.values, Dict.empty])

/-- What is found is the plan's cells, and of each the bundle that its row has scored. -/
theorem Ended.finds {rows : List CellRun} (h : Ended bench todo rows disk) {found : List Found}
    (made : discover bench [disk] = .ok found) : (found.map Found.cell).Perm todo ∧
      ∀ k row, rows[k]? = some row → ∀ f ∈ found, f.cell = row.cell →
        ∀ n b, (disk.folder (cellDir k row.cell)).get? n = some b → Final b →
          f.path = some n ∧ row.path = some n := by
  have fits := h.discovers.mp ⟨found, made⟩
  have perm := reads_perm h.planned h.keys
  rw [discover_eq] at made
  obtain ⟨new, same, all, once⟩ := discoverFrom_ok made (by simp [Keyed, Dict.get?, Dict.empty])
    List.nodup_nil
  obtain rfl : found = new := same
  rw [reads_eq all, reads_of_reportable fits.2] at perm
  refine ⟨(List.map_perm_map_iff (Option.some_injective _)).mp perm,
    fun k row hk f hf own n b hb final => ⟨?_, (h.rows.each k row hk).scored n b hb final⟩⟩
  have at_ : todo[k]? = some row.cell := by
    rw [← h.rows.owns, List.getElem?_map, hk]
    rfl
  obtain ⟨item, hi, read, reported⟩ := exists_of_forall₂ all hf
  obtain ⟨mine, folder⟩ := mem_items hi
  obtain ⟨k', cell, hk', dir⟩ := (h.keys _).mp mine
  rw [dir, (h.planned cell (List.mem_of_getElem? hk')).read k'] at read
  split at read
  · cases read
    rw [own] at hk' dir
    -- the cells of the plan are different
    have place : k' = k := by
      have short := (List.getElem?_eq_some_iff.mp hk').1
      exact (List.getElem?_inj short fits.1).mp (hk'.trans at_.symm)
    rw [folder, dir, place] at reported
    exact reported (h.sound.once _) n b hb final
  · cases read

/-- Whatever the sessions of the invocations do, the report of a matrix that ended goes through
exactly when its cells are different, of the first ten thousand and without negative seeds; and it
finds the plan's cells, each once, and of each the one bundle that was scored, as its row has it. -/
theorem reported {load : String → Except String Task} {spec : Spec}
    (loaded : loadSpec load spec = .ok bench)
    (planned : cellsOf sh bench.spec configs.keys = .ok todo)
    (invocations : List (Nat → Cell → κ → Ran)) (ran : Nat → Cell → κ → Ran)
    {rows : List CellRun} (ended : Matrix.run bench sh configs withSeed ran
      (ranOver bench sh configs withSeed invocations) = .ok (disk, .ok rows)) :
    ((∃ found, discover bench [disk] = .ok found) ↔ Reportable todo) ∧
      ∀ found, discover bench [disk] = .ok found → (found.map Found.cell).Perm todo ∧
        ∀ k row, rows[k]? = some row → ∀ f ∈ found, f.cell = row.cell →
          ∀ n b, (disk.folder (cellDir k row.cell)).get? n = some b → Final b →
            f.path = some n ∧ row.path = some n := by
  have h := ended_of_run loaded planned ended
  exact ⟨h.discovers, fun found made => h.finds made⟩

end

def sampleTask : Task := ⟨"bill", "bill@1", "h", rfl⟩

def sampleSpec : Spec :=
  ⟨["C2", "T"], [⟨"bill", .train, ["bill"], [1]⟩], 9, by decide +kernel, by decide +kernel⟩

def sampleBench : Benchmark :=
  ⟨sampleSpec, .set .empty "bill" sampleTask, .set .empty "bill" "bill"⟩

def sampleShuffle : Shuffle := ⟨fun _ _ _ l => l.reverse, fun _ _ _ l => List.reverse_perm l⟩

def sampleNames : Dict String Unit := .set (.set .empty "C2" ()) "T" ()

/-- The endpoint dies in the second cell, before its manifest is written. -/
def sampleFirst : Nat → Cell → Unit → Ran := fun k _ _ =>
  if k = 0 then ⟨some ⟨"a", true, some [.ended "completed"]⟩, none, false⟩
  else ⟨some ⟨"b", false, some []⟩, some .unavailable, false⟩

def sampleSecond : Nat → Cell → Unit → Ran := fun _ _ _ =>
  ⟨some ⟨"c", true, some [.ended "timeout"]⟩, none, false⟩

def sampleRun : Disk × Except Stop (List CellRun) :=
  runMatrix (configOf sampleNames fun _ _ => .ok ()) (sessionOf sampleBench sampleSecond)
    [⟨"T", "bill", 1⟩, ⟨"C2", "bill", 1⟩]
    (ranOver sampleBench sampleShuffle sampleNames (fun _ _ => .ok ()) [sampleFirst])

theorem reported_sample : ∃ found, discover sampleBench [sampleRun.1] = .ok found ∧
    (found.map Found.cell).Perm [⟨"T", "bill", 1⟩, ⟨"C2", "bill", 1⟩] := by
  have planned : cellsOf sampleShuffle sampleBench.spec sampleNames.keys =
      .ok [⟨"T", "bill", 1⟩, ⟨"C2", "bill", 1⟩] := rfl
  have ended : Matrix.run sampleBench sampleShuffle sampleNames (fun _ _ => .ok ()) sampleSecond
      (ranOver sampleBench sampleShuffle sampleNames (fun _ _ => .ok ()) [sampleFirst]) =
        .ok (sampleRun.1, .ok [⟨⟨"T", "bill", 1⟩, some "a", "completed", none⟩,
          ⟨⟨"C2", "bill", 1⟩, some "c", "timeout", none⟩]) := by
    rfl
  have loaded : loadSpec (fun _ => .ok sampleTask) sampleSpec = .ok sampleBench := rfl
  have all := reported loaded planned [sampleFirst] sampleSecond ended
  obtain ⟨found, made⟩ := all.1.mpr ⟨by decide +kernel, by decide +kernel, by decide +kernel⟩
  exact ⟨found, made, (all.2 found made).1⟩

end ProxyLoop.Matrix
