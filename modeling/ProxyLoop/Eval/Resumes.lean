import ProxyLoop.Eval.Matrix

/-!
# Resumes of the matrix

What one cell does to the runs dir and to the rows, what a run does, and what any number of
invocations do.
-/

namespace ProxyLoop.Matrix

open Lib (Dict)
open Chain (LLMRole)

variable {κ : Type}

/-! ## One cell -/

theorem folder_set (disk : Disk) (dir dir' : List Char) (folder : Folder) :
    Disk.folder (disk.set dir folder) dir' = if dir' = dir then folder else disk.folder dir' := by
  rw [Disk.folder, Dict.get?_set]
  split <;> rfl

/-- What a cell does to the runs dir. -/
structure DiskSpec (session : Session κ) (k : Nat) (cell : Cell) (disk disk' : Disk) : Prop where
  apart : ∀ dir, dir ≠ cellDir k cell → disk'.folder dir = disk.folder dir
  grown : Grown (disk.folder (cellDir k cell)) (disk'.folder (cellDir k cell))
  made : ∀ n b, (disk'.folder (cellDir k cell)).get? n = some b →
    (disk.folder (cellDir k cell)).get? n = some b ∨
      ∃ cfg, (session k cell cfg).bundle = some (n, b)
  within : ∀ dir ∈ disk'.keys, dir ∈ disk.keys ∨ dir = cellDir k cell
  still : ∀ dir ∈ disk.keys, dir ∈ disk'.keys

theorem DiskSpec.refl (session : Session κ) (k : Nat) (cell : Cell) (disk : Disk) :
    DiskSpec session k cell disk disk :=
  ⟨fun _ _ => rfl, .refl _, fun _ _ h => .inl h, fun _ h => .inl h, fun _ h => h⟩

theorem DiskSpec.set {session : Session κ} {k : Nat} {cell : Cell} {disk : Disk} {after : Folder}
    (grown : Grown (disk.folder (cellDir k cell)) after)
    (made : ∀ n b, after.get? n = some b → (disk.folder (cellDir k cell)).get? n = some b ∨
      ∃ cfg, (session k cell cfg).bundle = some (n, b)) :
    DiskSpec session k cell disk (disk.set (cellDir k cell) after) where
  apart dir other := by rw [folder_set, if_neg other]
  grown := by rwa [folder_set, if_pos rfl]
  made n b := by
    rw [folder_set, if_pos rfl]
    exact made n b
  within dir h := (Dict.mem_keys_set.mp h).symm
  still dir h := Dict.mem_keys_set.mpr (.inr h)

/-- What a cell does, and what it adds to the rows when the matrix goes on. -/
structure CellSpec (session : Session κ) (k : Nat) (cell : Cell) (s s' : State)
    (stop : Option Stop) : Prop where
  disk : DiskSpec session k cell s.disk s'.disk
  own : stop = none → cellDir k cell ∈ s'.disk.keys
  seen : stop = none → Extends s.seen s'.seen ∧
    ∀ n b, (s'.disk.folder (cellDir k cell)).get? n = some b → Served s'.seen b
  row : stop = none → Once (s.disk.folder (cellDir k cell)) → ∃ row, s'.runs = s.runs ++ [row] ∧
    row.cell = cell ∧ RowOf (s'.disk.folder (cellDir k cell)) row

theorem row_of_kept {folder : Folder} {cell : Cell} {n : String} {b : Bundle} (once : Once folder)
    (hb : folder.get? n = some b) (final : Final b) :
    RowOf folder ⟨cell, some n, reason b, none⟩ := by
  refine ⟨fun path hp => ?_, by simp, fun n' b' hb' final' => ?_, fun dead => final ?_⟩
  · cases hp
    exact ⟨b, hb, rfl⟩
  · rw [once n b n' b' hb hb' final final']
  · rw [show reason b = "llm_unavailable" from dead]
    decide

theorem row_of_judged {out : Outcome} {before after : Folder} {caught : Option Raised}
    {cell : Cell} {seen seen' : Seen} {row : CellRun} (on : out.on before = (after, caught))
    (bare : ∀ n b, before.get? n = some b → ¬ Final b)
    (served : ∀ n b, before.get? n = some b → Served seen b)
    (judged : judge cell (fresh after before).getLast? caught seen = .ok (row, seen')) :
    RowOf after row ∧ ∀ n b, after.get? n = some b → Served seen' b := by
  obtain ⟨-, path, on_, ext, none_, some_⟩ := judge_ok judged
  have alive : row.reason ≠ "llm_unavailable" := by
    intro dead
    rw [dead] at on_
    exact on_ (by decide)
  rcases on_cases on with ⟨rfl, nothing⟩ | ⟨runId, b, new, rfl, only⟩
  · rw [nothing] at path none_
    refine ⟨⟨fun p hp => ?_, fun _ => none_ rfl, fun n b hb final => ?_, alive⟩,
      fun n b hb => (served n b hb).mono ext⟩
    · rw [path] at hp
      cases hp
    · exact absurd final (bare n b hb)
  · rw [only] at path some_
    obtain ⟨same, own⟩ := some_ (runId, b) rfl
    refine ⟨⟨fun p hp => ?_, fun none_ => ?_, fun n b' hb' final => ?_, alive⟩, fun n b' hb' => ?_⟩
    · rw [path] at hp
      cases hp
      exact ⟨b, Dict.get?_set_self _ _ _, same⟩
    · rw [path] at none_
      cases none_
    · rw [Dict.get?_set] at hb'
      split at hb'
      · rename_i here
        rw [path, here]
        rfl
      · exact absurd final (bare n b' hb')
    · rw [Dict.get?_set] at hb'
      split at hb'
      · cases hb'
        exact own
      · exact (served n b' hb').mono ext

theorem key_of_bundle {disk : Disk} {dir : List Char} {n : String} {b : Bundle}
    (h : (disk.folder dir).get? n = some b) : dir ∈ disk.keys := by
  rw [Disk.folder] at h
  cases there : disk.get? dir with
  | none =>
    rw [there] at h
    cases h
  | some folder => exact List.mem_map.mpr ⟨_, Dict.get?_eq_some.mp there, rfl⟩

theorem runCell_spec (configs : Cell → Except String κ) (session : Session κ) (k : Nat)
    (cell : Cell) (s : State) : CellSpec session k cell s (runCell configs session k cell s).1
      (runCell configs session k cell s).2 := by
  unfold runCell
  dsimp only
  split
  · exact ⟨.refl .., by simp, by simp, by simp⟩
  · -- a bundle is kept
    rename_i found
    obtain ⟨ext, served, ⟨bad, -⟩ | ⟨n, b, hb, final, same⟩⟩ := kept_ok found
    · cases bad
    · cases same
      exact ⟨.refl .., fun _ => key_of_bundle hb, fun _ => ⟨ext, served⟩,
        fun _ once => ⟨_, rfl, rfl, row_of_kept once hb final⟩⟩
  · rename_i found
    obtain ⟨ext, served, ⟨-, bare⟩ | ⟨n, b, hb, final, same⟩⟩ := kept_ok found
    · split
      · exact ⟨.set (.refl _) fun _ _ h => .inl h, by simp, by simp, by simp⟩
      · rename_i cfg _
        rcases on : (session k cell cfg).on (s.disk.folder (cellDir k cell)) with ⟨after, caught⟩
        dsimp only
        have disk : DiskSpec session k cell s.disk (s.disk.set (cellDir k cell) after) := by
          refine .set ?_ fun n b hb => ?_
          · rcases on_cases on with ⟨rfl, -⟩ | ⟨runId, b, new, rfl, -⟩
            · exact .refl _
            · exact .add bare new b
          · exact (made_of_on on hb).imp_right fun made => ⟨cfg, made⟩
        split
        · exact ⟨disk, by simp, by simp, by simp⟩
        · split
          · exact ⟨disk, by simp, by simp, by simp⟩
          · rename_i row seen' judged
            obtain ⟨own, -, -, ext', -, -⟩ := judge_ok judged
            obtain ⟨row_of, served'⟩ := row_of_judged on bare served judged
            refine ⟨disk, fun _ => Dict.mem_keys_set.mpr (.inl rfl), fun _ => ⟨ext.trans ext', ?_⟩,
              fun _ _ => ⟨row, rfl, own, ?_⟩⟩ <;> rw [folder_set, if_pos rfl]
            · exact served'
            · exact row_of
    · cases same

/-! ## A run -/

/-- What the cells from a place on do, and what they add to the rows when the matrix ends. -/
structure RunSpec (session : Session κ) (k : Nat) (cells : List Cell) (s s' : State)
    (stop : Option Stop) : Prop where
  apart : ∀ dir, (∀ j cell, k ≤ j → dir ≠ cellDir j cell) → s'.disk.folder dir = s.disk.folder dir
  grown : ∀ dir, Grown (s.disk.folder dir) (s'.disk.folder dir)
  made : ∀ dir n b, (s'.disk.folder dir).get? n = some b → (s.disk.folder dir).get? n = some b ∨
    ∃ j cell cfg, cells[j]? = some cell ∧ dir = cellDir (k + j) cell ∧
      (session (k + j) cell cfg).bundle = some (n, b)
  within : ∀ dir ∈ s'.disk.keys, dir ∈ s.disk.keys ∨
    ∃ j cell, cells[j]? = some cell ∧ dir = cellDir (k + j) cell
  still : ∀ dir ∈ s.disk.keys, dir ∈ s'.disk.keys
  own : stop = none → ∀ j cell, cells[j]? = some cell → cellDir (k + j) cell ∈ s'.disk.keys
  seen : stop = none → Extends s.seen s'.seen ∧ ∀ j cell, cells[j]? = some cell →
    ∀ n b, (s'.disk.folder (cellDir (k + j) cell)).get? n = some b → Served s'.seen b
  rows : stop = none → (∀ dir, Once (s.disk.folder dir)) → ∃ rows, s'.runs = s.runs ++ rows ∧
    rows.map CellRun.cell = cells ∧ ∀ j row, rows[j]? = some row →
      RowOf (s'.disk.folder (cellDir (k + j) row.cell)) row

theorem later_apart {k : Nat} {cell : Cell} (j : Nat) (other : Cell) (later : k + 1 ≤ j) :
    cellDir k cell ≠ cellDir j other := by
  intro same
  have := cellDir_place same
  omega

theorem RunSpec.nil (session : Session κ) (k : Nat) (s : State) :
    RunSpec session k [] s s none where
  apart _ _ := rfl
  grown _ := .refl _
  made _ _ _ h := .inl h
  within _ h := .inl h
  still _ h := h
  own := by simp
  seen _ := ⟨.refl _, by simp⟩
  rows _ _ := ⟨[], (List.append_nil _).symm, rfl, by simp⟩

theorem CellSpec.folders {session : Session κ} {k : Nat} {cell : Cell} {s s' : State}
    {stop : Option Stop} (one : CellSpec session k cell s s' stop) (dir : List Char) :
    Grown (s.disk.folder dir) (s'.disk.folder dir) ∧
      ∀ n b, (s'.disk.folder dir).get? n = some b → (s.disk.folder dir).get? n = some b ∨
        dir = cellDir k cell ∧ ∃ cfg, (session k cell cfg).bundle = some (n, b) := by
  by_cases own : dir = cellDir k cell
  · rw [own]
    exact ⟨one.disk.grown, fun n b hb => (one.disk.made n b hb).imp_right fun made => ⟨rfl, made⟩⟩
  · rw [one.disk.apart dir own]
    exact ⟨.refl _, fun n b hb => .inl hb⟩

/-- A matrix that stops at a cell. -/
theorem RunSpec.stopped {session : Session κ} {k : Nat} {cell : Cell} (cells : List Cell)
    {s s' : State} {stop : Stop} (one : CellSpec session k cell s s' (some stop)) :
    RunSpec session k (cell :: cells) s s' (some stop) where
  apart dir other := one.disk.apart dir (other k cell (Nat.le_refl k))
  grown dir := (one.folders dir).1
  made dir n b hb := ((one.folders dir).2 n b hb).imp_right fun made => by
    obtain ⟨own, cfg, made⟩ := made
    exact ⟨0, cell, cfg, rfl, own, made⟩
  within dir h := (one.disk.within dir h).imp_right fun own => ⟨0, cell, rfl, own⟩
  still := one.disk.still
  own := by simp
  seen := by simp
  rows := by simp

/-- A cell, and the cells after it. -/
theorem RunSpec.cons {session : Session κ} {k : Nat} {cell : Cell} {cells : List Cell}
    {s t s' : State} {stop : Option Stop} (one : CellSpec session k cell s t none)
    (rest : RunSpec session (k + 1) cells t s' stop) :
    RunSpec session k (cell :: cells) s s' stop := by
  -- the cells after it leave its folder alone
  have apart := rest.apart (cellDir k cell) later_apart
  have shift : ∀ j, k + (j + 1) = k + 1 + j := fun j => by omega
  refine ⟨fun dir other => ?_, fun dir => ((one.folders dir).1).trans (rest.grown dir),
    fun dir n b hb => ?_, fun dir h => ?_, fun dir h => rest.still dir (one.disk.still dir h),
    fun done j c hj => ?_, fun done => ?_, fun done once => ?_⟩
  · rw [rest.apart dir fun j c later => other j c (by omega),
      one.disk.apart dir (other k cell (Nat.le_refl k))]
  · rcases rest.made dir n b hb with hb | ⟨j, c, cfg, hj, own, made⟩
    · rcases (one.folders dir).2 n b hb with hb | ⟨own, cfg, made⟩
      · exact .inl hb
      · exact .inr ⟨0, cell, cfg, rfl, own, made⟩
    · exact .inr ⟨j + 1, c, cfg, hj, by rw [shift, own], by rw [shift, made]⟩
  · rcases rest.within dir h with h | ⟨j, c, hj, own⟩
    · exact (one.disk.within dir h).imp_right fun own => ⟨0, cell, rfl, own⟩
    · exact .inr ⟨j + 1, c, hj, by rw [shift, own]⟩
  · cases j with
    | zero =>
      cases hj
      exact rest.still _ (one.own rfl)
    | succ j =>
      rw [shift]
      exact rest.own done j c hj
  · obtain ⟨ext, served⟩ := one.seen rfl
    obtain ⟨ext', served'⟩ := rest.seen done
    refine ⟨ext.trans ext', fun j c hj n b hb => ?_⟩
    cases j with
    | zero =>
      cases hj
      rw [Nat.add_zero k, apart] at hb
      exact (served n b hb).mono ext'
    | succ j =>
      rw [shift] at hb
      exact served' j c hj n b hb
  · obtain ⟨row, runs, own, row_of⟩ := one.row rfl (once _)
    obtain ⟨rows, runs', owns, rows_of⟩ :=
      rest.rows done fun dir => (one.folders dir).1.once (once dir)
    refine ⟨row :: rows, by rw [runs', runs, List.append_assoc]; rfl, ?_, fun j r hj => ?_⟩
    · rw [List.map_cons, own, owns]
    · cases j with
      | zero =>
        cases hj
        rw [Nat.add_zero k, own, apart]
        exact row_of
      | succ j =>
        rw [shift]
        exact rows_of j r hj

theorem runFrom_spec (configs : Cell → Except String κ) (session : Session κ) (cells : List Cell) :
    ∀ (k : Nat) (s : State), RunSpec session k cells s (runFrom configs session k cells s).1
      (runFrom configs session k cells s).2 := by
  induction cells with
  | nil => exact fun k s => .nil session k s
  | cons cell cells ih =>
    intro k s
    have one := runCell_spec configs session k cell s
    rw [runFrom]
    rcases ran : runCell configs session k cell s with ⟨t, stop⟩
    rw [ran] at one
    cases stop with
    | some stop => exact .stopped cells one
    | none => exact .cons one (ih (k + 1) t)

/-! ## Every invocation -/

theorem once_empty (dir : List Char) : Once (Disk.folder .empty dir) := by
  intro n b n' b' h
  cases h

/-- An invocation is a run that stopped or ended. -/
theorem runMatrix_spec (configs : Cell → Except String κ) (session : Session κ)
    (cells : List Cell) (disk : Disk) : ∃ s stop,
      RunSpec session 0 cells ⟨disk, .empty, []⟩ s stop ∧
      (runMatrix configs session cells disk).1 = s.disk ∧
      ∀ rows, (runMatrix configs session cells disk).2 = .ok rows →
        stop = none ∧ s.runs = rows := by
  have spec := runFrom_spec configs session cells 0 ⟨disk, .empty, []⟩
  rw [runMatrix]
  rcases ran : runFrom configs session 0 cells ⟨disk, .empty, []⟩ with ⟨s, - | stop⟩ <;>
    rw [ran] at spec
  · refine ⟨s, none, spec, rfl, fun rows ended => ⟨rfl, ?_⟩⟩
    cases ended
    rfl
  · refine ⟨s, some stop, spec, rfl, fun rows ended => ?_⟩
    cases ended

/-- What every invocation keeps. -/
theorem runMatrix_grown (configs : Cell → Except String κ) (session : Session κ)
    (cells : List Cell) (disk : Disk) (dir : List Char) :
    Grown (disk.folder dir) ((runMatrix configs session cells disk).1.folder dir) := by
  obtain ⟨s, stop, spec, made, -⟩ := runMatrix_spec configs session cells disk
  rw [made]
  exact spec.grown dir

theorem resumed_once (configs : Cell → Except String κ) (cells : List Cell)
    (sessions : List (Session κ)) (dir : List Char) :
    Once ((resumed configs cells sessions).folder dir) := by
  have step : ∀ disk : Disk, Once (disk.folder dir) → Once (Disk.folder (sessions.foldl
      (fun disk session => (runMatrix configs session cells disk).1) disk) dir) := by
    induction sessions with
    | nil => exact fun disk once => once
    | cons session sessions ih =>
      exact fun disk once => ih _ ((runMatrix_grown configs session cells disk dir).once once)
  exact step _ (once_empty dir)

/-- The rows of a matrix that ended, against the runs dir it left. -/
structure Rows (cells : List Cell) (rows : List CellRun) (disk : Disk) : Prop where
  owns : rows.map CellRun.cell = cells
  each : ∀ k row, rows[k]? = some row → RowOf (disk.folder (cellDir k row.cell)) row

/-- Every call of a matrix's bundles was served by the one model of its role and request. -/
def OneServed (cells : List Cell) (disk : Disk) : Prop :=
  ∃ seen : Seen, ∀ k cell, cells[k]? = some cell →
    ∀ n b, (disk.folder (cellDir k cell)).get? n = some b → Served seen b

theorem runMatrix_rows {configs : Cell → Except String κ} {session : Session κ}
    {cells : List Cell} {disk : Disk} (once : ∀ dir, Once (disk.folder dir)) {rows : List CellRun}
    (ended : (runMatrix configs session cells disk).2 = .ok rows) :
    Rows cells rows (runMatrix configs session cells disk).1 ∧
      OneServed cells (runMatrix configs session cells disk).1 := by
  obtain ⟨s, stop, spec, made, done⟩ := runMatrix_spec configs session cells disk
  obtain ⟨rfl, rfl⟩ := done rows ended
  rw [made]
  obtain ⟨rows, same, owns, rows_of⟩ := spec.rows rfl once
  rw [List.nil_append] at same
  simp only [Nat.zero_add] at rows_of
  have served := (spec.seen rfl).2
  simp only [Nat.zero_add] at served
  exact ⟨⟨by rw [same]; exact owns, by rw [same]; exact rows_of⟩, s.seen, served⟩

/-- Whatever the sessions of an invocation do, and wherever the invocations before it stopped: no
folder gets a second bundle that is final, a folder with one is left as it is, and no bundle is
lost; and the rows of an invocation that ends are those of its runs dir, served by one model. -/
theorem scored_once (configs : Cell → Except String κ) (cells : List Cell)
    (sessions : List (Session κ)) (session : Session κ) :
    let disk := resumed configs cells sessions
    let next := runMatrix configs session cells disk
    (∀ dir, Once (disk.folder dir)) ∧
    (∀ dir, Grown (disk.folder dir) (next.1.folder dir)) ∧
    ∀ rows, next.2 = .ok rows → Rows cells rows next.1 ∧ OneServed cells next.1 := by
  intro disk next
  have once := resumed_once configs cells sessions
  exact ⟨once, runMatrix_grown configs session cells disk, fun rows ended =>
    runMatrix_rows once ended⟩

def sampleBundle (reason : String) : Bundle :=
  ⟨some ⟨"train", "bill@1", "h", 1⟩, some [.call .slow "m" (some "m-1"), .ended reason]⟩

def sampleCells : List Cell := [⟨"C2", "bill", 1⟩, ⟨"T", "bill", 1⟩]

def sampleConfigs : Cell → Except String Unit := fun _ => .ok ()

/-- The endpoint dies in the second cell. -/
def sampleDead : Session Unit := fun k _ _ =>
  if k = 0 then ⟨some ("a", sampleBundle "completed"), none, false⟩
  else ⟨some ("b", sampleBundle "llm_unavailable"), some .unavailable, false⟩

def sampleBack : Session Unit := fun _ _ _ => ⟨some ("c", sampleBundle "timeout"), none, false⟩

/-- After a dead endpoint the resume keeps the first cell and runs the second again. -/
theorem scored_once_sample : ∃ rows,
    (runMatrix sampleConfigs sampleBack sampleCells
      (resumed sampleConfigs sampleCells [sampleDead])).2 = .ok rows ∧
    rows.map CellRun.path = [some "a", some "c"] ∧
    Rows sampleCells rows (runMatrix sampleConfigs sampleBack sampleCells
      (resumed sampleConfigs sampleCells [sampleDead])).1 := by
  refine ⟨[⟨⟨"C2", "bill", 1⟩, some "a", "completed", none⟩,
    ⟨⟨"T", "bill", 1⟩, some "c", "timeout", none⟩], by decide +kernel, rfl, ?_⟩
  exact ((scored_once sampleConfigs sampleCells [sampleDead] sampleBack).2.2 _
    (by decide +kernel)).1

end ProxyLoop.Matrix
