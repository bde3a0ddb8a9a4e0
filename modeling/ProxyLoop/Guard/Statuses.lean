import Mathlib.Data.Finset.Card
import Mathlib.Data.List.Pairwise
import Mathlib.Data.List.Perm.Basic
import Mathlib.Data.Option.Basic
import ProxyLoop.Guard.Readback
import ProxyLoop.Guard.Said

/-!
# When a slot is confirmed

Two rules read the rep's statements: a slot's own, since its own read-back request, and the
window of one request for any revision of the offer, which confirms every slot at once.
-/

namespace ProxyLoop.Said

open Lib (Regex Dict)
open Text (char digit)

/-! ## Statements -/

/-- A rep clause or sentence that states a field. -/
structure Statement where
  line : Nat
  utt : String
  start : Nat
  stop : Nat
  values : Finset String
  deriving DecidableEq

/-- `NONE_FIELDS`: read per sentence. -/
def noneFields : List String := ["fees_none", "changes_none", "expires"]

/-- `_SENTENCE` -/
def sentenceEnd : Regex Char :=
  .alt (.behind fun c => c = '!' || c = '?') (.seq (.behind (· = '.')) (.notAhead digit))

/-- An ask for some revision: the line it opens at, and the revision's fields and values. -/
structure Ask where
  opening : Nat
  terms : Dict String String

section unicode

variable (u : Unicode)

/-- The sentences of a text; one that only continues the one before it is part of it. -/
def sentences (text : List Char) : List Part :=
  let cuts := 0 :: ((sentenceEnd.finditer text).map Regex.Match.start ++ [text.length])
  ((cuts.zip cuts.tail).filter fun c => c.1 < c.2).foldl
    (fun out c =>
      match out.getLast? with
      | some last =>
        if Negation.continues u ((text.take c.2).drop c.1) then
          out.dropLast ++ [⟨last.start, c.2, (text.take c.2).drop last.start⟩]
        else out ++ [⟨c.1, c.2, (text.take c.2).drop c.1⟩]
      | none => out ++ [⟨c.1, c.2, (text.take c.2).drop c.1⟩])
    []

/-- `_units`: the spans `said` reads. -/
def units (text : List Char) (field : String) : List Part :=
  if noneFields.contains field then sentences u text else clauses u text

/-- What one rep line states, at index `i`. -/
def lineStates (i : Nat) (utt : String) (text : List Char) (field : String)
    (others : Dict String String) : List Statement :=
  (units u text field).filterMap fun part =>
    let values := said u part.text field others
    if values = ∅ then none else some ⟨i, utt, part.start, part.stop, values⟩

/-- `_stated`: every rep clause (or sentence) stating `field`, in order. -/
def stated (lines : List Line) (field : String) (others : Dict String String) : List Statement :=
  lines.zipIdx.flatMap fun p =>
    if p.1.speaker = .partner then lineStates u p.2 p.1.uttId p.1.text.toList field others else []

/-! ## The two rules -/

/-- `_key`: what a slot's value is looked for as. -/
def key (s : ReadbackSlot) : String :=
  if s.field ≠ "expires" || s.value = "none" then s.value
  else match ((date u).finditer s.value.toList).head? with
    | some day =>
      match day.group? 1 with
      | some iso => String.ofList (iso.drop 5)
      | none => undated ++ "slot"
    | none => undated ++ "slot"

/-- Since `opening` the value is stated, and from then on nothing else. -/
def confirmedSince (want : String) (stated : List Statement) (opening : Nat) : Bool :=
  match ((stated.filter (opening ≤ ·.line)).map Statement.values).dropWhile (· ≠ {want}) with
  | [] => false
  | rest => rest.all (· = {want})

/-- `_status`: a slot's own rule. -/
def statusOf (s : ReadbackSlot) (stated : List Statement) (asked : Option Nat) : SlotStatus :=
  if asked.any (confirmedSince (key u s) stated) then .confirmed
  else if stated.any fun x => s.sourceUtt = some x.utt && x.values = {key u s} &&
      s.span.all fun span => x.start ≤ span.1 && span.1 ≤ x.stop then .heard
  else .unknown

/-- `_implied`: the completeness flags a revision implies without a slot. -/
def implied (offer : OfferPublic) : List (String × String) :=
  let fields := offer.slots.map ReadbackSlot.field
  [("fees_none", "fee"), ("changes_none", "applied_change")].filterMap fun p =>
    if (fields.map fieldKind).contains p.2 && !fields.contains p.1 then some (p.1, "false") else none

/-- `_theirs`: the one value stated is another offer's. -/
def theirs (field : String) (values : Finset String) (rivals : List OfferPublic) : Bool :=
  values.card = 1 && (["monthly_price", "term_months"].contains field || Text.startsWith "fee:".toList field.toList) &&
    rivals.any fun o => o.slots.any fun s => s.field = field && values = {key u s}

/-- `_mine`: the statements, without those about another offer. -/
def mine (want : String) (stated : List Statement) (field : String) (rivals : List OfferPublic) :
    List Statement :=
  stated.filter fun x => x.values = {want} || !theirs u field x.values rivals

end unicode

/-- `_unchanged` (W2'): every field both revisions carry has one value in both. -/
def unchanged (ask : Ask) (offer : OfferPublic) : Bool :=
  offer.slots.all fun s => (ask.terms.get? s.field).getD s.value = s.value

/-- What the window reads of a slot: its value, its statements, and those not about another
offer. -/
structure Reading where
  want : String
  all : List Statement
  mine : List Statement

def Reading.since (r : Reading) (opening : Nat) : List Statement := r.all.filter (opening ≤ ·.line)

/-- W1, W2 and W3 of a slot, whose last statement is not before `top`. -/
def Reading.anchored (r : Reading) (opening top : Nat) : Bool :=
  (r.since opening).all (·.values = {r.want}) &&
    ((r.mine.filter (·.line < opening)).getLast?.all fun x => x.values = {r.want}) &&
    (r.since opening).getLast?.any (top ≤ ·.line)

/-- `_anchors`: W1 to W4 for one ask. -/
def anchors (opening : Nat) (slots : List Reading) (implied : List (String × List Statement)) : Bool :=
  let after := slots.map (·.since opening)
  if after.isEmpty || after.any List.isEmpty then false
  else
    let top := (after.map fun xs => (xs.head?.map Statement.line).getD 0).foldl max 0
    slots.all (·.anchored opening top) &&
      implied.all fun p => (p.2.filter (opening ≤ ·.line)).all (·.values = {p.1})

section unicode

variable (u : Unicode)

/-- The offer's other slots of a slot's kind. -/
def others (offer : OfferPublic) (s : ReadbackSlot) : Dict String String :=
  ((offer.slots.filter fun t => fieldKind t.field = fieldKind s.field && t.field ≠ s.field).map
    fun t => (t.field, t.value)).foldl (fun d p => d.set p.1 p.2) .empty

/-- The statements of a field, as a function of it and of the other slots of its kind. -/
abbrev Reader := String → Dict String String → List Statement

def reading (read : Reader) (offer : OfferPublic) (rivals : List OfferPublic) (s : ReadbackSlot) :
    Reading :=
  let stated := read s.field (others offer s)
  ⟨key u s, stated, mine u (key u s) stated s.field rivals⟩

/-- Some ask's window confirms every slot. -/
def window (read : Reader) (offer : OfferPublic) (asks : List Ask) (rivals : List OfferPublic) : Bool :=
  (offer.slots.all fun s => roleOf (fieldKind s.field) = some s.role) &&
    (missingRequired offer).isEmpty &&
    asks.any fun a => unchanged a offer &&
      anchors a.opening (offer.slots.map (reading u read offer rivals))
        ((implied offer).map fun p => (p.2, read p.1 .empty))

def slotVerdict (read : Reader) (offer : OfferPublic) (asked : Option Nat) (asks : List Ask)
    (rivals : List OfferPublic) (s : ReadbackSlot) : SlotStatus :=
  if roleOf (fieldKind s.field) ≠ some s.role then .unknown
  else if window u read offer asks rivals then .confirmed
  else statusOf u s (read s.field (others offer s)) asked

/-- `slot_statuses`, of statements read any way. -/
def statusesBy (read : Reader) (offer : OfferPublic) (asked : Option Nat) (asks : List Ask)
    (rivals : List OfferPublic) : Dict String SlotStatus :=
  (offer.slots.map fun s => (s.field, slotVerdict u read offer asked asks rivals s)).foldl
    (fun d p => d.set p.1 p.2) .empty

def slotStatuses (offer : OfferPublic) (lines : List Line) (asked : Option Nat) (asks : List Ask)
    (rivals : List OfferPublic) : Dict String SlotStatus :=
  statusesBy u (stated u lines) offer asked asks rivals

end unicode

/-! ## The statements of a transcript -/

/-- The rep's lines, and nothing of where they stand. -/
def repLines (lines : List Line) : List (String × String) :=
  (lines.filter (·.speaker = .partner)).map fun l => (l.uttId, l.text)

def repsBefore (lines : List Line) (i : Nat) : Nat := (repLines (lines.take i)).length

/-- The statement of the `f i`-th line instead. -/
def Statement.at_ (f : Nat → Nat) (x : Statement) : Statement := { x with line := f x.line }

section transcript

variable {u : Unicode} {lines lines' : List Line} {line : Line} {field : String}
  {others : Dict String String} {x : Statement}

theorem stated_snoc : stated u (lines ++ [line]) field others = stated u lines field others ++
    if line.speaker = .partner then
      lineStates u lines.length line.uttId line.text.toList field others else [] := by
  unfold stated
  rw [List.zipIdx_append, List.flatMap_append, List.zipIdx_singleton, List.flatMap_singleton,
    Nat.zero_add]

theorem line_of_lineStates {i : Nat} {utt : String} {text : List Char}
    (h : x ∈ lineStates u i utt text field others) : x.line = i ∧ x.values ≠ ∅ := by
  obtain ⟨part, -, eq⟩ := List.mem_filterMap.mp h
  dsimp only at eq
  split at eq
  · cases eq
  · rename_i stated
    cases eq
    exact ⟨rfl, stated⟩

theorem repLines_snoc : repLines (lines ++ [line]) =
    repLines lines ++ if line.speaker = .partner then [(line.uttId, line.text)] else [] := by
  unfold repLines
  rw [List.filter_append, List.map_append]
  by_cases rep : line.speaker = .partner
  · rw [if_pos rep]
    simp [rep]
  · rw [if_neg rep]
    simp [rep]

theorem repsBefore_of_le {i : Nat} (h : i ≤ lines.length) :
    repsBefore (lines ++ [line]) i = repsBefore lines i := by
  unfold repsBefore
  rw [List.take_append_of_le_length h]

/-- A statement stands on a rep line: it is not before an index exactly when no fewer rep lines are
before it. -/
theorem le_line_iff (h : x ∈ stated u lines field others) (i : Nat) :
    i ≤ x.line ↔ repsBefore lines i ≤ repsBefore lines x.line := by
  have mono : ∀ {i j : Nat}, i ≤ j → repsBefore lines i ≤ repsBefore lines j := by
    intro i j le
    obtain ⟨rest, eq⟩ := List.take_prefix_take_left (l := lines) le
    have : repLines (lines.take j) = repLines (lines.take i) ++ repLines rest := by
      rw [← eq, repLines, repLines, repLines, List.filter_append, List.map_append]
    unfold repsBefore
    rw [this, List.length_append]
    omega
  refine ⟨mono, fun le => ?_⟩
  by_contra after
  obtain ⟨p, hp, hx⟩ := List.mem_flatMap.mp h
  split at hx
  · rename_i rep
    have line : x.line = p.2 := (line_of_lineStates hx).1
    obtain ⟨-, lt, own⟩ := List.mem_zipIdx hp
    have own : lines[p.2]? = some p.1 := by
      rw [List.getElem?_eq_getElem (by omega)]
      simp [own]
    have next : repsBefore lines (p.2 + 1) = repsBefore lines p.2 + 1 := by
      unfold repsBefore
      rw [List.take_add_one, own, Option.toList_some, repLines_snoc, if_pos rep]
      simp
    have := mono (show p.2 + 1 ≤ i by omega)
    rw [line] at le
    omega
  · cases hx

/-- Statements stand in the order of their lines. -/
theorem sorted_stated : (stated u lines field others).Pairwise (·.line ≤ ·.line) := by
  induction lines using List.reverseRecOn with
  | nil => exact .nil
  | append_singleton lines line ih =>
    rw [stated_snoc, List.pairwise_append]
    have new : ∀ y ∈ (if line.speaker = .partner then
        lineStates u lines.length line.uttId line.text.toList field others else []),
        y.line = lines.length := by
      intro y hy
      split at hy
      · exact (line_of_lineStates hy).1
      · cases hy
    refine ⟨ih, List.pairwise_of_forall_mem_list fun a ha b hb => ?_, fun a ha b hb => ?_⟩
    · rw [new a ha, new b hb]
    · rw [new b hb]
      obtain ⟨p, hp, hx⟩ := List.mem_flatMap.mp ha
      split at hx
      · rw [(line_of_lineStates hx).1]
        obtain ⟨-, lt, -⟩ := List.mem_zipIdx hp
        omega
      · cases hx

/-- The statements of the rep's lines, numbered among themselves. -/
def repStated (u : Unicode) (reps : List (String × String)) (field : String)
    (others : Dict String String) : List Statement :=
  reps.zipIdx.flatMap fun p => lineStates u p.2 p.1.1 p.1.2.toList field others

theorem map_lineStates (f : Nat → Nat) {i : Nat} {utt : String} {text : List Char} :
    (lineStates u i utt text field others).map (Statement.at_ f) =
      lineStates u (f i) utt text field others := by
  unfold lineStates
  rw [List.map_filterMap]
  refine List.filterMap_congr fun part _ => ?_
  dsimp only
  split <;> rfl

/-- Numbered among the rep's lines, the statements depend on these lines alone. -/
theorem stated_reps : (stated u lines field others).map (Statement.at_ (repsBefore lines)) =
    repStated u (repLines lines) field others := by
  induction lines using List.reverseRecOn with
  | nil => rfl
  | append_singleton lines line ih =>
    have old : (stated u lines field others).map (Statement.at_ (repsBefore (lines ++ [line]))) =
        (stated u lines field others).map (Statement.at_ (repsBefore lines)) := by
      refine List.map_congr_left fun x hx => ?_
      obtain ⟨p, hp, hx⟩ := List.mem_flatMap.mp hx
      split at hx
      · obtain ⟨-, lt, -⟩ := List.mem_zipIdx hp
        rw [Statement.at_, Statement.at_, repsBefore_of_le]
        rw [(line_of_lineStates hx).1]
        omega
      · cases hx
    rw [stated_snoc, List.map_append, old, ih, repLines_snoc]
    by_cases rep : line.speaker = .partner
    · rw [if_pos rep, if_pos rep, map_lineStates, repsBefore_of_le (Nat.le_refl _)]
      unfold repStated
      rw [List.zipIdx_append, List.flatMap_append, List.zipIdx_singleton, List.flatMap_singleton,
        Nat.zero_add, repsBefore, List.take_length]
    · rw [if_neg rep, if_neg rep]
      simp

end transcript

/-! ## Only the order of the statements counts -/

section order

variable {u : Unicode} {f : Nat → Nat} {xs : List Statement}

/-- `f` keeps the order of the statements' lines against every index. -/
def Keeps (f : Nat → Nat) (xs : List Statement) : Prop :=
  ∀ x ∈ xs, ∀ i, i ≤ x.line ↔ f i ≤ f x.line

theorem since_map (keeps : Keeps f xs) (i : Nat) :
    (xs.map (Statement.at_ f)).filter (f i ≤ ·.line) =
      (xs.filter (i ≤ ·.line)).map (Statement.at_ f) := by
  rw [List.filter_map]
  refine congrArg _ (List.filter_congr fun x hx => ?_)
  exact decide_eq_decide.mpr (keeps x hx i).symm

theorem before_map (keeps : Keeps f xs) (i : Nat) :
    (xs.map (Statement.at_ f)).filter (·.line < f i) =
      (xs.filter (·.line < i)).map (Statement.at_ f) := by
  rw [List.filter_map]
  refine congrArg _ (List.filter_congr fun x hx => ?_)
  refine decide_eq_decide.mpr ?_
  rw [← not_le, ← not_le]
  exact not_congr (keeps x hx i).symm

theorem statusOf_map (keeps : Keeps f xs) (s : ReadbackSlot) (asked : Option Nat) :
    statusOf u s (xs.map (Statement.at_ f)) (asked.map f) = statusOf u s xs asked := by
  have since : ∀ want i, confirmedSince want (xs.map (Statement.at_ f)) (f i) =
      confirmedSince want xs i := by
    intro want i
    unfold confirmedSince
    rw [since_map keeps, List.map_map]
    rfl
  unfold statusOf
  simp only [Option.any_map, List.any_map, since]
  rfl

theorem foldl_max_le {l : List Nat} {a n : Nat} :
    l.foldl max a ≤ n ↔ a ≤ n ∧ ∀ x ∈ l, x ≤ n := by
  induction l generalizing a with
  | nil => simp
  | cons x l ih =>
    rw [List.foldl_cons, ih, Nat.max_le, List.forall_mem_cons, and_assoc]

/-- What the window asks of its slots, with W3 said of each two. -/
theorem anchors_iff {opening : Nat} {slots : List Reading} {implied : List (String × List Statement)} :
    anchors opening slots implied = true ↔ slots ≠ [] ∧
      (∀ r ∈ slots, ∃ first, (r.since opening).head? = some first ∧
        ∀ t ∈ slots, ∃ last, (t.since opening).getLast? = some last ∧ first.line ≤ last.line) ∧
      (∀ r ∈ slots, (∀ x ∈ r.since opening, x.values = {r.want}) ∧
        ∀ x, (r.mine.filter (·.line < opening)).getLast? = some x → x.values = {r.want}) ∧
      ∀ p ∈ implied, ∀ x ∈ p.2, opening ≤ x.line → x.values = {p.1} := by
  have head : ∀ r : Reading, r.since opening ≠ [] ↔ ∃ first, (r.since opening).head? = some first := by
    intro r
    cases r.since opening <;> simp
  unfold anchors
  dsimp only
  split
  · rename_i out
    refine ⟨fun bad => (by cases bad), fun ⟨some_, each, _⟩ => ?_⟩
    rw [Bool.or_eq_true, List.isEmpty_iff, List.map_eq_nil_iff, List.any_eq_true] at out
    rcases out with none_ | ⟨_, mem, silent⟩
    · exact absurd none_ some_
    · obtain ⟨r, hr, rfl⟩ := List.mem_map.mp mem
      obtain ⟨first, hf, -⟩ := each r hr
      exact absurd (List.isEmpty_iff.mp silent) ((head r).mpr ⟨first, hf⟩)
  · rename_i out
    simp only [Bool.or_eq_true, List.isEmpty_iff, List.map_eq_nil_iff, List.any_eq_true, not_or,
      not_exists, not_and, List.mem_map, forall_exists_index, and_imp,
      forall_apply_eq_imp_iff₂] at out
    obtain ⟨some_, stated⟩ := out
    have top : ∀ n, ((slots.map (·.since opening)).map fun xs =>
        (xs.head?.map Statement.line).getD 0).foldl max 0 ≤ n ↔
        ∀ r ∈ slots, ∀ first, (r.since opening).head? = some first → first.line ≤ n := by
      intro n
      rw [foldl_max_le]
      simp only [Nat.zero_le, List.map_map, List.mem_map, Function.comp_apply, forall_exists_index,
        and_imp, forall_apply_eq_imp_iff₂, true_and]
      refine forall₂_congr fun r hr => ?_
      cases (r.since opening).head? <;> simp
    simp only [Bool.and_eq_true, List.all_eq_true, Reading.anchored, List.mem_filter,
      decide_eq_true_eq, Option.all_eq_true, Option.any_eq_true, top, and_imp]
    refine ⟨fun ⟨each, flags⟩ => ⟨some_, fun r hr => ?_, fun r hr => (each r hr).1, fun p hp x hx =>
      flags p hp x hx⟩, fun ⟨_, order, each, flags⟩ => ⟨fun t ht => ⟨each t ht, ?_⟩, fun p hp x hx =>
      flags p hp x hx⟩⟩
    · obtain ⟨first, hf⟩ := (head r).mp (stated r hr)
      refine ⟨first, hf, fun t ht => ?_⟩
      obtain ⟨last, hl, le⟩ := (each t ht).2
      exact ⟨last, hl, le r hr first hf⟩
    · obtain ⟨first, -, lasts⟩ := order t ht
      obtain ⟨last, hl, -⟩ := lasts t ht
      refine ⟨last, hl, fun r hr first hf => ?_⟩
      obtain ⟨first', hf', lasts⟩ := order r hr
      rw [hf] at hf'
      cases hf'
      obtain ⟨last', hl', le⟩ := lasts t ht
      rw [hl] at hl'
      cases hl'
      exact le

/-- A reading of the same statements, on other lines. -/
def Reading.at_ (f : Nat → Nat) (r : Reading) : Reading :=
  ⟨r.want, r.all.map (Statement.at_ f), r.mine.map (Statement.at_ f)⟩

theorem anchors_map {slots : List Reading} {implied : List (String × List Statement)}
    (all : ∀ r ∈ slots, Keeps f r.all) (mine : ∀ r ∈ slots, Keeps f r.mine)
    (flags : ∀ p ∈ implied, Keeps f p.2) (opening : Nat) :
    anchors (f opening) (slots.map (Reading.at_ f))
        (implied.map fun p => (p.1, p.2.map (Statement.at_ f))) =
      anchors opening slots implied := by
  have since : ∀ r ∈ slots, (r.at_ f).since (f opening) = (r.since opening).map (Statement.at_ f) :=
    fun r hr => since_map (all r hr) opening
  rw [Bool.eq_iff_iff, anchors_iff, anchors_iff]
  refine and_congr (by simp) (and_congr ?_ (and_congr ?_ ?_))
  · rw [List.forall_mem_map]
    refine forall₂_congr fun r hr => ?_
    rw [since r hr, List.head?_map]
    constructor
    · rintro ⟨_, moved, lasts⟩
      obtain ⟨first, hf, rfl⟩ := Option.map_eq_some_iff.mp moved
      refine ⟨first, hf, fun t ht => ?_⟩
      obtain ⟨_, moved, le⟩ := lasts (t.at_ f) (List.mem_map_of_mem ht)
      rw [since t ht, List.getLast?_map] at moved
      obtain ⟨last, hl, rfl⟩ := Option.map_eq_some_iff.mp moved
      have mem := (List.mem_filter.mp (List.mem_of_getLast? hl)).1
      exact ⟨last, hl, (all t ht last mem first.line).mpr le⟩
    · rintro ⟨first, hf, lasts⟩
      refine ⟨_, by rw [hf]; rfl, ?_⟩
      rw [List.forall_mem_map]
      intro t ht
      obtain ⟨last, hl, le⟩ := lasts t ht
      have mem := (List.mem_filter.mp (List.mem_of_getLast? hl)).1
      refine ⟨last.at_ f, ?_, (all t ht last mem first.line).mp le⟩
      rw [since t ht, List.getLast?_map, hl]
      rfl
  · rw [List.forall_mem_map]
    refine forall₂_congr fun r hr => and_congr ?_ ?_
    · rw [since r hr, List.forall_mem_map]
      rfl
    · rw [Reading.at_, before_map (mine r hr), List.getLast?_map]
      cases (r.mine.filter (·.line < opening)).getLast? <;> simp [Statement.at_]
  · rw [List.forall_mem_map]
    refine forall₂_congr fun p hp => ?_
    rw [List.forall_mem_map]
    refine forall₂_congr fun x hx => ?_
    rw [Statement.at_, ← flags p hp x hx opening]

theorem mine_map {want field : String} {rivals : List OfferPublic} :
    mine u want (xs.map (Statement.at_ f)) field rivals =
      (mine u want xs field rivals).map (Statement.at_ f) := by
  unfold mine
  rw [List.filter_map]
  rfl

theorem statusesBy_map {read : Reader} (keeps : ∀ field others, Keeps f (read field others))
    (offer : OfferPublic) (asked : Option Nat) (asks : List Ask) (rivals : List OfferPublic) :
    statusesBy u (fun field others => (read field others).map (Statement.at_ f)) offer (asked.map f)
        (asks.map fun a => ⟨f a.opening, a.terms⟩) rivals =
      statusesBy u read offer asked asks rivals := by
  have same : window u (fun field others => (read field others).map (Statement.at_ f)) offer
      (asks.map fun a => ⟨f a.opening, a.terms⟩) rivals = window u read offer asks rivals := by
    unfold window
    rw [List.any_map]
    refine congrArg _ (congrArg (List.any asks) (funext fun a => ?_))
    show (unchanged a offer && anchors (f a.opening) _ _) = (unchanged a offer && _)
    refine congrArg _ ?_
    refine (congrArg₂ (anchors (f a.opening)) (?_ : _ = (offer.slots.map
      (reading u read offer rivals)).map (Reading.at_ f)) (?_ : _ = ((implied offer).map fun p =>
        (p.2, read p.1 .empty)).map _)).trans (anchors_map ?_ ?_ ?_ a.opening)
    · rw [List.map_map]
      refine List.map_congr_left fun s _ => ?_
      simp only [Function.comp_apply, reading, Reading.at_, mine_map]
    · rw [List.map_map]
      rfl
    · rw [List.forall_mem_map]
      exact fun s _ => keeps _ _
    · rw [List.forall_mem_map]
      exact fun s _ x hx => keeps _ _ x (List.mem_filter.mp hx).1
    · rw [List.forall_mem_map]
      exact fun p _ => keeps _ _
  unfold statusesBy
  refine congrArg (List.foldl _ _) (List.map_congr_left fun s _ => ?_)
  unfold slotVerdict
  rw [same, statusOf_map (keeps _ _)]

/-- Agent lines, and where they stand, change no status: only the rep's lines do, with how many of
them stand before each opening. -/
theorem slotStatuses_agents {lines lines' : List Line} {asked asked' : Option Nat}
    {asks asks' : List Ask} (offer : OfferPublic) (rivals : List OfferPublic)
    (reps : repLines lines = repLines lines')
    (own : asked.map (repsBefore lines) = asked'.map (repsBefore lines'))
    (windows : asks.map (fun a => (⟨repsBefore lines a.opening, a.terms⟩ : Ask)) =
      asks'.map fun a => ⟨repsBefore lines' a.opening, a.terms⟩) :
    slotStatuses u offer lines asked asks rivals = slotStatuses u offer lines' asked' asks' rivals := by
  have keeps : ∀ (lines : List Line) field others, Keeps (repsBefore lines) (stated u lines field others) :=
    fun lines field others x hx i => le_line_iff hx i
  unfold slotStatuses
  rw [← statusesBy_map (keeps lines), ← statusesBy_map (keeps lines'), own, windows]
  simp only [stated_reps, reps]

end order

end ProxyLoop.Said
