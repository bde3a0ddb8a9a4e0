import ProxyLoop.Contract.Render
import ProxyLoop.Core.Visible
import ProxyLoop.Guard.Verify

/-!
# What a guide may name

A guide names facts and terms of offers, which the renderer looks up in public state.  A guide is
let through if it renders, and stays on the board until the next.  A public fact is never taken
back and an offer never leaves the table, so what a guide names stays there until a later revision
of an offer is recorded without the term: from then on no prompt of the call renders.
-/

namespace ProxyLoop.Render

open Lib (Dict)
open Protocol (partition)
open Views

/-! ## The prompts of the call -/

/-- The prompt of a FastC turn; none, where the view raises. -/
def cpPrompt (bb : Blackboard) (trigger : Views.Trigger) (brief : String) (profile : Profile) :
    Option (Except RenderError (String × String)) :=
  (viewCp bb trigger brief).map (renderMessages · profile)

def guidance : Views.Trigger := ⟨.guidance, none, none, by decide⟩

def withGuide (bb : Blackboard) (g : Guide) : Blackboard :=
  { bb with pub := { bb.pub with guidanceCp := [g] } }

/-- `public_guide`: whether the renderer takes the guide. -/
def publicGuide (bb : Blackboard) (g : Guide) (profile : Profile) :
    Option (Except RenderError Bool) :=
  (cpPrompt (withGuide bb g) guidance "" profile).map fun
    | .ok _ => .ok true
    | .error .guideSlot => .ok false
    | .error e => .error e

/-! ## What a log tells -/

def factTold (told : List Shown) (key : String) : Bool :=
  told.any fun
    | .fact fact => fact.key = key
    | _ => false

def Shown.fields (ref : String) : Shown → Option (List String)
  | .offer ref' offer => if ref' = ref then some (offer.slots.map ReadbackSlot.field) else none
  | _ => none

/-- The fields of the newest revision of an offer. -/
def newestFields (told : List Shown) (ref : String) : Option (List String) :=
  (told.filterMap (Shown.fields ref)).getLast?

def Shown.guide? : Shown → Option Guide
  | .guide guide => some guide
  | _ => none

/-- A slot names a public fact, an offer, or a field of an offer's newest revision. -/
def tells (told : List Shown) (slot : String) : Bool :=
  let (_, kind, rest) := partition ':' slot.toList
  if kind = "fact".toList then factTold told (String.ofList rest)
  else
    let (_, ref, field) := partition '.' rest
    (newestFields told (String.ofList ref)).any fun fields =>
      field = [] || fields.contains (String.ofList field)

/-- The newest revision of the offer that a slot names leaves out the field that it names. -/
def drops (told : List Shown) (slot : String) : Bool :=
  let (_, kind, rest) := partition ':' slot.toList
  let (_, ref, field) := partition '.' rest
  kind ≠ "fact".toList && field ≠ [] &&
    (newestFields told (String.ofList ref)).any (!·.contains (String.ofList field))

section

variable {told more : List Shown} {bb : Blackboard} {log : List Event}

theorem factTold_append (key : String) :
    factTold (told ++ more) key = (factTold told key || factTold more key) :=
  List.any_append

theorem newestFields_append (ref : String) :
    newestFields (told ++ more) ref = (newestFields more ref).or (newestFields told ref) := by
  rw [newestFields, List.filterMap_append, List.getLast?_append]
  rfl

/-- What is told stays told but for what a later revision drops. -/
theorem tells_append {slot : String} (before : tells told slot = true) :
    tells (told ++ more) slot = !drops more slot := by
  unfold tells at before ⊢
  unfold drops
  generalize "fact".toList = name at before ⊢
  generalize partition ':' slot.toList = parts at before ⊢
  obtain ⟨_, kind, rest⟩ := parts
  dsimp only at before ⊢
  by_cases fact : kind = name
  · rw [if_pos fact] at before ⊢
    simp [factTold_append, before, fact]
  · rw [if_neg fact] at before ⊢
    generalize partition '.' rest = parts at before ⊢
    obtain ⟨_, ref, field⟩ := parts
    dsimp only at before ⊢
    rw [newestFields_append]
    cases newestFields more (String.ofList ref) with
    | none => simpa using before
    | some fields => simp [fact]

/-! ## What the board keeps of it -/

/-- What a guide names can be looked up: each entry is under its own name, and is what was told. -/
structure Kept (k : Known) (told : List Shown) : Prop where
  factKey : ∀ {key fact}, k.pub.facts.get? key = some fact → fact.key = key
  offerRef : ∀ {ref offer}, k.pub.offers.get? ref = some offer → offer.offerRef = ref
  facts : ∀ key, k.pub.facts.has key = factTold told key
  fields : ∀ ref, (k.pub.offers.get? ref).map (fun o => o.slots.map ReadbackSlot.field) =
    newestFields told ref
  guides : k.pub.guidanceCp = (told.filterMap Shown.guide?).getLast?.toList

/-- An offer is shown under its own name. -/
def Named : Shown → Prop
  | .offer ref offer => offer.offerRef = ref
  | _ => True

theorem named_of_shown {e : Event} {s : Shown} (h : shown e = some s) : Named s := by
  cases s with
  | offer ref offer =>
    unfold shown at h
    cases hp : e.payload with
    | offerRecorded =>
      rw [hp] at h
      cases h
      rfl
    | uttFinal lane => cases lane <;> simp [Payload.shown, hp] at h
    | uttDelivered lane => cases lane <;> simp [Payload.shown, hp] at h
    | factRecorded scope => cases scope <;> simp [Payload.shown, hp] at h
    | summaryUpdated scope => cases scope <;> simp [Payload.shown, hp] at h
    | speakVerbatim lane kind => cases kind <;> simp [Payload.shown, hp] at h
    | _ => simp [Payload.shown, hp] at h
  | _ => trivial

theorem Kept.withOffer {k : Known} (kept : Kept k told) (ref : String)
    (f : OfferPublic → OfferPublic) (named : ∀ o, (f o).offerRef = o.offerRef)
    (same : ∀ o, (f o).slots.map ReadbackSlot.field = o.slots.map ReadbackSlot.field) :
    Kept (k.withOffer ref f) told := by
  unfold Known.withOffer
  cases found : k.pub.offers.get? ref with
  | none => exact kept
  | some offer =>
    refine ⟨kept.factKey, fun {ref' o} h => ?_, kept.facts, fun ref' => ?_, kept.guides⟩
    · rw [Dict.get?_set] at h
      split at h
      · cases h
        rename_i own
        rw [named, kept.offerRef found, own]
      · exact kept.offerRef h
    · rw [← kept.fields ref', Dict.get?_set]
      split
      · rename_i own
        rw [own, found]
        simp [same]
      · rfl

theorem factTold_snoc {s : Shown} (quiet : factTold [s] = fun _ => false) :
    factTold (told ++ [s]) = factTold told := by
  funext key
  rw [factTold_append, quiet, Bool.or_false]

theorem newestFields_snoc {s : Shown} (quiet : newestFields [s] = fun _ => none) :
    newestFields (told ++ [s]) = newestFields told := by
  funext ref
  rw [newestFields_append, quiet, Option.none_or]

theorem guides_snoc {s : Shown} (quiet : Shown.guide? s = none) :
    (told ++ [s]).filterMap Shown.guide? = told.filterMap Shown.guide? := by
  simp [quiet]

theorem Kept.quiet {k : Known} (kept : Kept k told) {s : Shown}
    (fact : factTold [s] = fun _ => false) (fields : newestFields [s] = fun _ => none)
    (guide : Shown.guide? s = none) : Kept k (told ++ [s]) := by
  refine ⟨kept.factKey, kept.offerRef, ?_, ?_, ?_⟩
  · rw [factTold_snoc fact]
    exact kept.facts
  · rw [newestFields_snoc fields]
    exact kept.fields
  · rw [guides_snoc guide]
    exact kept.guides

theorem Kept.learn {k : Known} (kept : Kept k told) {s : Shown} (named : Named s) :
    Kept (k.learn s) (told ++ [s]) := by
  cases s with
  | guide g =>
    refine ⟨kept.factKey, kept.offerRef, ?_, ?_, ?_⟩
    · rw [factTold_snoc rfl]
      exact kept.facts
    · rw [newestFields_snoc rfl]
      exact kept.fields
    · simp [Known.learn, Shown.guide?]
  | fact fact =>
    refine ⟨fun {key f} h => ?_, kept.offerRef, fun key => ?_, ?_, ?_⟩
    · rw [Known.learn, Dict.get?_set] at h
      split at h
      · rename_i own
        cases h
        exact own.symm
      · exact kept.factKey h
    · rw [factTold_append, ← kept.facts key, Known.learn, Dict.has, Dict.get?_set]
      by_cases own : key = fact.key
      · simp [own, factTold]
      · simp [own, Ne.symm own, factTold, Dict.has]
    · rw [newestFields_snoc rfl]
      exact kept.fields
    · rw [guides_snoc rfl]
      exact kept.guides
  | offer ref offer =>
    refine ⟨kept.factKey, fun {ref' o} h => ?_, ?_, fun ref' => ?_, ?_⟩
    · rw [Known.learn, Dict.get?_set] at h
      split at h
      · rename_i own
        cases h
        exact named.trans own.symm
      · exact kept.offerRef h
    · rw [factTold_snoc rfl]
      exact kept.facts
    · rw [newestFields_append, ← kept.fields ref', Known.learn, Dict.get?_set]
      by_cases own : ref' = ref
      · simp [own, newestFields, Shown.fields]
      · simp [own, Ne.symm own, newestFields, Shown.fields]
    · rw [guides_snoc rfl]
      exact kept.guides
  | readback r =>
    refine (kept.withOffer r.offerRef (·.readBack r) (fun _ => rfl) fun o => ?_).quiet rfl rfl rfl
    simp [OfferPublic.readBack, Function.comp_def, ReadbackSlot.withStatus]
  | declined ref =>
    exact (kept.withOffer ref (fun offer => { offer with status := .declined }) (fun _ => rfl)
      fun _ => rfl).quiet rfl rfl rfl
  | line line =>
    exact Kept.quiet (k := k.learn (.line line))
      ⟨kept.factKey, kept.offerRef, kept.facts, kept.fields, kept.guides⟩ rfl rfl rfl
  | hold hold =>
    exact Kept.quiet (k := k.learn (.hold hold))
      ⟨kept.factKey, kept.offerRef, kept.facts, kept.fields, kept.guides⟩ rfl rfl rfl
  | summary text =>
    exact Kept.quiet (k := k.learn (.summary text))
      ⟨kept.factKey, kept.offerRef, kept.facts, kept.fields, kept.guides⟩ rfl rfl rfl
  | status status =>
    exact Kept.quiet (k := k.learn (.status status))
      ⟨kept.factKey, kept.offerRef, kept.facts, kept.fields, kept.guides⟩ rfl rfl rfl

theorem kept_foldl {k : Known} (kept : Kept k told) (named : ∀ s ∈ more, Named s) :
    Kept (more.foldl Known.learn k) (told ++ more) := by
  induction more generalizing k told with
  | nil => rwa [List.append_nil]
  | cons s more ih =>
    have first := kept.learn (named s List.mem_cons_self)
    simpa using ih first fun s hs => named s (List.mem_cons_of_mem _ hs)

theorem kept_of_fold (h : fold log = .ok bb) : Kept (known bb) (log.filterMap shown) := by
  rw [known_of_fold h (bounded_of_fold (rfl : fold [] = .ok {}))]
  have none_ : Kept (known {}) [] := by
    refine ⟨fun {key fact} h => ?_, fun {ref offer} h => ?_, fun _ => rfl, fun _ => rfl, rfl⟩
    · cases h
    · cases h
  refine kept_foldl none_ fun s hs => ?_
  obtain ⟨e, -, shows⟩ := List.mem_filterMap.mp hs
  exact named_of_shown shows

/-! ## What renders -/

variable {v : FastView} {profile : Profile}

/-- The renderer looks a slot up on the board of a log exactly if the log tells it. -/
theorem resolve_isSome (kept : Kept ⟨bb.pub, bb.channels.cp.lines⟩ told)
    (facts : v.publicFacts = bb.pub.facts.values) (offers : v.offers = bb.pub.offers.values)
    (slot : String) :
    (resolve v slot).isSome = tells told slot := by
  unfold resolve tells
  rw [facts, offers]
  generalize partition ':' slot.toList = parts
  obtain ⟨_, kind, rest⟩ := parts
  dsimp only
  split
  · rw [Option.isSome_map, Dict.find?_values kept.factKey]
    exact kept.facts _
  · generalize partition '.' rest = parts
    obtain ⟨_, ref, field⟩ := parts
    dsimp only
    rw [Dict.find?_values kept.offerRef, ← kept.fields]
    cases bb.pub.offers.get? (String.ofList ref) with
    | none => rfl
    | some o =>
      by_cases whole : field = []
      · simp [whole]
      · rw [Option.bind_some, if_neg whole, Option.isSome_map, List.isSome_find?, Bool.eq_iff_iff]
        simp [whole]

/-- The counterparty's view reads the public board and the call's lines. -/
structure ViewOf (bb : Blackboard) (t : Views.Trigger) (v : FastView) : Prop where
  lane : v.lane = .cp
  trigger : v.trigger = t
  kind : t.kind.lane = .cp
  slowMsg : v.slowMsg = none
  card : v.pendingApproval = none
  guidance : v.guidance = bb.pub.guidanceCp
  facts : v.publicFacts = bb.pub.facts.values
  offers : v.offers = bb.pub.offers.values

theorem viewOf_of_viewCp {t : Views.Trigger} {brief : String}
    (h : viewCp bb t brief = some v) : ViewOf bb t v := by
  unfold viewCp FastView.valid? at h
  split at h
  · rename_i ok
    cases h
    refine ⟨rfl, rfl, ?_, rfl, rfl, rfl, rfl, rfl⟩
    simp only [Bool.and_eq_true, FastView.laneFields, decide_eq_true_eq] at ok
    exact ok.2.1.1.1
  · cases h

/-- A profile of the counterparty's lane that renders guides and whose triggers all have a text. -/
structure Ready (profile : Profile) : Prop where
  lane : profile.lane = .cp
  guided : ∃ header, (header, SectionKind.guidance) ∈ profile.sections
  templates : ∀ kind : TriggerKind, kind.lane = .cp →
    ∃ template, profile.triggers kind = some template ∧
      (kind = .holdWait → ∀ n, ∃ text, format template [("n", n)] = .ok text)

theorem trigger_ok (ready : Ready profile) {t : Views.Trigger} (view : ViewOf bb t v) :
    ∃ text, trigger v profile = .ok text := by
  obtain ⟨template, found, formats⟩ := ready.templates v.trigger.kind (view.trigger ▸ view.kind)
  have lane : v.trigger.kind.lane = .cp := view.trigger ▸ view.kind
  unfold trigger
  rw [found, view.slowMsg, view.card]
  cases kind : v.trigger.kind with
  | holdWait => exact formats kind _
  | userMsg | slowMsg | approvalCard | sessionStart =>
    rw [kind] at lane
    cases lane
  | repSpoke | guidance | callConnected => exact ⟨template, rfl⟩

theorem exists_of_mapM_error {α β ε : Type} {f : α → Except ε β} {l : List α} {e : ε}
    (h : l.mapM f = .error e) : ∃ x ∈ l, f x = .error e := by
  induction l with
  | nil => cases h
  | cons x l ih =>
    rw [List.mapM_cons] at h
    cases fx : f x with
    | error e' =>
      rw [fx] at h
      cases h
      exact ⟨x, List.mem_cons_self, fx⟩
    | ok y =>
      cases rest : l.mapM f with
      | ok ys =>
        rw [fx, rest] at h
        cases h
      | error e' =>
        rw [fx, rest] at h
        cases h
        obtain ⟨x', mem, bad⟩ := ih rest
        exact ⟨x', List.mem_cons_of_mem _ mem, bad⟩

/-- A list of which each member fails only as `x` does, and some member does, fails as `x` does. -/
theorem mapM_error_as {α β γ ε : Type} {f : α → Except ε β} {l : List α} {x : Except ε γ} {e : ε}
    (only : ∀ a ∈ l, ∀ e', f a = .error e' → x = .error e')
    (some_ : x = .error e → ∃ a ∈ l, f a = .error e) :
    l.mapM f = .error e ↔ x = .error e := by
  constructor
  · intro all
    obtain ⟨a, mem, bad⟩ := exists_of_mapM_error all
    exact only a mem e bad
  · intro fails
    obtain ⟨a, mem, bad⟩ := some_ fails
    cases all : l.mapM f with
    | error e' =>
      obtain ⟨a', mem', bad'⟩ := exists_of_mapM_error all
      have same := only a' mem' e' bad'
      rw [fails] at same
      rw [Except.error.inj same]
    | ok ys =>
      obtain ⟨y, -, ok⟩ := mem_mapM_ok all a mem
      rw [ok] at bad
      cases bad

/-- With one way to fail, the list fails as one of its members does. -/
theorem mapM_error {α β ε : Type} {f : α → Except ε β} {l : List α} {e : ε}
    (only : ∀ a ∈ l, ∀ e', f a = .error e' → e' = e) :
    l.mapM f = .error e ↔ ∃ a ∈ l, f a = .error e := by
  refine ⟨exists_of_mapM_error, fun some_ => ?_⟩
  refine (mapM_error_as (x := Except.error (α := Unit) e) ?_ fun _ => some_).mpr rfl
  intro a mem e' bad
  rw [only a mem e' bad]

/-- A section fails as its trigger or its guides do. -/
theorem piece_error {s : String × SectionKind} {e : RenderError}
    (h : piece v profile s = .error e) :
    trigger v profile = .error e ∨ v.guidance.mapM (guide v profile) = .error e := by
  obtain ⟨header, kind⟩ := s
  cases kind with
  | guidance =>
    refine .inr ?_
    unfold piece part block at h
    cases rows : v.guidance.mapM (guide v profile) with
    | ok rows' =>
      simp [rows, SectionKind.isBlock, bind, Except.bind, pure, Except.pure, Except.map] at h
    | error e' =>
      simp only [rows, SectionKind.isBlock, if_true, bind, Except.bind, Except.map,
        Except.error.injEq] at h
      rw [h]
  | trigger =>
    refine .inl ?_
    unfold piece part inlined at h
    cases text : trigger v profile with
    | ok text' =>
      simp [text, SectionKind.isBlock, bind, Except.bind, pure, Except.pure, Except.map] at h
    | error e' =>
      simp only [text, SectionKind.isBlock, bind, Except.bind, Except.map, Bool.false_eq_true,
        if_false, Except.error.injEq] at h
      rw [h]
  | _ => cases h

/-- The guides' section fails exactly as its guides do. -/
theorem piece_guidance {header : String} {e : RenderError}
    (h : v.guidance.mapM (guide v profile) = .error e) :
    piece v profile (header, .guidance) = .error e := by
  unfold piece part block
  simp [h, SectionKind.isBlock, bind, Except.bind, Except.map]

theorem sheet_error (ready : Ready profile) {t : Views.Trigger} (view : ViewOf bb t v)
    (e : RenderError) :
    sheet v profile = .error e ↔ v.guidance.mapM (guide v profile) = .error e := by
  obtain ⟨header, has⟩ := ready.guided
  obtain ⟨text, ok⟩ := trigger_ok ready view
  refine mapM_error_as (fun s _ e' bad => ?_) fun rows => ⟨_, has, piece_guidance rows⟩
  refine (piece_error bad).resolve_left ?_
  rw [ok]
  exact fun h => by cases h

theorem renderMessages_view_error (ready : Ready profile) {t : Views.Trigger} (view : ViewOf bb t v)
    {e : RenderError} (other : e ≠ .contextBudget) :
    renderMessages v profile = .error e ↔ v.guidance.mapM (guide v profile) = .error e := by
  have lane : profile.lane = v.lane := by rw [ready.lane, view.lane]
  rw [← sheet_error ready view]
  cases is_ : sheet v profile with
  | error e' => simp only [renderMessages_error lane is_, Except.error.injEq]
  | ok pieces =>
    refine ⟨fun h => ?_, fun h => by cases h⟩
    rcases renderMessages_cases lane is_ with ⟨n, a, -, run⟩ | ⟨-, -, run⟩
    · rw [run] at h
      cases h
    · rw [run] at h
      exact absurd (Except.error.inj h).symm other

theorem resolved_error {s : String} {e : RenderError} (h : resolved v s = .error e) :
    e = .guideSlot := by
  unfold resolved at h
  split at h
  · cases h
  · exact (Except.error.inj h).symm

theorem guide_slot (g : Guide) :
    guide v profile g = .error .guideSlot ↔
      (profile.moves g.move).isSome = true ∧ ∃ s ∈ g.slots, (resolve v s).isSome = false := by
  have only : ∀ s ∈ g.slots, ∀ e, resolved v s = .error e → e = RenderError.guideSlot :=
    fun _ _ _ bad => resolved_error bad
  have each (s : String) : resolved v s = .error .guideSlot ↔ (resolve v s).isSome = false := by
    unfold resolved
    cases resolve v s <;> simp
  unfold guide
  cases profile.moves g.move with
  | none => simp
  | some text =>
    dsimp only
    split
    · rename_i none_
      simp [none_, pure, Except.pure]
    · have fails := mapM_error only
      cases slots : g.slots.mapM (resolved v) with
      | ok ys =>
        rw [slots] at fails
        simp only [each] at fails
        simpa [bind, Except.bind, pure, Except.pure] using fails
      | error e =>
        obtain ⟨s, mem, bad⟩ := exists_of_mapM_error slots
        obtain rfl := only s mem e bad
        rw [slots] at fails
        simp only [each] at fails
        simpa [bind, Except.bind] using fails

theorem guide_move (g : Guide) :
    guide v profile g = .error .guideMove ↔ (profile.moves g.move).isSome = false := by
  unfold guide
  cases profile.moves g.move with
  | none => simp
  | some text =>
    dsimp only
    split
    · simp [pure, Except.pure]
    · cases slots : g.slots.mapM (resolved v) with
      | ok ys => simp [bind, Except.bind, pure, Except.pure]
      | error e =>
        obtain ⟨s, -, bad⟩ := exists_of_mapM_error slots
        obtain rfl := resolved_error bad
        simp [bind, Except.bind]

theorem mapM_toList {α β ε : Type} (f : α → Except ε β) (o : Option α) (e : ε) :
    o.toList.mapM f = .error e ↔ ∃ x, o = some x ∧ f x = .error e := by
  cases o with
  | none => simp [pure, Except.pure]
  | some x =>
    cases fx : f x <;> simp [fx, bind, Except.bind, pure, Except.pure]

/-- The guide on the board, and what its slots name, decide how a prompt of the call fails. -/
theorem cpPrompt_error (ready : Ready profile) (kept : Kept (known bb) told) (bounded : Bounded bb)
    {t : Views.Trigger} (lane : t.kind.lane = .cp) {brief : String}
    (short : brief.length ≤ maxBrief) {e : RenderError} (other : e ≠ .contextBudget) :
    ∃ v, ViewOf bb t v ∧ (cpPrompt bb t brief profile = some (.error e) ↔
      ∃ g, (told.filterMap Shown.guide?).getLast? = some g ∧ guide v profile g = .error e) := by
  obtain ⟨v, seen⟩ := Option.isSome_iff_exists.mp ((viewCp_isSome bounded short).mpr lane)
  have view := viewOf_of_viewCp seen
  refine ⟨v, view, ?_⟩
  have guides : v.guidance = (told.filterMap Shown.guide?).getLast?.toList :=
    view.guidance.trans kept.guides
  rw [cpPrompt, seen, Option.map_some, Option.some.injEq,
    renderMessages_view_error ready view other, guides, mapM_toList]

theorem cpPrompt_slot (ready : Ready profile) (kept : Kept (known bb) told) (bounded : Bounded bb)
    {t : Views.Trigger} (lane : t.kind.lane = .cp) {brief : String}
    (short : brief.length ≤ maxBrief) :
    cpPrompt bb t brief profile = some (.error .guideSlot) ↔
      ∃ g, (told.filterMap Shown.guide?).getLast? = some g ∧
        (profile.moves g.move).isSome = true ∧ ∃ s ∈ g.slots, tells told s = false := by
  obtain ⟨v, view, fails⟩ := cpPrompt_error ready kept bounded lane short
    (e := .guideSlot) (by simp)
  rw [fails]
  simp only [guide_slot, resolve_isSome kept view.facts view.offers]

theorem cpPrompt_move (ready : Ready profile) (kept : Kept (known bb) told) (bounded : Bounded bb)
    {t : Views.Trigger} (lane : t.kind.lane = .cp) {brief : String}
    (short : brief.length ≤ maxBrief) :
    cpPrompt bb t brief profile = some (.error .guideMove) ↔
      ∃ g, (told.filterMap Shown.guide?).getLast? = some g ∧
        (profile.moves g.move).isSome = false := by
  obtain ⟨v, view, fails⟩ := cpPrompt_error ready kept bounded lane short
    (e := .guideMove) (by simp)
  rw [fails]
  simp only [guide_move]

theorem tells_guide (g : Guide) (slot : String) :
    tells (told ++ [.guide g]) slot = tells told slot := by
  unfold tells
  rw [factTold_snoc rfl, newestFields_snoc rfl]

theorem Bounded.guided (bounded : Bounded bb) (g : Guide) :
    Bounded (withGuide bb g) :=
  ⟨bounded.summary, bounded.priv, bounded.offers, Nat.le_refl 1⟩

theorem publicGuide_false {g : Guide} :
    publicGuide bb g profile = some (.ok false) ↔
      cpPrompt (withGuide bb g) guidance "" profile =
        some (.error .guideSlot) := by
  unfold publicGuide
  cases cpPrompt (withGuide bb g) guidance "" profile with
  | none => simp
  | some prompt =>
    cases prompt with
    | ok p => simp
    | error e => cases e <;> simp

theorem publicGuide_true {g : Guide} (h : publicGuide bb g profile = some (.ok true)) :
    ∃ prompt, cpPrompt (withGuide bb g) guidance "" profile =
      some (.ok prompt) := by
  unfold publicGuide at h
  cases made : cpPrompt (withGuide bb g) guidance "" profile with
  | none =>
    rw [made] at h
    cases h
  | some prompt =>
    cases prompt with
    | ok p => exact ⟨p, rfl⟩
    | error e =>
      rw [made] at h
      cases e <;> simp at h

/-- A guide is refused for its slots exactly if one names what the log does not tell.  One that was
let through renders in every later prompt of the call until another takes its place, unless the
newest revision of an offer recorded since leaves out a field that it names: then no prompt of the
call renders. -/
theorem guide_renders_until_dropped (ready : Ready profile) (h : fold log = .ok bb) (g : Guide) :
    (publicGuide bb g profile = some (.ok false) ↔
      (profile.moves g.move).isSome = true ∧ ∃ s ∈ g.slots, tells (log.filterMap shown) s = false) ∧
    (publicGuide bb g profile = some (.ok true) →
      ∀ later bb', fold (log ++ later) = .ok bb' →
        (((log ++ later).filterMap shown).filterMap Shown.guide?).getLast? = some g →
        ∀ (t : Views.Trigger) (brief : String), t.kind.lane = .cp → brief.length ≤ maxBrief →
          (cpPrompt bb' t brief profile = some (.error .guideSlot) ↔
            ∃ s ∈ g.slots, drops (later.filterMap shown) s = true) ∧
          cpPrompt bb' t brief profile ≠ some (.error .guideMove)) := by
  have kept := kept_of_fold h
  have bounded := bounded_of_fold h
  have asked : Kept (known (withGuide bb g)) (log.filterMap shown ++ [Shown.guide g]) :=
    kept.learn (s := .guide g) trivial
  have last : ((log.filterMap shown ++ [Shown.guide g]).filterMap Shown.guide?).getLast? =
      some g := by
    simp [Shown.guide?]
  have short : "".length ≤ maxBrief := Nat.zero_le _
  have slot := cpPrompt_slot ready asked (Bounded.guided bounded g) (t := guidance) rfl short
  have move := cpPrompt_move ready asked (Bounded.guided bounded g) (t := guidance) rfl short
  simp only [last, Option.some.injEq, exists_eq_left', tells_guide] at slot move
  refine ⟨publicGuide_false.trans slot, fun public_ later bb' h' newest t brief lane short => ?_⟩
  obtain ⟨prompt, made⟩ := publicGuide_true public_
  have moves : (profile.moves g.move).isSome = true := by
    by_contra bad
    have := move.mpr (by simpa using bad)
    rw [made] at this
    cases this
  have told_ : ∀ s ∈ g.slots, tells (log.filterMap shown) s = true := by
    intro s hs
    by_contra bad
    have := slot.mpr ⟨moves, s, hs, by simpa using bad⟩
    rw [made] at this
    cases this
  have kept' := kept_of_fold h'
  have bounded' := bounded_of_fold h'
  rw [List.filterMap_append] at kept' newest
  constructor
  · rw [cpPrompt_slot ready kept' bounded' lane short]
    simp only [newest, Option.some.injEq, exists_eq_left', moves, true_and]
    refine exists_congr fun s => and_congr_right fun hs => ?_
    rw [tells_append (told_ s hs)]
    simp
  · intro bad
    rw [cpPrompt_move ready kept' bounded' lane short] at bad
    obtain ⟨g', is_, none_⟩ := bad
    rw [newest] at is_
    cases is_
    rw [moves] at none_
    cases none_

end

/-! ## A fee that a later revision leaves out -/

def sampleProfile : Profile where
  name := "pl_cp_v3"
  lane := .cp
  system := "You are the voice of an AI assistant."
  sections := [("CASE AGENT GUIDANCE", .guidance), ("TRIGGER", .trigger)]
  labels := ("REP", "AGENT")
  triggers
    | .holdWait => some "You have kept the representative waiting for {n} seconds."
    | _ => some "Respond."
  moves
    | .askReadback => some "Ask them to read back every term of the offer."
    | _ => none

theorem sampleProfile_ready : Ready sampleProfile := by
  refine ⟨rfl, ⟨_, List.mem_cons_self⟩, fun kind lane => ?_⟩
  cases kind with
  | holdWait => exact ⟨_, rfl, fun _ n => ⟨_, rfl⟩⟩
  | userMsg | slowMsg | approvalCard | sessionStart => cases lane
  | repSpoke | guidance | callConnected => exact ⟨_, rfl, fun kind => by cases kind⟩

def priceSlot : ReadbackSlot :=
  { field := "monthly_price", value := "7490", unit := .usdMinor, role := .recurring,
    ok := by decide }

def feeSlot : ReadbackSlot :=
  { field := "fee:porting", value := "2505", unit := .usdMinor, role := .oneTime, ok := by decide }

def askFee : Guide := { move := .askReadback, slots := ["offer:A.fee:porting"], few := by decide }

def offeredLog : List Event := [saidAt 0 (.offerRecorded "A" 1 [priceSlot, feeSlot] none)]

def askedFee : Event :=
  saidAt 1 (.s2fMsg { msgId := "s2f-1", lane := .cp, type := .guide, guide := some askFee,
                      laneRules := by decide })

def droppedLog : List Event := [askedFee, saidAt 2 (.offerRecorded "A" 2 [priceSlot] none)]

/-- The guide that asks for the porting fee is let through; after a revision without it, no turn of
the call renders. -/
theorem guide_renders_until_dropped_sample :
    publicGuide (boardOf offeredLog) askFee sampleProfile = some (.ok true) ∧
      cpPrompt (boardOf (offeredLog ++ droppedLog)) repSpoke "" sampleProfile =
        some (.error .guideSlot) := by
  have taken : publicGuide (boardOf offeredLog) askFee sampleProfile = some (.ok true) := by
    decide +kernel
  refine ⟨taken, ?_⟩
  have fails := (guide_renders_until_dropped sampleProfile_ready
    (fold_boardOf rfl : fold offeredLog = .ok (boardOf offeredLog)) askFee).2 taken droppedLog
    (boardOf (offeredLog ++ droppedLog)) (fold_boardOf rfl) rfl repSpoke "" rfl (Nat.zero_le _)
  exact fails.1.mpr ⟨"offer:A.fee:porting", List.mem_singleton.mpr rfl, rfl⟩

end ProxyLoop.Render
