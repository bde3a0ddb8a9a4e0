import ProxyLoop.Guard.Statuses

/-!
# Read-back confirmation is sound

A confirmed slot was stated, exactly, since an opening its revision may use, and nothing the rep
said of its field came after.
-/

namespace ProxyLoop.Said

open Lib (Dict)

/-! ## The statuses of distinct slots -/

section statuses

variable {u : Unicode} {read : Reader} {offer : OfferPublic} {asked : Option Nat} {asks : List Ask}
  {rivals : List OfferPublic}

theorem get?_foldl_set {α : Type} {entries : List (String × α)} (distinct : (entries.map Prod.fst).Nodup)
    (d : Dict String α) (new : ∀ p ∈ entries, p.1 ∉ d.keys) (k : String) (v : α) :
    (entries.foldl (fun d p => d.set p.1 p.2) d).get? k = some v ↔
      d.get? k = some v ∨ (k, v) ∈ entries := by
  induction entries generalizing d with
  | nil => simp
  | cons p entries ih =>
    rw [List.map_cons, List.nodup_cons] at distinct
    have fresh : ∀ q ∈ entries, q.1 ∉ (d.set p.1 p.2).keys := by
      intro q hq bad
      rcases Dict.mem_keys_set.mp bad with own | old
      · exact distinct.1 (own ▸ List.mem_map_of_mem hq)
      · exact new q (List.mem_cons_of_mem _ hq) old
    rw [List.foldl_cons, ih distinct.2 _ fresh, List.mem_cons, Dict.get?_set]
    by_cases own : k = p.1
    · have unset : d.get? k = none := by
        cases h : d.get? k with
        | none => rfl
        | some w =>
          exact absurd (List.mem_map.mpr ⟨(k, w), Dict.get?_eq_some.mp h, rfl⟩)
            (own ▸ new p (List.mem_cons_self ..))
      rw [if_pos own, unset]
      have away : (k, v) ∉ entries := fun bad =>
        distinct.1 (own ▸ List.mem_map_of_mem (f := Prod.fst) bad)
      simp only [Option.some.injEq, away, or_false, reduceCtorEq, false_or]
      constructor
      · rintro rfl
        rw [own]
      · intro eq
        rw [← eq]
    · rw [if_neg own]
      have : (k, v) ≠ p := fun bad => own (by rw [← bad])
      simp only [this, false_or]

theorem get?_statusesBy (distinct : (offer.slots.map ReadbackSlot.field).Nodup) (field : String)
    (status : SlotStatus) : (statusesBy u read offer asked asks rivals).get? field = some status ↔
      ∃ s ∈ offer.slots, s.field = field ∧ slotVerdict u read offer asked asks rivals s = status := by
  unfold statusesBy
  rw [get?_foldl_set]
  · simp
  · rw [List.map_map]
    exact distinct
  · simp [Dict.keys, Dict.empty]

theorem slot_of_field (distinct : (offer.slots.map ReadbackSlot.field).Nodup) {s t : ReadbackSlot}
    (hs : s ∈ offer.slots) (ht : t ∈ offer.slots) (same : s.field = t.field) : s = t :=
  List.inj_on_of_nodup_map distinct hs ht same

end statuses

/-! ## What a confirmation rests on -/

/-- Since an opening the value is stated exactly, and the last statement of all is exactly it. -/
structure Stands (want : String) (xs : List Statement) (opening : Nat) : Prop where
  restated : ∃ x ∈ xs, opening ≤ x.line ∧ x.values = {want}
  last : ∃ x, xs.getLast? = some x ∧ x.values = {want}

section rules

variable {u : Unicode} {want : String} {xs : List Statement} {opening : Nat}

theorem getLast?_since (sorted : xs.Pairwise (·.line ≤ ·.line)) {x : Statement}
    (h : (xs.filter (opening ≤ ·.line)).getLast? = some x) : xs.getLast? = some x := by
  induction xs using List.reverseRecOn with
  | nil => exact h
  | append_singleton xs y ih =>
    rw [List.filter_append] at h
    rw [List.pairwise_append] at sorted
    by_cases since : opening ≤ y.line
    · simp only [since, decide_true, List.filter_cons_of_pos, List.filter_nil,
        List.getLast?_append, List.getLast?_singleton, Option.some_or] at h
      rw [← h]
      simp
    · -- a later statement would stand no earlier
      have none_ : xs.filter (opening ≤ ·.line) = [] := by
        refine List.filter_eq_nil_iff.mpr fun z hz => ?_
        have := sorted.2.2 z hz y (List.mem_singleton_self _)
        simp only [decide_eq_true_eq]
        omega
      simp [since, none_] at h

theorem stands_of_all (sorted : xs.Pairwise (·.line ≤ ·.line)) {x : Statement}
    (some_ : (xs.filter (opening ≤ ·.line)).getLast? = some x)
    (own : x.values = {want}) : Stands want xs opening := by
  obtain ⟨mem, since⟩ := List.mem_filter.mp (List.mem_of_getLast? some_)
  exact ⟨⟨x, mem, by simpa using since, own⟩, x, getLast?_since sorted some_, own⟩

/-- The values stated since an opening, from the first that is exactly `want` on. -/
def fromFirst (want : String) (xs : List Statement) (opening : Nat) : List (Finset String) :=
  ((xs.filter (opening ≤ ·.line)).map Statement.values).dropWhile (· ≠ {want})

theorem confirmedSince_iff : confirmedSince want xs opening = true ↔
    fromFirst want xs opening ≠ [] ∧ ∀ v ∈ fromFirst want xs opening, v = {want} := by
  unfold confirmedSince fromFirst
  split
  · rename_i none_
    exact ⟨fun bad => (by cases bad), fun h => absurd none_ h.1⟩
  · rename_i some_
    rw [List.all_eq_true]
    simp only [decide_eq_true_eq]
    exact ⟨fun h => ⟨some_, h⟩, And.right⟩

/-- A slot's own rule. -/
theorem stands_of_confirmedSince (sorted : xs.Pairwise (·.line ≤ ·.line))
    (h : confirmedSince want xs opening = true) : Stands want xs opening := by
  obtain ⟨some_, each⟩ := confirmedSince_iff.mp h
  have last : ∃ v, ((xs.filter (opening ≤ ·.line)).map Statement.values).getLast? = some v ∧
      v = {want} := by
    obtain ⟨before, whole⟩ : fromFirst want xs opening <:+ _ := List.dropWhile_suffix _
    have hv := List.getLast?_eq_some_getLast some_
    refine ⟨_, ?_, each _ (List.getLast_mem some_)⟩
    rw [← whole, List.getLast?_append, hv]
    rfl
  obtain ⟨v, last, own⟩ := last
  rw [List.getLast?_map] at last
  obtain ⟨x, hx, rfl⟩ := Option.map_eq_some_iff.mp last
  exact stands_of_all sorted hx own

/-- The window's rule, of each slot. -/
theorem stands_of_anchors {slots : List Reading} {implied : List (String × List Statement)}
    (h : anchors opening slots implied = true) {r : Reading} (hr : r ∈ slots)
    (sorted : r.all.Pairwise (·.line ≤ ·.line)) : Stands r.want r.all opening := by
  obtain ⟨-, order, each, -⟩ := anchors_iff.mp h
  obtain ⟨_, -, lasts⟩ := order r hr
  obtain ⟨last, hl, -⟩ := lasts r hr
  exact stands_of_all sorted hl ((each r hr).1 last (List.mem_of_getLast? hl))

/-- What is said on one line after all others. -/
structure Appended (xs ys : List Statement) (n : Nat) : Prop where
  before : ∀ x ∈ xs, x.line < n
  own : ∀ y ∈ ys, y.line = n

/-- After a line that states another value, only a value restated in that line is confirmed, and
only since an opening with no exact statement before the line. -/
theorem restated_of_confirmedSince {ys : List Statement} {n : Nat} (new : Appended xs ys n)
    (other : ∃ y ∈ ys, y.values ≠ {want}) (sorted : (xs ++ ys).Pairwise (·.line ≤ ·.line))
    (h : confirmedSince want (xs ++ ys) opening = true) :
    (∀ x ∈ xs, opening ≤ x.line → x.values ≠ {want}) ∧
      ∃ y, ys.getLast? = some y ∧ y.values = {want} := by
  obtain ⟨y, hy, other⟩ := other
  refine ⟨fun x hx since own => ?_, ?_⟩
  · -- from its first exact statement on, the other value is among them
    have late : opening ≤ y.line := by
      have := new.before x hx
      have := new.own y hy
      omega
    have first : fromFirst want xs opening ≠ [] := by
      rw [fromFirst, ne_eq, List.dropWhile_eq_nil_iff]
      intro bad
      have mem : x ∈ xs.filter (opening ≤ ·.line) := List.mem_filter.mpr ⟨hx, by simpa using since⟩
      simpa [own] using bad _ (List.mem_map_of_mem (f := Statement.values) mem)
    have mem : y.values ∈ fromFirst want (xs ++ ys) opening := by
      have hy : y ∈ ys.filter (opening ≤ ·.line) := List.mem_filter.mpr ⟨hy, by simpa using late⟩
      rw [fromFirst, List.filter_append, List.map_append, List.dropWhile_append,
        if_neg (by simpa [List.isEmpty_iff, fromFirst] using first)]
      exact List.mem_append_right _ (List.mem_map_of_mem hy)
    exact other ((confirmedSince_iff.mp h).2 _ mem)
  · obtain ⟨x, hx, own⟩ := (stands_of_confirmedSince sorted h).last
    have some_ : ys ≠ [] := List.ne_nil_of_mem hy
    rw [List.getLast?_append_of_ne_nil _ some_] at hx
    exact ⟨x, hx, own⟩

/-- After a line that states another value no window is open. -/
theorem not_anchors {slots : List Reading} {implied : List (String × List Statement)} {r : Reading}
    (hr : r ∈ slots) {y : Statement} (hy : y ∈ r.all) (late : ∀ x ∈ r.all, x.line ≤ y.line)
    (other : y.values ≠ {r.want}) : anchors opening slots implied = false := by
  rw [Bool.eq_false_iff]
  intro h
  obtain ⟨-, order, each, -⟩ := anchors_iff.mp h
  obtain ⟨first, hf, -⟩ := order r hr
  obtain ⟨mem, since⟩ := List.mem_filter.mp (List.mem_of_head? hf)
  have since : opening ≤ first.line := by simpa using since
  have le := late first mem
  exact other ((each r hr).1 y (List.mem_filter.mpr ⟨hy, by simp only [decide_eq_true_eq]; omega⟩))

end rules

/-! ## The order of the slots -/

section order

variable {u : Unicode} {offer offer' : OfferPublic} {read : Reader}

theorem mem_others (distinct : (offer.slots.map ReadbackSlot.field).Nodup) {s : ReadbackSlot}
    {v : String} : v ∈ (others offer s).entries.map Prod.snd ↔
      ∃ t ∈ offer.slots, fieldKind t.field = fieldKind s.field ∧ t.field ≠ s.field ∧ t.value = v := by
  have entry : ∀ k, (k, v) ∈ (others offer s).entries ↔ (k, v) ∈ (offer.slots.filter fun t =>
      fieldKind t.field = fieldKind s.field && t.field ≠ s.field).map fun t => (t.field, t.value) := by
    intro k
    rw [← Dict.get?_eq_some, others, get?_foldl_set]
    · simp
    · rw [List.map_map]
      exact distinct.sublist (List.filter_sublist.map _)
    · simp [Dict.keys, Dict.empty]
  constructor
  · intro h
    obtain ⟨⟨k, _⟩, mem, rfl⟩ := List.mem_map.mp h
    obtain ⟨t, ht, eq⟩ := List.mem_map.mp ((entry k).mp mem)
    cases eq
    obtain ⟨mem, own⟩ := List.mem_filter.mp ht
    simp only [ne_eq, decide_not, Bool.and_eq_true, decide_eq_true_eq, Bool.not_eq_eq_eq_not,
      Bool.not_true, decide_eq_false_iff_not] at own
    exact ⟨t, mem, own.1, own.2, rfl⟩
  · rintro ⟨t, ht, kind, other, rfl⟩
    refine List.mem_map.mpr ⟨(t.field, t.value), (entry _).mpr ?_, rfl⟩
    exact List.mem_map.mpr ⟨t, List.mem_filter.mpr ⟨ht, by simp [kind, other]⟩, rfl⟩

/-- A reader sees the values of the other slots and not their order. -/
def Sees (read : Reader) : Prop := ∀ field (o o' : Dict String String),
  (o.entries.map Prod.snd).toFinset = (o'.entries.map Prod.snd).toFinset → read field o = read field o'

theorem sees_stated (lines : List Line) : Sees (stated u lines) := by
  intro field o o' values
  have said : ∀ clause, said u clause field o = said u clause field o' := by
    intro clause
    unfold Said.said
    rw [values]
  unfold stated lineStates
  simp only [said]

theorem others_perm (sees : Sees read) (distinct : (offer.slots.map ReadbackSlot.field).Nodup)
    (perm : offer.slots.Perm offer'.slots) (field : String) (s : ReadbackSlot) :
    read field (others offer s) = read field (others offer' s) := by
  refine sees _ _ _ (Finset.ext fun v => ?_)
  rw [List.mem_toFinset, List.mem_toFinset, mem_others distinct,
    mem_others ((perm.map ReadbackSlot.field).nodup_iff.mp distinct)]
  refine exists_congr fun t => and_congr perm.mem_iff Iff.rfl

theorem reading_perm (sees : Sees read) (distinct : (offer.slots.map ReadbackSlot.field).Nodup)
    (perm : offer.slots.Perm offer'.slots) (rivals : List OfferPublic) :
    reading u read offer rivals = reading u read offer' rivals := by
  funext s
  unfold reading
  rw [others_perm sees distinct perm]

theorem contains_perm {xs ys : List String} (perm : xs.Perm ys) (x : String) :
    xs.contains x = ys.contains x := by
  rw [Bool.eq_iff_iff, List.contains_iff_mem, List.contains_iff_mem, perm.mem_iff]

theorem window_perm (sees : Sees read) (distinct : (offer.slots.map ReadbackSlot.field).Nodup)
    (perm : offer.slots.Perm offer'.slots) (asks : List Ask) (rivals : List OfferPublic) :
    window u read offer asks rivals = window u read offer' asks rivals := by
  have fields := perm.map ReadbackSlot.field
  have missing : missingRequired offer = missingRequired offer' := by
    unfold missingRequired
    simp only [contains_perm fields, contains_perm (fields.map fieldKind)]
  have flags : implied offer = implied offer' := by
    unfold implied
    simp only [contains_perm fields, contains_perm (fields.map fieldKind)]
  have ask : ∀ a, unchanged a offer = unchanged a offer' := fun a => perm.all_eq
  have anchored : ∀ a, anchors a (offer.slots.map (reading u read offer rivals))
      ((implied offer).map fun p => (p.2, read p.1 .empty)) =
      anchors a (offer'.slots.map (reading u read offer' rivals))
        ((implied offer').map fun p => (p.2, read p.1 .empty)) := by
    intro a
    have slots := perm.map (reading u read offer rivals)
    rw [← reading_perm sees distinct perm, ← flags, Bool.eq_iff_iff, anchors_iff, anchors_iff]
    have none_ : offer.slots.map (reading u read offer rivals) = [] ↔
        offer'.slots.map (reading u read offer rivals) = [] := by
      rw [← List.length_eq_zero_iff, slots.length_eq, List.length_eq_zero_iff]
    simp only [slots.mem_iff, ne_eq, none_]
  unfold window
  rw [missing, perm.all_eq]
  simp only [ask, anchored]

/-- The order of the slots changes no status. -/
theorem get?_statusesBy_perm (sees : Sees read) (distinct : (offer.slots.map ReadbackSlot.field).Nodup)
    (perm : offer.slots.Perm offer'.slots) (asked : Option Nat) (asks : List Ask)
    (rivals : List OfferPublic) (field : String) :
    (statusesBy u read offer asked asks rivals).get? field =
      (statusesBy u read offer' asked asks rivals).get? field := by
  apply Option.ext
  intro status
  rw [get?_statusesBy distinct, get?_statusesBy ((perm.map ReadbackSlot.field).nodup_iff.mp distinct)]
  refine exists_congr fun s => and_congr perm.mem_iff (and_congr_right fun _ => ?_)
  unfold slotVerdict
  rw [window_perm sees distinct perm, others_perm sees distinct perm]

end order

/-! ## Soundness -/

section sound

variable {u : Unicode} {offer : OfferPublic} {lines : List Line} {asked : Option Nat}
  {asks : List Ask} {rivals : List OfferPublic} {s : ReadbackSlot}

/-- The openings a revision may be confirmed from: its own, or that of an ask for a revision with
the same value in every field both carry. -/
def Opening (offer : OfferPublic) (asked : Option Nat) (asks : List Ask) (opening : Nat) : Prop :=
  asked = some opening ∨ ∃ a ∈ asks, a.opening = opening ∧
    ∀ t ∈ offer.slots, ∀ v, a.terms.get? t.field = some v → v = t.value

abbrev ofSlot (u : Unicode) (offer : OfferPublic) (lines : List Line) (s : ReadbackSlot) :
    List Statement :=
  stated u lines s.field (others offer s)

theorem unchanged_spec {a : Ask} (h : unchanged a offer = true) :
    ∀ t ∈ offer.slots, ∀ v, a.terms.get? t.field = some v → v = t.value := by
  intro t ht v hv
  have := List.all_eq_true.mp h t ht
  rw [hv] at this
  simpa using this

theorem stands_of_confirmed (hs : s ∈ offer.slots)
    (h : slotVerdict u (stated u lines) offer asked asks rivals s = .confirmed) :
    roleOf (fieldKind s.field) = some s.role ∧
      ∃ opening, Opening offer asked asks opening ∧ Stands (key u s) (ofSlot u offer lines s) opening := by
  unfold slotVerdict at h
  split at h
  · cases h
  rename_i role
  refine ⟨not_not.mp role, ?_⟩
  split at h
  · rename_i open_
    simp only [window, Bool.and_eq_true, List.any_eq_true] at open_
    obtain ⟨-, a, ha, same, anchored⟩ := open_
    exact ⟨a.opening, Or.inr ⟨a, ha, rfl, unchanged_spec same⟩,
      stands_of_anchors anchored (List.mem_map_of_mem hs) sorted_stated⟩
  · unfold statusOf at h
    split at h
    · rename_i own
      obtain ⟨opening, rfl, since⟩ := (Option.any_eq_true ..).mp own
      exact ⟨opening, Or.inl rfl, stands_of_confirmedSince sorted_stated since⟩
    · split at h <;> cases h

/-- A line that states another value for a slot's field leaves it unconfirmed, unless it goes on to
restate the value, for the first time since the revision's own opening. -/
theorem restated_of_confirmed {line : Line} (hs : s ∈ offer.slots) (rep : line.speaker = .partner)
    (other : ∃ part ∈ units u line.text.toList s.field,
      said u part.text s.field (others offer s) ≠ ∅ ∧
        said u part.text s.field (others offer s) ≠ {key u s})
    (h : slotVerdict u (stated u (lines ++ [line])) offer asked asks rivals s = .confirmed) :
    ∃ opening, asked = some opening ∧
      (∀ x ∈ ofSlot u offer lines s, opening ≤ x.line → x.values ≠ {key u s}) ∧
      ∃ y, (lineStates u lines.length line.uttId line.text.toList s.field
        (others offer s)).getLast? = some y ∧ y.values = {key u s} := by
  have eq : stated u (lines ++ [line]) s.field (others offer s) = ofSlot u offer lines s ++
      lineStates u lines.length line.uttId line.text.toList s.field (others offer s) := by
    rw [stated_snoc, if_pos rep]
  have new : Appended (ofSlot u offer lines s) (lineStates u lines.length line.uttId
      line.text.toList s.field (others offer s)) lines.length := by
    refine ⟨fun x hx => ?_, fun y hy => (line_of_lineStates hy).1⟩
    obtain ⟨p, hp, hx⟩ := List.mem_flatMap.mp hx
    split at hx
    · obtain ⟨-, lt, -⟩ := List.mem_zipIdx hp
      rw [(line_of_lineStates hx).1]
      omega
    · cases hx
  obtain ⟨part, hp, some_, different⟩ := other
  have mem : (⟨lines.length, line.uttId, part.start, part.stop,
      said u part.text s.field (others offer s)⟩ : Statement) ∈ lineStates u lines.length line.uttId
        line.text.toList s.field (others offer s) :=
    List.mem_filterMap.mpr ⟨part, hp, if_neg some_⟩
  have sorted : (stated u (lines ++ [line]) s.field (others offer s)).Pairwise (·.line ≤ ·.line) :=
    sorted_stated
  unfold slotVerdict at h
  split at h
  · cases h
  split at h
  · rename_i open_
    simp only [window, Bool.and_eq_true, List.any_eq_true] at open_
    obtain ⟨-, a, -, -, anchored⟩ := open_
    have late : ∀ x ∈ stated u (lines ++ [line]) s.field (others offer s), x.line ≤ lines.length := by
      rw [eq]
      intro x hx
      rcases List.mem_append.mp hx with hx | hx
      · exact (new.before x hx).le
      · exact (new.own x hx).le
    have said : (⟨lines.length, line.uttId, part.start, part.stop,
        said u part.text s.field (others offer s)⟩ : Statement) ∈
          stated u (lines ++ [line]) s.field (others offer s) := by
      rw [eq]
      exact List.mem_append_right _ mem
    exact absurd anchored (Bool.eq_false_iff.mp (not_anchors
      (r := reading u (stated u (lines ++ [line])) offer rivals s) (List.mem_map_of_mem hs) said late
      different))
  · unfold statusOf at h
    split at h
    · rename_i own
      obtain ⟨opening, rfl, since⟩ := (Option.any_eq_true ..).mp own
      rw [eq] at since sorted
      exact ⟨opening, rfl, restated_of_confirmedSince new ⟨_, mem, different⟩ sorted since⟩
    · split at h <;> cases h

/-- Read-back confirmation is sound: what a confirmed slot rests on, what takes a confirmation back,
and that neither agent lines nor the order of the slots count. -/
theorem confirmation_sound (offer : OfferPublic)
    (distinct : (offer.slots.map ReadbackSlot.field).Nodup) (lines : List Line) (asked : Option Nat)
    (asks : List Ask) (rivals : List OfferPublic) :
    (∀ s ∈ offer.slots,
      (slotStatuses u offer lines asked asks rivals).get? s.field = some .confirmed →
        roleOf (fieldKind s.field) = some s.role ∧ ∃ opening, Opening offer asked asks opening ∧
          Stands (key u s) (ofSlot u offer lines s) opening) ∧
    (∀ s ∈ offer.slots, ∀ line : Line, line.speaker = .partner →
      (∃ part ∈ units u line.text.toList s.field, said u part.text s.field (others offer s) ≠ ∅ ∧
        said u part.text s.field (others offer s) ≠ {key u s}) →
      (slotStatuses u offer (lines ++ [line]) asked asks rivals).get? s.field = some .confirmed →
        ∃ opening, asked = some opening ∧
          (∀ x ∈ ofSlot u offer lines s, opening ≤ x.line → x.values ≠ {key u s}) ∧
          ∃ y, (lineStates u lines.length line.uttId line.text.toList s.field
            (others offer s)).getLast? = some y ∧ y.values = {key u s}) ∧
    (∀ (lines' : List Line) (asked' : Option Nat) (asks' : List Ask),
      repLines lines = repLines lines' →
      asked.map (repsBefore lines) = asked'.map (repsBefore lines') →
      asks.map (fun a => (⟨repsBefore lines a.opening, a.terms⟩ : Ask)) =
        asks'.map (fun a => ⟨repsBefore lines' a.opening, a.terms⟩) →
      slotStatuses u offer lines' asked' asks' rivals = slotStatuses u offer lines asked asks rivals) ∧
    ∀ offer' : OfferPublic, offer.slots.Perm offer'.slots → ∀ field,
      (slotStatuses u offer' lines asked asks rivals).get? field =
        (slotStatuses u offer lines asked asks rivals).get? field := by
  have own : ∀ s ∈ offer.slots, ∀ lines, (slotStatuses u offer lines asked asks rivals).get? s.field =
      some .confirmed → slotVerdict u (stated u lines) offer asked asks rivals s = .confirmed := by
    intro s hs lines h
    obtain ⟨t, ht, same, verdict⟩ := (get?_statusesBy distinct _ _).mp h
    rw [← slot_of_field distinct ht hs same]
    exact verdict
  refine ⟨fun s hs h => stands_of_confirmed hs (own s hs lines h), fun s hs line rep other h =>
    restated_of_confirmed hs rep other (own s hs _ h), fun lines' asked' asks' reps asked asks => ?_,
    fun offer' perm field => ?_⟩
  · exact (slotStatuses_agents offer rivals reps asked asks).symm
  · exact (get?_statusesBy_perm (sees_stated lines) distinct perm asked asks rivals field).symm

end sound

/-! ## A restated offer -/

namespace Restated

/-- The tables, on ASCII text. -/
def unicode : Unicode := ⟨fun _ => false, List.map Text.lowerChar, List.map Text.lowerChar, id⟩

def price : ReadbackSlot :=
  { field := "monthly_price", value := "7500", unit := .usdMinor, role := .recurring, ok := Eq.refl true }

def offer : OfferPublic where
  offerRef := "basic"
  revision := 2
  slots :=
    [price,
      { field := "term_months", value := "12", unit := .months, role := .recurring, ok := Eq.refl true },
      { field := "fees_none", value := "true", unit := .bool, role := .oneTime, ok := Eq.refl true },
      { field := "changes_none", value := "true", unit := .bool, role := .change, ok := Eq.refl true }]

def lines : List Line :=
  [⟨"u1", .partner, "$75 a month, 12 months. No fees or changes."⟩]

/-- The first revision was asked for before the line, the second after it. -/
def asks : List Ask := [⟨0, .empty⟩, ⟨1, .empty⟩]

def again : Line := ⟨"u2", .partner, "$80 a month; no, $75 a month."⟩

/-- The window confirms the price, and the next line states another before it states it again. -/
theorem facts : (slotStatuses unicode offer lines (some 1) asks []).get? "monthly_price" =
      some .confirmed ∧
    (slotStatuses unicode offer (lines ++ [again]) (some 1) asks []).get? "monthly_price" =
      some .confirmed ∧
    ∃ part ∈ units unicode again.text.toList price.field,
      said unicode part.text price.field (others offer price) ≠ ∅ ∧
        said unicode part.text price.field (others offer price) ≠ {key unicode price} := by
  decide +kernel

end Restated

theorem confirmation_sound_restated : ∃ opening,
    Opening Restated.offer (some 1) Restated.asks opening ∧
    Stands (key Restated.unicode Restated.price)
      (ofSlot Restated.unicode Restated.offer Restated.lines Restated.price) opening :=
  ((confirmation_sound Restated.offer (by decide) Restated.lines (some 1) Restated.asks []).1
    Restated.price (List.mem_cons_self ..) Restated.facts.1).2

/-- A line that states another value can leave the slot confirmed: it restates the value after it. -/
theorem confirmed_after_another_value :
    ¬ ∀ (u : Unicode) (offer : OfferPublic), (offer.slots.map ReadbackSlot.field).Nodup →
      ∀ (lines : List Line) (asked : Option Nat) (asks : List Ask) (rivals : List OfferPublic),
      ∀ s ∈ offer.slots, ∀ line : Line, line.speaker = .partner →
      (slotStatuses u offer lines asked asks rivals).get? s.field = some .confirmed →
      (∃ part ∈ units u line.text.toList s.field, said u part.text s.field (others offer s) ≠ ∅ ∧
        said u part.text s.field (others offer s) ≠ {key u s}) →
      (slotStatuses u offer (lines ++ [line]) asked asks rivals).get? s.field ≠ some .confirmed := by
  intro claim
  obtain ⟨confirmed, still, other⟩ := Restated.facts
  exact claim Restated.unicode Restated.offer (by decide) Restated.lines (some 1) Restated.asks []
    Restated.price (List.mem_cons_self ..) Restated.again rfl confirmed other still

end ProxyLoop.Said
