import ProxyLoop.Guard.Capability

/-!
# Evidence-bound verifiers

Only their `completion.decided` leads to a verified status.  Both read what the agent could
observe; the world is never consulted.
-/

namespace ProxyLoop

/-- What the lexicons read in the rep's lines, left open: whether the final offer was asked for and
heard, whether a closing reply to it stands, whether the rep answered the accept, and the first
answer that carries a confirmation id. -/
structure Heard where
  askedFinal : Bool
  closing : Bool
  answered : Bool
  confirmed : Option String
  deriving DecidableEq, Repr

def decision (reasons : List String) : CompletionDecision :=
  ⟨if reasons.isEmpty then .ok else .fail, reasons⟩

theorem decision_ok {reasons : List String} : (decision reasons).verdict = .ok ↔ reasons = [] := by
  cases reasons <;> simp [decision]

def releasedAccepts (bb : Blackboard) : List Capability :=
  bb.capabilities.values.filter isReleasedAccept

/-- Evidence bound to the capability's terms; portal evidence also to its business action. -/
def bindsCap (cap : Capability) (x : Evidence) : Bool :=
  x.termsHash = some cap.termsHash &&
    (x.kind = .ledger || x.businessActionId = some cap.businessActionId)

section verify

variable (py : Runtime)

/-- The terms of the recorded offer with this hash. -/
def acceptedTerms (bb : Blackboard) (hash : String) : Except PyError (Option Terms) :=
  match offerWith bb hash with
  | none => .ok none
  | some (_, o) => offerTerms py o

/-- `verify_completion`: exactly one released accept, evidence bound to its terms, and no hard
violation in those terms. -/
def verifyCompletion (bb : Blackboard) : Except PyError CompletionDecision :=
  match releasedAccepts bb with
  | [] => .ok (decision ["no_released_accept"])
  | [cap] => do
    let unbound := if bb.evidence.any (bindsCap cap) then [] else ["no_bound_evidence"]
    return decision (unbound ++ match ← acceptedTerms py bb cap.termsHash with
      | none => ["accepted_terms_unknown"]
      | some t => if hardViolations t bb.priv.mandate ≠ [] then ["policy_violation"] else [])
  | _ => .ok (decision ["multiple_released_accepts"])

/-- The terms the user denied at approval. -/
def deniedHashes (bb : Blackboard) : List String :=
  (bb.priv.approvals.values.filter (·.decision = .denied)).map Approval.termsHash

/-- Why the offer keeps the case open: neither declined, nor denied, nor hard-violating. -/
def stillOpen (bb : Blackboard) (ref : String) (o : OfferPublic) :
    Except PyError (List String) := do
  let terms ← offerTerms py o
  if o.status = .declined ∨ (∃ h ∈ deniedHashes bb, o.termsHash = some h) then return []
  else match terms with
    | none => return ["offer_open:" ++ ref]
    | some t =>
      return if hardViolations t bb.priv.mandate = [] then ["offer_open:" ++ ref] else []

def byRef (a b : String × OfferPublic) : Prop := a.1 ≤ b.1

instance : DecidableRel byRef := fun a b => by unfold byRef; infer_instance

/-- `verify_no_deal`: every offer is closed to the user, the rep closed the final ask, and no
accept was released. -/
def verifyNoDeal (bb : Blackboard) (heard : Heard) : Except PyError CompletionDecision := do
  let offers ← (bb.pub.offers.entries.insertionSort byRef).mapM fun p => stillOpen py bb p.1 p.2
  let closing := if !heard.askedFinal then ["final_offer_not_asked"]
    else if !heard.closing then ["no_closing_reply"] else []
  let released := if releasedAccepts bb ≠ [] then ["accept_released"] else []
  return decision (offers.flatten ++ closing ++ released)

/-! ## What an ok verdict says -/

variable {py}

theorem verifyCompletion_ok {bb : Blackboard} {d : CompletionDecision} :
    (verifyCompletion py bb = .ok d ∧ d.verdict = .ok) ↔
      d = decision [] ∧ ∃ cap t, releasedAccepts bb = [cap] ∧
        (∃ x ∈ bb.evidence, bindsCap cap x = true) ∧
        acceptedTerms py bb cap.termsHash = .ok (some t) ∧ hardViolations t bb.priv.mandate = [] := by
  unfold verifyCompletion
  rcases hr : releasedAccepts bb with _ | ⟨cap, _ | ⟨cap', rest⟩⟩
  · simp only [Except.ok.injEq, List.cons_ne_nil, false_and, exists_false, and_false,
      iff_false, not_and, List.nil_eq]
    rintro rfl
    simp [decision]
  · constructor
    · rintro ⟨h, ok⟩
      simp only [bind, Except.bind] at h
      split at h
      · cases h
      · rename_i t? ht
        cases h
        rw [decision_ok, List.append_eq_nil_iff] at ok
        obtain ⟨bound, allowed⟩ := ok
        cases t? with
        | none => cases allowed
        | some t =>
          simp only [ite_eq_right_iff, List.cons_ne_nil, imp_false, not_not, ne_eq] at bound allowed
          simp only [ite_eq_left_iff, List.cons_ne_nil, imp_false, not_not] at bound
          refine ⟨by simp [bound, allowed], cap, t, rfl, ?_, ht, allowed⟩
          simpa using bound
    · rintro ⟨rfl, cap', t, hc, ⟨x, hx, hb⟩, ht, allowed⟩
      cases hc
      have bound : bb.evidence.any (bindsCap cap) = true := List.any_eq_true.mpr ⟨x, hx, hb⟩
      simp [bind, Except.bind, ht, bound, allowed, decision, pure, Except.pure]
  · simp only [Except.ok.injEq, List.cons.injEq, reduceCtorEq, and_false, false_and, exists_false,
      iff_false, not_and]
    rintro rfl
    simp [decision]

theorem stillOpen_eq_nil {bb : Blackboard} {ref : String} {o : OfferPublic}
    (h : stillOpen py bb ref o = .ok []) :
    o.status = .declined ∨ (∃ x ∈ deniedHashes bb, o.termsHash = some x) ∨
      ∃ t, offerTerms py o = .ok (some t) ∧ hardViolations t bb.priv.mandate ≠ [] := by
  simp only [stillOpen, bind, Except.bind] at h
  split at h
  · cases h
  rename_i t? ht
  split at h
  · rename_i hc
    rcases hc with hc | hc
    · exact Or.inl hc
    · exact Or.inr (Or.inl hc)
  · cases t? with
    | none => cases h
    | some t =>
      simp only [pure, Except.pure, Except.ok.injEq, ite_eq_right_iff, List.cons_ne_nil,
        imp_false] at h
      exact Or.inr (Or.inr ⟨t, ht, h⟩)

theorem mem_mapM_ok {α β ε : Type} {f : α → Except ε β} {xs : List α} {ys : List β}
    (h : xs.mapM f = .ok ys) : ∀ x ∈ xs, ∃ y ∈ ys, f x = .ok y := by
  induction xs generalizing ys with
  | nil => simp
  | cons x xs ih =>
    simp only [List.mapM_cons, bind, Except.bind] at h
    split at h
    · cases h
    rename_i y hy
    split at h
    · cases h
    rename_i ys' hys
    cases h
    intro z hz
    rcases List.mem_cons.mp hz with rfl | hz
    · exact ⟨y, List.mem_cons_self .., hy⟩
    · obtain ⟨w, hw, e⟩ := ih hys z hz
      exact ⟨w, List.mem_cons_of_mem _ hw, e⟩

/-- A verified no-deal: each recorded offer is declined, was denied, or breaks a hard limit of the
mandate then recorded, and no accept was released. -/
theorem verifyNoDeal_ok {bb : Blackboard} {heard : Heard} {d : CompletionDecision}
    (h : verifyNoDeal py bb heard = .ok d) (ok : d.verdict = .ok) :
    (∀ p ∈ bb.pub.offers.entries, p.2.status = .declined ∨
      (∃ x ∈ deniedHashes bb, p.2.termsHash = some x) ∨
      ∃ t, offerTerms py p.2 = .ok (some t) ∧ hardViolations t bb.priv.mandate ≠ []) ∧
    releasedAccepts bb = [] := by
  simp only [verifyNoDeal, bind, Except.bind] at h
  split at h
  · cases h
  rename_i reasons hm
  cases h
  rw [decision_ok, List.append_eq_nil_iff, List.append_eq_nil_iff] at ok
  obtain ⟨⟨offers, _⟩, released⟩ := ok
  constructor
  · intro p hp
    obtain ⟨y, hy, he⟩ := mem_mapM_ok hm p ((List.mem_insertionSort byRef).mpr hp)
    rw [List.flatten_eq_nil_iff.mp offers y hy] at he
    exact stillOpen_eq_nil he
  · by_contra hne
    simp [hne] at released

/-- What both verifiers read of a board. -/
structure SameRecord (bb b : Blackboard) : Prop where
  offers : b.pub.offers = bb.pub.offers
  mandate : b.priv.mandate = bb.priv.mandate
  approvals : b.priv.approvals = bb.priv.approvals
  capabilities : b.capabilities = bb.capabilities
  evidence : b.evidence = bb.evidence

theorem verifyCompletion_congr {bb b : Blackboard} (same : SameRecord bb b) :
    verifyCompletion py b = verifyCompletion py bb := by
  simp only [verifyCompletion, releasedAccepts, acceptedTerms, offerWith, same.offers,
    same.mandate, same.capabilities, same.evidence]

theorem stillOpen_congr {bb b : Blackboard} (same : SameRecord bb b) :
    stillOpen py b = stillOpen py bb := by
  have denied : deniedHashes b = deniedHashes bb := by
    unfold deniedHashes
    rw [same.approvals]
  funext ref o
  unfold stillOpen
  rw [denied, same.mandate]

theorem verifyNoDeal_congr {bb b : Blackboard} {heard : Heard} (same : SameRecord bb b) :
    verifyNoDeal py b heard = verifyNoDeal py bb heard := by
  have released : releasedAccepts b = releasedAccepts bb := by
    unfold releasedAccepts
    rw [same.capabilities]
  unfold verifyNoDeal
  rw [stillOpen_congr same, same.offers, released]

end verify

end ProxyLoop
