import ProxyLoop.Kernel.Grantable
import ProxyLoop.Kernel.Granting
import ProxyLoop.Slow.Hints

/-!
# The status bar names steps that Guard takes

The board that a hint's dry run reads is made of the view, which holds no capability.  On a recorded
offer the two boards differ in nothing else that the accept rule reads.
-/

namespace ProxyLoop.Hints

open Lib (Dict Reach anyStep)

/-! ## What the view leaves out -/

/-- The boards differ at most in what the view leaves out. -/
structure SameView (bb b : Blackboard) : Prop where
  tMs : b.tMs = bb.tMs
  epoch : b.epoch = bb.epoch
  fences : b.fences = bb.fences
  status : b.pub.status = bb.pub.status
  offers : b.pub.offers = bb.pub.offers
  mandate : b.priv.mandate = bb.priv.mandate
  approvals : b.priv.approvals = bb.priv.approvals

/-- Of the capabilities, which the view leaves out, none is in the way of an accept of `o`: none is
in flight, none of these terms was released, and if any was, a live decision of these terms grants
anew. -/
structure Unspent (bb : Blackboard) (o : OfferPublic) : Prop where
  alone : acceptInFlight bb = false
  unreleased : releasedAccept bb o.termsHash = false
  anew : releasedAccept bb = true → ∃ a ∈ decidedNow bb o.termsHash, isLiveApproval bb.tMs a = true

section view

variable {host : Host} {py : Runtime} {bb b : Blackboard} {ref : String} {o : OfferPublic}
  {t : Terms} {case_ : CaseRef}

theorem decidedNow_congr (same : SameView bb b) (hash : Option String) :
    decidedNow b hash = decidedNow bb hash := by
  unfold decidedNow
  rw [same.approvals, same.epoch]

/-- In the call, an offer that may be accepted is accepted unless the rule denies the accept. -/
theorem acceptOffer_total (case_ : CaseRef) (inCall : bb.pub.status = .inCall)
    (open_ : openOfferAt py bb ref = .ok (o, t)) :
    (∃ why, acceptOffer py bb ref case_ = .error (.denied why)) ∨
      ∃ got, acceptOffer py bb ref case_ = .ok got := by
  rcases h : acceptOffer py bb ref case_ with (why | err) | got
  · exact Or.inl ⟨why, rfl⟩
  · simp only [acceptOffer, inCall, committedStatus, terminal, open_, bind, Except.bind,
      reduceCtorEq, decide_false, Bool.or_self, Bool.false_eq_true, if_false, ne_eq,
      not_true_eq_false] at h
    split at h
    · cases h
    split at h
    · rename_i failed
      cases h
      unfold grantOf at failed
      dsimp only at failed
      split at failed
      · cases failed
      split at failed
      · cases failed
      split at failed
      · cases failed
      split at failed
      · cases failed
      · split at failed <;> cases failed
    split at h
    · cases h
    split at h <;> cases h
  · exact Or.inr ⟨got, rfl⟩

/-- The terms that a dry run on the view's board accepts, Guard accepts on the board itself exactly
when no capability is in the way. -/
theorem undenied_iff (same : SameView bb b)
    (dry : ∃ got, acceptOffer host.py b ref case_ = .ok got)
    (found : bb.pub.offers.get? ref = some o)
    (intents : ∀ c ∈ bb.capabilities.values, c.intent = .acceptOffer)
    (distinct : ∀ hash, o.termsHash = some hash → DistinctActions host bb hash) :
    (∀ why, acceptOffer host.py bb ref host.case_ ≠ .error (.denied why)) ↔ Unspent bb o := by
  obtain ⟨⟨cap, text⟩, dry⟩ := dry
  obtain ⟨o', t, g, ok, -⟩ := acceptOffer_eq_ok dry
  obtain rfl : o' = o := Option.some.inj (ok.found.symm.trans (same.offers ▸ found))
  have inCall : bb.pub.status = .inCall := same.status ▸ ok.inCall
  have open_ : openOfferAt host.py bb ref = .ok (o', t) := openOfferAt_eq_ok.mpr
    ⟨found, same.fences ▸ ok.unfenced, same.mandate ▸ same.tMs ▸ ok.acceptable⟩
  constructor
  · intro undenied
    rcases acceptOffer_total host.case_ inCall open_ with ⟨why, no⟩ | ⟨⟨cap', text'⟩, yes⟩
    · exact absurd no (undenied why)
    · obtain ⟨o, t', g', ok', -⟩ := acceptOffer_eq_ok yes
      obtain rfl : o = o' := Option.some.inj (ok'.found.symm.trans found)
      refine ⟨ok'.alone, ok'.unreleased, fun released => ?_⟩
      cases ok'.grant with
      | mandate m _ _ _ _ _ first =>
        rw [first] at released
        cases released
      | approval a mem hash epoch _ x expires live =>
        refine ⟨a, mem_decidedNow.mpr ⟨mem, hash, epoch⟩, ?_⟩
        simp [isLiveApproval, expires, live]
  · intro free why no
    have undenied : deniedTerms bb (termsHash host.py t) = false := by
      have := ok.undenied
      rw [decidedNow_congr same, ok.acceptable.bound] at this
      simpa [deniedTerms] using this
    have granted : ∃ g, grantOf bb o' t = .ok g := by
      cases released : releasedAccept bb with
      | true =>
        obtain ⟨a, mem, live⟩ := free.anew released
        exact grantOf_isOk undenied ok.acceptable.bound mem live
      | false =>
        cases ok.grant with
        | mandate m found granted epoch live within _ =>
          have found : bb.priv.mandate = some m := same.mandate ▸ found
          have gap : mandateGap (some m) bb.epoch bb.tMs t = none :=
            mandateGap_eq_none.mpr
              ⟨m, rfl, granted, epoch.trans same.epoch, same.tMs ▸ live, within⟩
          have none_denied : (decidedNow bb o'.termsHash).any (·.decision = .denied) = false := by
            rw [ok.acceptable.bound]
            exact undenied
          refine ⟨.mandate m, ?_⟩
          simp only [grantOf, none_denied, found, gap, released, Bool.false_eq_true, if_false]
        | approval a mem hash epoch _ x expires live =>
          refine grantOf_isOk undenied ok.acceptable.bound (a := a) ?_ ?_
          · exact mem_decidedNow.mpr ⟨same.approvals ▸ mem, hash, epoch.trans same.epoch⟩
          · simp only [isLiveApproval, expires, Option.any_some, decide_eq_true_eq]
            exact same.tMs ▸ live
    obtain ⟨g, granted⟩ := granted
    -- a released accept is of other terms, so its action is another
    have unused : ∀ bid, bid = businessActionId host.py host.case_.caseId .acceptOffer ref
        o'.revision (termsHash host.py t) g.key →
        bb.capabilities.values.any (·.businessActionId = bid) = false := by
      rintro bid rfl
      rw [List.any_eq_false]
      intro c hc own
      have terms :=
        distinct _ ok.acceptable.bound c hc ref o'.revision g.key (of_decide_eq_true own)
      obtain ⟨id, hid⟩ := Dict.mem_values.mp hc
      have unlive := acceptInFlight_eq_false.mp free.alone id c hid
      have unreleased := free.unreleased
      rw [ok.acceptable.bound] at unreleased
      refine releasedAccept_eq_false.mp unreleased id c hid ?_ terms
      simp only [isLiveAccept, isReleasedAccept, intents c hc, decide_true, Bool.true_and,
        Bool.not_eq_false'] at unlive ⊢
      exact unlive
    have allowed : acceptOffer host.py bb ref host.case_ = .ok (acceptCap host.py bb o' t g
        (businessActionId host.py host.case_.caseId .acceptOffer ref o'.revision
          (termsHash host.py t) g.key), acceptText o') := by
      simp [acceptOffer, inCall, committedStatus, terminal, open_, bind, Except.bind,
        free.unreleased, granted, unused _ rfl, free.alone]
    rw [allowed] at no
    cases no

end view

/-! ## What a hint names -/

section hints

variable {host : Host} {py : Runtime} {view : SlowView} {bb : Blackboard} {nowMs : Nat}
  {o : OfferPublic} {more : Option Bar} {bar : Bar} {hint : Hint} {step : Step} {ref : String}

theorem dryRun_eq_ok (h : dryRun py view ref nowMs = .ok true) :
    ∃ got, acceptOffer py (viewBoard view nowMs) ref dryCase = .ok got := by
  unfold dryRun at h
  split at h
  · exact ⟨_, by assumption⟩
  · cases h
  · cases h

/-- A step that the approval hint names: Guard would put the offer on a card, and an accept passed
the dry run. -/
theorem approvalHint_step (h : approvalHint py view o nowMs more = .ok hint)
    (named : hint.step = some step) :
    (∃ t, openOffer py (some o) view.mandate nowMs (!view.fences.isEmpty) = .ok (o, t)) ∧
      cardBlocks view.pendingApproval
        (view.pendingApproval.bind fun c => view.offers.find? (·.offerRef = c.offerRef)) view.epoch
          nowMs = false ∧
      (∀ r, step = .accept r → r = o.offerRef ∧ dryRun py view r nowMs = .ok true) ∧
      ∀ r, step = .request r → r = o.offerRef := by
  unfold approvalHint at h
  split at h
  · cases h
  · cases h
    cases named
  rename_i o' t opened
  obtain rfl : o = o' := Option.some.inj (openOffer_eq_ok.mp opened).1
  dsimp only at h
  split at h
  · cases h
    cases named
  rename_i free
  refine ⟨⟨t, opened⟩, by simpa using free, ?_⟩
  simp only [bind, Except.bind, pure, Except.pure] at h
  split at h
  · cases h
  rename_i ok dry
  split at h
  · rename_i yes
    cases h
    cases named
    subst yes
    refine ⟨?_, ?_⟩
    · rintro r ⟨⟩
      unfold approved at dry
      split at dry
      · exact ⟨rfl, dry⟩
      · cases dry
    · rintro r ⟨⟩
  split at h
  · cases h
    cases named
  split at h
  · cases h
    cases named
  split at h
  · cases h
    cases named
    exact ⟨by rintro r ⟨⟩, by rintro r ⟨⟩; rfl⟩
  split at h
  · cases h
    cases named
    exact ⟨by rintro r ⟨⟩, by rintro r ⟨⟩⟩
  split at h
  · cases h
    cases named
    exact ⟨by rintro r ⟨⟩, by rintro r ⟨⟩⟩
  · cases h
    cases named
    exact ⟨by rintro r ⟨⟩, by rintro r ⟨⟩; rfl⟩

theorem insideStep_step (h : insideStep py view o nowMs bar = .ok (some step)) :
    (∀ r, step = .accept r →
      r = o.offerRef ∧ readbackConfirmed o = true ∧ dryRun py view r nowMs = .ok true) ∧
      ∀ r, step ≠ .request r := by
  unfold insideStep at h
  split at h
  · rename_i confirmed
    simp only [bind, Except.bind, pure, Except.pure] at h
    split at h
    · cases h
    rename_i ok dry
    split at h
    · rename_i yes
      cases h
      refine ⟨?_, by rintro r ⟨⟩⟩
      rintro r ⟨⟩
      exact ⟨rfl, confirmed, yes ▸ dry⟩
    · cases h
  split at h
  · cases h
    exact ⟨by rintro r ⟨⟩, by rintro r ⟨⟩⟩
  split at h
  · cases h
    exact ⟨by rintro r ⟨⟩, by rintro r ⟨⟩⟩
  · cases h
    exact ⟨by rintro r ⟨⟩, by rintro r ⟨⟩⟩

/-- An offer inside the mandate that is not confirmed is neither accepted now nor put on a card. -/
theorem insideHint_step (h : insideHint py view o nowMs bar = .ok hint)
    (named : hint.step = some step) : (∀ r, step ≠ .accept r) ∧ ∀ r, step ≠ .request r := by
  unfold insideHint at h
  split at h
  · cases h
    cases named
  rename_i unconfirmed
  simp only [bind, Except.bind, pure, Except.pure] at h
  split at h
  · cases h
  split at h
  · cases h
    cases named
  split at h
  · cases h
    cases named
  split at h
  · cases h
  rename_i step took
  cases h
  cases named
  obtain ⟨accepts, others⟩ := insideStep_step took
  refine ⟨fun r own => ?_, others⟩
  simp [(accepts r own).2.1] at unconfirmed

theorem deferHint_step {why : Why} (h : deferHint py view o why nowMs bar = .ok hint)
    (named : hint.step = some step) :
    (∀ r, step = .accept r → r = o.offerRef ∧ dryRun py view r nowMs = .ok true) ∧
      ∀ r, step ≠ .request r := by
  cases why with
  | denied | dominates =>
    cases h
    cases named
  | inside =>
    simp only [deferHint, bind, Except.bind, pure, Except.pure] at h
    split at h
    · cases h
    rename_i step took
    cases h
    cases named
    obtain ⟨accepts, others⟩ := insideStep_step took
    exact ⟨fun r own => ⟨(accepts r own).1, (accepts r own).2.2⟩, others⟩

end hints

/-! ## On the board of a run -/

/-- One of the three hints of `o` on the view. -/
inductive Hinted (py : Runtime) (view : SlowView) (o : OfferPublic) (nowMs : Nat) : Hint → Prop
  | approval (hint : Hint) (more : Option Bar) (h : approvalHint py view o nowMs more = .ok hint) :
      Hinted py view o nowMs hint
  | inside (hint : Hint) (more : Bar) (h : insideHint py view o nowMs more = .ok hint) :
      Hinted py view o nowMs hint
  | deferred (hint : Hint) (why : Why) (more : Bar)
      (h : deferHint py view o why nowMs more = .ok hint) : Hinted py view o nowMs hint

section run

variable {host : Host} {session : Session} {runId : String} {k : Kernel} {o : OfferPublic}
  {ref : String}

theorem sameView (h : Reach (Kernel.step host) anyStep (Kernel.start session runId) k) :
    SameView k.bb (viewBoard (viewSlow k.bb) k.bb.tMs) := by
  have law := offerLaw_of_traced (traced_reach h) (fold_reach h)
  have cards : ∀ {id : String} {a : Approval}, k.board.priv.approvals.get? id = some a →
      a.approvalId = id := fun found => (cardDecision_of_fold (fold_reach h) found).1
  exact ⟨rfl, rfl, rfl, rfl, Dict.foldl_set_values law.keyed, rfl, Dict.foldl_set_values cards⟩

/-- Between blocks of a call in which no accept was released, no capability is in the way. -/
theorem unspent_of_idle (inv : KernelInv host k) (idle : k.idle = true)
    (inCall : k.board.pub.status = .inCall) (none_ : releasedAccept k.bb = false) :
    Unspent k.bb o := by
  have empty : ∀ c ∈ k.board.capabilities.values, False := by
    intro c hc
    have used := consumed_of_idle inv idle inCall hc
    simpa [used] using List.any_eq_false.mp none_ c hc
  refine ⟨?_, ?_, fun released => ?_⟩
  · exact List.any_eq_false.mpr fun c hc => (empty c hc).elim
  · exact List.any_eq_false.mpr fun c hc => (empty c hc).elim
  · rw [none_] at released
    cases released

/-- A hint that names an accept names one that Guard does not deny exactly when no capability is in
its way; the card that a hint names is never denied. -/
theorem hinted_steps (host : Host) (session : Session) (runId : String) (k : Kernel)
    (h : Reach (Kernel.step host) anyStep (Kernel.start session runId) k) (ref : String)
    (o : OfferPublic) (recorded : k.board.pub.offers.get? ref = some o)
    (distinct : ∀ hash, o.termsHash = some hash → DistinctActions host k.bb hash) (hint : Hint)
    (hinted : Hinted host.py (viewSlow k.bb) o k.bb.tMs hint) :
    (∀ named, hint.step = some (.accept named) →
      ((∀ why, acceptOffer host.py k.bb named host.case_ ≠ .error (.denied why)) ↔
        Unspent k.bb o)) ∧
      ∀ named, hint.step = some (.request named) →
        ∀ why, requestApproval host.py k.bb named host.case_ ≠ .error (.denied why) := by
  have law := offerLaw_of_traced (traced_reach h) (fold_reach h)
  have own : o.offerRef = ref := law.keyed recorded
  have intents : ∀ c ∈ k.bb.capabilities.values, c.intent = .acceptOffer := by
    intro c hc
    obtain ⟨id, found⟩ := Dict.mem_values.mp hc
    exact (KernelInv.reach h).intents found
  have accept : ∀ named, named = o.offerRef →
      dryRun host.py (viewSlow k.bb) named k.bb.tMs = .ok true →
      ((∀ why, acceptOffer host.py k.bb named host.case_ ≠ .error (.denied why)) ↔
        Unspent k.bb o) := by
    rintro named rfl dry
    exact undenied_iff (sameView h) (dryRun_eq_ok dry) (own ▸ recorded) intents distinct
  cases hinted with
  | approval more made =>
    refine ⟨fun named step => ?_, fun named step => ?_⟩
    · obtain ⟨-, -, accepts, -⟩ := approvalHint_step made step
      obtain ⟨same, dry⟩ := accepts named rfl
      exact accept named same dry
    · obtain ⟨⟨t, opened⟩, free, -, requests⟩ := approvalHint_step made step
      obtain rfl := requests named rfl
      have open_ : openOfferAt host.py k.bb o.offerRef = .ok (o, t) := by
        unfold openOfferAt
        rw [show k.bb.pub.offers.get? o.offerRef = some o from own ▸ recorded]
        exact opened
      have of_card : (viewSlow k.bb).pendingApproval.bind (fun c =>
          (viewSlow k.bb).offers.find? (·.offerRef = c.offerRef)) =
          k.bb.priv.pendingApproval.bind fun c => k.bb.pub.offers.get? c.offerRef :=
        congrArg (Option.bind _) (funext fun c => Dict.find?_values law.keyed c.offerRef)
      rw [of_card] at free
      intro why no
      simp only [requestApproval, open_, bind, Except.bind] at no
      split at no
      · rename_i blocked
        exact absurd (blocked.symm.trans free) (by decide)
      · cases no
  | inside more made =>
    exact ⟨fun named step => absurd rfl ((insideHint_step made step).1 named),
      fun named step => absurd rfl ((insideHint_step made step).2 named)⟩
  | deferred why more made =>
    refine ⟨fun named step => ?_, fun named step => absurd rfl ((deferHint_step made step).2 named)⟩
    obtain ⟨same, dry⟩ := (deferHint_step made step).1 named rfl
    exact accept named same dry

end run

/-! ## Runs

The user grants a card for offer A, and its hint is right.  Its accept is released, but cut short;
after the replan the card is still on record, so the hint names the accept again. -/

def namesAccept (k : Kernel) : Bool :=
  (k.board.pub.offers.get? "A").any fun o =>
    match approvalHint (hostOf sampleDigests).py (viewSlow k.bb) o k.bb.tMs none with
    | .ok hint => hint.step = some (.accept "A")
    | .error _ => false

def deniesAccept (k : Kernel) (why : String) : Bool :=
  match acceptOffer (hostOf sampleDigests).py k.bb "A" (hostOf sampleDigests).case_ with
  | .error (.denied reason) => reason = why
  | _ => false

/-- The accept of the granted card is released and cut short, and the replan is done. -/
def cutAcceptRun : Kernel :=
  grantedCardRun.on (sampleAccept ++ blockOf (.floor 0 0) [] 1 ++
    blockOf (.heard 0 "Yes") [23] 3 ++
    [.world 0 .slow [26] (.slowStepCompleted 26), .deliver, .react 0, .deliver])

theorem namesAccept_spec {k : Kernel} (h : namesAccept k = true) :
    ∃ o hint, k.board.pub.offers.get? "A" = some o ∧
      approvalHint (hostOf sampleDigests).py (viewSlow k.bb) o k.bb.tMs none = .ok hint ∧
      hint.step = some (.accept "A") := by
  obtain ⟨o, found, names⟩ := (Option.any_eq_true ..).mp h
  split at names
  · rename_i hint made
    exact ⟨o, hint, found, made, of_decide_eq_true names⟩
  · cases names

theorem deniesAccept_spec {k : Kernel} {why : String} (h : deniesAccept k why = true) :
    acceptOffer (hostOf sampleDigests).py k.bb "A" (hostOf sampleDigests).case_ =
      .error (.denied why) := by
  unfold deniesAccept at h
  split at h
  · rename_i reason denied
    rw [denied, of_decide_eq_true h]
  · cases h

theorem hints_facts : (namesAccept grantedCardRun && grantedCardRun.bb.capabilities.values = [] &&
    namesAccept cutAcceptRun && deniesAccept cutAcceptRun "already_accepted") = true := by
  decide +kernel

theorem grantedCard_reach : Reach (Kernel.step (hostOf sampleDigests)) anyStep
    (Kernel.start sampleSession "run") grantedCardRun :=
  (Kernel.reach_after _ _).trans (Kernel.on_reach inCallRun _)

theorem hinted_steps_sample :
    ∃ o hint, Hinted (hostOf sampleDigests).py (viewSlow grantedCardRun.bb) o grantedCardRun.bb.tMs
      hint ∧ hint.step = some (.accept "A") ∧
      ∀ why, acceptOffer (hostOf sampleDigests).py grantedCardRun.bb "A"
        (hostOf sampleDigests).case_ ≠ .error (.denied why) := by
  have facts := hints_facts
  simp only [Bool.and_eq_true, decide_eq_true_eq] at facts
  obtain ⟨⟨⟨names, empty⟩, -⟩, -⟩ := facts
  obtain ⟨o, hint, found, made, step⟩ := namesAccept_spec names
  have hinted := Hinted.approval hint none made
  have distinct : ∀ hash, o.termsHash = some hash →
      DistinctActions (hostOf sampleDigests) grantedCardRun.bb hash := by
    intro hash _ c hc
    rw [empty] at hc
    cases hc
  obtain ⟨-, -, -, idle, inCall, -⟩ := grantsA_spec (Bool.and_eq_true_iff.mp grantedCard_facts).1
  have accepts := (hinted_steps (hostOf sampleDigests) sampleSession "run" grantedCardRun
    grantedCard_reach "A" o found distinct hint hinted).1 "A" step
  refine ⟨o, hint, hinted, step, accepts.mpr ?_⟩
  refine unspent_of_idle (KernelInv.reach grantedCard_reach) idle inCall ?_
  rw [releasedAccept, empty]
  rfl

/-- A hint that names an accept that Guard denies: it was released before. -/
theorem hint_denied :
    ∃ k o hint, Reach (Kernel.step (hostOf sampleDigests)) anyStep
      (Kernel.start sampleSession "run") k ∧ k.board.pub.offers.get? "A" = some o ∧
      approvalHint (hostOf sampleDigests).py (viewSlow k.bb) o k.bb.tMs none = .ok hint ∧
      hint.step = some (.accept "A") ∧
      acceptOffer (hostOf sampleDigests).py k.bb "A" (hostOf sampleDigests).case_ =
        .error (.denied "already_accepted") := by
  have facts := hints_facts
  simp only [Bool.and_eq_true] at facts
  obtain ⟨⟨-, names⟩, denies⟩ := facts
  obtain ⟨o, hint, found, made, step⟩ := namesAccept_spec names
  exact ⟨cutAcceptRun, o, hint, grantedCard_reach.trans (Kernel.on_reach grantedCardRun _), found,
    made, step, deniesAccept_spec denies⟩

end ProxyLoop.Hints
