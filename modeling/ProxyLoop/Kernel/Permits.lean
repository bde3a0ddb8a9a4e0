import ProxyLoop.Kernel.Decisions
import ProxyLoop.Kernel.Offers

/-!
# What Guard permits, the fold accepts

Guard checks what it may emit, and the reducers check what they join: the rules are written twice.
On every board of a run the two agree, event by event, also where a rule emits several events and
where the kernel raises fences between them.
-/

namespace ProxyLoop

open Lib (Dict Reach anyStep)

/-! ## Accepted effects -/

def Payload.raisesFence : Payload → Bool
  | .authorityFence .raised .. => true
  | _ => false

/-- Events of these effects, in order and at the board's own time, are accepted, with any fences
raised before, between and after them. -/
def Accepts (bb : Blackboard) (ps : List Payload) : Prop :=
  ∀ events : List Event, (events.map Event.payload).filter (!·.raisesFence) = ps →
    (∀ e ∈ events, e.tMs = bb.tMs) → ∃ b, fold events bb = .ok b

/-- `b` is `bb` but for fences raised since. -/
def Fenced (bb b : Blackboard) : Prop :=
  ∃ fences seq, b = { bb with fences, seq }

section accepts

variable {host : Host} {bb b : Blackboard} {p : Payload} {ps : List Payload} {e : Event}

theorem apply_of_reduce {b₁ : Blackboard} (h : reduce b e = .ok b₁) :
    apply b e = .ok (stamp b₁ e) :=
  apply_eq_ok.mpr ⟨b₁, h, rfl⟩

theorem Fenced.raised (fenced : Fenced bb b) (hp : e.payload.raisesFence = true)
    (time : e.tMs = bb.tMs) : ∃ b', apply b e = .ok b' ∧ Fenced bb b' := by
  obtain ⟨fences, seq, rfl⟩ := fenced
  cases h : e.payload with
  | authorityFence op fenceId uttId =>
    cases op with
    | raised =>
      refine ⟨_, apply_eq_ok.mpr ⟨_, by simp only [reduce, h]; rfl, rfl⟩, fences ++
        [⟨fenceId, uttId, e.seq⟩], e.seq, ?_⟩
      simp only [stamp, fence, time]
    | cleared => simp [h, Payload.raisesFence] at hp
  | _ => simp [h, Payload.raisesFence] at hp

theorem accepts_nil (bb : Blackboard) : Accepts bb [] := by
  suffices run : ∀ (events : List Event) (b : Blackboard), Fenced bb b →
      (events.map Event.payload).filter (!·.raisesFence) = [] →
      (∀ e ∈ events, e.tMs = bb.tMs) → ∃ b', fold events b = .ok b' from
    fun events none_left times => run events bb ⟨bb.fences, bb.seq, rfl⟩ none_left times
  intro events
  induction events with
  | nil => exact fun b _ _ _ => ⟨b, rfl⟩
  | cons e events ih =>
    intro b fenced none_left times
    rw [List.map_cons, List.filter_cons] at none_left
    split at none_left
    · cases none_left
    · rename_i hp
      obtain ⟨b', happ, fenced'⟩ := fenced.raised (by simpa using hp) (times e (List.mem_cons_self ..))
      obtain ⟨b'', hf⟩ := ih b' fenced' none_left fun x hx => times x (List.mem_cons_of_mem _ hx)
      exact ⟨b'', fold_cons.mpr ⟨b', happ, hf⟩⟩

/-- The first effect is accepted under any fences, and the rest on the board after it. -/
theorem Accepts.cons (h : ∀ b e, Fenced bb b → e.payload = p → e.tMs = bb.tMs →
    ∃ b', apply b e = .ok b' ∧ Accepts b' ps) : Accepts bb (p :: ps) := by
  suffices run : ∀ (events : List Event) (b : Blackboard), Fenced bb b →
      (events.map Event.payload).filter (!·.raisesFence) = p :: ps →
      (∀ e ∈ events, e.tMs = bb.tMs) → ∃ b', fold events b = .ok b' from
    fun events left times => run events bb ⟨bb.fences, bb.seq, rfl⟩ left times
  intro events
  induction events with
  | nil => exact fun b _ none_left => by cases none_left
  | cons e events ih =>
    intro b fenced left times
    have now := times e (List.mem_cons_self ..)
    have later : ∀ x ∈ events, x.tMs = bb.tMs := fun x hx => times x (List.mem_cons_of_mem _ hx)
    rw [List.map_cons, List.filter_cons] at left
    split at left
    · obtain ⟨hp, left⟩ := List.cons.inj left
      obtain ⟨b', happ, accepts⟩ := h b e fenced hp now
      have time : b'.tMs = bb.tMs := (tMs_of_apply happ).trans now
      obtain ⟨b'', hf⟩ := accepts events left fun x hx => (later x hx).trans time.symm
      exact ⟨b'', fold_cons.mpr ⟨b', happ, hf⟩⟩
    · rename_i hp
      obtain ⟨b', happ, fenced'⟩ := fenced.raised (by simpa using hp) now
      obtain ⟨b'', hf⟩ := ih b' fenced' left later
      exact ⟨b'', fold_cons.mpr ⟨b', happ, hf⟩⟩

theorem Accepts.one (h : ∀ b e, Fenced bb b → e.payload = p → e.tMs = bb.tMs →
    ∃ b', apply b e = .ok b') : Accepts bb [p] :=
  .cons fun b e fenced hp time => by
    obtain ⟨b', happ⟩ := h b e fenced hp time
    exact ⟨b', happ, accepts_nil b'⟩

end accepts

/-! ## Status changes -/

/-- A verified status has the completion decision of its kind behind it. -/
def Backed (bb : Blackboard) (status : CaseStatus) : Prop :=
  ∀ n, verifiedReleases status = some n →
    (∃ d, bb.completion = some d ∧ d.verdict = .ok) ∧ bb.capabilities.count isReleasedAccept = n

section changes

variable {bb b : Blackboard} {ps : List Payload} {e : Event} {trigger : Trigger}
  {status : CaseStatus}

/-- A legal move is accepted exactly if its target is backed. -/
theorem apply_statusChanged_iff (legal : nextStatus b.pub.status trigger = some status)
    (hp : e.payload = .statusChanged ⟨b.pub.status, status⟩) :
    (∃ b', apply b e = .ok b') ↔ Backed b status := by
  have reduced : ∀ b₁, reduce b e = .ok b₁ ↔ Backed b status ∧
      { b with pub := { b.pub with status } } = b₁ := by
    intro b₁
    simp only [reduce, hp, statusChanged, require_bind, pure_eq_ok, true_and]
    exact ⟨fun h => h.2, fun h => ⟨isEdge_of_nextStatus legal, h⟩⟩
  constructor
  · rintro ⟨b', happ⟩
    obtain ⟨b₁, hr, -⟩ := apply_eq_ok.mp happ
    exact ((reduced b₁).mp hr).1
  · intro backed
    exact ⟨_, apply_eq_ok.mpr ⟨_, (reduced _).mpr ⟨backed, rfl⟩, rfl⟩⟩

theorem Fenced.backed (fenced : Fenced bb b) (backed : Backed bb status) : Backed b status := by
  obtain ⟨fences, seq, rfl⟩ := fenced
  exact backed

theorem Fenced.sameStatus (fenced : Fenced bb b) : b.pub.status = bb.pub.status := by
  obtain ⟨fences, seq, rfl⟩ := fenced
  rfl

theorem accepts_moved
    (backed : ∀ status, nextStatus bb.pub.status trigger = some status → Backed bb status)
    (rest : ∀ b, Accepts b ps) : Accepts bb (moved bb trigger ++ ps) := by
  unfold moved statusChange
  cases legal : nextStatus bb.pub.status trigger with
  | none => exact rest bb
  | some status =>
    refine .cons fun b e fenced hp _ => ?_
    have same := fenced.sameStatus
    obtain ⟨b', happ⟩ := (apply_statusChanged_iff (b := b) (by rw [same]; exact legal)
      (by rw [same]; exact hp)).mpr (fenced.backed (backed status legal))
    exact ⟨b', happ, rest b'⟩

theorem moved_congr (same : b.pub.status = bb.pub.status) : moved bb trigger = moved b trigger := by
  unfold moved statusChange
  rw [same]

end changes

/-! ## The rules, one by one -/

structure RunBoard (py : Runtime) (bb : Blackboard) : Prop where
  offers : OfferLaw py bb
  capabilities : CapabilityLaw bb
  numbered : Numbered bb

section rules

variable {host : Host} {bb b : Blackboard} {p : Payload} {ps : List Payload} {e : Event}
  {ref : String} {o : OfferPublic} {t : Terms}

/-- An effect whose reducer changes nothing that a rule reads is accepted anywhere. -/
theorem accepts_unread (unread : ∀ b e, e.payload = p → ∃ b', apply b e = .ok b') (bb : Blackboard) :
    Accepts bb [p] :=
  .one fun b e _ hp _ => unread b e hp

theorem accepts_denied (intent : String) (r : Refusal) : Accepts bb (denied intent r).effects := by
  cases r with
  | denied reason =>
    exact accepts_unread (fun b e hp => ⟨_, apply_of_reduce (by simp only [reduce, hp]; rfl)⟩) bb
  | raised err => exact accepts_nil bb

/-- A card of an acceptable offer joins the recorded offer, and its text fits. -/
theorem apply_requested (law : OfferLaw host.py bb) (fenced : Fenced bb b) {case_ : CaseRef}
    (found : bb.pub.offers.get? ref = some o) (acceptable : Acceptable host.py o t bb.priv.mandate bb.tMs)
    (hp : e.payload = .approvalRequested (newCard host.py bb o t case_)) :
    ∃ b', apply b e = .ok b' ∧ b'.pub.status = bb.pub.status := by
  obtain ⟨fences, seq, rfl⟩ := fenced
  have few : o.slots.length ≤ maxSlots := by
    have valid := law.valid found
    simp only [OfferPublic.valid, Bool.and_eq_true, decide_eq_true_eq] at valid
    exact valid.2
  have current : isCurrent (newCard host.py bb o t case_) (bb.pub.offers.get? o.offerRef) = true := by
    rw [law.keyed found, found]
    simp [isCurrent, newCard, acceptable.bound]
  have reduced : reduce { bb with fences, seq } e = .ok { bb with
      fences, seq, priv := { bb.priv with pendingApproval := some (newCard host.py bb o t case_) } } := by
    simp only [reduce, hp, approvalRequested, validated_bind, require_bind, pure_eq_ok]
    exact ⟨length_readbackText few, current, rfl, trivial⟩
  exact ⟨_, apply_of_reduce reduced, rfl⟩

theorem accepts_requestApproval (law : OfferLaw host.py bb) (msgId : String) :
    Accepts bb (requestApprovalTool host.py bb ref host.case_ msgId).effects := by
  unfold requestApprovalTool
  split
  · exact accepts_denied _ _
  · rename_i card ok
    obtain ⟨o, t, hot, rfl, -⟩ := requestApproval_eq_ok ok
    obtain ⟨found, -, acceptable⟩ := openOfferAt_eq_ok.mp hot
    refine .cons fun b e fenced hp _ => ?_
    obtain ⟨b', happ, same⟩ := apply_requested law fenced found acceptable hp
    refine ⟨b', happ, ?_⟩
    rw [moved_congr same]
    refine accepts_moved (fun status legal n hn => ?_) (accepts_unread fun b e hp => ?_)
    · obtain ⟨-, rfl⟩ := nextStatus_requested legal
      cases hn
    · exact ⟨_, apply_of_reduce (by simp only [reduce, hp]; rfl)⟩

/-- Every instant a new capability is bound to is still ahead. -/
theorem lt_earliest {known : List (Option Int)} {last x : Int} (end_ : x < last)
    (ahead : ∀ y, some y ∈ known → x < y) : x < earliest known last := by
  induction known with
  | nil => exact end_
  | cons y known ih =>
    have rest := ih fun z hz => ahead z (List.mem_cons_of_mem _ hz)
    cases y with
    | none => exact rest
    | some y => exact lt_min (ahead y (List.mem_cons_self ..)) rest

theorem GrantOk.live {g : Grant} (h : GrantOk bb o t g) {x : Int} (hx : g.expiresMs = some x) :
    (bb.tMs : Int) < x := by
  cases h with
  | mandate m found granted epoch live within first => exact live x hx
  | approval a mem hash epoch granted y expires live =>
    simp only [Grant.expiresMs, expires] at hx
    cases hx
    exact live

theorem acceptCap_live {g : Grant} {bid : String} (grant : GrantOk bb o t g)
    (acceptable : Acceptable host.py o t bb.priv.mandate bb.tMs) :
    (bb.tMs : Int) < (acceptCap host.py bb o t g bid).expiresMs := by
  refine lt_earliest (by simp [capTtlMs]) fun y hy => ?_
  simp only [List.mem_cons, List.not_mem_nil, or_false] at hy
  rcases hy with hy | hy
  · exact grant.live hy.symm
  · exact expired_eq_false.mp acceptable.live y hy.symm

/-- The next number names no capability. -/
theorem fresh_capId (law : CapabilityLaw bb) (numbered : Numbered bb) :
    bb.capabilities.get? ("cap-" ++ toString (bb.authorizations.length + 1)) = none := by
  by_contra h
  obtain ⟨c, hc⟩ := Option.ne_none_iff_exists'.mp h
  obtain ⟨a, ha, own⟩ := law.authorized hc
  obtain ⟨i, hi, rfl⟩ := List.getElem_of_mem ha
  have named := numbered i _ (List.getElem?_eq_getElem hi)
  rw [own, law.keyed hc] at named
  have := capId_inj named
  omega

theorem offerWith_isSome {h : String} (found : bb.pub.offers.get? ref = some o)
    (hash : o.termsHash = some h) : ((offerWith bb h).map Prod.fst).isSome = true := by
  rw [Option.isSome_map, offerWith, List.find?_isSome]
  exact ⟨(ref, o), Dict.get?_eq_some.mp found, by simpa using hash⟩

theorem accepts_acceptLine {id text : String} {cap : Capability}
    (found : bb.capabilities.get? id = some cap) (unused : cap.consumed = false)
    (rest : ∀ b, b.pub.status = bb.pub.status → Accepts b ps) :
    Accepts bb (.speakVerbatim .cp .accept text (some id) none :: ps) := by
  refine .cons fun b e fenced hp _ => ?_
  obtain ⟨fences, seq, rfl⟩ := fenced
  have reduced : reduce { bb with fences, seq } e = .ok { bb with fences, seq } := by
    simp only [reduce, hp, verbatim, liveCap, bind_assoc, fetch_bind, require_bind, pure_bind]
    exact ⟨cap, found, unused, rfl⟩
  exact ⟨_, apply_of_reduce reduced, rest _ rfl⟩

/-- The mint of an accept, its line and the status join them. -/
theorem accepts_acceptOffer (law : RunBoard host.py bb) :
    Accepts bb (acceptOfferTool host.py bb ref host.case_).effects := by
  unfold acceptOfferTool
  split
  · exact accepts_denied _ _
  rename_i cap text ok
  obtain ⟨o, t, g, accept, rfl⟩ := acceptOffer_eq_ok ok
  have unused : cap.consumed = false := by
    obtain ⟨bid, rfl⟩ := accept.cap
    rfl
  have minted : ∀ b e, Fenced bb b → e.payload = .actionAuthorized ⟨.acceptOffer, cap⟩ →
      e.tMs = bb.tMs → ∃ b', apply b e = .ok b' ∧ b'.pub.status = bb.pub.status ∧
        b'.capabilities.get? cap.capId = some cap := by
    rintro b e ⟨fences, seq, rfl⟩ hp time
    obtain ⟨bid, rfl⟩ := accept.cap
    have unreleased : releasedAccept bb (some (termsHash host.py t)) = false :=
      accept.acceptable.bound ▸ accept.unreleased
    have live : (e.tMs : Int) < (acceptCap host.py bb o t g bid).expiresMs :=
      time ▸ acceptCap_live accept.grant accept.acceptable
    have reduced : ∃ b₁, reduce { bb with fences, seq } e = .ok b₁ ∧
        b₁.pub.status = bb.pub.status ∧ b₁.capabilities.get? (acceptCap host.py bb o t g bid).capId =
          some (acceptCap host.py bb o t g bid) := by
      simp only [reduce, hp, authorized, require_bind, pure_eq_ok]
      exact ⟨_, ⟨⟨rfl, rfl, rfl, fresh_capId law.capabilities law.numbered⟩, live,
        fun _ => unreleased, fun _ => accept.alone,
        fun _ => offerWith_isSome accept.found accept.acceptable.bound, rfl⟩, rfl,
        Dict.get?_set_self ..⟩
    obtain ⟨b₁, hr, same, found⟩ := reduced
    exact ⟨_, apply_of_reduce hr, same, found⟩
  refine .cons fun b e fenced hp time => ?_
  obtain ⟨b', happ, same, found⟩ := minted b e fenced hp time
  refine ⟨b', happ, accepts_acceptLine found unused fun b'' same' => ?_⟩
  rw [moved_congr (same'.trans same), ← List.append_nil (moved b'' _)]
  refine accepts_moved (fun status legal n hn => ?_) accepts_nil
  rw [same'.trans same, accept.inCall] at legal
  cases legal
  cases hn

theorem accepts_declineOffer : Accepts bb (declineOfferTool bb ref).effects := by
  unfold declineOfferTool
  split
  · exact accepts_denied _ _
  · rename_i line ok
    simp only [declineOffer] at ok
    split at ok
    · cases ok
    rename_i o found
    split at ok
    · cases ok
    cases ok
    refine .one fun b e fenced hp _ => ?_
    obtain ⟨fences, seq, rfl⟩ := fenced
    have reduced : reduce { bb with fences, seq } e =
        .ok (withOffer { bb with fences, seq } ref { o with status := .declined }) := by
      simp only [reduce, hp, verbatim, fetch_bind, pure_eq_ok]
      exact ⟨o, found, rfl⟩
    exact ⟨_, apply_of_reduce reduced⟩

/-! ### Mandates -/

theorem accepts_proposed {mid : String} {limits : Envelope} {expiresMs : Option Int} {epoch : Nat}
    (own : bb.epoch = epoch) : Accepts bb [proposed host.py epoch mid limits expiresMs] := by
  refine .one fun b e fenced hp _ => ?_
  obtain ⟨fences, seq, rfl⟩ := fenced
  have reduced : reduce { bb with fences, seq } e = .ok (withMandate { bb with fences, seq }
      (proposal host.py epoch mid limits expiresMs)) := by
    simp only [reduce, hp, proposed, mandateProposed, require_bind, pure_eq_ok, and_true]
    exact own.symm
  exact ⟨_, apply_of_reduce reduced⟩

theorem accepts_bump {bump : EpochBump} (next : bb.epoch < bump.new)
    (rest : ∀ b, b.epoch = bump.new → Accepts b ps) : Accepts bb (.authorityEpoch bump :: ps) := by
  refine .cons fun b e fenced hp _ => ?_
  obtain ⟨fences, seq, rfl⟩ := fenced
  have reduced : ∃ b₁, reduce { bb with fences, seq } e = .ok b₁ ∧ b₁.epoch = bump.new := by
    simp only [reduce, hp, epochBump, require_bind, pure_eq_ok]
    exact ⟨_, ⟨next, rfl⟩, rfl⟩
  obtain ⟨b₁, hr, own⟩ := reduced
  exact ⟨_, apply_of_reduce hr, rest _ own⟩

theorem accepts_tightenMandate {changes : Envelope} {mid : String} :
    Accepts bb (tightenMandate host.py bb changes mid).effects := by
  unfold tightenMandate
  split
  · exact accepts_nil bb
  · split
    · exact accepts_nil bb
    · dsimp only
      split
      · exact accepts_unread (fun b e hp => ⟨_, apply_of_reduce (by simp only [reduce, hp]; rfl)⟩) bb
      · exact accepts_bump (Nat.lt_succ_self _) fun b own => accepts_proposed own

/-! ### Evidence and closing -/

theorem accepts_checkAccount {events : List Event} {conf : String} {said : Said} :
    Accepts bb (caught (checkAccount host.py bb events conf said)).effects := by
  have evidence : ∀ b : Blackboard, Accepts b (moved b .evidenceRecorded) := by
    intro b
    rw [← List.append_nil (moved b _)]
    refine accepts_moved (fun status legal n hn => ?_) accepts_nil
    obtain ⟨-, rfl⟩ := nextStatus_evidence legal
    cases hn
  unfold checkAccount
  split
  · exact accepts_nil bb
  split
  · exact accepts_nil bb
  rename_i binding _
  split
  · exact evidence bb
  simp only [bind, Except.bind]
  split
  · exact accepts_nil bb
  · rename_i hash bound
    refine .cons fun b e fenced hp _ => ?_
    obtain ⟨fences, seq, rfl⟩ := fenced
    have reduced : reduce { bb with fences, seq } e = .ok { bb with
        fences, seq, evidence := bb.evidence ++ [ledgerEvidence conf hash] } := by
      simp only [reduce, hp]
    exact ⟨_, apply_of_reduce reduced, evidence _⟩

theorem accepts_verdict {d : CompletionDecision} {trigger : Trigger}
    (backed : ∀ status, nextStatus bb.pub.status trigger = some status →
      Backed { bb with completion := some d } status) :
    Accepts bb (.completionDecided d :: moved bb trigger) := by
  refine .cons fun b e fenced hp _ => ?_
  obtain ⟨fences, seq, rfl⟩ := fenced
  have reduced : reduce { bb with fences, seq } e =
      .ok { bb with fences, seq, completion := some d } := by
    simp only [reduce, hp]
  refine ⟨_, apply_of_reduce reduced, ?_⟩
  have both : Accepts (stamp { bb with fences, seq, completion := some d } e) (moved bb trigger ++ []) :=
    accepts_moved backed accepts_nil
  rwa [List.append_nil] at both

theorem count_releasedAccepts : bb.capabilities.count isReleasedAccept = (releasedAccepts bb).length := by
  unfold Dict.count releasedAccepts Dict.values
  rw [List.countP_eq_length_filter, List.filter_map, List.length_map]
  rfl

theorem accepts_finishCompleted : Accepts bb (caught (finishCompleted host.py bb)).effects := by
  unfold finishCompleted
  split
  · exact accepts_nil bb
  rename_i fail hfail
  simp only [bind, Except.bind]
  split
  · exact accepts_nil bb
  rename_i d hd
  split
  · have line : moved bb .completionFail = [.statusChanged fail] := by simp [moved, hfail]
    show Accepts bb [.completionDecided d, .statusChanged fail]
    rw [← line]
    refine accepts_verdict fun status legal n hn => ?_
    cases h : bb.pub.status <;> rw [h] at legal <;> cases legal
    cases hn
  · rename_i unfailed
    have ok : d.verdict = .ok := by
      cases h : d.verdict with
      | ok => rfl
      | fail => exact absurd h unfailed
    refine accepts_verdict fun status legal n hn => ⟨⟨d, rfl, ok⟩, ?_⟩
    obtain ⟨-, cap, t, one, -⟩ := verifyCompletion_ok.mp ⟨hd, ok⟩
    show bb.capabilities.count isReleasedAccept = n
    rw [count_releasedAccepts, one]
    cases h : bb.pub.status <;> rw [h] at legal <;> cases legal
    cases hn
    rfl

theorem accepts_finishNoDeal {heard : Heard} :
    Accepts bb (caught (finishNoDeal host.py bb heard)).effects := by
  unfold finishNoDeal
  split
  · exact accepts_nil bb
  simp only [bind, Except.bind]
  split
  · exact accepts_nil bb
  rename_i d hd
  split
  · exact accepts_nil bb
  rename_i unfailed
  have ok : d.verdict = .ok := by
    cases h : d.verdict with
    | ok => rfl
    | fail => exact absurd h unfailed
  refine accepts_verdict fun status legal n hn => ⟨⟨d, rfl, ok⟩, ?_⟩
  obtain ⟨-, none_released⟩ := verifyNoDeal_ok hd ok
  show bb.capabilities.count isReleasedAccept = n
  rw [count_releasedAccepts, none_released]
  cases h : bb.pub.status <;> rw [h] at legal <;> cases legal
  cases hn
  rfl

theorem accepts_close {outcome : Outcome} {trigger : Trigger}
    (kind : trigger = .escalate ∨ trigger = .infoOnly) : Accepts bb (close bb outcome trigger).effects := by
  unfold close
  split
  · exact accepts_nil bb
  rename_i change hc
  have line : moved bb trigger ++ [] = [.statusChanged change] := by simp [moved, hc]
  show Accepts bb [.statusChanged change]
  rw [← line]
  refine accepts_moved (fun status legal n hn => ?_) accepts_nil
  rcases kind with rfl | rfl <;> cases h : bb.pub.status <;> rw [h] at legal <;> cases legal <;> cases hn

theorem accepts_finish {outcome : Outcome} {heard : Heard} :
    Accepts bb (caught (finish host.py bb outcome heard)).effects := by
  cases outcome with
  | completed => exact accepts_finishCompleted
  | noDeal => exact accepts_finishNoDeal
  | escalate =>
    simp only [finish]
    split
    · exact accepts_nil bb
    split
    · exact accepts_nil bb
    · exact accepts_close (Or.inl rfl)
  | infoOnly => exact accepts_close (Or.inr rfl)

/-! ### Read-backs and decisions -/

/-- `slot_statuses`: a status for each slot of the offer, as the rep's lines say it. -/
def slotStatuses (said : ReadbackSlot → SlotStatus) (o : OfferPublic) : Dict String SlotStatus :=
  o.slots.foldl (fun statuses s => statuses.set s.field (said s)) .empty

theorem mem_keys_slotStatuses {said : ReadbackSlot → SlotStatus} {f : String} :
    f ∈ (slotStatuses said o).keys ↔ f ∈ o.slots.map ReadbackSlot.field := by
  have from_ : ∀ (slots : List ReadbackSlot) (d : Dict String SlotStatus),
      f ∈ (slots.foldl (fun statuses s => statuses.set s.field (said s)) d).keys ↔
        f ∈ d.keys ∨ f ∈ slots.map ReadbackSlot.field := by
    intro slots
    induction slots with
    | nil => simp
    | cons s slots ih =>
      intro d
      rw [List.foldl_cons, ih, Dict.mem_keys_set, List.map_cons, List.mem_cons]
      tauto
  exact (from_ o.slots .empty).trans (by simp [Dict.keys, Dict.empty])

theorem sameFields_slotStatuses {said : ReadbackSlot → SlotStatus} {r : Readback}
    (h : r.slotStatuses = slotStatuses said o) : sameFields o r = true := by
  unfold sameFields
  rw [h, Bool.and_eq_true, List.all_eq_true, List.all_eq_true]
  refine ⟨fun s hs => ?_, fun f hf => ?_⟩
  · exact List.contains_iff_mem.mpr (mem_keys_slotStatuses.mpr (List.mem_map_of_mem hs))
  · exact List.contains_iff_mem.mpr (mem_keys_slotStatuses.mp hf)

theorem accepts_readback (law : OfferLaw host.py bb) {said : ReadbackSlot → SlotStatus} {r : Readback}
    (found : bb.pub.offers.get? ref = some o)
    (update : readbackUpdate host.py o (slotStatuses said o) = .ok r) :
    Accepts bb [.readbackUpdated r] := by
  obtain ⟨hash, -, rfl⟩ := readbackUpdate_eq_ok.mp update
  refine .one fun b e fenced hp _ => ?_
  obtain ⟨fences, seq, rfl⟩ := fenced
  have reduced : ∃ b₁, reduce { bb with fences, seq } e = .ok b₁ := by
    simp only [reduce, hp, readback, fetch_bind, require_bind, pure_eq_ok]
    exact ⟨_, o, by rw [law.keyed found]; exact found, ⟨rfl, sameFields_slotStatuses rfl⟩, rfl⟩
  obtain ⟨b₁, hr⟩ := reduced
  exact ⟨_, apply_of_reduce hr⟩

theorem apply_decided (post : ApprovalPost) (by_ : Approver) {d : Payload}
    (ok : DecideOk b post by_ d) (hp : e.payload = d) (time : e.tMs = b.tMs) :
    ∃ b', apply b e = .ok b' := by
  cases ok with
  | mandate m subject found undecided id hash own epoch =>
    exact apply_mandateDecided found undecided epoch hp
  | approval card subject pending fresh id current hash own epoch live =>
    exact (apply_approvalDecided pending id current epoch hp).mpr (time ▸ live)

/-- A post that Guard decides joins its subject, and its decision joins the board after it. -/
theorem accepts_decide {post : ApprovalPost} {by_ : Approver} {d : Payload}
    (ok : decide bb post by_ = .ok d) : Accepts bb [.approvalPost post, d] := by
  refine .cons fun b e fenced hp time => ?_
  obtain ⟨fences, seq, rfl⟩ := fenced
  have posted : reduce { bb with fences, seq } e = .ok { bb with fences, seq } := by
    simp only [reduce, hp, ProxyLoop.posted, require_bind, pure_eq_ok, and_true]
    cases decide_spec ok with
    | mandate m subject found undecided id hash own epoch =>
      simp [postSubject, subject, found, undecided, id, hash, own, epoch]
    | approval card subject pending fresh id current hash own epoch live =>
      simp [postSubject, subject, pending, id, hash, own, epoch]
  refine ⟨_, apply_of_reduce posted, .one fun b e' fenced' hp' time' => ?_⟩
  obtain ⟨fences', seq', rfl⟩ := fenced'
  refine apply_decided post by_ ?_ hp' time'
  cases decide_spec ok with
  | mandate m subject found undecided id hash own epoch =>
    exact .mandate m subject found undecided id hash own epoch
  | approval card subject pending fresh id current hash own epoch live =>
    exact .approval card subject pending fresh id current hash own epoch
      (show (e.tMs : Int) < card.expiresMs from time ▸ live)

/-- A line that revalidates may be released at every instant up to its end. -/
theorem apply_released (law : CapabilityLaw bb) {id : String} {tEnd : Nat}
    (ok : revalidate bb id tEnd = none) (rel : e.releases id) (inTime : e.tMs ≤ tEnd) :
    ∃ b, apply bb e = .ok b := by
  obtain ⟨lane, hp⟩ := rel
  unfold revalidate at ok
  split at ok
  · cases ok
  rename_i cap found
  split at ok
  · cases ok
  rename_i unused
  split at ok
  · cases ok
  rename_i epoch
  split at ok
  · cases ok
  rename_i unfenced
  split at ok
  · cases ok
  rename_i offer of
  split at ok
  · cases ok
  rename_i isOpen
  split at ok
  · cases ok
  rename_i terms
  split at ok
  · cases ok
  rename_i inTime'
  simp only [ne_eq, not_not, Bool.not_eq_true, Bool.or_eq_false_iff] at unused epoch unfenced isOpen terms inTime'
  obtain ⟨auth, hauth, -⟩ := Option.bind_eq_some_iff.mp of
  have live : (e.tMs : Int) < cap.expiresMs := by
    have := expired_eq_false.mp inTime'.1 _ rfl
    omega
  have once : cap.intent = .acceptOffer → releasedAccept bb (some cap.termsHash) = false := by
    intro intent
    refine releasedAccept_eq_false.mpr fun k c hc released same => ?_
    exact law.apart found hc (by simp [isLiveAccept, intent, unused]) released same.symm
  have reduced : reduce bb e = .ok (consume bb cap) := by
    simp only [reduce, hp, ProxyLoop.released, liveCap, bind_assoc, fetch_bind, require_bind, pure_bind,
      pure_eq_ok]
    have own := law.keyed found
    exact ⟨cap, found, unused, cap, own ▸ found, auth, own ▸ hauth, offer, hauth ▸ of,
      ⟨epoch, unfenced, isOpen⟩, terms, live, once, rfl⟩
  exact ⟨_, apply_of_reduce reduced⟩

/-- The rules of a tool call, but for the recording of an offer, which is no rule of Guard's. -/
theorem accepts_runTool (law : RunBoard host.py bb) {events : List Event} {mid : String}
    {call : ToolCall} (rule : ∀ ref slots expiresMs, call ≠ .recordOffer ref slots expiresMs) :
    Accepts bb (runTool host bb events mid call).effects := by
  cases call with
  | requestApproval ref msgId => exact accepts_requestApproval law.offers msgId
  | acceptOffer ref => exact accepts_acceptOffer law
  | declineOffer ref => exact accepts_declineOffer
  | proposeMandate limits =>
    simp only [runTool, proposeMandate]
    split
    · exact accepts_nil bb
    · exact accepts_proposed rfl
  | tightenMandate changes => exact accepts_tightenMandate
  | revoke => exact accepts_bump (Nat.lt_succ_self _) fun b _ => accepts_nil b
  | recordOffer ref slots expiresMs => exact absurd rfl (rule ref slots expiresMs)
  | checkAccount conf said => exact accepts_checkAccount
  | finish outcome heard => exact accepts_finish

theorem accepts_statusChange {trigger : Trigger} {c : StatusChanged}
    (change : statusChange bb trigger = some c) : Accepts bb [.statusChanged c] ↔ Backed bb c.status := by
  obtain ⟨status, legal, rfl⟩ := Option.map_eq_some_iff.mp change
  constructor
  · intro accepts
    let e : Event := ⟨"", 0, bb.tMs, .guard, [], bb.epoch, .statusChanged ⟨bb.pub.status, status⟩⟩
    obtain ⟨b, hf⟩ := accepts [e] rfl fun x hx => by rw [List.mem_singleton.mp hx]
    obtain ⟨b', happ, -⟩ := fold_cons.mp hf
    exact (apply_statusChanged_iff legal rfl).mp ⟨b', happ⟩
  · intro backed
    have line : moved bb trigger ++ [] = [.statusChanged ⟨bb.pub.status, status⟩] := by
      simp [moved, statusChange, legal]
    rw [← line]
    refine accepts_moved (fun next legal' => ?_) accepts_nil
    rw [legal] at legal'
    cases legal'
    exact backed

end rules

/-! ## Every rule of a run -/

theorem runBoard_bb {host : Host} {session : Session} {runId : String} {k : Kernel}
    (reach : Reach (Kernel.step host) anyStep (Kernel.start session runId) k) :
    RunBoard host.py k.bb := by
  have traced := traced_reach reach
  have folded := fold_reach reach
  have offers := offerLaw_of_traced traced folded
  exact ⟨⟨offers.keyed, offers.valid, offers.hash⟩, (capabilityLaw_of_fold folded).congr rfl rfl,
    fun i a hi => numbered traced folded i a hi⟩

/-- On every board of a run the fold accepts, in order, with fences raised in between, what a rule of
Guard's permits: the effects of a tool call, a read-back, a post with its decision, and a line that
revalidates at every instant of its window.  A status change alone is accepted exactly where its
target is unverified, or the completion decision of its kind was made. -/
theorem permitted_folds (host : Host) (session : Session) (runId : String) (k : Kernel)
    (reach : Reach (Kernel.step host) anyStep (Kernel.start session runId) k) :
    (∀ mid call, (∀ ref slots expiresMs, call ≠ ToolCall.recordOffer ref slots expiresMs) →
      Accepts k.bb (runTool host k.bb k.log mid call).effects) ∧
    (∀ ref o said r, k.bb.pub.offers.get? ref = some o →
      readbackUpdate host.py o (slotStatuses said o) = .ok r → Accepts k.bb [.readbackUpdated r]) ∧
    (∀ post by_ d, decide k.bb post by_ = .ok d → Accepts k.bb [.approvalPost post, d]) ∧
    (∀ trigger c, statusChange k.bb trigger = some c →
      (Accepts k.bb [.statusChanged c] ↔ Backed k.bb c.status)) ∧
    ∀ id tEnd e, revalidate k.bb id tEnd = none → e.releases id → k.bb.tMs ≤ e.tMs →
      e.tMs ≤ tEnd → ∃ b, apply k.bb e = .ok b := by
  have law := runBoard_bb reach
  exact ⟨fun mid call rule => accepts_runTool law rule,
    fun ref o said r found update => accepts_readback law.offers found update,
    fun post by_ d ok => accepts_decide ok, fun trigger c change => accepts_statusChange change,
    fun id tEnd e ok rel _ inTime => apply_released law.capabilities ok rel inTime⟩

/-- The case in its call: offer A is confirmed, and the granted mandate covers it. -/
def calledRun : Kernel := Kernel.after (hostOf sampleDigests) sampleSession sampleCall

theorem calledRun_facts : ((runTool (hostOf sampleDigests) calledRun.bb calledRun.log "mandate-2"
      (.acceptOffer "A")).ok &&
    statusChange calledRun.bb .noDealVerified = some ⟨.inCall, .verifiedNoDeal⟩ &&
    calledRun.bb.completion.isNone) = true := by decide +kernel

theorem calledRun_reach :
    Reach (Kernel.step (hostOf sampleDigests)) anyStep (Kernel.start sampleSession "run")
      calledRun := Kernel.reach_after _ _

theorem permitted_folds_sample :
    (runTool (hostOf sampleDigests) calledRun.bb calledRun.log "mandate-2" (.acceptOffer "A")).ok
      = true ∧
    Accepts calledRun.bb
      (runTool (hostOf sampleDigests) calledRun.bb calledRun.log "mandate-2" (.acceptOffer "A")).effects := by
  have facts := calledRun_facts
  simp only [Bool.and_eq_true] at facts
  exact ⟨facts.1.1, (permitted_folds (hostOf sampleDigests) sampleSession "run" calledRun
    calledRun_reach).1 "mandate-2" (.acceptOffer "A") (fun _ _ _ h => by cases h)⟩

/-- In the call the status machine gives a move to a verified status that no verdict backs, and the
fold rejects it. -/
theorem unbacked_change_rejected :
    Reach (Kernel.step (hostOf sampleDigests)) anyStep (Kernel.start sampleSession "run") calledRun ∧
      ∃ c, statusChange calledRun.bb .noDealVerified = some c ∧
        ¬ Accepts calledRun.bb [.statusChanged c] := by
  have facts := calledRun_facts
  simp only [Bool.and_eq_true, decide_eq_true_eq, Option.isNone_iff_eq_none] at facts
  refine ⟨calledRun_reach, _, facts.1.2, fun accepts => ?_⟩
  obtain ⟨⟨d, decided, -⟩, -⟩ := (accepts_statusChange facts.1.2).mp accepts 0 rfl
  rw [facts.2] at decided
  cases decided

end ProxyLoop
