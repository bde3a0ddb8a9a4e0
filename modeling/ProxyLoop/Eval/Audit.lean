import ProxyLoop.Eval.Approval
import ProxyLoop.Kernel.Granting
import ProxyLoop.Kernel.Offers

/-!
# The auditor and the writer

`approval_b` re-derives from the log what Guard took from the board.  Over a log of the kernel each
released accept holds: its release cites its line, the one mint of its capability cites the decision
that granted it, and that decision its post.
-/

namespace ProxyLoop.Eval

open Lib (Dict Reach Each each_snoc)

section audit

variable {host : Host} {log before after pre post : List Event} {e m d : Event} {bb b : Blackboard}
  {cap : Capability}

/-! ## Causes -/

theorem cited_mem {c : Event} (stamped : Stamped log) (mem : c ∈ log) (cites : c.seq ∈ e.causes) :
    c ∈ causesOf log e := by
  obtain ⟨before, after, split⟩ := List.append_of_mem mem
  exact List.mem_filterMap.mpr ⟨c.seq, cites, find_seq stamped split⟩

theorem seq_lt (stamped : Stamped log) (split : log = before ++ e :: after) {c : Event}
    (mem : c ∈ before) : c.seq < e.seq := by
  obtain ⟨x, y, rfl⟩ := List.append_of_mem mem
  have own := (stamped _ e after split).1
  have at_c := (stamped x c (y ++ e :: after) (by rw [split]; simp)).1
  rw [own, at_c]
  simp only [List.length_append, List.length_cons]
  omega

theorem Distinct.mono {more : List Event} (distinct : Distinct host (log ++ more)) :
    Distinct host log where
  hex := distinct.hex
  apart g hg g' hg' := by
    have sub {g} (h : g ∈ grantKeys log) : g ∈ grantKeys (log ++ more) := by
      rw [grantKeys, List.filterMap_append]
      exact List.mem_append_left _ h
    exact distinct.apart g (sub hg) g' (sub hg')

theorem sameAuthority_of_quiet (h : fold log b = .ok bb)
    (quiet : ∀ x ∈ log, x.payload.isQuiet = true) : SameAuthority b bb :=
  fold_invariant_mem (I := SameAuthority b) h (.refl b) fun {_ x _} hx same ha =>
    same.trans (sameAuthority_of_apply ha (quiet x hx))

/-! ## The grant of a mint -/

theorem viaApproval_of_card (folds : fold log = .ok bb) (stamped : Stamped log)
    (linked : Each (Linked host) log) (split : log = before ++ d :: after) {x : ApprovalDecided}
    {card : ApprovalCard} (decided : d.payload = .approvalDecided x)
    (granted : x.decision = .granted) (own : card.approvalId = x.approvalId)
    (pending : (boardOf before).priv.pendingApproval = some card)
    (terms : card.termsHash = cap.termsHash) (epoch : card.authorityEpoch = cap.epoch) :
    viaApproval log cap d = true := by
  obtain ⟨b, -, hb, -, -⟩ := fold_at (split ▸ folds)
  obtain ⟨r, hr, request⟩ := card_requested (fold_boardOf hb) pending
  obtain ⟨p, hp, cites, body, card', posted, pending', hash, current⟩ :=
    (linked before d after split).decided x decided
  rw [pending] at pending'
  cases pending'
  have cited : p ∈ causesOf log d :=
    cited_mem stamped (by rw [split]; simp [hp]) (by rw [cites]; simp)
  have requested : r ∈ log := by rw [split]; simp [hr]
  simp only [viaApproval, decided, granted, decide_true, Bool.true_and, List.any_eq_true]
  refine ⟨r, requested, ?_⟩
  simp only [request, Bool.and_eq_true, decide_eq_true_eq, List.any_eq_true]
  refine ⟨⟨own, seq_lt stamped split hr⟩, p, cited, ?_⟩
  simp [posted, joined, hash, current, terms, epoch]

theorem viaMandate_of_mandate {x : MandateDecided} (decided : d.payload = .mandateDecided x)
    (granted : x.decision = .granted)
    (epoch : cap.epoch = d.epoch ∨ cap.epoch = d.epoch + 1 ∧ ∃ b ∈ log, OwnBump d b) :
    viaMandate log cap d = true := by
  simp only [viaMandate, decided, granted, decide_true, Bool.true_and, Bool.or_eq_true,
    Bool.and_eq_true, decide_eq_true_eq, List.any_eq_true]
  refine epoch.imp_right ?_
  rintro ⟨next, b, hb, bump, hp, reason, new, causes⟩
  exact ⟨⟨b, hb, by simp [isOwnBump, hp, reason, new, causes]⟩, next⟩

theorem via_of_minted (folds : fold log = .ok bb) (stamped : Stamped log)
    (linked : Each (Linked host) log) (traced : Traced host log)
    (digested : ∀ e ∈ log, e.payload.digested host.py) (distinct : Distinct host log)
    (split : log = pre ++ m :: post) {a : ActionAuthorized}
    (minted : m.payload = .actionAuthorized a) :
    ∃ d ∈ causesOf log m,
      viaApproval log a.capability d = true ∨ viaMandate log a.capability d = true := by
  obtain ⟨was, ref, o, first, tool, quiet, from_, hpre, isTool, holds, cites⟩ :=
    (linked pre m post split).minted a minted
  obtain ⟨same, ⟨text, ok⟩, found⟩ := from_
  obtain ⟨bm, -, hbm, -, -⟩ := fold_at (split ▸ folds)
  have whole : log = first ++ (tool :: quiet ++ m :: post) := by rw [split, hpre]; simp
  -- the board at the tool's call has the authority of the board at the mint
  obtain ⟨b₀, hb₀, rest⟩ := fold_append.mp (hpre ▸ hbm)
  have calm : SameAuthority b₀ bm := by
    refine sameAuthority_of_quiet rest fun x hx => ?_
    rcases List.mem_cons.mp hx with rfl | hx
    · cases hp : x.payload <;> rw [hp] at isTool <;> first | rfl | cases isTool
    · have := holds x hx
      cases hp : x.payload <;> rw [hp] at this <;> first | rfl | cases this
  have board : boardOf pre = bm := by rw [boardOf, hbm]
  rw [board] at same
  have own : o.offerRef = ref := by
    refine (offerLaw_of_traced (Each.left (split ▸ traced)) hbm).keyed ?_
    rw [same.offers]
    exact found
  obtain ⟨d, event, cited⟩ := grantEvent_spec hb₀ (Each.left (whole ▸ stamped))
    (Each.left (whole ▸ linked)) (Each.left (whole ▸ traced))
    (fun e he => digested e (by rw [whole]; exact List.mem_append_left _ he))
    (Distinct.mono (whole ▸ distinct)) (same.mandate.symm.trans calm.mandate)
    (same.approvals.symm.trans calm.approvals) found own ok
  have sub {y : Event} (hy : y ∈ first) : y ∈ log := by rw [whole]; exact List.mem_append_left _ hy
  have mem : d ∈ first := by
    cases cited with
    | card x y _ _ hsplit => rw [hsplit]; simp
    | mandate _ mem => exact mem
  refine ⟨d, cited_mem stamped (sub mem) (by rw [cites, event]; simp), ?_⟩
  cases cited with
  | card x y dec card hsplit decided granted named pending terms epoch =>
    exact Or.inl (viaApproval_of_card folds stamped linked
      (by rw [whole, hsplit, List.append_assoc, List.cons_append]) decided granted named pending
      terms epoch)
  | mandate x mem decided granted epoch =>
    refine Or.inr (viaMandate_of_mandate decided granted (epoch.imp_right (And.imp_right ?_)))
    rintro ⟨b, hb, bump⟩
    exact ⟨b, sub hb, bump⟩

/-! ## The mint of a release -/

theorem capId_ne_of_later (folds : fold log = .ok bb) (traced : Traced host log)
    (split : log = pre ++ m :: post) {a : ActionAuthorized} (minted : m.payload = .actionAuthorized a)
    {m' : Event} (mem : m' ∈ post) {a' : ActionAuthorized}
    (minted' : m'.payload = .actionAuthorized a') :
    a'.capability.capId ≠ a.capability.capId := by
  obtain ⟨x, y, rfl⟩ := List.append_of_mem mem
  have split' : log = (pre ++ m :: x) ++ m' :: y := by rw [split]; simp
  obtain ⟨b₁, b₂, h₁, ha, -⟩ := fold_at (split ▸ folds)
  obtain ⟨b₃, -, h₃, -, -⟩ := fold_at (split' ▸ folds)
  obtain ⟨b₁', b₂', h₁', ha', rest⟩ := fold_at h₃
  rw [h₁] at h₁'
  cases h₁'
  rw [ha] at ha'
  cases ha'
  obtain ⟨-, -, -, -, origin⟩ := traced.at split h₁
  obtain ⟨-, -, -, -, origin'⟩ := traced.at split' h₃
  rw [capId_of_minted origin minted, capId_of_minted origin' minted']
  intro same
  have one := capId_inj same
  obtain ⟨more, grown⟩ := authorizations_grow rest
  rcases authorizations_of_apply ha with kept | ⟨a₁, hp, added⟩
  · obtain ⟨b₄, hc, rfl⟩ := change_of_apply ha
    cases hc with
    | quiet hq => rw [minted] at hq; cases hq
    | minted a₁ hp =>
      have := congrArg List.length kept
      simp [stamp] at this
    | _ => simp_all
  · rw [added] at grown
    have := congrArg List.length grown
    simp only [List.length_append, List.length_cons, List.length_nil] at this
    omega

def authorize (caps : Dict String (Option (Event × Capability))) (e : Event) :
    Dict String (Option (Event × Capability)) :=
  match e.payload with
  | .actionAuthorized a =>
    let id := a.capability.capId
    caps.set id (if (caps.get? id).isSome then none else some (e, a.capability))
  | _ => caps

theorem authorizations_eq (log : List Event) : authorizations log = log.foldl authorize .empty := rfl

/-- Events that do not mint a capability leave its entry. -/
theorem get?_foldl_authorize {id : String} (other : ∀ x ∈ log, ∀ a,
      x.payload = .actionAuthorized a → a.capability.capId ≠ id)
    (caps : Dict String (Option (Event × Capability))) :
    (log.foldl authorize caps).get? id = caps.get? id := by
  induction log generalizing caps with
  | nil => rfl
  | cons x log ih =>
    rw [List.foldl_cons, ih fun y hy => other y (List.mem_cons_of_mem _ hy), authorize]
    split
    · rename_i a hp
      exact Dict.get?_set_ne _ (Ne.symm (other x (List.mem_cons_self ..) a hp)) _
    · rfl

theorem authorized_by_mint (folds : fold log = .ok bb) (traced : Traced host log)
    (split : log = pre ++ m :: post) {a : ActionAuthorized}
    (minted : m.payload = .actionAuthorized a) :
    (authorizations log).get? a.capability.capId = some (some (m, a.capability)) := by
  have later : ∀ x ∈ post, ∀ a', x.payload = .actionAuthorized a' →
      a'.capability.capId ≠ a.capability.capId := fun x hx a' hp =>
    capId_ne_of_later folds traced split minted hx hp
  have earlier : ∀ x ∈ pre, ∀ a', x.payload = .actionAuthorized a' →
      a'.capability.capId ≠ a.capability.capId := fun x hx a' hp => by
    obtain ⟨u, v, rfl⟩ := List.append_of_mem hx
    have split' : log = u ++ x :: (v ++ m :: post) := by rw [split]; simp
    exact Ne.symm (capId_ne_of_later folds traced split' hp (by simp) minted)
  rw [authorizations_eq, split, List.foldl_append, List.foldl_cons, get?_foldl_authorize later,
    authorize]
  simp [minted, get?_foldl_authorize earlier]

theorem mint_of_release (folds : fold log = .ok bb) (stamped : Stamped log)
    (split : log = before ++ e :: after) {lane : Lane} {id : String}
    (release : e.payload = .speakReleased lane (some id)) :
    ∃ pre m mid a, before = pre ++ m :: mid ∧ m.payload = .actionAuthorized a ∧
      a.capability.capId = id ∧ a.capability.epoch = e.epoch := by
  obtain ⟨b, b', hb, ha, -⟩ := fold_at (split ▸ folds)
  obtain ⟨cap, auth, offer, ok, -⟩ := release_spec (capabilityLaw_of_fold hb) ha ⟨lane, release⟩
  obtain ⟨pre, m, mid, bm, a, rfl, -, minted, rfl, own, -⟩ := unused_minted hb ok.found ok.unused
  obtain ⟨-, -, -, -, b₂, hb₂, epoch, -⟩ := stamped _ e after split
  rw [hb] at hb₂
  cases hb₂
  exact ⟨pre, m, mid, a, rfl, minted, own, ok.epoch.trans epoch.symm⟩

/-- The chain of a released accept is whole. -/
theorem chain_of_release (folds : fold log = .ok bb) (stamped : Stamped log)
    (linked : Each (Linked host) log) (traced : Traced host log)
    (digested : ∀ e ∈ log, e.payload.digested host.py) (distinct : Distinct host log)
    (split : log = before ++ e :: after) {lane : Lane} {id : String}
    (release : e.payload = .speakReleased lane (some id)) :
    chain log (authorizations log) e (some (some id)) ≠ none := by
  obtain ⟨pre, m, mid, a, rfl, minted, rfl, epoch⟩ := mint_of_release folds stamped split release
  have split' : log = pre ++ m :: (mid ++ e :: after) := by rw [split]; simp
  have intent : a.capability.intent = .acceptOffer := by
    obtain ⟨bm, -, hbm, -, -⟩ := fold_at (split' ▸ folds)
    obtain ⟨-, -, -, -, origin⟩ := traced.at split' hbm
    obtain ⟨ref, cap, text, was, rfl, same, _, ok⟩ := accept_of_minted origin minted
    obtain ⟨o, t, g, accept, -⟩ := acceptOffer_eq_ok ok
    obtain ⟨bid, rfl⟩ := accept.cap
    rfl
  have earlier : ¬ m.seq > e.seq := by
    have := seq_lt stamped split (show m ∈ pre ++ m :: mid by simp)
    omega
  obtain ⟨d, cited, via⟩ :=
    via_of_minted folds stamped linked traced digested distinct split' minted
  have found : (some (some a.capability.capId)).bind
      (fun id : Option String => (authorizations log).get? (id.getD "None")) =
        some (some (m, a.capability)) := authorized_by_mint folds traced split' minted
  simp only [chain, found, earlier, if_false, epoch, intent, ne_eq, not_true_eq_false,
    decide_false, Bool.or_self, Bool.false_eq_true]
  split
  · simp
  · rename_i approval
    have mandate : (causesOf log m).any (viaMandate log a.capability) = true := by
      refine List.any_eq_true.mpr ⟨d, cited, via.resolve_left fun yes => approval ?_⟩
      exact List.any_eq_true.mpr ⟨d, cited, yes⟩
    simp [mandate]

/-! ## The releases of a log -/

def releasedCap (e : Event) : Option String :=
  match e.payload with
  | .speakReleased _ capId => capId
  | _ => none

theorem releases_of_releasedCap {id : String} (h : releasedCap e = some id) :
    ∃ lane, e.payload = .speakReleased lane (some id) := by
  unfold releasedCap at h
  split at h
  · rename_i lane capId hp
    exact ⟨lane, by rw [hp, h]⟩
  · cases h

theorem releasedCaps_nodup (folds : fold log = .ok bb) : (log.filterMap releasedCap).Nodup := by
  induction log using List.reverseRecOn generalizing bb with
  | nil => simp
  | append_singleton log e ih =>
    obtain ⟨b, hb, ha⟩ := fold_snoc.mp folds
    rw [List.filterMap_append]
    cases h : releasedCap e with
    | none => simpa [h] using ih hb
    | some id =>
      refine List.Nodup.append (ih hb) (by simp [h]) ?_
      simp only [List.filterMap_cons, h, List.filterMap_nil, List.disjoint_singleton]
      intro mem
      obtain ⟨r, hr, same⟩ := List.mem_filterMap.mp mem
      obtain ⟨x, y, rfl⟩ := List.append_of_mem hr
      obtain ⟨lane, hp⟩ := releases_of_releasedCap same
      obtain ⟨lane', hp'⟩ := releases_of_releasedCap h
      obtain ⟨b₁, b₂, hb₁, ha₁, rest⟩ := fold_at hb
      have law := capabilityLaw_of_fold hb₁
      obtain ⟨c, -, -, used⟩ := released_get? law ha₁ ⟨lane, hp⟩
      obtain ⟨cap, auth, offer, ok, -⟩ :=
        release_spec (capabilityLaw_of_fold hb) ha ⟨lane', hp'⟩
      have still := consumed_stays (law.apply ha₁) rest used rfl
      rw [ok.found] at still
      have := ok.unused
      cases still
      cases this

/-- The accepts that the auditor finds: one for each released capability. -/
theorem acceptsOf_release (stamped : Stamped log) (linked : Each (Linked host) log)
    (split : log = before ++ e :: after) (release : isRelease e = true) :
    acceptsOf log e = ((releasedCap e).map fun id => (e, some (some id))).toList := by
  obtain ⟨lane, capId, hp⟩ : ∃ lane capId, e.payload = .speakReleased lane capId := by
    unfold isRelease at release
    split at release
    · exact ⟨_, _, ‹_›⟩
    · cases release
  obtain ⟨v, hv, cites, lane', kind, text, ref, line, accept⟩ :=
    (linked before e after split).released lane capId hp
  have found : log.find? (·.seq = v.seq) = some v := by
    obtain ⟨x, y, rfl⟩ := List.append_of_mem hv
    exact find_seq stamped (by rw [split, List.append_assoc, List.cons_append])
  have said : (causesOf log e).filterMap (line? ·.payload) = [(kind, capId)] := by
    simp [causesOf, cites, found, line, line?]
  simp only [acceptsOf, said, releasedCap, hp]
  cases capId with
  | none =>
    have other : kind ≠ .accept := fun h => accept.mp h rfl
    simp [other]
  | some id => simp [accept.mpr (by simp)]

theorem flatMap_acceptsOf (accepts : ∀ e ∈ log, isRelease e = true →
      acceptsOf before e = ((releasedCap e).map fun id => (e, some (some id))).toList) :
    (log.filter isRelease).flatMap (acceptsOf before) =
      log.filterMap fun e => (releasedCap e).map fun id => (e, some (some id)) := by
  induction log with
  | nil => rfl
  | cons e log ih =>
    have rest := ih fun x hx => accepts x (List.mem_cons_of_mem _ hx)
    cases h : isRelease e with
    | true =>
      rw [List.filter_cons_of_pos h, List.flatMap_cons, rest, accepts e (List.mem_cons_self ..) h,
        List.filterMap_cons]
      cases releasedCap e <;> simp
    | false =>
      have none_ : releasedCap e = none := by
        unfold releasedCap
        split
        · rename_i hp
          simp [isRelease, hp] at h
        · rfl
      rw [List.filter_cons_of_neg (by simp [h]), rest, List.filterMap_cons]
      simp [none_]

/-- The loop finds no broken accept where each chain is whole and no capability comes twice. -/
theorem judge_whole {caps : Dict String (Option (Event × Capability))} {released : List String}
    {entries : List (Event × String)} (fresh : ∀ x ∈ entries, x.2 ∉ released)
    (once : (entries.map Prod.snd).Nodup)
    (whole : ∀ x ∈ entries, chain log caps x.1 (some (some x.2)) ≠ none) :
    none ∉ judge log caps released (entries.map fun x => (x.1, some (some x.2))) := by
  induction entries generalizing released with
  | nil => simp [judge]
  | cons x entries ih =>
    rw [List.map_cons, List.nodup_cons] at once
    have own : released.contains x.2 = false := by simpa using fresh x (List.mem_cons_self ..)
    simp only [List.map_cons, judge, Option.join_some, own, Bool.false_eq_true, if_false,
      List.mem_cons, not_or]
    refine ⟨Ne.symm (whole x (List.mem_cons_self ..)), ih ?_ once.2 fun y hy =>
      whole y (List.mem_cons_of_mem _ hy)⟩
    intro y hy mem
    rcases List.mem_cons.mp mem with same | mem
    · exact once.1 (List.mem_map.mpr ⟨y, hy, same⟩)
    · exact fresh y (List.mem_cons_of_mem _ hy) mem

/-- Where the loop finds no broken accept, each chain is whole. -/
theorem chain_of_judge {caps : Dict String (Option (Event × Capability))} {released : List String}
    {entries : List (Event × Option (Option String))}
    (none_broken : none ∉ judge log caps released entries) :
    ∀ x ∈ entries, chain log caps x.1 x.2 ≠ none := by
  induction entries generalizing released with
  | nil => simp
  | cons x entries ih =>
    obtain ⟨e, v⟩ := x
    have both : chain log caps e v ≠ none ∧ ∃ released, none ∉ judge log caps released entries := by
      unfold judge at none_broken
      split at none_broken
      · obtain ⟨head, tail⟩ := not_or.mp (List.mem_cons.not.mp none_broken)
        split at head
        · exact absurd rfl head
        · exact ⟨Ne.symm head, _, tail⟩
      · obtain ⟨head, tail⟩ := not_or.mp (List.mem_cons.not.mp none_broken)
        exact ⟨Ne.symm head, _, tail⟩
    obtain ⟨head, released, tail⟩ := both
    rw [List.forall_mem_cons]
    exact ⟨head, ih tail⟩

/-- The chain of an accept: the one earlier authorization of its capability, in the epoch of the
release, that a decision of the user's caused. -/
structure Chained (log : List Event) (e : Event) (id : String) (m : Event) (cap : Capability) :
    Prop where
  authorized : (authorizations log).get? id = some (some (m, cap))
  earlier : m.seq ≤ e.seq
  epoch : e.epoch = cap.epoch
  intent : cap.intent = .acceptOffer
  decided : ∃ d ∈ causesOf log m, viaApproval log cap d = true ∨ viaMandate log cap d = true

theorem chained_of_chain {capId : Option (Option String)}
    (whole : chain log (authorizations log) e capId ≠ none) :
    ∃ id m cap, capId = some id ∧ Chained log e (id.getD "None") m cap := by
  unfold chain at whole
  split at whole
  · rename_i m cap found
    obtain ⟨id, rfl, authorized⟩ := Option.bind_eq_some_iff.mp found
    split at whole
    · exact absurd rfl whole
    rename_i earlier
    split at whole
    · exact absurd rfl whole
    rename_i bound
    simp only [Bool.or_eq_true, decide_eq_true_eq, not_or, not_not] at bound
    refine ⟨id, m, cap, rfl, authorized, by omega, bound.1, bound.2, ?_⟩
    split at whole
    · obtain ⟨d, mem, via⟩ := List.any_eq_true.mp ‹_›
      exact ⟨d, mem, Or.inl via⟩
    · split at whole
      · obtain ⟨d, mem, via⟩ := List.any_eq_true.mp ‹_›
        exact ⟨d, mem, Or.inr via⟩
      · exact absurd rfl whole
  · exact absurd rfl whole

/-- Where the verdict is held, each accept that a release of the log gives out has its chain. -/
theorem chained_of_held {v : Verdict} (judged : approvalB log = some v) (held : v.held = true)
    (mem : e ∈ log) (release : isRelease e = true) :
    ∀ x ∈ acceptsOf log e, ∃ id m cap, x.2 = some id ∧ Chained log x.1 (id.getD "None") m cap := by
  intro x accepts
  unfold approvalB at judged
  dsimp only at judged
  split at judged
  · cases judged
  · cases judged
    have none_broken := by simpa using held
    exact chained_of_chain (chain_of_judge none_broken x
      (List.mem_flatMap.mpr ⟨e, List.mem_filter.mpr ⟨mem, release⟩, accepts⟩))

end audit

/-- The auditor agrees with the writer: over every log that the kernel can write it has nothing to
judge, or every released accept holds. -/
theorem approval_held (host : Host) (session : Session) (runId : String) (k : Kernel)
    (reach : Reach (Kernel.step host) (Kernel.cites host) (Kernel.start session runId) k)
    (distinct : Distinct host k.log) :
    approvalB k.log = none ∨ ∃ v, approvalB k.log = some v ∧ v.held = true := by
  have folds := fold_reach reach
  have stamped := stamped_reach reach
  have linked := (Kernel.Links.reach reach).linked
  have traced := traced_reach reach
  have digested := (Kernel.Digested.reach reach).1
  let entries := k.log.filterMap fun e => (releasedCap e).map fun id => (e, id)
  have accepts : (k.log.filter isRelease).flatMap (acceptsOf k.log) =
      entries.map fun x => (x.1, some (some x.2)) := by
    rw [flatMap_acceptsOf fun e he release => by
      obtain ⟨before, after, split⟩ := List.append_of_mem he
      exact acceptsOf_release stamped linked split release]
    simp only [entries, List.map_filterMap, Option.map_map]
    rfl
  have once : (entries.map Prod.snd).Nodup := by
    have : entries.map Prod.snd = k.log.filterMap releasedCap := by
      simp [entries, List.map_filterMap, Option.map_map, Function.comp_def]
    rw [this]
    exact releasedCaps_nodup folds
  have whole : none ∉ judge k.log (authorizations k.log) []
      (entries.map fun x => (x.1, some (some x.2))) := by
    refine judge_whole (by simp) once fun x hx => ?_
    obtain ⟨e, he, own⟩ := List.mem_filterMap.mp hx
    obtain ⟨id, released, rfl⟩ := Option.map_eq_some_iff.mp own
    obtain ⟨before, after, split⟩ := List.append_of_mem he
    obtain ⟨lane, hp⟩ := releases_of_releasedCap released
    exact chain_of_release folds stamped linked traced digested distinct split hp
  rw [approvalB, accepts]
  dsimp only
  split
  · exact Or.inl rfl
  · exact Or.inr ⟨_, rfl, by simpa using whole⟩

/-! ## An audited run

The case of `sampleCall`, each event with the causes that the source gives it: the offer is accepted
under the mandate, and the line is released. -/

/-- The check of `Kernel.cites`, for a run that accepts offer A. -/
def citesOk (host : Host) (k : Kernel) : Kernel.Act → Bool
  | .next _ causes =>
    match k.todo with
    | .emit _ (.actionAuthorized a) :: _ =>
      match last k.log Payload.isTool, k.board.pub.offers.get? "A",
          acceptOffer host.py k.board "A" host.case_ with
      | some tool, some o, .ok (cap, _) => cap = a.capability && causes =
          tool :: (grantEvent host.py k.board host.case_ o a.capability (k.log.take tool)).toList
      | _, _, _ => false
    | .emit _ (.approvalDecided _) :: _ | .emit _ (.mandateDecided _) :: _ =>
      (last k.log Payload.isPost).any fun post => causes = [post]
    | .bump :: _ => (last k.log Payload.isDecree).any fun decree => causes = [decree]
    | _ => true
  | .world _ _ _ (.speakReleased ..) => false
  | _ => true

theorem cites_of_ok {host : Host} {k : Kernel} {a : Kernel.Act} (h : citesOk host k a = true) :
    k.cites host a := by
  have found {o : Option Nat} {causes : List Nat} (h : (o.any fun n => causes = [n]) = true) :
      ∃ n, o = some n ∧ causes = [n] := by
    obtain ⟨n, hn, same⟩ := (Option.any_eq_true ..).mp h
    exact ⟨n, hn, of_decide_eq_true same⟩
  cases a with
  | next t causes =>
    unfold citesOk at h
    unfold Kernel.cites
    rcases todo : k.todo with - | ⟨task, tail⟩
    · trivial
    · simp only [todo] at h ⊢
      cases task with
      | emit actor p =>
        cases p with
        | actionAuthorized a =>
          dsimp only at h ⊢
          split at h
          · rename_i tool o cap text latest offer ok
            simp only [Bool.and_eq_true, decide_eq_true_eq] at h
            obtain ⟨rfl, cites⟩ := h
            exact ⟨tool, k.board, "A", o, latest, ⟨.refl _, ⟨text, ok⟩, offer⟩, cites⟩
          · cases h
        | approvalDecided | mandateDecided => exact found h
        | _ => trivial
      | bump => exact found h
      | _ => trivial
  | world t actor causes p =>
    cases p with
    | speakReleased => cases h
    | _ => trivial
  | _ => trivial

/-- The digests of the texts that the run hashes. -/
def sampleDigest (text : String) : String :=
  match sampleDigests.find? (·.1 = text) with
  | some (_, digest) => digest
  | none => "0"

theorem sampleDigest_hex (text : String) : '-' ∉ (sampleDigest text).toList := by
  have listed : ∀ p ∈ sampleDigests, '-' ∉ p.2.toList := by
    intro p hp
    simp only [sampleDigests, List.mem_cons, List.not_mem_nil, or_false] at hp
    rcases hp with rfl | rfl | rfl <;> decide
  unfold sampleDigest
  split
  · rename_i found
    exact listed _ (List.mem_of_find?_eq_some found)
  · decide

def auditedHost : Host where
  py := { (hostOf sampleDigests).py with sha256 := sampleDigest }
  case_ := (hostOf sampleDigests).case_
  speechMs := (hostOf sampleDigests).speechMs

def auditedActs : List Kernel.Act :=
  blockOf (.world 0 .kernel [] (.sessionStarted ⟨"0", "dev", "1"⟩)) [] 1 ++
  blockOf (.tool 0 [0] (.recordOffer "A" (sampleSlots "6000" (Eq.refl true)) none)) [1] 2 ++
  blockOf (.readback 0 [2] "A" allConfirmed) [] 1 ++
  blockOf (.tool 0 [0] (.proposeMandate sampleLimits)) [4] 2 ++
  [.post 0 [] ⟨.mandate, "mandate-1", .granted, sampleMandateHash, 0⟩ .ui, .deliver, .next 0 [6],
    .deliver, .next 0 [7], .deliver, .next 0 [7], .deliver] ++
  blockOf (.openCall 0 [0]) [10] 2 ++
  [.tool 0 [0] (.acceptOffer "A"), .deliver, .next 0 [12, 7], .deliver, .next 0 [13], .deliver,
    .next 0 [13], .deliver] ++
  blockOf (.floor 0 0) [] 1

def auditedRun : Kernel :=
  (Lib.run (Lib.guarded (citesOk auditedHost) (Kernel.step auditedHost))
    (Kernel.start sampleSession "run") auditedActs).getD (Kernel.start sampleSession "run")

theorem auditedRun_reach :
    Reach (Kernel.step auditedHost) (Kernel.cites auditedHost) (Kernel.start sampleSession "run")
      auditedRun := by
  unfold auditedRun
  cases h : Lib.run (Lib.guarded (citesOk auditedHost) (Kernel.step auditedHost))
      (Kernel.start sampleSession "run") auditedActs with
  | none => exact .start
  | some k => exact Reach.guarded (fun _ _ => cites_of_ok) .start h

theorem auditedRun_facts : grantKeys auditedRun.log = [sampleMandateHash] ∧
    approvalB auditedRun.log = some ⟨true, 1, 0, 1⟩ := by decide +kernel

theorem auditedRun_distinct : Distinct auditedHost auditedRun.log where
  hex := sampleDigest_hex
  apart g hg g' hg' _ _ _ _ := by
    rw [auditedRun_facts.1] at hg hg'
    rw [List.mem_singleton.mp hg, List.mem_singleton.mp hg']

theorem approval_held_sample : ∃ v, approvalB auditedRun.log = some v ∧ v.held = true := by
  refine (approval_held auditedHost sampleSession "run" auditedRun auditedRun_reach
    auditedRun_distinct).resolve_left fun nothing => ?_
  rw [auditedRun_facts.2] at nothing
  cases nothing

end ProxyLoop.Eval
