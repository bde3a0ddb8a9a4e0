import ProxyLoop.Kernel.Linked

/-!
# The decision behind a grant

A granted mandate and a decided card are each on record by one decision, the latest of the log that
names them: so the event that `_grant_event` finds is the decision that made the grant.
-/

namespace ProxyLoop

open Lib (Dict Reach Each each_snoc)

/-! ## Mandates -/

def OwnBump (d b : Event) : Prop :=
  ∃ bump, b.payload = .authorityEpoch bump ∧ bump.reason = .mandateDecided ∧
    bump.new = d.epoch + 1 ∧ b.causes = [d.seq]

/-- The latest decision of a mandate in the log granted `m`, in the epoch of `m`, its own bump
counted. -/
def MandateGrant (log : List Event) (m : Mandate) : Prop :=
  ∃ pre d post x, log = pre ++ d :: post ∧ d.payload = .mandateDecided x ∧ x.decision = .granted ∧
    x.mandateHash = m.mandateHash ∧ (∀ y ∈ post, y.payload.isDecree = false) ∧
    (m.epoch = d.epoch ∨ m.epoch = d.epoch + 1 ∧ ∃ b ∈ post, OwnBump d b)

/-- The latest decision of a card in the log is the one on record. -/
def CardDecision (log : List Event) (a : Approval) : Prop :=
  ∃ pre d post x card, log = pre ++ d :: post ∧ d.payload = .approvalDecided x ∧
    x.approvalId = a.approvalId ∧ x.decision = a.decision ∧
    (boardOf pre).priv.pendingApproval = some card ∧ card.approvalId = a.approvalId ∧
    card.termsHash = a.termsHash ∧ card.authorityEpoch = a.authorityEpoch ∧
    ∀ y ∈ post, y.payload.decidesCard a.approvalId = false

section granting

variable {host : Host} {log : List Event} {e : Event} {bb b : Blackboard} {m : Mandate}
  {a : Approval}

theorem calm_snoc {P : Event → Prop} {post : List Event} (was : ∀ y ∈ post, P y) (own : P e) :
    ∀ y ∈ post ++ [e], P y := by
  intro y hy
  rcases List.mem_append.mp hy with hy | hy
  · exact was y hy
  · rw [List.mem_singleton.mp hy]
    exact own

theorem MandateGrant.snoc (was : MandateGrant log m) (other : e.payload.isDecree = false) :
    MandateGrant (log ++ [e]) m := by
  obtain ⟨pre, d, post, x, rfl, hd, yes, hash, calm, epoch⟩ := was
  refine ⟨pre, d, post ++ [e], x, by simp, hd, yes, hash, calm_snoc calm other,
    epoch.imp_right (And.imp_right ?_)⟩
  rintro ⟨b, hb, own⟩
  exact ⟨b, List.mem_append_left _ hb, own⟩

/-- The latest decision of a log is one event. -/
theorem last_decree {pre post pre' post' : List Event} {d d' : Event} {x x' : MandateDecided}
    (same : pre ++ d :: post = pre' ++ d' :: post') (hd : d.payload = .mandateDecided x)
    (hd' : d'.payload = .mandateDecided x') (calm : ∀ y ∈ post, y.payload.isDecree = false)
    (calm' : ∀ y ∈ post', y.payload.isDecree = false) : d = d' := by
  have decree : d.payload.isDecree = true := by rw [hd]; rfl
  have decree' : d'.payload.isDecree = true := by rw [hd']; rfl
  rcases List.append_eq_append_iff.mp same with ⟨mid, -, rest⟩ | ⟨mid, -, rest⟩
  · cases mid with
    | nil => cases rest; rfl
    | cons y mid =>
      cases rest
      have := calm d' (by simp)
      rw [decree'] at this
      cases this
  · cases mid with
    | nil => cases rest; rfl
    | cons y mid =>
      cases rest
      have := calm' d (by simp)
      rw [decree] at this
      cases this

/-- Step lemma: a bump moves a granted mandate only from its decision's epoch to the next. -/
theorem MandateGrant.bump (was : MandateGrant log m) {bump : EpochBump}
    (linked : Linked host log e) (hp : e.payload = .authorityEpoch bump)
    (own : bump.reason = .mandateDecided) :
    MandateGrant (log ++ [e]) (m.withEpoch bump.new) := by
  obtain ⟨pre, d, post, x, rfl, hd, yes, hash, calm, -⟩ := was
  obtain ⟨pre', d', post', x', split, hd', calm', cites, new⟩ := linked.bumped bump hp own
  obtain rfl := last_decree split hd hd' calm calm'
  refine ⟨pre, d, post ++ [e], x, by simp, hd, yes, hash,
    calm_snoc calm (by rw [hp]; rfl), Or.inr ⟨new, e, by simp, bump, hp, own, new, cites⟩⟩

/-- A granted mandate was granted by the latest decision of the log. -/
theorem mandateGrant_of_fold (h : fold log = .ok bb) (stamped : Stamped log)
    (linked : Each (Linked host) log) (found : bb.priv.mandate = some m)
    (granted : m.status = .granted) : MandateGrant log m := by
  induction log using List.reverseRecOn generalizing bb m with
  | nil => cases h; cases found
  | append_singleton log e ih =>
    obtain ⟨b, hb, ha⟩ := fold_snoc.mp h
    obtain ⟨linked, cited⟩ := each_snoc.mp linked
    obtain ⟨stamped, -, -, -, -, b', hb', epoch, -⟩ := each_snoc.mp stamped
    rw [hb] at hb'
    cases hb'
    have kept (found : b.priv.mandate = some m) (other : e.payload.isDecree = false) :
        MandateGrant (log ++ [e]) m := (ih hb stamped linked found granted).snoc other
    obtain ⟨b₁, hc, rfl⟩ := change_of_apply ha
    cases hc with
    | quiet hp same =>
      refine kept (same.mandate.symm.trans found) ?_
      cases hq : e.payload <;> rw [hq] at hp <;> first | rfl | cases hp
    | epoch bump hp forward =>
      have other : e.payload.isDecree = false := by rw [hp]; rfl
      replace found : bumpedMandate b bump = some m := found
      obtain ⟨m₀, was, moved⟩ := Option.map_eq_some_iff.mp found
      split at moved
      · rename_i own
        subst moved
        exact (ih hb stamped linked was granted).bump cited hp own.1
      · exact kept (was.trans (congrArg some moved)) other
    | proposed p hp =>
      cases found
      rw [p.proposed.1] at granted
      cases granted
    | mandate d m₀ hp was id hash undecided current =>
      cases found
      have yes : d.decision = .granted := by
        cases hd : d.decision with
        | granted => rfl
        | denied =>
          rw [hd] at granted
          cases granted
      exact ⟨log, e, [], d, rfl, hp, yes, hash.symm, by simp, Or.inl (current.trans epoch.symm)⟩
    | _ => exact kept found (by simp_all [Payload.isDecree])

theorem CardDecision.snoc (was : CardDecision log a)
    (other : e.payload.decidesCard a.approvalId = false) : CardDecision (log ++ [e]) a := by
  obtain ⟨pre, d, post, x, card, rfl, hd, id, decision, pending, own, terms, epoch, calm⟩ := was
  exact ⟨pre, d, post ++ [e], x, card, by simp, hd, id, decision, pending, own, terms, epoch,
    calm_snoc calm other⟩

theorem cardDecision_of_fold (h : fold log = .ok bb) {id : String}
    (found : bb.priv.approvals.get? id = some a) : a.approvalId = id ∧ CardDecision log a := by
  induction log using List.reverseRecOn generalizing bb with
  | nil => cases h; cases found
  | append_singleton log e ih =>
    obtain ⟨b, hb, ha⟩ := fold_snoc.mp h
    have kept (found : b.priv.approvals.get? id = some a)
        (other : e.payload.decidesCard id = false) :
        a.approvalId = id ∧ CardDecision (log ++ [e]) a := by
      obtain ⟨own, was⟩ := ih hb found
      exact ⟨own, was.snoc (own ▸ other)⟩
    obtain ⟨b₁, hc, rfl⟩ := change_of_apply ha
    cases hc with
    | quiet hp same =>
      refine kept (same.approvals ▸ found) ?_
      cases hq : e.payload <;> rw [hq] at hp <;> first | rfl | cases hp
    | decided d card hp pending own =>
      replace found : (b.priv.approvals.set d.approvalId (approvalOf card d)).get? id = some a := found
      rw [Dict.get?_set] at found
      split at found
      · rename_i here
        subst here
        cases found
        refine ⟨rfl, log, e, [], d, card, rfl, hp, rfl, rfl, ?_, own, rfl, rfl, by simp⟩
        rw [boardOf, hb]
        exact pending
      · rename_i other
        refine kept found ?_
        rw [hp]
        simpa [Payload.decidesCard] using Ne.symm other
    | _ => exact kept found (by simp_all [Payload.decidesCard])

end granting

/-! ## Names

A mandate is named by a digest and a card by a text with a dash, so that a business action id tells
the grants of a run apart. -/

def Payload.digested (py : Runtime) : Payload → Prop
  | .mandateProposed p => ∃ text, p.mandate.mandateHash = py.sha256 text
  | _ => True

/-- What a block has yet to propose is named by digests. -/
def Kernel.Digested (host : Host) (k : Kernel) : Prop :=
  (∀ e ∈ k.log, e.payload.digested host.py) ∧
    ∀ actor p, Task.emit actor p ∈ k.todo → p.digested host.py

section names

variable {host : Host} {k k' k₀ : Kernel} {log : List Event} {e : Event} {bb : Blackboard}
  {p : Payload} {todo : List Task}

theorem digested_of_unproposed {py : Runtime} (h : p.proposedId = none) : p.digested py := by
  cases p <;> trivial

theorem digested_runTool {bb : Blackboard} {events : List Event} {mid : String} {call : ToolCall} :
    ∀ p ∈ (runTool host bb events mid call).effects, p.digested host.py := by
  cases proposes : call.proposes with
  | false => exact fun p hp => digested_of_unproposed (unproposed_runTool proposes p hp)
  | true =>
    cases call with
    | proposeMandate envelope =>
      simp only [runTool, proposeMandate]
      split
      · simp
      · simpa [Payload.digested, proposed] using ⟨_, rfl⟩
    | tightenMandate changes =>
      simp only [runTool, tightenMandate]
      split
      · simp
      · split
        · simp
        · split
          · simp [Payload.digested]
          · simpa [Payload.digested, proposed] using ⟨_, rfl⟩
    | _ => cases proposes

theorem digested_of_begins (begins : k.Begins host k₀ p todo)
    (was : ∀ actor p, Task.emit actor p ∈ k.todo → p.digested host.py) :
    p.digested host.py ∧ ∀ actor p, Task.emit actor p ∈ todo → p.digested host.py := by
  cases begins with
  | world p what =>
    refine ⟨digested_of_unproposed ?_, was⟩
    rcases what with hold | ⟨_, causes, free⟩
    · cases p <;> first | rfl | cases hold
    · cases p <;> first | rfl | simp [Kernel.free, Payload.isQuiet] at free
  | tool call idle =>
    refine ⟨trivial, fun actor p hp => ?_⟩
    obtain ⟨q, hq, same⟩ := List.mem_map.mp hp
    cases same
    exact digested_runTool _ hq
  | posted post by_ d idle allowed =>
    refine ⟨trivial, fun actor p hp => ?_⟩
    rcases List.mem_cons.mp hp with same | hp
    · cases same
      rcases decide_eq_ok allowed with ⟨m, _, _, _, rfl⟩ | ⟨card, _, _, rfl⟩ <;> trivial
    · unfold Kernel.afterDecision at hp
      cases hs : post.subject <;> cases hd : post.decision <;> simp [hs, hd] at hp
  | revoked i q reason =>
    refine ⟨trivial, fun actor p hp => ?_⟩
    split at hp <;> simp at hp
  | heard q seq said =>
    refine ⟨trivial, fun actor p hp => ?_⟩
    unfold Kernel.afterDelivery at hp
    cases q.kind <;> split at hp <;> simp at hp <;> rw [hp.2] <;> trivial
  | task actor p rest quiet next =>
    exact ⟨was actor p (by rw [next]; simp), fun actor p hp => was actor p (by rw [next]; simp [hp])⟩
  | bump rest quiet next => exact ⟨trivial, fun actor p hp => was actor p (by rw [next]; simp [hp])⟩
  | move trigger status rest quiet next =>
    exact ⟨trivial, fun actor p hp => was actor p (by rw [next]; simp [hp])⟩
  | _ => exact ⟨trivial, by simp⟩

/-- Step lemma. -/
theorem Kernel.Digested.step {a : Kernel.Act} (digested : k.Digested host)
    (plain : ∀ r ∈ k.desk.handler, r.plain = true) (h : k.step host a = some k') :
    k'.Digested host := by
  obtain ⟨log, todo⟩ := digested
  cases Kernel.taken_of_step h with
  | internally a d own stepped =>
    cases Kernel.internal_of_own own plain stepped with
    | quietly bus =>
      refine ⟨?_, todo⟩
      rwa [show Kernel.log { k with desk := d } = k.log from congrArg Bus.events bus]
    | reacted e appended what =>
      refine ⟨?_, todo⟩
      rw [show Kernel.log { k with desk := d } = k.log ++ [e] from appended.log]
      refine calm_snoc log ?_
      rcases Payload.reacted_cases what with ⟨_, _, _, hp⟩ | ⟨_, hp⟩ | ⟨_, hp⟩ <;> rw [hp] <;> trivial
  | @emitted k₀ _ causes p rest e begins em frame =>
    obtain ⟨first, block⟩ := digested_of_begins begins todo
    refine ⟨?_, by rw [em.todo_eq]; exact block⟩
    have : k'.log = k₀.log ++ [e] := em.appended.log
    rw [this, begins.log]
    exact calm_snoc log (em.payload ▸ first)
  | waits i q users line => exact ⟨log, todo⟩
  | hangsUp idle => exact ⟨log, by simp⟩
  | expires seq card idle =>
    refine ⟨log, fun actor p hp => ?_⟩
    dsimp only at hp
    split at hp <;> simp at hp
  | skips trigger rest quiet next =>
    exact ⟨log, fun actor p hp => todo actor p (by rw [next]; exact List.mem_cons_of_mem _ hp)⟩

/-- Run lemma: the mandates of a run are named by digests. -/
theorem Kernel.Digested.reach {ok : Kernel → Kernel.Act → Prop} {session : Session}
    {runId : String} (h : Reach (Kernel.step host) ok (Kernel.start session runId) k) :
    k.Digested host :=
  h.invariant ⟨fun e he => (by cases he), fun _ _ hp => (by cases hp)⟩ fun hr digested _ hs =>
    digested.step (KernelInv.reach hr).fence.plain hs

theorem mandate_proposed (h : fold log = .ok bb) {m : Mandate} (found : bb.priv.mandate = some m) :
    ∃ e ∈ log, ∃ p, e.payload = .mandateProposed p ∧ p.mandate.mandateHash = m.mandateHash := by
  let named (m : Mandate) : Prop :=
    ∃ e ∈ log, ∃ p, e.payload = .mandateProposed p ∧ p.mandate.mandateHash = m.mandateHash
  have all : ∀ m, bb.priv.mandate = some m → named m := by
    refine fold_invariant_mem (I := fun b => ∀ m, b.priv.mandate = some m → named m) h
      (fun m hm => by cases hm) ?_
    intro b e b' he was ha m found
    have move := mandateMove_of_apply ha
    rw [found] at move
    generalize ho : some m = o at move
    cases move with
    | kept => exact was m ho.symm
    | bumped found' same =>
      cases ho
      obtain ⟨e', he', p, hp, hash⟩ := was _ found'
      exact ⟨e', he', p, hp, hash.trans same.hash.symm⟩
    | proposed p hp =>
      cases ho
      exact ⟨e, he, p, hp, rfl⟩
    | decided d m₀ hp found' =>
      cases ho
      exact was m₀ found'
  exact all m found

end names

/-! ## The event behind a capability -/

/-- The names of the grants of a log: the hash of each proposed mandate, the id of each decided
card. -/
def grantKeys (log : List Event) : List String :=
  log.filterMap fun e =>
    match e.payload with
    | .mandateProposed p => some p.mandate.mandateHash
    | .approvalDecided d => some d.approvalId
    | _ => none

/-- A digest is written without a dash, and no two grants of the log give an action one digest. -/
structure Distinct (host : Host) (log : List Event) : Prop where
  hex : ∀ text, '-' ∉ (host.py.sha256 text).toList
  apart : ∀ g ∈ grantKeys log, ∀ g' ∈ grantKeys log, ∀ ref revision hash,
    businessActionId host.py host.case_.caseId .acceptOffer ref revision hash g =
      businessActionId host.py host.case_.caseId .acceptOffer ref revision hash g' → g = g'

/-- `d`, of the log before a mint, granted what the capability takes. -/
inductive GrantCited (log : List Event) (cap : Capability) (d : Event) : Prop
  | card (before after : List Event) (x : ApprovalDecided) (card : ApprovalCard)
      (split : log = before ++ d :: after) (decided : d.payload = .approvalDecided x)
      (granted : x.decision = .granted) (own : card.approvalId = x.approvalId)
      (pending : (boardOf before).priv.pendingApproval = some card)
      (terms : card.termsHash = cap.termsHash) (epoch : card.authorityEpoch = cap.epoch) :
      GrantCited log cap d
  | mandate (x : MandateDecided) (mem : d ∈ log) (decided : d.payload = .mandateDecided x)
      (granted : x.decision = .granted)
      (epoch : cap.epoch = d.epoch ∨ cap.epoch = d.epoch + 1 ∧ ∃ b ∈ log, OwnBump d b) :
      GrantCited log cap d

section cited

variable {host : Host} {py : Runtime} {log : List Event} {bb b : Blackboard} {ref text : String}
  {case_ : CaseRef} {o : OfferPublic} {cap : Capability}

/-- An accept that Guard authorises carries its grant in its business action id. -/
theorem acceptOffer_bid (h : acceptOffer py bb ref case_ = .ok (cap, text)) :
    ∃ o t g, AcceptOk py bb ref o t g cap ∧ cap.businessActionId =
      businessActionId py case_.caseId .acceptOffer ref o.revision cap.termsHash g.key := by
  have h' := h
  simp only [acceptOffer, bind, Except.bind] at h
  split at h
  · cases h
  split at h
  · cases h
  split at h
  · cases h
  rename_i inCall
  split at h
  · cases h
  rename_i ot hot
  split at h
  · cases h
  rename_i unreleased
  split at h
  · cases h
  rename_i g hg
  split at h
  · cases h
  split at h
  · cases h
  rename_i alone
  cases h
  obtain ⟨found, unfenced, acceptable⟩ := openOfferAt_eq_ok (o := ot.1) (t := ot.2).mp hot
  obtain ⟨undenied, grant⟩ := grantOf_eq_ok hg
  exact ⟨ot.1, ot.2, g, ⟨by simpa using inCall, found, unfenced, acceptable, undenied, grant,
    by simpa using alone, by simpa using unreleased, _, rfl⟩, rfl⟩

theorem mem_keys_of_get? {α : Type} {d : Dict String α} {id : String} {a : α}
    (h : d.get? id = some a) : id ∈ d.keys :=
  List.mem_map.mpr ⟨(id, a), Dict.get?_eq_some.mp h, rfl⟩

theorem dash_of_decided (ids : CardIds b) {id : String} {a : Approval}
    (found : b.priv.approvals.get? id = some a) : '-' ∈ id.toList := by
  obtain ⟨stem, n, rfl, -⟩ := ids.decided (mem_keys_of_get? found)
  simp

theorem card_mem_grantKeys {e : Event} {x : ApprovalDecided} (mem : e ∈ log)
    (hp : e.payload = .approvalDecided x) : x.approvalId ∈ grantKeys log :=
  List.mem_filterMap.mpr ⟨e, mem, by rw [hp]⟩

theorem mandate_mem_grantKeys {e : Event} {p : MandateProposal} (mem : e ∈ log)
    (hp : e.payload = .mandateProposed p) : p.mandate.mandateHash ∈ grantKeys log :=
  List.mem_filterMap.mpr ⟨e, mem, by rw [hp]⟩

/-- The event that `_grant_event` finds made the grant that Guard took. -/
theorem grantEvent_spec (h : fold log = .ok b) (stamped : Stamped log)
    (linked : Each (Linked host) log) (traced : Traced host log)
    (digested : ∀ e ∈ log, e.payload.digested host.py) (distinct : Distinct host log)
    {was : Blackboard} (mandate : was.priv.mandate = b.priv.mandate)
    (approvals : was.priv.approvals = b.priv.approvals)
    (found : was.pub.offers.get? ref = some o) (own : o.offerRef = ref)
    (ok : acceptOffer host.py was ref host.case_ = .ok (cap, text)) :
    ∃ d, grantEvent host.py was host.case_ o cap log = some d.seq ∧ GrantCited log cap d := by
  obtain ⟨o', t, g, accept, bid⟩ := acceptOffer_bid ok
  have same := accept.found
  rw [found] at same
  cases same
  rw [← own] at bid
  obtain ⟨id, hcap⟩ := accept.cap
  have epoch : cap.epoch = was.epoch := by rw [hcap]; rfl
  have terms : cap.termsHash = termsHash host.py t := by rw [hcap]; rfl
  cases accept.grant with
  | mandate m recorded granted current =>
    obtain ⟨pre, d, post, x, rfl, hd, yes, hash, calm, when_⟩ :=
      mandateGrant_of_fold h stamped linked (mandate.symm.trans recorded) granted
    refine ⟨d, ?_, .mandate x (by simp) hd yes ?_⟩
    · have here : was.priv.mandate.filter (fun m => businessActionId host.py host.case_.caseId
          .acceptOffer o.offerRef o.revision cap.termsHash m.mandateHash = cap.businessActionId) =
          some m := by
        rw [recorded, bid]
        simp [Grant.key]
      simp only [grantEvent, here]
      refine last_append (by rw [hd]; simpa [Payload.decidesMandate] using hash) fun y hy => ?_
      have := calm y hy
      cases hp : y.payload <;> rw [hp] at this <;> first | rfl | cases this
    · rw [epoch, ← current]
      refine when_.imp_right (And.imp_right ?_)
      rintro ⟨b, hb, own⟩
      exact ⟨b, by simp [hb], own⟩
  | approval a mem hash current granted =>
    obtain ⟨id', hid⟩ := Dict.mem_values.mp (approvals ▸ mem)
    obtain ⟨named, pre, d, post, x, card, split, hd, xid, decision, pending, cid, cterms, cepoch,
      calm⟩ := cardDecision_of_fold h hid
    have key : a.approvalId ∈ grantKeys log := xid ▸ card_mem_grantKeys (by rw [split]; simp) hd
    have unmandated : was.priv.mandate.filter (fun m => businessActionId host.py host.case_.caseId
        .acceptOffer o.offerRef o.revision cap.termsHash m.mandateHash = cap.businessActionId) =
        none := by
      refine Option.filter_eq_none_iff.mpr fun m hm same => ?_
      obtain ⟨e, he, p, hp, own⟩ := mandate_proposed h (mandate.symm.trans hm)
      have hkey : m.mandateHash ∈ grantKeys log := own ▸ mandate_mem_grantKeys he hp
      rw [bid] at same
      have one := distinct.apart _ hkey _ key _ _ _ (of_decide_eq_true same)
      -- a digest is no card's id
      obtain ⟨text, digest⟩ : ∃ text, p.mandate.mandateHash = host.py.sha256 text := by
        have := digested e he
        rwa [hp] at this
      have dash := dash_of_decided (cardIds_of_traced traced h) hid
      rw [← named, ← one, ← own, digest] at dash
      exact distinct.hex text dash
    have chosen : ∃ a', (was.priv.approvals.values.filter fun a => businessActionId host.py
        host.case_.caseId .acceptOffer o.offerRef o.revision cap.termsHash a.approvalId =
          cap.businessActionId).getLast? = some a' ∧ a'.approvalId = a.approvalId := by
      have some_ : a ∈ was.priv.approvals.values.filter fun a => businessActionId host.py
          host.case_.caseId .acceptOffer o.offerRef o.revision cap.termsHash a.approvalId =
          cap.businessActionId := List.mem_filter.mpr ⟨mem, by simp [bid, Grant.key]⟩
      obtain ⟨a', last⟩ := Option.isSome_iff_exists.mp
        (List.getLast?_isSome.mpr (List.ne_nil_of_mem some_))
      refine ⟨a', last, ?_⟩
      obtain ⟨mem', same⟩ := List.mem_filter.mp (List.mem_of_getLast? last)
      obtain ⟨id₂, hid₂⟩ := Dict.mem_values.mp (approvals ▸ mem')
      obtain ⟨-, pre₂, d₂, post₂, x₂, card₂, split₂, hd₂, xid₂, -⟩ := cardDecision_of_fold h hid₂
      have key₂ : a'.approvalId ∈ grantKeys log :=
        xid₂ ▸ card_mem_grantKeys (by rw [split₂]; simp) hd₂
      rw [bid] at same
      exact distinct.apart _ key₂ _ key _ _ _ (of_decide_eq_true same)
    obtain ⟨a', last, same⟩ := chosen
    refine ⟨d, ?_, .card pre post x card split hd (decision.trans granted) (cid.trans xid.symm)
      pending (cterms.trans ?_) (cepoch.trans (current.trans epoch.symm))⟩
    · simp only [grantEvent, unmandated, last, same]
      rw [split]
      exact last_append (by rw [hd]; simpa [Payload.decidesCard] using xid) calm
    · have bound : some a.termsHash = some (termsHash host.py t) :=
        hash.trans accept.acceptable.bound
      rw [Option.some.inj bound, terms]

end cited

end ProxyLoop
