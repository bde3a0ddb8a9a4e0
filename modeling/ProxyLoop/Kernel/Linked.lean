import ProxyLoop.Kernel.CardIds
import ProxyLoop.Kernel.Lines
import ProxyLoop.Kernel.Written
import ProxyLoop.Slow.GrantEvent

/-!
# The causes of authority

The steps of the kernel leave the causes of a later event of a block to the scheduler; `Kernel.cites`
says which ones the source gives to the events that authority rests on.  `Linked` is what a run that
cites them writes: each release cites its line, each decision its post, a mandate's bump its
decision, and each mint the event that `_grant_event` finds.
-/

namespace ProxyLoop

open Lib (Dict Reach Each each_snoc)

def Payload.isTool : Payload → Bool
  | .slowTool .. => true
  | _ => false

def Payload.isPost : Payload → Bool
  | .approvalPost _ => true
  | _ => false

def Payload.isDecree : Payload → Bool
  | .mandateDecided _ => true
  | _ => false

/-- The board as `accept_offer` found it when it minted the capability, and the offer. -/
structure MintedFrom (host : Host) (bb was : Blackboard) (ref : String) (o : OfferPublic)
    (cap : Capability) : Prop where
  same : SameAuthority was bb
  ok : ∃ text, acceptOffer host.py was ref host.case_ = .ok (cap, text)
  found : was.pub.offers.get? ref = some o

/-- The scheduler gives an event the causes that the source gives it. -/
def Kernel.cites (host : Host) (k : Kernel) : Kernel.Act → Prop
  | .next _ causes =>
    match k.todo with
    | .emit _ (.actionAuthorized a) :: _ =>
      ∃ tool was ref o, last k.log Payload.isTool = some tool ∧
        MintedFrom host k.board was ref o a.capability ∧
        causes = tool ::
          (grantEvent host.py was host.case_ o a.capability (k.log.take tool)).toList
    | .emit _ (.approvalDecided _) :: _ | .emit _ (.mandateDecided _) :: _ =>
      ∃ post, last k.log Payload.isPost = some post ∧ causes = [post]
    | .bump :: _ => ∃ decree, last k.log Payload.isDecree = some decree ∧ causes = [decree]
    | _ => True
  | .world _ _ causes (.speakReleased _ none) =>
    ∃ v ∈ k.log, causes = [v.seq] ∧
      ∃ lane text ref, v.payload = .speakVerbatim lane .other text none ref
  | _ => True

/-- What an event of authority cites. -/
structure Linked (host : Host) (before : List Event) (e : Event) : Prop where
  released : ∀ lane capId, e.payload = .speakReleased lane capId →
    ∃ v ∈ before, e.causes = [v.seq] ∧
      ∃ lane' kind text ref, v.payload = .speakVerbatim lane' kind text capId ref ∧
        (kind = .accept ↔ capId ≠ none)
  decided : ∀ d, e.payload = .approvalDecided d →
    ∃ p ∈ before, e.causes = [p.seq] ∧
      ∃ post card, p.payload = .approvalPost post ∧
        (boardOf before).priv.pendingApproval = some card ∧ post.subjectHash = card.termsHash ∧
        post.authorityEpoch = card.authorityEpoch
  bumped : ∀ bump, e.payload = .authorityEpoch bump → bump.reason = .mandateDecided →
    ∃ pre d post x, before = pre ++ d :: post ∧ d.payload = .mandateDecided x ∧
      (∀ y ∈ post, y.payload.isDecree = false) ∧ e.causes = [d.seq] ∧ bump.new = d.epoch + 1
  minted : ∀ a, e.payload = .actionAuthorized a →
    ∃ was ref o pre tool quiet, MintedFrom host (boardOf before) was ref o a.capability ∧
      before = pre ++ tool :: quiet ∧ tool.payload.isTool = true ∧
      (∀ x ∈ quiet, x.payload.isHold = true) ∧
      e.causes = tool.seq :: (grantEvent host.py was host.case_ o a.capability pre).toList

section linked

variable {host : Host} {k k' : Kernel} {e : Event} {p : Payload} {log : List Event}

/-- An event that authority does not rest on. -/
theorem linked_of_other {before : List Event}
    (released : ∀ lane capId, e.payload ≠ .speakReleased lane capId)
    (decided : ∀ d, e.payload ≠ .approvalDecided d)
    (bumped : ∀ bump, e.payload = .authorityEpoch bump → bump.reason ≠ .mandateDecided)
    (minted : ∀ a, e.payload ≠ .actionAuthorized a) : Linked host before e :=
  ⟨fun lane capId h => absurd h (released lane capId), fun d h => absurd h (decided d),
    fun bump h own => absurd own (bumped bump h), fun a h => absurd h (minted a)⟩

/-! ## The blocks -/

/-- Neither a mint nor the decision of a card. -/
def Task.unlinked : Task → Bool
  | .emit _ (.actionAuthorized _) | .emit _ (.approvalDecided _) | .emit _ (.speakReleased ..) => false
  | _ => true

/-- What a block writes after its first event, if authority rests on it: the log ends in that first
event, but for holds, and nobody reacts to it. -/
inductive Kernel.Serving (k : Kernel) : Prop
  | apart (block : ∀ t ∈ k.todo, t.unlinked = true)
  | minting (pre : List Event) (tool : Event) (quiet : List Event) (actor : Actor)
      (a : ActionAuthorized) (rest : List Task) (log : k.log = pre ++ tool :: quiet)
      (first : tool.payload.isTool = true) (holds : ∀ x ∈ quiet, x.payload.isHold = true)
      (next : k.todo = .emit actor (.actionAuthorized a) :: rest)
      (block : ∀ t ∈ rest, t.unlinked = true) (idle : k.desk.handler = [])
      (inert : ∀ x ∈ k.desk.undelivered, x.payload.Inert)
  | deciding (pre : List Event) (post : Event) (quiet : List Event) (actor : Actor)
      (d : ApprovalDecided) (rest : List Task) (log : k.log = pre ++ post :: quiet)
      (holds : ∀ x ∈ quiet, x.payload.isHold = true)
      (next : k.todo = .emit actor (.approvalDecided d) :: rest)
      (block : ∀ t ∈ rest, t.unlinked = true) (idle : k.desk.handler = [])
      (inert : ∀ x ∈ k.desk.undelivered, x.payload.Inert)
      (card : ∃ body card, post.payload = .approvalPost body ∧
        k.board.priv.pendingApproval = some card ∧ body.subjectHash = card.termsHash ∧
        body.authorityEpoch = card.authorityEpoch)

/-- The verbatim line that a waiting line came from. -/
def Lined (log : List Event) (q : Waiting) : Prop :=
  ∃ v ∈ log, v.seq = q.seq ∧ ∃ lane ref, v.payload = .speakVerbatim lane q.kind q.text q.cap ref

structure Kernel.Links (host : Host) (k : Kernel) : Prop where
  linked : Each (Linked host) k.log
  serving : k.Serving
  lines : ∀ q ∈ k.lines, Lined k.log q

theorem lines_of_emits {k₀ : Kernel} {causes : List Nat} {todo : List Task}
    (lined : ∀ q ∈ k₀.lines, Lined k₀.log q) (em : k₀.Emits causes p todo e k') :
    ∀ q ∈ k'.lines, Lined k'.log q := by
  have log : k'.log = k₀.log ++ [e] := em.appended.log
  intro q hq
  rw [em.lines] at hq
  rw [log]
  rcases List.mem_append.mp hq with hq | hq
  · obtain ⟨v, hv, rest⟩ := lined q hq
    exact ⟨v, List.mem_append_left _ hv, rest⟩
  · refine ⟨e, by simp, ?_⟩
    unfold Kernel.spawned at hq
    split at hq
    · rename_i lane kind text cap ref _
      split at hq
      · cases hq
      · cases List.mem_singleton.mp hq
        exact ⟨em.appended.seq, lane, ref, em.payload⟩
    · cases hq

/-- What a tool emits: a mint first, or nothing that is linked. -/
theorem unlinked_runTool (host : Host) (bb : Blackboard) (events : List Event) (mid : String)
    (call : ToolCall) :
    (∀ t ∈ (runTool host bb events mid call).effects.map (Task.emit .guard), t.unlinked = true) ∨
      ∃ a rest, (runTool host bb events mid call).effects.map (Task.emit .guard) =
        .emit .guard (.actionAuthorized a) :: rest ∧ ∀ t ∈ rest, t.unlinked = true := by
  cases he : (runTool host bb events mid call).effects with
  | nil => exact Or.inl (by simp)
  | cons p rest =>
    cases effect_of_runTool he with
    | accept ref cap text ok => exact Or.inr ⟨_, _, rfl, by simp [Task.unlinked]⟩
    | card ref card rest ok tail =>
      refine Or.inl fun t ht => ?_
      obtain ⟨q, hq, rfl⟩ := List.mem_map.mp ht
      rcases List.mem_cons.mp hq with rfl | hq
      · rfl
      · rcases tail q hq with rfl | ⟨m, rfl⟩ <;> rfl
    | evidence conf binding hash rest bound tail =>
      refine Or.inl fun t ht => ?_
      obtain ⟨q, hq, rfl⟩ := List.mem_map.mp ht
      rcases List.mem_cons.mp hq with rfl | hq
      · rfl
      · rw [tail q hq]
        rfl
    | _ => exact Or.inl (by simp [Task.unlinked])

theorem Kernel.Serving.moved {k : Kernel} {rest : List Task} (todo : k.todo = rest)
    (block : ∀ t ∈ rest, t.unlinked = true) : k.Serving := .apart (todo ▸ block)

/-- A `chan.hold` between two events. -/
theorem Kernel.Links.held {causes : List Nat} (links : k.Links host) (hold : p.isHold = true)
    (em : k.Emits causes p k.todo e k') : k'.Links host := by
  have log : k'.log = k.log ++ [e] := em.appended.log
  have own : e.payload.isHold = true := em.payload ▸ hold
  have other : Linked host k.log e := by
    refine linked_of_other ?_ ?_ ?_ ?_ <;> intros <;> intro h <;> simp_all [Payload.isHold]
  refine ⟨log ▸ each_snoc.mpr ⟨links.linked, other⟩, ?_, lines_of_emits links.lines em⟩
  have inert (was : ∀ x ∈ k.desk.undelivered, x.payload.Inert) :
      ∀ x ∈ k'.desk.undelivered, x.payload.Inert := by
    rw [em.undelivered]
    exact inert_snoc was (em.payload ▸ inert_hold hold)
  have holds {quiet : List Event} (was : ∀ x ∈ quiet, x.payload.isHold = true) :
      ∀ x ∈ quiet ++ [e], x.payload.isHold = true := by
    intro x hx
    rcases List.mem_append.mp hx with hx | hx
    · exact was x hx
    · rw [List.mem_singleton.mp hx]
      exact own
  cases links.serving with
  | apart block => exact .apart (em.todo_eq ▸ block)
  | minting pre tool quiet actor a rest was first calm next block idle undelivered =>
    exact .minting pre tool (quiet ++ [e]) actor a rest (by rw [log, was]; simp) first (holds calm)
      (em.todo_eq.trans next) block em.handler (inert undelivered)
  | deciding pre post quiet actor d rest was calm next block idle undelivered card =>
    refine .deciding pre post (quiet ++ [e]) actor d rest (by rw [log, was]; simp) (holds calm)
      (em.todo_eq.trans next) block em.handler (inert undelivered) ?_
    have same := sameAuthority_of_apply em.appended.applied (by
      cases hp : e.payload <;> rw [hp] at own <;> first | rfl | cases own)
    obtain ⟨body, card, hb, pending, rest⟩ := card
    exact ⟨body, card, hb, same.pendingApproval.trans pending, rest⟩

theorem Kernel.Links.internal (links : k.Links host) {a : DeskAct} {d : Desk}
    (own : ∀ t actor causes p, a ≠ .env t actor causes p)
    (plain : ∀ r ∈ k.desk.handler, r.plain = true) (h : k.desk.step a = some d) :
    Kernel.Links host { k with desk := d } := by
  obtain ⟨linked, serving, lines⟩ := links
  have still (idle : k.desk.handler = []) (inert : ∀ x ∈ k.desk.undelivered, x.payload.Inert) :=
    inert_internal idle inert own h
  cases serving with
  | apart block =>
    cases Kernel.internal_of_own own plain h with
    | quietly bus =>
      have log : Kernel.log { k with desk := d } = k.log := congrArg Bus.events bus
      exact ⟨log ▸ linked, .apart block, log ▸ lines⟩
    | reacted e appended what =>
      have log : Kernel.log { k with desk := d } = k.log ++ [e] := appended.log
      have other : Linked host k.log e := by
        rcases Payload.reacted_cases what with ⟨_, _, _, hp⟩ | ⟨bump, hp⟩ | ⟨_, hp⟩
        · exact linked_of_other (by simp [hp]) (by simp [hp]) (by simp [hp]) (by simp [hp])
        · rw [hp] at what
          have : bump.reason = .f2sRevoke := what
          exact linked_of_other (by simp [hp]) (by simp [hp]) (by simp [hp, this]) (by simp [hp])
        · exact linked_of_other (by simp [hp]) (by simp [hp]) (by simp [hp]) (by simp [hp])
      refine ⟨log ▸ each_snoc.mpr ⟨linked, other⟩, .apart block, fun q hq => ?_⟩
      obtain ⟨v, hv, rest⟩ := lines q hq
      exact ⟨v, log ▸ List.mem_append_left _ hv, rest⟩
  | minting pre tool quiet actor a' rest was first holds next block idle inert =>
    obtain ⟨bus, handler, undelivered⟩ := still idle inert
    have log : Kernel.log { k with desk := d } = k.log := congrArg Bus.events bus
    exact ⟨log ▸ linked, .minting pre tool quiet actor a' rest (log.trans was) first holds next block
      handler undelivered, log ▸ lines⟩
  | deciding pre post quiet actor d' rest was holds next block idle inert card =>
    obtain ⟨bus, handler, undelivered⟩ := still idle inert
    have log : Kernel.log { k with desk := d } = k.log := congrArg Bus.events bus
    have board : Kernel.board { k with desk := d } = k.board := congrArg Bus.bb bus
    exact ⟨log ▸ linked, .deciding pre post quiet actor d' rest (log.trans was) holds next block
      handler undelivered (board ▸ card), log ▸ lines⟩

def ReleaseCites (log : List Event) (p : Payload) (causes : List Nat) : Prop :=
  ∀ lane capId, p = .speakReleased lane capId → ∃ v ∈ log, causes = [v.seq] ∧
    ∃ lane' kind text ref, v.payload = .speakVerbatim lane' kind text capId ref ∧
      (kind = .accept ↔ capId ≠ none)

theorem Kernel.Links.started {k₀ : Kernel} {causes : List Nat} {todo : List Task}
    (links : k.Links host) (empty : k.todo = []) (begins : k.Begins host k₀ p todo)
    (em : k₀.Emits causes p todo e k')
    (releases : ReleaseCites k.log p causes) : k'.Links host := by
  have log : k'.log = k.log ++ [e] := by
    have : k'.log = k₀.log ++ [e] := em.appended.log
    rw [this, begins.log]
  have payload := em.payload
  have lined : ∀ q ∈ k₀.lines, Lined k₀.log q := by
    rw [begins.log]
    intro q hq
    refine links.lines q ?_
    cases begins with
    | revoked i => exact List.mem_of_mem_eraseIdx hq
    | released i => exact List.mem_of_mem_eraseIdx hq
    | _ => exact hq
  have undelivered (idle : k.idle = true) : k'.desk.undelivered = [e] := by
    rw [em.undelivered, begins.desk, (Desk.quiet_iff.mp (idle_iff.mp idle).2).2]
    rfl
  have starts (linked : Linked host k.log e) (serving : k'.Serving) : k'.Links host :=
    ⟨log ▸ each_snoc.mpr ⟨links.linked, linked⟩, serving, lines_of_emits lined em⟩
  have apart (linked : Linked host k.log e) (block : ∀ t ∈ todo, t.unlinked = true) :
      k'.Links host := starts linked (.apart (em.todo_eq ▸ block))
  have none_ (block : ∀ t ∈ todo, t.unlinked = true)
      (other : ∀ lane capId, p ≠ .speakReleased lane capId) (undecided : ∀ d, p ≠ .approvalDecided d)
      (unbumped : ∀ bump, p ≠ .authorityEpoch bump) (unminted : ∀ a, p ≠ .actionAuthorized a) :
      k'.Links host :=
    apart (linked_of_other (payload ▸ other) (payload ▸ undecided)
      (fun bump hb => absurd (payload.symm.trans hb) (unbumped bump)) (payload ▸ unminted)) block
  have released (block : ∀ t ∈ todo, t.unlinked = true) (lane : Lane) (capId : Option String)
      (hp : p = .speakReleased lane capId) : k'.Links host := by
    subst hp
    refine apart ⟨fun lane' capId' h => ?_, fun d h => (by rw [payload] at h; cases h),
      fun bump h => (by rw [payload] at h; cases h), fun a h => (by rw [payload] at h; cases h)⟩ block
    rw [payload] at h
    cases h
    obtain ⟨v, hv, cites, rest⟩ := releases lane capId rfl
    exact ⟨v, hv, em.cites.trans cites, rest⟩
  cases begins with
  | world p what =>
    have calm : ∀ t ∈ k.todo, t.unlinked = true := by rw [empty]; simp
    have free : p.isHold = true ∨ ∃ causes, k.free causes p = true := what.imp_right And.right
    have unbumped := awaits_of_world free
    cases hp : p with
    | speakReleased lane capId => exact released calm lane capId hp
    | authorityEpoch bump => rw [hp] at unbumped; cases unbumped
    | approvalDecided d =>
      rw [hp] at free
      rcases free with hold | ⟨_, free⟩
      · cases hold
      · cases free
    | actionAuthorized a =>
      rw [hp] at free
      rcases free with hold | ⟨_, free⟩
      · cases hold
      · cases free
    | _ => exact none_ calm (by simp [hp]) (by simp [hp]) (by simp [hp]) (by simp [hp])
  | tool call idle =>
    have linked : Linked host k.log e := linked_of_other (by simp [payload]) (by simp [payload])
      (by simp [payload]) (by simp [payload])
    rcases unlinked_runTool host k.bb k.log k.nextMandate call with block | ⟨a, rest, next, block⟩
    · exact apart linked block
    · refine starts linked (.minting k.log e [] .guard a rest log (by rw [payload]; rfl) (by simp)
        (em.todo_eq.trans next) block em.handler ?_)
      rw [undelivered idle]
      simpa [payload] using (inert_of_calm rfl : (Payload.slowTool _ _ _).Inert)
  | posted post by_ d idle allowed =>
    have linked : Linked host k.log e := linked_of_other (by simp [payload]) (by simp [payload])
      (by simp [payload]) (by simp [payload])
    cases decide_spec allowed with
    | mandate m subject =>
      refine apart linked ?_
      rw [Kernel.afterDecision, subject]
      dsimp only
      split <;> simp [Task.unlinked]
    | approval card subject pending fresh id current hash own =>
      refine starts linked (.deciding k.log e [] .kernel _ _ log (by simp) em.todo_eq ?_ em.handler ?_
        ⟨post, card, payload, ?_, hash, own⟩)
      · rw [Kernel.afterDecision, subject]
        simp [Task.unlinked]
      · rw [undelivered idle]
        simpa [payload] using (inert_of_calm rfl : (Payload.approvalPost post).Inert)
      · have applied : apply k.board e = .ok k'.board := em.appended.applied
        have same := sameAuthority_of_apply applied (by rw [payload]; rfl)
        exact same.pendingApproval.trans pending
  | released i q idle free line => exact released (by simp) .cp q.cap rfl
  | revoked i q reason =>
    refine none_ ?_ (by simp) (by simp) (by simp) (by simp)
    split <;> simp [Task.unlinked]
  | heard q seq said =>
    refine none_ ?_ (by simp) (by simp) (by simp) (by simp)
    unfold Kernel.afterDelivery
    dsimp only
    split <;> split <;> simp [Task.unlinked]
  | readback => exact none_ (by simp) (by simp) (by simp) (by simp) (by simp)
  | denied => exact none_ (by simp) (by simp) (by simp) (by simp) (by simp)
  | opened => exact none_ (by simp [Task.unlinked]) (by simp) (by simp) (by simp) (by simp)
  | task actor p rest quiet next => rw [empty] at next; cases next
  | bump rest quiet next => rw [empty] at next; cases next
  | move trigger status rest quiet next => rw [empty] at next; cases next

theorem last_eq {before after : List Event} {wanted : Payload → Bool} {n : Nat}
    (h : last (before ++ e :: after) wanted = some n) (own : wanted e.payload = true)
    (none_ : ∀ x ∈ after, wanted x.payload = false) : n = e.seq := by
  rw [last_append own none_] at h
  exact (Option.some.inj h).symm

theorem epoch_of_unbumped {after : List Event} {b bb : Blackboard} (h : fold after b = .ok bb)
    (none_ : ∀ x ∈ after, ∀ bump, x.payload ≠ .authorityEpoch bump) : bb.epoch = b.epoch := by
  refine fold_invariant_mem (I := fun c => c.epoch = b.epoch) h rfl fun {c x c'} hx same ha => ?_
  rcases epoch_of_apply ha with ⟨⟨bump, hp⟩, -⟩ | ⟨-, still⟩
  · exact absurd hp (none_ x hx bump)
  · exact still.trans same

/-- A decision that waits for its bump was of the epoch of the board. -/
theorem decree_epoch {bb : Blackboard} (folds : fold log = .ok bb) (stamped : Stamped log)
    (wait : awaiting log = true) : ∃ pre d post x, log = pre ++ d :: post ∧
      d.payload = .mandateDecided x ∧ (∀ y ∈ post, y.payload.isDecree = false) ∧
      d.epoch = bb.epoch := by
  obtain ⟨pre, d, post, x, split, hd, quiet⟩ := awaiting_split wait
  obtain ⟨-, -, -, -, b, hb, epoch, -⟩ := stamped pre d post split
  rw [split] at folds
  obtain ⟨b₁, b₂, hb₁, ha, rest⟩ := fold_at folds
  rw [hb] at hb₁
  cases hb₁
  refine ⟨pre, d, post, x, split, hd, fun y hy => ?_, ?_⟩
  · have := quiet y hy
    cases hp : y.payload <;> rw [hp] at this <;> first | rfl | cases this
  · have unbumped := epoch_of_unbumped rest fun y hy bump hp => by
      have := quiet y hy
      rw [hp] at this
      cases this
    rcases epoch_of_apply ha with ⟨⟨bump, hp⟩, -⟩ | ⟨-, still⟩
    · rw [hd] at hp
      cases hp
    · exact epoch.trans (unbumped.trans still).symm

theorem Kernel.Links.next {t : Nat} {causes : List Nat} (links : k.Links host)
    (decrees : k.Decrees) (inv : KernelInv host k) (stamped : Stamped k.log)
    (cites : k.cites host (.next t causes)) (h : k.runNext t causes = some k') : k'.Links host := by
  unfold Kernel.runNext at h
  unfold Kernel.cites at cites
  have folds : fold k.log = .ok k.board := inv.fence.sound.fold
  have goes {p : Payload} {rest : List Task} {e : Event} (em : k.Emits causes p rest e k')
      (linked : Linked host k.log e) (block : ∀ t ∈ rest, t.unlinked = true) : k'.Links host := by
    have log : k'.log = k.log ++ [e] := em.appended.log
    exact ⟨log ▸ each_snoc.mpr ⟨links.linked, linked⟩, .apart (em.todo_eq ▸ block),
      lines_of_emits links.lines em⟩
  split at h
  · cases h
  · rename_i actor p rest next
    obtain ⟨e, em⟩ := Kernel.emits_of_emit h
    have payload := em.payload
    rw [next] at cites
    cases links.serving with
    | apart block =>
      rw [next] at block
      have own := block _ (List.mem_cons_self ..)
      refine goes em (linked_of_other ?_ ?_ ?_ ?_) fun t ht => block t (List.mem_cons_of_mem _ ht)
      · rintro lane capId hp
        rw [payload.symm.trans hp] at own
        cases own
      · rintro d hp
        rw [payload.symm.trans hp] at own
        cases own
      · rintro bump hp bad
        -- a block leaves a decision's bump to `.bump`
        cases decrees.block with
        | apart still calm =>
          have := calm (.emit actor p) (by rw [next]; simp)
          rw [payload.symm.trans hp] at this
          simp [Task.ordinary, Payload.ordinary, bad] at this
        | decides actor' d rest' still next' =>
          rw [next] at next'
          cases next'
          rw [payload] at hp
          cases hp
        | decided rest' wait next' => rw [next] at next'; cases next'
      · rintro a hp
        rw [payload.symm.trans hp] at own
        cases own
    | minting pre tool quiet actor' a rest' log first holds next' block idle inert =>
      rw [next] at next'
      cases next'
      obtain ⟨n, was, ref, o, latest, minted, cited⟩ := cites
      have none_ : ∀ x ∈ quiet, x.payload.isTool = false := fun x hx => by
        have := holds x hx
        cases hp : x.payload <;> rw [hp] at this <;> first | rfl | cases this
      rw [log] at latest
      have here := last_eq latest first none_
      have at_ : tool.seq = pre.length := inv.fence.sound.seq_eq log
      subst here
      refine goes em ⟨fun _ _ h => (by rw [payload] at h; cases h),
        fun _ h => (by rw [payload] at h; cases h), fun _ h => (by rw [payload] at h; cases h),
        fun a' h => ?_⟩ block
      rw [payload] at h
      cases h
      refine ⟨was, ref, o, pre, tool, quiet, ?_, log, first, holds, ?_⟩
      · rw [boardOf, folds]
        exact minted
      · rw [em.cites, cited, log, at_, List.take_left]
    | deciding pre post quiet actor' d rest' log holds next' block idle inert card =>
      rw [next] at next'
      cases next'
      obtain ⟨n, latest, cited⟩ := cites
      obtain ⟨body, card, hb, pending, hash, epoch⟩ := card
      have none_ : ∀ x ∈ quiet, x.payload.isPost = false := fun x hx => by
        have := holds x hx
        cases hp : x.payload <;> rw [hp] at this <;> first | rfl | cases this
      rw [log] at latest
      have here := last_eq latest (by rw [hb]; rfl) none_
      subst here
      refine goes em ⟨fun _ _ h => (by rw [payload] at h; cases h), fun d' h => ?_,
        fun _ h => (by rw [payload] at h; cases h), fun _ h => (by rw [payload] at h; cases h)⟩ block
      rw [payload] at h
      cases h
      refine ⟨post, by rw [log]; simp, em.cites.trans cited, body, card, hb, ?_, hash, epoch⟩
      rw [boardOf, folds]
      exact pending
  · rename_i rest next
    obtain ⟨e, em⟩ := Kernel.emits_of_emit h
    have payload := em.payload
    rw [next] at cites
    obtain ⟨n, latest, cited⟩ := cites
    cases decrees.block with
    | apart still calm =>
      have := calm .bump (by rw [next]; simp)
      cases this
    | decides actor' d rest' still next' => rw [next] at next'; cases next'
    | decided rest' wait next' calm =>
      obtain ⟨pre, d, post, x, split, hd, quiet, epoch⟩ := decree_epoch folds stamped wait
      rw [split] at latest
      have here := last_eq latest (by rw [hd]; rfl) quiet
      subst here
      have block : ∀ t ∈ rest, t.unlinked = true := by
        rw [next] at next'
        cases next'
        intro t ht
        cases links.serving with
        | apart block => exact block t (by rw [next]; exact List.mem_cons_of_mem _ ht)
        | minting _ _ _ _ _ _ _ _ _ next' => rw [next] at next'; cases next'
        | deciding _ _ _ _ _ _ _ _ next' => rw [next] at next'; cases next'
      refine goes em ⟨fun _ _ h => (by rw [payload] at h; cases h),
        fun _ h => (by rw [payload] at h; cases h), fun bump h own => ?_,
        fun _ h => (by rw [payload] at h; cases h)⟩ block
      rw [payload] at h
      cases h
      exact ⟨pre, d, post, x, split, hd, quiet, em.cites.trans cited, by rw [epoch]⟩
  · rename_i trigger rest next
    have block : ∀ t ∈ rest, t.unlinked = true := fun t ht => by
      cases links.serving with
      | apart block => exact block t (by rw [next]; exact List.mem_cons_of_mem _ ht)
      | minting _ _ _ _ _ _ _ _ _ next' => rw [next] at next'; cases next'
      | deciding _ _ _ _ _ _ _ _ next' => rw [next] at next'; cases next'
    split at h
    · cases h
      exact ⟨links.linked, .apart block, links.lines⟩
    · obtain ⟨e, em⟩ := Kernel.emits_of_emit h
      have payload := em.payload
      exact goes em (linked_of_other (by simp [payload]) (by simp [payload]) (by simp [payload])
        (by simp [payload])) block

theorem Kernel.Links.floor {t i : Nat} (links : k.Links host) (inv : KernelInv host k)
    (lineInv : LineInv k) (idle : k.idle = true) (h : k.takeFloor host t i = some k') :
    k'.Links host := by
  have empty := (idle_iff.mp idle).1
  unfold Kernel.takeFloor at h
  split at h
  case h_2 => cases h
  rename_i q free line
  dsimp only at h
  split at h
  · -- the line waits for Fast
    cases h
    refine ⟨links.linked, .apart (by rw [show k.todo = [] from empty]; simp), fun q' hq' => ?_⟩
    rcases List.mem_or_eq_of_mem_set hq' with hq' | rfl
    · exact links.lines q' hq'
    · exact links.lines q (List.mem_of_getElem? line)
  · rename_i reason _
    obtain ⟨e, em⟩ := Kernel.emits_of_emit h
    exact links.started empty (.revoked i q reason idle free line) em (fun _ _ h => by cases h)
  · obtain ⟨e, em⟩ := Kernel.emits_of_emit h
    have mem : q ∈ k.lines := List.mem_of_getElem? line
    refine links.started empty (.released i q idle free line) em fun lane capId h => ?_
    cases h
    obtain ⟨v, hv, seq, lane, ref, hp⟩ := links.lines q mem
    refine ⟨v, hv, by rw [seq], lane, q.kind, q.text, ref, hp, inv.lines q mem, fun cap => ?_⟩
    by_contra other
    exact cap (lineInv.bare q mem (by simpa [Waiting.isAccept] using other))

theorem Kernel.Links.world {t : Nat} {actor : Actor} {causes : List Nat} (links : k.Links host)
    (cites : k.cites host (.world t actor causes p))
    (what : p.isHold = true ∨ k.todo = [] ∧ k.free causes p = true)
    (h : k.emit t actor causes p k.todo = some k') : k'.Links host := by
  obtain ⟨e, em⟩ := Kernel.emits_of_emit h
  rcases what with hold | ⟨empty, free⟩
  · exact links.held hold em
  · refine links.started empty (.world p (Or.inr ⟨empty, causes, free⟩)) em fun lane capId hp => ?_
    subst hp
    have none_ : capId = none := by simpa [Kernel.free] using free
    subst none_
    obtain ⟨v, hv, cited, lane', text, ref, own⟩ := cites
    exact ⟨v, hv, cited, lane', .other, text, ref, own, by simp⟩

/-- Step lemma. -/
theorem Kernel.Links.step {a : Kernel.Act} (links : k.Links host) (decrees : k.Decrees)
    (inv : KernelInv host k) (lineInv : LineInv k) (stamped : Stamped k.log)
    (cites : k.cites host a) (h : k.step host a = some k') : k'.Links host := by
  have own {a : DeskAct} (own : ∀ t actor causes p, a ≠ .env t actor causes p)
      (h : k.internal a = some k') : k'.Links host := by
    obtain ⟨d, hd, rfl⟩ := Option.map_eq_some_iff.mp h
    exact links.internal own inv.fence.plain hd
  -- a step that starts a block with an event that releases nothing
  have starts {k₀ k' : Kernel} {t : Nat} {actor : Actor} {causes : List Nat} {p : Payload}
      {todo : List Task} (idle : k.idle = true) (begins : k.Begins host k₀ p todo)
      (other : ∀ lane capId, p ≠ .speakReleased lane capId)
      (h : k₀.emit t actor causes p todo = some k') : k'.Links host := by
    obtain ⟨e, em⟩ := Kernel.emits_of_emit h
    exact links.started (idle_iff.mp idle).1 begins em fun lane capId hp => absurd hp (other lane capId)
  cases a with
  | tick t => exact own (by simp) h
  | react t => exact own (by simp) h
  | deliver => exact own (by simp) h
  | closing =>
    simp only [Kernel.step] at h
    split at h
    · exact own (by simp) h
    · cases h
  | world t actor causes p =>
    simp only [Kernel.step] at h
    split at h
    · rename_i what
      simp only [Bool.or_eq_true, Bool.and_eq_true, List.isEmpty_iff] at what
      exact links.world cites what h
    · cases h
  | floor t i =>
    simp only [Kernel.step] at h
    split at h
    · exact links.floor inv lineInv ‹_› h
    · cases h
  | next t causes =>
    simp only [Kernel.step] at h
    split at h
    · exact links.next decrees inv stamped cites h
    · cases h
  | tool t causes call =>
    simp only [Kernel.step] at h
    split at h
    · exact starts ‹_› (.tool call ‹_›) (by simp) h
    · cases h
  | readback t causes ref statuses =>
    simp only [Kernel.step, Kernel.readback] at h
    split at h
    case isFalse => cases h
    rename_i idle
    split at h
    · cases h
    rename_i o found
    split at h
    · cases h
    split at h
    · cases h
    rename_i r update
    exact starts idle (.readback ref o statuses r idle found update) (by simp) h
  | post t causes post by_ =>
    simp only [Kernel.step, Kernel.decidePost] at h
    split at h
    case isFalse => cases h
    rename_i idle
    split at h
    · rename_i reason refused
      exact starts idle (.denied post by_ reason idle refused) (by simp) h
    · cases h
    · rename_i d allowed
      exact starts idle (.posted post by_ d idle allowed) (by simp) h
  | heard t said =>
    simp only [Kernel.step, Kernel.hearLine] at h
    split at h
    case isFalse => cases h
    rename_i idle
    split at h
    · cases h
    rename_i q seq onFloor
    split at h
    · exact starts idle (.heard q seq said idle onFloor) (by simp) h
    · cases h
  | openCall t causes =>
    simp only [Kernel.step] at h
    split at h
    · rename_i allowed
      have idle := (Bool.and_eq_true_iff.mp allowed).1
      exact starts idle (.opened idle) (by simp) h
    · cases h
  | hangUp =>
    simp only [Kernel.step] at h
    split at h
    · cases h
      exact ⟨links.linked, .apart (by simp [Task.unlinked]), links.lines⟩
    · cases h
  | expire seq =>
    simp only [Kernel.step, Kernel.expireCard] at h
    split at h
    case isFalse => cases h
    split at h
    · cases h
    split at h
    · cases h
    cases h
    refine ⟨links.linked, .apart ?_, links.lines⟩
    dsimp only
    split <;> simp [Task.unlinked]

/-- Run lemma. -/
theorem Kernel.Links.reach {session : Session} {runId : String}
    (h : Reach (Kernel.step host) (Kernel.cites host) (Kernel.start session runId) k) :
    k.Links host :=
  h.invariant (I := Kernel.Links host)
    ⟨Lib.each_nil _, .apart (by simp [Kernel.start]), by simp [Kernel.start]⟩
    fun hr links cites hs => links.step (Kernel.Decrees.reach hr) (KernelInv.reach hr)
      (LineInv.reach hr.any) (stamped_reach hr) cites hs

end linked

end ProxyLoop
