import ProxyLoop.Kernel.Leaves
import ProxyLoop.Kernel.Permits

/-!
# No status wedges

A case that needs a replan has told the Authority so: the next completed step that saw it moves it.
With the pending card and the accept line this leaves no quiescent state without a way on: a step
that exists, whose block comes to an end, with the case moved.
-/

namespace ProxyLoop

open Lib (Dict Reach anyStep)

/-- The last status change is to NEEDS_REPLAN, and the Authority will hear of it, remembers it, or
is about to end it. -/
def Kernel.Replans (k : Kernel) : Prop :=
  ∃ e ∈ k.log, (∃ was, e.payload = .statusChanged ⟨was, .needsReplan⟩) ∧
    (∀ x ∈ k.log, e.seq < x.seq → x.payload.movesStatus = false) ∧
    (e ∈ k.desk.undelivered ∨ k.desk.auth.replan = some e.seq ∨
      ∃ cause, .move .replan cause ∈ k.desk.handler)

structure ReplanInv (k : Kernel) : Prop where
  /-- the remembered change was delivered -/
  covered : ∀ s, k.desk.auth.replan = some s → s + k.desk.undelivered.length < k.log.length
  waits : k.board.pub.status = .needsReplan → k.Replans

section replans

variable {host : Host} {k k' : Kernel} {e : Event} {causes : List Nat} {p : Payload}
  {todo : List Task}

/-- What a delivery does to the remembered change. -/
theorem replan_onEvent {d : Desk} : (d.auth.onEvent d.session d.closed d.bus.bb e).1.replan =
    (d.auth.ledger.next e).replan := congrArg Ledger.replan Authority.ledger_onEvent

theorem replan_next (l : Ledger) (e : Event) :
    (l.next e).replan = l.replan ∨
      (l.next e).replan = some e.seq ∧ e.payload.movesStatus = true ∨
      (l.next e).replan = none ∧
        ∃ basis, e.payload = .slowStepCompleted basis ∧ l.replan.any (· ≤ basis) = true := by
  unfold Ledger.next
  cases hp : e.payload with
  | statusChanged c =>
    obtain ⟨was, status⟩ := c
    cases status <;> first | exact Or.inr (Or.inl ⟨rfl, rfl⟩) | exact Or.inl rfl
  | slowStepCompleted basis =>
    dsimp only
    split
    · exact Or.inr (Or.inr ⟨rfl, basis, rfl, ‹_›⟩)
    · exact Or.inl rfl
  | _ => exact Or.inl rfl

theorem ReplanInv.handled (inv : ReplanInv k) (fence : FenceInv k.desk) {rest : List Event}
    (idle : k.desk.handler = []) (next : k.desk.undelivered = e :: rest) :
    ReplanInv (k.handled e rest) := by
  have here : e.seq + k.desk.undelivered.length = k.log.length := seq_of_undelivered fence next
  have length : k.desk.undelivered.length = rest.length + 1 := by rw [next, List.length_cons]
  have logged : e ∈ k.log := by
    obtain ⟨done, split, -⟩ := fence.books
    show e ∈ k.desk.bus.events
    rw [split, next]
    simp
  have moved : (k.handled e rest).desk.auth.replan = (k.desk.auth.ledger.next e).replan :=
    replan_onEvent
  refine ⟨fun s hs => ?_, fun needs => ?_⟩
  · show s + rest.length < k.log.length
    rw [moved] at hs
    rcases replan_next k.desk.auth.ledger e with same | ⟨new, -⟩ | ⟨gone, -⟩
    · have := inv.covered s (same.symm.trans hs)
      omega
    · rw [new] at hs
      cases hs
      omega
    · rw [gone] at hs
      cases hs
  · obtain ⟨x, mem, change, last, ends⟩ := inv.waits needs
    refine ⟨x, mem, change, last, ?_⟩
    rcases ends with waits | remembered | ⟨cause, hc⟩
    · rw [next] at waits
      rcases List.mem_cons.mp waits with rfl | waits
      · obtain ⟨was, hp⟩ := change
        refine Or.inr (Or.inl ?_)
        rw [moved]
        simp [Ledger.next, hp]
      · exact Or.inl waits
    · rcases replan_next k.desk.auth.ledger e with same | ⟨-, changes⟩ | ⟨-, basis, hp, covers⟩
      · exact Or.inr (Or.inl (moved.trans (same.trans remembered)))
      · -- a change delivered after the remembered one is a later one
        have before := inv.covered _ remembered
        rw [last e logged (by omega)] at changes
        cases changes
      · obtain ⟨cleared, handler, -⟩ := move_of_completed hp covers
        refine Or.inr (Or.inr ⟨e.seq, ?_⟩)
        show _ ∈ (k.desk.auth.onEvent k.desk.session k.desk.closed k.desk.bus.bb e).2
        rw [handler]
        simp
    · rw [idle] at hc
      cases hc

/-- An event was written, by a reaction or by a block. -/
theorem ReplanInv.wrote (inv : ReplanInv k) (fence : FenceInv k.desk)
    (appended : k.desk.bus.events ++ [e] = k'.log) (applied : apply k.board e = .ok k'.board)
    (seq : e.seq = k.log.length) (auth : k'.desk.auth = k.desk.auth)
    (undelivered : k'.desk.undelivered = k.desk.undelivered ++ [e])
    (kept : e.payload.movesStatus = false → ∀ cause, .move .replan cause ∈ k.desk.handler →
      .move .replan cause ∈ k'.desk.handler) : ReplanInv k' := by
  have log : k'.log = k.log ++ [e] := appended.symm
  have mem : ∀ x ∈ k'.log, x ∈ k.log ∨ x = e := fun x hx => by
    rw [log] at hx
    exact (List.mem_append.mp hx).imp_right List.mem_singleton.mp
  refine ⟨fun s hs => ?_, fun needs => ?_⟩
  · have := inv.covered s (auth ▸ hs)
    rw [undelivered, log, List.length_append, List.length_append]
    simp only [List.length_singleton]
    omega
  · cases hm : e.payload.movesStatus with
    | true =>
      obtain ⟨c, hp⟩ := movesStatus_eq_true hm
      obtain ⟨-, now, -⟩ := status_of_changed applied hp
      refine ⟨e, by rw [log]; simp, ⟨c.previous, ?_⟩, fun x hx later => ?_, Or.inl ?_⟩
      · rw [hp, ← now.symm.trans needs]
      · rcases mem x hx with hx | rfl
        · have before : x.seq < k.log.length := fence.sound.seq_lt hx
          omega
        · omega
      · rw [undelivered]
        simp
    | false =>
      have same : k'.board.pub.status = k.board.pub.status := status_of_apply applied hm
      obtain ⟨x, hx, change, last, ends⟩ := inv.waits (same.symm.trans needs)
      refine ⟨x, by rw [log]; exact List.mem_append_left _ hx, change, fun y hy later => ?_, ?_⟩
      · rcases mem y hy with hy | rfl
        · exact last y hy later
        · exact hm
      · rcases ends with waits | remembered | ⟨cause, hc⟩
        · exact Or.inl (by rw [undelivered]; exact List.mem_append_left _ waits)
        · exact Or.inr (Or.inl (by rw [auth]; exact remembered))
        · exact Or.inr (Or.inr ⟨cause, kept hm cause hc⟩)

theorem ReplanInv.internal (inv : ReplanInv k) (fence : FenceInv k.desk) {a : DeskAct} {d : Desk}
    (own : ∀ t actor causes p, a ≠ .env t actor causes p) (h : k.desk.step a = some d) :
    ReplanInv { k with desk := d } := by
  cases a with
  | env t actor causes p => exact absurd rfl (own t actor causes p)
  | tick t =>
    simp only [Desk.step] at h
    split at h
    · cases h
      exact ⟨inv.covered, inv.waits⟩
    · cases h
  | close =>
    simp only [Desk.step] at h
    split at h
    · cases h
      exact ⟨inv.covered, inv.waits⟩
    · cases h
  | deliver =>
    simp only [Desk.step, Desk.deliver] at h
    split at h
    · rename_i e rest idle next
      cases h
      exact inv.handled fence idle next
    · cases h
  | react t =>
    simp only [Desk.step, Desk.react] at h
    split at h
    · cases h
    · rename_i actor causes p rest next
      obtain ⟨appended, undelivered, handler⟩ := Desk.appended_of_emit h
      refine inv.wrote fence appended.log.symm appended.applied appended.seq appended.auth undelivered
        fun _ cause hc => ?_
      rw [next] at hc
      rw [handler]
      exact (List.mem_cons.mp hc).resolve_left fun same => by cases same
    · rename_i trigger cause rest next
      rcases Desk.move_eq_some h with ⟨illegal, rfl⟩ | ⟨status, legal, emitted⟩
      · refine ⟨inv.covered, fun needs => ?_⟩
        obtain ⟨x, mem, change, last, ends⟩ := inv.waits needs
        refine ⟨x, mem, change, last, ends.imp_right (Or.imp_right ?_)⟩
        rintro ⟨cause', hc⟩
        refine ⟨cause', ?_⟩
        rw [next] at hc
        refine (List.mem_cons.mp hc).resolve_left fun same => ?_
        -- the end of a replan is legal while the case needs one
        cases same
        rw [show k.desk.bus.bb.pub.status = .needsReplan from needs] at illegal
        cases illegal
      · obtain ⟨appended, undelivered, handler⟩ := Desk.appended_of_emit emitted
        refine inv.wrote fence appended.log.symm appended.applied appended.seq appended.auth
          undelivered fun still => ?_
        cases still

theorem ReplanInv.step (inv : ReplanInv k) (base : KernelInv host k)
    (taken : Kernel.Taken host k k') : ReplanInv k' := by
  cases taken with
  | internally a d own stepped => exact inv.internal base.fence own stepped
  | emitted begins em frame =>
    have appended := em.appended
    have undelivered := em.undelivered
    have idle := em.idle
    rw [begins.desk] at appended undelivered idle
    refine inv.wrote base.fence appended.log.symm appended.applied appended.seq appended.auth undelivered
      fun _ cause hc => ?_
    rw [idle] at hc
    cases hc
  | _ => exact ⟨inv.covered, inv.waits⟩

theorem ReplanInv.reach {session : Session} {runId : String}
    (h : Reach (Kernel.step host) anyStep (Kernel.start session runId) k) : ReplanInv k :=
  h.invariant ⟨(fun s h => by cases h), fun h => by cases h⟩
    fun hr inv _ hs => inv.step (KernelInv.reach hr) (Kernel.taken_of_step hs)

/-! ## Waiting lines -/

/-- A waiting line's `speak.verbatim` is in the log. -/
theorem lines_logged {session : Session} {runId : String}
    (h : Reach (Kernel.step host) anyStep (Kernel.start session runId) k) :
    ∀ q ∈ k.lines, q.seq < k.log.length := by
  refine h.invariant (I := fun k => ∀ q ∈ k.lines, q.seq < k.log.length) (by simp [Kernel.start])
    fun {k a k'} hr logged _ hs => ?_
  have grown : k.log.length ≤ k'.log.length := by
    cases ((KernelInv.reach hr).step hs).2 with
    | nothing log => rw [log]
    | event e log => simp [log]
  have old {q : Waiting} (mem : q ∈ k.lines) : q.seq < k'.log.length :=
    Nat.lt_of_lt_of_le (logged q mem) grown
  cases Kernel.taken_of_step hs with
  | @emitted k₀ _ causes p todo e begins em frame =>
    have kept : ∀ q ∈ k₀.lines, q ∈ k.lines := by
      cases begins with
      | revoked | released => exact fun q hq => List.mem_of_mem_eraseIdx hq
      | _ => exact fun q hq => hq
    have log : k'.log.length = k₀.log.length + 1 := by
      rw [Kernel.log, em.appended.log]
      simp
    intro q hq
    rw [em.lines, List.mem_append] at hq
    rcases hq with hq | hq
    · exact old (kept q hq)
    · unfold Kernel.spawned at hq
      split at hq
      · split at hq
        · cases hq
        · rw [List.mem_singleton.mp hq, log]
          exact Nat.lt_succ_self _
      · cases hq
  | waits i q users line =>
    intro x hx
    rcases List.mem_or_eq_of_mem_set hx with hx | same
    · exact old hx
    · rw [same]
      exact old (q := q) (List.mem_of_getElem? line)
  | _ => exact fun q hq => old hq

/-! ## Ways on -/

/-- `act`, whenever the session goes on, exists and comes to an end, with the case in `next`. -/
structure Kernel.Moves (host : Host) (k : Kernel) (act : Nat → Kernel.Act) (next : CaseStatus) :
    Prop where
  leaves : ∀ t, k.Leaves host (act t) next
  ends : ∀ clock causes, k.GoesOn clock causes → ∃ k₁ fuel k',
    k.step host (act (clock k.log.length)) = some k₁ ∧
      Kernel.finish host clock causes fuel k₁ = some k' ∧ k'.board.pub.status = next

/-- The approvals queue decides the post, in time, with the case in `next`. -/
structure Kernel.Decides (host : Host) (k : Kernel) (post : ApprovalPost) (by_ : Approver)
    (next : CaseStatus) : Prop where
  leaves : ∀ t causes, k.Leaves host (.post t causes post by_) next
  ends : ∀ clock, Monotone clock → k.desk.now ≤ clock k.log.length → k.desk.bus.ended = false →
    k.InTime clock post by_ → ∃ fuel k', k.decides host clock post by_ fuel = some k' ∧
      k'.board.pub.status = next

/-- The causes are of the log. -/
def Kernel.Cites (k : Kernel) (causes : List Nat) : Prop :=
  causes ≠ [] ∧ ∀ c ∈ causes, c < k.log.length

theorem moves_of {act : Nat → Kernel.Act} {next : CaseStatus}
    (leaves : ∀ t, k.Leaves host (act t) next)
    (ends : ∀ clock causes, k.GoesOn clock causes → ∃ k₁ k',
      k.step host (act (clock k.log.length)) = some k₁ ∧
        Kernel.Leads host clock causes k₁ k' ∧ k'.idle = true) : k.Moves host act next := by
  refine ⟨leaves, fun clock causes on => ?_⟩
  obtain ⟨k₁, k', step, leads, idle⟩ := ends clock causes on
  obtain ⟨fuel, hf⟩ := Kernel.finish_of_leads leads idle
  exact ⟨k₁, fuel, k', step, hf, leaves _ k₁ k' step leads.reach idle⟩

theorem idle_of_ran {clock : Nat → Nat} {k₀ : Kernel} {written : List Event}
    (ran : Ran host clock k₀ k written []) : k.idle = true := idle_iff.mpr ⟨ran.todo_eq, ran.quiet⟩

section exits

variable {session : Session} {runId : String} {card : ApprovalCard} {s : Nat}

/-- The timer of the pending card, once due. -/
theorem expire_moves (reach : Reach (Kernel.step host) anyStep (Kernel.start session runId) k)
    (idle : k.idle = true) (awaits : k.board.pub.status = .awaitingApproval)
    (pending : k.board.priv.pendingApproval = some card) (timer : (s, card) ∈ k.desk.auth.timers)
    (unfired : s ∉ k.fired) (due : card.expiresMs ≤ (k.desk.now : Int)) :
    k.Moves host (fun _ => .expire s) .needsReplan := by
  have cards := CardInv.reach reach
  refine moves_of (fun _ => expire_leaves cards idle awaits pending timer) fun clock causes on => ?_
  have undue : ¬ ((k.desk.now : Int) < card.expiresMs ∨ s ∈ k.fired) := by
    rintro (early | fired)
    · omega
    · exact unfired fired
  let k₁ : Kernel := { k with fired := s :: k.fired, todo := [.move .approvalExpired] }
  have step : k.step host (.expire s) = some k₁ := by
    simp [Kernel.step, idle, Kernel.expireCard, cards.find_timer timer, undue, pending, k₁]
  obtain ⟨k', written, leads, ran, -⟩ := leads_of_move ((KernelInv.reach reach).step step).1
    (⟨on.going, on.mono, on.later, on.cites⟩ : k₁.GoesOn clock causes) (idle_iff.mp idle).2 rfl
    (unverified (by decide))
  exact ⟨k₁, k', step, leads, idle_of_ran ran⟩

theorem decides_of {post : ApprovalPost} {by_ : Approver} {next : CaseStatus} {d : Payload}
    (reach : Reach (Kernel.step host) anyStep (Kernel.start session runId) k)
    (idle : k.idle = true) (started : k.log ≠ []) (allowed : decide k.bb post by_ = .ok d)
    (leaves : ∀ t causes, k.Leaves host (.post t causes post by_) next) :
    k.Decides host post by_ next := by
  refine ⟨leaves, fun clock mono later going inTime => ?_⟩
  obtain ⟨fuel, k', ended, -⟩ :=
    decides_allowed reach mono idle started going later allowed inTime
  obtain ⟨k₁, step, finished⟩ := Option.bind_eq_some_iff.mp ended
  obtain ⟨leads, idle'⟩ := Kernel.leads_of_finish finished
  exact ⟨fuel, k', ended, leaves _ _ k₁ k' step leads.reach idle'⟩

/-- What the world or a lane tells is handed to the Authority. -/
theorem leads_of_world {k₂ : Kernel} {actor : Actor} {causes : List Nat} {p : Payload}
    {bb : Blackboard} {clock : Nat → Nat} {cited : Nat → List Nat}
    (reach : Reach (Kernel.step host) anyStep (Kernel.start session runId) k)
    (on : k.GoesOn clock cited) (idle : k.idle = true)
    (may : k.step host (.world (clock k.log.length) actor causes p) =
      k.emit (clock k.log.length) actor causes p [])
    (takes : k.Takes (clock k.log.length) actor causes p bb) (outer : k.desk.outer p = true)
    (after : (k.put (clock k.log.length) actor causes p [] bb).handled
      (k.desk.bus.next (clock k.log.length) actor causes p) [] = k₂) :
    ∃ k₁, k.step host (.world (clock k.log.length) actor causes p) = some k₁ ∧
      Kernel.Leads host clock cited k₁ k₂ ∧ KernelInv host k₂ ∧ k₂.GoesOn clock cited ∧
      k.log.length < k₂.log.length := by
  subst after
  obtain ⟨handled, delivered⟩ := Desk.quiet_iff.mp (idle_iff.mp idle).2
  obtain ⟨step, inv, on'⟩ := starts (KernelInv.reach reach) on (idle_iff.mp idle).2 rfl may takes outer
  let e := k.desk.bus.next (clock k.log.length) actor causes p
  let k₁ := k.put (clock k.log.length) actor causes p [] bb
  have waiting : k₁.desk.undelivered = e :: [] := by
    show k.desk.undelivered ++ [e] = _
    rw [delivered]
    rfl
  refine ⟨k₁, step, leads_of_delivery handled waiting, (inv.step (step_deliver handled waiting)).1,
    ⟨on'.going, on'.mono, on'.later, on'.cites⟩, ?_⟩
  show k.log.length < (k.log ++ [e]).length
  simp

/-! ### Bumps -/

theorem leads_of_bumping {call : ToolCall} {causes : List Nat} {reason : BumpReason}
    {rest : List Payload} {clock : Nat → Nat} {cited : Nat → List Nat}
    (reach : Reach (Kernel.step host) anyStep (Kernel.start session runId) k)
    (on : k.GoesOn clock cited) (idle : k.idle = true) (cites : k.Cites causes)
    (effects : (runTool host k.bb k.log k.nextMandate call).effects =
      .authorityEpoch (.next k.board.epoch reason) :: rest) :
    ∃ k₁ k' written, k.step host (.tool (clock k.log.length) causes call) = some k₁ ∧
      Kernel.Leads host clock cited k₁ k' ∧
      Ran host clock k k' written (rest.map (.emit .guard)) ∧ k'.board.epoch = k.board.epoch + 1 := by
  have quiet := (idle_iff.mp idle).2
  have begins : k.step host (.tool (clock k.log.length) causes call) =
      k.tool host (clock k.log.length) causes call := by rw [Kernel.step, if_pos idle]
  obtain ⟨k₁, k₂, step, leads, ran⟩ := starts_calmly (KernelInv.reach reach) on quiet (by rfl) begins
    ⟨cites, rfl, rfl, rfl⟩ rfl (inert_of_calm rfl)
  have same : k₂.board.epoch = k.board.epoch := by
    obtain ⟨b, hb, done⟩ := fold_cons.mp ran.board
    have now : b = k₂.board := Except.ok.inj done
    cases hb
    exact (congrArg Blackboard.epoch now).symm
  have next := ran.todo_eq
  rw [effects, List.map_cons] at next
  obtain ⟨k', e, written, leads', ran', -, -, epoch⟩ := leads_of_bump .guard reason ran.inv
    (ran.goesOn on) ran.quiet next rfl (by simp only [Kernel.runNext, next, same])
  exact ⟨k₁, k', _, step, leads.trans leads', ran.trans ran', epoch.trans (by rw [same])⟩

theorem bumping_emit {reason : BumpReason} {rest : List Payload}
    (mild : ∀ p ∈ rest, p.bumping = true ∧ p.movesStatus = false) :
    ∀ t ∈ (Payload.authorityEpoch (.next k.board.epoch reason) :: rest).map (Task.emit .guard),
      t.bumping := by
  intro t ht
  obtain ⟨p, hp, rfl⟩ := List.mem_map.mp ht
  rcases List.mem_cons.mp hp with rfl | hp
  · exact ⟨rfl, rfl⟩
  · exact mild p hp

/-- A tool that bumps the epoch stales the pending card. -/
theorem bump_leaves {call : ToolCall} {causes : List Nat} {reason : BumpReason} {t : Nat}
    {rest : List Payload} (reach : Reach (Kernel.step host) anyStep (Kernel.start session runId) k)
    (idle : k.idle = true) (awaits : k.board.pub.status = .awaitingApproval)
    (pending : k.board.priv.pendingApproval = some card) (own : card.authorityEpoch = k.board.epoch)
    (effects : (runTool host k.bb k.log k.nextMandate call).effects =
      .authorityEpoch (.next k.board.epoch reason) :: rest)
    (mild : ∀ p ∈ rest, p.bumping = true ∧ p.movesStatus = false) :
    k.Leaves host (.tool t causes call) .needsReplan := by
  intro k₁ k' h run done
  have staling : k₁.Staling card := by
    simp only [Kernel.step, idle, if_true, Kernel.tool, effects] at h
    obtain ⟨e, em⟩ := Kernel.emits_of_emit h
    have desk : ({ k with mandates := if call.proposes then k.mandates + 1 else k.mandates } :
      Kernel).desk = k.desk := rfl
    exact staling_of_emits desk em idle awaits pending own rfl rfl (bumping_emit mild)
      (Or.inr (Or.inl ⟨.guard, _, List.mem_cons_self ..⟩))
  exact staling.ended (.next _ reach trivial h) run done

theorem revoke_moves {causes : List Nat}
    (reach : Reach (Kernel.step host) anyStep (Kernel.start session runId) k)
    (idle : k.idle = true) (awaits : k.board.pub.status = .awaitingApproval)
    (pending : k.board.priv.pendingApproval = some card) (own : card.authorityEpoch = k.board.epoch)
    (cites : k.Cites causes) : k.Moves host (.tool · causes .revoke) .needsReplan := by
  have effects : (runTool host k.bb k.log k.nextMandate .revoke).effects =
      .authorityEpoch (.next k.board.epoch .slowRevoke) :: [] := rfl
  refine moves_of (fun t => bump_leaves reach idle awaits pending own effects (by simp))
    fun clock cited on => ?_
  obtain ⟨k₁, k', written, step, leads, ran, -⟩ := leads_of_bumping reach on idle cites effects
  exact ⟨k₁, k', step, leads, idle_of_ran ran⟩

/-- A mandate that is tightened bumps the epoch, and is proposed anew. -/
theorem tightened_effects {py : Runtime} {bb : Blackboard} {changes : Envelope} {mid : String}
    (ok : (tightenMandate py bb changes mid).ok = true) :
    ∃ m : Mandate, (tightenMandate py bb changes mid).effects =
      [.authorityEpoch (.next bb.epoch .tightenMandate),
        proposed py (bb.epoch + 1) mid (tightened m changes) m.expiresMs] := by
  unfold tightenMandate at ok ⊢
  split at ok
  · cases ok
  · rename_i m hm
    split at ok
    · cases ok
    · rename_i live
      dsimp only at ok ⊢
      split at ok
      · cases ok
      · rename_i tighter
        rw [if_neg live, if_neg tighter]
        exact ⟨m, rfl⟩

theorem apply_proposal {b : Blackboard} {e : Event} {p : MandateProposal}
    (hp : e.payload = .mandateProposed p) (own : p.mandate.epoch = b.epoch) :
    ∃ b', apply b e = .ok b' := by
  refine ⟨_, apply_eq_ok.mpr ⟨withMandate b p.mandate, ?_, rfl⟩⟩
  simp only [reduce, hp, mandateProposed, require_bind, pure_eq_ok]
  exact ⟨own, trivial⟩

theorem tighten_moves {causes : List Nat} {changes : Envelope}
    (reach : Reach (Kernel.step host) anyStep (Kernel.start session runId) k)
    (idle : k.idle = true) (awaits : k.board.pub.status = .awaitingApproval)
    (pending : k.board.priv.pendingApproval = some card) (own : card.authorityEpoch = k.board.epoch)
    (cites : k.Cites causes)
    (ok : (tightenMandate host.py k.bb changes k.nextMandate).ok = true) :
    k.Moves host (.tool · causes (.tightenMandate changes)) .needsReplan := by
  obtain ⟨m, tightens⟩ := tightened_effects ok
  have effects : (runTool host k.bb k.log k.nextMandate (.tightenMandate changes)).effects =
      .authorityEpoch (.next k.board.epoch .tightenMandate) ::
        [proposed host.py (k.board.epoch + 1) k.nextMandate (tightened m changes) m.expiresMs] := tightens
  refine moves_of (fun t => bump_leaves reach idle awaits pending own effects (by
    simp [proposed, Payload.bumping, Payload.movesStatus])) fun clock cited on => ?_
  obtain ⟨k₁, k₂, written, step, leads, ran, epoch⟩ := leads_of_bumping reach on idle cites effects
  have next : k₂.todo = .emit .guard
      (proposed host.py (k.board.epoch + 1) k.nextMandate (tightened m changes) m.expiresMs) :: [] :=
    ran.todo_eq
  -- the proposal is of the epoch that the bump began
  obtain ⟨bb, accepted⟩ := apply_proposal (e := k₂.desk.bus.next (clock k₂.log.length) .guard
    (cited k₂.log.length) (proposed host.py (k.board.epoch + 1) k.nextMandate (tightened m changes)
      m.expiresMs)) (b := k₂.board) rfl epoch.symm
  obtain ⟨k', leads', ran'⟩ := leads_of_emit ran.inv (ran.goesOn on) ran.quiet next
    ⟨(ran.goesOn on).here, rfl, rfl, accepted⟩ rfl (inert_of_calm rfl)
  exact ⟨k₁, k', step, leads.trans leads', idle_of_ran ran'⟩

/-- The user revokes: the Authority bumps the epoch. -/
theorem told_moves {causes : List Nat} {actor : Actor} {msg : FastToSlow}
    (reach : Reach (Kernel.step host) anyStep (Kernel.start session runId) k)
    (idle : k.idle = true) (awaits : k.board.pub.status = .awaitingApproval)
    (pending : k.board.priv.pendingApproval = some card) (own : card.authorityEpoch = k.board.epoch)
    (cites : k.Cites causes) (here : actor ≠ .world) (type : msg.type = .revoke) :
    k.Moves host (.world · actor causes (.f2sMsg msg)) .needsReplan := by
  have empty := (idle_iff.mp idle).1
  have may (t : Nat) : k.step host (.world t actor causes (.f2sMsg msg)) =
      k.emit t actor causes (.f2sMsg msg) [] := by
    simp [Kernel.step, Kernel.free, Payload.isQuiet, empty]
  refine moves_of (fun t k₁ k' h run done => ?_) fun clock cited on => ?_
  · have staling : k₁.Staling card := by
      rw [may] at h
      obtain ⟨e, em⟩ := Kernel.emits_of_emit h
      exact staling_of_emits rfl em idle awaits pending own rfl rfl (by simp)
        (Or.inr (Or.inr ⟨msg, rfl, type⟩))
    exact staling.ended (.next _ reach trivial h) run done
  · have by_ : Payload.emittedBy (.f2sMsg msg) actor = true := by
      simp [Payload.emittedBy, Payload.emitters, Payload.fromWorld, here]
    let e := k.desk.bus.next (clock k.log.length) actor causes (.f2sMsg msg)
    let k₂ := (k.put (clock k.log.length) actor causes (.f2sMsg msg) []
      (stamp (f2s k.board msg) e)).handled e []
    obtain ⟨k₁, step, delivered, inv₂, on₂, before⟩ := leads_of_world reach on idle (may _)
      ⟨cites, by_, rfl, rfl⟩ rfl (rfl : _ = k₂)
    have handler : k₂.desk.handler = .emit .kernel [k.log.length]
        (.authorityEpoch (.next k₂.board.epoch .f2sRevoke)) :: [] := by
      show (k.desk.auth.onEvent k.desk.session k.desk.closed (stamp (f2s k.board msg) e) e).2 = _
      simp only [Authority.onEvent, e, Bus.next, type, if_true]
      rfl
    obtain ⟨bb, ok, -⟩ := apply_bump (b := k₂.board) (e := k₂.desk.bus.next (clock k₂.log.length)
      .kernel [k.log.length] _) rfl
    obtain ⟨leads, inv₃, on₃⟩ := leads_of_reaction inv₂ on₂ handler (by rw [Desk.react, handler])
      ⟨⟨by simp, by simpa using before⟩, rfl, rfl, ok⟩
    obtain ⟨k', written, leads', ran, -⟩ := leads_of_bumped inv₃ on₃ rfl rfl rfl
    exact ⟨k₁, k', step, (delivered.trans leads).trans leads', idle_of_ran ran⟩

/-- The user decides the proposed mandate: the epoch is bumped. -/
theorem mandate_leaves {t : Nat} {causes : List Nat} {post : ApprovalPost} {by_ : Approver}
    {d : MandateDecided} (reach : Reach (Kernel.step host) anyStep (Kernel.start session runId) k)
    (idle : k.idle = true) (awaits : k.board.pub.status = .awaitingApproval)
    (pending : k.board.priv.pendingApproval = some card) (own : card.authorityEpoch = k.board.epoch)
    (allowed : decide k.bb post by_ = .ok (.mandateDecided d)) :
    k.Leaves host (.post t causes post by_) .needsReplan := by
  intro k₁ k' h run done
  have bumps : .bump ∈ Kernel.afterDecision post ∧ ∀ task ∈ Kernel.afterDecision post, task.bumping := by
    cases decide_spec allowed with
    | mandate m subject =>
      unfold Kernel.afterDecision
      rw [subject]
      dsimp only
      split <;> simp [Task.bumping]
  have staling : k₁.Staling card := by
    simp only [Kernel.step, idle, if_true, Kernel.decidePost, allowed] at h
    obtain ⟨e, em⟩ := Kernel.emits_of_emit h
    refine staling_of_emits rfl em idle awaits pending own rfl rfl ?_
      (Or.inl (List.mem_cons_of_mem _ bumps.1))
    rw [List.forall_mem_cons]
    exact ⟨⟨rfl, rfl⟩, bumps.2⟩
  exact staling.ended (.next _ reach trivial h) run done

/-! ### The accept line -/

theorem floor_of_finishing {k₁ : Kernel} (run : Reach (Kernel.step host) Kernel.finishing k₁ k') :
    k'.floor = k₁.floor := by
  refine run.invariant (I := fun k => k.floor = k₁.floor) rfl fun {k a k'} _ same ok hs => ?_
  rcases finishing_cases ok hs with ⟨t, rfl⟩ | ⟨t, d, -, rfl⟩ | ⟨d, -, rfl⟩ | ⟨e, p, causes, -, em⟩ |
    ⟨t, causes, -, hn⟩
  · exact same
  · exact same
  · exact same
  · exact em.floor.trans same
  · unfold Kernel.runNext at hn
    split at hn
    · cases hn
    · obtain ⟨e, em⟩ := Kernel.emits_of_emit hn
      exact em.floor.trans same
    · obtain ⟨e, em⟩ := Kernel.emits_of_emit hn
      exact em.floor.trans same
    · split at hn
      · cases hn
        exact same
      · obtain ⟨e, em⟩ := Kernel.emits_of_emit hn
        exact em.floor.trans same

/-- An accept line that fails its revalidation is revoked. -/
theorem revoked_moves {i : Nat} {q : Waiting} {reason : String}
    (reach : Reach (Kernel.step host) anyStep (Kernel.start session runId) k)
    (idle : k.idle = true) (authorized : k.board.pub.status = .commitAuthorized)
    (free : k.floor = none) (line : k.lines[i]? = some q) (accept : q.isAccept = true)
    (revoked : k.revalidated host q = .revoke reason) :
    k.Moves host (.floor · i) .needsReplan := by
  refine moves_of (fun t => revoke_leaves idle authorized line accept revoked) fun clock cited on => ?_
  have mem := List.mem_of_getElem? line
  obtain ⟨id, cap, own, found, unused⟩ := (LineInv.reach reach).queued q mem accept
  have kind : q.kind = .accept := by simpa [Waiting.isAccept] using accept
  have ok : ∃ bb, apply k.board (k.desk.bus.next (clock k.log.length) .kernel [q.seq]
      (.speakRevoked .cp reason q.cap)) = .ok bb := by
    refine ⟨_, apply_eq_ok.mpr ⟨{ k.board with capabilities := k.board.capabilities.erase cap.capId },
      ?_, rfl⟩⟩
    simp [reduce, Bus.next, own, ProxyLoop.revoked, liveCap, found, unused, fetch, require, bind,
      Except.bind, pure, Except.pure]
  obtain ⟨bb, ok⟩ := ok
  have begins : k.step host (.floor (clock k.log.length) i) =
      { k with lines := k.lines.eraseIdx i }.emit (clock k.log.length) .kernel [q.seq]
        (.speakRevoked .cp reason q.cap) [.move .acceptRevoked] := by
    simp only [Kernel.step, idle, if_true, Kernel.takeFloor, free, line, revoked, kind]
  obtain ⟨k₁, k₂, step, leads, ran⟩ := starts_calmly (KernelInv.reach reach) on (idle_iff.mp idle).2
    (by rfl) begins ⟨⟨by simp, by simpa using lines_logged reach q mem⟩, rfl, rfl, ok⟩ rfl
    (inert_of_calm rfl)
  obtain ⟨k', written, leads', ran', -⟩ := leads_of_move ran.inv (ran.goesOn on) ran.quiet
    ran.todo_eq (unverified (by decide))
  exact ⟨k₁, k', step, leads.trans leads', idle_of_ran ran'⟩

/-- What ends past the capability's expiry is not valid. -/
theorem revalidate_late {bb : Blackboard} {id : String} {cap : Capability} {tEnd : Nat}
    (found : bb.capabilities.get? id = some cap) (late : cap.expiresMs ≤ (tEnd : Int)) :
    revalidate bb id tEnd ≠ none := by
  intro valid
  have past : expired (some cap.expiresMs) tEnd = true := by simpa [expired] using late
  simp only [revalidate, found, past, Bool.true_or, if_true] at valid
  repeat' split at valid
  all_goals cases valid

/-- A line that would end past its capability's expiry is revoked. -/
theorem lapses (host : Host) {q : Waiting} {id : String} {cap : Capability} (own : q.cap = some id)
    (found : k.board.capabilities.get? id = some cap)
    (late : cap.expiresMs ≤ (k.desk.now + host.speechMs q.text : Nat)) :
    ∃ reason, k.revalidated host q = .revoke reason := by
  have invalid : revalidate k.bb id (k.desk.now + host.speechMs q.text) ≠ none :=
    revalidate_late (show k.bb.capabilities.get? id = some cap from found) late
  unfold Kernel.revalidated
  rw [own]
  simp only [Option.bind_some, found, Option.any_some, late, decide_true, if_true]
  generalize why : (if k.desk.closed then some "call_closed" else
    revalidate k.bb id (k.desk.now + host.speechMs q.text)) = reason
  cases reason with
  | none =>
    split at why
    · cases why
    · exact absurd why invalid
  | some reason =>
    split
    · exact ⟨_, rfl⟩
    · split <;> exact ⟨_, rfl⟩

theorem valid_of_release {q : Waiting} {id : String} (own : q.cap = some id)
    (release : k.revalidated host q = .release) :
    revalidate k.board id (k.desk.now + host.speechMs q.text) = none := by
  unfold Kernel.revalidated at release
  rw [own] at release
  simp only [Option.bind_some] at release
  generalize why : (if k.desk.closed then some "call_closed" else
    revalidate k.bb id (k.desk.now + host.speechMs q.text)) = reason at release
  cases reason with
  | none =>
    split at why
    · cases why
    · exact why
  | some reason =>
    split at release
    · cases release
    · split at release
      · cases release
      · split at release <;> cases release

/-- An accept line that revalidates is released, and is on the floor. -/
theorem released_moves {i : Nat} {q : Waiting} {clock : Nat → Nat} {cited : Nat → List Nat}
    (reach : Reach (Kernel.step host) anyStep (Kernel.start session runId) k)
    (on : k.GoesOn clock cited) (idle : k.idle = true) (free : k.floor = none)
    (line : k.lines[i]? = some q) (accept : q.isAccept = true)
    (release : k.revalidated host q = .release)
    (inTime : clock k.log.length ≤ k.desk.now + host.speechMs q.text) :
    ∃ k₁ fuel k', k.step host (.floor (clock k.log.length) i) = some k₁ ∧
      Kernel.finish host clock cited fuel k₁ = some k' ∧ k'.floor = some (q, k.log.length) ∧
      k'.board.pub.status = k.board.pub.status := by
  have mem := List.mem_of_getElem? line
  have inv := KernelInv.reach reach
  obtain ⟨id, cap, own, found, unused⟩ := (LineInv.reach reach).queued q mem accept
  let e := k.desk.bus.next (clock k.log.length) .kernel [q.seq] (.speakReleased .cp q.cap)
  obtain ⟨bb, ok⟩ := apply_released (e := e) inv.law (valid_of_release own release)
    ⟨.cp, by simp [e, Bus.next, own]⟩ inTime
  have begins : k.step host (.floor (clock k.log.length) i) =
      { k with lines := k.lines.eraseIdx i, floor := some (q, k.log.length) }.emit
        (clock k.log.length) .kernel [q.seq] (.speakReleased .cp q.cap) [] := by
    simp only [Kernel.step, idle, if_true, Kernel.takeFloor, free, line, release]
  obtain ⟨k₁, k', step, leads, ran⟩ := starts_calmly inv on (idle_iff.mp idle).2 (by rfl) begins
    ⟨⟨by simp, by simpa using lines_logged reach q mem⟩, rfl, rfl, ok⟩ rfl (inert_of_calm rfl)
  obtain ⟨fuel, hf⟩ := Kernel.finish_of_leads leads (idle_of_ran ran)
  obtain ⟨e', em⟩ := Kernel.emits_of_emit (begins.symm.trans step)
  refine ⟨k₁, fuel, k', step, hf, (floor_of_finishing leads.reach).trans em.floor, ?_⟩
  obtain ⟨b, applied, done⟩ := fold_cons.mp ran.board
  cases done
  exact status_of_apply applied rfl

theorem leads_of_heard {q : Waiting} {n : Nat} {said : String} {clock : Nat → Nat}
    {cited : Nat → List Nat}
    (reach : Reach (Kernel.step host) anyStep (Kernel.start session runId) k)
    (on : k.GoesOn clock cited) (idle : k.idle = true) (onFloor : k.floor = some (q, n))
    (heard : said.toList.isPrefixOf q.text.toList = true) :
    ∃ k₁ k' e, k.step host (.heard (clock k.log.length) said) = some k₁ ∧
      Kernel.Leads host clock cited k₁ k' ∧ k₁.floor = none ∧
      Ran host clock k k' [e] (Kernel.afterDelivery q said) ∧ e.payload.movesStatus = false := by
  have inv := KernelInv.reach reach
  obtain ⟨r, mem, rfl, -⟩ := (inv.floor onFloor).released
  have before : r.seq < k.log.length := inv.fence.sound.seq_lt mem
  have begins : k.step host (.heard (clock k.log.length) said) =
      { k with floor := none }.emit (clock k.log.length) .kernel [r.seq]
        (.uttDelivered .cp (Kernel.kindText q.kind ++ "-" ++ toString q.seq) q.text said
          (said ≠ q.text)) (Kernel.afterDelivery q said) := by
    simp only [Kernel.step, idle, if_true, Kernel.hearLine, onFloor, heard]
  obtain ⟨k₁, k', step, leads, ran⟩ := starts_calmly inv on (idle_iff.mp idle).2 (by rfl) begins
    ⟨⟨by simp, by simpa using before⟩, rfl, rfl, rfl⟩ rfl (inert_of_calm rfl)
  obtain ⟨e, em⟩ := Kernel.emits_of_emit (begins.symm.trans step)
  exact ⟨k₁, k', _, step, leads, em.floor, ran, rfl⟩

theorem heard_moves {q : Waiting} {n : Nat} {said : String}
    (reach : Reach (Kernel.step host) anyStep (Kernel.start session runId) k)
    (idle : k.idle = true) (authorized : k.board.pub.status = .commitAuthorized)
    (onFloor : k.floor = some (q, n)) (accept : q.isAccept = true)
    (heard : said.toList.isPrefixOf q.text.toList = true) :
    k.Moves host (.heard · said) (if said = q.text then .committed else .needsReplan) := by
  have kind : q.kind = .accept := by simpa [Waiting.isAccept] using accept
  refine moves_of (fun t => heard_leaves idle authorized onFloor accept) fun clock cited on => ?_
  obtain ⟨k₁, k₂, e, step, leads, -, ran, -⟩ := leads_of_heard reach on idle onFloor heard
  have next := ran.todo_eq
  by_cases whole : said = q.text
  · simp only [Kernel.afterDelivery, whole, kind, if_true, List.nil_append] at next
    obtain ⟨k', written, leads', ran', -⟩ := leads_of_move ran.inv (ran.goesOn on) ran.quiet next
      (unverified (by decide))
    exact ⟨k₁, k', step, leads.trans leads', idle_of_ran ran'⟩
  · simp only [Kernel.afterDelivery, whole, kind, if_false, if_true, List.singleton_append] at next
    obtain ⟨k₃, leads', ran'⟩ := leads_of_emit ran.inv (ran.goesOn on) ran.quiet next
      ⟨(ran.goesOn on).here, rfl, rfl, rfl⟩ rfl (inert_of_calm rfl)
    obtain ⟨k', written, leads'', ran'', -⟩ := leads_of_move ran'.inv (ran'.goesOn (ran.goesOn on))
      ran'.quiet ran'.todo_eq (unverified (by decide))
    exact ⟨k₁, k', step, (leads.trans leads').trans leads'', idle_of_ran ran''⟩

/-- Any other line on the floor is heard to its end, and gives the floor back. -/
theorem freed {q : Waiting} {n : Nat} {clock : Nat → Nat} {cited : Nat → List Nat}
    (reach : Reach (Kernel.step host) anyStep (Kernel.start session runId) k)
    (on : k.GoesOn clock cited) (idle : k.idle = true) (onFloor : k.floor = some (q, n))
    (other : q.isAccept = false) :
    ∃ k₁ fuel k', k.step host (.heard (clock k.log.length) q.text) = some k₁ ∧
      Kernel.finish host clock cited fuel k₁ = some k' ∧ k'.floor = none ∧
      k'.board.pub.status = k.board.pub.status := by
  have kind : q.kind ≠ .accept := by simpa [Waiting.isAccept] using other
  obtain ⟨k₁, k', e, step, leads, floor, ran, still⟩ := leads_of_heard reach on idle onFloor
    (show q.text.toList.isPrefixOf q.text.toList = true by simp)
  have next := ran.todo_eq
  simp only [Kernel.afterDelivery, kind, if_true, if_false, List.append_nil] at next
  obtain ⟨fuel, hf⟩ := Kernel.finish_of_leads leads (idle_iff.mpr ⟨next, ran.quiet⟩)
  refine ⟨k₁, fuel, k', step, hf, (floor_of_finishing leads.reach).trans floor, ?_⟩
  obtain ⟨b, applied, done⟩ := fold_cons.mp ran.board
  cases done
  exact status_of_apply applied still

/-! ### A completed step -/

theorem completed_moves {actor : Actor} {causes : List Nat} {s basis : Nat}
    (reach : Reach (Kernel.step host) anyStep (Kernel.start session runId) k)
    (idle : k.idle = true) (needs : k.board.pub.status = .needsReplan)
    (remembered : k.desk.auth.replan = some s) (covers : s ≤ basis) (cites : k.Cites causes)
    (by_ : (Payload.slowStepCompleted basis).emittedBy actor = true) :
    k.Moves host (.world · actor causes (.slowStepCompleted basis)) .inCall := by
  have empty := (idle_iff.mp idle).1
  have may (t : Nat) : k.step host (.world t actor causes (.slowStepCompleted basis)) =
      k.emit t actor causes (.slowStepCompleted basis) [] := by
    simp [Kernel.step, Kernel.free, Payload.isQuiet, empty]
  refine moves_of (fun t => replan_leaves idle needs remembered covers) fun clock cited on => ?_
  let e := k.desk.bus.next (clock k.log.length) actor causes (.slowStepCompleted basis)
  let k₀ := k.put (clock k.log.length) actor causes (.slowStepCompleted basis) [] (stamp k.board e)
  obtain ⟨k₁, step, delivered, inv, on', grown⟩ := leads_of_world reach on idle (may _)
    ⟨cites, by_, rfl, rfl⟩ rfl (rfl : _ = k₀.handled e [])
  have before : e.seq < (k₀.handled e []).log.length := grown
  have covered : k.desk.auth.replan.any (· ≤ basis) = true := by simpa [remembered] using covers
  obtain ⟨cleared, handler, fences⟩ := move_of_completed (e := e) (d := k₀.desk) rfl covered
  obtain ⟨k', written, leads, ran, -⟩ := leads_of_handler inv on' handler (fun r hr => by
    rcases List.mem_append.mp hr with hr | hr
    · obtain ⟨op, id, utt, rfl⟩ := fences r hr
      exact ⟨rfl, ⟨by simp, by simpa using before⟩, op, id, utt, rfl⟩
    · rw [List.mem_singleton.mp hr]
      exact ⟨before, unverified (by decide)⟩) (by simp [Kernel.handled])
  exact ⟨k₁, k', step, delivered.trans leads, idle_of_ran ran⟩

/-! ### Three waits -/

/-- What ends the wait for a decision: the card's timer, a decision, and every bump of the epoch. -/
structure Kernel.AwaitsExit (host : Host) (k : Kernel) (card : ApprovalCard) (s : Nat) : Prop where
  pending : k.board.priv.pendingApproval = some card
  epoch : card.authorityEpoch = k.board.epoch
  timer : (s, card) ∈ k.desk.auth.timers
  unfired : s ∉ k.fired
  expires : ∀ t, k.desk.now ≤ t → card.expiresMs ≤ (t : Int) →
    ∃ k₁, k.step host (.tick t) = some k₁ ∧ k₁.Moves host (fun _ => .expire s) .needsReplan
  decided : ∀ post by_ d, decide k.bb post by_ = .ok (.approvalDecided d) →
    k.Decides host post by_ .inCall
  mandated : ∀ post by_ d, decide k.bb post by_ = .ok (.mandateDecided d) →
    k.Decides host post by_ .needsReplan
  revoked : ∀ causes, k.Cites causes → k.Moves host (.tool · causes .revoke) .needsReplan
  tightened : ∀ causes changes, k.Cites causes →
    (tightenMandate host.py k.bb changes k.nextMandate).ok = true →
    k.Moves host (.tool · causes (.tightenMandate changes)) .needsReplan
  told : ∀ causes actor msg, k.Cites causes → actor ≠ .world → msg.type = .revoke →
    k.Moves host (.world · actor causes (.f2sMsg msg)) .needsReplan

/-- What ends an authorized commit: its one accept line, revoked, released or heard. -/
structure Kernel.CommitExit (host : Host) (k : Kernel) : Prop where
  one : k.accepts = 1
  queued : ∀ q ∈ k.lines, q.isAccept = true → HasCap k.board q false
  floored : ∀ q n, k.floor = some (q, n) → q.isAccept = true → HasCap k.board q true
  revoked : ∀ i q reason, k.floor = none → k.lines[i]? = some q → q.isAccept = true →
    k.revalidated host q = .revoke reason → k.Moves host (.floor · i) .needsReplan
  released : ∀ i q clock cited, k.GoesOn clock cited → k.floor = none → k.lines[i]? = some q →
    q.isAccept = true → k.revalidated host q = .release →
    clock k.log.length ≤ k.desk.now + host.speechMs q.text →
    ∃ k₁ fuel k', k.step host (.floor (clock k.log.length) i) = some k₁ ∧
      Kernel.finish host clock cited fuel k₁ = some k' ∧ k'.floor = some (q, k.log.length) ∧
      k'.board.pub.status = .commitAuthorized
  /-- a line that waits ends with its capability -/
  lapsed : ∀ i q id cap t, k.floor = none → k.lines[i]? = some q → q.isAccept = true →
    q.cap = some id → k.board.capabilities.get? id = some cap → k.desk.now ≤ t →
    cap.expiresMs ≤ (t + host.speechMs q.text : Nat) →
    ∃ k₁, k.step host (.tick t) = some k₁ ∧ k₁.Moves host (.floor · i) .needsReplan
  heard : ∀ q n said, k.floor = some (q, n) → q.isAccept = true →
    said.toList.isPrefixOf q.text.toList = true →
    k.Moves host (.heard · said) (if said = q.text then .committed else .needsReplan)
  /-- another line gives the floor back -/
  freed : ∀ q n clock cited, k.GoesOn clock cited → k.floor = some (q, n) → q.isAccept = false →
    ∃ k₁ fuel k', k.step host (.heard (clock k.log.length) q.text) = some k₁ ∧
      Kernel.finish host clock cited fuel k₁ = some k' ∧ k'.floor = none ∧
      k'.board.pub.status = .commitAuthorized

/-- What ends a replan: the next completed step that saw it. -/
structure Kernel.ReplanExit (host : Host) (k : Kernel) (e : Event) : Prop where
  logged : e ∈ k.log
  change : ∃ was, e.payload = .statusChanged ⟨was, .needsReplan⟩
  last : ∀ x ∈ k.log, e.seq < x.seq → x.payload.movesStatus = false
  remembered : k.desk.auth.replan = some e.seq
  completed : ∀ causes actor basis, k.Cites causes → actor ≠ .world → e.seq ≤ basis →
    k.Moves host (.world · actor causes (.slowStepCompleted basis)) .inCall

theorem step_tick (host : Host) {t : Nat} (later : k.desk.now ≤ t) :
    k.step host (.tick t) = some { k with desk := { k.desk with now := t } } := by
  simp [Kernel.step, Kernel.internal, Desk.step, later]

theorem awaitsExit (reach : Reach (Kernel.step host) anyStep (Kernel.start session runId) k)
    (idle : k.idle = true) (awaits : k.board.pub.status = .awaitingApproval) :
    ∃ card s, k.AwaitsExit host card s := by
  obtain ⟨empty, quiet⟩ := idle_iff.mp idle
  obtain ⟨handled, delivered⟩ := Desk.quiet_iff.mp quiet
  have unresolved : ¬ Kernel.Resolving k.todo := by
    rintro (h | h) <;> rw [empty] at h <;> cases h
  obtain ⟨card, pending, watched, current⟩ :=
    ((CardInv.reach reach).waits awaits).resolve_left unresolved
  obtain ⟨s, timer, unfired⟩ : ∃ s, (s, card) ∈ k.desk.auth.timers ∧ s ∉ k.fired := by
    rcases watched with timer | ⟨e, he, -⟩
    · exact timer
    · rw [delivered] at he
      cases he
  have own : card.authorityEpoch = k.board.epoch := by
    rcases current with own | ⟨-, e, he, -⟩ | ⟨cause, hc⟩
    · exact own
    · rw [delivered] at he
      cases he
    · rw [handled] at hc
      cases hc
  have started : k.log ≠ [] := by
    intro none_
    have board := (KernelInv.reach reach).fence.sound.fold
    rw [show k.desk.bus.events = [] from none_] at board
    rw [Kernel.board, ← Except.ok.inj board] at awaits
    cases awaits
  refine ⟨card, s, pending, own, timer, unfired, fun t later due => ?_,
    fun post by_ d allowed => decides_of reach idle started allowed
      fun t causes => post_leaves idle awaits allowed,
    fun post by_ d allowed => decides_of reach idle started allowed
      fun t causes => mandate_leaves reach idle awaits pending own allowed,
    fun causes cites => revoke_moves reach idle awaits pending own cites,
    fun causes changes cites ok => tighten_moves reach idle awaits pending own cites ok,
    fun causes actor msg cites here type => told_moves reach idle awaits pending own cites here type⟩
  have tick := step_tick host later
  exact ⟨_, tick, expire_moves (.next _ reach trivial tick) idle awaits pending timer unfired due⟩

theorem commitExit (reach : Reach (Kernel.step host) anyStep (Kernel.start session runId) k)
    (idle : k.idle = true) (authorized : k.board.pub.status = .commitAuthorized) :
    k.CommitExit host := by
  have lines := LineInv.reach reach
  have some_line := lines.line_of_idle (idle_iff.mp idle).1 authorized
  have one := lines.one
  refine ⟨by omega, lines.queued, lines.floored,
    fun i q reason free line accept revoked =>
      revoked_moves reach idle authorized free line accept revoked,
    fun i q clock cited on free line accept release inTime => ?_,
    fun i q id cap t free line accept own found later late => ?_,
    fun q n said onFloor accept heard => heard_moves reach idle authorized onFloor accept heard,
    fun q n clock cited on onFloor other => ?_⟩
  · rw [← authorized]
    exact released_moves reach on idle free line accept release inTime
  · have tick := step_tick host later
    obtain ⟨reason, revoked⟩ := lapses host
      (k := { k with desk := { k.desk with now := t } }) own found late
    exact ⟨_, tick, revoked_moves (.next _ reach trivial tick) idle authorized free line accept revoked⟩
  · rw [← authorized]
    exact freed reach on idle onFloor other

theorem replanExit (reach : Reach (Kernel.step host) anyStep (Kernel.start session runId) k)
    (idle : k.idle = true) (needs : k.board.pub.status = .needsReplan) :
    ∃ e, k.ReplanExit host e := by
  obtain ⟨handled, delivered⟩ := Desk.quiet_iff.mp (idle_iff.mp idle).2
  obtain ⟨e, logged, change, last, ends⟩ := (ReplanInv.reach reach).waits needs
  have remembered : k.desk.auth.replan = some e.seq := by
    rcases ends with he | remembered | ⟨cause, hc⟩
    · rw [delivered] at he
      cases he
    · exact remembered
    · rw [handled] at hc
      cases hc
  exact ⟨e, logged, change, last, remembered, fun causes actor basis cites here covers =>
    completed_moves reach idle needs remembered covers cites (by
      simp [Payload.emittedBy, Payload.emitters, Payload.fromWorld, here])⟩

end exits

/-- No quiescent state is stuck in one of the three statuses. -/
theorem no_status_wedges (host : Host) (session : Session) (runId : String) (k : Kernel)
    (h : Reach (Kernel.step host) anyStep (Kernel.start session runId) k) (idle : k.idle = true) :
    (k.board.pub.status = .awaitingApproval → ∃ card s, k.AwaitsExit host card s) ∧
      (k.board.pub.status = .commitAuthorized → k.CommitExit host) ∧
      (k.board.pub.status = .needsReplan → ∃ e, k.ReplanExit host e) :=
  ⟨awaitsExit h idle, commitExit h idle, replanExit h idle⟩

def queuedRun : Kernel :=
  Kernel.after (hostOf sampleDigests) sampleSession (sampleCall ++ sampleAccept)

/-- The accept line is cut after its first word. -/
def cutRun : Kernel :=
  Kernel.after (hostOf sampleDigests) sampleSession
    (sampleCall ++ sampleAccept ++ blockOf (.floor 0 0) [] 1 ++ blockOf (.heard 0 "Yes") [17] 3)

theorem queuedRun_facts : (queuedRun.idle && queuedRun.board.pub.status = .commitAuthorized) = true := by
  decide +kernel

theorem cutRun_facts : (cutRun.idle && cutRun.board.pub.status = .needsReplan) = true := by
  decide +kernel

theorem no_status_wedges_sample :
    (∃ card s, (cardRun 119999).AwaitsExit (hostOf sampleDigests) card s) ∧
      queuedRun.CommitExit (hostOf sampleDigests) ∧
      ∃ e, cutRun.ReplanExit (hostOf sampleDigests) e := by
  obtain ⟨queued, authorized⟩ := Bool.and_eq_true_iff.mp queuedRun_facts
  obtain ⟨cut, needs⟩ := Bool.and_eq_true_iff.mp cutRun_facts
  have run := no_status_wedges (hostOf sampleDigests) sampleSession "run"
  exact ⟨(run (cardRun 119999) (cardRun_reach 119999) (awaits_facts cardRun_facts).1).1
      (by decide +kernel),
    (run queuedRun (Kernel.reach_after _ _) queued).2.1 (of_decide_eq_true authorized),
    (run cutRun (Kernel.reach_after _ _) cut).2.2 (of_decide_eq_true needs)⟩

end replans

end ProxyLoop
