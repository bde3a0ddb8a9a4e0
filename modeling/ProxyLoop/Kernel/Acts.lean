import ProxyLoop.Kernel.Runs

/-!
# What a step of the kernel is

`Begins host k k₀ p todo` says which event a step may write, from which kernel, and what its block
does after it; `Taken` adds the steps that write nothing of their own.  The invariants of a run that
are not about capabilities are case analyses over it.
-/

namespace ProxyLoop

open Lib (Dict Reach)

namespace Kernel

/-- What a step emits: `k₀` is the kernel it emits from, `todo` what its block does after it. -/
inductive Begins (host : Host) (k : Kernel) : Kernel → Payload → List Task → Prop
  | world (p : Payload) (what : p.isHold = true ∨ k.todo = [] ∧ ∃ causes, k.free causes p = true) :
      Begins host k k p k.todo
  | tool (call : ToolCall) (idle : k.idle = true) :
      Begins host k { k with mandates := if call.proposes then k.mandates + 1 else k.mandates }
        (.slowTool call.name (runTool host k.bb k.log k.nextMandate call).text
          (runTool host k.bb k.log k.nextMandate call).ok)
        ((runTool host k.bb k.log k.nextMandate call).effects.map (.emit .guard))
  | readback (ref : String) (o : OfferPublic) (statuses : Dict String SlotStatus) (r : Readback)
      (idle : k.idle = true) (found : k.board.pub.offers.get? ref = some o)
      (update : readbackUpdate host.py o statuses = .ok r) :
      Begins host k k (.readbackUpdated r) []
  | denied (post : ApprovalPost) (by_ : Approver) (reason : String) (idle : k.idle = true)
      (refused : decide k.bb post by_ = .error (.denied reason)) :
      Begins host k k (.actionDenied "approval.post" reason) []
  | posted (post : ApprovalPost) (by_ : Approver) (d : Payload) (idle : k.idle = true)
      (allowed : decide k.bb post by_ = .ok d) :
      Begins host k k (.approvalPost post) (.emit .kernel d :: afterDecision post)
  | revoked (i : Nat) (q : Waiting) (reason : String) (idle : k.idle = true)
      (free : k.floor = none) (line : k.lines[i]? = some q) :
      Begins host k { k with lines := k.lines.eraseIdx i } (.speakRevoked .cp reason q.cap)
        (if q.kind = VerbatimKind.accept then [.move .acceptRevoked] else [])
  | released (i : Nat) (q : Waiting) (idle : k.idle = true) (free : k.floor = none)
      (line : k.lines[i]? = some q) :
      Begins host k { k with lines := k.lines.eraseIdx i, floor := some (q, k.log.length) }
        (.speakReleased .cp q.cap) []
  | heard (q : Waiting) (seq : Nat) (said : String) (idle : k.idle = true)
      (onFloor : k.floor = some (q, seq)) :
      Begins host k { k with floor := none }
        (.uttDelivered .cp (kindText q.kind ++ "-" ++ toString q.seq) q.text said (said ≠ q.text))
        (afterDelivery q said)
  | opened (idle : k.idle = true) :
      Begins host k { k with opened := true } (.chanOpened .cp) [.move .callOpened]
  | task (actor : Actor) (p : Payload) (rest : List Task) (quiet : k.desk.quiet = true)
      (next : k.todo = .emit actor p :: rest) : Begins host k k p rest
  | bump (rest : List Task) (quiet : k.desk.quiet = true) (next : k.todo = .bump :: rest) :
      Begins host k k (.authorityEpoch (.next k.board.epoch .mandateDecided)) rest
  | move (trigger : Trigger) (status : CaseStatus) (rest : List Task)
      (quiet : k.desk.quiet = true) (next : k.todo = .move trigger :: rest)
      (legal : nextStatus k.board.pub.status trigger = some status) :
      Begins host k k (.statusChanged ⟨k.board.pub.status, status⟩) rest

inductive Taken (host : Host) (k : Kernel) : Kernel → Prop
  | internally (a : DeskAct) (d : Desk) (own : ∀ t actor causes p, a ≠ .env t actor causes p)
      (stepped : k.desk.step a = some d) : Taken host k { k with desk := d }
  | emitted {k₀ k' : Kernel} {causes : List Nat} {p : Payload} {todo : List Task} {e : Event}
      (begins : Begins host k k₀ p todo) (em : k₀.Emits causes p todo e k')
      (frame : k'.mandates = k₀.mandates ∧ k'.opened = k₀.opened ∧ k'.fired = k₀.fired) :
      Taken host k k'
  | waits (i : Nat) (q : Waiting) (users : Nat) (line : k.lines[i]? = some q) :
      Taken host k { k with lines := k.lines.set i { q with users := some users } }
  | hangsUp (idle : k.idle = true) : Taken host k { k with todo := [.move .hangUp] }
  | expires (seq : Nat) (card : ApprovalCard) (idle : k.idle = true)
      (timer : k.desk.auth.timers.find? (·.1 = seq) = some (seq, card))
      (due : card.expiresMs ≤ (k.desk.now : Int)) (unfired : seq ∉ k.fired) :
      Taken host k { k with
        fired := seq :: k.fired
        todo := if k.board.priv.pendingApproval = some card then [.move .approvalExpired] else [] }
  | skips (trigger : Trigger) (rest : List Task) (quiet : k.desk.quiet = true)
      (next : k.todo = .move trigger :: rest)
      (illegal : nextStatus k.board.pub.status trigger = none) : Taken host k { k with todo := rest }

section inversion

variable {host : Host} {k k' k₀ : Kernel} {tMs : Nat} {actor : Actor} {causes : List Nat}
  {p : Payload} {todo : List Task}

theorem emit_frame (h : k.emit tMs actor causes p todo = some k') :
    k'.mandates = k.mandates ∧ k'.opened = k.opened ∧ k'.fired = k.fired := by
  unfold Kernel.emit at h
  obtain ⟨desk, -, rfl⟩ := Option.map_eq_some_iff.mp h
  exact ⟨rfl, rfl, rfl⟩

theorem Begins.taken (begins : Begins host k k₀ p todo)
    (h : k₀.emit tMs actor causes p todo = some k') : Taken host k k' := by
  obtain ⟨e, em⟩ := emits_of_emit h
  exact .emitted begins em (emit_frame h)

theorem taken_of_internal {a : DeskAct} (own : ∀ t actor causes p, a ≠ .env t actor causes p)
    (h : k.internal a = some k') : Taken host k k' := by
  obtain ⟨d, hd, rfl⟩ := Option.map_eq_some_iff.mp h
  exact .internally a d own hd

theorem taken_of_readback {ref : String} {statuses : Dict String SlotStatus}
    (idle : k.idle = true) (h : k.readback host tMs causes ref statuses = some k') :
    Taken host k k' := by
  unfold readback at h
  split at h
  · cases h
  · rename_i o found
    split at h
    · cases h
    · split at h
      · cases h
      · rename_i r update
        exact (Begins.readback ref o statuses r idle found update).taken h

theorem taken_of_post {post : ApprovalPost} {by_ : Approver} (idle : k.idle = true)
    (h : k.decidePost tMs causes post by_ = some k') : Taken host k k' := by
  unfold decidePost at h
  split at h
  · rename_i reason refused
    exact (Begins.denied post by_ reason idle refused).taken h
  · cases h
  · rename_i d allowed
    exact (Begins.posted post by_ d idle allowed).taken h

theorem taken_of_floor {i : Nat} (idle : k.idle = true)
    (h : k.takeFloor host tMs i = some k') : Taken host k k' := by
  unfold takeFloor at h
  split at h
  · rename_i q free line
    dsimp only at h
    split at h
    · cases h
      exact .waits i q _ line
    · rename_i reason _
      exact (Begins.revoked i q reason idle free line).taken h
    · exact (Begins.released i q idle free line).taken h
  · cases h

theorem taken_of_heard {said : String} (idle : k.idle = true)
    (h : k.hearLine tMs said = some k') : Taken host k k' := by
  unfold hearLine at h
  split at h
  · cases h
  · rename_i q seq onFloor
    split at h
    · exact (Begins.heard q seq said idle onFloor).taken h
    · cases h

theorem taken_of_expire {seq : Nat} (idle : k.idle = true) (h : k.expireCard seq = some k') :
    Taken host k k' := by
  unfold expireCard at h
  split at h
  · cases h
  · rename_i s card timer
    split at h
    · cases h
    · rename_i due
      cases h
      have own : s = seq := by simpa using List.find?_some timer
      subst own
      simp only [not_or, Int.not_lt] at due
      exact .expires s card idle timer due.1 due.2

theorem taken_of_next (quiet : k.desk.quiet = true) (h : k.runNext tMs causes = some k') :
    Taken host k k' := by
  unfold runNext at h
  split at h
  · cases h
  · rename_i actor p rest next
    exact (Begins.task actor p rest quiet next).taken h
  · rename_i rest next
    exact (Begins.bump rest quiet next).taken h
  · rename_i trigger rest next
    split at h
    · rename_i illegal
      cases h
      exact .skips trigger rest quiet next illegal
    · rename_i status legal
      exact (Begins.move trigger status rest quiet next legal).taken h

theorem internal_of_own {a : DeskAct} {d d' : Desk}
    (own : ∀ t actor causes p, a ≠ .env t actor causes p) (plain : ∀ r ∈ d.handler, r.plain = true)
    (h : d.step a = some d') : d.Internal d' := by
  cases a with
  | tick t => exact Desk.internal_of_tick h
  | react t => exact Desk.internal_of_react h plain
  | deliver => exact Desk.internal_of_deliver h
  | close => exact Desk.internal_of_close h
  | env t actor causes p => exact absurd rfl (own t actor causes p)

/-- Inversion of a step. -/
theorem taken_of_step {a : Act} (h : k.step host a = some k') : Taken host k k' := by
  cases a with
  | tick t => exact taken_of_internal (by simp) h
  | react t => exact taken_of_internal (by simp) h
  | deliver => exact taken_of_internal (by simp) h
  | closing =>
    simp only [step] at h
    split at h
    · exact taken_of_internal (by simp) h
    · cases h
  | world t actor causes p =>
    simp only [step] at h
    split at h
    · rename_i what
      simp only [Bool.or_eq_true, Bool.and_eq_true, List.isEmpty_iff] at what
      exact (Begins.world p (what.imp_right fun w => ⟨w.1, causes, w.2⟩)).taken h
    · cases h
  | tool t causes call =>
    simp only [step] at h
    split at h
    · rename_i idle
      exact (Begins.tool call idle).taken h
    · cases h
  | readback t causes ref statuses =>
    simp only [step] at h
    split at h
    · exact taken_of_readback ‹_› h
    · cases h
  | post t causes post by_ =>
    simp only [step] at h
    split at h
    · exact taken_of_post ‹_› h
    · cases h
  | floor t i =>
    simp only [step] at h
    split at h
    · exact taken_of_floor ‹_› h
    · cases h
  | heard t said =>
    simp only [step] at h
    split at h
    · exact taken_of_heard ‹_› h
    · cases h
  | openCall t causes =>
    simp only [step] at h
    split at h
    · rename_i idle
      exact (Begins.opened (Bool.and_eq_true_iff.mp idle).1).taken h
    · cases h
  | hangUp =>
    simp only [step] at h
    split at h
    · cases h
      exact .hangsUp ‹_›
    · cases h
  | expire seq =>
    simp only [step] at h
    split at h
    · exact taken_of_expire ‹_› h
    · cases h
  | next t causes =>
    simp only [step] at h
    split at h
    · exact taken_of_next ‹_› h
    · cases h

theorem Begins.desk (begins : Begins host k k₀ p todo) : k₀.desk = k.desk := by
  cases begins <;> rfl

theorem Begins.log (begins : Begins host k k₀ p todo) : k₀.log = k.log :=
  congrArg (·.bus.events) begins.desk

/-- A step writes nothing, or appends one event. -/
theorem Taken.wrote (taken : Taken host k k') (plain : ∀ r ∈ k.desk.handler, r.plain = true) :
    k'.desk.bus = k.desk.bus ∨ ∃ e, k.desk.Appended e k'.desk := by
  cases taken with
  | internally a d own stepped =>
    cases internal_of_own own plain stepped with
    | quietly bus => exact Or.inl bus
    | reacted e appended => exact Or.inr ⟨e, appended⟩
  | emitted begins em => exact Or.inr ⟨_, begins.desk ▸ em.appended⟩
  | _ => exact Or.inl rfl

end inversion

end Kernel

/-- Every event of a run has passed the checks of the bus, and carries the epoch it found. -/
def Stamped (log : List Event) : Prop :=
  Lib.Each (fun before e => e.seq = before.length ∧ (∀ c ∈ e.causes, c < e.seq) ∧
    e.wellFormed = true ∧ (e.isDecision = true → checkCauses before e = true) ∧
    ∃ b, fold before = .ok b ∧ e.epoch = b.epoch ∧ b.tMs ≤ e.tMs) log

theorem stamped_reach {host : Host} {k : Kernel} {ok : Kernel → Kernel.Act → Prop}
    {session : Session} {runId : String}
    (h : Reach (Kernel.step host) ok (Kernel.start session runId) k) : Stamped k.log := by
  refine h.invariant (I := fun k : Kernel => Stamped k.log) (Lib.each_nil _)
    fun {k a k'} hr stamped _ hs => ?_
  have inv := KernelInv.reach hr
  rcases (Kernel.taken_of_step hs).wrote inv.fence.plain with bus | ⟨e, appended⟩
  · rw [show k'.log = k.log from congrArg Bus.events bus]
    exact stamped
  · rw [show k'.log = k.log ++ [e] from appended.log]
    exact Lib.each_snoc.mpr ⟨stamped, appended.seq, appended.causes, appended.wellFormed,
      appended.checked, k.board, inv.fence.sound.fold, appended.epoch,
      inv.clock.trans appended.later⟩

end ProxyLoop
