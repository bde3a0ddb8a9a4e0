import ProxyLoop.Kernel.Coverage
import ProxyLoop.Kernel.Tools

/-!
# Blocks

What a running block still does, and why each of its events may be emitted.  `Block host k todo`
is the invariant of `todo`; it survives the delivery between two events of the block, where only
the Authority writes.
-/

namespace ProxyLoop

open Lib (Dict)

/-! ## Delivery -/

def Payload.silent : Payload → Bool
  | .slowTool .. | .completionDecided _ | .chanHold _ => true
  | _ => false

theorem onEvent_silent {s : Session} {closed : Bool} {bb : Blackboard} {a : Authority} {e : Event}
    (h : e.payload.silent = true) : (a.onEvent s closed bb e).2 = [] := by
  unfold Authority.onEvent
  cases hp : e.payload <;> rw [hp] at h <;> first | rfl | cases h

/-- Nothing that is still to be delivered has a reaction. -/
def Desk.Settling (d : Desk) : Prop :=
  d.handler = [] ∧ ∀ e ∈ d.undelivered, e.payload.silent = true

/-- What the Authority's reactions write: fences, the bump of a relayed revoke, and the moves of a
stale card and of an ended replan. -/
def Payload.reacted : Payload → Prop
  | .authorityFence .. => True
  | .authorityEpoch bump => bump.reason = .f2sRevoke
  | .statusChanged c =>
    c.previous = .awaitingApproval ∧ c.status = .needsReplan ∨
      c.previous = .needsReplan ∧ c.status = .inCall
  | _ => False

theorem Payload.reacted_cases {p : Payload} (h : p.reacted) :
    (∃ op id utt, p = .authorityFence op id utt) ∨ (∃ bump, p = .authorityEpoch bump) ∨
      ∃ c, p = .statusChanged c := by
  cases p <;> first | exact Or.inl ⟨_, _, _, rfl⟩ | exact Or.inr (Or.inl ⟨_, rfl⟩) |
    exact Or.inr (Or.inr ⟨_, rfl⟩) | cases h

theorem reacted_of_move {was next : CaseStatus} {trigger : Trigger}
    (kind : trigger = .approvalStale ∨ trigger = .replan)
    (h : nextStatus was trigger = some next) :
    Payload.reacted (.statusChanged ⟨was, next⟩) := by
  rcases kind with rfl | rfl <;> cases was <;> simp [nextStatus, transitions] at h <;>
    rw [← h] <;> simp [Payload.reacted]

/-- The event was appended to the log of the bus, and the board follows. -/
structure Desk.Appended (d : Desk) (e : Event) (d' : Desk) : Prop where
  log : d'.bus.events = d.bus.events ++ [e]
  applied : apply d.bus.bb e = .ok d'.bus.bb
  seq : e.seq = d.bus.events.length
  causes : ∀ c ∈ e.causes, c < e.seq
  later : d.now ≤ e.tMs
  now : d'.now = e.tMs
  auth : d'.auth = d.auth
  wellFormed : e.wellFormed = true
  checked : e.isDecision = true → checkCauses d.bus.events e = true
  epoch : e.epoch = d.bus.bb.epoch

theorem Desk.appended_of_emit {d d' : Desk} {tMs : Nat} {actor : Actor} {causes : List Nat}
    {p : Payload} (h : d.emit tMs actor causes p = some d') :
    d.Appended (d.bus.next tMs actor causes p) d' ∧
      d'.undelivered = d.undelivered ++ [d.bus.next tMs actor causes p] ∧
      d'.handler = d.handler := by
  obtain ⟨bus, hb, later, rfl⟩ := Desk.emit_eq_some h
  have he := Bus.emitted_of_emit hb
  refine ⟨⟨he.events, he.applied, rfl, fun c hc => ?_, later, rfl, rfl, he.wellFormed, he.causes,
    rfl⟩, rfl, rfl⟩
  have wf := he.wellFormed
  simp only [Event.wellFormed, Bool.and_eq_true, List.all_eq_true, decide_eq_true_eq] at wf
  exact wf.1.1.2 c hc

/-- A step between two outer emits: nothing is written, or a reaction is. -/
inductive Desk.Internal (d : Desk) : Desk → Prop
  | quietly {d' : Desk} (bus : d'.bus = d.bus) (settling : d.Settling → d'.Settling)
      (later : d.now ≤ d'.now) : Internal d d'
  | reacted {d' : Desk} (e : Event) (appended : d.Appended e d') (what : e.payload.reacted)
      (unsettled : ¬ d.Settling) : Internal d d'

theorem Desk.internal_of_react {d d' : Desk} {tMs : Nat} (h : d.react tMs = some d')
    (plain : ∀ r ∈ d.handler, r.plain = true) : d.Internal d' := by
  unfold Desk.react at h
  split at h
  · cases h
  · rename_i actor causes p rest next
    have isPlain := plain _ (next ▸ List.mem_cons_self ..)
    have appended := (Desk.appended_of_emit h).1
    refine .reacted _ ⟨appended.log, appended.applied, appended.seq, appended.causes,
      appended.later, appended.now, appended.auth, appended.wellFormed, appended.checked,
      appended.epoch⟩ ?_ fun hs => by rw [hs.1] at next; cases next
    cases p with
    | authorityFence => trivial
    | authorityEpoch bump =>
      show bump.reason = .f2sRevoke
      simpa [Reaction.plain] using isPlain
    | _ => cases isPlain
  · rename_i trigger cause rest next
    have isPlain := plain _ (next ▸ List.mem_cons_self ..)
    rcases Desk.move_eq_some h with ⟨_, rfl⟩ | ⟨status, legal, emitted⟩
    · refine .quietly rfl (fun hs => ?_) (Nat.le_refl _)
      rw [hs.1] at next
      cases next
    · have appended := (Desk.appended_of_emit emitted).1
      refine .reacted _ ⟨appended.log, appended.applied, appended.seq, appended.causes,
        appended.later, appended.now, appended.auth, appended.wellFormed, appended.checked,
        appended.epoch⟩ (reacted_of_move ?_ legal)
        fun hs => by rw [hs.1] at next; cases next
      simpa [Reaction.plain] using isPlain

theorem Desk.internal_of_deliver {d d' : Desk} (h : d.deliver = some d') : d.Internal d' := by
  unfold Desk.deliver at h
  split at h
  · rename_i e rest hh hu
    cases h
    refine .quietly rfl (fun hs => ?_) (Nat.le_refl _)
    have silent := hs.2 e (hu ▸ List.mem_cons_self ..)
    exact ⟨onEvent_silent silent, fun x hx => hs.2 x (hu ▸ List.mem_cons_of_mem _ hx)⟩
  · cases h

theorem Desk.internal_of_tick {d d' : Desk} {tMs : Nat} (h : d.step (.tick tMs) = some d') :
    d.Internal d' := by
  simp only [Desk.step] at h
  split at h
  · rename_i later
    cases h
    exact .quietly rfl id later
  · cases h

theorem Desk.internal_of_close {d d' : Desk} (h : d.step .close = some d') : d.Internal d' := by
  simp only [Desk.step] at h
  split at h
  · cases h
    exact .quietly rfl id (Nat.le_refl _)
  · cases h

/-! ## Outer emits -/

/-- What writing one event does to the kernel. -/
structure Kernel.Writes (k : Kernel) (p : Payload) (todo : List Task) (e : Event) (k' : Kernel) :
    Prop where
  payload : e.payload = p
  appended : k.desk.Appended e k'.desk
  todo_eq : k'.todo = todo
  lines : k'.lines = k.lines ++ k.spawned p
  floor : k'.floor = k.floor
  fence : FenceInv k.desk → FenceInv k'.desk

/-- What `Kernel.emit` does when it emits. -/
structure Kernel.Emits (k : Kernel) (causes : List Nat) (p : Payload) (todo : List Task)
    (e : Event) (k' : Kernel) : Prop extends k.Writes p todo e k' where
  cites : e.causes = causes
  idle : k.desk.handler = []
  handler : k'.desk.handler = []
  undelivered : k'.desk.undelivered = k.desk.undelivered ++ [e]

theorem Kernel.emits_of_emit {k k' : Kernel} {tMs : Nat} {actor : Actor} {causes : List Nat}
    {p : Payload} {todo : List Task} (h : k.emit tMs actor causes p todo = some k') :
    ∃ e, k.Emits causes p todo e k' := by
  unfold Kernel.emit at h
  obtain ⟨desk, hd, rfl⟩ := Option.map_eq_some_iff.mp h
  have fence : FenceInv k.desk → FenceInv desk := fun inv => inv.step (Desk.stepped hd)
  simp only [Desk.step] at hd
  split at hd
  · rename_i admitted
    obtain ⟨appended, undelivered, handler⟩ := Desk.appended_of_emit hd
    simp only [Bool.or_eq_true, Bool.and_eq_true] at admitted
    have idle : k.desk.handler = [] := by
      rcases admitted with ⟨quiet, _⟩ | held
      · exact (Desk.quiet_iff.mp quiet).1
      · exact (Desk.held_iff.mp held).1
    exact ⟨_, ⟨rfl, appended, rfl, rfl, rfl, fence⟩, rfl, idle, handler.trans idle, undelivered⟩
  · cases hd

theorem Kernel.Emits.settling {k k' : Kernel} {causes : List Nat} {p : Payload}
    {todo : List Task} {e : Event} (em : k.Emits causes p todo e k') (silent : p.silent = true)
    (was : k.desk.Settling) : k'.desk.Settling := by
  refine ⟨em.handler, fun x hx => ?_⟩
  rw [em.undelivered] at hx
  rcases List.mem_append.mp hx with hx | hx
  · exact was.2 x hx
  · rw [List.mem_singleton.mp hx, em.payload]
    exact silent

theorem Desk.settling_of_quiet {d : Desk} (h : d.quiet = true) : d.Settling :=
  ⟨(Desk.quiet_iff.mp h).1, fun e he => by rw [(Desk.quiet_iff.mp h).2] at he; cases he⟩

/-! ## The tasks of a block -/

/-- No accept is in flight. -/
def NoLive (bb : Blackboard) : Prop :=
  ∀ {id c}, bb.capabilities.get? id = some c → isLiveAccept c = false

theorem NoLive.congr {bb b : Blackboard} (h : NoLive bb) (same : b.capabilities = bb.capabilities) :
    NoLive b := fun hc => h (same ▸ hc)

def isDelivery (e : Event) : Bool :=
  match e.payload with
  | .uttDelivered .. => true
  | _ => false

def HeardWhole (log : List Event) : Prop :=
  ∃ r ∈ log, ∃ id, r.payload = .speakReleased .cp (some id) ∧
    ∃ d ∈ log, d.causes = [r.seq] ∧ ∃ utt text, d.payload = .uttDelivered .cp utt text text false

theorem HeardWhole.mono {log log' : List Event} (h : HeardWhole log) (sub : log ⊆ log') :
    HeardWhole log' := by
  obtain ⟨r, hr, id, hp, d, hd, rest⟩ := h
  exact ⟨r, sub hr, id, hp, d, sub hd, rest⟩

/-- The triggers of the moves that concern no accept line. -/
def plainTrigger : Trigger → Bool
  | .approvalDecided | .mandateGranted | .callOpened | .hangUp | .approvalExpired => true
  | _ => false

/-- The move of an accept line that left the floor. -/
def LineMove (log : List Event) (trigger : Trigger) : Prop :=
  trigger = .acceptRevoked ∨ trigger = .acceptTruncated ∨
    trigger = .acceptHeard ∧ HeardWhole log

/-- A payload that may follow whatever the reactions before it wrote. -/
def tailPayload : Payload → Prop
  | .statusChanged c => calmChange c
  | .s2fMsg _ | .mandateProposed _ | .chanBargeIn .. => True
  | _ => False

/-- A task that may run whatever the reactions before it wrote. -/
def TaskOk (k : Kernel) : Task → Prop
  | .bump => True
  | .move trigger =>
    plainTrigger trigger = true ∨ NoLive k.board ∧ k.floor = none ∧ LineMove k.log trigger
  | .emit _ p => tailPayload p

/-- The tasks after an accept was minted: its line, and the status. -/
def Minting (todo : List Task) : Prop :=
  let status : Task := .emit .guard (.statusChanged ⟨.inCall, .commitAuthorized⟩)
  todo = [status] ∨
    ∃ text id, todo = [.emit .guard (.speakVerbatim .cp .accept text (some id) none), status]

/-- Why each task of the block may run. -/
inductive Block (host : Host) (k : Kernel) : List Task → Prop
  | tail {todo : List Task} (ok : ∀ t ∈ todo, TaskOk k t) : Block host k todo
  | called (bb : Blackboard) (events : List Event) (mid : String) (call : ToolCall)
      (same : SameAuthority bb k.board) (before : bb.tMs ≤ k.desk.now)
      (settling : k.desk.Settling) :
      Block host k ((runTool host bb events mid call).effects.map (.emit .guard))
  | minting {todo : List Task} (inCall : k.board.pub.status = .inCall) (mint : Minting todo) :
      Block host k todo
  | judged (c : StatusChanged) (judged : Judged host.py k.board c) (settling : k.desk.Settling) :
      Block host k [.emit .guard (.statusChanged c)]
  | posted (d : Payload) (post : ApprovalPost)
      (decision : (∃ x, d = .approvalDecided x) ∨ ∃ x, d = .mandateDecided x) :
      Block host k (.emit .kernel d :: Kernel.afterDecision post)

theorem TaskOk.mono {k k' : Kernel} {t : Task} (h : TaskOk k t)
    (live : NoLive k.board → NoLive k'.board) (floor : k'.floor = k.floor)
    (log : k.log ⊆ k'.log) : TaskOk k' t := by
  cases t with
  | emit actor p => exact h
  | bump => trivial
  | move trigger =>
    rcases h with plain | ⟨none_live, idle, line⟩
    · exact Or.inl plain
    · refine Or.inr ⟨live none_live, floor.trans idle, ?_⟩
      rcases line with h | h | ⟨h, heard⟩
      · exact Or.inl h
      · exact Or.inr (Or.inl h)
      · exact Or.inr (Or.inr ⟨h, heard.mono log⟩)

theorem taskOk_afterDecision {k : Kernel} {post : ApprovalPost} :
    ∀ t ∈ Kernel.afterDecision post, TaskOk k t := by
  intro t ht
  unfold Kernel.afterDecision at ht
  split at ht
  · rw [List.mem_singleton.mp ht]; exact Or.inl rfl
  · rcases List.mem_cons.mp ht with rfl | ht
    · trivial
    · split at ht
      · rw [List.mem_singleton.mp ht]; exact Or.inl rfl
      · cases ht

theorem SameAuthority.record {bb b : Blackboard} (h : SameAuthority bb b) : SameRecord bb b :=
  ⟨h.offers, h.mandate, h.approvals, h.capabilities, h.evidence⟩

theorem Block.quietly {host : Host} {k k' : Kernel} {todo : List Task} (h : Block host k todo)
    (bus : k'.desk.bus = k.desk.bus) (floor : k'.floor = k.floor)
    (settling : k.desk.Settling → k'.desk.Settling) (later : k.desk.now ≤ k'.desk.now) :
    Block host k' todo := by
  have board : k'.board = k.board := by rw [Kernel.board, bus]
  have log : k'.log = k.log := by rw [Kernel.log, bus]
  cases h with
  | tail ok =>
    exact .tail fun t ht => (ok t ht).mono (fun h => h.congr (by rw [board])) floor
      (by rw [log]; exact fun _ h => h)
  | called bb events mid call same before settled =>
    exact .called bb events mid call (board ▸ same) (before.trans later) (settling settled)
  | minting inCall mint => exact .minting (by rw [board]; exact inCall) mint
  | judged c judged settled => exact .judged c (by rw [board]; exact judged) (settling settled)
  | posted d post decision => exact .posted d post decision

/-- A reaction was written, or the end of a hold: the block stands. -/
theorem Block.written {host : Host} {k k' : Kernel} {todo : List Task} {e : Event}
    (h : Block host k todo) (appended : k.desk.Appended e k'.desk) (floor : k'.floor = k.floor)
    (what : e.payload.reacted ∧ ¬ k.desk.Settling ∨
      e.payload.isQuiet = true ∧ (k.desk.Settling → k'.desk.Settling)) :
    Block host k' todo := by
  have log : k.log ⊆ k'.log := by
    rw [Kernel.log, Kernel.log, appended.log]; exact List.subset_append_left ..
  have capless : e.payload.movesCap = false := by
    rcases what with ⟨what, _⟩ | ⟨quiet, _⟩
    · rcases Payload.reacted_cases what with ⟨_, _, _, hp⟩ | ⟨_, hp⟩ | ⟨_, hp⟩ <;> rw [hp] <;> rfl
    · cases hp : e.payload <;> rw [hp] at quiet <;> try rfl
      all_goals
        rename_i o
        first | (cases o; rfl; cases quiet) | cases quiet
  have caps := capabilities_of_apply appended.applied capless
  have inCall : k.board.pub.status = .inCall → k'.board.pub.status = .inCall := fun hs => by
    cases hm : e.payload.movesStatus with
    | false => rw [Kernel.board, status_of_apply appended.applied hm]; exact hs
    | true =>
      cases hp : e.payload <;> rw [hp] at hm <;> try cases hm
      rename_i c
      obtain ⟨was, _, _⟩ := status_of_changed appended.applied hp
      rcases what with ⟨what, _⟩ | ⟨quiet, _⟩
      · rw [hp] at what
        rw [show k.desk.bus.bb.pub.status = .inCall from hs] at was
        rcases what with ⟨hw, _⟩ | ⟨hw, _⟩ <;> rw [was] at hw <;> cases hw
      · rw [hp] at quiet; cases quiet
  cases h with
  | tail ok => exact .tail fun t ht => (ok t ht).mono (fun h => h.congr caps) floor log
  | called bb events mid call same before settled =>
    rcases what with ⟨_, unsettled⟩ | ⟨quiet, settling⟩
    · exact absurd settled unsettled
    · exact .called bb events mid call (same.trans (sameAuthority_of_apply appended.applied quiet))
        (by rw [appended.now]; exact before.trans appended.later) (settling settled)
  | minting was mint => exact .minting (inCall was) mint
  | judged c judged settled =>
    rcases what with ⟨_, unsettled⟩ | ⟨quiet, settling⟩
    · exact absurd settled unsettled
    · exact .judged c (judged.congr (sameAuthority_of_apply appended.applied quiet).record)
        (settling settled)
  | posted d post decision => exact .posted d post decision

end ProxyLoop
