import ProxyLoop.Kernel.Blocks

/-!
# Where each event of a run comes from

`Provenance` classifies the events of a kernel run by what their emitter had established; the
kernel's invariant carries it from the block that evaluated to the event it emits.  What a run
released, granted or closed is a case analysis over it.
-/

namespace ProxyLoop

open Lib (Dict)

/-- The delivery of a released line, its first. -/
def LineHeard (log : List Event) (e : Event) : Prop :=
  ∃ r ∈ log, ∃ id, r.payload = .speakReleased .cp (some id) ∧ e.causes = [r.seq] ∧
    ∀ d ∈ log, isDelivery d = true → r.seq ∉ d.causes

structure StatusOk (host : Host) (bb : Blackboard) (log : List Event) (c : StatusChanged) :
    Prop where
  committed : c.status = .committed → HeardWhole log
  left : c.previous = .commitAuthorized → c.status ≠ .abandoned → NoLive bb
  complete : c.status = .verifiedComplete →
    ∃ d, verifyCompletion host.py bb = .ok d ∧ d.verdict = .ok
  noDeal : c.status = .verifiedNoDeal →
    ∃ heard d, verifyNoDeal host.py bb heard = .ok d ∧ d.verdict = .ok

/-- What the emitter of `e` had established, on the board and the log before it. -/
inductive Provenance (host : Host) (bb : Blackboard) (log : List Event) (e : Event) : Prop
  | quiet (hp : e.payload.isQuiet = true) (other : isDelivery e = false)
  | delivered (hp : isDelivery e = true)
      (line : (∀ r ∈ log, r.payload.releasesCap = true → r.seq ∉ e.causes) ∨ LineHeard log e)
  | offer (ref : String) (revision : Nat) (slots : List ReadbackSlot) (expiresMs : Option Int)
      (hp : e.payload = .offerRecorded ref revision slots expiresMs)
  | readback (ref : String) (r : Readback) (o : OfferPublic) (hp : e.payload = .readbackUpdated r)
      (found : bb.pub.offers.get? ref = some o)
      (update : readbackUpdate host.py o r.slotStatuses = .ok r)
  | fence (op : FenceOp) (fenceId uttId : String) (hp : e.payload = .authorityFence op fenceId uttId)
  | epoch (bump : EpochBump) (hp : e.payload = .authorityEpoch bump)
  | status (c : StatusChanged) (hp : e.payload = .statusChanged c)
      (ok : StatusOk host bb log c)
  | completion (d : CompletionDecision) (hp : e.payload = .completionDecided d)
  | proposed (p : MandateProposal) (hp : e.payload = .mandateProposed p)
  | mandate (d : MandateDecided) (hp : e.payload = .mandateDecided d)
  | requested (ref : String) (card : ApprovalCard) (hp : e.payload = .approvalRequested card)
      (was : Blackboard) (same : SameAuthority was bb)
      (ok : requestApproval host.py was ref host.case_ = .ok card)
  | decided (d : ApprovalDecided) (hp : e.payload = .approvalDecided d)
  | minted (ref : String) (cap : Capability) (text : String)
      (hp : e.payload = .actionAuthorized ⟨.acceptOffer, cap⟩) (was : Blackboard)
      (same : SameAuthority was bb) (before : was.tMs ≤ e.tMs)
      (ok : acceptOffer host.py was ref host.case_ = .ok (cap, text))
  | acceptLine (text id : String)
      (hp : e.payload = .speakVerbatim .cp .accept text (some id) none)
  | declineLine (text ref : String)
      (hp : e.payload = .speakVerbatim .cp .decline text none (some ref))
  | otherLine (lane : Lane) (text : String)
      (hp : e.payload = .speakVerbatim lane .other text none none)
  | released (id : String) (hp : e.payload = .speakReleased .cp (some id))
  | revoked (reason id : String) (hp : e.payload = .speakRevoked .cp reason (some id))
  | evidence (conf : String) (binding : LedgerBinding) (hash : Option String)
      (hp : e.payload = .evidenceRecorded (ledgerEvidence conf hash)) (was : Blackboard)
      (same : SameAuthority was bb) (bound : boundHash host.py was binding = .ok hash)

/-! ## The invariant of the kernel -/

def awaitsLine (s : CaseStatus) : Prop := s = .commitAuthorized ∨ s = .abandoned

/-- A line on the floor: it was released and not heard yet, and no other accept is in flight. -/
structure OnFloor (k : Kernel) (q : Waiting) (n : Nat) : Prop where
  released : ∃ r ∈ k.log, r.seq = n ∧ r.payload = .speakReleased .cp q.cap
  unheard : q.cap ≠ none → ∀ d ∈ k.log, isDelivery d = true → n ∉ d.causes
  accept : q.kind = .accept →
    q.cap ≠ none ∧ NoLive k.board ∧ awaitsLine k.board.pub.status

structure KernelInv (host : Host) (k : Kernel) : Prop where
  fence : FenceInv k.desk
  block : Block host k k.todo
  /-- only `accept_offer` is ever authorized -/
  intents : ∀ {id c}, k.board.capabilities.get? id = some c → c.intent = .acceptOffer
  /-- an accept in flight: its line waits, or it was just minted -/
  live : ∀ {id c}, k.board.capabilities.get? id = some c → isLiveAccept c = true →
    awaitsLine k.board.pub.status ∨ k.board.pub.status = .inCall ∧ Minting k.todo
  lines : ∀ q ∈ k.lines, q.kind = .accept → q.cap ≠ none
  floor : ∀ {q n}, k.floor = some (q, n) → OnFloor k q n
  causes : ∀ e ∈ k.log, ∀ c ∈ e.causes, c < e.seq
  clock : k.board.tMs ≤ k.desk.now

inductive Wrote (host : Host) (k k' : Kernel) : Prop
  | nothing (log : k'.log = k.log) (board : k'.board = k.board)
  | event (e : Event) (log : k'.log = k.log ++ [e]) (applied : apply k.board e = .ok k'.board)
      (seq : e.seq = k.log.length) (origin : Provenance host k.board k.log e)

section step

variable {host : Host} {k k' : Kernel} {e : Event} {causes : List Nat} {p : Payload}
  {todo : List Task}

theorem KernelInv.law (inv : KernelInv host k) : CapabilityLaw k.board :=
  capabilityLaw_of_fold inv.fence.sound.fold

/-- Only a release or a revocation takes the accept in flight; only a mint starts one. -/
theorem isLive_of_apply {bb bb' : Blackboard} (law : CapabilityLaw bb)
    (h : apply bb e = .ok bb') {id : String} {c : Capability}
    (found : bb'.capabilities.get? id = some c) (live : isLiveAccept c = true) :
    bb.capabilities.get? id = some c ∨ ∃ a, e.payload = .actionAuthorized a := by
  cases capabilityOrigin_of_apply law h found with
  | kept was => exact Or.inl was
  | released was unused => simp [isLiveAccept] at live
  | minted a hp => exact Or.inr ⟨a, hp⟩

theorem NoLive.apply {bb bb' : Blackboard} (law : CapabilityLaw bb) (none_live : NoLive bb)
    (h : apply bb e = .ok bb') (unminted : ∀ a, e.payload ≠ .actionAuthorized a) :
    NoLive bb' := by
  intro id c hc
  by_contra live
  rw [Bool.not_eq_false] at live
  rcases isLive_of_apply law h hc live with was | ⟨a, hp⟩
  · rw [none_live was] at live; cases live
  · exact unminted a hp

/-- After the release or the revocation of an accept, none is in flight. -/
theorem noLive_of_used {bb bb' : Blackboard} (law : CapabilityLaw bb)
    (intents : ∀ {id c}, bb.capabilities.get? id = some c → c.intent = .acceptOffer)
    (h : apply bb e = .ok bb') {id : String} (used : e.releases id ∨ e.revokes id) :
    NoLive bb' := by
  intro id' c hc
  by_contra live
  rw [Bool.not_eq_false] at live
  rcases isLive_of_apply law h hc live with was | ⟨a, hp⟩
  · have key : ∀ c₀, bb.capabilities.get? id = some c₀ → c₀.consumed = false → id' = id :=
      fun c₀ h₀ hu => law.alone was h₀ live (by simp [isLiveAccept, intents h₀, hu])
    rcases used with rel | rev
    · obtain ⟨c₀, h₀, hu, after⟩ := released_get? law h rel
      have := key c₀ h₀ hu
      subst this
      rw [hc] at after
      cases after
      simp [isLiveAccept] at live
    · obtain ⟨⟨c₀, h₀, hu⟩, after⟩ := revoked_get? law h rev
      have := key c₀ h₀ hu
      subst this
      rw [hc] at after
      cases after
  · rcases used with ⟨lane, hp'⟩ | ⟨lane, reason, hp'⟩ <;> rw [hp] at hp' <;> cases hp'

/-- A mint is Guard's `accept_offer`. -/
theorem accept_of_minted {bb : Blackboard} {log : List Event} (origin : Provenance host bb log e)
    {a : ActionAuthorized} (hp : e.payload = .actionAuthorized a) :
    ∃ ref cap text was, a = ⟨.acceptOffer, cap⟩ ∧ SameAuthority was bb ∧ was.tMs ≤ e.tMs ∧
      acceptOffer host.py was ref host.case_ = .ok (cap, text) := by
  cases origin with
  | minted ref cap text hp' was same before ok =>
    rw [hp] at hp'
    cases hp'
    exact ⟨ref, cap, text, was, rfl, same, before, ok⟩
  | quiet hq => rw [hp] at hq; cases hq
  | delivered hq => simp [isDelivery, hp] at hq
  | _ => simp_all

/-- What one emit of a block must respect for the invariant to be kept. -/
structure Respects (k k₀ : Kernel) (p : Payload) (e : Event) (todo : List Task) : Prop where
  desk : k₀.desk = k.desk
  lines : ∀ q ∈ k₀.lines, q ∈ k.lines
  /-- a mint block goes on to its status -/
  mint : k.board.pub.status = .inCall → Minting k.todo → Minting todo ∧ p.movesStatus = false ∨
    p = .statusChanged ⟨.inCall, .commitAuthorized⟩
  minted : ∀ a, p = .actionAuthorized a → Minting todo
  /-- the line on the floor stays, or takes it with this release -/
  floor : ∀ {q n}, k₀.floor = some (q, n) → k.floor = some (q, n) ∨
    ¬ Minting k.todo ∧ n = k.log.length ∧ p = .speakReleased .cp q.cap ∧ q ∈ k.lines
  /-- its status changes after it left the floor -/
  left : ∀ c, p = .statusChanged c → c.previous = .commitAuthorized → c.status ≠ .abandoned →
    k₀.floor = none
  heard : isDelivery e = true → LineHeard k.log e → k₀.floor = none

theorem movesStatus_eq_true {p : Payload} (h : p.movesStatus = true) :
    ∃ c, p = .statusChanged c := by
  cases p <;> first | exact ⟨_, rfl⟩ | cases h

theorem statusOk_of_origin {bb : Blackboard} {log : List Event}
    (origin : Provenance host bb log e) {c : StatusChanged} (hp : e.payload = .statusChanged c) :
    StatusOk host bb log c := by
  cases origin with
  | status c' hp' ok => rw [hp] at hp'; cases hp'; exact ok
  | quiet hq => rw [hp] at hq; cases hq
  | delivered hq => simp [isDelivery, hp] at hq
  | _ => simp_all

/-- An accept line that waits: its status is kept, left by the case being abandoned, or left with
no accept in flight. -/
theorem awaitsLine_of_apply {b : Blackboard} (origin : Provenance host k.board k.log e)
    (h : apply k.board e = .ok b) (waits : awaitsLine k.board.pub.status) :
    awaitsLine b.pub.status ∨ NoLive k.board ∧
      ∃ c, e.payload = .statusChanged c ∧ c.previous = .commitAuthorized ∧
        c.status ≠ .abandoned := by
  cases hm : e.payload.movesStatus with
  | false => rw [status_of_apply h hm]; exact Or.inl waits
  | true =>
    obtain ⟨c, hp⟩ := movesStatus_eq_true hm
    obtain ⟨was, now, live⟩ := status_of_changed h hp
    have was : c.previous = .commitAuthorized := by
      rcases waits with w | w
      · exact was.trans w
      · rw [w] at live; cases live
    by_cases ab : c.status = .abandoned
    · exact Or.inl (Or.inr (now.trans ab))
    · exact Or.inr ⟨(statusOk_of_origin origin hp).left was ab, c, hp, was, ab⟩

theorem inCall_of_minted (origin : Provenance host k.board k.log e) {a : ActionAuthorized}
    (hp : e.payload = .actionAuthorized a) : k.board.pub.status = .inCall := by
  obtain ⟨ref, cap, text, was, rfl, same, before, ok⟩ := accept_of_minted origin hp
  obtain ⟨o, t, g, accept, -⟩ := acceptOffer_eq_ok ok
  exact same.status.trans accept.inCall

theorem cap_of_spawned (origin : Provenance host k.board k.log e) {k₀ : Kernel}
    {q : Waiting} (h : q ∈ k₀.spawned e.payload) (accept : q.kind = .accept) : q.cap ≠ none := by
  cases hp : e.payload <;> rw [hp] at h <;> try cases h
  rename_i lane kind text cap ref
  simp only [Kernel.spawned] at h
  split at h
  · cases h
  · rw [List.mem_singleton.mp h] at accept ⊢
    dsimp only at accept ⊢
    subst accept
    cases origin with
    | acceptLine text id hp' => rw [hp] at hp'; cases hp'; simp
    | quiet hq => rw [hp] at hq; cases hq
    | delivered hq => simp [isDelivery, hp] at hq
    | _ => simp_all

theorem OnFloor.kept {q : Waiting} {n : Nat} (on : OnFloor k q n)
    (appended : k.desk.Appended e k'.desk) (inv : KernelInv host k)
    (origin : Provenance host k.board k.log e) (unheard : isDelivery e = true → ¬ LineHeard k.log e)
    (stays : ∀ c, e.payload = .statusChanged c → c.previous = .commitAuthorized →
      c.status = .abandoned) : OnFloor k' q n := by
  have grows : k.log ⊆ k'.log := by
    rw [Kernel.log, Kernel.log, appended.log]; exact List.subset_append_left ..
  obtain ⟨r, hr, hn, hp⟩ := on.released
  refine ⟨⟨r, grows hr, hn, hp⟩, ?_, ?_⟩
  · intro hcap d hd deliv
    rw [Kernel.log, appended.log] at hd
    rcases List.mem_append.mp hd with hd | hd
    · exact on.unheard hcap d hd deliv
    · rw [List.mem_singleton.mp hd] at deliv ⊢
      cases origin with
      | delivered hp' line =>
        rcases line with line | line
        · rw [← hn]
          refine line r hr ?_
          rw [hp]
          cases hc : q.cap with
          | none => exact absurd hc hcap
          | some id => rfl
        · exact absurd line (unheard deliv)
      | quiet _ other => rw [deliv] at other; cases other
      | _ => simp_all [isDelivery]
  · intro accept
    obtain ⟨hcap, none_live, waits⟩ := on.accept accept
    refine ⟨hcap, ?_, ?_⟩
    · refine none_live.apply inv.law appended.applied fun a ha => ?_
      have inCall := inCall_of_minted origin ha
      rcases waits with w | w <;> rw [w] at inCall <;> cases inCall
    · rcases awaitsLine_of_apply origin appended.applied waits with w | ⟨_, c, hp, was, ab⟩
      · exact w
      · exact absurd (stays c hp was) ab

theorem onFloor_of_release {q : Waiting} {n : Nat} (appended : k.desk.Appended e k'.desk)
    (inv : KernelInv host k) (idle : ¬ Minting k.todo) (here : n = k.log.length)
    (hp : e.payload = .speakReleased .cp q.cap) (mem : q ∈ k.lines) : OnFloor k' q n := by
  refine ⟨⟨e, ?_, appended.seq.trans here.symm, hp⟩, ?_, ?_⟩
  · rw [Kernel.log, appended.log]; simp
  · intro hcap d hd deliv cited
    rw [Kernel.log, appended.log] at hd
    rcases List.mem_append.mp hd with hd | hd
    · have h1 := inv.causes d hd n cited
      have h2 := inv.fence.sound.seq_lt hd
      rw [here, Kernel.log] at h1
      omega
    · rw [List.mem_singleton.mp hd] at deliv
      simp [isDelivery, hp] at deliv
  · intro accept
    have hcap := inv.lines q mem accept
    obtain ⟨id, hid⟩ := Option.ne_none_iff_exists'.mp hcap
    have rel : e.releases id := ⟨.cp, by rw [hp, hid]⟩
    refine ⟨hcap, noLive_of_used inv.law inv.intents appended.applied (Or.inl rel), ?_⟩
    obtain ⟨c, hc, hu, _⟩ := released_get? inv.law appended.applied rel
    have same : k'.board.pub.status = k.board.pub.status :=
      status_of_apply appended.applied (by rw [hp]; rfl)
    rw [same]
    rcases inv.live hc (by simp [isLiveAccept, inv.intents hc, hu]) with w | ⟨_, mint⟩
    · exact w
    · exact absurd mint idle

theorem KernelInv.emits {k₀ : Kernel} (inv : KernelInv host k) (em : k₀.Writes p todo e k')
    (block : Block host k' todo) (origin : Provenance host k.board k.log e)
    (respects : Respects k k₀ p e todo) : KernelInv host k' := by
  have appended : k.desk.Appended e k'.desk := respects.desk ▸ em.appended
  have payload := em.payload
  constructor
  · exact em.fence (respects.desk ▸ inv.fence)
  · rw [em.todo_eq]; exact block
  · intro id c hc
    cases capabilityOrigin_of_apply inv.law appended.applied hc with
    | kept was => exact inv.intents was
    | released was => have := inv.intents was; exact this
    | minted a hp intent =>
      obtain ⟨_, _, _, _, rfl, _⟩ := accept_of_minted origin hp
      exact intent
  · intro id c hc live
    rcases isLive_of_apply inv.law appended.applied hc live with was | ⟨a, hp⟩
    · rcases inv.live was live with waits | ⟨inCall, minting⟩
      · rcases awaitsLine_of_apply origin appended.applied waits with w | ⟨none_live, _⟩
        · exact Or.inl w
        · rw [none_live was] at live; cases live
      · rcases respects.mint inCall minting with ⟨minting, still⟩ | hp
        · refine Or.inr ⟨?_, em.todo_eq ▸ minting⟩
          rw [Kernel.board, status_of_apply appended.applied (by rw [payload]; exact still)]
          exact inCall
        · exact Or.inl (Or.inl (status_of_changed appended.applied (payload.trans hp)).2.1)
    · refine Or.inr ⟨?_, em.todo_eq ▸ respects.minted a (payload ▸ hp)⟩
      rw [Kernel.board, status_of_apply appended.applied (by rw [hp]; rfl)]
      exact inCall_of_minted origin hp
  · intro q hq accept
    rw [em.lines] at hq
    rcases List.mem_append.mp hq with hq | hq
    · exact inv.lines q (respects.lines q hq) accept
    · exact cap_of_spawned origin (payload ▸ hq) accept
  · intro q n hf
    rw [em.floor] at hf
    rcases respects.floor hf with was | ⟨idle, here, hp, mem⟩
    · refine (inv.floor was).kept appended inv origin (fun hd h => ?_) fun c hp hprev => ?_
      · rw [respects.heard hd h] at hf; cases hf
      · by_contra ab
        rw [respects.left c (payload ▸ hp) hprev ab] at hf
        cases hf
    · exact onFloor_of_release appended inv idle here (payload.trans hp) mem
  · intro x hx
    rw [Kernel.log, appended.log] at hx
    rcases List.mem_append.mp hx with hx | hx
    · exact inv.causes x hx
    · rw [List.mem_singleton.mp hx]; exact appended.causes
  · rw [Kernel.board, tMs_of_apply appended.applied, appended.now]

end step

end ProxyLoop
