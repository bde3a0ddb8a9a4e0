import ProxyLoop.Core.History
import ProxyLoop.Kernel.Steps

/-!
# A block goes on, and runs

The next event of a block, and with it every step.  `KernelInv.reach` is the run lemma: every kernel
of a run keeps the invariant, and every event of its log has a provenance.
-/

namespace ProxyLoop

open Lib (Dict Reach anyStep)

section step

variable {host : Host} {k k' : Kernel} {e : Event} {causes : List Nat} {p : Payload}

theorem minting_next {actor : Actor} {rest : List Task} (h : Minting (.emit actor p :: rest)) :
    Minting rest ∧ p.movesStatus = false ∨ p = .statusChanged ⟨.inCall, .commitAuthorized⟩ := by
  rcases h with h | ⟨text, id, h⟩
  · cases h; exact Or.inr rfl
  · cases h; exact Or.inl ⟨Or.inl rfl, rfl⟩

/-- The next event of the running block. -/
theorem KernelInv.goesOn {actor : Actor} {rest : List Task} (inv : KernelInv host k)
    (next : k.todo = .emit actor p :: rest) (em : k.Emits causes p rest e k')
    (block : Block host k' rest) (origin : Provenance host k.board k.log e)
    (minted : ∀ a, p = .actionAuthorized a → Minting rest)
    (left : ∀ c, p = .statusChanged c → c.previous ≠ .commitAuthorized)
    (other : isDelivery e = false) : Advances host k k' :=
  advances inv em.toWrites block origin
    ⟨rfl, fun q hq => hq, fun _ m => minting_next (next ▸ m), minted, Or.inl,
      fun c hc was => absurd was (left c hc), fun hd => by rw [other] at hd; cases hd⟩

theorem statusOk_of_calm {c : StatusChanged} (calm : calmChange c) :
    StatusOk host k.board k.log c where
  committed h := absurd h calm.1
  left h := absurd h calm.2.2.2
  complete h := absurd h calm.2.1
  noDeal h := absurd h calm.2.2.1

/-- A task that may run whatever was written before it. -/
theorem KernelInv.tail {actor : Actor} {rest : List Task} (inv : KernelInv host k)
    (next : k.todo = .emit actor p :: rest) (em : k.Emits causes p rest e k')
    (block : Block host k' rest) (may : tailPayload p) : Advances host k k' := by
  have quietly : ∀ q, p = q → q.isQuiet = true → isDelivery e = false →
      q.movesStatus = false → (∀ a, q ≠ .actionAuthorized a) → Advances host k k' := by
    rintro q rfl quiet other still unminted
    exact inv.goesOn next em block (.quiet (by rw [em.payload]; exact quiet) other)
      (fun a ha => absurd ha (unminted a)) (fun c hc => by rw [hc] at still; cases still) other
  cases p with
  | statusChanged c =>
    exact inv.goesOn next em block (.status c em.payload (statusOk_of_calm may))
      (fun a ha => by cases ha) (fun c' hc => by cases hc; exact may.2.2.2)
      (by simp [isDelivery, em.payload])
  | mandateProposed m =>
    exact inv.goesOn next em block (.proposed m em.payload) (fun a ha => by cases ha)
      (fun c hc => by cases hc) (by simp [isDelivery, em.payload])
  | s2fMsg m =>
    exact quietly _ rfl rfl (by simp [isDelivery, em.payload]) rfl (fun a ha => by cases ha)
  | chanBargeIn lane utt =>
    exact quietly _ rfl rfl (by simp [isDelivery, em.payload]) rfl (fun a ha => by cases ha)
  | _ => cases may

theorem block_of_tail {rest : List Payload} (may : ∀ p ∈ rest, tailPayload p) :
    Block host k' (rest.map (.emit .guard)) := by
  refine .tail fun t ht => ?_
  obtain ⟨q, hq, rfl⟩ := List.mem_map.mp ht
  exact may q hq

/-- A verdict leaves what it was judged by. -/
theorem sameRecord_of_completion {bb bb' : Blackboard} {d : CompletionDecision}
    (h : apply bb e = .ok bb') (hp : e.payload = .completionDecided d) : SameRecord bb bb' := by
  obtain ⟨b, hc, rfl⟩ := change_of_apply h
  cases hc with
  | completion d' => constructor <;> rfl
  | quiet hq => rw [hp] at hq; cases hq
  | _ => simp_all

theorem KernelInv.called {bb : Blackboard} {events : List Event} {mid : String} {call : ToolCall}
    {rest : List Payload} (inv : KernelInv host k)
    (next : k.todo = .emit .guard p :: rest.map (.emit .guard))
    (em : k.Emits causes p (rest.map (.emit .guard)) e k')
    (same : SameAuthority bb k.board) (before : bb.tMs ≤ k.desk.now) (settling : k.desk.Settling)
    (effects : (runTool host bb events mid call).effects = p :: rest) : Advances host k k' := by
  have appended : k.desk.Appended e k'.desk := em.appended
  have calm : ∀ {b : Block host k' (rest.map (.emit .guard))},
      Provenance host k.board k.log e → isDelivery e = false → p.movesStatus = false →
      (∀ a, p ≠ .actionAuthorized a) → Advances host k k' := fun {b} origin other still unminted =>
    inv.goesOn next em b origin (fun a ha => absurd ha (unminted a))
      (fun c hc => by rw [hc] at still; cases still) other
  have ended : rest = [] → Block host k' (rest.map (.emit .guard)) := by
    rintro rfl
    exact .tail (by simp)
  have hp := em.payload
  cases effect_of_runTool effects with
  | refused intent reason =>
    have other : isDelivery e = false := by simp [isDelivery, hp]
    exact calm (b := ended rfl) (.quiet (by rw [hp]; rfl) other) other rfl (fun a ha => by cases ha)
  | card ref card _ ok tail =>
    refine calm (b := block_of_tail fun q hq => ?_) (.requested ref card hp bb same ok)
      (by simp [isDelivery, hp]) rfl (fun a ha => by cases ha)
    rcases tail q hq with rfl | ⟨m, rfl⟩
    · exact (by decide : calmChange ⟨.inCall, .awaitingApproval⟩)
    · trivial
  | accept ref cap text ok =>
    have inCall : k.board.pub.status = .inCall := by
      obtain ⟨o, t, g, accept, -⟩ := acceptOffer_eq_ok ok
      exact same.status.trans accept.inCall
    have still := status_of_apply appended.applied (by rw [hp]; rfl)
    refine inv.goesOn next em (.minting (still.trans inCall) (Or.inr ⟨text, cap.capId, rfl⟩))
      (.minted ref cap text hp bb same (before.trans appended.later) ok)
      (fun a _ => Or.inr ⟨text, cap.capId, rfl⟩) (fun c hc => by cases hc)
      (by simp [isDelivery, hp])
  | decline ref text =>
    exact calm (b := ended rfl) (.declineLine text ref hp) (by simp [isDelivery, hp]) rfl
      (fun a ha => by cases ha)
  | propose m =>
    exact calm (b := ended rfl) (.proposed m hp) (by simp [isDelivery, hp]) rfl
      (fun a ha => by cases ha)
  | tighten bump m =>
    refine calm (b := block_of_tail fun q hq => ?_) (.epoch bump hp) (by simp [isDelivery, hp]) rfl
      (fun a ha => by cases ha)
    rw [List.mem_singleton.mp hq]
    trivial
  | revoke bump =>
    exact calm (b := ended rfl) (.epoch bump hp) (by simp [isDelivery, hp]) rfl
      (fun a ha => by cases ha)
  | offer ref revision slots expiresMs =>
    exact calm (b := ended rfl) (.offer ref revision slots expiresMs hp) (by simp [isDelivery, hp])
      rfl (fun a ha => by cases ha)
  | evidence conf binding hash _ bound tail =>
    refine calm (b := block_of_tail fun q hq => ?_) (.evidence conf binding hash hp bb same bound)
      (by simp [isDelivery, hp]) rfl (fun a ha => by cases ha)
    rw [tail q hq]
    exact (by decide : calmChange ⟨.committed, .evidencePending⟩)
  | status c quiet =>
    exact inv.goesOn next em (ended rfl) (.status c hp (statusOk_of_calm quiet))
      (fun a ha => by cases ha) (fun c' hc => by cases hc; exact quiet.2.2.2)
      (by simp [isDelivery, hp])
  | verdict d c judged =>
    have record := sameRecord_of_completion appended.applied hp
    exact calm (b := .judged c ((judged.congr same.record).congr record) (em.settling rfl settling))
      (.completion d hp) (by simp [isDelivery, hp]) rfl (fun a ha => by cases ha)

theorem plain_move {trigger : Trigger} {was status : CaseStatus}
    (plain : plainTrigger trigger = true) (legal : nextStatus was trigger = some status) :
    status ≠ .committed ∧ status ≠ .verifiedComplete ∧ status ≠ .verifiedNoDeal ∧
      (was = .commitAuthorized → status = .abandoned) := by
  cases trigger <;> simp [plainTrigger] at plain <;> cases was <;>
    simp [nextStatus, transitions, terminal] at legal <;> subst legal <;> decide

/-- Where the move of an accept line that left the floor may lead. -/
theorem line_move {log : List Event} {trigger : Trigger} {was status : CaseStatus}
    (line : LineMove log trigger) (legal : nextStatus was trigger = some status) :
    (status = .committed → HeardWhole log) ∧ status ≠ .verifiedComplete ∧
      status ≠ .verifiedNoDeal := by
  rcases line with rfl | rfl | ⟨rfl, heard⟩ <;> cases was <;>
    simp [nextStatus, transitions] at legal <;> subst legal
  · simp
  · simp
  · simp [heard]

theorem statusOk_of_move {trigger : Trigger} {status : CaseStatus}
    (ok : TaskOk k (.move trigger))
    (legal : nextStatus k.board.pub.status trigger = some status) :
    StatusOk host k.board k.log ⟨k.board.pub.status, status⟩ := by
  rcases ok with plain | ⟨none_live, -, line⟩
  · obtain ⟨uncommitted, incomplete, deal, left⟩ := plain_move plain legal
    exact ⟨fun h => absurd h uncommitted, fun h ab => absurd (left h) ab,
      fun h => absurd h incomplete, fun h => absurd h deal⟩
  · obtain ⟨committed, incomplete, deal⟩ := line_move line legal
    exact ⟨committed, fun _ _ => none_live, fun h => absurd h incomplete, fun h => absurd h deal⟩

theorem KernelInv.moves {tMs : Nat} {trigger : Trigger} {rest : List Task} (inv : KernelInv host k)
    (next : k.todo = .move trigger :: rest) (ok : TaskOk k (.move trigger))
    (later : ∀ k'' : Kernel, (NoLive k.board → NoLive k''.board) → k''.floor = k.floor →
      k.log ⊆ k''.log → Block host k'' rest)
    (h : k.runNext tMs causes = some k') : Advances host k k' := by
  have unminting : ¬ Minting k.todo := by
    rw [next]
    rintro (m | ⟨_, _, m⟩) <;> cases m
  simp only [Kernel.runNext, next] at h
  split at h
  · cases h
    exact inv.unwritten rfl rfl (later _ id rfl (fun _ hx => hx)) (fun m => absurd m unminting)
      inv.lines
  · rename_i status legal
    obtain ⟨e, em⟩ := Kernel.emits_of_emit h
    have appended : k.desk.Appended e k'.desk := em.appended
    have grows : k.log ⊆ k'.log := by
      rw [Kernel.log, Kernel.log, appended.log]
      exact List.subset_append_left ..
    have block := later k' (fun none_live => none_live.apply inv.law appended.applied
      fun a ha => by rw [em.payload] at ha; cases ha) em.floor grows
    refine advances inv em.toWrites block (.status _ em.payload (statusOk_of_move ok legal))
      ⟨rfl, fun q hq => hq, fun _ m => absurd m unminting, (fun a ha => by cases ha), Or.inl, ?_,
        fun hd => by simp [isDelivery, em.payload] at hd⟩
    rintro c hc was ab
    cases hc
    dsimp only at was ab
    rcases ok with plain | ⟨-, empty, -⟩
    · exact absurd ((plain_move plain legal).2.2.2 was) ab
    · exact empty

theorem KernelInv.bumps {tMs : Nat} {rest : List Task} (inv : KernelInv host k)
    (next : k.todo = .bump :: rest)
    (later : ∀ k'' : Kernel, (NoLive k.board → NoLive k''.board) → k''.floor = k.floor →
      k.log ⊆ k''.log → Block host k'' rest)
    (h : k.runNext tMs causes = some k') : Advances host k k' := by
  have unminting : ¬ Minting k.todo := by
    rw [next]
    rintro (m | ⟨_, _, m⟩) <;> cases m
  simp only [Kernel.runNext, next] at h
  obtain ⟨e, em⟩ := Kernel.emits_of_emit h
  have appended : k.desk.Appended e k'.desk := em.appended
  have grows : k.log ⊆ k'.log := by
    rw [Kernel.log, Kernel.log, appended.log]
    exact List.subset_append_left ..
  have block := later k' (fun none_live => none_live.apply inv.law appended.applied
    fun a ha => by rw [em.payload] at ha; cases ha) em.floor grows
  exact advances inv em.toWrites block (.epoch _ em.payload)
    (respects_calm rfl (fun q hq => hq) rfl rfl (fun a ha => by cases ha)
      (by simp [isDelivery, em.payload]) fun m => absurd m unminting)

theorem KernelInv.runNext {tMs : Nat} (inv : KernelInv host k)
    (h : k.step host (.next tMs causes) = some k') : Advances host k k' := by
  simp only [Kernel.step] at h
  split at h
  case isFalse => cases h
  have block := inv.block
  generalize hn : k.todo = todo at block
  have emits : ∀ {actor p rest}, k.todo = .emit actor p :: rest →
      ∃ e, k.Emits causes p rest e k' := fun {actor p rest} next => by
    simp only [Kernel.runNext, next] at h
    exact Kernel.emits_of_emit h
  cases block with
  | tail ok =>
    cases todo with
    | nil => simp [Kernel.runNext, hn] at h
    | cons t rest =>
      have later : ∀ k'' : Kernel, (NoLive k.board → NoLive k''.board) → k''.floor = k.floor →
          k.log ⊆ k''.log → Block host k'' rest := fun _ live floor log =>
        .tail fun t ht => (ok t (List.mem_cons_of_mem _ ht)).mono live floor log
      have may := ok t (List.mem_cons_self ..)
      cases t with
      | bump => exact inv.bumps hn later h
      | move trigger => exact inv.moves hn may later h
      | emit actor p =>
        obtain ⟨e, em⟩ := emits hn
        have appended : k.desk.Appended e k'.desk := em.appended
        refine inv.tail hn em (later k' (fun none_live => none_live.apply inv.law appended.applied
          fun a ha => ?_) em.floor ?_) may
        · rw [em.payload] at ha
          subst ha
          cases may
        · rw [Kernel.log, Kernel.log, appended.log]
          exact List.subset_append_left ..
  | called bb events mid call same before settling =>
    cases effects : (runTool host bb events mid call).effects with
    | nil => simp [Kernel.runNext, hn, effects] at h
    | cons p rest =>
      rw [effects] at hn
      obtain ⟨e, em⟩ := emits hn
      exact inv.called hn em same before settling effects
  | minting inCall mint =>
    rcases mint with rfl | ⟨text, id, rfl⟩
    · obtain ⟨e, em⟩ := emits hn
      exact inv.goesOn hn em (.tail (by simp))
        (.status _ em.payload (statusOk_of_calm (by decide))) (fun a ha => by cases ha)
        (fun c hc => by cases hc; decide) (by simp [isDelivery, em.payload])
    · obtain ⟨e, em⟩ := emits hn
      have appended : k.desk.Appended e k'.desk := em.appended
      have still := status_of_apply appended.applied (by rw [em.payload]; rfl)
      exact inv.goesOn hn em (.minting (still.trans inCall) (Or.inl rfl))
        (.acceptLine text id em.payload) (fun a ha => by cases ha)
        (fun c hc => by cases hc) (by simp [isDelivery, em.payload])
  | judged c judged settling =>
    obtain ⟨e, em⟩ := emits hn
    exact inv.goesOn hn em (.tail (by simp))
      (.status c em.payload ⟨fun h => absurd h judged.uncommitted.1,
        fun h => absurd h judged.uncommitted.2, judged.complete, judged.noDeal⟩)
      (fun a ha => by cases ha) (fun c' hc => by cases hc; exact judged.uncommitted.2)
      (by simp [isDelivery, em.payload])
  | posted d post decision =>
    obtain ⟨e, em⟩ := emits hn
    have after : Block host k' (Kernel.afterDecision post) := .tail taskOk_afterDecision
    rcases decision with ⟨x, rfl⟩ | ⟨x, rfl⟩
    · exact inv.goesOn hn em after (.decided x em.payload) (fun a ha => by cases ha)
        (fun c hc => by cases hc) (by simp [isDelivery, em.payload])
    · exact inv.goesOn hn em after (.mandate x em.payload) (fun a ha => by cases ha)
        (fun c hc => by cases hc) (by simp [isDelivery, em.payload])

/-! ## Runs -/

/-- Step lemma: every step keeps the invariant and says where its event comes from. -/
theorem KernelInv.step {a : Kernel.Act} (inv : KernelInv host k) (h : k.step host a = some k') :
    Advances host k k' := by
  cases a with
  | tick tMs => exact inv.deskStep h fun d hd => Desk.internal_of_tick hd
  | react tMs => exact inv.deskStep h fun d hd => Desk.internal_of_react hd inv.fence.plain
  | deliver => exact inv.deskStep h fun d hd => Desk.internal_of_deliver hd
  | closing =>
    simp only [Kernel.step] at h
    split at h
    · exact inv.deskStep h fun d hd => Desk.internal_of_close hd
    · cases h
  | world tMs actor causes p => exact inv.world h
  | tool tMs causes call => exact inv.tool h
  | readback tMs causes ref statuses => exact inv.readback h
  | post tMs causes post by_ => exact inv.post h
  | floor tMs i => exact inv.takeFloor h
  | heard tMs said => exact inv.heard h
  | openCall tMs causes => exact inv.openCall h
  | hangUp => exact inv.hangUp h
  | expire seq => exact inv.expire h
  | next tMs causes => exact inv.runNext h

theorem kernelInv_start (host : Host) (session : Session) (runId : String) :
    KernelInv host (Kernel.start session runId) where
  fence := fenceInv_start session runId
  block := .tail (by simp [Kernel.start])
  intents h := by cases h
  live h := by cases h
  lines q h := by cases h
  floor h := by cases h
  causes e h := by cases h
  clock := Nat.le_refl _

/-- Run lemma: every kernel of a run keeps the invariant. -/
theorem KernelInv.reach {ok : Kernel → Kernel.Act → Prop} {session : Session} {runId : String}
    (h : Reach (Kernel.step host) ok (Kernel.start session runId) k) : KernelInv host k :=
  h.invariant (kernelInv_start host session runId) fun _ inv _ hs => (inv.step hs).1

/-- The board of a run is the fold of its log. -/
theorem fold_reach {ok : Kernel → Kernel.Act → Prop} {session : Session} {runId : String}
    (h : Reach (Kernel.step host) ok (Kernel.start session runId) k) : fold k.log = .ok k.board :=
  (KernelInv.reach h).fence.sound.fold

structure BoardLaw (bb : Blackboard) : Prop where
  intents : ∀ {id c}, bb.capabilities.get? id = some c → c.intent = .acceptOffer
  live : ∀ {id c}, bb.capabilities.get? id = some c → isLiveAccept c = true →
    awaitsLine bb.pub.status ∨ bb.pub.status = .inCall

theorem KernelInv.boardLaw (inv : KernelInv host k) : BoardLaw k.board :=
  ⟨inv.intents, fun hc live => (inv.live hc live).imp_right And.left⟩

/-- Every event of a run has its provenance, on the lawful board of the events before it. -/
def Traced (host : Host) (log : List Event) : Prop :=
  Lib.Each (fun before e => ∃ b b', fold before = .ok b ∧ apply b e = .ok b' ∧ BoardLaw b ∧
    e.seq = before.length ∧ Provenance host b before e) log

theorem traced_reach {ok : Kernel → Kernel.Act → Prop} {session : Session} {runId : String}
    (h : Reach (Kernel.step host) ok (Kernel.start session runId) k) : Traced host k.log := by
  refine Reach.invariant (I := fun k : Kernel => Traced host k.log) h (Lib.each_nil _)
    fun {k a k'} hr traced _ hs => ?_
  have inv := KernelInv.reach hr
  cases (inv.step hs).2 with
  | nothing log board => rw [log]; exact traced
  | event e log applied seq origin =>
    rw [log]
    exact Lib.each_snoc.mpr
      ⟨traced, k.board, k'.board, inv.fence.sound.fold, applied, inv.boardLaw, seq, origin⟩

/-- The kernel after `acts`, each of them allowed. -/
def Kernel.after (host : Host) (session : Session) (acts : List Kernel.Act) : Kernel :=
  (Lib.run (Kernel.step host) (Kernel.start session "run") acts).getD (Kernel.start session "run")

theorem Kernel.reach_after (session : Session) (acts : List Kernel.Act) :
    Reach (Kernel.step host) anyStep (Kernel.start session "run")
      (Kernel.after host session acts) :=
  Reach.start.run_getD acts

/-- What one event of a run finds. -/
theorem Traced.at {log before after : List Event} {b : Blackboard} (traced : Traced host log)
    (split : log = before ++ e :: after) (hb : fold before = .ok b) :
    ∃ b', apply b e = .ok b' ∧ BoardLaw b ∧ e.seq = before.length ∧ Provenance host b before e := by
  obtain ⟨b₁, b', h₁, applied, law, seq, origin⟩ := traced before e after split
  rw [hb] at h₁
  cases h₁
  exact ⟨b', applied, law, seq, origin⟩

/-- What holds of the first board and is kept by every event of a run holds of each of its
boards. -/
theorem Traced.invariant {log : List Event} {bb : Blackboard} {I : Blackboard → Prop}
    (traced : Traced host log) (h : fold log = .ok bb) (start : I {})
    (kept : ∀ before e after b b', log = before ++ e :: after → fold before = .ok b → I b →
      apply b e = .ok b' → Provenance host b before e → I b') : I bb := by
  induction log using List.reverseRecOn generalizing bb with
  | nil => cases h; exact start
  | append_singleton log e ih =>
    obtain ⟨b, hb, ha⟩ := fold_snoc.mp h
    have last : log ++ [e] = log ++ e :: [] := rfl
    obtain ⟨_, _, _, _, origin⟩ := traced.at last hb
    refine kept log e [] b bb last hb (ih (Lib.each_snoc.mp traced).1 hb ?_) ha origin
    intro before x after b₁ b₂ split
    exact kept before x (after ++ [e]) b₁ b₂ (by simp [split])

end step

end ProxyLoop
