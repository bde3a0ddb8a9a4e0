import ProxyLoop.Kernel.Exits
import ProxyLoop.Kernel.Mandates

/-!
# Logs of mandates

`Written` are the logs that the writers of mandates make: ids are fresh, and a decision is followed
by its own bump before anything else moves a mandate or the epoch.  Every run of the kernel writes
one: `Authority.decide` emits the decision and its bump in one block.
-/

namespace ProxyLoop

open Lib (Dict Reach Each each_snoc)

/-! ## Logs of mandates -/

/-- The last decision of the log has no bump yet. -/
def awaiting (log : List Event) : Bool :=
  log.foldl (fun was e => e.payload.awaits.getD was) false

theorem awaiting_snoc {log : List Event} {x : Event} :
    awaiting (log ++ [x]) = x.payload.awaits.getD (awaiting log) := by
  simp [awaiting, List.foldl_append]

/-- A decision's bump follows it, before any other bump, decision or proposal. -/
def orderly (before : List Event) (e : Event) : Bool :=
  match e.payload with
  | .mandateProposed _ | .mandateDecided _ => !awaiting before
  | .authorityEpoch bump => awaiting before = Decidable.decide (bump.reason = .mandateDecided)
  | _ => true

/-- A log of the writers of mandates, with its board. -/
structure Written (log : List Event) (bb : Blackboard) : Prop where
  folds : fold log = .ok bb
  dense : ∀ (i : Nat) (e : Event), log[i]? = some e → e.seq = i
  formed : ∀ e ∈ log, e.wellFormed = true
  fresh : (proposedIds log).Nodup
  ordered : Each (fun before e => orderly before e = true) log

section written

variable {log before after : List Event} {x : Event} {bb bb' : Blackboard}

theorem Written.init (h : Written (log ++ [x]) bb') : ∃ bb, Written log bb ∧ apply bb x = .ok bb' := by
  obtain ⟨bb, hb, ha⟩ := fold_snoc.mp h.folds
  refine ⟨bb, ⟨hb, fun i e hi => h.dense i e ?_, fun e he => h.formed e (List.mem_append_left _ he),
    h.fresh.sublist ?_, (each_snoc.mp h.ordered).1⟩, ha⟩
  · rw [List.getElem?_append_left (List.getElem?_eq_some_iff.mp hi).1]
    exact hi
  · rw [proposedIds_snoc]
    exact List.sublist_append_left ..

theorem Written.seq_lt (h : Written log bb) {e : Event} (mem : e ∈ log) : e.seq < log.length := by
  obtain ⟨i, hi, rfl⟩ := List.getElem_of_mem mem
  rw [h.dense i _ (List.getElem?_eq_getElem hi)]
  exact hi

theorem Written.last_seq (h : Written (log ++ [x]) bb') : x.seq = log.length :=
  h.dense log.length x (by simp)

theorem Written.lt_after (h : Written (before ++ x :: after) bb) : ∀ o ∈ after, x.seq < o.seq := by
  intro o ho
  obtain ⟨i, hi, rfl⟩ := List.getElem_of_mem ho
  have own := h.dense before.length x (by simp)
  have := h.dense (before.length + (i + 1)) after[i] (by simp [hi])
  omega

/-- A decision that has no bump yet. -/
theorem awaiting_split (wait : awaiting log = true) : ∃ pre d post x, log = pre ++ d :: post ∧
    d.payload = .mandateDecided x ∧ ∀ y ∈ post, y.payload.awaits = none := by
  induction log using List.reverseRecOn with
  | nil => cases wait
  | append_singleton log e ih =>
    rw [awaiting_snoc] at wait
    cases ha : e.payload.awaits with
    | none =>
      rw [ha] at wait
      obtain ⟨pre, d, post, x, rfl, hd, quiet⟩ := ih wait
      refine ⟨pre, d, post ++ [e], x, by simp, hd, fun y hy => ?_⟩
      rcases List.mem_append.mp hy with hy | hy
      · exact quiet y hy
      · rw [List.mem_singleton.mp hy]
        exact ha
    | some now =>
      rw [ha] at wait
      cases hp : e.payload with
      | mandateDecided x => exact ⟨log, e, [], x, rfl, hp, by simp⟩
      | _ =>
        rw [hp] at ha
        cases ha <;> cases wait

/-- A log is written event by event. -/
theorem Written.prefix_ (h : Written log bb) (pre : List Event) (hp : pre <+: log) :
    ∃ b, Written pre b := by
  obtain ⟨suffix, rfl⟩ := hp
  induction suffix using List.reverseRecOn generalizing bb with
  | nil => exact ⟨bb, by simpa using h⟩
  | append_singleton suffix x ih =>
    rw [← List.append_assoc] at h
    obtain ⟨b, h', -⟩ := h.init
    exact ih h'

theorem eq_of_nodup_filterMap {α β : Type} {f : α → Option β} {l : List α}
    (distinct : (l.filterMap f).Nodup) {a b : α} {c : β} (ha : a ∈ l) (hb : b ∈ l)
    (fa : f a = some c) (fb : f b = some c) : a = b := by
  induction l with
  | nil => cases ha
  | cons y l ih =>
    rw [List.filterMap_cons] at distinct
    cases fy : f y with
    | none =>
      simp only [fy] at distinct
      refine ih distinct ((List.mem_cons.mp ha).resolve_left ?_) ((List.mem_cons.mp hb).resolve_left ?_)
      · rintro rfl
        rw [fa] at fy
        cases fy
      · rintro rfl
        rw [fb] at fy
        cases fy
    | some z =>
      simp only [fy, List.nodup_cons, List.mem_filterMap, not_exists, not_and] at distinct
      rcases List.mem_cons.mp ha with rfl | inA
      · rcases List.mem_cons.mp hb with rfl | inB
        · rfl
        · rw [fa] at fy
          cases fy
          exact absurd fb (distinct.1 b inB)
      · rcases List.mem_cons.mp hb with rfl | inB
        · rw [fb] at fy
          cases fy
          exact absurd fa (distinct.1 a inA)
        · exact ih distinct.2 inA inB

theorem Written.unique (h : Written log bb) {req req' : Event} (mem : req ∈ log) (mem' : req' ∈ log)
    {p p' : MandateProposal} (hp : req.payload = .mandateProposed p)
    (hp' : req'.payload = .mandateProposed p')
    (same : p.mandate.mandateId = p'.mandate.mandateId) : req = req' :=
  eq_of_nodup_filterMap h.fresh mem mem' (by rw [hp]; rfl)
    (by rw [hp', Payload.proposedId, same])

end written

/-! ## Runs of the kernel -/

section runs

variable {host : Host} {k k' : Kernel} {e : Event} {p : Payload}

/-- A payload that no decision has to wait for: neither a decision nor its bump. -/
def Payload.ordinary : Payload → Bool
  | .mandateDecided _ => false
  | .authorityEpoch bump => bump.reason ≠ .mandateDecided
  | _ => true

def Task.ordinary : Task → Bool
  | .bump => false
  | .emit _ p => p.ordinary
  | .move _ => true

theorem ordinary_of_awaits (h : p.awaits = none) : p.ordinary = true := by
  cases p <;> first | rfl | cases h

theorem ordinary_runTool {bb : Blackboard} {events : List Event} {mid : String} {call : ToolCall} :
    ∀ p ∈ (runTool host bb events mid call).effects, p.ordinary = true := by
  cases moves : call.movesMandate with
  | false => exact fun p hp => ordinary_of_awaits (unmandated_runTool moves p hp)
  | true =>
    cases call with
    | proposeMandate envelope =>
      simp only [runTool, proposeMandate]
      split
      · simp
      · simp [Payload.ordinary, proposed]
    | tightenMandate changes =>
      simp only [runTool, tightenMandate]
      split
      · simp
      · split
        · simp
        · split
          · simp [Payload.ordinary]
          · simp [Payload.ordinary, proposed]
    | revoke => simp [runTool, revoke, Payload.ordinary]
    | _ => cases moves

/-- Where the block stands with the decision of a mandate. -/
inductive Kernel.Decreeing (k : Kernel) : Prop
  | apart (still : awaiting k.log = false) (block : ∀ t ∈ k.todo, t.ordinary = true)
  | decides (actor : Actor) (d : MandateDecided) (rest : List Task) (still : awaiting k.log = false)
      (next : k.todo = .emit actor (.mandateDecided d) :: .bump :: rest)
      (block : ∀ t ∈ rest, t.ordinary = true)
  /-- nothing that is still to be delivered has a reaction, so that the bump is next -/
  | decided (rest : List Task) (wait : awaiting k.log = true) (next : k.todo = .bump :: rest)
      (block : ∀ t ∈ rest, t.ordinary = true) (idle : k.desk.handler = [])
      (inert : ∀ x ∈ k.desk.undelivered, x.payload.Inert)

theorem Kernel.Decreeing.of_idle (decreeing : k.Decreeing) (empty : k.todo = []) :
    awaiting k.log = false := by
  cases decreeing with
  | apart still => exact still
  | decides actor d rest still => exact still
  | decided rest wait next => rw [empty] at next; cases next

/-- The log is ordered, and the block knows what the log waits for. -/
structure Kernel.Decrees (k : Kernel) : Prop where
  ordered : Each (fun before e => orderly before e = true) k.log
  block : k.Decreeing

/-- An event that no decision waits for. -/
theorem orderly_of_ordinary {log : List Event} (still : awaiting log = false)
    (ordinary : e.payload.ordinary = true) : orderly log e = true ∧ awaiting (log ++ [e]) = false := by
  rw [awaiting_snoc]
  unfold orderly
  cases hp : e.payload <;> rw [hp] at ordinary <;>
    simp_all [Payload.awaits, Payload.ordinary]

theorem orderly_of_awaits (log : List Event) (none_ : e.payload.awaits = none) :
    orderly log e = true ∧ awaiting (log ++ [e]) = awaiting log := by
  rw [awaiting_snoc, none_]
  refine ⟨?_, rfl⟩
  unfold orderly
  cases hp : e.payload <;> rw [hp] at none_ <;> first | rfl | cases none_

theorem ordinary_of_reacted (h : p.reacted) : p.ordinary = true := by
  rcases Payload.reacted_cases h with ⟨_, _, _, rfl⟩ | ⟨bump, rfl⟩ | ⟨_, rfl⟩
  · rfl
  · have : bump.reason = .f2sRevoke := h
    simp [Payload.ordinary, this]
  · rfl

theorem awaits_of_world (what : p.isHold = true ∨ ∃ causes, k.free causes p = true) :
    p.awaits = none := by
  rcases what with hold | ⟨causes, free⟩
  · cases p <;> first | rfl | cases hold
  · cases p <;> first | rfl | simp [Kernel.free, Payload.isQuiet] at free

/-- A desk whose handlers are done, and whose events nobody reacts to, writes nothing. -/
theorem inert_internal {a : DeskAct} {d : Desk} (idle : k.desk.handler = [])
    (inert : ∀ x ∈ k.desk.undelivered, x.payload.Inert)
    (own : ∀ t actor causes p, a ≠ .env t actor causes p) (h : k.desk.step a = some d) :
    d.bus = k.desk.bus ∧ d.handler = [] ∧ ∀ x ∈ d.undelivered, x.payload.Inert := by
  cases a with
  | tick t =>
    simp only [Desk.step] at h
    split at h
    · cases h
      exact ⟨rfl, idle, inert⟩
    · cases h
  | react t =>
    simp only [Desk.step, Desk.react, idle] at h
    cases h
  | deliver => exact deliver_inert inert h
  | close =>
    simp only [Desk.step] at h
    split at h
    · cases h
      exact ⟨rfl, idle, inert⟩
    · cases h
  | env t actor causes p => exact absurd rfl (own t actor causes p)

theorem Kernel.Decrees.internal (decrees : k.Decrees) {a : DeskAct} {d : Desk}
    (own : ∀ t actor causes p, a ≠ .env t actor causes p)
    (plain : ∀ r ∈ k.desk.handler, r.plain = true) (h : k.desk.step a = some d) :
    Kernel.Decrees { k with desk := d } := by
  obtain ⟨ordered, block⟩ := decrees
  cases block with
  | decided rest wait next calm idle inert =>
    have kept := inert_internal idle inert own h
    have log : Kernel.log { k with desk := d } = k.log := congrArg Bus.events kept.1
    exact ⟨log ▸ ordered, .decided rest (log ▸ wait) next calm kept.2.1 kept.2.2⟩
  | apart still calm =>
    cases Kernel.internal_of_own own plain h with
    | quietly bus =>
      have log : Kernel.log { k with desk := d } = k.log := congrArg Bus.events bus
      exact ⟨log ▸ ordered, .apart (log ▸ still) calm⟩
    | reacted e appended what =>
      have log : Kernel.log { k with desk := d } = k.log ++ [e] := appended.log
      obtain ⟨ok, after⟩ := orderly_of_ordinary still (ordinary_of_reacted what)
      exact ⟨log ▸ each_snoc.mpr ⟨ordered, ok⟩, .apart (log ▸ after) calm⟩
  | decides actor d' rest still next calm =>
    cases Kernel.internal_of_own own plain h with
    | quietly bus =>
      have log : Kernel.log { k with desk := d } = k.log := congrArg Bus.events bus
      exact ⟨log ▸ ordered, .decides actor d' rest (log ▸ still) next calm⟩
    | reacted e appended what =>
      have log : Kernel.log { k with desk := d } = k.log ++ [e] := appended.log
      obtain ⟨ok, after⟩ := orderly_of_ordinary still (ordinary_of_reacted what)
      exact ⟨log ▸ each_snoc.mpr ⟨ordered, ok⟩, .decides actor d' rest (log ▸ after) next calm⟩

theorem Kernel.Decrees.begins {k₀ : Kernel} {todo : List Task} {causes : List Nat}
    (decrees : k.Decrees) (begins : k.Begins host k₀ p todo) (em : k₀.Emits causes p todo e k') :
    k'.Decrees := by
  have log : k'.log = k.log ++ [e] := by
    have : k'.log = k₀.log ++ [e] := em.appended.log
    rw [this, begins.log]
  have payload := em.payload
  -- a block that starts here: nothing waits
  have starts (idle : k.idle = true) (ordinary : p.ordinary = true)
      (calm : ∀ t ∈ todo, t.ordinary = true) : k'.Decrees := by
    obtain ⟨ok, after⟩ := orderly_of_ordinary (e := e)
      (decrees.block.of_idle (idle_iff.mp idle).1) (payload ▸ ordinary)
    exact ⟨log ▸ each_snoc.mpr ⟨decrees.ordered, ok⟩, .apart (log ▸ after) (em.todo_eq ▸ calm)⟩
  cases begins with
  | world p what =>
    have none_ : e.payload.awaits = none :=
      payload ▸ awaits_of_world (what.imp_right And.right)
    obtain ⟨ok, same⟩ := orderly_of_awaits k.log none_
    refine ⟨log ▸ each_snoc.mpr ⟨decrees.ordered, ok⟩, ?_⟩
    cases decrees.block with
    | apart still calm => exact .apart (log ▸ same.trans still) (em.todo_eq ▸ calm)
    | decides actor d rest still next calm =>
      exact .decides actor d rest (log ▸ same.trans still) (em.todo_eq.trans next) calm
    | decided rest wait next calm idle inert =>
      refine .decided rest (log ▸ same.trans wait) (em.todo_eq.trans next) calm em.handler ?_
      rcases what with hold | ⟨empty, -⟩
      · rw [em.undelivered]
        exact inert_snoc inert (payload ▸ inert_hold hold)
      · rw [next] at empty
        cases empty
  | tool call idle =>
    refine starts idle rfl fun t ht => ?_
    obtain ⟨q, hq, rfl⟩ := List.mem_map.mp ht
    exact ordinary_runTool q hq
  | readback ref o statuses r idle => exact starts idle rfl (by simp)
  | denied post by_ reason idle => exact starts idle rfl (by simp)
  | posted post by_ d idle allowed =>
    cases decide_spec allowed with
    | mandate m subject =>
      have none_ : e.payload.awaits = none := by rw [payload]; rfl
      obtain ⟨ok, same⟩ := orderly_of_awaits k.log none_
      have still := decrees.block.of_idle (idle_iff.mp idle).1
      refine ⟨log ▸ each_snoc.mpr ⟨decrees.ordered, ok⟩, .decides _ _ _ (log ▸ same.trans still)
        (em.todo_eq.trans (by rw [Kernel.afterDecision, subject])) ?_⟩
      split <;> simp [Task.ordinary]
    | approval card subject =>
      refine starts idle rfl ?_
      simp [Kernel.afterDecision, subject, Task.ordinary, Payload.ordinary]
  | revoked i q reason idle =>
    refine starts idle rfl ?_
    split <;> simp [Task.ordinary]
  | released i q idle => exact starts idle rfl (by simp)
  | heard q seq said idle =>
    refine starts idle rfl ?_
    unfold Kernel.afterDelivery
    dsimp only
    split <;> split <;> simp [Task.ordinary, Payload.ordinary]
  | opened idle => exact starts idle rfl (by simp [Task.ordinary])
  | task actor p rest quiet next =>
    cases decrees.block with
    | apart still calm =>
      rw [next] at calm
      obtain ⟨ok, after⟩ := orderly_of_ordinary (e := e) still
        (payload ▸ calm _ (List.mem_cons_self ..))
      exact ⟨log ▸ each_snoc.mpr ⟨decrees.ordered, ok⟩,
        .apart (log ▸ after) (em.todo_eq ▸ fun t ht => calm t (List.mem_cons_of_mem _ ht))⟩
    | decides actor' d rest' still next' calm =>
      rw [next] at next'
      cases next'
      have ok : orderly k.log e = true := by simp [orderly, payload, still]
      have wait : awaiting (k.log ++ [e]) = true := by rw [awaiting_snoc, payload]; rfl
      refine ⟨log ▸ each_snoc.mpr ⟨decrees.ordered, ok⟩,
        .decided rest' (log ▸ wait) em.todo_eq calm em.handler ?_⟩
      rw [em.undelivered, (Desk.quiet_iff.mp quiet).2]
      simpa [payload] using (inert_of_calm rfl : (Payload.mandateDecided d).Inert)
    | decided rest' wait next' => rw [next] at next'; cases next'
  | bump rest quiet next =>
    cases decrees.block with
    | apart still calm =>
      have := calm .bump (by rw [next]; simp)
      cases this
    | decides actor' d rest' still next' => rw [next] at next'; cases next'
    | decided rest' wait next' calm =>
      rw [next] at next'
      cases next'
      have ok : orderly k.log e = true := by simp [orderly, payload, wait]
      have after : awaiting (k.log ++ [e]) = false := by rw [awaiting_snoc, payload]; rfl
      exact ⟨log ▸ each_snoc.mpr ⟨decrees.ordered, ok⟩, .apart (log ▸ after) (em.todo_eq ▸ calm)⟩
  | move trigger status rest quiet next =>
    cases decrees.block with
    | apart still calm =>
      rw [next] at calm
      obtain ⟨ok, after⟩ := orderly_of_ordinary (e := e) still (by rw [payload]; rfl)
      exact ⟨log ▸ each_snoc.mpr ⟨decrees.ordered, ok⟩,
        .apart (log ▸ after) (em.todo_eq ▸ fun t ht => calm t (List.mem_cons_of_mem _ ht))⟩
    | decides actor' d rest' still next' => rw [next] at next'; cases next'
    | decided rest' wait next' => rw [next] at next'; cases next'

theorem Kernel.Decrees.step {a : Kernel.Act} (decrees : k.Decrees)
    (plain : ∀ r ∈ k.desk.handler, r.plain = true) (h : k.step host a = some k') : k'.Decrees := by
  cases Kernel.taken_of_step h with
  | internally a d own stepped => exact decrees.internal own plain stepped
  | emitted begins em frame => exact decrees.begins begins em
  | waits i q users line =>
    refine ⟨decrees.ordered, ?_⟩
    cases decrees.block with
    | apart still calm => exact .apart still calm
    | decides actor d rest still next calm => exact .decides actor d rest still next calm
    | decided rest wait next calm idle inert => exact .decided rest wait next calm idle inert
  | hangsUp idle =>
    exact ⟨decrees.ordered, .apart (decrees.block.of_idle (idle_iff.mp idle).1)
      (by simp [Task.ordinary])⟩
  | expires seq card idle =>
    refine ⟨decrees.ordered, .apart (decrees.block.of_idle (idle_iff.mp idle).1) ?_⟩
    dsimp only
    split <;> simp [Task.ordinary]
  | skips trigger rest quiet next =>
    refine ⟨decrees.ordered, ?_⟩
    cases decrees.block with
    | apart still calm =>
      rw [next] at calm
      exact .apart still fun t ht => calm t (List.mem_cons_of_mem _ ht)
    | decides actor' d rest' still next' => rw [next] at next'; cases next'
    | decided rest' wait next' => rw [next] at next'; cases next'

theorem Kernel.Decrees.reach {ok : Kernel → Kernel.Act → Prop} {session : Session} {runId : String}
    (h : Reach (Kernel.step host) ok (Kernel.start session runId) k) : k.Decrees :=
  h.invariant (I := Kernel.Decrees) ⟨Lib.each_nil _, .apart rfl (by simp [Kernel.start])⟩
    fun hr decrees _ hs => decrees.step (KernelInv.reach hr).fence.plain hs

/-- Run lemma: a run of the kernel writes a log of mandates. -/
theorem written_reach {ok : Kernel → Kernel.Act → Prop} {session : Session} {runId : String}
    (h : Reach (Kernel.step host) ok (Kernel.start session runId) k) : Written k.log k.board := by
  have decrees := Kernel.Decrees.reach h
  have inv := KernelInv.reach h
  have ids := (MandateIds.reach h).distinct
  refine ⟨inv.fence.sound.fold, inv.fence.sound.dense, fun e he => ?_,
    ids.sublist (List.sublist_append_left ..), decrees.ordered⟩
  obtain ⟨before, after, split⟩ := List.append_of_mem he
  exact (stamped_reach h before e after split).2.2.1

end runs

end ProxyLoop
