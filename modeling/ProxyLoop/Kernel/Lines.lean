import ProxyLoop.Kernel.Cards

/-!
# The accept line of an authorized commit

While a commit is authorized exactly one accept line waits for the floor, with its capability in
flight, or is being delivered, with its capability released: its revocation or its delivery moves
the case.
-/

namespace ProxyLoop

open Lib (Dict Reach anyStep)

def Waiting.isAccept (q : Waiting) : Bool := q.kind = .accept

def floorAccepts : Option (Waiting × Nat) → Nat
  | some (q, _) => if q.isAccept then 1 else 0
  | none => 0

/-- How many accept lines are queued or being delivered. -/
def Kernel.accepts (k : Kernel) : Nat := k.lines.countP Waiting.isAccept + floorAccepts k.floor

/-- The status change of a mint. -/
def authorizes : Task := .emit .guard (.statusChanged ⟨.inCall, .commitAuthorized⟩)

def acceptLine (text id : String) : Task :=
  .emit .guard (.speakVerbatim .cp .accept text (some id) none)

/-- A block still moves the case of an accept line that left the queue. -/
def Ending (todo : List Task) : Prop :=
  .move .acceptRevoked ∈ todo ∨ .move .acceptHeard ∈ todo ∨ .move .acceptTruncated ∈ todo

/-- The capability the line holds, and whether it was released. -/
def HasCap (bb : Blackboard) (q : Waiting) (used : Bool) : Prop :=
  ∃ id cap, q.cap = some id ∧ bb.capabilities.get? id = some cap ∧ cap.consumed = used

structure LineInv (k : Kernel) : Prop where
  one : k.accepts ≤ 1
  home : 0 < k.accepts →
    awaitsLine k.board.pub.status ∨ k.board.pub.status = .inCall ∧ k.todo = [authorizes]
  queued : ∀ q ∈ k.lines, q.isAccept = true → HasCap k.board q false
  floored : ∀ q n, k.floor = some (q, n) → q.isAccept = true → HasCap k.board q true
  bare : ∀ q ∈ k.lines, q.isAccept = false → q.cap = none
  authorizing : ∀ pre actor c post, k.todo = pre ++ .emit actor (.statusChanged c) :: post →
    c.status = .commitAuthorized → 0 < k.accepts ∨ ∃ text id, acceptLine text id ∈ pre
  waits : k.board.pub.status = .commitAuthorized → 0 < k.accepts ∨ Ending k.todo

section lines

variable {host : Host} {k k' : Kernel} {e : Event} {causes : List Nat} {p : Payload}
  {todo rest : List Task}

/-! ### What a block may write -/

/-- What the next event of a block is to the accept lines. -/
inductive LineTask (k : Kernel) (rest : List Task) : Payload → Prop
  | accept (text id : String) (inCall : k.board.pub.status = .inCall) (next : rest = [authorizes]) :
      LineTask k rest (.speakVerbatim .cp .accept text (some id) none)
  | decline (text ref : String) : LineTask k rest (.speakVerbatim .cp .decline text none (some ref))
  | status (c : StatusChanged) (other : c.previous ≠ .commitAuthorized) :
      LineTask k rest (.statusChanged c)
  | other {p : Payload} (unspoken : ∀ k : Kernel, k.spawned p = []) (still : p.movesStatus = false)
      (unused : (∀ lane id, p ≠ .speakReleased lane id) ∧ ∀ lane reason id, p ≠ .speakRevoked lane reason id) :
      LineTask k rest p

theorem lineTask_of_block {actor : Actor} (block : Block host k (.emit actor p :: rest)) :
    LineTask k rest p := by
  generalize ht : Task.emit actor p :: rest = todo at block
  cases block with
  | tail ok =>
    have tail : tailPayload p := ok (.emit actor p) (ht ▸ List.mem_cons_self ..)
    cases p with
    | statusChanged c => exact .status c tail.2.2.2
    | s2fMsg m => exact .other (fun _ => rfl) rfl ⟨by simp, by simp⟩
    | mandateProposed m => exact .other (fun _ => rfl) rfl ⟨by simp, by simp⟩
    | chanBargeIn => exact .other (fun _ => rfl) rfl ⟨by simp, by simp⟩
    | _ => cases tail
  | called bb events mid call same before settling =>
    cases he : (runTool host bb events mid call).effects with
    | nil => rw [he] at ht; cases ht
    | cons p' rest' =>
      rw [he] at ht
      cases ht
      cases effect_of_runTool he with
      | decline ref text => exact .decline text ref
      | status c calm => exact .status c calm.2.2.2
      | _ => exact .other (fun _ => rfl) rfl ⟨by simp, by simp⟩
  | minting inCall mint =>
    rcases mint with mint | ⟨text, id, mint⟩
    · rw [mint] at ht
      cases ht
      exact .status _ (by decide)
    · rw [mint] at ht
      cases ht
      exact .accept text id inCall rfl
  | judged c judged settling =>
    cases ht
    exact .status c judged.uncommitted.2
  | posted d post decision =>
    cases ht
    rcases decision with ⟨x, rfl⟩ | ⟨x, rfl⟩
    · exact .other (fun _ => rfl) rfl ⟨by simp, by simp⟩
    · exact .other (fun _ => rfl) rfl ⟨by simp, by simp⟩

/-! ### What an event leaves -/

/-- A line's capability stays as it is unless the event uses it. -/
theorem HasCap.apply {bb bb' : Blackboard} {q : Waiting} {used : Bool} (law : CapabilityLaw bb)
    (h : ProxyLoop.apply bb e = .ok bb') (holds : HasCap bb q used)
    (safe : used = true ∨ ∀ id, q.cap = some id → ¬ e.releases id ∧ ¬ e.revokes id) :
    HasCap bb' q used := by
  obtain ⟨id, cap, own, found, hu⟩ := holds
  have move := capabilityMove_of_apply law h found
  refine ⟨id, cap, own, ?_, hu⟩
  generalize hc : bb'.capabilities.get? id = after at move
  cases move with
  | kept => rfl
  | released unused by_ =>
    rcases safe with rfl | safe
    · rw [hu] at unused
      cases unused
    · exact absurd by_ (safe id own).1
  | revoked unused by_ =>
    rcases safe with rfl | safe
    · rw [hu] at unused
      cases unused
    · exact absurd by_ (safe id own).2

theorem status_of_reacted {bb bb' : Blackboard} (h : apply bb e = .ok bb') (what : e.payload.reacted) :
    bb'.pub.status = bb.pub.status ∨
      (bb.pub.status = .awaitingApproval ∨ bb.pub.status = .needsReplan) ∧
        (bb'.pub.status = .needsReplan ∨ bb'.pub.status = .inCall) := by
  cases hm : e.payload.movesStatus with
  | false => exact Or.inl (status_of_apply h hm)
  | true =>
    obtain ⟨c, hp⟩ := movesStatus_eq_true hm
    obtain ⟨was, now, -⟩ := status_of_changed h hp
    rw [hp] at what
    rw [← was, now]
    rcases what with ⟨a, b⟩ | ⟨a, b⟩
    · exact Or.inr ⟨Or.inl a, Or.inl b⟩
    · exact Or.inr ⟨Or.inr a, Or.inr b⟩

theorem unused_of_reacted (what : e.payload.reacted) (id : String) :
    ¬ e.releases id ∧ ¬ e.revokes id := by
  refine ⟨?_, ?_⟩
  · rintro ⟨lane, hp⟩
    rw [hp] at what
    cases what
  · rintro ⟨lane, reason, hp⟩
    rw [hp] at what
    cases what

/-- What a step that moves no accept line leaves of the lines. -/
structure SameLines (k k' : Kernel) : Prop where
  lines : ∀ q ∈ k'.lines, (∃ was ∈ k.lines, q.cap = was.cap ∧ q.isAccept = was.isAccept) ∨
    q.isAccept = false ∧ q.cap = none
  floor : ∀ q n, k'.floor = some (q, n) → q.isAccept = true → k.floor = some (q, n)
  accepts : k'.accepts = k.accepts

theorem SameLines.of_eq (lines : k'.lines = k.lines) (floor : k'.floor = k.floor) : SameLines k k' :=
  ⟨fun q hq => Or.inl ⟨q, lines ▸ hq, rfl, rfl⟩, fun q n hf _ => floor ▸ hf,
    by rw [Kernel.accepts, Kernel.accepts, lines, floor]⟩

theorem LineInv.kept (inv : LineInv k) (same : SameLines k k')
    (holds : ∀ q used, HasCap k.board q used → HasCap k'.board q used)
    (home : 0 < k.accepts →
      awaitsLine k'.board.pub.status ∨ k'.board.pub.status = .inCall ∧ k'.todo = [authorizes])
    (authorizing : ∀ pre actor c post, k'.todo = pre ++ .emit actor (.statusChanged c) :: post →
      c.status = .commitAuthorized → 0 < k.accepts ∨ ∃ text id, acceptLine text id ∈ pre)
    (waits : k'.board.pub.status = .commitAuthorized → 0 < k.accepts ∨ Ending k'.todo) :
    LineInv k' := by
  refine ⟨by rw [same.accepts]; exact inv.one, by rw [same.accepts]; exact home, fun q hq own => ?_,
    fun q n hf own => holds q _ (inv.floored q n (same.floor q n hf own) own), fun q hq own => ?_,
    by rw [same.accepts]; exact authorizing, by rw [same.accepts]; exact waits⟩
  · rcases same.lines q hq with ⟨was, mem, cap, kind⟩ | ⟨other, -⟩
    · obtain ⟨id, c, hcap, held⟩ := holds was _ (inv.queued was mem (kind ▸ own))
      exact ⟨id, c, cap.trans hcap, held⟩
    · rw [other] at own
      cases own
  · rcases same.lines q hq with ⟨was, mem, cap, kind⟩ | ⟨-, bare⟩
    · exact cap.trans (inv.bare was mem (kind ▸ own))
    · exact bare

theorem LineInv.internal (inv : LineInv k) (base : KernelInv host k) {d : Desk}
    (h : k.desk.Internal d) : LineInv { k with desk := d } := by
  cases h with
  | quietly bus settling later =>
    have board : ({ k with desk := d } : Kernel).board = k.board := congrArg Bus.bb bus
    exact inv.kept (.of_eq rfl rfl) (fun q used holds => by rw [board]; exact holds)
      (by rw [board]; exact inv.home) inv.authorizing (by rw [board]; exact inv.waits)
  | reacted e appended what unsettled =>
    have applied : apply k.board e = .ok ({ k with desk := d } : Kernel).board := appended.applied
    have status := status_of_reacted applied what
    refine inv.kept (.of_eq rfl rfl) (fun q used holds => holds.apply base.law applied
      (Or.inr fun id _ => unused_of_reacted what id)) (fun some_line => ?_) inv.authorizing fun ca => ?_
    · rcases status with same | ⟨was, -⟩
      · rw [same]
        exact inv.home some_line
      · rcases inv.home some_line with (h | h) | ⟨h, -⟩ <;> rw [h] at was <;>
          rcases was with was | was <;> cases was
    · rcases status with same | ⟨-, now⟩
      · exact inv.waits (same ▸ ca)
      · rw [ca] at now
        rcases now with now | now <;> cases now

/-! ### A block starts -/

theorem not_ending_nil : ¬ Ending [] := by
  rintro (h | h | h) <;> cases h

/-- Before a block starts, a case whose commit is authorized has its line. -/
theorem LineInv.line_of_idle (inv : LineInv k) (empty : k.todo = [])
    (ca : k.board.pub.status = .commitAuthorized) : 0 < k.accepts :=
  (inv.waits ca).resolve_right fun h => by
    rw [empty] at h
    exact not_ending_nil h

theorem LineInv.home_of_idle (inv : LineInv k) (empty : k.todo = []) (some_line : 0 < k.accepts) :
    awaitsLine k.board.pub.status := by
  rcases inv.home some_line with h | ⟨-, h⟩
  · exact h
  · rw [empty] at h
    cases h

theorem authorizing_of_effects {bb : Blackboard} {events : List Event} {mid : String}
    {call : ToolCall} {pre post : List Task} {actor : Actor} {c : StatusChanged}
    (split : (runTool host bb events mid call).effects.map (Task.emit .guard) =
      pre ++ .emit actor (.statusChanged c) :: post) (ca : c.status = .commitAuthorized) :
    ∃ text id, acceptLine text id ∈ pre := by
  have mem : .statusChanged c ∈ (runTool host bb events mid call).effects := by
    have : Task.emit actor (.statusChanged c) ∈
        (runTool host bb events mid call).effects.map (Task.emit .guard) := by
      rw [split]
      simp
    obtain ⟨p, hp, same⟩ := List.mem_map.mp this
    cases same
    exact hp
  obtain ⟨trigger, own, legal⟩ := triggers_of_effects mem
  have authorized : trigger = .acceptAuthorized := by
    rw [ca] at legal
    generalize bb.pub.status = was at legal
    cases trigger <;> cases was <;> first | rfl | cases legal
  rw [authorized] at own
  cases call with
  | acceptOffer ref =>
    have shape : ∃ cap text, (runTool host bb events mid (.acceptOffer ref)).effects =
        .actionAuthorized ⟨.acceptOffer, cap⟩ ::
          .speakVerbatim .cp .accept text (some cap.capId) none :: moved bb .acceptAuthorized := by
      simp only [runTool, acceptOfferTool] at mem ⊢
      split at mem
      · exact absurd mem not_mem_denied
      · exact ⟨_, _, rfl⟩
    obtain ⟨cap, text, shape⟩ := shape
    rw [shape] at split
    refine ⟨text, cap.capId, ?_⟩
    -- the status is neither of the first two
    rcases pre with _ | ⟨x, _ | ⟨y, pre⟩⟩
    · cases split
    · cases split
    · simp only [List.map_cons, List.cons_append, List.cons.injEq] at split
      rw [← split.2.1]
      simp [acceptLine]
  | finish outcome heard => cases outcome <;> simp [ToolCall.triggers] at own
  | _ => simp [ToolCall.triggers] at own

/-- A block that starts with an event that is about no accept line and no capability. -/
theorem LineInv.starts (inv : LineInv k) (empty : k.todo = []) (lines : SameLines k k')
    (applied : apply k.board e = .ok k'.board) (capless : e.payload.movesCap = false)
    (still : e.payload.movesStatus = false)
    (authorizing : ∀ pre actor c post, k'.todo = pre ++ .emit actor (.statusChanged c) :: post →
      c.status = .commitAuthorized → ∃ text id, acceptLine text id ∈ pre) : LineInv k' := by
  have same : k'.board.pub.status = k.board.pub.status := status_of_apply applied still
  have caps : k'.board.capabilities = k.board.capabilities := capabilities_of_apply applied capless
  refine inv.kept lines (fun q used holds => ?_) (fun some_line => ?_)
    (fun pre actor c post split ca => Or.inr (authorizing pre actor c post split ca)) fun ca => ?_
  · obtain ⟨id, cap, own, found, hu⟩ := holds
    exact ⟨id, cap, own, by rw [caps]; exact found, hu⟩
  · rw [same]
    exact Or.inl (inv.home_of_idle empty some_line)
  · exact Or.inl (inv.line_of_idle empty (same ▸ ca))

/-- A todo without status changes authorizes nothing. -/
theorem unauthorizing (none_changes : ∀ t ∈ todo, ∀ actor c, t ≠ .emit actor (.statusChanged c)) :
    ∀ pre actor c post, todo = pre ++ .emit actor (.statusChanged c) :: post →
      c.status = .commitAuthorized → ∃ text id, acceptLine text id ∈ pre := by
  intro pre actor c post split _
  exact absurd rfl (none_changes (.emit actor (.statusChanged c)) (by rw [split]; simp) actor c)

theorem countP_split {i : Nat} {q : Waiting} {ls : List Waiting} (line : ls[i]? = some q) :
    ls.countP Waiting.isAccept =
      (ls.eraseIdx i).countP Waiting.isAccept + if q.isAccept then 1 else 0 := by
  obtain ⟨hi, rfl⟩ := List.getElem?_eq_some_iff.mp line
  conv_lhs => rw [← List.take_append_drop i ls, List.drop_eq_getElem_cons hi]
  rw [List.eraseIdx_eq_take_drop_succ, List.countP_append, List.countP_append, List.countP_cons]
  omega

/-- No accept line is left once the one there was is taken. -/
theorem none_left (inv : LineInv k) {i : Nat} {q : Waiting} (line : k.lines[i]? = some q)
    (own : q.isAccept = true) :
    (∀ q' ∈ k.lines.eraseIdx i, q'.isAccept = false) ∧ floorAccepts k.floor = 0 ∧
      (k.lines.eraseIdx i).countP Waiting.isAccept = 0 := by
  have one := inv.one
  have split := countP_split line
  rw [own, if_pos rfl] at split
  rw [Kernel.accepts] at one
  refine ⟨fun q' hq' => ?_, by omega, by omega⟩
  have zero : (k.lines.eraseIdx i).countP Waiting.isAccept = 0 := by omega
  exact Bool.eq_false_iff.mpr (List.countP_eq_zero.mp zero q' hq')

theorem LineInv.revoked (inv : LineInv k) {i : Nat} {q : Waiting} {reason : String}
    (empty : k.todo = []) (line : k.lines[i]? = some q) (lines : k'.lines = k.lines.eraseIdx i)
    (floor : k'.floor = k.floor) (applied : apply k.board e = .ok k'.board)
    (hp : e.payload = .speakRevoked .cp reason q.cap)
    (ends : k'.todo = if q.kind = VerbatimKind.accept then [.move .acceptRevoked] else []) :
    LineInv k' := by
  have sub : ∀ q' ∈ k'.lines, q' ∈ k.lines := fun q' h => List.mem_of_mem_eraseIdx (lines ▸ h)
  have count := countP_split line
  cases own : q.isAccept with
  | false =>
    have bare := inv.bare q (List.mem_of_getElem? line) own
    have plain : k'.todo = [] := by
      rw [ends, if_neg]
      simpa [Waiting.isAccept] using own
    refine inv.starts empty ⟨fun q h => Or.inl ⟨q, sub q h, rfl, rfl⟩, fun q n hf _ => floor ▸ hf, ?_⟩ applied (by rw [hp, bare]; rfl)
      (by rw [hp]; rfl) ?_
    · rw [own] at count
      rw [Kernel.accepts, Kernel.accepts, lines, floor, count]
      simp
    · rw [plain]
      exact unauthorizing (by simp)
  | true =>
    obtain ⟨rest, bare, zero⟩ := none_left inv line own
    have none_waits : k'.accepts = 0 := by rw [Kernel.accepts, lines, floor, bare, zero]
    have moves : k'.todo = [.move .acceptRevoked] := by
      rw [ends, if_pos]
      simpa [Waiting.isAccept] using own
    refine ⟨by omega, fun h => by omega, fun q' hq' own' => ?_, fun q' n hf own' => ?_,
      fun q' hq' own' => inv.bare q' (sub q' hq') own', ?_, fun _ => Or.inr (Or.inl ?_)⟩
    · rw [lines] at hq'
      rw [rest q' hq'] at own'
      cases own'
    · rw [← floor, hf] at bare
      simp [floorAccepts, own'] at bare
    · rw [moves]
      exact fun pre actor c post split ca => Or.inr (unauthorizing (by simp) pre actor c post split ca)
    · rw [moves]
      exact List.mem_singleton_self _

theorem LineInv.released (inv : LineInv k) (base : KernelInv host k) {i n : Nat} {q : Waiting}
    (empty : k.todo = []) (free : k.floor = none) (line : k.lines[i]? = some q)
    (lines : k'.lines = k.lines.eraseIdx i) (floor : k'.floor = some (q, n))
    (applied : apply k.board e = .ok k'.board) (hp : e.payload = .speakReleased .cp q.cap)
    (ends : k'.todo = []) : LineInv k' := by
  have sub : ∀ q' ∈ k'.lines, q' ∈ k.lines := fun q' h => List.mem_of_mem_eraseIdx (lines ▸ h)
  have same : k'.accepts = k.accepts := by
    rw [Kernel.accepts, Kernel.accepts, lines, floor, free, countP_split line]
    simp [floorAccepts]
  have still : k'.board.pub.status = k.board.pub.status :=
    status_of_apply applied (by rw [hp]; rfl)
  cases own : q.isAccept with
  | false =>
    have bare := inv.bare q (List.mem_of_getElem? line) own
    refine inv.starts empty ⟨fun q h => Or.inl ⟨q, sub q h, rfl, rfl⟩, fun q' n' hf own' => ?_, same⟩ applied (by rw [hp, bare]; rfl)
      (by rw [hp]; rfl) (by rw [ends]; exact unauthorizing (by simp))
    rw [floor] at hf
    cases hf
    rw [own] at own'
    cases own'
  | true =>
    obtain ⟨rest, -, -⟩ := none_left inv line own
    obtain ⟨id, cap, hcap, found, unused⟩ := inv.queued q (List.mem_of_getElem? line) own
    obtain ⟨c, found', -, after⟩ := released_get? base.law applied ⟨.cp, by rw [hp, hcap]⟩
    refine ⟨by rw [same]; exact inv.one, fun h => ?_, fun q' hq' own' => ?_, fun q' n' hf _ => ?_,
      fun q' hq' own' => inv.bare q' (sub q' hq') own', ?_, fun ca => ?_⟩
    · rw [still]
      exact Or.inl (inv.home_of_idle empty (same ▸ h))
    · rw [lines] at hq'
      rw [rest q' hq'] at own'
      cases own'
    · rw [floor] at hf
      cases hf
      exact ⟨id, _, hcap, after, rfl⟩
    · rw [ends]
      exact fun pre actor c post split ca => Or.inr (unauthorizing (by simp) pre actor c post split ca)
    · rw [same]
      exact Or.inl (inv.line_of_idle empty (still ▸ ca))

theorem LineInv.heard (inv : LineInv k) {q : Waiting} {n : Nat} {said : String}
    (empty : k.todo = []) (onFloor : k.floor = some (q, n)) (lines : k'.lines = k.lines)
    (floor : k'.floor = none) (applied : apply k.board e = .ok k'.board)
    (capless : e.payload.movesCap = false) (still : e.payload.movesStatus = false)
    (ends : k'.todo = Kernel.afterDelivery q said) : LineInv k' := by
  have unchanging : ∀ t ∈ k'.todo, ∀ actor c, t ≠ .emit actor (.statusChanged c) := by
    rw [ends]
    intro t ht actor c
    unfold Kernel.afterDelivery at ht
    rcases List.mem_append.mp ht with ht | ht
    · split at ht
      · cases ht
      · rw [List.mem_singleton.mp ht]
        simp
    · split at ht
      · rw [List.mem_singleton.mp ht]
        simp
      · cases ht
  have count : k.accepts = k'.accepts + floorAccepts k.floor := by
    rw [Kernel.accepts, Kernel.accepts, lines, floor]
    rfl
  rw [onFloor] at count
  cases own : q.isAccept with
  | false =>
    refine inv.starts empty ⟨fun q h => Or.inl ⟨q, lines ▸ h, rfl, rfl⟩, fun q' n' hf _ => ?_, ?_⟩ applied capless
      still (unauthorizing unchanging)
    · rw [floor] at hf
      cases hf
    · rw [count]
      simp [floorAccepts, own]
  | true =>
    have one := inv.one
    simp only [floorAccepts, own, if_true] at count
    have none_waits : k'.lines.countP Waiting.isAccept = 0 := by
      have : k'.accepts = 0 := by omega
      rw [Kernel.accepts] at this
      omega
    refine ⟨by omega, fun h => by omega, fun q' hq' own' => ?_, fun q' n' hf _ => ?_,
      fun q' hq' own' => inv.bare q' (lines ▸ hq') own',
      fun pre actor c post split ca => Or.inr (unauthorizing unchanging pre actor c post split ca),
      fun _ => Or.inr ?_⟩
    · exact absurd own' (List.countP_eq_zero.mp none_waits q' hq')
    · rw [floor] at hf
      cases hf
    · have accept : q.kind = .accept := by simpa [Waiting.isAccept] using own
      rw [ends, Kernel.afterDelivery, if_pos accept]
      by_cases whole : said = q.text
      · exact Or.inr (Or.inl (by simp [whole]))
      · exact Or.inr (Or.inr (by simp [whole]))

/-! ### A block goes on -/

theorem Ending.tail {t : Task} (h : Ending (t :: rest)) (other : ∀ trigger, t ≠ .move trigger) :
    Ending rest := by
  have drop : ∀ {trigger}, Task.move trigger ∈ t :: rest → Task.move trigger ∈ rest := fun h =>
    (List.mem_cons.mp h).resolve_left fun same => other _ same.symm
  exact h.imp drop (Or.imp drop drop)

theorem LineInv.authorizing_tail (inv : LineInv k) {t : Task} (next : k.todo = t :: rest)
    (other : ∀ text id, t ≠ acceptLine text id) :
    ∀ pre actor c post, rest = pre ++ .emit actor (.statusChanged c) :: post →
      c.status = .commitAuthorized → 0 < k.accepts ∨ ∃ text id, acceptLine text id ∈ pre := by
  intro pre actor c post split ca
  rcases inv.authorizing (t :: pre) actor c post (by rw [next, split]; rfl) ca with h | ⟨text, id, h⟩
  · exact Or.inl h
  · exact Or.inr ⟨text, id, (List.mem_cons.mp h).resolve_left fun same => other text id same.symm⟩

theorem LineInv.goesOn (inv : LineInv k) {t : Task} (next : k.todo = t :: rest)
    (ends : k'.todo = rest) (lines : SameLines k k')
    (holds : ∀ q used, HasCap k.board q used → HasCap k'.board q used)
    (still : k'.board.pub.status = k.board.pub.status) (unauthorized : t ≠ authorizes)
    (other : ∀ text id, t ≠ acceptLine text id) (stays : ∀ trigger, t ≠ .move trigger) :
    LineInv k' := by
  refine inv.kept lines holds (fun some_line => ?_) ?_ fun ca => ?_
  · rw [still]
    rcases inv.home some_line with h | ⟨-, h⟩
    · exact Or.inl h
    · rw [next] at h
      exact absurd (List.cons.inj h).1 unauthorized
  · rw [ends]
    exact inv.authorizing_tail next other
  · rw [ends]
    rcases inv.waits (still ▸ ca) with h | h
    · exact Or.inl h
    · exact Or.inr (Ending.tail (next ▸ h) stays)

/-- The accept line of a mint: it is the only one, and its capability is in flight. -/
theorem LineInv.minted (inv : LineInv k) {actor : Actor} {text id : String} {q : Waiting}
    (next : k.todo = .emit actor (.speakVerbatim .cp .accept text (some id) none) :: rest)
    (inCall : k.board.pub.status = .inCall) (tail : rest = [authorizes]) (ends : k'.todo = rest)
    (lines : k'.lines = k.lines ++ [q]) (floor : k'.floor = k.floor) (accept : q.isAccept = true)
    (own : q.cap = some id) (applied : apply k.board e = .ok k'.board)
    (hp : e.payload = .speakVerbatim .cp .accept text (some id) none) : LineInv k' := by
  have none_waits : k.accepts = 0 := by
    by_contra h
    rcases inv.home (by omega) with (h | h) | ⟨-, h⟩
    · rw [inCall] at h
      cases h
    · rw [inCall] at h
      cases h
    · rw [next] at h
      cases h
  have count : k'.accepts = 1 := by
    have := none_waits
    rw [Kernel.accepts] at this
    rw [Kernel.accepts, lines, floor, List.countP_append, List.countP_singleton, if_pos accept]
    omega
  have same : k'.board.pub.status = k.board.pub.status :=
    status_of_apply applied (by rw [hp]; rfl)
  have caps : k'.board.capabilities = k.board.capabilities :=
    capabilities_of_apply applied (by rw [hp]; rfl)
  have holds : ∀ q used, HasCap k.board q used → HasCap k'.board q used := by
    rintro q used ⟨id, cap, own, found, hu⟩
    exact ⟨id, cap, own, by rw [caps]; exact found, hu⟩
  have fresh : HasCap k'.board q false := by
    obtain ⟨b, hc, hb⟩ := change_of_apply applied
    cases hc with
    | acceptLine lane text' capId ref cap hp' found unused =>
      rw [hp] at hp'
      cases hp'
      exact ⟨id, cap, own, by rw [caps]; exact found, unused⟩
    | quiet hq => rw [hp] at hq; cases hq
    | _ => simp_all
  refine ⟨by omega, fun _ => Or.inr ⟨same.trans inCall, ends.trans tail⟩, fun q' hq' own' => ?_,
    fun q' n hf own' => holds q' _ (inv.floored q' n (floor ▸ hf) own'), fun q' hq' own' => ?_,
    fun _ _ _ _ _ _ => Or.inl (by omega), fun _ => Or.inl (by omega)⟩
  · rw [lines] at hq'
    rcases List.mem_append.mp hq' with hq' | hq'
    · exact holds q' _ (inv.queued q' hq' own')
    · rw [List.mem_singleton.mp hq']
      exact fresh
  · rw [lines] at hq'
    rcases List.mem_append.mp hq' with hq' | hq'
    · exact inv.bare q' hq' own'
    · rw [List.mem_singleton.mp hq', accept] at own'
      cases own'

theorem LineInv.task (inv : LineInv k) (base : KernelInv host k) {actor : Actor}
    (next : k.todo = .emit actor p :: rest) (ends : k'.todo = rest)
    (lines : k'.lines = k.lines ++ k.spawned p) (floor : k'.floor = k.floor)
    (applied : apply k.board e = .ok k'.board) (hp : e.payload = p) : LineInv k' := by
  have block := base.block
  rw [next] at block
  cases lineTask_of_block block with
  | accept text id inCall tail =>
    exact inv.minted next inCall tail ends lines floor rfl rfl applied hp
  | decline text ref =>
    have caps : k'.board.capabilities = k.board.capabilities :=
      capabilities_of_apply applied (by rw [hp]; rfl)
    refine inv.goesOn next ends ⟨fun q hq => ?_, fun q n hf _ => floor ▸ hf, ?_⟩ ?_
      (status_of_apply applied (by rw [hp]; rfl)) (by simp [authorizes]) (by simp [acceptLine]) (by simp)
    · rw [lines] at hq
      rcases List.mem_append.mp hq with hq | hq
      · exact Or.inl ⟨q, hq, rfl, rfl⟩
      · rw [List.mem_singleton.mp hq]
        exact Or.inr ⟨rfl, rfl⟩
    · rw [Kernel.accepts, Kernel.accepts, lines, floor, List.countP_append]
      rfl
    · rintro q used ⟨id, cap, own, found, hu⟩
      exact ⟨id, cap, own, by rw [caps]; exact found, hu⟩
  | status c other =>
    obtain ⟨was, now, live⟩ := status_of_changed applied hp
    have caps : k'.board.capabilities = k.board.capabilities :=
      capabilities_of_apply applied (by rw [hp]; rfl)
    refine inv.kept (.of_eq (lines.trans (List.append_nil _)) floor) ?_ (fun some_line => ?_) ?_ fun ca => ?_
    · rintro q used ⟨id, cap, own, found, hu⟩
      exact ⟨id, cap, own, by rw [caps]; exact found, hu⟩
    · rcases inv.home some_line with (h | h) | ⟨-, h⟩
      · exact absurd (was.trans h) other
      · rw [h] at live
        cases live
      · rw [next] at h
        cases h
        exact Or.inl (Or.inl now)
    · rw [ends]
      exact inv.authorizing_tail next fun _ _ h => by cases h
    · rcases inv.authorizing [] actor c rest next (now.symm.trans ca) with h | ⟨_, _, h⟩
      · exact Or.inl h
      · cases h
  | other unspoken still unused =>
    refine inv.goesOn next ends (.of_eq (lines.trans (by rw [unspoken]; simp)) floor) (fun q used holds => ?_)
      (status_of_apply applied (hp ▸ still)) (fun h => ?_) (fun text id h => ?_) (by simp)
    · refine holds.apply base.law applied (Or.inr fun id _ => ⟨?_, ?_⟩)
      · rintro ⟨lane, hr⟩
        exact unused.1 lane _ (hp.symm.trans hr)
      · rintro ⟨lane, reason, hr⟩
        exact unused.2 lane reason _ (hp.symm.trans hr)
    · cases h
      cases still
    · cases h
      have := unspoken k
      simp [Kernel.spawned] at this

theorem taskOk_of_block {trigger : Trigger} (block : Block host k (.move trigger :: rest)) :
    TaskOk k (.move trigger) := by
  generalize ht : Task.move trigger :: rest = todo at block
  cases block with
  | tail ok => exact ok _ (ht ▸ List.mem_cons_self ..)
  | called bb events mid call =>
    cases he : (runTool host bb events mid call).effects <;> rw [he] at ht <;> cases ht
  | minting inCall mint => rcases mint with mint | ⟨_, _, mint⟩ <;> rw [mint] at ht <;> cases ht
  | judged c => cases ht
  | posted d => cases ht

theorem LineInv.moved (inv : LineInv k) (base : KernelInv host k) {trigger : Trigger}
    {status : CaseStatus} (next : k.todo = .move trigger :: rest)
    (legal : nextStatus k.board.pub.status trigger = some status) (ends : k'.todo = rest)
    (lines : k'.lines = k.lines) (floor : k'.floor = k.floor)
    (applied : apply k.board e = .ok k'.board)
    (hp : e.payload = .statusChanged ⟨k.board.pub.status, status⟩) : LineInv k' := by
  have block := base.block
  rw [next] at block
  have ok := taskOk_of_block block
  have now : k'.board.pub.status = status := (status_of_changed applied hp).2.1
  have caps : k'.board.capabilities = k.board.capabilities :=
    capabilities_of_apply applied (by rw [hp]; rfl)
  refine inv.kept (.of_eq lines floor) ?_ (fun some_line => ?_) ?_ fun ca => ?_
  · rintro q used ⟨id, cap, own, found, hu⟩
    exact ⟨id, cap, own, by rw [caps]; exact found, hu⟩
  · rw [now]
    rcases inv.home some_line with h | ⟨-, h⟩
    · rcases ok with plain | ⟨none_live, free, -⟩
      · rcases h with h | h
        · exact Or.inl (Or.inr ((plain_move plain legal).2.2.2 h))
        · rw [h] at legal
          cases trigger <;> cases legal
      · -- the line has left the floor, and one still queued would be in flight
        have queued : 0 < k.lines.countP Waiting.isAccept := by
          rw [Kernel.accepts, free] at some_line
          simpa [floorAccepts] using some_line
        obtain ⟨q, hq, own⟩ := List.countP_pos_iff.mp queued
        obtain ⟨id, cap, -, found, unused⟩ := inv.queued q hq own
        have live : isLiveAccept cap = true := by simp [isLiveAccept, base.intents found, unused]
        rw [none_live found] at live
        cases live
    · rw [next] at h
      cases h
  · rw [ends]
    exact inv.authorizing_tail next fun _ _ h => by cases h
  · rw [now] at ca
    rw [ca] at legal
    have authorized : trigger = .acceptAuthorized := by
      generalize k.board.pub.status = was at legal
      cases trigger <;> cases was <;> first | rfl | cases legal
    rw [authorized] at ok
    rcases ok with plain | ⟨-, -, line⟩
    · cases plain
    · rcases line with line | line | ⟨line, -⟩ <;> cases line

theorem LineInv.skips (inv : LineInv k) {trigger : Trigger} (next : k.todo = .move trigger :: rest)
    (illegal : nextStatus k.board.pub.status trigger = none) : LineInv { k with todo := rest } := by
  refine inv.kept (.of_eq rfl rfl) (fun _ _ holds => holds) (fun some_line => ?_)
    (inv.authorizing_tail next fun _ _ h => by cases h) fun ca => ?_
  · rcases inv.home some_line with h | ⟨-, h⟩
    · exact Or.inl h
    · rw [next] at h
      cases h
  · refine (inv.waits ca).imp id fun h => ?_
    have ca : k.board.pub.status = .commitAuthorized := ca
    rw [ca] at illegal
    rw [next] at h
    -- the move of an accept line is legal while the commit is authorized
    have drop : ∀ {t}, Task.move t ∈ Task.move trigger :: rest →
        nextStatus .commitAuthorized t ≠ none → Task.move t ∈ rest := fun h legal =>
      (List.mem_cons.mp h).resolve_left fun same => by cases same; exact legal illegal
    exact h.imp (drop · (by decide)) (Or.imp (drop · (by decide)) (drop · (by decide)))

/-! ### Every step -/

/-- What the world and the lanes emit is about no accept line. -/
theorem free_unspoken (what : p.isHold = true ∨ k.todo = [] ∧ ∃ causes, k.free causes p = true) :
    (∀ k : Kernel, k.spawned p = []) ∧ p.movesCap = false ∧ p.movesStatus = false := by
  rcases what with hold | ⟨-, causes, free⟩
  · cases p <;> first | exact ⟨fun _ => rfl, rfl, rfl⟩ | cases hold
  · cases p with
    | speakVerbatim lane kind text cap ref =>
      simp only [Kernel.free, Bool.and_eq_true, decide_eq_true_eq] at free
      exact ⟨fun k => by simp [Kernel.spawned, free.1.1], rfl, rfl⟩
    | speakReleased lane cap =>
      simp only [Kernel.free, Option.isNone_iff_eq_none] at free
      subst free
      exact ⟨fun _ => rfl, rfl, rfl⟩
    | _ => first | exact ⟨fun _ => rfl, rfl, rfl⟩ | cases free

theorem LineInv.emitted {k₀ : Kernel} (inv : LineInv k) (base : KernelInv host k)
    (begins : Kernel.Begins host k k₀ p todo) (em : k₀.Emits causes p todo e k') : LineInv k' := by
  have hp := em.payload
  have applied : apply k.board e = .ok k'.board := by
    have := em.appended.applied
    rwa [begins.desk] at this
  have ends := em.todo_eq
  have lines := em.lines
  have floor := em.floor
  have unmoved : k'.lines = k.lines ++ [] → k'.floor = k.floor → SameLines k k' := fun l f =>
    .of_eq (l.trans (List.append_nil _)) f
  cases begins with
  | world p what =>
    obtain ⟨unspoken, capless, still⟩ := free_unspoken what
    rw [unspoken] at lines
    have caps : k'.board.capabilities = k.board.capabilities :=
      capabilities_of_apply applied (hp ▸ capless)
    have same : k'.board.pub.status = k.board.pub.status := status_of_apply applied (hp ▸ still)
    refine inv.kept (unmoved lines floor) ?_ (by rw [same, ends]; exact inv.home)
      (by rw [ends]; exact inv.authorizing) (by rw [same, ends]; exact inv.waits)
    rintro q used ⟨id, cap, own, found, hu⟩
    exact ⟨id, cap, own, by rw [caps]; exact found, hu⟩
  | tool call idle =>
    refine inv.starts (idle_iff.mp idle).1 (unmoved lines floor) applied (by rw [hp]; rfl)
      (by rw [hp]; rfl) ?_
    rw [ends]
    exact fun pre actor c post split ca => authorizing_of_effects split ca
  | posted post by_ d idle allowed =>
    refine inv.starts (idle_iff.mp idle).1 (unmoved lines floor) applied (by rw [hp]; rfl)
      (by rw [hp]; rfl) ?_
    rw [ends]
    refine unauthorizing fun t ht actor c same => ?_
    rcases List.mem_cons.mp ht with h | h
    · rw [same] at h
      cases h
      cases decide_spec allowed
    · have := taskOk_afterDecision (k := k) t h
      unfold Kernel.afterDecision at h
      rw [same] at h
      split at h
      · cases List.mem_singleton.mp h
      · rcases List.mem_cons.mp h with h | h
        · cases h
        · split at h
          · cases List.mem_singleton.mp h
          · cases h
  | revoked i q reason idle free line =>
    exact inv.revoked (idle_iff.mp idle).1 line (lines.trans (List.append_nil _)) floor applied hp ends
  | released i q idle free line =>
    exact inv.released base (idle_iff.mp idle).1 free line (lines.trans (List.append_nil _)) floor
      applied hp ends
  | heard q seq said idle onFloor =>
    exact inv.heard (idle_iff.mp idle).1 onFloor (lines.trans (List.append_nil _)) floor applied
      (by rw [hp]; rfl) (by rw [hp]; rfl) ends
  | task actor p rest quiet next => exact inv.task base next ends lines floor applied hp
  | bump rest quiet next =>
    have caps : k'.board.capabilities = k.board.capabilities :=
      capabilities_of_apply applied (by rw [hp]; rfl)
    refine inv.goesOn next ends (unmoved lines floor) ?_ (status_of_apply applied (by rw [hp]; rfl))
      (fun h => by cases h) (fun _ _ h => by cases h) fun _ h => by cases h
    rintro q used ⟨id, cap, own, found, hu⟩
    exact ⟨id, cap, own, by rw [caps]; exact found, hu⟩
  | move trigger status rest quiet next legal =>
    exact inv.moved base next legal ends (lines.trans (List.append_nil _)) floor applied hp
  | _ =>
    refine inv.starts (idle_iff.mp ‹k.idle = true›).1 (unmoved lines floor) applied (by rw [hp]; rfl)
      (by rw [hp]; rfl) ?_
    rw [ends]
    exact unauthorizing (by simp)

theorem LineInv.step (inv : LineInv k) (base : KernelInv host k) (taken : Kernel.Taken host k k') :
    LineInv k' := by
  cases taken with
  | internally a d own stepped =>
    exact inv.internal base (Kernel.internal_of_own own base.fence.plain stepped)
  | emitted begins em frame => exact inv.emitted base begins em
  | skips trigger rest quiet next illegal => exact inv.skips next illegal
  | waits i q users line =>
    refine inv.kept ⟨fun q' hq' => ?_, fun q' n hf _ => hf, ?_⟩ (fun _ _ holds => holds) inv.home
      inv.authorizing inv.waits
    · rcases List.mem_or_eq_of_mem_set hq' with h | rfl
      · exact Or.inl ⟨q', h, rfl, rfl⟩
      · exact Or.inl ⟨q, List.mem_of_getElem? line, rfl, rfl⟩
    · have hi := (List.getElem?_eq_some_iff.mp line).1
      have again : (k.lines.set i { q with users := some users })[i]? =
          some { q with users := some users } := by simp [hi]
      have before := countP_split line
      have after := countP_split again
      rw [List.eraseIdx_set_eq] at after
      rw [Kernel.accepts, Kernel.accepts, before, after]
      rfl
  | hangsUp idle =>
    have empty := (idle_iff.mp idle).1
    exact inv.kept (.of_eq rfl rfl) (fun _ _ holds => holds)
      (fun some_line => Or.inl (inv.home_of_idle empty some_line))
      (fun pre actor c post split ca => Or.inr (unauthorizing (by simp) pre actor c post split ca))
      fun ca => Or.inl (inv.line_of_idle empty ca)
  | expires seq card idle timer due unfired =>
    have empty := (idle_iff.mp idle).1
    refine inv.kept (.of_eq rfl rfl) (fun _ _ holds => holds)
      (fun some_line => Or.inl (inv.home_of_idle empty some_line))
      (fun pre actor c post split ca => Or.inr (unauthorizing ?_ pre actor c post split ca))
      fun ca => Or.inl (inv.line_of_idle empty ca)
    dsimp only
    split <;> simp

theorem LineInv.reach {session : Session} {runId : String}
    (h : Reach (Kernel.step host) anyStep (Kernel.start session runId) k) : LineInv k :=
  h.invariant ⟨Nat.zero_le 1, (fun h => by cases h), by simp [Kernel.start], by simp [Kernel.start],
    by simp [Kernel.start], (fun pre actor c post h => by simp [Kernel.start] at h), fun h => by cases h⟩
    fun hr inv _ hs => inv.step (KernelInv.reach hr) (Kernel.taken_of_step hs)

end lines

end ProxyLoop
