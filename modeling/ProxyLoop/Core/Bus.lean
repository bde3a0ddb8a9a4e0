import ProxyLoop.Core.Effects

/-!
# The bus

The session's single writer.  `emit` stamps the sequence number and the epoch, checks the
envelope, folds (a rejected event is never written), and appends under the rules of the log.
-/

namespace ProxyLoop

structure Bus where
  runId : String
  bb : Blackboard := {}
  events : List Event := []

namespace Bus

/-- Nothing follows `session.ended`. -/
def ended (b : Bus) : Bool :=
  match b.events.getLast? with
  | some ⟨_, _, _, _, _, _, .sessionEnded _⟩ => true
  | _ => false

def next (b : Bus) (tMs : Nat) (actor : Actor) (causes : List Nat) (p : Payload) : Event :=
  ⟨b.runId, b.events.length, tMs, actor, causes, b.bb.epoch, p⟩

/-- The clock of the log never goes back. -/
def inOrder (b : Bus) (tMs : Nat) : Bool := b.events.getLast?.all (·.tMs ≤ tMs)

/-- `emit`, without the delivery; `none` where it raises. -/
def emit (b : Bus) (tMs : Nat) (actor : Actor) (causes : List Nat) (p : Payload) : Option Bus :=
  let e := b.next tMs actor causes p
  if b.ended || !e.wellFormed then none
  else match apply b.bb e with
    | .error _ => none
    | .ok bb =>
      if !b.inOrder tMs || (e.isDecision && !checkCauses b.events e) then none
      else some { b with bb, events := b.events ++ [e] }

structure Emitted (b : Bus) (e : Event) (b' : Bus) : Prop where
  events : b'.events = b.events ++ [e]
  applied : apply b.bb e = .ok b'.bb
  wellFormed : e.wellFormed = true
  causes : e.isDecision = true → checkCauses b.events e = true
  runId : b'.runId = b.runId

theorem emitted_of_emit {b b' : Bus} {tMs : Nat} {actor : Actor} {causes : List Nat} {p : Payload}
    (h : b.emit tMs actor causes p = some b') : Emitted b (b.next tMs actor causes p) b' := by
  simp only [emit] at h
  split at h
  · cases h
  · rename_i hw
    split at h
    · cases h
    · rename_i bb happ
      split at h
      · cases h
      · rename_i hc
        cases h
        simp only [Bool.or_eq_true, Bool.not_eq_eq_eq_not, Bool.not_true, not_or,
          Bool.not_eq_true, Bool.not_eq_false] at hw
        simp only [Bool.or_eq_true, Bool.not_eq_eq_eq_not, Bool.not_true, Bool.and_eq_true,
          not_or, Bool.not_eq_false, not_and] at hc
        exact ⟨rfl, happ, hw.2, hc.2, rfl⟩

/-- The board is the fold of the log, and the log is dense. -/
structure Sound (b : Bus) : Prop where
  fold : ProxyLoop.fold b.events = .ok b.bb
  dense : ∀ (i : Nat) (e : Event), b.events[i]? = some e → e.seq = i

theorem sound_new (runId : String) : Sound { runId } := ⟨rfl, by simp⟩

theorem Sound.emitted {b b' : Bus} {e : Event} (sound : b.Sound) (did : Emitted b e b')
    (seq : e.seq = b.events.length) : b'.Sound := by
  refine ⟨by rw [did.events]; exact fold_snoc.mpr ⟨_, sound.fold, did.applied⟩, ?_⟩
  intro i x hi
  rw [did.events, List.getElem?_append] at hi
  split at hi
  · exact sound.dense i x hi
  · rename_i hle
    rw [List.getElem?_singleton] at hi
    split at hi
    · cases hi
      omega
    · cases hi

theorem Sound.emit {b b' : Bus} {tMs : Nat} {actor : Actor} {causes : List Nat} {p : Payload}
    (sound : b.Sound) (h : b.emit tMs actor causes p = some b') : b'.Sound :=
  sound.emitted (emitted_of_emit h) rfl

theorem Sound.seq_lt {b : Bus} (sound : b.Sound) {e : Event} (h : e ∈ b.events) :
    e.seq < b.events.length := by
  obtain ⟨i, hi, he⟩ := List.getElem_of_mem h
  have := sound.dense i e (by rw [List.getElem?_eq_getElem hi, he])
  omega

theorem Sound.seq_inj {b : Bus} (sound : b.Sound) {e e' : Event} (h : e ∈ b.events)
    (h' : e' ∈ b.events) (hs : e.seq = e'.seq) : e = e' := by
  obtain ⟨i, hi, rfl⟩ := List.getElem_of_mem h
  obtain ⟨j, hj, rfl⟩ := List.getElem_of_mem h'
  have hi' := sound.dense i _ (List.getElem?_eq_getElem hi)
  have hj' := sound.dense j _ (List.getElem?_eq_getElem hj)
  have : i = j := by omega
  subst this; rfl

theorem Sound.seq_eq {b : Bus} (sound : b.Sound) {before after : List Event} {e : Event}
    (split : b.events = before ++ e :: after) : e.seq = before.length :=
  sound.dense before.length e (by simp [split])

theorem Sound.mem_before {b : Bus} (sound : b.Sound) {before after : List Event} {e x : Event}
    (split : b.events = before ++ e :: after) (h : x ∈ b.events) (earlier : x.seq < e.seq) :
    x ∈ before := by
  obtain ⟨pre, post, hx⟩ := List.append_of_mem h
  have at_x := sound.seq_eq hx
  have at_e := sound.seq_eq split
  have here : b.events[pre.length]? = some x := by simp [hx]
  rw [split, List.getElem?_append_left (by omega)] at here
  exact List.mem_of_getElem? here

end Bus

end ProxyLoop
