import ProxyLoop.Contract.Views
import ProxyLoop.Core.History

/-!
# What a view may know

The counterparty's view is a function of what the log shows: the lines of its own call, guides,
public facts and summaries, offers and their read-backs, declines, holds and the status.  Whatever
else two logs hold, the user's lines, private facts, mandates, approvals or capabilities, their
views are the same if they show the same.  Slow's relay-only view is a function of the log without
the words that were said.
-/

namespace ProxyLoop.Views

open Lib (Dict)

variable {bb bb' b : Blackboard} {e : Event} {log log' : List Event}

/-! ## What a log shows -/

/-- What an event shows to the counterparty's lane. -/
inductive Shown
  | line (line : Line)
  | guide (guide : Guide)
  | hold (hold : Option HoldState)
  | fact (fact : PublicFact)
  | summary (text : String)
  | offer (ref : String) (offer : OfferPublic)
  | readback (r : Readback)
  | declined (ref : String)
  | status (status : CaseStatus)

def Payload.shown (tMs : Nat) : Payload → Option Shown
  | .uttFinal .cp speaker uttId text => some (.line ⟨uttId, speaker, text⟩)
  | .uttDelivered .cp uttId _ textHeard _ =>
    if textHeard = "" then none else some (.line ⟨uttId, .agent, textHeard⟩)
  | .s2fMsg msg => msg.guide.map .guide
  | .chanHold reason => some (.hold (reason.map fun r => ⟨r, tMs⟩))
  | .factRecorded .publicly key value source ref =>
    some (.fact ⟨key, value, source, ref.getD "None"⟩)
  | .summaryUpdated .publicly text => some (.summary text)
  | .offerRecorded ref revision slots expiresMs =>
    some (.offer ref (newRevision ref revision slots expiresMs))
  | .readbackUpdated r => some (.readback r)
  | .speakVerbatim _ .decline _ _ offerRef => some (.declined (offerRef.getD "None"))
  | .statusChanged change => some (.status change.status)
  | _ => none

def shown (e : Event) : Option Shown := Payload.shown e.tMs e.payload

/-- What the counterparty's lane may know. -/
structure Known where
  pub : PublicState := {}
  lines : List Line := []

namespace Known

def withOffer (k : Known) (ref : String) (f : OfferPublic → OfferPublic) : Known :=
  match k.pub.offers.get? ref with
  | some offer => { k with pub := { k.pub with offers := k.pub.offers.set ref (f offer) } }
  | none => k

def learn (k : Known) : Shown → Known
  | .line line => { k with lines := k.lines ++ [line] }
  | .guide guide => { k with pub := { k.pub with guidanceCp := [guide] } }
  | .hold hold => { k with pub := { k.pub with cpHold := hold } }
  | .fact fact => { k with pub := { k.pub with facts := k.pub.facts.set fact.key fact } }
  | .summary text => { k with pub := { k.pub with summary := text } }
  | .offer ref offer => { k with pub := { k.pub with offers := k.pub.offers.set ref offer } }
  | .readback r => k.withOffer r.offerRef (·.readBack r)
  | .declined ref => k.withOffer ref fun offer => { offer with status := .declined }
  | .status status => { k with pub := { k.pub with status } }

end Known

/-- What of the board the counterparty's view reads. -/
def known (bb : Blackboard) : Known := ⟨bb.pub, bb.channels.cp.lines⟩

theorem known_withOffer {ref : String} {offer : OfferPublic}
    (found : bb.pub.offers.get? ref = some offer) (f : OfferPublic → OfferPublic) :
    known (ProxyLoop.withOffer bb ref (f offer)) = (known bb).withOffer ref f := by
  simp only [Known.withOffer, known, found]
  rfl

def Known.Fits (k : Known) : Shown → Prop
  | .summary text => text.length ≤ maxPublicText
  | .offer ref offer => (k.pub.offers.set ref offer).size ≤ maxOffers
  | _ => True

/-- What an accepted event does to what the lane may know. -/
structure Teaches (bb : Blackboard) (e : Event) (b : Blackboard) : Prop where
  known : bb.pub.guidanceCp.length ≤ 1 → known b = (shown e).elim (known bb) (known bb).learn
  fits : ∀ s ∈ shown e, (Views.known bb).Fits s
  summary : b.priv.summary = bb.priv.summary ∨ b.priv.summary.length ≤ maxPrivateSummary

theorem Teaches.nothing (quiet : shown e = none) (same : Views.known b = Views.known bb)
    (summary : b.priv.summary = bb.priv.summary ∨ b.priv.summary.length ≤ maxPrivateSummary) :
    Teaches bb e b := by
  refine ⟨fun _ => ?_, fun s hs => ?_, summary⟩
  · rw [quiet]
    exact same
  · rw [quiet] at hs
    cases hs

theorem Teaches.shows (s : Shown) (shows : shown e = some s)
    (same : Views.known b = (Views.known bb).learn s) (fits : (Views.known bb).Fits s)
    (summary : b.priv.summary = bb.priv.summary) : Teaches bb e b := by
  refine ⟨fun _ => ?_, fun s' hs => ?_, .inl summary⟩
  · rw [shows]
    exact same
  · rw [shows] at hs
    cases hs
    exact fits

/-- An accepted event changes what the lane may know by what it shows, and by nothing else. -/
theorem teaches_of_reduce (h : reduce bb e = .ok b) : Teaches bb e b := by
  unfold reduce at h
  cases hp : e.payload <;> rw [hp] at h
  case uttFinal lane speaker uttId text =>
    cases h
    cases lane with
    | user => exact .nothing (by rw [shown, hp]; rfl) rfl (.inl rfl)
    | cp => exact .shows (.line ⟨uttId, speaker, text⟩) (by rw [shown, hp]; rfl) rfl trivial rfl
  case uttDelivered lane uttId generated heard interrupted =>
    cases h
    by_cases silent : heard = ""
    · rw [if_pos silent]
      refine .nothing ?_ rfl (.inl rfl)
      cases lane <;> simp [shown, hp, Payload.shown, silent]
    · rw [if_neg silent]
      cases lane with
      | user => exact .nothing (by rw [shown, hp]; rfl) rfl (.inl rfl)
      | cp =>
        exact .shows (.line ⟨uttId, .agent, heard⟩) (by simp [shown, hp, Payload.shown, silent]) rfl
          trivial rfl
  case s2fMsg msg =>
    cases h
    cases found : msg.guide with
    | none =>
      have quiet : shown e = none := by simp [shown, hp, Payload.shown, found]
      refine ⟨fun few => ?_, fun s hs => ?_, .inl rfl⟩
      · rw [quiet]
        have newest : (bb.pub.guidanceCp ++ msg.guide.toList).getLast?.toList =
            bb.pub.guidanceCp := by
          rw [found]
          generalize bb.pub.guidanceCp = guides at few
          rcases guides with - | ⟨g, - | ⟨g', rest⟩⟩
          · rfl
          · rfl
          · simp at few
        unfold s2f known
        rw [newest]
        rfl
      · rw [quiet] at hs
        cases hs
    | some guide =>
      have newest : (bb.pub.guidanceCp ++ msg.guide.toList).getLast?.toList = [guide] := by
        simp [found]
      refine .shows (.guide guide) (by simp [shown, hp, Payload.shown, found]) ?_ trivial rfl
      unfold s2f known
      rw [newest]
      rfl
  case factRecorded scope key value source ref =>
    cases scope with
    | privately =>
      simp only [privateFact, validated_bind, pure_eq_ok] at h
      obtain ⟨_, rfl⟩ := h
      exact .nothing (by rw [shown, hp]; rfl) rfl (.inl rfl)
    | publicly =>
      simp only [publicFact, require_bind, validated_bind, pure_eq_ok] at h
      obtain ⟨_, _, _, rfl⟩ := h
      exact .shows (.fact ⟨key, value, source, ref.getD "None"⟩) (by rw [shown, hp]; rfl) rfl
        trivial rfl
  case summaryUpdated scope text =>
    cases scope with
    | privately =>
      simp only [summary, validated_bind, pure_eq_ok] at h
      obtain ⟨short, rfl⟩ := h
      exact .nothing (by rw [shown, hp]; rfl) rfl (.inr short)
    | publicly =>
      simp only [summary, validated_bind, pure_eq_ok] at h
      obtain ⟨short, rfl⟩ := h
      exact .shows (.summary text) (by rw [shown, hp]; rfl) rfl short rfl
  case offerRecorded ref revision slots expiresMs =>
    simp only [offerRecorded, require_bind, validated_bind, pure_eq_ok] at h
    obtain ⟨_, _, few, rfl⟩ := h
    exact .shows (.offer ref (newRevision ref revision slots expiresMs)) (by rw [shown, hp]; rfl)
      rfl few rfl
  case readbackUpdated r =>
    simp only [readback, fetch_bind, require_bind, pure_eq_ok] at h
    obtain ⟨offer, found, _, rfl⟩ := h
    exact .shows (.readback r) (by rw [shown, hp]; rfl) (known_withOffer found (·.readBack r))
      trivial rfl
  case authorityEpoch =>
    simp only [epochBump, require_bind, pure_eq_ok] at h
    obtain ⟨_, rfl⟩ := h
    exact .nothing (by rw [shown, hp]; rfl) rfl (.inl rfl)
  case statusChanged change =>
    simp only [statusChanged, require_bind, pure_eq_ok] at h
    obtain ⟨_, _, _, rfl⟩ := h
    exact .shows (.status change.status) (by rw [shown, hp]; rfl) rfl trivial rfl
  case approvalPost =>
    simp only [posted, require_bind, pure_eq_ok] at h
    obtain ⟨_, rfl⟩ := h
    exact .nothing (by rw [shown, hp]; rfl) rfl (.inl rfl)
  case mandateProposed =>
    simp only [mandateProposed, require_bind, pure_eq_ok] at h
    obtain ⟨_, rfl⟩ := h
    exact .nothing (by rw [shown, hp]; rfl) rfl (.inl rfl)
  case mandateDecided =>
    simp only [mandateDecided, fetch_bind, require_bind, pure_eq_ok] at h
    obtain ⟨_, _, _, rfl⟩ := h
    exact .nothing (by rw [shown, hp]; rfl) rfl (.inl rfl)
  case approvalRequested =>
    simp only [approvalRequested, validated_bind, require_bind, pure_eq_ok] at h
    obtain ⟨_, _, _, rfl⟩ := h
    exact .nothing (by rw [shown, hp]; rfl) rfl (.inl rfl)
  case approvalDecided =>
    simp only [approvalDecided, fetch_bind, require_bind, pure_eq_ok] at h
    obtain ⟨_, _, _, _, rfl⟩ := h
    exact .nothing (by rw [shown, hp]; rfl) rfl (.inl rfl)
  case actionAuthorized =>
    simp only [authorized, require_bind, pure_eq_ok] at h
    obtain ⟨_, _, _, _, _, rfl⟩ := h
    exact .nothing (by rw [shown, hp]; rfl) rfl (.inl rfl)
  case speakVerbatim lane kind text capId offerRef =>
    cases kind with
    | accept =>
      simp only [verbatim, liveCap_bind, pure_eq_ok] at h
      obtain ⟨_, _, _, rfl⟩ := h
      exact .nothing (by rw [shown, hp]; rfl) rfl (.inl rfl)
    | decline =>
      simp only [verbatim, fetch_bind, pure_eq_ok] at h
      obtain ⟨offer, found, rfl⟩ := h
      exact .shows (.declined (offerRef.getD "None")) (by rw [shown, hp]; rfl)
        (known_withOffer found fun offer => { offer with status := .declined }) trivial rfl
    | other =>
      cases h
      exact .nothing (by rw [shown, hp]; rfl) rfl (.inl rfl)
  case speakReleased lane capId =>
    cases capId with
    | none =>
      cases h
      exact .nothing (by rw [shown, hp]; rfl) rfl (.inl rfl)
    | some id =>
      simp only [released, liveCap_bind, fetch_bind, require_bind, pure_eq_ok] at h
      obtain ⟨_, _, _, _, _, _, _, _, _, _, _, _, _, rfl⟩ := h
      exact .nothing (by rw [shown, hp]; rfl) rfl (.inl rfl)
  case speakRevoked lane reason capId =>
    cases capId with
    | none =>
      cases h
      exact .nothing (by rw [shown, hp]; rfl) rfl (.inl rfl)
    | some id =>
      simp only [revoked, liveCap_bind, pure_eq_ok] at h
      obtain ⟨_, _, _, rfl⟩ := h
      exact .nothing (by rw [shown, hp]; rfl) rfl (.inl rfl)
  case chanHold reason =>
    cases h
    exact .shows (.hold (reason.map fun r => ⟨r, e.tMs⟩)) (by rw [shown, hp]; rfl) rfl trivial rfl
  all_goals
    cases h
    exact .nothing (by rw [shown, hp]; rfl) rfl (.inl rfl)

/-! ## A log -/

/-- The bounds of a view, which every accepted log keeps. -/
structure Bounded (bb : Blackboard) : Prop where
  summary : bb.pub.summary.length ≤ maxPublicText
  priv : bb.priv.summary.length ≤ maxPrivateSummary
  offers : bb.pub.offers.size ≤ maxOffers
  guides : bb.pub.guidanceCp.length ≤ 1

theorem bounds_withOffer (k : Known) (ref : String) (f : OfferPublic → OfferPublic) :
    (k.withOffer ref f).pub.summary = k.pub.summary ∧
      (k.withOffer ref f).pub.offers.size = k.pub.offers.size ∧
      (k.withOffer ref f).pub.guidanceCp = k.pub.guidanceCp := by
  unfold Known.withOffer
  cases found : k.pub.offers.get? ref with
  | none => exact ⟨rfl, rfl, rfl⟩
  | some offer => exact ⟨rfl, Lib.Dict.size_set_of_some found _, rfl⟩

theorem Bounded.apply (bounded : Bounded bb) (h : apply bb e = .ok bb') : Bounded bb' := by
  obtain ⟨b, hb, rfl⟩ := apply_eq_ok.mp h
  obtain ⟨same, fits, summary⟩ := teaches_of_reduce hb
  have same := same bounded.guides
  have priv : b.priv.summary.length ≤ maxPrivateSummary :=
    summary.elim (fun kept => kept ▸ bounded.priv) id
  have pub : b.pub = (known b).pub := rfl
  suffices all : b.pub.summary.length ≤ maxPublicText ∧ b.pub.offers.size ≤ maxOffers ∧
      b.pub.guidanceCp.length ≤ 1 from ⟨all.1, priv, all.2.1, all.2.2⟩
  rw [pub, same]
  cases shows : shown e with
  | none => exact ⟨bounded.summary, bounded.offers, bounded.guides⟩
  | some s =>
    have fits := fits s shows
    cases s with
    | guide guide => exact ⟨bounded.summary, bounded.offers, Nat.le_refl _⟩
    | summary text => exact ⟨fits, bounded.offers, bounded.guides⟩
    | offer ref offer => exact ⟨bounded.summary, fits, bounded.guides⟩
    | readback r =>
      obtain ⟨summary, size, guides⟩ := bounds_withOffer (known bb) r.offerRef (·.readBack r)
      exact ⟨summary ▸ bounded.summary, size ▸ bounded.offers, guides ▸ bounded.guides⟩
    | declined ref =>
      obtain ⟨summary, size, guides⟩ := bounds_withOffer (known bb) ref
        fun offer => { offer with status := .declined }
      exact ⟨summary ▸ bounded.summary, size ▸ bounded.offers, guides ▸ bounded.guides⟩
    | line | hold | fact | status => exact ⟨bounded.summary, bounded.offers, bounded.guides⟩

theorem bounded_of_fold (h : fold log = .ok bb) : Bounded bb :=
  fold_invariant h ⟨Nat.zero_le _, Nat.zero_le _, Nat.zero_le _, Nat.zero_le _⟩ Bounded.apply

/-- What the lane may know after a log is what the log shows, learned in order. -/
theorem known_of_fold (h : fold log b = .ok bb) (bounded : Bounded b) :
    known bb = (log.filterMap shown).foldl Known.learn (known b) := by
  induction log generalizing b with
  | nil =>
    cases h
    rfl
  | cons e log ih =>
    obtain ⟨b', first, h⟩ := fold_cons.mp h
    rw [ih h (bounded.apply first)]
    obtain ⟨c, reduced, rfl⟩ := apply_eq_ok.mp first
    have same := (teaches_of_reduce reduced).known bounded.guides
    rw [show known (stamp c e) = known c from rfl, same, List.filterMap_cons]
    cases shown e <;> rfl

/-- The counterparty's view after a log is a function of what the log shows. -/
theorem viewCp_of_shown (h : fold log = .ok bb) (h' : fold log' = .ok bb')
    (same : log.filterMap shown = log'.filterMap shown) (trigger : Trigger) (brief : String) :
    viewCp bb trigger brief = viewCp bb' trigger brief := by
  have bounded : Bounded {} := bounded_of_fold (rfl : fold [] = .ok {})
  have known : known bb = known bb' := by
    rw [known_of_fold h bounded, known_of_fold h' bounded, same]
  obtain ⟨pub, lines⟩ := Known.mk.inj known
  rw [viewCp, viewCp, pub, lines]

def saidAt (seq : Nat) (payload : Payload) : Event where
  runId := "r1"
  seq := seq
  tMs := 10 * seq
  actor := .kernel
  causes := []
  epoch := 0
  payload := payload

def calledLog : List Event := [saidAt 0 (.uttFinal .cp .partner "u1" "How can I help?")]

/-- The same call, with what the user said and what was noted of it. -/
def confidedLog : List Event :=
  [saidAt 0 (.userMsg "My pin is 4711."),
    saidAt 1 (.factRecorded .privately "account.pin" "4711" .user none),
    saidAt 2 (.uttFinal .cp .partner "u1" "How can I help?"),
    saidAt 3 (.summaryUpdated .privately "The user gave a pin.")]

theorem calledLog_board : fold calledLog = .ok (boardOf calledLog) := fold_boardOf rfl

theorem confidedLog_board : fold confidedLog = .ok (boardOf confidedLog) := fold_boardOf rfl

theorem viewCp_of_shown_sample :
    viewCp (boardOf calledLog) repSpoke "Lower the bill." =
      viewCp (boardOf confidedLog) repSpoke "Lower the bill." :=
  viewCp_of_shown calledLog_board confidedLog_board rfl repSpoke "Lower the bill."

/-! ## Views of accepted boards -/

theorem valid?_isSome {v : FastView} : v.valid?.isSome = (v.bounded && v.laneFields) := by
  unfold FastView.valid?
  split <;> simp_all

theorem pendingMsg_isSome {trigger : Trigger} {msg : Option SlowToFast}
    (h : pendingMsg bb trigger = some msg) :
    msg.isSome = Decidable.decide (trigger.kind = .slowMsg) := by
  unfold pendingMsg at h
  split at h
  · rename_i slow
    split at h
    · split at h
      · cases h
        simp [slow]
      · cases h
    · cases h
  · rename_i other
    cases h
    simp [other]

theorem Bounded.few (bounded : Bounded bb) : bb.pub.offers.values.length ≤ maxOffers := by
  rw [Dict.values, List.length_map]
  exact bounded.offers

theorem viewCp_isSome (bounded : Bounded bb) {trigger : Trigger} {brief : String}
    (short : brief.length ≤ maxBrief) :
    (viewCp bb trigger brief).isSome = true ↔ trigger.kind.lane = .cp := by
  have few := bounded.few
  obtain ⟨summary, -, -, guides⟩ := bounded
  have guides : bb.pub.guidanceCp.length ≤ maxGuides := Nat.le_trans guides (by decide)
  rw [viewCp, valid?_isSome]
  cases kind : trigger.kind <;>
    simp [FastView.bounded, FastView.laneFields, TriggerKind.lane, short, summary, few, guides,
      kind]

/-- A view of an accepted board is refused for its trigger alone: one of the other lane, one that
names no pending question or note to the user, or one for a card where none is pending. -/
theorem views_of_fold (h : fold log = .ok bb) (trigger : Trigger) (brief : String)
    (short : brief.length ≤ maxBrief) :
    ((viewCp bb trigger brief).isSome = true ↔ trigger.kind.lane = .cp) ∧
      ((viewUser bb trigger brief).isSome = true ↔ trigger.kind.lane = .user ∧
        (pendingMsg bb trigger).isSome = true ∧
        (trigger.kind = .approvalCard → bb.priv.pendingApproval.isSome = true)) := by
  have bounded := bounded_of_fold h
  refine ⟨viewCp_isSome bounded short, ?_⟩
  have few := bounded.few
  obtain ⟨summary, priv, -, -⟩ := bounded
  rw [viewUser]
  cases found : pendingMsg bb trigger with
  | none => simp
  | some msg =>
    have slow := pendingMsg_isSome found
    rw [Option.bind_eq_bind, Option.bind_some, valid?_isSome]
    cases kind : trigger.kind <;>
      simp [FastView.bounded, FastView.laneFields, TriggerKind.lane, short, summary, few, priv,
        kind, slow]

theorem views_of_fold_sample :
    (viewCp (boardOf confidedLog) repSpoke "Lower the bill.").isSome = true ∧
      (viewUser (boardOf confidedLog) repSpoke "Lower the bill.").isSome = false := by
  obtain ⟨call, user⟩ := views_of_fold confidedLog_board repSpoke "Lower the bill." (by decide)
  refine ⟨call.mpr rfl, Bool.eq_false_iff.mpr fun seen => ?_⟩
  have lane := (user.mp seen).1
  cases lane

/-! ## The log without its words -/

def hushText (text : String) : String := if text = "" then "" else "…"

/-- The payload without the words that were said; that something was said stays. -/
def Payload.hush : Payload → Payload
  | .userMsg text => .userMsg (hushText text)
  | .uttFinal lane speaker uttId text => .uttFinal lane speaker uttId (hushText text)
  | .uttDelivered lane uttId textGenerated textHeard interrupted =>
    .uttDelivered lane uttId (hushText textGenerated) (hushText textHeard) interrupted
  | payload => payload

def hush (e : Event) : Event := { e with payload := Payload.hush e.payload }

def hushLine (l : Line) : Line := { l with text := hushText l.text }

def hushChannel (c : ChannelState) : ChannelState := { c with lines := c.lines.map hushLine }

def hushed (bb : Blackboard) : Blackboard :=
  { bb with channels := ⟨hushChannel bb.channels.user, hushChannel bb.channels.cp⟩ }

theorem hushText_eq_empty {text : String} : hushText text = "" ↔ text = "" := by
  unfold hushText
  split <;> simp_all

theorem hushed_appendLine (bb : Blackboard) (lane : Lane) (line : Line) :
    hushed (appendLine bb lane line) = appendLine (hushed bb) lane (hushLine line) := by
  cases lane <;> simp [hushed, appendLine, Channels.get, Channels.set, hushChannel]

/-- Who said a line is known without its words. -/
theorem partnerUtts_hushed (bb : Blackboard) (lane : Lane) :
    partnerUtts (hushed bb) lane = partnerUtts bb lane := by
  cases lane <;>
    simp [partnerUtts, hushed, Channels.get, hushChannel, List.filter_map, Function.comp_def,
      hushLine] <;> rfl

theorem map_bind {α β γ : Type} (x : Except FoldError α) (f : α → Except FoldError β) (g : β → γ) :
    (x >>= f).map g = x >>= fun a => (f a).map g := by
  cases x <;> rfl

/-- No reducer reads the words. -/
theorem reduce_hush (bb : Blackboard) (e : Event) :
    (reduce bb e).map hushed = reduce (hushed bb) (hush e) := by
  unfold reduce hush
  cases e.payload
  case userMsg text => simp [Except.map, Payload.hush, hushed_appendLine, hushLine, Event.eventId]
  case uttFinal lane speaker uttId text =>
    simp [Except.map, Payload.hush, hushed_appendLine, hushLine]
  case uttDelivered lane uttId generated heard interrupted =>
    simp only [Except.map, Payload.hush, hushText_eq_empty]
    split <;> simp [hushed_appendLine, hushLine]
  case factRecorded scope key value source ref =>
    cases scope with
    | privately => simp only [Payload.hush, privateFact, map_bind]; rfl
    | publicly => simp only [Payload.hush, publicFact, map_bind, partnerUtts_hushed]; rfl
  case summaryUpdated scope text =>
    cases scope <;> simp only [Payload.hush, summary, map_bind] <;> rfl
  case offerRecorded => simp only [Payload.hush, offerRecorded, map_bind]; rfl
  case readbackUpdated => simp only [Payload.hush, readback, map_bind]; rfl
  case authorityEpoch => simp only [Payload.hush, epochBump, map_bind]; rfl
  case statusChanged => simp only [Payload.hush, statusChanged, map_bind]; rfl
  case mandateProposed => simp only [Payload.hush, mandateProposed, map_bind]; rfl
  case mandateDecided => simp only [Payload.hush, mandateDecided, map_bind]; rfl
  case approvalPost => simp only [Payload.hush, posted, map_bind]; rfl
  case approvalRequested => simp only [Payload.hush, approvalRequested, map_bind]; rfl
  case approvalDecided => simp only [Payload.hush, approvalDecided, map_bind]; rfl
  case actionAuthorized => simp only [Payload.hush, authorized, map_bind]; rfl
  case speakVerbatim lane kind text capId ref =>
    cases kind <;> simp only [Payload.hush, verbatim, map_bind] <;> rfl
  case speakReleased lane capId =>
    cases capId with
    | none => rfl
    | some id => simp only [Payload.hush, released, map_bind]; rfl
  case speakRevoked lane reason capId =>
    cases capId with
    | none => rfl
    | some id => simp only [Payload.hush, revoked, map_bind]; rfl
  all_goals rfl

theorem fold_hush (log : List Event) (bb : Blackboard) :
    (fold log bb).map hushed = fold (log.map hush) (hushed bb) := by
  induction log generalizing bb with
  | nil => rfl
  | cons e log ih =>
    have step : (apply bb e).map hushed = apply (hushed bb) (hush e) := by
      unfold apply
      rw [← reduce_hush]
      cases reduce bb e <;> rfl
    unfold fold at ih ⊢
    rw [List.foldlM_cons, List.map_cons, List.foldlM_cons, ← step, map_bind]
    cases apply bb e with
    | error err => rfl
    | ok b => exact ih b

theorem relayOnly_hushed (bb : Blackboard) (brief : String) :
    viewSlow (hushed bb) .relayOnly brief = viewSlow bb .relayOnly brief := rfl

/-- A log that differs in its words alone is accepted as well and gives the same relay-only view. -/
theorem relayOnly_of_hush (h : fold log = .ok bb) (same : log.map hush = log'.map hush)
    (brief : String) :
    ∃ bb', fold log' = .ok bb' ∧ viewSlow bb' .relayOnly brief = viewSlow bb .relayOnly brief := by
  have one := fold_hush log {}
  have other := fold_hush log' {}
  rw [← same, ← one, h] at other
  cases h' : fold log' with
  | error err =>
    rw [h'] at other
    cases other
  | ok bb' =>
    rw [h'] at other
    have board : hushed bb' = hushed bb := Except.ok.inj other
    exact ⟨bb', rfl, by rw [← relayOnly_hushed, board, relayOnly_hushed]⟩

def otherWords : List Event := [saidAt 0 (.uttFinal .cp .partner "u1" "Your pin?")]

theorem relayOnly_of_hush_sample :
    ∃ bb', fold otherWords = .ok bb' ∧ viewSlow bb' .relayOnly "Lower the bill." =
      viewSlow (boardOf calledLog) .relayOnly "Lower the bill." := by
  have same : calledLog.map hush = otherWords.map hush := rfl
  exact relayOnly_of_hush calledLog_board same "Lower the bill."

end ProxyLoop.Views
