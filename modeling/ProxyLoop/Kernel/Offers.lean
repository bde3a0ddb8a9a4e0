import ProxyLoop.Kernel.Runs

/-!
# The recorded offers of a run

Every offer on the board is kept under its own ref, is a valid record, and binds a terms hash only
of its own slots.
-/

namespace ProxyLoop

open Lib (Dict)

/-- What holds of the recorded offers of every board of a run. -/
structure OfferLaw (py : Runtime) (bb : Blackboard) : Prop where
  keyed : ∀ {ref o}, bb.pub.offers.get? ref = some o → o.offerRef = ref
  valid : ∀ {ref o}, bb.pub.offers.get? ref = some o → o.valid = true
  hash : ∀ {ref o h}, bb.pub.offers.get? ref = some o → o.termsHash = some h →
    offerTermsHash py o = .ok (some h)

section offers

variable {py : Runtime} {bb b b' : Blackboard} {e : Event} {ref : String} {o : OfferPublic}

/-- What an event does to the recorded offers. -/
inductive OfferMove (bb : Blackboard) (e : Event) : Dict String OfferPublic → Prop
  | kept : OfferMove bb e bb.pub.offers
  | recorded (ref : String) (revision : Nat) (slots : List ReadbackSlot) (expiresMs : Option Int)
      (hp : e.payload = .offerRecorded ref revision slots expiresMs)
      (newer : ∀ prev, bb.pub.offers.get? ref = some prev → prev.revision < revision)
      (valid : (newRevision ref revision slots expiresMs).valid = true) :
      OfferMove bb e (bb.pub.offers.set ref (newRevision ref revision slots expiresMs))
  | readBack (r : Readback) (o : OfferPublic) (hp : e.payload = .readbackUpdated r)
      (found : bb.pub.offers.get? r.offerRef = some o) (rev : o.revision = r.revision) :
      OfferMove bb e (bb.pub.offers.set r.offerRef (o.readBack r))
  | declined (ref : String) (o : OfferPublic) (found : bb.pub.offers.get? ref = some o)
      (line : ∃ lane text capId, e.payload = .speakVerbatim lane .decline text capId (some ref) ∨
        ref = "None" ∧ e.payload = .speakVerbatim lane .decline text capId none) :
      OfferMove bb e (bb.pub.offers.set ref { o with status := .declined })

theorem offerMove_of_apply (h : apply b e = .ok b') : OfferMove b e b'.pub.offers := by
  obtain ⟨b₁, hc, rfl⟩ := change_of_apply h
  cases hc with
  | quiet hp same =>
    show OfferMove b e b₁.pub.offers
    rw [same.offers]
    exact .kept
  | offer ref revision slots expiresMs hp newer =>
    refine .recorded ref revision slots expiresMs hp newer ?_
    obtain ⟨b₂, hr, _⟩ := apply_eq_ok.mp h
    simp only [reduce, hp, offerRecorded, require_bind, validated_bind, pure_eq_ok] at hr
    exact hr.2.1
  | readback r o hp found rev => exact .readBack r o hp found rev
  | declineLine lane text capId offerRef o hp found =>
    refine .declined _ o found ⟨lane, text, capId, ?_⟩
    cases offerRef with
    | none => exact Or.inr ⟨rfl, hp⟩
    | some ref => exact Or.inl hp
  | _ => exact .kept

theorem offerLaw_empty : OfferLaw py {} where
  keyed h := by cases h
  valid h := by cases h
  hash h := by cases h

theorem valid_readBack {r : Readback} : (o.readBack r).valid = o.valid := by
  unfold OfferPublic.valid OfferPublic.readBack
  simp only [List.length_map]

theorem fieldValues_readBack {r : Readback} :
    fieldValues (o.readBack r).slots = fieldValues o.slots := by
  simp [fieldValues, OfferPublic.readBack, ReadbackSlot.withStatus]

theorem OfferLaw.set (law : OfferLaw py b) (offers : b'.pub.offers = b.pub.offers.set ref o)
    (keyed : o.offerRef = ref) (valid : o.valid = true)
    (hash : ∀ h, o.termsHash = some h → offerTermsHash py o = .ok (some h)) : OfferLaw py b' := by
  have at_ : ∀ {ref' o'}, b'.pub.offers.get? ref' = some o' →
      ref' = ref ∧ o' = o ∨ b.pub.offers.get? ref' = some o' := by
    intro ref' o' found
    rw [offers, Dict.get?_set] at found
    split at found
    · rename_i own
      exact Or.inl ⟨own, (Option.some.inj found).symm⟩
    · exact Or.inr found
  constructor
  · intro ref' o' found
    rcases at_ found with ⟨rfl, rfl⟩ | was
    · exact keyed
    · exact law.keyed was
  · intro ref' o' found
    rcases at_ found with ⟨rfl, rfl⟩ | was
    · exact valid
    · exact law.valid was
  · intro ref' o' h found bound
    rcases at_ found with ⟨rfl, rfl⟩ | was
    · exact hash h bound
    · exact law.hash was bound

/-- A read-back of a run is of the recorded offer's own slots. -/
theorem readback_of_origin {host : Host} {log : List Event} {r : Readback}
    (origin : Provenance host b log e) (hp : e.payload = .readbackUpdated r) :
    ∃ ref o, b.pub.offers.get? ref = some o ∧ readbackUpdate host.py o r.slotStatuses = .ok r := by
  cases origin with
  | readback ref r' o hp' found update =>
    rw [hp] at hp'
    cases hp'
    exact ⟨ref, o, found, update⟩
  | quiet hq => rw [hp] at hq; cases hq
  | delivered hq => simp [isDelivery, hp] at hq
  | _ => simp_all

theorem OfferLaw.step {host : Host} {log : List Event} (law : OfferLaw host.py b)
    (h : apply b e = .ok b') (origin : Provenance host b log e) : OfferLaw host.py b' := by
  have move := offerMove_of_apply h
  generalize ho : b'.pub.offers = offers at move
  cases move with
  | kept =>
    exact ⟨fun found => law.keyed (ho ▸ found), fun found => law.valid (ho ▸ found),
      fun found => law.hash (ho ▸ found)⟩
  | recorded ref revision slots expiresMs hp newer valid =>
    exact law.set ho rfl valid fun _ bound => by cases bound
  | readBack r o hp found =>
    obtain ⟨ref, o', found', update⟩ := readback_of_origin origin hp
    obtain ⟨bound, hash, hr⟩ := readbackUpdate_eq_ok.mp update
    -- the update names the offer it was read from
    have own : r.offerRef = ref := by rw [hr]; exact law.keyed found'
    rw [own, found'] at found
    cases found
    have same : offerTermsHash host.py (o.readBack r) = offerTermsHash host.py o :=
      offerTermsHash_congr rfl rfl fieldValues_readBack
    refine law.set ho (show o.offerRef = _ from (law.keyed found').trans own.symm)
      (valid_readBack.trans (law.valid found')) fun h hb => ?_
    have hb : bound = some h := by rw [hr] at hb; exact hb
    rw [same, hash, hb]
  | declined ref o found =>
    refine law.set ho (show o.offerRef = ref from law.keyed found)
      (show o.valid = true from law.valid found) fun h hb => ?_
    have same : offerTermsHash host.py { o with status := .declined } = offerTermsHash host.py o :=
      offerTermsHash_congr rfl rfl rfl
    exact same.trans (law.hash found hb)

/-- Run lemma: the offers of every board of a run obey the law. -/
theorem offerLaw_of_traced {host : Host} {log : List Event} (traced : Traced host log)
    (h : fold log = .ok bb) : OfferLaw host.py bb :=
  traced.invariant h offerLaw_empty
    fun _ _ _ _ _ _ _ law applied origin => law.step applied origin

end offers

end ProxyLoop
