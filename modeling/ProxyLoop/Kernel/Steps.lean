import ProxyLoop.Kernel.Provenance

/-!
# A block starts

One lemma for each kind of step that starts a block, or writes between two: it keeps the kernel's
invariant and says where its event comes from.
-/

namespace ProxyLoop

open Lib (Dict Reach anyStep)

section step

variable {host : Host} {k k₀ k' : Kernel} {e : Event} {causes : List Nat} {p : Payload}
  {todo : List Task}

/-- The invariant after a step, with what it wrote. -/
def Advances (host : Host) (k k' : Kernel) : Prop := KernelInv host k' ∧ Wrote host k k'

theorem advances (inv : KernelInv host k) (w : k₀.Writes p todo e k') (block : Block host k' todo)
    (origin : Provenance host k.board k.log e) (respects : Respects k k₀ p e todo) :
    Advances host k k' := by
  have appended : k.desk.Appended e k'.desk := respects.desk ▸ w.appended
  exact ⟨inv.emits w block origin respects,
    .event e appended.log appended.applied appended.seq origin⟩

theorem not_minting_nil : ¬ Minting [] := by
  rintro (h | ⟨_, _, h⟩) <;> cases h

/-- An event that is neither a mint, a delivery nor a status change. -/
theorem respects_calm (desk : k₀.desk = k.desk) (lines : ∀ q ∈ k₀.lines, q ∈ k.lines)
    (floor : k₀.floor = k.floor) (still : p.movesStatus = false)
    (unminted : ∀ a, p ≠ .actionAuthorized a) (other : isDelivery e = false)
    (mint : Minting k.todo → Minting todo) : Respects k k₀ p e todo where
  desk := desk
  lines := lines
  mint _ h := Or.inl ⟨mint h, still⟩
  minted a hp := absurd hp (unminted a)
  floor hf := Or.inl (floor ▸ hf)
  left c hp := by rw [hp] at still; cases still
  heard hd := by rw [other] at hd; cases hd

/-! ## Between two outer emits -/

theorem statusOk_of_reacted {c : StatusChanged} (h : Payload.reacted (.statusChanged c)) :
    StatusOk host k.board k.log c := by
  rcases h with ⟨was, next⟩ | ⟨was, next⟩ <;>
    exact ⟨fun h => by simp [next] at h, fun h => by simp [was] at h,
      fun h => by simp [next] at h, fun h => by simp [next] at h⟩

theorem origin_of_reacted (h : e.payload.reacted) : Provenance host k.board k.log e := by
  rcases Payload.reacted_cases h with ⟨op, id, utt, hp⟩ | ⟨bump, hp⟩ | ⟨c, hp⟩
  · exact .fence op id utt hp
  · exact .epoch bump hp
  · exact .status c hp (statusOk_of_reacted (hp ▸ h))

theorem KernelInv.internal {d : Desk} (inv : KernelInv host k) (h : k.desk.Internal d)
    (fence : FenceInv d) : Advances host k { k with desk := d } := by
  cases h with
  | quietly bus settling later =>
    have board : Kernel.board { k with desk := d } = k.board := congrArg Bus.bb bus
    have log : Kernel.log { k with desk := d } = k.log := congrArg Bus.events bus
    refine ⟨⟨fence, inv.block.quietly bus rfl settling later, ?_, ?_, inv.lines, ?_, ?_, ?_⟩,
      .nothing log board⟩
    · rw [board]; exact inv.intents
    · rw [board]; exact inv.live
    · intro q n hf
      have on := inv.floor hf
      exact ⟨by rw [log]; exact on.released, by rw [log]; exact on.unheard,
        by rw [board]; exact on.accept⟩
    · rw [log]; exact inv.causes
    · rw [board]; exact inv.clock.trans later
  | reacted e appended what unsettled =>
    have block : Block host { k with desk := d } k.todo :=
      inv.block.written appended rfl (Or.inl ⟨what, unsettled⟩)
    have writes : k.Writes e.payload k.todo e { k with desk := d } := by
      refine ⟨rfl, appended, rfl, ?_, rfl, fun _ => fence⟩
      rcases Payload.reacted_cases what with ⟨_, _, _, hp⟩ | ⟨_, hp⟩ | ⟨_, hp⟩ <;>
        simp [hp, Kernel.spawned]
    have undelivery : isDelivery e = false := by
      rcases Payload.reacted_cases what with ⟨_, _, _, hp⟩ | ⟨_, hp⟩ | ⟨_, hp⟩ <;> simp [isDelivery, hp]
    refine advances inv writes block (origin_of_reacted what) ⟨rfl, fun q hq => hq, ?_, ?_, Or.inl,
      ?_, fun hd => by rw [undelivery] at hd; cases hd⟩
    · intro inCall mint
      refine Or.inl ⟨mint, ?_⟩
      cases hm : e.payload.movesStatus with
      | false => rfl
      | true =>
        obtain ⟨c, hp⟩ := movesStatus_eq_true hm
        have was := (status_of_changed appended.applied hp).1.trans inCall
        rw [hp] at what
        rcases what with ⟨hw, _⟩ | ⟨hw, _⟩ <;> rw [was] at hw <;> cases hw
    · intro a hp
      rw [hp] at what
      cases what
    · intro c hp was
      rw [hp] at what
      rcases what with ⟨hw, _⟩ | ⟨hw, _⟩ <;> rw [was] at hw <;> cases hw

theorem KernelInv.deskStep {a : DeskAct} (inv : KernelInv host k) (h : k.internal a = some k')
    (kind : ∀ d, k.desk.step a = some d → k.desk.Internal d) : Advances host k k' := by
  obtain ⟨d, hd, rfl⟩ := Option.map_eq_some_iff.mp h
  exact inv.internal (kind d hd) (inv.fence.step (Desk.stepped hd))

/-! ## The world -/

theorem origin_of_free (free : k.free causes p = true) (hp : e.payload = p)
    (hc : e.causes = causes) : Provenance host k.board k.log e := by
  unfold Kernel.free at free
  split at free
  · refine .delivered (by simp [isDelivery, hp]) (Or.inl fun r hr rel cited => ?_)
    have := List.all_eq_true.mp free r.seq (hc ▸ cited)
    have := List.all_eq_true.mp this r hr
    simp [rel] at this
  · exact .quiet (by rw [hp]; rfl) (by simp [isDelivery, hp])
  · rename_i lane kind text capId ref
    simp only [Bool.and_eq_true, decide_eq_true_eq, Option.isNone_iff_eq_none] at free
    obtain ⟨⟨rfl, rfl⟩, rfl⟩ := free
    exact .otherLine lane text hp
  · rename_i lane capId
    rw [Option.isNone_iff_eq_none] at free
    subst free
    exact .quiet (by rw [hp]; rfl) (by simp [isDelivery, hp])
  · cases free
  · cases free
  · rename_i undelivered _ _ _ _ _
    refine .quiet (hp ▸ free) ?_
    unfold isDelivery
    split
    · rename_i l u g t i hd
      exact absurd (hp.symm.trans hd) (undelivered l u g t i)
    · rfl

theorem free_calm (free : k.free causes p = true) :
    p.movesStatus = false ∧ ∀ a, p ≠ .actionAuthorized a := by
  cases p <;> simp_all [Kernel.free, Payload.isQuiet, Payload.movesStatus]

theorem free_unheard (free : k.free causes p = true) (hp : e.payload = p)
    (hc : e.causes = causes) (hd : isDelivery e = true) : ¬ LineHeard k.log e := by
  rintro ⟨r, hr, id, hrel, hcites, _⟩
  unfold isDelivery at hd
  split at hd
  · rename_i l u g t i hu
    rw [hu] at hp
    subst hp
    have := List.all_eq_true.mp free r.seq (by rw [← hc, hcites]; simp)
    have := List.all_eq_true.mp this r hr
    simp [Payload.releasesCap, hrel] at this
  · cases hd

theorem KernelInv.world {tMs : Nat} {actor : Actor} (inv : KernelInv host k)
    (h : k.step host (.world tMs actor causes p) = some k') : Advances host k k' := by
  simp only [Kernel.step] at h
  split at h
  case isFalse => cases h
  rename_i allowed
  obtain ⟨e, em⟩ := Kernel.emits_of_emit h
  simp only [Bool.or_eq_true, Bool.and_eq_true, List.isEmpty_iff] at allowed
  rcases allowed with hold | ⟨idle, free⟩
  · have quiet : p.isQuiet = true ∧ p.silent = true ∧ p.movesStatus = false := by
      cases p <;> first | exact ⟨rfl, rfl, rfl⟩ | cases hold
    have other : isDelivery e = false := by
      unfold isDelivery
      rw [em.payload]
      cases p <;> first | rfl | cases hold
    have block : Block host k' k.todo :=
      inv.block.written em.appended em.floor
        (Or.inr ⟨by rw [em.payload]; exact quiet.1, em.settling quiet.2.1⟩)
    refine advances inv em.toWrites block (.quiet (by rw [em.payload]; exact quiet.1) other)
      (respects_calm rfl (fun q hq => hq) rfl quiet.2.2 ?_ other id)
    rintro a rfl
    cases hold
  · have block : Block host k' k.todo := .tail (by rw [idle]; simp)
    have calm := free_calm free
    refine advances inv em.toWrites block (origin_of_free free em.payload em.cites)
      ⟨rfl, fun q hq => hq, fun _ mint => Or.inl ⟨mint, calm.1⟩, fun a hp => absurd hp (calm.2 a),
        Or.inl, ?_, fun hd line => absurd line (free_unheard free em.payload em.cites hd)⟩
    intro c hp
    have still := calm.1
    rw [hp] at still
    cases still

/-! ## A block starts -/

/-- A step that writes no event. -/
theorem KernelInv.unwritten (inv : KernelInv host k) (desk : k'.desk = k.desk)
    (floor : k'.floor = k.floor) (block : Block host k' k'.todo)
    (mint : Minting k.todo → Minting k'.todo)
    (lines : ∀ q ∈ k'.lines, q.kind = .accept → q.cap ≠ none) : Advances host k k' := by
  have board : k'.board = k.board := by rw [Kernel.board, desk]
  have log : k'.log = k.log := by rw [Kernel.log, desk]
  refine ⟨⟨desk ▸ inv.fence, block, ?_, ?_, lines, ?_, ?_, ?_⟩, .nothing log board⟩
  · rw [board]; exact inv.intents
  · intro id c hc live
    rw [board] at hc ⊢
    exact (inv.live hc live).imp_right (And.imp_right mint)
  · intro q n hf
    have on := inv.floor (floor ▸ hf)
    exact ⟨by rw [log]; exact on.released, by rw [log]; exact on.unheard,
      by rw [board]; exact on.accept⟩
  · rw [log]; exact inv.causes
  · rw [board, desk]; exact inv.clock

theorem idle_iff : k.idle = true ↔ k.todo = [] ∧ k.desk.quiet = true := by
  simp [Kernel.idle]

theorem mint_of_nil {todo' : List Task} (h : todo = []) : Minting todo → Minting todo' := by
  intro m
  rw [h] at m
  exact absurd m not_minting_nil

theorem sameAuthority_bb (k : Kernel) : SameAuthority k.bb k.board := by constructor <;> rfl

/-- A block that starts with an event no other block or line depends on. -/
theorem KernelInv.begin (inv : KernelInv host k) (start : k.todo = [])
    (em : k₀.Emits causes p todo e k') (desk : k₀.desk = k.desk)
    (lines : ∀ q ∈ k₀.lines, q ∈ k.lines) (floor : k₀.floor = k.floor)
    (block : Block host k' todo) (origin : Provenance host k.board k.log e)
    (still : p.movesStatus = false) (unminted : ∀ a, p ≠ .actionAuthorized a)
    (other : isDelivery e = false) : Advances host k k' :=
  advances inv em.toWrites block origin
    (respects_calm desk lines floor still unminted other (mint_of_nil start))

theorem KernelInv.tool {tMs : Nat} {call : ToolCall} (inv : KernelInv host k)
    (h : k.step host (.tool tMs causes call) = some k') : Advances host k k' := by
  simp only [Kernel.step] at h
  split at h
  case isFalse => cases h
  rename_i idle
  obtain ⟨start, quiet⟩ := idle_iff.mp idle
  simp only [Kernel.tool] at h
  obtain ⟨e, em⟩ := Kernel.emits_of_emit h
  have appended : k.desk.Appended e k'.desk := em.appended
  have same : SameAuthority k.bb k'.board :=
    (sameAuthority_bb k).trans (sameAuthority_of_apply appended.applied (by rw [em.payload]; rfl))
  have before : k.bb.tMs ≤ k'.desk.now := by
    rw [appended.now]
    exact max_le (inv.clock.trans appended.later) appended.later
  have other : isDelivery e = false := by simp [isDelivery, em.payload]
  exact inv.begin start em rfl (fun q hq => hq) rfl
    (.called k.bb k.log k.nextMandate call same before
      (em.settling rfl (Desk.settling_of_quiet quiet)))
    (.quiet (by rw [em.payload]; rfl) other) rfl (fun a ha => by cases ha) other

theorem KernelInv.readback {tMs : Nat} {ref : String} {statuses : Dict String SlotStatus}
    (inv : KernelInv host k) (h : k.step host (.readback tMs causes ref statuses) = some k') :
    Advances host k k' := by
  simp only [Kernel.step] at h
  split at h
  case isFalse => cases h
  rename_i idle
  obtain ⟨start, quiet⟩ := idle_iff.mp idle
  simp only [Kernel.readback] at h
  split at h
  · cases h
  rename_i o found
  split at h
  · cases h
  split at h
  · cases h
  rename_i r update
  obtain ⟨e, em⟩ := Kernel.emits_of_emit h
  have given : readbackUpdate host.py o r.slotStatuses = .ok r := by
    obtain ⟨hash, hh, rfl⟩ := readbackUpdate_eq_ok.mp update
    exact update
  exact inv.begin start em rfl (fun q hq => hq) rfl (.tail (by simp))
    (.readback ref r o em.payload found given) rfl (fun a ha => by cases ha)
    (by simp [isDelivery, em.payload])

theorem KernelInv.post {tMs : Nat} {post : ApprovalPost} {by_ : Approver}
    (inv : KernelInv host k) (h : k.step host (.post tMs causes post by_) = some k') :
    Advances host k k' := by
  simp only [Kernel.step] at h
  split at h
  case isFalse => cases h
  rename_i idle
  obtain ⟨start, quiet⟩ := idle_iff.mp idle
  simp only [Kernel.decidePost] at h
  split at h
  · obtain ⟨e, em⟩ := Kernel.emits_of_emit h
    have other : isDelivery e = false := by simp [isDelivery, em.payload]
    exact inv.begin start em rfl (fun q hq => hq) rfl (.tail (by simp))
      (.quiet (by rw [em.payload]; rfl) other) rfl (fun a ha => by cases ha) other
  · cases h
  · rename_i decided ok
    obtain ⟨e, em⟩ := Kernel.emits_of_emit h
    have other : isDelivery e = false := by simp [isDelivery, em.payload]
    have decision : (∃ x, decided = .approvalDecided x) ∨ ∃ x, decided = .mandateDecided x := by
      rcases decide_eq_ok ok with ⟨m, _, _, _, hd⟩ | ⟨card, _, _, hd⟩
      · exact Or.inr ⟨_, hd⟩
      · exact Or.inl ⟨_, hd⟩
    exact inv.begin start em rfl (fun q hq => hq) rfl (.posted decided post decision)
      (.quiet (by rw [em.payload]; rfl) other) rfl (fun a ha => by cases ha) other

theorem KernelInv.openCall {tMs : Nat} (inv : KernelInv host k)
    (h : k.step host (.openCall tMs causes) = some k') : Advances host k k' := by
  simp only [Kernel.step] at h
  split at h
  case isFalse => cases h
  rename_i allowed
  simp only [Bool.and_eq_true] at allowed
  obtain ⟨start, quiet⟩ := idle_iff.mp allowed.1
  obtain ⟨e, em⟩ := Kernel.emits_of_emit h
  have other : isDelivery e = false := by simp [isDelivery, em.payload]
  refine inv.begin start em rfl (fun q hq => hq) rfl (.tail fun t ht => ?_)
    (.quiet (by rw [em.payload]; rfl) other) rfl (fun a ha => by cases ha) other
  rw [List.mem_singleton.mp ht]
  exact Or.inl rfl

theorem KernelInv.hangUp (inv : KernelInv host k) (h : k.step host .hangUp = some k') :
    Advances host k k' := by
  simp only [Kernel.step] at h
  split at h
  case isFalse => cases h
  rename_i idle
  cases h
  refine inv.unwritten rfl rfl (.tail fun t ht => ?_) (mint_of_nil (idle_iff.mp idle).1) inv.lines
  rw [List.mem_singleton.mp ht]
  exact Or.inl rfl

theorem KernelInv.expire {seq : Nat} (inv : KernelInv host k)
    (h : k.step host (.expire seq) = some k') : Advances host k k' := by
  simp only [Kernel.step] at h
  split at h
  case isFalse => cases h
  rename_i idle
  simp only [Kernel.expireCard] at h
  split at h
  · cases h
  split at h
  · cases h
  cases h
  refine inv.unwritten rfl rfl (.tail fun t ht => ?_) (mint_of_nil (idle_iff.mp idle).1) inv.lines
  dsimp only at ht
  split at ht
  · rw [List.mem_singleton.mp ht]
    exact Or.inl rfl
  · cases ht

/-! ## The floor -/

/-- A line that leaves the queue unreleased. -/
theorem KernelInv.revoked {tMs i : Nat} {reason : String} {q : Waiting} (inv : KernelInv host k)
    (start : k.todo = []) (empty : k.floor = none) (mem : q ∈ k.lines)
    (h : { k with lines := k.lines.eraseIdx i }.emit tMs .kernel [q.seq]
      (.speakRevoked .cp reason q.cap)
      (if q.kind = VerbatimKind.accept then [.move .acceptRevoked] else []) = some k') :
    Advances host k k' := by
  obtain ⟨e, em⟩ := Kernel.emits_of_emit h
  have appended : k.desk.Appended e k'.desk := em.appended
  have other : isDelivery e = false := by simp [isDelivery, em.payload]
  have origin : Provenance host k.board k.log e := by
    cases hc : q.cap with
    | none => exact .quiet (by rw [em.payload, hc]; rfl) other
    | some id => exact .revoked reason id (by rw [em.payload, hc])
  refine inv.begin start em rfl (fun x hx => List.mem_of_mem_eraseIdx hx) rfl
    (.tail fun t ht => ?_) origin rfl (fun a ha => by cases ha) other
  split at ht
  · rename_i accept
    obtain ⟨id, hid⟩ := Option.ne_none_iff_exists'.mp (inv.lines q mem accept)
    rw [List.mem_singleton.mp ht]
    have rev : e.revokes id := ⟨.cp, reason, by rw [em.payload, hid]⟩
    exact Or.inr ⟨noLive_of_used inv.law inv.intents appended.applied (Or.inr rev),
      em.floor.trans empty, Or.inl rfl⟩
  · cases ht

/-- A line that takes the floor. -/
theorem KernelInv.released {tMs i : Nat} {q : Waiting} (inv : KernelInv host k)
    (start : k.todo = []) (mem : q ∈ k.lines)
    (h : { k with lines := k.lines.eraseIdx i, floor := some (q, k.log.length) }.emit tMs .kernel
      [q.seq] (.speakReleased .cp q.cap) [] = some k') : Advances host k k' := by
  obtain ⟨e, em⟩ := Kernel.emits_of_emit h
  have other : isDelivery e = false := by simp [isDelivery, em.payload]
  have idle : ¬ Minting k.todo := by rw [start]; exact not_minting_nil
  have origin : Provenance host k.board k.log e := by
    cases hc : q.cap with
    | none => exact .quiet (by rw [em.payload, hc]; rfl) other
    | some id => exact .released id (by rw [em.payload, hc])
  refine advances inv em.toWrites (.tail (by simp)) origin
    ⟨rfl, fun x hx => List.mem_of_mem_eraseIdx hx, fun _ m => absurd m idle,
      (fun a ha => by cases ha), ?_, (fun c hc => by cases hc),
      (fun hd => by rw [other] at hd; cases hd)⟩
  intro q' n hf
  cases hf
  exact Or.inr ⟨idle, rfl, rfl, mem⟩

theorem KernelInv.takeFloor {tMs i : Nat} (inv : KernelInv host k)
    (h : k.step host (.floor tMs i) = some k') : Advances host k k' := by
  simp only [Kernel.step] at h
  split at h
  case isFalse => cases h
  rename_i idle
  have start := (idle_iff.mp idle).1
  simp only [Kernel.takeFloor] at h
  split at h
  case h_2 => cases h
  rename_i q empty at_
  have mem : q ∈ k.lines := List.mem_of_getElem? at_
  split at h
  · cases h
    refine inv.unwritten rfl rfl (.tail (by simp [start])) id fun x hx accept => ?_
    rcases List.mem_or_eq_of_mem_set hx with hx | rfl
    · exact inv.lines x hx accept
    · exact inv.lines q mem accept
  · exact inv.revoked start empty mem h
  · exact inv.released start mem h

theorem KernelInv.heard {tMs : Nat} {said : String} (inv : KernelInv host k)
    (h : k.step host (.heard tMs said) = some k') : Advances host k k' := by
  simp only [Kernel.step] at h
  split at h
  case isFalse => cases h
  rename_i idle
  have start := (idle_iff.mp idle).1
  simp only [Kernel.hearLine] at h
  split at h
  · cases h
  rename_i q seq taken
  split at h
  case isFalse => cases h
  obtain ⟨e, em⟩ := Kernel.emits_of_emit h
  have appended : k.desk.Appended e k'.desk := em.appended
  have on := inv.floor taken
  obtain ⟨r, hr, hseq, hrel⟩ := on.released
  have deliv : isDelivery e = true := by simp [isDelivery, em.payload]
  have origin : Provenance host k.board k.log e := by
    refine .delivered deliv ?_
    cases hc : q.cap with
    | none =>
      refine Or.inl fun x hx rel cited => ?_
      rw [em.cites, List.mem_singleton] at cited
      have := inv.fence.sound.seq_inj hx hr (cited.trans hseq.symm)
      rw [this, hrel, hc] at rel
      cases rel
    | some id =>
      refine Or.inr ⟨r, hr, id, by rw [hrel, hc], by rw [em.cites, hseq], fun d hd hdel => ?_⟩
      rw [hseq]
      exact on.unheard (by rw [hc]; exact Option.some_ne_none id) d hd hdel
  have block : Block host k' (Kernel.afterDelivery q said) := by
    refine .tail fun t ht => ?_
    rcases List.mem_append.mp ht with ht | ht
    · split at ht
      · cases ht
      · rw [List.mem_singleton.mp ht]
        trivial
    · split at ht
      · rename_i accept
        obtain ⟨hcap, none_live, _⟩ := on.accept accept
        obtain ⟨id, hid⟩ := Option.ne_none_iff_exists'.mp hcap
        rw [List.mem_singleton.mp ht]
        refine Or.inr ⟨none_live.apply inv.law appended.applied fun a ha => ?_, em.floor, ?_⟩
        · rw [em.payload] at ha
          cases ha
        · split
          · rename_i whole
            subst whole
            refine Or.inr (Or.inr ⟨rfl, r, ?_, id, by rw [hrel, hid], e, ?_, ?_⟩)
            · rw [Kernel.log, appended.log]
              exact List.mem_append_left _ hr
            · rw [Kernel.log, appended.log]
              simp
            · exact ⟨by rw [em.cites, hseq], Kernel.kindText q.kind ++ "-" ++ toString q.seq, q.text,
                by rw [em.payload]; simp⟩
          · exact Or.inr (Or.inl rfl)
      · cases ht
  exact advances inv em.toWrites block origin
    ⟨rfl, fun x hx => hx, fun _ m => absurd (start ▸ m) not_minting_nil,
      (fun a ha => by cases ha), (fun hf => by cases hf), (fun c hc => by cases hc),
      fun _ _ => rfl⟩

end step

end ProxyLoop
