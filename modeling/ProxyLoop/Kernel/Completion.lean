import ProxyLoop.Kernel.Limits
import ProxyLoop.Kernel.Offers

/-!
# What a verified completion rests on

A case becomes `VERIFIED_COMPLETE` from `EVIDENCE_PENDING`, that from `COMMITTED`, and that only as
the released accept was heard whole; the verifier's verdict adds the evidence and the limits.
-/

namespace ProxyLoop

open Lib (Dict Reach anyStep)

/-! ## The one release and its delivery -/

/-- The one entry of a list that satisfies `p`. -/
theorem split_of_countP {α : Type} {p : α → Bool} {l : List α} (h : l.countP p = 1) :
    ∃ pre x post, l = pre ++ x :: post ∧ p x = true ∧ (∀ y ∈ pre, p y = false) ∧
      ∀ y ∈ post, p y = false := by
  obtain ⟨x, hx, hp⟩ := List.countP_pos_iff.mp (by omega : 0 < l.countP p)
  obtain ⟨pre, post, rfl⟩ := List.append_of_mem hx
  rw [List.countP_append, List.countP_cons_of_pos hp] at h
  refine ⟨pre, x, post, rfl, hp, ?_, ?_⟩
  · intro y hy
    simpa using List.countP_eq_zero.mp (by omega : pre.countP p = 0) y hy
  · intro y hy
    simpa using List.countP_eq_zero.mp (by omega : post.countP p = 0) y hy

section run

variable {host : Host} {k : Kernel} {before after : List Event} {e r d : Event}

/-- A delivery of a released line is its first. -/
theorem undelivered_before (inv : KernelInv host k) (traced : Traced host k.log)
    (hr : r ∈ k.log) (release : r.payload.releasesCap = true)
    (split : k.log = before ++ d :: after) (delivery : isDelivery d = true)
    (cites : r.seq ∈ d.causes) : ∀ x ∈ before, isDelivery x = true → r.seq ∉ x.causes := by
  have sound := inv.fence.sound
  have mem : d ∈ k.log := by rw [split]; simp
  have earlier : r ∈ before := sound.mem_before split hr (inv.causes d mem _ cites)
  obtain ⟨_, _, _, _, _, _, origin⟩ := traced before d after split
  cases origin with
  | delivered _ line =>
    rcases line with free | ⟨r', hr', id, _, causes, first⟩
    · exact absurd cites (free r earlier release)
    · rw [causes, List.mem_singleton] at cites
      rw [cites]
      exact first
  | quiet _ other => rw [delivery] at other; cases other
  | _ => simp_all [isDelivery]

/-- A released line is delivered once. -/
theorem delivery_unique {d' : Event} (inv : KernelInv host k) (traced : Traced host k.log)
    (hr : r ∈ k.log) (release : r.payload.releasesCap = true)
    (hd : d ∈ k.log) (delivery : isDelivery d = true) (cites : r.seq ∈ d.causes)
    (hd' : d' ∈ k.log) (delivery' : isDelivery d' = true) (cites' : r.seq ∈ d'.causes) :
    d = d' := by
  obtain ⟨pre, post, split⟩ := List.append_of_mem hd
  obtain ⟨pre', post', split'⟩ := List.append_of_mem hd'
  have sound := inv.fence.sound
  rcases Nat.lt_trichotomy d.seq d'.seq with lt | eq | gt
  · exact absurd cites (undelivered_before inv traced hr release split' delivery' cites' d
      (sound.mem_before split' hd lt) delivery)
  · exact sound.seq_inj hd hd' eq
  · exact absurd cites' (undelivered_before inv traced hr release split delivery cites d'
      (sound.mem_before split hd' gt) delivery')

theorem release_of_origin {b : Blackboard} {log : List Event} (origin : Provenance host b log e)
    (release : e.payload.releasesCap = true) : ∃ id, e.payload = .speakReleased .cp (some id) := by
  obtain ⟨lane, id, hp⟩ := Payload.releasesCap_eq_true release
  cases origin with
  | released id hp => exact ⟨id, hp⟩
  | quiet hq => rw [hp] at hq; cases hq
  | delivered hq => simp [isDelivery, hp] at hq
  | _ => simp_all

theorem heardWhole_of_evidencePending {log : List Event} {b : Blackboard}
    (traced : Traced host log) (h : fold log = .ok b)
    (pending : b.pub.status = .evidencePending) : HeardWhole log := by
  obtain ⟨pre, e₁, post, b₁, c₁, rfl, hb₁, hp₁, now₁, was₁, edge₁⟩ :=
    status_reached h (by rw [pending]; decide)
  rw [pending] at now₁
  have committed : b₁.pub.status = .committed := by
    rcases edge₁ with edge | ab
    · rw [now₁] at edge
      rw [← was₁]
      exact isEdge_evidencePending edge
    · rw [now₁] at ab; cases ab
  obtain ⟨pre₂, e₂, post₂, b₂, c₂, rfl, hb₂, hp₂, now₂, was₂, -⟩ :=
    status_reached hb₁ (by rw [committed]; decide)
  have split : pre₂ ++ e₂ :: post₂ ++ e₁ :: post = pre₂ ++ e₂ :: (post₂ ++ e₁ :: post) := by simp
  obtain ⟨_, _, _, _, origin⟩ := traced.at split hb₂
  have heard := (statusOk_of_origin origin hp₂).committed (now₂.trans committed)
  exact heard.mono (by rw [split]; exact List.subset_append_left ..)

theorem release_of_bound {b : Blackboard} {log : List Event} {v : Evidence}
    (origin : Provenance host b log e) (h : fold log = .ok b)
    (hp : e.payload = .evidenceRecorded v) (bound : v.termsHash ≠ none) :
    ∃ r ∈ log, r.payload.releasesCap = true := by
  obtain ⟨conf, binding, hash, hp', was, same, hb⟩ : ∃ conf binding hash,
      e.payload = .evidenceRecorded (ledgerEvidence conf hash) ∧ ∃ was, SameAuthority was b ∧
        boundHash host.py was binding = .ok hash := by
    cases origin with
    | evidence conf binding hash hp' was same ok => exact ⟨conf, binding, hash, hp', was, same, ok⟩
    | quiet hq => rw [hp] at hq; cases hq
    | delivered hq => simp [isDelivery, hp] at hq
    | _ => simp_all
  rw [hp] at hp'
  cases hp'
  have used : ∃ cap, theAccept was = some cap := by
    by_contra none_
    have : theAccept was = none := by
      cases ha : theAccept was with
      | none => rfl
      | some cap => exact absurd ⟨cap, ha⟩ none_
    simp only [boundHash, this, Option.bind_none, Except.ok.injEq] at hb
    exact bound hb.symm
  obtain ⟨cap, hc⟩ := used
  have mem : cap ∈ releasedAccepts was := by
    unfold theAccept at hc
    split at hc
    · rename_i only
      cases hc
      rw [only]
      exact List.mem_singleton_self _
    · cases hc
  obtain ⟨hv, released⟩ := List.mem_filter.mp mem
  obtain ⟨id, found⟩ := Dict.mem_values.mp hv
  rw [← same.capabilities] at found
  have some_used : 0 < b.capabilities.count Capability.consumed :=
    Dict.count_pos found (by simp [isReleasedAccept] at released; exact released.2)
  rw [← releases_count h] at some_used
  exact List.countP_pos_iff.mp some_used

/-- In a run every used capability is a released accept. -/
theorem used_count {b : Blackboard} (law : BoardLaw b) :
    b.capabilities.count Capability.consumed = (releasedAccepts b).length := by
  unfold releasedAccepts Dict.count Dict.values
  rw [List.filter_map, List.length_map, ← List.countP_eq_length_filter]
  refine List.countP_congr fun p hp => ?_
  simp [isReleasedAccept, law.intents (Dict.get?_eq_some.mpr hp)]

theorem mem_releasedAccepts {b : Blackboard} {id : String} {cap : Capability} (law : BoardLaw b)
    (found : b.capabilities.get? id = some cap) (used : cap.consumed = true) :
    cap ∈ releasedAccepts b :=
  List.mem_filter.mpr ⟨Dict.mem_values_of_get? found, by
    simp [isReleasedAccept, law.intents found, used]⟩

theorem acceptedTerms_hash {py : Runtime} {b : Blackboard} {hash : String} {t : Terms}
    (law : OfferLaw py b) (h : acceptedTerms py b hash = .ok (some t)) : termsHash py t = hash := by
  unfold acceptedTerms at h
  split at h
  · cases h
  · rename_i ref o first
    have bound : o.termsHash = some hash := by simpa using List.find?_some first
    have found := Dict.get?_eq_some.mpr (List.mem_of_find?_eq_some first)
    obtain ⟨t', terms, own⟩ := offerTermsHash_eq_some.mp (law.hash found bound)
    rw [h] at terms
    cases terms
    exact own

end run

/-- Soundness of a verified completion.  An accept in flight awaits its line, or the call that
minted it is still at work; and when the case becomes verified, one accept was released, ever, its
line was heard whole, evidence of its terms came after it, and they break no hard limit. -/
theorem completion_rests (host : Host) (session : Session) (runId : String) (k : Kernel)
    (reach : Reach (Kernel.step host) anyStep (Kernel.start session runId) k) :
    (∀ id cap, k.board.capabilities.get? id = some cap → isLiveAccept cap = true →
      k.board.pub.status = .commitAuthorized ∨ k.board.pub.status = .abandoned ∨
        k.board.pub.status = .inCall ∧ Minting k.todo) ∧
    ∀ before e after c b, k.log = before ++ e :: after → e.payload = .statusChanged c →
      c.status = .verifiedComplete → fold before = .ok b →
      ∃ pre r mid cap t, before = pre ++ r :: mid ∧
        r.payload = .speakReleased .cp (some cap.capId) ∧ cap.intent = .acceptOffer ∧
        b.capabilities.get? cap.capId = some cap ∧
        (∀ x ∈ pre ++ mid ++ e :: after, x.payload.releasesCap = false) ∧
        (∃ d ∈ mid, isDelivery d = true ∧ r.seq ∈ d.causes) ∧
        (∀ d ∈ k.log, isDelivery d = true → r.seq ∈ d.causes →
          ∃ utt text, d.payload = .uttDelivered .cp utt text text false) ∧
        (∃ x ∈ mid, ∃ v, x.payload = .evidenceRecorded v ∧ v.termsHash = some cap.termsHash) ∧
        acceptedTerms host.py b cap.termsHash = .ok (some t) ∧
        termsHash host.py t = cap.termsHash ∧ hardViolations t b.priv.mandate = [] := by
  have inv := KernelInv.reach reach
  have traced := traced_reach reach
  refine ⟨fun id cap found live => ?_, ?_⟩
  · rcases inv.live found live with (w | w) | w
    · exact Or.inl w
    · exact Or.inr (Or.inl w)
    · exact Or.inr (Or.inr w)
  intro before e after c b split hp complete hb
  obtain ⟨b', applied, law, _, origin⟩ := traced.at split hb
  obtain ⟨was, _, live⟩ := status_of_changed applied hp
  have pending : b.pub.status = .evidencePending := by
    obtain ⟨b₁, hc, -⟩ := change_of_apply applied
    cases hc with
    | status c' hp' was' edge =>
      rw [hp] at hp'
      cases hp'
      rw [complete] at edge
      rcases edge with edge | ⟨ab, _⟩
      · rw [← was]; exact isEdge_verifiedComplete edge
      · cases ab
    | quiet hq => rw [hp] at hq; cases hq
    | _ => simp_all
  have traced_before : Traced host before := fun x y z h =>
    traced x y (z ++ e :: after) (by rw [split, h]; simp)
  -- the verdict
  obtain ⟨-, cap, t, only, ⟨v, hv, binds⟩, terms, allowed⟩ :=
    verifyCompletion_ok.mp ((statusOk_of_origin origin hp).complete complete |>.choose_spec)
  have mem : cap ∈ releasedAccepts b := by rw [only]; exact List.mem_singleton_self _
  obtain ⟨mem, used⟩ := List.mem_filter.mp mem
  obtain ⟨id, found⟩ := Dict.mem_values.mp mem
  have capLaw := capabilityLaw_of_fold hb
  have own := capLaw.keyed found
  subst own
  -- one release
  have one : before.countP (·.payload.releasesCap) = 1 := by
    rw [releases_count hb, used_count law, only]
    rfl
  obtain ⟨pre, r, mid, rfl, release, none_before, none_after⟩ := split_of_countP one
  have split' : k.log = pre ++ r :: (mid ++ e :: after) := by rw [split]; simp
  have hr : r ∈ k.log := by rw [split']; simp
  have only_r : ∀ x ∈ pre ++ r :: mid, x.payload.releasesCap = true → x = r := by
    intro x hx hrel
    rcases List.mem_append.mp hx with hx | hx
    · rw [none_before x hx] at hrel; cases hrel
    · rcases List.mem_cons.mp hx with rfl | hx
      · rfl
      · rw [none_after x hx] at hrel; cases hrel
  -- it used the accept that is verified
  obtain ⟨br, br', hbr, appliedr, rest⟩ := fold_at hb
  obtain ⟨_, _, _, _, originr⟩ := traced.at split' hbr
  obtain ⟨id, hid⟩ := release_of_origin originr release
  obtain ⟨c₀, _, _, now⟩ := released_get? (capabilityLaw_of_fold hbr) appliedr ⟨.cp, hid⟩
  have still := consumed_stays ((capabilityLaw_of_fold hbr).apply appliedr) rest now rfl
  have same : { c₀ with consumed := true } = cap := by
    have := mem_releasedAccepts law still rfl
    rw [only] at this
    exact List.mem_singleton.mp this
  have named : id = cap.capId := by rw [← capLaw.keyed still, same]
  -- its delivery
  have heard := heardWhole_of_evidencePending traced_before hb pending
  obtain ⟨r', hr', _, hp', d, hd, causes, utt, text, whole⟩ := heard
  have rel' : r'.payload.releasesCap = true := by rw [hp']; rfl
  rw [only_r r' hr' rel'] at causes
  have delivery : isDelivery d = true := by simp [isDelivery, whole]
  have cites : r.seq ∈ d.causes := by rw [causes]; exact List.mem_singleton_self _
  have in_log : ∀ x ∈ pre ++ r :: mid, x ∈ k.log := fun x hx => by
    rw [split]
    exact List.mem_append_left _ hx
  have later : ∀ x ∈ pre ++ r :: mid, r.seq < x.seq → x ∈ mid := by
    intro x hx lt
    have at_r := inv.fence.sound.seq_eq split'
    rcases List.mem_append.mp hx with hx | hx
    · obtain ⟨p₁, p₂, rfl⟩ := List.append_of_mem hx
      have at_x : x.seq = p₁.length := inv.fence.sound.seq_eq
        (split'.trans (by simp) : k.log = p₁ ++ x :: (p₂ ++ r :: (mid ++ e :: after)))
      simp only [List.length_append, List.length_cons] at at_r
      omega
    · rcases List.mem_cons.mp hx with rfl | hx
      · omega
      · exact hx
  -- the evidence
  obtain ⟨p₁, x, p₂, hsplit, recorded⟩ := evidence_recorded hb hv
  have bound : v.termsHash = some cap.termsHash := by
    simp only [bindsCap, Bool.and_eq_true, decide_eq_true_eq] at binds
    exact binds.1
  have after_r : x ∈ mid := by
    have splitx : k.log = p₁ ++ x :: (p₂ ++ e :: after) := by rw [split, hsplit]; simp
    obtain ⟨bx, _, hbx, _, _, _, originx⟩ := traced p₁ x _ splitx
    obtain ⟨r'', hr'', rel''⟩ := release_of_bound originx hbx recorded (by rw [bound]; simp)
    have is_r := only_r r'' (by rw [hsplit]; simp [hr'']) rel''
    rw [is_r] at hr''
    refine later x (by rw [hsplit]; simp) ?_
    obtain ⟨q₁, q₂, rfl⟩ := List.append_of_mem hr''
    have at_r : r.seq = q₁.length := inv.fence.sound.seq_eq
      (splitx.trans (by simp) : k.log = q₁ ++ r :: (q₂ ++ x :: (p₂ ++ e :: after)))
    have at_x := inv.fence.sound.seq_eq splitx
    simp only [List.length_append, List.length_cons] at at_x
    omega
  -- the terms
  have hash : termsHash host.py t = cap.termsHash := acceptedTerms_hash
    (offerLaw_of_traced traced_before hb) terms
  refine ⟨pre, r, mid, cap, t, rfl, named ▸ hid, law.intents found, found, ?_, ?_, ?_, ?_, terms,
    hash, allowed⟩
  · intro y hy
    have none_later := unreleased_after traced (fold_reach reach) split hp
      (by rw [complete]; rfl) (by rw [complete]; simp [awaitsLine])
    simp only [List.mem_append, List.mem_cons] at hy
    rcases hy with (hy | hy) | rfl | hy
    · exact none_before y hy
    · exact none_after y hy
    · rw [hp]; rfl
    · exact none_later y hy
  · exact ⟨d, later d hd (inv.causes d (in_log d hd) _ cites), delivery, cites⟩
  · intro d' hd' delivery' cites'
    rw [delivery_unique inv traced hr release hd' delivery' cites' (in_log d hd) delivery cites]
    exact ⟨utt, text, whole⟩
  · exact ⟨x, after_r, v, recorded, bound⟩

/-! ## A run

The accept line is heard whole, the rep says a confirmation id that binds the terms, and the case is
finished. -/

def saidLine : String := "Yes, we accept these terms: monthly price $60.00; term months 12 months; " ++
  "fees none true; changes none true."

def boundTerms : LedgerBinding where
  terms := [("monthly_price", "60"), ("fees_none", "true"), ("changes_none", "true")]
  termMonths := "12"

def heardAccept : List Kernel.Act :=
  sampleCall ++ sampleAccept ++ blockOf (.floor 0 0) [] 1 ++ blockOf (.heard 0 saidLine) [17] 2

/-- The rep says an id that binds the accepted terms, and Slow looks it up. -/
def lookup (n : Nat) : List Kernel.Act :=
  blockOf (.world 0 .kernel [] (.uttFinal .cp .partner "u1" "The confirmation is C-9.")) [] 1 ++
  blockOf (.world 0 .world [0] (.ledgerWrite "C-9" boundTerms)) [] 1 ++
  blockOf (.tool 0 [0] (.checkAccount "C-9" ⟨some "u1", none, []⟩)) [0] n

def finishCall : Kernel.Act := .tool 0 [0] (.finish .completed ⟨false, false, true, some "u1"⟩)

def completedRun : Kernel :=
  Kernel.after (hostOf sampleDigests) sampleSession
    (heardAccept ++ lookup 3 ++ blockOf finishCall [0] 3)

theorem completedRun_facts : statusAt completedRun.log 26 .verifiedComplete = true := by
  decide +kernel

theorem completedRun_reach :
    Reach (Kernel.step (hostOf sampleDigests)) anyStep (Kernel.start sampleSession "run")
      completedRun := Kernel.reach_after _ _

theorem completion_rests_sample :
    ∃ r ∈ completedRun.log, ∃ cap : Capability, r.payload = .speakReleased .cp (some cap.capId) ∧
      ∃ v, v.termsHash = some cap.termsHash ∧ ∃ x ∈ completedRun.log, x.payload = .evidenceRecorded v := by
  obtain ⟨e, c, split, hp, complete, hb⟩ :=
    status_at (fold_reach completedRun_reach) completedRun_facts
  obtain ⟨-, rests⟩ := completion_rests (hostOf sampleDigests) sampleSession "run" completedRun
    completedRun_reach
  obtain ⟨pre, r, mid, cap, t, before, hr, -, -, -, -, -, ⟨x, hx, v, hv, bound⟩, -⟩ :=
    rests (completedRun.log.take 26) e (completedRun.log.drop 27) c _ split hp complete hb
  rw [before] at split
  exact ⟨r, by rw [split]; simp, cap, hr, v, bound, x, by rw [split]; simp [hx], hv⟩

end ProxyLoop
