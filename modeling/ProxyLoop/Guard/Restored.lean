import ProxyLoop.Guard.Asked

/-!
# Asks undone, facts recorded and negotiations started

An ask that was voiced without a word leaves its keys as they were before it; a recorded fact
answers its key until it is asked again; a negotiation starts once no key is missing a reply.
-/

namespace ProxyLoop.Needs

open Lib (Dict At Quiet at_snoc)

section takes

variable {log : List Event} {e : Event} {n : Nat}

theorem take_snoc (get : log[n]? = some e) : log.take (n + 1) = log.take n ++ [e] := by
  rw [List.take_add_one, get, Option.toList_some]

theorem fold_take (get : log[n]? = some e) :
    fold (log.take (n + 1)) = step (fold (log.take n)) e := by
  rw [take_snoc get, fold_snoc]

theorem Written.seq_at (w : Written log) (get : log[n]? = some e) : e.seq = n := by
  induction w generalizing n e with
  | start => cases get
  | @write log e' w seq ok ih =>
    by_cases below : n < log.length
    · exact ih (by rwa [List.getElem?_append_left below] at get)
    · obtain rfl : n = log.length := by
        have := (List.getElem?_eq_some_iff.mp get).1
        rw [List.length_append, List.length_singleton] at this
        omega
      rw [List.getElem?_concat_length] at get
      exact Option.some.inj get ▸ seq

theorem Written.one_message (w : Written log) {msgId : String} {i j : Nat}
    (hi : At log i (·.cue = .s2fMsg msgId)) (hj : At log j (·.cue = .s2fMsg msgId)) : i = j := by
  induction w with
  | start => exact absurd hi.lt (Nat.not_lt_zero _)
  | @write log e w seq ok ih =>
    have first : ∀ i, e.cue = .s2fMsg msgId → ¬ At log i (·.cue = .s2fMsg msgId) := by
      rintro i hc ⟨e', get, hc'⟩
      rw [Allowed, hc] at ok
      exact ok e' (List.mem_of_getElem? get) hc'
    rcases at_snoc.mp hi with old | ⟨last, new⟩ <;> rcases at_snoc.mp hj with old' | ⟨last', new'⟩
    · exact ih old old'
    · exact absurd old (first i new')
    · exact absurd old' (first j new)
    · rw [last, last']

theorem Written.moved (w : Written log) (e : Event) (k : String) :
    Moved (fold log) e k ((fold log).needs.get? k) ((step (fold log) e).needs.get? k) :=
  Needs.moved _ _ _ fun msgId ask hv => (w.inv.voicing msgId ask hv).1.snap

end takes

/-! ## An unheard ask -/

/-- The key waits for the ask at `a`, whose message is sent at `m`. -/
structure Waiting (log : List Event) (a m : Nat) (msgId k : String) (ask : Ask) : Prop where
  seq : ask.seq = a
  need : ∃ need, (fold log).needs.get? k = some need ∧ need.waitsFor a = true ∧
    need.voicedSeq = none
  asking : log.length ≤ m → (fold log).asking.get? a = some ask
  voicing : m < log.length → (fold log).voicing.get? msgId = some ask

section waiting

variable {log : List Event} {e : Event} {a m v : Nat} {msgId k : String}

theorem Waiting.start (msgId : String) (w : Written log) (seq : e.seq = log.length) (asks : Asks k e)
    (lt : log.length < m) : ∃ ask, Waiting (log ++ [e]) log.length m msgId k ask := by
  obtain ⟨keys, asked, among⟩ := asks
  have some_ : keys ≠ [] := List.ne_nil_of_mem among
  obtain ⟨name, ok, raw, hc⟩ := cue_of_asks asked
  have length : (log ++ [e]).length = log.length + 1 := by simp
  rcases asking_step (fold log) e log.length with ⟨keys', -, -, -, eq⟩ | ⟨id, carries, -⟩ | ⟨-, no, -⟩
  · refine ⟨_, rfl, ?_, fun _ => by rw [fold_snoc]; exact eq, fun bad => by omega⟩
    have step_ := w.moved e k
    rw [fold_snoc]
    generalize (fold log).needs.get? k = o at step_
    generalize (step (fold log) e).needs.get? k = o' at step_
    cases step_ with
    | asked _ need _ pending askedSeq voicedSeq =>
      refine ⟨need, rfl, ?_, voicedSeq⟩
      rw [Need.waitsFor, askedSeq, pending, seq]
      simp
    | voiced _ _ _ _ hc' => cases hc.symm.trans hc'
    | undone _ _ _ _ hc' => cases hc.symm.trans hc'
    | replied _ _ hc' => cases hc.symm.trans hc'
    | answered _ records => cases hc.symm.trans records
    | still _ quiet => exact absurd ⟨keys, asked, among⟩ quiet
  · cases hc.symm.trans carries.2
  · exact absurd seq (no keys asked some_)

/-- A key waits from its ask to the voicing, if nothing asks for it or records it. -/
theorem waiting (w : Written log) (asks : At log a (Asks k)) (sent : Sent log a m msgId)
    (lt : m < v) (within : v ≤ log.length) (silent : Quiet log m v (Voices msgId))
    (unasked : Quiet log a v (Asks k)) (unrecorded : Quiet log a v (Records k)) {n : Nat}
    (from_ : a + 1 ≤ n) (upto : n ≤ v) : ∃ ask, Waiting (log.take n) a m msgId k ask := by
  induction n, from_ using Nat.le_induction with
  | base =>
    obtain ⟨e, get, asks⟩ := asks
    have long : (log.take a).length = a := by
      have := (List.getElem?_eq_some_iff.mp get).1
      rw [List.length_take]
      omega
    rw [take_snoc get]
    have start := Waiting.start (m := m) msgId (w.take a)
      (by rw [long]; exact w.seq_at get) asks (by rw [long]; exact sent.1)
    rwa [long] at start
  | succ n from_ ih =>
    obtain ⟨ask, seq, ⟨need, get, waits, unvoiced⟩, asking, voicing⟩ := ih (by omega)
    obtain ⟨e, here_⟩ : ∃ e, log[n]? = some e := ⟨log[n], List.getElem?_eq_getElem (by omega)⟩
    have w' := w.take n
    have ext : log.take n <+: log := List.take_prefix _ _
    have long : (log.take n).length = n := by
      rw [List.length_take]
      omega
    have long' : (log.take (n + 1)).length = n + 1 := by
      rw [List.length_take]
      omega
    have voiceless : m < n → ¬ Voices msgId e := fun lt' bad =>
      silent n lt' (by omega) ⟨e, here_, bad⟩
    have carries : n = m → Carries a msgId e := fun same => by
      obtain ⟨e', get', carries⟩ := sent.2.1
      obtain rfl : e = e' := Option.some.inj (here_.symm.trans (same ▸ get'))
      exact carries
    -- only the ask's own message could change a need that waits for it
    have own : ∀ id ask', Voices id e → (fold (log.take n)).voicing.get? id = some ask' →
        need.waitsFor ask'.seq = true → False := by
      intro id ask' voices hv waits'
      simp only [Need.waitsFor, Bool.and_eq_true, decide_eq_true_eq] at waits waits'
      have same : ask'.seq = a := Option.some.inj (waits'.1.symm.trans waits.1)
      obtain ⟨-, m', sent', -⟩ := w'.inv.voicing id ask' hv
      rw [same] at sent'
      obtain ⟨rfl, rfl⟩ := (sent'.mono ext).unique sent
      have lt' := sent'.2.1.lt
      rw [long] at lt'
      exact voiceless lt' voices
    refine ⟨ask, seq, ?_, ?_, ?_⟩
    · have step_ := w'.moved e k
      rw [get] at step_
      rw [fold_take here_]
      generalize (step (fold (log.take n)) e).needs.get? k = o' at step_
      cases step_ with
      | asked _ need' bad => exact absurd ⟨e, here_, bad⟩ (unasked n (by omega) (by omega))
      | voiced id ask' b _ hc hv _ waits' => exact absurd waits' (own id ask' hc hv)
      | undone id ask' b _ hc hv _ waits' => exact absurd waits' (own id ask' hc hv)
      | replied _ v _ _ voicedSeq => cases unvoiced.symm.trans voicedSeq
      | answered _ bad => exact absurd ⟨e, here_, bad⟩ (unrecorded n (by omega) (by omega))
      | still _ _ _ => exact ⟨need, rfl, waits, unvoiced⟩
    · intro le
      rw [long'] at le
      rw [fold_take here_]
      rcases asking_step (fold (log.take n)) e a with
        ⟨_, _, _, bad, _⟩ | ⟨id, bad, _⟩ | ⟨-, -, eq⟩
      · rw [w.seq_at here_] at bad
        omega
      · exact absurd ⟨e, here_, id, bad⟩ (sent.2.2 n (by omega) (by omega))
      · rw [eq]
        exact asking (by omega)
    · intro le
      rw [long'] at le
      rw [fold_take here_]
      by_cases same : n = m
      · rcases voicing_step (fold (log.take n)) e msgId with
          ⟨a', ask', cites, get', eq⟩ | ⟨bad, _⟩ | ⟨-, none_, -⟩
        · obtain rfl : a' = a := Option.some.inj (cites.1.symm.trans (carries same).1)
          rw [eq, ← get']
          exact asking (by omega)
        · cases (carries same).2.symm.trans bad
        · have bad := none_ a (carries same)
          rw [asking (by omega)] at bad
          cases bad
      · have past : m < n := by omega
        rcases voicing_step (fold (log.take n)) e msgId with
          ⟨a', ask', cites, -, -⟩ | ⟨bad, _⟩ | ⟨-, -, eq⟩
        · obtain ⟨e', get', carries'⟩ := sent.2.1
          exact absurd (w.one_message ⟨e, here_, cites.2⟩ ⟨e', get', carries'.2⟩) same
        · exact absurd bad (voiceless past)
        · rw [eq]
          exact voicing (by omega)

/-- An unheard voicing leaves the key as before its ask. -/
theorem undone_at (w : Written log) (asks : At log a (Asks k)) (voiced : VoicedAt log a v)
    (unheard : ¬ HeardAt log v) (unasked : Quiet log a v (Asks k))
    (unrecorded : Quiet log a v (Records k)) :
    (fold (log.take (v + 1))).needs.get? k = (fold (log.take a)).needs.get? k ∧
      (fold (log.take a)).state k ≠ some .pending := by
  obtain ⟨m, msgId, sent, lt, ⟨e, here_, voices⟩, silent⟩ := id voiced
  have within := voiced.lt
  obtain ⟨ask, seq, ⟨need, get, waits, -⟩, -, voicing⟩ := waiting w asks sent lt
    (Nat.le_of_lt within.2) silent unasked unrecorded (Nat.succ_le_of_lt within.1) (Nat.le_refl _)
  have long : (log.take v).length = v := by
    rw [List.length_take]
    omega
  have inv := (w.take v).inv
  have hv := voicing (by omega)
  have kept := (inv.voicing msgId ask hv).1
  obtain ⟨f, snap⟩ := kept.snap
  obtain ⟨keys, asked, before, ok⟩ := kept
  rw [seq] at asked before ok
  rw [List.take_take, Nat.min_eq_left (Nat.le_of_lt within.1)] at before ok
  have among : k ∈ keys := by
    obtain ⟨e₁, get₁, asked⟩ := asked.mono (List.take_prefix v log)
    obtain ⟨e₂, get₂, keys₂, asked₂, among⟩ := asks
    obtain rfl : e₁ = e₂ := Option.some.inj (get₁.symm.trans get₂)
    rwa [Option.some.inj (asked.symm.trans asked₂)]
  have mem : (k, (fold (log.take a)).needs.get? k) ∈ ask.before := by
    rw [before]
    exact List.mem_map.mpr ⟨k, among, rfl⟩
  have unheard_ : heard (fold (log.take v)) e = false := by
    refine Bool.eq_false_iff.mpr fun bad => unheard ?_
    have heard := (heard_iff inv).mp bad
    rw [long, ← take_snoc here_] at heard
    exact heard.mono (List.take_prefix _ _)
  rw [fold_take here_]
  exact ⟨get?_undone voices hv snap mem get (seq ▸ waits) unheard_, (ok k among).1⟩

/-- Until the key is asked for again or recorded. -/
theorem restored_until (w : Written log) (asks : At log a (Asks k)) (voiced : VoicedAt log a v)
    (unheard : ¬ HeardAt log v) {n : Nat} (from_ : v + 1 ≤ n) (within : n ≤ log.length)
    (unasked : Quiet log a n (Asks k)) (unrecorded : Quiet log a n (Records k)) :
    (fold (log.take n)).needs.get? k = (fold (log.take a)).needs.get? k := by
  have lt := voiced.lt.1
  obtain ⟨base, calm⟩ := undone_at w asks voiced unheard
    (fun i h h' => unasked i h (by omega)) (fun i h h' => unrecorded i h (by omega))
  induction n, from_ using Nat.le_induction with
  | base => exact base
  | succ n from_ ih =>
    have ih := ih (by omega) (fun i h h' => unasked i h (by omega))
      (fun i h h' => unrecorded i h (by omega))
    obtain ⟨e, here_⟩ : ∃ e, log[n]? = some e := ⟨log[n], List.getElem?_eq_getElem (by omega)⟩
    have still : ∀ need, (fold (log.take a)).needs.get? k = some need → need.state ≠ .pending :=
      fun need get bad => calm (by rw [Ledger.state, get, Option.map_some, bad])
    have step_ := (w.take n).moved e k
    rw [ih] at step_
    rw [fold_take here_]
    generalize (fold (log.take a)).needs.get? k = o at step_ still
    generalize (step (fold (log.take n)) e).needs.get? k = o' at step_
    cases step_ with
    | asked _ _ bad => exact absurd ⟨e, here_, bad⟩ (unasked n (by omega) (by omega))
    | voiced _ _ _ need _ _ _ waits =>
      simp only [Need.waitsFor, Bool.and_eq_true, decide_eq_true_eq] at waits
      exact absurd waits.2 (still need rfl)
    | undone _ _ _ need _ _ _ waits =>
      simp only [Need.waitsFor, Bool.and_eq_true, decide_eq_true_eq] at waits
      exact absurd waits.2 (still need rfl)
    | replied need _ _ pending => exact absurd pending (still need rfl)
    | answered _ bad => exact absurd ⟨e, here_, bad⟩ (unrecorded n (by omega) (by omega))
    | still _ _ _ => rfl

end waiting

/-! ## Facts and starts -/

section facts

variable {log : List Event} {f : Nat} {k : String}

/-- A recorded fact answers its key until it is asked for again. -/
theorem answered_until (w : Written log) (records : At log f (Records k)) {n : Nat}
    (from_ : f + 1 ≤ n) (within : n ≤ log.length) (unasked : Quiet log f n (Asks k)) :
    (fold (log.take n)).state k = some .answered := by
  induction n, from_ using Nat.le_induction with
  | base =>
    obtain ⟨e, here_, records⟩ := records
    rw [Ledger.state, fold_take here_]
    have step_ := (w.take f).moved e k
    generalize (fold (log.take f)).needs.get? k = o at step_
    generalize (step (fold (log.take f)) e).needs.get? k = o' at step_
    cases step_ with
    | asked _ _ asks =>
      obtain ⟨keys, asks, -⟩ := asks
      obtain ⟨name, ok, raw, hc⟩ := cue_of_asks asks
      cases hc.symm.trans records
    | voiced _ _ _ _ hc => cases hc.symm.trans records
    | undone _ _ _ _ hc => cases hc.symm.trans records
    | replied _ _ hc => cases hc.symm.trans records
    | answered _ _ => rfl
    | still _ _ bad => exact absurd records bad
  | succ n from_ ih =>
    have ih := ih (by omega) (fun i h h' => unasked i h (by omega))
    obtain ⟨e, here_⟩ : ∃ e, log[n]? = some e := ⟨log[n], List.getElem?_eq_getElem (by omega)⟩
    have step_ := (w.take n).moved e k
    rw [Ledger.state] at ih ⊢
    rw [fold_take here_]
    generalize (fold (log.take n)).needs.get? k = o at step_ ih
    generalize (step (fold (log.take n)) e).needs.get? k = o' at step_
    cases step_ with
    | asked _ _ bad => exact absurd ⟨e, here_, bad⟩ (unasked n (by omega) (by omega))
    | voiced _ _ _ need _ _ _ waits =>
      simp only [Need.waitsFor, Bool.and_eq_true, decide_eq_true_eq] at waits
      cases (Option.some.inj ih).symm.trans waits.2
    | undone _ _ _ need _ _ _ waits =>
      simp only [Need.waitsFor, Bool.and_eq_true, decide_eq_true_eq] at waits
      cases (Option.some.inj ih).symm.trans waits.2
    | replied need _ _ pending => cases (Option.some.inj ih).symm.trans pending
    | answered _ _ => rfl
    | still _ _ _ => exact ih

theorem startDenial_eq_none {l : Ledger} {missing : List String} : startDenial l missing = none ↔
    ∀ k ∈ missing, l.state k = some .replied ∨ l.state k = some .answered := by
  unfold startDenial
  dsimp only
  constructor
  · intro h k mem
    have asked : l.state k ≠ none := fun bad => by
      rw [if_pos (List.ne_nil_of_mem (List.mem_filter.mpr ⟨mem, decide_eq_true bad⟩))] at h
      cases h
    have calm : l.state k ≠ some .pending := fun bad => by
      split at h
      · cases h
      · rw [if_pos (List.ne_nil_of_mem (List.mem_filter.mpr ⟨mem, decide_eq_true bad⟩))] at h
        cases h
    cases hs : l.state k with
    | none => exact absurd hs asked
    | some s =>
      cases s with
      | pending => exact absurd hs calm
      | replied => exact Or.inl rfl
      | answered => exact Or.inr rfl
  · intro all
    rw [if_neg, if_neg]
    · rw [not_not, List.filter_eq_nil_iff]
      intro k mem bad
      rw [decide_eq_true_eq] at bad
      rcases all k mem with h | h <;> cases h.symm.trans bad
    · rw [not_not, List.filter_eq_nil_iff]
      intro k mem bad
      rw [decide_eq_true_eq] at bad
      rcases all k mem with h | h <;> cases h.symm.trans bad

end facts

/-! ## The law -/

/-- The voicing at `v` cites a turn that said nothing. -/
def SilentAt (log : List Event) (v : Nat) : Prop :=
  ∃ t, At log v (CitesTurn t) ∧ At log t IsTurn ∧ ¬ At log t Speaks

section law

variable {log : List Event} {a v v' : Nat} {k : String}

theorem SilentAt.unheard (h : SilentAt log v) : ¬ HeardAt log v := by
  rintro ⟨t, -, cites, speaks, -⟩
  obtain ⟨t', ⟨e', get', cites'⟩, -, silent⟩ := h
  obtain ⟨e, get, cites⟩ := cites
  obtain rfl : e = e' := Option.some.inj (get.symm.trans get')
  exact silent (Option.some.inj (cites.symm.trans cites') ▸ speaks)

theorem VoicedAt.unique (h : VoicedAt log a v) (h' : VoicedAt log a v') : v = v' := by
  obtain ⟨m, msgId, sent, lt, voices, quiet⟩ := h
  obtain ⟨m', msgId', sent', lt', voices', quiet'⟩ := h'
  obtain ⟨rfl, rfl⟩ := sent.unique sent'
  rcases Nat.lt_trichotomy v v' with before | same | after
  · exact absurd voices (quiet' v lt before)
  · exact same
  · exact absurd voices' (quiet v' lt' after)

/-- In a log the kernel wrote: a replied key was heard in its latest ask that was not undone and
the user wrote since; a silent ask leaves the key as it was; a fact answers it; and a negotiation
starts when each missing key is replied or answered. -/
theorem ledger_law (w : Written log) (k : String) :
    ((fold log).state k = some .replied → ∃ a v t u, Latest log k (some a) ∧ ¬ Undone log a k ∧
      VoicedAt log a v ∧ At log v (CitesTurn t) ∧ At log t Speaks ∧ v < u ∧ At log u IsUserMsg) ∧
    (∀ a v, At log a (Asks k) → VoicedAt log a v → SilentAt log v →
      Quiet log a log.length (Asks k) → Quiet log a log.length (Records k) →
      (fold log).needs.get? k = (fold (log.take a)).needs.get? k) ∧
    (∀ f, At log f (Records k) → Quiet log f log.length (Asks k) →
      (fold log).state k = some .answered) ∧
    ∀ missing, startDenial (fold log) missing = none ↔
      ∀ k ∈ missing, (fold log).state k = some .replied ∨ (fold log).state k = some .answered := by
  refine ⟨fun replied => ?_, fun a v asks voiced silent unasked unrecorded => ?_,
    fun f records unasked => ?_, fun missing => startDenial_eq_none⟩
  · obtain ⟨need, get, state⟩ := Option.map_eq_some_iff.mp replied
    obtain ⟨latest, ok⟩ := w.inv.key k
    obtain ⟨a, v, u, asked, voiced, heard, lt, user⟩ := (ok need get).replied state
    rw [get, Option.bind_some, asked] at latest
    have kept : ¬ Undone log a k := by
      rintro ⟨v', voiced', unheard, -⟩
      exact unheard (voiced.unique voiced' ▸ heard)
    obtain ⟨t, -, cites, speaks, -⟩ := heard
    exact ⟨a, v, t, u, latest, kept, voiced, cites, speaks, lt, user⟩
  · have restored := restored_until w asks voiced silent.unheard (Nat.succ_le_of_lt voiced.lt.2)
      (Nat.le_refl _) unasked unrecorded
    rwa [List.take_length] at restored
  · have answered := answered_until w records (Nat.succ_le_of_lt records.lt) (Nat.le_refl _) unasked
    rwa [List.take_length] at answered

end law

/-- The user replies to an ask; the key is asked for once more, without a word. -/
def askedTwice : List Event :=
  [⟨0, 1000, [], .slowTool "ask_user" true ["zip"]⟩, ⟨1, 1000, [0], .s2fMsg "m1"⟩,
    ⟨2, 2000, [], .fastTurn [.speech]⟩, ⟨3, 2000, [2, 1], .s2fVoiced "m1"⟩,
    ⟨4, 3000, [], .userMsg⟩, ⟨5, 4000, [], .slowTool "ask_user" true ["zip"]⟩,
    ⟨6, 4000, [5], .s2fMsg "m2"⟩, ⟨7, 5000, [], .fastTurn [.hold]⟩,
    ⟨8, 5000, [7, 6], .s2fVoiced "m2"⟩]

theorem askedTwice_written : Written askedTwice := by
  have none_ : Written ([] : List Event) := .start
  have ask := none_.write (e := askedTwice[0]) rfl (fun _ _ => by decide)
  have msg := ask.write (e := askedTwice[1]) rfl
    (show ∀ e' ∈ askedTwice.take 1, e'.cue ≠ .s2fMsg "m1" by decide)
  have turn := msg.write (e := askedTwice[2]) rfl trivial
  have voiced := turn.write (e := askedTwice[3]) rfl trivial
  have user := voiced.write (e := askedTwice[4]) rfl trivial
  have again := user.write (e := askedTwice[5]) rfl (fun _ _ => by decide)
  have msg' := again.write (e := askedTwice[6]) rfl
    (show ∀ e' ∈ askedTwice.take 6, e'.cue ≠ .s2fMsg "m2" by decide)
  have turn' := msg'.write (e := askedTwice[7]) rfl trivial
  exact turn'.write (e := askedTwice[8]) rfl trivial

theorem ledger_law_asked_twice : ∃ a v t u, Latest askedTwice "zip" (some a) ∧
    ¬ Undone askedTwice a "zip" ∧ VoicedAt askedTwice a v ∧ At askedTwice v (CitesTurn t) ∧
    At askedTwice t Speaks ∧ v < u ∧ At askedTwice u IsUserMsg :=
  (ledger_law askedTwice_written "zip").1 (by decide)

end ProxyLoop.Needs
