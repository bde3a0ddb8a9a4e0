import Mathlib.Data.List.Induction
import ProxyLoop.Kernel.Lanes

/-!
# What a Fast lane is handed is voiced

Runs of one lane: what it is handed is voiced, or carried by a trigger that is pending or running,
or dropped for a reason; and no two replies in a row are cut off by the rep.
-/

namespace ProxyLoop.Lanes

open Lib (Reach)

/-! ## What a log says -/

def cardAt (log : List Entry) : Bool :=
  log.foldl (fun card e =>
    match e with
    | .requested => true
    | .decided => false
    | _ => card) false

def newestGuide (log : List Entry) : Option Nat :=
  (log.zipIdx.filter (·.1 = .guide)).getLast?.map Prod.snd

/-- A generation that carried an ack and was cancelled by an epoch. -/
def StaleBy (log : List Entry) (m gen : Nat) (ask : Ask) : Prop :=
  .request gen ask ∈ log ∧ m ∈ ask.acks ∧ .cancelled gen .epoch ∈ log

/-- Its re-run was stale again: two generations carried it, the later one as a re-run, and both
were cancelled by an epoch. -/
def StaleTwice (log : List Entry) (m : Nat) : Prop :=
  ∃ g g' ask ask', g < g' ∧ StaleBy log m g ask ∧ StaleBy log m g' ask' ∧ ask'.again = true

/-- An ask that is pending or running. -/
def Lane.Carried (s : Lane) (p : Ask → Prop) : Prop :=
  (∃ a ∈ s.pending, p a) ∨ ∃ r, s.running = some r ∧ p r.ask

/-! ## The laws -/

/-- No two generations in a row are cancelled `{partner}`. -/
def NotTwice (s : Lane) : Prop :=
  ∀ g, ¬ (.cancelled g .partner ∈ s.log ∧ .cancelled (g + 1) .partner ∈ s.log)

/-- Every APPROVAL_NOTICE is voiced, carried, or dropped because no card was pending or because its
one re-run was stale again. -/
def Notices (s : Lane) : Prop :=
  ∀ m, s.log[m]? = some .notice →
    (∃ g, .voiced m g ∈ s.log) ∨ s.Carried (m ∈ ·.acks) ∨
      ∃ d ∈ s.dropped, m ∈ d.ask.acks ∧
        (d.why = .moot ∧ cardAt (s.log.take d.seq) = false ∨
          d.why = .stale ∧ StaleTwice s.log m)

/-- Every Slow message is voiced or carried. -/
def Slows (s : Lane) : Prop :=
  ∀ m, s.log[m]? = some .slow →
    (∃ g, .voiced m g ∈ s.log) ∨ s.Carried (·.trigger.msgId = some m)

/-- A GUIDE that a turn cancelled `{partner}` or `{verbatim}` voiced is carried by its trigger until
a generation of it has its turn, unless that is moot. -/
def GuidesCarried (s : Lane) : Prop :=
  ∀ g why a m, .cancelled g why ∈ s.log → why ≠ .epoch → .request g a ∈ s.log →
    .voiced m g ∈ s.log → s.log[m]? = some .guide →
      s.Carried (fun b => b.trigger.kind = a.trigger.kind ∧ m ∈ b.guides) ∨
        (∃ g' b items, g < g' ∧ .request g' b ∈ s.log ∧ b.trigger.kind = a.trigger.kind ∧
          m ∈ b.guides ∧ .turn g' items ∈ s.log) ∨
        ∃ d ∈ s.dropped, d.ask.trigger.kind = a.trigger.kind ∧ m ∈ d.ask.guides ∧
          ∃ newest, d.why = .said newest

/-- A turn that acts voices the GUIDE it carries if that was the newest when it was asked. -/
def GuidesVoiced (s : Lane) : Prop :=
  ∀ (i g : Nat) (a : Ask) (items : List Item) (m : Nat), s.log[i]? = some (.request g a) → .turn g items ∈ s.log → acts items = true →
    m ∈ a.guides → newestGuide (s.log.take i) = some m → .voiced m g ∈ s.log

/-- The call is open, and no newer card's notice waits when a card's first generation is found
stale. -/
def Apart (s : Lane) : Act → Prop
  | .streamed _ => ∀ r, s.running = some r → r.ask.trigger.kind = .approvalCard →
      r.ask.again = false → s.epoch ≠ r.epoch → ∀ a ∈ s.pending, a.trigger.kind ≠ .approvalCard
  | .hangUp => False
  | _ => True

/-! ## The invariant -/

def Kind.lane : Kind → LaneName
  | .userMsg | .slowMsg | .approvalCard => .user
  | .repSpoke | .guidance => .cp

def Entry.gen : Entry → Nat
  | .request g _ | .cancelled g _ | .turn g _ | .voiced _ g | .sentence g _ => g
  | _ => 0

def StaleOnce (log : List Entry) (m : Nat) : Prop := ∃ g ask, StaleBy log m g ask

/-- What an ask may carry: acks of notices for a card, a Slow message for `slow_msg`, and on a card's
re-run only what was stale. -/
structure Sane (lane : LaneName) (log : List Entry) (a : Ask) : Prop where
  fits : a.trigger.kind.lane = lane
  acks : ∀ m ∈ a.acks, a.trigger.kind = .approvalCard ∧ log[m]? = some .notice
  msg : ∀ m, a.trigger.msgId = some m → a.trigger.kind = .slowMsg ∧ log[m]? = some .slow
  guides : a.guides ≠ [] → lane = .cp
  again : a.again = true → a.trigger.kind = .approvalCard → ∀ m ∈ a.acks, StaleOnce log m

/-- Why a trigger that did not run did not. -/
structure Dropped (log : List Entry) (d : Drop) : Prop where
  acks : ∀ m ∈ d.ask.acks, d.ask.trigger.kind = .approvalCard
  msg : d.ask.trigger.msgId = none
  seq : d.seq ≤ log.length
  why : match d.why with
    | .closed => False
    | .moot => d.ask.trigger.kind = .approvalCard ∧ cardAt (log.take d.seq) = false
    | .said _ => d.ask.trigger.kind = .guidance
    | .stale => d.ask.trigger.kind = .approvalCard ∧ ∀ m ∈ d.ask.acks, StaleTwice log m

/-- Where a GUIDE that a cancelled turn voiced has gone. -/
def Kept (log : List Entry) (asks : List Ask) (dropped : List Drop) (g : Nat) (kind : Kind)
    (m : Nat) : Prop :=
  (∃ b ∈ asks, b.trigger.kind = kind ∧ m ∈ b.guides) ∨
    (∃ g' b items, g < g' ∧ .request g' b ∈ log ∧ b.trigger.kind = kind ∧ m ∈ b.guides ∧
      .turn g' items ∈ log) ∨
    ∃ d ∈ dropped, d.ask.trigger.kind = kind ∧ m ∈ d.ask.guides ∧ ∃ newest, d.why = .said newest

/-- What holds of a lane's log, the asks it has and those it dropped. -/
structure Held (lane : LaneName) (log : List Entry) (n : Nat) (asks : List Ask)
    (dropped : List Drop) : Prop where
  sane : ∀ a ∈ asks, Sane lane log a
  gens : ∀ e ∈ log, e.gen ≤ n
  told : ∀ m g, .voiced m g ∈ log → m < log.length
  once : ∀ (i j g : Nat) (a b : Ask), log[i]? = some (.request g a) → log[j]? = some (.request g b) → i = j
  notices : ∀ m, log[m]? = some .notice →
    (∃ g, .voiced m g ∈ log) ∨ (∃ a ∈ asks, m ∈ a.acks) ∨ ∃ d ∈ dropped, m ∈ d.ask.acks
  slows : ∀ m, log[m]? = some .slow →
    (∃ g, .voiced m g ∈ log) ∨ ∃ a ∈ asks, a.trigger.msgId = some m
  drops : ∀ d ∈ dropped, Dropped log d
  guides : ∀ g why a m, .cancelled g why ∈ log → why ≠ .epoch → .request g a ∈ log →
    .voiced m g ∈ log → log[m]? = some .guide → Kept log asks dropped g a.trigger.kind m
  voices : ∀ (i g : Nat) (a : Ask) (items : List Item) (m : Nat), log[i]? = some (.request g a) → .turn g items ∈ log →
    acts items = true → m ∈ a.guides → newestGuide (log.take i) = some m → .voiced m g ∈ log

/-! ## Logs that grow -/

section

variable {lane : LaneName} {log : List Entry} {n m g : Nat} {asks : List Ask}
  {dropped : List Drop} {a : Ask} {d : Drop} {kind : Kind}

theorem get?_append {e : Entry} (h : log[m]? = some e) (es : List Entry) :
    (log ++ es)[m]? = some e := by
  rw [List.getElem?_append_left (List.getElem?_eq_some_iff.mp h).1, h]

theorem StaleBy.append (h : StaleBy log m g a) (es : List Entry) : StaleBy (log ++ es) m g a :=
  ⟨List.mem_append_left _ h.1, h.2.1, List.mem_append_left _ h.2.2⟩

theorem StaleOnce.append (h : StaleOnce log m) (es : List Entry) : StaleOnce (log ++ es) m := by
  obtain ⟨g, ask, h⟩ := h
  exact ⟨g, ask, h.append es⟩

theorem StaleTwice.append (h : StaleTwice log m) (es : List Entry) : StaleTwice (log ++ es) m := by
  obtain ⟨g, g', ask, ask', hlt, h, h', ha⟩ := h
  exact ⟨g, g', ask, ask', hlt, h.append es, h'.append es, ha⟩

theorem Sane.append (h : Sane lane log a) (es : List Entry) : Sane lane (log ++ es) a :=
  ⟨h.fits, fun m hm => ⟨(h.acks m hm).1, get?_append (h.acks m hm).2 es⟩,
    fun m hm => ⟨(h.msg m hm).1, get?_append (h.msg m hm).2 es⟩, h.guides,
    fun ha hk m hm => (h.again ha hk m hm).append es⟩

theorem Dropped.append (h : Dropped log d) (es : List Entry) : Dropped (log ++ es) d := by
  refine ⟨h.acks, h.msg, ?_, ?_⟩
  · have := h.seq
    rw [List.length_append]
    omega
  · have hw := h.why
    have ht : (log ++ es).take d.seq = log.take d.seq := List.take_append_of_le_length h.seq
    cases hd : d.why <;> simp only [hd] at hw ⊢
    case moot => exact ht ▸ hw
    case said => exact hw
    case stale => exact ⟨hw.1, fun m hm => (hw.2 m hm).append es⟩

theorem Kept.append (h : Kept log asks dropped g kind m) (es : List Entry) :
    Kept (log ++ es) asks dropped g kind m := by
  refine h.imp_right (Or.imp_left ?_)
  rintro ⟨g', b, items, hlt, hr, hk, hm, ht⟩
  exact ⟨g', b, items, hlt, List.mem_append_left _ hr, hk, hm, List.mem_append_left _ ht⟩

/-- What a generation writes that later facts are about. -/
def Entry.ofGen : Entry → Bool
  | .request _ _ | .cancelled _ _ | .turn _ _ | .voiced _ _ => true
  | _ => false

def Entry.message : Entry → Bool
  | .notice | .slow | .guide => true
  | _ => false

theorem get?_snoc {e x : Entry} (h : (log ++ [x])[m]? = some e) :
    log[m]? = some e ∨ m = log.length ∧ e = x := by
  rcases Nat.lt_or_ge m log.length with hlt | hge
  · rw [List.getElem?_append_left hlt] at h
    exact .inl h
  · rw [List.getElem?_append_right hge] at h
    rcases hk : m - log.length with - | k
    · rw [hk] at h
      simp only [List.getElem?_cons_zero, Option.some.injEq] at h
      exact .inr ⟨by omega, h.symm⟩
    · rw [hk] at h
      simp at h

theorem mem_snoc {e x : Entry} : e ∈ log ++ [x] ↔ e ∈ log ∨ e = x := by
  simp

theorem mem_of_ne {e x : Entry} (h : e ∈ log ++ [x]) (hne : e ≠ x) : e ∈ log :=
  (mem_snoc.mp h).resolve_right hne

theorem get?_of_ne {e x : Entry} (h : (log ++ [x])[m]? = some e) (hne : e ≠ x) :
    log[m]? = some e :=
  (get?_snoc h).resolve_right fun he => hne he.2

theorem mem_old {e x : Entry} (hx : x.ofGen = false) (he : e.ofGen = true) (h : e ∈ log ++ [x]) :
    e ∈ log := by
  rcases mem_snoc.mp h with h | rfl
  · exact h
  · rw [hx] at he
    cases he

theorem get?_old {e x : Entry} (hx : x.ofGen = false) (he : e.ofGen = true)
    (h : (log ++ [x])[m]? = some e) : log[m]? = some e := by
  rcases get?_snoc h with h | ⟨-, rfl⟩
  · exact h
  · rw [hx] at he
    cases he

theorem newest_take {i : Nat} (h : i ≤ log.length) (es : List Entry) :
    newestGuide ((log ++ es).take i) = newestGuide (log.take i) := by
  rw [List.take_append_of_le_length h]

namespace Held

variable (h : Held lane log n asks dropped)

include h

theorem handed {x : Entry} (hx : x.ofGen = false) (hg : x.gen ≤ n) (new : List Ask)
    (sane : ∀ a ∈ new, Sane lane (log ++ [x]) a)
    (notice : x = .notice → ∃ a ∈ new, log.length ∈ a.acks)
    (slow : x = .slow → ∃ a ∈ new, a.trigger.msgId = some log.length) :
    Held lane (log ++ [x]) n (new ++ asks) dropped := by
  have hmem : ∀ {e : Entry}, e.ofGen = true → e ∈ log ++ [x] → e ∈ log := mem_old hx
  have hget : ∀ {e : Entry} {i : Nat}, e.ofGen = true → (log ++ [x])[i]? = some e →
      log[i]? = some e := get?_old hx
  refine ⟨?_, ?_, ?_, ?_, ?_, ?_, fun d hd => (h.drops d hd).append _, ?_, ?_⟩
  · intro a ha
    rcases List.mem_append.mp ha with ha | ha
    · exact sane a ha
    · exact (h.sane a ha).append _
  · intro e he
    rcases mem_snoc.mp he with he | rfl
    · exact h.gens e he
    · exact hg
  · intro m g hv
    have := h.told m g (hmem rfl hv)
    simp only [List.length_append]
    omega
  · exact fun i j g a b hi hj => h.once i j g a b (hget rfl hi) (hget rfl hj)
  · intro m hm
    rcases get?_snoc hm with hm | ⟨rfl, he⟩
    · rcases h.notices m hm with ⟨g, hv⟩ | ⟨a, ha, hma⟩ | hd
      · exact .inl ⟨g, List.mem_append_left _ hv⟩
      · exact .inr (.inl ⟨a, List.mem_append_right _ ha, hma⟩)
      · exact .inr (.inr hd)
    · obtain ⟨a, ha, hma⟩ := notice he.symm
      exact .inr (.inl ⟨a, List.mem_append_left _ ha, hma⟩)
  · intro m hm
    rcases get?_snoc hm with hm | ⟨rfl, he⟩
    · rcases h.slows m hm with ⟨g, hv⟩ | ⟨a, ha, hma⟩
      · exact .inl ⟨g, List.mem_append_left _ hv⟩
      · exact .inr ⟨a, List.mem_append_right _ ha, hma⟩
    · obtain ⟨a, ha, hma⟩ := slow he.symm
      exact .inr ⟨a, List.mem_append_left _ ha, hma⟩
  · intro g why a m hc hw hr hv hm
    have hv' := hmem rfl hv
    rcases get?_snoc hm with hm | ⟨rfl, -⟩
    · have hk := h.guides g why a m (hmem rfl hc) hw (hmem rfl hr) hv' hm
      refine (hk.append _).imp_left ?_
      exact fun ⟨b, hb, hkb⟩ => ⟨b, List.mem_append_right _ hb, hkb⟩
    · exact absurd (h.told _ _ hv') (by omega)
  · intro i g a items m hi ht hacts hm hnew
    have hi' := hget rfl hi
    have hlt := (List.getElem?_eq_some_iff.mp hi').1
    rw [newest_take (by omega)] at hnew
    exact List.mem_append_left _ (h.voices i g a items m hi' (hmem rfl ht) hacts hm hnew)

/-- An event that none of the facts is about. -/
theorem quiet {x : Entry} (hx : x.ofGen = false) (hm : x.message = false) (hg : x.gen ≤ n) :
    Held lane (log ++ [x]) n asks dropped := by
  refine h.handed hx hg [] nofun ?_ ?_ <;>
    · rintro rfl
      cases hm

theorem quiets {es : List Entry}
    (hes : ∀ e ∈ es, e.ofGen = false ∧ e.message = false ∧ e.gen ≤ n) :
    Held lane (log ++ es) n asks dropped := by
  induction es using List.reverseRecOn with
  | nil => simpa using h
  | append_singleton es e ih =>
    obtain ⟨he, hm, hg⟩ := hes e (by simp)
    rw [← List.append_assoc]
    exact (ih fun e' he' => hes e' (List.mem_append_left _ he')).quiet he hm hg

/-- Asks put in another way: each is sane, and nothing that is carried is lost. -/
theorem moved {asks' : List Ask} {dropped' : List Drop} (sane : ∀ a ∈ asks', Sane lane log a)
    (drops : ∀ d ∈ dropped', Dropped log d)
    (acks : ∀ a ∈ asks, ∀ m ∈ a.acks, log[m]? = some .notice →
      (∃ g, .voiced m g ∈ log) ∨ (∃ b ∈ asks', m ∈ b.acks) ∨ ∃ d ∈ dropped', m ∈ d.ask.acks)
    (msgs : ∀ a ∈ asks, ∀ m, a.trigger.msgId = some m →
      (∃ g, .voiced m g ∈ log) ∨ ∃ b ∈ asks', b.trigger.msgId = some m)
    (guides : ∀ a ∈ asks, ∀ m ∈ a.guides, ∀ g why, .cancelled g why ∈ log → .voiced m g ∈ log →
      log[m]? = some .guide → Kept log asks' dropped' g a.trigger.kind m)
    (kept : ∀ d ∈ dropped, d ∈ dropped') :
    Held lane log n asks' dropped' := by
  refine ⟨sane, h.gens, h.told, h.once, ?_, ?_, drops, ?_, h.voices⟩
  · intro m hm
    rcases h.notices m hm with hv | ⟨a, ha, hma⟩ | ⟨d, hd, hmd⟩
    · exact .inl hv
    · exact acks a ha m hma hm
    · exact .inr (.inr ⟨d, kept d hd, hmd⟩)
  · intro m hm
    rcases h.slows m hm with hv | ⟨a, ha, hma⟩
    · exact .inl hv
    · exact msgs a ha m hma
  · intro g why a m hc hw hr hv hm
    rcases h.guides g why a m hc hw hr hv hm with ⟨b, hb, hk, hmb⟩ | hturn | ⟨d, hd, hk⟩
    · exact hk ▸ guides b hb m hmb g why hc hv hm
    · exact .inr (.inl hturn)
    · exact .inr (.inr ⟨d, kept d hd, hk⟩)

theorem requested (ask : Ask) :
    Held lane (log ++ [.request (n + 1) ask]) (n + 1) asks dropped := by
  have hnew : ∀ e ∈ log, e.gen ≠ n + 1 := fun e he hg => by
    have := h.gens e he
    omega
  refine ⟨fun a ha => (h.sane a ha).append _, ?_, ?_, ?_, ?_, ?_,
    fun d hd => (h.drops d hd).append _, ?_, ?_⟩
  · intro e he
    rcases mem_snoc.mp he with he | rfl
    · exact Nat.le_succ_of_le (h.gens e he)
    · exact Nat.le_refl _
  · intro m g hv
    have := h.told m g (mem_of_ne hv nofun)
    simp only [List.length_append]
    omega
  · intro i j g a b hi hj
    rcases get?_snoc hi with hi | ⟨rfl, he⟩ <;> rcases get?_snoc hj with hj | ⟨rfl, he'⟩
    · exact h.once i j g a b hi hj
    · cases he'
      exact absurd rfl (hnew _ (List.mem_of_getElem? hi))
    · cases he
      exact absurd rfl (hnew _ (List.mem_of_getElem? hj))
    · rfl
  · refine fun m hm => (h.notices m (get?_of_ne hm nofun)).imp_left ?_
    exact fun ⟨g, hv⟩ => ⟨g, List.mem_append_left _ hv⟩
  · refine fun m hm => (h.slows m (get?_of_ne hm nofun)).imp_left ?_
    exact fun ⟨g, hv⟩ => ⟨g, List.mem_append_left _ hv⟩
  · intro g why a m hc hw hr hv hm
    have hc' := mem_of_ne hc nofun
    rcases mem_snoc.mp hr with hr | he
    · exact (h.guides g why a m hc' hw hr (mem_of_ne hv nofun) (get?_of_ne hm nofun)).append _
    · cases he
      exact absurd rfl (hnew _ hc')
  · intro i g a items m hi ht hacts hm hnew'
    have ht' := mem_of_ne ht nofun
    rcases get?_snoc hi with hi | ⟨rfl, he⟩
    · have hlt := (List.getElem?_eq_some_iff.mp hi).1
      rw [newest_take (by omega)] at hnew'
      exact List.mem_append_left _ (h.voices i g a items m hi ht' hacts hm hnew')
    · cases he
      exact absurd rfl (hnew _ ht')

/-- The running generation cancelled: the GUIDEs it voiced are carried. -/
theorem cancelled {ask : Ask} {why : Reason} (hr : .request n ask ∈ log)
    (carried : why ≠ .epoch → ∀ m, .voiced m n ∈ log → log[m]? = some .guide →
      ∃ b ∈ asks, b.trigger.kind = ask.trigger.kind ∧ m ∈ b.guides) :
    Held lane (log ++ [.cancelled n why]) n asks dropped := by
  refine ⟨fun a ha => (h.sane a ha).append _, ?_, ?_, ?_, ?_, ?_,
    fun d hd => (h.drops d hd).append _, ?_, ?_⟩
  · intro e he
    rcases mem_snoc.mp he with he | rfl
    · exact h.gens e he
    · exact Nat.le_refl _
  · intro m g hv
    have := h.told m g (mem_of_ne hv nofun)
    simp only [List.length_append]
    omega
  · exact fun i j g a b hi hj => h.once i j g a b (get?_of_ne hi nofun) (get?_of_ne hj nofun)
  · refine fun m hm => (h.notices m (get?_of_ne hm nofun)).imp_left ?_
    exact fun ⟨g, hv⟩ => ⟨g, List.mem_append_left _ hv⟩
  · refine fun m hm => (h.slows m (get?_of_ne hm nofun)).imp_left ?_
    exact fun ⟨g, hv⟩ => ⟨g, List.mem_append_left _ hv⟩
  · intro g w a m hc hw hr' hv hm
    have hr'' := mem_of_ne hr' nofun
    have hv' := mem_of_ne hv nofun
    have hm' := get?_of_ne hm nofun
    rcases mem_snoc.mp hc with hc | he
    · exact (h.guides g w a m hc hw hr'' hv' hm').append _
    · cases he
      obtain ⟨i, hi⟩ := List.mem_iff_getElem?.mp hr
      obtain ⟨j, hj⟩ := List.mem_iff_getElem?.mp hr''
      have hij := h.once i j n ask a hi hj
      rw [hij, hj] at hi
      cases hi
      obtain ⟨b, hb, hkb⟩ := carried hw m hv' hm'
      exact .inl ⟨b, hb, hkb⟩
  · intro i g a items m hi ht hacts hm hnew
    have hi' := get?_of_ne hi nofun
    have hlt := (List.getElem?_eq_some_iff.mp hi').1
    rw [newest_take (by omega)] at hnew
    exact List.mem_append_left _ (h.voices i g a items m hi' (mem_of_ne ht nofun) hacts hm hnew)

theorem turned {ask : Ask} {items : List Item} {vs : List Nat} {i : Nat}
    (hi : log[i]? = some (.request n ask))
    (voices : acts items = true → ∀ m ∈ ask.guides, newestGuide (log.take i) = some m → m ∈ vs)
    (uncut : ∀ w, .cancelled n w ∉ log) (old : ∀ m ∈ vs, m < log.length) :
    Held lane (log ++ .turn n items :: vs.map (.voiced · n)) n asks dropped := by
  set es : List Entry := .turn n items :: vs.map (.voiced · n) with hes
  have hnew : ∀ {e : Entry}, e ∈ es → e = .turn n items ∨ ∃ m ∈ vs, e = .voiced m n := by
    intro e he
    rcases List.mem_cons.mp he with rfl | he
    · exact .inl rfl
    · obtain ⟨m, hm, rfl⟩ := List.mem_map.mp he
      exact .inr ⟨m, hm, rfl⟩
  have hmem : ∀ {e : Entry}, e ∈ log ++ es → (∀ its, e ≠ .turn n its) → (∀ m, e ≠ .voiced m n) →
      e ∈ log := by
    intro e he ht hv
    rcases List.mem_append.mp he with he | he
    · exact he
    · rcases hnew he with rfl | ⟨m, -, rfl⟩
      · exact absurd rfl (ht _)
      · exact absurd rfl (hv m)
  have hget : ∀ {e : Entry} {j : Nat}, (log ++ es)[j]? = some e → (∀ its, e ≠ .turn n its) →
      (∀ m, e ≠ .voiced m n) → log[j]? = some e := by
    intro e j hj ht hv
    rcases Nat.lt_or_ge j log.length with hlt | hge
    · rwa [List.getElem?_append_left hlt] at hj
    · rw [List.getElem?_append_right hge] at hj
      rcases hnew (List.mem_of_getElem? hj) with rfl | ⟨m, -, rfl⟩
      · exact absurd rfl (ht _)
      · exact absurd rfl (hv m)
  have hvoiced : ∀ {m g}, .voiced m g ∈ log ++ es → .voiced m g ∈ log ∨ m ∈ vs ∧ g = n := by
    intro m g hv
    rcases List.mem_append.mp hv with hv | hv
    · exact .inl hv
    · rcases hnew hv with he | ⟨m', hm', he⟩
      · cases he
      · cases he
        exact .inr ⟨hm', rfl⟩
  refine ⟨fun a ha => (h.sane a ha).append _, ?_, ?_, ?_, ?_, ?_,
    fun d hd => (h.drops d hd).append _, ?_, ?_⟩
  · intro e he
    rcases List.mem_append.mp he with he | he
    · exact h.gens e he
    · rcases hnew he with rfl | ⟨m, -, rfl⟩ <;> exact Nat.le_refl n
  · intro m g hv
    rw [List.length_append]
    rcases hvoiced hv with hv | ⟨hm, -⟩
    · have := h.told m g hv
      omega
    · have := old m hm
      omega
  · exact fun i j g a b hi hj => h.once i j g a b (hget hi nofun nofun) (hget hj nofun nofun)
  · refine fun m hm => (h.notices m (hget hm nofun nofun)).imp_left ?_
    exact fun ⟨g, hv⟩ => ⟨g, List.mem_append_left _ hv⟩
  · refine fun m hm => (h.slows m (hget hm nofun nofun)).imp_left ?_
    exact fun ⟨g, hv⟩ => ⟨g, List.mem_append_left _ hv⟩
  · intro g w a m hc hw hr hv hm
    have hc' := hmem hc nofun nofun
    rcases hvoiced hv with hv | ⟨-, rfl⟩
    · exact (h.guides g w a m hc' hw (hmem hr nofun nofun) hv (hget hm nofun nofun)).append _
    · exact absurd hc' (uncut w)
  · intro j g a its m hj ht hacts hm hnewest
    have hj' := hget hj nofun nofun
    have hlt := (List.getElem?_eq_some_iff.mp hj').1
    rw [newest_take (by omega)] at hnewest
    rcases List.mem_append.mp ht with ht | ht
    · exact List.mem_append_left _ (h.voices j g a its m hj' ht hacts hm hnewest)
    · rcases hnew ht with he | ⟨_, _, he⟩
      · cases he
        have hij := h.once i j n ask a hi hj'
        rw [← hij, hi] at hj'
        cases hj'
        have hvs := voices hacts m hm (hij ▸ hnewest)
        exact List.mem_append_right _ (List.mem_cons_of_mem _ (List.mem_map.mpr ⟨m, hvs, rfl⟩))
      · cases he

end Held

/-! ## Asks put together -/

theorem mem_absorb_acks {pending : List Ask} {ask : Ask} :
    m ∈ (Lane.absorb pending ask).acks ↔
      (∃ a ∈ pending, Lane.same ask a = true ∧ m ∈ a.acks) ∨ m ∈ ask.acks := by
  simp [Lane.absorb, and_assoc]

theorem mem_absorb_guides {pending : List Ask} {ask : Ask} :
    m ∈ (Lane.absorb pending ask).guides ↔
      (∃ a ∈ pending, Lane.same ask a = true ∧ m ∈ a.guides) ∨ m ∈ ask.guides := by
  simp [Lane.absorb, and_assoc]

theorem same_kind {ask a : Ask} (h : Lane.same ask a = true) :
    a.trigger.kind = ask.trigger.kind ∧ ask.trigger.kind ≠ .slowMsg := by
  simpa [Lane.same] using h

theorem mem_add {s : Lane} {ask b : Ask} {first : Bool} :
    b ∈ (s.add ask first).pending ↔
      b = Lane.absorb s.pending ask ∨ b ∈ s.pending ∧ Lane.same ask b = false := by
  cases first <;> simp [Lane.add, or_comm]

/-- An ask handed over is with those pending, and nothing it or they carry is lost. -/
theorem Held.added {s : Lane} {ask : Ask} {hand : List Ask} (first : Bool)
    (h : Held lane log n (ask :: (s.pending ++ hand)) dropped)
    (apart : ask.again = true → ask.trigger.kind = .approvalCard →
      ∀ a ∈ s.pending, a.trigger.kind ≠ .approvalCard) :
    Held lane log n ((s.add ask first).pending ++ hand) dropped := by
  have hask := h.sane ask List.mem_cons_self
  have hpend : ∀ a ∈ s.pending, Sane lane log a := fun a ha =>
    h.sane a (List.mem_cons_of_mem _ (List.mem_append_left _ ha))
  have habs : Sane lane log (Lane.absorb s.pending ask) := by
    refine ⟨hask.fits, ?_, hask.msg, ?_, ?_⟩
    · intro m hm
      rcases mem_absorb_acks.mp hm with ⟨a, ha, hsame, hma⟩ | hm
      · exact ⟨(same_kind hsame).1 ▸ ((hpend a ha).acks m hma).1, ((hpend a ha).acks m hma).2⟩
      · exact hask.acks m hm
    · intro hne
      obtain ⟨m, hm⟩ := List.exists_mem_of_ne_nil _ hne
      rcases mem_absorb_guides.mp hm with ⟨a, ha, -, hma⟩ | hm
      · exact (hpend a ha).guides (List.ne_nil_of_mem hma)
      · exact hask.guides (List.ne_nil_of_mem hm)
    · intro hag hk m hm
      rcases mem_absorb_acks.mp hm with ⟨a, ha, hsame, -⟩ | hm
      · exact absurd ((same_kind hsame).1.trans hk) (apart hag hk a ha)
      · exact hask.again hag hk m hm
  -- where each ask of before is now
  have goes : ∀ a ∈ ask :: (s.pending ++ hand),
      a ∈ (s.add ask first).pending ++ hand ∨ a = ask ∨ a ∈ s.pending ∧ Lane.same ask a = true := by
    intro a ha
    rcases List.mem_cons.mp ha with rfl | ha
    · exact .inr (.inl rfl)
    · rcases List.mem_append.mp ha with ha | ha
      · cases hsame : Lane.same ask a with
        | true => exact .inr (.inr ⟨ha, rfl⟩)
        | false => exact .inl (List.mem_append_left _ (mem_add.mpr (.inr ⟨ha, hsame⟩)))
      · exact .inl (List.mem_append_right _ ha)
  have there : Lane.absorb s.pending ask ∈ (s.add ask first).pending ++ hand :=
    List.mem_append_left _ (mem_add.mpr (.inl rfl))
  refine h.moved ?_ h.drops ?_ ?_ ?_ fun d hd => hd
  · intro b hb
    rcases List.mem_append.mp hb with hb | hb
    · rcases mem_add.mp hb with rfl | ⟨hb, -⟩
      · exact habs
      · exact hpend b hb
    · exact h.sane b (List.mem_cons_of_mem _ (List.mem_append_right _ hb))
  · intro a ha m hm _
    rcases goes a ha with hin | rfl | ⟨hp, hsame⟩
    · exact .inr (.inl ⟨a, hin, hm⟩)
    · exact .inr (.inl ⟨_, there, mem_absorb_acks.mpr (.inr hm)⟩)
    · exact .inr (.inl ⟨_, there, mem_absorb_acks.mpr (.inl ⟨a, hp, hsame, hm⟩)⟩)
  · intro a ha m hm
    rcases goes a ha with hin | rfl | ⟨hp, hsame⟩
    · exact .inr ⟨a, hin, hm⟩
    · exact .inr ⟨_, there, hm⟩
    · have hk := ((hpend a hp).msg m hm).1
      exact absurd ((same_kind hsame).1.symm.trans hk) (same_kind hsame).2
  · intro a ha m hm g why _ _ _
    rcases goes a ha with hin | rfl | ⟨hp, hsame⟩
    · exact .inl ⟨a, hin, rfl, hm⟩
    · exact .inl ⟨_, there, rfl, mem_absorb_guides.mpr (.inr hm)⟩
    · exact .inl ⟨_, there, (same_kind hsame).1.symm,
        mem_absorb_guides.mpr (.inl ⟨a, hp, hsame, hm⟩)⟩

/-! ## The board -/

/-- What the board's pending card and the newest GUIDE are read off. -/
def Entry.board : Entry → Bool
  | .guide | .requested | .decided => true
  | _ => false

theorem cardAt_append {es : List Entry} (h : ∀ e ∈ es, e.board = false) :
    cardAt (log ++ es) = cardAt log := by
  induction es using List.reverseRecOn with
  | nil => simp
  | append_singleton es e ih =>
    have he := h e (by simp)
    rw [← List.append_assoc, cardAt, List.foldl_append, ← cardAt,
      ih fun e' he' => h e' (List.mem_append_left _ he')]
    cases e <;> first | rfl | cases he

theorem newestGuide_snoc (e : Entry) :
    newestGuide (log ++ [e]) = if e = .guide then some log.length else newestGuide log := by
  by_cases he : e = .guide <;> simp [newestGuide, List.zipIdx_append, List.filter_append, he]

theorem newestGuide_append {es : List Entry} (h : ∀ e ∈ es, e.board = false) :
    newestGuide (log ++ es) = newestGuide log := by
  induction es using List.reverseRecOn with
  | nil => simp
  | append_singleton es e ih =>
    have he : e ≠ .guide := by
      rintro rfl
      exact absurd (h .guide (by simp)) (by decide)
    rw [← List.append_assoc, newestGuide_snoc, if_neg he,
      ih fun e' he' => h e' (List.mem_append_left _ he')]

end

/-- What the lane and the board note is what the log says. -/
structure Board (s : Lane) : Prop where
  card : s.card = cardAt s.log
  guide : s.guide = newestGuide s.log
  here : s.closed = false
  cp : ∀ g, s.guide = some g → s.lane = .cp ∧ g < s.log.length
  user : s.lane = .user → s.heard = none ∧ s.partner = none

structure Busy (s : Lane) (r : Running) : Prop where
  gen : r.gen = s.n
  uncut : ∀ w, .cancelled s.n w ∉ s.log
  asked : ∃ i, s.log[i]? = some (.request s.n r.ask) ∧ (r.stage = .streaming →
    ∀ m ∈ r.ask.guides, newestGuide (s.log.take i) = some m → m ∈ r.guides)
  guides : ∀ m ∈ r.guides, m < s.log.length ∧ s.lane = .cp
  silent : r.stage = .streaming → ∀ m, .voiced m s.n ∉ s.log
  turned : r.stage ≠ .streaming → (∃ items, .turn s.n items ∈ s.log) ∧
    (∀ m ∈ r.ask.acks, .voiced m s.n ∈ s.log) ∧
    (∀ m, r.ask.trigger.msgId = some m → .voiced m s.n ∈ s.log) ∧
    ∀ m, .voiced m s.n ∈ s.log → s.log[m]? = some .guide → m ∈ r.guides

structure Inv (s : Lane) : Prop where
  board : Board s
  held : Held s.lane s.log s.n (s.pending ++ (s.running.map Running.ask).toList) s.dropped
  busy : ∀ r, s.running = some r → Busy s r

theorem Board.emits {s : Lane} (h : Board s) {es : List Entry} (hes : ∀ e ∈ es, e.board = false) :
    Board (s.emits es) := by
  refine ⟨h.card.trans (cardAt_append hes).symm, h.guide.trans (newestGuide_append hes).symm,
    h.here, ?_, h.user⟩
  intro g hg
  obtain ⟨h1, h2⟩ := h.cp g hg
  refine ⟨h1, ?_⟩
  simp only [Lane.emits, List.length_append]
  omega

theorem Board.emit {s : Lane} (h : Board s) {e : Entry} (he : e.board = false) :
    Board (s.emit e) := by
  show Board (s.emits [e])
  exact h.emits fun e' he' => by rwa [List.mem_singleton.mp he']

/-- A generation is under way as long as others write. -/
theorem Busy.append {s t : Lane} {r : Running} {es : List Entry} (h : Busy s r)
    (log : t.log = s.log ++ es) (n : t.n = s.n) (lane : t.lane = s.lane)
    (hes : ∀ e ∈ es, e.ofGen = false) (told : ∀ m g, .voiced m g ∈ s.log → m < s.log.length) :
    Busy t r := by
  have old : ∀ {e : Entry}, e.ofGen = true → e ∈ s.log ++ es → e ∈ s.log := by
    intro e he hmem
    rcases List.mem_append.mp hmem with hmem | hmem
    · exact hmem
    · rw [hes e hmem] at he
      cases he
  obtain ⟨i, hi, hnew⟩ := h.asked
  have hlt := (List.getElem?_eq_some_iff.mp hi).1
  refine ⟨n ▸ h.gen, ?_, ⟨i, ?_, ?_⟩, ?_, ?_, ?_⟩
  · rw [n, log]
    exact fun w hc => h.uncut w (old rfl hc)
  · rw [n, log]
    exact get?_append hi es
  · rw [log, newest_take (by omega)]
    exact hnew
  · intro m hm
    rw [log, lane, List.length_append]
    exact ⟨Nat.lt_add_right _ (h.guides m hm).1, (h.guides m hm).2⟩
  · rw [n, log]
    exact fun hs m hv => h.silent hs m (old rfl hv)
  · intro hs
    obtain ⟨⟨items, ht⟩, hacks, hmsg, hguides⟩ := h.turned hs
    rw [n, log]
    refine ⟨⟨items, List.mem_append_left _ ht⟩, fun m hm => List.mem_append_left _ (hacks m hm),
      fun m hm => List.mem_append_left _ (hmsg m hm), fun m hv hm => ?_⟩
    have hv' := old rfl hv
    rw [List.getElem?_append_left (told m _ hv')] at hm
    exact hguides m hv' hm

theorem Busy.stage {s : Lane} {r : Running} (h : Busy s r) (hr : r.stage ≠ .streaming)
    {stage : Stage} (hs : stage ≠ .streaming) : Busy s { r with stage } := by
  obtain ⟨i, hi, -⟩ := h.asked
  exact ⟨h.gen, h.uncut, ⟨i, hi, fun he => absurd he hs⟩, h.guides, fun he => absurd he hs,
    fun _ => h.turned hr⟩

/-! ## Serving -/

theorem chosen_mem {pending : List Ask} {ask : Ask} (h : Lane.chosen pending = some ask) :
    ask ∈ pending := by
  rw [Lane.chosen] at h
  split at h
  · rename_i a hf
    cases h
    exact List.mem_of_find?_eq_some hf
  · exact List.mem_of_head? h

/-- A trigger that does not run: the call is open, so it is moot. -/
theorem dropped_skip {s : Lane} {ask : Ask} {why : Why} (hb : Board s)
    (hs : Sane s.lane s.log ask) (h : s.skips ask = some why) :
    Dropped s.log ⟨ask, why, s.log.length⟩ ∧ ask.trigger.kind ≠ .slowMsg ∧
      (ask.guides ≠ [] → ∃ g, why = .said g) := by
  have hmsg : ask.trigger.kind ≠ .slowMsg → ask.trigger.msgId = none := by
    intro hk
    cases hm : ask.trigger.msgId with
    | none => rfl
    | some m => exact absurd (hs.msg m hm).1 hk
  have hacks : ∀ m ∈ ask.acks, ask.trigger.kind = .approvalCard := fun m hm => (hs.acks m hm).1
  rw [Lane.skips, if_neg (by simp [hb.here])] at h
  split at h
  · rename_i hc
    cases h
    have hk : ask.trigger.kind ≠ .slowMsg := by simp [hc.1]
    refine ⟨⟨hacks, hmsg hk, Nat.le_refl _, hc.1, ?_⟩, hk, fun hg => ?_⟩
    · rw [List.take_length, ← hb.card]
      simpa using hc.2
    · have := hs.fits
      rw [hs.guides hg, hc.1] at this
      cases this
  · split at h
    · rename_i g hguide
      split at h
      · rename_i hc
        cases h
        have hk : ask.trigger.kind ≠ .slowMsg := by simp [hc.1]
        exact ⟨⟨hacks, hmsg hk, Nat.le_refl _, hc.1⟩, hk, fun _ => ⟨g, rfl⟩⟩
      · cases h
    · cases h

theorem start_inv {s : Lane} {ask : Ask} (hb : Board s)
    (h : Held s.lane s.log s.n (s.pending ++ [ask]) s.dropped) : Inv (s.start ask) := by
  have hgen : ∀ e ∈ s.log, e.gen ≠ s.n + 1 := fun e he hg => by
    have := h.gens e he
    omega
  have hnot : ∀ {e : Entry}, e.gen = s.n + 1 → (∀ a, e ≠ .request (s.n + 1) a) →
      e ∉ s.log ++ [.request (s.n + 1) ask] := by
    intro e he hne hmem
    exact hgen e (mem_of_ne hmem (hne ask)) he
  have hboard : Board (s.emit (.request (s.n + 1) ask)) := hb.emit rfl
  refine ⟨⟨hboard.card, hboard.guide, hboard.here, hboard.cp, hboard.user⟩, h.requested ask, ?_⟩
  rintro r ⟨⟩
  refine ⟨rfl, fun w => hnot rfl nofun, ⟨s.log.length, by simp [Lane.start, Lane.emit], ?_⟩, ?_,
    fun _ m => hnot rfl nofun, fun hne => absurd rfl hne⟩
  · intro _ m hm hnew
    have hnew' : newestGuide s.log = some m := by
      simpa [Lane.start, Lane.emit] using hnew
    simp [Lane.rendered, hb.guide, hnew', hm]
  · intro m hm
    rw [Lane.rendered] at hm
    split at hm
    · rename_i g hg
      split at hm
      · obtain rfl := List.mem_singleton.mp hm
        obtain ⟨hcp, hlt⟩ := hb.cp m hg
        refine ⟨?_, hcp⟩
        simp only [Lane.start, Lane.emit, List.length_append]
        omega
      · cases hm
    · cases hm

theorem serve_inv (fuel : Nat) {s : Lane} (hrun : s.running = none) (hb : Board s)
    (h : Held s.lane s.log s.n s.pending s.dropped) : Inv (s.serve fuel) := by
  induction fuel generalizing s with
  | zero => exact ⟨hb, by simpa [Lane.serve, hrun] using h, by simp [Lane.serve, hrun]⟩
  | succ fuel ih =>
    rw [Lane.serve]
    split
    · exact ⟨hb, by simpa [hrun] using h, by simp [hrun]⟩
    · rename_i ask hc
      have hask := chosen_mem hc
      have hout : ∀ a ∈ s.pending, a ∈ s.pending.erase ask ∨ a = ask := by
        intro a ha
        by_cases hae : a = ask
        · exact .inr hae
        · exact .inl ((List.mem_erase_of_ne hae).mpr ha)
      dsimp only
      split
      · rename_i why hs
        obtain ⟨hd, hk, hg⟩ := dropped_skip
          (s := { s with pending := s.pending.erase ask }) ⟨hb.card, hb.guide, hb.here, hb.cp, hb.user⟩
          (h.sane ask hask) hs
        have hheld : Held s.lane s.log s.n (s.pending.erase ask)
            (s.dropped ++ [⟨ask, why, s.log.length⟩]) := by
          refine h.moved ?_ ?_ ?_ ?_ ?_ fun d hd => List.mem_append_left _ hd
          · exact fun a ha => h.sane a (List.mem_of_mem_erase ha)
          · intro d hd'
            rcases List.mem_append.mp hd' with hd' | hd'
            · exact h.drops d hd'
            · exact List.mem_singleton.mp hd' ▸ hd
          · intro a ha m hm _
            rcases hout a ha with ha | rfl
            · exact .inr (.inl ⟨a, ha, hm⟩)
            · exact .inr (.inr ⟨_, List.mem_append_right _ (List.mem_singleton.mpr rfl), hm⟩)
          · intro a ha m hm
            rcases hout a ha with ha | rfl
            · exact .inr ⟨a, ha, hm⟩
            · exact absurd ((h.sane a hask).msg m hm).1 hk
          · intro a ha m hm g w _ _ _
            rcases hout a ha with ha | rfl
            · exact .inl ⟨a, ha, rfl, hm⟩
            · exact .inr (.inr ⟨_, List.mem_append_right _ (List.mem_singleton.mpr rfl), rfl, hm,
                hg (List.ne_nil_of_mem hm)⟩)
        have hb' : Board (Lane.drop { s with pending := s.pending.erase ask } ask why) :=
          ⟨hb.card, hb.guide, hb.here, hb.cp, hb.user⟩
        exact ih hrun hb' hheld
      · refine start_inv (s := { s with pending := s.pending.erase ask })
          ⟨hb.card, hb.guide, hb.here, hb.cp, hb.user⟩ ?_
        refine h.moved ?_ h.drops ?_ ?_ ?_ fun d hd => hd
        · intro a ha
          rcases List.mem_append.mp ha with ha | ha
          · exact h.sane a (List.mem_of_mem_erase ha)
          · exact List.mem_singleton.mp ha ▸ h.sane ask hask
        · intro a ha m hm _
          rcases hout a ha with ha | rfl
          · exact .inr (.inl ⟨a, List.mem_append_left _ ha, hm⟩)
          · exact .inr (.inl ⟨a, List.mem_append_right _ (List.mem_singleton.mpr rfl), hm⟩)
        · intro a ha m hm
          rcases hout a ha with ha | rfl
          · exact .inr ⟨a, List.mem_append_left _ ha, hm⟩
          · exact .inr ⟨a, List.mem_append_right _ (List.mem_singleton.mpr rfl), hm⟩
        · intro a ha m hm g w _ _ _
          rcases hout a ha with ha | rfl
          · exact .inl ⟨a, List.mem_append_left _ ha, rfl, hm⟩
          · exact .inl ⟨a, List.mem_append_right _ (List.mem_singleton.mpr rfl), rfl, hm⟩

theorem next_inv {s : Lane} (hb : Board s)
    (h : Held s.lane s.log s.n s.pending s.dropped) : Inv s.next :=
  serve_inv _ rfl ⟨hb.card, hb.guide, hb.here, hb.cp, hb.user⟩ h

/-! ## A stale generation -/

/-- A stale generation's trigger: pending again, or dropped if it was a card's re-run. -/
theorem again_held {s : Lane} {ask : Ask}
    (h : Held s.lane s.log s.n (s.pending ++ [ask]) s.dropped)
    (stale : ask.trigger.kind = .approvalCard → ∀ m ∈ ask.acks, StaleBy s.log m s.n ask)
    (older : ask.again = true → ask.trigger.kind = .approvalCard →
      ∀ m ∈ ask.acks, ∃ g a, g < s.n ∧ StaleBy s.log m g a)
    (apart : ask.again = false → ask.trigger.kind = .approvalCard →
      ∀ a ∈ s.pending, a.trigger.kind ≠ .approvalCard) :
    Held s.lane s.log s.n (s.again ask).pending (s.again ask).dropped := by
  have hask := h.sane ask (by simp)
  have hpend : ∀ a ∈ s.pending, Sane s.lane s.log a := fun a ha =>
    h.sane a (List.mem_append_left _ ha)
  rw [Lane.again]
  split
  · rename_i hc
    have hmsg : ask.trigger.msgId = none := by
      cases hm : ask.trigger.msgId with
      | none => rfl
      | some m =>
        have := (hask.msg m hm).1
        rw [hc.2] at this
        cases this
    have hd : Dropped s.log ⟨ask, .stale, s.log.length⟩ := by
      refine ⟨fun m hm => (hask.acks m hm).1, hmsg, Nat.le_refl _, hc.2, fun m hm => ?_⟩
      obtain ⟨g, a, hlt, hg⟩ := older hc.1 hc.2 m hm
      exact ⟨g, s.n, a, ask, hlt, hg, stale hc.2 m hm, hc.1⟩
    refine h.moved hpend ?_ ?_ ?_ ?_ fun d hd' => List.mem_append_left _ hd'
    · intro d hd'
      rcases List.mem_append.mp hd' with hd' | hd'
      · exact h.drops d hd'
      · exact List.mem_singleton.mp hd' ▸ hd
    · intro a ha m hm _
      rcases List.mem_append.mp ha with ha | ha
      · exact .inr (.inl ⟨a, ha, hm⟩)
      · obtain rfl := List.mem_singleton.mp ha
        exact .inr (.inr ⟨_, List.mem_append_right _ (List.mem_singleton.mpr rfl), hm⟩)
    · intro a ha m hm
      rcases List.mem_append.mp ha with ha | ha
      · exact .inr ⟨a, ha, hm⟩
      · obtain rfl := List.mem_singleton.mp ha
        rw [hmsg] at hm
        cases hm
    · intro a ha m hm g w _ _ _
      rcases List.mem_append.mp ha with ha | ha
      · exact .inl ⟨a, ha, rfl, hm⟩
      · obtain rfl := List.mem_singleton.mp ha
        have := hask.fits
        rw [hask.guides (List.ne_nil_of_mem hm), hc.2] at this
        cases this
  · rename_i hc
    have hagain : Sane s.lane s.log { ask with again := true } :=
      ⟨hask.fits, hask.acks, hask.msg, hask.guides,
        fun _ hk m hm => ⟨s.n, ask, stale hk m hm⟩⟩
    have hhand : Held s.lane s.log s.n ({ ask with again := true } :: (s.pending ++ [])) s.dropped := by
      refine h.moved ?_ h.drops ?_ ?_ ?_ fun d hd => hd
      · intro a ha
        rcases List.mem_cons.mp ha with rfl | ha
        · exact hagain
        · exact hpend a (by simpa using ha)
      · intro a ha m hm _
        rcases List.mem_append.mp ha with ha | ha
        · exact .inr (.inl ⟨a, by simp [ha], hm⟩)
        · obtain rfl := List.mem_singleton.mp ha
          exact .inr (.inl ⟨_, List.mem_cons_self, hm⟩)
      · intro a ha m hm
        rcases List.mem_append.mp ha with ha | ha
        · exact .inr ⟨a, by simp [ha], hm⟩
        · obtain rfl := List.mem_singleton.mp ha
          exact .inr ⟨_, List.mem_cons_self, hm⟩
      · intro a ha m hm g w _ _ _
        rcases List.mem_append.mp ha with ha | ha
        · exact .inl ⟨a, by simp [ha], rfl, hm⟩
        · obtain rfl := List.mem_singleton.mp ha
          exact .inl ⟨_, List.mem_cons_self, rfl, hm⟩
    have := hhand.added true fun _ hk => apart (by
      cases hag : ask.again with
      | false => rfl
      | true => exact absurd ⟨hag, hk⟩ hc) hk
    rwa [List.append_nil] at this

theorem again_board {s : Lane} (hb : Board s) (ask : Ask) : Board (s.again ask) := by
  rw [Lane.again]
  split <;> exact ⟨hb.card, hb.guide, hb.here, hb.cp, hb.user⟩

theorem again_same (s : Lane) (ask : Ask) :
    (s.again ask).lane = s.lane ∧ (s.again ask).log = s.log ∧ (s.again ask).n = s.n := by
  rw [Lane.again]
  split <;> exact ⟨rfl, rfl, rfl⟩

/-- A generation cancelled, its trigger run again, and the lane's task going on. -/
theorem cancel_inv {s : Lane} {r : Running} {ask : Ask} {why : Reason} (hb : Board s)
    (hbusy : Busy s r) (h : Held s.lane s.log s.n (s.pending ++ [ask]) s.dropped)
    (hask : ask.trigger = r.ask.trigger ∧ ask.acks = r.ask.acks ∧ ask.again = r.ask.again)
    (carried : why ≠ .epoch → ∀ m, .voiced m s.n ∈ s.log → s.log[m]? = some .guide → m ∈ ask.guides)
    (card : r.ask.trigger.kind = .approvalCard → why = .epoch ∧ ask = r.ask)
    (apart : r.ask.again = false → r.ask.trigger.kind = .approvalCard →
      ∀ a ∈ s.pending, a.trigger.kind ≠ .approvalCard) :
    Inv ((s.emit (.cancelled r.gen why)).again ask).next := by
  obtain ⟨i, hi, -⟩ := hbusy.asked
  have hreq : .request s.n r.ask ∈ s.log := List.mem_of_getElem? hi
  have hheld : Held s.lane (s.log ++ [.cancelled s.n why]) s.n (s.pending ++ [ask]) s.dropped := by
    refine h.cancelled hreq fun hw m hv hm => ⟨ask, by simp, by rw [hask.1], carried hw m hv hm⟩
  rw [hbusy.gen]
  have hb' : Board (s.emit (.cancelled s.n why)) := hb.emit rfl
  obtain ⟨h1, h2, h3⟩ := again_same (s.emit (.cancelled s.n why)) ask
  refine next_inv (again_board hb' ask) ?_
  rw [h1, h2, h3]
  refine again_held hheld ?_ ?_ ?_
  · intro hk m hm
    obtain ⟨rfl, rfl⟩ := card (hask.1 ▸ hk)
    exact ⟨List.mem_append_left _ hreq, hm, by simp [Lane.emit]⟩
  · intro hag hk m hm
    obtain ⟨g, a, hg⟩ := (h.sane ask (by simp)).again hag hk m hm
    have hle : g ≤ s.n := h.gens _ hg.2.2
    have hne : g ≠ s.n := by
      rintro rfl
      exact hbusy.uncut _ hg.2.2
    exact ⟨g, a, by show g < s.n; omega, hg.append _⟩
  · intro hag hk
    exact apart (hask.2.2 ▸ hag) (hask.1 ▸ hk)

theorem done_held {s : Lane} {r : Running} (hbusy : Busy s r) (hst : r.stage ≠ .streaming)
    (h : Held s.lane s.log s.n (s.pending ++ [r.ask]) s.dropped) :
    Held s.lane s.log s.n s.pending s.dropped := by
  obtain ⟨⟨items, ht⟩, hacks, hmsg, -⟩ := hbusy.turned hst
  obtain ⟨i, hi, -⟩ := hbusy.asked
  refine h.moved (fun a ha => h.sane a (List.mem_append_left _ ha)) h.drops ?_ ?_ ?_ fun d hd => hd
  · intro a ha m hm _
    rcases List.mem_append.mp ha with ha | ha
    · exact .inr (.inl ⟨a, ha, hm⟩)
    · obtain rfl := List.mem_singleton.mp ha
      exact .inl ⟨_, hacks m hm⟩
  · intro a ha m hm
    rcases List.mem_append.mp ha with ha | ha
    · exact .inr ⟨a, ha, hm⟩
    · obtain rfl := List.mem_singleton.mp ha
      exact .inl ⟨_, hmsg m hm⟩
  · intro a ha m hm g w hc _ _
    rcases List.mem_append.mp ha with ha | ha
    · exact .inl ⟨a, ha, rfl, hm⟩
    · obtain rfl := List.mem_singleton.mp ha
      have hle : g ≤ s.n := h.gens _ hc
      have hne : g ≠ s.n := by
        rintro rfl
        exact hbusy.uncut _ hc
      exact .inr (.inl ⟨s.n, r.ask, items, by omega, List.mem_of_getElem? hi, rfl, hm, ht⟩)

/-! ## A turn -/

/-- What a turn voices. -/
def told (r : Running) (items : List Item) : List Nat :=
  (Lane.voices r items ++ r.ask.trigger.msgId.toList ++ r.ask.acks).eraseDups

theorem mem_told {r : Running} {items : List Item} {m : Nat} :
    m ∈ told r items ↔
      m ∈ Lane.voices r items ∨ r.ask.trigger.msgId = some m ∨ m ∈ r.ask.acks := by
  simp [told, Option.mem_toList]

theorem retrigger_cases (s : Lane) (r : Running) (items : List Item) (turn : Nat) :
    s.retrigger r items turn = s ∨
      r.guides ≠ [] ∧ ∃ retried, s.retrigger r items turn =
        { s with retried }.trigger { kind := .guidance } turn [] := by
  rw [Lane.retrigger]
  by_cases hc : (!acts items &&
      !((r.guides.filter (· ∉ r.ask.guides)).filter (· ∉ s.retried)).isEmpty) = true
  · refine .inr ⟨?_, _, if_pos hc⟩
    intro hg
    simp [hg] at hc
  · exact .inl (if_neg hc)

/-- What a turn changes of the lane: its log, and a re-triggered GUIDE. -/
theorem writes_spec (s : Lane) (r : Running) (items : List Item) :
    ∃ es cause, (∀ e ∈ es, e.ofGen = false ∧ e.message = false ∧ e.gen ≤ r.gen ∧ e.board = false) ∧
      (s.writes r items).log =
        s.log ++ .turn r.gen items :: (told r items).map (.voiced · r.gen) ++ es ∧
      ((s.writes r items).pending = s.pending ∨ r.guides ≠ [] ∧
        (s.writes r items).pending =
          (s.add { trigger := { kind := .guidance }, cause } false).pending) ∧
      (s.writes r items).lane = s.lane ∧ (s.writes r items).n = s.n ∧
      (s.writes r items).dropped = s.dropped ∧ (s.writes r items).card = s.card ∧
      (s.writes r items).guide = s.guide ∧ (s.writes r items).closed = s.closed ∧
      (s.writes r items).heard = s.heard ∧ (s.writes r items).partner = s.partner := by
  set rest : List Entry := (items.filter s.relays).map (fun _ => .relay) ++
    (List.range (Lane.lines r.gen items).length).map (.sentence r.gen) with hrest
  have quiet : ∀ e ∈ rest,
      e.ofGen = false ∧ e.message = false ∧ e.gen ≤ r.gen ∧ e.board = false := by
    intro e he
    rcases List.mem_append.mp he with he | he
    · obtain ⟨-, -, rfl⟩ := List.mem_map.mp he
      exact ⟨rfl, rfl, Nat.zero_le _, rfl⟩
    · obtain ⟨k, -, rfl⟩ := List.mem_map.mp he
      exact ⟨rfl, rfl, Nat.le_refl _, rfl⟩
  -- the log, whether the GUIDE was re-triggered or not
  have log : ∀ t : Lane, t.log = s.log ++ [.turn r.gen items] → t.relays = s.relays →
      (((t.voice r.gen (told r items)).emits
        ((items.filter t.relays).map fun _ => .relay)).emits
          ((List.range (Lane.lines r.gen items).length).map (.sentence r.gen))).log =
        s.log ++ .turn r.gen items :: (told r items).map (.voiced · r.gen) ++ rest := by
    intro t ht hrel
    simp only [Lane.emits, Lane.voice, ht, hrel, hrest, List.append_assoc, List.cons_append,
      List.nil_append]
  rcases retrigger_cases (s.emit (.turn r.gen items)) r items s.log.length with h | ⟨hg, retried, h⟩
  · refine ⟨rest, 0, quiet, ?_, .inl ?_, ?_⟩
    · rw [Lane.writes, h]
      exact log _ rfl rfl
    · rw [Lane.writes, h]
      rfl
    · rw [Lane.writes, h]
      exact ⟨rfl, rfl, rfl, rfl, rfl, rfl, rfl, rfl⟩
  · refine ⟨rest, s.log.length, quiet, ?_, .inr ⟨hg, ?_⟩, ?_⟩
    · rw [Lane.writes, h]
      exact log _ rfl rfl
    · rw [Lane.writes, h]
      rfl
    · rw [Lane.writes, h]
      exact ⟨rfl, rfl, rfl, rfl, rfl, rfl, rfl, rfl⟩

/-- After a turn is written: what was carried is held, and the generation is past its stream. -/
theorem writes_inv {s : Lane} {r : Running} (items : List Item) (hb : Board s) (hbusy : Busy s r)
    (hst : r.stage = .streaming) (h : Held s.lane s.log s.n (s.pending ++ [r.ask]) s.dropped)
    {stage : Stage} (hstage : stage ≠ .streaming) :
    Board (s.writes r items) ∧
      Held (s.writes r items).lane (s.writes r items).log (s.writes r items).n
        ((s.writes r items).pending ++ [r.ask]) (s.writes r items).dropped ∧
      Busy (s.writes r items) { r with guides := Lane.voices r items, stage } := by
  obtain ⟨es, cause, hes, hlog, hpend, hlane, hn, hdropped, hcard, hguide, hclosed, hheard, hpartner⟩ :=
    writes_spec s r items
  obtain ⟨i, hi, hnewest⟩ := hbusy.asked
  have hask := h.sane r.ask (by simp)
  rw [hbusy.gen] at hlog hes
  set vs := told r items with hvs
  set new : List Entry := .turn s.n items :: vs.map (.voiced · s.n) with hnew
  have hvoices : ∀ m ∈ Lane.voices r items, m ∈ r.guides := by
    intro m hm
    rw [Lane.voices] at hm
    split at hm
    · exact hm
    · cases hm
  have hold : ∀ m ∈ vs, m < s.log.length := by
    intro m hm
    rcases mem_told.mp hm with hm | hm | hm
    · exact (hbusy.guides m (hvoices m hm)).1
    · exact (List.getElem?_eq_some_iff.mp (hask.msg m hm).2).1
    · exact (List.getElem?_eq_some_iff.mp (hask.acks m hm).2).1
  have hheld : Held s.lane (s.log ++ new ++ es) s.n (s.pending ++ [r.ask]) s.dropped := by
    refine (h.turned hi (fun hacts m hm hw => ?_) hbusy.uncut hold).quiets
      fun e he => ⟨(hes e he).1, (hes e he).2.1, (hes e he).2.2.1⟩
    exact mem_told.mpr (.inl (by rw [Lane.voices, if_pos hacts]; exact hnewest hst m hm hw))
  have hboard : ∀ e ∈ new ++ es, e.board = false := by
    intro e he
    rcases List.mem_append.mp he with he | he
    · rcases List.mem_cons.mp he with rfl | he
      · rfl
      · obtain ⟨m, -, rfl⟩ := List.mem_map.mp he
        rfl
    · exact (hes e he).2.2.2
  have hmem : ∀ {e : Entry}, e ∈ (s.writes r items).log → (∀ its, e ≠ .turn s.n its) →
      (∀ m, e ≠ .voiced m s.n) → e.ofGen = true → e ∈ s.log := by
    intro e he ht hv hgen
    rw [hlog] at he
    rcases List.mem_append.mp he with he | he
    · rcases List.mem_append.mp he with he | he
      · exact he
      · rcases List.mem_cons.mp he with rfl | he
        · exact absurd rfl (ht _)
        · obtain ⟨m, -, rfl⟩ := List.mem_map.mp he
          exact absurd rfl (hv m)
    · rw [(hes e he).1] at hgen
      cases hgen
  refine ⟨⟨?_, ?_, ?_, ?_, ?_⟩, ?_, ?_⟩
  · rw [hcard, hlog, List.append_assoc, cardAt_append hboard]
    exact hb.card
  · rw [hguide, hlog, List.append_assoc, newestGuide_append hboard]
    exact hb.guide
  · rw [hclosed]
    exact hb.here
  · intro g hg
    rw [hguide] at hg
    obtain ⟨h1, h2⟩ := hb.cp g hg
    rw [hlane, hlog]
    refine ⟨h1, ?_⟩
    simp only [List.length_append]
    omega
  · rw [hlane, hheard, hpartner]
    exact hb.user
  · rw [hlane, hlog, hn, hdropped]
    rcases hpend with hp | ⟨hg, hp⟩
    · rw [hp]
      exact hheld
    · rw [hp]
      obtain ⟨m, hm⟩ := List.exists_mem_of_ne_nil _ hg
      have hcp := (hbusy.guides m hm).2
      have hone : Sane s.lane (s.log ++ new ++ es) { trigger := { kind := .guidance }, cause } :=
        ⟨by rw [hcp]; rfl, nofun, nofun, fun hne => absurd rfl hne, nofun⟩
      refine Held.added false (hheld.moved ?_ hheld.drops ?_ ?_ ?_ fun d hd => hd) nofun
      · intro a ha
        rcases List.mem_cons.mp ha with rfl | ha
        · exact hone
        · exact hheld.sane a ha
      · exact fun a ha m hm _ => .inr (.inl ⟨a, List.mem_cons_of_mem _ ha, hm⟩)
      · exact fun a ha m hm => .inr ⟨a, List.mem_cons_of_mem _ ha, hm⟩
      · exact fun a ha m hm g w _ _ _ => .inl ⟨a, List.mem_cons_of_mem _ ha, rfl, hm⟩
  · refine ⟨by rw [hn]; exact hbusy.gen, ?_, ⟨i, ?_, fun hs => absurd hs hstage⟩, ?_,
      fun hs => absurd hs hstage, fun _ => ⟨⟨items, ?_⟩, ?_, ?_, ?_⟩⟩
    · rw [hn]
      exact fun w hc => hbusy.uncut w (hmem hc nofun nofun rfl)
    · rw [hn, hlog, List.append_assoc]
      exact get?_append hi _
    · intro m hm
      obtain ⟨h1, h2⟩ := hbusy.guides m (hvoices m hm)
      rw [hlog, hlane]
      refine ⟨?_, h2⟩
      simp only [List.length_append]
      omega
    · rw [hn, hlog]
      simp [hnew]
    · intro m hm
      rw [hn, hlog]
      have : m ∈ vs := mem_told.mpr (.inr (.inr hm))
      simp [hnew, this]
    · intro m hm
      rw [hn, hlog]
      have : m ∈ vs := mem_told.mpr (.inr (.inl hm))
      simp [hnew, this]
    · intro m hv hm
      rw [hn, hlog] at hv
      have hmv : m ∈ vs := by
        rcases List.mem_append.mp hv with hv | hv
        · rcases List.mem_append.mp hv with hv | hv
          · exact absurd hv (hbusy.silent hst m)
          · rcases List.mem_cons.mp hv with he | hv
            · cases he
            · obtain ⟨m', hm', he⟩ := List.mem_map.mp hv
              cases he
              exact hm'
        · have := (hes _ hv).1
          cases this
      have hm' : s.log[m]? = some .guide := by
        rw [hlog, List.append_assoc, List.getElem?_append_left (hold m hmv)] at hm
        exact hm
      rcases mem_told.mp hmv with hmv | hmv | hmv
      · exact hmv
      · have := (hask.msg m hmv).2
        rw [hm'] at this
        cases this
      · have := (hask.acks m hmv).2
        rw [hm'] at this
        cases this

theorem holds_spec (s : Lane) (held : Option String) :
    ∃ es, (s.holds held).log = s.log ++ es ∧ (es = [] ∨ es = [.hold held]) ∧
      (s.holds held).lane = s.lane ∧ (s.holds held).n = s.n ∧
      (s.holds held).pending = s.pending ∧ (s.holds held).dropped = s.dropped := by
  rw [Lane.holds]
  split
  · exact ⟨[.hold held], rfl, .inr rfl, rfl, rfl, rfl, rfl⟩
  · exact ⟨[], (List.append_nil _).symm, .inl rfl, rfl, rfl, rfl, rfl⟩

theorem holds_inv {s : Lane} (held : Option String) {asks : List Ask} (hb : Board s)
    (h : Held s.lane s.log s.n asks s.dropped) :
    Board (s.holds held) ∧
      Held (s.holds held).lane (s.holds held).log (s.holds held).n asks (s.holds held).dropped ∧
      (s.holds held).pending = s.pending := by
  rw [Lane.holds]
  split
  · have hb' : Board (s.emit (.hold held)) := hb.emit rfl
    exact ⟨⟨hb'.card, hb'.guide, hb'.here, hb'.cp, hb'.user⟩, h.quiet rfl rfl (Nat.zero_le _), rfl⟩
  · exact ⟨hb, h, rfl⟩

theorem held_running {s : Lane} {r : Running} (h : Inv s) (hr : s.running = some r) :
    Held s.lane s.log s.n (s.pending ++ [r.ask]) s.dropped := by
  simpa [hr] using h.held

theorem streamed_inv {s : Lane} {r : Running} (items : List Item) (h : Inv s)
    (hr : s.running = some r) (hst : r.stage = .streaming)
    (apart : s.epoch ≠ r.epoch → r.ask.again = false → r.ask.trigger.kind = .approvalCard →
      ∀ a ∈ s.pending, a.trigger.kind ≠ .approvalCard) :
    Inv (s.streamed r items) := by
  have hheld := held_running h hr
  have hbusy := h.busy r hr
  rw [Lane.streamed]
  split
  · rename_i he
    exact cancel_inv h.board hbusy hheld ⟨rfl, rfl, rfl⟩ (fun hne => absurd rfl hne)
      (fun _ => ⟨rfl, rfl⟩) (apart he)
  · have hstage : Stage.floor (Lane.held items) (Lane.lines r.gen items) ≠ .streaming := nofun
    obtain ⟨hb, hw, hbusy'⟩ := writes_inv items h.board hbusy hst hheld hstage
    rw [Lane.turn]
    split
    · obtain ⟨hb', hh, hp⟩ := holds_inv (Lane.held items) hb
        (done_held hbusy' hstage hw)
      exact next_inv hb' (hp ▸ hh)
    · refine ⟨⟨hb.card, hb.guide, hb.here, hb.cp, hb.user⟩, hw, ?_⟩
      rintro r' ⟨⟩
      exact ⟨hbusy'.gen, hbusy'.uncut, hbusy'.asked, hbusy'.guides, hbusy'.silent, hbusy'.turned⟩

/-- On the user's lane nothing is newer, so a card's turn is never stale on the floor. -/
theorem newer_cp {s : Lane} {r : Running} {seq : Nat} (hb : Board s) (h : s.newer r = some seq) :
    s.lane = .cp := by
  cases hl : s.lane with
  | cp => rfl
  | user =>
    obtain ⟨h1, h2⟩ := hb.user hl
    simp [Lane.newer, h1, h2] at h

theorem takes_inv {s : Lane} {r : Running} {held : Option String} {lines : List Utt} (h : Inv s)
    (hr : s.running = some r) (hst : r.stage = .floor held lines) :
    Inv (s.takes r held lines) := by
  have hheld := held_running h hr
  have hbusy := h.busy r hr
  have hpast : r.stage ≠ .streaming := by simp [hst]
  have hask := hheld.sane r.ask (by simp)
  rw [Lane.takes]
  split
  · rename_i seq hnew
    have hcp := newer_cp h.board hnew
    have hcard : r.ask.trigger.kind ≠ .approvalCard := by
      intro hk
      have := hask.fits
      rw [hk, hcp] at this
      cases this
    have hswap : Held s.lane s.log s.n (s.pending ++ [{ r.ask with guides := r.guides }])
        s.dropped := by
      refine (done_held hbusy hpast hheld).moved ?_ hheld.drops ?_ ?_ ?_ fun d hd => hd
      · intro a ha
        rcases List.mem_append.mp ha with ha | ha
        · exact hheld.sane a (List.mem_append_left _ ha)
        · rw [List.mem_singleton.mp ha]
          exact ⟨hask.fits, hask.acks, hask.msg, fun _ => hcp, hask.again⟩
      · exact fun a ha m hm _ => .inr (.inl ⟨a, List.mem_append_left _ ha, hm⟩)
      · exact fun a ha m hm => .inr ⟨a, List.mem_append_left _ ha, hm⟩
      · exact fun a ha m hm g w _ _ _ => .inl ⟨a, List.mem_append_left _ ha, rfl, hm⟩
    exact cancel_inv h.board hbusy hswap ⟨rfl, rfl, rfl⟩
      (fun _ m hv hm => (hbusy.turned hpast).2.2.2 m hv hm) (fun hk => absurd hk hcard)
      (fun _ hk => absurd hk hcard)
  · obtain ⟨hb, hh, hp⟩ := holds_inv held h.board hheld
    refine ⟨⟨hb.card, hb.guide, hb.here, hb.cp, hb.user⟩, ?_, ?_⟩
    · show Held (s.holds held).lane (s.holds held).log (s.holds held).n
        ((s.holds held).pending ++ [r.ask]) (s.holds held).dropped
      rw [hp]
      exact hh
    · rintro r' ⟨⟩
      obtain ⟨es, hlog, hes, hlane, hn, -, -⟩ := holds_spec s held
      have hstage : Stage.speaking lines ≠ .streaming := nofun
      refine (hbusy.stage hpast hstage).append hlog hn hlane ?_ hheld.told
      rcases hes with rfl | rfl <;> simp [Entry.ofGen]

theorem spoken_inv {s : Lane} {r : Running} {lines : List Utt} (h : Inv s)
    (hr : s.running = some r) (hst : r.stage = .speaking lines) : Inv (s.spoken r lines) := by
  have hpast : r.stage ≠ .streaming := by simp [hst]
  have hdone := done_held (h.busy r hr) hpast (held_running h hr)
  have hb := h.board
  rw [Lane.spoken]
  split
  · exact next_inv hb hdone
  · exact next_inv ⟨hb.card, hb.guide, hb.here, hb.cp, hb.user⟩ hdone

/-! ## Events -/

structure Notes (s t : Lane) (e : Entry) : Prop where
  log : t.log = s.log ++ [e]
  n : t.n = s.n
  lane : t.lane = s.lane
  pending : t.pending = s.pending
  running : t.running = s.running
  dropped : t.dropped = s.dropped

section

variable {s t : Lane} {e : Entry}

theorem Inv.noted (h : Inv s) (ht : Notes s t e) (hb : Board t) (hx : e.ofGen = false)
    (hm : e.message = false) (hg : e.gen = 0) : Inv t := by
  refine ⟨hb, ?_, fun r hr => ?_⟩
  · rw [ht.lane, ht.log, ht.n, ht.pending, ht.running, ht.dropped]
    exact h.held.quiet hx hm (hg ▸ Nat.zero_le _)
  · exact (h.busy r (ht.running ▸ hr)).append ht.log ht.n ht.lane (by simpa using hx) h.held.told

/-- An event that triggers the lane. -/
theorem Inv.triggered (h : Inv s) (trigger : Trigger) (cause : Nat) (acks : List Nat)
    (hb : Board t) (ht : Notes s t e) (hx : e.ofGen = false) (hg : e.gen = 0)
    (sane : Sane s.lane (s.log ++ [e]) { trigger, cause, acks })
    (notice : e = .notice → s.log.length ∈ acks)
    (slow : e = .slow → trigger.msgId = some s.log.length) :
    Inv (t.trigger trigger cause acks) := by
  refine ⟨⟨hb.card, hb.guide, hb.here, hb.cp, hb.user⟩, ?_, fun r hr => ?_⟩
  · have hheld := h.held.handed hx (hg ▸ Nat.zero_le _) [{ trigger, cause, acks }]
      (by simpa using sane) (fun he => ⟨_, List.mem_singleton.mpr rfl, notice he⟩)
      (fun he => ⟨_, List.mem_singleton.mpr rfl, slow he⟩)
    rw [← ht.lane, ← ht.log, ← ht.n, ← ht.pending, ← ht.running, ← ht.dropped] at hheld
    exact hheld.added false nofun
  · have hr' : s.running = some r := ht.running ▸ hr
    exact (h.busy r hr').append ht.log ht.n ht.lane (by simpa using hx) h.held.told

end

theorem event_inv {s : Lane} {e : Entry} (h : Inv s) (he : e.comes s.lane = true) :
    Inv (s.on e) := by
  have hb := h.board
  have hlog : (s.emit e).log = s.log ++ [e] := rfl
  have emit : e.board = false → Board (s.emit e) := hb.emit
  have here : ∀ m x, (s.log ++ [x])[s.log.length]? = some m ↔ x = m := by simp
  have fits : ∀ {trigger : Trigger} {cause : Nat}, trigger.kind.lane = s.lane →
      trigger.msgId = none → Sane s.lane (s.log ++ [e]) { trigger, cause } :=
    fun hk hm => ⟨hk, nofun, by simp [hm], fun hne => absurd rfl hne, nofun⟩
  cases e
  case userMsg =>
    have hl : s.lane = .user := by simpa [Entry.comes] using he
    exact h.triggered { kind := .userMsg } _ [] (emit rfl) ⟨rfl, rfl, rfl, rfl, rfl, rfl⟩ rfl rfl
      (fits hl.symm rfl) nofun nofun
  case rep =>
    have hl : s.lane = .cp := by simpa [Entry.comes] using he
    have hb' := emit rfl
    have hp : Board { s.emit .rep with partner := some s.log.length } :=
      ⟨hb'.card, hb'.guide, hb'.here, hb'.cp, by simp [Lane.emit, hl]⟩
    have hon : s.on .rep = Lane.trigger { s.emit .rep with partner := some s.log.length }
        { kind := .repSpoke } s.log.length [] := if_neg (by simp [Lane.emit, hb.here])
    rw [hon]
    exact h.triggered { kind := .repSpoke } _ [] hp ⟨rfl, rfl, rfl, rfl, rfl, rfl⟩ rfl rfl
      (fits hl.symm rfl) nofun nofun
  case guide =>
    have hl : s.lane = .cp := by simpa [Entry.comes] using he
    have hp : Board { s.emit .guide with
        guide := some s.log.length, unvoiced := s.unvoiced ++ [s.log.length] } := by
      refine ⟨?_, ?_, hb.here, ?_, hb.user⟩
      · simpa [cardAt, Lane.emit] using hb.card
      · simp [Lane.emit, newestGuide_snoc]
      · rintro g ⟨⟩
        exact ⟨hl, by simp [Lane.emit]⟩
    have hon : s.on .guide = Lane.trigger { s.emit .guide with
        guide := some s.log.length, unvoiced := s.unvoiced ++ [s.log.length] }
        { kind := .guidance } s.log.length [] := if_neg (by simp [Lane.emit, hb.here])
    rw [hon]
    exact h.triggered { kind := .guidance } _ [] hp ⟨rfl, rfl, rfl, rfl, rfl, rfl⟩ rfl rfl
      (fits hl.symm rfl) nofun nofun
  case slow =>
    have hl : s.lane = .user := by simpa [Entry.comes] using he
    have hb' := emit rfl
    refine h.triggered { kind := .slowMsg, msgId := some s.log.length } _ []
      (t := { s.emit .slow with unvoiced := s.unvoiced ++ [s.log.length] })
      ⟨hb'.card, hb'.guide, hb'.here, hb'.cp, hb'.user⟩ ⟨rfl, rfl, rfl, rfl, rfl, rfl⟩ rfl rfl
      ⟨hl.symm, nofun, ?_, fun hne => absurd rfl hne, nofun⟩ nofun (fun _ => rfl)
    rintro m ⟨⟩
    exact ⟨rfl, (here _ _).mpr rfl⟩
  case notice =>
    have hl : s.lane = .user := by simpa [Entry.comes] using he
    have hb' := emit rfl
    refine h.triggered { kind := .approvalCard } _ [s.log.length]
      (t := { s.emit .notice with unvoiced := s.unvoiced ++ [s.log.length] })
      ⟨hb'.card, hb'.guide, hb'.here, hb'.cp, hb'.user⟩ ⟨rfl, rfl, rfl, rfl, rfl, rfl⟩ rfl rfl
      ⟨hl.symm, ?_, nofun, fun hne => absurd rfl hne, nofun⟩ (fun _ => List.mem_singleton.mpr rfl)
      nofun
    intro m hm
    rw [List.mem_singleton.mp hm]
    exact ⟨rfl, (here _ _).mpr rfl⟩
  case requested | decided =>
    refine h.noted ⟨rfl, rfl, rfl, rfl, rfl, rfl⟩ ⟨?_, ?_, hb.here, ?_, hb.user⟩ rfl rfl rfl
    · simp [Lane.on, Lane.emit, cardAt]
    · simpa [Lane.on, Lane.emit, newestGuide_snoc] using hb.guide
    · intro g hg
      have hlt := (hb.cp g hg).2
      refine ⟨(hb.cp g hg).1, ?_⟩
      simp only [Lane.on, Lane.emit, List.length_append]
      omega
  case epoch | released | bargeIn | other =>
    have hb' := emit rfl
    exact h.noted ⟨rfl, rfl, rfl, rfl, rfl, rfl⟩ ⟨hb'.card, hb'.guide, hb'.here, hb'.cp, hb'.user⟩
      rfl rfl rfl
  case delivered cites =>
    have hl : s.lane = .cp := by simpa [Entry.comes] using he
    have hb' := emit rfl
    rw [Lane.on]
    split
    · exact h.noted ⟨rfl, rfl, rfl, rfl, rfl, rfl⟩
        ⟨hb'.card, hb'.guide, hb'.here, hb'.cp, by simp [Lane.emit, hl]⟩ rfl rfl rfl
    · exact h.noted ⟨rfl, rfl, rfl, rfl, rfl, rfl⟩ hb' rfl rfl rfl
  all_goals cases he

/-! ## Runs -/

theorem step_inv {s t : Lane} {act : Act} (h : Inv s) (apart : Apart s act)
    (hs : step s act = some t) : Inv t := by
  cases act <;> rw [step] at hs
  case event e =>
    split at hs
    · rename_i he
      cases hs
      exact event_inv h he
    · cases hs
  case wake =>
    split at hs
    · rename_i hr
      cases hs
      refine next_inv h.board ?_
      simpa [Option.isNone_iff_eq_none.mp hr] using h.held
    · cases hs
  case streamed items =>
    split at hs
    · rename_i r hr
      split at hs
      · rename_i hst
        cases hs
        exact streamed_inv items h hr hst fun he ha hk => apart r hr hk ha he
      · cases hs
    · cases hs
  case floor =>
    split at hs
    · rename_i r hr
      split at hs
      · rename_i held lines hst
        cases hs
        exact takes_inv h hr hst
      · cases hs
    · cases hs
  case spoken =>
    split at hs
    · rename_i r hr
      split at hs
      · rename_i lines hst
        cases hs
        exact spoken_inv h hr hst
      · cases hs
    · cases hs
  case hangUp => exact absurd apart id

theorem init_inv (lane : LaneName) : Inv { lane } := by
  refine ⟨⟨rfl, rfl, rfl, nofun, fun _ => ⟨rfl, rfl⟩⟩, ?_, nofun⟩
  have none : ∀ {m : Nat} {e : Entry}, [Entry.other][m]? = some e → e = .other := by
    intro m e hm
    simpa using List.mem_of_getElem? hm
  refine ⟨nofun, ?_, by simp, ?_, ?_, ?_, nofun, by simp, ?_⟩
  · simp [Entry.gen]
  · intro i j g a b hi
    cases none hi
  · intro m hm
    cases none hm
  · intro m hm
    cases none hm
  · intro i g a items m hi
    cases none hi

theorem reach_inv {lane : LaneName} {s : Lane} (h : Reach step Apart { lane } s) : Inv s :=
  h.invariant (init_inv lane) fun _ hi hok hs => step_inv hi hok hs

/-! ## A rep who keeps talking -/

/-- What `{partner}` cancelled was a reply, and the next generation is none. -/
def Spared (log : List Entry) : Prop :=
  ∀ g, .cancelled g .partner ∈ log → (∃ a, .request g a ∈ log ∧ a.reply = true) ∧
    ∃ b, .request (g + 1) b ∈ log ∧ b.reply = false

/-- What a step adds cancels nothing `{partner}`. -/
def Adds (s t : Lane) : Prop :=
  ∃ es, t.log = s.log ++ es ∧ ∀ g, .cancelled g .partner ∉ es

theorem Adds.trans {s t u : Lane} (h : Adds s t) (h' : Adds t u) : Adds s u := by
  obtain ⟨es, he, hes⟩ := h
  obtain ⟨es', he', hes'⟩ := h'
  refine ⟨es ++ es', by rw [he', he, List.append_assoc], fun g hg => ?_⟩
  rcases List.mem_append.mp hg with hg | hg
  · exact hes g hg
  · exact hes' g hg

theorem Adds.of_log {s t : Lane} (h : t.log = s.log) : Adds s t :=
  ⟨[], by simp [h], nofun⟩

theorem Adds.emit {s t : Lane} {e : Entry} (h : t.log = s.log ++ [e])
    (he : ∀ g, e ≠ .cancelled g .partner) : Adds s t :=
  ⟨[e], h, fun g hg => he g (List.mem_singleton.mp hg).symm⟩

theorem serve_adds (fuel : Nat) (s : Lane) : Adds s (s.serve fuel) := by
  induction fuel generalizing s with
  | zero => exact .of_log rfl
  | succ fuel ih =>
    rw [Lane.serve]
    split
    · exact .of_log rfl
    · dsimp only
      split
      · exact (Adds.of_log rfl).trans (ih _)
      · exact .emit rfl nofun

theorem next_adds (s : Lane) : Adds s s.next :=
  (Adds.of_log rfl).trans (serve_adds _ _)

theorem writes_adds (s : Lane) (r : Running) (items : List Item) : Adds s (s.writes r items) := by
  obtain ⟨es, -, hes, hlog, -⟩ := writes_spec s r items
  refine ⟨.turn r.gen items :: (told r items).map (.voiced · r.gen) ++ es, by simp [hlog], ?_⟩
  intro g hg
  rcases List.mem_append.mp hg with hg | hg
  · rcases List.mem_cons.mp hg with he | hg
    · cases he
    · obtain ⟨m, -, he⟩ := List.mem_map.mp hg
      cases he
  · have := (hes _ hg).1
    cases this

theorem holds_adds (s : Lane) (held : Option String) : Adds s (s.holds held) := by
  obtain ⟨es, hlog, rfl | rfl, -⟩ := holds_spec s held
  · exact ⟨[], hlog, nofun⟩
  · exact .emit hlog nofun

theorem on_adds {s : Lane} {e : Entry} (he : e.comes s.lane = true) : Adds s (s.on e) := by
  refine .emit (e := e) ?_ ?_
  · cases e <;> simp only [Lane.on] <;> first | rfl | (split <;> rfl)
  · rintro g rfl
    cases he

/-- The reply that `{partner}` cancelled runs again at once. -/
theorem partner_next {s : Lane} (ask : Ask) (hopen : s.closed = false)
    (hask : ask.trigger.kind = .repSpoke) :
    ∃ b, (s.again ask).next.log = s.log ++ [.request (s.n + 1) b] ∧ b.reply = false := by
  have hcard : ask.trigger.kind ≠ .approvalCard := by simp [hask]
  have hag : s.again ask = s.add { ask with again := true } true :=
    if_neg fun h => hcard h.2
  set b := Lane.absorb s.pending { ask with again := true } with hb
  have hkind : b.trigger.kind = .repSpoke := hask
  have hchosen : Lane.chosen (s.again ask).pending = some b := by
    rw [hag]
    simp [Lane.add, Lane.chosen, ← hb, hkind, URGENT]
  have hskips : ∀ t : Lane, t.closed = false → t.skips b = none := by
    intro t ht
    rw [Lane.skips, if_neg (by simp [ht]), if_neg (by simp [hkind])]
    split
    · exact if_neg (by simp [hkind])
    · rfl
  have hlen : (s.again ask).pending.length =
      (s.pending.filter fun a => !Lane.same { ask with again := true } a).length + 1 := by
    rw [hag]
    rfl
  have hclosed : (s.again ask).closed = false := by rw [hag]; exact hopen
  have hlog : (s.again ask).log = s.log := (again_same s ask).2.1
  have hn : (s.again ask).n = s.n := (again_same s ask).2.2
  refine ⟨b, ?_, by simp [Ask.reply, hb, Lane.absorb]⟩
  rw [Lane.next, hlen, Lane.serve]
  simp only [hchosen]
  rw [hskips _ (by exact hclosed)]
  simp only [Lane.start, Lane.emit, hlog, hn]

theorem Spared.adds {s t : Lane} (h : Spared s.log) (ha : Adds s t) : Spared t.log := by
  obtain ⟨es, he, hes⟩ := ha
  rw [he]
  intro g hg
  rcases List.mem_append.mp hg with hg | hg
  · obtain ⟨⟨a, ha, har⟩, b, hb, hbr⟩ := h g hg
    exact ⟨⟨a, List.mem_append_left _ ha, har⟩, b, List.mem_append_left _ hb, hbr⟩
  · exact absurd hg (hes g)

/-- Only a reply is stale for a line of the rep's that was not heard whole. -/
theorem newer_partner {s : Lane} {r : Running} {seq : Nat} (h : s.newer r = some seq)
    (hne : s.heard ≠ some seq) : r.ask.reply = true := by
  have hm := List.mem_of_find?_eq_some h
  rcases List.mem_append.mp hm with hm | hm
  · exact absurd (Option.mem_toList.mp hm) hne
  · by_cases hr : r.ask.reply = true
    · exact hr
    · simp [hr] at hm

theorem takes_spared {s : Lane} {r : Running} {held : Option String} {lines : List Utt}
    (h : Spared s.log) (hi : Inv s) (hr : s.running = some r) :
    Spared (s.takes r held lines).log := by
  have hbusy := hi.busy r hr
  obtain ⟨i, hreq, -⟩ := hbusy.asked
  rw [Lane.takes]
  split
  · rename_i seq hnew
    dsimp only
    split
    · have hc : Adds s (s.emit (.cancelled r.gen .verbatim)) := .emit rfl nofun
      exact h.adds ((hc.trans (.of_log (again_same _ _).2.1)).trans (next_adds _))
    · rename_i hne
      have hreply := newer_partner hnew hne
      have hkind : r.ask.trigger.kind = .repSpoke := by
        simp only [Ask.reply, Bool.and_eq_true, decide_eq_true_eq] at hreply
        exact hreply.1
      obtain ⟨b, hlog, hb⟩ := partner_next (s := s.emit (.cancelled r.gen .partner))
        { r.ask with guides := r.guides } hi.board.here hkind
      rw [hlog, hbusy.gen]
      intro g hg
      rcases mem_snoc.mp hg with hg | hg
      · rcases mem_snoc.mp hg with hg | hg
        · obtain ⟨⟨a, ha, har⟩, b', hb', hbr⟩ := h g hg
          refine ⟨⟨a, ?_, har⟩, b', ?_, hbr⟩ <;>
            simp [Lane.emit, ha, hb']
        · cases hg
          refine ⟨⟨r.ask, ?_, hreply⟩, b, by simp [Lane.emit], hb⟩
          simp [Lane.emit, List.mem_of_getElem? hreq]
      · cases hg
  · exact h.adds ((holds_adds s held).trans (.of_log rfl))

theorem step_spared {s t : Lane} {act : Act} (h : Spared s.log) (hi : Inv s)
    (hs : step s act = some t) : Spared t.log := by
  cases act <;> rw [step] at hs
  case event e =>
    split at hs
    · rename_i he
      cases hs
      exact h.adds (on_adds he)
    · cases hs
  case wake =>
    split at hs
    · cases hs
      exact h.adds (next_adds s)
    · cases hs
  case streamed items =>
    split at hs
    · rename_i r hr
      split at hs
      · cases hs
        rw [Lane.streamed]
        split
        · have hc : Adds s (s.emit (.cancelled r.gen .epoch)) := .emit rfl nofun
          exact h.adds ((hc.trans (.of_log (again_same _ _).2.1)).trans (next_adds _))
        · rw [Lane.turn]
          split
          · exact h.adds (((writes_adds s r items).trans (holds_adds _ _)).trans (next_adds _))
          · exact h.adds ((writes_adds s r items).trans (.of_log rfl))
      · cases hs
    · cases hs
  case floor =>
    split at hs
    · rename_i r hr
      split at hs
      · cases hs
        exact takes_spared h hi hr
      · cases hs
    · cases hs
  case spoken =>
    split at hs
    · split at hs
      · cases hs
        rw [Lane.spoken]
        split
        · exact h.adds (next_adds s)
        · exact h.adds ((Adds.of_log rfl).trans (next_adds _))
      · cases hs
    · cases hs
  case hangUp =>
    cases hs
    exact h

theorem reach_spared {lane : LaneName} {s : Lane} (h : Reach step Apart { lane } s) :
    Spared s.log := by
  refine h.invariant ?_ fun hr h _ hs => step_spared h (reach_inv hr) hs
  intro g hg
  simp at hg

/-! ## The laws of a run -/

theorem not_twice {s : Lane} (h : Inv s) (hs : Spared s.log) : NotTwice s := by
  rintro g ⟨hg, hg'⟩
  obtain ⟨-, b, hb, hbr⟩ := hs g hg
  obtain ⟨⟨a, ha, har⟩, -⟩ := hs (g + 1) hg'
  obtain ⟨i, hi⟩ := List.mem_iff_getElem?.mp ha
  obtain ⟨j, hj⟩ := List.mem_iff_getElem?.mp hb
  have hij := h.held.once i j (g + 1) a b hi hj
  rw [hij, hj] at hi
  cases hi
  rw [har] at hbr
  cases hbr

theorem carried_iff {s : Lane} {p : Ask → Prop} :
    s.Carried p ↔ ∃ a ∈ s.pending ++ (s.running.map Running.ask).toList, p a := by
  simp only [Lane.Carried, List.mem_append, Option.mem_toList, Option.map_eq_some_iff]
  constructor
  · rintro (⟨a, ha, hp⟩ | ⟨r, hr, hp⟩)
    · exact ⟨a, .inl ha, hp⟩
    · exact ⟨r.ask, .inr ⟨r, hr, rfl⟩, hp⟩
  · rintro ⟨a, ha | ⟨r, hr, rfl⟩, hp⟩
    · exact .inl ⟨a, ha, hp⟩
    · exact .inr ⟨r, hr, hp⟩

theorem notices {s : Lane} (h : Inv s) : Notices s := by
  intro m hm
  rcases h.held.notices m hm with hv | hc | ⟨d, hd, hmd⟩
  · exact .inl hv
  · exact .inr (.inl (carried_iff.mpr hc))
  · refine .inr (.inr ⟨d, hd, hmd, ?_⟩)
    have hdrop := h.held.drops d hd
    have hkind := hdrop.acks m hmd
    have hwhy := hdrop.why
    cases hw : d.why <;> simp only [hw] at hwhy
    case moot => exact .inl ⟨rfl, hwhy.2⟩
    case said =>
      rw [hkind] at hwhy
      cases hwhy
    case stale => exact .inr ⟨rfl, hwhy.2 m hmd⟩

theorem slows {s : Lane} (h : Inv s) : Slows s := by
  intro m hm
  exact (h.held.slows m hm).imp_right carried_iff.mpr

theorem guides_carried {s : Lane} (h : Inv s) : GuidesCarried s := by
  intro g why a m hc hw hr hv hm
  exact (h.held.guides g why a m hc hw hr hv hm).imp_left carried_iff.mpr

theorem guides_voiced {s : Lane} (h : Inv s) : GuidesVoiced s := h.held.voices

/-- On an open call, as long as no card's first generation is found stale while a newer card's
notice waits, nothing that a lane is handed is lost and the rep starves no reply. -/
theorem handed_kept {lane : LaneName} {s : Lane} (h : Reach step Apart { lane } s) :
    NotTwice s ∧ Notices s ∧ Slows s ∧ GuidesCarried s ∧ GuidesVoiced s :=
  have hi := reach_inv h
  ⟨not_twice hi (reach_spared h), notices hi, slows hi, guides_carried hi, guides_voiced hi⟩

def apart (s : Lane) : Act → Bool
  | .streamed _ =>
    match s.running with
    | some r =>
      !(r.ask.trigger.kind = .approvalCard && !r.ask.again && s.epoch ≠ r.epoch &&
        s.pending.any (·.trigger.kind = .approvalCard))
    | none => true
  | .hangUp => false
  | _ => true

theorem apart_sound (s : Lane) (act : Act) (h : apart s act = true) : Apart s act := by
  cases act <;> simp only [Apart]
  case streamed items =>
    intro r hr hk ha he a hmem hak
    have hany : s.pending.any (·.trigger.kind = .approvalCard) = true :=
      List.any_eq_true.mpr ⟨a, hmem, decide_eq_true hak⟩
    simp [apart, hr, hk, ha, he, hany] at h
  case hangUp => cases h

/-- A card's notice is found stale and voiced by its re-run; the rep's next card is still streaming. -/
def voicedRun : List Act :=
  [.event .requested, .event .notice, .wake, .event .epoch, .streamed [.speech],
    .streamed [.speech], .floor, .event .notice, .event .epoch, .spoken]

theorem handed_kept_voiced :
    ((Lib.run (Lib.guarded apart step) { lane := .user } voicedRun).map fun s =>
      (s.log.contains (.cancelled 1 .epoch), s.log.contains (.voiced 2 2), s.running.isSome)) =
        some (true, true, true) ∧
      ∀ s, Lib.run (Lib.guarded apart step) { lane := .user } voicedRun = some s →
        NotTwice s ∧ Notices s ∧ Slows s ∧ GuidesCarried s ∧ GuidesVoiced s :=
  ⟨by decide, fun _ hs => handed_kept (Reach.guarded apart_sound .start hs)⟩

/-! ## A notice that is lost -/

def opened (_ : Lane) (act : Act) : Bool := act ≠ .hangUp

/-- A card's notice streams when the epoch moves and the next card's notice comes in; the re-run of
both is stale again. -/
def lostRun : List Act :=
  [.event .requested, .event .notice, .wake, .event .epoch, .event .requested, .event .notice,
    .streamed [.speech], .event .epoch, .streamed [.speech]]

theorem lostRun_facts :
    (Lib.run (Lib.guarded opened step) { lane := .user } lostRun).map Lane.log =
      some [.other, .requested, .notice, .request 1 ⟨⟨.approvalCard, none⟩, 2, [2], [], false⟩, .epoch,
        .requested, .notice, .cancelled 1 .epoch,
        .request 2 ⟨⟨.approvalCard, none⟩, 2, [6, 2], [], true⟩, .epoch, .cancelled 2 .epoch] ∧
    (Lib.run (Lib.guarded opened step) { lane := .user } lostRun).map (fun s =>
      (s.pending, s.running.isNone, s.card)) = some ([], true, true) ∧
    (Lib.run (Lib.guarded opened step) { lane := .user } lostRun).map (fun s =>
      s.dropped.map Drop.why) = some [.stale] := by
  decide

/-- The newer card's notice was in one generation only, and its card is still pending. -/
theorem notice_lost :
    ¬ ∀ lane s, Reach step (fun _ act => act ≠ .hangUp) { lane } s →
      NotTwice s ∧ Notices s ∧ Slows s ∧ GuidesCarried s ∧ GuidesVoiced s := by
  intro h
  obtain ⟨hlog, hasks, hdrop⟩ := lostRun_facts
  obtain ⟨s, hs, hlog⟩ := Option.map_eq_some_iff.mp hlog
  rw [hs] at hasks hdrop
  simp only [Option.map_some, Option.some.injEq, Prod.mk.injEq] at hasks hdrop
  have hreach : Reach step (fun _ act => act ≠ .hangUp) { lane := .user } s :=
    Reach.guarded (fun _ _ hc => of_decide_eq_true hc) .start hs
  have hnotice : s.log[6]? = some .notice := by
    rw [hlog]
    rfl
  -- the second generation alone carried it
  have once : ∀ {g ask}, StaleBy s.log 6 g ask → g = 2 := by
    rintro g ask ⟨hr, hm, -⟩
    simp only [hlog, List.mem_cons, List.not_mem_nil, or_false, reduceCtorEq, false_or,
      Entry.request.injEq] at hr
    rcases hr with ⟨-, rfl⟩ | ⟨rfl, -⟩
    · simp at hm
    · rfl
  rcases (h .user s hreach).2.1 6 hnotice with ⟨g, hv⟩ | hc | ⟨d, hd, -, hw⟩
  · simp [hlog] at hv
  · simp [Lane.Carried, hasks.1, Option.isNone_iff_eq_none.mp hasks.2.1] at hc
  · have hwhy : d.why = .stale := by
      have := List.mem_map_of_mem (f := Drop.why) hd
      rwa [hdrop, List.mem_singleton] at this
    rcases hw with ⟨hmoot, -⟩ | ⟨-, g, g', ask, ask', hlt, hg, hg', -⟩
    · rw [hwhy] at hmoot
      cases hmoot
    · rw [once hg, once hg'] at hlt
      exact absurd hlt (by decide)

end ProxyLoop.Lanes
