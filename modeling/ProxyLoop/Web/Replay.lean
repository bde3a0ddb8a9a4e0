import Mathlib.Data.Option.Basic
import ProxyLoop.Web.EventStream

/-!
# Live replay is exact

Whatever the order in which a valid log grows, chunks are read, frames arrive and sockets are lost
and taken up again, a view holds a prefix of what its stream makes of the log.
-/

namespace ProxyLoop.Web

open ProxyLoop.Serve
open Lib (Reach)

section

variable {T : Type} {validate : Bytes → Option Serve.Event} {js : Js} {side : Side T} {id : String}

/-! ## The invariant -/

/-- What the frames under way are: all that the reader has sent of its log, from what the view
holds on. -/
structure Under (validate : Bytes → Option Serve.Event) (js : Js) (side : Side T) (id : String)
    (v : View T) (c : Socket) (r : Reader) (log : Log) : Prop where
  known : log <+: v.file.log validate
  reads : c.close = none →
    r.Follows validate side.source id c.fromSeq v.file ∧ log = r.known validate v.file
  flight : v.batch ++ c.wire.map (side.parse js) =
    (side.shows js log).drop v.stream.events.length
  taken : c.fromSeq ≤ v.stream.events.length
  near : v.stream.events.length = c.fromSeq ∨
    v.stream.events.length ≤ (side.source.texts log).length
  ends : ∀ close, c.close = some close → Reader.Ends (v.file.log validate) close

/-- What holds of a view in every run of a valid log. -/
structure Exact (validate : Bytes → Option Serve.Event) (js : Js) (side : Side T) (id : String)
    (v : View T) : Prop where
  sound : Sound validate js id v.file
  named : v.file.named = true
  next : v.stream.next = (v.stream.events.length : Int)
  held : v.stream.events.map .ok <+: side.shows js (v.file.log validate)
  still : v.socket = none → v.batch = []
  error : v.stream.phase = .error → v.socket = none
  fresh : ∀ c, v.socket = some c → c.reader = none →
    c.wire = [] ∧ v.batch = [] ∧ c.fromSeq = v.stream.events.length
  under : ∀ c r, v.socket = some c → c.reader = some r → ∃ log, Under validate js side id v c r log

theorem prefix_next {α : Type} {a b w l l' : List α} (ha : a <+: l') (hl : l <+: l')
    (h : b ++ w = l.drop a.length) : a ++ b <+: l' := by
  rcases Nat.lt_or_ge a.length l.length with hlt | hge
  · obtain ⟨t, rfl⟩ := List.prefix_of_prefix_length_le ha hl (by omega)
    rw [List.drop_left] at h
    rw [← h, ← List.append_assoc] at hl
    exact (List.prefix_append _ w).trans hl
  · rw [List.drop_eq_nil_of_le hge] at h
    simpa [(List.append_eq_nil_iff.mp h).1] using ha

theorem Under.flushed {v : View T} {c : Socket} {r : Reader} {log : Log}
    (hu : Under validate js side id v c r log) {fs : List T} (hfs : v.batch = fs.map .ok)
    {s : Stream T} (hs : s.events = v.stream.events ++ fs) :
    Under validate js side id { v with stream := s, batch := [] } c r log := by
  have hlen : s.events.length = v.stream.events.length + fs.length := by simp [hs]
  have hf := hu.flight
  refine ⟨hu.known, hu.reads, ?_, ?_, ?_, hu.ends⟩
  · rw [hfs] at hf
    have := congrArg (List.drop fs.length) hf
    rw [List.drop_left' (by simp), List.drop_drop] at this
    simpa [hlen] using this
  · exact Nat.le_trans hu.taken (by simp only [hlen]; omega)
  · rcases fs with - | ⟨f, fs⟩
    · simpa [hlen] using hu.near
    · have := congrArg List.length hf
      simp only [hfs, List.map_cons, List.length_append, List.length_cons, List.length_map,
        List.length_drop, Side.shows] at this
      right
      simp only [hlen, List.length_cons]
      omega

theorem shows_initial {log log' : Log} (h : log <+: log') :
    side.shows js log <+: side.shows js log' := (side.source.texts_prefix h).map _

namespace Exact

variable {v : View T}

/-- A batch taken, whatever becomes of the phase. -/
theorem flushed (h : Exact validate js side id v) {fs : List T} (hfs : v.batch = fs.map .ok)
    {s : Stream T} (hs : s.events = v.stream.events ++ fs) (hn : s.next = (s.events.length : Int))
    (he : s.phase = .error → v.socket = none) :
    Exact validate js side id { v with stream := s, batch := [] } := by
  refine ⟨h.sound, h.named, hn, ?_, fun _ => rfl, he, ?_, ?_⟩
  · rcases hc : v.socket with - | c
    · have : fs = [] := by simpa [h.still hc] using hfs.symm
      simpa [hs, this] using h.held
    · cases hr : c.reader with
      | none =>
        have : fs = [] := by simpa [(h.fresh c hc hr).2.1] using hfs.symm
        simpa [hs, this] using h.held
      | some r =>
        obtain ⟨log, hu⟩ := h.under c r hc hr
        have hf := hu.flight
        rw [hfs] at hf
        have := prefix_next h.held (shows_initial hu.known) (by simpa using hf)
        simpa [hs] using this
  · intro c hc hr
    obtain ⟨h1, h2, h3⟩ := h.fresh c hc hr
    have : fs = [] := by simpa [h2] using hfs.symm
    exact ⟨h1, rfl, by simpa [hs, this] using h3⟩
  · intro c r hc hr
    obtain ⟨log, hu⟩ := h.under c r hc hr
    exact ⟨log, hu.flushed hfs hs⟩

/-- With no socket left, only what is held matters. -/
theorem dropped (h : Exact validate js side id v) {s : Stream T}
    (hs : s.events = v.stream.events) (hn : s.next = v.stream.next) (hb : v.batch = []) :
    Exact validate js side id { v with stream := s, socket := none } := by
  refine ⟨h.sound, h.named, ?_, ?_, fun _ => hb, fun _ => rfl, ?_, ?_⟩
  · simpa only [hs, hn] using h.next
  · simpa only [hs] using h.held
  · intro c hc
    cases hc
  · intro c r hc
    cases hc

theorem socket_of_batch (h : Exact validate js side id v) (hb : v.batch ≠ []) :
    ∃ c r log, v.socket = some c ∧ c.reader = some r ∧ Under validate js side id v c r log := by
  rcases hc : v.socket with - | c
  · exact absurd (h.still hc) hb
  · cases hr : c.reader with
    | none => exact absurd (h.fresh c hc hr).2.1 hb
    | some r =>
      obtain ⟨log, hu⟩ := h.under c r hc hr
      exact ⟨c, r, log, rfl, hr, hu⟩

theorem log_write (file : File) (bytes : Bytes) :
    file.log validate <+: (file.append bytes).log validate := by
  obtain ⟨tail, ht⟩ := Lib.lines_prefix NEWLINE file.bytes bytes
  exact ⟨logged validate tail, by rw [File.log, File.log, File.append, ← ht, logged_append]⟩

theorem write (h : Exact validate js side id v) (bytes : Bytes)
    (hs : Sound validate js id (v.file.append bytes)) :
    Exact validate js side id { v with file := v.file.append bytes } := by
  have hp : v.file.log validate <+: (v.file.append bytes).log validate := log_write v.file bytes
  refine ⟨hs, h.named, h.next, h.held.trans (shows_initial hp), h.still, h.error, h.fresh, ?_⟩
  intro c r hc hr
  obtain ⟨log, hu⟩ := h.under c r hc hr
  refine ⟨log, hu.known.trans hp, fun hn => ?_, hu.flight, hu.taken, hu.near, fun close hn => ?_⟩
  · obtain ⟨hf, hl⟩ := hu.reads hn
    exact ⟨hf.grow bytes, hl.trans (Reader.known_grow hf.told bytes).symm⟩
  · exact (hu.ends close hn).imp_right fun ⟨h4, x, hx, hxh⟩ => ⟨h4, x, hp.subset hx, hxh⟩

theorem read (h : Exact validate js side id v) {c : Socket} {r : Reader} (hc : v.socket = some c)
    (hr : c.reader = some r) (hn : c.close = none) :
    Exact validate js side id
      { v with
        socket := some { c with
          reader := some (r.step validate v.file).1
          wire := c.wire ++ (r.step validate v.file).2.1
          close := (r.step validate v.file).2.2 } } := by
  have hphase : v.stream.phase ≠ .error := fun he => by simp [h.error he] at hc
  obtain ⟨log, hu⟩ := h.under c r hc hr
  obtain ⟨hf, rfl⟩ := hu.reads hn
  obtain ⟨taken, hp, hsent, hnext⟩ := Reader.step_spec hf h.sound.1 h.named
  refine ⟨h.sound, h.named, h.next, h.held, nofun, fun he => absurd he hphase, ?_, ?_⟩
  · rintro c' ⟨⟩ hr'
    cases hr'
  · rintro c' r' ⟨⟩ hr'
    cases hr'
    obtain ⟨new, ht⟩ := side.source.texts_append (r.known validate v.file) taken
    rw [ht, List.drop_append] at hsent
    have hnew := List.append_cancel_left hsent
    -- the frames sent are those past what the view holds
    have hmine : new.drop
        (v.stream.events.length - (side.source.texts (r.known validate v.file)).length) =
        (r.step validate v.file).2.1 := by
      rw [← hnew]
      rcases hu.near with he | hle
      · rw [he]
      · have := hu.taken
        congr 1
        omega
    refine ⟨r.known validate v.file ++ taken, hp, ?_, ?_, hu.taken, ?_, ?_⟩
    · intro hnone
      simp only at hnone
      simp only [hnone] at hnext
      exact ⟨hnext.1, hnext.2.symm⟩
    · have hflight := hu.flight
      rw [Side.shows, ← List.map_drop] at hflight
      show v.batch ++ (c.wire ++ (r.step validate v.file).2.1).map (side.parse js) =
        ((side.source.texts (r.known validate v.file ++ taken)).map (side.parse js)).drop
          v.stream.events.length
      rw [← List.map_drop, ht, List.drop_append, List.map_append, List.map_append, ← hflight, hmine,
        List.append_assoc]
    · refine hu.near.imp_right fun hle => ?_
      rw [ht, List.length_append]
      exact Nat.le_add_right_of_le hle
    · intro close hsome
      simp only at hsome
      simpa only [hsome] using hnext

theorem found (h : Exact validate js side id v) {c : Socket} (hc : v.socket = some c)
    (hr : c.reader = none) (hn : c.close = none) :
    Exact validate js side id
      { v with socket := some { c with reader := some (side.source.reader id c.fromSeq) } } := by
  have hphase : v.stream.phase ≠ .error := fun he => by simp [h.error he] at hc
  obtain ⟨hw, hb, hfrom⟩ := h.fresh c hc hr
  refine ⟨h.sound, h.named, h.next, h.held, nofun, fun he => absurd he hphase, ?_, ?_⟩
  · rintro c' ⟨⟩ hr'
    cases hr'
  · rintro c' r' ⟨⟩ hr'
    cases hr'
    have hf : (side.source.reader id c.fromSeq).Follows validate side.source id c.fromSeq v.file :=
      Reader.follows_start v.file
    have hk : (side.source.reader id c.fromSeq).known validate v.file = [] := by
      have ht : (side.source.reader id c.fromSeq).told = 0 := by cases side.source <;> rfl
      rw [Reader.known, ht, List.take_zero]
      rfl
    have htexts : side.source.texts [] = [] := by cases side.source <;> rfl
    refine ⟨[], List.nil_prefix, fun _ => ⟨hf, hk.symm⟩, ?_, Nat.le_of_eq hfrom, .inl hfrom.symm, ?_⟩
    · simp [hw, hb, Side.shows, htexts]
    · intro close hsome
      simp [hn] at hsome

/-- What does not touch the file, the reader or what is held. -/
theorem socket (h : Exact validate js side id v) (texts : List Bytes) {c : Socket} (c' : Socket)
    (hc : v.socket = some c) (hreader : c'.reader = c.reader) (hfrom : c'.fromSeq = c.fromSeq)
    (hclose : c'.close ≠ c.close → c.reader = none) (hw : c.wire = texts ++ c'.wire)
    {batch : List (Except String T)} (hbatch : batch = v.batch ++ texts.map (side.parse js))
    {s : Stream T} (hs : s.events = v.stream.events) (hn : s.next = v.stream.next)
    (he : s.phase ≠ .error) :
    Exact validate js side id { v with stream := s, socket := some c', batch } := by
  refine ⟨h.sound, h.named, ?_, ?_, nofun, fun e => absurd e he, ?_, ?_⟩
  · simpa only [hs, hn] using h.next
  · simpa only [hs] using h.held
  · rintro c'' ⟨⟩ hr
    have hr' := hreader.symm.trans hr
    obtain ⟨h1, h2, h3⟩ := h.fresh c hc hr'
    obtain ⟨ht, hw'⟩ := List.append_eq_nil_iff.mp (hw.symm.trans h1)
    exact ⟨hw', by simp [hbatch, h2, ht], by simpa only [hs, hfrom] using h3⟩
  · rintro c'' r ⟨⟩ hr
    have hr' := hreader.symm.trans hr
    obtain ⟨log, hu⟩ := h.under c r hc hr'
    have hsame : c'.close = c.close := by
      by_contra hne
      simp [hclose hne] at hr'
    refine ⟨log, hu.known, ?_, ?_, ?_, ?_, ?_⟩
    · rw [hsame, hfrom]
      exact hu.reads
    · have := hu.flight
      rw [hw, List.map_append, ← List.append_assoc, ← hbatch] at this
      simpa only [hs] using this
    · simpa only [hs, hfrom] using hu.taken
    · simpa only [hs, hfrom] using hu.near
    · rw [hsame]
      exact hu.ends

/-- A socket opened anew from where the view is. -/
theorem reconnected (h : Exact validate js side id v) :
    Exact validate js side id
      { v with
        stream := { v.stream with phase := .connecting, message := "" }
        socket := some { fromSeq := v.stream.next.toNat }
        batch := [] } := by
  refine ⟨h.sound, h.named, h.next, h.held, nofun, nofun, ?_, ?_⟩
  · rintro c ⟨⟩ -
    exact ⟨rfl, rfl, by simp [h.next]⟩
  · rintro c r ⟨⟩ hr
    cases hr

theorem start : Exact validate js side id {} := by
  refine ⟨⟨rfl, ?_⟩, rfl, rfl, List.nil_prefix, nofun, nofun, ?_, ?_⟩
  · intro x hx
    cases hx
  · rintro c ⟨⟩ -
    exact ⟨rfl, rfl, rfl⟩
  · rintro c r ⟨⟩ hr
    cases hr

end Exact

/-! ## A close -/

theorem closed_kept (s : Stream T) (code : Nat) (reason entry : String) :
    (closed s code reason entry).events = s.events ∧
      (closed s code reason entry).next = s.next := by
  rw [closed]
  by_cases h : s.phase = .error
  · simp [h]
  · repeat' split
    all_goals exact ⟨rfl, rfl⟩

theorem closed_phase {s : Stream T} (h : s.phase ≠ .error) {code : Nat}
    (hcode : code ∉ [1011, 4403, 4404]) (habn : code = 1006 → s.phase ≠ .connecting)
    (reason entry : String) : (closed s code reason entry).phase ≠ .error := by
  simp only [List.mem_cons, List.not_mem_nil, or_false, not_or] at hcode
  rw [closed, if_neg h]
  by_cases h1 : code = 1000
  · simp [h1]
  · have h2 : ¬ (code = 1006 ∧ s.phase = .connecting) := fun hx => habn hx.1 hx.2
    simp [h1, h2, hcode]

variable [Framed T]

/-! ## Batches -/

/-- The page reads every text a stream makes of the log: the frame of its place, of the run. -/
def Readable (js : Js) (side : Side T) (id : String) (log : Log) : Prop :=
  ∀ (i : Nat) (text : Bytes), (side.source.texts log)[i]? = some text →
    ∃ f, side.parse js text = .ok f ∧ Framed.seq f = (i : Int) ∧
      (side.ofRun = true → isRun (Framed.runId f) id = true)

/-- Frames that follow on from `next` are all taken. -/
theorem accept_spec {runId : Option String} {parse : Bytes → Except String T}
    (texts : List Bytes) (events : List T) (next : Nat)
    (h : ∀ (i : Nat) (text : Bytes), texts[i]? = some text → ∃ f, parse text = .ok f ∧
      Framed.seq f = ((next + i : Nat) : Int) ∧
      ∀ id, runId = some id → isRun (Framed.runId f) id = true) :
    ∃ fs, texts.map parse = fs.map .ok ∧
      accept js runId events next (texts.map parse) =
        (events ++ fs, ((next + texts.length : Nat) : Int), none) := by
  induction texts generalizing events next with
  | nil => exact ⟨[], rfl, by simp [accept]⟩
  | cons text texts ih =>
    obtain ⟨f, hf, hseq, hrun⟩ := h 0 text rfl
    rw [Nat.add_zero] at hseq
    have hown : runId.filter (fun id => !isRun (Framed.runId f) id) = none := by
      cases hr : runId with
      | none => rfl
      | some id => simp [hrun id hr]
    obtain ⟨fs, hfs, hacc⟩ := ih (events ++ [f]) (next + 1) fun i t ht => by
      obtain ⟨g, hg, hgs, hgr⟩ := h (i + 1) t ht
      exact ⟨g, hg, by rw [hgs]; congr 1; omega, hgr⟩
    refine ⟨f :: fs, by simp [hf, hfs], ?_⟩
    have hnext : ((next : Int) + 1) = ((next + 1 : Nat) : Int) := by push_cast; rfl
    have hlen : next + 1 + texts.length = next + (texts.length + 1) := by omega
    simp only [List.map_cons, hf, accept, hown, hseq, Int.lt_irrefl, gt_iff_lt, if_false, hnext,
      hacc, List.append_assoc, List.singleton_append, List.length_cons, hlen]

/-- A log that the page reads is read however much of it there is yet. -/
theorem Readable.mono {log log' : Log} (h : Readable js side id log') (hp : log <+: log') :
    Readable js side id log := by
  intro i text hi
  obtain ⟨new, hn⟩ := side.source.texts_prefix hp
  exact h i text (by rw [← hn, List.getElem?_append_left (List.getElem?_eq_some_iff.mp hi).1, hi])

/-- A batch is taken whole. -/
theorem flush_spec {v : View T} {c : Socket} {r : Reader} {log : Log}
    (h : Exact validate js side id v) (hc : v.socket = some c)
    (hu : Under validate js side id v c r log) (hr : Readable js side id (v.file.log validate)) :
    ∃ fs, v.batch = fs.map .ok ∧
      v.flush js side id =
        { v with
          stream := { v.stream with
            events := v.stream.events ++ fs
            next := ((v.stream.events ++ fs).length : Int) }
          batch := [] } := by
  have hphase : v.stream.phase ≠ .error := fun he => by simp [h.error he] at hc
  set n := v.stream.events.length with hn
  set texts := ((side.source.texts log).drop n).take v.batch.length with ht
  have hbatch : v.batch = texts.map (side.parse js) := by
    have := congrArg (List.take v.batch.length) hu.flight
    rwa [List.take_left, Side.shows, ← List.map_drop, ← List.map_take] at this
  have hlen : v.batch.length = texts.length := by rw [hbatch]; simp
  set runId := if side.ofRun then some id else none with hid
  obtain ⟨fs, hfs, hacc⟩ : ∃ fs, texts.map (side.parse js) = fs.map .ok ∧
      accept js runId v.stream.events n (texts.map (side.parse js)) =
        (v.stream.events ++ fs, ((n + texts.length : Nat) : Int), none) := by
    refine accept_spec texts v.stream.events n fun i text hi => ?_
    have hi' : (side.source.texts log)[n + i]? = some text := by
      rw [ht, List.getElem?_take] at hi
      split at hi
      · rwa [List.getElem?_drop] at hi
      · cases hi
    obtain ⟨f, hf, hseq, hrun⟩ := hr.mono hu.known (n + i) text hi'
    refine ⟨f, hf, hseq, fun id' hid' => ?_⟩
    rw [hid] at hid'
    split at hid'
    · rename_i ho
      cases hid'
      exact hrun ho
    · cases hid'
  have hfl : fs.length = texts.length := by
    have := congrArg List.length hfs
    simpa using this.symm
  refine ⟨fs, by rw [hbatch, hfs], ?_⟩
  have hstream : acceptFrames js v.stream v.batch runId =
      { v.stream with
        events := v.stream.events ++ fs
        next := ((v.stream.events ++ fs).length : Int) } := by
    rw [acceptFrames, if_neg hphase, h.next, hbatch, hacc]
    by_cases h0 : texts.length = 0
    · have hnil : fs = [] := List.length_eq_zero_iff.mp (hfl.trans h0)
      simp only [h0, hnil, Nat.add_zero, List.append_nil]
      rw [← h.next, if_pos rfl]
    · have hne : ((n + texts.length : Nat) : Int) ≠ (n : Int) := by omega
      simp only [hne, if_false, List.length_append, hfl, ← hn]
  simp only [View.flush, ← hid, hstream, hphase, if_false]

namespace Exact

variable {v : View T}

variable (readable : ∀ file, Sound validate js id file →
  Readable js side id (file.log validate))

include readable

/-- A batch taken changes no phase and no socket. -/
theorem flush (h : Exact validate js side id v) (hb : v.batch ≠ []) :
    ∃ s : Stream T, v.flush js side id = { v with stream := s, batch := [] } ∧
      s.phase = v.stream.phase ∧ Exact validate js side id { v with stream := s, batch := [] } := by
  obtain ⟨c, r, log, hc, -, hu⟩ := h.socket_of_batch hb
  obtain ⟨fs, hfs, he⟩ := flush_spec h hc hu (readable _ h.sound)
  exact ⟨_, he, rfl, h.flushed hfs rfl rfl h.error⟩

/-- A close leaves the stream as it was up to the phase, with the batch taken. -/
theorem onclose (h : Exact validate js side id v) (close : Close) :
    ∃ s : Stream T, s.phase = v.stream.phase ∧
      v.onclose js side id close =
        { v with
          stream := closed s close.1 close.2 ("/" ++ side.page ++ "/" ++ id)
          socket := none
          batch := [] } ∧
      Exact validate js side id (v.onclose js side id close) := by
  have hk := closed_kept (T := T)
  by_cases hb : v.batch = []
  · have he : v.onclose js side id close =
        { v with
          stream := closed v.stream close.1 close.2 ("/" ++ side.page ++ "/" ++ id)
          socket := none } := by
      simp [View.onclose, hb]
    refine ⟨v.stream, rfl, ?_, ?_⟩
    · rw [he, ← hb]
    · rw [he]
      exact h.dropped (hk _ _ _ _).1 (hk _ _ _ _).2 hb
  · obtain ⟨s, hs, hp, hx⟩ := h.flush readable hb
    have he : v.onclose js side id close =
        { v with
          stream := closed s close.1 close.2 ("/" ++ side.page ++ "/" ++ id)
          socket := none
          batch := [] } := by
      simp [View.onclose, hb, hs]
    refine ⟨s, hp, he, ?_⟩
    rw [he]
    exact hx.dropped (hk _ _ _ _).1 (hk _ _ _ _).2 rfl

/-- Every step of a growing log keeps the invariant. -/
theorem step {v' : View T} {a : Act} (h : Exact validate js side id v)
    (hok : Growing validate js id v a) (hs : v.step validate js side id a = some v') :
    Exact validate js side id v' := by
  have hlive : ∀ {c}, v.socket = some c → v.stream.phase ≠ .error := fun hc he => by
    simp [h.error he] at hc
  cases a <;> simp only [View.step, bind, Option.bind_eq_some_iff, Option.guard_eq_some',
    Option.some.injEq] at hs
  case write bytes =>
    subst hs
    exact h.write bytes hok
  case found =>
    obtain ⟨c, hc, -, ⟨hr, hn⟩, rfl⟩ := hs
    exact h.found hc (by simpa using hr) (by simpa using hn)
  case refuse close =>
    obtain ⟨c, hc, -, ⟨hr, hn⟩, rfl⟩ := hs
    refine h.socket [] { c with close := some close } hc rfl rfl (fun _ => ?_) rfl ?_ rfl rfl
      (hlive hc)
    · simpa using hr
    · simp
  case read =>
    obtain ⟨c, hc, r, hr, -, hn, rfl⟩ := hs
    exact h.read hc hr (by simpa using hn)
  case opened =>
    obtain ⟨c, hc, -, -, rfl⟩ := hs
    refine h.socket [] { c with opened := true } hc rfl rfl (absurd rfl) rfl ?_ rfl rfl ?_
    · simp
    · exact Phase.noConfusion
  case receive =>
    obtain ⟨c, hc, -, -, hs⟩ := hs
    split at hs
    · cases hs
    · rename_i text wire hw
      cases hs
      refine h.socket [text] { c with wire } hc rfl rfl ?_ hw rfl rfl rfl (hlive hc)
      exact absurd rfl
  case flush =>
    obtain ⟨-, hb, rfl⟩ := hs
    obtain ⟨s, hs, -, hx⟩ := h.flush readable (by simpa using hb)
    exact hs ▸ hx
  case bye =>
    obtain ⟨c, hc, -, -, close, hclose, rfl⟩ := hs
    obtain ⟨-, -, -, hx⟩ := h.onclose readable close
    exact hx
  case lost code reason =>
    obtain ⟨-, -, rfl⟩ := hs
    obtain ⟨-, -, -, hx⟩ := h.onclose readable (code, reason)
    exact hx
  case reconnect =>
    obtain ⟨-, -, rfl⟩ := hs
    exact h.reconnected

theorem reach {v : View T}
    (h : Reach (View.step validate js side id) (Growing validate js id) {} v) :
    Exact validate js side id v :=
  h.invariant start fun _ he hok hs => he.step readable hok hs

omit readable in
theorem numbered (h : Exact validate js side id v)
    (hr : Readable js side id (v.file.log validate)) :
    v.stream.events.map Framed.seq = (List.range v.stream.events.length).map Int.ofNat := by
  refine List.ext_getElem (by simp) fun i hi hi' => ?_
  simp only [List.length_map] at hi
  obtain ⟨tail, ht⟩ := h.held
  have hget : (side.shows js (v.file.log validate))[i]? = some (.ok v.stream.events[i]) := by
    rw [← ht, List.getElem?_append_left (by simpa using hi)]
    simp [hi]
  rw [Side.shows, List.getElem?_map, Option.map_eq_some_iff] at hget
  obtain ⟨text, htext, hf⟩ := hget
  obtain ⟨f, hf', hseq, -⟩ := hr i text htext
  rw [hf, Except.ok.injEq] at hf'
  simp [hf', hseq]

end Exact

/-! ## No error -/

/-- What holds moreover while the run is served. -/
structure Calm (validate : Bytes → Option Serve.Event) (js : Js) (side : Side T) (id : String)
    (v : View T) : Prop where
  exact : Exact validate js side id v
  public_ : ∀ x ∈ v.file.log validate, heldOut x.1 = false
  phase : v.stream.phase ≠ .error
  served : ∀ c, v.socket = some c → c.reader = none → c.close = none

namespace Calm

variable {v : View T} (readable : ∀ file, Sound validate js id file →
  Readable js side id (file.log validate))

include readable

/-- A close with a code that is no error's. -/
theorem onclose (h : Calm validate js side id v) {close : Close}
    (hcode : close.1 ∉ [1011, 4403, 4404]) (habn : close.1 = 1006 → v.stream.phase ≠ .connecting) :
    Calm validate js side id (v.onclose js side id close) := by
  obtain ⟨s, hp, he, hx⟩ := h.exact.onclose readable close
  rw [he] at hx ⊢
  exact ⟨hx, h.public_, closed_phase (hp ▸ h.phase) hcode (hp ▸ habn) _ _, nofun⟩

/-- Every step of a served run keeps the phase from error. -/
theorem step {v' : View T} {a : Act} (h : Calm validate js side id v)
    (hok : Steady validate js id v a) (hs : v.step validate js side id a = some v') :
    Calm validate js side id v' := by
  have hexact := h.exact.step readable (Steady.growing validate js id hok) hs
  cases a <;> simp only [View.step, bind, Option.bind_eq_some_iff, Option.guard_eq_some',
    Option.some.injEq] at hs
  case write bytes =>
    subst hs
    exact ⟨hexact, hok.2, h.phase, h.served⟩
  case found =>
    obtain ⟨c, hc, -, -, rfl⟩ := hs
    refine ⟨hexact, h.public_, h.phase, ?_⟩
    rintro c' ⟨⟩ hr
    cases hr
  case refuse close => exact hok.elim
  case read =>
    obtain ⟨c, hc, r, hr, -, hn, rfl⟩ := hs
    refine ⟨hexact, h.public_, h.phase, ?_⟩
    rintro c' ⟨⟩ hr'
    cases hr'
  case opened =>
    obtain ⟨c, hc, -, -, rfl⟩ := hs
    refine ⟨hexact, h.public_, Phase.noConfusion, ?_⟩
    rintro c' ⟨⟩ hr
    exact h.served c hc hr
  case receive =>
    obtain ⟨c, hc, -, -, hs⟩ := hs
    split at hs
    · cases hs
    · cases hs
      refine ⟨hexact, h.public_, h.phase, ?_⟩
      rintro c' ⟨⟩ hr
      exact h.served c hc hr
  case flush =>
    obtain ⟨-, hb, rfl⟩ := hs
    obtain ⟨s, hs, hp, -⟩ := h.exact.flush readable (by simpa using hb)
    rw [hs] at hexact ⊢
    exact ⟨hexact, h.public_, hp ▸ h.phase, h.served⟩
  case bye =>
    obtain ⟨c, hc, -, -, close, hclose, rfl⟩ := hs
    have hcode : close.1 = 1000 := by
      cases hr : c.reader with
      | none => simp [h.served c hc hr] at hclose
      | some r =>
        obtain ⟨log, hu⟩ := h.exact.under c r hc hr
        rcases hu.ends close hclose with h1 | ⟨-, x, hx, hheld⟩
        · exact h1
        · simp [h.public_ x hx] at hheld
    exact h.onclose readable (by simp [hcode]) (by simp [hcode])
  case lost code reason =>
    obtain ⟨-, -, rfl⟩ := hs
    exact h.onclose readable hok.1 hok.2
  case reconnect =>
    obtain ⟨-, -, rfl⟩ := hs
    refine ⟨hexact, h.public_, Phase.noConfusion, ?_⟩
    rintro c ⟨⟩ -
    rfl

theorem reach {v : View T}
    (h : Reach (View.step validate js side id) (Steady validate js id) {} v) :
    Calm validate js side id v := by
  refine h.invariant ⟨Exact.start, ?_, Phase.noConfusion, ?_⟩ fun _ hc hok hs =>
    hc.step readable hok hs
  · intro x hx
    cases hx
  · rintro c ⟨⟩ -
    rfl

end Calm

end

/-! ## The two streams -/

section

variable {validate : Bytes → Option Serve.Event} {js : Js} {id : String}

theorem parseFrame_ok {text : Bytes} {v : Fields} (h : js.parse text = some (.obj v))
    (hf : isFrame v = true) : parseFrame js text = .ok v := by
  simp [parseFrame, h, hf]

/-- The page reads the events of a run whose id redaction leaves. -/
theorem Reads.readable_live (reads : Reads validate js)
    (hid : redact (utf8 id) = utf8 id) (file : File) (h : Sound validate js id file) :
    Readable js Side.live id (file.log validate) := by
  intro i text hi
  obtain ⟨⟨event, line⟩, hget, rfl⟩ := List.getElem?_map .. ▸ hi |> Option.map_eq_some_iff.mp
  obtain ⟨hv, hrun, hseq⟩ := valid_get h.1 hget
  obtain ⟨v, hp, hf, hs, hr⟩ := reads.live hv (h.2 _ (List.mem_of_getElem? hget))
  refine ⟨⟨v⟩, ?_, ?_, fun _ => ?_⟩
  · simp [Side.live, parseEvent, parseFrame_ok hp hf, Except.map]
  · show Fields.num v "seq" = _
    rw [hs, hseq, Nat.zero_add]
  · show isRun (v.lookup "run_id") id = true
    simp [hr (hrun ▸ hid), isRun, hrun]

/-- The page reads every rep's frame. -/
theorem Reads.readable_rep (reads : Reads validate js) (log : Log) :
    Readable js Side.rep id log := by
  intro i text hi
  simp only [Side.rep, Source.texts, List.getElem?_map, List.getElem?_zipIdx,
    Option.map_eq_some_iff] at hi
  obtain ⟨-, ⟨kept, -, rfl⟩, rfl⟩ := hi
  obtain ⟨v, hp, hf, hs⟩ := reads.rep i kept
  refine ⟨_, by simp [Side.rep, parseRepFrame, parseFrame_ok hp hf, Except.map]; rfl, ?_,
    fun ofRun => by cases ofRun⟩
  show Fields.num v "seq" = _
  rw [hs]

/-- Live replay is exact.  In every run of a valid log, whatever is lost and taken up again, a view
holds a prefix of the run's events, of a run whose id redaction leaves, or of the allowed frames,
numbered from 0; and its phase is never error while the run is served and no socket is lost before
it opens. -/
theorem replay_exact (reads : Reads validate js) (id : String) :
    (redact (utf8 id) = utf8 id →
      (∀ v : View Ev,
        Reach (View.step validate js Side.live id) (Growing validate js id) {} v →
          v.stream.events.map .ok <+:
            (v.file.log validate).map (fun (_, line) => parseEvent js (redact line)) ∧
          v.stream.events.map Framed.seq =
            (List.range v.stream.events.length).map Int.ofNat) ∧
      ∀ v : View Ev, Reach (View.step validate js Side.live id) (Steady validate js id) {} v →
        v.stream.phase ≠ .error) ∧
    (∀ v : View RepFrame,
      Reach (View.step validate js Side.rep id) (Growing validate js id) {} v →
        v.stream.events.map .ok <+:
          ((v.file.log validate).filterMap fun (event, _) => allowed event).zipIdx.map
            (fun (kept, seq) => parseRepFrame js (redact (dumps seq kept))) ∧
        v.stream.events.map Framed.seq =
          (List.range v.stream.events.length).map Int.ofNat) ∧
    ∀ v : View RepFrame, Reach (View.step validate js Side.rep id) (Steady validate js id) {} v →
      v.stream.phase ≠ .error := by
  refine ⟨fun hid => ?_, ?_⟩
  · have readable := reads.readable_live hid
    refine ⟨fun v h => ?_, fun v h => (Calm.reach readable h).phase⟩
    have he := Exact.reach readable h
    refine ⟨?_, he.numbered (readable _ he.sound)⟩
    simpa [Side.shows, Side.live, Source.texts, Function.comp_def] using he.held
  · have readable : ∀ file, Sound validate js id file →
        Readable js Side.rep id (file.log validate) := fun _ _ => reads.readable_rep _
    refine ⟨fun v h => ?_, fun v h => (Calm.reach readable h).phase⟩
    have he := Exact.reach readable h
    refine ⟨?_, he.numbered (readable _ he.sound)⟩
    simpa [Side.shows, Side.rep, Source.texts, Function.comp_def] using he.held

/-! ## A run of two events -/

def heardLine (seq : UInt8) (text : Bytes) : Bytes :=
  -- {"schema":"pl.event/2","run_id":"r1","seq":
  [123, 34, 115, 99, 104, 101, 109, 97, 34, 58, 34, 112, 108, 46, 101, 118, 101, 110, 116, 47,
   50, 34, 44, 34, 114, 117, 110, 95, 105, 100, 34, 58, 34, 114, 49, 34, 44, 34, 115, 101, 113,
   34, 58] ++ seq ::
  -- ,"event_id":"r1:
  [44, 34, 101, 118, 101, 110, 116, 95, 105, 100, 34, 58, 34, 114, 49, 58] ++ seq ::
  -- ","t_ms":5,"wall":"2026-01-01T00:00:00Z","type":"utt.final","actor":"kernel",
  -- "stream":"agent","cause_ids":[],"epoch":0,"payload":{"lane":"cp","speaker":"partner","utt_id":"u
  [34, 44, 34, 116, 95, 109, 115, 34, 58, 53, 44, 34, 119, 97, 108, 108, 34, 58, 34, 50, 48, 50,
   54, 45, 48, 49, 45, 48, 49, 84, 48, 48, 58, 48, 48, 58, 48, 48, 90, 34, 44, 34, 116, 121, 112,
   101, 34, 58, 34, 117, 116, 116, 46, 102, 105, 110, 97, 108, 34, 44, 34, 97, 99, 116, 111, 114,
   34, 58, 34, 107, 101, 114, 110, 101, 108, 34, 44, 34, 115, 116, 114, 101, 97, 109, 34, 58, 34,
   97, 103, 101, 110, 116, 34, 44, 34, 99, 97, 117, 115, 101, 95, 105, 100, 115, 34, 58, 91, 93,
   44, 34, 101, 112, 111, 99, 104, 34, 58, 48, 44, 34, 112, 97, 121, 108, 111, 97, 100, 34, 58,
   123, 34, 108, 97, 110, 101, 34, 58, 34, 99, 112, 34, 44, 34, 115, 112, 101, 97, 107, 101, 114,
   34, 58, 34, 112, 97, 114, 116, 110, 101, 114, 34, 44, 34, 117, 116, 116, 95, 105, 100, 34, 58,
   34, 117] ++ seq ::
  -- ","text":"
  [34, 44, 34, 116, 101, 120, 116, 34, 58, 34] ++ text ++
  -- "}}
  [34, 125, 125]

def heardPayload (seq text : String) : List (String × String) :=
  [("lane", "cp"), ("speaker", "partner"), ("utt_id", "u" ++ seq), ("text", text)]

def heardEvent (seq : Nat) (text : String) : Serve.Event where
  runId := "r1"
  seq
  tMs := 5
  type := "utt.final"
  payload := (heardPayload (toString seq) text).foldl
    (fun d (name, value) => d.set name (.scalar (.str value))) .empty

def hiLine : Bytes := heardLine 48 (utf8 "hi")

def byeLine : Bytes := heardLine 49 (utf8 "bye")

/-- `Event.model_validate_json` of the two lines. -/
def heardValidate (line : Bytes) : Option Serve.Event :=
  if line = hiLine then some (heardEvent 0 "hi")
  else if line = byeLine then some (heardEvent 1 "bye")
  else none

def heardFields (seq : Nat) (text : String) : Fields :=
  [("schema", .str "pl.event/2"), ("run_id", .str "r1"), ("seq", .num seq),
    ("event_id", .str ("r1:" ++ toString seq)), ("t_ms", .num 5),
    ("wall", .str "2026-01-01T00:00:00Z"), ("type", .str "utt.final"), ("actor", .str "kernel"),
    ("stream", .str "agent"), ("cause_ids", .arr []), ("epoch", .num 0),
    ("payload", .obj ((heardPayload (toString seq) text).map fun (name, value) =>
      (name, .str value)))]

/-- The number after the head of a rep's frame. -/
def seqOf (text : Bytes) : Nat :=
  Nat.ofDigitChars 10
    (((text.drop 8).takeWhile Byte.isDigit).map fun b => Char.ofNat b.toNat) 0

/-- `JSON.parse` of the two lines and of the frames of the two events; of another frame, what
every frame has. -/
def heardParse (text : Bytes) : Option Json :=
  if (utf8 "\x7b\"seq\": ").isPrefixOf text then
    let said := if seqOf text = 0 then heardPayload "0" "hi" else heardPayload "1" "bye"
    some (.obj [("seq", .num (seqOf text)), ("t_ms", .num 5), ("type", .str "utt.final"),
      ("payload", .obj (said.map fun (name, value) => (name, .str value)))])
  else if text = hiLine then some (.obj (heardFields 0 "hi"))
  else if text = byeLine then some (.obj (heardFields 1 "bye"))
  else none

def heardJs : Js where
  parse := heardParse
  number
    | some (.num n) => some n
    | _ => none
  string
    | some (.str s) => s
    | _ => "undefined"

theorem heardLine_facts :
    redact hiLine = hiLine ∧ redact byeLine = byeLine ∧ byeLine ≠ hiLine ∧
      (utf8 "\x7b\"seq\": ").isPrefixOf hiLine = false ∧
      (utf8 "\x7b\"seq\": ").isPrefixOf byeLine = false := by
  decide +kernel

theorem seqOf_frame (seq : Nat) (kept : Kept) :
    seqOf (redact (dumps seq kept)) = seq ∧
      (utf8 "\x7b\"seq\": ").isPrefixOf (redact (dumps seq kept)) = true := by
  obtain ⟨rest, ht⟩ := redact_dumps seq kept
  obtain ⟨hdigits, hchars⟩ := utf8_digits seq
  have hcomma : utf8 "," = [44] := by decide
  rw [← ht, seqHead, hcomma]
  constructor
  · have hdrop : (utf8 "\x7b\"seq\": " ++ utf8 (toString seq) ++ [44] ++ rest).drop 8 =
        utf8 (toString seq) ++ 44 :: rest := by
      simp only [List.append_assoc, List.singleton_append]
      exact List.drop_left' (by decide)
    have h44 : Byte.isDigit 44 = false := by decide
    rw [seqOf, hdrop, List.takeWhile_append_of_pos fun b hb => (hdigits b hb).1,
      List.takeWhile_cons_of_neg (by simp [h44]), List.append_nil, hchars,
      Nat.ofDigitChars_ten_toDigits]
  · simp [List.isPrefixOf_iff_prefix]

theorem heardReads : Reads heardValidate heardJs := by
  obtain ⟨hhi, hbye, hne, hp, hp'⟩ := heardLine_facts
  constructor
  · intro line event hv _
    rw [heardValidate] at hv
    split at hv
    · rename_i hl
      cases hv
      rw [hl, hhi]
      exact ⟨heardFields 0 "hi", by simp [heardJs, heardParse, hp], rfl, rfl, fun _ => rfl⟩
    · split at hv
      · rename_i hl
        cases hv
        rw [hl, hbye]
        exact ⟨heardFields 1 "bye", by simp [heardJs, heardParse, hp', hne], rfl, rfl, fun _ => rfl⟩
      · cases hv
  · intro seq kept
    obtain ⟨hs, hpre⟩ := seqOf_frame seq kept
    refine ⟨_, by simp only [heardJs, heardParse, hpre, if_true]; rfl, rfl, ?_⟩
    simp [Fields.num, hs]

/-- The first event and part of the second arrive; the socket is lost; after a reconnect the rest
of the second does. -/
def heardActs : List Act :=
  [.write (hiLine ++ NEWLINE :: byeLine.take 30), .found, .opened, .read, .receive, .flush,
    .lost 1001 "", .reconnect, .write (byeLine.drop 30 ++ [NEWLINE]), .found, .opened, .read,
    .receive, .flush]

def heardRun {T : Type} [Framed T] (side : Side T) : Option (View T) :=
  Lib.run
    (Lib.guarded (fun v a => Decidable.decide (Steady heardValidate heardJs "r1" v a))
      (View.step heardValidate heardJs side "r1")) {} heardActs

theorem heardRun_facts :
    (heardRun Side.live).map (fun v => v.stream.events.length) = some 2 ∧
      (heardRun Side.rep).map (fun v => v.stream.events.length) = some 2 ∧
      redact (utf8 "r1") = utf8 "r1" := by
  decide +kernel

theorem heardRun_reach {T : Type} [Framed T] {side : Side T}
    (h : (heardRun side).map (fun v => v.stream.events.length) = some 2) :
    ∃ v, v.stream.events.length = 2 ∧
      Reach (View.step heardValidate heardJs side "r1") (Steady heardValidate heardJs "r1") {} v := by
  obtain ⟨v, hv, hl⟩ := Option.map_eq_some_iff.mp h
  exact ⟨v, hl, Reach.guarded (fun _ _ => of_decide_eq_true) .start hv⟩

theorem replay_exact_two :
    (∃ v : View Ev,
      v.stream.events.length = 2 ∧ v.stream.phase ≠ .error ∧
        v.stream.events.map .ok <+:
          (v.file.log heardValidate).map (fun (_, line) => parseEvent heardJs (redact line))) ∧
    ∃ v : View RepFrame,
      v.stream.events.length = 2 ∧ v.stream.phase ≠ .error ∧
        v.stream.events.map Framed.seq = [0, 1] := by
  obtain ⟨hlive, hrep, hid⟩ := heardRun_facts
  obtain ⟨hl, hr, hrp⟩ := replay_exact heardReads "r1"
  obtain ⟨v, hv, hreach⟩ := heardRun_reach hlive
  obtain ⟨w, hw, hreach'⟩ := heardRun_reach hrep
  refine ⟨⟨v, hv, (hl hid).2 v hreach, ((hl hid).1 v ?_).1⟩, w, hw, hrp w hreach', ?_⟩
  · exact hreach.weaken fun _ _ => Steady.growing _ _ _
  · rw [(hr w (hreach'.weaken fun _ _ => Steady.growing _ _ _)).2, hw]
    rfl

/-- A socket lost before it opens ends in an error, and so does a run that is not served, though
the log is valid and no client is turned away. -/
theorem error_unserved :
    Reads heardValidate heardJs ∧
      (¬ ∀ v : View Ev,
        Reach (View.step heardValidate heardJs Side.live "r1")
          (fun v a => Growing heardValidate heardJs "r1" v a ∧ ∀ close, a ≠ .refuse close) {} v →
        v.stream.phase ≠ .error) ∧
      ¬ ∀ v : View Ev,
        Reach (View.step heardValidate heardJs Side.live "r1")
          (fun v a => Growing heardValidate heardJs "r1" v a ∧
            (∀ code reason, a ≠ .lost code reason) ∧ ∀ close, a = .refuse close → close.1 = 4404)
          {} v →
        v.stream.phase ≠ .error := by
  refine ⟨heardReads, fun h => ?_, fun h => ?_⟩
  · exact h _ (.next (.lost 1006 "") .start ⟨trivial, nofun⟩ rfl) rfl
  · have only : ∀ close, Act.refuse (4404, "unknown run") = .refuse close → close.1 = 4404 := by
      rintro _ ⟨⟩
      rfl
    refine h _ (.next .bye (.next .opened (.next (.refuse (4404, "unknown run")) .start
      ⟨trivial, nofun, only⟩ rfl) ⟨trivial, nofun, nofun⟩ rfl) ⟨trivial, nofun, nofun⟩ rfl) rfl

end

end ProxyLoop.Web
