import Mathlib.Data.List.Induction
import Mathlib.Data.List.TakeDrop
import ProxyLoop.Serve.Stream

/-!
# What a reader has sent

`texts` says what a stream is made of: the run's lines, redacted, or the allowed frames numbered
from 0.  A reader of a valid log, however its chunks fall, has sent what stands in it from the
place the client asked for on.
-/

namespace ProxyLoop.Serve

/-! ## Valid logs -/

variable (validate : Bytes → Option Event)

/-- A run's events and their lines. -/
abbrev Log := List (Event × Bytes)

/-- The events that lines hold, each with its line; a blank line is none. -/
def logged (lines : List Bytes) : Log :=
  lines.filterMap fun line => if blank line then none else (validate line).map (·, line)

/-- Lines that are the run's events from a seq on. -/
def valid (runId : String) : Nat → List Bytes → Bool
  | _, [] => true
  | seq, line :: rest =>
    if blank line then valid runId seq rest
    else
      match validate line with
      | none => false
      | some event => event.runId = runId && event.seq = seq && valid runId (seq + 1) rest

def File.log (file : File) : Log := logged validate (Lib.lines NEWLINE file.bytes)

def File.valid (runId : String) (file : File) : Bool :=
  Serve.valid validate runId 0 (Lib.lines NEWLINE file.bytes)

variable {validate} {runId : String}

@[simp] theorem logged_append (a b : List Bytes) :
    logged validate (a ++ b) = logged validate a ++ logged validate b :=
  List.filterMap_append

theorem valid_append (seq : Nat) (a b : List Bytes) :
    valid validate runId seq (a ++ b) =
      (valid validate runId seq a && valid validate runId (seq + (logged validate a).length) b) := by
  induction a generalizing seq with
  | nil => simp [valid, logged]
  | cons line a ih =>
    by_cases hb : blank line = true
    · simp [valid, logged, hb, ih]
    · cases hv : validate line with
      | none => simp [valid, hb, hv]
      | some event =>
        simp [valid, logged, hb, hv, ih, Nat.add_assoc, Nat.add_comm 1, Bool.and_assoc]

theorem valid_get {seq : Nat} {lines : List Bytes} (h : valid validate runId seq lines = true)
    {i : Nat} {event : Event} {line : Bytes}
    (hi : (logged validate lines)[i]? = some (event, line)) :
    validate line = some event ∧ event.runId = runId ∧ event.seq = seq + i := by
  induction lines generalizing seq i with
  | nil => simp [logged] at hi
  | cons l lines ih =>
    by_cases hb : blank l = true
    · simp only [valid, hb, if_true] at h
      exact ih h (by simpa [logged, hb] using hi)
    · cases hv : validate l with
      | none => simp [valid, hb, hv] at h
      | some e =>
        simp only [valid, hb, hv, Bool.false_eq_true, if_false, Bool.and_eq_true,
          decide_eq_true_eq] at h
        have hl : logged validate (l :: lines) = (e, l) :: logged validate lines := by
          simp [logged, hb, hv]
        rw [hl] at hi
        rcases i with - | i
        · cases hi
          exact ⟨hv, h.1.1, h.1.2⟩
        · obtain ⟨h1, h2, h3⟩ := ih h.2 hi
          exact ⟨h1, h2, by omega⟩

/-! ## The two streams -/

/-- `/ws/live` and `/ws/rep` -/
inductive Source
  | live
  | rep

namespace Source

/-- The reader of a stream that a client takes up at a seq. -/
def reader : Source → String → Nat → Reader
  | live, runId, fromSeq => { runId, fromSeq }
  | rep, runId, fromSeq => { runId, fromSeq := 0, frame := .rep { skip := fromSeq } }

/-- All that a stream sends of a log. -/
def texts : Source → Log → List Bytes
  | live, log => log.map fun (_, line) => redact line
  | rep, log => (log.filterMap (allowed ·.1)).zipIdx.map fun (kept, i) => redact (dumps i kept)

def more : Source → Log → Event → Bytes → List Bytes
  | live, _, _, line => [redact line]
  | rep, log, event, _ =>
    (allowed event).toList.map fun kept => redact (dumps (log.filterMap (allowed ·.1)).length kept)

theorem texts_snoc (source : Source) (log : Log) (event : Event) (line : Bytes) :
    source.texts (log ++ [(event, line)]) = source.texts log ++ source.more log event line := by
  cases source with
  | live => simp [texts, more]
  | rep =>
    cases h : allowed event with
    | none => simp [texts, more, h]
    | some kept => simp [texts, more, h, List.zipIdx_append]

theorem texts_append (source : Source) (log tail : Log) :
    ∃ new, source.texts (log ++ tail) = source.texts log ++ new := by
  induction tail using List.reverseRecOn with
  | nil => exact ⟨[], by simp⟩
  | append_singleton tail x ih =>
    obtain ⟨new, h⟩ := ih
    obtain ⟨event, line⟩ := x
    exact ⟨new ++ source.more (log ++ tail) event line, by
      rw [← List.append_assoc, texts_snoc, h, List.append_assoc]⟩

theorem texts_prefix (source : Source) {log log' : Log} (h : log <+: log') :
    source.texts log <+: source.texts log' := by
  obtain ⟨tail, rfl⟩ := h
  obtain ⟨new, h⟩ := source.texts_append log tail
  exact ⟨new, h.symm⟩

end Source

/-! ## Redacted texts are not empty -/

theorem sub_ne_nil {r : Lib.Regex UInt8} {by_ : Lib.Regex.Match UInt8 → Bytes}
    (hb : ∀ m, by_ m ≠ []) {text : Bytes} (h : text ≠ []) : r.sub by_ text ≠ [] := by
  rw [Lib.Regex.sub]
  cases r.finditer text with
  | nil => simpa [Lib.Regex.sub.go] using h
  | cons m ms => simp [Lib.Regex.sub.go, hb]

theorem redact_ne_nil {text : Bytes} (h : text ≠ []) : redact text ≠ [] := by
  refine sub_ne_nil (fun m => ?_) (sub_ne_nil (fun _ => ?_) (sub_ne_nil (fun _ => ?_) h))
  · simp [SECRET, utf8]
  · decide
  · decide

theorem dumps_ne_nil (seq : Nat) (kept : Kept) : dumps seq kept ≠ [] := by
  have : utf8 "\x7b\"seq\": " ≠ [] := by decide
  simp [dumps, this]

/-! ## A frame's seq -/

def seqHead (seq : Nat) : Bytes := utf8 "\x7b\"seq\": " ++ utf8 (toString seq) ++ utf8 ","

theorem utf8_digit {c : Char} (h : c.isDigit = true) :
    ∃ b, String.utf8EncodeChar c = [b] ∧ Byte.isDigit b = true ∧ Char.ofNat b.toNat = c ∧
      quiet b = true := by
  have hrange : 48 ≤ c.toNat ∧ c.toNat ≤ 57 := by
    simpa [Char.isDigit, UInt32.le_iff_toNat_le] using h
  have hten : ∀ k : Fin 10, ∃ b ∈ String.utf8EncodeChar (Char.ofNat (48 + k)),
      String.utf8EncodeChar (Char.ofNat (48 + k)) = [b] ∧ Byte.isDigit b = true ∧
        Char.ofNat b.toNat = Char.ofNat (48 + k) ∧ quiet b = true := by
    decide
  have hchar : c = Char.ofNat (48 + (c.toNat - 48)) := by
    rw [Nat.add_sub_cancel' hrange.1, Char.ofNat_toNat]
  obtain ⟨b, -, hb⟩ := hten ⟨c.toNat - 48, by omega⟩
  rw [hchar]
  exact ⟨b, hb⟩

theorem utf8_digits (n : Nat) :
    (∀ b ∈ utf8 (toString n), Byte.isDigit b = true ∧ quiet b = true) ∧
      (utf8 (toString n)).map (fun b => Char.ofNat b.toNat) = Nat.toDigits 10 n := by
  have hlist : (toString n).toList = Nat.toDigits 10 n := by simp
  have hdigits : ∀ c ∈ Nat.toDigits 10 n, c.isDigit = true := fun c hc =>
    Nat.isDigit_of_mem_toDigits (by decide) (Nat.le_refl 10) hc
  rw [utf8, hlist]
  generalize Nat.toDigits 10 n = chars at hdigits
  induction chars with
  | nil => simp
  | cons c chars ih =>
    obtain ⟨b, hb, hd, hc, hq⟩ := utf8_digit (hdigits c List.mem_cons_self)
    obtain ⟨hall, hmap⟩ := ih fun c' h' => hdigits c' (List.mem_cons_of_mem _ h')
    constructor
    · intro b' hb'
      rw [List.flatMap_cons, hb, List.singleton_append, List.mem_cons] at hb'
      rcases hb' with rfl | hb'
      · exact ⟨hd, hq⟩
      · exact hall b' hb'
    · rw [List.flatMap_cons, hb, List.singleton_append, List.map_cons, hc, hmap]

/-- Redaction leaves the seq of a rep's frame. -/
theorem redact_dumps (seq : Nat) (kept : Kept) : seqHead seq <+: redact (dumps seq kept) := by
  have hstart : utf8 "\x7b\"seq\": " = [123, 34] ++ [115] ++ [101, 113, 34, 58, 32] := by decide
  have hcomma : utf8 ", \"t_ms\": " = utf8 "," ++ utf8 " \"t_ms\": " := by decide
  have hkeeps : ∀ rest, Keeps [] (seqHead seq) rest := by
    intro rest
    rw [seqHead, hstart]
    refine .append (.append (.append (.append ?_ ?_) ?_) ?_) ?_
    · exact keeps_quiet (by decide) _ _
    · exact keeps_seq _ _
    · exact keeps_quiet (by decide) _ _
    · exact keeps_quiet (List.all_eq_true.mpr fun b hb => ((utf8_digits seq).1 b hb).2) _ _
    · exact keeps_quiet (by decide) _ _
  obtain ⟨rest, hr⟩ : ∃ rest, dumps seq kept = seqHead seq ++ rest := by
    refine ⟨utf8 " \"t_ms\": " ++ (utf8 (toString kept.tMs) ++ (utf8 ", \"type\": " ++
      (dumps.string kept.type ++ (utf8 ", \"payload\": \x7b" ++
        ((utf8 ", ").intercalate (kept.payload.map dumps.item) ++ utf8 "\x7d\x7d"))))), ?_⟩
    rw [dumps, hcomma, seqHead]
    simp only [List.append_assoc]
  rw [hr]
  exact redact_prefix hkeeps rest

/-! ## The reader -/

/-- A reader at the end of a log, taken up at `fromSeq`: what it will send next follows what the
stream has sent of the log. -/
structure Reader.At (source : Source) (runId : String) (fromSeq : Nat) (log : Log) (r : Reader) :
    Prop where
  runId : r.runId = runId
  seq : r.seq = log.length
  frame : match source with
    | .live => r.fromSeq = fromSeq ∧ r.frame = .raw
    | .rep => r.fromSeq = 0 ∧
        r.frame = .rep { skip := fromSeq, seq := (log.filterMap (allowed ·.1)).length }

namespace Reader

variable {source : Source} {fromSeq : Nat} {log : Log} {r : Reader}

theorem at_start (source : Source) (runId : String) (fromSeq : Nat) :
    (source.reader runId fromSeq).At source runId fromSeq [] := by
  cases source <;> exact ⟨rfl, rfl, rfl, rfl⟩

/-- One event: the reader is at the longer log, and has sent what that adds from `fromSeq` on. -/
theorem take_spec (h : r.At source runId fromSeq log) {event : Event} (hs : event.seq = log.length)
    {line : Bytes} (hl : line ≠ []) :
    (r.take event line).1.At source runId fromSeq (log ++ [(event, line)]) ∧
      (source.texts (log ++ [(event, line)])).drop fromSeq =
        (source.texts log).drop fromSeq ++ (r.take event line).2 := by
  obtain ⟨hrun, hseq, hf⟩ := h
  rw [Source.texts_snoc, List.drop_append]
  cases source with
  | live =>
    obtain ⟨hfrom, hframe⟩ := hf
    have hlen : (Source.live.texts log).length = event.seq := by simp [Source.texts, hs]
    by_cases hn : fromSeq ≤ event.seq
    · have h0 : fromSeq - event.seq = 0 := by omega
      refine ⟨⟨?_, ?_, ?_⟩, ?_⟩
      · simp [take, hfrom, hn, hrun]
      · simp [take, hfrom, hn, hseq]
      · simp [take, hfrom, hn, hframe, Frame.call]
      · simp [take, hfrom, hn, hframe, Frame.call, hlen, h0, Source.more, redact_ne_nil hl]
    · obtain ⟨k, hk⟩ : ∃ k, fromSeq - event.seq = k + 1 := ⟨fromSeq - event.seq - 1, by omega⟩
      refine ⟨⟨?_, ?_, ?_⟩, ?_⟩
      · simp [take, hfrom, hn, hrun]
      · simp [take, hfrom, hn, hseq]
      · simp [take, hfrom, hn, hframe]
      · simp [take, hfrom, hn, hlen, hk, Source.more]
  | rep =>
    obtain ⟨hfrom, hframe⟩ := hf
    have hlen : (Source.rep.texts log).length = (log.filterMap (allowed ·.1)).length := by
      simp [Source.texts]
    cases ha : allowed event with
    | none =>
      refine ⟨⟨?_, ?_, ?_⟩, ?_⟩
      · simp [take, hfrom, hrun]
      · simp [take, hfrom, hseq]
      · simp [take, hfrom, hframe, Frame.call, RepFrames.call, ha]
      · simp [take, hfrom, hframe, Frame.call, RepFrames.call, ha, Source.more]
    | some kept =>
      set n := (log.filterMap (allowed ·.1)).length with hn
      have hd := redact_ne_nil (dumps_ne_nil n kept)
      refine ⟨⟨?_, ?_, ?_⟩, ?_⟩
      · simp [take, hfrom, hrun]
      · simp [take, hfrom, hseq]
      · by_cases hlt : n < fromSeq
        · simp [take, hfrom, hframe, Frame.call, RepFrames.call, ha, hlt, ← hn]
        · simp [take, hfrom, hframe, Frame.call, RepFrames.call, ha, hlt, ← hn]
      · by_cases hlt : n < fromSeq
        · obtain ⟨k, hk⟩ : ∃ k, fromSeq - n = k + 1 := ⟨fromSeq - n - 1, by omega⟩
          simp [take, hfrom, hframe, Frame.call, RepFrames.call, ha, hlt, Source.more, hlen, hk]
        · have h0 : fromSeq - n = 0 := by omega
          simp [take, hfrom, hframe, Frame.call, RepFrames.call, ha, hlt, Source.more, hlen, h0, hd,
            ← hn]

/-- Why a reader of a valid log closes: its run has ended, or is held out. -/
def Ends (log : Log) (close : Close) : Prop :=
  close.1 = 1000 ∨ close.1 = 4404 ∧ ∃ x ∈ log, heldOut x.1 = true

theorem take_runId (r : Reader) (event : Event) (line : Bytes) :
    (r.take event line).1.told = r.told ∧ (r.take event line).1.pending = r.pending := by
  rw [take]
  split <;> exact ⟨rfl, rfl⟩

theorem lines_told (r : Reader) (ls : List Bytes) :
    (r.lines validate ls).1.told = r.told ∧ (r.lines validate ls).1.pending = r.pending := by
  induction ls generalizing r with
  | nil => exact ⟨rfl, rfl⟩
  | cons line rest ih =>
    rw [lines]
    split
    · exact ih r
    · split
      · exact ⟨rfl, rfl⟩
      · rename_i event hv
        have ht := r.take_runId event line
        dsimp only
        repeat' split
        · exact ⟨rfl, rfl⟩
        · exact ⟨rfl, rfl⟩
        · exact ht
        · exact ⟨(ih _).1.trans ht.1, (ih _).2.trans ht.2⟩

/-- The lines of a chunk of a valid log: the reader is at the end of those it took, has sent what
they add, and took them all unless it closed. -/
theorem lines_spec (h : r.At source runId fromSeq log) (ls : List Bytes)
    (hv : valid validate runId log.length ls = true) :
    ∃ taken left, logged validate ls = taken ++ left ∧
      (r.lines validate ls).1.At source runId fromSeq (log ++ taken) ∧
      (source.texts (log ++ taken)).drop fromSeq =
        (source.texts log).drop fromSeq ++ (r.lines validate ls).2.1 ∧
      match (r.lines validate ls).2.2 with
      | none => left = []
      | some close => Ends (logged validate ls) close := by
  induction ls generalizing r log with
  | nil => exact ⟨[], [], rfl, by simpa [lines] using h, by simp [lines], rfl⟩
  | cons line rest ih =>
    by_cases hb : blank line = true
    · have hlog : logged validate (line :: rest) = logged validate rest := by simp [logged, hb]
      simp only [valid, hb, if_true] at hv
      simp only [lines, hb, if_true, hlog]
      exact ih h hv
    · cases he : validate line with
      | none => simp [valid, hb, he] at hv
      | some event =>
        have hlog : logged validate (line :: rest) = (event, line) :: logged validate rest := by
          simp [logged, hb, he]
        simp only [valid, hb, he, Bool.false_eq_true, if_false, Bool.and_eq_true,
          decide_eq_true_eq] at hv
        obtain ⟨⟨hrun, hseq⟩, hrest⟩ := hv
        have hmine : ¬ (event.runId ≠ r.runId ∨ event.seq ≠ r.seq) := by
          simp [hrun, h.runId, hseq, h.seq]
        have hne : line ≠ [] := by
          rintro rfl
          exact hb rfl
        obtain ⟨hat, hsent⟩ := take_spec h hseq hne
        simp only [lines, hb, he, hmine, Bool.false_eq_true, if_false, hlog]
        by_cases hh : heldOut event = true
        · refine ⟨[], (event, line) :: logged validate rest, rfl, by simpa [hh] using h,
            by simp [hh], ?_⟩
          simp only [hh, if_true]
          exact .inr ⟨rfl, _, List.mem_cons_self, hh⟩
        · by_cases hend : event.type = "session.ended"
          · refine ⟨[(event, line)], logged validate rest, rfl, by simpa [hh, hend] using hat,
              by simpa [hh, hend] using hsent, ?_⟩
            simp only [hh, hend, Bool.false_eq_true, if_false, if_true]
            exact .inl rfl
          · obtain ⟨taken, left, hl, hat', hsent', hclose⟩ := ih hat (by simpa using hrest)
            refine ⟨(event, line) :: taken, left, by simp [hl], by simpa [hh, hend] using hat',
              ?_, ?_⟩
            · simp only [hh, hend, Bool.false_eq_true, if_false, ← List.append_assoc, ← hsent]
              simpa using hsent'
            · simp only [hh, hend, Bool.false_eq_true, if_false]
              split at hclose
              · rename_i hc
                simpa [hc] using hclose
              · rename_i close hc
                simp only [hc]
                exact hclose.imp id fun ⟨h4, x, hx, hxh⟩ => ⟨h4, x, List.mem_cons_of_mem _ hx, hxh⟩

/-- The log of the whole lines of what a reader has read of a file. -/
def known (validate : Bytes → Option Event) (r : Reader) (file : File) : Log :=
  logged validate (Lib.lines NEWLINE (file.bytes.take r.told))

/-- A reader that has read a file up to some place, and is at the end of the whole lines there. -/
structure Follows (validate : Bytes → Option Event) (source : Source) (runId : String)
    (fromSeq : Nat) (file : File) (r : Reader) : Prop where
  told : r.told ≤ file.bytes.length
  pending : r.pending = Lib.rest NEWLINE (file.bytes.take r.told)
  place : r.At source runId fromSeq (r.known validate file)

theorem follows_start (file : File) :
    (source.reader runId fromSeq).Follows validate source runId fromSeq file := by
  have ht : (source.reader runId fromSeq).told = 0 := by cases source <;> rfl
  have hp : (source.reader runId fromSeq).pending = [] := by cases source <;> rfl
  refine ⟨by omega, ?_, ?_⟩
  · rw [hp, ht, List.take_zero]
    rfl
  · rw [known, ht, List.take_zero]
    exact at_start source runId fromSeq

theorem known_grow {file : File} (h : r.told ≤ file.bytes.length) (bytes : Bytes) :
    r.known validate (file.append bytes) = r.known validate file := by
  rw [known, known, File.append, List.take_append_of_le_length h]

theorem Follows.grow {file : File} (h : r.Follows validate source runId fromSeq file)
    (bytes : Bytes) :
    r.Follows validate source runId fromSeq (file.append bytes) := by
  refine ⟨?_, ?_, ?_⟩
  · simpa [File.append] using Nat.le_add_right_of_le h.told
  · rw [h.pending, File.append, List.take_append_of_le_length h.told]
  · rw [known_grow h.told]
    exact h.place

theorem known_prefix (r : Reader) (file : File) : r.known validate file <+: file.log validate := by
  obtain ⟨tail, ht⟩ := Lib.lines_prefix NEWLINE (file.bytes.take r.told) (file.bytes.drop r.told)
  rw [List.take_append_drop] at ht
  exact ⟨logged validate tail, by rw [known, File.log, ← ht, logged_append]⟩

/-- One chunk of a valid log: the frames sent are what the log's next lines add, and the reader
goes on following the file unless the run has ended or is held out. -/
theorem step_spec {file : File} (h : r.Follows validate source runId fromSeq file)
    (hv : file.valid validate runId = true) (hn : file.named = true) :
    ∃ taken, r.known validate file ++ taken <+: file.log validate ∧
      (source.texts (r.known validate file ++ taken)).drop fromSeq =
        (source.texts (r.known validate file)).drop fromSeq ++ (r.step validate file).2.1 ∧
      match (r.step validate file).2.2 with
      | none => (r.step validate file).1.Follows validate source runId fromSeq file ∧
          (r.step validate file).1.known validate file = r.known validate file ++ taken
      | some close => Ends (file.log validate) close := by
  set chunk := (file.bytes.drop r.told).take CHUNK with hchunk
  set text := r.pending ++ chunk with htext
  set r₁ : Reader := { r with told := r.told + chunk.length, pending := Lib.rest NEWLINE text }
    with hr₁
  -- what is read when the chunk is
  have hread : file.bytes.take r₁.told = file.bytes.take r.told ++ chunk := by
    rw [hr₁, List.take_add, hchunk, List.length_take, List.take_eq_take_min]
    simp
  have htold : r₁.told ≤ file.bytes.length := by
    have := h.told
    simp only [hr₁, hchunk, List.length_take, List.length_drop]
    omega
  have hlines : Lib.lines NEWLINE (file.bytes.take r₁.told) =
      Lib.lines NEWLINE (file.bytes.take r.told) ++ Lib.lines NEWLINE text := by
    rw [hread, Lib.lines_append, ← h.pending]
  have hpend : r₁.pending = Lib.rest NEWLINE (file.bytes.take r₁.told) := by
    rw [hread, Lib.rest_append, ← h.pending]
  have hlog : r₁.known validate file = r.known validate file ++
      logged validate (Lib.lines NEWLINE text) := by
    rw [known, hlines, logged_append, known]
  have hat : r₁.At source runId fromSeq (r.known validate file) :=
    ⟨h.place.runId, h.place.seq, h.place.frame⟩
  have hvalid : valid validate runId (r.known validate file).length (Lib.lines NEWLINE text) = true := by
    obtain ⟨tail, ht⟩ := Lib.lines_prefix NEWLINE (file.bytes.take r₁.told)
      (file.bytes.drop r₁.told)
    rw [List.take_append_drop] at ht
    rw [File.valid, ← ht, hlines, List.append_assoc, valid_append, valid_append] at hv
    simp only [Bool.and_eq_true, Nat.zero_add] at hv
    exact hv.2.1
  obtain ⟨taken, left, hl, hat', hsent, hclose⟩ := lines_spec hat _ hvalid
  have hkept : (r₁.lines validate (Lib.lines NEWLINE text)).1.told = r₁.told ∧
      (r₁.lines validate (Lib.lines NEWLINE text)).1.pending = r₁.pending := lines_told r₁ _
  obtain ⟨tail, htail⟩ : r₁.known validate file <+: file.log validate := r₁.known_prefix file
  refine ⟨taken, ⟨left ++ tail, ?_⟩, ?_⟩
  · rw [← htail, hlog, hl]
    simp
  · have hmoved : ¬ (chunk.isEmpty = true ∧
        (r₁.lines validate (Lib.lines NEWLINE text)).1.moved file = true) := by
      rintro ⟨-, hm⟩
      rw [moved, hkept.1, hn] at hm
      simp only [Bool.not_true, Bool.or_false, decide_eq_true_eq] at hm
      omega
    simp only [step, ← hchunk, ← htext, ← hr₁]
    cases hc : (r₁.lines validate (Lib.lines NEWLINE text)).2.2 with
    | some close =>
      simp only [hc] at hclose ⊢
      refine ⟨hsent, ?_⟩
      refine hclose.imp id fun ⟨h4, x, hx, hxh⟩ => ⟨h4, x, ?_, hxh⟩
      rw [← htail, hlog]
      simp [hx]
    | none =>
      simp only [hc] at hclose
      simp only [hmoved, if_false]
      have hlog' : (r₁.lines validate (Lib.lines NEWLINE text)).1.known validate file =
          r.known validate file ++ taken := by
        rw [known, hkept.1, ← known, hlog, hl, hclose, List.append_nil]
      refine ⟨hsent, ⟨hkept.1 ▸ htold, ?_, ?_⟩, hlog'⟩
      · rw [hkept.2, hkept.1, hpend]
      · rw [hlog']
        exact hat'

end Reader

end ProxyLoop.Serve
