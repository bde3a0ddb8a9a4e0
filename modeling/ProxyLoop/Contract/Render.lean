import ProxyLoop.Contract.Protocol
import ProxyLoop.Contract.Views

/-!
# The Fast renderer

Every Fast prompt is the profile's system text and one user text made of the profile's sections,
within a budget of characters that the two share.  Over budget, the oldest transcript lines go
first, then the oldest actions.  Nothing else is ever dropped, so the errors of a section are those
of the view, whatever its length.
-/

namespace ProxyLoop.Render

open Protocol (partition)
open Views

/-! ## Profiles -/

inductive SectionKind
  | brief | privateSummary | publicSummary | actions | offers | approval | guidance | hold | status
  | transcript | trigger
  deriving DecidableEq, Repr

/-- `_BLOCKS` -/
def SectionKind.isBlock : SectionKind → Bool
  | .actions | .offers | .guidance | .transcript => true
  | _ => false

structure Profile where
  name : String
  lane : Lane
  system : String
  /-- header and kind, in order -/
  sections : List (String × SectionKind)
  /-- the transcript labels of the partner and of the agent -/
  labels : String × String
  triggers : TriggerKind → Option String
  moves : GuideMove → Option String := fun _ => none
  closing : String := "Respond now per the output format."

def contextBudgetChars : Nat := 12000

def noText : String := "(none)"
def omittedLines : String := "(earlier conversation omitted)"
def omittedActions : String := "- (earlier actions omitted)"

inductive RenderError
  /-- the profile renders the other lane -/
  | lane
  /-- a trigger without a template, or a template that does not format -/
  | template
  | guideSlot | guideMove | contextBudget
  deriving DecidableEq, Repr

/-! ## Rows -/

/-- `s or NONE` -/
def orNone (s : String) : String := if s = "" then noText else s

/-- `_value`.  `isdigit` is of ASCII digits: `record_offer` records no others. -/
def value (slot : ReadbackSlot) : String :=
  let digits := slot.value.toList
  if slot.unit = .usdMinor && !digits.isEmpty && digits.all isDigit then
    let minor := Text.natOf digits
    let cents := toString (minor % 100)
    "$" ++ toString (minor / 100) ++ "." ++ (if minor % 100 < 10 then "0" else "") ++ cents
  else if slot.unit = .months then slot.value ++ " months"
  else slot.value

def slotText : SlotStatus → String
  | .unknown => "unknown"
  | .heard => "heard"
  | .confirmed => "confirmed"

def offerText : OfferStatus → String
  | .open => "open"
  | .withdrawn => "withdrawn"
  | .expired => "expired"
  | .declined => "declined"
  | .accepted => "accepted"

def offer (o : OfferPublic) : String :=
  let slots := "; ".intercalate (o.slots.map fun s =>
    s.field ++ " " ++ value s ++ " [" ++ slotText s.status ++ "]")
  "- " ++ o.offerRef ++ " (revision " ++ toString o.revision ++ ", " ++ offerText o.status ++
    "): " ++ orNone slots

/-- `_resolve`: the value of a slot in public state; none, if it does not resolve. -/
def resolve (v : FastView) (slot : String) : Option String :=
  let (_, kind, rest) := partition ':' slot.toList
  if kind = "fact".toList then
    (v.publicFacts.find? (·.key = String.ofList rest)).map PublicFact.value
  else
    let (_, ref, field) := partition '.' rest
    (v.offers.find? (·.offerRef = String.ofList ref)).bind fun o =>
      if field = [] then some ("offer " ++ String.ofList ref)
      else (o.slots.find? (·.field = String.ofList field)).map value

def resolved (v : FastView) (slot : String) : Except RenderError String :=
  match resolve v slot with
  | some value => .ok (slot ++ " = " ++ value)
  | none => .error .guideSlot

def guide (v : FastView) (profile : Profile) (g : Guide) : Except RenderError String := do
  match profile.moves g.move with
  | none => .error .guideMove
  | some text =>
    if g.slots = [] then return "- " ++ text
    else
      let slots ← g.slots.mapM (resolved v)
      return "- " ++ text ++ " (" ++ "; ".intercalate slots ++ ")"

/-- `template.format(**args)`, of plain fields; none, where it raises.  `field`: the name of the
open field so far. -/
def formatted (args : List (String × String)) (field : Option (List Char)) :
    List Char → Option (List Char)
  | [] => if field.isNone then some [] else none
  | '{' :: cs =>
    match field, cs with
    | none, '{' :: cs => (formatted args none cs).map ('{' :: ·)
    | none, cs => formatted args (some []) cs
    | some _, _ => none
  | '}' :: cs =>
    match field, cs with
    | none, '}' :: cs => (formatted args none cs).map ('}' :: ·)
    | none, _ => none
    | some name, cs =>
      (args.lookup (String.ofList name)).bind fun value =>
        (formatted args none cs).map (value.toList ++ ·)
  | c :: cs =>
    match field with
    | none => (formatted args none cs).map (c :: ·)
    | some name => formatted args (some (name ++ [c])) cs

def format (template : String) (args : List (String × String)) : Except RenderError String :=
  match formatted args none template.toList with
  | some text => .ok (String.ofList text)
  | none => .error .template

/-- `msg.type.lower()` -/
def kindText : S2FType → String
  | .askUser => "ask_user"
  | .tellUser => "tell_user"
  | .guide => "guide"
  | .approvalNotice => "approval_notice"
  | .end => "end"

def trigger (v : FastView) (profile : Profile) : Except RenderError String :=
  match profile.triggers v.trigger.kind with
  | none => .error .template
  | some template =>
    match v.slowMsg, v.trigger.kind, v.pendingApproval with
    | some msg, _, _ => format template [("kind", kindText msg.type), ("text", msg.text)]
    | none, .approvalCard, some card => format template [("readback_text", card.readbackText)]
    | none, .holdWait, _ =>
      format template [("n", (v.trigger.waitS.map toString).getD "None")]
    | none, _, _ => .ok template

/-! ## Sections -/

/-- The newest `n` rows, after a mark if there are older ones. -/
def window (mark : String) (rows : List String) (n : Nat) : List String :=
  (if n < rows.length then [mark] else []) ++ rows.drop (rows.length - n)

def actionRows (v : FastView) : List String := v.actionLog.map ("- " ++ ·)

def lineRows (v : FastView) (profile : Profile) : List String :=
  v.transcript.map fun line =>
    (match line.speaker with
      | .partner => profile.labels.1
      | .agent => profile.labels.2) ++ ": " ++ line.text

def block (kind : SectionKind) (v : FastView) (profile : Profile) (nLines nActions : Nat) :
    Except RenderError String := do
  let rows ← match kind with
    | .actions => .ok (window omittedActions (actionRows v) nActions)
    | .offers => .ok (v.offers.map offer)
    | .guidance => v.guidance.mapM (guide v profile)
    | _ => .ok (window omittedLines (lineRows v profile) nLines)
  return orNone ("\n".intercalate rows)

/-- `_inline` -/
def inlined (kind : SectionKind) (v : FastView) (profile : Profile) : Except RenderError String :=
  match kind with
  | .trigger => trigger v profile
  | .status => .ok v.status.text
  | .hold =>
    .ok ((v.hold.map fun h => "on hold (" ++ Protocol.holdText h.reason ++ ")").getD noText)
  | .brief => .ok (orNone v.brief)
  | .privateSummary => .ok (orNone (v.privateSummary.getD ""))
  | .publicSummary => .ok (orNone v.publicSummary)
  | _ => .ok (orNone ((v.pendingApproval.map ApprovalCard.readbackText).getD ""))

def part (v : FastView) (profile : Profile) (nLines nActions : Nat) :
    String × SectionKind → Except RenderError String
  | (header, kind) =>
    if kind.isBlock then do return header ++ ":\n" ++ (← block kind v profile nLines nActions)
    else do return header ++ ": " ++ (← inlined kind v profile)

def content (v : FastView) (profile : Profile) (nLines nActions : Nat) :
    Except RenderError String := do
  let parts ← profile.sections.mapM (part v profile nLines nActions)
  return "\n\n".intercalate (parts ++ [profile.closing])

/-! ## Under the budget -/

/-- `while len(content) > room and n > 0`: one row fewer each time. -/
def shrink (room : Int) (content : Nat → Except RenderError String) :
    Nat → String → Except RenderError (Nat × String)
  | 0, text => .ok (0, text)
  | n + 1, text =>
    if room < text.length then do shrink room content n (← content n) else .ok (n + 1, text)

/-- `render_messages`: the system and the user text. -/
def renderMessages (v : FastView) (profile : Profile) : Except RenderError (String × String) := do
  if profile.lane ≠ v.lane then throw .lane
  let room : Int := contextBudgetChars - profile.system.length
  let all ← content v profile v.transcript.length v.actionLog.length
  let (nLines, text) ←
    shrink room (content v profile · v.actionLog.length) v.transcript.length all
  let (_, text) ← shrink room (content v profile nLines) v.actionLog.length text
  if room < text.length then throw .contextBudget
  return (profile.system, text)

/-! ## What is dropped

A prompt is the sheet of its sections with two windows, one over the transcript and one over the
actions: the text of every other section stands whatever the windows are.
-/

inductive Piece
  | fixed (text : String)
  | lines (header : String)
  | actions (header : String)

def Piece.text (v : FastView) (profile : Profile) (nLines nActions : Nat) : Piece → String
  | .fixed text => text
  | .lines header =>
    header ++ ":\n" ++
      orNone ("\n".intercalate (window omittedLines (lineRows v profile) nLines))
  | .actions header =>
    header ++ ":\n" ++ orNone ("\n".intercalate (window omittedActions (actionRows v) nActions))

def piece (v : FastView) (profile : Profile) : String × SectionKind → Except RenderError Piece
  | (header, .transcript) => .ok (.lines header)
  | (header, .actions) => .ok (.actions header)
  | (header, kind) => (part v profile 0 0 (header, kind)).map .fixed

/-- The sections of a prompt, or the error of the first that has one. -/
def sheet (v : FastView) (profile : Profile) : Except RenderError (List Piece) :=
  profile.sections.mapM (piece v profile)

def sheetText (v : FastView) (profile : Profile) (pieces : List Piece) (nLines nActions : Nat) :
    String :=
  "\n\n".intercalate (pieces.map (Piece.text v profile nLines nActions) ++ [profile.closing])

/-- The windows that fit: as many of the newest lines as fit beside all the actions, and, with no
line left, as many of the newest actions. -/
structure Newest (Fits : Nat → Nat → Prop) (lines actions nLines nActions : Nat) : Prop where
  fits : Fits nLines nActions
  few : nLines ≤ lines ∧ nActions ≤ actions
  mostLines : ∀ n, nLines < n → n ≤ lines → ¬ Fits n actions
  linesFirst : nLines ≠ 0 → nActions = actions
  mostActions : ∀ a, nActions < a → a ≤ actions → ¬ Fits nLines a

section

variable {v : FastView} {profile : Profile}

theorem map_fixed (n a : Nat) (x : Except RenderError String) :
    (x.map Piece.fixed).map (Piece.text v profile n a) = x := by
  cases x <;> rfl

theorem part_eq (n a : Nat) (s : String × SectionKind) :
    part v profile n a s = (piece v profile s).map (Piece.text v profile n a) := by
  obtain ⟨header, kind⟩ := s
  cases kind with
  | transcript => rfl
  | actions => rfl
  | _ => exact (map_fixed n a _).symm

theorem mapM_map_ok {α β γ ε : Type} (f : α → Except ε β) (g : β → γ) (l : List α) :
    (l.mapM fun x => (f x).map g) = (l.mapM f).map (List.map g) := by
  induction l with
  | nil => rfl
  | cons x l ih =>
    rw [List.mapM_cons, List.mapM_cons, ih]
    cases f x with
    | error e => rfl
    | ok y => cases l.mapM f <;> rfl

theorem content_eq (n a : Nat) :
    content v profile n a = (sheet v profile).map fun pieces => sheetText v profile pieces n a := by
  unfold content sheet
  rw [funext (part_eq n a), mapM_map_ok]
  cases profile.sections.mapM (piece v profile) <;> rfl

/-- The loop keeps the most rows that fit, and none if none do. -/
theorem shrink_ok (room : Int) (text : Nat → String) (n : Nat) :
    ∃ m ≤ n, shrink room (fun n => .ok (text n)) n (text n) = .ok (m, text m) ∧
      (∀ k, m < k → k ≤ n → room < (text k).length) ∧ (m ≠ 0 → (text m).length ≤ room) := by
  induction n with
  | zero => exact ⟨0, Nat.le_refl 0, rfl, fun k pos few => by omega, fun ne => absurd rfl ne⟩
  | succ n ih =>
    by_cases long : room < (text (n + 1)).length
    · obtain ⟨m, few, run, most, fits⟩ := ih
      refine ⟨m, Nat.le_succ_of_le few, ?_, fun k after le => ?_, fits⟩
      · simp only [shrink, if_pos long]
        exact run
      · obtain rfl | lt := Nat.eq_or_lt_of_le le
        · exact long
        · exact most k after (Nat.lt_succ_iff.mp lt)
    · refine ⟨n + 1, Nat.le_refl _, ?_, fun k after le => by omega, fun _ => by omega⟩
      simp only [shrink, if_neg long]

theorem Newest.unique {Fits : Nat → Nat → Prop} {lines actions n a n' a' : Nat}
    (h : Newest Fits lines actions n a) (h' : Newest Fits lines actions n' a') :
    n = n' ∧ a = a' := by
  have same : n = n' := by
    rcases Nat.lt_trichotomy n n' with lt | eq | lt
    · exact absurd (h'.linesFirst (by omega) ▸ h'.fits) (h.mostLines n' lt h'.few.1)
    · exact eq
    · exact absurd (h.linesFirst (by omega) ▸ h.fits) (h'.mostLines n lt h.few.1)
  subst same
  refine ⟨rfl, ?_⟩
  rcases Nat.lt_trichotomy a a' with lt | eq | lt
  · exact absurd h'.fits (h.mostActions a' lt h'.few.2)
  · exact eq
  · exact absurd h.fits (h'.mostActions a lt h.few.2)

/-- The windows that fit are among those that the two loops try. -/
theorem Newest.tried {Fits : Nat → Nat → Prop} {lines actions n a : Nat}
    (h : Newest Fits lines actions n a)
    (none_ : (∀ k ≤ lines, ¬ Fits k actions) ∧ ∀ k ≤ actions, ¬ Fits 0 k) : False := by
  rcases Nat.eq_zero_or_pos n with rfl | pos
  · exact none_.2 a h.few.2 h.fits
  · exact none_.1 n h.few.1 (h.linesFirst (by omega) ▸ h.fits)

def Fits (profile : Profile) (text : Nat → Nat → String) (nLines nActions : Nat) : Prop :=
  profile.system.length + (text nLines nActions).length ≤ contextBudgetChars

theorem not_fits {text : Nat → Nat → String} {n a : Nat} :
    ¬ Fits profile text n a ↔
      (contextBudgetChars : Int) - profile.system.length < (text n a).length := by
  unfold Fits
  omega

theorem renderMessages_error (lane : profile.lane = v.lane) {e : RenderError}
    (bad : sheet v profile = .error e) : renderMessages v profile = .error e := by
  unfold renderMessages
  rw [if_neg (not_not_intro lane), content_eq, bad]
  rfl

/-- What the two loops end in: the newest windows that fit, or no window that does. -/
theorem renderMessages_cases (lane : profile.lane = v.lane) {pieces : List Piece}
    (is_ : sheet v profile = .ok pieces) :
    (∃ n a, Newest (Fits profile (sheetText v profile pieces)) v.transcript.length
        v.actionLog.length n a ∧
      renderMessages v profile = .ok (profile.system, sheetText v profile pieces n a)) ∨
    ((∀ n ≤ v.transcript.length, ¬ Fits profile (sheetText v profile pieces) n v.actionLog.length) ∧
      (∀ a ≤ v.actionLog.length, ¬ Fits profile (sheetText v profile pieces) 0 a) ∧
      renderMessages v profile = .error .contextBudget) := by
  generalize text_ : sheetText v profile pieces = text
  generalize room_ : (contextBudgetChars : Int) - profile.system.length = room
  have longer (n a : Nat) : ¬ Fits profile text n a ↔ room < (text n a).length := by
    rw [not_fits, room_]
  have all : content v profile = fun n a => .ok (text n a) := by
    funext n a
    rw [content_eq, is_, ← text_]
    rfl
  obtain ⟨n, few, lines, most, fits⟩ :=
    shrink_ok room (text · v.actionLog.length) v.transcript.length
  obtain ⟨a, few', acts, most', fits'⟩ := shrink_ok room (text n) v.actionLog.length
  have run : renderMessages v profile =
      if room < (text n a).length then .error .contextBudget
      else .ok (profile.system, text n a) := by
    unfold renderMessages
    rw [if_neg (not_not_intro lane), room_, all]
    simp only [bind, Except.bind, pure, Except.pure, lines, acts]
    split <;> rfl
  have whole (some_ : n ≠ 0) : a = v.actionLog.length := by
    by_contra less
    have := most' v.actionLog.length (by omega) (Nat.le_refl _)
    have := fits some_
    omega
  by_cases long : room < (text n a).length
  · -- neither loop has anything left to drop
    obtain rfl : n = 0 := by
      by_contra some_
      have := fits some_
      rw [whole some_] at long
      omega
    obtain rfl : a = 0 := by
      by_contra some_
      have := fits' some_
      omega
    refine .inr ⟨fun k hk => ?_, fun k hk => ?_, by rw [run, if_pos long]⟩
    · rw [longer]
      rcases Nat.eq_zero_or_pos k with rfl | pos
      · rcases Nat.eq_zero_or_pos v.actionLog.length with none_ | pos
        · rw [none_]
          exact long
        · exact most' _ pos (Nat.le_refl _)
      · exact most k pos hk
    · rw [longer]
      rcases Nat.eq_zero_or_pos k with rfl | pos
      · exact long
      · exact most' k pos hk
  · refine .inl ⟨n, a, ⟨?_, ⟨few, few'⟩, fun k lt le => (longer k _).mpr (most k lt le), whole,
      fun k lt le => (longer n k).mpr (most' k lt le)⟩, by rw [run, if_neg long]⟩
    by_contra bad
    exact long ((longer n a).mp bad)

/-- A prompt holds every section of its view in full but for the two windows, which are the newest
that fit the budget, so that lines go before actions and no row goes that could stay; it is refused
only if no window fits.  A view's own errors do not depend on what is dropped. -/
theorem rendered_newest (v : FastView) (profile : Profile) :
    (profile.lane ≠ v.lane → renderMessages v profile = .error .lane) ∧
    (profile.lane = v.lane → ∀ e, sheet v profile = .error e →
      renderMessages v profile = .error e) ∧
    (profile.lane = v.lane → ∀ pieces, sheet v profile = .ok pieces →
      (∀ system user, renderMessages v profile = .ok (system, user) ↔
        system = profile.system ∧ ∃ n a, Newest (Fits profile (sheetText v profile pieces))
          v.transcript.length v.actionLog.length n a ∧ user = sheetText v profile pieces n a) ∧
      (renderMessages v profile = .error .contextBudget ↔
        (∀ n ≤ v.transcript.length,
          ¬ Fits profile (sheetText v profile pieces) n v.actionLog.length) ∧
        ∀ a ≤ v.actionLog.length, ¬ Fits profile (sheetText v profile pieces) 0 a) ∧
      ∀ e, renderMessages v profile = .error e → e = .contextBudget) := by
  refine ⟨fun other => ?_, fun lane e bad => renderMessages_error lane bad,
    fun lane pieces is_ => ?_⟩
  · unfold renderMessages
    rw [if_pos other]
    rfl
  · rcases renderMessages_cases lane is_ with ⟨n, a, newest, run⟩ | ⟨lines, acts, run⟩
    · refine ⟨fun system user => ⟨fun h => ?_, ?_⟩, ⟨fun h => ?_, fun none_ => ?_⟩, fun e h => ?_⟩
      · rw [run] at h
        cases h
        exact ⟨rfl, n, a, newest, rfl⟩
      · rintro ⟨rfl, n', a', newest', rfl⟩
        obtain ⟨rfl, rfl⟩ := newest.unique newest'
        exact run
      · rw [run] at h
        cases h
      · exact (newest.tried none_).elim
      · rw [run] at h
        cases h
    · refine ⟨fun system user => ⟨fun h => ?_, ?_⟩, ⟨fun _ => ⟨lines, acts⟩, fun _ => run⟩,
        fun e h => ?_⟩
      · rw [run] at h
        cases h
      · rintro ⟨-, n, a, newest, -⟩
        exact (newest.tried ⟨lines, acts⟩).elim
      · rw [run] at h
        cases h
        rfl

end

/-- A call with this line, and a newer one. -/
def viewOf (text : String) : FastView where
  lane := .cp
  brief := ""
  publicSummary := ""
  offers := []
  status := .inCall
  transcript := [⟨"utt-1", .partner, text⟩, ⟨"utt-2", .partner, "It is 60."⟩]
  trigger := repSpoke

def lineProfile : Profile where
  name := "pl_cp_v1"
  lane := .cp
  system := "You are the voice of an AI assistant."
  sections := [("TRANSCRIPT", .transcript)]
  labels := ("REP", "AGENT")
  triggers := fun _ => some "Respond."

theorem orNone_length (s : String) : s.length ≤ (orNone s).length := by
  unfold orNone
  split
  · rename_i empty
    rw [empty]
    exact Nat.zero_le _
  · exact Nat.le_refl _

theorem whole_longer (text : String) {n : Nat} (all : 2 ≤ n) (a : Nat) :
    text.length ≤ (sheetText (viewOf text) lineProfile [.lines "TRANSCRIPT"] n a).length := by
  have rows : window omittedLines (lineRows (viewOf text) lineProfile) n =
      ["REP: " ++ text, "REP: It is 60."] := by
    have shown : ¬ n < 2 := by omega
    have dropped : 2 - n = 0 := by omega
    show (if n < 2 then [omittedLines] else []) ++ List.drop (2 - n) _ = _
    rw [if_neg shown, dropped]
    rfl
  have inner := orNone_length ("\n".intercalate ["REP: " ++ text, "REP: It is 60."])
  simp only [String.intercalate_cons_cons, String.intercalate_singleton, String.length_append] at inner
  simp only [sheetText, List.map_cons, List.map_nil, List.cons_append, List.nil_append, Piece.text,
    rows, String.intercalate_cons_cons, String.intercalate_singleton, String.length_append]
  omega

def lineOf (n : Nat) : String := String.ofList (List.replicate n 'a')

theorem lineOf_length (n : Nat) : (lineOf n).length = n := by
  rw [lineOf, String.length_ofList, List.length_replicate]

/-- A line that leaves no room for another. -/
@[irreducible] def longLine : String := lineOf 12000

/-- The long line goes, and the newest stays. -/
theorem rendered_newest_sample :
    renderMessages (viewOf longLine) lineProfile = .ok (lineProfile.system,
      "TRANSCRIPT:\n(earlier conversation omitted)\nREP: It is 60.\n\n" ++
        "Respond now per the output format.") := by
  have fits : Fits lineProfile (sheetText (viewOf longLine) lineProfile [.lines "TRANSCRIPT"]) 1 0 := by
    unfold Fits
    decide +kernel
  have more (n : Nat) (all : 1 < n) :
      ¬ Fits lineProfile (sheetText (viewOf longLine) lineProfile [.lines "TRANSCRIPT"]) n 0 := by
    have long : longLine.length = 12000 := by
      unfold longLine
      exact lineOf_length 12000
    have longer := whole_longer longLine all 0
    have system : lineProfile.system.length = 37 := by decide +kernel
    rw [not_fits, system, contextBudgetChars]
    omega
  have newest : Newest (Fits lineProfile (sheetText (viewOf longLine) lineProfile
      [.lines "TRANSCRIPT"])) 2 0 1 0 :=
    ⟨fits, by decide, fun n all _ => more n all, fun _ => rfl, fun a all le => by omega⟩
  have rendered := (rendered_newest (viewOf longLine) lineProfile).2.2 rfl [.lines "TRANSCRIPT"] rfl
  exact (rendered.1 _ _).mpr ⟨rfl, 1, 0, newest, by decide +kernel⟩

end ProxyLoop.Render
