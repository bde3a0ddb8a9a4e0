import Mathlib.Logic.Equiv.Basic
import ProxyLoop.Contract.Text
import ProxyLoop.Guard.Authorize
import ProxyLoop.Lib.Trace

/-!
# What the browser may hand a case

The POST routes of a live case.  A page's session cookie and its signed token are bound to a role
and a case; a request is let in by the pair and its echo in the header, and a decision on a card or
a proposal is handed over once.  A request waits between being let in and being answered, and others
run meanwhile; the hand-over itself is one step.

`digest` is the keyed hash of the token and what a call of the case does is the environment's.
-/

namespace ProxyLoop.Posts

open Lib (Dict)

/-! ## Sessions and tokens -/

inductive Role
  | user | rep | operator
  deriving DecidableEq, Repr

def Role.name : Role → String
  | .user => "user"
  | .rep => "rep"
  | .operator => "operator"

/-- `COOKIES`: the names of the session and of its token. -/
def cookieNames : Role → String × String
  | .user => ("pl_session", "pl_csrf")
  | .rep => ("pl_rep_session", "pl_rep_csrf")
  | .operator => ("pl_op_session", "pl_op_csrf")

/-- `NO_CASE`: the operator's. -/
def noCase : String := ""

def signedText (role : Role) (caseId session : String) : String :=
  role.name ++ "\x00" ++ caseId ++ "\x00" ++ session

section

variable (digest : String → String)

def token (role : Role) (caseId session : String) : String :=
  digest (signedText role caseId session)

/-- `signed`: the role's cookie pair is there and was issued for this case. -/
def signed (role : Role) (caseId : String) (cookies : Dict String String) : Bool :=
  match cookies.get? (cookieNames role).1, cookies.get? (cookieNames role).2 with
  | some session, some shown =>
    session ≠ "" && shown ≠ "" && shown = token digest role caseId session
  | _, _ => false

/-- `posted`: `signed`, and the header echoes the token. -/
def posted (role : Role) (caseId : String) (cookies : Dict String String)
    (header : Option String) : Bool :=
  match header, cookies.get? (cookieNames role).2 with
  | some echo, some shown => echo = shown && signed digest role caseId cookies
  | _, _ => false

end

/-! ## Requests -/

inductive Route
  | approve (caseId approvalId : String)
  | mandate (caseId mandateId : String)
  | message (caseId : String)
  | repLine (caseId : String)
  deriving DecidableEq

def Route.caseId : Route → String
  | .approve caseId _ | .mandate caseId _ | .message caseId | .repLine caseId => caseId

def Route.role : Route → Role
  | .repLine _ => .rep
  | _ => .user

inductive Body
  | approval (decision : Decision) (termsHash : String) (authorityEpoch : Int)
  | mandate (decision : Decision) (mandateHash : String) (authorityEpoch : Int)
  | text (text : String)
  deriving DecidableEq

structure Request where
  route : Route
  origin : Option String
  cookies : Dict String String
  header : Option String
  body : Option Body

inductive Reply
  | posted
  | sent
  /-- the path's own check -/
  | badPath
  | refused (status : Nat) (error : String) (reason : Option String := none)
  deriving DecidableEq, Repr

/-- What a case is handed. -/
inductive Item
  | post (post : ApprovalPost)
  | message (text : String)
  | repLine (text : String)
  deriving DecidableEq

def textMax : Nat := 4000

def alnum (c : Char) : Bool := c.isAlphanum

def runId (text : String) : Bool :=
  match text.toList with
  | first :: rest =>
    alnum first && rest.all (fun c => alnum c || c = '_' || c = '.' || c = '-') &&
      rest.length ≤ 127
  | [] => false

/-- `SHA256` -/
def sha256 (text : String) : Bool :=
  text.length = 64 && text.toList.all fun c => c.isDigit || ('a' ≤ c && c ≤ 'f')

/-- The ids of the path, each a `RUN_ID`. -/
def Route.valid : Route → Bool
  | .approve caseId id | .mandate caseId id => runId caseId && runId id
  | .message caseId | .repLine caseId => runId caseId

/-- `TextBody`: as sent, unless blank or too long. -/
def textBody (text : String) : Option String :=
  let blank := text.toList.all Text.isSpace
  if 1 ≤ text.length ∧ text.length ≤ textMax ∧ ¬ blank then some text else none

def decisionBody (subject : PostSubject) (subjectId : String) (decision : Decision)
    (subjectHash : String) (authorityEpoch : Int) : Option Item :=
  if sha256 subjectHash ∧ 0 ≤ authorityEpoch then
    some (.post ⟨subject, subjectId, decision, subjectHash, authorityEpoch.toNat⟩)
  else none

/-- `parse`: the body by the route's model. -/
def parse : Route → Option Body → Option Item
  | .approve _ id, some (.approval decision hash epoch) =>
    decisionBody .approval id decision hash epoch
  | .mandate _ id, some (.mandate decision hash epoch) =>
    decisionBody .mandate id decision hash epoch
  | .message _, some (.text text) => (textBody text).map .message
  | .repLine _, some (.text text) => (textBody text).map .repLine
  | _, _ => none

/-! ## The server -/

inductive Slot
  | posted | failed
  deriving DecidableEq, Repr

abbrev Key := PostSubject × String × String

/-- How a call of the case ends. -/
inductive Outcome
  | done | notOpen | userSimulated | raised
  deriving DecidableEq, Repr

/-- A request let in, with what it hands over. -/
structure Ask where
  request : Request
  item : Item

/-- A call of the case; `bb` is its board at the call. -/
structure Call where
  ask : Ask
  bb : Blackboard
  outcome : Outcome

def Ask.key (a : Ask) : Option Key :=
  match a.item with
  | .post p => some (p.subject, a.request.route.caseId, p.subjectId)
  | _ => none

/-- The server, with what it issued and answered and the calls it made. -/
structure Server where
  slots : Dict Key Slot := .empty
  waiting : List Ask := []
  issued : List (Role × String × String) := []
  calls : List Call := []
  answers : List (Request × Reply) := []

inductive Act
  | page (role : Role) (caseId session : String) (found : Bool)
  | ask (request : Request) (found : Bool)
  | serve (n : Nat) (bb : Blackboard) (outcome : Outcome)

section

variable (digest : String → String) (origins : List String)

/-- The Origin's check, the path's, `allowed` and `parse`. -/
def vet (r : Request) (found : Bool) : Except Reply Ask :=
  if ¬ r.origin.any origins.contains then .error (.refused 403 "origin")
  else if ¬ r.route.valid then .error .badPath
  else if ¬ posted digest r.route.role r.route.caseId r.cookies r.header then
    .error (.refused 403 "csrf")
  else if ¬ found then .error (.refused 404 "unknown case")
  else match parse r.route r.body with
    | none => .error (.refused 422 "invalid body")
    | some item => .ok ⟨r, item⟩

/-- `hand_over`: the answer, the slots after, and whether the case was called. -/
def handOver (slots : Dict Key Slot) (key : Key) (post : ApprovalPost) (bb : Blackboard)
    (outcome : Outcome) : Reply × Dict Key Slot × Bool :=
  match slots.get? key with
  | some .failed => (.refused 503 "unavailable", slots, false)
  | some .posted => (.refused 409 "already_decided", slots, false)
  | none =>
    match ProxyLoop.decide bb post .ui with
    | .error (.denied reason) =>
      let error := if reason = "already_decided" then "already_decided" else "stale"
      (.refused 409 error reason, slots, false)
    -- `decide` raises nothing
    | .error (.raised _) => (.refused 500 "error", slots, false)
    | .ok _ =>
      if outcome = .done then (.posted, slots.set key .posted, true)
      else (.refused 503 "unavailable", slots.set key .failed, true)

def send : Outcome → Reply
  | .done => .sent
  | .notOpen => .refused 409 "not_open"
  | .userSimulated => .refused 409 "user_simulated"
  | .raised => .refused 503 "unavailable"

def Server.answer (s : Server) (a : Ask) (bb : Blackboard) (outcome : Outcome) : Server :=
  match a.item with
  | .post p =>
    let (reply, slots, called) :=
      handOver s.slots (p.subject, a.request.route.caseId, p.subjectId) p bb outcome
    { s with
      slots
      calls := s.calls ++ if called then [⟨a, bb, outcome⟩] else []
      answers := s.answers ++ [(a.request, reply)] }
  | _ => { s with
      calls := s.calls ++ [⟨a, bb, outcome⟩]
      answers := s.answers ++ [(a.request, send outcome)] }

def step (s : Server) : Act → Option Server
  | .page .operator _ session _ =>
    some { s with issued := s.issued ++ [(.operator, noCase, session)] }
  | .page role caseId session found =>
    if runId caseId && found then some { s with issued := s.issued ++ [(role, caseId, session)] }
    else none
  | .ask request found =>
    match vet digest origins request found with
    | .ok a => some { s with waiting := s.waiting ++ [a] }
    | .error reply => some { s with answers := s.answers ++ [(request, reply)] }
  | .serve n bb outcome =>
    s.waiting[n]?.map fun a => { s with waiting := s.waiting.eraseIdx n }.answer a bb outcome

end

/-! ## Tokens are of one page -/

theorem splitFirst {x : Char} {a b r r' : List Char} (ha : x ∉ a) (hb : x ∉ b)
    (h : a ++ x :: r = b ++ x :: r') : a = b ∧ r = r' := by
  induction a generalizing b with
  | nil =>
    cases b with
    | nil => simpa using h
    | cons y b =>
      simp only [List.nil_append, List.cons_append, List.cons.injEq] at h
      exact absurd (h.1 ▸ List.mem_cons_self) hb
  | cons y a ih =>
    cases b with
    | nil =>
      simp only [List.nil_append, List.cons_append, List.cons.injEq] at h
      exact absurd (h.1 ▸ List.mem_cons_self) ha
    | cons z b =>
      simp only [List.cons_append, List.cons.injEq] at h
      obtain ⟨same, rest⟩ := ih (fun hx => ha (List.mem_cons_of_mem _ hx))
        (fun hx => hb (List.mem_cons_of_mem _ hx)) h.2
      exact ⟨by rw [h.1, same], rest⟩

theorem Role.name_inj {role role' : Role} (h : role.name = role'.name) : role = role' := by
  revert h
  cases role <;> cases role' <;> decide

theorem Role.plain (role : Role) : '\x00' ∉ role.name.toList := by
  cases role <;> decide

/-- An id of a path, or no case. -/
def plain (caseId : String) : Prop := '\x00' ∉ caseId.toList

theorem plain_noCase : plain noCase := by
  unfold plain noCase
  decide

theorem plain_runId {caseId : String} (h : runId caseId = true) : plain caseId := by
  unfold runId at h
  unfold plain
  cases text : caseId.toList with
  | nil => simp
  | cons first rest =>
    rw [text] at h
    simp only [Bool.and_eq_true, List.all_eq_true] at h
    intro mem
    rcases List.mem_cons.mp mem with rfl | mem
    · exact absurd h.1.1 (by decide)
    · exact absurd (h.1.2 _ mem) (by decide)

/-- What is signed is read off the text. -/
theorem signedText_inj {role role' : Role} {caseId caseId' session session' : String}
    (case_ : plain caseId) (case' : plain caseId')
    (h : signedText role caseId session = signedText role' caseId' session') :
    role = role' ∧ caseId = caseId' ∧ session = session' := by
  have lists : role.name.toList ++ '\x00' :: (caseId.toList ++ '\x00' :: session.toList) =
      role'.name.toList ++ '\x00' :: (caseId'.toList ++ '\x00' :: session'.toList) := by
    have := congrArg String.toList h
    simpa [signedText, String.toList_append] using this
  obtain ⟨roles, rest⟩ := splitFirst role.plain role'.plain lists
  obtain ⟨cases_, sessions⟩ := splitFirst case_ case' rest
  exact ⟨Role.name_inj (String.toList_inj.mp roles), String.toList_inj.mp cases_,
    String.toList_inj.mp sessions⟩

/-! ## What is handed over -/

def Item.role : Item → Role
  | .repLine _ => .rep
  | _ => .user

theorem role_of_parse {route : Route} {body : Option Body} {item : Item}
    (h : parse route body = some item) : route.role = item.role := by
  unfold parse decisionBody at h
  split at h
  · split at h <;> cases h
    rfl
  · split at h <;> cases h
    rfl
  · obtain ⟨text, -, rfl⟩ := Option.map_eq_some_iff.mp h
    rfl
  · obtain ⟨text, -, rfl⟩ := Option.map_eq_some_iff.mp h
    rfl
  · cases h

/-- A request let in: from an allowed origin, with a well-formed body, and with the pair that the
page of the item's role was given for this case, its token echoed. -/
structure LetIn (origins : List String) (issued : List (Role × String × String)) (a : Ask) :
    Prop where
  origin : ∃ origin ∈ origins, a.request.origin = some origin
  body : parse a.request.route a.request.body = some a.item
  page : ∃ session, (a.item.role, a.request.route.caseId, session) ∈ issued ∧
    a.request.cookies.get? (cookieNames a.item.role).1 = some session
  echo : a.request.header = a.request.cookies.get? (cookieNames a.item.role).2

/-- A request carries no token of a text the server signs that no page was given. -/
def Unforged (digest : String → String) (s : Server) : Act → Prop
  | .ask r _ => ∀ role caseId session,
      r.cookies.get? (cookieNames r.route.role).2 = some (token digest role caseId session) →
        ∃ i ∈ s.issued, signedText role caseId session = signedText i.1 i.2.1 i.2.2
  | _ => True

section

variable {digest : String → String} {origins : List String} {s s' : Server}

theorem LetIn.more {a : Ask} {issued : List (Role × String × String)}
    (h : LetIn origins issued a) (more : List (Role × String × String)) :
    LetIn origins (issued ++ more) a := by
  obtain ⟨session, mem, shown⟩ := h.page
  exact { h with page := ⟨session, List.mem_append_left _ mem, shown⟩ }

theorem posted_eq {role : Role} {caseId : String} {cookies : Dict String String}
    {header : Option String} (h : posted digest role caseId cookies header = true) :
    ∃ session, cookies.get? (cookieNames role).1 = some session ∧
      header = cookies.get? (cookieNames role).2 ∧
      cookies.get? (cookieNames role).2 = some (token digest role caseId session) := by
  unfold posted at h
  split at h
  · rename_i echo shown token_
    rw [Bool.and_eq_true] at h
    obtain ⟨same, h⟩ := h
    rw [token_, of_decide_eq_true same]
    unfold signed at h
    split at h
    · rename_i session shown' session_ token'
      simp only [Bool.and_eq_true, decide_eq_true_eq] at h
      rw [token_] at token'
      cases token'
      exact ⟨session, session_, rfl, by rw [h.2]⟩
    · cases h
  · cases h

theorem valid_caseId {route : Route} (h : route.valid = true) : runId route.caseId = true := by
  cases route with
  | approve | mandate => exact (Bool.and_eq_true_iff.mp h).1
  | message | repLine => exact h

theorem letIn_of_vet {r : Request} {found : Bool} {a : Ask}
    (issued : ∀ i ∈ s.issued, plain i.2.1) (unforged : Unforged digest s (.ask r found))
    (h : vet digest origins r found = .ok a) : LetIn origins s.issued a := by
  unfold vet at h
  split at h
  · cases h
  rename_i origin
  split at h
  · cases h
  rename_i path
  split at h
  · cases h
  rename_i pair
  split at h
  · cases h
  split at h
  · cases h
  rename_i item body
  cases h
  have role := role_of_parse body
  obtain ⟨session, session_, echo, token_⟩ := posted_eq (Decidable.not_not.mp pair)
  obtain ⟨⟨role', caseId, session'⟩, mem, same⟩ := unforged _ _ _ token_
  obtain ⟨rfl, rfl, rfl⟩ := signedText_inj
    (plain_runId (valid_caseId (Decidable.not_not.mp path))) (issued _ mem) same
  have origin : ∃ o ∈ origins, r.origin = some o := by
    cases sent : r.origin with
    | none => simp [sent] at origin
    | some o => exact ⟨o, by simpa [sent] using origin, rfl⟩
  exact
    { origin
      body
      page := ⟨session, role ▸ mem, role ▸ session_⟩
      echo := role ▸ echo }

/-- What the calls and the slots are of each other. -/
structure Once (s : Server) : Prop where
  slots : ∀ key, s.slots.has key = true ↔ key ∈ s.calls.filterMap (·.ask.key)
  once : (s.calls.filterMap (·.ask.key)).Nodup
  decided : ∀ c ∈ s.calls, ∀ p, c.ask.item = .post p →
    ∃ d, ProxyLoop.decide c.bb p .ui = .ok d

/-- A request that was answered with 200. -/
def served (a : Request × Reply) : Option Request :=
  if a.2 = .posted ∨ a.2 = .sent then some a.1 else none

/-- A request whose call of the case went through. -/
def Call.served (c : Call) : Option Request :=
  if c.outcome = .done then some c.ask.request else none

/-- What the answer of a waiting request does. -/
inductive Answered (s : Server) (a : Ask) (bb : Blackboard) (outcome : Outcome) : Server → Prop
  | refused (status : Nat) (error : String) (reason : Option String) :
      Answered s a bb outcome
        { s with answers := s.answers ++ [(a.request, .refused status error reason)] }
  | post (p : ApprovalPost) (slot : Slot) (d : Payload) (reply : Reply) (isPost : a.item = .post p)
      (key : Key) (isKey : a.key = some key) (free : s.slots.get? key = none)
      (accepted : ProxyLoop.decide bb p .ui = .ok d)
      (same : served (a.request, reply) = Call.served ⟨a, bb, outcome⟩) :
      Answered s a bb outcome
        { s with
          slots := s.slots.set key slot
          calls := s.calls ++ [⟨a, bb, outcome⟩]
          answers := s.answers ++ [(a.request, reply)] }
  | text (reply : Reply) (plain : a.key = none) (isText : ∀ p, a.item ≠ .post p)
      (same : served (a.request, reply) = Call.served ⟨a, bb, outcome⟩) :
      Answered s a bb outcome
        { s with
          calls := s.calls ++ [⟨a, bb, outcome⟩]
          answers := s.answers ++ [(a.request, reply)] }

theorem send_served (request : Request) (outcome : Outcome) :
    served (request, send outcome) = if outcome = .done then some request else none := by
  cases outcome <;> rfl

theorem answered (s : Server) (a : Ask) (bb : Blackboard) (outcome : Outcome) :
    Answered s a bb outcome (s.answer a bb outcome) := by
  unfold Server.answer
  cases item : a.item with
  | message | repLine =>
    refine .text _ (by simp [Ask.key, item]) (by simp [item]) ?_
    exact send_served a.request outcome
  | post p =>
    have key : a.key = some (p.subject, a.request.route.caseId, p.subjectId) := by
      simp [Ask.key, item]
    dsimp only
    unfold handOver
    generalize (p.subject, a.request.route.caseId, p.subjectId) = k at key
    cases free : s.slots.get? k with
    | some slot =>
      cases slot <;> simpa using Answered.refused ..
    | none =>
      cases accepted : ProxyLoop.decide bb p .ui with
      | error why =>
        cases why <;> simpa using Answered.refused ..
      | ok d =>
        dsimp only
        by_cases done : outcome = .done
        · rw [if_pos done]
          refine .post p .posted d .posted item k key free accepted ?_
          simp [served, Call.served, done]
        · rw [if_neg done]
          refine .post p .failed d _ item k key free accepted ?_
          simp [served, Call.served, done]

/-! ## Runs -/

structure Sound (origins : List String) (s : Server) : Prop where
  issued : ∀ i ∈ s.issued, plain i.2.1
  waiting : ∀ a ∈ s.waiting, LetIn origins s.issued a
  calls : ∀ c ∈ s.calls, LetIn origins s.issued c.ask
  once : Once s
  answers : s.answers.filterMap served = s.calls.filterMap Call.served

theorem Sound.start : Sound origins {} where
  issued := by simp
  waiting := by simp
  calls := by simp
  once := { slots := by simp [Dict.has], once := List.nodup_nil, decided := by simp }
  answers := rfl

theorem Sound.page (sound : Sound origins s) (role : Role) {caseId : String} (session : String)
    (case_ : plain caseId) :
    Sound origins { s with issued := s.issued ++ [(role, caseId, session)] } :=
  { sound with
    issued := by
      intro i hi
      rcases List.mem_append.mp hi with hi | hi
      · exact sound.issued i hi
      · cases List.mem_singleton.mp hi
        exact case_
    waiting := fun a ha => (sound.waiting a ha).more _
    calls := fun c hc => (sound.calls c hc).more _
    once := { sound.once with } }

theorem Once.post (once : Once s) {c : Call} {key : Key} {slot : Slot} {p : ApprovalPost}
    {d : Payload} (item : c.ask.item = .post p) (isKey : c.ask.key = some key)
    (free : s.slots.get? key = none) (accepted : ProxyLoop.decide c.bb p .ui = .ok d)
    (answers : List (Request × Reply)) :
    Once { s with slots := s.slots.set key slot, calls := s.calls ++ [c], answers } := by
  have new : key ∉ s.calls.filterMap (·.ask.key) := by
    rw [← once.slots, Dict.has, free]
    simp
  refine ⟨fun k => ?_, ?_, fun x hx q hq => ?_⟩
  · have := once.slots k
    by_cases same : k = key
    · simp [same, Dict.has, isKey]
    · simp only [Dict.has, Dict.get?_set_ne _ same] at this ⊢
      rw [this]
      simp [isKey, same]
  · rw [List.filterMap_append, List.nodup_append]
    refine ⟨once.once, by simp [isKey], fun x hx y hy => ?_⟩
    have : y = key := by simpa [isKey] using hy
    rintro rfl
    exact new (this ▸ hx)
  · rcases List.mem_append.mp hx with hx | hx
    · exact once.decided x hx q hq
    · cases List.mem_singleton.mp hx
      rw [item] at hq
      cases hq
      exact ⟨d, accepted⟩

theorem Once.text (once : Once s) {c : Call} (isText : c.ask.key = none)
    (noPost : ∀ p, c.ask.item ≠ .post p) (answers : List (Request × Reply)) :
    Once { s with calls := s.calls ++ [c], answers } := by
  refine ⟨fun k => ?_, ?_, fun x hx q hq => ?_⟩
  · simpa [isText] using once.slots k
  · simpa [isText] using once.once
  · rcases List.mem_append.mp hx with hx | hx
    · exact once.decided x hx q hq
    · cases List.mem_singleton.mp hx
      exact absurd hq (noPost q)

theorem Sound.answered (sound : Sound origins s) {a : Ask} {bb : Blackboard} {outcome : Outcome}
    (letIn : LetIn origins s.issued a) (h : Answered s a bb outcome s') : Sound origins s' := by
  have called : ∀ c ∈ s.calls ++ [⟨a, bb, outcome⟩], LetIn origins s.issued c.ask := by
    intro c hc
    rcases List.mem_append.mp hc with hc | hc
    · exact sound.calls c hc
    · cases List.mem_singleton.mp hc
      exact letIn
  cases h with
  | refused status error reason =>
    exact { sound with
      once := { sound.once with }
      answers := by simpa [served] using sound.answers }
  | post p slot d reply item key isKey free accepted same =>
    exact { sound with
      calls := called
      once := sound.once.post item isKey free accepted _
      answers := by simp [sound.answers, List.filterMap_cons, same] }
  | text reply isText noPost same =>
    exact { sound with
      calls := called
      once := sound.once.text isText noPost _
      answers := by simp [sound.answers, List.filterMap_cons, same] }

theorem served_of_vet {r : Request} {found : Bool} {reply : Reply}
    (h : vet digest origins r found = .error reply) : served (r, reply) = none := by
  unfold vet at h
  repeat' split at h
  all_goals cases h
  all_goals rfl

theorem Sound.step {act : Act} (sound : Sound origins s) (unforged : Unforged digest s act)
    (h : step digest origins s act = some s') : Sound origins s' := by
  unfold Posts.step at h
  split at h
  · cases h
    exact sound.page .operator _ plain_noCase
  · split at h
    · rename_i role caseId session found _ known
      cases h
      exact sound.page role session (plain_runId (Bool.and_eq_true_iff.mp known).1)
    · cases h
  · rename_i request found
    split at h
    · rename_i a admitted
      cases h
      refine { sound with waiting := fun b hb => ?_, once := { sound.once with } }
      rcases List.mem_append.mp hb with hb | hb
      · exact sound.waiting b hb
      · cases List.mem_singleton.mp hb
        exact letIn_of_vet sound.issued unforged admitted
    · rename_i reply refused
      cases h
      exact { sound with
        once := { sound.once with }
        answers := by simpa [served_of_vet refused] using sound.answers }
  · rename_i n bb outcome
    obtain ⟨a, found, rfl⟩ := Option.map_eq_some_iff.mp h
    have rest : Sound origins { s with waiting := s.waiting.eraseIdx n } :=
      { sound with
        waiting := fun b hb => sound.waiting b (List.mem_of_mem_eraseIdx hb)
        once := { sound.once with } }
    have letIn := sound.waiting a (List.mem_of_getElem? found)
    exact rest.answered letIn (Posts.answered _ a bb outcome)

/-- Whatever is sent, in any order and however the answers interleave: a case is handed only what
the page of the item's own role on this case sent, from an allowed origin; a decision that Guard
takes on the board at that moment; one call for each card or proposal; and a request is answered
with 200 exactly when its call went through. -/
theorem handed_of_pages
    (h : Lib.Reach (step digest origins) (Unforged digest) {} s) :
    (∀ c ∈ s.calls, LetIn origins s.issued c.ask) ∧
      (∀ c ∈ s.calls, ∀ p, c.ask.item = .post p →
        ∃ d, ProxyLoop.decide c.bb p .ui = .ok d) ∧
      (s.calls.filterMap (·.ask.key)).Nodup ∧
      s.answers.filterMap served = s.calls.filterMap Call.served := by
  have sound : Sound origins s :=
    h.invariant Sound.start fun _ sound unforged hs => sound.step unforged hs
  exact ⟨sound.calls, sound.once.decided, sound.once.once, sound.answers⟩

end

/-! ## A click -/

/-- A bijection with the digest of the page's text, under a key of zeros. -/
def sampleMac : Equiv.Perm String :=
  Equiv.swap (signedText .user "r1" "s1")
    "0915fa0c5c99eb9b53594070130d9be4f58c09ad8fee3066949df2c6ef574335"

def sampleHash : String := String.ofList (List.replicate 64 'a')

theorem undecided : MandateStatus.proposed = .granted ∨ MandateStatus.proposed = .denied →
    (none : Option Approver).isSome = true := by
  decide

def sampleLimits : Mandate where
  mandateId := "mandate-1"
  mandateHash := sampleHash
  status := .proposed
  epoch := 0
  decided := undecided

def sampleBoard : Blackboard := { priv := { mandate := some sampleLimits } }

def sampleClick : Request where
  route := .mandate "r1" "mandate-1"
  origin := some "http://localhost:8000"
  cookies := (Dict.empty.set "pl_session" "s1").set "pl_csrf" (token sampleMac .user "r1" "s1")
  header := some (token sampleMac .user "r1" "s1")
  body := some (.mandate .granted sampleHash 0)

def sampleOrigins : List String := ["http://localhost:8000"]

def paged : Server := { issued := [(.user, "r1", "s1")] }

def clicked : Server :=
  { paged with waiting := [⟨sampleClick, .post ⟨.mandate, "mandate-1", .granted, sampleHash, 0⟩⟩] }

def clickedOnce : Server :=
  (step sampleMac sampleOrigins clicked (.serve 0 sampleBoard .done)).getD {}

theorem clickedOnce_reach :
    Lib.Reach (step sampleMac sampleOrigins) (Unforged sampleMac) {} clickedOnce := by
  have paged_ : Lib.Reach (step sampleMac sampleOrigins) (Unforged sampleMac) {}
      paged := .next (.page .user "r1" "s1" true) .start trivial rfl
  have unforged : Unforged sampleMac paged (.ask sampleClick true) := by
    intro role caseId session shown
    exact ⟨_, List.mem_singleton.mpr rfl, (sampleMac.injective (Option.some.inj shown)).symm⟩
  have clicked_ : Lib.Reach (step sampleMac sampleOrigins) (Unforged sampleMac) {}
      clicked := .next (.ask sampleClick true) paged_ unforged rfl
  exact .next (.serve 0 sampleBoard .done) clicked_ trivial rfl

theorem handed_of_pages_sample :
    (clickedOnce.calls.filterMap (·.ask.key)).Nodup ∧
      clickedOnce.answers.filterMap served = clickedOnce.calls.filterMap Call.served :=
  (handed_of_pages clickedOnce_reach).2.2

end ProxyLoop.Posts
