import ProxyLoop.Contract.Events

/-!
# What the page reads

The live page derives its cards from the events it has and from the outcome of its own POSTs.
Events count only from their fixed emitters.
-/

namespace ProxyLoop.Web

/-- A POST of this page: under way, or what came back. -/
inductive Posting
  | pending
  | ok
  | failed (status : Nat) (error : String) (reason : Option String)
  deriving DecidableEq, Repr

def Posting.failure : Posting → Option (Nat × String × Option String)
  | .failed status error reason => some (status, error, reason)
  | _ => none

/-- The page's error line; an empty reason and a status 0 are not shown. -/
def errorText (status : Nat) (error : String) (reason : Option String) : String :=
  let why := match reason with
    | some r => if r ≠ "" ∧ r ≠ error then ": " ++ r else ""
    | none => ""
  (if status ≠ 0 then toString status ++ " " else "") ++ error ++ why

/-- The emitters of `authority.*`. -/
def authority : List Actor := [.kernel, .guard]

/-- The bump of an `authority.epoch` from its emitters. -/
def bump? (e : Event) : Option EpochBump :=
  match e.payload with
  | .authorityEpoch bump => if authority.contains e.actor then some bump else none
  | _ => none

/-- `epochOf`: the greatest epoch bumped to, or 0. -/
def epochOf (events : List Event) : Nat := ((events.filterMap bump?).map (·.new)).foldl max 0

/-- The reason of the kernel's refusal of a post, which cites `req`. -/
def refusal (events : List Event) (req : Event) : Option String :=
  events.findSome? fun e =>
    match e.payload with
    | .actionDenied intent reason =>
      if e.actor = .kernel ∧ intent = "approval.post" ∧ req.seq ∈ e.causes then some reason else none
    | _ => none

def posted (events : List Event) (subject : PostSubject) (id : String) : Bool :=
  events.any fun e =>
    match e.payload with
    | .approvalPost post => [Actor.ui, .simApprover].contains e.actor && post.subject = subject &&
        post.subjectId = id
    | _ => false

end ProxyLoop.Web
