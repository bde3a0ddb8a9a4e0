import ProxyLoop.Contract.Bundle
import ProxyLoop.Contract.Events
import ProxyLoop.Contract.Formatted
import ProxyLoop.Contract.Instant
import ProxyLoop.Contract.Protocol
import ProxyLoop.Contract.Relayed
import ProxyLoop.Contract.Render
import ProxyLoop.Contract.Sentences
import ProxyLoop.Contract.Spoken
import ProxyLoop.Contract.State
import ProxyLoop.Contract.Streamed
import ProxyLoop.Contract.Text
import ProxyLoop.Contract.Time
import ProxyLoop.Contract.Views
import ProxyLoop.Core.Bus
import ProxyLoop.Core.Capabilities
import ProxyLoop.Core.Delivery
import ProxyLoop.Core.Effects
import ProxyLoop.Core.Fold
import ProxyLoop.Core.History
import ProxyLoop.Core.Visible
import ProxyLoop.Env.Approver
import ProxyLoop.Env.Ear
import ProxyLoop.Env.Policy
import ProxyLoop.Env.Reactions
import ProxyLoop.Env.Rep
import ProxyLoop.Eval.Approval
import ProxyLoop.Eval.Audit
import ProxyLoop.Eval.Benchmark
import ProxyLoop.Eval.Cells
import ProxyLoop.Eval.Matrix
import ProxyLoop.Eval.Report
import ProxyLoop.Eval.Resumes
import ProxyLoop.Evidence.Backed
import ProxyLoop.Evidence.Chain
import ProxyLoop.Evidence.Check
import ProxyLoop.Guard.Asked
import ProxyLoop.Guard.Authorize
import ProxyLoop.Guard.Capability
import ProxyLoop.Guard.Confirmation
import ProxyLoop.Guard.Declass
import ProxyLoop.Guard.Mandate
import ProxyLoop.Guard.Needs
import ProxyLoop.Guard.Negation
import ProxyLoop.Guard.Policy
import ProxyLoop.Guard.Readback
import ProxyLoop.Guard.Restored
import ProxyLoop.Guard.Said
import ProxyLoop.Guard.Scope
import ProxyLoop.Guard.Status
import ProxyLoop.Guard.Statuses
import ProxyLoop.Guard.Terms
import ProxyLoop.Guard.Verify
import ProxyLoop.Kernel.Acts
import ProxyLoop.Kernel.Blocks
import ProxyLoop.Kernel.Books
import ProxyLoop.Kernel.Budget
import ProxyLoop.Kernel.Calls
import ProxyLoop.Kernel.CardIds
import ProxyLoop.Kernel.Cards
import ProxyLoop.Kernel.Completion
import ProxyLoop.Kernel.Coverage
import ProxyLoop.Kernel.Decisions
import ProxyLoop.Kernel.Desk
import ProxyLoop.Kernel.Endings
import ProxyLoop.Kernel.Exits
import ProxyLoop.Kernel.Fence
import ProxyLoop.Kernel.Floor
import ProxyLoop.Kernel.Floored
import ProxyLoop.Kernel.Grantable
import ProxyLoop.Kernel.Granting
import ProxyLoop.Kernel.Grants
import ProxyLoop.Kernel.Hinted
import ProxyLoop.Kernel.Lanes
import ProxyLoop.Kernel.Leaves
import ProxyLoop.Kernel.Ledger
import ProxyLoop.Kernel.Limits
import ProxyLoop.Kernel.Lines
import ProxyLoop.Kernel.Linked
import ProxyLoop.Kernel.Mandates
import ProxyLoop.Kernel.Offers
import ProxyLoop.Kernel.Permits
import ProxyLoop.Kernel.Provenance
import ProxyLoop.Kernel.Runs
import ProxyLoop.Kernel.Session
import ProxyLoop.Kernel.Speaker
import ProxyLoop.Kernel.Spend
import ProxyLoop.Kernel.Steps
import ProxyLoop.Kernel.Tools
import ProxyLoop.Kernel.Voiced
import ProxyLoop.Kernel.Wake
import ProxyLoop.Kernel.Written
import ProxyLoop.Lib.Cut
import ProxyLoop.Lib.Dict
import ProxyLoop.Lib.Groups
import ProxyLoop.Lib.Json
import ProxyLoop.Lib.JsonTexts
import ProxyLoop.Lib.Lines
import ProxyLoop.Lib.Matches
import ProxyLoop.Lib.Places
import ProxyLoop.Lib.Reads
import ProxyLoop.Lib.Regex
import ProxyLoop.Lib.Tally
import ProxyLoop.Lib.Trace
import ProxyLoop.Serve.Posts
import ProxyLoop.Serve.Redact
import ProxyLoop.Serve.Served
import ProxyLoop.Serve.Stream
import ProxyLoop.Slow.Authority
import ProxyLoop.Slow.Fates
import ProxyLoop.Slow.FatesKept
import ProxyLoop.Slow.GrantEvent
import ProxyLoop.Slow.Guided
import ProxyLoop.Slow.Hints
import ProxyLoop.Slow.Loop
import ProxyLoop.Slow.OfferSlots
import ProxyLoop.Slow.RecordOffer
import ProxyLoop.Slow.Recorded
import ProxyLoop.Slow.TermsHash
import ProxyLoop.Slow.Tighten
import ProxyLoop.Slow.Transcript
import ProxyLoop.Slow.Voicings
import ProxyLoop.Training.Rows
import ProxyLoop.Web.EventStream
import ProxyLoop.Web.Limits
import ProxyLoop.Web.LiveState
import ProxyLoop.Web.Mandate
import ProxyLoop.Web.Page
import ProxyLoop.Web.Replay
