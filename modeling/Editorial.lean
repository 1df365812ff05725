import Editorial.Api.Drafts
import Editorial.Api.Handler
import Editorial.Api.Input
import Editorial.Api.Path
import Editorial.Api.Processes
import Editorial.Api.Request
import Editorial.Api.Response
import Editorial.Api.Route
import Editorial.Conditions
import Editorial.Draft.Access
import Editorial.Draft.Direct
import Editorial.Draft.Lifecycle
import Editorial.Draft.Placement
import Editorial.Draft.Seating
import Editorial.Draft.View
import Editorial.Event.Delivery
import Editorial.Event.Kind
import Editorial.Failure
import Editorial.Json.Basic
import Editorial.Json.Encoding
import Editorial.Json.Literal
import Editorial.Json.Reader
import Editorial.Json.Whole
import Editorial.Json.Writer
import Editorial.Log.Line
import Editorial.Number.Binary
import Editorial.Number.Numeral
import Editorial.Number.Shortest
import Editorial.Operation
import Editorial.Ordered
import Editorial.Ordered.Arrange
import Editorial.Process.Defect
import Editorial.Process.Definitions
import Editorial.Process.Description
import Editorial.Process.Permission
import Editorial.Process.Reach
import Editorial.Process.Reader
import Editorial.Process.Validation
import Editorial.Process.Version
import Editorial.Proofs.Api.Authorization
import Editorial.Proofs.Api.Confidentiality
import Editorial.Proofs.Api.Listing
import Editorial.Proofs.Api.Refusal
import Editorial.Proofs.Api.Resilience
import Editorial.Proofs.Draft.Advance
import Editorial.Proofs.Draft.Atomicity
import Editorial.Proofs.Draft.Autofill
import Editorial.Proofs.Draft.Beginning
import Editorial.Proofs.Draft.Choice
import Editorial.Proofs.Draft.Effect
import Editorial.Proofs.Draft.Fairness
import Editorial.Proofs.Draft.FreeSlots
import Editorial.Proofs.Draft.Grants
import Editorial.Proofs.Draft.Handover
import Editorial.Proofs.Draft.History
import Editorial.Proofs.Draft.Integrity
import Editorial.Proofs.Draft.Offer
import Editorial.Proofs.Draft.Outage
import Editorial.Proofs.Draft.Permissions
import Editorial.Proofs.Draft.Position
import Editorial.Proofs.Draft.Publication
import Editorial.Proofs.Draft.Records
import Editorial.Proofs.Draft.Refusal
import Editorial.Proofs.Draft.Roles
import Editorial.Proofs.Draft.Seating
import Editorial.Proofs.Draft.SingleEditor
import Editorial.Proofs.Draft.Visibility
import Editorial.Proofs.Draft.Work
import Editorial.Proofs.Event.Delivery
import Editorial.Proofs.Event.Indifference
import Editorial.Proofs.Event.Narration
import Editorial.Proofs.Event.Refinement
import Editorial.Proofs.Event.Replay
import Editorial.Proofs.Event.Told
import Editorial.Proofs.Event.Untold
import Editorial.Proofs.Operation
import Editorial.Proofs.Ordered
import Editorial.Proofs.Process.Acceptance
import Editorial.Proofs.Process.Admission
import Editorial.Proofs.Process.Arrangement
import Editorial.Proofs.Process.Change
import Editorial.Proofs.Process.Checks
import Editorial.Proofs.Process.Conclusion
import Editorial.Proofs.Process.Constraints
import Editorial.Proofs.Process.Deletion
import Editorial.Proofs.Process.Diagnosis
import Editorial.Proofs.Process.Graph
import Editorial.Proofs.Process.Judgement
import Editorial.Proofs.Process.Misreading
import Editorial.Proofs.Process.Names
import Editorial.Proofs.Process.Numbering
import Editorial.Proofs.Process.Permanence
import Editorial.Proofs.Process.Positions
import Editorial.Proofs.Process.Reach
import Editorial.Proofs.Process.Reading
import Editorial.Proofs.Process.Refusal
import Editorial.Proofs.Process.RoundTrip
import Editorial.Proofs.Process.Succession
import Editorial.Proofs.Process.Work
import Editorial.Proofs.Reachable
import Editorial.Proofs.Refusal
import Editorial.Proofs.Run
import Editorial.Proofs.Store.Kept
import Editorial.Proofs.Store.Links
import Editorial.Proofs.Store.Sound
import Editorial.Proofs.Store.Storable
import Editorial.Proofs.Store.Table
import Editorial.Proofs.Store.Teams
import Editorial.Proofs.Text.Strip
import Editorial.Proofs.Transition
import Editorial.Report
import Editorial.Session
import Editorial.Settings
import Editorial.Store.Basic
import Editorial.Store.Listing
import Editorial.Store.Row
import Editorial.Team
import Editorial.Text.Blank
import Editorial.Text.Digit
import Editorial.Text.Piece
import Editorial.Text.Printable
import Editorial.Text.Quoted
import Editorial.Text.Utf8
import Editorial.Time
import Editorial.Proofs.Event.Loss
import Editorial.Proofs.Api.Field
import Editorial.Proofs.Draft.Copies
import Editorial.Proofs.Draft.Independence
import Editorial.Proofs.Api.Assignments
import Editorial.Proofs.Process.Exploration
