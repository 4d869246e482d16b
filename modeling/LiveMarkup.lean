import LiveMarkup.Text.Blank
import LiveMarkup.Text.Casing
import LiveMarkup.Text.Visible
import LiveMarkup.Text.Quoted
import LiveMarkup.Text.Search
import LiveMarkup.Number.Binary64
import LiveMarkup.Number.Shortest
import LiveMarkup.Number.Layout
import LiveMarkup.Markup.Basic
import LiveMarkup.Markup.Reference
import LiveMarkup.Markup.Token
import LiveMarkup.Markup.Vocabulary
import LiveMarkup.Markup.Builder
import LiveMarkup.Markup.Print
import LiveMarkup.Template.Basic
import LiveMarkup.Template.Marking
import LiveMarkup.Template.Compiled
import LiveMarkup.Value.Identity
import LiveMarkup.Value.Block
import LiveMarkup.Value.Basic
import LiveMarkup.Value.Conversion
import LiveMarkup.Document.Notice
import LiveMarkup.Document.Basic
import LiveMarkup.Document.Attributes
import LiveMarkup.Document.Edit
import LiveMarkup.Document.Blocks
import LiveMarkup.Document.Build
import LiveMarkup.Document.Reconcile
import LiveMarkup.Document.View
import LiveMarkup.Document.Walk
import LiveMarkup.Rendering.Binding
import LiveMarkup.Rendering.Keyring
import LiveMarkup.Rendering.Instance
import LiveMarkup.Rendering.Lifetime
import LiveMarkup.Rendering.Failure
import LiveMarkup.Rendering.Plan
import LiveMarkup.Rendering.Realization
import LiveMarkup.Rendering.Renderer
import LiveMarkup.Rendering.Description
import LiveMarkup.Proofs.Document.Leftovers
import LiveMarkup.Proofs.Document.Passage
import LiveMarkup.Proofs.Document.Edits
import LiveMarkup.Proofs.Rendering.Instantiation
import LiveMarkup.Proofs.Rendering.FirstRender
import LiveMarkup.Proofs.Rendering.Mounting
import LiveMarkup.Proofs.Rendering.Wandering
import LiveMarkup.Proofs.Rendering.History
import LiveMarkup.Proofs.Rendering.Withdrawal
import LiveMarkup.Proofs.Rendering.Addresses
import LiveMarkup.Proofs.Template.Building
import LiveMarkup.Proofs.Markup.Canonical
import LiveMarkup.Proofs.Markup.Reference
import LiveMarkup.Proofs.Markup.Tokens
import LiveMarkup.Proofs.Markup.Rereading
import LiveMarkup.Proofs.Markup.Regularity
import LiveMarkup.Proofs.Document.Parsing
import LiveMarkup.Proofs.Document.Journeys
import LiveMarkup.Proofs.Template.Finding
import LiveMarkup.Proofs.Rendering.Admission
import LiveMarkup.Proofs.Rendering.Wiring
import LiveMarkup.Proofs.Rendering.Rerendering
import LiveMarkup.Proofs.Rendering.Hosting
import LiveMarkup.Proofs.Rendering.Moving
import LiveMarkup.Proofs.Rendering.Stocking
import LiveMarkup.Proofs.Rendering.Turnover
import LiveMarkup.Proofs.Rendering.Exchange
import LiveMarkup.Proofs.Rendering.Relisting
import LiveMarkup.Proofs.Rendering.Tables
import LiveMarkup.Proofs.Rendering.Laying
import LiveMarkup.Proofs.Rendering.Rows
import LiveMarkup.Proofs.Document.Hollow
import LiveMarkup.Proofs.Document.Ownership
import LiveMarkup.Proofs.Rendering.Emptiness
import LiveMarkup.Proofs.Document.Confinement
import LiveMarkup.Proofs.Document.Seedlings
import LiveMarkup.Proofs.Rendering.Chronicle
import LiveMarkup.Proofs.Rendering.Deeds
import LiveMarkup.Proofs.Rendering.Isolation
import LiveMarkup.Proofs.Document.Refusals
import LiveMarkup.Proofs.Rendering.Attaching
import LiveMarkup.Proofs.Document.Reversal
import LiveMarkup.Proofs.Document.Economy
import LiveMarkup.Proofs.Template.Recognition
import LiveMarkup.Proofs.Rendering.Tenure
import LiveMarkup.Proofs.Rendering.Reckoning
import LiveMarkup.Proofs.Text.Slices
import LiveMarkup.Proofs.Text.Bytes
import LiveMarkup.Proofs.Markup.Offsets
import LiveMarkup.Proofs.Document.Scanner
import LiveMarkup.Proofs.Document.Unfinished
import LiveMarkup.Proofs.Document.Scanning
import LiveMarkup.Proofs.Document.Passes
import LiveMarkup.Proofs.Document.Consumption
import LiveMarkup.Proofs.Markup.Pieces
import LiveMarkup.Proofs.Template.Lookalikes
import LiveMarkup.Proofs.Document.Order
import LiveMarkup.Proofs.Document.Positions
import LiveMarkup.Proofs.Document.Bounds
import LiveMarkup.Proofs.Rendering.Sequence
