import Stencil.Main
import Stencil.Pattern.Outline
import Stencil.Proofs.Target.Tiling
import Stencil.Proofs.Target.Nesting
import Stencil.Proofs.Target.Scopes
import Stencil.Proofs.Match.Bindings
import Stencil.Proofs.Match.CaptureEnds
import Stencil.Proofs.Match.Reading
import Stencil.Proofs.Match.Alignment
import Stencil.Proofs.NameMap
import Stencil.Proofs.Target.Scanner
import Stencil.Proofs.Text.Collapse
import Stencil.Proofs.Match.Scan
import Stencil.Proofs.Rewrite
import Stencil.Proofs.Text.Utf8
import Stencil.Proofs.Edit
import Stencil.Proofs.Lint
import Stencil.Proofs.Project
import Stencil.Proofs.Match.Selection
import Stencil.Proofs.Target.Fragment
import Stencil.Proofs.Match.Captures
import Stencil.Proofs.Pattern.Acceptance
import Stencil.Proofs.Pattern.Source
import Stencil.Proofs.Pattern.Likeness
import Stencil.Proofs.Pattern.Holes
import Stencil.Proofs.Substitution
import Stencil.Proofs.Rule
import Stencil.Proofs.Agreement
import Stencil.Proofs.Match.Checked
import Stencil.Proofs.Match.Bounds
import Stencil.Proofs.Match.Constraint
import Stencil.Proofs.Match.Confinement
import Stencil.Proofs.Match.TextEnds
import Stencil.Proofs.Match.Layout
import Stencil.Proofs.Match.Effort
import Stencil.Proofs.Renaming
import Stencil.Proofs.Target.Acceptance
import Stencil.Proofs.Target.Groups
import Stencil.Proofs.Target.Bytes
import Stencil.Proofs.Target.Content
import Stencil.Proofs.Source
import Stencil.Proofs.Diagnostic
import Stencil.Proofs.Path
import Stencil.Proofs.Discover
import Stencil.Proofs.Changes
import Stencil.Proofs.Workers
import Stencil.Proofs.Pattern.Traversal
import Stencil.Proofs.Pattern.Building
import Stencil.Proofs.Pattern.Parsing
import Stencil.Proofs.Pattern.Resuming
import Stencil.Proofs.Repetition
import Stencil.Proofs.Report.Document
import Stencil.Proofs.Report.Lines
