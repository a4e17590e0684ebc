import Sidecar.Main
import Sidecar.Record.Error
import Sidecar.Proofs.Naming
import Sidecar.Proofs.Lookup
import Sidecar.Proofs.Matching
import Sidecar.Proofs.Components
import Sidecar.Proofs.Language
import Sidecar.Proofs.Expansion
import Sidecar.Proofs.UnderRoot
import Sidecar.Proofs.Selection
import Sidecar.Proofs.Digest
import Sidecar.Proofs.Generation
import Sidecar.Proofs.Agreement
import Sidecar.Proofs.Exclusion
import Sidecar.Proofs.Rendering
import Sidecar.Proofs.Truthfulness
import Sidecar.Proofs.Confinement
import Sidecar.Proofs.Repetition
import Sidecar.Proofs.DryRun
import Sidecar.Proofs.SharedIds
import Sidecar.Proofs.Command
import Sidecar.Proofs.Denotation
import Sidecar.Proofs.Ascent
import Sidecar.Proofs.Union
import Sidecar.Proofs.Relocation
import Sidecar.Proofs.ByteRoots
import Sidecar.Proofs.ContentIds
import Sidecar.Proofs.Digits
import Sidecar.Proofs.Dates
import Sidecar.Proofs.Years
import Sidecar.Proofs.NameFields
import Sidecar.Proofs.Roots
import Sidecar.Proofs.Printing
import Sidecar.Proofs.Layout
import Sidecar.Proofs.Settings
