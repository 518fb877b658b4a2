import GherkinIndex.Main
import GherkinIndex.Tag.Config
import GherkinIndex.Proofs.Batch.Schedule
import GherkinIndex.Proofs.Feature.Ledger
import GherkinIndex.Proofs.Feature.Listing
import GherkinIndex.Proofs.Report.Markup
import GherkinIndex.Proofs.Feature.Layout
import GherkinIndex.Proofs.Disk.Growth
import GherkinIndex.Proofs.Feature.Inert
import GherkinIndex.Proofs.Feature.File
import GherkinIndex.Proofs.Command.Delivery
import GherkinIndex.Proofs.Options.Precedence
import GherkinIndex.Proofs.Tag.Contents
import GherkinIndex.Proofs.Path.Root
import GherkinIndex.Proofs.Discovery.Exact
import GherkinIndex.Proofs.Command.Trace
import GherkinIndex.Proofs.Path.Marker
import GherkinIndex.Proofs.Feature.Classified
import GherkinIndex.Proofs.Feature.Siblings
import GherkinIndex.Proofs.Feature.Template
import GherkinIndex.Proofs.Tag.Merge
import GherkinIndex.Proofs.Report.Sorted
import GherkinIndex.Proofs.Line.Kinds
import GherkinIndex.Proofs.Line.Tags
import GherkinIndex.Proofs.Locale.Declaration
import GherkinIndex.Proofs.Path.Cut
import GherkinIndex.Proofs.Tag.Algebra
import GherkinIndex.Proofs.Feature.Titles
import GherkinIndex.Proofs.Report.Outline
