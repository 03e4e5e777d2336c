import MarkupTrim.Main
import MarkupTrim.Scan.Lemmas
import MarkupTrim.Proofs.Document.Content
import MarkupTrim.Proofs.Document.Cut
import MarkupTrim.Proofs.Document.Markup
import MarkupTrim.Proofs.Document.TextSpans
import MarkupTrim.Proofs.Document.Again
import MarkupTrim.Proofs.Document.Hint
import MarkupTrim.Proofs.Document.Places
import MarkupTrim.Proofs.Scan.Parts
import MarkupTrim.Proofs.Document.Layout
import MarkupTrim.Proofs.Document.Words
import MarkupTrim.Proofs.Document.History
import MarkupTrim.Proofs.Document.Silence
import MarkupTrim.Proofs.Document.Host
import MarkupTrim.Proofs.Document.Bytes
import MarkupTrim.Proofs.Scan.Grammar
import MarkupTrim.Proofs.Spacing.Exact
import MarkupTrim.Proofs.Spacing.Insertion
import MarkupTrim.Proofs.CommandLine.InPlace
import MarkupTrim.Proofs.CommandLine.Output
import MarkupTrim.Proofs.CommandLine.Selection
import MarkupTrim.Proofs.Document.OpenTag
import MarkupTrim.Proofs.Document.LastTag
import MarkupTrim.Proofs.Document.Names
import MarkupTrim.Proofs.Scan.Loop
import MarkupTrim.Proofs.Document.Events
import MarkupTrim.Proofs.CommandLine.Log
