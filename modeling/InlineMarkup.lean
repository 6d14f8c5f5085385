import InlineMarkup.Config.File
import InlineMarkup.Engine.Basic
import InlineMarkup.Proofs.Backslashes
import InlineMarkup.Proofs.BareUrls
import InlineMarkup.Proofs.Compaction
import InlineMarkup.Proofs.Concatenation
import InlineMarkup.Proofs.FenceChoice
import InlineMarkup.Proofs.Fences
import InlineMarkup.Proofs.FixedPoints
import InlineMarkup.Proofs.HandlerContract
import InlineMarkup.Proofs.Hints
import InlineMarkup.Proofs.InputPolicy
import InlineMarkup.Proofs.Ledger
import InlineMarkup.Proofs.Logging
import InlineMarkup.Proofs.Lossless
import InlineMarkup.Proofs.NormalForm
import InlineMarkup.Proofs.OpenTags
import InlineMarkup.Proofs.Recognition
import InlineMarkup.Proofs.Sessions
import InlineMarkup.Proofs.Settings
import InlineMarkup.Proofs.Unwrapping
