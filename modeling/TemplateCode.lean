import TemplateCode.Main
import TemplateCode.Proofs.Parts
import TemplateCode.Proofs.Script
import TemplateCode.Proofs.Visit
import TemplateCode.Proofs.Heights
import TemplateCode.Proofs.Siblings
import TemplateCode.Proofs.Flattening
import TemplateCode.Proofs.Indentation
import TemplateCode.Proofs.Names
import TemplateCode.Proofs.Owners
import TemplateCode.Proofs.Splicing
import TemplateCode.Proofs.Regular
import TemplateCode.Proofs.Structured
import TemplateCode.Proofs.Locality
import TemplateCode.Proofs.Journal
import TemplateCode.Proofs.Loading
import TemplateCode.Proofs.Ignored
import TemplateCode.Proofs.Canonical
import TemplateCode.Proofs.Fitting
import TemplateCode.Proofs.Consulted
import TemplateCode.Proofs.Forms
import TemplateCode.Proofs.Verbatim
import TemplateCode.Proofs.Stripping
import TemplateCode.Proofs.Refusals
import TemplateCode.Proofs.Unterminated
import TemplateCode.Proofs.Removal
import TemplateCode.Proofs.Skeleton
import TemplateCode.Proofs.Ancestors
import TemplateCode.Proofs.Dispatched
import TemplateCode.Proofs.Storing
import TemplateCode.Proofs.Tasks
import TemplateCode.Proofs.Generating
import TemplateCode.Proofs.Quoting
import TemplateCode.Proofs.Saving
import TemplateCode.Proofs.Audit
import TemplateCode.Proofs.Placement
import TemplateCode.Proofs.Patterns
