import Stylebook.Main
import Stylebook.Reference.Matcher
import Stylebook.Proofs.Mixins.Hoisting
import Stylebook.Proofs.Mixins.Expansion
import Stylebook.Proofs.Mixins.Traversal
import Stylebook.Proofs.Compile.Effect
import Stylebook.Proofs.Compile.Site
import Stylebook.Proofs.Compile.Reflection
import Stylebook.Proofs.Compile.Items
import Stylebook.Proofs.Compile.Faults
import Stylebook.Proofs.Compile.Keys
import Stylebook.Proofs.Reference.Leftmost
import Stylebook.Proofs.Reference.Reader
import Stylebook.Proofs.Requirements
import Stylebook.Proofs.Triggers
import Stylebook.Proofs.Formats
import Stylebook.Proofs.Overrides
import Stylebook.Proofs.Reads
import Stylebook.Proofs.Guide.Batch
import Stylebook.Proofs.Guide.Registration
import Stylebook.Proofs.Compile.Append
import Stylebook.Proofs.Compile.Structure
import Stylebook.Proofs.Concatenation
import Stylebook.Proofs.Json.Sorted
import Stylebook.Proofs.Record.Decoding
import Stylebook.Proofs.Json.Written
import Stylebook.Proofs.Record.RoundTrip
import Stylebook.Proofs.Record.Loading
import Stylebook.Proofs.Mixins.Shuffling
import Stylebook.Proofs.Placement
import Stylebook.Proofs.Compile.Extension
import Stylebook.Proofs.Enumeration
import Stylebook.Proofs.Date.Pattern
import Stylebook.Proofs.Date.Parts
import Stylebook.Proofs.Contributor.Pattern
import Stylebook.Proofs.Resolution
import Stylebook.Proofs.Configuration
import Stylebook.Proofs.Repetition
