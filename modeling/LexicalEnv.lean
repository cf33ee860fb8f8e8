import LexicalEnv.Closure
import LexicalEnv.Actor.Shared
import LexicalEnv.Report.Text
import LexicalEnv.Proofs.Named
import LexicalEnv.Proofs.Chain
import LexicalEnv.Proofs.Sound
import LexicalEnv.Proofs.Effect
import LexicalEnv.Proofs.Call
import LexicalEnv.Proofs.Nesting
import LexicalEnv.Proofs.Write
import LexicalEnv.Proofs.Extension
import LexicalEnv.Proofs.Refusal
import LexicalEnv.Proofs.Lookup
import LexicalEnv.Proofs.Visible
import LexicalEnv.Proofs.Registry
import LexicalEnv.Proofs.Sharing
import LexicalEnv.Proofs.History
import LexicalEnv.Proofs.Parsing
import LexicalEnv.Proofs.Scoping
import LexicalEnv.Proofs.Past
import LexicalEnv.Proofs.Clients
import LexicalEnv.Proofs.Form
import LexicalEnv.Proofs.ReadBack
import LexicalEnv.Proofs.Notation
import LexicalEnv.Proofs.Lifecycle
import LexicalEnv.Proofs.Ownership
import LexicalEnv.Proofs.Filling
import LexicalEnv.Proofs.Respelling
import LexicalEnv.Proofs.Atomicity
import LexicalEnv.Proofs.Messages
import LexicalEnv.Proofs.Tracing
import LexicalEnv.Proofs.Escaping
import LexicalEnv.Proofs.Reach
import LexicalEnv.Proofs.Counting
import LexicalEnv.Proofs.Formatting
import LexicalEnv.Proofs.Content
import LexicalEnv.Proofs.Reporting
import LexicalEnv.Proofs.Suggesting
