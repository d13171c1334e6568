import BindingCompiler.Explanation
import BindingCompiler.Main
import BindingCompiler.Session
import BindingCompiler.Proofs.RecursiveDescent
import BindingCompiler.Proofs.Scopes
import BindingCompiler.Proofs.Concatenation
import BindingCompiler.Proofs.Evidence
import BindingCompiler.Proofs.Fixpoints
import BindingCompiler.Proofs.Boundaries
import BindingCompiler.Proofs.Literals
import BindingCompiler.Proofs.Caches
import BindingCompiler.Proofs.Safety
import BindingCompiler.Proofs.Consistency
import BindingCompiler.Proofs.Accounts
import BindingCompiler.Proofs.Identifiers
import BindingCompiler.Proofs.ArgumentLists
import BindingCompiler.Proofs.Idempotence
import BindingCompiler.Proofs.Slots
import BindingCompiler.Proofs.Interruptions
import BindingCompiler.Proofs.LineBreaks
import BindingCompiler.Proofs.Options
import BindingCompiler.Proofs.Locality
import BindingCompiler.Proofs.TagEnds
