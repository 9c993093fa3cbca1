import ScriptInference.Syntax.Outline
import ScriptInference.Catalog.Intrinsics
import ScriptInference.Resolution.Hops
import ScriptInference.Proofs.Entity.Divergence
import ScriptInference.Proofs.Document.Ending
import ScriptInference.Proofs.Hashing.Histories
import ScriptInference.Proofs.Hashing.Exactness
import ScriptInference.Proofs.Collection.Refinement
import ScriptInference.Proofs.Syntax.Partition
import ScriptInference.Proofs.Document.ReservedNames
import ScriptInference.Proofs.Resolution.Refusal
import ScriptInference.Proofs.Document.Territory
import ScriptInference.Proofs.Collection.InsertionOrder
import ScriptInference.Proofs.Registry.Registration
import ScriptInference.Proofs.Resolution.ChainFolding
import ScriptInference.Proofs.Resolution.ScopeCopies
import ScriptInference.Proofs.Resolution.CallOnce
import ScriptInference.Proofs.Catalog.Loading
import ScriptInference.Proofs.Hashing.Sensitivity
import ScriptInference.Proofs.Catalog.CanonicalText
import ScriptInference.Proofs.Resolution.Prototypes
import ScriptInference.Proofs.Syntax.Building
