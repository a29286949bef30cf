import FlatCode.Arguments
import FlatCode.Code.Binary
import FlatCode.Code.Issue
import FlatCode.Code.Listing
import FlatCode.Compile
import FlatCode.Effect.Set
import FlatCode.Machine.Run
import FlatCode.Program.Build
import FlatCode.Program.Json
import FlatCode.Proofs.Agreement.Entry
import FlatCode.Proofs.Annotations
import FlatCode.Proofs.Confinement
import FlatCode.Proofs.Encoding
import FlatCode.Proofs.Independence
import FlatCode.Proofs.Json.Interchange
import FlatCode.Proofs.Jumps
import FlatCode.Proofs.Narrowing
import FlatCode.Proofs.Order.Program
import FlatCode.Proofs.ReturnPaths
import FlatCode.Proofs.Slots.Ownership
import FlatCode.Proofs.Source.Correctness
import FlatCode.Proofs.Termination
import FlatCode.Returns
import FlatCode.Proofs.Defaults
import FlatCode.Proofs.Building.Running
import FlatCode.Proofs.Building.Basic
import FlatCode.Proofs.Building.Entry
import FlatCode.Proofs.Power
import FlatCode.Proofs.Building.Collection
import FlatCode.Proofs.Indexing
import FlatCode.Proofs.MapLookup
import FlatCode.Proofs.Resolution
import FlatCode.Proofs.Matching
import FlatCode.Proofs.Aliasing
import FlatCode.Proofs.Delimiting
import FlatCode.Proofs.TransformText
import FlatCode.Proofs.Bounds
import FlatCode.Proofs.Kinding.Inference
