import EntityGraph.Command.FileTree
import EntityGraph.Hook.Attach
import EntityGraph.Hook.Standard
import EntityGraph.Main
import EntityGraph.Proofs.Ancestors
import EntityGraph.Proofs.Arranged
import EntityGraph.Proofs.Building
import EntityGraph.Proofs.Composition
import EntityGraph.Proofs.Conformance
import EntityGraph.Proofs.Depth
import EntityGraph.Proofs.Elimination
import EntityGraph.Proofs.Emission
import EntityGraph.Proofs.EntryOrder
import EntityGraph.Proofs.Growth
import EntityGraph.Proofs.Idempotence
import EntityGraph.Proofs.Independence
import EntityGraph.Proofs.Misplaced
import EntityGraph.Proofs.Monomorphic
import EntityGraph.Proofs.Positions
import EntityGraph.Proofs.Reload
import EntityGraph.Proofs.Reuse
import EntityGraph.Proofs.Settled
import EntityGraph.Proofs.Sharing
import EntityGraph.Proofs.TargetNames
import EntityGraph.Proofs.Termination
import EntityGraph.Proofs.Trimming
import EntityGraph.Proofs.UnusedEntry
import EntityGraph.Proofs.Writing
import EntityGraph.Validate.Handler
