import FlowTyping.Main
import FlowTyping.Proofs.Graph.Least
import FlowTyping.Proofs.Project.Settled
import FlowTyping.Proofs.Soundness.Module
import FlowTyping.Proofs.Project.Unresolved
import FlowTyping.Proofs.Project.Range
import FlowTyping.Proofs.Project.Relative
import FlowTyping.Proofs.Inference.Star
import FlowTyping.Proofs.Graph.Stored
import FlowTyping.Proofs.Graph.FirstBase
import FlowTyping.Proofs.Graph.Override
import FlowTyping.Proofs.Project.Unrelated
import FlowTyping.Proofs.Flow.Inventory
import FlowTyping.Proofs.Flow.Jump
import FlowTyping.Proofs.Flow.Collapse
import FlowTyping.Proofs.Version.Assignment
import FlowTyping.Proofs.Version.Expression
import FlowTyping.Proofs.Lines
import FlowTyping.Proofs.FileTree
