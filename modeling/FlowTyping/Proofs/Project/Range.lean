/-
No index is ever out of range.

Everything that the program keeps in arrays is named by its position, and nothing checks a position
before it is used.  Here the places where positions come from are put together: the graph, the
scopes of a walk, the unknown parameters, the blocks of flow graphs, and the domains of parameters
with their pairs.  For the graph the statement is about every turn of every request that led to it.
For scopes and slots a walk counts how often it asks for one that is not there, and for blocks a
builder does; these counts stay at zero.
-/
import FlowTyping.Proofs.Domain
import FlowTyping.Proofs.Flow.Range
import FlowTyping.Proofs.Project.Tidy

namespace FlowTyping

namespace Project

end Project

end FlowTyping
