import QuilNode.Hypergraph.SettlementOnce

/-!
# State growth and its price (`settlement_claim.rs`, `engines.rs`)

A vertex or hyperedge is priced by the very value the engine stages, a claim by its marker.  A
deployment or an update is priced by its own length, while what it stages is the metadata vertex.
`growth_balance` is the account of a bundle: what is staged, what is priced and stages nothing,
what is staged besides the price.
-/

namespace Hypergraph

open Results Tries

/-- The vertex or hyperedge data of a change; a deletion has none. -/
def ExecutionChange.bytes : ExecutionChange → Nat
  | .state c => c.value.length
  | .record .. => 0

def State.bytes (s : State) : Nat := (s.changeset.map ExecutionChange.bytes).sum

section Run

variable (p : Primitives) (mode : ExecutionMode) (ctx : MessageContext)

variable {p mode ctx} {s s' : State}

theorem Pushed.bytes {x : ExecutionChange} (h : Pushed s x s') : s'.bytes = s.bytes + x.bytes := by
  simp [State.bytes, h.2]

end Run

end Hypergraph
