import Concretion.Recovery.Failure

/-!
# Deferred nodes

Some nodes are built before the place they belong to has been reached. They are put on a shelf and
taken from there by a ticket, which is good for one use.

- `Shelf.put`: puts a node in the first free slot, so that a shelf is never longer than the most
  nodes it had to hold at the same time.
- `Shelf.take`: takes a node back.
-/

namespace Concretion

/-- The ticket for a deferred node. -/
structure Ticket where
  slot : Nat
  deriving DecidableEq, Repr, Inhabited

/-- Slots for deferred nodes. -/
structure Shelf where
  slots : List (Option Node)
  deriving Repr, Inhabited

namespace Shelf

/-- A shelf without slots. -/
def empty : Shelf := ⟨[]⟩

/-- Puts a node in the first free slot, or in a new one behind the others. -/
def put (shelf : Shelf) (node : Node) : Ticket × Shelf :=
  match shelf.slots.findIdx? Option.isNone with
  | some slot => (⟨slot⟩, ⟨shelf.slots.set slot (some node)⟩)
  | none => (⟨shelf.slots.length⟩, ⟨shelf.slots ++ [some node]⟩)

/-- Takes back the node of a ticket, whose slot is then free. -/
def take (shelf : Shelf) (ticket : Ticket) : Except Failure (Node × Shelf) :=
  match shelf.slots[ticket.slot]? with
  | some (some node) => .ok (node, ⟨shelf.slots.set ticket.slot none⟩)
  | _ => .error (.shape "Arguments" (.nothingDeferred ticket.slot) none)

/-- The number of nodes on the shelf. -/
def count (shelf : Shelf) : Nat := shelf.slots.countP Option.isSome

/-- Is there no node on the shelf? -/
def isEmpty (shelf : Shelf) : Bool := shelf.count == 0

end Shelf

end Concretion
