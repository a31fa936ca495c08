import Concretion.Proofs.Inversion
import Concretion.Proofs.Spelled
import Concretion.Recovery.Rule.Binding
import Mathlib.Algebra.GroupWithZero.Nat

/-!
# Paying for what is put into a tree

Some parts of a tree must not be there for nothing: a symbol at a fallback position has to come with
a warning, and an export statement with a name that is exported. A tariff sets a price on such parts
and on a warning. A recovery then never spends more than it takes in, and this can be followed step
by step: the price of what is open or deferred, and of what a computation holds in its hands, grows
by no more than the price of the warnings that are added.

- `Tariff`: the prices, with `Tariff.tree`, `Tariff.stack`, `Tariff.session` adding them up.
- `Tariff.spelling`, `Tariff.silence`, `Tariff.nesting`: the tariffs in use.
- `Place`: whether a node has to be open above the root, or must not be.
- `Tariff.Hides`: names that lead to no export statement where this would have to be paid for.
- `Paid`: a computation that can be paid for, and that goes the same way without the metadata of the
  module where it has to.
- `Paid.bind`, `Paid.forM` and so on: what is put together can be paid for if the parts can.
-/

namespace Concretion

/-- The prices of the parts of a tree. Names and literals are free, and so is every symbol that
spells the text. Any other symbol can be paid for with a warning. -/
structure Tariff (source : Source) where
  symbol : Symbol → Nat
  /-- The price of being an export statement. -/
  statement : Nat
  warning : Nat
  /-- The statements right below the root are free, apart from what is below them. -/
  freeTop : Bool
  /-- The metadata of the module must not be asked for to any effect. -/
  discreet : Prop
  symbol_literal : ∀ located : Symbol, located.kind.isLiteral = true → symbol located = 0
  symbol_spelled : ∀ located : Symbol, source.spells located = true → symbol located = 0
  symbol_le : ∀ located : Symbol, symbol located ≤ warning
  statement_free : freeTop = false → statement = 0

namespace Tariff

/-! ## Tariffs in use -/

/-- Each symbol that does not spell the text costs one warning. -/
def spelling (source : Source) : Tariff source where
  symbol located := if !located.kind.isLiteral && !source.spells located then 1 else 0
  statement := 0
  warning := 1
  freeTop := false
  discreet := False
  symbol_literal located h := by rw [h, Bool.not_true, Bool.false_and, if_neg Bool.false_ne_true]
  symbol_spelled located h := by
    rw [h, Bool.not_true, Bool.and_false, if_neg Bool.false_ne_true]
  symbol_le located := by
    split
    · exact Nat.le_refl 1
    · exact Nat.zero_le 1
  statement_free _ := rfl

/-- Nothing has a price, but the metadata must not be asked for to any effect. -/
def silence (source : Source) : Tariff source where
  symbol _ := 0
  statement := 0
  warning := 0
  freeTop := false
  discreet := True
  symbol_literal _ _ := rfl
  symbol_spelled _ _ := rfl
  symbol_le _ := Nat.le_refl _
  statement_free _ := rfl

/-- Export statements below the top level have a price that nothing pays for. -/
def nesting (source : Source) : Tariff source where
  symbol _ := 0
  statement := 1
  warning := 0
  freeTop := true
  discreet := False
  symbol_literal _ _ := rfl
  symbol_spelled _ _ := rfl
  symbol_le _ := Nat.le_refl _
  statement_free := nofun

variable {source : Source} (tariff : Tariff source)

/-! ## Prices of trees -/

/-- The price of several symbols. -/
def symbols (located : List Symbol) : Nat := (located.map tariff.symbol).sum

/-- The price of two parentheses by their places. -/
def parens (places : Nat × Nat) : Nat :=
  tariff.symbol (Token.leftParen.at places.1) + tariff.symbol (Token.rightParen.at places.2)

/-- The price of a node for itself. -/
def kind (kind : NodeKind) : Nat :=
  tariff.symbols kind.symbols + if kind.isExport then tariff.statement else 0

/-- The price of a tree. -/
def tree (node : Node) : Nat := (node.preorder.map fun part => tariff.kind part.kind).sum

/-- The price of several trees. -/
def trees (nodes : List Node) : Nat := (nodes.map tariff.tree).sum

/-- The price of what is below a node. -/
def below (node : Node) : Nat := tariff.trees node.children

/-- The price of all that is below several nodes. -/
def allBelow (nodes : List Node) : Nat := (nodes.map tariff.below).sum

@[simp] theorem symbols_nil : tariff.symbols [] = 0 := rfl

@[simp] theorem symbols_cons (located : Symbol) (rest : List Symbol) :
    tariff.symbols (located :: rest) = tariff.symbol located + tariff.symbols rest := rfl

@[simp] theorem symbols_toList (located : Option Symbol) :
    tariff.symbols located.toList = located.elim 0 tariff.symbol := by
  cases located <;> rfl

@[simp] theorem trees_nil : tariff.trees [] = 0 := rfl

@[simp] theorem trees_cons (node : Node) (rest : List Node) :
    tariff.trees (node :: rest) = tariff.tree node + tariff.trees rest := rfl

@[simp] theorem trees_append (a b : List Node) :
    tariff.trees (a ++ b) = tariff.trees a + tariff.trees b := by
  simp [trees]

@[simp] theorem allBelow_append (a b : List Node) :
    tariff.allBelow (a ++ b) = tariff.allBelow a + tariff.allBelow b := by
  simp [allBelow]

@[simp] theorem allBelow_singleton (node : Node) : tariff.allBelow [node] = tariff.below node :=
  Nat.add_zero _

/-- What a list of trees costs is counted node by node. -/
theorem sum_preorderList (nodes : List Node) :
    ((Node.preorderList nodes).map fun part => tariff.kind part.kind).sum = tariff.trees nodes := by
  induction nodes with
  | nil => rfl
  | cons node rest ih =>
    rw [Node.preorderList, List.map_append, List.sum_append, ih]
    rfl

/-- A node is paid for by itself and what is below it. -/
theorem tree_eq (node : Node) : tariff.tree node = tariff.kind node.kind + tariff.below node := by
  obtain ⟨kind, span, children, ownsSemicolon⟩ := node
  rw [tree, Node.preorder, List.map_cons, List.sum_cons, sum_preorderList]
  rfl

/-- Without its root a tree costs no more. -/
theorem below_le (node : Node) : tariff.below node ≤ tariff.tree node := by
  rw [tree_eq]
  exact Nat.le_add_left _ _

/-- Neither the span nor the semicolon of a node has a price. -/
theorem tree_mark (node : Node) (flag : Bool) :
    tariff.tree { node with ownsSemicolon := flag } = tariff.tree node := by
  rw [tree_eq, tree_eq]
  rfl

@[simp] theorem tree_mk (kind : NodeKind) (span : Span) (children : List Node) (flag : Bool) :
    tariff.tree ⟨kind, span, children, flag⟩ = tariff.kind kind + tariff.trees children :=
  tariff.tree_eq _

@[simp] theorem tree_leaf (kind : NodeKind) (span : Span) :
    tariff.tree (.leaf kind span) = tariff.kind kind :=
  tariff.tree_eq _

@[simp] theorem tree_branch (kind : NodeKind) (span : Span) (children : List Node) :
    tariff.tree (.branch kind span children) = tariff.kind kind + tariff.trees children :=
  tariff.tree_eq _

@[simp] theorem tree_empty (offset : Nat) : tariff.tree (.empty offset) = 0 := tariff.tree_eq _

@[simp] theorem tree_elision (offset : Nat) : tariff.tree (.elision offset) = 0 := tariff.tree_eq _

/-- The order of trees does not matter for their price. -/
theorem trees_reverse (nodes : List Node) : tariff.trees nodes.reverse = tariff.trees nodes := by
  simp only [trees, List.map_reverse, List.sum_reverse]

/-- A list of trees costs what its last tree does and what the others do. -/
theorem trees_dropLast {nodes : List Node} {last : Node} (h : nodes.getLast? = some last) :
    tariff.trees nodes = tariff.trees nodes.dropLast + tariff.tree last := by
  conv_lhs => rw [← List.dropLast_append_getLast? last h]
  rw [trees_append, trees_cons, trees_nil, Nat.add_zero]

/-- The same goes for what is below them. -/
theorem allBelow_dropLast {nodes : List Node} {last : Node} (h : nodes.getLast? = some last) :
    tariff.allBelow nodes = tariff.allBelow nodes.dropLast + tariff.below last := by
  conv_lhs => rw [← List.dropLast_append_getLast? last h]
  rw [allBelow_append, allBelow_singleton]

/-! ## Prices of sessions -/

/-- The price of the root. -/
def root (node : Node) : Nat :=
  if tariff.freeTop then tariff.allBelow node.children else tariff.tree node

/-- The price of what is open. -/
def stack (stack : Stack) : Nat := tariff.root stack.root + tariff.trees stack.opened

/-- The price of what is deferred. -/
def shelf (shelf : Shelf) : Nat := (shelf.slots.map fun slot => slot.elim 0 tariff.tree).sum

/-- The price of a session. -/
def session (session : Session) : Nat := tariff.stack session.stack + tariff.shelf session.shelf

/-- What the warnings of a session pay for. -/
def granted (session : Session) : Nat := tariff.warning * session.warnings.size

/-- An open node costs what it would as a closed one. -/
theorem stack_push (stack : Stack) (node : Node) :
    tariff.stack (stack.push node) = tariff.stack stack + tariff.tree node := by
  simp only [Tariff.stack, Stack.push, trees_cons]
  omega

/-- Other children of the innermost open node are paid for by the difference. If that node is the
root, they may be free themselves. -/
theorem stack_setChildren {stack : Stack} {nodes : List Node} {credit : Nat}
    (htrees : (stack.opened = [] → tariff.freeTop = false) →
      tariff.trees nodes ≤ tariff.trees stack.children + credit)
    (hbelow : stack.opened = [] → tariff.freeTop = true →
      tariff.allBelow nodes ≤ tariff.allBelow stack.children + credit) :
    tariff.stack (stack.setChildren nodes) ≤ tariff.stack stack + credit := by
  obtain ⟨⟨kind, span, children, flag⟩, opened⟩ := stack
  -- The root may be free, and then only what is below its children has a price.
  cases opened with
  | nil =>
    simp only [Stack.setChildren, Stack.modifyCurrent, Tariff.stack, root, tree_mk, trees_nil]
    split
    · next hfree =>
      have hle := hbelow rfl hfree
      simp only [Stack.children, Stack.current] at hle
      omega
    · next hpriced =>
      have hle := htrees fun _ => Bool.eq_false_iff.2 hpriced
      simp only [Stack.children, Stack.current] at hle
      omega
  | cons node outer =>
    obtain ⟨kind', span', children', flag'⟩ := node
    have hle := htrees fun hnil => absurd hnil (List.cons_ne_nil _ _)
    simp only [Stack.children, Stack.current] at hle
    simp only [Stack.setChildren, Stack.modifyCurrent, Tariff.stack, trees_cons, tree_mk]
    omega

/-- A child that is attached adds no more than its own price. -/
theorem stack_attach (stack : Stack) (node : Node) :
    tariff.stack (stack.attach node) ≤ tariff.stack stack + tariff.tree node := by
  have hbelow := tariff.below_le node
  rw [stack.attach_eq_setChildren]
  refine tariff.stack_setChildren (fun _ => ?_) fun _ _ => ?_
  · simp
  · simpa using hbelow

/-- A node costs the same while it is deferred. -/
theorem shelf_put (shelf : Shelf) (node : Node) :
    tariff.shelf (shelf.put node).2 = tariff.shelf shelf + tariff.tree node := by
  simp only [Shelf.put, Tariff.shelf]
  split
  · next slot hslot =>
    obtain ⟨hlt, hnone, -⟩ := List.findIdx?_eq_some_iff_getElem.1 hslot
    have hfree : shelf.slots[slot] = none := Option.isNone_iff_eq_none.1 hnone
    have hsplit : shelf.slots = shelf.slots.take slot ++ none :: shelf.slots.drop (slot + 1) := by
      rw [← hfree, List.getElem_cons_drop, List.take_append_drop]
    rw [List.set_eq_take_append_cons_drop, if_pos hlt]
    conv_rhs => rw [hsplit]
    simp only [List.map_append, List.map_cons, List.sum_append, List.sum_cons, Option.elim]
    omega
  · simp

/-- What is taken back has been paid for before. -/
theorem shelf_take {shelf after : Shelf} {ticket : Ticket} {node : Node}
    (h : shelf.take ticket = .ok (node, after)) :
    tariff.shelf after + tariff.tree node = tariff.shelf shelf := by
  simp only [Shelf.take] at h
  split at h
  · next found hfound =>
    cases h
    obtain ⟨hlt, hnode⟩ := List.getElem?_eq_some_iff.1 hfound
    have hsplit : shelf.slots = shelf.slots.take ticket.slot ++
        some node :: shelf.slots.drop (ticket.slot + 1) := by
      rw [← hnode, List.getElem_cons_drop, List.take_append_drop]
    simp only [Tariff.shelf]
    rw [List.set_eq_take_append_cons_drop, if_pos hlt]
    conv_rhs => rw [hsplit]
    simp only [List.map_append, List.map_cons, List.sum_append, List.sum_cons, Option.elim]
    omega
  · cases h

end Tariff

/-! ## Names -/

/-- No export statement that has a price can come from the name: the name is not exported, and it is
not the one made up for default exports. -/
structure Tariff.HidesName {scope : Scope} (tariff : Tariff scope.source) (name : String) :
    Prop where
  hidden : tariff.discreet ∨ tariff.statement ≠ 0 → ExportStatus.of scope.info name = .hidden
  plain : tariff.statement = 0 ∨ name ≠ defaultBindingName

/-- No export statement that has a price can come from any of the names. -/
def Tariff.Hides {scope : Scope} (tariff : Tariff scope.source) (names : List String) : Prop :=
  ∀ name ∈ names, tariff.HidesName name

/-! ## Computations -/

/-- The scope without the metadata of the module. -/
def Scope.uninformed (scope : Scope) : Scope := { scope with info := none }

/-- Where a computation takes place. -/
inductive Place where
  | anywhere
  /-- Some node is open above the root. -/
  | inside
  /-- No node is open above the root. -/
  | top
  deriving DecidableEq

/-- Is the innermost open node at the place? -/
def Place.Holds : Place → Stack → Prop
  | anywhere, _ => True
  | inside, stack => stack.opened ≠ []
  | top, stack => stack.opened = []

/-- A place is seen from the number of open nodes. -/
theorem Place.Holds.of_depth {place : Place} {before after : Stack} (h : place.Holds before)
    (hdepth : after.depth = before.depth) : place.Holds after := by
  have hempty : after.opened = [] ↔ before.opened = [] := by
    rw [← List.length_eq_zero_iff, ← List.length_eq_zero_iff]
    exact iff_of_eq (congrArg (· = 0) hdepth)
  cases place with
  | anywhere => trivial
  | inside => exact fun hnil => h (hempty.1 hnil)
  | top => exact hempty.2 h

namespace Recover

variable {α β : Type}

/-- What a run spends is covered by its credit and by the warnings that it adds. -/
structure Spent {source : Source} (tariff : Tariff source) (session later : Session)
    (credit weight : Nat) : Prop where
  depth : later.stack.depth = session.stack.depth
  balance : tariff.session later + weight + tariff.granted session ≤
    tariff.session session + credit + tariff.granted later

/-- What the first run is worth is part of the credit of the second one. -/
theorem Spent.trans {source : Source} {tariff : Tariff source} {session later last : Session}
    {credit weight rest after : Nat} (h : Spent tariff session later credit weight)
    (h' : Spent tariff later last (weight + rest) after) :
    Spent tariff session last (credit + rest) after := by
  have hbalance := h.balance
  have hbalance' := h'.balance
  exact ⟨h'.depth.trans h.depth, by omega⟩

/-- A computation that goes the same way without the metadata of the module. -/
def Blind (scope : Scope) (action : Recover α) : Prop :=
  ∀ session : Session, action.outcome scope session = action.outcome scope.uninformed session

/-- Computations that do not look at the metadata do not do so in sequence. -/
theorem Blind.bind {scope : Scope} {action : Recover α} {next : α → Recover β}
    (h : Blind scope action) (hn : ∀ value, Blind scope (next value)) :
    Blind scope (action >>= next) := by
  intro session
  have hfirst := h session
  rcases hrun : action.outcome scope session with ⟨failure | value, later⟩
  · rw [outcome_bind_error hrun, outcome_bind_error (hfirst.symm.trans hrun)]
  · rw [outcome_bind_ok hrun, outcome_bind_ok (hfirst.symm.trans hrun)]
    exact hn value later

/-- A computation that can be paid for. Its result has the given weight. -/
structure Paid {scope : Scope} (tariff : Tariff scope.source) (place : Place) (credit : Nat)
    (action : Recover α) (weight : α → Nat) : Prop where
  spends : ∀ {session later : Session} {value : α}, place.Holds session.stack →
    action.outcome scope session = (.ok value, later) →
      Spent tariff session later credit (weight value)
  blind : tariff.discreet → Blind scope action

/-- A computation that can be paid for and whose result is free. -/
abbrev Pays {scope : Scope} (tariff : Tariff scope.source) (place : Place) (credit : Nat)
    (action : Recover α) : Prop :=
  Paid tariff place credit action fun _ => 0

namespace Paid

variable {scope : Scope} {tariff : Tariff scope.source} {place : Place} {credit : Nat}
  {action : Recover α} {weight : α → Nat}

/-! ## Sequencing -/

/-- What can be paid for anywhere can be paid for at every place. -/
theorem relax (h : Paid tariff .anywhere credit action weight) :
    Paid tariff place credit action weight where
  spends _ hrun := h.spends trivial hrun
  blind := h.blind

/-- More may be given than is needed, and less may be claimed for the result. -/
theorem mono {more : Nat} {less : α → Nat} (h : Paid tariff place credit action weight)
    (hcredit : credit ≤ more) (hweight : ∀ value, less value ≤ weight value) :
    Paid tariff place more action less where
  spends {_ _ value} hplace hrun := by
    have hspent := h.spends hplace hrun
    have hbalance := hspent.balance
    have hvalue := hweight value
    exact ⟨hspent.depth, by omega⟩
  blind := h.blind

/-- More credit than is needed does no harm. -/
theorem afford {more : Nat} (h : Paid tariff place credit action weight) (hcredit : credit ≤ more) :
    Paid tariff place more action weight :=
  h.mono hcredit fun _ => Nat.le_refl _

/-- What the result is worth may be forgotten. -/
theorem pays (h : Paid tariff place credit action weight) : Pays tariff place credit action :=
  h.mono (Nat.le_refl _) fun _ => Nat.zero_le _

/-- A value that is only returned is worth what there was to spend. -/
theorem pure {value : α} (h : weight value ≤ credit) :
    Paid tariff place credit (Pure.pure value) weight where
  spends _ hrun := by
    cases hrun
    exact ⟨rfl, by omega⟩
  blind _ _ := rfl

/-- A run that fails spends nothing. -/
theorem throw {failure : Failure} :
    Paid tariff place credit (MonadExcept.throw failure : Recover α) weight where
  spends _ hrun := by cases hrun
  blind _ _ := rfl

/-- The first computation uses up a part of the credit, the second one the rest of it and what the
result of the first one is worth. -/
theorem spend {next : α → Recover β} {after : β → Nat} {rest : Nat}
    (h : Paid tariff place credit action weight)
    (hn : ∀ value, Paid tariff place (weight value + rest) (next value) after) :
    Paid tariff place (credit + rest) (action >>= next) after where
  spends hplace hrun := by
    obtain ⟨value, later, hfirst, hsecond⟩ := ok_of_bind hrun
    have hspent := h.spends hplace hfirst
    have hspent' := (hn value).spends (hplace.of_depth hspent.depth) hsecond
    exact hspent.trans hspent'
  blind hdiscreet := (h.blind hdiscreet).bind fun value => (hn value).blind hdiscreet

/-- The first computation uses up the credit. -/
theorem payOff {next : α → Recover β} {after : β → Nat} (h : Paid tariff place credit action weight)
    (hn : ∀ value, Paid tariff place (weight value) (next value) after) :
    Paid tariff place credit (action >>= next) after := by
  have hspent : Paid tariff place (credit + 0) (action >>= next) after := h.spend hn
  exact hspent

/-- The first computation leaves the credit untouched. -/
theorem bind {next : α → Recover β} {after : β → Nat} (h : Paid tariff place 0 action weight)
    (hn : ∀ value, Paid tariff place (weight value + credit) (next value) after) :
    Paid tariff place credit (action >>= next) after :=
  (h.spend hn).afford (Nat.zero_add credit).le

/-- The first computation leaves the credit untouched, and its result is free. -/
theorem andThen {next : α → Recover β} {after : β → Nat} (h : Pays tariff place 0 action)
    (hn : ∀ value, Paid tariff place credit (next value) after) :
    Paid tariff place credit (action >>= next) after :=
  h.bind fun value => (hn value).afford (Nat.zero_add credit).ge

/-! ## Loops -/

/-- A loop can be paid for if each of its steps pays for itself. -/
theorem forM {γ : Type} {step : γ → Recover Unit} {list : List γ}
    (h : ∀ item ∈ list, Pays tariff place 0 (step item)) :
    Pays tariff place 0 (list.forM step) := by
  induction list with
  | nil => exact pure (Nat.le_refl _)
  | cons item rest ih =>
    show Pays tariff place 0 (step item >>= fun _ => rest.forM step)
    exact (h item List.mem_cons_self).andThen fun _ =>
      ih fun other hmem => h other (List.mem_cons_of_mem _ hmem)

/-- Each item brings in what it costs to take it up. -/
theorem foldlM {γ : Type} {step : α → γ → Recover α} {worth : γ → Nat} {list : List γ} {value : α}
    (h : ∀ item ∈ list, ∀ value,
      Paid tariff place (weight value + worth item) (step value item) weight) :
    Paid tariff place (weight value + (list.map worth).sum) (list.foldlM step value) weight := by
  induction list generalizing value with
  | nil => exact pure (Nat.le_add_right _ _)
  | cons item rest ih =>
    rw [List.foldlM_cons]
    refine ((h item List.mem_cons_self value).spend fun value =>
      ih fun other hmem => h other (List.mem_cons_of_mem _ hmem)).afford ?_
    rw [List.map_cons, List.sum_cons]
    omega

end Paid

end Recover

end Concretion
