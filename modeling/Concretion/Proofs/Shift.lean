import Concretion.Proofs.Frame
import Concretion.Recovery.Program

/-!
# Trees that are moved

All positions of a tree, abstract or concrete, moved by the same number of bytes. Nothing else in a
tree is a position, so everything else stays as it is.

- `Range.shift`, `Span.shift`, `Symbol.shift`, `Node.shift`: positions, symbols and concrete trees.
- `Expr.shift`, `Stmt.shift`, `Block.shift`, `Program.shift`: abstract trees.
- `Stack.shift`, `Shelf.shift`: open and deferred nodes. The root stays where it is, and becomes
  longer.
-/

namespace Concretion

/-! ## Concrete trees -/

/-- The range, moved to the right. -/
def Range.shift (count : Nat) (range : Range) : Range :=
  ⟨count + range.start, count + range.finish⟩

/-- The span, moved to the right. -/
def Span.shift (count : Nat) (span : Span) : Span := ⟨count + span.start, count + span.last⟩

/-- An empty interval collapses onto its start, wherever it is. -/
theorem Span.ofBounds_shift (count start finish : Nat) :
    ofBounds (count + start) (count + finish) = (ofBounds start finish).shift count := by
  have hlast : max (count + finish - 1) (count + start) = count + max (finish - 1) start := by omega
  exact congrArg (Span.mk _) hlast

theorem Range.span_shift (count : Nat) (range : Range) :
    (range.shift count).span = range.span.shift count := Span.ofBounds_shift _ _ _

theorem Span.merge_shift {count : Nat} {a b merged : Span} (h : a.merge b = .ok merged) :
    (a.shift count).merge (b.shift count) = .ok (merged.shift count) := by
  obtain ⟨hle, rfl⟩ := Span.make_eq_ok_iff.1 h
  rw [merge, shift, shift, Nat.add_min_add_left, Nat.add_max_add_left]
  exact Span.make_of_le (Nat.add_le_add_left hle count)

/-- The symbol, moved to the right. -/
def Symbol.shift (count : Nat) (symbol : Symbol) : Symbol :=
  { symbol with span := symbol.span.shift count }

/-- The kind with all of its symbols moved to the right. -/
def NodeKind.shift (count : Nat) : NodeKind → NodeKind
  | root => root
  | empty => empty
  | elision => elision
  | identifier name => identifier (name.shift count)
  | number value => number (value.shift count)
  | string value => string (value.shift count)
  | regex value => regex (value.shift count)
  | trueLiteral value => trueLiteral (value.shift count)
  | falseLiteral value => falseLiteral (value.shift count)
  | nullLiteral value => nullLiteral (value.shift count)
  | array lbracket rbracket => array (lbracket.shift count) (rbracket.shift count)
  | object lbrace rbrace => object (lbrace.shift count) (rbrace.shift count)
  | nameValuePair colon => nameValuePair (colon.map (·.shift count))
  | computedName => computedName
  | getter => getter
  | setter => setter
  | function isStatic => function isStatic
  | arrowFunction => arrowFunction
  | generatorFunction isStatic => generatorFunction isStatic
  | parameters lparen rparen => parameters (lparen.map (·.shift count)) (rparen.map (·.shift count))
  | restElement ellipsis => restElement (ellipsis.map (·.shift count))
  | spreadElement ellipsis => spreadElement (ellipsis.shift count)
  | classDefinition => classDefinition
  | var keyword => var (keyword.shift count)
  | declaration equal => declaration (equal.map (·.shift count))
  | importStatement keyword path => importStatement (keyword.shift count) (path.shift count)
  | importSpecifier star => importSpecifier (star.map (·.shift count))
  | exportStatement keyword isDefault path =>
    exportStatement (keyword.map (·.shift count)) isDefault (path.map (·.shift count))
  | statements lbrace rbrace => statements (lbrace.map (·.shift count)) (rbrace.map (·.shift count))
  | emptyStatement => emptyStatement
  | forLoop lparen semi1 semi2 rparen =>
    forLoop (lparen.shift count) (semi1.shift count) (semi2.shift count) (rparen.shift count)
  | forIn lparen keyword rparen =>
    forIn (lparen.shift count) (keyword.shift count) (rparen.shift count)
  | forOf lparen keyword rparen =>
    forOf (lparen.shift count) (keyword.shift count) (rparen.shift count)
  | ifElse lparen rparen => ifElse (lparen.shift count) (rparen.shift count)
  | whileLoop lparen rparen => whileLoop (lparen.shift count) (rparen.shift count)
  | doLoop lparen rparen => doLoop (lparen.shift count) (rparen.shift count)
  | withScope lparen rparen => withScope (lparen.shift count) (rparen.shift count)
  | switch lparen rparen lbrace rbrace =>
    switch (lparen.shift count) (rparen.shift count) (lbrace.shift count) (rbrace.shift count)
  | caseClause colon => caseClause (colon.shift count)
  | defaultClause colon => defaultClause (colon.shift count)
  | tryCatch => tryCatch
  | catchClause => catchClause
  | finallyClause keyword => finallyClause (keyword.shift count)
  | throwStatement => throwStatement
  | returnStatement => returnStatement
  | breakStatement label => breakStatement (label.map (·.shift count))
  | continueStatement label => continueStatement (label.map (·.shift count))
  | labelled colon => labelled (colon.shift count)
  | invoke => invoke
  | arguments lparen rparen => arguments (lparen.shift count) (rparen.shift count)
  | construct keyword => construct (keyword.shift count)
  | getProperty dot => getProperty (dot.shift count)
  | getElement lbracket rbracket => getElement (lbracket.shift count) (rbracket.shift count)
  | conditional question colon => conditional (question.shift count) (colon.shift count)
  | assignment operator => assignment (operator.shift count)
  | binaryArithmetic operator => binaryArithmetic (operator.shift count)
  | binaryBoolean operator => binaryBoolean (operator.shift count)
  | comma operator => comma (operator.shift count)
  | preUnary operator => preUnary (operator.shift count)
  | postUnary operator => postUnary (operator.shift count)
  | yield keyword => yield (keyword.shift count)
  | group => group

namespace Node

mutual

/-- The tree, moved to the right. -/
def shift (count : Nat) : Node → Node
  | ⟨kind, span, children, ownsSemicolon⟩ =>
    ⟨kind.shift count, span.shift count, shiftList count children, ownsSemicolon⟩

/-- The trees, all moved to the right. -/
def shiftList (count : Nat) : List Node → List Node
  | [] => []
  | node :: rest => node.shift count :: shiftList count rest

end

theorem shiftList_eq (count : Nat) (nodes : List Node) :
    shiftList count nodes = nodes.map (shift count) := by
  induction nodes with
  | nil => rfl
  | cons node rest ih => rw [shiftList, ih, List.map_cons]

theorem shift_eq (count : Nat) (node : Node) : node.shift count =
    ⟨node.kind.shift count, node.span.shift count, node.children.map (shift count),
      node.ownsSemicolon⟩ := by
  obtain ⟨kind, span, children, ownsSemicolon⟩ := node
  rw [shift, shiftList_eq]

/-- The root does not move, but everything below it does. It reaches to the end of the text. -/
def shiftBelow (count : Nat) (node : Node) : Node :=
  ⟨node.kind.shift count, ⟨node.span.start, count + node.span.last⟩,
    node.children.map (shift count), node.ownsSemicolon⟩

end Node

/-! ### What does not depend on positions -/

section Shift

variable (count : Nat)

namespace NodeKind

variable (kind : NodeKind)

theorem isPlaceholder_shift : (kind.shift count).isPlaceholder = kind.isPlaceholder := by
  cases kind <;> rfl

theorem isVar_shift : (kind.shift count).isVar = kind.isVar := by
  cases kind <;> rfl

theorem isExport_shift : (kind.shift count).isExport = kind.isExport := by
  cases kind <;> rfl

theorem isInvoke_shift : (kind.shift count == invoke) = (kind == invoke) := by
  cases kind <;> rfl

theorem arity?_shift : (kind.shift count).arity? = kind.arity? := by
  cases kind <;> rfl

theorem symbols_shift : (kind.shift count).symbols = kind.symbols.map (Symbol.shift count) := by
  cases kind <;> simp [shift, symbols, Option.toList_map]

end NodeKind

namespace Node

variable (node : Node)

theorem kind_shift : (node.shift count).kind = node.kind.shift count := by
  rw [shift_eq]

theorem span_shift : (node.shift count).span = node.span.shift count := by
  rw [shift_eq]

theorem children_shift : (node.shift count).children = node.children.map (shift count) := by
  rw [shift_eq]

theorem start_shift : (node.shift count).start = count + node.start := by
  rw [shift_eq]
  rfl

theorem last_shift : (node.shift count).last = count + node.last := by
  rw [shift_eq]
  rfl

theorem isPlaceholder_shift : (node.shift count).isPlaceholder = node.isPlaceholder := by
  rw [isPlaceholder, kind_shift, NodeKind.isPlaceholder_shift]
  rfl

theorem lastChild?_shift : (node.shift count).lastChild? = node.lastChild?.map (shift count) := by
  rw [lastChild?, children_shift, List.getLast?_map]
  rfl

theorem declaresVariables_shift :
    (node.shift count).declaresVariables = node.declaresVariables := by
  have hlast : (node.shift count).lastChild?.any (·.kind.isVar) =
      node.lastChild?.any (·.kind.isVar) := by
    rw [lastChild?_shift, Option.any_map]
    congr 1
    funext child
    exact (congrArg NodeKind.isVar (child.kind_shift count)).trans (child.kind.isVar_shift count)
  rw [declaresVariables, declaresVariables, kind_shift, NodeKind.isVar_shift,
    NodeKind.isExport_shift, hlast]

theorem addChild_shift (child : Node) :
    (node.addChild child).shift count = (node.shift count).addChild (child.shift count) := by
  rw [shift_eq, shift_eq, addChild, addChild, List.map_append]
  rfl

theorem withChildren_shift (span : Span) (children : List Node) :
    shift count { node with span := span, children := children } =
      { node.shift count with
        span := span.shift count
        children := children.map (shift count) } := by
  rw [shift_eq, shift_eq]

/-- The moved node covers the moved children. -/
theorem cover_shift {node covered : Node} (h : node.cover = .ok covered) :
    (node.shift count).cover = .ok (covered.shift count) := by
  have hfold : ∀ (children : List Node) (span wide : Span),
      children.foldlM (fun span child => span.merge child.span) span = .ok wide →
      (children.map (shift count)).foldlM (fun span child => span.merge child.span)
        (span.shift count) = .ok (wide.shift count) := by
    intro children
    -- Merging commutes with the shift at each child, so it does for all of them in turn.
    induction children with
    | nil =>
      intro span wide h
      cases h
      rfl
    | cons child rest ih =>
      intro span wide h
      rw [List.foldlM_cons] at h
      cases hmerged : span.merge child.span with
      | error ends =>
        rw [hmerged] at h
        cases h
      | ok merged =>
        rw [hmerged] at h
        rw [List.map_cons, List.foldlM_cons, child.span_shift, Span.merge_shift hmerged]
        exact ih merged wide h
  rw [cover] at h
  cases hwide : node.children.foldlM (fun span child => span.merge child.span) node.span with
  | error ends =>
    rw [hwide] at h
    cases h
  | ok wide =>
    rw [hwide] at h
    cases h
    rw [cover, children_shift, span_shift, hfold _ _ _ hwide, shift_eq, shift_eq]
    rfl

theorem withSemicolon_shift (flag : Bool) :
    shift count { node with ownsSemicolon := flag } =
      { node.shift count with ownsSemicolon := flag } := by
  cases node
  rfl

end Node

/-! ## Open and deferred nodes -/

/-- The root begins where it did when its children are replaced. -/
theorem Stack.root_start_setChildren (stack : Stack) (children : List Node) :
    (stack.setChildren children).root.start = stack.root.start := by
  obtain ⟨root, _ | ⟨node, outer⟩⟩ := stack <;> rfl

/-- Everything below the root is moved. -/
def Stack.shift (stack : Stack) : Stack :=
  ⟨stack.root.shiftBelow count, stack.opened.map (Node.shift count)⟩

/-- The deferred nodes, moved to the right. -/
def Shelf.shift (shelf : Shelf) : Shelf := ⟨shelf.slots.map (Option.map (Node.shift count))⟩

namespace Stack

variable (stack : Stack)

theorem children_shift : (stack.shift count).children = stack.children.map (Node.shift count) := by
  obtain ⟨root, _ | ⟨node, outer⟩⟩ := stack
  · rfl
  · exact node.children_shift count

theorem childCount_shift : (stack.shift count).current.childCount = stack.current.childCount := by
  rw [Node.childCount]
  exact (congrArg List.length (stack.children_shift count)).trans (List.length_map _)

theorem lastChild?_shift :
    (stack.shift count).lastChild? = stack.lastChild?.map (Node.shift count) := by
  rw [lastChild?, Node.lastChild?]
  exact (congrArg List.getLast? (stack.children_shift count)).trans List.getLast?_map

theorem setChildren_shift (nodes : List Node) : (stack.setChildren nodes).shift count =
    (stack.shift count).setChildren (nodes.map (Node.shift count)) := by
  obtain ⟨root, _ | ⟨node, outer⟩⟩ := stack
  · rfl
  · have hnode : Node.shift count { node with children := nodes } =
        { node.shift count with children := nodes.map (Node.shift count) } := by
      rw [Node.shift_eq, Node.shift_eq]
    exact congrArg (fun inner => (⟨_, inner :: _⟩ : Stack)) hnode

theorem wrapChild_shift {index : Nat} {wrapper : Node} {after : Stack}
    (h : stack.wrapChild index wrapper = .ok after) : ∃ children,
      after = stack.setChildren children ∧
        (stack.shift count).wrapChild index (wrapper.shift count) =
          .ok ((stack.shift count).setChildren (children.map (Node.shift count))) := by
  cases hchild : stack.children[index]? with
  | none =>
    have hnone : stack.current.children[index]? = none := hchild
    rw [wrapChild, Node.removeChild?, hnone] at h
    cases h
  | some child =>
    have hchild' : (stack.shift count).children[index]? = some (child.shift count) := by
      rw [children_shift, List.getElem?_map, hchild]
      rfl
    rw [wrapChild_eq hchild wrapper] at h
    cases h
    refine ⟨_, rfl, ?_⟩
    rw [wrapChild_eq hchild', children_shift, List.map_set, Node.addChild_shift]

end Stack

namespace Shelf

variable (shelf : Shelf)

theorem put_shift (node : Node) : (shelf.shift count).put (node.shift count) =
    ((shelf.put node).1, (shelf.put node).2.shift count) := by
  have hfree : (shelf.shift count).slots.findIdx? Option.isNone =
      shelf.slots.findIdx? Option.isNone := by
    rw [shift, List.findIdx?_map]
    congr 1
    funext slot
    cases slot <;> rfl
  rw [put, put, hfree]
  cases shelf.slots.findIdx? Option.isNone with
  | none =>
    simp only [shift, List.length_map, List.map_append]
    rfl
  | some slot =>
    simp only [shift, List.map_set]
    rfl

theorem take_shift {ticket : Ticket} {node : Node} {rest : Shelf}
    (h : shelf.take ticket = .ok (node, rest)) :
    (shelf.shift count).take ticket = .ok (node.shift count, rest.shift count) := by
  rw [take] at h
  split at h
  · next found hfound =>
    cases h
    simp only [take, shift, List.getElem?_map, hfound, Option.map_some, List.map_set]
    rfl
  · cases h

end Shelf

end Shift

/-! ## Abstract trees -/

/-- The identifier, moved to the right. -/
def Ident.shift (count : Nat) (name : Ident) : Ident :=
  { name with range := name.range.shift count }

mutual

/-- The expression, moved to the right. -/
def Expr.shift (count : Nat) (expr : Expr) : Expr :=
  match expr with
  | .ident name => .ident (name.shift count)
  | .literal range value => .literal (range.shift count) value
  | .array range elements => .array (range.shift count) (shiftElements count elements)
  | .unary range operator operand => .unary (range.shift count) operator (operand.shift count)
  | .binary range operator left right =>
    .binary (range.shift count) operator (left.shift count) (right.shift count)
  | .conditional range test consequent alternate =>
    .conditional (range.shift count) (test.shift count) (consequent.shift count)
      (alternate.shift count)
  | .call range callee arguments =>
    .call (range.shift count) (callee.shift count) (shiftArguments count arguments)
  | .access range base property => .access (range.shift count) (base.shift count) property
  | .index range base index => .index (range.shift count) (base.shift count) (index.shift count)
  | .object range members => .object (range.shift count) (shiftMembers count members)
  | .functionDef definition => .functionDef (definition.shift count)
  | .classDef definition => .classDef (definition.shift count)
termination_by structural expr

/-- The elements of an array literal, moved to the right. -/
def shiftElements (count : Nat) (elements : List (Option Expr)) : List (Option Expr) :=
  match elements with
  | [] => []
  | none :: rest => none :: shiftElements count rest
  | some element :: rest => some (element.shift count) :: shiftElements count rest
termination_by structural elements

/-- The arguments of a call, moved to the right. -/
def shiftArguments (count : Nat) (arguments : List Expr) : List Expr :=
  match arguments with
  | [] => []
  | argument :: rest => argument.shift count :: shiftArguments count rest
termination_by structural arguments

/-- An optional expression, moved to the right. -/
def shiftOptional (count : Nat) (expr : Option Expr) : Option Expr :=
  match expr with
  | none => none
  | some expr => some (expr.shift count)
termination_by structural expr

/-- The member of an object literal or of a class, moved to the right. -/
def Member.shift (count : Nat) (member : Member) : Member :=
  match member with
  | ⟨range, key, value, getter, setter, isStatic, isComputed⟩ =>
    ⟨range.shift count, key.shift count, shiftOptional count value, shiftAccessor count getter,
      shiftAccessor count setter, isStatic, isComputed⟩
termination_by structural member

/-- An accessor, moved to the right. -/
def shiftAccessor (count : Nat) (accessor : Option FunctionDef) : Option FunctionDef :=
  match accessor with
  | none => none
  | some definition => some (definition.shift count)
termination_by structural accessor

/-- The members of an object literal or of a class, moved to the right. -/
def shiftMembers (count : Nat) (members : List Member) : List Member :=
  match members with
  | [] => []
  | member :: rest => member.shift count :: shiftMembers count rest
termination_by structural members

/-- The function, moved to the right. -/
def FunctionDef.shift (count : Nat) (definition : FunctionDef) : FunctionDef :=
  match definition with
  | ⟨range, name, kind, parameters, body, isAnonymous, isMethod, isDeclared, hasDirectSuper⟩ =>
    ⟨range.shift count, name.shift count, kind, parameters.map (·.shift count), body.shift count,
      isAnonymous, isMethod, isDeclared, hasDirectSuper⟩
termination_by structural definition

/-- The class, moved to the right. -/
def ClassDef.shift (count : Nat) (definition : ClassDef) : ClassDef :=
  match definition with
  | ⟨range, name, heritage, none, elements⟩ =>
    ⟨range.shift count, name.map (·.shift count), shiftOptional count heritage, none,
      shiftMembers count elements⟩
  | ⟨range, name, heritage, some member, elements⟩ =>
    ⟨range.shift count, name.map (·.shift count), shiftOptional count heritage,
      some (member.shift count), shiftMembers count elements⟩
termination_by structural definition

/-- The block, moved to the right. -/
def Block.shift (count : Nat) (block : Block) : Block :=
  match block with
  | ⟨range, kind, statements⟩ => ⟨range.shift count, kind, shiftStatements count statements⟩
termination_by structural block

/-- The statements, moved to the right. -/
def shiftStatements (count : Nat) (statements : List Stmt) : List Stmt :=
  match statements with
  | [] => []
  | statement :: rest => statement.shift count :: shiftStatements count rest
termination_by structural statements

/-- An optional block, moved to the right. -/
def shiftBlock (count : Nat) (block : Option Block) : Option Block :=
  match block with
  | none => none
  | some block => some (block.shift count)
termination_by structural block

/-- The statement, moved to the right. -/
def Stmt.shift (count : Nat) (statement : Stmt) : Stmt :=
  match statement with
  | .binding definition => .binding (definition.shift count)
  | .expression range expr => .expression (range.shift count) (expr.shift count)
  | .block body => .block (body.shift count)
  | .empty range => .empty (range.shift count)
  | .ifElse range test pass fail =>
    .ifElse (range.shift count) (test.shift count) (pass.shift count) (shiftBlock count fail)
  | .forLoop loop => .forLoop (loop.shift count)
  | .whileLoop range isDo test body =>
    .whileLoop (range.shift count) isDo (test.shift count) (body.shift count)
  | .switch range subject cases =>
    .switch (range.shift count) (subject.shift count) (shiftCases count cases)
  | .tryCatch range body catches finalizer =>
    .tryCatch (range.shift count) (body.shift count) (shiftCatches count catches)
      (shiftBlock count finalizer)
  | .throwValue range value => .throwValue (range.shift count) (value.shift count)
  | .returnValue range value isGenerated =>
    .returnValue (range.shift count) (shiftOptional count value) isGenerated
  | .jump range kind label => .jump (range.shift count) kind label
  | .labelled range label body => .labelled (range.shift count) label (body.shift count)
  | .withScope range subject body =>
    .withScope (range.shift count) (subject.shift count) (body.shift count)
termination_by structural statement

/-- The binding, moved to the right. -/
def Binding.shift (count : Nat) (binding : Binding) : Binding :=
  match binding with
  | ⟨range, name, init, kind, isFunctionDeclaration⟩ =>
    ⟨range.shift count, name.shift count, shiftOptional count init, kind, isFunctionDeclaration⟩
termination_by structural binding

/-- The loop, moved to the right. -/
def ForLoop.shift (count : Nat) (loop : ForLoop) : ForLoop :=
  match loop with
  | ⟨range, kind, init, test, update, body⟩ =>
    ⟨range.shift count, kind, shiftOptional count init, shiftOptional count test,
      shiftOptional count update, body.shift count⟩
termination_by structural loop

/-- The clauses of a `switch` statement, moved to the right. -/
def shiftCases (count : Nat) (cases : List SwitchCase) : List SwitchCase :=
  match cases with
  | [] => []
  | clause :: rest => clause.shift count :: shiftCases count rest
termination_by structural cases

/-- The clause of a `switch` statement, moved to the right. -/
def SwitchCase.shift (count : Nat) (clause : SwitchCase) : SwitchCase :=
  match clause with
  | ⟨range, test, statements⟩ =>
    ⟨range.shift count, shiftOptional count test, shiftStatements count statements⟩
termination_by structural clause

/-- The `catch` clauses, moved to the right. -/
def shiftCatches (count : Nat) (catches : List CatchClause) : List CatchClause :=
  match catches with
  | [] => []
  | ⟨range, exception, body⟩ :: rest =>
    ⟨range.shift count, exception.shift count, body.shift count⟩ :: shiftCatches count rest
termination_by structural catches

end

/-- The program, moved to the right. There are no positions in its metadata. -/
def Program.shift (count : Nat) (program : Program) : Program :=
  { program with body := program.body.shift count }

end Concretion
