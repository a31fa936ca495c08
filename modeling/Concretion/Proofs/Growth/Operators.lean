import Concretion.Proofs.Growth
import Concretion.Proofs.Written.Phrase
import Concretion.Recovery.Rule.Leaf

/-!
# What operators append

An operator expression becomes a single node with its operands right below it, each in a group if it
must have had parentheses. Only a construction takes a call apart.

- `Node.IsUnary`, `Node.IsBinary`, `Node.IsConditional`: the nodes of operator expressions.
- `Looks.skippedName`, `Appends.ident`, `Appends.beside`: identifiers and operands.
- `Appends.unary`, `Appends.binary`, `Appends.conditional`: the three shapes of operator
  expressions.
-/

namespace Concretion

/-- A construction takes the place of the call below it. -/
theorem Stack.flattenInvoke_eq {stack : Stack} {child : Node} (h : stack.children = [child]) :
    stack.modifyCurrent Node.flattenInvoke =
      stack.setChildren (if child.kind == .invoke then child.children else [child]) := by
  have hflatten : ∀ (kind : NodeKind) (span : Span) (flag : Bool),
      Node.flattenInvoke ⟨kind, span, [child], flag⟩ =
        ⟨kind, span, if child.kind == .invoke then child.children else [child], flag⟩ := by
    intro kind span flag
    show (if child.kind == .invoke then _ else _) = _
    split <;> rfl
  obtain ⟨⟨kind, span, children, flag⟩, _ | ⟨⟨kind', span', children', flag'⟩, outer⟩⟩ := stack
  · cases h
    exact congrArg (Stack.mk · []) (hflatten kind span flag)
  · cases h
    exact congrArg (fun inner => Stack.mk _ (inner :: outer)) (hflatten kind' span' flag')

namespace Node

/-- The node of an operator with one operand. The operand is its only child, or else it is a call
that is constructed. -/
def IsUnary (made : Node) (operator : Operator) (operand : Node) : Prop :=
  ∃ spelling form symbol, operator.unaryForm = some (spelling, form) ∧ symbol.value = spelling ∧
    made.kind = form.nodeKind symbol ∧
    (made.children = [operand] ∨
      form = .construct ∧ operand.kind = .invoke ∧ made.children = operand.children)

/-- The node of an operator with two operands. -/
def IsBinary (made : Node) (operator : Operator) (left right : Node) : Prop :=
  ∃ spelling form symbol, operator.binaryForm = some (spelling, form) ∧ symbol.value = spelling ∧
    made.kind = form.nodeKind symbol ∧ made.children = [left, right]

/-- The node of a conditional. -/
def IsConditional (made test consequent alternate : Node) : Prop :=
  ∃ question colon, question.value = "?" ∧ colon.value = ":" ∧
    made.kind = .conditional question colon ∧ made.children = [test, consequent, alternate]

end Node

namespace Recover

/-- Asked to skip a name, the next identifier is left out, and only that one. -/
theorem Looks.skippedName {scope : Scope} (name : Ident) :
    Looks scope (skipNextName >>= fun _ => Rule.ident name) fun _ => True :=
  aside (fun _ => ())
    (fun session => { session with skipsName := false }.note (.bindingSkipped name.name))
    (fun _ => rfl) (fun _ => rfl) (fun _ => rfl) fun _ _ => ⟨rfl, trivial⟩

namespace Appends

variable {scope : Scope} {range : Range} {operator : Operator}

theorem ident (name : Ident) : Appends scope (Rule.ident name) fun node =>
    ∃ span, scope.source.rangeSpan name.range.start name.range.finish = .ok span ∧
      node = .leaf (.identifier ⟨.identifier, span, name.name⟩) span := by
  refine after Looks.takeSkip fun skips hskips => ?_
  subst hskips
  exact attached (.identifier _ _ _)

theorem grouped {action : Recover Unit} {result : Node → Prop}
    (h : Appends scope action result) (mustGroup : Bool) :
    Appends scope (action >>= fun _ => if mustGroup then groupLastChild else Pure.pure ())
      fun made => ∃ node, result node ∧ made = if mustGroup then node.grouped else node := by
  refine fun children => h.andThen fun node hnode => ?_
  cases mustGroup with
  | true =>
    refine (Gives.groupLastChild node).mono fun _ after hafter => ?_
    exact ⟨_, hafter, node, hnode, rfl⟩
  | false => exact .pure ⟨node, rfl, node, hnode, rfl⟩

theorem beside {operand : Fragment} {result : Node → Prop}
    (h : Appends scope operand.build result) (outer : Operator) (side : Operator.Side) :
    Appends scope (operand.buildBeside outer side) fun made =>
      ∃ node, result node ∧ made = node.beside operand.operator? outer side :=
  h.grouped (operand.operator?.any (outer.needsParens · side))

theorem object {operand : Fragment} {result : Node → Prop}
    (h : Appends scope operand.build result) :
    Appends scope operand.buildObject fun made =>
      ∃ node, result node ∧ made = node.asObject operand.operator? :=
  h.grouped (operand.operator?.any (· != Operator.construct))

/-- What is recovered below an operator with one operand. -/
theorem operandBelow {operand : Fragment} {result : Node → Prop}
    (h : Appends scope operand.build result) (form : UnaryForm) :
    Gives scope [] (Rule.operandBelow operator form operand)
      fun _ after => ∃ node, result node ∧
        (after = [node.beside operand.operator? operator .right] ∨
          form = .construct ∧ (node.beside operand.operator? operator .right).kind = .invoke ∧
            after = (node.beside operand.operator? operator .right).children) := by
  refine (h.beside operator .right).andThen fun _ ⟨node, hnode, hmade⟩ => ?_
  subst hmade
  split
  · next hform =>
    refine (Gives.modifyStack fun stack hstack => Stack.flattenInvoke_eq hstack).mono ?_
    intro _ after hafter
    refine ⟨node, hnode, ?_⟩
    split at hafter
    · next hinvoke => exact .inr ⟨eq_of_beq hform, eq_of_beq hinvoke, hafter⟩
    · exact .inl hafter
  · exact .pure ⟨node, hnode, .inl rfl⟩

theorem unary {operand : Fragment} {result : Node → Prop}
    (h : Appends scope operand.build result) :
    Appends scope (Rule.unary range operator operand) fun made =>
      ∃ node, result node ∧
        made.IsUnary operator (node.beside operand.operator? operator .right) := by
  rw [Rule.unary]
  refine after (.rangeSpan _ _) fun span _ => ?_
  split
  · exact fun _ => .throw
  · next spelling form hform =>
    have hnode : ∀ symbol : Symbol, symbol.value = (Token.ofOperator spelling).text →
        Appends scope (Recover.enter (.leaf (form.nodeKind symbol) span)
          (Rule.operandBelow operator form operand))
          fun made => ∃ node, result node ∧
            made.IsUnary operator (node.beside operand.operator? operator .right) := by
      intro symbol hvalue
      refine (enter (h.operandBelow form)).mono ?_
      rintro made ⟨hkind, node, hnode, hchildren⟩
      exact ⟨node, hnode, spelling, form, symbol, hform, hvalue.trans (Token.text_ofOperator _),
        hkind, hchildren⟩
    dsimp only
    split
    · exact after (.findEndingAt _ _ _ _) hnode
    · exact after (.findAtOrAfter _ _ _ _) hnode

theorem binary {left right : Fragment} {first second : Node → Prop}
    (hleft : Appends scope left.build first) (hright : Appends scope right.build second) :
    Appends scope (Rule.binary range operator left right) fun made =>
      ∃ node node', first node ∧ second node' ∧
        made.IsBinary operator (node.beside left.operator? operator .left)
          (node'.beside right.operator? operator .right) := by
  refine after (.rangeSpan _ _) fun span _ => ?_
  split
  · exact fun _ => .throw
  · next spelling form hform =>
    have hsymbol : Looks scope
        (Rule.operatorBetween spelling left.range.finish right.range.start)
        fun symbol => symbol.value = spelling := by
      rw [Rule.operatorBetween]
      split
      · exact .findWord _ _ _ _
      · exact (Looks.find _ _ _ _).mono fun _ h => h.trans (Token.text_ofOperator _)
    refine after hsymbol fun symbol hvalue => ?_
    have hbody : Gives scope [] (do
        left.buildBeside operator .left
        right.buildBeside operator .right)
        fun _ after => ∃ node node', first node ∧ second node' ∧
          after = [node.beside left.operator? operator .left,
            node'.beside right.operator? operator .right] := by
      refine (hleft.beside operator .left).andThen fun _ ⟨node, hnode, hmade⟩ => ?_
      refine (hright.beside operator .right _).mono ?_
      rintro _ after ⟨_, hafter, node', hnode', rfl⟩
      subst hmade
      exact ⟨node, node', hnode, hnode', hafter⟩
    refine (enter hbody).mono ?_
    rintro made ⟨hkind, node, node', hnode, hnode', hchildren⟩
    exact ⟨node, node', hnode, hnode', spelling, form, symbol, hform, hvalue, hkind, hchildren⟩

theorem conditional {test consequent alternate : Fragment} {first second third : Node → Prop}
    (htest : Appends scope test.build first) (hconsequent : Appends scope consequent.build second)
    (halternate : Appends scope alternate.build third) :
    Appends scope (Rule.conditional range test consequent alternate) fun made =>
      ∃ node node' node'', first node ∧ second node' ∧ third node'' ∧
        made.IsConditional (node.beside test.operator? .conditional .left)
          (node'.beside consequent.operator? .assign .right)
          (node''.beside alternate.operator? .assign .right) := by
  refine after (.rangeSpan _ _) fun span _ => ?_
  refine after (.find _ _ _ _) fun question hquestion => ?_
  refine after (.find _ _ _ _) fun colon hcolon => ?_
  have hbody : Gives scope [] (do
      test.buildBeside .conditional .left
      consequent.buildBeside .assign .right
      alternate.buildBeside .assign .right)
      fun _ after => ∃ node node' node'', first node ∧ second node' ∧ third node'' ∧
        after = [node.beside test.operator? .conditional .left,
          node'.beside consequent.operator? .assign .right,
          node''.beside alternate.operator? .assign .right] := by
    refine (htest.beside .conditional .left).andThen fun _ ⟨node, hnode, hmade⟩ => ?_
    refine (hconsequent.beside .assign .right).andThen fun _ ⟨node', hnode', hmade'⟩ => ?_
    refine (halternate.beside .assign .right _).mono ?_
    rintro _ after ⟨_, hafter, node'', hnode'', rfl⟩
    subst hmade hmade'
    exact ⟨node, node', node'', hnode, hnode', hnode'', hafter⟩
  refine (enter hbody).mono ?_
  rintro made ⟨hkind, node, node', node'', hnode, hnode', hnode'', hchildren⟩
  exact ⟨node, node', node'', hnode, hnode', hnode'', question, colon, hquestion, hcolon, hkind,
    hchildren⟩

end Appends

end Recover

end Concretion
