import Concretion.Proofs.Yields
import Concretion.Proofs.Written.Phrase
import Concretion.Recovery.Rule.Collection
import Concretion.Recovery.Rule.Leaf
import Concretion.Recovery.Rule.Reference
import Mathlib.Data.List.TakeWhile

/-!
# What rules attach

A rule attaches a single node to the innermost open one. Which node that is follows from the places
at which its tokens are found, and from what its operands attach.

- `Attaches`: what a computation attaches to the innermost open node, whichever that is.
- `Attaches.unary`, `Attaches.binary` and so on: one statement for each rule that recovers an
  expression written with operators, parentheses and brackets.
- `AttachesElements`: what the elements of an array literal attach, and those left out.
-/

namespace Concretion

open Recover Text Written

namespace Node

/-- The node with further children. -/
def addChildren (node : Node) (children : List Node) : Node :=
  { node with children := node.children ++ children }

theorem addChildren_nil (node : Node) : node.addChildren [] = node := by
  obtain ⟨kind, span, children, ownsSemicolon⟩ := node
  simp [addChildren]

theorem addChildren_cons (node child : Node) (rest : List Node) :
    node.addChildren (child :: rest) = (node.addChild child).addChildren rest := by
  simp [addChildren, addChild]

/-- The last child is the one that was added last. -/
theorem last_addChild (node child : Node) (hole : Nat) :
    ((node.addChild child).children.getLast?.map Node.last).getD hole = child.last := by
  rw [addChild, List.getLast?_concat]
  rfl

end Node

namespace Text

theorem isBlank_of_isDigit {c : Char} (h : c.isDigit) : isBlank c = false := by
  have hle : '0'.toNat ≤ c.toNat ∧ c.toNat ≤ '9'.toNat := by
    rw [Char.isDigit, Bool.and_eq_true, decide_eq_true_eq, decide_eq_true_eq] at h
    exact h
  refine List.any_eq_false.2 fun range hrange => ?_
  have hapart : ∀ range ∈ blankRanges, range.2 < '0'.toNat ∨ '9'.toNat < range.1 := by decide
  have := hapart range hrange
  rw [Bool.and_eq_true, decide_eq_true_eq, decide_eq_true_eq]
  omega

theorem trimmed_of_visible {chars : List Char} (h : ∀ c ∈ chars, isBlank c = false) :
    trimmed chars = (0, chars) := by
  have hfront : ∀ text : List Char, (∀ c ∈ text, isBlank c = false) →
      text.takeWhile isBlank = [] ∧ text.dropWhile isBlank = text := by
    rintro (_ | ⟨c, rest⟩) hvisible
    · exact ⟨rfl, rfl⟩
    · have hc := Bool.eq_false_iff.1 (hvisible c List.mem_cons_self)
      exact ⟨List.takeWhile_cons_of_neg hc, List.dropWhile_cons_of_neg hc⟩
  have hback := hfront chars.reverse fun c hc => h c (List.mem_reverse.1 hc)
  rw [trimmed, (hfront chars h).1, (hfront chars h).2, hback.2, List.reverse_reverse]
  rfl

end Text

/-- Whatever is open, the computation attaches the node to it. -/
def Attaches (scope : Scope) (action : Recover Unit) (node : Node) : Prop :=
  ∀ stack : Stack, Yields scope stack action () (stack.attach node)

namespace Attaches

variable {scope : Scope} {range : Range} {span : Span} {whole : Node}

/-! ## Operands -/

theorem beside {operand : Fragment} {node : Node} (h : Attaches scope operand.build node)
    (outer : Operator) (side : Operator.Side) :
    Attaches scope (operand.buildBeside outer side)
      (node.beside operand.operator? outer side) := by
  intro stack
  refine (h stack).bind ?_
  rw [Node.beside]
  split
  · exact .groupLastChild node
  · exact .pure ()

theorem object {operand : Fragment} {node : Node} (h : Attaches scope operand.build node) :
    Attaches scope operand.buildObject (node.asObject operand.operator?) := by
  intro stack
  refine (h stack).bind ?_
  rw [Node.asObject]
  split
  · exact .groupLastChild node
  · exact .pure ()

/-- Operands that are recovered one after the other. -/
theorem forM {operands : List Fragment} {nodes : List Node}
    (h : List.Forall₂ (fun operand node => Attaches scope operand.build node) operands nodes)
    (stack : Stack) (node : Node) :
    Yields scope (stack.push node) (operands.forM (·.build)) ()
      (stack.push (node.addChildren nodes)) := by
  induction h generalizing node with
  | nil =>
    rw [Node.addChildren_nil]
    exact .pure ()
  | @cons operand child operands nodes hfirst _ ih =>
    rw [Node.addChildren_cons]
    exact (hfirst (stack.push node)).bind (ih (node.addChild child))

/-! ## Leaves -/

theorem ident {name : Ident}
    (hspan : scope.source.rangeSpan name.range.start name.range.finish = .ok span) :
    Attaches scope (Rule.ident name) (.leaf (.identifier ⟨.identifier, span, name.name⟩) span) :=
  fun _ => Yields.takeSkip.bind ((Yields.identifier hspan).bind (.attach _))

/-- A number that consists of digits is all of its range. -/
theorem number {digits : List Char} (hspan : scope.source.rangeSpan range.start range.finish =
      .ok range.span)
    (htext : scope.source.slice range.start range.finish = some (String.ofList digits))
    (hfinish : range.finish = range.start + width digits) (hne : digits ≠ [])
    (hdigits : ∀ c ∈ digits, c.isDigit) :
    Attaches scope (Rule.literal range .number)
      (.leaf (.number ⟨.number, range.span, String.ofList digits⟩) range.span) := by
  have hslash : digits.takeWhile (· != '/') = digits := by
    refine List.takeWhile_eq_self_iff.2 fun c hc => bne_iff_ne.2 ?_
    rintro rfl
    exact absurd (hdigits _ hc) (by decide)
  have htrimmed : trimmed digits = (0, digits) :=
    trimmed_of_visible fun c hc => isBlank_of_isDigit (hdigits c hc)
  have hpos := width_pos hne
  have hwhole : range.span = ⟨range.start, range.start + width digits - 1⟩ := by
    rw [Range.span, Span.ofBounds, hfinish, Nat.max_eq_left (by omega)]
  have hsymbol : scope.source.slice range.span.start (range.span.last + 1) =
      some (String.ofList digits) := by
    have hlast : range.span.last + 1 = range.finish := by
      rw [hwhole, hfinish]
      dsimp only
      omega
    rw [hlast, ← htext, hwhole]
  intro stack
  refine Yields.bind ?_ (.attach _)
  refine (Yields.rangeSpan hspan).bind (Yields.source.bind ?_)
  rw [htext, Option.getD_some]
  dsimp only
  rw [String.toList_ofList, hslash, htrimmed]
  dsimp only
  rw [if_neg (by rwa [List.isEmpty_iff])]
  refine Yields.bind ?_ ((Yields.symbolOver hsymbol).bind (.pure _))
  rw [hwhole]
  exact .spanBetween (by omega)

/-! ## Operators -/

theorem unary {operator : Operator} {spelling : String} {operand : Fragment} {node : Node}
    (hform : operator.unaryForm = some (spelling, .before))
    (hspan : scope.source.rangeSpan range.start range.finish = .ok span)
    (htoken : scope.source.slice range.start
      (range.start + (Token.ofOperator spelling).length) = some (Token.ofOperator spelling).text)
    (hoperand : Attaches scope operand.build node)
    (hwhole : whole = .branch (.preUnary ((Token.ofOperator spelling).symbolAt range.start)) span
      [node.beside operand.operator? operator .right])
    (hcover : whole.cover = .ok whole) :
    Attaches scope (Rule.unary range operator operand) whole := by
  subst hwhole
  intro stack
  refine (Yields.rangeSpan hspan).bind ?_
  rw [hform]
  refine (Yields.findAtOrAfter _ htoken).bind (.enter ?_ hcover)
  exact (hoperand.beside operator .right _).bind (.pure ())

theorem binary {operator : Operator} {spelling : String} {form : BinaryForm} {left right : Fragment}
    {first second : Node} {offset : Nat}
    (hform : operator.binaryForm = some (spelling, form))
    (hspan : scope.source.rangeSpan range.start range.finish = .ok span)
    (htoken : ∀ stack, Yields scope stack
      (Rule.operatorBetween spelling left.range.finish right.range.start)
      ((Token.ofOperator spelling).symbolAt offset) stack)
    (hleft : Attaches scope left.build first) (hright : Attaches scope right.build second)
    (hwhole : whole = .branch (form.nodeKind ((Token.ofOperator spelling).symbolAt offset)) span
      [first.beside left.operator? operator .left, second.beside right.operator? operator .right])
    (hcover : whole.cover = .ok whole) :
    Attaches scope (Rule.binary range operator left right) whole := by
  subst hwhole
  intro stack
  refine (Yields.rangeSpan hspan).bind ?_
  rw [hform]
  refine (htoken _).bind (.enter ?_ hcover)
  exact (hleft.beside operator .left _).bind (hright.beside operator .right _)

theorem conditional {test consequent alternate : Fragment} {first second third : Node}
    {question colon : Nat}
    (hspan : scope.source.rangeSpan range.start range.finish = .ok span)
    (hquestion : scope.source.find "?" test.range.finish consequent.range.start = some question)
    (hcolon : scope.source.find ":" consequent.range.finish alternate.range.start = some colon)
    (htest : Attaches scope test.build first) (hconsequent : Attaches scope consequent.build second)
    (halternate : Attaches scope alternate.build third)
    (hwhole : whole = .branch
      (.conditional (Token.question.symbolAt question) (Token.colon.symbolAt colon)) span
      [first.beside test.operator? .conditional .left,
        second.beside consequent.operator? .assign .right,
        third.beside alternate.operator? .assign .right])
    (hcover : whole.cover = .ok whole) :
    Attaches scope (Rule.conditional range test consequent alternate) whole := by
  subst hwhole
  intro stack
  refine (Yields.rangeSpan hspan).bind ?_
  refine (Yields.find hquestion).bind ((Yields.find hcolon).bind (.enter ?_ hcover))
  exact (htest.beside .conditional .left _).bind
    ((hconsequent.beside .assign .right _).bind (halternate.beside .assign .right _))

/-! ## References -/

/-- The list of arguments, before they are recovered. -/
theorem argumentList {calleeEnd opening closing : Nat} {arguments : List Fragment} {stack : Stack}
    (hopening : scope.source.find "(" calleeEnd
      ((arguments.head?.map (·.range.start)).getD range.finish) = some opening)
    (hclosing : scope.source.slice closing (closing + 1) = some ")") (horder : opening < closing)
    (hfinish : range.finish = closing + 1) :
    Yields scope stack (Rule.argumentList range calleeEnd arguments)
      (some (.leaf (.arguments (Token.leftParen.symbolAt opening)
        (Token.rightParen.symbolAt closing)) (Range.span ⟨opening, closing + 1⟩))) stack := by
  have hspan : Range.span ⟨opening, closing + 1⟩ = ⟨opening, closing⟩ := by
    simp only [Range.span, Span.ofBounds, Span.mk.injEq, true_and]
    omega
  have hlist : Yields scope stack (Rule.argumentParens range opening)
      (some (Node.leaf (.arguments (Token.leftParen.symbolAt opening)
        (Token.rightParen.symbolAt closing)) ⟨opening, closing⟩)) stack := by
    rw [Rule.argumentParens, hfinish]
    refine (Yields.symbolAt .leftParen opening).bind ?_
    refine (Yields.findEndingAt .rightParen horder hclosing).bind ?_
    have hordered : (Token.leftParen.symbolAt opening).span.Ordered := Nat.le_refl opening
    exact (Yields.mergeSpans horder.le horder.le hordered).bind (.pure _)
  rw [hspan]
  cases arguments with
  | nil =>
    have hfound : scope.source.find "(" calleeEnd range.finish = some opening := hopening
    rw [Rule.argumentList]
    refine Yields.source.bind ?_
    rw [hfound]
    exact hlist
  | cons first rest =>
    have hfound : scope.source.find "(" calleeEnd first.range.start = some opening := hopening
    have hlocate : scope.source.locate "Arguments" "(" calleeEnd first.range.start =
        .ok opening := by
      rw [Source.locate, hfound]
    rw [Rule.argumentList]
    exact Yields.source.bind ((Yields.settle hlocate).bind hlist)

/-- A call, whose arguments are recovered into the list that was on the shelf. -/
theorem call {callee : Fragment} {arguments : List Fragment} {first list : Node}
    {nodes : List Node} {opening closing : Nat}
    (hspan : scope.source.rangeSpan range.start range.finish = .ok span)
    (hopening : scope.source.find "(" callee.range.finish
      ((arguments.head?.map (·.range.start)).getD range.finish) = some opening)
    (hclosing : scope.source.slice closing (closing + 1) = some ")") (horder : opening < closing)
    (hfinish : range.finish = closing + 1) (hcallee : Attaches scope callee.build first)
    (harguments : List.Forall₂ (fun argument node => Attaches scope argument.build node)
      arguments nodes)
    (hlist : list = .branch (.arguments (Token.leftParen.symbolAt opening)
      (Token.rightParen.symbolAt closing)) (Range.span ⟨opening, closing + 1⟩) nodes)
    (hfilled : list.cover = .ok list)
    (hwhole : whole = .branch .invoke span [first.asObject callee.operator?, list])
    (hcover : whole.cover = .ok whole) :
    Attaches scope (Rule.call range callee arguments) whole := by
  subst hwhole
  intro stack
  refine (Yields.rangeSpan hspan).bind ?_
  refine (argumentList hopening hclosing horder hfinish).bind (.enter ?_ hcover)
  dsimp only
  rw [← deferring_bind]
  refine (Yields.deferring (hcallee.object _)).bind ?_
  exact Yields.enter (forM harguments _ _) (hlist ▸ hfilled)

theorem access {base : Fragment} {property : String} {first : Node} {dot start finish : Nat}
    {inner : Span} (hspan : scope.source.rangeSpan range.start range.finish = .ok span)
    (hfinish : range.finish = finish)
    (hstart : start = max (finish - property.utf8ByteSize) base.range.finish)
    (hdot : scope.source.find "." base.range.finish start = some dot)
    (hname : scope.source.rangeSpan start finish = .ok inner)
    (hbase : Attaches scope base.build first)
    (hwhole : whole = .branch (.getProperty (Token.dot.symbolAt dot)) span
      [first.asObject base.operator?,
        .leaf (.identifier ⟨.identifier, inner, property⟩) inner])
    (hcover : whole.cover = .ok whole) :
    Attaches scope (Rule.access range base property) whole := by
  subst hwhole hstart hfinish
  intro stack
  refine (Yields.rangeSpan hspan).bind ?_
  refine (Yields.find hdot).bind ((Yields.identifier hname).bind (.enter ?_ hcover))
  exact (hbase.object _).bind (.attach _)

theorem index {base inner : Fragment} {first second : Node} {opening closing : Nat}
    (hspan : scope.source.rangeSpan range.start range.finish = .ok span)
    (hopening : scope.source.find "[" base.range.finish inner.range.start = some opening)
    (hclosing : scope.source.slice closing (closing + 1) = some "]")
    (horder : inner.range.finish ≤ closing) (hfinish : range.finish = closing + 1)
    (hbase : Attaches scope base.build first) (hinner : Attaches scope inner.build second)
    (hwhole : whole = .branch
      (.getElement (Token.leftBracket.symbolAt opening) (Token.rightBracket.symbolAt closing)) span
      [first.asObject base.operator?, second])
    (hcover : whole.cover = .ok whole) :
    Attaches scope (Rule.index range base inner) whole := by
  subst hwhole
  intro stack
  refine (Yields.rangeSpan hspan).bind ((Yields.find hopening).bind ?_)
  rw [hfinish]
  refine (Yields.findEndingAt .rightBracket horder hclosing).bind (.enter ?_ hcover)
  exact (hbase.object _).bind (hinner _)

end Attaches

/-! ## Arrays -/

/-- What the elements of an array literal attach. The placeholder of one left out has the place of
the last byte of what is before it, which is given for the first element. -/
inductive AttachesElements (scope : Scope) :
    Nat → List (Option Fragment) → List Node → Prop where
  | nil {last : Nat} : AttachesElements scope last [] []
  | element {last : Nat} {operand : Fragment} {node : Node} {rest : List (Option Fragment)}
      {nodes : List Node} (first : Attaches scope operand.build node)
      (next : AttachesElements scope node.last rest nodes) :
      AttachesElements scope last (some operand :: rest) (node :: nodes)
  | hole {last : Nat} {rest : List (Option Fragment)} {nodes : List Node}
      (next : AttachesElements scope last rest nodes) :
      AttachesElements scope last (none :: rest) (.elision last :: nodes)

namespace AttachesElements

variable {scope : Scope} {last : Nat} {elements : List (Option Fragment)} {nodes : List Node}

/-- There is a node for every element. -/
theorem length_eq (h : AttachesElements scope last elements nodes) :
    nodes.length = elements.length := by
  induction h with
  | nil => rfl
  | element _ _ ih => exact congrArg (· + 1) ih
  | hole _ ih => exact congrArg (· + 1) ih

theorem forM (h : AttachesElements scope last elements nodes) {hole : Nat} (stack : Stack)
    (node : Node) (hlast : (node.children.getLast?.map Node.last).getD hole = last) :
    Yields scope (stack.push node) (elements.forM (Rule.element hole)) ()
      (stack.push (node.addChildren nodes)) := by
  induction h generalizing node with
  | nil =>
    rw [Node.addChildren_nil]
    exact .pure ()
  | @element _ _ child _ _ first _ ih =>
    rw [Node.addChildren_cons]
    exact (first (stack.push node)).bind (ih (node.addChild child) (node.last_addChild child hole))
  | @hole last _ _ _ ih =>
    have hfirst : Yields scope (stack.push node) (Rule.element hole none) ()
        (stack.push (node.addChild (.elision last))) := by
      subst hlast
      exact Yields.getStack.bind (.attach _)
    rw [Node.addChildren_cons]
    exact hfirst.bind (ih (node.addChild (.elision last)) (node.last_addChild _ hole))

end AttachesElements

/-- An array literal. -/
theorem Attaches.array {scope : Scope} {range : Range} {span : Span} {whole : Node}
    {elements : List (Option Fragment)} {nodes : List Node} {closing : Nat}
    (hspan : scope.source.rangeSpan range.start range.finish = .ok span)
    (hopening : scope.source.slice range.start (range.start + 1) = some "[")
    (hclosing : scope.source.slice closing (closing + 1) = some "]")
    (horder : range.start < closing) (hfinish : range.finish = closing + 1)
    (helements : AttachesElements scope range.start elements nodes)
    (hwhole : whole = .branch (.array (Token.leftBracket.symbolAt range.start)
      (Token.rightBracket.symbolAt closing)) span nodes)
    (hcover : whole.cover = .ok whole) :
    Attaches scope (Rule.array range elements) whole := by
  subst hwhole
  intro stack
  refine (Yields.rangeSpan hspan).bind ?_
  refine (Yields.findAtOrAfter .leftBracket hopening).bind ?_
  rw [hfinish]
  refine (Yields.findEndingAt .rightBracket horder hclosing).bind (.enter ?_ hcover)
  refine (helements.forM stack _ rfl).bind (Yields.getStack.bind ?_)
  have hequal : (nodes.length != elements.length) = false := by
    rw [helements.length_eq, bne_self_eq_false]
  exact .skip hequal

end Concretion
