import Concretion.Proofs.Parens
import Concretion.Proofs.Yields

/-!
# What runs attach

A run that succeeds has attached nodes to the innermost open node. Unlike with what is said of runs
that find a certain stack, nothing is asked here of the session in which the run starts.

- `Recover.Puts`, `Recover.PutsAll`: a single node is attached, or one after the other.
- `Recover.Returns`, `Recover.EndsIn`: what a run returns, and the last child of the innermost open
  node after it.
- `Sees.withinAll`, `Sees.withinChildren`, `Enters`: the children of a node that has been open.
- `Expr.puts`: every expression attaches a single node, but for an identifier that is skipped.
-/

namespace Concretion

open Recover

/-- What an export statement holds, or else the node itself. -/
def Node.unexported (node : Node) : Node :=
  match node.kind, node.children with
  | .exportStatement .., [declaration] => declaration
  | _, _ => node

/-- Only export statements are looked through. -/
theorem Node.unexported_of_isExport {node : Node} (h : node.kind.isExport = false) :
    node.unexported = node := by
  obtain ⟨kind, span, children, ownsSemicolon⟩ := node
  cases kind with
  | exportStatement keyword isDefault star => cases h
  | _ => rfl

/-- The kinds of nodes that operators belong to. -/
def NodeKind.isOperation : NodeKind → Bool
  | preUnary _ | postUnary _ | construct _ | spreadElement _ | yield _ | assignment _
  | binaryArithmetic _ | binaryBoolean _ | comma _ | conditional _ _ => true
  | _ => false

/-- The nodes of unary operators are among them. -/
theorem UnaryForm.isOperation_nodeKind (form : UnaryForm) (symbol : Symbol) :
    (form.nodeKind symbol).isOperation = true := by
  cases form <;> rfl

/-- So are those of binary operators. -/
theorem BinaryForm.isOperation_nodeKind (form : BinaryForm) (symbol : Symbol) :
    (form.nodeKind symbol).isOperation = true := by
  cases form <;> rfl

namespace Recover

variable {α β : Type} {scope : Scope}

/-! ## Steps that leave the stack alone -/

namespace Sees

/-- A failure is no success, so nothing is to be shown. -/
theorem throw {failure : Failure} {result : α → Prop} : Sees scope (throw failure) result := by
  intro session value last hrun
  cases hrun

theorem getStack : Sees scope getStack fun _ => True :=
  aside (·.stack) id (fun _ => rfl) fun _ => ⟨rfl, trivial⟩

theorem note (entry : Entry) : Sees scope (note entry) fun _ => True :=
  aside (fun _ => ()) (·.note entry) (fun _ => rfl) fun _ => ⟨rfl, trivial⟩

theorem gapStart : Sees scope gapStart fun _ => True :=
  aside (·.stack.gapStart) id (fun _ => rfl) fun _ => ⟨rfl, trivial⟩

theorem takeSkip : Sees scope takeSkip fun _ => True :=
  aside (·.skipsName) ({ · with skipsName := false }) (fun _ => rfl) fun _ => ⟨rfl, trivial⟩

theorem exportStatus (name : String) : Sees scope (exportStatus name) fun _ => True :=
  aside (fun _ => .of scope.info name) id (fun _ => rfl) fun _ => ⟨rfl, trivial⟩

/-- The semicolon is looked for from the later of two ends on. -/
theorem terminates (node : Node) (finish : Nat) :
    Sees scope (terminates node finish)
      (· = scope.source.endsWithSemicolon (max finish (node.last + 1))) :=
  aside (fun _ => scope.source.endsWithSemicolon (max finish (node.last + 1))) id (fun _ => rfl)
    fun _ => ⟨rfl, rfl⟩

/-- A span that is made between two offsets has these ends. -/
theorem spanBetween (start last : Nat) :
    Sees scope (spanBetween start last) (· = ⟨start, last⟩) := by
  refine (orFail _).mono fun span hspan => ?_
  cases hmake : Span.make start last with
  | error ends =>
    rw [hmake] at hspan
    cases hspan
  | ok made =>
    rw [hmake] at hspan
    cases hspan
    exact (Span.make_eq_ok_iff.1 hmake).2

/-- A span that is yielded is the one that the spans merge to. -/
theorem mergeSpans (a b : Span) : Sees scope (mergeSpans a b) fun span => a.merge b = .ok span := by
  refine (orFail _).mono fun span hspan => ?_
  cases hmerge : a.merge b with
  | error ends =>
    rw [hmerge] at hspan
    cases hspan
  | ok merged =>
    rw [hmerge] at hspan
    exact congrArg _ (Except.ok.inj hspan)

/-- Only a lenient recovery goes on with the fallback. -/
theorem settle_or (found : Except Missing α) (fallback : α) :
    Sees scope (Recover.settle found fallback) fun value => found = .ok value ∨
      (∃ missing, found = .error missing) ∧ scope.strict = false ∧ value = fallback := by
  cases found with
  | ok value => exact (pure value).mono fun _ hvalue => .inl (hvalue ▸ rfl)
  | error missing =>
    obtain ⟨source, info, strict⟩ := scope
    cases strict with
    | true =>
      intro session value last hrun
      cases hrun
    | false =>
      refine (report missing).bind fun _ _ => (pure fallback).mono fun _ hvalue => .inr ?_
      exact ⟨⟨missing, rfl⟩, rfl, hvalue⟩

/-- With or without a result, the stack is left alone. -/
theorem settle? (found : Except Missing α) : Sees scope (settle? found) fun _ => True := by
  cases found with
  | ok value => exact (pure _).mono fun _ _ => trivial
  | error missing => exact (report missing).bind fun _ _ => (pure _).mono fun _ _ => trivial

theorem symbolOver (kind : TokenKind) (span : Span) :
    Sees scope (symbolOver kind span) fun _ => True :=
  source.bind fun _ _ => (intern _).bind fun _ _ => (pure _).mono fun _ _ => trivial

theorem findWord (word context : String) (start finish : Nat) :
    Sees scope (findWord word context start finish) fun _ => True :=
  source.bind fun _ _ => (settle _ _).bind fun _ _ => (symbolAt _ _).mono fun _ _ => trivial

theorem findLastWord? (word context : String) (start finish : Nat) :
    Sees scope (findLastWord? word context start finish) fun _ => True := by
  refine source.bind fun text _ => (settle? _).bind fun found _ => ?_
  cases found with
  | some place => exact (symbolAt _ place).bind fun _ _ => (pure _).mono fun _ _ => trivial
  | none => exact (pure _).mono fun _ _ => trivial

theorem findAtOrAfter (token : Token) (context : String) (offset finish : Nat) :
    Sees scope (findAtOrAfter token context offset finish) fun _ => True := by
  refine source.bind fun text _ => ?_
  split
  · exact (symbolAt token offset).mono fun _ _ => trivial
  · exact (find token context offset finish).mono fun _ _ => trivial

/-- A name that is looked up is attached whatever has been asked for. -/
theorem identifier (start finish : Nat) (name : String) :
    Sees scope (identifier start finish name) fun _ => True :=
  (rangeSpan start finish).bind fun _ _ => (intern name).bind fun _ _ =>
    (pure _).mono fun _ _ => trivial

end Sees

/-! ## Single nodes -/

namespace Puts

variable {action : Recover Unit} {result : Node → Prop}

/-- What is known of the node may be forgotten. -/
theorem mono {weaker : Node → Prop} (h : Puts scope action result)
    (hw : ∀ node, result node → weaker node) : Puts scope action weaker := by
  intro session last hrun
  obtain ⟨node, hstack, hnode⟩ := h session last hrun
  exact ⟨node, hstack, hw node hnode⟩

theorem throw {failure : Failure} : Puts scope (throw failure) result := by
  intro session last hrun
  cases hrun

theorem identifier (name : Ident) : Puts scope (do
    Recover.attach (← Recover.identifier name.range.start name.range.finish name.name))
    fun _ => True :=
  after (Sees.identifier _ _ _) fun _ _ => attach trivial

/-- What comes next leaves the stack alone. -/
theorem before {next : Recover Unit} {found : Unit → Prop} (h : Puts scope action result)
    (hn : Sees scope next found) : Puts scope (action >>= fun _ => next) result := by
  intro session last hrun
  obtain ⟨_, later, hfirst, hsecond⟩ := ok_of_bind hrun
  obtain ⟨node, hstack, hnode⟩ := h session later hfirst
  exact ⟨node, (hn later _ last hsecond).1.trans hstack, hnode⟩

/-- An export statement holds the declaration, whose semicolon becomes its own. -/
theorem exportIf {status : ExportStatus} {node : Node} {windowStart : Nat} (hnode : result node)
    (hexport : ∀ keyword isDefault span, result ⟨.exportStatement keyword isDefault none, span,
      [{ node with ownsSemicolon := false }], node.ownsSemicolon⟩) :
    Puts scope (do Recover.attach (← Rule.exportIf status node windowStart)) result := by
  unfold Rule.exportIf
  split
  · simp only [Rule.wrapExport, bind_assoc, pure_bind]
    refine after (.findLastWord? _ _ _ _) fun keyword _ => ?_
    exact after (.spanBetween _ _) fun span _ => attach (hexport _ _ _)
  · exact attach hnode

/-- What is said of a declaration is said of what an export statement holds. -/
theorem exportIf_unexported (result : Node → Prop) {status : ExportStatus} {node : Node}
    {windowStart : Nat} (hkind : node.kind.isExport = false) (hnode : result node)
    (hflag : result { node with ownsSemicolon := false }) :
    Puts scope (do Recover.attach (← Rule.exportIf status node windowStart))
      fun made => result made.unexported := by
  refine exportIf ?_ fun _ _ _ => hflag
  rwa [Node.unexported_of_isExport hkind]

end Puts

/-! ## Several nodes -/

/-- A run that succeeds attaches nodes, which are as said. -/
def PutsAll (scope : Scope) (action : Recover Unit) (result : List Node → Prop) : Prop :=
  ∀ session last, action.outcome scope session = (.ok (), last) →
    ∃ nodes, last.stack = session.stack.attachAll nodes ∧ result nodes

namespace PutsAll

variable {action next : Recover Unit} {result : List Node → Prop}

/-- What is known of the nodes may be forgotten. -/
theorem mono {weaker : List Node → Prop} (h : PutsAll scope action result)
    (hw : ∀ nodes, result nodes → weaker nodes) : PutsAll scope action weaker := by
  intro session last hrun
  obtain ⟨nodes, hstack, hnodes⟩ := h session last hrun
  exact ⟨nodes, hstack, hw nodes hnodes⟩

/-- A single node is a list of one. -/
theorem ofPuts {single : Node → Prop} (h : Puts scope action single) :
    PutsAll scope action fun nodes => ∃ node, nodes = [node] ∧ single node := by
  intro session last hrun
  obtain ⟨node, hstack, hnode⟩ := h session last hrun
  exact ⟨[node], hstack, node, rfl, hnode⟩

/-- What leaves the stack alone attaches nothing. -/
theorem ofSees {found : Unit → Prop} (h : Sees scope action found) :
    PutsAll scope action (· = []) := by
  intro session last hrun
  exact ⟨[], (h session () last hrun).1, rfl⟩

/-- What is attached behind a lookup is all there is. -/
theorem after {α : Type} {look : Recover α} {found : α → Prop} {next : α → Recover Unit}
    (h : Sees scope look found) (hn : ∀ value, found value → PutsAll scope (next value) result) :
    PutsAll scope (look >>= next) result := by
  intro session last hrun
  obtain ⟨value, later, hfirst, hsecond⟩ := ok_of_bind hrun
  obtain ⟨hstack, hfound⟩ := h session value later hfirst
  rw [← hstack]
  exact hn value hfound later last hsecond

/-- What is attached in sequence stands in sequence. -/
theorem andThen {more : List Node → Prop} (h : PutsAll scope action result)
    (hn : PutsAll scope next more) :
    PutsAll scope (action >>= fun _ => next) fun nodes =>
      ∃ front back, nodes = front ++ back ∧ result front ∧ more back := by
  intro session last hrun
  obtain ⟨_, later, hfirst, hsecond⟩ := ok_of_bind hrun
  obtain ⟨front, hfront, hresult⟩ := h session later hfirst
  obtain ⟨back, hback, hmore⟩ := hn later last hsecond
  refine ⟨front ++ back, ?_, front, back, rfl, hresult, hmore⟩
  rw [hback, hfront, Stack.attachAll_append]

/-- Each item has a group of nodes of its own. -/
theorem forM {γ : Type} {step : γ → Recover Unit} {result : γ → List Node → Prop} {list : List γ}
    (h : ∀ item ∈ list, PutsAll scope (step item) (result item)) :
    PutsAll scope (list.forM step) fun nodes =>
      ∃ groups : List (List Node), nodes = groups.flatten ∧ List.Forall₂ result list groups := by
  induction list with
  | nil => exact (ofSees (Sees.pure ())).mono fun nodes hnodes => ⟨[], hnodes, .nil⟩
  | cons item rest ih =>
    obtain ⟨hitem, hrest⟩ := List.forall_mem_cons.1 h
    show PutsAll scope (step item >>= fun _ => rest.forM step) _
    refine (andThen hitem (ih hrest)).mono ?_
    rintro _ ⟨front, _, rfl, hfront, groups, rfl, hgroups⟩
    exact ⟨front :: groups, List.flatten_cons.symm, .cons hfront hgroups⟩

/-- Each item has a node of its own. -/
theorem each {γ : Type} {step : γ → Recover Unit} {result : γ → Node → Prop} {list : List γ}
    (h : ∀ item ∈ list, Puts scope (step item) (result item)) :
    PutsAll scope (list.forM step) fun nodes => List.Forall₂ result list nodes := by
  induction list with
  | nil => exact (ofSees (Sees.pure ())).mono fun nodes hnodes => hnodes ▸ .nil
  | cons item rest ih =>
    obtain ⟨hitem, hrest⟩ := List.forall_mem_cons.1 h
    show PutsAll scope (step item >>= fun _ => rest.forM step) _
    refine (andThen (.ofPuts hitem) (ih hrest)).mono ?_
    rintro _ ⟨_, nodes, rfl, ⟨node, rfl, hnode⟩, hnodes⟩
    exact .cons hnode hnodes

end PutsAll

/-! ## The last child -/

/-- What a run that succeeds returns is as said, whatever it does to the stack. -/
def Returns (scope : Scope) (action : Recover α) (result : α → Prop) : Prop :=
  ∀ session value last, action.outcome scope session = (.ok value, last) → result value

/-- After a run that succeeds, the last child of the innermost open node is as said. -/
def EndsIn (scope : Scope) (action : Recover α) (result : Node → Prop) : Prop :=
  ∀ session value last, action.outcome scope session = (.ok value, last) →
    ∃ node, last.stack.lastChild? = some node ∧ result node

/-- A node that is attached is the last child afterwards. -/
theorem Puts.endsIn {action : Recover Unit} {result : Node → Prop} (h : Puts scope action result) :
    EndsIn scope action result := by
  intro session _ last hrun
  obtain ⟨node, hstack, hnode⟩ := h session last hrun
  exact ⟨node, hstack ▸ Stack.lastChild?_attach _ _, hnode⟩

namespace EndsIn

variable {result : Node → Prop}

/-- What has been done before does not matter. -/
theorem behind {action : Recover α} {next : α → Recover β}
    (h : ∀ value, EndsIn scope (next value) result) : EndsIn scope (action >>= next) result := by
  intro session value last hrun
  obtain ⟨found, later, -, hsecond⟩ := ok_of_bind hrun
  exact h found later value last hsecond

/-- The last child is what the second computation leaves, whatever the first one has attached. -/
theorem returned {action : Recover α} {found : α → Prop} {next : α → Recover β}
    (h : Returns scope action found)
    (hn : ∀ value, found value → EndsIn scope (next value) result) :
    EndsIn scope (action >>= next) result := by
  intro session value last hrun
  obtain ⟨made, later, hfirst, hsecond⟩ := ok_of_bind hrun
  exact hn made (h session made later hfirst) later value last hsecond

/-- So it is behind a lookup. -/
theorem after {action : Recover α} {found : α → Prop} {next : α → Recover β}
    (h : Sees scope action found) (hn : ∀ value, found value → EndsIn scope (next value) result) :
    EndsIn scope (action >>= next) result :=
  returned (fun session value last hrun => (h session value last hrun).2) hn

end EndsIn

/-! ## Open nodes -/

/-- A node has the children that were attached while it was open, and covers them. -/
theorem Sees.withinAll {node : Node} {body : Recover Unit} {result : List Node → Prop}
    (h : PutsAll scope body result) :
    Sees scope (Recover.within node body) fun made => ∃ nodes, result nodes ∧
      ({ node with children := node.children ++ nodes }).cover = .ok made := by
  intro session made last hrun
  obtain ⟨later, closed, hbody, hopened, hroot, -, -, -, hcover⟩ := ok_of_within hrun
  obtain ⟨nodes, hstack, hnodes⟩ := h (session.opening node) later hbody
  have hpush : later.stack =
      session.stack.push { node with children := node.children ++ nodes } :=
    hstack.trans (Stack.push_attachAll _ _ _)
  rw [hpush] at hopened hroot
  obtain ⟨rfl, houter⟩ := List.cons_eq_cons.1 hopened
  exact ⟨congrArg₂ Stack.mk hroot houter.symm, nodes, hnodes, hcover⟩

/-- A node has the children that were left behind while it was open. -/
theorem Sees.withinChildren {node : Node} {body : Recover Unit} (result : List Node → Prop)
    (hbody : Builds False true body)
    (h : ∀ session last, body.outcome scope session = (.ok (), last) → result last.stack.children) :
    Sees scope (Recover.within node body) fun made =>
      made.kind = node.kind ∧ result made.children := by
  intro session made last hrun
  obtain ⟨hstack, hkind⟩ := Sees.within hbody session made last hrun
  obtain ⟨later, closed, hlater, hopened, -, -, -, -, hcover⟩ := ok_of_within hrun
  have hchildren := h (session.opening node) later hlater
  have hcurrent : later.stack.current = closed := by
    rw [Stack.current, hopened]
  rw [Stack.children, hcurrent] at hchildren
  obtain ⟨span, rfl⟩ := Node.eq_of_cover hcover
  exact ⟨hstack, hkind, hchildren⟩

/-- The last child of a node is what was left behind while it was open. -/
theorem Sees.withinEndsIn {node : Node} {body : Recover Unit} {result : Node → Prop}
    (hbody : Builds False true body) (h : EndsIn scope body result) :
    Sees scope (Recover.within node body) fun made =>
      made.kind = node.kind ∧ ∃ child, made.lastChild? = some child ∧ result child :=
  withinChildren (fun nodes => ∃ child, nodes.getLast? = some child ∧ result child) hbody
    fun session last => h session () last

/-- A leaf gets children as said from what is done while it is open. -/
def Enters (scope : Scope) (body : Recover Unit) (result : List Node → Prop) : Prop :=
  ∀ kind span, Puts scope (enter (.leaf kind span) body) fun made =>
    made.kind = kind ∧ result made.children

namespace Enters

variable {body : Recover Unit} {result : List Node → Prop}

/-- A computation that only builds may run below a node that has been opened. -/
theorem ofBuilds (h : Builds False true body) : Enters scope body fun _ => True :=
  fun _ _ => .enter h fun _ hkind => ⟨hkind, trivial⟩

/-- What is attached below a node becomes its children. -/
theorem ofPutsAll (h : PutsAll scope body result) : Enters scope body result := by
  intro kind span
  refine .after (Sees.withinAll h) ?_
  rintro made ⟨nodes, hnodes, hcover⟩
  obtain ⟨wide, rfl⟩ := Node.eq_of_cover hcover
  exact .attach ⟨rfl, hnodes⟩

end Enters

end Recover

/-! ## Functions and classes -/

namespace Rule

variable {scope : Scope}

/-- To find out where a function starts leaves the stack alone. -/
theorem sees_functionStart (function : FunctionFragment) (member : Option MemberFragment) :
    Sees scope (functionStart function member) fun _ => True := by
  have hpure : ∀ place : Nat, Sees scope (pure place) fun _ => True :=
    fun place => (Sees.pure place).mono fun _ _ => trivial
  cases member with
  | some member => exact hpure _
  | none =>
    unfold functionStart
    dsimp only
    split
    · exact hpure _
    · split
      · refine Sees.source.bind fun text _ => Sees.gapStart.bind fun start _ => ?_
        exact (Sees.settle _ _).mono fun _ _ => trivial
      · exact hpure _

/-- The kind of the node is that of the function, whatever its parts are. -/
theorem sees_functionNode {function : FunctionFragment} {member : Option MemberFragment}
    (hf : function.Sound False) (hm : ∀ part ∈ member, part.Sound False) :
    Sees scope (functionNode function member)
      (·.kind = functionNodeKind function (member.any (·.isStatic))) := by
  refine (sees_functionStart _ _).bind fun start _ => (Sees.rangeSpan _ _).bind fun span _ => ?_
  refine .within ?_
  exact (sound_functionName function hm).andThen ((sound_parameters _ hf).andThen hf.body.builds)

/-- What is said of the node of a function is said of what is attached, without the export statement
that may be around it. -/
theorem puts_functionExpression_of {function : FunctionFragment} (result : Node → Prop)
    (h : Sees scope (functionNode function none) fun node =>
      node.kind.isExport = false ∧ result node ∧ result { node with ownsSemicolon := false }) :
    Puts scope (functionExpression function) fun node => result node.unexported := by
  refine .after (.note _) fun _ _ => .after .gapStart fun windowStart _ => ?_
  refine .after h fun node ⟨hkind, hnode, hflag⟩ => ?_
  have hattach : ∀ status : ExportStatus, Puts scope (do
      attach (← exportIf status node windowStart)) fun made => result made.unexported :=
    fun status => .exportIf_unexported result hkind hnode hflag
  dsimp only
  split
  · refine .after (.exportStatus _) fun status _ => ?_
    have hskip : Sees scope skipNextName fun _ => True :=
      .aside (fun _ => ()) (fun session => { session with skipsName := true }) (fun _ => rfl)
        fun _ => ⟨rfl, trivial⟩
    simpa only [bind_assoc] using (hattach status).before hskip
  · simpa only [pure_bind, bind_pure_unit] using hattach .hidden

/-- A function is one node, in an export statement or by itself. -/
theorem puts_functionExpression {function : FunctionFragment} (h : function.Sound False) :
    Puts scope (functionExpression function) fun _ => True := by
  have hnode : Sees scope (functionNode function none) fun node =>
      node.kind.isExport = false ∧ True ∧ True := by
    refine (sees_functionNode h ?_).mono fun node hkind => ?_
    · rintro part ⟨⟩
    · exact ⟨hkind ▸ isExport_functionNodeKind _ _, trivial, trivial⟩
  exact (puts_functionExpression_of _ hnode).mono fun _ _ => trivial

/-- The node of a class is closed and handed on. -/
theorem sees_classNode {definition : ClassFragment} (name : Option Ident)
    (h : definition.Sound False) :
    Sees scope (classNode definition name) (·.kind = .classDefinition) := by
  refine (Sees.note _).bind fun _ _ => (Sees.rangeSpan _ _).bind fun span _ => ?_
  exact .within (sound_classParts name h)

/-! ## Other expressions -/

/-- A literal is handed on and not attached yet. -/
theorem sees_verbatim (range : Range) (token : TokenKind) (kind : Symbol → NodeKind) :
    Sees scope (verbatim range token kind) fun _ => True := by
  refine (Sees.rangeSpan _ _).bind fun span _ => (Sees.symbolOver _ _).bind fun symbol _ => ?_
  exact (Sees.pure _).mono fun _ _ => trivial

theorem sees_numeral (span : Span) : Sees scope (numeral span) fun _ => True :=
  (Sees.symbolOver _ _).bind fun _ _ => (Sees.pure _).mono fun _ _ => trivial

theorem sees_number (range : Range) : Sees scope (number range) fun _ => True := by
  rw [number]
  refine (Sees.rangeSpan _ _).bind fun full _ => Sees.source.bind fun text _ => ?_
  dsimp only
  split
  · exact sees_numeral full
  · exact (Sees.spanBetween _ _).bind fun span _ => sees_numeral span

theorem sees_quoteShown (span : Span) (found : Option UInt8) :
    Sees scope (quoteShown span found) fun _ => True := by
  unfold quoteShown
  split
  · exact (Sees.pure _).mono fun _ _ => trivial
  · split
    · exact (Sees.note _).bind fun _ _ => (Sees.pure _).mono fun _ _ => trivial
    · exact (Sees.pure _).mono fun _ _ => trivial

/-- That a quotation mark is missing leaves only a note. -/
theorem sees_string (range : Range) (value : String) :
    Sees scope (string range value) fun _ => True := by
  rw [string]
  refine Sees.source.bind fun text _ => ?_
  split
  · exact .throw
  · refine (Sees.rangeSpan _ _).bind fun span _ => (sees_quoteShown _ _).bind fun quote _ => ?_
    exact (Sees.intern _).bind fun _ _ => (Sees.pure _).mono fun _ _ => trivial

/-- Every literal is one node. -/
theorem puts_literal (range : Range) (value : Literal) :
    Puts scope (literal range value) fun _ => True := by
  unfold literal
  split
  · exact .after (sees_number _) fun node _ => .attach trivial
  · exact .after (sees_string _ _) fun node _ => .attach trivial
  all_goals exact .after (sees_verbatim _ _ _) fun node _ => .attach trivial

/-- Where there are arguments there is a list of them. -/
theorem sees_argumentParens (range : Range) (opening : Nat) :
    Sees scope (argumentParens range opening) fun list =>
      ∃ lparen rparen span, list = some (.leaf (.arguments lparen rparen) span) := by
  refine (Sees.symbolAt _ _).bind fun lparen _ => ?_
  refine (Sees.findEndingAt _ _ _ _).bind fun rparen _ => ?_
  refine (Sees.mergeSpans _ _).bind fun span _ => (Sees.pure _).mono ?_
  exact fun list hlist => ⟨lparen, rparen, span, hlist⟩

/-- Where there are arguments there is a list of them. -/
theorem sees_argumentList (range : Range) (calleeEnd : Nat) (arguments : List Fragment) :
    Sees scope (argumentList range calleeEnd arguments) fun list =>
      (list = none → arguments = []) ∧
        ∀ node ∈ list, ∃ lparen rparen span, node = .leaf (.arguments lparen rparen) span := by
  have hlist : ∀ opening : Nat, Sees scope (argumentParens range opening) fun list =>
      (list = none → arguments = []) ∧
        ∀ node ∈ list, ∃ lparen rparen span, node = .leaf (.arguments lparen rparen) span := by
    intro opening
    refine (sees_argumentParens range opening).mono ?_
    rintro _ ⟨lparen, rparen, span, rfl⟩
    refine ⟨fun h => (by cases h), ?_⟩
    rintro node ⟨⟩
    exact ⟨lparen, rparen, span, rfl⟩
  -- Without arguments the parentheses may be missing, and there is no list then.
  cases arguments with
  | nil =>
    rw [argumentList]
    refine Sees.source.bind fun text _ => ?_
    cases text.find "(" calleeEnd range.finish with
    | none =>
      refine (Sees.pure _).mono ?_
      rintro _ rfl
      exact ⟨fun _ => rfl, fun _ h => (by cases h)⟩
    | some opening => exact hlist opening
  | cons first rest =>
    rw [argumentList]
    exact Sees.source.bind fun text _ => (Sees.settle _ _).bind fun opening _ => hlist opening

/-- An object is one node, whatever its members attach below it. -/
theorem puts_object (range : Range) {members : List (Recover Unit)}
    (h : ∀ member ∈ members, Builds False false member) :
    Puts scope (object range members) fun _ => True := by
  refine .after (.rangeSpan _ _) fun span _ => .after (.findAtOrAfter _ _ _ _) fun lbrace _ => ?_
  refine .after (.findEndingAt _ _ _ _) fun rbrace _ => .enter ?_ fun _ _ => trivial
  exact Sound.forM fun member hmember => (h member hmember).relax

section Operands

variable {first second third : Fragment} {operator : Operator} {result : List Node → Prop}

/-- The node holds what its operand leaves below it. -/
theorem puts_unary (range : Range)
    (h : ∀ spelling form, operator.unaryForm = some (spelling, form) →
      Enters scope (operandBelow operator form first) result) :
    Puts scope (unary range operator first) fun made =>
      made.kind.isOperation = true ∧ result made.children := by
  rw [unary]
  refine .after (.rangeSpan _ _) fun span _ => ?_
  split
  · exact .throw
  · next spelling form hform =>
    have hnode : ∀ symbol : Symbol,
        Puts scope (enter (.leaf (form.nodeKind symbol) span) (operandBelow operator form first))
          fun made => made.kind.isOperation = true ∧ result made.children := by
      intro symbol
      refine (h spelling form hform _ _).mono ?_
      rintro made ⟨hkind, hchildren⟩
      exact ⟨hkind ▸ form.isOperation_nodeKind symbol, hchildren⟩
    dsimp only
    split
    · exact .after (.findEndingAt _ _ _ _) fun symbol _ => hnode symbol
    · exact .after (.findAtOrAfter _ _ _ _) fun symbol _ => hnode symbol

/-- The node holds what both operands leave below it. -/
theorem puts_binary (range : Range) (h : Enters scope (do
      first.buildBeside operator .left
      second.buildBeside operator .right) result) :
    Puts scope (binary range operator first second) fun made =>
      made.kind.isOperation = true ∧ result made.children := by
  refine .after (.rangeSpan _ _) fun span _ => ?_
  split
  · exact .throw
  · next spelling form _ =>
    have hsymbol : ∀ start finish, Sees scope (operatorBetween spelling start finish)
        fun _ => True := by
      intro start finish
      unfold operatorBetween
      dsimp only
      split
      · exact .findWord _ _ _ _
      · exact (Sees.find _ _ _ _).mono fun _ _ => trivial
    refine .after (hsymbol _ _) fun symbol _ => (h _ _).mono ?_
    rintro made ⟨hkind, hchildren⟩
    exact ⟨hkind ▸ form.isOperation_nodeKind symbol, hchildren⟩

/-- The node holds what the three parts leave below it. -/
theorem puts_conditional (range : Range) (h : Enters scope (do
      first.buildBeside .conditional .left
      second.buildBeside .assign .right
      third.buildBeside .assign .right) result) :
    Puts scope (conditional range first second third) fun made =>
      made.kind.isOperation = true ∧ result made.children := by
  refine .after (.rangeSpan _ _) fun span _ => .after (.find _ _ _ _) fun question _ => ?_
  refine .after (.find _ _ _ _) fun colon _ => (h _ _).mono ?_
  rintro made ⟨hkind, hchildren⟩
  exact ⟨hkind ▸ rfl, hchildren⟩

/-- The name of the property stands behind what the object leaves. -/
theorem puts_access (range : Range) (property : String) (h : ∀ name, Enters scope (do
      first.buildObject
      attach name) result) :
    Puts scope (access range first property) fun made =>
      (∃ dot, made.kind = .getProperty dot) ∧ result made.children := by
  refine .after (.rangeSpan _ _) fun span _ => .after (.find _ _ _ _) fun dot _ => ?_
  refine .after (.identifier _ _ _) fun name _ => (h name _ _).mono ?_
  rintro made ⟨hkind, hchildren⟩
  exact ⟨⟨dot, hkind⟩, hchildren⟩

/-- The index stands behind what the object leaves. -/
theorem puts_index (range : Range) (h : Enters scope (do
      first.buildObject
      second.build) result) :
    Puts scope (Rule.index range first second) fun made =>
      (∃ lbracket rbracket, made.kind = .getElement lbracket rbracket) ∧ result made.children := by
  refine .after (.rangeSpan _ _) fun span _ => .after (.find _ _ _ _) fun lbracket _ => ?_
  refine .after (.findEndingAt _ _ _ _) fun rbracket _ => (h _ _).mono ?_
  rintro made ⟨hkind, hchildren⟩
  exact ⟨⟨lbracket, rbracket, hkind⟩, hchildren⟩

/-- The list of arguments is put aside while the callee is recovered. -/
theorem puts_call (result : List Node → Prop) (range : Range) {arguments : List Fragment}
    (hnone : arguments = [] → Enters scope first.buildObject result)
    (hsome : ∀ lparen rparen span, Enters scope
      (deferring (.leaf (.arguments lparen rparen) span) first.buildObject >>= fun list =>
        enter list (arguments.forM (·.build))) result) :
    Puts scope (call range first arguments) fun made =>
      made.kind = .invoke ∧ result made.children := by
  refine .after (.rangeSpan _ _) fun span _ => .after (sees_argumentList _ _ _) ?_
  rintro list ⟨hempty, hlist⟩
  cases list with
  | none => exact hnone (hempty rfl) _ _
  | some list =>
    obtain ⟨lparen, rparen, place, rfl⟩ := hlist list rfl
    have hdeferred := hsome lparen rparen place .invoke span
    rw [deferring_bind] at hdeferred
    exact hdeferred

/-- The node holds the elements, whose number is checked before it is closed. -/
theorem puts_array (range : Range) {elements : List (Option Fragment)}
    (h : ∀ hole span, Enters scope (do
      elements.forM (element hole)
      let count := (← getStack).current.childCount
      if count != elements.length then
        throw (.shape "Array" (.elementCount elements.length count) (some span))) result) :
    Puts scope (array range elements) fun made =>
      (∃ lbracket rbracket, made.kind = .array lbracket rbracket) ∧ result made.children := by
  refine .after (.rangeSpan _ _) fun span _ => .after (.findAtOrAfter _ _ _ _) fun lbracket _ => ?_
  refine .after (.findEndingAt _ _ _ _) fun rbracket _ => (h _ _ _ _).mono ?_
  rintro made ⟨hkind, hchildren⟩
  exact ⟨⟨lbracket, rbracket, hkind⟩, hchildren⟩

end Operands

end Rule

/-- What applies an operator attaches the node of that operator. -/
theorem Expr.puts_operation {expr : Expr} {operator : Operator} (h : expr.operator? = some operator)
    (scope : Scope) : Puts scope expr.recover (·.kind.isOperation = true) := by
  have hsound : ∀ expr : Expr, (expr.fragmentOf expr.recover).Sound False :=
    fun expr => (expr.sound False).builds
  cases expr with
  | unary range operator operand =>
    refine (Rule.puts_unary range fun spelling form _ => .ofBuilds ?_).mono fun _ => And.left
    refine (Fragment.sound_buildBeside (hsound operand) _ _).andThen ?_
    split
    · exact Rule.sound_flattenInvoke
    · exact .pure fun _ => trivial
  | binary range operator left right =>
    refine (Rule.puts_binary range (.ofBuilds ?_)).mono fun _ => And.left
    exact (Fragment.sound_buildBeside (hsound left) _ _).andThen
      (Fragment.sound_buildBeside (hsound right) _ _)
  | conditional range test consequent alternate =>
    refine (Rule.puts_conditional range (.ofBuilds ?_)).mono fun _ => And.left
    exact (Fragment.sound_buildBeside (hsound test) _ _).andThen
      ((Fragment.sound_buildBeside (hsound consequent) _ _).andThen
        (Fragment.sound_buildBeside (hsound alternate) _ _))
  | _ => cases h

/-- Every expression attaches a single node, but for an identifier that is skipped. -/
theorem Expr.puts {expr : Expr} (hident : ∀ name, expr ≠ .ident name) (scope : Scope) :
    Puts scope expr.recover fun _ => True := by
  have hsound : ∀ expr : Expr, (expr.fragmentOf expr.recover).Sound False :=
    fun expr => (expr.sound False).builds
  cases expr with
  | ident name => exact absurd rfl (hident name)
  | literal range value => exact Rule.puts_literal range value
  | array range elements =>
    refine (Rule.puts_array range fun hole span => .ofBuilds ?_).mono fun _ _ => trivial
    refine (Sound.forM fun element hmem =>
      Rule.sound_element _ (elementFragments_sound False elements element hmem)).andThen ?_
    refine Sound.getStack.bind fun stack _ => ?_
    dsimp only
    split
    · exact .throw rfl rfl False.elim
    · exact .pure fun _ => trivial
  | unary | binary | conditional => exact (Expr.puts_operation rfl scope).mono fun _ _ => trivial
  | call range callee arguments =>
    have hcallee : Builds False true (callee.fragmentOf callee.recover).buildObject :=
      Fragment.sound_buildObject (hsound callee)
    refine (Rule.puts_call _ range (fun _ => .ofBuilds hcallee)
      fun lparen rparen span => .ofBuilds ?_).mono fun _ _ => trivial
    refine (Sound.deferring hcallee).bind fun list _ => .enter False.elim ?_
    exact Sound.forM fun argument hmem =>
      (argumentFragments_sound False arguments argument hmem).builds
  | access range base property =>
    refine (Rule.puts_access range property fun name => .ofBuilds ?_).mono fun _ _ => trivial
    exact (Fragment.sound_buildObject (hsound base)).andThen (.attach False.elim)
  | index range base index =>
    refine (Rule.puts_index range (.ofBuilds ?_)).mono fun _ _ => trivial
    exact (Fragment.sound_buildObject (hsound base)).andThen (hsound index).builds
  | object range members => exact Rule.puts_object range (memberBuilds_sound False members)
  | functionDef definition => exact Rule.puts_functionExpression (definition.sound False)
  | classDef definition =>
    exact .after (Rule.sees_classNode _ (definition.sound False)) fun node _ => .attach trivial

/-- An expression attaches at most a single node. -/
theorem Expr.putsAll (expr : Expr) (scope : Scope) :
    PutsAll scope expr.recover fun nodes => nodes.length ≤ 1 := by
  by_cases hident : ∃ name, expr = .ident name
  · obtain ⟨name, rfl⟩ := hident
    refine .after .takeSkip fun skips _ => ?_
    split
    · exact (PutsAll.ofSees (.note _)).mono fun nodes hnodes => hnodes ▸ Nat.zero_le 1
    · exact (PutsAll.ofPuts (.identifier name)).mono
        fun nodes ⟨node, hnodes, _⟩ => hnodes ▸ Nat.le_refl 1
  · have hputs := Expr.puts (fun name heq => hident ⟨name, heq⟩) scope
    exact (PutsAll.ofPuts hputs).mono fun nodes ⟨node, hnodes, _⟩ => hnodes ▸ Nat.le_refl 1

/-- An identifier that is not skipped is attached too. -/
theorem Expr.exists_attach {expr : Expr} {scope : Scope} {session last : Session}
    (hskips : session.skipsName = false)
    (hrun : expr.recover.outcome scope session = (.ok (), last)) :
    ∃ node, last.stack = session.stack.attach node := by
  by_cases hident : ∃ name, expr = .ident name
  · obtain ⟨name, rfl⟩ := hident
    have htake : takeSkip.outcome scope session = (.ok false, session) := by
      obtain ⟨stack, names, shelf, skips, warnings, journal⟩ := session
      cases hskips
      rfl
    rw [Expr.recover, Rule.ident, outcome_bind_ok htake] at hrun
    obtain ⟨node, hstack, -⟩ := Puts.identifier name session last hrun
    exact ⟨node, hstack⟩
  · obtain ⟨node, hstack, -⟩ :=
      Expr.puts (fun name heq => hident ⟨name, heq⟩) scope session last hrun
    exact ⟨node, hstack⟩

end Concretion
