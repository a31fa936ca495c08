import Concretion.Proofs.Inversion
import Concretion.Proofs.Yields

/-!
# How the open node grows

What a run that succeeds has done to the tree it has done to the children of the innermost open
node. So it is enough to follow these children: which there are at first, and which there are in the
end. No name is to be skipped at first nor in the end, and what has been deferred has been taken
back.

- `Gives`: what a computation makes of the children that it finds, if it succeeds.
- `Looks`: computations that leave the children alone.
- `Appends`: computations that put a single node behind the children.
- `Gives.bind`, `Looks.within`, `Gives.deferring`: sequences, open nodes, and deferred nodes.
-/

namespace Concretion

namespace Stack

/-- A child at the end is put in a group of its own span. -/
theorem groupLastChild_eq {stack : Stack} {children : List Node} {node : Node}
    (h : stack.children = children ++ [node]) :
    stack.groupLastChild =
      .ok (stack.setChildren (children ++ [.branch .group node.span [node]])) := by
  have hattach : stack = (stack.setChildren children).attach node := by
    rw [attach_eq_setChildren, children_setChildren, setChildren_setChildren, ← h,
      setChildren_children]
  rw [hattach, groupLastChild_attach, ← hattach, attach_eq_setChildren, children_setChildren,
    setChildren_setChildren]

/-- The last of three children is put under a wrapper. -/
theorem wrapChild_third {stack : Stack} {first second third : Node} (wrapper : Node)
    (h : stack.children = [first, second, third]) :
    stack.wrapChild 2 wrapper =
      .ok (stack.setChildren [first, second, wrapper.addChild third]) := by
  have hthird : stack.children[2]? = some third := by
    rw [h]
    rfl
  rw [wrapChild_eq hthird, h]
  rfl

end Stack

namespace Recover

variable {α β : Type} {scope : Scope} {children : List Node}

/-- Nothing has come of a run but other children of the innermost open node. -/
structure Grown (before after : Session) : Prop where
  skipsName : after.skipsName = false
  pending : after.shelf.pending = before.shelf.pending
  stack : after.stack = before.stack.setChildren after.stack.children

/-- What the computation makes of the children of the innermost open node, if it succeeds. -/
def Gives (scope : Scope) (children : List Node) (action : Recover α)
    (result : α → List Node → Prop) : Prop :=
  ∀ session : Session, session.stack.children = children → session.skipsName = false →
    ∀ value later, action.outcome scope session = (.ok value, later) →
      Grown session later ∧ result value later.stack.children

/-- The computation leaves the children as they are. -/
def Looks (scope : Scope) (action : Recover α) (result : α → Prop) : Prop :=
  ∀ children, Gives scope children action fun value after => after = children ∧ result value

/-- The computation puts one node behind the children. -/
def Appends (scope : Scope) (action : Recover Unit) (result : Node → Prop) : Prop :=
  ∀ children, Gives scope children action fun _ after =>
    ∃ node, after = children ++ [node] ∧ result node

namespace Gives

variable {action : Recover α} {result : α → List Node → Prop}

/-! ## Sequencing -/

/-- What a computation makes of the children may be said more weakly. -/
theorem mono {weaker : α → List Node → Prop} (h : Gives scope children action result)
    (hw : ∀ value after, result value after → weaker value after) :
    Gives scope children action weaker := by
  intro session hchildren hskips value later hrun
  obtain ⟨hgrown, hresult⟩ := h session hchildren hskips value later hrun
  exact ⟨hgrown, hw _ _ hresult⟩

/-- A computation that only returns leaves the children as they are. -/
theorem pure {value : α} (h : result value children) :
    Gives scope children (Pure.pure value) result := by
  intro session hchildren hskips _ _ hrun
  cases hrun
  exact ⟨⟨hskips, rfl, (Stack.setChildren_children _).symm⟩, hchildren ▸ h⟩

/-- Nothing is said of runs that fail. -/
theorem throw {failure : Failure} :
    Gives scope children (throw failure : Recover α) result := by
  intro session _ _ _ _ hrun
  cases hrun

/-- The second part of a sequence begins with the children that the first one leaves. -/
theorem bind {next : α → Recover β} {last : β → List Node → Prop}
    (h : Gives scope children action result)
    (hn : ∀ value between, result value between → Gives scope between (next value) last) :
    Gives scope children (action >>= next) last := by
  intro session hchildren hskips value later hrun
  obtain ⟨found, between, hfirst, hsecond⟩ := ok_of_bind hrun
  obtain ⟨hgrown, hresult⟩ := h session hchildren hskips found between hfirst
  obtain ⟨hgrown', hlast⟩ := hn found _ hresult between rfl hgrown.skipsName value later hsecond
  refine ⟨⟨hgrown'.skipsName, hgrown'.pending.trans hgrown.pending, ?_⟩, hlast⟩
  rw [hgrown'.stack, hgrown.stack, Stack.setChildren_setChildren, Stack.children_setChildren]

/-! ## Steps -/

/-- The stack that is read is the one whose children are followed. -/
theorem getStack :
    Gives scope children getStack fun stack after =>
      after = children ∧ stack.children = children := by
  intro session hchildren hskips _ _ hrun
  cases hrun
  exact ⟨⟨hskips, rfl, (Stack.setChildren_children _).symm⟩, hchildren, hchildren⟩

/-- A change to the children alone. -/
theorem modifyStack {change : Stack → Stack} {after : List Node}
    (h : ∀ stack : Stack, stack.children = children → change stack = stack.setChildren after) :
    Gives scope children (modifyStack change) fun _ made => made = after := by
  intro session hchildren hskips _ _ hrun
  cases hrun
  have hchange := h session.stack hchildren
  refine ⟨⟨hskips, rfl, ?_⟩, ?_⟩
  · show change session.stack = session.stack.setChildren (change session.stack).children
    rw [hchange, Stack.children_setChildren]
  · show (change session.stack).children = after
    rw [hchange, Stack.children_setChildren]

/-- A change to the children that may be refused. -/
theorem edit {change : Stack → Except Failure Stack} {after : List Node}
    (h : ∀ stack made, stack.children = children → change stack = .ok made →
      made = stack.setChildren after) :
    Gives scope children (edit change) fun _ made => made = after := by
  intro session hchildren hskips _ later hrun
  obtain ⟨stack, hstack, rfl⟩ := ok_of_edit hrun
  have hmade := h _ stack hchildren hstack
  refine ⟨⟨hskips, rfl, ?_⟩, ?_⟩
  · show stack = session.stack.setChildren stack.children
    rw [hmade, Stack.children_setChildren]
  · show stack.children = after
    rw [hmade, Stack.children_setChildren]

/-- A node is attached behind the children. -/
theorem attach (node : Node) :
    Gives scope children (attach node) fun _ after => after = children ++ [node] :=
  modifyStack fun stack hchildren => hchildren ▸ stack.attach_eq_setChildren node

/-- The last child is replaced. -/
theorem replaceLast {node : Node} (made : Node) (h : children.getLast? = some node) :
    Gives scope children
      (Recover.modifyStack (·.modifyCurrent (·.modifyLastChild fun _ => made)))
      fun _ after => after = children.dropLast ++ [made] := by
  refine modifyStack fun stack hchildren => ?_
  subst hchildren
  exact Stack.replaceLast_eq_setChildren made h

/-- Children that the permutation does not name are dropped. -/
theorem reorder (permutation : List Nat) :
    Gives scope children (reorder permutation) fun _ after =>
      after = permutation.filterMap (children[·]?) := by
  rw [Recover.reorder]
  refine edit fun stack made hchildren hmade => ?_
  rw [Stack.reorder_eq] at hmade
  split at hmade
  · cases hmade
    rw [hchildren]
  · cases hmade

/-- The last child is put in a group, and the others stay. -/
theorem groupLastChild (node : Node) :
    Gives scope (children ++ [node]) groupLastChild fun _ after =>
      after = children ++ [.branch .group node.span [node]] := by
  rw [Recover.groupLastChild]
  refine edit fun stack made hchildren hmade => ?_
  rw [Stack.groupLastChild_eq hchildren] at hmade
  exact (Except.ok.inj hmade).symm

/-- The last of three children is put under the wrapper. -/
theorem wrapThird {first second third : Node} (wrapper : Node) :
    Gives scope [first, second, third] (wrapChild 2 wrapper) fun _ after =>
      after = [first, second, wrapper.addChild third] := by
  rw [Recover.wrapChild]
  refine edit fun stack made hchildren hmade => ?_
  rw [Stack.wrapChild_third wrapper hchildren] at hmade
  exact (Except.ok.inj hmade).symm

/-- The number of children is checked, and nothing is changed. -/
theorem expectChildren (expected : Nat) :
    Gives scope children (expectChildren expected) fun _ after =>
      after = children ∧ children.length = expected := by
  refine getStack.bind fun stack after ⟨hafter, hstack⟩ => ?_
  have hcount : stack.current.childCount = children.length := congrArg List.length hstack
  subst hafter
  dsimp only
  split
  · exact throw
  · next hsame => exact pure ⟨rfl, by simpa [hcount] using hsame⟩

/-- The node is taken back from the shelf as it was put there. -/
theorem deferring {node : Node} {body : Recover Unit} {given : List Node → Prop}
    (h : Gives scope children body fun _ => given) :
    Gives scope children (deferring node body) fun taken after => taken = node ∧ given after := by
  intro session hchildren hskips value last hrun
  have hdefer : (defer node).outcome scope session =
      (.ok (session.shelf.put node).1, session.deferred node) := rfl
  rw [Recover.deferring, outcome_bind_ok hdefer] at hrun
  obtain ⟨_, later, hbody, htaken⟩ := ok_of_bind hrun
  obtain ⟨hgrown, hgiven⟩ := h (session.deferred node) hchildren hskips _ later hbody
  obtain ⟨shelf, htake, hshelf⟩ := Shelf.take_put session.shelf node hgrown.pending
  have hget : (get : Recover Session).outcome scope later = (.ok later, later) := rfl
  rw [takeDeferred, outcome_bind_ok hget, htake] at htaken
  cases htaken
  exact ⟨⟨hgrown.skipsName, hshelf, hgrown.stack⟩, rfl, hgiven⟩

end Gives

namespace Looks

variable {action : Recover α} {result : α → Prop}

/-! ## Computations that leave the children alone -/

/-- What is known of the value may be said more weakly. -/
theorem mono {weaker : α → Prop} (h : Looks scope action result)
    (hw : ∀ value, result value → weaker value) : Looks scope action weaker :=
  fun children => (h children).mono fun value _ hresult => ⟨hresult.1, hw value hresult.2⟩

/-- What comes next has the same children. -/
theorem andThen {next : α → Recover β} {last : β → List Node → Prop}
    (h : Looks scope action result)
    (hn : ∀ value, result value → Gives scope children (next value) last) :
    Gives scope children (action >>= next) last := by
  refine (h children).bind fun value between ⟨hsame, hresult⟩ => ?_
  subst hsame
  exact hn value hresult

/-- Computations that leave the children alone do so in sequence. -/
theorem bind {next : α → Recover β} {last : β → Prop} (h : Looks scope action result)
    (hn : ∀ value, result value → Looks scope (next value) last) :
    Looks scope (action >>= next) last :=
  fun children => h.andThen fun value hresult => hn value hresult children

/-- A value that is only returned leaves the children alone. -/
theorem pure {value : α} (h : result value) : Looks scope (Pure.pure value) result :=
  fun _ => .pure ⟨rfl, h⟩

/-- A failure has no value to say anything about. -/
theorem throw {failure : Failure} : Looks scope (throw failure : Recover α) result :=
  fun _ => .throw

/-- What each step preserves holds of the value that a fold returns. -/
theorem foldlM {γ : Type} {step : α → γ → Recover α}
    (h : ∀ value item, result value → Looks scope (step value item) result) (list : List γ)
    {value : α} (hv : result value) : Looks scope (list.foldlM step value) result := by
  induction list generalizing value with
  | nil => exact .pure hv
  | cons item rest ih =>
    rw [List.foldlM_cons]
    exact (h value item hv).bind fun _ hnext => ih hnext

/-- A step that touches neither the stack nor the shelf, and asks for no name to be skipped. -/
theorem aside (value : Session → α) (next : Session → Session)
    (hrun : ∀ session, action.outcome scope session = (.ok (value session), next session))
    (hstack : ∀ session, (next session).stack = session.stack)
    (hshelf : ∀ session, (next session).shelf = session.shelf)
    (hskip : ∀ session, session.skipsName = false →
      (next session).skipsName = false ∧ result (value session)) :
    Looks scope action result := by
  intro children session hchildren hskips _ later hlater
  rw [hrun] at hlater
  cases hlater
  obtain ⟨hnext, hresult⟩ := hskip session hskips
  refine ⟨⟨hnext, ?_, ?_⟩, ?_, hresult⟩
  · rw [hshelf]
  · rw [hstack, Stack.setChildren_children]
  · rw [hstack, hchildren]

/-- The text is that of the scope, and reading it changes nothing. -/
theorem source : Looks scope source fun text => text = scope.source :=
  aside (fun _ => scope.source) id (fun _ => rfl) (fun _ => rfl) (fun _ => rfl)
    fun _ hskips => ⟨hskips, rfl⟩

/-- Where the next gap begins is read off the stack, which stays as it is. -/
theorem gapStart : Looks scope gapStart fun _ => True :=
  aside (fun session => session.stack.gapStart) id (fun _ => rfl) (fun _ => rfl) (fun _ => rfl)
    fun _ hskips => ⟨hskips, trivial⟩

/-- Whether a name is exported is read off the scope. -/
theorem exportStatus (name : String) :
    Looks scope (exportStatus name) fun status => status = .of scope.info name :=
  aside (fun _ => .of scope.info name) id (fun _ => rfl) (fun _ => rfl) (fun _ => rfl)
    fun _ hskips => ⟨hskips, rfl⟩

/-- An entry of the log is no node. -/
theorem note (entry : Entry) : Looks scope (note entry) fun _ => True :=
  aside (fun _ => ()) (fun session => session.note entry) (fun _ => rfl) (fun _ => rfl)
    (fun _ => rfl) fun _ hskips => ⟨hskips, trivial⟩

/-- A string is put in the pool, which holds no nodes. -/
theorem intern (text : String) : Looks scope (intern text) fun _ => True :=
  aside (fun _ => ()) (fun session => { session with names := session.names.enter text })
    (fun _ => rfl) (fun _ => rfl) (fun _ => rfl) fun _ hskips => ⟨hskips, trivial⟩

/-- No name is to be skipped, so the mark that is taken is not set. -/
theorem takeSkip : Looks scope takeSkip fun skips => skips = false :=
  aside (fun session => session.skipsName) (fun session => { session with skipsName := false })
    (fun _ => rfl) (fun _ => rfl) (fun _ => rfl) fun _ hskips => ⟨rfl, hskips⟩

/-- Whether a semicolon stands there is read off the text. -/
theorem endsWithSemicolon (finish : Nat) : Looks scope (endsWithSemicolon finish) fun _ => True :=
  aside (fun _ => scope.source.endsWithSemicolon finish) id (fun _ => rfl) (fun _ => rfl)
    (fun _ => rfl) fun _ hskips => ⟨hskips, trivial⟩

/-- Whether a node is terminated is read off the text. -/
theorem terminates (node : Node) (finish : Nat) :
    Looks scope (terminates node finish) fun _ => True :=
  endsWithSemicolon _

/-- A run that succeeds had a value there. -/
theorem orFail (found : Except Failure α) :
    Looks scope (orFail found) fun value => found = .ok value := by
  cases found with
  | ok value => exact pure rfl
  | error failure => exact throw

/-- A report either fails or puts a warning in the log. -/
theorem report (missing : Missing) : Looks scope (report missing) fun _ => True := by
  obtain ⟨source, info, strict⟩ := scope
  cases strict with
  | true => exact fun _ session _ _ _ _ hrun => by cases hrun
  | false =>
    exact aside (fun _ => ())
      (fun session => { session.note (.fallback missing) with
        warnings := session.warnings.push missing })
      (fun _ => rfl) (fun _ => rfl) (fun _ => rfl) fun _ hskips => ⟨hskips, trivial⟩

/-- Whether found or not, settling on an offset changes no node. -/
theorem settle (found : Except Missing α) (fallback : α) :
    Looks scope (settle found fallback) fun _ => True := by
  cases found with
  | ok value => exact pure trivial
  | error missing => exact (report missing).bind fun _ _ => pure trivial

/-- What is missing may be reported, and no node is changed. -/
theorem settle? (found : Except Missing α) : Looks scope (settle? found) fun _ => True := by
  cases found with
  | ok value => exact pure trivial
  | error missing => exact (report missing).bind fun _ _ => pure trivial

/-! ## Spans and symbols -/

/-- A span that comes out has the bounds that were asked for. -/
theorem spanBetween (start last : Nat) :
    Looks scope (spanBetween start last) fun span => span = ⟨start, last⟩ := by
  refine (orFail _).mono fun span hspan => ?_
  cases hmake : Span.make start last with
  | error ends =>
    rw [hmake] at hspan
    cases hspan
  | ok made =>
    rw [hmake] at hspan
    cases hspan
    exact (Span.make_eq_ok_iff.1 hmake).2

/-- Spans are merged without any look at the tree. -/
theorem mergeSpans (a b : Span) : Looks scope (mergeSpans a b) fun _ => True :=
  (orFail _).mono fun _ _ => trivial

/-- The span of a range is that of the text. -/
theorem rangeSpan (start finish : Nat) : Looks scope (rangeSpan start finish)
    fun span => scope.source.rangeSpan start finish = .ok span := by
  refine source.bind fun text htext => ?_
  subst htext
  exact orFail _

/-- Wherever a symbol is put, it has the text of its token. -/
theorem symbolAt (token : Token) (start : Nat) :
    Looks scope (symbolAt token start) fun symbol => symbol.value = token.text :=
  (spanBetween _ _).bind fun _ _ => (intern _).bind fun _ _ => pure rfl

/-- The value of a symbol over a span is the text that the span covers. -/
theorem symbolOver (kind : TokenKind) (span : Span) : Looks scope (symbolOver kind span)
    fun symbol =>
      symbol = ⟨kind, span, (scope.source.slice span.start (span.last + 1)).getD ""⟩ := by
  refine source.bind fun text htext => ?_
  subst htext
  exact (intern _).bind fun _ _ => pure rfl

/-- A token that is found, or made up for, has the text that was asked for. -/
theorem find (token : Token) (context : String) (start finish : Nat) :
    Looks scope (find token context start finish) fun symbol => symbol.value = token.text :=
  source.bind fun _ _ => (settle _ _).bind fun _ _ => symbolAt token _

/-- So has one that is looked for from the end. -/
theorem findLast (token : Token) (context : String) (start finish : Nat) :
    Looks scope (findLast token context start finish) fun symbol => symbol.value = token.text :=
  source.bind fun _ _ => (settle _ _).bind fun _ _ => symbolAt token _

/-- So has a word. -/
theorem findWord (word context : String) (start finish : Nat) :
    Looks scope (findWord word context start finish) fun symbol => symbol.value = word :=
  source.bind fun _ _ => (settle _ _).bind fun _ _ => symbolAt (.keyword word) _

/-- A word that need not be there may be left unfound. -/
theorem findLastWord? (word context : String) (start finish : Nat) :
    Looks scope (findLastWord? word context start finish) fun _ => True := by
  refine source.bind fun _ _ => (settle? _).bind fun found _ => ?_
  cases found with
  | none => exact pure trivial
  | some offset => exact (symbolAt _ _).bind fun _ _ => pure trivial

/-- A token that stands at the offset is taken at once, with the same text. -/
theorem findAtOrAfter (token : Token) (context : String) (offset finish : Nat) :
    Looks scope (findAtOrAfter token context offset finish)
      fun symbol => symbol.value = token.text := by
  refine source.bind fun text _ => ?_
  split
  · exact symbolAt token offset
  · exact find token context offset finish

/-- A token that ends the range is taken at once, with the same text. -/
theorem findEndingAt (token : Token) (context : String) (start finish : Nat) :
    Looks scope (findEndingAt token context start finish)
      fun symbol => symbol.value = token.text := by
  refine source.bind fun text _ => ?_
  split
  · exact symbolAt token _
  · exact findLast token context start finish

/-- An identifier is a node without children, over the span of its range. -/
theorem identifier (start finish : Nat) (name : String) :
    Looks scope (identifier start finish name) fun node =>
      ∃ span, scope.source.rangeSpan start finish = .ok span ∧
        node = .leaf (.identifier ⟨.identifier, span, name⟩) span :=
  (rangeSpan start finish).bind fun span hspan => (intern name).bind fun _ _ =>
    pure ⟨span, hspan, rfl⟩

/-! ## Open nodes -/

/-- A node has the children that were attached while it was open. -/
theorem within {node : Node} {body : Recover Unit} {given : List Node → Prop}
    (h : Gives scope node.children body fun _ => given) :
    Looks scope (within node body) fun made => made.kind = node.kind ∧ given made.children := by
  intro children session hchildren hskips made last hrun
  obtain ⟨later, closed, hbody, hopened, hroot, hshelf, -, hskip, hcover⟩ := ok_of_within hrun
  obtain ⟨hgrown, hgiven⟩ := h (session.opening node) rfl hskips () later hbody
  have hlater : later.stack =
      session.stack.push { node with children := later.stack.children } := hgrown.stack
  have hcurrent : closed = { node with children := later.stack.children } ∧
      last.stack.opened = session.stack.opened := by
    rw [hlater] at hopened
    obtain ⟨hclosed, hlast⟩ := List.cons_eq_cons.1 hopened
    exact ⟨hclosed.symm, hlast.symm⟩
  have hstack : last.stack = session.stack := by
    rw [hlater] at hroot
    exact congrArg₂ Stack.mk hroot hcurrent.2
  obtain ⟨span, rfl⟩ := Node.eq_of_cover hcover
  refine ⟨⟨hskip.trans hgrown.skipsName, ?_, ?_⟩, ?_, ?_⟩
  · rw [hshelf]
    exact hgrown.pending
  · rw [hstack, Stack.setChildren_children]
  · rw [hstack, hchildren]
  · rw [hcurrent.1]
    exact ⟨rfl, hgiven⟩

end Looks

namespace Appends

variable {action : Recover Unit} {result : Node → Prop}

/-! ## Computations that append a node -/

/-- What is known of the node may be said more weakly. -/
theorem mono {weaker : Node → Prop} (h : Appends scope action result)
    (hw : ∀ node, result node → weaker node) : Appends scope action weaker :=
  fun children => (h children).mono fun _ _ ⟨node, hafter, hresult⟩ =>
    ⟨node, hafter, hw node hresult⟩

/-- What comes next has one child more. -/
theorem andThen {next : Recover α} {last : α → List Node → Prop} (h : Appends scope action result)
    (hn : ∀ node, result node → Gives scope (children ++ [node]) next last) :
    Gives scope children (action >>= fun _ => next) last := by
  refine (h children).bind fun _ between ⟨node, hbetween, hresult⟩ => ?_
  subst hbetween
  exact hn node hresult

/-- What comes first may look at the text, and the node is put there by what follows. -/
theorem after {action : Recover α} {found : α → Prop} {next : α → Recover Unit}
    (h : Looks scope action found) (hn : ∀ value, found value → Appends scope (next value) result) :
    Appends scope (action >>= next) result :=
  fun children => h.andThen fun value hfound => hn value hfound children

/-- The node that is attached is the one that is put behind the children. -/
theorem attach {node : Node} (h : result node) : Appends scope (attach node) result :=
  fun _ => (Gives.attach node).mono fun _ _ hafter => ⟨node, hafter, h⟩

/-- The node may be looked up first. -/
theorem attached {action : Recover Node} (h : Looks scope action result) :
    Appends scope (do Recover.attach (← action)) result :=
  after h fun _ hresult => attach hresult

/-- The node that is entered is put there when it is left, with what its body has made of its
children. -/
theorem enter {node : Node} {body : Recover Unit} {given : List Node → Prop}
    (h : Gives scope node.children body fun _ => given) :
    Appends scope (enter node body) fun made => made.kind = node.kind ∧ given made.children :=
  attached (.within h)

/-- Each step puts a node behind the children, and they all are of the same sort. -/
theorem forM {γ : Type} {step : γ → Recover Unit} {result : Node → Prop} {list : List γ}
    (h : ∀ item ∈ list, Appends scope (step item) result) (children : List Node) :
    Gives scope children (list.forM step) fun _ after =>
      ∃ made, after = children ++ made ∧ ∀ node ∈ made, result node := by
  induction list generalizing children with
  | nil => exact .pure ⟨[], (List.append_nil _).symm, List.forall_mem_nil _⟩
  | cons item rest ih =>
    obtain ⟨hitem, hrest⟩ := List.forall_mem_cons.1 h
    show Gives scope children (step item >>= fun _ => rest.forM step) _
    refine hitem.andThen fun node hnode => (ih hrest _).mono ?_
    rintro _ _ ⟨made, rfl, hmade⟩
    exact ⟨node :: made, List.append_assoc .., List.forall_mem_cons.2 ⟨hnode, hmade⟩⟩

end Appends

end Recover

end Concretion
