import Concretion.Proofs.Inversion
import Concretion.Proofs.Sound.Tree
import Concretion.Proofs.Spelled
import Concretion.Proofs.Written.Page
import Mathlib.Data.Nat.Find

/-!
# Parentheses of statements

Conditionals, `switch` statements, `while` and `do` loops and `with` statements have an expression
in parentheses. The opening one is searched for in front of the expression, the closing one behind
it. Where the range of the expression stops short of a parenthesis of its own, as that of a sum
does whose last operand is in parentheses, this one is taken for the closing one.

- `Source.Balanced`: a stretch of text in which every parenthesis has its partner.
- `Stmt.header?`: the expression in parentheses, and the windows in which these are searched for.
- `Header.Written`: parentheses that match, with the expression and further ones between them.
- `parens_match_iff`: the two parentheses that are recovered match just if no parenthesis is closed
  between the expression and the end of its header.
-/

namespace Concretion

open Recover Text

/-! ## Balanced text -/

namespace Source

variable (source : Source)

/-- How many parentheses are open behind an offset, if `depth` of them are in front of it. There is
no answer if one is closed, by the byte `0x29`, that has not been opened. -/
def depthAfter (depth offset : Nat) : Option Nat :=
  if source.codeAt 0x28 offset then some (depth + 1)
  else if source.codeAt 0x29 offset then if depth = 0 then none else some (depth - 1)
  else some depth

/-- How many parentheses are open after `count` offsets from `start` on. -/
def depthFrom (depth start : Nat) : Nat → Option Nat
  | 0 => some depth
  | count + 1 => (source.depthAfter depth start).bind (depthFrom · (start + 1) count)

/-- Every parenthesis between the two offsets has its partner between them. -/
def Balanced (start finish : Nat) : Prop := source.depthFrom 0 start (finish - start) = some 0

instance (start finish : Nat) : Decidable (source.Balanced start finish) :=
  inferInstanceAs (Decidable (source.depthFrom 0 start (finish - start) = some 0))

variable {source}

theorem depthFrom_add (depth start count more : Nat) :
    source.depthFrom depth start (count + more) =
      (source.depthFrom depth start count).bind
        fun depth => source.depthFrom depth (start + count) more := by
  induction count generalizing depth start with
  | zero => rw [Nat.zero_add, depthFrom, Option.bind_some, Nat.add_zero]
  | succ count ih =>
    have hstart : start + (count + 1) = start + 1 + count := by omega
    rw [Nat.add_right_comm, depthFrom, depthFrom, Option.bind_assoc, hstart]
    exact congrArg _ (funext fun depth => ih depth (start + 1))

/-- Where none is opened, parentheses are closed just if some were open. -/
theorem depthFrom_of_not_opens {depth start count : Nat}
    (h : ∀ offset, start ≤ offset → offset < start + count → source.codeAt 0x28 offset = false)
    (hzero : source.depthFrom depth start count = some 0) :
    depth = 0 ↔ ∀ offset, start ≤ offset → offset < start + count →
      source.codeAt 0x29 offset = false := by
  induction count generalizing depth start with
  | zero =>
    cases hzero
    exact ⟨fun _ offset hlow hhigh => by omega, fun _ => rfl⟩
  | succ count ih =>
    obtain ⟨behind, hbehind, hrest⟩ := Option.bind_eq_some_iff.1 hzero
    have hlater := ih (fun offset hlow hhigh => h offset (by omega) (by omega)) hrest
    rw [depthAfter, h start (Nat.le_refl _) (by omega), if_neg Bool.false_ne_true] at hbehind
    by_cases hcloses : source.codeAt 0x29 start = true
    · -- a parenthesis is closed right here, so one was open
      rw [if_pos hcloses] at hbehind
      have hdepth : depth ≠ 0 := fun hzero => by
        rw [if_pos hzero] at hbehind
        cases hbehind
      refine ⟨fun hzero => absurd hzero hdepth, fun hnone => ?_⟩
      rw [hnone start (Nat.le_refl _) (by omega)] at hcloses
      cases hcloses
    · rw [if_neg hcloses, Option.some_inj] at hbehind
      rw [hbehind, hlater]
      refine ⟨fun hnone offset hlow hhigh => ?_,
        fun hnone offset hlow hhigh => hnone offset (by omega) (by omega)⟩
      rcases Nat.eq_or_lt_of_le hlow with rfl | hlt
      · exact Bool.eq_false_iff.2 hcloses
      · exact hnone offset hlt (by omega)

/-- Balanced text stays balanced when it is cut off in front of a stretch in which nothing is
opened just if nothing is closed there either. -/
theorem balanced_iff_of_not_opens {start between finish : Nat} (hstart : start ≤ between)
    (hfinish : between ≤ finish) (h : source.Balanced start finish)
    (hopens : ∀ offset, between ≤ offset → offset < finish → source.codeAt 0x28 offset = false) :
    source.Balanced start between ↔
      ∀ offset, between ≤ offset → offset < finish → source.codeAt 0x29 offset = false := by
  have hsplit : finish - start = (between - start) + (finish - between) := by omega
  rw [Balanced, hsplit, depthFrom_add, Nat.add_sub_cancel' hstart] at h
  obtain ⟨depth, hdepth, hrest⟩ := Option.bind_eq_some_iff.1 h
  have hend : between + (finish - between) = finish := Nat.add_sub_cancel' hfinish
  have hzero := depthFrom_of_not_opens (by rwa [hend]) hrest
  rw [hend] at hzero
  rw [Balanced, hdepth, ← hzero, Option.some_inj]

/-! ## Searches for parentheses -/

variable (hmode : source.mode = .skipTrivia)
include hmode

theorem matchesAt_leftParen (offset : Nat) :
    source.matchesAt (pattern "(") offset = source.codeAt 0x28 offset :=
  source.matchesAt_byte hmode _ _

theorem matchesAt_rightParen (offset : Nat) :
    source.matchesAt (pattern ")") offset = source.codeAt 0x29 offset :=
  source.matchesAt_byte hmode _ _

end Source

/-! ## Headers -/

/-- An expression in parentheses in front of what it decides upon, or behind it. -/
structure Header where
  /-- Where the keyword in front of the parentheses ends, or what is in front of that. -/
  front : Nat
  condition : Range
  /-- Where what follows the parentheses begins, or the statement ends. -/
  limit : Nat

/-- The expression that a statement has in parentheses, unless it is a `for` loop. -/
def Stmt.header? : Stmt → Option Header
  | .ifElse range test pass _ =>
    some ⟨range.start + "if".utf8ByteSize, test.range, pass.range.start⟩
  | .whileLoop range isDo test body =>
    if isDo then some ⟨body.range.finish, test.range, range.finish⟩
    else some ⟨range.start + "while".utf8ByteSize, test.range, body.range.start⟩
  | .switch range subject cases =>
    some ⟨range.start + "switch".utf8ByteSize, subject.range,
      (cases.head?.map (·.range.start)).getD range.finish⟩
  | .withScope range subject body =>
    some ⟨range.start + "with".utf8ByteSize, subject.range, body.range.start⟩
  | _ => none

/-- The parentheses that a node has around an expression. -/
def NodeKind.parens? : NodeKind → Option (Symbol × Symbol)
  | .ifElse lparen rparen | .whileLoop lparen rparen | .doLoop lparen rparen
  | .withScope lparen rparen | .switch lparen rparen _ _ => some (lparen, rparen)
  | _ => none

/-- The header is written with its own parentheses at the two offsets. They match. Between them
stand the expression, and any parentheses around it and in it. -/
structure Header.Written (header : Header) (source : Source) (opening closing : Nat) : Prop where
  opens : source.codeAt 0x28 opening = true
  front : header.front ≤ opening
  first : ∀ offset, header.front ≤ offset → offset < opening → source.codeAt 0x28 offset = false
  start : opening < header.condition.start
  finish : header.condition.start ≤ header.condition.finish
  trailing : ∀ offset, header.condition.finish ≤ offset → offset < closing →
    source.codeAt 0x28 offset = false
  closes : source.codeAt 0x29 closing = true
  behind : header.condition.finish ≤ closing
  limit : closing < header.limit
  matching : source.Balanced (opening + 1) closing

/-- A text shows whether a header is written in it. -/
instance (header : Header) (source : Source) (opening closing : Nat) :
    Decidable (header.Written source opening closing) :=
  decidable_of_iff
    (source.codeAt 0x28 opening = true ∧ header.front ≤ opening ∧
      (∀ offset, header.front ≤ offset → offset < opening → source.codeAt 0x28 offset = false) ∧
      opening < header.condition.start ∧ header.condition.start ≤ header.condition.finish ∧
      (∀ offset, header.condition.finish ≤ offset → offset < closing →
        source.codeAt 0x28 offset = false) ∧
      source.codeAt 0x29 closing = true ∧ header.condition.finish ≤ closing ∧
        closing < header.limit ∧
      source.Balanced (opening + 1) closing)
    ⟨fun ⟨a, b, c, d, e, f, g, h, i, j⟩ => ⟨a, b, c, d, e, f, g, h, i, j⟩,
      fun ⟨a, b, c, d, e, f, g, h, i, j⟩ => ⟨a, b, c, d, e, f, g, h, i, j⟩⟩

/-- The parenthesis at the offset is the first one that is closed behind the expression. -/
structure Header.Ends (header : Header) (source : Source) (found : Nat) : Prop where
  behind : header.condition.finish ≤ found
  closes : source.codeAt 0x29 found = true
  first : ∀ offset, header.condition.finish ≤ offset → offset < found →
    source.codeAt 0x29 offset = false

/-- The right parenthesis is taken just if no other is closed between the expression and it. -/
theorem Header.Ends.eq_iff_not_closes {header : Header} {source : Source} {found closing : Nat}
    (h : header.Ends source found) (hle : found ≤ closing) :
    found = closing ↔ ∀ offset, header.condition.finish ≤ offset → offset < closing →
      source.codeAt 0x29 offset = false := by
  refine ⟨fun heq => heq ▸ h.first, fun hnone => ?_⟩
  rcases Nat.eq_or_lt_of_le hle with heq | hlt
  · exact heq
  · have hcloses := h.closes
    rw [hnone found h.behind hlt] at hcloses
    cases hcloses

namespace Header.Written

variable {header : Header} {source : Source} {opening closing : Nat}

/-- The opening parenthesis is found. -/
theorem find_leftParen (h : header.Written source opening closing)
    (hmode : source.mode = .skipTrivia) :
    source.find "(" header.front header.condition.start = some opening := by
  have hsize : opening < source.size := Source.lt_size_of_codeAt h.opens
  have hstart := h.start
  refine Search.firstFrom_eq_some_iff.2 ⟨?_, h.front, by omega, fun offset hlow hhigh => ?_⟩
  · rw [Source.matchesAt_leftParen hmode]
    exact h.opens
  · rw [Source.matchesAt_leftParen hmode]
    exact h.first offset hlow hhigh

/-- What is found in place of the closing parenthesis is the first one that is closed behind the
expression. -/
theorem find_rightParen (h : header.Written source opening closing)
    (hmode : source.mode = .skipTrivia) :
    ∃ found, source.find ")" header.condition.finish header.limit = some found ∧
      header.Ends source found ∧ found ≤ closing := by
  have hsize : closing < source.size := Source.lt_size_of_codeAt h.closes
  have hlimit := h.limit
  have hbehind := h.behind
  have hmatch : source.matchesAt (pattern ")") closing = true := by
    rw [Source.matchesAt_rightParen hmode]
    exact h.closes
  have hwindow : closing <
      header.condition.finish + (min header.limit source.size - header.condition.finish) := by
    omega
  obtain ⟨found, hfound, ⟨hcloses, hlow, -, hbefore⟩, hhigh⟩ :=
    Search.exists_firstFrom hmatch hbehind hwindow
  simp only [Source.matchesAt_rightParen hmode] at hcloses hbefore
  exact ⟨found, hfound, ⟨hlow, hcloses, hbefore⟩, hhigh⟩

/-- The parenthesis that is taken for the closing one is it just if it is balanced with the opening
one. -/
theorem balanced_iff_eq (h : header.Written source opening closing) {found : Nat}
    (hends : header.Ends source found) (hle : found ≤ closing) :
    source.Balanced (opening + 1) found ↔ found = closing := by
  have hstart := h.start
  have hfinish := h.finish
  have hbehind := hends.behind
  rw [Source.balanced_iff_of_not_opens (by omega) hle h.matching
    fun offset hoffset => h.trailing offset (by omega), hends.eq_iff_not_closes hle]
  refine ⟨fun hnone offset hlow hhigh => ?_, fun hnone offset hlow => hnone offset (by omega)⟩
  rcases Nat.lt_or_ge offset found with hlt | hge
  · exact hends.first offset hlow hlt
  · exact hnone offset hge hhigh

end Header.Written

/-! ## Runs -/

namespace Recover

variable {α β : Type} {scope : Scope}

/-- A run that succeeds leaves the stack alone, and what it yields is as said. -/
def Sees (scope : Scope) (action : Recover α) (result : α → Prop) : Prop :=
  ∀ session value last, action.outcome scope session = (.ok value, last) →
    last.stack = session.stack ∧ result value

/-- A run that succeeds attaches a single node, which is as said. -/
def Puts (scope : Scope) (action : Recover Unit) (result : Node → Prop) : Prop :=
  ∀ session last, action.outcome scope session = (.ok (), last) →
    ∃ node, last.stack = session.stack.attach node ∧ result node

namespace Sees

theorem mono {action : Recover α} {result weaker : α → Prop} (h : Sees scope action result)
    (hw : ∀ value, result value → weaker value) : Sees scope action weaker := by
  intro session value last hrun
  obtain ⟨hstack, hresult⟩ := h session value last hrun
  exact ⟨hstack, hw value hresult⟩

theorem bind {action : Recover α} {found : α → Prop} {next : α → Recover β} {result : β → Prop}
    (h : Sees scope action found) (hn : ∀ value, found value → Sees scope (next value) result) :
    Sees scope (action >>= next) result := by
  intro session value last hrun
  obtain ⟨middle, later, hfirst, hsecond⟩ := ok_of_bind hrun
  obtain ⟨hstack, hfound⟩ := h session middle later hfirst
  obtain ⟨hlast, hresult⟩ := hn middle hfound later value last hsecond
  exact ⟨hlast.trans hstack, hresult⟩

/-- A step that does not touch the stack. -/
theorem aside {action : Recover α} {result : α → Prop} (value : Session → α)
    (next : Session → Session)
    (hrun : ∀ session, action.outcome scope session = (.ok (value session), next session))
    (h : ∀ session, (next session).stack = session.stack ∧ result (value session)) :
    Sees scope action result := by
  intro session made last hlast
  rw [hrun] at hlast
  cases hlast
  exact h session

theorem pure (value : α) : Sees scope (Pure.pure value) (· = value) :=
  aside (fun _ => value) id (fun _ => rfl) fun _ => ⟨rfl, rfl⟩

theorem source : Sees scope source (· = scope.source) :=
  aside (fun _ => scope.source) id (fun _ => rfl) fun _ => ⟨rfl, rfl⟩

theorem intern (text : String) : Sees scope (intern text) fun _ => True :=
  aside (fun _ => ()) (fun session => { session with names := session.names.enter text })
    (fun _ => rfl) fun _ => ⟨rfl, trivial⟩

theorem endsWithSemicolon (finish : Nat) :
    Sees scope (endsWithSemicolon finish) fun _ => True :=
  aside (fun _ => scope.source.endsWithSemicolon finish) id (fun _ => rfl) fun _ => ⟨rfl, trivial⟩

theorem orFail (found : Except Failure α) : Sees scope (orFail found) (found = .ok ·) := by
  intro session value last hrun
  obtain ⟨hfound, hlast⟩ := ok_of_orFail hrun
  exact ⟨congrArg _ hlast, hfound⟩

theorem report (missing : Missing) : Sees scope (report missing) fun _ => True := by
  obtain ⟨source, info, strict⟩ := scope
  cases strict with
  | true => exact fun session _ _ hrun => by cases hrun
  | false =>
    exact aside (fun _ => ()) (fun session => { session.note (.fallback missing) with
      warnings := session.warnings.push missing }) (fun _ => rfl) fun _ => ⟨rfl, trivial⟩

theorem settle (found : Except Missing α) (fallback : α) :
    Sees scope (settle found fallback) fun value => ∀ known, found = .ok known → value = known := by
  cases found with
  | ok value =>
    refine fun session made last hrun => ?_
    cases hrun
    exact ⟨rfl, fun known hknown => Except.ok.inj hknown⟩
  | error missing =>
    refine (report missing).bind fun _ _ session made last hrun => ?_
    cases hrun
    exact ⟨rfl, fun known hknown => by cases hknown⟩

theorem rangeSpan (start finish : Nat) : Sees scope (rangeSpan start finish) fun _ => True :=
  source.bind fun _ _ session value last hrun => ⟨(orFail _ session value last hrun).1, trivial⟩

theorem symbolAt (token : Token) (start : Nat) :
    Sees scope (symbolAt token start) (· = token.at start) := by
  refine (orFail _).bind fun span hspan => (intern _).bind fun _ _ => ?_
  rw [Span.make_of_le (by omega)] at hspan
  cases hspan
  exact pure _

/-- A token that stands in the window is found where it stands. -/
theorem find (token : Token) (context : String) (start finish : Nat) :
    Sees scope (find token context start finish) fun symbol =>
      ∀ offset, scope.source.find token.text start finish = some offset →
        symbol = token.at offset := by
  refine source.bind fun text htext => (settle _ _).bind fun place hplace => ?_
  subst htext
  refine fun session symbol last hrun => ?_
  obtain ⟨hstack, rfl⟩ := symbolAt token place session symbol last hrun
  refine ⟨hstack, fun offset hoffset => ?_⟩
  rw [hplace offset (by rw [Source.locate, hoffset])]

theorem findEndingAt (token : Token) (context : String) (start finish : Nat) :
    Sees scope (findEndingAt token context start finish) fun _ => True := by
  refine source.bind fun text _ => ?_
  split
  · exact (symbolAt token _).mono fun _ _ => trivial
  · exact source.bind fun _ _ => (settle _ _).bind fun _ _ =>
      (symbolAt token _).mono fun _ _ => trivial

/-- Whatever the children of a node that is opened are, it keeps its kind. -/
theorem within {node : Node} {body : Recover Unit} (hbody : Builds False true body) :
    Sees scope (within node body) (·.kind = node.kind) := by
  intro session made last hrun
  have hkept := hbody.kept scope (session.opening node) False.elim
  obtain ⟨later, closed, hlater, hopened, hroot, -, -, -, hcover⟩ := ok_of_within hrun
  rw [hlater] at hkept
  obtain ⟨inner, hkind, -, -, hstack⟩ := hkept.frame.of_push
  rw [hstack] at hopened hroot
  obtain ⟨rfl, houter⟩ := List.cons_eq_cons.1 hopened
  obtain ⟨span, rfl⟩ := Node.eq_of_cover hcover
  exact ⟨congrArg₂ Stack.mk hroot houter.symm, hkind⟩

end Sees

namespace Puts

variable {result : Node → Prop}

theorem after {action : Recover α} {found : α → Prop} {next : α → Recover Unit}
    (h : Sees scope action found) (hn : ∀ value, found value → Puts scope (next value) result) :
    Puts scope (action >>= next) result := by
  intro session last hrun
  obtain ⟨value, later, hfirst, hsecond⟩ := ok_of_bind hrun
  obtain ⟨hstack, hfound⟩ := h session value later hfirst
  obtain ⟨node, hlast, hresult⟩ := hn value hfound later last hsecond
  exact ⟨node, hstack ▸ hlast, hresult⟩

theorem attach {node : Node} (h : result node) : Puts scope (attach node) result := by
  intro session last hrun
  cases hrun
  exact ⟨node, rfl, h⟩

theorem enter {node : Node} {body : Recover Unit} (hbody : Builds False true body)
    (h : ∀ made : Node, made.kind = node.kind → result made) :
    Puts scope (enter node body) result :=
  after (.within hbody) fun made hkind => attach (h made hkind)

end Puts

end Recover

/-- The node has the given parentheses. -/
def Node.HasParens (node : Node) (lparen rparen : Symbol) : Prop :=
  node.kind.parens? = some (lparen, rparen)

theorem Node.hasParens_of_kind {node : Node} {kind : NodeKind} {lparen rparen : Symbol}
    (h : node.kind = kind) (hkind : kind.parens? = some (lparen, rparen)) :
    node.HasParens lparen rparen := by
  rw [HasParens, h, hkind]

namespace Rule

/-- Both parentheses are located, and what comes next is recovered with them. -/
theorem puts_parens {scope : Scope} {range : Range} {context : String}
    {front start finish limit opening found : Nat} {result : Node → Prop}
    {next : Span → Symbol → Symbol → Recover Unit}
    (hleft : scope.source.find "(" front start = some opening)
    (hright : scope.source.find ")" finish limit = some found)
    (hn : ∀ span, Puts scope
      (next span (Token.leftParen.at opening) (Token.rightParen.at found)) result) :
    Puts scope (do
      let span ← rangeSpan range.start range.finish
      let lparen ← find .leftParen context front start
      let rparen ← find .rightParen context finish limit
      next span lparen rparen) result := by
  refine .after (.rangeSpan _ _) fun span _ => .after (.find _ _ _ _) fun lparen hlparen => ?_
  refine .after (.find _ _ _ _) fun rparen hrparen => ?_
  rw [hlparen opening hleft, hrparen found hright]
  exact hn span

end Rule

/-- The node of a statement with an expression in parentheses has those that are located in front of
the expression and behind it. -/
theorem Stmt.puts_parens {scope : Scope} {statement : Stmt} {header : Header} {opening found : Nat}
    (hheader : statement.header? = some header)
    (hleft : scope.source.find "(" header.front header.condition.start = some opening)
    (hright : scope.source.find ")" header.condition.finish header.limit = some found) :
    Puts scope statement.recover
      (·.HasParens (Token.leftParen.at opening) (Token.rightParen.at found)) := by
  have hexpr : ∀ expr : Expr, Builds False true expr.recover :=
    fun expr => (expr.sound _).builds.relax
  have hblock : ∀ block : Block, Builds False true block.recover :=
    fun block => (block.sound _).relax
  cases statement with
  | ifElse range test pass fail =>
    cases hheader
    rw [Stmt.recover, Rule.ifElse]
    refine Rule.puts_parens hleft hright fun span => .enter ?_ fun _ hkind =>
      Node.hasParens_of_kind hkind rfl
    refine (hexpr test).andThen ((hblock pass).andThen ?_)
    cases fail with
    | some fail => exact (hblock fail).andThen (.expectChildren 3)
    | none =>
      refine Sound.getStack.bind fun stack _ => ?_
      exact (Sound.attach fun _ => Node.ordered_empty _).andThen (.expectChildren 3)
  | whileLoop range isDo test body =>
    cases isDo with
    | false =>
      cases hheader
      rw [Stmt.recover, if_neg Bool.false_ne_true, Rule.whileLoop]
      exact Rule.puts_parens hleft hright fun span =>
        .enter ((hexpr test).andThen (hblock body)) fun _ hkind => Node.hasParens_of_kind hkind rfl
    | true =>
      cases hheader
      rw [Stmt.recover, if_pos rfl, Rule.doLoop]
      refine Rule.puts_parens hleft hright fun span => ?_
      refine .after (.within ((hblock body).andThen (hexpr test))) fun made hkind => ?_
      exact .after (.endsWithSemicolon _) fun _ _ => .attach (Node.hasParens_of_kind hkind rfl)
  | switch range subject cases =>
    cases hheader
    have hstart : (caseBuilds cases).head?.map (·.1.start) = cases.head?.map (·.range.start) := by
      cases cases <;> rfl
    rw [Stmt.recover, Rule.switch, hstart]
    refine Rule.puts_parens hleft hright fun span => ?_
    refine .after (.find _ _ _ _) fun lbrace _ => .after (.findEndingAt _ _ _ _) fun rbrace _ => ?_
    refine .enter ?_ fun _ hkind => Node.hasParens_of_kind hkind rfl
    exact (hexpr subject).andThen (Sound.forM fun clause hclause =>
      (caseBuilds_sound False cases clause hclause).relax)
  | withScope range subject body =>
    cases hheader
    rw [Stmt.recover, Rule.withScope]
    exact Rule.puts_parens hleft hright fun span =>
      .enter ((hexpr subject).andThen (hblock body)) fun _ hkind => Node.hasParens_of_kind hkind rfl
  | _ => cases hheader

/-- The opening parenthesis of a statement is recovered as it is written. For the closing one the
first is taken that is closed behind the range of the expression. The two match just if no
parenthesis that belongs to the expression is closed behind its range. -/
theorem parens_match_iff {scope : Scope} {statement : Stmt} {header : Header}
    {opening closing : Nat} (hheader : statement.header? = some header)
    (hmode : scope.source.mode = .skipTrivia)
    (hwritten : header.Written scope.source opening closing) {session last : Session}
    (hrun : statement.recover.outcome scope session = (.ok (), last)) :
    ∃ node found, last.stack = session.stack.attach node ∧
      node.HasParens (Token.leftParen.at opening) (Token.rightParen.at found) ∧
      header.Ends scope.source found ∧ found ≤ closing ∧
      (scope.source.Balanced (opening + 1) found ↔ found = closing) ∧
      (found = closing ↔ ∀ offset, header.condition.finish ≤ offset → offset < closing →
        scope.source.codeAt 0x29 offset = false) := by
  obtain ⟨found, hfound, hends, hle⟩ := hwritten.find_rightParen hmode
  obtain ⟨node, hstack, hparens⟩ :=
    Stmt.puts_parens hheader (hwritten.find_leftParen hmode) hfound session last hrun
  exact ⟨node, found, hstack, hparens, hends, hle, hwritten.balanced_iff_eq hends hle,
    hends.eq_iff_not_closes hle⟩

/-- A conditional statement with a sum in parentheses, whose range is that from the first operand to
the last. -/
def Stmt.decidingSum : Stmt :=
  .ifElse ⟨0, 17⟩ (.binary ⟨5, 12⟩ .add (.ident ⟨⟨5, 6⟩, "a", false, false⟩)
      (.ident ⟨⟨11, 12⟩, "b", false, false⟩))
    ⟨⟨15, 17⟩, .synthetic, [.expression ⟨15, 17⟩ (.ident ⟨⟨15, 16⟩, "c", false, false⟩)]⟩ none

/-- With the last operand in parentheses too, its own closing parenthesis is taken for the one
around the sum. -/
theorem parens_of_decidingSum :
    let statement := Stmt.decidingSum
    let header : Header := ⟨2, ⟨5, 12⟩, 15⟩
    let plain := Scope.of "if ((a) +  b ) c;" none .unforgiving
    let wrapped := Scope.of "if ((a) + (b)) c;" none .unforgiving
    statement.header? = some header ∧
      header.Written plain.source 3 13 ∧ header.Written wrapped.source 3 13 ∧
      (∃ node later, statement.recover.outcome plain (.start plain.source) = (.ok (), later) ∧
        later.stack = (Session.start plain.source).stack.attach node ∧
        node.HasParens (Token.leftParen.at 3) (Token.rightParen.at 13)) ∧
      ∃ node later, statement.recover.outcome wrapped (.start wrapped.source) = (.ok (), later) ∧
        later.stack = (Session.start wrapped.source).stack.attach node ∧
        node.HasParens (Token.leftParen.at 3) (Token.rightParen.at 12) ∧
        ¬wrapped.source.Balanced 4 12 := by
  intro statement header plain wrapped
  have hplain : header.Written plain.source 3 13 := by decide +kernel
  have hwrapped : header.Written wrapped.source 3 13 := by decide +kernel
  have hrun : statement.recover.outcome plain (.start plain.source) =
      (.ok (), (statement.recover.outcome plain (.start plain.source)).2) :=
    Prod.ext (by decide +kernel) rfl
  have hrun' : statement.recover.outcome wrapped (.start wrapped.source) =
      (.ok (), (statement.recover.outcome wrapped (.start wrapped.source)).2) :=
    Prod.ext (by decide +kernel) rfl
  refine ⟨rfl, hplain, hwrapped, ?_, ?_⟩
  · obtain ⟨node, found, hstack, hparens, -, -, -, hfound⟩ :=
      parens_match_iff rfl rfl hplain hrun
    rw [hfound.2 (by decide +kernel)] at hparens
    exact ⟨node, _, hrun, hstack, hparens⟩
  · obtain ⟨node, found, hstack, hparens, hends, hle, hmatch, -⟩ :=
      parens_match_iff rfl rfl hwrapped hrun'
    have hbehind : 12 ≤ found := hends.behind
    have hfound : found = 12 := by
      refine Nat.le_antisymm (Nat.not_lt.1 fun hlt => ?_) hbehind
      have hcloses : wrapped.source.codeAt 0x29 12 = true := by decide +kernel
      rw [hends.first 12 (Nat.le_refl _) hlt] at hcloses
      cases hcloses
    subst hfound
    exact ⟨node, _, hrun', hstack, hparens, fun h => absurd (hmatch.1 h) (by decide)⟩

end Concretion
