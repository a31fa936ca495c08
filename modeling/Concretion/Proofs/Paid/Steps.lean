import Concretion.Proofs.Paid

/-!
# Paying for the steps of a recovery

The operations on a session out of which the rules are made, one by one.

- `Paid.aside`: steps that leave alone what is open and deferred.
- `Paid.report`: the step that brings something in.
- `Paid.symbolAt`, `Paid.find` and so on: a symbol costs nothing if its token was found, and a
  warning otherwise.
- `Paid.attach`, `Paid.edit`, `Paid.inspect`: changes to the children of the innermost open node.
- `Paid.within`, `Paid.enter`: what happens inside a node that is opened and closed again.
-/

namespace Concretion

namespace Tariff

variable {source : Source} (tariff : Tariff source)

/-- A kind that is no export statement costs what its symbols do. -/
theorem kind_symbols {kind : NodeKind} (located : List Symbol) (hsymbols : kind.symbols = located)
    (hexport : kind.isExport = false) : tariff.kind kind = tariff.symbols located := by
  rw [Tariff.kind, hsymbols, hexport]
  rfl

/-- A node with one symbol is worth that symbol. -/
theorem kind_single {kind : NodeKind} {symbol : Symbol} (hsymbols : kind.symbols = [symbol])
    (hexport : kind.isExport = false) : tariff.kind kind = tariff.symbol symbol :=
  tariff.kind_symbols [symbol] hsymbols hexport

/-- A symbol that spells the text is free. -/
theorem symbol_at {token : Token} {offset : Nat} (h : source.spells (token.at offset) = true) :
    tariff.symbol (token.at offset) = 0 :=
  tariff.symbol_spelled _ h

/-- The price of a binding by its status. -/
def status (status : ExportStatus) : Nat := if status.isExported then tariff.statement else 0

/-- What is taken out of a list and what remains are worth the list. -/
theorem trees_eraseIdx {nodes : List Node} {index : Nat} {node : Node}
    (h : nodes[index]? = some node) :
    tariff.trees (nodes.eraseIdx index) + tariff.tree node = tariff.trees nodes := by
  obtain ⟨hlt, hnode⟩ := List.getElem?_eq_some_iff.1 h
  have hsplit : nodes = nodes.take index ++ node :: nodes.drop (index + 1) := by
    rw [← hnode, List.getElem_cons_drop, List.take_append_drop]
  rw [List.eraseIdx_eq_take_drop_succ]
  conv_rhs => rw [hsplit]
  simp only [trees_append, trees_cons]
  omega

/-- Moving a child under a wrapper costs what the wrapper does. -/
theorem stack_wrapChild {before after : Stack} {index : Nat} {wrapper : Node}
    (h : before.wrapChild index wrapper = .ok after) (hinside : before.opened ≠ []) :
    after.depth = before.depth ∧
      tariff.stack after ≤ tariff.stack before + tariff.tree wrapper := by
  simp only [Stack.wrapChild, Node.removeChild?] at h
  split at h
  · next child without hremove =>
    obtain ⟨old, hold, heq⟩ := Option.map_eq_some_iff.1 hremove
    cases heq
    cases h
    obtain ⟨root, _ | ⟨current, outer⟩⟩ := before
    · exact absurd rfl hinside
    · refine ⟨rfl, @stack_setChildren _ tariff ⟨root, current :: outer⟩ _ _ (fun _ => ?_)
        fun hnil => absurd hnil (List.cons_ne_nil _ _)⟩
      obtain ⟨kind, span, children, flag⟩ := wrapper
      have herase := tariff.trees_eraseIdx hold
      have hsplit := congrArg tariff.trees
        (List.take_append_drop index (current.children.eraseIdx index))
      simp only [trees_append] at hsplit
      simp only [Stack.current] at hsplit herase
      simp only [Stack.current, Stack.children, Node.addChild, trees_append, trees_cons, tree_mk,
        trees_nil]
      omega
  · cases h

end Tariff

namespace Recover

variable {α β : Type}

/-- A symbol is made of a token and an offset, and its text is entered among the names. -/
theorem outcome_symbolAt (token : Token) (start : Nat) (scope : Scope) (session : Session) :
    (symbolAt token start).outcome scope session =
      (.ok (token.at start), { session with names := session.names.enter token.text }) := by
  have hspan : (spanBetween start (start + max token.length 1 - 1)).outcome scope session =
      (.ok ⟨start, start + max token.length 1 - 1⟩, session) := by
    rw [spanBetween, outcome_orFail, Span.make_of_le (by omega)]
    rfl
  rw [symbolAt, outcome_bind_ok hspan]
  rfl

/-- A result that is known already does not depend on the metadata. -/
theorem Blind.orFail {found : Except Failure α} {scope : Scope} : Blind scope (orFail found) :=
  fun _ => by rw [outcome_orFail, outcome_orFail]

namespace Spent

variable {source : Source} {tariff : Tariff source} {session later : Session}

/-- As long as the session stays as it is, what is held may be worth what was given. -/
theorem refl {credit weight : Nat} (h : weight ≤ credit) :
    Spent tariff session session credit weight :=
  ⟨rfl, by omega⟩

/-- A change of what is open. -/
theorem of_stack {stack : Stack} {credit : Nat} (hdepth : stack.depth = session.stack.depth)
    (hstack : tariff.stack stack ≤ tariff.stack session.stack + credit) :
    Spent tariff session { session with stack := stack } credit 0 := by
  refine ⟨hdepth, ?_⟩
  simp only [Tariff.session, Tariff.granted]
  omega

end Spent

namespace Paid

variable {scope : Scope} {tariff : Tariff scope.source} {place : Place} {credit : Nat}

/-! ## Steps that leave the trees alone -/

/-- A step that cannot fail, and that changes neither what is open or deferred nor the warnings. -/
theorem aside {action : Recover α} {weight : α → Nat} (value : Session → α)
    (next : Session → Session)
    (hrun : ∀ info session, action.outcome { scope with info := info } session =
      (.ok (value session), next session))
    (hstack : ∀ session, (next session).stack = session.stack)
    (hshelf : ∀ session, (next session).shelf = session.shelf)
    (hwarnings : ∀ session, (next session).warnings = session.warnings)
    (hweight : ∀ session, weight (value session) = 0) : Paid tariff place 0 action weight where
  spends {session _ _} _ h := by
    have hrun := hrun scope.info session
    obtain ⟨hvalue, rfl⟩ := Prod.mk.inj (h.symm.trans hrun)
    cases hvalue
    refine ⟨congrArg Stack.depth (hstack session), ?_⟩
    rw [Tariff.session, Tariff.session, Tariff.granted, Tariff.granted, hstack, hshelf, hwarnings,
      hweight]
  blind _ session := (hrun scope.info session).trans (hrun none session).symm

/-- What follows may use that the text is the one of the scope. -/
theorem source {next : Source → Recover β} {weight : β → Nat}
    (h : Paid tariff place credit (next scope.source) weight) :
    Paid tariff place credit (Recover.source >>= next) weight where
  spends hplace hrun := by
    rw [outcome_bind_ok (outcome_source scope _)] at hrun
    exact h.spends hplace hrun
  blind hdiscreet session := by
    rw [outcome_bind_ok (outcome_source scope session),
      outcome_bind_ok (outcome_source scope.uninformed session)]
    exact h.blind hdiscreet session

/-- To look at the stack costs nothing. -/
theorem getStack : Pays tariff place 0 getStack :=
  aside Session.stack id (fun _ _ => rfl) (fun _ => rfl) (fun _ => rfl) (fun _ => rfl) fun _ => rfl

/-- What follows may use that the stack is the one of the session. -/
theorem inspect {next : Stack → Recover β} {weight : β → Nat}
    (hspends : ∀ {session later : Session} {value : β}, place.Holds session.stack →
      (next session.stack).outcome scope session = (.ok value, later) →
        Spent tariff session later credit (weight value))
    (hblind : ∀ stack, tariff.discreet → Blind scope (next stack)) :
    Paid tariff place credit (Recover.getStack >>= next) weight where
  spends hplace hrun := by
    rw [outcome_bind_ok (outcome_getStack scope _)] at hrun
    exact hspends hplace hrun
  blind hdiscreet := Blind.bind (fun _ => rfl) fun stack => hblind stack hdiscreet

theorem gapStart : Pays tariff place 0 gapStart :=
  aside (fun session => session.stack.gapStart) id (fun _ _ => rfl) (fun _ => rfl) (fun _ => rfl)
    (fun _ => rfl) fun _ => rfl

theorem endsWithSemicolon (finish : Nat) : Pays tariff place 0 (endsWithSemicolon finish) :=
  aside (fun _ => scope.source.endsWithSemicolon finish) id (fun _ _ => rfl) (fun _ => rfl)
    (fun _ => rfl) (fun _ => rfl) fun _ => rfl

theorem terminates (node : Node) (finish : Nat) : Pays tariff place 0 (terminates node finish) :=
  endsWithSemicolon _

theorem note (entry : Entry) : Pays tariff place 0 (note entry) :=
  aside (fun _ => ()) (fun session => session.note entry) (fun _ _ => rfl) (fun _ => rfl)
    (fun _ => rfl) (fun _ => rfl) fun _ => rfl

theorem skipNextName : Pays tariff place 0 skipNextName :=
  aside (fun _ => ()) (fun session => { session with skipsName := true }) (fun _ _ => rfl)
    (fun _ => rfl) (fun _ => rfl) (fun _ => rfl) fun _ => rfl

theorem takeSkip : Pays tariff place 0 takeSkip :=
  aside Session.skipsName (fun session => { session with skipsName := false }) (fun _ _ => rfl)
    (fun _ => rfl) (fun _ => rfl) (fun _ => rfl) fun _ => rfl

/-- A name among the names of the session is in no tree. -/
theorem intern (text : String) : Pays tariff place 0 (intern text) :=
  aside (fun _ => ()) (fun session => { session with names := session.names.enter text })
    (fun _ _ => rfl) (fun _ => rfl) (fun _ => rfl) (fun _ => rfl) fun _ => rfl

/-- The one step that asks for the metadata of the module. -/
theorem exportStatus {name : String} {weight : ExportStatus → Nat}
    (hweight : weight (.of scope.info name) = 0)
    (hblind : tariff.discreet → ExportStatus.of scope.info name = .hidden) :
    Paid tariff place 0 (exportStatus name) weight where
  spends {session _ _} _ hrun := by
    have hvalue : (Recover.exportStatus name).outcome scope session =
        (.ok (.of scope.info name), session) := rfl
    obtain ⟨hstatus, rfl⟩ := Prod.mk.inj (hrun.symm.trans hvalue)
    rw [Except.ok.inj hstatus]
    exact .refl hweight.le
  blind hdiscreet session := by
    have hvalue : ∀ info, (Recover.exportStatus name).outcome { scope with info := info } session =
        (.ok (.of info name), session) := fun _ => rfl
    have hhidden := hblind hdiscreet
    exact ((hvalue scope.info).trans (by rw [hhidden]; rfl)).trans (hvalue none).symm

/-! ## Spans -/

/-- A result that is known already has to be worth what was given. -/
theorem orFail {found : Except Failure α} {weight : α → Nat}
    (h : ∀ value, found = .ok value → weight value ≤ credit) :
    Paid tariff place credit (orFail found) weight := by
  cases found with
  | ok value => exact pure (h value rfl)
  | error failure => exact throw

theorem spanBetween (start last : Nat) : Pays tariff place 0 (spanBetween start last) :=
  orFail fun _ _ => Nat.le_refl _

theorem mergeSpans (a b : Span) : Pays tariff place 0 (mergeSpans a b) :=
  orFail fun _ _ => Nat.le_refl _

theorem rangeSpan (start finish : Nat) : Pays tariff place 0 (rangeSpan start finish) :=
  source (orFail fun _ _ => Nat.le_refl _)

/-! ## Missing tokens -/

/-- A token that is missing brings in a warning. -/
theorem report (missing : Missing) :
    Paid tariff place 0 (report missing) fun _ => tariff.warning where
  spends {session _ _} _ hrun := by
    obtain ⟨text, info, strict⟩ := scope
    cases strict with
    | true => cases hrun
    | false =>
      cases hrun
      refine ⟨rfl, ?_⟩
      show tariff.session session + tariff.warning + tariff.warning * session.warnings.size ≤
        tariff.session session + 0 + tariff.warning * (session.warnings.push missing).size
      rw [Array.size_push, Nat.mul_succ]
      omega
  blind _ session := by
    obtain ⟨text, info, strict⟩ := scope
    cases strict <;> rfl

/-- What is found must be free. For a fallback a warning has to do. -/
theorem settle {found : Except Missing α} {fallback : α} {weight : α → Nat}
    (h : ∀ value, found = .ok value → weight value = 0)
    (hfallback : weight fallback ≤ tariff.warning) :
    Paid tariff place 0 (settle found fallback) weight := by
  cases found with
  | ok value => exact pure (h value rfl).le
  | error missing => exact (report missing).bind fun _ => pure hfallback

/-- What is located has to be free, and a token that is missed leaves nothing that would have a
price. -/
theorem settle? {found : Except Missing α} {weight : α → Nat}
    (h : ∀ value, found = .ok value → weight value = 0) :
    Paid tariff place 0 (settle? found) fun located => located.elim 0 weight := by
  cases found with
  | ok value => exact pure (h value rfl).le
  | error missing => exact (report missing).pays.andThen fun _ => pure (Nat.le_refl _)

/-- An offset at which nothing is going to be put is free. -/
theorem settleFree {found : Except Missing α} {fallback : α} :
    Pays tariff place 0 (Recover.settle found fallback) :=
  settle (fun _ _ => rfl) (Nat.zero_le _)

/-- A result without a price may be missed at no cost. -/
theorem settleFree? {found : Except Missing α} : Pays tariff place 0 (Recover.settle? found) := by
  have hfree :
      Paid tariff place 0 (Recover.settle? found) fun located => located.elim 0 fun _ => 0 :=
    settle? fun _ _ => rfl
  exact hfree.pays

/-- An offset is worth what the symbol of the token costs there. -/
theorem settleAt (token : Token) {found : Except Missing Nat} {fallback : Nat}
    (h : scope.source.Locates token found) :
    Paid tariff place 0 (Recover.settle found fallback)
      fun offset => tariff.symbol (token.at offset) :=
  settle (fun offset hfound => tariff.symbol_at (h offset hfound)) (tariff.symbol_le _)

/-- An offset at which the token stands is free, since the symbol will spell it. -/
theorem settleAt? (token : Token) {found : Except Missing Nat}
    (h : scope.source.Locates token found) :
    Paid tariff place 0 (Recover.settle? found)
      fun located => located.elim 0 fun offset => tariff.symbol (token.at offset) :=
  settle? fun offset hfound => tariff.symbol_at (h offset hfound)

/-! ## Symbols -/

/-- To place a token costs what its symbol is worth. -/
theorem symbolAt (token : Token) (start : Nat) :
    Paid tariff place (tariff.symbol (token.at start)) (symbolAt token start) tariff.symbol where
  spends {session _ _} _ hrun := by
    rw [outcome_symbolAt] at hrun
    cases hrun
    refine ⟨rfl, ?_⟩
    simp only [Tariff.session, Tariff.granted]
    omega
  blind _ session := by
    rw [outcome_symbolAt, outcome_symbolAt]

/-- Where a token stands its symbol is free. -/
theorem symbolFound {token : Token} {start : Nat}
    (h : scope.source.spells (token.at start) = true) :
    Paid tariff place credit (Recover.symbolAt token start) tariff.symbol :=
  (symbolAt token start).afford (by rw [tariff.symbol_at h]; exact Nat.zero_le _)

/-- A literal is free, whatever it covers. -/
theorem symbolOver {kind : TokenKind} {span : Span} (h : kind.isLiteral = true) :
    Paid tariff place 0 (symbolOver kind span) tariff.symbol :=
  source ((intern _).andThen fun _ => pure (tariff.symbol_literal _ h).le)

/-- The symbol that is found spells the text, any other is paid for by the warning. -/
theorem find {token : Token} (context : String) (start finish : Nat) (ht : token.text ≠ "") :
    Paid tariff place 0 (find token context start finish) tariff.symbol :=
  source ((settleAt token (Source.locates_locate ht)).bind fun offset => symbolAt token offset)

/-- As for `find`, from the other end of the window. -/
theorem findLast {token : Token} (context : String) (start finish : Nat) (ht : token.text ≠ "") :
    Paid tariff place 0 (findLast token context start finish) tariff.symbol :=
  source ((settleAt token (Source.locates_locateLast ht)).bind fun offset => symbolAt token offset)

/-- As for `find`, with a word. -/
theorem findWord {word : String} (context : String) (start finish : Nat) (hw : word ≠ "") :
    Paid tariff place 0 (findWord word context start finish) tariff.symbol :=
  source ((settleAt (.keyword word) (Source.locates_locateWord hw)).bind
    fun offset => symbolAt _ offset)

/-- A word that is missed leaves no symbol, and the warning is worth more than that. -/
theorem findLastWord? {word : String} (context : String) (start finish : Nat) (hw : word ≠ "") :
    Paid tariff place 0 (findLastWord? word context start finish)
      fun found => found.elim 0 tariff.symbol := by
  refine source ((settleAt? (.keyword word) (Source.locates_locateLastWord hw)).bind ?_)
  intro found
  cases found with
  | none => exact pure (Nat.zero_le _)
  | some offset => exact (symbolAt _ offset).spend fun _ => pure (Nat.le_refl _)

/-- The token spells the text at the offset where it is expected, or where it is found. -/
theorem findAtOrAfter {token : Token} (context : String) (offset finish : Nat)
    (ht : token.text ≠ "") :
    Paid tariff place 0 (findAtOrAfter token context offset finish) tariff.symbol := by
  refine source ?_
  split
  · next hslice => exact symbolFound (Source.spells_of_slice ht (eq_of_beq hslice))
  · exact find context offset finish ht

/-- The token spells the text in front of the offset where it is expected to end, or where it is
found. -/
theorem findEndingAt {token : Token} (context : String) (start finish : Nat)
    (ht : token.text ≠ "") :
    Paid tariff place 0 (findEndingAt token context start finish) tariff.symbol := by
  refine source ?_
  split
  · next hslice =>
    simp only [Bool.and_eq_true, decide_eq_true_eq, beq_iff_eq] at hslice
    refine symbolFound (Source.spells_of_slice ht ?_)
    rw [Nat.sub_add_cancel hslice.1.1]
    exact hslice.2
  · exact findLast context start finish ht

/-- A name is a leaf with one symbol, which is free. -/
theorem identifier (start finish : Nat) (name : String) :
    Paid tariff place 0 (identifier start finish name) tariff.tree := by
  refine (rangeSpan start finish).andThen fun span => (intern name).andThen fun _ => pure ?_
  rw [Tariff.tree_leaf, tariff.kind_single rfl rfl, tariff.symbol_literal _ rfl]

/-! ## Changes to the children -/

/-- A change to the stack has to be paid for by what was given. -/
theorem modifyStack {change : Stack → Stack}
    (h : ∀ stack, place.Holds stack → (change stack).depth = stack.depth ∧
      tariff.stack (change stack) ≤ tariff.stack stack + credit) :
    Pays tariff place credit (modifyStack change) where
  spends {session _ _} hplace hrun := by
    cases hrun
    obtain ⟨hdepth, hstack⟩ := h session.stack hplace
    exact .of_stack hdepth hstack
  blind _ _ := rfl

/-- The number of open nodes does not change with one of them. -/
theorem depth_modifyCurrent (stack : Stack) (change : Node → Node) :
    (stack.modifyCurrent change).depth = stack.depth := by
  obtain ⟨root, _ | ⟨inner, outer⟩⟩ := stack <;> rfl

/-- To attach a node costs what it is worth. -/
theorem attach (node : Node) : Pays tariff place (tariff.tree node) (attach node) :=
  modifyStack fun stack _ => ⟨depth_modifyCurrent _ _, tariff.stack_attach stack node⟩

/-- Attaches a node that has been paid for. -/
theorem attached {action : Recover Node} (h : Paid tariff place credit action tariff.tree) :
    Pays tariff place credit (do Recover.attach (← action)) :=
  h.payOff attach

/-- Replacing the last child costs the difference. -/
theorem stack_replaceLast {stack : Stack} {node made : Node} (hlast : stack.lastChild? = some node)
    (htree : tariff.tree made ≤ tariff.tree node + credit)
    (hbelow : tariff.below made ≤ tariff.below node + credit) :
    tariff.stack (stack.modifyCurrent (·.modifyLastChild fun _ => made)) ≤
      tariff.stack stack + credit := by
  have hchildren : stack.children.getLast? = some node := hlast
  rw [Stack.replaceLast_eq_setChildren made hlast]
  refine tariff.stack_setChildren (fun _ => ?_) fun _ _ => ?_
  · rw [tariff.trees_dropLast hchildren, Tariff.trees_append, Tariff.trees_cons, Tariff.trees_nil]
    omega
  · rw [tariff.allBelow_dropLast hchildren, Tariff.allBelow_append, Tariff.allBelow_singleton]
    omega

/-- Another node may take the place of the last child if it is worth no more, itself and
below it. -/
theorem spent_replaceLast {session : Session} {node made : Node}
    (hlast : session.stack.lastChild? = some node)
    (htree : tariff.tree made ≤ tariff.tree node + credit)
    (hbelow : tariff.below made ≤ tariff.below node + credit) :
    Spent tariff session
      { session with stack := session.stack.modifyCurrent (·.modifyLastChild fun _ => made) }
      credit 0 :=
  .of_stack (depth_modifyCurrent _ _) (stack_replaceLast hlast htree hbelow)

/-- A change to the children of the innermost open node that may be refused. -/
theorem edit {change : Stack → Except Failure Stack}
    (h : ∀ before after, place.Holds before → change before = .ok after →
      after.depth = before.depth ∧ tariff.stack after ≤ tariff.stack before + credit) :
    Pays tariff place credit (edit change) := by
  refine inspect (fun {session _ _} hplace hrun => ?_) fun _ _ => ?_
  · obtain ⟨stack, later, hchange, hmodify⟩ := ok_of_bind hrun
    rw [outcome_orFail] at hchange
    obtain ⟨hstack, rfl⟩ := Prod.mk.inj hchange
    cases hmodify
    obtain ⟨hdepth, hstack⟩ := h session.stack stack hplace hstack
    exact .of_stack hdepth hstack
  · exact Blind.orFail.bind fun _ _ => rfl

/-- In another order the children have the same price. -/
theorem trees_permuted (value : Node → Nat) {permutation : List Nat} {nodes : List Node}
    (h : Stack.isPermutation permutation nodes.length = true) :
    ((permutation.filterMap (nodes[·]?)).map value).sum = (nodes.map value).sum :=
  ((Stack.perm_of_isPermutation h).map value).sum_nat

/-- Several nodes cost what they are worth together. -/
theorem forM_attach (nodes : List Node) :
    Pays tariff place (tariff.trees nodes) (nodes.forM Recover.attach) := by
  induction nodes with
  | nil => exact pure (Nat.le_refl _)
  | cons node rest ih =>
    show Pays tariff place _ (Recover.attach node >>= fun _ => rest.forM Recover.attach)
    exact (attach node).spend fun _ => ih.afford (Nat.le_add_left _ _)

/-- Children in another order are worth the same. -/
theorem reorder (permutation : List Nat) : Pays tariff place 0 (reorder permutation) := by
  rw [Recover.reorder]
  refine edit fun before after _ h => ?_
  rw [Stack.reorder_eq] at h
  split at h
  · next hpermutation =>
    cases h
    refine ⟨depth_modifyCurrent _ _, tariff.stack_setChildren (fun _ => ?_) fun _ _ => ?_⟩
    · exact (trees_permuted tariff.tree hpermutation).le
    · exact (trees_permuted tariff.below hpermutation).le
  · cases h

/-- The wrapper has to be paid for, the child in it has been. -/
theorem wrapChild (index : Nat) (wrapper : Node) :
    Pays tariff .inside (tariff.tree wrapper) (wrapChild index wrapper) := by
  rw [Recover.wrapChild]
  exact edit fun _ _ hinside h => tariff.stack_wrapChild h hinside

/-- The parentheses of a group are searched for, and spell the text or come with warnings. -/
theorem groupLastChild : Pays tariff .inside 0 groupLastChild := by
  rw [Recover.groupLastChild]
  refine edit fun before after hinside h => ?_
  simp only [Stack.groupLastChild] at h
  split at h
  · next child _ =>
    have hgroup : tariff.tree (.leaf .group child.span) = 0 := tariff.tree_leaf _ _
    have hwrap := tariff.stack_wrapChild h hinside
    rwa [hgroup] at hwrap
  · cases h

theorem expectChildren (expected : Nat) : Pays tariff place 0 (expectChildren expected) := by
  refine getStack.andThen fun stack => ?_
  dsimp only
  split
  · exact throw
  · exact pure (Nat.le_refl _)

/-! ## Open nodes -/

/-- The price of the node is paid when it is opened, and returned with what has been attached to it
when it is closed. -/
theorem within {node : Node} {body : Recover Unit} (hbody : Pays tariff .inside credit body) :
    Paid tariff place (tariff.tree node + credit) (within node body) tariff.tree where
  spends {session last value} _ hrun := by
    obtain ⟨later, closed, hrun, hopened, hroot, hshelf, hwarnings, -, hcover⟩ := ok_of_within hrun
    have hspent : Spent tariff (session.opening node) later credit 0 :=
      hbody.spends (List.cons_ne_nil _ _) hrun
    have hdepth : later.stack.depth = session.stack.depth + 1 := hspent.depth
    have hbalance : _ + 0 + tariff.warning * session.warnings.size ≤
        tariff.stack (session.stack.push node) + tariff.shelf session.shelf + credit +
          tariff.warning * later.warnings.size := hspent.balance
    obtain ⟨span, rfl⟩ := Node.eq_of_cover hcover
    rw [Stack.depth, hopened, List.length_cons] at hdepth
    rw [tariff.stack_push, Tariff.session, Tariff.stack, hopened, Tariff.trees_cons,
      tariff.tree_eq closed] at hbalance
    refine ⟨Nat.succ.inj hdepth, ?_⟩
    rw [Tariff.session, Tariff.session, Tariff.stack, Tariff.granted, Tariff.granted, hroot, hshelf,
      hwarnings, tariff.tree_eq]
    change _ + (tariff.kind closed.kind + tariff.below closed) + _ ≤ _
    omega
  blind hdiscreet := by
    have hblind := hbody.blind hdiscreet
    refine Blind.bind (fun _ => rfl) fun _ => Blind.bind (fun session => ?_) fun reached => ?_
    · rw [outcome_attempt, outcome_attempt, hblind]
    · have hclose : Blind scope closeNode :=
        Blind.bind (fun _ => rfl) fun stack => Blind.orFail.bind fun _ _ => rfl
      exact hclose.bind fun closed => Blind.orFail.bind fun covered =>
        Blind.orFail.bind fun _ _ => rfl

/-- The node is paid for when it is opened, and its body has the credit that remains. -/
theorem enter {node : Node} {body : Recover Unit} (hbody : Pays tariff .inside credit body) :
    Pays tariff place (tariff.tree node + credit) (enter node body) :=
  attached (within hbody)

section Leaves

variable {kind : NodeKind} {span : Span} {body : Recover Unit}

/-- The symbols of the node have to be paid for, and what is spent on the inside. -/
theorem withinSpending (inner : Nat) (located : List Symbol) (hsymbols : kind.symbols = located)
    (hexport : kind.isExport = false) (hcredit : tariff.symbols located + inner ≤ credit)
    (hbody : Pays tariff .inside inner body) :
    Paid tariff place credit (Recover.within (.leaf kind span) body) tariff.tree := by
  refine (within hbody).afford ?_
  rw [Tariff.tree_leaf, tariff.kind_symbols located hsymbols hexport]
  exact hcredit

/-- Only the symbols of the node have to be paid for. -/
theorem withinLeaf (located : List Symbol) (hsymbols : kind.symbols = located)
    (hexport : kind.isExport = false) (hcredit : tariff.symbols located ≤ credit)
    (hbody : Pays tariff .inside 0 body) :
    Paid tariff place credit (Recover.within (.leaf kind span) body) tariff.tree :=
  withinSpending 0 located hsymbols hexport hcredit hbody

/-- A node without symbols costs nothing. -/
theorem withinBare (hsymbols : kind.symbols = []) (hexport : kind.isExport = false)
    (hbody : Pays tariff .inside credit body) :
    Paid tariff place credit (Recover.within (.leaf kind span) body) tariff.tree :=
  withinSpending credit [] hsymbols hexport (Nat.zero_add credit).le hbody

/-- The body may spend what is left of the credit when the symbols are paid for. -/
theorem enterSpending (inner : Nat) (located : List Symbol) (hsymbols : kind.symbols = located)
    (hexport : kind.isExport = false) (hcredit : tariff.symbols located + inner ≤ credit)
    (hbody : Pays tariff .inside inner body) :
    Pays tariff place credit (Recover.enter (.leaf kind span) body) :=
  attached (withinSpending inner located hsymbols hexport hcredit hbody)

/-- As for `withinLeaf`, with the node attached. -/
theorem enterLeaf (located : List Symbol) (hsymbols : kind.symbols = located)
    (hexport : kind.isExport = false) (hcredit : tariff.symbols located ≤ credit)
    (hbody : Pays tariff .inside 0 body) :
    Pays tariff place credit (Recover.enter (.leaf kind span) body) :=
  attached (withinLeaf located hsymbols hexport hcredit hbody)

/-- A node without symbols leaves all of the credit to its body. -/
theorem enterBare (hsymbols : kind.symbols = []) (hexport : kind.isExport = false)
    (hbody : Pays tariff .inside credit body) :
    Pays tariff place credit (Recover.enter (.leaf kind span) body) :=
  attached (withinBare hsymbols hexport hbody)

end Leaves

/-- A placeholder costs nothing. -/
theorem attachEmpty (offset : Nat) : Pays tariff place credit (Recover.attach (.empty offset)) :=
  (attach _).afford (by rw [Tariff.tree_empty]; exact Nat.zero_le _)

/-! ## Deferred nodes -/

/-- A node that is deferred is paid for as if it were attached. -/
theorem defer (node : Node) : Pays tariff place (tariff.tree node) (defer node) where
  spends {session _ _} _ hrun := by
    have hdefer : (Recover.defer node).outcome scope session =
        (.ok (session.shelf.put node).1, session.deferred node) := rfl
    obtain ⟨-, rfl⟩ := Prod.mk.inj (hrun.symm.trans hdefer)
    refine ⟨rfl, ?_⟩
    simp only [Tariff.session, Tariff.granted, Session.deferred, tariff.shelf_put]
    omega
  blind _ _ := rfl

/-- A node that comes back from the shelf has been paid for. -/
theorem takeDeferred (ticket : Ticket) :
    Paid tariff place 0 (takeDeferred ticket) tariff.tree where
  spends {session _ _} _ hrun := by
    have hget : (get : Recover Session).outcome scope session = (.ok session, session) := rfl
    rw [Recover.takeDeferred, outcome_bind_ok hget] at hrun
    obtain ⟨⟨node, shelf⟩, later, htake, hrun⟩ := ok_of_bind hrun
    rw [outcome_orFail] at htake
    obtain ⟨htaken, rfl⟩ := Prod.mk.inj htake
    cases hrun
    refine ⟨rfl, ?_⟩
    have htaken := tariff.shelf_take htaken
    simp only [Tariff.session, Tariff.granted]
    omega
  blind _ := Blind.bind (fun _ => rfl) fun session => Blind.orFail.bind fun _ _ => rfl

end Paid

end Recover

end Concretion
