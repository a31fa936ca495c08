import Concretion.Proofs.Comments
import Concretion.Proofs.Inversion
import Concretion.Proofs.Spelled

/-!
# Computations that overlook comments

A computation overlooks comments if it comes to the same in two texts that differ in their comments
only. Of all that a rule reads, the last byte of a statement is the one thing that may be the byte
of a comment, so the induction has to carry where nodes end.

- `Node.EndsAlike`: the texts agree on the last bytes of a node and of all below it.
- `Session.EndsAlike`: they do so for all nodes that are finished, open nodes having finished
  children only.
- `Overlooks`: from such a session, the outcome in both texts is the same, and the session stays
  such a one.
- `Overlooks.within`, `Overlooks.terminates`, `Overlooks.find` and so on: the steps of a recovery.
-/

namespace Concretion

open Text

/-! ## Where nodes end -/

namespace Source

variable {a b : Source}

/-- The texts agree on the byte in front of an offset, if there is one. -/
def AlikeBefore (a b : Source) (finish : Nat) : Prop := ∀ last, finish = last + 1 → a.Alike b last

/-- Of two ends, the later one has a byte in front that is one of theirs. -/
theorem AlikeBefore.max {finish finish' : Nat} (h : a.AlikeBefore b finish)
    (h' : a.AlikeBefore b finish') : a.AlikeBefore b (max finish finish') := by
  rcases Nat.le_total finish finish' with hle | hle
  · rwa [Nat.max_eq_right hle]
  · rwa [Nat.max_eq_left hle]

/-- Behind an offset, the byte in front is the one at that offset. -/
theorem AlikeBefore.succ {last : Nat} (h : a.Alike b last) : a.AlikeBefore b (last + 1) := by
  intro other hother
  rwa [← Nat.succ.inj hother]

/-- The span of a range ends in front of the end of the range, or where it starts. -/
theorem alike_ofBounds {start finish : Nat} (hstart : a.Alike b start)
    (hfinish : a.AlikeBefore b finish) : a.Alike b (Span.ofBounds start finish).last := by
  rw [Span.ofBounds]
  cases finish with
  | zero => rwa [Nat.zero_sub, Nat.max_eq_right (Nat.zero_le start)]
  | succ last =>
    rw [Nat.add_sub_cancel]
    rcases Nat.le_total last start with hle | hle
    · rwa [Nat.max_eq_right hle]
    · rw [Nat.max_eq_left hle]
      exact hfinish last rfl

/-- A merged span ends where one of the two spans does. -/
theorem alike_merge {span other merged : Span} (h : span.merge other = .ok merged)
    (hspan : a.Alike b span.last) (hother : a.Alike b other.last) : a.Alike b merged.last := by
  obtain ⟨-, rfl⟩ := Span.make_eq_ok_iff.1 h
  rcases Nat.le_total span.last other.last with hle | hle
  · rwa [Nat.max_eq_right hle]
  · rwa [Nat.max_eq_left hle]

end Source

/-- The byte in front of an offset, if there is one, is outside of comments. -/
def Source.CodeBefore (source : Source) (finish : Nat) : Prop :=
  finish = 0 ∨ source.inComment (finish - 1) = false

instance (source : Source) (finish : Nat) : Decidable (source.CodeBefore finish) :=
  inferInstanceAs (Decidable (_ ∨ _))

/-- The first and the last byte of the range are outside of comments. -/
structure Range.InCode (source : Source) (range : Range) : Prop where
  start : source.inComment range.start = false
  finish : source.CodeBefore range.finish

instance (source : Source) (range : Range) : Decidable (range.InCode source) :=
  decidable_of_iff (source.inComment range.start = false ∧ source.CodeBefore range.finish)
    ⟨fun h => ⟨h.1, h.2⟩, fun h => ⟨h.1, h.2⟩⟩

/-- The later of two ends has code in front if both have. -/
theorem Source.CodeBefore.max {source : Source} {finish finish' : Nat}
    (h : source.CodeBefore finish) (h' : source.CodeBefore finish') :
    source.CodeBefore (max finish finish') := by
  rcases Nat.le_total finish finish' with hle | hle
  · rwa [Nat.max_eq_right hle]
  · rwa [Nat.max_eq_left hle]

/-- The texts agree on the first and on the last byte of the symbol. -/
structure Symbol.Alike (a b : Source) (symbol : Symbol) : Prop where
  start : a.Alike b symbol.span.start
  last : a.Alike b symbol.span.last

namespace Token

/-- The token is not empty, and only its first byte may be a slash. -/
def Searchable (token : Token) : Prop :=
  token.text ≠ "" ∧ 0x2F ∉ (pattern token.text).tail

/-- The token is not empty, and has neither a slash nor a line feed. -/
def Closing (token : Token) : Prop := Clear token.text ∧ 0x0A ∉ pattern token.text

instance (token : Token) : Decidable token.Searchable := inferInstanceAs (Decidable (_ ∧ _))

instance (token : Token) : Decidable token.Closing := inferInstanceAs (Decidable (_ ∧ _))

/-- A token without any slash has none behind its first byte. -/
theorem searchable_of_clear {token : Token} (h : Clear token.text) : token.Searchable :=
  ⟨h.1, fun hslash => h.slash (List.mem_of_mem_tail hslash)⟩

end Token

namespace Source.Twins

variable {a b : Source} (twins : a.Twins b)
include twins

/-- The texts agree on code. -/
theorem alikeBefore {finish : Nat} (h : a.CodeBefore finish) : a.AlikeBefore b finish := by
  rintro last rfl
  rcases h with hzero | hcode
  · cases hzero
  · exact twins.alike hcode

end Source.Twins

namespace Source

variable {a b : Source} {token : Token} {offset : Nat}

/-- The texts agree on a token that both of them spell at the same place. -/
theorem alike_of_spells (ha : a.spells (token.at offset) = true)
    (hb : b.spells (token.at offset) = true) : (token.at offset).Alike a b := by
  rw [spells, Bool.and_eq_true, decide_eq_true_eq, beq_iff_eq] at ha hb
  have hsame : ∀ place, offset ≤ place → place ≤ (token.at offset).span.last → a.Alike b place := by
    intro place hstart hlast
    have hbytes := congrArg (·[place - offset]?) (ha.2.trans hb.2.symm)
    have hplace : offset + (place - offset) = place := by omega
    simp only [Array.getElem?_toList, Array.getElem?_extract, Token.at, hplace] at hbytes
    have ha' : (token.at offset).span.last < a.bytes.size := ha.1
    have hb' : (token.at offset).span.last < b.bytes.size := hb.1
    simp only [Token.at] at ha' hb' hlast
    rwa [if_pos (by omega), if_pos (by omega)] at hbytes
  have hle : offset ≤ (token.at offset).span.last := by
    simp only [Token.at]
    omega
  exact ⟨hsame offset (Nat.le_refl _) hle, hsame _ hle (Nat.le_refl _)⟩

/-- The texts agree on a token that has been located in both. -/
theorem alike_of_locates {found : Except Missing Nat} (ha : a.Locates token found)
    (hb : b.Locates token found) (h : found = .ok offset) : (token.at offset).Alike a b :=
  alike_of_spells (ha offset h) (hb offset h)

end Source

/-- The texts agree on the last byte of the node and on those of all nodes below it. What is below a
return does not matter: without a value it has a placeholder, which may stand in a comment. -/
inductive Node.EndsAlike (a b : Source) : Node → Prop where
  | intro {node : Node} (last : a.Alike b node.last)
      (children : node.kind ≠ .returnStatement → ∀ child ∈ node.children, child.EndsAlike a b) :
      EndsAlike a b node

namespace Node

variable {a b : Source} {node : Node}

/-- Whatever its kind, a node that ends alike has a last byte that the texts agree on. -/
theorem EndsAlike.last (h : node.EndsAlike a b) : a.Alike b node.last := by
  cases h
  assumption

/-- Only a return may have children that do not end alike. -/
theorem EndsAlike.children (h : node.EndsAlike a b) (hkind : node.kind ≠ .returnStatement) :
    ∀ child ∈ node.children, child.EndsAlike a b := by
  cases h
  solve_by_elim

/-- The node ends alike, and its children do even if it is a return. -/
structure Whole (a b : Source) (node : Node) : Prop where
  last : a.Alike b node.last
  children : ∀ child ∈ node.children, child.EndsAlike a b

/-- What is known of its children may be forgotten. -/
theorem Whole.endsAlike (h : node.Whole a b) : node.EndsAlike a b := ⟨h.last, fun _ => h.children⟩

/-- Unless it is a return, a node that ends alike has children that do. -/
theorem EndsAlike.whole (h : node.EndsAlike a b) (hkind : node.kind ≠ .returnStatement) :
    node.Whole a b := ⟨h.last, h.children hkind⟩

/-- A leaf has no children to be looked at. -/
theorem whole_leaf {kind : NodeKind} {span : Span} (h : a.Alike b span.last) :
    (leaf kind span).Whole a b := ⟨h, List.forall_mem_nil _⟩

/-- Whose the semicolon is does not move the end of a node. -/
theorem EndsAlike.withSemicolon (h : node.EndsAlike a b) (flag : Bool) :
    Node.EndsAlike a b { node with ownsSemicolon := flag } := ⟨h.last, h.children⟩

theorem endsAlike_leaf {kind : NodeKind} {span : Span} (h : a.Alike b span.last) :
    (leaf kind span).EndsAlike a b := (whole_leaf h).endsAlike

/-- A placeholder ends where it stands. -/
theorem endsAlike_empty {offset : Nat} (h : a.Alike b offset) : (empty offset).EndsAlike a b :=
  endsAlike_leaf h

/-- A node ends where it ended before or where a child of it ends. -/
theorem alike_cover {covered : Node} (h : node.cover = .ok covered)
    (hchildren : ∀ child ∈ node.children, child.EndsAlike a b) (hlast : a.Alike b node.last) :
    a.Alike b covered.last :=
  cover_induction (p := fun span => a.Alike b span.last) Source.alike_merge h hlast
    fun child hchild => (hchildren child hchild).last

end Node

/-! ## Sessions -/

/-- All finished nodes end alike. -/
structure Stack.EndsAlike (a b : Source) (stack : Stack) : Prop where
  root : ∀ child ∈ stack.root.children, child.EndsAlike a b
  opened : ∀ node ∈ stack.opened, ∀ child ∈ node.children, child.EndsAlike a b

namespace Stack

/-- Kinds and spans of the open nodes. -/
def outline (stack : Stack) : List (NodeKind × Span) :=
  stack.opened.map fun node => (node.kind, node.span)

variable {a b : Source} {stack : Stack}

theorem EndsAlike.children (h : stack.EndsAlike a b) :
    ∀ child ∈ stack.children, child.EndsAlike a b := by
  obtain ⟨root, opened⟩ := stack
  cases opened with
  | nil => exact h.root
  | cons node outer => exact h.opened node List.mem_cons_self

/-- The last child is one of the children. -/
theorem EndsAlike.lastChild (h : stack.EndsAlike a b) {child : Node}
    (hchild : stack.lastChild? = some child) : child.EndsAlike a b :=
  h.children child (List.mem_of_getLast? hchild)

/-- A node may be opened, whatever its own end, if its children end alike. -/
theorem EndsAlike.push (h : stack.EndsAlike a b) {node : Node}
    (hnode : ∀ child ∈ node.children, child.EndsAlike a b) : (stack.push node).EndsAlike a b :=
  ⟨h.root, List.forall_mem_cons.2 ⟨hnode, h.opened⟩⟩

/-- Other nodes may take the place of the children if they end alike. -/
theorem EndsAlike.setChildren (h : stack.EndsAlike a b) {children : List Node}
    (hchildren : ∀ child ∈ children, child.EndsAlike a b) :
    (stack.setChildren children).EndsAlike a b := by
  obtain ⟨root, opened⟩ := stack
  cases opened with
  | nil => exact ⟨hchildren, h.opened⟩
  | cons node outer =>
    refine ⟨h.root, List.forall_mem_cons.2 ⟨hchildren, fun other hother => ?_⟩⟩
    exact h.opened other (List.mem_cons_of_mem _ hother)

/-- Children are no part of the outline. -/
theorem outline_setChildren (stack : Stack) (children : List Node) :
    (stack.setChildren children).outline = stack.outline := by
  obtain ⟨root, _ | ⟨inner, outer⟩⟩ := stack <;> rfl

end Stack

/-- All finished nodes end alike, those that are deferred included. -/
structure Session.EndsAlike (a b : Source) (session : Session) : Prop where
  stack : session.stack.EndsAlike a b
  shelf : ∀ slot ∈ session.shelf.slots, ∀ node ∈ slot, node.Whole a b

namespace Recover

variable {α β : Type}

/-- The computation comes to the same in both texts, where no token may be missed. -/
structure Overlooks (a b : Source) (action : Recover α) (result : α → Prop) : Prop where
  same : ∀ (info : Option ModuleInfo) (session : Session), session.EndsAlike a b →
    action.outcome ⟨a, info, true⟩ session = action.outcome ⟨b, info, true⟩ session
  kept : ∀ (info : Option ModuleInfo) (session later : Session) (value : α),
    session.EndsAlike a b → action.outcome ⟨a, info, true⟩ session = (.ok value, later) →
    later.EndsAlike a b ∧ later.stack.outline = session.stack.outline ∧ result value

/-- A computation of whose result nothing needs to be known. -/
abbrev Passes (a b : Source) (action : Recover α) : Prop := Overlooks a b action fun _ => True

/-- Computations in sequence come to the same if each of them does. -/
theorem outcome_bind_congr {action : Recover α} {next : α → Recover β} {scope other : Scope}
    {session : Session} (h : action.outcome scope session = action.outcome other session)
    (hn : ∀ value later, action.outcome scope session = (.ok value, later) →
      (next value).outcome scope later = (next value).outcome other later) :
    (action >>= next).outcome scope session = (action >>= next).outcome other session := by
  rcases hrun : action.outcome scope session with ⟨failure | value, later⟩
  · rw [outcome_bind_error hrun, outcome_bind_error (h ▸ hrun)]
  · rw [outcome_bind_ok hrun, outcome_bind_ok (h ▸ hrun), hn value later hrun]

namespace Overlooks

variable {a b : Source} {action : Recover α} {result : α → Prop}

/-! ## Sequencing -/

/-- What is known of the result may be forgotten. -/
theorem mono {weaker : α → Prop} (h : Overlooks a b action result)
    (hw : ∀ value, result value → weaker value) : Overlooks a b action weaker where
  same := h.same
  kept info session later value hs hrun :=
    let ⟨hlater, houtline, hvalue⟩ := h.kept info session later value hs hrun
    ⟨hlater, houtline, hw value hvalue⟩

/-- All that is known of the result may be forgotten. -/
theorem passes (h : Overlooks a b action result) : Passes a b action := h.mono fun _ _ => trivial

theorem pure {value : α} (hv : result value) : Overlooks a b (Pure.pure value) result where
  same _ _ _ := rfl
  kept _ session later value' hs hrun := by
    rw [outcome_pure] at hrun
    cases hrun
    exact ⟨hs, rfl, hv⟩

/-- A failure is the same in both texts. -/
theorem throw {failure : Failure} : Overlooks a b (throw failure : Recover α) result where
  same _ _ _ := rfl
  kept _ _ _ _ _ hrun := by cases hrun

/-- The second computation has to overlook comments for every result that the first one can have. -/
theorem bind {next : α → Recover β} {after : β → Prop} (h : Overlooks a b action result)
    (hn : ∀ value, result value → Overlooks a b (next value) after) :
    Overlooks a b (action >>= next) after where
  same info session hs := by
    refine outcome_bind_congr (h.same info session hs) fun value later hrun => ?_
    obtain ⟨hlater, -, hvalue⟩ := h.kept info session later value hs hrun
    exact (hn value hvalue).same info later hlater
  kept info session last value hs hrun := by
    obtain ⟨middle, later, hrun, hnext⟩ := ok_of_bind hrun
    obtain ⟨hlater, houtline, hmiddle⟩ := h.kept info session later middle hs hrun
    obtain ⟨hlast, houtline', hvalue⟩ := (hn middle hmiddle).kept info later last value hlater hnext
    exact ⟨hlast, houtline'.trans houtline, hvalue⟩

/-- A computation that overlooks comments on its own account, whatever comes in front of it. -/
theorem andThen {next : Recover β} {after : β → Prop} (h : Passes a b action)
    (hn : Overlooks a b next after) : Overlooks a b (action >>= fun _ => next) after :=
  h.bind fun _ _ => hn

/-- What is done with the text comes to the same if it is the same computation for both texts. -/
theorem source {next : Source → Recover α} (hsame : next b = next a)
    (h : Overlooks a b (next a) result) : Overlooks a b (Recover.source >>= next) result where
  same info session hs := by
    rw [outcome_bind_ok (outcome_source _ _), outcome_bind_ok (outcome_source _ _)]
    exact (h.same info session hs).trans (by rw [hsame])
  kept info session later value hs hrun := by
    rw [outcome_bind_ok (outcome_source _ _)] at hrun
    exact h.kept info session later value hs hrun

/-! ## Loops -/

/-- Each step has to overlook comments, whatever the others do. -/
theorem forM {γ : Type} {step : γ → Recover Unit} {list : List γ}
    (h : ∀ item ∈ list, Passes a b (step item)) : Passes a b (list.forM step) := by
  induction list with
  | nil => exact pure trivial
  | cons item rest ih =>
    show Passes a b (step item >>= fun _ => rest.forM step)
    obtain ⟨hitem, hrest⟩ := List.forall_mem_cons.1 h
    exact hitem.andThen (ih hrest)

/-- The value is one that is wanted at the start, and every step keeps it so. -/
theorem foldlM {γ : Type} {step : α → γ → Recover α} {list : List γ} {value : α}
    (hv : result value)
    (h : ∀ item ∈ list, ∀ value, result value → Overlooks a b (step value item) result) :
    Overlooks a b (list.foldlM step value) result := by
  induction list generalizing value with
  | nil => exact pure hv
  | cons item rest ih =>
    rw [List.foldlM_cons]
    obtain ⟨hitem, hrest⟩ := List.forall_mem_cons.1 h
    exact (hitem value hv).bind fun value hv => ih hv hrest

/-- Each step yields a value that is wanted. -/
theorem mapM {γ : Type} {step : γ → Recover α} {list : List γ}
    (h : ∀ item ∈ list, Overlooks a b (step item) result) :
    Overlooks a b (list.mapM step) fun values => ∀ value ∈ values, result value := by
  induction list with
  | nil =>
    rw [List.mapM_nil]
    exact pure (List.forall_mem_nil _)
  | cons item rest ih =>
    rw [List.mapM_cons]
    obtain ⟨hitem, hrest⟩ := List.forall_mem_cons.1 h
    refine hitem.bind fun value hv => (ih hrest).bind fun values hvs => ?_
    exact pure (List.forall_mem_cons.2 ⟨hv, hvs⟩)

/-! ## Steps that do not read the text -/

/-- A step that cannot fail and does not look at the text. -/
theorem silent {action : Recover α} (value : Option ModuleInfo → Session → α)
    (next : Session → Session)
    (hrun : ∀ scope session, action.outcome scope session =
      (.ok (value scope.info session), next session))
    (hnext : ∀ session, session.EndsAlike a b → (next session).EndsAlike a b)
    (houtline : ∀ session, (next session).stack.outline = session.stack.outline)
    (hvalue : ∀ info session, session.EndsAlike a b → result (value info session)) :
    Overlooks a b action result where
  same info session _ := by rw [hrun, hrun]
  kept info session later value' hs h := by
    rw [hrun] at h
    cases h
    exact ⟨hnext session hs, houtline session, hvalue info session hs⟩

/-- A step that only looks at the session. -/
theorem look {action : Recover α} (value : Option ModuleInfo → Session → α)
    (hrun : ∀ scope session, action.outcome scope session =
      (.ok (value scope.info session), session))
    (hvalue : ∀ info session, session.EndsAlike a b → result (value info session)) :
    Overlooks a b action result :=
  silent value id hrun (fun _ hs => hs) (fun _ => rfl) hvalue

/-- A step that changes neither the open nodes nor what is deferred. -/
theorem aside {action : Recover α} (value : Session → α) (next : Session → Session)
    (hrun : ∀ scope session, action.outcome scope session = (.ok (value session), next session))
    (hstack : ∀ session, (next session).stack = session.stack)
    (hshelf : ∀ session, (next session).shelf = session.shelf) : Passes a b action :=
  silent (fun _ => value) next hrun
    (fun session hs => ⟨hstack session ▸ hs.stack, hshelf session ▸ hs.shelf⟩)
    (fun session => by rw [hstack]) fun _ _ _ => trivial

/-- The nodes of the stack end alike, since they do in the session. -/
theorem getStack : Overlooks a b getStack (Stack.EndsAlike a b) :=
  look (fun _ session => session.stack) (fun _ _ => rfl) fun _ _ hs => hs.stack

theorem exportStatus (name : String) : Passes a b (exportStatus name) :=
  look (fun info _ => .of info name) (fun _ _ => rfl) fun _ _ _ => trivial

theorem gapStart : Passes a b gapStart :=
  look (fun _ session => session.stack.gapStart) (fun _ _ => rfl) fun _ _ _ => trivial

theorem note (entry : Entry) : Passes a b (note entry) :=
  aside (fun _ => ()) (fun session => session.note entry) (fun _ _ => rfl) (fun _ => rfl)
    fun _ => rfl

theorem skipNextName : Passes a b skipNextName :=
  aside (fun _ => ()) (fun session => { session with skipsName := true }) (fun _ _ => rfl)
    (fun _ => rfl) fun _ => rfl

theorem takeSkip : Passes a b takeSkip :=
  aside (fun session => session.skipsName) (fun session => { session with skipsName := false })
    (fun _ _ => rfl) (fun _ => rfl) fun _ => rfl

theorem intern (text : String) : Passes a b (intern text) :=
  aside (fun _ => ()) (fun session => { session with names := session.names.enter text })
    (fun _ _ => rfl) (fun _ => rfl) fun _ => rfl

/-- A change to the stack must keep what has ended alike, and the outline. -/
theorem modifyStack {change : Stack → Stack}
    (h : ∀ stack, stack.EndsAlike a b → (change stack).EndsAlike a b)
    (houtline : ∀ stack, (change stack).outline = stack.outline) :
    Passes a b (modifyStack change) :=
  silent (fun _ _ => ()) (fun session => { session with stack := change session.stack })
    (fun _ _ => rfl) (fun _ hs => ⟨h _ hs.stack, hs.shelf⟩) (fun _ => houtline _)
    fun _ _ _ => trivial

/-- A node that is attached has to end alike. -/
theorem attach {node : Node} (h : node.EndsAlike a b) : Passes a b (attach node) := by
  refine modifyStack (fun stack hs => ?_) fun stack => ?_
  · rw [Stack.attach_eq_setChildren]
    refine hs.setChildren (List.forall_mem_append.2 ⟨hs.children, ?_⟩)
    exact List.forall_mem_singleton.2 h
  · rw [Stack.attach_eq_setChildren, Stack.outline_setChildren]

/-- The node that takes the place of the last child has to end alike. -/
theorem replaceLast {node : Node} (h : node.EndsAlike a b) :
    Passes a b (Recover.modifyStack (·.modifyCurrent (·.modifyLastChild fun _ => node))) := by
  refine modifyStack (fun stack hs => ?_) fun stack => ?_
  · cases hlast : stack.lastChild? with
    | none =>
      have hsame : stack.modifyCurrent (·.modifyLastChild fun _ => node) = stack := by
        obtain ⟨root, _ | ⟨inner, outer⟩⟩ := stack <;>
          simp only [Stack.lastChild?, Stack.current, Node.lastChild?] at hlast <;>
          simp only [Stack.modifyCurrent, Node.modifyLastChild, hlast]
      rwa [hsame]
    | some child =>
      rw [Stack.replaceLast_eq_setChildren node hlast]
      refine hs.setChildren (List.forall_mem_append.2 ⟨fun other hother => ?_, ?_⟩)
      · exact hs.children other (List.dropLast_subset _ hother)
      · exact List.forall_mem_singleton.2 h
  · obtain ⟨root, _ | ⟨inner, outer⟩⟩ := stack
    · rfl
    · simp only [Stack.outline, Stack.modifyCurrent, List.map_cons, Node.modifyLastChild]
      split <;> rfl

/-- What is yielded is the result that was known. -/
theorem orFail (found : Except Failure α) :
    Overlooks a b (orFail found) fun value => found = .ok value := by
  cases found with
  | ok value => exact pure rfl
  | error failure => exact throw

/-- A span that is made between two offsets has these ends. -/
theorem spanBetween (start last : Nat) :
    Overlooks a b (spanBetween start last) fun span => span = ⟨start, last⟩ := by
  refine (orFail _).mono fun span hspan => ?_
  cases hmade : Span.make start last with
  | error ends =>
    rw [hmade] at hspan
    cases hspan
  | ok made =>
    rw [hmade] at hspan
    cases hspan
    exact (Span.make_eq_ok_iff.1 hmade).2

/-- The merged span ends where one of the two spans does, and the texts agree on both. -/
theorem mergeSpans {span other : Span} (hspan : a.Alike b span.last)
    (hother : a.Alike b other.last) :
    Overlooks a b (mergeSpans span other) fun merged => a.Alike b merged.last := by
  refine (orFail _).mono fun merged hmerged => ?_
  cases hmade : span.merge other with
  | error ends =>
    rw [hmade] at hmerged
    cases hmerged
  | ok made =>
    rw [hmade] at hmerged
    cases hmerged
    exact Source.alike_merge hmade hspan hother

/-! ## Changes to the children -/

/-- A change to the children of the innermost open node that may be refused. -/
theorem edit {change : Stack → Except Failure Stack}
    (h : ∀ before after, change before = .ok after → ∃ children,
      after = before.setChildren children ∧
        (before.EndsAlike a b → ∀ child ∈ children, child.EndsAlike a b)) :
    Passes a b (edit change) where
  same info session _ := by rw [outcome_edit, outcome_edit]
  kept info session later value hs hrun := by
    obtain ⟨after, hchange, rfl⟩ := ok_of_edit hrun
    obtain ⟨children, rfl, hchildren⟩ := h _ _ hchange
    exact ⟨⟨hs.stack.setChildren (hchildren hs.stack), hs.shelf⟩, Stack.outline_setChildren _ _,
      trivial⟩

/-- To put children in another order leaves them as they are. -/
theorem reorder (permutation : List Nat) : Passes a b (reorder permutation) := by
  rw [Recover.reorder]
  refine edit fun before after h => ?_
  rw [Stack.reorder_eq] at h
  split at h
  · cases h
    refine ⟨_, rfl, fun hs child hchild => ?_⟩
    obtain ⟨index, -, hindex⟩ := List.mem_filterMap.1 hchild
    exact hs.children child (List.mem_of_getElem? hindex)
  · cases h

/-- A child that is moved under a wrapper. -/
theorem wrapChild_ok {before after : Stack} {index : Nat} {wrapper : Node}
    (h : before.wrapChild index wrapper = .ok after)
    (hwrapper : before.EndsAlike a b → wrapper.Whole a b) :
    ∃ children, after = before.setChildren children ∧
      (before.EndsAlike a b → ∀ child ∈ children, child.EndsAlike a b) := by
  obtain ⟨child, hchild, rfl⟩ := Stack.of_wrapChild h
  refine ⟨_, rfl, fun hs other hother => ?_⟩
  obtain hother | rfl := List.mem_or_eq_of_mem_set hother
  · exact hs.children other hother
  · refine ⟨(hwrapper hs).last, fun _ => List.forall_mem_append.2 ⟨(hwrapper hs).children, ?_⟩⟩
    exact List.forall_mem_singleton.2 (hs.children child (List.mem_of_getElem? hchild))

/-- The wrapper has to end alike, for it takes the place of a child that did. -/
theorem wrapChild (index : Nat) {wrapper : Node} (hwrapper : wrapper.Whole a b) :
    Passes a b (wrapChild index wrapper) := by
  rw [Recover.wrapChild]
  exact edit fun _ _ h => wrapChild_ok h fun _ => hwrapper

/-- The group ends where its child does. -/
theorem groupLastChild : Passes a b groupLastChild := by
  rw [Recover.groupLastChild]
  refine edit fun before after h => ?_
  simp only [Stack.groupLastChild] at h
  split at h
  · next child hchild =>
    exact wrapChild_ok h fun hs => Node.whole_leaf (hs.lastChild hchild).last
  · cases h

theorem expectChildren (expected : Nat) : Passes a b (expectChildren expected) := by
  refine getStack.bind fun stack _ => ?_
  dsimp only
  split
  · exact throw
  · exact pure trivial

/-! ## Deferred nodes -/

/-- A node that is deferred has to be whole, for it may be opened later on. -/
theorem defer {node : Node} (hnode : node.Whole a b) : Passes a b (defer node) := by
  refine silent (fun _ session => (session.shelf.put node).1)
    (fun session => session.deferred node) (fun _ _ => rfl) (fun session hs => ⟨hs.stack, ?_⟩)
    (fun _ => rfl) fun _ _ _ => trivial
  intro slot hslot
  have hput : slot ∈ (session.shelf.put node).2.slots := hslot
  rw [Shelf.put] at hput
  split at hput
  · rcases List.mem_or_eq_of_mem_set hput with hput | rfl
    · exact hs.shelf slot hput
    · rintro other ⟨⟩
      exact hnode
  · rcases List.mem_append.1 hput with hput | hput
    · exact hs.shelf slot hput
    · rw [List.mem_singleton.1 hput]
      rintro other ⟨⟩
      exact hnode

/-- A node that comes back from the shelf is as whole as it was. -/
theorem takeDeferred (ticket : Ticket) :
    Overlooks a b (takeDeferred ticket) (Node.Whole a b) where
  same info session _ := by
    have hget : ∀ scope, (get : Recover Session).outcome scope session = (.ok session, session) :=
      fun _ => rfl
    rw [Recover.takeDeferred, outcome_bind_ok (hget _), outcome_bind_ok (hget _)]
    cases session.shelf.take ticket <;> rfl
  kept info session later node hs hrun := by
    have hget : (get : Recover Session).outcome ⟨a, info, true⟩ session = (.ok session, session) :=
      rfl
    rw [Recover.takeDeferred, outcome_bind_ok hget] at hrun
    obtain ⟨⟨taken, shelf⟩, middle, htake, hrest⟩ := ok_of_bind hrun
    obtain ⟨hshelf, rfl⟩ := ok_of_orFail htake
    cases hrest
    rw [Shelf.take] at hshelf
    split at hshelf
    · next found hfound =>
      cases hshelf
      have hmem := List.mem_of_getElem? hfound
      refine ⟨⟨hs.stack, fun slot hslot => ?_⟩, rfl, hs.shelf _ hmem _ rfl⟩
      rcases List.mem_or_eq_of_mem_set hslot with hslot | rfl
      · exact hs.shelf slot hslot
      · intro other hnone
        cases hnone
    · cases hshelf

/-! ## Open nodes -/

/-- A node is closed without a look at the text. -/
theorem outcome_closeNode (session : Session) (scope other : Scope) :
    closeNode.outcome scope session = closeNode.outcome other session := by
  obtain ⟨⟨root, opened⟩, names, shelf, skipsName, warnings, journal⟩ := session
  cases opened <;> rfl

/-- A node is opened and closed again. Its own end only matters for where it ends then. -/
theorem within_children {node : Node} {body : Recover Unit}
    (hnode : ∀ child ∈ node.children, child.EndsAlike a b) (hb : Passes a b body) :
    Overlooks a b (within node body) fun closed =>
      (∀ child ∈ closed.children, child.EndsAlike a b) ∧
        (a.Alike b node.last → a.Alike b closed.last) where
  same info session hs := by
    have hopen : ∀ scope, (openNode node).outcome scope session = (.ok (), session.opening node) :=
      fun _ => rfl
    have hopening : (session.opening node).EndsAlike a b := ⟨hs.stack.push hnode, hs.shelf⟩
    refine outcome_bind_congr (by rw [hopen, hopen]) fun _ later hrun => ?_
    rw [hopen] at hrun
    cases hrun
    refine outcome_bind_congr ?_ fun reached later _ => ?_
    · rw [outcome_attempt, outcome_attempt, hb.same info _ hopening]
    · refine outcome_bind_congr (outcome_closeNode _ _ _) fun closed later _ => ?_
      refine outcome_bind_congr ?_ fun covered later _ => ?_
      · rw [outcome_orFail, outcome_orFail]
      · cases reached <;> rfl
  kept info session last covered hs hrun := by
    have hopening : (session.opening node).EndsAlike a b := ⟨hs.stack.push hnode, hs.shelf⟩
    obtain ⟨later, closed, hbody, hopened, hroot, hshelf, -, -, hcover⟩ := ok_of_within hrun
    obtain ⟨hlater, houtline, -⟩ := hb.kept info _ later () hopening hbody
    rw [Stack.outline, hopened] at houtline
    -- The outline tells the span of each open node, so the node that is closed still has the span
    -- with which it was opened.
    obtain ⟨hclosed, houter⟩ := List.cons.inj houtline
    obtain ⟨-, hspan⟩ := Prod.mk.inj hclosed
    have hopened' := hlater.stack.opened
    rw [hopened] at hopened'
    obtain ⟨hchildren, houtside⟩ := List.forall_mem_cons.1 hopened'
    refine ⟨⟨⟨hroot ▸ hlater.stack.root, houtside⟩, hshelf ▸ hlater.shelf⟩, houter, ?_⟩
    have hlast : a.Alike b node.last → a.Alike b covered.last := by
      intro hlast
      have hsame : closed.last = node.last := congrArg Span.last hspan
      exact Node.alike_cover hcover hchildren (hsame ▸ hlast)
    obtain ⟨span, rfl⟩ := Node.eq_of_cover hcover
    exact ⟨hchildren, hlast⟩

/-- A node that was whole and whose body attaches nodes that end alike is whole when it is
closed. -/
theorem within {node : Node} {body : Recover Unit} (hnode : node.Whole a b)
    (hb : Passes a b body) : Overlooks a b (within node body) (Node.Whole a b) :=
  (within_children hnode.children hb).mono fun _ ⟨hchildren, hlast⟩ => ⟨hlast hnode.last, hchildren⟩

/-- As for `within`, with the node attached. -/
theorem enter {node : Node} {body : Recover Unit} (hnode : node.Whole a b) (hb : Passes a b body) :
    Passes a b (enter node body) :=
  (within hnode hb).bind fun _ hclosed => attach hclosed.endsAlike

/-! ## Missing tokens -/

/-- No token may be missed, so the recovery goes on with what has been located. -/
theorem settle (found : Except Missing α) (fallback : α) :
    Overlooks a b (settle found fallback) fun value => found = .ok value := by
  cases found with
  | ok value => exact pure rfl
  | error missing => exact ⟨fun _ _ _ => rfl, fun _ _ _ _ _ hrun => by cases hrun⟩

/-- Since no token may be missed, something has been located. -/
theorem settle? (found : Except Missing α) :
    Overlooks a b (settle? found) fun value => ∃ located, value = some located ∧
      found = .ok located := by
  cases found with
  | ok value => exact pure ⟨value, rfl, rfl⟩
  | error missing => exact ⟨fun _ _ _ => rfl, fun _ _ _ _ _ hrun => by cases hrun⟩

/-- Of most symbols nothing needs to be known. -/
theorem symbol (token : Token) (start : Nat) : Passes a b (Recover.symbolAt token start) :=
  (spanBetween _ _).bind fun _ _ => (intern _).andThen (pure trivial)

/-- The texts have to agree on the first and on the last byte of the token. -/
theorem symbolAt {token : Token} {start : Nat} (h : (token.at start).Alike a b) :
    Overlooks a b (symbolAt token start) (Symbol.Alike a b) := by
  refine (spanBetween _ _).bind fun span hspan => (intern _).andThen (pure ?_)
  rw [hspan]
  exact h

/-! ## Steps that read the text -/

section Twins

variable (twins : a.Twins b)
include twins

/-- Which ranges can be made into spans depends on the length of the text only. -/
theorem rangeSpan (start finish : Nat) :
    Overlooks a b (rangeSpan start finish) fun span =>
      start ≤ finish ∧ span = .ofBounds start finish := by
  refine source (by rw [twins.rangeSpan_eq]) ((orFail _).mono fun span hspan => ?_)
  rw [Source.rangeSpan] at hspan
  split at hspan
  · next hrange =>
    cases hspan
    simp only [Bool.and_eq_true, decide_eq_true_eq] at hrange
    exact ⟨hrange.1.1.1, rfl⟩
  · cases hspan

/-- The span between two offsets ends alike if the texts agree there. -/
theorem spanOf {start finish : Nat} (hstart : a.Alike b start) (hfinish : a.AlikeBefore b finish) :
    Overlooks a b (Recover.rangeSpan start finish) fun span => a.Alike b span.last :=
  (rangeSpan twins _ _).mono fun _ hspan => hspan.2 ▸ Source.alike_ofBounds hstart hfinish

/-- The span of a range that begins and ends in code. -/
theorem spanIn {range : Range} (h : range.InCode a) :
    Overlooks a b (Recover.rangeSpan range.start range.finish) fun span => a.Alike b span.last :=
  spanOf twins (twins.alike h.start) (twins.alikeBefore h.finish)

/-- A name ends with its range, where the texts have to agree. -/
theorem identifier {start finish : Nat} (name : String) (hstart : a.Alike b start)
    (hfinish : a.AlikeBefore b finish) :
    Overlooks a b (identifier start finish name) (Node.EndsAlike a b) :=
  (spanOf twins hstart hfinish).bind fun _ hspan =>
    (intern name).andThen (pure (Node.endsAlike_leaf hspan))

/-- The node of an identifier at its own range. -/
theorem name {name : Ident} (h : name.range.InCode a) :
    Overlooks a b (Recover.identifier name.range.start name.range.finish name.name)
      (Node.EndsAlike a b) :=
  identifier twins name.name (twins.alike h.start) (twins.alikeBefore h.finish)

/-- The texts have to agree on the byte in front of the end. -/
theorem endsWithSemicolon {finish : Nat} (h : a.AlikeBefore b finish) :
    Passes a b (endsWithSemicolon finish) :=
  source (by rw [twins.endsWithSemicolon_eq h]) (pure trivial)

/-- This is where it matters on which byte a node ends. -/
theorem terminates {node : Node} {finish : Nat} (hnode : a.Alike b node.last)
    (h : a.CodeBefore finish) : Passes a b (terminates node finish) :=
  endsWithSemicolon twins ((twins.alikeBefore h).max (.succ hnode))

/-! ### Symbols -/

/-- The texts have to agree on the whole of the symbol, which is cut out of them. -/
theorem symbolOver (kind : TokenKind) {span : Span}
    (h : ∀ offset, span.start ≤ offset → offset ≤ span.last → a.Alike b offset) :
    Passes a b (symbolOver kind span) := by
  have hslice := twins.slice_eq fun offset hstart hlast => h offset hstart (Nat.le_of_lt_succ hlast)
  exact source (by rw [hslice]) ((intern _).andThen (pure trivial))

/-- What is found is outside of comments in both texts. -/
theorem find {token : Token} (htoken : token.Searchable) (context : String) (start finish : Nat) :
    Overlooks a b (find token context start finish) (Symbol.Alike a b) := by
  have hsame := twins.locate_eq htoken.2 context start finish
  refine source (by rw [hsame]) ((settle _ _).bind fun offset hfound => symbolAt ?_)
  exact Source.alike_of_locates (Source.locates_locate htoken.1)
    (hsame ▸ Source.locates_locate htoken.1) hfound

/-- As for `find`, from the other end of the window. -/
theorem findLast {token : Token} (htoken : token.Searchable) (context : String)
    (start finish : Nat) :
    Overlooks a b (findLast token context start finish) (Symbol.Alike a b) := by
  have hsame := twins.locateLast_eq htoken.2 context start finish
  refine source (by rw [hsame]) ((settle _ _).bind fun offset hfound => symbolAt ?_)
  exact Source.alike_of_locates (Source.locates_locateLast htoken.1)
    (hsame ▸ Source.locates_locateLast htoken.1) hfound

/-- A word has to be clear, since the bytes around it are looked at too. -/
theorem findWord {word : String} (hword : Clear word) (context : String) (start finish : Nat) :
    Overlooks a b (findWord word context start finish) (Symbol.Alike a b) := by
  have hsame := twins.locateWord_eq hword context start finish
  refine source (by rw [hsame]) ((settle _ _).bind fun offset hfound => symbolAt ?_)
  exact Source.alike_of_locates (Source.locates_locateWord hword.1)
    (hsame ▸ Source.locates_locateWord hword.1) hfound

/-- The word is there, since it must not be missed. -/
theorem findLastWord? {word : String} (hword : Clear word) (context : String)
    (start finish : Nat) :
    Overlooks a b (findLastWord? word context start finish)
      fun found => ∃ symbol, found = some symbol ∧ symbol.Alike a b := by
  have hsame := twins.locateLastWord_eq hword context start finish
  refine source (by rw [hsame]) ((settle? _).bind fun located hlocated => ?_)
  obtain ⟨offset, rfl, hfound⟩ := hlocated
  refine (symbolAt ?_).bind fun symbol hsymbol => pure ⟨symbol, rfl, hsymbol⟩
  exact Source.alike_of_locates (Source.locates_locateLastWord hword.1)
    (hsame ▸ Source.locates_locateLastWord hword.1) hfound

/-- The offset at which the token is expected must be in code. -/
theorem findAtOrAfter {token : Token} (htoken : token.Searchable) (context : String)
    {offset : Nat} (hcode : a.inComment offset = false) (finish : Nat) :
    Overlooks a b (findAtOrAfter token context offset finish) (Symbol.Alike a b) := by
  have hsame := twins.slice_beq (twins.startsAt_eq hcode htoken.2)
  refine source (by rw [Token.length, hsame]) ?_
  split
  · next hread =>
    have hread' :
        (b.slice offset (offset + token.length) == some token.text) = true := hsame ▸ hread
    refine symbolAt (Source.alike_of_spells ?_ ?_)
    · exact Source.spells_of_slice htoken.1 (eq_of_beq hread)
    · exact Source.spells_of_slice htoken.1 (eq_of_beq hread')
  · exact find twins htoken context offset finish

/-- The byte in which the token is expected to end must be in code. -/
theorem findEndingAt {token : Token} (htoken : token.Closing) (context : String) (start : Nat)
    {finish : Nat} (hcode : a.CodeBefore finish) :
    Overlooks a b (findEndingAt token context start finish) (Symbol.Alike a b) := by
  have hpos : 0 < token.length := Source.length_pos htoken.1.1
  -- the token is read from its end, which is outside of comments
  have hsame : (token.length ≤ finish && start ≤ finish - token.length &&
      b.slice (finish - token.length) finish == some token.text) =
        (token.length ≤ finish && start ≤ finish - token.length &&
          a.slice (finish - token.length) finish == some token.text) := by
    by_cases hfits : token.length ≤ finish
    · have hfinish : finish - token.length + token.length = finish := Nat.sub_add_cancel hfits
      have hlast :
          a.inComment (finish - token.length + (pattern token.text).length - 1) = false := by
        rw [show finish - token.length + (pattern token.text).length = finish from hfinish]
        exact hcode.resolve_left (by omega)
      have hslice : (a.slice (finish - token.length) (finish - token.length + token.length) ==
            some token.text) =
          (b.slice (finish - token.length) (finish - token.length + token.length) ==
            some token.text) :=
        twins.slice_beq (twins.startsAt_eq_of_last hlast htoken.1.slash htoken.2)
      rw [hfinish] at hslice
      rw [hslice]
    · rw [decide_eq_false hfits, Bool.false_and, Bool.false_and, Bool.false_and]
  refine source (by simp only [hsame]) ?_
  split
  · next hread =>
    have hread' := hsame.trans hread
    simp only [Bool.and_eq_true, decide_eq_true_eq] at hread hread'
    have hfinish : finish - token.length + token.length = finish := Nat.sub_add_cancel hread.1.1
    refine symbolAt (Source.alike_of_spells ?_ ?_)
    · exact Source.spells_of_slice htoken.1.1 (by rw [hfinish]; exact eq_of_beq hread.2)
    · exact Source.spells_of_slice htoken.1.1 (by rw [hfinish]; exact eq_of_beq hread'.2)
  · exact findLast twins (Token.searchable_of_clear htoken.1) context start finish

end Twins

end Overlooks

end Recover

end Concretion
