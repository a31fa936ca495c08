import Concretion.Proofs.Growth

/-!
# Changes to the children of a node

The children of the innermost open node can be reordered, replaced and wrapped. Such a change is
made as a whole or not at all: it says beforehand on which stacks it can be made, and a stack on
which it cannot be made is left as it is. The same is true of closing a node, and of a node that is
opened for a computation that attaches nodes and then fails.

- `Recover.AllOrNothing`: a computation that succeeds on the stacks on which it is allowed, and that
  has changed nothing when it fails.
- `Recover.OnlyAttaches`: a computation that does no more to the stack than attach nodes, whether it
  succeeds or fails. Such computations may be put one behind the other, and opened nodes may be
  among them.
-/

namespace Concretion

/-! ## Changes as computations -/

namespace Recover

variable {α β : Type}

/-- The computation succeeds on the stacks on which it is allowed. The stack that it leaves then is
as described, and so is what it yields. On all other stacks it fails and leaves them as they are. -/
def AllOrNothing (action : Recover α) (allowed : Stack → Prop)
    (done : Stack → α → Stack → Prop) : Prop :=
  ∀ (scope : Scope) (session : Session), match action.outcome scope session with
    | (.ok value, later) => allowed session.stack ∧ done session.stack value later.stack
    | (.error _, later) => ¬allowed session.stack ∧ later.stack = session.stack

/-- A change that is refused has not been begun, and one that is made is all that is done to the
stack. -/
theorem AllOrNothing.of_change {change : Stack → Except Failure β} {next : β → Recover α}
    {result : β → α} {left : β → Stack} {allowed : Stack → Prop} {done : Stack → α → Stack → Prop}
    (hnext : ∀ made scope session, ∃ later,
      (next made).outcome scope session = (.ok (result made), later) ∧ later.stack = left made)
    (h : ∀ stack, match change stack with
      | .ok made => allowed stack ∧ done stack (result made) (left made)
      | .error _ => ¬allowed stack) :
    AllOrNothing (do
      let made ← orFail (change (← getStack))
      next made) allowed done := by
  intro scope session
  have hstack := h session.stack
  rw [outcome_bind_ok (outcome_getStack scope session)]
  cases hchange : change session.stack with
  | error failure =>
    rw [hchange] at hstack
    rw [outcome_bind_error (outcome_orFail _ scope session)]
    exact ⟨hstack, rfl⟩
  | ok made =>
    rw [hchange] at hstack
    obtain ⟨later, hrun, hleft⟩ := hnext made scope session
    rw [outcome_bind_ok (outcome_orFail _ scope session), hrun]
    exact ⟨hstack.1, hleft ▸ hstack.2⟩

/-- The children are put in another order by the permutations of their places. -/
theorem allOrNothing_reorder (permutation : List Nat) :
    AllOrNothing (reorder permutation)
      (fun stack => permutation.Perm (List.range stack.children.length))
      fun before _ after => ∃ nodes : List Node, after = before.setChildren nodes ∧
        nodes.Perm before.children ∧
        ∀ place : Nat, nodes[place]? = permutation[place]?.bind (before.children[·]?) := by
  refine .of_change (fun _ _ _ => ⟨_, rfl, rfl⟩) fun stack => ?_
  rw [Stack.reorder_eq]
  by_cases h : Stack.isPermutation permutation stack.children.length = true
  · rw [if_pos h]
    have hbound := (Stack.isPermutation_iff.1 h).2.1
    exact ⟨Stack.isPermutation_iff_perm.1 h, _, rfl, Stack.perm_of_isPermutation h,
      Stack.getElem?_permuted hbound⟩
  · rw [if_neg h]
    exact fun hperm => h (Stack.isPermutation_iff_perm.2 hperm)

/-- A child can be replaced if it is there. -/
theorem allOrNothing_replaceChild (index : Nat) (node : Node) :
    AllOrNothing (replaceChild index node) (fun stack => index < stack.children.length)
      fun before old after => before.children[index]? = some old ∧
        after = before.setChildren (before.children.set index node) := by
  refine .of_change (fun _ _ _ => ⟨_, rfl, rfl⟩) fun stack => ?_
  cases hchild : stack.children[index]? with
  | some old =>
    rw [Stack.replaceChild_eq hchild]
    exact ⟨(List.getElem?_eq_some_iff.1 hchild).1, rfl, rfl⟩
  | none =>
    have hreplace : stack.current.replaceChild? index node = none :=
      Option.map_eq_none_iff.2 hchild
    rw [Stack.replaceChild, hreplace]
    exact Nat.not_lt.2 (List.getElem?_eq_none_iff.1 hchild)

/-- A child can be wrapped if it is there. -/
theorem allOrNothing_wrapChild (index : Nat) (wrapper : Node) :
    AllOrNothing (wrapChild index wrapper) (fun stack => index < stack.children.length)
      fun before _ after => ∃ child, before.children[index]? = some child ∧
        after = before.setChildren (before.children.set index (wrapper.addChild child)) := by
  refine .of_change (fun _ _ _ => ⟨_, rfl, rfl⟩) fun stack => ?_
  cases hchild : stack.children[index]? with
  | some child =>
    rw [Stack.wrapChild_eq hchild]
    exact ⟨(List.getElem?_eq_some_iff.1 hchild).1, child, rfl, rfl⟩
  | none =>
    have hremove : stack.current.removeChild? index = none := Option.map_eq_none_iff.2 hchild
    rw [Stack.wrapChild, hremove]
    exact Nat.not_lt.2 (List.getElem?_eq_none_iff.1 hchild)

/-- The last child can be put in a group if there is a child. -/
theorem allOrNothing_groupLastChild :
    AllOrNothing groupLastChild (fun stack => stack.children ≠ [])
      fun before _ after => ∃ others child, before.children = others ++ [child] ∧
        after = before.setChildren (others ++ [.branch .group child.span [child]]) := by
  refine .of_change (fun _ _ _ => ⟨_, rfl, rfl⟩) fun stack => ?_
  cases hlast : stack.lastChild? with
  | some child =>
    obtain ⟨others, hchildren⟩ := List.getLast?_eq_some_iff.1 hlast
    rw [Stack.groupLastChild_eq hchildren]
    exact ⟨fun hnil => List.concat_ne_nil child others (hchildren.symm.trans hnil),
      others, child, hchildren, rfl⟩
  | none =>
    rw [Stack.groupLastChild, hlast]
    exact fun h => h (List.getLast?_eq_none_iff.1 hlast)

/-- A node can be closed if one is open above the root. -/
theorem allOrNothing_closeNode :
    AllOrNothing closeNode (fun stack => stack.opened ≠ [])
      fun before closed after => before = after.push closed := by
  refine .of_change (fun _ _ _ => ⟨_, rfl, rfl⟩) fun stack => ?_
  obtain ⟨root, _ | ⟨inner, outer⟩⟩ := stack
  · exact fun h => h rfl
  · exact ⟨List.cons_ne_nil _ _, rfl⟩

/-! ## Open nodes -/

/-- Nodes are attached to the innermost open node, and nothing else is done to the stack. -/
def OnlyAttaches (action : Recover α) : Prop :=
  ∀ (scope : Scope) (session : Session), ∃ nodes,
    (action.outcome scope session).2.stack = session.stack.attachAll nodes

namespace OnlyAttaches

theorem throw (failure : Failure) : OnlyAttaches (throw failure : Recover α) :=
  fun _ _ => ⟨[], rfl⟩

theorem attach (node : Node) : OnlyAttaches (attach node) := fun _ _ => ⟨[node], rfl⟩

theorem bind {action : Recover α} {next : α → Recover β} (h : OnlyAttaches action)
    (hn : ∀ value, OnlyAttaches (next value)) : OnlyAttaches (action >>= next) := by
  intro scope session
  obtain ⟨nodes, hnodes⟩ := h scope session
  rcases hrun : action.outcome scope session with ⟨failure | value, later⟩ <;> rw [hrun] at hnodes
  · rw [outcome_bind_error hrun]
    exact ⟨nodes, hnodes⟩
  · rw [outcome_bind_ok hrun]
    obtain ⟨further, hfurther⟩ := hn value scope later
    exact ⟨nodes ++ further, by rw [hfurther, hnodes, Stack.attachAll_append]⟩

variable {body : Recover Unit}

/-- What is attached to a node that is opened goes away with it, and a failure goes on. -/
theorem outcome_within (h : OnlyAttaches body) (node : Node) (scope : Scope) (session : Session) :
    match (within node body).outcome scope session with
    | (.ok _, later) => (body.outcome scope (session.opening node)).1 = .ok () ∧
        later.stack = session.stack
    | (.error _, later) => later.stack = session.stack := by
  obtain ⟨nodes, hnodes⟩ := h scope (session.opening node)
  rcases hrun : body.outcome scope (session.opening node) with ⟨reached, later⟩
  rw [hrun] at hnodes
  rw [Recover.outcome_within hrun (hnodes.trans (Stack.push_attachAll _ _ _))]
  generalize Node.cover _ = covered
  cases covered <;> cases reached <;> first | exact ⟨rfl, rfl⟩ | rfl

/-- The node that was opened is attached in the end, unless there was a failure. -/
theorem outcome_enter (h : OnlyAttaches body) (node : Node) (scope : Scope) (session : Session) :
    match (enter node body).outcome scope session with
    | (.ok _, later) => (body.outcome scope (session.opening node)).1 = .ok () ∧
        ∃ made, later.stack = session.stack.attach made
    | (.error _, later) => later.stack = session.stack := by
  have hwithin := h.outcome_within node scope session
  rw [enter]
  rcases hrun : (within node body).outcome scope session with ⟨failure | made, later⟩ <;>
    rw [hrun] at hwithin
  · rw [outcome_bind_error hrun]
    exact hwithin
  · rw [outcome_bind_ok hrun]
    exact ⟨hwithin.1, made, congrArg (Stack.attach · made) hwithin.2⟩

/-- Nodes may be opened in between. -/
theorem enter (h : OnlyAttaches body) (node : Node) : OnlyAttaches (enter node body) := by
  intro scope session
  have henter := h.outcome_enter node scope session
  rcases hrun : (Recover.enter node body).outcome scope session with ⟨failure | _, later⟩ <;>
    rw [hrun] at henter
  · exact ⟨[], henter⟩
  · obtain ⟨-, made, hmade⟩ := henter
    exact ⟨[made], hmade⟩

end OnlyAttaches

/-! ## All changes -/

/-- Changes to the children of the innermost open node are made as a whole or not at all, and no
child is lost. Closing a node, and opening one for a computation that attaches nodes and fails, also
leave the stack as it was if they fail. Nothing is asked of the stack. -/
theorem changes_are_all_or_nothing :
    (∀ permutation : List Nat, AllOrNothing (reorder permutation)
      (fun stack => permutation.Perm (List.range stack.children.length))
      fun before _ after => ∃ nodes : List Node, after = before.setChildren nodes ∧
        nodes.Perm before.children ∧
        ∀ place : Nat, nodes[place]? = permutation[place]?.bind (before.children[·]?)) ∧
    (∀ (index : Nat) (node : Node), AllOrNothing (replaceChild index node)
      (fun stack => index < stack.children.length)
      fun before old after => before.children[index]? = some old ∧
        after = before.setChildren (before.children.set index node)) ∧
    (∀ (index : Nat) (wrapper : Node), AllOrNothing (wrapChild index wrapper)
      (fun stack => index < stack.children.length)
      fun before _ after => ∃ child, before.children[index]? = some child ∧
        after = before.setChildren (before.children.set index (wrapper.addChild child))) ∧
    (AllOrNothing groupLastChild (fun stack => stack.children ≠ [])
      fun before _ after => ∃ others child, before.children = others ++ [child] ∧
        after = before.setChildren (others ++ [.branch .group child.span [child]])) ∧
    (AllOrNothing closeNode (fun stack => stack.opened ≠ [])
      fun before closed after => before = after.push closed) ∧
    ∀ (node : Node) (body : Recover Unit), OnlyAttaches body →
      ∀ (scope : Scope) (session : Session),
        (match (within node body).outcome scope session with
          | (.ok _, later) => (body.outcome scope (session.opening node)).1 = .ok () ∧
              later.stack = session.stack
          | (.error _, later) => later.stack = session.stack) ∧
        match (enter node body).outcome scope session with
        | (.ok _, later) => (body.outcome scope (session.opening node)).1 = .ok () ∧
            ∃ made, later.stack = session.stack.attach made
        | (.error _, later) => later.stack = session.stack :=
  ⟨allOrNothing_reorder, allOrNothing_replaceChild, allOrNothing_wrapChild,
    allOrNothing_groupLastChild, allOrNothing_closeNode, fun node _ h scope session =>
      ⟨h.outcome_within node scope session, h.outcome_enter node scope session⟩⟩

/-- A group of three in the root. -/
def openGroup : Stack :=
  ⟨.leaf .root ⟨0, 9⟩,
    [.branch .group ⟨0, 9⟩ [.leaf .invoke ⟨0, 2⟩, .empty 3, .leaf .invoke ⟨4, 9⟩]]⟩

/-- The last child can be put first. Where a place is named twice nothing is done, and a node that
is opened is gone when the computation in it fails. -/
theorem changes_of_openGroup :
    let scope := Scope.of "" none .unforgiving
    let session : Session := { Session.start scope.source with stack := openGroup }
    let body : Recover Unit := do
      attach (.empty 6)
      throw (.shape "Empty" .noOperand none)
    OnlyAttaches body ∧
      ((reorder [2, 0, 1]).outcome scope session).2.stack.children =
        [.leaf .invoke ⟨4, 9⟩, .leaf .invoke ⟨0, 2⟩, .empty 3] ∧
      ((reorder [2, 0, 2]).outcome scope session).2.stack = openGroup ∧
      ((enter (.empty 5) body).outcome scope session).2.stack = openGroup := by
  intro scope session body
  have hbody : OnlyAttaches body := .bind (.attach _) fun _ => .throw _
  obtain ⟨hreorder, -, -, -, -, hopened⟩ := changes_are_all_or_nothing
  have hrefused := hreorder [2, 0, 2] scope session
  have hfailed := hopened (.empty 5) body hbody scope session
  exact ⟨hbody, rfl, hrefused.2, hfailed.2⟩

end Recover

end Concretion
