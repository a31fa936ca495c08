import Concretion.Proofs.Growth
import Concretion.Proofs.Nesting

/-!
# Nodes in their places

A construct stands in a place, a range of the text. If it is well-formed, then its recovery attaches
nodes to the innermost open node that all lie in this place. To say so about a construct one has to
know it of its parts only, and where its tokens are looked for.

- `Span.LiesIn`, `Range.Inside`: spans and ranges in a place.
- `Lands`: which stack a run leaves behind that succeeds.
- `Fills`: computations that attach nodes in a place, and do nothing else.
- `Fills.enter`, `Fills.andThen`, `Fills.forM`: open nodes and sequences.
-/

namespace Concretion

/-! ## Spans in a place -/

/-- The span begins and ends in the range. -/
structure Span.LiesIn (span : Span) (place : Range) : Prop where
  start : place.start ≤ span.start
  ordered : span.start ≤ span.last
  last : span.last < place.finish

/-- The range is a stretch of the place, and not empty. -/
structure Range.Inside (range place : Range) : Prop where
  start : place.start ≤ range.start
  nonempty : range.start < range.finish
  finish : range.finish ≤ place.finish

namespace Span.LiesIn

variable {a b span : Span} {place : Range}

theorem merge (ha : a.LiesIn place) (hb : b.LiesIn place) (h : a.merge b = .ok span) :
    span.LiesIn place := by
  obtain ⟨hordered, rfl⟩ := Span.make_eq_ok_iff.1 h
  refine ⟨?_, hordered, ?_⟩
  · exact Nat.le_min.2 ⟨ha.start, hb.start⟩
  · exact Nat.max_lt.2 ⟨ha.last, hb.last⟩

/-- A range that begins in a place lies there if it ends there. -/
theorem ofBounds {start finish : Nat} (hstart : place.start ≤ start) (hlt : start < place.finish)
    (hfinish : finish ≤ place.finish) : (Span.ofBounds start finish).LiesIn place where
  start := hstart
  ordered := Span.ordered_ofBounds start finish
  last := by
    simp only [Span.ofBounds]
    omega

theorem point {offset : Nat} (hstart : place.start ≤ offset) (hlt : offset < place.finish) :
    (Span.point offset).LiesIn place :=
  ⟨hstart, Nat.le_refl _, hlt⟩

end Span.LiesIn

theorem Range.Inside.liesIn {range place : Range} (h : range.Inside place) :
    (Span.ofBounds range.start range.finish).LiesIn place :=
  .ofBounds h.start (Nat.lt_of_lt_of_le h.nonempty h.finish) h.finish

/-- A place in which something is written is not empty. -/
theorem Range.Inside.lt {range place : Range} (h : range.Inside place) :
    place.start < place.finish :=
  Nat.lt_of_le_of_lt h.start (Nat.lt_of_lt_of_le h.nonempty h.finish)

theorem Source.eq_of_rangeSpan {source : Source} {start finish : Nat} {span : Span}
    (h : source.rangeSpan start finish = .ok span) : span = Span.ofBounds start finish := by
  rw [Source.rangeSpan] at h
  split at h
  · exact (Except.ok.inj h).symm
  · cases h

/-- A node that is made to cover children in its place is still in its place, and begins no later
than it did. -/
theorem Node.liesIn_of_cover {kind : NodeKind} {span : Span} {nodes : List Node} {made : Node}
    {place : Range} (h : (branch kind span nodes).cover = .ok made) (hspan : span.LiesIn place)
    (hnodes : ∀ node ∈ nodes, node.span.LiesIn place) :
    made.kind = kind ∧ made.children = nodes ∧ made.span.LiesIn place ∧
      made.start ≤ span.start := by
  have hlies : made.span.LiesIn place :=
    cover_induction (p := (·.LiesIn place)) (fun hmerge ha hb => ha.merge hb hmerge) h hspan
      hnodes
  have hle : made.start ≤ span.start := (Span.contains_iff.1 (contains_of_cover h).1).1
  obtain ⟨_, rfl⟩ := eq_of_cover h
  exact ⟨rfl, rfl, hlies, hle⟩

/-! ## Stacks -/

namespace Stack

variable {stack : Stack} {nodes : List Node} {place : Range}

theorem attachAll_push (stack : Stack) (kind : NodeKind) (span : Span) (nodes : List Node) :
    (stack.push (.leaf kind span)).attachAll nodes = stack.push (.branch kind span nodes) :=
  stack.push_attachAll (.leaf kind span) nodes

/-- Behind a node in a place the gap begins in that place or right behind it. -/
theorem gapStart_attach {node : Node} (hnode : node.span.LiesIn place) :
    place.start ≤ (stack.attach node).gapStart ∧ (stack.attach node).gapStart ≤ place.finish := by
  have hstart := hnode.start
  have hordered := hnode.ordered
  have hlast := hnode.last
  rw [gapStart, lastChild?_attach]
  dsimp only [Node.last]
  split <;> omega

theorem le_gapStart_attachAll (h : place.start ≤ stack.gapStart)
    (hnodes : ∀ node ∈ nodes, node.span.LiesIn place) :
    place.start ≤ (stack.attachAll nodes).gapStart := by
  -- only the last node counts: behind it the gap begins anew
  rcases nodes.eq_nil_or_concat with rfl | ⟨front, last, rfl⟩
  · exact h
  · rw [List.concat_eq_append, attachAll_append]
    refine (gapStart_attach (hnodes last ?_)).1
    rw [List.concat_eq_append]
    exact List.mem_append_right _ List.mem_cons_self

end Stack

namespace Recover

variable {α β : Type} {scope : Scope} {before : Stack}

/-! ## Where a run comes to -/

/-- Which stack is left behind by a run of the computation that begins on the given stack, provided
that the run succeeds. No name is to be skipped before the run nor behind it. -/
def Lands (scope : Scope) (before : Stack) (action : Recover α) (result : α → Stack → Prop) :
    Prop :=
  ∀ session : Session, session.stack = before → session.skipsName = false →
    ∀ value later, action.outcome scope session = (.ok value, later) →
      later.skipsName = false ∧ result value later.stack

namespace Lands

variable {action : Recover α} {result : α → Stack → Prop}

theorem mono {weaker : α → Stack → Prop} (h : Lands scope before action result)
    (hw : ∀ value after, result value after → weaker value after) :
    Lands scope before action weaker := by
  intro session hstack hskips value later hrun
  obtain ⟨hskips', hresult⟩ := h session hstack hskips value later hrun
  exact ⟨hskips', hw value later.stack hresult⟩

theorem pure {value : α} (h : result value before) :
    Lands scope before (Pure.pure value) result := by
  intro session hstack hskips _ _ hrun
  cases hrun
  exact ⟨hskips, hstack ▸ h⟩

theorem bind {next : α → Recover β} {last : β → Stack → Prop}
    (h : Lands scope before action result)
    (hn : ∀ value between, result value between → Lands scope between (next value) last) :
    Lands scope before (action >>= next) last := by
  intro session hstack hskips value later hrun
  obtain ⟨found, between, hfirst, hsecond⟩ := ok_of_bind hrun
  obtain ⟨hskips', hresult⟩ := h session hstack hskips found between hfirst
  exact hn found between.stack hresult between rfl hskips' value later hsecond

theorem attach {node : Node} {result : Unit → Stack → Prop} (h : result () (before.attach node)) :
    Lands scope before (attach node) result := by
  intro session hstack hskips _ _ hrun
  subst hstack
  cases hrun
  exact ⟨hskips, h⟩

/-- A computation that leaves the children alone leaves the whole stack alone. -/
theorem ofLooks {found : α → Prop} (h : Looks scope action found) :
    Lands scope before action fun value after => after = before ∧ found value := by
  intro session hstack hskips value later hrun
  obtain ⟨hgrown, hsame, hfound⟩ := h session.stack.children session rfl hskips value later hrun
  have hafter : later.stack = session.stack := by
    rw [hgrown.stack, hsame, Stack.setChildren_children]
  exact ⟨hgrown.skipsName, hafter.trans hstack, hfound⟩

/-- What comes after a computation that leaves the stack alone. -/
theorem look {found : α → Prop} {next : α → Recover β} {last : β → Stack → Prop}
    (h : Looks scope action found)
    (hn : ∀ value, found value → Lands scope before (next value) last) :
    Lands scope before (action >>= next) last := by
  refine (ofLooks h).bind fun value between ⟨hsame, hfound⟩ => ?_
  rw [hsame]
  exact hn value hfound

theorem gapStart {next : Nat → Recover β} {last : β → Stack → Prop}
    (h : Lands scope before (next before.gapStart) last) :
    Lands scope before (gapStart >>= next) last := by
  intro session hstack hskips value later hrun
  have hgap : Recover.gapStart.outcome scope session = (.ok before.gapStart, session) := by
    rw [← hstack]
    rfl
  rw [outcome_bind_ok hgap] at hrun
  exact h session hstack hskips value later hrun

/-- A node is made to cover what has been attached to it. -/
theorem within {kind : NodeKind} {span : Span} {body : Recover Unit} {given : List Node → Prop}
    (h : Lands scope (before.push (.leaf kind span)) body fun _ after =>
      ∃ nodes, after = (before.push (.leaf kind span)).attachAll nodes ∧ given nodes) :
    Lands scope before (within (.leaf kind span) body) fun made after =>
      after = before ∧ ∃ nodes, (Node.branch kind span nodes).cover = .ok made ∧ given nodes := by
  intro session hstack hskips made last hrun
  obtain ⟨later, closed, hbody, hopened, hroot, -, -, hskip, hcover⟩ := ok_of_within hrun
  have hpushed : (session.opening (.leaf kind span)).stack = before.push (.leaf kind span) :=
    congrArg (Stack.push · (.leaf kind span)) hstack
  obtain ⟨hskips', nodes, hlater, hgiven⟩ := h _ hpushed hskips () later hbody
  rw [Stack.attachAll_push] at hlater
  rw [hlater] at hopened hroot
  obtain ⟨hclosed, houter⟩ := List.cons_eq_cons.1 hopened
  refine ⟨hskip.trans hskips', ?_, nodes, ?_, hgiven⟩
  · exact congrArg₂ Stack.mk hroot houter.symm
  · rw [hclosed]
    exact hcover

end Lands

/-! ## Computations that fill a place -/

/-- The computation attaches nodes that lie in the place, if it succeeds. The gap in front of them
must not begin before the place. -/
def Fills (scope : Scope) (place : Range) (action : Recover Unit) : Prop :=
  ∀ before : Stack, place.start ≤ before.gapStart →
    Lands scope before action fun _ after =>
      ∃ nodes, after = before.attachAll nodes ∧ ∀ node ∈ nodes, node.span.LiesIn place

namespace Fills

variable {place : Range} {action : Recover Unit}

theorem pure : Fills scope place (Pure.pure ()) :=
  fun _ _ => .pure ⟨[], rfl, List.forall_mem_nil _⟩

theorem andThen {next : Recover Unit} (h : Fills scope place action)
    (hn : Fills scope place next) : Fills scope place (action >>= fun _ => next) := by
  intro before hgap
  refine (h before hgap).bind ?_
  rintro _ _ ⟨nodes, rfl, hnodes⟩
  refine (hn _ (Stack.le_gapStart_attachAll hgap hnodes)).mono ?_
  rintro _ _ ⟨others, rfl, hothers⟩
  exact ⟨nodes ++ others, (before.attachAll_append nodes others).symm,
    List.forall_mem_append.2 ⟨hnodes, hothers⟩⟩

theorem look {found : α → Prop} {first : Recover α} {next : α → Recover Unit}
    (h : Looks scope first found) (hn : ∀ value, found value → Fills scope place (next value)) :
    Fills scope place (first >>= next) :=
  fun before hgap => .look h fun value hfound => hn value hfound before hgap

theorem gapStart {next : Nat → Recover Unit}
    (h : ∀ offset, place.start ≤ offset → Fills scope place (next offset)) :
    Fills scope place (Recover.gapStart >>= next) :=
  fun before hgap => .gapStart (h before.gapStart hgap before hgap)

theorem attach {node : Node} (h : node.span.LiesIn place) :
    Fills scope place (Recover.attach node) :=
  fun _ _ => .attach ⟨[node], rfl, List.forall_mem_singleton.2 h⟩

/-- What is prepared aside and then attached. -/
theorem attached {prepared : Recover Node}
    (h : Looks scope prepared fun node => node.span.LiesIn place) :
    Fills scope place (do Recover.attach (← prepared)) :=
  look h fun _ hnode => attach hnode

/-- A node with parts in the place. -/
theorem enter {kind : NodeKind} {span : Span} {body : Recover Unit} (hspan : span.LiesIn place)
    (hbody : Fills scope place body) : Fills scope place (enter (.leaf kind span) body) := by
  intro before _
  have hgap : place.start ≤ (before.push (.leaf kind span)).gapStart := hspan.start
  refine (Lands.within (hbody _ hgap)).bind ?_
  rintro made _ ⟨rfl, nodes, hcover, hnodes⟩
  obtain ⟨-, -, hmade, -⟩ := Node.liesIn_of_cover hcover hspan hnodes
  exact .attach ⟨[made], rfl, List.forall_mem_singleton.2 hmade⟩

theorem forM {γ : Type} {step : γ → Recover Unit} {list : List γ}
    (h : ∀ item ∈ list, Fills scope place (step item)) : Fills scope place (list.forM step) := by
  induction list with
  | nil => exact pure
  | cons item rest ih =>
    obtain ⟨hitem, hrest⟩ := List.forall_mem_cons.1 h
    exact hitem.andThen (ih hrest)

end Fills

end Recover

end Concretion
