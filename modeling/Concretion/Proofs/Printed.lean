import Concretion.Layout.Tree
import Concretion.Proofs.Rendered
import Concretion.Proofs.WellLaid

/-!
# Trees on one line and on several

How wide a text may be, and by how much its lines are indented, is settled when a document is laid
out. All that this changes is what becomes of the gaps in front of children: one space, or a new
line. The gaps of a node become new lines if the node does not fit on one.

- `Node.snippets`: the text of a tree with its gaps, each of which belongs to a node.
- `Node.Chooses`: nodes whose gaps become new lines. With a node its parent is among them.
- `Engine.Breaks`: they are the nodes for which there is no room on one line.
- `Node.exists_chooses`: however the document of a tree is laid out, there are such nodes, and then
  the text is known (`Node.arrangement`).
- `Node.print_eq_arrangement`: the text of a tree for every width and indentation.
-/

namespace Concretion

namespace Layout

/-! ## Texts with gaps -/

/-- A piece that stays as it is, or a gap in front of a child of a node. The node is given by its
path from the root. -/
inductive Snippet where
  | fixed (piece : Piece)
  | gap (owner : List Nat)
  deriving DecidableEq, Repr, Inhabited

namespace Snippet

/-- What belongs to a child belongs to a node below its parent. -/
def below (place : Nat) : Snippet → Snippet
  | fixed piece => .fixed piece
  | gap owner => .gap (place :: owner)

/-- The gaps of the chosen nodes become new lines, and all others a space. `depth` is the depth of
the node from which the paths lead. -/
def piece (indent depth : Nat) (chosen : List Nat → Bool) : Snippet → Piece
  | fixed piece => piece
  | gap owner =>
    .gap none (if chosen owner then some ((depth + owner.length + 1) * indent) else none)

theorem piece_below (indent depth place : Nat) (chosen : List Nat → Bool) (snippet : Snippet) :
    (snippet.below place).piece indent depth chosen =
      snippet.piece indent (depth + 1) fun path => chosen (place :: path) := by
  cases snippet with
  | fixed => rfl
  | gap owner =>
    have hdepth : depth + (owner.length + 1) + 1 = depth + 1 + owner.length + 1 := by omega
    simp only [below, piece, List.length_cons, hdepth]

end Snippet

end Layout

open Layout

namespace Node

mutual

/-- The text of a tree with its gaps. -/
def snippets (config : PrintConfig) : Node → List Snippet
  | ⟨kind, span, children, ownsSemicolon⟩ =>
    .fixed (.text none "(") :: ((headDoc config kind span ownsSemicolon).flat none).map .fixed ++
      childrenSnippets config 0 children ++ [.fixed (.text none ")")]

/-- The text of the children of a node from the given place on, each behind a gap of that node. -/
def childrenSnippets (config : PrintConfig) (place : Nat) : List Node → List Snippet
  | [] => []
  | child :: rest => .gap [] :: (snippets config child).map (·.below place) ++
      childrenSnippets config (place + 1) rest

end

/-- The text of a tree in which the gaps of the chosen nodes are new lines. -/
def arrangement (config : PrintConfig) (node : Node) (chosen : List Nat → Bool) : List Piece :=
  (node.snippets config).map (Snippet.piece config.indent.toNat 0 chosen)

/-- All chosen nodes are in the tree, and with a node all nodes above it are chosen. -/
structure Chooses (node : Node) (chosen : List Nat → Bool) : Prop where
  inside : ∀ path, chosen path = true → (node.at? path).isSome = true
  above : ∀ path further, chosen (path ++ further) = true → chosen path = true

/-- The same for nodes next to each other, with the place of a node in front of its paths. -/
structure ChoosesEach (nodes : List Node) (chosen : Nat → List Nat → Bool) : Prop where
  inside : ∀ index path, chosen index path = true →
    (nodes[index]?.bind (·.at? path)).isSome = true
  above : ∀ index path further, chosen index (path ++ further) = true → chosen index path = true

theorem Chooses.none {node : Node} : node.Chooses fun _ => false where
  inside _ h := by cases h
  above _ _ h := by cases h

theorem ChoosesEach.nil : ChoosesEach [] fun _ _ => false where
  inside _ _ h := by cases h
  above _ _ _ h := by cases h

theorem ChoosesEach.cons {child : Node} {rest : List Node} {first : List Nat → Bool}
    {others : Nat → List Nat → Bool} (hchild : child.Chooses first)
    (hrest : ChoosesEach rest others) :
    ChoosesEach (child :: rest) fun | 0 => first | index + 1 => others index where
  inside
    | 0 => hchild.inside
    | index + 1 => hrest.inside index
  above
    | 0 => hchild.above
    | index + 1 => hrest.above index

/-- Where nodes below a node are chosen, the node has to be chosen as well. -/
theorem ChoosesEach.chooses {children : List Node} {each : Nat → List Nat → Bool}
    (h : ChoosesEach children each) (kind : NodeKind) (span : Span) (ownsSemicolon : Bool) :
    Chooses ⟨kind, span, children, ownsSemicolon⟩
      fun | [] => true | index :: path => each index path where
  inside
    | [] => fun _ => rfl
    | index :: path => h.inside index path
  above
    | [] => fun _ _ => rfl
    | index :: path => h.above index path

/-! ## The document of a tree -/

section Arrangements

variable (config : PrintConfig) (indent depth place : Nat) (chosen : List Nat → Bool)

theorem map_snippets (kind : NodeKind) (span : Span) (children : List Node)
    (ownsSemicolon : Bool) :
    (snippets config ⟨kind, span, children, ownsSemicolon⟩).map
        (Snippet.piece indent depth chosen) =
      .text none "(" :: (headDoc config kind span ownsSemicolon).flat none ++
        (childrenSnippets config 0 children).map (Snippet.piece indent depth chosen) ++
          [.text none ")"] := by
  have hhead : Snippet.piece indent depth chosen ∘ Snippet.fixed = id := rfl
  rw [snippets, List.map_append, List.map_append, List.map_cons, List.map_map, hhead, List.map_id]
  rfl

theorem map_childrenSnippets_cons (child : Node) (rest : List Node) :
    (childrenSnippets config place (child :: rest)).map (Snippet.piece indent depth chosen) =
      Snippet.piece indent depth chosen (.gap []) ::
        (child.snippets config).map
          (Snippet.piece indent (depth + 1) fun path => chosen (place :: path)) ++
        (childrenSnippets config (place + 1) rest).map (Snippet.piece indent depth chosen) := by
  have hbelow : Snippet.piece indent depth chosen ∘ Snippet.below place =
      Snippet.piece indent (depth + 1) fun path => chosen (place :: path) :=
    funext (Snippet.piece_below indent depth place chosen)
  rw [childrenSnippets, List.map_append, List.map_cons, List.map_map, hbelow]

theorem breaks_symbolDoc (symbol : Symbol) : (symbol.doc config).breaks = false := by
  rw [Symbol.doc]
  split <;> rfl

/-- A head has no lines. -/
theorem breaks_headDoc (kind : NodeKind) (span : Span) (ownsSemicolon : Bool) :
    (headDoc config kind span ownsSemicolon).breaks = false := by
  have hsymbols : ∀ (symbols : List Symbol) (head : Doc), head.breaks = false →
      (symbols.foldl (fun head symbol => head ++ .space ++ symbol.doc config) head).breaks =
        false := by
    intro symbols
    induction symbols with
    | nil => exact fun _ hhead => hhead
    | cons symbol rest ih =>
      intro head hhead
      refine ih _ ?_
      rw [Doc.breaks_append, Doc.breaks_append, hhead, breaks_symbolDoc]
      rfl
  have hmarked : ∀ located : Doc, located.breaks = false →
      (if ownsSemicolon then located ++ .space ++ .styled .keyword ";" else located).breaks =
        false := by
    intro located hlocated
    split
    · rw [Doc.breaks_append, Doc.breaks_append, hlocated]
      rfl
    · exact hlocated
  have hlocated : (if config.offsets then Doc.styled (if kind.isPlaceholder then .placeholder
      else .kind) kind.name ++ .space ++ .styled .offset span.text else Doc.styled
        (if kind.isPlaceholder then .placeholder else .kind) kind.name).breaks = false := by
    split <;> rfl
  unfold headDoc
  dsimp only
  split
  · exact hsymbols _ _ (hmarked _ hlocated)
  · exact hmarked _ hlocated

end Arrangements

mutual

/-- On one line each gap is a space. -/
theorem flat_doc (config : PrintConfig) (indent depth : Nat) : (node : Node) →
    (node.doc config).flat none =
      (node.snippets config).map (Snippet.piece indent depth fun _ => false)
  | ⟨kind, span, children, ownsSemicolon⟩ => by
    rw [map_snippets, ← flat_childrenDoc config indent depth 0 children]
    rfl

theorem flat_childrenDoc (config : PrintConfig) (indent depth place : Nat) :
    (nodes : List Node) → (childrenDoc config nodes).flat none =
      (childrenSnippets config place nodes).map (Snippet.piece indent depth fun _ => false)
  | [] => rfl
  | child :: rest => by
    rw [map_childrenSnippets_cons, ← flat_doc config indent (depth + 1) child,
      ← flat_childrenDoc config indent depth (place + 1) rest]
    rfl

end

/-! ## Which nodes are broken -/

/-- How many closing parentheses stand directly behind the node at a path, if all nodes above it are
broken and `behind` of them stand behind the tree. -/
def closers (behind : Nat) : Node → List Nat → Nat
  | _, [] => behind
  | node, index :: path =>
    match node.children[index]? with
    | some child => child.closers (if index + 1 = node.children.length then behind + 1 else 0) path
    | none => 0

end Node

namespace Layout.Engine

/-- The chosen nodes are those for which there is no room on one line. The tree itself is at the
given depth, and `behind` closing parentheses stand behind it. -/
structure Breaks (engine : Engine) (config : PrintConfig) (depth behind : Nat) (node : Node)
    (chosen : List Nat → Bool) : Prop where
  /-- For a chosen node there is no room, with the parentheses that follow directly. -/
  tight : ∀ path below, node.at? path = some below → chosen path = true →
    config.width < (depth + path.length) * config.indent.toNat +
      engine.flatWidth (below.doc config) + node.closers behind path
  /-- A node that stands on a line of its own and is not chosen has room there. -/
  roomy : ∀ path below, node.at? path = some below → chosen path = false →
    (path ≠ [] → chosen path.dropLast = true) →
      (depth + path.length) * config.indent.toNat + engine.flatWidth (below.doc config) ≤
        config.width

/-- The same for nodes next to each other, where `behind` closing parentheses stand behind the last
one and a new line behind all others. -/
def BreaksEach (engine : Engine) (config : PrintConfig) (depth behind : Nat) (nodes : List Node)
    (chosen : Nat → List Nat → Bool) : Prop :=
  ∀ index child, nodes[index]? = some child →
    engine.Breaks config depth (if index + 1 = nodes.length then behind else 0) child (chosen index)

section

variable {engine : Engine} {config : PrintConfig} {depth behind : Nat}

/-- Where a node has room, nothing in it is chosen. -/
theorem Breaks.none {node : Node}
    (h : depth * config.indent.toNat + engine.flatWidth (node.doc config) ≤ config.width) :
    engine.Breaks config depth behind node fun _ => false where
  tight _ _ _ hchosen := by cases hchosen
  roomy path below hbelow _ habove := by
    cases path with
    | nil =>
      cases hbelow
      exact h
    | cons index path => cases habove (List.cons_ne_nil index path)

/-- Where there is no room for a node, it is chosen, and its children are broken on their own. -/
theorem BreaksEach.breaks {kind : NodeKind} {span : Span} {children : List Node}
    {ownsSemicolon : Bool} {each : Nat → List Nat → Bool}
    (h : engine.BreaksEach config (depth + 1) (behind + 1) children each)
    (htight : config.width < depth * config.indent.toNat +
      engine.flatWidth (Node.doc config ⟨kind, span, children, ownsSemicolon⟩) + behind) :
    engine.Breaks config depth behind ⟨kind, span, children, ownsSemicolon⟩
      fun | [] => true | index :: path => each index path where
  tight
    | [], _, hbelow, _ => by
      cases hbelow
      exact htight
    | index :: path, below, hbelow, hchosen => by
      obtain ⟨child, hchild, hpath⟩ := Option.bind_eq_some_iff.1 hbelow
      have hinside := (h index child hchild).tight path below hpath hchosen
      have hdepth : depth + (path.length + 1) = depth + 1 + path.length := by omega
      have hchild : children[index]? = some child := hchild
      simpa only [List.length_cons, hdepth, Node.closers, hchild] using hinside
  roomy
    | [], _, _, hchosen, _ => by cases hchosen
    | index :: path, below, hbelow, hchosen, habove => by
      obtain ⟨child, hchild, hpath⟩ := Option.bind_eq_some_iff.1 hbelow
      have hdepth : depth + (path.length + 1) = depth + 1 + path.length := by omega
      rw [List.length_cons, hdepth]
      refine (h index child hchild).roomy path below hpath hchosen fun hpath => ?_
      obtain ⟨next, further, rfl⟩ := List.exists_cons_of_ne_nil hpath
      exact habove (List.cons_ne_nil _ _)

theorem BreaksEach.nil {each : Nat → List Nat → Bool} :
    engine.BreaksEach config depth behind [] each :=
  fun _ _ h => by cases h

theorem BreaksEach.cons {child : Node} {rest : List Node} {first : List Nat → Bool}
    {others : Nat → List Nat → Bool}
    (hchild : engine.Breaks config depth (if rest = [] then behind else 0) child first)
    (hrest : engine.BreaksEach config depth behind rest others) :
    engine.BreaksEach config depth behind (child :: rest)
      fun | 0 => first | index + 1 => others index
  | 0, _, h => by
    cases h
    simpa [eq_comm] using hchild
  | index + 1, other, h => by
    have hother := hrest index other h
    simpa only [List.length_cons, Nat.add_right_cancel_iff] using hother

/-- What must follow on the line of a node in front of its siblings. -/
theorem trail_childrenDoc (rest : List Node) (docs : List Doc) :
    engine.trail (Node.childrenDoc config rest :: docs) =
      if rest = [] then engine.trail docs else 0 := by
  cases rest with
  | nil => exact Nat.zero_add _
  | cons => rfl

theorem Lawful.measure_paren (h : engine.Lawful) :
    engine.measure "(" = 1 ∧ engine.measure ")" = 1 :=
  ⟨h.measure_ascii "(" (List.forall_mem_singleton.2 (by decide)),
    h.measure_ascii ")" (List.forall_mem_singleton.2 (by decide))⟩

/-- A closing parenthesis takes one column of the line. -/
theorem Lawful.trail_paren (h : engine.Lawful) (docs : List Doc) :
    engine.trail (.text ")" :: docs) = engine.trail docs + 1 := by
  rw [Nat.add_comm, ← h.measure_paren.2]
  rfl

theorem Lawful.flatWidth_ne_zero (h : engine.Lawful) (node : Node) :
    engine.flatWidth (node.doc config) ≠ 0 := by
  obtain ⟨kind, span, children, ownsSemicolon⟩ := node
  rw [flatWidth, Node.doc, Doc.flatWidth, Doc.flatWidth_append, Doc.flatWidth_append,
    Doc.flatWidth_append, Doc.flatWidth, h.measure_paren.1]
  omega

end

end Layout.Engine

namespace Node

mutual

/-- However a tree is laid out, there are nodes whose gaps have become new lines. The induction is
on the tree; where a node is broken it is chosen, and so is what is chosen below its children. -/
theorem exists_chooses {engine : Engine} {config : PrintConfig} (hengine : engine.Lawful)
    (hindent : 0 ≤ config.indent) : (node : Node) →
      ∀ {depth last : Nat} {behind : List (Nat × Doc)} {calls : List Call},
        engine.Lays config.width .broken (depth * config.indent.toNat)
            (depth * config.indent.toNat) behind (node.doc config) calls last →
          ∃ chosen, node.Chooses chosen ∧
            engine.Breaks config depth (engine.trail (behind.map Prod.snd)) node chosen ∧
            Displays [] calls
              ((node.snippets config).map (Snippet.piece config.indent.toNat depth chosen))
  | ⟨kind, span, children, ownsSemicolon⟩, depth, last, behind, calls, hlays => by
    -- A group is printed on one line, or it is broken, and then its children are indented once more
    -- and choose for themselves.
    cases hlays with
    | kept hfits hbody =>
      have hroom := hengine.room_of_fits hfits
        (hengine.flatWidth_ne_zero ⟨kind, span, children, ownsSemicolon⟩)
      refine ⟨fun _ => false, .none, .none hroom, ?_⟩
      rw [← flat_doc config _ depth ⟨kind, span, children, _⟩]
      exact hbody.displays_flat (.inl rfl) []
    | broken hfits hbody =>
      have htight := mt hengine.fits_of_room (Bool.eq_false_iff.1 hfits)
      obtain ⟨_, _, _, hopen, hclose, rfl⟩ := hbody.of_append
      obtain ⟨_, _, _, hhead, hchildren, rfl⟩ := hopen.of_append
      have hclosing := hclose.displays_flat (.inr rfl) []
      have hopening := hhead.displays_flat (.inr (breaks_headDoc config kind span ownsSemicolon)) []
      have hchildren := hchildren.of_nest hindent
      rw [← Nat.succ_mul] at hchildren
      obtain ⟨each, heach, hbreaks, hdisplays⟩ :=
        exists_choosesEach hengine hindent children hchildren
      rw [List.map_cons, hengine.trail_paren] at hbreaks
      refine ⟨_, heach.chooses kind span ownsSemicolon,
        hbreaks.breaks (Nat.lt_of_not_le htight), ?_⟩
      rw [map_snippets]
      exact (hopening.append
        (hdisplays 0 _ rfl fun index path => by rw [Nat.zero_add])).append hclosing

theorem exists_choosesEach {engine : Engine} {config : PrintConfig} (hengine : engine.Lawful)
    (hindent : 0 ≤ config.indent) : (nodes : List Node) →
      ∀ {depth column last : Nat} {behind : List (Nat × Doc)} {calls : List Call},
        engine.Lays config.width .broken ((depth + 1) * config.indent.toNat) column behind
            (childrenDoc config nodes) calls last →
          ∃ each, ChoosesEach nodes each ∧
            engine.BreaksEach config (depth + 1) (engine.trail (behind.map Prod.snd)) nodes each ∧
            ∀ (place : Nat) (chosen : List Nat → Bool), chosen [] = true →
              (∀ index path, chosen ((place + index) :: path) = each index path) →
                Displays [] calls ((childrenSnippets config place nodes).map
                  (Snippet.piece config.indent.toNat depth chosen))
  | [], _, _, _, _, _, .nil => ⟨fun _ _ => false, .nil, .nil, fun _ _ _ _ => .nil⟩
  | child :: rest, depth, column, last, behind, calls, hlays => by
    obtain ⟨_, _, _, hfirst, hrest, rfl⟩ := hlays.of_append
    obtain ⟨_, _, _, hline, hchild, rfl⟩ := hfirst.of_append
    cases hline with
    | newline hnext hwrites =>
      -- the child behind the line is indented as the line is
      obtain rfl : (depth + 1) * config.indent.toNat = _ := hnext.elim Eq.symm Option.some.inj
      obtain ⟨below, hbelow, hbreaks, hdisplays⟩ := exists_chooses hengine hindent child hchild
      obtain ⟨each, heach, hbreaksEach, hdisplaysEach⟩ :=
        exists_choosesEach hengine hindent rest hrest
      rw [List.map_cons, Engine.trail_childrenDoc] at hbreaks
      refine ⟨_, .cons hbelow heach, .cons hbreaks hbreaksEach,
        fun place chosen hroot hchosen => ?_⟩
      have hbelow : (fun path => chosen (place :: path)) = below := funext (hchosen 0)
      have hothers : ∀ index path, chosen ((place + 1 + index) :: path) = each index path := by
        intro index path
        rw [Nat.add_assoc, Nat.add_comm 1]
        exact hchosen (index + 1) path
      have hgap : Snippet.piece config.indent.toNat depth chosen (.gap []) =
          .gap none (some ((depth + 1) * config.indent.toNat)) :=
        congrArg (Piece.gap none) (if_pos hroot)
      have hline : Displays [] _ [Piece.gap none (some ((depth + 1) * config.indent.toNat))] :=
        .writes rfl hwrites
      rw [map_childrenSnippets_cons, hbelow, hgap]
      exact (hline.append hdisplays).append
        (hdisplaysEach (place + 1) chosen hroot hothers)

end

/-! ## Trees as they are printed -/

section

variable (config : PrintConfig)

mutual

/-- With its new lines joined again, each arrangement is the text on one line. -/
theorem joined_snippets (indent depth : Nat) (chosen : List Nat → Bool) : (node : Node) →
    ((node.snippets config).map (Snippet.piece indent depth chosen)).map Piece.joined =
      (node.doc config).flat none
  | ⟨kind, span, children, ownsSemicolon⟩ => by
    rw [map_snippets, List.map_append, List.map_append, List.map_cons, Doc.joined_flat,
      joined_childrenSnippets indent depth 0 chosen children]
    rfl

theorem joined_childrenSnippets (indent depth place : Nat) (chosen : List Nat → Bool) :
    (nodes : List Node) →
      ((childrenSnippets config place nodes).map
          (Snippet.piece indent depth chosen)).map Piece.joined =
        (childrenDoc config nodes).flat none
  | [] => rfl
  | child :: rest => by
    have hgap : (Snippet.piece indent depth chosen (.gap [])).joined = .gap none none := rfl
    rw [map_childrenSnippets_cons, List.map_append, List.map_cons, hgap,
      joined_snippets indent (depth + 1) _ child,
      joined_childrenSnippets indent depth (place + 1) chosen rest]
    rfl

end

mutual

/-- The gaps are at the same places for every width and indentation. -/
theorem snippets_with (width : Nat) (indent : Int) : (node : Node) →
    node.snippets { config with width := width, indent := indent } = node.snippets config
  | ⟨_, _, children, _⟩ => by
    rw [snippets, snippets, childrenSnippets_with width indent 0 children]
    rfl

theorem childrenSnippets_with (width : Nat) (indent : Int) (place : Nat) :
    (nodes : List Node) →
      childrenSnippets { config with width := width, indent := indent } place nodes =
        childrenSnippets config place nodes
  | [] => rfl
  | child :: rest => by
    rw [childrenSnippets, childrenSnippets, snippets_with width indent child,
      childrenSnippets_with width indent (place + 1) rest]

end

/-- On one line nothing depends on width and indentation. -/
theorem flat_doc_with (width : Nat) (indent : Int) (node : Node) :
    (node.doc { config with width := width, indent := indent }).flat none =
      node.arrangement config fun _ => false := by
  rw [flat_doc _ config.indent.toNat 0, snippets_with, arrangement]

end

/-- Whatever the width and the indentation are, a tree is printed with some gaps as new lines and
all others as spaces. With the gaps of a node all gaps of the nodes above it are new lines, and the
nodes whose gaps are new lines are those for which there is no room on one line. If the new lines
are joined again, the same text comes out at every width and indentation, and it is what is printed
where there is room for it. All that is known of the layout engine is that a group is laid out on
one line if it fits, and otherwise breaks its own lines. -/
theorem print_eq_arrangement (engine : Engine) (hengine : engine.Lawful) (config : PrintConfig)
    (node : Node) (width : Nat) (indent : Int) (hindent : 0 ≤ indent) :
    let printed : PrintConfig := { config with width := width, indent := indent }
    let joined := node.arrangement config fun _ => false
    (∃ chosen, node.Chooses chosen ∧ engine.Breaks printed 0 0 node chosen ∧
      engine.print printed node = plain (node.arrangement printed chosen) ∧
      (node.arrangement printed chosen).map Piece.joined = joined) ∧
    (engine.flatWidth (node.doc printed) ≤ width → engine.print printed node = plain joined) := by
  intro printed joined
  obtain ⟨last, hlays⟩ := hengine.lays width (node.doc printed)
  rw [← Nat.zero_mul printed.indent.toNat] at hlays
  obtain ⟨chosen, hchosen, hbreaks, hdisplays⟩ :=
    exists_chooses hengine (show 0 ≤ printed.indent from hindent) node hlays
  have hbreaks : engine.Breaks printed 0 0 node chosen := hbreaks
  have hprint : engine.print printed node = plain (node.arrangement printed chosen) :=
    hdisplays.written
  have hjoined : (node.arrangement printed chosen).map Piece.joined = joined := by
    rw [arrangement, joined_snippets, flat_doc_with]
  refine ⟨⟨chosen, hchosen, hbreaks, hprint, hjoined⟩, fun hroom => ?_⟩
  -- where there is room for the root it is not chosen, and then no other node is
  have hroot : chosen [] = false := by
    by_contra htrue
    have htight := hbreaks.tight [] node rfl (by simpa using htrue)
    rw [List.length_nil, Nat.zero_mul, Nat.zero_add, closers, Nat.add_zero] at htight
    exact absurd hroom (Nat.not_le_of_lt htight)
  have hnone : chosen = fun _ => false := by
    funext path
    by_contra htrue
    have habove := hchosen.above [] path (by simpa using htrue)
    rw [hroot] at habove
    cases habove
  have hflat : node.arrangement printed (fun _ => false) = joined :=
    (flat_doc printed printed.indent.toNat 0 node).symm.trans
      (flat_doc_with config width indent node)
  rw [hprint, hnone, hflat]

/-- A return statement with its operand, and a placeholder. -/
def returnTree : Node :=
  .branch .root ⟨0, 8⟩
    [⟨.returnStatement, ⟨0, 8⟩, [.leaf (.identifier ⟨.identifier, ⟨7, 7⟩, "x"⟩) ⟨7, 7⟩], true⟩,
      .empty 8]

/-- The root does not fit into thirty columns, but each of its children does. The tree as a whole
fits into fifty. -/
theorem arrangement_of_returnTree :
    let config : PrintConfig := ⟨30, 2, true, false⟩
    let wide : PrintConfig := { config with width := 50 }
    let joined := returnTree.arrangement config fun _ => false
    Engine.greedy.Lawful ∧ 0 ≤ config.indent ∧
      (∃ chosen, returnTree.Chooses chosen ∧ chosen [] = true ∧ chosen [0] = false ∧
        plain (returnTree.arrangement config chosen) =
          "(ParseRoot\n  (Return ; (Identifier x))\n  (Empty))" ∧
        (returnTree.arrangement config chosen).map Piece.joined = joined) ∧
      Engine.greedy.flatWidth (returnTree.doc wide) ≤ 50 ∧
      returnTree.print wide = plain joined ∧
      plain joined = "(ParseRoot (Return ; (Identifier x)) (Empty))" := by
  intro config wide joined
  have hbroken : returnTree.print config =
      "(ParseRoot\n  (Return ; (Identifier x))\n  (Empty))" := by decide +kernel
  have hroom : Engine.greedy.flatWidth (returnTree.doc wide) ≤ 50 := by decide +kernel
  obtain ⟨⟨chosen, hchosen, hbreaks, hprint, hjoined⟩, -⟩ :=
    print_eq_arrangement Engine.greedy Engine.greedy_lawful config returnTree 30 2 (by decide)
  obtain ⟨-, hwide⟩ :=
    print_eq_arrangement Engine.greedy Engine.greedy_lawful config returnTree 50 2 (by decide)
  have hroot : chosen [] = true := by
    by_contra hfalse
    have hnarrow := hbreaks.roomy [] returnTree rfl (by simpa using hfalse) (absurd rfl)
    revert hnarrow
    decide +kernel
  have hchild : chosen [0] = false := by
    by_contra htrue
    have htight := hbreaks.tight [0] _ rfl (by simpa using htrue)
    revert htight
    decide +kernel
  exact ⟨Engine.greedy_lawful, by decide,
    ⟨chosen, hchosen, hroot, hchild, hprint.symm.trans hbroken, hjoined⟩,
    hroom, hwide hroom, by decide +kernel⟩

end Node

end Concretion
