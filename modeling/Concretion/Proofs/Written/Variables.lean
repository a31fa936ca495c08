import Concretion.Proofs.Exactness
import Concretion.Proofs.Written.Declarators
import Concretion.Proofs.Written.Listed

/-!
# Groups of declarators

The steps by which a statement of variables is recovered where it is written.

- `Declaration.yields`: a declarator comes to its node.
- `yields_ownKeyword`, `yields_ownKeyword_further`: which keyword is seen in front of a declarator.
- `Group.yields_first`, `Group.yields_continued`: a declarator with a keyword begins a group, and
  one without a keyword goes on with the group in front of it.
- `Group.Laid.solid`: the node of a group whose parts are apart passes the check.
-/

namespace Concretion

open Text Mark Recover Written

/-- The placeholder of an absent part. -/
theorem Node.checkChildren_empty {kind : NodeKind} {span : Span} {previous solid : Option Span}
    {offset : Nat} (hinside : span.contains (Span.point offset))
    (hprevious : ∀ other ∈ previous, other.start ≤ offset) :
    checkChildren kind span previous solid [.empty offset] = .ok () := by
  have hcheck : (Node.empty offset).check = .ok () := by
    refine check_eq_ok_iff.2 ⟨checkSelf_eq_ok_iff.2 ⟨fun _ => rfl, ?_, List.forall_mem_nil _⟩, rfl⟩
    rintro expected ⟨⟩
  exact checkChildren_cons_eq_ok_iff.2
    ⟨checkChild_ok hinside hprevious (.inl rfl), hcheck, rfl⟩

namespace Stack

theorem modifyLastChild_attach (stack : Stack) (node changed : Node) :
    (stack.attach node).modifyCurrent (·.modifyLastChild fun _ => changed) =
      stack.attach changed := by
  obtain ⟨root, _ | ⟨inner, outer⟩⟩ := stack <;>
    simp only [attach, modifyCurrent, Node.modifyLastChild_addChild]

end Stack

namespace Recover.Yields

variable {scope : Scope} {stack : Stack} {kind : NodeKind} {span : Span} {binding : BindingFragment}

/-- The value, which is recovered first, is put behind the name. -/
theorem valued {value name : Node}
    (h : Yields scope (stack.push (.leaf kind span)) (Rule.valueAndName binding) ()
      (stack.push (.branch kind span [value, name]))) (place : Span) :
    Yields scope (stack.push (.leaf kind span)) (Rule.declarationParts binding place) ()
      (stack.push (.branch kind span [name, value])) := by
  refine h.bind (Yields.getStack.bind ?_)
  exact Yields.getStack.bind ((Yields.orFail rfl).bind (.modifyStack _))

/-- In place of a value there is a placeholder. -/
theorem bare {name : Node}
    (h : Yields scope (stack.push (.leaf kind span)) (Rule.valueAndName binding) ()
      (stack.push (.branch kind span [name]))) (place : Span) :
    Yields scope (stack.push (.leaf kind span)) (Rule.declarationParts binding place) ()
      (stack.push (.branch kind span [name, .empty place.last])) :=
  h.bind (Yields.getStack.bind (.attach _))

theorem exportStatus (name : String) :
    Yields scope stack (exportStatus name) (.of scope.info name) stack :=
  fun session hstack hskips => ⟨session, rfl, hstack, rfl, hskips, rfl⟩

theorem gapStart : Yields scope stack gapStart stack.gapStart stack :=
  getStack.bind (.pure _)

theorem replaceLast (node changed : Node) :
    Yields scope (stack.attach node)
      (Recover.modifyStack (·.modifyCurrent (·.modifyLastChild fun _ => changed))) ()
      (stack.attach changed) :=
  stack.modifyLastChild_attach node changed ▸ .modifyStack _

/-- A semicolon is looked for behind the node. -/
theorem terminates {node : Node} {finish : Nat} (h : node.last + 1 = finish) :
    Yields scope stack (Recover.terminates node finish)
      (scope.source.endsWithSemicolon finish) stack := by
  have hsemicolon : Yields scope stack (Recover.terminates node finish)
      (scope.source.endsWithSemicolon (max finish (node.last + 1))) stack :=
    source.bind (.pure _)
  rwa [h, Nat.max_self] at hsemicolon

theorem mapM_singleton {α β : Type} {action : α → Recover β} {item : α} {value : β}
    (h : Yields scope stack (action item) value stack) :
    Yields scope stack ([item].mapM action) [value] stack := by
  rw [List.mapM_cons, List.mapM_nil]
  exact h.bind ((pure []).bind (pure _))

/-- A declaration is wrapped from the keyword on. -/
theorem wrapExport {node : Node} {start offset : Nat}
    (h : scope.source.findLastWord "export" start node.start = some offset)
    (hle : offset ≤ node.last) :
    Yields scope stack (Rule.wrapExport node false start)
      { kind := .exportStatement (some ((Token.keyword "export").symbolAt offset)) false none
        span := ⟨offset, node.last⟩
        children := [{ node with ownsSemicolon := false }]
        ownsSemicolon := node.ownsSemicolon } stack := by
  have hlocate : scope.source.locateLastWord "Export" "export" start node.start = .ok offset := by
    rw [Source.locateLastWord, h]
  have hkeyword : Yields scope stack (findLastWord? "export" "Export" start node.start)
      (some ((Token.keyword "export").symbolAt offset)) stack :=
    source.bind ((settle? hlocate).bind ((symbolAt _ _).bind (.pure _)))
  exact hkeyword.bind ((spanBetween hle).bind (.pure _))

end Recover.Yields

namespace Written

/-- The value of a phrase is no class. -/
theorem Phrase.expr_ne_classDef (phrase : Phrase) (offset : Nat) (definition : ClassDef) :
    phrase.expr offset ≠ .classDef definition := by
  match phrase with
  | .parens before inner after => exact inner.expr_ne_classDef _ definition
  | .name _ | .number _ | .unary .. | .binary .. | .conditional .. | .call .. | .access ..
  | .index .. | .array _ => exact nofun

/-! ## The node of a declarator -/

namespace Declarator

theorem size_body_valued (name : Name) (before after : Gap) (value : Phrase) :
    size (valued name before after value).body = width name.chars +
      size (valued name before after value).joint + size value.lead + size value.body := by
  simp only [body, joint, size_append, size_spell, Nat.add_assoc]

theorem marks_valued (name : Name) (before after : Gap) (value : Phrase) :
    (valued name before after value).marks = spell name.chars ++
      ((spread before ++ (spell ['='] ++ spread after)) ++ value.marks) := by
  simp only [marks, body, tail, Phrase.marks, List.append_assoc]

/-- A declarator begins with its name. -/
theorem marks_eq (declarator : Declarator) :
    declarator.marks = spell declarator.name.chars ++ declarator.behindName := by
  cases declarator with
  | bare name => rfl
  | valued name before after value => exact marks_valued name before after value

theorem size_name_le (declarator : Declarator) :
    width declarator.name.chars ≤ size declarator.body := by
  cases declarator with
  | bare name =>
    rw [body, size_spell]
    exact Nat.le_refl _
  | valued name before after value =>
    rw [size_body_valued]
    show width name.chars ≤ _
    omega

end Declarator

namespace Declaration

variable (declaration : Declaration)

theorem range_nonempty : declaration.range.start < declaration.range.finish := by
  have hname := width_pos declaration.declarator.name.nonempty
  have hle := declaration.declarator.size_name_le
  show declaration.offset < declaration.offset + size declaration.declarator.body
  omega

/-- The value ends where the body of the declarator does. -/
theorem range_value {name : Name} {before after : Gap} {value : Phrase} {offset : Nat} :
    let declaration : Declaration := ⟨.valued name before after value, offset⟩
    (value.range declaration.valueOffset).finish = declaration.range.finish := by
  simp only [Phrase.range, range, valueOffset, Declarator.size_body_valued, Declarator.name,
    Nat.add_assoc]

/-- The node of a declarator is all of its body. -/
theorem solid : declaration.node.Solid declaration.range := by
  have hrange := declaration.range_nonempty
  obtain ⟨declarator, offset⟩ := declaration
  cases declarator with
  | bare name =>
    have hbody : size (Declarator.bare name).body = width name.chars := size_spell _
    have hname := name.solid offset
    refine ⟨hrange, rfl, rfl, Node.check_eq_ok_iff.2 ⟨?_, ?_⟩⟩
    · refine Node.checkSelf_eq_ok_iff.2
        ⟨fun h => absurd h Bool.false_ne_true, ?_, List.forall_mem_nil _⟩
      rintro expected ⟨⟩
      rfl
    · -- the placeholder stands at the last byte of the name
      simp only [range, hbody] at hrange
      refine Node.checkChildren_solid hname (Nat.le_refl _) ?_ (Node.endsBefore_none _)
        (Node.endsBefore_none _) (Node.checkChildren_empty ?_ ?_)
      · simp only [range, hbody, Nat.le_refl]
      · simp only [range, hbody, Span.contains_iff, Range.span, Span.ofBounds,
          Span.point]
        omega
      · rintro other ⟨⟩
        simp only [range, Range.span, Span.ofBounds]
        omega
  | valued name before after value =>
    have hname := name.solid offset
    have hvalue := value.solid (valueOffset ⟨.valued name before after value, offset⟩)
    have hstart := value.le_start (valueOffset ⟨.valued name before after value, offset⟩)
    have hfinish : (value.range (valueOffset ⟨.valued name before after value, offset⟩)).finish =
        (range ⟨.valued name before after value, offset⟩).finish := range_value
    refine ⟨hrange, rfl, rfl, Node.check_eq_ok_iff.2 ⟨?_, ?_⟩⟩
    · refine Node.checkSelf_eq_ok_iff.2 ⟨fun h => absurd h Bool.false_ne_true, ?_, ?_⟩
      · rintro expected ⟨⟩
        rfl
      · -- the equals sign is between the name and the value
        have hpos := value.size_body_pos
        have hbody := Declarator.size_body_valued name before after value
        have hjoint : size (Declarator.valued name before after value).joint =
            size (spread before) + (1 + size (spread after)) := by
          simp only [Declarator.joint, size_append, size_spell]
          rfl
        have hafter : (range ⟨.valued name before after value, offset⟩).start ≤
            offset + width name.chars + size (spread before) := by
          simp only [range]
          omega
        have hbefore : offset + width name.chars + size (spread before) + max Token.equal.length 1 ≤
            (range ⟨.valued name before after value, offset⟩).finish := by
          show _ + 1 ≤ offset + size (Declarator.valued name before after value).body
          omega
        obtain ⟨hlow, hhigh⟩ := symbolAt_inside .equal hafter hbefore
        refine List.forall_mem_singleton.2 (Span.contains_iff.2 ⟨hlow, ?_⟩)
        show _ ≤ max (_ - 1) _
        exact Nat.le_trans (Nat.le_sub_one_of_lt hhigh) (Nat.le_max_left _ _)
    · refine Node.checkChildren_pair hname hvalue (Nat.le_refl _) ?_ (Nat.le_of_eq hfinish)
      refine Nat.le_trans ?_ hstart
      exact Nat.le_add_right _ _

/-! ## Recovery of a declarator -/

theorem at_name {page : Page} {declarator : Declarator} {offset : Nat}
    (h : page.At offset declarator.marks) : page.At offset (spell declarator.name.chars) := by
  cases declarator with
  | bare name => exact h.left
  | valued name before after value => exact h.left.left

/-- What the rules see of a declarator. -/
def fragment (kind : BindingKind) : BindingFragment where
  range := declaration.range
  name := (declaration.binding kind).name
  init := optionalFragment (declaration.binding kind).init
  kind := kind
  isFunctionDeclaration := false

variable {scope : Scope} {page : Page} {declaration : Declaration}

/-- A declarator is recovered where it is written. -/
theorem yields (hsource : scope.source = page.source)
    (h : page.At declaration.offset declaration.declarator.marks)
    (hapart : declaration.declarator.isApart) (kind : BindingKind) (stack : Stack) :
    Yields scope stack (Rule.declaration (declaration.fragment kind)) declaration.node stack := by
  have hspan : scope.source.rangeSpan declaration.range.start declaration.range.finish =
      .ok declaration.range.span := by
    rw [hsource]
    exact h.left.rangeSpan
  have hname : scope.source.rangeSpan declaration.offset
      (declaration.offset + width declaration.declarator.name.chars) =
        .ok (Range.span ⟨declaration.offset,
          declaration.offset + width declaration.declarator.name.chars⟩) := by
    have hname := (at_name h).rangeSpan
    rw [size_spell, ← hsource] at hname
    exact hname
  have hcover := declaration.solid.cover
  have hsize := declaration.declarator.size_name_le
  obtain ⟨declarator, offset⟩ := declaration
  cases declarator with
  | bare name =>
    have hfinish : max (range ⟨.bare name, offset⟩).finish (offset + width name.chars) =
        (range ⟨.bare name, offset⟩).finish :=
      Nat.max_eq_left (Nat.add_le_add_left hsize offset)
    rw [← hfinish] at hspan
    refine (Yields.rangeSpan hspan).bind ((Yields.pure none).bind (.within ?_ hcover))
    exact .bare ((Yields.pure ()).bind (Attaches.ident hname _)) _
  | valued name before after value =>
    rw [Declarator.marks_valued] at h
    have hafter := h.right
    rw [size_spell] at hafter
    let place := valueOffset ⟨.valued name before after value, offset⟩
    have hvalue : page.At place value.marks := hafter.right
    have hnode := value.recovered hsource hvalue hapart
    have hstart := value.le_start place
    have hend :
        (value.range place).finish = (range ⟨.valued name before after value, offset⟩).finish :=
      range_value
    -- Between the name and the value are only marks, none of which is an equals sign.
    have hequal : scope.source.find "=" (offset + width name.chars) (value.range place).start =
        some (offset + width name.chars + size (spread before)) := by
      rw [hsource]
      simp only [List.append_assoc] at hafter
      refine hafter.find (d := '=') ⟨rfl, rfl, rfl⟩ (notMem_spread _ _)
        (Nat.lt_of_lt_of_le ?_ hstart)
      · simp only [place, valueOffset, Declarator.joint, Declarator.name, size_append, size_spell]
        show _ < _ + (_ + (1 + _))
        omega
    rw [← range_fragment] at hequal hend
    have hfinish : max (max ((value.expr place).fragmentOf (value.expr place).recover).range.finish
        (range ⟨.valued name before after value, offset⟩).finish) (offset + width name.chars) =
          (range ⟨.valued name before after value, offset⟩).finish := by
      rw [hend, Nat.max_self]
      exact Nat.max_eq_left (Nat.add_le_add_left hsize offset)
    rw [← hfinish] at hspan
    let symbol := Token.equal.symbolAt (offset + width name.chars + size (spread before))
    have hsymbol : Yields scope stack (find .equal "Declaration" (offset + width name.chars)
        ((value.expr place).fragmentOf (value.expr place).recover).range.start) symbol stack :=
      .find hequal
    have hparts : Yields scope
        (stack.push (.leaf (.declaration (some symbol))
          (range ⟨.valued name before after value, offset⟩).span))
        (Rule.declarationParts (fragment ⟨.valued name before after value, offset⟩ kind)
          (range ⟨.valued name before after value, offset⟩).span) ()
        (stack.push (node ⟨.valued name before after value, offset⟩)) := by
      exact .valued ((hnode _).bind (Attaches.ident hname _)) _
    exact (Yields.rangeSpan hspan).bind
      (hsymbol.bind ((Yields.pure (some symbol)).bind (.within hparts hcover)))

theorem recover_binding (declaration : Declaration) (kind : BindingKind) :
    (declaration.binding kind).recover = Rule.binding (declaration.fragment kind) := by
  obtain ⟨declarator, offset⟩ := declaration
  cases declarator with
  | bare name => rfl
  | valued name before after value =>
    have hclass := value.expr_ne_classDef (valueOffset ⟨.valued name before after value, offset⟩)
    show (Binding.mk _ _ (some _) _ _).recover = Rule.binding ⟨_, _, some _, _, _⟩
    cases hvalue : value.expr (valueOffset ⟨.valued name before after value, offset⟩) with
    | classDef definition => exact absurd hvalue (hclass definition)
    | _ => rfl

end Declaration

/-! ## Keywords in front of declarators -/

section Keywords

variable {scope : Scope} {page : Page} {stack : Stack} {offset start : Nat} {word : String}
  {d : Char}
  {more : List Char}

/-- The keyword of a statement is found in front of its first declarator. -/
theorem yields_ownKeyword (hsource : scope.source = page.source) (hword : Keyword word d more)
    {idle : List Mark} (h : page.At offset (spell word.toList ++ idle)) (hidle : .code d ∉ idle)
    (hpos : 0 < size idle)
    (hat : page.source.wordMatchesAt (isAlphabetic word) (pattern word) offset = true)
    (hstart : start ≤ offset) :
    Yields scope stack (Rule.ownKeyword word start (offset + width word.toList + size idle))
      (some offset) stack := by
  refine Yields.source.bind ?_
  dsimp only
  have hlength := utf8ByteSize_eq word
  -- the offset that is tried first may lie in front of the gap, but no other keyword is found there
  by_cases hfound : page.source.hasWordAt word
      (offset + width word.toList + size idle - (word.utf8ByteSize + 1)) = true
  · have hplace := h.eq_of_hasWordAt hword hidle hpos (by omega) hfound
    rw [hsource, hfound, Bool.and_true, if_pos (decide_eq_true (by omega)), hplace]
    exact .pure _
  · rw [hsource, Bool.eq_false_iff.2 hfound, Bool.and_false, if_neg Bool.false_ne_true,
      h.findLastWord hword hidle hat hstart]
    exact .pure _

/-- In front of a further declarator a keyword is found just if nothing but a comma separates the
declarator from it. -/
theorem yields_ownKeyword_further (hsource : scope.source = page.source)
    (hword : Keyword word d more) {outer tail rest : List Mark} {next : Further}
    (h : page.At offset (outer ++ tail ++ (next.joint ++ rest)))
    (hlong : width word.toList < size (outer ++ tail)) (htail : .code d ∉ tail) :
    Yields scope stack
      (Rule.ownKeyword word (offset + size outer) (offset + size (outer ++ tail) + size next.joint))
      (if next.isTaken word.toList (outer ++ tail) then
        some (offset + size (outer ++ tail) + size next.joint - (width word.toList + 1)) else none)
      stack := by
  refine Yields.source.bind ?_
  dsimp only
  have hlength := utf8ByteSize_eq word
  have hjoint : size next.joint = size (spread next.before) + 1 + size (spread next.after) := by
    simp only [Further.joint, size_append, size_spell, Nat.add_assoc]
    rfl
  have hcomma : page.At offset (outer ++ tail ++ (spread next.before ++ (spell [','] ++
      (spread next.after ++ rest)))) := by
    simpa only [Further.joint, List.append_assoc] using h
  -- a declarator that is taken has the end of the value before it for its keyword
  by_cases htaken : next.isTaken word.toList (outer ++ tail) = true
  · obtain ⟨⟨hbefore, hafter⟩, hends⟩ : (next.before.isEmpty = true ∧ next.after.isEmpty = true) ∧
        endsInWord word.toList (outer ++ tail) = true := by
      simpa only [Further.isTaken, Bool.and_eq_true] using htaken
    rw [List.isEmpty_iff] at hbefore hafter
    rw [hbefore, hafter] at hcomma hjoint
    have hplace : offset + size (outer ++ tail) + size next.joint - (width word.toList + 1) +
        width word.toList + 1 = offset + size (outer ++ tail) + 1 := by
      rw [hjoint]
      show _ + (0 + 1 + 0) - _ + _ + 1 = _
      omega
    rw [hsource, hlength, hcomma.hasWordAt_comma hword hends hplace, Bool.and_true,
      if_pos (decide_eq_true (by omega)), if_pos htaken]
    exact .pure _
  · have hmissed : page.source.hasWordAt word
        (offset + size (outer ++ tail) + size next.joint - (width word.toList + 1)) = false := by
      refine Bool.eq_false_iff.2 fun hfound => htaken ?_
      obtain ⟨hbefore, hafter, hends⟩ := hcomma.of_hasWordAt_comma hword hlong (by omega) hfound
      rw [Further.isTaken, hbefore, hafter, hends]
      rfl
    have hwindow : page.At (offset + size outer) (tail ++ next.joint) := by
      have hfront := h
      rw [List.append_assoc] at hfront
      have hbehind := hfront.right
      rw [← List.append_assoc] at hbehind
      exact hbehind.left
    have hidle : .code d ∉ tail ++ next.joint := by
      rw [List.mem_append, not_or]
      exact ⟨htail, hword.notMem_joint _ _⟩
    have hnone := hwindow.findLastWord_none hword hidle
    have hend : offset + size outer + size (tail ++ next.joint) =
        offset + size (outer ++ tail) + size next.joint := by
      simp only [size_append, Nat.add_assoc]
    rw [hend] at hnone
    rw [hsource, hlength, hmissed, Bool.and_false, if_neg Bool.false_ne_true, if_neg htaken, hnone]
    exact .pure _

end Keywords

/-! ## Nodes of groups -/

/-- Each declarator is behind the one before, and the first one is behind the given offset. -/
def Apart (offset : Nat) : List Declaration → Prop
  | [] => True
  | declaration :: rest => offset ≤ declaration.offset ∧ Apart declaration.range.finish rest

theorem Apart.append {offset : Nat} {list : List Declaration} {declaration : Declaration}
    (h : Apart offset list)
    (hlast : ((list.getLast?.map (·.range.finish)).getD offset) ≤ declaration.offset) :
    Apart offset (list ++ [declaration]) := by
  induction list generalizing offset with
  | nil => exact ⟨hlast, trivial⟩
  | cons first rest ih =>
    refine ⟨h.1, ih h.2 ?_⟩
    cases rest with
    | nil => exact hlast
    | cons second others =>
      rw [List.getLast?_cons_cons] at hlast
      exact hlast

/-- The last declarator ends behind all others. -/
theorem Apart.finish_le {offset : Nat} {list : List Declaration} (h : Apart offset list) :
    offset ≤ (list.getLast?.map (·.range.finish)).getD offset ∧
      ∀ declaration ∈ list,
        declaration.range.finish ≤ (list.getLast?.map (·.range.finish)).getD offset := by
  induction list generalizing offset with
  | nil => exact ⟨Nat.le_refl _, List.forall_mem_nil _⟩
  | cons first rest ih =>
    have hfirst := first.range_nonempty
    have hstart : first.range.start = first.offset := rfl
    obtain ⟨hle, hrest⟩ := ih h.2
    have hoffset := h.1
    have hlast : ((first :: rest).getLast?.map (·.range.finish)).getD offset =
        (rest.getLast?.map (·.range.finish)).getD first.range.finish := by
      cases rest with
      | nil => rfl
      | cons second others =>
        rw [List.getLast?_cons_cons, List.getLast?_cons]
        rfl
    rw [hlast]
    exact ⟨by omega, List.forall_mem_cons.2 ⟨hle, hrest⟩⟩

/-- Declarators that are apart pass the check as children of a node around them. -/
theorem Apart.check {offset : Nat} {list : List Declaration} (h : Apart offset list)
    {kind : NodeKind} {range : Range} {previous solid : Option Span}
    (hprevious : Node.EndsBefore offset previous) (hsolid : Node.EndsBefore offset solid)
    (hstart : range.start ≤ offset)
    (hfinish : ∀ declaration ∈ list, declaration.range.finish ≤ range.finish) :
    Node.checkChildren kind range.span previous solid (list.map Declaration.node) = .ok () := by
  induction list generalizing offset previous solid with
  | nil => rfl
  | cons first rest ih =>
    obtain ⟨hoffset, hrest⟩ := h
    obtain ⟨hfirst, hothers⟩ := List.forall_mem_cons.1 hfinish
    have hnonempty := first.range_nonempty
    have hends := Node.endsBefore_range hnonempty (Nat.le_refl _)
    refine Node.checkChildren_solid first.solid (Nat.le_trans hstart hoffset) hfirst
      (hprevious.mono hoffset) (hsolid.mono hoffset) ?_
    refine ih hrest hends hends ?_ hothers
    have hplace : first.range.start = first.offset := rfl
    omega

namespace Group

/-- The keywords and the declarators of the group are apart, in order. -/
structure Laid (group : Group) (word : List Char) : Prop where
  exported : ∀ offset ∈ group.exported, offset + "export".utf8ByteSize ≤ group.keyword
  keyword : group.keyword + width word ≤ group.first.offset
  apart : Apart group.first.range.finish group.more

variable {source : Source} {kind : BindingKind} {group : Group} {word : List Char}

theorem last_add (declaration : Declaration) : (group.add declaration).last = declaration := by
  rw [last, add, List.getLast?_concat]
  rfl

theorem finish_eq (group : Group) :
    group.finish = (group.more.getLast?.map (·.range.finish)).getD group.first.range.finish := by
  rw [finish, last]
  cases group.more.getLast? <;> rfl

namespace Laid

theorem add (h : group.Laid word) {declaration : Declaration}
    (hoffset : group.finish ≤ declaration.offset) : (group.add declaration).Laid word where
  exported := h.exported
  keyword := h.keyword
  apart := h.apart.append (by rwa [← group.finish_eq])

theorem keyword_lt (h : group.Laid word) : group.keyword + width word < group.finish := by
  have hkeyword := h.keyword
  have hfirst := group.first.range_nonempty
  have hfinish := h.apart.finish_le.1
  rw [← group.finish_eq] at hfinish
  have hstart : group.first.range.start = group.first.offset := rfl
  omega

end Laid

/-! ### The check -/

theorem solid_variableNode (source : Source) (h : group.Laid kind.keyword.toList) :
    (group.variableNode source kind).Solid ⟨group.keyword, group.finish⟩ := by
  have hkeyword := h.keyword
  have hlt := h.keyword_lt
  have hfinish := h.apart.finish_le
  rw [← group.finish_eq] at hfinish
  have hbranch : (Node.branch (.var ((Token.keyword kind.keyword).symbolAt group.keyword))
      (Range.span ⟨group.keyword, group.finish⟩)
      ((group.first :: group.more).map Declaration.node)).Solid
        ⟨group.keyword, group.finish⟩ := by
    refine Node.solid_branch (Nat.lt_of_le_of_lt (Nat.le_add_right _ _) hlt) rfl rfl ?_ ?_
    · have hlength : (Token.keyword kind.keyword).length = width kind.keyword.toList :=
        utf8ByteSize_eq _
      have hpos : 0 < width kind.keyword.toList := by
        cases kind <;> decide
      refine List.forall_mem_singleton.2 (symbolAt_inside _ (Nat.le_refl _) ?_)
      rw [hlength, Nat.max_eq_left hpos]
      exact hlt.le
    · have hapart : Apart (group.keyword + width kind.keyword.toList) (group.first :: group.more) :=
        ⟨hkeyword, h.apart⟩
      exact hapart.check (Node.endsBefore_none _) (Node.endsBefore_none _) (Nat.le_add_right _ _)
        (List.forall_mem_cons.2 ⟨hfinish.1, hfinish.2⟩)
  exact hbranch.withSemicolon _

/-- The node of a group passes the check, and is all of the group. -/
theorem solid (source : Source) (h : group.Laid kind.keyword.toList) :
    (group.node source kind).Solid ⟨group.exported.getD group.keyword, group.finish⟩ := by
  have hvariables := group.solid_variableNode source h
  rw [node]
  cases hexported : group.exported with
  | none => exact hvariables
  | some offset =>
    have hexport := h.exported offset hexported
    have hlt := h.keyword_lt
    have hlength : (Token.keyword "export").length = "export".utf8ByteSize := rfl
    have hbranch : (Node.branch
        (.exportStatement (some ((Token.keyword "export").symbolAt offset)) false none)
        (Range.span ⟨offset, group.finish⟩)
        [{ group.variableNode source kind with ownsSemicolon := false }]).Solid
          ⟨offset, group.finish⟩ := by
      refine Node.solid_branch (by dsimp only; omega) rfl rfl ?_ ?_
      · refine List.forall_mem_singleton.2 (symbolAt_inside _ (Nat.le_refl _) ?_)
        rw [hlength]
        show offset + 6 ≤ group.finish
        have hsix : "export".utf8ByteSize = 6 := rfl
        omega
      · refine Node.checkChildren_solid (hvariables.withSemicolon false) ?_ (Nat.le_refl _)
          (Node.endsBefore_none _) (Node.endsBefore_none _) rfl
        dsimp only
        omega
    exact hbranch.withSemicolon _

theorem last_node (source : Source) (h : group.Laid kind.keyword.toList) :
    (group.node source kind).last + 1 = group.finish := by
  have hlt := h.keyword_lt
  rw [(group.solid source h).last]
  show group.finish - 1 + 1 = _
  omega

theorem declaresVariables_node (source : Source) (kind : BindingKind) (group : Group) :
    (group.node source kind).declaresVariables = true := by
  rw [node]
  cases group.exported <;> rfl

/-! ### Recovery -/

variable {scope : Scope} {page : Page} {stack : Stack} {declaration : Declaration}

theorem yields_exportIf {start : Nat} (h : group.Laid kind.keyword.toList)
    (hexport : ∀ offset ∈ group.exported,
      scope.source.findLastWord "export" start group.keyword = some offset) :
    Yields scope stack
      (Rule.exportIf ⟨group.exported.isSome, false⟩ (group.variableNode scope.source kind) start)
      (group.node scope.source kind) stack := by
  have hlast := (group.solid_variableNode scope.source h).last
  have hlt := h.keyword_lt
  rw [node]
  cases hexported : group.exported with
  | none => exact .pure _
  | some offset =>
    have hbefore := h.exported offset hexported
    have hspan : (⟨offset, (group.variableNode scope.source kind).last⟩ : Span) =
        Range.span ⟨offset, group.finish⟩ := by
      rw [hlast, Range.span_of_lt (by omega)]
    dsimp only
    rw [← hspan]
    refine .wrapExport (hexport offset hexported) ?_
    rw [hlast]
    dsimp only
    omega

/-- The first declarator is put under the keyword, and exported if there is a keyword for that. -/
theorem yields_first {start : Nat} (hlaid : group.Laid kind.keyword.toList)
    (hsingle : group.more = [])
    (hdeclaration : ∀ stack, Yields scope stack (Rule.declaration (group.first.fragment kind))
      group.first.node stack)
    (hstatus : ExportStatus.of scope.info group.first.declarator.name.text =
      ⟨group.exported.isSome, false⟩)
    (hexport : ∀ offset ∈ group.exported,
      scope.source.findLastWord "export" start group.keyword = some offset) :
    Yields scope stack (Rule.variableStatement (group.first.fragment kind) group.keyword start) ()
      (stack.attach (group.node scope.source kind)) := by
  have hkeyword : group.keyword ≤ group.first.offset :=
    Nat.le_trans (Nat.le_add_right _ _) hlaid.keyword
  have hnonempty := group.first.range_nonempty
  have hplace : group.first.range.start = group.first.offset := rfl
  have hstart : group.first.node.start = group.first.range.start :=
    congrArg Span.start group.first.solid.span
  have hlast := group.first.solid.last
  have hfinish : group.finish = group.first.range.finish := by
    rw [finish_eq, hsingle]
    rfl
  -- The rule merges the keyword with the declarator, which ends where the group does.
  have hspan : Yields scope stack
      (spanBetween (min group.keyword group.first.node.start) group.first.node.last)
      (Range.span ⟨group.keyword, group.finish⟩) stack := by
    rw [hfinish, hstart, hplace, hlast, Nat.min_eq_left hkeyword, Range.span_of_lt (by omega)]
    exact .spanBetween (by omega)
  have hterminates : Yields scope stack
      (terminates (.branch (.var ((Token.keyword kind.keyword).symbolAt group.keyword))
        (Range.span ⟨group.keyword, group.finish⟩) [group.first.node]) group.first.range.finish)
      (scope.source.endsWithSemicolon group.finish) stack := by
    rw [← hfinish]
    refine .terminates ?_
    show (Range.span ⟨group.keyword, group.finish⟩).last + 1 = _
    rw [Range.span_of_lt (by omega)]
    dsimp only
    omega
  have hnode : group.variableNode scope.source kind =
      { kind := .var ((Token.keyword kind.keyword).symbolAt group.keyword)
        span := Range.span ⟨group.keyword, group.finish⟩
        children := [group.first.node]
        ownsSemicolon := scope.source.endsWithSemicolon group.finish } := by
    rw [variableNode, hsingle]
    rfl
  have hexportIf : Yields scope stack (Rule.exportIf ⟨group.exported.isSome, false⟩
      (group.variableNode scope.source kind) start) (group.node scope.source kind) stack :=
    group.yields_exportIf hlaid hexport
  rw [hnode, ← hstatus] at hexportIf
  exact (Yields.symbolAt _ _).bind ((hdeclaration _).bind (hspan.bind (hterminates.bind
    ((Yields.exportStatus _).bind (hexportIf.bind (.attach _))))))

/-- What is in front of a declarator is extended to its end. -/
theorem yields_mergeSpans {range : Range} (hnonempty : range.start < range.finish)
    (hoffset : range.finish ≤ declaration.offset) :
    Yields scope stack (mergeSpans range.span declaration.node.span)
      (Range.span ⟨range.start, declaration.range.finish⟩) stack := by
  have hbehind := declaration.range_nonempty
  have hplace : declaration.range.start = declaration.offset := rfl
  rw [declaration.solid.span, Range.span_of_lt hnonempty, Range.span_of_lt hbehind,
    Range.span_of_lt (by omega)]
  exact .mergeSpans (by dsimp only; omega) (by dsimp only; omega) (Nat.le_sub_one_of_lt hnonempty)

/-- A declarator is put behind those of a node. -/
theorem yields_addDeclarator {node : Node} {range : Range} (hnode : node.Solid range)
    (hoffset : range.finish ≤ declaration.offset) :
    Yields scope stack (Rule.addDeclarator declaration.node node)
      { node with
        span := Range.span ⟨range.start, declaration.range.finish⟩
        children := node.children ++ [declaration.node] } stack := by
  have hspan : Yields scope stack (mergeSpans range.span declaration.node.span)
      (Range.span ⟨range.start, declaration.range.finish⟩) stack :=
    yields_mergeSpans hnode.nonempty hoffset
  rw [← hnode.span] at hspan
  exact hspan.bind (.pure _)

/-- The declarations are extended, in an export statement, too. -/
theorem yields_extend (scope : Scope) (stack : Stack) (hlaid : group.Laid kind.keyword.toList)
    (hoffset : group.finish ≤ declaration.offset) :
    ∃ extended, Yields scope stack
        (Rule.extendVariables (group.node scope.source kind) declaration.node) extended stack ∧
      (group.add declaration).node scope.source kind = { extended with
        ownsSemicolon := scope.source.endsWithSemicolon declaration.range.finish } := by
  have hvariables := group.solid_variableNode scope.source hlaid
  have hfinish : (group.add declaration).finish = declaration.range.finish := by
    rw [finish, last_add]
  have hchildren : ((group.add declaration).first :: (group.add declaration).more).map
      Declaration.node = (group.variableNode scope.source kind).children ++ [declaration.node] := by
    simp only [add, variableNode, List.map_cons, List.map_append, List.map_nil, List.cons_append]
  have hnode : (group.add declaration).variableNode scope.source kind =
      { group.variableNode scope.source kind with
        span := Range.span ⟨group.keyword, declaration.range.finish⟩
        children := (group.variableNode scope.source kind).children ++ [declaration.node]
        ownsSemicolon := scope.source.endsWithSemicolon declaration.range.finish } := by
    rw [variableNode, hfinish, hchildren]
    rfl
  have hsame : (group.add declaration).exported = group.exported := rfl
  rw [node, node, hsame]
  -- The declarators of an export statement are in its child, so that two nodes are widened there.
  cases hexported : group.exported with
  | none =>
    dsimp only
    rw [hnode]
    exact ⟨_, yields_addDeclarator hvariables hoffset, rfl⟩
  | some offset =>
    dsimp only
    rw [hnode, hfinish]
    have hlt := hlaid.keyword_lt
    have hbefore := hlaid.exported offset hexported
    have hnonempty : offset < group.finish := by omega
    have hspan : Yields scope stack
        (mergeSpans (Range.span ⟨offset, group.finish⟩) declaration.node.span)
        (Range.span ⟨offset, declaration.range.finish⟩) stack :=
      yields_mergeSpans hnonempty hoffset
    have hinner : Yields scope stack
        (Rule.addDeclarator declaration.node
          { group.variableNode scope.source kind with ownsSemicolon := false }) _ stack :=
      yields_addDeclarator (hvariables.withSemicolon false) hoffset
    exact ⟨_, hspan.bind (hinner.mapM_singleton.bind (.pure _)), rfl⟩

/-- A declarator without a keyword of its own goes on with the group. -/
theorem yields_continued (hlaid : group.Laid kind.keyword.toList)
    (hoffset : group.finish ≤ declaration.offset)
    (hdeclaration : ∀ stack, Yields scope stack (Rule.declaration (declaration.fragment kind))
      declaration.node stack) :
    Yields scope (stack.attach (group.node scope.source kind))
      (Rule.continuedVariable (declaration.fragment kind)) ()
      (stack.attach ((group.add declaration).node scope.source kind)) := by
  have hnonempty := declaration.range_nonempty
  have hlast : declaration.node.last + 1 = declaration.range.finish := by
    rw [declaration.solid.last]
    omega
  obtain ⟨extended, hextended, hnode⟩ :=
    yields_extend scope (stack.attach (group.node scope.source kind)) hlaid hoffset
  refine (hdeclaration _).bind ((Yields.terminates hlast).bind (Yields.getStack.bind ?_))
  rw [Stack.lastChild?_attach]
  dsimp only
  rw [if_pos (group.declaresVariables_node scope.source kind), hnode]
  exact hextended.bind (.replaceLast _ _)

end Group

end Written

end Concretion
