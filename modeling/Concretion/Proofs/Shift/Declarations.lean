import Concretion.Proofs.Shift.Rules

/-!
# Declarations that move with the text

The rules for functions, members, classes, bindings and blocks. Some of them look for a keyword in
front of a name, and may have to look in the blank space in front of the text, where there is none.
-/

namespace Concretion

open Recover Text

variable {indent : Indent}

namespace Rule

/-! ## Lists -/

section Lists

variable {α β : Type} {related : α → β → Prop} {list : List α} {list' : List β}

/-- Related lists are numbered in the same way. -/
theorem forall₂_zipIdx (h : List.Forall₂ related list list') (start : Nat) :
    List.Forall₂ (fun item item' => related item.1 item'.1 ∧ item'.2 = item.2)
      (list.zipIdx start) (list'.zipIdx start) := by
  induction h generalizing start with
  | nil => exact .nil
  | cons hitem _ ih => exact .cons ⟨hitem, rfl⟩ (ih (start + 1))

/-- The last elements of related lists are related. -/
theorem rel_getLast? (h : List.Forall₂ related list list') :
    Option.Rel related list.getLast? list'.getLast? := by
  rw [← List.head?_reverse, ← List.head?_reverse]
  have hreverse := List.forall₂_reverse_iff.2 h
  generalize list.reverse = back at hreverse ⊢
  generalize list'.reverse = back' at hreverse ⊢
  cases hreverse with
  | nil => exact .none
  | cons hitem _ => exact .some hitem

/-- As many elements are taken from related lists, if related elements are tested alike. -/
theorem length_takeWhile_eq {p : α → Bool} {q : β → Bool} (hp : ∀ a b, related a b → q b = p a)
    (h : List.Forall₂ related list list') :
    (list'.takeWhile q).length = (list.takeWhile p).length := by
  induction h with
  | nil => rfl
  | @cons a b _ _ hitem _ ih =>
    rw [List.takeWhile_cons, List.takeWhile_cons, hp a b hitem]
    split
    · exact congrArg (· + 1) ih
    · rfl

/-- Related lists are sorted in the same way, if related elements are compared alike. -/
theorem forall₂_mergeSort {le : α → α → Bool} {le' : β → β → Bool}
    (hle : ∀ a b a' b', related a a' → related b b' → le a b = le' a' b')
    (h : List.Forall₂ related list list') :
    List.Forall₂ related (list.mergeSort le) (list'.mergeSort le') := by
  obtain ⟨hlength, hzip⟩ := List.forall₂_iff_zip.1 h
  have hrelated : ∀ pair ∈ list.zip list', related pair.1 pair.2 :=
    fun pair hpair => hzip hpair
  have hfst : (list.zip list').map Prod.fst = list := List.map_fst_zip hlength.le
  have hsnd : (list.zip list').map Prod.snd = list' := List.map_snd_zip hlength.ge
  have hsorted : ((list.zip list').mergeSort fun a b => le a.1 b.1).map Prod.fst =
      ((list.zip list').map Prod.fst).mergeSort le :=
    List.map_mergeSort fun _ _ _ _ => rfl
  have hsorted' : ((list.zip list').mergeSort fun a b => le a.1 b.1).map Prod.snd =
      ((list.zip list').map Prod.snd).mergeSort le' :=
    List.map_mergeSort fun a ha b hb => hle _ _ _ _ (hrelated a ha) (hrelated b hb)
  rw [hfst] at hsorted
  rw [hsnd] at hsorted'
  rw [← hsorted, ← hsorted', List.forall₂_map_left_iff, List.forall₂_map_right_iff,
    List.forall₂_same]
  exact fun pair hpair => hrelated pair (List.mem_mergeSort.1 hpair)

end Lists

/-! ## Keys -/

/-- A computed key is found between brackets on both sides of its expression, all of which have
moved. -/
theorem follows_key {member member' : MemberFragment} (h : member.Moved indent member') :
    Follows indent (key member) (key member') := by
  obtain ⟨hkey, -, -, -⟩ := h
  have hbuild := Fragment.follows_build hkey
  obtain ⟨-⟩ := hkey
  refine .ite Iff.rfl (fun _ => hbuild) fun _ => ?_
  refine (Shifts.findLast _ _ _ _).bind fun lbracket => ?_
  refine (Shifts.find _ _ _ _).bind fun rbracket => ?_
  refine (Shifts.mergeSpans _ _).bind fun span => ?_
  exact Follows.enter (.leaf .computedName span) hbuild

/-! ## Parameters -/

/-- A pair of places, moved to the right. -/
def shiftPair (count : Nat) (places : Nat × Nat) : Nat × Nat :=
  (count + places.1, count + places.2)

section Function

variable {function function' : FunctionFragment} (h : function.Moved indent function')

include h

/-- Whether the function begins with a parenthesis is the same in both texts. -/
theorem shifts_arrowParens :
    Shifts indent (arrowParens function) (arrowParens function')
      (Option.map (shiftPair indent.width)) := by
  obtain ⟨hbody, -⟩ := h
  refine Tracks.source ((Shifts.settle fun _ => Indent.locate_moved).bind fun arrow => ?_)
  have hbyte : ∀ range : Range, indent.moved.byteAt (range.shift indent.width).start =
      indent.source.byteAt range.start := fun range => indent.byteAt_moved range.start
  dsimp only
  rw [hbyte]
  refine .ite Iff.rfl (fun _ => .pure rfl) fun _ => ?_
  exact (Shifts.settle fun _ => Indent.locateLast_moved).bind fun rparen => .pure rfl

/-- Both parentheses are looked for in front of the body, which has moved. -/
theorem shifts_functionParens (nameEnd : Nat) :
    Shifts indent (functionParens function nameEnd)
      (functionParens function' (indent.width + nameEnd)) (shiftPair indent.width) := by
  obtain ⟨hbody, -⟩ := h
  refine Tracks.source ((Shifts.settle fun _ => Indent.locate_moved).bind fun lparen => ?_)
  exact (Shifts.settle fun _ => Indent.locateLast_moved).bind fun rparen => .pure rfl

/-- The list goes from parenthesis to parenthesis, or from the first parameter to the last. -/
theorem shifts_parameterNode (parens : Option (Nat × Nat)) :
    Shifts indent (parameterNode function parens)
      (parameterNode function' (parens.map (shiftPair indent.width)))
      (Node.shift indent.width) := by
  obtain @⟨range, name, kind, parameters, body, body', bodyStart, defaults, defaults', isAnonymous,
    isMethod, isDeclared, hbody, hdefaults⟩ := h
  cases parens with
  | some parens =>
    refine (Shifts.symbolAt _ _).bind fun lparen => (Shifts.symbolAt _ _).bind fun rparen => ?_
    exact (Shifts.mergeSpans _ _).bind fun span => .pure rfl
  | none =>
    have hleaf : ∀ span : Span, Shifts indent
        (Pure.pure (Node.leaf (.parameters none none) span))
        (Pure.pure (Node.leaf (.parameters none none) (span.shift indent.width)))
        (Node.shift indent.width) := fun span => .pure rfl
    simp only [parameterNode, Option.map_none, List.head?_map, List.getLast?_map]
    cases parameters.head? with
    | none => exact hleaf (.point range.start)
    | some first =>
      cases parameters.getLast? with
      | none => exact hleaf (.point range.start)
      | some last => exact (Shifts.rangeSpan _ _).bind hleaf

/-- How the parentheses are found is decided by the kind of the function. -/
theorem shifts_parameterList (nameEnd : Nat) :
    Shifts indent (parameterList function nameEnd)
      (parameterList function' (indent.width + nameEnd)) (Node.shift indent.width) := by
  have harrow := shifts_arrowParens h
  have hparens := shifts_functionParens h nameEnd
  have hnode := shifts_parameterNode h
  obtain ⟨hbody, -⟩ := h
  refine .ite Iff.rfl (fun _ => harrow.bind hnode) fun _ => ?_
  exact hparens.bind fun parens => hnode (some parens)

end Function

/-- The start of a symbol, or else a given place. -/
theorem start_getD_moved (symbol : Option Symbol) (place : Nat) :
    ((symbol.map (Symbol.shift indent.width)).map (·.span.start)).getD (indent.width + place) =
      indent.width + (symbol.map (·.span.start)).getD place := by
  cases symbol <;> rfl

/-- The node begins with the dots if there are any, and they have moved as well. -/
theorem follows_restElement (parameter : Ident) (ellipsis : Option Symbol) :
    Follows indent (restElement parameter ellipsis)
      (restElement (parameter.shift indent.width) (ellipsis.map (·.shift indent.width))) := by
  obtain ⟨⟨start, finish⟩, text, isRest, isDefault⟩ := parameter
  have hstart : ((ellipsis.map (·.shift indent.width)).map (·.span.start)).getD
      (indent.width + start) = indent.width + (ellipsis.map (·.span.start)).getD start :=
    start_getD_moved ellipsis start
  unfold restElement
  dsimp only [Ident.shift, Range.shift]
  rw [hstart]
  refine (Shifts.rangeSpan _ _).bind fun span => (Shifts.identifier _ _ _).bind fun name => ?_
  exact Follows.attach (.branch (.restElement ellipsis) span [name])

/-- The dots are looked for from the gap on, which may begin in front of the text. -/
theorem follows_restParameter (parameter : Ident) :
    Follows indent (restParameter parameter)
      (restParameter (parameter.shift indent.width)) := by
  rw [restParameter, restParameter]
  refine Tracks.source (Tracks.gapStart.bind fun low low' hlow => ?_)
  have hdots : Text.isSolid "..." = true := by decide
  refine (Shifts.settle? fun _ => Indent.locateLast_low hlow hdots).bind fun found => ?_
  cases found with
  | none => exact follows_restElement parameter none
  | some offset =>
    exact (Shifts.symbolAt _ _).bind fun symbol => follows_restElement parameter (some symbol)

/-- The value lies behind the name in both texts. -/
theorem follows_defaultParameter (parameter : Ident) {value value' : Fragment}
    (h : value.Moved indent value') :
    Follows indent (defaultParameter parameter value)
      (defaultParameter (parameter.shift indent.width) value') := by
  obtain ⟨⟨start, finish⟩, text, isRest, isDefault⟩ := parameter
  obtain ⟨hbuild⟩ := h
  refine (Shifts.find _ _ _ _).bind fun equal => (Shifts.rangeSpan _ _).bind fun span => ?_
  refine (Shifts.identifier _ _ _).bind fun name => ?_
  exact Follows.enter (.leaf (.declaration (some equal)) span)
    ((Follows.attach name).andThen hbuild)

/-- The default value of a parameter is found by the name, which is not moved. -/
theorem lookup_moved {defaults defaults' : List (String × Fragment)}
    (h : List.Forall₂ (MovedDefault indent) defaults defaults') (name : String) :
    Option.Rel (Fragment.Moved indent) (defaults.lookup name) (defaults'.lookup name) := by
  induction h with
  | nil => exact .none
  | @cons value value' _ _ hvalue _ ih =>
    obtain ⟨key, fragment⟩ := value
    obtain ⟨key', fragment'⟩ := value'
    obtain ⟨hkey, hfragment⟩ := hvalue
    have hkey : key' = key := hkey
    subst hkey
    rw [List.lookup_cons, List.lookup_cons]
    cases name == key' with
    | true => exact .some hfragment
    | false => exact ih

section Function

variable {function function' : FunctionFragment} (h : function.Moved indent function')

include h

/-- Which kind of parameter it is depends on names and on the kind of the function. -/
theorem follows_parameter (parameter : Ident) :
    Follows indent (Rule.parameter function parameter)
      (Rule.parameter function' (parameter.shift indent.width)) := by
  obtain ⟨range, text, isRest, isDefault⟩ := parameter
  obtain @⟨_, _, _, _, _, _, _, defaults, defaults', _, _, _, -, hdefaults⟩ := h
  have hname : Follows indent (do attach (← identifier range.start range.finish text))
      (do attach (← identifier (indent.width + range.start) (indent.width + range.finish) text)) :=
    (Shifts.identifier _ _ _).bind fun node => Follows.attach node
  have hlookup := lookup_moved hdefaults text
  refine .ite Iff.rfl (fun _ => follows_restParameter _) fun _ => ?_
  dsimp only [Ident.shift]
  generalize defaults.lookup text = value at hlookup ⊢
  generalize defaults'.lookup text = value' at hlookup ⊢
  cases hlookup with
  | none =>
    cases isDefault with
    | true => exact (Follows.note _ _).andThen hname
    | false => exact hname
  | some hvalue =>
    cases isDefault with
    | true => exact follows_defaultParameter ⟨range, text, isRest, true⟩ hvalue
    | false => exact hname

/-- The parameters move one by one. -/
theorem follows_parameters (nameEnd : Nat) :
    Follows indent (parameters function nameEnd)
      (parameters function' (indent.width + nameEnd)) := by
  refine (shifts_parameterList h nameEnd).bind fun list => Follows.enter list ?_
  have hparameter := follows_parameter h
  obtain ⟨hbody, -⟩ := h
  exact Follows.forM_map _ hparameter

end Function

/-! ## Functions -/

/-- The keyword is looked for in front of the name, perhaps back into the blank space. -/
theorem shifts_functionKeyword (nameStart : Nat) :
    Shifts indent (functionKeyword nameStart) (functionKeyword (indent.width + nameStart))
      (indent.width + ·) := by
  refine Tracks.source (Tracks.gapStart.bind fun low low' hlow => ?_)
  exact Shifts.settle fun _ => Indent.locateWordBefore_moved (by decide) hlow

/-- Of several places where a function may start, the same one is taken. -/
theorem shifts_functionStart {function function' : FunctionFragment}
    {member member' : Option MemberFragment} (h : function.Moved indent function')
    (hm : Option.Rel (MemberFragment.Moved indent) member member') :
    Shifts indent (functionStart function member) (functionStart function' member')
      (indent.width + ·) := by
  obtain ⟨hbody, -⟩ := h
  cases hm with
  | some hm =>
    obtain ⟨-, -, -, -⟩ := hm
    exact .pure (Nat.add_min_add_left _ _ _)
  | none =>
    refine .ite Iff.rfl (fun _ => .pure rfl) fun _ => ?_
    exact .ite Iff.rfl (fun _ => shifts_functionKeyword _) fun _ => .pure rfl

/-- The place of a missing name is where the name would start. -/
theorem follows_functionName {function function' : FunctionFragment}
    {member member' : Option MemberFragment} (h : function.Moved indent function')
    (hm : Option.Rel (MemberFragment.Moved indent) member member') :
    Follows indent (functionName function member) (functionName function' member') := by
  obtain ⟨hbody, -⟩ := h
  cases hm with
  | some hm => exact follows_key hm
  | none =>
    refine .ite Iff.rfl (fun _ => .pure trivial) fun _ => ?_
    refine .ite Iff.rfl (fun _ => Follows.attach (.empty _)) fun _ => ?_
    exact (Shifts.identifier _ _ _).bind fun node => Follows.attach node

/-- There is no place in the kind of a function. -/
theorem functionKind_shift {function function' : FunctionFragment}
    (h : function.Moved indent function') (isStatic : Bool) :
    (functionNodeKind function isStatic).shift indent.width =
      functionNodeKind function' isStatic := by
  obtain @⟨_, _, kind, _, _, _, _, _, _, _, _, _, _, _⟩ := h
  cases kind <;> rfl

/-- The later one of two ends is the same one after both have moved. -/
theorem shifts_functionNode {function function' : FunctionFragment}
    {member member' : Option MemberFragment} (h : function.Moved indent function')
    (hm : Option.Rel (MemberFragment.Moved indent) member member') :
    Shifts indent (functionNode function member) (functionNode function' member')
      (Node.shift indent.width) := by
  have hname := follows_functionName h hm
  have hparameters := follows_parameters h
  have hkind := functionKind_shift h (member.any (·.isStatic))
  refine (shifts_functionStart h hm).bind fun start => ?_
  obtain ⟨hbody, -⟩ := h
  have hbuild := BlockFragment.follows_build hbody
  obtain ⟨-⟩ := hbody
  dsimp only [Range.shift]
  rw [Nat.add_max_add_left]
  refine (Shifts.rangeSpan _ _).bind fun span => ?_
  cases hm with
  | none => exact Shifts.withinLeaf hkind span (hname.andThen ((hparameters _).andThen hbuild))
  | some hm =>
    obtain ⟨hkey, -, -, -⟩ := hm
    obtain ⟨-⟩ := hkey
    exact Shifts.withinLeaf hkind span (hname.andThen ((hparameters _).andThen hbuild))

/-! ## Exports -/

/-- The keyword of an export statement may be the first word of the text. -/
theorem shifts_wrapExport (node : Node) (isDefault : Bool) {windowStart windowStart' : Nat}
    (hlow : indent.Low windowStart windowStart') :
    Shifts indent (wrapExport node isDefault windowStart)
      (wrapExport (node.shift indent.width) isDefault windowStart') (Node.shift indent.width) := by
  have hword : Text.isSolid "export" = true := by decide
  unfold wrapExport
  rw [node.start_shift, node.last_shift]
  refine (Shifts.findLastWord? hword _ hlow _).bind fun keyword => ?_
  dsimp only
  rw [start_getD_moved]
  refine (Shifts.spanBetween _ _).bind fun span => .pure ?_
  cases node
  rfl

/-- The status is that of a name, and names do not move. -/
theorem shifts_exportIf (status : ExportStatus) (node : Node) {windowStart windowStart' : Nat}
    (hlow : indent.Low windowStart windowStart') :
    Shifts indent (exportIf status node windowStart)
      (exportIf status (node.shift indent.width) windowStart') (Node.shift indent.width) :=
  .ite Iff.rfl (fun _ => shifts_wrapExport node _ hlow) fun _ => .pure rfl

/-- That the next name is to be skipped is said in both runs. -/
theorem follows_functionExpression {function function' : FunctionFragment}
    (h : function.Moved indent function') :
    Follows indent (functionExpression function) (functionExpression function') := by
  refine (Follows.note _ _).andThen (Tracks.gapStart.bind fun start start' hlow => ?_)
  have hnode : Shifts indent (functionNode function none) (functionNode function' none)
      (Node.shift indent.width) := shifts_functionNode h .none
  obtain ⟨-, -⟩ := h
  refine hnode.bind fun node => ?_
  have hrest : ∀ (declared : Bool) (status : ExportStatus), Follows indent
      (do
        attach (← exportIf status node start)
        if declared then skipNextName)
      (do
        attach (← exportIf status (node.shift indent.width) start')
        if declared then skipNextName) := by
    intro declared status
    refine (shifts_exportIf status node hlow).bind fun node => (Follows.attach node).andThen ?_
    exact .ite Iff.rfl (fun _ => Follows.skipNextName) fun _ => .pure trivial
  refine .ite Iff.rfl (fun _ => ?_) fun _ => hrest _ .hidden
  exact (Shifts.exportStatus _).bind fun status => hrest _ status

/-! ## Members -/

/-- The colon is looked for between key and value, both of which have moved. -/
theorem follows_pair {member member' : MemberFragment} {value value' : Fragment}
    (h : member.Moved indent member') (hv : value.Moved indent value') :
    Follows indent (pair member value) (pair member' value') := by
  have hkey := follows_key h
  obtain ⟨hbuildKey, -, -, -⟩ := h
  obtain ⟨hname⟩ := hbuildKey
  obtain ⟨hvalue⟩ := hv
  unfold pair
  dsimp only
  rw [Range.finish_max_shift]
  refine (Shifts.rangeSpan _ _).bind fun span => ?_
  refine .ite (by rw [beq_iff_eq, beq_iff_eq, Range.shift_inj]) (fun _ => ?_) fun _ => ?_
  · exact Follows.enter (.leaf (.nameValuePair none) span) hname
  · refine (Shifts.find _ _ _ _).bind fun colon => ?_
    exact Follows.enter (.leaf (.nameValuePair (some colon)) span) (hkey.andThen hvalue)

/-- The word of an accessor is looked for in front of its name, perhaps back into the blank
space. -/
theorem shifts_accessorRange {member member' : MemberFragment}
    {function function' : FunctionFragment} (h : member.Moved indent member')
    (hf : function.Moved indent function') (accessor : Accessor) (ownsKey : Bool) :
    Shifts indent (accessorRange member function accessor ownsKey)
      (accessorRange member' function' accessor ownsKey) (Range.shift indent.width) := by
  have hword : Text.isSolid accessor.keyword = true := by
    cases accessor <;> decide
  obtain ⟨-, -, -, -⟩ := h
  obtain ⟨hbody, -⟩ := hf
  obtain ⟨-⟩ := hbody
  unfold accessorRange
  dsimp only
  rw [Range.finish_max_shift]
  refine .ite Iff.rfl (fun _ => .pure ?_) fun _ => ?_
  · exact congrArg (Range.mk _) (Nat.add_max_add_left _ _ _)
  · refine Tracks.source (Tracks.gapStart.bind fun start start' hlow => ?_)
    exact (Shifts.settle fun _ => Indent.locateLastWord_low hlow hword).bind fun start => .pure rfl

/-- The same children of the function are taken over. -/
theorem follows_accessorParts {function function' : FunctionFragment}
    (h : function.Moved indent function') (accessor : Accessor) :
    Follows indent (accessorParts function accessor) (accessorParts function' accessor) := by
  refine (shifts_functionNode h .none).bind fun node => ?_
  dsimp only
  rw [node.children_shift, ← List.map_reverse, ← List.map_drop, List.head?_map, List.head?_map,
    Option.toList_map, Option.toList_map]
  have hlast : Follows indent (node.children.reverse.head?.toList.forM attach)
      ((node.children.reverse.head?.toList.map (Node.shift indent.width)).forM attach) :=
    Follows.forM_map _ fun part => Follows.attach part
  refine .ite Iff.rfl (fun _ => ?_) fun _ => hlast
  exact (Follows.forM_map _ fun part => Follows.attach part).andThen hlast

/-- The accessor that owns the key is the same one. -/
theorem follows_accessor {member member' : MemberFragment} {function function' : FunctionFragment}
    (h : member.Moved indent member') (hf : function.Moved indent function') (accessor : Accessor)
    (ownsKey : Bool) :
    Follows indent (Rule.accessor member function accessor ownsKey)
      (Rule.accessor member' function' accessor ownsKey) := by
  have hkind : accessor.nodeKind.shift indent.width = accessor.nodeKind := by
    cases accessor <;> rfl
  have hparts := follows_accessorParts hf accessor
  rw [Rule.accessor, Rule.accessor]
  refine (shifts_accessorRange h hf accessor ownsKey).bind fun range => ?_
  refine (Shifts.rangeSpan _ _).bind fun span => Follows.enterLeaf hkind span ?_
  obtain ⟨-, -⟩ := hf
  refine .ite Iff.rfl (fun _ => (follows_key h).andThen hparts) fun _ => ?_
  exact (Shifts.identifier _ _ _).bind fun node => (Follows.attach node).andThen hparts

/-- The accessor of a member, and the same one further to the right. -/
def MovedAccessor (indent : Indent) (written moved : FunctionFragment × Accessor) : Prop :=
  written.1.Moved indent moved.1 ∧ moved.2 = written.2

/-- The accessors of a member come in the same order after the move. -/
theorem movedAccessor_accessors {member member' : MemberFragment}
    (h : member.Moved indent member') :
    List.Forall₂ (MovedAccessor indent) member.accessors member'.accessors := by
  have hlist : ∀ (kind : Accessor) {function function' : Option FunctionFragment},
      Option.Rel (FunctionFragment.Moved indent) function function' →
      List.Forall₂ (MovedAccessor indent) (function.toList.map fun function => (function, kind))
        (function'.toList.map fun function => (function, kind)) := by
    rintro kind _ _ (hfunction | -)
    · exact .cons ⟨hfunction, rfl⟩ .nil
    · exact .nil
  have hle : ∀ a b a' b' : FunctionFragment × Accessor, MovedAccessor indent a a' →
      MovedAccessor indent b b' →
      decide (a.1.name.range.start ≤ b.1.name.range.start) =
        decide (a'.1.name.range.start ≤ b'.1.name.range.start) := by
    rintro ⟨_, _⟩ ⟨_, _⟩ ⟨_, _⟩ ⟨_, _⟩ ⟨⟨-, -⟩, -⟩ ⟨⟨-, -⟩, -⟩
    exact decide_eq_decide.2 Nat.add_le_add_iff_left.symm
  obtain ⟨-, -, hgetter, hsetter⟩ := h
  exact forall₂_mergeSort hle (List.rel_append (hlist .getter hgetter) (hlist .setter hsetter))

/-- They are numbered in the same way, so the first one owns the key in both runs. -/
theorem follows_accessors {member member' : MemberFragment} (h : member.Moved indent member') :
    Follows indent (accessors member) (accessors member') := by
  rw [accessors, accessors]
  refine Follows.forM ((forall₂_zipIdx (movedAccessor_accessors h) 0).imp ?_)
  rintro ⟨⟨function, kind⟩, place⟩ ⟨⟨function', kind'⟩, place'⟩ ⟨⟨hfunction, rfl⟩, rfl⟩
  exact follows_accessor h hfunction _ _

/-- A member has the same parts after the move. -/
theorem follows_member {member member' : MemberFragment} (h : member.Moved indent member') :
    Follows indent (Rule.member member) (Rule.member member') := by
  have haccessors := follows_accessors h
  have hfunction : ∀ {function function' : FunctionFragment}, function.Moved indent function' →
      Shifts indent (functionNode function (some member)) (functionNode function' (some member'))
        (Node.shift indent.width) :=
    fun hfunction => shifts_functionNode hfunction (.some h)
  have hpair : ∀ {value value' : Fragment}, value.Moved indent value' →
      Follows indent (pair member value) (pair member' value') := follows_pair h
  obtain ⟨-, hvalue, hgetter, hsetter⟩ := h
  have hsome : ∀ {function function' : Option FunctionFragment},
      Option.Rel (FunctionFragment.Moved indent) function function' →
      function'.isSome = function.isSome := by
    rintro _ _ (_ | _) <;> rfl
  refine .ite ?_ (fun _ => haccessors) fun _ => ?_
  · rw [hsome hgetter, hsome hsetter]
  · rcases hvalue with (⟨hmethod⟩ | ⟨hexpression⟩) | -
    · exact (hfunction hmethod).bind fun node => Follows.attach node
    · exact hpair hexpression
    · exact (Shifts.rangeSpan _ _).bind fun span => .throw

/-! ## Classes -/

/-- The elements are sorted by their places, and their order stays. -/
theorem follows_classBody {definition definition' : ClassFragment}
    (h : definition.Moved indent definition') :
    Follows indent (classBody definition) (classBody definition') := by
  obtain @⟨range, name, heritage, heritage', elements, elements', hheritage, helements⟩ := h
  have hbody : ∀ start : Nat, Follows indent
      (do
        let lbrace ← find .leftBrace "Class" start range.finish
        let rbrace ← findEndingAt .rightBrace "Class" (lbrace.span.last + 1) range.finish
        let span ← mergeSpans lbrace.span rbrace.span
        let members := elements.mergeSort fun a b => a.range.start ≤ b.range.start
        enter (.leaf (.statements (some lbrace) (some rbrace)) span) (members.forM (·.build)))
      (do
        let lbrace ← find .leftBrace "Class" (indent.width + start) (indent.width + range.finish)
        let rbrace ← findEndingAt .rightBrace "Class" (lbrace.span.last + 1)
          (indent.width + range.finish)
        let span ← mergeSpans lbrace.span rbrace.span
        let members := elements'.mergeSort fun a b => a.range.start ≤ b.range.start
        enter (.leaf (.statements (some lbrace) (some rbrace)) span)
          (members.forM (·.build))) := by
    intro start
    -- Members are sorted by their starts, and moving all of them alike keeps every comparison.
    have hle : ∀ a b a' b' : ElementFragment, a.Moved indent a' → b.Moved indent b' →
        decide (a.range.start ≤ b.range.start) = decide (a'.range.start ≤ b'.range.start) := by
      rintro _ _ _ _ ⟨-⟩ ⟨-⟩
      exact decide_eq_decide.2 Nat.add_le_add_iff_left.symm
    have hbuild : ∀ a a' : ElementFragment, a.Moved indent a' →
        Follows indent a.build a'.build := by
      rintro _ _ ⟨h⟩
      exact h
    refine (Shifts.find _ _ _ _).bind fun lbrace => ?_
    refine (Shifts.findEndingAt _ _ (lbrace.span.last + 1) _).bind fun rbrace => ?_
    refine (Shifts.mergeSpans _ _).bind fun span => ?_
    refine Follows.enter (.leaf (.statements (some lbrace) (some rbrace)) span) ?_
    exact Follows.forM ((forall₂_mergeSort hle helements).imp hbuild)
  -- Where the body is searched from depends on the last part written in front of it.
  cases hheritage with
  | some hsuper =>
    obtain ⟨-⟩ := hsuper
    exact hbody _
  | none =>
    cases name with
    | some name => exact hbody name.range.finish
    | none =>
      unfold classBody
      dsimp only [Option.map_none]
      rw [Range.start_shift_add]
      exact hbody _

/-- The name is put in front of the other children by their number, which is the same. -/
theorem shifts_classNode {definition definition' : ClassFragment}
    (h : definition.Moved indent definition') (name : Option Ident) :
    Shifts indent (classNode definition name)
      (classNode definition' (name.map (·.shift indent.width))) (Node.shift indent.width) := by
  have hclass := follows_classBody h
  obtain ⟨hheritage, -⟩ := h
  have hsuper := Fragment.follows_buildOptional hheritage
  refine (Follows.note _ _).andThen ((Shifts.rangeSpan _ _).bind fun span => ?_)
  refine Shifts.within (.leaf .classDefinition span) (hsuper.andThen (hclass.andThen ?_))
  cases name with
  | none => exact .pure trivial
  | some name =>
    refine (Shifts.identifier _ _ _).bind fun node => (Follows.attach node).andThen ?_
    refine Shifts.getStack.bind fun stack => ?_
    refine .ite (by rw [stack.childCount_shift]) (fun _ => ?_) fun _ => ?_
    · exact Follows.reorder _
    · exact Follows.reorder _

/-- The class is attached after it has been closed. -/
theorem follows_classExpression {definition definition' : ClassFragment}
    (h : definition.Moved indent definition') :
    Follows indent (classExpression definition) (classExpression definition') := by
  have hnode := shifts_classNode h definition.name
  obtain ⟨-, -⟩ := h
  exact hnode.bind fun node => Follows.attach node

/-! ## Declarators -/

section Binding

variable {binding binding' : BindingFragment} (h : binding.Moved indent binding')

include h

/-- There is a value in both runs or in none. -/
theorem follows_valueAndName :
    Follows indent (valueAndName binding) (valueAndName binding') := by
  obtain ⟨hinit⟩ := h
  exact (Fragment.follows_buildOptional hinit).andThen (follows_ident _)

/-- The children are counted, and the place of a missing value is the end of the span. -/
theorem follows_declarationParts (span : Span) :
    Follows indent (declarationParts binding span)
      (declarationParts binding' (span.shift indent.width)) := by
  refine (follows_valueAndName h).andThen (Shifts.getStack.bind fun stack => ?_)
  rw [stack.childCount_shift]
  split
  · exact Follows.reorder _
  · exact Follows.attach (.empty _)
  · exact .throw

/-- The declarator ends with the later one of value, range and name. -/
theorem shifts_declaration :
    Shifts indent (declaration binding) (declaration binding') (Node.shift indent.width) := by
  have hparts := follows_declarationParts h
  obtain ⟨hinit⟩ := h
  unfold declaration
  cases hinit with
  | none =>
    dsimp only [Ident.shift, Range.shift]
    rw [Nat.add_max_add_left]
    refine (Shifts.rangeSpan _ _).bind fun span => ?_
    rw [pure_bind, pure_bind]
    exact Shifts.within (.leaf (.declaration none) span) (hparts span)
  | some hvalue =>
    obtain ⟨-⟩ := hvalue
    dsimp only [Ident.shift, Range.shift]
    rw [Nat.add_max_add_left, Nat.add_max_add_left]
    refine (Shifts.rangeSpan _ _).bind fun span => (Shifts.find _ _ _ _).bind fun equal => ?_
    rw [pure_bind, pure_bind]
    exact Shifts.within (.leaf (.declaration (some equal)) span) (hparts span)

end Binding

/-- The span is merged with that of the declarator. -/
theorem shifts_addDeclarator (declarator node : Node) :
    Shifts indent (addDeclarator declarator node)
      (addDeclarator (declarator.shift indent.width) (node.shift indent.width))
      (Node.shift indent.width) := by
  unfold addDeclarator
  rw [node.span_shift, declarator.span_shift, node.children_shift]
  refine (Shifts.mergeSpans _ _).bind fun span => .pure ?_
  rw [Node.withChildren_shift, List.map_append, List.map_singleton]

/-! ## Variables -/

/-- What the statement exports is its last child in both runs. -/
theorem shifts_extendVariables (statement declarator : Node) :
    Shifts indent (extendVariables statement declarator)
      (extendVariables (statement.shift indent.width) (declarator.shift indent.width))
      (Node.shift indent.width) := by
  refine .ite ?_ (fun _ => shifts_addDeclarator _ _) fun _ => ?_
  · rw [statement.kind_shift, NodeKind.isVar_shift]
  · rw [statement.span_shift, declarator.span_shift, statement.lastChild?_shift, Option.toList_map,
      statement.children_shift]
    refine (Shifts.mergeSpans _ _).bind fun span => ?_
    refine (Shifts.mapM (shifts_addDeclarator declarator) _).bind fun exported => .pure ?_
    rw [Node.withChildren_shift, List.map_append, List.map_dropLast]

section Binding

variable {binding binding' : BindingFragment} (h : binding.Moved indent binding')

include h

/-- Whether there is a statement to continue depends on its kind. -/
theorem follows_continuedVariable :
    Follows indent (continuedVariable binding) (continuedVariable binding') := by
  have hdeclaration := shifts_declaration h
  obtain ⟨-⟩ := h
  refine hdeclaration.bind fun declarator => (Shifts.terminates _ _).bind fun terminated => ?_
  refine Shifts.getStack.bind fun stack => ?_
  rw [stack.lastChild?_shift]
  cases stack.lastChild? with
  | none => exact .throw
  | some statement =>
    refine .ite (by rw [statement.declaresVariables_shift]) (fun _ => ?_) fun _ => .throw
    refine (shifts_extendVariables statement declarator).bind fun extended => ?_
    dsimp only
    rw [← extended.withSemicolon_shift]
    exact Follows.replaceLast _

/-- The keyword has moved, and so has the declarator behind it. -/
theorem follows_variableStatement (keywordStart : Nat) {windowStart windowStart' : Nat}
    (hlow : indent.Low windowStart windowStart') :
    Follows indent (variableStatement binding keywordStart windowStart)
      (variableStatement binding' (indent.width + keywordStart) windowStart') := by
  have hdeclaration := shifts_declaration h
  obtain @⟨range, name, init, init', kind, isFunctionDeclaration, -⟩ := h
  refine (Shifts.symbolAt _ _).bind fun keyword => hdeclaration.bind fun declarator => ?_
  rw [declarator.start_shift, declarator.last_shift, Nat.add_min_add_left]
  refine (Shifts.spanBetween _ _).bind fun span => ?_
  have hattach : ∀ node : Node, Follows indent
      (do
        let node := { node with ownsSemicolon := ← terminates node range.finish }
        let status ← exportStatus name.name
        attach (← exportIf status node windowStart))
      (do
        let node := node.shift indent.width
        let node :=
          { node with ownsSemicolon := ← terminates node (indent.width + range.finish) }
        let status ← exportStatus name.name
        attach (← exportIf status node windowStart')) := by
    intro node
    refine (Shifts.terminates node _).bind fun terminated => ?_
    refine (Shifts.exportStatus _).bind fun status => ?_
    rw [← node.withSemicolon_shift]
    exact (shifts_exportIf status _ hlow).bind fun node => Follows.attach node
  exact hattach (.branch (.var keyword) span [declarator])

end Binding

/-- No keyword has a blank in it, so none is found in the blank space. -/
theorem isSolid_keyword (kind : BindingKind) : Text.isSolid kind.keyword = true := by
  cases kind <;> decide

/-- A keyword of its own never begins in the blank space. -/
theorem shifts_ownKeyword (kind : BindingKind) {windowStart windowStart' : Nat}
    (hlow : indent.Low windowStart windowStart') (nameStart : Nat) :
    Shifts indent (ownKeyword kind.keyword windowStart nameStart)
      (ownKeyword kind.keyword windowStart' (indent.width + nameStart))
      (Option.map (indent.width + ·)) := by
  have hword := isSolid_keyword kind
  refine Tracks.source ?_
  dsimp only
  rw [indent.hasWordBefore_moved hword, indent.findLastWord_low hlow _ hword]
  by_cases hfound : (kind.keyword.utf8ByteSize + 1 ≤ nameStart &&
      indent.source.hasWordAt kind.keyword (nameStart - (kind.keyword.utf8ByteSize + 1))) = true
  · rw [if_pos hfound, if_pos hfound]
    have hle := of_decide_eq_true (Bool.and_eq_true_iff.1 hfound).1
    exact .pure (congrArg some (Nat.add_sub_assoc hle _))
  · rw [if_neg hfound, if_neg hfound]
    exact .pure rfl

/-- A keyword is found in both texts or in none, since there is none in the blank space. -/
theorem follows_variableBinding {binding binding' : BindingFragment}
    (h : binding.Moved indent binding') :
    Follows indent (variableBinding binding) (variableBinding binding') := by
  have hstatement : ∀ (keywordStart : Nat) {windowStart windowStart' : Nat},
      indent.Low windowStart windowStart' → Follows indent
        (variableStatement binding keywordStart windowStart)
        (variableStatement binding' (indent.width + keywordStart) windowStart') :=
    fun keywordStart _ _ hlow => follows_variableStatement h keywordStart hlow
  have hcontinued := follows_continuedVariable h
  obtain ⟨-⟩ := h
  refine Tracks.gapStart.bind fun windowStart windowStart' hlow => ?_
  refine (shifts_ownKeyword _ hlow _).bind fun offset => ?_
  cases offset with
  | some offset => exact hstatement offset hlow
  | none =>
    refine Shifts.getStack.bind fun stack => .ite ?_ (fun _ => hcontinued) fun _ => ?_
    · rw [stack.lastChild?_shift, Option.any_map]
      exact iff_of_eq (congrArg (stack.lastChild?.any · = true)
        (funext fun node => node.declaresVariables_shift _))
    · refine Tracks.source ?_
      refine (Shifts.settle fun _ => Indent.locateLastWord_low hlow (isSolid_keyword _)).bind ?_
      exact fun offset => hstatement offset hlow

/-! ## Other bindings -/

/-- The export statement begins with its keyword if this is found, or else with the binding. -/
theorem follows_defaultExport {binding binding' : BindingFragment}
    (h : binding.Moved indent binding') :
    Follows indent (defaultExport binding) (defaultExport binding') := by
  obtain @⟨range, name, init, init', kind, isFunctionDeclaration, hinit⟩ := h
  cases hinit with
  | none => exact (Shifts.rangeSpan _ _).bind fun span => .throw
  | some hvalue =>
    have hbuild := Fragment.follows_build hvalue
    obtain ⟨-⟩ := hvalue
    have hword : Text.isSolid "export" = true := by decide
    refine Tracks.gapStart.bind fun windowStart windowStart' hlow => ?_
    refine (Shifts.findLastWord? hword _ hlow _).bind fun keyword => ?_
    dsimp only [Range.shift]
    rw [start_getD_moved, Nat.add_max_add_left]
    refine (Shifts.rangeSpan _ _).bind fun span => ?_
    refine (Shifts.within (.leaf (.exportStatement keyword true none) span) hbuild).bind ?_
    refine fun node => Shifts.takeSkip.bind fun _ => (Shifts.terminates _ _).bind fun flag => ?_
    rw [← node.withSemicolon_shift]
    exact Follows.attach _

/-- The class is wrapped after it has been closed. -/
theorem follows_exportedClass {definition definition' : ClassFragment}
    (h : definition.Moved indent definition') {windowStart windowStart' : Nat}
    (hlow : indent.Low windowStart windowStart') (status : ExportStatus) (name : Option Ident) :
    Follows indent (exportedClass definition windowStart status name)
      (exportedClass definition' windowStart' status (name.map (·.shift indent.width))) := by
  refine (shifts_classNode h name).bind fun node => ?_
  exact (shifts_exportIf status node hlow).bind fun node => Follows.attach node

/-- The name of the class decides on how it is exported. -/
theorem follows_classDeclaration (name : Ident) {definition definition' : ClassFragment}
    (h : definition.Moved indent definition') :
    Follows indent (classDeclaration name definition)
      (classDeclaration (name.shift indent.width) definition') := by
  rw [classDeclaration, classDeclaration]
  refine (Follows.note _ _).andThen (Tracks.gapStart.bind fun start start' hlow => ?_)
  refine .ite Iff.rfl (fun _ => follows_exportedClass h hlow ⟨true, true⟩ none) fun _ => ?_
  exact (Shifts.exportStatus _).bind fun status =>
    follows_exportedClass h hlow status (some name)

/-- Which way a binding goes is decided by its name and its flags. -/
theorem follows_binding {binding binding' : BindingFragment} (h : binding.Moved indent binding') :
    Follows indent (Rule.binding binding) (Rule.binding binding') := by
  have hexport := follows_defaultExport h
  have hvalue := follows_valueAndName h
  have hvariable := follows_variableBinding h
  obtain ⟨-⟩ := h
  refine (Follows.note _ _).andThen (.ite Iff.rfl (fun _ => hexport) fun _ => ?_)
  exact .ite Iff.rfl (fun _ => hvalue) fun _ => hvariable

/-! ## Blocks -/

/-- The statements move one by one, between braces that have moved. -/
theorem follows_bracedBlock (range : Range) {statements statements' : List StatementFragment}
    (h : List.Forall₂ (StatementFragment.Moved indent) statements statements') :
    Follows indent (bracedBlock range statements)
      (bracedBlock (range.shift indent.width) statements') := by
  refine (Shifts.rangeSpan _ _).bind fun _ => ?_
  refine (Shifts.findAtOrAfter _ _ _ _).bind fun lbrace => ?_
  refine (Shifts.findEndingAt _ _ (lbrace.span.last + 1) _).bind fun rbrace => ?_
  refine (Shifts.mergeSpans _ _).bind fun span => ?_
  refine Follows.enter (.leaf (.statements (some lbrace) (some rbrace)) span) ?_
  exact follows_statements h

/-- The last statement is the same one. -/
theorem follows_parameterBlock (range : Range) {statements statements' : List StatementFragment}
    (h : List.Forall₂ (StatementFragment.Moved indent) statements statements') :
    Follows indent (parameterBlock range statements)
      (parameterBlock (range.shift indent.width) statements') := by
  have hlast := rel_getLast? h
  unfold parameterBlock
  generalize statements.getLast? = body at hlast ⊢
  generalize statements'.getLast? = body' at hlast ⊢
  cases hlast with
  | none => exact (Shifts.rangeSpan _ _).bind fun span => .throw
  | some hbody => exact StatementFragment.follows_build hbody

/-- To test the kind of a node no place is needed. -/
theorem follows_expectVar (node : Node) :
    Follows indent (expectVar node) (expectVar (node.shift indent.width)) := by
  refine .ite ?_ (fun _ => .throw) fun _ => .pure trivial
  rw [node.kind_shift, NodeKind.isVar_shift]

/-- The span is merged with those of all declarators. -/
theorem shifts_appendDeclarators (combined node : Node) :
    Shifts indent (appendDeclarators combined node)
      (appendDeclarators (combined.shift indent.width) (node.shift indent.width))
      (Node.shift indent.width) := by
  have hmerge : ∀ (span : Span) (child : Node), Shifts indent (mergeSpans span child.span)
      (mergeSpans (span.shift indent.width) (child.shift indent.width).span)
      (Span.shift indent.width) := by
    intro span child
    rw [child.span_shift]
    exact Shifts.mergeSpans _ _
  have hfold : Shifts indent
      (node.children.foldlM (fun span child => mergeSpans span child.span) combined.span)
      ((node.children.map (Node.shift indent.width)).foldlM
        (fun span child => mergeSpans span child.span) (combined.span.shift indent.width))
      (Span.shift indent.width) := by
    refine Shifts.foldlM ?_ _ _
    exact hmerge
  unfold appendDeclarators
  rw [node.children_shift, combined.span_shift, combined.children_shift]
  refine (follows_expectVar node).andThen (hfold.bind fun span => .pure ?_)
  rw [Node.withChildren_shift, List.map_append]

/-- There are declarations to combine in both runs or in none. -/
theorem shifts_combineDeclarations (declarations : List Node) :
    Shifts indent (combineDeclarations declarations)
      (combineDeclarations (declarations.map (Node.shift indent.width)))
      (Option.map (Node.shift indent.width)) := by
  cases declarations with
  | nil => exact .pure rfl
  | cons first rest =>
    refine (follows_expectVar first).andThen ?_
    refine (Shifts.foldlM shifts_appendDeclarators rest first).bind fun combined => .pure ?_
    rw [Option.map_some, Node.shift_eq _ combined, Node.shift_eq, List.map_map, List.map_map]
    refine congrArg (fun children => some (Node.mk _ _ children false)) ?_
    exact List.map_congr_left fun child _ => (child.withSemicolon_shift _ false).symm

/-- The places that are compared have all moved by the same width. -/
theorem inHeader_moved {loop loop' : LoopFragment} {statement statement' : StatementFragment}
    (hl : loop.Moved indent loop') (hs : statement.Moved indent statement') :
    inHeader loop' statement' = inHeader loop statement := by
  obtain ⟨-, -, -, hbody⟩ := hl
  obtain ⟨-⟩ := hbody
  obtain ⟨-, -⟩ := hs
  simp only [inHeader, Range.shift, Nat.add_lt_add_iff_left, Nat.add_le_add_iff_left]

/-- The declarations are collected, combined and handed to the loop. -/
theorem follows_declaringLoop {loop loop' : LoopFragment} (h : loop.Moved indent loop')
    {declarations declarations' : List StatementFragment}
    (hd : List.Forall₂ (StatementFragment.Moved indent) declarations declarations') :
    Follows indent (declaringLoop loop declarations) (declaringLoop loop' declarations') := by
  have hloop := follows_forLoop h
  obtain ⟨-, -, -, hbody⟩ := h
  obtain ⟨-⟩ := hbody
  refine (Follows.note _ _).andThen ((Shifts.rangeSpan _ _).bind fun span => ?_)
  refine (Shifts.within (.leaf (.statements none none) span) (follows_statements hd)).bind ?_
  intro collected
  rw [collected.children_shift]
  exact (shifts_combineDeclarations _).bind fun declaration => hloop declaration

/-- The statements are split at the same one. -/
theorem follows_syntheticBlock {statements statements' : List StatementFragment}
    (h : List.Forall₂ (StatementFragment.Moved indent) statements statements') :
    Follows indent (syntheticBlock statements) (syntheticBlock statements') := by
  have hloop : Option.Rel (LoopFragment.Moved indent) (statements.getLast?.bind (·.loop?))
      (statements'.getLast?.bind (·.loop?)) := by
    have hlast := rel_getLast? h
    generalize statements.getLast? = last at hlast ⊢
    generalize statements'.getLast? = last' at hlast ⊢
    rcases hlast with ⟨hloop, -⟩ | -
    · exact hloop
    · exact .none
  unfold syntheticBlock
  generalize statements.getLast?.bind (·.loop?) = loop at hloop ⊢
  generalize statements'.getLast?.bind (·.loop?) = loop' at hloop ⊢
  cases hloop with
  | none => exact follows_statements h
  | @some loop loop' hloop =>
    have hrest : List.Forall₂ (StatementFragment.Moved indent) statements.dropLast
        statements'.dropLast := by
      rw [List.dropLast_eq_take, List.dropLast_eq_take, h.length_eq]
      exact List.forall₂_take _ h
    have hmoved : (statements'.dropLast.reverse.takeWhile (inHeader loop')).length =
        (statements.dropLast.reverse.takeWhile (inHeader loop)).length :=
      length_takeWhile_eq (fun _ _ hs => inHeader_moved hloop hs)
        (List.forall₂_reverse_iff.2 hrest)
    dsimp only
    rw [hmoved, ← hrest.length_eq]
    refine (follows_statements (List.forall₂_take _ hrest)).andThen ?_
    have hdeclarations := List.forall₂_drop (statements.dropLast.length -
      (statements.dropLast.reverse.takeWhile (inHeader loop)).length) hrest
    refine .ite ?_ (fun _ => follows_forLoop hloop none) fun _ => ?_
    · rw [List.isEmpty_iff_length_eq_zero, List.isEmpty_iff_length_eq_zero, hdeclarations.length_eq]
    · exact follows_declaringLoop hloop hdeclarations

/-- The kind of the block is no place and stays as it is. -/
theorem follows_block (range : Range) (kind : BlockKind)
    {statements statements' : List StatementFragment}
    (h : List.Forall₂ (StatementFragment.Moved indent) statements statements') :
    Follows indent (block range kind statements)
      (block (range.shift indent.width) kind statements') := by
  cases kind with
  | braced => exact follows_bracedBlock range h
  | parameter => exact follows_parameterBlock range h
  | synthetic => exact follows_syntheticBlock h

end Rule

end Concretion
