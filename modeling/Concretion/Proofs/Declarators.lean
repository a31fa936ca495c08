import Concretion.Proofs.Written.Variables

/-!
# Declarators

What becomes of the variables of a page, whose bindings are recovered one after the other. A binding
goes on with the node in front of it unless a keyword is found between that node and its name, or
in front of its name at the distance of the keyword and one more byte. The second look is not
bounded by the node in front: behind a comma without a space it sees the end of the value before.

- `yields_further`: one declarator more, with the group in front of it as what is carried along.
- `VariableStatement.yields`: a statement comes to its nodes.
- `declarators_share_node_iff`: statements come to their nodes one after the other, and a statement
  has one node for all declarators just if the second look sees no keyword.
-/

namespace Concretion

open Text Mark Recover Written

namespace Written

/-! ## Declarators one after the other -/

section Statements

variable {scope : Scope} {page : Page} {stack after : Stack} {kind : BindingKind} {group : Group}
  {declaration : Declaration}

theorem Name.text_ne_defaultBindingName (name : Name) : name.text ≠ defaultBindingName := by
  intro h
  have hstar : '*' ∈ name.chars := by
    have hchars : name.chars = defaultBindingName.toList := by
      rw [← h, Name.text, String.toList_ofList]
    rw [hchars]
    decide
  have hword := name.word '*' hstar
  cases hword

/-- A declarator is a variable. -/
theorem Declaration.yields_recover
    (h : Yields scope stack (Rule.variableBinding (declaration.fragment kind)) () after) :
    Yields scope stack (declaration.binding kind).recover () after := by
  rw [declaration.recover_binding]
  refine (Yields.note _).bind ?_
  have hname : ((declaration.fragment kind).name.name == defaultBindingName) = false :=
    beq_eq_false_iff_ne.2 declaration.declarator.name.text_ne_defaultBindingName
  rw [hname]
  exact h

/-- A declarator with a keyword in front of it begins a statement. -/
theorem Group.yields_variable (hlaid : group.Laid kind.keyword.toList) (hsingle : group.more = [])
    (hdeclaration : ∀ stack, Yields scope stack (Rule.declaration (group.first.fragment kind))
      group.first.node stack)
    (hkeyword : Yields scope stack
      (Rule.ownKeyword kind.keyword stack.gapStart group.first.offset) (some group.keyword) stack)
    (hstatus : ExportStatus.of scope.info group.first.declarator.name.text =
      ⟨group.exported.isSome, false⟩)
    (hexport : ∀ offset ∈ group.exported,
      scope.source.findLastWord "export" stack.gapStart group.keyword = some offset) :
    Yields scope stack (group.first.binding kind).recover ()
      (stack.attach (group.node scope.source kind)) :=
  Declaration.yields_recover (Yields.gapStart.bind (hkeyword.bind
    (group.yields_first hlaid hsingle hdeclaration hstatus hexport)))

theorem Group.gapStart_attach (source : Source) (hlaid : group.Laid kind.keyword.toList) :
    (stack.attach (group.node source kind)).gapStart = group.finish := by
  rw [Stack.gapStart, Stack.lastChild?_attach]
  dsimp only
  rw [(group.solid source hlaid).isPlaceholder, if_neg Bool.false_ne_true,
    group.last_node source hlaid]

/-- A declarator without one goes on with the statement before. -/
theorem Group.yields_further (hlaid : group.Laid kind.keyword.toList)
    (hoffset : group.finish ≤ declaration.offset)
    (hdeclaration : ∀ stack, Yields scope stack (Rule.declaration (declaration.fragment kind))
      declaration.node stack)
    (hkeyword : ∀ stack, Yields scope stack
      (Rule.ownKeyword kind.keyword group.finish declaration.offset) none stack) :
    Yields scope (stack.attach (group.node scope.source kind)) (declaration.binding kind).recover ()
      (stack.attach ((group.add declaration).node scope.source kind)) := by
  refine Declaration.yields_recover (Yields.gapStart.bind ?_)
  rw [group.gapStart_attach scope.source hlaid]
  refine (hkeyword _).bind (Yields.getStack.bind ?_)
  rw [Stack.lastChild?_attach, Option.any_some, group.declaresVariables_node scope.source kind,
    if_pos rfl]
  exact group.yields_continued hlaid hoffset hdeclaration

/-- The keywords that are looked for begin with a letter, and not with a parenthesis. -/
theorem Declarator.notMem_tail {word : String} {d : Char} {more : List Char}
    (hword : Keyword word d more) (declarator : Declarator) : .code d ∉ declarator.tail := by
  cases declarator with
  | bare name => exact List.not_mem_nil
  | valued name before after value =>
    refine value.not_mem_tail ?_
    rintro rfl
    cases hword.isAlpha

/-- Behind the end of a group are the closing parentheses of its last declarator. -/
theorem Group.finish_of_last {offset : Nat} {front outer : List Mark}
    (hfront : front = outer ++ group.last.declarator.marks)
    (hlast : group.last.offset = offset + size outer) :
    group.finish = offset + size (outer ++ group.last.declarator.body) ∧
      front = outer ++ group.last.declarator.body ++ group.last.declarator.tail := by
  constructor
  · rw [size_append, ← Nat.add_assoc, ← hlast]
    rfl
  · rw [hfront, Declarator.marks, List.append_assoc]

/-- What becomes of further declarators behind a group. Each of them goes on with the group in
front of it, or begins one of its own. -/
theorem yields_further (stack : Stack) (hsource : scope.source = page.source) {rest : List Further}
    {offset : Nat} {front outer : List Mark}
    (h : page.At offset (front ++ rest.flatMap Further.marks))
    (hfront : front = outer ++ group.last.declarator.marks)
    (hlast : group.last.offset = offset + size outer)
    (hlong : width kind.keyword.toList < size front) (hlaid : group.Laid kind.keyword.toList)
    (hapart : ∀ next ∈ rest, next.declarator.isApart)
    (hhidden : anyTaken kind.keyword.toList front rest = true → ∀ next ∈ rest,
      ExportStatus.of scope.info next.declarator.name.text = .hidden) :
    Yields scope (stack.attach (group.node scope.source kind))
        ((declarations (offset + size front) rest).forM fun declaration =>
          (declaration.binding kind).recover) ()
        (stack.attachAll ((groups kind.keyword.toList offset front group rest).map
          (·.node scope.source kind))) ∧
      (stack.attachAll ((groups kind.keyword.toList offset front group rest).map
        (·.node scope.source kind))).gapStart ≤
          offset + size (front ++ rest.flatMap Further.marks) := by
  obtain ⟨d, more, hword⟩ := kind.exists_keyword
  induction rest generalizing stack group front outer with
  | nil =>
    obtain ⟨hfinish, hcut⟩ := group.finish_of_last hfront hlast
    refine ⟨.pure (), ?_⟩
    show (stack.attach (group.node scope.source kind)).gapStart ≤ _
    rw [group.gapStart_attach scope.source hlaid, hfinish, hcut]
    simp only [size_append]
    omega
  | cons next rest ih =>
    obtain ⟨hfinish, hcut⟩ := group.finish_of_last hfront hlast
    obtain ⟨hnext, hrest⟩ := List.forall_mem_cons.1 hapart
    let place := offset + size front + size next.joint
    let declaration : Declaration := ⟨next.declarator, place⟩
    have hmarks : page.At offset (front ++ (next.joint ++
        (next.declarator.marks ++ rest.flatMap Further.marks))) := by
      simpa only [List.flatMap_cons, Further.marks, List.append_assoc] using h
    have hdeclaration : ∀ stack, Yields scope stack (Rule.declaration (declaration.fragment kind))
        declaration.node stack :=
      declaration.yields hsource hmarks.right.right.left hnext kind
    have hkeyword : ∀ stack, Yields scope stack
        (Rule.ownKeyword kind.keyword group.finish place)
        (if next.isTaken kind.keyword.toList front then
          some (place - (width kind.keyword.toList + 1)) else none) stack := by
      intro stack
      have hseen : Yields scope stack _ _ stack := yields_ownKeyword_further hsource hword
        (hcut ▸ hmarks) (hcut ▸ hlong) (group.last.declarator.notMem_tail hword)
      rw [← hcut, ← hfinish] at hseen
      exact hseen
    have hsize : offset + size (front ++ next.marks) = offset + size front + size next.marks := by
      rw [size_append, Nat.add_assoc]
    have hgrown : front ++ next.marks = front ++ next.joint ++ declaration.declarator.marks := by
      rw [Further.marks, List.append_assoc]
    have hplace : declaration.offset = offset + size (front ++ next.joint) := by
      rw [size_append, ← Nat.add_assoc]
    have hbehind : page.At offset (front ++ next.marks ++ rest.flatMap Further.marks) := by
      simpa only [List.flatMap_cons, List.append_assoc] using h
    have hlonger : width kind.keyword.toList < size (front ++ next.marks) := by
      rw [size_append]
      omega
    have hdeclarations : declarations (offset + size front) (next :: rest) =
        declaration :: declarations (offset + size (front ++ next.marks)) rest := by
      rw [hsize]
      rfl
    have hwhole : front ++ (next :: rest).flatMap Further.marks =
        front ++ next.marks ++ rest.flatMap Further.marks := by
      rw [List.flatMap_cons, List.append_assoc]
    rw [hdeclarations, hwhole]
    by_cases htaken : next.isTaken kind.keyword.toList front = true
    · -- the declarator is seen to have a keyword, and begins a group
      let other : Group := ⟨none, place - (width kind.keyword.toList + 1), declaration, []⟩
      have hlaid' : other.Laid kind.keyword.toList := by
        refine ⟨by simp [other], ?_, trivial⟩
        show place - (width kind.keyword.toList + 1) + width kind.keyword.toList ≤ place
        omega
      have hany : anyTaken kind.keyword.toList front (next :: rest) = true := by
        rw [anyTaken, htaken, Bool.true_or]
      obtain ⟨hstatus, hothers⟩ := List.forall_mem_cons.1 (hhidden hany)
      have hgroups : groups kind.keyword.toList offset front group (next :: rest) =
          group :: groups kind.keyword.toList offset (front ++ next.marks) other rest := by
        rw [groups, if_pos htaken]
      obtain ⟨hyields, hgap⟩ := @ih other (stack.attach (group.node scope.source kind)) _ _
        hbehind hgrown hplace hlonger hlaid' hrest fun _ => hothers
      rw [hgroups]
      refine ⟨?_, hgap⟩
      refine Yields.bind (other.yields_variable hlaid' rfl hdeclaration ?_ hstatus ?_) hyields
      · rw [group.gapStart_attach scope.source hlaid]
        have hfound := hkeyword (stack.attach (group.node scope.source kind))
        rwa [if_pos htaken] at hfound
      · rintro _ ⟨⟩
    · have hadded : group.finish ≤ declaration.offset := by
        rw [hfinish, hplace, hcut]
        simp only [size_append]
        omega
      have hgroups : groups kind.keyword.toList offset front group (next :: rest) =
          groups kind.keyword.toList offset (front ++ next.marks) (group.add declaration) rest := by
        rw [groups, if_neg htaken]
      have hany : anyTaken kind.keyword.toList front (next :: rest) =
          anyTaken kind.keyword.toList (front ++ next.marks) rest := by
        rw [anyTaken, Bool.eq_false_iff.2 htaken, Bool.false_or]
      have hlast' : (group.add declaration).last = declaration := group.last_add declaration
      obtain ⟨hyields, hgap⟩ := @ih (group.add declaration) stack _ _ hbehind
        (by rw [hlast']; exact hgrown) (by rw [hlast']; exact hplace) hlonger (hlaid.add hadded)
        hrest fun hfurther => (List.forall_mem_cons.1 (hhidden (hany.trans hfurther))).2
      rw [hgroups]
      refine ⟨?_, hgap⟩
      refine Yields.bind (group.yields_further hlaid hadded hdeclaration fun stack => ?_) hyields
      have hfound := hkeyword stack
      rwa [if_neg htaken] at hfound

end Statements

/-! ## Statements -/

/-- What becomes of declarators of which none has a keyword in front of it. -/
theorem groups_of_anyTaken_eq_false {word : List Char} {offset : Nat} {rest : List Further}
    {front : List Mark} {group : Group} (h : anyTaken word front rest = false) :
    groups word offset front group rest =
      [{ group with more := group.more ++ declarations (offset + size front) rest }] := by
  induction rest generalizing front group with
  | nil => simp only [groups, declarations, List.append_nil]
  | cons next rest ih =>
    rw [anyTaken, Bool.or_eq_false_iff] at h
    rw [groups, if_neg (Bool.eq_false_iff.1 h.1), ih h.2, size_append, ← Nat.add_assoc]
    simp only [Group.add, declarations, List.append_assoc, List.singleton_append]

/-- A declarator that has a keyword in front of it begins a further group. -/
theorem one_lt_length_groups {word : List Char} {offset : Nat} {rest : List Further}
    {front : List Mark} {group : Group} (h : anyTaken word front rest = true) :
    1 < (groups word offset front group rest).length := by
  -- Whatever follows, the group that has been begun is one of them.
  have hpos : ∀ {rest : List Further} {front : List Mark} {group : Group},
      0 < (groups word offset front group rest).length := by
    intro rest
    induction rest with
    | nil => exact Nat.one_pos
    | cons next rest ih =>
      intro front group
      rw [groups]
      split
      · exact Nat.succ_pos _
      · exact ih
  induction rest generalizing front group with
  | nil => cases h
  | cons next rest ih =>
    rw [groups]
    by_cases htaken : next.isTaken word front = true
    · rw [if_pos htaken]
      exact Nat.succ_lt_succ hpos
    · rw [anyTaken, Bool.eq_false_iff.2 htaken, Bool.false_or] at h
      rw [if_neg htaken]
      exact ih h

namespace VariableStatement

variable (statement : VariableStatement) (page : Page) (info : Option ModuleInfo) (offset : Nat)

/-- The statement stands at the offset, and is kept apart from words in front of it. -/
structure StandsAt : Prop where
  marks : page.At offset statement.marks
  before : offset ≠ 0 → (page.source.byteAt (offset - 1)).any isWordByte = false
  apart : statement.isApart

/-- The metadata say that the first name is exported just if the statement has the keyword for it,
and they say of no name that it is exported which seems to have a keyword of its own. -/
structure AgreesWith : Prop where
  first : ExportStatus.of info statement.first.name.text = ⟨statement.exported.isSome, false⟩
  rest : statement.isBroken = true → ∀ next ∈ statement.rest,
    ExportStatus.of info next.declarator.name.text = .hidden

variable {statement page info offset} {scope : Scope} {stack : Stack}

/-- There is one node for all declarators just if no keyword is seen in front of a further one. -/
theorem nodes_eq_singleton_iff (source : Source) :
    statement.nodes offset source = [statement.node offset source] ↔
      statement.isBroken = false := by
  constructor
  · intro h
    refine Bool.eq_false_iff.2 fun hbroken => ?_
    have hlong : 1 < (statement.groups offset).length := one_lt_length_groups hbroken
    have hlength := congrArg List.length h
    rw [nodes, List.length_map] at hlength
    exact absurd hlength (Nat.ne_of_gt hlong)
  · intro h
    rw [nodes, VariableStatement.groups, groups_of_anyTaken_eq_false h]
    rfl

/-- The first name is kept apart from the keyword. -/
theorem size_gap_pos (h : (text (spread statement.gap ++ statement.first.marks)).head?.any
    (!isWordChar ·)) : 0 < size (spread statement.gap) := by
  cases hgap : statement.gap with
  | cons piece rest =>
    rw [size]
    exact width_pos (List.append_ne_nil_of_left_ne_nil (chars_ne_nil (.filler piece)) _)
  | nil =>
    -- without a gap the first character would be one of the name
    obtain ⟨c, more, hname⟩ := List.exists_cons_of_ne_nil statement.first.name.nonempty
    have hword := statement.first.name.word c (by rw [hname]; exact List.mem_cons_self)
    have hhead : (text (spread [] ++ statement.first.marks)).head? = some c := by
      rw [statement.first.marks_eq, hname]
      rfl
    rw [hgap, hhead, Option.any_some, hword] at h
    cases h

theorem laid_group (statement : VariableStatement) (offset : Nat) :
    (statement.group offset).Laid statement.word where
  exported := by
    rintro _ hexported
    obtain ⟨gap, hgap, rfl⟩ := Option.map_eq_some_iff.1 hexported
    show offset + _ ≤ offset + size statement.lead
    rw [lead, hgap, Option.elim_some, size_append, size_spell, utf8ByteSize_eq]
    omega
  keyword := Nat.le_add_right _ _
  apart := trivial

theorem apart_declarations {rest : List Further} {start offset : Nat} (h : start ≤ offset) :
    Apart start (Written.declarations offset rest) := by
  induction rest generalizing start offset with
  | nil => trivial
  | cons next rest ih =>
    refine ⟨Nat.le_trans h (Nat.le_add_right _ _), ih ?_⟩
    show offset + size next.joint + size next.declarator.body ≤ offset + size next.marks
    simp only [Further.marks, Declarator.marks, size_append]
    omega

/-- All declarators are behind the keyword, and each is behind the ones before it. -/
theorem laid_whole (statement : VariableStatement) (offset : Nat) :
    (statement.whole offset).Laid statement.word where
  exported := (statement.laid_group offset).exported
  keyword := (statement.laid_group offset).keyword
  apart := by
    refine apart_declarations ?_
    show statement.keyword offset + width statement.word + size (spread statement.gap) +
      size statement.first.body ≤ statement.keyword offset + size statement.head
    simp only [head, Declarator.marks, size_append, size_spell]
    omega

/-- The keyword of the statement is a word of its own. -/
theorem wordMatchesAt_keyword (h : statement.StandsAt page offset) {d : Char} {more : List Char}
    (hword : Keyword statement.kind.keyword d more) :
    page.source.wordMatchesAt (isAlphabetic statement.kind.keyword)
      (pattern statement.kind.keyword) (statement.keyword offset) = true := by
  have hapart := h.apart
  simp only [isApart, Bool.and_eq_true] at hapart
  obtain ⟨⟨⟨hgap, hexported⟩, -⟩, -⟩ := hapart
  have hhead : page.At (statement.keyword offset) statement.head := h.marks.right.left
  have hbehind := hhead.right.byteAt_first hgap
  rw [size_spell] at hbehind
  refine hhead.left.wordMatchesAt hword (fun hne => ?_) hbehind
  have hlead := h.marks.left
  rw [keyword] at hne ⊢
  cases hcase : statement.exported with
  | none =>
    have hempty : statement.lead = [] := by rw [lead, hcase]; rfl
    rw [hempty, size_nil, Nat.add_zero] at hne ⊢
    exact h.before hne
  | some gap =>
    have hfull : statement.lead = spell "export".toList ++ spread gap := by rw [lead, hcase]; rfl
    rw [hcase, Option.all_some, Bool.and_eq_true] at hexported
    rw [hfull] at hlead ⊢
    rw [size_append, ← Nat.add_assoc]
    exact (hlead.right.byteAt_last hexported.2).2

/-- The keyword of an export is the last one in front of the statement. -/
theorem findLastWord_export (h : statement.StandsAt page offset) {start place : Nat}
    (hplace : place ∈ (statement.group offset).exported) (hstart : start ≤ offset) :
    page.source.findLastWord "export" start (statement.keyword offset) = some place := by
  obtain ⟨gap, hcase, rfl⟩ := Option.map_eq_some_iff.1 hplace
  have hapart := h.apart
  simp only [isApart, Bool.and_eq_true] at hapart
  obtain ⟨⟨⟨-, hexported⟩, -⟩, -⟩ := hapart
  have hlead := h.marks.left
  have hfull : statement.lead = spell "export".toList ++ spread gap := by rw [lead, hcase]; rfl
  rw [hcase, Option.all_some, Bool.and_eq_true] at hexported
  rw [hfull] at hlead
  have hbehind := hlead.right.byteAt_first hexported.1
  rw [size_spell] at hbehind
  have hat := hlead.left.wordMatchesAt keyword_export h.before hbehind
  have hfound := hlead.findLastWord keyword_export (notMem_spread _ _) hat hstart
  rw [keyword, hfull, size_append, size_spell, ← Nat.add_assoc]
  exact hfound

/-- A statement of variables is recovered as its nodes. -/
theorem yields (hsource : scope.source = page.source) (h : statement.StandsAt page offset)
    (hagrees : statement.AgreesWith scope.info) (hgap : stack.gapStart ≤ offset) :
    Yields scope stack ((statement.bindings offset).forM Binding.recover) ()
        (stack.attachAll (statement.nodes offset scope.source)) ∧
      (stack.attachAll (statement.nodes offset scope.source)).gapStart ≤
        offset + size statement.marks := by
  obtain ⟨d, more, hword⟩ := statement.kind.exists_keyword
  have hapart := h.apart
  simp only [isApart, Bool.and_eq_true, List.all_eq_true] at hapart
  obtain ⟨⟨⟨hgapApart, -⟩, hfirst⟩, hrest⟩ := hapart
  have hwhole : page.At (statement.keyword offset)
      (statement.head ++ statement.rest.flatMap Further.marks) := h.marks.right
  have hopening : page.At (statement.opening offset).offset statement.first.marks := by
    have hfirst := hwhole.left.right.right
    rw [size_spell] at hfirst
    exact hfirst
  have hdeclaration : ∀ stack, Yields scope stack
      (Rule.declaration ((statement.opening offset).fragment statement.kind))
      (statement.opening offset).node stack :=
    (statement.opening offset).yields hsource hopening hfirst statement.kind
  have hkeyword : Yields scope stack
      (Rule.ownKeyword statement.kind.keyword stack.gapStart (statement.opening offset).offset)
      (some (statement.keyword offset)) stack := by
    have hfront : page.At (statement.keyword offset)
        (spell statement.kind.keyword.toList ++ spread statement.gap) := by
      have hhead := hwhole.left
      rw [head, ← List.append_assoc] at hhead
      exact hhead.left
    exact yields_ownKeyword hsource hword hfront (notMem_spread _ _) (size_gap_pos hgapApart)
      (wordMatchesAt_keyword h hword) (Nat.le_trans hgap (Nat.le_add_right _ _))
  have hstatus : ExportStatus.of scope.info statement.first.name.text =
      ⟨(statement.group offset).exported.isSome, false⟩ := by
    rw [hagrees.first, group, Option.isSome_map]
  -- The first declarator opens the node. Each further one is put into the node in front of it, or
  -- opens one of its own.
  have hvariable := (statement.group offset).yields_variable (statement.laid_group offset) rfl
    hdeclaration hkeyword hstatus fun place hplace => by
      rw [hsource]
      exact findLastWord_export h hplace hgap
  have hlong : width statement.kind.keyword.toList < size statement.head := by
    have hpos := size_gap_pos hgapApart
    rw [head, size_append, size_append, size_spell]
    show width statement.word < _
    omega
  have hhead : statement.head = spell statement.word ++ spread statement.gap ++
      (statement.group offset).last.declarator.marks := by
    rw [head, List.append_assoc]
    rfl
  have hlast : (statement.group offset).last.offset =
      statement.keyword offset + size (spell statement.word ++ spread statement.gap) := by
    rw [size_append, size_spell, ← Nat.add_assoc]
    rfl
  obtain ⟨hfurther, hends⟩ := yields_further stack hsource hwhole hhead hlast hlong
    (statement.laid_group offset) hrest hagrees.rest
  have hlist : (statement.bindings offset).forM Binding.recover =
      (statement.declarations offset).forM fun declaration =>
        (declaration.binding statement.kind).recover := by
    rw [bindings, List.forM_eq_forM, List.forM_map]
    rfl
  have hsize : offset + size statement.marks = statement.keyword offset +
      size (statement.head ++ statement.rest.flatMap Further.marks) := by
    rw [marks, size_append, keyword, Nat.add_assoc]
  rw [hlist, hsize]
  exact ⟨hvariable.bind hfurther, hends⟩

/-- The node of all declarators passes the check, and is all of the statement. -/
theorem solid (statement : VariableStatement) (offset : Nat) (source : Source) :
    (statement.node offset source).Solid
      ⟨((statement.whole offset).exported.getD (statement.keyword offset)),
        (statement.whole offset).finish⟩ :=
  (statement.whole offset).solid source (statement.laid_whole offset)

end VariableStatement

/-! ## Statements one after the other -/

/-- A statement at its place. -/
structure Passage where
  offset : Nat
  statement : VariableStatement

namespace Passage

/-- The statements stand in the page one behind the other, the first one not in front of the given
offset, and the metadata fit them. -/
def Line (page : Page) (info : Option ModuleInfo) (start : Nat) : List Passage → Prop
  | [] => True
  | passage :: rest =>
    start ≤ passage.offset ∧ passage.statement.StandsAt page passage.offset ∧
      passage.statement.AgreesWith info ∧
        Line page info (passage.offset + size passage.statement.marks) rest

theorem Line.mono {page : Page} {info : Option ModuleInfo} {start later : Nat}
    {passages : List Passage} (h : Line page info later passages) (hle : start ≤ later) :
    Line page info start passages := by
  cases passages with
  | nil => trivial
  | cons passage rest => exact ⟨Nat.le_trans hle h.1, h.2⟩

def bindings (passage : Passage) : List Binding := passage.statement.bindings passage.offset

def nodes (source : Source) (passage : Passage) : List Node :=
  passage.statement.nodes passage.offset source

end Passage

end Written

theorem Recover.Yields.forM_append {α : Type} {scope : Scope} {before middle after : Stack}
    {action : α → Recover Unit} {a b : List α} (ha : Yields scope before (a.forM action) () middle)
    (hb : Yields scope middle (b.forM action) () after) :
    Yields scope before ((a ++ b).forM action) () after := by
  rw [List.forM_eq_forM] at ha hb ⊢
  rw [List.forM_append]
  exact ha.bind hb

/-- The bindings of statements of variables, recovered one after the other into the innermost open
node, come to the nodes of the statements, without a token missed. A statement has the one node with
all of its declarators under its own keyword, which passes the check, just if no keyword is seen
right in front of a declarator behind a comma. -/
theorem declarators_share_node_iff {scope : Scope} {page : Page} {stack : Stack}
    {passages : List Passage} (hsource : scope.source = page.source)
    (h : Passage.Line page scope.info stack.gapStart passages) :
    Yields scope stack ((passages.flatMap Passage.bindings).forM Binding.recover) ()
        (stack.attachAll (passages.flatMap (·.nodes scope.source))) ∧
      ∀ passage ∈ passages,
        let node := passage.statement.node passage.offset scope.source
        (passage.nodes scope.source = [node] ↔ passage.statement.isBroken = false) ∧
          node.check = .ok () := by
  constructor
  · induction passages generalizing stack with
    | nil => exact .pure ()
    | cons passage rest ih =>
      obtain ⟨hstart, hstands, hagrees, hrest⟩ := h
      obtain ⟨hyields, hgap⟩ := passage.statement.yields hsource hstands hagrees hstart
      rw [List.flatMap_cons, List.flatMap_cons, Stack.attachAll_append]
      exact hyields.forM_append (ih (hrest.mono hgap))
  · intro passage _
    exact ⟨passage.statement.nodes_eq_singleton_iff scope.source,
      (passage.statement.solid passage.offset scope.source).check⟩

/-! ## Three statements -/

namespace Written

/-- A variable, and one behind a comma without any space. -/
def VariableStatement.sampleVar : VariableStatement where
  exported := none
  kind := .var
  gap := [.blank ' ' isSpace_blank]
  first := .valued (.letter 'i' rfl) [.blank ' ' isSpace_blank] [] (.number (.digit '0' rfl))
  rest := [⟨[], [], .bare (.letter 'j' rfl)⟩]

/-- A variable behind a value that ends in the keyword of the statement. -/
def VariableStatement.sampleLet : VariableStatement where
  exported := none
  kind := .let
  gap := [.blank ' ' isSpace_blank]
  first := .valued (.letter 'k' rfl) [] []
    (.access (.name (.letter 'x' rfl)) [] []
      ⟨['l', 'e', 't'], List.cons_ne_nil _ _, List.all_eq_true.1 rfl⟩)
  rest := [⟨[], [], .bare (.letter 'l' rfl)⟩]

/-- Exported variables, and a comment with a comma and a keyword between them. -/
def VariableStatement.sampleExport : VariableStatement where
  exported := some [.blank ' ' isSpace_blank]
  kind := .const
  gap := [.blank ' ' isSpace_blank]
  first := .valued (.letter 'm' rfl) [] []
    (.call (.name (.letter 'f' rfl)) [] (.last [] (.number (.digit '0' rfl)) []))
  rest := [⟨[.blank ' ' isSpace_blank], [.block [',', 'c', 'o', 'n', 's', 't', ' '] (by decide)],
    .bare (.letter 'n' rfl)⟩]

/-- The statements, with semicolons and white space between them. -/
def sampleStatements : Page where
  marks := VariableStatement.sampleVar.marks ++
    (spell [';'] ++ (VariableStatement.sampleLet.marks ++
    (spell [';'] ++ (VariableStatement.sampleExport.marks ++ spell [';']))))
  plain := by decide

/-- The statements at their places. -/
def samplePassages : List Passage :=
  [⟨0, .sampleVar⟩, ⟨11, .sampleLet⟩, ⟨25, .sampleExport⟩]

end Written

/-- The metadata by which one of the variables is exported. -/
def ModuleInfo.sampleExport : ModuleInfo := ⟨[], [⟨some "m", some "m", none⟩], []⟩

theorem declarators_of_sampleStatements :
    let scope : Scope := ⟨sampleStatements.source, some .sampleExport, true⟩
    let stack := Stack.ofRoot (.leaf .root (Span.ofBounds 0 sampleStatements.source.size))
    String.ofList (text sampleStatements.marks) =
        "var i =0,j;let k=x.let,l;export const m=f(0) ,/*,const */n;" ∧
      Yields scope stack ((samplePassages.flatMap Passage.bindings).forM Binding.recover) ()
        (stack.attachAll (samplePassages.flatMap (·.nodes scope.source))) ∧
      samplePassages.map (fun passage => (passage.nodes scope.source).length) = [1, 2, 1] ∧
      samplePassages.map (fun passage => passage.statement.isBroken) = [false, true, false] := by
  intro scope stack
  have hvar : VariableStatement.sampleVar.StandsAt sampleStatements 0 :=
    ⟨⟨[], _, rfl, rfl⟩, fun h => absurd rfl h, by decide +kernel⟩
  have hlet : VariableStatement.sampleLet.StandsAt sampleStatements 11 :=
    ⟨⟨VariableStatement.sampleVar.marks ++ spell [';'], _, rfl, by decide +kernel⟩,
      fun _ => by decide +kernel, by decide +kernel⟩
  have hexport : VariableStatement.sampleExport.StandsAt sampleStatements 25 :=
    ⟨⟨VariableStatement.sampleVar.marks ++ (spell [';'] ++ (VariableStatement.sampleLet.marks ++
      spell [';'])), _, rfl, by decide +kernel⟩, fun _ => by decide +kernel, by decide +kernel⟩
  have hline : Passage.Line sampleStatements scope.info stack.gapStart samplePassages := by
    refine ⟨Nat.zero_le _, hvar, ⟨by decide +kernel, fun h => absurd h (by decide +kernel)⟩, ?_⟩
    refine ⟨by decide +kernel, hlet, ⟨by decide +kernel, fun _ => by decide +kernel⟩, ?_⟩
    refine ⟨by decide +kernel, hexport, ⟨by decide +kernel, fun h => absurd h (by decide +kernel)⟩,
      ?_⟩
    trivial
  have hsource : scope.source = sampleStatements.source := rfl
  obtain ⟨hyields, -⟩ := declarators_share_node_iff hsource hline
  exact ⟨by decide +kernel, hyields, by decide +kernel, by decide +kernel⟩

end Concretion
