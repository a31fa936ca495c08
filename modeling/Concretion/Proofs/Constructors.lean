import Concretion.Proofs.Attaching
import Concretion.Proofs.MemberOrder

/-!
# Constructors of classes

A class that declares no constructor is given one by the parser, which is left out of the body. It
is told from one that is written by its key, the name of the class, and by its parameters and its
body. For a class without a name the key is the word `constructor`, which is also the key of a
constructor that is written.

- `ClassDef.Writes`: a constructor that stands in the braces of the class.
- `ClassDef.givesDefault`: parameters and body as the parser would have made them up.
- `Member.Becomes`: the nodes of a member.
- `Node.IsClassOf`: the node of a class with the nodes of its members.
- `written_constructor_is_kept_iff`: the constructor has a node just if the class has another name
  than `constructor`, or its constructor does not look like one that is made up.
-/

namespace Concretion

open Recover

/-! ## Constructors that are written -/

/-- The constructor is written in the braces of the class. -/
structure ClassDef.Writes (definition : ClassDef) (constructor : Member) (function : FunctionDef) :
    Prop where
  recorded : definition.constructor? = some constructor
  key : constructor.keyName? = some "constructor"
  value : constructor.value = some (.functionDef function)
  method : function.isMethod = true
  plain : constructor.getter = none ∧ constructor.setter = none
  inside : definition.range.start < constructor.key.range.start ∧
    constructor.key.range.finish < definition.range.finish

/-- Has the constructor the parameters and the body of a default constructor? -/
def ClassDef.givesDefault (definition : ClassDef) (function : FunctionDef) : Bool :=
  match definition.heritage with
  | none => function.parameters.isEmpty && function.body.statements.length == 0
  | some _ =>
    match function.parameters with
    | [parameter] =>
      parameter.isRest && function.hasDirectSuper && function.body.statements.length == 1
    | _ => false

/-- Is a constructor that is written taken for one that has been made up? -/
def ClassDef.losesConstructor (definition : ClassDef) (function : FunctionDef) : Bool :=
  definition.name.all (·.name == "constructor") && definition.givesDefault function

theorem ClassDef.Writes.isImplicitConstructor {definition : ClassDef} {constructor : Member}
    {function : FunctionDef} (h : definition.Writes constructor function) :
    definition.isImplicitConstructor constructor = definition.losesConstructor function := by
  have hname : (constructor.keyName? == some ((definition.name.map (·.name)).getD "constructor")) =
      definition.name.all (·.name == "constructor") := by
    rw [h.key]
    cases definition.name with
    | none => rfl
    | some name => exact Bool.beq_comm ..
  obtain ⟨range, key, value, getter, setter, isStatic, isComputed⟩ := constructor
  obtain rfl : value = some (.functionDef function) := h.value
  exact congrArg (· && definition.givesDefault function) hname

/-! ## The nodes of members -/

/-- How many nodes a member has: one, or one for each of two accessors. -/
def Member.nodeCount (member : Member) : Nat :=
  if member.getter.isSome && member.setter.isSome then 2 else 1

theorem Member.nodeCount_pos (member : Member) : 0 < member.nodeCount := by
  unfold nodeCount
  split <;> decide

/-- How many nodes members have together. -/
def Member.nodeCounts : List Member → Nat
  | [] => 0
  | member :: rest => member.nodeCount + nodeCounts rest

theorem Member.nodeCounts_perm {members others : List Member} (h : members.Perm others) :
    nodeCounts members = nodeCounts others := by
  induction h with
  | nil => rfl
  | cons member _ ih => rw [nodeCounts, nodeCounts, ih]
  | swap first second rest =>
    simp only [nodeCounts]
    omega
  | trans _ _ ih ih' => exact ih.trans ih'

/-- The nodes are those of the member. A method is a function. -/
structure Member.Becomes (member : Member) (nodes : List Node) : Prop where
  length : nodes.length = member.nodeCount
  method : member.getter = none → member.setter = none → ∀ function, function.isMethod = true →
    member.value = some (.functionDef function) →
      ∃ node, nodes = [node] ∧ node.kind = Rule.functionNodeKind function.fragment member.isStatic

/-- A member that has accessors at all has a node for each of them. -/
theorem Member.length_accessors {member : Member}
    (h : ¬ (member.getter = none ∧ member.setter = none)) :
    member.fragment.accessors.length = member.nodeCount := by
  obtain ⟨range, key, value, getter, setter, isStatic, isComputed⟩ := member
  have hlength : ∀ fragment : MemberFragment, fragment.accessors.length =
      fragment.getter.toList.length + fragment.setter.toList.length := by
    intro fragment
    simp [MemberFragment.accessors]
  rw [hlength]
  cases getter with
  | none =>
    cases setter with
    | none => exact absurd ⟨rfl, rfl⟩ h
    | some setter => rfl
  | some getter => cases setter <;> rfl

namespace Rule

variable {scope : Scope} {member : MemberFragment}

theorem puts_pair {value : Fragment} (hm : member.Sound False) (hv : value.Sound False) :
    Puts scope (pair member value) fun _ => True := by
  refine .after (.rangeSpan _ _) fun span _ => ?_
  split
  · exact .enter hm.key.builds fun _ _ => trivial
  · refine .after (.find _ _ _ _) fun colon _ => .enter ?_ fun _ _ => trivial
    exact (sound_key hm).andThen hv.builds

theorem puts_accessor {function : FunctionFragment} (accessor : Accessor) (ownsKey : Bool)
    (hm : member.Sound False) (hf : function.Sound False) :
    Puts scope (Rule.accessor member function accessor ownsKey) fun _ => True := by
  have hrange : Sees scope (accessorRange member function accessor ownsKey) fun _ => True := by
    unfold accessorRange
    dsimp only
    split
    · exact (Sees.pure _).mono fun _ _ => trivial
    · refine Sees.source.bind fun text _ => Sees.gapStart.bind fun start _ => ?_
      exact (Sees.settle _ _).bind fun place _ => (Sees.pure _).mono fun _ _ => trivial
  rw [Rule.accessor]
  refine .after hrange fun range _ => .after (.rangeSpan _ _) fun span _ => ?_
  exact .enter (sound_accessorBody accessor ownsKey hm hf) fun _ _ => trivial

/-- Each accessor has a node. -/
theorem putsAll_accessors (h : member.Sound False) (hsome : member.accessors ≠ []) :
    PutsAll scope (Rule.member member) fun nodes => nodes.length = member.accessors.length := by
  have hputs : ∀ written ∈ member.accessors.zipIdx, Puts scope
      (accessor member written.1.1 written.1.2 (written.2 == 0)) fun _ => True := by
    intro written hwritten
    have hmem : written.1 ∈ member.accessors := List.fst_mem_of_mem_zipIdx hwritten
    refine puts_accessor _ _ h ?_
    exact (MemberFragment.mem_accessors hmem).elim (h.getter _) (h.setter _)
  rw [member_of_accessors hsome]
  refine (PutsAll.each hputs).mono fun nodes hnodes => ?_
  rw [← hnodes.length_eq, List.length_zipIdx]

/-- A member that has no accessors is recovered from its value. -/
theorem member_of_none (hgetter : member.getter = none) (hsetter : member.setter = none) :
    Rule.member member = (match member.value with
      | some (.method function) => do attach (← functionNode function (some member))
      | some (.expression value) => pair member value
      | none => do
        let span ← rangeSpan member.range.start member.range.finish
        throw (.shape "NameValuePair" .memberWithoutValue (some span))) := by
  rw [Rule.member, hgetter, hsetter]
  rfl

theorem puts_method {function : FunctionFragment} (h : member.Sound False)
    (hgetter : member.getter = none) (hsetter : member.setter = none)
    (hvalue : member.value = some (.method function)) :
    Puts scope (Rule.member member) (·.kind = functionNodeKind function member.isStatic) := by
  have hf : function.Sound False := h.value (.method function) hvalue
  have hm : ∀ part ∈ some member, part.Sound False := by
    rintro part ⟨⟩
    exact h
  rw [member_of_none hgetter hsetter, hvalue]
  exact .after (sees_functionNode hf hm) fun node hnode => .attach hnode

theorem puts_plainMember (h : member.Sound False) (hgetter : member.getter = none)
    (hsetter : member.setter = none) : Puts scope (Rule.member member) fun _ => True := by
  cases hvalue : member.value with
  | none =>
    rw [member_of_none hgetter hsetter, hvalue]
    exact .after (.rangeSpan _ _) fun span _ => .throw
  | some value =>
    cases value with
    | method function => exact (puts_method h hgetter hsetter hvalue).mono fun _ _ => trivial
    | expression value =>
      rw [member_of_none hgetter hsetter, hvalue]
      exact puts_pair h (h.value (.expression value) hvalue)

end Rule

theorem memberValue_method {function : FunctionDef} (h : function.isMethod = true) :
    memberValue (some (.functionDef function)) = some (.method function.fragment) := by
  rw [memberValue, h]
  rfl

/-- A member has a node, or one for each of its accessors. -/
theorem Member.putsAll {member : Member} {scope : Scope} (h : member.fragment.Sound False) :
    PutsAll scope (Rule.member member.fragment) member.Becomes := by
  obtain ⟨range, key, value, getter, setter, isStatic, isComputed⟩ := member
  by_cases haccessors : getter = none ∧ setter = none
  · obtain ⟨rfl, rfl⟩ := haccessors
    by_cases hmethod : ∃ function, function.isMethod = true ∧ value = some (.functionDef function)
    · obtain ⟨function, hmethod, rfl⟩ := hmethod
      have hvalue : (Member.mk range key (some (.functionDef function)) none none isStatic
          isComputed).fragment.value = some (.method function.fragment) :=
        memberValue_method hmethod
      refine (PutsAll.ofPuts (Rule.puts_method h rfl rfl hvalue)).mono ?_
      rintro _ ⟨node, rfl, hkind⟩
      refine ⟨rfl, ?_⟩
      rintro - - _ - ⟨⟩
      exact ⟨node, rfl, hkind⟩
    · refine (PutsAll.ofPuts (Rule.puts_plainMember h rfl rfl)).mono ?_
      rintro _ ⟨node, rfl, -⟩
      refine ⟨rfl, fun _ _ function hfunction hvalue => ?_⟩
      exact absurd ⟨function, hfunction, hvalue⟩ hmethod
  · let member : Member := ⟨range, key, value, getter, setter, isStatic, isComputed⟩
    have hcount : member.fragment.accessors.length = member.nodeCount :=
      length_accessors haccessors
    refine (Rule.putsAll_accessors h ?_).mono fun nodes hnodes => ?_
    · intro hnil
      have hpos := member.nodeCount_pos
      rw [← hcount, hnil] at hpos
      cases hpos
    · exact ⟨hnodes.trans hcount, fun hgetter hsetter => absurd ⟨hgetter, hsetter⟩ haccessors⟩

/-! ## The body of a class -/

theorem Recover.ok_of_reorder {scope : Scope} {permutation : List Nat} {session last : Session}
    (h : (reorder permutation).outcome scope session = (.ok (), last)) :
    Stack.isPermutation permutation session.stack.children.length = true ∧
      last.stack.children = permutation.filterMap (session.stack.children[·]?) := by
  obtain ⟨stack, hmade, rfl⟩ := ok_of_edit h
  rw [Stack.reorder_eq] at hmade
  split at hmade
  · next hpermutation =>
    cases hmade
    exact ⟨hpermutation, Stack.children_setChildren _ _⟩
  · cases hmade

/-- The node is the body of a class with these members: it has their nodes, in the order in which
the members are written. -/
def Node.IsBodyOf (body : Node) (members : List Member) : Prop :=
  (∃ lbrace rbrace, body.kind = .statements (some lbrace) (some rbrace)) ∧
    ∃ groups, body.children = groups.flatten ∧ List.Forall₂ Member.Becomes
      (members.mergeSort fun a b => a.range.start ≤ b.range.start) groups

/-- How many children the body of a class has. -/
theorem Node.IsBodyOf.length {body : Node} {members : List Member} (h : body.IsBodyOf members) :
    body.children.length = Member.nodeCounts members := by
  obtain ⟨-, groups, hchildren, hgroups⟩ := h
  have hcount : ∀ {members : List Member} {groups : List (List Node)},
      List.Forall₂ Member.Becomes members groups →
        groups.flatten.length = Member.nodeCounts members := by
    intro members groups hgroups
    induction hgroups with
    | nil => rfl
    | cons hmember _ ih =>
      rw [List.flatten_cons, List.length_append, hmember.length, ih, Member.nodeCounts]
  rw [hchildren, hcount hgroups]
  exact Member.nodeCounts_perm (List.mergeSort_perm _ _)

/-- The node is that of a class with these members. -/
def Node.IsClassOf (node : Node) (members : List Member) : Prop :=
  node.kind = .classDefinition ∧ ∃ body, node.lastChild? = some body ∧ body.IsBodyOf members

theorem Node.IsClassOf.isExport {node : Node} {members : List Member}
    (h : node.IsClassOf members) : node.kind.isExport = false := by
  rw [h.1]
  rfl

namespace Rule

variable {scope : Scope} {definition : ClassDef}

theorem puts_classBody (definition : ClassDef) :
    Puts scope (classBody definition.fragment) (·.IsBodyOf definition.writtenMembers) := by
  have hmembers : ∀ member ∈ (Holder.classBody definition).members,
      PutsAll scope (Rule.member member.fragment) member.Becomes :=
    fun member _ => Member.putsAll (member.sound False)
  refine .after (.find _ _ _ _) fun lbrace _ => .after (.findEndingAt _ _ _ _) fun rbrace _ => ?_
  refine .after (.mergeSpans _ _) fun span _ => ?_
  dsimp only
  rw [definition.mergeSort_elements, List.forM_eq_forM, List.forM_map, ← List.forM_eq_forM]
  refine .after (Sees.withinAll (PutsAll.forM hmembers)) ?_
  rintro node ⟨nodes, ⟨groups, rfl, hgroups⟩, hcover⟩
  obtain ⟨wide, rfl⟩ := Node.eq_of_cover hcover
  exact .attach ⟨⟨_, _, rfl⟩, groups, List.nil_append _, hgroups⟩

/-- The name is put in front, so the last child remains the last one. -/
theorem lastChild?_className {name : Ident} {body : Node} {session last : Session}
    (h : session.stack.lastChild? = some body)
    (hrun : Recover.outcome (do
      attach (← identifier name.range.start name.range.finish name.name)
      if (← getStack).current.childCount == 2 then reorder [1, 0]
      else reorder [2, 0, 1]) scope session = (.ok (), last)) :
    last.stack.lastChild? = some body := by
  obtain ⟨node, later, hname, hrest⟩ := ok_of_bind hrun
  obtain ⟨hstack, -⟩ := Sees.identifier _ _ _ session node later hname
  have hattach : (attach node).outcome scope later =
      (.ok (), { later with stack := later.stack.attach node }) := rfl
  rw [outcome_bind_ok hattach, outcome_bind_ok (outcome_getStack _ _), hstack] at hrest
  obtain ⟨front, hfront⟩ : ∃ front, session.stack.children = front ++ [body] :=
    List.getLast?_eq_some_iff.1 h
  have hchildren : (session.stack.attach node).children = front ++ [body, node] := by
    rw [Stack.attach_eq_setChildren, Stack.children_setChildren, hfront, List.append_assoc]
    rfl
  have hcount : (session.stack.attach node).current.childCount = front.length + 2 :=
    (congrArg List.length hchildren).trans (by simp)
  dsimp only at hrest
  split at hrest
  · next htwo =>
    -- without a superclass there are only the body and the name
    obtain ⟨-, hreorder⟩ := ok_of_reorder hrest
    obtain rfl : front = [] := by
      rw [hcount, beq_iff_eq] at htwo
      exact List.length_eq_zero_iff.1 (by omega)
    show last.stack.children.getLast? = some body
    rw [hreorder, hchildren]
    rfl
  · -- the permutation is refused unless there are three children
    obtain ⟨hpermutation, hreorder⟩ := ok_of_reorder hrest
    obtain ⟨first, rfl⟩ : ∃ first, front = [first] := by
      have hlength := (Stack.isPermutation_iff.1 hpermutation).1
      simp only [hchildren, List.length_append, List.length_cons, List.length_nil] at hlength
      exact List.length_eq_one_iff.1 (by omega)
    show last.stack.children.getLast? = some body
    rw [hreorder, hchildren]
    rfl

theorem sees_classWithBody (definition : ClassDef) (name : Option Ident) :
    Sees scope (classNode definition.fragment name) (·.IsClassOf definition.writtenMembers) := by
  refine (Sees.note _).bind fun _ _ => (Sees.rangeSpan _ _).bind fun span _ => ?_
  -- whatever the superclass leaves behind, the body comes next
  refine .withinEndsIn (sound_classParts name (definition.sound False)) (.behind fun _ => ?_)
  intro session _ last hrun
  obtain ⟨_, later, hbody, hname⟩ := ok_of_bind hrun
  obtain ⟨body, hlast, hresult⟩ := (puts_classBody definition).endsIn session () later hbody
  cases name with
  | none =>
    cases hname
    exact ⟨body, hlast, hresult⟩
  | some name => exact ⟨body, lastChild?_className hlast hname, hresult⟩

end Rule

/-! ## Classes wherever they stand -/

/-- The class is recovered as an expression or as a declaration. -/
inductive ClassDef.IsRecoveredBy (definition : ClassDef) : Recover Unit → Prop where
  | expression : definition.IsRecoveredBy (Expr.classDef definition).recover
  | declaration {binding : Binding} (hinit : binding.init = some (.classDef definition))
      (hclass : binding.declaresClass = true) : definition.IsRecoveredBy binding.recover

theorem ClassDef.IsRecoveredBy.puts {scope : Scope} {definition : ClassDef} {build : Recover Unit}
    (h : definition.IsRecoveredBy build) :
    Puts scope build (·.unexported.IsClassOf definition.writtenMembers) := by
  cases h with
  | expression =>
    refine .after (Rule.sees_classWithBody definition _) fun node hnode => ?_
    exact .attach ((Node.unexported_of_isExport hnode.isExport).symm ▸ hnode)
  | @declaration binding hinit hdeclares =>
    obtain ⟨range, name, init, kind, isFunctionDeclaration⟩ := binding
    cases hinit
    have hnode : ∀ (windowStart : Nat) (status : ExportStatus) (name : Option Ident),
        Puts scope (Rule.exportedClass definition.fragment windowStart status name)
          (·.unexported.IsClassOf definition.writtenMembers) := by
      intro windowStart status name
      refine .after (Rule.sees_classWithBody definition name) fun node hnode => ?_
      exact .exportIf_unexported (·.IsClassOf _) hnode.isExport hnode hnode
    simp only [Binding.recover]
    rw [if_pos hdeclares, Rule.classDeclaration]
    refine .after (.note _) fun _ _ => .after .gapStart fun windowStart _ => ?_
    split
    · exact hnode windowStart ⟨true, true⟩ none
    · exact .after (.exportStatus _) fun status _ => hnode windowStart status (some name)

/-- The node of a class tells how many nodes its members have. -/
theorem Node.IsClassOf.nodeCounts_eq {node : Node} {members others : List Member}
    (h : node.IsClassOf members) (hothers : node.IsClassOf others) :
    Member.nodeCounts members = Member.nodeCounts others := by
  obtain ⟨-, body, hbody, hmembers⟩ := h
  obtain ⟨-, body', hbody', hothers⟩ := hothers
  obtain rfl : body = body' := Option.some.inj (hbody.symm.trans hbody')
  rw [← hmembers.length, hothers.length]

theorem ClassDef.Writes.writtenMembers {definition : ClassDef} {constructor : Member}
    {function : FunctionDef} (h : definition.Writes constructor function) :
    definition.writtenMembers =
      if definition.losesConstructor function then definition.elements
      else constructor :: definition.elements := by
  rw [ClassDef.writtenMembers, h.recorded, ← h.isImplicitConstructor]

/-- Of a constructor that is written there is a node just if the class has another name than
`constructor`, or if its parameters and its body are not those of a default constructor. All other
members have their nodes in any case. A class without a name counts as one of that name. -/
theorem written_constructor_is_kept_iff {scope : Scope} {definition : ClassDef}
    {constructor : Member} {function : FunctionDef} {build : Recover Unit} {session last : Session}
    (hwrites : definition.Writes constructor function) (hbuild : definition.IsRecoveredBy build)
    (hrun : build.outcome scope session = (.ok (), last)) :
    ∃ node, last.stack = session.stack.attach node ∧
      (node.unexported.IsClassOf (constructor :: definition.elements) ↔
        definition.losesConstructor function = false) ∧
      (node.unexported.IsClassOf definition.elements ↔
        definition.losesConstructor function = true) := by
  obtain ⟨node, hstack, hnode⟩ := hbuild.puts session last hrun
  rw [hwrites.writtenMembers] at hnode
  -- a class cannot be one with the constructor and one without
  have hapart : node.unexported.IsClassOf (constructor :: definition.elements) →
      ¬ node.unexported.IsClassOf definition.elements := by
    intro hwith hwithout
    have hcounts := hwith.nodeCounts_eq hwithout
    have hpos := constructor.nodeCount_pos
    rw [Member.nodeCounts] at hcounts
    omega
  refine ⟨node, hstack, ?_⟩
  cases hloses : definition.losesConstructor function with
  | true =>
    rw [hloses, if_pos rfl] at hnode
    exact ⟨iff_of_false (hapart · hnode) Bool.noConfusion, iff_of_true hnode rfl⟩
  | false =>
    rw [hloses, if_neg Bool.false_ne_true] at hnode
    exact ⟨iff_of_true hnode rfl, iff_of_false (hapart hnode) Bool.noConfusion⟩

/-- An empty method by the name of `constructor`, whose key begins at the offset. -/
def FunctionDef.sampleConstructor (start : Nat) : FunctionDef :=
  ⟨⟨start, start + 16⟩, ⟨⟨start, start + 11⟩, "constructor", false, false⟩, .method, [],
    ⟨⟨start + 14, start + 16⟩, .braced, []⟩, false, true, false, false⟩

/-- The constructor that is this method. -/
def Member.sampleConstructor (start : Nat) : Member :=
  ⟨⟨start, start + 16⟩, .ident ⟨⟨start, start + 11⟩, "constructor", false, false⟩,
    some (.functionDef (.sampleConstructor start)), none, none, false, false⟩

/-- A class that has nothing but this constructor. -/
def ClassDef.sample (name : Option Ident) (start : Nat) : ClassDef :=
  ⟨⟨0, start + 18⟩, name, none, some (.sampleConstructor start), []⟩

theorem ClassDef.writes_sample (name : Option Ident) {start : Nat} (h : 0 < start) :
    (ClassDef.sample name start).Writes (.sampleConstructor start) (.sampleConstructor start) := by
  refine ⟨rfl, rfl, rfl, rfl, ⟨rfl, rfl⟩, h, ?_⟩
  show start + 11 < start + 18
  omega

/-- The constructor is kept in a class with a name, and lost in a class without one. -/
theorem constructor_of_sampleClass :
    let named := Scope.of "class C { constructor() {} }" none .unforgiving
    let nameless := Scope.of "class { constructor() {} }" none .unforgiving
    let withName := ClassDef.sample (some ⟨⟨6, 7⟩, "C", false, false⟩) 10
    let withoutName := ClassDef.sample none 8
    (∃ node later, (Expr.classDef withName).recover.outcome named (.start named.source) =
        (.ok (), later) ∧ later.stack = (Session.start named.source).stack.attach node ∧
          node.unexported.IsClassOf [.sampleConstructor 10]) ∧
      ∃ node later, (Expr.classDef withoutName).recover.outcome nameless (.start nameless.source) =
        (.ok (), later) ∧ later.stack = (Session.start nameless.source).stack.attach node ∧
          node.unexported.IsClassOf [] := by
  intro named nameless withName withoutName
  constructor
  · have hrun : (Expr.classDef withName).recover.outcome named (.start named.source) =
        (.ok (), _) := Prod.ext (by decide +kernel) rfl
    obtain ⟨node, hstack, hkept, -⟩ := written_constructor_is_kept_iff
      (ClassDef.writes_sample _ (by decide)) .expression hrun
    exact ⟨node, _, hrun, hstack, hkept.2 (by decide)⟩
  · have hrun : (Expr.classDef withoutName).recover.outcome nameless (.start nameless.source) =
        (.ok (), _) := Prod.ext (by decide +kernel) rfl
    obtain ⟨node, hstack, -, hlost⟩ := written_constructor_is_kept_iff
      (ClassDef.writes_sample _ (by decide)) .expression hrun
    exact ⟨node, _, hrun, hstack, hlost.2 (by decide)⟩

end Concretion
