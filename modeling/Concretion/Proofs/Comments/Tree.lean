import Concretion.Proofs.Comments.Rules
import Concretion.Recovery.Program

/-!
# Recoveries that overlook comments

The recovery of a tree overlooks comments if all that the tree knows of the text is in code, by
induction on the tree: each construct is recovered by a rule that does so if the parts do.

- `Site`, `Program.sites`: what a tree knows of the text, collected from the whole of it.
- `Site.InCode`: the condition on a range, a literal, a label or a name.
- `Expr.overlooks`, `Stmt.overlooks`, `Block.overlooks`: the recovery of whole constructs.
- `Program.outcome_recover`: the recovery of a program.
-/

namespace Concretion

open Recover

/-! ## Sites -/

/-- Something that an abstract tree knows of the text. -/
inductive Site where
  | node (range : Range)
  | literal (range : Range) (value : Literal)
  /-- The label of a labelled statement. It begins where the statement does. -/
  | label (start : Nat) (text : String)
  /-- A name of which no position is known: the target of a jump, or an imported or bound name. -/
  | name (text : String)
  deriving Repr

/-- Is the literal written with quotes? -/
def Literal.isString : Literal → Bool
  | string _ => true
  | _ => false

namespace Site

/-- Is the site outside of comments? A literal must not have one inside, the quote in front of a
string is in code too, and a name is one that no comment could be taken for. -/
def InCode (source : Source) : Site → Prop
  | .node range => range.InCode source
  | .literal range value =>
    range.Uncommented source ∧ (value.isString = true → source.inComment (range.start - 1) = false)
  | .label _ text | .name text => Text.Clear text

/-- If the site is a label, it ends outside of comments, where it is measured off from the start of
its statement. -/
def LabelInCode (source : Source) : Site → Prop
  | .label start text => source.CodeBefore (start + text.utf8ByteSize)
  | .node _ | .literal .. | .name _ => True

instance (source : Source) (site : Site) : Decidable (site.InCode source) :=
  match site with
  | .node range => inferInstanceAs (Decidable (range.InCode source))
  | .literal range value =>
    inferInstanceAs (Decidable (range.Uncommented source ∧
      (value.isString = true → source.inComment (range.start - 1) = false)))
  | .label _ text | .name text => inferInstanceAs (Decidable (Text.Clear text))

instance (source : Source) (site : Site) : Decidable (site.LabelInCode source) :=
  match site with
  | .label start text =>
    inferInstanceAs (Decidable (source.CodeBefore (start + text.utf8ByteSize)))
  | .node _ | .literal .. | .name _ => .isTrue trivial

/-- The site meets both conditions. -/
structure Legible (source : Source) (site : Site) : Prop where
  inCode : site.InCode source
  label : site.LabelInCode source

end Site

/-- The sites of an identifier. -/
def Ident.site (name : Ident) : Site := .node name.range

mutual

/-- The sites of an expression. -/
def Expr.sites (expr : Expr) : List Site :=
  match expr with
  | .ident name => [name.site]
  | .literal range value => [.literal range value]
  | .array range elements => .node range :: elementSites elements
  | .unary range _ operand => .node range :: operand.sites
  | .binary range _ left right => .node range :: (left.sites ++ right.sites)
  | .conditional range test consequent alternate =>
    .node range :: (test.sites ++ (consequent.sites ++ alternate.sites))
  | .call range callee arguments => .node range :: (callee.sites ++ argumentSites arguments)
  | .access range base _ => .node range :: base.sites
  | .index range base index => .node range :: (base.sites ++ index.sites)
  | .object range members => .node range :: memberSites members
  | .functionDef definition => definition.sites
  | .classDef definition => definition.sites
termination_by structural expr

/-- The sites of the elements of an array literal. -/
def elementSites (elements : List (Option Expr)) : List Site :=
  match elements with
  | [] => []
  | none :: rest => elementSites rest
  | some element :: rest => element.sites ++ elementSites rest
termination_by structural elements

/-- The sites of the arguments of a call. -/
def argumentSites (arguments : List Expr) : List Site :=
  match arguments with
  | [] => []
  | argument :: rest => argument.sites ++ argumentSites rest
termination_by structural arguments

/-- The sites of an optional expression. -/
def optionalSites (expr : Option Expr) : List Site :=
  match expr with
  | none => []
  | some expr => expr.sites
termination_by structural expr

/-- The sites of a member of an object literal or of a class. -/
def Member.sites (member : Member) : List Site :=
  match member with
  | ⟨range, key, value, getter, setter, _, _⟩ =>
    .node range :: (key.sites ++
      (optionalSites value ++ (accessorSites getter ++ accessorSites setter)))
termination_by structural member

/-- The sites of an accessor. -/
def accessorSites (accessor : Option FunctionDef) : List Site :=
  match accessor with
  | none => []
  | some definition => definition.sites
termination_by structural accessor

/-- The sites of the members of an object literal or of a class. -/
def memberSites (members : List Member) : List Site :=
  match members with
  | [] => []
  | member :: rest => member.sites ++ memberSites rest
termination_by structural members

/-- The sites of a function. -/
def FunctionDef.sites (definition : FunctionDef) : List Site :=
  match definition with
  | ⟨range, name, _, parameters, body, _, _, _, _⟩ =>
    .node range :: name.site :: (parameters.map Ident.site ++ body.sites)
termination_by structural definition

/-- The sites of a class. -/
def ClassDef.sites (definition : ClassDef) : List Site :=
  match definition with
  | ⟨range, name, heritage, constructor?, elements⟩ =>
    .node range :: (name.toList.map Ident.site ++
      (optionalSites heritage ++ (constructorSites constructor? ++ memberSites elements)))
termination_by structural definition

/-- The sites of the constructor of a class. -/
def constructorSites (constructor? : Option Member) : List Site :=
  match constructor? with
  | none => []
  | some member => member.sites
termination_by structural constructor?

/-- The sites of a block. -/
def Block.sites (block : Block) : List Site :=
  match block with
  | ⟨range, _, statements⟩ => .node range :: statementSites statements
termination_by structural block

/-- The sites of statements. -/
def statementSites (statements : List Stmt) : List Site :=
  match statements with
  | [] => []
  | statement :: rest => statement.sites ++ statementSites rest
termination_by structural statements

/-- The sites of an optional block. -/
def blockSites (block : Option Block) : List Site :=
  match block with
  | none => []
  | some block => block.sites
termination_by structural block

/-- The sites of a statement. -/
def Stmt.sites (statement : Stmt) : List Site :=
  match statement with
  | .binding definition => definition.sites
  | .expression range expr => .node range :: expr.sites
  | .block body => body.sites
  | .empty range => [.node range]
  | .ifElse range test pass fail =>
    .node range :: (test.sites ++ (pass.sites ++ blockSites fail))
  | .forLoop loop => loop.sites
  | .whileLoop range _ test body => .node range :: (test.sites ++ body.sites)
  | .switch range subject cases => .node range :: (subject.sites ++ caseSites cases)
  | .tryCatch range body catches finalizer =>
    .node range :: (body.sites ++ (catchSites catches ++ blockSites finalizer))
  | .throwValue range value => .node range :: value.sites
  | .returnValue range value _ => .node range :: optionalSites value
  | .jump range _ label => .node range :: label.toList.map .name
  | .labelled range label body => .node range :: .label range.start label :: body.sites
  | .withScope range subject body => .node range :: (subject.sites ++ body.sites)
termination_by structural statement

/-- The sites of a binding. -/
def Binding.sites (binding : Binding) : List Site :=
  match binding with
  | ⟨range, name, init, _, _⟩ => .node range :: name.site :: optionalSites init
termination_by structural binding

/-- The sites of a loop. -/
def ForLoop.sites (loop : ForLoop) : List Site :=
  match loop with
  | ⟨range, _, init, test, update, body⟩ =>
    .node range :: (optionalSites init ++
      (optionalSites test ++ (optionalSites update ++ body.sites)))
termination_by structural loop

/-- The sites of the clauses of a `switch` statement. -/
def caseSites (cases : List SwitchCase) : List Site :=
  match cases with
  | [] => []
  | clause :: rest => clause.sites ++ caseSites rest
termination_by structural cases

/-- The sites of a clause of a `switch` statement. -/
def SwitchCase.sites (clause : SwitchCase) : List Site :=
  match clause with
  | ⟨range, test, statements⟩ => .node range :: (optionalSites test ++ statementSites statements)
termination_by structural clause

/-- The sites of `catch` clauses. -/
def catchSites (catches : List CatchClause) : List Site :=
  match catches with
  | [] => []
  | ⟨range, exception, body⟩ :: rest =>
    .node range :: exception.site :: (body.sites ++ catchSites rest)
termination_by structural catches

end

/-- The sites of an import: the imported name, and the one it is bound to. -/
def ImportEntry.sites (entry : ImportEntry) : List Site :=
  [.name entry.importName, .name entry.boundName]

/-- The sites of a program and of its imports. -/
def Program.sites (program : Program) : List Site :=
  program.body.sites ++ program.info.toList.flatMap fun info =>
    info.imports.flatMap ImportEntry.sites

variable {a b : Source}

/-- The first site of a function is its range. -/
theorem FunctionDef.inCode_range {definition : FunctionDef}
    (h : ∀ site ∈ definition.sites, site.Legible a) : definition.range.InCode a := by
  cases definition
  exact (h _ List.mem_cons_self).inCode

/-- The first site of a class is its range. -/
theorem ClassDef.inCode_range {definition : ClassDef}
    (h : ∀ site ∈ definition.sites, site.Legible a) : definition.range.InCode a := by
  cases definition
  exact (h _ List.mem_cons_self).inCode

/-- The first site of a block is its range. -/
theorem Block.inCode_range {block : Block} (h : ∀ site ∈ block.sites, site.Legible a) :
    block.range.InCode a := by
  cases block
  exact (h _ List.mem_cons_self).inCode

/-- The first site of an expression is its range, of which a literal asks even more. -/
theorem Expr.inCode_range {expr : Expr} (h : ∀ site ∈ expr.sites, site.Legible a) :
    expr.range.InCode a := by
  cases expr with
  | literal range value => exact (h _ List.mem_cons_self).inCode.1.toInCode
  | functionDef definition => exact FunctionDef.inCode_range h
  | classDef definition => exact ClassDef.inCode_range h
  | _ => exact (h _ List.mem_cons_self).inCode

/-! ## Default values -/

variable (a b) in
/-- The recovery of the first branch of a conditional overlooks comments. -/
def Expr.BranchOverlooks : Expr → Prop
  | .conditional _ _ value _ => (value.fragmentOf value.recover).Overlooks a b
  | _ => True

variable (a b) in
/-- The recovery of what the expression may set as a default value overlooks comments. -/
def Expr.DefaultOverlooks : Expr → Prop
  | .binary _ _ _ right => right.BranchOverlooks a b
  | _ => True

variable (a b) in
/-- The recovery of an expression overlooks comments, and so does that of the default value it may
set. -/
structure Expr.Overlooks (expr : Expr) : Prop where
  fragment : (expr.fragmentOf expr.recover).Overlooks a b
  branch : expr.BranchOverlooks a b
  default : expr.DefaultOverlooks a b

/-- Only an expression that sets a default value adds one to the list. -/
theorem initialisers_cons_overlooks {statement : Stmt} {rest : List Stmt}
    (h : ∀ range expr, statement = .expression range expr → expr.DefaultOverlooks a b)
    (hrest : ∀ found ∈ initialisers rest, ∀ value ∈ found, value.2.Overlooks a b) :
    ∀ found ∈ initialisers (statement :: rest), ∀ value ∈ found, value.2.Overlooks a b :=
  forall_initialisers_cons (fun _ _ _ _ _ _ _ _ hset => h _ _ hset) hrest

/-! ## The induction -/

variable (twins : a.Twins b)
include twins

-- Within the mutual block the linter overlooks the calls that hand on `twins`.
set_option linter.unusedSectionVars false

mutual

/-- By induction on the expression, with the rule of each construct. -/
theorem Expr.overlooks (expr : Expr) (h : ∀ site ∈ expr.sites, site.Legible a) :
    expr.Overlooks a b :=
  match expr with
  | .ident name =>
    ⟨⟨Expr.inCode_range h, Rule.passes_ident twins (Expr.inCode_range h)⟩, trivial, trivial⟩
  | .literal range value => by
    obtain ⟨hrange, hquote⟩ := (h _ List.mem_cons_self).inCode
    refine ⟨⟨hrange.toInCode, Rule.passes_literal twins hrange ?_⟩, trivial, trivial⟩
    rintro text rfl
    exact hquote rfl
  | .array range elements => by
    obtain ⟨hrange, helements⟩ := List.forall_mem_cons.1 h
    exact ⟨⟨hrange.inCode, Rule.passes_array twins hrange.inCode
      (elementFragments_overlook elements helements)⟩, trivial, trivial⟩
  | .unary range operator operand => by
    obtain ⟨hrange, hoperand⟩ := List.forall_mem_cons.1 h
    exact ⟨⟨hrange.inCode, Rule.passes_unary twins operator hrange.inCode
      (operand.overlooks hoperand).fragment⟩, trivial, trivial⟩
  | .binary range operator left right => by
    obtain ⟨hrange, hparts⟩ := List.forall_mem_cons.1 h
    obtain ⟨hleft, hright⟩ := List.forall_mem_append.1 hparts
    exact ⟨⟨hrange.inCode, Rule.passes_binary twins operator hrange.inCode
      (left.overlooks hleft).fragment (right.overlooks hright).fragment⟩, trivial,
      (right.overlooks hright).branch⟩
  | .conditional range test consequent alternate => by
    obtain ⟨hrange, hparts⟩ := List.forall_mem_cons.1 h
    obtain ⟨htest, hbranches⟩ := List.forall_mem_append.1 hparts
    obtain ⟨hconsequent, halternate⟩ := List.forall_mem_append.1 hbranches
    exact ⟨⟨hrange.inCode, Rule.passes_conditional twins hrange.inCode
      (test.overlooks htest).fragment (consequent.overlooks hconsequent).fragment
      (alternate.overlooks halternate).fragment⟩,
      (consequent.overlooks hconsequent).fragment, trivial⟩
  | .call range callee arguments => by
    obtain ⟨hrange, hparts⟩ := List.forall_mem_cons.1 h
    obtain ⟨hcallee, harguments⟩ := List.forall_mem_append.1 hparts
    exact ⟨⟨hrange.inCode, Rule.passes_call twins hrange.inCode
      (callee.overlooks hcallee).fragment (argumentFragments_overlook arguments harguments)⟩,
      trivial, trivial⟩
  | .access range base property => by
    obtain ⟨hrange, hbase⟩ := List.forall_mem_cons.1 h
    exact ⟨⟨hrange.inCode, Rule.passes_access twins property hrange.inCode
      (base.overlooks hbase).fragment⟩, trivial, trivial⟩
  | .index range base index => by
    obtain ⟨hrange, hparts⟩ := List.forall_mem_cons.1 h
    obtain ⟨hbase, hindex⟩ := List.forall_mem_append.1 hparts
    exact ⟨⟨hrange.inCode, Rule.passes_index twins hrange.inCode (base.overlooks hbase).fragment
      (index.overlooks hindex).fragment⟩, trivial, trivial⟩
  | .object range members => by
    obtain ⟨hrange, hmembers⟩ := List.forall_mem_cons.1 h
    exact ⟨⟨hrange.inCode, Rule.passes_object twins hrange.inCode
      (memberBuilds_overlook members hmembers)⟩, trivial, trivial⟩
  | .functionDef definition =>
    ⟨⟨Expr.inCode_range h, Rule.passes_functionExpression twins (definition.overlooks h)⟩,
      trivial, trivial⟩
  | .classDef definition =>
    ⟨⟨Expr.inCode_range h, Rule.passes_classExpression twins (definition.overlooks h)⟩,
      trivial, trivial⟩
termination_by structural expr

/-- Each element has its sites among those of the array. -/
theorem elementFragments_overlook (elements : List (Option Expr))
    (h : ∀ site ∈ elementSites elements, site.Legible a) :
    ∀ element ∈ elementFragments elements, ∀ part ∈ element, part.Overlooks a b :=
  match elements with
  | [] => List.forall_mem_nil _
  | none :: rest =>
    List.forall_mem_cons.2
      ⟨fun _ hnone => (by cases hnone), elementFragments_overlook rest h⟩
  | some element :: rest => by
    obtain ⟨helement, hrest⟩ := List.forall_mem_append.1 h
    refine List.forall_mem_cons.2 ⟨fun part hpart => ?_, elementFragments_overlook rest hrest⟩
    cases hpart
    exact (element.overlooks helement).fragment
termination_by structural elements

/-- Each argument has its sites among those of the call. -/
theorem argumentFragments_overlook (arguments : List Expr)
    (h : ∀ site ∈ argumentSites arguments, site.Legible a) :
    ∀ argument ∈ argumentFragments arguments, argument.Overlooks a b :=
  match arguments with
  | [] => List.forall_mem_nil _
  | argument :: rest => by
    obtain ⟨hargument, hrest⟩ := List.forall_mem_append.1 h
    exact List.forall_mem_cons.2
      ⟨(argument.overlooks hargument).fragment, argumentFragments_overlook rest hrest⟩
termination_by structural arguments

/-- An expression that is left out has no sites, and nothing to recover. -/
theorem optionalFragment_overlooks (expr : Option Expr)
    (h : ∀ site ∈ optionalSites expr, site.Legible a) :
    ∀ part ∈ optionalFragment expr, part.Overlooks a b :=
  match expr with
  | none => fun _ hnone => by cases hnone
  | some expr => fun part hpart => by
    cases hpart
    exact (expr.overlooks h).fragment
termination_by structural expr

/-- The sites of key, value and accessors are sites of the member. -/
theorem Member.overlooks (member : Member) (h : ∀ site ∈ member.sites, site.Legible a) :
    member.fragment.Overlooks a b :=
  match member with
  | ⟨_, key, value, getter, setter, _, _⟩ => by
    obtain ⟨hrange, hparts⟩ := List.forall_mem_cons.1 h
    obtain ⟨hkey, hvalues⟩ := List.forall_mem_append.1 hparts
    obtain ⟨hvalue, haccessors⟩ := List.forall_mem_append.1 hvalues
    obtain ⟨hgetter, hsetter⟩ := List.forall_mem_append.1 haccessors
    exact
      { range := hrange.inCode
        key := (key.overlooks hkey).fragment
        value := memberValue_overlooks value hvalue
        getter := accessorFragment_overlooks getter hgetter
        setter := accessorFragment_overlooks setter hsetter }
termination_by structural member

/-- A value is recovered as a method or as another expression, from the same sites. -/
theorem memberValue_overlooks (value : Option Expr)
    (h : ∀ site ∈ optionalSites value, site.Legible a) :
    ∀ part ∈ memberValue value, part.Overlooks a b :=
  match value with
  | none => fun _ hnone => by cases hnone
  | some value => by
    have hvalue := (value.overlooks h).fragment
    cases value with
    | functionDef definition =>
      have hdefinition := definition.overlooks h
      exact forall_memberValue_function hdefinition hvalue
    | _ =>
      intro part hpart
      cases hpart
      exact hvalue
termination_by structural value

/-- An accessor that is missing has no sites, and nothing to recover. -/
theorem accessorFragment_overlooks (accessor : Option FunctionDef)
    (h : ∀ site ∈ accessorSites accessor, site.Legible a) :
    ∀ function ∈ accessorFragment accessor, function.Overlooks a b :=
  match accessor with
  | none => fun _ hnone => by cases hnone
  | some definition => fun part hpart => by
    cases hpart
    exact definition.overlooks h
termination_by structural accessor

/-- Each member has its sites among those of the object. -/
theorem memberBuilds_overlook (members : List Member)
    (h : ∀ site ∈ memberSites members, site.Legible a) :
    ∀ build ∈ memberBuilds members, Passes a b build :=
  match members with
  | [] => List.forall_mem_nil _
  | member :: rest => by
    obtain ⟨hmember, hrest⟩ := List.forall_mem_append.1 h
    exact List.forall_mem_cons.2
      ⟨Rule.passes_member twins (member.overlooks hmember), memberBuilds_overlook rest hrest⟩
termination_by structural members

/-- Each element has its sites among those of the class. -/
theorem elementBuilds_overlook (members : List Member)
    (h : ∀ site ∈ memberSites members, site.Legible a) :
    ∀ element ∈ elementBuilds members, Passes a b element.build :=
  match members with
  | [] => List.forall_mem_nil _
  | member :: rest => by
    obtain ⟨hmember, hrest⟩ := List.forall_mem_append.1 h
    exact List.forall_mem_cons.2
      ⟨Rule.passes_member twins (member.overlooks hmember), elementBuilds_overlook rest hrest⟩
termination_by structural members

/-- The body of a function has its sites, and so have the default values of its parameters. -/
theorem FunctionDef.overlooks (definition : FunctionDef)
    (h : ∀ site ∈ definition.sites, site.Legible a) : definition.fragment.Overlooks a b :=
  match definition with
  | ⟨_, _, _, parameters, body, _, _, _, _⟩ => by
    obtain ⟨hrange, hrest⟩ := List.forall_mem_cons.1 h
    obtain ⟨hname, hparts⟩ := List.forall_mem_cons.1 hrest
    obtain ⟨hparameters, hbody⟩ := List.forall_mem_append.1 hparts
    exact
      { range := hrange.inCode
        name := hname.inCode
        parameters := fun parameter hmem => (hparameters _ (List.mem_map_of_mem hmem)).inCode
        body := ⟨Block.inCode_range hbody, body.overlooks hbody⟩
        defaults := body.defaults_overlook hbody }
termination_by structural definition

/-- Whether the default constructor is left out is seen from the tree alone. -/
theorem ClassDef.overlooks (definition : ClassDef)
    (h : ∀ site ∈ definition.sites, site.Legible a) : definition.fragment.Overlooks a b :=
  match definition with
  | ⟨range, name, heritage, constructor?, elements⟩ => by
    obtain ⟨hrange, hparts⟩ := List.forall_mem_cons.1 h
    obtain ⟨hname, hparts⟩ := List.forall_mem_append.1 hparts
    obtain ⟨hheritage, hparts⟩ := List.forall_mem_append.1 hparts
    obtain ⟨hconstructor, helements⟩ := List.forall_mem_append.1 hparts
    have hname : ∀ part ∈ name, part.range.InCode a := fun part hpart =>
      (hname part.site (List.mem_map_of_mem (Option.mem_toList.2 hpart))).inCode
    have hheritage := optionalFragment_overlooks heritage hheritage
    have helements := elementBuilds_overlook elements helements
    cases constructor? with
    | none => exact ⟨hrange.inCode, hname, hheritage, helements⟩
    | some member =>
      have hmember := Rule.passes_member twins (member.overlooks hconstructor)
      refine ⟨hrange.inCode, hname, hheritage, ?_⟩
      simp only [ClassDef.fragment]
      split
      · exact helements
      · exact List.forall_mem_cons.2 ⟨hmember, helements⟩
termination_by structural definition

/-- Each statement has its sites among those of the block. -/
theorem Block.overlooks (block : Block) (h : ∀ site ∈ block.sites, site.Legible a) :
    Passes a b block.recover :=
  match block with
  | ⟨_, kind, statements⟩ => by
    obtain ⟨hrange, hstatements⟩ := List.forall_mem_cons.1 h
    exact Rule.passes_block twins kind hrange.inCode
      (statementFragments_overlook statements hstatements)
termination_by structural block

/-- Default values are set by statements of the block. -/
theorem Block.defaults_overlook (block : Block) (h : ∀ site ∈ block.sites, site.Legible a) :
    ∀ value ∈ block.defaults, value.2.Overlooks a b :=
  match block with
  | ⟨_, .parameter, statements⟩ => fun value hvalue => by
    have hoverlook := initialisers_overlook statements (List.forall_mem_cons.1 h).2
    obtain ⟨found, hfound, heq⟩ := List.mem_filterMap.1 hvalue
    exact hoverlook found (List.dropLast_subset _ hfound) value heq
  | ⟨_, .braced, _⟩ => List.forall_mem_nil _
  | ⟨_, .synthetic, _⟩ => List.forall_mem_nil _
termination_by structural block

/-- What sets a default value is an expression statement, whose sites are known. -/
theorem initialisers_overlook (statements : List Stmt)
    (h : ∀ site ∈ statementSites statements, site.Legible a) :
    ∀ found ∈ initialisers statements, ∀ value ∈ found, value.2.Overlooks a b :=
  match statements with
  | [] => List.forall_mem_nil _
  | statement :: rest => by
    obtain ⟨hstatement, hrest⟩ := List.forall_mem_append.1 h
    have hrest := initialisers_overlook rest hrest
    cases statement with
    | expression _ expr =>
      have hexpr := expr.overlooks (List.forall_mem_cons.1 hstatement).2
      exact initialisers_cons_overlooks (fun _ _ heq => by cases heq; exact hexpr.default) hrest
    | _ => exact initialisers_cons_overlooks (fun _ _ heq => by cases heq) hrest
termination_by structural statements

/-- Ranges and headers of statements are among their sites. -/
theorem statementFragments_overlook (statements : List Stmt)
    (h : ∀ site ∈ statementSites statements, site.Legible a) :
    ∀ statement ∈ statementFragments statements, statement.Overlooks a b :=
  match statements with
  | [] => List.forall_mem_nil _
  | statement :: rest => by
    obtain ⟨hstatement, hrest⟩ := List.forall_mem_append.1 h
    have hrest := statementFragments_overlook rest hrest
    have hbuild := statement.overlooks hstatement
    cases statement with
    | forLoop loop =>
      have hloop := loop.overlooks hstatement
      refine List.forall_mem_cons.2 ⟨⟨hbuild, fun found hfound => ?_⟩, hrest⟩
      cases hfound
      exact hloop
    | _ => exact List.forall_mem_cons.2 ⟨⟨hbuild, fun _ hnone => by cases hnone⟩, hrest⟩
termination_by structural statements

/-- A branch that is left out has no sites, and nothing to recover. -/
theorem optionalBlock_overlooks (block : Option Block)
    (h : ∀ site ∈ blockSites block, site.Legible a) :
    ∀ part ∈ optionalBlock block, part.Overlooks a b :=
  match block with
  | none => fun _ hnone => by cases hnone
  | some block => fun part hpart => by
    cases hpart
    exact ⟨Block.inCode_range h, block.overlooks h⟩
termination_by structural block

/-- By cases of the statement, with the rule of each. -/
theorem Stmt.overlooks (statement : Stmt) (h : ∀ site ∈ statement.sites, site.Legible a) :
    Passes a b statement.recover :=
  match statement with
  | .binding definition => definition.overlooks h
  | .expression _ expr => by
    obtain ⟨-, hexpr⟩ := List.forall_mem_cons.1 h
    exact Rule.passes_expressionStatement twins (expr.overlooks hexpr).fragment
  | .block body => body.overlooks h
  | .empty range => Rule.passes_emptyStatement twins (h _ List.mem_cons_self).inCode
  | .ifElse range test pass fail => by
    obtain ⟨hrange, hparts⟩ := List.forall_mem_cons.1 h
    obtain ⟨htest, hbranches⟩ := List.forall_mem_append.1 hparts
    obtain ⟨hpass, hfail⟩ := List.forall_mem_append.1 hbranches
    exact Rule.passes_ifElse twins hrange.inCode (test.overlooks htest).fragment
      ⟨Block.inCode_range hpass, pass.overlooks hpass⟩ (optionalBlock_overlooks fail hfail)
  | .forLoop loop => Rule.passes_forLoop twins (loop.overlooks h) fun _ hnone => by cases hnone
  | .whileLoop range isDo test body => by
    obtain ⟨hrange, hparts⟩ := List.forall_mem_cons.1 h
    obtain ⟨htest, hbody⟩ := List.forall_mem_append.1 hparts
    have htest := (test.overlooks htest).fragment
    have hbody : BlockFragment.Overlooks a b ⟨body.range, body.recover⟩ :=
      ⟨Block.inCode_range hbody, body.overlooks hbody⟩
    simp only [Stmt.recover]
    split
    · exact Rule.passes_doLoop twins hrange.inCode htest hbody
    · exact Rule.passes_whileLoop twins hrange.inCode htest hbody
  | .switch range subject cases => by
    obtain ⟨hrange, hparts⟩ := List.forall_mem_cons.1 h
    obtain ⟨hsubject, hcases⟩ := List.forall_mem_append.1 hparts
    exact Rule.passes_switch twins hrange.inCode (subject.overlooks hsubject).fragment
      (caseBuilds_overlook cases hcases)
  | .tryCatch range body catches finalizer => by
    obtain ⟨hrange, hparts⟩ := List.forall_mem_cons.1 h
    obtain ⟨hbody, hclauses⟩ := List.forall_mem_append.1 hparts
    obtain ⟨hcatches, hfinalizer⟩ := List.forall_mem_append.1 hclauses
    exact Rule.passes_tryCatch twins hrange.inCode ⟨Block.inCode_range hbody, body.overlooks hbody⟩
      (catchBuilds_overlook catches hcatches) (optionalBlock_overlooks finalizer hfinalizer)
  | .throwValue range value => by
    obtain ⟨hrange, hvalue⟩ := List.forall_mem_cons.1 h
    exact Rule.passes_throwStatement twins hrange.inCode (value.overlooks hvalue).fragment
  | .returnValue range value isGenerated => by
    obtain ⟨hrange, hvalue⟩ := List.forall_mem_cons.1 h
    exact Rule.passes_returnStatement twins isGenerated hrange.inCode
      (optionalFragment_overlooks value hvalue)
  | .jump range kind label => by
    obtain ⟨hrange, hlabel⟩ := List.forall_mem_cons.1 h
    refine Rule.passes_jump twins kind hrange.inCode fun text htext => ?_
    exact (hlabel _ (List.mem_map_of_mem (Option.mem_toList.2 htext))).inCode
  | .labelled range label body => by
    obtain ⟨hrange, hrest⟩ := List.forall_mem_cons.1 h
    obtain ⟨hlabel, hbody⟩ := List.forall_mem_cons.1 hrest
    exact Rule.passes_labelled twins hrange.inCode hlabel.label
      ⟨Block.inCode_range hbody, body.overlooks hbody⟩
  | .withScope range subject body => by
    obtain ⟨hrange, hparts⟩ := List.forall_mem_cons.1 h
    obtain ⟨hsubject, hbody⟩ := List.forall_mem_append.1 hparts
    exact Rule.passes_withScope twins hrange.inCode (subject.overlooks hsubject).fragment
      ⟨Block.inCode_range hbody, body.overlooks hbody⟩
termination_by structural statement

/-- The sites of a variable are its name and those of its initial value. -/
theorem Binding.overlooks (binding : Binding) (h : ∀ site ∈ binding.sites, site.Legible a) :
    Passes a b binding.recover :=
  match binding with
  | ⟨range, name, none, kind, isFunctionDeclaration⟩ =>
    Rule.passes_binding twins
      ⟨(h _ List.mem_cons_self).inCode, (h _ (List.mem_cons_of_mem _ List.mem_cons_self)).inCode,
        fun _ hnone => by cases hnone⟩
  | ⟨range, name, some value, kind, isFunctionDeclaration⟩ => by
    obtain ⟨hrange, hrest⟩ := List.forall_mem_cons.1 h
    obtain ⟨hname, hparts⟩ := List.forall_mem_cons.1 hrest
    have hvalue := (value.overlooks hparts).fragment
    have hinit : ∀ part ∈ some (value.fragmentOf value.recover), part.Overlooks a b := by
      intro part hpart
      cases hpart
      exact hvalue
    cases value with
    | classDef definition =>
      have hdefinition := definition.overlooks hparts
      simp only [Binding.recover]
      split
      · exact Rule.passes_classDeclaration twins hname.inCode hdefinition
      · exact Rule.passes_binding twins ⟨hrange.inCode, hname.inCode, hinit⟩
    | _ => exact Rule.passes_binding twins ⟨hrange.inCode, hname.inCode, hinit⟩
termination_by structural binding

/-- Each clause of the header has its sites among those of the loop. -/
theorem ForLoop.overlooks (loop : ForLoop) (h : ∀ site ∈ loop.sites, site.Legible a) :
    loop.fragment.Overlooks a b :=
  match loop with
  | ⟨_, _, init, test, update, body⟩ => by
    obtain ⟨hrange, hparts⟩ := List.forall_mem_cons.1 h
    obtain ⟨hinit, hparts⟩ := List.forall_mem_append.1 hparts
    obtain ⟨htest, hparts⟩ := List.forall_mem_append.1 hparts
    obtain ⟨hupdate, hbody⟩ := List.forall_mem_append.1 hparts
    exact
      { range := hrange.inCode
        init := optionalFragment_overlooks init hinit
        test := optionalFragment_overlooks test htest
        update := optionalFragment_overlooks update hupdate
        body := ⟨Block.inCode_range hbody, body.overlooks hbody⟩ }
termination_by structural loop

/-- Each clause has its sites among those of the switch. -/
theorem caseBuilds_overlook (cases : List SwitchCase)
    (h : ∀ site ∈ caseSites cases, site.Legible a) :
    ∀ clause ∈ caseBuilds cases, Passes a b clause.2 :=
  match cases with
  | [] => List.forall_mem_nil _
  | clause :: rest => by
    obtain ⟨hclause, hrest⟩ := List.forall_mem_append.1 h
    exact List.forall_mem_cons.2 ⟨clause.overlooks hclause, caseBuilds_overlook rest hrest⟩
termination_by structural cases

/-- A clause has the sites of its test and of its statements. -/
theorem SwitchCase.overlooks (clause : SwitchCase) (h : ∀ site ∈ clause.sites, site.Legible a) :
    Passes a b clause.recover :=
  match clause with
  | ⟨_, test, statements⟩ => by
    obtain ⟨hrange, hparts⟩ := List.forall_mem_cons.1 h
    obtain ⟨htest, hstatements⟩ := List.forall_mem_append.1 hparts
    exact Rule.passes_switchCase twins hrange.inCode (optionalFragment_overlooks test htest)
      (statementFragments_overlook statements hstatements)
termination_by structural clause

/-- Each handler has its sites among those of the list. -/
theorem catchBuilds_overlook (catches : List CatchClause)
    (h : ∀ site ∈ catchSites catches, site.Legible a) :
    ∀ build ∈ catchBuilds catches, Passes a b build :=
  match catches with
  | [] => List.forall_mem_nil _
  | ⟨range, exception, body⟩ :: rest => by
    obtain ⟨hrange, hclause⟩ := List.forall_mem_cons.1 h
    obtain ⟨hexception, hparts⟩ := List.forall_mem_cons.1 hclause
    obtain ⟨hbody, hrest⟩ := List.forall_mem_append.1 hparts
    exact List.forall_mem_cons.2
      ⟨Rule.passes_catchClause twins hrange.inCode hexception.inCode
        ⟨Block.inCode_range hbody, body.overlooks hbody⟩, catchBuilds_overlook rest hrest⟩
termination_by structural catches

end

/-! ## Programs -/

omit twins in
/-- Imported and bound names are sites, so no comment could be taken for them. -/
theorem ImportEntry.clearNames {entry : ImportEntry} (h : ∀ site ∈ entry.sites, site.Legible a) :
    Rule.ClearNames entry :=
  ⟨(h _ List.mem_cons_self).inCode, (h _ (List.mem_cons_of_mem _ List.mem_cons_self)).inCode⟩

/-- The statements known from the metadata come last, so that nothing depends on where they end. -/
theorem Program.outcome_recover {program : Program} (h : ∀ site ∈ program.sites, site.Legible a)
    {session : Session} (hs : session.EndsAlike a b) :
    program.recover.outcome ⟨a, program.info, true⟩ session =
      program.recover.outcome ⟨b, program.info, true⟩ session := by
  obtain ⟨hbody, himports⟩ := List.forall_mem_append.1 h
  have hnote : Passes a b (Recover.note (.program program.uri)) := .note _
  have hstatements : Passes a b program.body.recover := program.body.overlooks twins hbody
  refine outcome_bind_congr (hnote.same program.info session hs) fun _ noted hrun => ?_
  obtain ⟨hnoted, -⟩ := hnote.kept program.info session noted _ hs hrun
  refine outcome_bind_congr (hstatements.same program.info noted hnoted) fun _ later hrun => ?_
  obtain ⟨hlater, -⟩ := hstatements.kept program.info noted later _ hnoted hrun
  split
  · next info hinfo =>
    refine Rule.outcome_moduleItems twins (fun entry hentry => ?_) program.info hlater
    refine ImportEntry.clearNames fun site hsite => himports site ?_
    rw [hinfo, Option.toList_some, List.flatMap_singleton]
    exact List.mem_flatMap.2 ⟨entry, hentry, hsite⟩
  · rfl

end Concretion
