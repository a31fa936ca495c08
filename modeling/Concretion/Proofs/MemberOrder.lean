import Concretion.Proofs.Members
import Concretion.Proofs.WellLaid
import Concretion.Recovery.Tree

/-!
# The order of members

A member with two accessors has one node of the abstract tree and two of the concrete one. The nodes
of a member come one behind the other, so whatever is written between its accessors comes too late,
in an object literal as well as in a class: the members of a class are sorted before the accessors
become nodes of their own.

- `Holder`: what has members, in the order in which they are recovered.
- `Unparted`: nothing is written between the two accessors of a member.
- `pairwise_flatten_iff_unparted`: the places of all members are in order just if nothing is.
- `members_in_order_iff`: and so are the nodes, which never overlap.
-/

namespace Concretion

open Recover

/-! ## What has members -/

/-- The members of a class that are written. A constructor made up for it is not. -/
def ClassDef.writtenMembers (definition : ClassDef) : List Member :=
  match definition.constructor? with
  | none => definition.elements
  | some member =>
    if definition.isImplicitConstructor member then definition.elements
    else member :: definition.elements

/-- An object literal, or the body of a class. -/
inductive Holder where
  | object (range : Range) (members : List Member)
  | classBody (definition : ClassDef)

namespace Holder

def recover : Holder → Recover Unit
  | object range members => (Expr.object range members).recover
  | classBody definition => Rule.classBody definition.fragment

/-- The members in the order in which they are recovered. -/
def members : Holder → List Member
  | object _ members => members
  | classBody definition =>
    definition.writtenMembers.mergeSort fun a b => a.range.start ≤ b.range.start

/-- The members of an object literal are given in the order of their starts. Those of a class are
put in this order. -/
def GivenInOrder : Holder → Prop
  | object _ members => members.Pairwise fun a b => a.range.start ≤ b.range.start
  | classBody _ => True

/-- Is this the kind of node whose children the members become? -/
def owns : Holder → NodeKind → Bool
  | object _ _, .object _ _ => true
  | classBody _, .statements (some _) (some _) => true
  | _, _ => false

theorem GivenInOrder.pairwise {holder : Holder} (h : holder.GivenInOrder) :
    holder.members.Pairwise fun a b => a.range.start ≤ b.range.start := by
  cases holder with
  | object range members => exact h
  | classBody definition =>
    let le (a b : Member) : Bool := a.range.start ≤ b.range.start
    have htrans : ∀ a b c, le a b = true → le b c = true → le a c = true := by
      simp only [le, decide_eq_true_eq]
      omega
    have htotal : ∀ a b, (le a b || le b a) = true := by
      simp only [le, Bool.or_eq_true, decide_eq_true_eq]
      omega
    have hsorted := List.pairwise_mergeSort htrans htotal definition.writtenMembers
    exact hsorted.imp fun hle => of_decide_eq_true hle

end Holder

/-! ## Recovery of members -/

theorem Member.range_fragment (member : Member) : member.fragment.range = member.range := by
  cases member
  rfl

theorem memberBuilds_eq (members : List Member) :
    memberBuilds members = members.map fun member => Rule.member member.fragment := by
  induction members with
  | nil => rfl
  | cons member rest ih =>
    rw [List.map_cons, ← ih]
    rfl

theorem elementBuilds_eq (members : List Member) :
    elementBuilds members =
      members.map fun member => ⟨member.range, Rule.member member.fragment⟩ := by
  induction members with
  | nil => rfl
  | cons member rest ih =>
    rw [List.map_cons, ← ih]
    rfl

theorem ClassDef.elements_fragment (definition : ClassDef) :
    definition.fragment.elements = definition.writtenMembers.map fun member =>
      ⟨member.range, Rule.member member.fragment⟩ := by
  obtain ⟨range, name, heritage, constructor, elements⟩ := definition
  cases constructor with
  | none => exact elementBuilds_eq elements
  | some member =>
    show (if _ then elementBuilds elements else _ :: elementBuilds elements) = _
    rw [writtenMembers, elementBuilds_eq]
    dsimp only
    split
    · rfl
    · rfl

/-- To sort what is recovered is to sort the members, for the ranges are the same. -/
theorem ClassDef.mergeSort_elements (definition : ClassDef) :
    definition.fragment.elements.mergeSort (fun a b => a.range.start ≤ b.range.start) =
      (Holder.classBody definition).members.map fun member =>
        ⟨member.range, Rule.member member.fragment⟩ := by
  let element (member : Member) : ElementFragment := ⟨member.range, Rule.member member.fragment⟩
  rw [definition.elements_fragment]
  exact (List.map_mergeSort (f := element) fun _ _ _ _ => rfl).symm

/-- The nodes of the members become the children of a node of their own, which is made to cover
them. -/
theorem Holder.lands_recover {scope : Scope} {holder : Holder} {regions : List (List Range)}
    (h : List.Forall₂ (fun member places => member.fragment.FitsIn scope places) holder.members
      regions) (before : Stack) :
    Lands scope before holder.recover fun _ after => ∃ node span,
      after = before.attach node ∧ holder.owns node.kind = true ∧
        (Node.branch node.kind span node.children).cover = .ok node ∧
        List.Forall₂ Node.Takes node.children regions.flatten := by
  have hfragments : List.Forall₂ (fun member places => member.FitsIn scope places)
      (holder.members.map Member.fragment) regions := List.forall₂_map_left_iff.2 h
  have henter : ∀ (kind : NodeKind) (span : Span) (body : Recover Unit),
      body = (holder.members.map Member.fragment).forM Rule.member → holder.owns kind = true →
      Lands scope before (enter (.leaf kind span) body) fun _ after => ∃ node span,
        after = before.attach node ∧ holder.owns node.kind = true ∧
          (Node.branch node.kind span node.children).cover = .ok node ∧
          List.Forall₂ Node.Takes node.children regions.flatten := by
    rintro kind span _ rfl hkind
    refine (Lands.within (Rule.lands_members hfragments _)).bind ?_
    rintro made _ ⟨rfl, nodes, hcover, hnodes⟩
    obtain ⟨wide, rfl⟩ := Node.eq_of_cover hcover
    exact .attach ⟨_, span, rfl, hkind, hcover, hnodes⟩
  -- Both sorts of holder come down to this, after they have looked for their braces.
  cases holder with
  | object range members =>
    show Lands scope before (Rule.object range (memberBuilds members)) _
    refine .look (Looks.rangeSpan _ _) fun span _ => ?_
    refine .look (Looks.findAtOrAfter _ _ _ _) fun lbrace _ => ?_
    refine .look (Looks.findEndingAt _ _ _ _) fun rbrace _ => henter _ _ _ ?_ rfl
    rw [memberBuilds_eq, List.forM_eq_forM, List.forM_eq_forM, List.forM_map, List.forM_map]
    rfl
  | classBody definition =>
    refine .look (Looks.find _ _ _ _) fun lbrace _ => ?_
    refine .look (Looks.findEndingAt _ _ _ _) fun rbrace _ => ?_
    refine .look (Looks.mergeSpans _ _) fun span _ => henter _ _ _ ?_ rfl
    rw [definition.mergeSort_elements, List.forM_eq_forM, List.forM_eq_forM, List.forM_map,
      List.forM_map]

/-! ## The order of places -/

/-- One range ends before the other one begins. -/
def Range.Apart (a b : Range) : Prop := a.finish ≤ b.start ∨ b.finish ≤ a.start

/-- Nothing is written between the two places of a member. -/
def Unparted (regions : List (List Range)) : Prop :=
  ∀ first second, [first, second] ∈ regions → ∀ other ∈ regions.flatten,
    ¬ (first.start < other.start ∧ other.start < second.start)

namespace Node.Takes

variable {nodes : List Node} {places : List Range}

theorem nonempty (h : List.Forall₂ Node.Takes nodes places) :
    ∀ place ∈ places, place.start < place.finish := by
  induction h with
  | nil => exact List.forall_mem_nil _
  | cons hnode _ ih =>
    refine List.forall_mem_cons.2 ⟨?_, ih⟩
    obtain ⟨hstart, hordered, hlast⟩ := hnode.liesIn
    omega

theorem ordered (h : List.Forall₂ Node.Takes nodes places) :
    ∀ node ∈ nodes, node.span.Ordered := by
  induction h with
  | nil => exact List.forall_mem_nil _
  | cons hnode _ ih => exact List.forall_mem_cons.2 ⟨hnode.liesIn.ordered, ih⟩

theorem map_start (h : List.Forall₂ Node.Takes nodes places) :
    nodes.map Node.start = places.map Range.start := by
  induction h with
  | nil => rfl
  | cons hnode _ ih => rw [List.map_cons, List.map_cons, hnode.start, ih]

/-- Nodes are in order just if their places are. -/
theorem pairwise_start_iff (h : List.Forall₂ Node.Takes nodes places) :
    (nodes.Pairwise fun a b => a.start ≤ b.start) ↔
      places.Pairwise fun a b => a.start ≤ b.start := by
  have hnodes : (nodes.map Node.start).Pairwise (· ≤ ·) ↔
      nodes.Pairwise fun a b => a.start ≤ b.start := List.pairwise_map
  have hplaces : (places.map Range.start).Pairwise (· ≤ ·) ↔
      places.Pairwise fun a b => a.start ≤ b.start := List.pairwise_map
  rw [← hnodes, ← hplaces, map_start h]

/-- Nodes whose places are apart share no offset. -/
theorem pairwise_not_meets (h : List.Forall₂ Node.Takes nodes places)
    (hapart : places.Pairwise Range.Apart) :
    nodes.Pairwise fun a b => ¬ a.span.Meets b.span := by
  induction h with
  | nil => exact .nil
  | @cons node place nodes places hnode hrest ih =>
    obtain ⟨hfirst, hothers⟩ := List.pairwise_cons.1 hapart
    refine List.pairwise_cons.2 ⟨?_, ih hothers⟩
    -- Nodes in places that are apart do not meet, since each lies in its own.
    have hclear : ∀ (others : List Node) (ranges : List Range),
        List.Forall₂ Node.Takes others ranges → (∀ range ∈ ranges, place.Apart range) →
          ∀ other ∈ others, ¬ node.span.Meets other.span := by
      intro others ranges htakes hranges
      induction htakes with
      | nil => exact List.forall_mem_nil _
      | @cons other range others ranges hother _ ih =>
        obtain ⟨hrange, hranges⟩ := List.forall_mem_cons.1 hranges
        refine List.forall_mem_cons.2 ⟨?_, ih hranges⟩
        rw [Span.meets_iff hnode.liesIn.ordered hother.liesIn.ordered]
        have hstart := hnode.liesIn.start
        have hlast := hnode.liesIn.last
        have hstart' := hother.liesIn.start
        have hlast' := hother.liesIn.last
        rcases hrange with hbefore | hbehind
        · omega
        · omega
    exact hclear nodes places hrest hfirst

end Node.Takes

/-- What the places of well-formed members look like: there is one, or a second one behind it. -/
theorem MemberFragment.FitsIn.cases_places {scope : Scope} {member : MemberFragment}
    {places : List Range} (h : member.FitsIn scope places) :
    ∃ place, place.start = member.range.start ∧ (places = [place] ∨
      ∃ other, places = [place, other] ∧ place.finish ≤ other.start) := by
  cases h with
  | expression _ _ _ hplace _ => exact ⟨_, hplace.start, .inl rfl⟩
  | method _ _ _ hplace _ => exact ⟨_, hplace.start, .inl rfl⟩
  | accessor _ hplace _ => exact ⟨_, hplace.start, .inl rfl⟩
  | accessors _ hplace _ _ hbehind _ => exact ⟨_, hplace.start, .inr ⟨_, rfl, hbehind⟩⟩

/-- No place begins before all of the members do. -/
theorem le_start_of_fits {scope : Scope} {members : List Member} {regions : List (List Range)}
    (hfits : List.Forall₂ (fun member places => member.fragment.FitsIn scope places)
      members regions)
    {bound : Nat} (hbound : ∀ member ∈ members, bound ≤ member.range.start)
    (hnonempty : ∀ place ∈ regions.flatten, place.start < place.finish) :
    ∀ place ∈ regions.flatten, bound ≤ place.start := by
  induction hfits with
  | nil => exact List.forall_mem_nil _
  | @cons member places members regions hmember _ ih =>
    rw [List.flatten_cons] at hnonempty ⊢
    obtain ⟨hfirst, hrest⟩ := List.forall_mem_cons.1 hbound
    obtain ⟨hplaces, hothers⟩ := List.forall_mem_append.1 hnonempty
    refine List.forall_mem_append.2 ⟨?_, ih hrest hothers⟩
    obtain ⟨place, hstart, hcases⟩ := hmember.cases_places
    have hle : bound ≤ place.start := by rwa [hstart, member.range_fragment]
    rcases hcases with rfl | ⟨other, rfl, hbehind⟩
    · exact List.forall_mem_singleton.2 hle
    · have hlt := hplaces place List.mem_cons_self
      refine List.forall_mem_cons.2 ⟨hle, List.forall_mem_singleton.2 ?_⟩
      omega

/-- A range that is apart from a place, begins no earlier, and does not begin before another place
that is further behind, begins behind that place as well. -/
theorem Range.Apart.le_start {place other later : Range} (h : place.Apart later)
    (hplace : place.start < place.finish) (hlater : later.start < later.finish)
    (hle : place.start ≤ later.start)
    (hbetween : ¬ (place.start < later.start ∧ later.start < other.start)) :
    other.start ≤ later.start := by
  rcases h with hbefore | hbehind
  · omega
  · omega

/-- Between two places that come one behind the other in a list in order, no place of the list
begins. -/
theorem unparted_of_pairwise {regions : List (List Range)}
    (h : regions.flatten.Pairwise fun a b => a.start ≤ b.start) : Unparted regions := by
  intro first second hmem other hother hbetween
  obtain ⟨front, back, rfl⟩ := List.append_of_mem hmem
  rw [List.flatten_append, List.flatten_cons] at h hother
  obtain ⟨-, hpair, hfront⟩ := List.pairwise_append.1 h
  obtain ⟨-, hpair⟩ := List.pairwise_cons.1 hpair
  obtain ⟨hback, -⟩ := List.pairwise_cons.1 hpair
  -- a place in front of both begins before the first one, and a place behind both after the second
  rcases List.mem_append.1 hother with hother | hother
  · have hle := hfront other hother first List.mem_cons_self
    omega
  · rcases List.mem_cons.1 hother with rfl | hother
    · omega
    · rcases List.mem_cons.1 hother with rfl | hother
      · omega
      · have hle := hback other hother
        omega

/-- The induction is on the members in the order of their starts: no place of a later member begins
before the member does, and none begins between its two places. -/
theorem pairwise_of_unparted {scope : Scope} {members : List Member} {regions : List (List Range)}
    (hfits : List.Forall₂ (fun member places => member.fragment.FitsIn scope places)
      members regions)
    (hsorted : members.Pairwise fun a b => a.range.start ≤ b.range.start)
    (hnonempty : ∀ place ∈ regions.flatten, place.start < place.finish)
    (hapart : regions.flatten.Pairwise Range.Apart) (hunparted : Unparted regions) :
    regions.flatten.Pairwise fun a b => a.start ≤ b.start := by
  induction hfits with
  | nil => exact .nil
  | @cons member places members regions hmember hrest ih =>
    rw [List.flatten_cons] at hnonempty hapart ⊢
    obtain ⟨hfirst, hothers⟩ := List.pairwise_cons.1 hsorted
    obtain ⟨hplaces, hlater⟩ := List.forall_mem_append.1 hnonempty
    obtain ⟨-, hapart, hcross⟩ := List.pairwise_append.1 hapart
    have hinner : Unparted regions := by
      intro first second hmem other hother
      refine hunparted first second (List.mem_cons_of_mem _ hmem) other ?_
      rw [List.flatten_cons]
      exact List.mem_append_right _ hother
    have hordered := ih hothers hlater hapart hinner
    obtain ⟨place, hstart, hcases⟩ := hmember.cases_places
    rw [member.range_fragment] at hstart
    -- Members are sorted by where they begin, so all that comes later begins behind the first
    -- place.
    have hbehind : ∀ later ∈ regions.flatten, place.start ≤ later.start := by
      rw [hstart]
      exact le_start_of_fits hrest hfirst hlater
    rcases hcases with rfl | ⟨other, rfl, hle⟩
    · refine List.pairwise_append.2 ⟨List.pairwise_singleton _ _, hordered, ?_⟩
      exact List.forall_mem_singleton.2 hbehind
    · have hplace := hplaces place List.mem_cons_self
      -- A second place is that of the other accessor. What comes later is apart from the first
      -- place and does not lie between the two, so it begins behind the second one as well.
      have hfurther : ∀ later ∈ regions.flatten, other.start ≤ later.start := by
        intro later hmem
        refine (hcross place List.mem_cons_self later hmem).le_start hplace (hlater later hmem)
          (hbehind later hmem) (hunparted place other List.mem_cons_self later ?_)
        rw [List.flatten_cons]
        exact List.mem_append_right _ hmem
      refine List.pairwise_append.2 ⟨List.pairwise_pair.2 ?_, hordered, ?_⟩
      · omega
      · exact List.forall_mem_cons.2 ⟨hbehind, List.forall_mem_singleton.2 hfurther⟩

/-- The places of members that are given in order are in order themselves just if nothing is written
between the two places of a member. -/
theorem pairwise_flatten_iff_unparted {scope : Scope} {members : List Member}
    {regions : List (List Range)}
    (hfits : List.Forall₂ (fun member places => member.fragment.FitsIn scope places)
      members regions)
    (hsorted : members.Pairwise fun a b => a.range.start ≤ b.range.start)
    (hnonempty : ∀ place ∈ regions.flatten, place.start < place.finish)
    (hapart : regions.flatten.Pairwise Range.Apart) :
    (regions.flatten.Pairwise fun a b => a.start ≤ b.start) ↔ Unparted regions := by
  constructor
  · exact unparted_of_pairwise
  · exact pairwise_of_unparted hfits hsorted hnonempty hapart

/-- The members of an object literal or of a class that is recovered have nodes that begin where
they are written and that share no offset, one for each accessor and for each other member. These
nodes are in order just if nothing is written between the two accessors of a member, and the check
refuses them if anything is. -/
theorem members_in_order_iff {scope : Scope} {holder : Holder} {regions : List (List Range)}
    {session later : Session} (hskips : session.skipsName = false) (hgiven : holder.GivenInOrder)
    (hfits : List.Forall₂ (fun member places => member.fragment.FitsIn scope places) holder.members
      regions)
    (hapart : regions.flatten.Pairwise Range.Apart)
    (hrun : holder.recover.outcome scope session = (.ok (), later)) :
    ∃ node, later.stack = session.stack.attach node ∧ holder.owns node.kind = true ∧
      List.Forall₂ Node.Takes node.children regions.flatten ∧
      (node.children.Pairwise fun a b => ¬ a.span.Meets b.span) ∧
      ((node.children.Pairwise fun a b => a.start ≤ b.start) ↔ Unparted regions) ∧
      (node.check = .ok () ↔
        (Node.checkSelf node.kind node.span node.children.length = .ok () ∧
          ∀ child ∈ node.children, child.check = .ok ()) ∧ Unparted regions) := by
  obtain ⟨-, node, span, hstack, hkind, hcover, htakes⟩ :=
    holder.lands_recover hfits session.stack session rfl hskips () later hrun
  have hnonempty := Node.Takes.nonempty htakes
  have hspans := Node.Takes.ordered htakes
  have hmeets := Node.Takes.pairwise_not_meets htakes hapart
  have horder : (node.children.Pairwise fun a b => a.start ≤ b.start) ↔ Unparted regions :=
    (Node.Takes.pairwise_start_iff htakes).trans
      (pairwise_flatten_iff_unparted hfits hgiven.pairwise hnonempty hapart)
  refine ⟨node, hstack, hkind, htakes, hmeets, horder, ?_⟩
  have hnone : ∀ other ∈ (none : Option Span),
      other.Ordered ∧ ∃ before ∈ (none : Option Span), other.start ≤ before.start := by
    rintro other ⟨⟩
  have hdisjoint : node.children.Pairwise fun a b =>
      a.isPlaceholder = false → b.isPlaceholder = false → a.span.disjoint b.span = true := by
    refine hmeets.imp_of_mem fun {a b} ha hb hclear _ _ => ?_
    exact (Span.not_meets_iff (hspans a ha) (hspans b hb)).1 hclear
  rw [Node.check_eq_ok_iff, Node.checkChildren_eq_ok_iff hspans hnone, ← horder]
  constructor
  · rintro ⟨hself, hfollow, hchildren⟩
    exact ⟨⟨hself, hchildren⟩, hfollow.ordered⟩
  · rintro ⟨⟨hself, hchildren⟩, hordered⟩
    refine ⟨hself, ⟨?_, hordered, hdisjoint, ?_, ?_⟩, hchildren⟩
    · exact (Node.contains_of_cover hcover).2
    · rintro other ⟨⟩
    · rintro other ⟨⟩

/-! ## A property between two accessors -/

/-- A getter, and a setter of the same name behind whatever comes next. -/
def Member.sampleAccessors : Member :=
  ⟨⟨1, 10⟩, .ident ⟨⟨5, 6⟩, "a", false, false⟩, none,
    some ⟨⟨5, 10⟩, ⟨⟨5, 6⟩, "a", false, false⟩, .getter, [], ⟨⟨8, 10⟩, .braced, []⟩, false, true,
      false, false⟩,
    some ⟨⟨19, 25⟩, ⟨⟨19, 20⟩, "a", false, false⟩, .setter, [⟨⟨21, 22⟩, "d", false, false⟩],
      ⟨⟨23, 25⟩, .braced, []⟩, false, true, false, false⟩,
    false, false⟩

/-- A key and its value. -/
def Member.samplePair : Member :=
  ⟨⟨11, 14⟩, .ident ⟨⟨11, 12⟩, "b", false, false⟩, some (.ident ⟨⟨13, 14⟩, "c", false, false⟩),
    none, none, false, false⟩

/-- The text in which these members are written. -/
def Scope.sample : Scope :=
  .of "\x7bget a()\x7b\x7d,b:c,set a(d)\x7b\x7d\x7d" none ⟨.skipTrivia, true, false⟩

theorem Member.fits_sampleAccessors :
    Member.sampleAccessors.fragment.FitsIn .sample [⟨1, 10⟩, ⟨15, 25⟩] := by
  have hgetter : Range.Inside ⟨5, 6⟩ ⟨1, 10⟩ := ⟨by decide, by decide, by decide⟩
  have hsetter : Range.Inside ⟨19, 20⟩ ⟨15, 25⟩ := ⟨by decide, by decide, by decide⟩
  have hparameter : Range.Inside ⟨21, 22⟩ ⟨15, 25⟩ := ⟨by decide, by decide, by decide⟩
  refine .accessors (MemberFragment.accessors_of_le rfl rfl (by decide)) ?_ ?_ ?_ (by decide) ?_
  · refine ⟨rfl, Nat.le_refl _, hgetter, fun h => absurd h Bool.false_ne_true, ?_⟩
    exact Rule.fills_ident hgetter
  · refine ⟨by decide, by decide, by decide, fun _ => hgetter, by decide, by decide, by decide, ?_,
      ?_, ?_⟩
    · exact List.forall_mem_nil _
    · exact List.forall_mem_nil _
    · exact Rule.fills_bracedBlock ⟨by decide, by decide, by decide⟩ (by decide) (by decide +kernel)
        (List.forall_mem_nil _)
  · decide +kernel
  · refine ⟨by decide, by decide, by decide, fun _ => hsetter, by decide, by decide, by decide, ?_,
      ?_, ?_⟩
    · exact List.forall_mem_singleton.2 hparameter
    · exact List.forall_mem_nil _
    · exact Rule.fills_bracedBlock ⟨by decide, by decide, by decide⟩ (by decide) (by decide +kernel)
        (List.forall_mem_nil _)

theorem Member.fits_samplePair : Member.samplePair.fragment.FitsIn .sample [⟨11, 14⟩] := by
  have hkey : Range.Inside ⟨11, 12⟩ ⟨11, 14⟩ := ⟨by decide, by decide, by decide⟩
  have hvalue : Range.Inside ⟨13, 14⟩ ⟨11, 14⟩ := ⟨by decide, by decide, by decide⟩
  refine .expression rfl rfl rfl ?_ ?_
  · refine ⟨rfl, Nat.le_refl _, hkey, fun h => absurd h Bool.false_ne_true, ?_⟩
    exact Rule.fills_ident hkey
  · exact ⟨by decide, Rule.fills_ident hvalue⟩

/-- The object literal is recovered without a token missed, but its members are out of order. -/
theorem members_of_sampleObject :
    let holder : Holder := .object ⟨0, 26⟩ [.sampleAccessors, .samplePair]
    let session := Session.start Scope.sample.source
    let regions : List (List Range) := [[⟨1, 10⟩, ⟨15, 25⟩], [⟨11, 14⟩]]
    List.Forall₂ (fun member places => member.fragment.FitsIn .sample places) holder.members
        regions ∧
      ∃ later, holder.recover.outcome .sample session = (.ok (), later) ∧
        later.warnings.size = 0 ∧
        ∃ node, later.stack = session.stack.attach node ∧
          node.children.map Node.start = [1, 15, 11] ∧ node.check ≠ .ok () := by
  intro holder session regions
  have hfits : List.Forall₂ (fun member places => member.fragment.FitsIn .sample places)
      holder.members regions :=
    .cons Member.fits_sampleAccessors (.cons Member.fits_samplePair .nil)
  have hgiven : holder.GivenInOrder := List.pairwise_pair.2 (by decide)
  have hapart : regions.flatten.Pairwise Range.Apart := by
    refine List.pairwise_cons.2 ⟨?_, List.pairwise_pair.2 (.inr (by decide))⟩
    refine List.forall_mem_cons.2 ⟨.inl (by decide), List.forall_mem_singleton.2 (.inl (by decide))⟩
  have hparted : ¬ Unparted regions := fun h =>
    h _ _ List.mem_cons_self ⟨11, 14⟩ (by simp [regions]) ⟨by decide, by decide⟩
  have haccessors : Member.sampleAccessors.fragment.accessors = [(_, .getter), (_, .setter)] :=
    MemberFragment.accessors_of_le rfl rfl (by decide)
  have hmember := Rule.member_of_accessors (haccessors ▸ List.cons_ne_nil _ _)
  rw [haccessors] at hmember
  have hholder : holder.recover = Rule.object ⟨0, 26⟩
      [Rule.member Member.sampleAccessors.fragment, Rule.member Member.samplePair.fragment] := rfl
  have hrun : (holder.recover.outcome .sample session).1.toOption = some () ∧
      (holder.recover.outcome .sample session).2.warnings.size = 0 := by
    rw [hholder, hmember]
    decide +kernel
  rcases hlater : holder.recover.outcome .sample session with ⟨failure | value, later⟩
  · rw [hlater] at hrun
    cases hrun.1
  · rw [hlater] at hrun
    obtain ⟨node, hstack, -, htakes, -, -, hcheck⟩ :=
      members_in_order_iff rfl hgiven hfits hapart hlater
    refine ⟨hfits, later, rfl, hrun.2, node, hstack, Node.Takes.map_start htakes, ?_⟩
    exact fun hok => hparted (hcheck.1 hok).2

end Concretion
