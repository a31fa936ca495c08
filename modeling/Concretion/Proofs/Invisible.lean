import Concretion.Proofs.Comments.Tree
import Concretion.Proofs.Runs

/-!
# Invisible comments

What stands inside of comments has no influence on a recovery: two texts that differ in their
comments only give the same tree or the same failure, and the same journal.

- `Program.outcome_build`: the same for a run that starts in one of the two texts' sessions.
- `concretise_eq_of_twins`: comments are invisible to every program that knows of code only.
- `label_reaches_into_comment`: the end of a label is computed from its text, and has to be in code
  as well.
-/

namespace Concretion

open Recover

variable {a b : Source}

/-- A run starts in a session without nodes. -/
theorem Session.endsAlike_initial (scope : Scope) (uri : String) :
    (initial scope uri).EndsAlike a b where
  stack := ⟨List.forall_mem_nil _, List.forall_mem_nil _⟩
  shelf := List.forall_mem_nil _

/-- The first entries of the journal tell how long the text is and how many comments and literals it
has. -/
theorem Session.initial_eq_of_twins (twins : a.Twins b) (info : Option ModuleInfo) (uri : String) :
    initial ⟨a, info, true⟩ uri = initial ⟨b, info, true⟩ uri := by
  have htrivia : a.trivia.size = b.trivia.size := congrArg Array.size twins.trivia
  simp only [initial, start, twins.size, htrivia]

namespace Program

variable {program : Program}

/-- After the statements have been recovered the text is not read any more. -/
theorem outcome_build (twins : a.Twins b) (h : ∀ site ∈ program.sites, site.Legible a)
    (verify : Bool) :
    (program.build verify).outcome ⟨a, program.info, true⟩
        (.initial ⟨a, program.info, true⟩ program.uri) =
      (program.build verify).outcome ⟨b, program.info, true⟩
        (.initial ⟨b, program.info, true⟩ program.uri) := by
  rw [← Session.initial_eq_of_twins twins, build_eq]
  refine outcome_bind_congr (program.outcome_recover twins h (Session.endsAlike_initial _ _)) ?_
  intro _ later hrun
  obtain ⟨hopened, hshelf⟩ := program.done_of_recover hrun
  obtain ⟨last, -, -, -, hconclude⟩ := program.outcome_conclude verify hopened hshelf
  rw [hconclude, hconclude]

end Program

/-- Let two ASCII texts have the same comments and literals, and the same bytes outside of comments.
If all that a program knows of the text is outside of comments, it comes to the same in both: the
same tree or the same failure, with the same journal. -/
theorem concretise_eq_of_twins {program : Program} {text twin : String} (verify : Bool)
    (htwins : (Source.ofString text .skipTrivia).Twins (.ofString twin .skipTrivia))
    (hsites : ∀ site ∈ program.sites, site.InCode (.ofString text .skipTrivia))
    (hlabels : ∀ site ∈ program.sites, site.LabelInCode (.ofString text .skipTrivia)) :
    program.concretise text ⟨.skipTrivia, true, verify⟩ =
      program.concretise twin ⟨.skipTrivia, true, verify⟩ := by
  have hrun :=
    program.outcome_build htwins (fun site hsite => ⟨hsites site hsite, hlabels site hsite⟩)
    verify
  exact congrArg (fun run => Outcome.mk run.1 run.2.journal) hrun

/-- A sum under a label. -/
def Program.labelledSum : Program where
  uri := "file:///test.js"
  body := ⟨⟨0, 11⟩, .synthetic, [.labelled ⟨0, 11⟩ "l" ⟨⟨2, 11⟩, .synthetic, [.expression ⟨2, 11⟩
    (.binary ⟨2, 10⟩ .add (.ident ⟨⟨2, 3⟩, "a", false, false⟩)
      (.ident ⟨⟨9, 10⟩, "b", false, false⟩))]⟩]⟩
  info := none

/-- It makes no difference to the sum whether the comment in it has an operator of its own. -/
theorem concretise_labelledSum :
    let inner := Program.labelledSum.concretise "l:a/*+*/+b;" .unforgiving
    Program.labelledSum.concretise "l:a/*;*/+b;" .unforgiving = inner ∧
      inner.result.isOk = true := by
  intro inner
  have htwins : (Source.ofString "l:a/*;*/+b;" .skipTrivia).Twins
      (.ofString "l:a/*+*/+b;" .skipTrivia) :=
    ⟨⟨rfl, rfl⟩, by decide +kernel, by decide +kernel, by decide +kernel, by
      simp only [Source.Alike]
      decide +kernel⟩
  constructor
  · exact concretise_eq_of_twins true htwins (by decide +kernel) (by decide +kernel)
  · decide +kernel

/-- An arrow function whose body is a labelled statement. The label is longer than what the text has
at its place. -/
def Program.arrowOverLabel : Program where
  uri := "file:///test.js"
  body := ⟨⟨0, 10⟩, .synthetic, [.expression ⟨0, 3⟩ (.functionDef
    ⟨⟨0, 3⟩, ⟨⟨0, 1⟩, "anonymous", false, false⟩, .arrow, [⟨⟨0, 1⟩, "a", false, false⟩],
      ⟨⟨0, 3⟩, .synthetic, [.labelled ⟨0, 3⟩ "abcdef" ⟨⟨9, 10⟩, .synthetic, []⟩]⟩,
      true, false, false, false⟩)]⟩
  info := none

/-- The end of a label is measured off from the start of its statement. If it comes to lie inside of
a comment, a semicolon there is taken for the end of the statement. -/
theorem label_reaches_into_comment :
    (Source.ofString "a=>/*;*/:b" .skipTrivia).Twins (.ofString "a=>/*x*/:b" .skipTrivia) ∧
      (∀ site ∈ Program.arrowOverLabel.sites,
        site.InCode (.ofString "a=>/*;*/:b" .skipTrivia)) ∧
      (Program.arrowOverLabel.concretise "a=>/*;*/:b" ⟨.skipTrivia, true, false⟩).result ≠
        (Program.arrowOverLabel.concretise "a=>/*x*/:b" ⟨.skipTrivia, true, false⟩).result := by
  refine ⟨⟨⟨rfl, rfl⟩, by decide +kernel, by decide +kernel, by decide +kernel, ?_⟩,
    by decide +kernel, fun h => ?_⟩
  · simp only [Source.Alike]
    decide +kernel
  · have hsemicolons := congrArg
      (fun result => result.toOption.map fun concrete =>
        concrete.root.children.map (·.ownsSemicolon)) h
    revert hsemicolons
    decide +kernel

end Concretion
