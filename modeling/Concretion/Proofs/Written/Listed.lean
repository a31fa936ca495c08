import Concretion.Proofs.Written.Seek
import Concretion.Proofs.Written.Spans
import Concretion.Proofs.Yields
import Concretion.Recovery.Rule.ModuleItems

/-!
# Recovering written statements

Each rule for imports and star exports finds what the statement has, in the place where it has it.
Names are searched for one behind the other, so that no word between two names may be taken for the
second one; a keyword is the last one in front of the name of the module.

- `yields_specifier`, `yields_specifiers`: the bindings of a statement.
- `yields_moduleStatement`: the keyword and the name of the module.
- `yields_importStatement`: a whole import statement.
-/

namespace Concretion

open Text Recover

/-- A range that is not empty covers all but its end. -/
theorem Range.span_of_lt {start finish : Nat} (h : start < finish) :
    Range.span ⟨start, finish⟩ = ⟨start, finish - 1⟩ := by
  rw [Range.span, Span.ofBounds, Nat.max_eq_left (Nat.le_sub_one_of_lt h)]

namespace Written

namespace Chunk

variable {word : Word} {gap : Gap} {chunks more : List Chunk}

/-! ## Beside a word -/

theorem endsApart_append (h : endsApart chunks = true) : endsApart (more ++ chunks) = true := by
  obtain ⟨c, hc, hlast⟩ := (Option.any_eq_true _ _).1 h
  rw [endsApart, text_append, List.getLast?_append, hc]
  exact hlast

theorem startsApart_append (h : startsApart chunks = true) :
    startsApart (chunks ++ more) = true := by
  obtain ⟨c, hc, hfirst⟩ := (Option.any_eq_true _ _).1 h
  rw [startsApart, text_append, List.head?_append, hc]
  exact hfirst

/-- No word starts apart from what is in front of it. -/
theorem head_of_startsApart (h : startsApart chunks = true) :
    chunks.head?.any (!·.isWord) = true := by
  cases chunks with
  | nil => cases h
  | cons chunk rest =>
    cases chunk with
    | word w =>
      obtain ⟨c, tail, hchars⟩ := List.exists_cons_of_ne_nil w.nonempty
      have hword := w.word c (hchars ▸ List.mem_cons_self)
      rw [startsApart, text_cons, chars, hchars, List.cons_append, List.head?_cons,
        Option.any_some, hword] at h
      cases h
    | sign | filler | quoted => rfl

/-! ## Searching past words -/

theorem lack_word {other : Word} (hother : word.isFoundIn other = false)
    (hnext : chunks.head?.any (!·.isWord) = true) (h : lack word chunks = true) :
    lack word (.word other :: chunks) = true := by
  simp only [lack, hother, hnext, h, Bool.not_false, Bool.and_self]

@[simp] theorem lack_spread (word : Word) (gap : Gap) (chunks : List Chunk) :
    lack word (spread gap ++ chunks) = lack word chunks := by
  induction gap with
  | nil => rfl
  | cons piece rest ih => exact ih

@[simp] theorem lack_joints (word : Word) (joints : List Joint) (chunks : List Chunk) :
    lack word (joints.map Joint.chunk ++ chunks) = lack word chunks := by
  induction joints with
  | nil => rfl
  | cons joint rest ih => cases joint <;> exact ih

theorem head_spread (hnext : chunks.head?.any (!·.isWord) = true) :
    (spread gap ++ chunks).head?.any (!·.isWord) = true := by
  cases gap with
  | nil => exact hnext
  | cons piece rest => rfl

theorem head_space (space : Space) : (spread space.gap ++ chunks).head?.any (!·.isWord) = true := by
  obtain ⟨piece, rest, hgap⟩ := List.exists_cons_of_ne_nil space.nonempty
  rw [hgap]
  rfl

theorem head_joints (part : Part) : (part.joints ++ chunks).head?.any (!·.isWord) = true := by
  obtain ⟨joint, rest, hbehind⟩ := List.exists_cons_of_ne_nil part.nonempty
  rw [Part.joints, hbehind]
  cases joint <;> rfl

/-- A word of letters is found in no other word than itself. A word of other characters is not found
in a word of letters. -/
theorem isFoundIn_eq_false {other : Word} (hne : word.chars ≠ other.chars)
    (hletters : isAlphabetic other.text = true) : word.isFoundIn other = false := by
  rw [Word.isFoundIn]
  split
  · exact beq_eq_false_iff_ne.2 hne
  · next hword =>
    refine decide_eq_false fun hinfix => hword ?_
    have htext : ∀ w : Word,
        isAlphabetic w.text = true ↔ ∀ b ∈ bytesOf w.chars, isLetterByte b = true := by
      intro w
      rw [isAlphabetic, pattern_eq, Name.text, String.toList_ofList, List.all_eq_true]
    obtain ⟨front, back, hchars⟩ := hinfix
    refine (htext word).2 fun b hb => (htext other).1 hletters b ?_
    rw [← hchars, bytesOf_append, bytesOf_append]
    exact List.mem_append_left _ (List.mem_append_right _ hb)

end Chunk

open Chunk

theorem Word.isApart_append {word : Word} {front rest : List Chunk}
    (h : word.isApart front rest = true) (more behind : List Chunk) :
    word.isApart (more ++ front) (rest ++ behind) = true := by
  rw [Word.isApart, Bool.or_eq_true, Bool.and_eq_true] at h ⊢
  exact h.imp_right fun ⟨hends, hstarts⟩ => ⟨endsApart_append hends, startsApart_append hstarts⟩

/-! ## Bindings -/

variable {scope : Scope} {stack : Stack} {page : List Chunk} {start finish : Nat}

theorem Word.span_eq (word : Word) (offset : Nat) :
    (word.node offset).span = ⟨offset, offset + width word.chars - 1⟩ := by
  have hpos := width_pos word.nonempty
  exact Range.span_of_lt (Nat.lt_add_of_pos_right hpos)

/-- A name is found behind chunks that lack it. -/
theorem yields_importedName (hsource : scope.source = source page) {word : Word}
    {front rest : List Chunk} (h : At page start (front ++ .word word :: rest))
    (hlack : lack word front = true) (hapart : word.isApart front rest = true)
    (hfinish : start + size front < finish) :
    Yields scope stack (Rule.importedName word.text start finish)
      (some (word.node (start + size front))) stack := by
  have hfound : (source page).findWord word.text start finish = some (start + size front) := by
    refine h.findWord hlack (fun halphabetic => ?_) hfinish
    rw [Word.isApart, halphabetic, Bool.not_true, Bool.false_or, Bool.and_eq_true] at hapart
    exact hapart
  have hlocated : scope.source.locateWord "ImportSpecifier" word.text start finish =
      .ok (start + size front) := by
    rw [Source.locateWord, hsource, hfound]
  have hspan : scope.source.rangeSpan (start + size front)
      (start + size front + word.text.utf8ByteSize) =
        .ok (Range.span ⟨start + size front, start + size front + width word.chars⟩) := by
    have hword : At page (start + size front) [.word word] := At.left (b := rest) h.right
    have hrange := hword.has.rangeSpan
    rw [text_cons, text_nil, List.append_nil, chars] at hrange
    rw [hsource, Name.text, utf8ByteSize_eq, String.toList_ofList]
    exact hrange
  refine Yields.source.bind ?_
  rw [hlocated]
  exact (Yields.pure _).bind ((Yields.identifier hspan).bind (.pure _))

/-- A binding that consists of one name. -/
theorem yields_bare (hsource : scope.source = source page) {entry : ImportEntry} {word : Word}
    (hwritten : (if entry.isDefault then entry.boundName else entry.importName) = word.text)
    (hbound : entry.boundName = word.text) {front rest : List Chunk}
    (h : At page start (front ++ .word word :: rest)) (hlack : lack word front = true)
    (hapart : word.isApart front rest = true) (hfinish : start + size front < finish) :
    Yields scope stack (Rule.nameSpecifier entry start finish)
      (some (Specifier.bare word (start + size front))) stack := by
  have hname : Yields scope stack (Rule.importedName word.text start finish)
      (some (word.node (start + size front))) stack :=
    yields_importedName hsource h hlack hapart hfinish
  have hordered : (word.node (start + size front)).span.Ordered := Span.ordered_ofBounds _ _
  rw [Rule.nameSpecifier, hwritten, hbound]
  refine hname.bind ?_
  dsimp only
  rw [if_pos (beq_self_eq_true _)]
  exact (Yields.mergeSpans (Nat.le_refl _) (Nat.le_refl _) hordered).bind (.pure _)

/-- A binding under another name. -/
theorem yields_pair (hsource : scope.source = source page) {entry : ImportEntry}
    {name binder : Word}
    (hwritten : (if entry.isDefault then entry.boundName else entry.importName) = name.text)
    (hbound : entry.boundName = binder.text) (hne : name.text ≠ binder.text)
    {front link rest : List Chunk}
    (h : At page start (front ++ .word name :: (link ++ .word binder :: rest)))
    (hlack : lack name front = true) (hname : name.isApart front link = true)
    (hlink : lack binder link = true) (hbinder : binder.isApart link rest = true)
    (hfinish : start + size front + width name.chars + size link < finish) :
    let inner := start + size front + width name.chars + size link
    Yields scope stack (Rule.nameSpecifier entry start finish)
      (some (.branch (.importSpecifier none)
        (Range.span ⟨start + size front, inner + width binder.chars⟩)
        [name.node (start + size front), binder.node inner])) stack := by
  intro inner
  have hpos := width_pos name.nonempty
  have hpos' := width_pos binder.nonempty
  have hfirst : Yields scope stack (Rule.importedName name.text start finish)
      (some (name.node (start + size front))) stack :=
    yields_importedName hsource h hlack (Word.isApart_append hname [] (.word binder :: rest))
      (by omega)
  have hlast : (name.node (start + size front)).last + 1 =
      start + size front + width name.chars := by
    rw [Node.last, name.span_eq]
    show start + size front + width name.chars - 1 + 1 = _
    omega
  -- The second name is searched for from the end of the first, so it has but the link in front.
  have hbehind :
      At page (start + size front + width name.chars) (link ++ .word binder :: rest) := by
    have hright := At.right (a := [.word name]) h.right
    rwa [size_word] at hright
  have hsecond : Yields scope stack
      (Rule.importedName binder.text (start + size front + width name.chars) finish)
      (some (binder.node inner)) stack :=
    yields_importedName hsource hbehind hlink hbinder hfinish
  have hordered : (name.node (start + size front)).span.Ordered := Span.ordered_ofBounds _ _
  have hspan : Range.span ⟨start + size front, inner + width binder.chars⟩ =
      ⟨(name.node (start + size front)).span.start, (binder.node inner).span.last⟩ := by
    rw [name.span_eq, binder.span_eq, Range.span_of_lt (by omega)]
  rw [Rule.nameSpecifier, hwritten, hbound]
  refine hfirst.bind ?_
  dsimp only
  rw [if_neg (fun heq => hne (eq_of_beq heq)), hlast, hspan]
  refine hsecond.bind ((Yields.mergeSpans ?_ ?_ hordered).bind (.pure _))
  · rw [Option.getD_some, name.span_eq, binder.span_eq]
    show start + size front ≤ inner
    omega
  · rw [Option.getD_some, name.span_eq, binder.span_eq]
    show start + size front + width name.chars - 1 ≤ inner + width binder.chars - 1
    omega

/-- The namespace of a module. -/
theorem yields_star (hsource : scope.source = source page) {entry : ImportEntry} {binder : Word}
    (hbound : entry.boundName = binder.text) {front link rest : List Chunk}
    (h : At page start (front ++ .sign .star :: (link ++ .word binder :: rest)))
    (hfront : ∀ s, .sign s ∈ front → s ≠ .star) (hlink : lack binder link = true)
    (hbinder : binder.isApart link rest = true)
    (hfinish : start + size front + 1 + size link < finish) :
    let inner := start + size front + 1 + size link
    Yields scope stack (Rule.namespaceSpecifier entry start finish)
      (some (.branch (.importSpecifier (some (Token.star.symbolAt (start + size front))))
        (Range.span ⟨start + size front, inner + width binder.chars⟩) [binder.node inner]))
      stack := by
  intro inner
  have hpos := width_pos binder.nonempty
  have hstar : scope.source.locate "ImportSpecifier" starName start finish =
      .ok (start + size front) := by
    rw [Source.locate, hsource, starName, h.findStar hfront (by omega)]
  have hbehind : At page (start + size front + 1) (link ++ .word binder :: rest) := by
    have hright := At.right (a := [.sign .star]) h.right
    rwa [size_sign] at hright
  have hname : Yields scope stack
      (Rule.importedName binder.text (start + size front + 1) finish)
      (some (binder.node inner)) stack :=
    yields_importedName hsource hbehind hlink hbinder hfinish
  have hspan : Range.span ⟨start + size front, inner + width binder.chars⟩ =
      ⟨(Token.star.symbolAt (start + size front)).span.start, (binder.node inner).span.last⟩ := by
    rw [binder.span_eq, Range.span_of_lt (by omega)]
    rfl
  refine Yields.source.bind ?_
  rw [hstar]
  refine (Yields.pure _).bind ?_
  refine (Yields.symbolAt .star (start + size front)).bind ?_
  rw [hbound]
  refine hname.bind ?_
  rw [hspan]
  have hstarSpan : (Token.star.symbolAt (start + size front)).span =
      ⟨start + size front, start + size front⟩ := rfl
  refine (Yields.mergeSpans ?_ ?_ ?_).bind (.pure _)
  · rw [binder.span_eq]
    show start + size front ≤ inner
    omega
  · rw [binder.span_eq]
    show start + size front ≤ inner + width binder.chars - 1
    omega
  · exact Nat.le_refl (start + size front)

theorem lack_link {word : Word} (hne : word.chars ≠ Word.as.chars) (beforeAs : Gap)
    (afterAs : Space) :
    lack word (Specifier.link beforeAs afterAs) = true := by
  have hspread : lack word (spread afterAs.gap) = true := by
    rw [← List.append_nil (spread afterAs.gap), lack_spread]
    rfl
  have hnext : (spread afterAs.gap).head?.any (!·.isWord) = true := by
    rw [← List.append_nil (spread afterAs.gap)]
    exact head_space afterAs
  rw [Specifier.link, lack_spread]
  exact lack_word (isFoundIn_eq_false hne (by decide)) hnext hspread

theorem Specifier.isApart_link {word : Word} {afterAs : Space} {rest : List Chunk}
    (h : word.isApart (spread afterAs.gap) rest = true) (beforeAs : Gap) :
    word.isApart (link beforeAs afterAs) rest = true := by
  have happend := Word.isApart_append h (spread beforeAs ++ [.word .as]) []
  rwa [List.append_nil, List.append_assoc] at happend

/-- Is the entry the one of a specifier? -/
def Specifier.Enters (specifier : Specifier) (entry : ImportEntry) : Prop :=
  entry.importName = specifier.importName ∧ entry.boundName = specifier.boundName

theorem ExportedName.text_ne_star (name : ExportedName) : name.text ≠ starName := by
  intro heq
  have hchars : name.chars = ['*'] := by
    rw [← String.toList_ofList (l := name.chars)]
    exact congrArg String.toList heq
  have hword := name.word '*' (hchars ▸ List.mem_cons_self)
  cases hword

theorem Binder.text_ne_default (binder : Binder) : binder.text ≠ defaultName := by
  intro heq
  refine binder.isBindable.2 ?_
  rw [← String.toList_ofList (l := binder.chars)]
  exact congrArg String.toList heq

section Renamed

variable {name : ExportedName} {beforeAs afterAs : Space} {binder : Binder} {entry : ImportEntry}
  {front rest : List Chunk}

/-- The default export is looked for by the name it is bound to, and by this name only. -/
theorem yields_renamedDefault (hsource : scope.source = source page)
    (hwritten : entry.importName = defaultName) (hbound : entry.boundName = binder.text)
    (hdefault : name.text = defaultName)
    (h : At page start (front ++ .word name.toWord ::
      (Specifier.link beforeAs.gap afterAs ++ .word binder.toWord :: rest)))
    (hlack : lack binder.toWord front = true)
    (hbinder : binder.isApart (spread afterAs.gap) rest = true)
    (hfinish : start + size front + width name.chars +
      size (Specifier.link beforeAs.gap afterAs) < finish) :
    Yields scope stack (Rule.nameSpecifier entry start finish)
      (some (Specifier.bare binder.toWord (start + size front + width name.chars +
        size (Specifier.link beforeAs.gap afterAs)))) stack := by
  have hentry : entry.isDefault = true := by
    rw [ImportEntry.isDefault, hwritten]
    rfl
  have hletters : name.chars = defaultName.toList := by
    rw [← hdefault, Name.text, String.toList_ofList]
  have hlink : lack binder.toWord
      (.word name.toWord :: Specifier.link beforeAs.gap afterAs) = true := by
    refine lack_word (isFoundIn_eq_false ?_ ?_) (head_space beforeAs)
      (lack_link binder.isBindable.1 beforeAs.gap afterAs)
    · rw [hletters]
      exact binder.isBindable.2
    · rw [hdefault]
      decide
  -- all in front of the second name counts as one piece of text in which it is not found
  have hat : At page start
      ((front ++ .word name.toWord :: Specifier.link beforeAs.gap afterAs) ++
        .word binder.toWord :: rest) := by
    simpa only [List.append_assoc, List.cons_append] using h
  have hsize : start + size (front ++ .word name.toWord :: Specifier.link beforeAs.gap afterAs) =
      start + size front + width name.chars + size (Specifier.link beforeAs.gap afterAs) := by
    rw [size_append, size_cons, size_word]
    omega
  have hapart := Word.isApart_append (Specifier.isApart_link hbinder beforeAs.gap)
    (front ++ [.word name.toWord]) []
  rw [List.append_nil, List.append_assoc, List.singleton_append] at hapart
  rw [← hsize] at hfinish ⊢
  exact yields_bare hsource (by rw [hentry, if_pos rfl, hbound]) hbound hat
    (lack_append hlack hlink) hapart hfinish

/-- An export with a name is looked for by this name, and behind it by the name it is bound to,
unless that is the same one. -/
theorem yields_renamed (hsource : scope.source = source page)
    (hwritten : entry.importName = name.text) (hbound : entry.boundName = binder.text)
    (hdefault : name.text ≠ defaultName)
    (h : At page start (front ++ .word name.toWord ::
      (Specifier.link beforeAs.gap afterAs ++ .word binder.toWord :: rest)))
    (hlack : lack name.toWord front = true)
    (hname : name.isApart front (spread beforeAs.gap) = true)
    (hbinder : name.text ≠ binder.text → binder.isApart (spread afterAs.gap) rest = true)
    (hfinish : start + size front + width name.chars +
      size (Specifier.link beforeAs.gap afterAs) < finish) :
    Yields scope stack (Rule.nameSpecifier entry start finish)
      (some ((Specifier.renamed name beforeAs afterAs binder).node (start + size front)))
      stack := by
  have hentry : entry.isDefault = false := by
    rw [ImportEntry.isDefault, hwritten]
    exact beq_eq_false_iff_ne.2 hdefault
  have hfirst : (if entry.isDefault then entry.boundName else entry.importName) = name.text := by
    rw [hentry, if_neg Bool.false_ne_true, hwritten]
  rw [Specifier.node, if_neg hdefault]
  -- With one name for both, the second one is not looked for.
  by_cases hsame : name.text = binder.text
  · have hapart := Word.isApart_append hname [] (.word .as :: (spread afterAs.gap ++
      .word binder.toWord :: rest))
    rw [if_pos hsame]
    refine yields_bare hsource hfirst (by rw [hsame]; exact hbound) ?_ hlack hapart (by omega)
    simpa only [Specifier.link, List.append_assoc, List.cons_append, List.nil_append] using h
  · have hapart := Word.isApart_append hname [] (.word .as :: spread afterAs.gap)
    rw [if_neg hsame]
    exact yields_pair hsource hfirst hbound hsame h hlack hapart
      (lack_link binder.isBindable.1 beforeAs.gap afterAs)
      (Specifier.isApart_link (hbinder hsame) beforeAs.gap) hfinish

end Renamed

/-- A binding is recovered behind chunks in which its first name is not found. -/
theorem yields_specifier (hsource : scope.source = source page) {specifier : Specifier}
    {entry : ImportEntry} (hentry : specifier.Enters entry) {front rest : List Chunk}
    (h : At page start (front ++ (specifier.chunks ++ rest)))
    (hlack : ∀ word ∈ specifier.sought, lack word front = true)
    (hstar : ∀ s, .sign s ∈ front → s ≠ .star) (hapart : specifier.isApart front rest = true)
    (hfinish : start + size front + size specifier.chunks ≤ finish) :
    Yields scope stack
      (if entry.isNamespace then Rule.namespaceSpecifier entry start finish
        else Rule.nameSpecifier entry start finish)
      (some (specifier.node (start + size front))) stack := by
  obtain ⟨himport, hbound⟩ := hentry
  -- The name that is asked for decides on the rule: a star, the default, or any other.
  cases specifier with
  | standard binder =>
    have hpos := width_pos binder.nonempty
    have hnamespace : entry.isNamespace = false := by
      rw [ImportEntry.isNamespace, himport]
      rfl
    have hdefault : entry.isDefault = true := by
      rw [ImportEntry.isDefault, himport]
      rfl
    rw [hnamespace, if_neg Bool.false_ne_true]
    rw [Specifier.chunks, size_word] at hfinish
    exact yields_bare hsource (by rw [hdefault, if_pos rfl, hbound]; rfl) hbound h
      (hlack _ rfl) hapart (by omega)
  | plain binder =>
    have hpos := width_pos binder.nonempty
    have hwritten : entry.importName = binder.text := himport
    have hnamespace : entry.isNamespace = false := by
      rw [ImportEntry.isNamespace, hwritten]
      exact beq_eq_false_iff_ne.2 binder.text_ne_star
    have hdefault : entry.isDefault = false := by
      rw [ImportEntry.isDefault, hwritten]
      exact beq_eq_false_iff_ne.2 binder.text_ne_default
    rw [hnamespace, if_neg Bool.false_ne_true]
    rw [Specifier.chunks, size_word] at hfinish
    exact yields_bare hsource (by rw [hdefault, if_neg Bool.false_ne_true, hwritten]) hbound h
      (hlack _ rfl) hapart (by omega)
  | star beforeAs afterAs binder =>
    have hnamespace : entry.isNamespace = true := by
      rw [ImportEntry.isNamespace, himport]
      rfl
    have hpos := width_pos binder.nonempty
    rw [hnamespace, if_pos rfl]
    rw [Specifier.chunks, size_cons, size_sign, size_append, size_word] at hfinish
    rw [Specifier.chunks, List.cons_append, List.append_assoc] at h
    exact yields_star hsource hbound h hstar (lack_link binder.isBindable.1 beforeAs afterAs) hapart
      (by omega)
  | renamed name beforeAs afterAs binder =>
    have hpos := width_pos binder.nonempty
    have hwritten : entry.importName = name.text := himport
    have hnamespace : entry.isNamespace = false := by
      rw [ImportEntry.isNamespace, hwritten]
      exact beq_eq_false_iff_ne.2 name.text_ne_star
    rw [hnamespace, if_neg Bool.false_ne_true]
    rw [Specifier.chunks, size_cons, size_word, size_append, size_word] at hfinish
    rw [Specifier.isApart, Bool.and_eq_true, Bool.or_eq_true, Bool.or_eq_true, decide_eq_true_eq,
      decide_eq_true_eq] at hapart
    obtain ⟨hname, hlocal⟩ := hapart
    have hat : At page start (front ++ .word name.toWord ::
        (Specifier.link beforeAs.gap afterAs ++ .word binder.toWord :: rest)) := by
      simpa only [Specifier.chunks, List.append_assoc, List.cons_append, List.nil_append] using h
    have hsought : ∀ word ∈ (Specifier.renamed name beforeAs afterAs binder).sought,
        lack word front = true := hlack
    rw [Specifier.sought] at hsought
    by_cases hdefault : name.text = defaultName
    · rw [if_pos hdefault] at hsought
      rw [Specifier.node, if_pos hdefault]
      exact yields_renamedDefault hsource (hwritten.trans hdefault) hbound hdefault hat
        (hsought _ rfl) (hlocal.resolve_left fun hboth => hboth.1 hdefault) (by omega)
    · rw [if_neg hdefault] at hsought
      exact yields_renamed hsource hwritten hbound hdefault hat (hsought _ rfl)
        (hname.resolve_left hdefault)
        (fun hne => hlocal.resolve_left fun hboth => hne hboth.2) (by omega)

/-! ## Several bindings -/

theorem Specifier.isApart_append {specifier : Specifier} {front rest : List Chunk}
    (h : specifier.isApart front rest = true) (more behind : List Chunk) :
    specifier.isApart (more ++ front) (rest ++ behind) = true := by
  cases specifier with
  | standard binder | plain binder => exact Word.isApart_append h more behind
  | star beforeAs afterAs binder => exact Word.isApart_append h [] behind
  | renamed name beforeAs afterAs binder =>
    rw [isApart, Bool.and_eq_true, Bool.or_eq_true, Bool.or_eq_true] at h ⊢
    refine ⟨h.1.imp_right fun hname => ?_, h.2.imp_right fun hbinder => ?_⟩
    · have happend := Word.isApart_append hname more []
      rwa [List.append_nil] at happend
    · exact Word.isApart_append hbinder [] behind

/-- The name of the next binding is not found in what this one leaves over. -/
theorem Specifier.lack_leftover {specifier next : Specifier} (h : specifier.isClearOf next = true)
    {word : Word} (hword : word ∈ next.sought) {rest : List Chunk}
    (hnext : rest.head?.any (!·.isWord) = true) (hrest : lack word rest = true) :
    lack word (specifier.leftover ++ rest) = true := by
  rw [isClearOf, List.all_eq_true] at h
  cases specifier with
  | standard binder | plain binder => exact hrest
  | star beforeAs afterAs binder => exact hrest
  | renamed name beforeAs afterAs binder =>
    rw [leftover] at h ⊢
    by_cases hrepeats : name.text ≠ defaultName ∧ name.text = binder.text
    · rw [if_pos hrepeats] at h ⊢
      have hother : ∀ other, .word other ∈ link beforeAs.gap afterAs ++ [.word binder.toWord] →
          word.isFoundIn other = false := by
        intro other hmem
        have hnone := h _ hmem
        simp only [Option.mem_def.1 hword, Option.all_some, Bool.not_eq_true'] at hnone
        exact hnone
      rw [link, List.append_assoc, List.append_assoc, lack_spread, List.cons_append]
      refine lack_word (hother _ (by simp [link])) (head_space afterAs) ?_
      rw [lack_spread]
      exact lack_word (hother _ (by simp)) hnext hrest
    · rw [if_neg hrepeats]
      exact hrest

theorem Specifier.ne_star_of_mem_leftover {specifier : Specifier} {sign : Sign}
    (h : .sign sign ∈ specifier.leftover) : sign ≠ .star := by
  cases specifier with
  | standard binder | plain binder => cases h
  | star beforeAs afterAs binder => cases h
  | renamed name beforeAs afterAs binder =>
    rw [leftover] at h
    split at h
    · simp [link, spread] at h
    · cases h

theorem ne_star_of_mem_joints {joints : List Joint} {sign : Sign}
    (h : .sign sign ∈ joints.map Joint.chunk) : sign ≠ .star := by
  obtain ⟨joint, -, hjoint⟩ := List.mem_map.1 h
  cases joint <;> cases hjoint <;> decide

/-- Bindings are recovered one behind the other. A search for the next one starts behind the node of
the one before, so that it has to get past the name that this one repeats. -/
theorem yields_specifiers (hsource : scope.source = source page) {parts : List Part}
    {entries : List ImportEntry}
    (hentries : List.Forall₂ (fun part entry => part.specifier.Enters entry) parts entries)
    {front joints rest : List Chunk}
    (h : At page start (front ++ (joints ++ (parts.flatMap Part.chunks ++ rest))))
    (hlack : ∀ part ∈ parts.head?, ∀ word ∈ part.specifier.sought,
      lack word (front ++ joints) = true)
    (hstar : ∀ s, .sign s ∈ front ++ joints → s ≠ .star)
    (hapart : Clause.arePartsApart joints parts = true) (hclear : Clause.arePartsClear parts = true)
    (hfinish : start + size (front ++ joints) + size (parts.flatMap Part.chunks) ≤ finish) :
    Yields scope stack (Rule.specifiers finish entries start)
      (Clause.nodes (start + size (front ++ joints)) parts) stack := by
  induction hentries generalizing start front joints with
  | nil => exact .pure []
  | @cons part entry parts entries hentry hentries ih =>
    rw [Clause.arePartsApart, Bool.and_eq_true] at hapart
    rw [List.flatMap_cons, size_append part.chunks] at hfinish
    have hpart : size part.chunks = size part.specifier.chunks + size part.joints := by
      rw [Part.chunks, size_append]
    have hat : At page start ((front ++ joints) ++ (part.specifier.chunks ++
        (part.joints ++ (parts.flatMap Part.chunks ++ rest)))) := by
      simpa only [List.flatMap_cons, Part.chunks, List.append_assoc] using h
    have hfirst : Yields scope stack
        (if entry.isNamespace then Rule.namespaceSpecifier entry start finish
          else Rule.nameSpecifier entry start finish)
        (some (part.specifier.node (start + size (front ++ joints)))) stack :=
      yields_specifier hsource hentry hat (hlack part rfl) hstar
        (Specifier.isApart_append hapart.1 front _) (by omega)
    -- The node ends in front of what the binding leaves over. The search for the next one starts
    -- there, so that the leftover and the joints are its front.
    obtain ⟨first, head, hchunks, hstart, hnode⟩ :=
      part.specifier.solid (start + size (front ++ joints))
    have hlast : (part.specifier.node (start + size (front ++ joints))).last + 1 =
        start + size (front ++ joints) + size head := by
      have hnonempty : first < start + size (front ++ joints) + size head := hnode.nonempty
      rw [hnode.last]
      show start + size (front ++ joints) + size head - 1 + 1 = _
      omega
    have hsize : start + size (front ++ joints) + size part.chunks =
        start + size (front ++ joints) + size head +
          size (part.specifier.leftover ++ part.joints) := by
      rw [hpart, hchunks, size_append head, size_append _ part.joints]
      omega
    have hbehind : At page (start + size (front ++ joints) + size head)
        (part.specifier.leftover ++ (part.joints ++ (parts.flatMap Part.chunks ++ rest))) := by
      rw [hchunks] at hat
      have hright := hat.right
      rw [List.append_assoc] at hright
      exact hright.right
    have hrest : Yields scope stack
        (Rule.specifiers finish entries
          ((part.specifier.node (start + size (front ++ joints))).last + 1))
        (Clause.nodes (start + size (front ++ joints) + size part.chunks) parts) stack := by
      rw [hlast, hsize]
      refine ih hbehind ?_ ?_ hapart.2 ?_ ?_
      · intro next hnext word hword
        obtain ⟨more, rfl⟩ := List.head?_eq_some_iff.1 hnext
        rw [Clause.arePartsClear, Bool.and_eq_true] at hclear
        refine Specifier.lack_leftover hclear.1 hword ?_ ?_
        · rw [← List.append_nil part.joints]
          exact head_joints part
        · rw [← List.append_nil part.joints]
          exact lack_joints word part.behind []
      · intro s hs
        rcases List.mem_append.1 hs with hs | hs
        · exact Specifier.ne_star_of_mem_leftover hs
        · exact ne_star_of_mem_joints hs
      · cases parts with
        | nil => rfl
        | cons next more =>
          rw [Clause.arePartsClear, Bool.and_eq_true] at hclear
          exact hclear.2
      · omega
    rw [Rule.specifiers]
    by_cases hnamespace : entry.isNamespace = true
    · rw [if_pos hnamespace] at hfirst ⊢
      exact hfirst.bind (hrest.bind (.pure _))
    · rw [if_neg hnamespace] at hfirst ⊢
      exact hfirst.bind (hrest.bind (.pure _))

/-- All bindings of a statement are recovered. -/
theorem yields_clause (hsource : scope.source = source page) {clause : Clause}
    {entries : List ImportEntry}
    (hentries : List.Forall₂ (fun part entry => part.specifier.Enters entry) clause.parts entries)
    {rest : List Chunk} (h : At page start (clause.chunks ++ rest))
    (hapart : Clause.arePartsApart clause.joints clause.parts = true)
    (hclear : Clause.arePartsClear clause.parts = true)
    (hfinish : start + size clause.chunks ≤ finish) :
    Yields scope stack (Rule.specifiers finish entries start)
      (Clause.nodes (start + size clause.joints) clause.parts) stack := by
  rw [Clause.chunks, List.append_assoc] at h
  rw [Clause.chunks, size_append, ← Nat.add_assoc] at hfinish
  have hat :
      At page start ([] ++ (clause.joints ++ (clause.parts.flatMap Part.chunks ++ rest))) := h
  refine yields_specifiers hsource hentries hat ?_ ?_ hapart hclear hfinish
  · intro part hpart word hword
    rw [List.nil_append, ← List.append_nil clause.joints]
    exact lack_joints word clause.front []
  · intro s hs
    exact ne_star_of_mem_joints hs

end Written

end Concretion
