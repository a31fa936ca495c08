import Concretion.Proofs.Written.Listed
import Mathlib.Data.List.Forall2

/-!
# Statements in sequence

A statement is looked for from the end of the one before of its kind: first the next string that
names its module, then the last keyword in front of that string. So the statement is found just if
no statement of the other kind has come in between that names the same module. Otherwise the string
of that statement is taken, in front of which there is no keyword.

- `Recover.Misses`, `Recover.Comes`: a run that ends at a missing token, and what a run comes to.
- `yields_moduleStatement`, `misses_moduleStatement`: both ways in which the search ends.
- `Ahead`: what is between the end of the last statement of a kind and the next statement.
- `Loop.comes`: what a loop over all statements of a kind comes to.
-/

namespace Concretion

open Text

/-! ## What a run comes to -/

namespace Recover

variable {α β : Type} {scope : Scope} {before middle after : Stack}

/-- On the given stack the computation ends at a missing token. -/
def Misses (scope : Scope) (before : Stack) (action : Recover α) : Prop :=
  ∀ session : Session, session.stack = before → session.skipsName = false →
    ∃ missing later, action.outcome scope session = (.error (.missing missing), later)

theorem Misses.bind {action : Recover α} (h : Misses scope before action) (next : α → Recover β) :
    Misses scope before (action >>= next) := by
  intro session hstack hskips
  obtain ⟨missing, later, hrun⟩ := h session hstack hskips
  exact ⟨missing, later, outcome_bind_error hrun⟩

theorem Yields.misses {action : Recover α} {next : α → Recover β} {value : α}
    (h : Yields scope before action value middle) (hn : Misses scope middle (next value)) :
    Misses scope before (action >>= next) := by
  intro session hstack hskips
  obtain ⟨later, hrun, hstack, -, hskips, -⟩ := h session hstack hskips
  obtain ⟨missing, last, hrun'⟩ := hn later hstack hskips
  exact ⟨missing, last, (outcome_bind_ok hrun).trans hrun'⟩

/-- Without fallbacks a run ends where a token is missed. -/
theorem Misses.settle? {found : Except Missing α} {missing : Missing}
    (hstrict : scope.strict = true)
    (h : found = .error missing) : Misses scope before (settle? found) := by
  subst h
  intro session hstack hskips
  obtain ⟨source, info, strict⟩ := scope
  cases hstrict
  exact ⟨missing, session, rfl⟩

/-- What a computation that leaves the stack as it is comes to: a value, or a missing token. -/
def Comes (scope : Scope) (stack : Stack) (action : Recover α) : Option α → Prop
  | some value => Yields scope stack action value stack
  | none => Misses scope stack action

theorem Yields.comes {action : Recover α} {next : α → Recover β} {value : α} {result : Option β}
    (h : Yields scope before action value before) (hn : Comes scope before (next value) result) :
    Comes scope before (action >>= next) result := by
  cases result with
  | none => exact Yields.misses h hn
  | some result => exact Yields.bind h hn

theorem Comes.map {action : Recover α} {result : Option α} (h : Comes scope before action result)
    (f : α → β) : Comes scope before (action >>= fun value => pure (f value)) (result.map f) := by
  cases result with
  | none => exact Misses.bind h _
  | some result => exact Yields.bind h (.pure _)

end Recover

/-- Is the node an import statement? -/
def Node.isImport (node : Node) : Bool :=
  match node.kind with
  | .importStatement .. => true
  | _ => false

open Recover

namespace Written

open Chunk

variable {scope : Scope} {stack : Stack} {page : List Chunk} {isImport : Bool}

/-! ## Keywords -/

theorem isAlphabetic_keyword (isImport : Bool) :
    isAlphabetic (Word.keyword isImport).text = true := by
  cases isImport <;> decide

/-- A keyword is found in no other word. -/
theorem isFoundIn_keyword {other : Word} (h : (Word.keyword isImport).chars ≠ other.chars) :
    (Word.keyword isImport).isFoundIn other = false := by
  rw [Word.isFoundIn, if_pos (isAlphabetic_keyword isImport)]
  exact beq_eq_false_iff_ne.2 h

theorem isFoundIn_name (name : ExportedName) :
    (Word.keyword isImport).isFoundIn name.toWord = false := by
  refine isFoundIn_keyword fun heq => ?_
  cases isImport with
  | true => exact name.isFree.1 heq.symm
  | false => exact name.isFree.2 heq.symm

theorem isFoundIn_as : (Word.keyword isImport).isFoundIn .as = false :=
  isFoundIn_keyword (by cases isImport <;> decide)

theorem isFoundIn_from : (Word.keyword isImport).isFoundIn .from = false :=
  isFoundIn_keyword (by cases isImport <;> decide)

theorem head_append {chunks : List Chunk} (h : chunks.head?.any (!·.isWord) = true)
    (more : List Chunk) : (chunks ++ more).head?.any (!·.isWord) = true := by
  cases chunks with
  | nil => cases h
  | cons chunk rest => exact h

/-- There is no keyword in a binding. -/
theorem Specifier.lack_keyword (specifier : Specifier) {rest : List Chunk}
    (hnext : rest.head?.any (!·.isWord) = true) (hrest : lack (.keyword isImport) rest = true) :
    lack (.keyword isImport) (specifier.chunks ++ rest) = true := by
  have hlink : ∀ beforeAs afterAs (binder : Binder),
      lack (.keyword isImport) (link beforeAs afterAs ++ .word binder.toWord :: rest) = true := by
    intro beforeAs afterAs binder
    rw [link, List.append_assoc, lack_spread, List.cons_append]
    refine lack_word isFoundIn_as (head_space afterAs) ?_
    rw [lack_spread]
    exact lack_word (isFoundIn_name binder.toExportedName) hnext hrest
  cases specifier with
  | standard binder | plain binder =>
    exact lack_word (isFoundIn_name binder.toExportedName) hnext hrest
  | star beforeAs afterAs binder =>
    rw [chunks, List.cons_append, List.append_assoc]
    exact hlink beforeAs afterAs binder
  | renamed name beforeAs afterAs binder =>
    rw [chunks, List.cons_append, List.append_assoc]
    refine lack_word (isFoundIn_name name) ?_ (hlink beforeAs.gap afterAs binder)
    rw [link, List.append_assoc]
    exact head_space beforeAs

/-- There is no keyword between the one of a statement and the name of the module. -/
theorem Body.lack_keyword (body : Body) {rest : List Chunk}
    (hnext : rest.head?.any (!·.isWord) = true) (hrest : lack (.keyword isImport) rest = true) :
    lack (.keyword isImport) (body.chunks ++ rest) = true := by
  have hfrom : ∀ afterFrom,
      lack (.keyword isImport) (.word .from :: (spread afterFrom ++ rest)) = true := by
    intro afterFrom
    refine lack_word isFoundIn_from (head_spread hnext) ?_
    rwa [lack_spread]
  -- The keyword is neither among the specifiers nor the word in front of the module name.
  cases body with
  | exports beforeStar afterStar afterFrom =>
    rw [chunks, List.append_assoc, lack_spread, List.cons_append, List.append_assoc, lack,
      lack_spread]
    exact hfrom afterFrom
  | imports clause afterFrom =>
    have hparts : ∀ parts : List Part, lack (.keyword isImport)
        (parts.flatMap Part.chunks ++ .word .from :: (spread afterFrom ++ rest)) = true := by
      intro parts
      induction parts with
      | nil => exact hfrom afterFrom
      | cons part more ih =>
        rw [List.flatMap_cons, Part.chunks, List.append_assoc, List.append_assoc]
        refine part.specifier.lack_keyword (head_joints part) ?_
        rw [Part.joints, lack_joints]
        exact ih
    rw [chunks, Clause.chunks, List.append_assoc, List.append_assoc, Clause.joints, lack_joints]
    exact hparts clause.parts

theorem Body.quoted_notMem (body : Body) (quoted : Quoted) : .quoted quoted ∉ body.chunks := by
  have hspecifier : ∀ specifier : Specifier, .quoted quoted ∉ specifier.chunks := by
    intro specifier
    cases specifier <;> simp [Specifier.chunks, Specifier.link, spread]
  have hjoints : ∀ joints : List Joint, .quoted quoted ∉ joints.map Joint.chunk := by
    intro joints hmem
    obtain ⟨joint, -, hjoint⟩ := List.mem_map.1 hmem
    cases joint <;> cases hjoint
  cases body with
  | exports beforeStar afterStar afterFrom => simp [chunks, spread]
  | imports clause afterFrom =>
    simp [chunks, spread, Clause.chunks, Clause.joints, Part.chunks, Part.joints, hspecifier,
      hjoints]

/-! ## The next string -/

/-- A statement is the next one whose string names its module. -/
structure Statement.IsNext (statement : Statement) (page : List Chunk) (cursor : Nat)
    (front rest : List Chunk) : Prop where
  stands : At page cursor (front ++ (statement.core ++ rest))
  strings : ∀ other, .quoted other ∈ front → other.content ≠ statement.path.content
  keyword : (source page).wordMatchesAt (isAlphabetic statement.body.keyword.text)
    (pattern statement.body.keyword.text) (cursor + size front) = true
  isApart : startsApart statement.body.chunks = true

/-- The keyword of the next statement and the name of the module are found. -/
theorem yields_moduleStatement (hsource : scope.source = source page) {statement : Statement}
    {cursor : Nat} {front rest : List Chunk} (h : statement.IsNext page cursor front rest)
    (context : String) :
    let offset := cursor + size front
    Yields scope stack
      (Rule.moduleStatement statement.body.keyword.text context statement.request cursor)
      (some ((Token.keyword statement.body.keyword.text).symbolAt offset,
        ⟨statement.pathStart offset, offset + size statement.core⟩)) stack := by
  intro offset
  have hquoted : At page cursor ((front ++ .word statement.body.keyword :: statement.body.chunks) ++
      .quoted statement.path :: rest) := by
    simpa only [Statement.core, List.append_assoc, List.cons_append, List.nil_append] using h.stands
  have hsize : cursor + size (front ++ .word statement.body.keyword :: statement.body.chunks) =
      statement.pathStart offset := by
    rw [size_append, ← Nat.add_assoc, Statement.pathStart]
  -- The string is located first, and the keyword is then searched for backwards from it.
  have hpath : scope.source.locateString context statement.request cursor scope.source.size =
      .ok ⟨statement.pathStart offset, offset + size statement.core⟩ := by
    have hfound := hquoted.findString fun other hmem => by
      rcases List.mem_append.1 hmem with hmem | hmem
      · exact h.strings other hmem
      · rcases List.mem_cons.1 hmem with heq | hmem
        · cases heq
        · exact absurd hmem (statement.body.quoted_notMem other)
    rw [hsize] at hfound
    rw [Source.locateString, hsource, Statement.request, hfound, statement.size_core]
  have hkeyword : scope.source.locateLastWord context statement.body.keyword.text cursor
      (statement.pathStart offset) = .ok offset := by
    have hcore : At page cursor (front ++ .word statement.body.keyword ::
        (statement.body.chunks ++ [.quoted statement.path])) := by
      have hleft := h.stands
      rw [← List.append_assoc] at hleft
      exact hleft.left
    have hpos := width_pos statement.body.keyword.nonempty
    have hstart : statement.pathStart offset =
        offset + (width statement.body.keyword.chars + size statement.body.chunks) := by
      rw [Statement.pathStart, size_cons, size_word]
    have hfound : (source page).findLastWord statement.body.keyword.text cursor
        (statement.pathStart offset) = some offset := by
      refine hcore.findLastWord (isAlphabetic_keyword _) h.keyword
        (head_append (head_of_startsApart h.isApart) _) (statement.body.lack_keyword rfl rfl) ?_ ?_
      · show offset < _
        omega
      · show _ ≤ offset + _ + _
        rw [size_append]
        omega
    rw [Source.locateLastWord, hsource, hfound]
  refine Yields.source.bind ?_
  rw [hpath]
  refine (Yields.settle? rfl).bind ?_
  dsimp only
  rw [hkeyword]
  refine (Yields.settle? rfl).bind ?_
  exact (Yields.symbolAt _ _).bind (.pure _)

/-- Up to a chunk that is no word, a search that does not stop goes on. -/
theorem lack_upTo {word : Word} {front rest : List Chunk} {chunk : Chunk}
    (hchunk : chunk.isWord = false) (h : lack word (front ++ chunk :: rest) = true) :
    lack word (front ++ [chunk]) = true := by
  induction front with
  | nil => cases chunk with
    | word other => cases hchunk
    | sign | filler | quoted => rfl
  | cons first more ih =>
    cases first with
    | word other =>
      simp only [List.cons_append, lack, Bool.and_eq_true] at h ⊢
      refine ⟨h.1, ?_, ih h.2.2⟩
      have hnext := h.2.1
      cases more with
      | nil => exact hnext
      | cons next more => exact hnext
    | sign | filler | quoted => exact ih h

/-- The string of another statement comes first, and there is no keyword in front of it. -/
theorem misses_moduleStatement (hsource : scope.source = source page)
    (hstrict : scope.strict = true) {cursor : Nat} {front : List Chunk} (h : At page cursor front)
    {quoted : Quoted} (hquoted : .quoted quoted ∈ front)
    (hlack : lack (.keyword isImport) front = true) (context : String) :
    Misses scope stack
      (Rule.moduleStatement (Word.keyword isImport).text context quoted.text cursor) := by
  -- The search stops at the first string of that content, which need not be the one of the
  -- statement.
  let names (chunk : Chunk) : Bool :=
    match chunk with
    | .quoted other => other.content == quoted.content
    | _ => false
  have hfound : (front.find? names).isSome = true :=
    List.find?_isSome.2 ⟨_, hquoted, beq_self_eq_true _⟩
  obtain ⟨chunk, hchunk⟩ := Option.isSome_iff_exists.1 hfound
  obtain ⟨hnames, before, behind, rfl, hbefore⟩ := List.find?_eq_some_iff_append.1 hchunk
  cases chunk with
  | word | sign | filler => cases hnames
  | quoted first =>
    have hcontent : first.content = quoted.content := eq_of_beq hnames
    have hpath : scope.source.locateString context quoted.text cursor scope.source.size =
        .ok ⟨cursor + size before, cursor + size before + (width first.content + 2)⟩ := by
      have hfirst := h.findString fun other hmem => by
        have hother := hbefore _ hmem
        simpa [names, hcontent] using hother
      rw [Source.locateString, hsource, Quoted.text, ← hcontent, ← Quoted.text, hfirst]
    have hkeyword : (source page).findLastWord (Word.keyword isImport).text cursor
        (cursor + size before) = none := by
      have hupTo : At page cursor (before ++ [.quoted first]) := by
        rw [List.append_cons] at h
        exact h.left
      exact hupTo.findLastWord_none (lack_upTo rfl hlack) (by rw [size_append]; omega)
    have hmissed : scope.source.locateLastWord context (Word.keyword isImport).text cursor
        (cursor + size before) = .error (scope.source.missing context (Word.keyword isImport).text
          cursor (cursor + size before)) := by
      rw [Source.locateLastWord, hsource, hkeyword]
    refine Yields.source.misses ?_
    rw [hpath]
    refine (Yields.settle? rfl).misses ?_
    dsimp only
    exact (Misses.settle? hstrict hmissed).bind _

/-! ## Whole statements -/

/-- The name of the module with its quotes. -/
theorem yields_path (hsource : scope.source = source page) {statement : Statement} {offset : Nat}
    {rest : List Chunk} (h : At page offset (statement.core ++ rest)) :
    let path : Range := ⟨statement.pathStart offset, offset + size statement.core⟩
    Yields scope stack (symbolOver .string path.span)
      ⟨.string, path.span, String.ofList statement.path.chars⟩ stack := by
  intro path
  have hcore := statement.size_core offset
  have hspan : path.span = ⟨statement.pathStart offset, offset + size statement.core - 1⟩ :=
    Range.span_of_lt (by omega)
  have hquoted : At page (statement.pathStart offset) [.quoted statement.path] := by
    have hleft := h.left
    rw [statement.core_eq] at hleft
    exact hleft.right
  have hslice := hquoted.has.slice
  rw [text_cons, text_nil, List.append_nil, chars, width_quoted, ← hcore] at hslice
  refine Yields.symbolOver ?_
  rw [hspan, hsource]
  show (source page).slice _ (offset + size statement.core - 1 + 1) = _
  rw [Nat.sub_add_cancel (by omega)]
  exact hslice

theorem yields_endsWithSemicolon (hsource : scope.source = source page) (finish : Nat) :
    Yields scope stack (endsWithSemicolon finish) ((source page).endsWithSemicolon finish)
      stack := by
  rw [← hsource]
  exact Yields.source.bind (.pure _)

/-- An import statement is recovered with all its bindings. -/
theorem yields_importStatement (hsource : scope.source = source page) {statement : Statement}
    {clause : Clause} {afterFrom : Gap} (hbody : statement.body = .imports clause afterFrom)
    {entries : List ImportEntry}
    (hentries : List.Forall₂ (fun part entry => part.specifier.Enters entry) clause.parts entries)
    {cursor : Nat} {front rest : List Chunk} (h : statement.IsNext page cursor front rest)
    (hapart : statement.isApart = true) (hclear : statement.isUnambiguous = true) :
    let offset := cursor + size front
    Yields scope stack (Rule.importStatement statement.request entries cursor)
      (some (statement.node (source page) offset), offset + size statement.core) stack := by
  intro offset
  obtain ⟨before, body, path, behind⟩ := statement
  subst hbody
  let statement : Statement := ⟨before, .imports clause afterFrom, path, behind⟩
  let keyword := (Token.keyword Word.import.text).symbolAt offset
  rw [Statement.isApart, Bool.and_eq_true] at hapart
  have hnext : Yields scope stack (Rule.moduleStatement "import" "Import" statement.request cursor)
      (some (keyword, ⟨statement.pathStart offset, offset + size statement.core⟩)) stack :=
    yields_moduleStatement hsource h "Import"
  -- The bindings are searched for from the end of the keyword up to the string.
  have hlast : keyword.span.last + 1 = offset + size [.word .import] := rfl
  have hclause : At page (offset + size [.word .import]) (clause.chunks ++
      (.word .from :: (spread afterFrom ++ .quoted path :: rest))) := by
    have hcore : At page offset ((.word .import :: ((clause.chunks ++
        .word .from :: spread afterFrom) ++ [.quoted path])) ++ rest) := h.stands.right
    simp only [List.append_assoc, List.cons_append, List.nil_append] at hcore
    exact At.right (a := [.word .import]) hcore
  have hfinish : offset + size [.word .import] + size clause.chunks ≤
      statement.pathStart offset := by
    show _ ≤ offset + size (.word .import :: (clause.chunks ++ _))
    rw [size_cons _ (clause.chunks ++ _), size_append clause.chunks]
    omega
  have hnames : Yields scope stack
      (Rule.specifiers (statement.pathStart offset) entries (keyword.span.last + 1))
      (Clause.nodes (offset + size (.word .import :: clause.joints)) clause.parts) stack := by
    rw [hlast, size_cons _ clause.joints, ← Nat.add_assoc]
    exact yields_clause hsource hentries hclause hapart.2 hclear hfinish
  have hpath : Yields scope stack
      (symbolOver .string (Range.span ⟨statement.pathStart offset, offset + size statement.core⟩))
      _ stack := yields_path hsource h.stands.right
  refine hnext.bind ?_
  refine hnames.bind (hpath.bind ?_)
  exact (yields_endsWithSemicolon hsource _).bind (.pure _)

/-! ## What is ahead -/

/-- Between the end of the last statement of a kind and what is ahead there are statements of the
other kind, which name the modules that are pending. -/
structure Ahead (page : List Chunk) (isImport : Bool) (cursor : Nat) (pending : List String)
    (front rest : List Chunk) : Prop where
  stands : At page cursor (front ++ rest)
  strings : ∀ request, request ∈ pending ↔ ∃ quoted : Quoted,
    .quoted quoted ∈ front ∧ quoted.text = request
  keyword : lack (.keyword isImport) front = true
  ends : endsApart front = true ∨ front = [] ∧ cursor = 0

namespace Ahead

variable {statement : Statement} {cursor : Nat} {pending : List String} {front rest : List Chunk}

theorem start (page : List Chunk) (isImport : Bool) : Ahead page isImport 0 [] [] page where
  stands := ⟨[], [], (List.append_nil page).symm, rfl⟩
  strings request := by simp
  keyword := rfl
  ends := .inr ⟨rfl, rfl⟩

/-- There is no word right in front of what is ahead. -/
theorem not_word_before (h : Ahead page isImport cursor pending front rest) {before : List Chunk}
    (hbefore : size before = cursor) :
    (text (before ++ front)).getLast?.any isWordChar = false := by
  rcases h.ends with hends | ⟨rfl, rfl⟩
  · have happend : endsApart (before ++ front) = true := endsApart_append hends
    obtain ⟨c, hlast, hc⟩ := (Option.any_eq_true _ _).1 happend
    rw [hlast]
    simpa using hc
  · have hnone : text before = [] := by
      by_contra hne
      exact absurd hbefore (width_pos hne).ne'
    rw [List.append_nil, hnone]
    rfl

/-- A keyword is found if it has no word in front of it. -/
theorem isNext (h : Ahead page isImport cursor pending front (statement.chunks ++ rest))
    (hapart : statement.isApart = true) (hrequest : statement.request ∉ pending) :
    statement.IsNext page cursor (front ++ spread statement.before)
      (spread statement.behind ++ .sign .semicolon :: rest) := by
  rw [Statement.isApart, Bool.and_eq_true, Bool.and_eq_true, Bool.not_eq_true'] at hapart
  obtain ⟨⟨hgap, hbody⟩, -⟩ := hapart
  have hstands : At page cursor ((front ++ spread statement.before) ++ (statement.core ++
      (spread statement.behind ++ .sign .semicolon :: rest))) := by
    simpa only [Statement.chunks, List.append_assoc, List.cons_append, List.nil_append] using
      h.stands
  refine ⟨hstands, fun other hmem hsame => ?_, ?_, hbody⟩
  · rcases List.mem_append.1 hmem with hmem | hmem
    · exact hrequest ((h.strings _).2 ⟨other, hmem, congrArg String.ofList hsame⟩)
    · simp [spread] at hmem
  -- The match has to be a whole word: what is in front ends apart, and the body starts apart.
  · obtain ⟨before, after, hpage, hsize⟩ := hstands
    have hcut : page = (before ++ (front ++ spread statement.before)) ++
        .word statement.body.keyword :: (statement.body.chunks ++ (.quoted statement.path ::
          (spread statement.behind ++ .sign .semicolon :: rest) ++ after)) := by
      rw [hpage, Statement.core]
      simp only [List.append_assoc, List.cons_append, List.nil_append]
    have hmatch := At.wordMatchesAt_word hcut fun _ => ?_
    · rwa [size_append, hsize] at hmatch
    · constructor
      · rw [← List.append_assoc, text_append, List.getLast?_append]
        cases hlast : (text (spread statement.before)).getLast? with
        | none => exact h.not_word_before hsize
        | some c =>
          rw [hlast] at hgap
          exact hgap
      · obtain ⟨c, hfirst, hc⟩ := (Option.any_eq_true _ _).1 (startsApart_append hbody)
        rw [hfirst]
        simpa using hc

/-- A statement of the other kind is passed over. -/
theorem pass (h : Ahead page isImport cursor pending front (statement.chunks ++ rest))
    (hapart : statement.isApart = true) (hkind : statement.body.isImport ≠ isImport) :
    Ahead page isImport cursor (statement.request :: pending) (front ++ statement.chunks) rest := by
  rw [Statement.isApart, Bool.and_eq_true, Bool.and_eq_true] at hapart
  refine ⟨by rw [List.append_assoc]; exact h.stands, fun request => ?_, ?_, ?_⟩
  · have hquoted : ∀ quoted : Quoted, .quoted quoted ∈ statement.chunks ↔
        quoted = statement.path := by
      intro quoted
      have hbody := statement.body.quoted_notMem quoted
      simp [Statement.chunks, Statement.core, spread, hbody]
    rw [List.mem_cons, h.strings request]
    constructor
    · rintro (rfl | ⟨quoted, hmem, htext⟩)
      · exact ⟨statement.path, List.mem_append_right _ ((hquoted _).2 rfl), rfl⟩
      · exact ⟨quoted, List.mem_append_left _ hmem, htext⟩
    · rintro ⟨quoted, hmem, rfl⟩
      rcases List.mem_append.1 hmem with hmem | hmem
      · exact .inr ⟨quoted, hmem, rfl⟩
      · rw [(hquoted quoted).1 hmem]
        exact .inl rfl
  -- The keywords of the two kinds are not found in one another.
  · have hother : (Word.keyword isImport).isFoundIn statement.body.keyword = false := by
      refine isFoundIn_keyword ?_
      rw [Body.keyword]
      cases hbody : statement.body.isImport <;> cases isImport
      · exact absurd hbody hkind
      · decide
      · decide
      · exact absurd hbody hkind
    refine lack_append h.keyword ?_
    rw [Statement.chunks, lack_spread, Statement.core, List.cons_append, List.append_assoc]
    refine lack_word hother (head_append (head_of_startsApart hapart.1.2) _) ?_
    refine statement.body.lack_keyword rfl ?_
    show lack _ (spread statement.behind ++ [.sign .semicolon]) = true
    rw [lack_spread]
    rfl
  · left
    have hends : endsApart (spread statement.behind ++ [.sign .semicolon]) = true :=
      endsApart_append rfl
    exact endsApart_append (endsApart_append (endsApart_append hends))

/-- Behind a statement of the kind nothing is pending. -/
theorem behind (h : statement.IsNext page cursor front
      (spread statement.behind ++ .sign .semicolon :: rest)) (isImport : Bool) :
    Ahead page isImport (cursor + size front + size statement.core) []
      (spread statement.behind ++ [.sign .semicolon]) rest := by
  have hstands : At page (cursor + size front + size statement.core)
      (spread statement.behind ++ [.sign .semicolon] ++ rest) := by
    rw [List.append_assoc]
    exact h.stands.right.right
  refine ⟨hstands, fun request => ?_, ?_, .inl ?_⟩
  · simp [spread]
  · rw [lack_spread]
    rfl
  · exact endsApart_append rfl

end Ahead

/-! ## Loops over statements -/

/-- A loop over all that is known of the statements of a kind. -/
structure Loop {α : Type} (scope : Scope) (stack : Stack) (page : List Chunk) (isImport : Bool)
    (Tells : Statement → α → Prop) (loop : List α → Nat → Recover (List Node)) : Prop where
  nil : ∀ cursor, Yields scope stack (loop [] cursor) [] stack
  /-- The next statement is recovered, and then the others behind it. -/
  found : ∀ {statement item items cursor front rest nodes}, statement.body.isImport = isImport →
    Tells statement item → statement.isApart = true → statement.isUnambiguous = true →
    statement.IsNext page cursor front rest →
    Comes scope stack (loop items (cursor + size front + size statement.core)) nodes →
    Comes scope stack (loop (item :: items) cursor)
      (nodes.map (statement.node (source page) (cursor + size front) :: ·))
  /-- A string of another statement is taken for the one of the next statement. -/
  missed : ∀ {statement item items cursor front quoted}, statement.body.isImport = isImport →
    Tells statement item → At page cursor front → .quoted quoted ∈ front →
    quoted.text = statement.request → lack (.keyword isImport) front = true →
    Misses scope stack (loop (item :: items) cursor)

theorem Statement.isImport_node (statement : Statement) (text : Source) (offset : Nat) :
    (statement.node text offset).isImport = statement.body.isImport := by
  obtain ⟨before, body, path, behind⟩ := statement
  cases body <;> rfl

/-- A loop recovers all statements of its kind, unless one of them is hidden by another statement.
-/
theorem Loop.comes {α : Type} {Tells : Statement → α → Prop}
    {loop : List α → Nat → Recover (List Node)} (hloop : Loop scope stack page isImport Tells loop)
    {statements : List Statement} {items : List α}
    (hitems : List.Forall₂ Tells (statements.filter (·.body.isImport == isImport)) items)
    (hapart : ∀ statement ∈ statements, statement.isApart = true)
    (hclear : ∀ statement ∈ statements, statement.isUnambiguous = true) {cursor : Nat}
    {pending : List String} {front rest : List Chunk}
    (h : Ahead page isImport cursor pending front (statements.flatMap Statement.chunks ++ rest)) :
    Comes scope stack (loop items cursor)
      (if Statement.areUntangled isImport pending statements then
        some ((Statement.nodes (source page) (cursor + size front) statements).filter
          (·.isImport == isImport))
      else none) := by
  induction statements generalizing items cursor pending front with
  | nil =>
    cases hitems
    exact hloop.nil cursor
  | cons statement others ih =>
    obtain ⟨hthis, hothers⟩ := List.forall_mem_cons.1 hapart
    obtain ⟨hplain, hplains⟩ := List.forall_mem_cons.1 hclear
    rw [List.flatMap_cons, List.append_assoc] at h
    have hnode : ((statement.node (source page)
        (cursor + size front + size (spread statement.before))).isImport == isImport) =
          (statement.body.isImport == isImport) := by
      rw [statement.isImport_node]
    rw [Statement.areUntangled, Statement.nodes, List.filter_cons, hnode]
    rw [List.filter_cons] at hitems
    by_cases hkind : statement.body.isImport = isImport
    · rw [if_pos (beq_iff_eq.2 hkind)] at hitems
      rw [if_pos hkind, if_pos (beq_iff_eq.2 hkind)]
      cases hitems with
      | @cons _ item _ items htells hitems =>
      by_cases hrequest : statement.request ∈ pending
      · -- the string of a statement of the other kind comes first
        obtain ⟨quoted, hquoted, htext⟩ := (h.strings _).1 hrequest
        rw [List.contains_iff_mem.2 hrequest, Bool.not_true, Bool.false_and,
          if_neg Bool.false_ne_true]
        exact hloop.missed hkind htells h.stands.left hquoted htext h.keyword
      · have hnext := h.isNext hthis hrequest
        have hrest := ih hitems hothers hplains (Ahead.behind hnext isImport)
        have hfound := hloop.found hkind htells hthis hplain hnext hrest
        have hstart : cursor + size (front ++ spread statement.before) =
            cursor + size front + size (spread statement.before) := by
          rw [size_append, Nat.add_assoc]
        have hbehind : cursor + size front + size (spread statement.before) + size statement.core +
            size (spread statement.behind ++ [.sign .semicolon] : List Chunk) =
              cursor + size front + size statement.chunks := by
          simp only [Statement.chunks, size_append, Nat.add_assoc]
        have hnone : pending.contains statement.request = false :=
          Bool.eq_false_iff.2 fun hmem => hrequest (List.contains_iff_mem.1 hmem)
        rw [hstart] at hfound
        rw [hbehind] at hfound
        rw [hnone, Bool.not_false, Bool.true_and]
        cases huntangled : Statement.areUntangled isImport [] others with
        | true =>
          rw [huntangled] at hfound
          exact hfound
        | false =>
          rw [huntangled] at hfound
          exact hfound
    · rw [if_neg fun heq => hkind (beq_iff_eq.1 heq)] at hitems
      rw [if_neg hkind, if_neg fun heq => hkind (beq_iff_eq.1 heq), Nat.add_assoc, ← size_append]
      exact ih hitems hothers hplains (h.pass hthis hkind)

/-! ## Imports and exports -/

/-- Are the entries the ones of an import statement? -/
def Statement.Imports (statement : Statement) (entries : List ImportEntry) : Prop :=
  entries.map (fun entry => (entry.request, entry.importName, entry.boundName)) =
    statement.importKeys

/-- Is the entry the one of a statement that exports everything? -/
def Statement.Exports (statement : Statement) (entry : ExportEntry) : Prop :=
  entry.request = some statement.request

/-- What an import statement imports, from the module that it names. -/
theorem Statement.Imports.entries {statement : Statement} {clause : Clause} {afterFrom : Gap}
    {entries : List ImportEntry} (h : statement.Imports entries)
    (hbody : statement.body = .imports clause afterFrom) :
    List.Forall₂ (fun part entry => part.specifier.Enters entry) clause.parts entries ∧
      (entries.head?.map (·.request)).getD "" = statement.request := by
  rw [Imports, importKeys, hbody] at h
  have hsame : List.Forall₂ (fun entry part =>
      (entry.request, entry.importName, entry.boundName) =
        (statement.request, part.specifier.importName, part.specifier.boundName))
      entries clause.parts := by
    rw [← List.forall₂_map_right_iff, ← List.forall₂_map_left_iff, List.forall₂_eq_eq_eq]
    exact h
  have henters :
      ∀ (part : Part) (entry : ImportEntry), (entry.request, entry.importName, entry.boundName) =
      (statement.request, part.specifier.importName, part.specifier.boundName) →
        part.specifier.Enters entry := by
    intro part entry heq
    obtain ⟨-, hnames⟩ := Prod.mk.inj heq
    exact Prod.mk.inj hnames
  refine ⟨hsame.flip.imp henters, ?_⟩
  obtain ⟨part, more, hparts⟩ := List.exists_cons_of_ne_nil clause.nonempty
  rw [hparts] at hsame
  cases hsame with
  | cons heq _ => exact congrArg Prod.fst heq

theorem exists_clause {statement : Statement} (h : statement.body.isImport = true) :
    ∃ clause afterFrom, statement.body = .imports clause afterFrom := by
  cases hbody : statement.body with
  | imports clause afterFrom => exact ⟨clause, afterFrom, rfl⟩
  | exports =>
    rw [hbody] at h
    cases h

theorem loop_importGroups (hsource : scope.source = source page) (hstrict : scope.strict = true) :
    Loop scope stack page true Statement.Imports Rule.importGroups where
  nil _ := .pure []
  found := by
    intro statement entries groups cursor front rest nodes hkind himports hapart hclear hnext hrest
    obtain ⟨clause, afterFrom, hbody⟩ := exists_clause hkind
    obtain ⟨hentries, hrequest⟩ := himports.entries hbody
    rw [Rule.importGroups]
    dsimp only
    rw [hrequest]
    refine (yields_importStatement hsource hbody hentries hnext hapart hclear).comes ?_
    exact hrest.map _
  missed := by
    intro statement entries groups cursor front quoted hkind himports hat hquoted hname hlack
    obtain ⟨clause, afterFrom, hbody⟩ := exists_clause hkind
    obtain ⟨-, hrequest⟩ := himports.entries hbody
    have hmissed : Misses scope stack
        (Rule.moduleStatement "import" "Import" statement.request cursor) :=
      hname ▸ misses_moduleStatement hsource hstrict hat hquoted hlack "Import"
    rw [Rule.importGroups]
    dsimp only
    rw [hrequest]
    exact (hmissed.bind _).bind _

theorem loop_starExports (hsource : scope.source = source page) (hstrict : scope.strict = true) :
    Loop scope stack page false Statement.Exports Rule.starExports where
  nil _ := .pure []
  found := by
    intro statement entry entries cursor front rest nodes hkind hexports hapart hclear hnext hrest
    have hpath : Yields scope stack (symbolOver .string _) _ stack :=
      yields_path hsource hnext.stands.right
    have hstatement : Yields scope stack
        (Rule.moduleStatement statement.body.keyword.text "Export" statement.request cursor)
        (some _) stack := yields_moduleStatement hsource hnext "Export"
    obtain ⟨before, body, path, behind⟩ := statement
    cases body with
    | imports => cases hkind
    | exports beforeStar afterStar afterFrom =>
      have hrequest : entry.request = _ := hexports
      rw [Rule.starExports, hrequest]
      refine hstatement.comes (hpath.comes ?_)
      exact (yields_endsWithSemicolon hsource _).comes (hrest.map _)
  missed := by
    intro statement entry entries cursor front quoted hkind hexports hat hquoted hname hlack
    have hrequest : entry.request = _ := hexports
    have hmissed : Misses scope stack
        (Rule.moduleStatement "export" "Export" statement.request cursor) :=
      hname ▸ misses_moduleStatement hsource hstrict hat hquoted hlack "Export"
    rw [Rule.starExports, hrequest]
    exact hmissed.bind _

end Written

end Concretion
