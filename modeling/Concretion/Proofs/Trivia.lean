import Concretion.Proofs.Scanned
import Concretion.Proofs.Written.Chars

/-!
# The table of comments and literals

The scan goes through a text byte by byte and takes whatever byte stands behind a backslash, so it
may well stop in the middle of a character. It never records such a place, however malformed the
text is. What opens a comment or a literal is a byte of ASCII. What ends it is one, too, or else the
next byte is one or the text ends there. Beside a byte of ASCII no character is cut in two.

- `Scan.Halts`: the ways in which a comment or a literal may end, and a lemma for each of the five
  sorts of tails.
- `Scan.exists_step_of_mem`: each range that is recorded is what some step of the scan has read.
- `Source.has_of_mem_trivia`: a range that is recorded holds characters of the text.
- `Source.trivia_is_ordered_table`: the table as a whole, and what a look-up in it finds.
-/

namespace Concretion

open Text

namespace Scan

/-! ## Where comments and literals end -/

/-- Behind as many of the bytes, no character of ASCII is cut in two: the last one read is a byte of
ASCII, or the next one is unless there is none. -/
def Halts (rest : List UInt8) (extra : Nat) : Prop :=
  (∃ b ∈ (rest.take extra).getLast?, b < 0x80) ∨ ∀ b ∈ (rest.drop extra).head?, b < 0x80

namespace Halts

variable {b : UInt8} {rest : List UInt8} {extra : Nat}

/-- A byte more is read in front. -/
theorem cons (h : Halts rest extra) : Halts (b :: rest) (extra + 1) := by
  rcases h with ⟨last, hlast, hascii⟩ | hnext
  · left
    refine ⟨last, ?_, hascii⟩
    rw [List.take_succ_cons, List.getLast?_cons]
    rw [Option.mem_def] at hlast ⊢
    rw [hlast]
    rfl
  · right
    rw [List.drop_succ_cons]
    exact hnext

theorem all (rest : List UInt8) : Halts rest rest.length := by
  right
  rw [List.drop_length]
  rintro b ⟨⟩

/-- The first byte is of ASCII, and nothing is read behind it. -/
theorem one (h : b < 0x80) : Halts (b :: rest) 1 :=
  .inl ⟨b, rfl, h⟩

theorem none (h : b < 0x80) : Halts (b :: rest) 0 := by
  right
  rintro _ ⟨⟩
  exact h

end Halts

theorem halts_lineComment (rest : List UInt8) : Halts rest (lineCommentTail rest) := by
  induction rest with
  | nil => exact .all []
  | cons b rest ih =>
    by_cases hfeed : b = 0x0A
    · subst hfeed
      exact .none (by decide)
    · have hnext : lineCommentTail (b :: rest) = lineCommentTail rest + 1 := by
        simp [lineCommentTail, hfeed]
      rw [hnext]
      exact ih.cons

theorem halts_blockComment (rest : List UInt8) : Halts rest (blockCommentTail rest) := by
  fun_induction blockCommentTail rest with
  | case1 => exact .all []
  | case2 b rest hclosed =>
    obtain ⟨-, hslash⟩ := Bool.and_eq_true_iff.1 hclosed
    obtain ⟨more, rfl⟩ := List.head?_eq_some_iff.1 (beq_iff_eq.1 hslash)
    exact (Halts.one (by decide)).cons
  | case3 b rest _ ih => exact ih.cons

theorem halts_string {quote : UInt8} (hquote : quote < 0x80) (rest : List UInt8) :
    Halts rest (stringTail quote rest) := by
  fun_induction stringTail quote rest with
  | case1 => exact .all []
  | case2 b => exact .all [b]
  | case3 b _ c rest ih => exact ih.cons.cons
  | case4 b rest _ hfeed =>
    rw [beq_iff_eq.1 hfeed]
    exact .none (by decide)
  | case5 b rest _ _ hclosed =>
    rw [beq_iff_eq.1 hclosed]
    exact .one hquote
  | case6 b rest _ _ _ ih => exact ih.cons

/-- Behind the flags of a regular expression comes a byte that belongs to no word. All bytes beyond
ASCII belong to words. -/
theorem halts_flags (rest : List UInt8) : Halts rest (rest.takeWhile isWordByte).length := by
  induction rest with
  | nil => exact .all []
  | cons b rest ih =>
    cases hword : isWordByte b with
    | true =>
      rw [List.takeWhile_cons_of_pos hword, List.length_cons]
      exact ih.cons
    | false =>
      rw [List.takeWhile_cons_of_neg (by rw [hword]; exact Bool.false_ne_true)]
      refine .none (UInt8.not_le.1 fun hle => ?_)
      simp [isWordByte, hle] at hword

theorem halts_regex {inClass : Bool} {rest : List UInt8} {extra : Nat}
    (h : regexTail inClass rest = some extra) : Halts rest extra := by
  fun_induction regexTail inClass rest generalizing extra with
  | case1 | case2 | case4 => cases h
  | case3 inClass b _ c rest ih =>
    obtain ⟨shorter, hshorter, rfl⟩ := Option.map_eq_some_iff.1 h
    exact (ih hshorter).cons.cons
  | case7 inClass b rest =>
    cases h
    exact (halts_flags rest).cons
  | case5 _ _ _ _ _ _ ih | case6 _ _ _ _ _ _ _ ih | case8 _ _ _ _ _ _ _ _ ih =>
    obtain ⟨shorter, hshorter, rfl⟩ := Option.map_eq_some_iff.1 h
    exact (ih hshorter).cons

theorem halts_template (rest : List UInt8) : Halts rest (templateTail rest).1 := by
  fun_induction templateTail rest with
  | case1 => exact .all []
  | case2 b => exact .all [b]
  | case3 b _ c rest length ending htail ih =>
    rw [htail] at ih
    exact ih.cons.cons
  | case4 b rest _ hclosed =>
    rw [beq_iff_eq.1 hclosed]
    exact .one (by decide)
  | case5 b rest _ _ hopened =>
    obtain ⟨-, hbrace⟩ := Bool.and_eq_true_iff.1 hopened
    obtain ⟨more, rfl⟩ := List.head?_eq_some_iff.1 (beq_iff_eq.1 hbrace)
    exact (Halts.one (by decide)).cons
  | case6 b rest _ _ _ length ending htail ih =>
    rw [htail] at ih
    exact ih.cons

/-! ## Steps -/

theorem halts_templateStep (rest : List UInt8) (depths : List Nat) :
    Halts rest (Step.template rest depths).extra := by
  have h := halts_template rest
  unfold Step.template
  split <;> next htail => rw [htail] at h; exact h

/-- A step that finds something starts with a byte of ASCII and halts. -/
theorem halts_step {lead : List UInt8} {depths : List Nat} {b : UInt8} {rest : List UInt8}
    {kind : TriviaKind} (h : (step lead depths b rest).found = some kind) :
    b < 0x80 ∧ Halts rest (step lead depths b rest).extra := by
  have hcode : ∀ depths, (Step.code depths).found ≠ some kind := by
    rintro depths ⟨⟩
  unfold step at h ⊢
  split
  · next hline =>
    obtain ⟨hslash, -⟩ := Bool.and_eq_true_iff.1 hline
    rw [beq_iff_eq.1 hslash]
    exact ⟨by decide, halts_lineComment rest⟩
  · next hline =>
    rw [if_neg hline] at h
    split
    · next hblock =>
      obtain ⟨hslash, hstar⟩ := Bool.and_eq_true_iff.1 hblock
      obtain ⟨more, rfl⟩ := List.head?_eq_some_iff.1 (beq_iff_eq.1 hstar)
      rw [beq_iff_eq.1 hslash]
      exact ⟨by decide, (halts_blockComment more).cons⟩
    · next hblock =>
      rw [if_neg hblock] at h
      split
      · next hregex =>
        obtain ⟨hslash, -⟩ := Bool.and_eq_true_iff.1 hregex
        rw [if_pos hregex] at h
        rw [beq_iff_eq.1 hslash]
        split
        · next htail => exact ⟨by decide, halts_regex htail⟩
        · next htail =>
          rw [htail] at h
          exact absurd h (hcode depths)
      · next hregex =>
        rw [if_neg hregex] at h
        split
        · next hquote =>
          have hascii : b < 0x80 := by
            rcases Bool.or_eq_true_iff.1 hquote with hb | hb
            all_goals
              rw [beq_iff_eq.1 hb]
              decide
          exact ⟨hascii, halts_string hascii rest⟩
        · next hquote =>
          rw [if_neg hquote] at h
          split
          · next htick =>
            rw [beq_iff_eq.1 htick]
            exact ⟨by decide, halts_templateStep rest depths⟩
          · next htick =>
            rw [if_neg htick] at h
            split
            · next hopen =>
              -- an opening brace is code
              rw [if_pos hopen] at h
              split at h <;> exact absurd h (hcode _)
            · next hopen =>
              rw [if_neg hopen] at h
              split
              · next hclose =>
                rw [if_pos hclose] at h
                rw [beq_iff_eq.1 hclose]
                split
                · exact absurd h (hcode _)
                · exact ⟨by decide, halts_templateStep _ _⟩
                · exact absurd h (hcode _)
              · next hclose =>
                rw [if_neg hclose] at h
                split at h
                · cases h
                · exact absurd h (hcode _)

/-- Each range that is found is what some step has read. -/
theorem exists_step_of_mem {offset : Nat} {before lead : List UInt8} {depths : List Nat}
    {rest : List UInt8} {trivia : Trivia} (h : trivia ∈ scanFrom offset before lead depths rest) :
    ∃ passed b more lead' depths', rest = passed ++ b :: more ∧
      (step lead' depths' b more).found = some trivia.kind ∧
      trivia.start = offset + passed.length ∧
      trivia.finish = trivia.start + 1 + (step lead' depths' b more).extra := by
  -- What was found in the rest was found in the whole, further behind by the bytes that the step
  -- has passed over.
  have hlater : ∀ {offset b} {s : Step} {rest : List UInt8}, s.extra ≤ rest.length →
      (∃ passed c more lead' depths', rest.drop s.extra = passed ++ c :: more ∧
        (step lead' depths' c more).found = some trivia.kind ∧
        trivia.start = offset + 1 + s.extra + passed.length ∧
        trivia.finish = trivia.start + 1 + (step lead' depths' c more).extra) →
      ∃ passed c more lead' depths', b :: rest = passed ++ c :: more ∧
        (step lead' depths' c more).found = some trivia.kind ∧
        trivia.start = offset + passed.length ∧
        trivia.finish = trivia.start + 1 + (step lead' depths' c more).extra := by
    intro offset b s rest hextra h
    obtain ⟨passed, c, more, lead', depths', hrest, hfound, hstart, hfinish⟩ := h
    refine ⟨b :: (rest.take s.extra ++ passed), c, more, lead', depths', ?_, hfound, ?_, hfinish⟩
    · rw [List.cons_append, List.append_assoc, ← hrest, List.take_append_drop]
    · rw [hstart, List.length_cons, List.length_append, List.length_take]
      omega
  fun_induction scanFrom offset before lead depths rest with
  | case1 => cases h
  | case2 offset before lead depths b rest s finish read later kind hfound ih =>
    rcases List.mem_cons.1 h with rfl | h
    · exact ⟨[], b, rest, lead, depths, rfl, hfound, rfl, rfl⟩
    · exact hlater (step_extra_le lead depths b rest) (ih h)
  | case3 offset before lead depths b rest s finish read later hfound ih =>
    exact hlater (step_extra_le lead depths b rest) (ih h)

end Scan

/-! ## Characters -/

namespace Text

/-- Characters are not cut in two behind a byte of ASCII that stands among their bytes. -/
theorem exists_split_behind {chars : List Char} {offset : Nat} {b : UInt8}
    (hbyte : (bytesOf chars)[offset]? = some b) (hascii : b < 0x80) :
    ∃ before behind, chars = before ++ behind ∧ width before = offset + 1 := by
  have hfirst : isContinuation b = false := by
    rw [isContinuation, decide_eq_false (UInt8.not_le.2 hascii), Bool.false_and]
  obtain ⟨before, behind, rfl, rfl⟩ := exists_split hbyte hfirst
  rw [bytesOf_append, ← length_bytesOf, List.getElem?_append_right (Nat.le_refl _),
    Nat.sub_self] at hbyte
  cases behind with
  | nil => cases hbyte
  | cons c behind =>
    -- the byte of ASCII is the whole of the character
    have hc : isAscii c = true := by
      by_contra hc
      rw [Bool.not_eq_true] at hc
      have hmem : b ∈ String.utf8EncodeChar c := by
        obtain ⟨first, tail, hbytes, -⟩ := bytes_of_not_isAscii hc
        rw [bytesOf_cons, hbytes] at hbyte
        cases hbyte
        rw [hbytes]
        exact List.mem_cons_self
      exact UInt8.not_le.2 hascii (le_of_not_isAscii hc hmem)
    have hsize : c.utf8Size = 1 := by
      rw [← String.length_utf8EncodeChar, bytes_of_isAscii hc]
      rfl
    refine ⟨before ++ [c], behind, by rw [List.append_assoc]; rfl, ?_⟩
    rw [width_append, width_cons, hsize]
    rfl

/-- Nor are they cut in two where reading halts. -/
theorem exists_split_of_halts {chars : List Char} {passed : List UInt8} {b : UInt8}
    {more : List UInt8} {extra : Nat} (hchars : bytesOf chars = passed ++ b :: more)
    (hextra : extra ≤ more.length) (h : Scan.Halts more extra) :
    ∃ before behind, chars = before ++ behind ∧ width before = passed.length + 1 + extra := by
  have hmore : ∀ place, (bytesOf chars)[passed.length + 1 + place]? = more[place]? := by
    intro place
    rw [hchars, Nat.add_assoc, List.getElem?_append_right (Nat.le_add_right _ _),
      Nat.add_sub_cancel_left, Nat.add_comm 1 place, List.getElem?_cons_succ]
  rcases h with ⟨last, hlast, hascii⟩ | hnext
  · cases extra with
    | zero => cases hlast
    | succ extra =>
      have hbyte : more[extra]? = some last := by
        rw [List.getLast?_eq_getElem?, List.length_take, Nat.min_eq_left hextra,
          Nat.add_sub_cancel, List.getElem?_take_of_lt (Nat.lt_succ_self extra)] at hlast
        exact hlast
      exact exists_split_behind ((hmore extra).trans hbyte) hascii
  · cases hrest : more[extra]? with
    | some next =>
      have hascii : next < 0x80 := hnext next (by rw [List.head?_drop]; exact hrest)
      refine exists_split ((hmore extra).trans hrest) ?_
      rw [isContinuation, decide_eq_false (UInt8.not_le.2 hascii), Bool.false_and]
    | none =>
      -- the text ends there
      have hlength : extra = more.length :=
        Nat.le_antisymm hextra (List.getElem?_eq_none_iff.1 hrest)
      refine ⟨chars, [], (List.append_nil _).symm, ?_⟩
      rw [← length_bytesOf, hchars, List.length_append, List.length_cons, hlength]
      omega

end Text

/-! ## The table -/

namespace Source

variable (source : Source)

/-- A range that is recorded holds characters of the text, and cuts none of them in two. -/
theorem has_of_mem_trivia {trivia : Trivia} (h : trivia ∈ source.trivia) :
    ∃ chars, source.Has trivia.start chars ∧ trivia.finish = trivia.start + width chars := by
  obtain ⟨passed, b, more, lead, depths, hbytes, hfound, hstart, hfinish⟩ :=
    Scan.exists_step_of_mem (source.mem_trivia.1 h)
  obtain ⟨hb, hhalts⟩ := Scan.halts_step hfound
  have hextra := Scan.step_extra_le lead depths b more
  rw [bytes_toList] at hbytes
  rw [Nat.zero_add] at hstart
  have hopening : (bytesOf source.text.toList)[passed.length]? = some b := by
    rw [hbytes, List.getElem?_append_right (Nat.le_refl _), Nat.sub_self]
    rfl
  have hfirst : isContinuation b = false := by
    rw [isContinuation, decide_eq_false (UInt8.not_le.2 hb), Bool.false_and]
  obtain ⟨before, inside, hopened, hwidth⟩ := exists_split hopening hfirst
  obtain ⟨through, behind, hclosed, hwidth'⟩ := exists_split_of_halts hbytes hextra hhalts
  -- of two beginnings of a text, the one with fewer bytes is the beginning of the other
  have hprefix : before <+: through := by
    have hbefore : bytesOf before <+: bytesOf source.text.toList := by
      rw [hopened, bytesOf_append]
      exact List.prefix_append _ _
    have hthrough : bytesOf through <+: bytesOf source.text.toList := by
      rw [hclosed, bytesOf_append]
      exact List.prefix_append _ _
    refine isPrefix_of_bytesOf (List.prefix_of_prefix_length_le hbefore hthrough ?_)
    rw [length_bytesOf, length_bytesOf]
    omega
  obtain ⟨chars, rfl⟩ := hprefix
  rw [width_append] at hwidth'
  refine ⟨chars, ⟨before, behind, ?_, ?_⟩, ?_⟩
  · rw [hclosed, List.append_assoc]
  · rw [hwidth, hstart]
  · omega

/-- For every text, malformed or not, the comments and literals that are recorded lie one behind the
other inside the text. None of them is empty, and none begins or ends inside of a character. So the
binary search finds for every offset the one range around it, if there is one, just as a search
through the whole table does. -/
theorem trivia_is_ordered_table :
    (∀ trivia ∈ source.trivia, trivia.start < trivia.finish ∧ trivia.finish ≤ source.size ∧
      source.isBoundary trivia.start = true ∧ source.isBoundary trivia.finish = true ∧
      ∃ chars, source.Has trivia.start chars ∧ trivia.finish = trivia.start + width chars) ∧
    (source.trivia.toList.Pairwise fun a b => a.start < b.start ∧ a.finish ≤ b.start) ∧
    ∀ offset,
      (∀ trivia, source.triviaAt offset = some trivia ↔
        trivia ∈ source.trivia ∧ trivia.start ≤ offset ∧ offset < trivia.finish) ∧
      source.triviaAt offset = source.trivia.toList.find? fun trivia =>
        trivia.start ≤ offset && offset < trivia.finish := by
  have hinside : ∀ trivia ∈ source.trivia, trivia.start < trivia.finish ∧
      trivia.finish ≤ source.size := fun trivia h => source.trivia_inside h
  refine ⟨fun trivia h => ?_, ?_, fun offset => ⟨fun trivia => source.triviaAt_eq_some_iff, ?_⟩⟩
  · obtain ⟨chars, hhas, hfinish⟩ := source.has_of_mem_trivia h
    obtain ⟨hstart, hend⟩ := hhas.isBoundary
    rw [← hfinish] at hend
    exact ⟨(hinside trivia h).1, (hinside trivia h).2, hstart, hend, chars, hhas, hfinish⟩
  · have hapart := Scan.scan_apart source.bytes.toList
    have htable : source.trivia.toList = Scan.scan source.bytes.toList := by
      rw [source.trivia_eq]
    rw [htable]
    refine hapart.imp_of_mem fun {a b} ha _ hab => ⟨?_, hab⟩
    exact (hinside a (source.mem_trivia.2 ha)).1.trans_le hab
  · -- what the linear search finds lies around the offset, so the binary search finds it, too
    cases hlinear : source.trivia.toList.find? fun trivia =>
        trivia.start ≤ offset && offset < trivia.finish with
    | some trivia =>
      have haround := List.find?_some hlinear
      rw [Bool.and_eq_true, decide_eq_true_eq, decide_eq_true_eq] at haround
      exact source.triviaAt_eq_some_iff.2
        ⟨Array.mem_toList_iff.1 (List.mem_of_find?_eq_some hlinear), haround⟩
    | none =>
      cases hbinary : source.triviaAt offset with
      | none => rfl
      | some trivia =>
        obtain ⟨hmem, haround⟩ := source.triviaAt_eq_some_iff.1 hbinary
        have hno := List.find?_eq_none.1 hlinear trivia (Array.mem_toList_iff.2 hmem)
        simp [haround] at hno

/-- An unclosed string whose last character is taken by a backslash, byte by byte. -/
example : Scan.scan (bytesOf ['a', '\x27', '\x5c', 'é']) = [⟨.literal, 1, 5⟩] := by
  decide +kernel

end Source

end Concretion
