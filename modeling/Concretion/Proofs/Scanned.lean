import Concretion.Text.Source
import Mathlib.Data.List.Infix

/-!
# What a scan of a text yields

The comments and literals of a text, as the scan finds them, lie inside the text one behind the
other, and none of them is empty.

- `Scan.Reached`: the points of a text at which a step of the scan starts, with what is known there
  of the text before.
- `Scan.scan_inside`, `Scan.scan_apart`: where the ranges lie.
- `Source.triviaAt_eq_some_iff`: binary search among the ranges finds the one around an offset.
- `Source.nextSignificant_of_byte`: one turn of the search for the next significant byte.
-/

namespace Concretion

open Text

namespace Scan

/-! ## Steps -/

theorem lineCommentTail_le (rest : List UInt8) : lineCommentTail rest ≤ rest.length :=
  (List.takeWhile_prefix _).length_le

theorem blockCommentTail_le (rest : List UInt8) : blockCommentTail rest ≤ rest.length := by
  fun_induction blockCommentTail rest with
  | case1 => exact Nat.le_refl _
  | case2 b rest h =>
    cases rest with
    | nil => simp at h
    | cons c rest => simp
  | case3 b rest h ih =>
    rw [List.length_cons]
    omega

theorem stringTail_le (quote : UInt8) (rest : List UInt8) :
    stringTail quote rest ≤ rest.length := by
  fun_induction stringTail quote rest <;> simp only [List.length_cons, List.length_nil] <;> omega

theorem regexTail_le {inClass : Bool} {rest : List UInt8} {extra : Nat}
    (h : regexTail inClass rest = some extra) : extra ≤ rest.length := by
  fun_induction regexTail inClass rest generalizing extra with
  | case1 | case2 | case4 => cases h
  | case3 inClass b _ c rest ih =>
    obtain ⟨shorter, hshorter, rfl⟩ := Option.map_eq_some_iff.1 h
    have := ih hshorter
    simp only [List.length_cons]
    omega
  | case7 inClass b rest =>
    cases h
    have := (List.takeWhile_prefix (l := rest) Text.isWordByte).length_le
    rw [List.length_cons]
    omega
  | case5 _ _ _ _ _ _ ih | case6 _ _ _ _ _ _ _ ih | case8 _ _ _ _ _ _ _ _ ih =>
    obtain ⟨shorter, hshorter, rfl⟩ := Option.map_eq_some_iff.1 h
    have := ih hshorter
    rw [List.length_cons]
    omega

theorem templateTail_le (rest : List UInt8) : (templateTail rest).1 ≤ rest.length := by
  fun_induction templateTail rest with
  | case1 | case2 | case4 => simp
  | case3 _ _ _ _ _ _ htail ih =>
    rw [htail] at ih
    simp only [List.length_cons] at ih ⊢
    omega
  | case5 b rest _ _ h =>
    cases rest with
    | nil => simp at h
    | cons c rest => simp
  | case6 _ _ _ _ _ _ _ htail ih =>
    rw [htail] at ih
    simp only [List.length_cons] at ih ⊢
    omega

theorem template_extra_le (rest : List UInt8) (depths : List Nat) :
    (Step.template rest depths).extra ≤ rest.length := by
  have h := templateTail_le rest
  unfold Step.template
  split <;> next htail => rw [htail] at h; exact h

/-- A step reads no more than there is. -/
theorem step_extra_le (lead : List UInt8) (depths : List Nat) (b : UInt8) (rest : List UInt8) :
    (step lead depths b rest).extra ≤ rest.length := by
  unfold step
  split
  · exact lineCommentTail_le rest
  · split
    · next h =>
      cases rest with
      | nil => simp at h
      | cons c rest => exact Nat.succ_le_succ (blockCommentTail_le rest)
    · split
      · split
        · next h => exact regexTail_le h
        · exact Nat.zero_le _
      · split
        · exact stringTail_le b rest
        · split
          · exact template_extra_le rest depths
          · split
            · split <;> exact Nat.zero_le _
            · split
              · split
                · exact Nat.zero_le _
                · exact template_extra_le _ _
                · exact Nat.zero_le _
              · split <;> exact Nat.zero_le _

/-- The points at which a step of the scan of a text starts: the bytes before, latest first, those
of them up to the last significant one, the open braces, and the bytes to come. -/
inductive Reached (bytes : List UInt8) :
    List UInt8 → List UInt8 → List Nat → List UInt8 → Prop where
  | start : Reached bytes [] [] [] bytes
  | next {before lead : List UInt8} {depths : List Nat} {b : UInt8} {rest : List UInt8}
      (h : Reached bytes before lead depths (b :: rest)) :
      Reached bytes
        ((rest.take (step lead depths b rest).extra).reverse ++ b :: before)
        (if (step lead depths b rest).significant then
          (rest.take (step lead depths b rest).extra).reverse ++ b :: before
        else lead)
        (step lead depths b rest).depths
        (rest.drop (step lead depths b rest).extra)

/-- The scan reads the text once from its beginning, and only looks back at what it has read. -/
theorem Reached.read {bytes before lead rest : List UInt8} {depths : List Nat}
    (h : Reached bytes before lead depths rest) :
    before.reverse ++ rest = bytes ∧ lead <:+ before := by
  induction h with
  | start => exact ⟨rfl, List.suffix_rfl⟩
  | @next before lead depths b rest h ih =>
    obtain ⟨hbytes, hlead⟩ := ih
    refine ⟨?_, ?_⟩
    · rw [← hbytes]
      simp [List.take_append_drop]
    · split
      · exact List.suffix_rfl
      · exact hlead.trans ((List.suffix_cons b before).trans (List.suffix_append _ _))

/-- Where the bytes that a step looks at stand in the text: the byte it starts with, the last
significant byte before, and as many bytes behind as it reads. -/
theorem Reached.places {bytes before lead rest : List UInt8} {depths : List Nat} {b : UInt8}
    (h : Reached bytes before lead depths (b :: rest)) :
    bytes[before.length]? = some b ∧
      (∀ last ∈ lead.head?, bytes[lead.length - 1]? = some last) ∧
      before.length + 1 + (step lead depths b rest).extra ≤ bytes.length := by
  obtain ⟨hbytes, hlead⟩ := h.read
  have hextra := step_extra_le lead depths b rest
  refine ⟨?_, fun last hlast => ?_, ?_⟩
  · rw [← hbytes, ← List.length_reverse, List.getElem?_append_right (Nat.le_refl _), Nat.sub_self]
    rfl
  · obtain ⟨earlier, hearlier⟩ := hlead
    cases lead with
    | nil => cases hlast
    | cons byte lead =>
      cases hlast
      rw [← hbytes, ← hearlier, List.reverse_append, List.reverse_cons, List.append_assoc,
        List.append_assoc, List.length_cons, Nat.add_sub_cancel, ← List.length_reverse,
        List.getElem?_append_right (Nat.le_refl _), Nat.sub_self]
      rfl
  · rw [← hbytes, List.length_append, List.length_reverse, List.length_cons]
    omega

/-! ## The ranges found -/

/-- The ranges found from an offset on lie behind it and inside the text. None is empty. -/
theorem scanFrom_inside {offset : Nat} {before lead : List UInt8} {depths : List Nat}
    {rest : List UInt8} {trivia : Trivia} (h : trivia ∈ scanFrom offset before lead depths rest) :
    offset ≤ trivia.start ∧ trivia.start < trivia.finish ∧
      trivia.finish ≤ offset + rest.length := by
  fun_induction scanFrom offset before lead depths rest with
  | case1 => cases h
  | case2 offset before lead depths b rest s finish read later kind hfound ih =>
    have hextra : s.extra ≤ rest.length := step_extra_le lead depths b rest
    rcases List.mem_cons.1 h with rfl | h
    · simp only [List.length_cons, finish]
      omega
    · have := ih h
      simp only [List.length_drop, List.length_cons, finish] at this ⊢
      omega
  | case3 offset before lead depths b rest s finish read later hfound ih =>
    have hextra : s.extra ≤ rest.length := step_extra_le lead depths b rest
    have := ih h
    simp only [List.length_drop, List.length_cons, finish] at this ⊢
    omega

theorem scanFrom_apart (offset : Nat) (before lead : List UInt8) (depths : List Nat)
    (rest : List UInt8) :
    (scanFrom offset before lead depths rest).Pairwise fun a b => a.finish ≤ b.start := by
  fun_induction scanFrom offset before lead depths rest with
  | case1 => exact .nil
  | case2 offset before lead depths b rest s finish read later kind hfound ih =>
    exact .cons (fun trivia htrivia => (scanFrom_inside htrivia).1) ih
  | case3 offset before lead depths b rest s finish read later hfound ih => exact ih

/-- Every range found lies inside the text, and none is empty. -/
theorem scan_inside {bytes : List UInt8} {trivia : Trivia} (h : trivia ∈ scan bytes) :
    trivia.start < trivia.finish ∧ trivia.finish ≤ bytes.length := by
  have hinside := scanFrom_inside h
  omega

/-- The ranges found lie one behind the other. -/
theorem scan_apart (bytes : List UInt8) :
    (scan bytes).Pairwise fun a b => a.finish ≤ b.start :=
  scanFrom_apart 0 [] [] [] bytes

end Scan

namespace Source

variable (source : Source)

theorem mem_trivia {trivia : Trivia} :
    trivia ∈ source.trivia ↔ trivia ∈ Scan.scan source.bytes.toList := by
  rw [source.trivia_eq]
  exact List.mem_toArray

theorem trivia_inside {trivia : Trivia} (h : trivia ∈ source.trivia) :
    trivia.start < trivia.finish ∧ trivia.finish ≤ source.size := by
  have hinside := Scan.scan_inside (source.mem_trivia.1 h)
  rwa [Array.length_toList] at hinside

theorem trivia_apart {i j : Nat} {a b : Trivia} (hij : i < j) (ha : source.trivia[i]? = some a)
    (hb : source.trivia[j]? = some b) : a.finish ≤ b.start := by
  have hapart := Scan.scan_apart source.bytes.toList
  rw [source.trivia_eq, List.getElem?_toArray] at ha hb
  obtain ⟨hi, rfl⟩ := List.getElem?_eq_some_iff.1 ha
  obtain ⟨hj, rfl⟩ := List.getElem?_eq_some_iff.1 hb
  exact List.pairwise_iff_getElem.1 hapart i j hi hj hij

theorem endsBefore_mono (offset i j : Nat) (hij : i < j) (h : source.endsBefore offset j) :
    source.endsBefore offset i := by
  simp only [endsBefore, Option.any_eq_true, decide_eq_true_eq] at h ⊢
  obtain ⟨b, hb, hfinish⟩ := h
  have hj : j < source.trivia.size := (Array.getElem?_eq_some_iff.1 hb).1
  have hi : i < source.trivia.size := by omega
  have ha : source.trivia[i]? = some source.trivia[i] := Array.getElem?_eq_getElem hi
  have hapart := source.trivia_apart hij ha hb
  have hinside := source.trivia_inside (Array.mem_of_getElem? hb)
  exact ⟨_, ha, by omega⟩

/-- Binary search finds the range around an offset, if there is one. -/
theorem triviaAt_eq_some_iff {offset : Nat} {trivia : Trivia} :
    source.triviaAt offset = some trivia ↔
      trivia ∈ source.trivia ∧ trivia.start ≤ offset ∧ offset < trivia.finish := by
  obtain ⟨hbelow, habove⟩ := Search.partitionPoint_spec (source.endsBefore_mono offset) 0
    source.trivia.size (Nat.zero_le _)
  constructor
  · intro h
    refine ⟨?_, ?_, lt_finish_of_triviaAt h⟩
    · exact Array.mem_of_getElem? (Option.filter_eq_some_iff.1 h).1
    · exact of_decide_eq_true (Option.filter_eq_some_iff.1 h).2
  · rintro ⟨hmem, hstart, hfinish⟩
    obtain ⟨k, hk⟩ := Array.mem_iff_getElem?.1 hmem
    have hsize : k < source.trivia.size := (Array.getElem?_eq_some_iff.1 hk).1
    -- All trivia in front ends before the offset, and all behind ends after it, so the search stops
    -- at the one around the offset.
    have hpoint : Search.partitionPoint (source.endsBefore offset) 0 source.trivia.size = k := by
      generalize Search.partitionPoint (source.endsBefore offset) 0 source.trivia.size = point
        at hbelow habove
      refine Nat.le_antisymm (Nat.not_lt.1 fun hlt => ?_) (Nat.not_lt.1 fun hlt => ?_)
      · have hends := hbelow k (Nat.zero_le _) hlt
        simp only [endsBefore, hk, Option.any_some, decide_eq_true_eq] at hends
        omega
      · have hends := habove point (Nat.le_refl _) (hlt.trans hsize)
        have hlast : point < source.trivia.size := hlt.trans hsize
        have hi : source.trivia[point]? = some source.trivia[point] :=
          Array.getElem?_eq_getElem hlast
        have hapart := source.trivia_apart hlt hi hk
        simp only [endsBefore, hi, Option.any_some, decide_eq_false_iff_not] at hends
        omega
    simp only [triviaAt, hpoint, hk]
    exact Option.filter_eq_some_iff.2 ⟨rfl, decide_eq_true hstart⟩

/-! ## The next significant byte -/

/-- The comment around an offset, if comments are skipped. -/
def skipped (offset : Nat) : Option Trivia :=
  (source.triviaAt offset).filter fun trivia =>
    trivia.kind == .comment && source.mode == .skipTrivia

variable {source} {offset : Nat}

theorem nextSignificant_of_size_le (h : source.size ≤ offset) :
    source.nextSignificant offset = none := by
  have houtside : ¬ offset < source.bytes.size := Nat.not_lt.2 h
  rw [nextSignificant, dif_neg houtside]

/-- One turn of the search inside the text: it goes to the end of a comment, and else the byte
decides. -/
theorem nextSignificant_of_byte {byte : UInt8} (hbyte : source.byteAt offset = some byte) :
    source.nextSignificant offset = (source.skipped offset).elim
      (if isBlankByte byte then source.nextSignificant (offset + 1) else some offset)
      fun trivia => source.nextSignificant trivia.finish := by
  obtain ⟨hinside, rfl⟩ := Array.getElem?_eq_some_iff.1 hbyte
  rw [nextSignificant, dif_pos hinside, skipped]
  split
  · next trivia haround =>
    rw [haround, Option.filter_some]
    split <;> rfl
  · next haround =>
    rw [haround]
    rfl

end Source

end Concretion
