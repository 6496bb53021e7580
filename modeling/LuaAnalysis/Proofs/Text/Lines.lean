import LuaAnalysis.Proofs.Text.Pieces
import LuaAnalysis.Proofs.Text.Utf8
import LuaAnalysis.Source.Basic
import Mathlib.Data.String.Basic
import Mathlib.Data.List.Forall2

/-!
# Lines and their bytes

A text without a line feed is one line, and any other text is a line, a line feed and a text
(`byLines`). Both ways to cut a text into lines follow that, so they find the same lines, but for
carriage returns, and the lines give back the text. `LineAt` says which part of a text is a line
with a number, and the ranges of lines are the bytes of those parts.
-/

namespace LuaAnalysis

open List Utf8

namespace Text

variable {cs line rest before : List Char} {start offset n a b : Nat} {text : String}

/-- Induction on the lines of a text. -/
@[elab_as_elim]
theorem byLines {motive : List Char → Prop} (last : ∀ line, '\n' ∉ line → motive line)
    (more : ∀ line rest, '\n' ∉ line → motive rest → motive (line ++ '\n' :: rest))
    (cs : List Char) : motive cs := by
  suffices h : ∀ line, '\n' ∉ line → motive (line ++ cs) from h [] not_mem_nil
  induction cs with
  | nil => exact fun line hline => (append_nil line).symm ▸ last line hline
  | cons c cs ih =>
    intro line hline
    by_cases hc : c = '\n'
    · exact hc ▸ more line cs hline (ih [] not_mem_nil)
    · rw [← singleton_append, ← append_assoc]
      exact ih (line ++ [c]) (by simp [hline, Ne.symm hc])

theorem exists_firstLine (cs : List Char) :
    ∃ line rest, cs = line ++ rest ∧ '\n' ∉ line ∧ ∀ c ∈ rest.head?, c = '\n' := by
  induction cs using byLines with
  | last line hline => exact ⟨line, [], (append_nil line).symm, hline, nofun⟩
  | more line rest hline _ => exact ⟨line, '\n' :: rest, rfl, hline, by simp⟩

/-! ## Ranges of lines -/

theorem lineRanges_append (hline : '\n' ∉ line) :
    lineRanges start offset (line ++ cs) = lineRanges start (offset + (encode line).length) cs := by
  induction line generalizing offset with
  | nil => rfl
  | cons c line ih =>
    rw [mem_cons, not_or] at hline
    rw [cons_append, lineRanges, if_neg (Ne.symm hline.1), ih hline.2, encode_cons, length_append,
      String.length_utf8EncodeChar, Nat.add_assoc]

/-- A line ends before its line feed. -/
theorem lineRanges_newline (hline : '\n' ∉ line) : lineRanges start offset (line ++ '\n' :: rest) =
      (start, offset + (encode line).length) ::
        lineRanges (offset + (encode line).length + 1)
          (offset + (encode line).length + 1) rest := by
  rw [lineRanges_append hline, lineRanges, if_pos rfl]

theorem length_encode_eq_zero : (Utf8.encode line).length = 0 ↔ line = [] := by
  refine ⟨fun h => ?_, fun h => h ▸ rfl⟩
  cases line with
  | nil => rfl
  | cons c line =>
    rw [encode_cons, length_append, String.length_utf8EncodeChar] at h
    exact absurd (Nat.eq_zero_of_add_eq_zero_right h) (Nat.ne_of_gt c.utf8Size_pos)

theorem eq_of_append_eq {x y : List Char} (h : line ++ x = rest ++ y)
    (hlength : (encode line).length = (encode rest).length) : line = rest := by
  rcases append_eq_append_iff.1 h with ⟨more, rfl, -⟩ | ⟨more, rfl, -⟩ <;>
    obtain rfl : more = [] := length_encode_eq_zero.1 (by
      rw [encode_append, length_append] at hlength
      omega)
  · exact (append_nil line).symm
  · exact append_nil rest

theorem lineRanges_last (hline : '\n' ∉ line) (hne : line ≠ []) :
    lineRanges start start line = [(start, start + (encode line).length)] := by
  have hpos := Nat.pos_of_ne_zero (mt length_encode_eq_zero.1 hne)
  rw [← append_nil line, lineRanges_append hline, lineRanges, append_nil, if_pos (by omega)]

/-- In the text `before ++ (line ++ rest)`, what is called `line` is the line with a number. -/
structure LineAt (n : Nat) (before line rest : List Char) : Prop where
  number : before.count '\n' = n
  starts : ∀ c ∈ before.getLast?, c = '\n'
  whole : '\n' ∉ line
  stops : ∀ c ∈ rest.head?, c = '\n'
  present : line ++ rest ≠ []

theorem length_encode_newline : (Utf8.encode (line ++ '\n' :: rest)).length =
      (encode line).length + 1 + (encode rest).length := by
  rw [encode_append, encode_cons, length_append, length_append, String.length_utf8EncodeChar,
    Nat.add_assoc]
  rfl

theorem count_newline (hline : '\n' ∉ line) :
    (line ++ '\n' :: rest).count '\n' = rest.count '\n' + 1 := by
  rw [count_append, count_eq_zero_of_not_mem hline, count_cons_self, Nat.zero_add]

theorem getLast?_newline : (∀ c ∈ (line ++ '\n' :: rest).getLast?, c = '\n') ↔
    ∀ c ∈ rest.getLast?, c = '\n' := by
  cases h : rest.getLast? <;> simp [getLast?_cons, h]

theorem exists_lineAt (h : (lineRanges start start cs)[n]? = some (a, b)) :
    ∃ before line rest, cs = before ++ (line ++ rest) ∧ LineAt n before line rest ∧
      a = start + (encode before).length ∧ b = a + (encode line).length := by
  induction cs using byLines generalizing start n with
  | last line hline =>
    by_cases hne : line = []
    · rw [hne, lineRanges, if_neg (Nat.lt_irrefl _)] at h
      cases h
    · rw [lineRanges_last hline hne] at h
      obtain ⟨rfl, rfl, rfl⟩ : n = 0 ∧ start = a ∧ start + (encode line).length = b := by
        cases n with
        | zero => simpa using h
        | succ n => cases h
      exact ⟨[], line, [], by simp, ⟨rfl, by simp, hline, by simp, by simpa using hne⟩, rfl, rfl⟩
  | more line rest hline ih =>
    rw [lineRanges_newline hline] at h
    cases n with
    | zero =>
      cases h
      exact ⟨[], line, '\n' :: rest, rfl, ⟨rfl, by simp, hline, by simp, by simp⟩, rfl, rfl⟩
    | succ n =>
      obtain ⟨before, line', rest', rfl, hat, rfl, rfl⟩ := ih h
      refine ⟨line ++ '\n' :: before, line', rest', by simp,
        ⟨?_, getLast?_newline.2 hat.starts, hat.whole, hat.stops, hat.present⟩, ?_, rfl⟩
      · rw [count_newline hline, hat.number]
      · rw [length_encode_newline]
        omega

namespace LineAt

theorem eq_nil (h : LineAt n before line rest) (hbefore : '\n' ∉ before) : before = [] ∧ 0 = n := by
  refine ⟨?_, (count_eq_zero_of_not_mem hbefore).symm.trans h.number⟩
  by_contra hne
  obtain ⟨c, hc⟩ := Option.ne_none_iff_exists'.1 (mt getLast?_eq_none_iff.1 hne)
  exact hbefore (h.starts c hc ▸ mem_of_getLast? hc)

theorem tail {first : List Char} (h : LineAt n (first ++ '\n' :: before) line rest)
    (hfirst : '\n' ∉ first) : ∃ m, m + 1 = n ∧ LineAt m before line rest :=
  ⟨_, (count_newline hfirst).symm.trans h.number, rfl, getLast?_newline.1 h.starts, h.whole,
    h.stops, h.present⟩

theorem getElem?_lineRanges (h : LineAt n before line rest) (start : Nat) :
    (lineRanges start start (before ++ (line ++ rest)))[n]? = some (start + (encode before).length,
      start + (encode before).length + (encode line).length) := by
  induction before using byLines generalizing start n with
  | last before hbefore =>
    obtain ⟨rfl, rfl⟩ := h.eq_nil hbefore
    cases hrest : rest with
    | nil =>
      rw [append_nil, nil_append,
        lineRanges_last h.whole fun hline => h.present (by rw [hline, hrest]; rfl)]
      rfl
    | cons c more =>
      obtain rfl : c = '\n' := h.stops c (by rw [hrest]; rfl)
      rw [nil_append, lineRanges_newline h.whole]
      rfl
  | more first before hfirst ih =>
    obtain ⟨m, rfl, hat⟩ := h.tail hfirst
    rw [append_assoc, cons_append, lineRanges_newline hfirst, getElem?_cons_succ, ih hat,
      length_encode_newline]
    simp only [Nat.add_assoc]

end LineAt

theorem slice_encode : slice (String.ofList (before ++ (line ++ rest)))
      ((encode before).length, (encode before).length + (encode line).length) =
        String.ofList line := by
  have hsize : ∀ cs, (encode cs).length = String.utf8Len cs := by
    intro cs
    induction cs with
    | nil => rfl
    | cons c cs ih =>
      rw [encode_cons, length_append, String.length_utf8EncodeChar, ih, Nat.add_comm]
      rfl
  rw [slice, hsize, hsize, ← append_assoc]
  exact String.extract_of_valid before line rest

theorem LineAt.line?_eq (h : LineAt n before line rest)
    (htext : text.toList = before ++ (line ++ rest)) :
    line? text n = some (String.ofList line) := by
  rw [line?, htext, h.getElem?_lineRanges, Option.map_some,
    Nat.zero_add, ← String.ofList_toList (s := text), htext, slice_encode]

/-! ## Lines without line ends -/

theorem lines_append (hline : '\n' ∉ line) :
    lines (line ++ '\n' :: rest) = dropReturn line :: lines rest := by
  have hone := splitOn_eq_singleton (p := (· == '\n')) fun c hc =>
    beq_eq_false_iff_ne.2 (ne_of_mem_of_not_mem hc hline)
  rw [lines, lines, splitOn_append rfl, hone, singleton_append]
  obtain ⟨w, ws, hw⟩ := exists_cons_of_ne_nil (splitOn_ne_nil (· == '\n') rest)
  rw [hw, dropReturns]

theorem lines_last (hline : '\n' ∉ line) (hne : line ≠ []) : lines line = [line] := by
  rw [lines, splitOn_eq_singleton fun c hc =>
    beq_eq_false_iff_ne.2 (ne_of_mem_of_not_mem hc hline), dropReturns, if_neg (by simpa using hne)]

theorem dropReturn_cases : line = dropReturn line ∨ line = dropReturn line ++ ['\r'] := by
  rcases eq_nil_or_concat line with rfl | ⟨more, c, rfl⟩
  · exact .inl rfl
  · rw [concat_eq_append, dropReturn]
    by_cases hc : c = '\r'
    · rw [hc, dropSuffix?_concat]
      exact .inr rfl
    · rw [dropSuffix?_concat_ne hc]
      exact .inl rfl

theorem LineAt.getElem?_lines (h : LineAt n before line rest) :
    (lines (before ++ (line ++ rest)))[n]? =
      some (if rest = [] then line else dropReturn line) := by
  induction before using byLines generalizing n with
  | last before hbefore =>
    obtain ⟨rfl, rfl⟩ := h.eq_nil hbefore
    cases hrest : rest with
    | nil =>
      rw [append_nil, nil_append,
        lines_last h.whole fun hline => h.present (by rw [hline, hrest]; rfl)]
      rfl
    | cons c more =>
      obtain rfl : c = '\n' := h.stops c (by rw [hrest]; rfl)
      rw [nil_append, lines_append h.whole]
      rfl
  | more first before hfirst ih =>
    obtain ⟨m, rfl, hat⟩ := h.tail hfirst
    rw [append_assoc, cons_append, lines_append hfirst, getElem?_cons_succ, ih hat]

/-! ## All lines -/

/-- A text is its lines with line feeds between them, and maybe one at the end. -/
theorem exists_rows (pre cs : List Char) : ∃ rows : List (List Char),
      (lineRanges (encode pre).length (encode pre).length cs).map
        (slice (String.ofList (pre ++ cs))) =
        rows.map String.ofList ∧
      List.Forall₂ (fun row line => row = line ∨ row = line ++ ['\r']) rows (lines cs) ∧
      (rows = [] ↔ cs = []) ∧
      cs = ['\n'].intercalate rows ++ if cs.getLast? = some '\n' then ['\n'] else [] := by
  induction cs using byLines generalizing pre with
  | last line hline =>
    have hlast : ¬ line.getLast? = some '\n' := fun h => hline (mem_of_getLast? h)
    by_cases hne : line = []
    · rw [hne, lineRanges, if_neg (Nat.lt_irrefl _)]
      exact ⟨[], rfl, .nil, by simp, rfl⟩
    · refine ⟨[line], ?_, ?_, by simpa using hne, by simp [hlast]⟩
      · have hslice := @slice_encode line [] pre
        rw [append_nil] at hslice
        rw [lineRanges_last hline hne, map_singleton, hslice]
        rfl
      · rw [lines_last hline hne]
        exact .cons (.inl rfl) .nil
  | more line rest hline ih =>
    obtain ⟨rows, hrows, hlines, hempty, hjoined⟩ := ih (pre ++ (line ++ ['\n']))
    refine ⟨line :: rows, ?_, ?_, by simp, ?_⟩
    · have hpre : (encode (pre ++ (line ++ ['\n']))).length =
          (encode pre).length + (encode line).length + 1 := by
        rw [encode_append, length_append, length_encode_newline]
        rfl
      have htext : pre ++ (line ++ ['\n']) ++ rest = pre ++ (line ++ '\n' :: rest) := by simp
      rw [hpre, htext] at hrows
      rw [lineRanges_newline hline, map_cons, slice_encode, hrows]
      rfl
    · rw [lines_append hline]
      exact .cons dropReturn_cases hlines
    · cases rows with
      | nil =>
        rw [hempty.1 rfl]
        simp
      | cons row rows =>
        have hne : rest ≠ [] := fun hnil => nomatch hempty.2 hnil
        have hlast : (line ++ '\n' :: rest).getLast? = rest.getLast? := by
          rw [getLast?_append_of_ne_nil _ (cons_ne_nil _ _), getLast?_cons_of_ne_nil hne]
        rw [hlast, intercalate_cons_cons, append_assoc, append_assoc, ← hjoined]
        rfl

end Text

namespace Source

theorem text_parse {text : String} : (parse text).text = text := by
  unfold parse
  cases tokenize text <;> rfl

/-- The numbers of lines go up to the number of lines. Each line is the line that is read without
line ends, and may have a carriage return more at its end. All lines with a line feed between any
two of them are the text, but for the line feed that the text may end in. -/
theorem lines_agree (text : String) : ∃ ls : List String, (∀ i, (parse text).line? i = ls[i]?) ∧
      (parse text).lineCount = ls.length ∧
      List.Forall₂ (fun line l => line = l ∨ line = l ++ "\r") ls (Text.linesOf text) ∧
      text = "\n".intercalate ls ++ if text.toList.getLast? = some '\n' then "\n" else "" := by
  obtain ⟨rows, hrows, hlines, -, hjoined⟩ := Text.exists_rows [] text.toList
  rw [nil_append, String.ofList_toList] at hrows
  refine ⟨rows.map String.ofList, fun i => ?_, ?_, ?_, ?_⟩
  · rw [line?, text_parse, Text.line?, ← hrows, getElem?_map]
    rfl
  · rw [lineCount, text_parse, length_map, hlines.length_eq]
  · rw [Text.linesOf, forall₂_map_left_iff, forall₂_map_right_iff]
    refine hlines.imp fun row line h => ?_
    rcases h with rfl | rfl
    · exact .inl rfl
    · exact .inr String.ofList_append
  · have hback : (rows.map String.ofList).map String.toList = rows := by simp [Function.comp_def]
    apply String.toList_injective
    rw [String.toList_append, String.toList_intercalate, hback]
    split
    · rename_i hlast
      rwa [if_pos hlast] at hjoined
    · rename_i hlast
      rwa [if_neg hlast] at hjoined

end Source

end LuaAnalysis
