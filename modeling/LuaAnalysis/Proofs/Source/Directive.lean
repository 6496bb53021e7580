import LuaAnalysis.Proofs.Source.LineLookup
import LuaAnalysis.Proofs.Token.Trailing
import LuaAnalysis.Proofs.Token.Printing
import LuaAnalysis.Source.Directive

/-!
# Directives and comments

Directives are looked for line by line, behind the first two dashes of a line. The lexer finds
comments among the tokens of the text, and it knows more kinds of line ends. So a directive can be
read out of a string, and one can be missed because dashes stand in a string in front of it
(`ofText_ne_ofComments_strings`).

Both agree on every line whose first two dashes begin a comment to the end of the line
(`ofText_eq_ofComments`), if no carriage return ends a line alone. Then the lines of positions are
those of the text (`Leads.exists_line`), each comment stands behind the dashes of its line
(`exists_standsOn`), and no second comment starts on such a line.
-/

namespace LuaAnalysis

open List Utf8

/-! ## Lines -/

variable {post cs line : List Char}
variable {rest pat pre after : List Char} {p q : Position} {n : Nat} {c : Comment}

namespace Text

/-- Whether every carriage return stands right before a line feed. -/
def endsPlainly : List Char → Bool
  | [] => true
  | c :: cs => (c != '\r' || cs.head? == some '\n') && endsPlainly cs

theorem endsPlainly_of_append (pre : List Char) (h : endsPlainly (pre ++ post) = true) :
    endsPlainly post = true := by
  induction pre with
  | nil => exact h
  | cons c pre ih => exact ih (Bool.and_eq_true_iff.1 h).2

theorem exists_of_endsPlainly (h : endsPlainly ('\r' :: cs) = true) :
    ∃ rest, cs = '\n' :: rest := by
  have hnext : cs.head? = some '\n' := by simpa using (Bool.and_eq_true_iff.1 h).1
  exact head?_eq_some_iff.1 hnext

def lineRest (cs : List Char) : List Char :=
  cs.takeWhile (!Glyph.isLineEnd ·)

theorem lineRest_append (hline : ∀ c ∈ line, Glyph.isLineEnd c = false) :
    lineRest (line ++ cs) = line ++ lineRest cs :=
  takeWhile_append_of_pos fun c hc => by rw [hline c hc]; rfl

theorem lineRest_eq_nil (h : ∀ c ∈ cs.head?, Glyph.isLineEnd c = true) : lineRest cs = [] := by
  cases cs with
  | nil => rfl
  | cons c cs => rw [lineRest, takeWhile_cons, h c rfl]; rfl

/-- Up to a line feed a text goes on to the end of its line, and there may be a carriage return in
between. -/
theorem eq_lineRest (hplain : endsPlainly (line ++ post) = true) (hline : '\n' ∉ line)
    (hpost : ∀ c ∈ post.head?, c = '\n') :
    line = lineRest (line ++ post) ∨ line = lineRest (line ++ post) ++ ['\r'] ∧ post ≠ [] := by
  induction line with
  | nil => exact .inl (lineRest_eq_nil fun c hc => by rw [hpost c hc]; rfl).symm
  | cons c line ih =>
    rw [mem_cons, not_or] at hline
    by_cases hc : c = '\r'
    · obtain ⟨rest, hrest⟩ := exists_of_endsPlainly (hc ▸ hplain)
      cases line with
      | nil => exact .inr ⟨by rw [hc]; rfl, fun hnil => by rw [hnil] at hrest; cases hrest⟩
      | cons d line =>
        cases hrest
        simp at hline
    · have hend : Glyph.isLineEnd c = false := by simp [Glyph.isLineEnd, Ne.symm hline.1, hc]
      have hrest : lineRest (c :: line ++ post) = c :: lineRest (line ++ post) := by
        simp [lineRest, hend]
      rw [hrest, cons_append, List.cons.injEq, List.cons.injEq, and_iff_right rfl,
        and_iff_right rfl]
      exact ih (endsPlainly_of_append [c] hplain) hline.2

theorem dropReturn_of_not_mem (h : '\r' ∉ line) : dropReturn line = line := by
  rcases dropReturn_cases with heq | heq
  · exact heq.symm
  · rw [heq] at h
    simp at h

/-! ### The first occurrence of a text -/

theorem dropPrefix?_eq_some_iff : dropPrefix? pat cs = some rest ↔ cs = pat ++ rest := by
  induction pat generalizing cs with
  | nil => simp [dropPrefix?]
  | cons p pat ih =>
    cases cs with
    | nil => simp [dropPrefix?]
    | cons c cs =>
      rw [dropPrefix?]
      split
      · next heq => rw [ih, heq, cons_append, List.cons.injEq, and_iff_right rfl]
      · next hne => simp [Ne.symm hne]

theorem splitOnce?_eq_none (h : splitOnce? pat cs = none) (before : List Char) :
    cs ≠ before ++ (pat ++ after) := by
  induction cs generalizing before with
  | nil =>
    rintro heq
    obtain ⟨rfl, hnil⟩ := append_eq_nil_iff.1 heq.symm
    have hfound := dropPrefix?_eq_some_iff.2 hnil.symm
    simp [splitOnce?, hfound] at h
  | cons c cs ih =>
    rw [splitOnce?] at h
    split at h
    · cases h
    · next hnot =>
      rintro heq
      cases before with
      | nil =>
        rw [nil_append, ← dropPrefix?_eq_some_iff, hnot] at heq
        cases heq
      | cons b before => exact ih (Option.map_eq_none_iff.1 h) before (List.cons.inj heq).2

theorem splitOnce?_eq_some {before : List Char} (h : splitOnce? pat cs = some (before, rest)) :
    cs = before ++ (pat ++ rest) ∧ ∀ earlier after, cs = earlier ++ (pat ++ after) →
    before <+: earlier := by
  induction cs generalizing before with
  | nil =>
    rw [splitOnce?] at h
    obtain ⟨found, hfound, heq⟩ := Option.map_eq_some_iff.1 h
    cases heq
    exact ⟨by rwa [nil_append, ← dropPrefix?_eq_some_iff], fun _ _ _ => nil_prefix⟩
  | cons c cs ih =>
    rw [splitOnce?] at h
    split at h
    · next hfound =>
      cases h
      exact ⟨by rwa [nil_append, ← dropPrefix?_eq_some_iff], fun _ _ _ => nil_prefix⟩
    · next hnot =>
      obtain ⟨⟨tail, found⟩, htail, heq⟩ := Option.map_eq_some_iff.1 h
      cases heq
      obtain ⟨hcs, hfirst⟩ := ih htail
      refine ⟨by rw [cons_append, ← hcs], fun earlier after heq => ?_⟩
      cases earlier with
      | nil =>
        rw [nil_append, ← dropPrefix?_eq_some_iff, hnot] at heq
        cases heq
      | cons e earlier =>
        obtain ⟨rfl, htailEq⟩ := List.cons.inj heq
        exact cons_prefix_cons.2 ⟨rfl, hfirst earlier after htailEq⟩

end Text

/-! ## Positions -/

namespace Glyph

open Text

theorem Leads.feedsLines (h : Leads p pre post q) (hplain : endsPlainly (pre ++ post) = true)
    (hpost : ∃ c ∈ post.head?, isLineEnd c = false) : FeedsLines pre := by
  refine ⟨?_, fun c hc => ?_⟩
  · induction h with
    | nil => exact nofun
    | char hc _ ih =>
      rw [lineEnds_char hc]
      exact ih (endsPlainly_of_append [_] hplain) hpost
    | @pair p q c d pre post hjoin _ ih =>
      rw [lineEnds, if_pos hjoin, forall_mem_cons]
      refine ⟨?_, ih (endsPlainly_of_append [c, d] hplain) hpost⟩
      rcases joins_cases hjoin with ⟨rfl, rfl⟩ | ⟨rfl, rfl⟩ <;> simp
    | @line p q c pre post hc hnext _ ih =>
      rw [lineEnds_line hc fun d hd => hnext d (by rw [head?_append, hd]; rfl), forall_mem_cons]
      refine ⟨mem_singleton.2 (eq_newline_of_isLineEnd hc ?_).symm,
        ih (endsPlainly_of_append [c] hplain) hpost⟩
      rintro rfl
      obtain ⟨rest, hrest⟩ : ∃ rest, pre ++ post = '\n' :: rest := exists_of_endsPlainly hplain
      exact absurd (hnext '\n' (by rw [hrest]; rfl)) (by decide)
  · obtain ⟨front, last, rfl, hlast, hfront, -⟩ := h.exists_last
    rw [getLast?_filter_isLineEnd hlast hfront] at hc
    refine eq_newline_of_isLineEnd (hfront c hc) ?_
    rintro rfl
    obtain ⟨more, rfl⟩ := getLast?_eq_some_iff.1 hc
    obtain ⟨rest, hrest⟩ : ∃ rest, last ++ post = '\n' :: rest :=
      exists_of_endsPlainly (endsPlainly_of_append more (by simpa using hplain))
    obtain ⟨d, hd, hend⟩ := hpost
    have hnewline : ∀ e ∈ (last ++ post).head?, isLineEnd e = false := by
      rw [head?_append, hd]
      cases last with
      | nil => rintro _ ⟨⟩; exact hend
      | cons e last => rintro _ ⟨⟩; exact hlast e mem_cons_self
    rw [hrest] at hnewline
    exact absurd (hnewline '\n' rfl) (by decide)

theorem Leads.exists_line (h : Leads {} pre post q) (hplain : endsPlainly (pre ++ post) = true)
    (hpost : ∃ c ∈ post.head?, isLineEnd c = false) : ∃ before, q.column = (encode before).length ∧
      (lines (pre ++ post))[q.line]? = some (before ++ lineRest post) := by
  obtain ⟨mid, rest, rfl, hmid, hrest⟩ := exists_firstLine post
  have hpresent : mid ++ rest ≠ [] := fun hnil => by simp [hnil] at hpost
  obtain ⟨front, last, rfl, hlast, hcolumn, hat⟩ :=
    h.lineAt (h.feedsLines hplain hpost) hmid hrest (.inr hpresent)
  have hline := hat.getElem?_lines
  rw [append_assoc, ← append_assoc front] at hline
  refine ⟨last, hcolumn, hline.trans (congrArg some ?_)⟩
  have hreturn : '\r' ∉ last ++ lineRest (mid ++ rest) := by
    rw [mem_append, not_or]
    refine ⟨fun hmem => absurd (hlast _ hmem) (by decide), fun hmem => ?_⟩
    exact absurd (all_eq_true.1 all_takeWhile _ hmem) (by decide)
  rcases eq_lineRest (endsPlainly_of_append (front ++ last) hplain) hmid hrest with heq | ⟨heq, hne⟩
  · rw [← heq] at hreturn ⊢
    rw [dropReturn_of_not_mem hreturn, ite_self]
  · rw [if_neg hne]
    nth_rewrite 1 [heq]
    rw [← append_assoc, dropReturn, dropSuffix?_concat]
    rfl

theorem Leads.right (hline : ∀ c ∈ line, isLineEnd c = false) (h : Leads p (line ++ pre) post q) :
    Leads (p.right (encode line).length) pre post q := by
  induction line generalizing p with
  | nil => exact h
  | cons c line ih =>
    rw [forall_mem_cons] at hline
    rw [cons_append] at h
    have hrest : Leads (p.right c.utf8Size) (line ++ pre) post q := by
      generalize line ++ pre = rest at h
      cases h with
      | char _ h => exact h
      | pair hjoin _ =>
        rw [joins, hline.1] at hjoin
        cases hjoin
      | line hc _ _ =>
        rw [hline.1] at hc
        cases hc
    have hmoved : p.right (encode (c :: line)).length =
        (p.right c.utf8Size).right (encode line).length := by
      rw [encode_cons, length_append, String.length_utf8EncodeChar, Position.right, ← Nat.add_assoc]
      rfl
    rw [hmoved]
    exact ih hline.2 hrest

theorem Leads.eq_of_nil (h : Leads p [] post q) : q = p := by
  cases h
  rfl

end Glyph

/-! ## Comments on their lines -/

/-- Where a comment stands: on its line it starts with the dashes behind `before`. Unless it is a
long one it goes to the end of the line. -/
structure Comment.StandsOn (c : Comment) (before after : List Char) : Prop where
  column : c.range.start.column = (encode before).length
  dashes : c.range.start.right 2 ≤ c.range.stop
  short : opensLong (encode after) = false →
    c.text.toList = after ∧ c.range.stop = c.range.start.right (2 + (encode after).length)

open Text in
theorem exists_standsOn {text : String} {lexed : Lexed} (h : tokenize text = .ok lexed)
    (hplain : endsPlainly text.toList = true) (hc : c ∈ lexed.comments) :
    ∃ before after,
      (lines text.toList)[c.range.start.line]? = some (before ++ '-' :: '-' :: after) ∧
      c.StandsOn before after := by
  obtain ⟨pre, cs, q, ps, htext, hpre, -, hcut, rfl⟩ := Lexer.cut_of_tokenize h
  rw [← (Lexer.filterMap_marks ps).2, Lexer.mem_getRight?_iff] at hc
  obtain ⟨pc, before, under, behind, hpc, heq, -, hleads, hunder, hspelled⟩ :=
    hcut.exists_piece hpre hc
  rw [Mark.range_inr] at hleads hunder hspelled
  obtain rfl : pc = .comment c := by
    cases pc <;> cases hpc
    rfl
  obtain ⟨rest, rfl⟩ : ∃ rest, under = '-' :: '-' :: rest := by
    rcases hspelled.2 with ⟨level, more, hmore⟩ | ⟨rfl, -⟩
    · exact ⟨_, hmore.symm⟩
    · exact ⟨_, rfl⟩
  rw [htext, heq] at hplain ⊢
  have hdashes : ∀ d ∈ ['-', '-'], Glyph.isLineEnd d = false := by simp [Glyph.isLineEnd]
  obtain ⟨line, hcolumn, hat⟩ := hleads.exists_line hplain ⟨'-', rfl, rfl⟩
  have hafter : lineRest ('-' :: '-' :: rest ++ behind) = '-' :: '-' :: lineRest (rest ++ behind) :=
    lineRest_append hdashes
  rw [hafter] at hat
  refine ⟨line, lineRest (rest ++ behind), hat, hcolumn, ?_, fun hshort => ?_⟩
  · exact (Glyph.Leads.right hdashes hunder).le
  · rcases hspelled.2 with ⟨level, more, hmore⟩ | ⟨heq, htext, hend⟩
    · obtain rfl : Lexer.longOpen level ++ more = rest := by simpa using hmore
      have hopen : ∀ d ∈ Lexer.longOpen level, Glyph.isLineEnd d = false := by
        intro d hd
        simp only [Lexer.longOpen, mem_cons, mem_append, mem_replicate, not_mem_nil, or_false] at hd
        rcases hd with rfl | ⟨-, rfl⟩ | rfl <;> rfl
      rw [append_assoc, lineRest_append hopen, Lexer.opensLong_longOpen] at hshort
      cases hshort
    · obtain rfl : rest = c.text.toList := by simpa using heq
      have hrest : lineRest (c.text.toList ++ behind) = c.text.toList := by
        rw [lineRest_append htext, lineRest_eq_nil hend, append_nil]
      have hwhole : ∀ d ∈ '-' :: '-' :: c.text.toList, Glyph.isLineEnd d = false :=
        forall_mem_append.2 ⟨hdashes, htext⟩
      rw [← append_nil ('-' :: '-' :: c.text.toList)] at hunder
      refine ⟨hrest.symm, ?_⟩
      rw [hrest, (hunder.right hwhole).eq_of_nil, encode_cons, encode_cons]
      exact congrArg c.range.start.right (Nat.add_comm _ 2)

/-! ## Directives of comments -/

namespace Directives

def inComment? (n : Nat) (text : List Char) : Option (Nat × List String) :=
  let comment := Text.trim (text.dropWhile (· == '-'))
  match Text.dropPrefix? "luma-disable-next-line".toList comment with
  | some rest => some (n + 1, kinds rest)
  | none => (Text.dropPrefix? "luma-disable-line".toList comment).map fun rest => (n, kinds rest)

theorem ofLine?_eq :
    ofLine? n line = (Text.splitOnce? ['-', '-'] line).bind fun parts => inComment? n parts.2 := by
  unfold ofLine?
  cases Text.splitOnce? ['-', '-'] line <;> rfl

def ofComment? (c : Comment) : Option (Nat × List String) :=
  inComment? c.range.start.line c.text.toList

def ofComments (cs : List Comment) : Directives :=
  (cs.filterMap ofComment?).foldl (fun d (line, kinds) => d.add line kinds) {}

def Clear (comments : List Comment) (n : Nat) (line : List Char) : Prop :=
  ∀ parts ∈ Text.splitOnce? ['-', '-'] line, opensLong (encode parts.2) = false ∧
    ∃ c ∈ comments, c.range.start = ⟨n, (encode parts.1).length⟩

instance (comments : List Comment) (n : Nat) (line : List Char) :
    Decidable (Clear comments n line) :=
  inferInstanceAs (Decidable (∀ parts ∈ Text.splitOnce? ['-', '-'] line, _ ∧ ∃ c ∈ comments, _))

def startingOn (n : Nat) (comments : List Comment) : List Comment :=
  comments.filter (·.range.start.line == n)

variable {before : List Char} {comments : List Comment}

theorem length_encode_dashes : (Utf8.encode (before ++ '-' :: '-' :: after)).length =
      (encode before).length + (2 + (encode after).length) := by
  rw [encode_append, encode_cons, encode_cons, length_append]
  exact congrArg _ (Nat.add_comm _ 2)

theorem not_before_of_first {d : Comment} {front back : List Char} (hc : c.StandsOn before rest)
    (hd : d.StandsOn front back) (hline : before ++ '-' :: '-' :: rest =
      front ++ '-' :: '-' :: back) (hn : c.range.start.line = d.range.start.line)
    (hfirst : before <+: front) (hshort : opensLong (encode rest) = false) :
    ¬ d.range.Before c.range ∧ ¬ c.range.Before d.range := by
  obtain ⟨more, hmore⟩ := hfirst
  have hcolumns : (encode front).length = (encode before).length + (encode more).length := by
    rw [← hmore, encode_append, length_append]
  have hlength := congrArg (fun cs => (encode cs).length) hline
  simp only [length_encode_dashes] at hlength
  have hcolumn := hc.column
  have hcolumn' := hd.column
  refine ⟨fun hbefore => ?_, fun hbefore => ?_⟩
  · have hle := Position.le_trans hd.dashes hbefore
    rw [Position.le_iff] at hle
    simp only [Position.right] at hle
    omega
  · have hle : c.range.stop ≤ d.range.start := hbefore
    rw [(hc.short hshort).2, Position.le_iff] at hle
    simp only [Position.right] at hle
    omega

section Lexed

variable {text : String} {lexed : Lexed} (h : tokenize text = .ok lexed)

include h

variable (hplain : Text.endsPlainly text.toList = true)

include hplain

theorem pairwise_lines :
    lexed.comments.Pairwise fun c d => c.range.start.line ≤ d.range.start.line := by
  refine (pairwise_comments h).imp_of_mem fun {c d} hc _ hbefore => ?_
  obtain ⟨_, _, _, hstands⟩ := exists_standsOn h hplain hc
  have hle := Position.le_trans hstands.dashes hbefore
  rw [Position.le_iff] at hle
  simp only [Position.right] at hle
  omega

variable {n : Nat} {line : List Char} (hat : (Text.lines text.toList)[n]? = some line)

include hat

theorem exists_standsOn_of_line (hc : c ∈ lexed.comments) (hn : c.range.start.line = n) :
    ∃ before after, line = before ++ (['-', '-'] ++ after) ∧ c.StandsOn before after := by
  obtain ⟨before, after, hline, hstands⟩ := exists_standsOn h hplain hc
  rw [hn, hat] at hline
  exact ⟨before, after, Option.some.inj hline, hstands⟩

theorem startingOn_of_clear (hclear : Clear lexed.comments n line)
    (hsplit : Text.splitOnce? ['-', '-'] line = some (before, rest)) :
    ∃ c, startingOn n lexed.comments = [c] ∧ c.range.start.line = n ∧ c.text.toList = rest := by
  obtain ⟨hline, hfirst⟩ := Text.splitOnce?_eq_some hsplit
  obtain ⟨hshort, c, hc, hstart⟩ := hclear (before, rest) hsplit
  have hn : c.range.start.line = n := congrArg Position.line hstart
  obtain ⟨before', after, hline', hstands⟩ := exists_standsOn_of_line h hplain hat hc hn
  obtain rfl : before' = before := Text.eq_of_append_eq (hline'.symm.trans hline)
    (hstands.column.symm.trans (congrArg Position.column hstart))
  obtain rfl : after = rest := append_cancel_left (append_cancel_left (hline'.symm.trans hline))
  obtain ⟨earlier, later, hcomments⟩ := append_of_mem hc
  have hpairwise := pairwise_comments h
  rw [hcomments, pairwise_append, pairwise_cons] at hpairwise
  obtain ⟨-, ⟨hlater, -⟩, hearlier⟩ := hpairwise
  -- Any other comment on the line would overlap this one.
  have halone : ∀ d ∈ lexed.comments, d.range.start.line = n → ¬ d.range.Before c.range ∧
      ¬ c.range.Before d.range := by
    intro d hd hdn
    obtain ⟨front, back, hfront, hstands'⟩ := exists_standsOn_of_line h hplain hat hd hdn
    exact not_before_of_first hstands hstands' (hline.symm.trans hfront) (hn.trans hdn.symm)
      (hfirst front back hfront)
      hshort
  refine ⟨c, ?_, hn, (hstands.short hshort).1⟩
  rw [hcomments, forall_mem_append, forall_mem_cons] at halone
  have hfront : earlier.filter (·.range.start.line == n) = [] :=
    filter_eq_nil_iff.2 fun d hd hdn =>
      (halone.1 d hd (beq_iff_eq.1 hdn)).1 (hearlier d hd c mem_cons_self)
  have hback : later.filter (·.range.start.line == n) = [] :=
    filter_eq_nil_iff.2 fun d hd hdn => (halone.2.2 d hd (beq_iff_eq.1 hdn)).2 (hlater d hd)
  have hself : (c.range.start.line == n) = true := beq_iff_eq.2 hn
  rw [startingOn, hcomments, filter_append, filter_cons, if_pos hself, hfront, hback]
  rfl

theorem ofLine?_of_clear (hclear : Clear lexed.comments n line) :
    (ofLine? n line).toList = (startingOn n lexed.comments).filterMap ofComment? := by
  rw [ofLine?_eq]
  cases hsplit : Text.splitOnce? ['-', '-'] line with
  | none =>
    have hnone : startingOn n lexed.comments = [] := by
      refine filter_eq_nil_iff.2 fun c hc hn => ?_
      obtain ⟨before, after, hline, -⟩ := exists_standsOn_of_line h hplain hat hc (beq_iff_eq.1 hn)
      exact Text.splitOnce?_eq_none hsplit before hline
    rw [hnone]
    rfl
  | some parts =>
    obtain ⟨c, hc, hn, htext⟩ := startingOn_of_clear h hplain hat hclear hsplit
    rw [hc, filterMap_cons, filterMap_nil, ofComment?, hn, htext]
    change (inComment? n parts.2).toList = _
    cases inComment? n parts.2 <;> rfl

end Lexed

/-! ## Line after line -/

theorem startingOn_append (hfrom : ∀ c ∈ comments, n ≤ c.range.start.line)
    (hsorted : comments.Pairwise fun c d => c.range.start.line ≤ d.range.start.line) :
    startingOn n comments ++ comments.filter (n < ·.range.start.line) = comments := by
  induction comments with
  | nil => rfl
  | cons c comments ih =>
    rw [forall_mem_cons] at hfrom
    rw [pairwise_cons] at hsorted
    unfold startingOn at ih ⊢
    by_cases hn : c.range.start.line = n
    · rw [filter_cons_of_pos (by simpa using hn), filter_cons_of_neg (by simp [hn]), cons_append,
        ih hfrom.2 hsorted.2]
    · have hlater : ∀ d ∈ c :: comments, n < d.range.start.line := by
        have hlt := Nat.lt_of_le_of_ne hfrom.1 (Ne.symm hn)
        exact forall_mem_cons.2 ⟨hlt, fun d hd => Nat.lt_of_lt_of_le hlt (hsorted.1 d hd)⟩
      have hnone : (c :: comments).filter (·.range.start.line == n) = [] :=
        filter_eq_nil_iff.2 fun d hd heq => absurd (beq_iff_eq.1 heq) (Nat.ne_of_gt (hlater d hd))
      rw [hnone, nil_append]
      exact filter_eq_self.2 fun d hd => decide_eq_true (hlater d hd)

theorem ofLines_eq {ls : List (List Char)}
    (hsorted : comments.Pairwise fun c d => c.range.start.line ≤ d.range.start.line)
    (hbounds : ∀ c ∈ comments, n ≤ c.range.start.line ∧ c.range.start.line < n + ls.length)
    (hlines : ∀ i line, ls[i]? = some line →
      (ofLine? (n + i) line).toList = (startingOn (n + i) comments).filterMap ofComment?) :
    ofLines n ls = comments.filterMap ofComment? := by
  induction ls generalizing n comments with
  | nil =>
    cases comments with
    | nil => rfl
    | cons c comments =>
      have := hbounds c mem_cons_self
      simp only [length_nil] at this
      omega
  | cons l ls ih =>
    have hrest : ofLines (n + 1) ls =
        (comments.filter (n < ·.range.start.line)).filterMap ofComment? := by
      refine ih (hsorted.filter _) (fun c hc => ?_) fun i line hi => ?_
      · obtain ⟨hc, hlt⟩ := mem_filter.1 hc
        have := hbounds c hc
        simp only [length_cons, decide_eq_true_eq] at this hlt
        omega
      · have hsame : startingOn (n + 1 + i) (comments.filter (n < ·.range.start.line)) =
            startingOn (n + 1 + i) comments := by
          rw [startingOn, startingOn, filter_filter]
          refine filter_congr fun c _ => ?_
          rw [Bool.and_eq_left_iff_imp, beq_iff_eq, decide_eq_true_eq]
          omega
        rw [hsame, Nat.add_assoc, Nat.add_comm 1]
        exact hlines (i + 1) line hi
    have hfrom : ∀ c ∈ comments, n ≤ c.range.start.line := fun c hc => (hbounds c hc).1
    have hfirst : (ofLine? n l).toList = (startingOn n comments).filterMap ofComment? :=
      hlines 0 l rfl
    rw [ofLines, hrest, hfirst, ← filterMap_append, startingOn_append hfrom hsorted]

/-- Where the directives of a text are those of its comments. If every carriage return stands before
a line feed, then a line whose first two dashes, if it has any, begin a comment to the end of the
line has the directives of the comments that start on it. If moreover neither any other line nor any
comment that starts there reads as a directive, then the directives of the text are those of its
comments, each for the line where its comment starts or for the next one. -/
theorem ofText_eq_ofComments {text : String} {lexed : Lexed} (h : tokenize text = .ok lexed)
    (hplain : Text.endsPlainly text.toList = true) :
    (∀ n line, (Text.lines text.toList)[n]? = some line → Clear lexed.comments n line →
      (ofLine? n line).toList = (startingOn n lexed.comments).filterMap ofComment?) ∧
    ((∀ n line, (Text.lines text.toList)[n]? = some line → Clear lexed.comments n line ∨
        ofLine? n line = none ∧ ∀ c ∈ startingOn n lexed.comments, ofComment? c = none) →
      ofText text = ofComments lexed.comments) := by
  refine ⟨fun n line => ofLine?_of_clear h hplain, fun hlines => ?_⟩
  have hall : ofLines 0 (Text.lines text.toList) = lexed.comments.filterMap ofComment? := by
    refine ofLines_eq ?_ (fun c hc => ?_) fun n line hat => ?_
    · exact pairwise_lines h hplain
    · obtain ⟨before, after, hat, -⟩ := exists_standsOn h hplain hc
      obtain ⟨hlt, -⟩ := List.getElem?_eq_some_iff.1 hat
      exact ⟨Nat.zero_le _, by rwa [Nat.zero_add]⟩
    · rw [Nat.zero_add]
      rcases hlines n line hat with hclear | ⟨hnone, hcomments⟩
      · exact ofLine?_of_clear h hplain hat hclear
      · rw [hnone, filterMap_eq_nil_iff.2 hcomments]
        rfl
  rw [ofText, ofComments, hall]

def commentedText : String :=
  "local s = 1 --- luma-disable-line unused-local\r\n--[[ long ]] x = s\n-- luma-disable-next-line\ny = x\n"

theorem ofText_eq_ofComments_commentedText :
    ∃ lexed, tokenize commentedText = .ok lexed ∧ Text.endsPlainly commentedText.toList = true ∧
      (ofText commentedText).size = 2 ∧ ofText commentedText = ofComments lexed.comments := by
  have hread : ∃ lexed ∈ (tokenize commentedText).toOption,
      ∀ entry ∈ (Text.lines commentedText.toList).zipIdx, Clear lexed.comments entry.2 entry.1 ∨
        ofLine? entry.2 entry.1 = none ∧
        ∀ c ∈ startingOn entry.2 lexed.comments, ofComment? c = none := by
    decide +kernel
  obtain ⟨lexed, hlexed, hlines⟩ := hread
  have hok := eq_ok_of_toOption hlexed
  have hplain : Text.endsPlainly commentedText.toList = true := by decide +kernel
  refine ⟨lexed, hok, hplain, by decide +kernel,
    (ofText_eq_ofComments hok hplain).2 fun n line hat => ?_⟩
  exact hlines (line, n) (mem_zipIdx_iff_getElem?.2 hat)

/-- A directive is read out of a string, and one is missed because dashes stand in a string in front
of it. -/
theorem ofText_ne_ofComments_strings :
    (∃ lexed ∈ (tokenize "x = \"-- luma-disable-line\"\n").toOption, lexed.comments = [] ∧
      (ofText "x = \"-- luma-disable-line\"\n").size = 1) ∧
    ∃ lexed ∈ (tokenize "x = \"--\" -- luma-disable-line\n").toOption,
      (ofComments lexed.comments).size = 1 ∧
      (ofText "x = \"--\" -- luma-disable-line\n").size = 0 := by
  decide +kernel

end Directives

end LuaAnalysis
