import LuaAnalysis.Proofs.Token.Trailing
import LuaAnalysis.Source.Basic
import LuaAnalysis.Types.Annotation
import Mathlib.Data.List.Chain
import Mathlib.Data.List.Forall2

/-!
# What stands in a block of comments

The blocks cut the comments of a text into runs, and a block has the lines of its run and reaches
from its first comment to its last one. A comment goes on with the block above it if the block ends
on the line before and no token starts in front of the comment. What stands behind the block on the
line where it ends is not looked at. So a block holds exactly the tokens that start on the last line
of one of its comments, other than the last one, behind that comment (`exists_runs_of_tokenize`),
and tags in front of a statement can reach the next one (`tokens_in_block`).
-/

namespace LuaAnalysis

open List

/-- The second comment stands alone on the line below the first one. -/
structure Comment.Continues (c d : Comment) : Prop where
  line : c.range.stop.line + 1 = d.range.start.line
  alone : d.trailing = false

structure CommentBlock.MadeOf (b : CommentBlock) (run : List Comment) : Prop where
  ne_nil : run ≠ []
  lines : b.lines = run.flatMap fun c => Text.linesOf c.text
  start : ∀ c ∈ run.head?, b.range.start = c.range.start
  stop : ∀ c ∈ run.getLast?, b.range.stop = c.range.stop
  head : ∀ c ∈ run.head?, c.trailing = !b.head
  chain : run.IsChain Comment.Continues

variable {b : CommentBlock} {c : Comment} {cs run : List Comment}

namespace CommentBlock

/-! ## Runs -/

theorem madeOf_ofComment : (ofComment c).MadeOf [c] := by
  refine ⟨cons_ne_nil _ _, (append_nil _).symm, ?_, ?_, ?_, isChain_singleton c⟩
  · rintro _ ⟨⟩; rfl
  · rintro _ ⟨⟩; rfl
  · rintro _ ⟨⟩; exact (Bool.not_not _).symm

theorem MadeOf.extend (h : b.MadeOf run) (hforward : b.range.start ≤ b.range.stop)
    (hstop : b.range.stop ≤ c.range.start) (hc : c.range.start ≤ c.range.stop)
    (hcont : b.continues c = true) : (b.extend c).MadeOf (run ++ [c]) := by
  have hcover : b.range.cover c.range = ⟨b.range.start, c.range.stop⟩ :=
    TextRange.cover_of_le (Position.le_trans hforward hstop) (Position.le_trans hstop hc)
  have hhead : (run ++ [c]).head? = run.head? := by
    rw [head?_append_of_ne_nil _ h.ne_nil]
  simp only [continues, Bool.and_eq_true, Bool.not_eq_true', beq_iff_eq] at hcont
  refine ⟨by simp, ?_, ?_, ?_, ?_, ?_⟩
  · rw [flatMap_append, ← h.lines, flatMap_singleton]
    rfl
  · rw [hhead, CommentBlock.extend, hcover]
    exact h.start
  · rw [getLast?_concat, CommentBlock.extend, hcover]
    rintro _ ⟨⟩
    rfl
  · rw [hhead]
    exact h.head
  · refine isChain_append.2 ⟨h.chain, isChain_singleton c, fun d hd _ hc => ?_⟩
    cases hc
    exact ⟨by rw [← h.stop d hd]; exact hcont.2, hcont.1.1⟩

theorem exists_runs_group (h : b.MadeOf run) (hforward : b.range.start ≤ b.range.stop)
    (hfrom : ∀ c ∈ cs, b.range.stop ≤ c.range.start) (hcs : ∀ c ∈ cs, c.range.start ≤ c.range.stop)
    (horder : cs.Pairwise fun c d => c.range.Before d.range) :
    ∃ runs : List (List Comment), runs.flatten = run ++ cs ∧
      List.Forall₂ MadeOf (group b cs) runs := by
  induction cs generalizing b run with
  | nil => exact ⟨[run], by simp, .cons h .nil⟩
  | cons c cs ih =>
    rw [forall_mem_cons] at hfrom hcs
    rw [pairwise_cons] at horder
    rw [group]
    split
    · next hcont =>
      have hcover : b.range.cover c.range = ⟨b.range.start, c.range.stop⟩ :=
        TextRange.cover_of_le (Position.le_trans hforward hfrom.1) (Position.le_trans hfrom.1 hcs.1)
      have hreach : (b.extend c).range = ⟨b.range.start, c.range.stop⟩ := hcover
      obtain ⟨runs, hflat, hruns⟩ := ih (h.extend hforward hfrom.1 hcs.1 hcont)
        (by rw [hreach]; exact Position.le_trans hforward (Position.le_trans hfrom.1 hcs.1))
        (by rw [hreach]; exact horder.1) hcs.2 horder.2
      exact ⟨runs, by rw [hflat, append_assoc, singleton_append], hruns⟩
    · obtain ⟨runs, hflat, hruns⟩ := ih madeOf_ofComment hcs.1 horder.1 hcs.2 horder.2
      exact ⟨run :: runs, by rw [flatten_cons, hflat, singleton_append], .cons h hruns⟩

end CommentBlock

theorem CommentTable.exists_runs (hcs : ∀ c ∈ cs, c.range.start ≤ c.range.stop)
    (horder : cs.Pairwise fun c d => c.range.Before d.range) :
    ∃ runs : List (List Comment), runs.flatten = cs ∧
      List.Forall₂ CommentBlock.MadeOf (ofComments cs).blocks runs := by
  cases cs with
  | nil => exact ⟨[], rfl, .nil⟩
  | cons c cs =>
    rw [forall_mem_cons] at hcs
    rw [pairwise_cons] at horder
    exact CommentBlock.exists_runs_group CommentBlock.madeOf_ofComment hcs.1 horder.1 hcs.2 horder.2

/-! ## Tokens between comments -/

/-- A token among comments of its text, which stand in the order of the text. -/
structure Token.Among (t : Token) (cs : List Comment) : Prop where
  wide : t.range.start < t.range.stop
  forward : ∀ c ∈ cs, c.range.start ≤ c.range.stop
  order : cs.Pairwise fun c d => c.range.Before d.range
  disjoint : ∀ c ∈ cs, t.range.Before c.range ∨ c.range.Before t.range
  unmarked : ∀ c ∈ cs, c.trailing = false → t.range.Before c.range →
    t.range.start.line ≠ c.range.start.line

namespace Token.Among

variable {t : Token} {last : Comment}

theorem of_sublist {ds : List Comment} (h : t.Among cs) (hsub : ds.Sublist cs) : t.Among ds where
  wide := h.wide
  forward c hc := h.forward c (hsub.subset hc)
  order := h.order.sublist hsub
  disjoint c hc := h.disjoint c (hsub.subset hc)
  unmarked c hc := h.unmarked c (hsub.subset hc)

theorem not_before (h : t.Among cs) (hbefore : t.range.Before c.range) (hc : c ∈ cs) :
    ¬ c.range.Before t.range := by
  intro hafter
  have hle := Position.le_trans (Position.le_trans hbefore (h.forward c hc)) hafter
  exact Position.lt_irrefl (Position.lt_of_lt_of_le h.wide hle)

theorem start_le_stop (h : t.Among (c :: cs)) (hlast : last ∈ (c :: cs).getLast?) :
    c.range.start ≤ last.range.stop := by
  have hforward := h.forward last (mem_of_getLast? hlast)
  rcases mem_cons.1 (mem_of_getLast? hlast) with rfl | hmem
  · exact hforward
  · have hbefore : c.range.stop ≤ last.range.start := (pairwise_cons.1 h.order).1 last hmem
    exact Position.le_trans (h.forward c mem_cons_self) (Position.le_trans hbefore hforward)

theorem stop_le_iff (h : t.Among (c :: cs)) (hrun : (c :: cs).IsChain Comment.Continues)
    (hlast : last ∈ (c :: cs).getLast?) (hfirst : c.range.Before t.range) :
    t.range.stop ≤ last.range.stop ↔
      ∃ d ∈ (c :: cs).dropLast, d.range.Before t.range ∧
        t.range.start.line = d.range.stop.line := by
  induction cs generalizing c with
  | nil =>
    obtain rfl : c = last := by simpa using hlast
    refine iff_of_false (fun hle => ?_) (by simp)
    exact Position.lt_irrefl (Position.lt_of_lt_of_le h.wide (Position.le_trans hle hfirst))
  | cons d cs ih =>
    rw [isChain_cons_cons] at hrun
    rw [getLast?_cons_cons] at hlast
    have hrest : t.Among (d :: cs) := h.of_sublist (sublist_cons_self c _)
    have hline := hrun.1.line
    rw [dropLast_cons_cons, exists_mem_cons_iff]
    rcases h.disjoint d (by simp) with hbefore | hafter
    · -- The token stands between the two comments, so on the last line of the first one.
      have hother := h.unmarked d (by simp) hrun.1.alone hbefore
      have hopen : c.range.stop ≤ t.range.start := hfirst
      have hclose := Position.le_trans (Position.le_of_lt h.wide) hbefore
      rw [Position.le_iff] at hopen hclose
      exact iff_of_true (Position.le_trans hbefore (hrest.start_le_stop hlast))
        (.inl ⟨hfirst, by omega⟩)
    · have hlater := Position.le_trans (h.forward d (by simp)) hafter
      rw [Position.le_iff] at hlater
      rw [ih hrest hrun.2 hlast hafter, or_iff_right fun hc => by omega]

theorem containsRange_iff (h : t.Among run) (hb : b.MadeOf run) :
    b.range.containsRange t.range = true ↔
    ∃ c ∈ run.dropLast, c.range.Before t.range ∧ t.range.start.line = c.range.stop.line := by
  obtain ⟨c, cs, rfl⟩ := exists_cons_of_ne_nil hb.ne_nil
  obtain ⟨last, hlast⟩ := Option.isSome_iff_exists.1 (getLast?_isSome.2 hb.ne_nil)
  rw [TextRange.containsRange_iff, hb.start c rfl, hb.stop last hlast]
  rcases h.disjoint c mem_cons_self with hbefore | hafter
  · refine iff_of_false (fun hin => ?_) ?_
    · exact Position.lt_irrefl (Position.lt_of_lt_of_le h.wide (Position.le_trans hbefore hin.1))
    · rintro ⟨d, hd, hafter, -⟩
      have hd := (dropLast_sublist _).subset hd
      refine h.not_before (c := d) ?_ hd hafter
      rcases mem_cons.1 hd with rfl | hmem
      · exact hbefore
      · have hnext : c.range.stop ≤ d.range.start := (pairwise_cons.1 h.order).1 d hmem
        exact Position.le_trans hbefore (Position.le_trans (h.forward c mem_cons_self) hnext)
  · rw [← h.stop_le_iff hb.chain hlast hafter]
    exact and_iff_right (Position.le_trans (h.forward c mem_cons_self) hafter)

end Token.Among

theorem among_of_tokenize {text : String} {lexed : Lexed} (h : tokenize text = .ok lexed)
    {t : Token} (ht : t ∈ lexed.tokens) : t.Among lexed.comments := by
  have hmarked := @trailing_iff_exists_start _ _ h
  obtain ⟨p, cs, ps, hcut, htokens, hcomments⟩ := Lexer.marks_of_tokenize h
  have hmem : ∀ c ∈ lexed.comments, .inr c ∈ ps.filterMap Lexer.Piece.mark? := fun c hc => by
    rwa [hcomments, Lexer.mem_getRight?_iff] at hc
  refine ⟨hcut.start_lt_stop _ ((htokens t).1 ht), forward_comments h, pairwise_comments h,
    fun c hc => ?_, fun c hc halone hbefore hline => ?_⟩
  · have heither : (ps.filterMap Lexer.Piece.mark?).Pairwise fun m n => m.range.Before n.range ∨
      n.range.Before m.range :=
      hcut.pairwise.imp .inl
    have : Std.Symm fun m n : Mark => m.range.Before n.range ∨ n.range.Before m.range :=
      ⟨fun _ _ => Or.symm⟩
    exact heither.forall ((htokens t).1 ht) (hmem c hc) nofun
  · rw [(hmarked hc).2 ⟨t, ht, hbefore, hline⟩] at halone
    cases halone

/-- The blocks of a text: its comments in order are cut into runs, and each block is made of its
run. A token lies in a block if and only if it starts behind a comment of the block, other than the
last one, on the line where that comment ends. -/
theorem exists_runs_of_tokenize {text : String} {lexed : Lexed} (h : tokenize text = .ok lexed) :
    ∃ runs : List (List Comment), runs.flatten = lexed.comments ∧
      List.Forall₂ (fun b run => b.MadeOf run ∧
        ∀ t ∈ lexed.tokens, b.range.containsRange t.range = true ↔
          ∃ c ∈ run.dropLast, c.range.Before t.range ∧ t.range.start.line = c.range.stop.line)
        (CommentTable.ofComments lexed.comments).blocks runs := by
  obtain ⟨runs, hflat, hruns⟩ := CommentTable.exists_runs (forward_comments h) (pairwise_comments h)
  refine ⟨runs, hflat, ?_⟩
  rw [forall₂_iff_get] at hruns ⊢
  refine ⟨hruns.1, fun i hi hi' => ⟨hruns.2 i hi hi', fun t ht => ?_⟩⟩
  refine ((among_of_tokenize h ht).of_sublist ?_).containsRange_iff (hruns.2 i hi hi')
  rw [← hflat]
  exact sublist_flatten_of_mem (get_mem runs ⟨i, hi'⟩)

/-- A comment in front of a statement, and one that stands alone below it. -/
def interruptedText : String :=
  "--[[@const]] local x = 1\n-- note\nlocal y = 2\n"

theorem exists_runs_of_tokenize_interruptedText : ∃ lexed, tokenize interruptedText = .ok lexed ∧
    ∃ runs : List (List Comment), runs.flatten = lexed.comments ∧
      List.Forall₂ CommentBlock.MadeOf (CommentTable.ofComments lexed.comments).blocks runs := by
  have hread : ((tokenize interruptedText).map fun _ => ()).toOption = some () := by decide +kernel
  cases h : tokenize interruptedText with
  | error e => rw [h] at hread; cases hread
  | ok lexed =>
    obtain ⟨runs, hflat, hruns⟩ := exists_runs_of_tokenize h
    exact ⟨lexed, rfl, runs, hflat, hruns.imp fun _ _ hb => hb.1⟩

/-- Both comments are one block although a statement stands between them, and the tag of the first
one is taken to be about the statement below. -/
theorem tokens_in_block : ∃ lexed ∈ (tokenize interruptedText).toOption,
    (∃ b ∈ (CommentTable.ofComments lexed.comments).blocks, ∃ t ∈ lexed.tokens,
      b.range.containsRange t.range = true) ∧
      (Annotations.ofComments (.ofComments lexed.comments)).isConstant 2 = true := by
  decide +kernel

end LuaAnalysis
