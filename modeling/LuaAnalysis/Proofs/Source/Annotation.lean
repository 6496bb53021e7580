import LuaAnalysis.Proofs.OrderedMap
import LuaAnalysis.Source.Basic
import LuaAnalysis.Types.Annotation

/-!
# Tags and the block above a line

The block of comments above a line can be asked for in two ways. `CommentTable.headBlockBefore`
takes the last block that ends on the line above, and gives none if code stands before that one. The
table of tags drops the blocks after code and those without tags before it looks at where they end.

Both agree on a line exactly if the last block that ends above it has tags, or no block that ends
there has any (`answers_ofComments_iff`). Otherwise tags reach the line although its block has none,
or although it has no block (`answers_ne_answersAbove`).
-/

namespace LuaAnalysis

open List

/-- What the tags above a line say about the statement on it. -/
structure Answers where
  functionTypes : Option FunctionTypes := none
  declaredType : Option String := none
  constant : Bool := false
  isEnum : Bool := false
deriving DecidableEq, Repr

def Annotation.answers (a : Annotation) : Answers where
  functionTypes := if a.function.isEmpty then none else some a.function
  declaredType := a.declared
  constant := a.constant
  isEnum := a.isEnum

def Annotations.answers (as : Annotations) (line : Nat) : Answers where
  functionTypes := as.functionTypes? line
  declaredType := as.declaredType? line
  constant := as.isConstant line
  isEnum := as.isEnum line

namespace CommentBlock

def tags (b : CommentBlock) : Annotation :=
  .ofLines b.lines

def isTagged (b : CommentBlock) : Bool :=
  b.head && b.tags ≠ {}

def endsAbove (line : Nat) (b : CommentBlock) : Bool :=
  b.range.stop.line + 1 == line

end CommentBlock

def CommentTable.answersAbove (t : CommentTable) (line : Nat) : Answers :=
  ((t.headBlockBefore line).map (·.tags.answers)).getD {}

variable (t : CommentTable) (n : Nat)

/-! ## Answers -/

theorem FunctionTypes.isEmpty_iff {f : FunctionTypes} : f.isEmpty = true ↔ f = {} := by
  obtain ⟨⟨params⟩, returns⟩ := f
  simp [isEmpty, OrderedMap.isEmpty]

theorem Annotation.answers_eq_default_iff {a : Annotation} : a.answers = {} ↔ a = {} := by
  obtain ⟨function, declared, constant, isEnum⟩ := a
  simp [answers, FunctionTypes.isEmpty_iff]

theorem Annotations.answers_eq {as : Annotations} :
    as.answers n = ((as.at? n).map Annotation.answers).getD {} := by
  unfold answers functionTypes? declaredType? isConstant isEnum
  cases as.at? n with
  | none => rfl
  | some a => cases h : a.function.isEmpty <;> simp [h, Annotation.answers]

/-! ## The table of tags -/

theorem Annotations.at?_ofComments :
    (ofComments t).at? n =
      (t.blocks.filter fun b => b.isTagged && b.endsAbove n).getLast?.map (·.tags) := by
  have hfold : ∀ (bs : List CommentBlock) (as : Annotations), (bs.foldl addBlock as).byLine =
      (bs.filter (·.isTagged)).foldl (fun m b => m.insert (b.range.stop.line + 1) b.tags)
      as.byLine := by
    intro bs
    induction bs with
    | nil => exact fun as => rfl
    | cons b bs ih =>
      intro as
      rw [foldl_cons, ih, addBlock]
      by_cases hb : b.isTagged = true
      · rw [filter_cons_of_pos hb, foldl_cons]
        exact congrArg (List.foldl _ · _) (congrArg Annotations.byLine (if_pos hb))
      · rw [filter_cons_of_neg hb]
        exact congrArg (List.foldl _ · _) (congrArg Annotations.byLine (if_neg hb))
  rw [at?, ofComments, hfold, OrderedMap.get?_foldl_insert, filter_filter]
  refine Option.or_none.trans (congrArg (fun p => (t.blocks.filter p).getLast?.map (·.tags)) ?_)
  funext b
  rw [Bool.and_comm]
  rfl

theorem CommentBlock.answers_getLast?_eq_default_iff {bs : List CommentBlock} :
    ((bs.filter (·.isTagged)).getLast?.map (·.tags.answers)).getD {} = {} ↔
    ∀ b ∈ bs, b.isTagged = false := by
  cases hlast : (bs.filter (·.isTagged)).getLast? with
  | none =>
    rw [getLast?_eq_none_iff, filter_eq_nil_iff] at hlast
    simpa using hlast
  | some b =>
    obtain ⟨hb, htagged⟩ := mem_filter.1 (mem_of_getLast? hlast)
    have htags : b.tags ≠ {} := of_decide_eq_true (Bool.and_eq_true_iff.1 htagged).2
    refine iff_of_false (htags <| Annotation.answers_eq_default_iff.1 ·) fun hnone => ?_
    rw [hnone b hb] at htagged
    cases htagged

section Above

variable {t n} {b : CommentBlock} (hlast : (t.blocks.filter (·.endsAbove n)).getLast? = some b)
include hlast

theorem CommentTable.headBlockBefore_eq : t.headBlockBefore n = if b.head then some b else none :=
  congrArg (Option.filter CommentBlock.head) hlast

theorem CommentTable.answersAbove_of_isTagged (h : b.isTagged = true) :
    t.answersAbove n = b.tags.answers := by
  rw [answersAbove, headBlockBefore_eq hlast, if_pos (Bool.and_eq_true_iff.1 h).1]
  rfl

theorem CommentTable.answersAbove_eq_default (h : b.isTagged = false) : t.answersAbove n = {} := by
  rw [answersAbove, headBlockBefore_eq hlast]
  cases hhead : b.head with
  | false => rfl
  | true =>
    have htags : b.tags = {} := by simpa [CommentBlock.isTagged, hhead] using h
    exact Annotation.answers_eq_default_iff.2 htags

end Above

/-- Where the answers of the table of tags come from: from the last block that ends above the line,
stands alone and has tags. These are the answers of the block above the line if and only if the last
block that ends there stands alone and has tags, or no block that ends there does. -/
theorem answers_ofComments_iff :
    (Annotations.ofComments t).answers n =
      ((t.blocks.filter fun b => b.isTagged && b.endsAbove n).getLast?.map
        (·.tags.answers)).getD {} ∧
    ((Annotations.ofComments t).answers n = t.answersAbove n ↔
      ∀ b ∈ (t.blocks.filter (·.endsAbove n)).getLast?, b.isTagged = true ∨
        ∀ a ∈ t.blocks, a.endsAbove n = true → a.isTagged = false) := by
  have hanswers : (Annotations.ofComments t).answers n =
      ((t.blocks.filter fun b => b.isTagged && b.endsAbove n).getLast?.map (·.tags.answers)).getD
      {} := by
    rw [Annotations.answers_eq, Annotations.at?_ofComments, Option.map_map]
    rfl
  refine ⟨hanswers, ?_⟩
  rw [hanswers, ← filter_filter]
  cases hlast : (t.blocks.filter (·.endsAbove n)).getLast? with
  | none =>
    have habove : t.headBlockBefore n = none := congrArg (Option.filter CommentBlock.head) hlast
    rw [getLast?_eq_none_iff.1 hlast, CommentTable.answersAbove, habove]
    exact iff_of_true rfl nofun
  | some b =>
    simp only [Option.mem_def, Option.some.injEq, forall_eq']
    cases htagged : b.isTagged with
    | true =>
      have hsame : ((t.blocks.filter (·.endsAbove n)).filter (·.isTagged)).getLast? = some b := by
        obtain ⟨front, hfront⟩ := getLast?_eq_some_iff.1 hlast
        rw [hfront, filter_append, filter_cons_of_pos htagged, filter_nil, getLast?_concat]
      rw [hsame, CommentTable.answersAbove_of_isTagged hlast htagged]
      exact iff_of_true rfl (.inl rfl)
    | false =>
      rw [CommentTable.answersAbove_eq_default hlast htagged,
        CommentBlock.answers_getLast?_eq_default_iff]
      simp only [mem_filter, and_imp, Bool.false_eq_true, false_or]

/-- Two blocks end above the second line. In the first text the last one has no tags, and in the
second text code stands before it, so that the line has no block at all. The tag of the first one
reaches the line nevertheless. -/
theorem answers_ne_answersAbove :
    (let t := (Source.parse "--[[@const]] --[[ note ]]\nlocal x = 1\n").comments;
      (t.headBlockBefore 1).map (·.tags) = some {} ∧
      (Annotations.ofComments t).isConstant 1 = true) ∧
    (let t := (Source.parse "--[[@const]] local x = 1 -- note\nlocal y = 2\n").comments;
      t.headBlockBefore 1 = none ∧ (Annotations.ofComments t).isConstant 1 = true) := by
  decide +kernel

end LuaAnalysis
