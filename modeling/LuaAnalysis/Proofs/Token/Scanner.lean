import LuaAnalysis.Proofs.Token.Lossless

/-!
# A scanner with counters

A scanner goes over a text once. It counts the bytes that it has read and the lines, and keeps where
the current line starts and whether a token has started there: a line end takes that flag back. The
positions of all tokens and comments, and the marks of the comments, are those that such a scanner
finds (`Scanner.scans_of_tokenize`).
-/

namespace LuaAnalysis

open Lexer

variable {p q : Position} {code : Bool} {cs pre post : List Char} {ps : List Lexer.Piece}

/-- Where a scanner is: how many bytes it has read, the line, where that line starts, and whether a
token has started on it. -/
structure Scanner where
  pos : Nat := 0
  line : Nat := 0
  lineStart : Nat := 0
  code : Bool := false

namespace Scanner

variable {c : Scanner} {x : Char}

def position (c : Scanner) : Position :=
  ⟨c.line, c.pos - c.lineStart⟩

def advance (c : Scanner) (n : Nat) : Scanner :=
  { c with pos := c.pos + n }

/-- A line end of `n` bytes takes the flag back. -/
def newline (c : Scanner) (n : Nat) : Scanner where
  pos := c.pos + n
  line := c.line + 1
  lineStart := c.pos + n

/-- Two different characters that end a line are one line end if they stand side by side. -/
def read (c : Scanner) : List Char → Scanner
  | [] => c
  | [x] => if Glyph.isLineEnd x then c.newline 1 else c.advance x.utf8Size
  | x :: y :: cs =>
    if Glyph.joins x y then (c.newline 2).read cs
    else if Glyph.isLineEnd x then (c.newline 1).read (y :: cs)
    else (c.advance x.utf8Size).read (y :: cs)

/-- The start of a token sets the flag. -/
def start (c : Scanner) (pc : Piece) : Scanner :=
  { c with code := c.code || pc.token?.isSome }

theorem read_char (hx : Glyph.isLineEnd x = false) :
    c.read (x :: cs) = (c.advance x.utf8Size).read cs := by
  cases cs with
  | nil => simp [read, hx]
  | cons y cs =>
    have hjoin : Glyph.joins x y = false := by
      rw [Glyph.joins, hx, Bool.false_and, Bool.false_and]
    simp [read, hx, hjoin]

theorem read_line (hx : Glyph.isLineEnd x = true)
    (hnext : ∀ y ∈ (cs ++ post).head?, Glyph.joins x y = false) :
    c.read (x :: cs) = (c.newline 1).read cs := by
  cases cs with
  | nil => simp [read, hx]
  | cons y cs => simp [read, hx, hnext y rfl]

theorem position_newline {n : Nat} (hp : c.position = p) : (c.newline n).position = p.nextLine := by
  subst hp
  simp [newline, position, Position.nextLine]

theorem code_newline {n : Nat} (h : Glyph.Leads p.nextLine pre post q) {line : Nat} :
    ((c.newline n).code && p.nextLine.line == line) = (c.code && p.line == q.line) := by
  have hle := h.le
  simp only [Position.le_iff, Position.nextLine] at hle
  have hne : (p.line == q.line) = false := by
    rw [beq_eq_false_iff_ne]
    omega
  rw [hne, Bool.and_false]
  rfl

theorem length_lineEnd (hx : Glyph.isLineEnd x = true) : (String.utf8EncodeChar x).length = 1 := by
  rcases Bool.or_eq_true_iff.1 hx with hx | hx <;> rw [beq_iff_eq.1 hx] <;> decide

/-- The counters of a scanner say at every place which position the place has and how many bytes
stand before it, and the flag is kept up to the end of the line. -/
theorem read_of_leads (h : Glyph.Leads p pre post q) (hc : c.lineStart ≤ c.pos)
    (hp : c.position = p) :
    (c.read pre).lineStart ≤ (c.read pre).pos ∧ (c.read pre).position = q ∧
      (c.read pre).pos = c.pos + (Utf8.encode pre).length ∧
      (c.read pre).code = (c.code && p.line == q.line) := by
  induction h generalizing c with
  | nil p post => simp [read, hc, hp, Utf8.encode]
  | @char p q x pre post hx _ ih =>
    have hright : (c.advance x.utf8Size).position = p.right x.utf8Size := by
      subst hp
      simp only [advance, position, Position.right, Position.mk.injEq, true_and]
      omega
    obtain ⟨hstart, hposition, hpos, hcode⟩ := ih (Nat.le_add_right_of_le hc) hright
    rw [read_char hx]
    refine ⟨hstart, hposition, ?_, hcode⟩
    rw [hpos, Utf8.encode_cons, List.length_append, String.length_utf8EncodeChar]
    exact Nat.add_assoc _ _ _
  | @pair p q x y pre post hjoin h ih =>
    obtain ⟨hx, hy⟩ : Glyph.isLineEnd x = true ∧ Glyph.isLineEnd y = true := by
      simp only [Glyph.joins, Bool.and_eq_true] at hjoin
      exact hjoin.1
    obtain ⟨hstart, hposition, hpos, hcode⟩ :=
      ih (c := c.newline 2) (Nat.le_refl _) (position_newline hp)
    rw [read, if_pos hjoin]
    refine ⟨hstart, hposition, ?_, hcode.trans (code_newline h)⟩
    rw [hpos, Utf8.encode_cons, Utf8.encode_cons, List.length_append, List.length_append,
      length_lineEnd hx, length_lineEnd hy]
    simp only [newline]
    omega
  | @line p q x pre post hx hnext h ih =>
    obtain ⟨hstart, hposition, hpos, hcode⟩ :=
      ih (c := c.newline 1) (Nat.le_refl _) (position_newline hp)
    rw [read_line hx hnext]
    refine ⟨hstart, hposition, ?_, hcode.trans (code_newline h)⟩
    rw [hpos, Utf8.encode_cons, List.length_append, length_lineEnd hx]
    exact Nat.add_assoc _ _ _

/-! ## Whole texts -/

/-- The pieces of a text as a scanner finds them, from place to place: it sets the flag where a
token starts, and marks a comment with the flag that it has there. -/
inductive Scans : Scanner → List Char → List Piece → Prop
  | nil (c : Scanner) : Scans c [] []
  | cons {c : Scanner} {pre post : List Char} {pc : Piece} {ps : List Piece}
      (hrange : ∀ m ∈ pc.mark?, m.range = ⟨c.position, ((c.start pc).read pre).position⟩)
      (hflag : ∀ x, pc = .comment x → x.trailing = c.code)
      (rest : Scans ((c.start pc).read pre) post ps) : Scans c (pre ++ post) (pc :: ps)

theorem scans_of_cut (h : Cut p code cs ps) (hc : c.lineStart ≤ c.pos) (hp : c.position = p)
    (hcode : c.code = code) : Scans c cs ps := by
  induction h generalizing c with
  | nil => exact .nil c
  | @cons p q code pre post pc ps _ hleads hpiece hflag _ ih =>
    obtain ⟨hstart, hposition, -, hnext⟩ := read_of_leads (c := c.start pc) hleads hc hp
    refine .cons ?_ (hcode ▸ hflag) (ih hstart hposition ?_)
    · rw [hposition, hp]
      exact hpiece.range
    · rw [hnext, start, hcode]

/-- The tokens and comments of a text are those that a scanner finds behind the first line if that
starts with a hash sign, and at the start of the text otherwise. -/
theorem scans_of_tokenize {text : String} {lexed : Lexed} (h : tokenize text = .ok lexed) :
    ∃ pre cs ps, text.toList = pre ++ cs ∧ (pre = [] ∨ pre.head? = some '#') ∧
      Scans (({} : Scanner).read pre) cs ps ∧ lexed.tokens = ps.filterMap Piece.token? ∧
      lexed.comments = ps.filterMap Piece.comment? := by
  obtain ⟨pre, cs, q, ps, htext, hpre, hhash, hcut, rfl⟩ := cut_of_tokenize h
  obtain ⟨hstart, hposition, -, hcode⟩ := read_of_leads (c := {}) hpre (Nat.le_refl _) rfl
  exact ⟨pre, cs, ps, htext, hhash.imp_right And.left,
    scans_of_cut hcut hstart hposition hcode, rfl, rfl⟩

end Scanner

end LuaAnalysis
