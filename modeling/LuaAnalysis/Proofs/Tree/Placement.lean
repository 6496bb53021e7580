import LuaAnalysis.Proofs.Tree.Layout
import LuaAnalysis.Proofs.Tree.Reader
import LuaAnalysis.Proofs.Tree.Sites

/-!
# Nodes between two places in a stream

What a reader returns stands on the tokens that it took, which lie between the stream that it was
given and the one that it leaves. `Lays` gives the kinds of these tokens, a row of nodes that are
placed on them and the sites of names among them, and `Places` does so for one node that has all of
these tokens. Rows are put together from left to right (`Lays.trans`, `Places.cons`), and a node is
placed once its rows are laid out (`Places.of_rows`). The ranges that the readers compute cover the
first token and the last one; that nothing between them reaches further is where the tokens have to
be in order.
-/

namespace LuaAnalysis

open List

/-! ## Streams -/

variable {k : TokenKind} {n : Nat} {ts : List TokenKind} {e : Exp}

namespace TokenStream

variable {s s₁ s₂ s' : TokenStream} {n : Node} {row row' : List Node} {ts us : List Token}
  {ks ks' : List TokenKind}
  {sites sites' : List Site}

structure Takes (s : TokenStream) (ts : List Token) (s' : TokenStream) : Prop where
  tokens : s.tokens = ts ++ s'.tokens
  stop : s'.stop = s.stop
  last : s'.last = (ts.getLast?.map (·.range)).getD s.last

def InOrder (s : TokenStream) : Prop :=
  Token.InOrder s.tokens s.stop

/-- The tokens between the streams are of the kinds `ks`, the nodes are placed on them one after
another, and the sites are found among them. -/
def Lays (s : TokenStream) (ks : List TokenKind) (row : List Node) (sites : List Site)
    (s' : TokenStream) : Prop :=
  ∃ ts, s.Takes ts s' ∧ ts.map (·.kind) = ks ∧ (s.InOrder → Node.RowPlaced row ts s'.next.start) ∧
    Token.Sited ts sites

/-- The tokens between the streams are of the kinds `ks`, the node is placed on them, and the sites
are found among them. -/
structure Places (s : TokenStream) (ks : List TokenKind) (n : Node) (sites : List Site)
    (s' : TokenStream) : Prop where
  written : n.WrittenBy ks
  placed : ∃ ts, s.Takes ts s' ∧ ts.map (·.kind) = ks ∧ (s.InOrder → n.Placed ts s'.next.start) ∧
    Token.Sited ts sites

theorem next_start : s.next.start = Token.startOf s.tokens s.stop := by
  unfold next Token.startOf
  cases s.tokens <;> rfl

namespace Takes

theorem refl : s.Takes [] s :=
  ⟨rfl, rfl, rfl⟩

theorem trans (h : s.Takes ts s₁) (h' : s₁.Takes us s₂) : s.Takes (ts ++ us) s₂ := by
  refine ⟨by rw [h.tokens, h'.tokens, append_assoc], h'.stop.trans h.stop, ?_⟩
  rw [h'.last, h.last, getLast?_append]
  cases us.getLast? <;> rfl

theorem start_eq (h : s.Takes ts s') : s.next.start = Token.startOf ts s'.next.start := by
  rw [next_start, next_start, h.tokens, Token.startOf_append, h.stop]

theorem stop_eq (h : s.Takes ts s') : s'.last.stop = Token.stopOf ts s.last.stop := by
  rw [h.last]
  generalize s.last = r
  clear h
  induction ts generalizing r with
  | nil => rfl
  | cons t ts ih => rw [getLast?_cons, Token.stopOf, ← ih]; cases ts.getLast? <;> rfl

theorem unique (h : s.Takes ts s') (h' : s.Takes us s') : ts = us :=
  append_cancel_right (h.tokens.symm.trans h'.tokens)

theorem inOrder (h : s.Takes ts s') (hs : s.InOrder) :
    Token.InOrder ts s'.next.start ∧ s'.InOrder := by
  have hs' := hs
  unfold InOrder at hs'
  rwa [h.tokens, Token.inOrder_append, ← h.stop, ← next_start] at hs'

end Takes

theorem takes_skip (h : s.kinds.head? = some k) :
    ∃ t, t.kind = k ∧ t.range = s.next ∧ s.Takes [t] (s.skip 1) := by
  obtain ⟨_ | ⟨t, ts⟩, stop, last⟩ := s
  · cases h
  · exact ⟨t, by simpa [kinds] using h, rfl, rfl, rfl, rfl⟩

/-! ## Rows -/

theorem Lays.kinds_eq (h : s.Lays ks row sites s') : s.kinds = ks ++ s'.kinds := by
  obtain ⟨ts, hts, rfl, -⟩ := h
  simp [kinds, hts.tokens]

theorem lays_refl : s.Lays [] [] [] s :=
  ⟨[], .refl, rfl, fun _ => .nil, .nil⟩

theorem lays_skip (h : s.kinds.head? = some k) : s.Lays [k] [] [] (s.skip 1) := by
  obtain ⟨t, rfl, -, ht⟩ := takes_skip h
  exact ⟨[t], ht, rfl, fun _ => .token .nil, .skip .nil⟩

theorem Lays.trans (h : s.Lays ks row sites s₁) (h' : s₁.Lays ks' row' sites' s₂) :
    s.Lays (ks ++ ks') (row ++ row') (sites ++ sites') s₂ := by
  obtain ⟨ts, hts, rfl, hrow, hsites⟩ := h
  obtain ⟨us, hus, rfl, hrow', hsites'⟩ := h'
  exact ⟨ts ++ us, hts.trans hus, map_append,
    fun hs => .append (hus.start_eq ▸ hrow hs) (hrow' (hts.inOrder hs).2), hsites.append hsites'⟩

/-- Tokens follow that belong to no node and no site. -/
theorem Lays.close (h : s.Lays ks row sites s₁) (h' : s₁.Lays ks' [] [] s₂) :
    s.Lays (ks ++ ks') row sites s₂ := by
  have hrow := h.trans h'
  rwa [append_nil, append_nil] at hrow

theorem Lays.of_sited (h : s.Lays ks row sites s') (h' : s.Lays ks' row' sites' s') :
    s.Lays ks row sites' s' := by
  obtain ⟨ts, hts, hks, hrow, -⟩ := h
  obtain ⟨us, hus, -, -, hsites⟩ := h'
  exact ⟨ts, hts, hks, hrow, hts.unique hus ▸ hsites⟩

/-- Not every name has to be told. -/
theorem Lays.bare (h : s.Lays ks row sites s') : s.Lays ks row [] s' :=
  h.imp fun _ h => ⟨h.1, h.2.1, h.2.2.1, Token.sited_nil⟩

/-- Not every node has to be placed. -/
theorem Lays.sited (h : s.Lays ks row sites s') : s.Lays ks [] sites s' :=
  h.imp fun _ h => ⟨h.1, h.2.1, fun _ => Node.rowPlaced_nil, h.2.2.2⟩

theorem Places.cons (h : s.Places ks n sites s₁) (h' : s₁.Lays ks' row sites' s₂)
    (hne : ks ++ ks' ≠ []) : s.Lays (ks ++ ks') (n :: row) (sites ++ sites') s₂ := by
  obtain ⟨-, ts, hts, rfl, hn, hsites⟩ := h
  obtain ⟨us, hus, rfl, hrow, hsites'⟩ := h'
  refine ⟨ts ++ us, hts.trans hus, map_append, fun hs => ?_, hsites.append hsites'⟩
  exact .part (hus.start_eq ▸ hn hs) (by simpa using hne) (hrow (hts.inOrder hs).2)

end TokenStream

/-! ## Written nodes have tokens -/

theorem Exp.ArgsWritten.ne_nil {args : List Exp} (h : Exp.ArgsWritten n args ts) : ts ≠ [] := by
  cases h <;> simp

theorem Exp.Written.ne_nil (h : e.Written n ts) : ts ≠ [] := by
  cases h with
  | call _ _ hargs => simp [hargs.ne_nil]
  | _ => simp

theorem Stat.Written.ne_nil {s : Stat} (h : s.Written n ts) : ts ≠ [] := by
  cases h with
  | call hexp => exact hexp.ne_nil
  | _ => simp

namespace Node

/-- Every writing of the node has a token: only a block may have none. -/
class inductive HasToken : Node → Prop
  | stat (s : Stat) : HasToken (.stat s)
  | ret (r : ReturnStat) : HasToken (.ret r)
  | body (b : FunctionBody) : HasToken (.body b)
  | path (p : FunctionName) : HasToken (.path p)
  | name (m : Name) : HasToken (.name m)
  | exp (e : Exp) : HasToken (.exp e)

attribute [instance] HasToken.stat HasToken.ret HasToken.body HasToken.path HasToken.name
  HasToken.exp

theorem WrittenBy.ne_nil {n : Node} [hn : n.HasToken] (h : n.WrittenBy ts) : ts ≠ [] := by
  cases hn with
  | stat s => obtain ⟨_, h⟩ := h; exact h.ne_nil
  | ret r =>
    obtain ⟨_, h⟩ := h
    cases h <;> simp
  | body b =>
    obtain ⟨_, _, head, us, rfl, h⟩ := h
    cases h
    simp
  | path p =>
    rw [WrittenBy] at h
    simp [h, FunctionName.tokens, FunctionName.path, Name.tokens, separated]
  | name m => rcases h with rfl | ⟨_, rfl⟩ <;> simp
  | exp e => obtain ⟨_, h⟩ := h; exact h.ne_nil

end Node

/-! ## Nodes and their ranges -/

namespace TokenStream

variable {s s₁ s₂ s' : TokenStream} {m n : Node} {row : List Node} {ts : List Token}
  {ks ks' : List TokenKind}
  {sites sites' : List Site} {r r' : TextRange}

theorem Places.lays (h : s.Places ks n sites s') [n.HasToken] : s.Lays ks [n] sites s' := by
  have hrow := h.cons lays_refl (by simpa using h.written.ne_nil)
  rwa [append_nil, append_nil] at hrow

theorem Places.range_eq (h : s.Places ks n sites s') (hs : s.InOrder) [n.HasToken] :
    n.range = ⟨s.next.start, s'.last.stop⟩ := by
  obtain ⟨hw, ts, hts, rfl, hplaced, -⟩ := h
  have hne : ts ≠ [] := by simpa using hw.ne_nil
  rw [(hplaced hs).range_eq, hts.start_eq, hts.stop_eq, Token.span, Token.stopOf_of_ne_nil hne]

/-- The range begins with the first token between the streams and does not reach beyond the last
one. -/
structure Begins (s : TokenStream) (r : TextRange) (s' : TokenStream) : Prop where
  start : r.start = s.next.start
  stop : r.stop ≤ s'.last.stop

structure Ends (s : TokenStream) (r : TextRange) (s' : TokenStream) : Prop where
  start : s.next.start ≤ r.start
  stop : r.stop = s'.last.stop

theorem Begins.cover (h : s.Begins r s') (h' : s.Ends r' s') :
    r.cover r' = ⟨s.next.start, s'.last.stop⟩ := by
  rw [TextRange.cover_of_le (h.start ▸ h'.start) (h'.stop ▸ h.stop), h.start, h'.stop]

theorem Lays.begins (h : s.Lays ks row sites s') (hne : ks ≠ []) (hs : s.InOrder) :
    s.Begins s.next s' := by
  obtain ⟨_ | ⟨t, ts⟩, hts, rfl, -⟩ := h
  · exact absurd rfl hne
  · obtain ⟨-, hstop, hmore⟩ := (hts.inOrder hs).1
    have hnext : s.next = t.range := by rw [next, hts.tokens]; rfl
    refine ⟨rfl, ?_⟩
    rw [hnext, hts.stop_eq]
    exact hmore.le_stopOf hstop

theorem Lays.ends (h : s.Lays ks row sites s') (hne : ks ≠ []) (hs : s.InOrder) :
    s.Ends s'.last s' := by
  obtain ⟨ts, hts, rfl, -⟩ := h
  obtain ⟨t, ht⟩ := Option.isSome_iff_exists.1 (getLast?_isSome.2 (by simpa using hne))
  refine ⟨?_, rfl⟩
  rw [hts.start_eq, hts.last, ht]
  exact (hts.inOrder hs).1.startOf_le_mem (mem_of_getLast? ht)

theorem Lays.cover (h : s.Lays ks row sites s') (hne : ks ≠ []) (hs : s.InOrder) :
    s.next.cover s'.last = ⟨s.next.start, s'.last.stop⟩ :=
  (h.begins hne hs).cover (h.ends hne hs)

theorem Places.begins (h : s.Places ks n sites s₁) (h' : s₁.Lays ks' row sites' s') (hs : s.InOrder)
    [n.HasToken] : s.Begins n.range s' := by
  have hrange := h.range_eq hs
  obtain ⟨hw, ts, hts, rfl, -⟩ := h
  obtain ⟨us, hus, rfl, -⟩ := h'
  have hne : ts ≠ [] := by simpa using hw.ne_nil
  have hlast : s₁.last.stop ≤ s₁.next.start := by
    rw [hts.stop_eq, Token.stopOf_of_ne_nil hne]
    exact (hts.inOrder hs).1.span_stop_le
  rw [hrange]
  refine ⟨rfl, ?_⟩
  rw [hus.stop_eq]
  exact (hus.inOrder (hts.inOrder hs).2).1.le_stopOf (hus.start_eq ▸ hlast)

theorem Places.ends (h : s₁.Places ks n sites s') (h' : s.Lays ks' row sites' s₁) (hs : s.InOrder)
    [n.HasToken] : s.Ends n.range s' := by
  obtain ⟨ts, hts, -⟩ := h'
  rw [h.range_eq (hts.inOrder hs).2]
  refine ⟨?_, rfl⟩
  rw [hts.start_eq]
  exact (hts.inOrder hs).1.startOf_le

theorem Places.of_rows (hsites : s.Lays ks row sites s') (hw : n.WrittenBy ks)
    (hrange : s.InOrder → n.range = ⟨s.next.start, s'.last.stop⟩)
    (hrows : ∀ row ∈ n.rows, ∃ told, s.Lays ks row told s') [n.HasToken] :
    s.Places ks n sites s' := by
  obtain ⟨ts, hts, rfl, -, hsites⟩ := hsites
  have hne : ts ≠ [] := by simpa using hw.ne_nil
  refine ⟨hw, ts, hts, rfl, fun hs => .mk hw ?_ fun row hrow => ?_, hsites⟩
  · rw [hrange hs, hts.start_eq, hts.stop_eq, Token.span, Token.stopOf_of_ne_nil hne]
  · obtain ⟨_, us, hus, -, hplaced, -⟩ := hrows row hrow
    rw [hts.unique hus]
    exact hplaced hs

theorem Places.of_row (hrow : s.Lays ks row sites s') (hrows : n.rows = [row]) (hw : n.WrittenBy ks)
    (hrange : s.InOrder → n.range = ⟨s.next.start, s'.last.stop⟩) [n.HasToken] :
    s.Places ks n sites s' :=
  .of_rows hrow hw hrange (hrows ▸ forall_mem_singleton.2 ⟨sites, hrow⟩)

theorem places_exp {k : Nat} (hw : e.Written k ks) (hparts : s.Lays ks e.parts sites s')
    (hsites : e.sites = sites) (hrange : s.InOrder → e.range = ⟨s.next.start, s'.last.stop⟩) :
    s.Places ks (.exp e) e.sites s' :=
  hsites ▸ .of_row hparts rfl ⟨k, hw⟩ hrange

theorem range_of_skip (h : s.kinds.head? = some k) :
    s.next = ⟨s.next.start, (s.skip 1).last.stop⟩ := by
  obtain ⟨t, -, ht, htakes⟩ := takes_skip h
  rw [htakes.last]
  simp [ht]

theorem sited_name {text : String} (h : s.kinds.head? = some (.name text)) :
    s.Lays [.name text] [] [.name s.next] (s.skip 1) := by
  obtain ⟨t, hkind, ht, htakes⟩ := takes_skip h
  exact ⟨[t], htakes, by simp [hkind], fun _ => .token .nil, ht ▸ .name hkind .nil⟩

theorem sited_string {text : String} (h : s.kinds.head? = some (.string text)) :
    s.Lays [.string text] [] [.text s.next] (s.skip 1) := by
  obtain ⟨t, hkind, ht, htakes⟩ := takes_skip h
  exact ⟨[t], htakes, by simp [hkind], fun _ => .token .nil, ht ▸ .text hkind .nil⟩

/-- An expression of one token. -/
theorem places_literal {n : Nat} (h : s.kinds.head? = some k) (hw : e.Written n [k])
    (hsites : s.Lays [k] [] e.sites (s.skip 1)) (hparts : e.parts = [])
    (hrange : e.range = s.next) : s.Places [k] (.exp e) e.sites (s.skip 1) :=
  places_exp hw (hparts ▸ hsites) rfl fun _ => hrange.trans (range_of_skip h)

end TokenStream

end LuaAnalysis
