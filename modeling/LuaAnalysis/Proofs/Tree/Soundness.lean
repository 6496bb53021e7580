import LuaAnalysis.Proofs.Tree.Placement
import Mathlib.Data.List.Forall2

/-!
# What is read is written by its tokens and placed on them

Each reader takes tokens that write what it returns, and what it returns is laid out on them
(`Reads`). A level is sound when its two readers are, and the level above a sound one is sound
again, so all levels are. Only the loop for operators has to look at what follows: an operator is
left alone when it binds no more strongly than the limit, and then it also binds no more strongly
than anything on the right edge of what was read (`Delimited`), which is what the priorities ask of
a left operand.
-/

namespace LuaAnalysis.Parser

open List TokenStream

variable {below : Level} {n : Nat} {s s₀ s₁ s₂ s' : TokenStream} {ks : List TokenKind}
  {kss : List (List TokenKind)}
variable {u : Unit} {rounds : Nat} {e : Exp}
variable {isMethod : Bool} {limit : Nat} {kind : TokenKind} {separator : Symbol}

/-- Whatever the reader returns is written by the tokens it took and laid out on them as a row. -/
def Reads (p : Parser α) (W : α → List TokenKind → Prop) (row : α → List Node)
    (sites : α → List Site) : Prop :=
  ∀ ⦃s a s'⦄, p.run s = .ok (a, s') → ∃ ks, s.Lays ks (row a) (sites a) s' ∧ W a ks

/-- Readers of the next level take trees up to `n` high with the tokens that write them. -/
structure Level.Sound (below : Level) (n : Nat) : Prop where
  exp : ∀ ⦃limit s e s'⦄, (below.exp limit).run s = .ok (e, s') →
    ∃ ks, s.Places ks (.exp e) e.sites s' ∧ e.Written n ks ∧ Delimited limit e s'.kinds
  stat : Reads below.stat (Stat.Written n) (fun st => [.stat st]) Stat.sites

theorem Level.Sound.anyExp (hb : below.Sound n) :
    Reads below.anyExp (Exp.Written n) (fun e => [.exp e]) Exp.sites := by
  intro s e s' h
  obtain ⟨ks, he, hw, -⟩ := hb.exp h
  exact ⟨ks, he.lays, hw⟩

/-! ## Tokens and lists -/

theorem lays_of_expect (h : (expect kind : Parser Unit).run s = .ok (u, s')) :
    s.Lays [kind] [] [] s' := by
  obtain ⟨hhead, rfl⟩ := run_expect_eq_ok.1 h
  exact lays_skip hhead

theorem lays_of_expectClose {opener : String} {opened : Position}
    (h : (expectClose kind opener opened : Parser Unit).run s = .ok (u, s')) :
    s.Lays [kind] [] [] s' := by
  obtain ⟨hhead, rfl⟩ := run_expectClose_eq_ok.1 h
  exact lays_skip hhead

theorem places_name {m : Name} (h : (name : Parser Name).run s = .ok (m, s')) :
    s.Places [m.token] (.name m) [m.site] s' := by
  obtain ⟨hhead, hrange, rfl⟩ := run_name_eq_ok.1 h
  have hlays : s.Lays [m.token] [] [.name m.range] (s.skip 1) := hrange ▸ sited_name hhead
  exact .of_rows hlays (.inl rfl) (fun _ => hrange.trans (range_of_skip hhead))
    (by simp [Node.rows])

theorem reads_name :
    Reads name (fun m ks => ks = [m.token]) (fun m => [.name m]) (fun m => [m.site]) :=
  fun _ _ _ h => ⟨_, (places_name h).lays, rfl⟩

section

variable {item : Parser α} {W : α → List TokenKind → Prop} {row : α → List Node}
  {sites : α → List Site}
  (hitem : Reads item W row sites) (separator : Symbol)
include hitem

theorem reads_moreItems : Reads (moreItems separator item rounds)
      (fun xs ks => ∃ kss, List.Forall₂ W xs kss ∧ ks = kss.flatMap (.symbol separator :: ·))
      (·.flatMap row) (·.flatMap sites) := by
  induction rounds with
  | zero =>
    intro s xs s' h
    obtain ⟨rfl, rfl⟩ := run_pure_eq_ok.1 h
    exact ⟨[], lays_refl, [], .nil, rfl⟩
  | succ rounds ih =>
    intro s xs s' h
    simp only [moreItems, eatSymbol, run_eat_bind, Bool.false_eq_true, if_true, if_false] at h
    split at h
    · rename_i hsep
      simp only [run_bind_eq_ok, run_pure_eq_ok] at h
      obtain ⟨x, s₁, hx, more, s₂, hmore, rfl, rfl⟩ := h
      obtain ⟨ks, hx, hw⟩ := hitem hx
      obtain ⟨_, hmore, kss, hws, rfl⟩ := ih hmore
      exact ⟨_, (lays_skip hsep).trans (hx.trans hmore), ks :: kss, .cons hw hws, rfl⟩
    · obtain ⟨rfl, rfl⟩ := run_pure_eq_ok.1 h
      exact ⟨[], lays_refl, [], .nil, rfl⟩

/-- Items with separators between them. -/
theorem reads_items : Reads (items separator item)
      (fun xs ks => xs ≠ [] ∧ ∃ kss, List.Forall₂ W xs kss ∧ ks = separated separator kss)
      (·.flatMap row) (·.flatMap sites) := by
  intro s xs s' h
  simp only [items, run_bind_eq_ok, run_remaining_bind, run_pure_eq_ok] at h
  obtain ⟨x, s₁, hx, more, s₂, hmore, rfl, rfl⟩ := h
  obtain ⟨ks, hx, hw⟩ := hitem hx
  obtain ⟨_, hmore, kss, hws, rfl⟩ := reads_moreItems hitem separator hmore
  exact ⟨_, hx.trans hmore, cons_ne_nil _ _, ks :: kss, .cons hw hws, rfl⟩

end

theorem eq_map_of_forall₂ {f : α → List TokenKind} {xs : List α}
    (h : List.Forall₂ (fun x ks => ks = f x) xs kss) : kss = xs.map f := by
  induction h with
  | nil => rfl
  | cons hx _ ih => rw [hx, ih]; rfl

theorem reads_moreNames : Reads (moreItems separator name rounds)
      (fun names ks => ks = (names.map ([·.token])).flatMap (.symbol separator :: ·)) (·.map .name)
        (·.map Name.site) := by
  intro s names s' h
  obtain ⟨_, hlays, _, hws, rfl⟩ := reads_moreItems reads_name separator h
  obtain rfl := eq_map_of_forall₂ hws
  refine ⟨_, ?_, rfl⟩
  simp only [map_eq_flatMap] at hlays ⊢
  exact hlays

theorem listWritten_separated {es : List Exp} (he : e.Written n ks)
    (hes : List.Forall₂ (Exp.Written n) es kss) :
    Exp.ListWritten n (e :: es) (separated .comma (ks :: kss)) := by
  induction hes generalizing e ks with
  | nil => simpa [separated] using Exp.ListWritten.one he
  | cons he' _ ih => exact .more he (ih he')

theorem reads_expList (hb : below.Sound n) :
    Reads below.expList (Exp.ListWritten n) (·.map .exp) Exp.listSites := by
  intro s es s' h
  obtain ⟨_, hlays, hne, kss, hws, rfl⟩ := reads_items hb.anyExp .comma h
  simp only [map_eq_flatMap, Exp.listSites_eq]
  cases hws with
  | nil => exact (hne rfl).elim
  | cons he hes => exact ⟨_, hlays, listWritten_separated he hes⟩

/-! ## Tables and arguments -/

theorem reads_field (hb : below.Sound n) :
    Reads (field below) (Field.Written n) Field.parts Field.sites := by
  intro s f s' h
  simp only [field, run_peek_bind, run_peekSecond_bind] at h
  split at h
  · rename_i text hname hassign
    simp only [run_bind_eq_ok, run_advance_bind, run_pure_eq_ok] at h
    obtain ⟨key, s₁, hkey, value, s₂, hvalue, rfl, rfl⟩ := h
    obtain ⟨ks, hvalue, hw⟩ := hb.anyExp hvalue
    have hnext : s₁.kinds.head? = some (.symbol .assign) := by
      rw [kinds_of_name hkey] at hassign
      simpa [head?_eq_getElem?] using hassign
    exact ⟨_, (places_name hkey).lays.bare.trans ((lays_skip hnext).trans hvalue), .named hw⟩
  · rename_i hbracket
    simp only [run_advance_bind, expectSymbol, run_bind_eq_ok, run_pure_eq_ok] at h
    obtain ⟨key, s₁, hkey, _, s₂, hclose, _, s₃, hassign, value, s₄, hvalue, rfl, rfl⟩ := h
    obtain ⟨ks, hkey, hw⟩ := hb.anyExp hkey
    obtain ⟨us, hvalue, hw'⟩ := hb.anyExp hvalue
    have hassign' := (lays_of_expect hclose).trans ((lays_of_expect hassign).trans hvalue)
    exact ⟨_, (lays_skip hbracket).trans (hkey.trans hassign'), .keyed hw hw'⟩
  · simp only [run_bind_eq_ok, run_pure_eq_ok] at h
    obtain ⟨value, s₁, hvalue, rfl, rfl⟩ := h
    obtain ⟨ks, hvalue, hw⟩ := hb.anyExp hvalue
    exact ⟨ks, hvalue, .positional hw⟩

theorem reads_fields (hb : below.Sound n) :
    Reads (fields below rounds) (Field.ListWritten n) (·.flatMap Field.parts)
      (·.flatMap Field.sites) := by
  induction rounds with
  | zero =>
    intro s fs s' h
    obtain ⟨rfl, rfl⟩ := run_pure_eq_ok.1 h
    exact ⟨[], lays_refl, .none⟩
  | succ rounds ih =>
    intro s fs s' h
    simp only [fields, run_peek_bind, eatSymbol] at h
    split at h
    · obtain ⟨rfl, rfl⟩ := run_pure_eq_ok.1 h
      exact ⟨[], lays_refl, .none⟩
    · rw [run_bind_eq_ok] at h
      obtain ⟨f, s₁, hf, h⟩ := h
      obtain ⟨ks, hf, hw⟩ := reads_field hb hf
      -- What follows a separator, be it a comma or a semicolon.
      have hmore : ∀ {separator : Symbol}, s₁.kinds.head? = some (.symbol separator) →
          (separator = .comma ∨ separator = .semi) →
          ((fields below rounds) >>= fun more => pure (f :: more)).run (s₁.skip 1) = .ok (fs, s') →
          ∃ ks, s.Lays ks (fs.flatMap Field.parts) (fs.flatMap Field.sites) s' ∧
          Field.ListWritten n fs ks := by
        intro separator hsep hor h
        simp only [run_bind_eq_ok, run_pure_eq_ok] at h
        obtain ⟨more, s₂, hmore, rfl, rfl⟩ := h
        obtain ⟨us, hmore, hws⟩ := ih hmore
        exact ⟨_, hf.trans ((lays_skip hsep).trans hmore), .more hw hor hws⟩
      simp only [run_eat_bind, Bool.false_eq_true, if_true, if_false] at h
      split at h
      · rename_i hsep
        exact hmore hsep (.inl rfl) h
      · split at h
        · rename_i hsep
          exact hmore hsep (.inr rfl) h
        · obtain ⟨rfl, rfl⟩ := run_pure_eq_ok.1 h
          exact ⟨ks, by simpa using hf, .last hw⟩

theorem reads_table (hb : below.Sound n) (h : (table below).run s = .ok (e, s')) :
    ∃ r fs ks, e = .table r fs ∧ Field.ListWritten n fs ks ∧
      s.Places (.symbol .lbrace :: ks ++ [.symbol .rbrace]) (.exp e) e.sites s' := by
  simp only [table, run_here_bind, expectSymbol, run_bind_eq_ok, run_remaining_bind, run_last_bind,
    run_pure_eq_ok] at h
  obtain ⟨_, s₁, hopen, fs, s₂, hfs, _, s₃, hclose, rfl, rfl⟩ := h
  obtain ⟨ks, hfs, hw⟩ := reads_fields hb hfs
  have hparts := (lays_of_expect hopen).trans (hfs.close (lays_of_expectClose hclose))
  exact ⟨_, fs, ks, rfl, hw,
    places_exp (.table hw) hparts Field.listSites_eq (hparts.cover (cons_ne_nil _ _))⟩

theorem reads_arguments (hb : below.Sound n) :
    Reads (arguments below) (Exp.ArgsWritten n) (·.map .exp) Exp.listSites := by
  intro s args s' h
  simp only [arguments, run_here_bind, run_peek_bind] at h
  split at h
  · rename_i text htext
    simp only [run_advance_bind, run_pure_eq_ok] at h
    obtain ⟨rfl, rfl⟩ := h
    rw [Exp.listSites_eq, flatMap_singleton]
    have hstring : Exp.Written 1 (.string s.next text) [.string text] := .string
    exact ⟨_, (places_literal htext hstring (sited_string htext) rfl rfl).lays, .string⟩
  · simp only [run_bind_eq_ok, run_pure_eq_ok] at h
    obtain ⟨e, s₁, he, rfl, rfl⟩ := h
    obtain ⟨r, fs, ks, rfl, hw, he⟩ := reads_table hb he
    rw [Exp.listSites_eq, flatMap_singleton]
    exact ⟨_, he.lays, .table hw⟩
  · rename_i hopen
    simp only [run_advance_bind, run_peek_bind] at h
    split at h
    · simp only [run_bind_eq_ok, run_pure_eq_ok] at h
      obtain ⟨_, _, ⟨rfl, rfl⟩, _, s₂, hclose, rfl, rfl⟩ := h
      exact ⟨_, (lays_skip hopen).trans (lays_of_expectClose hclose), .none⟩
    · simp only [run_bind_eq_ok, run_pure_eq_ok] at h
      obtain ⟨es, s₁, hes, _, s₂, hclose, rfl, rfl⟩ := h
      obtain ⟨ks, hes, hw⟩ := reads_expList hb hes
      exact ⟨_, (lays_skip hopen).trans (hes.close (lays_of_expectClose hclose)), .list hw⟩
  · exact (run_fail_ne_ok h).elim

/-! ## Blocks -/

theorem run_blockEnds {b : Bool} (h : (blockEnds : Parser Bool).run s = .ok (b, s')) : s = s' := by
  simp only [blockEnds, run_peek_bind] at h
  split at h <;> exact (run_pure_eq_ok.1 h).2

theorem reads_returnStat (hb : below.Sound n) {ret : ReturnStat}
    (hreturn : s.kinds.head? = some (.keyword .kReturn)) (h : (returnStat below).run s =
      .ok (ret, s')) : ∃ ks, s.Lays ks [.ret ret] ret.sites s' ∧ ret.Written n ks := by
  simp only [returnStat, run_here_bind, run_advance_bind] at h
  rw [run_bind_eq_ok] at h
  obtain ⟨ends, s₁, hends, h⟩ := h
  obtain rfl := run_blockEnds hends
  -- The values are laid out behind the keyword, and a semicolon may follow them.
  have hfinish : ∀ {values : List Exp} {ks : List TokenKind} {s₂ : TokenStream},
      (s.skip 1).Lays ks (values.map .exp) (Exp.listSites values) s₂ →
      (∀ r (semicolon : Bool), ReturnStat.Written n ⟨r, values⟩
        (.keyword .kReturn :: ks ++ if semicolon then [.symbol .semi] else [])) →
      (eatSymbol .semi >>= fun _ => last >>= fun r =>
        pure ⟨s.next.cover r, values⟩ : Parser ReturnStat).run s₂ =
        .ok (ret, s') → ∃ ks, s.Lays ks [.ret ret] ret.sites s' ∧ ret.Written n ks := by
    intro values ks s₂ hvalues hw h
    simp only [eatSymbol, run_eat_bind, run_last_bind] at h
    have hplaces :
      ∀ (semicolon : Bool) {s₃}, s₂.Lays (if semicolon then [.symbol .semi] else []) [] [] s₃ →
        (pure ⟨s.next.cover s₃.last, values⟩ : Parser ReturnStat).run s₃ = .ok (ret, s') →
        ∃ ks, s.Lays ks [.ret ret] ret.sites s' ∧ ret.Written n ks := by
      intro semicolon s₃ hsemi h
      obtain ⟨rfl, rfl⟩ := run_pure_eq_ok.1 h
      have hrow := ((lays_skip hreturn).trans hvalues).close hsemi
      have hret : s.Places _ (.ret ⟨s.next.cover s₃.last, values⟩) _ s₃ :=
        .of_row hrow rfl ⟨n, hw _ semicolon⟩ (hrow.cover (cons_ne_nil _ _))
      exact ⟨_, hret.lays, hw _ semicolon⟩
    split at h
    · rename_i hsemi
      exact hplaces true (lays_skip hsemi) h
    · exact hplaces false lays_refl h
  simp only [run_peek_bind] at h
  split at h
  all_goals
    rw [run_bind_eq_ok] at h
    obtain ⟨values, s₂, hvalues, h⟩ := h
  · obtain ⟨rfl, rfl⟩ := run_pure_eq_ok.1 hvalues
    exact hfinish lays_refl (fun _ => .bare) h
  · obtain ⟨ks, hvalues, hw⟩ := reads_expList hb hvalues
    exact hfinish hvalues (fun _ semicolon => .values semicolon hw) h

/-- The nodes of a block's statements and of its return. -/
def statementNodes (x : List Stat × Option ReturnStat) : List Node :=
  x.1.map .stat ++ x.2.toList.map .ret

def statementSites (x : List Stat × Option ReturnStat) : List Site :=
  Stat.listSites x.1 ++ ReturnStat.sites? x.2

theorem reads_statements (hb : below.Sound n) :
    Reads (statements below rounds)
      (fun x ks => Stat.ListWritten n x.1 x.2 ks) statementNodes statementSites := by
  induction rounds with
  | zero =>
    intro s x s' h
    obtain ⟨rfl, rfl⟩ := run_pure_eq_ok.1 h
    exact ⟨[], lays_refl, .done⟩
  | succ rounds ih =>
    intro s x s' h
    simp only [statements] at h
    rw [run_bind_eq_ok] at h
    obtain ⟨ends, s₁, hends, h⟩ := h
    obtain rfl := run_blockEnds hends
    split at h
    · obtain ⟨rfl, rfl⟩ := run_pure_eq_ok.1 h
      exact ⟨[], lays_refl, .done⟩
    · simp only [run_peek_bind] at h
      split at h
      · rename_i hreturn
        simp only [run_bind_eq_ok, run_pure_eq_ok] at h
        obtain ⟨ret, s₁, hret, rfl, rfl⟩ := h
        obtain ⟨ks, hret, hw⟩ := reads_returnStat hb (eq_of_beq hreturn) hret
        exact ⟨ks, hret, .ret hw⟩
      · simp only [run_bind_eq_ok] at h
        obtain ⟨stat, s₁, hstat, ⟨stats, ret⟩, s₂, hstats, h⟩ := h
        obtain ⟨rfl, rfl⟩ := run_pure_eq_ok.1 h
        obtain ⟨ks, hstat, hw⟩ := hb.stat hstat
        obtain ⟨us, hstats, hws⟩ := ih hstats
        refine ⟨_, ?_, .stat hw hws⟩
        simpa [statementNodes, statementSites, Stat.listSites] using hstat.trans hstats

theorem max_of_le {p q : Position} (h : q ≤ p) : max p q = p := by
  show (if p ≤ q then q else p) = p
  split
  · rename_i hpq
    exact Position.le_antisymm h hpq
  · rfl

/-- A block ends where its last statement ends. -/
theorem blockStop_eq {stats : List Stat} {ret : Option ReturnStat} {ts : List Token}
    (hs : s.InOrder) (hts : s.Takes ts s') (hw : Stat.ListWritten n stats ret (ts.map (·.kind)))
    (hrow : Node.RowPlaced (statementNodes (stats, ret)) ts s'.next.start) :
    blockStop s.next.start s'.last stats ret = Token.stopOf ts s'.next.start := by
  unfold blockStop
  split
  · rename_i hempty
    simp only [Bool.and_eq_true, List.isEmpty_iff, Option.isNone_iff_eq_none] at hempty
    obtain ⟨rfl, rfl⟩ := hempty
    generalize hkinds : ts.map (·.kind) = ks at hw
    cases hw
    obtain rfl := List.map_eq_nil_iff.1 hkinds
    exact hts.start_eq
  · rename_i hsome
    have hne : ts ≠ [] := by
      apply hrow.ne_nil
      intro hnil
      apply hsome
      cases stats <;> cases ret <;> simp_all [statementNodes]
    have hstart := (hts.inOrder hs).1.span_start_le
    rw [Token.span, ← hts.start_eq, Token.stopOf_of_ne_nil hne, ← hts.stop_eq] at hstart
    rw [max_of_le hstart, hts.stop_eq, Token.stopOf_of_ne_nil hne]

theorem reads_block (hb : below.Sound n) {b : Block} (h : (block below).run s = .ok (b, s')) :
    ∃ ks, s.Places ks (.block b) b.sites s' ∧ b.Written n ks := by
  simp only [block, run_here_bind, run_remaining_bind, run_bind_eq_ok, run_last_bind,
    run_pure_eq_ok] at h
  obtain ⟨⟨stats, ret⟩, s₁, hstats, rfl, rfl⟩ := h
  obtain ⟨_, ⟨ts, hts, rfl, hrow, hsites⟩, hw⟩ := reads_statements hb hstats
  refine ⟨_, ⟨⟨n, .mk hw⟩, ts, hts, rfl,
    fun hs => .mk ⟨n, .mk hw⟩ ?_ (forall_mem_singleton.2 (hrow hs)), hsites⟩, .mk hw⟩
  show TextRange.mk _ _ = Token.span ts _
  rw [blockStop_eq hs hts hw (hrow hs), hts.start_eq, Token.span]

theorem reads_closed (hb : below.Sound n) {b : Block} {k : TokenKind}
    (h : (block below).run s = .ok (b, s₁)) (hclose : s₁.Lays [k] [] [] s') :
    ∃ ks, s.Lays (ks ++ [k]) [.block b] b.sites s' ∧ b.Written n ks := by
  obtain ⟨ks, hblock, hw⟩ := reads_block hb h
  have hrow := hblock.cons hclose (by simp)
  rw [append_nil] at hrow
  exact ⟨ks, hrow, hw⟩

/-! ## Functions -/

theorem flatMap_separator (h : kss ≠ []) :
    kss.flatMap (.symbol separator :: ·) = .symbol separator :: separated separator kss := by
  cases kss with
  | nil => exact (h rfl).elim
  | cons ks kss => rfl

theorem reads_parameters {params : List Name} {isVararg : Bool} (hrounds : s.kinds.length < rounds)
    (h : (parameters rounds : Parser _).run s = .ok ((params, isVararg), s')) :
    s.Lays (parameterTokens params isVararg) (params.map .name) (params.map Name.site) s' ∧
      (params ≠ [] ∨ isVararg = true) := by
  induction rounds generalizing s params isVararg with
  | zero => omega
  | succ rounds ih =>
    simp only [parameters, eatSymbol, run_eat_bind, Bool.false_eq_true, if_true, if_false] at h
    split at h
    · rename_i hdots
      simp only [run_pure_eq_ok, Prod.mk.injEq] at h
      obtain ⟨⟨rfl, rfl⟩, rfl⟩ := h
      exact ⟨lays_skip hdots, .inr rfl⟩
    · rw [run_bind_eq_ok] at h
      obtain ⟨p, s₁, hp, h⟩ := h
      have hfirst := (places_name hp).lays
      simp only [run_eat_bind, Bool.false_eq_true, if_true, if_false] at h
      split at h
      · rename_i hcomma
        rw [run_bind_eq_ok] at h
        obtain ⟨⟨more, more'⟩, s₂, hmore, h⟩ := h
        simp only [run_pure_eq_ok, Prod.mk.injEq] at h
        obtain ⟨⟨rfl, rfl⟩, rfl⟩ := h
        have hlength : (s₁.skip 1).kinds.length < rounds := by
          rw [hfirst.kinds_eq, (lays_skip hcomma).kinds_eq] at hrounds
          simp only [length_append, length_singleton] at hrounds
          omega
        obtain ⟨hmore, hsome⟩ := ih hlength hmore
        have hne : more.map ([·.token]) ++ (if more' =
            true then [[TokenKind.symbol .ellipsis]] else []) ≠ [] := by
          rcases hsome with hsome | rfl <;> simp_all
        have htokens : parameterTokens (p :: more) more' =
            [p.token] ++ ([.symbol .comma] ++ parameterTokens more more') := by
          simp [parameterTokens, separated, flatMap_separator hne]
        rw [htokens]
        exact ⟨hfirst.trans ((lays_skip hcomma).trans hmore), .inl (cons_ne_nil _ _)⟩
      · simp only [run_pure_eq_ok, Prod.mk.injEq] at h
        obtain ⟨⟨rfl, rfl⟩, rfl⟩ := h
        exact ⟨hfirst, .inl (cons_ne_nil _ _)⟩

theorem lays_implicit (h : (expectSymbol .lparen : Parser Unit).run s = .ok (u, s')) :
    s.Lays [.symbol .lparen] ((if isMethod then [⟨"self", s'.last⟩] else [] : List Name).map .name)
      [] s' := by
  obtain ⟨hhead, rfl⟩ := run_expect_eq_ok.1 h
  cases isMethod with
  | false => exact lays_skip hhead
  | true =>
    refine Places.lays
      (.of_rows (lays_skip hhead) (.inr ⟨rfl, rfl⟩) (fun _ => ?_) (by simp [Node.rows]))
    obtain ⟨t, -, ht, htakes⟩ := takes_skip hhead
    show (s.skip 1).last = _
    rw [htakes.last, ← ht]
    rfl

theorem writtenParams_implicit {paren : TextRange} {explicit : List Name} :
    writtenParams isMethod ((if isMethod then [⟨"self", paren⟩] else []) ++ explicit) =
      explicit := by
  cases isMethod with
  | true => simp [writtenParams]
  | false => cases explicit <;> simp [writtenParams]

theorem reads_functionBody (hb : below.Sound n) {head : List TokenKind} {body : FunctionBody}
    (hhead : s₀.Lays head [] [] s)
    (h : (functionBody below s₀.next isMethod).run s = .ok (body, s')) :
    ∃ ks, s.Lays ks [] (body.sites isMethod) s' ∧
      s₀.Places (head ++ ks) (.body body) (body.sites isMethod) s' ∧
      body.Written n isMethod ks := by
  simp only [functionBody] at h
  rw [run_bind_eq_ok] at h
  obtain ⟨_, s₁, hopen, h⟩ := h
  simp only [run_last_bind, run_peek_bind] at h
  have himplicit : (if isMethod = true then [Name.mk "self" s₁.last] else []).map Name.text =
      if isMethod = true then ["self"] else [] := by
    cases isMethod <;> rfl
  split at h
  all_goals
    simp only [run_remaining_bind, expectSymbol, run_bind_eq_ok, run_last_bind, run_pure_eq_ok] at h
    obtain ⟨⟨explicit, isVararg⟩, s₂, hparams, _, s₃, hclose, block, s₄, hblock, _, s₅, hend,
      rfl, rfl⟩ := h
    obtain ⟨ks, hblock, hw⟩ := reads_closed hb hblock (lays_of_expectClose hend)
    rw [FunctionBody.sites, writtenParams_implicit]
    suffices hexplicit :
        s₁.Lays (parameterTokens explicit isVararg) (explicit.map .name)
        (explicit.map Name.site) s₂ by
      have hrow : s.Lays (.symbol .lparen :: parameterTokens explicit isVararg ++ .symbol .rparen ::
        ks ++ [.keyword .kEnd])
          (((if isMethod then [Name.mk "self" s₁.last] else []) ++ explicit).map .name ++
            [.block block])
          (explicit.map Name.site ++ block.sites) s₅ := by
        simpa using (lays_implicit hopen).trans
          (hexplicit.trans ((lays_of_expect hclose).trans hblock))
      have hwhole := hhead.trans hrow
      exact ⟨_, hrow.sited,
        .of_row hwhole rfl ⟨n, isMethod, head, _, rfl, .mk himplicit hw⟩ (hwhole.cover (by simp)),
        .mk himplicit hw⟩
  · simp only [Prod.mk.injEq] at hparams
    obtain ⟨⟨rfl, rfl⟩, rfl⟩ := hparams
    exact lays_refl
  · exact (reads_parameters (Nat.lt_succ_self _) hparams).1

/-! ## Expressions without operators -/

/-- What an expression is written by, and that it can be indexed and called. -/
def ReadsSuffixed (n : Nat) (s : TokenStream) (ks : List TokenKind) (e : Exp)
    (s' : TokenStream) : Prop :=
  s.Places ks (.exp e) e.sites s' ∧ e.Written (n + 1) ks ∧ e.takesSuffix = true

theorem reads_primary (hb : below.Sound n) (h : (primary below).run s = .ok (e, s')) :
    ∃ ks, ReadsSuffixed n s ks e s' := by
  simp only [primary, run_here_bind, run_peek_bind] at h
  split at h
  · rename_i text hname
    simp only [run_advance_bind, run_pure_eq_ok] at h
    obtain ⟨rfl, rfl⟩ := h
    exact ⟨_, places_literal hname (n := n + 1) .name (sited_name hname) rfl rfl, .name, rfl⟩
  · rename_i hopen
    simp only [run_advance_bind, run_bind_eq_ok, run_last_bind, run_pure_eq_ok] at h
    obtain ⟨inner, s₁, hinner, _, s₂, hclose, rfl, rfl⟩ := h
    obtain ⟨ks, hinner, hw⟩ := hb.anyExp hinner
    have hparts := (lays_skip hopen).trans (hinner.close (lays_of_expectClose hclose))
    exact ⟨_, places_exp (.paren hw) hparts rfl (hparts.cover (cons_ne_nil _ _)), .paren hw, rfl⟩
  · exact (run_fail_ne_ok h).elim

theorem reads_bracketed (hb : below.Sound n) {key : Exp}
    (hopen : s.kinds.head? = some (.symbol .lbracket))
    (hkey : below.anyExp.run (s.skip 1) = .ok (key, s₁))
    (hclose : (expectSymbol .rbracket : Parser Unit).run s₁ = .ok (u, s₂)) :
    ∃ ks, s.Lays (.symbol .lbracket :: ks ++ [.symbol .rbracket]) [.exp key]
      (match key.asString? with
      | some _ => [.key key.range]
      | none => key.sites) s₂ ∧ key.Written n ks := by
  obtain ⟨ks, hkey, hw⟩ := hb.anyExp hkey
  refine ⟨ks, ?_, hw⟩
  have hrow := (lays_skip hopen).trans (hkey.close (lays_of_expect hclose))
  cases hstring : key.asString? with
  | none => exact hrow
  | some text =>
    suffices hsited :
      s.Lays (.symbol .lbracket :: ks ++ [.symbol .rbracket]) [] [.key key.range] s₂ from
      hrow.of_sited hsited
    obtain ⟨ts, hts, rfl, -, hsites⟩ := hkey
    obtain ⟨a, ha, -, hatakes⟩ := takes_skip hopen
    obtain ⟨hrbracket, rfl⟩ := run_expect_eq_ok.1 hclose
    obtain ⟨b, hbkind, -, hbtakes⟩ := takes_skip hrbracket
    rw [Exp.eq_string hstring] at hw hsites
    generalize hkinds : ts.map (·.kind) = ks at hw
    cases hw
    obtain ⟨t, rfl, hkind⟩ := map_eq_singleton_iff.1 hkinds
    have hrange : t.range = key.range := by
      rw [Exp.sites] at hsites
      generalize key.range = range at hsites
      cases hsites with
      | text hkind h => rfl
      | skip h => cases h
    refine ⟨[a] ++ ([t] ++ [b]),
      hatakes.trans (hts.trans hbtakes), by simp [ha, hkind, hbkind], fun _ =>
      Node.rowPlaced_nil, ?_⟩
    rw [← hrange]
    exact .key ha hkind hbkind .nil

/-- A suffix keeps the start of what it is attached to. -/
theorem places_continued {e' : Exp} {us : List TokenKind} {row : List Node} {sites : List Site}
    (he : s₀.Places ks (.exp e) e.sites s) (hrow : s.Lays us row sites s')
    (hw : e'.Written (n + 1) (ks ++ us)) (hparts : e'.parts = .exp e :: row)
    (hsites : e'.sites = e.sites ++ sites) (hrange : e'.range = e.range.cover s'.last)
    (hne : us ≠ []) : s₀.Places (ks ++ us) (.exp e') e'.sites s' := by
  have hwhole := he.lays.trans hrow
  refine places_exp hw (hparts ▸ hwhole) hsites fun hs => ?_
  rw [hrange]
  exact (he.begins hrow hs).cover (hwhole.ends (by simp [hne]) hs)

theorem suffixes_reads (hb : below.Sound n) {e' : Exp} (he : ReadsSuffixed n s₀ ks e s)
    (h : (suffixes below rounds e).run s = .ok (e', s')) : ∃ ks', ReadsSuffixed n s₀ ks' e' s' := by
  induction rounds generalizing s e ks with
  | zero =>
    obtain ⟨rfl, rfl⟩ := run_pure_eq_ok.1 h
    exact ⟨ks, he⟩
  | succ rounds ih =>
    obtain ⟨hplaces, hw, hsuffix⟩ := he
    simp only [suffixes, run_peek_bind] at h
    split at h
    · rename_i hdot
      simp only [run_advance_bind, run_bind_eq_ok] at h
      obtain ⟨key, s₁, hkey, h⟩ := h
      have hkey' := places_name hkey
      have hdot' := lays_skip hdot
      refine ih ⟨places_exp (.member hw hsuffix) (hplaces.lays.trans (hdot'.trans hkey'.lays)) rfl
        fun hs => ?_, .member hw hsuffix, rfl⟩ h
      exact (hplaces.begins (hdot'.trans hkey'.lays) hs).cover
        (hkey'.ends (hplaces.lays.trans hdot') hs)
    · rename_i hopen
      simp only [run_advance_bind, run_bind_eq_ok, run_last_bind] at h
      obtain ⟨key, s₁, hkey, _, s₂, hclose, h⟩ := h
      obtain ⟨us, hrow, hkeyWritten⟩ := reads_bracketed hb hopen hkey hclose
      have hindex := Exp.Written.index (r := e.range.cover s₂.last) hw hsuffix hkeyWritten
      rw [append_assoc] at hindex
      refine ih ⟨places_continued hplaces hrow hindex ?_ ?_ rfl (cons_ne_nil _ _), hindex, rfl⟩ h
      · cases key <;> rfl
      · cases key <;> rfl
    · rename_i hcolon
      simp only [run_advance_bind, run_bind_eq_ok, run_last_bind] at h
      obtain ⟨method, s₁, hmethod, args, s₂, hargs, h⟩ := h
      obtain ⟨us, hargs, hargsWritten⟩ := reads_arguments hb hargs
      have hrow := (lays_skip hcolon).trans ((places_name hmethod).lays.bare.trans hargs)
      have hcall : Exp.Written (n + 1) (.methodCall (e.range.cover s₂.last) e method args) _ :=
        .methodCall hw hsuffix hargsWritten
      exact ih ⟨places_continued hplaces hrow hcall rfl rfl rfl (cons_ne_nil _ _), hcall, rfl⟩ h
    iterate 3
      · simp only [run_bind_eq_ok, run_last_bind] at h
        obtain ⟨args, s₁, hargs, h⟩ := h
        obtain ⟨us, hargs, hargsWritten⟩ := reads_arguments hb hargs
        have hcall := Exp.Written.call (r := e.range.cover s₁.last) hw hsuffix hargsWritten
        exact ih ⟨places_continued hplaces hargs hcall rfl rfl rfl hargsWritten.ne_nil,
          hcall, rfl⟩ h
    · obtain ⟨rfl, rfl⟩ := run_pure_eq_ok.1 h
      exact ⟨ks, hplaces, hw, hsuffix⟩

theorem reads_suffixed (hb : below.Sound n) (h : (suffixed below).run s = .ok (e, s')) :
    ∃ ks, ReadsSuffixed n s ks e s' := by
  simp only [suffixed, run_bind_eq_ok, run_remaining_bind] at h
  obtain ⟨e₀, s₁, he₀, h⟩ := h
  obtain ⟨ks, he₀⟩ := reads_primary hb he₀
  exact suffixes_reads hb he₀ h

theorem reads_simple (hb : below.Sound n) (h : (simple below).run s = .ok (e, s')) :
    ∃ ks, s.Places ks (.exp e) e.sites s' ∧ e.Written (n + 1) ks ∧ e.rootOp? = none ∧
      e.rightLimits = [] := by
  simp only [simple, simple.literal, run_here_bind, run_peek_bind] at h
  split at h
  case h_7 =>
    obtain ⟨r, fs, ks, rfl, hw, he⟩ := reads_table hb h
    exact ⟨_, he, .table hw, rfl, rfl⟩
  case h_8 hfunction =>
    simp only [run_advance_bind, run_bind_eq_ok, run_pure_eq_ok] at h
    obtain ⟨body, s₁, hbody, rfl, rfl⟩ := h
    obtain ⟨ks, -, hbody, hw⟩ := reads_functionBody hb (lays_skip hfunction) hbody
    refine ⟨_, places_exp (.function hw) hbody.lays rfl fun hs => ?_, .function hw, rfl, rfl⟩
    exact (hbody.lays.begins (cons_ne_nil _ _) hs).cover (hbody.ends lays_refl hs)
  case h_9 =>
    obtain ⟨ks, he, hw, hsuffix⟩ := reads_suffixed hb h
    exact ⟨ks, he, hw, Exp.rootOp?_of_takesSuffix hsuffix, Exp.rightLimits_of_takesSuffix hsuffix⟩
  all_goals
    rename_i hkind
    rw [run_advance_bind] at h
    obtain ⟨rfl, rfl⟩ := run_pure_eq_ok.1 h
  · exact ⟨_, places_literal hkind (n := n + 1) .number (lays_skip hkind) rfl rfl,
      .number, rfl, rfl⟩
  · exact ⟨_, places_literal hkind (n := n + 1) .string (sited_string hkind) rfl rfl,
      .string, rfl, rfl⟩
  · exact ⟨_, places_literal hkind (n := n + 1) .nil (lays_skip hkind) rfl rfl, .nil, rfl, rfl⟩
  · exact ⟨_, places_literal hkind (n := n + 1) .bool (lays_skip hkind) rfl rfl, .bool, rfl, rfl⟩
  · exact ⟨_, places_literal hkind (n := n + 1) .bool (lays_skip hkind) rfl rfl, .bool, rfl, rfl⟩
  · exact ⟨_, places_literal hkind (n := n + 1) .vararg (lays_skip hkind) rfl rfl,
      .vararg, rfl, rfl⟩

/-! ## Operators -/

theorem eq_pow_of_priority_lt {op : BinOp} (h : UnOp.priority < op.leftPriority) : op = .pow := by
  cases op <;> first | rfl | exact absurd h (by decide)

theorem Delimited.edge_cons {rest : List TokenKind} (h : Delimited limit e rest) :
    ∀ op, nextOp? rest = some op → ∀ p ∈ limit :: e.rightLimits, op.leftPriority ≤ p := by
  intro op hop p hp
  rcases mem_cons.1 hp with rfl | hp
  · exact h.next op hop
  · exact h.edge op hop p hp

section

variable (hb : below.Sound n)
include hb

/-- The invariant of the loop: `lhs` is what has been read since `s₀`. -/
theorem operators_reads {lhs : Exp} (hlhs : s₀.Places ks (.exp lhs) lhs.sites s)
    (hw : lhs.Written (n + 1) ks) (hroot : ∀ op, lhs.rootOp? = some op → limit < op.leftPriority)
    (hedge : ∀ op, nextOp? s.kinds = some op → ∀ p ∈ lhs.rightLimits, op.leftPriority ≤ p)
    (hrounds : s.kinds.length ≤ rounds)
    (h : (operators below limit rounds lhs).run s = .ok (e, s')) :
    ∃ ks', s₀.Places ks' (.exp e) e.sites s' ∧ e.Written (n + 1) ks' ∧
      Delimited limit e s'.kinds := by
  induction rounds generalizing s lhs ks with
  | zero =>
    obtain ⟨rfl, rfl⟩ := run_pure_eq_ok.1 h
    have hnil : s.kinds = [] := eq_nil_of_length_eq_zero (Nat.le_zero.1 hrounds)
    exact ⟨ks, hlhs, hw, hroot, by simp [hnil, nextOp?], hedge⟩
  | succ rounds ih =>
    simp only [operators, run_peek_bind] at h
    split at h
    · rename_i hnone
      obtain ⟨rfl, rfl⟩ := run_pure_eq_ok.1 h
      exact ⟨ks, hlhs, hw, hroot, by simp [nextOp?, hnone], hedge⟩
    · rename_i op hop
      split at h
      · rename_i hweak
        obtain ⟨rfl, rfl⟩ := run_pure_eq_ok.1 h
        refine ⟨ks, hlhs, hw, hroot, ?_, hedge⟩
        rintro op' hop'
        cases hop.symm.trans hop'
        exact hweak
      · rename_i hstrong
        simp only [run_advance_bind, run_bind_eq_ok] at h
        obtain ⟨rhs, s₁, hrhs, h⟩ := h
        obtain ⟨us, hrhs, hrhsWritten, hdelim⟩ := hb.exp hrhs
        obtain ⟨k, hk, hkind⟩ := Option.bind_eq_some_iff.1 hop
        obtain rfl := binaryOp?_eq_some.1 hkind
        have hrow := (lays_skip hk).trans hrhs.lays
        have hbinary := Exp.Written.binary (r := lhs.range.cover rhs.range) hw hrhsWritten
          (hedge op hop) hdelim.root
        have hlength : s₁.kinds.length ≤ rounds := by
          rw [hrow.kinds_eq] at hrounds
          simp only [length_append, length_singleton] at hrounds
          omega
        refine ih (places_exp hbinary (hlhs.lays.trans hrow) rfl fun hs => ?_) hbinary
          (fun _ hop' => ?_)
          hdelim.edge_cons hlength h
        · exact (hlhs.begins hrow hs).cover (hrhs.ends (hlhs.lays.trans (lays_skip hk)) hs)
        · cases hop'
          omega

theorem reads_operand (h : (operand below).run s = .ok (e, s')) :
    ∃ ks, s.Places ks (.exp e) e.sites s' ∧ e.Written (n + 1) ks ∧ e.rootOp? = none ∧
      ∀ op, nextOp? s'.kinds = some op → ∀ p ∈ e.rightLimits, op.leftPriority ≤ p := by
  simp only [operand, run_here_bind, run_peek_bind] at h
  split at h
  · rename_i op hop
    obtain ⟨k, hk, hop⟩ := Option.bind_eq_some_iff.1 hop
    obtain rfl := unaryOp?_eq_some.1 hop
    simp only [run_advance_bind, run_bind_eq_ok, run_pure_eq_ok] at h
    obtain ⟨e₀, s₁, he₀, rfl, rfl⟩ := h
    obtain ⟨ks, he₀, hw, hdelim⟩ := hb.exp he₀
    have hunary : Exp.Written (n + 1) (.unary (s.next.cover e₀.range) op e₀) _ :=
      .unary hw fun op' hop' => eq_pow_of_priority_lt (hdelim.root op' hop')
    have hrow := (lays_skip hk).trans he₀.lays
    refine ⟨_, places_exp hunary hrow rfl fun hs => ?_, hunary, rfl, hdelim.edge_cons⟩
    exact (hrow.begins (cons_ne_nil _ _) hs).cover (he₀.ends (lays_skip hk) hs)
  · obtain ⟨ks, he, hw, hroot, hlimits⟩ := reads_simple hb h
    exact ⟨ks, he, hw, hroot, by simp [hlimits]⟩

/-- The loop stops at an operator that binds no tighter than `limit`. -/
theorem reads_subExp (h : (subExp below limit).run s = .ok (e, s')) :
    ∃ ks, s.Places ks (.exp e) e.sites s' ∧ e.Written (n + 1) ks ∧ Delimited limit e s'.kinds := by
  simp only [subExp, run_bind_eq_ok, run_remaining_bind] at h
  obtain ⟨lhs, s₁, hlhs, h⟩ := h
  obtain ⟨ks, hlhs, hw, hroot, hedge⟩ := reads_operand hb hlhs
  exact operators_reads hb hlhs hw (by simp [hroot]) hedge (Nat.le_refl _) h

end

end LuaAnalysis.Parser
