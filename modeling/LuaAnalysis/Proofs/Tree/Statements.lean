import LuaAnalysis.Proofs.Token.Lossless
import LuaAnalysis.Proofs.Tree.Soundness
import LuaAnalysis.Source.Basic

/-!
# Statements and whole texts

A statement gets its range when it has been read, so its readers return what takes any range
(`LaidStat`). With statements the levels are complete: the tree of every text that is accepted is
written by the tokens of the text (`Source.written_of_parse`), and since these are in order, every
range of the tree is right (`Source.placed_of_parse`).
-/

namespace LuaAnalysis

open Bool List

namespace Parser

open TokenStream

variable {below : Level} {n : Nat} {s s₀ s₁ s' : TokenStream} {ks us : List TokenKind}
  {make : TextRange → Stat} {sites : List Site}

/-- A statement whose range is still open: it takes any range, and its rows are laid out between the
streams. -/
structure LaidStat (n : Nat) (s : TokenStream) (ks : List TokenKind) (make : TextRange → Stat)
    (s' : TokenStream) : Prop where
  written : ∀ r, (make r).Written (n + 1) ks
  sited : ∀ r, s.Lays ks [] (make r).sites s'
  range : ∀ r, (make r).range = r
  rows : ∀ r, ∀ row ∈ (make r).rows, ∃ told, s.Lays ks row told s'

def ReadsStat (n : Nat) (s : TokenStream) (p : Parser (TextRange → Stat)) : Prop :=
  ∀ ⦃make s'⦄, p.run s = .ok (make, s') → ∃ ks, LaidStat n s ks make s'

theorem laidStat_row {row : List Node} (hrow : s.Lays ks row sites s')
    (hw : ∀ r, (make r).Written (n + 1) ks) (hmake : ∀ r, (make r).range = r ∧
      (make r).rows = [row] ∧ (make r).sites = sites) : LaidStat n s ks make s' :=
  ⟨hw, fun r => (hmake r).2.2 ▸ hrow.sited, fun r => (hmake r).1,
    fun r => (hmake r).2.1 ▸ forall_mem_singleton.2 ⟨sites, hrow⟩⟩

theorem laidStat_leaf (h : s.Lays ks [] [] s') (hw : ∀ r, (make r).Written (n + 1) ks)
    (hmake : ∀ r, (make r).range = r ∧ (make r).rows = [] ∧ (make r).sites = []) :
    LaidStat n s ks make s' :=
  ⟨hw, fun r => (hmake r).2.2 ▸ h, fun r => (hmake r).1, fun r => (hmake r).2.1 ▸ nofun⟩

/-! ## Conditions and loops -/

section

variable (hb : below.Sound n)
include hb

theorem reads_clause {c : Clause} (h : (clause below).run s = .ok (c, s')) :
    ∃ s₁ ks us, s.Lays (ks ++ [.keyword .kThen]) [.exp c.cond] c.cond.sites s₁ ∧
      s₁.Places us (.block c.block) c.block.sites s' ∧ c.cond.Written n ks ∧
      c.block.Written n us := by
  simp only [clause, expectKeyword, run_bind_eq_ok, run_pure_eq_ok] at h
  obtain ⟨test, s₁, htest, _, s₂, hthen, block, s₃, hblock, rfl, rfl⟩ := h
  obtain ⟨ks, htest, hw⟩ := hb.anyExp htest
  obtain ⟨us, hblock, hw'⟩ := reads_block hb hblock
  exact ⟨s₂, ks, us, htest.close (lays_of_expect hthen), hblock, hw, hw'⟩

theorem moreClauses_reads {rounds : Nat} {test : Exp} {b : Block} {cs : List Clause}
    (hblock : s₀.Places us (.block b) b.sites s) (htest : test.Written n ks) (hw : b.Written n us)
    (h : (moreClauses below rounds).run s = .ok (cs, s')) :
    ∃ vs, Clause.ListWritten n (⟨test, b⟩ :: cs) (ks ++ .keyword .kThen :: us ++ vs) ∧
      ∀ {k rest row sites s₂}, s'.Lays (k :: rest) row sites s₂ →
        s₀.Lays (us ++ vs ++ k :: rest) (.block b :: (cs.flatMap Clause.parts ++ row))
          (b.sites ++ (Clause.listSites cs ++ sites)) s₂ := by
  induction rounds generalizing s₀ s test b cs ks us with
  | zero =>
    obtain ⟨rfl, rfl⟩ := run_pure_eq_ok.1 h
    exact ⟨[], by simpa using Clause.ListWritten.one htest hw, fun hrow => by
      simpa [Clause.listSites] using hblock.cons hrow (by simp)⟩
  | succ rounds ih =>
    simp only [moreClauses, eatKeyword, run_eat_bind, false_eq_true, if_true, if_false] at h
    split at h
    · rename_i helseif
      simp only [run_bind_eq_ok, run_pure_eq_ok] at h
      obtain ⟨⟨test', b'⟩, s₁, hc, cs', s₃, hcs', rfl, rfl⟩ := h
      obtain ⟨s₄, ks', us', hcond, hblock', htest', hw'⟩ := reads_clause hb hc
      obtain ⟨vs, hclauses, hrest⟩ := ih hblock' htest' hw' hcs'
      refine ⟨_, .more htest hw hclauses, fun hrow => ?_⟩
      have hrow' := hblock.cons ((lays_skip helseif).trans (hcond.trans (hrest hrow))) (by simp)
      simpa [Clause.listSites, Clause.sites, Clause.parts] using hrow'
    · obtain ⟨rfl, rfl⟩ := run_pure_eq_ok.1 h
      exact ⟨[], by simpa using Clause.ListWritten.one htest hw, fun hrow => by
      simpa [Clause.listSites] using hblock.cons hrow (by simp)⟩

variable {start : TextRange}

theorem readsStat_ifStat (hif : s.kinds.head? = some (.keyword .kIf)) :
    ReadsStat n s (ifStat below start) := by
  intro make s' h
  simp only [ifStat, eatKeyword, run_advance_bind, run_bind_eq_ok, run_remaining_bind, run_eat_bind,
    false_eq_true, if_true, if_false] at h
  obtain ⟨⟨test, b⟩, s₁, hc, cs, s₂, hcs, h⟩ := h
  obtain ⟨s₃, ks, us, hcond, hblock, htest, hw⟩ := reads_clause hb hc
  obtain ⟨vs, hclauses, hrest⟩ := moreClauses_reads hb hblock htest hw hcs
  have hhead := (lays_skip hif).trans hcond
  split at h
  · rename_i helse
    simp only [run_bind_eq_ok, run_map_eq_ok, run_pure_eq_ok] at h
    obtain ⟨_, s₄, ⟨orElse, horElse, rfl⟩, _, s₅, hend, rfl, rfl⟩ := h
    obtain ⟨ws, horElse, hw'⟩ := reads_closed hb horElse (lays_of_expectClose hend)
    refine ⟨_, laidStat_row (hhead.trans (hrest ((lays_skip helse).trans horElse))) (fun r => ?_)
      fun r => ?_⟩
    · simpa using Stat.Written.ifElse (r := r) hclauses hw'
    · exact ⟨rfl, by simp [Stat.rows, Clause.parts], by simp [Stat.sites, Clause.listSites,
        Clause.sites, Block.sites?]⟩
  · simp only [run_bind_eq_ok, run_pure_eq_ok] at h
    obtain ⟨_, s₄, ⟨rfl, rfl⟩, _, s₅, hend, rfl, rfl⟩ := h
    refine ⟨_, laidStat_row (hhead.trans (hrest (lays_of_expectClose hend))) (fun r => ?_)
      fun r => ?_⟩
    · simpa using Stat.Written.ifChain (r := r) hclauses
    · exact ⟨rfl, by simp [Stat.rows, Clause.parts], by simp [Stat.sites, Clause.listSites,
        Clause.sites, Block.sites?]⟩

theorem reads_loopBlock {opener : String} : Reads (loopBlock below opener start)
      (fun b ks => ∃ us, b.Written n us ∧ ks = .keyword .kDo :: us ++ [TokenKind.keyword .kEnd])
      (fun b => [.block b]) Block.sites := by
  intro s b s' h
  simp only [loopBlock, expectKeyword, run_bind_eq_ok, run_pure_eq_ok] at h
  obtain ⟨_, s₁, hdo, b', s₂, hblock, _, s₃, hend, rfl, rfl⟩ := h
  obtain ⟨us, hblock, hw⟩ := reads_closed hb hblock (lays_of_expectClose hend)
  exact ⟨_, (lays_of_expect hdo).trans hblock, us, hw, rfl⟩

theorem readsStat_forStat (hfor : s.kinds.head? = some (.keyword .kFor)) :
    ReadsStat n s (forStat below start) := by
  intro make s' h
  simp only [forStat, eatSymbol, eatKeyword, expectSymbol, run_advance_bind, run_bind_eq_ok,
    run_remaining_bind, run_eat_bind, false_eq_true, if_true, if_false] at h
  obtain ⟨var, s₁, hvar, h⟩ := h
  have hvar' := (lays_skip hfor).trans (places_name hvar).lays
  split at h
  · rename_i hassign
    simp only [run_bind_eq_ok, run_eat_bind, false_eq_true, if_true, if_false] at h
    obtain ⟨first, s₂, hfirst, _, s₃, hcomma, limit, s₄, hlimit, h⟩ := h
    obtain ⟨ks, hfirst, hw⟩ := hb.anyExp hfirst
    obtain ⟨us, hlimit, hw'⟩ := hb.anyExp hlimit
    have hhead := (hvar'.close (lays_skip hassign)).trans
      ((hfirst.close (lays_of_expect hcomma)).trans hlimit)
    split at h
    · rename_i hstep
      simp only [run_bind_eq_ok, run_map_eq_ok, run_pure_eq_ok] at h
      obtain ⟨_, s₅, ⟨step, hstep', rfl⟩, body, s₆, hbody, rfl, rfl⟩ := h
      obtain ⟨ws, hstep', hw''⟩ := hb.anyExp hstep'
      obtain ⟨_, hbody, vs, hblock, rfl⟩ := reads_loopBlock hb hbody
      refine ⟨_, laidStat_row (hhead.trans ((lays_skip hstep).trans (hstep'.trans hbody)))
        (fun r => ?_) fun r => ?_⟩
      · simpa using (Stat.Written.steppedFor hw hw' hw'' hblock : Stat.Written _
          (.numericFor r var _ _ _ _) _)
      · exact ⟨rfl, rfl, by simp [Stat.sites, Exp.sites?]⟩
    · simp only [run_bind_eq_ok, run_pure_eq_ok] at h
      obtain ⟨_, s₅, ⟨rfl, rfl⟩, body, s₆, hbody, rfl, rfl⟩ := h
      obtain ⟨_, hbody, vs, hblock, rfl⟩ := reads_loopBlock hb hbody
      refine ⟨_, laidStat_row (hhead.trans hbody) (fun r => ?_) fun r => ?_⟩
      · simpa using (Stat.Written.numericFor hw hw' hblock : Stat.Written _
          (.numericFor r var _ _ _ _) _)
      · exact ⟨rfl, rfl, by simp [Stat.sites, Exp.sites?]⟩
  · simp only [run_bind_eq_ok, run_eat_bind, false_eq_true, if_true, if_false] at h
    obtain ⟨more, s₂, hmore, h⟩ := h
    obtain ⟨_, hmore, rfl⟩ := reads_moreNames hmore
    split at h
    · rename_i hin
      simp only [run_bind_eq_ok, run_pure_eq_ok] at h
      obtain ⟨values, s₃, hvalues, body, s₄, hbody, rfl, rfl⟩ := h
      obtain ⟨ts, hvalues, hw⟩ := reads_expList hb hvalues
      obtain ⟨_, hbody, vs, hblock, rfl⟩ := reads_loopBlock hb hbody
      refine ⟨_, laidStat_row
        ((hvar'.trans hmore).trans ((lays_skip hin).trans (hvalues.trans hbody))) (fun r => ?_)
        fun r => ?_⟩
      · simpa [Name.tokens, separated] using
          Stat.Written.genericFor (r := r) (cons_ne_nil var more) hw hblock
      · exact ⟨rfl, by simp [Stat.rows], by simp [Stat.sites]⟩
    · simp only [run_peek_bind, run_bind_eq_ok] at h
      obtain ⟨_, s₃, hfail, -⟩ := h
      exact (run_fail_ne_ok hfail).elim

end

/-! ## Names of functions and locals -/

theorem range_of_name {m : Name} (h : (name : Parser Name).run s = .ok (m, s')) :
    m.range = s.next ∧ m.range = s'.last := by
  obtain ⟨hhead, hrange, rfl⟩ := run_name_eq_ok.1 h
  obtain ⟨t, -, ht, htakes⟩ := takes_skip hhead
  exact ⟨hrange, by rw [hrange, htakes.last, ← ht]; rfl⟩

theorem last_of_moreItems {separator : Symbol} {rounds : Nat} {m : Name} {more : List Name}
    (hm : m.range = s.last) (h : (moreItems separator name rounds : Parser _).run s =
      .ok (more, s')) : (more.getLast?.getD m).range = s'.last := by
  induction rounds generalizing s m more with
  | zero =>
    obtain ⟨rfl, rfl⟩ := run_pure_eq_ok.1 h
    exact hm
  | succ rounds ih =>
    simp only [moreItems, eatSymbol, run_eat_bind, false_eq_true, if_true, if_false] at h
    split at h
    · simp only [run_bind_eq_ok, run_pure_eq_ok] at h
      obtain ⟨m', s₁, hm', more', s₂, hmore, rfl, rfl⟩ := h
      rw [getLast?_cons]
      exact ih (range_of_name hm').2 hmore
    · obtain ⟨rfl, rfl⟩ := run_pure_eq_ok.1 h
      exact hm

theorem places_functionName {m : FunctionName} (h : (functionName : Parser _).run s = .ok (m, s')) :
    s.Places m.tokens (.path m) (m.segments.map Name.site) s' := by
  simp only [functionName, eatSymbol, run_bind_eq_ok, run_remaining_bind, run_eat_bind,
    false_eq_true, if_true, if_false] at h
  obtain ⟨first, s₁, hfirst, more, s₂, hmore, h⟩ := h
  have hlast := last_of_moreItems (range_of_name hfirst).2 hmore
  obtain ⟨_, hmore, rfl⟩ := reads_moreNames hmore
  have hpath := (places_name hfirst).lays.trans hmore
  suffices hrow : s.Lays m.tokens (m.segments.map .name) (m.segments.map Name.site) s' ∧
    m.range = s.next.cover s'.last by
    have hw : (Node.path m).WrittenBy m.tokens := rfl
    exact .of_row hrow.1 rfl hw fun hs => hrow.2.trans (hrow.1.cover hw.ne_nil hs)
  split at h
  · rename_i hcolon
    simp only [run_bind_eq_ok, run_map_eq_ok, run_pure_eq_ok] at h
    obtain ⟨_, s₃, ⟨method, hmethod, rfl⟩, rfl, rfl⟩ := h
    have hrow := hpath.trans ((lays_skip hcolon).trans (places_name hmethod).lays)
    refine ⟨by simpa [FunctionName.tokens, FunctionName.segments, FunctionName.path, Name.tokens,
      separated] using hrow, ?_⟩
    simp [FunctionName.range, FunctionName.segments, (range_of_name hfirst).1,
      (range_of_name hmethod).2]
  · simp only [run_bind_eq_ok, run_pure_eq_ok] at h
    obtain ⟨_, s₃, ⟨rfl, rfl⟩, rfl, rfl⟩ := h
    refine ⟨by simpa [FunctionName.tokens, FunctionName.segments, FunctionName.path, Name.tokens,
      separated] using hpath, ?_⟩
    simp [FunctionName.range, FunctionName.segments, FunctionName.path, getLast?_cons,
      (range_of_name hfirst).1, hlast]

theorem reads_localName :
    Reads localName (fun m ks => ks = m.tokens) (fun m => [.name m.name])
      (fun m => [m.name.site]) := by
  intro s m s' h
  simp only [localName, eatSymbol, expectSymbol, run_bind_eq_ok, run_eat_bind,
    false_eq_true, if_true, if_false] at h
  obtain ⟨name, s₁, hname, h⟩ := h
  have hname' := (places_name hname).lays
  split at h
  · rename_i hlt
    simp only [run_bind_eq_ok] at h
    obtain ⟨⟨text, range⟩, s₂, hattrib, _, s₃, hgt, h⟩ := h
    have hattrib' :=
      (lays_skip hlt).trans ((places_name hattrib).lays.bare.sited.trans (lays_of_expect hgt))
    split at h
    · rename_i htext
      obtain ⟨rfl, rfl⟩ := run_pure_eq_ok.1 h
      obtain rfl : text = "const" := htext
      exact ⟨_, hname'.close hattrib', rfl⟩
    · rename_i htext
      obtain ⟨rfl, rfl⟩ := run_pure_eq_ok.1 h
      obtain rfl : text = "close" := htext
      exact ⟨_, hname'.close hattrib', rfl⟩
    · exact (run_failAt_ne_ok h).elim
  · obtain ⟨rfl, rfl⟩ := run_pure_eq_ok.1 h
    exact ⟨_, hname', rfl⟩

/-! ## Statements -/

section

variable (hb : below.Sound n)
include hb

theorem readsStat_function {isMethod : Bool} {body : FunctionBody} {name : Node}
    (hname : s₀.Lays ks [name] sites s)
    (h : (functionBody below s₀.next isMethod).run s = .ok (body, s'))
    (hw : ∀ us r, body.Written n isMethod us → (make r).Written (n + 1) (ks ++ us))
    (hmake : ∀ r, (make r).range = r ∧ (make r).rows = [[name], [.body body]] ∧
      (make r).sites = sites ++ body.sites isMethod) : ∃ ks, LaidStat n s₀ ks make s' := by
  obtain ⟨us, hsites, hbody, hwritten⟩ := reads_functionBody hb hname.bare.sited h
  refine ⟨_, fun r => hw us r hwritten, fun r => (hmake r).2.2 ▸ hname.sited.trans hsites, fun r =>
    (hmake r).1, fun r =>
    (hmake r).2.1 ▸ forall_mem_cons.2 ⟨⟨sites, ?_⟩, forall_mem_singleton.2 ⟨_, hbody.lays⟩⟩⟩
  exact hname.close hsites.bare

theorem readsStat_localStat (hlocal : s.kinds.head? = some (.keyword .kLocal)) :
    ReadsStat n s (localStat below s.next) := by
  intro make s' h
  simp only [localStat, eatSymbol, eatKeyword, run_advance_bind, run_eat_bind,
    false_eq_true, if_true, if_false] at h
  have hlocal' := lays_skip hlocal
  split at h
  · rename_i hfunction
    simp only [run_bind_eq_ok, run_pure_eq_ok] at h
    obtain ⟨name, s₁, hname, body, s₂, hbody, rfl, rfl⟩ := h
    exact readsStat_function hb
      (hlocal'.trans ((lays_skip hfunction).trans (places_name hname).lays)) hbody
      (fun _ _ => .localFunction) fun r => ⟨rfl, rfl, rfl⟩
  · simp only [run_bind_eq_ok, run_eat_bind, false_eq_true, if_true, if_false] at h
    obtain ⟨names, s₁, hnames, h⟩ := h
    obtain ⟨_, hnames, hne, _, hnames', rfl⟩ := reads_items reads_localName .comma hnames
    obtain rfl := eq_map_of_forall₂ hnames'
    split at h
    · rename_i hassign
      simp only [run_bind_eq_ok, run_pure_eq_ok] at h
      obtain ⟨values, s₂, hvalues, rfl, rfl⟩ := h
      obtain ⟨us, hvalues, hw⟩ := reads_expList hb hvalues
      exact ⟨_, laidStat_row (hlocal'.trans (hnames.trans ((lays_skip hassign).trans hvalues)))
        (fun r => .localsInit hne hw)
        fun r => ⟨rfl, by simp [Stat.rows, map_eq_flatMap], by simp [Stat.sites, map_eq_flatMap]⟩⟩
    · simp only [run_bind_eq_ok, run_pure_eq_ok] at h
      obtain ⟨_, s₂, ⟨rfl, rfl⟩, rfl, rfl⟩ := h
      exact ⟨_, laidStat_row (hlocal'.trans hnames) (fun r => .locals hne)
        fun r => ⟨rfl, by simp [Stat.rows, map_eq_flatMap], by simp [Stat.sites, map_eq_flatMap,
          Exp.listSites]⟩⟩

theorem readsStat_expStat : ReadsStat n s (expStat below) := by
  intro make s' h
  simp only [expStat, run_bind_eq_ok, run_peek_bind] at h
  obtain ⟨first, s₁, hfirst, h⟩ := h
  obtain ⟨ks, hfirst, hw, -⟩ := reads_suffixed hb hfirst
  split at h
  · simp only [run_remaining_bind, run_bind_eq_ok] at h
    obtain ⟨more, s₂, hmore, h⟩ := h
    have hitem : Reads (suffixed below) (Exp.Written (n + 1)) (fun e => [.exp e]) Exp.sites :=
      fun _ _ _ h =>
      (reads_suffixed hb h).imp fun _ ⟨he, hw, _⟩ => ⟨he.lays, hw⟩
    obtain ⟨_, hmore, kss, hws, rfl⟩ := reads_moreItems hitem .comma hmore
    split at h
    · rw [run_bind_eq_ok] at h
      obtain ⟨_, s₃, hfail, -⟩ := h
      exact (run_failAt_ne_ok hfail).elim
    · rename_i hall
      have hassignable : ∀ e ∈ first :: more, isAssignable e = true := by
        simpa using find?_eq_none.1 hall
      simp only [expectSymbol, run_bind_eq_ok, run_pure_eq_ok] at h
      obtain ⟨_, s₃, hassign, values, s₄, hvalues, rfl, rfl⟩ := h
      obtain ⟨us, hvalues, hw'⟩ := reads_expList hb hvalues
      exact ⟨_, laidStat_row
        ((hfirst.lays.trans hmore).trans ((lays_of_expect hassign).trans hvalues))
        (fun r => .assign (listWritten_separated hw hws) hassignable hw')
        fun r => ⟨rfl, by simp [Stat.rows, map_eq_flatMap], by simp [Stat.sites, Exp.listSites_eq]⟩⟩
  · split at h
    · rename_i hcall
      obtain ⟨rfl, rfl⟩ := run_pure_eq_ok.1 h
      exact ⟨ks, laidStat_row hfirst.lays (fun r => .call hw hcall) fun r => ⟨rfl, rfl, rfl⟩⟩
    · rw [run_bind_eq_ok] at h
      obtain ⟨_, s₂, hfail, -⟩ := h
      exact (run_failAt_ne_ok hfail).elim

theorem readsStat_statBody : ReadsStat n s (statBody below s.next) := by
  intro make s' h
  simp only [statBody, run_peek_bind] at h
  split at h
  case h_1 hkind =>
    simp only [run_advance_bind, run_pure_eq_ok] at h
    obtain ⟨rfl, rfl⟩ := h
    exact ⟨_, laidStat_leaf (lays_skip hkind) (fun r => .empty) fun r => ⟨rfl, rfl, rfl⟩⟩
  case h_2 hkind => exact readsStat_ifStat hb hkind h
  case h_3 hkind =>
    simp only [run_advance_bind, run_bind_eq_ok, run_pure_eq_ok] at h
    obtain ⟨test, s₁, htest, body, s₂, hbody, rfl, rfl⟩ := h
    obtain ⟨ks, htest, hw⟩ := hb.anyExp htest
    obtain ⟨_, hbody, us, hblock, rfl⟩ := reads_loopBlock hb hbody
    refine ⟨_, laidStat_row ((lays_skip hkind).trans (htest.trans hbody)) (fun r => ?_) fun r =>
      ⟨rfl, rfl, rfl⟩⟩
    simpa using Stat.Written.whileLoop (r := r) hw hblock
  case h_4 hkind =>
    simp only [run_bind_eq_ok, run_pure_eq_ok] at h
    obtain ⟨body, s₁, hbody, rfl, rfl⟩ := h
    obtain ⟨_, hbody, us, hblock, rfl⟩ := reads_loopBlock hb hbody
    exact ⟨_, laidStat_row hbody (fun r => .doBlock hblock) fun r => ⟨rfl, rfl, rfl⟩⟩
  case h_5 hkind => exact readsStat_forStat hb hkind h
  case h_6 hkind =>
    simp only [run_advance_bind, run_bind_eq_ok, run_pure_eq_ok] at h
    obtain ⟨body, s₁, hbody, _, s₂, huntil, test, s₃, htest, rfl, rfl⟩ := h
    obtain ⟨ks, hbody, hblock⟩ := reads_closed hb hbody (lays_of_expectClose huntil)
    obtain ⟨us, htest, hw⟩ := hb.anyExp htest
    refine ⟨_, laidStat_row ((lays_skip hkind).trans (hbody.trans htest)) (fun r => ?_) fun r =>
      ⟨rfl, rfl, rfl⟩⟩
    simpa using Stat.Written.repeatLoop (r := r) hblock hw
  case h_7 hkind =>
    simp only [run_advance_bind, run_bind_eq_ok, run_pure_eq_ok] at h
    obtain ⟨name, s₁, hname, body, s₂, hbody, rfl, rfl⟩ := h
    exact readsStat_function hb ((lays_skip hkind).trans (places_functionName hname).lays) hbody
      (fun _ _ => .function) fun r => ⟨rfl, rfl, rfl⟩
  case h_8 hkind => exact readsStat_localStat hb hkind h
  case h_9 hkind =>
    simp only [run_advance_bind, expectSymbol, run_bind_eq_ok, run_pure_eq_ok] at h
    obtain ⟨name, s₁, hname, _, s₂, hclose, rfl, rfl⟩ := h
    exact ⟨_, laidStat_row
      ((lays_skip hkind).trans ((places_name hname).lays.close (lays_of_expect hclose))).bare
      (fun r => .label) fun r => ⟨rfl, rfl, rfl⟩⟩
  case h_10 hkind =>
    simp only [run_advance_bind, run_pure_eq_ok] at h
    obtain ⟨rfl, rfl⟩ := h
    exact ⟨_, laidStat_leaf (lays_skip hkind) (fun r => .breakLoop) fun r => ⟨rfl, rfl, rfl⟩⟩
  case h_11 hkind =>
    simp only [run_advance_bind, run_bind_eq_ok, run_pure_eq_ok] at h
    obtain ⟨name, s₁, hname, rfl, rfl⟩ := h
    exact ⟨_, laidStat_row ((lays_skip hkind).trans (places_name hname).lays).bare (fun r => .goto)
      fun r => ⟨rfl, rfl, rfl⟩⟩
  case h_12 => exact readsStat_expStat hb h

theorem reads_stat :
    Reads (stat below) (Stat.Written (n + 1)) (fun st => [.stat st]) Stat.sites := by
  intro s st s' h
  simp only [stat, run_here_bind, run_bind_eq_ok, run_last_bind, run_pure_eq_ok] at h
  obtain ⟨make, s₁, hmake, rfl, rfl⟩ := h
  obtain ⟨ks, hlaid⟩ := readsStat_statBody hb hmake
  have hw := hlaid.written (s.next.cover s₁.last)
  have hsites := hlaid.sited (s.next.cover s₁.last)
  have hstat : s.Places ks (.stat (make (s.next.cover s₁.last))) _ s₁ :=
    .of_rows hsites ⟨_, hw⟩ (fun hs => (hlaid.range _).trans (hsites.cover hw.ne_nil hs))
    (hlaid.rows _)
  exact ⟨ks, hstat.lays, hw⟩

end

/-! ## Whole texts -/

theorem levels_sound : (levels n).Sound n := by
  induction n with
  | zero => exact ⟨fun _ _ _ _ h => (run_fail_ne_ok h).elim, fun _ _ _ h => (run_fail_ne_ok h).elim⟩
  | succ n ih => exact ⟨fun _ _ _ _ h => reads_subExp ih h, reads_stat ih⟩

theorem reads_chunk {limit : Nat} {c : Chunk} (h : (chunk limit).run s = .ok (c, s')) :
    c.block.Written limit s.kinds ∧ c.range = ⟨{}, s.stop⟩ ∧ Token.Sited s.tokens c.block.sites ∧
      (s.InOrder → (Node.block c.block).Placed s.tokens s.stop) := by
  simp only [chunk, wholeText, run_bind_eq_ok, run_peek_bind] at h
  obtain ⟨body, s₁, hbody, h⟩ := h
  obtain ⟨_, ⟨-, ts, hts, rfl, hplaced, hsites⟩, hw⟩ := reads_block levels_sound hbody
  split at h
  · rename_i hend
    have hnil : s₁.tokens = [] := by simpa [kinds] using hend
    simp only [run_here_bind, run_pure_eq_ok] at h
    obtain ⟨rfl, rfl⟩ := h
    have hnext : s₁.next = ⟨s.stop, s.stop⟩ := by rw [TokenStream.next, hnil, hts.stop]
    rw [hnext] at hplaced
    rw [kinds, hts.tokens, hnil, append_nil]
    exact ⟨hw, by rw [hnext], hsites, hplaced⟩
  · exact (run_fail_ne_ok h).elim

end Parser

variable {chunk : Chunk} {tokens : List Token} {stop : Position}

theorem parseTokens_reads {limit : Nat} (h : parseTokens limit tokens stop = .ok chunk) :
    chunk.block.Written limit (tokens.map (·.kind)) ∧ chunk.range = ⟨{}, stop⟩ ∧
    Token.Sited tokens chunk.block.sites ∧
      (Token.InOrder tokens stop → (Node.block chunk.block).Placed tokens stop) := by
  unfold parseTokens at h
  cases hrun : (Parser.chunk limit).run { tokens, stop } with
  | error e => rw [hrun] at h; cases h
  | ok x =>
    rw [hrun] at h
    cases h
    exact Parser.reads_chunk hrun

theorem Node.wellRanged_chunk (hts : Token.InOrder tokens stop)
    (hblock : (Node.block chunk.block).Placed tokens stop) (hrange : chunk.range = ⟨{}, stop⟩) :
    (Node.chunk chunk).WellRanged := by
  have hzero : ∀ p : Position, ({} : Position) ≤ p := by
    intro p
    rw [Position.le_iff]
    show 0 < p.line ∨ 0 = p.line ∧ 0 ≤ p.column
    omega
  refine .mk ?_ ?_ ?_ ?_
  · show chunk.range.start ≤ chunk.range.stop
    rw [hrange]
    exact hzero stop
  · exact forall_mem_singleton.2 (pairwise_singleton _ _)
  · refine forall_mem_singleton.2 (forall_mem_singleton.2 (TextRange.containsRange_iff.2 ?_))
    rw [hblock.range_eq]
    show chunk.range.start ≤ _ ∧ _ ≤ chunk.range.stop
    rw [hrange]
    exact ⟨hzero _, hts.span_stop_le⟩
  · exact forall_mem_singleton.2 (forall_mem_singleton.2 (hblock.wellRanged hts))

namespace Source

variable {text : String}

theorem tokens_of_parse (h : (parse text).tree = .ok chunk) :
    ∃ lexed, tokenize text = .ok lexed ∧
      parseTokens Parser.maxLevels lexed.tokens lexed.stop = .ok chunk := by
  unfold parse at h
  split at h
  · cases h
  · rename_i lexed hlexed
    exact ⟨lexed, hlexed, h⟩

/-- Writing the tree of a text back as tokens gives the tokens of the text, none dropped, repeated,
moved or grouped otherwise than the priorities of operators say. -/
theorem written_of_parse (text : String) (chunk : Chunk) (h : (parse text).tree = .ok chunk) :
    ∃ lexed, tokenize text = .ok lexed ∧
      chunk.block.Written Parser.maxLevels (lexed.tokens.map (·.kind)) := by
  obtain ⟨lexed, hlexed, hparse⟩ := tokens_of_parse h
  exact ⟨lexed, hlexed, (parseTokens_reads hparse).1⟩

/-- A text with a method, both kinds of call sugar, all spellings of fields and operators of mixed
priorities. -/
def sampleText : String :=
  "local t = \x7b1; [2] = -x ^ -y * 3 .. 'a' .. 'b', z = not p == q;\x7d function t.m:n(a, ...) return a.b:c'd'(-2) end"

theorem exists_tree (h : (parse text).chunk?.isSome = true) :
    ∃ chunk, (parse text).tree = .ok chunk := by
  unfold chunk? at h
  cases htree : (parse text).tree with
  | error e =>
    rw [htree] at h
    cases h
  | ok chunk => exact ⟨chunk, rfl⟩

theorem isSome_chunk?_sampleText : (parse sampleText).chunk?.isSome = true := by
  decide +kernel

theorem written_of_parse_sampleText :
    ∃ chunk, (parse sampleText).tree = .ok chunk ∧
      ∃ lexed, tokenize sampleText = .ok lexed ∧
        chunk.block.Written Parser.maxLevels (lexed.tokens.map (·.kind)) := by
  obtain ⟨chunk, h⟩ := exists_tree isSome_chunk?_sampleText
  exact ⟨chunk, h, written_of_parse sampleText chunk h⟩

theorem wellRanged (h : (parse text).tree = .ok chunk) : (Node.chunk chunk).WellRanged := by
  obtain ⟨lexed, hlexed, hparse⟩ := tokens_of_parse h
  obtain ⟨-, hrange, -, hblock⟩ := parseTokens_reads hparse
  exact Node.wellRanged_chunk (tokenize_inOrder hlexed) (hblock (tokenize_inOrder hlexed)) hrange

/-- Every tree that is read is laid out over the tokens of its text: each expression and each
statement ranges from the first token that writes it to the last one, ranges of parts lie inside,
and parts that follow each other do not overlap. -/
theorem placed_of_parse (text : String) (chunk : Chunk) (h : (parse text).tree = .ok chunk) :
    ∃ lexed, tokenize text = .ok lexed ∧ (Node.block chunk.block).Placed lexed.tokens lexed.stop ∧
      (Node.chunk chunk).WellRanged := by
  obtain ⟨lexed, hlexed, hparse⟩ := tokens_of_parse h
  obtain ⟨-, -, -, hblock⟩ := parseTokens_reads hparse
  exact ⟨lexed, hlexed, hblock (tokenize_inOrder hlexed), wellRanged h⟩

theorem placed_of_parse_sampleText :
    ∃ chunk, (parse sampleText).tree = .ok chunk ∧
      ∃ lexed, tokenize sampleText = .ok lexed ∧
        (Node.block chunk.block).Placed lexed.tokens lexed.stop ∧
        (Node.chunk chunk).WellRanged := by
  obtain ⟨chunk, h⟩ := exists_tree isSome_chunk?_sampleText
  exact ⟨chunk, h, placed_of_parse sampleText chunk h⟩

theorem sited_of_parse (h : (parse text).tree = .ok chunk) :
    ∃ tokens, Token.Spaced tokens ∧ Token.Sited tokens chunk.block.sites := by
  obtain ⟨lexed, hlexed, hparse⟩ := tokens_of_parse h
  obtain ⟨-, -, hsites, -⟩ := parseTokens_reads hparse
  exact ⟨lexed.tokens, tokenize_spaced hlexed, hsites⟩

end Source

end LuaAnalysis
