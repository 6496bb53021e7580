import LuaAnalysis.Proofs.Token.Spacing
import LuaAnalysis.Tree.Parser

/-!
# Where the names of a tree stand

A name of a tree stands on a token of its own, and so does the string of `t["key"]`, between its
brackets. `sites` lists these tokens in the order of the text, and `Sited` finds them in a list of
tokens, one after another. Tokens are spaced, so no two sites touch (`Token.Sited.apart`).
-/

namespace LuaAnalysis

/-- A token that a name may stand on. -/
inductive Site where
  | name (range : TextRange)
  | text (range : TextRange)
  /-- A string in brackets. -/
  | key (range : TextRange)
deriving DecidableEq, Repr, Inhabited

def Site.place? : Site → Option TextRange
  | name range | key range => some range
  | text _ => none

def Name.site (n : Name) : Site :=
  .name n.range

/-! ## Sites among tokens -/

namespace Token

/-- The sites are found among the tokens, one after another. -/
inductive Sited : List Token → List Site → Prop where
  | nil : Sited [] []
  | skip {t : Token} {ts : List Token} {sites : List Site} (h : Sited ts sites) :
      Sited (t :: ts) sites
  | name {t : Token} {ts : List Token} {sites : List Site} {text : String} (hkind : t.kind =
      .name text)
    (h : Sited ts sites) : Sited (t :: ts) (.name t.range :: sites)
  | text {t : Token} {ts : List Token} {sites : List Site} {text : String} (hkind : t.kind =
      .string text)
    (h : Sited ts sites) : Sited (t :: ts) (.text t.range :: sites)
  | key {a t b : Token} {ts : List Token} {sites : List Site} {text : String} (hopen : a.kind =
      .symbol .lbracket)
    (hkind : t.kind = .string text) (hclose : b.kind = .symbol .rbracket) (h : Sited ts sites) :
    Sited (a :: t :: b :: ts) (.key t.range :: sites)

variable {ts us : List Token} {sites sites' : List Site}

theorem Sited.append (h : Sited ts sites) (h' : Sited us sites') :
    Sited (ts ++ us) (sites ++ sites') := by
  induction h with
  | nil => exact h'
  | skip _ ih => exact .skip ih
  | name hkind _ ih => exact .name hkind ih
  | text hkind _ ih => exact .text hkind ih
  | key hopen hkind hclose _ ih => exact .key hopen hkind hclose ih

theorem sited_nil : Sited ts [] := by
  induction ts with
  | nil => exact .nil
  | cons t ts ih => exact .skip ih

/-- A place behind the token `t`, which it may only touch if `t` is no name. -/
structure Behind (t : Token) (r : TextRange) : Prop where
  le : t.range.stop ≤ r.start
  lt : t.kind.isName = true → t.range.stop < r.start

theorem Behind.of_apart {t u : Token} {r : TextRange} (hu : u.range.start < u.range.stop)
    (h : t.Apart u) (hr : u.range.stop ≤ r.start) : t.Behind r :=
  have hlt := Position.lt_of_lt_of_le (Position.lt_of_le_of_lt h.le hu) hr
  ⟨Position.le_of_lt hlt, fun _ => hlt⟩

theorem Sited.behind {t : Token} (h : Sited ts sites) (hspaced : Spaced (t :: ts)) :
    ∀ r ∈ sites.filterMap Site.place?, t.Behind r := by
  induction h generalizing t with
  | nil => nofun
  | @skip u ts sites h ih | @text u ts sites text hkind h ih =>
    obtain ⟨-, hnext, hspaced'⟩ := hspaced
    intro r hr
    exact .of_apart hspaced'.1 (hnext u rfl) (ih hspaced' r hr).le
  | @name u ts sites text hkind h ih =>
    obtain ⟨-, hnext, hspaced'⟩ := hspaced
    intro r hr
    rcases List.mem_cons.1 hr with rfl | hr
    · exact ⟨(hnext u rfl).le, fun hname => (hnext u rfl).lt hname (by rw [hkind]; rfl)⟩
    · exact .of_apart hspaced'.1 (hnext u rfl) (ih hspaced' r hr).le
  | @key a u b ts sites text hopen hkind hclose h ih =>
    obtain ⟨-, hnext, hopen', hnext', hkind', hnext'', hspaced'⟩ := hspaced
    intro r hr
    rcases List.mem_cons.1 hr with rfl | hr
    · exact .of_apart hopen' (hnext a rfl) (hnext' u rfl).le
    · have hclose' := Behind.of_apart hspaced'.1 (hnext'' b rfl) (ih hspaced' r hr).le
      have hmiddle := Behind.of_apart hkind' (hnext' u rfl) hclose'.le
      exact .of_apart hopen' (hnext a rfl) hmiddle.le

theorem Sited.apart (h : Sited ts sites) (hspaced : Spaced ts) :
    (sites.filterMap Site.place?).Pairwise (fun a b => a.stop < b.start) := by
  induction h with
  | nil => exact .nil
  | skip h ih | text hkind h ih => exact ih hspaced.2.2
  | @name t ts sites text hkind h ih =>
    refine .cons (fun r hr => ?_) (ih hspaced.2.2)
    exact (h.behind hspaced r hr).lt (by rw [hkind]; rfl)
  | @key a t b ts sites text hopen hkind hclose h ih =>
    obtain ⟨-, -, -, hnext, hspaced'⟩ := hspaced
    refine .cons (fun r hr => ?_) (ih hspaced'.2.2)
    -- The closing bracket stands between.
    have hbehind := h.behind hspaced' r hr
    exact Position.lt_of_lt_of_le (Position.lt_of_le_of_lt (hnext b rfl).le hspaced'.1) hbehind.le

theorem Sited.mem {r : TextRange} (h : Sited ts sites) (hr : r ∈ sites.filterMap Site.place?) :
    ∃ t ∈ ts, t.range = r := by
  induction h with
  | nil => cases hr
  | @skip t ts sites h ih | @text t ts sites text hkind h ih =>
    obtain ⟨u, hu, hrange⟩ := ih hr
    exact ⟨u, .tail _ hu, hrange⟩
  | @name t ts sites text hkind h ih =>
    rcases List.mem_cons.1 hr with rfl | hr
    · exact ⟨t, .head _, rfl⟩
    · obtain ⟨u, hu, hrange⟩ := ih hr
      exact ⟨u, .tail _ hu, hrange⟩
  | @key a t b ts sites text hopen hkind hclose h ih =>
    rcases List.mem_cons.1 hr with rfl | hr
    · exact ⟨t, .tail _ (.head _), rfl⟩
    · obtain ⟨u, hu, hrange⟩ := ih hr
      exact ⟨u, .tail _ (.tail _ (.tail _ hu)), hrange⟩

theorem Spaced.wide (h : Spaced ts) : ∀ t ∈ ts, t.range.start < t.range.stop := by
  induction ts with
  | nil => nofun
  | cons t ts ih => exact List.forall_mem_cons.2 ⟨h.1, ih h.2.2⟩

end Token

/-! ## Sites of trees -/

def writtenParams (isMethod : Bool) : List Name → List Name
  | [] => []
  | first :: rest => if isMethod && first.text == "self" then rest else first :: rest

mutual

def Exp.sites : Exp → List Site
  | .name range _ => [.name range]
  | .string range _ => [.text range]
  | .function _ body => body.sites false
  | .table _ fields => Field.listSites fields
  | .index _ obj key dotted =>
    match key.asString? with
    | some _ => obj.sites ++ [if dotted then .name key.range else .key key.range]
    | none => obj.sites ++ key.sites
  | .call _ func args => func.sites ++ Exp.listSites args
  | .methodCall _ obj _ args => obj.sites ++ Exp.listSites args
  | .binary _ _ lhs rhs => lhs.sites ++ rhs.sites
  | .unary _ _ operand => operand.sites
  | .paren _ inner => inner.sites
  | .nil _ | .bool _ _ | .vararg _ | .number _ _ => []

def Exp.listSites : List Exp → List Site
  | [] => []
  | e :: es => e.sites ++ Exp.listSites es

def Field.sites : Field → List Site
  | .named _ value => value.sites
  | .keyed key value => key.sites ++ value.sites
  | .positional value => value.sites

def Field.listSites : List Field → List Site
  | [] => []
  | f :: fs => f.sites ++ Field.listSites fs

def FunctionBody.sites (isMethod : Bool) : FunctionBody → List Site
  | ⟨_, params, _, block⟩ => (writtenParams isMethod params).map Name.site ++ block.sites

def Block.sites : Block → List Site
  | ⟨_, stats, ret⟩ => Stat.listSites stats ++ ReturnStat.sites? ret

def ReturnStat.sites? : Option ReturnStat → List Site
  | none => []
  | some ret => ret.sites

def ReturnStat.sites : ReturnStat → List Site
  | ⟨_, values⟩ => Exp.listSites values

def Stat.listSites : List Stat → List Site
  | [] => []
  | s :: ss => s.sites ++ Stat.listSites ss

def Stat.sites : Stat → List Site
  | .locals _ names values => names.map (·.name.site) ++ Exp.listSites values
  | .localFunction _ name body => name.site :: body.sites false
  | .function _ name body => name.segments.map Name.site ++ body.sites name.method.isSome
  | .assign _ targets values => Exp.listSites targets ++ Exp.listSites values
  | .call _ e => e.sites
  | .doBlock _ block => block.sites
  | .whileLoop _ cond block => cond.sites ++ block.sites
  | .repeatLoop _ block cond => block.sites ++ cond.sites
  | .ifChain _ clauses orElse => Clause.listSites clauses ++ Block.sites? orElse
  | .numericFor _ var first limit step block =>
    var.site :: (first.sites ++ (limit.sites ++ (Exp.sites? step ++ block.sites)))
  | .genericFor _ names values block => names.map Name.site ++ (Exp.listSites values ++ block.sites)
  | .empty _ | .breakLoop _ | .goto _ _ | .label _ _ => []

def Exp.sites? : Option Exp → List Site
  | none => []
  | some e => e.sites

def Clause.sites : Clause → List Site
  | ⟨cond, block⟩ => cond.sites ++ block.sites

def Clause.listSites : List Clause → List Site
  | [] => []
  | c :: cs => c.sites ++ Clause.listSites cs

def Block.sites? : Option Block → List Site
  | none => []
  | some block => block.sites

end

theorem Exp.listSites_eq {es : List Exp} : Exp.listSites es = es.flatMap Exp.sites := by
  induction es with
  | nil => rfl
  | cons e es ih => rw [listSites, ih, List.flatMap_cons]

theorem Field.listSites_eq {fs : List Field} : Field.listSites fs = fs.flatMap Field.sites := by
  induction fs with
  | nil => rfl
  | cons f fs ih => rw [listSites, ih, List.flatMap_cons]

theorem Exp.eq_string {e : Exp} {text : String} (h : e.asString? = some text) :
    e = .string e.range text := by
  cases e with
  | string range text' => cases h; rfl
  | _ => cases h

end LuaAnalysis
