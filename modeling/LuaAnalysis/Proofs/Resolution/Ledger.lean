import LuaAnalysis.Proofs.Walk.Script
import Mathlib.Data.List.Induction
import Mathlib.Data.Option.Basic

/-!
# Which declaration a free name has

A name that no local binds is a global. Where it is declared depends on what the other files define
(`Abroad`), and on what the file itself has written so far: the first write of a name in a file
settles what the name stands for in the rest of the file. `Ledger` holds this for each name, and
`resolved` goes through the events of a file and lists the places of its free names with their
declarations, without a walk.

What other files define is what their own events have written, seen alone (`Abroad.ofEvents`). Then
every declaration that a name has is a declaration of itself (`resolved_declaration`).
-/

namespace LuaAnalysis

open List

/-- What the files of a project define: plain globals and members of `_G`, each with its first
place. -/
structure Abroad where
  global : String → Option DeclKey := fun _ => none
  root : String → Option DeclKey := fun _ => none

/-- What the names of a file stand for so far, and which of them have been written as members of
`_G`. -/
structure Ledger where
  globals : String → Option DeclKey := fun _ => none
  roots : String → Option DeclKey := fun _ => none

/-- The members of `_G`, or what all names stand for. -/
def Ledger.entries (γ : Ledger) : Bool → String → Option DeclKey
  | true => γ.roots
  | false => γ.globals

/-- The first entry of a name stays. -/
def Ledger.note (entries : String → Option DeclKey) (name : String) (d : DeclKey) :
    String → Option DeclKey := fun x =>
  entries x <|> if x = name then some d else none

namespace Event

def range : Event → TextRange
  | read _ range _ _ _ | write _ range _ | writeRoot _ range => range
  | load call => call.range

variable (o : Abroad) (f : FileId) (γ : Ledger)

/-- The declaration of a free name. A name that is written and has none is declared by the write. -/
def declaration? : Event → Option DeclKey
  | read name _ none _ _ => γ.globals name <|> o.root name <|> o.global name
  | write name range none => some ((γ.globals name <|> o.global name).getD ⟨f, range⟩)
  | writeRoot name range => some ((γ.roots name <|> o.root name).getD ⟨f, range⟩)
  | read _ _ (some _) _ _ | write _ _ (some _) | load _ => none

def book : Event → Ledger
  | write name range none =>
    { γ with
      globals := Ledger.note γ.globals name ((γ.globals name <|> o.global name).getD ⟨f, range⟩) }
  | writeRoot name range =>
    let d := (γ.roots name <|> o.root name).getD ⟨f, range⟩
    { globals := Ledger.note γ.globals name d, roots := Ledger.note γ.roots name d }
  | read _ _ _ _ _ | write _ _ (some _) | load _ => γ

end Event

variable {entries : String → Option DeclKey}
variable {f : FileId} {x : String} {range : TextRange}

namespace Ledger

def bookAll (o : Abroad) (f : FileId) (γ : Ledger) (es : List Event) : Ledger :=
  es.foldl (fun γ e => e.book o f γ) γ

/-- The places of the free names of some events that have a declaration, with the declarations. -/
def resolved (o : Abroad) (f : FileId) : Ledger → List Event → List (TextRange × DeclKey)
  | _, [] => []
  | γ, e :: es => (e.declaration? o f γ).toList.map (e.range, ·) ++ resolved o f (e.book o f γ) es

variable {o o' : Abroad} {f f' : FileId} {γ γ' : Ledger} {es es' : List Event} {e : Event}
  {name : String} {d : DeclKey}

theorem bookAll_append : bookAll o f γ (es ++ es') = bookAll o f (bookAll o f γ es) es' :=
  foldl_append

theorem resolved_append (γ : Ledger) :
    resolved o f γ (es ++ es') = resolved o f γ es ++ resolved o f (bookAll o f γ es) es' := by
  induction es generalizing γ with
  | nil => rfl
  | cons e es ih =>
    rw [cons_append, resolved, resolved, ih, append_assoc]
    rfl

theorem mem_resolved_of_split (hd : e.declaration? o f (bookAll o f γ es) = some d) :
    (e.range, d) ∈ resolved o f γ (es ++ e :: es') := by
  rw [resolved_append, resolved, hd]
  exact mem_append_right _ (mem_append_left _ mem_cons_self)

/-! ## Entries -/

theorem isSome_note :
    (note entries name d x).isSome = ((entries x).isSome || decide (x = name)) := by
  unfold note
  by_cases hx : x = name
  · cases entries x <;> simp [hx]
  · cases entries x <;> simp [hx]

theorem note_of_some {d' : DeclKey} (h : entries x = some d') :
    note entries name d x = some d' := by
  unfold note
  rw [h]
  rfl

theorem note_eq_update (h : entries name = none) :
    note entries name d = Function.update entries name (some d) := by
  funext x
  unfold note
  by_cases hx : x = name
  · rw [hx, h, if_pos rfl, Function.update_self]
    rfl
  · rw [if_neg hx, Function.update_of_ne hx]
    cases entries x <;> rfl

theorem note_self (h : entries name = none) : note entries name d name = some d := by
  rw [note_eq_update h, Function.update_self]

theorem of_note {d' : DeclKey} (h : note entries name d x = some d') :
    entries x = some d' ∨ entries x = none ∧ x = name ∧ d = d' := by
  unfold note at h
  rcases (Option.orElse_eq_some _ _ _).1 h with hold | ⟨hnone, hnew⟩
  · exact .inl hold
  · by_cases hx : x = name
    · rw [if_pos hx] at hnew
      exact .inr ⟨hnone, hx, Option.some.inj hnew⟩
    · rw [if_neg hx] at hnew
      cases hnew

theorem roots_book_of_some (h : γ.roots name = some d) : (e.book o f γ).roots name = some d := by
  cases e with
  | read | load => exact h
  | write x range binding => cases binding <;> exact h
  | writeRoot x range => exact note_of_some h

theorem roots_bookAll_of_some (h : γ.roots name = some d) :
    (bookAll o f γ es).roots name = some d := by
  induction es generalizing γ with
  | nil => exact h
  | cons e es ih => exact ih (roots_book_of_some h)

/-- An entry that an event has made. -/
theorem of_book {root : Bool} (h : (e.book o f γ).entries root name = some d) :
    γ.entries root name = some d ∨ γ.entries root name = none ∧ e.declaration? o f γ = some d ∧
      (e = .writeRoot name e.range ∨ root = false ∧ e = .write name e.range none) := by
  cases e with
  | read | load => exact .inl h
  | write x range binding =>
    cases binding with
    | some b => exact .inl h
    | none =>
      cases root with
      | true => exact .inl h
      | false =>
        refine (of_note h).imp_right ?_
        rintro ⟨hnone, rfl, hd⟩
        exact ⟨hnone, congrArg some hd, .inr ⟨rfl, rfl⟩⟩
  | writeRoot x range =>
    have hnote : note (γ.entries root) x ((γ.roots x <|> o.root x).getD ⟨f, range⟩) name =
        some d := by
      cases root <;> exact h
    refine (of_note hnote).imp_right ?_
    rintro ⟨hnone, rfl, hd⟩
    exact ⟨hnone, congrArg some hd, .inl rfl⟩

/-! ## Which names have entries -/

def SameNames (γ γ' : Ledger) : Prop :=
  ∀ root x, (γ.entries root x).isSome = (γ'.entries root x).isSome

theorem SameNames.book (h : SameNames γ γ') : SameNames (e.book o f γ) (e.book o' f' γ') := by
  intro root x
  have hx := h root x
  cases e with
  | read | load => exact hx
  | write name range binding =>
    cases binding <;> cases root <;> simp_all [Event.book, Ledger.entries, isSome_note]
  | writeRoot name range => cases root <;> simp_all [Event.book, Ledger.entries, isSome_note]

theorem SameNames.bookAll (h : SameNames γ γ') :
    SameNames (bookAll o f γ es) (bookAll o' f' γ' es) := by
  induction es generalizing γ γ' with
  | nil => exact h
  | cons e es ih => exact ih h.book

theorem isSome_globals_bookAll (h : ∀ x, (γ.roots x).isSome → (γ.globals x).isSome)
    (hx : ((bookAll o f γ es).roots x).isSome) : ((bookAll o f γ es).globals x).isSome := by
  induction es generalizing γ with
  | nil => exact h x hx
  | cons e es ih =>
    refine ih (fun y hy => ?_) hx
    cases e with
    | read | load => exact h y hy
    | write name range binding =>
      cases binding with
      | some d => exact h y hy
      | none =>
        simp only [Event.book, isSome_note, Bool.or_eq_true] at hy ⊢
        exact .inl (h y hy)
    | writeRoot name range =>
      simp only [Event.book, isSome_note, Bool.or_eq_true] at hy ⊢
      exact hy.imp_left (h y)

/-! ## A file seen alone -/

def alone (f : FileId) (es : List Event) : Ledger :=
  bookAll {} f {} es

theorem entries_eq_none_of_alone {root : Bool} (h : (alone f es).entries root name = none) :
    (bookAll o f {} es).entries root name = none := by
  have hsame : SameNames (bookAll o f {} es) (alone f es) := SameNames.bookAll (fun _ _ => rfl)
  rw [← Option.not_isSome_iff_eq_none, hsame, h]
  exact Bool.false_ne_true

theorem alone_roots_eq_none (h : (alone f es).globals name = none) :
    (alone f es).roots name = none := by
  rw [← Option.not_isSome_iff_eq_none]
  intro hroot
  have hglobal := isSome_globals_bookAll (fun _ hx => by cases hx) hroot
  rw [show bookAll {} f {} es = alone f es from rfl, h] at hglobal
  cases hglobal

theorem split_of_alone (root : Bool) (h : (alone f es).entries root name = some d) :
    ∃ before e after, es = before ++ e :: after ∧ (alone f before).entries root name = none ∧
      d = ⟨f, e.range⟩ ∧
      (e = .writeRoot name e.range ∨ root = false ∧ e = .write name e.range none) := by
  induction es using List.reverseRecOn with
  | nil => cases root <;> cases h
  | append_singleton es e ih =>
    rw [alone, bookAll_append] at h
    rcases of_book h with hold | ⟨hnone, hd, he⟩
    · obtain ⟨before, e', after, rfl, hnone, hd, he⟩ := ih hold
      exact ⟨before, e', after ++ [e], by simp, hnone, hd, he⟩
    · refine ⟨es, e, [], rfl, hnone, ?_, he⟩
      rcases he with he | ⟨rfl, he⟩
      · have hroots : (bookAll {} f {} es).roots name = none := by
          cases root
          · exact alone_roots_eq_none hnone
          · exact hnone
        rw [he, Event.declaration?, hroots] at hd
        exact (Option.some.inj hd).symm
      · rw [he, Event.declaration?, show (bookAll {} f {} es).globals name = none from hnone] at hd
        exact (Option.some.inj hd).symm

/-! ## Declarations of a file -/

/-- A declaration that a name of a file `f` may have: one of the other files, or a name among `seen`
that is declared where it stands. -/
def Declared (o : Abroad) (f : FileId) (seen : List (TextRange × DeclKey)) (d : DeclKey) : Prop :=
  (∃ name, o.global name = some d ∨ o.root name = some d) ∨ d.file = f ∧ (d.range, d) ∈ seen

variable {seen seen' : List (TextRange × DeclKey)}

theorem Declared.mono (h : Declared o f seen d) (hseen : ∀ p ∈ seen, p ∈ seen') :
    Declared o f seen' d :=
  h.imp_right fun ⟨hfile, hmem⟩ => ⟨hfile, hseen _ hmem⟩

/-- All entries of a ledger are declarations. -/
def Entered (o : Abroad) (f : FileId) (seen : List (TextRange × DeclKey)) (γ : Ledger) : Prop :=
  ∀ root x d, γ.entries root x = some d → Declared o f seen d

theorem Entered.declaration? (h : Entered o f seen γ) (hd : e.declaration? o f γ = some d) :
    Declared o f (seen ++ [(e.range, d)]) d := by
  have hold {d' : DeclKey} (hd' : Declared o f seen d') :
    Declared o f (seen ++ [(e.range, d)]) d' :=
    hd'.mono fun _ => mem_append_left _
  have hown : d = ⟨f, e.range⟩ → Declared o f (seen ++ [(e.range, d)]) d := by
    rintro rfl
    exact .inr ⟨rfl, mem_append_right _ mem_cons_self⟩
  cases e with
  | load call => cases hd
  | read x range binding exempt top =>
    cases binding with
    | some b => cases hd
    | none =>
      rcases (Option.orElse_eq_some _ _ _).1 hd with hd | ⟨-, hd⟩
      · exact hold (h false x _ hd)
      rcases (Option.orElse_eq_some _ _ _).1 hd with hd | ⟨-, hd⟩
      · exact .inl ⟨x, .inr hd⟩
      · exact .inl ⟨x, .inl hd⟩
  | write x range binding =>
    cases binding with
    | some b => cases hd
    | none =>
      rw [Event.declaration?, Option.some.injEq] at hd
      cases hknown : γ.globals x <|> o.global x with
      | none => exact hown (by rw [← hd, hknown]; rfl)
      | some k =>
        obtain rfl : k = d := by rw [← hd, hknown]; rfl
        rcases (Option.orElse_eq_some _ _ _).1 hknown with hk | ⟨-, hk⟩
        · exact hold (h false x _ hk)
        · exact .inl ⟨x, .inl hk⟩
  | writeRoot x range =>
    rw [Event.declaration?, Option.some.injEq] at hd
    cases hknown : γ.roots x <|> o.root x with
    | none => exact hown (by rw [← hd, hknown]; rfl)
    | some k =>
      obtain rfl : k = d := by rw [← hd, hknown]; rfl
      rcases (Option.orElse_eq_some _ _ _).1 hknown with hk | ⟨-, hk⟩
      · exact hold (h true x _ hk)
      · exact .inl ⟨x, .inr hk⟩

theorem Entered.book (h : Entered o f seen γ) :
    Entered o f (seen ++ (e.declaration? o f γ).toList.map (e.range, ·)) (e.book o f γ) := by
  intro root x d hd
  rcases of_book hd with hold | ⟨-, hd, -⟩
  · exact (h root x d hold).mono fun _ => mem_append_left _
  · rw [hd]
    exact h.declaration? hd

theorem Entered.resolved (h : Entered o f seen γ) (hd : (range, d) ∈ resolved o f γ es) :
    Declared o f (seen ++ resolved o f γ es) d := by
  induction es generalizing γ seen with
  | nil => cases hd
  | cons e es ih =>
    rw [Ledger.resolved, ← append_assoc]
    rcases mem_append.1 hd with hhere | hlater
    · obtain ⟨d', hd', heq⟩ := mem_map.1 hhere
      obtain rfl : d' = d := congrArg Prod.snd heq
      have hd' := Option.mem_toList.1 hd'
      rw [show e.declaration? o f γ = some d' from hd']
      exact (h.declaration? hd').mono fun _ => mem_append_left _
    · exact ih h.book hlater

end Ledger

/-! ## Declarations of a project -/

def Abroad.ofEvents (files : List FileId) (events : FileId → List Event) : Abroad where
  global name := files.findSome? fun g => (Ledger.alone g (events g)).globals name
  root name := files.findSome? fun g => (Ledger.alone g (events g)).roots name

namespace Abroad

open Ledger

variable {files : List FileId} {events : FileId → List Event} {name : String} {d : DeclKey}

theorem resolved_of_root (h : (ofEvents files events).root name = some d) :
    (d.range, d) ∈ resolved (ofEvents files events) d.file {} (events d.file) := by
  obtain ⟨-, g, -, -, hg, -⟩ := findSome?_eq_some_iff.1 h
  obtain ⟨before, e, after, hes, hnone, rfl, he⟩ := split_of_alone true hg
  rw [hes]
  refine mem_resolved_of_split ?_
  have hroots : (bookAll (ofEvents files events) g {} before).roots name = none :=
    entries_eq_none_of_alone hnone
  rw [he.resolve_right nofun, Event.declaration?, hroots, h]
  rfl

theorem resolved_of_global (h : (ofEvents files events).global name = some d) :
    (d.range, d) ∈ resolved (ofEvents files events) d.file {} (events d.file) := by
  obtain ⟨earlier, g, later, hfiles, hg, hearlier⟩ := findSome?_eq_some_iff.1 h
  obtain ⟨before, e, after, hes, hnone, rfl, he⟩ := split_of_alone false hg
  rcases he with he | ⟨-, he⟩
  · -- The first write goes through `_G`, so no file before has such a member either.
    have hroot : (ofEvents files events).root name = some ⟨g, e.range⟩ := by
      refine findSome?_eq_some_iff.2
        ⟨earlier, g, later, hfiles, ?_, fun x hx => alone_roots_eq_none (hearlier x hx)⟩
      rw [hes, alone, bookAll_append, bookAll, foldl_cons]
      have hroots : (bookAll {} g {} before).roots name = none := alone_roots_eq_none hnone
      refine roots_bookAll_of_some ?_
      rw [he, Event.book, hroots]
      exact note_self hroots
    exact resolved_of_root hroot
  · rw [hes]
    refine mem_resolved_of_split ?_
    have hglobals : (bookAll (ofEvents files events) g {} before).globals name = none :=
      entries_eq_none_of_alone hnone
    rw [he, Event.declaration?, hglobals, h]
    rfl

theorem resolved_declaration (h : (range, d) ∈ resolved (ofEvents files events) f {} (events f)) :
    (d.range, d) ∈ resolved (ofEvents files events) d.file {} (events d.file) := by
  have hempty : Entered (ofEvents files events) f [] {} :=
    fun root x d hd => by cases root <;> cases hd
  rcases hempty.resolved h with ⟨name, hglobal | hroot⟩ | ⟨rfl, hmem⟩
  · exact resolved_of_global hglobal
  · exact resolved_of_root hroot
  · exact hmem

end Abroad

end LuaAnalysis
