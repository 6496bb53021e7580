import LuaAnalysis.Proofs.Tree.Levels

/-!
# An expression that is written is read back

The other direction of the grammar, for expressions without functions: a level reads every
expression that is written with as many levels (`Level.Complete`), whatever follows, as long as it
cannot go on with the expression. The loops for suffixes and operators are the difficulty, since
they meet the parts of an expression from the left, before they know what the whole will be. So what
is proved of them is that it is enough if the loop goes on rightly with the part that was read
(`Pending`).
-/

namespace LuaAnalysis

open Bool List

/-! ## Trees without ranges -/

mutual

/-- The expression with every range empty. Functions are not entered. -/
def Exp.unranged : Exp → Exp
  | .nil _ => .nil {}
  | .bool _ b => .bool {} b
  | .vararg _ => .vararg {}
  | .number _ v => .number {} v
  | .string _ text => .string {} text
  | .name _ text => .name {} text
  | .function _ body => .function {} body
  | .table _ fields => .table {} (Field.unrangedList fields)
  | .index _ obj key dotted => .index {} obj.unranged key.unranged dotted
  | .call _ func args => .call {} func.unranged (Exp.unrangedList args)
  | .methodCall _ obj method args =>
    .methodCall {} obj.unranged ⟨method.text, {}⟩ (Exp.unrangedList args)
  | .binary _ op lhs rhs => .binary {} op lhs.unranged rhs.unranged
  | .unary _ op operand => .unary {} op operand.unranged
  | .paren _ inner => .paren {} inner.unranged

def Exp.unrangedList : List Exp → List Exp
  | [] => []
  | e :: es => e.unranged :: Exp.unrangedList es

def Field.unranged : Field → Field
  | .named key value => .named ⟨key.text, {}⟩ value.unranged
  | .keyed key value => .keyed key.unranged value.unranged
  | .positional value => .positional value.unranged

def Field.unrangedList : List Field → List Field
  | [] => []
  | f :: fs => f.unranged :: Field.unrangedList fs

end

attribute [simp] Exp.unranged Exp.unrangedList Field.unranged Field.unrangedList

mutual

def Exp.functionFree : Exp → Bool
  | .function .. => false
  | .table _ fields => Field.functionFreeList fields
  | .index _ obj key _ => obj.functionFree && key.functionFree
  | .call _ func args => func.functionFree && Exp.functionFreeList args
  | .methodCall _ obj _ args => obj.functionFree && Exp.functionFreeList args
  | .binary _ _ lhs rhs => lhs.functionFree && rhs.functionFree
  | .unary _ _ operand => operand.functionFree
  | .paren _ inner => inner.functionFree
  | _ => true

def Exp.functionFreeList : List Exp → Bool
  | [] => true
  | e :: es => e.functionFree && Exp.functionFreeList es

def Field.functionFree : Field → Bool
  | .named _ value => value.functionFree
  | .keyed key value => key.functionFree && value.functionFree
  | .positional value => value.functionFree

def Field.functionFreeList : List Field → Bool
  | [] => true
  | f :: fs => f.functionFree && Field.functionFreeList fs

end

attribute [simp] Exp.functionFree Exp.functionFreeList Field.functionFree Field.functionFreeList

/-! ## First and following tokens -/

namespace TokenKind

def startsSuffix : TokenKind → Bool
  | .symbol .dot | .symbol .lbracket | .symbol .colon | .symbol .lparen | .symbol
      .lbrace | .string _ => true
  | _ => false

def continuesExp (k : TokenKind) : Bool :=
  k.startsSuffix || (Parser.binaryOp? k).isSome

def startsExp : TokenKind → Bool
  | .name _ | .string _ | .number _ => true
  | .keyword k => k == .kNil || k == .kTrue || k == .kFalse || k == .kFunction || k == .kNot
  | .symbol s =>
    s == .ellipsis || s == .minus || s == .hash || s == .tilde || s == .lparen || s == .lbrace

end TokenKind

theorem UnOp.startsExp_token (op : UnOp) : op.token.startsExp = true := by
  cases op <;> rfl

/-- The tokens begin like an expression. If they begin with a name, no `=` follows, so they are not
taken for a field with a name. -/
structure StartsExp (ts : List TokenKind) : Prop where
  head : ∃ k, ts.head? = some k ∧ k.startsExp = true
  second : ∀ text, ts.head? = some (.name text) → ts[1]? ≠ some (.symbol .assign)

variable {ts : List TokenKind} {args : List Exp} {e : Exp}
variable {k : TokenKind} {n limit : Nat} {rest : List TokenKind} {es : List Exp} {r : TextRange}
  {Q : Exp → Prop}
variable {rounds : Nat}

namespace StartsExp

theorem single (h : k.startsExp = true) : StartsExp [k] :=
  ⟨⟨k, rfl, h⟩, fun _ _ => by simp⟩

theorem of_head (h : k.startsExp = true) (hname : ∀ text, k ≠ .name text) : StartsExp (k :: ts) :=
  ⟨⟨k, rfl, h⟩, fun text htext => (hname text (Option.some.inj htext)).elim⟩

variable {us : List TokenKind}

theorem append (h : StartsExp ts) (hus : us.head? ≠ some (.symbol .assign)) :
    StartsExp (ts ++ us) := by
  obtain ⟨⟨k, hk, hstarts⟩, hsecond⟩ := h
  match ts, hk with
  | [_], rfl => exact ⟨⟨k, rfl, hstarts⟩, fun _ _ => by simpa [head?_eq_getElem?] using hus⟩
  | _ :: _ :: _, rfl => exact ⟨⟨k, rfl, hstarts⟩, hsecond⟩

theorem head?_ne (h : StartsExp ts) (hk : k.startsExp = false) : (ts ++ us).head? ≠ some k := by
  obtain ⟨k', hk', hstarts⟩ := h.head
  rw [head?_append, hk']
  rintro ⟨⟩
  rw [hk] at hstarts
  cases hstarts

end StartsExp

theorem Exp.ArgsWritten.head?_ne_assign (h : Exp.ArgsWritten n args ts) :
    ts.head? ≠ some (.symbol .assign) := by
  cases h <;> simp

theorem Exp.ArgsWritten.head (h : Exp.ArgsWritten n args ts) :
    ∃ k us, ts = k :: us ∧
      (k = .symbol .lparen ∨ k = .symbol .lbrace ∨ ∃ text, k = .string text) := by
  cases h with
  | none => exact ⟨_, _, rfl, .inl rfl⟩
  | list => exact ⟨_, _, rfl, .inl rfl⟩
  | string => exact ⟨_, _, rfl, .inr (.inr ⟨_, rfl⟩)⟩
  | table => exact ⟨_, _, rfl, .inr (.inl rfl)⟩

theorem Exp.Written.starts : ∀ {n : Nat} {e : Exp} {ts : List TokenKind}, e.Written n ts →
    StartsExp ts
  | _, _, _, .nil | _, _, _, .vararg | _, _, _, .number | _, _, _, .string | _, _, _, .name =>
    .single rfl
  | _, _, _, .bool (b := b) => .single (by cases b <;> rfl)
  | _, _, _, .function _ | _, _, _, .table _ | _, _, _, .paren _ => .of_head rfl nofun
  | _, _, _, @Exp.Written.unary _ _ _ _ op _ _ =>
    .of_head op.startsExp_token (by cases op <;> exact nofun)
  | _, _, _, .member hobj _ => hobj.starts.append (by simp)
  | _, _, _, .index hobj _ _ => by simpa using hobj.starts.append (by simp)
  | _, _, _, .call hfunc _ hargs => hfunc.starts.append hargs.head?_ne_assign
  | _, _, _, .methodCall hobj _ _ => hobj.starts.append (by simp)
  | _, _, _, @Exp.Written.binary _ _ _ _ _ _ op hlhs _ _ _ =>
    hlhs.starts.append (by cases op <;> simp [BinOp.token])

theorem Field.Written.head?_ne_rbrace {f : Field} (hw : f.Written n ts) :
    (ts ++ rest).head? ≠ some (.symbol .rbrace) := by
  cases hw with
  | named => simp [Name.token]
  | keyed => simp
  | positional hvalue => exact hvalue.starts.head?_ne rfl

theorem Exp.ListWritten.head?_ne_rparen (hw : Exp.ListWritten n es ts) :
    (ts ++ rest).head? ≠ some (.symbol .rparen) := by
  cases hw with
  | one he => exact he.starts.head?_ne rfl
  | more he _ =>
    rw [append_assoc]
    exact he.starts.head?_ne rfl

theorem Exp.Written.head_of_takesSuffix : ∀ {ts : List TokenKind} (e : Exp), e.Written (n + 1) ts →
    e.takesSuffix = true → ∃ k us, ts = k :: us ∧ (k = .symbol .lparen ∨ ∃ text, k = .name text)
  | _, .name .., .name, _ => ⟨_, _, rfl, .inr ⟨_, rfl⟩⟩
  | _, .paren .., .paren _, _ => ⟨_, _, rfl, .inl rfl⟩
  | _, .index _ obj _ _, .member hobj hsuffix, _ | _, .index _ obj _ _, .index hobj hsuffix _, _
  | _, .call _ obj _, .call hobj hsuffix _, _ | _, .methodCall _ obj _ _,
      .methodCall hobj hsuffix _, _ => by
    obtain ⟨k, us, rfl, hk⟩ := head_of_takesSuffix obj hobj hsuffix
    exact ⟨k, _, rfl, hk⟩

namespace Parser

variable {below : Level} {n : Nat} {ts us rest : List TokenKind}

def EndsExp (rest : List TokenKind) : Prop :=
  ∀ k, rest.head? = some k → k.continuesExp = false

def EndsSuffixes (rest : List TokenKind) : Prop :=
  ∀ k, rest.head? = some k → k.startsSuffix = false

theorem EndsExp.of_head (h : k.continuesExp = false) : EndsExp (k :: rest) := by
  rintro _ ⟨⟩
  exact h

theorem EndsExp.endsSuffixes (h : EndsExp rest) : EndsSuffixes rest := by
  intro k hk
  have := h k hk
  simp only [TokenKind.continuesExp, or_eq_false_iff] at this
  exact this.1

theorem EndsExp.nextOp?_eq_none (h : EndsExp rest) : nextOp? rest = none := by
  unfold nextOp?
  cases hk : rest.head? with
  | none => rfl
  | some k =>
    have := h k hk
    simp only [TokenKind.continuesExp, or_eq_false_iff, Option.isSome_eq_false_iff,
      Option.isNone_iff_eq_none] at this
    exact this.2

theorem leftPriority_pos {op : BinOp} : 0 < op.leftPriority := by
  cases op <;> decide

theorem EndsExp.delimited (h : EndsExp rest) : Delimited 0 e rest where
  root op _ := leftPriority_pos
  next op hop := by rw [h.nextOp?_eq_none] at hop; cases hop
  edge op hop := by rw [h.nextOp?_eq_none] at hop; cases hop

/-- Every expression that is written with `n` levels is read. -/
def Level.Complete (below : Level) (n : Nat) : Prop :=
  ∀ ⦃limit : Nat⦄ ⦃e : Exp⦄ ⦃ts rest : List TokenKind⦄, e.Written n ts → e.functionFree = true →
    Delimited limit e rest →
    EndsSuffixes rest → Consumes (below.exp limit) ts rest (·.unranged = e.unranged)

theorem Level.Complete.anyExp (hb : below.Complete n) (hw : e.Written n ts)
    (hf : e.functionFree = true) (hrest : EndsExp rest) :
    Consumes below.anyExp ts rest (·.unranged = e.unranged) :=
  hb hw hf hrest.delimited hrest.endsSuffixes

/-! ## Lists of expressions -/

theorem consumes_moreItems_stop {item : Parser α} {separator : Symbol}
    (h : rest.head? ≠ some (.symbol separator)) :
    Consumes (moreItems separator item rounds) [] rest (· = []) := by
  cases rounds with
  | zero => exact .pure rfl
  | succ rounds => exact .eat_other h (.pure rfl)

section

variable (hb : below.Complete n)
include hb

theorem moreItems_complete (hw : Exp.ListWritten n es ts) (hf : Exp.functionFreeList es = true)
    (hrest : EndsExp rest) (hcomma : rest.head? ≠ some (.symbol .comma)) (rounds : Nat)
    (hrounds : ts.length < rounds) :
    Consumes (moreItems .comma below.anyExp rounds) (.symbol .comma :: ts) rest
      (Exp.unrangedList · = Exp.unrangedList es) := by
  induction es generalizing ts rounds with
  | nil => cases hw
  | cons e es ih =>
    obtain ⟨rounds, rfl⟩ : ∃ k, rounds = k + 1 := ⟨rounds - 1, by omega⟩
    simp only [Exp.functionFreeList, and_eq_true] at hf
    refine .eat ?_
    cases hw with
    | one he =>
      refine .bind_rest (hb.anyExp he hf.1 hrest) fun e' he' => ?_
      exact .give (consumes_moreItems_stop hcomma) fun _ hes' => by simp [he', hes']
    | more he hes =>
      refine .bind (hb.anyExp he hf.1 (.of_head rfl)) fun e' he' => ?_
      refine .give (ih hes hf.2 rounds ?_) fun es' hes' => by simp [he', hes']
      simp only [length_append, length_cons] at hrounds
      omega

theorem expList_complete (hw : Exp.ListWritten n es ts) (hf : Exp.functionFreeList es = true)
    (hrest : EndsExp rest) (hcomma : rest.head? ≠ some (.symbol .comma)) :
    Consumes below.expList ts rest (Exp.unrangedList · = Exp.unrangedList es) := by
  cases hw with
  | one he =>
    simp only [Exp.functionFreeList, Bool.and_true] at hf
    refine .bind_rest (hb.anyExp he hf hrest) fun e' he' => .remaining ?_
    exact .give (consumes_moreItems_stop hcomma) fun _ hes' => by simp [he', hes']
  | more he hes =>
    simp only [Exp.functionFreeList, Bool.and_eq_true] at hf
    refine .bind (hb.anyExp he hf.1 (.of_head rfl)) fun e' he' => .remaining ?_
    refine .give (moreItems_complete hb hes hf.2 hrest hcomma _ ?_)
      fun es' hes' => by simp [he', hes']
    simp only [length_append, length_cons]
    omega

/-! ## Tables -/

theorem field_complete {f : Field} (hw : f.Written n ts) (hf : f.functionFree = true)
    (hrest : EndsExp rest) (hassign : rest.head? ≠ some (.symbol .assign)) :
    Consumes (field below) ts rest (·.unranged = f.unranged) := by
  refine .peek (.peekSecond ?_)
  cases hw with
  | named hvalue =>
    refine .name fun r => .advance (.give (hb.anyExp hvalue hf hrest) fun value' hvalue' => ?_)
    simp [hvalue']
  | keyed hkey hvalue =>
    simp only [Field.functionFree, and_eq_true] at hf
    refine .advance
      (.bind (hb.anyExp hkey hf.1 (.of_head rfl)) fun key' hkey' => .expect (.expect ?_))
    exact .give (hb.anyExp hvalue hf.2 hrest) fun value' hvalue' => by simp [hkey', hvalue']
  | positional hvalue =>
    obtain ⟨⟨k, hk, hk'⟩, hsecond⟩ := hvalue.starts.append hassign
    split
    · rename_i text hname hassign
      exact (hsecond text hname hassign).elim
    · rename_i hbracket
      cases hk.symm.trans hbracket
      cases hk'
    · exact .give (hb.anyExp hvalue hf hrest) fun value' hvalue' => by simp [hvalue']

variable {fs : List Field}

theorem fields_complete (hw : Field.ListWritten n fs ts) (hf : Field.functionFreeList fs = true)
    (rounds : Nat) (hrounds : ts.length < rounds) :
    Consumes (fields below rounds) ts (.symbol .rbrace :: rest)
      (Field.unrangedList · = Field.unrangedList fs) := by
  induction fs generalizing ts rounds with
  | nil =>
    cases hw
    obtain ⟨rounds, rfl⟩ : ∃ k, rounds = k + 1 := ⟨rounds - 1, by omega⟩
    exact .peek (.pure rfl)
  | cons f fs ih =>
    obtain ⟨rounds, rfl⟩ : ∃ k, rounds = k + 1 := ⟨rounds - 1, by omega⟩
    simp only [Field.functionFreeList, and_eq_true] at hf
    refine .peek ?_
    cases hw with
    | last hw =>
      rw [if_neg (mt beq_iff_eq.1 hw.head?_ne_rbrace)]
      refine .bind_rest (field_complete hb hw hf.1 (.of_head rfl) (by simp)) fun f' hf' => ?_
      exact .eat_other (by simp) (.eat_other (by simp) (.pure (by simp [hf'])))
    | @more _ _ ts separator _ us hw hsep hws =>
      rw [append_assoc, if_neg (mt beq_iff_eq.1 hw.head?_ne_rbrace)]
      have hends : EndsExp (.symbol separator :: us ++ .symbol .rbrace :: rest) :=
        .of_head (by rcases hsep with rfl | rfl <;> rfl)
      have hassign : (TokenKind.symbol separator :: us ++ .symbol .rbrace :: rest).head? ≠
          some (.symbol .assign) := by
        rcases hsep with rfl | rfl <;> simp
      have hlength : us.length < rounds := by
        simp only [length_append, length_cons] at hrounds
        omega
      refine .bind (field_complete hb hw hf.1 hends hassign) fun f' hf' => ?_
      have hmore : Consumes (do return f' :: (← fields below rounds)) us (.symbol .rbrace :: rest)
          (Field.unrangedList · = Field.unrangedList (f :: fs)) :=
        .give (ih hws hf.2 rounds hlength) fun fs' hfs' => by simp [hf', hfs']
      rcases hsep with rfl | rfl
      · exact .eat hmore
      · exact .eat_other (by simp) (.eat hmore)

theorem table_complete (hw : Field.ListWritten n fs ts) (hf : Field.functionFreeList fs = true) :
    Consumes (table below) (.symbol .lbrace :: ts ++ [.symbol .rbrace]) rest
      (·.unranged = (Exp.table r fs).unranged) := by
  refine .here fun start =>
    .expect (.remaining (.bind (fields_complete hb hw hf _ ?_) fun fs' hfs' => ?_))
  · simp only [append_eq, length_append]
    omega
  · exact .expectClose (.last fun stop => .pure (by simp [hfs']))

/-! ## Calls and indexings -/

theorem arguments_complete (hw : Exp.ArgsWritten n args ts)
    (hf : Exp.functionFreeList args = true) :
    Consumes (arguments below) ts rest (Exp.unrangedList · = Exp.unrangedList args) := by
  refine .here fun start => .peek ?_
  cases hw with
  | none =>
    refine .advance (.peek ?_)
    simp only [cons_append, head?_cons, BEq.rfl, if_true, pure_bind]
    exact .expectClose (.pure rfl)
  | list hw =>
    refine .advance (.peek ?_)
    dsimp only
    rw [append_eq, append_assoc, if_neg (mt beq_iff_eq.1 hw.head?_ne_rparen)]
    exact .bind (expList_complete hb hw hf (.of_head rfl) (by simp)) fun args' hargs' =>
      .expectClose (.pure hargs')
  | string => exact .advance (.pure rfl)
  | table hw =>
    simp only [Exp.functionFreeList, Exp.functionFree, Bool.and_true] at hf
    exact .give (table_complete (r := {}) hb hw hf) fun e' he' => by simp [he']

end

theorem consumes_suffixes_stop (h : EndsSuffixes rest) :
    Consumes (suffixes below rounds e) [] rest (· = e) := by
  cases rounds with
  | zero => exact .pure rfl
  | succ rounds =>
    refine .peek ?_
    split
    case h_7 => exact .pure rfl
    all_goals
      rename_i hk
      exact absurd (h _ hk) (by simp [TokenKind.startsSuffix])

def Pending (loop : Nat → Exp → Parser Exp) (e : Exp) (ts rest : List TokenKind)
    (Q : Exp → Prop) : Prop :=
  ∀ e' rounds, e'.unranged = e.unranged → (ts ++ rest).length ≤ rounds →
    Consumes (loop rounds e') ts rest Q

section Suffixes

variable {obj : Exp} {r r' : TextRange} {Q : Exp → Prop}

theorem Pending.succ {loop : Nat → Exp → Parser Exp}
    (h : ∀ e' rounds, e'.unranged = e.unranged → (ts ++ rest).length ≤ rounds →
      Consumes (loop (rounds + 1) e') (k :: ts) rest Q) : Pending loop e (k :: ts) rest Q
  | _, 0, _, hrounds => absurd hrounds (Nat.not_succ_le_zero _)
  | e', rounds + 1, he', hrounds => h e' rounds he' (Nat.le_of_succ_le_succ hrounds)

theorem Pending.member {key : String}
    (hp : Pending (suffixes below) (.index r obj (.string r' key) true) ts rest Q) :
    Pending (suffixes below) obj (.symbol .dot :: .name key :: ts) rest Q := by
  refine .succ fun obj' rounds hobj' hrounds =>
    .peek (.advance (.name fun range => hp _ rounds ?_ ?_))
  · simp [hobj']
  · simp only [cons_append, length_cons] at hrounds
    omega

theorem Pending.index (hb : below.Complete n) {key : Exp} (hkey : key.Written n us)
    (hf : key.functionFree = true)
    (hp : Pending (suffixes below) (.index r obj key false) ts rest Q) :
    Pending (suffixes below) obj (.symbol .lbracket :: us ++ .symbol .rbracket :: ts) rest Q := by
  refine .succ fun obj' rounds hobj' hrounds => .peek (.advance ?_)
  refine .bind (hb.anyExp hkey hf (.of_head rfl)) fun key' hkey' =>
    .expect (.last fun range => hp _ rounds ?_ ?_)
  · simp [hobj', hkey']
  · simp only [append_eq, length_append, length_cons] at hrounds ⊢
    omega

theorem Pending.methodCall (hb : below.Complete n) {method : Name}
    (hargs : Exp.ArgsWritten n args us) (hf : Exp.functionFreeList args = true)
    (hp : Pending (suffixes below) (.methodCall r obj method args) ts rest Q) :
    Pending (suffixes below) obj (.symbol .colon :: method.token :: us ++ ts) rest Q := by
  refine .succ fun obj' rounds hobj' hrounds => .peek (.advance (.name fun range => ?_))
  refine .bind (arguments_complete hb hargs hf) fun args' hargs' => .last fun range =>
    hp _ rounds ?_ ?_
  · simp [hobj', hargs']
  · simp only [append_eq, length_append, length_cons] at hrounds ⊢
    omega

theorem Pending.call (hb : below.Complete n) (hargs : Exp.ArgsWritten n args us)
    (hf : Exp.functionFreeList args = true)
    (hp : Pending (suffixes below) (.call r obj args) ts rest Q) :
    Pending (suffixes below) obj (us ++ ts) rest Q := by
  obtain ⟨k, vs, rfl, hk⟩ := hargs.head
  refine .succ fun obj' rounds hobj' hrounds => .peek ?_
  have hcall : Consumes (do
      let args ← arguments below
      suffixes below rounds (.call (obj'.range.cover (← last)) obj' args))
      (k :: vs ++ ts) rest Q := by
    refine .bind (arguments_complete hb hargs hf) fun args' hargs' => .last fun range =>
      hp _ rounds ?_ ?_
    · simp [hobj', hargs']
    · simp only [append_eq, length_append] at hrounds ⊢
      omega
  rcases hk with rfl | rfl | ⟨text, rfl⟩ <;> exact hcall

end Suffixes

theorem suffixed_complete (hb : below.Complete n) : ∀ {ts us rest : List TokenKind} (e : Exp),
    e.Written (n + 1) ts → e.functionFree = true → e.takesSuffix = true →
    Pending (suffixes below) e us rest Q →
    Consumes (suffixed below) (ts ++ us) rest Q
  | _, _, _, .name _ text, .name, _, _, hp =>
    .bind (R := (·.unranged = .name {} text)) (.here fun start => .peek (.advance (.pure rfl)))
      fun e' he' => .remaining (hp e' _ he' (Nat.le_refl _))
  | _, _, _, .paren _ inner, .paren hinner, hf, _, hp => by
    refine .bind (R := (·.unranged = .paren {} inner.unranged))
      (.here fun start => .peek (.advance ?_))
      fun e' he' => .remaining (hp e' _ he' (Nat.le_refl _))
    exact .bind (hb.anyExp hinner hf (.of_head rfl)) fun inner' hinner' =>
      .expectClose (.last fun stop => .pure (by simp [hinner']))
  | _, _, _, .index r obj _ true, .member hobj hsuffix, hf, _, hp => by
    simp only [Exp.functionFree, and_eq_true] at hf
    rw [append_assoc]
    exact suffixed_complete hb obj hobj hf.1 hsuffix hp.member
  | _, _, _, .index r obj key false, .index hobj hsuffix hkey, hf, _, hp => by
    simp only [Exp.functionFree, and_eq_true] at hf
    simpa using suffixed_complete hb obj hobj hf.1 hsuffix (hp.index hb hkey hf.2)
  | _, _, _, .call r func args, .call hfunc hsuffix hargs, hf, _, hp => by
    simp only [Exp.functionFree, and_eq_true] at hf
    rw [append_assoc]
    exact suffixed_complete hb func hfunc hf.1 hsuffix (hp.call hb hargs hf.2)
  | _, _, _, .methodCall r obj method args, .methodCall hobj hsuffix hargs, hf, _, hp => by
    simp only [Exp.functionFree, and_eq_true] at hf
    rw [append_assoc]
    exact suffixed_complete hb obj hobj hf.1 hsuffix (hp.methodCall hb hargs hf.2)

/-! ## Operators -/

theorem consumes_operators_stop (h : ∀ op, nextOp? rest = some op → op.leftPriority ≤ limit) :
    Consumes (operators below limit rounds e) [] rest (· = e) := by
  cases rounds with
  | zero => exact .pure rfl
  | succ rounds =>
    refine .peek ?_
    split
    · exact .pure rfl
    · rename_i op hop
      rw [if_pos (h op hop)]
      exact .pure rfl

theorem operand_unary (hb : below.Complete n) {op : UnOp} (he : e.Written n ts)
    (hf : e.functionFree = true) (hpow : ∀ op', e.rootOp? = some op' → op' = .pow)
    (hedge : ∀ op', nextOp? rest = some op' →
      ∀ p ∈ UnOp.priority :: e.rightLimits, op'.leftPriority ≤ p)
    (hrest : EndsSuffixes rest) :
    Consumes (operand below) (op.token :: ts) rest (·.unranged = (Exp.unary r op e).unranged) := by
  have hop : ((op.token :: ts ++ rest).head?.bind unaryOp?) = some op := unaryOp?_eq_some.2 rfl
  have hdelim : Delimited UnOp.priority e rest :=
    ⟨fun op' hop' => by rw [hpow op' hop']; decide, fun op' hop' => hedge op' hop' _ mem_cons_self,
      fun op' hop' p hp => hedge op' hop' p (mem_cons_of_mem _ hp)⟩
  refine .here fun start => .peek ?_
  rw [hop]
  exact .advance (.give (hb he hf hdelim hrest) fun e' he' => by simp [he'])

theorem operand_suffixed (hb : below.Complete n) (hw : e.Written (n + 1) ts)
    (hf : e.functionFree = true) (hsuffix : e.takesSuffix = true) (hrest : EndsSuffixes rest) :
    Consumes (operand below) ts rest (·.unranged = e.unranged) := by
  have hread : Consumes (suffixed below) (ts ++ []) rest (·.unranged = e.unranged) :=
    suffixed_complete hb e hw hf hsuffix fun e' rounds he' _ =>
      (consumes_suffixes_stop hrest).imp fun _ heq => heq ▸ he'
  rw [append_nil] at hread
  obtain ⟨k, us, rfl, hk⟩ := Exp.Written.head_of_takesSuffix e hw hsuffix
  refine .here fun start => .peek ?_
  rcases hk with rfl | ⟨text, rfl⟩ <;> exact .here fun start => .peek hread

theorem operand_complete (hb : below.Complete n) (hw : e.Written (n + 1) ts)
    (hf : e.functionFree = true) (hroot : e.rootOp? = none)
    (hedge : ∀ op, nextOp? rest = some op → ∀ p ∈ e.rightLimits, op.leftPriority ≤ p)
    (hrest : EndsSuffixes rest) : Consumes (operand below) ts rest (·.unranged = e.unranged) := by
  by_cases hsuffix : e.takesSuffix = true
  · exact operand_suffixed hb hw hf hsuffix hrest
  cases hw with
  | name | paren | member | index | call | methodCall => exact (hsuffix rfl).elim
  | function => cases hf
  | binary => cases hroot
  | unary he hpow => exact operand_unary hb he hf hpow hedge hrest
  | table hfs => exact .here fun _ => .peek (.here fun _ => .peek (table_complete hb hfs hf))
  | @bool _ _ b =>
    cases b <;> exact .here fun _ => .peek (.here fun _ => .peek (.advance (.pure rfl)))
  | nil | vararg | number | string =>
    exact .here fun _ => .peek (.here fun _ => .peek (.advance (.pure rfl)))

theorem rightPriority_le_leftPriority (op : BinOp) : op.rightPriority ≤ op.leftPriority := by
  cases op <;> decide

theorem Pending.binary (hb : below.Complete n) {op : BinOp} {lhs rhs : Exp}
    (hrhs : rhs.Written n us) (hf : rhs.functionFree = true) (hlimit : limit < op.leftPriority)
    (hdelim : Delimited op.rightPriority rhs (ts ++ rest)) (hrest : EndsSuffixes (ts ++ rest))
    (hp : Pending (operators below limit) (.binary r op lhs rhs) ts rest Q) :
    Pending (operators below limit) lhs (op.token :: us ++ ts) rest Q := by
  refine .succ fun lhs' rounds hlhs' hrounds => .peek ?_
  have hnext : binaryOp? op.token = some op := binaryOp?_eq_some.2 rfl
  simp only [cons_append, head?_cons, Option.bind_some, hnext, if_neg (Nat.not_le.2 hlimit)]
  refine .advance (.bind (hb hrhs hf hdelim hrest) fun rhs' hrhs' => hp _ rounds ?_ ?_)
  · simp [hlhs', hrhs']
  · simp only [append_eq, length_append] at hrounds ⊢
    omega

/-- The tokens of an expression are read up to its last operand, and the loop goes on from there.
The induction goes down the left edge: each operator there finds its left operand pending, since no
operator on the right edge of that operand is weaker. -/
theorem subExp_complete (hb : below.Complete n) (hw : e.Written (n + 1) ts)
    (hf : e.functionFree = true) (hroot : ∀ op, e.rootOp? = some op → limit < op.leftPriority)
    (hedge : ∀ op, nextOp? (us ++ rest) = some op → ∀ p ∈ e.rightLimits, op.leftPriority ≤ p)
    (hrest : EndsSuffixes (us ++ rest)) (hp : Pending (operators below limit) e us rest Q) :
    Consumes (subExp below limit) (ts ++ us) rest Q := by
  induction hlength : ts.length using Nat.strongRecOn generalizing e ts us with
  | _ length ih =>
    subst hlength
    cases hop : e.rootOp? with
    | none =>
      exact .bind (operand_complete hb hw hf hop hedge hrest) fun e' he' =>
        .remaining (hp e' _ he' (Nat.le_refl _))
    | some op =>
      cases hw with
      | @binary _ lhs vs rhs ws r op' hlhs hrhs hleft hright =>
        obtain rfl : op' = op := Option.some.inj hop
        simp only [Exp.functionFree, and_eq_true] at hf
        have hlimit : limit < op'.leftPriority := hroot op' hop
        have hroot' : ∀ op, lhs.rootOp? = some op → limit < op.leftPriority := by
          intro op hop
          have := hleft _ (Exp.rightPriority_mem_rightLimits hop)
          have := rightPriority_le_leftPriority op
          omega
        have hedge' : ∀ op, nextOp? (op'.token :: ws ++ us ++ rest) = some op →
            ∀ p ∈ lhs.rightLimits, op.leftPriority ≤ p := by
          intro op hop
          obtain rfl : op' = op := Option.some.inj ((binaryOp?_eq_some.2 rfl).symm.trans hop)
          exact hleft
        have hsuffix : EndsSuffixes (op'.token :: ws ++ us ++ rest) := by
          rintro _ ⟨⟩
          cases op' <;> rfl
        have hdelim : Delimited op'.rightPriority rhs (us ++ rest) :=
          ⟨hright, fun op hop => hedge op hop _ mem_cons_self,
            fun op hop p hp => hedge op hop p (mem_cons_of_mem _ hp)⟩
        rw [append_assoc]
        exact ih vs.length (by simp) hlhs hf.1 hroot' hedge' hsuffix
          (hp.binary hb hrhs hf.2 hlimit hdelim hrest) rfl
      | _ => cases hop

theorem levels_complete : (levels n).Complete n := by
  induction n with
  | zero => intro limit e ts rest hw; cases hw
  | succ n ih =>
    intro limit e ts rest hw hf hdelim hrest
    have hread : Consumes (subExp (levels n) limit) (ts ++ []) rest (·.unranged = e.unranged) :=
      subExp_complete ih hw hf hdelim.root hdelim.edge hrest fun e' rounds he' _ =>
        (consumes_operators_stop hdelim.next).imp fun _ heq => heq ▸ he'
    rwa [append_nil] at hread

/-- Reading inverts writing: on the tokens of an expression without functions, followed by a token
that cannot go on with an expression or by nothing, a sub-expression with any operator is that
expression, ranges aside, and exactly those tokens are taken. Reading that counts the open levels,
from any number of them on and with any limit that leaves room for those of the expression, gives
the same and ends with the counter where it was. -/
theorem exp_of_written (n : Nat) (e : Exp) (ts rest : List TokenKind) (s : TokenStream)
    (hw : e.Written n ts) (hf : e.functionFree = true) (hs : s.kinds = ts ++ rest)
    (hrest : ∀ k, rest.head? = some k → k.continuesExp = false) :
    ∃ e', e'.unranged = e.unranged ∧ ((levels n).exp 0).run s = .ok (e', s.skip ts.length) ∧
      ∀ depth more, ((countedLevels (more + n + 1)).exp 0 s depth).upTo (n + depth) =
        .ok (some ((e', s.skip ts.length), depth)) := by
  obtain ⟨e', he', hread⟩ := levels_complete.anyExp hw hf hrest s hs
  exact ⟨e', he', hread, fun depth more => countedLevels_exp hread⟩

/-- The expression `a.b[1] .. -f{x = 2} ^ y`. -/
def sampleExp : Exp :=
  .binary {} .concat
    (.index {} (.index {} (.name {} "a") (.string {} "b") true) (.number {} ⟨1, false⟩) false)
    (.unary {} .neg (.binary {} .pow
      (.call {} (.name {} "f") [.table {} [.named ⟨"x", {}⟩ (.number {} ⟨2, false⟩)]])
      (.name {} "y")))

def sampleTokens : List TokenKind :=
  [.name "a", .symbol .dot, .name "b", .symbol .lbracket, .number ⟨1, false⟩, .symbol .rbracket,
    .symbol .concat, .symbol .minus, .name "f", .symbol .lbrace, .name "x", .symbol .assign,
    .number ⟨2, false⟩, .symbol .rbrace, .symbol .caret, .name "y"]

def sampleStream : TokenStream :=
  { tokens := (sampleTokens ++ [TokenKind.symbol .comma]).map (Token.mk · {}), stop := {} }

theorem sampleExp_written : sampleExp.Written 4 sampleTokens :=
  have hlhs : Exp.Written 4
      (.index {} (.index {} (.name {} "a") (.string {} "b") true) (.number {} ⟨1, false⟩) false)
      _ :=
    .index (.member .name rfl) rfl .number
  have hcall : Exp.Written 2
    (.call {} (.name {} "f") [.table {} [.named ⟨"x", {}⟩ (.number {} ⟨2, false⟩)]]) _ :=
    .call .name rfl (.table (.last (.named .number)))
  have hpow : Exp.Written 2 (.binary {} .pow
      (.call {} (.name {} "f") [.table {} [.named ⟨"x", {}⟩ (.number {} ⟨2, false⟩)]])
      (.name {} "y")) _ :=
    .binary hcall .name (by simp [Exp.rightLimits]) (by simp [Exp.rootOp?])
  .binary hlhs (.unary hpow (by simp [Exp.rootOp?])) (by simp [Exp.rightLimits])
    (by simp [Exp.rootOp?])

theorem exp_of_written_sampleExp :
    sampleExp.functionFree = true ∧ sampleStream.kinds = sampleTokens ++ [.symbol .comma] ∧
      ∃ e', e'.unranged = sampleExp.unranged ∧
        ((levels 4).exp 0).run sampleStream = .ok (e', sampleStream.skip 16) ∧
        ∀ depth more, ((countedLevels (more + 4 + 1)).exp 0 sampleStream depth).upTo (4 + depth) =
          .ok (some ((e', sampleStream.skip 16), depth)) :=
  ⟨rfl, rfl, exp_of_written 4 sampleExp sampleTokens
    [.symbol .comma] sampleStream sampleExp_written rfl rfl
    (by rintro _ ⟨⟩; rfl)⟩

end Parser

end LuaAnalysis
