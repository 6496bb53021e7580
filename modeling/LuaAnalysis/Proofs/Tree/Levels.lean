import LuaAnalysis.Proofs.Tree.Reader
import Mathlib.Logic.Basic

/-!
# Levels

The readers of a tree run in any monad that can refuse tokens. What the limit on levels does is
therefore a matter of the monads in which the same readers run. A translation between monads that
keeps sequences and refusals takes every reader to itself, whatever levels lie below it
(`Translation`). Reading with a counter of the open levels and reading with a limit are both
translations of reading that knows how many levels stand around it (`Inside`): the first one says
that the counter comes back to where it was (`balanced_reader`), and both together that the limit
only rejects (`limit_only_rejects`).
-/

namespace LuaAnalysis.Parser

/-! ## Translations -/

structure Translation (m m' : Type → Type) [Monad m] [MonadExceptOf SyntaxError m] [Monad m']
    [MonadExceptOf SyntaxError m'] where
  apply {α : Type} : m α → m' α
  pure {α : Type} (a : α) : apply (pure a) = Pure.pure a
  bind {α β : Type} (x : m α) (f : α → m β) : apply (x >>= f) = apply x >>= fun a => apply (f a)
  throw {α : Type} (e : SyntaxError) : apply (throwThe SyntaxError e : m α) = throwThe SyntaxError e

namespace Translation

variable {m m' : Type → Type} [Monad m] [MonadExceptOf SyntaxError m] [Monad m']
  [MonadExceptOf SyntaxError m']
variable (φ : Translation m m') {α β : Type}

def reader (p : ParserT m α) : ParserT m' α :=
  fun s => φ.apply (p s)

def level (l : LevelT m) : LevelT m' where
  exp limit := φ.reader (l.exp limit)
  stat := φ.reader l.stat

variable {φ}

@[simp] theorem reader_pure (a : α) : φ.reader (Pure.pure a) = Pure.pure a :=
  funext fun s => φ.pure (a, s)

@[simp] theorem reader_bind (p : ParserT m α) (f : α → ParserT m β) :
    φ.reader (p >>= f) = φ.reader p >>= fun a => φ.reader (f a) :=
  funext fun s => φ.bind (p s) fun x => f x.1 x.2

@[simp] theorem reader_map (f : α → β) (p : ParserT m α) : φ.reader (f <$> p) = f <$> φ.reader p :=
  funext fun s => (φ.bind (p s) _).trans (bind_congr fun _ => φ.pure _)

@[simp] theorem reader_get : φ.reader (get : ParserT m TokenStream) = get :=
  funext fun s => φ.pure (s, s)

@[simp] theorem reader_failAt (p : Position) (fault : SyntaxFault) :
    φ.reader (failAt p fault : ParserT m α) = failAt p fault := by
  funext s
  refine (φ.bind _ _).trans ?_
  rw [φ.throw]
  exact bind_congr fun a => φ.pure _

@[simp] theorem reader_ite {c : Prop} [Decidable c] (p q : ParserT m α) :
    φ.reader (if c then p else q) = if c then φ.reader p else φ.reader q :=
  apply_ite φ.reader c p q

/-- For readers that go on by cases of what they have read. -/
theorem reader_bind_eq {p : ParserT m α} {p' : ParserT m' α} {f : α → ParserT m β}
    {f' : α → ParserT m' β} (hp : φ.reader p = p') (hf : ∀ a, φ.reader (f a) = f' a) :
    φ.reader (p >>= f) = p' >>= f' := by
  rw [reader_bind, hp]
  exact bind_congr hf

/-! ### Single tokens -/

@[simp] theorem reader_peek : φ.reader peek = peek := by simp [peek]

@[simp] theorem reader_peekSecond : φ.reader peekSecond = peekSecond := by simp [peekSecond]

@[simp] theorem reader_here : φ.reader here = here := by
  refine reader_bind_eq reader_get fun s => ?_
  split <;> simp

@[simp] theorem reader_last : φ.reader last = last := by simp [last]

@[simp] theorem reader_remaining : φ.reader remaining = remaining := by simp [remaining]

@[simp] theorem reader_advance : φ.reader advance = advance :=
  funext fun _ => φ.pure _

@[simp] theorem reader_fail {fault : SyntaxFault} :
    φ.reader (fail fault : ParserT m α) = fail fault := by simp [fail]

@[simp] theorem reader_eat {kind : TokenKind} : φ.reader (eat kind) = eat kind := by simp [eat]

@[simp] theorem reader_eatSymbol {s : Symbol} : φ.reader (eatSymbol s) = eatSymbol s := reader_eat

@[simp] theorem reader_eatKeyword {k : Keyword} : φ.reader (eatKeyword k) = eatKeyword k :=
  reader_eat

@[simp] theorem reader_expect {kind : TokenKind} :
    φ.reader (expect kind) = expect kind := by simp [expect]

@[simp] theorem reader_expectSymbol {s : Symbol} : φ.reader (expectSymbol s) = expectSymbol s :=
  reader_expect

@[simp] theorem reader_expectKeyword {k : Keyword} : φ.reader (expectKeyword k) = expectKeyword k :=
  reader_expect

@[simp] theorem reader_expectClose {kind : TokenKind} {opener : String} {p : Position} :
    φ.reader (expectClose kind opener p) = expectClose kind opener p := by
  simp [expectClose]

@[simp] theorem reader_name : φ.reader name = name := by
  refine reader_bind_eq reader_here fun _ => reader_bind_eq reader_peek fun _ => ?_
  split <;> simp

@[simp] theorem reader_moreItems {separator : Symbol} {item : ParserT m α} {n : Nat} :
    φ.reader (moreItems separator item n) = moreItems separator (φ.reader item) n := by
  induction n <;> simp [moreItems, *]

@[simp] theorem reader_items {separator : Symbol} {item : ParserT m α} :
    φ.reader (items separator item) = items separator (φ.reader item) := by
  simp [items]

/-! ### Blocks and expressions -/

variable {below : LevelT m} {limit n : Nat} {e : Exp} {start : TextRange}

@[simp] theorem reader_exp : φ.reader (below.exp limit) = (φ.level below).exp limit := rfl

@[simp] theorem reader_levelStat : φ.reader below.stat = (φ.level below).stat := rfl

@[simp] theorem reader_anyExp : φ.reader below.anyExp = (φ.level below).anyExp := rfl

@[simp] theorem reader_expList : φ.reader below.expList = (φ.level below).expList := reader_items

@[simp] theorem reader_blockEnds : φ.reader blockEnds = blockEnds := by
  refine reader_bind_eq reader_peek fun _ => ?_
  split <;> simp

@[simp] theorem reader_returnStat :
    φ.reader (returnStat below) = returnStat (φ.level below) := by simp [returnStat]

@[simp] theorem reader_statements :
    φ.reader (statements below n) = statements (φ.level below) n := by
  induction n <;> simp [statements, *]

@[simp] theorem reader_block : φ.reader (block below) = block (φ.level below) := by simp [block]

@[simp] theorem reader_parameters : φ.reader (parameters n) = parameters n := by
  induction n <;> simp [parameters, *]

@[simp] theorem reader_functionBody {isMethod : Bool} :
    φ.reader (functionBody below start isMethod) = functionBody (φ.level below) start isMethod := by
  simp [functionBody]

@[simp] theorem reader_field : φ.reader (field below) = field (φ.level below) := by
  refine reader_bind_eq reader_peek fun _ => reader_bind_eq reader_peekSecond fun _ => ?_
  split <;> simp

@[simp] theorem reader_fields : φ.reader (fields below n) = fields (φ.level below) n := by
  induction n <;> simp [fields, *]

@[simp] theorem reader_table : φ.reader (table below) = table (φ.level below) := by simp [table]

@[simp] theorem reader_arguments : φ.reader (arguments below) = arguments (φ.level below) := by
  refine reader_bind_eq reader_here fun _ => reader_bind_eq reader_peek fun _ => ?_
  split <;> simp

@[simp] theorem reader_primary : φ.reader (primary below) = primary (φ.level below) := by
  refine reader_bind_eq reader_here fun _ => reader_bind_eq reader_peek fun _ => ?_
  split <;> simp

@[simp] theorem reader_suffixes : φ.reader (suffixes below n e) = suffixes (φ.level below) n e := by
  induction n generalizing e with
  | zero => simp [suffixes]
  | succ n ih =>
    refine reader_bind_eq reader_peek fun _ => ?_
    split <;> simp [ih]

@[simp] theorem reader_suffixed :
    φ.reader (suffixed below) = suffixed (φ.level below) := by simp [suffixed]

@[simp] theorem reader_simple : φ.reader (simple below) = simple (φ.level below) := by
  refine reader_bind_eq reader_here fun _ => reader_bind_eq reader_peek fun _ => ?_
  split <;> simp [simple.literal]

@[simp] theorem reader_operators :
    φ.reader (operators below limit n e) = operators (φ.level below) limit n e := by
  induction n generalizing e with
  | zero => simp [operators]
  | succ n ih =>
    refine reader_bind_eq reader_peek fun _ => ?_
    split <;> simp [ih]

@[simp] theorem reader_operand : φ.reader (operand below) = operand (φ.level below) := by
  refine reader_bind_eq reader_here fun _ => reader_bind_eq reader_peek fun _ => ?_
  split <;> simp

/-! ### Statements -/

@[simp] theorem reader_clause : φ.reader (clause below) = clause (φ.level below) := by simp [clause]

@[simp] theorem reader_moreClauses :
    φ.reader (moreClauses below n) = moreClauses (φ.level below) n := by
  induction n <;> simp [moreClauses, *]

@[simp] theorem reader_ifStat :
    φ.reader (ifStat below start) = ifStat (φ.level below) start := by simp [ifStat]

@[simp] theorem reader_loopBlock {opener : String} :
    φ.reader (loopBlock below opener start) = loopBlock (φ.level below) opener start := by
  simp [loopBlock]

@[simp] theorem reader_forStat :
    φ.reader (forStat below start) = forStat (φ.level below) start := by simp [forStat]

@[simp] theorem reader_functionName : φ.reader functionName = functionName := by simp [functionName]

@[simp] theorem reader_localName : φ.reader localName = localName := by
  refine reader_bind_eq reader_name fun _ => reader_bind_eq reader_eatSymbol fun _ => ?_
  split
  · refine reader_bind_eq reader_name fun _ => reader_bind_eq reader_expectSymbol fun _ => ?_
    split <;> simp
  · simp

@[simp] theorem reader_localStat :
    φ.reader (localStat below start) = localStat (φ.level below) start := by
  simp [localStat]

@[simp] theorem reader_expStat : φ.reader (expStat below) = expStat (φ.level below) := by
  refine reader_bind_eq reader_suffixed fun _ => reader_bind_eq reader_peek fun _ =>
    reader_bind_eq reader_peek fun _ => ?_
  dsimp only
  rw [reader_ite]
  congr 1
  · refine reader_bind_eq reader_remaining fun _ => reader_bind_eq (by simp) fun _ => ?_
    split <;> simp
  · simp

@[simp] theorem reader_statBody :
    φ.reader (statBody below start) = statBody (φ.level below) start := by
  refine reader_bind_eq reader_peek fun _ => ?_
  split <;> simp

theorem level_closed (φ : Translation m m') : φ.level .closed = .closed := by
  simp [level, LevelT.closed]

theorem level_above : φ.level below.above = (φ.level below).above :=
  congrArg₂ LevelT.mk (funext fun limit => by simp [LevelT.above, subExp])
    (by simp [LevelT.above, stat])

theorem reader_wholeText : φ.reader (wholeText below) = wholeText (φ.level below) := by
  refine reader_bind_eq reader_block fun _ => reader_bind_eq reader_peek fun _ => ?_
  split <;> simp

end Translation

/-! ## Levels that are opened -/

variable {α β : Type}

/-- What reading ends with, and the levels that it has opened: how many were open with each of them,
and where. -/
structure Account (α : Type) where
  outcome : Except SyntaxError α
  opened : List (Nat × Position) := []

namespace Account

instance : Monad Account where
  map f x := ⟨x.outcome.map f, x.opened⟩
  pure a := { outcome := .ok a }
  bind x f := match x.outcome with
    | .ok a => { f a with opened := x.opened ++ (f a).opened }
    | .error e => ⟨.error e, x.opened⟩

instance : MonadExceptOf SyntaxError Account where
  throw e := { outcome := .error e }
  tryCatch x handle := match x.outcome with
    | .ok _ => x
    | .error e => { handle e with opened := x.opened ++ (handle e).opened }

def note (depth : Nat) (start : Position) : Account Unit :=
  ⟨.ok (), [(depth, start)]⟩

/-- The outcome of reading that ends where level `limit + 1` is opened. -/
def upTo (limit : Nat) (x : Account α) : Except SyntaxError α :=
  match x.opened.find? (·.1 == limit + 1) with
  | some (_, start) => .error ⟨start, .tooManyLevels⟩
  | none => x.outcome

variable {limit : Nat}

theorem upTo_bind (x : Account α) (f : α → Account β) :
    (x >>= f).upTo limit = x.upTo limit >>= fun a => (f a).upTo limit := by
  obtain ⟨_ | a, opened⟩ := x
  · change upTo limit ⟨.error _, opened⟩ = _
    unfold upTo
    cases opened.find? (·.1 == limit + 1) <;> rfl
  · change upTo limit ⟨(f a).outcome, opened ++ (f a).opened⟩ = _
    unfold upTo
    rw [List.find?_append]
    cases opened.find? (·.1 == limit + 1) <;> rfl

theorem upTo_map (f : α → β) (x : Account α) : (f <$> x).upTo limit = (x.upTo limit).map f := by
  change upTo limit ⟨x.outcome.map f, x.opened⟩ = _
  unfold upTo
  cases x.opened.find? (·.1 == limit + 1) <;> rfl

theorem upTo_note {depth : Nat} {start : Position} {x : Account α} :
    (note depth start >>= fun _ => x).upTo limit =
      if depth = limit + 1 then .error ⟨start, .tooManyLevels⟩ else x.upTo limit := by
  change upTo limit ⟨x.outcome, (depth, start) :: x.opened⟩ = _
  by_cases h : depth = limit + 1 <;> simp [upTo, h]

end Account

/-! ## Counters -/

def LevelT.wrap {m : Type → Type} (f : {α : Type} → ParserT m α → ParserT m α) (l : LevelT m) :
    LevelT m where
  exp bound := f (l.exp bound)
  stat := f l.stat

/-- Reading with a counter of the open levels. There is no result where the counter would go below
zero. -/
abbrev Counting := StateT Nat (OptionT Account)

/-- The counter goes up before something is read, and down again after that. -/
def counted (p : ParserT Counting α) : ParserT Counting α := fun s depth => do
  Account.note (depth + 1) s.next.start
  let (x, depth') ← p s (depth + 1)
  match depth' with
  | 0 => failure
  | n + 1 => return (x, n)

def countedLevels : Nat → LevelT Counting
  | 0 => .closed
  | n + 1 => (countedLevels n).above.wrap counted

/-- The tree of all tokens and the counter at the end. -/
def countTokens (levels : Nat) (tokens : List Token) (stop : Position) :
    Account (Option (Chunk × Nat)) :=
  Option.map (fun ((c, _), depth) => (c, depth)) <$>
    ((wholeText (countedLevels levels)).run { tokens, stop }).run 0

/-- Where something has been read the counter is what it was before. -/
def Balanced (p : ParserT Counting α) : Prop :=
  ∀ s depth x, (p s depth).outcome = .ok x → ∃ a s', x = some ((a, s'), depth)

/-- Reading inside so many open levels. -/
abbrev Inside := ReaderT Nat Account

def inside (p : ParserT Inside α) : ParserT Inside α := fun s depth => do
  Account.note (depth + 1) s.next.start
  p s (depth + 1)

def insideLevels : Nat → LevelT Inside
  | 0 => .closed
  | n + 1 => (insideLevels n).above.wrap inside

/-- What is read inside a level leaves the counter as it is. -/
def returning : Translation Inside Counting where
  apply x depth := OptionT.mk ((fun a => some (a, depth)) <$> x.run depth)
  pure _ := rfl
  bind x f := by
    funext depth
    change OptionT.mk ((fun b => some (b, depth)) <$> (x depth >>= (f · depth))) =
      (OptionT.mk ((fun a => some (a, depth)) <$> x depth) >>= fun a =>
        OptionT.mk ((fun b => some (b, a.2)) <$> f a.1 a.2))
    rcases x depth with ⟨_ | a, opened⟩ <;> rfl
  throw _ := rfl

theorem counted_reader {p : ParserT Inside α} :
    counted (returning.reader p) = returning.reader (inside p) := by
  funext s depth
  have hleft : returning.reader p s (depth + 1) =
    OptionT.mk ((fun a => some (a, depth + 1)) <$> p s (depth + 1)) := rfl
  have hright : returning.reader (inside p) s depth = OptionT.mk ((fun a => some (a, depth)) <$>
    (Account.note (depth + 1) s.next.start >>= fun _ => p s (depth + 1))) := rfl
  rw [counted, hleft, hright]
  rcases p s (depth + 1) with ⟨_ | x, opened⟩
  · rfl
  · exact congrArg (fun opened => (⟨.ok (some (x, depth)), _ :: opened⟩ : Account _))
      (List.append_nil opened)

theorem wrap_counted {l : LevelT Inside} :
    (returning.level l).wrap counted = returning.level (l.wrap inside) :=
  congrArg₂ LevelT.mk (funext fun _ => counted_reader) counted_reader

theorem countedLevels_eq {n : Nat} : countedLevels n = returning.level (insideLevels n) := by
  induction n with
  | zero => exact returning.level_closed.symm
  | succ n ih => rw [countedLevels, ih, ← Translation.level_above, wrap_counted, insideLevels]

theorem balanced_reader {p : ParserT Inside α} : Balanced (returning.reader p) := by
  intro s depth x h
  change (p s depth).outcome.map (fun a => some (a, depth)) = .ok x at h
  generalize (p s depth).outcome = outcome at h
  cases outcome with
  | error e => cases h
  | ok a =>
    cases h
    exact ⟨_, _, rfl⟩

/-! ## Limits -/

/-- Reading with `depth` levels open that ends where level `limit + 1` is opened. -/
def cutting (limit depth : Nat) : Translation Inside (Except SyntaxError) where
  apply x := (x.run depth).upTo limit
  pure _ := rfl
  bind x f := Account.upTo_bind (x.run depth) fun a => (f a).run depth
  throw _ := rfl

variable {limit depth : Nat}

theorem cutting_last {p : ParserT Inside α} :
    (cutting limit limit).reader (inside p) = fail .tooManyLevels := by
  funext s
  have hfail : (fail .tooManyLevels : Parser α).run s = .error ⟨s.next.start, .tooManyLevels⟩ :=
    run_here_bind
  exact (Account.upTo_note.trans (if_pos rfl)).trans hfail.symm

theorem level_cutting (h : depth ≠ limit) {l : LevelT Inside} :
    (cutting limit depth).level (l.wrap inside) = (cutting limit (depth + 1)).level l := by
  have hreader : ∀ {α} {p : ParserT Inside α},
      (cutting limit depth).reader (inside p) = (cutting limit (depth + 1)).reader p :=
    funext fun s => Account.upTo_note.trans (if_neg (by omega))
  exact congrArg₂ LevelT.mk (funext fun _ => hreader) hreader

theorem levels_eq {k more : Nat} :
    levels k = (cutting (k + depth) depth).level (insideLevels (more + k + 1)) := by
  induction k generalizing depth with
  | zero =>
    rw [Nat.zero_add]
    exact congrArg₂ LevelT.mk (funext fun _ => cutting_last.symm) cutting_last.symm
  | succ k ih =>
    have hne : depth ≠ k + 1 + depth := by omega
    rw [insideLevels, level_cutting hne, Translation.level_above, Nat.add_right_comm k 1 depth,
      Nat.add_assoc k depth 1]
    exact congrArg LevelT.above ih

/-- Where the limited reader reads something, the counting reader does so too, opens no level above
the limit and leaves the counter as it was. -/
theorem countedLevels_exp {n more bound : Nat} {s : TokenStream} {x : Exp × TokenStream}
    (h : ((levels n).exp bound).run s = .ok x) :
    ((countedLevels (more + n + 1)).exp bound s depth).upTo (n + depth) =
      .ok (some (x, depth)) := by
  rw [@levels_eq depth n more] at h
  change ((insideLevels (more + n + 1)).exp bound s depth).upTo (n + depth) = .ok x at h
  rw [countedLevels_eq]
  refine (Account.upTo_map _ ((insideLevels (more + n + 1)).exp bound s depth)).trans ?_
  rw [h]
  rfl

/-- The limit on levels only rejects. The counter goes up by one, so more than `limit` levels are
open at some moment exactly if level `limit + 1` is opened. The reader without the limit allows
`more` levels still, for any `more`. Where it opens that level, the limited reader fails with the
token there; where it never does, both have the same tree or the same error, and the counter ends at
zero. After every statement, expression and block that has been read the counter is what it was
before it. -/
theorem limit_only_rejects (limit more : Nat) (tokens : List Token) (stop : Position) :
    (match (countTokens (more + limit + 1) tokens stop).opened.find? (·.1 == limit + 1) with
      | some (_, start) => parseTokens limit tokens stop = .error ⟨start, .tooManyLevels⟩
      | none => (countTokens (more + limit + 1) tokens stop).outcome =
          (parseTokens limit tokens stop).map fun chunk => some (chunk, 0)) ∧
      ∀ n, (∀ bound, Balanced ((countedLevels n).exp bound)) ∧ Balanced (countedLevels n).stat ∧
        Balanced (block (countedLevels n)) := by
  constructor
  · have hparse : parseTokens limit tokens stop =
        ((wholeText (insideLevels (more + limit + 1)) { tokens, stop } 0).upTo limit).map
        (·.1) := by
      rw [parseTokens, chunk, @levels_eq 0 limit more, ← Translation.reader_wholeText]
      rfl
    have hcount : countTokens (more + limit + 1) tokens stop =
      Option.map (fun ((c, _), depth) => (c, depth)) <$>
        ((fun x => some (x, 0)) <$> wholeText (insideLevels (more + limit + 1))
          { tokens, stop } 0) := by
      rw [countTokens, countedLevels_eq, ← Translation.reader_wholeText]
      rfl
    rw [hparse, hcount]
    obtain ⟨outcome, opened⟩ := wholeText (insideLevels (more + limit + 1)) { tokens, stop } 0
    change match opened.find? (·.1 == limit + 1) with
      | some (_, start) => _
      | none => (outcome.map _).map _ = _
    unfold Account.upTo
    dsimp only
    cases opened.find? (·.1 == limit + 1) with
    | some => rfl
    | none => cases outcome <;> rfl
  · intro n
    rw [countedLevels_eq, ← Translation.reader_block]
    exact ⟨fun _ => balanced_reader, balanced_reader, balanced_reader⟩

end LuaAnalysis.Parser
