import LuaAnalysis.Proofs.Tree.Grammar

/-!
# Running the readers of tokens

What a reader does to a stream is stated with two notions: the kinds of the tokens that are left,
and `skip k`, the stream after `k` tokens were taken. The readers of single tokens never look
further than two tokens, and each of them has one equation here that says which stream it goes on
with.
-/

namespace LuaAnalysis

open List

variable {s : TokenStream} {p : Parser α} {f : α → Parser β} {a : α} {kind : TokenKind}

namespace TokenStream

/-- The kinds of the tokens that are still to be read. -/
def kinds (s : TokenStream) : List TokenKind :=
  s.tokens.map (·.kind)

/-- The range of the next token, or the end of the text. -/
def next (s : TokenStream) : TextRange :=
  match s.tokens with
  | t :: _ => t.range
  | [] => ⟨s.stop, s.stop⟩

/-- The stream after `k` more tokens. -/
def skip (s : TokenStream) (k : Nat) : TokenStream :=
  { s with
    tokens := s.tokens.drop k
    last := ((s.tokens.take k).getLast?.map (·.range)).getD s.last }

theorem skip_skip {i j : Nat} : (s.skip i).skip j = s.skip (i + j) := by
  have hlast : (s.tokens.take (i + j)).getLast? =
      (((s.tokens.drop i).take j).getLast?).or (s.tokens.take i).getLast? := by
    rw [take_add, getLast?_append]
  simp only [skip, drop_drop, hlast]
  cases ((s.tokens.drop i).take j).getLast? <;> simp

theorem kinds_skip {k : Nat} : (s.skip k).kinds = s.kinds.drop k := by
  simp [kinds, skip]

theorem kinds_of_head? {k : TokenKind} (h : s.kinds.head? = some k) :
    s.kinds = k :: (s.skip 1).kinds := by
  rw [kinds_skip]
  cases hs : s.kinds with
  | nil => simp [hs] at h
  | cons k' ks => simpa [hs] using h

theorem kinds_skip_of_append {ts rest : List TokenKind} (h : s.kinds = ts ++ rest) :
    (s.skip ts.length).kinds = rest := by
  rw [kinds_skip, h, drop_left]

end TokenStream

namespace Parser

variable {s s' : TokenStream} {fault : SyntaxFault} {opened : Position} {opener : String}

/-! ## Sequences -/

/-- A sequence succeeds exactly if both parts do. -/
theorem run_bind_eq_ok {b : β} :
    (p >>= f).run s = .ok (b, s') ↔ ∃ a s₁, p.run s = .ok (a, s₁) ∧ (f a).run s₁ = .ok (b, s') := by
  rw [StateT.run_bind]
  cases p.run s with
  | error e => simp [bind, Except.bind]
  | ok x => obtain ⟨a, s₁⟩ := x; simp [bind, Except.bind, and_assoc]

theorem run_bind_of_ok (h : p.run s = .ok (a, s')) : (p >>= f).run s = (f a).run s' := by
  rw [StateT.run_bind, h]
  rfl

theorem run_pure_eq_ok {b : α} : (pure a : Parser α).run s = .ok (b, s') ↔ a = b ∧ s = s' := by
  rw [StateT.run_pure]
  simp [pure, Except.pure]

theorem run_map_eq_ok {f : α → β} {b : β} :
    (f <$> p).run s = .ok (b, s') ↔ ∃ a, p.run s = .ok (a, s') ∧ f a = b := by
  rw [StateT.run_map]
  cases p.run s with
  | error e => simp [Functor.map, Except.map]
  | ok x =>
    obtain ⟨a, s₁⟩ := x
    simp only [Functor.map, Except.map, Except.ok.injEq, Prod.mk.injEq]
    exact ⟨fun h => ⟨a, ⟨rfl, h.2⟩, h.1⟩, fun ⟨_, ⟨ha, hs⟩, hb⟩ => ⟨ha ▸ hb, hs⟩⟩

/-! ## Readers that never fail -/

theorem run_peek_bind {f : Option TokenKind → Parser α} :
    (peek >>= f).run s = (f s.kinds.head?).run s := by
  rw [TokenStream.kinds, head?_map]
  rfl

theorem run_peekSecond_bind {f : Option TokenKind → Parser α} :
    (peekSecond >>= f).run s = (f s.kinds[1]?).run s := by
  rw [TokenStream.kinds, getElem?_map]
  rfl

theorem run_here_bind {f : TextRange → Parser α} : (here >>= f).run s = (f s.next).run s := by
  obtain ⟨_ | ⟨t, ts⟩, stop, last⟩ := s <;> rfl

theorem run_last_bind {f : TextRange → Parser α} : (last >>= f).run s = (f s.last).run s := rfl

theorem run_remaining_bind {f : Nat → Parser α} :
    (remaining >>= f).run s = (f s.kinds.length).run s := by
  rw [TokenStream.kinds, length_map]
  rfl

theorem run_advance_bind {f : Unit → Parser α} : (advance >>= f).run s = (f ()).run (s.skip 1) := by
  obtain ⟨_ | ⟨t, ts⟩, stop, last⟩ := s <;> rfl

theorem run_eat_bind {f : Bool → Parser α} :
    (eat kind >>= f).run s = if s.kinds.head? =
      some kind then (f true).run (s.skip 1) else (f false).run s := by
  by_cases h : s.kinds.head? = some kind
  · have heat : (eat kind : Parser Bool).run s = .ok (true, s.skip 1) := by
      simp only [eat, run_peek_bind, h, BEq.rfl, if_true, run_advance_bind]
      rfl
    rw [run_bind_of_ok heat, if_pos h]
  · have heat : (eat kind : Parser Bool).run s = .ok (false, s) := by
      simp only [eat, run_peek_bind, beq_iff_eq, h, if_false]
      rfl
    rw [run_bind_of_ok heat, if_neg h]

/-! ## Readers that fail -/

theorem run_failAt_ne_ok {p : Position} : (failAt p fault : Parser α).run s ≠ .ok (a, s') := by
  rintro ⟨⟩

theorem run_fail_ne_ok : (fail fault : Parser α).run s ≠ .ok (a, s') := by
  simp only [fail, run_here_bind]
  exact run_failAt_ne_ok

theorem run_expect_eq_ok {u : Unit} :
    (expect kind : Parser Unit).run s = .ok (u, s') ↔ s.kinds.head? = some kind ∧
    s.skip 1 = s' := by
  simp only [expect, run_eat_bind]
  by_cases h : s.kinds.head? = some kind
  · simp only [h, if_true, run_pure_eq_ok, true_and]
  · simp only [h, if_false, Bool.false_eq_true, run_peek_bind, run_fail_ne_ok, false_and]

theorem run_expectClose_eq_ok {u : Unit} :
    (expectClose kind opener opened : Parser Unit).run s = .ok (u, s') ↔ s.kinds.head? = some kind ∧
    s.skip 1 = s' := by
  simp only [expectClose, run_eat_bind]
  by_cases h : s.kinds.head? = some kind
  · simp only [h, if_true, run_pure_eq_ok, true_and]
  · simp only [h, if_false, Bool.false_eq_true, run_here_bind, false_and, iff_false]
    split <;> simp only [run_peek_bind, run_fail_ne_ok, not_false_eq_true]

theorem run_name_eq_ok {n : Name} :
    (name : Parser Name).run s = .ok (n, s') ↔ s.kinds.head? = some n.token ∧ n.range = s.next ∧
    s.skip 1 = s' := by
  obtain ⟨text, range⟩ := n
  simp only [name, run_here_bind, run_peek_bind, Name.token]
  split
  · rename_i text' h
    simp only [h, run_advance_bind, run_pure_eq_ok, Name.mk.injEq, Option.some.injEq,
      TokenKind.name.injEq, and_assoc]
    rw [eq_comm (a := range)]
  · rename_i hother
    exact ⟨fun h => (run_fail_ne_ok h).elim, fun h => (hother text h.1).elim⟩

/-! ## What was taken -/

theorem kinds_of_name {n : Name} (h : (name : Parser Name).run s = .ok (n, s')) :
    s.kinds = n.token :: s'.kinds := by
  obtain ⟨hhead, -, rfl⟩ := run_name_eq_ok.1 h
  exact TokenStream.kinds_of_head? hhead

/-! ## Tokens that are there -/

/-- On any stream that starts with `ts` and goes on with `rest`, `p` takes `ts` and gives a value
with `Q`. -/
def Consumes (p : Parser α) (ts rest : List TokenKind) (Q : α → Prop) : Prop :=
  ∀ s : TokenStream, s.kinds = ts ++ rest → ∃ a, Q a ∧ p.run s = .ok (a, s.skip ts.length)

namespace Consumes

variable {p : Parser α} {m : Parser β} {k : TokenKind} {ts us rest : List TokenKind} {R : α → Prop}
  {Q : β → Prop}

theorem pure {b : β} (h : Q b) : Consumes (Pure.pure b) [] rest Q :=
  fun _ _ => ⟨b, h, rfl⟩

theorem imp {R' : α → Prop} (hp : Consumes p ts rest R) (h : ∀ a, R a → R' a) :
    Consumes p ts rest R' :=
  fun s hs => (hp s hs).imp fun a ha => ⟨h a ha.1, ha.2⟩

theorem bind (hp : Consumes p ts (us ++ rest) R) (hf : ∀ a, R a → Consumes (f a) us rest Q) :
    Consumes (p >>= f) (ts ++ us) rest Q := by
  intro s hs
  rw [append_assoc] at hs
  obtain ⟨a, ha, hrun⟩ := hp s hs
  obtain ⟨b, hb, hrun'⟩ := hf a ha _ (TokenStream.kinds_skip_of_append hs)
  exact ⟨b, hb, by rw [run_bind_of_ok hrun, hrun', TokenStream.skip_skip, length_append]⟩

theorem bind_rest (hp : Consumes p ts rest R) (hf : ∀ a, R a → Consumes (f a) [] rest Q) :
    Consumes (p >>= f) ts rest Q := by
  have h : Consumes (p >>= f) (ts ++ []) rest Q := bind hp hf
  rwa [append_nil] at h

theorem give {g : α → β} (hp : Consumes p ts rest R) (h : ∀ a, R a → Q (g a)) :
    Consumes (do return g (← p)) ts rest Q :=
  bind_rest hp fun a ha => pure (h a ha)

theorem peek {f : Option TokenKind → Parser β} (h : Consumes (f (ts ++ rest).head?) ts rest Q) :
    Consumes (Parser.peek >>= f) ts rest Q := by
  intro s hs
  rw [run_peek_bind, hs]
  exact h s hs

theorem peekSecond {f : Option TokenKind → Parser β} (h : Consumes (f (ts ++ rest)[1]?) ts rest Q) :
    Consumes (Parser.peekSecond >>= f) ts rest Q := by
  intro s hs
  rw [run_peekSecond_bind, hs]
  exact h s hs

theorem here {f : TextRange → Parser β} (h : ∀ range, Consumes (f range) ts rest Q) :
    Consumes (Parser.here >>= f) ts rest Q := by
  intro s hs
  rw [run_here_bind]
  exact h _ s hs

theorem last {f : TextRange → Parser β} (h : ∀ range, Consumes (f range) ts rest Q) :
    Consumes (Parser.last >>= f) ts rest Q :=
  fun s hs => h s.last s hs

theorem remaining {f : Nat → Parser β} (h : Consumes (f (ts ++ rest).length) ts rest Q) :
    Consumes (Parser.remaining >>= f) ts rest Q := by
  intro s hs
  rw [run_remaining_bind, hs]
  exact h s hs

/-- The first of the expected tokens is taken by `m`, which goes on as `m'`. -/
theorem token (h : ∀ s : TokenStream, s.kinds.head? = some k →
    ∃ m', Consumes m' ts rest Q ∧ m.run s = m'.run (s.skip 1)) : Consumes m (k :: ts) rest Q := by
  intro s hs
  obtain ⟨m', hm', hrun⟩ := h s (by rw [hs]; rfl)
  obtain ⟨b, hb, hrun'⟩ := hm' (s.skip 1) (@TokenStream.kinds_skip_of_append s [k] _ hs)
  exact ⟨b, hb, by rw [hrun, hrun', TokenStream.skip_skip, Nat.add_comm]; rfl⟩

theorem advance {f : Unit → Parser β} (h : Consumes (f ()) ts rest Q) :
    Consumes (Parser.advance >>= f) (k :: ts) rest Q :=
  token fun _ _ => ⟨_, h, run_advance_bind⟩

theorem eat {f : Bool → Parser β} (h : Consumes (f true) ts rest Q) :
    Consumes (Parser.eat k >>= f) (k :: ts) rest Q :=
  token fun _ hk => ⟨_, h, by rw [run_eat_bind, if_pos hk]⟩

theorem eat_other {f : Bool → Parser β} (hk : (ts ++ rest).head? ≠ some k)
    (h : Consumes (f false) ts rest Q) : Consumes (Parser.eat k >>= f) ts rest Q := by
  intro s hs
  rw [run_eat_bind, if_neg (by rwa [hs])]
  exact h s hs

theorem expect {f : Unit → Parser β} (h : Consumes (f ()) ts rest Q) :
    Consumes (Parser.expect k >>= f) (k :: ts) rest Q :=
  token fun _ hk => ⟨_, h, run_bind_of_ok (run_expect_eq_ok.2 ⟨hk, rfl⟩)⟩

theorem expectClose {f : Unit → Parser β} (h : Consumes (f ()) ts rest Q) :
    Consumes (Parser.expectClose k opener opened >>= f) (k :: ts) rest Q :=
  token fun _ hk => ⟨_, h, run_bind_of_ok (run_expectClose_eq_ok.2 ⟨hk, rfl⟩)⟩

theorem name {text : String} {f : Name → Parser β}
    (h : ∀ range, Consumes (f ⟨text, range⟩) ts rest Q) :
    Consumes (Parser.name >>= f) (.name text :: ts) rest Q :=
  token fun _ hk => ⟨_, h _, run_bind_of_ok (run_name_eq_ok.2 ⟨hk, rfl, rfl⟩)⟩

end Consumes

end Parser

end LuaAnalysis
