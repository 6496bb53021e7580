import LuaAnalysis.OrderedMap

/-!
# Laws of ordered maps

Which keys a map holds and in what order, which values it can hold after a write, and how writing
commutes with changing all values and with dropping keys.
-/

namespace LuaAnalysis.OrderedMap

open List

variable {κ : Type u} {α : Type v} {β : Type v}

variable [DecidableEq κ]
variable {m : OrderedMap κ α} {k : κ} {v : α} {es : List (κ × α)}
variable {k' : κ} {v' : α}

/-! ## Keys -/

theorem find?_isSome_iff : (find? k es).isSome ↔ k ∈ es.map (·.1) := by
  induction es with
  | nil => simp [find?]
  | cons e es ih =>
    obtain ⟨a, b⟩ := e
    by_cases h : a = k
    · simp [find?, h]
    · have h' : ¬ k = a := fun e => h e.symm
      simp [find?, h, h', ih]

theorem mem_keys_iff : k ∈ m.keys ↔ (m.get? k).isSome :=
  find?_isSome_iff.symm

theorem mem_keys_of_get? (h : m.get? k = some v) : k ∈ m.keys :=
  mem_keys_iff.2 (Option.isSome_iff_exists.2 ⟨v, h⟩)

theorem not_mem_keys_iff : k ∉ m.keys ↔ m.get? k = none := by
  rw [mem_keys_iff, Option.not_isSome_iff_eq_none]

theorem contains_iff : m.contains k = true ↔ k ∈ m.keys :=
  mem_keys_iff.symm

theorem keys_insertIfNew (m : OrderedMap κ α) (k : κ) (v : α) :
    (m.insertIfNew k v).keys = if k ∈ m.keys then m.keys else m.keys ++ [k] := by
  unfold insertIfNew
  by_cases h : k ∈ m.keys
  · rw [if_pos (contains_iff.2 h), if_pos h]
  · rw [if_neg fun hc => h (contains_iff.1 hc), keys_insert]

theorem keys_insert_of_not_mem (h : k ∉ m.keys) : (m.insert k v).keys = m.keys ++ [k] := by
  rw [keys_insert, if_neg h]

theorem mem_keys_insert : k' ∈ (m.insert k v).keys ↔ k' = k ∨ k' ∈ m.keys := by
  rw [keys_insert]
  split
  · next h => exact ⟨Or.inr, fun h' => h'.elim (fun e => e ▸ h) id⟩
  · simp [or_comm]

theorem insertIfNew_of_get?_eq_none (h : m.get? k = none) : m.insertIfNew k v = m.insert k v := by
  rw [insertIfNew, contains, h]
  rfl

theorem insertIfNew_of_get? {old : α} (h : m.get? k = some old) : m.insertIfNew k v = m := by
  rw [insertIfNew, contains, h]
  rfl

/-! ## Values -/

theorem put_of_find?_eq_none (h : find? k es = none) : put k v es = es ++ [(k, v)] := by
  induction es with
  | nil => rfl
  | cons e es ih =>
    obtain ⟨a, b⟩ := e
    by_cases ha : a = k
    · simp [find?, ha] at h
    · simp only [find?, ha, if_false] at h
      simp [put, ha, ih h]

theorem values_insert_of_get?_eq_none (h : m.get? k = none) :
    (m.insert k v).values = m.values ++ [v] := by
  simp only [values, insert, put_of_find?_eq_none h, map_append, map_cons, map_nil]

/-- A value in a map after a write is the one written or was there. -/
theorem of_get?_insert (h : (m.insert k v).get? k' = some v') :
    k = k' ∧ v = v' ∨ m.get? k' = some v' := by
  rw [get?_insert] at h
  split at h
  · next hk => exact .inl ⟨hk, Option.some.inj h⟩
  · exact .inr h

theorem forall_get?_insert {P : κ → α → Prop} (h : ∀ k v, m.get? k = some v → P k v) (hv : P k v) :
    ∀ k' v', (m.insert k v).get? k' = some v' → P k' v' := by
  intro k' v' hget
  rcases of_get?_insert hget with ⟨rfl, rfl⟩ | hold
  · exact hv
  · exact h k' v' hold

/-- No value comes up under two keys, if the written one was not there. -/
theorem injective_insert {P : κ → Prop}
    (hinj : ∀ a b x, P a → P b → m.get? a = some x → m.get? b = some x → a = b)
    (hnew : ∀ a, P a → m.get? a ≠ some v) :
    ∀ a b x, P a → P b → (m.insert k v).get? a = some x → (m.insert k v).get? b = some x →
      a = b := by
  intro a b x hPa hPb ha hb
  rcases of_get?_insert ha with ⟨rfl, rfl⟩ | ha
  · rcases of_get?_insert hb with ⟨rfl, -⟩ | hb
    · rfl
    · exact absurd hb (hnew b hPb)
  · rcases of_get?_insert hb with ⟨rfl, rfl⟩ | hb
    · exact absurd ha (hnew a hPa)
    · exact hinj a b x hPa hPb ha hb

theorem of_get?_insertIfNew (h : (m.insertIfNew k v).get? k' = some v') :
    m.get? k' = some v' ∨ k = k' ∧ m.get? k = none ∧ v = v' := by
  rw [get?_insertIfNew] at h
  split at h
  · next hk =>
    subst hk
    cases hold : m.get? k with
    | none =>
      rw [hold] at h
      exact .inr ⟨rfl, rfl, Option.some.inj h⟩
    | some old =>
      rw [hold] at h
      exact .inl h
  · exact .inl h

theorem get?_insertIfNew_of_get? (h : m.get? k' = some v') :
    (m.insertIfNew k v).get? k' = some v' := by
  rw [get?_insertIfNew]
  split
  · next hk => rw [hk, h, Option.getD_some]
  · exact h

theorem get?_insertIfNew_self (h : m.get? k = none) : (m.insertIfNew k v).get? k = some v := by
  rw [get?_insertIfNew, if_pos rfl, h, Option.getD_none]

theorem get?_insert_of_get? (hk : k ∉ m.keys) (h : m.get? k' = some v') :
    (m.insert k v).get? k' = some v' := by
  have hne : k ≠ k' := by
    rintro rfl
    exact hk (mem_keys_of_get? h)
  rw [get?_insert, if_neg hne, h]

theorem get?_erase : (m.erase k).get? k' = if k = k' then none else m.get? k' := by
  obtain ⟨es⟩ := m
  simp only [erase, get?]
  induction es with
  | nil => simp [find?]
  | cons e es ih =>
    obtain ⟨a, b⟩ := e
    by_cases ha : a = k <;> by_cases hk : k = k' <;> simp_all [find?]

/-- The last write to a key counts. -/
theorem get?_foldl_insert {key : β → κ} {value : β → α} {bs : List β} (m : OrderedMap κ α) :
    (bs.foldl (fun m b => m.insert (key b) (value b)) m).get? k =
      ((bs.filter (key · = k)).getLast?.map value).or (m.get? k) := by
  induction bs generalizing m with
  | nil => rfl
  | cons b bs ih =>
    rw [foldl_cons, ih, get?_insert]
    by_cases hb : key b = k
    · cases hlast : (bs.filter (key · = k)).getLast? <;> simp [hb, getLast?_cons, hlast]
    · simp [hb]

theorem mem_put {e : κ × α} (h : e ∈ put k v es) : e = (k, v) ∨ e ∈ es := by
  induction es with
  | nil => simpa [put] using h
  | cons a es ih =>
    obtain ⟨k', v'⟩ := a
    by_cases hk : k' = k
    · simp only [put, hk, if_true, mem_cons] at h
      exact h.imp id fun h => mem_cons_of_mem _ h
    · simp only [put, hk, if_false, mem_cons] at h
      rcases h with h | h
      · exact .inr (h ▸ mem_cons_self)
      · exact (ih h).imp id fun h => mem_cons_of_mem _ h

theorem mem_of_find? (h : find? k es = some v) : (k, v) ∈ es := by
  induction es with
  | nil => simp [find?] at h
  | cons a es ih =>
    obtain ⟨k', v'⟩ := a
    by_cases hk : k' = k
    · simp only [find?, hk, if_true, Option.some.injEq] at h
      rw [hk, h]
      exact mem_cons_self
    · simp only [find?, hk, if_false] at h
      exact mem_cons_of_mem _ (ih h)

theorem mem_values_insert {a : α} (h : a ∈ (m.insert k v).values) : a = v ∨ a ∈ m.values := by
  obtain ⟨e, he, rfl⟩ := mem_map.1 h
  exact (mem_put he).imp (congrArg Prod.snd) mem_map_of_mem

theorem mem_values_of_get? (h : m.get? k = some v) : v ∈ m.values :=
  mem_map.2 ⟨(k, v), mem_of_find? h, rfl⟩

/-! ## Changing all values -/

theorem get?_mapValues {f : α → β} : (m.mapValues f).get? k = (m.get? k).map f := by
  obtain ⟨es⟩ := m
  simp only [get?, mapValues]
  induction es with
  | nil => rfl
  | cons e es ih =>
    obtain ⟨k', v'⟩ := e
    by_cases hk : k' = k <;> simp [find?, hk, ih]

theorem mapValues_insert {f : α → β} :
    (m.insert k v).mapValues f = (m.mapValues f).insert k (f v) := by
  obtain ⟨es⟩ := m
  simp only [insert, mapValues, mk.injEq]
  induction es with
  | nil => rfl
  | cons e es ih =>
    obtain ⟨k', v'⟩ := e
    by_cases hk : k' = k <;> simp [put, hk, ih]

omit [DecidableEq κ] in
theorem mapValues_congr {f g : α → β} (h : ∀ v ∈ m.values, f v = g v) :
    m.mapValues f = m.mapValues g := by
  simp only [mapValues]
  congr 1
  refine map_congr_left fun e he => ?_
  rw [h e.2 (mem_map_of_mem he)]

/-- Entries with different keys, changed and written one by one. -/
theorem foldl_insert_eq {f : α → β} (hnodup : (es.map (·.1)).Nodup) :
    es.foldl (fun m e => m.insert e.1 (f e.2)) {} = mapValues f ⟨es⟩ := by
  have hrest : ∀ m : OrderedMap κ β, (∀ e ∈ es, e.1 ∉ m.keys) →
      es.foldl (fun m e => m.insert e.1 (f e.2)) m = ⟨m.entries ++ (mapValues f ⟨es⟩).entries⟩ := by
    induction es with
    | nil => simp [mapValues]
    | cons e es ih =>
      intro m hnew
      rw [map_cons, nodup_cons] at hnodup
      rw [forall_mem_cons] at hnew
      have hput : (m.insert e.1 (f e.2)).entries = m.entries ++ [(e.1, f e.2)] :=
        put_of_find?_eq_none (not_mem_keys_iff.1 hnew.1)
      rw [foldl_cons, ih hnodup.2, hput, append_assoc]
      · rfl
      · intro x hx
        rw [keys_insert_of_not_mem hnew.1, mem_append, not_or, mem_singleton]
        exact ⟨hnew.2 x hx, fun heq => hnodup.1 (heq ▸ mem_map_of_mem hx)⟩
  exact (hrest {} fun _ _ => not_mem_nil).trans rfl

/-! ## Dropping keys -/

/-- The entries whose keys satisfy `p`, in order. -/
def filterKeys (p : κ → Bool) (m : OrderedMap κ α) : OrderedMap κ α :=
  ⟨m.entries.filter fun e => p e.1⟩

theorem get?_filterKeys {p : κ → Bool} (hk : p k = true) : (m.filterKeys p).get? k = m.get? k := by
  obtain ⟨es⟩ := m
  simp only [get?, filterKeys]
  induction es with
  | nil => rfl
  | cons e es ih =>
    obtain ⟨k', v'⟩ := e
    by_cases h : k' = k
    · subst h
      simp [find?, hk]
    · cases hp : p k' <;> simp [find?, h, hp, ih]

theorem filterKeys_insert (p : κ → Bool) (m : OrderedMap κ α) (k : κ) (v : α) :
    (m.insert k v).filterKeys p = if p k then (m.filterKeys p).insert k v else m.filterKeys p := by
  obtain ⟨es⟩ := m
  rw [← apply_ite mk]
  simp only [insert, filterKeys, mk.injEq]
  induction es with
  | nil => cases hk : p k <;> simp [put, hk]
  | cons e es ih =>
    obtain ⟨k', v'⟩ := e
    by_cases h : k' = k
    · subst h
      cases hk : p k' <;> simp [put, hk]
    · cases hk : p k <;> cases hp : p k' <;> simp_all [put]

end LuaAnalysis.OrderedMap
