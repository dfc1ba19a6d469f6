import Formula.Mixed
import Formula.Proofs.Value.Table

/-! Evaluation of mixed formulas without words. Constants and texts are their values, and a call
passes values to the first handler that accepts them. Main statements: the operators come to the
same on words as on the values that these stand for, and bring no NaN or negative zero into a
list. -/
namespace Formula

namespace Value.Library

/-- Equality of values, not of words. -/
def equalValues (wanted : Bool) : Function := fun _ _ values =>
  match values with
  | [a, b] => .ok (some (.bool ((a == b) == wanted)))
  | _ => .ok none

/-- The operators on values; only equality ever looked at words. -/
def unboxed? (options : Options) (symbol : Symbol) : Option Function :=
  if symbol = .infixOp "==" then some (equalValues true)
  else if symbol = .infixOp "!=" then some (equalValues false)
  else lookup? options symbol

end Value.Library

namespace Mixed

variable {σ : Type}

namespace Bindings

/-- Functions of numbers come before functions of values, these before the evaluator, and it
before the library. -/
def unboxedHandlers (b : Bindings σ) (symbol : Symbol) : List (Handler σ) :=
  match b.subscripted? symbol with
  | some value => [.subscript value]
  | none =>
    ((b.numericSymbols.lookup symbol).map Handler.numeric).toList ++
    ((b.symbols.lookup symbol).map Handler.general).toList ++
    (b.evaluator.map fun ask => Handler.evaluator (ask symbol)).toList ++
    ((Value.Library.unboxed? b.options symbol).map Handler.operator).toList ++
    ((Library.lookup? {} symbol).map Handler.library).toList

/-- The answer of the first handler that gives one, the evaluator passed over once it has declined
and the library has answered. -/
def firstAnswer (b : Bindings σ) (symbol : Symbol) (words : List Word) (values : List Value) :
    (declined : Bool) → List (Handler σ) → Action (Formula.Memory σ) (Option Value)
  | _, [] => pure none
  | declined, handler :: handlers => do
    if handler.isEvaluator && (← Formula.Memory.isSettled symbol) then
      firstAnswer b symbol words values declined handlers
    else
      match ← Formula.Memory.onHost (handler.call symbol words values) with
      | some value =>
        if declined && b.options.optimize && handler.isLibrary then Formula.Memory.settle symbol
        return some value
      | none => firstAnswer b symbol words values (declined || handler.isEvaluator) handlers

def unboxedCall (b : Bindings σ) (symbol : Symbol) (values : List Value) :
    Action (Formula.Memory σ) Value := do
  let handlers := b.unboxedHandlers symbol
  match ← b.firstAnswer symbol [] values false handlers with
  | some value => return value
  | none =>
    throw (if handlers.any Handler.isNumeric then .mismatch symbol values else b.missing symbol)

/-- Nothing is called ahead of evaluation. -/
def reference (b : Bindings σ) : Meaning (Formula.Memory σ) Value where
  call symbol values :=
    match b.constant? symbol with
    | some value => pure value
    | none => b.unboxedCall symbol values
  isPure _ := false

/-- The results of one evaluation after another, before each of which the host takes a step. -/
def referenceResults (b : Bindings σ) (tree : Tree Float) :
    List (σ → σ) → Formula.Memory σ → List (Except Error Value)
  | [], _ => []
  | step :: steps, memory =>
    let (result, memory) :=
      ((tree.map Value.number).evaluate b.reference).run { memory with host := step memory.host }
    result :: b.referenceResults tree steps memory

end Bindings
end Mixed

namespace Value.Library

/-- The function sees values only. -/
def Blind (f : Function) : Prop := ∀ symbol words values, f symbol words values = f symbol [] values

/-- Clean values lead to clean ones. -/
def KeepsClean (f : Function) : Prop :=
  ∀ symbol words values value, (∀ v ∈ values, v.Clean) →
    f symbol words values = .ok (some value) → value.Clean

theorem equal_unboxed {t : Table} (ht : t.WellFormed) {words : List Word} {values : List Value}
    (h : List.Forall₂ (Word.StandsFor t) words values) (symbol : Symbol) (wanted : Bool) :
    equal wanted symbol words values = equalValues wanted symbol [] values := by
  rcases h with _ | ⟨ha, _ | ⟨hb, _ | ⟨_, _⟩⟩⟩
  · rfl
  · rfl
  · rw [equal, equalValues, ha.same ht hb]
  · rfl

theorem keepsClean_always {value : Value} (h : value.Clean) : KeepsClean (always value) := by
  intro symbol words values v _ hv
  simp only [always, Except.ok.injEq, Option.some.injEq] at hv
  exact hv ▸ h

theorem keepsClean_join : KeepsClean join := by
  intro symbol words values v _ hv
  unfold join at hv
  split at hv
  · split at hv
    · obtain rfl := Option.some.inj (Except.ok.inj hv)
      trivial
    · obtain rfl := Option.some.inj (Except.ok.inj hv)
      trivial
    · cases hv
  · cases hv

theorem keepsClean_equal (wanted : Bool) : KeepsClean (equal wanted) := by
  intro symbol words values v _ hv
  unfold equal at hv
  split at hv
  · obtain rfl := Option.some.inj (Except.ok.inj hv)
    trivial
  · cases hv

theorem keepsClean_coalesce : KeepsClean coalesce := by
  intro symbol words values v hvalues hv
  unfold coalesce at hv
  split at hv
  · rename_i left right
    obtain rfl := Option.some.inj (Except.ok.inj hv)
    split
    · exact hvalues right (by simp)
    · exact hvalues left (by simp)
  · cases hv

theorem keepsClean_compare (accepts : Ordering → Bool) : KeepsClean (compare accepts) := by
  intro symbol words values v _ hv
  unfold compare at hv
  split at hv
  · obtain rfl := Option.some.inj (Except.ok.inj hv)
    trivial
  · obtain rfl := Option.some.inj (Except.ok.inj hv)
    trivial
  · cases hv

theorem bind_eq_ok {α β : Type} {x : Except Error α} {f : α → Except Error β} {b : β}
    (h : (x >>= f) = .ok b) : ∃ a, x = .ok a ∧ f a = .ok b := by
  cases x with
  | error error => cases h
  | ok a => exact ⟨a, rfl, h⟩

theorem keepsClean_logical (f : Bool → Bool → Bool) : KeepsClean (logical f) := by
  intro symbol words values v _ hv
  unfold logical at hv
  split at hv
  · obtain ⟨l, _, hv⟩ := bind_eq_ok hv
    obtain ⟨r, _, hv⟩ := bind_eq_ok hv
    obtain rfl := Option.some.inj (Except.ok.inj hv)
    trivial
  · cases hv

theorem keepsClean_negate : KeepsClean negate := by
  intro symbol words values v _ hv
  unfold negate at hv
  split at hv
  · obtain ⟨t, _, hv⟩ := bind_eq_ok hv
    obtain rfl := Option.some.inj (Except.ok.inj hv)
    trivial
  · cases hv

theorem keepsClean_choose : KeepsClean choose := by
  intro symbol words values v hvalues hv
  unfold choose at hv
  split at hv
  · obtain ⟨t, _, hv⟩ := bind_eq_ok hv
    obtain rfl := Option.some.inj (Except.ok.inj hv)
    cases t <;> exact hvalues _ (by simp)
  · obtain ⟨t, _, hv⟩ := bind_eq_ok hv
    obtain rfl := Option.some.inj (Except.ok.inj hv)
    cases t <;> exact hvalues _ (by simp)
  · cases hv

/-- Every operator keeps values clean, and all but equality are blind to words. -/
theorem entry_cases {symbol : Symbol} {f : Function} (h : (symbol, f) ∈ general ++ logic) :
    KeepsClean f ∧
      (symbol = .infixOp "==" ∧ f = equal true ∨ symbol = .infixOp "!=" ∧ f = equal false ∨
        symbol ≠ .infixOp "==" ∧ symbol ≠ .infixOp "!=" ∧ Blind f) := by
  have blind : ∀ {s : Symbol} {g : Function}, s ≠ .infixOp "==" → s ≠ .infixOp "!=" → Blind g →
      (s = .infixOp "==" ∧ g = equal true ∨ s = .infixOp "!=" ∧ g = equal false ∨
        s ≠ .infixOp "==" ∧ s ≠ .infixOp "!=" ∧ Blind g) := fun h h' hb => .inr (.inr ⟨h, h', hb⟩)
  simp only [general, logic, List.cons_append, List.nil_append, List.mem_cons, Prod.mk.injEq,
    List.not_mem_nil, or_false] at h
  rcases h with ⟨rfl, rfl⟩ | ⟨rfl, rfl⟩ | ⟨rfl, rfl⟩ | ⟨rfl, rfl⟩ | ⟨rfl, rfl⟩ | ⟨rfl, rfl⟩ |
    ⟨rfl, rfl⟩ | ⟨rfl, rfl⟩ | ⟨rfl, rfl⟩ | ⟨rfl, rfl⟩ | ⟨rfl, rfl⟩ | ⟨rfl, rfl⟩ | ⟨rfl, rfl⟩ |
    ⟨rfl, rfl⟩ | ⟨rfl, rfl⟩
  · exact ⟨keepsClean_always trivial, blind (by decide) (by decide) fun _ _ _ => rfl⟩
  · exact ⟨keepsClean_join, blind (by decide) (by decide) fun _ _ _ => rfl⟩
  · exact ⟨keepsClean_equal true, .inl ⟨rfl, rfl⟩⟩
  · exact ⟨keepsClean_equal false, .inr (.inl ⟨rfl, rfl⟩)⟩
  · exact ⟨keepsClean_coalesce, blind (by decide) (by decide) fun _ _ _ => rfl⟩
  · exact ⟨keepsClean_always trivial, blind (by decide) (by decide) fun _ _ _ => rfl⟩
  · exact ⟨keepsClean_always trivial, blind (by decide) (by decide) fun _ _ _ => rfl⟩
  · exact ⟨keepsClean_logical _, blind (by decide) (by decide) fun _ _ _ => rfl⟩
  · exact ⟨keepsClean_logical _, blind (by decide) (by decide) fun _ _ _ => rfl⟩
  · exact ⟨keepsClean_negate, blind (by decide) (by decide) fun _ _ _ => rfl⟩
  · exact ⟨keepsClean_compare _, blind (by decide) (by decide) fun _ _ _ => rfl⟩
  · exact ⟨keepsClean_compare _, blind (by decide) (by decide) fun _ _ _ => rfl⟩
  · exact ⟨keepsClean_compare _, blind (by decide) (by decide) fun _ _ _ => rfl⟩
  · exact ⟨keepsClean_compare _, blind (by decide) (by decide) fun _ _ _ => rfl⟩
  · exact ⟨keepsClean_choose, blind (by decide) (by decide) fun _ _ _ => rfl⟩

/-- An operator on words and the one on values that is found in its place. -/
theorem lookup?_unboxed (options : Options) (symbol : Symbol) :
    (lookup? options symbol = none ∧ unboxed? options symbol = none) ∨
      ∃ f g, lookup? options symbol = some f ∧ unboxed? options symbol = some g ∧ KeepsClean f ∧
        ∀ {t : Table} {words : List Word} {values : List Value}, t.WellFormed →
          List.Forall₂ (Word.StandsFor t) words values →
          f symbol words values = g symbol [] values := by
  cases hf : lookup? options symbol with
  | none =>
    left
    have habsent : ∀ f, (symbol, f) ∉ general := by
      intro f hmem
      have hentry : (symbol, f) ∈ if options.logic then general ++ logic else general := by
        split
        · exact List.mem_append_left _ hmem
        · exact hmem
      simpa using List.lookup_eq_none_iff.1 hf _ hentry
    have hne : symbol ≠ .infixOp "==" := by
      rintro rfl
      exact habsent (equal true) (by simp [general])
    have hne' : symbol ≠ .infixOp "!=" := by
      rintro rfl
      exact habsent (equal false) (by simp [general])
    rw [unboxed?, if_neg hne, if_neg hne']
    exact ⟨rfl, hf⟩
  | some f =>
    right
    have hmem : (symbol, f) ∈ general ++ logic := by
      unfold lookup? at hf
      obtain ⟨before, after, heq, _⟩ := List.lookup_eq_some_iff.1 hf
      have hentry : (symbol, f) ∈ if options.logic then general ++ logic else general :=
        heq ▸ List.mem_append_right _ List.mem_cons_self
      split at hentry
      · exact hentry
      · exact List.mem_append_left _ hentry
    obtain ⟨hclean, hcases⟩ := entry_cases hmem
    rcases hcases with ⟨rfl, rfl⟩ | ⟨rfl, rfl⟩ | ⟨hne, hne', hblind⟩
    · exact ⟨_, _, rfl, by rw [unboxed?, if_pos rfl], hclean,
        fun ht hwords => equal_unboxed ht hwords _ true⟩
    · exact ⟨_, _, rfl, by rw [unboxed?, if_neg (by decide), if_pos rfl], hclean,
        fun ht hwords => equal_unboxed ht hwords _ false⟩
    · exact ⟨f, f, rfl, by rw [unboxed?, if_neg hne, if_neg hne', hf], hclean,
        fun _ _ => hblind _ _ _⟩

end Value.Library
end Formula
