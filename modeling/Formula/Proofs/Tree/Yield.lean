import Formula.Stack

/-! The tokens of a tree in the order of its text, without parentheses and brackets. Main
statement: a stack that collapses to a tree has the yield of that tree, whatever roles its operators
have changed on the way. -/
namespace Formula

namespace Token

/-- The token of a variable, of a function or of an array. -/
def ofName (name : String) : Token :=
  if name.toList.head?.any Quoted.isQuote then .quoted name else .name name

/-- The token of an operator, which may be a comma or a word. -/
def ofOperator (op : String) : Token :=
  if op = "," then .punctuation ','
  else if isName op then .name op
  else .operator op

end Token

namespace Tree

/-- The yield of a symbol applied to arguments, from the yields of the arguments. -/
def arrange (symbol : Symbol) (args : List (List Token)) : List Token :=
  let call := Token.ofName symbol.name :: [Token.punctuation ','].intercalate args
  match symbol, args with
  | .infixOp op, [left, right] => left ++ Token.ofOperator op :: right
  | .infixOp op, [condition, yes, no] =>
    if op = "?:" then
      condition ++ Token.ofOperator "?" :: yes ++ Token.ofOperator ":" :: no
    else call
  | .prefixOp op, [arg] => Token.ofOperator op :: arg
  | .postfixOp op, [arg] => arg ++ [Token.ofOperator op]
  | _, _ => call

mutual

def yield : Tree Float → List Token
  | literal value => [.number value]
  | apply symbol args => arrange symbol (yields args)
  | malformed .. => []

def yields : List (Tree Float) → List (List Token)
  | [] => []
  | arg :: args => yield arg :: yields args

end

@[simp] theorem yields_eq_map (args : List (Tree Float)) : yields args = args.map yield := by
  induction args with
  | nil => rfl
  | cons arg args ih => simp [yields, ih]

variable (left right condition yes no arg : Tree Float) (op name : String)

theorem yield_infix :
    (apply (.infixOp op) [left, right]).yield = left.yield ++ Token.ofOperator op :: right.yield :=
  rfl

theorem yield_ternary :
    (apply (.infixOp "?:") [condition, yes, no]).yield =
      condition.yield ++ Token.ofOperator "?" :: yes.yield ++ Token.ofOperator ":" :: no.yield :=
  rfl

theorem yield_prefix : (apply (.prefixOp op) [arg]).yield = Token.ofOperator op :: arg.yield := rfl

theorem yield_postfix : (apply (.postfixOp op) [arg]).yield = arg.yield ++ [Token.ofOperator op] :=
  rfl

@[simp] theorem yield_named : (named name : Tree Float).yield = [Token.ofName name] := rfl

theorem yield_function (args : List (Tree Float)) :
    (apply (.function name args.length) args).yield =
      Token.ofName name :: [Token.punctuation ','].intercalate (args.map yield) := by
  rw [← yields_eq_map]
  rfl

theorem yield_array : (apply (.array name) [arg]).yield = Token.ofName name :: arg.yield := by
  simp [yield, arrange, Symbol.name]

theorem mem_intercalate {α : Type} {x : α} {between list : List α} {lists : List (List α)}
    (hlist : list ∈ lists) (hx : x ∈ list) : x ∈ between.intercalate lists := by
  induction lists with
  | nil => cases hlist
  | cons first lists ih =>
    cases lists with
    | nil => simp_all
    | cons second lists =>
      rw [List.intercalate_cons_cons]
      rcases List.mem_cons.1 hlist with rfl | hlist
      · exact List.mem_append_left _ (List.mem_append_left _ hx)
      · exact List.mem_append_right _ (ih hlist)

/-- A symbol leaves out no token of its arguments. -/
theorem mem_arrange {symbol : Symbol} {token : Token} {arg : List Token} {args : List (List Token)}
    (harg : arg ∈ args) (h : token ∈ arg) : token ∈ arrange symbol args := by
  have hcall : token ∈ Token.ofName symbol.name ::
      [Token.punctuation ','].intercalate args :=
    List.mem_cons_of_mem _ (mem_intercalate harg h)
  unfold arrange
  dsimp only
  split
  · simp only [List.mem_cons, List.not_mem_nil, or_false] at harg
    rcases harg with rfl | rfl <;> simp [h]
  · split
    · simp only [List.mem_cons, List.not_mem_nil, or_false] at harg
      rcases harg with rfl | rfl | rfl <;> simp [h]
    · exact hcall
  · rw [List.mem_singleton.1 harg] at h
    exact List.mem_cons_of_mem _ h
  · rw [List.mem_singleton.1 harg] at h
    exact List.mem_append_left _ h
  · exact hcall

end Tree

namespace Item

def yield : Item → List Token
  | operand tree => tree.yield
  | operator _ name => [Token.ofOperator name]
  | branch yes => Token.ofOperator "?" :: yes.yield ++ [Token.ofOperator ":"]

/-- The yield of a stack that is read from the bottom. -/
def yields (items : List Item) : List Token := items.flatMap yield

variable (item : Item) (items others : List Item)

@[simp] theorem yields_nil : yields [] = [] := rfl

@[simp] theorem yields_cons : yields (item :: items) = item.yield ++ yields items := rfl

@[simp] theorem yields_append : yields (items ++ others) = yields items ++ yields others :=
  List.flatMap_append

@[simp] theorem yield_operand (tree : Tree Float) : (operand tree).yield = tree.yield := rfl

/-- An operator yields the same token in every role. -/
@[simp] theorem yield_operator (role : Role) (name : String) :
    (operator role name).yield = [Token.ofOperator name] := rfl

@[simp] theorem yield_branch (yes : Tree Float) :
    (branch yes).yield = Token.ofOperator "?" :: yes.yield ++ [Token.ofOperator ":"] := rfl

end Item

namespace Stack

open Item Formula.Tree

/-- A colon completes a question mark to a conditional with the same tokens. -/
theorem yield_infixNode (op : String) (left right : Tree Float) :
    (infixNode op left right).yield = left.yield ++ Token.ofOperator op :: right.yield := by
  unfold infixNode
  split
  · split
    · rename_i hop
      obtain ⟨rfl, rfl⟩ := hop
      rw [yield_ternary, yield_infix, List.append_assoc]
    · rfl
  · rfl

/-- What a move puts in place of the items, if it goes on. -/
def Move.after? : Move → Option (List Item)
  | .advance _ after | .restart after => some after
  | .stop | .fail _ => none

/-- What every move keeps holds of the items that are left and, if the stack does not collapse, of
those at which it fails. -/
theorem collapseFrom_kept {P : List Item → Prop} {before after : List Item}
    (hmove : ∀ below items after, (move items).after? = some after → P (below ++ items) →
      P (below ++ after))
    (h : P (before.reverse ++ after)) :
    (∀ items, collapseFrom before after = .ok items → P items) ∧
      ∀ error, collapseFrom before after = .error error →
        ∃ below items, P (below ++ items) ∧ move items = .fail error := by
  fun_induction collapseFrom before after with
  | case1 before after hstop =>
    rw [List.reverseAux_eq]
    constructor
    · intro items heq
      obtain rfl := Except.ok.inj heq
      exact h
    · intro error heq
      cases heq
  | case2 before after error hfail =>
    constructor
    · intro items heq
      cases heq
    · intro other heq
      obtain rfl := Except.error.inj heq
      exact ⟨_, _, h, hfail⟩
  | case3 before after count next hadvance ih =>
    refine ih ?_
    rw [List.reverseAux_eq, List.reverse_append, List.reverse_reverse, List.append_assoc,
      List.take_append_drop]
    exact hmove _ after next (by rw [hadvance]; rfl) h
  | case4 before after next hrestart ih =>
    refine ih ?_
    rw [List.reverse_nil, List.nil_append, List.reverseAux_eq]
    exact hmove _ after next (by rw [hrestart]; rfl) h

/-- What every move keeps of each item holds of the items that are left, and of those at which the
stack does not collapse. -/
theorem collapseFrom_forall {P : Item → Prop} {before after : List Item}
    (hmove : ∀ items after, (move items).after? = some after → (∀ item ∈ items, P item) →
      ∀ item ∈ after, P item)
    (h : ∀ item ∈ before.reverse ++ after, P item) :
    (∀ items, collapseFrom before after = .ok items → ∀ item ∈ items, P item) ∧
      ∀ error, collapseFrom before after = .error error →
        ∃ items, (∀ item ∈ items, P item) ∧ move items = .fail error := by
  have hkept : ∀ below items after : List Item, (move items).after? = some after →
      (∀ item ∈ below ++ items, P item) → ∀ item ∈ below ++ after, P item := by
    intro below items after hafter hitems
    rw [List.forall_mem_append] at hitems ⊢
    exact ⟨hitems.1, hmove items after hafter hitems.2⟩
  obtain ⟨hcollapsed, hfailed⟩ :=
    collapseFrom_kept (P := fun items => ∀ item ∈ items, P item) hkept h
  refine ⟨hcollapsed, fun error herror => ?_⟩
  obtain ⟨below, items, hitems, hfail⟩ := hfailed error herror
  exact ⟨items, fun item hitem => hitems item (List.mem_append_right below hitem), hfail⟩

theorem join_yields {op : String} {node : Tree Float} {left middle right : Item}
    {rest after : List Item} (h : (join op node left middle right rest).after? = some after)
    (hnode : node.yield = left.yield ++ (middle.yield ++ right.yield)) :
    yields after = yields (left :: middle :: right :: rest) := by
  unfold join at h
  split at h
  · simp only [Move.after?, Option.some.injEq] at h
    rw [← h]
  · simp only [Move.after?, Option.some.injEq] at h
    simp [← h, hnode]

/-- No move loses, adds or reorders a token. -/
theorem move_yields {items after : List Item} (h : (move items).after? = some after) :
    yields after = yields items := by
  unfold move at h
  split at h
  · rename_i x y rest
    split at h
    · simp only [Move.after?, Option.some.injEq] at h
      simp [← h, yield_postfix]
    · simp [Move.after?] at h
  · rename_i x role op rest
    split at h
    · simp only [Move.after?, Option.some.injEq] at h
      simp [← h, yield_postfix]
    · split at h
      · exact join_yields h (yield_infixNode op x _)
      · split at h <;>
        · simp only [Move.after?, Option.some.injEq] at h
          simp [← h]
      · simp [Move.after?] at h
      · simp [Move.after?] at h
  · rename_i x yes rest
    split at h
    · refine join_yields h ?_
      rw [yield_ternary]
      simp
    · simp only [Move.after?, Option.some.injEq] at h
      simp [← h]
    · simp [Move.after?] at h
  · simp only [Move.after?, Option.some.injEq] at h
    simp [← h, yield_prefix]
  · simp only [Move.after?, Option.some.injEq] at h
    rw [← h]
  all_goals simp [Move.after?] at h

theorem collapseFrom_yields {before after items : List Item}
    (h : collapseFrom before after = .ok items) :
    yields items = yields (before.reverse ++ after) := by
  have hkept : ∀ below others next : List Item, (move others).after? = some next →
      yields (below ++ others) = yields (before.reverse ++ after) →
      yields (below ++ next) = yields (before.reverse ++ after) := by
    intro below others next hmove hyields
    rw [← hyields, yields_append, yields_append, move_yields hmove]
  exact (collapseFrom_kept (P := fun others => yields others = _) hkept rfl).1 items h

/-- The tree of a stack has the tokens of the stack. -/
theorem finish_yield {items : List Item} {tree : Tree Float} (h : finish items = .ok tree) :
    tree.yield = yields items := by
  unfold finish at h
  split at h
  · simp at h
  · simp at h
  · rename_i t hc
    obtain rfl : t = tree := by simpa using h
    have hy := collapseFrom_yields hc
    simpa using hy
  · simp at h

end Stack
end Formula
