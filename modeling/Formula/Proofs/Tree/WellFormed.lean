import Formula.Proofs.Number.Bits
import Formula.Proofs.Tree.Yield

/-! Well-formed trees: what may stand in a tree of source text, and with how many arguments. Main
statement: a stack of well-formed operands collapses to a well-formed tree. -/
namespace Formula

namespace Symbol

/-- Whether the symbol stands with so many arguments. Only a conditional is an infix operator with
three. -/
def Takes : Symbol → Nat → Prop
  | var _, count => count = 0
  | infixOp op, count => count = 2 ∨ count = 3 ∧ op = "?:"
  | prefixOp _, count | postfixOp _, count | array _, count => count = 1
  | function _ arity, count => count = arity

/-- A variable, a function and an array have a name that scans as one token, bare or in quotes. -/
def IsNamed : Symbol → Prop
  | var name | function name _ | array name =>
    Token.isName name = true ∨ Quoted.isQuoted name = true
  | infixOp _ | prefixOp _ | postfixOp _ => True

/-- The token that a symbol is written with; a conditional has two. -/
def token : Symbol → Token
  | infixOp op | prefixOp op | postfixOp op => Token.ofOperator op
  | var name | function name _ | array name => Token.ofName name

end Symbol

/-- A number that a numeral may denote. -/
structure Number.IsMagnitude (x : Float) : Prop where
  finite : isFinite x = true
  unsigned : isNegative x = false

theorem Number.IsMagnitude.exists_shape {x : Float} (h : IsMagnitude x) :
    ∃ mantissa exponent, shape x = .finite false mantissa exponent := by
  obtain ⟨hfinite, hsign⟩ := h
  cases hshape : shape x with
  | nan => simp [isFinite, hshape] at hfinite
  | infinite negative => simp [isFinite, hshape] at hfinite
  | finite negative mantissa exponent =>
    rw [isNegative_of_shape hshape] at hsign
    exact ⟨mantissa, exponent, by rw [hsign]⟩

namespace Tree

/-- No part of the tree is malformed, every symbol has as many arguments as it takes, and every
literal is a number without a sign. -/
inductive WellFormed : Tree Float → Prop where
  | literal {value : Float} (magnitude : Number.IsMagnitude value) : WellFormed (literal value)
  | apply {symbol : Symbol} {args : List (Tree Float)} (takes : symbol.Takes args.length)
    (named : symbol.IsNamed) (all : ∀ arg ∈ args, WellFormed arg) : WellFormed (apply symbol args)

namespace WellFormed

variable {symbol : Symbol} {args : List (Tree Float)} {x y z : Tree Float} {op : String}

theorem takes (h : (Tree.apply symbol args).WellFormed) : symbol.Takes args.length := by
  cases h with
  | apply takes _ _ => exact takes

theorem named (h : (Tree.apply symbol args).WellFormed) : symbol.IsNamed := by
  cases h with
  | apply _ named _ => exact named

theorem of_mem (h : (Tree.apply symbol args).WellFormed) (hx : x ∈ args) : x.WellFormed := by
  cases h with
  | apply _ _ all => exact all x hx

theorem unary (takes : symbol.Takes 1) (named : symbol.IsNamed) (hx : x.WellFormed) :
    (Tree.apply symbol [x]).WellFormed :=
  .apply takes named (by simpa using hx)

theorem infixOp (hx : x.WellFormed) (hy : y.WellFormed) :
    (Tree.apply (.infixOp op) [x, y]).WellFormed :=
  .apply (.inl rfl) trivial (by simp [hx, hy])

theorem conditional (hx : x.WellFormed) (hy : y.WellFormed) (hz : z.WellFormed) :
    (Tree.apply (.infixOp "?:") [x, y, z]).WellFormed :=
  .apply (.inr ⟨rfl, rfl⟩) trivial (by simp [hx, hy, hz])

end WellFormed

/-- A symbol shows between the tokens of its arguments. -/
theorem mem_arrange_self {symbol : Symbol} {args : List (List Token)}
    (h : symbol.Takes args.length) :
    symbol.token ∈ arrange symbol args ∨ symbol = .infixOp "?:" := by
  cases symbol with
  | var name => exact .inl List.mem_cons_self
  | function name arity => exact .inl List.mem_cons_self
  | array name => exact .inl List.mem_cons_self
  | infixOp op =>
    obtain h | ⟨-, rfl⟩ := h
    · obtain ⟨left, right, rfl⟩ := List.length_eq_two.1 h
      exact .inl (List.mem_append_right left List.mem_cons_self)
    · exact .inr rfl
  | prefixOp op =>
    obtain ⟨arg, rfl⟩ := List.length_eq_one_iff.1 h
    exact .inl List.mem_cons_self
  | postfixOp op =>
    obtain ⟨arg, rfl⟩ := List.length_eq_one_iff.1 h
    exact .inl (List.mem_append_right arg List.mem_cons_self)

end Tree

namespace Item

/-- Operators are not looked at: they become symbols when they get their arguments. -/
def WellFormed : Item → Prop
  | operand tree | branch tree => tree.WellFormed
  | operator _ _ => True

end Item

namespace Stack

open Item Formula.Tree

variable {items after rest : List Item}

theorem infixNode_wellFormed {op : String} {left right : Tree Float} (hl : left.WellFormed)
    (hr : right.WellFormed) : (infixNode op left right).WellFormed := by
  unfold infixNode
  split
  · rename_i mark condition yes
    split
    · exact .conditional (hl.of_mem (by simp)) (hl.of_mem (by simp)) hr
    · exact .infixOp hl hr
  · exact .infixOp hl hr

theorem join_wellFormed {op : String} {node : Tree Float} {left middle right : Item}
    (h : (join op node left middle right rest).after? = some after) (hnode : node.WellFormed)
    (hitems : ∀ item ∈ left :: middle :: right :: rest, item.WellFormed) :
    ∀ item ∈ after, item.WellFormed := by
  unfold join at h
  split at h
  · obtain rfl := Option.some.inj h
    exact hitems
  · obtain rfl := Option.some.inj h
    simp only [List.forall_mem_cons] at hitems ⊢
    exact ⟨hnode, hitems.2.2.2⟩

/-- A move joins well-formed operands to one, takes one apart, or relabels an operator. -/
theorem move_wellFormed (h : (move items).after? = some after)
    (hitems : ∀ item ∈ items, item.WellFormed) : ∀ item ∈ after, item.WellFormed := by
  unfold move at h
  split at h
  · rename_i x y rest
    simp only [List.forall_mem_cons] at hitems
    obtain ⟨hx, hy, hrest⟩ := hitems
    split at h
    · rename_i op left
      obtain rfl := Option.some.inj h
      have hleft : left.WellFormed := Tree.WellFormed.of_mem hx (by simp)
      simp only [List.forall_mem_cons]
      exact ⟨hleft, trivial, hy, hrest⟩
    · cases h
  · rename_i x role op rest
    have hall := hitems
    simp only [List.forall_mem_cons] at hitems
    obtain ⟨hx, -, hrest⟩ := hitems
    split at h
    · obtain rfl := Option.some.inj h
      simp only [List.forall_mem_cons]
      exact ⟨.unary rfl trivial hx, hrest⟩
    · split at h
      · rename_i y rest _
        exact join_wellFormed h (infixNode_wellFormed hx (hrest _ List.mem_cons_self)) hall
      · simp only [List.forall_mem_cons] at hrest
        split at h <;>
        · obtain rfl := Option.some.inj h
          simp only [List.forall_mem_cons]
          exact ⟨hx, trivial, trivial, hrest.2⟩
      · cases h
      · cases h
  · rename_i x yes rest
    have hall := hitems
    simp only [List.forall_mem_cons] at hitems
    obtain ⟨hx, hyes, hrest⟩ := hitems
    split at h
    · rename_i no rest
      exact join_wellFormed h (.conditional hx hyes (hrest _ List.mem_cons_self)) hall
    · obtain rfl := Option.some.inj h
      simp only [List.forall_mem_cons] at hrest ⊢
      exact ⟨hx, hyes, trivial, hrest.2⟩
    · cases h
  · rename_i role op y rest
    obtain rfl := Option.some.inj h
    simp only [List.forall_mem_cons] at hitems ⊢
    exact ⟨.unary rfl trivial hitems.2.1, hitems.2.2⟩
  · obtain rfl := Option.some.inj h
    exact hitems
  all_goals cases h

theorem finish_wellFormed {tree : Tree Float} (h : finish items = .ok tree)
    (hitems : ∀ item ∈ items, item.WellFormed) : tree.WellFormed := by
  unfold finish at h
  split at h
  · cases h
  · cases h
  · rename_i t hc
    obtain rfl := Except.ok.inj h
    have hstart : ∀ item ∈ [].reverse ++ items, item.WellFormed := hitems
    obtain ⟨hcollapsed, -⟩ := collapseFrom_forall (fun _ _ => move_wellFormed) hstart
    exact hcollapsed _ hc (operand t) List.mem_cons_self
  · cases h

end Stack
end Formula
