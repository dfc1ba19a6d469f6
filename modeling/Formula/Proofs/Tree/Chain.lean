import Formula.Parser.Shift
import Formula.Proofs.Tree.Collapse

/-! Chains of operands with an infix operator between each two. Main statements: every chain has a
tree that groups it by precedence, and the stack of a chain collapses to every such tree, so there
is only one, whatever role each operator was given by the blanks around it. -/
namespace Formula

namespace Tree

/-- An operator and the variable after it. There may be a blank on each side of the operator. -/
structure Link where
  before : Bool
  op : String
  after : Bool
  name : String

structure Chain where
  first : String
  links : List Link

namespace Chain

/-- The tree has the variables and operators of the chain in their order. What stands on the left
of an operator comes before it, and the operator does not come before what stands on its right. The
blanks have no part in this. -/
inductive Groups : Chain → Tree Float → Prop where
  | operand (name : String) : Groups ⟨name, []⟩ (named name)
  | join {name : String} {links later : List Link} {link : Link} {left right : Tree Float}
    (hleft : Groups ⟨name, links⟩ left) (hright : Groups ⟨link.name, later⟩ right)
    (before : ∀ own ∈ left.top?, Precedence.bindsFirst own link.op = true)
    (after : ∀ own ∈ right.top?, Precedence.bindsFirst link.op own = false) :
    Groups ⟨name, links ++ link :: later⟩ (apply (.infixOp link.op) [left, right])

variable {name : String} {links : List Link} {c : Chain} {t : Tree Float}

/-- One more link goes to the right of all that comes before it. -/
theorem Groups.extend (h : Groups c t) (link : Link) :
    ∃ t', Groups ⟨c.first, c.links ++ [link]⟩ t' ∧
      ∀ own ∈ t'.top?, own = link.op ∨ own ∈ t.top? := by
  induction h with
  | operand name =>
    have hjoin : Groups ⟨name, [] ++ link :: []⟩
        (apply (.infixOp link.op) [named name, named link.name]) :=
      .join (.operand name) (.operand link.name) (by rintro own ⟨⟩) (by rintro own ⟨⟩)
    refine ⟨_, hjoin, ?_⟩
    rintro own ⟨⟩
    exact .inl rfl
  | @join name links later inner left right hleft hright before after _ ih =>
    cases hfirst : Precedence.bindsFirst inner.op link.op with
    | true =>
      refine ⟨apply (.infixOp link.op) [apply (.infixOp inner.op) [left, right], named link.name],
        ?_, ?_⟩
      · refine .join (.join hleft hright before after) (.operand link.name) ?_ (by rintro own ⟨⟩)
        rintro own ⟨⟩
        exact hfirst
      · rintro own ⟨⟩
        exact .inl rfl
    | false =>
      obtain ⟨right', hright', htop⟩ := ih
      refine ⟨apply (.infixOp inner.op) [left, right'], ?_, ?_⟩
      · have hjoin := Groups.join hleft hright' before fun own hown => by
          rcases htop own hown with rfl | hown
          · exact hfirst
          · exact after own hown
        dsimp only
        rw [List.append_assoc]
        exact hjoin
      · rintro own ⟨⟩
        exact .inr rfl

theorem exists_groups (c : Chain) : ∃ t, Groups c t := by
  obtain ⟨name, links⟩ := c
  induction links using List.reverseRecOn with
  | nil => exact ⟨_, .operand name⟩
  | append_singleton links link ih =>
    obtain ⟨t, ht⟩ := ih
    obtain ⟨t', ht', -⟩ := ht.extend link
    exact ⟨t', ht'⟩

open Item Stack

def linkItems (links : List Link) : List Item :=
  links.flatMap fun link =>
    [operator (Parser.role link.before link.after) link.op, operand (named link.name)]

/-- What a chain leaves on the stack, from the bottom. -/
def items (c : Chain) : List Item := operand (named c.first) :: linkItems c.links

theorem items_join (name : String) (links later : List Link) (link : Link) :
    (Chain.mk name (links ++ link :: later)).items =
      (Chain.mk name links).items ++ operator (Parser.role link.before link.after) link.op ::
        (Chain.mk link.name later).items := by
  simp [items, linkItems]

/-! ### Collapsing -/

variable {left right : Tree Float} {before after : List Item} {q : Option String} {op : String}
  {later : List Link} {link : Link}

/-- The stack of the chain comes to the tree, unless what stands around it comes first. -/
def Completes (c : Chain) (t : Tree Float) : Prop :=
  ∀ ⦃before after q⦄, Waits before q →
    (∀ own ∈ t.top?, Yields q own ∧ isHeldBack own after = false) →
    collapseFrom [] (before ++ (c.items ++ after)) = collapseFrom [] (before ++ operand t :: after)

/-- An operator that was taken for a postfix one after the chain joins it with the operand that
follows. -/
def Retags (c : Chain) (t : Tree Float) : Prop :=
  ∀ ⦃before q⦄, Waits before q → (∀ own ∈ t.top?, Yields q own) → ∀ op y rest,
    collapseFrom [] (before ++ (c.items ++ operator .postfixOp op :: operand y :: rest)) =
      collapseFrom [] (before ++ (c.items ++ operator .infixOp op :: operand y :: rest))

theorem completes_operand (name : String) : Completes ⟨name, []⟩ (named name) := by
  intro before after q _ _
  rfl

/-- The operator is applied, and torn off again at the operand that follows. -/
theorem retags_operand (name : String) : Retags ⟨name, []⟩ (named name) := by
  intro before q hbefore _ op y rest
  have htear : move (operand (apply (.postfixOp op) [named name]) :: operand y :: rest) =
      .restart (operand (named name) :: operator .infixOp op :: operand y :: rest) := rfl
  have hholds : ∀ own ∈ q,
      Holds own (operand (apply (.postfixOp op) [named name]) :: operand y :: rest) :=
    fun _ _ => rfl
  calc collapseFrom [] (before ++ operand (named name) :: operator .postfixOp op ::
          operand y :: rest)
      = collapseFrom [] (before ++ operand (apply (.postfixOp op) [named name]) ::
          operand y :: rest) := collapse_postfixOp op (named name) hbefore (.inl rfl)
    _ = collapseFrom [] (before ++ operand (named name) :: operator .infixOp op ::
          operand y :: rest) := by
        rw [hbefore _ hholds, collapseFrom_restart htear, List.reverse_reverse]

/-- The role that an operator has once the operand after it is known. -/
def joining (role : Role) : Role := if role = .postfixOp then .infixOp else role

theorem joins_joining (role : Role) (hcolon : op ≠ ":") :
    Joins op (operator (joining role) op) fun left right => apply (.infixOp op) [left, right] :=
  .operator (by cases role <;> decide) (infixNode_eq hcolon)

theorem Retags.joining (h : Retags c t) (hbefore : Waits before q)
    (hq : ∀ own ∈ t.top?, Yields q own) (role : Role) (op : String) (y : Tree Float)
    (rest : List Item) :
    collapseFrom [] (before ++ (c.items ++ operator role op :: operand y :: rest)) =
      collapseFrom [] (before ++ (c.items ++ operator (Chain.joining role) op ::
        operand y :: rest)) := by
  cases role with
  | postfixOp => exact h hbefore hq op y rest
  | infixOp => rfl
  | prefixOp => rfl

theorem wrapsLeft_eq_false (h : ∀ own ∈ t.top?, Precedence.bindsFirst own op = true) :
    wrapsLeft op t = false := by
  unfold wrapsLeft
  cases htop : t.top? with
  | none => rfl
  | some own => simp [h own htop]

theorem wrapsRight_eq_false (h : ∀ own ∈ t.top?, Precedence.bindsFirst op own = false) :
    wrapsRight op t = false := by
  unfold wrapsRight
  cases htop : t.top? with
  | none => rfl
  | some own => simp [h own htop]

/-- Collapsing completes the left part of a node before it goes on to the right part. -/
theorem collapse_left (hleft : Completes ⟨name, links⟩ left) (hretags : Retags ⟨name, links⟩ left)
    (hcolon : link.op ≠ ":") (hfirst : ∀ own ∈ left.top?, Precedence.bindsFirst own link.op = true)
    (hbefore : Waits before q) (hq : Yields q link.op) (rest : List Item) :
    collapseFrom [] (before ++ ((Chain.mk name (links ++ link :: later)).items ++ rest)) =
      collapseFrom [] (before ++ [operand left,
        operator (joining (Parser.role link.before link.after)) link.op] ++
          ((Chain.mk link.name later).items ++ rest)) := by
  have hjoins := joins_joining (Parser.role link.before link.after) hcolon
  have hyields : ∀ own ∈ left.top?, Yields q own := fun own hown first hmem =>
    Precedence.not_bindsFirst_trans (hq first hmem) (hfirst own hown)
  have hne : (Chain.mk link.name later).items ++ rest ≠ [] := List.cons_ne_nil _ _
  have hfits := hjoins.fits_left hq hne (wrapsLeft_eq_false hfirst)
  calc collapseFrom [] (before ++ ((Chain.mk name (links ++ link :: later)).items ++ rest))
      = collapseFrom [] (before ++ ((Chain.mk name links).items ++
          operator (Parser.role link.before link.after) link.op ::
            ((Chain.mk link.name later).items ++ rest))) := by
        rw [items_join, List.append_assoc, List.cons_append]
    _ = collapseFrom [] (before ++ ((Chain.mk name links).items ++
          operator (joining (Parser.role link.before link.after)) link.op ::
            ((Chain.mk link.name later).items ++ rest))) := hretags.joining hbefore hyields _ _ _ _
    _ = collapseFrom [] (before ++ operand left ::
          operator (joining (Parser.role link.before link.after)) link.op ::
            ((Chain.mk link.name later).items ++ rest)) := hleft hbefore hfits
    _ = _ := by
        rw [List.append_assoc]
        rfl

/-- The stack of a chain collapses to the tree that groups it. -/
theorem Groups.collapse (h : Groups c t) (hcolon : ∀ link ∈ c.links, link.op ≠ ":") :
    Completes c t ∧ Retags c t := by
  induction h with
  | operand name => exact ⟨completes_operand name, retags_operand name⟩
  | @join name links later link left right _ _ hfirst hlater ihl ihr =>
    obtain ⟨hleft, hretags⟩ := ihl fun other hmem => hcolon other (List.mem_append_left _ hmem)
    obtain ⟨hright, hright'⟩ := ihr fun other hmem =>
      hcolon other (List.mem_append_right _ (List.mem_cons_of_mem _ hmem))
    have hcolon : link.op ≠ ":" := hcolon link (by simp)
    have hjoins := joins_joining (Parser.role link.before link.after) hcolon
    constructor
    · intro before after q hbefore htop
      obtain ⟨hq, hafter⟩ := htop link.op rfl
      rw [collapse_left hleft hretags hcolon hfirst hbefore hq,
        hright (hjoins.waits hbefore hq) (Joins.fits_right hafter (wrapsRight_eq_false hlater)),
        List.append_assoc]
      exact hjoins.collapse hbefore hq hafter
    · intro before q hbefore htop op y rest
      have hq : Yields q link.op := htop link.op rfl
      have hyields : ∀ own ∈ right.top?, Yields (some link.op) own := by
        rintro own hown _ ⟨⟩
        exact hlater own hown
      rw [collapse_left hleft hretags hcolon hfirst hbefore hq,
        hright' (hjoins.waits hbefore hq) hyields,
        ← collapse_left hleft hretags hcolon hfirst hbefore hq]

theorem Groups.finish (h : Groups c t) (hcolon : ∀ link ∈ c.links, link.op ≠ ":") :
    Stack.finish c.items = .ok t := by
  have hcollapse := (h.collapse hcolon).1 waits_nil fun own _ =>
    ⟨yields_none own, (rfl : isHeldBack own [] = false)⟩
  rw [List.append_nil] at hcollapse
  exact finish_of_collapse hcollapse

/-- A chain has one tree only. -/
theorem Groups.unique {t' : Tree Float} (h : Groups c t) (h' : Groups c t')
    (hcolon : ∀ link ∈ c.links, link.op ≠ ":") : t' = t :=
  Except.ok.inj ((h'.finish hcolon).symm.trans (h.finish hcolon))

end Chain
end Tree
end Formula
