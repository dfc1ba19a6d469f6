import Formula.Tree.Printer

/-! The stack of operands and operators of one subexpression, and how it collapses to a tree.
The role that spacing gives an operator may still change when its neighbours are known: a
postfix operator before an operand was infix, and an operator after an infix one is prefix.
Main statement: `collapseFrom` ends on every stack. Each step lowers the burden of the stack,
a count of loose operators in which one that waits for its right operand is cheap, and an
operand costs what tearing its postfix operators off again would yield. -/
namespace Formula

inductive Role where
  | infixOp
  | prefixOp
  | postfixOp
deriving DecidableEq

inductive Item where
  | operand (tree : Tree Float)
  | operator (role : Role) (name : String)
  /-- The part of a conditional from its question mark to its colon. -/
  | branch (yes : Tree Float)

namespace Item

def isOperand : Item → Bool
  | operand _ => true
  | _ => false

/-- The token that the item is reported by. -/
def token : Item → String
  | operand tree => tree.text
  | operator _ name => name
  | branch _ => ":"

def unexpected (item : Item) : Error := .unexpectedToken item.token

end Item

namespace Stack

open Item Formula.Tree

/-- What to do where collapsing has got to. -/
inductive Move where
  | stop
  | fail (error : Error)
  /-- Put `after` in place of the items from here on and go `count` items further. -/
  | advance (count : Nat) (after : List Item)
  /-- Put `after` in place of the items from here on and start again at the bottom. -/
  | restart (after : List Item)

/-- An infix node; a colon completes a question mark on its left to a conditional. -/
def infixNode (op : String) (left right : Tree Float) : Tree Float :=
  match left with
  | apply (.infixOp mark) [condition, yes] =>
    if op = ":" ∧ mark = "?" then apply (.infixOp "?:") [condition, yes, right]
    else apply (.infixOp op) [left, right]
  | _ => apply (.infixOp op) [left, right]

/-- Whether what follows the right operand of `op` has to be dealt with first. -/
def isHeldBack (op : String) : List Item → Bool
  | [] => false
  | operand _ :: _ => true
  | branch _ :: _ => !Precedence.bindsFirst op "?"
  | operator role next :: rest =>
    role == .postfixOp || rest.isEmpty || !Precedence.bindsFirst op next

/-- Joins two operands unless something after them has to be dealt with first. -/
def join (op : String) (node : Tree Float) (left : Item) (middle : Item) (right : Item)
    (rest : List Item) : Move :=
  if isHeldBack op rest then .advance 2 (left :: middle :: right :: rest)
  else .restart (operand node :: rest)

/-- The move at the start of the given items. -/
def move : List Item → Move
  | operand x :: operand y :: rest =>
    match x with
    | apply (.postfixOp op) [left] =>
      .restart (operand left :: operator .infixOp op :: operand y :: rest)
    | _ => .fail (operand y).unexpected
  | operand x :: operator role op :: rest =>
    if role = .postfixOp ∨ rest = [] then .restart (operand (apply (.postfixOp op) [x]) :: rest)
    else match rest with
      | operand y :: rest =>
        join op (infixNode op x y) (operand x) (operator role op) (operand y) rest
      | operator next name :: rest =>
        if next = .prefixOp ∨ Precedence.isKnownInfix op then
          .advance 2 (operand x :: operator role op :: operator .prefixOp name :: rest)
        else .advance 0 (operand x :: operator .postfixOp op :: operator next name :: rest)
      | item :: _ => .fail item.unexpected
      | [] => .stop
  | operand x :: branch yes :: rest =>
    match rest with
    | operand no :: rest =>
      join "?" (apply (.infixOp "?:") [x, yes, no]) (operand x) (branch yes) (operand no) rest
    | operator _ name :: rest =>
      .advance 2 (operand x :: branch yes :: operator .prefixOp name :: rest)
    | _ => .fail (branch yes).unexpected
  | operator _ op :: operand y :: rest => .restart (operand (apply (.prefixOp op) [y]) :: rest)
  | operator role op :: operator next name :: rest =>
    .advance 1 (operator role op :: operator next name :: rest)
  | operator _ _ :: branch yes :: _ => .fail (branch yes).unexpected
  | branch yes :: _ :: _ => .fail (branch yes).unexpected
  | _ => .stop

/-! ### The burden of a stack -/

/-- The number of postfix operators at the top of a tree. -/
def postfixDepth : Tree Float → Nat
  | apply (.postfixOp _) [x] => postfixDepth x + 1
  | _ => 0

def startsOperand : List Item → Bool
  | operand _ :: _ => true
  | _ => false

def burden : List Item → Nat
  | [] => 0
  | operand x :: rest => 2 * postfixDepth x + burden rest
  | branch _ :: rest => 1 + burden rest
  | operator role _ :: rest =>
    (if role ≠ .postfixOp ∧ startsOperand rest then 1 else 3) + burden rest

def loose : Item → Bool
  | operator role _ => role ≠ .postfixOp
  | _ => false

theorem burden_append {a b : List Item} {k : Nat} (hs : startsOperand a → startsOperand b)
    (h : burden b + k ≤ burden a) (l : List Item) : burden (l ++ b) + k ≤ burden (l ++ a) := by
  induction l with
  | nil => exact h
  | cons item l ih =>
    have hstart : startsOperand (l ++ a) → startsOperand (l ++ b) := by
      cases l with
      | nil => exact hs
      | cons other l => cases other <;> simp [startsOperand]
    cases item with
    | operand x => simp only [List.cons_append, burden]; omega
    | branch x => simp only [List.cons_append, burden]; omega
    | operator role name =>
      simp only [List.cons_append, burden]
      split <;> split <;> first | omega | simp_all

/-- Calling an operator prefix never makes the stack heavier. -/
theorem burden_prefixOp (role : Role) (name : String) (rest : List Item) :
    burden (operator .prefixOp name :: rest) ≤ burden (operator role name :: rest) := by
  simp only [burden]
  split <;> split <;> simp_all

/-- A move that relabels the stack in place. -/
def Settles (after after' : List Item) (count : Nat) : Prop :=
  burden after' ≤ burden after ∧ (startsOperand after → startsOperand after') ∧
    after'.length = after.length ∧ count ≤ after.length ∧
    (count = 0 → after'.countP loose < after.countP loose)

/-- A move that lightens the stack. -/
def Lightens (after after' : List Item) : Prop :=
  burden after' + 1 ≤ burden after ∧ (startsOperand after → startsOperand after')

theorem join_advance {op : String} {node : Tree Float} {left middle right : Item}
    {rest after' : List Item} {count : Nat}
    (h : join op node left middle right rest = .advance count after') :
    Settles (left :: middle :: right :: rest) after' count := by
  unfold join at h
  split at h
  · simp only [Move.advance.injEq] at h
    obtain ⟨rfl, rfl⟩ := h
    simp [Settles]
  · simp at h

theorem infixNode_depth (op : String) (x y : Tree Float) : postfixDepth (infixNode op x y) = 0 := by
  unfold infixNode
  split
  · split <;> rfl
  · rfl

theorem move_advance {after after' : List Item} {count : Nat}
    (h : move after = .advance count after') : Settles after after' count := by
  unfold move at h
  split at h
  · split at h <;> simp at h
  · split at h
    · simp at h
    · split at h
      · exact join_advance h
      · split at h
        · rename_i next name rest _ _
          simp only [Move.advance.injEq] at h
          obtain ⟨rfl, rfl⟩ := h
          refine ⟨?_, by simp [startsOperand], by simp, by simp, by simp⟩
          have := burden_prefixOp next name rest
          simp only [burden, startsOperand, Bool.false_eq_true, and_false, if_false] at this ⊢
          omega
        · simp only [Move.advance.injEq] at h
          obtain ⟨rfl, rfl⟩ := h
          refine ⟨?_, by simp [startsOperand], by simp, by simp, ?_⟩
          · simp_all [burden, startsOperand]
          · simp_all [List.countP_cons, loose]
      · simp at h
      · simp at h
  · split at h
    · exact join_advance h
    · rename_i role name rest
      simp only [Move.advance.injEq] at h
      obtain ⟨rfl, rfl⟩ := h
      refine ⟨?_, by simp [startsOperand], by simp, by simp, by simp⟩
      have := burden_prefixOp role name rest
      simp only [burden] at this ⊢
      omega
    · simp at h
  · simp at h
  · simp only [Move.advance.injEq] at h
    obtain ⟨rfl, rfl⟩ := h
    exact ⟨Nat.le_refl _, id, rfl, by simp, by simp⟩
  all_goals simp at h

theorem move_restart {after after' : List Item} (h : move after = .restart after') :
    Lightens after after' := by
  unfold move at h
  split at h
  · split at h
    · simp only [Move.restart.injEq] at h
      subst h
      refine ⟨?_, by simp [startsOperand]⟩
      simp [burden, startsOperand, postfixDepth]
      omega
    · simp at h
  · split at h
    · rename_i hr
      simp only [Move.restart.injEq] at h
      subst h
      refine ⟨?_, by simp [startsOperand]⟩
      rcases hr with hr | hr
      · simp [burden, startsOperand, postfixDepth, hr]
        omega
      · simp [burden, startsOperand, postfixDepth, hr]
        omega
    · split at h
      · unfold join at h
        split at h
        · simp at h
        · simp only [Move.restart.injEq] at h
          subst h
          refine ⟨?_, by simp [startsOperand]⟩
          simp only [burden, infixNode_depth]
          split <;> omega
      · split at h <;> simp at h
      · simp at h
      · simp at h
  · split at h
    · unfold join at h
      split at h
      · simp at h
      · simp only [Move.restart.injEq] at h
        subst h
        refine ⟨?_, by simp [startsOperand]⟩
        simp only [burden, postfixDepth]
        omega
    · simp at h
    · simp at h
  · simp only [Move.restart.injEq] at h
    subst h
    refine ⟨?_, by simp [startsOperand]⟩
    simp only [burden, postfixDepth]
    split <;> omega
  all_goals simp at h

/-- Collapses the stack that reads `before` backwards and then `after`, from `after` on, until no
move is left. -/
def collapseFrom (before after : List Item) : Except Error (List Item) :=
  match _h : move after with
  | .stop => .ok (before.reverseAux after)
  | .fail error => .error error
  | .advance count after' =>
    collapseFrom ((after'.take count).reverseAux before) (after'.drop count)
  | .restart after' => collapseFrom [] (before.reverseAux after')
termination_by (burden (before.reverseAux after), after.length, after.countP loose)
decreasing_by
  · obtain ⟨hb, hs, hl, hc, hz⟩ := move_advance ‹_›
    have hsame : ((after'.take count).reverseAux before).reverseAux (after'.drop count) =
        before.reverseAux after' := by simp [List.reverseAux_eq]
    have hle := burden_append (k := 0) hs hb before.reverse
    rw [hsame]
    simp only [List.reverseAux_eq, Nat.add_zero] at hle ⊢
    rcases Nat.lt_or_eq_of_le hle with hlt | heq
    · exact Prod.Lex.left _ _ hlt
    · rw [heq]
      apply Prod.Lex.right
      cases count with
      | zero =>
        simp only [List.drop_zero, hl]
        exact Prod.Lex.right _ (hz rfl)
      | succ n =>
        apply Prod.Lex.left
        rw [List.length_drop]
        omega
  · obtain ⟨hb, hs⟩ := move_restart ‹_›
    apply Prod.Lex.left
    have := burden_append hs hb before.reverse
    simp only [List.reverseAux_eq, List.reverse_nil, List.nil_append]
    exact this

/-- The tree of a stack that is read from the bottom. -/
def finish (items : List Item) : Except Error (Tree Float) :=
  match collapseFrom [] items with
  | .error error => .error error
  | .ok [] => .error (.unexpectedToken "")
  | .ok [operand tree] => .ok tree
  | .ok (item :: items) =>
    .error (((item :: items).find? fun item => !item.isOperand).getD
      ((item :: items).getLast (List.cons_ne_nil _ _))).unexpected

end Stack
end Formula
