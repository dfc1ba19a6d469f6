import Formula.Proofs.Tree.Collapse

/-! Roles that make no difference. Blanks give an operator its role, but one with no operand on its
left is prefix in the end, and one at the end of the stack is postfix unless it decides what the
operator before it is. Main statement: stacks that differ in such roles only collapse to the same
tree, or fail with the same error. -/
namespace Formula.Stack

open Item Formula.Tree

/-- What stands on the left of a place in a stack. -/
inductive Left where
  /-- No operand that is for this place: an operator here is prefix in the end. -/
  | free
  | operand
  /-- An operand with a postfix operator. -/
  | applied
  /-- An operator on an operand that what follows makes infix or postfix. -/
  | waiting
deriving DecidableEq

namespace Left

/-- Behind an operator on an operand. -/
def ofOperator (role : Role) (name : String) : Left :=
  if role = .postfixOp then applied else if Precedence.isKnownInfix name then free else waiting

/-- What is on the item stands behind it. -/
def after : Left → Item → Left
  | _, .operand _ => operand
  | _, .branch _ => free
  | free, .operator _ _ => free
  | waiting, .operator .prefixOp _ => free
  | _, .operator role name => ofOperator role name

theorem after_waiting {role : Role} (name : String) (h : role ≠ .prefixOp) :
    waiting.after (.operator role name) = applied.after (.operator role name) := by
  cases role with
  | prefixOp => exact absurd rfl h
  | infixOp => rfl
  | postfixOp => rfl

theorem ofOperator_of_unknown {role : Role} {name : String} (hrole : role ≠ .postfixOp)
    (hname : Precedence.isKnownInfix name = false) : ofOperator role name = waiting := by
  simp [ofOperator, hrole, hname]

theorem ofOperator_of_known {role : Role} {name : String} (hrole : role ≠ .postfixOp)
    (hname : Precedence.isKnownInfix name = true) : ofOperator role name = free := by
  simp [ofOperator, hrole, hname]

end Left

variable {left : Left} {a b l : List Item} {name op : String} {x y : Tree Float}

/-! ### Moves of an operand -/

theorem move_on_operator {role : Role} (rest : List Item) :
    move (operand x :: operator role op :: rest) =
      if role = .postfixOp ∨ rest = [] then .restart (operand (apply (.postfixOp op) [x]) :: rest)
      else match rest with
        | operand y :: rest =>
          Stack.join op (infixNode op x y) (operand x) (operator role op) (operand y) rest
        | operator next name :: rest =>
          if next = .prefixOp ∨ Precedence.isKnownInfix op then
            .advance 2 (operand x :: operator role op :: operator .prefixOp name :: rest)
          else .advance 0 (operand x :: operator .postfixOp op :: operator next name :: rest)
        | item :: _ => .fail item.unexpected
        | [] => .stop := rfl

theorem move_on_operand (rest : List Item) :
    move (operand x :: operand y :: rest) = match x with
      | apply (.postfixOp op) [inner] =>
        .restart (operand inner :: operator .infixOp op :: operand y :: rest)
      | _ => .fail (operand y).unexpected := rfl

/-! ### Stacks that differ in roles -/

/-- Stacks behind `left`, read from the bottom, that differ in roles only: of operators with no
operand on their left, and of an operator at the end. -/
inductive Slack : Left → List Item → List Item → Prop
  | nil {left : Left} : Slack left [] []
  | same {left : Left} {a b : List Item} (item : Item) (rest : Slack (left.after item) a b) :
    Slack left (item :: a) (item :: b)
  | first {name : String} {a b : List Item} (role role' : Role) (rest : Slack .free a b) :
    Slack .free (operator role name :: a) (operator role' name :: b)
  | last {left : Left} {name : String} (role role' : Role)
    (settled : left = .waiting → role ≠ .prefixOp ∧ role' ≠ .prefixOp) :
    Slack left [operator role name] [operator role' name]

namespace Slack

theorem refl (left : Left) (a : List Item) : Slack left a a := by
  induction a generalizing left with
  | nil => exact .nil
  | cons item a ih => exact .same item (ih _)

theorem length_eq (h : Slack left a b) : a.length = b.length := by
  induction h with
  | nil => rfl
  | same _ _ ih => exact congrArg Nat.succ ih
  | first _ _ _ ih => exact congrArg Nat.succ ih
  | last => rfl

/-- What is on an operand with a postfix operator may be on the operand that they become. -/
theorem on_operand (h : Slack .applied a b) : Slack .operand a b := by
  cases h with
  | nil => exact .nil
  | same item rest =>
    have hafter : Left.operand.after item = Left.applied.after item := by cases item <;> rfl
    exact .same item (hafter ▸ rest)
  | last role role' _ => exact .last role role' nofun

/-- A part of the stack from some place on may be replaced. -/
theorem split (h : Slack left (l ++ a) b) (hne : a ≠ []) :
    ∃ l' a' left', b = l' ++ a' ∧ l'.length = l.length ∧ Slack left' a a' ∧
      ∀ r r', Slack left' r r' → Slack left (l ++ r) (l' ++ r') := by
  induction l generalizing left b with
  | nil => exact ⟨[], b, left, rfl, rfl, h, fun _ _ hr => hr⟩
  | cons item l ih =>
    generalize hall : item :: l ++ a = all at h
    cases h with
    | nil => cases hall
    | same item rest =>
      cases hall
      obtain ⟨l', a', left', rfl, hlength, hslack, hback⟩ := ih rest
      exact ⟨item :: l', a', left', rfl, congrArg Nat.succ hlength, hslack,
        fun r r' hr => .same item (hback r r' hr)⟩
    | @first name _ _ role role' rest =>
      cases hall
      obtain ⟨l', a', left', rfl, hlength, hslack, hback⟩ := ih rest
      exact ⟨operator role' name :: l', a', left', rfl, congrArg Nat.succ hlength, hslack,
        fun r r' hr => .first role role' (hback r r' hr)⟩
    | last role role' settled =>
      rw [List.cons_append, List.cons.injEq, List.append_eq_nil_iff] at hall
      exact absurd hall.2.2 hne

theorem isHeldBack_eq (h : Slack .operand a b) : isHeldBack op a = isHeldBack op b := by
  cases h with
  | nil => rfl
  | @same _ a b item rest =>
    cases item with
    | operand _ => rfl
    | branch _ => rfl
    | operator role name =>
      have hempty : a.isEmpty = b.isEmpty := by
        rw [Bool.eq_iff_iff, List.isEmpty_iff_length_eq_zero, List.isEmpty_iff_length_eq_zero,
          rest.length_eq]
      simp [isHeldBack, hempty]
  | last _ _ _ => simp [isHeldBack]

end Slack

/-- Moves on such stacks that leave such stacks. -/
inductive Moves (left : Left) : Move → Move → Prop
  | stop : Moves left .stop .stop
  | fail (error : Error) : Moves left (.fail error) (.fail error)
  | advance {a b : List Item} (count : Nat) (slack : Slack left a b) :
    Moves left (.advance count a) (.advance count b)
  | restart {a b : List Item} (slack : Slack left a b) : Moves left (.restart a) (.restart b)

namespace Slack

theorem join {first middle : Item} (h : Slack .operand a b) (node : Tree Float) :
    Moves left (Stack.join op node first middle (operand y) a)
      (Stack.join op node first middle (operand y) b) := by
  unfold Stack.join
  rw [h.isHeldBack_eq]
  split
  · exact .advance 2 (.same _ (.same _ (.same _ h)))
  · exact .restart (.same _ h)

/-- An operator after an infix one, or a colon, becomes prefix. -/
theorem after_infix {role role' : Role}
    (h : Slack left (operator role name :: a) (operator role' name :: b))
    (hleft : left = .free ∨ left = .waiting ∧ role = .prefixOp) :
    Slack left (operator .prefixOp name :: a) (operator .prefixOp name :: b) := by
  cases h with
  | same _ rest =>
    rcases hleft with rfl | ⟨rfl, rfl⟩
    · exact .same _ rest
    · exact .same _ rest
  | first _ _ rest => exact .same _ rest
  | last _ _ _ => exact .same _ .nil

/-- An operator that is made postfix takes the one after it along. -/
theorem after_postfix {role role' : Role}
    (h : Slack .waiting (operator role name :: a) (operator role' name :: b))
    (hrole : role ≠ .prefixOp) :
    Slack .applied (operator role name :: a) (operator role' name :: b) := by
  cases h with
  | same _ rest => exact .same _ (Left.after_waiting name hrole ▸ rest)
  | last _ _ _ => exact .last _ _ nofun

/-- What stands first on both stacks. -/
theorem heads (h : Slack left a b) : a = [] ∧ b = [] ∨
    (∃ y a' b', a = operand y :: a' ∧ b = operand y :: b' ∧ Slack .operand a' b') ∨
    (∃ yes a' b', a = branch yes :: a' ∧ b = branch yes :: b' ∧ Slack .free a' b') ∨
    ∃ role role' name a' b', a = operator role name :: a' ∧ b = operator role' name :: b' := by
  cases h with
  | nil => exact .inl ⟨rfl, rfl⟩
  | @same _ a b item rest =>
    cases item with
    | operand y => exact .inr (.inl ⟨y, a, b, rfl, rfl, rest⟩)
    | branch yes => exact .inr (.inr (.inl ⟨yes, a, b, rfl, rfl, rest⟩))
    | operator role name => exact .inr (.inr (.inr ⟨role, role, name, a, b, rfl, rfl⟩))
  | @first name a b role role' _ => exact .inr (.inr (.inr ⟨role, role', name, a, b, rfl, rfl⟩))
  | @last _ name role role' _ => exact .inr (.inr (.inr ⟨role, role', name, [], [], rfl, rfl⟩))

/-- Whether an operator after another becomes prefix is no matter of its role. -/
theorem known_iff {role next next' : Role}
    (h : Slack (.ofOperator role op) (operator next name :: a) (operator next' name :: b))
    (hrole : role ≠ .postfixOp) :
    next = .prefixOp ∨ Precedence.isKnownInfix op = true ↔
      next' = .prefixOp ∨ Precedence.isKnownInfix op = true := by
  cases hop : Precedence.isKnownInfix op with
  | true => simp
  | false =>
    rw [Left.ofOperator_of_unknown hrole hop] at h
    cases h with
    | same _ _ => exact Iff.rfl
    | last _ _ settled =>
      obtain ⟨hnext, hnext'⟩ := settled rfl
      simp [hnext, hnext']

theorem move_operator {role : Role} (h : Slack (.ofOperator role op) a b) :
    Moves left (move (operand x :: operator role op :: a))
      (move (operand x :: operator role op :: b)) := by
  rw [move_on_operator a, move_on_operator b]
  by_cases hrole : role = .postfixOp
  · rw [if_pos (.inl hrole), if_pos (.inl hrole)]
    rw [Left.ofOperator, if_pos hrole] at h
    exact .restart (.same _ h.on_operand)
  obtain ⟨rfl, rfl⟩ | ⟨y, a, b, rfl, rfl, hrest⟩ | ⟨yes, a, b, rfl, rfl, -⟩ |
    ⟨next, next', name, a, b, rfl, rfl⟩ := h.heads
  · rw [if_pos (.inr rfl)]
    exact .restart (refl _ _)
  · rw [if_neg (by simp [hrole]), if_neg (by simp [hrole])]
    exact hrest.join _
  · rw [if_neg (by simp [hrole]), if_neg (by simp [hrole])]
    exact .fail _
  · rw [if_neg (by simp [hrole]), if_neg (by simp [hrole])]
    dsimp only
    by_cases hnext : next = .prefixOp ∨ Precedence.isKnownInfix op = true
    · rw [if_pos hnext, if_pos ((h.known_iff hrole).1 hnext)]
      refine .advance 2 (.same _ (.same _ (h.after_infix ?_)))
      cases hop : Precedence.isKnownInfix op with
      | true => exact .inl (Left.ofOperator_of_known hrole hop)
      | false =>
        exact .inr ⟨Left.ofOperator_of_unknown hrole hop, by simpa [hop] using hnext⟩
    · rw [if_neg hnext, if_neg (mt (h.known_iff hrole).2 hnext)]
      rw [not_or, Bool.not_eq_true] at hnext
      rw [Left.ofOperator_of_unknown hrole hnext.2] at h
      exact .advance 0 (.same _ (.same _ (h.after_postfix hnext.1)))

theorem move_branch {yes : Tree Float} (h : Slack .free a b) :
    Moves left (move (operand x :: branch yes :: a)) (move (operand x :: branch yes :: b)) := by
  obtain ⟨rfl, rfl⟩ | ⟨y, a, b, rfl, rfl, hrest⟩ | ⟨yes, a, b, rfl, rfl, -⟩ |
    ⟨next, next', name, a, b, rfl, rfl⟩ := h.heads
  · exact .fail _
  · exact hrest.join _
  · exact .fail _
  · exact .advance 2 (.same _ (.same _ (h.after_infix (.inl rfl))))

theorem move_prefix {role role' : Role} {left' : Left} (h : Slack left' a b)
    (hall : Slack left (operator role name :: a) (operator role' name :: b)) :
    Moves left (move (operator role name :: a)) (move (operator role' name :: b)) := by
  obtain ⟨rfl, rfl⟩ | ⟨y, a, b, rfl, rfl, hrest⟩ | ⟨yes, a, b, rfl, rfl, -⟩ |
    ⟨next, next', other, a, b, rfl, rfl⟩ := h.heads
  · exact .stop
  · exact .restart (.same _ hrest)
  · exact .fail _
  · exact .advance 1 hall

theorem move_operands (h : Slack .operand a b) :
    Moves left (move (operand x :: operand y :: a)) (move (operand x :: operand y :: b)) := by
  rw [move_on_operand a, move_on_operand b]
  split
  · exact .restart (.same _ (.same _ (.same _ h)))
  · exact .fail _

end Slack

/-- Stacks that differ in such roles only go on alike. -/
theorem move_slack (h : Slack left a b) : Moves left (move a) (move b) := by
  cases h with
  | nil => exact .stop
  | @same _ a b item rest =>
    cases item with
    | operand x =>
      cases rest with
      | nil => exact .stop
      | same next rest =>
        cases next with
        | operand y => exact rest.move_operands
        | branch yes => exact rest.move_branch
        | operator role name => exact rest.move_operator
      | @last _ name role role' _ =>
        have hmove (role : Role) : move [operand x, operator role name] =
            .restart [operand (apply (.postfixOp name) [x])] := if_pos (.inr rfl)
        rw [hmove, hmove]
        exact .restart (.refl _ _)
    | branch yes =>
      cases rest with
      | nil => exact .stop
      | same _ _ => exact .fail _
      | first _ _ _ => exact .fail _
      | last _ _ _ => exact .fail _
    | operator role name => exact rest.move_prefix (.same _ rest)
  | first role role' rest => exact rest.move_prefix (.first role role' rest)
  | last _ _ _ => exact .stop

/-! ### Collapsing -/

theorem collapseFrom_stop {before after : List Item} (h : move after = .stop) :
    collapseFrom before after = .ok (before.reverse ++ after) := by
  rw [collapseFrom]
  split <;> simp_all [List.reverseAux_eq]

theorem collapseFrom_fail {before after : List Item} {error : Error}
    (h : move after = .fail error) : collapseFrom before after = .error error := by
  rw [collapseFrom]
  split <;> simp_all

/-- Both fail with the same error, or both come to stacks that differ in such roles only. -/
def Matches (p q : Except Error (List Item)) : Prop :=
  (∃ error, p = .error error ∧ q = .error error) ∨
    ∃ a b, p = .ok a ∧ q = .ok b ∧ Slack .free a b

/-- What a move does to the upper part of a stack, in view of all of it. -/
theorem moves_above {before after before' after' : List Item}
    (h : Slack .free (before.reverse ++ after) (before'.reverse ++ after'))
    (hlength : before.length = before'.length) :
    ∃ left, Moves left (move after) (move after') ∧
      (after ≠ [] → ∀ r r', Slack left r r' →
        Slack .free (before.reverse ++ r) (before'.reverse ++ r')) := by
  by_cases hnil : after = []
  · have hall := h.length_eq
    rw [hnil, List.length_append, List.length_append, List.length_reverse, List.length_reverse,
      List.length_nil] at hall
    obtain rfl : after' = [] := List.length_eq_zero_iff.1 (by omega)
    rw [hnil]
    exact ⟨.free, .stop, fun hne => absurd rfl hne⟩
  · obtain ⟨l, a, left, happend, hl, hslack, hback⟩ := h.split hnil
    obtain ⟨hbefore, rfl⟩ := List.append_inj happend (by
      rw [hl, List.length_reverse, List.length_reverse, hlength])
    rw [hbefore]
    exact ⟨left, move_slack hslack, fun _ => hback⟩

theorem ne_nil_of_move {after : List Item} (h : move after ≠ .stop) : after ≠ [] := by
  rintro rfl
  exact h rfl

/-- Collapsing comes to the same from stacks that differ in such roles only. -/
theorem collapseFrom_slack (before after : List Item) {before' after' : List Item}
    (h : Slack .free (before.reverse ++ after) (before'.reverse ++ after'))
    (hlength : before.length = before'.length) :
    Matches (collapseFrom before after) (collapseFrom before' after') := by
  induction before, after using collapseFrom.induct generalizing before' after' with
  | case1 before after hmove =>
    obtain ⟨left, hmoves, -⟩ := moves_above h hlength
    rw [hmove] at hmoves
    generalize hmove' : move after' = other at hmoves
    cases hmoves
    rw [collapseFrom_stop hmove, collapseFrom_stop hmove']
    exact .inr ⟨_, _, rfl, rfl, h⟩
  | case2 before after error hmove =>
    obtain ⟨left, hmoves, -⟩ := moves_above h hlength
    rw [hmove] at hmoves
    generalize hmove' : move after' = other at hmoves
    cases hmoves
    rw [collapseFrom_fail hmove, collapseFrom_fail hmove']
    exact .inl ⟨error, rfl, rfl⟩
  | case3 before after count next hmove ih =>
    obtain ⟨left, hmoves, hback⟩ := moves_above h hlength
    have hne : after ≠ [] := ne_nil_of_move (by simp [hmove])
    rw [hmove] at hmoves
    generalize hmove' : move after' = other at hmoves
    cases hmoves with
    | @advance _ next' _ hslack =>
      have hsplit (before next : List Item) :
          ((next.take count).reverse ++ before).reverse ++ next.drop count =
            before.reverse ++ next := by
        rw [List.reverse_append, List.reverse_reverse, List.append_assoc, List.take_append_drop]
      rw [List.reverseAux_eq] at ih
      rw [collapseFrom_advance hmove, collapseFrom_advance hmove']
      apply ih
      · rw [hsplit, hsplit]
        exact hback hne next next' hslack
      · simp only [List.length_append, List.length_reverse, List.length_take, hslack.length_eq,
          hlength]
  | case4 before after next hmove ih =>
    obtain ⟨left, hmoves, hback⟩ := moves_above h hlength
    have hne : after ≠ [] := ne_nil_of_move (by simp [hmove])
    rw [hmove] at hmoves
    generalize hmove' : move after' = other at hmoves
    cases hmoves with
    | @restart _ next' hslack =>
      rw [List.reverseAux_eq] at ih
      rw [collapseFrom_restart hmove, collapseFrom_restart hmove']
      exact ih (hback hne next next' hslack) rfl

/-- The token that a stack is reported by if it did not collapse to a tree. -/
def reported (items : List Item) : String :=
  ((items.find? fun item => !item.isOperand).map token).getD ((items.getLast?.map token).getD "")

def failure (text : String) : Except Error (Tree Float) := .error (.unexpectedToken text)

/-- The tree that a stack has come to, if it has. -/
def outcome : List Item → Except Error (Tree Float)
  | [operand tree] => .ok tree
  | items => failure (reported items)

theorem finish_eq (items : List Item) : finish items = (collapseFrom [] items).bind outcome := by
  unfold finish
  cases collapseFrom [] items with
  | error error => rfl
  | ok items =>
    have hreported (item : Item) (items : List Item) :
        (((item :: items).find? fun item => !item.isOperand).getD
          ((item :: items).getLast (List.cons_ne_nil _ _))).token = reported (item :: items) := by
      rw [reported, List.getLast?_eq_some_getLast (List.cons_ne_nil item items)]
      cases (item :: items).find? fun item => !item.isOperand <;> rfl
    show _ = outcome items
    match items with
    | [] => rfl
    | [operand tree] => rfl
    | [operator role name] => exact congrArg failure (hreported _ _)
    | [branch yes] => exact congrArg failure (hreported _ _)
    | item :: other :: items =>
      cases item <;> exact congrArg failure (hreported _ _)

namespace Slack

theorem reported_eq (h : Slack left a b) : reported a = reported b := by
  have hlast (item item' : Item) (a b : List Item) (htoken : item.token = item'.token)
      (h : a.getLast?.map token = b.getLast?.map token) :
      (item :: a).getLast?.map token = (item' :: b).getLast?.map token := by
    rw [List.getLast?_cons, List.getLast?_cons, Option.map_some, Option.map_some,
      ← Option.getD_map token, ← Option.getD_map token, h, htoken]
  have hparts : (a.find? fun item => !item.isOperand).map token =
      (b.find? fun item => !item.isOperand).map token ∧
        a.getLast?.map token = b.getLast?.map token := by
    induction h with
    | nil => exact ⟨rfl, rfl⟩
    | same item rest ih =>
      refine ⟨?_, hlast _ _ _ _ rfl ih.2⟩
      cases hitem : item.isOperand <;> simp [hitem, ih.1]
    | first _ _ rest ih => exact ⟨rfl, hlast _ _ _ _ rfl ih.2⟩
    | last => exact ⟨rfl, rfl⟩
  rw [reported, reported, hparts.1, hparts.2]

theorem outcome_eq (h : Slack .free a b) : outcome a = outcome b := by
  have hreported := h.reported_eq
  cases h with
  | nil => rfl
  | same item rest =>
    cases item with
    | operand x =>
      cases rest with
      | nil => rfl
      | same item' rest => exact congrArg failure hreported
      | last _ _ _ => exact congrArg failure hreported
    | operator role name => exact congrArg failure hreported
    | branch yes => exact congrArg failure hreported
  | first _ _ _ => exact congrArg failure hreported
  | last _ _ _ => exact congrArg failure hreported

/-- Stacks that differ in such roles only come to the same tree or the same error. -/
theorem finish_eq (h : Slack .free a b) : finish a = finish b := by
  rw [Stack.finish_eq, Stack.finish_eq]
  have hmatches : Matches (collapseFrom [] a) (collapseFrom [] b) := collapseFrom_slack [] a h rfl
  obtain ⟨error, ha, hb⟩ | ⟨items, items', ha, hb, hslack⟩ := hmatches
  · rw [ha, hb]
  · rw [ha, hb]
    exact hslack.outcome_eq

end Slack
end Formula.Stack
