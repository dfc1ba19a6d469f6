import Formula.Proofs.Tree.Slack
import Formula.Proofs.Tree.Yield

/-! Collapsing a stack in place. The items are looked at, taken off and put back at positions, and
a position outside the stack gives nothing at all. Main statement: from every position of every
stack the loop ends within a number of turns that is quadratic in the size of the stack, never
leaves the stack, comes to what `collapseFrom` comes to, and keeps the tokens. -/
namespace Formula.Stack

open Item Formula.Tree

/-! ### Edits at a position -/

def replace? (items : List Item) (i : Nat) (item : Item) : Option (List Item) :=
  if i < items.length then some (items.set i item) else none

def insert? (items : List Item) (i : Nat) (item : Item) : Option (List Item) :=
  if i ≤ items.length then some (items.insertIdx i item) else none

def remove? (items : List Item) (i : Nat) : Option (Item × List Item) :=
  items[i]?.map fun item => (item, items.eraseIdx i)

/-- The `count` items from a position on, and the stack without them. -/
def drain? (items : List Item) (i count : Nat) : Option (List Item × List Item) :=
  if i + count ≤ items.length then
    some ((items.drop i).take count, items.take i ++ items.drop (i + count))
  else none

section Edits

variable (front lower taken rest : List Item) (old item : Item)

theorem getElem?_above (k : Nat) : (front ++ rest)[front.length + k]? = rest[k]? := by
  rw [List.getElem?_append_right (Nat.le_add_right _ _), Nat.add_sub_cancel_left]

theorem replace?_above :
    replace? (front ++ (lower ++ old :: rest)) (front.length + lower.length) item =
      some (front ++ (lower ++ item :: rest)) := by
  have hset : (front ++ (lower ++ old :: rest)).set (front.length + lower.length) item =
      front ++ (lower ++ item :: rest) := by
    rw [List.set_append_right _ _ (Nat.le_add_right _ _), Nat.add_sub_cancel_left,
      List.set_append_right _ _ (Nat.le_refl _), Nat.sub_self, List.set_cons_zero]
  rw [replace?, if_pos (by simp only [List.length_append, List.length_cons]; omega), hset]

theorem insert?_above :
    insert? (front ++ rest) front.length item = some (front ++ item :: rest) := by
  have hinsert : (front ++ rest).insertIdx front.length item = front ++ item :: rest := by
    induction front with
    | nil => rfl
    | cons first front ih => exact congrArg (List.cons first) ih
  rw [insert?, if_pos (by simp), hinsert]

theorem remove?_above :
    remove? (front ++ item :: rest) front.length = some (item, front ++ rest) := by
  have hget : (front ++ item :: rest)[front.length]? = some item := getElem?_above front _ 0
  have herase : (front ++ item :: rest).eraseIdx front.length = front ++ rest := by
    rw [List.eraseIdx_append_of_length_le (Nat.le_refl _), Nat.sub_self, List.eraseIdx_cons_zero]
  rw [remove?, hget, herase]
  rfl

theorem drain?_above :
    drain? (front ++ (taken ++ rest)) front.length taken.length = some (taken, front ++ rest) := by
  have hrest : (front ++ (taken ++ rest)).drop (front.length + taken.length) = rest := by
    rw [← List.append_assoc, ← List.length_append, List.drop_left]
  rw [drain?, if_pos (by simp only [List.length_append]; omega), hrest, List.drop_left,
    List.take_left, List.take_left]

end Edits

/-! ### Turns of the loop -/

/-- What a turn of the loop comes to. -/
inductive Turn where
  | stop
  | fail (error : Error)
  /-- Go on with this stack at this position. -/
  | next (items : List Item) (position : Nat)

/-- Tears a postfix operator off its operand. -/
def tearAt? (items : List Item) (i : Nat) : Option Turn := do
  let (item, rest) ← remove? items i
  match item with
  | operand (apply (.postfixOp op) args) =>
    match args.getLast? with
    | some left =>
      let items ← insert? rest i (operator .infixOp op)
      let items ← insert? items i (operand left)
      return .next items 0
    | none => return .next rest 0
  | _ => return .next rest 0

def applyPostfixAt? (items : List Item) (i : Nat) : Option Turn := do
  let (taken, rest) ← drain? items i 2
  match taken with
  | [operand x, operator _ op] =>
    let items ← insert? rest i (operand (apply (.postfixOp op) [x]))
    return .next items 0
  | _ :: item :: _ => return .fail item.unexpected
  | _ => return .fail (.unexpectedToken "")

def applyPrefixAt? (items : List Item) (i : Nat) : Option Turn := do
  let (taken, rest) ← drain? items i 2
  match taken with
  | [operator _ op, operand y] =>
    let items ← insert? rest i (operand (apply (.prefixOp op) [y]))
    return .next items 0
  | _ => return .fail (.unexpectedToken "")

/-- Whether the item after the right operand has to be dealt with before the operator `op` that
stands behind position `i`. -/
def isHeldBackAt (op : String) (items : List Item) (i : Nat) : Bool :=
  match items[i + 3]? with
  | some (operator .postfixOp _) | some (operand _) => true
  | some (operator _ next) => items.length == i + 4 || !Precedence.bindsFirst op next
  | some (branch _) => !Precedence.bindsFirst op "?"
  | none => false

def reduceAt? (items : List Item) (i : Nat) : Option Turn := do
  let middle ← items[i + 1]?
  let op := match middle with
    | operator _ op => op
    | _ => "?"
  if isHeldBackAt op items i then
    return .next items (i + 2)
  let (taken, rest) ← drain? items i 3
  match taken with
  | [operand x, branch yes, operand no] =>
    let items ← insert? rest i (operand (apply (.infixOp "?:") [x, yes, no]))
    return .next items 0
  | [operand x, operator _ op, operand y] =>
    let items ← insert? rest i (operand (infixNode op x y))
    return .next items 0
  | _ :: item :: _ => return .fail item.unexpected
  | _ => return .fail (.unexpectedToken "")

/-- A turn at a position with the items that stand there and behind it. -/
def turnOn? (items : List Item) (i : Nat) : Item → Item → Option Turn
  | operand (apply (.postfixOp _) [_]), operand _ => tearAt? items i
  | operand _, operand y => return .fail (operand y).unexpected
  | operand _, operator role op =>
    match items[i + 2]? with
    | none => applyPostfixAt? items i
    | some third =>
      if role = .postfixOp then applyPostfixAt? items i
      else match third with
        | operand _ => reduceAt? items i
        | operator .prefixOp _ => return .next items (i + 2)
        | operator _ next =>
          if Precedence.isKnownInfix op then do
            let items ← replace? items (i + 2) (operator .prefixOp next)
            return .next items (i + 2)
          else do
            let items ← replace? items (i + 1) (operator .postfixOp op)
            return .next items i
        | branch yes => return .fail (branch yes).unexpected
  | operand _, branch yes =>
    match items[i + 2]? with
    | none => return .fail (branch yes).unexpected
    | some (operand _) => reduceAt? items i
    | some (operator .prefixOp _) => return .next items (i + 2)
    | some (operator _ next) => do
      let items ← replace? items (i + 2) (operator .prefixOp next)
      return .next items (i + 2)
    | some (branch other) => return .fail (branch other).unexpected
  | operator _ _, operand _ => applyPrefixAt? items i
  | operator _ _, operator _ _ => return .next items (i + 1)
  | operator _ _, branch yes => return .fail (branch yes).unexpected
  | branch yes, _ => return .fail (branch yes).unexpected

/-- A turn at a position; nothing if it uses a position outside the stack. -/
def turn? (items : List Item) (i : Nat) : Option Turn :=
  if i + 1 < items.length then do turnOn? items i (← items[i]?) (← items[i + 1]?)
  else return .stop

/-- The turn that a move is on a stack with `front` below. -/
def Move.turn (front : List Item) : Move → Turn
  | .stop => .stop
  | .fail error => .fail error
  | .advance count after => .next (front ++ after) (front.length + count)
  | .restart after => .next (front ++ after) 0

section Turns

variable (front rest : List Item) (x y yes no left : Tree Float) (role : Role) (op : String)

theorem tearAt?_eq :
    tearAt? (front ++ operand (apply (.postfixOp op) [left]) :: rest) front.length =
      some (.next (front ++ operand left :: operator .infixOp op :: rest) 0) := by
  simp [tearAt?, remove?_above, insert?_above]

theorem applyPostfixAt?_eq :
    applyPostfixAt? (front ++ operand x :: operator role op :: rest) front.length =
      some (.next (front ++ operand (apply (.postfixOp op) [x]) :: rest) 0) := by
  have hdrain : drain? (front ++ operand x :: operator role op :: rest) front.length 2 =
      some ([operand x, operator role op], front ++ rest) :=
    drain?_above front [operand x, operator role op] rest
  simp [applyPostfixAt?, hdrain, insert?_above]

theorem applyPrefixAt?_eq :
    applyPrefixAt? (front ++ operator role op :: operand y :: rest) front.length =
      some (.next (front ++ operand (apply (.prefixOp op) [y]) :: rest) 0) := by
  have hdrain : drain? (front ++ operator role op :: operand y :: rest) front.length 2 =
      some ([operator role op, operand y], front ++ rest) :=
    drain?_above front [operator role op, operand y] rest
  simp [applyPrefixAt?, hdrain, insert?_above]

theorem isHeldBackAt_eq (first second third : Item) :
    isHeldBackAt op (front ++ first :: second :: third :: rest) front.length =
      isHeldBack op rest := by
  have hget : (front ++ first :: second :: third :: rest)[front.length + 3]? = rest[0]? :=
    getElem?_above front _ 3
  have hlength : (front ++ first :: second :: third :: rest).length =
      front.length + 3 + rest.length := by
    simp only [List.length_append, List.length_cons]
    omega
  rw [isHeldBackAt, hget, hlength]
  match rest with
  | [] => rfl
  | operand x :: rest => rfl
  | branch yes :: rest => rfl
  | operator role next :: rest =>
    have hlast : (front.length + 3 + (operator role next :: rest).length == front.length + 4) =
        rest.isEmpty := by
      cases rest with
      | nil => simp
      | cons item rest =>
        rw [beq_eq_false_iff_ne.2 (by simp only [List.length_cons]; omega)]
        rfl
    cases role with
    | postfixOp => rfl
    | infixOp => exact congrArg (· || _) hlast
    | prefixOp => exact congrArg (· || _) hlast

theorem reduceAt?_operator :
    reduceAt? (front ++ operand x :: operator role op :: operand y :: rest) front.length =
      some ((join op (infixNode op x y) (operand x) (operator role op) (operand y) rest).turn
        front) := by
  have hdrain := drain?_above front [operand x, operator role op, operand y] rest
  cases h : isHeldBack op rest <;>
    simp_all [reduceAt?, isHeldBackAt_eq, insert?_above, join, Move.turn]

theorem reduceAt?_branch :
    reduceAt? (front ++ operand x :: branch yes :: operand no :: rest) front.length =
      some ((join "?" (apply (.infixOp "?:") [x, yes, no]) (operand x) (branch yes) (operand no)
        rest).turn front) := by
  have hdrain := drain?_above front [operand x, branch yes, operand no] rest
  cases h : isHeldBack "?" rest <;>
    simp_all [reduceAt?, isHeldBackAt_eq, insert?_above, join, Move.turn]

theorem turn?_pair (first second : Item) :
    turn? (front ++ first :: second :: rest) front.length =
      turnOn? (front ++ first :: second :: rest) front.length first second := by
  have hfirst : (front ++ first :: second :: rest)[front.length]? = some first :=
    getElem?_above front _ 0
  have hsecond : (front ++ first :: second :: rest)[front.length + 1]? = some second :=
    getElem?_above front _ 1
  rw [turn?, if_pos (by simp only [List.length_append, List.length_cons]; omega), hfirst, hsecond]
  rfl

theorem turnOn?_operands :
    turnOn? (front ++ operand x :: operand y :: rest) front.length (operand x) (operand y) =
      some ((move (operand x :: operand y :: rest)).turn front) := by
  rw [move_on_operand]
  split
  · exact tearAt?_eq front (operand y :: rest) _ _
  · simp [turnOn?, Move.turn]

theorem turnOn?_operator :
    turnOn? (front ++ operand x :: operator role op :: rest) front.length (operand x)
        (operator role op) =
      some ((move (operand x :: operator role op :: rest)).turn front) := by
  have happly := applyPostfixAt?_eq front rest x role op
  rw [move_on_operator]
  by_cases happlied : role = .postfixOp ∨ rest = []
  · rw [if_pos happlied]
    cases rest with
    | nil => simpa [turnOn?, Move.turn] using happly
    | cons third rest =>
      have hrole : role = .postfixOp := by simpa using happlied
      simpa [turnOn?, Move.turn, hrole] using happly
  rw [if_neg happlied]
  obtain ⟨hrole, hempty⟩ := not_or.1 happlied
  match rest with
  | [] => exact absurd rfl hempty
  | operand y :: rest => simp [turnOn?, hrole, reduceAt?_operator]
  | branch yes :: rest => simp [turnOn?, hrole, Move.turn]
  | operator next name :: rest =>
    have hsecond := replace?_above front [operand x] (operator next name :: rest) (operator role op)
      (operator .postfixOp op)
    have hnext := replace?_above front [operand x, operator role op] rest (operator next name)
      (operator .prefixOp name)
    cases hop : Precedence.isKnownInfix op <;> cases next <;> simp_all [turnOn?, Move.turn]

theorem turnOn?_branch :
    turnOn? (front ++ operand x :: branch yes :: rest) front.length (operand x) (branch yes) =
      some ((move (operand x :: branch yes :: rest)).turn front) := by
  match rest with
  | [] => simp [turnOn?, move, Move.turn]
  | operand no :: rest => simp [turnOn?, move, reduceAt?_branch]
  | branch other :: rest =>
    have htoken : (branch other).unexpected = (branch yes).unexpected := rfl
    simp [turnOn?, move, Move.turn, htoken]
  | operator next name :: rest =>
    have hnext := replace?_above front [operand x, branch yes] rest (operator next name)
      (operator .prefixOp name)
    cases next <;> simp_all [turnOn?, move, Move.turn]

/-- Every position that a turn uses is in the stack, and the turn is the move from there on. -/
theorem turn?_eq : turn? (front ++ rest) front.length = some ((move rest).turn front) := by
  match rest with
  | [] => simp [turn?, move, Move.turn]
  | [item] => cases item <;> simp [turn?, move, Move.turn]
  | first :: second :: rest =>
    rw [turn?_pair]
    cases first with
    | operand x =>
      cases second with
      | operand y => exact turnOn?_operands front rest x y
      | operator role op => exact turnOn?_operator front rest x role op
      | branch yes => exact turnOn?_branch front rest x yes
    | operator role op =>
      cases second with
      | operand y => exact applyPrefixAt?_eq front rest y role op
      | operator _ _ => rfl
      | branch _ => rfl
    | branch _ => rfl

end Turns

/-! ### The number of turns -/

/-- The number of items that there are when all postfix operators are torn off. -/
def size : List Item → Nat
  | [] => 0
  | operand x :: rest => postfixDepth x + 1 + size rest
  | _ :: rest => 1 + size rest

variable {before items rest after : List Item}

theorem size_append (a b : List Item) : size (a ++ b) = size a + size b := by
  induction a with
  | nil => simp [size]
  | cons item a ih => cases item <;> simp only [List.cons_append, size, ih] <;> omega

theorem length_le_size (items : List Item) : items.length ≤ size items := by
  induction items with
  | nil => exact Nat.le_refl _
  | cons item items ih => cases item <;> simp only [List.length_cons, size] <;> omega

theorem burden_le_size (items : List Item) : burden items ≤ 3 * size items := by
  induction items with
  | nil => exact Nat.le_refl _
  | cons item items ih =>
    cases item with
    | operand x => simp only [burden, size]; omega
    | branch yes => simp only [burden, size]; omega
    | operator role op =>
      simp only [burden, size]
      split <;> omega

theorem join_size {op : String} {node : Tree Float} {left middle right : Item}
    (h : (join op node left middle right rest).after? = some after)
    (hnode : postfixDepth node = 0) :
    size after ≤ size (left :: middle :: right :: rest) := by
  have hparts := length_le_size [left, middle, right]
  have hsum := size_append [left, middle, right] rest
  unfold join at h
  split at h
  · obtain rfl := Option.some.inj h
    exact Nat.le_refl _
  · obtain rfl := Option.some.inj h
    simp only [size, hnode, List.length_cons, List.cons_append, List.nil_append] at hparts hsum ⊢
    omega

/-- No move makes a stack larger. -/
theorem move_size (h : (move items).after? = some after) : size after ≤ size items := by
  unfold move at h
  split at h
  · split at h
    · obtain rfl := Option.some.inj h
      simp only [size, postfixDepth]
      omega
    · cases h
  · split at h
    · obtain rfl := Option.some.inj h
      simp only [size, postfixDepth]
      omega
    · split at h
      · exact join_size h (infixNode_depth _ _ _)
      · split at h <;>
        · obtain rfl := Option.some.inj h
          exact Nat.le_refl _
      · cases h
      · cases h
  · split at h
    · exact join_size h rfl
    · obtain rfl := Option.some.inj h
      exact Nat.le_refl _
    · cases h
  · obtain rfl := Option.some.inj h
    simp only [size, postfixDepth]
    omega
  · obtain rfl := Option.some.inj h
    exact Nat.le_refl _
  all_goals cases h

/-- A move that goes no further makes the operator on an operand postfix. -/
theorem move_advance_zero (h : move items = .advance 0 after) :
    ∃ x role op rest, role ≠ .postfixOp ∧ items = operand x :: operator role op :: rest ∧
      after = operand x :: operator .postfixOp op :: rest := by
  have hjoin (op : String) (node : Tree Float) (left middle right : Item) (rest : List Item) :
      join op node left middle right rest ≠ .advance 0 after := by
    unfold join
    split <;> simp
  unfold move at h
  split at h
  · split at h <;> cases h
  · rename_i x role op rest
    split at h
    · cases h
    · rename_i hrole
      split at h
      · exact absurd h (hjoin _ _ _ _ _ _)
      · split at h
        · cases h
        · cases h
          exact ⟨x, role, op, _, fun heq => hrole (.inl heq), rfl, rfl⟩
      · cases h
      · cases h
  · split at h
    · exact absurd h (hjoin _ _ _ _ _ _)
    · cases h
    · cases h
  all_goals cases h

/-- How far the loop may go without starting again at the bottom. -/
def distance (items : List Item) : Nat := 2 * items.length + (items[1]?.any loose).toNat

theorem distance_le (items : List Item) : distance items ≤ 2 * items.length + 1 :=
  Nat.add_le_add_left (Bool.toNat_le _) _

theorem distance_advance {count : Nat} (h : move items = .advance count after) :
    distance (after.drop count) < distance items := by
  obtain ⟨-, -, hlength, hcount, -⟩ := move_advance h
  cases count with
  | zero =>
    obtain ⟨x, role, op, rest, hrole, rfl, rfl⟩ := move_advance_zero h
    simp [distance, loose, hrole]
  | succ count =>
    have hdrop := distance_le (after.drop (count + 1))
    have hitems : 2 * items.length ≤ distance items := Nat.le_add_right _ _
    rw [List.length_drop] at hdrop
    omega

/-- A bound for the turns from a position on: the burden bounds how often the loop starts again at
the bottom, and the size how far it goes each time. -/
def weight (items : List Item) (i : Nat) : Nat :=
  burden items * (2 * size items + 2) + distance (items.drop i)

/-- A bound for the turns from any position of the stack. -/
def turnLimit (items : List Item) : Nat := (3 * size items + 1) * (2 * size items + 2)

theorem distance_drop_lt (items : List Item) (i : Nat) :
    distance (items.drop i) < 2 * size items + 2 := by
  have hdistance := distance_le (items.drop i)
  have hlength := length_le_size items
  rw [List.length_drop] at hdistance
  omega

theorem weight_lt_turnLimit (items : List Item) (i : Nat) : weight items i < turnLimit items := by
  have hdistance := distance_drop_lt items i
  calc weight items i
      < burden items * (2 * size items + 2) + (2 * size items + 2) := by
        exact Nat.add_lt_add_left hdistance _
    _ = (burden items + 1) * (2 * size items + 2) := (Nat.succ_mul _ _).symm
    _ ≤ turnLimit items :=
        Nat.mul_le_mul_right _ (Nat.succ_le_succ (burden_le_size items))

theorem weight_advance (front : List Item) {count : Nat} (h : move rest = .advance count after) :
    weight (front ++ after) (front.length + count) < weight (front ++ rest) front.length := by
  obtain ⟨hburden, hstarts, -⟩ := move_advance h
  have hsize : size (front ++ after) ≤ size (front ++ rest) := by
    rw [size_append, size_append]
    exact Nat.add_le_add_left (move_size (by rw [h]; rfl)) _
  have hdrop : (front ++ after).drop (front.length + count) = after.drop count := by
    rw [← List.drop_drop, List.drop_left]
  rw [weight, weight, hdrop, List.drop_left]
  exact Nat.add_lt_add_of_le_of_lt
    (Nat.mul_le_mul (burden_append (k := 0) hstarts hburden front) (by omega))
    (distance_advance h)

theorem weight_restart (front : List Item) (h : move rest = .restart after) :
    weight (front ++ after) 0 < weight (front ++ rest) front.length := by
  obtain ⟨hburden, hstarts⟩ := move_restart h
  have hsize : size (front ++ after) ≤ size (front ++ rest) := by
    rw [size_append, size_append]
    exact Nat.add_le_add_left (move_size (by rw [h]; rfl)) _
  calc weight (front ++ after) 0
      < burden (front ++ after) * (2 * size (front ++ after) + 2) +
          (2 * size (front ++ after) + 2) :=
        Nat.add_lt_add_left (distance_drop_lt _ _) _
    _ = (burden (front ++ after) + 1) * (2 * size (front ++ after) + 2) :=
        (Nat.succ_mul _ _).symm
    _ ≤ burden (front ++ rest) * (2 * size (front ++ rest) + 2) :=
        Nat.mul_le_mul (burden_append hstarts hburden front) (by omega)
    _ ≤ weight (front ++ rest) front.length := Nat.le_add_right _ _

/-- A turn stays in the stack and leaves less to do. -/
theorem turn_weight {front : List Item} {i : Nat} (h : (move rest).turn front = .next items i) :
    i ≤ items.length ∧ weight items i < weight (front ++ rest) front.length := by
  cases hmove : move rest with
  | stop => rw [hmove] at h; cases h
  | fail error => rw [hmove] at h; cases h
  | advance count after =>
    rw [hmove] at h
    cases h
    obtain ⟨-, -, hlength, hcount, -⟩ := move_advance hmove
    exact ⟨by rw [List.length_append]; omega, weight_advance front hmove⟩
  | restart after =>
    rw [hmove] at h
    cases h
    exact ⟨Nat.zero_le _, weight_restart front hmove⟩

/-! ### The loop -/

/-- Collapsing from a position on; from the bottom it is `collapseFrom []`. -/
def collapseAt (items : List Item) (i : Nat) : Except Error (List Item) :=
  collapseFrom (items.take i).reverse (items.drop i)

/-- The loop from a position on, with a limit of its turns; nothing if it does not end within the
limit, or leaves the stack. -/
def collapseWithin : Nat → List Item → Nat → Option (Except Error (List Item))
  | 0, _, _ => none
  | limit + 1, items, i => do
    match ← turn? items i with
    | .stop => return .ok items
    | .fail error => return .error error
    | .next items i => collapseWithin limit items i

theorem collapseAt_above (front rest : List Item) :
    collapseAt (front ++ rest) front.length = collapseFrom front.reverse rest := by
  rw [collapseAt, List.take_left, List.drop_left]

theorem collapseAt_turn (front rest : List Item) :
    collapseAt (front ++ rest) front.length =
      match (move rest).turn front with
      | .stop => .ok (front ++ rest)
      | .fail error => .error error
      | .next items i => collapseAt items i := by
  rw [collapseAt_above]
  cases hmove : move rest with
  | stop => rw [collapseFrom_stop hmove, List.reverse_reverse]; rfl
  | fail error => rw [collapseFrom_fail hmove]; rfl
  | advance count after =>
    obtain ⟨-, -, hlength, hcount, -⟩ := move_advance hmove
    have hposition : front.length + count = (front ++ after.take count).length := by
      rw [List.length_append, List.length_take]
      omega
    have hitems : front ++ after = front ++ after.take count ++ after.drop count := by
      rw [List.append_assoc, List.take_append_drop]
    rw [collapseFrom_advance hmove, ← List.reverse_append, ← collapseAt_above, ← hposition,
      ← hitems]
    rfl
  | restart after =>
    rw [collapseFrom_restart hmove, List.reverse_reverse]
    rfl

/-- Within a position of the stack the loop ends, as soon as its turns are enough. -/
theorem collapseWithin_eq (limit : Nat) (items : List Item) (i : Nat) (hi : i ≤ items.length)
    (h : weight items i < limit) : collapseWithin limit items i = some (collapseAt items i) := by
  induction limit generalizing items i with
  | zero => exact absurd h (Nat.not_lt_zero _)
  | succ limit ih =>
    obtain ⟨front, rest, rfl, rfl⟩ : ∃ front rest, items = front ++ rest ∧ i = front.length :=
      ⟨items.take i, items.drop i, (List.take_append_drop i items).symm,
        (List.length_take_of_le hi).symm⟩
    rw [collapseWithin, turn?_eq, collapseAt_turn]
    cases hturn : (move rest).turn front with
    | stop => rfl
    | fail error => rfl
    | next items i =>
      obtain ⟨hinside, hweight⟩ := turn_weight hturn
      exact ih items i hinside (by omega)

/-- At a position behind the stack there is nothing to do. -/
theorem collapseWithin_behind {i : Nat} (limit : Nat) (h : items.length < i) :
    collapseWithin (limit + 1) items i = some (collapseAt items i) := by
  have hturn : turn? items i = some .stop := by rw [turn?, if_neg (by omega)]; rfl
  have hstop : collapseAt items i = .ok items := by
    rw [collapseAt, List.take_of_length_le h.le, List.drop_of_length_le h.le,
      collapseFrom_stop rfl, List.reverse_reverse, List.append_nil]
  rw [collapseWithin, hturn, hstop]
  rfl

theorem turnLimit_pos (items : List Item) : 0 < turnLimit items :=
  Nat.mul_pos (Nat.succ_pos _) (Nat.succ_pos _)

/-- The loop ends on every stack, from every position, without leaving the stack: within a number
of turns that is quadratic in the size of the stack it comes to what collapsing comes to, and if
that is a stack, it has the same tokens. -/
theorem collapse_bounded (items : List Item) (i : Nat) :
    collapseWithin (turnLimit items) items i = some (collapseAt items i) ∧
      ∀ left, collapseAt items i = .ok left → yields left = yields items := by
  constructor
  · rcases Nat.lt_or_ge items.length i with hi | hi
    · obtain ⟨limit, hlimit⟩ := Nat.exists_eq_add_of_lt (turnLimit_pos items)
      rw [hlimit, Nat.zero_add]
      exact collapseWithin_behind limit hi
    · exact collapseWithin_eq _ items i hi (weight_lt_turnLimit items i)
  · intro left hleft
    have hyields := collapseFrom_yields hleft
    rwa [List.reverse_reverse, List.take_append_drop] at hyields

/-- A postfix operator is torn off and joins the operands on both sides. -/
theorem collapse_bounded_torn :
    collapseAt [operand (apply (.postfixOp "-") [named "a"]), operand (named "b")] 0 =
        .ok [operand (apply (.infixOp "-") [named "a", named "b"])] ∧
      yields [operand (apply (.infixOp "-") [named "a", named "b"])] =
        yields [operand (apply (.postfixOp "-") [named "a"]), operand (named "b")] := by
  have hbounded :=
    collapse_bounded [operand (apply (.postfixOp "-") [named "a"]), operand (named "b")] 0
  have hleft := Option.some.inj (hbounded.1.symm.trans rfl)
  exact ⟨hleft, hbounded.2 _ hleft⟩

end Formula.Stack
