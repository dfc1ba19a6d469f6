import Formula.Proofs.Value.Table

/-! Equality of values is symmetric and transitive, but a list that holds a NaN is not equal to
itself. Main statement: whatever is boxed, frozen and reset, no two places of a table hold equal
values, and the words of two boxings that are still in the table are the same just when the values
are equal. -/
namespace Formula

namespace Value

theorem number_beq_comm (x y : Float) : (x == y) = (y == x) := by
  rw [Bool.eq_iff_iff, Float.beq_iff_ne_nan_and_eq, Float.beq_iff_ne_nan_and_eq]
  constructor
  · rintro ⟨hx, hy, h | h | h⟩
    · exact ⟨hy, hx, .inl h.symm⟩
    · exact ⟨hy, hx, .inr (.inr h.symm)⟩
    · exact ⟨hy, hx, .inr (.inl h.symm)⟩
  · rintro ⟨hy, hx, h | h | h⟩
    · exact ⟨hx, hy, .inl h.symm⟩
    · exact ⟨hx, hy, .inr (.inr h.symm)⟩
    · exact ⟨hx, hy, .inr (.inl h.symm)⟩

theorem number_beq_trans {x y z : Float} (h : (x == y) = true) (h' : (y == z) = true) :
    (x == z) = true := by
  rw [Float.beq_iff_ne_nan_and_eq] at h h' ⊢
  obtain ⟨hx, -, h⟩ := h
  obtain ⟨-, hz, h'⟩ := h'
  refine ⟨hx, hz, ?_⟩
  obtain rfl | ⟨rfl, rfl⟩ | ⟨rfl, rfl⟩ := h
  · exact h'
  · obtain rfl | ⟨hzero, -⟩ | ⟨-, rfl⟩ := h'
    · exact .inr (.inl ⟨rfl, rfl⟩)
    · exact absurd hzero (by decide)
    · exact .inl rfl
  · obtain rfl | ⟨-, rfl⟩ | ⟨hzero, -⟩ := h'
    · exact .inr (.inr ⟨rfl, rfl⟩)
    · exact .inl rfl
    · exact absurd hzero (by decide)

mutual

protected theorem beq_comm (v w : Value) : (v == w) = (w == v) := by
  change Value.beq v w = Value.beq w v
  cases v <;> cases w <;> try rfl
  case bool.bool a b => exact Bool.beq_comm
  case number.number x y => exact number_beq_comm x y
  case string.string s t => exact Bool.beq_comm
  case list.list vs ws => exact beqAll_comm vs ws
  case object.object o p => exact Bool.beq_comm

theorem beqAll_comm (vs ws : List Value) : Value.beqAll vs ws = Value.beqAll ws vs := by
  cases vs with
  | nil => cases ws <;> rfl
  | cons v vs =>
    cases ws with
    | nil => rfl
    | cons w ws =>
      have hhead : Value.beq v w = Value.beq w v := Value.beq_comm v w
      rw [Value.beqAll, Value.beqAll, hhead, beqAll_comm vs ws]

end

mutual

protected theorem beq_trans {u v w : Value} (h : (u == v) = true) (h' : (v == w) = true) :
    (u == w) = true := by
  change Value.beq u v = true at h
  change Value.beq v w = true at h'
  change Value.beq u w = true
  cases u <;> cases v <;> try (cases h; done)
  all_goals cases w <;> try (cases h'; done)
  case nil.nil.nil => rfl
  case bool.bool.bool a b c => exact BEq.trans h h'
  case number.number.number x y z => exact number_beq_trans h h'
  case string.string.string r s t => exact BEq.trans h h'
  case list.list.list us vs ws => exact beqAll_trans h h'
  case object.object.object o p q => exact BEq.trans h h'

theorem beqAll_trans {us vs ws : List Value} (h : Value.beqAll us vs = true)
    (h' : Value.beqAll vs ws = true) : Value.beqAll us ws = true := by
  cases us with
  | nil =>
    cases vs with
    | nil => exact h'
    | cons v vs => cases h
  | cons u us =>
    cases vs with
    | nil => cases h
    | cons v vs =>
      cases ws with
      | nil => cases h'
      | cons w ws =>
        rw [Value.beqAll, Bool.and_eq_true] at h h' ⊢
        exact ⟨Value.beq_trans h.1 h'.1, beqAll_trans h.2 h'.2⟩

end

theorem number_beq_of_other {v : Value} (x : Float) (hv : v.number? = none) :
    (number x == v) = false := by
  cases v <;> first | rfl | cases hv

end Value

namespace Word

theorem same_comm (a b : Word) : a.same b = b.same a := by
  unfold same
  rw [Bool.or_comm]
  split
  · exact Bool.beq_comm
  · exact Value.number_beq_comm _ _

theorem same_ofNumber (x y : Float) : (ofNumber x).same (ofNumber y) = (x == y) := by
  unfold same
  rw [isPlace_ofNumber, isPlace_ofNumber, if_neg (by decide), toNumber_ofNumber, toNumber_ofNumber]

theorem same_ofNumber_ofPlace (x : Float) {p : Nat} (room : p + 1 < capacity) :
    (ofNumber x).same (ofPlace p) = false := by
  unfold same
  rw [isPlace_ofPlace room, Bool.or_true, if_pos rfl]
  exact beq_eq_false_iff_ne.2 (StandsFor.ofNumber_ne_ofPlace x room)

theorem same_ofPlace {p q : Nat} (hp : p + 1 < capacity) (hq : q + 1 < capacity) :
    (ofPlace p).same (ofPlace q) = decide (p = q) := by
  have heq : ofPlace p = ofPlace q ↔ p = q := ⟨ofPlace_inj hp hq, congrArg ofPlace⟩
  unfold same
  rw [isPlace_ofPlace hp, Bool.true_or, if_pos rfl, beq_eq_decide, decide_eq_decide]
  exact heq

end Word

namespace Table

/-- Nil is at the first place and nowhere else, and no place holds a number or a value equal to
one at an earlier place. -/
structure Coherent (t : Table) : Prop where
  nil_iff : ∀ {p : Nat}, t.values[p]? = some .nil ↔ p = 0
  no_number : ∀ v ∈ t.values, v.number? = none
  distinct : t.values.toList.Pairwise fun v w => (v == w) = false
  frozen_pos : 0 < t.frozen
  frozen_le : t.frozen ≤ t.values.size

variable {t : Table} {v w : Value}

theorem coherent_empty : empty.Coherent where
  nil_iff := by
    intro p
    cases p with
    | zero => simp [empty]
    | succ p => simp [empty]
  no_number := by simp [empty, Value.number?]
  distinct := List.pairwise_singleton _ _
  frozen_pos := Nat.zero_lt_one
  frozen_le := Nat.le_refl 1

theorem toList_reset (t : Table) : t.reset.values.toList = t.values.toList.take t.frozen := by
  simp [reset]

theorem size_reset (t : Table) : t.reset.values.size = min t.frozen t.values.size := by
  simp [reset]

theorem getElem?_reset (t : Table) (p : Nat) :
    t.reset.values[p]? = if p < t.frozen then t.values[p]? else none := by
  rw [← Array.getElem?_toList, toList_reset, List.getElem?_take, Array.getElem?_toList]

namespace Coherent

theorem nil_first (ht : t.Coherent) : t.values[0]? = some .nil := ht.nil_iff.2 rfl

/-- Equal values are at one place. -/
theorem place_unique (ht : t.Coherent) {p q : Nat} (hp : t.values[p]? = some v)
    (hq : t.values[q]? = some w) (h : (v == w) = true) : p = q := by
  obtain ⟨hp, rfl⟩ := Array.getElem?_eq_some_iff.1 hp
  obtain ⟨hq, rfl⟩ := Array.getElem?_eq_some_iff.1 hq
  have hdistinct := List.pairwise_iff_getElem.1 ht.distinct
  rcases Nat.lt_trichotomy p q with hlt | rfl | hlt
  · have hfalse := hdistinct p q (by simpa) (by simpa) hlt
    simp [h] at hfalse
  · rfl
  · have hfalse := hdistinct q p (by simpa) (by simpa) hlt
    rw [Value.beq_comm] at h
    simp [h] at hfalse

theorem freeze (ht : t.Coherent) : t.freeze.Coherent where
  nil_iff := ht.nil_iff
  no_number := ht.no_number
  distinct := ht.distinct
  frozen_pos := Nat.lt_of_lt_of_le ht.frozen_pos ht.frozen_le
  frozen_le := Nat.le_refl _

theorem reset (ht : t.Coherent) : t.reset.Coherent where
  nil_iff := by
    intro p
    have hpos := ht.frozen_pos
    rw [getElem?_reset]
    split
    · exact ht.nil_iff
    · exact iff_of_false nofun (by omega)
  no_number v hv := by
    rw [← Array.mem_toList_iff, toList_reset] at hv
    exact ht.no_number v (Array.mem_toList_iff.1 (List.mem_of_mem_take hv))
  distinct := by
    rw [toList_reset]
    exact ht.distinct.sublist (List.take_sublist _ _)
  frozen_pos := ht.frozen_pos
  frozen_le := by
    rw [size_reset]
    exact le_min le_rfl ht.frozen_le

theorem push (ht : t.Coherent) (hn : v.number? = none) (hnew : ∀ w ∈ t.values, (w == v) = false) :
    Coherent { t with values := t.values.push v } where
  nil_iff := by
    intro p
    have hsize : 0 < t.values.size := Nat.lt_of_lt_of_le ht.frozen_pos ht.frozen_le
    have hv : v ≠ .nil := by
      rintro rfl
      exact absurd (hnew .nil (Array.mem_of_getElem? ht.nil_first)) (by decide)
    change (t.values.push v)[p]? = _ ↔ _
    rw [Array.getElem?_push]
    split
    · exact iff_of_false (fun h => hv (Option.some.inj h)) (by omega)
    · exact ht.nil_iff
  no_number w hw := by
    rcases Array.mem_push.1 hw with hw | rfl
    · exact ht.no_number w hw
    · exact hn
  distinct := by
    rw [Array.toList_push, List.pairwise_append]
    refine ⟨ht.distinct, List.pairwise_singleton _ _, fun u hu w hw => ?_⟩
    rw [List.mem_singleton.1 hw]
    exact hnew u (Array.mem_toList_iff.1 hu)
  frozen_pos := ht.frozen_pos
  frozen_le := by
    have hle := ht.frozen_le
    change t.frozen ≤ (t.values.push v).size
    rw [Array.size_push]
    omega

theorem box (ht : t.Coherent) (v : Value) : (t.box v).2.Coherent := by
  have hbox := t.boxing_box v
  generalize t.box v = boxed at hbox ⊢
  cases hbox with
  | added other fresh => exact ht.push other fresh
  | _ => exact ht

end Coherent

/-- What is done to a table. -/
inductive Step where
  | box (value : Value)
  | freeze
  | reset

/-- A table, with the values that were boxed, the last one first, and their words. A reset forgets
the words of the places that it drops. -/
structure Session where
  table : Table := .empty
  boxed : List (Value × Word) := []

namespace Session

def step (s : Session) : Step → Session
  | .box value => ⟨(s.table.box value).2, (value, (s.table.box value).1) :: s.boxed⟩
  | .freeze => ⟨s.table.freeze, s.boxed⟩
  | .reset => ⟨s.table.reset, s.boxed.filter fun b => b.2.place?.all (· < s.table.frozen)⟩

def run (steps : List Step) : Session := steps.foldl step {}

end Session

/-- A value and a word that it was boxed as: the word of a number, or of a place with the value
itself or one equal to it. -/
inductive Holds (t : Table) : Value × Word → Prop where
  | number (x : Float) : Holds t (.number x, .ofNumber x)
  | place {p : Nat} {v w : Value} (found : t.values[p]? = some w) (other : v.number? = none)
    (alike : w = v ∨ (w == v) = true) : Holds t (v, .ofPlace p)

namespace Holds

variable {t' : Table} {a : Value × Word}

theorem extend (h : t.Holds a) (he : t.Extends t') : t'.Holds a := by
  cases h with
  | number x => exact .number x
  | place found other alike => exact .place (he _ _ found) other alike

theorem room {p : Nat} (found : t.values[p]? = some w) (ht : t.values.size < Word.capacity) :
    p + 1 < Word.capacity := by
  have hp := (Array.getElem?_eq_some_iff.1 found).1
  omega

theorem beq_of_alike {u : Value} (alike : w = v ∨ (w == v) = true) (h : (v == u) = true) :
    (w == u) = true := by
  rcases alike with rfl | alike
  · exact h
  · exact Value.beq_trans alike h

theorem beq_of_place {u : Value} (alike : w = v ∨ (w == v) = true) (h : (w == u) = true) :
    (v == u) = true := by
  rcases alike with rfl | alike
  · exact h
  · rw [Value.beq_comm] at alike
    exact Value.beq_trans alike h

theorem reset (h : t.Holds a) (hroom : t.values.size < Word.capacity)
    (hkept : a.2.place?.all (· < t.frozen) = true) : t.reset.Holds a := by
  cases h with
  | number x => exact .number x
  | place found other alike =>
    rw [Word.place?_ofPlace (room found hroom), Option.all_some, decide_eq_true_iff] at hkept
    exact .place (by rwa [getElem?_reset, if_pos hkept]) other alike

theorem unbox (h : t.Holds a) (hroom : t.values.size < Word.capacity) :
    t.unbox a.2 = a.1 ∨ ∃ w ∈ t.values, t.unbox a.2 = w ∧ (w == a.1) = true := by
  unfold Table.unbox
  cases h with
  | number x => simp [Word.place?_ofNumber]
  | place found other alike =>
    simp only [Word.place?_ofPlace (room found hroom), Option.bind_some, found]
    exact alike.imp_right fun h => ⟨_, Array.mem_of_getElem? found, rfl, h⟩

theorem same_self (h : t.Holds a) (hroom : t.values.size < Word.capacity) :
    a.2.same a.2 = (a.1 == a.1 || a.1.number?.isNone) := by
  cases h with
  | number x =>
    rw [Word.same_ofNumber]
    exact (Bool.or_false _).symm
  | place found other alike =>
    rw [Word.same_ofPlace (room found hroom) (room found hroom), decide_eq_true rfl, other]
    exact (Bool.or_true _).symm

/-- The word of a number is the same as another one just when the values are equal. -/
theorem same_number (h : t.Holds a) (hroom : t.values.size < Word.capacity) (x : Float) :
    (Word.ofNumber x).same a.2 = (.number x == a.1) := by
  cases h with
  | number y => exact Word.same_ofNumber x y
  | place found other alike =>
    rw [Word.same_ofNumber_ofPlace x (room found hroom), Value.number_beq_of_other x other]

/-- Places are told apart as values are: the value at the one place is not the value at the
other. -/
theorem same_place (h : t.Holds a) (hroom : t.values.size < Word.capacity) {p : Nat}
    (hp : p + 1 < Word.capacity) (hv : v.number? = none)
    (hsame : ∀ {q : Nat} {u : Value}, t.values[q]? = some u → (p = q ↔ (u == v) = true)) :
    (Word.ofPlace p).same a.2 = (v == a.1) := by
  cases h with
  | number x =>
    rw [Word.same_comm, Word.same_ofNumber_ofPlace x hp, Value.beq_comm,
      Value.number_beq_of_other x hv]
  | place found other alike =>
    rw [Word.same_ofPlace hp (room found hroom), Value.beq_comm, Bool.eq_iff_iff,
      decide_eq_true_iff, hsame found]
    exact ⟨beq_of_place alike, beq_of_alike alike⟩

theorem same_shared (h : t.Holds a) (ht : t.Coherent) (hroom : t.values.size < Word.capacity)
    {p : Nat} (other : v.number? = none) (found : t.values[p]? = some w)
    (alike : (w == v) = true) : (Word.ofPlace p).same a.2 = (v == a.1) := by
  refine h.same_place hroom (room found hroom) other fun {q u} hq => ?_
  constructor
  · rintro rfl
    obtain rfl := Option.some.inj (found.symm.trans hq)
    exact alike
  · intro hu
    rw [Value.beq_comm] at hu
    exact ht.place_unique found hq (Value.beq_trans alike hu)

/-- The word of a value that is boxed is the same as another one just when the values are equal. -/
theorem same_box (h : t.Holds a) (ht : t.Coherent)
    (hroom : (t.box v).2.values.size < Word.capacity) :
    (t.box v).1.same a.2 = (v == a.1) := by
  have hsize : t.values.size < Word.capacity :=
    Nat.lt_of_le_of_lt (extends_box t v).size_le hroom
  have hbox := t.boxing_box v
  generalize t.box v = boxed at hbox hroom ⊢
  cases hbox with
  | number x => exact h.same_number hsize x
  | nil => exact h.same_shared ht hsize rfl ht.nil_first rfl
  | shared other found alike => exact h.same_shared ht hsize other found alike
  | added other fresh =>
    rw [Array.size_push] at hroom
    refine h.same_place hsize hroom other fun {q u} hq => ?_
    have hlt := (Array.getElem?_eq_some_iff.1 hq).1
    exact iff_of_false (by omega) (by simp [fresh u (Array.mem_of_getElem? hq)])

theorem box (ht : t.Coherent) (v : Value) : (t.box v).2.Holds (v, (t.box v).1) := by
  have hbox := t.boxing_box v
  generalize t.box v = boxed at hbox ⊢
  cases hbox with
  | number x => exact .number x
  | nil => exact .place ht.nil_first rfl (.inl rfl)
  | shared other found alike => exact .place found other (.inr alike)
  | added other fresh => exact .place Array.getElem?_push_size other (.inl rfl)

end Holds

namespace Session

variable {s : Session}

/-- Every boxed value is held by the table, and the words of any two are the same just when the
values are equal. -/
structure Faithful (s : Session) : Prop where
  coherent : s.table.Coherent
  holds : ∀ a ∈ s.boxed, s.table.Holds a
  same : s.boxed.Pairwise fun a b => a.2.same b.2 = (a.1 == b.1)

theorem coherent_step (h : s.table.Coherent) (x : Step) : (s.step x).table.Coherent := by
  cases x with
  | box v => exact h.box v
  | freeze => exact h.freeze
  | reset => exact h.reset

theorem faithful_step (hs : s.Faithful) (hroom : s.table.values.size < Word.capacity) (x : Step)
    (hroom' : (s.step x).table.values.size < Word.capacity) : (s.step x).Faithful where
  coherent := coherent_step hs.coherent x
  holds := by
    cases x with
    | box v =>
      refine List.forall_mem_cons.2 ⟨.box hs.coherent v, fun a ha => ?_⟩
      exact (hs.holds a ha).extend (extends_box s.table v)
    | freeze => exact fun a ha => (hs.holds a ha).extend (extends_freeze s.table)
    | reset =>
      intro a ha
      obtain ⟨ha, hkept⟩ := List.mem_filter.1 ha
      exact (hs.holds a ha).reset hroom hkept
  same := by
    cases x with
    | box v =>
      exact List.pairwise_cons.2
        ⟨fun a ha => (hs.holds a ha).same_box hs.coherent hroom', hs.same⟩
    | freeze => exact hs.same
    | reset => exact hs.same.filter _

theorem run_concat (steps : List Step) (x : Step) : run (steps ++ [x]) = (run steps).step x := by
  unfold run
  rw [List.foldl_append]
  rfl

theorem coherent_run (steps : List Step) : (run steps).table.Coherent := by
  induction steps using List.reverseRecOn with
  | nil => exact coherent_empty
  | append_singleton steps x ih =>
    rw [run_concat]
    exact coherent_step ih x

theorem faithful_run (steps : List Step)
    (hroom : ∀ earlier, earlier <+: steps → (run earlier).table.values.size < Word.capacity) :
    (run steps).Faithful := by
  induction steps using List.reverseRecOn with
  | nil => exact ⟨coherent_empty, nofun, .nil⟩
  | append_singleton steps x ih =>
    have hlast := hroom (steps ++ [x]) List.prefix_rfl
    rw [run_concat] at hlast ⊢
    refine faithful_step (ih fun earlier h => ?_) (hroom steps (List.prefix_append _ _)) x hlast
    exact hroom earlier (h.trans (List.prefix_append _ _))

theorem size_box_le (t : Table) (v : Value) :
    (t.box v).2.values.size ≤ t.values.size + 1 := by
  have hbox := t.boxing_box v
  generalize t.box v = boxed at hbox ⊢
  cases hbox with
  | added => exact (Array.size_push ..).le
  | _ => exact Nat.le_succ _

theorem size_step_le (s : Session) (x : Step) :
    (s.step x).table.values.size ≤ s.table.values.size + 1 := by
  cases x with
  | box v => exact size_box_le s.table v
  | freeze => exact Nat.le_succ _
  | reset =>
    change s.table.reset.values.size ≤ _
    rw [size_reset]
    exact Nat.le_succ_of_le (Nat.min_le_right _ _)

theorem size_run_le (steps : List Step) :
    (run steps).table.values.size ≤ steps.length + 1 := by
  induction steps using List.reverseRecOn with
  | nil => exact Nat.le_refl 1
  | append_singleton steps x ih =>
    rw [run_concat, List.length_append]
    exact (size_step_le _ x).trans (Nat.succ_le_succ ih)

/-- There is a word for every place if there are not more steps than that. -/
theorem size_run_lt {steps earlier : List Step} (h : steps.length + 1 < Word.capacity)
    (he : earlier <+: steps) : (run earlier).table.values.size < Word.capacity :=
  Nat.lt_of_le_of_lt ((size_run_le earlier).trans (Nat.succ_le_succ he.length_le)) h

/-- The table is coherent after any steps. As long as there is a word for every place, the words of
two boxings that no reset has dropped are the same just when the values are equal, the word of one
boxing is the same as itself unless it is a NaN, and a word is unboxed to its value or to a stored
one that is equal to it. -/
theorem run_boxed (steps : List Step) :
    (run steps).table.Coherent ∧
    ((∀ earlier, earlier <+: steps → (run earlier).table.values.size < Word.capacity) →
      (∀ {i j : Nat} {a b : Value × Word}, i ≠ j → (run steps).boxed[i]? = some a →
        (run steps).boxed[j]? = some b → a.2.same b.2 = (a.1 == b.1)) ∧
      ∀ a ∈ (run steps).boxed,
        a.2.same a.2 = (a.1 == a.1 || a.1.number?.isNone) ∧
        ((run steps).table.unbox a.2 = a.1 ∨
          ∃ w ∈ (run steps).table.values,
            (run steps).table.unbox a.2 = w ∧ (w == a.1) = true)) := by
  refine ⟨coherent_run steps, fun hroom => ?_⟩
  have hfaithful := faithful_run steps hroom
  have hlast := hroom steps List.prefix_rfl
  refine ⟨fun {i j a b} hne ha hb => ?two, fun a ha => ?one⟩
  case two =>
    obtain ⟨hi, rfl⟩ := List.getElem?_eq_some_iff.1 ha
    obtain ⟨hj, rfl⟩ := List.getElem?_eq_some_iff.1 hb
    have hpair := List.pairwise_iff_getElem.1 hfaithful.same
    rcases Nat.lt_or_gt_of_ne hne with hlt | hlt
    · exact hpair i j hi hj hlt
    · rw [Word.same_comm, Value.beq_comm]
      exact hpair j i hj hi hlt
  case one =>
    have hheld := hfaithful.holds a ha
    exact ⟨hheld.same_self hlast, hheld.unbox hlast⟩

/-- Two lists of a NaN, lists of either zero, and a text that is dropped. -/
def mixedSteps : List Step :=
  [.box (.list [.number (0 / 0)]), .box (.list [.number (0 / 0)]), .box (.list [.number 0]),
    .freeze, .box (.list [.number (-0)]), .box (.string "s"), .reset]

theorem run_boxed_mixed :
    (∀ earlier, earlier <+: mixedSteps → (run earlier).table.values.size < Word.capacity) ∧
    (run mixedSteps).boxed.map Prod.snd = [.ofPlace 3, .ofPlace 3, .ofPlace 2, .ofPlace 1] ∧
    ∀ {i j : Nat} {a b : Value × Word}, i ≠ j → (run mixedSteps).boxed[i]? = some a →
      (run mixedSteps).boxed[j]? = some b → a.2.same b.2 = (a.1 == b.1) :=
  have hroom : ∀ earlier, earlier <+: mixedSteps →
      (run earlier).table.values.size < Word.capacity :=
    fun _ => size_run_lt (by decide)
  ⟨hroom, by decide +kernel, ((run_boxed mixedSteps).2 hroom).1⟩

/-- A list that holds a NaN differs from itself, but its word does not. -/
theorem not_same_nan :
    (run [.box (.list [.number (0 / 0)])]).table.values.size < Word.capacity - 1 ∧
    ¬ ∀ a ∈ (run [.box (.list [.number (0 / 0)])]).boxed,
      ∀ b ∈ (run [.box (.list [.number (0 / 0)])]).boxed, a.2.same b.2 = (a.1 == b.1) := by
  refine ⟨by decide +kernel, fun h => ?_⟩
  have hself := h _ List.mem_cons_self _ List.mem_cons_self
  exact absurd hself (by decide +kernel)

end Session
end Table
end Formula
