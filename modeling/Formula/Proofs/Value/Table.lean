import Formula.Value.Table
import Formula.Proofs.Number.Bits

/-! Words stand for values. Main statements: a number is never mistaken for a place, a value that is
boxed is what its word stands for from then on, and words tell apart just what the values do, as
long as no list holds a NaN or a negative zero. -/
namespace Formula

namespace Word

/-- Places that have a word. -/
def capacity : Nat := 2 ^ 48

theorem and_tagMask (n : Nat) (h : n < 2 ^ 64) : n &&& tagMask.toNat = n / 2 ^ 48 * 2 ^ 48 := by
  have hmask : tagMask.toNat = (2 ^ 16 - 1) <<< 48 := by decide
  rw [hmask, ← Nat.shiftRight_eq_div_pow, ← Nat.shiftLeft_eq]
  apply Nat.eq_of_testBit_eq
  intro i
  simp only [Nat.testBit_and, Nat.testBit_shiftLeft, Nat.testBit_shiftRight,
    Nat.testBit_two_pow_sub_one]
  by_cases hi : 48 ≤ i
  · by_cases hbig : i < 64
    · have hadd : 48 + (i - 48) = i := by omega
      have hlt : i - 48 < 16 := by omega
      simp [hi, hadd, hlt]
    · have hzero : n.testBit i = false :=
        Nat.testBit_lt_two_pow (Nat.lt_of_lt_of_le h (Nat.pow_le_pow_right (by decide) (by omega)))
      have hadd : 48 + (i - 48) = i := by omega
      simp [hzero, hadd]
  · simp [hi]

theorem isPlace_iff (w : Word) : w.isPlace = true ↔ w.bits.toNat / 2 ^ 48 = 0x7FF4 := by
  have htag : tag.toNat = 0x7FF4 * 2 ^ 48 := by decide
  rw [isPlace, beq_iff_eq, ← UInt64.toNat_inj, UInt64.toNat_and,
    and_tagMask _ w.bits.toNat_lt, htag]
  omega

theorem place?_eq (w : Word) :
    w.place? =
      if w.isPlace = true ∧ w.bits.toNat % capacity ≠ 0 then some (w.bits.toNat % capacity - 1)
      else none := by
  have hmask : (~~~tagMask).toNat = 2 ^ 48 - 1 := by decide
  unfold place?
  dsimp only
  rw [UInt64.toNat_and, hmask, Nat.and_two_pow_sub_one_eq_mod]
  rfl

theorem toNat_ofPlace {place : Nat} (h : place + 1 < capacity) :
    (ofPlace place).bits.toNat = 0x7FF4 * 2 ^ 48 + (place + 1) := by
  have htag : tag.toNat = 0x7FF4 <<< 48 := by decide
  have hplace : (UInt64.ofNat (place + 1)).toNat = place + 1 := by
    rw [UInt64.toNat_ofNat', Nat.mod_eq_of_lt (Nat.lt_trans h (by decide))]
  rw [ofPlace, UInt64.toNat_or, htag, hplace, ← Nat.shiftLeft_add_eq_or_of_lt h]
  rfl

theorem isPlace_ofPlace {place : Nat} (h : place + 1 < capacity) :
    (ofPlace place).isPlace = true := by
  rw [isPlace_iff, toNat_ofPlace h]
  unfold capacity at h
  omega

theorem place?_ofPlace {place : Nat} (h : place + 1 < capacity) :
    (ofPlace place).place? = some place := by
  have hmod : (ofPlace place).bits.toNat % capacity = place + 1 := by
    rw [toNat_ofPlace h]
    unfold capacity at h ⊢
    omega
  rw [place?_eq, if_pos ⟨isPlace_ofPlace h, by omega⟩, hmod]
  rfl

theorem ofPlace_inj {p q : Nat} (hp : p + 1 < capacity) (hq : q + 1 < capacity)
    (h : ofPlace p = ofPlace q) : p = q := by
  have hplace := congrArg place? h
  rw [place?_ofPlace hp, place?_ofPlace hq] at hplace
  exact Option.some.inj hplace

/-- A NaN has another pattern than the tag, and so has every other number. -/
theorem isPlace_ofNumber (x : Float) : (ofNumber x).isPlace = false := by
  rw [← Bool.not_eq_true, isPlace_iff]
  intro h
  change x.toBits.toNat / 2 ^ 48 = 0x7FF4 at h
  have hnan : Number.shape x = .nan := by
    have hunit : Number.unit = 2 ^ 52 := rfl
    rw [Number.shape_eq]
    generalize x.toBits.toNat = n at h
    unfold Number.Shape.ofBits
    dsimp only
    have hdiv : n / Number.unit = n / 2 ^ 52 := rfl
    have hmod : n % Number.unit = n % 2 ^ 52 := rfl
    rw [if_pos (by omega), if_neg (by omega)]
  rw [Number.toNat_toBits, hnan] at h
  exact absurd h (by decide)

theorem place?_ofNumber (x : Float) : (ofNumber x).place? = none := by
  rw [place?_eq, isPlace_ofNumber, if_neg]
  simp

@[simp] theorem toNumber_ofNumber (x : Float) : (ofNumber x).toNumber = x :=
  Float.ofBits_toBits x

end Word
namespace Value

mutual

/-- Equality tells the value from every other, and finds it equal to itself. -/
def Plain : Value → Prop
  | number x => x.isNaN = false ∧ x ≠ -0
  | list values => PlainAll values
  | _ => True

def PlainAll : List Value → Prop
  | [] => True
  | value :: values => Plain value ∧ PlainAll values

end

/-- No list in the value holds a NaN or a negative zero. -/
def Clean : Value → Prop
  | list values => PlainAll values
  | _ => True

mutual

def decidePlain : (v : Value) → Decidable v.Plain
  | number x => inferInstanceAs (Decidable (x.isNaN = false ∧ x ≠ -0))
  | list values => decidePlainAll values
  | nil | bool _ | string _ | object _ => isTrue trivial

def decidePlainAll : (values : List Value) → Decidable (PlainAll values)
  | [] => isTrue trivial
  | value :: values =>
    have := decidePlain value
    have := decidePlainAll values
    inferInstanceAs (Decidable (Plain value ∧ PlainAll values))

end

instance : DecidablePred Clean
  | list values => decidePlainAll values
  | number _ | nil | bool _ | string _ | object _ => isTrue trivial

theorem Plain.clean {v : Value} (h : v.Plain) : v.Clean := by
  cases v with
  | list values => exact h
  | _ => trivial

theorem Clean.plain {v : Value} (h : v.Clean) (hn : v.number? = none) : v.Plain := by
  cases v with
  | number x => simp [number?] at hn
  | list values => exact h
  | _ => trivial

theorem PlainAll.clean_of_getElem? {values : List Value} (h : PlainAll values) {place : Nat}
    {v : Value} (hv : values[place]? = some v) : v.Clean := by
  induction values generalizing place with
  | nil => simp at hv
  | cons value values ih =>
    obtain ⟨hhead, htail⟩ := h
    cases place with
    | zero =>
      obtain rfl : value = v := by simpa using hv
      exact hhead.clean
    | succ place => exact ih htail (by simpa using hv)

mutual

theorem beq_self {v : Value} (h : v.Plain) : (v == v) = true := by
  change Value.beq v v = true
  cases v with
  | number x =>
    have hnan := h.1
    rw [Float.isNaN_eq_decide_eq_nan, decide_eq_false_iff_not] at hnan
    exact Float.beq_self_iff.2 hnan
  | list values => exact beqAll_self h
  | nil => rfl
  | bool b => exact beq_self_eq_true b
  | string s => exact beq_self_eq_true s
  | object o => exact beq_self_eq_true o

theorem beqAll_self {values : List Value} (h : PlainAll values) :
    Value.beqAll values values = true := by
  cases values with
  | nil => rfl
  | cons value values =>
    rw [Value.beqAll, Bool.and_eq_true]
    exact ⟨beq_self h.1, beqAll_self h.2⟩

end

mutual

theorem eq_of_beq {v w : Value} (hv : v.Plain) (hw : w.Plain) (h : (v == w) = true) : v = w := by
  change Value.beq v w = true at h
  cases v <;> cases w <;> try (simp [Value.beq] at h; done)
  case nil.nil => rfl
  case bool.bool a b => simpa [Value.beq] using h
  case string.string s t => simpa [Value.beq] using h
  case object.object o p => simpa [Value.beq] using h
  case list.list vs ws => rw [eq_of_beqAll hv hw h]
  case number.number x y =>
    obtain ⟨_, _, rfl | ⟨_, hy⟩ | ⟨hx, _⟩⟩ := Float.beq_iff_ne_nan_and_eq.1 h
    · rfl
    · exact absurd hy hw.2
    · exact absurd hx hv.2

theorem eq_of_beqAll {vs ws : List Value} (hv : PlainAll vs) (hw : PlainAll ws)
    (h : Value.beqAll vs ws = true) : vs = ws := by
  cases vs with
  | nil =>
    cases ws with
    | nil => rfl
    | cons w ws => simp [Value.beqAll] at h
  | cons v vs =>
    cases ws with
    | nil => simp [Value.beqAll] at h
    | cons w ws =>
      rw [Value.beqAll, Bool.and_eq_true] at h
      rw [eq_of_beq hv.1 hw.1 h.1, eq_of_beqAll hv.2 hw.2 h.2]

end

end Value

namespace Table

/-- Nil comes first, and no two places hold the same value, which is never a number. -/
structure WellFormed (t : Table) : Prop where
  nil_first : t.values[0]? = some .nil
  plain : ∀ {p : Nat} {v : Value}, t.values[p]? = some v → v.Plain ∧ v.number? = none
  distinct : ∀ {p q : Nat} {v : Value}, t.values[p]? = some v → t.values[q]? = some v → p = q

/-- Every place keeps its value. -/
def Extends (t t' : Table) : Prop :=
  ∀ (p : Nat) v, t.values[p]? = some v → t'.values[p]? = some v

variable {t t' t'' : Table}

theorem Extends.refl (t : Table) : t.Extends t := fun _ _ hp => hp

theorem Extends.trans (h : t.Extends t') (h' : t'.Extends t'') : t.Extends t'' :=
  fun p v hp => h' p v (h p v hp)

theorem extends_freeze (t : Table) : t.Extends t.freeze := fun _ _ hp => hp

theorem Extends.size_le (h : t.Extends t') : t.values.size ≤ t'.values.size := by
  rcases Nat.eq_zero_or_pos t.values.size with hzero | hpos
  · omega
  · have hlast : t.values[t.values.size - 1]? = some t.values[t.values.size - 1] :=
      Array.getElem?_eq_getElem (by omega)
    have := (Array.getElem?_eq_some_iff.1 (h _ _ hlast)).1
    omega

theorem wellFormed_empty : empty.WellFormed where
  nil_first := rfl
  plain := by
    intro p v h
    have hp := (Array.getElem?_eq_some_iff.1 h).1
    obtain rfl : p = 0 := by simpa [empty] using hp
    obtain rfl : Value.nil = v := by simpa [empty] using h
    exact ⟨trivial, rfl⟩
  distinct := by
    intro p q v hp hq
    have hp := (Array.getElem?_eq_some_iff.1 hp).1
    have hq := (Array.getElem?_eq_some_iff.1 hq).1
    simp [empty] at hp hq
    omega

end Table

/-- What a word is in a table. -/
inductive Word.StandsFor (t : Table) : Word → Value → Prop where
  | number (x : Float) : StandsFor t (.ofNumber x) (.number x)
  | place {p : Nat} {v : Value} (found : t.values[p]? = some v) (room : p + 1 < Word.capacity) :
    StandsFor t (.ofPlace p) v

namespace Word.StandsFor

variable {t t' : Table} {a b : Word} {v w : Value}

theorem extend (h : a.StandsFor t v) (he : t.Extends t') : a.StandsFor t' v := by
  cases h with
  | number x => exact .number x
  | place found room => exact .place (he _ _ found) room

theorem unbox (h : a.StandsFor t v) : t.unbox a = v := by
  unfold Table.unbox
  cases h with
  | number x => simp [place?_ofNumber]
  | place found room => simp [place?_ofPlace room, found]

theorem ofNumber_ne_ofPlace (x : Float) {p : Nat} (room : p + 1 < capacity) :
    ofNumber x ≠ ofPlace p := by
  intro h
  have hplace := isPlace_ofPlace room
  rw [← h, isPlace_ofNumber] at hplace
  exact Bool.false_ne_true hplace

/-- Words are the same if the values are equal. -/
theorem same (ht : t.WellFormed) (ha : a.StandsFor t v) (hb : b.StandsFor t w) :
    a.same b = (v == w) := by
  unfold Word.same
  cases ha with
  | number x =>
    rw [isPlace_ofNumber, Bool.false_or]
    cases hb with
    | number y =>
      rw [isPlace_ofNumber, if_neg Bool.false_ne_true, toNumber_ofNumber, toNumber_ofNumber]
      rfl
    | place found room =>
      rw [isPlace_ofPlace room, if_pos rfl, beq_eq_false_iff_ne.2 (ofNumber_ne_ofPlace x room)]
      have hw := (ht.plain found).2
      cases w <;> first | rfl | cases hw
  | place found room =>
    rw [isPlace_ofPlace room, Bool.true_or, if_pos rfl]
    have hv := ht.plain found
    cases hb with
    | number y =>
      rw [beq_eq_false_iff_ne.2 (ofNumber_ne_ofPlace y room).symm]
      have hv := hv.2
      cases v <;> first | rfl | cases hv
    | place found' room' =>
      rename_i p q
      have hw := ht.plain found'
      by_cases hpq : p = q
      · subst hpq
        obtain rfl : v = w := Option.some.inj (found.symm.trans found')
        rw [Value.beq_self hv.1, beq_self_eq_true]
      · have hplaces : ofPlace p ≠ ofPlace q := fun h => hpq (ofPlace_inj room room' h)
        have hvalues : (v == w) = false := by
          rw [← Bool.not_eq_true]
          intro h
          obtain rfl := Value.eq_of_beq hv.1 hw.1 h
          exact hpq (ht.distinct found found')
        rw [beq_eq_false_iff_ne.2 hplaces, hvalues]

end Word.StandsFor

namespace Table

variable {t t' : Table} {v : Value}

/-- What boxing a value comes to: a number is its own word, nil is at the first place, and any
other value shares the place of an equal one or is added after the others. -/
inductive Boxing (t : Table) : Value → Word × Table → Prop where
  | number (x : Float) : Boxing t (.number x) (.ofNumber x, t)
  | nil : Boxing t .nil (.ofPlace 0, t)
  | shared {p : Nat} {v w : Value} (other : v.number? = none) (found : t.values[p]? = some w)
    (alike : (w == v) = true) : Boxing t v (.ofPlace p, t)
  | added {v : Value} (other : v.number? = none) (fresh : ∀ w ∈ t.values, (w == v) = false) :
    Boxing t v (.ofPlace t.values.size, { t with values := t.values.push v })

theorem boxing_box (t : Table) (v : Value) : t.Boxing v (t.box v) := by
  unfold box
  split
  · exact .number _
  · exact .nil
  · rename_i hnumber _
    have hn : v.number? = none := by
      cases v with
      | number x => exact absurd rfl (hnumber x)
      | _ => rfl
    cases hfind : t.values.findIdx? (· == v) with
    | some p =>
      obtain ⟨hp, heq, _⟩ := Array.findIdx?_eq_some_iff_getElem.1 hfind
      exact .shared hn (Array.getElem?_eq_getElem hp) heq
    | none => exact .added hn (Array.findIdx?_eq_none_iff.1 hfind)

theorem extends_push (t : Table) (v : Value) :
    t.Extends { t with values := t.values.push v } := by
  intro p w hp
  rw [Array.getElem?_push_lt (Array.getElem?_eq_some_iff.1 hp).1]
  exact (Array.getElem?_eq_getElem _).symm.trans hp

theorem extends_box (t : Table) (v : Value) : t.Extends (t.box v).2 := by
  have hbox := t.boxing_box v
  generalize t.box v = boxed at hbox ⊢
  cases hbox with
  | added => exact extends_push t v
  | _ => exact .refl t

theorem frozen_box (t : Table) (v : Value) : (t.box v).2.frozen = t.frozen := by
  have hbox := t.boxing_box v
  generalize t.box v = boxed at hbox ⊢
  cases hbox <;> rfl

/-- What was added to a frozen table goes. -/
theorem reset_of_extends (h : t.Extends t') (hf : t'.frozen = t.frozen)
    (hall : t.frozen = t.values.size) : t'.reset = t := by
  have hle := h.size_le
  have hvalues : t'.values.take t.values.size = t.values := by
    refine Array.ext (by simp; omega) fun p hp hp' => ?_
    have hsome := Array.getElem?_eq_some_iff.1 (h p _ (Array.getElem?_eq_getElem hp'))
    rw [← hsome.2]
    simp
  unfold reset
  rw [hf, hall, hvalues, ← hall]

theorem wellFormed_push (ht : t.WellFormed) (hv : v.Plain) (hn : v.number? = none)
    (hnew : ∀ w ∈ t.values, (w == v) = false) :
    WellFormed { t with values := t.values.push v } := by
  have hold : ∀ {p : Nat} {w : Value}, (t.values.push v)[p]? = some w →
      (p < t.values.size ∧ t.values[p]? = some w) ∨ (p = t.values.size ∧ w = v) := by
    intro p w hp
    rw [Array.getElem?_push] at hp
    split at hp
    · exact .inr ⟨‹_›, (Option.some.inj hp).symm⟩
    · exact .inl ⟨(Array.getElem?_eq_some_iff.1 hp).1, hp⟩
  have hother : ∀ {p : Nat}, t.values[p]? ≠ some v := by
    intro p hp
    have hfalse := hnew v (Array.mem_of_getElem? hp)
    rw [Value.beq_self hv] at hfalse
    exact absurd hfalse (by decide)
  refine ⟨extends_push t v _ _ ht.nil_first, fun {p w} hp => ?_, fun {p q w} hp hq => ?_⟩
  · rcases hold hp with ⟨_, hp⟩ | ⟨_, rfl⟩
    · exact ht.plain hp
    · exact ⟨hv, hn⟩
  · rcases hold hp with ⟨_, hp'⟩ | ⟨hp', rfl⟩
    · rcases hold hq with ⟨_, hq'⟩ | ⟨_, rfl⟩
      · exact ht.distinct hp' hq'
      · exact absurd hp' hother
    · rcases hold hq with ⟨_, hq'⟩ | ⟨hq', _⟩
      · exact absurd hq' hother
      · omega

/-- A value that is boxed is what its word stands for. -/
theorem box_standsFor (ht : t.WellFormed) (hv : v.Clean)
    (hroom : (t.box v).2.values.size < Word.capacity) :
    (t.box v).2.WellFormed ∧ (t.box v).1.StandsFor (t.box v).2 v := by
  have hbox := t.boxing_box v
  generalize t.box v = boxed at hbox hroom ⊢
  cases hbox with
  | number x => exact ⟨ht, .number x⟩
  | nil => exact ⟨ht, .place ht.nil_first (by decide)⟩
  | shared other found alike =>
    obtain rfl := Value.eq_of_beq (ht.plain found).1 (hv.plain other) alike
    have hlt := (Array.getElem?_eq_some_iff.1 found).1
    exact ⟨ht, .place found (by dsimp only at hroom; omega)⟩
  | added other fresh =>
    refine ⟨wellFormed_push ht (hv.plain other) other fresh, .place Array.getElem?_push_size ?_⟩
    simpa using hroom

end Table
end Formula
