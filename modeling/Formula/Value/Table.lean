import Formula.Value.Basic

/-! Values of any kind as words of 64 bits. A number is its own word; any other value is a word
with a tag, which no number that arithmetic yields has, and the place of the value in a table.
Equal values share a place. -/
namespace Formula

structure Word where
  bits : UInt64
deriving DecidableEq

namespace Word

/-- The upper 16 bits of the word of a place, a pattern of the NaNs that arithmetic leaves out. -/
def tag : UInt64 := 0x7FF4000000000000

def tagMask : UInt64 := 0xFFFF000000000000

def ofNumber (x : Float) : Word := ⟨x.toBits⟩

def toNumber (w : Word) : Float := .ofBits w.bits

/-- Places count from one, so that a word is never the bare tag. -/
def ofPlace (place : Nat) : Word := ⟨tag ||| .ofNat (place + 1)⟩

def isPlace (w : Word) : Bool := w.bits &&& tagMask == tag

def place? (w : Word) : Option Nat :=
  let payload := (w.bits &&& ~~~tagMask).toNat
  if w.isPlace ∧ payload ≠ 0 then some (payload - 1) else none

/-- Words of places are equal bit by bit, all others as numbers. -/
def same (a b : Word) : Bool :=
  if a.isPlace || b.isPlace then a == b else a.toNumber == b.toNumber

end Word

/-- The values that words stand for. The first `frozen` of them stay for good. -/
structure Table where
  values : Array Value
  frozen : Nat

namespace Table

/-- Nil is always at the first place. -/
def empty : Table := ⟨#[.nil], 1⟩

/-- The word of a value, which is added unless an equal one is there. -/
def box (t : Table) : Value → Word × Table
  | .number x => (.ofNumber x, t)
  | .nil => (.ofPlace 0, t)
  | value =>
    match t.values.findIdx? (· == value) with
    | some place => (.ofPlace place, t)
    | none => (.ofPlace t.values.size, { t with values := t.values.push value })

/-- The value that a word stands for. A word without a place here counts as a number. -/
def unbox (t : Table) (w : Word) : Value :=
  match w.place?.bind fun place => t.values[place]? with
  | some value => value
  | none => .number w.toNumber

def freeze (t : Table) : Table := { t with frozen := t.values.size }

/-- Drops what was added after the table was frozen. -/
def reset (t : Table) : Table := { t with values := t.values.take t.frozen }

end Table
end Formula
