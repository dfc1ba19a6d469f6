import Formula.Error

/-! Formula trees: literals of any kind, symbols applied to arguments, and text that is no
formula. A tree of source text has numbers for literals. -/
namespace Formula

inductive Tree (ν : Type) where
  | literal (value : ν)
  /-- A variable has no arguments. -/
  | apply (symbol : Symbol) (args : List (Tree ν))
  /-- Source text that could not be read, and why. -/
  | malformed (error : Error) (source : String)

namespace Tree

variable {ν : Type}

def named (name : String) : Tree ν := apply (.var name) []

def error? : Tree ν → Option Error
  | malformed error _ => some error
  | _ => none

mutual

/-- Every occurrence of a symbol, a symbol before those of its arguments. -/
def occurrences : Tree ν → List Symbol
  | literal _ => []
  | apply symbol args => symbol :: occurrencesIn args
  | malformed .. => []

def occurrencesIn : List (Tree ν) → List Symbol
  | [] => []
  | arg :: args => occurrences arg ++ occurrencesIn args

end

/-- The symbols of the tree, each once, in the order of their first occurrence. -/
def symbols (t : Tree ν) : List Symbol := t.occurrences.eraseDups

mutual

/-- The tree with other literals. -/
def map {μ : Type} (f : ν → μ) : Tree ν → Tree μ
  | literal value => literal (f value)
  | apply symbol args => apply symbol (mapAll f args)
  | malformed error source => malformed error source

def mapAll {μ : Type} (f : ν → μ) : List (Tree ν) → List (Tree μ)
  | [] => []
  | arg :: args => map f arg :: mapAll f args

end

mutual

@[simp] theorem occurrences_map {μ : Type} (f : ν → μ) (t : Tree ν) :
    (t.map f).occurrences = t.occurrences := by
  cases t with
  | literal => rfl
  | apply symbol args => simp only [map, occurrences, occurrencesIn_mapAll f args]
  | malformed => rfl

@[simp] theorem occurrencesIn_mapAll {μ : Type} (f : ν → μ) (ts : List (Tree ν)) :
    occurrencesIn (mapAll f ts) = occurrencesIn ts := by
  cases ts with
  | nil => rfl
  | cons t ts =>
    simp only [mapAll, occurrencesIn, occurrences_map f t, occurrencesIn_mapAll f ts]

end

@[simp] theorem mem_symbols {t : Tree ν} {s : Symbol} : s ∈ t.symbols ↔ s ∈ t.occurrences :=
  List.mem_eraseDups

/-- Whether the tree is a conditional with a condition and two branches. -/
def isTernary : Tree ν → Bool
  | apply (.infixOp op) [_, _, _] => op == "?:"
  | _ => false

mutual

/-- Equality of trees whose literals are compared by `==`. -/
protected def beq [BEq ν] : Tree ν → Tree ν → Bool
  | literal a, literal b => a == b
  | apply s as, apply t bs => s == t && Tree.beqAll as bs
  | malformed e s, malformed f t => e == f && s == t
  | _, _ => false

protected def beqAll [BEq ν] : List (Tree ν) → List (Tree ν) → Bool
  | [], [] => true
  | a :: as, b :: bs => Tree.beq a b && Tree.beqAll as bs
  | _, _ => false

end

instance [BEq ν] : BEq (Tree ν) := ⟨Tree.beq⟩

end Tree
end Formula
