set_option autoImplicit false

/-!
# Symbols

Names of variables are numbered in the order of their first occurrence; a symbol is the number of
a name.  `Bindings` gives values to symbols, in the order of the symbols.
-/

namespace RegionTree

/-- The number of a name. -/
abbrev Symbol := Nat

/-- Names without repetition, in the order of first occurrence. -/
structure SymbolTable where
  names : List String
  deriving DecidableEq, Repr, Inhabited

namespace SymbolTable

/-- The table without names. -/
def empty : SymbolTable := ⟨[]⟩

/-- The symbol of a name in the table. -/
def get? (t : SymbolTable) (name : String) : Option Symbol :=
  t.names.findIdx? (· == name)

/-- The symbol of a name, which is added if it is not in the table. -/
def intern (t : SymbolTable) (name : String) : Symbol × SymbolTable :=
  match t.get? name with
  | some symbol => (symbol, t)
  | none => (t.names.length, ⟨t.names ++ [name]⟩)

/-- The name of a symbol. -/
def name? (t : SymbolTable) (symbol : Symbol) : Option String := t.names[symbol]?

/-- The number of names. -/
def size (t : SymbolTable) : Nat := t.names.length

end SymbolTable

/-- Values of symbols, in increasing order of the symbols. -/
structure Bindings where
  entries : List (Symbol × String)
  deriving DecidableEq, Repr, Inhabited

namespace Bindings

/-- No values. -/
def empty : Bindings := ⟨[]⟩

/-- The value of a symbol. -/
def get? (b : Bindings) (symbol : Symbol) : Option String := b.entries.lookup symbol

/-- Entries with the value of one symbol set. -/
def setIn (symbol : Symbol) (value : String) : List (Symbol × String) → List (Symbol × String)
  | [] => [(symbol, value)]
  | (s, v) :: rest =>
    if symbol < s then (symbol, value) :: (s, v) :: rest
    else if symbol = s then (s, value) :: rest
    else (s, v) :: setIn symbol value rest

/-- The values with that of one symbol set. -/
def set (b : Bindings) (symbol : Symbol) (value : String) : Bindings :=
  ⟨setIn symbol value b.entries⟩

/-- The values without that of one symbol. -/
def remove (b : Bindings) (symbol : Symbol) : Bindings :=
  ⟨b.entries.filter fun entry => entry.1 != symbol⟩

/-- The values in a list; of two for one symbol the later counts. -/
def ofList (l : List (Symbol × String)) : Bindings :=
  l.foldl (fun b entry => b.set entry.1 entry.2) empty

/-- The number of values. -/
def size (b : Bindings) : Nat := b.entries.length

end Bindings

end RegionTree
