import LinearProgram.Scalar

namespace LinearProgram

-- The index is the variable's column in the model that made it.
structure Variable where
  name : String
  index : Nat
deriving DecidableEq

-- `factor * variable`
structure Atom (α : Type) where
  var : Variable
  factor : α
deriving BEq

-- The sum of its atoms. A variable may occur in several of them.
structure Expression (α : Type) where
  atoms : List (Atom α)
deriving BEq

section
variable {α : Type}

namespace Expression

instance : EmptyCollection (Expression α) :=
  ⟨⟨[]⟩⟩

def ofTerms (terms : List (Variable × α)) : Expression α :=
  ⟨terms.map fun (v, factor) => ⟨v, factor⟩⟩

def addTerm (e : Expression α) (v : Variable) (factor : α) : Expression α :=
  ⟨e.atoms ++ [⟨v, factor⟩]⟩

instance : Add (Expression α) :=
  ⟨fun e f => ⟨e.atoms ++ f.atoms⟩⟩

def size (e : Expression α) : Nat :=
  e.atoms.length

-- Variables are compared by their column alone.
def contains (e : Expression α) (v : Variable) : Bool :=
  e.atoms.any fun a => a.var.index == v.index

-- The assignment covers every variable of the expression.
def fits (e : Expression α) (x : List α) : Bool :=
  e.atoms.all fun a => decide (a.var.index < x.length)

@[simp] theorem atoms_empty : (∅ : Expression α).atoms = [] := rfl

@[simp] theorem atoms_addTerm (e : Expression α) (v : Variable) (factor : α) :
    (e.addTerm v factor).atoms = e.atoms ++ [⟨v, factor⟩] := rfl

@[simp] theorem atoms_add (e f : Expression α) : (e + f).atoms = e.atoms ++ f.atoms := rfl

end Expression

variable [Scalar α]

def Atom.evaluate (a : Atom α) (value : α) : α :=
  a.factor * value

instance : Neg (Atom α) :=
  ⟨fun a => { a with factor := -a.factor }⟩

-- Merges an atom into atoms sorted by index. The atom that was there first keeps its variable and
-- stands on the left of the sum.
def Atom.insert (a : Atom α) : List (Atom α) → List (Atom α)
  | [] => [a]
  | b :: rest =>
    if a.var.index < b.var.index then
      a :: b :: rest
    else if a.var.index = b.var.index then
      { b with factor := b.factor + a.factor } :: rest
    else
      b :: a.insert rest

namespace Expression

instance : Neg (Expression α) :=
  ⟨fun e => ⟨e.atoms.map fun a => -a⟩⟩

instance : Sub (Expression α) :=
  ⟨fun e f => e + -f⟩

@[simp] theorem atoms_neg (e : Expression α) : (-e).atoms = e.atoms.map fun a => -a := rfl

@[simp] theorem atoms_sub (e f : Expression α) : (e - f).atoms = e.atoms ++ (-f).atoms := rfl

-- A variable that the assignment does not cover counts as zero.
def evaluate (e : Expression α) (x : List α) : α :=
  total (e.atoms.map fun a => a.evaluate (x.getD a.var.index 0))

def evaluate? (e : Expression α) (x : List α) : Option α :=
  if e.fits x then some (e.evaluate x) else none

-- One atom for each variable, in the order of the columns.
def simplify (e : Expression α) : Expression α :=
  ⟨e.atoms.foldl (fun atoms a => a.insert atoms) []⟩

-- Simplified, with a zero atom for each listed variable that is missing.
def simplifyFor (e : Expression α) (vs : List Variable) : Expression α :=
  (vs.foldl (fun e v => if e.contains v then e else e.addTerm v 0) e.simplify).simplify

-- The factor of the first atom of the variable, zero without one.
def factor (e : Expression α) (v : Variable) : α :=
  ((e.atoms.find? fun a => a.var.index == v.index).map (·.factor)).getD 0

-- The factors of the listed variables. Where a column is listed twice, the first place has them.
def factors (e : Expression α) (vs : List Variable) : Vector α vs.length :=
  let dense := e.simplifyFor vs
  Vector.ofFn fun k =>
    if vs.findIdx (fun v => v.index == (vs.get k).index) = k then dense.factor (vs.get k) else 0

end Expression

end

end LinearProgram
