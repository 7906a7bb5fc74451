import ShapeQuery.FieldPath

/-!
# Calls on a registry

The four things that can be asked about a shape of a table, as data.  A call
answers and leaves a registry behind; `Registry.run` puts calls one after another
to one registry.
-/

namespace ShapeQuery

/-- A question about one shape. -/
inductive RegistryCall (ι : Type)
  /-- The checked form, resolved through the registry. -/
  | resolve (i : ι)
  /-- The checked form, found without the registry. -/
  | check (i : ι)
  | fieldList (i : ι)
  | paths (i : ι)
  deriving DecidableEq

/-- The answer to a question about one shape. -/
inductive RegistryAnswer (ι : Type)
  | failed (e : ShapeError)
  | checked (c : CheckedShape ι)
  | fieldList (text : String)
  | paths (paths : List String)
  deriving DecidableEq

namespace RegistryAnswer

variable {ι α : Type}

/-- The answer made of a result. -/
def ofExcept (f : α → RegistryAnswer ι) : Except ShapeError α → RegistryAnswer ι
  | .error e => failed e
  | .ok a => f a

end RegistryAnswer

namespace Registry

variable {ι : Type} [DecidableEq ι]

/-- Answers one call. -/
def answer (t : ShapeTable ι) (r : Registry ι) :
    RegistryCall ι → RegistryAnswer ι × Registry ι
  | .resolve i => (r.resolve t i).map (.ofExcept .checked) id
  | .check i => (.ofExcept .checked (t.check i), r)
  | .fieldList i => (r.fieldList t i).map (.ofExcept .fieldList) id
  | .paths i => (r.paths t i).map (.ofExcept .paths) id

/-- Answers calls one after another, and gives the registry after each of them. -/
def run (t : ShapeTable ι) (r : Registry ι) :
    List (RegistryCall ι) → List (RegistryAnswer ι × Registry ι)
  | [] => []
  | call :: rest =>
      let done := r.answer t call
      done :: run t done.2 rest

/-- The registry that calls leave behind. -/
def after (t : ShapeTable ι) (r : Registry ι) : List (RegistryCall ι) → Registry ι
  | [] => r
  | call :: rest => after t (r.answer t call).2 rest

theorem run_concat
    (t : ShapeTable ι) (r : Registry ι) (calls : List (RegistryCall ι)) (call : RegistryCall ι) :
    r.run t (calls ++ [call]) = r.run t calls ++ [(r.after t calls).answer t call] := by
  induction calls generalizing r with
  | nil =>
      rfl
  | cons first rest ih =>
      simp [run, after, ih]

end Registry
end ShapeQuery
