import ShapeQuery.Declaration.SourceToken

/-!
# Attributes of items and fields

An item and each of its fields may carry attributes.  Only attributes with the
path `apicalypse` count, and there may be one of them at most.  Its options are
`nested` and `name = "…"`, separated by single commas, with an optional comma at
the end; a later `name` replaces an earlier one.

Options are read from left to right, and the first thing that does not fit gives
the error.  A key is compared as a whole path: one with a separator is never known,
but it has to be a path before it is unknown.
-/

namespace ShapeQuery

namespace Declaration

/-- Why a declared item is not a shape. -/
inductive DeclarationError
  | genericItem
  | unnamedFields
  | notRecord
  | nestedItem
  | mapField
  | duplicateAttribute
  | assignedAttribute
  | unknownOption
  | literalOption
  | tokenOption
  | optionMissing
  | segmentMissing
  | segmentExpected
  | equalsExpected
  | textMissing
  | textExpected
  | commaExpected
  deriving DecidableEq

namespace DeclarationError

def message : DeclarationError → String
  | genericItem => "Apicalypse cannot be derived for generic types"
  | unnamedFields => "Apicalypse requires a struct with named fields"
  | notRecord => "Apicalypse can only be derived for structs"
  | nestedItem => "`nested` is a field attribute, not a struct attribute"
  | mapField =>
      "map fields cannot be selected; declare a collection or a nested shape instead"
  | duplicateAttribute => "duplicate #[apicalypse] attribute"
  | assignedAttribute =>
      "expected #[apicalypse(name = \"...\")] or #[apicalypse(nested)]"
  | unknownOption => "unknown apicalypse option; expected `name = \"...\"` or `nested`"
  | literalOption => "unexpected literal in nested attribute, expected ident"
  | tokenOption => "unexpected token in nested attribute, expected ident"
  | optionMissing => "unexpected end of input, expected nested attribute"
  | segmentMissing => "unexpected end of input, expected ident"
  | segmentExpected => "expected ident"
  | equalsExpected => "expected `=`"
  | textMissing => "unexpected end of input, expected string literal"
  | textExpected => "expected string literal"
  | commaExpected => "expected `,`"

end DeclarationError

/-- What follows the path of an attribute. -/
inductive AttributeForm
  | bare
  /-- A value after an equality sign. -/
  | assigned
  | options (tokens : List SourceToken)
  deriving DecidableEq

/-- An attribute of an item or a field. -/
structure Attribute where
  path : Path
  form : AttributeForm
  deriving DecidableEq

/-- What the options of an attribute say. -/
structure Options where
  name : Option String
  nested : Bool
  deriving DecidableEq

def attributeName : String :=
  "apicalypse"

/-- The options that have a meaning. -/
inductive OptionKey
  | name
  | nested
  deriving DecidableEq

namespace OptionKey

/-- The option that a word stands for. -/
def ofWord? (name : String) : Option OptionKey :=
  if name = "name" then some .name
  else if name = "nested" then some .nested
  else none

end OptionKey

namespace Options

def empty : Options :=
  ⟨none, false⟩

/-- Why no option begins with these tokens, the first of them being no word. -/
def misfit : List SourceToken → DeclarationError
  | [] => .optionMissing
  | .text _ :: _ => .literalOption
  | .number :: _ => .literalOption
  | .literal :: _ => .literalOption
  | .sign '-' :: .number :: _ => .literalOption
  | _ => .tokenOption

/-- Why a key fails whose path goes on with these tokens after a separator. -/
def pathMisfit : List SourceToken → DeclarationError
  | [] => .segmentMissing
  | .word _ :: .pathSign :: rest => pathMisfit rest
  | .word _ :: _ => .unknownOption
  | _ => .segmentExpected

/-- Why a key fails whose path begins with a separator and goes on with these
tokens. -/
def globalMisfit : List SourceToken → DeclarationError
  | .word name :: rest => pathMisfit (.word name :: rest)
  | tokens => misfit tokens

mutual

/-- Reads options from where one may begin. -/
def read (o : Options) : List SourceToken → Except DeclarationError Options
  | [] => .ok o
  | .pathSign :: rest => .error (globalMisfit rest)
  | .word _ :: .pathSign :: rest => .error (pathMisfit rest)
  | .word name :: rest =>
    match OptionKey.ofWord? name with
    | none => .error .unknownOption
    | some .nested => readNext { o with nested := true } rest
    | some .name =>
      match rest with
      | [.sign '='] => .error .textMissing
      | .sign '=' :: .text value :: rest => readNext { o with name := some value } rest
      | .sign '=' :: _ => .error .textExpected
      | _ => .error .equalsExpected
  | tokens => .error (misfit tokens)

/-- Reads options from the end of one of them. -/
def readNext (o : Options) : List SourceToken → Except DeclarationError Options
  | [] => .ok o
  | .sign ',' :: rest => read o rest
  | _ => .error .commaExpected

end

/-- The options of one attribute that counts. -/
def ofForm : AttributeForm → Except DeclarationError Options
  | .bare => .ok empty
  | .assigned => .error .assignedAttribute
  | .options tokens => empty.read tokens

/-- Reads attributes after what was found so far. -/
def find (found : Option Options) :
    List Attribute → Except DeclarationError (Option Options)
  | [] => .ok found
  | a :: rest =>
    if a.path.segments = [attributeName] then
      match found with
      | some _ => .error .duplicateAttribute
      | none =>
        match ofForm a.form with
        | .error e => .error e
        | .ok o => find (some o) rest
    else find found rest

/-- The options that a list of attributes gives, if one of them counts. -/
def ofAttributes (attributes : List Attribute) :
    Except DeclarationError (Option Options) :=
  find none attributes

end Options

end Declaration

end ShapeQuery
