import Livingstone.Jmpl.Logic

/-! The call of a relation (`EqualityExpression.java`, `RelationExpression.java`): the identifiers in
its body are replaced for the arguments of the call. -/

namespace Livingstone
namespace Jmpl

inductive JmplException where
  | syntaxError (message : String)
  | compilerError (message : String)
  | exception (message : String)
  | arrayIndexOutOfBounds (index size : ℕ)
  | nullPointer
  deriving DecidableEq, Repr

inductive TypeType where
  | attributeType
  | componentType
  deriving DecidableEq, Repr

/-- The declaration of an attribute. `compileType` is the type that it finds, the exception that it
throws, or `none` when no type is set. -/
structure AttributeDeclaration where
  name : String
  compileType : Except JmplException (Option TypeType)

/-- The attributes that a component type declares, those nested into each of its attribute types, and
the type that it extends. -/
inductive ComponentType where
  | mk (attributes : List AttributeDeclaration) (attributeTypes : List (List AttributeDeclaration))
      (superComponentType : Option ComponentType)

def ComponentType.findAttributeDeclaration (name : String) :
    ComponentType → Option AttributeDeclaration
  | .mk attributes attributeTypes superComponentType =>
    match attributes.find? fun a => a.name == name with
    | some a => some a
    | none =>
      match attributeTypes.flatten.find? fun a => a.name == name with
      | some a => some a
      | none =>
        match superComponentType with
        | some type => type.findAttributeDeclaration name
        | none => none

inductive RelationParent where
  | attributeType (values attributes : List String)
  | componentType (type : ComponentType)
  | other

structure Relation where
  name : String
  arguments : List String
  parent : RelationParent

/-- The part of an identifier before its first dot. -/
def identBase (identifier : String) : String :=
  String.ofList (identifier.toList.takeWhile (· ≠ '.'))

def identExtension (identifier : String) : String :=
  String.ofList (identifier.toList.dropWhile (· ≠ '.'))

/-- An identifier behind the owner of a relation, if there is one. -/
def prefixed (relationOwner : Option String) (identifier : String) : String :=
  match relationOwner with
  | some owner => owner ++ "." ++ identifier
  | none => identifier

def tooFewArguments : JmplException := .syntaxError "syntax error: call has too few arguments"

def elementAt (values : List String) (index : ℕ) : Except JmplException String :=
  match values[index]? with
  | some value => .ok value
  | none => .error (.arrayIndexOutOfBounds index values.length)

namespace EqualityExpression

/-- Whether an attribute of a component type is meant. A base has no dots, so that the tokenizer
returns it as it is, or nothing if it is empty, and the loop makes no second turn. -/
def needsPrefix (relationName : String) (type : ComponentType) (argumentBase : String) :
    Except JmplException Bool :=
  if argumentBase = "" then .ok true
  else
    match type.findAttributeDeclaration argumentBase with
    | none => .ok false
    | some attributeDeclaration =>
      match attributeDeclaration.compileType with
      | .error e => .error e
      | .ok (some _) => .ok true
      | .ok none => .error (.compilerError ("compiler error: attribute '" ++
          attributeDeclaration.name ++ "' in relation '" ++ relationName ++ "' has no type'"))

/-- A missing owner is returned as `none`, which is null. -/
def substituteArgument (argument : String) (relation : Relation) (values : List String)
    (relationOwner : Option String) : Except JmplException (Option String) :=
  if argument = "this" then .ok relationOwner
  else
    let argNum := relation.arguments.idxOf (identBase argument)
    if argNum < relation.arguments.length then
      if argNum > values.length then .error tooFewArguments
      else do
        let value ← elementAt values argNum
        return some (value ++ identExtension argument)
    else
      match relation.parent with
      -- a value of the type, or of another one
      | .attributeType _ _ => .ok (some argument)
      | .componentType type => do
        if ← needsPrefix relation.name type (identBase argument)
          then return some (prefixed relationOwner argument)
          else return some argument
      | .other => .error (.compilerError ("compiler error: relation '" ++ relation.name ++
          "' has no valid parent"))

def substitute (argument1 argument2 : String) (relation : Relation) (values : List String)
    (relationOwner : Option String) : Except JmplException (Option String × Option String) := do
  let argument1 ← substituteArgument argument1 relation values relationOwner
  let argument2 ← substituteArgument argument2 relation values relationOwner
  return (argument1, argument2)

end EqualityExpression

namespace RelationExpression

def substituteVariable (identifier : String) (arguments values : List String)
    (relationOwner : Option String) : Except JmplException String :=
  let argNum := arguments.idxOf (identBase identifier)
  if argNum = arguments.length then .ok (prefixed relationOwner identifier)
  else if argNum ≥ values.length then .error tooFewArguments
  else do
    let value ← elementAt values argNum
    return value ++ identExtension identifier

def substitute (name : String) (arguments : List String) (relation : Relation)
    (values : List String) (relationOwner : Option String) :
    Except JmplException (String × List String) := do
  let name ← if '.' ∉ name.toList then .ok (prefixed relationOwner name)
    else substituteVariable name relation.arguments values relationOwner
  let arguments ← arguments.mapM fun argument =>
    substituteVariable argument relation.arguments values relationOwner
  return (name, arguments)

end RelationExpression

end Jmpl
end Livingstone
