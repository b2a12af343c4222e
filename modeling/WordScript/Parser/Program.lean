import WordScript.Parser.Statement

/-!
# Parsing programs

A program is a sequence of structs, functions, statics and statements in any order. A struct's name
is a type from its own body on.
-/

namespace WordScript

namespace Parse

def typedName : Parse (TypeName × Name) := do
  let type ← typeName
  return (type, ← name)

def function : Parse FunctionDecl := within "parsing function" do
  keyword "func"
  let returnType ← typeName
  let name ← name
  let _ ← symbol .openParen
  let params ← if ← peekSymbol .closeParen then pure [] else
    commaSeparated typedName (← get).allowance
  let _ ← symbol .closeParen
  let (body, _) ← block
  return ⟨name, returnType, params, body⟩

inductive Member
  | field (type : TypeName) (name : Name)
  | method (decl : FunctionDecl)

def Member.field? : Member → Option (TypeName × Name)
  | field type name => some (type, name)
  | method _ => none

def Member.method? : Member → Option FunctionDecl
  | field .. => none
  | method decl => some decl

def member : Parse Member := do
  if ← peekKeyword "func" then return .method (← function)
  else
    let (type, name) ← typedName
    let _ ← symbol .semicolon
    return .field type name

def struct : Parse StructDecl := within "parsing struct declaration" do
  keyword "struct"
  let name ← name
  declareType name.text
  let _ ← symbol .openBrace
  let members ← repeatWhile (return !(← peekSymbol .closeBrace)) member (← get).allowance
  let _ ← symbol .closeBrace
  return ⟨name, members.filterMap Member.field?, members.filterMap Member.method?⟩

inductive TopLevel
  | struct (decl : StructDecl)
  | function (decl : FunctionDecl)
  | static (decl : StaticDecl)
  | statement (s : Statement)

def topLevel : Parse TopLevel := do
  if ← peekKeyword "struct" then return .struct (← struct)
  else if ← peekKeyword "func" then return .function (← function)
  else if ← peekKeyword "static" then
    accept
    let (type, name, init, _) ← within "parsing static declaration" variableDeclaration
    return .static ⟨type, name, init⟩
  else return .statement (← statement)

def assemble : List TopLevel → Program
  | [] => ⟨[], [], [], []⟩
  | part :: rest =>
    let p := assemble rest
    match part with
    | .struct decl => { p with structs := decl :: p.structs }
    | .function decl => { p with functions := decl :: p.functions }
    | .static decl => { p with statics := decl :: p.statics }
    | .statement s => { p with body := s :: p.body }

def program : Parse Program := do
  let parts ← repeatWhile (return (← peek).isSome) topLevel (← get).allowance
  return assemble parts

end Parse

def Program.ofSource (source : SourceText) : Except (Fault ParseError) Program :=
  match Parse.program (.start source.chars) with
  | .ok p _ => .ok p
  | .error e _ => .error e

end WordScript
