/-
  TypeSig.Proofs.Rules.Unbounded

  The default rules and the writer of signature texts where texts have no bound. They
  are the reference for the ones on bounded texts: they say what is made of a tree, and
  leave out how much room there is for it and for what is made on the way.

  A type expression does not exist where a union in it has no case or more distinct
  cases than unions may have, and neither does what has such a type expression in it.
-/

import TypeSig.Overload.Basic
import TypeSig.Proofs.Target.Unbounded
import TypeSig.Signature.Writer

namespace TypeSig.Unbounded

/-! ## Texts in parts -/

/-- A part of a text, if it exists. -/
abbrev Part := Option Bytes

/-- The parts of a text in a row. Without one of them there is no text. -/
def concat : List Part → Option Bytes
  | [] => some []
  | part :: rest => do
    let bytes ← part
    let others ← concat rest
    some (bytes ++ others)

/-- Items in brackets, with a separator between two of them. -/
def listing (opening separator closing : Bytes) (items : List (List Part)) : Option Bytes :=
  concat (some opening :: List.intercalate [some separator] items ++ [some closing])

/-- A child of an object with its type expression, if there is one. -/
structure Field where
  name : Bytes
  optional : Bool
  type : Option Bytes

/-- The names for fields. -/
def namesOf (fields : List Field) : List Bytes :=
  fieldNames (fields.map Field.name)

/-! ## Types in line -/

/-- The type expression for an atomic type. -/
def atomic (type : Atomic) : Bytes :=
  match type.kind with
  | .string => ascii "string"
  | .number => ascii "float"
  | .bool => ascii "bool"
  | .func => ascii "Func<obj, obj>"
  | .object => ascii "obj"
  | .element => ascii "ReactElement"
  | .elementType => ascii "ReactElementType"
  | .stringLiteral => quotedCode type.text
  | .other => type.text

/-- A member of an anonymous record. -/
def memberParts (field : Field) (name : Bytes) : List Part :=
  [some name, some (ascii ": "), field.type] ++
    if field.optional then [some (ascii " option")] else []

/-- An anonymous record. -/
def record (fields : List Field) : Option Bytes :=
  listing (ascii "\x7b| ") (ascii "; ") (ascii " |\x7d")
    (List.zipWith memberParts fields (namesOf fields))

/-- The union of types, of which those that are alike count once. -/
def unionOf (arity : Nat) (types : List Bytes) : Option Bytes :=
  match types.eraseDups with
  | [] => none
  | [only] => some only
  | distinct =>
    if distinct.length ≤ arity then
      some (ascii "U" ++ decimal distinct.length ++ ascii "<" ++
        List.intercalate (ascii ", ") distinct ++ ascii ">")
    else
      none

/-- The type expression for a case of a union out of its own; a literal widens. -/
def caseType (label : Label) (type : Option Bytes) : Option Bytes :=
  if label.isLiteral then some (ascii "string") else type

mutual

/-- The type expression for a tree. -/
def nested (arity : Nat) : TypeTree → Option Bytes
  | .node (.atomic type) _ => some (atomic type)
  | .node .object children => record (fields arity children)
  | .node (.field _ _) children => nestedHead arity children
  | .node .array children => concat [nestedHead arity children, some (ascii " []")]
  | .node .union children => (caseTypes arity children).bind (unionOf arity)

/-- The type expression for the first of several trees. -/
def nestedHead (arity : Nat) : List TypeTree → Option Bytes
  | [] => none
  | tree :: _ => nested arity tree

/-- The children of an object, each read as a field. -/
def fields (arity : Nat) : List TypeTree → List Field
  | [] => []
  | .node label children :: rest =>
    ⟨label.text, label.optional, nestedHead arity children⟩ :: fields arity rest

/-- The type expressions for the children of a union. -/
def caseTypes (arity : Nat) : List TypeTree → Option (List Bytes)
  | [] => some []
  | tree :: rest =>
    (caseType tree.label (nested arity tree)).bind fun type =>
      (caseTypes arity rest).map fun others => type :: others

end

theorem fields_eq_map (arity : Nat) (trees : List TypeTree) :
    fields arity trees = trees.map fun tree =>
      ⟨tree.label.text, tree.label.optional, nestedHead arity tree.children⟩ := by
  induction trees with
  | nil => rfl
  | cons tree rest ih =>
    obtain ⟨label, children⟩ := tree
    simp [fields, ih]

/-! ## Outermost types -/

/-- A generated method with texts of any length. -/
structure Method where
  kind : OverloadKind
  name : Bytes
  params : Bytes
  body : Bytes
  deriving DecidableEq

namespace Method

/-- A method with parameters. -/
def regular (params body : Bytes) : Method :=
  ⟨.regular, [], params, body⟩

/-- A method that stands for a value. -/
def enum (name value : Bytes) : Method :=
  ⟨.enum, name, [], value⟩

/-- Two methods are declared as the same one. -/
def sameIdentity (x y : Method) : Bool :=
  x.kind == y.kind &&
    match x.kind with
    | .regular => x.params == y.params && x.body == y.body
    | .enum => x.name == y.name && x.params == y.params

/-- The parameters and the body, of a method that has parameters. -/
def texts (method : Method) : List Bytes :=
  match method.kind with
  | .regular => [method.params, method.body]
  | .enum => []

@[simp] theorem texts_regular (params body : Bytes) :
    (regular params body).texts = [params, body] := rfl

/-- Methods with one more behind them, unless an earlier one is the same. -/
def insert (methods : List Method) (new : Method) : List Method :=
  if methods.any fun old => old.sameIdentity new then methods else methods ++ [new]

/-- The first of each method. -/
def distinct (methods : List Method) : List Method :=
  methods.foldl insert []

end Method

/-- A named parameter. -/
def parameterParts (field : Field) (name : Bytes) : List Part :=
  (if field.optional then [some [Byte.questionMark]] else []) ++
    [some name, some (ascii ": "), field.type]

/-- A parameter list. -/
def parameters (fields : List Field) : Option Bytes :=
  listing (ascii "(") (ascii ", ") (ascii ")")
    (List.zipWith parameterParts fields (namesOf fields))

/-- A source name paired with the name of its value. -/
def entryParts (source name : Bytes) : List Part :=
  [some (quotedCode source), some (ascii " ==> "), some name]

/-- The object with the given source names. -/
def objectLiteral (sources : List Bytes) : Option Bytes :=
  listing (ascii "createObj [ ") (ascii "; ") (ascii " ]")
    (List.zipWith entryParts sources (fieldNames sources))

/-- The methods that a case adds to a union out of its own: a literal is enumerated. -/
def caseMethod (label : Label) (methods : Option (List Method)) : Option (List Method) :=
  match label.literal? with
  | some text => some [.enum (adaptName text) (quotedCode text)]
  | none => methods

mutual

/-- The methods for a tree as the outermost type. -/
def topLevel (arity : Nat) : TypeTree → Option (List Method)
  | .node (.atomic type) _ =>
    some [.regular (ascii "(value: " ++ atomic type ++ ascii ")") (ascii "value")]
  | .node .object children => do
    let params ← parameters (fields arity children)
    let body ← objectLiteral ((fields arity children).map Field.name)
    some [.regular params body]
  | .node (.field _ _) children => topLevelHead arity children
  | .node .array children => do
    let params ← concat
      [some (ascii "([<ParamArray>] values: "), nestedHead arity children, some (ascii " [])")]
    some [.regular params (ascii "values")]
  | .node .union children => (caseMethods arity children).map Method.distinct

/-- The methods for the first of several trees. -/
def topLevelHead (arity : Nat) : List TypeTree → Option (List Method)
  | [] => none
  | tree :: _ => topLevel arity tree

/-- The methods for the children of a union. -/
def caseMethods (arity : Nat) : List TypeTree → Option (List Method)
  | [] => some []
  | tree :: rest =>
    (caseMethod tree.label (topLevel arity tree)).bind fun methods =>
      (caseMethods arity rest).map fun others => methods ++ others

end

/-! ## Signature texts -/

/-- A text in the quotes that it needs. -/
def inQuotes (text : Bytes) : Bytes :=
  [Signature.quoteFor text] ++ text ++ [Signature.quoteFor text]

mutual

/-- The signature text of a tree. -/
def signature : TypeTree → Bytes
  | .node (.atomic ⟨.other, text⟩) _ => text
  | .node (.atomic ⟨.stringLiteral, text⟩) _ => inQuotes text
  | .node (.atomic ⟨kind, _⟩) _ => Signature.keyword kind
  | .node .array children => ascii "Array<" ++ signatureHead children ++ [Byte.closeAngle]
  | .node .union children => List.intercalate (ascii " | ") (signatures children)
  | .node .object children =>
    [Byte.openBrace] ++ List.intercalate (ascii ", ") (signatures children) ++ [Byte.closeBrace]
  | .node (.field name optional) children =>
    (if isName name then name else inQuotes name) ++
      (if optional then [Byte.questionMark] else []) ++ ascii ": " ++ signatureHead children

/-- The signature text of the first of several trees. -/
def signatureHead : List TypeTree → Bytes
  | [] => []
  | tree :: _ => signature tree

/-- The signature text of each of several trees. -/
def signatures : List TypeTree → List Bytes
  | [] => []
  | tree :: rest => signature tree :: signatures rest

end

end TypeSig.Unbounded
