import QueryPlan.Proofs.Maps
import QueryPlan.Schema.Build

/-!
# Schemas up to places

A schema remembers where its elements were declared, for messages only. `placeless` forgets
that, of syntax trees as well as of schemas. Elements made from syntax that differs in nothing
but its places differ in nothing but their locations.
-/

set_option autoImplicit false

namespace QueryPlan

open QueryPlan.Syntax

/-! ## Syntax without positions -/

namespace Syntax

def InputValueDefinition.placeless (d : InputValueDefinition) : InputValueDefinition :=
  { d with position := .start }

def FieldDefinition.placeless (d : FieldDefinition) : FieldDefinition :=
  { d with arguments := d.arguments.map (·.placeless), position := .start }

def TypeBody.placeless : TypeBody → TypeBody
  | .scalar => .scalar
  | .object interfaces fields => .object interfaces (fields.map (·.placeless))
  | .interface interfaces fields => .interface interfaces (fields.map (·.placeless))
  | .union members => .union members
  | .enum values => .enum values
  | .inputObject fields => .inputObject (fields.map (·.placeless))

def TypeDeclaration.placeless (d : TypeDeclaration) : TypeDeclaration :=
  { d with body := d.body.placeless, position := .start }

def RootTypes.placeless (r : RootTypes) : RootTypes := { r with position := .start }

def SchemaDefinition.placeless : SchemaDefinition → SchemaDefinition
  | .roots r => .roots r.placeless
  | .type d => .type d.placeless
  | .extension d => .extension d.placeless
  | .directive name => .directive name

/-- The definitions of a document, wherever they stand. -/
def SchemaDocument.placeless (ds : SchemaDocument) : SchemaDocument := ds.map (·.placeless)

@[simp] theorem FieldDefinition.name_placeless (d : FieldDefinition) :
    d.placeless.name = d.name := rfl

@[simp] theorem FieldDefinition.type_placeless (d : FieldDefinition) :
    d.placeless.type = d.type := rfl

@[simp] theorem InputValueDefinition.name_placeless (d : InputValueDefinition) :
    d.placeless.name = d.name := rfl

@[simp] theorem TypeDeclaration.name_placeless (d : TypeDeclaration) :
    d.placeless.name = d.name := rfl

end Syntax

/-! ## Schemas without locations -/

def Parameter.placeless (p : Parameter) : Parameter := { p with location := .builtin }

def Field.placeless (f : Field) : Field :=
  { f with parameters := f.parameters.mapValues fun _ p => p.placeless, location := .builtin }

def GraphQLType.placeless : GraphQLType → GraphQLType
  | .builtin s => .builtin s
  | .enum t => .enum { t with location := .builtin }
  | .inputObject t =>
    .inputObject
      { t with fields := t.fields.mapValues fun _ p => p.placeless, location := .builtin }
  | .interface t =>
    .interface { t with fields := t.fields.mapValues fun _ f => f.placeless, location := .builtin }
  | .object t =>
    .object { t with fields := t.fields.mapValues fun _ f => f.placeless, location := .builtin }
  | .scalar t => .scalar { t with location := .builtin }
  | .union t =>
    .union { t with members := t.members.mapValues fun _ _ => .builtin, location := .builtin }

/-- A schema without the places where its elements were declared. -/
def Schema.placeless (s : Schema) : Schema :=
  { s with types := s.types.mapValues fun _ t => t.placeless }

@[simp] theorem Field.name_placeless (f : Field) : f.placeless.name = f.name := rfl

@[simp] theorem Field.type_placeless (f : Field) : f.placeless.type = f.type := rfl

/-! ## From syntax to schemas -/

/-- A parameter as its definition gives it, without its location. -/
def Syntax.InputValueDefinition.element (d : InputValueDefinition) : Parameter :=
  ⟨d.name, .ofTypeRef d.type, .builtin⟩

/-- A field as its definition gives it, without locations. -/
def Syntax.FieldDefinition.element (d : FieldDefinition) : Field :=
  ⟨d.name, .ofTypeRef d.type, .ofList (d.arguments.map fun a => (a.name, a.element)),
    d.description, .builtin⟩

@[simp] theorem Parameter.placeless_ofDefinition (file : String) (d : InputValueDefinition) :
    (Parameter.ofDefinition file d).placeless = d.element := rfl

theorem Parameter.placeless_collect (file : String) (ds : List InputValueDefinition) :
    (Parameter.collect file ds).mapValues (fun _ p => p.placeless)
      = .ofList (ds.map fun d => (d.name, d.element)) := by
  simp [Parameter.collect, OrderedMap.mapValues_ofList, Function.comp_def]

@[simp] theorem Field.placeless_ofDefinition (file : String) (d : FieldDefinition) :
    (Field.ofDefinition file d).placeless = d.element := by
  simp [Field.placeless, Field.ofDefinition, FieldDefinition.element, Parameter.placeless_collect]

@[simp] theorem Syntax.InputValueDefinition.element_placeless (d : InputValueDefinition) :
    d.placeless.element = d.element := rfl

@[simp] theorem Syntax.FieldDefinition.element_placeless (d : FieldDefinition) :
    d.placeless.element = d.element := by
  simp [FieldDefinition.element, FieldDefinition.placeless, Function.comp_def]

end QueryPlan
