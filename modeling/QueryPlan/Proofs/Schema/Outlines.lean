import QueryPlan.Proofs.Run
import QueryPlan.Proofs.Schema.Declarations

/-!
# Outlines of documents

Whether the declarations of a document fit together can be seen from its outline: the names and
kinds of types, what they name as interfaces and members, the names and types of their fields, and
the root types. What an outline does not show is never looked at: places and descriptions, the
values of enums, and all inputs, which are the arguments of fields and the fields of input objects.
-/

set_option autoImplicit false

namespace QueryPlan

namespace Syntax

/-- Both bodies have the same outline. -/
structure TypeBody.SameOutline (b c : TypeBody) : Prop where
  kind : b.kind = c.kind
  interfaces : b.interfaces = c.interfaces
  fields : b.fields.map (fun f => (f.name, f.type)) = c.fields.map fun f => (f.name, f.type)
  members : b.members = c.members

structure TypeDeclaration.SameOutline (d e : TypeDeclaration) : Prop where
  name : d.name = e.name
  body : d.body.SameOutline e.body

inductive SchemaDefinition.SameOutline : SchemaDefinition → SchemaDefinition → Prop
  | roots {r r' : RootTypes} : r.named = r'.named → SameOutline (.roots r) (.roots r')
  | type {d e : TypeDeclaration} : d.SameOutline e → SameOutline (.type d) (.type e)
  | extension {d e : TypeDeclaration} : d.SameOutline e → SameOutline (.extension d) (.extension e)
  | directive {name name' : String} : SameOutline (.directive name) (.directive name')

/-- Both documents have the same outline, definition by definition. -/
def SchemaDocument.SameOutline (ds ds' : SchemaDocument) : Prop :=
  List.Forall₂ SchemaDefinition.SameOutline ds ds'

namespace TypeBody

variable {b c : TypeBody}

theorem SameOutline.symm (h : b.SameOutline c) : c.SameOutline b :=
  ⟨h.kind.symm, h.interfaces.symm, h.fields.symm, h.members.symm⟩

/-- Extensions of the same outlines add the same to an outline. -/
theorem SameOutline.extendedBy (h : b.SameOutline c) {es es' : List TypeBody}
    (hes : List.Forall₂ SameOutline es es') : (b.extendedBy es).SameOutline (c.extendedBy es') := by
  have hinterfaces : es.flatMap TypeBody.interfaces = es'.flatMap TypeBody.interfaces := by
    rw [List.flatMap_def, List.flatMap_def, map_eq_of_forall₂ hes fun _ _ he => he.interfaces]
  have hmembers : es.flatMap TypeBody.members = es'.flatMap TypeBody.members := by
    rw [List.flatMap_def, List.flatMap_def, map_eq_of_forall₂ hes fun _ _ he => he.members]
  have hfields : (b.fields ++ es.flatMap TypeBody.fields).map (fun f => (f.name, f.type)) =
      (c.fields ++ es'.flatMap TypeBody.fields).map fun f => (f.name, f.type) := by
    rw [List.map_append, List.map_append, List.map_flatMap, List.map_flatMap, List.flatMap_def,
      List.flatMap_def, map_eq_of_forall₂ hes fun _ _ he => he.fields, h.fields]
  obtain ⟨hkind, hi, -, hm⟩ := h
  cases b <;> cases c <;> cases hkind
  case object.object.refl => exact ⟨rfl, congrArg₂ (· ++ ·) hi hinterfaces, hfields, rfl⟩
  -- an interface does not take over the interfaces of its extensions
  case interface.interface.refl => exact ⟨rfl, hi, hfields, rfl⟩
  case union.union.refl => exact ⟨rfl, rfl, rfl, congrArg₂ (· ++ ·) hm hmembers⟩
  all_goals exact ⟨rfl, rfl, rfl, rfl⟩

theorem SameOutline.apart (h : b.SameOutline c) (hb : b.Apart) : c.Apart where
  interfaces := h.interfaces ▸ hb.interfaces
  fields := by
    have hnames := congrArg (List.map Prod.fst) h.fields
    rw [List.map_map, List.map_map] at hnames
    exact hnames ▸ hb.fields
  members := h.members ▸ hb.members

end TypeBody

theorem TypeDeclaration.SameOutline.symm {d e : TypeDeclaration} (h : d.SameOutline e) :
    e.SameOutline d :=
  ⟨h.name.symm, h.body.symm⟩

theorem TypeDeclaration.SameOutline.redeclaresBuiltin {d e : TypeDeclaration}
    (h : d.SameOutline e) :
    SchemaBuilder.redeclaresBuiltin d = SchemaBuilder.redeclaresBuiltin e := by
  obtain ⟨name, description, body, position⟩ := d
  obtain ⟨name', description', body', position'⟩ := e
  obtain ⟨rfl, hkind, -, -, -⟩ := h
  cases body <;> cases body' <;> cases hkind <;> rfl

namespace SchemaDefinition

variable {x y : SchemaDefinition}

theorem SameOutline.symm (h : x.SameOutline y) : y.SameOutline x := by
  cases h with
  | roots h => exact .roots h.symm
  | type h => exact .type h.symm
  | extension h => exact .extension h.symm
  | directive => exact .directive

theorem SameOutline.definedType? (h : x.SameOutline y) :
    Option.Rel TypeDeclaration.SameOutline x.definedType? y.definedType? := by
  cases h with
  | type h =>
      rw [SchemaDefinition.definedType?, SchemaDefinition.definedType?, h.redeclaresBuiltin]
      split
      · exact .none
      · exact .some h
  | _ => exact .none

theorem SameOutline.extension? (h : x.SameOutline y) :
    Option.Rel TypeDeclaration.SameOutline x.extension? y.extension? := by
  cases h with
  | extension h => exact .some h
  | _ => exact .none

theorem SameOutline.root? (h : x.SameOutline y) (kind : OperationKind) :
    x.root? kind = y.root? kind := by
  cases h with
  | roots h => exact congrFun h kind
  | _ => rfl

end SchemaDefinition

namespace SchemaDocument

variable {ds ds' : SchemaDocument}

theorem SameOutline.symm (h : ds.SameOutline ds') : ds'.SameOutline ds :=
  h.flip.imp fun _ _ hx => hx.symm

section Outline

variable (h : ds.SameOutline ds')

include h

theorem SameOutline.definedTypes :
    List.Forall₂ TypeDeclaration.SameOutline ds.definedTypes ds'.definedTypes :=
  List.rel_filterMap (fun _ _ hx => hx.definedType?) h

theorem SameOutline.extensions :
    List.Forall₂ TypeDeclaration.SameOutline ds.extensions ds'.extensions :=
  List.rel_filterMap (fun _ _ hx => hx.extension?) h

theorem SameOutline.rootNames (kind : OperationKind) : ds.rootNames kind = ds'.rootNames kind := by
  have hnames := congrArg (List.filterMap id)
    (map_eq_of_forall₂ h fun _ _ hx => hx.root? kind)
  rwa [List.filterMap_map, List.filterMap_map] at hnames

theorem SameOutline.typeNames : ds.typeNames = ds'.typeNames :=
  congrArg (BuiltinScalar.all.map (·.name) ++ ·)
    (map_eq_of_forall₂ h.definedTypes fun _ _ hd => hd.name)

theorem SameOutline.bodyOf {d e : TypeDeclaration} (hd : d.SameOutline e) :
    (ds.bodyOf d).SameOutline (ds'.bodyOf e) := by
  have hextensions : List.Forall₂ TypeDeclaration.SameOutline
      (ds.extensionsOf d.name) (ds'.extensionsOf e.name) :=
    List.rel_filter (fun x y hx => by simp [hx.name, hd.name]) h.extensions
  exact hd.body.extendedBy (List.rel_map (fun _ _ hx => hx.body) hextensions)

theorem SameOutline.defines {kind : TypeKind} {name : String} (hname : ds.Defines kind name) :
    ds'.Defines kind name := by
  obtain ⟨d, hd, rfl, rfl⟩ := hname
  obtain ⟨e, he, hde⟩ := exists_of_mem_left h.definedTypes hd
  exact ⟨e, he, hde.name.symm, hde.body.kind.symm⟩

theorem SameOutline.defines_iff {kind : TypeKind} {name : String} :
    ds.Defines kind name ↔ ds'.Defines kind name :=
  ⟨h.defines, h.symm.defines⟩

theorem SameOutline.rootFor (kind : OperationKind) : ds.rootFor kind = ds'.rootFor kind := by
  simp only [SchemaDocument.rootFor, h.rootNames, h.defines_iff]

theorem SameOutline.closes {b c : TypeBody} (hbc : b.SameOutline c) (hb : ds.Closes b) :
    ds'.Closes c where
  fields g hg hne := by
    -- the field stands for one of the same name and type
    have hmem : (g.name, g.type) ∈ b.fields.map fun f => (f.name, f.type) :=
      hbc.fields ▸ List.mem_map_of_mem hg
    obtain ⟨f, hf, hsame⟩ := List.mem_map.1 hmem
    obtain ⟨hname, htype⟩ := Prod.mk.inj hsame
    have hinnermost := hb.fields f hf (hname ▸ hne)
    rw [FieldDefinition.element, htype, h.typeNames] at hinnermost
    exact hinnermost
  interfaces i hi := h.defines (hb.interfaces i (hbc.interfaces ▸ hi))
  members m hm := h.defines (hb.members m (hbc.members ▸ hm))

/-- The outline of a document shows whether its declarations fit together. -/
theorem Sound.sameOutline (hds : ds.Sound) : ds'.Sound where
  names := h.typeNames ▸ hds.names
  extensions e he := by
    obtain ⟨d, hd, hde⟩ := exists_of_mem_right h.extensions he
    rw [← hde.name, ← hde.body.kind]
    exact h.defines (hds.extensions d hd)
  apart e he := by
    obtain ⟨d, hd, hde⟩ := exists_of_mem_right h.definedTypes he
    exact (h.bodyOf hde).apart (hds.apart d hd)
  closes e he := by
    obtain ⟨d, hd, hde⟩ := exists_of_mem_right h.definedTypes he
    exact h.closes (h.bodyOf hde) (hds.closes d hd)
  roots kind := h.rootNames kind ▸ hds.roots kind
  rootObjects kind name hname := h.defines (hds.rootObjects kind name (h.rootNames kind ▸ hname))
  query := h.rootFor .query ▸ hds.query

end Outline

/-- Documents of the same outline are sound together. -/
theorem SameOutline.sound_iff (h : ds.SameOutline ds') : ds.Sound ↔ ds'.Sound :=
  ⟨.sameOutline h, .sameOutline h.symm⟩

end SchemaDocument

end Syntax

end QueryPlan
